import Synch.Direct.Halves

/-!
# What the writing half seals

Every poll of the writing half seals at most one record, under the next nonce.  A write
is sealed by its first poll and reported by the poll that finishes sending it.
-/

namespace Synch.Direct

namespace DirectWrite

variable {cipher : Cipher} {log : List Sealed} {w : DirectWrite}

/-- Two states of the half that differ in what they are sending only. -/
structure SameButOut (w w' : DirectWrite) : Prop where
  key : w'.key = w.key
  state : w'.state = w.state
  accepted : w'.accepted = w.accepted

theorem pollSend_same (w : DirectWrite) (script : List SocketWrite) :
    SameButOut w (w.pollSend script).1 := by
  induction script generalizing w with
  | nil =>
    unfold pollSend
    split <;> exact ⟨rfl, rfl, rfl⟩
  | cons outcome rest ih =>
    unfold pollSend
    split
    · cases outcome with
      | failed => exact ⟨rfl, rfl, rfl⟩
      | took count =>
        dsimp only
        split
        · exact ⟨rfl, rfl, rfl⟩
        · obtain ⟨hkey, hstate, haccepted⟩ :=
            ih { w with sent := w.sent + min count (w.out.length - w.sent) }
          exact ⟨hkey, hstate, haccepted⟩
    · exact ⟨rfl, rfl, rfl⟩

def SealedNext (w : DirectWrite) (s : Sealed) (next : RecordKey) : Prop :=
  ∃ key, w.key = some key ∧ key.nextNonce = some (s.nonce, next)

/-- What a poll of the half does: it seals nothing, or one record of this plaintext. -/
inductive Seals (log : List Sealed) (w : DirectWrite) :
    Bytes → List Sealed → DirectWrite → Prop where
  | nothing {w' : DirectWrite}
      (key : ∀ key, w'.key = some key → w.key = some key)
      (state : w'.state = .opened → w.state = .opened) :
      Seals log w [] log w'
  | record {w' : DirectWrite} {s : Sealed} {next : RecordKey}
      (sealed : SealedNext w s next)
      (key : ∀ key, w'.key = some key → key = next)
      (state : w'.state = .opened → w.state = .opened ∧ s.kind ≠ kindFinal)
      (plain : s.plain ≠ [] → w.state = .opened) :
      Seals log w s.plain (log ++ [s]) w'

variable {w' : DirectWrite} {buf : Bytes}

theorem SameButOut.seals (h : SameButOut w w') : Seals log w [] log w' :=
  .nothing (fun _ hkey => h.key ▸ hkey) (fun hstate => h.state ▸ hstate)

/-- Losing the key changes nothing about what was sealed. -/
theorem Seals.forget {plain : Bytes} {log' : List Sealed} (h : Seals log w plain log' w') :
    Seals log w plain log' w'.forget := by
  cases h with
  | nothing _ state => exact .nothing nofun state
  | record sealed _ state plain => exact .record sealed nofun state plain

/-- What a poll does that may leave a used key behind where it fails. -/
def SealsOrFails {α : Type} (log : List Sealed) (w : DirectWrite) (plain : Bytes) :
    List Sealed × DirectWrite × Poll α → Prop
  | (log', w', result) =>
    Seals log w plain log' w' ∨ Seals log w plain log' w'.forget ∧ ∃ e, result = .ready (.error e)

theorem SealsOrFails.forgetOnError {α : Type} {plain : Bytes} {log' : List Sealed}
    {result : Poll α} (h : SealsOrFails log w plain (log', w', result)) :
    ∃ kept, DirectWrite.forgetOnError (log', w', result) = (log', kept, result) ∧
      Seals log w plain log' kept ∧ kept.state = w'.state ∧ kept.accepted = w'.accepted := by
  cases result with
  | pending =>
    obtain hseals | ⟨-, e, herror⟩ := h
    · exact ⟨w', rfl, hseals, rfl, rfl⟩
    · cases herror
  | ready result =>
    cases result with
    | error e => exact ⟨w'.forget, rfl, h.elim Seals.forget And.left, rfl, rfl⟩
    | ok n =>
      obtain hseals | ⟨-, e, herror⟩ := h
      · exact ⟨w', rfl, hseals, rfl, rfl⟩
      · cases herror

theorem sealRecord_cases (cipher : Cipher) (log : List Sealed) (w : DirectWrite)
    (kind : UInt8) (plain : Bytes) :
    (∃ w' e, w.sealRecord cipher log kind plain = (log, w', .error e) ∧
      w'.state = w.state ∧ w'.accepted = w.accepted) ∨
    ∃ s next out, SealedNext w s next ∧ s.kind = kind ∧ s.plain = plain ∧
      w.sealRecord cipher log kind plain =
        (log ++ [s], { w with key := some next, out, sent := 0 }, .ok ()) := by
  unfold sealRecord
  cases hkey : w.key with
  | none => exact .inl ⟨_, _, rfl, rfl, rfl⟩
  | some key =>
    cases hnonce : key.nextNonce with
    | none =>
      simp only [hnonce]
      exact .inl ⟨_, _, rfl, rfl, rfl⟩
    | some next =>
      obtain ⟨nonce, next⟩ := next
      cases hbody : cipher nonce (header plain.length kind) plain with
      | none =>
        simp only [hnonce, hbody]
        exact .inl ⟨_, _, rfl, rfl, rfl⟩
      | some body =>
        simp only [hnonce, hbody]
        refine .inr ⟨_, next, _, ⟨key, hkey, hnonce⟩, ?_, ?_, rfl⟩ <;> rfl

/-! ## Writes -/

def reportedBy (buf : Bytes) : Poll Nat → Bytes
  | .ready (.ok n) => buf.take n
  | _ => []

/-- The record of a write is still being sent, or it is reported. -/
theorem pollReport_cases (log : List Sealed) (hfits : w.accepted ≤ buf.length)
    (script : List SocketWrite) :
    ∃ w' result, pollReport log w buf script = (log, w', result) ∧ w'.key = w.key ∧
      w'.state = w.state ∧ w'.accepted ≤ buf.length ∧
      buf.take w.accepted = reportedBy buf result ++ buf.take w'.accepted := by
  unfold pollReport
  have hsame := pollSend_same w script
  generalize w.pollSend script = sent at hsame ⊢
  obtain ⟨w', rest, result⟩ := sent
  obtain ⟨hkey, hstate, haccepted⟩ := hsame
  have hfits' : w'.accepted ≤ buf.length := haccepted.trans_le hfits
  cases result with
  | pending => exact ⟨_, _, rfl, hkey, hstate, hfits', by rw [← haccepted]; rfl⟩
  | ready result =>
    cases result with
    | error e => exact ⟨_, _, rfl, hkey, hstate, hfits', by rw [← haccepted]; rfl⟩
    | ok =>
      refine ⟨_, _, rfl, hkey, hstate, Nat.zero_le _, ?_⟩
      rw [if_neg (Nat.not_lt.mpr hfits'), haccepted]
      exact (List.append_nil _).symm

/-- A poll of a write that is offered the bytes it was offered before: what it sealed, it
reports or still holds. -/
theorem pollWriteRecord_cases (cipher : Cipher) (log : List Sealed)
    (hfits : w.accepted ≤ buf.length) (script : List SocketWrite) :
    ∃ plain log' w' result, w.pollWriteRecord cipher log buf script = (log', w', result) ∧
      SealsOrFails log w plain (log', w', result) ∧ w'.state = w.state ∧
      w'.accepted ≤ buf.length ∧
      buf.take w.accepted ++ plain = reportedBy buf result ++ buf.take w'.accepted := by
  unfold pollWriteRecord
  by_cases hstate : w.state = .opened
  · rw [if_neg (not_not.mpr hstate)]
    split
    · rename_i hnone
      split
      · rename_i hempty
        refine ⟨[], _, _, _, rfl, .inl (.nothing (fun _ => id) id), rfl, hfits, ?_⟩
        simp [reportedBy, hempty]
      · dsimp only
        obtain ⟨w', e, hseal, hstate', haccepted⟩ | ⟨s, next, out, hnext, hkind, hplain, hseal⟩ :=
          sealRecord_cases cipher log w kindData (buf.take (min buf.length recordLen))
        · rw [hseal]
          refine ⟨[], _, _, _, rfl, .inr ⟨.nothing nofun fun h => hstate' ▸ h, e, rfl⟩,
            hstate', haccepted.trans_le hfits, ?_⟩
          simp [reportedBy, haccepted]
        · rw [hseal]
          obtain ⟨w', result, hreport, hkey', hstate', hfits', htake⟩ :=
            pollReport_cases (log ++ [s])
              (w := { w with
                key := some next, out, sent := 0, accepted := min buf.length recordLen })
              (Nat.min_le_left _ _) script
          refine ⟨s.plain, _, _, _, hreport, .inl (.record hnext ?_ ?_ fun _ => hstate),
            hstate', hfits', ?_⟩
          · intro key hkey
            rw [hkey', Option.some.injEq] at hkey
            exact hkey.symm
          · intro _
            rw [hkind]
            exact ⟨hstate, by decide⟩
          · rw [hnone, hplain, ← htake]
            rfl
    · obtain ⟨w', result, hreport, hkey', hstate', hfits', htake⟩ :=
        pollReport_cases log hfits script
      refine ⟨[], _, _, _, hreport, .inl (.nothing ?_ ?_), hstate', hfits', ?_⟩
      · exact fun key hkey => hkey' ▸ hkey
      · exact fun h => hstate' ▸ h
      · rw [List.append_nil]
        exact htake
  · rw [if_pos hstate]
    refine ⟨[], _, _, _, rfl, .inl (.nothing (fun _ => id) id), rfl, hfits, ?_⟩
    simp [reportedBy]

theorem pollWrite_cases (cipher : Cipher) (log : List Sealed) (hfits : w.accepted ≤ buf.length)
    (script : List SocketWrite) :
    ∃ plain log' w' result, w.pollWrite cipher log buf script = (log', w', result) ∧
      Seals log w plain log' w' ∧ w'.state = w.state ∧ w'.accepted ≤ buf.length ∧
      buf.take w.accepted ++ plain = reportedBy buf result ++ buf.take w'.accepted := by
  obtain ⟨plain, log', w', result, hwrite, hseals, hstate, hfits', htake⟩ :=
    pollWriteRecord_cases cipher log hfits script
  obtain ⟨kept, hforget, hkept, hsame, haccepted⟩ := hseals.forgetOnError
  rw [← haccepted] at hfits' htake
  exact ⟨plain, log', kept, result, by rw [pollWrite, hwrite, hforget], hkept,
    hsame.trans hstate, hfits', htake⟩

/-! ## Flushing, closing and confirming -/

theorem pollFlush_same (w : DirectWrite) (script : List SocketWrite) :
    SameButOut w (w.pollFlush script).1 := by
  unfold pollFlush
  have hsame := pollSend_same w script
  generalize w.pollSend script = sent at hsame ⊢
  obtain ⟨w', rest, result⟩ := sent
  split <;> (rename_i h; cases h; exact hsame)

/-- Sending the final record and shutting the socket down seals nothing, and may lose the
key. -/
theorem pollClosing_cases (w : DirectWrite) (script : List SocketWrite) :
    (∀ key, (w.pollClosing script).1.key = some key → w.key = some key) ∧
      ((w.pollClosing script).1.state = .opened → w.state = .opened) ∧
      (w.pollClosing script).1.accepted = w.accepted := by
  unfold pollClosing
  have hsame := pollSend_same w script
  generalize w.pollSend script = sent at hsame ⊢
  obtain ⟨w', rest, result⟩ := sent
  obtain ⟨hkey, hstate, haccepted⟩ := hsame
  have hkept : (∀ key, w'.key = some key → w.key = some key) ∧
      (w'.state = .opened → w.state = .opened) ∧ w'.accepted = w.accepted :=
    ⟨fun _ h => hkey ▸ h, fun h => hstate ▸ h, haccepted⟩
  split
  · rename_i h
    cases h
    exact hkept
  · rename_i h
    cases h
    exact hkept
  · rename_i h
    cases h
    exact ⟨nofun, nofun, haccepted⟩
  · rename_i h
    cases h
    exact hkept

/-- Closing seals the final record, once what is being sent is sent. -/
theorem pollClose_cases (cipher : Cipher) (log : List Sealed) (w : DirectWrite)
    (script : List SocketWrite) :
    ∃ log' w' result, w.pollClose cipher log script = (log', w', result) ∧
      SealsOrFails log w [] (log', w', result) ∧ w'.accepted = w.accepted := by
  unfold pollClose
  cases hstate : w.state with
  | opened =>
    dsimp only
    have hsame := pollSend_same w script
    generalize w.pollSend script = sent at hsame ⊢
    obtain ⟨sending, rest, result⟩ := sent
    split
    · rename_i h
      cases h
      obtain ⟨w', e, hseal, hstate', haccepted⟩ | ⟨s, next, out, hnext, hkind, hplain, hseal⟩ :=
        sealRecord_cases cipher log sending kindFinal []
      · rw [hseal]
        refine ⟨_, _, _, rfl, .inr ⟨.nothing nofun ?_, e, rfl⟩, haccepted.trans hsame.accepted⟩
        exact fun _ => hstate
      · rw [hseal]
        obtain ⟨hkey', hstate', haccepted'⟩ := pollClosing_cases
          { sending with key := some next, out, sent := 0, state := .closing } rest
        refine ⟨_, _, _, rfl, .inl ?_, haccepted'.trans hsame.accepted⟩
        rw [← hplain]
        refine .record (?_ : SealedNext w s next) ?_ ?_ fun h => absurd hplain h
        · obtain ⟨key, hkey, hnonce⟩ := hnext
          exact ⟨key, hsame.key ▸ hkey, hnonce⟩
        · exact fun key hkey => (Option.some.inj (hkey' key hkey)).symm
        · exact fun h => nomatch hstate' h
    · rename_i h
      cases h
      exact ⟨_, _, _, rfl, .inl hsame.seals, hsame.accepted⟩
  | closing =>
    obtain ⟨hkey, hstate', haccepted⟩ := pollClosing_cases w script
    exact ⟨_, _, _, rfl, .inl (.nothing hkey hstate'), haccepted⟩
  | closed => exact ⟨_, _, _, rfl, .inl (.nothing (fun _ => id) id), rfl⟩

/-- A poll that seals at most an empty record, and leaves a write in progress as it is. -/
theorem pollShutdown_cases (cipher : Cipher) (log : List Sealed) (w : DirectWrite)
    (script : List SocketWrite) :
    ∃ log' w' result, w.pollShutdown cipher log script = (log', w', result) ∧
      Seals log w [] log' w' ∧ w'.accepted = w.accepted := by
  obtain ⟨log', w', result, hclose, hseals, haccepted⟩ := pollClose_cases cipher log w script
  obtain ⟨kept, hforget, hkept, -, hsame⟩ := hseals.forgetOnError
  exact ⟨log', kept, result, by rw [pollShutdown, hclose, hforget], hkept, hsame.trans haccepted⟩

theorem confirm_cases (cipher : Cipher) (log : List Sealed) (w : DirectWrite)
    (script : List SocketWrite) :
    ∃ log' w' result, w.confirm cipher log script = (log', w', result) ∧
      SealsOrFails log w [] (log', w', result) ∧ w'.state = w.state ∧
      w'.accepted = w.accepted := by
  unfold confirm
  obtain ⟨w', e, hseal, hstate, haccepted⟩ | ⟨s, next, out, hnext, hkind, hplain, hseal⟩ :=
    sealRecord_cases cipher log w kindData []
  · rw [hseal]
    exact ⟨_, _, _, rfl, .inr ⟨.nothing nofun fun h => hstate ▸ h, e, rfl⟩, hstate, haccepted⟩
  · rw [hseal]
    have hsame := pollSend_same { w with key := some next, out, sent := 0 } script
    refine ⟨_, _, _, rfl, .inl ?_, hsame.state, hsame.accepted⟩
    rw [← hplain]
    refine .record hnext ?_ ?_ fun h => absurd hplain h
    · intro key hkey
      rw [hsame.key, Option.some.injEq] at hkey
      exact hkey.symm
    · intro hopened
      rw [hsame.state] at hopened
      rw [hkind]
      exact ⟨hopened, by decide⟩

end DirectWrite

end Synch.Direct
