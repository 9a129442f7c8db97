import Synch.Direct.Sealing
import Synch.Support.Run

/-!
# What a direct stream delivers

One direction of a direct connection, with anything at all on the TCP connection
between its halves.  What the reading half hands out begins what the writing half
accepted, and it reports the end of the stream after all of it, once the writing half
was closed.
-/

namespace Synch.Direct

open List Synch.Support

/-- The plaintext of a sequence of records. -/
def bytesOf (log : List Sealed) : Bytes :=
  log.flatMap Sealed.plain

theorem bytesOf_append (log log' : List Sealed) :
    bytesOf (log ++ log') = bytesOf log ++ bytesOf log' :=
  flatMap_append

theorem bytesOf_singleton (s : Sealed) : bytesOf [s] = s.plain :=
  append_nil _

/-- What is sealed carries the key's nonces in order, and is empty after a final
record. -/
structure Orderly (iv : BitVec 96) (log : List Sealed) : Prop where
  numbered : Numbered iv log
  ended : log.Pairwise fun a b => a.kind = kindFinal → b.plain = []

/-- The writing half is at the end of what is sealed. -/
structure Writes (iv : BitVec 96) (log : List Sealed) (w : DirectWrite) : Prop where
  key : ∀ key, w.key = some key → key.iv = iv ∧ key.seq = log.length
  unended : w.state = .opened → ∀ s ∈ log, s.kind ≠ kindFinal

section Seals

variable {iv : BitVec 96} {log log' : List Sealed} {w w' : DirectWrite} {plain : Bytes}

theorem DirectWrite.Seals.bytesOf (h : w.Seals log plain log' w') :
    bytesOf log' = bytesOf log ++ plain := by
  cases h with
  | nothing => exact (append_nil _).symm
  | record => rw [bytesOf_append, bytesOf_singleton]

theorem DirectWrite.Seals.log_prefix (h : w.Seals log plain log' w') : log <+: log' := by
  cases h with
  | nothing => exact prefix_rfl
  | record => exact prefix_append _ _

theorem DirectWrite.Seals.orderly (h : w.Seals log plain log' w') (hlog : Orderly iv log)
    (hw : Writes iv log w) : Orderly iv log' ∧ Writes iv log' w' := by
  cases h with
  | nothing key state =>
    exact ⟨hlog, fun k hk => hw.key k (key k hk), fun hopen => hw.unended (state hopen)⟩
  | @record _ s next sealed key state hplain =>
    obtain ⟨old, hold, hnonce⟩ := sealed
    obtain ⟨hiv, hseq⟩ := hw.key old hold
    obtain ⟨hs, rfl, hlast⟩ := RecordKey.nextNonce_eq_some hnonce
    rw [hiv, hseq] at hs
    rw [hseq] at hlast
    refine ⟨⟨hlog.numbered.append hlast hs, ?_⟩, ⟨fun k hk => ?_, fun hopen => ?_⟩⟩
    · refine pairwise_append.mpr ⟨hlog.ended, pairwise_singleton _ _, ?_⟩
      intro a ha b hb hfinal
      rw [mem_singleton.mp hb]
      by_contra hne
      exact hw.unended (hplain hne) a ha hfinal
    · rw [key k hk, length_append, length_singleton]
      exact ⟨hiv, congrArg (· + 1) hseq⟩
    · obtain ⟨hopened, hkind⟩ := state hopen
      intro a ha
      obtain hmem | hmem := mem_append.mp ha
      · exact hw.unended hopened a hmem
      · rw [mem_singleton.mp hmem]
        exact hkind

/-- A half that has sealed its final record seals no more bytes. -/
theorem DirectWrite.Seals.plain_eq_nil {r : Sealed} (h : w.Seals log plain log' w')
    (hw : Writes iv log w) (hr : r ∈ log) (hfinal : r.kind = kindFinal) : plain = [] := by
  cases h with
  | nothing => rfl
  | record _ _ _ hplain =>
    by_contra hne
    exact hw.unended (hplain hne) r hr hfinal

end Seals

/-! ## The reading half -/

/-- What a poll for reading hands out. -/
def Poll.bytes : Poll Bytes → Bytes
  | .ready (.ok bytes) => bytes
  | _ => []

/-- What is left of the record that is open. -/
def DirectRead.rest (r : DirectRead) : Bytes :=
  if r.state = .plain then r.body.drop r.pos else []

/-- The reading half has opened the first `m` records, and handed them out but for what
is left of the last. -/
structure FollowsAt (iv : BitVec 96) (log : List Sealed) (handed : Bytes) (m : Nat)
    (r : DirectRead) : Prop where
  le : m ≤ log.length
  bytes : handed ++ r.rest = bytesOf (log.take m)
  key : ∀ key, r.key = some key → key.iv = iv ∧ key.seq = m
  ended : r.state = .ended → ∃ s ∈ log.take m, s.kind = kindFinal

def Follows (iv : BitVec 96) (log : List Sealed) (handed : Bytes) (r : DirectRead) : Prop :=
  ∃ m, FollowsAt iv log handed m r

section Follows

variable {iv : BitVec 96} {log : List Sealed} {handed : Bytes} {r r' : DirectRead}

theorem DirectRead.rest_of_reading (h : r.Reading) : r.rest = [] := by
  refine if_neg fun hplain => ?_
  obtain hheader | hbody := h
  · rw [hheader] at hplain
    cases hplain
  · rw [hbody] at hplain
    cases hplain

theorem DirectRead.not_ended_of_reading (h : r.Reading) : r.state ≠ .ended := by
  obtain hheader | hbody := h
  · rw [hheader]
    exact nofun
  · rw [hbody]
    exact nofun

/-- A half between two records follows wherever it is in reading the next one. -/
theorem Follows.of_reading (h : Follows iv log handed r) (hrest : r.rest = [])
    (hreading : r'.Reading) (hkey : ∀ key, r'.key = some key → r.key = some key) :
    Follows iv log handed r' := by
  obtain ⟨m, hle, hbytes, hm, -⟩ := h
  refine ⟨m, hle, ?_, fun key hk => hm key (hkey key hk), fun hended => ?_⟩
  · rw [DirectRead.rest_of_reading hreading]
    rw [hrest] at hbytes
    exact hbytes
  · exact absurd hended (DirectRead.not_ended_of_reading hreading)

theorem Follows.openRecord {full opened : DirectRead} (hlog : Numbered iv log)
    (h : Follows iv log handed r) (hrest : r.rest = []) (hkey : full.key = r.key)
    (hopen : DirectRead.openRecord log full = (opened, .ok ())) : Follows iv log handed opened := by
  obtain ⟨m, hle, hbytes, hm, -⟩ := h
  rw [hrest, append_nil] at hbytes
  obtain ⟨e, herror, -⟩ | ⟨key, nonce, next, plain, hfull, hnonce, hplain, hopened⟩ :=
    DirectRead.openRecord_cases log full
  · rw [hopen] at herror
    cases herror
  · obtain ⟨hiv, hseq⟩ := hm key (hkey ▸ hfull)
    obtain ⟨rfl, rfl, hlast⟩ := RecordKey.nextNonce_eq_some hnonce
    rw [hiv, hseq] at hplain
    rw [hseq] at hlast
    obtain ⟨s, htake, hm', haad, hs⟩ := hlog.take_of_open (Nat.lt_of_succ_lt hlast) hplain
    have hnext : handed ++ plain = bytesOf (log.take (m + 1)) := by
      rw [htake, bytesOf_append, bytesOf_singleton, hs, hbytes]
    obtain ⟨-, hdata⟩ | ⟨hkind, hempty, hfinal⟩ := hopened
    · rw [hopen] at hdata
      cases hdata
      refine ⟨m + 1, hm', hnext, fun k hk => ?_, nofun⟩
      cases hk
      exact ⟨hiv, congrArg (· + 1) hseq⟩
    · rw [hopen] at hfinal
      cases hfinal
      rw [hempty] at hnext
      refine ⟨m + 1, hm', hnext, nofun, fun _ => ⟨s, ?_, ?_⟩⟩
      · rw [htake]
        exact mem_append_right _ (mem_singleton_self s)
      · rw [Sealed.kind, haad]
        exact hkind

theorem Follows.forget (h : Follows iv log handed r) : Follows iv log handed r.forget := by
  obtain ⟨m, hle, hbytes, -, hended⟩ := h
  exact ⟨m, hle, hbytes, nofun, hended⟩

/-- A half reading a record follows on, whatever comes of it.  Where it fails it may have
used its key, which it then loses. -/
theorem Follows.pollNextRecord {script rest : List SocketRead} {result : Poll Unit}
    (hlog : Numbered iv log) (h : Follows iv log handed r) (hreading : r.Reading)
    (hnext : DirectRead.pollNextRecord log r script = (r', rest, result)) :
    Follows iv log handed r'.forget ∧
      ((∀ e, result ≠ .ready (.error e)) → Follows iv log handed r') := by
  have hrest := DirectRead.rest_of_reading hreading
  have hcases := @DirectRead.pollNextRecord_cases log r hreading script
  rw [hnext] at hcases
  obtain ⟨-, hkey, hreading'⟩ | ⟨e, herror, hreading'⟩ | ⟨-, -, full, hkey, hopen⟩ := hcases
  · have hfollows := h.of_reading hrest hreading' fun key hk => hkey ▸ hk
    exact ⟨hfollows.forget, fun _ => hfollows⟩
  · exact ⟨h.of_reading hrest hreading' nofun, fun hnot => absurd herror (hnot e)⟩
  · have hfollows := h.openRecord hlog hrest hkey hopen
    exact ⟨hfollows.forget, fun _ => hfollows⟩

/-- Handing out bytes of the open record. -/
theorem Follows.handOut (h : Follows iv log handed r) (hplain : r.state = .plain) (n : Nat) :
    Follows iv log (handed ++ (r.body.drop r.pos).take n) { r with pos := r.pos + n } := by
  obtain ⟨m, hle, hbytes, hkey, hended⟩ := h
  refine ⟨m, hle, ?_, hkey, hended⟩
  rw [DirectRead.rest, if_pos hplain] at hbytes
  rw [DirectRead.rest, if_pos hplain, append_assoc, ← hbytes, ← drop_drop, take_append_drop]

/-- What a poll of the reading half leaves behind. -/
def FollowsAfter (iv : BitVec 96) (log : List Sealed) (handed : Bytes) :
    DirectRead × Poll Bytes → Prop
  | (r, .pending) => Follows iv log handed r
  | (r, .ready (.error _)) => Follows iv log handed r.forget
  | (r, .ready (.ok bytes)) =>
    Follows iv log (handed ++ bytes) r ∧ (bytes = [] → r.state = .ended)

theorem Follows.pollRecord {remaining : Nat} (hlog : Numbered iv log) (h : Follows iv log handed r)
    (hroom : 0 < remaining) (script : List SocketRead) :
    FollowsAfter iv log handed (DirectRead.pollRecord log remaining r script) := by
  fun_induction DirectRead.pollRecord log remaining r script with
  | case1 r script hstate =>
    refine ⟨?_, fun _ => hstate⟩
    rw [append_nil]
    exact h
  | case2 r script hstate hleft n =>
    refine ⟨h.handOut hstate n, fun hnone => ?_⟩
    -- the record is not used up and the caller has room, so some bytes are handed out
    have hlength := congrArg List.length hnone
    rw [length_take, length_drop, length_nil] at hlength
    omega
  | case3 r script hstate hused ih =>
    refine ih (h.of_reading ?_ (.inl rfl) fun _ => id)
    rw [DirectRead.rest, if_pos hstate]
    exact drop_eq_nil_of_le (Nat.le_of_not_lt hused)
  | case4 r script hstate r' rest hnext ih =>
    exact ih ((h.pollNextRecord hlog (.inl hstate) hnext).2 nofun)
  | case5 r script hstate r' rest e hnext =>
    exact (h.pollNextRecord hlog (.inl hstate) hnext).1
  | case6 r script hstate r' rest hnext =>
    exact (h.pollNextRecord hlog (.inl hstate) hnext).2 nofun
  | case7 r script hstate r' rest hnext ih =>
    exact ih ((h.pollNextRecord hlog (.inr hstate) hnext).2 nofun)
  | case8 r script hstate r' rest e hnext =>
    exact (h.pollNextRecord hlog (.inr hstate) hnext).1
  | case9 r script hstate r' rest hnext =>
    exact (h.pollNextRecord hlog (.inr hstate) hnext).2 nofun

/-- A poll keeps the half following; where it reports no bytes to a caller with room for
some, the stream has ended. -/
theorem Follows.pollRead (hlog : Numbered iv log) (h : Follows iv log handed r) (remaining : Nat)
    (script : List SocketRead) :
    ∃ r' result, DirectRead.pollRead log r remaining script = (r', result) ∧
      Follows iv log (handed ++ result.bytes) r' ∧
      (result = .ready (.ok []) → remaining ≠ 0 → r'.state = .ended) := by
  unfold DirectRead.pollRead
  have hnothing : handed ++ [] = handed := append_nil _
  split
  · rename_i hzero
    exact ⟨_, _, rfl, hnothing.symm ▸ h, fun _ hroom => absurd hzero hroom⟩
  · rename_i hzero
    have hafter := h.pollRecord hlog (Nat.pos_of_ne_zero hzero) script
    generalize DirectRead.pollRecord log remaining r script = polled at hafter ⊢
    obtain ⟨r', result⟩ := polled
    cases result with
    | pending => exact ⟨_, _, rfl, hnothing.symm ▸ hafter, nofun⟩
    | ready result =>
      cases result with
      | error e => exact ⟨_, _, rfl, hnothing.symm ▸ hafter, nofun⟩
      | ok bytes =>
        refine ⟨_, _, rfl, hafter.1, fun hnone _ => hafter.2 ?_⟩
        cases hnone
        rfl

/-- Waiting for the confirmation hands out nothing. -/
theorem Follows.confirmed (hlog : Numbered iv log) (h : Follows iv log handed r)
    (script : List SocketRead) :
    ∃ r' result, DirectRead.confirmed log r script = (r', result) ∧
      ((∀ e, result ≠ .ready (.error e)) → Follows iv log handed r') := by
  unfold DirectRead.confirmed
  have hnext : (∀ e, (DirectRead.pollNextRecord log r script).2.2 ≠ .ready (.error e)) →
      Follows iv log handed (DirectRead.pollNextRecord log r script).1 := by
    cases hstate : r.state with
    | header => exact (h.pollNextRecord hlog (.inl hstate) rfl).2
    | body => exact (h.pollNextRecord hlog (.inr hstate) rfl).2
    | plain =>
      rw [DirectRead.pollNextRecord, hstate]
      exact fun _ => h
    | ended =>
      rw [DirectRead.pollNextRecord, hstate]
      exact fun _ => h
  generalize DirectRead.pollNextRecord log r script = polled at hnext ⊢
  obtain ⟨r', rest, result⟩ := polled
  cases result with
  | pending => exact ⟨_, _, rfl, hnext⟩
  | ready result =>
    cases result with
    | error e => exact ⟨_, _, rfl, hnext⟩
    | ok =>
      dsimp only at hnext ⊢
      split
      · rename_i hempty
        refine ⟨_, _, rfl, fun _ => (hnext nofun).of_reading ?_ (.inl rfl) fun _ => id⟩
        rw [DirectRead.rest, if_pos hempty.1, hempty.2, drop_nil]
      · exact ⟨_, _, rfl, fun hnot => absurd rfl (hnot _)⟩

/-- Records sealed later leave the half where it is. -/
theorem Follows.extend {log' : List Sealed} (h : Follows iv log handed r) (hmore : log <+: log') :
    Follows iv log' handed r := by
  obtain ⟨m, hle, hbytes, hkey, hended⟩ := h
  obtain ⟨more, rfl⟩ := hmore
  have htake : (log ++ more).take m = log.take m := take_append_of_le_length hle
  refine ⟨m, ?_, ?_, hkey, ?_⟩
  · rw [length_append]
    exact Nat.le_add_right_of_le hle
  · rw [htake]
    exact hbytes
  · rw [htake]
    exact hended

theorem Follows.handed_prefix (h : Follows iv log handed r) : handed <+: bytesOf log := by
  obtain ⟨m, -, hbytes, -, -⟩ := h
  refine List.IsPrefix.trans ⟨r.rest, hbytes⟩ ⟨bytesOf (log.drop m), ?_⟩
  rw [← bytesOf_append, take_append_drop]

theorem Follows.handed_of_ended (hlog : Orderly iv log) (h : Follows iv log handed r)
    (hstate : r.state = .ended) : handed = bytesOf log ∧ ∃ s ∈ log, s.kind = kindFinal := by
  obtain ⟨m, -, hbytes, -, hended⟩ := h
  obtain ⟨s, hs, hfinal⟩ := hended hstate
  rw [DirectRead.rest, if_neg (by rw [hstate]; exact nofun), append_nil] at hbytes
  refine ⟨?_, s, mem_of_mem_take hs, hfinal⟩
  have hsplit := hlog.ended
  rw [← take_append_drop m log, pairwise_append] at hsplit
  have hlater : bytesOf (log.drop m) = [] :=
    flatMap_eq_nil_iff.mpr fun later hlater => hsplit.2.2 s hs later hlater hfinal
  rw [← take_append_drop m log, bytesOf_append, hlater, append_nil]
  exact hbytes

end Follows

/-! ## The link -/

/-- One direction of a direct connection, with what its callers have seen: the bytes
reported as written, the bytes last offered, the bytes handed out, whether the end of the
stream was reported and whether the writing half was closed. -/
structure Link where
  writer : DirectWrite
  reader : DirectRead
  writerDropped : Bool := false
  readerDropped : Bool := false
  log : List Sealed := []
  reported : Bytes := []
  offered : Bytes := []
  handed : Bytes := []
  ended : Bool := false
  closed : Bool := false
deriving DecidableEq, Repr

def Link.start (iv : BitVec 96) : Link where
  writer := { key := some ⟨iv, 0⟩ }
  reader := { key := some ⟨iv, 0⟩ }

/-- A poll of a half, with what its socket answers meanwhile; what is read from the socket
need have nothing to do with what was written to it.  Either end's watcher may take its
half's key. -/
inductive Event where
  | pollWrite (buf : Bytes) (script : List SocketWrite)
  | pollFlush (script : List SocketWrite)
  | pollShutdown (script : List SocketWrite)
  | confirm (script : List SocketWrite)
  | confirmSend (script : List SocketWrite)
  | writerGone
  | pollRead (remaining : Nat) (script : List SocketRead)
  | confirmed (script : List SocketRead)
  | readerGone
deriving DecidableEq, Repr

def Poll.failed {α : Type} : Poll α → Bool
  | .ready (.error _) => true
  | _ => false

namespace Link

/-- The bytes the writing half accepted: those it reported, and those the record of a
write in progress holds. -/
def accepted (s : Link) : Bytes :=
  s.reported ++ s.offered.take s.writer.accepted

def writerStep (cipher : Cipher) (s : Link) : Event → Option Link
  | .pollWrite buf script =>
    let (log, writer, result) := s.writer.pollWrite cipher s.log buf script
    some { s with
      log, writer, offered := buf
      reported := s.reported ++ DirectWrite.reportedBy buf result }
  | .pollFlush script => some { s with writer := (s.writer.pollFlush script).1 }
  | .pollShutdown script =>
    let (log, writer, _) := s.writer.pollShutdown cipher s.log script
    some { s with log, writer, closed := true }
  | .confirm script =>
    -- a half whose confirmation fails is dropped
    let (log, writer, result) := s.writer.confirm cipher s.log script
    some { s with log, writer, writerDropped := result.failed }
  | .confirmSend script =>
    let (writer, _, result) := s.writer.pollSend script
    some { s with writer, writerDropped := result.failed }
  | .writerGone => some { s with writer := s.writer.forget }
  | _ => none

def readerStep (s : Link) : Event → Option Link
  | .pollRead remaining script =>
    let (reader, result) := s.reader.pollRead s.log remaining script
    some { s with
      reader, handed := s.handed ++ result.bytes
      ended := s.ended || (remaining ≠ 0 && result = .ready (.ok [])) }
  | .confirmed script =>
    -- a half that does not get its confirmation is dropped
    let (reader, result) := s.reader.confirmed s.log script
    some { s with reader, readerDropped := result.failed }
  | .readerGone => some { s with reader := s.reader.forget }
  | _ => none

def step (cipher : Cipher) (s : Link) (event : Event) : Option Link :=
  match event with
  | .pollRead .. | .confirmed _ | .readerGone =>
    if s.readerDropped then none else s.readerStep event
  | _ => if s.writerDropped then none else s.writerStep cipher event

/-- A write in progress is offered the same bytes again. -/
def Reoffers (s : Link) : Event → Prop
  | .pollWrite buf _ => s.writer.accepted ≠ 0 → buf = s.offered
  | _ => True

instance (s : Link) (event : Event) : Decidable (s.Reoffers event) :=
  match event with
  | .pollWrite buf _ => inferInstanceAs (Decidable (s.writer.accepted ≠ 0 → buf = s.offered))
  | .pollFlush _ | .pollShutdown _ | .confirm _ | .confirmSend _ | .writerGone
  | .pollRead .. | .confirmed _ | .readerGone => inferInstanceAs (Decidable True)

/-- What holds of a link along every run. -/
structure Sound (iv : BitVec 96) (s : Link) : Prop where
  orderly : Orderly iv s.log
  writes : s.writerDropped = false → Writes iv s.log s.writer
  accepted : s.accepted = bytesOf s.log
  fits : s.writer.accepted ≤ s.offered.length
  opened : s.closed = false → s.writer.state = .opened
  closed : (∃ r ∈ s.log, r.kind = kindFinal) → s.closed = true
  follows : s.readerDropped = false → Follows iv s.log s.handed s.reader
  handed : s.handed <+: bytesOf s.log
  ended : s.ended = true → s.handed = bytesOf s.log ∧ ∃ r ∈ s.log, r.kind = kindFinal

theorem sound_start (iv : BitVec 96) : Sound iv (start iv) where
  orderly := ⟨⟨Nat.two_pow_pos 64, nofun⟩, List.Pairwise.nil⟩
  writes _ := ⟨fun key hkey => by cases hkey; exact ⟨rfl, rfl⟩, fun _ => nofun⟩
  accepted := rfl
  fits := Nat.zero_le _
  opened _ := rfl
  closed := nofun
  follows _ := ⟨0, Nat.zero_le _, rfl, fun key hkey => by cases hkey; exact ⟨rfl, rfl⟩, nofun⟩
  handed := nil_prefix
  ended := nofun

section Steps

variable {iv : BitVec 96} {cipher : Cipher} {s s' : Link}

/-- A link whose reading half is as it was. -/
structure SameReader (s s' : Link) : Prop where
  reader : s'.reader = s.reader
  dropped : s'.readerDropped = s.readerDropped
  handed : s'.handed = s.handed
  ended : s'.ended = s.ended

/-- A poll of the writing half keeps a link sound. -/
theorem Sound.of_seals {plain : Bytes} {kept : DirectWrite} (h : Sound iv s)
    (hlive : s.writerDropped = false) (hseals : s.writer.Seals s.log plain s'.log kept)
    (hkept : s'.writerDropped = false → s'.writer = kept)
    (haccepted : s'.accepted = s.accepted ++ plain) (hfits : s'.writer.accepted ≤ s'.offered.length)
    (hclosed : s'.closed = true ∨
      s'.closed = s.closed ∧ s'.writer.state = s.writer.state ∧ kept.state = s.writer.state)
    (hsame : SameReader s s') : Sound iv s' := by
  obtain ⟨horderly, hwrites⟩ := hseals.orderly h.orderly (h.writes hlive)
  have hbytes := hseals.bytesOf
  refine ⟨horderly, fun hlive' => hkept hlive' ▸ hwrites, ?_, hfits, ?_, ?_, ?_, ?_, ?_⟩
  · rw [haccepted, h.accepted, hbytes]
  · intro hopen
    obtain htrue | ⟨heq, hstate, -⟩ := hclosed
    · rw [htrue] at hopen
      cases hopen
    · rw [hstate]
      exact h.opened (heq ▸ hopen)
  · intro hfinal
    obtain htrue | ⟨heq, -, hstate⟩ := hclosed
    · exact htrue
    · rw [heq]
      by_contra hopen
      rw [Bool.not_eq_true] at hopen
      obtain ⟨r, hr, hkind⟩ := hfinal
      have hopened : kept.state = .opened := hstate.trans (h.opened hopen)
      exact hwrites.unended hopened r hr hkind
  · intro hlive'
    rw [hsame.dropped] at hlive'
    rw [hsame.reader, hsame.handed]
    exact (h.follows hlive').extend hseals.log_prefix
  · rw [hsame.handed, hbytes]
    exact h.handed.trans (prefix_append _ _)
  · intro hended
    rw [hsame.ended] at hended
    obtain ⟨hall, r, hr, hfinal⟩ := h.ended hended
    refine ⟨?_, r, hseals.log_prefix.subset hr, hfinal⟩
    have hnone := hseals.plain_eq_nil (h.writes hlive) hr hfinal
    rw [hsame.handed, hbytes, hnone, append_nil]
    exact hall

/-- A poll that only sends keeps a link sound, even where the half is dropped over it. -/
theorem Sound.of_same {writer : DirectWrite} (h : Sound iv s) (hlive : s.writerDropped = false)
    (hsame : s.writer.SameButOut writer) (dropped : Bool) :
    Sound iv { s with writer, writerDropped := dropped } := by
  refine h.of_seals hlive hsame.seals (fun _ => rfl) ?_ (hsame.accepted.trans_le h.fits)
    (.inr ⟨rfl, hsame.state, hsame.state⟩) ⟨rfl, rfl, rfl, rfl⟩
  rw [Link.accepted, Link.accepted, append_nil]
  exact congrArg (fun n => s.reported ++ s.offered.take n) hsame.accepted

theorem Sound.writerStep {event : Event} (h : Sound iv s) (hlive : s.writerDropped = false)
    (hreoffers : s.Reoffers event) (hstep : s.writerStep cipher event = some s') : Sound iv s' := by
  cases event with
  | pollWrite buf script =>
    -- the bytes offered are those the record in progress was sealed from
    have hoffered : s.offered.take s.writer.accepted = buf.take s.writer.accepted ∧
        s.writer.accepted ≤ buf.length := by
      by_cases hnone : s.writer.accepted = 0
      · simp [hnone]
      · rw [hreoffers hnone]
        exact ⟨rfl, h.fits⟩
    obtain ⟨plain, log, writer, result, hwrite, hseals, hstate, hfits, htake⟩ :=
      DirectWrite.pollWrite_cases cipher s.log hoffered.2 script
    simp only [Link.writerStep, hwrite, Option.some.injEq] at hstep
    subst hstep
    refine h.of_seals hlive hseals (fun _ => rfl) ?_ hfits (.inr ⟨rfl, hstate, hstate⟩)
      ⟨rfl, rfl, rfl, rfl⟩
    rw [Link.accepted, Link.accepted, hoffered.1, append_assoc, append_assoc, htake]
  | pollFlush script =>
    have hsame := DirectWrite.pollFlush_same s.writer script
    simp only [Link.writerStep, Option.some.injEq] at hstep
    subst hstep
    exact h.of_same hlive hsame s.writerDropped
  | pollShutdown script =>
    obtain ⟨log, writer, result, hclose, hseals, haccepted⟩ :=
      DirectWrite.pollShutdown_cases cipher s.log s.writer script
    simp only [Link.writerStep, hclose, Option.some.injEq] at hstep
    subst hstep
    refine h.of_seals hlive hseals (fun _ => rfl) ?_ ?_ (.inl rfl) ⟨rfl, rfl, rfl, rfl⟩
    · rw [Link.accepted, Link.accepted, haccepted, append_nil]
    · exact haccepted.trans_le h.fits
  | confirm script =>
    obtain ⟨log, writer, result, hconfirm, hseals, hstate, haccepted⟩ :=
      DirectWrite.confirm_cases cipher s.log s.writer script
    simp only [Link.writerStep, hconfirm, Option.some.injEq] at hstep
    subst hstep
    have hbytes : s.reported ++ s.offered.take writer.accepted = s.accepted ++ [] := by
      rw [haccepted, append_nil]
      rfl
    obtain hseals | ⟨hseals, e, rfl⟩ := hseals
    · exact h.of_seals hlive hseals (fun _ => rfl) hbytes (haccepted.trans_le h.fits)
        (.inr ⟨rfl, hstate, hstate⟩) ⟨rfl, rfl, rfl, rfl⟩
    · exact h.of_seals hlive hseals nofun hbytes (haccepted.trans_le h.fits)
        (.inr ⟨rfl, hstate, hstate⟩) ⟨rfl, rfl, rfl, rfl⟩
  | confirmSend script =>
    have hsame := DirectWrite.pollSend_same s.writer script
    simp only [Link.writerStep, Option.some.injEq] at hstep
    subst hstep
    exact h.of_same hlive hsame _
  | writerGone =>
    simp only [Link.writerStep, Option.some.injEq] at hstep
    subst hstep
    have hseals : s.writer.Seals s.log [] s.log s.writer.forget := .nothing nofun id
    refine h.of_seals hlive hseals (fun _ => rfl) ?_ h.fits
      (.inr ⟨rfl, rfl, rfl⟩) ⟨rfl, rfl, rfl, rfl⟩
    exact (append_nil _).symm
  | pollRead => cases hstep
  | confirmed => cases hstep
  | readerGone => cases hstep

/-- A poll of the reading half keeps a link sound. -/
theorem Sound.readerStep {event : Event} (h : Sound iv s) (hlive : s.readerDropped = false)
    (hstep : s.readerStep event = some s') : Sound iv s' := by
  have hnumbered := h.orderly.numbered
  have hfollows := h.follows hlive
  cases event with
  | pollRead remaining script =>
    obtain ⟨reader, result, hread, hafter⟩ := hfollows.pollRead hnumbered remaining script
    simp only [Link.readerStep, hread, Option.some.injEq] at hstep
    subst hstep
    obtain ⟨hmore, hend⟩ := hafter
    refine { h with follows := fun _ => hmore, handed := hmore.handed_prefix, ended := ?_ }
    intro hended
    obtain hbefore | hnow := (Bool.or_eq_true _ _).mp hended
    · -- everything was handed out already, so this poll added nothing
      obtain ⟨hall, hfinal⟩ := h.ended hbefore
      refine ⟨hmore.handed_prefix.eq_of_length_le ?_, hfinal⟩
      rw [← hall, length_append]
      exact Nat.le_add_right _ _
    · rw [Bool.and_eq_true, decide_eq_true_eq, decide_eq_true_eq] at hnow
      exact hmore.handed_of_ended h.orderly (hend hnow.2 hnow.1)
  | confirmed script =>
    obtain ⟨reader, result, hconfirmed, hafter⟩ := hfollows.confirmed hnumbered script
    simp only [Link.readerStep, hconfirmed, Option.some.injEq] at hstep
    subst hstep
    refine { h with follows := fun hlive' => hafter fun e herror => ?_ }
    rw [herror] at hlive'
    cases hlive'
  | readerGone =>
    simp only [Link.readerStep, Option.some.injEq] at hstep
    subst hstep
    exact { h with follows := fun _ => hfollows.forget }
  | pollWrite => cases hstep
  | pollFlush => cases hstep
  | pollShutdown => cases hstep
  | confirm => cases hstep
  | confirmSend => cases hstep
  | writerGone => cases hstep

theorem Sound.step {event : Event} (h : Sound iv s) (hreoffers : s.Reoffers event)
    (hstep : s.step cipher event = some s') : Sound iv s' := by
  unfold Link.step at hstep
  split at hstep
  all_goals obtain ⟨hlive, hstep⟩ := Option.ite_none_left_eq_some.mp hstep
  all_goals rw [Bool.not_eq_true] at hlive
  · exact h.readerStep hlive hstep
  · exact h.readerStep hlive hstep
  · exact h.readerStep hlive hstep
  · exact h.writerStep hlive hreoffers hstep

end Steps

end Link

/-- No two records of a direction are sealed under one nonce, whatever is on the TCP connection
and however the halves are polled, a write in progress being offered the same bytes again. -/
theorem nonces_never_reused (cipher : Cipher) (iv : BitVec 96) (events : List Event) (s : Link)
    (hreoffers : RunMeets (Link.step cipher) Link.Reoffers (Link.start iv) events)
    (hrun : run (Link.step cipher) (Link.start iv) events = some s) :
    (s.log.map Sealed.nonce).Nodup := by
  have hsound : Link.Sound iv s :=
    run_invariant_of_meets (Link.Sound iv) (fun _ _ _ h hmeets hstep => h.step hmeets hstep)
      (Link.sound_start iv) hreoffers hrun
  obtain ⟨hlength, hnonce⟩ := hsound.orderly.numbered
  refine pairwise_map.mpr (pairwise_iff_getElem.mpr fun i j hi hj hlt heq => ?_)
  rw [hnonce i hi, hnonce j hj] at heq
  exact hlt.ne (nonceAt_injective (hi.trans hlength) (hj.trans hlength) heq)

theorem nonces_never_reused_closed :
    let cipher : Cipher := fun _ _ plain => some (plain ++ List.replicate tagLen 7)
    let events : List Event := [.confirm [.took 100], .pollWrite [1] [.took 9], .pollShutdown []]
    ∃ s, run (Link.step cipher) (Link.start 5) events = some s ∧
      (s.log.map Sealed.nonce).Nodup := by
  intro cipher events
  exact ⟨_, rfl, nonces_never_reused cipher 5 events _ (by decide +kernel) rfl⟩

end Synch.Direct
