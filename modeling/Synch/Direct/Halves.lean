import Synch.Direct.Records

/-!
# The two halves of a direct stream

The half that seals what it is given into records, and the half at the other end that
opens them.  A TCP socket is the script of what its polls answer: a script that runs
out is a socket that is not ready.  The records sealed under the direction's key are
passed along, since opening is looking one up.
-/

namespace Synch.Direct

inductive IoError where
  | connectionReset (message : String)
  | invalidData (message : String)
  | invalidInput (message : String)
  | brokenPipe
  | writeZero
  | socket
deriving DecidableEq, Repr

inductive Poll (α : Type) where
  | pending
  | ready (result : Except IoError α)
deriving DecidableEq, Repr

def broken (message : String) : IoError :=
  .connectionReset message

/-! ## The reading half -/

/-- What a poll of the socket for reading answers: some bytes, or none at its end. -/
inductive SocketRead where
  | chunk (bytes : Bytes)
  | failed
deriving DecidableEq, Repr

inductive ReadState where
  | header
  | body
  | plain
  | ended
deriving DecidableEq, Repr

/-- The half that reads.  Its key goes when the stream fails or ends, or when the
invocation it belongs to does. -/
structure DirectRead where
  key : Option RecordKey
  header : Bytes := List.replicate headerLen 0
  body : Bytes := []
  pos : Nat := 0
  state : ReadState := .header
deriving DecidableEq, Repr

def overwrite (buf : Bytes) (pos : Nat) (bytes : Bytes) : Bytes :=
  buf.take pos ++ bytes ++ buf.drop (pos + bytes.length)

def resize (buf : Bytes) (len : Nat) : Bytes :=
  buf.take len ++ List.replicate (len - buf.length) 0

theorem length_resize (buf : Bytes) (len : Nat) : (resize buf len).length = len := by
  rw [resize, List.length_append, List.length_take, List.length_replicate]
  omega

/-- Read into a buffer, from a position on, until it is full. -/
def pollFill (buf : Bytes) (pos : Nat) (script : List SocketRead) :
    Bytes × Nat × List SocketRead × Poll Unit :=
  if pos < buf.length then
    match script with
    | [] => (buf, pos, [], .pending)
    | .failed :: rest => (buf, pos, rest, .ready (.error .socket))
    | .chunk bytes :: rest =>
      let read := bytes.take (buf.length - pos)
      if read = [] then
        -- a FIN can be forged: only the final record ends a stream
        (buf, pos, rest, .ready (.error (broken "the connection ended before its final record")))
      else pollFill (overwrite buf pos read) (pos + read.length) rest
  else (buf, pos, script, .ready (.ok ()))

namespace DirectRead

def forget (r : DirectRead) : DirectRead :=
  { r with key := none }

/-- Open the record just read, leaving its plaintext in the body. -/
def openRecord (log : List Sealed) (r : DirectRead) : DirectRead × Except IoError Unit :=
  match r.key with
  | none => (r, .error (broken "the stream's key went with its QUIC connection"))
  | some key =>
    match key.nextNonce with
    | none => (r, .error (broken "the record counter is exhausted"))
    | some (nonce, key) =>
      match openIn log nonce r.header r.body with
      | none =>
        -- what is left of the body is never read: the key goes with the failure
        ({ r with key := some key }, .error (.invalidData "a record failed authentication"))
      | some plain =>
        let kind := kindOf r.header
        let r := { r with key := some key, body := plain, pos := 0 }
        if kind = kindData then ({ r with state := .plain }, .ok ())
        else if kind = kindFinal ∧ plain.length = 0 then
          ({ r with state := .ended, key := none }, .ok ())
        else (r, .error (.invalidData s!"a record of unknown kind {kind}"))

def pollBody (log : List Sealed) (r : DirectRead) (script : List SocketRead) :
    DirectRead × List SocketRead × Poll Unit :=
  match pollFill r.body r.pos script with
  | (body, pos, rest, .ready (.ok ())) =>
    let opened := openRecord log { r with body, pos }
    (opened.1, rest, .ready opened.2)
  | (body, pos, rest, result) => ({ r with body, pos }, rest, result)

/-- Read and open the next record, unless one is open or the stream has ended. -/
def pollNextRecord (log : List Sealed) (r : DirectRead) (script : List SocketRead) :
    DirectRead × List SocketRead × Poll Unit :=
  match r.state with
  | .plain => (r, script, .ready (.ok ()))
  | .ended => (r, script, .ready (.ok ()))
  | .header =>
    match pollFill r.header r.pos script with
    | (header, pos, rest, .ready (.ok ())) =>
      let len := lengthOf header
      if recordLen < len then
        ({ r with header, pos }, rest,
          .ready (.error (.invalidData s!"a record of {len} bytes exceeds {recordLen}")))
      else
        let body := resize r.body (len + tagLen)
        pollBody log { r with header, body, pos := 0, state := .body } rest
    | (header, pos, rest, result) => ({ r with header, pos }, rest, result)
  | .body => pollBody log r script

end DirectRead

/-! ### Every loop of a read ends -/

theorem length_pollFill (buf : Bytes) (pos : Nat) (script : List SocketRead) :
    (pollFill buf pos script).2.2.1.length ≤ script.length := by
  induction script generalizing buf pos with
  | nil =>
    unfold pollFill
    split <;> rfl
  | cons outcome rest ih =>
    unfold pollFill
    split
    · cases outcome with
      | failed => exact Nat.le_succ _
      | chunk bytes =>
        dsimp only
        split
        · exact Nat.le_succ _
        · exact (ih _ _).trans (Nat.le_succ _)
    · rfl

/-- Filling a buffer that has room takes an answer of the socket. -/
theorem length_pollFill_lt {buf : Bytes} {pos : Nat} {script : List SocketRead}
    (hroom : pos < buf.length) (hready : (pollFill buf pos script).2.2.2 ≠ .pending) :
    (pollFill buf pos script).2.2.1.length < script.length := by
  unfold pollFill at hready ⊢
  rw [if_pos hroom] at hready ⊢
  cases script with
  | nil => exact absurd rfl hready
  | cons outcome rest =>
    cases outcome with
    | failed => exact Nat.lt_succ_self _
    | chunk bytes =>
      dsimp only
      split
      · exact Nat.lt_succ_self _
      · exact Nat.lt_succ_of_le (length_pollFill _ _ _)

namespace DirectRead

/-- The states between two answers of the socket, in the order they are left. -/
def rank : ReadState → Nat
  | .header => 0
  | .plain => 1
  | .ended => 1
  | .body => 2

/-- Opening a record fails and leaves the state, or opens it under the next nonce. -/
theorem openRecord_cases (log : List Sealed) (r : DirectRead) :
    (∃ e, (openRecord log r).2 = .error e ∧ (openRecord log r).1.state = r.state) ∨
    ∃ key nonce next plain,
      r.key = some key ∧ key.nextNonce = some (nonce, next) ∧
      openIn log nonce r.header r.body = some plain ∧
      ((kindOf r.header = kindData ∧
        openRecord log r =
          ({ r with key := some next, body := plain, pos := 0, state := .plain }, .ok ())) ∨
      (kindOf r.header = kindFinal ∧ plain = [] ∧
        openRecord log r =
          ({ r with key := none, body := plain, pos := 0, state := .ended }, .ok ()))) := by
  unfold openRecord
  cases hkey : r.key with
  | none => exact .inl ⟨_, rfl, rfl⟩
  | some key =>
    cases hnonce : key.nextNonce with
    | none =>
      simp only [hnonce]
      exact .inl ⟨_, rfl, trivial⟩
    | some next =>
      obtain ⟨nonce, next⟩ := next
      cases hopen : openIn log nonce r.header r.body with
      | none =>
        simp only [hnonce, hopen]
        exact .inl ⟨_, rfl, trivial⟩
      | some plain =>
        simp only [hnonce, hopen]
        by_cases hdata : kindOf r.header = kindData
        · refine .inr ⟨key, nonce, next, plain, rfl, hnonce, hopen, .inl ⟨hdata, ?_⟩⟩
          rw [if_pos hdata]
        · rw [if_neg hdata]
          by_cases hfinal : kindOf r.header = kindFinal ∧ plain.length = 0
          · refine .inr ⟨key, nonce, next, plain, rfl, hnonce, hopen,
              .inr ⟨hfinal.1, List.eq_nil_of_length_eq_zero hfinal.2, ?_⟩⟩
            rw [if_pos hfinal]
          · rw [if_neg hfinal]
            exact .inl ⟨_, rfl, rfl⟩

variable {log : List Sealed} {r : DirectRead}

theorem rank_openRecord {opened : DirectRead} (h : openRecord log r = (opened, .ok ())) :
    rank opened.state = 1 := by
  obtain ⟨e, herror, -⟩ | ⟨key, nonce, next, plain, -, -, -, ⟨-, hdata⟩ | ⟨-, -, hfinal⟩⟩ :=
    openRecord_cases log r
  · rw [h] at herror
    cases herror
  · rw [h] at hdata
    cases hdata
    rfl
  · rw [h] at hfinal
    cases hfinal
    rfl

/-- Reading a body leaves the half reading it, or opens a record under the same key. -/
theorem pollBody_cases (log : List Sealed) (r : DirectRead) (script : List SocketRead) :
    ((pollBody log r script).2.2 = .pending ∧ (pollBody log r script).1.key = r.key ∧
      (pollBody log r script).1.state = r.state) ∨
    (∃ e, (pollBody log r script).2.2 = .ready (.error e) ∧
      (pollBody log r script).1.state = r.state) ∨
    ((pollBody log r script).2.2 = .ready (.ok ()) ∧
      (pollBody log r script).2.1 = (pollFill r.body r.pos script).2.2.1 ∧
      (pollFill r.body r.pos script).2.2.2 = .ready (.ok ()) ∧
      ∃ full, full.key = r.key ∧ openRecord log full = ((pollBody log r script).1, .ok ())) := by
  unfold pollBody
  obtain ⟨body, pos, rest, result⟩ := pollFill r.body r.pos script
  cases result with
  | pending => exact .inl ⟨rfl, rfl, rfl⟩
  | ready result =>
    cases result with
    | error e => exact .inr (.inl ⟨e, rfl, rfl⟩)
    | ok =>
      dsimp only
      cases hresult : (openRecord log { r with body, pos }).2 with
      | error e =>
        obtain ⟨e', -, hstate⟩ | ⟨_, _, _, _, -, -, -, ⟨-, hopen⟩ | ⟨-, -, hopen⟩⟩ :=
          openRecord_cases log { r with body, pos }
        · exact .inr (.inl ⟨e, rfl, hstate⟩)
        · rw [hopen] at hresult
          cases hresult
        · rw [hopen] at hresult
          cases hresult
      | ok =>
        exact .inr (.inr ⟨rfl, rfl, rfl, { r with body, pos }, rfl, by rw [← hresult]⟩)

/-- The states in which a half is reading a record. -/
def Reading (r : DirectRead) : Prop :=
  r.state = .header ∨ r.state = .body

/-- Reading a record leaves the half reading it, or opens one under the same key. -/
theorem pollNextRecord_cases (hreading : r.Reading) (script : List SocketRead) :
    ((pollNextRecord log r script).2.2 = .pending ∧
      (pollNextRecord log r script).1.key = r.key ∧
      (pollNextRecord log r script).1.Reading) ∨
    (∃ e, (pollNextRecord log r script).2.2 = .ready (.error e) ∧
      (pollNextRecord log r script).1.Reading) ∨
    ((pollNextRecord log r script).2.2 = .ready (.ok ()) ∧
      3 * (pollNextRecord log r script).2.1.length + 1 < 3 * script.length + rank r.state ∧
      ∃ full, full.key = r.key ∧
        openRecord log full = ((pollNextRecord log r script).1, .ok ())) := by
  obtain hheader | hbody := hreading
  · unfold pollNextRecord
    rw [hheader]
    have hrest := length_pollFill r.header r.pos script
    generalize pollFill r.header r.pos script = filled at hrest ⊢
    obtain ⟨header, pos, rest, result⟩ := filled
    cases result with
    | pending => exact .inl ⟨rfl, rfl, .inl rfl⟩
    | ready result =>
      cases result with
      | error e => exact .inr (.inl ⟨e, rfl, .inl rfl⟩)
      | ok =>
        dsimp only
        split
        · exact .inr (.inl ⟨_, rfl, .inl rfl⟩)
        · -- a body is never empty, so its reading takes an answer of the socket
          have hroom : 0 < (resize r.body (lengthOf header + tagLen)).length := by
            rw [length_resize]
            exact Nat.add_pos_right _ (by decide)
          obtain ⟨hpending, hkey, hstate⟩ | ⟨e, herror, hstate⟩ | ⟨hok, hbody, hfull, hopen⟩ :=
            pollBody_cases log
              { r with
                header, body := resize r.body (lengthOf header + tagLen), pos := 0,
                state := .body } rest
          · exact .inl ⟨hpending, hkey, .inr hstate⟩
          · exact .inr (.inl ⟨e, herror, .inr hstate⟩)
          · refine .inr (.inr ⟨hok, ?_, hopen⟩)
            have hshorter := length_pollFill_lt hroom fun h => nomatch hfull.symm.trans h
            rw [hbody]
            change 3 * (pollFill (resize r.body _) 0 rest).2.2.1.length + 1 < _ + 0
            dsimp only at hrest
            omega
  · unfold pollNextRecord
    rw [hbody]
    dsimp only
    obtain ⟨hpending, hkey, hstate⟩ | ⟨e, herror, hstate⟩ | ⟨hok, hrest, -, hopen⟩ :=
      pollBody_cases log r script
    · exact .inl ⟨hpending, hkey, .inr (hstate.trans hbody)⟩
    · exact .inr (.inl ⟨e, herror, .inr (hstate.trans hbody)⟩)
    · refine .inr (.inr ⟨hok, ?_, hopen⟩)
      have hshorter := length_pollFill r.body r.pos script
      rw [hrest]
      change _ < _ + 2
      omega

theorem rank_pollNextRecord {opened : DirectRead} {script rest : List SocketRead}
    (hreading : r.Reading) (h : pollNextRecord log r script = (opened, rest, .ready (.ok ()))) :
    3 * rest.length + rank opened.state < 3 * script.length + rank r.state := by
  obtain ⟨hresult, -⟩ | ⟨e, hresult, -⟩ | ⟨-, hshorter, full, -, hopen⟩ :=
    @pollNextRecord_cases log r hreading script
  · rw [h] at hresult
    cases hresult
  · rw [h] at hresult
    cases hresult
  · rw [h] at hshorter hopen
    rw [rank_openRecord hopen]
    exact hshorter

/-- Hand out bytes of the open record, or read the next one. -/
def pollRecord (log : List Sealed) (remaining : Nat) (r : DirectRead)
    (script : List SocketRead) : DirectRead × Poll Bytes :=
  match _hstate : r.state with
  | .ended => (r, .ready (.ok []))
  | .plain =>
    if r.pos < r.body.length then
      let n := min remaining (r.body.length - r.pos)
      ({ r with pos := r.pos + n }, .ready (.ok ((r.body.drop r.pos).take n)))
    else pollRecord log remaining { r with pos := 0, state := .header } script
  | .header | .body =>
    match _hnext : pollNextRecord log r script with
    | (r, rest, .ready (.ok ())) => pollRecord log remaining r rest
    | (r, _, .ready (.error e)) => (r, .ready (.error e))
    | (r, _, .pending) => (r, .pending)
termination_by 3 * script.length + rank r.state
decreasing_by
  · rw [_hstate]
    exact Nat.lt_succ_self _
  · exact rank_pollNextRecord (.inl _hstate) _hnext
  · exact rank_pollNextRecord (.inr _hstate) _hnext

/-- A poll for at most this many bytes.  A stream that failed once is not read again. -/
def pollRead (log : List Sealed) (r : DirectRead) (remaining : Nat)
    (script : List SocketRead) : DirectRead × Poll Bytes :=
  if remaining = 0 then (r, .ready (.ok []))
  else
    match pollRecord log remaining r script with
    | (r, .ready (.error e)) => (r.forget, .ready (.error e))
    | (r, result) => (r, result)

/-- A poll for the confirmation that the other end took the connection up: an empty data
record, the first it sends. -/
def confirmed (log : List Sealed) (r : DirectRead) (script : List SocketRead) :
    DirectRead × Poll Unit :=
  match pollNextRecord log r script with
  | (r, _, .ready (.ok ())) =>
    if r.state = .plain ∧ r.body = [] then ({ r with state := .header }, .ready (.ok ()))
    else
      (r, .ready (.error (.invalidData "the stream did not open with its confirmation")))
  | (r, _, result) => (r, result)

end DirectRead

/-! ## The writing half -/

/-- What a poll of the socket for writing answers: how much of what is left it took. -/
inductive SocketWrite where
  | took (count : Nat)
  | failed
deriving DecidableEq, Repr

inductive WriteState where
  | opened
  | closing
  | closed
deriving DecidableEq, Repr

/-- The half that writes, with the record it is sending.  `accepted` is how many bytes of
a write that record holds, reported once it is sent. -/
structure DirectWrite where
  key : Option RecordKey
  out : Bytes := []
  sent : Nat := 0
  accepted : Nat := 0
  state : WriteState := .opened
deriving DecidableEq, Repr

namespace DirectWrite

def forget (w : DirectWrite) : DirectWrite :=
  { w with key := none }

/-- A half whose poll failed loses its key. -/
def forgetOnError {α : Type} :
    List Sealed × DirectWrite × Poll α → List Sealed × DirectWrite × Poll α
  | (log, w, .ready (.error e)) => (log, w.forget, .ready (.error e))
  | (log, w, result) => (log, w, result)

variable (cipher : Cipher)

variable (log : List Sealed)

def sealRecord (w : DirectWrite) (kind : UInt8)
    (plain : Bytes) : List Sealed × DirectWrite × Except IoError Unit :=
  match w.key with
  | none => (log, w, .error (broken "the stream's key went with its QUIC connection"))
  | some key =>
    match key.nextNonce with
    | none => (log, w, .error (broken "the record counter is exhausted"))
    | some (nonce, key) =>
      let header := header plain.length kind
      match cipher nonce header plain with
      | none =>
        (log, { w with key := some key, out := header ++ plain },
          .error (broken "sealing a record failed"))
      | some body =>
        (log ++ [⟨nonce, header, plain, body⟩],
          { w with key := some key, out := header ++ body, sent := 0 }, .ok ())

/-- Send what is left of the sealed record. -/
def pollSend (w : DirectWrite) (script : List SocketWrite) :
    DirectWrite × List SocketWrite × Poll Unit :=
  if w.sent < w.out.length then
    match script with
    | [] => (w, [], .pending)
    | .failed :: rest => (w, rest, .ready (.error .socket))
    | .took count :: rest =>
      let n := min count (w.out.length - w.sent)
      if n = 0 then (w, rest, .ready (.error .writeZero))
      else pollSend { w with sent := w.sent + n } rest
  else ({ w with out := [], sent := 0 }, script, .ready (.ok ()))

/-- Send the record of a write, and report what it held. -/
def pollReport (w : DirectWrite) (buf : Bytes) (script : List SocketWrite) :
    List Sealed × DirectWrite × Poll Nat :=
  match w.pollSend script with
  | (w, _, .ready (.ok ())) =>
    (log, { w with accepted := 0 },
      if buf.length < w.accepted then
        .ready (.error (.invalidInput "a write was abandoned mid-record for shorter bytes"))
      else .ready (.ok w.accepted))
  | (w, _, .ready (.error e)) => (log, w, .ready (.error e))
  | (w, _, .pending) => (log, w, .pending)

/-- Seal what a write offers, unless an earlier poll of it did, and send it. -/
def pollWriteRecord (w : DirectWrite) (buf : Bytes)
    (script : List SocketWrite) : List Sealed × DirectWrite × Poll Nat :=
  if w.state ≠ .opened then (log, w, .ready (.error .brokenPipe))
  else if w.accepted = 0 then
    if buf = [] then (log, w, .ready (.ok 0))
    else
      let n := min buf.length recordLen
      match w.sealRecord cipher log kindData (buf.take n) with
      | (log, w, .ok ()) => pollReport log { w with accepted := n } buf script
      | (log, w, .error e) => (log, w, .ready (.error e))
  else pollReport log w buf script

def pollWrite (w : DirectWrite) (buf : Bytes)
    (script : List SocketWrite) : List Sealed × DirectWrite × Poll Nat :=
  forgetOnError (w.pollWriteRecord cipher log buf script)

def pollFlush (w : DirectWrite) (script : List SocketWrite) : DirectWrite × Poll Unit :=
  match w.pollSend script with
  | (w, [], .ready (.ok ())) => (w, .pending)
  | (w, .failed :: _, .ready (.ok ())) => (w, .ready (.error .socket))
  | (w, _, result) => (w, result)

/-- Send the final record, and shut the socket down. -/
def pollClosing (w : DirectWrite) (script : List SocketWrite) : DirectWrite × Poll Unit :=
  match w.pollSend script with
  | (w, [], .ready (.ok ())) => (w, .pending)
  | (w, .failed :: _, .ready (.ok ())) => (w, .ready (.error .socket))
  | (w, .took _ :: _, .ready (.ok ())) =>
    ({ w with state := .closed, key := none }, .ready (.ok ()))
  | (w, _, result) => (w, result)

def pollClose (w : DirectWrite)
    (script : List SocketWrite) : List Sealed × DirectWrite × Poll Unit :=
  match w.state with
  | .opened =>
    match w.pollSend script with
    | (w, rest, .ready (.ok ())) =>
      match w.sealRecord cipher log kindFinal [] with
      | (log, w, .ok ()) => (log, { w with state := .closing }.pollClosing rest)
      | (log, w, .error e) => (log, w, .ready (.error e))
    | (w, _, result) => (log, w, result)
  | .closing => (log, w.pollClosing script)
  | .closed => (log, w, .ready (.ok ()))

def pollShutdown (w : DirectWrite)
    (script : List SocketWrite) : List Sealed × DirectWrite × Poll Unit :=
  forgetOnError (w.pollClose cipher log script)

/-- The first poll of the confirmation that this end took the connection up. -/
def confirm (w : DirectWrite) (script : List SocketWrite) : List Sealed × DirectWrite × Poll Unit :=
  match w.sealRecord cipher log kindData [] with
  | (log, w, .ok ()) =>
    let sent := w.pollSend script
    (log, sent.1, sent.2.2)
  | (log, w, .error e) => (log, w, .ready (.error e))

end DirectWrite

end Synch.Direct
