import Synch.Support.Ranking
import Synch.Zone.Build
import Synch.Zone.Wire

/-!
# The answer engine

One query in, one response out, from the table of signed record sets.  All reads of
an answer see one table.  A read that fails, or a row that does not parse, makes the
answer a server failure.
-/

namespace Synch.Zone

open Synch.Support

def rcodeNoerror : Nat := 0
def rcodeServfail : Nat := 2
def rcodeNxdomain : Nat := 3
def rcodeNotimp : Nat := 4
def rcodeRefused : Nat := 5

def typeAny : Nat := 255

def advertisedUdpSize : Nat := 1400

/-- A row that does not parse. -/
inductive DbError where
  | protocol
deriving DecidableEq, Repr

/-- One stored set with its signature, ready for a section. -/
structure Stored where
  rrsetWire : List UInt8
  rrsetCount : Nat
  rrsigWire : List UInt8
deriving DecidableEq, Repr

/-! ## Lookups -/

def stored (row : Row) : Except DbError (Option Stored) :=
  match countRrs row.rrsetWire with
  | some count => .ok (some ⟨row.rrsetWire, count, row.rrsigWire⟩)
  | none => .error .protocol

variable (table : Table)

def lookup (name : List UInt8) (rtype : Nat) : Except DbError (Option Stored) :=
  match table.rows.filter fun row => row.name = name ∧ row.rrset.rtype = rtype with
  | [row] => stored row
  | _ => .ok none

/-- Whether an owner stands at or below a name: one range of keys. -/
def existsAtOrBelow (target : Name) : Bool :=
  table.rows.any fun row =>
    keyNumbers (sortKey target) ≤ keyNumbers row.key &&
      keyNumbers row.key < keyNumbers (sortKeyUpper target)

def isOwner (name : List UInt8) : Bool :=
  table.rows.any fun row => row.name = name

/-- The row of the denial record whose owner is the greatest before a key. -/
def coveringRow (targetKey : List UInt8) : Option Row :=
  maxBy (fun row => keyNumbers row.key) (table.rows.filter fun row =>
      row.rrset.rtype = typeNsec ∧ keyNumbers row.key < keyNumbers targetKey)

def coveringNsec (targetKey : List UInt8) : Except DbError (Option Stored) :=
  match coveringRow table targetKey with
  | some row => stored row
  | none => .ok none

/-! ## Sections -/

def withSig (found : Stored) (doBit : Bool) : Section :=
  if doBit then Section.append ⟨found.rrsetWire, found.rrsetCount⟩ ⟨found.rrsigWire, 1⟩
  else ⟨found.rrsetWire, found.rrsetCount⟩

def sectionOf (found : Option Stored) (doBit : Bool) : Section :=
  match found with
  | some found => withSig found doBit
  | none => {}

def soaSection (apex : Name) (doBit : Bool) : Except DbError Section := do
  let found ← lookup table (toText apex) typeSoa
  return sectionOf found doBit

/-- No data: the SOA and, if asked for, the name's own denial record, or the one
before an empty non-terminal. -/
def nodataAuthority (apex qname : Name) (doBit : Bool) : Except DbError Section := do
  let soa ← soaSection table apex doBit
  if doBit then
    let nsec ←
      if isOwner table (toText qname) then lookup table (toText qname) typeNsec
      else coveringNsec table (sortKey qname)
    return soa.append (sectionOf nsec doBit)
  else return soa

/-- The longest ancestor that exists. -/
def closestEncloser (table : Table) : Name → Name
  | [] => []
  | _ :: parent =>
    if existsAtOrBelow table parent then parent else closestEncloser table parent

def wildcard (name : Name) : Name :=
  [42] :: name

/-- No such name: the SOA and, if asked for, the denial records before the name and
before the wildcard at its closest encloser, once if they are the same. -/
def nxdomainAuthority (apex qname : Name) (doBit : Bool) : Except DbError Section := do
  let soa ← soaSection table apex doBit
  if doBit then
    let covering ← coveringNsec table (sortKey qname)
    let wildcardCover ← coveringNsec table (sortKey (wildcard (closestEncloser table qname)))
    let nsecs :=
      if covering = wildcardCover then sectionOf covering doBit
      else (sectionOf covering doBit).append (sectionOf wildcardCover doBit)
    return soa.append nsecs
  else return soa

/-! ## Answers -/

def Query.doBit (query : Query) : Bool :=
  match query.edns with
  | some edns => edns.doBit
  | none => false

variable (query : Query)

/-- The OPT of responses to a query that has one. -/
def Query.additional : Section :=
  match query.edns with
  | some edns => optSection advertisedUdpSize edns.doBit
  | none => {}

def inZoneAnswer (apex : Name) (query : Query) : Except DbError Reply := do
  let exact ← lookup table (toText query.qname) query.qtype
  match exact with
  | some found =>
    return {
      rcode := rcodeNoerror, aa := true, tc := false
      answers := withSig found query.doBit
      additional := query.additional }
  | none =>
    if existsAtOrBelow table query.qname then
      let authority ← nodataAuthority table apex query.qname query.doBit
      return {
        rcode := rcodeNoerror, aa := true, tc := false
        authority
        additional := query.additional }
    else
      let authority ← nxdomainAuthority table apex query.qname query.doBit
      return {
        rcode := rcodeNxdomain, aa := true, tc := false
        authority
        additional := query.additional }

def refusal (rcode : Nat) : Reply where
  rcode := rcode
  aa := false
  tc := false
  additional := query.additional

/-- What the server says to a query.  The table is absent if the database fails. -/
def answerReply (table : Option Table) (apex : Name) (query : Query) : Reply :=
  if query.opcode ≠ 0 then refusal query rcodeNotimp
  else if ¬(query.qclass = classIn ∧ query.qtype ≠ typeAny) then refusal query rcodeRefused
  else if inZone query.qname apex = false then refusal query rcodeRefused
  else
    match table with
    | none => refusal query rcodeServfail
    | some table =>
      match inZoneAnswer table apex query with
      | .ok reply => reply
      | .error _ => refusal query rcodeServfail

def answer (table : Option Table) (apex : Name) (query : Query) : List UInt8 :=
  encodeResponse query (answerReply table apex query)

/-! ## Transports -/

/-- The payload a query allows over UDP. -/
def udpLimit : Nat :=
  match query.edns with
  | some edns =>
    let clamped := if edns.udpSize < 512 then 512 else edns.udpSize
    if clamped > advertisedUdpSize then advertisedUdpSize else clamped
  | none => 512

/-- What a truncated response says. -/
def truncated : Reply where
  rcode := rcodeNoerror
  aa := true
  tc := true
  additional := query.additional

def fitUdp (response : List UInt8) : List UInt8 :=
  if response.length ≤ udpLimit query then response
  else encodeResponse query (truncated query)

/-- A header alone, for a query that was not fully parsed. -/
def errorStub (id rcode : Nat) : List UInt8 :=
  bigEndian 2 id ++ [128, UInt8.ofNat rcode] ++ bigEndian 8 0

inductive Transport where
  | udp
  | stream
deriving DecidableEq, Repr

/-- The pool of connections: none to be had, or one whose reads see a table or fail. -/
inductive Pool where
  | exhausted
  | connection (table : Option Table)

/-- One message's worth of work.  Nothing is sent for a message beyond salvage. -/
def handlePacket (pool : Pool) (apex : Name) (packet : List UInt8) (transport : Transport) :
    Option (List UInt8) :=
  match decodeQuery packet with
  | .ok query =>
    match pool with
    | .connection table =>
      match transport with
      | .udp => some (fitUdp query (answer table apex query))
      | .stream => some (answer table apex query)
    | .exhausted => some (errorStub query.id rcodeServfail)
  | .error (.unsupported id) => some (errorStub id rcodeNotimp)
  | .error .malformed => none

/-- In-zone questions of the Internet class, the ones answered from the table. -/
structure Query.Asks (query : Query) (apex : Name) : Prop where
  opcode : query.opcode = 0
  qclass : query.qclass = classIn
  qtype : query.qtype ≠ typeAny
  inZone : apex <:+ query.qname

theorem answerReply_of_asks {table : Table} {apex : Name} {query : Query} (h : query.Asks apex) :
    answerReply (some table) apex query =
      match inZoneAnswer table apex query with
      | .ok reply => reply
      | .error _ => refusal query rcodeServfail := by
  have hzone : inZone query.qname apex = true := inZone_eq_true_iff.mpr h.inZone
  rw [answerReply, if_neg (by simp [h.opcode]), if_neg (by simp [h.qclass, h.qtype]),
    if_neg (by simp [hzone])]

end Synch.Zone
