import Synch.Tuf.Threshold
import Synch.Tuf.Update

/-!
# The pinned state stays anchored and never rolls back

Whatever bytes the calls are given, the roots a client has kept lead from its anchor to the root it
trusts, every version it has accepted is a floor for the next, and the target file it holds is the
one that root stands for.
-/

namespace Synch.Tuf

open Std Synch.Support

variable {lib : Library}

/-! ## What the checks establish -/

/-- A file carries the signatures of a role: ids of the role, as many as the threshold asks for,
each with a signature that verifies under its key. -/
def SignedTo (lib : Library) (root : Root) (role : String) (file : Meta) : Prop :=
  ∃ keyids threshold, root.roles[role]? = some (keyids, threshold) ∧
    ∃ ids : List String, ids.Nodup ∧ threshold ≤ ids.length ∧
      ∀ id ∈ ids, Counts lib root.keys keyids file.canonical file.signatures id

variable {root : Root} {file : Meta} {name : String} {bytes anchor : List UInt8}
    {state : PinState}

theorem signedTo_of_checkRole {role : String} (h : root.checkRole lib role file = .ok ()) :
    SignedTo lib root role file := by
  obtain ⟨⟨keyids, threshold⟩, hrole, -⟩ := bind_eq_ok_iff.mp h
  have hrole := orRefuse_eq_ok_iff.mp hrole
  obtain ⟨hnodup, hcounts⟩ := signedIds_spec lib root keyids file
  exact ⟨keyids, threshold, hrole, _, hnodup, (checkRole_eq_ok_iff hrole).mp h, hcounts⟩

/-- The bytes have the length and the hash of an entry, so far as it lists them. -/
structure Matches (lib : Library) (entry : Value) (bytes : List UInt8) : Prop where
  length : ∀ n, (entry.get "length").asU64 = some n → bytes.length = n
  hash : ∀ text, ((entry.get "hashes").get "sha256").asStr = some text →
    equalIgnoringCase text (lib.sha256 bytes).toHex = true

theorem matches_of_checkHashes {entry : Value} (h : checkHashes lib name entry bytes = .ok ()) :
    Matches lib entry bytes := by
  unfold checkHashes at h
  constructor
  · intro n hn
    rw [hn] at h
    obtain ⟨⟨⟩, hlength, -⟩ := bind_eq_ok_iff.mp h
    exact (not_not.mp (refuseIf_eq_ok_iff.mp hlength)).symm
  · intro text htext
    rw [htext] at h
    match hlisted : (entry.get "length").asU64 with
    | none =>
      rw [hlisted] at h
      exact eq_true_of_ne_false (refuseIf_eq_ok_iff.mp h)
    | some n =>
      rw [hlisted] at h
      obtain ⟨⟨⟩, -, hhash⟩ := bind_eq_ok_iff.mp h
      exact eq_true_of_ne_false (refuseIf_eq_ok_iff.mp hhash)

/-- One file lists another, at its version. -/
structure Lists (lib : Library) (file : Meta) (name : String) (bytes : List UInt8)
    (version : Nat) : Prop where
  version : (((file.signed.get "meta").get name).get "version").asU64 = some version
  matched : Matches lib ((file.signed.get "meta").get name) bytes

theorem lists_of_checkListed {version : Nat}
    (h : file.checkListed lib name bytes version = .ok ()) :
    Lists lib file name bytes version := by
  obtain ⟨listed, hlisted, h⟩ := bind_eq_ok_iff.mp h
  obtain ⟨⟨⟩, hversion, hhashes⟩ := bind_eq_ok_iff.mp h
  have hversion : listed = version := not_not.mp (refuseIf_eq_ok_iff.mp hversion)
  exact ⟨hversion ▸ orRefuse_eq_ok_iff.mp hlisted, matches_of_checkHashes hhashes⟩

/-- The targets name a file, with its hash. -/
structure Names (lib : Library) (file : Meta) (name : String) (bytes : List UInt8) : Prop where
  hashed : ∃ text, ((((file.signed.get "targets").get name).get "hashes").get "sha256").asStr =
    some text
  matched : Matches lib ((file.signed.get "targets").get name) bytes

theorem names_of_checkTarget (h : file.checkTarget lib name bytes = .ok ()) :
    Names lib file name bytes := by
  obtain ⟨⟨⟩, -, h⟩ := bind_eq_ok_iff.mp h
  obtain ⟨⟨⟩, hhashed, hhashes⟩ := bind_eq_ok_iff.mp h
  exact ⟨Option.ne_none_iff_exists'.mp (refuseIf_eq_ok_iff.mp hhashed),
    matches_of_checkHashes hhashes⟩

theorem le_of_checkRollback {accepted : Nat} (h : file.checkRollback accepted = .ok ()) :
    accepted ≤ file.version :=
  Nat.not_lt.mp (refuseIf_eq_ok_iff.mp h)

/-! ## The roots -/

/-- One root file follows another: one version higher, signed to the threshold of both. -/
structure Follows (lib : Library) (old new : List UInt8) (oldRoot newRoot : Root) : Prop where
  parsed_old : Root.parse lib old = .ok oldRoot
  parsed_new : Root.parse lib new = .ok newRoot
  version : newRoot.version = oldRoot.version + 1
  signed_old : SignedTo lib oldRoot "root" newRoot.file
  signed_new : SignedTo lib newRoot "root" newRoot.file

/-- A chain of root files leads from an anchor to a root. -/
inductive Walks (lib : Library) : List UInt8 → List (List UInt8) → List UInt8 → Prop
  | here (root : List UInt8) : Walks lib root [] root
  | next {old new finish : List UInt8} {rest : List (List UInt8)} {oldRoot newRoot : Root} :
      Follows lib old new oldRoot newRoot → Walks lib new rest finish →
        Walks lib old (new :: rest) finish

theorem Walks.snoc {root new : List UInt8} {chain : List (List UInt8)} {oldRoot newRoot : Root}
    (h : Walks lib anchor chain root) (hnew : Follows lib root new oldRoot newRoot) :
    Walks lib anchor (chain ++ [new]) new := by
  induction h with
  | here root => exact .next hnew (.here new)
  | next hfollows hrest ih => exact .next hfollows (ih hnew)

theorem bytes_of_parse (h : Root.parse lib bytes = .ok root) : root.bytes = bytes := by
  obtain ⟨file, -, h⟩ := bind_eq_ok_iff.mp h
  obtain ⟨roleMembers, -, h⟩ := bind_eq_ok_iff.mp h
  obtain ⟨roles, -, h⟩ := bind_eq_ok_iff.mp h
  obtain ⟨keyMembers, -, h⟩ := bind_eq_ok_iff.mp h
  rw [← pure_eq_ok_iff.mp h]

/-- What the loop over the roots keeps. -/
def Walked (lib : Library) (anchor : List UInt8) (walk : Root × List (List UInt8)) : Prop :=
  Root.parse lib walk.1.bytes = .ok walk.1 ∧ Walks lib anchor walk.2 walk.1.bytes

theorem walked_start {chain : List (List UInt8)} (hparse : Root.parse lib bytes = .ok root)
    (hchain : Walks lib anchor chain bytes) : Walked lib anchor (root, chain) := by
  have hbytes := bytes_of_parse hparse
  refine ⟨?_, ?_⟩
  · rw [hbytes, hparse]
  · rw [hbytes]
    exact hchain

theorem walked_walkRoot {walk walk' : Root × List (List UInt8)} (hwalk : Walked lib anchor walk)
    (hstep : walkRoot lib walk bytes = .ok walk') : Walked lib anchor walk' := by
  obtain ⟨candidate, hcandidate, hstep⟩ := bind_eq_ok_iff.mp hstep
  split at hstep
  · rw [← pure_eq_ok_iff.mp hstep]
    exact hwalk
  · obtain ⟨⟨⟩, hversion, hstep⟩ := bind_eq_ok_iff.mp hstep
    obtain ⟨⟨⟩, hold, hstep⟩ := bind_eq_ok_iff.mp hstep
    obtain ⟨⟨⟩, hnew, hstep⟩ := bind_eq_ok_iff.mp hstep
    have hbytes := bytes_of_parse hcandidate
    have hfollows : Follows lib walk.1.bytes candidate.bytes walk.1 candidate :=
      { parsed_old := hwalk.1
        parsed_new := by rw [hbytes, hcandidate]
        version := not_not.mp (refuseIf_eq_ok_iff.mp hversion)
        signed_old := signedTo_of_checkRole hold
        signed_new := signedTo_of_checkRole hnew }
    rw [← pure_eq_ok_iff.mp hstep]
    exact ⟨hfollows.parsed_new, hwalk.2.snoc hfollows⟩

/-- The target file of a state is the one its root stands for: named by the targets it holds, which
a snapshot lists, which a timestamp lists, each signed for its role under that root. -/
def Authentic (lib : Library) (state : PinState) : Prop :=
  ∃ root timestampBytes timestamp snapshotBytes snapshot targets,
    Root.parse lib state.root = .ok root ∧ root.version = state.rootVersion ∧
    Meta.parse lib timestampBytes "timestamp" = .ok timestamp ∧
    timestamp.version = state.timestampVersion ∧ SignedTo lib root "timestamp" timestamp ∧
    Meta.parse lib snapshotBytes "snapshot" = .ok snapshot ∧
    snapshot.version = state.snapshotVersion ∧ SignedTo lib root "snapshot" snapshot ∧
    Lists lib timestamp "snapshot.json" snapshotBytes snapshot.version ∧
    Meta.parse lib state.targets "targets" = .ok targets ∧
    targets.version = state.targetsVersion ∧ SignedTo lib root "targets" targets ∧
    Lists lib snapshot "targets.json" state.targets targets.version ∧
    Names lib targets "trusted_root.json" state.trustedRoot

/-- No accepted version of the later state is below the earlier one's. -/
structure Ascends (earlier later : PinState) : Prop where
  root : earlier.rootVersion ≤ later.rootVersion
  timestamp : earlier.timestampVersion ≤ later.timestampVersion
  snapshot : earlier.snapshotVersion ≤ later.snapshotVersion
  targets : earlier.targetsVersion ≤ later.targetsVersion

theorem update_spec {metadata : TufMetadata} {now : Nat} {accepted : TufUpdate}
    (hchain : Walks lib anchor state.rootChain state.root)
    (h : update lib metadata state now = .ok accepted) :
    Walks lib anchor accepted.state.rootChain accepted.state.root ∧
      Ascends state accepted.state ∧ Authentic lib accepted.state := by
  obtain ⟨start, hstart, h⟩ := bind_eq_ok_iff.mp h
  obtain ⟨⟨trusted, chain⟩, hwalk, h⟩ := bind_eq_ok_iff.mp h
  obtain ⟨⟨⟩, hroot, h⟩ := bind_eq_ok_iff.mp h
  obtain ⟨⟨⟩, -, h⟩ := bind_eq_ok_iff.mp h
  obtain ⟨timestamp, htimestamp, h⟩ := bind_eq_ok_iff.mp h
  obtain ⟨⟨⟩, htimestampRole, h⟩ := bind_eq_ok_iff.mp h
  obtain ⟨⟨⟩, -, h⟩ := bind_eq_ok_iff.mp h
  obtain ⟨⟨⟩, htimestampFloor, h⟩ := bind_eq_ok_iff.mp h
  obtain ⟨snapshot, hsnapshot, h⟩ := bind_eq_ok_iff.mp h
  obtain ⟨⟨⟩, hsnapshotListed, h⟩ := bind_eq_ok_iff.mp h
  obtain ⟨⟨⟩, hsnapshotRole, h⟩ := bind_eq_ok_iff.mp h
  obtain ⟨⟨⟩, -, h⟩ := bind_eq_ok_iff.mp h
  obtain ⟨⟨⟩, hsnapshotFloor, h⟩ := bind_eq_ok_iff.mp h
  obtain ⟨targets, htargets, h⟩ := bind_eq_ok_iff.mp h
  obtain ⟨⟨⟩, htargetsListed, h⟩ := bind_eq_ok_iff.mp h
  obtain ⟨⟨⟩, htargetsRole, h⟩ := bind_eq_ok_iff.mp h
  obtain ⟨⟨⟩, -, h⟩ := bind_eq_ok_iff.mp h
  obtain ⟨⟨⟩, htargetsFloor, h⟩ := bind_eq_ok_iff.mp h
  obtain ⟨⟨⟩, htarget, h⟩ := bind_eq_ok_iff.mp h
  obtain ⟨logKeys, -, h⟩ := bind_eq_ok_iff.mp h
  have hwalked : Walked lib anchor (trusted, chain) :=
    foldlM_invariant (Walked lib anchor) (fun _ _ _ _ hwalk hstep => walked_walkRoot hwalk hstep)
      (walked_start hstart hchain) hwalk
  rw [← pure_eq_ok_iff.mp h]
  refine ⟨hwalked.2, ?_, ?_⟩
  · exact ⟨Nat.not_lt.mp (refuseIf_eq_ok_iff.mp hroot), le_of_checkRollback htimestampFloor,
      le_of_checkRollback hsnapshotFloor, le_of_checkRollback htargetsFloor⟩
  · exact ⟨trusted, metadata.timestamp, timestamp, metadata.snapshot, snapshot, targets,
      hwalked.1, rfl, htimestamp, rfl, signedTo_of_checkRole htimestampRole,
      hsnapshot, rfl, signedTo_of_checkRole hsnapshotRole, lists_of_checkListed hsnapshotListed,
      htargets, rfl, signedTo_of_checkRole htargetsRole, lists_of_checkListed htargetsListed,
      names_of_checkTarget htarget⟩

/-! ## Sequences of updates -/

theorem adopt_of_ok {call : Call} {accepted : TufUpdate}
    (h : update lib call.1 state call.2 = .ok accepted) :
    adopt lib state call = accepted.state := by
  simp only [adopt, h]

theorem adopt_of_error {call : Call} {reason : TufError}
    (h : update lib call.1 state call.2 = .error reason) : adopt lib state call = state := by
  simp only [adopt, h]

theorem walks_adopt (h : Walks lib anchor state.rootChain state.root) (call : Call) :
    Walks lib anchor (adopt lib state call).rootChain (adopt lib state call).root := by
  match hupdate : update lib call.1 state call.2 with
  | .ok accepted =>
    rw [adopt_of_ok hupdate]
    exact (update_spec h hupdate).1
  | .error reason =>
    rw [adopt_of_error hupdate]
    exact h

theorem walks_foldl_adopt (anchor : List UInt8) (calls : List Call) :
    Walks lib anchor (calls.foldl (adopt lib) (.anchored lib anchor)).rootChain
      (calls.foldl (adopt lib) (.anchored lib anchor)).root :=
  foldl_invariant (fun state : PinState => Walks lib anchor state.rootChain state.root)
    (fun _ call _ h => walks_adopt h call) (.here anchor)

/-- After any calls from an anchor, one more call either is accepted, and the state it leaves keeps
every version, is reached from the anchor over its chain and holds the target its root stands for,
or it fails and leaves the state as it was. -/
theorem updates_stay_anchored
    (lib : Library) (anchor : List UInt8) (calls : List Call) (call : Call) :
    let before := calls.foldl (adopt lib) (.anchored lib anchor)
    let after := adopt lib before call
    (∀ accepted, update lib call.1 before call.2 = .ok accepted →
      after = accepted.state ∧ Ascends before after ∧
        Walks lib anchor after.rootChain after.root ∧ Authentic lib after) ∧
    ∀ reason, update lib call.1 before call.2 = .error reason → after = before := by
  intro before after
  refine ⟨fun accepted hok => ?_, fun reason herror => adopt_of_error herror⟩
  have hafter : after = accepted.state := adopt_of_ok hok
  obtain ⟨hwalks, hascends, hauthentic⟩ := update_spec (walks_foldl_adopt anchor calls) hok
  rw [hafter]
  exact ⟨rfl, hascends, hwalks, hauthentic⟩

/-! ## A repository that rotates its root -/

def wholeNumber (n : UInt32) : Value :=
  .number (.whole n.toNat ⟨by omega, by have := n.toNat_lt; omega⟩)

def repositoryFile (role : String) (version : UInt32) (members : List (String × Value)) : Value :=
  .object [("signatures", .array [.object [("keyid", .string "a"), ("sig", .string "00")]]),
    ("signed", .object ([("_type", .string role), ("spec_version", .string "1.0"),
      ("version", wholeNumber version), ("expires", .string "2030-01-01T00:00:00Z")] ++ members))]

def repositoryRoot (version : UInt32) : Value :=
  let role : Value := .object [("keyids", .array [.string "a"]), ("threshold", wholeNumber 1)]
  repositoryFile "root" version
    [("keys", .object [("a", exampleKey '0')]),
      ("roles", .object (["root", "timestamp", "snapshot", "targets"].map (·, role)))]

def repositoryTrustedRoot : Value :=
  .object [("tlogs", .array [.object [("baseUrl", .string "https://log.example/"),
    ("publicKey", .object [("rawBytes", .string
      ("MCowBQYDK2VwAyEA" ++ String.ofList (List.replicate 43 'A')))])]])]

/-- Every file is one byte long. -/
def repositoryLibrary : Library where
  fromSlice bytes :=
    match bytes with
    | [0] => .ok (repositoryRoot 1)
    | [1] => .ok (repositoryRoot 2)
    | [2] => .ok (repositoryFile "timestamp" 5
        [("meta", .object [("snapshot.json", .object [("version", wholeNumber 4)])])])
    | [3] => .ok (repositoryFile "snapshot" 4
        [("meta", .object [("targets.json", .object [("version", wholeNumber 3)])])])
    | [4] => .ok (repositoryFile "targets" 3
        [("targets", .object [("trusted_root.json", .object [("length", wholeNumber 1),
          ("hashes", .object [("sha256", .string (Hash.ofNat 0).toHex)])])])])
    | [5] => .ok repositoryTrustedRoot
    | _ => .error "unknown file"
  verifies _ _ _ _ := true
  sha256 _ := Hash.ofNat 0

def repositoryWalk : TufMetadata where
  roots := [[0], [1]]
  timestamp := [2]
  snapshot := [3]
  targets := [4]
  trustedRoot := [5]

theorem repositoryWalk_accepted :
    (update repositoryLibrary repositoryWalk
        ([(repositoryWalk, 7)].foldl (adopt repositoryLibrary) (.anchored repositoryLibrary [0]))
        9).map (fun accepted => (accepted.state.rootChain, accepted.state.rootVersion,
          accepted.state.timestampVersion)) =
      .ok ([[1]], 2, 5) := by
  decide +kernel

/-- A root that was rotated stays anchored. -/
theorem rotated_root_stays_anchored :
    ∃ state, Walks repositoryLibrary [0] [[1]] state.root ∧ state.timestampVersion = 5 ∧
      Authentic repositoryLibrary state := by
  obtain ⟨accepted, hok, hlook⟩ := map_eq_ok repositoryWalk_accepted
  simp only [Prod.mk.injEq] at hlook
  obtain ⟨hafter, -, hwalks, hauthentic⟩ := (updates_stay_anchored repositoryLibrary [0]
    [(repositoryWalk, 7)] (repositoryWalk, 9)).1 accepted hok
  rw [hafter] at hwalks hauthentic
  rw [hlook.1] at hwalks
  exact ⟨accepted.state, hwalks, hlook.2.2, hauthentic⟩

end Synch.Tuf
