import Std.Data.TreeMap.Lemmas
import Synch.Transparency.Names
import Synch.Transparency.Tiles

/-!
# The watch list

A monitor watches the delegation paths of the names in its list, above and
below each.  A run that resumes compares its list with the names its recorded
positions cover.
-/

namespace Synch.Transparency

/-! ## The model -/

/-- The keys already reported, by apex; the apexes are the watch list. -/
structure KnownKeys where
  keys : Std.TreeMap String (List String)

namespace KnownKeys

variable (names : NameText) (known : KnownKeys)

/-- The apexes this monitor watches, parsed. -/
def apexes : List Name :=
  known.keys.keys.filterMap fun apex => (parseName names apex).toOption

/-- Whether an entry naming an apex is this monitor's business. -/
def watches (apex : Name) : Bool :=
  (known.apexes names).any fun watched => watched.ZoneOf apex ∨ apex.ZoneOf watched

/-- A watch list of names without keys. -/
def ofNames (covered : List String) : KnownKeys where
  keys := .ofList (covered.map fun name => (name, []))

/-- The watched names that the covered names do not already watch. -/
def wideningOver (covered : List String) : List String :=
  let old := ofNames covered
  ((known.apexes names).filter fun apex =>
    !old.watches names apex ||
      (old.apexes names).any fun watched => apex.ZoneOf watched ∧ ¬apex.Same watched).map
    names.toText

end KnownKeys

open KnownKeys (ofNames)

/-- How far a log has been read. -/
structure LogPosition where
  nextIndex : Nat

/-- The part of the monitor's persisted view that decides on coverage. -/
structure MonitorState where
  watched : Option (List String)
  logs : Std.TreeMap String LogPosition
  known : KnownKeys

/-- The state as a run saves it: the positions cover the list as it stands. -/
def MonitorState.stamped (state : MonitorState) : MonitorState :=
  { state with watched := some state.known.keys.keys }

structure RunArgs where
  state : String
  allowGap : Bool

/-- Refuse a run whose watch list covers more than the recorded positions do. -/
def coverageGap (names : NameText) (state : MonitorState) (args : RunArgs) :
    Except MonitorError Unit :=
  match state.watched with
  | none => .ok ()
  | some covered =>
    let widened := state.known.wideningOver names covered
    if widened ≠ [] ∧ args.allowGap = false then
      let path := args.state
      let list := ", ".intercalate widened
      let behind := ", ".intercalate (state.logs.toList.map fun (origin, position) =>
        let next := position.nextIndex
        s!"{origin} at {next}")
      let them := if widened.length = 1 then "it" else "them"
      .error (.state (s!"{path} now watches {list} that it did not when its positions were " ++
        s!"recorded ({behind}) — the watch filter runs per entry, so every " ++
        s!"entry already in the log for {them} was stepped over and no run will " ++
        "ever classify it. Pass --allow-gap to accept that, or " ++
        "--from-index 0 to re-read from the start"))
    else
      .ok ()

/-! ## Names that cover a subtree -/

/-- A name on the delegation path of one of the names. -/
def OnPath (names : List Name) (name : Name) : Prop :=
  ∃ watched ∈ names, watched.ZoneOf name ∨ name.ZoneOf watched

/-- The names cover a subtree: they hold its root or a zone above it, or every
child of it is covered and there is one. -/
inductive Covers (names : List Name) : Name → Prop
  | held {zone watched : Name} (hmem : watched ∈ names) (habove : watched.ZoneOf zone) :
      Covers names zone
  | split {zone : Name} (hsome : ∃ child : Name, child.ChildOf zone)
      (hall : ∀ child : Name, child.ChildOf zone → Covers names child) : Covers names zone

variable {names : List Name} {zone : Name}

theorem OnPath.of_zone {name : Name} (h : OnPath names name) (hzone : zone.ZoneOf name) :
    OnPath names zone := by
  obtain ⟨watched, hmem, habove | hbelow⟩ := h
  · exact ⟨watched, hmem, habove.comparable hzone⟩
  · exact ⟨watched, hmem, .inr (hzone.trans hbelow)⟩

theorem Covers.onPath (h : Covers names zone) {name : Name} (hbelow : zone.ZoneOf name) :
    OnPath names name := by
  induction h generalizing name with
  | held hmem habove => exact ⟨_, hmem, .inl (habove.trans hbelow)⟩
  | @split zone hsome _ ih =>
    by_cases hsame : zone.Same name
    · obtain ⟨child, hchild⟩ := hsome
      have hpath := ih child hchild (Name.ZoneOf.refl child)
      exact hpath.of_zone (hsame.symm.zoneOf.trans hchild.zoneOf)
    · obtain ⟨child, hchild, hname⟩ := Name.ProperZoneOf.exists_child ⟨hbelow, hsame⟩
      exact ih child hchild hname

/-- The names cover a subtree if every name in it is on one of their paths. -/
theorem covers_of_onPath (h : ∀ name : Name, zone.ZoneOf name → OnPath names name) :
    Covers names zone := by
  -- children are longer, and there is a longest name
  induction hroom : 255 - encodedLength zone.labels using Nat.strong_induction_on
    generalizing zone with
  | _ room ih =>
    obtain ⟨watched, hmem, habove | hbelow⟩ := h zone (Name.ZoneOf.refl zone)
    · exact .held hmem habove
    by_cases hsame : zone.Same watched
    · exact .held hmem hsame.symm.zoneOf
    obtain ⟨child, hchild, -⟩ := Name.ProperZoneOf.exists_child ⟨hbelow, hsame⟩
    refine .split ⟨child, hchild⟩ ?_
    intro child hchild
    have hlt := hchild.encodedLength_lt
    have hbound := child.encoded_length
    exact ih _ (by omega) (fun name hname => h name (hchild.zoneOf.trans hname)) rfl

/-- Every name on a path of the first names is on a path of the second exactly if
the second cover the subtree of each of the first. -/
theorem onPath_subset_iff {watching covered : List Name} :
    (∀ name, OnPath watching name → OnPath covered name) ↔
      ∀ zone ∈ watching, Covers covered zone := by
  constructor
  · intro h zone hzone
    apply covers_of_onPath
    intro name hname
    exact h name ⟨zone, hzone, .inl hname⟩
  · rintro h name ⟨zone, hzone, habove | hbelow⟩
    · exact (h zone hzone).onPath habove
    · exact ((h zone hzone).onPath (Name.ZoneOf.refl zone)).of_zone hbelow

/-! ## Widening -/

section Widening

variable {names : NameText} {known : KnownKeys} {covered : List String}

theorem watches_eq_true_iff {apex : Name} :
    known.watches names apex = true ↔ OnPath (known.apexes names) apex := by
  simp [KnownKeys.watches, OnPath]

theorem wideningOver_eq_nil_iff :
    known.wideningOver names covered = [] ↔
      ∀ zone ∈ known.apexes names,
        OnPath ((ofNames covered).apexes names) zone ∧
          ∀ old ∈ (ofNames covered).apexes names, ¬zone.ProperZoneOf old := by
  simp only [KnownKeys.wideningOver, List.map_eq_nil_iff, List.filter_eq_nil_iff,
    Bool.or_eq_true, Bool.not_eq_true', not_or, Bool.not_eq_false, watches_eq_true_iff,
    List.any_eq_true, decide_eq_true_eq, not_exists, Name.ProperZoneOf, not_and]

variable (names known covered) in
/-- The names to watch include one that the covered names do not cover, or none of
them is above a covered name. -/
def WideningSettled : Prop :=
  (∃ zone ∈ known.apexes names, ¬Covers ((ofNames covered).apexes names) zone) ∨
    ∀ zone ∈ known.apexes names, ∀ old ∈ (ofNames covered).apexes names, ¬zone.ProperZoneOf old

/-- Watching no name above a covered one, and only names on their paths, is
watching no more. -/
theorem covers_of_wideningOver_eq_nil (h : known.wideningOver names covered = []) :
    ∀ zone ∈ known.apexes names, Covers ((ofNames covered).apexes names) zone := by
  intro zone hzone
  obtain ⟨⟨old, hold, habove | hbelow⟩, hproper⟩ := wideningOver_eq_nil_iff.mp h zone hzone
  · exact .held hold habove
  · have hsame : zone.Same old := by
      by_contra hother
      exact hproper old hold ⟨hbelow, hother⟩
    exact .held hold hsame.symm.zoneOf

/-- A list's own names parse to its own apexes. -/
theorem mem_apexes_ofNames {apex : Name} :
    apex ∈ (ofNames known.keys.keys).apexes names ↔ apex ∈ known.apexes names := by
  simp [KnownKeys.apexes, ofNames]

theorem coverageGap_eq_ok_iff {state : MonitorState} {args : RunArgs} :
    coverageGap names state.stamped args = .ok () ↔
      args.allowGap = true ∨ state.known.wideningOver names state.known.keys.keys = [] := by
  simp only [coverageGap, MonitorState.stamped]
  by_cases hwidened : state.known.wideningOver names state.known.keys.keys = []
  · simp [hwidened]
  · cases hgap : args.allowGap <;> simp [hwidened]

end Widening

/-- What the comparison of two lists finds is what one watches beyond the other,
exactly if the lists are settled; a saved run is followed by another, unless a gap
is allowed, exactly if the list is settled against itself. -/
theorem widening_exact_iff_settled (names : NameText) :
    (∀ known covered,
      WideningSettled names known covered ↔
        (known.wideningOver names covered = [] ↔
          ∀ name, known.watches names name = true → (ofNames covered).watches names name = true)) ∧
    ∀ (state : MonitorState) (args : RunArgs),
      (args.allowGap = true ∨ WideningSettled names state.known state.known.keys.keys) ↔
        coverageGap names state.stamped args = .ok () := by
  have hexact : ∀ known covered,
      WideningSettled names known covered ↔
        (known.wideningOver names covered = [] ↔
          ∀ zone ∈ known.apexes names, Covers ((ofNames covered).apexes names) zone) := by
    intro known covered
    constructor
    · rintro (⟨zone, hzone, huncovered⟩ | hnone)
      · constructor
        · exact covers_of_wideningOver_eq_nil
        · intro hcovered
          exact absurd (hcovered zone hzone) huncovered
      · constructor
        · exact covers_of_wideningOver_eq_nil
        · intro hcovered
          apply wideningOver_eq_nil_iff.mpr
          intro zone hzone
          exact ⟨(hcovered zone hzone).onPath (Name.ZoneOf.refl zone), hnone zone hzone⟩
    · intro hiff
      by_cases hcovered : ∀ zone ∈ known.apexes names, Covers ((ofNames covered).apexes names) zone
      · right
        intro zone hzone
        exact (wideningOver_eq_nil_iff.mp (hiff.mpr hcovered) zone hzone).2
      · left
        obtain ⟨zone, hzone⟩ := not_forall.mp hcovered
        exact ⟨zone, Classical.not_imp.mp hzone⟩
  constructor
  · intro known covered
    simp only [watches_eq_true_iff]
    rw [onPath_subset_iff]
    exact hexact known covered
  · intro state args
    have hself : ∀ zone ∈ state.known.apexes names,
        Covers ((ofNames state.known.keys.keys).apexes names) zone :=
      fun zone hzone => .held (mem_apexes_ofNames.mpr hzone) (Name.ZoneOf.refl zone)
    rw [coverageGap_eq_ok_iff, hexact, iff_true_right hself]

/-! ## A zone and its subdomain -/

def comLabel : Label := [0x63, 0x6f, 0x6d]

def exampleLabel : Label := [0x65, 0x78, 0x61, 0x6d, 0x70, 0x6c, 0x65]

def cpLabel : Label := [0x63, 0x70]

def exampleCom : Name where
  labels := [exampleLabel, comLabel]
  label_length := by decide
  encoded_length := by decide

def cpExampleCom : Name where
  labels := [cpLabel, exampleLabel, comLabel]
  label_length := by decide
  encoded_length := by decide

def exampleNames : NameText where
  fromUtf8 text :=
    if text = "example.com." then .ok exampleCom
    else if text = "cp.example.com." then .ok cpExampleCom
    else .error "no such name"
  toText name := if name = exampleCom then "example.com." else "cp.example.com."

/-- A list of a zone and its subdomain widens over itself, and the run after a saved
one is refused although nothing was edited. -/
theorem list_widens_over_itself :
    let known : KnownKeys := .ofNames ["cp.example.com.", "example.com."]
    known.wideningOver exampleNames known.keys.keys = ["example.com."] ∧
      (∀ name, known.watches exampleNames name = true →
        (ofNames known.keys.keys).watches exampleNames name = true) ∧
      coverageGap exampleNames (MonitorState.stamped ⟨none, ∅, known⟩) ⟨"monitor.json", false⟩ ≠
        .ok () := by
  have hwidened : (ofNames ["cp.example.com.", "example.com."]).wideningOver
      exampleNames (ofNames ["cp.example.com.", "example.com."]).keys.keys =
        ["example.com."] := by decide +kernel
  refine ⟨hwidened, ?_, ?_⟩
  · intro name
    rw [watches_eq_true_iff, watches_eq_true_iff]
    rintro ⟨watched, hwatched, hpath⟩
    exact ⟨watched, mem_apexes_ofNames.mpr hwatched, hpath⟩
  · rw [ne_eq, coverageGap_eq_ok_iff, hwidened]
    simp

end Synch.Transparency
