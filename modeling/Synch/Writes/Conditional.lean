import Synch.Writes.Conditions

/-!
# Conditional writes and the conditions they lose

A write that carries a condition should publish only where the version selected for its path
satisfies the condition at the moment of the commit.  Some conditions are lost on the way: a
blank `If-Match`, an `If-None-Match` that is not `*`, any `If-None-Match` of a delete, and the
difference between an absent version and a live one without content.
-/

namespace Synch.Writes

open Synch.Records Synch.Support Synch.Tree

/-! ## What the headers ask for -/

def selectedLive (view : View) (path : String) (origin : Option String) : Option EntryRow :=
  match (view.tree.versions path).select (policyOf origin) view.tree.now with
  | .selected row => if row.kind = .tombstone then none else some row
  | _ => none

/-- The header names no object: nothing is left of it without blanks and quotes. -/
def Blank (value : String) : Prop :=
  unquote (trim value) = ""

/-- The header names the object. -/
def Names (value : String) (root : Hash) : Prop :=
  parseHash (unquote (trim value)) = some root

variable {value path : String} {view before : View} {origin : Option String}
  {parseOrigin : OriginParser} {frame : Frame} {request : Request} {course : Course}

theorem Names.not_blank {root : Hash} (h : Names value root) : ¬Blank value := by
  intro hblank
  rw [Names, show unquote (trim value) = "" from hblank] at h
  exact absurd h (by simp [parseHash, decodeHex])

/-- The header asks that there be no version at all. -/
def Star (value : String) : Prop :=
  trim value = "*"

section

variable (parseOrigin : OriginParser)

/-- The origin that the request pins its condition to. -/
def Pins (request : Request) (origin : Option String) : Prop :=
  pinnedOrigin parseOrigin (nullable request.fromOrigin) = .ok origin

/-- The version selected for the path satisfies every condition the request carries: its
root is the one `If-Match` names, and `If-None-Match` is `*` and nothing live is selected. -/
structure Satisfied (view : View) (request : Request) (origin : Option String) : Prop where
  ifMatch : ∀ value ∈ request.ifMatch, ∃ row root,
    selectedLive view request.path origin = some row ∧ row.content = some root ∧ Names value root
  ifNoneMatch : ∀ value ∈ request.ifNoneMatch,
    Star value ∧ selectedLive view request.path origin = none

/-- The request is not refused.  A put then is published, and so is a delete that finds a
version of this node's to withdraw. -/
def Accepted (cap : Int) (course : Course) (before view : View) (request : Request) : Prop :=
  match request.method with
  | .put => put parseOrigin cap course view request = .ok ()
  | .delete => ∃ withdrawn, delete parseOrigin course before view request = .ok withdrawn

end

/-- The root of this node's version that a delete reads before it takes the lock. -/
def ownRead (before : View) (path : String) : Option Hash :=
  if before.apiSource then before.liveRoot path else none

/-- The view a request is decided on: the one under the lock, unless a delete finds nothing of
this node's to withdraw. -/
def decidingView (before view : View) (request : Request) : View :=
  if request.method = .delete ∧ ownRead before request.path = none then before else view

def selectedRoot (view : View) (path : String) (origin : Option String) : Option Hash :=
  (selectedLive view path origin).bind EntryRow.content

theorem selectedRoot_eq_some_iff {root : Hash} :
    selectedRoot view path origin = some root ↔
      ∃ row, selectedLive view path origin = some row ∧ row.content = some root :=
  Option.bind_eq_some_iff

/-! ## What each stage lets through -/

/-- The two policies a condition is pinned with always select. -/
theorem foundRoot_eq (view : View) (path : String) (origin : Option String) :
    foundRoot view path origin = .ok (selectedRoot view path origin) := by
  have hdivergent :
      (view.tree.versions path).select (policyOf origin) view.tree.now ≠ .divergent := by
    cases origin with
    | none =>
      simp only [policyOf, VersionSet.select, VersionSet.selectNewest]
      split <;> simp
    | some origin =>
      simp only [policyOf, VersionSet.select]
      split <;> simp
  unfold foundRoot selectedRoot selectedLive
  cases hselect : (view.tree.versions path).select (policyOf origin) view.tree.now with
  | selected row => by_cases hkind : row.kind = .tombstone <;> simp [hkind]
  | absent => simp
  | divergent => exact absurd hselect hdivergent

theorem expectSelected_ok_iff {expected : Option Hash} :
    expectSelected view path origin expected = .ok () ↔
      selectedRoot view path origin = expected := by
  unfold expectSelected
  rw [foundRoot_eq]
  change (if selectedRoot view path origin = expected then _ else _) = _ ↔ _
  by_cases hfound : selectedRoot view path origin = expected
  · simp [hfound, pure, Except.pure]
  · rw [if_neg hfound]
    refine iff_of_false ?_ hfound
    split <;> simp [throw, throwThe, MonadExceptOf.throw]

/-- The condition a frame states holds of the version selected. -/
def Frame.Holds (frame : Frame) (view : View) (path : String) (origin : Option String) : Prop :=
  match frame.ifMatch, frame.ifNoneMatch with
  | some _, true => False
  | some text, false =>
    ∃ root, parseHash text = some root ∧ selectedRoot view path origin = some root
  | none, true => selectedRoot view path origin = none
  | none, false => True

theorem condition_ok_iff {c : PutCondition} :
    condition parseOrigin frame = .ok c ↔
      ∃ origin, pinnedOrigin parseOrigin frame.fromOrigin = .ok origin ∧
        match frame.ifMatch, frame.ifNoneMatch with
        | some _, true => False
        | some text, false => ∃ root, parseHash text = some root ∧ c = .selected origin (some root)
        | none, true => c = .selected origin none
        | none, false => c = .any := by
  obtain ⟨fromOrigin, ifMatch, ifNoneMatch⟩ := frame
  unfold condition
  rw [bind_eq_ok_iff]
  refine exists_congr fun origin => and_congr_right fun _ => ?_
  cases ifMatch with
  | none => cases ifNoneMatch <;> simp [pure, Except.pure, eq_comm]
  | some text =>
    cases ifNoneMatch with
    | true => simp
    | false =>
      change (orRefuse (parseHash text) _ >>= fun root =>
        pure (PutCondition.selected origin (some root))) = .ok c ↔ _
      rw [bind_eq_ok_iff]
      refine exists_congr fun root => ?_
      rw [orRefuse_eq_ok_iff]
      exact and_congr_right fun _ => ⟨fun h => (Except.ok.inj h).symm, fun h => h ▸ rfl⟩

theorem expectMode_all (view : View) (path : String) :
    expectMode view path ⟨true, true, true⟩ = .ok () := by
  simp [expectMode, refuseIf, bind, Except.bind]

/-- A frame states a condition that passes exactly if the frame's condition holds, where a pinned
root passes exactly if it is the selected one. -/
theorem condition_and_iff {Passes : PutCondition → Prop} (hany : Passes .any)
    (hselected : ∀ origin root, Passes (.selected origin root) ↔
      selectedRoot view path origin = root) :
    (∃ c, condition parseOrigin frame = .ok c ∧ Passes c) ↔
      ∃ origin, pinnedOrigin parseOrigin frame.fromOrigin = .ok origin ∧
        frame.Holds view path origin := by
  obtain ⟨fromOrigin, ifMatch, ifNoneMatch⟩ := frame
  simp only [condition_ok_iff, Frame.Holds]
  cases ifMatch with
  | none => cases ifNoneMatch <;> simp [hselected, hany]
  | some text =>
    cases ifNoneMatch with
    | true => simp
    | false =>
      constructor
      · rintro ⟨c, ⟨origin, horigin, root, hroot, rfl⟩, hholds⟩
        exact ⟨origin, horigin, root, hroot, (hselected origin (some root)).mp hholds⟩
      · rintro ⟨origin, horigin, root, hroot, hholds⟩
        exact ⟨_, ⟨origin, horigin, root, hroot, rfl⟩, (hselected origin (some root)).mpr hholds⟩

/-- A put states its condition and passes it exactly if the frame's condition holds. -/
theorem put_condition_iff :
    (∃ c, condition parseOrigin frame = .ok c ∧
        evaluatePutCondition view path ⟨true, true, true⟩ c = .ok ()) ↔
      ∃ origin, pinnedOrigin parseOrigin frame.fromOrigin = .ok origin ∧
        frame.Holds view path origin := by
  refine condition_and_iff (expectMode_all view path) fun origin root => ?_
  simp only [evaluatePutCondition, expectMode_all]
  exact expectSelected_ok_iff

/-- The announced size is one the deployment takes. -/
def Sized (cap : Int) (request : Request) : Prop :=
  ∃ size, request.contentLength = some size ∧ 0 ≤ size ∧ size ≤ cap

theorem putFrame_ok_iff {cap : Int} :
    putFrame cap request = .ok frame ↔
      Sized cap request ∧ ¬((conditions request).1 ≠ "" ∧ (conditions request).2 = true) ∧
        frame = ⟨nullable request.fromOrigin, nullable (conditions request).1,
          (conditions request).2⟩ := by
  unfold putFrame Sized
  simp only [bind_eq_ok_iff, orRefuse_eq_ok_iff, refuseIf_eq_ok_iff, pure, Except.pure,
    Except.ok.injEq, exists_const, not_lt]
  constructor
  · rintro ⟨size, hsize, hnegative, hcap, hboth, rfl⟩
    exact ⟨⟨size, hsize, hnegative, hcap⟩, hboth, rfl⟩
  · rintro ⟨⟨size, hsize, hnegative, hcap⟩, hboth, rfl⟩
    exact ⟨size, hsize, hnegative, hcap, hboth, rfl⟩

/-- What a request states, as the tunnel carries it. -/
def frameOf (request : Request) : Frame :=
  ⟨nullable request.fromOrigin, nullable (conditions request).1,
    match request.method with
    | .put => (conditions request).2
    | .delete => false⟩

theorem nullable_of_ne (h : value ≠ "") : nullable value = some value :=
  if_neg h

theorem Course.eq_smooth_iff (course : Course) :
    course = .smooth ↔
      course.slot = .ok () ∧ course.accepted = .ok () ∧ course.opened = .ok () ∧
        course.relayed = .ok () ∧ course.publishable = .ok () ∧ course.landed = .ok () := by
  cases course
  simp [Course.smooth]

/-- A put is published exactly if nothing else stops it, its size is taken, and the condition
of its frame holds. -/
theorem put_ok_iff {cap : Int} (hmethod : request.method = .put) :
    put parseOrigin cap course view request = .ok () ↔
      course = .smooth ∧ Sized cap request ∧
        ∃ origin, Pins parseOrigin request origin ∧
          (frameOf request).Holds view request.path origin := by
  have hframe : frameOf request = ⟨nullable request.fromOrigin,
      nullable (conditions request).1, (conditions request).2⟩ := by
    simp [frameOf, hmethod]
  have hboth : ∀ origin, (frameOf request).Holds view request.path origin →
      ¬((conditions request).1 ≠ "" ∧ (conditions request).2 = true) := by
    rintro origin hholds ⟨hne, hstar⟩
    rw [hframe, nullable_of_ne hne, hstar] at hholds
    exact hholds
  have hcondition := @put_condition_iff request.path view parseOrigin (frameOf request)
  unfold put stated hostRefused refused
  simp only [bind_eq_ok_iff, Unique.exists_iff, PUnit.default_eq_unit, reword_eq_ok_iff,
    putFrame_ok_iff, Course.eq_smooth_iff]
  constructor
  · rintro ⟨frame, ⟨hsized, -, rfl⟩, hslot, haccepted, c, hc, hopened, hrelayed, hpublishable,
      hholds, hlanded⟩
    rw [← hframe] at hc
    exact ⟨⟨hslot, haccepted, hopened, hrelayed, hpublishable, hlanded⟩, hsized,
      hcondition.mp ⟨c, hc, hholds⟩⟩
  · rintro ⟨⟨hslot, haccepted, hopened, hrelayed, hpublishable, hlanded⟩, hsized, origin, hpins,
      hframeHolds⟩
    obtain ⟨c, hc, hholds⟩ := hcondition.mpr ⟨origin, hpins, hframeHolds⟩
    rw [hframe] at hc
    exact ⟨_, ⟨hsized, hboth origin hframeHolds, rfl⟩, hslot, haccepted, c, hc, hopened,
      hrelayed, hpublishable, hholds, hlanded⟩

theorem nothingToWithdraw_ok_iff :
    (∃ c, condition parseOrigin frame = .ok c ∧
        ∃ withdrawn, nothingToWithdraw before request c = .ok withdrawn) ↔
      ∃ origin, pinnedOrigin parseOrigin frame.fromOrigin = .ok origin ∧
        frame.Holds before request.path origin := by
  refine condition_and_iff (by simp [nothingToWithdraw]) fun origin root => ?_
  simp only [nothingToWithdraw, hostRefused, refused, foundRoot_eq, bind_eq_ok_iff,
    reword_eq_ok_iff, refuseIf_eq_ok_iff, Except.ok.injEq]
  simp [pure, Except.pure]

/-- What a delete under the lock accepts: an unconditional one whatever it finds. -/
theorem holds_of_withdraw_ok {ownRoot : Hash} {c : PutCondition} {withdrawn : Bool}
    (hframe : frame.ifNoneMatch = false) (hc : condition parseOrigin frame = .ok c)
    (h : withdraw course view request ownRoot c = .ok withdrawn) :
    ∃ origin, pinnedOrigin parseOrigin frame.fromOrigin = .ok origin ∧
      frame.Holds view request.path origin := by
  obtain ⟨fromOrigin, ifMatch, ifNoneMatch⟩ := frame
  obtain rfl : ifNoneMatch = false := hframe
  obtain ⟨origin, horigin, hstated⟩ := condition_ok_iff.mp hc
  refine ⟨origin, horigin, ?_⟩
  cases ifMatch with
  | none => exact trivial
  | some text =>
    obtain ⟨root, hroot, rfl⟩ := hstated
    refine ⟨root, hroot, expectSelected_ok_iff.mp ?_⟩
    unfold withdraw at h
    cases hdeleted : deleteIf course view request.path
        (guardOf ownRoot (.selected origin (some root))) with
    | ok done =>
      simp only [deleteIf, bind_eq_ok_iff] at hdeleted
      obtain ⟨_, -, _, hholds, -⟩ := hdeleted
      exact hholds
    | error e =>
      rw [hdeleted] at h
      cases e <;> simp at h

theorem withdraw_ok_of_holds (ownRoot : Hash) (hframe : frame.ifNoneMatch = false)
    (horigin : pinnedOrigin parseOrigin frame.fromOrigin = .ok origin)
    (hholds : frame.Holds view request.path origin) :
    ∃ c, condition parseOrigin frame = .ok c ∧
      ∃ withdrawn, withdraw .smooth view request ownRoot c = .ok withdrawn := by
  obtain ⟨fromOrigin, ifMatch, ifNoneMatch⟩ := frame
  obtain rfl : ifNoneMatch = false := hframe
  cases ifMatch with
  | none =>
    refine ⟨.any, condition_ok_iff.mpr ⟨origin, horigin, rfl⟩, ?_⟩
    refine ⟨decide (view.liveRoot request.path = some ownRoot), ?_⟩
    by_cases hown : view.liveRoot request.path = some ownRoot <;>
      simp [withdraw, deleteIf, guardOf, evaluateDeleteCondition, hown, Course.smooth, refuseIf,
        bind, Except.bind]
  | some text =>
    obtain ⟨root, hroot, hselected⟩ := hholds
    refine ⟨_, condition_ok_iff.mpr ⟨origin, horigin, root, hroot, rfl⟩, true, ?_⟩
    have hpasses := expectSelected_ok_iff.mpr hselected
    simp [withdraw, deleteIf, guardOf, evaluateDeleteCondition, hpasses, Course.smooth,
      bind, Except.bind]

theorem frameOf_delete (hmethod : request.method = .delete) :
    frameOf request = deleteFrame request := by
  simp [frameOf, deleteFrame, hmethod]

/-- A delete that is not refused has its frame's condition met in the view that decides. -/
theorem holds_of_delete_ok (hmethod : request.method = .delete) {withdrawn : Bool}
    (h : delete parseOrigin course before view request = .ok withdrawn) :
    ∃ origin, Pins parseOrigin request origin ∧
      (frameOf request).Holds (decidingView before view request) request.path origin := by
  unfold delete stated refused at h
  simp only [bind_eq_ok_iff, Unique.exists_iff, PUnit.default_eq_unit, reword_eq_ok_iff] at h
  obtain ⟨-, -, c, hc, -, hdone⟩ := h
  rw [frameOf_delete hmethod]
  split at hdone
  · next hnone =>
    have hown : ownRead before request.path = none := hnone
    rw [decidingView, if_pos ⟨hmethod, hown⟩]
    exact nothingToWithdraw_ok_iff.mp ⟨c, hc, withdrawn, hdone⟩
  · next ownRoot hsome =>
    have hown : ownRead before request.path = some ownRoot := hsome
    rw [decidingView, if_neg (by simp [hown])]
    exact holds_of_withdraw_ok rfl hc hdone

theorem delete_ok_of_holds (hmethod : request.method = .delete)
    (hpins : Pins parseOrigin request origin)
    (hholds : (frameOf request).Holds (decidingView before view request) request.path origin) :
    ∃ withdrawn, delete parseOrigin .smooth before view request = .ok withdrawn := by
  rw [frameOf_delete hmethod] at hholds
  have hdone : ∃ c, condition parseOrigin (deleteFrame request) = .ok c ∧
      ∃ withdrawn, (ownRead before request.path).elim (nothingToWithdraw before request c)
        (withdraw .smooth view request · c) = .ok withdrawn := by
    cases hown : ownRead before request.path with
    | none =>
      rw [decidingView, if_pos ⟨hmethod, hown⟩] at hholds
      exact nothingToWithdraw_ok_iff.mpr ⟨origin, hpins, hholds⟩
    | some ownRoot =>
      rw [decidingView, if_neg (by simp [hown])] at hholds
      exact withdraw_ok_of_holds ownRoot rfl hpins hholds
  obtain ⟨c, hc, withdrawn, hanswer⟩ := hdone
  refine ⟨withdrawn, ?_⟩
  unfold delete stated refused
  simp only [bind_eq_ok_iff, Unique.exists_iff, PUnit.default_eq_unit, reword_eq_ok_iff]
  refine ⟨rfl, rfl, c, hc, rfl, ?_⟩
  rw [ownRead] at hanswer
  split
  · next hnone => rwa [hnone] at hanswer
  · next ownRoot hsome => rwa [hsome] at hanswer

/-- A request whose condition is lost on its way to the version selected. -/
inductive Slips (cap : Int) (view : View) (request : Request) (origin : Option String) : Prop
  /-- A put with a blank `If-Match` is sent without one. -/
  | blankPut (value : String)
      (method : request.method = .put)
      (sized : Sized cap request)
      (ifMatch : request.ifMatch = some value)
      (blank : Blank value)
      (passes : ∀ other ∈ request.ifNoneMatch, Star other →
        selectedRoot view request.path origin = none)
  /-- A live version without content passes for no version. -/
  | contentless (value : String)
      (method : request.method = .put)
      (sized : Sized cap request)
      (ifMatch : request.ifMatch = none)
      (ifNoneMatch : request.ifNoneMatch = some value)
      (star : Star value)
      (row : EntryRow)
      (live : selectedLive view request.path origin = some row)
      (content : row.content = none)
  /-- A put with another `If-None-Match` is sent without it. -/
  | otherNoneMatch (value : String)
      (method : request.method = .put)
      (sized : Sized cap request)
      (ifNoneMatch : request.ifNoneMatch = some value)
      (notStar : ¬Star value)
      (passes : ∀ other ∈ request.ifMatch, ∃ root,
        Names other root ∧ selectedRoot view request.path origin = some root)
  /-- A delete with a blank `If-Match` is sent without one. -/
  | blankDelete (value : String)
      (method : request.method = .delete)
      (ifMatch : request.ifMatch = some value)
      (blank : Blank value)
  /-- A delete is sent without its `If-None-Match`. -/
  | ignored (value : String)
      (method : request.method = .delete)
      (ifMatch : request.ifMatch = none)
      (ifNoneMatch : request.ifNoneMatch = some value)
      (unmet : Star value → (selectedLive view request.path origin).isSome)
  /-- So it is where its `If-Match` holds. -/
  | ignoredBeside (value other : String)
      (method : request.method = .delete)
      (ifMatch : request.ifMatch = some other)
      (ifNoneMatch : request.ifNoneMatch = some value)
      (root : Hash)
      (names : Names other root)
      (selected : selectedRoot view request.path origin = some root)

/-! ### The frame in terms of the headers -/

theorem Frame.holds_iff :
    frame.Holds view path origin ↔
      (∀ text ∈ frame.ifMatch, frame.ifNoneMatch = false ∧
          ∃ root, parseHash text = some root ∧ selectedRoot view path origin = some root) ∧
        (frame.ifMatch = none → frame.ifNoneMatch = true →
          selectedRoot view path origin = none) := by
  obtain ⟨fromOrigin, ifMatch, ifNoneMatch⟩ := frame
  cases ifMatch <;> cases ifNoneMatch <;> simp [Frame.Holds]

theorem mem_frameOf_ifMatch_iff {text : String} :
    text ∈ (frameOf request).ifMatch ↔
      ∃ value ∈ request.ifMatch, ¬Blank value ∧ unquote (trim value) = text := by
  unfold frameOf conditions
  cases request.ifMatch with
  | none => simp [nullable]
  | some value =>
    by_cases hblank : unquote (trim value) = ""
    · simp [nullable, hblank, Blank]
    · simp [nullable, hblank, Blank]

/-- Without an `If-Match`, or with a blank one, nothing but `*` is asked for. -/
theorem frameOf_holds_of_blank (hblank : ∀ value ∈ request.ifMatch, Blank value) :
    (frameOf request).Holds view path origin ↔
      ((frameOf request).ifNoneMatch = true → selectedRoot view path origin = none) := by
  have hnone : (frameOf request).ifMatch = none := by
    rw [Option.eq_none_iff_forall_not_mem]
    intro text htext
    obtain ⟨value, hvalue, hnot, -⟩ := mem_frameOf_ifMatch_iff.mp htext
    exact hnot (hblank value hvalue)
  simp [Frame.holds_iff, hnone]

theorem frameOf_ifNoneMatch_put_iff (hmethod : request.method = .put) :
    (frameOf request).ifNoneMatch = true ↔ ∃ value ∈ request.ifNoneMatch, Star value := by
  unfold frameOf conditions
  rw [hmethod]
  cases request.ifNoneMatch <;> simp [Star]

theorem frameOf_ifNoneMatch_delete (hmethod : request.method = .delete) :
    (frameOf request).ifNoneMatch = false :=
  congrArg Frame.ifNoneMatch (frameOf_delete hmethod)

/-- The condition of an `If-Match` that is not blank reaches the version selected. -/
theorem ifMatch_of_holds (hholds : (frameOf request).Holds view request.path origin)
    (hvalue : request.ifMatch = some value) (hblank : ¬Blank value) :
    (frameOf request).ifNoneMatch = false ∧
      ∃ root, Names value root ∧ selectedRoot view request.path origin = some root :=
  (Frame.holds_iff.mp hholds).1 _ (mem_frameOf_ifMatch_iff.mpr ⟨value, hvalue, hblank, rfl⟩)

theorem Satisfied.of_holds (hholds : (frameOf request).Holds view request.path origin)
    (hblank : ∀ value ∈ request.ifMatch, ¬Blank value)
    (hnoneMatch : ∀ value ∈ request.ifNoneMatch,
      Star value ∧ selectedLive view request.path origin = none) :
    Satisfied view request origin := by
  refine ⟨fun value hvalue => ?_, hnoneMatch⟩
  obtain ⟨-, root, hnames, hroot⟩ := ifMatch_of_holds hholds hvalue (hblank value hvalue)
  obtain ⟨row, hrow, hcontent⟩ := selectedRoot_eq_some_iff.mp hroot
  exact ⟨row, root, hrow, hcontent, hnames⟩

/-! ### A condition that is not lost is met -/

section

variable {cap : Int}

theorem blankPut_of_holds (hmethod : request.method = .put) (hsized : Sized cap request)
    (hholds : (frameOf request).Holds view request.path origin) {value : String}
    (hvalue : request.ifMatch = some value) (hblank : Blank value) :
    Slips cap view request origin := by
  refine .blankPut value hmethod hsized hvalue hblank ?_
  intro other hother hstar
  exact (frameOf_holds_of_blank (by simpa [hvalue] using hblank)).mp hholds
    ((frameOf_ifNoneMatch_put_iff hmethod).mpr ⟨other, hother, hstar⟩)

theorem satisfied_of_put (hmethod : request.method = .put) (hsized : Sized cap request)
    (hholds : (frameOf request).Holds view request.path origin)
    (hslips : ¬Slips cap view request origin) : Satisfied view request origin := by
  have hnotBlank (value : String) (hvalue : request.ifMatch = some value) : ¬Blank value :=
    fun hblank => hslips (blankPut_of_holds hmethod hsized hholds hvalue hblank)
  refine .of_holds hholds hnotBlank fun value hvalue => ?_
  by_cases hstar : Star value
  · refine ⟨hstar, ?_⟩
    have hflag := (frameOf_ifNoneMatch_put_iff hmethod).mpr ⟨value, hvalue, hstar⟩
    -- with `*` sent, an `If-Match` beside it would have been refused
    have hnone : request.ifMatch = none := by
      cases hmatch : request.ifMatch with
      | none => rfl
      | some other =>
        rw [(ifMatch_of_holds hholds hmatch (hnotBlank other hmatch)).1] at hflag
        cases hflag
    have hroot : selectedRoot view request.path origin = none :=
      (frameOf_holds_of_blank (by simp [hnone])).mp hholds hflag
    cases hlive : selectedLive view request.path origin with
    | none => rfl
    | some row =>
      have hcontent : row.content = none := by simpa [selectedRoot, hlive] using hroot
      exact absurd (.contentless value hmethod hsized hnone hvalue hstar row hlive hcontent) hslips
  · refine absurd (.otherNoneMatch value hmethod hsized hvalue hstar ?_) hslips
    exact fun other hother => (ifMatch_of_holds hholds hother (hnotBlank other hother)).2

theorem satisfied_of_delete (hmethod : request.method = .delete)
    (hholds : (frameOf request).Holds view request.path origin)
    (hslips : ¬Slips cap view request origin) : Satisfied view request origin := by
  have hnotBlank (value : String) (hvalue : request.ifMatch = some value) : ¬Blank value :=
    fun hblank => hslips (.blankDelete value hmethod hvalue hblank)
  refine .of_holds hholds hnotBlank fun value hvalue => ?_
  cases hmatch : request.ifMatch with
  | some other =>
    obtain ⟨-, root, hnames, hroot⟩ := ifMatch_of_holds hholds hmatch (hnotBlank other hmatch)
    exact absurd (.ignoredBeside value other hmethod hmatch hvalue root hnames hroot) hslips
  | none =>
    by_contra hunmet
    refine hslips (.ignored value hmethod hmatch hvalue fun hstar => ?_)
    rw [Option.isSome_iff_ne_none]
    exact fun hnone => hunmet ⟨hstar, hnone⟩

/-! ### A condition that is lost is not met -/

theorem Slips.not_satisfied (h : Slips cap view request origin) :
    ¬Satisfied view request origin := by
  intro hsatisfied
  cases h with
  | blankPut value _ _ hvalue hblank _ | blankDelete value _ hvalue hblank =>
    obtain ⟨_, root, -, -, hnames⟩ := hsatisfied.ifMatch value hvalue
    exact hnames.not_blank hblank
  | contentless value _ _ _ hvalue _ row hlive _ =>
    rw [(hsatisfied.ifNoneMatch value hvalue).2] at hlive
    cases hlive
  | otherNoneMatch value _ _ hvalue hnotStar _ =>
    exact hnotStar (hsatisfied.ifNoneMatch value hvalue).1
  | ignored value _ _ hvalue hunmet =>
    obtain ⟨hstar, hnone⟩ := hsatisfied.ifNoneMatch value hvalue
    have hlive := hunmet hstar
    rw [hnone] at hlive
    cases hlive
  | ignoredBeside value other _ _ hvalue root _ hselected =>
    obtain ⟨row, hrow, -⟩ := selectedRoot_eq_some_iff.mp hselected
    rw [(hsatisfied.ifNoneMatch value hvalue).2] at hrow
    cases hrow

/-- The condition that is left of a request holds all the same. -/
theorem Slips.holds (h : Slips cap view request origin) :
    (frameOf request).Holds view request.path origin ∧
      (request.method = .put → Sized cap request) := by
  cases h with
  | blankPut value hmethod hsized hvalue hblank hpasses =>
    refine ⟨(frameOf_holds_of_blank (by simpa [hvalue] using hblank)).mpr fun hflag => ?_,
      fun _ => hsized⟩
    obtain ⟨other, hother, hstar⟩ := (frameOf_ifNoneMatch_put_iff hmethod).mp hflag
    exact hpasses other hother hstar
  | contentless value hmethod hsized hnone _ _ row hlive hcontent =>
    refine ⟨(frameOf_holds_of_blank (by simp [hnone])).mpr fun _ => ?_, fun _ => hsized⟩
    simp [selectedRoot, hlive, hcontent]
  | otherNoneMatch value hmethod hsized hvalue hnotStar hpasses =>
    have hflag : (frameOf request).ifNoneMatch = false := by
      rw [← Bool.not_eq_true, frameOf_ifNoneMatch_put_iff hmethod, hvalue]
      rintro ⟨_, ⟨⟩, hstar⟩
      exact hnotStar hstar
    refine ⟨Frame.holds_iff.mpr ⟨fun text htext => ?_, by simp [hflag]⟩, fun _ => hsized⟩
    obtain ⟨other, hother, -, rfl⟩ := mem_frameOf_ifMatch_iff.mp htext
    exact ⟨hflag, hpasses other hother⟩
  | blankDelete value hmethod hvalue hblank =>
    have hflag := frameOf_ifNoneMatch_delete hmethod
    exact ⟨(frameOf_holds_of_blank (by simpa [hvalue] using hblank)).mpr (by simp [hflag]),
      by simp [hmethod]⟩
  | ignored value hmethod hnone _ _ =>
    have hflag := frameOf_ifNoneMatch_delete hmethod
    exact ⟨(frameOf_holds_of_blank (by simp [hnone])).mpr (by simp [hflag]), by simp [hmethod]⟩
  | ignoredBeside value other hmethod hmatch _ root hnames hselected =>
    have hmem := mem_frameOf_ifMatch_iff.mpr ⟨other, hmatch, hnames.not_blank, rfl⟩
    have hflag := frameOf_ifNoneMatch_delete hmethod
    refine ⟨Frame.holds_iff.mpr ⟨fun text htext => ?_, by simp [hflag]⟩, by simp [hmethod]⟩
    obtain rfl := Option.mem_unique hmem htext
    exact ⟨hflag, root, hnames, hselected⟩

end

/-- A view in which this node has published one file. -/
def oneFile (path : String) (hpath : path ≠ "") (root : Hash) : View where
  tree :=
    { space := "docs"
      entries := [⟨"cloud-1", "docs", path, .file, 0, 0, none, some root, 1, none, none⟩]
      now := 0
      origin_ne := by simp
      path_ne := by simpa using hpath }
  own := "cloud-1"
  apiSource := true

end Synch.Writes
