import Synch.Locks.Invariant
import Synch.Locks.Sections

/-!
# Mutual exclusion of the lock exchange

Every action keeps the invariant, so no run of the exchange reaches a world in
which two nodes hold one lock.
-/

namespace Synch.Locks

open Std (TreeMap)
open List Synch.Support

variable {Origin : Type} [LinearOrder Origin]

namespace World

variable {cluster : Cluster Origin} {w w' : World Origin}

/-! ## The single actions -/

variable {x : Exchange Origin} {now deadline : Instant} {next : Manager Origin}
    {id : ClaimId Origin} {exchanges : List (Exchange Origin)} {doomed : List (Doomed Origin)}
    {endings : List (Ending Origin)}

/-- Recording a claim or renewal and folding its answer in. -/
theorem Inv.deliver [ToString Origin] (h : Inv cluster w) {i : Nat} {m : Origin}
    {writers : List Origin} {renewal : Bool} {reports : List (Report Origin)}
    {ended : List (ClaimId Origin × EndReason)} {watermarks : List (Watermark Origin)}
    (hx : w.exchanges[i]? = some x)
    (hrecord : (w.node m).record writers x.lock x.claim renewal now =
      (next, .answer reports ended watermarks)) :
    Inv cluster ((w.setNode m next).answered i x m reports ended watermarks) := by
  have hmem : x ∈ w.exchanges := mem_of_getElem? hx
  have hnext : next = ((w.node m).record writers x.lock x.claim renewal now).1 := by
    rw [hrecord]
  have hevolves : ∀ lock, (w.entry m lock).Evolves (fun _ => False) (next.table.entry lock) := by
    intro lock
    obtain ⟨entry, hupdates, hentry⟩ :=
      (w.node m).record_updates x.lock writers x.claim renewal now
    rw [hnext]
    refine hupdates.evolves_all ?_ lock
    rcases hentry with rfl | rfl
    · exact Entry.Evolves.refl _ _
    · exact Entry.evolves_observe _ _ _ _ _
  have heffect := (w.node m).record_effect x.lock writers x.claim renewal now
  rw [← hnext] at heffect
  have hown : (next.table.entry x.lock).own = (w.entry m x.lock).own := heffect.hold
  obtain ⟨hreports, hended, hobserve⟩ := Manager.record_answer hrecord
  set w' := (w.setNode m next).answered i x m reports ended watermarks
  have hentry : ∀ k lock, w'.entry k lock = (w.setNode m next).entry k lock :=
    fun _ _ => rfl
  have hentryOwn : ∀ k, (w'.entry k x.lock).own = (w.entry k x.lock).own := by
    intro k
    rw [hentry, entry_setNode]
    by_cases hk : k = m
    · rw [if_pos hk, hown, hk]
    · rw [if_neg hk]
  refine h.quiet
    { used := rfl
      origin := ?_
      entry := ?_
      exchange := ?_
      doomed := fun d hd => .inl hd
      ending := fun e he => .inl ⟨e, he, rfl, rfl⟩ }
  · exact origin_setNode heffect.origin
  · exact entry_evolves_setNode fun lock =>
      ⟨fun _ => False, hevolves lock, fun _ hfalse => hfalse.elim⟩
  · intro x' hx'
    rcases mem_or_eq_of_mem_set hx' with hold | rfl
    · exact .inl hold
    · refine .inr ⟨(h.exchangeWell x hmem).1, (h.exchangeWell x hmem).2, ?_, ?_⟩
      · intro id hid
        rcases Gathered.ended_of_add_ended hid with hbefore | ⟨report, hreport, rfl⟩
        · exact h.gatheredDead x hmem id hbefore
        · rw [hended] at hreport
          have hnow := Entry.ended_of_mem_endedReports hreport
          rcases (hevolves x.lock).ended report.1 hnow with hbefore | hfalse
          · exact h.endedDead hbefore
          · exact hfalse.elim
      · intro hkind
        refine ⟨cluster.attemptOf x, ⟨x, hmem, hkind, rfl, rfl⟩, rfl, ?_, ?_⟩
        · intro j htold
          exact Gathered.Knows.add htold reports ended watermarks
        · rintro p ⟨hcontender, hsender, hwaiting⟩
          by_cases hp : p ∈ x.waiting
          · have hpm : p = m := by
              by_contra hne
              exact hwaiting (mem_filter.mpr ⟨hp, by simpa using hne⟩)
            subst hpm
            refine .inr ⟨?_, ?_⟩
            · rintro ⟨n, held, hlive⟩
              obtain ⟨own, hlives, hid, -⟩ := view_own_eq_some.mp hlive
              have halive : ¬w.Dead x.lock x.claim.id := by
                intro hdead
                have hsame : (w.entry n x.lock).own = some own :=
                  (hentryOwn n) ▸ hlives
                exact hdead.2 n own hsame hid
              have hunended : ((w.node p).table.entry x.lock).ended.contains
                  x.claim.id = false := by
                by_contra hcontains
                rw [Bool.not_eq_false] at hcontains
                exact halive (h.endedDead hcontains)
              have hother : x.claim.id.ticket.origin ≠ (w.node p).origin := by
                rw [(h.exchangeWell x hmem).1, h.origin p]
                exact Ne.symm hsender
              obtain ⟨o, ho⟩ := Entry.observe_observed_self hunended renewal now
              refine ⟨o, ?_⟩
              rw [hentry, entry_setNode, if_pos rfl, hobserve hother]
              exact ho
            · intro j hj
              obtain ⟨own, hholds, hid, hheld⟩ := view_own_eq_some.mp hj
              have hnow : (next.table.entry x.lock).own = some own :=
                hown.trans hholds
              obtain ⟨report, hreport, hreportId, hstate⟩ :=
                Entry.held_mem_reports hnow hheld now
              rw [← hreports] at hreport
              have hknows := x.gathered.knows_add_of_mem hreport ended watermarks
              rw [hreportId, hid, hstate] at hknows
              exact hknows
          · exact .inl ⟨hcontender, hsender, hp⟩

variable {lock : LockName} {n : Origin}

/-- A dead claim stays dead when one node's manager evolves. -/
theorem Dead.setNode (h : w.Dead lock id) {gone : ClaimId Origin → Prop}
    (hevolves : (w.entry n lock).Evolves gone (next.table.entry lock)) :
    (w.setNode n next).Dead lock id := by
  refine ⟨h.1, ?_⟩
  intro k own' hown'
  rw [entry_setNode] at hown'
  split at hown'
  · obtain ⟨own, hown, hid, -⟩ := hevolves.own own' hown'
    rw [hid]
    exact h.2 n own hown
  · exact h.2 k own' hown'

/-- A claim is dead once its own node has dropped it. -/
theorem Inv.dead_setNode (h : Inv cluster w)
    (hevolves : ∀ lock, ∃ gone, (w.entry n lock).Evolves gone (next.table.entry lock))
    (horigin : id.ticket.origin = n) (hused : id ∈ w.used)
    (hdropped : ∀ own, (next.table.entry lock).own = some own → own.claim.id ≠ id) :
    (w.setNode n next).Dead lock id := by
  refine dead_of_origin ?_ hused ?_
  · intro k other own' hown'
    rw [entry_setNode] at hown'
    split at hown'
    · rename_i hk
      obtain ⟨gone, hevolves⟩ := hevolves other
      obtain ⟨own, hown, hid, -⟩ := hevolves.own own' hown'
      rw [hid, hk]
      exact (h.ownWell hown).1
    · exact (h.ownWell hown').1
  · intro own hown
    rw [horigin, entry_setNode, if_pos rfl] at hown
    exact hdropped own hown

/-- A node evolves and ends dead claims only; messages only disappear, new renewals and
doomed claims are this node's, and new ends announce dead claims. -/
theorem Inv.evolve (h : Inv cluster w) {gone : LockName → ClaimId Origin → Prop}
    (horigin : next.origin = (w.node n).origin)
    (hevolves : ∀ lock, (w.entry n lock).Evolves (gone lock) (next.table.entry lock))
    (hdead : ∀ lock id, gone lock id → (w.setNode n next).Dead lock id)
    (hexchanges : ∀ x ∈ exchanges, x ∈ w.exchanges ∨
      (x.kind = .renewal ∧ x.gathered.ended.isEmpty = true ∧
        x.claim.id.ticket.origin = x.sender ∧ x.claim.id ∈ w.used))
    (hdoomed : ∀ d ∈ doomed, d ∈ w.doomed ∨ d.id.ticket.origin = d.node ∧ d.id ∈ w.used)
    (hendings : ∀ e ∈ endings, (∃ e₀ ∈ w.endings, e₀.lock = e.lock ∧ e₀.id = e.id) ∨
      (w.setNode n next).Dead e.lock e.id) :
    Inv cluster { w.setNode n next with
      exchanges := exchanges, doomed := doomed, endings := endings } := by
  refine h.quiet
    { used := rfl
      origin := origin_setNode horigin
      entry := entry_evolves_setNode fun lock => ⟨gone lock, hevolves lock, hdead lock⟩
      exchange := ?_
      doomed := hdoomed
      ending := hendings }
  intro x hx
  rcases hexchanges x hx with hold | ⟨hkind, hempty, horigin, hused⟩
  · exact .inl hold
  · refine .inr ⟨horigin, hused, ?_, ?_⟩
    · intro id hid
      obtain ⟨reason, hreason⟩ := contains_eq_true_iff.mp hid
      rw [TreeMap.getElem?_of_isEmpty hempty] at hreason
      cases hreason
    · intro hclaim
      rw [hkind] at hclaim
      cases hclaim

theorem Inv.lose (h : Inv cluster w) {d : Doomed Origin} (hd : d ∈ w.doomed) (lost : Lost Origin)
    (now : Instant) (hdoomed : doomed ⊆ w.doomed) (endings : List (Ending Origin))
    (hendings : ∀ e ∈ endings, e ∈ w.endings ∨ e.lock = d.lock ∧ e.id = d.id) :
    Inv cluster { w.setNode d.node ((w.node d.node).lose d.lock d.id lost now) with
      doomed := doomed, endings := endings } := by
  obtain ⟨entry, hupdates, hdrop, hown, -⟩ := (w.node d.node).lose_updates d.lock d.id lost now
  have hevolves := hupdates.evolves hdrop
  have hdead := h.dead_setNode (fun other => ⟨_, hevolves other⟩)
    (h.doomedWell d hd).1 (h.doomedWell d hd).2
    fun own hlive => Entry.takeOwn_own_ne (hown ▸ hupdates.entry ▸ hlive)
  refine h.evolve hupdates.origin hevolves ?_ (fun x => .inl)
    (fun d hd => .inl (hdoomed hd)) fun e he => ?_
  · rintro _ _ ⟨rfl, rfl⟩
    exact hdead
  · rcases hendings e he with hold | ⟨hlock, hid⟩
    · exact .inl ⟨e, hold, rfl, rfl⟩
    · rw [hlock, hid]
      exact .inr hdead

theorem Inv.endRelease (h : Inv cluster w) {d : Doomed Origin} (hd : d ∈ w.doomed)
    (watermark : Option (Watermark Origin)) (now : Instant) (hdoomed : doomed ⊆ w.doomed) :
    Inv cluster (({ w.setNode d.node
        ((w.node d.node).endRelease d.lock d.id watermark now) with
      doomed := doomed } : World Origin).announce cluster d.node d.lock d.id .released
        watermark) := by
  have hupdates := (w.node d.node).endRelease_updates d.lock d.id watermark now
  have hevolves := hupdates.evolves ((Entry.evolves_dropClaim _ d.id .released now).trans
    (Entry.evolves_watermarkAll _ _ watermark.toList now))
  have hdead := h.dead_setNode (fun other => ⟨_, hevolves other⟩)
    (h.doomedWell d hd).1 (h.doomedWell d hd).2
    fun own hlive => by
      rw [hupdates.entry, Entry.watermarkAll_own] at hlive
      exact Entry.takeOwn_own_ne hlive
  refine h.evolve hupdates.origin hevolves ?_ (fun x => .inl)
    (fun d hd => .inl (hdoomed hd))
    (forall_mem_cons.mpr ⟨.inr hdead, fun e he => .inl ⟨e, he, rfl, rfl⟩⟩)
  rintro _ _ ⟨rfl, rfl⟩
  exact hdead

theorem lt_deadline_of_leasesLast (hlast : w.leasesLast n now = true) {o : Observed Origin}
    (ho : (w.entry n lock).observed[id]? = some o) : now < o.deadline := by
  cases hentry : (w.node n).table.locks[lock]? with
  | none =>
    have hempty : w.entry n lock = {} := by
      rw [World.entry, Table.entry, TreeMap.getD_eq_getD_getElem?, hentry]
      rfl
    rw [hempty] at ho
    simp at ho
  | some entry =>
    have hsame : w.entry n lock = entry := by
      rw [World.entry, Table.entry, TreeMap.getD_eq_getD_getElem?, hentry]
      rfl
    rw [hsame] at ho
    have hall := all_eq_true.mp hlast entry (mem_valuesOf_iff.mpr ⟨lock, hentry⟩)
    have hone := all_eq_true.mp hall o (mem_valuesOf_iff.mpr ⟨id, ho⟩)
    exact of_decide_eq_true hone

theorem Inv.tick (h : Inv cluster w) (hlast : w.leasesLast n now = true) :
    Inv cluster (w.setNode n { w.node n with table := (w.node n).table.sweep now }) := by
  have horigin : ({ w.node n with table := (w.node n).table.sweep now } :
      Manager Origin).origin = (w.node n).origin := rfl
  refine h.evolve horigin (fun lock => Table.evolves_sweep _ lock ?_)
    (fun _ _ => False.elim) (fun x => .inl) (fun d => .inl) fun e he => .inl ⟨e, he, rfl, rfl⟩
  intro id o ho
  exact ⟨lt_deadline_of_leasesLast hlast ho, (h.observedWell ho).2⟩

/-- An exchange that does not hold gives its claim up. -/
theorem Inv.giveUp (h : Inv cluster w) (hx : x ∈ w.exchanges)
    (hnot : ((w.node x.sender).concludeAttempt x.lock x.claim x.gathered deadline
      now).2 ≠ .hold) (hexchanges : exchanges ⊆ w.exchanges)
    (hendings : ∀ e ∈ endings, e ∈ w.endings ∨ e.lock = x.lock ∧ e.id = x.claim.id) :
    Inv cluster { w.setNode x.sender ((w.node x.sender).concludeAttempt x.lock x.claim
        x.gathered deadline now).1 with
      exchanges := exchanges, endings := endings } := by
  have hevolves := Manager.concludeAttempt_evolves hnot
  have hdead := h.dead_setNode (fun other => ⟨_, hevolves other⟩)
    (h.exchangeWell x hx).1 (h.exchangeWell x hx).2
    (fun own hown => Manager.concludeAttempt_own_ne hnot hown)
  refine h.evolve rfl hevolves ?_ (fun y hy => .inl (hexchanges hy)) (fun d => .inl)
    fun e he => ?_
  · rintro _ id ⟨rfl, hended | rfl⟩
    · exact (h.gatheredDead x hx id hended).setNode (hevolves x.lock)
    · exact hdead
  · rcases hendings e he with hold | ⟨hlock, hid⟩
    · exact .inl ⟨e, hold, rfl, rfl⟩
    · rw [hlock, hid]
      exact .inr hdead

/-! ## Taking a claim and holding it -/

/-- One node's own claim on one lock is replaced, and nothing else in any entry. -/
def OwnReplaced (w w' : World Origin) (n : Origin) (lock : LockName) (own : Own Origin) : Prop :=
  ∀ k other, w'.entry k other =
    { w.entry k other with
      own := if k = n ∧ lock = other then some own else (w.entry k other).own }

theorem ownReplaced_setNode {own : Own Origin}
    (hentry : ∀ other, next.table.entry other =
      if lock = other then { w.entry n lock with own := some own } else w.entry n other) :
    OwnReplaced w (w.setNode n next) n lock own := by
  intro k other
  rw [entry_setNode, hentry]
  by_cases hk : k = n
  · by_cases hother : lock = other
    · simp [hk, hother]
    · simp [hk, hother]
  · simp [hk]

section Replaced

variable {n : Origin} {lock : LockName} {own : Own Origin}

variable {other : LockName}

section

variable (hr : OwnReplaced w w' n lock own)
include hr

theorem OwnReplaced.own_cases {k : Origin} {own' : Own Origin}
    (hown' : (w'.entry k other).own = some own') :
    (k = n ∧ lock = other ∧ own = own') ∨ (w.entry k other).own = some own' := by
  rw [hr] at hown'
  split at hown'
  · rename_i hhere
    exact .inl ⟨hhere.1, hhere.2, Option.some.inj hown'⟩
  · exact .inr hown'

theorem OwnReplaced.dead (hused : w.used ⊆ w'.used)
    (halive : ∀ id, w.Dead lock id → own.claim.id ≠ id) (hid : w.Dead other id) :
    w'.Dead other id := by
  refine ⟨hused hid.1, ?_⟩
  intro k own' hown'
  rcases hr.own_cases hown' with ⟨-, rfl, rfl⟩ | hold
  · exact halive id hid
  · exact hid.2 k own' hold

theorem OwnReplaced.view_own_self :
    (w'.view cluster lock).own n = some (own.claim.id, own.isHeld) := by
  simp [view, hr n lock]

theorem OwnReplaced.view_own_of_ne {k : Origin} (hne : ¬(k = n ∧ lock = other)) :
    (w'.view cluster other).own k = (w.view cluster other).own k := by
  simp only [view, hr k other, if_neg hne]

theorem OwnReplaced.keepsSeen (other : LockName) :
    (w.view cluster other).KeepsSeen (w'.view cluster other) := by
  rintro m id ⟨o, ho⟩ -
  exact ⟨o, by rw [hr]; exact ho⟩

end

/-- Replacing an own claim keeps the invariant if it keeps the lock's view. -/
theorem Inv.changeOwn (h : Inv cluster w) (hr : OwnReplaced w w' n lock own)
    (horigin : ∀ k, (w'.node k).origin = (w.node k).origin) (hused : w.used ⊆ w'.used)
    (hwell : own.claim.id.ticket.origin = n ∧ own.claim.id ∈ w'.used)
    (halive : ∀ id, w.Dead lock id → own.claim.id ≠ id)
    (hexchanges : ∀ x ∈ w'.exchanges, x ∈ w.exchanges ∨
      x.lock = lock ∧ x.claim.id.ticket.origin = x.sender ∧ x.claim.id ∈ w'.used ∧
        x.gathered.ended.isEmpty = true) (hdoomed : w'.doomed = w.doomed)
    (hendings : w'.endings = w.endings)
    (hview : (w'.view cluster lock).Inv (cluster.Contender lock)) :
    Inv cluster w' where
  origin k := (horigin k).trans (h.origin k)
  ownWell := by
    intro k other own' hown'
    rcases hr.own_cases hown' with ⟨rfl, -, rfl⟩ | hold
    · exact hwell
    · exact ⟨(h.ownWell hold).1, hused (h.ownWell hold).2⟩
  observedWell := by
    intro m other id o ho
    rw [hr] at ho
    exact h.observedWell ho
  exchangeWell := by
    intro x hx
    rcases hexchanges x hx with hold | ⟨-, hsender, hmem, -⟩
    · exact ⟨(h.exchangeWell x hold).1, hused (h.exchangeWell x hold).2⟩
    · exact ⟨hsender, hmem⟩
  doomedWell := by
    intro d hd
    rw [hdoomed] at hd
    exact ⟨(h.doomedWell d hd).1, hused (h.doomedWell d hd).2⟩
  endedDead := by
    intro m other id hended
    rw [hr] at hended
    exact hr.dead hused halive (h.endedDead hended)
  gatheredDead := by
    intro x hx id hended
    rcases hexchanges x hx with hold | ⟨-, -, -, hempty⟩
    · exact hr.dead hused halive (h.gatheredDead x hold id hended)
    · obtain ⟨reason, hreason⟩ := contains_eq_true_iff.mp hended
      rw [TreeMap.getElem?_of_isEmpty hempty] at hreason
      cases hreason
  endingDead := by
    intro e he
    rw [hendings] at he
    exact hr.dead hused halive (h.endingDead e he)
  views := by
    intro other
    by_cases hother : lock = other
    · exact hother ▸ hview
    · refine (h.views other).keep ?_ (hr.keepsSeen other) ?_
      · intro k c hk
        rwa [hr.view_own_of_ne fun hhere => hother hhere.2] at hk
      · rintro a ⟨x, hx, hkind, hlock, rfl⟩
        rcases hexchanges x hx with hold | ⟨hhere, -⟩
        · exact View.continues_of_mem (attemptOf_mem cluster hold hkind hlock) _
        · exact absurd (hhere.symm.trans hlock) hother

end Replaced

/-- An attempt starts with an id never used before. -/
theorem Inv.acquire (h : Inv cluster w) {request : LockRequest} {nonce : UInt64} {wall : Int}
    {begun : Manager Origin × Claim Origin}
    (hbegun : (w.node n).beginAttempt request nonce now wall = begun)
    (hcontender : cluster.Contender request.lock n) (hfresh : begun.2.id ∉ w.used) :
    Inv cluster { (w.setNode n begun.1).send cluster n request.lock .claim begun.2 now
      request.ttl with used := begun.2.id :: w.used } := by
  obtain ⟨own, hclaim, hheld, hentry⟩ :=
    (w.node n).beginAttempt_entry request nonce now wall
  rw [hbegun] at hclaim hentry
  have horigin : begun.2.id.ticket.origin = n := by
    rw [← hbegun]
    exact h.origin n
  have hsame : begun.1.origin = (w.node n).origin := by
    rw [← hbegun]
    rfl
  set w' : World Origin := { (w.setNode n begun.1).send cluster n request.lock .claim
    begun.2 now request.ttl with used := begun.2.id :: w.used }
  have hr : OwnReplaced w w' n request.lock own := ownReplaced_setNode hentry
  refine h.changeOwn hr (origin_setNode hsame) (subset_cons_self _ _) ?_ ?_ ?_ rfl rfl ?_
  · rw [hclaim]
    exact ⟨horigin, mem_cons_self⟩
  · rintro id hdead rfl
    exact hfresh (hclaim ▸ hdead.1)
  · intro x hx
    rcases mem_cons.mp hx with rfl | hold
    · exact .inr ⟨rfl, horigin, mem_cons_self, rfl⟩
    · exact .inl hold
  · refine (h.views request.lock).claim hcontender (i := begun.2.id) ?_ ?_ ?_
      (hr.keepsSeen request.lock) ?_
    · rintro ⟨m, held, hlive⟩
      obtain ⟨own', hown', hid, -⟩ := view_own_eq_some.mp hlive
      exact hfresh (hid ▸ (h.ownWell hown').2)
    · intro c hc
      rw [hr.view_own_self, hclaim, hheld] at hc
      exact (Option.some.inj hc).symm
    · intro k c hk hc
      rwa [hr.view_own_of_ne fun hhere => hk hhere.1] at hc
    · rintro a ⟨x, hx, hkind, hlock, rfl⟩
      rcases mem_cons.mp hx with rfl | hold
      · refine .inr ?_
        rintro m ⟨⟨hmember, hwrites⟩, hne, hwaiting⟩
        exact hwaiting (mem_filter.mpr ⟨hmember, by simp [hne, hwrites]⟩)
      · have hbefore : x ∈ w.exchanges := hold
        refine .inl ⟨View.continues_of_mem (attemptOf_mem cluster hbefore hkind hlock) _, ?_⟩
        intro hid
        have hid' : x.claim.id = begun.2.id := hid
        exact hfresh (hid' ▸ (h.exchangeWell x hbefore).2)

/-- A claim that every contender answered is held. -/
theorem Inv.promote (h : Inv cluster w) (hx : x ∈ w.exchanges) (hkind : x.kind = .claim)
    (hwaiting : x.waiting = []) {supersedes : List (ClaimId Origin)}
    (horigin : next.origin = (w.node x.sender).origin)
    (hcontends : (w.entry x.sender x.lock).contends x.claim.id = true)
    (hdecided : decideClaim x.claim.id
      ((w.entry x.sender x.lock).noteObserved x.gathered).known
      (w.entry x.sender x.lock).endReasons = .hold supersedes)
    (hentry : ∀ other, next.table.entry other =
      if x.lock = other then (w.entry x.sender x.lock).promote supersedes deadline
      else w.entry x.sender other) (hexchanges : exchanges ⊆ w.exchanges) :
    Inv cluster { w.setNode x.sender next with exchanges := exchanges } := by
  obtain ⟨own, hown, hid, hheld⟩ := Entry.contends_eq_true hcontends
  have hmine : (w.view cluster x.lock).own x.sender = some (x.claim.id, false) :=
    view_own_eq_some.mpr ⟨own, hown, hid, hheld⟩
  have hr : OwnReplaced w { w.setNode x.sender next with exchanges := exchanges }
      x.sender x.lock
      { own with
        claim := { own.claim with supersedes := supersedes }
        phase := .held
        deadline := deadline
        lastRenew := none } := by
    refine ownReplaced_setNode fun other => ?_
    rw [hentry other, Entry.promote, hown]
    rfl
  refine h.changeOwn hr (origin_setNode horigin) (List.Subset.refl _) ?_ ?_ ?_ rfl rfl ?_
  · have hwell := h.ownWell hown
    exact hwell
  · intro id hdead
    exact hdead.2 x.sender own hown
  · intro y hy
    exact .inl (hexchanges hy)
  · refine (h.views x.lock).hold (attemptOf_mem cluster hx hkind rfl) hmine ?_ ?_ ?_ ?_
      (hr.keepsSeen x.lock) ?_
    · intro m hm hne
      exact ⟨hm, hne, by simp [hwaiting]⟩
    · intro m j b hne hlive
      obtain ⟨own', hown', rfl, -⟩ := view_own_eq_some.mp hlive
      have hother : own'.claim.id ≠ x.claim.id := by
        intro heq
        have hsame := (h.ownWell hown').1
        rw [heq, (h.exchangeWell x hx).1] at hsame
        exact hne hsame.symm
      have hunended : (w.entry x.sender x.lock).ended.contains own'.claim.id =
          false := by
        by_contra hended
        rw [Bool.not_eq_false] at hended
        exact (h.endedDead hended).2 m own' hown' rfl
      obtain ⟨huntold, hgreater⟩ := Entry.no_rival_of_hold hdecided hother hunended
      refine ⟨huntold, ?_⟩
      rintro ⟨o, ho⟩
      exact hgreater o ho (h.observedWell ho).1 (h.observedWell ho).2
    · intro c hc
      rw [hr.view_own_self] at hc
      rw [← Option.some.inj hc]
      exact congrArg (fun i => (i, true)) hid
    · intro k c hk hc
      rwa [hr.view_own_of_ne fun hhere => hk hhere.1] at hc
    · rintro a ⟨y, hy, hykind, hylock, rfl⟩
      exact ⟨_, attemptOf_mem cluster (hexchanges hy) hykind hylock, rfl,
        fun _ htold => htold, fun _ hanswered => hanswered⟩

theorem setNode_setNode (w : World Origin) (n : Origin) (middle next : Manager Origin) :
    (w.setNode n middle).setNode n next = w.setNode n next := by
  simp [setNode]

/-- An exchange that decides to hold. -/
theorem Inv.conclude_hold (h : Inv cluster w) (hx : x ∈ w.exchanges) (hkind : x.kind = .claim)
    (hwaiting : x.waiting = [])
    (hhold : ((w.node x.sender).concludeAttempt x.lock x.claim x.gathered deadline
      now).2 = .hold) (hexchanges : exchanges ⊆ w.exchanges) :
    Inv cluster { w.setNode x.sender ((w.node x.sender).concludeAttempt x.lock x.claim
      x.gathered deadline now).1 with exchanges := exchanges } := by
  let absorbed := (w.entry x.sender x.lock).absorb x.claim.id x.gathered now
  let middle : Manager Origin :=
    { w.node x.sender with
      table := (w.node x.sender).table.modify x.lock fun _ => absorbed }
  have hmiddle : ∀ other, middle.table.entry other =
      if x.lock = other then absorbed else w.entry x.sender other :=
    fun other => Table.entry_modify _ _ other _
  have habsorbed : Inv cluster (w.setNode x.sender middle) := by
    have hevolves : ∀ other, (w.entry x.sender other).Evolves
        (fun id => other = x.lock ∧ x.gathered.ended.contains id = true)
        (middle.table.entry other) :=
      ((Manager.Updates.refl _ x.lock).modify fun _ => absorbed).evolves
        (Entry.evolves_absorb _ x.claim.id x.gathered now)
    refine h.evolve rfl hevolves ?_ (fun y => .inl) (fun d => .inl)
      fun e he => .inl ⟨e, he, rfl, rfl⟩
    rintro _ id ⟨rfl, hended⟩
    exact (h.gatheredDead x hx id hended).setNode (hevolves x.lock)
  have hentry : (w.setNode x.sender middle).entry x.sender x.lock = absorbed := by
    rw [entry_setNode, if_pos rfl, hmiddle, if_pos rfl]
  have hsettled : (absorbed.settle x.claim x.gathered deadline now).2 = .hold := by
    simp only [Manager.concludeAttempt, Table.entry_hearAll] at hhold
    exact hhold
  obtain ⟨hcontends, supersedes, hdecided, hpromoted⟩ := Entry.settle_hold hsettled
  rw [← hentry] at hcontends hdecided hpromoted
  have hnext : ∀ other, ((w.node x.sender).concludeAttempt x.lock x.claim x.gathered
      deadline now).1.table.entry other =
      if x.lock = other then
        ((w.setNode x.sender middle).entry x.sender x.lock).promote supersedes deadline
      else (w.setNode x.sender middle).entry x.sender other := by
    intro other
    have hupdates :=
      (w.node x.sender).concludeAttempt_updates x.lock x.claim x.gathered deadline now
    by_cases hother : x.lock = other
    · subst hother
      rw [if_pos rfl, hupdates.entry, ← hpromoted, hentry]
      rfl
    · rw [if_neg hother, hupdates.entry_other other (Ne.symm hother), entry_setNode, if_pos rfl,
        hmiddle, if_neg hother]
      rfl
  have horigin : ((w.node x.sender).concludeAttempt x.lock x.claim x.gathered
      deadline now).1.origin = ((w.setNode x.sender middle).node x.sender).origin := by
    simp [setNode, middle, Manager.concludeAttempt]
  rw [← w.setNode_setNode x.sender middle]
  exact habsorbed.promote hx hkind hwaiting horigin hcontends hdecided hnext hexchanges

theorem Inv.step [ToString Origin] (h : Inv cluster w) {action : Action Origin}
    (hstep : w.step cluster action = some w') : Inv cluster w' := by
  cases action with
  | acquire n request nonce now wall =>
    simp only [World.step] at hstep
    split at hstep
    · rename_i hguard
      obtain ⟨hmember, hwrites, -, -, hfresh⟩ := hguard
      cases hstep
      exact h.acquire rfl ⟨hmember, hwrites⟩ hfresh
    · cases hstep
  | failSave i =>
    obtain ⟨x, hx, hstep⟩ := Option.bind_eq_some_iff.mp hstep
    split at hstep
    · cases hstep
      have hupdates : (w.node x.sender).Updates
          ((w.node x.sender).dropAttempt x.lock x.claim.id) x.lock _ :=
        (Manager.Updates.refl _ _).modify _
      exact h.evolve hupdates.origin (hupdates.evolves_all
        (Entry.evolves_takeOwn _ _ x.claim.id)) (fun _ _ => False.elim)
        (fun y hy => .inl (eraseIdx_subset hy)) (fun d => .inl)
        fun e he => .inl ⟨e, he, rfl, rfl⟩
    · cases hstep
  | deliver i m now =>
    obtain ⟨x, hx, hstep⟩ := Option.bind_eq_some_iff.mp hstep
    split at hstep
    · dsimp only at hstep
      split at hstep
      · rename_i reports ended watermarks hrecord
        cases hstep
        exact h.deliver hx (Prod.ext rfl hrecord)
      · cases hstep
    · cases hstep
  | conclude i now =>
    obtain ⟨x, hx, hstep⟩ := Option.bind_eq_some_iff.mp hstep
    have hmem : x ∈ w.exchanges := mem_of_getElem? hx
    have herase : w.exchanges.eraseIdx i ⊆ w.exchanges := eraseIdx_subset
    split at hstep
    · rename_i hguard
      obtain ⟨hkind, hwaiting⟩ := hguard
      dsimp only at hstep
      split at hstep
      · rename_i hwithdraw
        cases hstep
        exact h.giveUp hmem (by rw [hwithdraw]; simp) herase
          (forall_mem_cons.mpr ⟨.inr ⟨rfl, rfl⟩, fun e => .inl⟩)
      · rename_i hhold
        cases hstep
        exact h.conclude_hold hmem hkind hwaiting hhold herase
      · rename_i hbroken
        cases hstep
        exact h.giveUp hmem (by rw [hbroken]; simp) herase fun e he => .inl he
    · cases hstep
  | abandon i =>
    cases hstep
    refine h.quiet
      { used := rfl
        origin := fun _ => rfl
        entry := fun n lock => ⟨fun _ => False, Entry.Evolves.refl _ _, nofun⟩
        exchange := fun x hx => .inl (eraseIdx_subset hx)
        doomed := fun d hd => .inl hd
        ending := fun e he => .inl ⟨e, he, rfl, rfl⟩ }
  | startRenewal n lock now =>
    obtain ⟨⟨next, claim⟩, hstart, rfl⟩ := Option.map_eq_some_iff.mp hstep
    obtain ⟨own, own', hown, rfl, hrenews, -, hupdates⟩ := Manager.startRenewal_updates hstart
    have hwell : own.claim.id.ticket.origin = n ∧ own.claim.id ∈ w.used :=
      h.ownWell hown
    exact h.evolve hupdates.origin (hupdates.evolves_all
      (Entry.evolves_of_same_own hown hrenews.1 hrenews.2)) (fun _ _ => False.elim)
      (forall_mem_cons.mpr ⟨.inr ⟨rfl, rfl, hwell⟩, fun x => .inl⟩) (fun d => .inl)
      fun e he => .inl ⟨e, he, rfl, rfl⟩
  | finishRenewal i now =>
    obtain ⟨x, hx, hstep⟩ := Option.bind_eq_some_iff.mp hstep
    have hmem : x ∈ w.exchanges := mem_of_getElem? hx
    split at hstep
    · cases hstep
      obtain ⟨_, hupdates, -⟩ :=
        (w.node x.sender).finishRenewal_updates x.lock x.claim x.gathered x.sent now
      refine h.evolve hupdates.origin
        (Manager.finishRenewal_evolves _ _ _ _ _ _ _) (fun _ _ => False.elim)
        (fun y hy => .inl (eraseIdx_subset hy)) ?_ fun e he => .inl ⟨e, he, rfl, rfl⟩
      split
      · exact fun d => .inl
      · exact forall_mem_cons.mpr ⟨.inr (h.exchangeWell x hmem), fun d => .inl⟩
    · cases hstep
  | lose i now =>
    obtain ⟨d, hd, hstep⟩ := Option.bind_eq_some_iff.mp hstep
    obtain ⟨lost, -, rfl⟩ := Option.map_eq_some_iff.mp hstep
    have herase : w.doomed.eraseIdx i ⊆ w.doomed := eraseIdx_subset
    have hlose := h.lose (mem_of_getElem? hd) lost now herase
    split
    · exact hlose w.endings fun e he => .inl he
    · split
      · exact hlose _ (forall_mem_cons.mpr ⟨.inr ⟨rfl, rfl⟩, fun e => .inl⟩)
      · exact hlose w.endings fun e he => .inl he
  | beginRelease n lock =>
    obtain ⟨own, hown, rfl⟩ := Option.map_eq_some_iff.mp hstep
    refine h.quiet
      { used := rfl
        origin := fun _ => rfl
        entry := fun n lock => ⟨fun _ => False, Entry.Evolves.refl _ _, nofun⟩
        exchange := fun x hx => .inl hx
        doomed := forall_mem_cons.mpr ⟨.inr (h.ownWell hown), fun d => .inl⟩
        ending := fun e he => .inl ⟨e, he, rfl, rfl⟩ }
  | endRelease i watermark now =>
    obtain ⟨d, hd, hstep⟩ := Option.bind_eq_some_iff.mp hstep
    split at hstep
    · cases hstep
      exact h.endRelease (mem_of_getElem? hd) watermark now eraseIdx_subset
    · cases hstep
  | deliverEnd i m now =>
    obtain ⟨e, he, hstep⟩ := Option.bind_eq_some_iff.mp hstep
    have hmem : e ∈ w.endings := mem_of_getElem? he
    split at hstep
    · cases hstep
      obtain ⟨_, hupdates, hdrop⟩ := (w.node m).recordEnd_updates e.lock
        (cluster.writerOrigins e.sender e.lock) e.id e.reason e.watermark now
      have hevolves := hupdates.evolves hdrop
      have hdead := (h.endingDead e hmem).setNode (hevolves e.lock)
      refine h.evolve hupdates.origin hevolves ?_ (fun x => .inl) (fun d => .inl) ?_
      · rintro _ _ ⟨rfl, rfl⟩
        exact hdead
      · intro e' he'
        rcases mem_or_eq_of_mem_set he' with hold | rfl
        · exact .inl ⟨e', hold, rfl, rfl⟩
        · exact .inr hdead
    · cases hstep
  | renew n lock token ttl payload now =>
    obtain ⟨next, hrenew, rfl⟩ := Option.map_eq_some_iff.mp hstep
    obtain ⟨own, own', hown, hrenews, -, hupdates⟩ := Manager.renew_updates hrenew
    exact h.evolve hupdates.origin (hupdates.evolves_all
      (Entry.evolves_of_same_own hown hrenews.1 hrenews.2)) (fun _ _ => False.elim)
      (fun x => .inl) (fun d => .inl) fun e he => .inl ⟨e, he, rfl, rfl⟩
  | tick n now =>
    simp only [World.step] at hstep
    split at hstep
    · rename_i hlast
      cases hstep
      exact h.tick hlast
    · cases hstep

theorem inv_init (cluster : Cluster Origin) (clock : Origin → UInt64) :
    Inv cluster (init clock) := by
  have hentry : ∀ n lock, (init clock).entry n lock = {} := fun _ _ => rfl
  refine
    { origin := fun _ => rfl
      ownWell := ?_
      observedWell := ?_
      exchangeWell := nofun
      doomedWell := nofun
      endedDead := ?_
      gatheredDead := nofun
      endingDead := nofun
      views := ?_ }
  · intro n lock own hown
    rw [hentry] at hown
    cases hown
  · intro m lock id o ho
    rw [hentry] at ho
    simp at ho
  · intro m lock id hended
    rw [hentry] at hended
    simp at hended
  · intro lock
    have hnobody : ∀ n c, ((init clock).view cluster lock).own n ≠ some c := nofun
    exact
      { claimant := fun hn => absurd hn (hnobody _ _)
        distinct := fun hn => absurd hn (hnobody _ _)
        recorded := fun _ hn => absurd hn (hnobody _ _)
        heldSeen := fun hn => absurd hn (hnobody _ _)
        race := fun _ hn => absurd hn (hnobody _ _)
        exclusive := fun hn => absurd hn (hnobody _ _) }

theorem inv_run [ToString Origin] {clock : Origin → UInt64} {actions : List (Action Origin)}
    (hrun : run (step cluster) (init clock) actions = some w) : Inv cluster w :=
  run_invariant (Inv cluster) (fun _ _ _ h hstep => h.step hstep) (inv_init cluster clock) hrun

theorem view_own_of_holds (h : w.holds n lock = true) :
    ∃ id, (w.view cluster lock).own n = some (id, true) := by
  cases hown : (w.entry n lock).own with
  | none => simp [holds, hown] at h
  | some own =>
    have hheld : own.isHeld = true := by simpa [holds, hown] using h
    exact ⟨own.claim.id, view_own_eq_some.mpr ⟨own, hown, rfl, hheld⟩⟩

/-- At no instant are two nodes past contention on one lock. -/
theorem holder_unique [ToString Origin]
    {clock : Origin → UInt64} {actions : List (Action Origin)}
    (hrun : run (step cluster) (init clock) actions = some w) :
    ∀ lock n m, w.holds n lock = true → w.holds m lock = true → n = m := by
  intro lock n m hn hm
  obtain ⟨i, hi⟩ := view_own_of_holds hn
  obtain ⟨j, hj⟩ := view_own_of_holds hm
  exact ((inv_run hrun).views lock).exclusive hi hj

section Witness

private def twoNodes : Cluster Nat where
  members := [0, 1]
  mayWrite _ _ := true

private def contested : LockName := ⟨"s", "l"⟩

private def contestedRequest : LockRequest :=
  ⟨contested, 1000, "", [], .session⟩

/-- Node 1 claims while node 0's claim is under way; node 0 holds, is renewed,
and node 1 withdraws. -/
private def contention : List (Action Nat) :=
  [.acquire 0 contestedRequest 7 0 0, .acquire 1 contestedRequest 8 0 0,
    .deliver 1 1 1, .conclude 1 2, .deliver 0 0 3, .startRenewal 0 contested 3,
    .deliver 0 1 4, .finishRenewal 0 5, .conclude 0 6, .deliverEnd 0 0 7]

theorem holder_unique_under_contention :
    ∃ w, run (step twoNodes) (init fun _ => 0) contention = some w ∧
      w.holds 0 contested = true ∧ w.endings.length = 1 ∧
      ∀ m, w.holds m contested = true → m = 0 := by
  obtain ⟨w, hrun, hheld, hending⟩ :
      ∃ w, run (step twoNodes) (init fun _ => 0) contention = some w ∧
        w.holds 0 contested = true ∧ w.endings.length = 1 :=
    ⟨_, rfl, rfl, rfl⟩
  refine ⟨w, hrun, hheld, hending, ?_⟩
  intro m hm
  exact holder_unique hrun contested m 0 hm hheld

end Witness

end World

end Synch.Locks
