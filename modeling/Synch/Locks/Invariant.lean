import Synch.Locks.Evolution
import Synch.Locks.Exchange
import Synch.Support.ClaimExchange

/-!
# The invariant of the lock exchange

Each lock of a world is seen as a claim exchange.  The world's own invariant
says that ids name their owners, that only dead claims are remembered as ended,
and that each view keeps the exclusion invariant.
-/

namespace Synch.Locks

open Std (TreeMap)
open Synch.Support

variable {Origin : Type} [LinearOrder Origin]

/-- An exchange as the exclusion argument sees it. -/
def Cluster.attemptOf (cluster : Cluster Origin) (x : Exchange Origin) :
    Attempt Origin (ClaimId Origin) where
  id := x.claim.id
  answered m := cluster.Contender x.lock m ∧ m ≠ x.sender ∧ m ∉ x.waiting
  told id := x.gathered.Knows id .held

namespace World

/-- One lock of a world as a claim exchange. -/
def view (w : World Origin) (cluster : Cluster Origin) (lock : LockName) :
    View Origin (ClaimId Origin) where
  own n := (w.entry n lock).own.map fun own => (own.claim.id, own.isHeld)
  seen m id := ∃ o, (w.entry m lock).observed[id]? = some o
  attempts := {a | ∃ x ∈ w.exchanges, x.kind = .claim ∧ x.lock = lock ∧ a = cluster.attemptOf x}

/-- A claim that was taken and that nobody owns any more. -/
def Dead (w : World Origin) (lock : LockName) (id : ClaimId Origin) : Prop :=
  id ∈ w.used ∧ ∀ n own, (w.entry n lock).own = some own → own.claim.id ≠ id

structure Inv (cluster : Cluster Origin) (w : World Origin) : Prop where
  origin : ∀ n, (w.node n).origin = n
  ownWell : ∀ {n lock own}, (w.entry n lock).own = some own →
    own.claim.id.ticket.origin = n ∧ own.claim.id ∈ w.used
  observedWell : ∀ {m lock} {id : ClaimId Origin} {o},
    (w.entry m lock).observed[id]? = some o → o.claim.id = id ∧ o.expired = false
  exchangeWell : ∀ x ∈ w.exchanges, x.claim.id.ticket.origin = x.sender ∧ x.claim.id ∈ w.used
  doomedWell : ∀ d ∈ w.doomed, d.id.ticket.origin = d.node ∧ d.id ∈ w.used
  endedDead : ∀ {m lock id}, (w.entry m lock).ended.contains id = true → w.Dead lock id
  gatheredDead : ∀ x ∈ w.exchanges, ∀ id, x.gathered.ended.contains id = true → w.Dead x.lock id
  endingDead : ∀ e ∈ w.endings, w.Dead e.lock e.id
  views : ∀ lock, (w.view cluster lock).Inv (cluster.Contender lock)

theorem entry_setNode (w : World Origin) (n k : Origin) (manager : Manager Origin)
    (lock : LockName) :
    (w.setNode n manager).entry k lock =
      if k = n then manager.table.entry lock else w.entry k lock := by
  by_cases h : k = n
  · subst h
    simp [entry, setNode]
  · simp [entry, setNode, h]

variable {lock : LockName} {n : Origin} {id : ClaimId Origin}

theorem view_own_eq_some {w : World Origin} {cluster : Cluster Origin} {held : Bool} :
    (w.view cluster lock).own n = some (id, held) ↔
      ∃ own, (w.entry n lock).own = some own ∧ own.claim.id = id ∧ own.isHeld = held := by
  simp [view]

theorem attemptOf_mem {w : World Origin} (cluster : Cluster Origin) {x : Exchange Origin}
    (hx : x ∈ w.exchanges) (hkind : x.kind = .claim) (hlock : x.lock = lock) :
    cluster.attemptOf x ∈ (w.view cluster lock).attempts :=
  ⟨x, hx, hkind, hlock, rfl⟩

/-- A claim is dead once its own node does not own it. -/
theorem dead_of_origin {w : World Origin} (hwell : ∀ {n lock own}, (w.entry n lock).own = some own →
      own.claim.id.ticket.origin = n) (hused : id ∈ w.used)
    (hnot : ∀ own, (w.entry id.ticket.origin lock).own = some own →
      own.claim.id ≠ id) : w.Dead lock id := by
  refine ⟨hused, ?_⟩
  intro n own hown hid
  have hn : id.ticket.origin = n := hid ▸ hwell hown
  exact hnot own (hn ▸ hown) hid

/-! ## Steps without a new owner or holder -/

/-- A step that makes nobody an owner or a holder. -/
structure Quiet (cluster : Cluster Origin) (w w' : World Origin) : Prop where
  used : w'.used = w.used
  origin : ∀ n, (w'.node n).origin = (w.node n).origin
  entry : ∀ n lock, ∃ gone, (w.entry n lock).Evolves gone (w'.entry n lock) ∧
    ∀ id, gone id → w'.Dead lock id
  exchange : ∀ x' ∈ w'.exchanges, x' ∈ w.exchanges ∨
    (x'.claim.id.ticket.origin = x'.sender ∧ x'.claim.id ∈ w.used ∧
      (∀ id, x'.gathered.ended.contains id = true → w.Dead x'.lock id) ∧
      (x'.kind = .claim → (w.view cluster x'.lock).Continues
        (w'.view cluster x'.lock) (cluster.attemptOf x')))
  doomed : ∀ d ∈ w'.doomed, d ∈ w.doomed ∨ d.id.ticket.origin = d.node ∧ d.id ∈ w.used
  ending : ∀ e ∈ w'.endings, (∃ e₀ ∈ w.endings, e₀.lock = e.lock ∧ e₀.id = e.id) ∨
    w'.Dead e.lock e.id

variable {cluster : Cluster Origin} {w w' : World Origin}

/-- The owners and holders of a view come from the view before. -/
theorem Quiet.view_own (hq : Quiet cluster w w') {c : ClaimId Origin × Bool}
    (h : (w'.view cluster lock).own n = some c) : (w.view cluster lock).own n = some c := by
  obtain ⟨id, held⟩ := c
  obtain ⟨own', hown', hid', hheld'⟩ := view_own_eq_some.mp h
  obtain ⟨gone, hevolves, -⟩ := hq.entry n lock
  obtain ⟨own, hown, hid, hheld⟩ := hevolves.own own' hown'
  exact view_own_eq_some.mpr ⟨own, hown, hid ▸ hid', hheld ▸ hheld'⟩

theorem Quiet.dead (hq : Quiet cluster w w') (h : w.Dead lock id) : w'.Dead lock id := by
  refine ⟨hq.used ▸ h.1, ?_⟩
  intro n own' hown'
  obtain ⟨gone, hevolves, -⟩ := hq.entry n lock
  obtain ⟨own, hown, hid, -⟩ := hevolves.own own' hown'
  rw [hid]
  exact h.2 n own hown

theorem Quiet.keepsSeen (hq : Quiet cluster w w') (lock : LockName) :
    (w.view cluster lock).KeepsSeen (w'.view cluster lock) := by
  rintro m id ⟨o, ho⟩ ⟨n, held, hlive⟩
  obtain ⟨gone, hevolves, hdead⟩ := hq.entry m lock
  rcases hevolves.seen id o ho with hgone | hseen
  · obtain ⟨own, hown, hid, -⟩ := view_own_eq_some.mp hlive
    exact absurd hid ((hdead id hgone).2 n own hown)
  · exact hseen

theorem Inv.quiet (h : Inv cluster w) (hq : Quiet cluster w w') : Inv cluster w' where
  origin n := (hq.origin n).trans (h.origin n)
  ownWell := by
    intro n lock own' hown'
    obtain ⟨gone, hevolves, -⟩ := hq.entry n lock
    obtain ⟨own, hown, hid, -⟩ := hevolves.own own' hown'
    rw [hid, hq.used]
    exact h.ownWell hown
  observedWell := by
    intro m lock id o' ho'
    obtain ⟨gone, hevolves, -⟩ := hq.entry m lock
    rcases hevolves.observed id o' ho' with hold | hfresh
    · exact h.observedWell hold
    · exact hfresh
  exchangeWell := by
    intro x' hx'
    rw [hq.used]
    rcases hq.exchange x' hx' with hold | ⟨horigin, hused, -⟩
    · exact h.exchangeWell x' hold
    · exact ⟨horigin, hused⟩
  doomedWell := by
    intro d hd
    rw [hq.used]
    rcases hq.doomed d hd with hold | hnew
    · exact h.doomedWell d hold
    · exact hnew
  endedDead := by
    intro m lock id hended
    obtain ⟨gone, hevolves, hdead⟩ := hq.entry m lock
    rcases hevolves.ended id hended with hold | hgone
    · exact hq.dead (h.endedDead hold)
    · exact hdead id hgone
  gatheredDead := by
    intro x' hx' id hended
    rcases hq.exchange x' hx' with hold | ⟨-, -, hdead, -⟩
    · exact hq.dead (h.gatheredDead x' hold id hended)
    · exact hq.dead (hdead id hended)
  endingDead := by
    intro e he
    rcases hq.ending e he with ⟨e₀, he₀, hlock, hid⟩ | hdead
    · rw [← hlock, ← hid]
      exact hq.dead (h.endingDead e₀ he₀)
    · exact hdead
  views := by
    intro lock
    refine (h.views lock).keep (fun n c => hq.view_own) (hq.keepsSeen lock) ?_
    rintro a' ⟨x', hx', hkind, rfl, rfl⟩
    rcases hq.exchange x' hx' with hold | ⟨-, -, -, hcontinues⟩
    · exact View.continues_of_mem (attemptOf_mem cluster hold hkind rfl) _
    · exact hcontinues hkind

/-- Changing one node's manager without touching the messages. -/
theorem entry_evolves_setNode {manager : Manager Origin} {dead : LockName → ClaimId Origin → Prop}
    (h : ∀ lock, ∃ gone, (w.entry n lock).Evolves gone (manager.table.entry lock) ∧
      ∀ id, gone id → dead lock id) (k : Origin) (lock : LockName) :
    ∃ gone, (w.entry k lock).Evolves gone ((w.setNode n manager).entry k lock) ∧
      ∀ id, gone id → dead lock id := by
  rw [entry_setNode]
  by_cases hk : k = n
  · subst hk
    rw [if_pos rfl]
    exact h lock
  · rw [if_neg hk]
    exact ⟨fun _ => False, Entry.Evolves.refl _ _, fun _ hfalse => hfalse.elim⟩

theorem origin_setNode {manager : Manager Origin} (h : manager.origin = (w.node n).origin)
    (k : Origin) : ((w.setNode n manager).node k).origin = (w.node k).origin := by
  by_cases hk : k = n
  · subst hk
    simpa [setNode] using h
  · simp [setNode, hk]

end World

end Synch.Locks
