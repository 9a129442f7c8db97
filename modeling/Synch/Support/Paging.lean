import Mathlib.Data.List.Nodup
import Mathlib.Order.Lattice

/-!
# Reading a listing page by page

A listing is read in pages: a call from a position answers some items and the
position to go on from, or none at the end.  Each row of what is listed stands at a
position and shows at most one item, and several rows may show the same one.

If every page holds the items of the rows it passes, following the positions ends and
shows every item.  It shows each of them once exactly if no page is left before all
rows of an item it shows are passed.
-/

namespace Synch.Support

open List

variable {κ ε : Type*}

/-- The pages met by following the positions from one on. -/
inductive Pages (page : Option κ → Option (List ε × Option κ)) :
    Option κ → List (List ε) → Prop
  | last {start : Option κ} {items : List ε}
      (h : page start = some (items, none)) : Pages page start [items]
  | next {start : Option κ} {items : List ε} {position : κ} {rest : List (List ε)}
      (h : page start = some (items, some position))
      (hrest : Pages page (some position) rest) : Pages page start (items :: rest)

def LeadsTo (page : Option κ → Option (List ε × Option κ)) (start after : Option κ) : Prop :=
  ∃ items position, page start = some (items, some position) ∧ after = some position

variable {page : Option κ → Option (List ε × Option κ)}

variable [LinearOrder κ]

def Past (start : Option κ) (row : κ) : Prop :=
  ∀ position ∈ start, position < row

instance (start : Option κ) (row : κ) : Decidable (Past start row) :=
  inferInstanceAs (Decidable (∀ position ∈ start, position < row))

variable (rows : List κ) (shows : κ → Option ε)

/-- A page that holds, once each, the items of the rows it passes, and passes one if it
leads on. -/
structure PassesRows (start : Option κ) (items : List ε) (after : Option κ) : Prop where
  nodup : items.Nodup
  mem : ∀ item, item ∈ items ↔
    ∃ row ∈ rows, Past start row ∧ (∀ position ∈ after, row ≤ position) ∧ shows row = some item
  moves : ∀ position ∈ after, ∃ row ∈ rows, Past start row ∧ row ≤ position

/-- No row past the position shows one of the items. -/
def Apart (items : List ε) (position : κ) : Prop :=
  ∀ item ∈ items, ∀ row ∈ rows, position < row → shows row ≠ some item

variable {rows} {shows} {start : Option κ} {pages : List (List ε)}

theorem past_of_moves {position row : κ}
    (hmoves : ∃ passed ∈ rows, Past start passed ∧ passed ≤ position) (hrow : position < row) :
    Past start row := by
  obtain ⟨passed, -, hpast, hle⟩ := hmoves
  intro first hfirst
  exact lt_trans (lt_of_lt_of_le (hpast first hfirst) hle) hrow

theorem length_past_lt
    {position : κ} (hmoves : ∃ passed ∈ rows, Past start passed ∧ passed ≤ position) :
    (rows.filter fun row => Past (some position) row).length <
      (rows.filter fun row => Past start row).length := by
  have hpast : ∀ row, Past (some position) row → Past start row := fun row hrow =>
    past_of_moves hmoves (hrow position rfl)
  obtain ⟨passed, hmem, hpassed, hle⟩ := hmoves
  have hsub : (rows.filter fun row => Past (some position) row).Sublist
      (rows.filter fun row => Past start row) := by
    apply monotone_filter_right
    intro row hrow
    simpa using hpast row (by simpa using hrow)
  refine Nat.lt_of_le_of_ne hsub.length_le fun hlength => ?_
  have hin : passed ∈ rows.filter fun row => Past (some position) row := by
    rw [hsub.eq_of_length hlength, mem_filter]
    exact ⟨hmem, by simpa using hpassed⟩
  have hlt : position < passed := by
    simpa [Past] using (mem_filter.mp hin).2
  exact absurd hlt (not_lt.mpr hle)

section Follow

variable
  (hpage : ∀ start, ∃ items after,
    page start = some (items, after) ∧ PassesRows rows shows start items after)

include hpage

/-- Following the positions ends. -/
theorem exists_pages (start : Option κ) : ∃ pages, Pages page start pages := by
  generalize hn : (rows.filter fun row => Past start row).length = n
  induction n using Nat.strongRecOn generalizing start with
  | _ n ih =>
    obtain ⟨items, after, hcall, hspec⟩ := hpage start
    cases after with
    | none => exact ⟨[items], .last hcall⟩
    | some position =>
      have hlt := length_past_lt (hspec.moves position rfl)
      obtain ⟨rest, hrest⟩ := ih _ (hn ▸ hlt) (some position) rfl
      exact ⟨items :: rest, .next hcall hrest⟩

theorem passesRows_of_page {items : List ε} {after : Option κ}
    (hcall : page start = some (items, after)) : PassesRows rows shows start items after := by
  obtain ⟨items', after', hcall', hspec⟩ := hpage start
  rw [hcall, Option.some.injEq, Prod.mk.injEq] at hcall'
  obtain ⟨rfl, rfl⟩ := hcall'
  exact hspec

/-- Together the pages show the items of the rows past the start. -/
theorem mem_flatten_pages (h : Pages page start pages) (item : ε) :
    item ∈ pages.flatten ↔ ∃ row ∈ rows, Past start row ∧ shows row = some item := by
  induction h with
  | last hcall =>
    have hspec := passesRows_of_page hpage hcall
    simp [hspec.mem item]
  | @next start items position rest hcall hrest ih =>
    have hspec := passesRows_of_page hpage hcall
    rw [flatten_cons, mem_append, ih, hspec.mem item]
    constructor
    · rintro (⟨row, hrow, hpast, -, hshows⟩ | ⟨row, hrow, hpast, hshows⟩)
      · exact ⟨row, hrow, hpast, hshows⟩
      · exact ⟨row, hrow, past_of_moves (hspec.moves position rfl) (hpast position rfl), hshows⟩
    · rintro ⟨row, hrow, hpast, hshows⟩
      by_cases hle : row ≤ position
      · exact .inl ⟨row, hrow, hpast, by simpa using hle, hshows⟩
      · exact .inr ⟨row, hrow, by simpa [Past] using hle, hshows⟩

/-- No item is shown twice exactly if every page is left apart from the rows after it. -/
theorem nodup_flatten_pages_iff (h : Pages page start pages) :
    pages.flatten.Nodup ↔
      ∀ reached, Relation.ReflTransGen (LeadsTo page) start reached →
        ∀ items position, page reached = some (items, some position) →
          Apart rows shows items position := by
  induction h with
  | @last start items hcall =>
    refine iff_of_true (by simpa using (passesRows_of_page hpage hcall).nodup) ?_
    intro reached hreached items' position hcall'
    obtain rfl | ⟨next, ⟨_, _, hnext, -⟩, -⟩ := hreached.cases_head
    · simp [hcall] at hcall'
    · simp [hcall] at hnext
  | @next start items position rest hcall hrest ih =>
    have hspec := passesRows_of_page hpage hcall
    have hapart : items.Disjoint rest.flatten ↔ Apart rows shows items position := by
      constructor
      · intro hdisjoint item hitem row hrow hlt hshows
        apply hdisjoint hitem
        exact (mem_flatten_pages hpage hrest item).mpr
          ⟨row, hrow, by simpa [Past] using hlt, hshows⟩
      · intro hapart item hitem hlater
        obtain ⟨row, hrow, hpast, hshows⟩ := (mem_flatten_pages hpage hrest item).mp hlater
        exact hapart item hitem row hrow (hpast position rfl) hshows
    rw [flatten_cons, nodup_append', hapart, ih]
    constructor
    · rintro ⟨-, hlater, hfirst⟩ reached hreached items' position' hcall'
      obtain rfl | ⟨next, ⟨_, _, hnext, rfl⟩, hreached⟩ := hreached.cases_head
      · rw [hcall, Option.some.injEq, Prod.mk.injEq, Option.some.injEq] at hcall'
        obtain ⟨rfl, rfl⟩ := hcall'
        exact hfirst
      · rw [hcall, Option.some.injEq, Prod.mk.injEq, Option.some.injEq] at hnext
        obtain ⟨-, rfl⟩ := hnext
        exact hlater _ hreached items' position' hcall'
    · intro hall
      refine ⟨hspec.nodup, fun reached hreached => hall reached ?_, hall start .refl _ _ hcall⟩
      exact .head ⟨items, position, hcall, rfl⟩ hreached

/-- Where rows show different items in order and every page is in order, so are the
pages together. -/
theorem pairwise_flatten_pages {R : ε → ε → Prop}
    (hitems : ∀ {start items after}, page start = some (items, after) → items.Pairwise R)
    (hrows : ∀ row ∈ rows, ∀ row' ∈ rows, row < row' → ∀ item item',
      shows row = some item → shows row' = some item' → item ≠ item' → R item item')
    (h : Pages page start pages) (hnodup : pages.flatten.Nodup) : pages.flatten.Pairwise R := by
  induction h with
  | last hcall => simpa using hitems hcall
  | @next start items position rest hcall hrest ih =>
    rw [flatten_cons, nodup_append'] at hnodup
    rw [flatten_cons, pairwise_append]
    refine ⟨hitems hcall, ih hnodup.2.1, fun item hitem item' hitem' => ?_⟩
    have hspec := passesRows_of_page hpage hcall
    obtain ⟨row, hrow, -, hle, hshows⟩ := (hspec.mem item).mp hitem
    obtain ⟨row', hrow', hpast, hshows'⟩ := (mem_flatten_pages hpage hrest item').mp hitem'
    have hlt : row < row' := lt_of_le_of_lt (hle position rfl) (hpast position rfl)
    refine hrows row hrow row' hrow' hlt item item' hshows hshows' ?_
    rintro rfl
    exact hnodup.2.2 hitem hitem'

end Follow

end Synch.Support
