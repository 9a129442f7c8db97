import Synch.S3.Served

/-!
# The page that is filled with rows

A page holds the objects and common prefixes of the rows it dealt with, each once and
in order.  The rows of one common prefix stand together, so a page that is full ends
between two of them only where the daemon's rows do.
-/

namespace Synch.S3

open List Synch.Support Synch.Tree

theorem exists_of_textBefore {needle text before : List Char}
    (h : textBefore needle text = some before) : ∃ after, text = before ++ needle ++ after := by
  induction text generalizing before with
  | nil => simp [textBefore] at h
  | cons c text ih =>
    rw [textBefore] at h
    split at h
    · rename_i hneedle
      obtain ⟨after, hafter⟩ := hneedle
      refine ⟨after, ?_⟩
      rw [← Option.some.inj h, nil_append, hafter]
    · rw [Option.map_eq_some_iff] at h
      obtain ⟨before', hbefore, rfl⟩ := h
      obtain ⟨after, rfl⟩ := ih hbefore
      exact ⟨after, rfl⟩

/-- What comes after the first place does not matter. -/
theorem textBefore_append_right {needle before after : List Char} (hneedle : needle ≠ [])
    (h : textBefore needle (before ++ needle ++ after) = some before) (after' : List Char) :
    textBefore needle (before ++ needle ++ after') = some before := by
  induction before with
  | nil =>
    obtain ⟨c, rest, rfl⟩ := exists_cons_of_ne_nil hneedle
    have hstart : c :: rest <+: c :: (rest ++ after') := prefix_append (c :: rest) after'
    simp [textBefore, hstart]
  | cons c before ih =>
    simp only [cons_append, textBefore] at h ⊢
    split at h
    · cases h
    · rename_i hnot
      rw [Option.map_eq_some_iff] at h
      obtain ⟨before', hbefore, hcons⟩ := h
      rw [cons.injEq] at hcons
      obtain ⟨-, rfl⟩ := hcons
      -- the needle at the front would end before the text that differs
      have hfront : ¬needle <+: c :: (before' ++ needle ++ after') := by
        intro hstart
        apply hnot
        have hlong : needle.length ≤ (c :: (before' ++ needle)).length := by
          simp
          omega
        have hcommon : needle <+: c :: (before' ++ needle) :=
          prefix_of_prefix_length_le hstart (prefix_append (c :: (before' ++ needle)) after') hlong
        exact hcommon.trans (prefix_append (c :: (before' ++ needle)) after)
      rw [if_neg hfront, ih hbefore]
      rfl

section Common

variable {stem : String} {delimiter : Option String} {key key' common : String}

theorem commonPrefixOf_eq_some_iff :
    commonPrefixOf stem delimiter key = some common ↔
      ∃ text ∈ delimiter, ∃ before,
        textBefore text.toList (key.toList.drop stem.toList.length) = some before ∧
          stem ++ String.ofList before ++ text = common := by
  simp only [commonPrefixOf, Option.bind_eq_some_iff, Option.map_eq_some_iff, Option.mem_def]

section

variable (hdelimiter : ∀ text ∈ delimiter, text ≠ "")
include hdelimiter

/-- The keys that extend a common prefix of a key are rolled into it too. -/
theorem commonPrefixOf_of_prefix (hstem : stem.toList <+: key.toList)
    (h : commonPrefixOf stem delimiter key = some common) :
    common.toList <+: key.toList ∧
      ∀ key', common.toList <+: key'.toList → commonPrefixOf stem delimiter key' = some common := by
  obtain ⟨text, htext, before, hbefore, rfl⟩ := commonPrefixOf_eq_some_iff.mp h
  have hne : text.toList ≠ [] := by
    simpa using hdelimiter text htext
  obtain ⟨rest, hrest⟩ := hstem
  rw [← hrest, drop_left] at hbefore
  obtain ⟨after, rfl⟩ := exists_of_textBefore hbefore
  constructor
  · rw [← hrest]
    exact ⟨after, by simp⟩
  · rintro key' ⟨after', hafter'⟩
    refine commonPrefixOf_eq_some_iff.mpr ⟨text, htext, before, ?_, rfl⟩
    have hkey' : key'.toList = stem.toList ++ (before ++ text.toList ++ after') := by
      rw [← hafter']
      simp
    rw [hkey', drop_left]
    exact textBefore_append_right hne hbefore after'

/-- A key between two keys of one common prefix has it too. -/
theorem commonPrefixOf_of_between {last : String} (hstem : stem.toList <+: key.toList)
    (hstem' : stem.toList <+: last.toList) (h : commonPrefixOf stem delimiter key = some common)
    (hlast : commonPrefixOf stem delimiter last = some common) (hle : key ≤ key')
    (hle' : key' ≤ last) : commonPrefixOf stem delimiter key' = some common := by
  obtain ⟨hkey, hall⟩ := commonPrefixOf_of_prefix hdelimiter hstem h
  obtain ⟨hend, -⟩ := commonPrefixOf_of_prefix hdelimiter hstem' hlast
  apply hall
  rw [String.le_iff_toList_le] at hle hle'
  exact prefix_of_between (( le_of_prefix hkey).trans hle) hle' hend

/-- Different common prefixes stand in the order of their keys. -/
theorem commonPrefixOf_lt {common' : String} (hstem : stem.toList <+: key.toList)
    (hstem' : stem.toList <+: key'.toList) (h : commonPrefixOf stem delimiter key = some common)
    (h' : commonPrefixOf stem delimiter key' = some common') (hlt : key < key')
    (hne : common ≠ common') : common < common' := by
  by_contra hnot
  have hle : common' ≤ common := not_lt.mp hnot
  obtain ⟨hkey, -⟩ := commonPrefixOf_of_prefix hdelimiter hstem h
  obtain ⟨hkey', hall⟩ := commonPrefixOf_of_prefix hdelimiter hstem' h'
  rw [String.lt_iff_toList_lt] at hlt
  rw [String.le_iff_toList_le] at hle
  have hextends : common'.toList <+: key.toList :=
    prefix_of_between (hle.trans ( le_of_prefix hkey)) hlt.le hkey'
  have hsame := hall key hextends
  rw [h, Option.some.injEq] at hsame
  exact hne hsame

end

end Common

/-! ## The items of a page -/

/-- What a listing shows: an object, or a common prefix. -/
inductive Item where
  | object (object : ListedObject)
  | common (common : String)
deriving DecidableEq, Repr

/-- Objects are listed by key, and common prefixes by text. -/
def InOrder : Item → Item → Prop
  | .object a, .object b => a.key < b.key
  | .common a, .common b => a < b
  | _, _ => True

theorem inOrder_ne {a b : Item} (h : InOrder a b) : a ≠ b := by
  rintro rfl
  cases a with
  | object a => exact lt_irrefl _ h
  | common a => exact lt_irrefl _ h

/-- What a served row shows. -/
def itemOf (bucket : Bucket) (stem : String) (delimiter : Option String) (row : EntryInfo) :
    Option Item :=
  if !row.kind.hasContent || bucket.isLockKey row.path then none
  else
    match commonPrefixOf stem delimiter row.path with
    | some common => some (.common common)
    | none => some (.object (listedObject row))

def Filling.items (page : Filling) : List Item :=
  page.contents.map .object ++ page.commonPrefixes.map .common

def ListResult.items (result : ListResult) : List Item :=
  result.contents.map .object ++ result.commonPrefixes.map .common

section Items

variable {bucket : Bucket} {stem : String} {delimiter : Option String}
  {row row' : EntryInfo} {item : Item}

theorem itemOf_eq_object_iff {object : ListedObject} :
    itemOf bucket stem delimiter row = some (.object object) ↔
      row.kind.hasContent = true ∧ bucket.isLockKey row.path = false ∧
        commonPrefixOf stem delimiter row.path = none ∧ object = listedObject row := by
  unfold itemOf
  cases row.kind.hasContent <;> cases bucket.isLockKey row.path <;>
    cases commonPrefixOf stem delimiter row.path <;> simp [eq_comm]

theorem itemOf_eq_common_iff {common : String} :
    itemOf bucket stem delimiter row = some (.common common) ↔
      row.kind.hasContent = true ∧ bucket.isLockKey row.path = false ∧
        commonPrefixOf stem delimiter row.path = some common := by
  unfold itemOf
  cases row.kind.hasContent <;> cases bucket.isLockKey row.path <;>
    cases commonPrefixOf stem delimiter row.path <;> simp

/-- Rows show different items in order. -/
theorem inOrder_of_lt (hdelimiter : ∀ text ∈ delimiter, text ≠ "") {item' : Item}
    (hstem : stem.toList <+: row.path.toList) (hstem' : stem.toList <+: row'.path.toList)
    (h : itemOf bucket stem delimiter row = some item)
    (h' : itemOf bucket stem delimiter row' = some item') (hlt : row.path < row'.path)
    (hne : item ≠ item') : InOrder item item' := by
  cases item with
  | object object =>
    cases item' with
    | object object' =>
      rw [itemOf_eq_object_iff] at h h'
      rw [h.2.2.2, h'.2.2.2]
      exact hlt
    | common common' => trivial
  | common common =>
    cases item' with
    | object object' => trivial
    | common common' =>
      rw [itemOf_eq_common_iff] at h h'
      exact commonPrefixOf_lt hdelimiter hstem hstem' h.2.2 h'.2.2 hlt fun heq =>
        hne (congrArg Item.common heq)

/-- A row that shows something between two rows of one item shows it too. -/
theorem itemOf_of_between (hdelimiter : ∀ text ∈ delimiter, text ≠ "") {last : EntryInfo}
    {item' : Item} (hstem : stem.toList <+: row.path.toList)
    (hstem' : stem.toList <+: last.path.toList) (h : itemOf bucket stem delimiter row = some item)
    (hlast : itemOf bucket stem delimiter last = some item)
    (hbetween : itemOf bucket stem delimiter row' = some item') (hlt : row.path < row'.path)
    (hle : row'.path ≤ last.path) : item' = item := by
  cases item with
  | object object =>
    rw [itemOf_eq_object_iff] at h hlast
    have hkey : row.path = last.path :=
      congrArg ListedObject.key (h.2.2.2.symm.trans hlast.2.2.2)
    exact absurd (hlt.trans_le hle) (hkey ▸ lt_irrefl _)
  | common common =>
    rw [itemOf_eq_common_iff] at h hlast
    have hcommon := commonPrefixOf_of_between hdelimiter hstem hstem' h.2.2 hlast.2.2 hlt.le hle
    cases item' with
    | object object' => simp [itemOf_eq_object_iff, hcommon] at hbetween
    | common common' =>
      rw [itemOf_eq_common_iff, hcommon, Option.some.injEq] at hbetween
      rw [hbetween.2.2]

end Items

/-! ## Filling -/

section Fill

variable (bucket : Bucket) (stem : String) (delimiter : Option String) (maxKeys : Nat)

/-- The page holds, in order, what the rows dealt with show, and points to the last of
them. -/
structure Fills (dealt : List EntryInfo) (page : Filling) : Prop where
  mem : ∀ item, item ∈ page.items ↔ ∃ row ∈ dealt, itemOf bucket stem delimiter row = some item
  contents : page.contents.Pairwise fun a b => a.key < b.key
  commonPrefixes : page.commonPrefixes.Pairwise (· < ·)
  cursor : page.cursor = dealt.getLast?.map EntryInfo.path
  size : page.items.length ≤ maxKeys

variable {bucket stem delimiter maxKeys} {dealt : List EntryInfo} {page : Filling}

theorem Fills.pairwise_inOrder (h : Fills bucket stem delimiter maxKeys dealt page) :
    page.items.Pairwise InOrder := by
  refine pairwise_append.mpr ⟨?_, ?_, ?_⟩
  · exact pairwise_map.mpr h.contents
  · exact pairwise_map.mpr h.commonPrefixes
  · intro a ha b hb
    obtain ⟨object, -, rfl⟩ := mem_map.mp ha
    obtain ⟨common, -, rfl⟩ := mem_map.mp hb
    trivial

theorem Fills.nodup (h : Fills bucket stem delimiter maxKeys dealt page) : page.items.Nodup :=
  h.pairwise_inOrder.imp inOrder_ne

theorem Filling.length_items (page : Filling) :
    page.items.length = page.contents.length + page.commonPrefixes.length := by
  simp [Filling.items]

theorem Filling.common_mem_items {common : String} :
    .common common ∈ page.items ↔ common ∈ page.commonPrefixes := by
  simp [Filling.items]

variable {row : EntryInfo}

/-- A row that shows nothing new leaves the page as it is. -/
theorem Fills.pass (h : Fills bucket stem delimiter maxKeys dealt page)
    (hknown : ∀ item, itemOf bucket stem delimiter row = some item → item ∈ page.items) :
    Fills bucket stem delimiter maxKeys (dealt ++ [row]) { page with cursor := some row.path } where
  mem := by
    intro item
    change item ∈ page.items ↔ _
    rw [h.mem item]
    constructor
    · rintro ⟨other, hother, hitem⟩
      exact ⟨other, mem_append_left _ hother, hitem⟩
    · rintro ⟨other, hother, hitem⟩
      obtain hold | hnew := mem_append.mp hother
      · exact ⟨other, hold, hitem⟩
      · rw [mem_singleton.mp hnew] at hitem
        exact (h.mem item).mp (hknown item hitem)
  contents := h.contents
  commonPrefixes := h.commonPrefixes
  cursor := by simp
  size := h.size

variable
  (hdelimiter : ∀ text ∈ delimiter, text ≠ "")
  (hstem : ∀ other ∈ dealt, stem.toList <+: other.path.toList)
  (hrow : stem.toList <+: row.path.toList)
  (hlt : ∀ other ∈ dealt, other.path < row.path)
  (hroom : page.items.length < maxKeys)

include hroom in
/-- A page that gained the item of another row. -/
theorem Fills.snoc (h : Fills bucket stem delimiter maxKeys dealt page) {new : Item}
    {after : Filling} (hitem : itemOf bucket stem delimiter row = some new)
    (hitems : after.items.Perm (new :: page.items))
    (hcontents : after.contents.Pairwise fun a b => a.key < b.key)
    (hcommons : after.commonPrefixes.Pairwise (· < ·)) (hcursor : after.cursor = some row.path) :
    Fills bucket stem delimiter maxKeys (dealt ++ [row]) after where
  mem := by
    intro item
    rw [hitems.mem_iff, mem_cons, h.mem item]
    simp only [mem_append, mem_singleton, or_and_right, exists_or, exists_eq_left, hitem,
      Option.some.injEq]
    rw [or_comm, eq_comm]
  contents := hcontents
  commonPrefixes := hcommons
  cursor := by simp [hcursor]
  size := by
    rw [hitems.length_eq]
    exact hroom

include hlt hroom in
/-- A new object fits behind the others. -/
theorem Fills.addObject (h : Fills bucket stem delimiter maxKeys dealt page)
    (hitem : itemOf bucket stem delimiter row = some (.object (listedObject row))) :
    Fills bucket stem delimiter maxKeys (dealt ++ [row])
      { page with
        contents := page.contents ++ [listedObject row]
        cursor := some row.path } := by
  refine h.snoc hroom hitem ?_ ?_ h.commonPrefixes rfl
  · simp only [Filling.items, map_append, map_cons, map_nil, append_assoc, singleton_append]
    exact perm_middle
  · refine pairwise_append.mpr ⟨h.contents, pairwise_singleton _ _, ?_⟩
    intro object hobject new hnew
    rw [mem_singleton.mp hnew]
    obtain ⟨other, hother, hshown⟩ :=
      (h.mem (.object object)).mp (by simpa [Filling.items] using hobject)
    rw [(itemOf_eq_object_iff.mp hshown).2.2.2]
    exact hlt other hother

include hdelimiter hstem hrow hlt hroom in
/-- A new common prefix fits behind the others. -/
theorem Fills.addCommon (h : Fills bucket stem delimiter maxKeys dealt page) {common : String}
    (hitem : itemOf bucket stem delimiter row = some (.common common))
    (hnew : common ∉ page.commonPrefixes) :
    Fills bucket stem delimiter maxKeys (dealt ++ [row])
      { page with
        commonPrefixes := page.commonPrefixes ++ [common]
        cursor := some row.path } := by
  refine h.snoc hroom hitem ?_ h.contents ?_ rfl
  · simp only [Filling.items, map_append, map_cons, map_nil]
    rw [← append_assoc]
    exact perm_append_singleton _ _
  · refine pairwise_append.mpr ⟨h.commonPrefixes, pairwise_singleton _ _, ?_⟩
    intro old hold other hother
    rw [mem_singleton.mp hother]
    obtain ⟨earlier, hearlier, hshown⟩ :=
      (h.mem (.common old)).mp (Filling.common_mem_items.mpr hold)
    have hne : Item.common old ≠ .common common := by
      intro heq
      exact hnew (Item.common.inj heq ▸ hold)
    exact inOrder_of_lt hdelimiter (hstem earlier hearlier) hrow hshown hitem
      (hlt earlier hearlier) hne

end Fill

/-- A row of the loop, read as what it shows. -/
theorem fill_cons (bucket : Bucket) (stem : String) (delimiter : Option String) (maxKeys : Nat)
    (page : Filling) (row : EntryInfo) (rows : List EntryInfo) :
    fill bucket stem delimiter maxKeys page (row :: rows) =
      match itemOf bucket stem delimiter row with
      | none => fill bucket stem delimiter maxKeys { page with cursor := some row.path } rows
      | some (.common common) =>
        if common ∈ page.commonPrefixes then
          fill bucket stem delimiter maxKeys { page with cursor := some row.path } rows
        else if maxKeys ≤ page.items.length then (page, true)
        else
          fill bucket stem delimiter maxKeys
            { page with
              commonPrefixes := page.commonPrefixes ++ [common]
              cursor := some row.path } rows
      | some (.object object) =>
        if maxKeys ≤ page.items.length then (page, true)
        else
          fill bucket stem delimiter maxKeys
            { page with
              contents := page.contents ++ [object]
              cursor := some row.path } rows := by
  rw [fill, itemOf, Filling.length_items]
  split
  · rfl
  · cases commonPrefixOf stem delimiter row.path with
    | none => rfl
    | some common => rfl

section Spec

variable {bucket : Bucket} {stem : String} {delimiter : Option String} {maxKeys : Nat}
  (hdelimiter : ∀ text ∈ delimiter, text ≠ "")

/-- Why a page is full: it holds as many items as it may, and the next row shows another. -/
structure StopsAt (bucket : Bucket) (stem : String) (delimiter : Option String) (maxKeys : Nat)
    (page : Filling) (row : EntryInfo) (item : Item) : Prop where
  shows : itemOf bucket stem delimiter row = some item
  fresh : item ∉ page.items
  size : maxKeys ≤ page.items.length

/-- A front of the rows is dealt with: all of them, or those before the row that the
full page stops at. -/
def DealsWith (bucket : Bucket) (stem : String) (delimiter : Option String) (maxKeys : Nat)
    (dealt rows : List EntryInfo) (page : Filling) (full : Bool) : Prop :=
  ∃ done rest, rows = done ++ rest ∧
    Fills bucket stem delimiter maxKeys (dealt ++ done) page ∧
      (full = false → rest = []) ∧
        (full = true → ∃ row later item, rest = row :: later ∧
          StopsAt bucket stem delimiter maxKeys page row item)

include hdelimiter in
theorem fill_spec {dealt rows : List EntryInfo} {page page' : Filling} {full : Bool}
    (hsorted : (dealt ++ rows).Pairwise fun a b => a.path < b.path)
    (hstem : ∀ row ∈ dealt ++ rows, stem.toList <+: row.path.toList)
    (hfills : Fills bucket stem delimiter maxKeys dealt page)
    (hfill : fill bucket stem delimiter maxKeys page rows = (page', full)) :
    DealsWith bucket stem delimiter maxKeys dealt rows page' full := by
  induction rows generalizing dealt page with
  | nil =>
    rw [fill, Prod.mk.injEq] at hfill
    obtain ⟨rfl, rfl⟩ := hfill
    exact ⟨[], [], rfl, by simpa using hfills, by simp, by simp⟩
  | cons row rows ih =>
    have hlt : ∀ other ∈ dealt, other.path < row.path := fun other hother =>
      (pairwise_append.mp hsorted).2.2 other hother row mem_cons_self
    have hrow := hstem row (mem_append_right _ mem_cons_self)
    have hdealt : ∀ other ∈ dealt, stem.toList <+: other.path.toList := fun other hother =>
      hstem other (mem_append_left _ hother)
    -- dealing with the row leaves the rows behind it
    have hgo : ∀ {next : Filling}, Fills bucket stem delimiter maxKeys (dealt ++ [row]) next →
        fill bucket stem delimiter maxKeys next rows = (page', full) →
          DealsWith bucket stem delimiter maxKeys dealt (row :: rows) page' full := by
      intro next hnext hfill
      rw [append_cons] at hsorted hstem
      obtain ⟨done, rest, hsplit, hspec⟩ := ih hsorted hstem hnext hfill
      refine ⟨row :: done, rest, by rw [hsplit, cons_append], ?_⟩
      rwa [append_cons]
    have hstop : ∀ {item : Item}, itemOf bucket stem delimiter row = some item →
        item ∉ page.items → maxKeys ≤ page.items.length → (page, true) = (page', full) →
          DealsWith bucket stem delimiter maxKeys dealt (row :: rows) page' full := by
      intro item hitem hfresh hsize hresult
      rw [Prod.mk.injEq] at hresult
      obtain ⟨rfl, rfl⟩ := hresult
      exact ⟨[], row :: rows, rfl, by simpa using hfills, by simp,
        fun _ => ⟨row, rows, item, rfl, hitem, hfresh, hsize⟩⟩
    rw [fill_cons] at hfill
    cases hitem : itemOf bucket stem delimiter row with
    | none =>
      rw [hitem] at hfill
      exact hgo (hfills.pass (by simp [hitem])) hfill
    | some item =>
      rw [hitem] at hfill
      cases item with
      | common common =>
        dsimp only at hfill
        split at hfill
        · rename_i hknown
          refine hgo (hfills.pass fun item hshown => ?_) hfill
          rw [hitem, Option.some.injEq] at hshown
          rw [← hshown]
          exact Filling.common_mem_items.mpr hknown
        · rename_i hnew
          split at hfill
          · rename_i hsize
            exact hstop hitem (fun hmem => hnew (Filling.common_mem_items.mp hmem)) hsize hfill
          · rename_i hroom
            exact hgo (hfills.addCommon hdelimiter hdealt hrow hlt (not_le.mp hroom) hitem
              hnew) hfill
      | object object =>
        obtain rfl := (itemOf_eq_object_iff.mp hitem).2.2.2
        dsimp only at hfill
        split at hfill
        · rename_i hsize
          refine hstop hitem (fun hmem => ?_) hsize hfill
          obtain ⟨other, hother, hshown⟩ := (hfills.mem _).mp hmem
          have hkey : row.path = other.path :=
            congrArg ListedObject.key (itemOf_eq_object_iff.mp hshown).2.2.2
          exact absurd (hlt other hother) hkey.not_gt
        · rename_i hroom
          exact hgo (hfills.addObject hlt (not_le.mp hroom) hitem) hfill

end Spec

end Synch.S3
