import Synch.S3.Page

/-!
# A bucket listed page by page

Following the continuation tokens ends and shows every object and common prefix.  It
shows each once and in order exactly if no page is left between two rows of a common
prefix: the rows that the daemon hands out for a page may end there without the page
being full.
-/

namespace Synch.S3

open List Synch.Support Synch.Tree

/-! ## Requests -/

/-- The parameters that stay the same from page to page. -/
structure ListRequest where
  stem : Option String
  delimiter : Option String
  maxKeys : Option String

namespace ListRequest

def query (request : ListRequest) (token : Option String) : Query :=
  [("list-type", "2")] ++ (request.stem.map fun text => ("prefix", text)).toList ++
    (request.delimiter.map fun text => ("delimiter", text)).toList ++
      (request.maxKeys.map fun text => ("max-keys", text)).toList ++
        (token.map fun text => ("continuation-token", text)).toList

variable (request : ListRequest) (token : Option String)

theorem param_query :
    param (request.query token) "prefix" = request.stem ∧
      param (request.query token) "delimiter" = request.delimiter ∧
      param (request.query token) "max-keys" = request.maxKeys ∧
      param (request.query token) "continuation-token" = token ∧
      param (request.query token) "start-after" = none := by
  obtain ⟨_ | _, _ | _, _ | _⟩ := request <;> cases token <;> exact ⟨rfl, rfl, rfl, rfl, rfl⟩

/-- The prefix, the delimiter and the size of a page that the gateway reads. -/
def stemText : String :=
  request.stem.getD ""

def delimiterText : Option String :=
  request.delimiter.filter fun delimiter => delimiter ≠ ""

def limit : Nat :=
  max 1 (min ((request.maxKeys.bind parseUsize).getD defaultMaxKeys) defaultMaxKeys)

theorem delimiterText_ne : ∀ text ∈ request.delimiterText, text ≠ "" := by
  intro text htext
  simp only [delimiterText, Option.mem_def, Option.filter_eq_some_iff] at htext
  simpa using htext.2

theorem limit_pos : 0 < request.limit :=
  lt_max_of_lt_left Nat.one_pos

end ListRequest

section Bucket

variable (tree : UnifiedTree) (bucket : Bucket) (request : ListRequest)

variable (token : Option String)

def page : Option (List Item × Option String) :=
  let result := listObjects tree bucket (request.query token)
  some (result.items, result.nextContinuationToken)

/-- A key of the bucket: a live path under the prefix that resolves to an entry with
content, and is no lock. -/
def IsKey (row : EntryInfo) : Prop :=
  ∃ entry, (tree.versions row.path).exists? = true ∧
    UnifiedTree.resolveSet (tree.versions row.path) bucket.policy tree.now = some entry ∧
      row = entryInfo entry ∧ request.stemText.toList <+: row.path.toList ∧
        row.kind.hasContent = true ∧ bucket.isLockKey row.path = false

/-- What the listing of a bucket is to show: the keys without a delimiter after the
prefix, and the common prefixes of the others. -/
inductive Listed : Item → Prop
  | object {row : EntryInfo} (hkey : IsKey tree bucket request row)
      (hnone : commonPrefixOf request.stemText request.delimiterText row.path = none) :
      Listed (.object (listedObject row))
  | common {row : EntryInfo} {common : String} (hkey : IsKey tree bucket request row)
      (hcommon : commonPrefixOf request.stemText request.delimiterText row.path = some common) :
      Listed (.common common)

/-- Every key and every common prefix exactly once, in order, and nothing else. -/
def Exact (items : List Item) : Prop :=
  items.Pairwise InOrder ∧ ∀ item, item ∈ items ↔ Listed tree bucket request item

/-- What the path of the tree shows. -/
def shown (path : String) : Option Item :=
  (serve bucket.policy tree.now (tree.versions path)).bind
    (itemOf bucket request.stemText request.delimiterText)

def pageRows : List EntryInfo :=
  window tree bucket.policy request.stemText (request.limit + 1)
    (token.filter fun token => token ≠ "")

def laterRows : List EntryInfo :=
  beyond tree bucket.policy request.stemText (request.limit + 1)
    (token.filter fun token => token ≠ "")

/-- The rows of all pages from a token on. -/
def rowsPast : List EntryInfo :=
  served tree bucket.policy (pathsPast tree request.stemText (token.filter fun token => token ≠ ""))

/-- The rows of a page show more items than it holds, or no common prefix has rows both
among them and behind them. -/
def EndsBetween : Prop :=
  ((pageRows tree bucket request token).filterMap
      (itemOf bucket request.stemText request.delimiterText)).dedup.length ≤ request.limit →
    ∀ row ∈ pageRows tree bucket request token, ∀ later ∈ laterRows tree bucket request token,
      ∀ common,
        itemOf bucket request.stemText request.delimiterText row = some (.common common) →
          itemOf bucket request.stemText request.delimiterText later ≠ some (.common common)

variable {tree bucket request}

variable {policy : VersionPolicy} {path : String} {row : EntryInfo} {items : List Item}

theorem path_of_serve (h : serve policy tree.now (tree.versions path) = some row) :
    row.path = path := by
  unfold serve at h
  split at h
  · cases h
  · rw [Option.map_eq_some_iff] at h
    obtain ⟨entry, hentry, rfl⟩ := h
    exact (UnifiedTree.mem_of_resolveSet hentry).2.2

theorem shown_eq_some_iff {item : Item} :
    shown tree bucket request path = some item ↔
      ∃ row, row.path = path ∧ serve bucket.policy tree.now (tree.versions row.path) = some row ∧
        itemOf bucket request.stemText request.delimiterText row = some item := by
  rw [shown, Option.bind_eq_some_iff]
  constructor
  · rintro ⟨row, hserve, hitem⟩
    obtain rfl := path_of_serve hserve
    exact ⟨row, rfl, hserve, hitem⟩
  · rintro ⟨row, rfl, hserve, hitem⟩
    exact ⟨row, hserve, hitem⟩

theorem mem_served_iff {paths : List String} :
    row ∈ served tree policy paths ↔
      row.path ∈ paths ∧ serve policy tree.now (tree.versions row.path) = some row := by
  rw [served, mem_filterMap]
  constructor
  · rintro ⟨path, hpath, hserve⟩
    obtain rfl := path_of_serve hserve
    exact ⟨hpath, hserve⟩
  · rintro ⟨hpath, hserve⟩
    exact ⟨row.path, hpath, hserve⟩

theorem served_pairwise {paths : List String} (hsorted : paths.Pairwise (· < ·)) :
    (served tree policy paths).Pairwise fun a b => a.path < b.path := by
  refine List.Pairwise.filterMap _ ?_ hsorted
  intro path path' hlt row hrow row' hrow'
  rw [path_of_serve hrow, path_of_serve hrow']
  exact hlt

/-- The rows under the prefix show what is to be listed. -/
theorem listed_iff_shown (item : Item) :
    Listed tree bucket request item ↔
      ∃ path ∈ tree.pathsUnder request.stemText, shown tree bucket request path = some item := by
  have hkey : ∀ row, IsKey tree bucket request row ↔
      row.path ∈ tree.pathsUnder request.stemText ∧
        serve bucket.policy tree.now (tree.versions row.path) = some row ∧
          row.kind.hasContent = true ∧ bucket.isLockKey row.path = false := by
    intro row
    constructor
    · rintro ⟨entry, hlive, hentry, rfl, hstem, hcontent, hlock⟩
      refine ⟨?_, ?_, hcontent, hlock⟩
      · exact UnifiedTree.mem_unifiedPaths.mpr
          ⟨UnifiedTree.exists_entry_of_exists hlive, hstem, by simp⟩
      · simp [serve, hlive, hentry]
    · rintro ⟨hpath, hserve, hcontent, hlock⟩
      obtain ⟨-, hstem, -⟩ := UnifiedTree.mem_unifiedPaths.mp hpath
      unfold serve at hserve
      split at hserve
      · cases hserve
      · rename_i hlive
        rw [Option.map_eq_some_iff] at hserve
        obtain ⟨entry, hentry, hrow⟩ := hserve
        exact ⟨entry, by simpa using hlive, hentry, hrow.symm, hstem, hcontent, hlock⟩
  constructor
  · rintro (⟨hrow, hnone⟩ | ⟨hrow, hcommon⟩)
    · rename_i row
      obtain ⟨hpath, hserve, hcontent, hlock⟩ := (hkey row).mp hrow
      exact ⟨row.path, hpath, shown_eq_some_iff.mpr
        ⟨row, rfl, hserve, itemOf_eq_object_iff.mpr ⟨hcontent, hlock, hnone, rfl⟩⟩⟩
    · rename_i row common
      obtain ⟨hpath, hserve, hcontent, hlock⟩ := (hkey row).mp hrow
      exact ⟨row.path, hpath, shown_eq_some_iff.mpr
        ⟨row, rfl, hserve, itemOf_eq_common_iff.mpr ⟨hcontent, hlock, hcommon⟩⟩⟩
  · rintro ⟨path, hpath, hshown⟩
    obtain ⟨row, rfl, hserve, hitem⟩ := shown_eq_some_iff.mp hshown
    cases item with
    | object object =>
      obtain ⟨hcontent, hlock, hnone, rfl⟩ := itemOf_eq_object_iff.mp hitem
      exact .object ((hkey row).mpr ⟨hpath, hserve, hcontent, hlock⟩) hnone
    | common common =>
      obtain ⟨hcontent, hlock, hcommon⟩ := itemOf_eq_common_iff.mp hitem
      exact .common ((hkey row).mpr ⟨hpath, hserve, hcontent, hlock⟩) hcommon

/-! ## One page -/

/-- How a page ends: with nothing behind it, at the last row it dealt with, or without
any row at the path where the daemon's scan stopped. -/
inductive PageEnd (tree : UnifiedTree) (bucket : Bucket) (request : ListRequest)
    (token : Option String) (filled : Filling) (done rest : List EntryInfo) :
    Option String → Prop
  | last (hrest : rest = []) (hlater : laterRows tree bucket request token = []) :
      PageEnd tree bucket request token filled done rest none
  | row {row : EntryInfo} (hlast : done.getLast? = some row)
      (hrest : rest = [] ∨ ∃ next later item, rest = next :: later ∧
        StopsAt bucket request.stemText request.delimiterText request.limit filled next item) :
      PageEnd tree bucket request token filled done rest (some row.path)
  | scan {path : String}
      (hpath : path ∈ pathsPast tree request.stemText (token.filter fun token => token ≠ ""))
      (hrows : pageRows tree bucket request token = [])
      (hnone : ∀ other ∈ pathsPast tree request.stemText
        (token.filter fun token => token ≠ ""), other ≤ path →
          serve bucket.policy tree.now (tree.versions other) = none) :
      PageEnd tree bucket request token filled done rest (some path)

theorem served_pathsPast_pairwise (start : Option String) :
    (served tree bucket.policy (pathsPast tree request.stemText start)).Pairwise
      fun a b => a.path < b.path :=
  served_pairwise ((tree.pathsUnder_pairwise request.stemText).filter _)

theorem stem_of_mem_served {start : Option String}
    (h : row ∈ served tree bucket.policy (pathsPast tree request.stemText start)) :
    request.stemText.toList <+: row.path.toList := by
  have hpath := (mem_served_iff.mp h).1
  exact (UnifiedTree.mem_unifiedPaths.mp (mem_filter.mp hpath).1).2.1

theorem page_eq (token : Option String) :
    page tree bucket request token =
      let (listing, more, scanCursor) :=
        daemonList tree bucket.policy request.stemText (token.filter fun token => token ≠ "")
          (request.limit + 1)
      let (filled, full) :=
        fill bucket request.stemText request.delimiterText request.limit
          { contents := [], commonPrefixes := [], cursor := none } listing
      some (filled.items, if full || more then filled.cursor.or scanCursor else none) := by
  unfold page listObjects delimiterOf maxKeysOf
  obtain ⟨hstem, hdelimiter, hmaxKeys, htoken, hstart⟩ := request.param_query token
  rw [hstem, hdelimiter, hmaxKeys, htoken, hstart]
  dsimp only
  rw [Option.or_none]
  rfl

theorem exists_page (token : Option String) :
    ∃ filled done rest after,
      page tree bucket request token = some (filled.items, after) ∧
        pageRows tree bucket request token = done ++ rest ∧
          Fills bucket request.stemText request.delimiterText request.limit done filled ∧
            PageEnd tree bucket request token filled done rest after := by
  obtain ⟨more, scanCursor, hlist, hend, hscan⟩ :=
    @daemonList_spec tree bucket.policy request.stemText (request.limit + 1)
      (token.filter fun token => token ≠ "")
  have hinitial := @window_initial tree bucket.policy request.stemText (request.limit + 1)
    (token.filter fun token => token ≠ "")
  have hempty : Fills bucket request.stemText request.delimiterText request.limit []
      { contents := [], commonPrefixes := [], cursor := none } :=
    ⟨by simp [Filling.items], by simp, by simp, rfl, by simp [Filling.items]⟩
  cases hfill : fill bucket request.stemText request.delimiterText request.limit
      { contents := [], commonPrefixes := [], cursor := none }
      (pageRows tree bucket request token) with
  | mk filled full =>
    obtain ⟨done, rest, hsplit, hfills, hrest, hstops⟩ :=
      fill_spec request.delimiterText_ne
        (by rw [nil_append]; exact (served_pathsPast_pairwise _).sublist hinitial.sublist)
        (by
          intro row hrow
          rw [nil_append] at hrow
          exact stem_of_mem_served (hinitial.subset hrow))
        hempty hfill
    rw [nil_append] at hfills
    have hpage : page tree bucket request token =
        some (filled.items, if full || more then filled.cursor.or scanCursor else none) := by
      rw [page_eq, hlist]
      dsimp only
      change fill bucket request.stemText request.delimiterText request.limit _
        (window tree bucket.policy request.stemText (request.limit + 1) _) = _ at hfill
      rw [hfill]
    refine ⟨filled, done, rest, _, hpage, hsplit, hfills, ?_⟩
    cases hlast : done.getLast? with
    | some row =>
      have hcursor : filled.cursor = some row.path := by rw [hfills.cursor, hlast]; rfl
      cases full with
      | true =>
        rw [hcursor]
        exact .row hlast (.inr (hstops rfl))
      | false =>
        cases more with
        | true =>
          rw [hcursor]
          exact .row hlast (.inl (hrest rfl))
        | false => exact .last (hrest rfl) (hend rfl)
    | none =>
      have hdone : done = [] := getLast?_eq_none_iff.mp hlast
      have hcursor : filled.cursor = none := by rw [hfills.cursor, hlast]; rfl
      cases full with
      | true =>
        -- a full page holds an item, so it dealt with a row
        obtain ⟨row, later, item, -, hstop⟩ := hstops rfl
        have hpos := request.limit_pos.trans_le hstop.size
        obtain ⟨shown, hshown⟩ := exists_mem_of_length_pos hpos
        obtain ⟨dealt, hdealt, -⟩ := (hfills.mem shown).mp hshown
        rw [hdone] at hdealt
        cases hdealt
      | false =>
        have hrows : pageRows tree bucket request token = [] := by
          rw [hsplit, hdone, hrest rfl]
          rfl
        cases more with
        | true =>
          obtain ⟨path, hpath, hscanned, hnone⟩ := hscan rfl (Nat.succ_pos _) hrows
          rw [hcursor, hscanned]
          exact .scan hpath hrows hnone
        | false => exact .last (hrest rfl) (hend rfl)

variable {token : Option String}

/-- An empty token reads as none: every path is past both. -/
theorem past_filter_iff (hpath : path ∈ tree.pathsUnder request.stemText) :
    Past (token.filter fun token => token ≠ "") path ↔ Past token path := by
  cases token with
  | none => rfl
  | some text =>
    by_cases htext : text = ""
    · obtain ⟨⟨entry, hentry, -, rfl⟩, -⟩ := UnifiedTree.mem_unifiedPaths.mp hpath
      have hne := tree.path_ne entry hentry
      have hlt : "" < entry.path := by
        rw [String.lt_iff_toList_lt]
        obtain ⟨c, rest, hcons⟩ := exists_cons_of_ne_nil
          (show entry.path.toList ≠ [] by simpa using hne)
        simp [hcons]
      have hnone : (some text).filter (fun token => decide (token ≠ "")) = none := by
        simp [Option.filter, htext]
      rw [hnone]
      refine iff_of_true (by simp [Past]) fun position hposition => ?_
      rw [← Option.some.inj hposition, htext]
      exact hlt
    · simp [Option.filter, htext]

theorem mem_pathsPast_iff :
    path ∈ pathsPast tree request.stemText (token.filter fun token => token ≠ "") ↔
      path ∈ tree.pathsUnder request.stemText ∧ Past token path := by
  rw [pathsPast, mem_filter, decide_eq_true_eq]
  exact and_congr_right past_filter_iff

/-- The rows past a token, and what the paths past it show. -/
theorem exists_row_iff (condition : String → Prop) (item : Item) :
    (∃ path ∈ tree.pathsUnder request.stemText, Past token path ∧ condition path ∧
        shown tree bucket request path = some item) ↔
      ∃ row ∈ rowsPast tree bucket request token, condition row.path ∧
        itemOf bucket request.stemText request.delimiterText row = some item := by
  constructor
  · rintro ⟨path, hpath, hpast, hcondition, hshown⟩
    obtain ⟨row, rfl, hserve, hitem⟩ := shown_eq_some_iff.mp hshown
    exact ⟨row, mem_served_iff.mpr ⟨mem_pathsPast_iff.mpr ⟨hpath, hpast⟩, hserve⟩, hcondition, hitem⟩
  · rintro ⟨row, hrow, hcondition, hitem⟩
    obtain ⟨hpath, hserve⟩ := mem_served_iff.mp hrow
    obtain ⟨hunder, hpast⟩ := mem_pathsPast_iff.mp hpath
    exact ⟨row.path, hunder, hpast, hcondition, shown_eq_some_iff.mpr ⟨row, rfl, hserve, hitem⟩⟩

section Ends

variable {token : Option String} {filled : Filling} {done rest : List EntryInfo}
  {after : Option String}
  (hsplit : pageRows tree bucket request token = done ++ rest)
  (hfills : Fills bucket request.stemText request.delimiterText request.limit done filled)

variable {last : EntryInfo}

include hsplit in
theorem rowsPast_eq :
    rowsPast tree bucket request token = done ++ (rest ++ laterRows tree bucket request token) := by
  rw [← append_assoc, ← hsplit]
  exact (window_append_beyond _).symm

include hsplit in
theorem mem_rowsPast_of_mem_done (h : row ∈ done) : row ∈ rowsPast tree bucket request token := by
  rw [rowsPast_eq hsplit]
  exact mem_append_left _ h

include hsplit in
theorem pairwise_done :
    done.Pairwise (fun a b => a.path < b.path) ∧
      (rest ++ laterRows tree bucket request token).Pairwise (fun a b => a.path < b.path) ∧
      ∀ a ∈ done, ∀ b ∈ rest ++ laterRows tree bucket request token, a.path < b.path := by
  rw [← pairwise_append, ← rowsPast_eq hsplit]
  exact served_pathsPast_pairwise _

/-- The rows not behind the last one dealt with are those dealt with. -/
theorem mem_done_iff (hsplit : pageRows tree bucket request token = done ++ rest)
    (hlast : done.getLast? = some last) (hrow : row ∈ rowsPast tree bucket request token) :
    row ∈ done ↔ row.path ≤ last.path := by
  have hsorted := pairwise_done hsplit
  rw [rowsPast_eq hsplit, mem_append] at hrow
  obtain ⟨init, rfl⟩ := getLast?_eq_some_iff.mp hlast
  constructor
  · intro hdone
    obtain hinit | heq := mem_append.mp hdone
    · exact ((pairwise_append.mp hsorted.1).2.2 row hinit last (by simp)).le
    · rw [mem_singleton.mp heq]
  · intro hle
    obtain hdone | hlater := hrow
    · exact hdone
    · exact absurd (hsorted.2.2 last (by simp) row hlater) hle.not_gt

include hsplit hfills in
theorem PageEnd.passesRows (hend : PageEnd tree bucket request token filled done rest after) :
    PassesRows (tree.pathsUnder request.stemText) (shown tree bucket request) token filled.items
      after := by
  cases hend with
  | last hrest hlater =>
    refine ⟨hfills.nodup, fun item => ?_, by simp⟩
    rw [exists_row_iff, hfills.mem, rowsPast_eq hsplit, hrest, hlater]
    simp
  | @row last hlast hrest =>
    have hrow := mem_rowsPast_of_mem_done hsplit (mem_of_getLast? hlast)
    refine ⟨hfills.nodup, fun item => ?_, ?_⟩
    · rw [exists_row_iff, hfills.mem]
      simp only [Option.mem_some_iff, forall_eq']
      constructor
      · rintro ⟨row, hdone, hitem⟩
        have hin := mem_rowsPast_of_mem_done hsplit hdone
        exact ⟨row, hin, (mem_done_iff hsplit hlast hin).mp hdone, hitem⟩
      · rintro ⟨row, hin, hle, hitem⟩
        exact ⟨row, (mem_done_iff hsplit hlast hin).mpr hle, hitem⟩
    · obtain ⟨hunder, hpast⟩ := mem_pathsPast_iff.mp (mem_served_iff.mp hrow).1
      simp only [Option.mem_some_iff, forall_eq']
      exact ⟨last.path, hunder, hpast, le_rfl⟩
  | @scan path hpath hrows hnone =>
    obtain ⟨hunder, hpast⟩ := mem_pathsPast_iff.mp hpath
    have hdone : done = [] := (append_eq_nil_iff.mp (hsplit ▸ hrows)).1
    refine ⟨hfills.nodup, fun item => ?_, ?_⟩
    · rw [hfills.mem, hdone]
      simp only [not_mem_nil, false_and, exists_false, false_iff, not_exists, not_and]
      intro other hother hpast' hle hshown
      rw [shown, hnone other (mem_pathsPast_iff.mpr ⟨hother, hpast'⟩) (hle path rfl)] at hshown
      cases hshown
    · simp only [Option.mem_some_iff, forall_eq']
      exact ⟨path, hunder, hpast, le_rfl⟩

include hsplit in
/-- A page left at a row is apart from what the rows behind it show. -/
theorem apart_iff_rows (hlast : done.getLast? = some last) (items : List Item) :
    Apart (tree.pathsUnder request.stemText) (shown tree bucket request) items last.path ↔
      ∀ item ∈ items, ∀ row ∈ rest ++ laterRows tree bucket request token,
        itemOf bucket request.stemText request.delimiterText row ≠ some item := by
  have hpast : ∀ path, last.path < path → Past token path := by
    intro path hlt position hposition
    have hmem := mem_rowsPast_of_mem_done hsplit (mem_of_getLast? hlast)
    have hbefore := (mem_pathsPast_iff.mp (mem_served_iff.mp hmem).1).2
    exact (hbefore position hposition).trans hlt
  have hbehind : ∀ row ∈ rowsPast tree bucket request token,
      last.path < row.path ↔ row ∈ rest ++ laterRows tree bucket request token := by
    intro row hrow
    rw [← not_le, ← mem_done_iff hsplit hlast hrow]
    rw [rowsPast_eq hsplit, mem_append] at hrow
    refine ⟨fun hnot => hrow.resolve_left hnot, fun hlater hdone => ?_⟩
    exact lt_irrefl _ ((pairwise_done hsplit).2.2 row hdone row hlater)
  constructor
  · intro hapart item hitem row hrow hshows
    have hin : row ∈ rowsPast tree bucket request token := by
      rw [rowsPast_eq hsplit]
      exact mem_append_right _ hrow
    obtain ⟨path, hpath, -, hlt, hshown⟩ :=
      (exists_row_iff (fun path => last.path < path) item).mpr
        ⟨row, hin, (hbehind row hin).mpr hrow, hshows⟩
    exact hapart item hitem path hpath hlt hshown
  · intro hrows item hitem path hpath hlt hshown
    obtain ⟨row, hin, hltrow, hshows⟩ :=
      (exists_row_iff (fun path => last.path < path) item).mp
        ⟨path, hpath, hpast path hlt, hlt, hshown⟩
    exact hrows item hitem row ((hbehind row hin).mp hltrow) hshows

include hsplit hfills in
/-- A page that dealt with all its rows is left apart exactly if it ends between common
prefixes. -/
theorem apart_iff_of_all_rows (hlast : done.getLast? = some last) (hrest : rest = []) :
    Apart (tree.pathsUnder request.stemText) (shown tree bucket request) filled.items last.path ↔
      EndsBetween tree bucket request token := by
  have hrows : pageRows tree bucket request token = done := by
    rw [hsplit, hrest, append_nil]
  rw [apart_iff_rows hsplit hlast, hrest, nil_append]
  constructor
  · intro hapart _ row hrow later hlater common hcommon
    exact hapart _ ((hfills.mem _).mpr ⟨row, hrows ▸ hrow, hcommon⟩) later hlater
  · intro hends item hitem later hlater hshows
    obtain ⟨row, hrow, hshown⟩ := (hfills.mem item).mp hitem
    have hin : row ∈ pageRows tree bucket request token := hrows ▸ hrow
    have hlt : row.path < later.path :=
      (pairwise_done hsplit).2.2 row hrow later (mem_append_right _ hlater)
    cases item with
    | object object =>
      have hkey : row.path = later.path := congrArg ListedObject.key
        ((itemOf_eq_object_iff.mp hshown).2.2.2.symm.trans (itemOf_eq_object_iff.mp hshows).2.2.2)
      exact absurd hlt (hkey ▸ lt_irrefl _)
    | common common =>
      have hsub : ((pageRows tree bucket request token).filterMap
          (itemOf bucket request.stemText request.delimiterText)).dedup ⊆ filled.items := by
        intro other hother
        rw [mem_dedup, mem_filterMap, hrows] at hother
        exact (hfills.mem other).mpr hother
      have hsize := (subperm_of_subset (nodup_dedup _) hsub).length_le
      exact hends (hsize.trans hfills.size) row hin later hlater common hshown hshows

include hsplit hfills in
/-- A full page is left apart, and its rows show more items than it holds. -/
theorem apart_and_endsBetween_of_full (hlast : done.getLast? = some last) {next : EntryInfo}
    {later : List EntryInfo} {item : Item} (hrest : rest = next :: later)
    (hstop : StopsAt bucket request.stemText request.delimiterText request.limit filled next item) :
    Apart (tree.pathsUnder request.stemText) (shown tree bucket request) filled.items last.path ∧
      EndsBetween tree bucket request token := by
  have hsorted := pairwise_done hsplit
  rw [hrest, cons_append, pairwise_cons] at hsorted
  obtain ⟨-, ⟨hnext, -⟩, hdone⟩ := hsorted
  have hserved : ∀ row ∈ done ++ (rest ++ laterRows tree bucket request token),
      request.stemText.toList <+: row.path.toList := by
    rw [← rowsPast_eq hsplit]
    exact fun row => stem_of_mem_served
  constructor
  · rw [apart_iff_rows hsplit hlast]
    intro other hother row hrow hshows
    obtain ⟨earlier, hearlier, hshown⟩ := (hfills.mem other).mp hother
    have hle : next.path ≤ row.path := by
      rw [hrest, cons_append] at hrow
      obtain rfl | hbehind := mem_cons.mp hrow
      · exact le_rfl
      · exact (hnext row hbehind).le
    have hsame := itemOf_of_between request.delimiterText_ne
      (hserved earlier (mem_append_left _ hearlier))
      (hserved row (mem_append_right _ hrow)) hshown hshows hstop.shows
      (hdone earlier hearlier next mem_cons_self) hle
    exact hstop.fresh (hsame ▸ hother)
  · intro hfew
    have hsub : item :: filled.items ⊆ ((pageRows tree bucket request token).filterMap
        (itemOf bucket request.stemText request.delimiterText)).dedup := by
      intro other hother
      rw [mem_dedup, mem_filterMap, hsplit]
      obtain rfl | hold := mem_cons.mp hother
      · exact ⟨next, by simp [hrest], hstop.shows⟩
      · obtain ⟨row, hrow, hshows⟩ := (hfills.mem other).mp hold
        exact ⟨row, mem_append_left _ hrow, hshows⟩
    have hnodup : (item :: filled.items).Nodup :=
      nodup_cons.mpr ⟨hstop.fresh, hfills.nodup⟩
    have hlength := (subperm_of_subset hnodup hsub).length_le
    have hsize := hstop.size
    rw [length_cons] at hlength
    omega

include hsplit hfills in
theorem PageEnd.apart_iff (hend : PageEnd tree bucket request token filled done rest after) :
    (∀ position ∈ after, Apart (tree.pathsUnder request.stemText) (shown tree bucket request)
        filled.items position) ↔
      EndsBetween tree bucket request token := by
  cases hend with
  | last hrest hlater =>
    refine iff_of_true (by simp) fun _ row _ later hin => ?_
    rw [hlater] at hin
    cases hin
  | row hlast hrest =>
    simp only [Option.mem_some_iff, forall_eq']
    obtain hall | ⟨next, later, item, hnext, hstop⟩ := hrest
    · exact apart_iff_of_all_rows hsplit hfills hlast hall
    · obtain ⟨hapart, hends⟩ :=
        apart_and_endsBetween_of_full hsplit hfills hlast hnext hstop
      exact iff_of_true hapart hends
  | scan hpath hrows hnone =>
    have hdone : done = [] := (append_eq_nil_iff.mp (hsplit ▸ hrows)).1
    refine iff_of_true ?_ fun _ row hrow => ?_
    · intro position _ item hitem
      rw [hfills.mem, hdone] at hitem
      obtain ⟨row, hrow, -⟩ := hitem
      cases hrow
    · rw [hrows] at hrow
      cases hrow

end Ends

/-! ## All pages -/

theorem page_passesRows (token : Option String) :
    ∃ items after, page tree bucket request token = some (items, after) ∧
      PassesRows (tree.pathsUnder request.stemText) (shown tree bucket request) token items
        after := by
  obtain ⟨filled, done, rest, after, hpage, hsplit, hfills, hend⟩ :=
    @exists_page tree bucket request token
  exact ⟨filled.items, after, hpage, hend.passesRows hsplit hfills⟩

theorem page_apart_iff {position : String}
    (hpage : page tree bucket request token = some (items, some position)) :
    Apart (tree.pathsUnder request.stemText) (shown tree bucket request) items position ↔
      EndsBetween tree bucket request token := by
  obtain ⟨filled, done, rest, after, hpage', hsplit, hfills, hend⟩ :=
    @exists_page tree bucket request token
  rw [hpage, Option.some.injEq, Prod.mk.injEq] at hpage'
  obtain ⟨rfl, rfl⟩ := hpage'
  simpa using hend.apart_iff hsplit hfills

theorem endsBetween_of_last (hpage : page tree bucket request token = some (items, none)) :
    EndsBetween tree bucket request token := by
  obtain ⟨filled, done, rest, after, hpage', hsplit, hfills, hend⟩ :=
    @exists_page tree bucket request token
  rw [hpage, Option.some.injEq, Prod.mk.injEq] at hpage'
  obtain ⟨-, rfl⟩ := hpage'
  exact (hend.apart_iff hsplit hfills).mp (by simp)

theorem page_pairwise {after : Option String}
    (hpage : page tree bucket request token = some (items, after)) : items.Pairwise InOrder := by
  obtain ⟨filled, done, rest, after', hpage', -, hfills, -⟩ :=
    @exists_page tree bucket request token
  rw [hpage, Option.some.injEq, Prod.mk.injEq] at hpage'
  rw [hpage'.1]
  exact hfills.pairwise_inOrder

theorem inOrder_of_shown {path' : String} {item item' : Item}
    (hpath : path ∈ tree.pathsUnder request.stemText)
    (hpath' : path' ∈ tree.pathsUnder request.stemText) (hlt : path < path')
    (hshown : shown tree bucket request path = some item)
    (hshown' : shown tree bucket request path' = some item') (hne : item ≠ item') :
    InOrder item item' := by
  obtain ⟨row, rfl, -, hitem⟩ := shown_eq_some_iff.mp hshown
  obtain ⟨row', rfl, -, hitem'⟩ := shown_eq_some_iff.mp hshown'
  exact inOrder_of_lt request.delimiterText_ne
    (UnifiedTree.mem_unifiedPaths.mp hpath).2.1 (UnifiedTree.mem_unifiedPaths.mp hpath').2.1
    hitem hitem' hlt hne

end Bucket

def Item.objectKey : Item → Option String
  | .object listed => some listed.key
  | .common _ => none

section Keys

variable {tree : UnifiedTree} {bucket : Bucket} {request : ListRequest}

theorem objectKey_of_shown {path key : String} {item : Item}
    (hshown : shown tree bucket request path = some item) (hkey : item.objectKey = some key) :
    key = path := by
  obtain ⟨row, rfl, -, hitem⟩ := shown_eq_some_iff.mp hshown
  cases item with
  | object listed =>
    cases hkey
    rw [(itemOf_eq_object_iff.mp hitem).2.2.2]
    rfl
  | common common => cases hkey

theorem pairwise_objectKey_of_inOrder {items : List Item} (h : items.Pairwise InOrder) :
    (items.filterMap Item.objectKey).Pairwise (· < ·) := by
  refine h.filterMap _ fun item item' hlt key hkey key' hkey' => ?_
  cases item <;> cases item' <;> cases hkey <;> cases hkey'
  exact hlt

theorem pairwise_objectKey_of_pages {start : Option String} {pages : List (List Item)}
    (hpages : Pages (page tree bucket request) start pages) :
    (pages.flatten.filterMap Item.objectKey).Pairwise (· < ·) := by
  induction hpages with
  | last hcall => simpa using pairwise_objectKey_of_inOrder (page_pairwise hcall)
  | @next start items position rest hcall hrest ih =>
    rw [flatten_cons, filterMap_append, pairwise_append]
    refine ⟨pairwise_objectKey_of_inOrder (page_pairwise hcall), ih, fun key hkey key' hkey' => ?_⟩
    obtain ⟨item, hitem, hkey⟩ := mem_filterMap.mp hkey
    obtain ⟨item', hitem', hkey'⟩ := mem_filterMap.mp hkey'
    obtain ⟨path, -, -, hle, hshown⟩ :=
      ((passesRows_of_page page_passesRows hcall).mem item).mp hitem
    obtain ⟨path', -, hpast, hshown'⟩ := (mem_flatten_pages page_passesRows hrest item').mp hitem'
    rw [objectKey_of_shown hshown hkey, objectKey_of_shown hshown' hkey']
    exact (hle position rfl).trans_lt (hpast position rfl)

end Keys

/-- Whatever the delimiter and wherever pages end, following the continuation tokens ends and
shows every object and common prefix; the keys of the objects ascend, so none is shown twice. -/
theorem listed_keys_ascend (tree : UnifiedTree) (bucket : Bucket) (request : ListRequest) :
    ∃ pages, Pages (page tree bucket request) none pages ∧
      (∀ item, item ∈ pages.flatten ↔ Listed tree bucket request item) ∧
        (pages.flatten.filterMap Item.objectKey).Pairwise (· < ·) := by
  obtain ⟨pages, hpages⟩ := exists_pages (@page_passesRows tree bucket request) none
  refine ⟨pages, hpages, fun item => ?_, pairwise_objectKey_of_pages hpages⟩
  rw [mem_flatten_pages page_passesRows hpages, listed_iff_shown]
  simp [Past]

def threeFiles : UnifiedTree where
  space := "media"
  entries := [.emptyFile "a/1", .emptyFile "a/2", .emptyFile "a/3"]
  now := 0
  origin_ne := by simp [EntryRow.emptyFile]
  path_ne := by simp [EntryRow.emptyFile]

def plainBucket : Bucket where
  name := "media"
  policy := .newest
  isLockKey _ := false

end Synch.S3
