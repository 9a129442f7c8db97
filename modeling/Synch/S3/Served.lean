import Synch.S3.Listing

/-!
# What the daemon serves, in closed form

The batches of a listing scan a fixed number of paths at most: whole batches until the
budget is met.  The daemon serves what these paths hold, up to the limit, and names
the last of them if they do not fill the limit although there were that many.
-/

namespace Synch.S3

open List Synch.Support Synch.Tree

/-- The paths that a listing with a limit scans at most. -/
def scanSpan (limit : Nat) : Nat :=
  limit * ((scanBudget limit - 1) / limit + 1)

theorem scanSpan_pos {limit : Nat} (hlimit : 0 < limit) : 0 < scanSpan limit :=
  Nat.mul_pos hlimit (Nat.succ_pos _)

/-- The rows that paths hold. -/
def served (tree : UnifiedTree) (policy : VersionPolicy) (paths : List String) : List EntryInfo :=
  paths.filterMap fun path => serve policy tree.now (tree.versions path)

def pathsPast (tree : UnifiedTree) (stem : String) (start : Option String) : List String :=
  (tree.pathsUnder stem).filter fun path => Past start path

section Batches

variable {tree : UnifiedTree} {policy : VersionPolicy} {stem : String} {limit : Nat}

theorem served_append (paths paths' : List String) :
    served tree policy (paths ++ paths') = served tree policy paths ++ served tree policy paths' :=
  filterMap_append

variable {sent : List EntryInfo} {front paths : List String}

theorem sendBatch_eq (hsent : sent.length < limit) (paths : List String) :
    sendBatch policy tree.now limit sent (paths.map tree.versions) =
      if (sent ++ served tree policy paths).length < limit then
        (sent ++ served tree policy paths, false)
      else ((sent ++ served tree policy paths).take limit, true) := by
  induction paths generalizing sent with
  | nil => simp [sendBatch, served, hsent]
  | cons path paths ih =>
    rw [map_cons, sendBatch]
    cases hserve : serve policy tree.now (tree.versions path) with
    | none =>
      have hcons : served tree policy (path :: paths) = served tree policy paths := by
        simp [served, hserve]
      rw [hcons]
      exact ih hsent
    | some row =>
      have hcons : sent ++ served tree policy (path :: paths) =
          (sent ++ [row]) ++ served tree policy paths := by
        simp [served, hserve]
      rw [hcons]
      dsimp only
      by_cases hfull : (sent ++ [row]).length = limit
      · have hnot : ¬((sent ++ [row]) ++ served tree policy paths).length < limit := by
          rw [length_append]
          omega
        rw [if_pos hfull, if_neg hnot, take_append_of_le_length hfull.ge,
          take_of_length_le hfull.le]
      · rw [if_neg hfull]
        apply ih
        rw [length_append, length_singleton] at hfull ⊢
        omega

/-- In an ascending list, what is past the last element of a front is the rest. -/
theorem filter_past_eq_drop {n : Nat} {last : String} (hsorted : (front ++ paths).Pairwise (· < ·))
    (hlast : (paths.take n).getLast? = some last) :
    ((front ++ paths).filter fun path => Past (some last) path) = paths.drop n := by
  obtain ⟨init, hinit⟩ := getLast?_eq_some_iff.mp hlast
  have hsplit : paths = init ++ [last] ++ paths.drop n := by
    rw [← hinit, take_append_drop]
  rw [hsplit] at hsorted
  have hbefore : ∀ path ∈ front ++ init ++ [last], ¬Past (some last) path := by
    intro path hpath hpast
    have hlt : last < path := hpast last rfl
    obtain hearlier | heq := mem_append.mp hpath
    · rw [← append_assoc, ← append_assoc, append_assoc (front ++ init), pairwise_append] at hsorted
      exact lt_asymm hlt (hsorted.2.2 path hearlier last (by simp))
    · exact absurd (mem_singleton.mp heq) hlt.ne'
  have hafter : ∀ path ∈ paths.drop n, Past (some last) path := by
    intro path hpath position hposition
    rw [← Option.some.inj hposition]
    rw [← append_assoc, pairwise_append] at hsorted
    exact hsorted.2.2 last (by simp) path hpath
  conv_lhs => rw [hsplit]
  rw [← append_assoc, ← append_assoc, filter_append,
    filter_eq_nil_iff.mpr (by simpa using hbefore),
    filter_eq_self.mpr (by simpa using hafter), nil_append]

/-- One batch: it fills the limit, ends the prefix, meets the budget, or is followed by
the next one. -/
theorem sendBatches_step {scanned : Nat} (hlimit : 0 < limit) (hsent : sent.length < limit)
    (hpaths : tree.pathsUnder stem = front ++ paths) :
    sendBatches tree policy stem limit sent scanned ((paths.take limit).map tree.versions) =
      if limit ≤ (sent ++ served tree policy (paths.take limit)).length then
        { entries := (sent ++ served tree policy (paths.take limit)).take limit
          scanCursor := none }
      else if paths.length < limit then
        { entries := sent ++ served tree policy (paths.take limit), scanCursor := none }
      else if scanBudget limit ≤ scanned + limit then
        { entries := sent ++ served tree policy (paths.take limit)
          scanCursor := (paths.take limit).getLast? }
      else if paths.drop limit = [] then
        { entries := sent ++ served tree policy (paths.take limit), scanCursor := none }
      else
        sendBatches tree policy stem limit (sent ++ served tree policy (paths.take limit))
          (scanned + limit) (((paths.drop limit).take limit).map tree.versions) := by
  rw [sendBatches, sendBatch_eq hsent]
  by_cases hfull : (sent ++ served tree policy (paths.take limit)).length < limit
  · rw [if_pos hfull, if_neg (not_le.mpr hfull)]
    dsimp only
    by_cases hshort : paths.length < limit
    · have hbatch : ((paths.take limit).map tree.versions).length < limit := by
        rw [length_map, length_take]
        omega
      rw [if_pos hbatch, if_pos hshort]
    · have hlength : ((paths.take limit).map tree.versions).length = limit := by
        rw [length_map, length_take]
        omega
      rw [if_neg (by omega), if_neg hshort]
      have hne : paths.take limit ≠ [] := by
        intro hnil
        simp [hnil] at hlength
        omega
      obtain ⟨last, hlast⟩ : ∃ last, (paths.take limit).getLast? = some last :=
        ⟨_, getLast?_eq_some_getLast hne⟩
      have hsorted := tree.pathsUnder_pairwise stem
      rw [hpaths] at hsorted
      have hnext : tree.unifiedListing stem (some last) (some limit) =
          ((paths.drop limit).take limit).map tree.versions := by
        rw [UnifiedTree.unifiedListing_some, hpaths]
        exact congrArg (fun rest => (rest.take limit).map tree.versions)
          (filter_past_eq_drop hsorted hlast)
      split
      · rename_i hnone
        rw [getLast?_map, hlast] at hnone
        cases hnone
      · rename_i set hset
        rw [getLast?_map, hlast, Option.map_some, Option.some.injEq] at hset
        subst hset
        rw [hlength, UnifiedTree.versions_path, hlast, hnext]
        by_cases hbudget : scanBudget limit ≤ scanned + limit
        · rw [dif_pos hbudget, if_pos hbudget]
        · rw [dif_neg hbudget, if_neg hbudget]
          by_cases hdrop : paths.drop limit = []
          · simp [hdrop]
          · have hmore : (((paths.drop limit).take limit).map tree.versions).isEmpty = false := by
              simpa [isEmpty_eq_false_iff, hlimit.ne'] using hdrop
            rw [if_neg hdrop]
            simp only [hmore, Bool.false_eq_true, if_false]
  · rw [if_neg hfull, if_pos (not_lt.mp hfull)]

variable (tree policy limit sent paths) in
/-- What the first `count` of the paths leave to send. -/
def sentAfter (count : Nat) : Served where
  entries := (sent ++ served tree policy (paths.take count)).take limit
  scanCursor :=
    if (sent ++ served tree policy (paths.take count)).length < limit ∧ count ≤ paths.length then
      (paths.take count).getLast?
    else none

/-- The batches serve the span that is left, up to the limit. -/
theorem sendBatches_eq {scanned k : Nat} (hlimit : 0 < limit) (hsent : sent.length < limit)
    (hpaths : tree.pathsUnder stem = front ++ paths)
    (hbefore : scanned + limit * k < scanBudget limit)
    (hbudget : scanBudget limit ≤ scanned + limit * (k + 1)) :
    sendBatches tree policy stem limit sent scanned ((paths.take limit).map tree.versions) =
      sentAfter tree policy limit sent paths (limit * (k + 1)) := by
  induction k generalizing sent scanned front paths with
  | zero =>
    rw [sendBatches_step hlimit hsent hpaths, sentAfter]
    rw [Nat.zero_add, Nat.mul_one] at hbudget ⊢
    split
    · rw [if_neg (by omega)]
    · rename_i hroom
      rw [take_of_length_le (not_le.mp hroom).le]
      split
      · rw [if_neg (by omega)]
      · rw [if_pos (by omega)]
  | succ k ih =>
    have hpos : 0 < limit * (k + 1) := Nat.mul_pos hlimit (Nat.succ_pos k)
    have hspan : paths.take (limit * (k + 1 + 1)) =
        paths.take limit ++ (paths.drop limit).take (limit * (k + 1)) := by
      rw [Nat.mul_succ limit (k + 1), Nat.add_comm, take_add]
    rw [sendBatches_step hlimit hsent hpaths]
    split
    · rename_i hfull
      rw [sentAfter, hspan, served_append, ← append_assoc, take_append_of_le_length hfull, if_neg]
      rw [length_append]
      omega
    · rename_i hroom
      have hroom := not_le.mp hroom
      have hlast : paths.length ≤ limit →
          { entries := sent ++ served tree policy (paths.take limit), scanCursor := none } =
            sentAfter tree policy limit sent paths (limit * (k + 1 + 1)) := by
        intro hle
        have hlong : paths.length < limit * (k + 1 + 1) := by
          rw [Nat.mul_succ]
          omega
        rw [take_of_length_le hle] at hroom ⊢
        rw [sentAfter, take_of_length_le hlong.le, if_neg (by omega), take_of_length_le hroom.le]
      split
      · rename_i hshort
        exact hlast hshort.le
      · rename_i hlong
        rw [if_neg (by rw [Nat.mul_succ] at hbefore; omega)]
        split
        · rename_i hdrop
          exact hlast (drop_eq_nil_iff.mp hdrop)
        · rename_i hdrop
          have hpaths' : tree.pathsUnder stem = (front ++ paths.take limit) ++ paths.drop limit := by
            rw [append_assoc, take_append_drop]
            exact hpaths
          rw [ih hroom hpaths' (by rw [Nat.mul_succ] at hbefore; omega)
            (by rw [Nat.mul_succ] at hbudget; omega)]
          have hrest : (paths.drop limit).take (limit * (k + 1)) ≠ [] := by
            simpa [hpos.ne'] using hdrop
          have hlength : limit * (k + 1) ≤ (paths.drop limit).length ↔
              limit * (k + 1 + 1) ≤ paths.length := by
            rw [length_drop, Nat.mul_succ limit (k + 1)]
            omega
          rw [sentAfter, sentAfter, hspan, served_append, ← append_assoc]
          simp only [hlength, getLast?_append_of_ne_nil _ hrest]

/-- In an ascending list the paths past a position are the back of it. -/
theorem exists_eq_append_past (hsorted : paths.Pairwise (· < ·)) (start : Option String) :
    ∃ front, paths = front ++ paths.filter fun path => Past start path := by
  induction paths with
  | nil => exact ⟨[], rfl⟩
  | cons path paths ih =>
    rw [pairwise_cons] at hsorted
    by_cases hpast : Past start path
    · have hall : ∀ other ∈ path :: paths, Past start other := by
        intro other hother
        obtain rfl | hlater := mem_cons.mp hother
        · exact hpast
        · exact fun position hposition =>
            (hpast position hposition).trans (hsorted.1 other hlater)
      exact ⟨[], by rw [filter_eq_self.mpr (by simpa using hall), nil_append]⟩
    · obtain ⟨front, hfront⟩ := ih hsorted.2
      refine ⟨path :: front, ?_⟩
      rw [filter_cons_of_neg (by simpa using hpast), cons_append, ← hfront]

/-- The daemon serves what the span past the position holds, up to the limit. -/
theorem list_eq (hlimit : 0 < limit) (start : Option String) :
    list tree policy stem start limit =
      sentAfter tree policy limit [] (pathsPast tree stem start) (scanSpan limit) := by
  obtain ⟨front, hfront⟩ := exists_eq_append_past (tree.pathsUnder_pairwise stem) start
  change tree.pathsUnder stem = front ++ pathsPast tree stem start at hfront
  have hbatch : tree.unifiedListing stem start (some limit) =
      ((pathsPast tree stem start).take limit).map tree.versions :=
    tree.unifiedListing_some stem start limit
  have hpos : 0 < scanBudget limit := lt_max_of_lt_right (by decide)
  have hdiv := Nat.div_mul_le_self (scanBudget limit - 1) limit
  have hlt := Nat.lt_mul_div_succ (scanBudget limit - 1) hlimit
  rw [Nat.mul_comm] at hdiv
  have hsent : ([] : List EntryInfo).length < limit := hlimit
  rw [list, hbatch, sendBatches_eq hlimit hsent hfront
    (by rw [Nat.zero_add]; exact Nat.lt_of_le_pred hpos hdiv) (by rw [Nat.zero_add]; omega)]
  rfl

end Batches

section Rows

variable (tree : UnifiedTree) (policy : VersionPolicy) (stem : String) (wanted : Nat)

/-- The rows the daemon hands out for a page: the first ones that the span past the
position holds. -/
def window (start : Option String) : List EntryInfo :=
  (served tree policy ((pathsPast tree stem start).take (scanSpan (wanted + 1)))).take wanted

/-- The rows past those of a page. -/
def beyond (start : Option String) : List EntryInfo :=
  (served tree policy (pathsPast tree stem start)).drop
    (window tree policy stem wanted start).length

variable {tree policy stem wanted}

theorem window_initial (start : Option String) :
    window tree policy stem wanted start <+: served tree policy (pathsPast tree stem start) := by
  have hspan : served tree policy ((pathsPast tree stem start).take (scanSpan (wanted + 1))) <+:
      served tree policy (pathsPast tree stem start) :=
    ( take_prefix _ _).filterMap _
  exact ( take_prefix _ _).trans hspan

theorem window_append_beyond (start : Option String) :
    window tree policy stem wanted start ++ beyond tree policy stem wanted start =
      served tree policy (pathsPast tree stem start) := by
  obtain ⟨rest, hrest⟩ := @window_initial tree policy stem wanted start
  rw [beyond, ← hrest, drop_left]

/-- The rows for a page.  If the daemon has no more, they are all there are; if it has
more but no row for the page, it names a path past the position, up to which no path
holds a row. -/
theorem daemonList_spec (start : Option String) :
    ∃ more scanCursor,
      daemonList tree policy stem start wanted =
          (window tree policy stem wanted start, more, scanCursor) ∧
        (more = false → beyond tree policy stem wanted start = []) ∧
          (more = true → 0 < wanted → window tree policy stem wanted start = [] →
            ∃ path ∈ pathsPast tree stem start, scanCursor = some path ∧
              ∀ other ∈ pathsPast tree stem start, other ≤ path →
                serve policy tree.now (tree.versions other) = none) := by
  have hlist := @list_eq tree policy stem (wanted + 1) (Nat.succ_pos wanted) start
  rw [sentAfter, nil_append] at hlist
  by_cases hmore : wanted < (list tree policy stem start (wanted + 1)).entries.length
  · refine ⟨true, none, ?_, by simp, fun _ hwanted hempty => ?_⟩
    · rw [daemonList, if_pos hmore, hlist, take_take, Nat.min_eq_left (Nat.le_succ wanted)]
      rfl
    · rw [hlist, length_take] at hmore
      rw [window, take_eq_nil_iff] at hempty
      obtain hzero | hnil := hempty
      · omega
      · simp [hnil] at hmore
  · have hshort : (served tree policy
        ((pathsPast tree stem start).take (scanSpan (wanted + 1)))).length ≤ wanted := by
      rw [hlist, length_take] at hmore
      omega
    have hwindow : window tree policy stem wanted start =
        served tree policy ((pathsPast tree stem start).take (scanSpan (wanted + 1))) :=
      take_of_length_le hshort
    refine ⟨(list tree policy stem start (wanted + 1)).scanCursor.isSome,
      (list tree policy stem start (wanted + 1)).scanCursor, ?_, fun hnot => ?_,
      fun hsome _ hempty => ?_⟩
    · rw [daemonList, if_neg hmore, hwindow]
      congr 1
      rw [hlist, take_of_length_le (Nat.le_succ_of_le hshort)]
    · -- nothing was left when the span ended
      have hend : ¬scanSpan (wanted + 1) ≤ (pathsPast tree stem start).length := by
        intro hspan
        rw [hlist, if_pos ⟨Nat.lt_succ_of_le hshort, hspan⟩] at hnot
        simp only [Option.isSome_eq_false_iff, Option.isNone_iff_eq_none,
          getLast?_eq_none_iff, take_eq_nil_iff] at hnot
        have hpos : 0 < scanSpan (wanted + 1) := scanSpan_pos (Nat.succ_pos wanted)
        obtain hzero | hnil := hnot
        · omega
        · simp [hnil] at hspan
          omega
      rw [beyond, hwindow, take_of_length_le (not_le.mp hend).le, drop_length]
    · rw [hlist] at hsome ⊢
      split at hsome
      · rename_i hspan
        rw [if_pos hspan]
        obtain ⟨path, hpath⟩ := Option.isSome_iff_exists.mp hsome
        have hmem := mem_of_getLast? hpath
        refine ⟨path, mem_of_mem_take hmem, hpath, fun other hother hle => ?_⟩
        rw [hwindow, served, filterMap_eq_nil_iff] at hempty
        apply hempty
        rw [← take_append_drop (scanSpan (wanted + 1)) (pathsPast tree stem start),
          mem_append] at hother
        obtain hin | hlater := hother
        · exact hin
        · have hsorted := (tree.pathsUnder_pairwise stem).filter fun path => Past start path
          change (pathsPast tree stem start).Pairwise (· < ·) at hsorted
          rw [← take_append_drop (scanSpan (wanted + 1)) (pathsPast tree stem start),
            pairwise_append] at hsorted
          exact absurd (hsorted.2.2 path hmem other hlater) hle.not_gt
      · simp at hsome

end Rows

end Synch.S3
