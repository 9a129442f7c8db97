import Mathlib.Data.List.Induction
import Synch.Support.Fallible

/-!
# The log of access keys

The gateway's access keys are one configuration value: lines of tab-separated
fields, appended by the store and folded when they are read.  A line ends at a
newline together with the carriage return before it, so an append reads the last
line of the log anew: what was its last character no longer counts.
-/

namespace Synch.S3

open List Synch.Support

abbrev Text := List Char

structure AccessKey where
  id : Text
  secret : Text
deriving DecidableEq, Repr

/-- One record of a log: a later one replaces, a lone id removes, and what nobody can
read is skipped. -/
def foldRecord {α : Type} (idOf : α → Text) (parse : Text → List Text → Option α)
    (out : List α) (record : Text) : List α :=
  match record.splitOn '\t' with
  | [] => out
  | id :: rest =>
    if id.isEmpty then out
    else
      match rest with
      | [] => out.filter (idOf · != id)
      | _ =>
        match parse id rest with
        | none => out
        | some entry => out.filter (idOf · != id) ++ [entry]

def foldLog {α : Type} (idOf : α → Text) (parse : Text → List Text → Option α)
    (records : List Text) : List α :=
  records.foldl (foldRecord idOf parse) []

def parseKey (id : Text) : List Text → Option AccessKey
  | [] => none
  | secret :: _ => some ⟨id, secret⟩

def foldKeys (records : List Text) : List AccessKey :=
  foldLog AccessKey.id parseKey records

def stripReturn (line : Text) : Text :=
  if line.getLast? = some '\r' then line.dropLast else line

/-- `str::lines`: what follows the last newline is a line as it stands, if it is not
empty. -/
def lines (text : Text) : List Text :=
  (text.splitOn '\n').dropLast.map stripReturn ++
    (text.splitOn '\n').getLast?.toList.filter (!·.isEmpty)

variable (value : Option Text)

/-- The store appends a record to a configuration value. -/
def appendConfig (record : Text) : Text :=
  match value with
  | none => record
  | some value => value ++ '\n' :: record

/-- The keys that a configuration value holds. -/
def loadKeys : List AccessKey :=
  foldKeys (value.elim [] lines)

/-- Adds or replaces a key; the daemon takes no record of more than one line. -/
def putKey (key : AccessKey) : Except String Text :=
  if key.id.contains '\t' || key.secret.contains '\t' then
    .error "an access key id and secret may not contain a tab"
  else
    let record := key.id ++ '\t' :: key.secret
    if record.contains '\n' then
      .error "a config record is one line: newlines separate records"
    else .ok (appendConfig value record)

variable {out : List AccessKey} {k : AccessKey} {id secret record : Text}

theorem mem_remove_iff (hid : '\t' ∉ id) :
    k ∈ foldRecord AccessKey.id parseKey out id ↔ k ∈ out ∧ (id = [] ∨ k.id ≠ id) := by
  rw [foldRecord, splitOn_eq_singleton hid]
  by_cases hempty : id = []
  · simp [hempty]
  · simp [hempty]

theorem mem_set_iff {rest : Text} (hid : '\t' ∉ id)
    (hrest : (rest.splitOn '\t').head? = some secret) :
    k ∈ foldRecord AccessKey.id parseKey out (id ++ '\t' :: rest) ↔
      if id = [] then k ∈ out else k = ⟨id, secret⟩ ∨ k ∈ out ∧ k.id ≠ id := by
  obtain ⟨more, hfields⟩ := head?_eq_some_iff.mp hrest
  rw [foldRecord, splitOn_append_cons_self_of_not_mem hid, hfields]
  by_cases hempty : id = []
  · simp [hempty]
  · simp [hempty, parseKey, or_comm]

theorem foldKeys_append_singleton (records : List Text) (record : Text) :
    foldKeys (records ++ [record]) =
      foldRecord AccessKey.id parseKey (foldKeys records) record := by
  rw [foldKeys, foldLog, foldl_append]
  rfl

theorem id_ne_nil_of_mem_foldKeys {records : List Text} (h : k ∈ foldKeys records) : k.id ≠ [] := by
  induction records using reverseRecOn with
  | nil => simp [foldKeys, foldLog] at h
  | append_singleton records record ih =>
    rw [foldKeys_append_singleton] at h
    by_cases htab : '\t' ∈ record
    · obtain ⟨id, rest, rfl, hid⟩ := eq_append_cons_of_mem htab
      obtain ⟨secret, more, hfields⟩ :=
        exists_cons_of_ne_nil (splitOn_ne_nil '\t' rest)
      rw [mem_set_iff hid (head?_eq_some_iff.mpr ⟨more, hfields⟩)] at h
      split at h
      · exact ih h
      · next hne =>
        obtain rfl | h := h
        · exact hne
        · exact ih h.1
    · exact ih ((mem_remove_iff htab).mp h).1

/-! ## The line before an append -/

/-- A line read without the carriage return it ended in means the same for every key but
one: it has further fields, names no key, sets that key, or removes one where there is
none. -/
def Kept (before : List AccessKey) (id : Text) (line : Text) : Prop :=
  match line.splitOn '\t' with
  | [other] => ∀ k ∈ before, k.id = other ∨ k.id = other ++ ['\r'] → k.id = id
  | [other, _] => other = [] ∨ other = id
  | _ => True

/-- An append leaves what the log's last line means for the keys other than `id`. -/
def EndsKept (log id : Text) : Prop :=
  ∀ line, (log.splitOn '\n').getLast? = some (line ++ ['\r']) →
    Kept (foldKeys ((log.splitOn '\n').dropLast.map stripReturn)) id line

/-- The two lists have the same keys, apart from those of an id. -/
def AgreeApart (id : Text) (a b : List AccessKey) : Prop :=
  ∀ k : AccessKey, k.id ≠ id → (k ∈ a ↔ k ∈ b)

theorem agreeApart_of_removal {line : Text} (hline : '\t' ∉ line)
    (hout : ∀ k ∈ out, k.id ≠ []) :
    AgreeApart id (foldRecord AccessKey.id parseKey out line)
        (foldRecord AccessKey.id parseKey out (line ++ ['\r'])) ↔
      ∀ k ∈ out, k.id = line ∨ k.id = line ++ ['\r'] → k.id = id := by
  have hreturn : '\t' ∉ line ++ ['\r'] := by simp [hline]
  simp only [AgreeApart, mem_remove_iff hline, mem_remove_iff hreturn]
  refine ⟨fun h k hk hnamed => ?_, fun h k hne => and_congr_right fun hk => ?_⟩
  · by_contra hne
    have hiff := h k hne
    obtain heq | heq := hnamed <;> simp_all
  · have hneither := mt (h k hk) hne
    simp_all

/-- Two lines that set the same key agree apart from it or if they set it to the same. -/
theorem agreeApart_of_set {other rest rest' secret' : Text} (hother : '\t' ∉ other)
    (hrest : (rest.splitOn '\t').head? = some secret)
    (hrest' : (rest'.splitOn '\t').head? = some secret') :
    AgreeApart id (foldRecord AccessKey.id parseKey out (other ++ '\t' :: rest))
        (foldRecord AccessKey.id parseKey out (other ++ '\t' :: rest')) ↔
      (other = [] ∨ other = id) ∨ secret = secret' := by
  simp only [AgreeApart, mem_set_iff hother hrest, mem_set_iff hother hrest']
  constructor
  · intro h
    by_contra hnot
    simp only [not_or] at hnot
    have hiff := h ⟨other, secret⟩ hnot.1.2
    simp [hnot] at hiff
  · rintro ((rfl | rfl) | rfl) k hne
    · simp
    · have hapart : ∀ secret, k ≠ ⟨other, secret⟩ := by
        rintro secret rfl
        exact hne rfl
      simp [hapart]
    · rfl

/-- A line means the same without its carriage return exactly if it is kept. -/
theorem agreeApart_iff_kept {line : Text} (hout : ∀ k ∈ out, k.id ≠ []) :
    AgreeApart id (foldRecord AccessKey.id parseKey out line)
        (foldRecord AccessKey.id parseKey out (line ++ ['\r'])) ↔ Kept out id line := by
  by_cases htab : '\t' ∈ line
  · obtain ⟨other, rest, rfl, hother⟩ := eq_append_cons_of_mem htab
    rw [Kept, splitOn_append_cons_self_of_not_mem hother, append_assoc, cons_append]
    by_cases hmore : '\t' ∈ rest
    · obtain ⟨secret, rest, rfl, hsecret⟩ := eq_append_cons_of_mem hmore
      obtain ⟨third, more, hfields⟩ :=
        exists_cons_of_ne_nil (splitOn_ne_nil '\t' rest)
      have hhead := fun rest => splitOn_append_cons_self_of_not_mem hsecret rest
      rw [append_assoc, cons_append, hhead, hfields,
        agreeApart_of_set hother (by rw [hhead]; rfl) (by rw [hhead]; rfl)]
      exact iff_of_true (.inr rfl) trivial
    · have hreturn : '\t' ∉ rest ++ ['\r'] := by simp [hmore]
      rw [agreeApart_of_set hother (by rw [splitOn_eq_singleton hmore]; rfl)
        (by rw [splitOn_eq_singleton hreturn]; rfl), splitOn_eq_singleton hmore]
      simp
  · rw [Kept, splitOn_eq_singleton htab]
    exact agreeApart_of_removal htab hout

theorem stripReturn_append (line : Text) : stripReturn (line ++ ['\r']) = line := by
  simp [stripReturn]

/-- Ending the last line of a log keeps every other key exactly if that line is kept. -/
theorem agreeApart_ended_iff (log id : Text) :
    AgreeApart id (foldKeys ((log.splitOn '\n').map stripReturn)) (loadKeys (some log)) ↔
      EndsKept log id := by
  obtain ⟨before, last, hpieces⟩ : ∃ before last, log.splitOn '\n' = before ++ [last] :=
    ⟨_, _, (dropLast_append_getLast (splitOn_ne_nil '\n' log)).symm⟩
  have hlast : loadKeys (some log) =
      foldRecord AccessKey.id parseKey (foldKeys (before.map stripReturn)) last := by
    rw [loadKeys, Option.elim_some, lines, hpieces]
    cases last with
    | nil => simp [foldRecord]
    | cons c last =>
      simp only [dropLast_concat, getLast?_concat, Option.toList_some]
      exact foldKeys_append_singleton _ _
  rw [hlast, EndsKept, hpieces, map_append, map_singleton,
    foldKeys_append_singleton, dropLast_concat, getLast?_concat]
  have hids : ∀ k ∈ foldKeys (before.map stripReturn), k.id ≠ [] :=
    fun k => id_ne_nil_of_mem_foldKeys
  by_cases hreturn : last.getLast? = some '\r'
  · obtain ⟨line, rfl⟩ := getLast?_eq_some_iff.mp hreturn
    rw [stripReturn_append, agreeApart_iff_kept hids]
    simp
  · rw [stripReturn, if_neg hreturn]
    refine iff_of_true (fun _ _ => Iff.rfl) fun line hline => ?_
    rw [Option.some.inj hline] at hreturn
    simp at hreturn

theorem notMem_of_putKey {value : Option Text} {key : AccessKey} {after : Text}
    (h : putKey value key = .ok after) :
    '\t' ∉ key.id ∧ '\t' ∉ key.secret ∧ '\n' ∉ key.id ++ '\t' :: key.secret ∧
      after = appendConfig value (key.id ++ '\t' :: key.secret) := by
  rw [putKey] at h
  split at h
  · cases h
  · next htab =>
    dsimp only at h
    split at h
    · cases h
    · next hline =>
      cases h
      simp only [Bool.or_eq_true, contains_iff_mem, not_or] at htab hline
      exact ⟨htab.1, htab.2, hline, rfl⟩

/-- The keys after an append are those of the ended log and of the new record. -/
theorem loadKeys_appendConfig {value : Option Text} (hne : record ≠ []) (h : '\n' ∉ record) :
    loadKeys (some (appendConfig value record)) =
      foldRecord AccessKey.id parseKey
        (foldKeys (value.elim [] fun log => (log.splitOn '\n').map stripReturn)) record := by
  cases value with
  | none =>
    rw [loadKeys, Option.elim_some, lines, appendConfig, splitOn_eq_singleton h]
    simp [hne, foldKeys, foldLog]
  | some log =>
    rw [loadKeys, Option.elim_some, lines, appendConfig, splitOn_append_cons_self,
      splitOn_eq_singleton h, dropLast_concat, getLast?_concat,
      Option.toList_some, filter_singleton, Option.elim_some]
    simp only [isEmpty_eq_false_iff.mpr hne, Bool.not_false]
    exact foldKeys_append_singleton _ _

/-- A put that succeeds sets its key and leaves every other exactly if its id is not
empty and the last line of the log does not depend on the carriage return it ends in. -/
theorem putKey_exact_iff (value : Option Text) (key : AccessKey) (after : Text)
    (h : putKey value key = .ok after) :
    (∀ k, k ∈ loadKeys (some after) ↔ k = key ∨ k ∈ loadKeys value ∧ k.id ≠ key.id) ↔
      key.id ≠ [] ∧ ∀ log, value = some log → EndsKept log key.id := by
  obtain ⟨hid, hsecret, hline, rfl⟩ := notMem_of_putKey h
  have hhead : (key.secret.splitOn '\t').head? = some key.secret := by
    rw [splitOn_eq_singleton hsecret]
    rfl
  rw [loadKeys_appendConfig (by simp) hline]
  simp only [mem_set_iff hid hhead]
  -- The keys of the log once its last line is ended.
  have hended : AgreeApart key.id
        (foldKeys (value.elim [] fun log => (log.splitOn '\n').map stripReturn))
        (loadKeys value) ↔ ∀ log, value = some log → EndsKept log key.id := by
    cases value with
    | none => simp [AgreeApart, loadKeys]
    | some log => simpa using agreeApart_ended_iff log key.id
  rw [← hended]
  constructor
  · intro hkeys
    have hne : key.id ≠ [] := by
      intro hempty
      have hkey := (hkeys key).mpr (.inl rfl)
      rw [if_pos hempty] at hkey
      exact id_ne_nil_of_mem_foldKeys hkey hempty
    refine ⟨hne, fun k hk => ?_⟩
    have hiff := hkeys k
    rw [if_neg hne] at hiff
    have hother : k ≠ key := fun heq => hk (congrArg AccessKey.id heq)
    simpa [hk, hother] using hiff
  · rintro ⟨hne, hagree⟩ k
    rw [if_neg hne]
    refine or_congr_right (and_congr_left fun hk => hagree k hk)

theorem putKey_exact_plain :
    ∃ after, putKey (some "a\tx".toList) ⟨['b'], ['y']⟩ = .ok after ∧
      ∀ k, k ∈ loadKeys (some after) ↔
        k = ⟨['b'], ['y']⟩ ∨ k ∈ loadKeys (some "a\tx".toList) ∧ k.id ≠ ['b'] := by
  refine ⟨_, rfl, (putKey_exact_iff (some "a\tx".toList) ⟨['b'], ['y']⟩ _ rfl).mpr ⟨by decide, ?_⟩⟩
  rintro log hlog line hline
  cases hlog
  have hlast : (("a\tx".toList).splitOn '\n').getLast? = some ['a', '\t', 'x'] := by decide
  rw [hlast] at hline
  have hend := congrArg getLast? (Option.some.inj hline)
  simp at hend

/-- A key with an empty id is taken and not kept, and a put ends the line before it, so
that another key's secret loses the carriage return it ended in. -/
theorem putKey_loses_keys :
    (∃ after, putKey none ⟨[], ['s']⟩ = .ok after ∧ loadKeys (some after) = []) ∧
      ∃ after, putKey (some "a\tx\r".toList) ⟨['b'], ['y']⟩ = .ok after ∧
        loadKeys (some "a\tx\r".toList) = [⟨['a'], ['x', '\r']⟩] ∧
        loadKeys (some after) = [⟨['a'], ['x']⟩, ⟨['b'], ['y']⟩] :=
  ⟨⟨_, rfl, by decide⟩, ⟨_, rfl, by decide, by decide⟩⟩

end Synch.S3
