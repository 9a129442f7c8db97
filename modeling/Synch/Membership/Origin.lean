import Synch.Support.Fallible

/-!
# Origins

The stable identity that owns a trie: a device key, or a member label within a
membership domain.  Labels and domains are normalized before they are compared,
and normalizing them again changes nothing.
-/

namespace Synch.Membership

open List Synch.Support

/-- Why the text of an origin was refused. -/
inductive OriginError where
  | label (original : String)
  | domain (original : String)
deriving DecidableEq, Repr

def memberChar (c : Char) : Bool :=
  ('a' ≤ c && c ≤ 'z') || ('0' ≤ c && c ≤ '9') || c == '-'

variable (s : String)

def labelValid : Bool :=
  !s.isEmpty && s.utf8ByteSize ≤ 63 && s.toList.all memberChar

def domainLabelValid : Bool :=
  labelValid s && s.toList.head? != some '-' && s.toList.getLast? != some '-'

def domainValid : Bool :=
  !s.isEmpty && s.utf8ByteSize ≤ 253 &&
    (s.toList.splitOn '.').all fun label => domainLabelValid (String.ofList label)

/-- Lower case, for ASCII letters only. -/
def lower : String :=
  String.ofList (s.toList.map Char.toLower)

def normalizeLabel : Except OriginError String :=
  let normalized := lower s
  if labelValid normalized then .ok normalized else .error (.label s)

/-- The text without the dots at its end. -/
def trimDots : String :=
  String.ofList (s.toList.reverse.dropWhile (· == '.')).reverse

def normalizeDomain : Except OriginError String :=
  let normalized := lower (trimDots s)
  if domainValid normalized then .ok normalized else .error (.domain s)

/-- A label within a domain, both normalized. -/
def namedOrigin (id domain : String) : Except OriginError (String × String) := do
  let id ← normalizeLabel id
  let domain ← normalizeDomain domain
  return (domain, id)

/-! ## Normal forms -/

theorem toLower_toLower (c : Char) : c.toLower.toLower = c.toLower := by
  by_cases hupper : c.val ≥ 'A'.val ∧ c.val ≤ 'Z'.val
  · have hval : c.toLower.val = c.val + 32 := by
      delta Char.toLower
      rw [dif_pos hupper]
      rfl
    have hnot : ¬(c.toLower.val ≥ 'A'.val ∧ c.toLower.val ≤ 'Z'.val) := by
      rw [hval]
      rintro ⟨-, hle⟩
      obtain ⟨hge, hle'⟩ := hupper
      simp only [ge_iff_le, UInt32.le_iff_toNat_le, UInt32.toNat_add] at hge hle hle'
      change 65 ≤ c.val.toNat at hge
      change c.val.toNat ≤ 90 at hle'
      change (c.val.toNat + 32) % 4294967296 ≤ 90 at hle
      omega
    exact dif_neg hnot
  · have hself : c.toLower = c := dif_neg hupper
    rw [hself, hself]

theorem lower_lower (s : String) : lower (lower s) = lower s := by
  simp [lower, Function.comp_def, toLower_toLower]

variable {s label domain : String}

theorem normalizeLabel_eq_ok_iff :
    normalizeLabel s = .ok label ↔ lower s = label ∧ labelValid label = true := by
  rw [normalizeLabel, ite_eq_ok_iff, and_comm]
  exact and_congr_right fun h => by rw [h]

theorem normalizeLabel_of_normalized (h : normalizeLabel s = .ok label) :
    normalizeLabel label = .ok label := by
  obtain ⟨rfl, hvalid⟩ := normalizeLabel_eq_ok_iff.mp h
  exact normalizeLabel_eq_ok_iff.mpr ⟨lower_lower s, hvalid⟩

theorem normalizeDomain_eq_ok_iff :
    normalizeDomain s = .ok domain ↔ lower (trimDots s) = domain ∧ domainValid domain = true := by
  rw [normalizeDomain, ite_eq_ok_iff, and_comm]
  exact and_congr_right fun h => by rw [h]

/-- The last label of a valid domain is not empty, so no dot ends the domain. -/
theorem getLast?_ne_dot_of_domainValid (h : domainValid s = true) :
    s.toList.getLast? ≠ some '.' := by
  intro hdot
  obtain ⟨front, hfront⟩ := getLast?_eq_some_iff.mp hdot
  have hsplit : (s.toList.splitOn '.') = front.splitOn '.' ++ [[]] := by
    rw [hfront, splitOn, splitOnP_append_cons front [] (by simp)]
    rfl
  have hlabels : (s.toList.splitOn '.').all
      (fun label => domainLabelValid (String.ofList label)) = true := by
    rw [domainValid, Bool.and_eq_true] at h
    exact h.2
  rw [hsplit, all_append] at hlabels
  simp [domainLabelValid, labelValid] at hlabels

theorem trimDots_of_domainValid (h : domainValid s = true) : trimDots s = s := by
  have hlast := getLast?_ne_dot_of_domainValid h
  rw [← head?_reverse] at hlast
  have hkept : s.toList.reverse.dropWhile (· == '.') = s.toList.reverse := by
    cases hrev : s.toList.reverse with
    | nil => rfl
    | cons c rest =>
      rw [hrev] at hlast
      have hc : (c == '.') = false := by simpa using hlast
      rw [dropWhile_cons_of_neg (by simp [hc])]
  rw [trimDots, hkept, reverse_reverse, String.ofList_toList]

theorem normalizeDomain_of_normalized (h : normalizeDomain s = .ok domain) :
    normalizeDomain domain = .ok domain := by
  obtain ⟨rfl, hvalid⟩ := normalizeDomain_eq_ok_iff.mp h
  exact normalizeDomain_eq_ok_iff.mpr ⟨by rw [trimDots_of_domainValid hvalid, lower_lower], hvalid⟩

/-- Parts that are normalized already make an origin as they are. -/
theorem namedOrigin_of_normalized {text whole : String} (hlabel : normalizeLabel text = .ok label)
    (hdomain : normalizeDomain whole = .ok domain) :
    namedOrigin label domain = .ok (domain, label) := by
  rw [namedOrigin, normalizeLabel_of_normalized hlabel, normalizeDomain_of_normalized hdomain]
  rfl

end Synch.Membership
