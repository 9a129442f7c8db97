import Synch.Hash
import Synch.Records.Decoder
import Synch.Records.Space
import Synch.Support.Fallible
import Synch.Support.Terminated
import Synch.Support.Utf8

/-!
# Trie keys and paths

A file's key is `f:<space>/<path>` with a canonical path, and an object's is
`b:` with its root.  The record code and the verified core parse file keys on
their own; both accept exactly the keys a valid space and a canonical path
build.  Unicode normalization is a crate of its own and enters as a parameter.
-/

namespace Synch.Records

open List Synch.Support
open String (ofList_toList toList_ofList)

def maxKeyLen : Nat := 4096

/-- Canonical composition of text, and the test for it. -/
structure Unicode where
  isNfc : String → Bool
  nfc : String → String

/-- The test finds the texts that composition leaves alone, and what it composes
is composed. -/
structure Unicode.Documented (unicode : Unicode) : Prop where
  isNfc_iff : ∀ text, unicode.isNfc text = true ↔ unicode.nfc text = text
  isNfc_nfc : ∀ text, unicode.isNfc (unicode.nfc text) = true

/-- The bytes of text. -/
def utf8 (text : String) : List UInt8 :=
  text.toByteArray.data.toList

def isDot (component : List Char) : Bool :=
  component == ['.'] || component == ['.', '.']

/-- The loop that rebuilds a path from its components. -/
def pushComponents : List (List Char) → List Char → Except PathError (List Char)
  | [], out => .ok out
  | component :: components, out =>
    if component.isEmpty then .error .emptyComponent
    else if isDot component then .error .dotComponent
    else
      pushComponents components (if out.isEmpty then component else out ++ '/' :: component)

variable (unicode : Unicode)

/-- Composed text, left alone where it is composed already. -/
def Unicode.composed (path : String) : String :=
  if unicode.isNfc path then path else unicode.nfc path

/-- Normalizes a slash-separated relative path into canonical trie form. -/
def normalizePath (path : String) : Except PathError String :=
  if path.isEmpty then .error .empty
  else if path.toList.head? = some '/' then .error .leadingSlash
  else if path.toList.any isControl then .error .controlCharacter
  else
    let normalized := unicode.composed path
    match pushComponents (normalized.toList.splitOn '/') [] with
    | .error reason => .error reason
    | .ok out =>
      if out.isEmpty then .error .empty
      else if (String.ofList out).utf8ByteSize > maxKeyLen then .error .tooLong
      else .ok (String.ofList out)

def fileKeyBytes (space path : String) : List UInt8 :=
  102 :: 58 :: (utf8 space ++ 47 :: utf8 path)

def fileKey (space path : String) : Except KeyError (List UInt8) := do
  validateSpace space
  match normalizePath unicode path with
  | .error reason => throw (.path reason)
  | .ok path =>
    let key := fileKeyBytes space path
    if key.length > maxKeyLen then throw .tooLong else return key

/-- The bytes `f:<space>/`. -/
def spacePrefix (space : String) : Except KeyError (List UInt8) := do
  validateSpace space
  return 102 :: 58 :: (utf8 space ++ [47])

/-- The bytes `f:<space>/<dir>/` that the keys below a directory begin with. -/
def dirPrefix (space dir : String) : Except KeyError (List UInt8) := do
  let key ← spacePrefix space
  let dir := dir.toList.dropWhile (· == '/')
  if dir.isEmpty then return key
  else
    match normalizePath unicode (String.ofList (dir.reverse.dropWhile (· == '/')).reverse) with
    | .error reason => throw (.path reason)
    | .ok dir => return key ++ (utf8 dir ++ [47])

/-- The parts of some text before and after its first slash. -/
def splitOnce : List Char → Option (List Char × List Char)
  | [] => none
  | c :: text =>
    if c = '/' then some ([], text)
    else (splitOnce text).map fun (before, after) => (c :: before, after)

/-- Parses `f:<space>/<path>` back into its parts. -/
def parseFileKey (key : List UInt8) : Except KeyError (String × String) :=
  if key.length < 4 || key[0]? != some 102 || key[1]? != some 58 then .error .malformed
  else
    match textOf (key.drop 2) with
    | none => .error .malformed
    | some rest =>
      match splitOnce rest.toList with
      | none => .error .malformed
      | some (space, path) =>
        match validateSpace (String.ofList space) with
        | .error reason => .error reason
        | .ok () =>
          if path.isEmpty then .error .malformed
          else
            match normalizePath unicode (String.ofList path) with
            | .error _ => .error .malformed
            | .ok normalized =>
              if normalized != String.ofList path then .error .malformed
              else .ok (String.ofList space, normalized)

/-- The verified core's admission of a key's parts. -/
def Core.admitParts : List (List Char) → Option (String × String)
  | [] => none
  | space :: tail =>
    let path := ['/'].intercalate tail
    if !validSpace (String.ofList space) || path.isEmpty ||
        (String.ofList path).utf8ByteSize > 4096 || path.any control ||
        tail.any (fun p => p.isEmpty || isDot p) then none
    else some (String.ofList space, String.ofList path)

/-- The verified core's parse.  Composition is tested by its caller. -/
def Core.fileKey (key : ByteArray) : Option (String × String) :=
  match String.fromUTF8? key with
  | none => none
  | some text =>
    if !(['f', ':'].isPrefixOf text.toList) then none
    else Core.admitParts ((text.toList.drop 2).splitOn '/')

/-- Builds the trie key `b:<root>`. -/
def blobKey (root : Hash) : List UInt8 :=
  98 :: 58 :: root.bytes

theorem blobKey_injective {a b : Hash} (h : blobKey a = blobKey b) : a = b := by
  injection h with _ h
  injection h with _ h
  exact Hash.eq_of_bytes h

/-! ## Canonical paths -/

/-- What both parsers ask of a path, composition apart. -/
structure Canonical (path : String) : Prop where
  short : path.utf8ByteSize ≤ maxKeyLen
  plain : path.toList.any isControl = false
  components : ∀ c ∈ path.toList.splitOn '/', c ≠ [] ∧ isDot c = false

theorem intercalate_slash (component : List Char) (components : List (List Char)) :
    ['/'].intercalate (component :: components) = component ++ components.flatMap ('/' :: ·) := by
  induction components generalizing component with
  | nil => simp
  | cons next components ih =>
    rw [intercalate_cons_cons, ih, flatMap_cons, append_assoc]
    rfl

theorem pushComponents_of_ne_nil {components : List (List Char)} {out : List Char} (hout : out ≠ [])
    (h : ∀ c ∈ components, c ≠ [] ∧ isDot c = false) :
    pushComponents components out = .ok (out ++ components.flatMap ('/' :: ·)) := by
  induction components generalizing out with
  | nil => simp [pushComponents]
  | cons component components ih =>
    obtain ⟨hcomponent, hdot⟩ := h component mem_cons_self
    have hrest := fun c hc => h c (mem_cons_of_mem component hc)
    rw [pushComponents, if_neg (by simpa using hcomponent), if_neg (by simp [hdot]),
      if_neg (by simpa using hout), ih (by simp) hrest, flatMap_cons,
      append_assoc]

theorem components_of_pushComponents {components : List (List Char)} {out result : List Char}
    (h : pushComponents components out = .ok result) :
    ∀ c ∈ components, c ≠ [] ∧ isDot c = false := by
  induction components generalizing out with
  | nil => simp
  | cons component components ih =>
    rw [pushComponents] at h
    by_cases hempty : component.isEmpty = true
    · rw [if_pos hempty] at h
      cases h
    rw [if_neg hempty] at h
    by_cases hdot : isDot component = true
    · rw [if_pos hdot] at h
      cases h
    rw [if_neg hdot] at h
    intro c hc
    obtain rfl | hc := mem_cons.mp hc
    · exact ⟨by simpa using hempty, by simpa using hdot⟩
    · exact ih h c hc

/-- The loop over a path's components rebuilds the path. -/
theorem pushComponents_splitOn_iff (path out : List Char) :
    pushComponents (path.splitOn '/') [] = .ok out ↔
      (∀ c ∈ path.splitOn '/', c ≠ [] ∧ isDot c = false) ∧ out = path := by
  have hrebuild : (∀ c ∈ path.splitOn '/', c ≠ [] ∧ isDot c = false) →
      pushComponents (path.splitOn '/') [] = .ok path := by
    intro h
    have hjoin : ['/'].intercalate (path.splitOn '/') = path :=
      intercalate_splitOn '/'
    cases hsplit : path.splitOn '/' with
    | nil => exact absurd hsplit (splitOn_ne_nil '/' path)
    | cons component components =>
      rw [hsplit] at h hjoin
      obtain ⟨hcomponent, hdot⟩ := h component mem_cons_self
      rw [pushComponents, if_neg (by simpa using hcomponent), if_neg (by simp [hdot]),
        if_pos isEmpty_nil, pushComponents_of_ne_nil hcomponent
          fun c hc => h c (mem_cons_of_mem component hc),
        ← intercalate_slash, hjoin]
  constructor
  · intro h
    have hcomponents := components_of_pushComponents h
    rw [hrebuild hcomponents] at h
    cases h
    exact ⟨hcomponents, rfl⟩
  · rintro ⟨h, rfl⟩
    exact hrebuild h

variable {unicode : Unicode} {path space : String} {text : List Char} {key : List UInt8}

theorem normalizePath_eq_ok_iff {out : String} :
    normalizePath unicode path = .ok out ↔
      path ≠ "" ∧ path.toList.head? ≠ some '/' ∧ path.toList.any isControl = false ∧
      (∀ c ∈ (unicode.composed path).toList.splitOn '/', c ≠ [] ∧ isDot c = false) ∧
      (unicode.composed path).utf8ByteSize ≤ maxKeyLen ∧ out = unicode.composed path := by
  have hempty : path.isEmpty = true ↔ path = "" := String.isEmpty_iff
  constructor
  · intro h
    rw [normalizePath] at h
    split at h
    · cases h
    rename_i hne
    split at h
    · cases h
    rename_i hslash
    split at h
    · cases h
    rename_i hcontrol
    dsimp only at h
    split at h
    · cases h
    rename_i built hbuilt
    obtain ⟨hcomponents, rfl⟩ := (pushComponents_splitOn_iff _ _).mp hbuilt
    split at h
    · cases h
    split at h
    · cases h
    rename_i hshort
    cases h
    rw [ofList_toList] at hshort ⊢
    exact ⟨fun h => hne (hempty.mpr h), hslash, by simpa using hcontrol, hcomponents, by omega, rfl⟩
  · rintro ⟨hne, hslash, hcontrol, hcomponents, hshort, rfl⟩
    have hnonempty : ¬(unicode.composed path).toList.isEmpty = true := by
      intro hnil
      rw [List.isEmpty_iff] at hnil
      rw [hnil] at hcomponents
      exact (hcomponents [] (by simp)).1 rfl
    have hbuilt := (pushComponents_splitOn_iff (unicode.composed path).toList _).mpr
      ⟨hcomponents, rfl⟩
    rw [normalizePath, if_neg (fun h => hne (hempty.mp h)), if_neg hslash,
      if_neg (by simp [hcontrol])]
    change (match pushComponents ((unicode.composed path).toList.splitOn '/') [] with
      | .error reason => _
      | .ok out => _) = _
    rw [hbuilt]
    dsimp only
    rw [if_neg hnonempty, ofList_toList, if_neg (by omega)]

theorem head?_ne_slash_of_components {path : List Char}
    (h : ∀ c ∈ path.splitOn '/', c ≠ [] ∧ isDot c = false) : path.head? ≠ some '/' := by
  intro hhead
  cases path with
  | nil => cases hhead
  | cons c rest =>
    cases hhead
    have hsplit : ('/' :: rest).splitOn '/' = [] :: rest.splitOn '/' :=
      splitOn_append_cons_self_of_not_mem (by simp : '/' ∉ []) rest
    rw [hsplit] at h
    exact (h [] mem_cons_self).1 rfl

/-- A path is its own normal form exactly if it is canonical and composed. -/
theorem normalizePath_self_iff (hunicode : unicode.Documented) :
    normalizePath unicode path = .ok path ↔ Canonical path ∧ unicode.isNfc path = true := by
  rw [normalizePath_eq_ok_iff]
  constructor
  · rintro ⟨-, -, hcontrol, hcomponents, hshort, hself⟩
    have hnfc : unicode.isNfc path = true := by
      by_contra hnot
      rw [Unicode.composed, if_neg hnot] at hself
      exact hnot ((hunicode.isNfc_iff path).mpr hself.symm)
    rw [← hself] at hcomponents hshort
    exact ⟨⟨hshort, hcontrol, hcomponents⟩, hnfc⟩
  · rintro ⟨hcanonical, hnfc⟩
    rw [Unicode.composed, if_pos hnfc]
    refine ⟨?_, head?_ne_slash_of_components hcanonical.components, hcanonical.plain,
      hcanonical.components, hcanonical.short, rfl⟩
    rintro rfl
    exact (hcanonical.components [] (by simp)).1 rfl

/-! ## The keys both parsers accept -/

theorem utf8_append (a b : String) : utf8 (a ++ b) = utf8 a ++ utf8 b := by
  rw [utf8, String.toByteArray_append, ByteArray.data_append, Array.toList_append]
  rfl

theorem textOf_utf8 (text : String) : textOf (utf8 text) = some text :=
  textOf_toByteArray text

theorem eq_utf8_of_textOf {bytes : List UInt8} {text : String} (h : textOf bytes = some text) :
    bytes = utf8 text := by
  unfold textOf String.fromUTF8? at h
  split at h
  · cases h
    rfl
  · cases h

theorem utf8_ofList_slash (before after : List Char) :
    utf8 (String.ofList (before ++ '/' :: after)) =
      utf8 (String.ofList before) ++ 47 :: utf8 (String.ofList after) := by
  have hsplit : String.ofList (before ++ '/' :: after) =
      String.ofList before ++ ("/" ++ String.ofList after) := by
    apply String.toList_injective
    simp
  rw [hsplit, utf8_append, utf8_append]
  rfl

theorem splitOnce_eq_some_iff {before after : List Char} :
    splitOnce text = some (before, after) ↔ text = before ++ '/' :: after ∧ '/' ∉ before := by
  induction text generalizing before with
  | nil => simp [splitOnce]
  | cons c text ih =>
    by_cases hc : c = '/'
    · rw [splitOnce, if_pos hc]
      cases before with
      | nil => simp [hc, eq_comm]
      | cons d before =>
        simp only [Option.some.injEq, Prod.mk.injEq, nil_eq, cons_append,
          cons.injEq, mem_cons, not_or, reduceCtorEq, false_and, false_iff]
        rintro ⟨⟨hd, -⟩, hne, -⟩
        exact hne (hc ▸ hd)
    · rw [splitOnce, if_neg hc]
      cases before with
      | nil => simp [hc]
      | cons d before =>
        simp only [Option.map_eq_some_iff, Prod.exists, Prod.mk.injEq, cons.injEq,
          cons_append, mem_cons, not_or]
        constructor
        · rintro ⟨b, a, hsome, ⟨rfl, rfl⟩, rfl⟩
          obtain ⟨htext, hnot⟩ := ih.mp hsome
          exact ⟨⟨rfl, htext⟩, fun h => hc h.symm, hnot⟩
        · rintro ⟨⟨rfl, htext⟩, -, hnot⟩
          exact ⟨before, after, ih.mpr ⟨htext, hnot⟩, ⟨rfl, rfl⟩, rfl⟩

theorem slash_notMem_of_validSpace (h : validSpace space = true) : '/' ∉ space.toList := by
  intro hmem
  have hcontains : space.toList.contains '/' = true := by simpa using hmem
  rw [validSpace, hcontains] at h
  simp at h

theorem validateSpace_eq_ok_iff : validateSpace space = .ok () ↔ validSpace space = true := by
  rw [← isOk_validateSpace]
  cases validateSpace space with
  | error reason => simp [Except.isOk, Except.toBool]
  | ok value => simp [Except.isOk, Except.toBool]

theorem length_utf8_pos {text : String} (h : text ≠ "") : 0 < (utf8 text).length := by
  rw [utf8, length_toByteArray]
  have hsize : text.utf8ByteSize ≠ 0 := fun hzero =>
    h (String.utf8ByteSize_eq_zero_iff.mp hzero)
  omega

theorem eq_cons_cons_drop
    (h : ¬(key.length < 4 || key[0]? != some 102 || key[1]? != some 58) = true) :
    key = 102 :: 58 :: key.drop 2 := by
  simp only [Bool.or_eq_true, decide_eq_true_eq, bne_iff_ne, ne_eq, not_or, Decidable.not_not] at h
  obtain ⟨⟨hlong, hfirst⟩, hsecond⟩ := h
  cases key with
  | nil => cases hfirst
  | cons a key =>
    cases key with
    | nil => cases hsecond
    | cons b key =>
      cases hfirst
      cases hsecond
      rfl

theorem parseFileKey_eq_ok_iff (hunicode : unicode.Documented) :
    parseFileKey unicode key = .ok (space, path) ↔
      validSpace space = true ∧ Canonical path ∧ unicode.isNfc path = true ∧
        key = fileKeyBytes space path := by
  constructor
  · intro h
    rw [parseFileKey] at h
    split at h
    · cases h
    rename_i hshape
    split at h
    · cases h
    rename_i rest hrest
    split at h
    · cases h
    rename_i spaceChars pathChars hsplit
    split at h
    · cases h
    rename_i hspace
    split at h
    · cases h
    split at h
    · cases h
    rename_i normalized hnormalized
    split at h
    · cases h
    rename_i hsame
    cases h
    have hself : path = String.ofList pathChars := by simpa using hsame
    rw [← hself] at hnormalized
    obtain ⟨hcanonical, hnfc⟩ := (normalizePath_self_iff hunicode).mp hnormalized
    refine ⟨validateSpace_eq_ok_iff.mp hspace, hcanonical, hnfc, ?_⟩
    obtain ⟨hlist, -⟩ := splitOnce_eq_some_iff.mp hsplit
    have htext : rest = String.ofList (spaceChars ++ '/' :: pathChars) := by
      rw [← hlist, ofList_toList]
    have hbytes := eq_utf8_of_textOf hrest
    rw [htext, utf8_ofList_slash, ← hself] at hbytes
    rw [eq_cons_cons_drop hshape, hbytes]
    rfl
  · rintro ⟨hspace, hcanonical, hnfc, rfl⟩
    have hpathNil : path.toList ≠ [] := by
      intro hnil
      have hcomponents := hcanonical.components
      rw [hnil] at hcomponents
      exact (hcomponents [] (by simp)).1 rfl
    have hlong : (fileKeyBytes space path).length ≥ 4 := by
      have hpathLength : 0 < (utf8 path).length := by
        apply length_utf8_pos
        rintro rfl
        exact hpathNil rfl
      rw [fileKeyBytes, length_cons, length_cons, length_append, length_cons]
      omega
    have hrest : textOf ((fileKeyBytes space path).drop 2) =
        some (String.ofList (space.toList ++ '/' :: path.toList)) := by
      have hbytes := utf8_ofList_slash space.toList path.toList
      rw [ofList_toList, ofList_toList] at hbytes
      rw [← textOf_utf8, hbytes]
      rfl
    have hsplit : splitOnce (String.ofList (space.toList ++ '/' :: path.toList)).toList =
        some (space.toList, path.toList) := by
      rw [toList_ofList]
      exact splitOnce_eq_some_iff.mpr ⟨rfl, slash_notMem_of_validSpace hspace⟩
    have hshape : ¬((fileKeyBytes space path).length < 4 ||
        (fileKeyBytes space path)[0]? != some 102 ||
        (fileKeyBytes space path)[1]? != some 58) = true := by
      simp [fileKeyBytes] at hlong ⊢
      omega
    rw [parseFileKey, if_neg hshape, hrest]
    dsimp only
    rw [hsplit]
    dsimp only
    rw [ofList_toList, ofList_toList, validateSpace_eq_ok_iff.mpr hspace]
    rw [if_neg (by simpa using hpathNil), (normalizePath_self_iff hunicode).mpr ⟨hcanonical, hnfc⟩]
    simp

theorem slash_notMem_of_splitOnce_none (h : splitOnce text = none) : '/' ∉ text := by
  induction text with
  | nil => simp
  | cons c text ih =>
    rw [splitOnce] at h
    by_cases hc : c = '/'
    · rw [if_pos hc] at h
      cases h
    · rw [if_neg hc, Option.map_eq_none_iff] at h
      simp [ih h, Ne.symm hc]

theorem splitOn_of_splitOnce {before after : List Char}
    (h : splitOnce text = some (before, after)) :
    text.splitOn '/' = before :: after.splitOn '/' := by
  obtain ⟨rfl, hbefore⟩ := splitOnce_eq_some_iff.mp h
  exact splitOn_append_cons_self_of_not_mem hbefore after

/-- The check the core makes of a key's parts. -/
theorem coreCheck_iff (space path : List Char) :
    (!validSpace (String.ofList space) || path.isEmpty ||
        decide ((String.ofList path).utf8ByteSize > 4096) || path.any control ||
        (path.splitOn '/').any (fun p => p.isEmpty || isDot p)) = true ↔
      ¬(validSpace (String.ofList space) = true ∧ Canonical (String.ofList path)) := by
  have hcontrol : control = isControl := funext control_eq_isControl
  simp only [hcontrol, Bool.or_eq_true, Bool.not_eq_true', List.isEmpty_iff,
    decide_eq_true_eq, any_eq_true]
  constructor
  · rintro hbad ⟨hspace, hshort, hplain, hcomponents⟩
    rw [toList_ofList] at hplain hcomponents
    obtain (((hbad | rfl) | hlong) | ⟨c, hc, hctl⟩) | ⟨c, hc, hnil | hdot⟩ := hbad
    · rw [hspace] at hbad
      cases hbad
    · exact (hcomponents [] (by simp)).1 rfl
    · exact absurd hshort (Nat.not_le.mpr hlong)
    · exact any_eq_false.mp hplain c hc hctl
    · exact (hcomponents c hc).1 hnil
    · rw [(hcomponents c hc).2] at hdot
      cases hdot
  · intro hnot
    by_contra hok
    simp only [not_or] at hok
    obtain ⟨⟨⟨⟨hspace, -⟩, hshort⟩, hplain⟩, hcomponents⟩ := hok
    refine hnot ⟨by simpa using hspace, Nat.not_lt.mp hshort, ?_, ?_⟩
    · rw [toList_ofList, any_eq_false]
      exact fun c hc hctl => hplain ⟨c, hc, hctl⟩
    · rw [toList_ofList]
      intro c hc
      refine ⟨fun hnil => hcomponents ⟨c, hc, .inl hnil⟩, ?_⟩
      exact Bool.eq_false_iff.mpr fun hdot => hcomponents ⟨c, hc, .inr hdot⟩

/-- The core admits the text of a valid space, a slash and a canonical path. -/
theorem Core.admitParts_splitOn_iff {rest : List Char} :
    Core.admitParts (rest.splitOn '/') = some (space, path) ↔
      rest = space.toList ++ '/' :: path.toList ∧ validSpace space = true ∧ Canonical path := by
  cases hsplit : splitOnce rest with
  | none =>
    have hnone := slash_notMem_of_splitOnce_none hsplit
    rw [splitOn_eq_singleton hnone]
    constructor
    · intro h
      simp [Core.admitParts] at h
    · rintro ⟨rfl, -⟩
      exact absurd (by simp) hnone
  | some parts =>
    obtain ⟨before, after⟩ := parts
    obtain ⟨rfl, hbefore⟩ := splitOnce_eq_some_iff.mp hsplit
    have hjoin : ['/'].intercalate (after.splitOn '/') = after :=
      intercalate_splitOn '/'
    rw [splitOn_of_splitOnce hsplit, Core.admitParts]
    simp only [hjoin]
    constructor
    · intro h
      split at h
      · cases h
      rename_i hgood
      rw [coreCheck_iff, not_not] at hgood
      cases h
      rw [toList_ofList, toList_ofList]
      exact ⟨rfl, hgood⟩
    · rintro ⟨hparts, hspace, hpath⟩
      -- the space has no slash, so the text splits at one place
      have hagain : splitOnce (space.toList ++ '/' :: path.toList) =
          some (space.toList, path.toList) :=
        splitOnce_eq_some_iff.mpr ⟨rfl, slash_notMem_of_validSpace hspace⟩
      rw [← hparts, hsplit] at hagain
      cases hagain
      rw [if_neg]
      · rw [ofList_toList, ofList_toList]
      · rw [coreCheck_iff, not_not, ofList_toList, ofList_toList]
        exact ⟨hspace, hpath⟩

theorem utf8_key (space path : String) :
    utf8 (String.ofList ('f' :: ':' :: (space.toList ++ '/' :: path.toList))) =
      fileKeyBytes space path := by
  have hkind : String.ofList ('f' :: ':' :: (space.toList ++ '/' :: path.toList)) =
      "f:" ++ String.ofList (space.toList ++ '/' :: path.toList) := by
    apply String.toList_injective
    simp
  rw [hkind, utf8_append, utf8_ofList_slash, ofList_toList, ofList_toList]
  rfl

theorem Core.fileKey_eq_some_iff {key : ByteArray} :
    Core.fileKey key = some (space, path) ↔
      validSpace space = true ∧ Canonical path ∧ key.data.toList = fileKeyBytes space path := by
  have hdecode : String.fromUTF8? key = textOf key.data.toList := rfl
  constructor
  · intro h
    rw [Core.fileKey] at h
    split at h
    · cases h
    rename_i text htext
    split at h
    · cases h
    rename_i hstarts
    obtain ⟨hrest, hspace, hpath⟩ := Core.admitParts_splitOn_iff.mp h
    obtain ⟨rest, hstarts⟩ : ['f', ':'] <+: text.toList := by
      rw [← isPrefixOf_iff_prefix]
      simpa using hstarts
    rw [← hstarts] at hrest
    have hparts : rest = space.toList ++ '/' :: path.toList := hrest
    have hwhole : text = String.ofList ('f' :: ':' :: (space.toList ++ '/' :: path.toList)) := by
      apply String.toList_injective
      rw [toList_ofList, ← hparts, ← hstarts]
      rfl
    have hbytes : key.data.toList = utf8 text := eq_utf8_of_textOf htext
    exact ⟨hspace, hpath, by rw [hbytes, hwhole, utf8_key]⟩
  · rintro ⟨hspace, hpath, hkey⟩
    rw [Core.fileKey, hdecode, hkey, ← utf8_key, textOf_utf8]
    dsimp only
    rw [toList_ofList, if_neg (by simp [isPrefixOf])]
    exact Core.admitParts_splitOn_iff.mpr ⟨rfl, hspace, hpath⟩

/-- The two parsers accept the same keys with the same parts. -/
theorem parseFileKey_eq_ok_iff_core (hunicode : unicode.Documented) :
    parseFileKey unicode key = .ok (space, path) ↔
      Core.fileKey ⟨key.toArray⟩ = some (space, path) ∧ unicode.isNfc path = true := by
  rw [parseFileKey_eq_ok_iff hunicode, Core.fileKey_eq_some_iff]
  constructor
  · rintro ⟨hspace, hpath, hnfc, hkey⟩
    exact ⟨⟨hspace, hpath, hkey⟩, hnfc⟩
  · rintro ⟨⟨hspace, hpath, hkey⟩, hnfc⟩
    exact ⟨hspace, hpath, hnfc, hkey⟩

/-! ## Keys that are built -/

theorem fileKey_eq_ok_iff :
    fileKey unicode space path = .ok key ↔
      validSpace space = true ∧ ∃ normalized, normalizePath unicode path = .ok normalized ∧
        key = fileKeyBytes space normalized ∧ key.length ≤ maxKeyLen := by
  rw [fileKey, bind_eq_ok_iff]
  simp only [Unique.exists_iff, PUnit.default_eq_unit, validateSpace_eq_ok_iff]
  refine and_congr_right fun _ => ?_
  cases normalizePath unicode path with
  | error reason => simp [throw, throwThe, MonadExceptOf.throw]
  | ok normalized =>
    by_cases hlong : (fileKeyBytes space normalized).length > maxKeyLen
    · simp only [if_pos hlong]
      constructor
      · intro h
        cases h
      · rintro ⟨_, h, rfl, hfits⟩
        cases h
        omega
    · simp only [if_neg hlong]
      constructor
      · intro h
        cases h
        exact ⟨normalized, rfl, rfl, Nat.not_lt.mp hlong⟩
      · rintro ⟨_, h, rfl, -⟩
        cases h
        rfl

theorem slash_notMem_utf8 (h : validSpace space = true) : 47 ∉ utf8 space := by
  rw [utf8, toList_toByteArray, mem_flatMap]
  rintro ⟨c, hc, hbyte⟩
  by_cases hascii : c.toNat ≤ 127
  · rw [encodeChar_of_ascii hascii, mem_singleton] at hbyte
    have hnat := congrArg UInt8.toNat hbyte
    rw [UInt8.toNat_ofNat'] at hnat
    change 47 = c.toNat % 2 ^ 8 at hnat
    have hslash : c = '/' := Char.toNat_inj.mp (by change c.toNat = 47; omega)
    exact slash_notMem_of_validSpace h (hslash ▸ hc)
  · have hhigh := le_of_mem_encodeChar hascii hbyte
    exact absurd hhigh (by decide)

/-- The keys below a directory begin with its space. -/
theorem dirPrefix_eq_ok {dir : String} {bucket : List UInt8}
    (h : dirPrefix unicode space dir = .ok bucket) :
    validSpace space = true ∧ ∃ below, bucket = 102 :: 58 :: (utf8 space ++ 47 :: below) := by
  obtain ⟨start, hstart, h⟩ := bind_eq_ok_iff.mp h
  obtain ⟨⟨⟩, hspace, hkey⟩ := bind_eq_ok_iff.mp hstart
  cases hkey
  refine ⟨validateSpace_eq_ok_iff.mp hspace, ?_⟩
  dsimp only at h
  split at h
  · cases h
    exact ⟨[], rfl⟩
  · split at h
    · cases h
    · next normalized _ =>
      cases h
      exact ⟨utf8 normalized ++ [47], by simp⟩

/-- Building and reading keys invert each other, but for the length of the whole key that
only building bounds, and no key of another space is found below a directory. -/
theorem fileKey_round_trip (hunicode : unicode.Documented) :
    (∀ space path, validateSpace space = .ok () → normalizePath unicode path = .ok path →
      (fileKeyBytes space path).length ≤ maxKeyLen →
      ∃ key, fileKey unicode space path = .ok key ∧ parseFileKey unicode key = .ok (space, path)) ∧
    (∀ key space path, parseFileKey unicode key = .ok (space, path) →
      (key.length ≤ maxKeyLen → fileKey unicode space path = .ok key) ∧
      (∀ c ∈ path.toList.splitOn '/', c ≠ [] ∧ c ≠ ['.'] ∧ c ≠ ['.', '.']) ∧
      path.toList.head? ≠ some '/') ∧
    ∀ space other dir path bucket key, dirPrefix unicode space dir = .ok bucket →
      fileKey unicode other path = .ok key → bucket <+: key → other = space := by
  refine ⟨fun space path hspace hpath hfits => ?_, fun key space path hparse => ?_,
    fun space other dir path bucket key hdir hkey hbelow => ?_⟩
  · have hspace := validateSpace_eq_ok_iff.mp hspace
    obtain ⟨hcanonical, hnfc⟩ := (normalizePath_self_iff hunicode).mp hpath
    exact ⟨_, fileKey_eq_ok_iff.mpr ⟨hspace, path, hpath, rfl, hfits⟩,
      (parseFileKey_eq_ok_iff hunicode).mpr ⟨hspace, hcanonical, hnfc, rfl⟩⟩
  · obtain ⟨hspace, hcanonical, hnfc, rfl⟩ := (parseFileKey_eq_ok_iff hunicode).mp hparse
    have hpath := (normalizePath_self_iff hunicode).mpr ⟨hcanonical, hnfc⟩
    refine ⟨fun hfits => fileKey_eq_ok_iff.mpr ⟨hspace, path, hpath, rfl, hfits⟩,
      fun c hc => ?_, head?_ne_slash_of_components hcanonical.components⟩
    obtain ⟨hne, hdot⟩ := hcanonical.components c hc
    rw [isDot, Bool.or_eq_false_iff, beq_eq_false_iff_ne, beq_eq_false_iff_ne] at hdot
    exact ⟨hne, hdot⟩
  · obtain ⟨hspace, below, rfl⟩ := dirPrefix_eq_ok hdir
    obtain ⟨hother, normalized, -, rfl, -⟩ := fileKey_eq_ok_iff.mp hkey
    rw [fileKeyBytes, cons_prefix_cons, cons_prefix_cons,
      append_cons_prefix_iff (slash_notMem_utf8 hspace) (slash_notMem_utf8 hother)] at hbelow
    have htext := congrArg textOf hbelow.2.2.1
    rw [textOf_utf8, textOf_utf8] at htext
    exact (Option.some.inj htext).symm

/-- Text that is composed already. -/
def Unicode.plain : Unicode where
  isNfc _ := true
  nfc := id

theorem Unicode.plain_documented : Unicode.plain.Documented :=
  ⟨fun _ => ⟨fun _ => rfl, fun _ => rfl⟩, fun _ => rfl⟩

theorem fileKey_round_trip_sample :
    ∃ key, fileKey .plain "s" "a/b" = .ok key ∧ parseFileKey .plain key = .ok ("s", "a/b") :=
  (fileKey_round_trip Unicode.plain_documented).1 "s" "a/b" (by decide +kernel)
    (by decide +kernel) (by decide +kernel)

theorem length_utf8_replicate (n : Nat) :
    (utf8 (String.ofList (List.replicate n 'a'))).length = n := by
  rw [utf8, toList_toByteArray, toList_ofList, flatMap_replicate]
  simp [String.utf8EncodeChar]

theorem canonical_replicate {n : Nat} (hfits : n + 1 ≤ maxKeyLen) :
    Canonical (String.ofList (List.replicate (n + 1) 'a')) := by
  refine ⟨?_, ?_, ?_⟩
  · rw [← length_toByteArray]
    exact Nat.le_trans (Nat.le_of_eq (length_utf8_replicate _)) hfits
  · simp [isControl]
  · rw [toList_ofList, splitOn_eq_singleton (by simp)]
    intro c hc
    rw [mem_singleton.mp hc]
    simp [isDot, replicate_succ]

/-- A key is read whose path fits the bound but which itself is too long to be built. -/
theorem long_key_read_not_built :
    ∃ key space path, parseFileKey .plain key = .ok (space, path) ∧
      fileKey .plain space path = .error .tooLong := by
  obtain ⟨n, hn⟩ : ∃ n, n + 1 = maxKeyLen := ⟨4095, rfl⟩
  have hcanonical := canonical_replicate (Nat.le_of_eq hn)
  have hspace : validSpace "s" = true := by decide +kernel
  have hparse := (parseFileKey_eq_ok_iff Unicode.plain_documented).mpr
    ⟨hspace, hcanonical, rfl, rfl⟩
  have hpath := (normalizePath_self_iff Unicode.plain_documented).mpr ⟨hcanonical, rfl⟩
  have hlong : (fileKeyBytes "s" (String.ofList (List.replicate (n + 1) 'a'))).length >
      maxKeyLen := by
    rw [fileKeyBytes, length_cons, length_cons, length_append, length_cons, length_utf8_replicate]
    omega
  refine ⟨_, _, _, hparse, ?_⟩
  rw [fileKey, validateSpace_eq_ok_iff.mpr hspace, hpath]
  exact if_pos hlong

end Synch.Records
