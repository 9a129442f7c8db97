import Synch.Zone.Stored

/-!
# Which name an answer is about

The server compares names through their dotted text and through their sort key.
Both read a label that holds their separator as several labels, and the decoder
lets such labels in.
-/

namespace Synch.Zone

open Synch.Membership Synch.Support
open Synch.Records (utf8)

/-- The zone holds a set of a type at exactly these labels. -/
def Table.Holds (table : Table) (owner : Name) (rtype : Nat) : Prop :=
  ∃ row ∈ table.rows, row.rrset.owner = owner ∧ row.rrset.rtype = rtype

/-- The zone holds an owner at these labels or below them. -/
def Table.Reaches (table : Table) (name : Name) : Prop :=
  ∃ row ∈ table.rows, name <:+ row.rrset.owner

structure AboutTheName (table : Table) (apex : Name) (query : Query) : Prop where
  answers : (answerReply (some table) apex query).answers.count ≠ 0 ↔
    table.Holds query.qname query.qtype
  nxdomain : (answerReply (some table) apex query).rcode = rcodeNxdomain ↔
    ¬table.Reaches query.qname

/-- What has to hold of the zone for an answer to be about the name: a name with
dots in its labels does not read as one that holds the type, a name with zero bytes
does not read as one that exists, and the set asked for has records, unless its
signature is asked for too. -/
structure ReadsAsAsked (table : Table) (query : Query) : Prop where
  dots : ¬Free dot query.qname → ¬table.Holds (cutAt dot query.qname) query.qtype
  zeros : ¬Free 0 query.qname → ¬table.Reaches (zeroCut query.qname)
  records : query.doBit = false → ∀ row ∈ table.rows, row.rrset.owner = query.qname →
    row.rrset.rtype = query.qtype → row.rrset.rdatas ≠ []

section Served

variable {table : Table} {apex : Name} {query : Query}

variable {rtype : Nat} {name : Name}

theorem Table.Holds.reaches {owner : Name} (h : table.Holds owner rtype) : table.Reaches owner := by
  obtain ⟨row, hrow, rfl, -⟩ := h
  exact ⟨row, hrow, List.suffix_refl _⟩

/-- No label of a name that exists holds a separator. -/
theorem Table.Reaches.free (hsound : table.Sound apex) (h : table.Reaches name) :
    Free dot name ∧ Free 0 name := by
  obtain ⟨row, hrow, hsuffix⟩ := h
  have hplain := hsound.plain hrow
  exact ⟨fun label hlabel => hplain.dots label (hsuffix.subset hlabel),
    fun label hlabel => hplain.zeros label (hsuffix.subset hlabel)⟩

/-- A lookup by text finds what is held at the labels the text reads as. -/
theorem lookupRow_toText_iff (hsound : table.Sound apex) (hname : [] ∉ name) {row : Row} :
    lookupRow table (toText name) rtype = some row ↔
      row ∈ table.rows ∧ row.rrset.owner = cutAt dot name ∧ row.rrset.rtype = rtype := by
  rw [lookupRow_eq_some_iff]
  refine and_congr_right fun hrow => and_congr_left fun _ => ?_
  rw [Row.name, eq_comm, toText_eq_iff hname (hsound.plain hrow), eq_comm]

theorem lookupRow_toText_eq_none_iff (hsound : table.Sound apex) (hname : [] ∉ name) :
    lookupRow table (toText name) rtype = none ↔ ¬table.Holds (cutAt dot name) rtype := by
  rw [Option.eq_none_iff_forall_ne_some, Table.Holds, not_exists]
  exact forall_congr' fun row => not_congr (lookupRow_toText_iff hsound hname)

theorem count_withSig_ne_zero_iff (row : Row) (doBit : Bool) :
    (withSig row.toStored doBit).count ≠ 0 ↔ row.rrset.rdatas ≠ [] ∨ doBit = true := by
  cases doBit with
  | true => simp [withSig, Section.append]
  | false => simp [withSig, Row.toStored]

/-- The answer section is not empty if the name reads as one that holds records of
the type. -/
theorem answers_ne_zero_iff (hsound : table.Sound apex) (hquery : query.Asks apex)
    (hname : [] ∉ query.qname) :
    (answerReply (some table) apex query).answers.count ≠ 0 ↔
      ∃ row ∈ table.rows, row.rrset.owner = cutAt dot query.qname ∧
        row.rrset.rtype = query.qtype ∧ (row.rrset.rdatas ≠ [] ∨ query.doBit = true) := by
  obtain ⟨row, hrow, hreply⟩ | ⟨hnone, -, _, -, hreply⟩ | ⟨hnone, -, _, -, hreply⟩ :=
    answerReply_cases hsound hquery
  · obtain ⟨hmem, howner, hrtype⟩ := (lookupRow_toText_iff hsound hname).mp hrow
    rw [hreply, count_withSig_ne_zero_iff]
    constructor
    · intro hrecords
      exact ⟨row, hmem, howner, hrtype, hrecords⟩
    · rintro ⟨other, hother, howner', hrtype', hrecords⟩
      have hsame := (lookupRow_toText_iff hsound hname).mpr ⟨hother, howner', hrtype'⟩
      rwa [Option.some.inj (hrow.symm.trans hsame)]
  all_goals
    rw [hreply]
    have hholds := (lookupRow_toText_eq_none_iff hsound hname).mp hnone
    refine iff_of_false (by simp) ?_
    rintro ⟨row, hrow, howner, hrtype, -⟩
    exact hholds ⟨row, hrow, howner, hrtype⟩

/-- The answer is NXDOMAIN if the name reads neither as one that holds the type nor
as one that exists. -/
theorem rcode_eq_nxdomain_iff (hsound : table.Sound apex) (hquery : query.Asks apex)
    (hname : [] ∉ query.qname) :
    (answerReply (some table) apex query).rcode = rcodeNxdomain ↔
      ¬table.Holds (cutAt dot query.qname) query.qtype ∧ ¬table.Reaches (zeroCut query.qname) := by
  have hreaches : existsAtOrBelow table query.qname = true ↔
      table.Reaches (zeroCut query.qname) := existsAtOrBelow_iff hsound query.qname
  have hholds : lookupRow table (toText query.qname) query.qtype = none ↔
      ¬table.Holds (cutAt dot query.qname) query.qtype :=
    lookupRow_toText_eq_none_iff hsound hname
  have hcodes : rcodeNoerror ≠ rcodeNxdomain := by decide
  rw [← hholds, ← hreaches]
  obtain ⟨row, hrow, hreply⟩ | ⟨-, hexists, _, -, hreply⟩ | ⟨hnone, hexists, _, -, hreply⟩ :=
    answerReply_cases hsound hquery
  · rw [hreply]
    exact iff_of_false hcodes fun h => by simp [hrow] at h
  · rw [hreply]
    exact iff_of_false hcodes fun h => h.2 hexists
  · rw [hreply]
    exact iff_of_true rfl ⟨hnone, by simp [hexists]⟩

theorem aboutTheName_iff (hsound : table.Sound apex) (hquery : query.Asks apex)
    (hname : [] ∉ query.qname) : AboutTheName table apex query ↔ ReadsAsAsked table query := by
  have hanswers := answers_ne_zero_iff hsound hquery hname
  have hnxdomain := rcode_eq_nxdomain_iff hsound hquery hname
  constructor
  · intro h
    have hreaches : table.Holds (cutAt dot query.qname) query.qtype ∨
        table.Reaches (zeroCut query.qname) → table.Reaches query.qname := by
      intro heither
      by_contra hnot
      obtain ⟨hholds, hbelow⟩ := hnxdomain.mp (h.nxdomain.mpr hnot)
      exact heither.elim hholds hbelow
    refine ⟨fun hdots hholds => ?_, fun hzeros hbelow => ?_, ?_⟩
    · exact hdots ((hreaches (.inl hholds)).free hsound).1
    · exact hzeros ((hreaches (.inr hbelow)).free hsound).2
    · intro hdo row hrow howner hrtype
      have hholds : table.Holds query.qname query.qtype := ⟨row, hrow, howner, hrtype⟩
      obtain ⟨other, hother, howner', hrtype', hrecords⟩ := hanswers.mp (h.answers.mpr hholds)
      rw [cutAt_of_free (hholds.reaches.free hsound).1] at howner'
      have hsame : row = other := row_eq_of_key_eq hrow hother
        (by rw [Row.name, Row.name, howner, howner']) (hrtype.trans hrtype'.symm)
      rw [hsame]
      simpa [hdo] using hrecords
  · intro h
    have hholds : table.Holds (cutAt dot query.qname) query.qtype →
        table.Holds query.qname query.qtype := by
      intro hcut
      by_cases hdots : Free dot query.qname
      · rwa [cutAt_of_free hdots] at hcut
      · exact absurd hcut (h.dots hdots)
    have hbelow : table.Reaches (zeroCut query.qname) → table.Reaches query.qname := by
      intro hcut
      by_cases hzeros : Free 0 query.qname
      · rwa [zeroCut_of_free hzeros] at hcut
      · exact absurd hcut (h.zeros hzeros)
    constructor
    · rw [hanswers]
      constructor
      · rintro ⟨row, hrow, howner, hrtype, -⟩
        exact hholds ⟨row, hrow, howner, hrtype⟩
      · intro hheld
        obtain ⟨row, hrow, howner, hrtype⟩ := hheld
        have hfree := (Table.Holds.reaches ⟨row, hrow, howner, hrtype⟩).free hsound
        refine ⟨row, hrow, by rw [cutAt_of_free hfree.1, howner], hrtype, ?_⟩
        cases hdo : query.doBit with
        | true => exact .inr rfl
        | false => exact .inl (h.records hdo row hrow howner hrtype)
    · rw [hnxdomain]
      constructor
      · rintro ⟨-, hnot⟩ hreaches
        rw [zeroCut_of_free (hreaches.free hsound).2] at hnot
        exact hnot hreaches
      · intro hnot
        exact ⟨fun hcut => hnot (hholds hcut).reaches, fun hcut => hnot (hbelow hcut)⟩

end Served

/-- In a published zone the answer to a decoded question is about its name exactly
if the name's separators do not read as another that exists. -/
theorem answers_about_name_iff
    {lib : KeyLib} {parseIp : String → Option (List UInt8)} {sign : Rrset → List UInt8}
    {input : ZoneInput} {table : Table} (hpublish : publish lib parseIp sign input = some table)
    {packet : List UInt8} {query : Query} (hdecode : decodeQuery packet = .ok query)
    (hquery : query.Asks input.zone.apex.labels) :
    AboutTheName table input.zone.apex.labels query ↔ ReadsAsAsked table query := by
  obtain ⟨published⟩ := published_of_publish hpublish
  obtain ⟨stop, hname⟩ := decodeName_of_decodeQuery hdecode
  exact aboutTheName_iff published.sound hquery (nonempty_of_decodeName hname)

/-! ## A label with a dot -/

/-- A nameserver two labels below the apex. -/
def hostName : ZoneName where
  labels := [[97], [98], utf8 "example"]
  valid_labels := by decide +kernel
  encoded_length := by decide +kernel

def hostInput : ZoneInput where
  zone := (sampleInput "").zone
  nsHosts := [⟨hostName, "192.0.2.1", ""⟩]
  txtNames := []
  rekorProofs := []
  cpEndpoints := []

def hostIp (text : String) : Option (List UInt8) :=
  if text = "192.0.2.1" then some [192, 0, 2, 1] else none

def hostTable : Option Table :=
  publish ed25519 hostIp (fun _ => []) hostInput

/-- One label `a.b` where the owner has two. -/
def dottedName : Name :=
  [[97, 46, 98], utf8 "example"]

def addressQuery (name : Name) : Query :=
  ⟨1, 0, false, name, typeA, classIn, none⟩

theorem hostTable_facts :
    ∃ table, hostTable = some table ∧
      (table.rows.all fun row => !dottedName.isSuffixOf row.rrset.owner) = true ∧
      (table.rows.all fun row => row.rrset.rdatas ≠ []) = true ∧
      (answerReply (some table) sampleApex.labels (addressQuery dottedName)).answers.count = 1 ∧
      (answerReply (some table) sampleApex.labels (addressQuery dottedName)).rcode =
        rcodeNoerror := by
  have hfacts : (hostTable.any fun table =>
      (table.rows.all fun row => !dottedName.isSuffixOf row.rrset.owner) ∧
      (table.rows.all fun row => row.rrset.rdatas ≠ []) ∧
      (answerReply (some table) sampleApex.labels (addressQuery dottedName)).answers.count = 1 ∧
      (answerReply (some table) sampleApex.labels (addressQuery dottedName)).rcode =
        rcodeNoerror) = true := by
    decide +kernel
  obtain ⟨table, htable, hholds⟩ := Option.any_eq_true _ _ |>.mp hfacts
  exact ⟨table, htable, of_decide_eq_true hholds⟩

theorem decodeQuery_address {name : Name} (h : name = dottedName ∨ name = hostName.labels) :
    decodeQuery (question name typeA) = .ok (addressQuery name) := by
  apply decodeQuery_question _ (by decide)
  have hexample : Legible (utf8 "example") :=
    legible_of_valid (sampleApex.valid_labels _ List.mem_cons_self)
  obtain rfl | rfl := h
  · have hdotted : Legible [97, 46, 98] :=
      ⟨by decide, by decide, isSome_textOf_of_ascii (by simp), by decide⟩
    simp [dottedName, hdotted, hexample]
  · exact fun label hlabel => legible_of_valid (hostName.valid_labels label hlabel)

theorem dotted_name_answered :
    ∃ table query, publish ed25519 hostIp (fun _ => []) hostInput = some table ∧
      decodeQuery (question dottedName typeA) = .ok query ∧
      query.Asks hostInput.zone.apex.labels ∧ query.qname = dottedName ∧
      (answerReply (some table) hostInput.zone.apex.labels query).answers.count = 1 ∧
      ¬table.Holds query.qname query.qtype ∧
      (answerReply (some table) hostInput.zone.apex.labels query).rcode = rcodeNoerror ∧
      ¬table.Reaches query.qname := by
  obtain ⟨table, htable, howners, -, hcount, hrcode⟩ := hostTable_facts
  have hreaches : ¬table.Reaches dottedName := by
    rintro ⟨row, hrow, hsuffix⟩
    have hnot := List.all_eq_true.mp howners row hrow
    rw [List.isSuffixOf_iff_suffix.mpr hsuffix] at hnot
    cases hnot
  exact ⟨table, addressQuery dottedName, htable, decodeQuery_address (.inl rfl),
    ⟨rfl, rfl, by decide, List.suffix_cons _ _⟩, rfl, hcount,
    fun hholds => hreaches hholds.reaches, hrcode, hreaches⟩

theorem answers_about_name_iff_host :
    ∃ table, publish ed25519 hostIp (fun _ => []) hostInput = some table ∧
      AboutTheName table hostInput.zone.apex.labels (addressQuery hostName.labels) := by
  obtain ⟨table, htable, -, hrecords, -⟩ := hostTable_facts
  have hasks : (addressQuery hostName.labels).Asks hostInput.zone.apex.labels :=
    ⟨rfl, rfl, by decide, [[97], [98]], rfl⟩
  refine ⟨table, htable, (answers_about_name_iff htable
    (decodeQuery_address (.inr rfl)) hasks).mpr ⟨?_, ?_, ?_⟩⟩
  · exact fun hdots => absurd hostName.plain.dots hdots
  · exact fun hzeros => absurd hostName.plain.zeros hzeros
  · intro _ row hrow _ _
    exact of_decide_eq_true (List.all_eq_true.mp hrecords row hrow)

end Synch.Zone
