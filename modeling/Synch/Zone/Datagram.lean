import Synch.Zone.Query

/-!
# Answers over UDP

A response that does not fit is cut down to a stub that still echoes the question,
so it fits if the name does.  The decoder sets no limit to a name.
-/

namespace Synch.Zone

open Synch.Support
open Synch.Transparency (encodedLength)

/-- The longest name of the protocol, in octets on the wire. -/
def maxNameLength : Nat := 255

/-- The octets a response to a message may have over UDP. -/
def allowance (packet : List UInt8) : Nat :=
  match decodeQuery packet with
  | .ok query => udpLimit query
  | .error _ => 512

/-- What the server sends back fits the query, and a name it accepts is no longer
than the protocol's. -/
structure Fits (pool : Pool) (apex : Name) (packet : List UInt8) : Prop where
  response : ∀ response, handlePacket pool apex packet .udp = some response →
    response.length ≤ allowance packet
  ceiling : allowance packet ≤ advertisedUdpSize
  plain : ∀ query, decodeQuery packet = .ok query → query.edns = none → allowance packet = 512
  name : ∀ query, decodeQuery packet = .ok query → encodedLength query.qname ≤ maxNameLength

theorem le_udpLimit (query : Query) :
    512 ≤ udpLimit query ∧ udpLimit query ≤ advertisedUdpSize := by
  unfold udpLimit advertisedUdpSize
  cases query.edns with
  | none => decide
  | some edns =>
    dsimp only
    split_ifs <;> omega

theorem allowance_le (packet : List UInt8) : allowance packet ≤ advertisedUdpSize := by
  unfold allowance
  split
  · exact (le_udpLimit _).2
  · decide

variable {packet : List UInt8} {query : Query}

theorem length_additional_le (query : Query) : query.additional.wire.length ≤ 11 := by
  unfold Query.additional
  cases query.edns with
  | none => decide
  | some edns => simp [optSection]

theorem length_errorStub (id rcode : Nat) : (errorStub id rcode).length = 12 := by
  simp [errorStub]

/-- The stub is the question with a header and an OPT. -/
theorem length_truncated_le (query : Query) :
    (encodeResponse query (truncated query)).length ≤ 27 + encodedLength query.qname := by
  have hopt := length_additional_le query
  rw [length_encodeResponse]
  change 16 + encodedLength query.qname + 0 + 0 + query.additional.wire.length ≤ _
  omega

theorem length_fitUdp_le (hname : encodedLength query.qname ≤ maxNameLength)
    (response : List UInt8) : (fitUdp query response).length ≤ udpLimit query := by
  have hlimit := (le_udpLimit query).1
  have hstub := length_truncated_le query
  unfold maxNameLength at hname
  unfold fitUdp
  split_ifs with hfits
  · exact hfits
  · omega

theorem encodedLength_of_spells {labels : Name} (hquery : decodeQuery packet = .ok query)
    (hspells : Spells packet 12 labels) : encodedLength query.qname = encodedLength labels := by
  obtain ⟨stop, hname⟩ := decodeName_of_decodeQuery hquery
  obtain ⟨labels', hspells', hqname⟩ := spells_of_decodeName hname
  rw [hqname, ← hspells.unique hspells']
  simp [encodedLength, Function.comp_def]

theorem length_le_allowance {pool : Pool} {apex : Name} {response : List UInt8}
    (hname : ∀ query, decodeQuery packet = .ok query → encodedLength query.qname ≤ maxNameLength)
    (h : handlePacket pool apex packet .udp = some response) :
    response.length ≤ allowance packet := by
  unfold handlePacket at h
  unfold allowance
  split at h
  · rename_i query hquery
    rw [hquery]
    split at h
    · rw [← Option.some.inj h]
      exact length_fitUdp_le (hname query hquery) _
    · have hlimit := (le_udpLimit query).1
      rw [← Option.some.inj h, length_errorStub]
      exact le_trans (by decide) hlimit
  · rename_i id hquery
    rw [hquery, ← Option.some.inj h, length_errorStub]
    change 12 ≤ 512
    decide
  · cases h

/-- Answers fit and names are short for those messages, of the ones the decoder
accepts, whose name is short as they spell it. -/
theorem fits_iff_name_short (pool : Pool) (apex : Name) (packet : List UInt8) :
    Fits pool apex packet ↔
      ∀ query, decodeQuery packet = .ok query → ∀ labels, Spells packet 12 labels →
        encodedLength labels ≤ maxNameLength := by
  constructor
  · intro h query hquery labels hspells
    rw [← encodedLength_of_spells hquery hspells]
    exact h.name query hquery
  · intro h
    have hname : ∀ query, decodeQuery packet = .ok query →
        encodedLength query.qname ≤ maxNameLength := by
      intro query hquery
      obtain ⟨stop, hdecoded⟩ := decodeName_of_decodeQuery hquery
      obtain ⟨labels, hspells, -⟩ := spells_of_decodeName hdecoded
      rw [encodedLength_of_spells hquery hspells]
      exact h query hquery labels hspells
    exact ⟨fun response hresponse => length_le_allowance hname hresponse, allowance_le packet,
      fun query hquery hedns => by simp [allowance, hquery, udpLimit, hedns], hname⟩

/-- Eight labels, 513 octets on the wire. -/
def longName : Name :=
  List.replicate 8 (List.replicate 63 97)

theorem long_name_overflows :
    encodedLength longName = 513 ∧
      ∃ query, decodeQuery (question longName typeA) = .ok query ∧ query.qname = longName ∧
        udpLimit query = 512 ∧
        ∃ response, handlePacket (.connection none) [] (question longName typeA) .udp =
          some response ∧ response.length = 529 := by
  have hlegible : ∀ label ∈ longName, Legible label := by
    intro label hlabel
    rw [List.eq_of_mem_replicate hlabel]
    refine ⟨by decide, by decide, isSome_textOf_of_ascii ?_, by decide⟩
    intro byte hbyte
    rw [List.eq_of_mem_replicate hbyte]
    decide
  have hquery := decodeQuery_question hlegible (show typeA < 65536 by decide)
  refine ⟨by decide, _, hquery, rfl, rfl, _, by rw [handlePacket, hquery], ?_⟩
  rw [fitUdp, if_neg]
  · rw [length_encodeResponse]
    decide
  · rw [answer, length_encodeResponse]
    decide

end Synch.Zone
