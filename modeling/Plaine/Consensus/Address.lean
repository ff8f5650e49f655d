import Plaine.Consensus.Bech32mCode
import Plaine.Consensus.Crypto
import Plaine.Lib.Text

/-!
# Addresses

The text of an address in `crypto.rs`: the payload of a key under one prefix.  The prefix and a
payload of twenty bytes always make a string.
-/

namespace Plaine.Consensus

open Plaine.Lib Bech32m

/-- `ADDRESS_HRP`. -/
def addressHrp : Bytes := [112, 108, 110, 101]

/-- A string of bytes below 128 as a text. -/
def textOf (s : Bytes) : Text := s.map fun b ↦ Char.ofNat b.toNat

/-- `crypto::encode_address`; the `expect` in it does not fail. -/
def encodeAddress (payload : Address) : Text :=
  match encodeBytes addressHrp payload.bytes with
  | .ok s => textOf s
  | .error _ => []

/-- `crypto::address_from_pubkey`. -/
def addressFromPubkey [Crypto] (pubkey : Arr 32) : Text := encodeAddress (addressPayload pubkey)

theorem length_convert8to5_address (payload : Address) :
    (convert8to5 payload.bytes).length = 32 := by
  obtain ⟨k, hk, hstream⟩ := stream_convert8to5 payload.bytes
  have hlen := congrArg List.length hstream
  rw [length_stream, List.length_append, length_stream, List.length_replicate,
    payload.length_eq] at hlen
  omega

/-- The prefix and a payload always encode. -/
theorem encodeBytes_address (payload : Address) :
    ∃ xs, Shape addressHrp xs ∧ encodeBytes addressHrp payload.bytes = .ok (join addressHrp xs) := by
  set data5 := convert8to5 payload.bytes with hdata
  have hlen : (data5 ++ checksum addressHrp data5).length = 38 := by
    rw [List.length_append, length_convert8to5_address, length_checksum]
    rfl
  refine ⟨data5 ++ checksum addressHrp data5, ?_, encodeFes_eq_ok.mpr ⟨?_, rfl⟩⟩
  all_goals exact {
    hrp_ne := by decide
    hrp_le := by decide
    hrp_chars := by decide +kernel
    digits := List.forall_mem_append.mpr
      ⟨digits_convert8to5 payload.bytes, digits_checksum addressHrp data5⟩
    checksum_le := by rw [hlen]; decide
    length_le := by rw [hlen]; decide }

theorem toNat_ofNat_byte (b : UInt8) : (Char.ofNat b.toNat).toNat = b.toNat := by
  revert b
  decide +kernel

/-- An address is a text of printable characters. -/
theorem addressFromPubkey_chars [Crypto] (pubkey : Arr 32) : addressFromPubkey pubkey ≠ [] ∧
    ∀ c ∈ addressFromPubkey pubkey, 33 ≤ c.toNat ∧ c.toNat ≤ 126 := by
  obtain ⟨xs, hshape, hok⟩ := encodeBytes_address (addressPayload pubkey)
  unfold addressFromPubkey encodeAddress
  rw [hok]
  refine ⟨fun hnil ↦ ?_, fun c hc ↦ ?_⟩
  · have hlen := congrArg List.length (List.map_eq_nil_iff.mp hnil)
    rw [length_join] at hlen
    exact absurd hlen (by simp)
  · obtain ⟨b, hb, rfl⟩ := List.mem_map.mp hc
    obtain ⟨⟨hlow, hhigh⟩, -⟩ := join_chars hshape b hb
    rw [toNat_ofNat_byte]
    exact ⟨hlow, hhigh⟩

end Plaine.Consensus
