import Plaine.Consensus.Constants

/-!
# Hashing and signatures

Everything the protocol hashes goes through one function, BLAKE3-256 (`blake3.rs`), and
everything it verifies through `ed25519_dalek`'s strict verification.  The two are the
fields of `Crypto`; the rest of the model is stated over any instance, so nothing below
depends on how a digest is computed.

A streaming hash of several pieces is the hash of their concatenation.
-/

namespace Plaine.Consensus

open Plaine.Lib

/-- The primitives of `crypto.rs`. -/
class Crypto where
  /-- `blake3::hash`. -/
  blake3 : Bytes → Hash32
  /-- Whether `VerifyingKey::from_bytes` accepts the key. -/
  validKey : Arr 32 → Bool
  /-- `VerifyingKey::verify_strict` on key, message and signature. -/
  verifyStrict : Arr 32 → Bytes → Arr 64 → Bool

/-- `Network`; there is only one. -/
inductive Network where
  | main
deriving DecidableEq

def Network.chainId : Network → Bytes
  | .main => Consensus.chainId

/-- `SigError`. -/
inductive SigError where
  | invalidPubkey
  | invalidSignature
deriving DecidableEq

variable [Crypto]

/-- `crypto::header_hash`. -/
def headerHash (raw : RawHeader) : Hash32 := Crypto.blake3 raw.bytes

/-- `crypto::txid`. -/
def txidOf (canonicalUnsigned : Bytes) : Hash32 :=
  Crypto.blake3 (domainTxid ++ canonicalUnsigned)

/-- `crypto::signing_message`. -/
def signingMessage (network : Network) (fromPub : Arr 32) (toAddr : Address) (amount fee : U128)
    (nonce : UInt64) : Hash32 :=
  Crypto.blake3 (domainTxSign ++ network.chainId ++ fromPub.bytes ++ toAddr.bytes ++
    leBytes 16 amount.toNat ++ leBytes 16 fee.toNat ++ leBytes 8 nonce.toNat)

/-- `crypto::announcement_signing_message_explicit_length`. -/
def announcementSigningMessage (network : Network) (fromPub : Arr 32) (fee : U128)
    (nonce : UInt64) (encoding : UInt8) (length : Nat) (payload : Bytes) : Hash32 :=
  Crypto.blake3 (domainNoteSign ++ network.chainId ++ fromPub.bytes ++
    leBytes 16 fee.toNat ++ leBytes 8 nonce.toNat ++ [encoding] ++ leBytes 2 length ++ payload)

/-- `crypto::merkle_leaf`. -/
def merkleLeaf (txBytes : Bytes) : Hash32 := Crypto.blake3 (domainMerkleLeaf ++ txBytes)

/-- `crypto::merkle_node`. -/
def merkleNode (left right : Hash32) (duplicated : Bool) : Hash32 :=
  Crypto.blake3 (domainMerkleNode ++
    [if duplicated then merkleFlagDup else merkleFlagPair] ++ left.bytes ++ right.bytes)

/-- `crypto::address_payload`: the first 20 bytes of the key's digest. -/
def addressPayload (pubkey : Arr 32) : Address :=
  Arr.ofSlice 20 0 (Crypto.blake3 pubkey.bytes).bytes

/-- `crypto::verify_signature`. -/
def verifySignature (pubkey : Arr 32) (message : Bytes) (sig : Arr 64) : Except SigError Unit :=
  if Crypto.validKey pubkey then
    if Crypto.verifyStrict pubkey message sig then .ok () else .error .invalidSignature
  else .error .invalidPubkey

/-! ## Merkle root -/

/-- One level of `merkle::merkle_root`: neighbours are paired, an odd node out is paired
with itself under the duplication flag. -/
def merkleLevel : List Hash32 → List Hash32
  | a :: b :: l => merkleNode a b false :: merkleLevel l
  | [a] => [merkleNode a a true]
  | [] => []

/-- The `while level.len() > 1` loop of `merkle::merkle_root`.  Every pass at least halves
the level up to rounding, so a fuel of its length is enough. -/
def merkleLoop : Nat → List Hash32 → Hash32
  | _, [] => txRootEmpty
  | _, [root] => root
  | 0, root :: _ => root
  | fuel + 1, level => merkleLoop fuel (merkleLevel level)

/-- `merkle::merkle_root`. -/
def merkleRoot (leaves : List Hash32) : Hash32 := merkleLoop leaves.length leaves

/-- `merkle::tx_root`. -/
def txRootOf (txs : List Bytes) : Hash32 := merkleRoot (txs.map merkleLeaf)

end Plaine.Consensus
