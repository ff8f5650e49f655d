import Plaine.Lib.Bytes

/-!
# Protocol constants

The frozen numbers of `consensus/src/constants.rs` that the modelled functions read.
-/

namespace Plaine.Consensus

open Plaine.Lib

/-- `[u8; 32]`. -/
abbrev Hash32 := Arr 32

/-- A 20-byte account address. -/
abbrev Address := Arr 20

/-- An encoded block header. -/
abbrev RawHeader := Arr 132

/-- `u128`. -/
abbrev U128 := BitVec 128

/-- `u128::MAX`. -/
def u128Max : Nat := 2 ^ 128 - 1

/-- `u64::MAX`. -/
def u64Max : Nat := 2 ^ 64 - 1

theorem toNat_le_u64Max (x : UInt64) : x.toNat ≤ u64Max := by
  have := x.toNat_lt
  unfold u64Max
  omega

/-- `CHAIN_ID`, the four ASCII bytes of PLNE. -/
def chainId : Bytes := [0x50, 0x4C, 0x4E, 0x45]

def blockTimeSecs : Nat := 60

/-- Flat subsidy from block 1 on; genesis pays nothing. -/
def blockSubsidy : Nat := 200000

def headerBytes : Nat := 132

def versionBase : Nat := 0x20000000

def txTypeCoinbase : UInt8 := 0x00

def txTypeTransfer : UInt8 := 0x01

def txTypeAnnouncement : UInt8 := 0x02

def txTransferBytes : Nat := 157

def authorNoteHeaderBytes : Nat := 4

def announcementMinPayloadBytes : Nat := 1

def announcementMaxPayloadBytes : Nat := 1024

def txAnnouncementPrefixBytes : Nat := 60

/-- The unsigned prefix and the ed25519 signature. -/
def txAnnouncementOverheadBytes : Nat := txAnnouncementPrefixBytes + 64

def coinbasePrefixBytes : Nat := 61

def bodyCountBytes : Nat := 4

def bodyTxlenBytes : Nat := 4

def bodyMinRecordBytes : Nat := bodyTxlenBytes + 1

def merkleFlagPair : UInt8 := 0x00

def merkleFlagDup : UInt8 := 0x01

/-- `TX_ROOT_EMPTY`, the root of no transactions at all. -/
def txRootEmpty : Hash32 := Arr.zero 32

def feeFloorMile : Nat := 1

/-- Strictly above `maxReorgDepth`: a reward is spendable only once it is buried deeper
than any reorg we allow. -/
def coinbaseMaturity : Nat := 60

/-- `b"PLNE-tx-v1"`. -/
def domainTxSign : Bytes := [0x50, 0x4C, 0x4E, 0x45, 0x2D, 0x74, 0x78, 0x2D, 0x76, 0x31]

/-- `b"PLNE-note-v1"`. -/
def domainNoteSign : Bytes :=
  [0x50, 0x4C, 0x4E, 0x45, 0x2D, 0x6E, 0x6F, 0x74, 0x65, 0x2D, 0x76, 0x31]

/-- `b"PLNE-txid"`. -/
def domainTxid : Bytes := [0x50, 0x4C, 0x4E, 0x45, 0x2D, 0x74, 0x78, 0x69, 0x64]

/-- `b"PLNE-leaf"`. -/
def domainMerkleLeaf : Bytes := [0x50, 0x4C, 0x4E, 0x45, 0x2D, 0x6C, 0x65, 0x61, 0x66]

/-- `b"PLNE-node"`. -/
def domainMerkleNode : Bytes := [0x50, 0x4C, 0x4E, 0x45, 0x2D, 0x6E, 0x6F, 0x64, 0x65]

def asertHalfLifeSecs : Nat := 3600

def asertTargetSpacingSecs : Nat := 60

def asertAnchorInterval : Nat := 100000

def maxFutureDriftSecs : Nat := 600

def medianTimeSpan : Nat := 11

def maxReorgDepth : Nat := 30

/-- `b"plaine-checkpoint-v1|"`. -/
def checkpointMsgPrefix : Bytes :=
  [0x70, 0x6C, 0x61, 0x69, 0x6E, 0x65, 0x2D, 0x63, 0x68, 0x65, 0x63, 0x6B, 0x70, 0x6F, 0x69,
    0x6E, 0x74, 0x2D, 0x76, 0x31, 0x7C]

def checkpointSunsetHeight : Nat := 525960

def authorNoteRecordVersion : UInt8 := 0x01

def authorNoteMaxBytes : Nat := 256

def maxBlockBytes : Nat := 1048576

def maxTxBytes : Nat := 8192

def maxTxsPerBlock : Nat := 4096

def maxHeadersPerMsg : Nat := 2000

def merkleMaxDepth : Nat := 12

/-- `SPEC 3`: a proof covers every leaf of a block. -/
theorem maxTxsPerBlock_le_merkleMaxDepth : maxTxsPerBlock ≤ 2 ^ merkleMaxDepth := by decide

/-- The order on which maturity rests, `SPEC 4`. -/
theorem maxReorgDepth_lt_coinbaseMaturity : maxReorgDepth < coinbaseMaturity := by decide

end Plaine.Consensus
