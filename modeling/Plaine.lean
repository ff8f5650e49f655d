import Plaine.Storage.UndoWindow
import Plaine.Consensus.Merkle
import Plaine.Consensus.Bijection
import Plaine.Lib.BigEndian
import Plaine.Lib.WordBits
import Plaine.Lib.Scaled
import Plaine.Lib.Contiguous
import Plaine.Consensus.Work
import Plaine.Consensus.Compact
import Plaine.Consensus.Target
import Plaine.Consensus.Difficulty
import Plaine.Consensus.Reorg
import Plaine.P2p.Frame
import Plaine.P2p.Persist
import Plaine.P2p.Staging
import Plaine.P2p.BodyRun
import Plaine.Chain.Maturity
import Plaine.Chain.HeldBodies
import Plaine.Chain.Late
import Plaine.Chain.Depth
import Plaine.Chain.Own
import Plaine.Chain.Refill
import Plaine.Chain.Contending
import Plaine.Storage.Checkpoints
import Plaine.Storage.TxIndex
import Plaine.Node.Ring
import Plaine.Chain.PoolRun
import Plaine.Stratum.Nonce
import Plaine.Stratum.Lru
import Plaine.Stratum.Abuse
import Plaine.Stratum.BanReads
import Plaine.Stratum.Job
import Plaine.Stratum.Session
import Plaine.Stratum.Replies
import Plaine.Lib.Runs
import Plaine.Stratum.Pipeline
import Plaine.Stratum.Settled
import Plaine.Stratum.Seats
import Plaine.P2p.RelayRun
import Plaine.P2p.Refills
import Plaine.Wallet.Nonces
import Plaine.P2p.Redelivery
import Plaine.Chain.Executable
import Plaine.Chain.Damage
import Plaine.Node.AccountView
import Plaine.P2p.Bans
import Plaine.P2p.Progress
import Plaine.P2p.Rotation
import Plaine.P2p.Score
import Plaine.P2p.Slots
import Plaine.P2p.DepthGate
import Plaine.Node.Locator
import Plaine.Chain.Refusal
import Plaine.Chain.Eviction
import Plaine.Consensus.MerkleProof
import Plaine.Consensus.Checkpoint
import Plaine.Chain.Bookkeeping
import Plaine.Storage.Overwrite
import Plaine.Storage.Checksum
import Plaine.Storage.SideTables
import Plaine.Consensus.Hasher
import Plaine.Consensus.Bech32mCode
import Plaine.Stratum.Recency
import Plaine.Stratum.Issued
import Plaine.Stratum.Served
import Plaine.Node.Seal
import Plaine.Node.TxAllowance
import Plaine.Stratum.Busy
import Plaine.Lib.LongDivision
import Plaine.Stratum.Target
import Plaine.Wallet.Amount
import Plaine.Wallet.Backup
import Plaine.P2p.AddrSample
import Plaine.P2p.TxRetry
import Plaine.Wallet.KeyFile
import Plaine.Miner.Isocost
import Plaine.Miner.JobTrack
import Plaine.Miner.Lanes
import Plaine.Pow.Fill
import Plaine.Pow.Interp
import Plaine.Rpc.Server
