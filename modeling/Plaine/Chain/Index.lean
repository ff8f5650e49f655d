import Plaine.Chain.Types
import Plaine.Consensus.Asert
import Plaine.Lib.Ancestry
import Mathlib.Data.List.AList

/-!
# The header index

`index.rs`.  Nodes live in an arena and refer to each other by position; `canonical` lists
the positions of the chain from genesis to the tip.  The flag bits of a node are three
Booleans.  Where the source indexes out of bounds it panics; `node` gives a default there,
and `HeaderIndex.Wf` rules it out.

`forkchoice.rs`: which node of the arena to go for, the plan to get there, and the view of
the canonical chain the reorg predicate reads.
-/

namespace Plaine.Chain

open Plaine.Lib Plaine.Consensus

/-- `Node`.  `prev` is `none` for `NO_PARENT`. -/
structure Node where
  hash : Hash32
  prev : Option Nat
  height : Nat
  time : Nat
  bits : UInt32
  cumWork : Work
  branchBaseHeight : Nat
  powOk : Bool
  invalid : Bool
  haveBody : Bool
deriving DecidableEq

instance : Inhabited Node := ⟨⟨zeroHash, none, 0, 0, 0, 0, 0, false, false, false⟩⟩

/-- `HeaderIndex`. -/
structure HeaderIndex where
  nodes : List Node
  byHash : AList fun _ : Hash32 ↦ Nat
  canonical : List Nat

namespace HeaderIndex

/-- `HeaderIndex::new`. -/
def new : HeaderIndex := ⟨[], ∅, []⟩

/-- `HeaderIndex::node`. -/
def node (index : HeaderIndex) (idx : Nat) : Node := index.nodes.getD idx default

/-- The parent link of a node. -/
def prev (index : HeaderIndex) (idx : Nat) : Option Nat := (index.node idx).prev

/-- `HeaderIndex::index_of`. -/
def indexOf (index : HeaderIndex) (hash : Hash32) : Option Nat := index.byHash.lookup hash

/-- `HeaderIndex::contains`. -/
def contains (index : HeaderIndex) (hash : Hash32) : Bool := (index.indexOf hash).isSome

/-- `HeaderIndex::tip_index`. -/
def tipIndex (index : HeaderIndex) : Nat := index.canonical.getLastD 0

/-- `HeaderIndex::tip`. -/
def tip (index : HeaderIndex) : Node := index.node index.tipIndex

/-- `HeaderIndex::tip_height`. -/
def tipHeight (index : HeaderIndex) : Nat := index.tip.height

/-- `HeaderIndex::canonical_at`. -/
def canonicalAt (index : HeaderIndex) (height : Nat) : Option Node :=
  index.canonical[height]?.map index.node

/-- `HeaderIndex::is_canonical`. -/
def isCanonical (index : HeaderIndex) (idx : Nat) : Bool :=
  index.canonical[(index.node idx).height]? = some idx

/-- The height of the last canonical block below a child of `parent`. -/
def childBase (index : HeaderIndex) (parent : Nat) : Nat :=
  if index.isCanonical parent then (index.node parent).height
  else (index.node parent).branchBaseHeight

section

variable [Crypto]

/-- `HeaderIndex::insert_genesis`, on an empty index. -/
def insertGenesis (r : HeaderRec) (work : Work) : HeaderIndex where
  nodes := [{
    hash := r.hash
    prev := none
    height := r.height
    time := r.time
    bits := r.bits
    cumWork := work
    branchBaseHeight := r.height
    powOk := true
    invalid := false
    haveBody := true }]
  byHash := AList.insert r.hash 0 ∅
  canonical := [0]

/-- The node `HeaderIndex::insert` makes. -/
def childNode (index : HeaderIndex) (r : HeaderRec) (parent : Nat) (cumWork : Work)
    (powOk : Bool) : Node where
  hash := r.hash
  prev := some parent
  height := r.height
  time := r.time
  bits := r.bits
  cumWork := cumWork
  branchBaseHeight := index.childBase parent
  powOk := powOk
  invalid := (index.node parent).invalid
  haveBody := false

/-- `HeaderIndex::insert`. -/
def insert (index : HeaderIndex) (r : HeaderRec) (parent : Nat) (cumWork : Work) (powOk : Bool) :
    Nat × HeaderIndex :=
  match index.indexOf r.hash with
  | some existing => (existing, index)
  | none =>
    let idx := index.nodes.length
    (idx, { index with
      nodes := index.nodes ++ [index.childNode r parent cumWork powOk]
      byHash := index.byHash.insert r.hash idx })

end

/-- Change one node. -/
def modify (index : HeaderIndex) (idx : Nat) (f : Node → Node) : HeaderIndex :=
  { index with nodes := index.nodes.modify idx f }

/-- `HeaderIndex::set_have_body`. -/
def setHaveBody (index : HeaderIndex) (idx : Nat) : HeaderIndex :=
  index.modify idx fun n ↦ { n with haveBody := true }

/-- `HeaderIndex::set_invalid_flag`. -/
def setInvalidFlag (index : HeaderIndex) (idx : Nat) : HeaderIndex :=
  index.modify idx fun n ↦ { n with invalid := true }

/-- One round of `mark_invalid`'s forward pass. -/
def poison (index : HeaderIndex) (idx : Nat) : HeaderIndex :=
  match index.prev idx with
  | none => index
  | some p => if (index.node p).invalid then index.setInvalidFlag idx else index

/-- `HeaderIndex::mark_invalid`: children come after their parents, so one forward pass
poisons every descendant. -/
def markInvalid (index : HeaderIndex) (idx : Nat) : HeaderIndex :=
  (List.range' (idx + 1) (index.nodes.length - (idx + 1))).foldl poison
    (index.setInvalidFlag idx)

/-- One round of `set_canonical`'s forward pass. -/
def rebase (index : HeaderIndex) (idx : Nat) : HeaderIndex :=
  let base := match index.prev idx with
    | none => (index.node idx).height
    | some p => index.childBase p
  index.modify idx fun n ↦ { n with branchBaseHeight := base }

/-- `HeaderIndex::set_canonical`: with the chain replaced, every branch base is computed
again, parents first. -/
def setCanonical (index : HeaderIndex) (chain : List Nat) : HeaderIndex :=
  (List.range index.nodes.length).foldl rebase { index with canonical := chain }

/-- The loop of `ancestry`, from `cur` up. -/
def ancestryFrom (index : HeaderIndex) : Nat → Nat → List Nat
  | 0, cur => [cur]
  | fuel + 1, cur =>
    match index.prev cur with
    | none => [cur]
    | some p => ancestryFrom index fuel p ++ [cur]

/-- `HeaderIndex::ancestry`.  A lineage is no longer than the arena. -/
def ancestry (index : HeaderIndex) (idx : Nat) : List Nat :=
  index.ancestryFrom index.nodes.length idx

/-- The loop of `ancestor_at`, from `cur` up. -/
def ancestorFrom (index : HeaderIndex) (height : Nat) : Nat → Nat → Option Nat
  | 0, _ => none
  | fuel + 1, cur =>
    if (index.node cur).height = height then some cur
    else if (index.node cur).height < height then none
    else (index.prev cur).bind (ancestorFrom index height fuel)

/-- `HeaderIndex::ancestor_at`. -/
def ancestorAt (index : HeaderIndex) (idx height : Nat) : Option Nat :=
  index.ancestorFrom height index.nodes.length idx

end HeaderIndex

/-! ## Fork choice -/

/-- `Plan`. -/
structure Plan where
  forkHeight : Nat
  rollback : List Nat
  apply : List Nat
  depth : Nat
deriving DecidableEq

/-- Whether `select_best` prefers `n` to `b`: most work wins, ties break on the lower hash. -/
def Node.Beats (n b : Node) : Prop :=
  b.cumWork < n.cumWork ∨ (n.cumWork = b.cumWork ∧ n.hash < b.hash)

instance (n b : Node) : Decidable (n.Beats b) :=
  inferInstanceAs (Decidable (_ ∨ _))

/-- `select_best_excluding`. -/
def selectBestExcluding (index : HeaderIndex) (skip : List Nat) : Nat :=
  (List.range index.nodes.length).foldl (fun best i ↦
    if i ∈ skip then best
    else
      let n := index.node i
      if n.invalid ∨ ¬n.powOk then best
      else if n.Beats (index.node best) then i else best) index.tipIndex

/-- `select_best`. -/
def selectBest (index : HeaderIndex) : Nat := selectBestExcluding index []

/-- The loop of `plan_reorg`: the nodes from the first one off the canonical chain down to
`cur`, and the node the loop ends on. -/
def branchFrom (index : HeaderIndex) : Nat → Nat → List Nat × Nat
  | 0, cur => ([], cur)
  | fuel + 1, cur =>
    if index.isCanonical cur then ([], cur)
    else
      match index.prev cur with
      | none => ([cur], cur)
      | some p =>
        let (branch, fork) := branchFrom index fuel p
        (branch ++ [cur], fork)

/-- `plan_reorg`. -/
def planReorg (index : HeaderIndex) (best : Nat) : Option Plan :=
  if best = index.tipIndex then none
  else
    let (branch, fork) := branchFrom index (index.nodes.length + 1) best
    let forkHeight := (index.node fork).height
    let tipHeight := index.tipHeight
    some {
      forkHeight
      rollback := (List.range' (forkHeight + 1) (tipHeight - forkHeight)).reverse
      apply := branch
      depth := tipHeight - forkHeight }

/-- What a view says of a node.  The outer `none` is a failed `expect`. -/
def headerInfoOf (powLimit : Nat) (n : Node) : Option HeaderInfo := do
  let target ← expandBits n.bits powLimit
  return { height := n.height, hash := n.hash, time := n.time, target }

/-- `ArenaView`. -/
def arenaView (index : HeaderIndex) (powLimit : Nat) : ChainView where
  len := index.tipHeight + 1
  headerAt height := (index.canonicalAt height).bind (headerInfoOf powLimit)
  cumulativeWork := index.tip.cumWork

end Plaine.Chain
