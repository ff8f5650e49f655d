import Plaine.Consensus.Blake3
import Plaine.Storage.Calls

/-!
# State, fingerprint and supply in step

Over any run of extends and reorgs whose blocks fit, the fingerprint is the digest of the state
table and the supply is that of the tip, in what is committed and in what is open.  Whatever is
rolled back is restored exactly, and the blocks just applied can be rolled back as long as the
undo ring holds them.
-/

namespace Plaine.Storage

open Plaine.Lib Plaine.Consensus

section

variable [Crypto]

/-- The undo rows of a view from one height up to another. -/
def Covered (v : View) (low high : Nat) : Prop :=
  ∀ k, low ≤ k → k < high → (v.undo.lookup k).isSome

variable {cfg : StoreConfig} {v v' : View} {bs blocks : List BlockToCommit} {b : BlockToCommit}
  {low : Nat}

/-- A block adds its row and takes at most the one that falls off the ring. -/
theorem Covered.appliesOne (h : Covered v low b.height)
    (happ : AppliesOne cfg b v v') :
    Covered v' (max low (b.height + 1 - undoRing)) (b.height + 1) := by
  intro k hlow hhigh
  obtain ⟨-, -, -, hundo⟩ := happ.spec
  rw [hundo]
  rcases eq_or_ne k b.height with rfl | hne
  · rw [if_pos rfl]
    rfl
  · rw [if_neg hne, if_neg (by omega)]
    exact h k (by omega) (by omega)

/-- A branch adds its rows and takes those that fall off the ring. -/
theorem Covered.applied (hchain : IsChain (bs ++ blocks)) (h : Covered v low bs.length)
    (happ : Applied cfg v blocks v') :
    Covered v' (max low ((bs ++ blocks).length - undoRing)) (bs ++ blocks).length := by
  induction happ with
  | nil =>
    rw [List.append_nil]
    exact fun k hlow ↦ h k (le_of_max_le_left hlow)
  | @snoc blocks b v' v'' _ hone ih =>
    rw [← List.append_assoc] at hchain ⊢
    obtain ⟨hbelow, hheight, -⟩ := IsChain.concat_iff.mp hchain
    have hcov := (hheight ▸ ih hbelow).appliesOne hone
    rw [hheight] at hcov
    intro k hlow hhigh
    rw [List.length_append, List.length_singleton] at hlow hhigh
    exact hcov k (by omega) hhigh

/-- The blocks an extend has applied. -/
theorem Grows.applied {db db' : Db} (h : Grows cfg v db blocks v' db') :
    Applied cfg v blocks v' := by
  induction h with
  | refl => exact .nil
  | block _ _ hone ih => exact .snoc ih hone
  | commit _ _ _ ih => exact ih
  | upkeep _ _ _ ih => exact ih

/-- The chain below the blocks a call applies. -/
def Call.base (bs : List BlockToCommit) : Call → List BlockToCommit
  | .reorg plan => bs.take (plan.forkHeight + 1)
  | .deepReorg plan => bs.take (plan.rewindTo + 1)
  | _ => bs

/-- The blocks a call applies. -/
def Call.applied : Call → List BlockToCommit
  | .extend blocks => blocks
  | .reorg plan => plan.apply
  | .deepReorg plan => plan.replay ++ plan.apply
  | _ => []

/-- A committer reached by shallow calls holds its chain. -/
theorem Reached.held {cfg : StoreConfig} {P : List BlockToCommit → Committer → Call → Prop}
    (hP : ∀ bs c call, P bs c call → call.Shallow) {c : Committer} {bs : List BlockToCommit}
    (h : Reached cfg P c bs) : Held c bs := by
  induction h with
  | fresh => exact held_fresh cfg
  | call _ hfit hcall ih => exact ih.call hfit (hP _ _ _ hcall)

variable {c : Committer} {call : Call}

/-- A call that goes through leaves its blocks on what is below them, with their undo rows as far
as the ring holds them. -/
theorem Live.applied (h : Live c bs) (hfit : call.Fits bs c) (hshallow : call.Shallow)
    (hok : (call.run c).result.isOk) :
    Live (call.run c).state (call.base bs ++ call.applied) ∧
      Covered (call.run c).state.view (max (call.base bs).length
        ((call.base bs ++ call.applied).length - undoRing))
        (call.base bs ++ call.applied).length := by
  have hvacuous : ∀ v n, Covered v n n := fun v n k hlow hhigh ↦ absurd hhigh (by omega)
  have heffect := call.effect h.tidy hfit.atRest hshallow
  generalize hr : (call.run c).result = r at heffect hok
  generalize (call.run c).state = c' at heffect
  cases heffect with
  | @grown _ _ done hpre hdone hne hg =>
    obtain rfl := hdone hok
    have hbase : call.base bs = bs ∧ call.applied = call.extended := by
      cases call with
      | deepReorg plan => exact hshallow.elim
      | reorg plan =>
        obtain ⟨e, rfl⟩ := hne plan rfl
        cases hok
      | extend _ | flush | setMode _ | pruneTo _ => exact ⟨rfl, rfl⟩
    rw [hbase.1, hbase.2]
    have hlive' := h.grown hfit.extended hg
    exact ⟨hlive', (hvacuous _ _).applied hlive'.chain hg.grows.applied⟩
  | reorg hcall htidy hre =>
    subst hcall
    obtain ⟨hchain, hshown, hsettled⟩ := h.reorgs hfit hre
    refine ⟨⟨htidy, hchain, hshown, _, _, hsettled, List.prefix_rfl, hshown⟩, ?_⟩
    cases hre with
    | intro _ _ _ _ hre _ _ _ =>
      obtain ⟨t, m, t₁, m₁, -, -, happ⟩ := hre.unwound
      exact (hvacuous _ _).applied hchain happ
  | failed => cases hok

/-- What is open of a live committer. -/
theorem Live.shows (h : Live c bs) : Shows c.tables c.info bs := h.shown.shows _ _ rfl

/-- In every state reached by extends and reorgs of blocks that fit the state they meet, what is
committed and what is open have the fingerprint of their state table and the supply of their tip.
Whatever blocks are rolled back, the state table, the fingerprint and the supply are those of any
store with the chain below.  The blocks a call has just applied are rolled back as long as the
undo ring holds them and their rows are not too long to be read. -/
theorem state_in_step {cfg : StoreConfig}
    (h : Reached cfg (fun _ _ call ↦ call.Shallow) c bs) :
    (∀ m, c.disk.db.tables.info = some m →
      m.fingerprint = stateDigest c.disk.db.tables.state ∧ m.issued = issuedThrough m.tip.height) ∧
    (c.poisoned = false →
      c.info.fingerprint = stateDigest c.tables.state ∧
      c.info.issued = issuedThrough c.info.tip.height ∧
      (∀ n t m, n ≤ bs.length →
        rollbackHeights (heightsDown n (bs.length - n)) c.tables c.info = (.ok t, m) →
        ∀ c₀, Reached cfg (fun _ _ call ↦ call.Shallow) c₀ (bs.take n) → c₀.poisoned = false →
          rowsOf t.state = rowsOf c₀.tables.state ∧ m.fingerprint = c₀.info.fingerprint ∧
            m.issued = c₀.info.issued) ∧
      ∀ call : Call, call.Fits bs c → call.Shallow → (call.run c).result.isOk →
        call.applied.length ≤ undoRing → (∀ b ∈ call.applied, b.undo.length ≤ maxUndoRecs) →
        ∃ t m, rollbackHeights (heightsDown (call.base bs).length call.applied.length)
            (call.run c).state.tables (call.run c).state.info = (.ok t, m) ∧
          rowsOf t.state = stateOf (call.base bs) ∧ m.fingerprint = stateDigest t.state ∧
          m.issued = issuedThrough ((call.base bs).length - 1)) := by
  have hheld := h.held fun _ _ _ hc ↦ hc
  refine ⟨fun m hm ↦ ?_, fun hpois ↦ ?_⟩
  · obtain ⟨v, bs₀, hsettled, -, hshown⟩ := hheld.stored
    rw [Tables.settled, hm, Option.map_some] at hsettled
    have hview := Option.some.inj hsettled
    have hshows := hshown.shows _ m hview
    refine ⟨hshows.fingerprint, ?_⟩
    rw [hshows.issued, ← hshown.height, ← hview]
    rfl
  have hlive := hheld.live hpois
  refine ⟨hlive.shows.fingerprint, ?_, ?_, ?_⟩
  · rw [hlive.shows.issued, ← hlive.shown.height]
    rfl
  · intro n t m hn hroll c₀ h₀ hpois₀
    have hlive₀ := (h₀.held fun _ _ _ hc ↦ hc).live hpois₀
    have hlen : (bs.take n).length = n := List.length_take_of_le hn
    have hshows : Shows t m (bs.take n) := by
      refine Shows.rollbackHeights (t := c.tables) (m := c.info) (l := bs.drop n) ?_ ?_ ?_
      · rw [List.take_append_drop]
        exact hlive.chain
      · rw [List.take_append_drop]
        exact hlive.shows
      · rw [hlen, List.length_drop]
        exact hroll
    have hrows := hshows.rows.trans hlive₀.shows.rows.symm
    refine ⟨hrows, ?_, hshows.issued.trans hlive₀.shows.issued.symm⟩
    rw [hshows.fingerprint, hlive₀.shows.fingerprint]
    exact AList.digest_congr fun a ↦ congrFun hrows a
  · intro call hfit hshallow hok hring hrecs
    obtain ⟨hlive', hcov⟩ := hlive.applied hfit hshallow hok
    rw [List.length_append] at hcov
    obtain ⟨t, m, hroll⟩ := hlive'.shows.exists_rollbackHeights hlive'.chain
      (fun k hlow hhigh ↦ hcov k (by omega) hhigh) hrecs
    have hshows := hlive'.shows.rollbackHeights hlive'.chain hroll
    exact ⟨t, m, hroll, hshows.rows, hshows.fingerprint, hshows.issued⟩

end

namespace Scene

/-- The primitives. -/
@[reducible]
def crypto : Crypto := .ofSignatures []

/-- The default configuration, with checkpoints every second block and two of them kept. -/
def config : StoreConfig where
  prune := false
  bodyRetainBlocks := 26280
  txindex := false
  stateCkptInterval := 2
  stateCkptKeep := 2
  ibdBatchBlocks := 64
  hashPrefixBytes := 8

/-- A block of a branch that leaves a balance to an account, or empties it. -/
def block (branch height : Nat) (rows : List (Nat × Nat × Option Nat)) : BlockToCommit where
  header := .ofNat 132 (branch * 256 + height)
  hash := .ofNat 32 (2 ^ 192 * (branch * 65536 + height))
  height
  body := [.ofNat height]
  deltas := rows.map fun (a, balance, _) ↦ ⟨.ofNat 20 a, .ofNat 128 balance, 0⟩
  undo := rows.map fun (a, _, prev) ↦ ⟨.ofNat 20 a, .ofNat 128 (prev.getD 0), 0, prev.isSome⟩
  issuedDelta := .ofNat 128 (blockReward height)
  chainwork := .ofNat 32 height
  txids := none

def genesis : BlockToCommit := block 0 0 []
def first : BlockToCommit := block 0 1 [(1, 200000, none)]

/-- A rival of the first block, and its child that empties the account again. -/
def rival : BlockToCommit := block 1 1 [(2, 150000, none), (3, 50000, none)]
def second : BlockToCommit := block 1 2 [(3, 0, some 50000), (2, 400000, some 150000)]

/-- The reorg from the first block to its rival. -/
def switch : ReorgPlan := ⟨0, [1], [rival, second]⟩

/-- A block without transactions fits any state. -/
theorem fits_block {branch height : Nat} (h : height ≤ u64Max) (st : Rows) :
    (block branch height []).Fits st := by
  refine ⟨h, rfl, List.nodup_nil, fun _ hmem ↦ (by cases hmem), ?_⟩
  show (BitVec.ofNat 128 (blockReward height)).toNat = blockReward height
  rw [BitVec.toNat_ofNat]
  refine Nat.mod_eq_of_lt ?_
  unfold blockReward subsidy
  split
  · exact Nat.two_pow_pos 128
  · decide

/-- A store with the first block. -/
def started : Committer :=
  letI := crypto
  ((Call.extend [genesis, first]).run (.fresh config)).state

/-- The store after the reorg. -/
def switched : Committer :=
  letI := crypto
  ((Call.reorg switch).run started).state

variable {P : List BlockToCommit → Committer → Call → Prop}

theorem reached_started (hP : P [] (.fresh config) (.extend [genesis, first])) :
    letI := crypto
    Reached config P started [genesis, first] := by
  let _ := crypto
  have hchain : (Call.extend [genesis, first]).chain [] (.fresh config) = [genesis, first] := by
    decide +kernel
  have h : Reached config P started ((Call.extend [genesis, first]).chain [] (.fresh config)) :=
    .call .fresh (.cons (fun _ ↦ by decide +kernel) (.cons (fun _ ↦ by decide +kernel) .nil)) hP
  exact hchain ▸ h

theorem reached_switched (hP : P [] (.fresh config) (.extend [genesis, first]))
    (hP' : P [genesis, first] started (.reorg switch)) : letI := crypto
    Reached config P switched [genesis, rival, second] := by
  let _ := crypto
  have hchain : (Call.reorg switch).chain [genesis, first] started = [genesis, rival, second] := by
    decide +kernel
  have hfits : (Call.reorg switch).Fits [genesis, first] started :=
    ⟨by decide, rfl, .cons (fun _ ↦ by decide +kernel) (.cons (fun _ ↦ by decide +kernel) .nil)⟩
  have h := Reached.call (reached_started hP) hfits hP'
  exact hchain ▸ h

end Scene

/-- The reorg of the sample leaves a store in step. -/
theorem state_in_step_switched : letI := Scene.crypto
    Scene.switched.poisoned = false ∧
      Scene.switched.info.fingerprint = stateDigest Scene.switched.tables.state ∧
      Scene.switched.info.issued = issuedThrough Scene.switched.info.tip.height ∧
      Scene.switched.info.tip.height = 2 := by
  let _ := Scene.crypto
  have hpois : Scene.switched.poisoned = false := by decide +kernel
  have h := (state_in_step (Scene.reached_switched trivial trivial)).2 hpois
  exact ⟨hpois, h.1, h.2.1, by decide +kernel⟩

end Plaine.Storage
