import Plaine.P2p.Engine
import Mathlib.Data.Nat.Find

/-!
# The depth gate

The context gate of `gate/g2_context.rs`, and what `on_headers` of `sync/mod.rs` gives it: the height
of the parent for the depth of the fork, and a lookup of the anchor for the anchor's place on the
branch.  A branch may rewrite the chain from its last common ancestor with the tip on, which lies no
higher than the parent.
-/

namespace Plaine.P2p

open Plaine.Lib Plaine.Consensus

/-- The headers of a sync engine, with what it sees of the chain and the tip of that. -/
structure KnownHeaders where
  engine : SyncEngine
  around : Around
  tip : HeaderRec
  height_eq : around.tipHeight = tip.height

namespace KnownHeaders

variable (k : KnownHeaders)

/-- The headers that the engine finds. -/
def lookup (h : Hash32) : Option HeaderRec := k.engine.lookup k.around h

/-- What the context gate is told in `on_headers`. -/
def contextParams (parent hdr : HeaderRec) : ContextParams :=
  k.engine.contextParams k.around parent hdr

/-! ## The tree -/

/-- A header, or one above it. -/
inductive Above (a : HeaderRec) : HeaderRec → Prop
  | refl : Above a a
  | step {parent hdr : HeaderRec} : k.lookup hdr.prevHash = some parent →
      hdr.height = parent.height + 1 → Above a parent → Above a hdr

/-- The headers known are a tree: each is filed under its hash and stands on one that is known, the
tip is one of them, and the anchor names the height of its block. -/
structure Rooted (root : HeaderRec) : Prop where
  genesis : root.height = 0
  parent {h : Hash32} {r : HeaderRec} : k.lookup h = some r → r ≠ root →
    ∃ p, k.lookup r.prevHash = some p ∧ r.height = p.height + 1
  hash {h : Hash32} {r : HeaderRec} : k.lookup h = some r → r.hash = h
  tip : k.lookup k.tip.hash = some k.tip
  anchor {a : Anchor} {r : HeaderRec} : k.around.anchor = some a → k.lookup a.hash = some r →
    r.height = a.height

/-- The last common ancestor of a branch and the chain. -/
structure ForksAt (parent fork : HeaderRec) : Prop where
  branch : k.Above fork parent
  chain : k.Above fork k.tip
  last {a : HeaderRec} : k.Above a parent → k.Above a k.tip → a.height ≤ fork.height

/-- The chain's rule: a branch may leave the chain so many blocks below the tip, or it carries the
anchor. -/
def MayFork (parent : HeaderRec) : Prop :=
  (∃ fork, k.ForksAt parent fork ∧ k.tip.height - fork.height ≤ maxReorgDepth) ∨
    ∃ a r, k.around.anchor = some a ∧ k.Above r parent ∧ k.lookup a.hash = some r

variable {k} {root parent hdr a : HeaderRec}

theorem Above.height_le (h : k.Above a hdr) : a.height ≤ hdr.height := by
  induction h with
  | refl => exact le_rfl
  | step _ hheight _ ih => exact ih.trans (hheight ▸ Nat.le_succ _)

/-- What is closed under parents holds of the headers above. -/
theorem Above.closed {P : HeaderRec → Prop} (h : k.Above a hdr)
    (hP : ∀ r, P r → ∀ p, k.lookup r.prevHash = some p → P p) (hhdr : P hdr) : P a := by
  induction h with
  | refl => exact hhdr
  | step hlookup _ _ ih => exact ih (hP _ hhdr _ hlookup)

theorem Rooted.above_genesis (hk : k.Rooted root) {h : Hash32} (hhdr : k.lookup h = some hdr) :
    k.Above root hdr := by
  generalize hn : hdr.height = n
  induction n generalizing h hdr with
  | zero =>
    by_contra hnot
    obtain ⟨p, -, hheight⟩ := hk.parent hhdr fun heq ↦ hnot (heq ▸ .refl)
    rw [hn] at hheight
    cases hheight
  | succ n ih =>
    obtain ⟨p, hp, hheight⟩ := hk.parent hhdr fun heq ↦ by
      rw [heq, hk.genesis] at hn
      cases hn
    rw [hn] at hheight
    exact .step hp (hn.trans hheight) (ih hp (Nat.succ.inj hheight).symm)

/-- A branch of the tree has a last common ancestor with the chain. -/
theorem Rooted.exists_forksAt (hk : k.Rooted root) {h : Hash32}
    (hparent : k.lookup h = some parent) : ∃ fork, k.ForksAt parent fork := by
  classical
  let Common (n : Nat) : Prop := ∃ a, k.Above a parent ∧ k.Above a k.tip ∧ a.height = n
  have hroot : Common root.height :=
    ⟨root, hk.above_genesis hparent, hk.above_genesis hk.tip, rfl⟩
  obtain ⟨fork, hbranch, hchain, hheight⟩ :=
    Nat.findGreatest_spec (hk.above_genesis hparent).height_le hroot
  refine ⟨fork, hbranch, hchain, fun {a} ha ha' ↦ ?_⟩
  rw [hheight]
  exact Nat.le_findGreatest ha.height_le ⟨a, ha, ha', rfl⟩

/-- The gate lets pass what the rule allows. -/
theorem Rooted.passes_of_mayFork (hk : k.Rooted root) (hnext : hdr.height = parent.height + 1)
    (hfork : k.MayFork parent) : (k.contextParams parent hdr).forkDepth ≤ maxReorgDepth ∨
      (k.contextParams parent hdr).branchContainsAnchor := by
  rcases hfork with ⟨fork, hforks, hdepth⟩ | ⟨a, r, ha, habove, hr⟩
  · left
    calc k.around.tipHeight - parent.height
        = k.tip.height - parent.height := by rw [k.height_eq]
      _ ≤ k.tip.height - fork.height := Nat.sub_le_sub_left hforks.branch.height_le _
      _ ≤ maxReorgDepth := hdepth
  · right
    have hle : a.height ≤ hdr.height := by
      rw [← hk.anchor ha hr, hnext]
      exact habove.height_le.trans (Nat.le_succ _)
    have hsome : (k.engine.lookup k.around a.hash).isSome := by
      rw [show k.engine.lookup k.around a.hash = some r from hr]
      rfl
    show k.engine.branchHasAnchor k.around hdr = true
    rw [SyncEngine.branchHasAnchor, ha, Option.any_some]
    exact decide_eq_true ⟨hle, hsome⟩

/-- A header that passes the other checks passes the gate if it passes the last one. -/
theorem checkContext_eq_ok {rule : BitsRule} {p q : ContextParams} {r : HeaderRec}
    (hother : checkContext rule parent hdr q = .ok r) (hnow : p.nowUnix = q.nowUnix)
    (hmtp : p.mtp = q.mtp) : checkContext rule parent hdr p = .ok r ↔
      p.forkDepth ≤ maxReorgDepth ∨ p.branchContainsAnchor := by
  cases htarget : rule.expand hdr.bits with
  | none =>
    simp only [checkContext, htarget, Except.bind_eq_ok] at hother
    obtain ⟨_, -, _, -, _, -, hthrow⟩ := hother
    cases hthrow
  | some target =>
    simp only [checkContext, htarget, Except.bind_eq_ok] at hother ⊢
    obtain ⟨_, hprev, _, hheight, _, hbits, _, hpast, _, hfuture, _, -, hr⟩ := hother
    rw [← hnow] at hfuture
    rw [← hmtp] at hpast
    constructor
    · rintro ⟨_, -, _, -, _, -, _, -, _, -, _, hdepth, -⟩
      exact Except.require_eq_ok.mp hdepth
    · intro hdepth
      exact ⟨_, hprev, _, hheight, _, hbits, _, hpast, _, hfuture, (),
        Except.require_eq_ok.mpr hdepth, hr⟩

theorem height_of_checkContext {rule : BitsRule} {p : ContextParams} {r : HeaderRec}
    (h : checkContext rule parent hdr p = .ok r) : hdr.height = parent.height + 1 := by
  simp only [checkContext, Except.bind_eq_ok, Except.require_eq_ok] at h
  obtain ⟨_, -, _, hheight, -⟩ := h
  exact hheight

/-- A header that passes the other checks passes the depth check exactly when its branch may fork,
unless the branch is let pass for the height of the parent or for an anchor that is not its own. -/
theorem depth_gate_iff (hk : k.Rooted root) {r : HeaderRec}
    (hother : checkContext k.around.bits parent hdr
      { k.contextParams parent hdr with forkDepth := 0 } = .ok r) :
    (checkContext k.around.bits parent hdr (k.contextParams parent hdr) = .ok r ↔
        k.MayFork parent) ↔
      k.MayFork parent ∨ maxReorgDepth < k.tip.height - parent.height ∧
        k.engine.branchHasAnchor k.around hdr = false := by
  have hnext := height_of_checkContext hother
  have hgate := checkContext_eq_ok (p := k.contextParams parent hdr) hother rfl rfl
  have hdepth : (k.contextParams parent hdr).forkDepth = k.tip.height - parent.height := by
    rw [← k.height_eq]
    rfl
  have hanchor : (k.contextParams parent hdr).branchContainsAnchor =
      k.engine.branchHasAnchor k.around hdr := rfl
  have hfork := hk.passes_of_mayFork hnext
  rw [hgate]
  rw [hdepth, hanchor] at hfork ⊢
  constructor
  · intro hagree
    by_cases hmay : k.MayFork parent
    · exact .inl hmay
    · obtain ⟨hdeep, hnone⟩ := not_or.mp (mt hagree.mp hmay)
      exact .inr ⟨Nat.lt_of_not_le hdeep, Bool.eq_false_of_not_eq_true hnone⟩
  · rintro (hmay | ⟨hdeep, hnone⟩)
    · exact iff_of_true (hfork hmay) hmay
    · have hrefused : ¬(k.tip.height - parent.height ≤ maxReorgDepth ∨
          k.engine.branchHasAnchor k.around hdr = true) :=
        not_or.mpr ⟨Nat.not_le.mpr hdeep, Bool.not_eq_true _ ▸ hnone⟩
      exact iff_of_false hrefused (mt hfork hrefused)

end KnownHeaders

namespace LongBranch

/-- Bits that are never wrong. -/
def rule : BitsRule := ⟨fun _ ↦ none, fun _ ↦ some zeroHash⟩

/-- A header of a hash, on another one. -/
def block (hash prev height : Nat) : HeaderRec :=
  ⟨height, .ofNat 32 hash, .ofNat 32 prev, 1000 + height, 0, zeroHash, Arr.zero headerBytes⟩

/-- A chain of 34 blocks. -/
def chain : List HeaderRec := (List.range 34).map fun h ↦ block (h + 1) h h

/-- A branch of three headers on genesis. -/
def branch : List HeaderRec := [block 101 1 1, block 102 101 2, block 103 102 3]

/-- The chain, as it is seen. -/
def around : Around where
  now := 0
  nowUnix := 2000
  tipHeight := 33
  header h := chain.find? fun r ↦ r.hash = h
  anchor := none
  verifyAllPow := false
  bits := rule
  quarantined _ := false
  pow _ := true
  affordable := true
  capacity := ⟨0, 0⟩
  stop := none
  during := []

def headers : KnownHeaders where
  engine := branch.foldl SyncEngine.remember (.new 0 zeroHash 0)
  around
  tip := block 34 33 33
  height_eq := rfl

/-- What is known was known before or is remembered. -/
theorem known_foldl_remember {l : List HeaderRec} {e : SyncEngine} {h : Hash32} {r : HeaderRec}
    (hr : (l.foldl SyncEngine.remember e).known.lookup h = some r) :
    e.known.lookup h = some r ∨ r ∈ l ∧ r.hash = h := by
  induction l generalizing e with
  | nil => exact .inl hr
  | cons x l ih =>
    rcases ih hr with hr | ⟨hmem, hhash⟩
    · rcases Fifo.lookup_insert hr with ⟨rfl, rfl⟩ | ⟨-, hr⟩
      · exact .inr ⟨List.mem_cons_self, rfl⟩
      · exact .inl hr
    · exact .inr ⟨List.mem_cons_of_mem x hmem, hhash⟩

/-- What is looked up is on the chain or on the branch. -/
theorem mem_of_lookup {h : Hash32} {r : HeaderRec} (hr : headers.lookup h = some r) :
    r ∈ branch ++ chain ∧ r.hash = h := by
  rw [KnownHeaders.lookup] at hr
  rcases Option.or_eq_some_iff.mp hr with hr | ⟨-, hr⟩
  · rcases Option.or_eq_some_iff.mp hr with hr | ⟨-, hr⟩
    · rcases Option.or_eq_some_iff.mp hr with hr | ⟨-, hr⟩
      · cases hr
      · rcases known_foldl_remember hr with hr | ⟨ha, hhash⟩
        · cases hr
        · exact ⟨List.mem_append_left _ ha, hhash⟩
    · cases hr
  · have hr : chain.find? (fun r ↦ r.hash = h) = some r := hr
    have hhash := List.find?_some hr
    exact ⟨List.mem_append_right _ (List.mem_of_find?_eq_some hr), by simpa using hhash⟩

theorem rooted : headers.Rooted (block 1 0 0) where
  genesis := rfl
  parent {h r} hr hne := by
    have hall : ∀ r ∈ branch ++ chain, r ≠ block 1 0 0 →
        (headers.lookup r.prevHash).any (fun p ↦ r.height = p.height + 1) = true := by
      decide +kernel
    have hsome := hall r (mem_of_lookup hr).1 hne
    cases hp : headers.lookup r.prevHash with
    | none =>
      rw [hp] at hsome
      cases hsome
    | some p =>
      rw [hp] at hsome
      exact ⟨p, rfl, of_decide_eq_true hsome⟩
  hash hr := (mem_of_lookup hr).2
  tip := by decide +kernel
  anchor h := by cases h

/-- The chain and the branch have genesis in common, and nothing else. -/
theorem not_mayFork : ¬headers.MayFork (block 103 102 3) := by
  rintro (⟨fork, hforks, hdepth⟩ | ⟨a, -, ha, -⟩)
  · have hparents : (∀ r ∈ chain, ∀ p ∈ headers.lookup r.prevHash, p ∈ chain) ∧
        ∀ r ∈ block 1 0 0 :: branch, ∀ p ∈ headers.lookup r.prevHash, p ∈ block 1 0 0 :: branch := by
      decide +kernel
    have hchain : fork ∈ chain := hforks.chain.closed hparents.1 (by decide +kernel)
    have hbranch : fork ∈ block 1 0 0 :: branch := hforks.branch.closed hparents.2 (by decide +kernel)
    have hgenesis : ∀ r ∈ chain, r ∈ block 1 0 0 :: branch → r.height = 0 := by decide +kernel
    rw [hgenesis fork hchain hbranch] at hdepth
    exact absurd hdepth (by decide)
  · cases ha

end LongBranch

/-- The fourth header of a branch that leaves the chain 33 blocks below the tip passes the gate. -/
theorem deep_branch_passes : ∃ (k : KnownHeaders) (root parent hdr : HeaderRec), k.Rooted root ∧
    k.lookup hdr.prevHash = some parent ∧
    (checkContext k.around.bits parent hdr (k.contextParams parent hdr)).isOk = true ∧
    ¬k.MayFork parent :=
  ⟨LongBranch.headers, _, LongBranch.block 103 102 3, LongBranch.block 104 103 4,
    LongBranch.rooted, by decide +kernel, by decide +kernel, LongBranch.not_mayFork⟩

/-- The header after the tip passes, and its branch may fork. -/
theorem depth_gate_sample :
    let k := LongBranch.headers
    let hdr := LongBranch.block 35 34 34
    (checkContext k.around.bits k.tip hdr (k.contextParams k.tip hdr)).isOk = true ∧
      k.MayFork k.tip := by
  let k := LongBranch.headers
  have hfork : k.MayFork k.tip :=
    .inl ⟨k.tip, ⟨.refl, .refl, fun h _ ↦ h.height_le⟩, by decide⟩
  have hother : checkContext k.around.bits k.tip (LongBranch.block 35 34 34)
      { k.contextParams k.tip (LongBranch.block 35 34 34) with forkDepth := 0 } =
        .ok (LongBranch.block 35 34 34) := by decide +kernel
  have hpass := ((KnownHeaders.depth_gate_iff LongBranch.rooted hother).mpr (.inl hfork)).mpr hfork
  refine ⟨?_, hfork⟩
  show (checkContext k.around.bits k.tip _ _).isOk = true
  rw [hpass]
  rfl

end Plaine.P2p
