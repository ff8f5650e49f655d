import Mathlib.Algebra.GroupWithZero.Nat
import Mathlib.Data.Fin.VecNotation
import Mathlib.Data.List.FinRange
import Mathlib.Data.Fintype.Basic
import Mathlib.Logic.Basic
import Mathlib.Data.List.Count

/-!
# Isocost programs

`pow/src/op.rs`, `rng.rs`, `program.rs` and `consts.rs`: the program that a seed stands for.

A seed moves the slots of a block about, and writes their immediates.  Which instructions a program
has it does not choose: a block has a fixed mix of classes, and the instructions of a class are taken
in turn.
-/

namespace Plaine.Pow

/-- There are eight registers, and eight slots a field of three bits chooses from. -/
instance neZeroEight : NeZero (8 : Nat) := ⟨Nat.succ_ne_zero 7⟩

/-! ## Instructions -/

/-- `Class`. -/
inductive Class where
  | alu
  | rotImm
  | rotReg
  | mem
  | mul
  | aes
deriving DecidableEq

/-- `Class as usize`. -/
def Class.index : Class → Fin 6
  | .alu => 0
  | .rotImm => 1
  | .rotReg => 2
  | .mem => 3
  | .mul => 4
  | .aes => 5

/-- `Op`. -/
inductive Op where
  | add
  | sub
  | xor
  | or
  | and
  | andn
  | rolx
  | rola
  | rorx
  | rora
  | vrol
  | vror
  | load
  | store
  | rmw
  | loadb
  | storeb
  | rmwb
  | mullo
  | mulhi
  | aesr
deriving DecidableEq

/-- `ALL_OPS`. -/
def allOps : List Op :=
  [.add, .sub, .xor, .or, .and, .andn, .rolx, .rola, .rorx, .rora, .vrol, .vror, .load, .store, .rmw,
    .loadb, .storeb, .rmwb, .mullo, .mulhi, .aesr]

/-- `OP_COUNT`. -/
def opCount : Nat := 21

/-- `Op::index`. -/
def Op.index (op : Op) : Nat := op.ctorIdx

/-- `Op::class`. -/
def Op.class : Op → Class
  | .add | .sub | .xor | .or | .and | .andn => .alu
  | .rolx | .rola | .rorx | .rora => .rotImm
  | .vrol | .vror => .rotReg
  | .load | .store | .rmw | .loadb | .storeb | .rmwb => .mem
  | .mullo | .mulhi => .mul
  | .aesr => .aes

/-- `ALU_POOL`. -/
def aluPool : Fin 6 → Op := ![.add, .sub, .xor, .or, .and, .andn]

/-- `ROT_POOL`. -/
def rotPool : Fin 4 → Op := ![.rolx, .rola, .rorx, .rora]

/-- `MEM_POOL`. -/
def memPool : Fin 6 → Op := ![.load, .store, .rmw, .loadb, .storeb, .rmwb]

/-- `MUL_POOL`. -/
def mulPool : Fin 2 → Op := ![.mullo, .mulhi]

/-- `ROTREG_POOL`. -/
def rotregPool : Fin 2 → Op := ![.vrol, .vror]

/-- `BLOCKS`. -/
def blocks : Nat := 32

/-- `BLOCK_INSTR`. -/
def blockInstr : Nat := 16

/-- `PROG_INSTR`. -/
def progInstr : Nat := blocks * blockInstr

/-- `NREG`. -/
def nreg : Nat := 8

/-- `PER_BLOCK`. -/
def perBlock : Fin 16 → Fin 6 := ![0, 0, 0, 0, 0, 0, 1, 2, 3, 3, 3, 3, 3, 4, 5, 5]

/-- `ROLE_OFFS`. -/
def roleOffs : Fin 8 → Nat := ![3, 5, 1, 7, 2, 6, 4, 5]

/-- `HIST`. -/
def hist : List Nat :=
  [32, 32, 32, 32, 32, 32, 8, 8, 8, 8, 16, 16, 27, 27, 27, 27, 26, 26, 16, 16, 64]

/-- `RNG_DOM_PROGRAM`. -/
def rngDomProgram : UInt64 := 2

/-- `Instr`: its registers are below `NREG`. -/
structure Instr where
  op : Op
  d : Fin 8
  s : Fin 8
  imm : UInt32
deriving DecidableEq

/-- `Instr::new`. -/
def Instr.new (op : Op) (d s : UInt8) (imm : UInt32) : Instr :=
  ⟨op, Fin.ofNat 8 (d &&& 7).toNat, Fin.ofNat 8 (s &&& 7).toNat, imm⟩

/-- `Program`. -/
structure Program where
  slots : List Instr
  length_eq : slots.length = progInstr

/-! ## The generator -/

/-- `Rng`. -/
structure Rng where
  s0 : UInt64

/-- `Rng::next`. -/
def Rng.next (r : Rng) : UInt64 × Rng :=
  let s := r.s0 + 0x9E3779B97F4A7C15
  let x := s ^^^ (s >>> 30)
  let x := x * 0xBF58476D1CE4E5B9
  let x := x ^^^ (x >>> 27)
  let x := x * 0x94D049BB133111EB
  (x ^^^ (x >>> 31), ⟨s⟩)

/-- `Rng::new`. -/
def Rng.new (seed dom : UInt64) : Rng :=
  let r : Rng := ⟨seed ^^^ (dom * 0xD6E8FEB86659FD93)⟩
  r.next.2.next.2.next.2.next.2

/-! ## Building -/

/-- The shuffle of a block, from `i` down to 1. -/
def shuffle : (i : Nat) → i < 16 → Rng → Vector (Fin 16) 16 → Vector (Fin 16) 16 × Rng
  | 0, _, n, idx => (idx, n)
  | i + 1, hi, n, idx =>
    let (x, n) := n.next
    let j := x.toNat % (i + 1 + 1)
    shuffle i (Nat.lt_of_succ_lt hi) n
      (idx.swap (i + 1) j hi ((Nat.mod_lt _ (Nat.succ_pos _)).trans_le hi))

/-- The instruction of a class whose turn it is. -/
def pick (k : Fin 6) (ctr : UInt32) : Op :=
  match k with
  | 0 => aluPool (Fin.ofNat 6 (ctr % 6).toNat)
  | 1 => rotPool (Fin.ofNat 4 (ctr % 4).toNat)
  | 2 => rotregPool (Fin.ofNat 2 (ctr &&& 1).toNat)
  | 3 => memPool (Fin.ofNat 6 (ctr % 6).toNat)
  | 4 => mulPool (Fin.ofNat 2 (ctr &&& 1).toNat)
  | _ => .aesr

/-- A program in the making: the slots so far and the turns of the classes. -/
structure Build where
  rng : Rng
  ctr : Fin 6 → UInt32
  prog : List Instr

/-- One slot. -/
def Build.slot (s : Build) (t : Fin 16) : Build :=
  let k := perBlock t
  let dr := t.val % nreg
  let sr := (dr + roleOffs (Fin.ofNat 8 (t.val % 8))) % nreg
  let (x, n) := s.rng.next
  { rng := n
    ctr := Function.update s.ctr k (s.ctr k + 1)
    prog := s.prog ++ [.new (pick k (s.ctr k)) (UInt8.ofNat dr) (UInt8.ofNat sr) x.toUInt32] }

/-- One block. -/
def Build.block (s : Build) : Build :=
  let shuffled := shuffle 15 (Nat.lt_succ_self 15) s.rng (Vector.ofFn id)
  shuffled.1.toList.foldl Build.slot { s with rng := shuffled.2 }

/-- `b` blocks. -/
def Build.run (s : Build) : Nat → Build
  | 0 => s
  | b + 1 => (s.run b).block

/-- `prog_seed` before the first block. -/
def Build.start (progSeed : UInt64) : Build := ⟨.new progSeed rngDomProgram, fun _ ↦ 0, []⟩

/-! ## What the seed does not choose -/

variable {s : Build} {ts : List (Fin 16)} {b : Nat}

/-- A shuffled block has every place once. -/
theorem shuffle_perm {i : Nat} (hi : i < 16) (n : Rng) (idx : Vector (Fin 16) 16) :
    (shuffle i hi n idx).1.toList.Perm idx.toList := by
  induction i generalizing n idx with
  | zero => exact .refl _
  | succ i ih => exact (ih _ _ _).trans (Vector.Perm.toList (Vector.swap_perm _ _))

/-- The places of a block. -/
abbrev IsBlock (ts : List (Fin 16)) : Prop := ts.Perm (List.finRange 16)

/-- The place of a slot tells its class and its registers. -/
def tag (t : Fin 16) : Fin 6 × Fin 8 × Fin 8 :=
  (perBlock t, Fin.ofNat 8 (t.val % nreg),
    Fin.ofNat 8 ((t.val % nreg + roleOffs (Fin.ofNat 8 (t.val % 8))) % nreg))

/-- The class and the registers of a slot. -/
def Instr.tag (x : Instr) : Fin 6 × Fin 8 × Fin 8 := (x.op.class.index, x.d, x.s)

/-- The instructions of class `k` among the first `c` of its turns. -/
def turns (op : Op) (c : Nat) : Nat :=
  (List.range c).countP fun i ↦ pick op.class.index (UInt32.ofNat i) = op

/-- What is built from the places `ts`. -/
structure Build.From (s : Build) (ts : List (Fin 16)) : Prop where
  tags : s.prog.map Instr.tag = ts.map Pow.tag
  ctr : ∀ k, s.ctr k = UInt32.ofNat (ts.countP (perBlock · = k))
  ops : ∀ op, s.prog.countP (·.op = op) = turns op (ts.countP (perBlock · = op.class.index))

theorem class_pick (k : Fin 6) (c : UInt32) : (pick k c).class.index = k := by
  have halu : ∀ i, (aluPool i).class.index = 0 := by decide
  have hrot : ∀ i, (rotPool i).class.index = 1 := by decide
  have hrotreg : ∀ i, (rotregPool i).class.index = 2 := by decide
  have hmem : ∀ i, (memPool i).class.index = 3 := by decide
  have hmul : ∀ i, (mulPool i).class.index = 4 := by decide
  match k with
  | 0 => exact halu _
  | 1 => exact hrot _
  | 2 => exact hrotreg _
  | 3 => exact hmem _
  | 4 => exact hmul _
  | 5 => rfl

theorem Build.From.start (seed : UInt64) : (Build.start seed).From [] where
  tags := rfl
  ctr _ := rfl
  ops _ := rfl

theorem tag_new (t : Fin 16) (c : UInt32) (imm : UInt32) :
    (Instr.new (pick (perBlock t) c) (UInt8.ofNat (t.val % nreg))
      (UInt8.ofNat ((t.val % nreg + roleOffs (Fin.ofNat 8 (t.val % 8))) % nreg)) imm).tag =
      Pow.tag t := by
  have hd : ∀ t : Fin 16, Fin.ofNat 8 (UInt8.ofNat (t.val % nreg) &&& 7).toNat =
      Fin.ofNat 8 (t.val % nreg) := by decide
  have hs : ∀ t : Fin 16, Fin.ofNat 8
      (UInt8.ofNat ((t.val % nreg + roleOffs (Fin.ofNat 8 (t.val % 8))) % nreg) &&& 7).toNat =
        Fin.ofNat 8 ((t.val % nreg + roleOffs (Fin.ofNat 8 (t.val % 8))) % nreg) := by decide
  rw [Instr.tag, Instr.new, class_pick, hd, hs]
  rfl

theorem turns_succ (op : Op) (c : Nat) :
    turns op (c + 1) = turns op c + if pick op.class.index (UInt32.ofNat c) = op then 1 else 0 := by
  rw [turns, List.range_succ, List.countP_append, List.countP_singleton, turns]
  simp only [decide_eq_true_eq]

/-- A slot is written at a place. -/
theorem Build.From.slot (h : s.From ts) (t : Fin 16) : (s.slot t).From (ts ++ [t]) where
  tags := by
    rw [List.map_append, ← h.tags]
    exact (List.map_append ..).trans (congrArg _ (congrArg (fun x ↦ [x]) (tag_new t _ _)))
  ctr k := by
    rw [List.countP_append, List.countP_singleton]
    change Function.update s.ctr (perBlock t) (s.ctr (perBlock t) + 1) k = _
    rcases eq_or_ne k (perBlock t) with rfl | hne
    · rw [Function.update_self, h.ctr, decide_eq_true rfl, if_pos rfl]
      exact (UInt32.ofNat_add _ _).symm
    · rw [Function.update_of_ne hne, h.ctr, decide_eq_false (Ne.symm hne)]
      rfl
  ops op := by
    have hop : (s.slot t).prog.countP (·.op = op) =
        s.prog.countP (·.op = op) + if pick (perBlock t) (s.ctr (perBlock t)) = op then 1 else 0 := by
      change (s.prog ++ [_]).countP _ = _
      rw [List.countP_append, List.countP_singleton]
      simp only [decide_eq_true_eq]
      rfl
    rw [hop, h.ops, List.countP_append, List.countP_singleton]
    simp only [decide_eq_true_eq]
    rcases eq_or_ne (perBlock t) op.class.index with heq | hne
    · rw [if_pos heq, turns_succ, heq, h.ctr]
    · rw [if_neg hne, if_neg fun hpick ↦ hne ?_]
      · rfl
      · rw [← class_pick (perBlock t) (s.ctr (perBlock t)), hpick]

theorem Build.From.foldl (h : s.From ts) (us : List (Fin 16)) :
    (us.foldl Build.slot s).From (ts ++ us) := by
  induction us generalizing s ts with
  | nil => rwa [List.append_nil]
  | cons u us ih =>
    rw [List.append_cons, List.foldl_cons]
    exact ih (h.slot u)

/-- A block is written at the places of a block. -/
theorem Build.From.block (h : s.From ts) : ∃ us, IsBlock us ∧ s.block.From (ts ++ us) := by
  have hperm := shuffle_perm (Nat.lt_succ_self 15) s.rng (Vector.ofFn id)
  have hplaces : (Vector.ofFn (id : Fin 16 → Fin 16)).toList = List.finRange 16 := by
    rw [Vector.toList_ofFn]
    rfl
  rw [hplaces] at hperm
  rw [Build.block]
  generalize shuffle 15 (Nat.lt_succ_self 15) s.rng (Vector.ofFn id) = shuffled at hperm ⊢
  have h' : Build.From { s with rng := shuffled.2 } ts := ⟨h.tags, h.ctr, h.ops⟩
  exact ⟨shuffled.1.toList, hperm, h'.foldl _⟩

/-- Every program is built from 32 shuffled blocks. -/
theorem exists_blocks (seed : UInt64) (b : Nat) : ∃ bs : List (List (Fin 16)), bs.length = b ∧
    (∀ us ∈ bs, IsBlock us) ∧ ((Build.start seed).run b).From bs.flatten := by
  induction b with
  | zero => exact ⟨[], rfl, List.forall_mem_nil _, .start seed⟩
  | succ b ih =>
    obtain ⟨bs, hlen, hblock, hfrom⟩ := ih
    obtain ⟨us, hus, hnext⟩ := hfrom.block
    refine ⟨bs ++ [us], by rw [List.length_append, hlen]; rfl, ?_, ?_⟩
    · intro vs hvs
      rcases List.mem_append.mp hvs with hvs | hvs
      · exact hblock vs hvs
      · rwa [List.mem_singleton.mp hvs]
    · rw [List.flatten_append, List.flatten_singleton]
      exact hnext

theorem length_flatten_blocks {bs : List (List (Fin 16))} (h : ∀ us ∈ bs, IsBlock us) :
    bs.flatten.length = 16 * bs.length := by
  induction bs with
  | nil => rfl
  | cons us bs ih =>
    obtain ⟨hus, hbs⟩ := List.forall_mem_cons.mp h
    rw [List.flatten_cons, List.length_append, ih hbs, hus.length_eq, List.length_finRange,
      List.length_cons]
    omega

theorem length_prog (seed : UInt64) : ((Build.start seed).run blocks).prog.length = progInstr := by
  obtain ⟨bs, hlen, hblock, hfrom⟩ := exists_blocks seed blocks
  have hmap := congrArg List.length hfrom.tags
  rwa [List.length_map, List.length_map, length_flatten_blocks hblock, hlen] at hmap

/-- The program that has been built. -/
def Build.finish (s : Build) (h : s.prog.length = progInstr) : Program := ⟨s.prog, h⟩

@[simp] theorem Build.slots_finish (h : s.prog.length = progInstr) : (s.finish h).slots = s.prog := rfl

/-- `build_program`. -/
def buildProgram (progSeed : UInt64) : Program :=
  ((Build.start progSeed).run blocks).finish (length_prog progSeed)

/-! ## The mix of a program -/

variable {bs : List (List (Fin 16))}

/-- What 32 blocks have is what one block has, 32 times. -/
theorem countP_blocks (h : ∀ us ∈ bs, IsBlock us) (p : Fin 16 → Bool) :
    bs.flatten.countP p = bs.length * (List.finRange 16).countP p := by
  induction bs with
  | nil => rw [List.flatten_nil, List.countP_nil, List.length_nil, Nat.zero_mul]
  | cons us bs ih =>
    obtain ⟨hus, hbs⟩ := List.forall_mem_cons.mp h
    rw [List.flatten_cons, List.countP_append, ih hbs, hus.countP_eq, List.length_cons,
      Nat.succ_mul, Nat.add_comm]

/-- The slots of a block are at its places. -/
theorem flatten_drop_take (h : ∀ us ∈ bs, IsBlock us) (hb : b < bs.length) :
    (bs.flatten.drop (16 * b)).take 16 = bs[b] := by
  induction bs generalizing b with
  | nil => exact absurd hb (Nat.not_lt_zero b)
  | cons us bs ih =>
    obtain ⟨hus, hbs⟩ := List.forall_mem_cons.mp h
    have hlen : us.length = 16 := hus.length_eq.trans List.length_finRange
    cases b with
    | zero => exact List.take_left' hlen
    | succ b =>
      have hdrop : (us ++ bs.flatten).drop (16 * (b + 1)) = bs.flatten.drop (16 * b) := by
        rw [Nat.mul_succ, Nat.add_comm, ← List.drop_drop, List.drop_left' hlen]
      rw [List.flatten_cons, hdrop, List.getElem_cons_succ]
      exact ih hbs (Nat.lt_of_succ_lt_succ hb)

/-- Every program has the same number of each instruction. -/
theorem buildProgram_hist (seed : UInt64) (op : Op) :
    hist[op.index]? = some ((buildProgram seed).slots.countP (·.op = op)) := by
  obtain ⟨bs, hlen, hblock, hfrom⟩ := exists_blocks seed blocks
  have hall : ∀ op : Op, op ∈ allOps := by
    intro op
    cases op <;> decide
  have hturns : ∀ op ∈ allOps, hist[op.index]? =
      some (turns op (blocks * (List.finRange 16).countP (perBlock · = op.class.index))) := by
    decide +kernel
  rw [hturns op (hall op), buildProgram, Build.slots_finish, hfrom.ops, countP_blocks hblock, hlen]

/-- The block `b` of a program. -/
def Program.block (p : Program) (b : Nat) : List Instr :=
  (p.slots.drop (blockInstr * b)).take blockInstr

/-- A block has the classes and the registers of a block, in some order. -/
theorem block_tags (seed : UInt64) (hb : b < blocks) :
    (((buildProgram seed).block b).map Instr.tag).Perm ((List.finRange 16).map tag) := by
  obtain ⟨bs, hlen, hblock, hfrom⟩ := exists_blocks seed blocks
  have hb' : b < bs.length := hlen.symm ▸ hb
  have hslots : ((buildProgram seed).block b).map Instr.tag = bs[b].map tag := by
    rw [Program.block, buildProgram, Build.slots_finish, List.map_take, List.map_drop, hfrom.tags, ← List.map_drop,
      ← List.map_take, blockInstr, flatten_drop_take hblock hb']
  rw [hslots]
  exact (hblock _ (List.getElem_mem hb')).map tag

/-- A block has the mix of classes of `PER_BLOCK`. -/
theorem block_classes (seed : UInt64) (hb : b < blocks) :
    (((buildProgram seed).block b).map (·.op.class.index)).Perm ((List.finRange 16).map perBlock) := by
  have h := (block_tags seed hb).map Prod.fst
  rwa [List.map_map, List.map_map] at h

/-- Every register is written by two slots of a block. -/
theorem block_dests (seed : UInt64) (hb : b < blocks) (r : Fin 8) :
    ((buildProgram seed).block b).countP (·.d = r) = 2 := by
  have hcount : ∀ r : Fin 8, ((List.finRange 16).map tag).countP (·.2.1 = r) = 2 := by decide
  have h := (block_tags seed hb).countP_eq (·.2.1 = r)
  rw [List.countP_map, hcount] at h
  exact h

/-- No slot of a block writes the register it reads. -/
theorem block_ne (seed : UInt64) (hb : b < blocks) :
    ∀ x ∈ (buildProgram seed).block b, x.d ≠ x.s := by
  have hne : ∀ y ∈ (List.finRange 16).map tag, y.2.1 ≠ y.2.2 := by decide +kernel
  intro x hx
  exact hne x.tag ((block_tags seed hb).mem_iff.mp (List.mem_map_of_mem hx))

end Plaine.Pow
