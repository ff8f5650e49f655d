import Plaine.Lib.Bytes
import Plaine.Lib.WordBits
import Plaine.Pow.Interp

/-!
# Filling the scratchpad

`pow/src/fill.rs`, twice: `fill` goes four lines at a time and keeps whole words, `fill_ref` goes line
by line and keeps bytes.  Both are the word-by-word filling `fillLine`, of which `fill` does four
steps in a round.  The instruction that `pow/src/aes.rs` uses substitutes the bytes of a state, shifts
its rows, mixes its columns and adds the round key.

The scratchpad notes which words were written.
-/

namespace Plaine.Pow

open Plaine.Lib

/-! ## The AES round -/

namespace AesRound

/-- A byte times `x`. -/
def xtime (b : UInt8) : UInt8 := (b <<< 1) ^^^ if 0x80 ≤ b then 0x1b else 0

/-- The product of two bytes, the bits of `b` from the lowest. -/
def gmul (a b : UInt8) : UInt8 :=
  ((List.range 8).foldl
    (fun (acc, a) i ↦ (if (b >>> UInt8.ofNat i) &&& 1 = 1 then acc ^^^ a else acc, xtime a))
    ((0 : UInt8), a)).1

/-- The inverse of a byte, as its 254th power. -/
def inverse (b : UInt8) : UInt8 :=
  (List.range 6).foldl (fun acc _ ↦ gmul (gmul acc acc) b) b |> fun x ↦ gmul x x

/-- The byte turned by `n` bits. -/
def turn (b : UInt8) (n : UInt8) : UInt8 := (b <<< n) ||| (b >>> (8 - n))

/-- The substitution of a byte. -/
def subByte (b : UInt8) : UInt8 :=
  let x := inverse b
  x ^^^ turn x 1 ^^^ turn x 2 ^^^ turn x 3 ^^^ turn x 4 ^^^ 0x63

/-- The byte `i` of a line. -/
def byteAt (w : Line) (i : Nat) : UInt8 :=
  if i < 8 then (w.1 >>> UInt64.ofNat (8 * i)).toUInt8 else (w.2 >>> UInt64.ofNat (8 * (i - 8))).toUInt8

/-- The line of 16 bytes. -/
def ofBytes (f : Nat → UInt8) : Line :=
  ((List.range 8).foldl (fun v i ↦ v ||| ((f i).toUInt64 <<< UInt64.ofNat (8 * i))) 0,
    (List.range 8).foldl (fun v i ↦ v ||| ((f (8 + i)).toUInt64 <<< UInt64.ofNat (8 * i))) 0)

/-- Byte `r` of column `c`, substituted and with its row shifted. -/
def shifted (w : Line) (c r : Nat) : UInt8 := subByte (byteAt w (4 * ((c + r) % 4) + r))

/-- The round. -/
def round (state key : Line) : Line :=
  ofBytes fun i ↦
    let col r := shifted state (i / 4) (r % 4)
    gmul 2 (col i) ^^^ gmul 3 (col (i + 1)) ^^^ col (i + 2) ^^^ col (i + 3) ^^^ byteAt key i

end AesRound

/-- The round as an instruction. -/
@[reducible]
def Aes.hardware : Aes := ⟨AesRound.round⟩

example : AesRound.round (0x63746F725D53475D, 0x7B5B546573745665)
    (0x5B477565726F6E5D, 0x4869285368617929) = (0x8B104B58DED7E595, 0xA8311C2F9FDBA3C5) := by
  decide +kernel

/-! ## The scratchpad -/

/-- `FILL_DOM`. -/
def fillDom : UInt64 := 0x1F83D9AB5BE0CD19

/-- `LINES`. -/
def lines : Nat := scratchBytes / 16

/-- `CHAINS`. -/
def chains : Nat := 4

/-- The scratchpad, and the words that were written, the latest first. -/
@[ext]
structure Pad where
  words : List UInt64
  written : List Nat

/-- `sc[w] = v`. -/
def Pad.set (p : Pad) (w : Nat) (v : UInt64) : Pad := ⟨p.words.set w v, w :: p.written⟩

/-! ## Words and bytes -/

/-- `put64le` into the eight bytes at `off`. -/
def put64le (p : Bytes) (off : Nat) (v : UInt64) : Bytes :=
  p.take off ++ ((List.range 8).map fun i ↦ (v >>> UInt64.ofNat (8 * i)).toUInt8) ++ p.drop (off + 8)

/-- `ld64le` of the eight bytes at `off`. -/
def ld64le (p : Bytes) (off : Nat) : UInt64 :=
  ((p.drop off).take 8).zipIdx.foldl
    (fun v x ↦ v ||| (x.1.toUInt64 <<< UInt64.ofNat (8 * x.2))) 0

/-- The two words of a line of bytes. -/
def ldLine (p : Bytes) : Line := (ld64le p 0, ld64le p 8)

/-- The bytes of a line of two words. -/
def putLine (p : Bytes) (w : Line) : Bytes := put64le (put64le p 0 w.1) 8 w.2

section Code

variable [Aes]

/-- The chains at the start, `chain_init`. -/
def chainInit (seed : UInt64) : Fin 4 → Line := fun j ↦
  (seed ^^^ fillDom, ~~~seed ^^^ UInt64.ofNat j)

/-- The line `i` of the scratchpad. -/
def lineValue (seed : UInt64) (i : Nat) : Line :=
  aesenc (aesenc (seed, UInt64.ofNat i ^^^ fillDom))

/-- The loop of `fill`. -/
def fillLoop (seed : UInt64) (i : Nat) (sc : Pad) (a : Fin 4 → Line) : Pad × (Fin 4 → Line) :=
  if i < lines then
    let v0 := lineValue seed i
    let v1 := lineValue seed (i + 1)
    let v2 := lineValue seed (i + 2)
    let v3 := lineValue seed (i + 3)
    let sc := (sc.set (2 * i) v0.1).set (2 * i + 1) v0.2
    let sc := (sc.set (2 * i + 2) v1.1).set (2 * i + 3) v1.2
    let sc := (sc.set (2 * i + 4) v2.1).set (2 * i + 5) v2.2
    let sc := (sc.set (2 * i + 6) v3.1).set (2 * i + 7) v3.2
    fillLoop seed (i + chains) sc
      ![Aes.aesencKey (a 0) v0, Aes.aesencKey (a 1) v1, Aes.aesencKey (a 2) v2,
        Aes.aesencKey (a 3) v3]
  else (sc, a)
termination_by lines - i
decreasing_by
  have : 0 < chains := by decide
  omega

/-- `fill`. -/
def fill (sc : Pad) (seed : UInt64) : Pad × UInt64 :=
  let (sc, a) := fillLoop seed 0 sc (chainInit seed)
  let t := Aes.aesencKey (a 0) (a 1)
  let t := Aes.aesencKey t (a 2)
  let t := Aes.aesencKey t (a 3)
  let t := aesenc (aesenc t)
  (sc, t.1 ^^^ t.2)

/-- Two lines of bytes folded into the first. -/
def foldLine (fin a : Bytes) : Bytes := putLine fin (Aes.aesencKey (ldLine fin) (ldLine a))

/-- A round of the loop of `fill_ref`. -/
def fillRefLine (seed : UInt64) (st : Pad × (Fin 4 → Bytes)) (i : Nat) : Pad × (Fin 4 → Bytes) :=
  let line := putLine (List.replicate 16 0) (seed, UInt64.ofNat i ^^^ fillDom)
  let line := putLine line (aesenc (aesenc (ldLine line)))
  let sc := (st.1.set (2 * i) (ld64le line 0)).set (2 * i + 1) (ld64le line 8)
  let j := Fin.ofNat 4 (i % chains)
  (sc, Function.update st.2 j (foldLine (st.2 j) line))

/-- `fill_ref`. -/
def fillRef (sc : Pad) (seed : UInt64) : Pad × UInt64 :=
  let acc : Fin 4 → Bytes := fun j ↦
    putLine (List.replicate 16 0) (seed ^^^ fillDom, ~~~seed ^^^ UInt64.ofNat j)
  let (sc, acc) := (List.range lines).foldl (fillRefLine seed) (sc, acc)
  let fin := [acc 1, acc 2, acc 3].foldl foldLine (acc 0)
  let fin := putLine fin (aesenc (aesenc (ldLine fin)))
  (sc, ld64le fin 0 ^^^ ld64le fin 8)

end Code

/-! ## What is put is loaded -/

variable {p : Bytes} {v : UInt64} {w : Line}

theorem testBit_piece (v : UInt64) {i j : Nat} (hi : i < 8) (hj : j < 64) :
    ((v >>> UInt64.ofNat (8 * i)).toUInt8.toUInt64 <<< UInt64.ofNat (8 * i)).toNat.testBit j =
      (decide (8 * i ≤ j ∧ j < 8 * (i + 1)) && v.toNat.testBit j) := by
  rw [Words.testBit_shiftLeft _ (by omega) hj, UInt8.toNat_toUInt64, UInt64.toNat_toUInt8,
    Nat.testBit_mod_two_pow _ 8, Words.testBit_shiftRight _ (by omega)]
  by_cases hle : 8 * i ≤ j
  · rw [Nat.add_sub_cancel' hle, ← Bool.and_assoc, Bool.decide_and]
    congr 2
    exact decide_eq_decide.mpr (by omega)
  · have hnot : ¬(8 * i ≤ j ∧ j < 8 * (i + 1)) := fun h ↦ hle h.1
    rw [decide_eq_false hle, decide_eq_false hnot, Bool.false_and, Bool.false_and]

/-- The pieces below `n` have the bits below `8 * n`. -/
theorem testBit_pieces (v : UInt64) {n j : Nat} (hn : n ≤ 8) (hj : j < 64) :
    ((List.range n).foldl (fun x i ↦
      x ||| ((v >>> UInt64.ofNat (8 * i)).toUInt8.toUInt64 <<< UInt64.ofNat (8 * i))) 0).toNat.testBit j =
      (decide (j < 8 * n) && v.toNat.testBit j) := by
  induction n with
  | zero =>
    rw [List.range_zero, List.foldl_nil, decide_eq_false (Nat.not_lt_zero j), Bool.false_and]
    exact Nat.zero_testBit j
  | succ n ih =>
    rw [List.range_succ, List.foldl_append, List.foldl_cons, List.foldl_nil, Words.testBit_or,
      ih (Nat.le_of_succ_le hn), testBit_piece v hn hj, ← Bool.and_or_distrib_right]
    congr 1
    rw [← Bool.decide_or]
    exact decide_eq_decide.mpr (by omega)

theorem ld64le_pieces (v : UInt64) :
    ((List.range 8).map fun i ↦ (v >>> UInt64.ofNat (8 * i)).toUInt8).zipIdx.foldl
      (fun v x ↦ v ||| (x.1.toUInt64 <<< UInt64.ofNat (8 * x.2))) 0 = v := by
  apply UInt64.toNat_inj.mp
  apply Nat.eq_of_testBit_eq
  intro j
  rcases Nat.lt_or_ge j 64 with hj | hj
  · have h := testBit_pieces v le_rfl hj
    rwa [decide_eq_true hj, Bool.true_and] at h
  · rw [Words.testBit_of_le _ hj, Words.testBit_of_le _ hj]

theorem length_put64le {off : Nat} (h : off + 8 ≤ p.length) : (put64le p off v).length = p.length := by
  simp only [put64le, List.length_append, List.length_take, List.length_map, List.length_range,
    List.length_drop]
  omega

theorem ld64le_put64le {off : Nat} (h : off ≤ p.length) : ld64le (put64le p off v) off = v := by
  have hlen : (p.take off).length = off := List.length_take_of_le h
  rw [ld64le, put64le, List.append_assoc, List.drop_left' hlen,
    List.take_left' (by rw [List.length_map, List.length_range])]
  exact ld64le_pieces v

theorem ld64le_put64le_ne (h : 8 ≤ p.length) : ld64le (put64le p 8 v) 0 = ld64le p 0 := by
  have hlen : (p.take 8).length = 8 := List.length_take_of_le h
  rw [ld64le, put64le, List.append_assoc, List.drop_zero, List.take_left' hlen]
  rfl

/-- Sixteen bytes that are a line of two words. -/
structure Holds (p : Bytes) (w : Line) : Prop where
  length : p.length = 16
  line : ldLine p = w

/-- A line is loaded as it was put. -/
theorem holds_putLine (h : p.length = 16) (w : Line) : Holds (putLine p w) w := by
  have h' : (put64le p 0 w.1).length = 16 := (length_put64le (by omega)).trans h
  constructor
  · rw [putLine, length_put64le (by omega), h']
  · rw [ldLine, putLine, ld64le_put64le (by omega), ld64le_put64le_ne (by omega),
      ld64le_put64le (Nat.zero_le _)]

theorem holds_replicate (w : Line) : Holds (putLine (List.replicate 16 0) w) w :=
  holds_putLine List.length_replicate w

theorem Holds.foldLine [Aes] {q : Bytes} {x : Line} (h : Holds p w) (hq : Holds q x) :
    Holds (foldLine p q) (Aes.aesencKey w x) := by
  rw [Pow.foldLine, h.line, hq.line]
  exact holds_putLine h.length _

/-- The last two rounds, and the two words into one. -/
theorem Holds.finish [Aes] (h : Holds p w) :
    ld64le (putLine p (aesenc (aesenc (ldLine p)))) 0 ^^^
      ld64le (putLine p (aesenc (aesenc (ldLine p)))) 8 =
        (aesenc (aesenc w)).1 ^^^ (aesenc (aesenc w)).2 := by
  rw [h.line]
  have hput := holds_putLine h.length (aesenc (aesenc w))
  generalize putLine p (aesenc (aesenc w)) = fin at hput ⊢
  rw [← hput.line, ldLine]

/-! ## Line by line -/

section Lines

variable [Aes] {seed : UInt64} {st : Pad × (Fin 4 → Line)} {sc : Pad} {a : Fin 4 → Line}

/-- The line `i` written, and taken into its chain. -/
def fillLine (seed : UInt64) (st : Pad × (Fin 4 → Line)) (i : Nat) : Pad × (Fin 4 → Line) :=
  let v := lineValue seed i
  let j := Fin.ofNat 4 i
  ((st.1.set (2 * i) v.1).set (2 * i + 1) v.2,
    Function.update st.2 j (Aes.aesencKey (st.2 j) v))

/-- The lines below `n`. -/
def fillLines (sc : Pad) (seed : UInt64) (n : Nat) : Pad × (Fin 4 → Line) :=
  (List.range n).foldl (fillLine seed) (sc, chainInit seed)

theorem fillLines_succ (n : Nat) :
    fillLines sc seed (n + 1) = fillLine seed (fillLines sc seed n) n := by
  rw [fillLines, List.range_succ, List.foldl_append]
  rfl

/-- A round of `fill` does four lines. -/
theorem fillLoop_four {b : Nat} (hb : 4 * b < lines) :
    fillLoop seed (4 * b) (fillLines sc seed (4 * b)).1 (fillLines sc seed (4 * b)).2 =
      fillLoop seed (4 * (b + 1)) (fillLines sc seed (4 * (b + 1))).1
        (fillLines sc seed (4 * (b + 1))).2 := by
  have hchain : ∀ k : Fin 4, Fin.ofNat 4 (4 * b + k) = k := by
    intro k
    apply Fin.ext
    change (4 * b + k.val) % 4 = k.val
    rw [Nat.mul_add_mod, Nat.mod_eq_of_lt k.isLt]
  have h0 : Fin.ofNat 4 (4 * b) = 0 := hchain 0
  have h1 : Fin.ofNat 4 (4 * b + 1) = 1 := hchain 1
  have h2 : Fin.ofNat 4 (4 * b + 2) = 2 := hchain 2
  have h3 : Fin.ofNat 4 (4 * b + 3) = 3 := hchain 3
  have hfour : 4 * (b + 1) = 4 * b + 1 + 1 + 1 + 1 := rfl
  rw [fillLoop, if_pos hb, hfour, fillLines_succ, fillLines_succ, fillLines_succ, fillLines_succ]
  simp only [fillLine, h0, h1, h2, h3]
  congr 1
  funext k
  match k with
  | 0 => rfl
  | 1 => rfl
  | 2 => rfl
  | 3 => rfl

/-- The loop of `fill` does all lines. -/
theorem fillLoop_eq : fillLoop seed 0 sc (chainInit seed) = fillLines sc seed lines := by
  have hrun : ∀ b, 4 * b ≤ lines → fillLoop seed 0 sc (chainInit seed) =
      fillLoop seed (4 * b) (fillLines sc seed (4 * b)).1 (fillLines sc seed (4 * b)).2 := by
    intro b hb
    induction b with
    | zero => rfl
    | succ b ih =>
      have hlt : 4 * b < lines := Nat.lt_of_lt_of_le (by omega) hb
      rw [ih hlt.le, fillLoop_four hlt]
  have hlines : lines = 4 * (lines / 4) := by decide
  rw [hrun (lines / 4) hlines.ge, ← hlines, fillLoop, if_neg (Nat.lt_irrefl _)]

/-- What `fill_ref` keeps in bytes is what the lines are in words. -/
structure Spelled (bytes : Pad × (Fin 4 → Bytes)) (words : Pad × (Fin 4 → Line)) : Prop where
  pad : bytes.1 = words.1
  chain : ∀ j, Holds (bytes.2 j) (words.2 j)

theorem Spelled.line {bytes : Pad × (Fin 4 → Bytes)} (h : Spelled bytes st) (i : Nat) :
    Spelled (fillRefLine seed bytes i) (fillLine seed st i) := by
  have hfirst := holds_replicate (seed, UInt64.ofNat i ^^^ fillDom)
  have hline := holds_putLine hfirst.length (lineValue seed i)
  have hj : Fin.ofNat 4 (i % chains) = Fin.ofNat 4 i := Fin.ext (Nat.mod_mod i 4)
  unfold fillRefLine
  dsimp only
  rw [hfirst.line, ← lineValue, hj]
  generalize putLine _ (lineValue seed i) = line at hline ⊢
  constructor
  · have hlo : ld64le line 0 = (lineValue seed i).1 := congrArg Prod.fst hline.line
    have hhi : ld64le line 8 = (lineValue seed i).2 := congrArg Prod.snd hline.line
    rw [h.pad, hlo, hhi]
    rfl
  · intro j
    unfold fillLine
    dsimp only
    rcases eq_or_ne j (Fin.ofNat 4 i) with rfl | hne
    · rw [Function.update_self, Function.update_self]
      exact (h.chain _).foldLine hline
    · rw [Function.update_of_ne hne, Function.update_of_ne hne]
      exact h.chain j

/-- The loop of `fill_ref` does all lines. -/
theorem spelled_lines (sc : Pad) (seed : UInt64) (n : Nat) :
    Spelled ((List.range n).foldl (fillRefLine seed) (sc, fun j ↦
      putLine (List.replicate 16 0) (seed ^^^ fillDom, ~~~seed ^^^ UInt64.ofNat j.val)))
      (fillLines sc seed n) := by
  induction n with
  | zero => exact ⟨rfl, fun _ ↦ holds_replicate _⟩
  | succ n ih =>
    rw [List.range_succ, List.foldl_append, fillLines_succ]
    exact ih.line n

/-- The two fillings are one. -/
theorem fill_eq_fillRef (sc : Pad) (seed : UInt64) : fill sc seed = fillRef sc seed := by
  have hend := spelled_lines sc seed lines
  rw [fill, fillRef, fillLoop_eq]
  generalize fillLines sc seed lines = words at hend ⊢
  generalize (List.range lines).foldl (fillRefLine seed) _ = bytes at hend ⊢
  obtain ⟨sc₁, words⟩ := words
  obtain ⟨sc₂, bytes⟩ := bytes
  obtain ⟨hpad, hchain⟩ := hend
  have hfold := (((hchain 0).foldLine (hchain 1)).foldLine (hchain 2)).foldLine (hchain 3)
  apply Prod.ext
  · exact hpad.symm
  · exact hfold.finish.symm

/-! ## Every word is written once -/

theorem pad_fill : (fill sc seed).1 = (fillLines sc seed lines).1 := by
  rw [fill, fillLoop_eq]

/-- The words of the lines below `n`, the latest first. -/
theorem written_fillLines (n : Nat) : (fillLines sc seed n).1.written =
    (List.range (2 * n)).reverse ++ sc.written := by
  induction n with
  | zero => rfl
  | succ n ih =>
    rw [fillLines_succ]
    change (2 * n + 1) :: (2 * n) :: (fillLines sc seed n).1.written = _
    rw [ih, Nat.mul_succ, List.range_succ, List.range_succ]
    simp

theorem length_fillLines (n : Nat) :
    (fillLines sc seed n).1.words.length = sc.words.length := by
  induction n with
  | zero => rfl
  | succ n ih =>
    rw [fillLines_succ, ← ih]
    exact (List.length_set ..).trans (List.length_set ..)

end Lines

/-- The two fillings leave the same scratchpad and the same program seed, and write each byte of the
scratchpad once.  A program that runs on it, from any registers or from those of a seed, computes
addresses that are aligned and lie within it. -/
theorem fill_and_interp [Aes] :
    (∀ (sc : List UInt64) (seed : UInt64), fill ⟨sc, []⟩ seed = fillRef ⟨sc, []⟩ seed ∧
      (fill ⟨sc, []⟩ seed).1.words.length = sc.length ∧
      ∀ k, (fill ⟨sc, []⟩ seed).1.written.count (k / 8) = if k < scratchBytes then 1 else 0) ∧
    ∀ (prog : Program) (m : Machine), m.sc.length = scratchWords → m.touched = [] →
      (∃ m', rounds prog m = .ok () m' ∧
        ∀ t ∈ m'.touched, t.addr % t.len = 0 ∧ t.addr + t.len ≤ scratchBytes) ∧
      ∀ seed, ∃ out m', interp prog seed m = .ok out m' ∧
        ∀ t ∈ m'.touched, t.addr % t.len = 0 ∧ t.addr + t.len ≤ scratchBytes := by
  constructor
  · intro sc seed
    refine ⟨fill_eq_fillRef _ seed, ?_, fun k ↦ ?_⟩
    · rw [pad_fill, length_fillLines]
    · rw [pad_fill, written_fillLines, List.append_nil, List.count_reverse,
        List.nodup_range.count]
      simp only [List.mem_range]
      refine if_congr ?_ rfl rfl
      change k / 8 < 8192 ↔ k < 65536
      omega
  · intro prog m hlen htouched
    have hsound : m.Sound := ⟨hlen, fun t ht ↦ by rw [htouched] at ht; cases ht⟩
    constructor
    · obtain ⟨a, m', hok, -, hm'⟩ := (safe_rounds prog).exists_ok hsound
      exact ⟨m', hok, hm'.touched⟩
    · intro seed
      obtain ⟨a, m', hok, -, hm'⟩ := (safe_interp prog seed).exists_ok hsound
      exact ⟨a, m', hok, hm'.touched⟩

theorem fill_and_interp_sample :
    let _ := Aes.hardware
    fill ⟨List.replicate scratchWords 0, []⟩ 7 = fillRef ⟨List.replicate scratchWords 0, []⟩ 7 ∧
      ∀ seed, ∃ out m', interp (buildProgram 7) seed
          ⟨fun _ ↦ 0, List.replicate scratchWords 0, []⟩ = .ok out m' ∧
        ∀ t ∈ m'.touched, t.addr % t.len = 0 ∧ t.addr + t.len ≤ scratchBytes := by
  intro aes
  obtain ⟨hfill, hinterp⟩ := @fill_and_interp aes
  have hlen : (List.replicate scratchWords (0 : UInt64)).length = scratchWords :=
    List.length_replicate
  exact ⟨(hfill _ 7).1, (hinterp (buildProgram 7) ⟨fun _ ↦ 0, _, []⟩ hlen rfl).2⟩

end Plaine.Pow
