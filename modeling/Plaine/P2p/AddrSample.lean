import Plaine.Lib.Stride
import Plaine.P2p.AddrCaps
import Plaine.P2p.Wire
import Mathlib.Data.Nat.GCD.Basic

/-!
# Samples of the address book

`AddrMan::sample` answers a request for addresses: it walks around the book from a random entry in a
random stride that is coprime to the size of the book.
-/

namespace Plaine.P2p

open Plaine.Lib

/-- `ADDR_SAMPLE_PROBES`. -/
def addrSampleProbes : Nat := 2 * addrMsgMax

/-- `gcd`. -/
def gcd (a b : Nat) : Nat := if b = 0 then a else gcd b (a % b)
termination_by b
decreasing_by exact Nat.mod_lt _ (Nat.pos_of_ne_zero ‹_›)

/-- The search of `coprime_stride`, with the rounds that are left. -/
def searchStride (n : Nat) : Nat → Nat → Option Nat
  | 0, _ => none
  | k + 1, s =>
    if gcd s n = 1 then some s else searchStride n k (if s + 1 ≥ n then 1 else s + 1)

/-- `coprime_stride`. -/
def coprimeStride (n : Nat) (rng : Rng) : Nat × Rng :=
  if n ≤ 2 then (1, rng)
  else
    let (r, rng) := rng.below (n - 1)
    ((searchStride n n (1 + r)).getD 1, rng)

namespace AddrMan

/-- The loop of `sample`, with the probes that are left. -/
def sampleFrom (m : AddrMan) (want stride : Nat) (nowUnix : UInt64) (allowLocal : Bool) :
    Nat → Nat → List AddrEntry → List AddrEntry
  | 0, _, out => out
  | k + 1, idx, out =>
    match m.entries[idx]? with
    | none => out
    | some e =>
      let idx := (idx + stride) % m.entries.length
      if e.foreignUntil.isSome then m.sampleFrom want stride nowUnix allowLocal k idx out
      else if nowUnix.toNat - e.lastSeen.toNat > addrMaxAgeSecs then
        m.sampleFrom want stride nowUnix allowLocal k idx out
      else if ¬admissible e.ip e.port allowLocal then
        m.sampleFrom want stride nowUnix allowLocal k idx out
      else
        let out := out ++ [e]
        if out.length ≥ want then out else m.sampleFrom want stride nowUnix allowLocal k idx out

/-- `AddrMan::sample`. -/
def sample (m : AddrMan) (max : Nat) (nowUnix : UInt64) (rng : Rng) (allowLocal : Bool) :
    List AddrEntry × Rng :=
  let want := min max addrMsgMax
  let n := m.entries.length
  if n = 0 ∨ want = 0 then ([], rng)
  else
    let probes := min n addrSampleProbes
    let (idx, rng) := rng.below n
    let (stride, rng) := coprimeStride n rng
    (m.sampleFrom want stride nowUnix allowLocal probes idx [], rng)

end AddrMan

/-! ## The stride -/

variable {n k s : Nat}

theorem gcd_eq (a b : Nat) : gcd a b = Nat.gcd a b := by
  fun_induction gcd a b with
  | case1 a => rw [Nat.gcd_zero_right]
  | case2 a b hb ih => rw [ih, Nat.gcd_comm a b, Nat.gcd_rec b a, Nat.gcd_comm]

/-- What is found is coprime to `n`, and within the range searched. -/
theorem searchStride_spec {r : Nat} (h : searchStride n k s = some r) (hn : 1 < n) (hpos : 1 ≤ s)
    (hlt : s < n) : r.Coprime n ∧ 1 ≤ r ∧ r < n := by
  induction k generalizing s with
  | zero => cases h
  | succ k ih =>
    rw [searchStride] at h
    split at h
    case isTrue hgcd =>
      cases h
      exact ⟨(gcd_eq _ n).symm.trans hgcd, hpos, hlt⟩
    case isFalse =>
      split at h
      case isTrue => exact ih h le_rfl hn
      case isFalse hnot => exact ih h (Nat.le_add_left 1 s) (Nat.lt_of_not_le hnot)

/-- The search comes around to one, if it has not ended before. -/
theorem searchStride_isSome (hlt : s < n) (hk : n < k + s) :
    (searchStride n k s).isSome := by
  induction k generalizing s with
  | zero => exact absurd hlt (Nat.not_lt.mpr (by simpa using hk.le))
  | succ k ih =>
    rw [searchStride]
    split
    case isTrue => rfl
    case isFalse =>
      split
      case isTrue hwrap =>
        cases k with
        | zero => exact absurd hk (by omega)
        | succ k =>
          rw [searchStride, if_pos ((gcd_eq 1 n).trans (Nat.gcd_one_left n))]
          rfl
      case isFalse hnot => exact ih (Nat.lt_of_not_le hnot) (by omega)

/-- The stride is coprime to `n` and less than it, but for a book of one entry; and it was found. -/
theorem coprimeStride_spec (n : Nat) (rng : Rng) :
    (coprimeStride n rng).1.Coprime n ∧ 1 ≤ (coprimeStride n rng).1 ∧
      (n ≤ 2 → (coprimeStride n rng).1 = 1) ∧ (2 < n → (coprimeStride n rng).1 < n ∧
        searchStride n n (1 + (rng.below (n - 1)).1) = some (coprimeStride n rng).1) := by
  unfold coprimeStride
  split
  case isTrue hle =>
    exact ⟨Nat.gcd_one_left n, le_rfl, fun _ ↦ rfl, fun hlt ↦ absurd hlt (Nat.not_lt.mpr hle)⟩
  case isFalse hle =>
    have hlt : 1 + (rng.below (n - 1)).1 < n := by
      have hbelow := rng.below_lt (n := n - 1) (by omega)
      omega
    obtain ⟨r, hr⟩ := Option.isSome_iff_exists.mp
      (searchStride_isSome (k := n) hlt (by omega))
    obtain ⟨hcop, hpos, hrlt⟩ := searchStride_spec hr (by omega) (Nat.le_add_right 1 _) hlt
    dsimp only
    rw [hr, Option.getD_some]
    exact ⟨hcop, hpos, fun h ↦ absurd h hle, fun _ ↦ ⟨hrlt, rfl⟩⟩

/-! ## The sample -/

/-- An entry that may be given away. -/
def AddrEntry.Qualifies (nowUnix : UInt64) (allowLocal : Bool) (e : AddrEntry) : Prop :=
  e.foreignUntil = none ∧ nowUnix.toNat - e.lastSeen.toNat ≤ addrMaxAgeSecs ∧
    admissible e.ip e.port allowLocal = true

instance (nowUnix : UInt64) (allowLocal : Bool) :
    DecidablePred (AddrEntry.Qualifies nowUnix allowLocal) := fun e ↦
  inferInstanceAs (Decidable (e.foreignUntil = none ∧ _ ∧ admissible e.ip e.port allowLocal = true))

namespace AddrMan

variable {m : AddrMan} {want stride idx : Nat} {nowUnix : UInt64} {allowLocal : Bool}
variable {out : List AddrEntry}

/-- The positions that `sample` visits, if it is not done before. -/
def visited (m : AddrMan) (rng : Rng) : List Nat :=
  let n := m.entries.length
  let (idx, rng) := rng.below n
  walk n (coprimeStride n rng).1 idx (min n addrSampleProbes)

/-- The entries at positions that qualify. -/
def qualifying (m : AddrMan) (nowUnix : UInt64) (allowLocal : Bool) (ps : List Nat) :
    List AddrEntry :=
  (ps.filterMap (m.entries[·]?)).filter (AddrEntry.Qualifies nowUnix allowLocal ·)

/-- The loop takes the entries on its way that qualify, until it has as many as are wanted. -/
theorem sampleFrom_eq (hidx : idx < m.entries.length) (hout : out.length < want) :
    m.sampleFrom want stride nowUnix allowLocal k idx out = out ++
      (m.qualifying nowUnix allowLocal (walk m.entries.length stride idx k)).take
        (want - out.length) := by
  induction k generalizing idx out with
  | zero => simp [sampleFrom, qualifying, walk]
  | succ k ih =>
    have hnext : (idx + stride) % m.entries.length < m.entries.length :=
      Nat.mod_lt _ (Nat.zero_lt_of_lt hidx)
    rw [sampleFrom, List.getElem?_eq_getElem hidx, walk_succ, qualifying,
      List.filterMap_cons_some (List.getElem?_eq_getElem hidx)]
    dsimp only
    have hskip : ¬AddrEntry.Qualifies nowUnix allowLocal m.entries[idx] →
        m.sampleFrom want stride nowUnix allowLocal k ((idx + stride) % m.entries.length) out =
          out ++ ((m.entries[idx] :: (walk m.entries.length stride
            ((idx + stride) % m.entries.length) k).filterMap (m.entries[·]?)).filter
              (AddrEntry.Qualifies nowUnix allowLocal ·)).take (want - out.length) := by
      intro hq
      rw [List.filter_cons_of_neg (by simpa using hq)]
      exact ih hnext hout
    split
    case isTrue hforeign => exact hskip fun hq ↦ by rw [hq.1] at hforeign; cases hforeign
    case isFalse hforeign =>
    split
    case isTrue hold => exact hskip fun hq ↦ Nat.not_lt.mpr hq.2.1 hold
    case isFalse hold =>
    split
    case isTrue hnot => exact hskip fun hq ↦ hnot hq.2.2
    case isFalse hadm =>
    have hq : AddrEntry.Qualifies nowUnix allowLocal m.entries[idx] :=
      ⟨by simpa using hforeign, Nat.not_lt.mp hold, not_not.mp hadm⟩
    have hone : want - out.length = want - (out ++ [m.entries[idx]]).length + 1 := by
      rw [List.length_append, List.length_singleton]
      omega
    rw [List.filter_cons_of_pos (by simpa using hq), hone, List.take_succ_cons]
    split
    case isTrue hfull => rw [Nat.sub_eq_zero_of_le hfull, List.take_zero]
    case isFalse hroom =>
      rw [ih hnext (Nat.lt_of_not_le hroom), List.append_assoc]
      rfl

/-- The sample is what qualifies of the entries visited, as far as it is wanted. -/
theorem sample_eq (m : AddrMan) (max : Nat) (nowUnix : UInt64) (rng : Rng) (allowLocal : Bool) :
    (m.sample max nowUnix rng allowLocal).1 =
      (m.qualifying nowUnix allowLocal (m.visited rng)).take (min max addrMsgMax) := by
  unfold sample
  dsimp only
  split
  case isTrue hnone =>
    rcases hnone with hn | hwant
    · have hnil : m.entries = [] := List.eq_nil_of_length_eq_zero hn
      simp [qualifying, hnil]
    · rw [hwant, List.take_zero]
  case isFalse hsome =>
    obtain ⟨hn, hwant⟩ := not_or.mp hsome
    exact sampleFrom_eq (rng.below_lt (Nat.pos_of_ne_zero hn)) (Nat.pos_of_ne_zero hwant)

theorem nodup_visited (m : AddrMan) (rng : Rng) : (m.visited rng).Nodup := by
  rcases Nat.eq_zero_or_pos m.entries.length with hn | hpos
  · unfold visited
    dsimp only
    rw [hn, Nat.zero_min]
    exact List.nodup_nil
  · exact nodup_walk (coprimeStride_spec _ _).1 (rng.below_lt hpos) (Nat.min_le_left _ _)

/-- A book that is not larger than the probes is visited whole. -/
theorem mem_visited (rng : Rng) (hn : m.entries.length ≤ addrSampleProbes)
    (hidx : idx < m.entries.length) : idx ∈ m.visited rng := by
  unfold visited
  dsimp only
  rw [Nat.min_eq_left hn]
  exact mem_walk_of_lt (coprimeStride_spec _ _).1
    (rng.below_lt (Nat.zero_lt_of_lt hidx)) hidx

theorem mem_qualifying {ps : List Nat} {e : AddrEntry} :
    e ∈ m.qualifying nowUnix allowLocal ps ↔
      (∃ i ∈ ps, m.entries[i]? = some e) ∧ e.Qualifies nowUnix allowLocal := by
  rw [qualifying, List.mem_filter, List.mem_filterMap, decide_eq_true_eq]

/-- What is found at different positions of a book has different addresses. -/
theorem Consistent.nodup_qualifying (h : Consistent m) {ps : List Nat} (hps : ps.Nodup) :
    ((m.qualifying nowUnix allowLocal ps).map AddrEntry.key).Nodup := by
  refine List.Nodup.sublist (List.filter_sublist.map _) ?_
  rw [List.map_filterMap]
  refine hps.filterMap fun i j k hi hj ↦ ?_
  exact h.index.eq_of_key (Option.mem_def.mp hi) (Option.mem_def.mp hj)

/-- What qualifies is not more than what qualifies of the whole book. -/
theorem Consistent.length_qualifying_le (h : Consistent m) {ps : List Nat} (hps : ps.Nodup) :
    (m.qualifying nowUnix allowLocal ps).length ≤
      (m.entries.filter (AddrEntry.Qualifies nowUnix allowLocal ·)).length := by
  refine ((h.nodup_qualifying hps).of_map.subperm fun e he ↦ ?_).length_le
  obtain ⟨⟨i, -, hi⟩, hq⟩ := mem_qualifying.mp he
  exact List.mem_filter.mpr ⟨List.mem_of_getElem? hi, decide_eq_true hq⟩

/-- The stride of a walk is coprime to the size of the book, so that a sample of the book has no
address twice.  All of it may be given away, and if there are not more entries than probes and not
as many that may be given away as are wanted, it is all of these. -/
theorem samples :
    (∀ n rng, 1 ≤ n → (coprimeStride n rng).1.Coprime n ∧ 1 ≤ (coprimeStride n rng).1 ∧
      (n ≤ 2 → (coprimeStride n rng).1 = 1) ∧ (2 < n → (coprimeStride n rng).1 < n ∧
        searchStride n n (1 + (rng.below (n - 1)).1) = some (coprimeStride n rng).1)) ∧
    ∀ ops max nowUnix rng allowLocal, let m := new.run ops
      let sampled := (m.sample max nowUnix rng allowLocal).1
      (m.visited rng).Nodup ∧
      sampled = (m.qualifying nowUnix allowLocal (m.visited rng)).take (min max addrMsgMax) ∧
      (sampled.map AddrEntry.key).Nodup ∧
      (∀ e ∈ sampled, e ∈ m.entries ∧ e.Qualifies nowUnix allowLocal) ∧
      (m.entries.length ≤ addrSampleProbes →
        (m.entries.filter (AddrEntry.Qualifies nowUnix allowLocal ·)).length < min max addrMsgMax →
        ∀ e ∈ m.entries, e.Qualifies nowUnix allowLocal → e ∈ sampled) := by
  refine ⟨fun n rng _ ↦ coprimeStride_spec n rng, fun ops max nowUnix rng allowLocal ↦ ?_⟩
  intro m sampled
  have hm : Consistent m := (run_kept ops .empty (Nat.zero_le _)).1
  have hsampled : sampled =
      (m.qualifying nowUnix allowLocal (m.visited rng)).take (min max addrMsgMax) :=
    sample_eq m max nowUnix rng allowLocal
  have hvisited := nodup_visited m rng
  refine ⟨hvisited, hsampled, ?_, ?_, ?_⟩
  · rw [hsampled]
    exact (hm.nodup_qualifying hvisited).sublist ((List.take_sublist _ _).map _)
  · intro e he
    rw [hsampled] at he
    obtain ⟨⟨i, -, hi⟩, hq⟩ := mem_qualifying.mp (List.mem_of_mem_take he)
    exact ⟨List.mem_of_getElem? hi, hq⟩
  · intro hn hfew e he hq
    obtain ⟨i, hi⟩ := List.getElem?_of_mem he
    have hlen := (hm.length_qualifying_le hvisited).trans hfew.le
    rw [hsampled, List.take_of_length_le hlen]
    exact mem_qualifying.mpr ⟨⟨i, mem_visited rng hn (List.getElem?_eq_some_iff.mp hi).1, hi⟩, hq⟩

end AddrMan

end Plaine.P2p
