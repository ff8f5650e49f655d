import Mathlib.Algebra.Order.Ring.Nat
import Mathlib.Tactic.Ring

/-!
# Token buckets

A bucket gains `rate` tokens in each `window` of time, up to a burst.  Tokens are whole: a refill
gains the quotient, and one that would gain nothing is put off, so that the time it looked at
still counts for the next.

What a bucket can pay out is its credit, the tokens with what is still to be refilled, in parts
of a token.  A refill does not raise the credit, time raises it at the rate and a payment lowers
it by what is paid; from this alone what is paid in an interval is bounded, whatever the steps
are that refill and pay.
-/

namespace Plaine.Lib

/-- A bucket: the tokens, and when some were last gained. -/
structure Bucket where
  tokens : Nat
  last : Nat
deriving DecidableEq

namespace Bucket

/-- The terms of a bucket.  Integers go up to `cap`. -/
structure Terms where
  rate : Nat
  window : Nat
  burst : Nat
  cap : Nat

variable {t : Terms} {b : Bucket} {now now' : Nat}

/-- What is gained for the time elapsed. -/
def Terms.gain (t : Terms) (elapsed : Nat) : Nat := min (elapsed * t.rate) t.cap / t.window

/-- Refill a bucket. -/
def refill (b : Bucket) (t : Terms) (now : Nat) : Bucket :=
  if 0 < t.gain (now - b.last) then
    ⟨min (min (b.tokens + t.gain (now - b.last)) t.cap) t.burst, now⟩
  else b

/-- Take tokens out. -/
def spend (b : Bucket) (n : Nat) : Bucket := { b with tokens := b.tokens - n }

@[simp]
theorem spend_tokens (n : Nat) : (b.spend n).tokens = b.tokens - n := rfl

@[simp]
theorem spend_last (n : Nat) : (b.spend n).last = b.last := rfl

@[simp]
theorem spend_zero : b.spend 0 = b := rfl

theorem spend_spend (m n : Nat) : (b.spend m).spend n = b.spend (m + n) :=
  congrArg (Bucket.mk · b.last) (Nat.sub_sub ..)

theorem refill_of_gain (h : 0 < t.gain (now - b.last)) : b.refill t now =
    ⟨min (min (b.tokens + t.gain (now - b.last)) t.cap) t.burst, now⟩ := if_pos h

theorem refill_of_no_gain (h : t.gain (now - b.last) = 0) : b.refill t now = b :=
  if_neg (by rw [h]; exact lt_irrefl 0)

theorem tokens_refill_le (h : b.tokens ≤ t.burst) : (b.refill t now).tokens ≤ t.burst := by
  unfold refill
  split
  · exact Nat.min_le_right _ _
  · exact h

/-! ## Credit -/

/-- The part of a token that may be left to refill. -/
def Terms.lag (t : Terms) : Nat := if t.window ≤ t.rate then 0 else t.window - 1

/-- The most credit a bucket has. -/
def Terms.limit (t : Terms) : Nat := t.burst * t.window + t.lag

/-- What a bucket can pay out, in parts of a token. -/
def credit (b : Bucket) (t : Terms) (now : Nat) : Nat :=
  min (b.tokens * t.window + (now - b.last) * t.rate) t.limit

theorem credit_le : b.credit t now ≤ t.limit := Nat.min_le_right _ _

theorem Terms.limit_lt (h : 0 < t.window) : t.limit < t.burst * t.window + t.window := by
  refine Nat.add_lt_add_left ?_ _
  unfold lag
  split
  · exact h
  · exact Nat.sub_lt h Nat.one_pos

theorem Terms.limit_of_le (h : t.window ≤ t.rate) : t.limit = t.burst * t.window := by
  rw [limit, lag, if_pos h, Nat.add_zero]

/-- Time adds to the credit at the rate. -/
theorem credit_advance (h : now ≤ now') :
    b.credit t now' ≤ b.credit t now + (now' - now) * t.rate := by
  have hmul : (now' - b.last) * t.rate ≤ (now - b.last) * t.rate + (now' - now) * t.rate := by
    rw [← Nat.add_mul]
    exact Nat.mul_le_mul_right _ (by omega)
  unfold credit
  omega

/-- What is gained is due for the time elapsed. -/
theorem Terms.gain_mul_le (t : Terms) (elapsed : Nat) :
    t.gain elapsed * t.window ≤ elapsed * t.rate :=
  (Nat.div_mul_le_self _ _).trans (Nat.min_le_left _ _)

/-- A refill does not add to the credit. -/
theorem credit_refill_le : (b.refill t now).credit t now ≤ b.credit t now := by
  by_cases h : 0 < t.gain (now - b.last)
  · have hgain := t.gain_mul_le (now - b.last)
    have hsum := Nat.mul_le_mul_right t.window
      ((Nat.min_le_left _ t.burst).trans
        (Nat.min_le_left (b.tokens + t.gain (now - b.last)) t.cap))
    have hburst := Nat.mul_le_mul_right t.window
      (Nat.min_le_right (min (b.tokens + t.gain (now - b.last)) t.cap) t.burst)
    rw [Nat.add_mul] at hsum
    rw [refill_of_gain h]
    unfold credit Terms.limit
    simp only [Nat.sub_self, Nat.zero_mul, Nat.add_zero]
    omega
  · rw [refill_of_no_gain (Nat.eq_zero_of_not_pos h)]

/-! ## Payments -/

/-- A bucket with nothing left to refill. -/
structure Settled (t : Terms) (now : Nat) (b : Bucket) : Prop where
  tokens : b.tokens ≤ t.burst
  gain : t.gain (now - b.last) = 0

theorem settled_refill (h : b.tokens ≤ t.burst) : Settled t now (b.refill t now) := by
  refine ⟨tokens_refill_le h, ?_⟩
  by_cases hgain : 0 < t.gain (now - b.last)
  · rw [refill_of_gain hgain, Terms.gain, Nat.sub_self, Nat.zero_mul, Nat.zero_min, Nat.zero_div]
  · have hgain := Nat.eq_zero_of_not_pos hgain
    rw [refill_of_no_gain hgain, hgain]

/-- A full bucket, just made. -/
theorem settled_full : Settled t now ⟨t.burst, now⟩ := by
  refine ⟨le_rfl, ?_⟩
  rw [Terms.gain, Nat.sub_self, Nat.zero_mul, Nat.zero_min, Nat.zero_div]

theorem credit_full : credit ⟨t.burst, now⟩ t now = t.burst * t.window := by
  unfold credit Terms.limit
  simp only [Nat.sub_self, Nat.zero_mul]
  omega

theorem le_credit_of_full (h : t.burst ≤ b.tokens) : t.burst * t.window ≤ b.credit t now := by
  have := Nat.mul_le_mul_right t.window h
  unfold credit Terms.limit
  omega

/-- The terms are those of machine integers, with a window that is not empty. -/
structure Terms.Sane (t : Terms) : Prop where
  pos : 0 < t.window
  fits : t.window ≤ t.cap

/-- Less than a token is left to refill in a settled bucket, and nothing if each unit of time
gains one. -/
theorem Settled.pending_le (h : Settled t now b) (ht : t.Sane) :
    (now - b.last) * t.rate ≤ t.lag := by
  have hlt : min ((now - b.last) * t.rate) t.cap < t.window :=
    (Nat.div_eq_zero_iff_lt ht.pos).mp h.gain
  have hfits := ht.fits
  unfold Terms.lag
  split
  case isTrue hrate =>
    obtain hzero | hpos := Nat.eq_zero_or_pos (now - b.last)
    · rw [hzero, Nat.zero_mul]
    · have : t.rate ≤ (now - b.last) * t.rate := Nat.le_mul_of_pos_left _ hpos
      omega
  case isFalse => omega

/-- What a settled bucket pays comes off its credit. -/
theorem Settled.credit_spend (h : Settled t now b) (ht : t.Sane) {n : Nat} (hn : n ≤ b.tokens) :
    (b.spend n).credit t now + n * t.window = b.credit t now := by
  have hpending := h.pending_le ht
  have hburst := Nat.mul_le_mul_right t.window h.tokens
  have hsplit : (b.tokens - n) * t.window + n * t.window = b.tokens * t.window := by
    rw [← Nat.add_mul, Nat.sub_add_cancel hn]
  unfold credit Terms.limit
  rw [spend_tokens, spend_last]
  omega

/-! ## Ways of touching -/

/-- Refill a bucket at one time after the other. -/
def touches (b : Bucket) (t : Terms) (ts : List Nat) : Bucket := ts.foldl (fun b now ↦ b.refill t now) b

/-- What touches leave uncredited up to the end of an interval: a touch that gains tokens drops the
part of a token beyond them, and what the last such touch left is pending. -/
def left (t : Terms) (last : Nat) : List Nat → Nat → Nat
  | [], stop => (stop - last) * t.rate
  | now :: ts, stop =>
    if 0 < t.gain (now - last) then
      ((now - last) * t.rate - t.gain (now - last) * t.window) + left t now ts stop
    else left t last ts stop

/-- The bucket is never full on the way. -/
def Unfilled (b : Bucket) (t : Terms) (ts : List Nat) : Prop :=
  ∀ ts', ts' <+: ts → (b.touches t ts').tokens < min t.burst t.cap

/-- In a bucket that is never full, what is credited and what is left add up to what the time
elapsed is worth. -/
theorem touches_add_left (ts : List Nat) (stop : Nat) (hord : (b.last :: ts).Pairwise (· ≤ ·))
    (hstop : ∀ now ∈ b.last :: ts, now ≤ stop) (hfull : b.Unfilled t ts) :
    (b.touches t ts).tokens * t.window + left t b.last ts stop =
      b.tokens * t.window + (stop - b.last) * t.rate := by
  induction ts generalizing b with
  | nil => rfl
  | cons now ts ih =>
    obtain ⟨hle, hord'⟩ := List.pairwise_cons.mp hord
    obtain ⟨hlater, hord''⟩ := List.pairwise_cons.mp hord'
    have hrest : ∀ ts', ts' <+: ts → ((b.refill t now).touches t ts').tokens < min t.burst t.cap :=
      fun ts' h ↦ hfull (now :: ts') (List.cons_prefix_cons.mpr ⟨rfl, h⟩)
    rw [left]
    split
    case isTrue hgain =>
      have hone := hrest [] List.nil_prefix
      change (b.refill t now).tokens < _ at hone
      have hrefill : b.refill t now = ⟨b.tokens + t.gain (now - b.last), now⟩ := by
        rw [refill_of_gain hgain] at hone ⊢
        dsimp only at hone
        congr 1
        omega
      have hnow := hle now List.mem_cons_self
      have hend := hstop now (List.mem_cons_of_mem _ List.mem_cons_self)
      have hnext := ih (b := b.refill t now) (by rw [hrefill]; exact hord')
        (by rw [hrefill]; exact fun x hx ↦ hstop x (List.mem_cons_of_mem _ hx)) hrest
      rw [hrefill] at hnext
      change (touches ⟨_, now⟩ t ts).tokens * t.window + left t now ts stop =
        (b.tokens + t.gain (now - b.last)) * t.window + (stop - now) * t.rate at hnext
      have htime : (now - b.last) * t.rate + (stop - now) * t.rate = (stop - b.last) * t.rate := by
        rw [← Nat.add_mul]
        congr 1
        omega
      have hgained := t.gain_mul_le (now - b.last)
      rw [Nat.add_mul] at hnext
      show ((b.refill t now).touches t ts).tokens * t.window + _ = _
      rw [hrefill]
      omega
    case isFalse hgain =>
      have hsame := refill_of_no_gain (b := b) (Nat.eq_zero_of_not_pos hgain)
      rw [hsame] at hrest
      show ((b.refill t now).touches t ts).tokens * t.window + _ = _
      rw [hsame]
      refine ih (List.pairwise_cons.mpr ⟨fun x hx ↦ hle x (List.mem_cons_of_mem _ hx), hord''⟩)
        (fun x hx ↦ hstop x ?_) hrest
      rcases List.mem_cons.mp hx with rfl | hx
      · exact List.mem_cons_self
      · exact List.mem_cons_of_mem _ (List.mem_cons_of_mem _ hx)

/-- Touches from the last gain of a bucket on that end with one at `stop` and never find it full. -/
structure Spans (b : Bucket) (t : Terms) (ts : List Nat) (stop : Nat) : Prop where
  ordered : (b.last :: ts).Pairwise (· ≤ ·)
  le : ∀ now ∈ b.last :: ts, now ≤ stop
  unfilled : b.Unfilled t (ts ++ [stop])

/-- Two amounts that differ by a unit at most. -/
def Near (unit m n : Nat) : Prop := m ≤ n + unit ∧ n ≤ m + unit

instance (unit m n : Nat) : Decidable (Near unit m n) := inferInstanceAs (Decidable (_ ∧ _))

/-- Two ways of touching a bucket over an interval credit the same to one token, if and only if
they leave the same to one token. -/
theorem Spans.near_iff {ts ts' : List Nat} {stop : Nat} (hpos : 0 < t.window)
    (h : b.Spans t ts stop) (h' : b.Spans t ts' stop) :
    Near 1 (b.touches t (ts ++ [stop])).tokens (b.touches t (ts' ++ [stop])).tokens ↔
      Near t.window (left t b.last (ts ++ [stop]) stop) (left t b.last (ts' ++ [stop]) stop) := by
  have hsum : ∀ {ts : List Nat}, b.Spans t ts stop → _ := fun {ts} h ↦
    touches_add_left (b := b) (t := t) (ts ++ [stop]) stop
      (by
        rw [← List.cons_append, List.pairwise_append]
        refine ⟨h.ordered, List.pairwise_singleton _ _, fun x hx y hy ↦ ?_⟩
        rw [List.mem_singleton.mp hy]
        exact h.le x hx)
      (by
        rw [← List.cons_append, List.forall_mem_append]
        exact ⟨h.le, fun x hx ↦ (List.mem_singleton.mp hx).le⟩)
      h.unfilled
  have hmul : ∀ m n : Nat, m ≤ n + 1 ↔ m * t.window ≤ n * t.window + t.window := by
    intro m n
    rw [← Nat.succ_mul]
    exact (Nat.mul_le_mul_right_iff hpos).symm
  have h := hsum h
  have h' := hsum h'
  unfold Near
  rw [hmul, hmul]
  omega

/-- Where the window divides the rate, touches up to the end of an interval leave nothing. -/
theorem left_eq_zero {ts : List Nat} {last stop : Nat}
    (hdvd : t.window ∣ t.rate) (hord : (last :: ts).Pairwise (· ≤ ·))
    (hstop : ∀ now ∈ last :: ts, now ≤ stop) (hfits : (stop - last) * t.rate ≤ t.cap) :
    left t last (ts ++ [stop]) stop = 0 := by
  have hgain : ∀ {now}, (now - last) * t.rate ≤ t.cap →
      t.gain (now - last) * t.window = (now - last) * t.rate := by
    intro now hle
    rw [Terms.gain, Nat.min_eq_left hle]
    exact Nat.div_mul_cancel (hdvd.mul_left _)
  induction ts generalizing last with
  | nil =>
    have hlast := hgain hfits
    rw [List.nil_append, left, left, left, Nat.sub_self, Nat.zero_mul]
    split
    case isTrue => omega
    case isFalse hno =>
      rw [← hlast, Nat.eq_zero_of_not_pos hno, Nat.zero_mul]
  | cons now ts ih =>
    obtain ⟨hle, hord'⟩ := List.pairwise_cons.mp hord
    obtain ⟨hlater, hord''⟩ := List.pairwise_cons.mp hord'
    have hnow := hle now List.mem_cons_self
    have hend := hstop now (List.mem_cons_of_mem _ List.mem_cons_self)
    have hone : (now - last) * t.rate ≤ t.cap :=
      (Nat.mul_le_mul_right _ (Nat.sub_le_sub_right hend last)).trans hfits
    rw [List.cons_append, left]
    split
    case isTrue =>
      have hrest : (stop - now) * t.rate ≤ t.cap :=
        (Nat.mul_le_mul_right _ (Nat.sub_le_sub_left hnow stop)).trans hfits
      rw [hgain hone, Nat.sub_self, Nat.zero_add]
      refine ih hord' (fun x hx ↦ hstop x (List.mem_cons_of_mem _ hx)) hrest fun {x} hx ↦ ?_
      rw [Terms.gain, Nat.min_eq_left hx]
      exact Nat.div_mul_cancel (hdvd.mul_left _)
    case isFalse =>
      refine ih (List.pairwise_cons.mpr ⟨fun x hx ↦ hle x (List.mem_cons_of_mem _ hx), hord''⟩)
        (fun x hx ↦ hstop x ?_) hfits hgain
      rcases List.mem_cons.mp hx with rfl | hx
      · exact List.mem_cons_self
      · exact List.mem_cons_of_mem _ (List.mem_cons_of_mem _ hx)

/-! ## Savings -/

/-- What a bucket has saved towards a number of tokens. -/
def saved (b : Bucket) (t : Terms) (goal now : Nat) : Nat :=
  min (b.tokens * t.window + (now - b.last) * t.rate) (goal * t.window)

variable {goal : Nat}

/-- A goal that integers can count up to and the burst does not cut off. -/
structure Terms.Reaches (t : Terms) (goal : Nat) : Prop where
  fits : goal * t.window ≤ t.cap
  burst : goal ≤ t.burst

/-- Where the window divides the rate, a refill takes nothing from the savings. -/
theorem saved_le_refill (hdvd : t.window ∣ t.rate) (hpos : 0 < t.window) (hgoal : t.Reaches goal) :
    b.saved t goal now ≤ (b.refill t now).saved t goal now := by
  by_cases h : 0 < t.gain (now - b.last)
  · have hburst := Nat.mul_le_mul_right t.window hgoal.burst
    have hcap : goal * t.window ≤ t.cap * t.window :=
      hgoal.fits.trans (Nat.le_mul_of_pos_right _ hpos)
    have hfits := hgoal.fits
    -- What the time elapsed is worth is gained whole, or is more than the goal.
    have hgain : min ((now - b.last) * t.rate) (goal * t.window) ≤
        t.gain (now - b.last) * t.window := by
      unfold Terms.gain
      rcases Nat.le_total ((now - b.last) * t.rate) t.cap with hle | hle
      · rw [Nat.min_eq_left hle, Nat.div_mul_cancel (hdvd.mul_left _)]
        exact Nat.min_le_left _ _
      · rw [Nat.min_eq_right hle]
        refine (Nat.min_le_right _ _).trans ?_
        exact Nat.mul_le_mul_right _ ((Nat.le_div_iff_mul_le hpos).mpr hfits)
    have htokens : (min (min (b.tokens + t.gain (now - b.last)) t.cap) t.burst) * t.window =
        min (min ((b.tokens + t.gain (now - b.last)) * t.window) (t.cap * t.window))
          (t.burst * t.window) := by
      rw [← Nat.mul_min_mul_right, ← Nat.mul_min_mul_right]
    rw [Nat.add_mul] at htokens
    rw [refill_of_gain h]
    unfold saved
    dsimp only
    rw [htokens]
    omega
  · rw [refill_of_no_gain (Nat.eq_zero_of_not_pos h)]

/-- Time adds to the savings at the rate. -/
theorem saved_advance (hlast : b.last ≤ now) (h : now ≤ now') :
    min (b.saved t goal now + (now' - now) * t.rate) (goal * t.window) ≤ b.saved t goal now' := by
  have hmul : (now' - b.last) * t.rate = (now - b.last) * t.rate + (now' - now) * t.rate := by
    rw [← Nat.add_mul]
    congr 1
    omega
  unfold saved
  omega

/-- A settled bucket that has saved up the goal has the tokens. -/
theorem Settled.le_tokens (h : Settled t now b) (ht : t.Sane) (hdvd : t.window ∣ t.rate)
    (hsaved : goal * t.window ≤ b.saved t goal now) : goal ≤ b.tokens := by
  have hpending : (now - b.last) * t.rate = 0 := by
    obtain hzero | hpos := Nat.eq_zero_or_pos t.rate
    · rw [hzero, Nat.mul_zero]
    · have := h.pending_le ht
      rw [Terms.lag, if_pos (Nat.le_of_dvd hpos hdvd)] at this
      exact Nat.le_zero.mp this
  rw [saved, hpending] at hsaved
  exact Nat.le_of_mul_le_mul_right (hsaved.trans (Nat.min_le_left _ _)) ht.pos

end Bucket

/-! ## Metered runs -/

/-- A machine whose steps happen at a time and are charged for. -/
structure Metered (σ ι : Type) where
  step : σ → ι → σ
  clock : ι → Nat
  charge : σ → ι → Nat

namespace Metered

variable {σ ι : Type} (m : Metered σ ι)

/-- The state after a run. -/
def after (s : σ) (is : List ι) : σ := is.foldl m.step s

/-- What a run is charged from the time `a` to the time `b`. -/
def charged (a b : Nat) : σ → List ι → Nat
  | _, [] => 0
  | s, i :: is =>
    (if a ≤ m.clock i ∧ m.clock i ≤ b then m.charge s i else 0) + charged a b (m.step s i) is

/-- The time does not go back in a run. -/
def Ordered (is : List ι) : Prop := is.Pairwise fun i j ↦ m.clock i ≤ m.clock j

/-- A credit that pays for the steps, `unit` for each charge of one: time adds to it at the rate,
and it has a limit. -/
structure Funds (unit rate limit : Nat) (inv : σ → Prop) (allowed : ι → Prop)
    (credit : σ → Nat → Nat) : Prop where
  keeps : ∀ {s i}, inv s → allowed i → inv (m.step s i)
  pays : ∀ {s i}, inv s → allowed i →
    credit (m.step s i) (m.clock i) + m.charge s i * unit ≤ credit s (m.clock i)
  advance : ∀ {s now now'}, inv s → now ≤ now' →
    credit s now' ≤ credit s now + (now' - now) * rate
  le : ∀ {s now}, inv s → credit s now ≤ limit

variable {m} {unit rate limit a b now : Nat} {inv : σ → Prop} {allowed : ι → Prop}
  {credit : σ → Nat → Nat} {s : σ} {is : List ι}

/-- After its end nothing is charged in an interval. -/
theorem charged_eq_zero (h : ∀ i ∈ is, b < m.clock i) : m.charged a b s is = 0 := by
  induction is generalizing s with
  | nil => rfl
  | cons i is ih =>
    rw [List.forall_mem_cons] at h
    rw [charged, ih h.2, if_neg fun hin ↦ absurd hin.2 (Nat.not_le.mpr h.1)]

/-- Within an interval the credit pays for what is charged to its end. -/
theorem Funds.charged_le_credit (h : m.Funds unit rate limit inv allowed credit) (hs : inv s)
    (his : ∀ i ∈ is, allowed i) (hord : m.Ordered is) (hclock : ∀ i ∈ is, now ≤ m.clock i)
    (hnow : now ≤ b) : m.charged a b s is * unit ≤ credit s now + (b - now) * rate := by
  induction is generalizing s now with
  | nil =>
    rw [charged, Nat.zero_mul]
    exact Nat.zero_le _
  | cons i is ih =>
    obtain ⟨hafter, hord⟩ := List.pairwise_cons.mp hord
    rw [List.forall_mem_cons] at his hclock
    rw [charged, Nat.add_mul]
    by_cases hb : m.clock i ≤ b
    · have hrest := ih (h.keeps hs his.1) his.2 hord hafter hb
      have hpays := h.pays hs his.1
      have hadvance := h.advance hs hclock.1
      have htime : (m.clock i - now) * rate + (b - m.clock i) * rate = (b - now) * rate := by
        rw [← Nat.add_mul]
        congr 1
        omega
      split
      · omega
      · omega
    · rw [if_neg fun hin ↦ hb hin.2, charged_eq_zero fun j hj ↦ by have := hafter j hj; omega,
        Nat.zero_mul]
      exact Nat.zero_le _

/-- What is charged in an interval is within the limit and the rate. -/
theorem Funds.charged_le (h : m.Funds unit rate limit inv allowed credit) (hs : inv s)
    (his : ∀ i ∈ is, allowed i) (hord : m.Ordered is) (hab : a ≤ b) :
    m.charged a b s is * unit ≤ limit + (b - a) * rate := by
  induction is generalizing s with
  | nil =>
    rw [charged, Nat.zero_mul]
    exact Nat.zero_le _
  | cons i is ih =>
    obtain ⟨hafter, hord'⟩ := List.pairwise_cons.mp hord
    have his' := List.forall_mem_cons.mp his
    by_cases ha : a ≤ m.clock i
    · -- From the first step of the interval on its credit pays.
      refine (h.charged_le_credit hs his hord ?_ hab).trans
        (Nat.add_le_add_right (h.le hs) _)
      exact List.forall_mem_cons.mpr ⟨ha, fun j hj ↦ ha.trans (hafter j hj)⟩
    · rw [charged, if_neg fun hin ↦ ha hin.1, Nat.zero_add]
      exact ih (h.keeps hs his'.1) his'.2 hord'

/-- Savings that steps without a charge leave alone: time adds to them at the rate, up to a
goal. -/
structure Saves (m : Metered σ ι) (rate goal : Nat) (holds : σ → Nat → Prop) (allowed : ι → Prop)
    (saved : σ → Nat → Nat) : Prop where
  later : ∀ {s now now'}, holds s now → now ≤ now' → holds s now'
  keeps : ∀ {s i now}, holds s now → allowed i → m.clock i ≤ now → holds (m.step s i) now
  frees : ∀ {s i}, holds s (m.clock i) → allowed i → m.charge s i = 0 →
    saved s (m.clock i) ≤ saved (m.step s i) (m.clock i)
  advance : ∀ {s now now'}, holds s now → now ≤ now' →
    min (saved s now + (now' - now) * rate) goal ≤ saved s now'

variable {goal : Nat} {holds : σ → Nat → Prop} {saved : σ → Nat → Nat}

theorem Saves.holds_after (h : m.Saves rate goal holds allowed saved) (hs : holds s b)
    (his : ∀ i ∈ is, allowed i) (hb : ∀ i ∈ is, m.clock i ≤ b) : holds (m.after s is) b := by
  induction is generalizing s with
  | nil => exact hs
  | cons i is ih =>
    rw [List.forall_mem_cons] at his hb
    exact ih (h.keeps hs his.1 hb.1) his.2 hb.2

/-- While nothing is charged the savings grow at the rate. -/
theorem Saves.le_of_uncharged (h : m.Saves rate goal holds allowed saved) (hs : holds s now)
    (his : ∀ i ∈ is, allowed i) (hord : m.Ordered is) (hnow : ∀ i ∈ is, now ≤ m.clock i)
    (hb : ∀ i ∈ is, m.clock i ≤ b) (ha : ∀ i ∈ is, a ≤ m.clock i) (hle : now ≤ b)
    (hnone : m.charged a b s is = 0) :
    min (saved s now + (b - now) * rate) goal ≤ saved (m.after s is) b := by
  induction is generalizing s now with
  | nil => exact h.advance hs hle
  | cons i is ih =>
    obtain ⟨hafter, hord'⟩ := List.pairwise_cons.mp hord
    rw [List.forall_mem_cons] at his hnow hb ha
    rw [charged, if_pos ⟨ha.1, hb.1⟩, Nat.add_eq_zero_iff] at hnone
    have hclock := h.later hs hnow.1
    have hrest := ih (h.keeps hclock his.1 le_rfl) his.2 hord' hafter hb.2 ha.2 hb.1 hnone.2
    have hfrees := h.frees hclock his.1 hnone.1
    have hadvance := h.advance hs hnow.1
    have htime : (m.clock i - now) * rate + (b - m.clock i) * rate = (b - now) * rate := by
      rw [← Nat.add_mul]
      congr 1
      have := hnow.1
      have := hb.1
      omega
    have hdone : min (saved s now + (b - now) * rate) goal ≤
        min (saved (m.step s i) (m.clock i) + (b - m.clock i) * rate) goal := by omega
    exact hdone.trans hrest

/-- When nothing is charged after the time `a`, what the time since is worth is saved. -/
theorem Saves.le_saved (h : m.Saves rate goal holds allowed saved) (hs : holds s a)
    (his : ∀ i ∈ is, allowed i) (hord : m.Ordered is) (hb : ∀ i ∈ is, m.clock i ≤ b) (hle : a ≤ b)
    (hnone : m.charged (a + 1) b s is = 0) :
    min ((b - a) * rate) goal ≤ saved (m.after s is) b := by
  induction is generalizing s with
  | nil =>
    refine le_trans ?_ (h.advance hs hle)
    omega
  | cons i is ih =>
    by_cases hlater : a + 1 ≤ m.clock i
    · have hall : ∀ j ∈ i :: is, a + 1 ≤ m.clock j := by
        rintro j (_ | ⟨_, hj⟩)
        · exact hlater
        · exact hlater.trans ((List.pairwise_cons.mp hord).1 j hj)
      refine le_trans ?_ (h.le_of_uncharged hs his hord (fun j hj ↦ (Nat.le_succ a).trans (hall j hj))
        hb hall hle hnone)
      omega
    · rw [List.forall_mem_cons] at his hb
      rw [charged, if_neg fun hin ↦ hlater hin.1, Nat.zero_add] at hnone
      exact ih (h.keeps hs his.1 (by omega)) his.2 (List.pairwise_cons.mp hord).2 hb.2 hnone

end Metered

end Plaine.Lib
