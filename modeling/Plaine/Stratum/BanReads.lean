import Plaine.Stratum.BanRun
import Mathlib.Data.List.Dedup

/-!
# Looking at the table

A read decays the score of the address it is about, and moves its row to the front.  Decay is a
flow: what it makes of a record at one time and then at a later one is what it makes of the record
at the later time.  So reads of addresses that have been in contact leave no trace, as long as the
table has room for every address; a read that is itself the first contact starts the clock of the
address, and where rows go for want of room the order of the rows matters.
-/

namespace Plaine.Stratum

open Plaine.Lib Plaine.Consensus

/-! ## Decay -/

namespace IpRecord

/-- A record with points taken off, of `soft` before `hard`. -/
def drain (r : IpRecord) (period points : Nat) : IpRecord :=
  { r with
    soft := r.soft - points
    hard := r.hard - (points - r.soft)
    lastDecayMs := r.lastDecayMs + points * period * 1000 }

theorem drain_zero (r : IpRecord) (period : Nat) : r.drain period 0 = r := by
  unfold drain
  rw [Nat.zero_sub, Nat.zero_mul, Nat.zero_mul]
  rfl

theorem drain_drain (r : IpRecord) (period p q : Nat) :
    (r.drain period p).drain period q = r.drain period (p + q) := by
  unfold drain
  congr 1
  · dsimp only
    omega
  · exact Nat.sub_sub _ _ _
  · dsimp only
    rw [Nat.add_mul, Nat.add_mul, Nat.add_assoc]

variable {decaySecs now now' : Nat}

/-- The points a record loses by a time. -/
def due (r : IpRecord) (decaySecs now : Nat) : Nat :=
  (now - r.lastDecayMs) / 1000 / max decaySecs 1

theorem decay_eq_drain (r : IpRecord) (h : now / 1000 / max decaySecs 1 < 2 ^ 32) :
    r.decay decaySecs now = r.drain (max decaySecs 1) (r.due decaySecs now) := by
  have hdue : r.due decaySecs now < 2 ^ 32 :=
    lt_of_le_of_lt (Nat.div_le_div_right (Nat.div_le_div_right (Nat.sub_le _ _))) h
  have hmod : (now - r.lastDecayMs) / 1000 / max decaySecs 1 % 2 ^ 32 = r.due decaySecs now :=
    Nat.mod_eq_of_lt hdue
  unfold decay
  dsimp only
  rw [hmod]
  split
  case isTrue =>
    unfold drain
    congr 1 <;> omega
  case isFalse hzero => rw [Nat.eq_zero_of_not_pos hzero, drain_zero]

/-- Decay at a time and at a later one is decay at the later one. -/
theorem decay_decay (r : IpRecord) (hle : now ≤ now')
    (h : now' / 1000 / max decaySecs 1 < 2 ^ 32) :
    (r.decay decaySecs now).decay decaySecs now' = r.decay decaySecs now' := by
  have hnow : now / 1000 / max decaySecs 1 < 2 ^ 32 :=
    lt_of_le_of_lt (Nat.div_le_div_right (Nat.div_le_div_right hle)) h
  have hdue : r.due decaySecs now ≤ r.due decaySecs now' :=
    Nat.div_le_div_right (Nat.div_le_div_right (Nat.sub_le_sub_right hle _))
  have hrest : (r.drain (max decaySecs 1) (r.due decaySecs now)).due decaySecs now' =
      r.due decaySecs now' - r.due decaySecs now := by
    have hperiod : r.due decaySecs now * max decaySecs 1 * 1000 =
        1000 * max decaySecs 1 * r.due decaySecs now := by
      rw [Nat.mul_assoc, Nat.mul_comm, Nat.mul_comm 1000]
    generalize r.due decaySecs now = points at hperiod
    unfold due drain
    dsimp only
    rw [hperiod, ← Nat.sub_sub, Nat.div_div_eq_div_mul, Nat.sub_mul_div, Nat.div_div_eq_div_mul]
  rw [r.decay_eq_drain hnow, decay_eq_drain _ h, decay_eq_drain _ h, hrest, drain_drain,
    Nat.add_sub_cancel' hdue]

theorem seen_decay (r : IpRecord) (decaySecs now : Nat) :
    (r.decay decaySecs now).seen = r.seen := by
  unfold decay
  dsimp only
  split <;> rfl

theorem meet_seen {r : IpRecord} (h : r.seen = true) (now : Nat) : r.meet now = r := if_pos h

theorem seen_meet (r : IpRecord) (now : Nat) : (r.meet now).seen = true := by
  unfold meet
  split
  case isTrue h => exact h
  case isFalse => rfl

end IpRecord

namespace BanTable

theorem seen_found (pol : BanPolicy) (now : Nat) (r : Option IpRecord) :
    (found pol now r).seen = true :=
  (IpRecord.seen_decay _ _ _).trans (IpRecord.seen_meet _ _)

/-- A record that was found at a time is found as if it had not been. -/
theorem found_found {pol : BanPolicy} {now now' : Nat} {r : IpRecord} (hseen : r.seen = true)
    (hle : now ≤ now') (h : now' / 1000 / max pol.decaySecs 1 < 2 ^ 32) :
    found pol now' (some (found pol now (some r))) = found pol now' (some r) := by
  have hmet : (found pol now (some r)).meet now' = found pol now (some r) :=
    IpRecord.meet_seen (seen_found pol now _) now'
  show ((found pol now (some r)).meet now').decay _ _ = (r.meet now').decay _ _
  rw [hmet, IpRecord.meet_seen hseen]
  show ((r.meet now).decay _ _).decay _ _ = _
  rw [IpRecord.meet_seen hseen, IpRecord.decay_decay r hle h]

/-- Two records that no later look tells apart. -/
structure Alike (pol : BanPolicy) (clock : Nat) (r r' : Option IpRecord) : Prop where
  none : r = none ↔ r' = none
  seen : ∀ x, r = some x → x.seen = true
  seen' : ∀ x, r' = some x → x.seen = true
  found : ∀ now, clock ≤ now → now / 1000 / max pol.decaySecs 1 < 2 ^ 32 →
    found pol now r = found pol now r'

variable {pol : BanPolicy} {clock now : Nat} {r r' : Option IpRecord}

theorem Alike.mono (h : Alike pol clock r r') (hle : clock ≤ now) : Alike pol now r r' :=
  ⟨h.none, h.seen, h.seen', fun now' hnow' ↦ h.found now' (hle.trans hnow')⟩

theorem alike_some {x : IpRecord} (hx : x.seen = true) : Alike pol clock (some x) (some x) := by
  refine ⟨Iff.rfl, ?_, ?_, fun _ _ _ ↦ rfl⟩ <;>
  · rintro y ⟨⟩
    exact hx

/-- A look at one of them. -/
theorem Alike.look (h : Alike pol clock r r') (hle : clock ≤ now) (hr : r ≠ Option.none) :
    Alike pol now (some (BanTable.found pol now r)) r' := by
  obtain ⟨x, rfl⟩ := Option.ne_none_iff_exists'.mp hr
  refine ⟨iff_of_false (Option.some_ne_none _) fun hr' ↦ hr (h.none.mpr hr'), ?_, h.seen',
    fun now' hnow' hbound ↦ ?_⟩
  · rintro y ⟨⟩
    exact seen_found pol now _
  · rw [found_found (h.seen x rfl) hnow' hbound]
    exact h.found now' (hle.trans hnow') hbound

end BanTable

namespace BanOp

open BanTable

variable {β : Type} [TokenBucket β] {pol : BanPolicy} {caps : Caps} {now : Nat}

theorem seen_act {r : IpRecord} (hr : r.seen = true) (op : BanOp) (granted : Bool) :
    (op.act pol caps now granted r).2.seen = true := by
  have hattempt : (attempt r now).seen = r.seen := by
    unfold attempt
    dsimp only
    split <;> rfl
  cases op with
  | score _ | isBanned _ | attemptsThisMinute _ | conns _ | throttle _ | release _ => exact hr
  | penalise _ points severity =>
    dsimp only [act]
    cases severity <;> split <;> exact hr
  | admitConn _ _ =>
    dsimp only [act]
    split
    case h_1 => exact hattempt.trans hr
    case h_2 => split <;> exact hattempt.trans hr

/-- A read leaves the record as it found it, and asks the bucket for nothing. -/
theorem IsRead.act {op : BanOp} (h : op.IsRead) (pol : BanPolicy) (caps : Caps) (now : Nat)
    (r : IpRecord) (granted : Bool) :
    (op.act pol caps now granted r).2 = r ∧ op.draws now caps r = false := by
  cases op with
  | score _ | isBanned _ | attemptsThisMinute _ | conns _ => exact ⟨rfl, rfl⟩
  | penalise _ _ _ | throttle _ | admitConn _ _ | release _ => exact h.elim

/-- The answers of a run to the operations that are not extra. -/
def answers (caps : Caps) : BanTable → β → List (Nat × BanOp × Bool) → List BanAnswer
  | _, _, [] => []
  | t, b, (now, op, extra) :: ops =>
    let (a, t, b) := op.exec caps now t b
    if extra then answers caps t b ops else a :: answers caps t b ops

theorem answers_cons (caps : Caps) (t : BanTable) (b : β) (now : Nat) (op : BanOp) (extra : Bool)
    (ops : List (Nat × BanOp × Bool)) : answers caps t b ((now, op, extra) :: ops) =
      if extra then answers caps (op.exec caps now t b).2.1 (op.exec caps now t b).2.2 ops
      else (op.exec caps now t b).1 ::
        answers caps (op.exec caps now t b).2.1 (op.exec caps now t b).2.2 ops := rfl

/-- An operation comes to the record of its address. -/
def Reaches (pol : BanPolicy) (caps : Caps) (op : BanOp) : Prop := op.skips pol caps = none

instance (pol : BanPolicy) (caps : Caps) : DecidablePred (Reaches pol caps) := fun op ↦
  inferInstanceAs (Decidable (op.skips pol caps = none))

/-- The addresses a run comes to. -/
def reached (pol : BanPolicy) (caps : Caps) (ops : List (Nat × BanOp × Bool)) : List IpAddr :=
  ((ops.map (·.2.1)).filter (Reaches pol caps)).map ip

theorem reached_cons (pol : BanPolicy) (caps : Caps) (x : Nat × BanOp × Bool)
    (ops : List (Nat × BanOp × Bool)) : reached pol caps (x :: ops) =
      if Reaches pol caps x.2.1 then x.2.1.ip :: reached pol caps ops
      else reached pol caps ops := by
  unfold reached
  rw [List.map_cons, List.filter_cons]
  simp only [decide_eq_true_eq]
  split <;> rfl

/-- There is a row for each address that has one or will be reached. -/
def Room (pol : BanPolicy) (caps : Caps) (cap : Nat) (f : IpAddr → Option IpRecord)
    (ops : List (Nat × BanOp × Bool)) : Prop :=
  ∀ l : List IpAddr, l.Nodup → (∀ ip ∈ l, f ip ≠ none ∨ ip ∈ reached pol caps ops) → l.length ≤ cap

/-- The operations marked extra are reads of addresses that have been reached. -/
def Known (pol : BanPolicy) (caps : Caps) (f : IpAddr → Option IpRecord)
    (ops : List (Nat × BanOp × Bool)) : Prop :=
  ∀ xs x ys, ops = xs ++ x :: ys → x.2.2 = true → x.2.1.IsRead ∧
    (f x.2.1.ip ≠ none ∨ ∃ y ∈ xs, y.2.2 = false ∧ Reaches pol caps y.2.1 ∧ y.2.1.ip = x.2.1.ip)

variable {cap : Nat} {f g : IpAddr → Option IpRecord} {x : Nat × BanOp × Bool}
  {ops : List (Nat × BanOp × Bool)}

theorem Room.tail (h : Room pol caps cap f (x :: ops))
    (hg : ∀ ip, g ip ≠ none → f ip ≠ none ∨ Reaches pol caps x.2.1 ∧ ip = x.2.1.ip) :
    Room pol caps cap g ops := by
  refine fun l hl hmem ↦ h l hl fun ip hip ↦ ?_
  rw [reached_cons]
  rcases hmem ip hip with hgip | hops
  · rcases hg ip hgip with hf | ⟨hx, rfl⟩
    · exact .inl hf
    · rw [if_pos hx]
      exact .inr List.mem_cons_self
  · right
    split
    case isTrue => exact List.mem_cons_of_mem _ hops
    case isFalse => exact hops

theorem Room.not_full (h : Room pol caps cap f (x :: ops)) (hx : Reaches pol caps x.2.1) :
    ¬Full cap x.2.1.ip f := by
  rintro ⟨hnone, l, hl, rfl, hmem⟩
  refine absurd (h (x.2.1.ip :: l) (List.nodup_cons.mpr ⟨fun hin ↦ hmem _ hin hnone, hl⟩) ?_)
    (Nat.not_succ_le_self _)
  intro ip hip
  rcases List.mem_cons.mp hip with rfl | hip
  · rw [reached_cons, if_pos hx]
    exact .inr List.mem_cons_self
  · exact .inl (hmem ip hip)

theorem Known.tail (h : Known pol caps f (x :: ops)) (hg : ∀ ip, f ip ≠ none → g ip ≠ none)
    (hx : x.2.2 = false → Reaches pol caps x.2.1 → g x.2.1.ip ≠ none) : Known pol caps g ops := by
  rintro xs y ys rfl hy
  obtain ⟨hread, hknown⟩ := h (x :: xs) y ys rfl hy
  refine ⟨hread, ?_⟩
  rcases hknown with hf | ⟨z, hz, hfalse, hreach, hip⟩
  · exact .inl (hg _ hf)
  · rcases List.mem_cons.mp hz with rfl | hz
    · exact .inl (hip ▸ hx hfalse hreach)
    · exact .inr ⟨z, hz, hfalse, hreach, hip⟩

/-- Two tables that no later operation tells apart. -/
structure Twins (pol : BanPolicy) (cap clock : Nat) (t t' : BanTable)
    (f f' : IpAddr → Option IpRecord) : Prop where
  shows : Shows t f
  shows' : Shows t' f'
  policy : t.pol = pol ∧ t'.pol = pol
  size : t.ips.cap = cap ∧ t'.ips.cap = cap
  alike : ∀ ip, Alike pol clock (f ip) (f' ip)

variable {clock : Nat} {t t' : BanTable} {f' : IpAddr → Option IpRecord}

theorem Twins.mono (h : Twins pol cap clock t t' f f') (hle : clock ≤ now) :
    Twins pol cap now t t' f f' :=
  ⟨h.shows, h.shows', h.policy, h.size, fun ip ↦ (h.alike ip).mono hle⟩


/-- An operation on a table with room for its address touches no other row. -/
theorem exec_room (hf : Shows t f) (caps : Caps) (now : Nat) {op : BanOp}
    (hreach : Reaches t.pol caps op)
    (hfull : ¬Full t.ips.cap op.ip f) (b : β) :
    (op.exec caps now t b).1 = (op.act t.pol caps now (TokenBucket.take b now).1
      (found t.pol now (f op.ip))).1 ∧
    (op.exec caps now t b).2.2 = (if op.draws now caps (found t.pol now (f op.ip))
      then (TokenBucket.take b now).2 else b) ∧
    ((op.exec caps now t b).2.1.pol = t.pol ∧ (op.exec caps now t b).2.1.ips.cap = t.ips.cap) ∧
    Shows (op.exec caps now t b).2.1 (Function.update f op.ip
      (some (op.act t.pol caps now (TokenBucket.take b now).1 (found t.pol now (f op.ip))).2)) := by
  rcases exec_spec hf caps now b op with ⟨a, hskip, -⟩ | ⟨-, hanswer, hbucket, hkept, hrows⟩
  · cases hreach.symm.trans hskip
  · refine ⟨hanswer, hbucket, hkept, ?_⟩
    rcases hrows with ⟨-, hfull', -⟩ | ⟨-, f', hmakes, hshows⟩
    · exact absurd hfull' hfull
    · rcases hmakes with rfl | ⟨hfull', -⟩
      · exact hshows
      · exact absurd hfull' hfull

/-- An operation that does not come to the record changes nothing. -/
theorem exec_skips {op : BanOp} (hreach : ¬Reaches t.pol caps op) (hf : Shows t f) (now : Nat)
    (b : β) :
    ∃ a, op.skips t.pol caps = some a ∧ op.exec caps now t b = (a, t, b) := by
  rcases exec_spec hf caps now b op with h | ⟨hskip, -⟩
  · exact h
  · exact absurd hskip hreach

/-- The same operation on both tables is answered the same. -/
theorem Twins.both (h : Twins pol cap now t t' f f') (caps : Caps) {op : BanOp} (b : β)
    (hbound : now / 1000 / max pol.decaySecs 1 < 2 ^ 32)
    (hfull : Reaches pol caps op → ¬Full cap op.ip f) :
    (op.exec caps now t b).1 = (op.exec caps now t' b).1 ∧
    (op.exec caps now t b).2.2 = (op.exec caps now t' b).2.2 ∧
    ∃ g g', Twins pol cap now (op.exec caps now t b).2.1 (op.exec caps now t' b).2.1 g g' ∧
      (∀ ip, g ip ≠ none ↔ f ip ≠ none ∨ Reaches pol caps op ∧ ip = op.ip) := by
  obtain ⟨hf, hf', ⟨rfl, hpol⟩, ⟨rfl, hcap⟩, halike⟩ := h
  by_cases hreach : Reaches t.pol caps op
  · have hfull' : ¬Full t'.ips.cap op.ip f' := by
      rintro ⟨hnone, l, hl, hlen, hmem⟩
      exact hfull hreach ⟨(halike _).none.mpr hnone, l, hl, hlen.trans hcap,
        fun ip hip hnone' ↦ hmem ip hip ((halike ip).none.mp hnone')⟩
    obtain ⟨hanswer, hbucket, hkept, hshows⟩ := exec_room hf caps now hreach (hfull hreach) b
    obtain ⟨hanswer', hbucket', hkept', hshows'⟩ :=
      exec_room hf' caps now (hpol.symm ▸ hreach) hfull' b
    rw [hpol, ← (halike op.ip).found now le_rfl hbound] at hanswer' hbucket' hshows'
    refine ⟨hanswer.trans hanswer'.symm, hbucket.trans hbucket'.symm, _, _,
      ⟨hshows, hshows', ⟨hkept.1, hkept'.1.trans hpol⟩, ⟨hkept.2, hkept'.2.trans hcap⟩,
        fun ip ↦ ?_⟩, fun ip ↦ ?_⟩
    · rcases eq_or_ne ip op.ip with rfl | hne
      · rw [Function.update_self, Function.update_self]
        exact alike_some (seen_act (seen_found _ _ _) op _)
      · rw [Function.update_of_ne hne, Function.update_of_ne hne]
        exact halike ip
    · rcases eq_or_ne ip op.ip with rfl | hne
      · rw [Function.update_self]
        exact iff_of_true (Option.some_ne_none _) (.inr ⟨hreach, rfl⟩)
      · rw [Function.update_of_ne hne]
        exact (or_iff_left fun h ↦ hne h.2).symm
  · obtain ⟨a, hskip, heq⟩ := exec_skips hreach hf now b
    obtain ⟨a', hskip', heq'⟩ := exec_skips (hpol.symm ▸ hreach) hf' now b
    rw [hpol, hskip, Option.some.injEq] at hskip'
    subst hskip'
    rw [heq, heq']
    exact ⟨rfl, rfl, f, f', ⟨hf, hf', ⟨rfl, hpol⟩, ⟨rfl, hcap⟩, halike⟩,
      fun ip ↦ (or_iff_left fun h ↦ hreach h.1).symm⟩

/-- A read of one of them only. -/
theorem Twins.look (h : Twins pol cap now t t' f f') (caps : Caps) {op : BanOp}
    (hread : op.IsRead)
    (hknown : f op.ip ≠ none) (b : β) :
    (op.exec caps now t b).2.2 = b ∧
    ∃ g, Twins pol cap now (op.exec caps now t b).2.1 t' g f' ∧
      ∀ ip, g ip ≠ none ↔ f ip ≠ none := by
  obtain ⟨hf, hf', ⟨rfl, hpol⟩, ⟨rfl, hcap⟩, halike⟩ := h
  by_cases hreach : Reaches t.pol caps op
  · obtain ⟨-, hbucket, hkept, hshows⟩ :=
      exec_room hf caps now hreach (fun hfull ↦ hknown hfull.1) b
    obtain ⟨hsame, hdraws⟩ := hread.act t.pol caps now
      (found t.pol now (f op.ip)) (TokenBucket.take b now).1
    rw [hdraws] at hbucket
    rw [hsame] at hshows
    refine ⟨hbucket, _, ⟨hshows, hf', ⟨hkept.1, hpol⟩, ⟨hkept.2, hcap⟩, fun ip ↦ ?_⟩, fun ip ↦ ?_⟩
    · rcases eq_or_ne ip op.ip with rfl | hne
      · rw [Function.update_self]
        exact (halike _).look le_rfl hknown
      · rw [Function.update_of_ne hne]
        exact halike ip
    · rcases eq_or_ne ip op.ip with rfl | hne
      · rw [Function.update_self]
        exact iff_of_true (Option.some_ne_none _) hknown
      · rw [Function.update_of_ne hne]
  · obtain ⟨a, -, heq⟩ := exec_skips hreach hf now b
    rw [heq]
    exact ⟨rfl, f, ⟨hf, hf', ⟨rfl, hpol⟩, ⟨rfl, hcap⟩, halike⟩, fun _ ↦ Iff.rfl⟩

/-- Two tables that nothing tells apart, one of them read now and then, give the same answers. -/
theorem Twins.answers (h : Twins pol cap clock t t' f f') (b : β)
    (hsorted : ops.Pairwise (·.1 ≤ ·.1)) (hclock : ∀ x ∈ ops, clock ≤ x.1)
    (hbound : ∀ x ∈ ops, x.1 / 1000 / max pol.decaySecs 1 < 2 ^ 32)
    (hroom : Room pol caps cap f ops) (hknown : Known pol caps f ops) :
    answers caps t b ops = answers caps t' b (ops.filter fun x ↦ !x.2.2) := by
  induction ops generalizing clock t t' f f' b with
  | nil => rfl
  | cons x ops ih =>
    obtain ⟨hmin, hrest⟩ := List.pairwise_cons.mp hsorted
    have hbound' := hbound x List.mem_cons_self
    have hbounds := fun y hy ↦ hbound y (List.mem_cons_of_mem _ hy)
    replace h := h.mono (hclock x List.mem_cons_self)
    obtain ⟨now, op, extra⟩ := x
    cases extra with
    | false =>
      obtain ⟨hanswer, hbucket, g, g', htwins, hg⟩ := h.both caps b hbound' hroom.not_full
      have hops := ih htwins ((op.exec caps now t b).2.2) hrest hmin hbounds
        (hroom.tail fun ip ↦ (hg ip).mp)
        (hknown.tail (fun ip hip ↦ (hg ip).mpr (.inl hip))
          fun _ hreach ↦ (hg _).mpr (.inr ⟨hreach, rfl⟩))
      rw [List.filter_cons_of_pos rfl, answers_cons, answers_cons, hops, hanswer, hbucket]
    | true =>
      obtain ⟨hread, hip⟩ := hknown [] (now, op, true) ops rfl rfl
      replace hip : f op.ip ≠ none := by
        rcases hip with hip | ⟨y, hy, -⟩
        · exact hip
        · cases hy
      obtain ⟨hbucket, g, htwins, hg⟩ := h.look caps hread hip b
      have hops := ih htwins b hrest hmin hbounds
        (hroom.tail fun ip hgip ↦ .inl ((hg ip).mp hgip))
        (hknown.tail (fun ip ↦ (hg ip).mpr) fun hfalse ↦ (by cases hfalse))
      rw [List.filter_cons_of_neg fun h ↦ (by cases h), ← hops, answers_cons, hbucket, if_pos rfl]

end BanOp

namespace BanTable

open BanOp

variable {β : Type} [TokenBucket β] {pol : BanPolicy} {caps : Caps}

/-- Reads of addresses that have been in contact change no later answer of a fresh table that has
room for every address. -/
theorem answers_fresh (b : β) {ops : List (Nat × BanOp × Bool)} (hsorted : ops.Pairwise (·.1 ≤ ·.1))
    (hbound : ∀ x ∈ ops, x.1 / 1000 / max pol.decaySecs 1 < 2 ^ 32)
    (hroom : (reached pol caps ops).dedup.length ≤ max pol.tableEntries 1)
    (hknown : ∀ xs x ys, ops = xs ++ x :: ys → x.2.2 = true → x.2.1.IsRead ∧
      ∃ y ∈ xs, y.2.2 = false ∧ Reaches pol caps y.2.1 ∧ y.2.1.ip = x.2.1.ip) :
    answers caps (withPolicy pol) b ops =
      answers caps (withPolicy pol) b (ops.filter fun x ↦ !x.2.2) := by
  have htwins : Twins pol (withPolicy pol).ips.cap 0 (withPolicy pol) (withPolicy pol)
      (fun _ ↦ none) (fun _ ↦ none) := by
    refine ⟨shows_withPolicy pol, shows_withPolicy pol, ⟨rfl, rfl⟩, ⟨rfl, rfl⟩, fun _ ↦
      ⟨Iff.rfl, ?_, ?_, fun _ _ _ ↦ rfl⟩⟩ <;>
    · rintro x ⟨⟩
  refine htwins.answers b hsorted (fun _ _ ↦ Nat.zero_le _) hbound (fun l hl hmem ↦ ?_)
    fun xs x ys hops hx ↦ (hknown xs x ys hops hx).imp_right .inr
  refine le_trans ?_ (hroom.trans (le_max_left _ _))
  refine (List.subperm_of_subset hl fun ip hip ↦ List.mem_dedup.mpr ?_).length_le
  exact (hmem ip hip).resolve_left fun h ↦ h rfl

end BanTable

end Plaine.Stratum
