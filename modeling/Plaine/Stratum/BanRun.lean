import Plaine.Stratum.Abuse

/-!
# What the table of addresses remembers

Connections are counted, and bans and throttles in force are kept, over any run that does not
saturate the table.  Reads decay the scores they look at; what they leave behind is what a later
look would have made of them, but a first contact starts the clock of an address, and a read can be
one.
-/

namespace Plaine.Stratum

open Plaine.Lib Plaine.Consensus

namespace BanTable

/-! ## Rows -/

/-- The records of a table: `f` has those of the addresses in it. -/
def Shows (t : BanTable) (f : IpAddr → Option IpRecord) : Prop :=
  ∃ l, t.ips.Holds l ∧ ∀ ip r, f ip = some r ↔ (ip, r) ∈ l

/-- The record of an address, as it is found at a time. -/
def found (pol : BanPolicy) (nowMs : Nat) (r : Option IpRecord) : IpRecord :=
  ((r.getD default).meet nowMs).decay pol.decaySecs nowMs

/-- An address is new, and the table has no room for it. -/
def Full (cap : Nat) (ip : IpAddr) (f : IpAddr → Option IpRecord) : Prop :=
  f ip = none ∧ ∃ l : List IpAddr, l.Nodup ∧ l.length = cap ∧ ∀ ip' ∈ l, f ip' ≠ none

/-- What may be missing of the rows once an address has been looked up: that of another, which may
go, when the address was new and the table full. -/
def Makes (cap : Nat) (ip : IpAddr) (nowMs : Nat) (f f' : IpAddr → Option IpRecord) : Prop :=
  f' = f ∨ Full cap ip f ∧ ∃ ip' r, ip' ≠ ip ∧ f ip' = some r ∧ r.evictable nowMs = true ∧
    f' = Function.update f ip' none

variable {t : BanTable} {f f' : IpAddr → Option IpRecord} {ip : IpAddr} {now : Nat}

theorem shows_withPolicy (pol : BanPolicy) : Shows (withPolicy pol) fun _ ↦ none :=
  ⟨[], Lru.holds_new _, fun _ _ ↦ iff_of_false (fun h ↦ (by cases h)) List.not_mem_nil⟩

/-- What `decayed` does: it brings the record of the address up to date and moves it to the front,
or the table is saturated. -/
theorem decayed_spec (h : Shows t f) (ip : IpAddr) (now : Nat) :
    ((t.decayed ip now).2.pol = t.pol ∧ (t.decayed ip now).2.ips.cap = t.ips.cap) ∧
    (((t.decayed ip now).1 = none ∧ (t.decayed ip now).2.saturated = t.saturated + 1 ∧
        Full t.ips.cap ip f ∧ Shows (t.decayed ip now).2 f ∧
        (t.decayed ip now).2.record none = { (default : IpRecord) with
          seen := true, lastDecayMs := now, newConnWindowMs := now }) ∨
      ∃ f', Makes t.ips.cap ip now f f' ∧ (t.decayed ip now).2.saturated = t.saturated ∧
        (t.decayed ip now).2.record (t.decayed ip now).1 = found t.pol now (f ip) ∧
        Shows (t.decayed ip now).2 (Function.update f' ip (some (found t.pol now (f ip)))) ∧
        ∀ r, Shows ((t.decayed ip now).2.setRecord (t.decayed ip now).1 r)
          (Function.update f' ip (some r))) := by
  obtain ⟨l, hl, hf⟩ := h
  obtain ⟨hcap, hentry⟩ := hl.entry ip (·.evictable now)
  have hnodup := hl.nodup
  have hnone (hk : ∀ r, (ip, r) ∉ l) : f ip = none :=
    Option.eq_none_iff_forall_ne_some.mpr fun r hr ↦ hk r ((hf ip r).mp hr)
  have hfull (hk : ∀ r, (ip, r) ∉ l) (hlen : l.length = t.ips.cap) : Full t.ips.cap ip f := by
    refine ⟨hnone hk, l.map (·.1), hnodup, (List.length_map _).trans hlen, fun ip' hip' ↦ ?_⟩
    obtain ⟨⟨ip', r⟩, hr, rfl⟩ := List.mem_map.mp hip'
    rw [(hf ip' r).mpr hr]
    exact Option.some_ne_none r
  unfold decayed
  rcases hentry with ⟨i, v, l', hi, hleads, hentry⟩ | ⟨hsat, hentry⟩
  · generalize t.ips.entryOrDefaultProtected ip (·.evictable now) = e at hi hleads hcap
    obtain ⟨slot, ips⟩ := e
    dsimp only at hi hleads hcap
    subst hi
    refine ⟨⟨rfl, (Lru.cap_setValue _ _ _).trans hcap⟩, .inr ?_⟩
    have hv : (f ip).getD default = v ∧ (∀ r, (ip, r) ∉ l') ∧ ∃ f', Makes t.ips.cap ip now f f' ∧
        ∀ ip', ip' ≠ ip → ∀ r, f' ip' = some r ↔ (ip', r) ∈ l' := by
      cases hentry with
      | found l₁ l₂ v =>
        have hsome : f ip = some v := (hf ip v).mpr (List.mem_append_right _ List.mem_cons_self)
        rw [List.map_append, List.map_cons, List.nodup_middle] at hnodup
        have hout := (List.nodup_cons.mp hnodup).1
        rw [← List.map_append] at hout
        refine ⟨by rw [hsome]; rfl, fun r hr ↦ hout (List.mem_map.mpr ⟨_, hr, rfl⟩), f, .inl rfl,
          fun ip' hne r ↦ (hf ip' r).trans ?_⟩
        rw [List.mem_append, List.mem_cons, List.mem_append, Prod.mk.injEq]
        exact or_congr_right (or_iff_right fun h ↦ hne h.1)
      | room l hk hroom =>
        exact ⟨by rw [hnone hk]; rfl, hk, f, .inl rfl, fun ip' _ r ↦ hf ip' r⟩
      | evicted l₁ l₂ k' v' hk hlen hv hlast =>
        have hk' : f k' = some v' := (hf k' v').mpr (List.mem_append_right _ List.mem_cons_self)
        have hne' : k' ≠ ip := by
          rintro rfl
          cases (hnone hk).symm.trans hk'
        rw [List.map_append, List.map_cons, List.nodup_middle] at hnodup
        have hout := (List.nodup_cons.mp hnodup).1
        rw [← List.map_append] at hout
        refine ⟨by rw [hnone hk]; rfl, fun r hr ↦ hk r ?_, Function.update f k' none,
          .inr ⟨hfull hk hlen, k', v', hne', hk', hv, rfl⟩, fun ip' hne r ↦ ?_⟩
        · rw [List.mem_append] at hr ⊢
          exact hr.imp_right (List.mem_cons_of_mem _)
        · rcases eq_or_ne ip' k' with rfl | hne''
          · rw [Function.update_self]
            exact iff_of_false (fun h ↦ (by cases h)) fun hr ↦ hout (List.mem_map.mpr ⟨_, hr, rfl⟩)
          · rw [Function.update_of_ne hne'', hf, List.mem_append, List.mem_cons, List.mem_append,
              Prod.mk.injEq]
            exact or_congr_right (or_iff_right fun h ↦ hne'' h.1)
    obtain ⟨rfl, hout, f', hmakes, hf'⟩ := hv
    have hset (r : IpRecord) (m : Lru IpAddr IpRecord) (hm : Lru.Leads m i ip r l') (ip' r') :
        Function.update f' ip (some r) ip' = some r' ↔ (ip', r') ∈ (ip, r) :: l' := by
      rw [List.mem_cons, Prod.mk.injEq]
      rcases eq_or_ne ip' ip with rfl | hne
      · rw [Function.update_self, Option.some.injEq, and_iff_right rfl, eq_comm]
        exact (or_iff_left (hout r')).symm
      · rw [Function.update_of_ne hne, hf' ip' hne]
        exact (or_iff_right fun h ↦ hne h.1).symm
    have hrecord : ({ t with ips } : BanTable).record (some i) = (f ip).getD default := by
      show (ips.value i).getD default = _
      rw [hleads.value]
      rfl
    have hleads' := hleads.setValue (found t.pol now (f ip))
    dsimp only
    rw [hrecord]
    refine ⟨f', hmakes, rfl, ?_, ⟨_, hleads'.toHolds, hset _ _ hleads'⟩, fun r ↦ ?_⟩
    · show ((ips.setValue i (found t.pol now (f ip))).value i).getD default = _
      rw [hleads'.value]
      rfl
    · have hleads'' := hleads'.setValue r
      exact ⟨_, hleads''.toHolds, hset _ _ hleads''⟩
  · rw [hsat]
    refine ⟨⟨rfl, rfl⟩, .inl ⟨rfl, rfl, ?_, ⟨l, hl, hf⟩, rfl⟩⟩
    cases hentry with
    | saturated l hk hlen _ => exact hfull hk hlen

/-- The scratch record is that of a first contact. -/
theorem found_none (pol : BanPolicy) (now : Nat) : found pol now none = { (default : IpRecord) with
    seen := true, lastDecayMs := now, newConnWindowMs := now } := by
  unfold found IpRecord.decay
  rw [if_neg]
  · rfl
  · show ¬0 < (now - now) / 1000 / _ % _
    rw [Nat.sub_self, Nat.zero_div]
    decide

/-- The clocks and the score aside, a record is found as it was left. -/
theorem found_keeps (pol : BanPolicy) (now : Nat) (r : Option IpRecord) :
    (found pol now r).conns = (r.getD default).conns ∧
      (found pol now r).bannedUntilMs = (r.getD default).bannedUntilMs ∧
      (found pol now r).throttledUntilMs = (r.getD default).throttledUntilMs := by
  unfold found IpRecord.decay IpRecord.meet
  dsimp only
  split <;> split <;> exact ⟨rfl, rfl, rfl⟩

end BanTable

/-! ## Operations -/

/-- What is asked of the table. -/
inductive BanOp where
  | score (ip : IpAddr)
  | isBanned (ip : IpAddr)
  | attemptsThisMinute (ip : IpAddr)
  | conns (ip : IpAddr)
  | penalise (ip : IpAddr) (points : Nat) (severity : Severity)
  | throttle (ip : IpAddr)
  | admitConn (ip : IpAddr) (totalConns : Nat)
  | release (ip : IpAddr)
deriving DecidableEq

/-- What it answers. -/
inductive BanAnswer where
  | number (n : Nat)
  | flag (b : Bool)
  | ban (ms : Option Nat)
  | admitted (a : Admit)
  | unit
deriving DecidableEq

namespace BanOp

/-- The address an operation is about. -/
def ip : BanOp → IpAddr
  | .score ip | .isBanned ip | .attemptsThisMinute ip | .conns ip | .penalise ip _ _
  | .throttle ip | .admitConn ip _ | .release ip => ip

/-- Operations that only look. -/
def IsRead : BanOp → Prop
  | .score _ | .isBanned _ | .attemptsThisMinute _ | .conns _ => True
  | .penalise .. | .throttle _ | .admitConn .. | .release _ => False

instance : DecidablePred IsRead := fun op ↦ by cases op <;> unfold IsRead <;> infer_instance

variable {β : Type} [TokenBucket β]

/-- An operation on the table and the bucket of accepted connections. -/
def exec (caps : Caps) (now : Nat) (t : BanTable) (b : β) : BanOp → BanAnswer × BanTable × β
  | .score ip => (.number (t.score ip now).1, (t.score ip now).2, b)
  | .isBanned ip => (.flag (t.isBanned ip now).1, (t.isBanned ip now).2, b)
  | .attemptsThisMinute ip =>
    (.number (t.attemptsThisMinute ip now).1, (t.attemptsThisMinute ip now).2, b)
  | .conns ip => (.number (t.conns ip now).1, (t.conns ip now).2, b)
  | .penalise ip points severity =>
    (.ban (t.penalise ip points severity now).1, (t.penalise ip points severity now).2, b)
  | .throttle ip => (.unit, t.throttle ip now, b)
  | .admitConn ip totalConns =>
    (.admitted (t.admitConn ip now caps totalConns b).1, (t.admitConn ip now caps totalConns b).2)
  | .release ip => (.unit, t.release ip now, b)

/-- The answer of an operation that does not come to the record. -/
def skips (pol : BanPolicy) (caps : Caps) : BanOp → Option BanAnswer
  | .score _ => if ¬pol.enabled then some (.number 0) else none
  | .isBanned _ => if ¬pol.enabled then some (.flag false) else none
  | .penalise .. => if ¬pol.enabled ∨ pol.threshold = 0 then some (.ban none) else none
  | .throttle _ => if ¬pol.enabled ∨ pol.throttleMs = 0 then some .unit else none
  | .admitConn _ totalConns =>
    if caps.maxConnections ≠ 0 ∧ caps.maxConnections ≤ totalConns then some (.admitted .serverFull)
    else none
  | .attemptsThisMinute _ | .conns _ | .release _ => none

/-- What an operation makes of the record it finds, when the bucket grants a token or does not. -/
def act (pol : BanPolicy) (caps : Caps) (now : Nat) (granted : Bool) (r : IpRecord) :
    BanOp → BanAnswer × IpRecord
  | .score _ => (.number (r.effective pol.softCap), r)
  | .isBanned _ => (.flag (now < r.bannedUntilMs), r)
  | .attemptsThisMinute _ => (.number r.newConns, r)
  | .conns _ => (.number r.conns, r)
  | .penalise _ points severity =>
    let r := BanTable.addPoints r points severity
    if r.effective pol.softCap < pol.threshold ∨ now < r.bannedUntilMs then (.ban none, r)
    else
      let secs := BanTable.banSecs pol r
      (.ban (some (secs * 1000)), { r with
        banCount := saturatingAdd u32Max r.banCount 1
        bannedUntilMs := now + secs * 1000
        hard := 0
        soft := 0 })
  | .throttle _ => (.unit, { r with throttledUntilMs := now + pol.throttleMs })
  | .admitConn _ _ =>
    let r := BanTable.attempt r now
    match BanTable.refusal r now caps with
    | some a => (.admitted a, r)
    | none => if granted then (.admitted .ok, { r with conns := r.conns + 1 })
      else (.admitted .acceptRate, r)
  | .release _ => (.unit, { r with conns := r.conns - 1 })

/-- Whether an operation asks the bucket. -/
def draws (now : Nat) (caps : Caps) (r : IpRecord) : BanOp → Bool
  | .admitConn _ _ => (BanTable.refusal (BanTable.attempt r now) now caps).isNone
  | _ => false

section

open BanTable

theorem shows_of_ips {t t' : BanTable} {f : IpAddr → Option IpRecord} (h : Shows t f)
    (hips : t'.ips = t.ips) : Shows t' f := by
  obtain ⟨l, hl, hf⟩ := h
  exact ⟨l, hips ▸ hl, hf⟩

/-- An operation answers from the record of its address and leaves the record it makes of it. -/
theorem exec_spec {t : BanTable} {f : IpAddr → Option IpRecord} (h : Shows t f) (caps : Caps)
    (now : Nat) (b : β) (op : BanOp) :
    (∃ a, op.skips t.pol caps = some a ∧ op.exec caps now t b = (a, t, b)) ∨
    (op.skips t.pol caps = none ∧
      (op.exec caps now t b).1 = (op.act t.pol caps now (TokenBucket.take b now).1
        (found t.pol now (f op.ip))).1 ∧
      (op.exec caps now t b).2.2 = (if op.draws now caps (found t.pol now (f op.ip))
        then (TokenBucket.take b now).2 else b) ∧
      ((op.exec caps now t b).2.1.pol = t.pol ∧ (op.exec caps now t b).2.1.ips.cap = t.ips.cap) ∧
      (((op.exec caps now t b).2.1.saturated = t.saturated + 1 ∧ Full t.ips.cap op.ip f ∧
          Shows (op.exec caps now t b).2.1 f) ∨
        (op.exec caps now t b).2.1.saturated = t.saturated ∧ ∃ f', Makes t.ips.cap op.ip now f f' ∧
          Shows (op.exec caps now t b).2.1 (Function.update f' op.ip
            (some (op.act t.pol caps now (TokenBucket.take b now).1
              (found t.pol now (f op.ip))).2)))) := by
  obtain ⟨⟨hpol, hcap⟩, hdecayed⟩ := decayed_spec h op.ip now
  have hrecord : (t.decayed op.ip now).2.record (t.decayed op.ip now).1 =
      found t.pol now (f op.ip) := by
    rcases hdecayed with ⟨hslot, -, hfull, -, hrecord⟩ | ⟨f', -, -, hrecord, -⟩
    · rw [hslot, hrecord, hfull.1, found_none]
    · exact hrecord
  have hread : ((t.decayed op.ip now).2.saturated = t.saturated + 1 ∧ Full t.ips.cap op.ip f ∧
        Shows (t.decayed op.ip now).2 f) ∨
      (t.decayed op.ip now).2.saturated = t.saturated ∧ ∃ f', Makes t.ips.cap op.ip now f f' ∧
        Shows (t.decayed op.ip now).2
          (Function.update f' op.ip (some (found t.pol now (f op.ip)))) := by
    rcases hdecayed with ⟨-, hsat, hfull, hshows, -⟩ | ⟨f', hmakes, hsat, -, hshows, -⟩
    · exact .inl ⟨hsat, hfull, hshows⟩
    · exact .inr ⟨hsat, f', hmakes, hshows⟩
  have hwrite (r : IpRecord) {t' : BanTable}
      (hsat' : t'.saturated = (t.decayed op.ip now).2.saturated)
      (hips : t'.ips = ((t.decayed op.ip now).2.setRecord (t.decayed op.ip now).1 r).ips) :
      (t'.saturated = t.saturated + 1 ∧ Full t.ips.cap op.ip f ∧ Shows t' f) ∨
        t'.saturated = t.saturated ∧ ∃ f', Makes t.ips.cap op.ip now f f' ∧
          Shows t' (Function.update f' op.ip (some r)) := by
    rcases hdecayed with ⟨hslot, hsat, hfull, hshows, -⟩ | ⟨f', hmakes, hsat, -, -, hset⟩
    · rw [hslot] at hips
      exact .inl ⟨hsat'.trans hsat, hfull, shows_of_ips hshows hips⟩
    · exact .inr ⟨hsat'.trans hsat, f', hmakes, shows_of_ips (hset r) hips⟩
  have hset (slot : Option Nat) (t' : BanTable) (r : IpRecord) :
      ((t'.setRecord slot r).pol = t'.pol ∧ (t'.setRecord slot r).ips.cap = t'.ips.cap) ∧
        (t'.setRecord slot r).saturated = t'.saturated := by
    cases slot
    · exact ⟨⟨rfl, rfl⟩, rfl⟩
    · exact ⟨⟨rfl, Lru.cap_setValue _ _ _⟩, rfl⟩
  have hkept (slot : Option Nat) (r : IpRecord) :
      ((t.decayed op.ip now).2.setRecord slot r).pol = t.pol ∧
        ((t.decayed op.ip now).2.setRecord slot r).ips.cap = t.ips.cap :=
    ⟨(hset _ _ _).1.1.trans hpol, (hset _ _ _).1.2.trans hcap⟩
  cases op with
  | score ip =>
    dsimp only [exec, skips, act, draws, BanOp.ip, BanTable.score] at hpol hrecord hread hwrite ⊢
    split
    case isTrue => exact .inl ⟨_, rfl, rfl⟩
    case isFalse => exact .inr ⟨rfl, by rw [hrecord, hpol], rfl, ⟨hpol, hcap⟩, hread⟩
  | isBanned ip =>
    dsimp only [exec, skips, act, draws, BanOp.ip, BanTable.isBanned] at hpol hrecord hread hwrite ⊢
    split
    case isTrue => exact .inl ⟨_, rfl, rfl⟩
    case isFalse => exact .inr ⟨rfl, by rw [← hrecord], rfl, ⟨hpol, hcap⟩, hread⟩
  | attemptsThisMinute ip =>
    dsimp only [exec, skips, act, draws, BanOp.ip, BanTable.attemptsThisMinute] at hrecord ⊢
    exact .inr ⟨rfl, by rw [hrecord], rfl, ⟨hpol, hcap⟩, hread⟩
  | conns ip =>
    dsimp only [exec, skips, act, draws, BanOp.ip, BanTable.conns] at hrecord ⊢
    exact .inr ⟨rfl, by rw [hrecord], rfl, ⟨hpol, hcap⟩, hread⟩
  | penalise ip points severity =>
    dsimp only [exec, skips, act, draws, BanOp.ip, BanTable.penalise] at hpol hrecord hread hwrite ⊢
    split
    case isTrue => exact .inl ⟨_, rfl, rfl⟩
    case isFalse =>
      right
      rw [hrecord, hpol]
      split
      case isTrue =>
        exact ⟨rfl, rfl, rfl, hkept _ _, hwrite _ (hset _ _ _).2 rfl⟩
      case isFalse =>
        exact ⟨rfl, rfl, rfl, hkept _ _, hwrite _ (hset _ _ _).2 rfl⟩
  | throttle ip =>
    dsimp only [exec, skips, act, draws, BanOp.ip, BanTable.throttle] at hpol hrecord hread hwrite ⊢
    split
    case isTrue => exact .inl ⟨_, rfl, rfl⟩
    case isFalse =>
      right
      rw [hrecord, hpol]
      exact ⟨rfl, rfl, rfl, hkept _ _, hwrite _ (hset _ _ _).2 rfl⟩
  | admitConn ip totalConns =>
    dsimp only [exec, skips, act, draws, BanOp.ip, BanTable.admitConn] at hpol hrecord hwrite ⊢
    split
    case isTrue => exact .inl ⟨_, rfl, rfl⟩
    case isFalse =>
      right
      rw [hrecord]
      rcases Option.eq_none_or_eq_some
        (refusal (attempt (found t.pol now (f ip)) now) now caps) with hrefusal | ⟨a, hrefusal⟩
      · simp only [hrefusal, Option.isNone_none, if_true]
        generalize TokenBucket.take b now = g
        obtain ⟨granted, b'⟩ := g
        cases granted <;>
          exact ⟨trivial, rfl, rfl, hkept _ _, hwrite _ (hset _ _ _).2 rfl⟩
      · simp only [hrefusal, Option.isNone_some, Bool.false_eq_true, if_false]
        exact ⟨trivial, trivial, trivial, hkept _ _, hwrite _ (hset _ _ _).2 rfl⟩
  | release ip =>
    right
    dsimp only [exec, skips, act, draws, BanOp.ip, BanTable.release] at hpol hrecord hread hwrite ⊢
    rw [hrecord]
    exact ⟨rfl, rfl, rfl, hkept _ _, hwrite _ (hset _ _ _).2 rfl⟩

end

/-! ## What is remembered -/

/-- The connections of an address that were admitted and have not ended. -/
def noteConns (op : BanOp) (a : BanAnswer) (live : IpAddr → Nat) : IpAddr → Nat :=
  match op, a with
  | .admitConn ip _, .admitted .ok => Function.update live ip (live ip + 1)
  | .release ip, _ => Function.update live ip (live ip - 1)
  | _, _ => live

/-- When the last ban of an address ends. -/
def noteBan (now : Nat) (op : BanOp) (a : BanAnswer) (banned : IpAddr → Nat) : IpAddr → Nat :=
  match op, a with
  | .penalise ip _ _, .ban (some ms) => Function.update banned ip (now + ms)
  | _, _ => banned

/-- When the last throttle of an address ends. -/
def noteThrottle (pol : BanPolicy) (now : Nat) (op : BanOp) (throttled : IpAddr → Nat) :
    IpAddr → Nat :=
  match op with
  | .throttle ip =>
    if ¬pol.enabled ∨ pol.throttleMs = 0 then throttled
    else Function.update throttled ip (now + pol.throttleMs)
  | _ => throttled

/-- The record of an address has its connections, and its ban and throttle while they last. -/
structure Remembers (caps : Caps) (clock live ban throttle : Nat) (r : IpRecord) : Prop where
  conns : r.conns = live
  limit : caps.maxPerIp % 2 ^ 32 ≠ 0 → live ≤ caps.maxPerIp % 2 ^ 32
  banned : clock < ban → r.bannedUntilMs = ban
  bannedLe : r.bannedUntilMs ≤ ban
  throttled : clock < throttle → r.throttledUntilMs = throttle
  throttledLe : r.throttledUntilMs ≤ throttle

variable {pol : BanPolicy} {caps : Caps} {clock now live ban throttle : Nat}
  {r : Option IpRecord}

theorem Remembers.found {r : Option IpRecord}
    (h : Remembers caps clock live ban throttle (r.getD default)) (hle : clock ≤ now) :
    Remembers caps now live ban throttle (BanTable.found pol now r) := by
  obtain ⟨hconns, hbanned, hthrottled⟩ := BanTable.found_keeps pol now r
  exact ⟨hconns.trans h.conns, h.limit, fun hlt ↦ hbanned.trans (h.banned (hle.trans_lt hlt)),
    hbanned.le.trans h.bannedLe, fun hlt ↦ hthrottled.trans (h.throttled (hle.trans_lt hlt)),
    hthrottled.le.trans h.throttledLe⟩

theorem Remembers.mono {r : IpRecord} (h : Remembers caps clock live ban throttle r)
    (hle : clock ≤ now) : Remembers caps now live ban throttle r :=
  ⟨h.conns, h.limit, fun hlt ↦ h.banned (hle.trans_lt hlt), h.bannedLe,
    fun hlt ↦ h.throttled (hle.trans_lt hlt), h.throttledLe⟩

/-- A record that may go has nothing to remember. -/
theorem Remembers.evict {r : IpRecord} (h : Remembers caps clock live ban throttle r)
    (hr : r.evictable now = true) (hle : clock ≤ now) :
    Remembers caps now live ban throttle default := by
  unfold IpRecord.evictable at hr
  rw [decide_eq_true_iff] at hr
  obtain ⟨hconns, hbanned, hthrottled⟩ := hr
  refine ⟨hconns.symm.trans h.conns, h.limit, fun hlt ↦ ?_, Nat.zero_le _, fun hlt ↦ ?_,
    Nat.zero_le _⟩
  · have := h.banned (hle.trans_lt hlt)
    omega
  · have := h.throttled (hle.trans_lt hlt)
    omega

/-- What an operation makes of the record of its address. -/
theorem Remembers.act {r : IpRecord} {op : BanOp} {lives bans throttles : IpAddr → Nat}
    (h : Remembers caps now (lives op.ip) (bans op.ip) (throttles op.ip) r)
    (hlive : (∃ ip, op = .release ip) → 0 < lives op.ip) (hskip : op.skips pol caps = none)
    (granted : Bool) : Remembers caps now
      (noteConns op (op.act pol caps now granted r).1 lives op.ip)
      (noteBan now op (op.act pol caps now granted r).1 bans op.ip)
      (noteThrottle pol now op throttles op.ip) (op.act pol caps now granted r).2 := by
  cases op with
  | score ip | isBanned ip | attemptsThisMinute ip | conns ip => exact h
  | penalise ip points severity =>
    have hpoints : (BanTable.addPoints r points severity).conns = r.conns ∧
        (BanTable.addPoints r points severity).bannedUntilMs = r.bannedUntilMs ∧
        (BanTable.addPoints r points severity).throttledUntilMs = r.throttledUntilMs := by
      cases severity <;> exact ⟨rfl, rfl, rfl⟩
    obtain ⟨hconns, hbanned, hthrottled⟩ := hpoints
    unfold BanOp.act
    dsimp only
    split
    case isTrue =>
      exact ⟨hconns.trans h.conns, h.limit, fun hlt ↦ hbanned.trans (h.banned hlt),
        hbanned.le.trans h.bannedLe, fun hlt ↦ hthrottled.trans (h.throttled hlt),
        hthrottled.le.trans h.throttledLe⟩
    case isFalse =>
      dsimp only [noteBan, noteConns, noteThrottle, BanOp.ip]
      rw [Function.update_self]
      exact ⟨hconns.trans h.conns, h.limit, fun _ ↦ rfl, le_rfl,
        fun hlt ↦ hthrottled.trans (h.throttled hlt), hthrottled.le.trans h.throttledLe⟩
  | throttle ip =>
    dsimp only [noteBan, noteConns, noteThrottle, BanOp.ip, BanOp.act]
    have hon : ¬(¬pol.enabled ∨ pol.throttleMs = 0) := fun hoff ↦ by
      rw [skips, if_pos hoff] at hskip
      cases hskip
    rw [if_neg hon, Function.update_self]
    exact ⟨h.conns, h.limit, h.banned, h.bannedLe, fun _ ↦ rfl, le_rfl⟩
  | admitConn ip totalConns =>
    have hattempt : (BanTable.attempt r now).conns = r.conns ∧
        (BanTable.attempt r now).bannedUntilMs = r.bannedUntilMs ∧
        (BanTable.attempt r now).throttledUntilMs = r.throttledUntilMs := by
      unfold BanTable.attempt
      dsimp only
      split <;> exact ⟨rfl, rfl, rfl⟩
    obtain ⟨hconns, hbanned, hthrottled⟩ := hattempt
    have hkept : Remembers caps now (lives ip) (bans ip) (throttles ip)
        (BanTable.attempt r now) :=
      ⟨hconns.trans h.conns, h.limit, fun hlt ↦ hbanned.trans (h.banned hlt),
        hbanned.le.trans h.bannedLe, fun hlt ↦ hthrottled.trans (h.throttled hlt),
        hthrottled.le.trans h.throttledLe⟩
    unfold BanOp.act
    dsimp only
    split
    case h_1 a ha =>
      have hne : a ≠ .ok := by
        rintro rfl
        unfold BanTable.refusal at ha
        dsimp only at ha
        repeat' split at ha
        all_goals cases ha
      have hsame : noteConns (.admitConn ip totalConns) (.admitted a) lives = lives := by
        cases a <;> first | rfl | exact absurd rfl hne
      rw [hsame]
      exact hkept
    case h_2 hnone =>
      split
      case isFalse => exact hkept
      case isTrue =>
        dsimp only [noteBan, noteConns, noteThrottle, BanOp.ip]
        rw [Function.update_self]
        refine ⟨congrArg (· + 1) hkept.conns, fun hlimit ↦ ?_, hkept.banned, hkept.bannedLe,
          hkept.throttled, hkept.throttledLe⟩
        -- Nothing was refused, so the limit was not reached.
        unfold BanTable.refusal at hnone
        dsimp only at hnone
        split at hnone
        case isTrue => cases hnone
        split at hnone
        case isTrue => cases hnone
        split at hnone
        case isTrue => cases hnone
        case isFalse hroom =>
          rw [hkept.conns] at hroom
          exact Nat.lt_of_not_le fun hle ↦ hroom ⟨hlimit, hle⟩
  | release ip =>
    dsimp only [noteBan, noteConns, noteThrottle, BanOp.ip, BanOp.act]
    rw [Function.update_self]
    exact ⟨congrArg (· - 1) h.conns, fun hl ↦ (Nat.sub_le _ _).trans (h.limit hl), h.banned,
      h.bannedLe, h.throttled, h.throttledLe⟩

end BanOp

/-! ## Runs -/

/-- The table and the bucket, and what has been answered so far: the connections of each address,
and when its last ban and throttle end. -/
structure BanWorld (β : Type) where
  table : BanTable
  bucket : β
  live : IpAddr → Nat
  banned : IpAddr → Nat
  throttled : IpAddr → Nat

namespace BanWorld

open BanTable BanOp

variable {β : Type} [TokenBucket β]

/-- A fresh table. -/
def new (pol : BanPolicy) (b : β) : BanWorld β :=
  ⟨.withPolicy pol, b, fun _ ↦ 0, fun _ ↦ 0, fun _ ↦ 0⟩

/-- The end of a connection that there is not. -/
def Idle (w : BanWorld β) : BanOp → Prop
  | .release ip => w.live ip = 0
  | _ => False

instance (w : BanWorld β) : DecidablePred w.Idle := fun op ↦ by
  cases op <;> unfold Idle <;> infer_instance

/-- An operation at a time. -/
def step (caps : Caps) (w : BanWorld β) (x : Nat × BanOp) : BanWorld β :=
  if w.Idle x.2 then w
  else
    let (a, table, bucket) := x.2.exec caps x.1 w.table w.bucket
    { table
      bucket
      live := noteConns x.2 a w.live
      banned := noteBan x.1 x.2 a w.banned
      throttled := noteThrottle w.table.pol x.1 x.2 w.throttled }

/-- The table after a run. -/
def run (pol : BanPolicy) (caps : Caps) (b : β) (ops : List (Nat × BanOp)) : BanWorld β :=
  ops.foldl (step caps) (new pol b)

/-- As long as it was never saturated, the table has the rows of the addresses that have something
to remember. -/
def Keeps (pol : BanPolicy) (caps : Caps) (clock : Nat) (w : BanWorld β) : Prop :=
  w.table.pol = pol ∧ ∃ f, Shows w.table f ∧ (w.table.saturated = 0 → ∀ ip,
    Remembers caps clock (w.live ip) (w.banned ip) (w.throttled ip) ((f ip).getD default))

variable {pol : BanPolicy} {caps : Caps} {clock now : Nat} {w : BanWorld β}

omit [TokenBucket β] in
theorem keeps_new (pol : BanPolicy) (b : β) : Keeps pol caps 0 (new pol b) :=
  ⟨rfl, _, shows_withPolicy pol, fun _ _ ↦ ⟨rfl, fun _ ↦ Nat.zero_le _, fun _ ↦ rfl, le_rfl,
    fun _ ↦ rfl, le_rfl⟩⟩

/-- The notes are about the address of the operation. -/
theorem notes_of_ne {op : BanOp} {ip : IpAddr} (hne : ip ≠ op.ip) (now : Nat) (pol : BanPolicy)
    (a : BanAnswer) (live banned throttled : IpAddr → Nat) : noteConns op a live ip = live ip ∧
      noteBan now op a banned ip = banned ip ∧
        noteThrottle pol now op throttled ip = throttled ip := by
  cases op with
  | score _ | isBanned _ | attemptsThisMinute _ | conns _ => exact ⟨rfl, rfl, rfl⟩
  | penalise _ _ _ =>
    refine ⟨rfl, ?_, rfl⟩
    cases a with
    | ban ms =>
      cases ms with
      | some ms => exact Function.update_of_ne hne _ _
      | none => rfl
    | number _ | flag _ | admitted _ | unit => rfl
  | throttle _ =>
    refine ⟨rfl, rfl, ?_⟩
    unfold noteThrottle
    dsimp only
    split
    case isTrue => rfl
    case isFalse => exact Function.update_of_ne hne _ _
  | admitConn _ _ =>
    refine ⟨?_, rfl, rfl⟩
    cases a with
    | admitted a =>
      cases a with
      | ok => exact Function.update_of_ne hne _ _
      | banned | perIpLimit | perIpRate | serverFull | acceptRate | throttled => rfl
    | number _ | flag _ | ban _ | unit => rfl
  | release _ => exact ⟨Function.update_of_ne hne _ _, rfl, rfl⟩

/-- An operation that does not come to the record notes nothing. -/
theorem notes_of_skips {op : BanOp} {pol : BanPolicy} {a : BanAnswer}
    (h : op.skips pol caps = some a) (now : Nat) (live banned throttled : IpAddr → Nat) :
    noteConns op a live = live ∧ noteBan now op a banned = banned ∧
      noteThrottle pol now op throttled = throttled := by
  cases op with
  | score _ | isBanned _ => exact ⟨rfl, rfl, rfl⟩
  | attemptsThisMinute _ | conns _ | release _ => cases h
  | penalise _ _ _ =>
    dsimp only [skips] at h
    split at h
    case isTrue =>
      cases h
      exact ⟨rfl, rfl, rfl⟩
    case isFalse => cases h
  | throttle _ =>
    dsimp only [skips] at h
    split at h
    case isTrue hoff => exact ⟨rfl, rfl, if_pos hoff⟩
    case isFalse => cases h
  | admitConn _ _ =>
    dsimp only [skips] at h
    split at h
    case isTrue =>
      cases h
      exact ⟨rfl, rfl, rfl⟩
    case isFalse => cases h

omit [TokenBucket β] in
theorem Keeps.mono (h : Keeps pol caps clock w) (hle : clock ≤ now) : Keeps pol caps now w := by
  obtain ⟨hpol, f, hf, hips⟩ := h
  exact ⟨hpol, f, hf, fun hsat ip ↦ (hips hsat ip).mono hle⟩

theorem Keeps.step (h : Keeps pol caps clock w) {x : Nat × BanOp} (hle : clock ≤ x.1) :
    Keeps pol caps x.1 (w.step caps x) := by
  obtain ⟨now, op⟩ := x
  unfold BanWorld.step
  split
  case isTrue => exact h.mono hle
  case isFalse hidle =>
    dsimp only at hle hidle ⊢
    obtain ⟨hpol, f, hf, hips⟩ := h
    rcases exec_spec hf caps now w.bucket op with
      ⟨a, hskip, heq⟩ | ⟨hskip, hanswer, -, ⟨hpol', -⟩,
        ⟨hmore, -, hshows⟩ | ⟨hsame, f', hmakes, hshows⟩⟩
    · rw [heq]
      obtain ⟨hlive, hbanned, hthrottled⟩ :=
        notes_of_skips hskip now w.live w.banned w.throttled
      refine ⟨hpol, f, hf, fun hsat ip ↦ ?_⟩
      dsimp only
      rw [hlive, hbanned, hthrottled]
      exact (hips hsat ip).mono hle
    · refine ⟨hpol'.trans hpol, f, hshows, fun hsat ↦ ?_⟩
      dsimp only at hsat
      rw [hmore] at hsat
      cases hsat
    · refine ⟨hpol'.trans hpol, _, hshows, fun hsat ip ↦ ?_⟩
      dsimp only at hsat ⊢
      replace hips := hips (hsame.symm.trans hsat)
      rw [hanswer]
      rcases eq_or_ne ip op.ip with rfl | hne
      · rw [Function.update_self]
        refine ((hips op.ip).found hle).act (fun hrel ↦ ?_) hskip _
        obtain ⟨ip, rfl⟩ := hrel
        exact Nat.pos_of_ne_zero hidle
      · obtain ⟨hlive, hbanned, hthrottled⟩ :=
          notes_of_ne hne now w.table.pol (op.act w.table.pol caps now
            (TokenBucket.take w.bucket now).1 (found w.table.pol now (f op.ip))).1
            w.live w.banned w.throttled
        rw [hlive, hbanned, hthrottled, Function.update_of_ne hne]
        rcases hmakes with rfl | ⟨-, ip', r, -, hr, hev, rfl⟩
        · exact (hips ip).mono hle
        · rcases eq_or_ne ip ip' with rfl | hne'
          · rw [Function.update_self]
            have hremembers := hips ip
            rw [hr] at hremembers
            exact hremembers.evict hev hle
          · rw [Function.update_of_ne hne']
            exact (hips ip).mono hle

/-- What the table keeps all along a run whose clock does not go back. -/
theorem keeps_run (b : β) (ops : List (Nat × BanOp)) (hsorted : ops.Pairwise (·.1 ≤ ·.1))
    (hnow : ∀ x ∈ ops, x.1 ≤ now) : Keeps pol caps now (run pol caps b ops) := by
  induction ops using List.reverseRecOn generalizing now with
  | nil => exact (keeps_new pol b).mono (Nat.zero_le _)
  | append_singleton ops x ih =>
    obtain ⟨hsorted, -, hlast⟩ := List.pairwise_append.mp hsorted
    rw [run, List.foldl_append]
    have hops := ih hsorted fun y hy ↦ hlast y hy x (List.mem_singleton_self x)
    exact (hops.step le_rfl).mono (hnow x (List.mem_append_right _ (List.mem_singleton_self x)))

/-- What the table answers about an address it has not forgotten. -/
theorem Keeps.answers (h : Keeps pol caps now w) (hsat : w.table.saturated = 0) (ip : IpAddr) :
    (w.table.conns ip now).1 = w.live ip ∧
      (caps.maxPerIp % 2 ^ 32 ≠ 0 → w.live ip ≤ caps.maxPerIp % 2 ^ 32) ∧
      (w.table.isBanned ip now).1 = (pol.enabled && decide (now < w.banned ip)) ∧
      (now < w.banned ip ∨ now < w.throttled ip → ∀ (totalConns : Nat) (b : β),
        (w.table.admitConn ip now caps totalConns b).1 ≠ .ok) := by
  obtain ⟨rfl, f, hf, hips⟩ := h
  have hfound : Remembers caps now (w.live ip) (w.banned ip) (w.throttled ip)
      (found w.table.pol now (f ip)) := (hips hsat ip).found le_rfl
  refine ⟨?_, (hips hsat ip).limit, ?_, fun hforce totalConns b ↦ ?_⟩
  · rcases exec_spec hf caps now w.bucket (.conns ip) with ⟨a, hskip, -⟩ | ⟨-, hanswer, -⟩
    · cases hskip
    · injection hanswer with hanswer
      exact hanswer.trans hfound.conns
  · rcases exec_spec hf caps now w.bucket (.isBanned ip) with
      ⟨a, hskip, heq⟩ | ⟨hskip, hanswer, -⟩
    · have hanswer := congrArg (·.1) heq
      dsimp only [skips, exec] at hskip hanswer
      split at hskip
      case isFalse => cases hskip
      case isTrue hoff =>
        cases hskip
        injection hanswer with hanswer
        rw [hanswer, eq_false_of_ne_true hoff, Bool.false_and]
    · injection hanswer with hanswer
      dsimp only [skips] at hskip
      split at hskip
      case isTrue => cases hskip
      case isFalse hon =>
        rw [hanswer, of_not_not hon, Bool.true_and]
        refine decide_eq_decide.mpr ⟨fun hlt ↦ hlt.trans_le hfound.bannedLe, fun hlt ↦ ?_⟩
        exact hlt.trans_eq (hfound.banned hlt).symm
  · rcases exec_spec hf caps now b (.admitConn ip totalConns) with
      ⟨a, hskip, heq⟩ | ⟨-, hanswer, -⟩
    · have hanswer := congrArg (·.1) heq
      dsimp only [skips, exec] at hskip hanswer
      split at hskip
      case isFalse => cases hskip
      case isTrue =>
        cases hskip
        injection hanswer with hanswer
        rw [hanswer]
        exact fun h ↦ (by cases h)
    · have hkept : (attempt (found w.table.pol now (f ip)) now).bannedUntilMs =
            (found w.table.pol now (f ip)).bannedUntilMs ∧
          (attempt (found w.table.pol now (f ip)) now).throttledUntilMs =
            (found w.table.pol now (f ip)).throttledUntilMs := by
        unfold attempt
        dsimp only
        split <;> exact ⟨rfl, rfl⟩
      have hrefusal : ∃ a, refusal (attempt (found w.table.pol now (f ip)) now) now caps = some a ∧
          a ≠ .ok := by
        unfold refusal
        dsimp only
        rw [hkept.1, hkept.2]
        rcases hforce with hban | hthrottle
        · rw [if_pos (hban.trans_eq (hfound.banned hban).symm)]
          exact ⟨_, rfl, fun h ↦ (by cases h)⟩
        · split
          case isTrue => exact ⟨_, rfl, fun h ↦ (by cases h)⟩
          case isFalse =>
            rw [if_pos (hthrottle.trans_eq (hfound.throttled hthrottle).symm)]
            exact ⟨_, rfl, fun h ↦ (by cases h)⟩
      obtain ⟨a, ha, hne⟩ := hrefusal
      dsimp only [act, exec, BanOp.ip] at hanswer
      rw [ha] at hanswer
      injection hanswer with hanswer
      rw [hanswer]
      exact hne

end BanWorld

end Plaine.Stratum
