import Plaine.Lib.Dense
import Plaine.P2p.Budgets

/-!
# Connection slots

`ConnLimits` of `net/limits.rs` and what the accept loop and the dial loop of `net/node.rs` and the
connections of `net/conn.rs` do with it.  A connection holds its slots from its admission until it
is released: for want of a descriptor, after a dial or a handshake that failed, or at its end.
-/

namespace Plaine.P2p

open Plaine.Lib Plaine.Consensus

/-! ## Constants -/

/-- `MAX_INBOUND`. -/
def maxInbound : Nat := 96

/-- `MAX_OUTBOUND`. -/
def maxOutbound : Nat := 16

/-- `OUTBOUND_PER_GROUP`. -/
def outboundPerGroupMax : Nat := 2

/-- `OUTBOUND_PER_GROUP_WIDENED`. -/
def outboundPerGroupWidened : Nat := maxOutbound

/-! ## The tables -/

/-- `ConnLimits::release_inbound`. -/
def ConnLimits.releaseInbound (c : ConnLimits) (ip : Ip) : ConnLimits :=
  { c with
    inboundPerIp := unbump c.inboundPerIp ip
    inboundPerGroup := unbump c.inboundPerGroup (groupOf ip) }

namespace TokenBucket

variable {b : TokenBucket} {now : Nat}

/-- A bucket that is not over full and whose level stays an integer can be taken from, and loses
nothing when it refuses. -/
theorem take_one (h : b.level ≤ b.capacity) (hcap : b.capacity + u64Max / 1000 ≤ u64Max)
    (now : Nat) : ∃ b' ok, b.take 1 now = some (b', ok) ∧ b'.level ≤ b'.capacity ∧
      b'.capacity = b.capacity ∧ (ok = false → b.level ≤ b'.level) := by
  have hrefill : ∃ b', b.refill now = some b' ∧ b'.level ≤ b'.capacity ∧
      b'.capacity = b.capacity ∧ b.level ≤ b'.level := by
    unfold refill
    split
    case isTrue => exact ⟨b, rfl, h, rfl, le_rfl⟩
    case isFalse =>
      have hgain : gain b.perSec (now - b.last) ≤ u64Max / 1000 :=
        Nat.div_le_div_right (Nat.min_le_right _ _)
      have hsum : checkedAdd u64Max b.level (gain b.perSec (now - b.last)) =
          some (b.level + gain b.perSec (now - b.last)) :=
        if_pos ((Nat.add_le_add h hgain).trans hcap)
      rw [hsum]
      exact ⟨_, rfl, Nat.min_le_right _ _, rfl, Nat.le_min.mpr ⟨Nat.le_add_right _ _, h⟩⟩
  obtain ⟨b', hrefill, hlevel, hcapacity, hkept⟩ := hrefill
  rw [take, hrefill, Option.map_some]
  split
  case isTrue =>
    exact ⟨_, true, rfl, (Nat.sub_le _ _).trans hlevel, hcapacity, fun hok ↦ nomatch hok⟩
  case isFalse => exact ⟨_, false, rfl, hlevel, hcapacity, fun _ ↦ hkept⟩

end TokenBucket

namespace ConnLimits

/-- There is a slot for an address and one for its group. -/
def HasRoom (c : ConnLimits) (ip : Ip) : Prop :=
  (c.inboundPerIp.lookup ip).getD 0 < inboundPerIpMax ∧
    (c.inboundPerGroup.lookup (groupOf ip)).getD 0 < inboundPerGroupMax

/-- What an admission comes to. -/
inductive Admits (c : ConnLimits) (ip : Ip) (c' : ConnLimits) : Except Refusal Unit → Prop where
  | full (e : Refusal) (hroom : ¬c.HasRoom ip) (hsame : c' = c) : Admits c ip c' (.error e)
  | refused (e : Refusal) (row : Nat × Nat) (hroom : c.HasRoom ip)
      (hsame : c' = { c with accept := c'.accept, reconnects := c.reconnects.insert ip row })
      (hlevel : c.accept.level ≤ c'.accept.level) : Admits c ip c' (.error e)
  | admitted (row : Nat × Nat) (hroom : c.HasRoom ip)
      (hsame : c' =
        { accept := c'.accept
          reconnects := c.reconnects.insert ip row
          inboundPerIp := bump c.inboundPerIp ip
          inboundPerGroup := bump c.inboundPerGroup (groupOf ip) }) : Admits c ip c' (.ok ())

variable {c : ConnLimits} {ip : Ip} {now : Nat}

/-- An admission comes to an answer, and the bucket stays as it must. -/
theorem admitInbound_spec (h : c.accept.level ≤ c.accept.capacity)
    (hcap : c.accept.capacity = acceptBurst) (ip : Ip) (now : Nat) :
    ∃ c' res, c.admitInbound ip now = some (c', res) ∧ c.Admits ip c' res ∧
      c'.accept.level ≤ c'.accept.capacity ∧ c'.accept.capacity = acceptBurst := by
  unfold admitInbound
  dsimp only
  by_cases hip : inboundPerIpMax ≤ (c.inboundPerIp.lookup ip).getD 0
  · rw [if_pos hip]
    exact ⟨c, _, rfl, .full _ (fun hroom ↦ absurd hip hroom.1.not_ge) rfl, h, hcap⟩
  rw [if_neg hip]
  by_cases hgroup : inboundPerGroupMax ≤ (c.inboundPerGroup.lookup (groupOf ip)).getD 0
  · rw [if_pos hgroup]
    exact ⟨c, _, rfl, .full _ (fun hroom ↦ absurd hgroup hroom.2.not_ge) rfl, h, hcap⟩
  rw [if_neg hgroup]
  have hroom : c.HasRoom ip := ⟨Nat.lt_of_not_le hip, Nat.lt_of_not_le hgroup⟩
  generalize (if 60000 ≤ now - ((c.reconnects.lookup ip).getD (0, now)).2 then (0, now)
    else (c.reconnects.lookup ip).getD (0, now)) = e
  by_cases hmany : reconnectPerIpPerMin ≤ e.1
  · rw [if_pos hmany]
    exact ⟨_, _, rfl, .refused _ e hroom rfl le_rfl, h, hcap⟩
  rw [if_neg hmany]
  obtain ⟨accept, ok, htake, hlevel, hcapacity, hkept⟩ :=
    TokenBucket.take_one h (hcap ▸ by decide) now
  rw [htake, Option.map_some]
  cases ok with
  | true =>
    refine ⟨_, _, rfl, .admitted (e.1 + 1, e.2) hroom ?_, hlevel, hcapacity.trans hcap⟩
    exact congrArg (ConnLimits.mk accept _ _) (AList.insert_insert c.reconnects)
  | false => exact ⟨_, _, rfl, .refused _ e hroom rfl (hkept rfl), hlevel, hcapacity.trans hcap⟩

end ConnLimits

/-- `ConnLimits`, with the table of the connections that go out. -/
structure ConnTables extends ConnLimits where
  outboundPerGroup : AList fun _ : Group ↦ Nat

namespace ConnTables

/-- `ConnLimits::new`. -/
def new (now : Nat) : ConnTables := { ConnLimits.new now with outboundPerGroup := ∅ }

/-- The bound of `ConnLimits::admit_outbound`. -/
def outboundCap (widen : Bool) : Nat :=
  if widen then outboundPerGroupWidened else outboundPerGroupMax

/-- `ConnLimits::admit_outbound`. -/
def admitOutbound (c : ConnTables) (ip : Ip) (widen : Bool) : ConnTables × Except Refusal Unit :=
  let group := groupOf ip
  let n := (c.outboundPerGroup.lookup group).getD 0
  if outboundCap widen ≤ n then
    ({ c with outboundPerGroup := c.outboundPerGroup.insert group n }, .error .perGroup)
  else ({ c with outboundPerGroup := bump c.outboundPerGroup group }, .ok ())

/-- `ConnLimits::release_outbound`. -/
def releaseOutbound (c : ConnTables) (ip : Ip) : ConnTables :=
  { c with outboundPerGroup := unbump c.outboundPerGroup (groupOf ip) }

/-- `ConnLimits::inbound_for`. -/
def inboundFor (c : ConnTables) (ip : Ip) : Nat := (c.inboundPerIp.lookup ip).getD 0

/-- `ConnLimits::outbound_in_group`. -/
def outboundInGroup (c : ConnTables) (g : Group) : Nat := (c.outboundPerGroup.lookup g).getD 0

end ConnTables

/-! ## The loops -/

/-- A connection that was admitted. -/
structure Conn where
  outbound : Bool
  ip : Ip
deriving DecidableEq

/-- The tables and the connections that hold slots. -/
structure Slots where
  tables : ConnTables
  live : List Conn

/-- What the loops and the connections do.  Where the accept loop has banned addresses or as many
connections as it may, and where the dial loop has, the tables are not asked. -/
inductive SlotEvent where
  | accept (ip : Ip) (now : Mono) (banned : Bool) (inbound : Nat)
  | dial (ip : Ip) (widen : Bool) (banned : Bool) (outbound : Nat)
  | release (conn : Conn)

namespace Slots

/-- A node without connections. -/
def new (now : Mono) : Slots := { tables := .new now, live := [] }

/-- An address that comes in, as the body of `accept_loop` admits it. -/
def accept (s : Slots) (ip : Ip) (now : Mono) (banned : Bool) (inbound : Nat) : Option Slots :=
  if banned then some s
  else if maxInbound ≤ inbound then some s
  else
    (s.tables.admitInbound ip now).map fun (limits, res) ↦
      let tables := { s.tables with toConnLimits := limits }
      match res with
      | .ok () => { tables, live := { outbound := false, ip } :: s.live }
      | .error _ => { s with tables }

/-- An address that is dialed, as the body of `dial_loop` admits it. -/
def dial (s : Slots) (ip : Ip) (widen banned : Bool) (outbound : Nat) : Slots :=
  if maxOutbound ≤ outbound then s
  else if banned then s
  else
    match s.tables.admitOutbound ip widen with
    | (tables, .ok ()) => { tables, live := { outbound := true, ip } :: s.live }
    | (tables, .error _) => { s with tables }

/-- A connection gives its slots back. -/
def release (s : Slots) (conn : Conn) : Slots where
  tables :=
    if conn.outbound then s.tables.releaseOutbound conn.ip
    else { s.tables with toConnLimits := s.tables.releaseInbound conn.ip }
  live := s.live.erase conn

/-- An event.  Only a connection that holds slots gives them back. -/
def apply (s : Slots) : SlotEvent → Option Slots
  | .accept ip now banned inbound => s.accept ip now banned inbound
  | .dial ip widen banned outbound => some (s.dial ip widen banned outbound)
  | .release conn => if conn ∈ s.live then some (s.release conn) else none

/-- A run of events. -/
def run (now₀ : Mono) (events : List SlotEvent) : Option Slots := events.foldlM apply (new now₀)

/-- How many connections of a direction there are with an address of a class. -/
def among {κ : Type} [DecidableEq κ] (live : List Conn) (outbound : Bool) (f : Ip → κ) (k : κ) :
    Nat :=
  live.countP fun conn ↦ conn.outbound = outbound ∧ f conn.ip = k

/-- The connections that came in from an address. -/
def inboundFrom (s : Slots) (ip : Ip) : Nat := among s.live false id ip

/-- The connections that came in from a group. -/
def inboundFromGroup (s : Slots) (g : Group) : Nat := among s.live false groupOf g

/-- The connections that went out to a group. -/
def outboundTo (s : Slots) (g : Group) : Nat := among s.live true groupOf g

/-- The tables count the connections, with no row for none, and the counts keep to their bounds. -/
structure Exact (s : Slots) : Prop where
  perIp : Tallies s.inboundFrom s.tables.inboundPerIp
  perGroup : Tallies s.inboundFromGroup s.tables.inboundPerGroup
  outPerGroup : Tallies s.outboundTo s.tables.outboundPerGroup
  perIp_le : ∀ ip, s.inboundFrom ip ≤ inboundPerIpMax
  perGroup_le : ∀ g, s.inboundFromGroup g ≤ inboundPerGroupMax
  outPerGroup_le : ∀ g, s.outboundTo g ≤ outboundPerGroupWidened
  level_le : s.tables.accept.level ≤ s.tables.accept.capacity
  capacity_eq : s.tables.accept.capacity = acceptBurst

variable {s s' : Slots} {ip : Ip} {g : Group} {now : Mono} {conn : Conn}

section Among

variable {κ : Type} [DecidableEq κ] {live : List Conn} {outbound : Bool} {f : Ip → κ}
  {k : κ}

theorem among_cons : among (conn :: live) outbound f k =
    among live outbound f k + if conn.outbound = outbound ∧ k = f conn.ip then 1 else 0 := by
  unfold among
  rw [List.countP_cons]
  congr 1
  exact if_congr (decide_eq_true_iff.trans (and_congr_right fun _ ↦ eq_comm)) rfl rfl

theorem among_erase (h : conn ∈ live) : among live outbound f k =
    among (live.erase conn) outbound f k +
      if conn.outbound = outbound ∧ k = f conn.ip then 1 else 0 := by
  rw [← among_cons]
  exact (List.perm_cons_erase h).countP_eq _

theorem among_cons_self (h : conn.outbound = outbound) : among (conn :: live) outbound f k =
    among live outbound f k + if k = f conn.ip then 1 else 0 := by
  rw [among_cons, if_congr (and_iff_right h) rfl rfl]

theorem among_cons_of_ne (h : conn.outbound ≠ outbound) :
    among (conn :: live) outbound f k = among live outbound f k := by
  rw [among_cons, if_neg fun hc ↦ h hc.1, Nat.add_zero]

theorem among_erase_self (hmem : conn ∈ live) (h : conn.outbound = outbound) :
    among live outbound f k =
      among (live.erase conn) outbound f k + if k = f conn.ip then 1 else 0 := by
  rw [among_erase hmem, if_congr (and_iff_right h) rfl rfl]

theorem among_erase_of_ne (hmem : conn ∈ live) (h : conn.outbound ≠ outbound) :
    among (live.erase conn) outbound f k = among live outbound f k := by
  rw [among_erase hmem, if_neg fun hc ↦ h hc.1, Nat.add_zero]

theorem among_erase_le : among (live.erase conn) outbound f k ≤ among live outbound f k :=
  List.erase_sublist.countP_le

end Among

theorem exact_new (now : Mono) : (new now).Exact where
  perIp := .empty
  perGroup := .empty
  outPerGroup := .empty
  perIp_le _ := Nat.zero_le _
  perGroup_le _ := Nat.zero_le _
  outPerGroup_le _ := Nat.zero_le _
  level_le := le_rfl
  capacity_eq := rfl

/-! ## Events -/

/-- An event that is refused takes no slot and no token. -/
structure Unspent (s s' : Slots) : Prop where
  live : s'.live = s.live
  perIp : ∀ ip, s'.tables.inboundPerIp.lookup ip = s.tables.inboundPerIp.lookup ip
  perGroup : ∀ g, s'.tables.inboundPerGroup.lookup g = s.tables.inboundPerGroup.lookup g
  outPerGroup : ∀ g, s'.tables.outboundPerGroup.lookup g = s.tables.outboundPerGroup.lookup g
  level_le : s.tables.accept.level ≤ s'.tables.accept.level

theorem Unspent.refl (s : Slots) : Unspent s s :=
  ⟨rfl, fun _ ↦ rfl, fun _ ↦ rfl, fun _ ↦ rfl, le_rfl⟩

/-- Slots are exact after an event that was refused. -/
theorem Unspent.exact (h : Unspent s s') (hs : s.Exact)
    (hlevel : s'.tables.accept.level ≤ s'.tables.accept.capacity)
    (hcap : s'.tables.accept.capacity = acceptBurst) : s'.Exact where
  perIp j := by rw [h.perIp, hs.perIp, inboundFrom, inboundFrom, h.live]
  perGroup j := by rw [h.perGroup, hs.perGroup, inboundFromGroup, inboundFromGroup, h.live]
  outPerGroup j := by rw [h.outPerGroup, hs.outPerGroup, outboundTo, outboundTo, h.live]
  perIp_le j := by
    rw [inboundFrom, h.live]
    exact hs.perIp_le j
  perGroup_le j := by
    rw [inboundFromGroup, h.live]
    exact hs.perGroup_le j
  outPerGroup_le j := by
    rw [outboundTo, h.live]
    exact hs.outPerGroup_le j
  level_le := hlevel
  capacity_eq := hcap

/-- There is a slot for an address and one for its group. -/
def HasRoom (s : Slots) (ip : Ip) : Prop :=
  s.inboundFrom ip < inboundPerIpMax ∧ s.inboundFromGroup (groupOf ip) < inboundPerGroupMax

theorem Exact.hasRoom_iff (h : s.Exact) : s.tables.HasRoom ip ↔ s.HasRoom ip := by
  unfold ConnLimits.HasRoom HasRoom
  rw [h.perIp.getD_eq, h.perGroup.getD_eq]

/-- A connection that came in takes a slot of its address and one of its group. -/
theorem Exact.admitted (h : s.Exact) {limits : ConnLimits} {row : Nat × Nat}
    (hroom : s.tables.HasRoom ip)
    (hsame : limits =
      { accept := limits.accept
        reconnects := s.tables.reconnects.insert ip row
        inboundPerIp := bump s.tables.inboundPerIp ip
        inboundPerGroup := bump s.tables.inboundPerGroup (groupOf ip) })
    (hlevel : limits.accept.level ≤ limits.accept.capacity)
    (hcap : limits.accept.capacity = acceptBurst) :
    Exact { tables := { s.tables with toConnLimits := limits }
            live := { outbound := false, ip } :: s.live } := by
  have hip : limits.inboundPerIp = bump s.tables.inboundPerIp ip := congrArg (·.inboundPerIp) hsame
  have hgroup : limits.inboundPerGroup = bump s.tables.inboundPerGroup (groupOf ip) :=
    congrArg (·.inboundPerGroup) hsame
  obtain ⟨hroomIp, hroomGroup⟩ := h.hasRoom_iff.mp hroom
  constructor
  case perIp => exact hip ▸ h.perIp.bump fun j ↦ among_cons_self rfl
  case perGroup => exact hgroup ▸ h.perGroup.bump fun g ↦ among_cons_self rfl
  case outPerGroup => exact h.outPerGroup.congr fun g ↦ among_cons_of_ne Bool.false_ne_true
  case perIp_le =>
    intro j
    refine among_cons.trans_le ?_
    split
    case isTrue hj =>
      obtain ⟨-, rfl⟩ := hj
      exact hroomIp
    case isFalse => exact h.perIp_le j
  case perGroup_le =>
    intro g
    refine among_cons.trans_le ?_
    split
    case isTrue hg =>
      obtain ⟨-, rfl⟩ := hg
      exact hroomGroup
    case isFalse => exact h.perGroup_le g
  case outPerGroup_le =>
    exact fun g ↦ (among_cons_of_ne Bool.false_ne_true).trans_le (h.outPerGroup_le g)
  case level_le => exact hlevel
  case capacity_eq => exact hcap

/-- An address that comes in is turned away, refused or admitted. -/
theorem accept_spec (hs : s.Exact) (ip : Ip) (now : Mono) (banned : Bool) (inbound : Nat) :
    ∃ s', s.accept ip now banned inbound = some s' ∧ s'.Exact ∧
      (Unspent s s' ∨ s'.live = { outbound := false, ip } :: s.live) ∧
      ∀ j, j ∈ s'.tables.reconnects ↔ j ∈ s.tables.reconnects ∨
        j = ip ∧ banned = false ∧ inbound < maxInbound ∧ s.HasRoom ip := by
  unfold accept
  cases banned with
  | true =>
    exact ⟨s, rfl, hs, .inl (.refl s), fun j ↦ ⟨.inl, fun h ↦ h.elim id fun h ↦ nomatch h.2.1⟩⟩
  | false =>
    rw [if_neg Bool.false_ne_true]
    by_cases hfull : maxInbound ≤ inbound
    · rw [if_pos hfull]
      refine ⟨s, rfl, hs, .inl (.refl s), fun j ↦ ⟨.inl, fun h ↦ h.elim id fun h ↦ ?_⟩⟩
      exact absurd h.2.2.1 hfull.not_gt
    rw [if_neg hfull]
    have hinbound : inbound < maxInbound := Nat.lt_of_not_le hfull
    obtain ⟨limits, res, hanswer, hres, hlevel, hcap⟩ :=
      ConnLimits.admitInbound_spec hs.level_le hs.capacity_eq ip now
    rw [hanswer, Option.map_some]
    cases hres with
    | full e hroom hsame =>
      subst hsame
      refine ⟨_, rfl, hs, .inl (.refl s), fun j ↦ ⟨.inl, fun h ↦ h.elim id fun h ↦ ?_⟩⟩
      exact absurd (hs.hasRoom_iff.mpr h.2.2.2) hroom
    | refused e row hroom hsame hkept =>
      have hunspent : Unspent s { s with tables := { s.tables with toConnLimits := limits } } := by
        constructor
        case live => rfl
        case perIp => exact fun j ↦ congrArg (AList.lookup j ·.inboundPerIp) hsame
        case perGroup => exact fun g ↦ congrArg (AList.lookup g ·.inboundPerGroup) hsame
        case outPerGroup => exact fun _ ↦ rfl
        case level_le => exact hkept
      refine ⟨_, rfl, hunspent.exact hs hlevel hcap, .inl hunspent, fun j ↦ ?_⟩
      have hrows : limits.reconnects = s.tables.reconnects.insert ip row :=
        congrArg (·.reconnects) hsame
      change j ∈ limits.reconnects ↔ _
      rw [hrows, AList.mem_insert]
      have hopen := hs.hasRoom_iff.mp hroom
      tauto
    | admitted row hroom hsame =>
      refine ⟨_, rfl, hs.admitted hroom hsame hlevel hcap, .inr rfl, fun j ↦ ?_⟩
      have hrows : limits.reconnects = s.tables.reconnects.insert ip row :=
        congrArg (·.reconnects) hsame
      change j ∈ limits.reconnects ↔ _
      rw [hrows, AList.mem_insert]
      have hopen := hs.hasRoom_iff.mp hroom
      tauto

/-- An address that is dialed is passed over, refused or admitted below the bound. -/
theorem dial_spec (hs : s.Exact) (ip : Ip) (widen banned : Bool) (outbound : Nat) :
    (s.dial ip widen banned outbound).Exact ∧
      (Unspent s (s.dial ip widen banned outbound) ∨
        (s.dial ip widen banned outbound).live = { outbound := true, ip } :: s.live ∧
          (s.dial ip widen banned outbound).outboundTo (groupOf ip) ≤
            ConnTables.outboundCap widen) ∧
      (s.dial ip widen banned outbound).tables.reconnects = s.tables.reconnects := by
  unfold dial
  by_cases hfull : maxOutbound ≤ outbound
  · rw [if_pos hfull]
    exact ⟨hs, .inl (.refl s), rfl⟩
  rw [if_neg hfull]
  by_cases hbanned : banned = true
  · rw [if_pos hbanned]
    exact ⟨hs, .inl (.refl s), rfl⟩
  rw [if_neg hbanned, ConnTables.admitOutbound]
  have hcount : (s.tables.outboundPerGroup.lookup (groupOf ip)).getD 0 =
      s.outboundTo (groupOf ip) := hs.outPerGroup.getD_eq _
  have hwiden : 0 < ConnTables.outboundCap widen ∧
      ConnTables.outboundCap widen ≤ outboundPerGroupWidened := by
    cases widen <;> decide
  rw [hcount]
  by_cases hcap : ConnTables.outboundCap widen ≤ s.outboundTo (groupOf ip)
  · -- the row that the lookup makes is there already
    have hpos : s.outboundTo (groupOf ip) ≠ 0 := (hwiden.1.trans_le hcap).ne'
    rw [if_pos hcap]
    have hunspent : Unspent s { s with
        tables := { s.tables with
          outboundPerGroup :=
            s.tables.outboundPerGroup.insert (groupOf ip) (s.outboundTo (groupOf ip)) } } := by
      refine ⟨rfl, fun _ ↦ rfl, fun _ ↦ rfl, fun g ↦ ?_, le_rfl⟩
      rcases eq_or_ne g (groupOf ip) with rfl | hne
      · exact (AList.lookup_insert _).trans ((hs.outPerGroup _).trans (if_neg hpos)).symm
      · exact AList.lookup_insert_ne hne
    exact ⟨hunspent.exact hs hs.level_le hs.capacity_eq, .inl hunspent, rfl⟩
  · rw [if_neg hcap]
    have hone : among ({ outbound := true, ip } :: s.live) true groupOf (groupOf ip) =
        s.outboundTo (groupOf ip) + 1 := (among_cons_self rfl).trans (by rw [if_pos rfl]; rfl)
    have hbelow : s.outboundTo (groupOf ip) + 1 ≤ ConnTables.outboundCap widen :=
      Nat.lt_of_not_le hcap
    refine ⟨?_, .inr ⟨rfl, hone.trans_le hbelow⟩, rfl⟩
    constructor
    case perIp => exact hs.perIp.congr fun j ↦ among_cons_of_ne Bool.false_ne_true.symm
    case perGroup => exact hs.perGroup.congr fun g ↦ among_cons_of_ne Bool.false_ne_true.symm
    case outPerGroup => exact hs.outPerGroup.bump fun g ↦ among_cons_self rfl
    case perIp_le =>
      exact fun j ↦ (among_cons_of_ne Bool.false_ne_true.symm).trans_le (hs.perIp_le j)
    case perGroup_le =>
      exact fun g ↦ (among_cons_of_ne Bool.false_ne_true.symm).trans_le (hs.perGroup_le g)
    case outPerGroup_le =>
      intro g
      rcases eq_or_ne g (groupOf ip) with rfl | hne
      · exact hone.trans_le (hbelow.trans hwiden.2)
      · refine (among_cons_self rfl).trans_le ?_
        rw [if_neg hne]
        exact hs.outPerGroup_le g
    case level_le => exact hs.level_le
    case capacity_eq => exact hs.capacity_eq

/-- A connection that ends frees its own slots. -/
theorem release_spec (hs : s.Exact) (hconn : conn ∈ s.live) :
    (s.release conn).Exact ∧ (s.release conn).tables.reconnects = s.tables.reconnects := by
  obtain ⟨outbound, ip⟩ := conn
  have hperIp_le (j : Ip) : (s.release ⟨outbound, ip⟩).inboundFrom j ≤ inboundPerIpMax :=
    among_erase_le.trans (hs.perIp_le j)
  have hperGroup_le (g : Group) :
      (s.release ⟨outbound, ip⟩).inboundFromGroup g ≤ inboundPerGroupMax :=
    among_erase_le.trans (hs.perGroup_le g)
  have houtPerGroup_le (g : Group) :
      (s.release ⟨outbound, ip⟩).outboundTo g ≤ outboundPerGroupWidened :=
    among_erase_le.trans (hs.outPerGroup_le g)
  cases outbound with
  | true =>
    refine ⟨⟨?_, ?_, ?_, hperIp_le, hperGroup_le, houtPerGroup_le, hs.level_le, hs.capacity_eq⟩,
      rfl⟩
    · exact hs.perIp.congr fun j ↦ among_erase_of_ne hconn Bool.false_ne_true.symm
    · exact hs.perGroup.congr fun g ↦ among_erase_of_ne hconn Bool.false_ne_true.symm
    · exact hs.outPerGroup.unbump fun g ↦ among_erase_self hconn rfl
  | false =>
    refine ⟨⟨?_, ?_, ?_, hperIp_le, hperGroup_le, houtPerGroup_le, hs.level_le, hs.capacity_eq⟩,
      rfl⟩
    · exact hs.perIp.unbump fun j ↦ among_erase_self hconn rfl
    · exact hs.perGroup.unbump fun g ↦ among_erase_self hconn rfl
    · exact hs.outPerGroup.congr fun g ↦ among_erase_of_ne hconn Bool.false_ne_true

/-! ## Runs -/

/-- An event by which an address comes as far as the table of reconnects. -/
def ReachesTable (s : Slots) (ip : Ip) : SlotEvent → Prop
  | .accept ip' _ banned inbound =>
    ip = ip' ∧ banned = false ∧ inbound < maxInbound ∧ s.HasRoom ip'
  | _ => False

/-- What an event does. -/
structure Follows (s : Slots) (e : SlotEvent) (s' : Slots) : Prop where
  exact : s'.Exact
  reconnects : ∀ ip, ip ∈ s'.tables.reconnects ↔ ip ∈ s.tables.reconnects ∨ s.ReachesTable ip e
  live : match e with
    | .accept ip _ _ _ => Unspent s s' ∨ s'.live = { outbound := false, ip } :: s.live
    | .dial ip widen _ _ => Unspent s s' ∨ s'.live = { outbound := true, ip } :: s.live ∧
        s'.outboundTo (groupOf ip) ≤ ConnTables.outboundCap widen
    | .release conn => conn ∈ s.live ∧ s'.live = s.live.erase conn

/-- Every event has an end but the release of a connection that there is none of. -/
theorem apply_spec (hs : s.Exact) (e : SlotEvent) :
    (∃ conn, e = .release conn ∧ conn ∉ s.live ∧ s.apply e = none) ∨
      ∃ s', s.apply e = some s' ∧ s.Follows e s' := by
  cases e with
  | accept ip now banned inbound =>
    obtain ⟨s', happly, hexact, hlive, hrows⟩ := accept_spec hs ip now banned inbound
    refine .inr ⟨s', happly, hexact, fun j ↦ (hrows j).trans (or_congr_right ?_), hlive⟩
    exact Iff.rfl
  | dial ip widen banned outbound =>
    obtain ⟨hexact, hlive, hrows⟩ := dial_spec hs ip widen banned outbound
    exact .inr ⟨_, rfl, hexact, fun j ↦ hrows ▸ (or_iff_left id).symm, hlive⟩
  | release conn =>
    by_cases hconn : conn ∈ s.live
    · obtain ⟨hexact, hrows⟩ := release_spec hs hconn
      exact .inr ⟨_, if_pos hconn, hexact, fun j ↦ hrows ▸ (or_iff_left id).symm, hconn, rfl⟩
    · exact .inl ⟨conn, rfl, hconn, if_neg hconn⟩

variable {now₀ : Mono} {events : List SlotEvent} {e : SlotEvent}

theorem run_concat (now₀ : Mono) (events : List SlotEvent) (e : SlotEvent) :
    run now₀ (events ++ [e]) = (run now₀ events).bind (·.apply e) := by
  rw [run, List.foldlM_append]
  refine Option.bind_congr fun s _ ↦ ?_
  exact bind_pure _

/-- An address came in the run as far as the table of reconnects. -/
def Reached (now₀ : Mono) (events : List SlotEvent) (ip : Ip) : Prop :=
  ∃ before e after s, events = before ++ e :: after ∧ run now₀ before = some s ∧ s.ReachesTable ip e

theorem reached_concat (hrun : run now₀ events = some s) :
    Reached now₀ (events ++ [e]) ip ↔ Reached now₀ events ip ∨ s.ReachesTable ip e := by
  constructor
  · rintro ⟨before, e', after, s', heq, hbefore, hreach⟩
    rcases List.eq_nil_or_concat after with rfl | ⟨rest, x, rfl⟩
    · obtain ⟨rfl, hlast⟩ := List.append_inj' heq rfl
      obtain rfl : e = e' := (List.cons.inj hlast).1
      obtain rfl : s = s' := Option.some.inj (hrun.symm.trans hbefore)
      exact .inr hreach
    · rw [List.concat_eq_append, ← List.cons_append, ← List.append_assoc] at heq
      exact .inl ⟨before, e', rest, s', (List.append_inj' heq rfl).1, hbefore, hreach⟩
  · rintro (⟨before, e', after, s', rfl, hbefore, hreach⟩ | hreach)
    · exact ⟨before, e', after ++ [e], s', by rw [List.append_assoc, List.cons_append], hbefore,
        hreach⟩
    · exact ⟨events, e, [], s, rfl, hrun, hreach⟩

/-- In every run the slots are exact, and the table of reconnects has every address that came as far
as it. -/
theorem run_exact (h : run now₀ events = some s) :
    s.Exact ∧ ∀ ip, ip ∈ s.tables.reconnects ↔ Reached now₀ events ip := by
  induction events using List.reverseRecOn generalizing s with
  | nil =>
    obtain rfl := Option.some.inj h
    refine ⟨exact_new now₀, fun ip ↦ iff_of_false (AList.notMem_empty ip) ?_⟩
    rintro ⟨before, e, after, s', heq, -⟩
    cases before <;> cases heq
  | append_singleton events e ih =>
    rw [run_concat] at h
    obtain ⟨s₁, hrun, happly⟩ := Option.bind_eq_some_iff.mp h
    obtain ⟨hexact, hrows⟩ := ih hrun
    rcases apply_spec hexact e with ⟨conn, -, -, hnone⟩ | ⟨s', hsome, hfollows⟩
    · cases hnone.symm.trans happly
    · obtain rfl : s' = s := Option.some.inj (hsome.symm.trans happly)
      refine ⟨hfollows.exact, fun ip ↦ ?_⟩
      rw [reached_concat hrun, ← hrows]
      exact hfollows.reconnects ip

/-- An address has a connection or came in within the last minute. -/
def Current (events : List SlotEvent) (s : Slots) (ip : Ip) (now : Mono) : Prop :=
  (∃ conn ∈ s.live, conn.ip = ip) ∨
    ∃ t banned inbound, .accept ip t banned inbound ∈ events ∧ now ≤ t + 60000

/-- In every run the counts are those of the connections and within their bounds, every event does
what it should, and the table of reconnects has current addresses alone exactly when all addresses
are current that ever came as far as it. -/
theorem slots_exact (now₀ : Mono) (events : List SlotEvent) (s : Slots)
    (h : run now₀ events = some s) :
    s.Exact ∧
    (∀ e, (∃ conn, e = .release conn ∧ conn ∉ s.live ∧ s.apply e = none) ∨
      ∃ s', s.apply e = some s' ∧ s.Follows e s') ∧
    ∀ now, (∀ ip ∈ s.tables.reconnects, Current events s ip now) ↔
      ∀ ip, Reached now₀ events ip → Current events s ip now := by
  obtain ⟨hexact, hrows⟩ := run_exact h
  refine ⟨hexact, apply_spec hexact, fun now ↦ ?_⟩
  exact forall_congr' fun ip ↦ imp_congr_left (hrows ip)

theorem length_visitorIp : (List.replicate 16 (1 : UInt8)).length = 16 := List.length_replicate

/-- An address. -/
def visitorIp : Ip := ⟨List.replicate 16 1, length_visitorIp⟩

/-- An address that comes once and goes. -/
def visit : List SlotEvent := [.accept visitorIp 0 false 0, .release ⟨false, visitorIp⟩]

/-- The address is still in the table an hour later. -/
theorem visitor_stays : ∃ s, run 0 visit = some s ∧ s.live = [] ∧
    visitorIp ∈ s.tables.reconnects ∧ ¬Current visit s visitorIp 3600000 := by
  refine ⟨_, rfl, rfl, by decide, ?_⟩
  rintro (⟨conn, hconn, -⟩ | ⟨t, banned, inbound, hmem, hlate⟩)
  · exact List.not_mem_nil hconn
  · obtain ⟨-, rfl, -⟩ : visitorIp = visitorIp ∧ t = 0 ∧ banned = false ∧ inbound = 0 := by
      simpa [visit] using hmem
    exact absurd hlate (by decide)

/-- A visit that goes on, and one that is dialed. -/
def stay : List SlotEvent := [.accept visitorIp 0 false 0, .dial visitorIp false false 0]

theorem slots_exact_stay : ∃ s, run 0 stay = some s ∧ s.Exact ∧
    ∀ ip ∈ s.tables.reconnects, Current stay s ip 3600000 := by
  have hrun : run 0 stay = some ((run 0 stay).get (by decide)) := (Option.some_get _).symm
  obtain ⟨hexact, -, hrows⟩ := slots_exact 0 stay _ hrun
  refine ⟨_, hrun, hexact, (hrows 3600000).mpr ?_⟩
  rintro ip ⟨before, e, after, s, heq, -, hreach⟩
  have he : e ∈ stay := heq ▸ List.mem_append_right _ List.mem_cons_self
  rcases List.mem_cons.mp he with rfl | he
  · exact .inl ⟨⟨false, visitorIp⟩, by decide, hreach.1.symm⟩
  · obtain rfl := List.mem_singleton.mp he
    exact hreach.elim

end Slots

end Plaine.P2p
