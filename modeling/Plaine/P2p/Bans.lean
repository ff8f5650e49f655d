import Plaine.Lib.Fifo
import Plaine.Lib.Runs
import Plaine.P2p.AddrMan

/-!
# Bans

The two tables of banned addresses, `BanSet` of `net/limits.rs` and `BanList` of `peer/ban.rs`.
Each has the order of its addresses beside the table and drops the oldest ban beyond a bound.  A ban
of an address that is in the table takes the place of the one before.
-/

namespace Plaine.P2p

open Plaine.Lib

/-! ## Constants -/

/-- `BANLIST_MAX`. -/
def banlistMax : Nat := 65536

/-- `BAN_TIME_MS`. -/
def banTimeMs : Nat := 24 * 3600000

/-- `BAN_PROTOCOL_MS`. -/
def banProtocolMs : Nat := 3600000

/-! ## The table of the connections -/

/-- `BanSet`. -/
structure BanSet where
  until_ : AList fun _ : Ip ↦ Mono
  order : List Ip

namespace BanSet

/-- `BanSet::new`. -/
def new : BanSet := { until_ := ∅, order := [] }

/-- The loop of `BanSet::ban` over an order that is too long. -/
def dropOldest (until_ : AList fun _ : Ip ↦ Mono) : List Ip → BanSet
  | [] => { until_, order := [] }
  | old :: order =>
    if banlistMax < order.length + 1 then dropOldest (until_.erase old) order
    else { until_, order := old :: order }

/-- `BanSet::ban`. -/
def ban (b : BanSet) (ip : Ip) (ms : Nat) (now : Mono) : BanSet :=
  let until_ := b.until_.insert ip (now.plusMs ms)
  if ip ∈ b.until_ then { b with until_ } else dropOldest until_ (b.order ++ [ip])

/-- `BanSet::banned`. -/
def banned (b : BanSet) (ip : Ip) (now : Mono) : Bool := (b.until_.lookup ip).any (now < ·)

/-- The table with its order. -/
def table (b : BanSet) : Fifo Ip Mono := { rows := b.until_, order := b.order }

variable {b : BanSet} {ip : Ip} {ms : Nat} {now : Mono}

theorem table_dropOldest (until_ : AList fun _ : Ip ↦ Mono) (order : List Ip) :
    (dropOldest until_ order).table =
      { rows := (order.take (order.length - banlistMax)).foldl (fun m k ↦ m.erase k) until_
        order := order.drop (order.length - banlistMax) } := by
  induction order generalizing until_ with
  | nil => rfl
  | cons old order ih =>
    rw [dropOldest]
    by_cases hlong : banlistMax < order.length + 1
    · have hlen : (old :: order).length - banlistMax = order.length - banlistMax + 1 := by
        rw [List.length_cons]
        omega
      rw [if_pos hlong, ih, hlen, List.take_succ_cons, List.drop_succ_cons, List.foldl_cons]
    · have hlen : (old :: order).length - banlistMax = 0 :=
        Nat.sub_eq_zero_of_le (Nat.le_of_not_lt hlong)
      rw [if_neg hlong, hlen]
      rfl

theorem table_ban (b : BanSet) (ip : Ip) (ms : Nat) (now : Mono) :
    (b.ban ip ms now).table = b.table.insert banlistMax ip (now.plusMs ms) := by
  by_cases hip : ip ∈ b.until_
  · rw [Fifo.insert_of_mem hip, ban, if_pos hip]
    rfl
  · rw [Fifo.insert_of_notMem hip, ban, if_neg hip, table_dropOldest, List.length_append]
    rfl

theorem banned_iff : b.banned ip now = true ↔ ∃ t, b.table.lookup ip = some t ∧ now < t := by
  rw [banned, Option.any_eq_true]
  exact exists_congr fun t ↦ and_congr_right fun _ ↦ decide_eq_true_iff

end BanSet

/-! ## The table with a whitelist -/

/-- `BanList`. -/
structure BanList where
  entries : AList fun _ : Ip ↦ Mono
  order : List Ip
  whitelist : List Ip

namespace BanList

/-- `BanList::new`. -/
def new (whitelist : List Ip) : BanList := { entries := ∅, order := [], whitelist }

/-- `BanList::ban`. -/
def ban (b : BanList) (ip : Ip) (now : Mono) (durMs : Nat) : BanList :=
  if ip ∈ b.whitelist then b
  else
    let entries := b.entries.insert ip (now.plusMs durMs)
    if ip ∈ b.entries then { b with entries }
    else
      let order := b.order ++ [ip]
      if banlistMax < order.length then
        match order with
        | [] => { b with entries, order }
        | victim :: order => { b with entries := entries.erase victim, order }
      else { b with entries, order }

/-- `BanList::is_banned`. -/
def isBanned (b : BanList) (ip : Ip) (now : Mono) : Bool := (b.entries.lookup ip).any (now < ·)

/-- `BanList::sweep`. -/
def sweep (b : BanList) (now : Mono) : BanList :=
  let ended := (b.entries.entries.filter fun e ↦ ¬now < e.2).map (·.1)
  let entries := ended.foldl (fun m ip ↦ m.erase ip) b.entries
  { b with
    entries
    order := b.order.filter (· ∈ entries) }

/-- The table with its order. -/
def table (b : BanList) : Fifo Ip Mono := { rows := b.entries, order := b.order }

variable {b : BanList} {ip : Ip} {now : Mono} {durMs : Nat}

@[simp] theorem whitelist_ban : (b.ban ip now durMs).whitelist = b.whitelist := by
  unfold ban
  dsimp only
  split_ifs
  · rfl
  · rfl
  · split <;> rfl
  · rfl

@[simp] theorem whitelist_sweep : (b.sweep now).whitelist = b.whitelist := rfl

/-- One ban too many is dropped, which is all that a table within the bound has. -/
theorem table_ban (h : b.order.length ≤ banlistMax) (hip : ip ∉ b.whitelist) :
    (b.ban ip now durMs).table = b.table.insert banlistMax ip (now.plusMs durMs) := by
  by_cases hrow : ip ∈ b.entries
  · rw [Fifo.insert_of_mem hrow, ban, if_neg hip, if_pos hrow]
    rfl
  · rw [Fifo.insert_of_notMem hrow, ban, if_neg hip, if_neg hrow]
    dsimp only [table]
    rw [List.length_append, List.length_singleton]
    by_cases hlong : banlistMax < b.order.length + 1
    · have hone : b.order.length + 1 - banlistMax = 1 := by omega
      rw [if_pos hlong, hone]
      cases b.order with
      | nil => rfl
      | cons victim order => rfl
    · rw [if_neg hlong, Nat.sub_eq_zero_of_le (Nat.le_of_not_lt hlong)]
      rfl

theorem table_sweep (h : b.table.Ordered banlistMax) :
    (b.sweep now).table = b.table.eraseWhere (fun t ↦ ¬now < t) := by
  unfold sweep Fifo.eraseWhere
  dsimp only [table]
  congr 1
  refine List.filter_congr fun ip hip ↦ ?_
  have hrow : ip ∈ b.entries := h.mem_order.mp hip
  refine decide_eq_decide.mpr ?_
  rw [← AList.lookup_isSome, AList.lookup_foldl_erase]
  split
  case isTrue hended => exact iff_of_false (by simp) fun hn ↦ hn hended
  case isFalse hended => exact iff_of_true (AList.lookup_isSome.mpr hrow) hended

theorem isBanned_iff : b.isBanned ip now = true ↔ ∃ t, b.table.lookup ip = some t ∧ now < t := by
  rw [isBanned, Option.any_eq_true]
  exact exists_congr fun t ↦ and_congr_right fun _ ↦ decide_eq_true_iff

end BanList

/-! ## Runs -/

/-- The calls of a table. -/
inductive BanCall where
  | ban (ip : Ip) (ms : Nat) (now : Mono)
  | sweep (now : Mono)

namespace BanCall

/-- The address that a call bans. -/
def ip : BanCall → Option Ip
  | ban ip _ _ => some ip
  | sweep _ => none

/-- What a call does to the table, for the addresses that may be banned. -/
def op (bannable : Ip → Bool) : BanCall → Option (Fifo.Op Ip Mono)
  | ban ip ms now => if bannable ip then some (.put ip (now.plusMs ms)) else none
  | sweep now => some (.expire now)

/-- The addresses of some calls. -/
def ips (calls : List BanCall) : Finset Ip := (calls.filterMap ip).toFinset

variable {calls : List BanCall} {bannable : Ip → Bool}

/-- No other addresses are put in the table. -/
theorem keysPut_subset :
    (Fifo.keysPut (calls.filterMap (op bannable))).toFinset ⊆ ips calls := by
  intro ip hip
  rw [List.mem_toFinset, Fifo.keysPut, List.mem_map] at hip
  obtain ⟨⟨ip, t⟩, hrow, rfl⟩ := hip
  obtain ⟨put, hput, hrow⟩ := List.mem_filterMap.mp hrow
  obtain ⟨call, hcall, hop⟩ := List.mem_filterMap.mp hput
  refine List.mem_toFinset.mpr (List.mem_filterMap.mpr ⟨call, hcall, ?_⟩)
  cases call with
  | ban ip' ms now =>
    rw [op] at hop
    split at hop
    · obtain rfl := Option.some.inj hop
      exact congrArg (Option.map Prod.fst) hrow
    · cases hop
  | sweep now =>
    obtain rfl := Option.some.inj hop
    cases hrow

theorem row_mem {ip : Ip} {ms : Nat} {now : Mono} (h : .ban ip ms now ∈ calls)
    (hip : bannable ip = true) :
    (ip, now.plusMs ms) ∈ (calls.filterMap (op bannable)).filterMap Fifo.Op.row :=
  List.mem_filterMap.mpr
    ⟨_, List.mem_filterMap.mpr ⟨_, h, if_pos hip⟩, rfl⟩

end BanCall

/-- Bans of a table that has no sweeps. -/
structure Ban where
  ip : Ip
  ms : Nat
  now : Mono

/-- The call of a ban. -/
def Ban.call (x : Ban) : BanCall := .ban x.ip x.ms x.now

namespace BanSet

/-- A run of bans. -/
def run (bans : List Ban) : BanSet := bans.foldl (fun b x ↦ b.ban x.ip x.ms x.now) new

/-- A ban does not end before the one it takes the place of. -/
def Prolongs (b : BanSet) (x : Ban) : Prop :=
  ∀ t, b.until_.lookup x.ip = some t → t ≤ x.now.plusMs x.ms

/-- What a run does to the table. -/
def ops (bans : List Ban) : List (Fifo.Op Ip Mono) :=
  (bans.map Ban.call).filterMap (BanCall.op fun _ ↦ true)

theorem ops_concat (bans : List Ban) (x : Ban) :
    ops (bans ++ [x]) = ops bans ++ [.put x.ip (x.now.plusMs x.ms)] := by
  unfold ops
  rw [List.map_append, List.filterMap_append]
  rfl

theorem table_run (bans : List Ban) :
    (run bans).table = (ops bans).foldl (Fifo.apply banlistMax) .empty := by
  induction bans using List.reverseRecOn with
  | nil => rfl
  | append_singleton bans x ih =>
    rw [ops_concat, run, List.foldl_append, List.foldl_append, ← ih]
    exact table_ban _ _ _ _

theorem extends_run {bans : List Ban}
    (h : Runs (fun b x ↦ b.ban x.ip x.ms x.now) Prolongs new bans) :
    Runs (Fifo.apply banlistMax) Fifo.Extends .empty (ops bans) := by
  induction bans using List.reverseRecOn with
  | nil => exact runs_nil
  | append_singleton bans x ih =>
    obtain ⟨hruns, hlast⟩ := runs_concat.mp h
    rw [ops_concat]
    refine runs_concat.mpr ⟨ih hruns, ?_⟩
    rw [← table_run]
    exact hlast

end BanSet

namespace BanList

/-- A call of the list. -/
def apply (b : BanList) : BanCall → BanList
  | .ban ip ms now => b.ban ip now ms
  | .sweep now => b.sweep now

/-- A run of calls. -/
def run (whitelist : List Ip) (calls : List BanCall) : BanList := calls.foldl apply (new whitelist)

/-- A ban does not end before the one it takes the place of. -/
def Prolongs (b : BanList) : BanCall → Prop
  | .ban ip ms now => ∀ t, b.entries.lookup ip = some t → t ≤ now.plusMs ms
  | .sweep _ => True

/-- What a run does to the table. -/
def ops (whitelist : List Ip) (calls : List BanCall) : List (Fifo.Op Ip Mono) :=
  calls.filterMap (BanCall.op (· ∉ whitelist))

variable {whitelist : List Ip} {calls : List BanCall}

theorem run_concat (whitelist : List Ip) (calls : List BanCall) (call : BanCall) :
    run whitelist (calls ++ [call]) = (run whitelist calls).apply call := by
  rw [run, List.foldl_append]
  rfl

theorem ops_concat (whitelist : List Ip) (calls : List BanCall) (call : BanCall) :
    ops whitelist (calls ++ [call]) =
      ops whitelist calls ++ (call.op (· ∉ whitelist)).toList := by
  unfold ops
  rw [List.filterMap_append]
  congr 1

theorem op_of_mem {ip : Ip} {ms : Nat} {now : Mono} (h : ip ∈ whitelist) :
    (BanCall.ban ip ms now).op (· ∉ whitelist) = none := if_neg (by simpa using h)

theorem op_of_notMem {ip : Ip} {ms : Nat} {now : Mono} (h : ip ∉ whitelist) :
    (BanCall.ban ip ms now).op (· ∉ whitelist) = some (.put ip (now.plusMs ms)) :=
  if_pos (by simpa using h)

theorem whitelist_run (whitelist : List Ip) (calls : List BanCall) :
    (run whitelist calls).whitelist = whitelist := by
  induction calls using List.reverseRecOn with
  | nil => rfl
  | append_singleton calls call ih =>
    rw [run_concat]
    cases call with
    | ban ip ms now => exact whitelist_ban.trans ih
    | sweep now => exact ih

theorem table_run (whitelist : List Ip) (calls : List BanCall) :
    (run whitelist calls).table = (ops whitelist calls).foldl (Fifo.apply banlistMax) .empty := by
  induction calls using List.reverseRecOn with
  | nil => rfl
  | append_singleton calls call ih =>
    have hordered := Fifo.run_ordered banlistMax (ops whitelist calls)
    have hwhitelist := whitelist_run whitelist calls
    rw [← ih] at hordered
    rw [run_concat, ops_concat, List.foldl_append, ← ih]
    cases call with
    | ban ip ms now =>
      by_cases hip : ip ∈ whitelist
      · rw [op_of_mem hip, apply, ban, if_pos (hwhitelist.symm ▸ hip)]
        rfl
      · rw [op_of_notMem hip]
        exact table_ban hordered.short (hwhitelist.symm ▸ hip)
    | sweep now => exact table_sweep hordered

theorem extends_run (h : Runs apply Prolongs (new whitelist) calls) :
    Runs (Fifo.apply banlistMax) Fifo.Extends .empty (ops whitelist calls) := by
  induction calls using List.reverseRecOn with
  | nil => exact runs_nil
  | append_singleton calls call ih =>
    obtain ⟨hruns, hlast⟩ := runs_concat.mp h
    rw [ops_concat]
    cases call with
    | ban ip ms now =>
      by_cases hip : ip ∈ whitelist
      · rw [op_of_mem hip]
        exact (List.append_nil (ops whitelist calls)).symm ▸ ih hruns
      · rw [op_of_notMem hip]
        refine runs_concat.mpr ⟨ih hruns, ?_⟩
        rw [← table_run]
        exact hlast
    | sweep now => exact runs_concat.mpr ⟨ih hruns, trivial⟩

theorem expire_mem {t : Mono} (h : .expire t ∈ ops whitelist calls) : .sweep t ∈ calls := by
  obtain ⟨call, hcall, hop⟩ := List.mem_filterMap.mp h
  cases call with
  | ban ip ms now =>
    rw [BanCall.op] at hop
    split at hop <;> cases hop
  | sweep now =>
    obtain rfl : now = t := Fifo.Op.expire.inj (Option.some.inj hop)
    exact hcall

end BanList

/-! ## Bans that last -/

/-- The addresses of a table and its order are the same, each once and no more than the bound. -/
structure InStep (table : AList fun _ : Ip ↦ Mono) (order : List Ip) : Prop where
  mem_iff : ∀ ip, ip ∈ table ↔ ip ∈ order
  nodup : order.Nodup
  size : table.keys.length = order.length
  short : order.length ≤ banlistMax

theorem inStep_of_ordered {f : Fifo Ip Mono} (h : f.Ordered banlistMax) :
    InStep f.rows f.order where
  mem_iff _ := h.mem_order.symm
  nodup := h.nodup
  size := h.perm.length_eq
  short := h.short

theorem BanSet.inStep_run (bans : List Ban) :
    InStep (run bans).until_ (run bans).order := by
  have hordered := Fifo.run_ordered banlistMax (ops bans)
  rw [← table_run] at hordered
  exact inStep_of_ordered hordered

theorem BanList.inStep_run (whitelist : List Ip) (calls : List BanCall) :
    InStep (run whitelist calls).entries (run whitelist calls).order := by
  have hordered := Fifo.run_ordered banlistMax (ops whitelist calls)
  rw [← table_run] at hordered
  exact inStep_of_ordered hordered

/-- An address is refused until the end of each of its bans, where no ban ends before the one it
takes the place of and there is room for all addresses. -/
theorem BanSet.banned_run {bans : List Ban} (hcard : (bans.map Ban.ip).toFinset.card ≤ banlistMax)
    (hruns : Runs (fun b x ↦ b.ban x.ip x.ms x.now) Prolongs new bans) {x : Ban} (hx : x ∈ bans)
    {now : Mono} (hnow : now < x.now.plusMs x.ms) : (run bans).banned x.ip now = true := by
  have hips : BanCall.ips (bans.map Ban.call) = (bans.map Ban.ip).toFinset := by
    unfold BanCall.ips
    rw [List.filterMap_map, ← List.filterMap_eq_map]
    rfl
  have hroom : (Fifo.keysPut (ops bans)).toFinset.card ≤ banlistMax :=
    (Finset.card_le_card BanCall.keysPut_subset).trans (hips ▸ hcard)
  have hexpire : ∀ t, .expire t ∈ ops bans → t ≤ now := by
    intro t ht
    obtain ⟨call, hcall, hop⟩ := List.mem_filterMap.mp ht
    obtain ⟨y, -, rfl⟩ := List.mem_map.mp hcall
    cases hop
  have hmem : Ban.call x ∈ bans.map Ban.call := List.mem_map_of_mem hx
  obtain ⟨t, hlookup, hle⟩ := Fifo.run_holds hroom (extends_run hruns) hexpire _
    (BanCall.row_mem hmem rfl) hnow
  change Fifo.lookup ((ops bans).foldl _ _) _ = _ at hlookup
  rw [← table_run] at hlookup
  exact banned_iff.mpr ⟨t, hlookup, hnow.trans_le hle⟩

theorem BanList.isBanned_run {whitelist : List Ip} {calls : List BanCall}
    (hcard : (BanCall.ips calls).card ≤ banlistMax)
    (hruns : Runs apply Prolongs (new whitelist) calls) {ip : Ip} {ms : Nat} {t now : Mono}
    (hban : .ban ip ms t ∈ calls) (hip : ip ∉ whitelist) (hsweeps : ∀ t, .sweep t ∈ calls → t ≤ now)
    (hnow : now < t.plusMs ms) : (run whitelist calls).isBanned ip now = true := by
  have hroom : (Fifo.keysPut (ops whitelist calls)).toFinset.card ≤ banlistMax :=
    (Finset.card_le_card BanCall.keysPut_subset).trans hcard
  obtain ⟨t, hlookup, hle⟩ := Fifo.run_holds hroom (extends_run hruns)
    (fun t ht ↦ hsweeps t (expire_mem ht)) _ (BanCall.row_mem hban (by simpa using hip)) hnow
  change Fifo.lookup ((ops whitelist calls).foldl _ _) _ = _ at hlookup
  rw [← table_run] at hlookup
  exact isBanned_iff.mpr ⟨t, hlookup, hnow.trans_le hle⟩

/-- The two tables and their orders agree after any calls.  Where at most so many addresses are
named as there is room for, and no ban ends before the one it takes the place of, an address is
refused at every time before the end of each of its bans. -/
theorem bans_last (bans : List Ban) (whitelist : List Ip) (calls : List BanCall) :
    InStep (BanSet.run bans).until_ (BanSet.run bans).order ∧
    InStep (BanList.run whitelist calls).entries (BanList.run whitelist calls).order ∧
    ((bans.map Ban.ip).toFinset.card ≤ banlistMax →
      Runs (fun b x ↦ b.ban x.ip x.ms x.now) BanSet.Prolongs .new bans →
      ∀ x ∈ bans, ∀ now, now < x.now.plusMs x.ms → (BanSet.run bans).banned x.ip now = true) ∧
    ((BanCall.ips calls).card ≤ banlistMax →
      Runs BanList.apply BanList.Prolongs (.new whitelist) calls →
      ∀ ip ms t now, .ban ip ms t ∈ calls → ip ∉ whitelist →
      (∀ t, .sweep t ∈ calls → t ≤ now) → now < t.plusMs ms →
      (BanList.run whitelist calls).isBanned ip now = true) :=
  ⟨BanSet.inStep_run bans, BanList.inStep_run whitelist calls,
    fun hcard hruns _ hx _ hnow ↦ BanSet.banned_run hcard hruns hx hnow,
    fun hcard hruns _ _ _ _ hban hip hsweeps hnow ↦
      BanList.isBanned_run hcard hruns hban hip hsweeps hnow⟩

/-- An address. -/
def bannedIp : Ip := ⟨List.replicate 16 1, rfl⟩

/-- A short ban and a long one after it. -/
def longerBan : List Ban := [⟨bannedIp, banProtocolMs, 0⟩, ⟨bannedIp, banTimeMs, 1000⟩]

/-- The same, with a sweep after the short ban has ended. -/
def sweptBan : List BanCall :=
  [.ban bannedIp banProtocolMs 0, .sweep 4000000, .ban bannedIp banTimeMs 4000000]

theorem longerBan_prolongs :
    Runs (fun b x ↦ b.ban x.ip x.ms x.now) BanSet.Prolongs .new longerBan := by
  refine runs_cons.mpr ⟨fun t ht ↦ (nomatch ht), runs_cons.mpr ⟨fun t ht ↦ ?_, runs_nil⟩⟩
  obtain rfl : Mono.plusMs 0 banProtocolMs = t := Option.some.inj ht
  decide

theorem bans_last_sample :
    (BanSet.run longerBan).banned bannedIp 5000000 = true ∧
      (BanList.run [] sweptBan).isBanned bannedIp 5000000 = true := by
  obtain ⟨-, -, hset, hlist⟩ := bans_last longerBan [] sweptBan
  constructor
  · exact hset (by decide) longerBan_prolongs ⟨bannedIp, banTimeMs, 1000⟩
      (by simp [longerBan]) 5000000 (by decide)
  · refine hlist (by decide) ?_ bannedIp banTimeMs 4000000 5000000
      (by simp [sweptBan]) (by simp) (by simp [sweptBan]) (by decide)
    refine runs_cons.mpr ⟨fun t ht ↦ (nomatch ht), runs_cons.mpr ⟨trivial, ?_⟩⟩
    exact runs_cons.mpr ⟨fun t ht ↦ (nomatch ht), runs_nil⟩

/-- A long ban and a short one after it. -/
def shorterBan : List Ban := [⟨bannedIp, banTimeMs, 0⟩, ⟨bannedIp, banProtocolMs, 1000⟩]

/-- The short ban takes the place of the long one, in either table. -/
theorem shorter_ban_wins :
    (⟨bannedIp, banTimeMs, 0⟩ : Ban) ∈ shorterBan ∧ (shorterBan.map Ban.ip).toFinset.card = 1 ∧
      5000000 < Mono.plusMs 0 banTimeMs ∧
      (BanSet.run shorterBan).banned bannedIp 5000000 = false ∧
      (BanList.run [] (shorterBan.map Ban.call)).isBanned bannedIp 5000000 = false := by
  refine ⟨by simp [shorterBan], by decide, by decide, by decide, by decide⟩

end Plaine.P2p
