import Plaine.Lib.Thinning
import Plaine.Node.Sink
import Plaine.Storage.Reader

/-!
# Locators

`NodeView::locator` and `NodeView::headers_from` of `node/src/wire/net.rs`, over the reads of
`NodeStore`, which looks in the ring of unsealed blocks before it asks the reader.
-/

namespace Plaine.Node

open Plaine.Lib Plaine.Consensus Plaine.Storage

/-- `StoreReader`, of a store that has published its metadata. -/
structure StoreReader where
  disk : Disk
  tables : Tables
  info : Meta
  damage : List Storage.Range
  prefixBytes : Nat
  sideHeaders : AList fun _ : Hash32 ↦ Nat × RawHeader

/-- `NodeStore`. -/
structure NodeStore where
  reader : StoreReader
  ring : Unsealed

/-! ## The reads -/

namespace NodeStore

section

variable [Crypto] (s : NodeStore)

/-- `NodeStore::header_raw_by_hash`. -/
def headerRawByHash (h : Hash32) : Option (Nat × RawHeader) :=
  match s.ring.byHash.lookup h with
  | some i => (s.ring.entries[i]?).map fun e ↦ (e.height, e.header)
  | none =>
    match Storage.headerByHash s.reader.disk s.reader.prefixBytes s.reader.tables s.reader.info
      s.reader.damage h with
    | .ok v => v
    | .error _ => none

/-- `NodeStore::header_by_hash`. -/
def headerByHash (h : Hash32) : Option (Nat × RawHeader) :=
  match s.headerRawByHash h with
  | some found => some found
  | none => s.reader.sideHeaders.lookup h

/-- `NodeStore::hash_at`. -/
def hashAt (height : Nat) : Option Hash32 :=
  match s.ring.atHeight height with
  | some e => some e.hash
  | none =>
    match Storage.headerAt s.reader.disk s.reader.info s.reader.damage height with
    | .ok v => v.map headerHash
    | .error _ => none

end

/-- The headers that `headers_range` has from the reader. -/
def sealedRange (s : NodeStore) (start max : Nat) : List RawHeader :=
  match Storage.headersRange s.reader.disk s.reader.info s.reader.damage start
    (min max maxHeadersPerMsg) with
  | .ok (n, buf) => (List.range n).map fun i ↦ Arr.ofSlice 132 (i * headerBytes) buf
  | .error _ => []

/-- The headers that `headers_range` has from the ring. -/
def ringRange (ring : Unsealed) : Nat → Nat → List RawHeader
  | 0, _ => []
  | n + 1, next =>
    match ring.atHeight next with
    | some e => e.header :: ringRange ring n (next + 1)
    | none => []

/-- `NodeStore::headers_range`. -/
def headersRange (s : NodeStore) (start max : Nat) : List RawHeader :=
  let out := s.sealedRange start max
  out ++ ringRange s.ring (max - out.length) (start + out.length)

variable [Crypto] (s : NodeStore)

/-- Where `headers_from` starts for an entry of a locator, if it does. -/
def startAfter (h : Hash32) : Option Nat :=
  match s.headerByHash h with
  | some (height, _) => if s.hashAt height = some h then some (height + 1) else none
  | none => none

/-- `NodeView::headers_from`. -/
def headersFrom (loc : List Hash32) (max : Nat) : List RawHeader :=
  s.headersRange ((loc.findSome? s.startAfter).getD 0) max

end NodeStore

/-! ## The locator -/

/-- `i64::MAX`. -/
def i64Max : Nat := 2 ^ 63 - 1

/-- `x as i64`. -/
def asI64 (x : Nat) : Int := if x ≤ i64Max then x else x - 2 ^ 64

/-- The entries of a locator. -/
def locatorMax : Nat := 64

/-- The loop of `locator`. -/
def locatorLoop (hashAt : Nat → Option Hash32) (h : Int) (step : Nat) (hstep : 0 < step)
    (out : List Hash32) : List Hash32 :=
  if 0 ≤ h ∧ out.length < locatorMax then
    let out := out ++ (hashAt h.toNat).toList
    if 12 ≤ out.length then
      locatorLoop hashAt (h - min (step * 2) i64Max) (min (step * 2) i64Max)
        (lt_min (Nat.mul_pos hstep two_pos) (by decide)) out
    else locatorLoop hashAt (h - step) step hstep out
  else out
termination_by (h + 1).toNat
decreasing_by
  · have hpos : 0 < min (step * 2) i64Max := lt_min (Nat.mul_pos hstep two_pos) (by decide)
    omega
  · omega

/-- `NodeView::locator`. -/
def locator (hashAt : Nat → Option Hash32) (tip : Nat) (genesis : Hash32) : List Hash32 :=
  let out := locatorLoop hashAt (asI64 tip) 1 one_pos []
  if out.getLast? = some genesis then out else out ++ [genesis]

/-! ## Heights -/

variable {hashAt : Nat → Option Hash32} {tip n : Nat} {genesis : Hash32}

/-- The chain of a node: its hashes up to the tip, all different. -/
structure Known (hashAt : Nat → Option Hash32) (tip : Nat) (genesis : Hash32) : Prop where
  known : ∀ h ≤ tip, ∃ x, hashAt h = some x
  genesis : hashAt 0 = some genesis
  distinct : ∀ h ≤ tip, ∀ k ≤ tip, hashAt h = hashAt k → h = k

/-- The distances of the entries from the tip. -/
def offset (i : Nat) : Nat := thinned 11 i

/-- The hashes of the first entries. -/
def entries (hashAt : Nat → Option Hash32) (tip n : Nat) : List Hash32 :=
  (List.range n).flatMap fun i ↦ (hashAt (tip - offset i)).toList

theorem length_entries (hk : Known hashAt tip genesis) (n : Nat) :
    (entries hashAt tip n).length = n := by
  unfold entries
  induction n with
  | zero => rfl
  | succ n ih =>
    obtain ⟨x, hx⟩ := hk.known (tip - offset n) (Nat.sub_le _ _)
    rw [List.range_succ, List.flatMap_append, List.length_append, ih, List.flatMap_singleton, hx]
    rfl

theorem entries_succ (n : Nat) :
    entries hashAt tip (n + 1) = entries hashAt tip n ++ (hashAt (tip - offset n)).toList := by
  rw [entries, List.range_succ, List.flatMap_append, List.flatMap_singleton]
  rfl

theorem locatorLoop_congr {h h' : Int} {step step' : Nat} {out : List Hash32} (hh : h = h')
    (hs : step = step') (hpos : 0 < step) (hpos' : 0 < step') :
    locatorLoop hashAt h step hpos out = locatorLoop hashAt h' step' hpos' out := by
  subst hh hs
  rfl

/-- From each entry on the loop takes those that are left, one step after the other. -/
theorem locatorLoop_eq (hk : Known hashAt tip genesis) (hn : n ≤ locatorMax)
    (hon : ∀ i < n, offset i ≤ tip) (hoff : n = locatorMax ∨ tip < offset n) {i : Nat} (hi : i ≤ n)
    (hstep : 0 < 2 ^ (i - 11)) :
    locatorLoop hashAt ((tip : Int) - offset i) (2 ^ (i - 11)) hstep (entries hashAt tip i) =
      entries hashAt tip n := by
  induction hi using Nat.decreasingInduction with
  | self =>
    rw [locatorLoop, if_neg]
    rintro ⟨hpos, hlt⟩
    rw [length_entries hk] at hlt
    rcases hoff with rfl | hoff
    · exact lt_irrefl _ hlt
    · omega
  | of_succ i hi ih =>
    have hheight : ((tip : Int) - offset i).toNat = tip - offset i := by
      have := hon i hi
      omega
    have hnext : offset (i + 1) = offset i + 2 ^ (i + 1 - 11) := rfl
    have hbound : 2 ^ (i + 1 - 11) ≤ i64Max := by
      refine (Nat.pow_le_pow_right two_pos ?_).trans (by decide : 2 ^ 53 ≤ i64Max)
      unfold locatorMax at hn
      omega
    rw [locatorLoop, if_pos ⟨by have := hon i hi; omega, by rw [length_entries hk]; omega⟩]
    dsimp only
    rw [hheight, ← entries_succ, length_entries hk]
    split
    case isTrue hdense =>
      have hstep : min (2 ^ (i - 11) * 2) i64Max = 2 ^ (i + 1 - 11) := by
        rw [← pow_succ, ← Nat.sub_add_comm (by omega)]
        exact Nat.min_eq_left hbound
      refine (locatorLoop_congr ?_ hstep _ _).trans (ih (Nat.two_pow_pos _))
      rw [hstep, hnext]
      omega
    case isFalse hdense =>
      have hstep : 2 ^ (i - 11) = 2 ^ (i + 1 - 11) := congrArg _ (by omega)
      refine (locatorLoop_congr ?_ hstep _ _).trans (ih (Nat.two_pow_pos _))
      rw [hstep, hnext]
      omega

/-- The heights of the first entries. -/
def heights (tip n : Nat) : List Nat := (List.range n).map fun i ↦ tip - offset i

theorem map_entries (hk : Known hashAt tip genesis) (n : Nat) :
    (entries hashAt tip n).map some = (heights tip n).map hashAt := by
  induction n with
  | zero => rfl
  | succ n ih =>
    obtain ⟨x, hx⟩ := hk.known (tip - offset n) (Nat.sub_le _ _)
    rw [entries_succ, List.map_append, ih, heights, heights, List.range_succ, List.map_append,
      List.map_append, List.map_singleton, List.map_singleton, hx]
    rfl

theorem pairwise_heights (hon : ∀ i < n, offset i ≤ tip) :
    (heights tip n).Pairwise (· > ·) := by
  refine List.pairwise_map.mpr (List.pairwise_lt_range.imp_of_mem fun {i j} _ hj hij ↦ ?_)
  have hlt : offset i < offset j := strictMono_thinned 11 hij
  have := hon j (List.mem_range.mp hj)
  omega

/-- The last entry of the loop. -/
theorem getLast?_entries (hk : Known hashAt tip genesis) (n : Nat) :
    (entries hashAt tip (n + 1)).getLast? = hashAt (tip - offset n) := by
  obtain ⟨x, hx⟩ := hk.known (tip - offset n) (Nat.sub_le _ _)
  rw [entries_succ, hx]
  exact List.getLast?_concat ..

/-- The loop as a whole: it takes what entries there are, up to the most there may be. -/
theorem exists_entries (hk : Known hashAt tip genesis) (htip : tip ≤ i64Max) :
    ∃ n < locatorMax, (∀ i ≤ n, offset i ≤ tip) ∧ (n + 1 = locatorMax ∨ tip < offset (n + 1)) ∧
      locator hashAt tip genesis =
        if tip = offset n then entries hashAt tip (n + 1)
        else entries hashAt tip (n + 1) ++ [genesis] := by
  obtain ⟨n, hn, hon, hoff⟩ := exists_count 11 locatorMax tip
  have hloop := locatorLoop_eq hk hn hon hoff (Nat.zero_le n) one_pos
  cases n with
  | zero =>
    rcases hoff with hoff | hoff
    · cases hoff
    · exact absurd hoff (Nat.not_lt_zero _)
  | succ n =>
    refine ⟨n, hn, fun i hi ↦ hon i (Nat.lt_succ_of_le hi), hoff, ?_⟩
    have hstart : locatorLoop hashAt (asI64 tip) 1 one_pos [] = entries hashAt tip (n + 1) := by
      rw [← hloop]
      refine locatorLoop_congr ?_ rfl _ _
      rw [asI64, if_pos htip]
      exact (sub_zero _).symm
    have hlast : (entries hashAt tip (n + 1)).getLast? = some genesis ↔ tip = offset n := by
      rw [getLast?_entries hk, ← hk.genesis]
      have hle : offset n ≤ tip := hon n (Nat.lt_succ_self n)
      constructor
      · intro heq
        have := hk.distinct _ (Nat.sub_le _ _) 0 (Nat.zero_le _) heq
        omega
      · rintro rfl
        rw [Nat.sub_self]
    unfold locator
    dsimp only
    rw [hstart]
    exact if_congr hlast rfl rfl

/-- The heights that a locator is made of. -/
structure Spaced (hashAt : Nat → Option Hash32) (tip : Nat) (loc : List Hash32) (hs : List Nat) :
    Prop where
  hashes : loc.map some = hs.map hashAt
  le_tip : ∀ h ∈ hs, h ≤ tip
  descending : hs.Pairwise (· > ·)
  length_le : hs.length ≤ locatorMax
  last : hs.getLast? = some 0
  pins : ∀ f ≤ tip, ∃ k ∈ hs, k ≤ f ∧ f - k ≤ tip - f

/-- The tips of which the last entry is genesis, or there is room for it. -/
def deepestTip : Nat := offset (locatorMax - 1)

theorem deepestTip_eq : deepestTip = 2 ^ 53 + 9 := by decide

/-- The locator of a tip that is not too high. -/
theorem exists_spaced (hk : Known hashAt tip genesis) (htip : tip ≤ deepestTip) :
    ∃ hs, Spaced hashAt tip (locator hashAt tip genesis) hs := by
  obtain ⟨n, hn, hon, hoff, heq⟩ := exists_entries hk (htip.trans (by decide))
  have hbeyond : tip < offset (n + 1) := by
    rcases hoff with hmax | hoff
    · refine htip.trans_lt (strictMono_thinned 11 ?_)
      omega
    · exact hoff
  have hpins : ∀ f ≤ tip, ∃ k, (k = 0 ∨ k ∈ heights tip (n + 1)) ∧ k ≤ f ∧ f - k ≤ tip - f := by
    intro f hf
    obtain ⟨k, hk | ⟨j, hj, -, rfl⟩, hkf, hdist⟩ := exists_pin (d := 11) hbeyond hf
    · exact ⟨k, .inl hk, hkf, hdist⟩
    · exact ⟨_, .inr (List.mem_map_of_mem (List.mem_range.mpr hj)), hkf, hdist⟩
  have hpairwise := pairwise_heights (n := n + 1) fun i hi ↦ hon i (Nat.le_of_lt_succ hi)
  have hconcat : heights tip (n + 1) = heights tip n ++ [tip - offset n] := by
    rw [heights, List.range_succ, List.map_append]
    rfl
  have hlen : (heights tip (n + 1)).length = n + 1 := by
    rw [heights, List.length_map, List.length_range]
  have hle : ∀ h ∈ heights tip (n + 1), h ≤ tip := by
    intro h hh
    obtain ⟨i, -, rfl⟩ := List.mem_map.mp hh
    exact Nat.sub_le _ _
  rw [heq]
  split
  case isTrue hlast =>
    have hzero : (heights tip (n + 1)).getLast? = some 0 := by
      rw [hconcat, List.getLast?_concat, hlast, Nat.sub_self]
    refine ⟨heights tip (n + 1), map_entries hk _, hle, hpairwise, hlen.le.trans hn, hzero, ?_⟩
    intro f hf
    obtain ⟨k, rfl | hk, hkf, hdist⟩ := hpins f hf
    · exact ⟨0, List.mem_of_getLast? hzero, hkf, hdist⟩
    · exact ⟨k, hk, hkf, hdist⟩
  case isFalse hlast =>
    refine ⟨heights tip (n + 1) ++ [0], ?_, ?_, ?_, ?_, List.getLast?_concat .., ?_⟩
    · rw [List.map_append, List.map_append, map_entries hk, List.map_singleton, List.map_singleton,
        hk.genesis]
    · refine List.forall_mem_append.mpr ⟨hle, fun k hk ↦ ?_⟩
      rw [List.mem_singleton.mp hk]
      exact Nat.zero_le _
    · refine List.pairwise_append.mpr ⟨hpairwise, List.pairwise_singleton _ _, ?_⟩
      intro h hh k hk
      obtain rfl := List.mem_singleton.mp hk
      obtain ⟨i, hi, rfl⟩ := List.mem_map.mp hh
      have hle : offset i ≤ offset n :=
        (strictMono_thinned 11).monotone (Nat.le_of_lt_succ (List.mem_range.mp hi))
      have := hon n le_rfl
      omega
    · rw [List.length_append, hlen]
      have hne : n ≠ locatorMax - 1 := by
        rintro rfl
        exact hlast (le_antisymm htip (hon _ le_rfl))
      exact Nat.succ_le_of_lt (by omega)
    · intro f hf
      obtain ⟨k, hk, hkf, hdist⟩ := hpins f hf
      refine ⟨k, List.mem_append.mpr (hk.symm.imp_right fun h ↦ ?_), hkf, hdist⟩
      exact List.mem_singleton.mpr h

/-- The locator of a tip that is too high has an entry too many, or none but genesis. -/
theorem not_spaced (hk : Known hashAt tip genesis) (hu64 : tip ≤ u64Max) (htip : deepestTip < tip)
    (hs : List Nat) : ¬Spaced hashAt tip (locator hashAt tip genesis) hs := by
  intro h
  have hlen : (locator hashAt tip genesis).length = hs.length := by
    simpa only [List.length_map] using congrArg List.length h.hashes
  rcases Nat.lt_or_ge i64Max tip with hwraps | hfits
  · have hloop : locatorLoop hashAt (asI64 tip) 1 one_pos [] = [] := by
      rw [locatorLoop, if_neg]
      rintro ⟨hpos, -⟩
      rw [asI64, if_neg (not_le.mpr hwraps)] at hpos
      unfold u64Max at hu64
      omega
    have hnone : locator hashAt tip genesis = [genesis] := by
      unfold locator
      rw [hloop]
      rfl
    rw [hnone] at hlen
    obtain ⟨k, rfl⟩ := List.length_eq_one_iff.mp hlen.symm
    obtain rfl : k = 0 := Option.some.inj h.last
    obtain ⟨j, hj, -, hdist⟩ := h.pins tip le_rfl
    rw [List.mem_singleton.mp hj] at hdist
    omega
  · obtain ⟨n, hn, hon, hoff, heq⟩ := exists_entries hk hfits
    have hmax : n = locatorMax - 1 := by
      rcases hoff with hmax | hoff
      · omega
      · have hlt : offset (locatorMax - 1) < offset (n + 1) := htip.trans hoff
        have := (strictMono_thinned 11).lt_iff_lt.mp hlt
        omega
    subst hmax
    have hne : tip ≠ offset (locatorMax - 1) := htip.ne'
    rw [heq, if_neg hne, List.length_append, length_entries hk, List.length_singleton] at hlen
    exact absurd h.length_le (by rw [← hlen]; decide)

/-! ## What a store presents -/

section

variable [Crypto] {s : NodeStore} {chain : List RawHeader} {f h k start max : Nat} {x : Hash32}

/-- The hash table of a ring has its entries, and nothing else. -/
structure Unsealed.Indexed (r : Unsealed) : Prop where
  sound : ∀ x i, r.byHash.lookup x = some i → ∃ e, r.entries[i]? = some e ∧ e.hash = x
  complete : ∀ e ∈ r.entries, ∃ i, r.byHash.lookup e.hash = some i

omit [Crypto] in
theorem Unsealed.atHeight_eq_some {r : Unsealed} {e : Entry} (he : r.atHeight h = some e) :
    e ∈ r.entries ∧ e.height = h := by
  refine ⟨List.mem_reverse.mp (List.mem_of_find?_eq_some he), ?_⟩
  simpa using List.find?_some he

/-- The canonical headers of a store whose files are not damaged: those below the watermark are in
the files and in the hash index, those from there on in the ring, which may hold some of the others
too. -/
structure NodeStore.Presents (s : NodeStore) (chain : List RawHeader) : Prop where
  damage : s.reader.damage = []
  watermark : s.reader.info.hdrWatermark ≤ chain.length
  files : ∀ h < s.reader.info.hdrWatermark, s.reader.disk.readHeader h = chain[h]?
  index : ∀ h < s.reader.info.hdrWatermark, ∀ hdr, chain[h]? = some hdr →
    Storage.headerByHash s.reader.disk s.reader.prefixBytes s.reader.tables s.reader.info
      s.reader.damage (headerHash hdr) = .ok (some (h, hdr))
  entries : ∀ e ∈ s.ring.entries, chain[e.height]? = some e.header ∧ e.hash = headerHash e.header
  indexed : s.ring.Indexed
  covers : ∀ h < chain.length, s.reader.info.hdrWatermark ≤ h → ∃ e ∈ s.ring.entries, e.height = h

namespace NodeStore.Presents

theorem atHeight (hp : s.Presents chain) {e : Entry} (he : s.ring.atHeight h = some e) :
    chain[h]? = some e.header ∧ e.hash = headerHash e.header := by
  obtain ⟨hmem, rfl⟩ := Unsealed.atHeight_eq_some he
  exact hp.entries e hmem

/-- What is not in the ring is below the watermark, or not on the chain. -/
theorem not_in_ring (hp : s.Presents chain) (hnone : s.ring.atHeight h = none) :
    h < s.reader.info.hdrWatermark ∨ chain.length ≤ h := by
  by_contra hin
  obtain ⟨hge, hlt⟩ := not_or.mp hin
  obtain ⟨e, he, hh⟩ := hp.covers h (not_le.mp hlt) (not_lt.mp hge)
  have hfound := List.find?_eq_none.mp hnone e (List.mem_reverse.mpr he)
  exact hfound (decide_eq_true hh)

theorem headerAt_eq (hp : s.Presents chain) (hlow : h < s.reader.info.hdrWatermark) :
    Storage.headerAt s.reader.disk s.reader.info s.reader.damage h = .ok chain[h]? := by
  have hlt := hlow.trans_le hp.watermark
  have hread := hp.files h hlow
  rw [List.getElem?_eq_getElem hlt] at hread ⊢
  have hfile : s.reader.disk.hdr.lookup (segOf h) ≠ none :=
    Disk.lookup_ne_none (c := fun _ ↦ chain[h]) hread
  unfold Storage.headerAt damageAt
  rw [hp.damage]
  dsimp only [List.find?_nil]
  rw [if_neg (not_le.mpr hlow), if_neg hfile, hread]

/-- The hashes that are looked up by height. -/
theorem hashAt_eq (hp : s.Presents chain) (h : Nat) : s.hashAt h = chain[h]?.map headerHash := by
  unfold NodeStore.hashAt
  cases he : s.ring.atHeight h with
  | some e =>
    obtain ⟨hheader, hhash⟩ := hp.atHeight he
    rw [hheader, Option.map_some, ← hhash]
  | none =>
    rcases Nat.lt_or_ge h s.reader.info.hdrWatermark with hlow | hhigh
    · rw [hp.headerAt_eq hlow]
    · have hend := (hp.not_in_ring he).resolve_left (not_lt.mpr hhigh)
      rw [Storage.headerAt, if_pos hhigh, List.getElem?_eq_none hend]

/-- A canonical hash is looked up where a header with that hash is. -/
theorem exists_headerByHash (hp : s.Presents chain) {hdr : RawHeader} (hh : chain[h]? = some hdr) :
    ∃ k hdr', s.headerByHash (headerHash hdr) = some (k, hdr') ∧ chain[k]? = some hdr' ∧
      headerHash hdr' = headerHash hdr := by
  unfold NodeStore.headerByHash NodeStore.headerRawByHash
  cases hi : s.ring.byHash.lookup (headerHash hdr) with
  | some i =>
    obtain ⟨e, he, hhash⟩ := hp.indexed.sound _ i hi
    obtain ⟨hheader, heq⟩ := hp.entries e (List.mem_of_getElem? he)
    refine ⟨e.height, e.header, ?_, hheader, heq.symm.trans hhash⟩
    dsimp only
    rw [he]
    rfl
  | none =>
    rcases Nat.lt_or_ge h s.reader.info.hdrWatermark with hlow | hhigh
    · refine ⟨h, hdr, ?_, hh, rfl⟩
      dsimp only
      rw [hp.index h hlow hdr hh]
    · obtain ⟨hlt, -⟩ := List.getElem?_eq_some_iff.mp hh
      obtain ⟨e, he, rfl⟩ := hp.covers h hlt hhigh
      obtain ⟨hheader, hhash⟩ := hp.entries e he
      obtain ⟨i, hsome⟩ := hp.indexed.complete e he
      cases hh.symm.trans hheader
      rw [← hhash, hsome] at hi
      cases hi

/-- The ring has headers of the chain, and all of them from the watermark on. -/
theorem ringRange_eq (hp : s.Presents chain) (n next : Nat) :
    ∃ m ≤ n, NodeStore.ringRange s.ring n next = (chain.drop next).take m ∧
      (s.reader.info.hdrWatermark ≤ next → m = n) := by
  induction n generalizing next with
  | zero => exact ⟨0, le_rfl, rfl, fun _ ↦ rfl⟩
  | succ n ih =>
    unfold NodeStore.ringRange
    cases he : s.ring.atHeight next with
    | some e =>
      obtain ⟨hlt, hheader⟩ := List.getElem?_eq_some_iff.mp (hp.atHeight he).1
      obtain ⟨m, hm, heq, hall⟩ := ih (next + 1)
      refine ⟨m + 1, Nat.succ_le_succ hm, ?_, fun hwm ↦ congrArg (· + 1) (hall (Nat.le_succ_of_le hwm))⟩
      dsimp only
      rw [heq, List.drop_eq_getElem_cons hlt, List.take_succ_cons, hheader]
    | none =>
      rcases hp.not_in_ring he with hlow | hend
      · exact ⟨0, Nat.zero_le _, rfl, fun hwm ↦ absurd hlow (not_lt.mpr hwm)⟩
      · refine ⟨n + 1, le_rfl, ?_, fun _ ↦ rfl⟩
        rw [List.drop_eq_nil_of_le hend, List.take_nil]

/-- What the reader has of a range. -/
theorem sealedRange_eq (hp : s.Presents chain) (start max : Nat) :
    s.sealedRange start max = (chain.drop start).take
      (min (min max maxHeadersPerMsg) (s.reader.info.hdrWatermark - start)) := by
  have hread : ∀ h < s.reader.info.hdrWatermark,
      s.reader.disk.readHeader h = some (chain[h]?.getD (.zero 132)) := by
    intro h hlow
    rw [hp.files h hlow, List.getElem?_eq_getElem (hlow.trans_le hp.watermark)]
    rfl
  have hrange := @headersRange_eq _ _ _ start _ hread (min_le_right max maxHeadersPerMsg)
  have hslice : ∀ n ≤ s.reader.info.hdrWatermark - start,
      (List.range' start n).map (fun h ↦ chain[h]?.getD (.zero 132)) = (chain.drop start).take n := by
    intro n hn
    have hwm := hp.watermark
    refine List.ext_getElem ?_ fun i hi hi' ↦ ?_
    · rw [List.length_map, List.length_range', List.length_take, List.length_drop]
      omega
    · rw [List.length_take, List.length_drop] at hi'
      rw [List.getElem_map, List.getElem_range', List.getElem_take, List.getElem_drop, Nat.one_mul,
        List.getElem?_eq_getElem (by omega)]
      rfl
  unfold NodeStore.sealedRange
  rw [hp.damage, hrange]
  dsimp only
  have hmap := map_ofSlice ((List.range' start (min (min max maxHeadersPerMsg)
    (s.reader.info.hdrWatermark - start))).map fun h ↦ chain[h]?.getD (.zero 132))
  rw [List.length_map, List.length_range'] at hmap
  rw [hmap, hslice _ (min_le_right _ _)]

/-- The merged range is a piece of the chain, as long as a message may be unless the chain ends. -/
theorem headersRange_eq (hp : s.Presents chain) (start max : Nat) :
    ∃ n, s.headersRange start max = (chain.drop start).take n ∧ min max maxHeadersPerMsg ≤ n := by
  unfold NodeStore.headersRange
  dsimp only
  rw [hp.sealedRange_eq]
  generalize hd : min (min max maxHeadersPerMsg) (s.reader.info.hdrWatermark - start) = d
  have hlen : ((chain.drop start).take d).length = d := by
    have hwm := hp.watermark
    rw [List.length_take, List.length_drop]
    omega
  rw [hlen]
  obtain ⟨m, -, heq, hall⟩ := hp.ringRange_eq (max - d) (start + d)
  refine ⟨d + m, ?_, ?_⟩
  · rw [heq, List.take_add, List.drop_drop]
  · rcases Nat.lt_or_ge (start + d) s.reader.info.hdrWatermark with hlow | hhigh
    · omega
    · rw [hall hhigh]
      omega

end NodeStore.Presents

/-! ## What a peer answers -/

/-- A peer's chain and ours have the blocks up to a height in common, and no others. -/
structure SharesUpTo (hashAt : Nat → Option Hash32) (tip : Nat) (chain : List RawHeader) (f : Nat) :
    Prop where
  shared : ∀ h ≤ f, chain[h]?.map headerHash = hashAt h
  apart : ∀ h ≤ tip, ∀ k x, hashAt h = some x → chain[k]?.map headerHash = some x → k = h ∧ h ≤ f

/-- An entry of a locator counts when it is shared. -/
theorem startAfter_eq (hp : s.Presents chain) (hs : SharesUpTo hashAt tip chain f) (hh : h ≤ tip)
    (hx : hashAt h = some x) : s.startAfter x = if h ≤ f then some (h + 1) else none := by
  unfold NodeStore.startAfter
  by_cases hle : h ≤ f
  · rw [if_pos hle]
    have hshared := (hs.shared h hle).trans hx
    obtain ⟨hdr, hhdr, rfl⟩ := Option.map_eq_some_iff.mp hshared
    obtain ⟨k, hdr', hfound, hk, hsame⟩ := hp.exists_headerByHash hhdr
    obtain ⟨rfl, -⟩ := hs.apart h hh k _ hx (by rw [hk, Option.map_some, hsame])
    rw [hfound]
    dsimp only
    rw [hp.hashAt_eq, if_pos hshared]
  · rw [if_neg hle]
    split
    case h_1 k hdr hfound =>
      refine if_neg fun hk ↦ ?_
      rw [hp.hashAt_eq] at hk
      exact hle (hs.apart h hh k x hx hk).2
    case h_2 => rfl

/-- A locator pins the fork: its heights are spaced, and of a peer it brings the headers that follow
the highest of them that is shared. -/
def PinsFork (hashAt : Nat → Option Hash32) (tip : Nat) (loc : List Hash32) : Prop :=
  ∃ hs, Spaced hashAt tip loc hs ∧
    ∀ f ≤ tip, ∃ k ∈ hs, k ≤ f ∧ f - k ≤ tip - f ∧ (∀ j ∈ hs, j ≤ f → j ≤ k) ∧
      ∀ (s : NodeStore) (chain : List RawHeader) (max : Nat), s.Presents chain →
        SharesUpTo hashAt tip chain f →
          s.headersFrom loc max <+: chain.drop (k + 1) ∧
            (maxHeadersPerMsg ≤ max → tip - f < maxHeadersPerMsg - 1 →
              ∀ hdr, chain[f + 1]? = some hdr → hdr ∈ s.headersFrom loc max)

/-- The first entry that is shared is the highest. -/
theorem findSome?_startAfter {loc : List Hash32} {hs : List Nat} (hhashes : loc.map some = hs.map hashAt)
    (hle : ∀ h ∈ hs, h ≤ tip) (hp : s.Presents chain) (hshares : SharesUpTo hashAt tip chain f) :
    loc.findSome? s.startAfter = (hs.find? (· ≤ f)).map (· + 1) := by
  induction hs generalizing loc with
  | nil =>
    obtain rfl := List.map_eq_nil_iff.mp hhashes
    rfl
  | cons h hs ih =>
    cases loc with
    | nil => cases hhashes
    | cons x loc =>
      obtain ⟨hx, hhashes⟩ := List.cons.inj hhashes
      obtain ⟨hh, hle⟩ := List.forall_mem_cons.mp hle
      rw [List.findSome?_cons, startAfter_eq hp hshares hh hx.symm, List.find?_cons]
      by_cases hf : h ≤ f
      · rw [if_pos hf, decide_eq_true hf]
        rfl
      · rw [if_neg hf, decide_eq_false hf]
        exact ih hhashes hle

/-- The locator pins the fork exactly up to the tip whose sixty-fourth entry is genesis. -/
theorem locator_pins (hk : Known hashAt tip genesis) (hu64 : tip ≤ u64Max) :
    PinsFork hashAt tip (locator hashAt tip genesis) ↔ tip ≤ 2 ^ 53 + 9 := by
  rw [← deepestTip_eq]
  constructor
  · rintro ⟨hs, hspaced, -⟩
    exact not_lt.mp fun hlt ↦ not_spaced hk hu64 hlt hs hspaced
  · intro htip
    obtain ⟨hs, hspaced⟩ := exists_spaced hk htip
    refine ⟨hs, hspaced, fun f hf ↦ ?_⟩
    obtain ⟨k₀, hk₀, hk₀f, hdist₀⟩ := hspaced.pins f hf
    obtain ⟨k, hfind⟩ : ∃ k, hs.find? (· ≤ f) = some k :=
      Option.isSome_iff_exists.mp (List.find?_isSome.mpr ⟨k₀, hk₀, decide_eq_true hk₀f⟩)
    obtain ⟨hkf, as, bs, rfl, habove⟩ := List.find?_eq_some_iff_append.mp hfind
    have hkf : k ≤ f := of_decide_eq_true hkf
    have hmax : ∀ j ∈ as ++ k :: bs, j ≤ f → j ≤ k := by
      intro j hj hjf
      rcases List.mem_append.mp hj with hj | hj
      · exact absurd (decide_eq_true hjf) (by simpa using habove j hj)
      · obtain ⟨-, hdesc, -⟩ := List.pairwise_append.mp hspaced.descending
        rcases List.mem_cons.mp hj with rfl | hj
        · exact le_rfl
        · exact ((List.pairwise_cons.mp hdesc).1 j hj).le
    have hdist : f - k ≤ tip - f := by
      have := hmax k₀ hk₀ hk₀f
      omega
    refine ⟨k, List.mem_append_right _ List.mem_cons_self, hkf, hdist, hmax, ?_⟩
    intro s chain max hp hshares
    have hstart := findSome?_startAfter hspaced.hashes hspaced.le_tip hp hshares
    obtain ⟨n, hrange, hn⟩ := hp.headersRange_eq (k + 1) max
    have hanswer : s.headersFrom (locator hashAt tip genesis) max = (chain.drop (k + 1)).take n := by
      rw [NodeStore.headersFrom, hstart, hfind]
      exact hrange
    rw [hanswer]
    refine ⟨List.take_prefix _ _, fun hmany hshallow hdr hhdr ↦ ?_⟩
    have hin : ((chain.drop (k + 1)).take n)[f - k]? = some hdr := by
      rw [List.getElem?_take_of_lt (by omega), List.getElem?_drop,
        show k + 1 + (f - k) = f + 1 by omega, hhdr]
    exact List.mem_of_getElem? hin

/-! ## The ring keeps its table -/

namespace Unsealed.Indexed

variable {r : Unsealed}

omit [Crypto] in
theorem empty : Unsealed.empty.Indexed where
  sound x i hi := by
    rw [Unsealed.empty, AList.lookup_empty] at hi
    cases hi
  complete e he := absurd he List.not_mem_nil

omit [Crypto] in
theorem push (hr : r.Indexed) (e : Entry) : (r.push e).Indexed where
  sound x i hi := by
    unfold Unsealed.push at hi ⊢
    dsimp only at hi ⊢
    rcases eq_or_ne x e.hash with rfl | hne
    · rw [AList.lookup_insert] at hi
      cases hi
      exact ⟨e, List.getElem?_concat_length, rfl⟩
    · rw [AList.lookup_insert_ne hne] at hi
      obtain ⟨e', he', hhash⟩ := hr.sound x i hi
      exact ⟨e', List.getElem?_append_left (List.getElem?_eq_some_iff.mp he').1 ▸ he', hhash⟩
  complete e' he' := by
    unfold Unsealed.push
    dsimp only
    rcases eq_or_ne e'.hash e.hash with heq | hne
    · exact ⟨r.entries.length, by rw [heq, AList.lookup_insert]⟩
    · rw [AList.lookup_insert_ne hne]
      rcases List.mem_append.mp he' with he' | he'
      · exact hr.complete e' he'
      · exact absurd (congrArg Entry.hash (List.mem_singleton.mp he')) hne

omit [Crypto] in
theorem reindex (es : List Entry) : (Unsealed.reindex es).Indexed := by
  induction es using List.reverseRecOn with
  | nil => exact empty
  | append_singleton es e ih =>
    have hpush : Unsealed.reindex (es ++ [e]) = (Unsealed.reindex es).push e := by
      unfold Unsealed.reindex Unsealed.push
      rw [List.zipIdx_append, List.foldl_append, List.map_append, List.sum_append, Nat.zero_add]
      rfl
    rw [hpush]
    exact ih.push e

omit [Crypto] in
theorem prune (hr : r.Indexed) (watermark : Nat) : (r.prune watermark).Indexed := by
  unfold Unsealed.prune
  split
  case isTrue => exact hr
  case isFalse => exact reindex _

end Unsealed.Indexed

end

/-! ## Samples -/

namespace LocatorSample

/-- Hashing by taking the first bytes. -/
@[reducible] def crypto : Crypto where
  blake3 b := .ofSlice 32 0 b
  validKey _ := false
  verifyStrict _ _ _ := false

/-- A header that begins with a number. -/
def header (n : Nat) : RawHeader :=
  ⟨(Arr.ofNat 32 n).bytes ++ List.replicate 100 0, by
    rw [List.length_append, (Arr.ofNat 32 n).length_eq, List.length_replicate]⟩

theorem ofNat_inj {a b : Nat} (ha : a ≤ u64Max) (hb : b ≤ u64Max)
    (heq : Arr.ofNat 32 a = Arr.ofNat 32 b) : a = b := by
  have hbytes := congrArg (fun x : Hash32 ↦ ofLe x.bytes.reverse) heq
  dsimp only [Arr.ofNat] at hbytes
  unfold u64Max at ha hb
  rwa [List.reverse_reverse, List.reverse_reverse, ofLe_leBytes_of_lt (by omega),
    ofLe_leBytes_of_lt (by omega)] at hbytes

/-- The hashes of a chain that counts up. -/
def counted (h : Nat) : Option Hash32 := some (.ofNat 32 h)

theorem known_counted {tip : Nat} (htip : tip ≤ u64Max) : Known counted tip (.ofNat 32 0) where
  known _ _ := ⟨_, rfl⟩
  genesis := rfl
  distinct _ hh _ hk heq := ofNat_inj (hh.trans htip) (hk.trans htip) (Option.some.inj heq)

/-- A block that is not sealed. -/
def entry (height n : Nat) : Entry := ⟨height, .ofNat 32 n, header n, [], [], [], 0⟩

/-- A peer with a branch of its own from height 2 on, none of it sealed. -/
def peer : NodeStore where
  reader := ⟨.empty, .empty, .fresh 0 0, [], 8, ∅⟩
  ring := ((Unsealed.empty.push (entry 0 0)).push (entry 1 1)).push (entry 2 9)

theorem headerHash_header (n : Nat) : letI := crypto; headerHash (header n) = .ofNat 32 n := by
  let _ := crypto
  refine Arr.ext ?_
  show ((header n).bytes.drop 0 ++ List.replicate 32 0).take 32 = _
  rw [List.drop_zero, List.take_append_of_le_length (by rw [(header n).length_eq]; decide)]
  exact List.take_left' (Arr.ofNat 32 n).length_eq

theorem presents_peer : letI := crypto; peer.Presents [header 0, header 1, header 9] := by
  let _ := crypto
  refine ⟨rfl, Nat.zero_le _, ?_, ?_, ?_, ((Unsealed.Indexed.empty.push _).push _).push _, ?_⟩
  · exact fun h hh ↦ absurd hh (Nat.not_lt_zero _)
  · exact fun h hh ↦ absurd hh (Nat.not_lt_zero _)
  · intro e he
    obtain rfl | rfl | rfl : e = entry 0 0 ∨ e = entry 1 1 ∨ e = entry 2 9 := by
      simpa [peer, Unsealed.push, Unsealed.empty] using he
    · exact ⟨rfl, (headerHash_header 0).symm⟩
    · exact ⟨rfl, (headerHash_header 1).symm⟩
    · exact ⟨rfl, (headerHash_header 9).symm⟩
  · intro h hlt _
    obtain rfl | rfl | rfl : h = 0 ∨ h = 1 ∨ h = 2 := by
      have hlt : h < 3 := hlt
      omega
    · exact ⟨entry 0 0, by simp [peer, Unsealed.push], rfl⟩
    · exact ⟨entry 1 1, by simp [peer, Unsealed.push], rfl⟩
    · exact ⟨entry 2 9, by simp [peer, Unsealed.push], rfl⟩

end LocatorSample

open LocatorSample

/-- At a tip that is too high the locator has sixty-five entries. -/
theorem locator_overflows :
    letI := crypto
    ¬∀ (hashAt : Nat → Option Hash32) (tip : Nat) (genesis : Hash32), Known hashAt tip genesis →
      tip ≤ u64Max → PinsFork hashAt tip (locator hashAt tip genesis) := by
  let _ := crypto
  intro hclaim
  have hu64 : 2 ^ 53 + 10 ≤ u64Max := by decide
  obtain ⟨hs, hspaced, -⟩ := hclaim counted (2 ^ 53 + 10) _ (known_counted hu64) hu64
  exact not_spaced (known_counted hu64) hu64 (by decide) hs hspaced

/-- The law at a tip of 5, where a peer that shares the heights up to 1 answers with its header at
height 2. -/
theorem locator_pins_sample :
    letI := crypto
    (PinsFork counted 5 (locator counted 5 (.ofNat 32 0)) ↔ 5 ≤ 2 ^ 53 + 9) ∧
      header 9 ∈ peer.headersFrom (locator counted 5 (.ofNat 32 0)) maxHeadersPerMsg := by
  let _ := crypto
  have hu64 : 5 ≤ u64Max := by decide
  have hpins := locator_pins (known_counted hu64) hu64
  refine ⟨hpins, ?_⟩
  obtain ⟨hs, -, hforks⟩ := hpins.mpr (by decide)
  obtain ⟨k, -, -, -, -, hanswers⟩ := hforks 1 (by decide)
  have hshares : SharesUpTo counted 5 [header 0, header 1, header 9] 1 := by
    constructor
    · intro h hh
      obtain rfl | rfl : h = 0 ∨ h = 1 := by omega
      · exact congrArg some (headerHash_header 0)
      · exact congrArg some (headerHash_header 1)
    · intro h hh k x hx hk
      have hother {n : Nat} (hn : n ≤ u64Max) (heq : Option.map headerHash (some (header n)) = some x) :
          n = h := by
        rw [Option.map_some, headerHash_header, ← hx] at heq
        exact ofNat_inj hn (hh.trans hu64) (Option.some.inj heq)
      rcases k with _ | _ | _ | k
      · have heq := hother (by decide) hk
        exact ⟨heq, heq ▸ Nat.zero_le _⟩
      · have heq := hother (by decide) hk
        exact ⟨heq, heq.ge⟩
      · have heq := hother (by decide) hk
        omega
      · cases hk
  exact (hanswers peer _ maxHeadersPerMsg presents_peer hshares).2 le_rfl (by decide) _ rfl

end Plaine.Node
