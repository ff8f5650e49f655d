import Plaine.Chain.Header
import Mathlib.Data.Set.Function
import Mathlib.Data.Set.Card

/-!
# Chains of headers

What the arena stands for.  `Headers` are those that occur in a run, no two of them with one
hash; the arena's positions have 32 bits in the source, so a run has room for fewer than
`2 ^ 32` of them.  A `Realm` adds what is checked of a header against its ancestors.  A linked
chain is a list of headers from genesis up, each of which names the one before it, has the
next height and passed the checks.  Its last header determines it.
-/

namespace Plaine.Chain

open Plaine.Lib Plaine.Consensus

variable [Crypto]

/-- The headers of a run. -/
structure Headers where
  raws : Set RawHeader
  inj : Set.InjOn headerHash raws
  small : raws.encard < 2 ^ 32
  genesis : HeaderRec
  genesis_mem : genesis.raw ∈ raws
  genesis_height : genesis.height = 0
  powLimit : Nat

/-- The headers of a run and the check made of each against its ancestors. -/
structure Realm extends Headers where
  checked : List HeaderRec → HeaderRec → Prop

/-- The headers of a run, with nothing checked beyond their links. -/
def Headers.free (H : Headers) : Realm := { H with checked := fun _ _ ↦ True }

namespace Realm

variable (D : Realm)

theorem eq_of_hash {D : Realm} {r r' : HeaderRec} (hr : r.raw ∈ D.raws) (hr' : r'.raw ∈ D.raws)
    (h : r.hash = r'.hash) : r = r' := by
  rw [r.hash_eq, r'.hash_eq] at h
  exact HeaderRec.ext (D.inj hr hr' h)

/-- The work a header claims. -/
def work (r : HeaderRec) : Work := (workOf r.bits D.powLimit).getD 0

/-- The work of a chain. -/
def chainWork (rs : List HeaderRec) : Work := (rs.map D.work).sum

@[simp] theorem chainWork_append (rs rs' : List HeaderRec) :
    D.chainWork (rs ++ rs') = D.chainWork rs + D.chainWork rs' := by
  simp [chainWork]

@[simp] theorem chainWork_singleton (r : HeaderRec) : D.chainWork [r] = D.work r := by
  simp [chainWork]

variable {D}

theorem work_eq {r : HeaderRec} {w : Work} (h : workOf r.bits D.powLimit = some w) :
    D.work r = w := by
  rw [work, h]
  rfl

/-- A header that can follow a chain. -/
structure Follows (D : Realm) (rs : List HeaderRec) (r : HeaderRec) : Prop where
  mem : r.raw ∈ D.raws
  prevHash : rs.getLast?.map HeaderRec.hash = some r.prevHash
  height : r.height = rs.length
  legal : (workOf r.bits D.powLimit).isSome
  checked : D.checked rs r

/-- A chain of headers from genesis up. -/
inductive Linked (D : Realm) : List HeaderRec → Prop
  | genesis : (workOf D.genesis.bits D.powLimit).isSome → Linked D [D.genesis]
  | snoc {rs : List HeaderRec} {r : HeaderRec} :
      Linked D rs → Follows D rs r → Linked D (rs ++ [r])

namespace Linked

variable {rs rs' : List HeaderRec} {r r' : HeaderRec}

theorem length_pos (h : Linked D rs) : 0 < rs.length := by
  cases h <;> simp

theorem ne_nil (h : Linked D rs) : rs ≠ [] := List.ne_nil_of_length_pos h.length_pos

theorem mem_raws (h : Linked D rs) (hr : r ∈ rs) : r.raw ∈ D.raws := by
  induction h with
  | genesis => rw [List.mem_singleton.mp hr]; exact D.genesis_mem
  | snoc _ hf ih =>
    rcases List.mem_append.mp hr with hr | hr
    · exact ih hr
    · rw [List.mem_singleton.mp hr]
      exact hf.mem

/-- A header's height is its place. -/
theorem height_getElem? (h : Linked D rs) {k : Nat} (hk : rs[k]? = some r) : r.height = k := by
  induction h generalizing k with
  | genesis =>
    cases k with
    | zero => cases hk; exact D.genesis_height
    | succ k => cases hk
  | @snoc rs q _ hf ih =>
    rcases Nat.lt_or_ge k rs.length with hlt | hge
    · exact ih (by rwa [List.getElem?_append_left hlt] at hk)
    · have hlen := (List.getElem?_eq_some_iff.mp hk).1
      rw [List.length_append, List.length_singleton] at hlen
      obtain rfl : k = rs.length := by omega
      rw [List.getElem?_concat_length] at hk
      cases hk
      exact hf.height

theorem height_last (h : Linked D rs) (hr : rs.getLast? = some r) : r.height + 1 = rs.length := by
  rw [List.getLast?_eq_getElem?] at hr
  have := h.height_getElem? hr
  have := h.length_pos
  omega

/-- No chain is longer than the realm. -/
theorem length_lt (h : Linked D rs) : rs.length < 2 ^ 32 := by
  have hnodup : (rs.map HeaderRec.raw).Nodup := by
    refine List.Nodup.map_on (fun r hr r' hr' heq ↦ HeaderRec.ext heq)
      (List.nodup_iff_getElem?_ne_getElem?.mpr fun i j hij hj heq ↦ ?_)
    have hj' := List.getElem?_eq_getElem hj
    have := h.height_getElem? hj'
    have := h.height_getElem? (heq.trans hj')
    omega
  have hsub : ((rs.map HeaderRec.raw).toFinset : Set RawHeader) ⊆ D.raws := by
    intro raw hraw
    obtain ⟨r, hr, rfl⟩ := List.mem_map.mp (List.mem_toFinset.mp hraw)
    exact h.mem_raws hr
  have hcard := (Set.encard_le_encard hsub).trans_lt D.small
  rw [Set.encard_coe_eq_coe_finsetCard, List.toFinset_card_of_nodup hnodup,
    List.length_map] at hcard
  exact_mod_cast hcard

theorem legal (h : Linked D rs) (hr : r ∈ rs) : (workOf r.bits D.powLimit).isSome := by
  induction h with
  | genesis hg => rwa [List.mem_singleton.mp hr]
  | snoc _ hf ih =>
    rcases List.mem_append.mp hr with hr | hr
    · exact ih hr
    · rw [List.mem_singleton.mp hr]
      exact hf.legal

/-- What a chain of more than one header ends in. -/
theorem of_snoc (h : Linked D (rs ++ [r])) (hne : rs ≠ []) : Linked D rs ∧ Follows D rs r := by
  generalize ht : rs ++ [r] = t at h
  cases h with
  | genesis =>
    have := congrArg List.length ht
    have := List.length_pos_of_ne_nil hne
    simp only [List.length_append, List.length_singleton] at *
    omega
  | snoc h hf =>
    obtain ⟨rfl, heq⟩ := List.append_inj' ht rfl
    cases heq
    exact ⟨h, hf⟩

theorem of_singleton (h : Linked D [r]) : r = D.genesis := by
  generalize ht : [r] = t at h
  cases h with
  | genesis => simpa using ht
  | @snoc rs q h =>
    have := h.length_pos
    have := congrArg List.length ht
    simp only [List.length_append, List.length_singleton] at this
    omega

/-- The first part of a chain is a chain. -/
theorem take (h : Linked D rs) {k : Nat} (hk : 0 < k) : Linked D (rs.take k) := by
  induction h with
  | genesis hg =>
    rw [List.take_of_length_le (by rw [List.length_singleton]; omega)]
    exact .genesis hg
  | @snoc rs r h hf ih =>
    by_cases hle : k ≤ rs.length
    · rwa [List.take_append_of_le_length hle]
    · rw [List.take_of_length_le (by rw [List.length_append, List.length_singleton]; omega)]
      exact .snoc h hf

/-- A chain starts at genesis. -/
theorem getElem?_zero (h : Linked D rs) : rs[0]? = some D.genesis := by
  have hone := h.take Nat.one_pos
  have hget := List.getElem?_eq_getElem h.length_pos
  rw [List.take_one, List.head?_eq_getElem?, hget] at hone
  rw [hget, hone.of_singleton]

/-- A chain is determined by the hash of its last header. -/
theorem unique (h : Linked D rs) (h' : Linked D rs')
    (heq : rs.getLast?.map HeaderRec.hash = rs'.getLast?.map HeaderRec.hash) : rs = rs' := by
  have hlast : rs.getLast? = rs'.getLast? := by
    obtain ⟨r, hr⟩ := Option.isSome_iff_exists.mp (List.getLast?_isSome.mpr h.ne_nil)
    obtain ⟨r', hr'⟩ := Option.isSome_iff_exists.mp (List.getLast?_isSome.mpr h'.ne_nil)
    rw [hr, hr'] at heq ⊢
    rw [eq_of_hash (h.mem_raws (List.mem_of_getLast? hr)) (h'.mem_raws (List.mem_of_getLast? hr'))
      (Option.some.inj heq)]
  clear heq
  induction h generalizing rs' with
  | genesis =>
    have hlast' : rs'.getLast? = some D.genesis := hlast.symm
    have hlen := h'.height_last hlast'
    rw [D.genesis_height] at hlen
    obtain ⟨r, rfl⟩ := List.length_eq_one_iff.mp hlen.symm
    rw [h'.of_singleton]
  | @snoc rs r h hf ih =>
    rw [List.getLast?_concat] at hlast
    have hlen := h'.height_last hlast.symm
    have hpos := h.length_pos
    have hheight := hf.height
    obtain ⟨init, r', rfl⟩ := (List.eq_nil_or_concat rs').resolve_left h'.ne_nil
    rw [List.concat_eq_append] at h' hlast hlen ⊢
    rw [List.getLast?_concat] at hlast
    cases hlast
    rw [List.length_append, List.length_singleton] at hlen
    have hne : init ≠ [] := List.ne_nil_of_length_pos (by omega)
    obtain ⟨hinit, hf'⟩ := h'.of_snoc hne
    have hprev := hf.prevHash.trans hf'.prevHash.symm
    obtain ⟨p, hp⟩ := Option.isSome_iff_exists.mp (List.getLast?_isSome.mpr h.ne_nil)
    obtain ⟨p', hp'⟩ := Option.isSome_iff_exists.mp (List.getLast?_isSome.mpr hne)
    rw [hp, hp'] at hprev
    have hpp := eq_of_hash (h.mem_raws (List.mem_of_getLast? hp))
      (hinit.mem_raws (List.mem_of_getLast? hp')) (Option.some.inj hprev)
    rw [ih hinit (by rw [hp, hp', hpp])]

end Linked

end Realm

end Plaine.Chain
