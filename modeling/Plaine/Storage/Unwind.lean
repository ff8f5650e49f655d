import Plaine.Storage.Shows

/-!
# Rolling back

An undo row of a block that fit holds the rows the block found.  Rolling the block back leads
from the chain with it to the chain without it, and a loop down to a fork leads to the chain
up to the fork, or fails at a height without a row or with one that is too long to be read.
-/

namespace Plaine.Storage

open Plaine.Lib Plaine.Consensus

section

variable [Crypto] {t t' : Tables} {m m' : Meta} {bs l : List BlockToCommit} {b : BlockToCommit}

/-! ## One block -/

/-- An undo record changes one row, and the fingerprint with it. -/
theorem restoreRow_eq (r : UndoRec) : ∃ state fp,
    restoreRow t m r = ({ t with state }, { m with fingerprint := fp }) ∧
      rowsOf state = Function.update (rowsOf t.state) r.addr r.row ∧
      (m.fingerprint = stateDigest t.state → fp = stateDigest state) := by
  have hstep : ∀ state : AList fun _ : Address ↦ Account,
      rowsOf state = Function.update (rowsOf t.state) r.addr r.row →
      m.fingerprint = stateDigest t.state →
      stateDigest state = (m.fingerprint.xor (rowDigest? r.addr (rowsOf t.state r.addr))).xor
        (rowDigest? r.addr r.row) := by
    intro state hstate hfp
    rw [stateDigest_change hstate, hfp]
  -- The row that is there is digested out, whatever the record says of it.
  have hout : fpWithout t.state r.addr m.fingerprint =
      m.fingerprint.xor (rowDigest? r.addr (rowsOf t.state r.addr)) := by
    unfold fpWithout rowsOf
    cases t.state.lookup r.addr with
    | some cur => rfl
    | none => exact (Arr.xor_zero _).symm
  unfold restoreRow
  dsimp only
  rw [hout]
  split
  case isTrue hex =>
    have hrow : r.row = some r.prev := if_pos hex
    have hlook : rowsOf (t.state.insert r.addr r.prev) =
        Function.update (rowsOf t.state) r.addr r.row := by
      rw [hrow, rowsOf_insert]
    refine ⟨_, _, rfl, hlook, fun hfp ↦ ?_⟩
    rw [hstep _ hlook hfp, hrow]
    rfl
  case isFalse hex =>
    have hrow : r.row = none := if_neg hex
    have hlook : rowsOf (t.state.erase r.addr) =
        Function.update (rowsOf t.state) r.addr r.row := by
      rw [hrow, rowsOf_erase]
    refine ⟨_, _, rfl, hlook, fun hfp ↦ ?_⟩
    rw [hstep _ hlook hfp, hrow]
    exact (Arr.xor_zero _).symm

/-- The records of an undo row write its journal back. -/
theorem foldl_restoreRow (recs : List UndoRec) : ∃ state fp,
    recs.foldl (fun x r ↦ restoreRow x.1 x.2 r) (t, m) =
        ({ t with state }, { m with fingerprint := fp }) ∧
      rowsOf state = overwrite (recs.map fun r ↦ (r.addr, r.row)) (rowsOf t.state) ∧
      (m.fingerprint = stateDigest t.state → fp = stateDigest state) := by
  induction recs generalizing t m with
  | nil => exact ⟨t.state, m.fingerprint, rfl, rfl, id⟩
  | cons r recs ih =>
    obtain ⟨state, fp, heq, hrows, hfp⟩ := restoreRow_eq (t := t) (m := m) r
    obtain ⟨state', fp', heq', hrows', hfp'⟩ := ih (t := { t with state })
      (m := { m with fingerprint := fp })
    refine ⟨state', fp', ?_, ?_, fun hm ↦ hfp' (hfp hm)⟩
    · rw [List.foldl_cons, heq, heq']
    · rw [hrows', List.map_cons, overwrite_cons, ← hrows]

/-- What a rollback that goes through has found and done. -/
theorem rollbackHeight_eq_ok {h : Nat} : rollbackHeight t m h = .ok (t', m') ↔
    ∃ blob recs issuedDelta, t.undo.lookup h = some blob ∧
      decodeUndo blob = some (recs, issuedDelta) ∧ issuedDelta.toNat ≤ m.issued ∧
      ∃ state fp chainworkCkpt,
        recs.foldl (fun x r ↦ restoreRow x.1 x.2 r)
          (t, { m with issued := m.issued - issuedDelta.toNat }) =
            ({ t with state },
              { m with issued := m.issued - issuedDelta.toNat, fingerprint := fp }) ∧
        chainworkCkpt = (if h % 2 ^ chainworkCkptShift = 0 then t.chainworkCkpt.erase h
          else t.chainworkCkpt) ∧
        t' = { t with state, undo := t.undo.erase h, chainworkCkpt } ∧
        m' = { m with issued := m.issued - issuedDelta.toNat, fingerprint := fp } := by
  unfold rollbackHeight
  simp only [Except.bind_eq_ok, Except.ofOption_eq_ok]
  constructor
  · rintro ⟨blob, hblob, ⟨recs, delta⟩, hdec, issued, hissued, heq⟩
    rw [checkedSub_eq_some] at hissued
    obtain ⟨hle, rfl⟩ := hissued
    obtain ⟨state, fp, hfold, -, -⟩ := foldl_restoreRow (t := t)
      (m := { m with issued := m.issued - delta.toNat }) recs
    dsimp only at heq
    rw [hfold] at heq
    refine ⟨blob, recs, delta, hblob, hdec, hle, state, fp, _, hfold, rfl, ?_⟩
    cases heq
    split
    · exact ⟨rfl, rfl⟩
    · exact ⟨rfl, rfl⟩
  · rintro ⟨blob, recs, delta, hblob, hdec, hle, state, fp, chainworkCkpt, hfold, rfl, rfl, rfl⟩
    refine ⟨blob, hblob, (recs, delta), hdec, _, checkedSub_eq_some.mpr ⟨hle, rfl⟩, ?_⟩
    dsimp only
    rw [hfold]
    split
    · rfl
    · rfl

/-- Rolling back the last block of a chain shown leads to the chain below it. -/
theorem Shows.rollback (h : Shows t m (bs ++ [b])) (hb : b.Fits (stateOf bs))
    (hheight : b.height = bs.length)
    (heq : rollbackHeight t m bs.length = .ok (t', m')) : Shows t' m' bs := by
  obtain ⟨blob, recs, delta, hblob, hdec, hle, state, fp, cw, hfold, -, rfl, rfl⟩ :=
    rollbackHeight_eq_ok.mp heq
  obtain ⟨c, hc, rfl⟩ := h.undo _ _ hblob
  obtain rfl : b = c := by
    rw [List.getElem?_concat_length] at hc
    exact Option.some.inj hc
  -- The row is the block's own, so that its records are the block's.
  rw [decodeUndo_encodeUndo] at hdec
  split at hdec
  case isFalse => cases hdec
  cases hdec
  obtain ⟨state', fp', hfold', hrows, hfp⟩ := foldl_restoreRow (t := t)
    (m := { m with issued := m.issued - b.issuedDelta.toNat }) b.undo
  rw [hfold] at hfold'
  obtain ⟨rfl, rfl⟩ : state = state' ∧ fp = fp' := by
    simpa using hfold'
  refine ⟨?_, hfp h.fingerprint, ?_, ?_⟩
  · rw [hrows, h.rows, stateOf_concat]
    exact hb.saves.overwrite
  · have hissued := h.issued
    rw [List.length_append, List.length_singleton, Nat.add_sub_cancel] at hissued
    show m.issued - b.issuedDelta.toNat = _
    rw [hissued, hb.issued, hheight]
    cases bs with
    | nil => rfl
    | cons c bs => exact Nat.sub_eq_of_eq_add (issuedThrough_succ bs.length)
  · intro k blob hk
    rcases eq_or_ne k bs.length with rfl | hne
    · rw [AList.lookup_erase] at hk
      cases hk
    · rw [AList.lookup_erase_ne hne] at hk
      obtain ⟨c, hc, rfl⟩ := h.undo k blob hk
      refine ⟨c, ?_, rfl⟩
      rwa [List.getElem?_append_left] at hc
      have := (List.getElem?_eq_some_iff.mp hc).1
      rw [List.length_append, List.length_singleton] at this
      omega

/-- A block whose row is there and can be read is rolled back. -/
theorem Shows.exists_rollback (h : Shows t m (bs ++ [b])) (hb : b.Fits (stateOf bs))
    (hheight : b.height = bs.length) (hrow : (t.undo.lookup bs.length).isSome)
    (hrecs : b.undo.length ≤ maxUndoRecs) :
    ∃ t' m', rollbackHeight t m bs.length = .ok (t', m') := by
  obtain ⟨blob, hblob⟩ := Option.isSome_iff_exists.mp hrow
  obtain ⟨c, hc, rfl⟩ := h.undo _ _ hblob
  obtain rfl : b = c := by
    rw [List.getElem?_concat_length] at hc
    exact Option.some.inj hc
  have hdec : decodeUndo (encodeUndo b.undo b.issuedDelta) = some (b.undo, b.issuedDelta) := by
    rw [decodeUndo_encodeUndo, if_pos hrecs]
  have hle : b.issuedDelta.toNat ≤ m.issued := by
    rw [h.issued, hb.issued, hheight, List.length_append, List.length_singleton, Nat.add_sub_cancel]
    cases bs with
    | nil => exact Nat.zero_le _
    | cons c bs => exact (issuedThrough_succ bs.length).symm ▸ Nat.le_add_left _ _
  obtain ⟨state, fp, hfold, -, -⟩ := foldl_restoreRow (t := t)
    (m := { m with issued := m.issued - b.issuedDelta.toNat }) b.undo
  exact ⟨_, _, rollbackHeight_eq_ok.mpr
    ⟨_, b.undo, b.issuedDelta, hblob, hdec, hle, state, fp, _, hfold, rfl, rfl, rfl⟩⟩

/-! ## A loop of them -/

/-- The heights from a tip down to just above a fork. -/
def heightsDown (low n : Nat) : List Nat := (List.range' low n).reverse

omit [Crypto] in
@[simp] theorem heightsDown_zero (low : Nat) : heightsDown low 0 = [] := rfl

omit [Crypto] in
theorem heightsDown_succ (low n : Nat) : heightsDown low (n + 1) = (low + n) :: heightsDown low n := by
  rw [heightsDown, List.range'_1_concat, List.reverse_append]
  rfl

theorem rollbackHeights_cons_eq_ok {h : Nat} {hs : List Nat} :
    rollbackHeights (h :: hs) t m = (.ok t', m') ↔ ∃ t₁ m₁,
      rollbackHeight t m h = .ok (t₁, m₁) ∧ rollbackHeights hs t₁ m₁ = (.ok t', m') := by
  rw [rollbackHeights]
  cases heq : rollbackHeight t m h with
  | error e =>
    constructor
    · rintro ⟨⟩
    · rintro ⟨_, _, ⟨⟩, -⟩
  | ok x =>
    constructor
    · exact fun h ↦ ⟨x.1, x.2, rfl, h⟩
    · rintro ⟨_, _, ⟨⟩, h⟩
      exact h

/-- What a loop of rollbacks leaves alone. -/
structure Unwound (hs : List Nat) (t t' : Tables) (m m' : Meta) : Prop where
  stateCkpt : t'.stateCkpt = t.stateCkpt
  txindex : t'.txindex = t.txindex
  hashIndex : t'.hashIndex = t.hashIndex
  hashIndexFull : t'.hashIndexFull = t.hashIndexFull
  undo : ∀ k ∉ hs, t'.undo.lookup k = t.undo.lookup k
  info : m' = { m with issued := m'.issued, fingerprint := m'.fingerprint }

theorem rollbackHeights_unwound {hs : List Nat}
    (h : rollbackHeights hs t m = (.ok t', m')) : Unwound hs t t' m m' := by
  induction hs generalizing t m with
  | nil =>
    cases h
    exact ⟨rfl, rfl, rfl, rfl, fun _ _ ↦ rfl, rfl⟩
  | cons k hs ih =>
    obtain ⟨t₁, m₁, hone, hrest⟩ := rollbackHeights_cons_eq_ok.mp h
    obtain ⟨_, _, _, -, -, -, _, _, _, -, -, rfl, rfl⟩ := rollbackHeight_eq_ok.mp hone
    have hframe := ih hrest
    refine ⟨hframe.stateCkpt, hframe.txindex, hframe.hashIndex, hframe.hashIndexFull,
      fun j hj ↦ ?_, ?_⟩
    · rw [List.mem_cons, not_or] at hj
      rw [hframe.undo j hj.2]
      exact AList.lookup_erase_ne hj.1
    · rw [hframe.info]

/-- Rolling a chain shown back to a fork leads to the chain up to the fork. -/
theorem Shows.rollbackHeights (hchain : IsChain (bs ++ l)) (h : Shows t m (bs ++ l))
    (heq : rollbackHeights (heightsDown bs.length l.length) t m = (.ok t', m')) :
    Shows t' m' bs := by
  induction l using List.reverseRecOn generalizing t m with
  | nil =>
    rw [List.append_nil] at h
    cases heq
    exact h
  | append_singleton l b ih =>
    rw [← List.append_assoc] at h hchain
    obtain ⟨hbelow, hheight, hb⟩ := IsChain.concat_iff.mp hchain
    rw [List.length_append, List.length_singleton, heightsDown_succ,
      rollbackHeights_cons_eq_ok, ← List.length_append] at heq
    obtain ⟨t₁, m₁, hone, hrest⟩ := heq
    exact ih hbelow (h.rollback hb hheight hone) hrest

/-- The loop goes through where every height has its row and no row is too long. -/
theorem Shows.exists_rollbackHeights (hchain : IsChain (bs ++ l)) (h : Shows t m (bs ++ l))
    (hrow : ∀ k, bs.length ≤ k → k < bs.length + l.length → (t.undo.lookup k).isSome)
    (hrecs : ∀ b ∈ l, b.undo.length ≤ maxUndoRecs) :
    ∃ t' m', Storage.rollbackHeights (heightsDown bs.length l.length) t m = (.ok t', m') := by
  induction l using List.reverseRecOn generalizing t m with
  | nil => exact ⟨t, m, rfl⟩
  | append_singleton l b ih =>
    rw [← List.append_assoc] at h hchain
    obtain ⟨hbelow, hheight, hb⟩ := IsChain.concat_iff.mp hchain
    rw [List.length_append, List.length_singleton] at hrow
    obtain ⟨t₁, m₁, hone⟩ := h.exists_rollback hb hheight
      (hrow _ (by rw [List.length_append]; omega) (by rw [List.length_append]; omega))
      (hrecs b (by simp))
    have hrest := ih hbelow (h.rollback hb hheight hone) (fun k hk₁ hk₂ ↦ ?_)
      fun c hc ↦ hrecs c (List.mem_append_left _ hc)
    · obtain ⟨t', m', hrest⟩ := hrest
      refine ⟨t', m', ?_⟩
      rw [List.length_append, List.length_singleton, heightsDown_succ, ← List.length_append]
      exact rollbackHeights_cons_eq_ok.mpr ⟨t₁, m₁, hone, hrest⟩
    · obtain ⟨_, _, _, -, -, -, _, _, _, -, -, rfl, -⟩ := rollbackHeight_eq_ok.mp hone
      rw [AList.lookup_erase_ne (by rw [List.length_append]; omega)]
      exact hrow k hk₁ (by omega)

end

end Plaine.Storage
