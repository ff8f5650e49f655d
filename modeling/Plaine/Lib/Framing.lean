import Plaine.Lib.Result
import Mathlib.Data.List.Infix

/-!
# Framing

A stream is cut into frames by a partial parser `next`, which takes a frame off the front of what has
arrived, asks for more, or finds an error.  It is stable if more input does not change its mind.
`Drains` takes frames off until the parser stops, and what it takes off a stream that arrives in
pieces is what it takes off the whole.
-/

namespace Plaine.Lib.Framing

variable {α φ ε : Type} {next : List α → Except ε (Option (φ × List α))}
variable {b rest t : List α} {f : φ} {fs gs : List φ} {o : Option ε} {e : ε}

/-- More input does not change what was found, and a frame is not empty. -/
structure Stable (next : List α → Except ε (Option (φ × List α))) : Prop where
  cut {b rest : List α} {f : φ} : next b = .ok (some (f, rest)) → rest.length < b.length
  frame {b rest : List α} {f : φ} (t : List α) :
    next b = .ok (some (f, rest)) → next (b ++ t) = .ok (some (f, rest ++ t))
  error {b : List α} {e : ε} (t : List α) : next b = .error e → next (b ++ t) = .error e

/-- The frames taken off `b`, what is left of it, and the error found there. -/
inductive Drains (next : List α → Except ε (Option (φ × List α))) :
    List α → List φ → List α → Option ε → Prop where
  | more {b : List α} : next b = .ok none → Drains next b [] b none
  | error {b : List α} {e : ε} : next b = .error e → Drains next b [] b (some e)
  | frame {b rest rest' : List α} {f : φ} {fs : List φ} {o : Option ε} :
    next b = .ok (some (f, rest)) → Drains next rest fs rest' o → Drains next b (f :: fs) rest' o

namespace Drains

theorem unique {rest' : List α} {o' : Option ε} (h : Drains next b fs rest o)
    (h' : Drains next b gs rest' o') : fs = gs ∧ rest = rest' ∧ o = o' := by
  induction h generalizing gs rest' o' with
  | more hn =>
    cases h' with
    | more => exact ⟨rfl, rfl, rfl⟩
    | error hn' => cases hn.symm.trans hn'
    | frame hn' => cases hn.symm.trans hn'
  | error hn =>
    cases h' with
    | more hn' => cases hn.symm.trans hn'
    | error hn' =>
      cases hn.symm.trans hn'
      exact ⟨rfl, rfl, rfl⟩
    | frame hn' => cases hn.symm.trans hn'
  | frame hn _ ih =>
    cases h' with
    | more hn' => cases hn.symm.trans hn'
    | error hn' => cases hn.symm.trans hn'
    | frame hn' h' =>
      cases hn.symm.trans hn'
      obtain ⟨rfl, rfl, rfl⟩ := ih h'
      exact ⟨rfl, rfl, rfl⟩

/-- Every buffer is drained. -/
theorem exists_of_stable (hs : Stable next) (b : List α) : ∃ fs rest o, Drains next b fs rest o := by
  induction hlen : b.length using Nat.strong_induction_on generalizing b with
  | _ n ih =>
    subst hlen
    cases hb : next b with
    | error e => exact ⟨[], b, some e, .error hb⟩
    | ok r =>
      rcases r with _ | ⟨f, rest⟩
      · exact ⟨[], b, none, .more hb⟩
      · obtain ⟨fs, rest', o, h⟩ := ih _ (hs.cut hb) rest rfl
        exact ⟨f :: fs, rest', o, .frame hb h⟩

/-- What is left after draining is drained. -/
theorem drained (h : Drains next b fs rest none) : Drains next rest [] rest none := by
  generalize ho : (none : Option ε) = o at h
  induction h with
  | more hn => exact .more hn
  | error => cases ho
  | frame _ _ ih => exact ih ho

/-- The parser stopped at what is left. -/
theorem next_rest (h : Drains next b fs rest none) : next rest = .ok none := by
  cases h.drained with
  | more h => exact h

theorem next_error (h : Drains next b fs rest (some e)) : next rest = .error e := by
  generalize ho : some e = o at h
  induction h with
  | more => cases ho
  | error hn =>
    cases ho
    exact hn
  | frame _ _ ih => exact ih ho

/-- More input is drained from what was left. -/
theorem append {rest' : List α} (hs : Stable next) (h : Drains next b fs rest none)
    (h' : Drains next (rest ++ t) gs rest' o) : Drains next (b ++ t) (fs ++ gs) rest' o := by
  generalize ho : (none : Option ε) = o₀ at h
  induction h with
  | more => exact h'
  | error => cases ho
  | frame hn _ ih => exact .frame (hs.frame t hn) (ih h' ho)

/-- After an error more input changes nothing. -/
theorem append_error (hs : Stable next) (h : Drains next b fs rest (some e)) :
    Drains next (b ++ t) fs (rest ++ t) (some e) := by
  generalize ho : some e = o at h
  induction h with
  | more => cases ho
  | error hn =>
    cases ho
    exact .error (hs.error t hn)
  | frame hn _ ih => exact .frame (hs.frame t hn) (ih ho)

end Drains

/-! ## Chunks -/

/-- Chunks drained one after the other, up to the first error: what was left before, the chunks, the
frames and the error.  The frames of the chunk with the error are lost. -/
inductive Feeds (next : List α → Except ε (Option (φ × List α))) :
    List α → List (List α) → List φ → Option ε → Prop where
  | nil {b : List α} : Feeds next b [] [] none
  | cons {b c rest : List α} {cs : List (List α)} {fs gs : List φ} {o : Option ε} :
    Drains next (b ++ c) fs rest none → Feeds next rest cs gs o → Feeds next b (c :: cs) (fs ++ gs) o
  | error {b c rest : List α} {cs : List (List α)} {fs : List φ} {e : ε} :
    Drains next (b ++ c) fs rest (some e) → Feeds next b (c :: cs) [] (some e)

namespace Feeds

variable {cs pre : List (List α)}

theorem unique {o' : Option ε} (h : Feeds next b cs fs o) (h' : Feeds next b cs gs o') :
    fs = gs ∧ o = o' := by
  induction h generalizing gs o' with
  | nil =>
    cases h' with
    | nil => exact ⟨rfl, rfl⟩
  | cons hc _ ih =>
    cases h' with
    | cons hc' h' =>
      obtain ⟨rfl, rfl, -⟩ := hc.unique hc'
      obtain ⟨rfl, rfl⟩ := ih h'
      exact ⟨rfl, rfl⟩
    | error hc' => cases (hc.unique hc').2.2
  | error hc =>
    cases h' with
    | cons hc' => cases (hc.unique hc').2.2
    | error hc' => exact ⟨rfl, (hc.unique hc').2.2⟩

/-- The error is that of the whole stream. -/
theorem error_eq (hs : Stable next) (hb : Drains next b [] b none) (h : Feeds next b cs gs o) :
    ∃ fs rest, Drains next (b ++ cs.flatten) fs rest o := by
  induction h with
  | nil => exact ⟨[], _, by rwa [List.flatten_nil, List.append_nil]⟩
  | cons hc _ ih =>
    obtain ⟨fs, rest, h⟩ := ih hc.drained
    have happ := hc.append hs h
    rw [List.append_assoc, ← List.flatten_cons] at happ
    exact ⟨_, rest, happ⟩
  | @error b c _ cs _ _ hc =>
    have happ := hc.append_error (t := cs.flatten) hs
    rw [List.append_assoc, ← List.flatten_cons] at happ
    exact ⟨_, _, happ⟩

/-- What is delivered had arrived by the end of a chunk, before the error. -/
theorem arrived (hs : Stable next) (hb : Drains next b [] b none) (h : Feeds next b cs gs o) :
    ∃ pre rest, pre <+: cs ∧ Drains next (b ++ pre.flatten) gs rest none := by
  induction h with
  | nil => exact ⟨[], _, List.prefix_rfl, by rwa [List.flatten_nil, List.append_nil]⟩
  | cons hc _ ih =>
    obtain ⟨pre, rest, hpre, h⟩ := ih hc.drained
    refine ⟨_ :: pre, rest, List.cons_prefix_cons.mpr ⟨rfl, hpre⟩, ?_⟩
    rw [List.flatten_cons, ← List.append_assoc]
    exact hc.append hs h
  | error => exact ⟨[], _, List.nil_prefix, by rwa [List.flatten_nil, List.append_nil]⟩

/-- And whatever had arrived is delivered. -/
theorem delivered (hs : Stable next) (hb : Drains next b [] b none) (h : Feeds next b cs gs o)
    (hpre : pre <+: cs) (hd : Drains next (b ++ pre.flatten) fs rest none) : fs <+: gs := by
  induction h generalizing pre fs with
  | nil =>
    obtain rfl := List.prefix_nil.mp hpre
    rw [List.flatten_nil, List.append_nil] at hd
    rw [(hd.unique hb).1]
  | @cons b c mid cs fs₁ gs o hc _ ih =>
    rcases pre with _ | ⟨c', pre⟩
    · rw [List.flatten_nil, List.append_nil] at hd
      rw [(hd.unique hb).1]
      exact List.nil_prefix
    · obtain ⟨rfl, hpre'⟩ := List.cons_prefix_cons.mp hpre
      rw [List.flatten_cons, ← List.append_assoc] at hd
      obtain ⟨fs', rest', o', h'⟩ := Drains.exists_of_stable hs (mid ++ pre.flatten)
      obtain ⟨rfl, rfl, rfl⟩ := hd.unique (hc.append hs h')
      exact (List.prefix_append_right_inj _).mpr (ih hc.drained hpre' h')
  | error hc =>
    rcases pre with _ | ⟨c', pre⟩
    · rw [List.flatten_nil, List.append_nil] at hd
      rw [(hd.unique hb).1]
    · obtain ⟨rfl, -⟩ := List.cons_prefix_cons.mp hpre
      rw [List.flatten_cons, ← List.append_assoc] at hd
      cases (hd.unique (hc.append_error hs)).2.2

end Feeds

end Plaine.Lib.Framing
