import Mathlib.Order.Defs.Unbundled
import Mathlib.Tactic.TypeStar

/-!
# Programs that may be cut short

A program runs on a state `σ`, writes to a disk `δ` and may fail with an error `ε`.  Besides
its result it leaves a trail, the disk after each of its writes: cut short at any moment, it
leaves the disk it started from or one of the trail.

`wp` is the weakest precondition for a condition on the trail, one on the result and one on an
error; its rules carry a program out step by step.  `Within` says of a program that it never
leaves a preorder on the states, whatever comes of it and wherever it is cut short; its rules
follow the shape of the program.
-/

namespace Plaine.Lib

/-- What a run of a program leaves. -/
structure Outcome (σ δ ε α : Type) where
  trail : List δ
  state : σ
  result : Except ε α

/-- A program. -/
def Prog (σ δ ε α : Type) : Type := σ → Outcome σ δ ε α

variable {σ δ ε α β ι : Type}

namespace Prog

instance : Monad (Prog σ δ ε) where
  pure a := fun s ↦ ⟨[], s, .ok a⟩
  bind p f := fun s ↦
    match p s with
    | ⟨trail, s, .ok a⟩ => { f a s with trail := trail ++ (f a s).trail }
    | ⟨trail, s, .error e⟩ => ⟨trail, s, .error e⟩

/-- The state. -/
def peek : Prog σ δ ε σ := fun s ↦ ⟨[], s, .ok s⟩

/-- A change of the state that writes nothing. -/
def alter (f : σ → σ) : Prog σ δ ε Unit := fun s ↦ ⟨[], f s, .ok ()⟩

/-- A write: a change of the state, with the disk it leaves. -/
def write (disk : σ → δ) (f : σ → σ) : Prog σ δ ε Unit := fun s ↦ ⟨[disk (f s)], f s, .ok ()⟩

/-- A failure. -/
def fail (e : ε) : Prog σ δ ε α := fun s ↦ ⟨[], s, .error e⟩

/-- A check. -/
def require (p : Prop) [Decidable p] (e : ε) : Prog σ δ ε Unit := if p then pure () else fail e

/-- A computation without a state. -/
def lift (x : Except ε α) : Prog σ δ ε α := fun s ↦ ⟨[], s, x⟩

/-- A change of the state when a program fails. -/
def onError (p : Prog σ δ ε α) (f : ε → σ → σ) : Prog σ δ ε α := fun s ↦
  match p s with
  | ⟨trail, s, .ok a⟩ => ⟨trail, s, .ok a⟩
  | ⟨trail, s, .error e⟩ => ⟨trail, f e s, .error e⟩

/-- A loop over a list. -/
def forEach (f : ι → Prog σ δ ε Unit) : List ι → Prog σ δ ε Unit
  | [] => pure ()
  | a :: l => do
    f a
    forEach f l

/-! ## Weakest preconditions -/

/-- The trail of `p` meets `C`, its result `Q` and its error `E`. -/
def wp (p : Prog σ δ ε α) (C : δ → Prop) (Q : α → σ → Prop) (E : ε → σ → Prop) (s : σ) : Prop :=
  (∀ d ∈ (p s).trail, C d) ∧
    match (p s).result with
    | .ok a => Q a (p s).state
    | .error e => E e (p s).state

variable {C C' : δ → Prop} {Q Q' : α → σ → Prop} {R : β → σ → Prop} {E E' : ε → σ → Prop} {s : σ}
  {p : Prog σ δ ε α}

@[simp] theorem wp_pure {a : α} : (pure a : Prog σ δ ε α).wp C Q E s ↔ Q a s :=
  ⟨fun h ↦ h.2, fun h ↦ ⟨fun _ hd ↦ absurd hd List.not_mem_nil, h⟩⟩

@[simp] theorem wp_bind {f : α → Prog σ δ ε β} :
    (p >>= f).wp C R E s ↔ p.wp C (fun a ↦ (f a).wp C R E) E s := by
  unfold wp
  change (∀ d ∈ (match p s with
    | ⟨trail, s, .ok a⟩ => { f a s with trail := trail ++ (f a s).trail }
    | ⟨trail, s, .error e⟩ => ⟨trail, s, .error e⟩ : Outcome σ δ ε β).trail, C d) ∧ _ ↔ _
  rcases hp : p s with ⟨trail, s', e | a⟩
  · simp only [Bind.bind, hp]
  · simp only [Bind.bind, hp, List.mem_append, or_imp, forall_and, and_assoc]

@[simp] theorem wp_peek {Q : σ → σ → Prop} : (peek : Prog σ δ ε σ).wp C Q E s ↔ Q s s :=
  ⟨fun h ↦ h.2, fun h ↦ ⟨fun _ hd ↦ absurd hd List.not_mem_nil, h⟩⟩

@[simp] theorem wp_alter {f : σ → σ} {Q : Unit → σ → Prop} :
    (alter f : Prog σ δ ε Unit).wp C Q E s ↔ Q () (f s) :=
  ⟨fun h ↦ h.2, fun h ↦ ⟨fun _ hd ↦ absurd hd List.not_mem_nil, h⟩⟩

@[simp] theorem wp_write {disk : σ → δ} {f : σ → σ} {Q : Unit → σ → Prop} :
    (write disk f : Prog σ δ ε Unit).wp C Q E s ↔ C (disk (f s)) ∧ Q () (f s) :=
  ⟨fun h ↦ ⟨h.1 _ (List.mem_singleton_self _), h.2⟩,
    fun h ↦ ⟨fun _ hd ↦ List.mem_singleton.mp hd ▸ h.1, h.2⟩⟩

@[simp] theorem wp_fail {e : ε} : (fail e : Prog σ δ ε α).wp C Q E s ↔ E e s :=
  ⟨fun h ↦ h.2, fun h ↦ ⟨fun _ hd ↦ absurd hd List.not_mem_nil, h⟩⟩

@[simp] theorem wp_require {P : Prop} [Decidable P] {e : ε} {Q : Unit → σ → Prop} :
    (require P e : Prog σ δ ε Unit).wp C Q E s ↔ (P → Q () s) ∧ (¬P → E e s) := by
  unfold require
  split
  · simp [*]
  · simp [*]

@[simp] theorem wp_lift {x : Except ε α} :
    (lift x : Prog σ δ ε α).wp C Q E s ↔ (∀ a, x = .ok a → Q a s) ∧ ∀ e, x = .error e → E e s := by
  cases x with
  | ok a => simp [wp, lift]
  | error e => simp [wp, lift]

@[simp] theorem wp_onError {f : ε → σ → σ} :
    (p.onError f).wp C Q E s ↔ p.wp C Q (fun e s ↦ E e (f e s)) s := by
  unfold wp onError
  rcases p s with ⟨trail, s', e | a⟩
  · exact Iff.rfl
  · exact Iff.rfl

/-- Weakening of all three conditions. -/
theorem wp.imp (h : p.wp C Q E s) (hC : ∀ d, C d → C' d) (hQ : ∀ a s, Q a s → Q' a s)
    (hE : ∀ e s, E e s → E' e s) : p.wp C' Q' E' s := by
  refine ⟨fun d hd ↦ hC d (h.1 d hd), ?_⟩
  have h := h.2
  split at h
  · exact hQ _ _ h
  · exact hE _ _ h

/-- A program goes on from where the first part of it ended well. -/
theorem bind_of_ok {f : α → Prog σ δ ε β} {a : α} (h : (p s).result = .ok a) :
    ((p >>= f) s).state = (f a (p s).state).state ∧
      ((p >>= f) s).result = (f a (p s).state).result := by
  rcases hp : p s with ⟨trail, s', e | b⟩
  · rw [hp] at h
    cases h
  · rw [hp] at h
    cases h
    simp only [Bind.bind, hp, and_self]

/-- A program ends where the first part of it fails. -/
theorem bind_of_error {f : α → Prog σ δ ε β} {e : ε} (h : (p s).result = .error e) :
    ((p >>= f) s).state = (p s).state ∧ ((p >>= f) s).result = .error e := by
  rcases hp : p s with ⟨trail, s', e' | b⟩
  · rw [hp] at h
    cases h
    simp only [Bind.bind, hp, and_self]
  · rw [hp] at h
    cases h

/-- Two sets of conditions hold together. -/
theorem wp.and (h : p.wp C Q E s) (h' : p.wp C' Q' E' s) :
    p.wp (fun d ↦ C d ∧ C' d) (fun a s ↦ Q a s ∧ Q' a s) (fun e s ↦ E e s ∧ E' e s) s := by
  refine ⟨fun d hd ↦ ⟨h.1 d hd, h'.1 d hd⟩, ?_⟩
  have hr := h.2
  have hr' := h'.2
  cases hres : (p s).result with
  | ok a =>
    rw [hres] at hr hr'
    exact ⟨hr, hr'⟩
  | error e =>
    rw [hres] at hr hr'
    exact ⟨hr, hr'⟩

/-- A run ends where it ends, with what it ends with. -/
theorem wp_self : p.wp (fun _ ↦ True) (fun a s' ↦ (p s).result = .ok a ∧ s' = (p s).state)
    (fun e s' ↦ (p s).result = .error e ∧ s' = (p s).state) s := by
  refine ⟨fun _ _ ↦ trivial, ?_⟩
  cases hres : (p s).result with
  | ok a => exact ⟨rfl, rfl⟩
  | error e => exact ⟨rfl, rfl⟩

/-- A run that meets its conditions ends well or fails as it may. -/
theorem wp.cases (h : p.wp C Q E s) :
    (∃ a, (p s).result = .ok a ∧ Q a (p s).state) ∨
      ∃ e, (p s).result = .error e ∧ E e (p s).state := by
  have h := h.2
  split at h
  case h_1 a ha => exact .inl ⟨a, ha, h⟩
  case h_2 e he => exact .inr ⟨e, he, h⟩

/-- What holds of each step of a loop in turn holds of its end: `I` is told what is done and
what is left. -/
theorem wp_forEach {f : ι → Prog σ δ ε Unit} {I : List ι → List ι → σ → Prop} {done l : List ι}
    {Q : Unit → σ → Prop} (h : I done l s) (hend : ∀ s, I (done ++ l) [] s → Q () s)
    (hstep : ∀ done a l s, I done (a :: l) s →
      (f a).wp C (fun _ ↦ I (done ++ [a]) l) E s) : (forEach f l).wp C Q E s := by
  induction l generalizing done s with
  | nil => exact wp_pure.mpr (hend s (by rwa [List.append_nil]))
  | cons a l ih =>
    unfold forEach
    rw [wp_bind]
    refine (hstep done a l s h).imp (fun _ ↦ id) (fun _ s hs ↦ ?_) fun _ _ ↦ id
    refine ih hs (fun s hs ↦ hend s ?_)
    rwa [List.append_assoc, List.singleton_append] at hs

@[simp] theorem wp_ite {c : Prop} [Decidable c] {q : Prog σ δ ε α} :
    (if c then p else q).wp C Q E s ↔ (c → p.wp C Q E s) ∧ (¬c → q.wp C Q E s) := by
  split
  · simp [*]
  · simp [*]

/-! ## Programs within a preorder -/

/-- Every state a program passes through is related to the one it started from, and where it
fails it meets `F`. -/
def Within (disk : σ → δ) (R : σ → σ → Prop) (F : ε → σ → Prop) (p : Prog σ δ ε α) : Prop :=
  ∀ s, p.wp (fun d ↦ ∃ s', R s s' ∧ disk s' = d) (fun _ ↦ R s) (fun e s' ↦ R s s' ∧ F e s') s

namespace Within

variable {disk : σ → δ} {R : σ → σ → Prop} {F : ε → σ → Prop} [IsPreorder σ R]

theorem pure (a : α) : Within disk R F (Pure.pure a : Prog σ δ ε α) := fun s ↦
  wp_pure.mpr (refl_of R s)

theorem peek : Within disk R F (Prog.peek : Prog σ δ ε σ) := fun s ↦ wp_peek.mpr (refl_of R s)

omit [IsPreorder σ R] in
theorem alter {f : σ → σ} (h : ∀ s, R s (f s)) :
    Within disk R F (Prog.alter f : Prog σ δ ε Unit) := fun s ↦ wp_alter.mpr (h s)

omit [IsPreorder σ R] in
theorem write {f : σ → σ} (h : ∀ s, R s (f s)) :
    Within disk R F (Prog.write disk f : Prog σ δ ε Unit) := fun s ↦
  wp_write.mpr ⟨⟨_, h s, rfl⟩, h s⟩

theorem require {P : Prop} [Decidable P] {e : ε} (h : ¬P → ∀ s, F e s) :
    Within disk R F (Prog.require P e : Prog σ δ ε Unit) := fun s ↦
  wp_require.mpr ⟨fun _ ↦ refl_of R s, fun hP ↦ ⟨refl_of R s, h hP s⟩⟩

theorem lift {x : Except ε α} (h : ∀ e, x = .error e → ∀ s, F e s) :
    Within disk R F (Prog.lift x : Prog σ δ ε α) := fun s ↦
  wp_lift.mpr ⟨fun _ _ ↦ refl_of R s, fun e he ↦ ⟨refl_of R s, h e he s⟩⟩

/-- From a related state on, a program stays related to where the whole began. -/
theorem wp_of_rel (h : Within disk R F p) {s₀ s : σ} (hs : R s₀ s) :
    p.wp (fun d ↦ ∃ s', R s₀ s' ∧ disk s' = d) (fun _ ↦ R s₀) (fun e s' ↦ R s₀ s' ∧ F e s') s :=
  (h s).imp (fun _ hd ↦ hd.imp fun _ h ↦ h.imp_left (trans_of R hs)) (fun _ _ hR ↦ trans_of R hs hR)
    fun _ _ hE ↦ ⟨trans_of R hs hE.1, hE.2⟩

theorem bind {f : α → Prog σ δ ε β} (hp : Within disk R F p) (hf : ∀ a, Within disk R F (f a)) :
    Within disk R F (p >>= f) := fun s ↦
  wp_bind.mpr ((hp s).imp (fun _ ↦ id) (fun a _ hR ↦ (hf a).wp_of_rel hR) fun _ _ ↦ id)

omit [IsPreorder σ R] in
theorem ite {c : Prop} [Decidable c] {q : Prog σ δ ε α} (hp : Within disk R F p)
    (hq : Within disk R F q) : Within disk R F (if c then p else q) := by
  split
  · exact hp
  · exact hq

theorem forEach_mem {f : ι → Prog σ δ ε Unit} {l : List ι} (h : ∀ a ∈ l, Within disk R F (f a)) :
    Within disk R F (Prog.forEach f l) := by
  induction l with
  | nil => exact pure ()
  | cons a l ih =>
    exact bind (h a List.mem_cons_self) fun _ ↦ ih fun b hb ↦ h b (List.mem_cons_of_mem _ hb)

theorem forEach {f : ι → Prog σ δ ε Unit} (h : ∀ a, Within disk R F (f a)) (l : List ι) :
    Within disk R F (Prog.forEach f l) := forEach_mem fun a _ ↦ h a

end Within

end Prog

end Plaine.Lib
