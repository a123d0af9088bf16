import Dbvm.Lib.Prog

/-!
# Weakest preconditions

What a program with errors does from one state: `Wp x Q R s` says that `x` comes to a value and a
state with `Q`, or to an error and a state with `R`. The rules go through a program step by step;
`Wp.mono` weakens what follows.
-/

namespace Lib.Prog

variable {ε σ α β : Type} {Q Q' : α → σ → Prop} {R R' : ε → σ → Prop} {s : σ}

/-- From `s` the program comes to `Q`, or with an error to `R`. -/
def Wp (x : EStateM ε σ α) (Q : α → σ → Prop) (R : ε → σ → Prop) (s : σ) : Prop :=
  match x s with
  | .ok a s' => Q a s'
  | .error e s' => R e s'

/-- Of a program that returns only the first condition counts. -/
theorem Wp.of_ok {x : EStateM ε σ α} {a : α} {s' : σ} (h : x s = .ok a s') :
    Wp x Q R s ↔ Q a s' := by rw [Wp, h]

/-- Of a program that fails only the second condition counts. -/
theorem Wp.of_error {x : EStateM ε σ α} {e : ε} {s' : σ} (h : x s = .error e s') :
    Wp x Q R s ↔ R e s' := by rw [Wp, h]

/-- A program meets its conditions when both of its outcomes do. -/
theorem Wp.intro {x : EStateM ε σ α} (hok : ∀ a s', x s = .ok a s' → Q a s')
    (herror : ∀ e s', x s = .error e s' → R e s') : Wp x Q R s := by
  rcases h : x s with ⟨a, s'⟩ | ⟨e, s'⟩
  · exact (Wp.of_ok h).2 (hok a s' h)
  · exact (Wp.of_error h).2 (herror e s' h)

/-- The rule of consequence. -/
theorem Wp.mono {x : EStateM ε σ α} (h : Wp x Q R s) (hQ : ∀ a s', Q a s' → Q' a s')
    (hR : ∀ e s', R e s' → R' e s') :
    Wp x Q' R' s :=
  Wp.intro (fun a s' hx => hQ a s' ((Wp.of_ok hx).1 h)) fun e s' hx =>
  hR e s' ((Wp.of_error hx).1 h)

/-- The rule for a value. -/
@[simp] theorem wp_pure (a : α) : Wp (pure a : EStateM ε σ α) Q R s ↔ Q a s := Iff.rfl

/-- The rule for a read of the state. -/
@[simp] theorem wp_get {Q : σ → σ → Prop} : Wp (get : EStateM ε σ σ) Q R s ↔ Q s s := Iff.rfl

/-- The rule for a change of the state. -/
@[simp] theorem wp_modify {Q : PUnit → σ → Prop} (f : σ → σ) :
    Wp (modify f : EStateM ε σ PUnit) Q R s ↔ Q ⟨⟩ (f s) := Iff.rfl

/-- The rule for a sequence: an error of the first program is one of both. -/
@[simp] theorem wp_bind {x : EStateM ε σ α} {f : α → EStateM ε σ β} {Q : β → σ → Prop} :
    Wp (x >>= f) Q R s ↔ Wp x (fun a s' => Wp (f a) Q R s') R s := by
  rcases h : x s with ⟨a, s'⟩ | ⟨e, s'⟩
  · rw [Wp.of_ok h, Wp, bind_of_ok h, Wp]
  · rw [Wp.of_error h, Wp.of_error (bind_of_error h)]

/-- The rule for a branch. -/
theorem wp_ite {c : Prop} [Decidable c] {x y : EStateM ε σ α} :
    Wp (if c then x else y) Q R s ↔ (c → Wp x Q R s) ∧ (¬ c → Wp y Q R s) := by
  by_cases h : c
  · simp [h]
  · simp [h]

/-- The rule for an optional step: nothing to do, or the step itself. -/
theorem wp_forM {o : Option β} {f : β → EStateM ε σ PUnit} {Q : PUnit → σ → Prop}
    (hnone : o = none → Q ⟨⟩ s) (hsome : ∀ b, o = some b → Wp (f b) Q R s) :
    Wp (o.forM f) Q R s := by
  rcases o with _ | b
  · exact hnone rfl
  · exact hsome b rfl

end Lib.Prog
