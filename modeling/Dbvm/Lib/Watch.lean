import Mathlib.Data.Nat.Notation
import Mathlib.Order.Nat
import Dbvm.Lib.Prog

/-!
# Programs that watch a changing state

A program of statements, each of which sees the state at its time: `τ t` is the state that statement
`t` sees. The state of the program is the number of statements it has executed. A program agrees
with a function of one state (`Agrees`) when its result is the function's at every state that it
could not tell from those it saw.
-/

namespace Lib.Watch

open Lib.Prog

variable {ε σ α β : Type}

/-- One statement. -/
def ask (τ : ℕ → σ) (f : σ → Except ε α) : EStateM ε ℕ α := fun t =>
  match f (τ t) with
  | .ok a => .ok a (t + 1)
  | .error e => .error e (t + 1)

/-- A question is answered by the state of its moment and takes one tick. -/
theorem ask_eq_ok {τ : ℕ → σ} {f : σ → Except ε α} {t n : ℕ} {a : α} :
    ask τ f t = .ok a n ↔ f (τ t) = .ok a ∧ n = t + 1 := by
  unfold ask
  rcases f (τ t) with e | b
  · simp
  · simp [eq_comm]

/-- What the parts of a function that returns return. -/
theorem ok_of_bind {x : Except ε α} {f : α → Except ε β} {b : β} (h : x >>= f = .ok b) :
    ∃ a, x = .ok a ∧ f a = .ok b := by
  rcases x with e | a
  · cases h
  · exact ⟨a, rfl, h⟩

/-- A program that returns gives what the function gives at every state that is the same, up to `S`,
as the states the program saw. -/
def Agrees (S : σ → σ → Prop) (τ : ℕ → σ) (x : EStateM ε ℕ α) (f : σ → Except ε α) : Prop :=
  ∀ t a n, x t = .ok a n → t ≤ n ∧ ∀ s, (∀ u, t ≤ u → u < n → S (τ u) s) → f s = .ok a

variable {S : σ → σ → Prop} {τ : ℕ → σ}

/-- A question agrees with itself on states that are the same to it. -/
theorem Agrees.ask {f : σ → Except ε α} (hf : ∀ s s', S s s' → f s = f s') :
    Agrees S τ (ask τ f) f := by
  intro t a n h
  obtain ⟨ha, rfl⟩ := ask_eq_ok.1 h
  refine ⟨Nat.le_succ t, fun s hs => ?_⟩
  rw [← hf _ _ (hs t (le_refl t) (Nat.lt_succ_self t))]
  exact ha

/-- A value asks nothing. -/
theorem Agrees.pure (a : α) : Agrees S τ (Pure.pure a : EStateM ε ℕ α) fun _ => .ok a := by
  intro t b n h
  cases h
  exact ⟨le_refl t, fun _ _ => rfl⟩

/-- An error agrees with everything: only answers are compared. -/
theorem Agrees.throw (e : ε) (f : σ → Except ε α) : Agrees S τ (throw e : EStateM ε ℕ α) f := by
  intro t b n h
  cases h

/-- Two programs that agree with their single-state versions agree one after the other. -/
theorem Agrees.bind {x : EStateM ε ℕ α} {f : σ → Except ε α} {y : α → EStateM ε ℕ β}
    {g : α → σ → Except ε β} (hx : Agrees S τ x f) (hy : ∀ a, Agrees S τ (y a) (g a)) :
    Agrees S τ (x >>= y) fun s => f s >>= fun a => g a s := by
  intro t b n h
  obtain ⟨a, m, hxa, hyb⟩ := bind_eq_ok.1 h
  obtain ⟨htm, hf⟩ := hx t a m hxa
  obtain ⟨hmn, hg⟩ := hy a m b n hyb
  refine ⟨htm.trans hmn, fun s hs => ?_⟩
  have hfa := hf s fun u htu hum => hs u htu (lt_of_lt_of_le hum hmn)
  have hgb := hg s fun u hmu hun => hs u (htm.trans hmu) hun
  change f s >>= (fun a => g a s) = .ok b
  rw [hfa]
  exact hgb

/-- The single-state version may be replaced by an equal one. -/
theorem Agrees.congr {x : EStateM ε ℕ α} {f g : σ → Except ε α} (hx : Agrees S τ x f)
    (h : ∀ s, f s = g s) :
    Agrees S τ x g := by
  intro t a n hxa
  obtain ⟨htn, hf⟩ := hx t a n hxa
  exact ⟨htn, fun s hs => (h s).symm.trans (hf s hs)⟩

end Lib.Watch
