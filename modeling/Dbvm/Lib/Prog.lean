import Mathlib.Logic.Basic
import Mathlib.Tactic.Basic

/-!
# Programs that read and write a state and may fail

A program is an `EStateM`: from a state it either returns a value or fails, and in both cases it
leaves a state behind. `savepoint` is a program whose failure puts an earlier state back, as a
database savepoint does. The rules come in four forms: an inversion of a program that returned
(`bind_eq_ok`), a rule that a program returns (`bind_of_ok`, `forM_total`), `Triple`, pre- and
postconditions of a program that returned, and `Keeps`, an invariant that holds in whatever state
the program ends.
-/

namespace Lib.Prog

variable {ε σ α β : Type}

/-- The state a program ends in, whether it returned or failed. -/
def endState (x : EStateM ε σ α) (s : σ) : σ :=
  match x s with
  | .ok _ s' => s'
  | .error _ s' => s'

/-- A read of the state that changes nothing. -/
def query (f : σ → Except ε α) : EStateM ε σ α := fun s =>
  match f s with
  | .ok a => .ok a s
  | .error e => .error e s

/-- A read of the state that cannot fail. -/
def reads (f : σ → α) : EStateM ε σ α := fun s => .ok (f s) s

/-- Run `x` and return what became of it. -/
def attempt (x : EStateM ε σ α) : EStateM ε σ (Except ε α) := fun s =>
  match x s with
  | .ok a s' => .ok (.ok a) s'
  | .error e s' => .ok (.error e) s'

/-- Run `x`. When it fails, `back` says what the state becomes, from the state before `x` and the
state in which `x` failed. -/
def savepoint (back : σ → σ → σ) (x : EStateM ε σ α) : EStateM ε σ α := fun s =>
  match x s with
  | .ok a s' => .ok a s'
  | .error e s' => .error e (back s s')

/-! ## Programs that return -/

/-- A sequence returned exactly when its two parts did, one after the other. -/
theorem bind_eq_ok {x : EStateM ε σ α} {f : α → EStateM ε σ β} {s s'' : σ} {b : β} :
    (x >>= f) s = .ok b s'' ↔ ∃ a s', x s = .ok a s' ∧ f a s' = .ok b s'' := by
  change EStateM.bind x f s = .ok b s'' ↔ _
  unfold EStateM.bind
  cases x s with
  | ok a s' =>
    constructor
    · intro h
      exact ⟨a, s', rfl, h⟩
    · rintro ⟨_, _, ⟨⟩, h⟩
      exact h
  | error e s' => simp

/-- The first part of a sequence returned: the sequence is its second part. -/
theorem bind_of_ok {x : EStateM ε σ α} {f : α → EStateM ε σ β} {s s' : σ} {a : α}
    (h : x s = .ok a s') : (x >>= f) s = f a s' := by
  change EStateM.bind x f s = _
  unfold EStateM.bind
  rw [h]

/-- The first part of a sequence failed: the sequence fails there. -/
theorem bind_of_error {x : EStateM ε σ α} {f : α → EStateM ε σ β} {s s' : σ} {e : ε}
    (h : x s = .error e s') : (x >>= f) s = .error e s' := by
  change EStateM.bind x f s = _
  unfold EStateM.bind
  rw [h]

/-- A value returns and leaves the state. -/
@[simp] theorem pure_apply (a : α) (s : σ) : (pure a : EStateM ε σ α) s = .ok a s := rfl

/-- An error leaves the state. -/
@[simp] theorem throw_apply (e : ε) (s : σ) : (throw e : EStateM ε σ α) s = .error e s := rfl

/-- The state is returned as it is. -/
@[simp] theorem get_apply (s : σ) : (get : EStateM ε σ σ) s = .ok s s := rfl

/-- The state becomes the given one. -/
@[simp] theorem set_apply (s t : σ) : (set t : EStateM ε σ PUnit) s = .ok ⟨⟩ t := rfl

/-- The state becomes its image. -/
@[simp] theorem modify_apply (f : σ → σ) (s : σ) :
    (modify f : EStateM ε σ PUnit) s = .ok ⟨⟩ (f s) := rfl

/-- A sequence of two fallible computations gives a value iff both do. -/
theorem except_bind_eq_ok {ε α β : Type} {x : Except ε α} {f : α → Except ε β} {y : β} :
    (x >>= f) = .ok y ↔ ∃ a, x = .ok a ∧ f a = .ok y := by
  rcases x with e | a <;> simp [bind, Except.bind]

/-- A read returned exactly when what it reads is a value, and it left the state alone. -/
theorem query_eq_ok {f : σ → Except ε α} {s s' : σ} {a : α} :
    query f s = .ok a s' ↔ f s = .ok a ∧ s' = s := by
  unfold query
  cases h : f s with
  | ok b => simp [eq_comm]
  | error e => simp

/-- A read of a value returns it. -/
theorem query_of_ok {f : σ → Except ε α} {s : σ} {a : α} (h : f s = .ok a) :
    query f s = .ok a s := query_eq_ok.2 ⟨h, rfl⟩

/-- A read of the state returns and leaves it. -/
@[simp] theorem reads_apply (f : σ → α) (s : σ) :
    (reads f : EStateM ε σ α) s = .ok (f s) s := rfl

/-- A sequence that begins with a read. -/
theorem reads_bind (f : σ → α) (g : α → EStateM ε σ β) (s : σ) :
    (reads f >>= g) s = g (f s) s := bind_of_ok rfl

/-- A program that returns is caught as its value. -/
theorem attempt_of_ok {x : EStateM ε σ α} {s s' : σ} {a : α} (h : x s = .ok a s') :
    attempt x s = .ok (.ok a) s' := by
  unfold attempt
  rw [h]

/-- A program that fails is caught as its error; what it has done to the state stays. -/
theorem attempt_of_error {x : EStateM ε σ α} {s s' : σ} {e : ε} (h : x s = .error e s') :
    attempt x s = .ok (.error e) s' := by
  unfold attempt
  rw [h]

/-- A savepoint returned exactly when its body did. -/
theorem savepoint_eq_ok {back : σ → σ → σ} {x : EStateM ε σ α} {s s' : σ} {a : α} :
    savepoint back x s = .ok a s' ↔ x s = .ok a s' := by
  unfold savepoint
  cases h : x s with
  | ok b t => simp
  | error e t => simp

/-- A loop whose every step returns, from a state where `J` holds, returns. -/
theorem forM_total {J : List α → σ → Prop} {f : α → EStateM ε σ PUnit}
    (hstep : ∀ x xs s, J (x :: xs) s → ∃ s', f x s = .ok ⟨⟩ s' ∧ J xs s') :
    ∀ (xs : List α) {s : σ}, J xs s → ∃ s', xs.forM f s = .ok ⟨⟩ s' ∧ J [] s'
  | [], s, hJ => ⟨s, rfl, hJ⟩
  | x :: xs, s, hJ => by
    obtain ⟨t, hx, hJt⟩ := hstep x xs s hJ
    obtain ⟨s', hxs, hJ'⟩ := forM_total hstep xs hJt
    refine ⟨s', ?_, hJ'⟩
    rw [List.forM_eq_forM, List.forM_cons, bind_of_ok hx]
    exact hxs

/-- A loop with an accumulator whose every step returns, from a state where `J` holds, returns. -/
theorem foldlM_total {J : List α → β → σ → Prop} {f : β → α → EStateM ε σ β}
    (hstep : ∀ x xs b s, J (x :: xs) b s → ∃ b' s', f b x s = .ok b' s' ∧ J xs b' s') :
    ∀ (xs : List α) {b : β} {s : σ}, J xs b s → ∃ b' s', xs.foldlM f b s = .ok b' s' ∧ J [] b' s'
  | [], b, s, hJ => ⟨b, s, rfl, hJ⟩
  | x :: xs, b, s, hJ => by
    obtain ⟨b₁, t, hx, hJt⟩ := hstep x xs b s hJ
    obtain ⟨b', s', hxs, hJ'⟩ := foldlM_total hstep xs hJt
    refine ⟨b', s', ?_, hJ'⟩
    rw [List.foldlM_cons, bind_of_ok hx]
    exact hxs

/-- Whether a program returns. -/
def returns (x : EStateM ε σ α) (s : σ) : Bool :=
  match x s with
  | .ok _ _ => true
  | .error _ _ => false

/-- A program that returns has a value and its end state. -/
theorem exists_of_returns {x : EStateM ε σ α} {s : σ} (h : returns x s = true) :
    ∃ a, x s = .ok a (endState x s) := by
  unfold returns at h
  unfold endState
  rcases hx : x s with ⟨a, s'⟩ | ⟨e, s'⟩
  · exact ⟨a, rfl⟩
  · rw [hx] at h
    cases h

/-- What a program returns, if it does. -/
def value? (x : EStateM ε σ α) (s : σ) : Option α :=
  match x s with
  | .ok a _ => some a
  | .error _ _ => none

/-- A program with a value has returned it. -/
theorem exists_of_value {x : EStateM ε σ α} {s : σ} {a : α} (h : value? x s = some a) :
    ∃ s', x s = .ok a s' := by
  unfold value? at h
  rcases hx : x s with ⟨b, s'⟩ | ⟨e, s'⟩
  · rw [hx] at h
    cases h
    exact ⟨s', rfl⟩
  · rw [hx] at h
    cases h

/-- Whether a program fails with a given error. -/
def failsWith [DecidableEq ε] (x : EStateM ε σ α) (e : ε) (s : σ) : Bool :=
  match x s with
  | .ok _ _ => false
  | .error e' _ => e' = e

/-- A program that fails with an error ends in its end state. -/
theorem exists_of_failsWith [DecidableEq ε] {x : EStateM ε σ α} {e : ε} {s : σ}
    (h : failsWith x e s = true) : x s = .error e (endState x s) := by
  unfold failsWith at h
  unfold endState
  rcases hx : x s with ⟨a, s'⟩ | ⟨e', s'⟩
  · rw [hx] at h
    cases h
  · rw [hx] at h
    rw [of_decide_eq_true h]

/-- The end state of a program that returns. -/
theorem endState_of_ok {x : EStateM ε σ α} {s s' : σ} {a : α} (h : x s = .ok a s') :
    endState x s = s' := by rw [endState, h]

/-- Catching the error of a program does not change where it ends. -/
theorem endState_of_attempt {x : EStateM ε σ α} {s s' : σ} {r : Except ε α}
    (h : attempt x s = .ok r s') :
    endState x s = s' := by
  unfold attempt at h
  unfold endState
  rcases hx : x s with ⟨a, t⟩ | ⟨e, t⟩
  · rw [hx] at h
    cases h
    rfl
  · rw [hx] at h
    cases h
    rfl

/-! ## Pre- and postconditions -/

/-- From a state where `p` holds, `x` returns, if it returns, with `q` of its value and state. -/
def Triple (p : σ → Prop) (x : EStateM ε σ α) (q : α → σ → Prop) : Prop :=
  ∀ s a s', p s → x s = .ok a s' → q a s'

variable {p : σ → Prop} {q : α → σ → Prop} {r : β → σ → Prop}

/-- A value meets what holds of it before. -/
theorem Triple.pure {a : α} (h : ∀ s, p s → q a s) : Triple p (Pure.pure a : EStateM ε σ α) q := by
  rintro s _ _ hs ⟨⟩
  exact h s hs

/-- A read of the state meets what holds of its answer before. -/
theorem Triple.reads {f : σ → α} (h : ∀ s, p s → q (f s) s) :
    Triple p (reads f : EStateM ε σ α) q := by
  rintro s _ _ hs ⟨⟩
  exact h s hs

/-- A query that answers meets what holds of its answer before. -/
theorem Triple.query {f : σ → Except ε α} (h : ∀ s a, p s → f s = .ok a → q a s) :
    Triple p (query f) q := by
  intro s a s' hs hx
  obtain ⟨hf, rfl⟩ := query_eq_ok.1 hx
  exact h _ a hs hf

/-- The rule for a sequence: the second program starts from what the first has established. -/
theorem Triple.bind {x : EStateM ε σ α} {f : α → EStateM ε σ β} (hx : Triple p x q)
    (hf : ∀ a, Triple (q a) (f a) r) : Triple p (x >>= f) r := by
  intro s b s'' hs h
  obtain ⟨a, s', h₁, h₂⟩ := bind_eq_ok.1 h
  exact hf a s' b s'' (hx s a s' hs h₁) h₂

/-- The rule of consequence. -/
theorem Triple.mono {p' : σ → Prop} {q' : α → σ → Prop} {x : EStateM ε σ α} (hx : Triple p x q)
    (hp : ∀ s, p' s → p s) (hq : ∀ a s, q a s → q' a s) : Triple p' x q' :=
  fun s a s' hs h => hq a s' (hx s a s' (hp s hs) h)

/-- Along a loop, `J` of the elements still to come. -/
theorem Triple.forM {J : List α → σ → Prop} {f : α → EStateM ε σ PUnit}
    (hf : ∀ x xs, Triple (J (x :: xs)) (f x) fun _ => J xs) :
    ∀ xs : List α, Triple (J xs) (xs.forM f) fun _ => J []
  | [] => Triple.pure fun _ hs => hs
  | x :: xs => by
    rw [List.forM_eq_forM, List.forM_cons]
    exact Triple.bind (hf x xs) fun _ => Triple.forM hf xs

/-- A loop keeps what every round keeps. -/
theorem Triple.forM_inv {xs : List α} {f : α → EStateM ε σ PUnit}
    (hf : ∀ x ∈ xs, Triple p (f x) fun _ => p) : Triple p (xs.forM f) fun _ => p := by
  induction xs with
  | nil => exact Triple.pure fun _ hs => hs
  | cons x xs ih =>
    rw [List.forM_eq_forM, List.forM_cons]
    exact Triple.bind (hf x (by simp)) fun _ => ih fun y hy => hf y (by simp [hy])

/-- A loop with an accumulator keeps what every round keeps. -/
theorem Triple.foldlM_inv {f : β → α → EStateM ε σ β} (hf : ∀ b x, Triple p (f b x) fun _ => p) :
    ∀ (xs : List α) (b : β), Triple p (xs.foldlM f b) fun _ => p
  | [], b => Triple.pure fun _ hs => hs
  | x :: xs, b => by
    rw [List.foldlM_cons]
    exact Triple.bind (hf b x) fun b' => Triple.foldlM_inv hf xs b'

/-! ## Invariants -/

/-- `I` holds in the state `x` ends in, returned or failed, whenever it held before. -/
def Keeps (I : σ → Prop) (x : EStateM ε σ α) : Prop := ∀ s, I s → I (endState x s)

variable {I : σ → Prop}

/-- A value keeps every invariant. -/
theorem Keeps.pure (a : α) : Keeps I (Pure.pure a : EStateM ε σ α) := fun _ hs => hs

/-- An error keeps every invariant. -/
theorem Keeps.throw (e : ε) : Keeps I (throw e : EStateM ε σ α) := fun _ hs => hs

/-- A query keeps every invariant, whether it answers or fails. -/
theorem Keeps.query (f : σ → Except ε α) : Keeps I (query f) := by
  intro s hs
  unfold endState Prog.query
  cases f s with
  | ok a => exact hs
  | error e => exact hs

/-- A read of the state keeps every invariant. -/
theorem Keeps.reads (f : σ → α) : Keeps I (reads f : EStateM ε σ α) := fun _ hs => hs

/-- Two programs that keep an invariant keep it one after the other. -/
theorem Keeps.bind {x : EStateM ε σ α} {f : α → EStateM ε σ β} (hx : Keeps I x)
    (hf : ∀ a, Keeps I (f a)) : Keeps I (x >>= f) := by
  intro s hs
  have hend := hx s hs
  unfold endState at hend ⊢
  cases h : x s with
  | ok a s' =>
    rw [bind_of_ok h]
    rw [h] at hend
    exact hf a s' hend
  | error e s' =>
    rw [bind_of_error h]
    rw [h] at hend
    exact hend

/-- A loop keeps what every step keeps. -/
theorem Keeps.forM_mem {f : α → EStateM ε σ PUnit} : ∀ {xs : List α}, (∀ a ∈ xs, Keeps I (f a)) →
    Keeps I (xs.forM f)
  | [], _ => Keeps.pure _
  | x :: xs, hf => by
    rw [List.forM_eq_forM, List.forM_cons]
    exact Keeps.bind (hf x List.mem_cons_self) fun _ =>
      Keeps.forM_mem fun a ha => hf a (List.mem_cons_of_mem x ha)

/-- A loop keeps an invariant that each of its rounds keeps. -/
theorem Keeps.forM {f : α → EStateM ε σ PUnit} (hf : ∀ a, Keeps I (f a)) (xs : List α) :
    Keeps I (xs.forM f) :=
  Keeps.forM_mem fun a _ => hf a

/-- A program that keeps `I` when it returns keeps it inside a savepoint that puts back a state
where `I` holds: the body's intermediate states do not matter. -/
theorem Keeps.savepoint {back : σ → σ → σ} {x : EStateM ε σ α} (hx : Triple I x fun _ => I)
    (hback : ∀ s s', I s → I (back s s')) : Keeps I (savepoint back x) := by
  intro s hs
  unfold endState Prog.savepoint
  cases h : x s with
  | ok a s' => exact hx s a s' hs h
  | error e s' => exact hback s s' hs

/-- A loop with an accumulator keeps what every round keeps. -/
theorem Keeps.foldlM_mem {f : β → α → EStateM ε σ β} :
    ∀ {xs : List α}, (∀ x ∈ xs, ∀ b, Keeps I (f b x)) →
    ∀ b : β, Keeps I (xs.foldlM f b)
  | [], _, _ => Keeps.pure _
  | x :: xs, hf, b => by
    rw [List.foldlM_cons]
    exact Keeps.bind (hf x (by simp) b) fun b' =>
      Keeps.foldlM_mem (fun y hy => hf y (by simp [hy])) b'

/-- A loop with an accumulator keeps an invariant that each of its rounds keeps. -/
theorem Keeps.foldlM {f : β → α → EStateM ε σ β} (hf : ∀ b x, Keeps I (f b x)) (xs : List α)
    (b : β) :
    Keeps I (xs.foldlM f b) :=
  Keeps.foldlM_mem (fun x _ b => hf b x) b

/-- What holds of the state a sequence ends in. -/
theorem endState_bind {Q : σ → Prop} {x : EStateM ε σ α} {f : α → EStateM ε σ β} {s : σ}
    (hx : ∀ e s', x s = .error e s' → Q s') (hf : ∀ a s', x s = .ok a s' → Q (endState (f a) s')) :
    Q (endState (x >>= f) s) := by
  rcases h : x s with ⟨a, s'⟩ | ⟨e, s'⟩
  · have hend := hf a s' h
    unfold endState at hend ⊢
    rw [bind_of_ok h]
    exact hend
  · unfold endState
    rw [bind_of_error h]
    exact hx e s' h

/-- What holds of the state a sequence that begins with a read ends in. -/
theorem endState_query_bind {Q : σ → Prop} {f : σ → Except ε α} {g : α → EStateM ε σ β} {s : σ}
    (hs : Q s) (hg : ∀ a, f s = .ok a → Q (endState (g a) s)) : Q (endState (query f >>= g) s) := by
  rcases hf : f s with e | a
  · unfold endState
    rw [bind_of_error (show query f s = .error e s by rw [query, hf])]
    exact hs
  · have hg' := hg a hf
    unfold endState at hg' ⊢
    rw [bind_of_ok (query_of_ok hf)]
    exact hg'

/-- What holds of the state a savepoint ends in. -/
theorem endState_savepoint {Q : σ → Prop} {back : σ → σ → σ} {x : EStateM ε σ α} {s : σ}
    (hs : ∀ s', Q (back s s')) (hx : ∀ a s', x s = .ok a s' → Q s') :
    Q (endState (savepoint back x) s) := by
  unfold endState savepoint
  rcases h : x s with ⟨a, s'⟩ | ⟨e, s'⟩
  · exact hx a s' h
  · exact hs s'

/-- Catching the error of a program keeps what the program keeps. -/
theorem Keeps.attempt {x : EStateM ε σ α} (hx : Keeps I x) : Keeps I (attempt x) := by
  intro s hs
  have hend := hx s hs
  unfold endState Prog.attempt at *
  cases h : x s with
  | ok a s' => simpa [h] using hend
  | error e s' => simpa [h] using hend

/-- An invariant that is kept is both pre- and postcondition. -/
theorem Keeps.triple {x : EStateM ε σ α} (hx : Keeps I x) : Triple I x fun _ => I := by
  intro s a s' hs h
  have hend := hx s hs
  unfold endState at hend
  rw [h] at hend
  exact hend

/-- Every element of a list meets a condition when it is its turn. -/
def InTurn (f : α → EStateM ε σ PUnit) (C : σ → α → Prop) : List α → σ → Prop
  | [], _ => True
  | x :: xs, s => C s x ∧ ∀ s', f x s = .ok () s' → InTurn f C xs s'

/-- A loop keeps what every step keeps that meets its condition. -/
theorem InTurn.keeps {f : α → EStateM ε σ PUnit} {C : σ → α → Prop}
    (hf : ∀ s x, I s → C s x → I (endState (f x) s)) :
    ∀ {xs : List α} {s : σ}, InTurn f C xs s → I s → I (endState (xs.forM f) s)
  | [], _, _, hs => hs
  | x :: xs, s, h, hs => by
    have hone := hf s x hs h.1
    rw [List.forM_eq_forM, List.forM_cons]
    refine endState_bind (fun e s' hx => ?_) fun _ s' hx => ?_
    · unfold endState at hone
      rw [hx] at hone
      exact hone
    · rw [endState_of_ok hx] at hone
      exact InTurn.keeps hf (h.2 s' hx) hone

/-- A loop that returns keeps what every step keeps that returns. -/
theorem InTurn.returned {f : α → EStateM ε σ PUnit} {C : σ → α → Prop}
    (hf : ∀ s x s', I s → C s x → f x s = .ok () s' → I s') :
    ∀ {xs : List α} {s s' : σ} {u : PUnit}, InTurn f C xs s → I s → xs.forM f s = .ok u s' → I s'
  | [], _, _, _, _, hs, hx => by
    cases hx
    exact hs
  | x :: xs, s, s', u, h, hs, hx => by
    rw [List.forM_eq_forM, List.forM_cons] at hx
    obtain ⟨_, s₁, hone, hrest⟩ := bind_eq_ok.1 hx
    exact InTurn.returned hf (h.2 s₁ hone) (hf s x s₁ hs h.1 hone) hrest

/-- `x` leaves no trace when it fails. -/
def Atomic (x : EStateM ε σ α) : Prop := ∀ s e s', x s = .error e s' → s' = s

/-- What holds of the state an atomic program ends in. -/
theorem Atomic.endState {Q : σ → Prop} {x : EStateM ε σ α} {s : σ} (hx : Atomic x) (hs : Q s)
    (hok : ∀ a s', x s = .ok a s' → Q s') : Q (endState x s) := by
  unfold Prog.endState
  rcases hr : x s with ⟨a, s'⟩ | ⟨e, s'⟩
  · exact hok a s' hr
  · rw [hx s e s' hr]
    exact hs

/-- A savepoint that goes back to the state before is atomic, whatever the program in it does. -/
theorem Atomic.savepoint (x : EStateM ε σ α) : Atomic (savepoint (fun s _ => s) x) := by
  intro s e s' h
  unfold Prog.savepoint at h
  rcases hx : x s with ⟨a, t⟩ | ⟨e', t⟩
  · rw [hx] at h
    cases h
  · rw [hx] at h
    cases h
    rfl

/-- A read before an atomic program leaves it atomic. -/
theorem Atomic.query_bind {f : σ → Except ε α} {g : α → EStateM ε σ β} (hg : ∀ a, Atomic (g a)) :
    Atomic (query f >>= g) := by
  intro s e s' h
  rcases hf : f s with e' | a
  · rw [bind_of_error (show query f s = .error e' s by rw [query, hf])] at h
    cases h
    rfl
  · rw [bind_of_ok (query_of_ok hf)] at h
    exact hg a s e s' h

section Shown

variable {ρ : Type} {π : σ → ρ}

/-- `x` changes nothing of what `π` shows. -/
def Silent (π : σ → ρ) (x : EStateM ε σ α) : Prop := ∀ s, π (endState x s) = π s

/-- When `x` fails, it has changed nothing of what `π` shows. -/
def AtomicOn (π : σ → ρ) (x : EStateM ε σ α) : Prop := ∀ s e s', x s = .error e s' → π s' = π s

/-- A silent program that returns has not moved the observation. -/
theorem Silent.ok {x : EStateM ε σ α} (hx : Silent π x) {s s' : σ} {a : α} (h : x s = .ok a s') :
    π s' = π s := by
  rw [← hx s, endState_of_ok h]

/-- A silent program is atomic on what it does not move. -/
theorem Silent.atomicOn {x : EStateM ε σ α} (hx : Silent π x) : AtomicOn π x := by
  intro s e s' h
  rw [← hx s, endState, h]

/-- A value is atomic. -/
theorem AtomicOn.pure (a : α) : AtomicOn π (Pure.pure a : EStateM ε σ α) := by
  rintro s e s' ⟨⟩

/-- Only the second part changes something. -/
theorem Silent.bind_atomicOn {x : EStateM ε σ α} {f : α → EStateM ε σ β} (hx : Silent π x)
    (hf : ∀ a, AtomicOn π (f a)) : AtomicOn π (x >>= f) := by
  intro s e s' h
  rcases hr : x s with ⟨a, t⟩ | ⟨e', t⟩
  · rw [bind_of_ok hr] at h
    rw [hf a t e s' h, hx.ok hr]
  · rw [bind_of_error hr] at h
    cases h
    exact hx.atomicOn s _ _ hr

/-- Nothing can fail after the change. -/
theorem AtomicOn.bind_pure {x : EStateM ε σ α} {g : α → β} (hx : AtomicOn π x) :
    AtomicOn π (x >>= fun a => Pure.pure (g a)) := by
  intro s e s' h
  rcases hr : x s with ⟨a, t⟩ | ⟨e', t⟩
  · rw [bind_of_ok hr] at h
    cases h
  · rw [bind_of_error hr] at h
    cases h
    exact hx s _ _ hr

end Shown

/-! ## Two programs side by side -/

section Sim

variable {τ : Type} {R : σ → τ → Prop} {S : α → σ → τ → Prop} {T : β → σ → τ → Prop}

/-- From related states, when `x` returns then `y` returns the same value, in a related state. -/
def Sim (R : σ → τ → Prop) (x : EStateM ε σ α) (y : EStateM ε τ α) (S : α → σ → τ → Prop) : Prop :=
  ∀ s t a s', R s t → x s = .ok a s' → ∃ t', y t = .ok a t' ∧ S a s' t'

/-- The rule for a sequence: the second programs start from related states and the same value. -/
theorem Sim.bind {x : EStateM ε σ α} {y : EStateM ε τ α} {f : α → EStateM ε σ β}
    {g : α → EStateM ε τ β} (hx : Sim R x y S) (hf : ∀ a, Sim (S a) (f a) (g a) T) :
    Sim R (x >>= f) (y >>= g) T := by
  intro s t b s'' hR h
  obtain ⟨a, s', h₁, h₂⟩ := bind_eq_ok.1 h
  obtain ⟨t', hy, hS⟩ := hx s t a s' hR h₁
  obtain ⟨t'', hg, hT⟩ := hf a s' t' b s'' hS h₂
  exact ⟨t'', by rw [bind_of_ok hy]; exact hg, hT⟩

/-- A value simulates itself. -/
theorem Sim.pure {a : α} (h : ∀ s t, R s t → S a s t) :
    Sim R (Pure.pure a : EStateM ε σ α) (Pure.pure a : EStateM ε τ α) S := by
  rintro s t _ _ hR ⟨⟩
  exact ⟨t, rfl, h s t hR⟩

/-- A program that fails is simulated by every program: only runs that return are compared. -/
theorem Sim.throw {e : ε} {y : EStateM ε τ α} : Sim R (throw e : EStateM ε σ α) y S := by
  rintro s t _ _ hR ⟨⟩

/-- The rule of consequence. -/
theorem Sim.mono {R' : σ → τ → Prop} {S' : α → σ → τ → Prop} {x : EStateM ε σ α}
    {y : EStateM ε τ α} (h : Sim R x y S) (hR : ∀ s t, R' s t → R s t)
    (hS : ∀ a s t, S a s t → S' a s t) : Sim R' x y S' := by
  intro s t a s' hR' hx
  obtain ⟨t', hy, hS'⟩ := h s t a s' (hR s t hR') hx
  exact ⟨t', hy, hS a s' t' hS'⟩

/-- Two queries simulate each other when related states give the same answer. -/
theorem Sim.query {f : σ → Except ε α} {g : τ → Except ε α}
    (h : ∀ s t a, R s t → f s = .ok a → g t = .ok a ∧ S a s t) : Sim R (query f) (query g) S := by
  intro s t a s' hR hx
  obtain ⟨hf, rfl⟩ := query_eq_ok.1 hx
  obtain ⟨hg, hS⟩ := h _ t a hR hf
  exact ⟨t, query_of_ok hg, hS⟩

/-- Two reads of the state simulate each other when related states give the same answer. -/
theorem Sim.reads {f : σ → α} {g : τ → α} (h : ∀ s t, R s t → g t = f s ∧ S (f s) s t) :
    Sim R (reads f : EStateM ε σ α) (reads g) S := by
  rintro s t _ _ hR ⟨⟩
  exact ⟨t, by rw [reads_apply, (h s t hR).1], (h s t hR).2⟩

/-- A savepoint simulates a savepoint when the programs in them do. -/
theorem Sim.savepoint {back : σ → σ → σ} {back' : τ → τ → τ} {x : EStateM ε σ α}
    {y : EStateM ε τ α} (h : Sim R x y S) : Sim R (savepoint back x) (savepoint back' y) S := by
  intro s t a s' hR hx
  obtain ⟨t', hy, hS⟩ := h s t a s' hR (savepoint_eq_ok.1 hx)
  exact ⟨t', savepoint_eq_ok.2 hy, hS⟩

/-- Along two loops over the same elements, `J` of those still to come. -/
theorem Sim.forM {J : List β → σ → τ → Prop} {f : β → EStateM ε σ PUnit}
    {g : β → EStateM ε τ PUnit} (h : ∀ x xs, Sim (J (x :: xs)) (f x) (g x) fun _ => J xs) :
    ∀ xs : List β, Sim (J xs) (xs.forM f) (xs.forM g) fun _ => J []
  | [] => Sim.pure fun _ _ hJ => hJ
  | x :: xs => by
    rw [List.forM_eq_forM, List.forM_eq_forM, List.forM_cons, List.forM_cons]
    exact Sim.bind (h x xs) fun _ => Sim.forM h xs

end Sim

/-! ## Folds that may fail -/

/-- Along a fold that returned, `J` of the elements still to come. -/
theorem foldlM_rest {J : List α → σ → Prop} {f : σ → α → Except ε σ}
    (hf : ∀ x xs s s', J (x :: xs) s → f s x = .ok s' → J xs s') :
    ∀ {xs : List α} {s s' : σ}, J xs s → xs.foldlM f s = .ok s' → J [] s'
  | [], s, s', hJ, h => by
    cases h
    exact hJ
  | x :: xs, s, s', hJ, h => by
    rw [List.foldlM_cons] at h
    rcases hx : f s x with e | t
    · rw [hx] at h
      cases h
    · rw [hx] at h
      exact foldlM_rest hf (hf x xs s t hJ hx) h

/-- A fold that returned keeps what every round keeps. -/
theorem foldlM_inv {f : σ → α → Except ε σ} {xs : List α}
    (hf : ∀ x ∈ xs, ∀ s s', I s → f s x = .ok s' → I s') {s s' : σ} (hs : I s)
    (h : xs.foldlM f s = .ok s') : I s' := by
  refine (foldlM_rest (J := fun ys t => (∀ y ∈ ys, y ∈ xs) ∧ I t) ?_ ⟨fun _ hy => hy, hs⟩ h).2
  rintro x ys t t' ⟨hmem, ht⟩ hx
  exact ⟨fun y hy => hmem y (by simp [hy]), hf x (hmem x (by simp)) t t' ht hx⟩

end Lib.Prog
