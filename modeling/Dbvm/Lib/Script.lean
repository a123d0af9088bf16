import Dbvm.Lib.Tx

/-!
# Operations as sequences of parts

An operation on a connection reads, opens and closes transactions one after the other, and stops at
the first part that fails. A part that closes what it opens leaves, when it fails, the state in
which it began; one that begins and commits without a rollback leaves its transaction open.
`Failure` says which call of a part fails and how: a statement, a read or a decode of the body, or a
statement of the bracket around it; with an error after which the database ends the transaction, or
with another; and whether the body leaves with the error or passes over it. `Part.restores_iff` says
when a part whose call fails leaves the connection as it found it.
-/

namespace Lib.Tx

open Lib.Prog

variable {ε σ α : Type}

/-! ## Failures -/

/-- A call inside the body of a transaction or a savepoint that fails. -/
structure Fault (ε σ α : Type) where
  /-- Its error. -/
  error : ε
  /-- It is one after which the database ends the whole transaction, as with a full disk. -/
  ends : Bool
  /-- What the connection sees when it comes. -/
  reached : σ
  /-- Where the body passes over the failure: what it returns in the end, and the state that the
  statements after the failure leave. With `none` the body leaves with the error. -/
  passed : Option (Except ε α × σ)

/-- Which call of a transaction or a savepoint fails. -/
inductive Failure (ε σ α : Type) where
  /-- The statement that opens it. -/
  | opening (e : ε)
  /-- A call of the body. -/
  | inner (f : Fault ε σ α)
  /-- The statement that commits it. The transaction is ended. -/
  | closing (e : ε)

/-- The connection after the failing call. -/
def Fault.after (f : Fault ε σ α) (c : Link σ) : Link σ :=
  if f.ends then c.close else ⟨f.reached, c.opened⟩

/-- A body in which the call fails. What it does after a failure that ended the transaction is kept
statement by statement, since no transaction is open. -/
def Fault.body (f : Fault ε σ α) : TxM ε σ α := fun c =>
  match f.passed with
  | none => .error f.error (f.after c)
  | some (.ok a, s) => .ok a ⟨s, (f.after c).opened⟩
  | some (.error e, s) => .error e ⟨s, (f.after c).opened⟩

/-- The body for the failures of a bracket: where the bracket's own last statement fails the
transaction is ended. -/
def Failure.body : Failure ε σ α → TxM ε σ α
  | .opening e => throw e
  | .inner f => f.body
  | .closing e => fun c => .error e c.close

/-- A bracket in which a call fails. -/
def Failure.within (f : Failure ε σ α) (bracket : TxM ε σ α → TxM ε σ α) : TxM ε σ α :=
  match f with
  | .opening e => throw e
  | f => bracket f.body

/-- The error of the failing call. -/
def Failure.error : Failure ε σ α → ε
  | .opening e => e
  | .inner f => f.error
  | .closing e => e

/-! ## Parts -/

/-- A part of an operation. -/
inductive Part (ε σ : Type) where
  /-- A read, or a check, outside of a transaction. -/
  | read (f : σ → Except ε Unit)
  /-- A transaction: committed when the body returns, rolled back when it fails. -/
  | guarded (x : EStateM ε σ Unit)
  /-- A savepoint. -/
  | saved (x : EStateM ε σ Unit)
  /-- A transaction that is committed when the body returns, and left when it fails. -/
  | unguarded (x : EStateM ε σ Unit)

/-- The part has no rollback. -/
def Part.isUnguarded : Part ε σ → Bool
  | .unguarded _ => true
  | _ => false

/-- The part opens nothing. -/
def Part.isRead : Part ε σ → Bool
  | .read _ => true
  | _ => false

/-- Run one part; `e` is the error of a nested transaction. -/
def Part.run (e : ε) : Part ε σ → TxM ε σ Unit
  | .read f => lift (query f)
  | .guarded x => immediate e x
  | .saved x => savepoint x
  | .unguarded x => bare e x

/-- Run one part in which a call fails; `e` is also the error of a `COMMIT` or a `RELEASE` that
finds nothing open. -/
def Part.strike (e : ε) (f : Failure ε σ Unit) : Part ε σ → TxM ε σ Unit
  | .read _ => throw f.error
  | .guarded _ => f.within (immediateOf e)
  | .saved _ => f.within (savepointOf e)
  | .unguarded _ => f.within (bareOf e)

/-- What a part does to the state when it returns. -/
def Part.body : Part ε σ → EStateM ε σ Unit
  | .read f => query f
  | .guarded x => x
  | .saved x => x
  | .unguarded x => x

/-- When a part fails with the failure and leaves the connection, which saw `t`, as it was: the body
leaves with an error that ended the transaction, or that a rollback follows; or it passes over the
failure, and then either fails later and is rolled back, or what it does after the end of the
transaction changes nothing. -/
def Part.Restores (p : Part ε σ) (t : σ) : Failure ε σ Unit → Prop
  | .inner f => p.isRead = true ∨
      match f.passed with
      | none => p.isUnguarded = true → f.ends = true
      | some (r, s) => if f.ends = true then s = t else p.isUnguarded = false ∧ r.isOk = false
  | _ => True

/-- A sequence of parts. -/
abbrev Script (ε σ : Type) := List (Part ε σ)

/-- Run the parts one after the other. -/
def Script.run (e : ε) (script : Script ε σ) : TxM ε σ Unit := script.forM (Part.run e)

/-- Run some parts, and one more in which a call fails. -/
def Script.struck (e : ε) (done : Script ε σ) (p : Part ε σ) (f : Failure ε σ Unit) :
    TxM ε σ Unit := do
  Script.run e done
  p.strike e f

variable {e : ε} {s t : σ}

/-- In autocommit mode a part that returns commits. -/
theorem Part.run_of_ok {p : Part ε σ} {u : Unit} {t' : σ} (h : p.body t = .ok u t') :
    p.run e ⟨t, []⟩ = .ok () ⟨t', []⟩ := by
  cases p with
  | read f => exact lift_of_ok h
  | guarded x => rw [run, immediate_of_autocommit, show x t = .ok u t' from h]
  | saved x => rw [run, savepoint_eq, show x t = .ok u t' from h]
  | unguarded x => rw [run, bare_of_autocommit, show x t = .ok u t' from h]

/-- In autocommit mode a part that fails leaves the state in which it began, unless it has no
rollback. -/
theorem Part.run_of_error {p : Part ε σ} {err : ε} {t' : σ} (h : p.body t = .error err t') :
    p.run e ⟨t, []⟩ = .error err (if p.isUnguarded then ⟨t', [t]⟩ else ⟨t, []⟩) := by
  cases p with
  | read f =>
    have hsame : t' = t := by
      have hq : query f t = .error err t' := h
      unfold query at hq
      rcases hf : f t with e' | a
      · rw [hf] at hq
        cases hq
        rfl
      · rw [hf] at hq
        cases hq
    rw [run, lift_of_error h, hsame]
    rfl
  | guarded x =>
    rw [run, immediate_of_autocommit, show x t = .error err t' from h]
    rfl
  | saved x =>
    rw [run, savepoint_eq, show x t = .error err t' from h]
    rfl
  | unguarded x =>
    rw [run, bare_of_autocommit, show x t = .error err t' from h]
    rfl

/-! ## A part in which a call fails -/

/-- The body in a transaction that was opened at `t`. -/
theorem Fault.body_inside (f : Fault ε σ Unit) (t : σ) : f.body ⟨t, [t]⟩ =
    match f.passed with
    | none => .error f.error (if f.ends then ⟨t, []⟩ else ⟨f.reached, [t]⟩)
    | some (.ok _, s) => .ok () ⟨s, if f.ends then [] else [t]⟩
    | some (.error err, s) => .error err ⟨s, if f.ends then [] else [t]⟩ := by
  obtain ⟨err, ends, reached, _ | ⟨_ | _, s⟩⟩ := f <;> cases ends <;> rfl

/-- What a part with a rollback leaves: `close` for a transaction, `rollbackTo` for a savepoint. -/
theorem Fault.guarded_iff (f : Fault ε σ Unit) (t : σ) (e : ε) (back : Link σ → Link σ)
    (y : TxM ε σ Unit) (hback : ∀ s, back ⟨s, [t]⟩ = ⟨t, []⟩)
    (hended : ∀ s, back ⟨s, []⟩ = ⟨s, []⟩)
    (hy : y ⟨t, []⟩ = match f.body ⟨t, [t]⟩ with
      | .ok a c => if c.autocommit then .error e c else .ok a ⟨c.cur, []⟩
      | .error err c => .error err (back c)) :
    (∃ err, y ⟨t, []⟩ = .error err ⟨t, []⟩) ↔
      match f.passed with
      | none => True
      | some (r, s) => if f.ends = true then s = t else r.isOk = false := by
  rw [hy, f.body_inside]
  obtain ⟨err, ends, reached, _ | ⟨r, s⟩⟩ := f
  · -- The body leaves with the error.
    cases ends
    · exact iff_of_true ⟨err, by dsimp only; rw [if_neg (by simp), hback]⟩ trivial
    · exact iff_of_true ⟨err, by dsimp only; rw [if_pos rfl, hended]⟩ trivial
  · -- It passes over the failure: in the transaction, or after the end of it.
    rcases r with err' | u <;> cases ends
    · exact iff_of_true ⟨err', by simp [hback]⟩ rfl
    · simp [hended]
    · simp [Link.autocommit, Except.isOk, Except.toBool]
    · simp [Link.autocommit]

/-- A part in which a call fails, in autocommit mode: it fails and leaves the connection as it was
exactly when `Restores` says so. -/
theorem Part.restores_iff (e : ε) (p : Part ε σ) (f : Failure ε σ Unit) (t : σ) :
    (∃ err, p.strike e f ⟨t, []⟩ = .error err ⟨t, []⟩) ↔ p.Restores t f := by
  cases p with
  | read g =>
    refine iff_of_true ⟨f.error, rfl⟩ ?_
    cases f with
    | inner f => exact Or.inl rfl
    | _ => trivial
  | guarded x =>
    cases f with
    | opening err => exact iff_of_true ⟨err, rfl⟩ trivial
    | closing err => exact iff_of_true ⟨err, immediateOf_apply e _ t⟩ trivial
    | inner f =>
      have happly : immediateOf e f.body ⟨t, []⟩ = match f.body ⟨t, [t]⟩ with
          | .ok a c => if c.autocommit then .error e c else .ok a ⟨c.cur, []⟩
          | .error err c => .error err c.close := by
        rw [immediateOf_apply, f.body_inside]
        obtain ⟨err, ends, reached, _ | ⟨_ | _, s⟩⟩ := f <;> cases ends <;> rfl
      refine (f.guarded_iff t e Link.close (immediateOf e f.body) (fun _ => rfl) (fun _ => rfl)
        happly).trans ?_
      obtain ⟨err, ends, reached, _ | ⟨r, s⟩⟩ := f <;> simp [Restores, isRead, isUnguarded]
  | saved x =>
    cases f with
    | opening err => exact iff_of_true ⟨err, rfl⟩ trivial
    | closing err => exact iff_of_true ⟨err, savepointOf_apply e _ ⟨t, []⟩⟩ trivial
    | inner f =>
      have happly : savepointOf e f.body ⟨t, []⟩ = match f.body ⟨t, [t]⟩ with
          | .ok a c => if c.autocommit then .error e c else .ok a ⟨c.cur, []⟩
          | .error err c => .error err c.rollbackTo := by
        rw [savepointOf_apply, f.body_inside]
        obtain ⟨err, ends, reached, _ | ⟨_ | _, s⟩⟩ := f <;> cases ends <;> rfl
      refine (f.guarded_iff t e Link.rollbackTo (savepointOf e f.body) (fun _ => rfl) (fun _ => rfl)
        happly).trans ?_
      obtain ⟨err, ends, reached, _ | ⟨r, s⟩⟩ := f <;> simp [Restores, isRead, isUnguarded]
  | unguarded x =>
    cases f with
    | opening err => exact iff_of_true ⟨err, rfl⟩ trivial
    | closing err => exact iff_of_true ⟨err, bareOf_apply e _ t⟩ trivial
    | inner f =>
      have happly := bareOf_apply e f.body t
      rw [f.body_inside] at happly
      show (∃ err, bareOf e f.body ⟨t, []⟩ = .error err ⟨t, []⟩) ↔ _
      rw [happly]
      -- Nothing is rolled back: only a failure that ended the transaction leaves it closed.
      obtain ⟨err, ends, reached, _ | ⟨_ | _, s⟩⟩ := f <;> cases ends <;>
        simp [Restores, isRead, isUnguarded, Link.autocommit]

/-- A part that fails by itself is a part in which a call fails whose error the body leaves with. -/
theorem Part.run_eq_strike {p : Part ε σ} {err : ε} {t' : σ} (h : p.body t = .error err t') :
    p.run e ⟨t, []⟩ = p.strike e (.inner ⟨err, false, t', none⟩) ⟨t, []⟩ := by
  rw [Part.run_of_error h]
  cases p with
  | read f => rfl
  | guarded x => exact (immediateOf_apply e (Fault.body ⟨err, false, t', none⟩) t).symm
  | saved x => exact (savepointOf_apply e (Fault.body ⟨err, false, t', none⟩) ⟨t, []⟩).symm
  | unguarded x => exact (bareOf_apply e (Fault.body ⟨err, false, t', none⟩) t).symm

/-- The parts before the one that fails have committed. -/
theorem Script.struck_of_done {done : Script ε σ} {p : Part ε σ} {f : Failure ε σ Unit}
    (hdone : Script.run e done ⟨s, []⟩ = .ok () ⟨t, []⟩) :
    Script.struck e done p f ⟨s, []⟩ = p.strike e f ⟨t, []⟩ := bind_of_ok hdone

/-- A run of all parts ends with the part that fails. -/
theorem Script.run_of_first {done : Script ε σ} (rest : Script ε σ) {p : Part ε σ} {err : ε}
    {t' : σ} (hdone : Script.run e done ⟨s, []⟩ = .ok () ⟨t, []⟩) (hp : p.body t = .error err t') :
    Script.run e (done ++ p :: rest) ⟨s, []⟩ =
      Script.struck e done p (.inner ⟨err, false, t', none⟩) ⟨s, []⟩ := by
  have hstrike : p.strike e (.inner ⟨err, false, t', none⟩) ⟨t, []⟩ =
      .error err (if p.isUnguarded then ⟨t', [t]⟩ else ⟨t, []⟩) :=
    (Part.run_eq_strike hp).symm.trans (Part.run_of_error hp)
  rw [Script.struck_of_done hdone, hstrike]
  unfold Script.run at hdone ⊢
  rw [List.forM_eq_forM] at hdone
  rw [List.forM_eq_forM, List.forM_append, bind_of_ok hdone, List.forM_cons,
    bind_of_error (Part.run_of_error hp)]

/-! ## A savepoint in or outside a transaction -/

/-- A savepoint in which a call may fail. Inside a transaction of the caller a `RELEASE` writes
nothing and does not fail. -/
def savepointWith (e : ε) (f : Option (Failure ε σ α)) (x : EStateM ε σ α) : TxM ε σ α := fun c =>
  match f with
  | none => savepoint x c
  | some (.closing err) =>
    if c.autocommit then Failure.within (.closing err) (savepointOf e) c else savepoint x c
  | some f => f.within (savepointOf e) c

/-- The body does not pass over the failure. -/
def Failure.Leaves : Failure ε σ α → Prop
  | .inner f => f.passed = none
  | _ => True

/-- The failure ends the transaction, the one of the caller too. -/
def Failure.ends : Failure ε σ α → Bool
  | .inner f => f.ends
  | _ => false

/-- A transaction without a rollback, in which a call may fail. -/
def bareWith (e : ε) (f : Option (Failure ε σ α)) (x : EStateM ε σ α) : TxM ε σ α :=
  match f with
  | none => bare e x
  | some f => f.within (bareOf e)

/-- A transaction without a rollback in which a call fails whose error the body leaves with: it is
open afterwards, unless the failure has ended it. -/
theorem bareWith_some {f : Failure ε σ α} (hf : f.Leaves) (x : EStateM ε σ α) (t : σ) :
    ∃ err c, bareWith e (some f) x ⟨t, []⟩ = .error err c ∧
      (c = ⟨t, []⟩ ↔ ∀ g, f = .inner g → g.ends = true) := by
  rcases f with err | f | err
  · exact ⟨err, _, rfl, iff_of_true rfl nofun⟩
  · have hpassed : f.passed = none := hf
    refine ⟨f.error, f.after ⟨t, [t]⟩, ?_, ?_⟩
    · have happly := bareOf_apply e f.body t
      have hbody : f.body ⟨t, [t]⟩ = .error f.error (f.after ⟨t, [t]⟩) :=
        by rw [Fault.body, hpassed]
      rw [hbody] at happly
      exact happly
    · unfold Fault.after
      cases hends : f.ends
      · rw [if_neg (by simp)]
        refine iff_of_false (fun h => by cases h) fun h => ?_
        rw [h f rfl] at hends
        cases hends
      · rw [if_pos rfl]
        refine iff_of_true rfl fun g hg => ?_
        obtain rfl := Failure.inner.inj hg
        exact hends
  · exact ⟨err, _, bareOf_apply e _ t, iff_of_true rfl nofun⟩

/-- A savepoint that returns has done what its body does. -/
theorem savepointWith_ok {f : Option (Failure ε σ α)} {x : EStateM ε σ α} {c c' : Link σ} {a : α}
    (hf : ∀ g ∈ f, g.Leaves) (h : savepointWith e f x c = .ok a c') :
    x c.cur = .ok a c'.cur ∧ c'.opened = c.opened := by
  have hplain : savepoint x c = .ok a c' → x c.cur = .ok a c'.cur ∧ c'.opened = c.opened := by
    intro h
    rw [savepoint_eq] at h
    rcases hx : x c.cur with ⟨b, s⟩ | ⟨err, s⟩
    · rw [hx] at h
      cases h
      exact ⟨rfl, rfl⟩
    · rw [hx] at h
      cases h
  -- A savepoint that returns had no failure in it: a release inside of a caller's transaction
  -- commits nothing, so its failure does not come.
  rcases f with _ | ⟨err | f | err⟩
  · exact hplain h
  · cases h
  · have hpassed : f.passed = none := hf _ rfl
    have hrun : savepointWith e (some (.inner f)) x c = savepointOf e f.body c := rfl
    rw [hrun, savepointOf_apply, Fault.body, hpassed] at h
    cases h
  · by_cases hauto : c.autocommit = true
    · have hrun : savepointWith e (some (.closing err)) x c =
          savepointOf e (Failure.body (.closing err)) c := if_pos hauto
      rw [hrun, savepointOf_apply] at h
      cases h
    · have hrun : savepointWith e (some (.closing err)) x c = savepoint x c := if_neg hauto
      rw [hrun] at h
      exact hplain h

/-- A savepoint that fails leaves the connection as it was, unless the failure ended the transaction
of the caller: then what the caller had not committed is gone. -/
theorem savepointWith_error {f : Option (Failure ε σ α)} {x : EStateM ε σ α} {c c' : Link σ}
    {err : ε} (hf : ∀ g ∈ f, g.Leaves) (h : savepointWith e f x c = .error err c') :
    c' = if f.any Failure.ends then c.close else c := by
  have hplain : savepoint x c = .error err c' → c' = c := by
    intro h
    rw [savepoint_eq] at h
    rcases hx : x c.cur with ⟨b, s⟩ | ⟨err, s⟩
    · rw [hx] at h
      cases h
    · rw [hx] at h
      cases h
      rfl
  -- Without an injected failure the savepoint goes back; with one that ends the transaction
  -- nothing of it is left.
  rcases f with _ | ⟨err' | f | err'⟩
  · exact hplain h
  · cases h
    rfl
  · have hpassed : f.passed = none := hf _ rfl
    have hrun : savepointWith e (some (.inner f)) x c = savepointOf e f.body c := rfl
    rw [hrun, savepointOf_apply, Fault.body, hpassed] at h
    cases h
    unfold Fault.after
    have hany : (some (Failure.inner f)).any Failure.ends = f.ends := rfl
    rw [hany]
    cases hends : f.ends
    · rfl
    · rw [if_pos rfl, if_pos rfl, Link.close_push]
      rfl
  · by_cases hauto : c.autocommit = true
    · have hrun : savepointWith e (some (.closing err')) x c =
          savepointOf e (Failure.body (.closing err')) c := if_pos hauto
      rw [hrun, savepointOf_apply] at h
      cases h
      rw [Link.close_push]
      obtain ⟨s, opened⟩ := c
      have hnil : opened = [] := List.isEmpty_iff.1 hauto
      rw [hnil]
      rfl
    · have hrun : savepointWith e (some (.closing err')) x c = savepoint x c := if_neg hauto
      rw [hrun] at h
      exact hplain h

end Lib.Tx
