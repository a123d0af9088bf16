import Dbvm.Lib.Prog

/-!
# Transactions of a connection

A connection sees a state and remembers, for every transaction or savepoint that is open, the state
in which it was opened. With none open it is in autocommit mode: what a program writes is kept at
once. `immediate` and `savepoint` close what they open, also when their body fails. `bare` begins
and commits but does not roll back, so a failure of its body leaves the transaction open.
`immediateOf`, `savepointOf` and `bareOf` are the same around a body that is a program on the
connection: it may come back with the transaction ended (`Link.close`), and then there is nothing
left to commit, to release or to roll back.
-/

namespace Lib.Tx

open Lib.Prog

variable {ε σ α β : Type}

/-- A connection. -/
structure Link (σ : Type) where
  /-- The state the connection sees. -/
  cur : σ
  /-- The states in which the open transaction and its savepoints were opened, the innermost first.
  -/
  opened : List σ

/-- A program on a connection. -/
abbrev TxM (ε σ α : Type) := EStateM ε (Link σ) α

namespace Link

/-- No transaction is open. -/
def autocommit (c : Link σ) : Bool := c.opened.isEmpty

/-- The last state that was committed. -/
def committed (c : Link σ) : σ := c.opened.getLast?.getD c.cur

/-- The connection is closed: an open transaction is rolled back. -/
def close (c : Link σ) : Link σ := ⟨c.committed, []⟩

end Link

/-- Run a program on what the connection sees. -/
def lift (x : EStateM ε σ α) : TxM ε σ α := fun c =>
  match x c.cur with
  | .ok a s => .ok a { c with cur := s }
  | .error e s => .error e { c with cur := s }

/-- `BEGIN`; fails with `e` inside a transaction. -/
def begin (e : ε) : TxM ε σ Unit := fun c =>
  if c.autocommit then .ok () ⟨c.cur, [c.cur]⟩ else .error e c

/-- `COMMIT`; fails with `e` outside of a transaction. -/
def commit (e : ε) : TxM ε σ Unit := fun c =>
  if c.autocommit then .error e c else .ok () ⟨c.cur, []⟩

/-- `RELEASE` of a savepoint; fails with `e` where the savepoint is gone. -/
def release (e : ε) : TxM ε σ Unit := fun c =>
  if c.autocommit then .error e c else .ok () { c with opened := c.opened.tail }

/-- `ROLLBACK TO` a savepoint and `RELEASE`; without effect where the savepoint is gone. -/
def Link.rollbackTo (c : Link σ) : Link σ :=
  match c.opened with
  | [] => c
  | before :: rest => ⟨before, rest⟩

/-- `BEGIN`, `COMMIT` when the body returns, `ROLLBACK` when it fails. -/
def immediateOf (e : ε) (y : TxM ε σ α) : TxM ε σ α := do
  begin e
  match ← attempt y with
  | .ok a =>
    commit e
    return a
  | .error err =>
    modify Link.close
    throw err

/-- `SAVEPOINT`, `RELEASE` when the body returns, `ROLLBACK TO` and `RELEASE` when it fails. -/
def savepointOf (e : ε) (y : TxM ε σ α) : TxM ε σ α := do
  modify fun c => { c with opened := c.cur :: c.opened }
  match ← attempt y with
  | .ok a =>
    release e
    return a
  | .error err =>
    modify Link.rollbackTo
    throw err

/-- `BEGIN`, the body, `COMMIT`: the body may leave early. -/
def bareOf (e : ε) (y : TxM ε σ α) : TxM ε σ α := do
  begin e
  let a ← y
  commit e
  return a

/-- `immediateOf` around statements. -/
def immediate (e : ε) (x : EStateM ε σ α) : TxM ε σ α := do
  begin e
  match ← attempt (lift x) with
  | .ok a =>
    commit e
    return a
  | .error err =>
    modify Link.close
    throw err

/-- `savepointOf` around statements, which leave the savepoint where it is. -/
def savepoint (x : EStateM ε σ α) : TxM ε σ α := do
  let before ← reads Link.cur
  modify fun c => { c with opened := before :: c.opened }
  match ← attempt (lift x) with
  | .ok a =>
    modify fun c => { c with opened := c.opened.tail }
    return a
  | .error err =>
    modify fun c => ⟨before, c.opened.tail⟩
    throw err

/-- `bareOf` around statements. -/
def bare (e : ε) (x : EStateM ε σ α) : TxM ε σ α := do
  begin e
  let a ← lift x
  commit e
  return a

/-! ## What the brackets do -/

/-- In autocommit mode a transaction that fails leaves the connection as it was. -/
theorem immediate_of_autocommit {e : ε} {x : EStateM ε σ α} {s : σ} :
    immediate e x ⟨s, []⟩ = match x s with
      | .ok a s' => .ok a ⟨s', []⟩
      | .error err _ => .error err ⟨s, []⟩ := by
  have hb : begin e (⟨s, []⟩ : Link σ) = .ok () ⟨s, [s]⟩ := rfl
  unfold immediate
  rw [bind_of_ok hb]
  rcases hx : x s with ⟨a, s'⟩ | ⟨err, s'⟩
  · have ha : attempt (lift x) (⟨s, [s]⟩ : Link σ) = .ok (.ok a) ⟨s', [s]⟩ := by
      simp [attempt, lift, hx]
    rw [bind_of_ok ha]
    rfl
  · have ha : attempt (lift x) (⟨s, [s]⟩ : Link σ) = .ok (.error err) ⟨s', [s]⟩ := by
      simp [attempt, lift, hx]
    rw [bind_of_ok ha]
    rfl

/-- A savepoint that fails leaves the connection as it was, in or out of a transaction. -/
theorem savepoint_eq {x : EStateM ε σ α} {c : Link σ} :
    savepoint x c = match x c.cur with
      | .ok a s' => .ok a ⟨s', c.opened⟩
      | .error err _ => .error err c := by
  obtain ⟨s, opened⟩ := c
  unfold savepoint
  rw [reads_bind, bind_of_ok (modify_apply _ _)]
  rcases hx : x s with ⟨a, s'⟩ | ⟨err, s'⟩
  · have ha : attempt (lift x) (⟨s, s :: opened⟩ : Link σ) = .ok (.ok a) ⟨s', s :: opened⟩ := by
      simp [attempt, lift, hx]
    rw [bind_of_ok ha]
    rfl
  · have ha : attempt (lift x) (⟨s, s :: opened⟩ : Link σ) = .ok (.error err) ⟨s',
      s :: opened⟩ := by
      simp [attempt, lift, hx]
    rw [bind_of_ok ha]
    rfl

/-- On a connection, a savepoint is a program that puts the earlier state back when it fails. -/
theorem savepoint_eq_lift (x : EStateM ε σ α) :
    savepoint x = lift (Prog.savepoint (fun s _ => s) x) := by
  funext c
  rw [savepoint_eq]
  unfold lift Prog.savepoint
  rcases x c.cur with ⟨a, s'⟩ | ⟨err, s'⟩
  · rfl
  · rfl

/-- In autocommit mode so is a transaction. -/
theorem immediate_eq_lift {e : ε} (x : EStateM ε σ α) (s : σ) :
    immediate e x ⟨s, []⟩ = lift (Prog.savepoint (fun s _ => s) x) ⟨s, []⟩ := by
  rw [immediate_of_autocommit]
  unfold lift Prog.savepoint
  rcases x s with ⟨a, s'⟩ | ⟨err, s'⟩
  · rfl
  · rfl

/-- A transaction without a rollback leaves the connection inside it when its body fails. -/
theorem bare_of_autocommit {e : ε} {x : EStateM ε σ α} {s : σ} :
    bare e x ⟨s, []⟩ = match x s with
      | .ok a s' => .ok a ⟨s', []⟩
      | .error err s' => .error err ⟨s', [s]⟩ := by
  have hb : begin e (⟨s, []⟩ : Link σ) = .ok () ⟨s, [s]⟩ := rfl
  unfold bare
  rw [bind_of_ok hb]
  rcases hx : x s with ⟨a, s'⟩ | ⟨err, s'⟩
  · have ha : lift x (⟨s, [s]⟩ : Link σ) = .ok a ⟨s', [s]⟩ := by
      simp [lift, hx]
    rw [bind_of_ok ha]
    rfl
  · have ha : lift x (⟨s, [s]⟩ : Link σ) = .error err ⟨s', [s]⟩ := by
      simp [lift, hx]
    rw [bind_of_error ha]

/-- Inside a transaction it cannot begin. -/
theorem bare_of_open {e : ε} {x : EStateM ε σ α} {c : Link σ} (h : c.opened ≠ []) :
    bare e x c = .error e c := by
  have hauto : c.autocommit = false := by
    unfold Link.autocommit
    rcases hop : c.opened with _ | ⟨t, ts⟩
    · exact absurd hop h
    · rfl
  have hb : begin e c = .error e c := by
    unfold begin
    rw [hauto]
    rfl
  unfold bare
  rw [bind_of_error hb]

/-- Statements that return change the current state. -/
theorem lift_of_ok {x : EStateM ε σ α} {c : Link σ} {a : α} {s : σ} (h : x c.cur = .ok a s) :
    lift x c = .ok a ⟨s, c.opened⟩ := by
  unfold lift
  rw [h]

/-- Statements that fail leave what they have done to the current state. -/
theorem lift_of_error {x : EStateM ε σ α} {c : Link σ} {e : ε} {s : σ} (h : x c.cur = .error e s) :
    lift x c = .error e ⟨s, c.opened⟩ := by
  unfold lift
  rw [h]

/-! ## Bodies that come back with the transaction ended -/

/-- Outside of a transaction there is none to end. -/
@[simp] theorem Link.close_nil (s : σ) : (⟨s, []⟩ : Link σ).close = ⟨s, []⟩ := rfl

/-- Rolling back to a savepoint and releasing it gives the state it remembers. -/
@[simp] theorem Link.rollbackTo_cons (s t : σ) (rest : List σ) :
    (⟨s, t :: rest⟩ : Link σ).rollbackTo = ⟨t, rest⟩ := rfl

/-- Outside of a transaction there is no savepoint to go back to. -/
@[simp] theorem Link.rollbackTo_nil (s : σ) : (⟨s, []⟩ : Link σ).rollbackTo = ⟨s, []⟩ := rfl

/-- A transaction that SQLite ends inside the savepoints that were opened in it. -/
theorem Link.close_push (c : Link σ) (s : σ) :
    (⟨s, c.cur :: c.opened⟩ : Link σ).close = c.close := by
  obtain ⟨t, opened⟩ := c
  rcases opened with _ | ⟨u, opened⟩
  · rfl
  · show (⟨_, []⟩ : Link σ) = ⟨_, []⟩
    unfold Link.committed
    dsimp only
    rw [List.getLast?_cons_cons]
    rfl

/-- Around statements the transaction is the one of `immediate`. -/
theorem immediateOf_lift (e : ε) (x : EStateM ε σ α) : immediateOf e (lift x) = immediate e x := rfl

/-- Around statements it is the one of `bare`. -/
theorem bareOf_lift (e : ε) (x : EStateM ε σ α) : bareOf e (lift x) = bare e x := rfl

/-- A transaction around a body, by what becomes of the body. -/
theorem immediateOf_apply (e : ε) (y : TxM ε σ α) (s : σ) :
    immediateOf e y ⟨s, []⟩ = match y ⟨s, [s]⟩ with
      | .ok a c => if c.autocommit then .error e c else .ok a ⟨c.cur, []⟩
      | .error err c => .error err c.close := by
  have hb : begin e (⟨s, []⟩ : Link σ) = .ok () ⟨s, [s]⟩ := rfl
  unfold immediateOf
  rw [bind_of_ok hb]
  rcases hy : y ⟨s, [s]⟩ with ⟨a, c⟩ | ⟨err, c⟩
  · have ha : attempt y (⟨s, [s]⟩ : Link σ) = .ok (.ok a) c := by simp [attempt, hy]
    rw [bind_of_ok ha]
    dsimp only
    by_cases hc : c.autocommit = true
    · rw [if_pos hc]
      exact bind_of_error (by rw [commit, if_pos hc])
    · rw [if_neg hc]
      exact bind_of_ok (by rw [commit, if_neg hc])
  · have ha : attempt y (⟨s, [s]⟩ : Link σ) = .ok (.error err) c := by simp [attempt, hy]
    rw [bind_of_ok ha]
    rfl

/-- A savepoint around a body, by what becomes of the body. -/
theorem savepointOf_apply (e : ε) (y : TxM ε σ α) (c : Link σ) :
    savepointOf e y c = match y ⟨c.cur, c.cur :: c.opened⟩ with
      | .ok a d => if d.autocommit then .error e d else .ok a ⟨d.cur, d.opened.tail⟩
      | .error err d => .error err d.rollbackTo := by
  unfold savepointOf
  rw [bind_of_ok (modify_apply _ _)]
  rcases hy : y ⟨c.cur, c.cur :: c.opened⟩ with ⟨a, d⟩ | ⟨err, d⟩
  · have ha : attempt y (⟨c.cur, c.cur :: c.opened⟩ : Link σ) = .ok (.ok a) d :=
      by simp [attempt, hy]
    rw [bind_of_ok ha]
    dsimp only
    by_cases hd : d.autocommit = true
    · rw [if_pos hd]
      exact bind_of_error (by rw [release, if_pos hd])
    · rw [if_neg hd]
      exact bind_of_ok (by rw [release, if_neg hd])
  · have ha : attempt y (⟨c.cur, c.cur :: c.opened⟩ : Link σ) = .ok (.error err) d := by
      simp [attempt, hy]
    rw [bind_of_ok ha]
    rfl

/-- A body that returns with the transaction ended: there is no savepoint to release. -/
theorem savepointOf_of_ended {e : ε} {y : TxM ε σ α} {c : Link σ} {a : α} {s : σ}
    (h : y ⟨c.cur, c.cur :: c.opened⟩ = .ok a ⟨s, []⟩) : savepointOf e y c = .error e ⟨s, []⟩ := by
  rw [savepointOf_apply, h]
  rfl

/-- A transaction without a rollback around a body, by what becomes of the body. -/
theorem bareOf_apply (e : ε) (y : TxM ε σ α) (s : σ) :
    bareOf e y ⟨s, []⟩ = match y ⟨s, [s]⟩ with
      | .ok a c => if c.autocommit then .error e c else .ok a ⟨c.cur, []⟩
      | .error err c => .error err c := by
  have hb : begin e (⟨s, []⟩ : Link σ) = .ok () ⟨s, [s]⟩ := rfl
  unfold bareOf
  rw [bind_of_ok hb]
  rcases hy : y ⟨s, [s]⟩ with ⟨a, c⟩ | ⟨err, c⟩
  · rw [bind_of_ok hy]
    dsimp only
    by_cases hc : c.autocommit = true
    · rw [if_pos hc]
      exact bind_of_error (by rw [commit, if_pos hc])
    · rw [if_neg hc]
      exact bind_of_ok (by rw [commit, if_neg hc])
  · rw [bind_of_error hy]

/-- Around statements a savepoint is the one of `savepoint`. -/
theorem savepointOf_lift (e : ε) (x : EStateM ε σ α) : savepointOf e (lift x) = savepoint x := by
  funext c
  rw [savepointOf_apply, savepoint_eq]
  rcases hx : x c.cur with ⟨a, s⟩ | ⟨err, s⟩
  · have hlift : lift x (⟨c.cur, c.cur :: c.opened⟩ : Link σ) = .ok a ⟨s, c.cur :: c.opened⟩ :=
      lift_of_ok hx
    rw [hlift]
    rfl
  · have hlift : lift x (⟨c.cur, c.cur :: c.opened⟩ : Link σ) = .error err ⟨s, c.cur :: c.opened⟩ :=
      lift_of_error hx
    rw [hlift]
    rfl

end Lib.Tx
