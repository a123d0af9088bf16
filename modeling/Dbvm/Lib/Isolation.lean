import Mathlib.Data.Nat.Notation
import Mathlib.Logic.Relation
import Mathlib.Logic.Function.Basic
import Mathlib.Order.Nat
import Dbvm.Lib.Prog

/-!
# Connections to one database

Operations of several connections to one state, as the interleavings that snapshot isolation
permits. An operation executes statements outside of a transaction, each of which sees the latest
commit, and then nothing or one transaction. A transaction sees the state of its first statement; it
commits only if nothing else was committed since. An operation whose earlier statements would answer
the same in the state of its transaction (`Task.Fresh`) takes effect at one point, so a run of such
operations is a serial one (`serial_of_fresh`).
-/

namespace Lib.Isolation

open Lib.Prog Relation

variable {ε σ β ι Op : Type}

/-! ## Operations -/

/-- The rest of an operation. -/
inductive Task (ε σ β : Type) where
  /-- It has returned. -/
  | done
  /-- It has failed. -/
  | fail (e : ε)
  /-- A statement outside of a transaction. -/
  | stmt (query : σ → β) (rest : β → Task ε σ β)
  /-- One transaction. -/
  | tx (body : EStateM ε σ Unit)

namespace Task

/-- The operation when no other connection commits. -/
def exec : Task ε σ β → EStateM ε σ Unit
  | .done => pure ()
  | .fail e => throw e
  | .stmt query rest => fun s => (rest (query s)).exec s
  | .tx body => savepoint (fun s _ => s) body

/-- What is left after statements that saw the given states. -/
def after : Task ε σ β → List σ → Task ε σ β
  | t, [] => t
  | .stmt query rest, s :: seen => (rest (query s)).after seen
  | t, _ :: _ => t

/-- The statements would answer in `s` what they have answered. -/
def Fresh : Task ε σ β → List σ → σ → Prop
  | _, [], _ => True
  | .stmt query rest, s' :: seen, s => query s' = query s ∧ (rest (query s')).Fresh seen s
  | _, _ :: _, _ => True

/-- What is left of a fresh operation does what the whole would do. -/
theorem exec_after {s : σ} : ∀ {seen : List σ} {t : Task ε σ β}, t.Fresh seen s →
    (t.after seen).exec s = t.exec s
  | [], t, _ => by rw [after]
  | s' :: seen, .stmt query rest, h => by
    obtain ⟨hq, hrest⟩ := h
    rw [after, exec_after hrest, exec, hq]
  | _ :: _, .done, _ => rfl
  | _ :: _, .fail e, _ => rfl
  | _ :: _, .tx body, _ => rfl

/-- A statement is fresh in the state it sees. -/
theorem fresh_self (s : σ) : ∀ t : Task ε σ β, t.Fresh [s] s
  | .stmt query rest => ⟨rfl, by rw [Fresh]; trivial⟩
  | .done => trivial
  | .fail e => trivial
  | .tx body => trivial

/-- One more snapshot seen is one more statement run. -/
theorem after_append (s : σ) : ∀ (seen : List σ) (t : Task ε σ β),
    t.after (seen ++ [s]) = (t.after seen).after [s]
  | [], t => by rw [List.nil_append, after]
  | s' :: seen, .stmt query rest => by
    rw [List.cons_append, after, after_append s seen, after]
  | s' :: seen, .done => rfl
  | s' :: seen, .fail e => rfl
  | s' :: seen, .tx body => rfl

end Task

/-! ## Interleavings -/

/-- Where a connection is. -/
inductive Phase (Op σ : Type) where
  /-- Between operations. -/
  | idle
  /-- Outside of a transaction; the statements of the operation so far saw these states. -/
  | auto (op : Op) (seen : List σ)
  /-- In the transaction of the operation, with its snapshot and the number of commits before that.
  -/
  | opened (op : Op) (seen : List σ) (snap : σ) (start : ℕ)

/-- The database and its connections. -/
structure World (ι Op σ : Type) where
  /-- The latest commit. -/
  db : σ
  /-- How many commits there were. -/
  commits : ℕ
  /-- The connections. -/
  phase : ι → Phase Op σ
  /-- The operations that returned, in the order in which they took effect. -/
  log : List Op

namespace World

/-- Every connection is between operations. -/
def init (s : σ) : World ι Op σ := ⟨s, 0, fun _ => .idle, []⟩

variable [DecidableEq ι]

/-- A connection goes on. -/
def set (w : World ι Op σ) (i : ι) (ph : Phase Op σ) : World ι Op σ :=
  { w with phase := Function.update w.phase i ph }

/-- An operation took effect on its connection. -/
def finish (w : World ι Op σ) (i : ι) (op : Op) : World ι Op σ :=
  { w.set i .idle with log := w.log ++ [op] }

/-- An operation wrote. -/
def commit (w : World ι Op σ) (i : ι) (op : Op) (s : σ) : World ι Op σ :=
  { w.finish i op with db := s, commits := w.commits + 1 }

end World

/-- One step of one connection. `C` holds, of the states an operation saw and the state of its
transaction, where the operation takes effect. -/
inductive Step [DecidableEq ι] (task : Op → Task ε σ β) (C : Op → List σ → σ → Prop) :
    World ι Op σ → World ι Op σ → Prop where
  /-- An operation starts. -/
  | start {w : World ι Op σ} (i : ι) (op : Op) (hidle : w.phase i = .idle) :
      Step task C w (w.set i (.auto op []))
  /-- A statement outside of a transaction sees the latest commit. -/
  | ask {w : World ι Op σ} {i : ι} {op : Op} {seen : List σ} {query : σ → β} {rest : β → Task ε σ β}
      (hph : w.phase i = .auto op seen) (hstmt : (task op).after seen = .stmt query rest) :
      Step task C w (w.set i (.auto op (seen ++ [w.db])))
  /-- The operation returns with a statement. -/
  | finish {w : World ι Op σ} {i : ι} {op : Op} {seen : List σ} (hph : w.phase i = .auto op seen)
      (hdone : (task op).after (seen ++ [w.db]) = .done) (hC : C op seen w.db) :
        Step task C w (w.finish i op)
  /-- A transaction that writes nothing sees one state, whatever is committed meanwhile. -/
  | read {w : World ι Op σ} {i : ι} {op : Op} {seen : List σ} {body : EStateM ε σ Unit}
      (hph : w.phase i = .auto op seen) (htx : (task op).after seen = .tx body)
      (hbody : body w.db = .ok () w.db) (hC : C op seen w.db) : Step task C w (w.finish i op)
  /-- A transaction takes its snapshot. -/
  | begin {w : World ι Op σ} {i : ι} {op : Op} {seen : List σ} {body : EStateM ε σ Unit}
      (hph : w.phase i = .auto op seen) (htx : (task op).after seen = .tx body) :
      Step task C w (w.set i (.opened op seen w.db w.commits))
  /-- A transaction commits what it wrote, if nothing was committed since its snapshot. -/
  | commit {w : World ι Op σ} {i : ι} {op : Op} {seen : List σ} {snap s : σ}
      {body : EStateM ε σ Unit}
      (hph : w.phase i = .opened op seen snap w.commits) (htx : (task op).after seen = .tx body)
      (hbody : body snap = .ok () s) (hC : C op seen snap) : Step task C w (w.commit i op s)
  /-- An operation fails; nothing of it is kept. -/
  | abort {w : World ι Op σ} (i : ι) : Step task C w (w.set i .idle)

/-! ## Serial runs -/

section Serial

variable {task : Op → Task ε σ β}

/-- A transaction that is still current has the latest commit for its snapshot. -/
structure Serial (task : Op → Task ε σ β) (s₀ : σ) (w : World ι Op σ) : Prop where
  /-- The operations that returned, one after the other, give the latest commit. -/
  run : w.log.forM (fun op => (task op).exec) s₀ = .ok () w.db
  /-- Snapshots are not newer than the latest commit. -/
  le : ∀ i op seen snap n, w.phase i = .opened op seen snap n → n ≤ w.commits
  /-- A snapshot after which nothing was committed. -/
  snap : ∀ i op seen snap, w.phase i = .opened op seen snap w.commits → snap = w.db

variable {s₀ : σ} {w w' : World ι Op σ}

/-- The world begins with an empty log. -/
theorem Serial.init : Serial task s₀ (World.init (ι := ι) s₀) :=
  ⟨rfl, (fun _ _ _ _ _ h => nomatch h), fun _ _ _ _ h => nomatch h⟩

/-- An operation that takes effect on the latest commit is the next of the serial run. -/
theorem Serial.next (h : Serial task s₀ w) {op : Op} {s : σ}
    (hop : (task op).exec w.db = .ok () s) :
    (w.log ++ [op]).forM (fun op => (task op).exec) s₀ = .ok () s := by
  rw [List.forM_eq_forM, List.forM_append, bind_of_ok (by rw [← List.forM_eq_forM]; exact h.run),
    List.forM_cons,
    bind_of_ok hop]
  rfl

variable [DecidableEq ι]

/-- An operation that goes on without a commit leaves the log as it is. -/
theorem Serial.set (h : Serial task s₀ w) {i : ι} {ph : Phase Op σ}
    (hph : ∀ op seen snap n, ph = .opened op seen snap n → n ≤ w.commits ∧
      (n = w.commits → snap = w.db)) :
    Serial task s₀ (w.set i ph) := by
  refine ⟨h.run, fun j op seen snap n hj => ?_, fun j op seen snap hj => ?_⟩
  · rcases eq_or_ne j i with rfl | hne
    · exact (hph op seen snap n (by simpa [World.set] using hj)).1
    · exact h.le j op seen snap n (by simpa [World.set, hne] using hj)
  · rcases eq_or_ne j i with rfl | hne
    · exact (hph op seen snap _ (by simpa [World.set] using hj)).2 rfl
    · exact h.snap j op seen snap (by simpa [World.set, hne] using hj)

/-- An operation that ends without a write may be put into the order where it ends. -/
theorem Serial.finish (h : Serial task s₀ w) {i : ι} {op : Op}
    (hop : (task op).exec w.db = .ok () w.db) :
    Serial task s₀ (w.finish i op) := by
  have hset : Serial task s₀ (w.set i .idle) := h.set fun _ _ _ _ h => nomatch h
  exact ⟨h.next hop, hset.le, hset.snap⟩

/-- An operation that commits takes its place in the order. -/
theorem Serial.commit (h : Serial task s₀ w) {i : ι} {op : Op} {s : σ}
    (hop : (task op).exec w.db = .ok () s) :
    Serial task s₀ (w.commit i op s) := by
  have hset : Serial task s₀ (w.set i .idle) := h.set fun _ _ _ _ h => nomatch h
  refine ⟨h.next hop, fun j op seen snap n hj => le_trans (hset.le j op seen snap n hj)
    (Nat.le_succ _), ?_⟩
  -- The snapshots of the others are older than this commit.
  intro j op seen snap hj
  exact absurd (hset.le j op seen snap _ hj) (Nat.not_succ_le_self _)

/-- Every step of the world keeps it serial when the operations are fresh where they take effect. -/
theorem Serial.step (h : Serial task s₀ w)
    (hstep : Step task (fun op seen s => (task op).Fresh seen s) w w') : Serial task s₀ w' := by
  -- Only the end of an operation and a commit put something into the history.
  cases hstep with
  | start i op hidle => exact h.set fun _ _ _ _ h => nomatch h
  | ask hph hstmt => exact h.set fun _ _ _ _ h => nomatch h
  | finish hph hdone hfresh =>
    refine h.finish ?_
    rw [← Task.exec_after hfresh, ← Task.exec_after (Task.fresh_self w.db _),
      ← Task.after_append, hdone]
    rfl
  | read hph htx hbody hfresh =>
    refine h.finish ?_
    rw [← Task.exec_after hfresh, htx]
    exact savepoint_eq_ok.2 hbody
  | begin hph htx =>
    refine h.set fun op seen snap n hopen => ?_
    cases hopen
    exact ⟨le_refl _, fun _ => rfl⟩
  | commit hph htx hbody hfresh =>
    have hsnap := h.snap _ _ _ _ hph
    subst hsnap
    refine h.commit ?_
    rw [← Task.exec_after hfresh, htx]
    exact savepoint_eq_ok.2 hbody
  | abort i => exact h.set fun _ _ _ _ h => nomatch h

/-- A run whose operations are fresh where they take effect is the serial run of those that
returned. -/
theorem serial_of_fresh
    (h : ReflTransGen (Step task fun op seen s => (task op).Fresh seen s) (World.init s₀) w) :
    w.log.forM (fun op => (task op).exec) s₀ = .ok () w.db := by
  have hserial : Serial task s₀ w := by
    induction h with
    | refl => exact Serial.init
    | tail _ hstep ih => exact ih.step hstep
  exact hserial.run

end Serial

end Lib.Isolation
