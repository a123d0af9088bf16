import Mathlib.Logic.Basic
import Mathlib.Data.List.Basic
import Mathlib.Tactic.Basic

/-!
# Replays of writes

A map from keys to values is written to, one key at a time. Before a write, keys that have no value
yet get one (the directories above a file). A sequence of writes is replayed on a map twice, the
second time with other values. The two results are the same if and only if every write whose value
is another one the second time is followed by a write to the same key: only the last write to a key
is seen in the end.
-/

namespace Lib.Replay

variable {P V : Type} [DecidableEq P]

/-- A write to a key. -/
structure Write (P V : Type) where
  /-- Keys that get a value first, if they have none. -/
  missing : List P
  /-- The value that they get. -/
  filler : V
  /-- The key. -/
  key : P
  /-- The value. -/
  val : V

/-- The same write with another value. -/
def Write.revalue (f : V → V) (w : Write P V) : Write P V := { w with val := f w.val }

/-- One write. -/
def Write.apply (w : Write P V) (t : P → Option V) : P → Option V := fun p =>
  if p = w.key then some w.val
  else if p ∈ w.missing ∧ t p = none then some w.filler else t p

/-- All writes, in order. -/
def replay (ws : List (Write P V)) (t : P → Option V) : P → Option V :=
  ws.foldl (fun t w => w.apply t) t

/-- No write changes nothing. -/
@[simp] theorem replay_nil (t : P → Option V) : replay [] t = t := rfl

/-- Writes are replayed from the first on. -/
@[simp] theorem replay_cons (w : Write P V) (ws : List (Write P V)) (t : P → Option V) :
    replay (w :: ws) t = replay ws (w.apply t) := rfl

/-- Two runs of writes are replayed one after the other. -/
theorem replay_append (ws ws' : List (Write P V)) (t : P → Option V) :
    replay (ws ++ ws') t = replay ws' (replay ws t) := List.foldl_append

omit [DecidableEq P] in
/-- Every pair whose second part is not good is followed by one with the same first part. -/
def LastGood {α : Type} (good : α → Prop) : List (P × α) → Prop
  | [] => True
  | x :: xs => (¬ good x.2 → ∃ a, (x.1, a) ∈ xs) ∧ LastGood good xs

omit [DecidableEq P] in
/-- An item that is not good must have a later one at its key. -/
theorem lastGood_cons {α : Type} {good : α → Prop} {x : P × α} {xs : List (P × α)} :
    LastGood good (x :: xs) ↔ (¬ good x.2 → ∃ a, (x.1, a) ∈ xs) ∧ LastGood good xs := Iff.rfl

omit [DecidableEq P] in
/-- Where every item is good, the last one of each key is. -/
theorem LastGood.of_forall {α : Type} {good : α → Prop} :
    ∀ {xs : List (P × α)}, (∀ x ∈ xs, good x.2) → LastGood good xs
  | [], _ => trivial
  | x :: xs, h => ⟨fun hx => absurd (h x (by simp)) hx, LastGood.of_forall fun y hy =>
      h y (by simp [hy])⟩

omit [DecidableEq P] in
/-- Whether the last items are good may be asked before or after a map. -/
theorem lastGood_map {α β : Type} {good : β → Prop} (g : α → β) : ∀ {xs : List (P × α)},
    LastGood good (xs.map fun x => (x.1, g x.2)) ↔ LastGood (fun a => good (g a)) xs
  | [] => Iff.rfl
  | x :: xs => by
    have hmem : (∃ b, (x.1, b) ∈ xs.map fun x => (x.1, g x.2)) ↔ ∃ a, (x.1, a) ∈ xs := by
      constructor
      · rintro ⟨b, hb⟩
        obtain ⟨y, hy, he⟩ := List.mem_map.1 hb
        exact ⟨y.2, by rw [← congrArg Prod.fst he]; exact hy⟩
      · rintro ⟨a, ha⟩
        exact ⟨g a, List.mem_map.2 ⟨(x.1, a), ha, rfl⟩⟩
    rw [List.map_cons, lastGood_cons, lastGood_cons, lastGood_map g, hmem]

/-- Two maps that differ at the keys `B` only, where both have values. -/
structure DifferAt (B : P → Prop) (t s : P → Option V) : Prop where
  /-- The other keys. -/
  same : ∀ p, ¬ B p → t p = s p
  /-- The keys of `B`. -/
  differ : ∀ p, B p → ∃ v v', t p = some v ∧ s p = some v' ∧ v ≠ v'

omit [DecidableEq P] in
/-- Two states that differ exactly at the bad keys are equal iff there is no bad key. -/
theorem DifferAt.eq_iff {B : P → Prop} {t s : P → Option V} (h : DifferAt B t s) :
    t = s ↔ ∀ p, ¬ B p := by
  constructor
  · rintro rfl p hp
    obtain ⟨v, v', hv, hv', hne⟩ := h.differ p hp
    rw [hv] at hv'
    exact hne (Option.some.inj hv')
  · exact fun hB => funext fun p => h.same p (hB p)

/-- After a write and the same write with another value, the maps differ at the key if the values
do, and else where they did. -/
theorem DifferAt.write {B : P → Prop} {t s : P → Option V} (h : DifferAt B t s) (f : V → V)
    (w : Write P V) :
    DifferAt (fun p => (p = w.key ∧ f w.val ≠ w.val) ∨ (p ≠ w.key ∧ B p)) (w.apply t)
    ((w.revalue f).apply s) where
  same p hp := by
    push Not at hp
    unfold Write.apply Write.revalue
    dsimp only
    by_cases hkey : p = w.key
    · rw [if_pos hkey, if_pos hkey, hp.1 hkey]
    · rw [if_neg hkey, if_neg hkey, h.same p (hp.2 hkey)]
  differ p hp := by
    unfold Write.apply Write.revalue
    dsimp only
    rcases hp with ⟨hkey, hne⟩ | ⟨hkey, hB⟩
    · exact ⟨w.val, f w.val, if_pos hkey, if_pos hkey, Ne.symm hne⟩
    · obtain ⟨v, v', hv, hv', hne⟩ := h.differ p hB
      -- A key that has a value keeps it.
      have hkeep : ∀ x : V, ¬ (p ∈ w.missing ∧ some x = none) := fun x hx => by cases hx.2
      refine ⟨v, v', ?_, ?_, hne⟩
      · rw [if_neg hkey, hv, if_neg (hkeep v)]
      · rw [if_neg hkey, hv', if_neg (hkeep v')]

/-- The replays of writes on maps that differ: they are the same if and only if every key at which
the maps differ is written to, and no write with another value is the last one to its key. -/
theorem DifferAt.replay_eq_iff (f : V → V) :
    ∀ (ws : List (Write P V)) {B : P → Prop} {t s : P → Option V},
    DifferAt B t s → (replay ws t = replay (ws.map (Write.revalue f)) s ↔
      (∀ p, B p → ∃ w ∈ ws, w.key = p) ∧ LastGood (fun v => f v = v)
      (ws.map fun w => (w.key, w.val)))
  | [], B, t, s, h => by
    rw [List.map_nil, replay_nil, replay_nil, h.eq_iff]
    constructor
    · exact fun hB => ⟨fun p hp => absurd hp (hB p), trivial⟩
    · rintro ⟨hB, -⟩ p hp
      obtain ⟨w, hw, -⟩ := hB p hp
      cases hw
  | w :: ws, B, t, s, h => by
    rw [List.map_cons, replay_cons, replay_cons, DifferAt.replay_eq_iff f ws (h.write f w),
      List.map_cons]
    -- A key is good if its last write is: this write, unless a later one has the key.
    have hlast : (∃ v, (w.key, v) ∈ ws.map fun w => (w.key, w.val)) ↔ ∃ w' ∈ ws,
      w'.key = w.key := by
      constructor
      · rintro ⟨v, hv⟩
        obtain ⟨w', hw', he⟩ := List.mem_map.1 hv
        exact ⟨w', hw', congrArg Prod.fst he⟩
      · rintro ⟨w', hw', he⟩
        exact ⟨w'.val, List.mem_map.2 ⟨w', hw', by rw [he]⟩⟩
    rw [lastGood_cons, hlast]
    constructor
    · rintro ⟨hB, hrest⟩
      refine ⟨fun p hp => ?_, fun hne => hB w.key (Or.inl ⟨rfl, hne⟩), hrest⟩
      by_cases hkey : p = w.key
      · exact ⟨w, by simp, hkey.symm⟩
      · obtain ⟨w', hw', he⟩ := hB p (Or.inr ⟨hkey, hp⟩)
        exact ⟨w', by simp [hw'], he⟩
    · rintro ⟨hB, hne, hrest⟩
      refine ⟨fun p hp => ?_, hrest⟩
      rcases hp with ⟨rfl, hdiff⟩ | ⟨hkey, hp⟩
      · exact hne hdiff
      · obtain ⟨w', hw', he⟩ := hB p hp
        rcases List.mem_cons.1 hw' with rfl | hw'
        · exact absurd he.symm hkey
        · exact ⟨w', hw', he⟩

/-- The replays of writes on one map, once with their values and once with others, are the same if
and only if every write whose value is another one is followed by a write to the same key. -/
theorem replay_eq_iff (f : V → V) (ws : List (Write P V)) (t : P → Option V) :
    replay ws t = replay (ws.map (Write.revalue f)) t ↔
      LastGood (fun v => f v = v) (ws.map fun w => (w.key, w.val)) := by
  have hsame : DifferAt (fun _ => False) t t := ⟨fun _ _ => rfl, fun _ h => h.elim⟩
  rw [hsame.replay_eq_iff f ws]
  exact ⟨fun h => h.2, fun h => ⟨fun _ hp => hp.elim, h⟩⟩

end Lib.Replay
