import Mathlib.Data.List.Perm.Subperm
import Mathlib.Logic.Relation
import Dbvm.Lib.Table

/-!
# Trees in a table of nodes

Nodes are kept in a table under their numbers, and every node lists the numbers of its children.
`Reach` is the walk from a node to what is below it. Two loops go over everything below a node:
`collect` appends the children of each number of a growing list, and `prune` takes numbers from a
stack, removes their nodes and pushes their children.

`prune` removes exactly what is reached from the stack, in every table (`get?_prune_of_reach`,
`get?_prune_of_not_reach`). `collect` comes to an end where every child has one parent and no walk
comes back, and then it lists exactly what is reached, each number once (`collect_spec`).
-/

namespace Lib.Forest

/-! ## Collecting -/

section Collect

variable {α : Type} {succ : α → List α}

/-- The loop over a list that grows at its end while it is gone through: at the position `i` the
children of the entry there are appended. `none` when the fuel runs out. -/
def collect (succ : α → List α) : ℕ → List α → ℕ → Option (List α)
  | 0, _, _ => none
  | fuel + 1, out, i =>
    match out[i]? with
    | none => some out
    | some a => collect succ fuel (out ++ succ a) (i + 1)

/-- A walk from a node to what is below it. -/
abbrev Walk (succ : α → List α) : α → α → Prop := Relation.ReflTransGen fun p c => c ∈ succ p

/-- Every child has one parent, no walk comes back, and no child is listed twice. -/
structure Branching (succ : α → List α) : Prop where
  /-- The parent. -/
  parent : ∀ p q c, c ∈ succ p → c ∈ succ q → p = q
  /-- No way back. -/
  forth : ∀ p c, c ∈ succ p → ¬ Walk succ c p
  /-- The lists. -/
  once : ∀ p, (succ p).Nodup

/-- What holds of the list `out` when the entries before `i` have had their turn. -/
structure Collecting (succ : α → List α) (a : α) (out : List α) (i : ℕ) : Prop where
  /-- No entry is there twice. -/
  nodup : out.Nodup
  /-- The position. -/
  bound : i ≤ out.length
  /-- The first entry. -/
  start : a ∈ out
  /-- Every entry is reached. -/
  sound : ∀ x ∈ out, Walk succ a x
  /-- The children of the entries that have had their turn are there. -/
  closed : ∀ j x, j < i → out[j]? = some x → ∀ c ∈ succ x, c ∈ out
  /-- Every other entry is a child of one that has had its turn. -/
  source : ∀ x ∈ out, x = a ∨ ∃ j p, j < i ∧ out[j]? = some p ∧ x ∈ succ p

/-- The collection starts with the node itself. -/
theorem collecting_start (succ : α → List α) (a : α) : Collecting succ a [a] 0 where
  nodup := List.nodup_singleton a
  bound := Nat.zero_le _
  start := List.mem_singleton_self a
  sound x hx := by
    rw [List.mem_singleton.1 hx]
  closed j x hj := absurd hj (Nat.not_lt_zero j)
  source x hx := Or.inl (List.mem_singleton.1 hx)

/-- One turn. A child cannot be there yet: its only parent has its turn now, and the start is no
child of what is below it. -/
theorem Collecting.turn (hs : Branching succ) {a x : α} {out : List α} {i : ℕ}
    (h : Collecting succ a out i) (hx : out[i]? = some x) :
    Collecting succ a (out ++ succ x) (i + 1) := by
  have hmem : x ∈ out := List.mem_of_getElem? hx
  have hlt : i < out.length := (List.getElem?_eq_some_iff.1 hx).1
  have hkeep : ∀ j, j < i + 1 → (out ++ succ x)[j]? = out[j]? :=
    fun j hj => List.getElem?_append_left (by omega)
  -- A successor of `x` was not met before: it would have come from another node, and every node
  -- has one parent.
  have hnew : ∀ c ∈ succ x, c ∉ out := by
    intro c hc hthere
    rcases h.source c hthere with rfl | ⟨j, p, hj, hp, hcp⟩
    · exact hs.forth x c hc (h.sound x hmem)
    · have hsame : p = x := hs.parent p x c hcp hc
      rw [hsame] at hp
      have hij : j = i := (List.getElem?_inj (by omega) h.nodup).1 (hp.trans hx.symm)
      omega
  refine ⟨?_, ?_, ?_, ?_, ?_, ?_⟩
  · exact h.nodup.append (hs.once x) fun c hc hc' => hnew c hc' hc
  · rw [List.length_append]
    omega
  · exact List.mem_append_left _ h.start
  · intro y hy
    rcases List.mem_append.1 hy with hy | hy
    · exact h.sound y hy
    · exact (h.sound x hmem).tail hy
  · intro j y hj hy c hc
    rw [hkeep j hj] at hy
    rcases Nat.lt_succ_iff_lt_or_eq.1 hj with hj | rfl
    · exact List.mem_append_left _ (h.closed j y hj hy c hc)
    · rw [hx] at hy
      rw [← Option.some.inj hy] at hc
      exact List.mem_append_right _ hc
  · intro y hy
    rcases List.mem_append.1 hy with hy | hy
    · rcases h.source y hy with rfl | ⟨j, p, hj, hp, hyp⟩
      · exact Or.inl rfl
      · exact Or.inr ⟨j, p, by omega, (hkeep j (by omega)).trans hp, hyp⟩
    · exact Or.inr ⟨i, x, by omega, (hkeep i (by omega)).trans hx, hy⟩

/-- At the end the list is closed under children. -/
theorem Collecting.mem_iff {a : α} {out : List α} {i : ℕ} (h : Collecting succ a out i)
    (hend : out[i]? = none) (x : α) :
    x ∈ out ↔ Walk succ a x := by
  refine ⟨h.sound x, fun hwalk => ?_⟩
  induction hwalk with
  | refl => exact h.start
  | @tail p c _ hc ih =>
    obtain ⟨j, hj⟩ := List.mem_iff_getElem?.1 ih
    have hlt : j < out.length := (List.getElem?_eq_some_iff.1 hj).1
    rw [List.getElem?_eq_none_iff] at hend
    exact h.closed j p (by omega) hj c hc

/-- With enough fuel the collection ends, and holds exactly the nodes that can be walked to. -/
theorem Collecting.run (hs : Branching succ) {a : α} {U : List α}
    (hU : ∀ x, Walk succ a x → x ∈ U) (fuel : ℕ) :
    ∀ {out : List α} {i : ℕ}, Collecting succ a out i → U.length < fuel + i →
      ∃ l, collect succ fuel out i = some l ∧ l.Nodup ∧ ∀ x, x ∈ l ↔ Walk succ a x := by
  have hroom : ∀ {out : List α} {i : ℕ}, Collecting succ a out i → out.length ≤ U.length := fun h =>
    (List.subperm_of_subset h.nodup fun x hx => hU x (h.sound x hx)).length_le
  induction fuel with
  | zero =>
    intro out i h hfuel
    have hbound := h.bound
    have hle := hroom h
    omega
  | succ fuel ih =>
    intro out i h hfuel
    rw [collect]
    rcases hi : out[i]? with _ | x
    · exact ⟨out, rfl, h.nodup, h.mem_iff hi⟩
    · exact ih (h.turn hs hi) (by omega)

/-- With one round for every node and one more, the loop lists what is reached, each number once. -/
theorem collect_spec (hs : Branching succ) {a : α} {U : List α} (hU : ∀ x, Walk succ a x → x ∈ U) :
    ∃ l, collect succ (U.length + 1) [a] 0 = some l ∧ l.Nodup ∧ ∀ x, x ∈ l ↔ Walk succ a x :=
  Collecting.run hs hU (U.length + 1) (collecting_start succ a) (by omega)

end Collect

/-! ## Pruning -/

section Prune

variable {ι N : Type} [DecidableEq ι] {kids : N → List ι} {t : Table ι N} {stack : List ι} {i j : ι}

/-- The children of a number; none when there is no such node. -/
def next (kids : N → List ι) (t : Table ι N) (i : ι) : List ι := ((t.get? i).map kids).getD []

/-- A walk from a number to what is below it. -/
abbrev Reach (kids : N → List ι) (t : Table ι N) : ι → ι → Prop := Walk (next kids t)

/-- The successors of a node are its children in the table. -/
theorem mem_next {p c : ι} : c ∈ next kids t p ↔ ∃ n, t.get? p = some n ∧ c ∈ kids n := by
  unfold next
  rcases t.get? p with _ | n
  · simp
  · simp

/-- The table without a key. -/
def without (t : Table ι N) (i : ι) : Table ι N := t.deleteWhere fun k _ => k = i

/-- A node that is taken out is gone; the others stay. -/
@[simp] theorem get?_without (t : Table ι N) (i k : ι) :
    (without t i).get? k = if k = i then none else t.get? k := by
  rw [without, Table.get?_deleteWhere_key t (fun k => k = i) k]
  simp

/-- Taking out a node that is there makes the table smaller. -/
theorem length_without {n : N} (h : t.get? i = some n) :
    (without t i).rows.length < t.rows.length := by
  have hmem : (i, n) ∈ t.rows := Table.get?_eq_some_iff.1 h
  show (t.rows.filter fun r => !decide (r.1 = i)).length < t.rows.length
  rw [List.length_filter_lt_length_iff_exists]
  exact ⟨(i, n), hmem, by simp⟩

/-- The loop that removes: the top of the stack goes, and its children are pushed in their order. -/
def prune (kids : N → List ι) (t : Table ι N) : List ι → Table ι N
  | [] => t
  | i :: stack =>
    match _h : t.get? i with
    | none => prune kids t stack
    | some n => prune kids (without t i) ((kids n).reverse ++ stack)
termination_by stack => (t.rows.length, stack.length)
decreasing_by
  · exact Prod.Lex.right _ (by simp)
  · exact Prod.Lex.left _ _ (length_without _h)

/-- Nothing is pruned without a node on the stack. -/
theorem prune_nil (kids : N → List ι) (t : Table ι N) : prune kids t [] = t := by
  unfold prune
  rfl

/-- A node that is gone already is skipped. -/
theorem prune_of_none (h : t.get? i = none) : prune kids t (i :: stack) = prune kids t stack := by
  rw [prune]
  split
  · rfl
  · rename_i n hn
    rw [h] at hn
    cases hn

/-- A node is taken out and its children are put on the stack. -/
theorem prune_of_some {n : N} (h : t.get? i = some n) :
    prune kids t (i :: stack) = prune kids (without t i) ((kids n).reverse ++ stack) := by
  rw [prune]
  split
  · rename_i hn
    rw [h] at hn
    cases hn
  · rename_i m hm
    rw [h] at hm
    rw [Option.some.inj hm]

/-- From a number without a node a walk leads nowhere. -/
theorem reach_of_none (h : t.get? i = none) (hr : Reach kids t i j) : i = j := by
  rcases hr.cases_head with heq | ⟨c, hc, -⟩
  · exact heq
  · obtain ⟨n, hn, -⟩ := mem_next.1 hc
    rw [h] at hn
    cases hn

/-- A walk in the table without a node is one in the table. -/
theorem reach_of_without {a : ι} (h : Reach kids (without t i) a j) : Reach kids t a j := by
  have hstep : ∀ p c, c ∈ next kids (without t i) p → c ∈ next kids t p := by
    intro p c hc
    obtain ⟨n, hn, hmem⟩ := mem_next.1 hc
    rw [get?_without] at hn
    split_ifs at hn
    exact mem_next.2 ⟨n, hn, hmem⟩
  exact Relation.ReflTransGen.mono hstep a j h

/-- A walk that does not end at `i` avoids it, or goes on from a child of it without coming back. -/
theorem reach_without {a : ι} (h : Reach kids t a j) (hj : j ≠ i) :
    Reach kids (without t i) a j ∨ ∃ c ∈ next kids t i, Reach kids (without t i) c j := by
  induction h with
  | refl => exact Or.inl Relation.ReflTransGen.refl
  | @tail p c _ hc ih =>
    by_cases hp : p = i
    · subst hp
      exact Or.inr ⟨c, hc, Relation.ReflTransGen.refl⟩
    · obtain ⟨n, hn, hmem⟩ := mem_next.1 hc
      have hstep : c ∈ next kids (without t i) p :=
        mem_next.2 ⟨n, by rw [get?_without, if_neg hp, hn], hmem⟩
      rcases ih hp with hwalk | ⟨d, hd, hwalk⟩
      · exact Or.inl (hwalk.tail hstep)
      · exact Or.inr ⟨d, hd, hwalk.tail hstep⟩

/-- What is reached from the stack goes, and the rest stays as it is. -/
theorem get?_prune (kids : N → List ι) (t : Table ι N) (stack : List ι) (j : ι) :
    ((∃ a ∈ stack, Reach kids t a j) → (prune kids t stack).get? j = none) ∧
      ((¬ ∃ a ∈ stack, Reach kids t a j) → (prune kids t stack).get? j = t.get? j) := by
  -- Along the recursion of `prune`: a node that is popped reaches what its children reach.
  induction t, stack using prune.induct kids with
  | case1 t =>
    rw [prune_nil]
    exact ⟨fun h => by simp at h, fun _ => rfl⟩
  | case2 t i stack hnone ih =>
    rw [prune_of_none hnone]
    constructor
    · rintro ⟨a, ha, hwalk⟩
      rcases List.mem_cons.1 ha with rfl | ha
      · obtain rfl := reach_of_none hnone hwalk
        by_cases hmore : ∃ b ∈ stack, Reach kids t b a
        · exact ih.1 hmore
        · rw [ih.2 hmore, hnone]
      · exact ih.1 ⟨a, ha, hwalk⟩
    · intro hnot
      exact ih.2 fun ⟨a, ha, hwalk⟩ => hnot ⟨a, List.mem_cons_of_mem _ ha, hwalk⟩
  | case3 t i stack n hn ih =>
    rw [prune_of_some hn]
    have hmem : ∀ c, c ∈ next kids t i ↔ c ∈ kids n := by
      intro c
      rw [mem_next, hn]
      simp
    constructor
    · rintro ⟨a, ha, hwalk⟩
      by_cases hj : j = i
      · subst hj
        by_cases hmore : ∃ b ∈ (kids n).reverse ++ stack, Reach kids (without t j) b j
        · exact ih.1 hmore
        · rw [ih.2 hmore, get?_without, if_pos rfl]
      · refine ih.1 ?_
        rcases reach_without (i := i) hwalk hj with hwalk' | ⟨c, hc, hwalk'⟩
        · rcases List.mem_cons.1 ha with rfl | ha
          · have hnone : (without t a).get? a = none := by rw [get?_without, if_pos rfl]
            exact absurd (reach_of_none hnone hwalk').symm hj
          · exact ⟨a, List.mem_append_right _ ha, hwalk'⟩
        · exact ⟨c, List.mem_append_left _ (List.mem_reverse.2 ((hmem c).1 hc)), hwalk'⟩
    · intro hnot
      rw [ih.2, get?_without, if_neg]
      · rintro rfl
        exact hnot ⟨j, List.mem_cons_self, Relation.ReflTransGen.refl⟩
      · rintro ⟨a, ha, hwalk⟩
        rcases List.mem_append.1 ha with ha | ha
        · exact hnot ⟨i, List.mem_cons_self,
            Relation.ReflTransGen.head ((hmem a).2 (List.mem_reverse.1 ha))
            (reach_of_without hwalk)⟩
        · exact hnot ⟨a, List.mem_cons_of_mem _ ha, reach_of_without hwalk⟩

end Prune

end Lib.Forest
