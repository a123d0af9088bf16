import Dbvm.Lib.Like
import Dbvm.Path

/-!
# Write policies

The rules of `vm_policies` and the conditions their triggers test (`src/policy.rs`). A rule is
compiled into `BEFORE` triggers on `vm_fs` and `vm_file_chunks`; the statements of `Dbvm.Db` test
the same conditions before they change a row. `underPrefix` is the SQL condition of a read-only
prefix, `covers` the Rust test of it that the overlay uses.
-/

namespace Dbvm

open Lib

/-- A stored rule. -/
inductive Rule where
  /-- No write at the path or below it. -/
  | readonlyPrefix (p : Str)
  /-- No regular file larger than this many bytes. -/
  | maxFileSize (n : ℕ)
  /-- No write that takes the total of the file sizes past this many bytes. -/
  | diskQuota (n : ℕ)
  deriving DecidableEq

/-- Whether `path` is `pfx` or lies under it, by whole components. -/
def covers (pfx path : Str) : Bool :=
  pfx = root || path = pfx || (pfx ++ ['/']).isPrefixOf path

/-- A text with the wildcards of `LIKE`, and the escape itself, escaped. -/
def likeEscape (s : Str) : Str :=
  s.flatMap fun c => if c = '\\' ∨ c = '%' ∨ c = '_' then ['\\', c] else [c]

/-- The SQL condition that `path` is the protected prefix or under it. -/
def underPrefix (pfx path : Str) : Bool :=
  pfx = root || path = pfx || likeEsc '\\' (likeEscape pfx ++ ['/', '%']) path

/-- Whether a read-only prefix of the rules holds the path. -/
def Rule.protects (rules : List Rule) (path : Str) : Bool :=
  rules.any fun
    | .readonlyPrefix p => underPrefix p path
    | _ => false

/-! ## The two tests of a prefix -/

/-- The elements of an escaped text are its characters. -/
theorem ofPattern_likeEscape (s pat : Str) : Tok.ofPattern (some '\\') (likeEscape s ++ pat) =
    s.map Tok.lit ++ Tok.ofPattern (some '\\') pat := by
  induction s with
  | nil => rfl
  | cons c s ih =>
    have hcons : likeEscape (c :: s) =
        (if c = '\\' ∨ c = '%' ∨ c = '_' then ['\\', c] else [c]) ++ likeEscape s := rfl
    rw [hcons, List.map_cons, List.cons_append, ← ih, List.append_assoc]
    split_ifs with hspecial
    · rw [List.cons_append, List.singleton_append, Tok.ofPattern, if_pos rfl]
    · simp only [not_or] at hspecial
      obtain ⟨hesc, hany, hone⟩ := hspecial
      rcases likeEscape s ++ pat with _ | ⟨d, rest⟩
      · simp [Tok.ofPattern, hesc, hany, hone]
      · rw [List.singleton_append, Tok.ofPattern, if_neg (by simpa using hesc), if_neg hany,
          if_neg hone]

/-- A text matches its own characters in front of what the rest matches. -/
theorem matches?_map_lit {ts : List Tok} {s : Str} (h : Tok.matches? ts s = true) (p : Str) :
    Tok.matches? (p.map Tok.lit ++ ts) (p ++ s) = true := by
  induction p with
  | nil => exact h
  | cons c p ih =>
    rw [List.map_cons, List.cons_append, List.cons_append, Tok.matches?, beq_self_eq_true,
      Bool.true_and]
    exact ih

/-- What is under a prefix is under it for the triggers. -/
theorem underPrefix_of_covers {pfx path : Str} (h : covers pfx path = true) :
    underPrefix pfx path = true := by
  unfold covers at h
  unfold underPrefix
  simp only [Bool.or_eq_true, decide_eq_true_iff, List.isPrefixOf_iff_prefix] at h ⊢
  rcases h with h | ⟨rest, rfl⟩
  · exact Or.inl h
  · refine Or.inr ?_
    rw [likeEsc, ofPattern_likeEscape, List.append_assoc]
    refine matches?_map_lit ?_ pfx
    rw [show Tok.ofPattern (some '\\') ['/', '%'] = [Tok.lit '/', Tok.any] from rfl,
      List.singleton_append,
      Tok.matches?, beq_self_eq_true, Bool.true_and]
    exact Tok.matches?_any_nil rest

/-- What is below a path under a prefix is under the prefix. -/
theorem underPrefix_below {pfx path : Str} (h : underPrefix pfx path = true) (c : Str) :
    underPrefix pfx (path ++ '/' :: c) = true := by
  unfold underPrefix at h ⊢
  simp only [Bool.or_eq_true, decide_eq_true_iff] at h ⊢
  have hpat : ∀ s, likeEsc '\\' (likeEscape pfx ++ ['/', '%']) s =
      Tok.matches? ((pfx.map Tok.lit ++ [Tok.lit '/']) ++ [Tok.any]) s := by
    intro s
    rw [likeEsc, ofPattern_likeEscape, List.append_assoc]
    rfl
  rw [hpat] at h
  rw [hpat]
  rcases h with (h | h) | h
  · exact Or.inl (Or.inl h)
  · refine Or.inr ?_
    rw [h, List.append_assoc]
    refine matches?_map_lit ?_ pfx
    rw [List.singleton_append, Tok.matches?, beq_self_eq_true, Bool.true_and]
    exact Tok.matches?_any_nil c
  · exact Or.inr (Tok.matches?_any_append ('/' :: c) h)

/-- What is below a protected path is protected. -/
theorem Rule.protects_below {rules : List Rule} {path : Str} (h : Rule.protects rules path = true)
    (c : Str) :
    Rule.protects rules (path ++ '/' :: c) = true := by
  obtain ⟨rule, hmem, hrule⟩ := List.any_eq_true.1 h
  refine List.any_eq_true.2 ⟨rule, hmem, ?_⟩
  cases rule with
  | readonlyPrefix pfx => exact underPrefix_below hrule c
  | maxFileSize n => exact hrule
  | diskQuota n => exact hrule

/-- What a prefix covers is protected. -/
theorem Rule.protects_of_covers {rules : List Rule} {pfx path : Str}
    (hrule : .readonlyPrefix pfx ∈ rules) (h : covers pfx path = true) :
    Rule.protects rules path = true :=
  List.any_eq_true.2 ⟨_, hrule, underPrefix_of_covers h⟩

end Dbvm
