import Dbvm.Lib.Json
import Dbvm.Snapshot

/-!
# The step log as JSON

The texts that `src/agent.rs` writes of a step: its change list (`diff_to_json`), which is kept in
`agent_steps`, and the step as a whole (`step_to_json`), into which the kept text is put as it is.
Both are put together by hand from string literals (`json_string`), numbers and brackets. A reader
of JSON gets back what was written, whatever characters the paths and the command hold.
-/

namespace Dbvm

open Lib.Json

/-! ## What is written -/

/-- `{:04x}`. -/
def hex04 (n : ℕ) : Str := List.replicate (4 - (Nat.toDigits 16 n).length) '0' ++ Nat.toDigits 16 n

/-- One character of `json_string`. -/
def escapeChar (c : Char) : Str :=
  if c = '"' then "\\\"".toList
  else if c = '\\' then "\\\\".toList
  else if c = '\n' then "\\n".toList
  else if c = '\r' then "\\r".toList
  else if c = '\t' then "\\t".toList
  else if c.toNat < 0x20 then "\\u".toList ++ hex04 c.toNat
  else [c]

/-- `json_string`. -/
def jsonString (s : Str) : Str := "\"".toList ++ s.flatMap escapeChar ++ "\"".toList

/-- `diff_to_json`. -/
def diffToJson (d : SnapDiff) : Str :=
  let arr (v : List Str) : Str :=
  "[".toList ++ List.intercalate ",".toList (v.map jsonString) ++ "]".toList
  "\x7b\"created\":".toList ++ arr d.created ++ ",\"modified\":".toList ++ arr d.modified ++
    ",\"deleted\":".toList ++
    arr d.deleted ++ "\x7d".toList

/-- The decimal form of an `i64`. -/
def displayInt : ℤ → Str
  | .ofNat n => Nat.toDigits 10 n
  | .negSucc n => '-' :: Nat.toDigits 10 (n + 1)

/-- The text of a `bool`. -/
def displayBool : Bool → Str
  | true => "true".toList
  | false => "false".toList

/-- `StepRecord`. -/
structure StepRecord where
  /-- The row. -/
  stepId : ℤ
  /-- The command. -/
  cmd : Str
  /-- The exit code. -/
  exitCode : ℤ
  /-- The command was stopped. -/
  timedOut : Bool
  /-- The snapshot was restored. -/
  rolledBack : Bool
  /-- The duration in milliseconds. -/
  durationMs : ℤ
  /-- Output was dropped. -/
  stdoutTruncated : Bool
  /-- Output was dropped. -/
  stderrTruncated : Bool
  /-- The change list, as it is kept. -/
  fsDiffJson : Str
  /-- When the row was made. -/
  createdAt : ℤ

/-- `step_to_json`. -/
def stepToJson (s : StepRecord) : Str :=
  "\x7b\"step_id\":".toList ++ displayInt s.stepId ++ ",\"cmd\":".toList ++ jsonString s.cmd ++
    ",\"exit_code\":".toList ++ displayInt s.exitCode ++ ",\"timed_out\":".toList ++ displayBool
    s.timedOut ++
    ",\"rolled_back\":".toList ++ displayBool s.rolledBack ++ ",\"duration_ms\":".toList ++
    displayInt s.durationMs ++
    ",\"stdout_truncated\":".toList ++ displayBool s.stdoutTruncated ++
    ",\"stderr_truncated\":".toList ++
    displayBool s.stderrTruncated ++ ",\"created_at\":".toList ++ displayInt s.createdAt ++
    ",\"changes\":".toList ++
    s.fsDiffJson ++ "\x7d".toList

/-! ## What is read -/

/-- A list of paths as a value. -/
def pathsValue (v : List Str) : Value := .arr (v.map .str)

/-- A change list as a value. -/
def diffValue (d : SnapDiff) : Value := .obj [("created".toList, pathsValue d.created),
  ("modified".toList, pathsValue d.modified), ("deleted".toList, pathsValue d.deleted)]

/-- A step with this change list as a value. -/
def stepValue (s : StepRecord) (d : SnapDiff) : Value := .obj [("step_id".toList, .num s.stepId 0),
  ("cmd".toList, .str s.cmd), ("exit_code".toList, .num s.exitCode 0),
  ("timed_out".toList, .bool s.timedOut),
  ("rolled_back".toList, .bool s.rolledBack), ("duration_ms".toList, .num s.durationMs 0),
  ("stdout_truncated".toList, .bool s.stdoutTruncated),
  ("stderr_truncated".toList, .bool s.stderrTruncated),
  ("created_at".toList, .num s.createdAt 0), ("changes".toList, diffValue d)]

section Denotes

variable {s : StepRecord} {d : SnapDiff}

/-- The escape of a control character is read back as the character. -/
theorem unicodeEscape_hex04 {n : ℕ} (h : n < 0x20) (rest : Str) :
    unicodeEscape (hex04 n ++ rest) = some (Char.ofNat n, rest) := by
  have hall : ∀ n < 0x20, hex04 n = ['0', '0', Nat.digitChar (n / 16), Nat.digitChar (n % 16)] ∧
      hexValue (Nat.digitChar (n / 16)) = some (n / 16) ∧
      hexValue (Nat.digitChar (n % 16)) = some (n % 16) := by
    decide +kernel
  obtain ⟨hdigits, hhigh, hlow⟩ := hall n h
  have hread : hex4 (hex04 n ++ rest) = some (n, rest) := by
    have hsum : ((0 * 16 + 0) * 16 + n / 16) * 16 + n % 16 = n := by omega
    have hzero : hexValue '0' = some 0 := by decide
    rw [hdigits]
    show ((hexValue '0').bind fun a => (hexValue '0').bind fun b =>
      (hexValue (Nat.digitChar (n / 16))).bind fun c =>
      (hexValue (Nat.digitChar (n % 16))).bind fun d => some (((a * 16 + b) * 16 + c) * 16 + d,
        rest)) = _
    rw [hzero, hhigh, hlow]
    simp only [Option.bind_some, hsum]
  unfold unicodeEscape
  rw [hread]
  show (if 0xd800 ≤ n ∧ n < 0xdc00 then _ else if 0xdc00 ≤ n ∧
    n < 0xe000 then none else some (Char.ofNat n, rest)) = _
  rw [if_neg (by omega), if_neg (by omega)]

/-- A character without an escape is read back as itself. -/
theorem nextChar_plain {c : Char} (hquote : c ≠ '"') (hslash : c ≠ '\\') (hlow : 0x20 ≤ c.toNat)
    (rest : Str) :
    nextChar ([c] ++ rest) = some (some c, rest) := by
  rw [List.singleton_append, nextChar]
  · rw [if_pos hlow]
  all_goals
    intros
    simp_all

/-- Every character is read back from what stands for it. -/
theorem spells_escapeChar : Spells escapeChar := by
  intro c
  unfold escapeChar
  split_ifs with h1 h2 h3 h4 h5 hlow
  · exact ⟨by decide, fun rest => by rw [h1]; rfl⟩
  · exact ⟨by decide, fun rest => by rw [h2]; rfl⟩
  · exact ⟨by decide, fun rest => by rw [h3]; rfl⟩
  · exact ⟨by decide, fun rest => by rw [h4]; rfl⟩
  · exact ⟨by decide, fun rest => by rw [h5]; rfl⟩
  · refine ⟨List.cons_ne_nil _ _, fun rest => ?_⟩
    show (unicodeEscape (hex04 c.toNat ++ rest)).map _ = _
    rw [unicodeEscape_hex04 hlow]
    exact congrArg (fun c => some (some c, rest)) (Char.ofNat_toNat c)
  · exact ⟨List.cons_ne_nil _ _, nextChar_plain h1 h2 (Nat.le_of_not_lt hlow)⟩

/-- The string that is written is the quoted text. -/
theorem jsonString_eq (s : Str) : jsonString s = quoted escapeChar s := by
  unfold jsonString quoted
  rw [List.append_assoc]
  rfl

/-- The string that is written denotes the text. -/
theorem denotes_jsonString (s : Str) : Denotes (jsonString s) (.str s) := by
  rw [jsonString_eq]
  exact denotes_string spells_escapeChar s

/-- The number that is written denotes the integer. -/
theorem denotes_displayInt (n : ℤ) : Denotes (displayInt n) (.num n 0) := by
  cases n with
  | ofNat n => exact denotes_nat n
  | negSucc n => exact denotes_neg (n + 1)

/-- The word that is written denotes the truth value. -/
theorem denotes_displayBool (b : Bool) : Denotes (displayBool b) (.bool b) := by
  cases b with
  | true => exact denotes_true
  | false => exact denotes_false

/-- An array of paths denotes the list. -/
theorem denotes_paths (v : List Str) :
    Denotes (bracketed '[' ']' (v.map jsonString)) (pathsValue v) := by
  refine denotes_array ?_
  induction v with
  | nil => exact .nil
  | cons p v ih => exact .cons (denotes_jsonString p) ih

/-- The change list is written as an object of three arrays. -/
theorem diffToJson_eq (d : SnapDiff) : diffToJson d = bracketed '\x7b' '\x7d' ([
    ("created".toList, bracketed '[' ']' (d.created.map jsonString)),
    ("modified".toList, bracketed '[' ']' (d.modified.map jsonString)),
    ("deleted".toList, bracketed '[' ']' (d.deleted.map jsonString))].map
    (memberText escapeChar)) := by
  have hfirst :
    "\x7b\"created\":".toList = '\x7b' :: (quoted escapeChar "created".toList ++ [':']) := by decide
  have hsecond : ",\"modified\":".toList = ',' :: (quoted escapeChar "modified".toList ++ [':']) :=
    by decide
  have hthird : ",\"deleted\":".toList = ',' :: (quoted escapeChar "deleted".toList ++ [':']) :=
    by decide
  have hopen : "[".toList = ['['] := rfl
  have hclose : "]".toList = [']'] := rfl
  have hend : "\x7d".toList = ['\x7d'] := rfl
  have hcomma : ",".toList = [','] := rfl
  unfold diffToJson bracketed
  dsimp only
  rw [hfirst, hsecond, hthird, hopen, hclose, hend, hcomma]
  simp only [List.map_cons, List.map_nil, memberText, List.intercalate_cons_cons,
    List.intercalate_singleton,
    List.append_assoc, List.cons_append, List.nil_append]

/-- The change list is a JSON text of the change list. -/
theorem denotes_diffToJson (d : SnapDiff) : Denotes (diffToJson d) (diffValue d) := by
  rw [diffToJson_eq]
  refine denotes_object spells_escapeChar (.cons ⟨rfl, ?_⟩ (.cons ⟨rfl, ?_⟩ (.cons ⟨rfl, ?_⟩ .nil)))
  · exact denotes_paths d.created
  · exact denotes_paths d.modified
  · exact denotes_paths d.deleted

/-- The step is written as an object. -/
theorem stepToJson_eq (s : StepRecord) : stepToJson s = bracketed '\x7b' '\x7d' ([
    ("step_id".toList, displayInt s.stepId), ("cmd".toList, jsonString s.cmd),
    ("exit_code".toList, displayInt s.exitCode),
    ("timed_out".toList, displayBool s.timedOut), ("rolled_back".toList, displayBool s.rolledBack),
    ("duration_ms".toList, displayInt s.durationMs),
    ("stdout_truncated".toList, displayBool s.stdoutTruncated),
    ("stderr_truncated".toList, displayBool s.stderrTruncated),
    ("created_at".toList, displayInt s.createdAt),
    ("changes".toList, s.fsDiffJson)].map (memberText escapeChar)) := by
  -- Each literal of the format string is a separator, a quoted name and a colon.
  have hfirst :
    "\x7b\"step_id\":".toList = '\x7b' :: (quoted escapeChar "step_id".toList ++ [':']) := by decide
  have hcmd : ",\"cmd\":".toList = ',' :: (quoted escapeChar "cmd".toList ++ [':']) := by decide
  have hexit : ",\"exit_code\":".toList = ',' :: (quoted escapeChar "exit_code".toList ++ [':']) :=
    by decide
  have htimed : ",\"timed_out\":".toList = ',' :: (quoted escapeChar "timed_out".toList ++ [':']) :=
    by decide
  have hrolled :
    ",\"rolled_back\":".toList = ',' :: (quoted escapeChar "rolled_back".toList ++ [':']) :=
    by decide
  have hduration :
    ",\"duration_ms\":".toList = ',' :: (quoted escapeChar "duration_ms".toList ++ [':']) :=
    by decide
  have hout : ",\"stdout_truncated\":".toList = ',' ::
    (quoted escapeChar "stdout_truncated".toList ++ [':']) := by decide
  have herr : ",\"stderr_truncated\":".toList = ',' ::
    (quoted escapeChar "stderr_truncated".toList ++ [':']) := by decide
  have hcreated :
    ",\"created_at\":".toList = ',' :: (quoted escapeChar "created_at".toList ++ [':']) := by decide
  have hchanges : ",\"changes\":".toList = ',' :: (quoted escapeChar "changes".toList ++ [':']) :=
    by decide
  have hend : "\x7d".toList = ['\x7d'] := rfl
  unfold stepToJson bracketed
  rw [hfirst, hcmd, hexit, htimed, hrolled, hduration, hout, herr, hcreated, hchanges, hend]
  simp only [List.map_cons, List.map_nil, memberText, List.intercalate_cons_cons,
    List.intercalate_singleton,
    List.append_assoc, List.cons_append, List.nil_append]

/-- A step that is kept with a change list is a JSON text of the step and the change list. -/
theorem denotes_stepToJson (s : StepRecord) (d : SnapDiff) :
    Denotes (stepToJson { s with fsDiffJson := diffToJson d }) (stepValue s d) := by
  rw [stepToJson_eq]
  refine denotes_object spells_escapeChar ?_
  refine .cons ⟨rfl, denotes_displayInt _⟩
    (.cons ⟨rfl, denotes_jsonString _⟩ (.cons ⟨rfl, denotes_displayInt _⟩ ?_))
  refine .cons ⟨rfl, denotes_displayBool _⟩
    (.cons ⟨rfl, denotes_displayBool _⟩ (.cons ⟨rfl, denotes_displayInt _⟩ ?_))
  refine .cons ⟨rfl, denotes_displayBool _⟩
    (.cons ⟨rfl, denotes_displayBool _⟩ (.cons ⟨rfl, denotes_displayInt _⟩ ?_))
  exact .cons ⟨rfl, denotes_diffToJson d⟩ .nil

/-- Different lists of paths have different values. -/
theorem pathsValue_inj {v w : List Str} (h : pathsValue v = pathsValue w) : v = w := by
  have hmap : v.map Value.str = w.map Value.str := Value.arr.inj h
  exact List.map_injective_iff.2 (fun a b hab => Value.str.inj hab) hmap

/-- A change list is the only one that is written so. -/
theorem diffToJson_injective : Function.Injective diffToJson := by
  intro d d' h
  have hvalue : diffValue d = diffValue d' :=
    (denotes_diffToJson d).unique (h ▸ denotes_diffToJson d')
  have hmembers := Value.obj.inj hvalue
  simp only [List.cons.injEq, Prod.mk.injEq, true_and, and_true] at hmembers
  obtain ⟨hcreated, hmodified, hdeleted⟩ := hmembers
  obtain ⟨c, m, e⟩ := d
  obtain ⟨c', m', e'⟩ := d'
  rw [SnapDiff.mk.injEq]
  exact ⟨pathsValue_inj hcreated, pathsValue_inj hmodified, pathsValue_inj hdeleted⟩

end Denotes

/-- The change list of a step is JSON that gives back the three lists, so that no two change lists
are written alike, and the step with its change list in it is JSON that gives back the step. -/
theorem step_log_json :
    (∀ d : SnapDiff, Lib.Json.parse (diffToJson d) = some (diffValue d)) ∧
      Function.Injective diffToJson ∧
      ∀ (s : StepRecord) (d : SnapDiff),
        Lib.Json.parse (stepToJson { s with fsDiffJson := diffToJson d }) = some (stepValue s d) :=
  ⟨fun d => (denotes_diffToJson d).parse, diffToJson_injective,
    fun s d => (denotes_stepToJson s d).parse⟩

end Dbvm
