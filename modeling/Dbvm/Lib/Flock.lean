import Mathlib.Data.Nat.Notation
import Mathlib.Tactic.Common
import Dbvm.Lib.Table

/-!
# Names, files and locks

A directory whose names stand for files, open file descriptions of these files, and the locks that
`flock(2)` puts on descriptions. A lock is one of the file, whatever names it has, and belongs to a
description until that is closed; a name can be given to another file or be taken away while its
file is locked.

The call of an operation is a partial function on directories: `none` means that the call fails or
blocks. Each one has a lemma that says what it returns, and keeps `WellLocked`: an exclusive lock on
a file is the only lock on it.
-/

namespace Lib

variable {κ ρ N D : Type} [DecidableEq κ] [DecidableEq N] [DecidableEq D]

/-! ## Tables -/

namespace Table

/-- The row of a key taken away. -/
def erase (t : Table κ ρ) (k : κ) : Table κ ρ := t.deleteWhere fun k' _ => k' = k

/-- The row of a key written, whether it was there or not. -/
def set (t : Table κ ρ) (k : κ) (r : ρ) : Table κ ρ := (t.erase k).insertIgnore k r

/-- A key that is erased has no record; the others keep theirs. -/
@[simp] theorem get?_erase (t : Table κ ρ) (k k' : κ) :
    (t.erase k).get? k' = if k' = k then none else t.get? k' := by
  unfold erase
  rw [get?_deleteWhere_key t (fun k' => decide (k' = k)) k']
  simp

/-- A key that is set has the record; the others keep theirs. -/
@[simp] theorem get?_set (t : Table κ ρ) (k k' : κ) (r : ρ) :
    (t.set k r).get? k' = if k' = k then some r else t.get? k' := by
  unfold set
  rw [get?_insertIgnore, get?_erase, if_pos rfl, get?_erase]
  split_ifs <;> rfl

end Table

/-! ## Descriptions and locks -/

/-- The locks of `flock(2)`. -/
inductive Lock where
  /-- `LOCK_SH`. -/
  | shared
  /-- `LOCK_EX`. -/
  | exclusive
deriving DecidableEq

/-- An open file description. -/
structure Desc where
  /-- The file. -/
  ino : ℕ
  /-- Its lock on the file. -/
  lock : Option Lock
deriving DecidableEq

/-- A directory with the descriptions of its files. `N` is the type of names, `D` the one of
descriptions. -/
structure FileDir (N D : Type) where
  /-- The file of a name. -/
  entry : Table N ℕ
  /-- The open descriptions. -/
  desc : Table D Desc
  /-- The number of the next new file. -/
  next : ℕ

namespace FileDir

/-- A directory without files. -/
def empty : FileDir N D := ⟨.empty, .empty, 0⟩

variable (fs : FileDir N D) (d : D) (n : N)

/-- Some lock of another description keeps a lock from being granted: any two locks exclude each
other unless both are shared. -/
def blocked (l : Lock) (ino : ℕ) : Bool :=
  fs.desc.rows.any fun x => x.1 ≠ d && x.2.ino = ino &&
    (x.2.lock = some .exclusive || (x.2.lock = some .shared && l = .exclusive))

/-- `open(2)` of an existing file. -/
def open? : Option (FileDir N D) :=
  (fs.entry.get? n).map fun ino => { fs with desc := fs.desc.set d ⟨ino, none⟩ }

/-- `open(2)` with `O_CREAT | O_EXCL`. -/
def create? : Option (FileDir N D) :=
  if fs.entry.has n then none
  else some ⟨fs.entry.set n fs.next, fs.desc.set d ⟨fs.next, none⟩, fs.next + 1⟩

/-- `flock(2)` with `LOCK_NB`. -/
def flock? (l : Lock) : Option (FileDir N D) :=
  match fs.desc.get? d with
  | none => none
  | some x => if fs.blocked d l x.ino then none else some
      { fs with desc := fs.desc.set d ⟨x.ino, some l⟩ }

/-- `rename(2)`. -/
def rename? (m : N) : Option (FileDir N D) :=
  (fs.entry.get? n).map fun ino => { fs with entry := (fs.entry.erase n).set m ino }

/-- `unlink(2)`. -/
def unlink? : Option (FileDir N D) :=
  if fs.entry.has n then some { fs with entry := fs.entry.erase n } else none

/-- `close(2)`. -/
def close : FileDir N D := { fs with desc := fs.desc.erase d }

/-- The descriptions that are left when some are closed. -/
def closeAll (p : D → Bool) : FileDir N D := { fs with desc := fs.desc.deleteWhere fun d _ => p d }

variable {fs d n} {fs' : FileDir N D} {l : Lock} {ino : ℕ}

/-! ## What the calls return -/

omit [DecidableEq N] in
/-- A lock is blocked iff another descriptor of the file holds one that conflicts with it. -/
theorem blocked_iff :
    fs.blocked d l ino = true ↔ ∃ d' x, d' ≠ d ∧ fs.desc.get? d' = some x ∧ x.ino = ino ∧
    (x.lock = some .exclusive ∨ (x.lock = some .shared ∧ l = .exclusive)) := by
  unfold blocked
  rw [List.any_eq_true]
  constructor
  · rintro ⟨⟨d', x⟩, hx, h⟩
    simp only [ne_eq, Bool.and_eq_true, decide_eq_true_eq, Bool.or_eq_true] at h
    exact ⟨d', x, h.1.1, Table.get?_eq_some_iff.2 hx, h.1.2, h.2⟩
  · rintro ⟨d', x, hd, hx, hino, h⟩
    refine ⟨(d', x), Table.get?_eq_some_iff.1 hx, ?_⟩
    simp only [ne_eq, Bool.and_eq_true, decide_eq_true_eq, Bool.or_eq_true]
    exact ⟨⟨hd, hino⟩, h⟩

/-- A successful open gives the descriptor the file of the name, without a lock. -/
theorem open?_ok (h : fs.open? d n = some fs') : ∃ ino, fs.entry.get? n = some ino ∧
    fs' = { fs with desc := fs.desc.set d ⟨ino, none⟩ } := by
  obtain ⟨ino, hino, hfs⟩ := Option.map_eq_some_iff.1 h
  exact ⟨ino, hino, hfs.symm⟩

/-- A successful exclusive create makes a new file under a name that had none. -/
theorem create?_ok (h : fs.create? d n = some fs') : fs.entry.get? n = none ∧
    fs' = ⟨fs.entry.set n fs.next, fs.desc.set d ⟨fs.next, none⟩, fs.next + 1⟩ := by
  unfold create? at h
  split_ifs at h with hn
  exact ⟨Table.get?_of_not_has hn, (Option.some.inj h).symm⟩

omit [DecidableEq N] in
/-- A successful lock was not blocked and is recorded at the descriptor. -/
theorem flock?_ok (h : fs.flock? d l = some fs') : ∃ x, fs.desc.get? d = some x ∧
    ¬ fs.blocked d l x.ino ∧ fs' = { fs with desc := fs.desc.set d ⟨x.ino, some l⟩ } := by
  unfold flock? at h
  cases hx : fs.desc.get? d with
  | none =>
    rw [hx] at h
    cases h
  | some x =>
    rw [hx] at h
    dsimp only at h
    split_ifs at h with hb
    exact ⟨x, rfl, hb, (Option.some.inj h).symm⟩

omit [DecidableEq D] in
/-- A successful rename moves the entry to the new name. -/
theorem rename?_ok {m : N} (h : fs.rename? n m = some fs') : ∃ ino, fs.entry.get? n = some ino ∧
    fs' = { fs with entry := (fs.entry.erase n).set m ino } := by
  obtain ⟨ino, hino, hfs⟩ := Option.map_eq_some_iff.1 h
  exact ⟨ino, hino, hfs.symm⟩

omit [DecidableEq D] in
/-- A successful unlink erases the entry only: descriptors keep the file. -/
theorem unlink?_ok (h : fs.unlink? n = some fs') : fs' = { fs with entry := fs.entry.erase n } := by
  unfold unlink? at h
  split_ifs at h
  exact (Option.some.inj h).symm

/-! ## Locks exclude each other -/

/-- An exclusive lock on a file is the only lock on it; the numbers of the files are in use. -/
structure WellLocked (fs : FileDir N D) : Prop where
  /-- A file with an exclusive lock has no other lock. -/
  alone : ∀ d d' x x', d ≠ d' → fs.desc.get? d = some x → fs.desc.get? d' = some x' →
    x.ino = x'.ino →
    x.lock = some .exclusive → x'.lock = none
  /-- The files that have names are old ones. -/
  entry : ∀ n ino, fs.entry.get? n = some ino → ino < fs.next
  /-- The files that are open are old ones. -/
  desc : ∀ d x, fs.desc.get? d = some x → x.ino < fs.next

/-- No lock is held at the beginning. -/
theorem wellLocked_empty : WellLocked (empty : FileDir N D) where
  alone _ _ _ _ _ h := by cases h
  entry _ _ h := by cases h
  desc _ _ h := by cases h

/-- A description without a lock may be added. -/
theorem WellLocked.set_none (h : fs.WellLocked) (hino : ino < fs.next) :
    WellLocked { fs with desc := fs.desc.set d ⟨ino, none⟩ } where
  alone d₁ d₂ x₁ x₂ hne h₁ h₂ he hl := by
    simp only [Table.get?_set] at h₁ h₂
    split_ifs at h₁ h₂ with hd₁ hd₂ hd₂
    · exact absurd (hd₁.trans hd₂.symm) hne
    · obtain rfl := Option.some.inj h₁
      cases hl
    · obtain rfl := Option.some.inj h₂
      rfl
    · exact h.alone d₁ d₂ x₁ x₂ hne h₁ h₂ he hl
  entry := h.entry
  desc d' x hx := by
    simp only [Table.get?_set] at hx
    split_ifs at hx with hd
    · obtain rfl := Option.some.inj hx
      exact hino
    · exact h.desc d' x hx

/-- An open takes no lock. -/
theorem WellLocked.open? (h : fs.WellLocked) (hfs : fs.open? d n = some fs') : fs'.WellLocked := by
  obtain ⟨ino, hino, rfl⟩ := open?_ok hfs
  exact h.set_none (h.entry n ino hino)

/-- A create takes no lock. -/
theorem WellLocked.create? (h : fs.WellLocked) (hfs : fs.create? d n = some fs') :
    fs'.WellLocked := by
  obtain ⟨-, rfl⟩ := create?_ok hfs
  have hgrown : WellLocked (⟨fs.entry.set n fs.next, fs.desc, fs.next + 1⟩ : FileDir N D) := by
    refine ⟨h.alone, ?_, fun d x hx => Nat.lt_succ_of_lt (h.desc d x hx)⟩
    intro n' ino hino
    simp only [Table.get?_set] at hino
    split_ifs at hino with hn
    · exact Option.some.inj hino ▸ Nat.lt_succ_self _
    · exact Nat.lt_succ_of_lt (h.entry n' ino hino)
  exact hgrown.set_none (Nat.lt_succ_self _)

/-- A lock is granted only where it is the only one, or all are shared. -/
theorem WellLocked.flock? (h : fs.WellLocked) (hfs : fs.flock? d l = some fs') :
    fs'.WellLocked := by
  obtain ⟨x, hx, hfree, rfl⟩ := flock?_ok hfs
  -- The lock was granted, so no other descriptor of the file blocks it.
  have hother : ∀ d' x', d' ≠ d → fs.desc.get? d' = some x' → x'.ino = x.ino →
      x'.lock ≠ some .exclusive ∧ (l = .exclusive → x'.lock = none) := by
    intro d' x' hd hx' hino
    have hno := fun hlock => hfree (blocked_iff.2 ⟨d', x', hd, hx', hino, hlock⟩)
    refine ⟨fun hl => hno (Or.inl hl), ?_⟩
    intro hl
    match hlock : x'.lock with
    | none => rfl
    | some .shared => exact absurd (Or.inr ⟨hlock, hl⟩) hno
    | some .exclusive => exact absurd (Or.inl hlock) hno
  refine ⟨?_, h.entry, ?_⟩
  · intro d₁ d₂ x₁ x₂ hne h₁ h₂ he hl
    simp only [Table.get?_set] at h₁ h₂
    split_ifs at h₁ h₂ with hd₁ hd₂ hd₂
    · exact absurd (hd₁.trans hd₂.symm) hne
    · obtain rfl := Option.some.inj h₁
      exact (hother d₂ x₂ hd₂ h₂ he.symm).2 (Option.some.inj hl)
    · obtain rfl := Option.some.inj h₂
      exact absurd hl (hother d₁ x₁ hd₁ h₁ he).1
    · exact h.alone d₁ d₂ x₁ x₂ hne h₁ h₂ he hl
  · intro d' x' hx'
    simp only [Table.get?_set] at hx'
    split_ifs at hx' with hd
    · obtain rfl := Option.some.inj hx'
      exact h.desc d x hx
    · exact h.desc d' x' hx'

/-- A rename changes no lock. -/
theorem WellLocked.rename? {m : N} (h : fs.WellLocked) (hfs : fs.rename? n m = some fs') :
    fs'.WellLocked := by
  obtain ⟨ino, hino, rfl⟩ := rename?_ok hfs
  refine ⟨h.alone, ?_, h.desc⟩
  intro n' ino' hn'
  simp only [Table.get?_set, Table.get?_erase] at hn'
  split_ifs at hn' with hm hn
  · exact Option.some.inj hn' ▸ h.entry n ino hino
  · exact h.entry n' ino' hn'

/-- An unlink changes no lock. -/
theorem WellLocked.unlink? (h : fs.WellLocked) (hfs : fs.unlink? n = some fs') :
    fs'.WellLocked := by
  obtain rfl := unlink?_ok hfs
  refine ⟨h.alone, ?_, h.desc⟩
  intro n' ino' hn'
  simp only [Table.get?_erase] at hn'
  split_ifs at hn'
  exact h.entry n' ino' hn'

omit [DecidableEq N] in
/-- The descriptors that are closed are gone; the others stay as they are. -/
theorem get?_closeAll (p : D → Bool) (d' : D) :
    (fs.closeAll p).desc.get? d' = if p d' then none else fs.desc.get? d' :=
  Table.get?_deleteWhere_key fs.desc p d'

/-- Closing descriptors releases locks and takes none. -/
theorem WellLocked.closeAll (h : fs.WellLocked) (p : D → Bool) : (fs.closeAll p).WellLocked := by
  have hkept : ∀ d' x, (fs.closeAll p).desc.get? d' = some x → fs.desc.get? d' = some x := by
    intro d' x hx
    rw [get?_closeAll] at hx
    split_ifs at hx
    exact hx
  exact ⟨fun d₁ d₂ x₁ x₂ hne h₁ h₂ => h.alone d₁ d₂ x₁ x₂ hne (hkept d₁ x₁ h₁) (hkept d₂ x₂ h₂),
    h.entry,
    fun d' x hx => h.desc d' x (hkept d' x hx)⟩

/-- Closing one descriptor releases at most its lock. -/
theorem WellLocked.close (h : fs.WellLocked) (d : D) : (fs.close d).WellLocked :=
  h.closeAll fun d' => d' = d

/-- Two descriptions do not both have an exclusive lock on a file. -/
theorem WellLocked.eq_of_exclusive (h : fs.WellLocked) {d' : D}
    (hd : fs.desc.get? d = some ⟨ino, some .exclusive⟩)
    (hd' : fs.desc.get? d' = some ⟨ino, some l⟩) : d = d' := by
  by_contra hne
  cases h.alone d d' _ _ hne hd hd' rfl rfl

end FileDir

end Lib
