import TraceFileSystem.Lib.Namespace
import TraceFileSystem.Lib.NamespaceCalls
import TraceFileSystem.Lib.ByteStore

/-!
# Volumes

A POSIX namespace together with the contents of its regular files, which belong to inode numbers and
not to names.  `Volume.contents` reads a file by its path, and the lemmas about `Volume.create` and
`Volume.write` say what these do to all paths at once: a write is seen through all names of the
file.

`Volume.Same` relates volumes with isomorphic trees and the same contents.  Creating a file and
writing to a file on both sides keep it.
-/

namespace Posix

open ByteStore

/-- A tree with the contents of its regular files. -/
structure Volume (α τ : Type*) [DecidableEq α] where
  tree : Namespace α τ
  data : ℕ → List UInt8

namespace Volume

variable {α τ : Type*} [DecidableEq α]

/-- The contents of the regular file at a path. -/
def contents (v : Volume α τ) (p : List α) : Option (List UInt8) :=
  match v.tree.node p with
  | some (.file ino) => some (v.data ino)
  | _ => none

/-- A new empty file. -/
def create [DecidableEq τ] (v : Volume α τ) (l : Place α) : Volume α τ where
  tree := v.tree.add l (.file v.tree.next)
  data := Function.update v.data v.tree.next []

/-- A call in the hands of the file system.  A new file is empty. -/
def change [DecidableEq τ] (v : Volume α τ) (c : Call α τ) : Volume α τ × Option Errno :=
  ({ tree := (v.tree.change c).1
     data := match c with
       | .create _ => Function.update v.data v.tree.next []
       | _ => v.data }, (v.tree.change c).2)

/-- Writing to a file. -/
def write (v : Volume α τ) (ino off : ℕ) (bytes : List UInt8) : Volume α τ :=
  { v with data := Function.update v.data ino (pwrite (v.data ino) off bytes) }

/-- Emptying a file. -/
def truncate (v : Volume α τ) (ino : ℕ) : Volume α τ :=
  { v with data := Function.update v.data ino [] }

variable {v v' : Volume α τ} {l : Place α} {p q : List α} {i i' : ℕ}

/-- The contents of a file. -/
theorem contents_of_file (h : v.tree.node p = some (.file i)) : v.contents p = some (v.data i) := by
  rw [contents, h]

/-- A regular file has an inode number. -/
theorem exists_file_of_kind (h : v.tree.kind p = some .file) :
    ∃ i, v.tree.node p = some (.file i) := by
  obtain ⟨n, hn, hkind⟩ := Option.map_eq_some_iff.mp h
  cases n with
  | dir => cases hkind
  | file i => exact ⟨i, hn⟩
  | symlink i target => cases hkind

/-- What can be read after a file was created. -/
theorem contents_create [DecidableEq τ] (hl : v.tree.Vacant l) (p : List α) :
    (v.create l).contents p = if p = l.path then some [] else v.contents p := by
  have hnode := Namespace.node_add hl (n := .file v.tree.next) (Nat.lt_succ_self _) p
  by_cases hp : p = l.path
  · rw [if_pos hp] at hnode ⊢
    rw [contents_of_file hnode]
    exact congrArg some (Function.update_self _ _ _)
  · rw [if_neg hp] at hnode ⊢
    unfold contents
    simp only [create, hnode]
    split
    · next ino hino =>
      have hlt : ino < v.tree.next := v.tree.fresh p _ hino
      rw [Function.update_of_ne hlt.ne]
    · rfl

/-- A write is seen through every name of the file. -/
theorem contents_write_self (h : v.tree.node p = some (.file i)) (off : ℕ) (bytes : List UInt8) :
    (v.write i off bytes).contents p = some (pwrite (v.data i) off bytes) := by
  have hnode : (v.write i off bytes).tree.node p = some (.file i) := h
  rw [contents_of_file hnode]
  exact congrArg some (Function.update_self _ _ _)

/-- A write is not seen through any other name. -/
theorem contents_write_of_ne (h : v.tree.node p ≠ some (.file i)) (off : ℕ) (bytes : List UInt8) :
    (v.write i off bytes).contents p = v.contents p := by
  unfold contents
  simp only [write]
  split
  · next ino hino =>
    have hne : ino ≠ i := by
      rintro rfl
      exact h hino
    rw [Function.update_of_ne hne]
  · rfl

/-- Emptying an empty file changes nothing. -/
theorem truncate_eq_self (h : v.data i = []) : v.truncate i = v := by
  rw [truncate, ← h, Function.update_eq_self]

/-- The trees are isomorphic, and every regular file has the same contents. -/
structure Same (v v' : Volume α τ) : Prop where
  iso : v.tree.Iso v'.tree
  contents : ∀ p, v.contents p = v'.contents p

/-- Every volume is the same as itself. -/
theorem Same.refl (v : Volume α τ) : v.Same v :=
  ⟨.refl _, fun _ => rfl⟩

/-- A regular file on one side is one on the other side, with the same bytes. -/
theorem Same.exists_file (h : v.Same v') (hp : v.tree.node p = some (.file i)) :
    ∃ i', v'.tree.node p = some (.file i') ∧ v'.data i' = v.data i := by
  have hkind : v.tree.kind p = some .file := by
    rw [Namespace.kind, hp]
    rfl
  obtain ⟨i', hi'⟩ := exists_file_of_kind ((h.iso.kind p).symm.trans hkind)
  have hcontents := h.contents p
  rw [contents_of_file hp, contents_of_file hi', Option.some_inj] at hcontents
  exact ⟨i', hi', hcontents.symm⟩

/-- A file is created on both sides. -/
theorem Same.create [DecidableEq τ] (h : v.Same v') (hl : v.tree.Vacant l) :
    (v.create l).Same (v'.create l) := by
  constructor
  · exact h.iso.add_fresh hl (Nat.lt_succ_self _) (Nat.lt_succ_self _) rfl (lt_irrefl _)
      (lt_irrefl _)
  · intro p
    rw [contents_create hl, contents_create (h.iso.vacant hl), h.contents]

/-- The same bytes are written to a file on both sides. -/
theorem Same.write (h : v.Same v') (hq : v.tree.node q = some (.file i))
    (hq' : v'.tree.node q = some (.file i')) (off : ℕ) (bytes : List UInt8) :
    (v.write i off bytes).Same (v'.write i' off bytes) := by
  have hdata : v.data i = v'.data i' := by
    have hcontents := h.contents q
    rwa [contents_of_file hq, contents_of_file hq', Option.some_inj] at hcontents
  -- the other names of the file are the same on both sides
  have hnames (p : List α) :
      v.tree.node p = some (.file i) ↔ v'.tree.node p = some (.file i') := by
    have hlinked := h.iso.linked q p
    simp only [Namespace.Linked, hq, hq', ne_eq, reduceCtorEq, not_false_eq_true, Option.some_inj,
      and_true] at hlinked
    rw [eq_comm, hlinked, eq_comm]
  constructor
  · exact h.iso
  · intro p
    by_cases hp : v.tree.node p = some (.file i)
    · rw [contents_write_self hp, contents_write_self ((hnames p).mp hp), hdata]
    · rw [contents_write_of_ne hp, contents_write_of_ne (mt (hnames p).mpr hp), h.contents]

end Volume

end Posix
