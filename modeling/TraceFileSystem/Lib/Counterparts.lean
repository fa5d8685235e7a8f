import TraceFileSystem.Lib.NamespaceCalls

/-!
# Counterparts

Two namespaces that are isomorphic at the start and on which the same calls are made have the same
objects, but not the same inode numbers.  `Counterpart` says which regular file of one namespace is
which file of the other one: a file that was there at the start is the file with the same name, and
the `n`-th new object is the `n`-th new object.

The names follow the objects: whatever calls are made, a name leads to counterparts on both sides
(`Tracked.change`).
-/

namespace Posix

namespace Namespace

variable {α τ : Type*} [DecidableEq α]

/-- A file of a namespace that was `t₀` at the start, and what it is in one that was `t₀'`. -/
def Counterpart (t₀ t₀' : Namespace α τ) (i j : ℕ) : Prop :=
  (∃ p, t₀.node p = some (.file i) ∧ t₀'.node p = some (.file j)) ∨
    ∃ n, i = t₀.next + n ∧ j = t₀'.next + n

variable {t₀ t₀' t t' u u' : Namespace α τ} {l k : Place α} {n n' : Node τ} {c : Call α τ} {i j : ℕ}

/-- A file that was there at the start has a small inode number. -/
theorem lt_next_of_file {p : List α} (h : t.node p = some (.file i)) : i < t.next :=
  t.fresh p _ h

/-- A file has one counterpart. -/
theorem Counterpart.unique (h₀ : t₀.Iso t₀') {j' : ℕ} (h : Counterpart t₀ t₀' i j)
    (h' : Counterpart t₀ t₀' i j') : j' = j := by
  rcases h with ⟨p, hi, hj⟩ | ⟨n, hi, hj⟩
  · rcases h' with ⟨p', hi', hj'⟩ | ⟨n', hi', -⟩
    · have hlinked : t₀.Linked p p' := ⟨hi.trans hi'.symm, by simp [hi], by simp [hi]⟩
      have heq := ((h₀.linked p p').mp hlinked).1
      rw [hj, hj', Option.some_inj, Node.file.injEq] at heq
      exact heq.symm
    · have := lt_next_of_file hi
      omega
  · rcases h' with ⟨p', hi', -⟩ | ⟨n', hi', hj'⟩
    · have := lt_next_of_file hi'
      omega
    · omega

/-- The namespaces are isomorphic, the same number of objects are new in them, and every name of a
file leads to counterparts. -/
structure Tracked (t₀ t₀' t t' : Namespace α τ) : Prop where
  iso : t.Iso t'
  next : ∃ n, t.next = t₀.next + n ∧ t'.next = t₀'.next + n
  file : ∀ p i j, t.node p = some (.file i) → t'.node p = some (.file j) → Counterpart t₀ t₀' i j

/-- At the start, names lead to counterparts. -/
theorem Iso.tracked (h : t.Iso t') : Tracked t t' t t' where
  iso := h
  next := ⟨0, rfl, rfl⟩
  file p _ _ hi hj := .inl ⟨p, hi, hj⟩

/-- Names that lead to what other names have led to. -/
theorem Tracked.of_origin (h : Tracked t₀ t₀' t t') (hiso : u.Iso u') (f : List α → Option (List α))
    (hu : ∀ x, u.node x = (f x).bind fun y => t.node y)
    (hu' : ∀ x, u'.node x = (f x).bind fun y => t'.node y) (hnext : u.next = t.next)
    (hnext' : u'.next = t'.next) : Tracked t₀ t₀' u u' where
  iso := hiso
  next := by
    rw [hnext, hnext']
    exact h.next
  file p i j hi hj := by
    rw [hu] at hi
    rw [hu'] at hj
    obtain ⟨y, hy, hi⟩ := Option.bind_eq_some_iff.mp hi
    rw [hy, Option.bind_some] at hj
    exact h.file y i j hi hj

/-- Removing a name takes no inode number. -/
theorem next_remove (t : Namespace α τ) (l : Place α) : (t.remove l).next = t.next := by
  unfold remove
  split <;> rfl

/-- A childless name is removed on both sides. -/
theorem Tracked.remove (h : Tracked t₀ t₀' t t') (hl : t.Childless l.path) :
    Tracked t₀ t₀' (t.remove l) (t'.remove l) := by
  refine h.of_origin (h.iso.remove hl) (fun x => if x = l.path then none else some x) ?_ ?_
    (next_remove _ _) (next_remove _ _)
  · intro x
    rw [node_remove hl]
    split <;> rfl
  · intro x
    rw [node_remove (h.iso.childless_iff.mp hl)]
    split <;> rfl

variable [DecidableEq τ]

/-- Moving a tree takes no inode number. -/
theorem next_move (t : Namespace α τ) (l k : Place α) : (t.move l k).next = t.next := by
  unfold move
  split <;> rfl

/-- A vacant name takes an inode number. -/
theorem next_add (h : t.Vacant l) (hn : n.Below (t.next + 1)) : (t.add l n).next = t.next + 1 := by
  rw [add, dif_pos ⟨h, hn⟩]

/-- A tree is moved on both sides. -/
theorem Tracked.move (h : Tracked t₀ t₀' t t') (hl : t.Movable l k) :
    Tracked t₀ t₀' (t.move l k) (t'.move l k) :=
  h.of_origin (h.iso.move hl) (origin l.path k.path) (node_move hl) (node_move (h.iso.movable hl))
    (next_move _ _ _) (next_move _ _ _)

/-- Objects are added on both sides that are counterparts, if they are regular files. -/
theorem Tracked.add (h : Tracked t₀ t₀' t t') (hl : t.Vacant l) (hn : n.Below (t.next + 1))
    (hn' : n'.Below (t'.next + 1)) (hiso : (t.add l n).Iso (t'.add l n'))
    (hfile : ∀ i j, n = .file i → n' = .file j → Counterpart t₀ t₀' i j) :
    Tracked t₀ t₀' (t.add l n) (t'.add l n') where
  iso := hiso
  next := by
    obtain ⟨m, hm, hm'⟩ := h.next
    refine ⟨m + 1, ?_, ?_⟩
    · rw [next_add hl hn, hm, add_assoc]
    · rw [next_add (h.iso.vacant hl) hn', hm', add_assoc]
  file p i j hi hj := by
    rw [node_add hl hn] at hi
    rw [node_add (h.iso.vacant hl) hn'] at hj
    by_cases hp : p = l.path
    · rw [if_pos hp, Option.some_inj] at hi hj
      exact hfile i j hi hj
    · rw [if_neg hp] at hi hj
      exact h.file p i j hi hj

/-- **Names follow the objects.**  After a call that passes on both sides, names still lead to
counterparts. -/
theorem Tracked.change (h : Tracked t₀ t₀' t t') (hv : t.verdict c = .passes) :
    Tracked t₀ t₀' (t.change c).1 (t'.change c).1 := by
  have hiso := (h.iso.change hv).1
  cases c with
  | create l =>
    refine h.add (vacant_of_verdictNew hv) (Nat.lt_succ_self _) (Nat.lt_succ_self _) hiso ?_
    rintro i j ⟨⟩ ⟨⟩
    exact .inr h.next
  | mkdir l =>
    refine h.add (vacant_of_verdictNew hv) trivial trivial hiso ?_
    rintro i j ⟨⟩
  | symlink l target =>
    refine h.add (vacant_of_verdictNew hv) (Nat.lt_succ_self _) (Nat.lt_succ_self _) hiso ?_
    rintro i j ⟨⟩
  | link l k =>
    obtain ⟨⟨n, hn, -⟩, hk⟩ := of_verdict_link hv
    obtain ⟨⟨n', hn', -⟩, -⟩ := of_verdict_link ((h.iso.verdict _).symm.trans hv)
    simp only [Namespace.change, hn, hn'] at hiso ⊢
    refine h.add hk ((t.fresh _ _ hn).mono (Nat.le_succ _))
      ((t'.fresh _ _ hn').mono (Nat.le_succ _))
      hiso ?_
    rintro i j rfl rfl
    exact h.file _ i j hn hn'
  | unlink l => exact h.remove (childless_of_ne_dir (of_verdict_unlink hv).2)
  | rmdir l =>
    simp only [Namespace.change, ← h.iso.childless_iff]
    split
    · next hc => exact h.remove hc
    · exact h
  | rename l k =>
    simp only [Namespace.change, ← h.iso.childless_iff, ← h.iso.kind]
    split
    · exact h
    · exact h.move (of_verdict_rename hv).2

end Namespace

end Posix
