import TraceFileSystem.Lib.Errno
import TraceFileSystem.Lib.Namespace

/-!
# Calls on a POSIX namespace

The seven calls that change a namespace.  A call passes the checks of the virtual file system first
(`Namespace.verdict`) and is then carried out by the file system (`Namespace.perform`), which may
refuse it for reasons of its own, given by `Limits`.

`Namespace.Iso` relates namespaces with the same paths, kinds, targets and hard links.  Isomorphic
namespaces give a call the same verdict (`Iso.verdict`) and stay isomorphic under it
(`Iso.perform`).
-/

namespace Posix

/-! ### Isomorphic namespaces -/

namespace Namespace

variable {α τ : Type*} [DecidableEq α]

/-- The same paths lead to objects of the same kinds, symbolic links have the same targets, and the
same names are hard links of each other. -/
structure Iso (t t' : Namespace α τ) : Prop where
  kind : ∀ p, t.kind p = t'.kind p
  linked : ∀ p q, t.Linked p q ↔ t'.Linked p q

variable {t t' u u' : Namespace α τ} {l k : Place α} {n n' : Node τ}

/-- Every namespace is isomorphic to itself. -/
theorem Iso.refl (t : Namespace α τ) : t.Iso t where
  kind _ := rfl
  linked _ _ := Iff.rfl

/-- The same paths lead to nothing. -/
theorem Iso.node_eq_none_iff (h : t.Iso t') {p : List α} : t.node p = none ↔ t'.node p = none := by
  rw [← kind_eq_none_iff, ← kind_eq_none_iff, h.kind]

/-- The same paths lead to directories. -/
theorem Iso.node_eq_dir_iff (h : t.Iso t') {p : List α} :
    t.node p = some .dir ↔ t'.node p = some .dir := by
  rw [← kind_eq_dir_iff, ← kind_eq_dir_iff, h.kind]

/-- The same paths are childless. -/
theorem Iso.childless_iff (h : t.Iso t') {p : List α} : t.Childless p ↔ t'.Childless p := by
  rw [Namespace.childless_iff, Namespace.childless_iff]
  simp only [h.node_eq_none_iff]

/-- The same names are vacant. -/
theorem Iso.vacant (h : t.Iso t') (hl : t.Vacant l) : t'.Vacant l :=
  ⟨h.node_eq_none_iff.mp hl.1, h.node_eq_dir_iff.mp hl.2⟩

/-- The same moves are possible. -/
theorem Iso.movable (h : t.Iso t') (hl : t.Movable l k) : t'.Movable l k :=
  ⟨hl.1, hl.2.1, h.node_eq_dir_iff.mp hl.2.2⟩

/-- Namespaces that take their objects from the same places of isomorphic namespaces are
isomorphic. -/
theorem Iso.of_origin (h : t.Iso t') (f : List α → Option (List α))
    (hu : ∀ x, u.node x = (f x).bind fun y => t.node y)
    (hu' : ∀ x, u'.node x = (f x).bind fun y => t'.node y) : u.Iso u' where
  kind p := by
    rw [Namespace.kind, Namespace.kind, hu, hu']
    cases f p with
    | none => rfl
    | some y => exact h.kind y
  linked p q := by
    simp only [Linked, hu, hu']
    cases f p with
    | none => simp
    | some y =>
      cases f q with
      | none =>
        constructor
        · rintro ⟨hnone, hsome, -⟩
          exact absurd hnone hsome
        · rintro ⟨hnone, hsome, -⟩
          exact absurd hnone hsome
      | some z => exact h.linked y z

/-- An inode number that is not in use belongs to no object. -/
theorem node_ne_of_not_below (hn : ¬n.Below t.next) (p : List α) : t.node p ≠ some n :=
  fun hp => hn (t.fresh p n hp)

/-- The same object is added to both sides: it is of the same kind, and has the same other names. -/
theorem Iso.add [DecidableEq τ] (h : t.Iso t') (hl : t.Vacant l) (hn : n.Below (t.next + 1))
    (hn' : n'.Below (t'.next + 1)) (hkind : n.kind = n'.kind)
    (hsame : n ≠ .dir → ∀ y, t.node y = some n ↔ t'.node y = some n') :
    (t.add l n).Iso (t'.add l n') := by
  have hdir : n = .dir ↔ n' = .dir := by
    rw [← Node.kind_eq_dir_iff, hkind, Node.kind_eq_dir_iff]
  constructor
  · intro p
    rw [Namespace.kind, Namespace.kind, node_add hl hn, node_add (h.vacant hl) hn']
    split
    · simp [hkind]
    · exact h.kind p
  · intro p q
    simp only [Linked, node_add hl hn, node_add (h.vacant hl) hn']
    by_cases hp : p = l.path <;> by_cases hq : q = l.path
    · simp [hp, hq, hdir]
    · simp only [hp, hq, if_true, if_false, ne_eq, reduceCtorEq, not_false_eq_true, true_and,
        Option.some_inj, hdir]
      refine and_congr_left fun hne => ?_
      rw [eq_comm, hsame (mt hdir.mp hne), eq_comm]
    · simp only [hp, hq, if_true, if_false]
      constructor
      · rintro ⟨heq, hsome, hne⟩
        rw [heq, ne_eq, Option.some_inj] at hne
        have heq' := (hsame hne p).mp heq
        rw [heq']
        exact ⟨rfl, by simp, by simpa [hdir] using hne⟩
      · rintro ⟨heq, hsome, hne⟩
        rw [heq, ne_eq, Option.some_inj, ← hdir] at hne
        have heq' := (hsame hne p).mpr heq
        rw [heq']
        exact ⟨rfl, by simp, by simpa using hne⟩
    · simp only [hp, hq, if_false]
      exact h.linked p q

/-- A new object with a fresh inode number has no other names on either side. -/
theorem Iso.add_fresh [DecidableEq τ] (h : t.Iso t') (hl : t.Vacant l) (hn : n.Below (t.next + 1))
    (hn' : n'.Below (t'.next + 1)) (hkind : n.kind = n'.kind) (hnew : ¬n.Below t.next)
    (hnew' : ¬n'.Below t'.next) : (t.add l n).Iso (t'.add l n') :=
  h.add hl hn hn' hkind fun _ y =>
    ⟨fun hy => absurd hy (node_ne_of_not_below hnew y),
      fun hy => absurd hy (node_ne_of_not_below hnew' y)⟩

/-- A childless name is removed from both sides. -/
theorem Iso.remove (h : t.Iso t') (hl : t.Childless l.path) : (t.remove l).Iso (t'.remove l) := by
  refine h.of_origin (fun x => if x = l.path then none else some x) ?_ ?_
  · intro x
    rw [node_remove hl]
    split <;> rfl
  · intro x
    rw [node_remove (h.childless_iff.mp hl)]
    split <;> rfl

/-- A tree is moved on both sides. -/
theorem Iso.move [DecidableEq τ] (h : t.Iso t') (hl : t.Movable l k) :
    (t.move l k).Iso (t'.move l k) :=
  h.of_origin (origin l.path k.path) (node_move hl) (node_move (h.movable hl))

end Namespace

/-! ### Calls -/

/-- The calls that change a namespace.  The last component of every path is a name: a call on the
root is refused when the path is looked at. -/
inductive Call (α τ : Type*) where
  | create (l : Place α)
  | mkdir (l : Place α)
  | symlink (l : Place α) (target : τ)
  | link (l k : Place α)
  | unlink (l : Place α)
  | rmdir (l : Place α)
  | rename (l k : Place α)
  deriving DecidableEq

/-- What becomes of a call before the file system sees it. -/
inductive Verdict where
  /-- The call fails. -/
  | refused (e : Errno)
  /-- The call succeeds and has nothing to do. -/
  | noop
  /-- The call is passed to the file system. -/
  | passes
  deriving DecidableEq

/-- Reasons of a file system of its own to refuse a call.  They depend on the tree only, and not on
its inode numbers. -/
structure Limits (α τ : Type*) [DecidableEq α] where
  refuses : Call α τ → Namespace α τ → Option Errno
  congr : ∀ (c : Call α τ) {t t' : Namespace α τ}, t.Iso t' → refuses c t = refuses c t'

/-- A file system that has room for everything. -/
def Limits.unlimited (α τ : Type*) [DecidableEq α] : Limits α τ where
  refuses _ _ := none
  congr _ _ _ _ := rfl

namespace Namespace

variable {α τ : Type*} [DecidableEq α] [DecidableEq τ]

/-- The verdict on giving a name to an object: its directory must be there, and the name must be
free. -/
def verdictNew (t : Namespace α τ) (l : Place α) : Verdict :=
  if t.kind l.dir = none then .refused .noent
  else if t.kind l.dir ≠ some .dir then .refused .notdir
  else if t.kind l.path ≠ none then .refused .exist
  else .passes

/-- The verdict of the virtual file system on a call. -/
def verdict (t : Namespace α τ) : Call α τ → Verdict
  | .create l => t.verdictNew l
  | .mkdir l => t.verdictNew l
  | .symlink l _ => t.verdictNew l
  | .link l k =>
    if t.kind l.path = none then .refused .noent
    else if t.verdictNew k ≠ .passes then t.verdictNew k
    else if t.kind l.path = some .dir then .refused .perm
    else .passes
  | .unlink l =>
    if t.kind l.path = none then .refused .noent
    else if t.kind l.path = some .dir then .refused .isdir
    else .passes
  | .rmdir l =>
    if t.kind l.path = none then .refused .noent
    else if t.kind l.path ≠ some .dir then .refused .notdir
    else .passes
  | .rename l k =>
    if t.kind l.path = none then .refused .noent
    else if t.kind k.dir ≠ some .dir then .refused .notdir
    else if l.path = k.path ∨ t.Linked l.path k.path then .noop
    else if l.path <+: k.path then .refused .inval
    else if k.path <+: l.path then .refused .notempty
    else if t.kind l.path = some .dir ∧ t.kind k.path ≠ none ∧ t.kind k.path ≠ some .dir then
      .refused .notdir
    else if t.kind l.path ≠ some .dir ∧ t.kind k.path = some .dir then .refused .isdir
    else .passes

/-- The change a call makes when the file system carries it out. -/
def change (t : Namespace α τ) : Call α τ → Namespace α τ × Option Errno
  | .create l => (t.add l (.file t.next), none)
  | .mkdir l => (t.add l .dir, none)
  | .symlink l target => (t.add l (.symlink t.next target), none)
  | .link l k =>
    match t.node l.path with
    | none => (t, some .noent)
    | some n => (t.add k n, none)
  | .unlink l => (t.remove l, none)
  | .rmdir l => if t.Childless l.path then (t.remove l, none) else (t, some .notempty)
  | .rename l k =>
    if t.kind k.path = some .dir ∧ ¬t.Childless k.path then (t, some .notempty)
    else (t.move l k, none)

/-- A call in the hands of the file system. -/
def perform (lim : Limits α τ) (t : Namespace α τ) (c : Call α τ) : Namespace α τ × Option Errno :=
  match lim.refuses c t with
  | some e => (t, some e)
  | none => t.change c

/-- A system call. -/
def syscall (lim : Limits α τ) (t : Namespace α τ) (c : Call α τ) : Namespace α τ × Option Errno :=
  match t.verdict c with
  | .refused e => (t, some e)
  | .noop => (t, none)
  | .passes => t.perform lim c

/-- `remove`: `unlink`, and `rmdir` if there is a directory. -/
def removeCall (lim : Limits α τ) (t : Namespace α τ) (l : Place α) :
    Namespace α τ × Option Errno :=
  if (t.syscall lim (.unlink l)).2 = some .isdir then
    (t.syscall lim (.unlink l)).1.syscall lim (.rmdir l)
  else t.syscall lim (.unlink l)

variable {t t' : Namespace α τ} {lim : Limits α τ} {l k : Place α} {c : Call α τ}

/-- Isomorphic namespaces agree about new names. -/
theorem Iso.verdictNew (h : t.Iso t') (l : Place α) : t.verdictNew l = t'.verdictNew l := by
  simp only [Namespace.verdictNew, h.kind]

/-- Isomorphic namespaces give a call the same verdict. -/
theorem Iso.verdict (h : t.Iso t') (c : Call α τ) : t.verdict c = t'.verdict c := by
  cases c <;> simp only [Namespace.verdict, h.verdictNew, h.kind, h.linked]

/-- A name that may be given is vacant. -/
theorem vacant_of_verdictNew (h : t.verdictNew l = .passes) : t.Vacant l := by
  unfold verdictNew at h
  split at h
  · cases h
  · split at h
    · cases h
    · next hdir =>
      split at h
      · cases h
      · next hnone => exact ⟨kind_eq_none_iff.mp (not_not.mp hnone),
          kind_eq_dir_iff.mp (not_not.mp hdir)⟩

/-- A vacant name may be given. -/
theorem verdictNew_of_vacant (h : t.Vacant l) : t.verdictNew l = .passes := by
  have hdir := kind_eq_dir_iff.mpr h.2
  have hnone := kind_eq_none_iff.mpr h.1
  simp [verdictNew, hdir, hnone]

/-- A link that passes goes from an object other than a directory to a vacant name. -/
theorem of_verdict_link (h : t.verdict (.link l k) = .passes) :
    (∃ n, t.node l.path = some n ∧ n ≠ .dir) ∧ t.Vacant k := by
  simp only [Namespace.verdict] at h
  split at h
  · cases h
  · next hsome =>
    split at h
    · next hnew => exact absurd h hnew
    · next hnew =>
      split at h
      · cases h
      · next hdir =>
        obtain ⟨n, hn⟩ := Option.ne_none_iff_exists'.mp (mt kind_eq_none_iff.mpr hsome)
        refine ⟨⟨n, hn, ?_⟩, vacant_of_verdictNew (not_not.mp hnew)⟩
        rintro rfl
        exact hdir (kind_eq_dir_iff.mpr hn)

/-- An `unlink` that passes is about an object other than a directory. -/
theorem of_verdict_unlink (h : t.verdict (.unlink l) = .passes) :
    t.node l.path ≠ none ∧ t.node l.path ≠ some .dir := by
  simp only [Namespace.verdict] at h
  split at h
  · cases h
  · next hsome =>
    split at h
    · cases h
    · next hdir => exact ⟨mt kind_eq_none_iff.mpr hsome, mt kind_eq_dir_iff.mpr hdir⟩

/-- A `rmdir` that passes is about a directory. -/
theorem of_verdict_rmdir (h : t.verdict (.rmdir l) = .passes) : t.node l.path = some .dir := by
  simp only [Namespace.verdict] at h
  split at h
  · cases h
  · split at h
    · cases h
    · next hdir => exact kind_eq_dir_iff.mp (not_not.mp hdir)

/-- A `rename` that passes moves what is there to a directory outside of it. -/
theorem of_verdict_rename (h : t.verdict (.rename l k) = .passes) :
    t.node l.path ≠ none ∧ t.Movable l k := by
  simp only [Namespace.verdict] at h
  split at h
  · cases h
  · next hsome =>
    split at h
    · cases h
    · next hdir =>
      split at h
      · cases h
      · split at h
        · cases h
        · next hlk =>
          split at h
          · cases h
          · next hkl =>
            exact ⟨mt kind_eq_none_iff.mpr hsome, hlk, hkl, kind_eq_dir_iff.mp (not_not.mp hdir)⟩

/-- A call that fails in the file system changes nothing. -/
theorem perform_eq_self {e : Errno} (h : (t.perform lim c).2 = some e) :
    (t.perform lim c).1 = t := by
  unfold perform at h ⊢
  split
  · rfl
  · next href =>
    rw [href] at h
    cases c with
    | create l => cases h
    | mkdir l => cases h
    | symlink l target => cases h
    | link l k =>
      simp only [change] at h ⊢
      split
      · rfl
      · next n hn =>
        rw [hn] at h
        cases h
    | unlink l => cases h
    | rmdir l =>
      simp only [change] at h ⊢
      split
      · next hc =>
        rw [if_pos hc] at h
        cases h
      · rfl
    | rename l k =>
      simp only [change] at h ⊢
      split
      · rfl
      · next hc =>
        rw [if_neg hc] at h
        cases h

/-- **Isomorphic namespaces stay isomorphic** under a call that passes, and both file systems report
the same. -/
theorem Iso.change (h : t.Iso t') (hv : t.verdict c = .passes) :
    (t.change c).1.Iso (t'.change c).1 ∧ (t.change c).2 = (t'.change c).2 := by
  cases c with
  | create l =>
    have hl := vacant_of_verdictNew hv
    exact ⟨h.add_fresh hl (Nat.lt_succ_self _) (Nat.lt_succ_self _) rfl (lt_irrefl _) (lt_irrefl _),
      rfl⟩
  | mkdir l =>
    have hl := vacant_of_verdictNew hv
    exact ⟨h.add hl trivial trivial rfl fun hne => absurd rfl hne, rfl⟩
  | symlink l target =>
    have hl := vacant_of_verdictNew hv
    exact ⟨h.add_fresh hl (Nat.lt_succ_self _) (Nat.lt_succ_self _) rfl (lt_irrefl _) (lt_irrefl _),
      rfl⟩
  | link l k =>
    obtain ⟨⟨n, hn, hne⟩, hk⟩ := of_verdict_link hv
    obtain ⟨⟨n', hn', hne'⟩, -⟩ := of_verdict_link ((h.verdict _).symm.trans hv)
    simp only [Namespace.change, hn, hn']
    have hkind : n.kind = n'.kind := by
      have := h.kind l.path
      rwa [Namespace.kind, Namespace.kind, hn, hn', Option.map_some, Option.map_some,
        Option.some_inj] at this
    refine ⟨h.add hk ((t.fresh _ _ hn).mono (Nat.le_succ _))
      ((t'.fresh _ _ hn').mono (Nat.le_succ _)) hkind ?_, trivial⟩
    intro _ y
    have hlinked := h.linked l.path y
    simp only [Linked, hn, hn', ne_eq, reduceCtorEq, not_false_eq_true, Option.some_inj, hne, hne',
      and_true] at hlinked
    rw [eq_comm, hlinked, eq_comm]
  | unlink l =>
    have hl := childless_of_ne_dir (of_verdict_unlink hv).2
    exact ⟨h.remove hl, rfl⟩
  | rmdir l =>
    simp only [Namespace.change, ← h.childless_iff]
    split
    · next hc => exact ⟨h.remove hc, rfl⟩
    · exact ⟨h, rfl⟩
  | rename l k =>
    simp only [Namespace.change, ← h.childless_iff, ← h.kind]
    split
    · exact ⟨h, rfl⟩
    · exact ⟨h.move (of_verdict_rename hv).2, rfl⟩

/-- The same holds when the file system may refuse the call. -/
theorem Iso.perform (h : t.Iso t') (hv : t.verdict c = .passes) :
    (t.perform lim c).1.Iso (t'.perform lim c).1 ∧
      (t.perform lim c).2 = (t'.perform lim c).2 := by
  unfold Namespace.perform
  rw [← lim.congr c h]
  split
  · exact ⟨h, rfl⟩
  · exact h.change hv

/-- A call that passes is performed. -/
theorem syscall_of_passes (hv : t.verdict c = .passes) : t.syscall lim c = t.perform lim c := by
  rw [syscall, hv]

/-- Where `unlink` passes, `rmdir` is refused. -/
theorem verdict_rmdir_of_unlink (hv : t.verdict (.unlink l) = .passes) :
    t.verdict (.rmdir l) = .refused .notdir := by
  have hnode := of_verdict_unlink hv
  simp only [Namespace.verdict]
  rw [if_neg (mt kind_eq_none_iff.mp hnode.1), if_pos (mt kind_eq_dir_iff.mp hnode.2)]

/-- Where `rmdir` passes, `unlink` is refused. -/
theorem verdict_unlink_of_rmdir (hv : t.verdict (.rmdir l) = .passes) :
    t.verdict (.unlink l) = .refused .isdir := by
  have hdir := kind_eq_dir_iff.mpr (of_verdict_rmdir hv)
  simp only [Namespace.verdict]
  rw [hdir, if_neg (by simp), if_pos rfl]

/-- `remove` does what `unlink` does where `unlink` passes. -/
theorem removeCall_of_unlink (hv : t.verdict (.unlink l) = .passes) :
    (t.removeCall lim l).1 = (t.perform lim (.unlink l)).1 := by
  unfold removeCall
  rw [syscall_of_passes hv]
  split
  · next hisdir =>
    -- a file system that calls a file a directory has not changed anything
    rw [perform_eq_self hisdir, syscall, verdict_rmdir_of_unlink hv]
  · rfl

/-- `remove` does what `rmdir` does where `rmdir` passes. -/
theorem removeCall_of_rmdir (hv : t.verdict (.rmdir l) = .passes) :
    t.removeCall lim l = t.perform lim (.rmdir l) := by
  have hunlink : t.syscall lim (.unlink l) = (t, some .isdir) := by
    rw [syscall, verdict_unlink_of_rmdir hv]
  rw [removeCall, hunlink, if_pos rfl, syscall_of_passes hv]

end Namespace

end Posix
