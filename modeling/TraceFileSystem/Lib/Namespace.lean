import Mathlib.Tactic
import Mathlib.Data.List.Infix

/-!
# POSIX namespaces

A finite tree of directories, regular files and symbolic links, in which a file or a symbolic link
may have several names.  Names are elements of an arbitrary type `α`, the targets of symbolic links
elements of `τ`; an object other than a directory is known by its inode number.

`Namespace` maps paths to objects and carries the invariants of a tree: what lies above an object is
a directory, and fresh inode numbers are not in use.  Three operations change it, and each of them
is described by what it does to `Namespace.node`:

* `Namespace.add` gives a vacant name to an object (`node_add`);
* `Namespace.remove` removes a name below which there is nothing (`node_remove`);
* `Namespace.move` moves a whole tree to another name (`node_move`).
-/

namespace Posix

/-! ### Association lists with paths as keys -/

section Entries

variable {α β : Type*} [DecidableEq α]

/-- Looking up among the entries whose keys pass a test. -/
theorem lookup_keep (f : List α → Bool) (x : List α) (l : List (List α × β)) :
    (l.filter fun e => f e.1).lookup x = if f x then l.lookup x else none := by
  induction l with
  | nil => simp
  | cons e l ih =>
    obtain ⟨k, b⟩ := e
    by_cases hx : x = k
    · subst hx
      cases hf : f x with
      | true => simp [hf]
      | false => simpa [List.filter_cons, hf] using ih
    · have hbeq : (x == k) = false := beq_eq_false_iff_ne.mpr hx
      rw [List.lookup_cons, hbeq, ← ih]
      cases hf : f k with
      | true => simp [hf, List.lookup_cons, hbeq]
      | false => simp [hf]

/-- A key without a value occurs in no entry. -/
theorem lookup_eq_none_iff_forall {x : List α} {l : List (List α × β)} :
    l.lookup x = none ↔ ∀ e ∈ l, e.1 ≠ x := by
  rw [List.lookup_eq_none_iff]
  constructor
  · intro h e he hx
    exact bne_iff_ne.mp (h e he) hx.symm
  · intro h e he
    exact bne_iff_ne.mpr fun hx => h e he hx.symm

/-- The key of an entry after the tree at `p` has moved to `q`. -/
def rekey (p q x : List α) : List α :=
  if p <+: x then q ++ x.drop p.length else x

/-- Moving the tree at `p` to `q`, in place of whatever was there. -/
def moveTree (p q : List α) (l : List (List α × β)) : List (List α × β) :=
  (l.filter fun e => !decide (q <+: e.1)).map fun e => (rekey p q e.1, e.2)

/-- Where the value of `x` comes from after the tree at `p` has moved to `q`. -/
def origin (p q x : List α) : Option (List α) :=
  if q <+: x then some (p ++ x.drop q.length) else if p <+: x then none else some x

/-- A key outside `q` is moved to `x` exactly if `x` originates from it. -/
theorem rekey_eq_iff {p q k x : List α} (hk : ¬q <+: k) :
    rekey p q k = x ↔ origin p q x = some k := by
  unfold rekey origin
  by_cases hpk : p <+: k
  · rw [if_pos hpk]
    constructor
    · rintro rfl
      rw [if_pos (List.prefix_append _ _), List.drop_left, List.prefix_iff_eq_append.mp hpk]
    · intro h
      split at h
      · next hq =>
        rw [Option.some_inj] at h
        rw [← h, List.drop_left, List.prefix_iff_eq_append.mp hq]
      · split at h
        · cases h
        · next hp =>
          rw [Option.some_inj] at h
          exact absurd (h ▸ hpk) hp
  · rw [if_neg hpk]
    constructor
    · rintro rfl
      rw [if_neg hk, if_neg hpk]
    · intro h
      split at h
      · rw [Option.some_inj] at h
        exact absurd (h ▸ List.prefix_append _ _) hpk
      · split at h
        · cases h
        · exact (Option.some_inj.mp h).symm

/-- An entry does not count for paths that do not originate from it. -/
theorem bind_lookup_cons {o : Option (List α)} {k : List α} (h : o ≠ some k) (b : β)
    (l : List (List α × β)) :
    (o.bind fun y => ((k, b) :: l).lookup y) = o.bind fun y => l.lookup y := by
  cases o with
  | none => rfl
  | some y =>
    have hy : (y == k) = false := beq_eq_false_iff_ne.mpr fun heq => h (congrArg some heq)
    simp [List.lookup_cons, hy]

/-- Looking up in a moved tree. -/
theorem lookup_moveTree {p q : List α} (hpq : ¬p <+: q) (hqp : ¬q <+: p) (x : List α)
    (l : List (List α × β)) :
    (moveTree p q l).lookup x = (origin p q x).bind fun y => l.lookup y := by
  -- keys below `q` are dropped, and no path originates from them
  have horigin (k : List α) (hk : q <+: k) : origin p q x ≠ some k := by
    unfold origin
    split
    · intro h
      rw [Option.some_inj] at h
      rcases List.prefix_or_prefix_of_prefix hk (h ▸ List.prefix_append _ _) with h' | h'
      · exact hqp h'
      · exact hpq h'
    · next hq =>
      split
      · simp
      · intro h
        rw [Option.some_inj] at h
        exact hq (h ▸ hk)
  induction l with
  | nil => cases origin p q x <;> rfl
  | cons e l ih =>
    obtain ⟨k, b⟩ := e
    unfold moveTree at ih ⊢
    by_cases hk : q <+: k
    · rw [List.filter_cons_of_neg (by simpa using hk), ih, bind_lookup_cons (horigin k hk)]
    · rw [List.filter_cons_of_pos (by simpa using hk), List.map_cons, List.lookup_cons, ih]
      by_cases hx : rekey p q k = x
      · rw [(rekey_eq_iff hk).mp hx]
        simp [hx]
      · have hne : ¬origin p q x = some k := fun h => hx ((rekey_eq_iff hk).mpr h)
        have hbeq : (x == rekey p q k) = false := beq_eq_false_iff_ne.mpr fun h => hx h.symm
        rw [hbeq, bind_lookup_cons hne]

end Entries

/-! ### Namespaces -/

/-- The object a path leads to.  Objects other than directories have an inode number. -/
inductive Node (τ : Type*) where
  | dir
  | file (ino : ℕ)
  | symlink (ino : ℕ) (target : τ)
  deriving DecidableEq

/-- What can be seen of an object without its inode number. -/
inductive Kind (τ : Type*) where
  | dir
  | file
  | symlink (target : τ)
  deriving DecidableEq

namespace Node

variable {τ : Type*}

/-- The kind of an object. -/
def kind : Node τ → Kind τ
  | dir => .dir
  | file _ => .file
  | symlink _ target => .symlink target

/-- The inode number of an object is below a bound. -/
def Below : Node τ → ℕ → Prop
  | dir, _ => True
  | file ino, k => ino < k
  | symlink ino _, k => ino < k

instance (n : Node τ) (k : ℕ) : Decidable (n.Below k) :=
  match n with
  | dir => .isTrue trivial
  | file ino => inferInstanceAs (Decidable (ino < k))
  | symlink ino _ => inferInstanceAs (Decidable (ino < k))

/-- A bound may be raised. -/
theorem Below.mono {n : Node τ} {j k : ℕ} (h : n.Below j) (hjk : j ≤ k) : n.Below k := by
  cases n with
  | dir => trivial
  | file ino => exact lt_of_lt_of_le h hjk
  | symlink ino target => exact lt_of_lt_of_le h hjk

/-- Only a directory has the kind of a directory. -/
@[simp] theorem kind_eq_dir_iff {n : Node τ} : n.kind = .dir ↔ n = .dir := by
  cases n <;> simp [kind]

end Node

/-- A name in a directory. -/
structure Place (α : Type*) where
  dir : List α
  name : α
  deriving DecidableEq

/-- The path of a name. -/
def Place.path {α : Type*} (l : Place α) : List α :=
  l.dir ++ [l.name]

/-- A tree of objects.  The root is a directory, what is above an object is a directory, and inode
numbers from `next` on are not in use. -/
structure Namespace (α τ : Type*) [DecidableEq α] where
  entries : List (List α × Node τ)
  next : ℕ
  root : entries.lookup [] = some .dir
  closed : ∀ p a, entries.lookup (p ++ [a]) ≠ none → entries.lookup p = some .dir
  fresh : ∀ p n, entries.lookup p = some n → n.Below next

namespace Namespace

variable {α τ : Type*} [DecidableEq α]

/-- The object at a path. -/
def node (t : Namespace α τ) (p : List α) : Option (Node τ) :=
  t.entries.lookup p

/-- The kind of the object at a path. -/
def kind (t : Namespace α τ) (p : List α) : Option (Kind τ) :=
  (t.node p).map Node.kind

/-- Two paths lead to the same object, which is not a directory. -/
def Linked (t : Namespace α τ) (p q : List α) : Prop :=
  t.node p = t.node q ∧ t.node p ≠ none ∧ t.node p ≠ some .dir

/-- Nothing lies below a path. -/
def Childless (t : Namespace α τ) (p : List α) : Prop :=
  ∀ e ∈ t.entries, p <+: e.1 → e.1 = p

/-- A name that can be given to a new object. -/
def Vacant (t : Namespace α τ) (l : Place α) : Prop :=
  t.node l.path = none ∧ t.node l.dir = some .dir

/-- A tree may be moved to a name in a directory, if neither place lies below the other. -/
def Movable (t : Namespace α τ) (l k : Place α) : Prop :=
  ¬l.path <+: k.path ∧ ¬k.path <+: l.path ∧ t.node k.dir = some .dir

section Instances

variable [DecidableEq τ] (t : Namespace α τ)

instance (p q : List α) : Decidable (t.Linked p q) :=
  inferInstanceAs (Decidable (_ ∧ _ ∧ _))

instance (p : List α) : Decidable (t.Childless p) :=
  inferInstanceAs (Decidable (∀ e ∈ t.entries, _))

instance (l : Place α) : Decidable (t.Vacant l) :=
  inferInstanceAs (Decidable (_ ∧ _))

instance (l k : Place α) : Decidable (t.Movable l k) :=
  inferInstanceAs (Decidable (_ ∧ _ ∧ _))

end Instances

variable {t t' : Namespace α τ} {l k : Place α} {n : Node τ}

/-- A path has a kind exactly if it leads to an object. -/
theorem kind_eq_none_iff {p : List α} : t.kind p = none ↔ t.node p = none := by
  rw [kind, Option.map_eq_none_iff]

/-- The directories are the objects of that kind. -/
theorem kind_eq_dir_iff {p : List α} : t.kind p = some .dir ↔ t.node p = some .dir := by
  simp [kind]

/-- Below a childless path there are no objects, and conversely. -/
theorem childless_iff {p : List α} :
    t.Childless p ↔ ∀ x, p <+: x → x ≠ p → t.node x = none := by
  constructor
  · intro h x hx hne
    refine lookup_eq_none_iff_forall.mpr fun e he hex => ?_
    subst hex
    exact hne (h e he hx)
  · intro h e he hpe
    by_contra hne
    exact lookup_eq_none_iff_forall.mp (h e.1 hpe hne) e he rfl

/-- Where there is no directory, nothing lies below. -/
theorem node_append_of_ne_dir {p : List α} (h : t.node p ≠ some .dir) {r : List α} (hr : r ≠ []) :
    t.node (p ++ r) = none := by
  induction r using List.reverseRecOn with
  | nil => exact absurd rfl hr
  | append_singleton r a ih =>
    rw [← List.append_assoc]
    by_contra hsome
    have hdir : t.node (p ++ r) = some .dir := t.closed _ a hsome
    by_cases hnil : r = []
    · subst hnil
      rw [List.append_nil] at hdir
      exact h hdir
    · rw [ih hnil] at hdir
      cases hdir

/-- An object other than a directory is childless. -/
theorem childless_of_ne_dir {p : List α} (h : t.node p ≠ some .dir) : t.Childless p := by
  refine childless_iff.mpr ?_
  rintro x ⟨r, rfl⟩ hne
  refine node_append_of_ne_dir h fun hr => hne ?_
  rw [hr, List.append_nil]

/-! ### Changes to a namespace -/

/-- Looking up behind a new entry. -/
theorem lookup_cons_ite {β : Type*} (p x : List α) (b : β) (l : List (List α × β)) :
    ((p, b) :: l).lookup x = if x = p then some b else l.lookup x := by
  by_cases h : x = p
  · simp [h]
  · simp [h, List.lookup_cons, beq_eq_false_iff_ne.mpr h]

/-- A new entry at a vacant name is below a directory, and so is everything else. -/
theorem closed_cons (h : t.Vacant l) (p : List α) (a : α)
    (hsome : ((l.path, n) :: t.entries).lookup (p ++ [a]) ≠ none) :
    ((l.path, n) :: t.entries).lookup p = some .dir := by
  have hdir : t.entries.lookup p = some .dir := by
    by_cases hp : p ++ [a] = l.path
    · rw [(List.append_inj' hp rfl).1]
      exact h.2
    · rw [lookup_cons_ite, if_neg hp] at hsome
      exact t.closed p a hsome
  have hne : p ≠ l.path := by
    rintro rfl
    cases hdir.symm.trans h.1
  rwa [lookup_cons_ite, if_neg hne]

/-- The entries other than those of a path. -/
def entriesExcept (t : Namespace α τ) (p : List α) : List (List α × Node τ) :=
  t.entries.filter fun e => !decide (e.1 = p)

/-- Looking up among the entries other than those of a path. -/
theorem lookup_entriesExcept (p x : List α) :
    (t.entriesExcept p).lookup x = if x = p then none else t.node x := by
  rw [entriesExcept, lookup_keep fun x => !decide (x = p)]
  by_cases h : x = p
  · simp [h]
  · simp [h, node]

/-- Removing a childless path leaves everything below a directory. -/
theorem closed_entriesExcept (h : t.Childless l.path) (p : List α) (a : α)
    (hsome : (t.entriesExcept l.path).lookup (p ++ [a]) ≠ none) :
    (t.entriesExcept l.path).lookup p = some .dir := by
  rw [lookup_entriesExcept] at hsome ⊢
  split at hsome
  · exact absurd rfl hsome
  · have hne : p ≠ l.path := by
      rintro rfl
      exact hsome (childless_iff.mp h _ (List.prefix_append _ _) (by simp))
    rw [if_neg hne]
    exact t.closed p a hsome

/-- Moving a tree leaves everything below a directory. -/
theorem closed_moveTree (h : t.Movable l k) (p : List α) (a : α)
    (hsome : (moveTree l.path k.path t.entries).lookup (p ++ [a]) ≠ none) :
    (moveTree l.path k.path t.entries).lookup p = some .dir := by
  rw [lookup_moveTree h.1 h.2.1] at hsome ⊢
  by_cases hk : k.path <+: p ++ [a]
  · rcases List.prefix_concat_iff.mp hk with heq | hpre
    · -- the directory of the new name is outside both places
      have hp : p = k.dir := (List.append_inj' heq rfl).1.symm
      have hkp : ¬k.path <+: p := by
        intro hpre
        have := hpre.length_le
        simp [hp, Place.path] at this
      have hlp : ¬l.path <+: p := by
        intro hpre
        exact h.1 (hpre.trans ⟨[k.name], by rw [hp, Place.path]⟩)
      rw [origin, if_neg hkp, if_neg hlp, hp]
      exact h.2.2
    · obtain ⟨r, rfl⟩ := hpre
      rw [origin, if_pos hk, List.append_assoc, List.drop_left, Option.bind_some,
        ← List.append_assoc] at hsome
      rw [origin, if_pos (List.prefix_append _ _), List.drop_left]
      exact t.closed _ a hsome
  · have hkp : ¬k.path <+: p := fun hpre => hk (hpre.trans (List.prefix_append _ _))
    rw [origin, if_neg hk] at hsome
    split at hsome
    · exact absurd rfl hsome
    · next hl =>
      have hlp : ¬l.path <+: p := fun hpre => hl (hpre.trans (List.prefix_append _ _))
      rw [origin, if_neg hkp, if_neg hlp]
      exact t.closed p a hsome

/-- Removing a name below which there is nothing. -/
def remove (t : Namespace α τ) (l : Place α) : Namespace α τ :=
  if h : t.Childless l.path then
    { entries := t.entriesExcept l.path
      next := t.next
      root := by
        rw [lookup_entriesExcept, if_neg (by simp [Place.path])]
        exact t.root
      closed := closed_entriesExcept h
      fresh := by
        intro p m hm
        rw [lookup_entriesExcept] at hm
        split at hm
        · cases hm
        · exact t.fresh p m hm }
  else t

/-- What is left after a childless name was removed. -/
theorem node_remove (h : t.Childless l.path) (x : List α) :
    (t.remove l).node x = if x = l.path then none else t.node x := by
  rw [remove, dif_pos h]
  exact lookup_entriesExcept _ _

variable [DecidableEq τ]

/-- Giving a vacant name to an object. -/
def add (t : Namespace α τ) (l : Place α) (n : Node τ) : Namespace α τ :=
  if h : t.Vacant l ∧ n.Below (t.next + 1) then
    { entries := (l.path, n) :: t.entries
      next := t.next + 1
      root := by
        rw [lookup_cons_ite, if_neg (by simp [Place.path])]
        exact t.root
      closed := closed_cons h.1
      fresh := by
        intro p m hm
        rw [lookup_cons_ite] at hm
        split at hm
        · cases hm
          exact h.2
        · exact (t.fresh p m hm).mono (Nat.le_succ _) }
  else t

/-- Moving the tree at a name to another name, in place of whatever is there. -/
def move (t : Namespace α τ) (l k : Place α) : Namespace α τ :=
  if h : t.Movable l k then
    { entries := moveTree l.path k.path t.entries
      next := t.next
      root := by
        rw [lookup_moveTree h.1 h.2.1, origin, if_neg (by simp [Place.path]),
          if_neg (by simp [Place.path])]
        exact t.root
      closed := closed_moveTree h
      fresh := by
        intro p m hm
        rw [lookup_moveTree h.1 h.2.1] at hm
        obtain ⟨y, -, hy⟩ := Option.bind_eq_some_iff.mp hm
        exact t.fresh y m hy }
  else t

/-- What a vacant name leads to after it was given to an object. -/
theorem node_add (h : t.Vacant l) (hn : n.Below (t.next + 1)) (x : List α) :
    (t.add l n).node x = if x = l.path then some n else t.node x := by
  rw [add, dif_pos ⟨h, hn⟩]
  exact lookup_cons_ite _ _ _ _

/-- Where everything is after a tree was moved. -/
theorem node_move (h : t.Movable l k) (x : List α) :
    (t.move l k).node x = (origin l.path k.path x).bind fun y => t.node y := by
  rw [move, dif_pos h]
  exact lookup_moveTree h.1 h.2.1 _ _

/-- The tree without any objects but the root. -/
def rootOnly (α τ : Type*) [DecidableEq α] : Namespace α τ where
  entries := [([], .dir)]
  next := 0
  root := rfl
  closed p a hsome := by
    rw [lookup_cons_ite, if_neg (by simp)] at hsome
    exact absurd rfl hsome
  fresh p n hn := by
    rw [lookup_cons_ite] at hn
    split at hn
    · cases hn
      trivial
    · cases hn

/-- A chain of directories with the same name. -/
def chain (a : α) : ℕ → Namespace α τ
  | 0 => rootOnly α τ
  | n + 1 => (chain a n).add ⟨List.replicate n a, a⟩ .dir

/-- The directories of a chain. -/
theorem node_chain (a : α) (n k : ℕ) :
    (chain a n : Namespace α τ).node (List.replicate k a) = if k ≤ n then some .dir else none := by
  induction n generalizing k with
  | zero =>
    cases k with
    | zero => rfl
    | succ k => rfl
  | succ n ih =>
    have hpath : (⟨List.replicate n a, a⟩ : Place α).path = List.replicate (n + 1) a :=
      List.replicate_succ'.symm
    have hvacant : (chain a n : Namespace α τ).Vacant ⟨List.replicate n a, a⟩ := by
      refine ⟨?_, ?_⟩
      · rw [hpath, ih, if_neg (Nat.not_succ_le_self n)]
      · rw [ih, if_pos le_rfl]
    have hbelow : (Node.dir : Node τ).Below ((chain a n : Namespace α τ).next + 1) := trivial
    rw [chain, node_add hvacant hbelow, hpath, ih]
    by_cases hk : k = n + 1
    · rw [hk, if_pos rfl, if_pos le_rfl]
    · rw [if_neg (mt List.replicate_left_inj.mp hk)]
      exact if_congr ⟨fun h => h.trans (Nat.le_succ n),
        fun h => Nat.le_of_lt_succ (lt_of_le_of_ne h hk)⟩
        rfl rfl

end Namespace

end Posix
