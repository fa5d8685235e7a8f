import TraceFileSystem.Lib.Journal
import TraceFileSystem.System.Headers

/-!
# Operations as sequences of steps

A traced operation takes the locks of its lower parents, performs the lower operation, interposes
what it has made, takes `trfs_lock`, appends its record, releases `trfs_lock` and releases the lower
parents. Any number of threads do this on one mount, and other threads can run between any two of
these steps. The steps inside `trfs_lock` are those of `Stage.next`, so the two writes of
`append_record` are two steps as well.

* `Task` is one call of an operation, `Phase` is where it stands and `FsState` the whole state.
* `DirTree` is what the VFS knows of the directories: for each of them the directories on the way to
  the root, from which `dentry_path_raw` makes a pathname.
* `step` is one step, labelled by a `FsEvent`; `Steps` lists once what a step can do.

A directory has the same number above and below.  The locks which the VFS holds on the upper
directories are left out, so there are more runs here than in a kernel.  Ghost fields remember in
which order the lower operations took effect and in which order the headers were written, to whom
the headers in the log belong, which call made a directory, and on the way to which directories the
names in a record were.
-/

namespace Trfs

open LabelledSystem

/-! ### Calls -/

namespace TracedOp

/-- The lower operation is called: a `rename` that ran into a trap returns before that. -/
def performs : TracedOp → Bool
  | rename _ _ _ _ trap _ => trap = .none
  | _ => true

/-- The directory in which a new directory has been made below. -/
def madeIn : TracedOp → Option ℕ
  | mkdir _ parent _ _ vfs _ => if vfs = 0 then some parent else none
  | _ => none

/-- The directory in which a new directory appears: `trfs_interpose` has made its dentry
positive. -/
def appearsIn : TracedOp → Option ℕ
  | mkdir _ parent _ _ vfs interpose => if vfs = 0 ∧ interpose = 0 then some parent else none
  | _ => none

/-- The directory into which the VFS moves a dentry when `trfs_rename` has returned zero. -/
def movedTo : TracedOp → Option ℕ
  | op@(rename _ newParent _ _ _ _) => if op.plan.ret = 0 then some newParent else none
  | _ => none

/-- A directory that appears has been made. -/
theorem madeIn_of_appearsIn {op : TracedOp} {p : ℕ} (h : op.appearsIn = some p) :
    op.madeIn = some p := by
  unfold appearsIn at h
  split at h
  · split at h
    · next hok =>
      cases h
      exact if_pos hok.1
    · cases h
  · cases h

end TracedOp

/-- One call of a traced operation. -/
structure Task where
  /-- Calls are numbered as they begin. -/
  num : ℕ
  op : TracedOp
  /-- The directory of the old name of a `link`, and of the file of a `write`, when the call begins.
  A rename that moves the file before the record is filled does not change it. -/
  home : ℕ
  /-- What the call is about: the lower inode written, the directory made, the object moved. -/
  object : ℕ
  deriving DecidableEq

namespace Task

/-- The lower directories that are locked. -/
def lowerDirs (k : Task) : List ℕ := k.op.plan.lowerDirs

/-- The logging tail. -/
def tail (k : Task) : Tail := k.op.plan.tail

/-- The directories in which the names of a call stand. -/
def names (k : Task) : List ℕ :=
  match k.op with
  | .link _ parent _ _ _ _ => [k.home, parent]
  | .rename oldParent newParent _ _ _ _ => [oldParent, newParent]
  | .write _ _ _ _ _ => [k.home]
  | .create _ parent _ _ _ _ => [parent]
  | .unlink _ parent _ _ _ => [parent]
  | .symlink _ parent _ _ _ _ => [parent]
  | .mkdir _ parent _ _ _ _ => [parent]
  | .rmdir _ parent _ _ => [parent]

end Task

/-! ### Directories -/

/-- The directories known to the VFS, each with the directories on the way to the root, itself
first. A directory that is not known has no way to the root. -/
structure DirTree where
  chain : ℕ → List ℕ
  head_eq : ∀ d, chain d = [] ∨ ∃ l, chain d = d :: l
  closed : ∀ d, ∀ x ∈ chain d, chain x ≠ []

namespace DirTree

/-- The root and nothing else. -/
def root : DirTree where
  chain d := if d = 0 then [0] else []
  head_eq d := by
    by_cases hd : d = 0
    · exact .inr ⟨[], by rw [if_pos hd, hd]⟩
    · exact .inl (if_neg hd)
  closed d x hx := by
    by_cases hd : d = 0
    · rw [if_pos hd, List.mem_singleton] at hx
      rw [if_pos hx]
      exact List.cons_ne_nil _ _
    · rw [if_neg hd] at hx
      cases hx

/-- A directory becomes known. -/
def add (tree : DirTree) (d p : ℕ) : DirTree where
  chain := Function.update tree.chain d (d :: tree.chain p)
  head_eq x := by
    by_cases hx : x = d
    · rw [hx, Function.update_self]
      exact .inr ⟨_, rfl⟩
    · rw [Function.update_of_ne hx]
      exact tree.head_eq x
  closed x y hy := by
    by_cases hyd : y = d
    · rw [hyd, Function.update_self]
      exact List.cons_ne_nil _ _
    · rw [Function.update_of_ne hyd]
      by_cases hx : x = d
      · rw [hx, Function.update_self] at hy
        exact tree.closed p y ((List.mem_cons.mp hy).resolve_left hyd)
      · rw [Function.update_of_ne hx] at hy
        exact tree.closed x y hy

/-- The way to the root after `x` was moved into `p`. -/
def rerouted (tree : DirTree) (x p : ℕ) (l : List ℕ) : List ℕ :=
  if x ∈ l then l.takeWhile (· ≠ x) ++ x :: tree.chain p else l

/-- What is on a new way was on an old one. -/
theorem mem_rerouted {tree : DirTree} {x p y : ℕ} {l : List ℕ} (hy : y ∈ tree.rerouted x p l) :
    y ∈ l ∨ y ∈ tree.chain p := by
  unfold rerouted at hy
  split at hy
  · next hx =>
    rw [List.mem_append, List.mem_cons] at hy
    rcases hy with hy | rfl | hy
    · exact .inl ((List.takeWhile_sublist _).subset hy)
    · exact .inl hx
    · exact .inr hy
  · exact .inl hy

/-- A way that leads somewhere still does. -/
theorem rerouted_ne_nil {tree : DirTree} {x p : ℕ} {l : List ℕ} (hl : l ≠ []) :
    tree.rerouted x p l ≠ [] := by
  unfold rerouted
  split
  · exact List.append_ne_nil_of_right_ne_nil _ (List.cons_ne_nil _ _)
  · exact hl

/-- A directory is moved into another one, and everything in it with it. -/
def move (tree : DirTree) (x p : ℕ) : DirTree where
  chain d := tree.rerouted x p (tree.chain d)
  head_eq d := by
    rcases tree.head_eq d with hd | ⟨l, hl⟩
    · left
      rw [hd]
      rfl
    · right
      unfold rerouted
      rw [hl]
      split
      · by_cases hdx : d = x
        · exact ⟨tree.chain p, by simp [hdx]⟩
        · exact ⟨_, by rw [List.takeWhile_cons_of_pos (by simpa using hdx), List.cons_append]⟩
      · exact ⟨l, rfl⟩
  closed d y hy := by
    apply rerouted_ne_nil
    rcases mem_rerouted hy with hy | hy
    · exact tree.closed d y hy
    · exact tree.closed p y hy

@[simp] theorem chain_add_self (tree : DirTree) (d p : ℕ) :
    (tree.add d p).chain d = d :: tree.chain p :=
  Function.update_self _ _ _

theorem chain_add_of_ne (tree : DirTree) {d x : ℕ} (p : ℕ) (h : x ≠ d) :
    (tree.add d p).chain x = tree.chain x :=
  Function.update_of_ne h _ _

end DirTree

/-! ### The state -/

/-- Where a call stands. -/
inductive Phase where
  /-- The lower parents that are still to be locked. -/
  | locking (rest : List ℕ)
  /-- The lower operation has returned. -/
  | performed
  /-- `trfs_lock` is to be taken. -/
  | ready
  /-- `trfs_lock` is held. -/
  | inside
  /-- The lower parents that are still to be released. -/
  | leaving (rest : List ℕ)
  /-- The thread was stopped by the kernel outside `trfs_lock`. -/
  | stopped
  deriving DecidableEq

/-- What a thread is doing. -/
structure Activity where
  task : Task
  phase : Phase
  deriving DecidableEq

/-- One mount and the threads that use it. -/
structure FsState where
  kernel : Kernel
  mnt : Mount
  /-- Who holds the lock of a lower directory. -/
  dirLock : ℕ → Option ℕ
  doing : ℕ → Option Activity
  tree : DirTree
  /-- Ghost: how many calls have begun. -/
  started : ℕ
  /-- Ghost: the calls whose lower operation was performed, in order. -/
  effects : List Task
  /-- Ghost: the calls that have written the header of a record, in order. -/
  written : List Task
  /-- Ghost: the headers in the log, by position, and to whom they belong. -/
  records : List (ℕ × Task)
  /-- Ghost: the call that has made a directory. -/
  maker : ℕ → Option Task
  /-- Ghost: the directories on the way to the names in a record when it was filled. -/
  under : Task → List ℕ

/-- What can happen. -/
inductive FsEvent where
  /-- The VFS calls an operation. -/
  | enter (t : ℕ) (op : TracedOp) (home object : ℕ)
  /-- The lock of a lower parent is taken. -/
  | lockDir (t d : ℕ)
  /-- The lower operation is performed. -/
  | perform (t : ℕ)
  /-- `trfs_interpose`, where the operation gets to it. -/
  | interpose (t : ℕ)
  /-- `trfs_lock` is taken. -/
  | lock (t : ℕ)
  /-- A step inside `trfs_lock`. -/
  | work (t : ℕ) (e : TailStep)
  /-- `trfs_lock` is released. -/
  | unlock (t : ℕ)
  /-- The lock of a lower parent is released. -/
  | unlockDir (t d : ℕ)
  /-- The operation returns to the VFS. -/
  | leave (t : ℕ)
  /-- A directory that has been made, but could not be interposed, is looked up. -/
  | lookup (d : ℕ)
  /-- `TR_SET_BMAP`. -/
  | setBmap (umask : BitVec 64)
  /-- Something happens on another mount. -/
  | elsewhere (k : Kernel)
  deriving DecidableEq

/-- A step inside `trfs_lock` writes the header of a record. -/
def Mount.writesHeader (m : Mount) (sb : SbInfo) : Stage → Bool
  | .header _ _ => m.sb.log.fPos < sb.log.fPos
  | _ => false

namespace FsState

/-- A thread does something else. -/
def setDoing (s : FsState) (t : ℕ) (a : Option Activity) : FsState :=
  { s with doing := Function.update s.doing t a }

@[simp] theorem doing_setDoing_self (s : FsState) (t : ℕ) (a : Option Activity) :
    (s.setDoing t a).doing t = a :=
  Function.update_self _ _ _

/-- The lock of a lower directory changes hands. -/
def setDirLock (s : FsState) (d : ℕ) (t : Option ℕ) : FsState :=
  { s with dirLock := Function.update s.dirLock d t }

/-- A call has performed its lower operation. -/
def afterLower (s : FsState) (k : Task) : FsState :=
  { s with
    effects := if k.op.performs then s.effects ++ [k] else s.effects
    maker := if k.op.madeIn.isSome then Function.update s.maker k.object (some k) else s.maker }

/-- A directory has appeared. -/
def afterInterpose (s : FsState) (k : Task) : FsState :=
  match k.op.appearsIn with
  | some p => { s with tree := s.tree.add k.object p }
  | none => s

/-- The VFS has moved a dentry. -/
def afterReturn (s : FsState) (k : Task) : FsState :=
  match k.op.movedTo with
  | some p => { s with tree := s.tree.move k.object p }
  | none => s

/-- The headers in the log after a step inside `trfs_lock`, the way `Mount.headersAfter` has
them. -/
def recordsAfter (s : FsState) (k : Task) (sb : SbInfo) (stage : Stage) : List (ℕ × Task) :=
  (if s.mnt.writesHeader sb stage then s.records ++ [(s.mnt.sb.log.fPos.toNat, k)]
    else s.records).filter fun p => p.1 + recIdSize ≤ sb.log.fPos.toNat

/-- A call has taken a step inside `trfs_lock`. -/
def afterWork (s : FsState) (k : Task) (h : Holder) (e : TailStep) (kernel : Kernel) (sb : SbInfo)
    (stage : Stage) : FsState :=
  { s with
    kernel := kernel
    mnt := s.mnt.after h e sb stage
    written := if s.mnt.writesHeader sb stage then s.written ++ [k] else s.written
    records := s.recordsAfter k sb stage
    under :=
      match stage with
      | .filled _ => Function.update s.under k (k.names.flatMap s.tree.chain)
      | _ => s.under }

/-- One step; `none` when the event cannot happen. -/
def step (s : FsState) : FsEvent → Option FsState
  | .enter t op home object =>
    let k : Task := ⟨s.started, op, home, object⟩
    if s.doing t = none ∧ ∀ d ∈ k.names, s.tree.chain d ≠ [] then
      some { s.setDoing t (some ⟨k, .locking k.lowerDirs⟩) with started := s.started + 1 }
    else none
  | .lockDir t d =>
    match s.doing t with
    | some ⟨k, .locking rest⟩ =>
      if d ∈ rest ∧ s.dirLock d = none then
        some ((s.setDirLock d (some t)).setDoing t (some ⟨k, .locking (rest.erase d)⟩))
      else none
    | _ => none
  | .perform t =>
    match s.doing t with
    | some ⟨k, .locking []⟩ =>
      -- a new directory gets an inode that no other directory has or had
      if k.op.madeIn = none ∨ s.maker k.object = none ∧ s.tree.chain k.object = [] then
        some ((s.afterLower k).setDoing t (some ⟨k, .performed⟩))
      else none
    | _ => none
  | .interpose t =>
    match s.doing t with
    | some ⟨k, .performed⟩ =>
      some ((s.afterInterpose k).setDoing t
        (some ⟨k, if k.tail.inode = none then .stopped else .ready⟩))
    | _ => none
  | .lock t =>
    match s.doing t with
    | some ⟨k, .ready⟩ =>
      if s.mnt.holder = none then
        some { s.setDoing t (some ⟨k, .inside⟩) with
          mnt := { s.mnt with holder := some ⟨t, k.tail, .locked⟩ } }
      else none
    | _ => none
  | .work t e =>
    match s.doing t, s.mnt.holder with
    | some ⟨k, .inside⟩, some h =>
      if h.thread = t then
        match h.stage.next s.kernel s.mnt.sb h.tail e with
        | some (kernel, sb, stage) => some (s.afterWork k h e kernel sb stage)
        | none => none
      else none
    | _, _ => none
  | .unlock t =>
    match s.doing t, s.mnt.holder with
    | some ⟨k, .inside⟩, some h =>
      if h.thread = t ∧ h.stage = .leaving then
        some { s.setDoing t (some ⟨k, .leaving k.lowerDirs⟩) with
          mnt := { s.mnt with holder := none } }
      else none
    | _, _ => none
  | .unlockDir t d =>
    match s.doing t with
    | some ⟨k, .leaving rest⟩ =>
      if d ∈ rest ∧ s.dirLock d = some t then
        some ((s.setDirLock d none).setDoing t (some ⟨k, .leaving (rest.erase d)⟩))
      else none
    | _ => none
  | .leave t =>
    match s.doing t with
    | some ⟨k, .leaving []⟩ => some ((s.afterReturn k).setDoing t none)
    | _ => none
  | .lookup d =>
    match s.maker d with
    | some k =>
      match k.op.madeIn with
      | some p => if s.tree.chain d = [] then some { s with tree := s.tree.add d p } else none
      | none => none
    | none => none
  | .setBmap umask =>
    if s.mnt.holder = none then
      some { s with mnt := { s.mnt with sb := { s.mnt.sb with umask := umask } } }
    else none
  | .elsewhere k => some { s with kernel := k }

/-- What a step can do, case by case. -/
inductive Steps (s : FsState) : FsEvent → FsState → Prop
  | enter (t : ℕ) (op : TracedOp) (home object : ℕ) (k : Task)
      (hk : k = ⟨s.started, op, home, object⟩) (hidle : s.doing t = none)
      (hnames : ∀ d ∈ k.names, s.tree.chain d ≠ []) :
      Steps s (.enter t op home object)
        { s.setDoing t (some ⟨k, .locking k.lowerDirs⟩) with started := s.started + 1 }
  | lockDir (t d : ℕ) (k : Task) (rest : List ℕ) (hdoing : s.doing t = some ⟨k, .locking rest⟩)
      (hd : d ∈ rest) (hfree : s.dirLock d = none) :
      Steps s (.lockDir t d)
        ((s.setDirLock d (some t)).setDoing t (some ⟨k, .locking (rest.erase d)⟩))
  | perform (t : ℕ) (k : Task) (hdoing : s.doing t = some ⟨k, .locking []⟩)
      (hfresh : k.op.madeIn = none ∨ s.maker k.object = none ∧ s.tree.chain k.object = []) :
      Steps s (.perform t) ((s.afterLower k).setDoing t (some ⟨k, .performed⟩))
  | interpose (t : ℕ) (k : Task) (phase : Phase) (hdoing : s.doing t = some ⟨k, .performed⟩)
      (hphase : phase = .stopped ∨ phase = .ready) :
      Steps s (.interpose t) ((s.afterInterpose k).setDoing t (some ⟨k, phase⟩))
  | lock (t : ℕ) (k : Task) (hdoing : s.doing t = some ⟨k, .ready⟩) (hfree : s.mnt.holder = none) :
      Steps s (.lock t)
        { s.setDoing t (some ⟨k, .inside⟩) with
          mnt := { s.mnt with holder := some ⟨t, k.tail, .locked⟩ } }
  | work (t : ℕ) (e : TailStep) (k : Task) (h : Holder) (kernel : Kernel) (sb : SbInfo)
      (stage : Stage) (hdoing : s.doing t = some ⟨k, .inside⟩) (hholder : s.mnt.holder = some h)
      (hthread : h.thread = t)
      (hnext : h.stage.next s.kernel s.mnt.sb h.tail e = some (kernel, sb, stage)) :
      Steps s (.work t e) (s.afterWork k h e kernel sb stage)
  | unlock (t : ℕ) (k : Task) (h : Holder) (hdoing : s.doing t = some ⟨k, .inside⟩)
      (hholder : s.mnt.holder = some h) (hleaving : h.stage = .leaving) :
      Steps s (.unlock t)
        { s.setDoing t (some ⟨k, .leaving k.lowerDirs⟩) with
          mnt := { s.mnt with holder := none } }
  | unlockDir (t d : ℕ) (k : Task) (rest : List ℕ) (hdoing : s.doing t = some ⟨k, .leaving rest⟩)
      (hheld : s.dirLock d = some t) :
      Steps s (.unlockDir t d)
        ((s.setDirLock d none).setDoing t (some ⟨k, .leaving (rest.erase d)⟩))
  | leave (t : ℕ) (k : Task) (hdoing : s.doing t = some ⟨k, .leaving []⟩) :
      Steps s (.leave t) ((s.afterReturn k).setDoing t none)
  | lookup (d p : ℕ) (k : Task) (hmaker : s.maker d = some k) (hmade : k.op.madeIn = some p)
      (hunknown : s.tree.chain d = []) :
      Steps s (.lookup d) { s with tree := s.tree.add d p }
  | setBmap (umask : BitVec 64) (hfree : s.mnt.holder = none) :
      Steps s (.setBmap umask)
        { s with mnt := { s.mnt with sb := { s.mnt.sb with umask := umask } } }
  | elsewhere (k : Kernel) : Steps s (.elsewhere k) { s with kernel := k }

/-- Every step is one of these cases. -/
theorem steps_of_step {s s' : FsState} {e : FsEvent} (h : s.step e = some s') : Steps s e s' := by
  cases e with
  | enter t op home object =>
    simp only [step] at h
    split at h
    · next hguard =>
      cases h
      exact .enter t op home object _ rfl hguard.1 hguard.2
    · cases h
  | lockDir t d =>
    simp only [step] at h
    split at h
    · next k rest hdoing =>
      split at h
      · next hguard =>
        cases h
        exact .lockDir t d k rest hdoing hguard.1 hguard.2
      · cases h
    · cases h
  | perform t =>
    simp only [step] at h
    split at h
    · next k hdoing =>
      split at h
      · next hfresh =>
        cases h
        exact .perform t k hdoing hfresh
      · cases h
    · cases h
  | interpose t =>
    simp only [step] at h
    split at h
    · next k hdoing =>
      cases h
      refine .interpose t k _ hdoing ?_
      split
      · exact .inl rfl
      · exact .inr rfl
    · cases h
  | lock t =>
    simp only [step] at h
    split at h
    · next k hdoing =>
      split at h
      · next hfree =>
        cases h
        exact .lock t k hdoing hfree
      · cases h
    · cases h
  | work t e =>
    simp only [step] at h
    split at h
    · next k h' hdoing hholder =>
      split at h
      · next hthread =>
        split at h
        · next kernel sb stage hnext =>
          cases h
          exact .work t e k h' kernel sb stage hdoing hholder hthread hnext
        · cases h
      · cases h
    · cases h
  | unlock t =>
    simp only [step] at h
    split at h
    · next k h' hdoing hholder =>
      split at h
      · next hguard =>
        cases h
        exact .unlock t k h' hdoing hholder hguard.2
      · cases h
    · cases h
  | unlockDir t d =>
    simp only [step] at h
    split at h
    · next k rest hdoing =>
      split at h
      · next hguard =>
        cases h
        exact .unlockDir t d k rest hdoing hguard.2
      · cases h
    · cases h
  | leave t =>
    simp only [step] at h
    split at h
    · next k hdoing =>
      cases h
      exact .leave t k hdoing
    · cases h
  | lookup d =>
    simp only [step] at h
    split at h
    · next k hmaker =>
      split at h
      · next p hmade =>
        split at h
        · next hunknown =>
          cases h
          exact .lookup d p k hmaker hmade hunknown
        · cases h
      · cases h
    · cases h
  | setBmap umask =>
    simp only [step] at h
    split at h
    · next hfree =>
      cases h
      exact .setBmap umask hfree
    · cases h
  | elsewhere k =>
    cases h
    exact .elsewhere k

end FsState

end Trfs
