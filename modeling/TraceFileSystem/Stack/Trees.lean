import TraceFileSystem.Lib.Machine
import TraceFileSystem.Lib.StackedCaches
import TraceFileSystem.Stack.LowerPaths

/-!
# The trees of both file systems

What the operations of trfs do to its own dentries and to those of the lower file system.  Both are
caches of directory entries; a dentry of trfs leads to a lower one in two ways, by the lower path in
its private data, and by its inode, which stands for a lower inode.

* `TreeState` has both caches and the lower paths.  Inodes of trfs are unique for a lower inode, so
  that an inode is given by the one it stands for.  `ready` are the dentries without an inode that
  were looked up since the last operation: the VFS keeps the directory locked from the lookup of a
  name to the operation on it, and a dentry without an inode is not hashed and cannot be found
  again.
* `trfsLookup`, `trfsCreate`, … are the operations, with what the lower file system decides.  The
  lower tree is only changed by them: a name that is in the lower cache is as the cache says, and
  any other name may or may not be on the disk.
* `TreeState.Congruent` compares both ways.

The lower file system may have mounts in it.  `vfs_path_lookup` follows them, and `__trfs_interpose`
compares superblocks to find out.

A logging tail that faults keeps the operation from returning, and only for `trfs_rename` does this
make a difference to the trees: the VFS moves the dentry after the operation has returned.
-/

namespace Trfs

open Dcache

namespace Stack

/-- An inode of the lower file system or of one that is mounted in it. -/
structure FsInode where
  sb : ℕ
  ino : ℕ
  isDir : Bool
  deriving DecidableEq

/-- An inode of trfs, with `trfs_lower_inode`. -/
@[ext] structure TrfsInode where
  trfsLowerInode : FsInode
  deriving DecidableEq

/-- What trfs is stacked on: the lower superblock, and what is mounted on a path. -/
structure LowerMounts where
  lowerSb : ℕ
  mountedOn : LowerPath → Option LowerPath

/-- The dentries of trfs and of the lower file system. -/
structure TreeState (α : Type) where
  upper : DentryCache α TrfsInode
  lower : DentryCache α FsInode
  lowerPath : ℕ → Option LowerPath
  ready : List ℕ

variable {α : Type} [DecidableEq α] (w : LowerMounts) (s : TreeState α)

namespace TreeState

/-- The inode of the lower dentry of a path. -/
def lowerInodeAt (p : LowerPath) : Option FsInode := (s.lower.entry p.dentry).inode

/-- `vfs_path_lookup` for a name in a lower directory: first in the cache, then on the disk, where
the name may belong to an inode.  The dentry that is found is returned before mounts are
followed. -/
def walk (dir : LowerPath) (name : α) (disk : Option FsInode) : TreeState α × Option LowerPath :=
  match s.lower.dLookup dir.dentry name with
  | some l => (s, if (s.lower.entry l).inode.isSome then some ⟨l, dir.mnt⟩ else none)
  | none =>
    match disk with
    | none => (s, none)
    | some i => ({ s with lower := s.lower.dAdd dir.dentry name (some i) },
        some ⟨s.lower.next, dir.mnt⟩)

/-- A path on which something is mounted leads to what is mounted. -/
def followMount (p : LowerPath) : LowerPath :=
  (w.mountedOn p).getD p

/-- `trfs_interpose`, which attaches an inode to the dentry, or fails: because the lower inode is on
another superblock, or without a reason of its own. -/
def interpose (d : ℕ) (p : LowerPath) (ok : Bool) : Option (TreeState α) :=
  match s.lowerInodeAt p with
  | none => none
  | some i =>
    if i.sb ≠ w.lowerSb then none
    else if ok then some { s with upper := s.upper.attach d ⟨i⟩ } else none

/-- The lower path of a dentry is set. -/
def setLowerPath (d : ℕ) (p : LowerPath) : TreeState α :=
  { s with lowerPath := Function.update s.lowerPath d (some p) }

end TreeState

/-- What the functions that `trfs_lookup` calls return. -/
structure TreeLookup where
  /-- Private data can be allocated, and `vfs_path_lookup` has no error but `ENOENT`. -/
  noError : Bool
  /-- The inode to which the name belongs on the disk. -/
  disk : Option FsInode
  interpose : Bool
  dAlloc : Bool

namespace TreeState

/-- The part of `__trfs_lookup` for a name that does not exist.  The dentry is ready if it gets a
lower path. -/
def lookupNegative (d : ℕ) (dir : LowerPath) (name : α) (dAlloc : Bool) : TreeState α :=
  match s.lower.dLookup dir.dentry name with
  | some l => { s.setLowerPath d ⟨l, dir.mnt⟩ with ready := d :: s.ready }
  | none =>
    if dAlloc = false then s
    else
      { s.setLowerPath d ⟨s.lower.next, dir.mnt⟩ with
        lower := s.lower.dAdd dir.dentry name none, ready := d :: s.ready }

/-- `trfs_lookup` for a new dentry.  When the interposition fails, the lower path is reset. -/
def trfsLookup (parent : ℕ) (name : α) (a : TreeLookup) : TreeState α :=
  let d := s.upper.next
  let s := { s with upper := s.upper.dAlloc parent name }
  match s.lowerPath parent with
  | none => s
  | some dir =>
    if a.noError = false then s
    else
      match s.walk dir name a.disk with
      | (s, some found) =>
        let p := followMount w found
        ((s.setLowerPath d p).interpose w d p a.interpose).getD s
      | (s, none) => s.lookupNegative d dir name a.dAlloc

/-- The part shared by `trfs_create`, `trfs_mkdir`, `trfs_symlink` and `trfs_mknod`.  The lower file
system makes a new inode, or fails; it fails if the lower dentry has an inode already. -/
def make (d : ℕ) (vfs : Option FsInode) (ok : Bool) : TreeState α :=
  match s.lowerPath d, vfs with
  | some p, some i =>
    if (s.lowerInodeAt p).isSome then s
    else
      let s := { s with lower := s.lower.dInstantiate p.dentry i }
      (s.interpose w d p ok).getD s
  | _, _ => s

/-- `trfs_create`. -/
def trfsCreate (d : ℕ) (vfs : Option FsInode) (ok : Bool) : TreeState α := s.make w d vfs ok

/-- `trfs_mkdir`. -/
def trfsMkdir (d : ℕ) (vfs : Option FsInode) (ok : Bool) : TreeState α := s.make w d vfs ok

/-- `trfs_symlink`. -/
def trfsSymlink (d : ℕ) (vfs : Option FsInode) (ok : Bool) : TreeState α := s.make w d vfs ok

/-- `trfs_mknod`. -/
def trfsMknod (d : ℕ) (vfs : Option FsInode) (ok : Bool) : TreeState α := s.make w d vfs ok

/-- `trfs_link`.  The lower dentry gets the inode of the old one, unless the lower file system
leaves it as it is, and then there is no interposition. -/
def trfsLink (old d : ℕ) (vfs lowerPositive ok : Bool) : TreeState α :=
  match s.lowerPath old with
  | none => s
  | some p => s.make w d (if vfs ∧ lowerPositive then s.lowerInodeAt p else none) ok

/-- `trfs_unlink`.  The lower directory is the one for which the inode of the directory stands, and
`vfs_unlink` checks that the lower dentry is in it; when the call fails, `busy` is an `EBUSY` that
counts as success. -/
def trfsUnlink (d : ℕ) (vfs busy : Bool) : TreeState α :=
  match s.lowerPath d with
  | none => s
  | some p =>
    if (s.lower.entry (s.lower.entry p.dentry).parent).inode ≠
        (s.upper.entry (s.upper.entry d).parent).inode.map TrfsInode.trfsLowerInode then s
    else if vfs then { s with upper := s.upper.dDrop d, lower := s.lower.dDrop p.dentry }
    else if busy then { s with upper := s.upper.dDrop d }
    else s

/-- `trfs_rmdir`.  The lower file system fails if there is something in the directory. -/
def trfsRmdir (d : ℕ) (vfs : Bool) : TreeState α :=
  match s.lowerPath d with
  | none => s
  | some p =>
    if vfs ∧ s.lower.Childless p.dentry then
      { s with upper := s.upper.dDrop d, lower := s.lower.dDrop p.dentry }
    else s

/-- `vfs_rename` of the lower file system, without an error.  Two names of one inode stay as they
are. -/
def vfsRename (lowerOld lowerNew : ℕ) : DentryCache α FsInode :=
  if (s.lower.entry lowerOld).inode = (s.lower.entry lowerNew).inode then s.lower
  else s.lower.dMove lowerOld lowerNew

/-- `trfs_rename`, and what the VFS does after it has returned zero: it moves the dentry.  The lower
file system fails if there is something in the directory that would be replaced. -/
def trfsRename (old new : ℕ) (vfs returns : Bool) : TreeState α :=
  match s.lowerPath old, s.lowerPath new with
  | some p, some q =>
    if vfs ∧ s.lower.Childless q.dentry then
      let s := { s with lower := s.vfsRename p.dentry q.dentry }
      if returns then { s with upper := s.upper.dMove old new } else s
    else s
  | _, _ => s

end TreeState

/-! ### Sequences of operations -/

/-- What the logging tail of `trfs_rename` meets: the paths of both names, pages and log, and the
superblock. -/
structure RenameTail where
  old : PosDentry
  new : Dentry
  env : TailEnv
  state : OpState

/-- The tail of a `trfs_rename` whose lower call has succeeded. -/
def RenameTail.op (t : RenameTail) : TracedOp := .rename 0 0 t.old t.new .none 0

/-- The tail returns. -/
def RenameTail.returns (t : RenameTail) : Bool :=
  match t.op.plan.tail.run t.env t.state with
  | .ok _ => true
  | .error _ => false

/-- Operations, with what the lower file system decides. -/
inductive TreeCall (α : Type) where
  | lookup (parent : ℕ) (name : α) (a : TreeLookup)
  | create (d : ℕ) (vfs : Option FsInode) (ok : Bool)
  | mkdir (d : ℕ) (vfs : Option FsInode) (ok : Bool)
  | symlink (d : ℕ) (vfs : Option FsInode) (ok : Bool)
  | mknod (d : ℕ) (vfs : Option FsInode) (ok : Bool)
  | link (old d : ℕ) (vfs lowerPositive ok : Bool)
  | unlink (d : ℕ) (vfs busy : Bool)
  | rmdir (d : ℕ) (vfs : Bool)
  | rename (old new : ℕ) (vfs : Bool) (tail : RenameTail)

namespace TreeState

/-- What an operation does. -/
def call : TreeCall α → TreeState α
  | .lookup parent name a => s.trfsLookup w parent name a
  | .create d vfs ok => s.trfsCreate w d vfs ok
  | .mkdir d vfs ok => s.trfsMkdir w d vfs ok
  | .symlink d vfs ok => s.trfsSymlink w d vfs ok
  | .mknod d vfs ok => s.trfsMknod w d vfs ok
  | .link old d vfs lowerPositive ok => s.trfsLink w old d vfs lowerPositive ok
  | .unlink d vfs busy => s.trfsUnlink d vfs busy
  | .rmdir d vfs => s.trfsRmdir d vfs
  | .rename old new vfs tail => s.trfsRename old new vfs tail.returns

/-- A dentry is a directory. -/
def IsDir (d : ℕ) : Prop := ∃ i ∈ (s.upper.entry d).inode, i.trfsLowerInode.isDir = true

/-- Operations that the VFS calls.  It looks up a name in a directory of which it has no hashed
dentry, makes new names for dentries it has just looked up, and removes and renames hashed dentries
with an inode.  It does not rename two names of one inode. -/
def Accepts : TreeCall α → Prop
  | .lookup parent name _ =>
    s.upper.Live parent ∧ s.IsDir parent ∧ s.upper.dLookup parent name = none
  | .create d _ _ | .mkdir d _ _ | .symlink d _ _ | .mknod d _ _ => d ∈ s.ready
  | .link old d _ _ _ => (s.upper.entry old).inode.isSome ∧ d ∈ s.ready
  | .unlink d _ _ => s.upper.Shown d ∧ ¬s.IsDir d
  | .rmdir d _ => s.upper.Shown d
  | .rename old new _ _ =>
    s.upper.Shown old ∧ (s.upper.Shown new ∨ new ∈ s.ready) ∧
      (s.upper.entry old).inode ≠ (s.upper.entry new).inode

instance decidableIsDir (d : ℕ) : Decidable (s.IsDir d) :=
  inferInstanceAs (Decidable (∃ i ∈ (s.upper.entry d).inode, _))

instance decidableTreeAccepts : (c : TreeCall α) → Decidable (s.Accepts c)
  | .lookup .. | .rename .. => inferInstanceAs (Decidable (_ ∧ _ ∧ _))
  | .create .. | .mkdir .. | .symlink .. | .mknod .. => inferInstanceAs (Decidable (_ ∈ _))
  | .link .. | .unlink .. => inferInstanceAs (Decidable (_ ∧ _))
  | .rmdir .. => inferInstanceAs (Decidable (s.upper.Shown _))

/-- After an operation other than a lookup, no dentry is ready. -/
def settle : TreeCall α → TreeState α
  | .lookup .. => s
  | _ => { s with ready := [] }

/-- One operation of a sequence. -/
def step (c : TreeCall α) : Option (TreeState α) :=
  if s.Accepts c then some ((s.call w c).settle c) else none

/-- A new mount on a lower directory. -/
def mounted (name : α) (root : FsInode) (mnt : ℕ) : TreeState α where
  upper := .rooted name ⟨root⟩
  lower := .rooted name root
  lowerPath := Function.update (fun _ => none) 0 (some ⟨0, mnt⟩)
  ready := []

/-- Both ways lead to the same lower inode, lower dentries have the same names, and their parents
are the lower dentries of the parents. -/
def Congruent : Prop :=
  ∀ d i, d ≠ 0 → (s.upper.entry d).hashed = true → (s.upper.entry d).inode = some i →
    ∃ p, s.lowerPath d = some p ∧ s.lowerInodeAt p = some i.trfsLowerInode ∧
      (s.lower.entry p.dentry).name = (s.upper.entry d).name ∧
      ∃ q j, s.lowerPath (s.upper.entry d).parent = some q ∧
        (s.lower.entry p.dentry).parent = q.dentry ∧
        (s.upper.entry (s.upper.entry d).parent).inode = some j ∧
        s.lowerInodeAt q = some j.trfsLowerInode

end TreeState

end Stack

end Trfs
