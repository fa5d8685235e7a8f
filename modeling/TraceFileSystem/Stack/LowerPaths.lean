import TraceFileSystem.Lib.Programs
import TraceFileSystem.Ops.TracedOps

/-!
# Lower paths

A dentry of trfs has a lower path in its private data: a dentry and a mount of the lower file
system. `trfs_lookup` sets it and `trfs_d_release` gives it back; all other operations get it at the
beginning and put it at the end, and those that change a directory lock the lower one in between.

The operations are programs over a `StackState`, which counts what trfs holds of the lower file
system: references to dentries and to mounts, and locks.  A program stops at a fault or at a lock
that is not free, with everything held that was not given back before.  What a lower call returns is
an argument of the operation.

* `trfsGetLowerPath`, …, `unlockDir` are the helpers of `trfs.h`.
* `trfsLookup`, `trfsDRelease` are those of `lookup.c` and `dentry.c`; the logging tails are the
  ones of `TracedOps`.
* `StackCall.program` is the operation that a call runs, and `StackState.step` one call of a
  sequence.
-/

namespace Trfs

namespace Stack

/-! ### What is held -/

/-- Something of the lower file system that trfs holds and has to give back. -/
inductive Resource where
  /-- A reference to a dentry. -/
  | dentry (d : ℕ)
  /-- A reference to a mount. -/
  | mnt (m : ℕ)
  /-- The lock of an inode. -/
  | lock (i : ℕ)
  /-- `s_vfs_rename_mutex` of the superblock. -/
  | renameMutex
  deriving DecidableEq

/-- `struct path` of the lower file system. -/
structure LowerPath where
  dentry : ℕ
  mnt : ℕ
  deriving DecidableEq

/-- A lower directory: its dentry, and the inode with the lock. -/
structure LowerDir where
  dentry : ℕ
  inode : ℕ
  deriving DecidableEq

/-- A mount with its live dentries, what it holds of the lower file system, and what the logging
tails work on. -/
structure StackState where
  live : List ℕ
  /-- `d_fsdata`: NULL, or private data in which the lower path may be empty. -/
  fsdata : ℕ → Option (Option LowerPath)
  holds : Resource → ℤ
  sb : SbInfo
  kernel : Kernel
  trfsLock : Bool

/-- Why an operation does not return. -/
inductive Stop where
  | fault (f : Fault)
  /-- It waits for a lock that nobody releases. -/
  | blocked
  deriving DecidableEq

/-- Programs of trfs. -/
abbrev StackM := EStateM Stop StackState

/-- A reference is taken: `dget`, `mntget`. -/
def acquire (r : Resource) : StackM Unit :=
  modify fun s => { s with holds := s.holds + Pi.single r 1 }

/-- A reference is given back or a lock is released: `dput`, `mntput`, `inode_unlock`,
`mutex_unlock`. -/
def release (r : Resource) : StackM Unit :=
  modify fun s => { s with holds := s.holds - Pi.single r 1 }

/-- `inode_lock`, `mutex_lock`. -/
def lock (r : Resource) : StackM Unit := do
  if 0 < (← get).holds r then throw .blocked else acquire r

/-- `path_get`. -/
def pathGet (p : LowerPath) : StackM Unit := do
  acquire (.mnt p.mnt)
  acquire (.dentry p.dentry)

/-- `path_put`. -/
def pathPut (p : LowerPath) : StackM Unit := do
  release (.dentry p.dentry)
  release (.mnt p.mnt)

/-- `TRFS_D`, dereferenced. -/
def trfsD (d : ℕ) : StackM (Option LowerPath) := do
  match (← get).fsdata d with
  | none => throw (.fault .nullDeref)
  | some p => pure p

/-- The private data of a dentry is written. -/
def setFsdata (d : ℕ) (info : Option (Option LowerPath)) : StackM Unit :=
  modify fun s => { s with fsdata := Function.update s.fsdata d info }

/-- `trfs_get_lower_path`.  An empty path is copied without a fault, but all callers go on to
dereference its dentry. -/
def trfsGetLowerPath (d : ℕ) : StackM LowerPath := do
  match ← trfsD d with
  | none => throw (.fault .nullDeref)
  | some p => do
    pathGet p
    pure p

/-- `trfs_put_lower_path`. -/
def trfsPutLowerPath (_d : ℕ) (p : LowerPath) : StackM Unit :=
  pathPut p

/-- `trfs_set_lower_path`. -/
def trfsSetLowerPath (d : ℕ) (p : LowerPath) : StackM Unit := do
  let _ ← trfsD d
  setFsdata d (some (some p))

/-- `trfs_put_reset_lower_path`.  Putting an empty path does nothing. -/
def trfsPutResetLowerPath (d : ℕ) : StackM Unit := do
  let lowerPath ← trfsD d
  setFsdata d (some none)
  match lowerPath with
  | none => pure ()
  | some p => pathPut p

/-- `lock_parent`, when the parent is `dir`. -/
def lockParent (dir : LowerDir) : StackM Unit := do
  acquire (.dentry dir.dentry)
  lock (.lock dir.inode)

/-- `unlock_dir`. -/
def unlockDir (dir : LowerDir) : StackM Unit := do
  release (.lock dir.inode)
  release (.dentry dir.dentry)

/-- `lock_rename`. -/
def lockRename (p₁ p₂ : LowerDir) : StackM Unit := do
  if p₁ = p₂ then lock (.lock p₁.inode)
  else do
    lock .renameMutex
    lock (.lock p₁.inode)
    lock (.lock p₂.inode)

/-- `unlock_rename`. -/
def unlockRename (p₁ p₂ : LowerDir) : StackM Unit := do
  release (.lock p₁.inode)
  if p₁ = p₂ then pure ()
  else do
    release (.lock p₂.inode)
    release .renameMutex

/-- A logging tail.  The superblock is found first, then `trfs_lock` is taken; it stays taken when
`fill_record` or `append_record` faults. -/
def logTail (env : TailEnv) (t : Tail) : StackM Unit := fun s =>
  if t.inode.isSome ∧ s.trfsLock = true then .error .blocked s
  else
    match t.run env ⟨s.sb, s.kernel, s.trfsLock, []⟩ with
    | .ok o => .ok () { s with sb := o.sb, kernel := o.kernel, trfsLock := o.trfsLock }
    | .error f => .error (.fault f) { s with trfsLock := t.inode.isSome }

/-! ### Lookup and release -/

/-- `ENOENT`, negated. -/
def negENOENT : CInt := BitVec.ofInt 32 (-2)

/-- `ENOMEM`, negated. -/
def negENOMEM : CInt := BitVec.ofInt 32 (-12)

/-- What the functions that `trfs_lookup` calls return. -/
structure LookupEnv where
  /-- Private data can be allocated. -/
  privateData : Bool
  vfsPathLookup : Except CInt LowerPath
  /-- `__trfs_interpose`: NULL, another dentry of the inode, or an error. -/
  interpose : Except CInt (Option ℕ)
  dLookup : Option ℕ
  dAlloc : Option ℕ

/-- `__trfs_lookup` on a dentry that is not the root. -/
def lookupLower (d : ℕ) (lowerParentPath : LowerPath) (env : LookupEnv) :
    StackM (Except CInt (Option ℕ)) :=
  match env.vfsPathLookup with
  | .ok lowerPath => do
    -- the path comes with its references
    pathGet lowerPath
    trfsSetLowerPath d lowerPath
    match env.interpose with
    | .ok ret => pure (.ok ret)
    | .error err => do
      trfsPutResetLowerPath d
      pure (.error err)
  | .error err =>
    if err ≠ negENOENT then pure (.error err)
    else
      -- both `d_lookup` and `d_alloc` return a dentry with a reference
      match env.dLookup <|> env.dAlloc with
      | none => pure (.error negENOMEM)
      | some lowerDentry => do
        acquire (.dentry lowerDentry)
        acquire (.mnt lowerParentPath.mnt)
        trfsSetLowerPath d ⟨lowerDentry, lowerParentPath.mnt⟩
        pure (.ok none)

/-- `trfs_lookup`. -/
def trfsLookup (parent d : ℕ) (env : LookupEnv) : StackM (Except CInt (Option ℕ)) := do
  let lowerParentPath ← trfsGetLowerPath parent
  let ret ←
    if env.privateData = false then pure (.error negENOMEM)
    else do
      setFsdata d (some none)
      lookupLower d lowerParentPath env
  trfsPutLowerPath parent lowerParentPath
  pure ret

/-- `trfs_d_release`. -/
def trfsDRelease (d : ℕ) : StackM Unit := do
  trfsPutResetLowerPath d
  setFsdata d none

/-! ### Operations in a directory -/

/-- The part shared by `trfs_create`, `trfs_symlink`, `trfs_mkdir` and `trfs_rmdir`. -/
def inLowerDir (d : ℕ) (dir : LowerDir) (env : TailEnv) (plan : Plan) : StackM CInt := do
  let lowerPath ← trfsGetLowerPath d
  lockParent dir
  logTail env plan.tail
  unlockDir dir
  trfsPutLowerPath d lowerPath
  pure plan.ret

/-- `trfs_unlink`, which has a reference of its own to the lower dentry. -/
def trfsUnlink (d : ℕ) (dir : LowerDir) (env : TailEnv) (plan : Plan) : StackM CInt := do
  let lowerPath ← trfsGetLowerPath d
  acquire (.dentry lowerPath.dentry)
  lockParent dir
  logTail env plan.tail
  unlockDir dir
  release (.dentry lowerPath.dentry)
  trfsPutLowerPath d lowerPath
  pure plan.ret

/-- `trfs_link`. -/
def trfsLink (old new : ℕ) (dir : LowerDir) (env : TailEnv) (plan : Plan) : StackM CInt := do
  let lowerOldPath ← trfsGetLowerPath old
  let lowerNewPath ← trfsGetLowerPath new
  lockParent dir
  logTail env plan.tail
  unlockDir dir
  trfsPutLowerPath old lowerOldPath
  trfsPutLowerPath new lowerNewPath
  pure plan.ret

/-- `trfs_mknod`, which has no logging tail. -/
def trfsMknod (d : ℕ) (dir : LowerDir) (vfs interpose : CInt) : StackM CInt := do
  let lowerPath ← trfsGetLowerPath d
  lockParent dir
  unlockDir dir
  trfsPutLowerPath d lowerPath
  pure (thenInterpose vfs interpose)

/-- `trfs_rename`. -/
def trfsRename (old new : ℕ) (oldDir newDir : LowerDir) (env : TailEnv) (plan : Plan) :
    StackM CInt := do
  let lowerOldPath ← trfsGetLowerPath old
  let lowerNewPath ← trfsGetLowerPath new
  acquire (.dentry oldDir.dentry)
  acquire (.dentry newDir.dentry)
  lockRename oldDir newDir
  logTail env plan.tail
  unlockRename oldDir newDir
  release (.dentry oldDir.dentry)
  release (.dentry newDir.dentry)
  trfsPutLowerPath old lowerOldPath
  trfsPutLowerPath new lowerNewPath
  pure plan.ret

/-! ### Operations on one lower path -/

/-- `EOPNOTSUPP`, negated. -/
def negEOPNOTSUPP : CInt := BitVec.ofInt 32 (-95)

/-- `ECHILD`, negated. -/
def negECHILD : CInt := BitVec.ofInt 32 (-10)

/-- The part shared by the operations that get the lower path, make one lower call and put the
path. -/
def onLowerPath (d : ℕ) (err : CInt) : StackM CInt := do
  let lowerPath ← trfsGetLowerPath d
  trfsPutLowerPath d lowerPath
  pure err

/-- `trfs_readlink`; `has` is whether the lower inode has the operation. -/
def trfsReadlink (d : ℕ) (has : Bool) (err : CInt) : StackM CInt :=
  onLowerPath d (if has then err else negEINVAL)

/-- `trfs_getattr`. -/
def trfsGetattr (d : ℕ) (err : CInt) : StackM CInt :=
  onLowerPath d err

/-- `trfs_setxattr`. -/
def trfsSetxattr (d : ℕ) (has : Bool) (err : CInt) : StackM CInt :=
  onLowerPath d (if has then err else negEOPNOTSUPP)

/-- `trfs_getxattr`. -/
def trfsGetxattr (d : ℕ) (has : Bool) (err : CInt) : StackM CInt :=
  onLowerPath d (if has then err else negEOPNOTSUPP)

/-- `trfs_listxattr`. -/
def trfsListxattr (d : ℕ) (has : Bool) (err : CInt) : StackM CInt :=
  onLowerPath d (if has then err else negEOPNOTSUPP)

/-- `trfs_removexattr`. -/
def trfsRemovexattr (d : ℕ) (has : Bool) (err : CInt) : StackM CInt :=
  onLowerPath d (if has then err else negEINVAL)

/-- `trfs_statfs`. -/
def trfsStatfs (d : ℕ) (err : CInt) : StackM CInt :=
  onLowerPath d err

/-- `trfs_d_revalidate`; `rcu` is the flag `LOOKUP_RCU`. -/
def trfsDRevalidate (d : ℕ) (rcu has : Bool) (err : CInt) : StackM CInt :=
  if rcu then pure negECHILD else onLowerPath d (if has then err else 1)

/-- `trfs_fsync`, with what `__generic_file_fsync` and `vfs_fsync_range` return. -/
def trfsFsync (d : ℕ) (generic err : CInt) : StackM CInt :=
  if generic ≠ 0 then pure generic else onLowerPath d err

/-- `trfs_open`; `alloc` is whether the file info can be allocated.  The lower file has references
of its own. -/
def trfsOpen (d : ℕ) (unhashed alloc : Bool) (err : CInt) : StackM CInt :=
  if unhashed then pure negENOENT
  else if alloc = false then pure negENOMEM
  else do
    let lowerPath ← trfsGetLowerPath d
    pathPut lowerPath
    pure err

/-- `trfs_setattr`, with what `inode_change_ok`, `inode_newsize_ok` (zero if the size is not set)
and `notify_change` return. -/
def trfsSetattr (d lowerInode : ℕ) (changeOk newsizeOk err : CInt) : StackM CInt :=
  if changeOk ≠ 0 then pure changeOk
  else do
    let lowerPath ← trfsGetLowerPath d
    let err ←
      if newsizeOk ≠ 0 then pure newsizeOk
      else do
        lock (.lock lowerInode)
        release (.lock lowerInode)
        pure err
    trfsPutLowerPath d lowerPath
    pure err

/-! ### Sequences of calls -/

/-- Calls of the VFS, with what the lower file system and the allocations return in them. -/
inductive StackCall where
  /-- `trfs_lookup` for a new dentry. -/
  | lookup (parent d : ℕ) (env : LookupEnv)
  /-- The last reference to a dentry is dropped. -/
  | dRelease (d : ℕ)
  | create (d : ℕ) (lowerDir : LowerDir) (dir : Inode) (dentry : Dentry) (mode vfs interpose : CInt)
      (env : TailEnv)
  | link (oldD newD : ℕ) (lowerDir : LowerDir) (old : PosDentry) (new : Dentry) (vfs : CInt)
      (lowerPositive : Bool) (interpose : CInt) (env : TailEnv)
  | unlink (d : ℕ) (lowerDir : LowerDir) (dir : Inode) (dentry : PosDentry) (vfs : CInt)
      (nfsRenamed : Bool) (env : TailEnv)
  | symlink (d : ℕ) (lowerDir : LowerDir) (dir : Inode) (dentry : Dentry) (symname : CString)
      (vfs interpose : CInt) (env : TailEnv)
  | mkdir (d : ℕ) (lowerDir : LowerDir) (dir : Inode) (dentry : Dentry) (mode vfs interpose : CInt)
      (env : TailEnv)
  | rmdir (d : ℕ) (lowerDir : LowerDir) (dir : Inode) (dentry : PosDentry) (vfs : CInt)
    (env : TailEnv)
  | mknod (d : ℕ) (lowerDir : LowerDir) (vfs interpose : CInt)
  | rename (oldD newD : ℕ) (oldDir newDir : LowerDir) (old : PosDentry) (new : Dentry) (trap : Trap)
      (vfs : CInt) (env : TailEnv)
  | readlink (d : ℕ) (has : Bool) (err : CInt)
  | setattr (d lowerInode : ℕ) (changeOk newsizeOk err : CInt)
  | getattr (d : ℕ) (err : CInt)
  | setxattr (d : ℕ) (has : Bool) (err : CInt)
  | getxattr (d : ℕ) (has : Bool) (err : CInt)
  | listxattr (d : ℕ) (has : Bool) (err : CInt)
  | removexattr (d : ℕ) (has : Bool) (err : CInt)
  | fileOpen (d : ℕ) (unhashed alloc : Bool) (err : CInt)
  | fsync (d : ℕ) (generic err : CInt)
  | statfs (d : ℕ) (err : CInt)
  | dRevalidate (d : ℕ) (rcu has : Bool) (err : CInt)

/-- What an operation returns: an error code, a pointer or an error pointer, or nothing. -/
inductive Ret where
  | code (err : CInt)
  | ptr (r : Except CInt (Option ℕ))
  | void

namespace StackCall

/-- The traced operation of a call, with what happens in its logging tail. -/
def traced : StackCall → Option (TracedOp × TailEnv)
  | create _ lowerDir dir dentry mode vfs interpose env =>
    some (.create dir lowerDir.inode dentry mode vfs interpose, env)
  | link _ _ lowerDir old new vfs lowerPositive interpose env =>
    some (.link old lowerDir.inode new vfs lowerPositive interpose, env)
  | unlink _ lowerDir dir dentry vfs nfsRenamed env =>
    some (.unlink dir lowerDir.inode dentry vfs nfsRenamed, env)
  | symlink _ lowerDir dir dentry symname vfs interpose env =>
    some (.symlink dir lowerDir.inode dentry symname vfs interpose, env)
  | mkdir _ lowerDir dir dentry mode vfs interpose env =>
    some (.mkdir dir lowerDir.inode dentry mode vfs interpose, env)
  | rmdir _ lowerDir dir dentry vfs env => some (.rmdir dir lowerDir.inode dentry vfs, env)
  | rename _ _ oldDir newDir old new trap vfs env =>
    some (.rename oldDir.inode newDir.inode old new trap vfs, env)
  | _ => none

/-- The dentries that a call gets. -/
def dentries : StackCall → List ℕ
  | lookup parent _ _ => [parent]
  | dRelease _ => []
  | link oldD newD _ _ _ _ _ _ _ => [oldD, newD]
  | rename oldD newD _ _ _ _ _ _ _ => [oldD, newD]
  | create d _ _ _ _ _ _ _ | unlink d _ _ _ _ _ _ | symlink d _ _ _ _ _ _ _
  | mkdir d _ _ _ _ _ _ _ | rmdir d _ _ _ _ _ | mknod d _ _ _ | readlink d _ _ | setattr d _ _ _ _
  | getattr d _ | setxattr d _ _ | getxattr d _ _ | listxattr d _ _ | removexattr d _ _
  | fileOpen d _ _ _ | fsync d _ _ | statfs d _ | dRevalidate d _ _ _ => [d]

/-- The operation that a call runs.  A new dentry is live from its lookup on.  `__trfs_lookup` sets
the dentry operations right after the private data was allocated, so that `trfs_d_release` is called
exactly for the dentries that have private data. -/
def program : StackCall → StackM Ret
  | lookup parent d env => do
    modify fun s => { s with live := d :: s.live, fsdata := Function.update s.fsdata d none }
    .ptr <$> trfsLookup parent d env
  | dRelease d => do
    if ((← get).fsdata d).isSome then trfsDRelease d
    modify fun s => { s with live := s.live.erase d }
    pure .void
  | create d lowerDir dir dentry mode vfs interpose env => .code <$>
    inLowerDir d lowerDir env (trfsCreate dir lowerDir.inode dentry mode vfs interpose)
  | link oldD newD lowerDir old new vfs lowerPositive interpose env => .code <$>
    trfsLink oldD newD lowerDir env
      (Trfs.trfsLink old lowerDir.inode new vfs lowerPositive interpose)
  | unlink d lowerDir dir dentry vfs nfsRenamed env => .code <$>
    trfsUnlink d lowerDir env (Trfs.trfsUnlink dir lowerDir.inode dentry vfs nfsRenamed)
  | symlink d lowerDir dir dentry symname vfs interpose env => .code <$>
    inLowerDir d lowerDir env (trfsSymlink dir lowerDir.inode dentry symname vfs interpose)
  | mkdir d lowerDir dir dentry mode vfs interpose env => .code <$>
    inLowerDir d lowerDir env (trfsMkdir dir lowerDir.inode dentry mode vfs interpose)
  | rmdir d lowerDir dir dentry vfs env => .code <$>
    inLowerDir d lowerDir env (trfsRmdir dir lowerDir.inode dentry vfs)
  | mknod d lowerDir vfs interpose => .code <$> trfsMknod d lowerDir vfs interpose
  | rename oldD newD oldDir newDir old new trap vfs env => .code <$>
    trfsRename oldD newD oldDir newDir env
      (Trfs.trfsRename oldDir.inode newDir.inode old new trap vfs)
  | readlink d has err => .code <$> trfsReadlink d has err
  | setattr d lowerInode changeOk newsizeOk err => .code <$>
    trfsSetattr d lowerInode changeOk newsizeOk err
  | getattr d err => .code <$> trfsGetattr d err
  | setxattr d has err => .code <$> trfsSetxattr d has err
  | getxattr d has err => .code <$> trfsGetxattr d has err
  | listxattr d has err => .code <$> trfsListxattr d has err
  | removexattr d has err => .code <$> trfsRemovexattr d has err
  | fileOpen d unhashed alloc err => .code <$> trfsOpen d unhashed alloc err
  | fsync d generic err => .code <$> trfsFsync d generic err
  | statfs d err => .code <$> trfsStatfs d err
  | dRevalidate d rcu has err => .code <$> trfsDRevalidate d rcu has err

/-- What the VFS promises besides: a dentry to be looked up is new and one to be released is live, a
symlink target is a string of `getname`, and a lower directory has one dentry. -/
def Promised (s : StackState) : StackCall → Prop
  | lookup _ d _ => d ∉ s.live
  | dRelease d => d ∈ s.live
  | symlink _ _ _ _ symname _ _ _ => 1 ≤ symname.strlen ∧ symname.strlen ≤ 4095
  | rename _ _ oldDir newDir _ _ _ _ _ => oldDir.inode = newDir.inode → oldDir = newDir
  | _ => True

end StackCall

namespace StackState

/-- The lower path of a dentry, if it is set. -/
def lowerPath (s : StackState) (d : ℕ) : Option LowerPath := (s.fsdata d).join

/-- Calls that the VFS makes: the dentries it passes are live and were looked up. -/
def Accepts (s : StackState) (c : StackCall) : Prop :=
  (∀ d ∈ c.dentries, d ∈ s.live ∧ (s.lowerPath d).isSome) ∧ c.Promised s

instance decidablePromised (s : StackState) : (c : StackCall) → Decidable (c.Promised s)
  | .lookup .. => inferInstanceAs (Decidable (_ ∉ _))
  | .dRelease .. => inferInstanceAs (Decidable (_ ∈ _))
  | .symlink .. => inferInstanceAs (Decidable (_ ∧ _))
  | .rename .. => inferInstanceAs (Decidable (_ → _))
  | .create .. | .link .. | .unlink .. | .mkdir .. | .rmdir .. | .mknod .. | .readlink ..
  | .setattr .. | .getattr .. | .setxattr .. | .getxattr .. | .listxattr .. | .removexattr ..
  | .fileOpen .. | .fsync .. | .statfs .. | .dRevalidate .. => .isTrue trivial

instance decidableAccepts (s : StackState) (c : StackCall) : Decidable (s.Accepts c) :=
  inferInstanceAs (Decidable (_ ∧ _))

/-- One call of a sequence.  An operation that stops leaves behind what it holds, and the next call
is made by another process. -/
def step (s : StackState) (c : StackCall) : Option StackState :=
  if s.Accepts c then some (Programs.lastState c.program s) else none

/-- A new mount, with the lower path of its root. -/
def mounted (root : LowerPath) (sb : SbInfo) (kernel : Kernel) : StackState where
  live := [0]
  fsdata := Function.update (fun _ => none) 0 (some (some root))
  holds := Pi.single (.dentry root.dentry) 1 + Pi.single (.mnt root.mnt) 1
  sb := sb
  kernel := kernel
  trfsLock := false

end StackState

end Stack

end Trfs
