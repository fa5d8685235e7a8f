import TraceFileSystem.Lib.Machine
import TraceFileSystem.Stack.LowerPaths

/-!
# Open files and their lower files

A file of trfs has private data from its opening to its release.  They lead to the lower file and,
after a first `mmap`, to the operations by which the lower file system serves page faults.

* `trfsOpen`, `trfsFileRelease`, `trfsMmap`, `trfsFault` and the others are the operations of
  `trfs/file.c` and `trfs/mmap.c` that go through these pointers.  Pointers are followed in the
  state, so that following one to memory that has been freed, or to a file that has been closed, is
  a fault.
* `beginIter` and `iterReturns` are the two halves of `trfs_read_iter` and `trfs_write_iter`, which
  put the lower file into the request, in `ki_filp`, and take it out again when the lower operation
  has returned.  A request that is queued may be completed at any moment, even before that, and then
  the file in `ki_filp` is put.
* `HandleState.exec` is one event.  The VFS calls an operation only through a reference to the file,
  and releases the file when the last reference is gone: one of a process, one of a call that is in
  progress or of its request, or one of a mapping.
-/

namespace Trfs

namespace Handles

open Posix

/-! ### Memory -/

/-- `struct vm_operations_struct` of a lower file system: whether it has a `fault` and a
`page_mkwrite`. -/
structure VmOps where
  name : ℕ
  fault : Bool
  pageMkwrite : Bool
  deriving DecidableEq

/-- The operations of a lower file that may be missing. -/
structure LowerOps where
  flush : Bool
  fasync : Bool
  unlockedIoctl : Bool
  mmap : Bool
  writepage : Bool
  readIter : Bool
  writeIter : Bool
  deriving DecidableEq

/-- `struct trfs_file_info`. -/
structure FileInfo where
  lowerFile : Option ℕ
  lowerVmOps : Option VmOps
  deriving DecidableEq

/-- An open lower file and its `f_count`. -/
structure LowerFile where
  ops : LowerOps
  count : ℕ
  deriving DecidableEq

/-- An open file: its `private_data` and its `f_count`. -/
structure UpperFile where
  privateData : Option ℕ
  count : ℕ
  deriving DecidableEq

/-- Where a call in progress stands. -/
inductive FlightKind where
  /-- Inside the lower function of `trfs_read` or `trfs_write`. -/
  | readWrite
  /-- Inside that of `trfs_readdir`. -/
  | readdir
  /-- Inside the lower operation of an `iter` function, with the lower file in `ki_filp`. -/
  | iter
  /-- Inside it, but the request has been completed and is gone. -/
  | freed
  /-- Behind it: the request is queued with the file of trfs in `ki_filp`, and the attributes are
  still to be copied. -/
  | pending
  /-- Behind it, but the request has been completed and is gone. -/
  | orphan
  /-- The call has returned, and its request is queued. -/
  | queued
  deriving DecidableEq

/-- A call in progress, with the lower file that it has in a variable. -/
structure Flight where
  call : ℕ
  file : ℕ
  lower : ℕ
  kind : FlightKind
  deriving DecidableEq

/-- A mapping of a file. -/
structure Vma where
  id : ℕ
  file : ℕ
  deriving DecidableEq

/-- The files and the memory behind them. -/
structure HandleState where
  files : ℕ → Option UpperFile
  infos : ℕ → Option FileInfo
  lower : ℕ → Option LowerFile
  /-- The number of the next file, its private data and its lower file. -/
  next : ℕ
  /-- The references of processes to a file. -/
  handles : ℕ → ℕ
  flights : List Flight
  vmas : List Vma
  /-- What the `mmap` of the lower file has left in `vm_ops`, the first time first. -/
  mmaps : ℕ → List (Option VmOps)
  /-- The lower files that have been opened, and those that have been closed. -/
  opened : List ℕ
  closed : List ℕ

namespace HandleState

/-- No file is open. -/
def empty : HandleState where
  files := fun _ => none
  infos := fun _ => none
  lower := fun _ => none
  next := 0
  handles := fun _ => 0
  flights := []
  vmas := []
  mmaps := fun _ => []
  opened := []
  closed := []

variable (s : HandleState)

/-- `TRFS_F(file)`, dereferenced. -/
def trfsF (file : ℕ) : Except Fault (ℕ × FileInfo) :=
  match s.files file with
  | none => .error .wildPtr
  | some f =>
    match f.privateData with
    | none => .error .nullDeref
    | some p =>
      match s.infos p with
      | none => .error .wildPtr
      | some info => .ok (p, info)

/-- A file of trfs, dereferenced. -/
def derefUpper (file : ℕ) : Except Fault UpperFile :=
  match s.files file with
  | none => .error .wildPtr
  | some f => .ok f

/-- A lower file, dereferenced. -/
def derefLower (l : ℕ) : Except Fault LowerFile :=
  match s.lower l with
  | none => .error .wildPtr
  | some f => .ok f

/-- `trfs_lower_file(file)`, dereferenced without a test for NULL. -/
def trfsLowerFile (file : ℕ) : Except Fault (ℕ × LowerFile) := do
  match (← s.trfsF file).2.lowerFile with
  | none => .error .nullDeref
  | some l => .ok (l, ← s.derefLower l)

/-- `get_file(lower_file)`. -/
def getFile (l : ℕ) : Except Fault HandleState := do
  let f ← s.derefLower l
  .ok { s with lower := Function.update s.lower l (some { f with count := f.count + 1 }) }

/-- `fput(lower_file)`.  The last reference closes the file. -/
def fput (l : ℕ) : Except Fault HandleState := do
  let f ← s.derefLower l
  if f.count ≤ 1 then
    .ok { s with lower := Function.update s.lower l none, closed := l :: s.closed }
  else
    .ok { s with lower := Function.update s.lower l (some { f with count := f.count - 1 }) }

/-- `kfree(TRFS_F(file))`. -/
def kfreeInfo (file : ℕ) : Except Fault HandleState :=
  match s.files file with
  | none => .error .wildPtr
  | some f =>
    match f.privateData with
    | none => .ok s
    | some p =>
      match s.infos p with
      | none => .error .wildPtr
      | some _ => .ok { s with infos := Function.update s.infos p none }

/-- `trfs_set_lower_file`. -/
def trfsSetLowerFile (file : ℕ) (val : Option ℕ) : Except Fault HandleState := do
  let (p, info) ← s.trfsF file
  .ok { s with infos := Function.update s.infos p (some { info with lowerFile := val }) }

/-! ### Opening and releasing -/

/-- What `trfs_open` meets. -/
structure OpenEnv where
  /-- `d_unhashed`. -/
  unhashed : Bool
  /-- `kzalloc` succeeds. -/
  kzalloc : Bool
  dentryOpen : Except Errno LowerOps

/-- `trfs_open` on a new `struct file`, to which the caller has a reference. -/
def trfsOpen (env : OpenEnv) : Except Fault (HandleState × CInt) :=
  let file := s.next
  let s₀ := { s with
    files := Function.update s.files file (some ⟨none, 1⟩)
    next := s.next + 1 }
  if env.unhashed then .ok (s₀, BitVec.ofInt 32 (-Errno.noent.code))
  else if env.kzalloc = false then .ok (s₀, BitVec.ofInt 32 (-Errno.nomem.code))
  else
    let s₁ := { s₀ with
      files := Function.update s₀.files file (some ⟨some file, 1⟩)
      infos := Function.update s₀.infos file (some ⟨none, none⟩) }
    match env.dentryOpen with
    | .error e => do
      let s₂ ← match (← s₁.trfsF file).2.lowerFile with
        | none => .ok s₁
        | some l => do
          let s' ← s₁.trfsSetLowerFile file none
          s'.fput l
      .ok (← s₂.kfreeInfo file, BitVec.ofInt 32 (-e.code))
    | .ok ops => do
      let s₂ := { s₁ with
        lower := Function.update s₁.lower file (some ⟨ops, 1⟩)
        opened := file :: s₁.opened }
      .ok (← s₂.trfsSetLowerFile file (some file), 0)

/-- `do_dentry_open`: a file that could not be opened is freed without being released. -/
def openFile (env : OpenEnv) : Except Fault HandleState := do
  let (s', err) ← s.trfsOpen env
  if err = 0 then .ok { s' with handles := Function.update s'.handles s.next 1 }
  else .ok { s' with files := Function.update s'.files s.next none }

/-- `trfs_file_release`. -/
def trfsFileRelease (file : ℕ) : Except Fault HandleState := do
  match (← s.trfsF file).2.lowerFile with
  | none => s.kfreeInfo file
  | some l => do
    let s' ← s.trfsSetLowerFile file none
    (← s'.fput l).kfreeInfo file

/-- `fput(file)`.  The last reference releases the file. -/
def fputUpper (file : ℕ) : Except Fault HandleState :=
  match s.files file with
  | none => .error .wildPtr
  | some f =>
    if f.count ≤ 1 then do
      let s' ← s.trfsFileRelease file
      .ok { s' with files := Function.update s'.files file none }
    else .ok { s with files := Function.update s.files file (some { f with count := f.count - 1 }) }

/-- `get_file(file)`. -/
def getUpper (file : ℕ) : Except Fault HandleState :=
  match s.files file with
  | none => .error .wildPtr
  | some f =>
    .ok { s with files := Function.update s.files file (some { f with count := f.count + 1 }) }

/-! ### Operations on an open file -/

/-- `trfs_flush`, with what the `flush` of the lower file returns. -/
def trfsFlush (file : ℕ) (ret : CInt) : Except Fault CInt := do
  match (← s.trfsF file).2.lowerFile with
  | none => .ok 0
  | some l => .ok (if (← s.derefLower l).ops.flush then ret else 0)

/-- `trfs_fsync`, with what the two functions of the kernel return. -/
def trfsFsync (file : ℕ) (generic ret : CInt) : Except Fault CInt := do
  if generic ≠ 0 then .ok generic
  else
    let _ ← s.trfsLowerFile file
    .ok ret

/-- `trfs_fasync`. -/
def trfsFasync (file : ℕ) (ret : CInt) : Except Fault CInt := do
  let (_, f) ← s.trfsLowerFile file
  .ok (if f.ops.fasync then ret else 0)

/-- `ENOTTY`, negated. -/
def negENOTTY : CInt := BitVec.ofInt 32 (-25)

/-- `trfs_unlocked_ioctl`. -/
def trfsUnlockedIoctl (file : ℕ) (ret : CInt) : Except Fault CInt := do
  match (← s.trfsF file).2.lowerFile with
  | none => .ok negENOTTY
  | some l => .ok (if (← s.derefLower l).ops.unlockedIoctl then ret else negENOTTY)

/-- `trfs_file_llseek`, with what the two calls of `generic_file_llseek` return. -/
def trfsFileLlseek (file : ℕ) (upper lower : CInt) : Except Fault CInt := do
  if upper.toInt < 0 then .ok upper
  else
    let _ ← s.trfsLowerFile file
    .ok lower

/-! ### Calls in progress -/

/-- The system call has a reference to the file of its own. -/
def begin (call file l : ℕ) (kind : FlightKind) : Except Fault HandleState := do
  let s' ← s.getUpper file
  .ok { s' with flights := ⟨call, file, l, kind⟩ :: s'.flights }

/-- `trfs_read`, `trfs_write` or `trfs_readdir` up to the call of the lower function. -/
def beginCall (call file : ℕ) (kind : FlightKind) : Except Fault HandleState := do
  let (l, _) ← s.trfsLowerFile file
  s.begin call file l kind

/-- `trfs_read_iter` or `trfs_write_iter` up to the call of the lower operation, if the lower file
has it. -/
def beginIter (call file : ℕ) (write : Bool) : Except Fault HandleState := do
  let (l, f) ← s.trfsLowerFile file
  if (if write then f.ops.writeIter else f.ops.readIter) = false then .ok s
  else do
    let s' ← s.getFile l
    s'.begin call file l .iter

/-- An `iter` function when the lower operation returns: `ki_filp` is restored, the lower file is
put, and then the inodes of both files are read.  A request that has not been queued is completed
then. -/
def iterReturns (x : Flight) (ret : CInt) : Option (Except Fault HandleState) :=
  match x.kind with
  | .iter => some do
    let s' ← ({ s with flights := s.flights.erase x } : HandleState).fput x.lower
    if ret = negEIOCBQUEUED then
      .ok { s' with flights := { x with kind := .pending } :: s'.flights }
    else do
      if 0 ≤ ret.toInt then
        let _ ← s'.derefUpper x.file
        let _ ← s'.derefLower x.lower
      s'.fputUpper x.file
  -- `ki_filp` is written to a request that has been freed
  | .freed => some (.error .wildPtr)
  | _ => none

/-- `kiocb_free`, which puts the file in `ki_filp` when a request is completed. -/
def kiocbFree (x : Flight) : Option (Except Fault HandleState) :=
  let s₀ := { s with flights := s.flights.erase x }
  match x.kind with
  | .iter => some do
    let s' ← s₀.fput x.lower
    .ok { s' with flights := { x with kind := .freed } :: s'.flights }
  | .pending => some do
    let s' ← s₀.fputUpper x.file
    .ok { s' with flights := { x with kind := .orphan } :: s'.flights }
  | .queued => some (s₀.fputUpper x.file)
  | _ => none

/-- The rest of a call in progress, which reads the inode of the lower file. -/
def finishCall (x : Flight) (ret : CInt) : Option (Except Fault HandleState) :=
  let s₀ := { s with flights := s.flights.erase x }
  match x.kind with
  | .readWrite => some do
    if 0 ≤ ret.toInt then let _ ← s₀.derefLower x.lower
    s₀.fputUpper x.file
  | .readdir => some do
    let _ ← s₀.derefLower x.lower
    s₀.fputUpper x.file
  | .pending => some do
    let _ ← s₀.derefUpper x.file
    let _ ← s₀.derefLower x.lower
    .ok { s₀ with flights := { x with kind := .queued } :: s₀.flights }
  | .orphan => some do
    let _ ← s₀.derefUpper x.file
    let _ ← s₀.derefLower x.lower
    .ok s₀
  | _ => none

/-! ### Mappings -/

/-- `VM_WRITE`. -/
def vmWrite : BitVec 64 := 0x2

/-- `VM_SHARED`. -/
def vmShared : BitVec 64 := 0x8

/-- The flags of the mapping, and what the `mmap` of the lower file leaves in `vm_ops`. -/
structure MmapEnv where
  vmFlags : BitVec 64
  lowerMmap : Except Errno (Option VmOps)

/-- `willwrite`. -/
def MmapEnv.Willwrite (env : MmapEnv) : Prop :=
  env.vmFlags ||| vmShared ||| vmWrite = env.vmFlags

instance (env : MmapEnv) : Decidable env.Willwrite := inferInstanceAs (Decidable (_ = _))

/-- `trfs_mmap`.  The lower file is mapped only as long as no operations have been saved, and then
its `mmap` is called without a test for NULL. -/
def trfsMmap (file : ℕ) (env : MmapEnv) : Except Fault (HandleState × CInt) := do
  let (_, f) ← s.trfsLowerFile file
  if env.Willwrite ∧ f.ops.writepage = false then .ok (s, negEINVAL)
  else
    let (p, info) ← s.trfsF file
    match info.lowerVmOps with
    | some _ => .ok (s, 0)
    | none =>
      if f.ops.mmap = false then .error .nullDeref
      else
        match env.lowerMmap with
        | .error e => .ok (s, BitVec.ofInt 32 (-e.code))
        | .ok saved =>
          .ok ({ s with
            infos := Function.update s.infos p (some { info with lowerVmOps := saved })
            mmaps := Function.update s.mmaps file (s.mmaps file ++ [saved]) }, 0)

/-- `mmap_region`, which keeps a reference to the file in a mapping. -/
def mmapRegion (id file : ℕ) (env : MmapEnv) : Except Fault HandleState := do
  let (s', err) ← s.trfsMmap file env
  if err = 0 then do
    let s'' ← s'.getUpper file
    .ok { s'' with vmas := ⟨id, file⟩ :: s''.vmas }
  else .ok s'

/-- `trfs_fault` on a copy of the mapping: the lower file and the operations it calls. -/
def trfsFault (v : Vma) : Except Fault (ℕ × VmOps) := do
  match (← s.trfsF v.file).2.lowerVmOps with
  | none => .error .bugOn
  | some ops => do
    let (l, _) ← s.trfsLowerFile v.file
    if ops.fault = false then .error .nullDeref else .ok (l, ops)

/-- `trfs_page_mkwrite`, which does nothing when the lower file system does not ask for it. -/
def trfsPageMkwrite (v : Vma) : Except Fault (Option (ℕ × VmOps)) := do
  match (← s.trfsF v.file).2.lowerVmOps with
  | none => .error .bugOn
  | some ops =>
    if ops.pageMkwrite = false then .ok none
    else do
      let (l, _) ← s.trfsLowerFile v.file
      .ok (some (l, ops))

end HandleState

/-! ### Events -/

/-- What happens to the files. -/
inductive HandleEvent where
  | openFile (env : HandleState.OpenEnv)
  | dup (file : ℕ)
  | close (file : ℕ) (flush : CInt)
  | fsync (file : ℕ) (generic ret : CInt)
  | fasync (file : ℕ) (ret : CInt)
  | ioctl (file : ℕ) (ret : CInt)
  | llseek (file : ℕ) (upper lower : CInt)
  | readWrite (call file : ℕ)
  | readdir (call file : ℕ)
  /-- `readv`, `writev` or a request of `io_submit`. -/
  | iter (call file : ℕ) (write : Bool)
  /-- The lower operation of an `iter` function returns. -/
  | returns (call : ℕ) (ret : CInt)
  /-- A request is completed that has been or will be queued. -/
  | complete (call : ℕ)
  /-- A call goes on from where it stands, and returns. -/
  | finish (call : ℕ) (ret : CInt)
  | mmap (id file : ℕ) (env : HandleState.MmapEnv)
  | munmap (id : ℕ)
  | fault (id : ℕ)
  | pageMkwrite (id : ℕ)

namespace HandleState

variable (s : HandleState)

/-- A process uses its reference to a file. -/
def byHandle (file : ℕ) (x : Except Fault HandleState) : Option (Except Fault HandleState) :=
  if s.handles file = 0 then none else some x

/-- A call begins. -/
def byCall (call file : ℕ) (x : Except Fault HandleState) : Option (Except Fault HandleState) :=
  if s.flights.any (·.call = call) then none else s.byHandle file x

/-- A call in progress goes on. -/
def byFlight (call : ℕ) (x : Flight → Option (Except Fault HandleState)) :
    Option (Except Fault HandleState) :=
  (s.flights.find? (·.call = call)).bind x

/-- A process uses a mapping. -/
def byVma (id : ℕ) (x : Vma → Except Fault HandleState) : Option (Except Fault HandleState) :=
  (s.vmas.find? (·.id = id)).map x

/-- `dup`. -/
def dup (file : ℕ) : Except Fault HandleState := do
  let s' ← s.getUpper file
  .ok { s' with handles := Function.update s'.handles file (s'.handles file + 1) }

/-- `filp_close`. -/
def filpClose (file : ℕ) (flush : CInt) : Except Fault HandleState := do
  let _ ← s.trfsFlush file flush
  let s' := { s with handles := Function.update s.handles file (s.handles file - 1) }
  s'.fputUpper file

/-- `remove_vma`. -/
def removeVma (v : Vma) : Except Fault HandleState :=
  ({ s with vmas := s.vmas.erase v } : HandleState).fputUpper v.file

/-- One event, if the VFS lets it happen. -/
def exec : HandleEvent → Option (Except Fault HandleState)
  | .openFile env => some (s.openFile env)
  | .dup file => s.byHandle file (s.dup file)
  | .close file flush => s.byHandle file (s.filpClose file flush)
  | .fsync file generic ret => s.byHandle file ((s.trfsFsync file generic ret).map fun _ => s)
  | .fasync file ret => s.byHandle file ((s.trfsFasync file ret).map fun _ => s)
  | .ioctl file ret => s.byHandle file ((s.trfsUnlockedIoctl file ret).map fun _ => s)
  | .llseek file upper lower =>
    s.byHandle file ((s.trfsFileLlseek file upper lower).map fun _ => s)
  | .readWrite call file => s.byCall call file (s.beginCall call file .readWrite)
  | .readdir call file => s.byCall call file (s.beginCall call file .readdir)
  | .iter call file write => s.byCall call file (s.beginIter call file write)
  | .returns call ret => s.byFlight call fun x => s.iterReturns x ret
  | .complete call => s.byFlight call s.kiocbFree
  | .finish call ret => s.byFlight call fun x => s.finishCall x ret
  | .mmap id file env =>
    if s.vmas.any (·.id = id) then none else s.byHandle file (s.mmapRegion id file env)
  | .munmap id => s.byVma id s.removeVma
  | .fault id => s.byVma id fun v => (s.trfsFault v).map fun _ => s
  | .pageMkwrite id => s.byVma id fun v => (s.trfsPageMkwrite v).map fun _ => s

/-- One event of a run, which ends with a fault. -/
def step (s : HandleState) (e : HandleEvent) : Option HandleState :=
  (s.exec e).bind Except.toOption

end HandleState

end Handles

end Trfs
