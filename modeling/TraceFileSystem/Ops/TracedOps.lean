import TraceFileSystem.Record.AppendRecord

/-!
# The eight traced operations

`trfs_create`, `trfs_link`, `trfs_unlink`, `trfs_symlink`, `trfs_mkdir`, `trfs_rmdir` and
`trfs_rename` of `trfs/inode.c` and `trfs_write` of `trfs/file.c`.  Each of them locks the lower
parents it needs, calls the lower file system, interposes a new dentry where there is one, and ends
in a logging tail: take `trfs_lock` of the superblock, mask the record type, fill a record and
append it, release the lock.  Whatever goes wrong before, the tail is reached, with the error so far
as the result.

What the lower file system and `trfs_interpose` return is a parameter of an operation.  What the VFS
promises is in the types: a directory is an `Inode`, a name that exists is a `PosDentry`, and a name
about to be created is a `Dentry` without an inode.

* `Tail` collects what a tail uses, the inode through which it finds the superblock among it; `Plan`
  adds the lower directories that are locked around it and the value returned.
* `trfsCreate`, …, `trfsWrite` are the plans of the eight operations, `Plan.run` executes one.
* `LoggedOnce` says that the operation was logged once, with the result it returned, and that all
  locks were released.

The tail of `trfs_symlink` looks for the superblock behind the new dentry, which has no inode when
the symlink was not created; all other tails use an inode that is there.  `loggedOnce_iff` shows
that, short of failing allocations and failing writes, this is the only way for an operation not to
be logged.
-/

namespace Trfs

open ByteStore

/-! ### Masks and tails -/

/-- An inode of the mounted file system, known by the number of its mount. -/
structure Inode where
  mnt : ℕ
  deriving DecidableEq

/-- A positive dentry. -/
structure PosDentry extends Dentry where
  inode : Inode
  deriving DecidableEq

/-- What a logging tail uses. -/
structure Tail where
  /-- The inode through which the superblock is found; NULL for a negative dentry. -/
  inode : Option Inode
  type : RecType
  dentry : Dentry
  flags : CInt
  permFlags : CInt
  err : CInt
  aux : AuxArg
  auxLen : CInt
  deriving DecidableEq

/-- A record type is traced under a mask. -/
def traces (umask : BitVec 64) (t : RecType) : Prop :=
  umask.getLsbD t.shift = true

instance (umask : BitVec 64) (t : RecType) : Decidable (traces umask t) :=
  inferInstanceAs (Decidable (_ = true))

/-- `record_type = type & umask`. -/
def maskedType (umask : BitVec 64) (t : RecType) : CInt :=
  (t.code.setWidth 64 &&& umask).setWidth 32

/-- The arguments with which a tail calls `fill_record`. -/
def Tail.fillArgs (t : Tail) (umask : BitVec 64) : FillArgs where
  type := maskedType umask t.type
  dentry := t.dentry
  flags := t.flags
  permFlags := t.permFlags
  err := t.err
  aux := t.aux
  auxLen := t.auxLen

/-- A mask keeps a traced type and clears any other. -/
theorem maskedType_eq (umask : BitVec 64) (t : RecType) :
    maskedType umask t = if traces umask t then t.code else 0 := by
  have hcode : t.code.setWidth 64 = BitVec.twoPow 64 t.shift := by
    cases t <;> decide
  have hback : (BitVec.twoPow 64 t.shift).setWidth 32 = t.code := by
    rw [← hcode]
    cases t <;> decide
  rw [maskedType, hcode, BitVec.and_comm, BitVec.and_twoPow]
  by_cases h : traces umask t
  · rw [if_pos h, if_pos (show umask.getLsbD t.shift = true from h), hback]
  · rw [if_neg h, if_neg (show ¬umask.getLsbD t.shift = true from h)]
    rfl

/-- The arguments of a traced type, with the mask left out. -/
def Tail.args (t : Tail) : FillArgs where
  type := t.type.code
  dentry := t.dentry
  flags := t.flags
  permFlags := t.permFlags
  err := t.err
  aux := t.aux
  auxLen := t.auxLen

/-- A mask that traces the type does not change the arguments. -/
theorem Tail.fillArgs_of_traces {t : Tail} {umask : BitVec 64} (h : traces umask t.type) :
    t.fillArgs umask = t.args := by
  rw [fillArgs, args, maskedType_eq, if_pos h]

/-- A mask that does not trace the type clears it. -/
theorem Tail.type_fillArgs_of_not_traces {t : Tail} {umask : BitVec 64}
    (h : ¬traces umask t.type) : (t.fillArgs umask).type = 0 := by
  rw [fillArgs, maskedType_eq, if_neg h]

/-- The record of a tail keeps within the format. -/
def Tail.Fits (t : Tail) : Prop := t.args.Framed

/-! ### Operations -/

/-- A traced operation around its tail: the lower directories it holds locked and the value it
returns. -/
structure Plan where
  lowerDirs : List ℕ
  tail : Tail
  ret : CInt
  deriving DecidableEq

/-- The error after a lower call and the interposition that follows it if it succeeded. -/
def thenInterpose (vfs interpose : CInt) : CInt :=
  if vfs ≠ 0 then vfs else interpose

/-- Both have to succeed. -/
theorem thenInterpose_eq_zero_iff (vfs interpose : CInt) :
    thenInterpose vfs interpose = 0 ↔ vfs = 0 ∧ interpose = 0 := by
  unfold thenInterpose
  by_cases h : vfs = 0
  · rw [if_neg (not_not.mpr h)]
    exact ⟨fun hi => ⟨h, hi⟩, fun hi => hi.2⟩
  · rw [if_pos h]
    exact ⟨fun hv => absurd hv h, fun hv => hv.1⟩

/-- The part shared by the operations on one name without auxiliary data, whose tails find the
superblock through the directory. -/
def planInDir (type : RecType) (dir : Inode) (parent : ℕ) (dentry : Dentry) (mode err : CInt) :
    Plan where
  lowerDirs := [parent]
  tail :=
    { inode := some dir, type := type, dentry := dentry, flags := 0, permFlags := mode, err := err
      aux := .chars .null, auxLen := 0 }
  ret := err

/-- `trfs_create`. -/
def trfsCreate (dir : Inode) (parent : ℕ) (dentry : Dentry) (mode vfs interpose : CInt) : Plan :=
  planInDir .fcreat dir parent dentry mode (thenInterpose vfs interpose)

/-- `trfs_mkdir`. -/
def trfsMkdir (dir : Inode) (parent : ℕ) (dentry : Dentry) (mode vfs interpose : CInt) : Plan :=
  planInDir .dcreat dir parent dentry mode (thenInterpose vfs interpose)

/-- `EBUSY`, negated. -/
def negEBUSY : CInt := BitVec.ofInt 32 (-16)

/-- `trfs_unlink`.  An `EBUSY` for a file that NFS has renamed away counts as success. -/
def trfsUnlink (dir : Inode) (parent : ℕ) (dentry : PosDentry) (vfs : CInt) (nfsRenamed : Bool) :
    Plan :=
  planInDir .unlink dir parent dentry.toDentry 0
    (if vfs = negEBUSY ∧ nfsRenamed = true then 0 else vfs)

/-- `trfs_rmdir`, which logs the record type of `trfs_unlink`. -/
def trfsRmdir (dir : Inode) (parent : ℕ) (dentry : PosDentry) (vfs : CInt) : Plan :=
  planInDir .unlink dir parent dentry.toDentry 0 vfs

/-- `trfs_link`.  A link whose lower dentry has stayed negative is not interposed. -/
def trfsLink (old : PosDentry) (parent : ℕ) (new : Dentry) (vfs : CInt) (lowerPositive : Bool)
    (interpose : CInt) : Plan :=
  let err := if vfs ≠ 0 ∨ lowerPositive = false then vfs else interpose
  { lowerDirs := [parent]
    tail :=
      { inode := some old.inode, type := .link, dentry := old.toDentry, flags := 0, permFlags := 0
        err := err, aux := .dentry new, auxLen := 0 }
    ret := err }

/-- `trfs_symlink`.  The tail finds the superblock through the new dentry, which is positive only
after it has been interposed. -/
def trfsSymlink (dir : Inode) (parent : ℕ) (dentry : Dentry) (symname : CString)
    (vfs interpose : CInt) : Plan :=
  let err := thenInterpose vfs interpose
  { lowerDirs := [parent]
    tail :=
      { inode := if err = 0 then some dir else none, type := .symlink, dentry := dentry, flags := 0
        permFlags := 0, err := err, aux := .chars (.vfs symname)
        auxLen := BitVec.ofNat 32 symname.strlen }
    ret := err }

/-- What `lock_rename` found to be an ancestor of the other side. -/
inductive Trap where
  | none
  | old
  | new
  deriving DecidableEq

/-- `EINVAL`, negated. -/
def negEINVAL : CInt := BitVec.ofInt 32 (-22)

/-- `ENOTEMPTY`, negated. -/
def negENOTEMPTY : CInt := BitVec.ofInt 32 (-39)

/-- `EIOCBQUEUED`, negated: an asynchronous request has been queued. -/
def negEIOCBQUEUED : CInt := BitVec.ofInt 32 (-529)

/-- `trfs_rename`. -/
def trfsRename (oldParent newParent : ℕ) (old : PosDentry) (new : Dentry) (trap : Trap)
    (vfs : CInt) : Plan :=
  let err :=
    match trap with
    | .old => negEINVAL
    | .new => negENOTEMPTY
    | .none => vfs
  { lowerDirs := if oldParent = newParent then [oldParent] else [oldParent, newParent]
    tail :=
      { inode := some old.inode, type := .rename, dentry := old.toDentry, flags := 0, permFlags := 0
        err := err, aux := .dentry new, auxLen := 0 }
    ret := err }

/-- `trfs_write`.  No lower directory is locked. -/
def trfsWrite (dentry : PosDentry) (fFlags : CInt) (buf : CharPtr) (count : ℕ) (vfs : CInt) :
    Plan where
  lowerDirs := []
  tail :=
    { inode := some dentry.inode, type := .fwrite, dentry := dentry.toDentry, flags := fFlags
      permFlags := 0, err := vfs, aux := .chars buf, auxLen := BitVec.ofNat 32 count }
  ret := vfs

/-- A call of a traced operation, together with what the functions it calls return. -/
inductive TracedOp where
  | create (dir : Inode) (parent : ℕ) (dentry : Dentry) (mode vfs interpose : CInt)
  | link (old : PosDentry) (parent : ℕ) (new : Dentry) (vfs : CInt) (lowerPositive : Bool)
      (interpose : CInt)
  | unlink (dir : Inode) (parent : ℕ) (dentry : PosDentry) (vfs : CInt) (nfsRenamed : Bool)
  | symlink (dir : Inode) (parent : ℕ) (dentry : Dentry) (symname : CString) (vfs interpose : CInt)
  | mkdir (dir : Inode) (parent : ℕ) (dentry : Dentry) (mode vfs interpose : CInt)
  | rmdir (dir : Inode) (parent : ℕ) (dentry : PosDentry) (vfs : CInt)
  | rename (oldParent newParent : ℕ) (old : PosDentry) (new : Dentry) (trap : Trap) (vfs : CInt)
  | write (dentry : PosDentry) (fFlags : CInt) (buf : CharPtr) (count : ℕ) (vfs : CInt)
  deriving DecidableEq

namespace TracedOp

/-- The operation a call executes. -/
def plan : TracedOp → Plan
  | create dir parent dentry mode vfs interpose => trfsCreate dir parent dentry mode vfs interpose
  | link old parent new vfs lowerPositive interpose =>
    trfsLink old parent new vfs lowerPositive interpose
  | unlink dir parent dentry vfs nfsRenamed => trfsUnlink dir parent dentry vfs nfsRenamed
  | symlink dir parent dentry symname vfs interpose =>
    trfsSymlink dir parent dentry symname vfs interpose
  | mkdir dir parent dentry mode vfs interpose => trfsMkdir dir parent dentry mode vfs interpose
  | rmdir dir parent dentry vfs => trfsRmdir dir parent dentry vfs
  | rename oldParent newParent old new trap vfs => trfsRename oldParent newParent old new trap vfs
  | write dentry fFlags buf count vfs => trfsWrite dentry fFlags buf count vfs

/-- A `symlink` whose lower call or whose interposition failed. -/
def SymlinkFails : TracedOp → Prop
  | symlink _ _ _ _ vfs interpose => vfs ≠ 0 ∨ interpose ≠ 0
  | _ => False

/-- The tail finds an inode except after a failed `symlink`. -/
theorem inode_eq_none_iff (op : TracedOp) : op.plan.tail.inode = none ↔ op.SymlinkFails := by
  cases op with
  | symlink dir parent dentry symname vfs interpose =>
    have hzero := thenInterpose_eq_zero_iff vfs interpose
    simp only [plan, trfsSymlink, SymlinkFails]
    by_cases h : thenInterpose vfs interpose = 0
    · have hboth := hzero.mp h
      rw [if_pos h]
      simp [hboth]
    · rw [if_neg h]
      simp only [true_iff, ne_eq]
      exact not_and_or.mp fun hboth => h (hzero.mpr hboth)
  | _ => simp [plan, trfsCreate, trfsMkdir, trfsUnlink, trfsRmdir, trfsLink, trfsRename, trfsWrite,
      planInDir, SymlinkFails]

/-- The auxiliary argument of a tail is a dentry for `link` and `rename` only. -/
theorem aux_cases (op : TracedOp) :
    ((op.plan.tail.type = .link ∨ op.plan.tail.type = .rename) ∧
      ∃ d, op.plan.tail.aux = .dentry d) ∨
    (op.plan.tail.type ≠ .link ∧ op.plan.tail.type ≠ .rename ∧
      ∃ p, op.plan.tail.aux = .chars p ∧
        (op.plan.tail.type = .fwrite ∨ ∀ id str, p ≠ .page id str)) := by
  cases op with
  | link old parent new vfs lowerPositive interpose => exact .inl ⟨.inl rfl, new, rfl⟩
  | rename oldParent newParent old new trap vfs => exact .inl ⟨.inr rfl, new, rfl⟩
  | write dentry fFlags buf count vfs =>
    exact .inr ⟨by simp [plan, trfsWrite], by simp [plan, trfsWrite], buf, rfl, .inl rfl⟩
  | symlink dir parent dentry symname vfs interpose =>
    exact .inr ⟨by simp [plan, trfsSymlink], by simp [plan, trfsSymlink], .vfs symname, rfl,
      .inr (by simp)⟩
  | create | mkdir | unlink | rmdir =>
    exact .inr ⟨by simp [plan, trfsCreate, trfsMkdir, trfsUnlink, trfsRmdir, planInDir],
      by simp [plan, trfsCreate, trfsMkdir, trfsUnlink, trfsRmdir, planInDir], .null, rfl,
      .inr (by simp)⟩

/-- Every operation logs the value it returns. -/
theorem err_eq_ret (op : TracedOp) : op.plan.tail.err = op.plan.ret := by
  cases op <;> rfl

/-- The record of an operation keeps within the format: paths and symlink targets fit a page, and a
write passes at least one byte of a user buffer, few enough for the size to stay within a
`short`. -/
def WithinFormat (op : TracedOp) : Prop :=
  op.plan.tail.dentry.path.strlen ≤ 4095 ∧
    match op with
    | link _ _ new _ _ _ => new.path.strlen ≤ 4095
    | rename _ _ _ new _ _ => new.path.strlen ≤ 4095
    | symlink _ _ _ symname _ _ => 1 ≤ symname.strlen ∧ symname.strlen ≤ 4095
    | write dentry _ buf count _ => ∃ data, buf = .user data ∧ data.length = count ∧ 1 ≤ count ∧
        headerSize + dentry.path.strlen + count ≤ 32767
    | _ => True

/-- Auxiliary data shorter than a page leaves room for a path in the same record. -/
theorem size_le_of_auxBytes {a : FillArgs} (hpath : a.dentry.path.strlen ≤ 4095)
    (haux : a.auxBytes.length ≤ 4095) :
    headerSize + a.dentry.path.strlen + a.auxLogged.length ≤ 32767 := by
  have hlen : a.auxLogged.length ≤ a.auxBytes.length := List.length_take_le' _ _
  have hhead : headerSize = 32 := rfl
  omega

/-- An operation within the format has arguments that can be framed. -/
theorem fits_of_withinFormat {op : TracedOp} (h : op.WithinFormat) : op.plan.tail.Fits := by
  obtain ⟨hpath, hop⟩ := h
  have hlt : op.plan.tail.args.dentry.path.strlen < pageSize := Nat.lt_succ_of_le hpath
  cases op with
  | create dir parent dentry mode vfs interpose =>
    exact ⟨hlt, rfl, size_le_of_auxBytes hpath (Nat.zero_le _)⟩
  | link old parent new vfs lowerPositive interpose =>
    exact ⟨hlt, ⟨new, rfl, Nat.lt_succ_of_le hop⟩, size_le_of_auxBytes hpath hop⟩
  | unlink dir parent dentry vfs nfsRenamed =>
    exact ⟨hlt, rfl, size_le_of_auxBytes hpath (Nat.zero_le _)⟩
  | symlink dir parent dentry symname vfs interpose =>
    have hne : symname.bytes ≠ [] := List.length_pos_iff.mp hop.1
    exact ⟨hlt, ⟨symname, rfl, rfl, hne, Nat.lt_succ_of_le hop.2⟩,
      size_le_of_auxBytes hpath hop.2⟩
  | mkdir dir parent dentry mode vfs interpose =>
    exact ⟨hlt, rfl, size_le_of_auxBytes hpath (Nat.zero_le _)⟩
  | rmdir dir parent dentry vfs =>
    exact ⟨hlt, rfl, size_le_of_auxBytes hpath (Nat.zero_le _)⟩
  | rename oldParent newParent old new trap vfs =>
    exact ⟨hlt, ⟨new, rfl, Nat.lt_succ_of_le hop⟩, size_le_of_auxBytes hpath hop⟩
  | write dentry fFlags buf count vfs =>
    obtain ⟨data, rfl, rfl, hcount, hsize⟩ := hop
    exact FillArgs.framed_ofWrite hlt (List.length_pos_iff.mp hcount) hsize

end TracedOp

/-! ### Execution -/

/-- What an operation works on: a superblock with its lock, the kernel, and the lower directories
held locked. -/
structure OpState where
  sb : SbInfo
  kernel : Kernel
  trfsLock : Bool
  lowerLocks : List ℕ
  deriving DecidableEq

/-- What the environment decides in a tail: the pages and the two writes to the log. -/
structure TailEnv where
  pages : PageEnv
  header : WriteOutcome
  aux : WriteOutcome
  deriving DecidableEq

/-- A logging tail. -/
def Tail.run (env : TailEnv) (t : Tail) (s : OpState) : Except Fault OpState :=
  match t.inode with
  | none => .error .nullDeref
  | some _ => do
    let locked := { s with trfsLock := true }
    let (sb, k) ←
      fillAppend env.pages locked.sb locked.kernel (t.fillArgs locked.sb.umask) env.header env.aux
    .ok { locked with sb := sb, kernel := k, trfsLock := false }

/-- `lock_parent` or `lock_rename`. -/
def OpState.lockDirs (s : OpState) (dirs : List ℕ) : OpState :=
  { s with lowerLocks := dirs ++ s.lowerLocks }

/-- `unlock_dir` or `unlock_rename`. -/
def OpState.unlockDirs (s : OpState) (dirs : List ℕ) : OpState :=
  { s with lowerLocks := s.lowerLocks.diff dirs }

/-- A traced operation: lock the lower directories, run the tail, unlock them, return. -/
def Plan.run (env : TailEnv) (p : Plan) (s : OpState) : Except Fault (OpState × CInt) := do
  let s' ← p.tail.run env (s.lockDirs p.lowerDirs)
  .ok (s'.unlockDirs p.lowerDirs, p.ret)

/-- The operation faults nowhere, returns its error code, and appends exactly one record to the log:
the one for its arguments, whose result is the error code returned.  It has released `trfs_lock` and
the lower directories. -/
def LoggedOnce (env : TailEnv) (op : TracedOp) (s : OpState) : Prop :=
  ∃ s' recId, op.plan.run env s = .ok (s', op.plan.ret) ∧
    (op.plan.tail.args.logRecord recId).WellFormed ∧
    (op.plan.tail.args.logRecord recId).hdr.result = op.plan.ret ∧
    s'.sb.log.committed = s.sb.log.committed ++ (op.plan.tail.args.logRecord recId).frame ∧
    s'.sb.log.fPos = s.sb.log.fPos + (op.plan.tail.args.logRecord recId).frame.length ∧
    s'.trfsLock = false ∧ s'.lowerLocks = s.lowerLocks

/-- Nothing fails around the tail: both pages are there, and the writes it makes complete. -/
def TailEnv.Works (env : TailEnv) (t : Tail) : Prop :=
  env.pages.available ∧ env.header = .complete ∧ (t.args.auxLogged = [] ∨ env.aux = .complete)

/-- Nothing is appended when a page is missing. -/
theorem fillAppend_unavailable {env : PageEnv} (henv : ¬env.available) (sb : SbInfo) (k : Kernel)
    (a : FillArgs) (o₁ o₂ : WriteOutcome) : fillAppend env sb k a o₁ o₂ = .ok (sb, k) := by
  unfold fillAppend
  by_cases htype : a.type = 0
  · simp only [fillRecord_zero env k htype, bind, Except.bind]
  · simp only [fillRecord_of_unavailable henv htype, bind, Except.bind]

variable {env : TailEnv} {op : TracedOp} {s : OpState}

/-- Unlocking what has just been locked gives back what was locked before. -/
theorem append_diff_left (dirs locks : List ℕ) : (dirs ++ locks).diff dirs = locks := by
  induction dirs with
  | nil => rfl
  | cons d dirs ih => rw [List.cons_append, List.diff_cons, List.erase_cons_head, ih]

/-- A tail that finds an inode runs `fill_record` and `append_record` under the lock. -/
theorem Tail.run_of_inode {t : Tail} {i : Inode} (hinode : t.inode = some i) {sb : SbInfo}
    {k : Kernel} (happend : fillAppend env.pages s.sb s.kernel (t.fillArgs s.sb.umask) env.header
      env.aux = .ok (sb, k)) : t.run env s = .ok ⟨sb, k, false, s.lowerLocks⟩ := by
  simp only [run, hinode, bind, Except.bind, happend]

/-- An operation whose tail finds an inode releases what it has locked. -/
theorem Plan.run_of_inode {p : Plan} {i : Inode} (hinode : p.tail.inode = some i) {sb : SbInfo}
    {k : Kernel} (happend : fillAppend env.pages s.sb s.kernel (p.tail.fillArgs s.sb.umask)
      env.header env.aux = .ok (sb, k)) :
    p.run env s = .ok (⟨sb, k, false, s.lowerLocks⟩, p.ret) := by
  have htail : p.tail.run env (s.lockDirs p.lowerDirs) =
      .ok ⟨sb, k, false, p.lowerDirs ++ s.lowerLocks⟩ := Tail.run_of_inode hinode happend
  simp only [run, htail, bind, Except.bind, OpState.unlockDirs, append_diff_left]

/-- An operation whose tail finds an inode is stopped by what stops `fill_record` and
`append_record`. -/
theorem Plan.run_error_iff {p : Plan} {i : Inode} (hinode : p.tail.inode = some i) {f : Fault} :
    p.run env s = .error f ↔ fillAppend env.pages s.sb s.kernel (p.tail.fillArgs s.sb.umask)
      env.header env.aux = .error f := by
  cases happend : fillAppend env.pages s.sb s.kernel (p.tail.fillArgs s.sb.umask) env.header
      env.aux with
  | ok res =>
    rw [run_of_inode hinode happend]
    simp
  | error fault =>
    have htail : p.tail.run env (s.lockDirs p.lowerDirs) = .error fault := by
      simp only [Tail.run, hinode, bind, Except.bind, OpState.lockDirs, happend]
    simp only [run, htail, bind, Except.bind, Except.error.injEq]

/-- A tail without an inode stops the operation before anything is locked or logged. -/
theorem Plan.run_of_inode_eq_none {p : Plan} (hinode : p.tail.inode = none) :
    p.run env s = .error .nullDeref := by
  simp only [run, Tail.run, hinode, bind, Except.bind]

/-- A traced operation within the format, with pages available, releases its locks and leaves the
log of `LogRecord.logAfter` behind. -/
theorem Plan.run_of_traced {p : Plan} {i : Inode} (hinode : p.tail.inode = some i)
    (htype : traces s.sb.umask p.tail.type) (hpages : env.pages.available) (hfits : p.tail.Fits) :
    ∃ s', p.run env s = .ok (s', p.ret) ∧
      s'.sb.log = (p.tail.args.logRecord (s.kernel.trecordId + 1)).logAfter s.sb.log env.header
        env.aux ∧
      s'.sb.umask = s.sb.umask ∧ s'.trfsLock = false ∧ s'.lowerLocks = s.lowerLocks := by
  obtain ⟨page, k, happend, -⟩ :=
    fillAppend_framed hfits hpages s.sb s.kernel env.header env.aux
  rw [← Tail.fillArgs_of_traces htype] at happend
  refine ⟨_, run_of_inode hinode happend, ?_, rfl, rfl, rfl⟩
  rw [Tail.fillArgs_of_traces htype]

/-- A traced operation within the format around which nothing fails appends its record. -/
theorem Plan.run_of_works {p : Plan} {i : Inode} (hinode : p.tail.inode = some i)
    (htype : traces s.sb.umask p.tail.type) (hfits : p.tail.Fits) (hworks : env.Works p.tail)
    (hpos : 0 ≤ s.sb.log.fPos) :
    let r := p.tail.args.logRecord (s.kernel.trecordId + 1)
    ∃ s', p.run env s = .ok (s', p.ret) ∧
      s'.sb.log.committed = s.sb.log.committed ++ r.frame ∧
      s'.sb.log.fPos = s.sb.log.fPos + r.frame.length ∧
      s'.trfsLock = false ∧ s'.lowerLocks = s.lowerLocks := by
  intro r
  obtain ⟨hpages, hheader, haux⟩ := hworks
  obtain ⟨s', hrun, hlog, -, hlock, hdirs⟩ := run_of_traced hinode htype hpages hfits
  have hcomplete : s'.sb.log = r.logAfter s.sb.log .complete .complete := by
    rw [hlog, hheader]
    rcases haux with hnil | haux
    · exact LogRecord.logAfter_congr hnil
    · rw [haux]
  refine ⟨s', hrun, ?_, ?_, hlock, hdirs⟩
  · rw [hcomplete, LogRecord.committed_logAfter_complete hpos]
  · rw [hcomplete, LogRecord.logAfter_complete hpos]

/-- Nothing is appended for a type that is not traced, or without pages. -/
theorem Tail.fillAppend_of_untraced {t : Tail} {sb : SbInfo}
    (h : ¬traces sb.umask t.type ∨ ¬env.pages.available) (k : Kernel) :
    fillAppend env.pages sb k (t.fillArgs sb.umask) env.header env.aux = .ok (sb, k) := by
  rcases h with htype | hpages
  · rw [fillAppend, fillRecord_zero _ _ (Tail.type_fillArgs_of_not_traces htype)]
    rfl
  · exact fillAppend_unavailable hpages _ _ _ _ _

/-- An operation that is not traced, or gets no pages, leaves the superblock alone. -/
theorem Plan.run_of_untraced {p : Plan} {i : Inode} (hinode : p.tail.inode = some i)
    (h : ¬traces s.sb.umask p.tail.type ∨ ¬env.pages.available) :
    ∃ s', p.run env s = .ok (s', p.ret) ∧ s'.sb = s.sb := by
  exact ⟨_, run_of_inode hinode (Tail.fillAppend_of_untraced h s.kernel), rfl⟩

/-- A path of the tail does not fit a page. -/
def Tail.TooLong (t : Tail) : Prop :=
  pageSize ≤ t.dentry.path.strlen ∨
    (t.type = .rename ∨ t.type = .link) ∧ ∃ d, t.aux = .dentry d ∧ pageSize ≤ d.path.strlen

/-- The path of a tail that is not too long. -/
theorem Tail.path_le {t : Tail} (h : ¬t.TooLong) : t.dentry.path.strlen ≤ 4095 :=
  Nat.lt_succ_iff.mp (not_le.mp (not_or.mp h).1)

/-- The second path of a tail that is not too long. -/
theorem Tail.aux_le {t : Tail} (h : ¬t.TooLong) (hkind : t.type = .rename ∨ t.type = .link)
    {d : Dentry} (hd : t.aux = .dentry d) : d.path.strlen ≤ 4095 := by
  by_contra hlong
  exact (not_or.mp h).2 ⟨hkind, d, hd, not_lt.mp fun hlt => hlong (Nat.lt_succ_iff.mp hlt)⟩

/-- A tail with one path that fits a page is not too long. -/
theorem Tail.not_tooLong {t : Tail} (hpath : t.dentry.path.strlen ≤ 4095)
    (hkind : t.type ≠ .rename ∧ t.type ≠ .link) : ¬t.TooLong := by
  rintro (hlong | ⟨hrename | hlink, -⟩)
  · exact absurd hpath (not_le.mpr hlong)
  · exact hkind.1 hrename
  · exact hkind.2 hlink

/-- A path that does not fit a page stops `fill_record` once it has its pages. -/
theorem fillRecord_tooLong {t : Tail} (h : t.TooLong) (k : Kernel) (pathPage auxPage : ℕ) :
    fillRecord ⟨some pathPage, some auxPage⟩ k t.args = .error .errPtrDeref := by
  have htype : t.args.type ≠ 0 := RecType.code_ne_zero t.type
  simp only [fillRecord, if_neg htype]
  by_cases hpath : t.dentry.path.strlen < pageSize
  · have hraw : dentryPathRaw t.args.dentry pathPage = some (.page pathPage t.dentry.path) := by
      rw [dentryPathRaw, if_pos (show t.args.dentry.path.strlen < pageSize from hpath)]
      rfl
    obtain ⟨hkind, d, hd, hlong⟩ := h.resolve_left (not_le.mpr hpath)
    have hauxRaw : dentryPathRaw d auxPage = none := by
      rw [dentryPathRaw, if_neg (not_lt.mpr hlong)]
    have hswitch (r : TrRecord) : fillSwitch t.args auxPage r = .error .errPtrDeref := by
      rcases hkind with hkind | hkind <;>
        simp only [fillSwitch, Tail.args, hkind, RecType.ofCode?_code, hd, hauxRaw]
    simp only [hraw, hswitch]
    rfl
  · have hraw : dentryPathRaw t.args.dentry pathPage = none := by
      rw [dentryPathRaw, if_neg (show ¬t.args.dentry.path.strlen < pageSize from hpath)]
    simp only [hraw]

/-- The length that `fill_record` stores for the auxiliary argument of a tail. -/
def Tail.storedLen (t : Tail) : CShort :=
  match t.aux with
  | .chars _ => t.auxLen.setWidth 16
  | .dentry d => BitVec.ofNat 16 d.path.strlen

/-- The record that `fill_record` builds for a tail whose paths fit a page. -/
def Tail.record (t : Tail) (recId : CInt) (pathPage auxPage : ℕ) : TrRecord :=
  (t.args.base recId (.page pathPage t.dentry.path)).withAux (t.args.auxPtr auxPage) t.storedLen

/-- The `switch` of `fill_record` for an operation whose paths fit a page. -/
theorem TracedOp.fillSwitch_eq {op : TracedOp} (h : ¬op.plan.tail.TooLong) (recId : CInt)
    (pathPage auxPage : ℕ) :
    fillSwitch op.plan.tail.args auxPage
        (op.plan.tail.args.base recId (.page pathPage op.plan.tail.dentry.path)) =
      .ok (op.plan.tail.record recId pathPage auxPage) := by
  -- without auxiliary data the size is the one for a length of zero
  have hnone (t : Tail) (haux : t.aux = .chars .null) (hlen : t.auxLen = 0) :
      { t.args.base recId (.page pathPage t.dentry.path) with
        recSize := recordSize (t.args.base recId (.page pathPage t.dentry.path)).pathLen } =
        t.record recId pathPage auxPage := by
    rw [recordSize_eq]
    simp [Tail.record, Tail.storedLen, TrRecord.withAux, FillArgs.auxPtr, Tail.args, haux, hlen,
      FillArgs.base]
  have hraw {d : Dentry} (hd : op.plan.tail.aux = .dentry d)
      (hkind : op.plan.tail.type = .rename ∨ op.plan.tail.type = .link) :
      dentryPathRaw d auxPage = some (.page auxPage d.path) := by
    have hlt : d.path.strlen < pageSize := Nat.lt_succ_of_le (Tail.aux_le h hkind hd)
    rw [dentryPathRaw, if_pos hlt]
  cases op with
  | create | mkdir | unlink | rmdir => exact congrArg Except.ok (hnone _ rfl rfl)
  | write | symlink => rfl
  | link old parent new vfs lowerPositive interpose =>
    have hnew : dentryPathRaw new auxPage = some (.page auxPage new.path) := hraw rfl (.inr rfl)
    simp only [fillSwitch, plan, trfsLink, Tail.args, RecType.ofCode?_code, hnew]
    rfl
  | rename oldParent newParent old new trap vfs =>
    have hnew : dentryPathRaw new auxPage = some (.page auxPage new.path) := hraw rfl (.inl rfl)
    simp only [fillSwitch, plan, trfsRename, Tail.args, RecType.ofCode?_code, hnew]
    rfl

/-- `fill_record` for an operation whose paths fit a page, once it has its pages. -/
theorem TracedOp.fillRecord_eq {op : TracedOp} (h : ¬op.plan.tail.TooLong) (k : Kernel)
    (pathPage auxPage : ℕ) :
    fillRecord ⟨some pathPage, some auxPage⟩ k op.plan.tail.args =
      .ok ({ k with trecordId := k.trecordId + 1, ledger := auxPage :: pathPage :: k.ledger },
        .ok (op.plan.tail.record (k.trecordId + 1) pathPage auxPage)) := by
  have htype : op.plan.tail.args.type ≠ 0 := RecType.code_ne_zero _
  have hraw : dentryPathRaw op.plan.tail.args.dentry pathPage =
      some (.page pathPage op.plan.tail.dentry.path) := by
    have hlt : op.plan.tail.args.dentry.path.strlen < pageSize := Nat.lt_succ_of_le (Tail.path_le h)
    rw [dentryPathRaw, if_pos hlt]
    rfl
  simp only [fillRecord, if_neg htype, hraw, fillSwitch_eq h]
  rfl

/-- The record that `fill_record` builds for a traced operation whose paths fit a page. -/
theorem TracedOp.exists_fillRecord {op : TracedOp} {umask : BitVec 64} {pages : PageEnv}
    (htraces : traces umask op.plan.tail.type) (hpages : pages.available)
    (h : ¬op.plan.tail.TooLong) (k : Kernel) :
    ∃ pathPage auxPage, fillRecord pages k (op.plan.tail.fillArgs umask) =
      .ok ({ k with trecordId := k.trecordId + 1, ledger := auxPage :: pathPage :: k.ledger },
        .ok (op.plan.tail.record (k.trecordId + 1) pathPage auxPage)) := by
  obtain ⟨pathPage, auxPage, rfl⟩ := PageEnv.exists_of_available hpages
  refine ⟨pathPage, auxPage, ?_⟩
  rw [Tail.fillArgs_of_traces htraces, fillRecord_eq h]

/-- The record of a tail whose path fits a page is filled. -/
theorem Tail.filled_record {t : Tail} (h : ¬t.TooLong) (recId : CInt) (pathPage auxPage : ℕ) :
    (t.record recId pathPage auxPage).Filled := by
  have hbase := t.args.filled_base recId pathPage (Nat.lt_succ_of_le (Tail.path_le h))
  exact ⟨hbase.pathLen_eq, hbase.path_ne, hbase.path_lt, .inl rfl⟩

/-- A path that does not fit a page stops `fill_record` for a traced operation. -/
theorem Tail.fillRecord_of_tooLong {t : Tail} {umask : BitVec 64} {pages : PageEnv}
    (htraces : traces umask t.type) (hpages : pages.available) (hlong : t.TooLong) (k : Kernel) :
    fillRecord pages k (t.fillArgs umask) = .error .errPtrDeref := by
  obtain ⟨pathPage, auxPage, rfl⟩ := PageEnv.exists_of_available hpages
  rw [Tail.fillArgs_of_traces htraces, fillRecord_tooLong hlong]

/-- A path that does not fit a page stops a logging tail. -/
theorem Tail.run_of_tooLong {t : Tail} {i : Inode} (hinode : t.inode = some i)
    (htype : traces s.sb.umask t.type) (hpages : env.pages.available) (hlong : t.TooLong) :
    t.run env s = .error .errPtrDeref := by
  have hfault := fillRecord_of_tooLong htype hpages hlong s.kernel
  simp only [run, hinode, bind, Except.bind, fillAppend, hfault]

/-- A path that does not fit a page stops a traced operation in its tail. -/
theorem Plan.run_of_tooLong {p : Plan} {i : Inode} (hinode : p.tail.inode = some i)
    (htype : traces s.sb.umask p.tail.type) (hpages : env.pages.available)
    (hlong : p.tail.TooLong) :
    p.run env s = .error .errPtrDeref := by
  have htail := Tail.run_of_tooLong (s := s.lockDirs p.lowerDirs) hinode htype hpages hlong
  simp only [run, htail, bind, Except.bind]

/-- A tail that returns has released `trfs_lock`. -/
theorem Tail.trfsLock_of_run {t : Tail} {o : OpState} (h : t.run env s = .ok o) :
    o.trfsLock = false := by
  unfold run at h
  cases hinode : t.inode with
  | none =>
    rw [hinode] at h
    cases h
  | some i =>
    simp only [hinode, bind, Except.bind] at h
    split at h
    · cases h
    · cases h
      rfl

/-- The tail of an operation returns exactly if it is not a `symlink` that failed and, when there
are pages for a record, the paths fit into them. -/
theorem TracedOp.run_tail_iff (hop : ¬op.plan.tail.TooLong → op.plan.tail.Fits) :
    (∃ o, op.plan.tail.run env s = .ok o) ↔ ¬op.SymlinkFails ∧
      ¬(traces s.sb.umask op.plan.tail.type ∧ env.pages.available ∧ op.plan.tail.TooLong) := by
  constructor
  · rintro ⟨o, ho⟩
    have hinode : ¬op.SymlinkFails := by
      intro hfails
      rw [Tail.run, op.inode_eq_none_iff.mpr hfails] at ho
      cases ho
    refine ⟨hinode, ?_⟩
    rintro ⟨htype, hpages, hlong⟩
    obtain ⟨i, hi⟩ := Option.ne_none_iff_exists'.mp (mt op.inode_eq_none_iff.mp hinode)
    rw [Tail.run_of_tooLong hi htype hpages hlong] at ho
    cases ho
  · rintro ⟨hinode, hshort⟩
    obtain ⟨i, hi⟩ := Option.ne_none_iff_exists'.mp (mt op.inode_eq_none_iff.mp hinode)
    by_cases h : traces s.sb.umask op.plan.tail.type ∧ env.pages.available
    · have hfits := hop fun hlong => hshort ⟨h.1, h.2, hlong⟩
      obtain ⟨page, k, happend, -⟩ :=
        fillAppend_framed hfits h.2 s.sb s.kernel env.header env.aux
      rw [← Tail.fillArgs_of_traces h.1] at happend
      exact ⟨_, Tail.run_of_inode hi happend⟩
    · exact ⟨_, Tail.run_of_inode hi (Tail.fillAppend_of_untraced (not_and_or.mp h) s.kernel)⟩

/-- The position moves over a whole record only if every write of the record completes. -/
theorem complete_of_fPos {pos : ℤ} {o₁ o₂ : WriteOutcome} {path aux : List UInt8}
    (h : pos + (if o₁ = .complete then (headerSize : ℤ) + path.length else 0) +
        (if o₂ = .complete then (aux.length : ℤ) else 0) =
      pos + (headerSize + path.length + aux.length : ℕ)) :
    o₁ = .complete ∧ (aux = [] ∨ o₂ = .complete) := by
  have hhead : (0 : ℤ) < headerSize := by decide
  rw [← List.length_eq_zero_iff]
  by_cases h₁ : o₁ = .complete
  · refine ⟨h₁, ?_⟩
    by_cases h₂ : o₂ = .complete
    · exact .inr h₂
    · rw [if_pos h₁, if_neg h₂] at h
      push_cast at h
      exact .inl (by omega)
  · rw [if_neg h₁] at h
    split at h <;> push_cast at h <;> omega

/-- A traced operation within the format that returns and moves the position over its record is not
a `symlink` that failed, and nothing fails around its tail. -/
theorem TracedOp.works_of_fPos (hmask : traces s.sb.umask op.plan.tail.type)
    (hfits : op.plan.tail.Fits) (hpos : 0 ≤ s.sb.log.fPos) {s' : OpState} {recId : CInt}
    (hrun : op.plan.run env s = .ok (s', op.plan.ret))
    (hfpos : s'.sb.log.fPos =
      s.sb.log.fPos + (op.plan.tail.args.logRecord recId).frame.length) :
    env.Works op.plan.tail ∧ ¬op.SymlinkFails := by
  have hinode : ¬op.SymlinkFails := by
    intro hfails
    rw [Plan.run_of_inode_eq_none (op.inode_eq_none_iff.mpr hfails)] at hrun
    cases hrun
  refine ⟨?_, hinode⟩
  obtain ⟨i, hi⟩ := Option.ne_none_iff_exists'.mp (mt op.inode_eq_none_iff.mp hinode)
  by_cases hpages : env.pages.available
  · obtain ⟨s'', hrun', hlog, -⟩ := Plan.run_of_traced hi hmask hpages hfits
    cases hrun.symm.trans hrun'
    rw [hlog, LogRecord.fPos_logAfter hpos, LogRecord.length_frame] at hfpos
    exact ⟨hpages, complete_of_fPos hfpos⟩
  · obtain ⟨s'', hrun', hsb⟩ := Plan.run_of_untraced hi (.inr hpages)
    cases hrun.symm.trans hrun'
    have := (FillArgs.wellFormed_logRecord hfits recId).headerSize_lt
    rw [hsb] at hfpos
    omega

/-- **Logged exactly once.**  A traced operation whose record type is traced and whose record fits
the format is logged exactly once with the result it returns, and releases its locks, if and only if
both pages are available, the writes to the log complete, and it is not a `symlink` that failed. -/
theorem loggedOnce_iff (hmask : traces s.sb.umask op.plan.tail.type) (hfits : op.plan.tail.Fits)
    (hpos : 0 ≤ s.sb.log.fPos) :
    LoggedOnce env op s ↔ env.Works op.plan.tail ∧ ¬op.SymlinkFails := by
  constructor
  · rintro ⟨s', recId, hrun, -, -, -, hfpos, -⟩
    exact TracedOp.works_of_fPos hmask hfits hpos hrun hfpos
  · rintro ⟨hworks, hinode⟩
    obtain ⟨i, hi⟩ := Option.ne_none_iff_exists'.mp (mt op.inode_eq_none_iff.mp hinode)
    obtain ⟨s', hrun, hcommitted, hfpos, hlock, hdirs⟩ :=
      Plan.run_of_works hi hmask hfits hworks hpos
    exact ⟨s', s.kernel.trecordId + 1, hrun, FillArgs.wellFormed_logRecord hfits _, op.err_eq_ret,
      hcommitted, hfpos, hlock, hdirs⟩

/-- The dentry of `/l` on the mount zero. -/
def dentryL : Dentry where
  path := ⟨[47, 108], by decide⟩
  path_ne := by decide

/-- A new mount, seen by an operation that holds no locks. -/
def OpState.mounted : OpState where
  sb := .mounted []
  kernel := ⟨-1, [], []⟩
  trfsLock := false
  lowerLocks := []

/-- An environment in which nothing fails. -/
def TailEnv.working : TailEnv where
  pages := ⟨some 0, some 1⟩
  header := .complete
  aux := .complete

/-- A `mkdir` for which the lower file system has no space left is logged once. -/
theorem loggedOnce_mkdir :
    LoggedOnce .working (.mkdir ⟨0⟩ 0 dentryL 0 (BitVec.ofInt 32 (-28)) 0) .mounted :=
  (loggedOnce_iff (by decide) (TracedOp.fits_of_withinFormat ⟨by decide, trivial⟩) le_rfl).mpr
    ⟨⟨by decide, rfl, .inl (by decide)⟩, id⟩

/-- A `symlink` of which the same is true. -/
def fullSymlink : TracedOp :=
  .symlink ⟨0⟩ 0 dentryL ⟨[116], by decide⟩ (BitVec.ofInt 32 (-28)) 0

/-- The failed `symlink` is not logged, although it is traced and its record fits the format. -/
theorem not_loggedOnce_symlink :
    traces OpState.mounted.sb.umask fullSymlink.plan.tail.type ∧ fullSymlink.plan.tail.Fits ∧
      ¬LoggedOnce .working fullSymlink .mounted := by
  have hsymname : 1 ≤ 1 ∧ 1 ≤ 4095 := by decide
  refine ⟨by decide, TracedOp.fits_of_withinFormat ⟨by decide, hsymname⟩, ?_⟩
  rintro ⟨s', recId, hrun, -⟩
  have hfails : fullSymlink.SymlinkFails := .inl (by decide)
  rw [Plan.run_of_inode_eq_none (fullSymlink.inode_eq_none_iff.mpr hfails)] at hrun
  cases hrun

end Trfs
