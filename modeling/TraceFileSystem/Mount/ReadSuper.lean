import TraceFileSystem.Stack.LowerPaths

/-!
# Mounting

`trfs_read_super` sets up a superblock in several steps, each of which takes something: a reference
to the lower path, memory for the private data and for the staging page, the log file, a reference
to the lower superblock, the root inode and the root dentry.  When a step fails, the function jumps
to one of six labels, which fall through to the last one and give back what was taken.

The function is a program over a `MountState`, which counts for every such resource how often it was
taken and how often it was given back, and remembers where the pointers of the superblock lead.
What the functions of the kernel return is given by a `MountEnv`.

* `createTrfile`, `trfsIget`, `dMakeRoot` are the steps with several outcomes.
* `outFreeroot`, …, `outFree` are the labels.
* `MountEnv.failsAt` is the step at which the mount fails, and `LeavesNothing` says that the error
  exit gives back everything.

`leavesNothing_iff` determines the steps for which this is the case.
-/

namespace Trfs

namespace Mount

open Programs

/-! ### What is taken -/

/-- Something that the mount takes. -/
inductive Resource where
  /-- The reference to the lower path. -/
  | lowerPath
  /-- `struct trfs_sb_info`. -/
  | sbInfo
  /-- The staging page. -/
  | trPage
  /-- The `struct filename` of the log file. -/
  | logName
  /-- The open log file. -/
  | logFile
  /-- The reference to the lower superblock, `s_active`. -/
  | lowerActive
  /-- The root inode. -/
  | rootInode
  /-- The reference of the root inode to the lower inode. -/
  | lowerInode
  /-- The root dentry. -/
  | rootDentry
  /-- The private data of the root dentry. -/
  | dentryInfo
  deriving DecidableEq

/-- Where a pointer leads. -/
inductive Ptr where
  | null
  | live
  /-- To memory that has been freed. -/
  | freed
  deriving DecidableEq

/-- The superblock while it is set up, and the account of what was taken and given back. -/
structure MountState where
  acquired : Resource → ℕ
  released : Resource → ℕ
  /-- `sb->s_fs_info`. -/
  fsInfo : Ptr
  /-- `tr_page` of the private data. -/
  trPage : Ptr
  /-- The root inode. -/
  inode : Ptr
  /-- `d_fsdata` of the root dentry: NULL, or private data in which the lower path may be set. -/
  fsdata : Option Bool

/-- The state in the beginning. -/
def MountState.start : MountState where
  acquired := 0
  released := 0
  fsInfo := .null
  trPage := .null
  inode := .null
  fsdata := none

/-- Programs of the mount. -/
abbrev MountM := EStateM Fault MountState

/-- A resource is taken. -/
def acquire (r : Resource) : MountM Unit :=
  modify fun s => { s with acquired := s.acquired + Pi.single r 1 }

/-- A resource is given back. -/
def release (r : Resource) : MountM Unit :=
  modify fun s => { s with released := s.released + Pi.single r 1 }

/-! ### Giving back -/

/-- `kfree(TRFS_SB(sb))`, which does nothing to NULL and leaves `s_fs_info` as it is. -/
def kfreeSb : MountM Unit := do
  match (← get).fsInfo with
  | .null => pure ()
  | .live => do
    release .sbInfo
    modify fun s => { s with fsInfo := .freed }
  | .freed => release .sbInfo

/-- `TRFS_PAGE(sb)`, which dereferences `s_fs_info`. -/
def trfsPage : MountM Ptr := do
  match (← get).fsInfo with
  | .null => throw .nullDeref
  | .live => pure (← get).trPage
  | .freed => throw .wildPtr

/-- `kfree(TRFS_PAGE(sb))`. -/
def kfreePage : MountM Unit := do
  match ← trfsPage with
  | .null => pure ()
  | .live => do
    release .trPage
    modify fun s => { s with trPage := .freed }
  | .freed => release .trPage

/-- `iput(inode)`.  The last reference evicts the inode, and `trfs_evict_inode` puts the lower
one. -/
def iput : MountM Unit := do
  release .rootInode
  match (← get).inode with
  | .live => do
    modify fun s => { s with inode := .freed }
    release .lowerInode
  | .null | .freed => pure ()

/-- `trfs_d_release`: `trfs_put_reset_lower_path` dereferences `d_fsdata`, and
`free_dentry_private_data` frees it. -/
def trfsDRelease : MountM Unit := do
  match (← get).fsdata with
  | none => throw .nullDeref
  | some isSet => do
    if isSet then release .lowerPath else pure ()
    release .dentryInfo
    modify fun s => { s with fsdata := none }

/-- `dput(sb->s_root)`.  It is the last reference to a dentry that is not hashed, which is killed:
the inode is put, and then the dentry is released. -/
def dput : MountM Unit := do
  release .rootDentry
  iput
  trfsDRelease

/-- The label `out_free`. -/
def outFree (err : CInt) : MountM CInt := do
  release .lowerPath
  pure err

/-- The label `out_fsi_free`. -/
def outFsiFree (err : CInt) : MountM CInt := do
  kfreeSb
  outFree err

/-- The label `out_fsp_free`. -/
def outFspFree (err : CInt) : MountM CInt := do
  kfreePage
  outFsiFree err

/-- The label `out_sput`. -/
def outSput (err : CInt) : MountM CInt := do
  release .lowerActive
  kfreeSb
  modify fun s => { s with fsInfo := .null }
  outFspFree err

/-- The label `out_iput`. -/
def outIput (err : CInt) : MountM CInt := do
  iput
  outSput err

/-- The label `out_freeroot`. -/
def outFreeroot (err : CInt) : MountM CInt := do
  dput
  outIput err

/-! ### The steps -/

/-- What the mount is given, and what the functions of the kernel return. -/
structure MountEnv where
  /-- `dev_name` is not NULL. -/
  devName : Bool
  kernPath : Except CInt Unit
  /-- Memory for the private data of the superblock can be allocated. -/
  sbInfo : Bool
  /-- Memory for the staging page can be allocated. -/
  trPage : Bool
  /-- The options of the mount, or NULL. -/
  trOption : Option CString
  getnameKernel : Except CInt Unit
  filpOpen : Except CInt Unit
  /-- `iget5_locked` returns an inode. -/
  iget5Locked : Bool
  /-- `igrab` succeeds for the lower inode. -/
  igrab : Bool
  /-- `d_make_root` can allocate a dentry. -/
  dAlloc : Bool
  /-- Private data of the root dentry can be allocated. -/
  privateData : Bool

/-- `EACCES`, negated. -/
def negEACCES : CInt := BitVec.ofInt 32 (-13)

/-- `ESTALE`, negated. -/
def negESTALE : CInt := BitVec.ofInt 32 (-116)

/-- The name of the option, `"tfile="`. -/
def tfile : List UInt8 := [116, 102, 105, 108, 101, 61]

/-- `name_index(data) == TFILE_LEN`. -/
def nameIndex (option : CString) : Bool :=
  tfile.isPrefixOf option.bytes

/-- `create_trfile`.  The name of the log file is put at the end, if there is one. -/
def createTrfile (env : MountEnv) : MountM (Except CInt Unit) :=
  match env.trOption with
  | none => pure (.error negEINVAL)
  | some option =>
    if nameIndex option = false then pure (.error negEINVAL)
    else
      match env.getnameKernel with
      | .error err => pure (.error err)
      | .ok _ => do
        acquire .logName
        match env.filpOpen with
        | .error err => do
          release .logName
          pure (.error err)
        | .ok _ => do
          acquire .logFile
          release .logName
          pure (.ok ())

/-- `trfs_iget` on the root of the lower file system, for which a new superblock has no inode yet.
When there is no new one either, the lower inode is put. -/
def trfsIget (env : MountEnv) : MountM (Except CInt Unit) :=
  if env.iget5Locked = false then do
    release .lowerInode
    pure (.error negEACCES)
  else do
    acquire .rootInode
    if env.igrab = false then pure (.error negESTALE)
    else do
      acquire .lowerInode
      modify fun s => { s with inode := .live }
      pure (.ok ())

/-- `d_make_root`, which takes over the inode, or puts it if there is no dentry. -/
def dMakeRoot (env : MountEnv) : MountM Bool :=
  if env.dAlloc = false then do
    iput
    pure false
  else do
    acquire .rootDentry
    pure true

/-- `trfs_read_super` from the root inode on. -/
def readRoot (env : MountEnv) : MountM CInt := do
  match ← trfsIget env with
  | .error err => outSput err
  | .ok _ => do
    if (← dMakeRoot env) = false then outIput Stack.negENOMEM
    else if env.privateData = false then outFreeroot Stack.negENOMEM
    else do
      acquire .dentryInfo
      modify fun s => { s with fsdata := some true }
      pure 0

/-- `trfs_read_super` from the log file on. -/
def readTrfile (env : MountEnv) : MountM CInt := do
  match ← createTrfile env with
  | .error err => outFspFree err
  | .ok _ => do
    acquire .lowerActive
    readRoot env

/-- `trfs_read_super`. -/
def trfsReadSuper (env : MountEnv) : MountM CInt :=
  if env.devName = false then pure negEINVAL
  else
    match env.kernPath with
    | .error err => pure err
    | .ok _ => do
      acquire .lowerPath
      if env.sbInfo = false then outFree Stack.negENOMEM
      else do
        acquire .sbInfo
        modify fun s => { s with fsInfo := .live }
        if env.trPage = false then outFsiFree Stack.negENOMEM
        else do
          acquire .trPage
          modify fun s => { s with trPage := .live }
          readTrfile env

/-! ### Failures -/

/-- A step at which the mount can fail after `kern_path` has succeeded. -/
inductive FailurePoint where
  | sbInfo
  | trPage
  | createTrfile
  | iget
  | makeRoot
  | privateData
  deriving DecidableEq

namespace MountEnv

/-- The options name a log file, and it can be opened. -/
def OpensLog (env : MountEnv) : Prop :=
  (∃ option ∈ env.trOption, nameIndex option = true) ∧ env.getnameKernel = .ok () ∧
    env.filpOpen = .ok ()

/-- The first step that fails. -/
inductive FailsAt (env : MountEnv) : FailurePoint → Prop
  | sbInfo : env.sbInfo = false → FailsAt env .sbInfo
  | trPage : env.sbInfo = true → env.trPage = false → FailsAt env .trPage
  | createTrfile : env.sbInfo = true → env.trPage = true → ¬env.OpensLog →
    FailsAt env .createTrfile
  | iget : env.sbInfo = true → env.trPage = true → env.OpensLog →
    (env.iget5Locked = false ∨ env.igrab = false) → FailsAt env .iget
  | makeRoot : env.sbInfo = true → env.trPage = true → env.OpensLog →
    env.iget5Locked = true → env.igrab = true → env.dAlloc = false → FailsAt env .makeRoot
  | privateData : env.sbInfo = true → env.trPage = true → env.OpensLog →
    env.iget5Locked = true → env.igrab = true → env.dAlloc = true → env.privateData = false →
    FailsAt env .privateData

end MountEnv

/-- Every resource was taken at most once and given back as often. -/
def MountState.Settled (s : MountState) : Prop :=
  ∀ r, s.acquired r ≤ 1 ∧ s.released r = s.acquired r

/-- The mount returns, without having dereferenced a NULL pointer.  It has given back exactly once
whatever it has taken, and `s_fs_info` does not lead to memory that has been freed. -/
def LeavesNothing (env : MountEnv) : Prop :=
  Returns (trfsReadSuper env) .start fun _ s => s.Settled ∧ s.fsInfo ≠ .freed

section

variable {env : MountEnv} {s : MountState}

@[simp] theorem returns_acquire {Q : Unit → MountState → Prop} (r : Resource) :
    Returns (acquire r) s Q ↔ Q () { s with acquired := s.acquired + Pi.single r 1 } :=
  returns_modify _

@[simp] theorem returns_release {Q : Unit → MountState → Prop} (r : Resource) :
    Returns (release r) s Q ↔ Q () { s with released := s.released + Pi.single r 1 } :=
  returns_modify _

/-- From `out_sput` on the function does not return: `s_fs_info` is NULL when the staging page is
looked up in it. -/
theorem not_returns_outSput (err : CInt) (s : MountState) {Q : CInt → MountState → Prop} :
    ¬Returns (outSput err) s Q := by
  unfold outSput outFspFree kfreePage trfsPage
  simp only [returns_bind, returns_release, returns_modify, returns_get, not_returns_throw]
  rintro ⟨-, s', -, h⟩
  exact h

/-- From `out_iput` on it does not return either. -/
theorem not_returns_outIput (err : CInt) (s : MountState) {Q : CInt → MountState → Prop} :
    ¬Returns (outIput err) s Q := by
  rw [outIput, returns_bind]
  rintro ⟨-, s', -, h⟩
  exact not_returns_outSput err s' h

/-- Nor does it from `out_freeroot` on. -/
theorem not_returns_outFreeroot (err : CInt) (s : MountState) {Q : CInt → MountState → Prop} :
    ¬Returns (outFreeroot err) s Q := by
  rw [outFreeroot, returns_bind]
  rintro ⟨-, s', -, h⟩
  exact not_returns_outIput err s' h

/-- The private data of the superblock is freed at `out_fsi_free`, and `s_fs_info` keeps its
value. -/
theorem returns_outFsiFree (err : CInt) (hlive : s.fsInfo = .live)
    {Q : CInt → MountState → Prop} :
    Returns (outFsiFree err) s Q ↔
      Q err { s with
        fsInfo := .freed
        released := s.released + Pi.single .sbInfo 1 + Pi.single .lowerPath 1 } := by
  simp only [outFsiFree, kfreeSb, outFree, returns_bind, returns_get, hlive, returns_release,
    returns_modify, returns_pure]

/-- The staging page is freed before that at `out_fsp_free`. -/
theorem returns_outFspFree (err : CInt) (hlive : s.fsInfo = .live) (hpage : s.trPage = .live)
    {Q : CInt → MountState → Prop} :
    Returns (outFspFree err) s Q ↔
      Q err { s with
        fsInfo := .freed
        trPage := .freed
        released := s.released + Pi.single .trPage 1 + Pi.single .sbInfo 1 +
          Pi.single .lowerPath 1 } := by
  simp only [outFspFree, kfreePage, trfsPage, returns_bind, returns_get, hlive, hpage,
    returns_release, returns_modify, returns_pure, returns_outFsiFree]

/-- A log file that is opened leaves its name behind as it was. -/
theorem returns_createTrfile (h : env.OpensLog) {Q : Except CInt Unit → MountState → Prop} :
    Returns (createTrfile env) s Q ↔
      Q (.ok ()) { s with
        acquired := s.acquired + Pi.single .logName 1 + Pi.single .logFile 1
        released := s.released + Pi.single .logName 1 } := by
  obtain ⟨⟨option, hoption, hname⟩, hgetname, hopen⟩ := h
  rw [Option.mem_def] at hoption
  simp only [createTrfile, hoption, hname, hgetname, hopen, Bool.true_eq_false, if_false,
    returns_bind, returns_acquire, returns_release, returns_pure]

/-- Otherwise there is an error, and the pointers of the superblock stay as they are. -/
theorem createTrfile_error (h : ¬env.OpensLog) (s : MountState) :
    Returns (createTrfile env) s fun ret s' =>
      (∃ err, ret = .error err) ∧ s'.fsInfo = s.fsInfo ∧ s'.trPage = s.trPage := by
  unfold createTrfile
  cases hoption : env.trOption with
  | none => exact returns_pure _ |>.mpr ⟨⟨_, rfl⟩, rfl, rfl⟩
  | some option =>
    cases hname : nameIndex option with
    | false => simp [hname]
    | true =>
      cases hgetname : env.getnameKernel with
      | error err => simp [hname]
      | ok =>
        cases hopen : env.filpOpen with
        | error err => simp [hname]
        | ok => exact absurd ⟨⟨option, hoption, hname⟩, hgetname, hopen⟩ h

/-- When a step with the root fails, the function does not return. -/
theorem not_returns_readRoot (h : env.iget5Locked = false ∨ env.igrab = false ∨
    env.dAlloc = false ∨ env.privateData = false) (s : MountState)
    {Q : CInt → MountState → Prop} : ¬Returns (readRoot env) s Q := by
  unfold readRoot trfsIget dMakeRoot
  cases higet : env.iget5Locked with
  | false =>
    simp only [if_true, returns_bind, returns_release, returns_pure]
    exact not_returns_outSput _ _
  | true =>
    cases hgrab : env.igrab with
    | false =>
      simp only [Bool.true_eq_false, if_false, if_true, returns_bind, returns_acquire,
        returns_pure]
      exact not_returns_outSput _ _
    | true =>
      cases halloc : env.dAlloc with
      | false =>
        simp only [Bool.true_eq_false, if_false, if_true, returns_bind, returns_acquire,
          returns_modify, returns_pure]
        rintro ⟨-, s', -, hout⟩
        exact not_returns_outIput _ s' hout
      | true =>
        have hpriv : env.privateData = false := by simpa [higet, hgrab, halloc] using h
        simp only [hpriv, Bool.true_eq_false, if_false, if_true, returns_bind, returns_acquire,
          returns_modify, returns_pure]
        exact not_returns_outFreeroot _ _

/-- The function does not return either when it comes from the log file. -/
theorem not_returns_readTrfile (hlog : env.OpensLog) (h : env.iget5Locked = false ∨
    env.igrab = false ∨ env.dAlloc = false ∨ env.privateData = false) (s : MountState)
    {Q : CInt → MountState → Prop} : ¬Returns (readTrfile env) s Q := by
  simp only [readTrfile, returns_bind, returns_createTrfile hlog, returns_acquire]
  exact not_returns_readRoot h _

/-- When the log file cannot be opened, `s_fs_info` leads to memory that has been freed. -/
theorem readTrfile_error (hlog : ¬env.OpensLog) (hlive : s.fsInfo = .live)
    (hpage : s.trPage = .live) :
    Returns (readTrfile env) s fun _ s' => s'.fsInfo = .freed := by
  rw [readTrfile, returns_bind]
  refine (createTrfile_error hlog s).mono ?_
  rintro _ s' ⟨⟨err, rfl⟩, hfsInfo, htrPage⟩
  exact (returns_outFspFree err (hfsInfo.trans hlive) (htrPage.trans hpage)).mpr rfl

/-- The state behind the allocation of the staging page. -/
def MountState.allocated : MountState :=
  { MountState.start with
    acquired := Pi.single .lowerPath 1 + Pi.single .sbInfo 1 + Pi.single .trPage 1
    fsInfo := .live
    trPage := .live }

variable (hdev : env.devName = true) (hpath : env.kernPath = .ok ())
include hdev hpath

/-- The steps behind the allocation of the staging page. -/
theorem returns_trfsReadSuper (hsb : env.sbInfo = true) (hpage : env.trPage = true)
    {Q : CInt → MountState → Prop} :
    Returns (trfsReadSuper env) .start Q ↔ Returns (readTrfile env) .allocated Q := by
  simp only [trfsReadSuper, hdev, hpath, hsb, hpage, Bool.true_eq_false, if_false, returns_bind,
    returns_acquire, returns_modify, MountState.start, zero_add, MountState.allocated]

/-- When there is no memory for the private data, the lower path is put, and nothing else has been
taken. -/
theorem leavesNothing_of_sbInfo (hsb : env.sbInfo = false) : LeavesNothing env := by
  simp only [LeavesNothing, trfsReadSuper, hdev, hpath, hsb, Bool.true_eq_false, if_false, if_true,
    returns_bind, returns_acquire, outFree, returns_release, returns_pure, MountState.start]
  refine ⟨fun r => ?_, by decide⟩
  cases r <;> decide

/-- When there is none for the staging page, `s_fs_info` leads to memory that has been freed. -/
theorem not_leavesNothing_of_trPage (hsb : env.sbInfo = true) (hpage : env.trPage = false) :
    ¬LeavesNothing env := by
  simp only [LeavesNothing, trfsReadSuper, hdev, hpath, hsb, hpage, Bool.true_eq_false, if_false,
    if_true, returns_bind, returns_acquire, returns_modify, returns_outFsiFree]
  exact fun h => h.2 rfl

/-- When a step behind the log file fails, the function does not return. -/
theorem not_leavesNothing_of_root (hsb : env.sbInfo = true) (hpage : env.trPage = true)
    (hlog : env.OpensLog) (h : env.iget5Locked = false ∨ env.igrab = false ∨
      env.dAlloc = false ∨ env.privateData = false) : ¬LeavesNothing env := by
  rw [LeavesNothing, returns_trfsReadSuper hdev hpath hsb hpage]
  exact not_returns_readTrfile hlog h _

/-- **Failed mounts.**  After `kern_path` has succeeded, the error exit of a step that fails gives
back exactly once what was taken, dereferences no NULL pointer and leaves no pointer to freed memory
if and only if the step is the allocation of the private data of the superblock. -/
theorem leavesNothing_iff {p : FailurePoint} (hfails : env.FailsAt p) :
    LeavesNothing env ↔ p = .sbInfo := by
  cases hfails with
  | sbInfo hsb => exact iff_of_true (leavesNothing_of_sbInfo hdev hpath hsb) rfl
  | trPage hsb hpage =>
    exact iff_of_false (not_leavesNothing_of_trPage hdev hpath hsb hpage) (by decide)
  | createTrfile hsb hpage hlog =>
    refine iff_of_false (fun hleaves => ?_) (by decide)
    rw [LeavesNothing, returns_trfsReadSuper hdev hpath hsb hpage] at hleaves
    obtain ⟨-, s, -, ⟨-, hne⟩, hfreed⟩ := hleaves.and (readTrfile_error hlog rfl rfl)
    exact hne hfreed
  | iget hsb hpage hlog higet =>
    have hroot := not_leavesNothing_of_root hdev hpath hsb hpage hlog (or_assoc.mp (.inl higet))
    exact iff_of_false hroot (by decide)
  | makeRoot hsb hpage hlog _ _ halloc =>
    have hroot := not_leavesNothing_of_root hdev hpath hsb hpage hlog (.inr (.inr (.inl halloc)))
    exact iff_of_false hroot (by decide)
  | privateData hsb hpage hlog _ _ _ hpriv =>
    have hroot := not_leavesNothing_of_root hdev hpath hsb hpage hlog (.inr (.inr (.inr hpriv)))
    exact iff_of_false hroot (by decide)

end

/-- A mount with the log file `/l`, for which every step succeeds. -/
def MountEnv.working : MountEnv where
  devName := true
  kernPath := .ok ()
  sbInfo := true
  trPage := true
  trOption := some ⟨tfile ++ dentryL.path.bytes, by decide⟩
  getnameKernel := .ok ()
  filpOpen := .ok ()
  iget5Locked := true
  igrab := true
  dAlloc := true
  privateData := true

/-- Without memory for the private data of the superblock nothing is left behind. -/
theorem leavesNothing_working_sbInfo : LeavesNothing { MountEnv.working with sbInfo := false } :=
  (leavesNothing_iff rfl rfl (.sbInfo rfl)).mpr rfl

/-- Without memory for the staging page, `s_fs_info` leads to freed memory.  Without memory for the
root dentry or for its private data, a NULL pointer is dereferenced. -/
theorem not_leavesNothing_working :
    ¬LeavesNothing { MountEnv.working with trPage := false } ∧
      ¬LeavesNothing { MountEnv.working with dAlloc := false } ∧
      ¬LeavesNothing { MountEnv.working with privateData := false } := by
  refine ⟨not_leavesNothing_of_trPage rfl rfl rfl rfl, ?_, ?_⟩
  · exact not_leavesNothing_of_root rfl rfl rfl rfl ⟨⟨_, rfl, by decide⟩, rfl, rfl⟩
      (.inr (.inr (.inl rfl)))
  · exact not_leavesNothing_of_root rfl rfl rfl rfl ⟨⟨_, rfl, by decide⟩, rfl, rfl⟩
      (.inr (.inr (.inr rfl)))

end Mount

end Trfs
