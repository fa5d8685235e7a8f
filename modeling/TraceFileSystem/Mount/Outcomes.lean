import TraceFileSystem.Mount.ReadSuper

/-!
# What a mount leaves

`trfs_read_super` has three kinds of outcomes for the lower file systems.  A mount that does not
open its log returns an error and holds nothing there.  One that fails later faults on its error
exit and leaves the log open.  One that works holds everything, and `killSb`, which is what an
unmount does, gives it back.
-/

namespace Trfs

namespace Mount

open Programs

/-! ### Unmounting -/

/-- `trfs_put_super`.  It returns whether it has got to `SAFE_REMOVE`, which asks the lower file
system to unlink the log and ignores the answer, before `SAFE_FILPCLOSE` closes it. -/
def trfsPutSuper : MountM Bool := do
  match (← get).fsInfo with
  | .null => pure false
  | .freed => throw .wildPtr
  | .live => do
    release .lowerActive
    release .logFile
    kfreePage
    kfreeSb
    modify fun s => { s with fsInfo := .null }
    pure true

/-- `generic_shutdown_super` for a superblock with a root.  The root dentry is put, which evicts the
root inode, and then `put_super` is called. -/
def killSb : MountM Bool := do
  dput
  trfsPutSuper

namespace MountState

/-- A superblock that has been mounted. -/
def mounted : MountState where
  acquired := fun _ => 1
  released := Pi.single .logName 1
  fsInfo := .live
  trPage := .live
  inode := .live
  fsdata := some true

/-- The superblock when the log has been opened and the lower superblock has been referenced. -/
def opened : MountState :=
  { allocated with
    acquired := allocated.acquired + Pi.single .logName 1 + Pi.single .logFile 1 +
      Pi.single .lowerActive 1
    released := Pi.single .logName 1 }

/-- How much of a resource is held. -/
def held (s : MountState) (r : Resource) : ℤ :=
  s.acquired r - s.released r

@[simp] theorem held_start (r : Resource) : start.held r = 0 :=
  rfl

@[simp] theorem held_mounted {r : Resource} (hr : r ≠ .logName) : mounted.held r = 1 := by
  have hreleased : mounted.released r = 0 := Pi.single_eq_of_ne hr 1
  rw [held, hreleased]
  rfl

end MountState

/-- **An unmount** gives back exactly once what the mount has taken, tries to unlink the log, and
leaves no pointer behind. -/
theorem killSb_mounted :
    ∃ last, killSb .mounted = .ok true last ∧ last.Settled ∧ last.fsInfo = .null := by
  refine ⟨_, rfl, fun r => ?_, rfl⟩
  cases r <;> decide

/-! ### The outcomes of a mount -/

namespace MountEnv

/-- The mount opens its log. -/
structure GetsLog (env : MountEnv) : Prop where
  devName : env.devName = true
  kernPath : env.kernPath = .ok ()
  sbInfo : env.sbInfo = true
  trPage : env.trPage = true
  opensLog : env.OpensLog

/-- The steps behind the log succeed as well. -/
structure GetsRoot (env : MountEnv) : Prop where
  iget5Locked : env.iget5Locked = true
  igrab : env.igrab = true
  dAlloc : env.dAlloc = true
  privateData : env.privateData = true

/-- The functions of the kernel do not return zero for an error. -/
structure ErrorsNonzero (env : MountEnv) : Prop where
  kernPath : env.kernPath ≠ .error 0
  getnameKernel : env.getnameKernel ≠ .error 0
  filpOpen : env.filpOpen ≠ .error 0

/-- `EEXIST`, negated. -/
def negEEXIST : CInt := BitVec.ofInt 32 (-17)

/-- `filp_open` with `O_EXCL`, on an entry that is there already or not. -/
def exclusive (env : MountEnv) (exists_ : Bool) : MountEnv :=
  { env with filpOpen := if exists_ then .error negEEXIST else env.filpOpen }

end MountEnv

section

variable {env : MountEnv}

/-- A mount that can allocate its memory goes on with the log. -/
theorem trfsReadSuper_of_allocated (hdev : env.devName = true) (hpath : env.kernPath = .ok ())
    (hsb : env.sbInfo = true) (hpage : env.trPage = true) :
    trfsReadSuper env .start = readTrfile env .allocated := by
  simp only [trfsReadSuper, hdev, hpath, hsb, hpage, Bool.true_eq_false, if_false]
  change readTrfile env _ = _
  simp only [MountState.allocated, MountState.start, zero_add]

/-- A mount that opens its log goes on with the root. -/
theorem trfsReadSuper_of_getsLog (h : env.GetsLog) :
    trfsReadSuper env .start = readRoot env .opened := by
  obtain ⟨⟨option, hoption, hname⟩, hgetname, hopen⟩ := h.opensLog
  rw [Option.mem_def] at hoption
  have hlog : createTrfile env .allocated = .ok (.ok ()) { MountState.allocated with
      acquired := MountState.allocated.acquired + Pi.single .logName 1 + Pi.single .logFile 1
      released := 0 + Pi.single .logName 1 } := by
    simp only [createTrfile, hoption, hname, hgetname, hopen, Bool.true_eq_false, if_false]
    rfl
  rw [trfsReadSuper_of_allocated h.devName h.kernPath h.sbInfo h.trPage, readTrfile,
    bind_of_ok hlog, zero_add]
  rfl

/-- A mount that works has given back the name of the log only. -/
theorem trfsReadSuper_of_works (h : env.GetsLog) (hroot : env.GetsRoot) :
    trfsReadSuper env .start = .ok 0 .mounted := by
  obtain ⟨higet, hgrab, halloc, hpriv⟩ := hroot
  have hacquired : MountState.opened.acquired + Pi.single Resource.rootInode 1 +
      Pi.single Resource.lowerInode 1 + Pi.single Resource.rootDentry 1 +
      Pi.single Resource.dentryInfo 1 = fun _ => 1 := by
    funext r
    cases r <;> rfl
  rw [trfsReadSuper_of_getsLog h]
  simp only [readRoot, trfsIget, dMakeRoot, higet, hgrab, halloc, hpriv, Bool.true_eq_false,
    if_false]
  rw [MountState.mounted, ← hacquired]
  rfl

/-- What a mount has taken of the lower file system when it faults. -/
structure MountState.Stuck (s : MountState) : Prop where
  logFile : s.acquired .logFile = 1
  heldLog : s.held .logFile = 1
  heldLower : s.held .lowerActive ∈ Finset.Icc (0 : ℤ) 1

/-- A mount that fails behind the log faults, with the log open. -/
theorem trfsReadSuper_of_not_getsRoot (h : env.GetsLog) (hroot : ¬env.GetsRoot) :
    ∃ f last, trfsReadSuper env .start = .error f last ∧ last.Stuck := by
  rw [trfsReadSuper_of_getsLog h]
  cases higet : env.iget5Locked with
  | false =>
    simp only [readRoot, trfsIget, higet, if_true]
    exact ⟨_, _, rfl, by decide, by decide, by decide⟩
  | true =>
    cases hgrab : env.igrab with
    | false =>
      simp only [readRoot, trfsIget, higet, hgrab, Bool.true_eq_false, if_false, if_true]
      exact ⟨_, _, rfl, by decide, by decide, by decide⟩
    | true =>
      cases halloc : env.dAlloc with
      | false =>
        simp only [readRoot, trfsIget, dMakeRoot, higet, hgrab, halloc, Bool.true_eq_false,
          if_false, if_true]
        exact ⟨_, _, rfl, by decide, by decide, by decide⟩
      | true =>
        have hpriv : env.privateData = false :=
          eq_false_of_ne_true fun hpriv => hroot ⟨higet, hgrab, halloc, hpriv⟩
        simp only [readRoot, trfsIget, dMakeRoot, higet, hgrab, halloc, hpriv, Bool.true_eq_false,
          if_false, if_true]
        exact ⟨_, _, rfl, by decide, by decide, by decide⟩

/-- What a mount has taken of the lower file system when it returns an error: nothing. -/
structure MountState.Empty (s : MountState) : Prop where
  logFile : s.acquired .logFile = 0
  heldLog : s.held .logFile = 0
  heldLower : s.held .lowerActive = 0

/-- A log that is not opened is an error, and the name of the log has been given back. -/
theorem createTrfile_of_not_opensLog (herr : env.ErrorsNonzero) (h : ¬env.OpensLog) :
    ∃ err ≠ 0, createTrfile env .allocated = .ok (.error err) .allocated ∨
      createTrfile env .allocated = .ok (.error err) { MountState.allocated with
        acquired := MountState.allocated.acquired + Pi.single .logName 1
        released := MountState.allocated.released + Pi.single .logName 1 } := by
  cases hoption : env.trOption with
  | none =>
    refine ⟨negEINVAL, by decide, .inl ?_⟩
    simp only [createTrfile, hoption]
    rfl
  | some option =>
    cases hname : nameIndex option with
    | false =>
      refine ⟨negEINVAL, by decide, .inl ?_⟩
      simp only [createTrfile, hoption, hname, if_true]
      rfl
    | true =>
      cases hgetname : env.getnameKernel with
      | error err =>
        refine ⟨err, fun hzero => herr.getnameKernel (hgetname.trans (congrArg _ hzero)), .inl ?_⟩
        simp only [createTrfile, hoption, hname, hgetname, Bool.true_eq_false, if_false]
        rfl
      | ok =>
        cases hopen : env.filpOpen with
        | error err =>
          refine ⟨err, fun hzero => herr.filpOpen (hopen.trans (congrArg _ hzero)), .inr ?_⟩
          simp only [createTrfile, hoption, hname, hgetname, hopen, Bool.true_eq_false, if_false]
          rfl
        | ok => exact absurd ⟨⟨option, hoption, hname⟩, hgetname, hopen⟩ h

/-- A mount that does not open its log returns an error, and nothing of the lower file system is
held. -/
theorem trfsReadSuper_of_not_getsLog (herr : env.ErrorsNonzero) (h : ¬env.GetsLog) :
    ∃ err last, trfsReadSuper env .start = .ok err last ∧ err ≠ 0 ∧ last.Empty := by
  cases hdev : env.devName with
  | false =>
    simp only [trfsReadSuper, hdev, if_true]
    exact ⟨_, _, rfl, by decide, by decide, by decide, by decide⟩
  | true =>
    cases hpath : env.kernPath with
    | error err =>
      simp only [trfsReadSuper, hdev, hpath, Bool.true_eq_false, if_false]
      refine ⟨_, _, rfl, fun hzero => ?_, by decide, by decide, by decide⟩
      exact herr.kernPath (hpath.trans (congrArg _ hzero))
    | ok =>
      cases hsb : env.sbInfo with
      | false =>
        simp only [trfsReadSuper, hdev, hpath, hsb, Bool.true_eq_false, if_false, if_true]
        exact ⟨_, _, rfl, by decide, by decide, by decide, by decide⟩
      | true =>
        cases hpage : env.trPage with
        | false =>
          simp only [trfsReadSuper, hdev, hpath, hsb, hpage, Bool.true_eq_false, if_false, if_true]
          exact ⟨_, _, rfl, by decide, by decide, by decide, by decide⟩
        | true =>
          have hread : trfsReadSuper env .start = readTrfile env .allocated :=
            trfsReadSuper_of_allocated hdev hpath hsb hpage
          have hopens : ¬env.OpensLog := fun hlog => h ⟨hdev, hpath, hsb, hpage, hlog⟩
          obtain ⟨err, hne, hlog | hlog⟩ := createTrfile_of_not_opensLog herr hopens
          · rw [hread, readTrfile, bind_of_ok hlog]
            exact ⟨err, _, rfl, hne, by decide, by decide, by decide⟩
          · rw [hread, readTrfile, bind_of_ok hlog]
            exact ⟨err, _, rfl, hne, by decide, by decide, by decide⟩

end

end Mount

end Trfs
