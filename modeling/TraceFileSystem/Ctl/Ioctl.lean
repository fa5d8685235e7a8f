import TraceFileSystem.Lib.Machine
import TraceFileSystem.Mount.ReadSuper

/-!
# The control device

`tr_ioctl` reads and sets the bitmap of a mount, `umask`, on behalf of a user.  The mount is given
by a path, which the function opens to find the superblock, so that it holds a `struct filename` and
an open file in between.

* `trIoctl` is the function on a `CtlState`, with what the kernel returns in a `CtlEnv`.
  `openMount` is the part that both commands share, and `putMount` gives back what it has taken.
* `CtlHistory` goes along with the state and keeps the bitmap of the last successful `TR_SET_BMAP`
  on every superblock, as a caller would.
* `KeepsBalance` says what is expected of a call.

On a file system other than trfs both commands return without giving anything back, and nothing else
goes wrong (`keepsBalance_iff`).
-/

namespace Trfs

namespace Ctl

open LabelledSystem Posix

/-! ### Commands -/

/-- `_IOC`, which packs direction, type, number and size into a command. -/
def ioc (dir type nr size : CInt) : CInt := dir <<< 30 ||| type <<< 8 ||| nr ||| size <<< 16

/-- `TRCTL_MAGIC`. -/
def trctlMagic : CInt := 0x5443544c

/-- `TR_GET_BMAP`. -/
def trGetBmap : CInt := ioc 2 trctlMagic 1 8

/-- `TR_SET_BMAP`. -/
def trSetBmap : CInt := ioc 1 trctlMagic 2 8

/-- `tr_arg_t`, with the string to which `mntpath` leads. -/
structure TrArg where
  bitmap : BitVec 64
  mntpath : CString
  deriving DecidableEq

/-- `TRFS_NAME`. -/
def trfsName : List UInt8 := [116, 114, 102, 115]

/-- A superblock: the name of its type, and for trfs the bitmap. -/
structure Superblock where
  typeName : List UInt8
  umask : BitVec 64
  deriving DecidableEq

/-- The superblocks, and what is held by calls that have returned or have not. -/
structure CtlState where
  supers : ℕ → Superblock
  /-- The `struct filename` objects. -/
  names : List CString
  /-- The open files, each given by its superblock. -/
  files : List ℕ

/-- What the kernel does for a call. -/
structure CtlEnv where
  /-- The argument, if it can be copied. -/
  copyFromUser : Option TrArg
  getnameKernel : CString → Option Errno
  /-- The superblock of the file that is opened. -/
  filpOpen : CString → Except Errno ℕ
  /-- The argument can be copied back. -/
  copyToUser : Bool

/-- The superblock to which the path in the argument leads. -/
def CtlEnv.target (env : CtlEnv) : Option (TrArg × ℕ) :=
  match env.copyFromUser with
  | none => none
  | some trctl =>
    match env.getnameKernel trctl.mntpath, env.filpOpen trctl.mntpath with
    | none, .ok sb => some (trctl, sb)
    | _, _ => none

/-- The value returned, and the argument as it is copied back. -/
structure CtlResult where
  ret : CInt
  out : Option TrArg
  deriving DecidableEq

namespace CtlState

variable (s : CtlState) (env : CtlEnv)

/-- Both commands up to the test of the file system. -/
def openMount : CtlState × Except CInt (TrArg × ℕ) :=
  match env.copyFromUser with
  | none => (s, .error Mount.negEACCES)
  | some trctl =>
    match env.getnameKernel trctl.mntpath with
    | some e => (s, .error (BitVec.ofInt 32 (-e.code)))
    | none =>
      let s := { s with names := trctl.mntpath :: s.names }
      match env.filpOpen trctl.mntpath with
      | .error e =>
        ({ s with names := s.names.erase trctl.mntpath }, .error (BitVec.ofInt 32 (-e.code)))
      | .ok sb =>
        let s := { s with files := sb :: s.files }
        if (s.supers sb).typeName ≠ trfsName then (s, .error negEINVAL)
        else (s, .ok (trctl, sb))

/-- `putname` and `filp_close`. -/
def putMount (trctl : TrArg) (sb : ℕ) : CtlState :=
  { s with names := s.names.erase trctl.mntpath, files := s.files.erase sb }

/-- The case `TR_GET_BMAP`. -/
def getBmap : CtlState × CtlResult :=
  match s.openMount env with
  | (s, .error err) => (s, ⟨err, none⟩)
  | (s, .ok (trctl, sb)) =>
    let trctl := { trctl with bitmap := (s.supers sb).umask }
    let s := s.putMount trctl sb
    if env.copyToUser then (s, ⟨0, some trctl⟩) else (s, ⟨Mount.negEACCES, none⟩)

/-- The umask of a superblock is set. -/
def setUmask (sb : ℕ) (bitmap : BitVec 64) : CtlState :=
  { s with supers := Function.update s.supers sb { s.supers sb with umask := bitmap } }

/-- The case `TR_SET_BMAP`. -/
def setBmap : CtlState × CtlResult :=
  match s.openMount env with
  | (s, .error err) => (s, ⟨err, none⟩)
  | (s, .ok (trctl, sb)) => ((s.setUmask sb trctl.bitmap).putMount trctl sb, ⟨0, none⟩)

/-- `tr_ioctl`. -/
def trIoctl (cmd : CInt) : CtlState × CtlResult :=
  if cmd = trGetBmap then s.getBmap env
  else if cmd = trSetBmap then s.setBmap env
  else (s, ⟨negEINVAL, none⟩)

end CtlState

/-! ### Sequences of calls -/

/-- Calls, and mounts in between. -/
inductive CtlEvent where
  /-- A superblock of trfs is mounted. -/
  | mountTrfs (sb : ℕ)
  /-- A superblock of another type is mounted. -/
  | mountOther (sb : ℕ) (typeName : List UInt8) (ne : typeName ≠ trfsName)
  | ioctl (cmd : CInt) (env : CtlEnv)

/-- The state, and for every superblock the bitmap of the last `TR_SET_BMAP` that has succeeded, or
all ones if there was none since its mount. -/
structure CtlHistory where
  state : CtlState
  last : ℕ → BitVec 64

namespace CtlHistory

variable (h : CtlHistory)

/-- Nothing has been set on any of the superblocks. -/
def start (typeName : ℕ → List UInt8) (names : List CString) (files : List ℕ) : CtlHistory where
  state := ⟨fun sb => ⟨typeName sb, -1⟩, names, files⟩
  last := fun _ => -1

/-- The state after an event.  `trfs_read_super` sets all bits of the bitmap. -/
def stateAfter : CtlEvent → CtlState
  | .mountTrfs sb =>
    { h.state with supers := Function.update h.state.supers sb ⟨trfsName, -1⟩ }
  | .mountOther sb typeName _ =>
    { h.state with supers := Function.update h.state.supers sb ⟨typeName, 0⟩ }
  | .ioctl cmd env => (h.state.trIoctl env cmd).1

/-- What a caller remembers after an event. -/
def lastAfter : CtlEvent → ℕ → BitVec 64
  | .mountTrfs sb => Function.update h.last sb (-1)
  | .mountOther _ _ _ => h.last
  | .ioctl cmd env =>
    if cmd = trSetBmap ∧ (h.state.trIoctl env cmd).2.ret = 0 then
      match env.target with
      | some (trctl, sb) => Function.update h.last sb trctl.bitmap
      | none => h.last
    else h.last

/-- One event of a sequence. -/
def step (e : CtlEvent) : Option CtlHistory := some ⟨h.stateAfter e, h.lastAfter e⟩

/-- A call holds nothing more than before when it returns.  It changes a superblock only if it is a
`TR_SET_BMAP` that succeeds, and then only the bitmap of the superblock to which its path leads.  A
`TR_GET_BMAP` that succeeds returns the last bitmap that was set there. -/
def KeepsBalance : CtlEvent → Prop
  | .mountTrfs _ | .mountOther _ _ _ => True
  | .ioctl cmd env =>
    let (s, r) := h.state.trIoctl env cmd
    s.names = h.state.names ∧ s.files = h.state.files ∧
      (∀ i, s.supers i ≠ h.state.supers i → cmd = trSetBmap ∧ r.ret = 0 ∧
        ∃ trctl, env.target = some (trctl, i) ∧
          s.supers i = { h.state.supers i with umask := trctl.bitmap }) ∧
      (cmd = trGetBmap → r.ret = 0 → ∃ trctl sb, env.target = some (trctl, sb) ∧
        r.out = some { trctl with bitmap := h.last sb })

/-- The path of a command does not lead to another file system than trfs. -/
def StaysOnTrfs : CtlEvent → Prop
  | .mountTrfs _ | .mountOther _ _ _ => True
  | .ioctl cmd env => (cmd = trGetBmap ∨ cmd = trSetBmap) →
    ∀ trctl sb, env.target = some (trctl, sb) → (h.state.supers sb).typeName = trfsName

/-- What a caller remembers is right. -/
def Inv : Prop :=
  ∀ sb, (h.state.supers sb).typeName = trfsName → (h.state.supers sb).umask = h.last sb

end CtlHistory

/-! ### Opening a mount -/

namespace CtlState

variable {s : CtlState} {env : CtlEnv} {trctl : TrArg} {sb : ℕ}

/-- The state while a command holds the path and the file. -/
def held (s : CtlState) (trctl : TrArg) (sb : ℕ) : CtlState :=
  { s with names := trctl.mntpath :: s.names, files := sb :: s.files }

/-- Everything that is held is given back. -/
theorem putMount_held (s : CtlState) (trctl : TrArg) (sb : ℕ) :
    (s.held trctl sb).putMount trctl sb = s := by
  simp only [putMount, held, List.erase_cons_head]

/-- A path that leads to no superblock leaves nothing behind. -/
theorem openMount_of_none (h : env.target = none) :
    ∃ err, err ≠ 0 ∧ s.openMount env = (s, .error err) := by
  unfold CtlEnv.target at h
  cases hcopy : env.copyFromUser with
  | none => exact ⟨Mount.negEACCES, by decide, by simp only [openMount, hcopy]⟩
  | some trctl =>
    simp only [hcopy] at h
    cases hname : env.getnameKernel trctl.mntpath with
    | some e => exact ⟨_, e.neg_ne_zero, by simp only [openMount, hcopy, hname]⟩
    | none =>
      cases hopen : env.filpOpen trctl.mntpath with
      | error e =>
        refine ⟨_, e.neg_ne_zero, ?_⟩
        simp only [openMount, hcopy, hname, hopen, List.erase_cons_head]
      | ok sb => simp only [hname, hopen, reduceCtorEq] at h

/-- A path that leads to a superblock is held, whatever the superblock is. -/
theorem openMount_of_some (h : env.target = some (trctl, sb)) :
    s.openMount env = (s.held trctl sb,
      if (s.supers sb).typeName ≠ trfsName then .error negEINVAL else .ok (trctl, sb)) := by
  unfold CtlEnv.target at h
  cases hcopy : env.copyFromUser with
  | none => simp only [hcopy, reduceCtorEq] at h
  | some trctl' =>
    simp only [hcopy] at h
    cases hname : env.getnameKernel trctl'.mntpath with
    | some e => simp only [hname, reduceCtorEq] at h
    | none =>
      cases hopen : env.filpOpen trctl'.mntpath with
      | error e => simp only [hname, hopen, reduceCtorEq] at h
      | ok sb' =>
        simp only [hname, hopen] at h
        cases h
        simp only [openMount, hcopy, hname, hopen, held]
        split <;> rfl

/-- On a mount of trfs `TR_GET_BMAP` leaves the state as it was. -/
theorem getBmap_of_some (h : env.target = some (trctl, sb))
    (htrfs : (s.supers sb).typeName = trfsName) :
    s.getBmap env = (s, if env.copyToUser then
      ⟨0, some { trctl with bitmap := (s.supers sb).umask }⟩ else ⟨Mount.negEACCES, none⟩) := by
  have hput := s.putMount_held { trctl with bitmap := (s.supers sb).umask } sb
  rw [getBmap, openMount_of_some h, if_neg (not_not.mpr htrfs)]
  dsimp only
  split
  · exact congrArg (·, _) hput
  · exact congrArg (·, _) hput

/-- On a mount of trfs `TR_SET_BMAP` sets the bitmap. -/
theorem setBmap_of_some (h : env.target = some (trctl, sb))
    (htrfs : (s.supers sb).typeName = trfsName) :
    s.setBmap env = (s.setUmask sb trctl.bitmap, ⟨0, none⟩) := by
  rw [setBmap, openMount_of_some h, if_neg (not_not.mpr htrfs)]
  exact congrArg (·, _) ((s.setUmask sb trctl.bitmap).putMount_held trctl sb)

/-- On any other file system both commands return while they hold the path and the file. -/
theorem trIoctl_leaks (h : env.target = some (trctl, sb))
    (hother : (s.supers sb).typeName ≠ trfsName) {cmd : CInt}
    (hcmd : cmd = trGetBmap ∨ cmd = trSetBmap) :
    s.trIoctl env cmd = (s.held trctl sb, ⟨negEINVAL, none⟩) := by
  have hopen : s.openMount env = (s.held trctl sb, .error negEINVAL) := by
    rw [openMount_of_some h, if_pos hother]
  rcases hcmd with rfl | rfl
  · rw [trIoctl, if_pos rfl, getBmap, hopen]
  · rw [trIoctl, if_neg (by decide), if_pos rfl, setBmap, hopen]

/-- Without a superblock nothing changes, and an error is returned. -/
theorem trIoctl_of_none (h : env.target = none) (cmd : CInt) :
    ∃ err, err ≠ 0 ∧ s.trIoctl env cmd = (s, ⟨err, none⟩) := by
  obtain ⟨err, herr, hopen⟩ := openMount_of_none (s := s) h
  unfold trIoctl
  split_ifs
  · exact ⟨err, herr, by rw [getBmap, hopen]⟩
  · exact ⟨err, herr, by rw [setBmap, hopen]⟩
  · exact ⟨negEINVAL, by decide, rfl⟩

/-- A `TR_SET_BMAP` that succeeds has set the bitmap of the superblock to which its path leads. -/
theorem trIoctl_set_of_ret (hret : (s.trIoctl env trSetBmap).2.ret = 0) :
    ∃ trctl sb, env.target = some (trctl, sb) ∧
      (s.trIoctl env trSetBmap).1 = s.setUmask sb trctl.bitmap := by
  cases htarget : env.target with
  | none =>
    obtain ⟨err, herr, hcall⟩ := trIoctl_of_none (s := s) htarget trSetBmap
    rw [hcall] at hret
    exact absurd hret herr
  | some target =>
    obtain ⟨trctl, sb⟩ := target
    refine ⟨trctl, sb, rfl, ?_⟩
    by_cases htrfs : (s.supers sb).typeName = trfsName
    · have hcall : s.trIoctl env trSetBmap = s.setBmap env := if_neg (by decide)
      rw [hcall, setBmap_of_some htarget htrfs]
    · have hne : negEINVAL ≠ 0 := by decide
      rw [trIoctl_leaks htarget htrfs (.inr rfl)] at hret
      exact absurd hret hne

end CtlState

/-! ### Balanced sequences -/

namespace CtlHistory

variable {h : CtlHistory} {env : CtlEnv} {cmd : CInt} {trctl : TrArg} {sb : ℕ}

/-- A call that changes nothing and returns nothing to the caller is balanced. -/
theorem keepsBalance_of_unchanged {err : CInt} (hcall : h.state.trIoctl env cmd =
    (h.state, ⟨err, none⟩)) (herr : err ≠ 0) : h.KeepsBalance (.ioctl cmd env) := by
  simp only [KeepsBalance, hcall]
  exact ⟨trivial, trivial, fun i hi => absurd rfl hi, fun _ h0 => absurd h0 herr⟩

/-- A call that leaves the path and the file behind is not. -/
theorem not_keepsBalance_of_other (htarget : env.target = some (trctl, sb))
    (hother : (h.state.supers sb).typeName ≠ trfsName)
    (hcmd : cmd = trGetBmap ∨ cmd = trSetBmap) : ¬h.KeepsBalance (.ioctl cmd env) := by
  simp only [KeepsBalance, CtlState.trIoctl_leaks htarget hother hcmd, CtlState.held]
  rintro ⟨hnames, -⟩
  exact List.cons_ne_self _ _ hnames

/-- `TR_GET_BMAP` on a mount of trfs. -/
theorem keepsBalance_get (hinv : h.Inv) (htarget : env.target = some (trctl, sb))
    (htrfs : (h.state.supers sb).typeName = trfsName) :
    h.KeepsBalance (.ioctl trGetBmap env) := by
  have hcall : h.state.trIoctl env trGetBmap = h.state.getBmap env := if_pos rfl
  simp only [KeepsBalance, hcall, CtlState.getBmap_of_some htarget htrfs]
  refine ⟨trivial, trivial, fun i hi => absurd rfl hi, fun _ hret => ⟨trctl, sb, htarget, ?_⟩⟩
  rw [← hinv sb htrfs]
  cases hcopy : env.copyToUser with
  | true => rfl
  | false =>
    have hne : Mount.negEACCES ≠ 0 := by decide
    simp only [hcopy, Bool.false_eq_true, if_false] at hret
    exact absurd hret hne

/-- `TR_SET_BMAP` on a mount of trfs. -/
theorem keepsBalance_set (htarget : env.target = some (trctl, sb))
    (htrfs : (h.state.supers sb).typeName = trfsName) :
    h.KeepsBalance (.ioctl trSetBmap env) := by
  have hcall : h.state.trIoctl env trSetBmap = h.state.setBmap env := if_neg (by decide)
  simp only [KeepsBalance, hcall, CtlState.setBmap_of_some htarget htrfs]
  refine ⟨rfl, rfl, fun i hi => ?_, fun hget => absurd hget (by decide)⟩
  by_cases his : i = sb
  · subst his
    exact ⟨trivial, trivial, trctl, htarget, Function.update_self ..⟩
  · exact absurd (Function.update_of_ne his ..) hi

/-- An event is balanced if and only if its path stays on trfs. -/
theorem keepsBalance_event_iff (hinv : h.Inv) (e : CtlEvent) :
    h.KeepsBalance e ↔ h.StaysOnTrfs e := by
  cases e with
  | mountTrfs sb => exact Iff.rfl
  | mountOther sb typeName ne => exact Iff.rfl
  | ioctl cmd env =>
    by_cases hcmd : cmd = trGetBmap ∨ cmd = trSetBmap
    · cases htarget : env.target with
      | none =>
        obtain ⟨err, herr, hcall⟩ := CtlState.trIoctl_of_none (s := h.state) htarget cmd
        refine iff_of_true (keepsBalance_of_unchanged hcall herr) fun _ trctl sb hsome => ?_
        rw [htarget] at hsome
        cases hsome
      | some target =>
        obtain ⟨trctl, sb⟩ := target
        by_cases htrfs : (h.state.supers sb).typeName = trfsName
        · have hstays : h.StaysOnTrfs (.ioctl cmd env) := by
            intro _ trctl' sb' hsome
            rw [htarget] at hsome
            cases hsome
            exact htrfs
          refine iff_of_true ?_ hstays
          rcases hcmd with rfl | rfl
          · exact keepsBalance_get hinv htarget htrfs
          · exact keepsBalance_set htarget htrfs
        · refine iff_of_false (not_keepsBalance_of_other htarget htrfs hcmd) fun hstays => ?_
          exact htrfs (hstays hcmd trctl sb htarget)
    · obtain ⟨hget, hset⟩ := not_or.mp hcmd
      have hcall : h.state.trIoctl env cmd = (h.state, ⟨negEINVAL, none⟩) := by
        rw [CtlState.trIoctl, if_neg hget, if_neg hset]
      exact iff_of_true (keepsBalance_of_unchanged hcall (by decide)) fun habs => absurd habs hcmd

/-- A balanced event leaves what a caller remembers right. -/
theorem Inv.step {h' : CtlHistory} {e : CtlEvent} (hinv : h.Inv) (he : h.KeepsBalance e)
    (hstep : h.step e = some h') : h'.Inv := by
  cases hstep
  intro i hi
  cases e with
  | mountTrfs sb =>
    by_cases his : i = sb
    · subst his
      simp only [stateAfter, lastAfter, Function.update_self]
    · simp only [stateAfter, lastAfter, Function.update_of_ne his] at hi ⊢
      exact hinv i hi
  | mountOther sb typeName ne =>
    by_cases his : i = sb
    · subst his
      simp only [stateAfter, Function.update_self] at hi
      exact absurd hi ne
    · simp only [stateAfter, lastAfter, Function.update_of_ne his] at hi ⊢
      exact hinv i hi
  | ioctl cmd env =>
    obtain ⟨-, -, hsupers, -⟩ := he
    by_cases hset : cmd = trSetBmap ∧ (h.state.trIoctl env cmd).2.ret = 0
    · obtain ⟨rfl, hret⟩ := hset
      obtain ⟨trctl, sb, htarget, hstate⟩ := CtlState.trIoctl_set_of_ret hret
      simp only [stateAfter, lastAfter, hstate, hret, and_self, if_true, htarget,
        CtlState.setUmask] at hi ⊢
      by_cases his : i = sb
      · subst his
        simp only [Function.update_self]
      · simp only [Function.update_of_ne his] at hi ⊢
        exact hinv i hi
    · -- Nothing was set, so that no superblock has changed.
      have hsame : (h.state.trIoctl env cmd).1.supers i = h.state.supers i := by
        by_contra hne
        obtain ⟨hcmd, hret, -⟩ := hsupers i hne
        exact hset ⟨hcmd, hret⟩
      simp only [stateAfter, lastAfter, hsame, hset, if_false] at hi ⊢
      exact hinv i hi

end CtlHistory

/-- **Bitmap calls are balanced.**  Take any sequence of calls on arbitrary paths, with mounts in
between and any failures.  Every call gives back what it has taken, only a successful `TR_SET_BMAP`
changes a bitmap, and a successful `TR_GET_BMAP` returns the one that was set last, if and only if
no path of a command is opened on a file system other than trfs. -/
theorem keepsBalance_iff (typeName : ℕ → List UInt8) (names : List CString) (files : List ℕ)
    (es : List CtlEvent) :
    RunAllowed CtlHistory.step CtlHistory.KeepsBalance (.start typeName names files) es ↔
      RunAllowed CtlHistory.step CtlHistory.StaysOnTrfs (.start typeName names files) es :=
  runAllowed_congr (fun _ e hinv => CtlHistory.keepsBalance_event_iff hinv e)
    (fun _ _ _ hinv he hstep => hinv.step he hstep) (fun _ _ => rfl)

/-- Everything succeeds, and every path leads to superblock `0`. -/
def openAlways : CtlEnv where
  copyFromUser := some ⟨0, ⟨[47], by decide⟩⟩
  getnameKernel := fun _ => none
  filpOpen := fun _ => .ok 0
  copyToUser := true

/-- `ext4`. -/
def ext4Name : List UInt8 := [101, 120, 116, 52]

/-- The bitmap of a path on ext4 is asked for, and the file stays open. -/
theorem not_keepsBalance_ext4 :
    ¬RunAllowed CtlHistory.step CtlHistory.KeepsBalance (.start (fun _ => ext4Name) [] [])
      [.ioctl trGetBmap openAlways] := by
  rintro ⟨⟨-, hfiles, -⟩, -⟩
  revert hfiles
  decide

end Ctl

end Trfs
