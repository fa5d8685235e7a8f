import TraceFileSystem.Ctl.Trctl
import TraceFileSystem.Replay.Report
import TraceFileSystem.System.Exactness

/-!
# Sessions

What a user of the whole repository sees: a mount of trfs is used by any number of threads, `trctl`
chooses in between what is to be traced, and `treplay -n` lists the log.

* A `Session` is the system and the control device as it is seen by `tr_ioctl`.  `Session.step` is a
  step of a thread or a run of `trctl`.
* `SessionEvent.asks` is the bitmap that a command line asks for, and `bitmapOrder` lists the
  operations in the order in which they take the lock, each with the bitmap that was asked for last.
  Both are read off the events.
* `Session.Coupled` is the invariant: the mask of the mount, the superblock that the device sees and
  the bitmap that was asked for agree.

`listing_of_session` goes from the command lines to the listing.
-/

namespace Trfs

open LabelledSystem ByteStore Ctl

/-! ### The state -/

/-- A mount in use, with superblock `0`. -/
structure Session where
  sys : SysState
  ctl : CtlState

/-- What happens in a session. -/
inductive SessionEvent where
  /-- A thread takes a step. -/
  | thread (e : Event)
  /-- `trctl` is started with some arguments.  The device can be opened or not. -/
  | trctl (argv : List Argument) (device : Bool) (env : CtlEnv)

/-- The argument of `ioctl` that `trctl` passes.  The bitmap is not initialised when it is asked
for. -/
def Ctl.CtlEnv.passing (env : CtlEnv) (args : BitVec 64 → TrArg) : CtlEnv :=
  { env with copyFromUser := env.copyFromUser.map fun a => args a.bitmap }

namespace Session

variable (s : Session)

/-- The call of `tr_ioctl`.  It takes the lock of a mount of trfs, so that it waits for the holder,
and with `TR_SET_BMAP` it sets the mask. -/
def ioctl (cmd : CInt) (env : CtlEnv) : Option Session :=
  let ctl := (s.ctl.trIoctl env cmd).1
  match env.target with
  | none => some { s with ctl := ctl }
  | some (args, sb) =>
    if (s.ctl.supers sb).typeName ≠ trfsName then some { s with ctl := ctl }
    else
      match s.sys.mounts sb with
      | none => none
      | some m =>
        if m.holder ≠ none then none
        else if cmd = trSetBmap then
          (s.sys.step (.setBmap sb args.bitmap)).map fun sys =>
            { s with sys := sys, ctl := ctl }
        else some { s with ctl := ctl }

/-- One step. -/
def step : SessionEvent → Option Session
  | .thread e => (s.sys.step e).map fun sys => { s with sys := sys }
  | .trctl argv device env =>
    match Ctl.trctl argv with
    | .usage _ => some s
    | .getBmap mntpath =>
      if device then s.ioctl trGetBmap (env.passing fun bitmap => ⟨bitmap, mntpath⟩) else some s
    | .setBmap args =>
      if device then s.ioctl trSetBmap (env.passing fun _ => args) else some s

/-- Trfs has just been mounted.  The other superblocks are of other types. -/
def start (k : Kernel) (trPage : List UInt8) (others : ℕ → Superblock) : Session where
  sys := .oneMount k trPage
  ctl := ⟨Function.update others 0 ⟨trfsName, -1⟩, [], []⟩

end Session

/-! ### What can be read off the events -/

/-- The bitmap that a run of `trctl` asks for: the command line has one, the device can be opened,
and the path leads to the mount. -/
def SessionEvent.asks : SessionEvent → Option (BitVec 64)
  | .thread _ => none
  | .trctl argv device env =>
    match Ctl.trctl argv with
    | .setBmap args =>
      if device = true ∧ (env.passing fun _ => args).target.map Prod.snd = some 0 then
        some args.bitmap
      else none
    | .getBmap _ | .usage _ => none

/-- What an observer notes of the threads and of the command lines. -/
def Observer.seeSession (o : Observer) : SessionEvent → Observer
  | .thread e => o.see e
  | .trctl argv device env =>
    match (SessionEvent.trctl argv device env).asks with
    | some bitmap => { o with umask := bitmap }
    | none => o

/-- The operations in the order in which they take the lock in a session, each with the bitmap that
`trctl` had been given last. -/
def bitmapOrder (es : List SessionEvent) : List (Tail × BitVec 64) :=
  (es.foldl Observer.seeSession .start).locked

/-- Operations within the format, allocations and writes to the log that succeed, and any use of
`trctl`, which is the only one to set bitmaps. -/
def SessionEvent.Faithful : SessionEvent → Prop
  | .thread (.setBmap _ _) => False
  | .thread e => e.Faithful
  | .trctl _ _ _ => True

/-! ### The three views of the bitmap -/

/-- Only `TR_SET_BMAP` changes the mask that is noted. -/
theorem Observer.umask_see {e : Event} (he : (SessionEvent.thread e).Faithful) (o : Observer) :
    (o.see e).umask = o.umask := by
  cases e with
  | setBmap n umask => exact he.elim
  | lock t =>
    simp only [see]
    split <;> rfl
  | _ => rfl

/-- The argument that `tr_ioctl` finds is the one that `trctl` has passed. -/
theorem Ctl.CtlEnv.target_passing {env : CtlEnv} {args args' : TrArg} {sb : ℕ}
    (h : (env.passing fun _ => args).target = some (args', sb)) : args' = args := by
  unfold target passing at h
  cases hcopy : env.copyFromUser with
  | none =>
    rw [hcopy] at h
    cases h
  | some a =>
    simp only [hcopy, Option.map_some] at h
    split at h
    · cases h
      rfl
    · cases h

namespace Session

variable {s s' : Session} {o : Observer}

/-- The mount, the device and an observer of the command lines agree on the bitmap. -/
structure Coupled (s : Session) (o : Observer) : Prop where
  observed : s.sys.Observed o
  super : s.ctl.supers 0 = ⟨trfsName, o.umask⟩
  others : ∀ n, n ≠ 0 → (s.ctl.supers n).typeName ≠ trfsName

/-- They do when trfs has been mounted. -/
theorem coupled_start (k : Kernel) (trPage : List UInt8) {others : ℕ → Superblock}
    (hothers : ∀ n, n ≠ 0 → (others n).typeName ≠ trfsName) :
    (start k trPage others).Coupled .start where
  observed := SysState.observed_oneMount k trPage
  super := by simp [start, Observer.start]
  others n hn := by
    simp only [start, Function.update_of_ne hn]
    exact hothers n hn

/-- A step of a thread. -/
theorem Coupled.thread (h : s.Coupled o) {e : Event} (he : (SessionEvent.thread e).Faithful)
    (hstep : s.step (.thread e) = some s') : s'.Coupled (o.see e) := by
  obtain ⟨sys, hsys, rfl⟩ := Option.map_eq_some_iff.mp hstep
  have hfaithful : e.Faithful := by
    cases e <;> first | exact he | exact he.elim
  refine ⟨h.observed.step hfaithful hsys, ?_, h.others⟩
  rw [Observer.umask_see he]
  exact h.super

/-- `TR_SET_BMAP` on the mount. -/
theorem Coupled.setBmap (h : s.Coupled o) {bitmap : BitVec 64} {sys : SysState}
    (hsys : s.sys.step (.setBmap 0 bitmap) = some sys) :
    ({ s with sys := sys, ctl := s.ctl.setUmask 0 bitmap } : Session).Coupled
      { o with umask := bitmap } where
  observed := by
    have hfaithful : (Event.setBmap 0 bitmap).Faithful := trivial
    exact h.observed.step hfaithful hsys
  super := by
    simp only [CtlState.setUmask, Function.update_self, h.super]
  others n hn := by
    simp only [CtlState.setUmask, Function.update_of_ne hn]
    exact h.others n hn

/-- A call of `tr_ioctl` that does not lead to the mount, or only reads its bitmap. -/
theorem Coupled.ioctl_get (h : s.Coupled o) {cmd : CInt} (hcmd : cmd = trGetBmap ∨ cmd = trSetBmap)
    {env : CtlEnv} (hget : cmd = trGetBmap ∨ env.target.map Prod.snd ≠ some 0)
    (hioctl : s.ioctl cmd env = some s') : s'.Coupled o := by
  unfold Session.ioctl at hioctl
  cases htarget : env.target with
  | none =>
    obtain ⟨err, -, hcall⟩ := CtlState.trIoctl_of_none (s := s.ctl) htarget cmd
    rw [htarget, hcall] at hioctl
    cases hioctl
    exact h
  | some target =>
    obtain ⟨args, sb⟩ := target
    simp only [htarget] at hioctl
    by_cases htrfs : (s.ctl.supers sb).typeName = trfsName
    · obtain rfl : sb = 0 := by
        by_contra hsb
        exact h.others sb hsb htrfs
      obtain rfl : cmd = trGetBmap := hget.resolve_right (by simp [htarget])
      rw [if_neg (not_not.mpr htrfs)] at hioctl
      split at hioctl
      · cases hioctl
      · split at hioctl
        · cases hioctl
        · rw [if_neg (by decide), CtlState.trIoctl, if_pos rfl,
            CtlState.getBmap_of_some htarget htrfs] at hioctl
          cases hioctl
          exact h
    · rw [if_pos htrfs, CtlState.trIoctl_leaks htarget htrfs hcmd] at hioctl
      cases hioctl
      exact ⟨h.observed, h.super, h.others⟩

/-- A call of `tr_ioctl` that sets the bitmap of the mount. -/
theorem Coupled.ioctl_set (h : s.Coupled o) {env : CtlEnv} {args : TrArg}
    (htarget : env.target = some (args, 0)) (hioctl : s.ioctl trSetBmap env = some s') :
    s'.Coupled { o with umask := args.bitmap } := by
  have htrfs : (s.ctl.supers 0).typeName = trfsName := by rw [h.super]
  unfold Session.ioctl at hioctl
  simp only [htarget] at hioctl
  rw [if_neg (not_not.mpr htrfs)] at hioctl
  split at hioctl
  · cases hioctl
  · split at hioctl
    · cases hioctl
    · rw [if_pos trivial, CtlState.trIoctl, if_neg (by decide), if_pos rfl,
        CtlState.setBmap_of_some htarget htrfs] at hioctl
      obtain ⟨sys, hsys, rfl⟩ := Option.map_eq_some_iff.mp hioctl
      exact h.setBmap hsys

/-- A run of `trctl`. -/
theorem Coupled.trctl (h : s.Coupled o) {argv : List Argument} {device : Bool} {env : CtlEnv}
    (hstep : s.step (.trctl argv device env) = some s') :
    s'.Coupled (o.seeSession (.trctl argv device env)) := by
  simp only [Session.step] at hstep
  simp only [Observer.seeSession, SessionEvent.asks]
  cases hargs : Ctl.trctl argv with
  | usage message =>
    rw [hargs] at hstep
    cases hstep
    exact h
  | getBmap mntpath =>
    simp only [hargs] at hstep
    split at hstep
    · exact h.ioctl_get (.inl rfl) (.inl rfl) hstep
    · cases hstep
      exact h
  | setBmap args =>
    simp only [hargs] at hstep
    by_cases hset : device = true ∧ (env.passing fun _ => args).target.map Prod.snd = some 0
    · obtain ⟨⟨args', sb⟩, htarget, rfl⟩ := Option.map_eq_some_iff.mp hset.2
      obtain rfl := CtlEnv.target_passing htarget
      rw [if_pos hset.1] at hstep
      simp only [if_pos hset]
      exact h.ioctl_set htarget hstep
    · simp only [if_neg hset]
      split at hstep
      · next hdevice =>
        exact h.ioctl_get (.inr rfl) (.inr fun hsb => hset ⟨hdevice, hsb⟩) hstep
      · cases hstep
        exact h

/-- One step of a session. -/
theorem Coupled.step (h : s.Coupled o) {e : SessionEvent} (he : e.Faithful)
    (hstep : s.step e = some s') : s'.Coupled (o.seeSession e) := by
  cases e with
  | thread e => exact h.thread he hstep
  | trctl argv device env => exact h.trctl hstep

/-- An observer of a session has noted everything. -/
theorem coupled_run {k : Kernel} {trPage : List UInt8} {others : ℕ → Superblock}
    (hothers : ∀ n, n ≠ 0 → (others n).typeName ≠ trfsName) {es : List SessionEvent}
    (hrun : run Session.step (start k trPage others) es = some s) (hes : ∀ e ∈ es, e.Faithful) :
    s.Coupled (es.foldl Observer.seeSession .start) := by
  have hstep (s : Session) (o : Observer) (e : SessionEvent) (s' : Session) (h : s.Coupled o)
      (he : e.Faithful) (hstep : s.step e = some s') : s'.Coupled (o.seeSession e) :=
    h.step he hstep
  have hend := run_observed hstep (coupled_start k trPage hothers)
    (runAllowed_of_forall (fun e he _ => hes e he) _) hrun
  exact hend

/-- **From the command line to the listing.**  In every session on one mount, whatever its threads
and the runs of `trctl` do in which order, `treplay -n` prints its first two lines and behind them
exactly the operations whose bit was set in the bitmap that `trctl` had last been given when they
took the lock, in this order and numbered from zero on.  The log has to be small enough, its chunks
must tear no record, and its paths have to fit the path buffers of the tool. -/
theorem listing_of_session {k : Kernel} {trPage : List UInt8} {others : ℕ → Superblock}
    (hothers : ∀ n, n ≠ 0 → (others n).typeName ≠ trfsName) {es : List SessionEvent}
    (hrun : run Session.step (start k trPage others) es = some s) (hes : ∀ e ∈ es, e.Faithful)
    {mnt : Mount} (hmnt : s.sys.mounts 0 = some mnt) (hfree : mnt.holder = none)
    (hmax : ((frames (expected (tracedTails (bitmapOrder es)))).length : ℤ) ≤ intMax)
    (hal : ChunkAligned (expected (tracedTails (bitmapOrder es)))) {W : Type*} (sys : Syscalls W)
    {cwd : List UInt8}
    (hwithin : ∀ r ∈ expected (tracedTails (bitmapOrder es)), r.ResolvesWithin cwd)
    (file : List Char) (m : Mem) (w : W) (text : List Char) :
    Prints ⟨sys, ⟨true, false⟩, cwd, mnt.sb.log.data⟩ file m w text ↔
      text = listing file ((expected (tracedTails (bitmapOrder es))).map LogRecord.hdr) := by
  have hcoupled := coupled_run hothers hrun hes
  obtain ⟨hrecords, hlog⟩ := hcoupled.observed.records hmnt hfree
  have hwf := (hcoupled.observed.exact.consistent.mounts 0 mnt hmnt).wellFormed
  have hdata : mnt.sb.log.data = frames (expected (tracedTails (bitmapOrder es))) :=
    congrArg LogFile.data hlog
  rw [hrecords] at hwf
  rw [hdata]
  exact prints_listing sys hwf hmax hal hwithin file m w text

/-- A directory is made while nothing is to be traced, and another time when all is. -/
def noneThenAll : List SessionEvent :=
  let word := fun w : CString => fun h : w.bytes.length < maxArgStrlen => (⟨w, h⟩ : Argument)
  let prog := word ⟨[116, 114, 99, 116, 108], by decide⟩ (by decide)
  let mntpath := word ⟨[47, 109, 110, 116], by decide⟩ (by decide)
  .trctl [prog, word ⟨noneWord, by decide⟩ (by decide), mntpath] true openAlways ::
    [.arrive 0 mkdirL, .lock 0, .work 0 .mask, .work 0 (.fill ⟨some 0, some 1⟩), .unlock 0].map
      .thread ++
  .trctl [prog, word ⟨allWord, by decide⟩ (by decide), mntpath] true openAlways ::
    (wholeOp 0 mkdirL).map .thread

/-- Superblocks of ext4. -/
def ext4Supers : ℕ → Superblock := fun _ => ⟨ext4Name, 0⟩

/-- Only the second one is listed. -/
theorem listing_noneThenAll :
    ∃ s mnt, run Session.step (start ⟨0, [], []⟩ [] ext4Supers) noneThenAll = some s ∧
      s.sys.mounts 0 = some mnt ∧
      ∀ text, Prints ⟨Syscalls.refusing, ⟨true, false⟩, [47, 116], mnt.sb.log.data⟩
          (Formats.lit "log") (fun _ => 0) () text ↔
        text = Formats.lit "sizeof(enum):4\ntrace_file=log\n" ++
          Formats.lit "rec_id=0, rec_flags=0, perm_flags=0, result=0, rec_size=34, path_len=2, " ++
          Formats.lit "rec_type=1024, aux_len=0, syscall=mkdir, record_err=0, \n" := by
  have hends : ((run Session.step (start ⟨0, [], []⟩ [] ext4Supers) noneThenAll).bind fun s =>
      (s.sys.mounts 0).filter fun mnt => mnt.holder = none).isSome = true := by
    decide +kernel
  obtain ⟨mnt, hends⟩ := Option.isSome_iff_exists.mp hends
  obtain ⟨s, hrun, hmnt⟩ := Option.bind_eq_some_iff.mp hends
  obtain ⟨hmnt, hfree⟩ := Option.filter_eq_some_iff.mp hmnt
  have hrecords : expected (tracedTails (bitmapOrder noneThenAll)) =
      [mkdirL.plan.tail.args.logRecord 0] := by
    decide +kernel
  have hsize : (frames (expected (tracedTails (bitmapOrder noneThenAll)))).length ≤ chunkSize := by
    rw [hrecords]
    decide +kernel
  have hchunk : (chunkSize : ℤ) ≤ intMax := by decide
  have hothers : ∀ n, n ≠ 0 → (ext4Supers n).typeName ≠ trfsName := by
    intro n _
    change ext4Name ≠ trfsName
    decide
  have hformat : mkdirL.WithinFormat := ⟨by decide, trivial⟩
  have hes : ∀ e ∈ noneThenAll, e.Faithful := by
    simp [noneThenAll, wholeOp, SessionEvent.Faithful, Event.Faithful, TailStep.Completes,
      hformat, PageEnv.available]
  have hwithin : ∀ r ∈ expected (tracedTails (bitmapOrder noneThenAll)),
      r.ResolvesWithin [47, 116] := by
    rw [hrecords]
    exact List.forall_mem_singleton.mpr
      (LogRecord.resolvesWithin_of_le (by decide) (by decide) (by decide))
  refine ⟨s, mnt, hrun, hmnt, fun text => ?_⟩
  rw [listing_of_session hothers hrun hes hmnt (of_decide_eq_true hfree) (by omega)
    (chunkAligned_of_le hsize) _ hwithin, hrecords]
  have htext : listing (Formats.lit "log")
      ([mkdirL.plan.tail.args.logRecord 0].map LogRecord.hdr) =
        Formats.lit "sizeof(enum):4\ntrace_file=log\n" ++
          Formats.lit "rec_id=0, rec_flags=0, perm_flags=0, result=0, rec_size=34, path_len=2, " ++
          Formats.lit "rec_type=1024, aux_len=0, syscall=mkdir, record_err=0, \n" := by
    decide +kernel
  rw [htext]

end Session

end Trfs
