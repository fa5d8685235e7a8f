import TraceFileSystem.Replay.OpenFiles
import TraceFileSystem.Treplay.Chunks

/-!
# Tracing a replay

The replay tool is started in a directory on which trfs is mounted, so that its own system calls are
traced.

* `MountWorld` is such a mount with the open files of the tool, and `mountCalls` are the system
  calls of the tool on it.  They are calls of the mount like those of any other process, made with
  `HandleState.step`.
* `Retraced` is the invariant: the two mounts have the same log and give the next record the same
  number, and their lower trees are isomorphic.  `Retraced.changeTree` and `Retraced.writeFile` are
  the step lemmas.

`same_log_of_replay` is the result: the log of the replay is the log that is replayed, byte for
byte.  The conditions are read off the records.  A write is repeated if the path of its dentry still
leads to a file when it is made, whether or not this is the file that was written.
-/

namespace Trfs

open Posix ByteStore LabelledSystem

/-! ### The system calls of the tool on a mount -/

/-- `S_IFREG`. -/
def sIFREG : CInt := 0x8000

/-- The mode with which `vfs_create` calls the file system: what the umask leaves of the permission
bits, for a regular file. -/
def createMode (umask mode : CInt) : CInt :=
  (mode &&& ~~~umask &&& 0xFFF) ||| sIFREG

/-- The mode with which `vfs_mkdir` calls the file system. -/
def mkdirMode (umask mode : CInt) : CInt :=
  mode &&& ~~~umask &&& 0x3FF

/-- A mount and the descriptors of the tool: the next one, and the positions of the open files. -/
structure MountWorld where
  mount : HandleState
  nextFd : ℕ
  pos : ℕ → ℕ

namespace MountWorld

/-- A system call on the mount.  Behind one that does not return no other one is made. -/
def call (w : MountWorld) (c : HandleCall) : MountWorld :=
  match w.mount.step c with
  | some s => { w with mount := s }
  | none => w

/-- A change of the tree, and its result.  The lower file system refuses it for the reasons of
`lim`. -/
def request (lim : Limits FileName SymTarget) (w : MountWorld) (r : Request) :
    MountWorld × Option Errno :=
  (w.call (.tree r (lim.refuses r.call w.mount.lower.tree)),
    (w.mount.lower.tree.syscall lim r.call).2)

/-- What a change of the tree returns to the tool. -/
def returns (r : MountWorld × Option Errno) : MountWorld × ℤ :=
  (r.1, if r.2 = none then 0 else -1)

/-- Opening a file that is there. -/
def openAt (w : MountWorld) (l : Place FileName) (flags : OpenFlags) : MountWorld × ℤ :=
  ({ w.call (.openFile w.nextFd l flags) with
     nextFd := w.nextFd + 1
     pos := Function.update w.pos w.nextFd 0 }, w.nextFd)

/-- `write`.  The lower file system writes everything, unless the file is written directly and it
does not take the bytes from where they are. -/
def writeFd (takes : ℕ → ℕ → Bool) (w : MountWorld) (fd : ℤ) (bytes : List UInt8) (count : ℤ) :
    MountWorld × ℤ :=
  if fd < 0 ∨ count < 0 then (w, -1)
  else
    match w.mount.files fd.toNat with
    | none => (w, -1)
    | some f =>
      let buf := bytes.take count.toNat
      let off := w.pos fd.toNat
      let start := if f.flags.append then (w.mount.lower.data f.ino).length else off
      if !f.flags.writable then (w, -1)
      else if f.flags.direct && !takes start buf.length then
        (w.call (.write fd.toNat buf off (vfsResult (some .inval)) .working), -1)
      else
        ({ w.call (.write fd.toNat buf off (BitVec.ofNat 32 buf.length) .working) with
           pos := Function.update w.pos fd.toNat (start + buf.length) }, buf.length)

end MountWorld

/-- A request of the tool, for which nothing fails above the lower file system. -/
def toolRequest (call : Call FileName SymTarget) (mode : CInt) : Request where
  call := call
  mode := mode
  interpose := 0
  env := .working

/-- The system calls of the tool in a directory on which trfs is mounted.  It may open every
file. -/
def mountCalls (lim : Limits FileName SymTarget) (walk : PathWalk) (umask : CInt)
    (takes : ℕ → ℕ → Bool) : Syscalls MountWorld where
  openCreat path mode w :=
    match walk.follow w.mount.lower.tree path with
    | none => (w, -1)
    | some l =>
      match w.mount.lower.tree.node l.path with
      | some (.file _) => w.openAt l ⟨oCREAT⟩
      | some _ => (w, -1)
      | none =>
        let made := w.request lim (toolRequest (.create l) (createMode umask mode))
        if made.2 = none then made.1.openAt l ⟨oCREAT⟩ else (made.1, -1)
  openFlags path flags w :=
    match walk.follow w.mount.lower.tree path with
    | none => (w, -1)
    | some l =>
      match w.mount.lower.tree.node l.path with
      | some (.file _) => w.openAt l ⟨flags⟩
      | _ => (w, -1)
  write fd bytes count w := w.writeFd takes fd bytes count
  close fd w := w.call (.close fd.toNat)
  mkdir path mode w :=
    match walk.lookup w.mount.lower.tree path with
    | none => (w, -1)
    | some l => MountWorld.returns (w.request lim (toolRequest (.mkdir l) (mkdirMode umask mode)))
  rename old new w :=
    match walk.lookup w.mount.lower.tree old, walk.lookup w.mount.lower.tree new with
    | some l, some k => MountWorld.returns (w.request lim (toolRequest (.rename l k) 0))
    | _, _ => (w, -1)
  link old new w :=
    match walk.lookup w.mount.lower.tree old, walk.lookup w.mount.lower.tree new with
    | some l, some k => MountWorld.returns (w.request lim (toolRequest (.link l k) 0))
    | _, _ => (w, -1)
  symlink target path w :=
    match SymTarget.ofBytes? target, walk.lookup w.mount.lower.tree path with
    | some s, some l => MountWorld.returns (w.request lim (toolRequest (.symlink l s) 0))
    | _, _ => (w, -1)
  remove path w :=
    match walk.lookup w.mount.lower.tree path with
    | none => (w, -1)
    | some l =>
      let unlinked := w.request lim (toolRequest (.unlink l) 0)
      if unlinked.2 = some .isdir then
        MountWorld.returns (unlinked.1.request lim (toolRequest (.rmdir l) 0))
      else MountWorld.returns unlinked

/-! ### The calls that are repeated -/

/-- The mode of a new object is the one with which the tool makes it again. -/
def Request.KeepsMode (umask : CInt) (r : Request) : Prop :=
  match r.call with
  | .create _ => createMode umask r.mode = r.mode
  | .mkdir _ => mkdirMode umask r.mode = r.mode
  | _ => True

instance (umask : CInt) : (r : Request) → Decidable (r.KeepsMode umask)
  | ⟨.create _, _, _, _⟩ => inferInstanceAs (Decidable (_ = _))
  | ⟨.mkdir _, _, _, _⟩ => inferInstanceAs (Decidable (_ = _))
  | ⟨.symlink _ _, _, _, _⟩ => .isTrue trivial
  | ⟨.link _ _, _, _, _⟩ => .isTrue trivial
  | ⟨.unlink _, _, _, _⟩ => .isTrue trivial
  | ⟨.rmdir _, _, _, _⟩ => .isTrue trivial
  | ⟨.rename _ _, _, _, _⟩ => .isTrue trivial

/-- The record of a change of the tree is written again when it is replayed: it is logged, its
result is that of the lower file system, and the umask of the tool leaves its mode alone. -/
structure Request.Repeats (umask : CInt) (cwd : List UInt8) (r : Request) : Prop
    extends r.Logs cwd where
  interpose_eq : r.interpose = 0
  keepsMode : r.KeepsMode umask

/-- The record of a write is written again when it is replayed: it is logged within the format, all
bytes were written, and not directly, and the path of the dentry leads to a file. -/
structure Handle.WriteRepeats (cwd : List UInt8) (f : Handle) (env : TailEnv) (buf : List UInt8)
    (vfs : CInt) (t : Tree) : Prop where
  env : env.Logs
  buf_ne : buf ≠ []
  size_le : headerSize + (render f.dentry.place.path).length + buf.length ≤ 32767
  path_lt : cwd.length + (render f.dentry.place.path).length < pathMax
  complete : vfs = BitVec.ofNat 32 buf.length
  buffered : f.flags.direct = false
  file : ∃ ino, t.node f.dentry.place.path = some (.file ino)

/-- Its record fits the format. -/
theorem Handle.WriteRepeats.fits {cwd : List UInt8} {f : Handle} {env : TailEnv} {buf : List UInt8}
    {vfs : CInt} {t : Tree} (h : f.WriteRepeats cwd env buf vfs t) :
    (f.tracedOp buf vfs).plan.tail.Fits := by
  have hpath : (dentryAt f.dentry.place).path.strlen ≤ 4095 :=
    Nat.le_of_lt_succ (lt_of_le_of_lt (Nat.le_add_left _ _) h.path_lt)
  have hcount : 1 ≤ buf.length := List.length_pos_iff.mpr h.buf_ne
  exact TracedOp.fits_of_withinFormat ⟨hpath, buf, rfl, rfl, hcount, h.size_le⟩

/-- The calls whose records are written again.  The lower file system of the run refuses changes of
the tree for the same reasons as the one below the tool. -/
def HandleCall.Repeats (lim : Limits FileName SymTarget) (umask : CInt) (cwd : List UInt8)
    (s : HandleState) (c : HandleCall) : Prop :=
  match c with
  | .tree r refusal => s.lower.tree.verdict r.call = .passes →
      refusal = lim.refuses r.call s.lower.tree ∧ r.Repeats umask cwd
  | .openFile _ _ _ | .close _ => True
  | .write fd buf _ vfs env => ∀ f, s.files fd = some f → f.flags.writable = true →
      f.WriteRepeats cwd env buf vfs s.lower.tree

/-! ### Two mounts with the same log -/

/-- Two mounts that trace everything have the same log, and the next record gets the same number on
both. -/
structure OpState.Alike (o o' : OpState) : Prop where
  umask : o.sb.umask = -1
  umask' : o'.sb.umask = -1
  log : o'.sb.log = o.sb.log
  counter : o'.kernel.trecordId = o.kernel.trecordId

/-- An operation that is logged completely appends the record with the next number. -/
theorem HandleState.traced_of_logs {s : HandleState} (humask : s.op.sb.umask = -1) {env : TailEnv}
    (henv : env.Logs) {op : TracedOp} (hfails : ¬op.SymlinkFails) (hfits : op.plan.tail.Fits)
    (vol : FileVolume) (files : ℕ → Option Handle) :
    ∃ op', s.traced env op vol files = ⟨vol, files, op', false⟩ ∧ op'.sb.umask = -1 ∧
      op'.kernel.trecordId = s.op.kernel.trecordId + 1 ∧
      op'.sb.log = (op.plan.tail.args.logRecord (s.op.kernel.trecordId + 1)).logAfter s.op.sb.log
        .complete .complete := by
  obtain ⟨hpages, hheader, haux⟩ := henv
  obtain ⟨i, hi⟩ := Option.ne_none_iff_exists'.mp (mt op.inode_eq_none_iff.mp hfails)
  have htraces : traces s.op.sb.umask op.plan.tail.type := by
    rw [humask]
    exact traces_all _
  obtain ⟨page, k, happend, hk⟩ :=
    fillAppend_framed hfits hpages s.op.sb s.op.kernel env.header env.aux
  rw [← Tail.fillArgs_of_traces htraces] at happend
  let sb : SbInfo :=
    { s.op.sb with
      log := ((op.plan.tail.fillArgs s.op.sb.umask).logRecord (s.op.kernel.trecordId + 1)).logAfter
        s.op.sb.log env.header env.aux
      trPage := page }
  have hrun : op.plan.run env s.op = .ok (⟨sb, k, false, s.op.lowerLocks⟩, op.plan.ret) :=
    Plan.run_of_inode hi happend
  refine ⟨⟨sb, k, false, s.op.lowerLocks⟩, by rw [traced, hrun], humask, hk, ?_⟩
  simp only [sb, Tail.fillArgs_of_traces htraces, hheader, haux]

/-- Operations with the same record, on two such mounts, leave two such mounts behind. -/
theorem OpState.Alike.traced {s t : HandleState} (h : s.op.Alike t.op) {env env' : TailEnv}
    (henv : env.Logs) (henv' : env'.Logs) {op op' : TracedOp} (hfails : ¬op.SymlinkFails)
    (hfails' : ¬op'.SymlinkFails) (hfits : op.plan.tail.Fits)
    (hargs : op'.plan.tail.args = op.plan.tail.args) (vol vol' : FileVolume)
    (files files' : ℕ → Option Handle) :
    ∃ o o', s.traced env op vol files = ⟨vol, files, o, false⟩ ∧
      t.traced env' op' vol' files' = ⟨vol', files', o', false⟩ ∧ o.Alike o' := by
  have hfits' : op'.plan.tail.Fits := by
    unfold Tail.Fits
    rw [hargs]
    exact hfits
  obtain ⟨o, hrun, humask, hcounter, hlog⟩ :=
    HandleState.traced_of_logs h.umask henv hfails hfits vol files
  obtain ⟨o', hrun', humask', hcounter', hlog'⟩ :=
    HandleState.traced_of_logs h.umask' henv' hfails' hfits' vol' files'
  refine ⟨o, o', hrun, hrun', humask, humask', ?_, ?_⟩
  · rw [hlog', hlog, hargs, h.counter, h.log]
  · rw [hcounter', hcounter, h.counter]

/-! ### The invariant -/

/-- The run and the replay are level: the mounts have the same log, the lower trees are isomorphic,
and the next descriptors of the tool are free. -/
structure Retraced (s : HandleState) (w : MountWorld) : Prop where
  alike : s.op.Alike w.mount.op
  running : w.mount.stuck = false
  tree : s.lower.tree.Iso w.mount.lower.tree
  free : ∀ fd, w.nextFd ≤ fd → w.mount.files fd = none

variable {lim : Limits FileName SymTarget} {walk : PathWalk} {umask : CInt} {takes : ℕ → ℕ → Bool}
  {cwd : List UInt8}
  {s s' : HandleState} {w : MountWorld} {r : Request}

namespace Retraced

/-- Opening a file changes nothing but descriptors. -/
theorem openAt (h : Retraced s w) (l : Place FileName) (flags : OpenFlags) :
    Retraced s (w.openAt l flags).1 := by
  have hlater (fd : ℕ) (hfd : w.nextFd + 1 ≤ fd) : fd ≠ w.nextFd ∧ w.mount.files fd = none :=
    ⟨(Nat.lt_of_succ_le hfd).ne', h.free fd (Nat.le_of_succ_le hfd)⟩
  simp only [MountWorld.openAt, MountWorld.call, HandleState.step, h.running, h.free _ le_rfl]
  rw [if_neg (by decide)]
  split
  · next t ht =>
    split at ht
    · cases ht
    · next ino _ _ =>
      cases ht
      have htree : (if flags.trunc then w.mount.lower.truncate ino else w.mount.lower).tree =
          w.mount.lower.tree := by
        split <;> rfl
      refine ⟨h.alike, rfl, ?_, ?_⟩
      · simp only [htree]
        exact h.tree
      · intro fd hfd
        simp only [Function.update_of_ne (hlater fd hfd).1]
        exact (hlater fd hfd).2
    · cases ht
      exact ⟨h.alike, h.running, h.tree, fun fd hfd => (hlater fd hfd).2⟩
  · exact ⟨h.alike, h.running, h.tree, fun fd hfd => (hlater fd hfd).2⟩

/-- A file that is there is opened. -/
theorem files_openAt (h : Retraced s w) {l : Place FileName} {ino : ℕ}
    (hino : w.mount.lower.tree.node l.path = some (.file ino)) (flags : OpenFlags) :
    (w.openAt l flags).1.mount.files w.nextFd = some ⟨l.trail, ino, flags⟩ := by
  simp [MountWorld.openAt, MountWorld.call, HandleState.step, h.running, h.free _ le_rfl, hino]

/-- Closing a descriptor does not change anything else. -/
theorem closeIf (h : Retraced s w) (fd : ℤ) :
    Retraced s (closeIf (mountCalls lim walk umask takes) fd w) := by
  unfold Trfs.closeIf
  split
  · have hstep : w.mount.step (.close fd.toNat) =
        some { w.mount with files := Function.update w.mount.files fd.toNat none } := by
      simp [HandleState.step, h.running]
    simp only [mountCalls, MountWorld.call, hstep]
    refine ⟨h.alike, h.running, h.tree, ?_⟩
    intro k hk
    by_cases heq : k = fd.toNat
    · simp [heq]
    · simp only [Function.update_of_ne heq]
      exact h.free k hk
  · exact h

end Retraced

/-! ### Changes of the tree -/

/-- The request the tool makes for the record of a request. -/
def Request.again (umask : CInt) (r : Request) : Request :=
  toolRequest r.call
    (match r.call with
    | .create _ => createMode umask r.mode
    | .mkdir _ => mkdirMode umask r.mode
    | _ => 0)

/-- It has the same record. -/
theorem Request.Repeats.args_again (h : r.Repeats umask cwd) (vfs : CInt) :
    ((r.again umask).tracedOp vfs).plan.tail.args = (r.tracedOp vfs).plan.tail.args := by
  obtain ⟨call, mode, interpose, env⟩ := r
  obtain rfl : interpose = 0 := h.interpose_eq
  have hmode := h.keepsMode
  cases call with
  | create l =>
    have hcreate : createMode umask mode = mode := hmode
    simp only [Request.again, toolRequest, Request.tracedOp, hcreate]
  | mkdir l =>
    have hmkdir : mkdirMode umask mode = mode := hmode
    simp only [Request.again, toolRequest, Request.tracedOp, hmkdir]
  | _ => rfl

/-- It finds its superblock where the request has found one. -/
theorem Request.not_symlinkFails_again {vfs : CInt} (h : ¬(r.tracedOp vfs).SymlinkFails) :
    ¬((r.again umask).tracedOp vfs).SymlinkFails := by
  obtain ⟨call, mode, interpose, env⟩ := r
  cases call with
  | symlink l target =>
    intro hfails
    rcases hfails with hvfs | hinterpose
    · exact h (.inl hvfs)
    · exact hinterpose rfl
  | _ => exact id

/-- What a change of the tree does on a mount whose lower file system refuses it for the reasons of
`lim`. -/
theorem HandleState.exists_changeTree (lim : Limits FileName SymTarget) (s : HandleState)
    (r : Request) :
    ∃ vol files, s.changeTree r (lim.refuses r.call s.lower.tree) =
        s.traced r.env (r.tracedOp (vfsResult (s.lower.tree.perform lim r.call).2)) vol files ∧
      vol.tree = (s.lower.tree.perform lim r.call).1 ∧
      ∀ fd, s.files fd = none → files fd = none := by
  unfold changeTree Namespace.perform
  cases lim.refuses r.call s.lower.tree with
  | some e => exact ⟨_, _, rfl, rfl, fun fd hfd => by simp [hfd]⟩
  | none =>
    refine ⟨_, _, rfl, rfl, fun fd hfd => ?_⟩
    dsimp only
    split
    · simp only [hfd, Option.map_none]
    · exact hfd

/-- The tree that it leaves behind. -/
theorem HandleState.tree_changeTree (lim : Limits FileName SymTarget) (s : HandleState)
    (r : Request) : (s.changeTree r (lim.refuses r.call s.lower.tree)).lower.tree =
      (s.lower.tree.perform lim r.call).1 := by
  obtain ⟨vol, files, hchange, htree, -⟩ := exists_changeTree lim s r
  rw [hchange, ← htree, traced]
  split <;> rfl

/-- A request that passes changes the tree. -/
theorem MountWorld.request_of_passes (hrunning : w.mount.stuck = false)
    (hv : w.mount.lower.tree.verdict r.call = .passes) :
    (w.request lim r).1 =
      { w with mount := w.mount.changeTree r (lim.refuses r.call w.mount.lower.tree) } := by
  simp [request, call, HandleState.step, hrunning, hv]

/-- A request that does not pass changes nothing. -/
theorem MountWorld.request_of_not_passes (hv : w.mount.lower.tree.verdict r.call ≠ .passes) :
    (w.request lim r).1 = w := by
  cases hstuck : w.mount.stuck with
  | true => simp [request, call, HandleState.step, hstuck]
  | false => simp [request, call, HandleState.step, hstuck, hv]

namespace Retraced

/-- The tool makes a request again that has passed the VFS. -/
theorem request (h : Retraced s w) (hr : r.Repeats umask cwd)
    (hv : s.lower.tree.verdict r.call = .passes)
    (hfails : ¬(r.tracedOp (vfsResult (s.lower.tree.perform lim r.call).2)).SymlinkFails) :
    Retraced (s.changeTree r (lim.refuses r.call s.lower.tree))
      (w.request lim (r.again umask)).1 := by
  have hv' : w.mount.lower.tree.verdict (r.again umask).call = .passes :=
    (h.tree.verdict _).symm.trans hv
  obtain ⟨hiso, hresult⟩ : (s.lower.tree.perform lim r.call).1.Iso
      (w.mount.lower.tree.perform lim r.call).1 ∧ _ = _ := h.tree.perform hv
  obtain ⟨vol, files, hchange, htree, -⟩ := HandleState.exists_changeTree lim s r
  obtain ⟨vol', files', hchange', htree', hfree⟩ :=
    HandleState.exists_changeTree lim w.mount (r.again umask)
  have hsame : (w.mount.lower.tree.perform lim (r.again umask).call).2 =
      (s.lower.tree.perform lim r.call).2 := hresult.symm
  rw [hsame] at hchange'
  have hworking : (r.again umask).env.Logs := ⟨⟨rfl, rfl⟩, rfl, rfl⟩
  obtain ⟨o, o', hrun, hrun', halike⟩ := h.alike.traced hr.env hworking hfails
    (Request.not_symlinkFails_again hfails) (hr.fits _) (hr.args_again _) vol vol' files files'
  rw [MountWorld.request_of_passes h.running hv', hchange, hchange', hrun, hrun']
  refine ⟨halike, rfl, ?_, fun fd hfd => hfree fd (h.free fd hfd)⟩
  simp only [htree, htree']
  exact hiso

/-- **The record of a change of the tree** is replayed by making the request again. -/
theorem replayWorld_request (hwalk : walk.Plain cwd) (h : Retraced s w) (hr : r.Repeats umask cwd)
    (hv : s.lower.tree.verdict r.call = .passes) (vfs : CInt)
    (h' : Retraced s' (w.request lim (r.again umask)).1) :
    Retraced s' ((r.tracedOp vfs).plan.tail.args.replayWorld (mountCalls lim walk umask takes) cwd
      w) := by
  have hv' : w.mount.lower.tree.verdict r.call = .passes := (h.tree.verdict _).symm.trans hv
  have hlookup (l : Place FileName) (hl : l ∈ r.places)
      (hdir : w.mount.lower.tree.node l.dir = some .dir) :
      walk.lookup w.mount.lower.tree (cwd ++ render l.path) = some l :=
    hwalk.lookup _ l hdir (hr.paths l hl)
  have hpaths := hr.paths
  obtain ⟨call, mode, interpose, env⟩ := r
  cases call with
  | create l =>
    have hl := Namespace.vacant_of_verdictNew hv'
    have hfollow := hwalk.follow _ l hl.2 (hpaths l (by simp [Request.places])) (by simp [hl.1])
    rw [Request.tracedOp, replayWorld_ofCreate rfl]
    apply closeIf
    simp only [mountCalls, hfollow, hl.1]
    split
    · exact h'.openAt _ _
    · exact h'
  | mkdir l =>
    have hl := Namespace.vacant_of_verdictNew hv'
    change Retraced s' ((mountCalls lim walk umask takes).mkdir (cwd ++ render l.path) mode w).1
    simp only [mountCalls, hlookup l (by simp [Request.places]) hl.2]
    exact h'
  | symlink l target =>
    have hl := Namespace.vacant_of_verdictNew hv'
    change Retraced s' ((mountCalls lim walk umask takes).symlink target.str.bytes
      (cwd ++ render l.path) w).1
    simp only [mountCalls, hlookup l (by simp [Request.places]) hl.2, SymTarget.ofBytes?_bytes]
    exact h'
  | link l k =>
    obtain ⟨⟨n, hn, -⟩, hk⟩ := Namespace.of_verdict_link hv'
    have hnode : w.mount.lower.tree.node l.path ≠ none := by simp [hn]
    change Retraced s' ((mountCalls lim walk umask takes).link (cwd ++ render l.path)
      (cwd ++ render k.path) w).1
    simp only [mountCalls, hlookup l (by simp [Request.places]) (node_dir_of_node hnode),
      hlookup k (by simp [Request.places]) hk.2]
    exact h'
  | unlink l =>
    have hnode := (Namespace.of_verdict_unlink hv').1
    change Retraced s' ((mountCalls lim walk umask takes).remove (cwd ++ render l.path) w).1
    simp only [mountCalls, hlookup l (by simp [Request.places]) (node_dir_of_node hnode)]
    split
    · next hisdir =>
      -- a file system that calls a file a directory has not changed anything
      have hself : (w.mount.lower.tree.perform lim (.unlink l)).1 = w.mount.lower.tree := by
        simp only [MountWorld.request, toolRequest, Namespace.syscall_of_passes hv'] at hisdir
        exact Namespace.perform_eq_self hisdir
      have htree : (w.request lim (toolRequest (.unlink l) 0)).1.mount.lower.tree =
          w.mount.lower.tree := by
        have hpasses : w.mount.lower.tree.verdict (toolRequest (.unlink l) 0).call = .passes := hv'
        rw [MountWorld.request_of_passes h.running hpasses, HandleState.tree_changeTree]
        exact hself
      simp only [MountWorld.returns]
      rw [MountWorld.request_of_not_passes]
      · exact h'
      · rw [htree, toolRequest, Namespace.verdict_rmdir_of_unlink hv']
        simp
    · exact h'
  | rmdir l =>
    have hnode : w.mount.lower.tree.node l.path ≠ none := by
      simp [Namespace.of_verdict_rmdir hv']
    have hrefused := Namespace.verdict_unlink_of_rmdir hv'
    have hsame : w.request lim (toolRequest (.unlink l) 0) = (w, some .isdir) := by
      have hworld : (w.request lim (toolRequest (.unlink l) 0)).1 = w :=
        MountWorld.request_of_not_passes (by simp [toolRequest, hrefused])
      refine Prod.ext hworld ?_
      simp only [MountWorld.request, toolRequest, Namespace.syscall, hrefused]
    change Retraced s' ((mountCalls lim walk umask takes).remove (cwd ++ render l.path) w).1
    simp only [mountCalls, hlookup l (by simp [Request.places]) (node_dir_of_node hnode), hsame]
    exact h'
  | rename l k =>
    have hmove := Namespace.of_verdict_rename hv'
    change Retraced s' ((mountCalls lim walk umask takes).rename (cwd ++ render l.path)
      (cwd ++ render k.path) w).1
    simp only [mountCalls, hlookup l (by simp [Request.places]) (node_dir_of_node hmove.1),
      hlookup k (by simp [Request.places]) hmove.2.2.2]
    exact h'

/-! ### Writes -/

/-- The tool writes the same bytes through a file with the same path and the same flags. -/
theorem writeFd (h : Retraced s w) {f f' : Handle} (hwritable : f.flags.writable = true)
    {env : TailEnv} {buf : List UInt8} {vfs : CInt}
    (hf : f.WriteRepeats cwd env buf vfs s.lower.tree) (off : ℕ) {fd : ℕ}
    (hfd : w.mount.files fd = some f') (hplace : f'.dentry.place = f.dentry.place)
    (hflags : f'.flags.fFlags = f.flags.fFlags) :
    Retraced (s.writeFile env f buf off vfs) (w.writeFd takes fd buf buf.length).1 := by
  have hop : f'.tracedOp buf vfs = f.tracedOp buf vfs := by
    rw [Handle.tracedOp, Handle.tracedOp, hplace, hflags]
  have hwritable' : f'.flags.writable = true := by
    rw [← hwritable, ← OpenFlags.flagsWritable_fFlags, hflags, OpenFlags.flagsWritable_fFlags]
  have hbuffered : f'.flags.direct = false := by
    rw [← hf.buffered, ← OpenFlags.flagsHave_fFlags_oDIRECT, hflags,
      OpenFlags.flagsHave_fFlags_oDIRECT]
  have hnonneg : ¬((fd : ℤ) < 0 ∨ (buf.length : ℤ) < 0) := by omega
  have hfails : ¬(f.tracedOp buf vfs).SymlinkFails := id
  have hworking : TailEnv.working.Logs := ⟨⟨rfl, rfl⟩, rfl, rfl⟩
  have htree (v : FileVolume) (i start : ℕ) :
      (if 0 < vfs.toInt then v.write i start (buf.take vfs.toInt.toNat) else v).tree = v.tree := by
    split <;> rfl
  have hstep : w.mount.step (.write fd buf (w.pos fd) vfs .working) =
      some (w.mount.writeFile .working f' buf (w.pos fd) vfs) := by
    simp [HandleState.step, h.running, hfd]
  simp only [MountWorld.writeFd, hnonneg, if_false, Int.toNat_natCast, hfd, hwritable', hbuffered,
    Bool.not_true, Bool.false_and, Bool.false_eq_true, List.take_length, ← hf.complete,
    MountWorld.call, hstep]
  rw [HandleState.writeFile, if_pos hwritable, HandleState.writeFile, if_pos hwritable', hop]
  obtain ⟨o, o', hrun, hrun', halike⟩ :=
    h.alike.traced hf.env hworking hfails hfails hf.fits rfl _ _ s.files w.mount.files
  rw [hrun, hrun']
  refine ⟨halike, rfl, ?_, h.free⟩
  rw [htree, htree]
  exact h.tree

/-- **The record of a write** is replayed by opening the file that the path leads to and writing the
same bytes with the same flags. -/
theorem writeFile (hwalk : walk.Plain cwd) (h : Retraced s w) {f : Handle}
    (hwritable : f.flags.writable = true) {env : TailEnv} {buf : List UInt8} {vfs : CInt}
    (hf : f.WriteRepeats cwd env buf vfs s.lower.tree) (off : ℕ) :
    Retraced (s.writeFile env f buf off vfs)
      ((f.tracedOp buf vfs).plan.tail.args.replayWorld (mountCalls lim walk umask takes) cwd
        w) := by
  obtain ⟨ino, hino⟩ := hf.file
  have hkind : w.mount.lower.tree.kind f.dentry.place.path = some .file := by
    rw [← h.tree.kind, Namespace.kind, hino]
    rfl
  obtain ⟨i, hi⟩ := Volume.exists_file_of_kind hkind
  have hfollow := hwalk.follow w.mount.lower.tree f.dentry.place
    (node_dir_of_node (by simp [hi])) hf.path_lt (by simp [hi])
  have hlen : buf.length < 65536 := by
    have hsize := hf.size_le
    omega
  have hopened : (mountCalls lim walk umask takes).openFlags
      (cwd ++ render f.dentry.place.path) f.flags.fFlags w =
        w.openAt f.dentry.place ⟨f.flags.fFlags⟩ := by
    simp only [mountCalls, hfollow, hi]
  rw [Handle.tracedOp, replayWorld_ofWrite hopened hlen vfs]
  apply closeIf
  have hfd := h.files_openAt hi ⟨f.flags.fFlags⟩
  exact (h.openAt f.dentry.place ⟨f.flags.fFlags⟩).writeFd hwritable hf off hfd
    (Trail.place_trail _) f.flags.fFlags_fFlags

end Retraced

/-! ### Whole runs -/

/-- The log holds records, and replaying them has left a mount behind that is level with the run. -/
def HandleState.Retraces (lim : Limits FileName SymTarget) (walk : PathWalk) (umask : CInt)
    (takes : ℕ → ℕ → Bool) (cwd : List UInt8) (w₀ : MountWorld) (s : HandleState) : Prop :=
  ∃ ps, s.op.sb.log.Records ps ∧
    Retraced s (replayWorlds (mountCalls lim walk umask takes) cwd ps w₀)

namespace HandleState.Retraces

variable {w₀ : MountWorld}

/-- One more record is logged and replayed. -/
theorem append (h : s.Retraces lim walk umask takes cwd w₀) {env : TailEnv} (henv : env.Logs)
    {op : TracedOp} (hfails : ¬op.SymlinkFails) (hfits : op.plan.tail.Fits) {vol : FileVolume}
    {files : ℕ → Option Handle}
    (hretraced : ∀ w, Retraced s w → Retraced (s.traced env op vol files)
      (op.plan.tail.args.replayWorld (mountCalls lim walk umask takes) cwd w)) :
    (s.traced env op vol files).Retraces lim walk umask takes cwd w₀ := by
  obtain ⟨ps, hrecords, hlevel⟩ := h
  obtain ⟨op', hrun, -, -, hlog⟩ :=
    traced_of_logs hlevel.alike.umask henv hfails hfits vol files
  refine ⟨ps ++ [(op.plan.tail.args, s.op.kernel.trecordId + 1)], ?_, ?_⟩
  · rw [hrun, hlog]
    exact hrecords.append hfits _
  · rw [replayWorlds_concat]
    exact hretraced _ hlevel

/-- A change of the tree that passes the VFS. -/
theorem changeTree (hwalk : walk.Plain cwd) (h : s.Retraces lim walk umask takes cwd w₀)
    (hr : r.Repeats umask cwd) (hv : s.lower.tree.verdict r.call = .passes) :
    (s.changeTree r (lim.refuses r.call s.lower.tree)).Retraces lim walk umask takes cwd w₀ := by
  obtain ⟨vol, files, hchange, htree, -⟩ := exists_changeTree lim s r
  by_cases hfails : (r.tracedOp (vfsResult (s.lower.tree.perform lim r.call).2)).SymlinkFails
  · -- a `symlink` that is refused faults in its tail, and nothing has changed
    have hrun : (r.tracedOp (vfsResult (s.lower.tree.perform lim r.call).2)).plan.run r.env s.op =
        .error .nullDeref :=
      Plan.run_of_inode_eq_none ((TracedOp.inode_eq_none_iff _).mpr hfails)
    have hself : vol.tree = s.lower.tree := by
      rw [htree]
      have hne := hr.ne_zero_of_symlinkFails hfails
      cases hresult : (s.lower.tree.perform lim r.call).2 with
      | none =>
        rw [hresult] at hne
        exact absurd rfl hne
      | some e => exact Namespace.perform_eq_self hresult
    obtain ⟨ps, hrecords, hlevel⟩ := h
    rw [hchange, HandleState.traced, hrun]
    refine ⟨ps, hrecords, hlevel.alike, hlevel.running, ?_, hlevel.free⟩
    rw [hself]
    exact hlevel.tree
  · have hretraced (w : MountWorld) (hw : Retraced s w) :
        Retraced (s.changeTree r (lim.refuses r.call s.lower.tree))
          ((r.tracedOp (vfsResult (s.lower.tree.perform lim r.call).2)).plan.tail.args.replayWorld
            (mountCalls lim walk umask takes) cwd w) :=
      hw.replayWorld_request hwalk hr hv _ (hw.request hr hv hfails)
    rw [hchange] at hretraced ⊢
    exact h.append hr.env hfails (hr.fits _) hretraced

/-- **One system call** keeps the replay level with the run. -/
theorem step (hwalk : walk.Plain cwd) (h : s.Retraces lim walk umask takes cwd w₀) {c : HandleCall}
    (hc : c.Repeats lim umask cwd s) (hstep : s.step c = some s') :
    s'.Retraces lim walk umask takes cwd w₀ := by
  unfold HandleState.step at hstep
  split at hstep
  · cases hstep
  · cases c with
    | tree r refusal =>
      simp only at hstep
      split at hstep
      · next hv =>
        cases hstep
        obtain ⟨rfl, hr⟩ := hc hv
        exact h.changeTree hwalk hr hv
      · cases hstep
        exact h
    | openFile fd l flags =>
      simp only at hstep
      split at hstep
      · cases hstep
      · next ino _ _ =>
        cases hstep
        have htree : (if flags.trunc then s.lower.truncate ino else s.lower).tree =
            s.lower.tree := by
          split <;> rfl
        obtain ⟨ps, hrecords, hlevel⟩ := h
        refine ⟨ps, hrecords, hlevel.alike, hlevel.running, ?_, hlevel.free⟩
        rw [htree]
        exact hlevel.tree
      · cases hstep
        exact h
    | close fd =>
      cases hstep
      obtain ⟨ps, hrecords, hlevel⟩ := h
      exact ⟨ps, hrecords, hlevel.alike, hlevel.running, hlevel.tree, hlevel.free⟩
    | write fd buf off vfs env =>
      simp only at hstep
      split at hstep
      · next f hfile =>
        cases hstep
        by_cases hwritable : f.flags.writable = true
        · have hf := hc f hfile hwritable
          have hretraced (w : MountWorld) (hw : Retraced s w) :
              Retraced (s.writeFile env f buf off vfs)
                ((f.tracedOp buf vfs).plan.tail.args.replayWorld (mountCalls lim walk umask takes)
                  cwd w) :=
            hw.writeFile hwalk hwritable hf off
          rw [HandleState.writeFile, if_pos hwritable] at hretraced ⊢
          exact h.append hf.env id hf.fits hretraced
        · rw [HandleState.writeFile, if_neg hwritable]
          exact h
      · cases hstep
        exact h

end HandleState.Retraces

/-- A new mount on which the tool has been started.  Its descriptors up to 3 are the standard
streams and the log it reads. -/
def MountWorld.mounted (lower : FileVolume) (k : Kernel) (trPage : List UInt8) : MountWorld where
  mount := .mounted lower k trPage
  nextFd := 4
  pos _ := 0

/-- The tool, started without options on a log in a directory on which trfs has just been mounted,
after a number of steps. -/
def MountWorld.toolAt (lim : Limits FileName SymTarget) (walk : PathWalk) (umask : CInt)
    (takes : ℕ → ℕ → Bool) (cwd log : List UInt8) (m : Mem) (w : MountWorld) (n : ℕ) :
    ReplayState MountWorld :=
  (replayStep ⟨mountCalls lim walk umask takes, ⟨false, false⟩, cwd, log⟩)^[n]
    (replayStart ⟨mountCalls lim walk umask takes, ⟨false, false⟩, cwd, log⟩ m w)

/-- **Tracing a replay gives the trace back.**  Take a run of calls on a new mount, all of whose
records are repeated, and start the replay tool on its log in a directory on which trfs has been
mounted anew, over a tree that is isomorphic to the one of the run.  Then the log consists of
well-formed records, and if it is small enough and its chunks tear none of them, the tool comes to
its end and leaves the same log behind on its own mount, byte for byte, over a lower tree that is
isomorphic to the one the run has left behind. -/
theorem same_log_of_replay (hwalk : walk.Plain cwd) {vol vol' : FileVolume}
    (hiso : vol.tree.Iso vol'.tree) {k k' : Kernel} (hcounter : k'.trecordId = k.trecordId)
    {trPage trPage' : List UInt8} {cs : List HandleCall}
    (hrun : run HandleState.step (.mounted vol k trPage) cs = some s)
    (hcs : RunAllowed HandleState.step (HandleCall.Repeats lim umask cwd) (.mounted vol k trPage)
      cs) :
    ∃ recs : List LogRecord, s.op.sb.log.data = frames recs ∧ (∀ r ∈ recs, r.WellFormed) ∧
      (((frames recs).length : ℤ) ≤ intMax → ChunkAligned recs → ∀ m, ∃ n,
        let tool := MountWorld.toolAt lim walk umask takes cwd s.op.sb.log.data m
          (.mounted vol' k' trPage') n
        tool.pc = .out ∧ tool.locals.world.mount.stuck = false ∧
          tool.locals.world.mount.op.sb.log = s.op.sb.log ∧
          s.lower.tree.Iso tool.locals.world.mount.lower.tree) := by
  have hstart : (HandleState.mounted vol k trPage).Retraces lim walk umask takes cwd
      (.mounted vol' k' trPage') :=
    ⟨[], .nil, ⟨rfl, rfl, rfl, hcounter⟩, rfl, hiso, fun _ _ => rfl⟩
  obtain ⟨ps, hrecords, hlevel⟩ :=
    run_invariant (fun _ _ _ h hc hstep => h.step hwalk hc hstep) hstart hcs hrun
  have hdata : s.op.sb.log.data = frames (ps.map fun p => p.1.logRecord p.2) := by
    rw [hrecords.eq]
    rfl
  refine ⟨_, hdata, hrecords.wellFormed, fun hmax hal m => ?_⟩
  let env : ReplayEnv MountWorld :=
    ⟨mountCalls lim walk umask takes, ⟨false, false⟩, cwd, s.op.sb.log.data⟩
  obtain ⟨n, hout, -, hlocals, -⟩ := aligned_replays (show env.log = _ from hdata) rfl
    hrecords.wellFormed hmax hal m (.mounted vol' k' trPage')
  have hworld :
      (MountWorld.toolAt lim walk umask takes cwd s.op.sb.log.data m (.mounted vol' k' trPage')
          n).locals.world =
        replayWorlds (mountCalls lim walk umask takes) cwd ps (.mounted vol' k' trPage') := by
    rw [MountWorld.toolAt, hlocals, world_replayAll rfl hrecords.framed]
  refine ⟨n, hout, ?_⟩
  rw [hworld]
  exact ⟨hlevel.running, hlevel.alike.log, hlevel.tree⟩

/-! ### A file that is renamed while it is open -/

/-- A file `/d` with the permissions `rw-r--r--` is created and opened, it is renamed to `/e`, and a
byte is written behind its end; then somebody tries to remove a directory that is not empty. -/
def repeatedCalls : List HandleCall :=
  [.tree ⟨.create ⟨[], nameD⟩, 0x81A4, 0, .working⟩ none,
    .openFile 3 ⟨[], nameD⟩ ⟨oWRONLY⟩,
    .tree (.plain (.rename ⟨[], nameD⟩ ⟨[], nameE⟩)) none,
    .write 3 [120] 5 1 .working,
    .tree (.plain (.mkdir ⟨[], nameD⟩)) none,
    .tree (.plain (.mkdir ⟨[nameD], nameD⟩)) none,
    .tree (.plain (.rmdir ⟨[], nameD⟩)) none]

/-- Requests with short paths are repeated if the umask leaves their modes alone. -/
theorem Request.repeats_of_working {call : Call FileName SymTarget} {mode : CInt}
    (hpaths : ∀ l ∈ (Request.plain call).places,
      cwd.length + (render l.path).length < pathMax)
    (hmode : (⟨call, mode, 0, .working⟩ : Request).KeepsMode umask) :
    (⟨call, mode, 0, .working⟩ : Request).Repeats umask cwd where
  env := ⟨⟨rfl, rfl⟩, rfl, rfl⟩
  paths := hpaths
  interposed _ _ _ := rfl
  interpose_eq := rfl
  keepsMode := hmode

/-- All of them are repeated by a tool with the umask `022`. -/
theorem repeats_repeatedCalls :
    RunAllowed HandleState.step (HandleCall.Repeats (.unlimited _ _) 0x12 replayDir)
      (.mounted emptyVolume ⟨-1, [], []⟩ []) repeatedCalls := by
  have hwrite : (run HandleState.step (.mounted emptyVolume ⟨-1, [], []⟩ [])
      (repeatedCalls.take 3)).map (fun s => (s.files 3, s.lower.tree.node [nameE])) =
      some (some handleRenamed, some (.file 0)) := by
    decide +kernel
  refine runAllowed_of_take ?_
  intro n c hc s hrun
  match n, hc with
  | 0, rfl => exact fun _ => ⟨rfl, Request.repeats_of_working (by decide) (by decide)⟩
  | 1, rfl => trivial
  | 2, rfl => exact fun _ => ⟨rfl, Request.repeats_of_working (by decide) trivial⟩
  | 3, rfl =>
    rw [hrun, Option.map_some, Option.some_inj] at hwrite
    obtain ⟨hfile, hnode⟩ := Prod.mk.injEq _ _ _ _ ▸ hwrite
    intro f hf _
    cases hfile.symm.trans hf
    exact ⟨⟨⟨rfl, rfl⟩, rfl, rfl⟩, by simp, by decide, by decide, rfl, rfl, 0, hnode⟩
  | 4, rfl => exact fun _ => ⟨rfl, Request.repeats_of_working (by decide) (by decide)⟩
  | 5, rfl => exact fun _ => ⟨rfl, Request.repeats_of_working (by decide) (by decide)⟩
  | 6, rfl => exact fun _ => ⟨rfl, Request.repeats_of_working (by decide) trivial⟩

/-- The six records of the run, among them one of a `rmdir` that has failed, are written again. -/
theorem same_log_of_replay_renamed :
    ∃ s, run HandleState.step (.mounted emptyVolume ⟨-1, [], []⟩ []) repeatedCalls = some s ∧
      s.op.sb.log.data.length = 209 ∧
      ∃ n, (MountWorld.toolAt (.unlimited _ _) (.plain replayDir) 0x12 (fun _ _ => false)
        replayDir s.op.sb.log.data (fun _ => 0) (.mounted emptyVolume ⟨-1, [], []⟩ [])
          n).locals.world.mount.op.sb.log = s.op.sb.log := by
  have hlength : (run HandleState.step (.mounted emptyVolume ⟨-1, [], []⟩ []) repeatedCalls).map
      (fun s => s.op.sb.log.data.length) = some 209 := by
    decide +kernel
  obtain ⟨s, hrun, hs⟩ := Option.map_eq_some_iff.mp hlength
  obtain ⟨recs, hdata, -, htool⟩ := same_log_of_replay (PathWalk.plain_plain replayDir)
    (show emptyVolume.tree.Iso emptyVolume.tree from .refl _)
    (show (⟨-1, [], []⟩ : Kernel).trecordId = (⟨-1, [], []⟩ : Kernel).trecordId from rfl) hrun
    repeats_repeatedCalls
  have hlen : (frames recs).length = 209 := by
    rw [← hdata, hs]
  obtain ⟨n, -, -, hlog, -⟩ := htool (by rw [hlen]; decide)
    (chunkAligned_of_le (by rw [hlen]; decide)) fun _ => 0
  exact ⟨s, hrun, hs, n, hlog⟩

end Trfs
