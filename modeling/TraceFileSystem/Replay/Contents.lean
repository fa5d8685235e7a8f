import TraceFileSystem.Lib.OpenFlags
import TraceFileSystem.Lib.Volume
import TraceFileSystem.Replay.Tree

/-!
# Replaying writes

A sequential run of `create`, `open`, `lseek`, `write` and `pwrite` on a mount, through any number
of open files, and the replay of its log in another directory by a process with a umask and
permissions of its own.

* `FileState.step` is one system call on the mount.  A write goes to the end of the file when it was
  opened with `O_APPEND`, and otherwise to the offset of the call; `trfs_write` logs the path, the
  flags and the data, but not the offset.
* `fileCalls` are the system calls of the replay tool.  It opens a file anew for every record, so it
  writes to the end of the file with `O_APPEND` and to its start without, and it may be refused what
  the traced process was allowed: a file that it has created without permission to write cannot be
  opened again, and with `O_DIRECT` a write from the middle of its buffer may fail.

Therefore the replay gives every file its contents as long as all writes without `O_APPEND` are made
at offset zero, no `open` truncates a file, and the tool may do what it repeats (`replay_same`).
Two writes in a row through one open file are enough to lose a byte (`not_replay_same_twoWrites`).
-/

namespace Trfs

open Posix ByteStore LabelledSystem

/-- The volumes below a mount point or a current directory. -/
abbrev FileVolume := Volume FileName SymTarget

/-! ### The system calls of the replay tool -/

/-- The process that runs the replay tool, and what the kernel and the file system allow it. -/
structure Process where
  uid : ℕ
  gid : ℕ
  umask : CInt
  /-- Why a change of the tree is refused, as for want of permission in a directory. -/
  lim : Limits FileName SymTarget
  /-- `may_open`: it may open a file with such permissions with such flags. -/
  mayOpen : Permissions → CInt → Bool
  /-- With `O_DIRECT`, so many bytes are written at a position, from where the tool has them. -/
  takesDirect : ℕ → ℕ → Bool

/-- A process that is refused nothing for want of permission. -/
def Process.superuser (takesDirect : ℕ → ℕ → Bool) : Process where
  uid := 0
  gid := 0
  umask := 0
  lim := .unlimited _ _
  mayOpen _ _ := true
  takesDirect := takesDirect

/-- The permissions of a file that the process has created. -/
def Process.created (proc : Process) (mode : CInt) : Permissions where
  uid := proc.uid
  gid := proc.gid
  mode := mode &&& ~~~proc.umask &&& 0xFFF

/-- A file the tool has opened. -/
structure Descriptor where
  ino : ℕ
  flags : CInt
  pos : ℕ

/-- A volume, the permissions of its files, and the descriptors of the tool. -/
structure FileWorld where
  vol : FileVolume
  perms : ℕ → Permissions
  fds : ℕ → Option Descriptor
  nextFd : ℕ

/-- Opening a file. -/
def FileWorld.openIno (w : FileWorld) (ino : ℕ) (flags : CInt) : FileWorld × ℤ :=
  ({ w with
     vol := if flagsHave flags oTRUNC then w.vol.truncate ino else w.vol
     fds := Function.update w.fds w.nextFd (some ⟨ino, flags, 0⟩)
     nextFd := w.nextFd + 1 }, w.nextFd)

/-- Opening a file that was there before. -/
def FileWorld.openOld (proc : Process) (w : FileWorld) (ino : ℕ) (flags : CInt) : FileWorld × ℤ :=
  if proc.mayOpen (w.perms ino) flags then w.openIno ino flags else (w, -1)

/-- A write that is refused: the file is not open for writing, or it is written directly and the
file system does not take the bytes from where they are. -/
def Descriptor.refuses (proc : Process) (d : Descriptor) (off count : ℕ) : Bool :=
  !flagsWritable d.flags || flagsHave d.flags oDIRECT && !proc.takesDirect off count

/-- `write`.  The position of a file that was opened with `O_APPEND` is its end. -/
def FileWorld.writeFd (proc : Process) (w : FileWorld) (fd : ℤ) (bytes : List UInt8) (count : ℤ) :
    FileWorld × ℤ :=
  if fd < 0 ∨ count < 0 then (w, -1)
  else
    match w.fds fd.toNat with
    | none => (w, -1)
    | some d =>
      let off := if flagsHave d.flags oAPPEND then (w.vol.data d.ino).length else d.pos
      if d.refuses proc off count.toNat then (w, -1)
      else
        ({ w with
            vol := w.vol.write d.ino off (bytes.take count.toNat)
            fds := Function.update w.fds fd.toNat (some { d with pos := off + count.toNat }) },
              count)

/-- A call that changes the tree only. -/
def FileWorld.onTree (w : FileWorld) (call : Tree → Tree × ℤ) : FileWorld × ℤ :=
  ({ w with vol := { w.vol with tree := (call w.vol.tree).1 } }, (call w.vol.tree).2)

/-- The system calls of the replay tool on the volume below its current directory. -/
def fileCalls (proc : Process) (walk : PathWalk) : Syscalls FileWorld where
  openCreat path mode w :=
    match walk.follow w.vol.tree path with
    | none => (w, -1)
    | some l =>
      match w.vol.tree.node l.path with
      | some (.file ino) => w.openOld proc ino 0
      | some _ => (w, -1)
      | none =>
        if w.vol.tree.verdict (.create l) = .passes ∧
            proc.lim.refuses (.create l) w.vol.tree = none then
          { w with
            vol := w.vol.create l
            perms := Function.update w.perms w.vol.tree.next (proc.created mode) }.openIno
              w.vol.tree.next 0
        else (w, -1)
  openFlags path flags w :=
    match walk.follow w.vol.tree path with
    | none => (w, -1)
    | some l =>
      match w.vol.tree.node l.path with
      | some (.file ino) => w.openOld proc ino flags
      | _ => (w, -1)
  write fd bytes count w := w.writeFd proc fd bytes count
  close fd w := { w with fds := Function.update w.fds fd.toNat none }
  mkdir path mode w := w.onTree ((treeCalls proc.lim walk).mkdir path mode)
  rename old new w := w.onTree ((treeCalls proc.lim walk).rename old new)
  link old new w := w.onTree ((treeCalls proc.lim walk).link old new)
  symlink target path w := w.onTree ((treeCalls proc.lim walk).symlink target path)
  remove path w := w.onTree ((treeCalls proc.lim walk).remove path)

/-! ### A traced run -/

/-- A file that was opened on the mount. -/
structure OpenFile where
  place : Place FileName
  ino : ℕ
  flags : OpenFlags
  pos : ℕ
  deriving DecidableEq

/-- System calls on the mount. -/
inductive FileCall where
  | create (l : Place FileName) (mode interpose : CInt)
  | openFile (fd : ℕ) (l : Place FileName) (flags : OpenFlags)
  | lseek (fd pos : ℕ)
  | write (fd : ℕ) (buf : List UInt8)
  | pwrite (fd : ℕ) (buf : List UInt8) (off : ℕ)

/-- A system call with what the environment of its logging tail decides. -/
structure FileRequest where
  call : FileCall
  env : TailEnv

/-- The lower volume, the modes of the files that were created on the mount, the open files, the
mount, and whether an operation got stuck. -/
structure FileState where
  lower : FileVolume
  modes : ℕ → Option CInt
  files : ℕ → Option OpenFile
  op : OpState
  stuck : Bool

namespace FileState

/-- A new mount over a volume. -/
def mounted (lower : FileVolume) (k : Kernel) (trPage : List UInt8) : FileState where
  lower := lower
  modes _ := none
  files _ := none
  op := ⟨.mounted trPage, k, false, []⟩
  stuck := false

/-- The end of an operation of trfs, after the lower file system has done its part. -/
def traced (s : FileState) (env : TailEnv) (op : TracedOp) (lower : FileVolume)
    (modes : ℕ → Option CInt) (files : ℕ → Option OpenFile) : FileState :=
  match op.plan.run env s.op with
  | .ok (op', _) => ⟨lower, modes, files, op', false⟩
  | .error _ => ⟨lower, modes, s.files, s.op, true⟩

/-- The start of a write: the end of the file with `O_APPEND`, otherwise the given offset. -/
def writeStart (s : FileState) (f : OpenFile) (off : ℕ) : ℕ :=
  if f.flags.append then (s.lower.data f.ino).length else off

/-- A write at an offset, which is ignored with `O_APPEND`.  The lower file system writes
everything. -/
def writeAt (s : FileState) (env : TailEnv) (fd : ℕ) (f : OpenFile) (buf : List UInt8) (off : ℕ)
    (advance : Bool) : FileState :=
  if f.flags.writable then
    let start := s.writeStart f off
    let f' := if advance then { f with pos := start + buf.length } else f
    s.traced env
      (.write ⟨dentryAt f.place, ⟨0⟩⟩ f.flags.fFlags (.user buf) buf.length
        (BitVec.ofNat 32 buf.length))
      (s.lower.write f.ino start buf) s.modes (Function.update s.files fd (some f'))
  else s

/-- One system call of a sequential run.  A file gets a descriptor that is not in use, and after an
operation that does not return there is no next one. -/
def step (s : FileState) (r : FileRequest) : Option FileState :=
  if s.stuck then none
  else
    match r.call with
    | .create l mode interpose =>
      if s.lower.tree.verdict (.create l) = .passes then
        some (s.traced r.env (.create ⟨0⟩ 0 (dentryAt l) mode 0 interpose)
          (s.lower.create l) (Function.update s.modes s.lower.tree.next (some mode)) s.files)
      else some s
    | .openFile fd l flags =>
      match s.files fd, s.lower.tree.node l.path with
      | some _, _ => none
      | none, some (.file ino) =>
        some { s with
          lower := if flags.trunc then s.lower.truncate ino else s.lower
          files := Function.update s.files fd (some ⟨l, ino, flags, 0⟩) }
      | none, _ => some s
    | .lseek fd pos =>
      match s.files fd with
      | some f => some { s with files := Function.update s.files fd (some { f with pos := pos }) }
      | none => some s
    | .write fd buf =>
      match s.files fd with
      | some f => some (s.writeAt r.env fd f buf f.pos true)
      | none => some s
    | .pwrite fd buf off =>
      match s.files fd with
      | some f => some (s.writeAt r.env fd f buf off false)
      | none => some s

end FileState

/-! ### The simulation steps -/

/-- The permissions of the counterpart of a file in the replay: a file that was created on the mount
is created by the tool, and the others had their permissions before. -/
def FileState.replayPerms (proc : Process) (perms : ℕ → Permissions) (s : FileState) (ino : ℕ) :
    Permissions :=
  match s.modes ino with
  | some mode => proc.created mode
  | none => perms ino

/-- A write that the replay repeats: it is logged, its record fits the format and can be replayed,
it goes to the end of the file or to its start, and the tool may open the file and is not refused
the write when it is made directly. -/
structure OpenFile.WriteSound (proc : Process) (perms : ℕ → Permissions) (cwd : List UInt8)
    (s : FileState) (f : OpenFile) (env : TailEnv) (buf : List UInt8) (off : ℕ) : Prop where
  env : env.Logs
  buf_ne : buf ≠ []
  size_le : headerSize + (render f.place.path).length + buf.length ≤ 32767
  path_lt : cwd.length + (render f.place.path).length < pathMax
  offset : f.flags.append = true ∨ off = 0
  mayOpen : proc.mayOpen (s.replayPerms proc perms f.ino) f.flags.fFlags = true
  takesDirect : f.flags.direct = true → proc.takesDirect (s.writeStart f off) buf.length = true

/-- The requests that the replay repeats. -/
def FileRequest.Sound (proc : Process) (perms : ℕ → Permissions) (cwd : List UInt8) (s : FileState)
    (r : FileRequest) : Prop :=
  match r.call with
  | .create l _ _ => s.lower.tree.verdict (.create l) = .passes →
      r.env.Logs ∧ cwd.length + (render l.path).length < pathMax ∧
        proc.lim.refuses (.create l) s.lower.tree = none
  | .openFile _ l flags => flags.trunc = true →
      ∀ ino, s.lower.tree.node l.path = some (.file ino) → s.lower.data ino = []
  | .lseek _ _ => True
  | .write fd buf => ∀ f, s.files fd = some f → f.flags.writable = true →
      f.WriteSound proc perms cwd s r.env buf f.pos
  | .pwrite fd buf off => ∀ f, s.files fd = some f → f.flags.writable = true →
      f.WriteSound proc perms cwd s r.env buf off

variable {proc : Process} {perms : ℕ → Permissions} {walk : PathWalk} {cwd : List UInt8}

/-- Closing a file changes neither the volume nor the permissions. -/
theorem closeIf_fileCalls (fd : ℤ) (w : FileWorld) :
    (closeIf (fileCalls proc walk) fd w).vol = w.vol ∧
      (closeIf (fileCalls proc walk) fd w).perms = w.perms := by
  unfold closeIf
  split <;> exact ⟨rfl, rfl⟩

/-- Replaying a created file creates it. -/
theorem replayWorld_create (hwalk : walk.Plain cwd) {w : FileWorld} {l : Place FileName}
    (hv : w.vol.tree.verdict (.create l) = .passes)
    (hlim : proc.lim.refuses (.create l) w.vol.tree = none)
    (hlen : cwd.length + (render l.path).length < pathMax) (mode interpose : CInt) :
    let w' := (TracedOp.create ⟨0⟩ 0 (dentryAt l) mode 0 interpose).plan.tail.args.replayWorld
      (fileCalls proc walk) cwd w
    w'.vol = w.vol.create l ∧
      w'.perms = Function.update w.perms w.vol.tree.next (proc.created mode) := by
  have hl := Namespace.vacant_of_verdictNew hv
  have hfollow := hwalk.follow _ l hl.2 hlen (by simp [hl.1])
  have hopen : (fileCalls proc walk).openCreat (cwd ++ render l.path) mode w =
      { w with
        vol := w.vol.create l
        perms := Function.update w.perms w.vol.tree.next (proc.created mode) }.openIno
          w.vol.tree.next 0 := by
    simp only [fileCalls, hfollow, hl.1, hv, hlim, and_self, if_true]
  rw [replayWorld_ofCreate hopen 0 interpose]
  exact closeIf_fileCalls _ _

/-- Replaying a write opens the file anew: it writes to the end with `O_APPEND`, otherwise to the
start, unless a direct write is refused. -/
theorem replayWorld_write (hwalk : walk.Plain cwd) {w : FileWorld} {f : OpenFile} {ino : ℕ}
    (hino : w.vol.tree.node f.place.path = some (.file ino)) (hwritable : f.flags.writable = true)
    (hmay : proc.mayOpen (w.perms ino) f.flags.fFlags = true)
    {buf : List UInt8} (hsize : buf.length ≤ 32767)
    (hlen : cwd.length + (render f.place.path).length < pathMax) (vfs : CInt) :
    let start := if f.flags.append then (w.vol.data ino).length else 0
    let w' := (TracedOp.write ⟨dentryAt f.place, ⟨0⟩⟩ f.flags.fFlags (.user buf) buf.length
      vfs).plan.tail.args.replayWorld (fileCalls proc walk) cwd w
    w'.vol = (if f.flags.direct && !proc.takesDirect start buf.length then w.vol
      else w.vol.write ino start buf) ∧ w'.perms = w.perms := by
  intro start w'
  have hnode : w.vol.tree.node f.place.path ≠ none := by simp [hino]
  have hfollow := hwalk.follow w.vol.tree f.place (node_dir_of_node hnode) hlen (by simp [hino])
  let opened : FileWorld :=
    { w with
      fds := Function.update w.fds w.nextFd (some ⟨ino, f.flags.fFlags, 0⟩)
      nextFd := w.nextFd + 1 }
  have hopen : (fileCalls proc walk).openFlags (cwd ++ render f.place.path) f.flags.fFlags w =
      (opened, (w.nextFd : ℤ)) := by
    simp [fileCalls, hfollow, hino, FileWorld.openOld, hmay, FileWorld.openIno, opened]
  have hwrite : (opened.writeFd proc w.nextFd buf buf.length).1.vol =
      (if f.flags.direct && !proc.takesDirect start buf.length then w.vol
        else w.vol.write ino start buf) ∧
      (opened.writeFd proc w.nextFd buf buf.length).1.perms = w.perms := by
    have hnonneg : ¬((w.nextFd : ℤ) < 0 ∨ (buf.length : ℤ) < 0) := by omega
    simp only [FileWorld.writeFd, hnonneg, if_false, Int.toNat_natCast, opened,
      Function.update_self, Descriptor.refuses, OpenFlags.flagsWritable_fFlags, hwritable,
      OpenFlags.flagsHave_fFlags_oDIRECT, OpenFlags.flagsHave_fFlags_oAPPEND, Bool.not_true,
      Bool.false_or, List.take_length, start]
    split_ifs <;> exact ⟨rfl, rfl⟩
  have hlen : buf.length < 65536 := lt_of_le_of_lt hsize (by decide)
  simp only [w', replayWorld_ofWrite hopen hlen vfs, closeIf_fileCalls]
  exact hwrite

/-! ### Whole runs -/

/-- The replay has given every file its contents, and the permissions that it was created with. -/
structure FileState.Matches (proc : Process) (perms : ℕ → Permissions) (s : FileState)
    (w : FileWorld) : Prop where
  same : s.lower.Same w.vol
  perms_eq : ∀ p i j, s.lower.tree.node p = some (.file i) → w.vol.tree.node p = some (.file j) →
    w.perms j = s.replayPerms proc perms i

/-- Every open file is where it was opened, and replaying the log leads to a volume with the same
contents as the lower one. -/
structure FileState.Mirrored (proc : Process) (perms : ℕ → Permissions) (walk : PathWalk)
    (cwd : List UInt8) (target : FileWorld) (s : FileState) : Prop where
  umask : s.op.sb.umask = -1
  files : ∀ fd f, s.files fd = some f → s.lower.tree.node f.place.path = some (.file f.ino)
  replays : ∃ ps, s.op.sb.log.Records ps ∧
    s.Matches proc perms (replayWorlds (fileCalls proc walk) cwd ps target)

variable {target : FileWorld} {s s' : FileState} {r : FileRequest}

namespace FileState

/-- A table of open files after an update. -/
theorem forall_update {P : OpenFile → Prop} (h : ∀ fd f, s.files fd = some f → P f) {fd : ℕ}
    {f : OpenFile} (hf : P f) :
    ∀ fd' f', Function.update s.files fd (some f) fd' = some f' → P f' := by
  intro fd' f' hf'
  by_cases heq : fd' = fd
  · rw [heq, Function.update_self] at hf'
    cases hf'
    exact hf
  · rw [Function.update_of_ne heq] at hf'
    exact h fd' f' hf'

/-- Open files do not matter to the replay. -/
theorem Matches.congr {w : FileWorld} (h : s.Matches proc perms w) (hlower : s'.lower = s.lower)
    (hmodes : s'.modes = s.modes) : s'.Matches proc perms w := by
  have hperms (ino : ℕ) : s'.replayPerms proc perms ino = s.replayPerms proc perms ino := by
    rw [replayPerms, replayPerms, hmodes]
  refine ⟨by rw [hlower]; exact h.same, ?_⟩
  intro p i j hi hj
  rw [hlower] at hi
  rw [hperms]
  exact h.perms_eq p i j hi hj

/-- An operation that is logged ends with the lower volume and the open files it has prepared. -/
theorem Mirrored.traced (hs : s.Mirrored proc perms walk cwd target) {env : TailEnv}
    (henv : env.Logs) {op : TracedOp} (hfails : ¬op.SymlinkFails) (hfits : op.plan.tail.Fits)
    {lower : FileVolume} {modes : ℕ → Option CInt} {files : ℕ → Option OpenFile}
    (hfiles : ∀ fd f, files fd = some f → lower.tree.node f.place.path = some (.file f.ino))
    (hmatches : ∀ w : FileWorld, s.Matches proc perms w →
      { s with lower, modes }.Matches proc perms
        (op.plan.tail.args.replayWorld (fileCalls proc walk) cwd w)) :
    (s.traced env op lower modes files).Mirrored proc perms walk cwd target := by
  obtain ⟨humask, -, ps, hrecords, hw⟩ := hs
  obtain ⟨op', recId, hrun, hmask, hrecords'⟩ := hrecords.traced humask hfails henv hfits
  have htraced : s.traced env op lower modes files = ⟨lower, modes, files, op', false⟩ := by
    rw [FileState.traced, hrun]
  rw [htraced]
  refine ⟨hmask, hfiles, _, hrecords', ?_⟩
  rw [replayWorlds_concat]
  exact (hmatches _ hw).congr rfl rfl

/-- Creating a file on both sides. -/
theorem Matches.create {w w' : FileWorld} (h : s.Matches proc perms w) {l : Place FileName}
    (hl : s.lower.tree.Vacant l) (mode : CInt) (hvol : w'.vol = w.vol.create l)
    (hperms : w'.perms = Function.update w.perms w.vol.tree.next (proc.created mode)) :
    { s with
      lower := s.lower.create l
      modes := Function.update s.modes s.lower.tree.next (some mode) }.Matches proc perms w' := by
  have hl' := h.same.iso.vacant hl
  refine ⟨by rw [hvol]; exact h.same.create hl, ?_⟩
  intro p i j hi hj
  rw [hvol] at hj
  change (s.lower.tree.add l (.file s.lower.tree.next)).node p = _ at hi
  change (w.vol.tree.add l (.file w.vol.tree.next)).node p = _ at hj
  rw [Namespace.node_add hl (Nat.lt_succ_self _)] at hi
  rw [Namespace.node_add hl' (Nat.lt_succ_self _)] at hj
  rw [hperms]
  by_cases hp : p = l.path
  · rw [if_pos hp] at hi hj
    cases hi
    cases hj
    simp only [replayPerms, Function.update_self]
  · rw [if_neg hp] at hi hj
    have hlt : i < s.lower.tree.next := s.lower.tree.fresh p _ hi
    have hlt' : j < w.vol.tree.next := w.vol.tree.fresh p _ hj
    rw [Function.update_of_ne hlt'.ne, h.perms_eq p i j hi hj]
    simp only [replayPerms, Function.update_of_ne hlt.ne]

/-- Creating a file. -/
theorem Mirrored.create (hwalk : walk.Plain cwd) (hs : s.Mirrored proc perms walk cwd target)
    {l : Place FileName} (hv : s.lower.tree.verdict (.create l) = .passes) {env : TailEnv}
    (henv : env.Logs) (hlen : cwd.length + (render l.path).length < pathMax)
    (hlim : proc.lim.refuses (.create l) s.lower.tree = none) (mode interpose : CInt) :
    (s.traced env (.create ⟨0⟩ 0 (dentryAt l) mode 0 interpose) (s.lower.create l)
      (Function.update s.modes s.lower.tree.next (some mode)) s.files).Mirrored
        proc perms walk cwd target := by
  have hl := Namespace.vacant_of_verdictNew hv
  have hpath : (dentryAt l).path.strlen ≤ 4095 :=
    Nat.le_of_lt_succ (lt_of_le_of_lt (Nat.le_add_left _ _) hlen)
  have hformat : (TracedOp.create ⟨0⟩ 0 (dentryAt l) mode 0 interpose).WithinFormat :=
    ⟨hpath, trivial⟩
  refine hs.traced henv id (TracedOp.fits_of_withinFormat hformat) ?_ ?_
  · intro fd f hf
    have hnode := hs.files fd f hf
    have hne : f.place.path ≠ l.path := by
      intro heq
      rw [heq, hl.1] at hnode
      cases hnode
    change (s.lower.tree.add l (.file s.lower.tree.next)).node f.place.path = _
    rw [Namespace.node_add hl (Nat.lt_succ_self _), if_neg hne, hnode]
  · intro w hw
    have hiso := hw.same.iso
    obtain ⟨hvol, hperms⟩ := replayWorld_create hwalk ((hiso.verdict _).symm.trans hv)
      ((proc.lim.congr _ hiso).symm.trans hlim) hlen mode interpose
    exact hw.create hl mode hvol hperms

/-- Writing to a file on both sides. -/
theorem Matches.write {w w' : FileWorld} (h : s.Matches proc perms w) {p : List FileName}
    {i j : ℕ} (hi : s.lower.tree.node p = some (.file i)) (hj : w.vol.tree.node p = some (.file j))
    {off : ℕ} {buf : List UInt8} (hvol : w'.vol = w.vol.write j off buf)
    (hperms : w'.perms = w.perms) :
    { s with lower := s.lower.write i off buf }.Matches proc perms w' := by
  refine ⟨by rw [hvol]; exact h.same.write hi hj _ _, ?_⟩
  intro q i' j' hi' hj'
  rw [hvol] at hj'
  rw [hperms]
  exact h.perms_eq q i' j' hi' hj'

/-- Writing to a file. -/
theorem Mirrored.writeAt (hwalk : walk.Plain cwd) (hs : s.Mirrored proc perms walk cwd target)
    {fd : ℕ} {f : OpenFile} (hf : s.files fd = some f) {env : TailEnv} {buf : List UInt8} {off : ℕ}
    (hsound : f.flags.writable = true → f.WriteSound proc perms cwd s env buf off)
    (advance : Bool) :
    (s.writeAt env fd f buf off advance).Mirrored proc perms walk cwd target := by
  unfold FileState.writeAt
  split
  · next hwritable =>
    have hw := hsound hwritable
    have hnode := hs.files fd f hf
    have hpath : (dentryAt f.place).path.strlen ≤ 4095 :=
      Nat.le_of_lt_succ (lt_of_le_of_lt (Nat.le_add_left _ _) hw.path_lt)
    have hcount : 1 ≤ buf.length := List.length_pos_iff.mpr hw.buf_ne
    have hformat : (TracedOp.write ⟨dentryAt f.place, ⟨0⟩⟩ f.flags.fFlags (.user buf) buf.length
        (BitVec.ofNat 32 buf.length)).WithinFormat :=
      ⟨hpath, buf, rfl, rfl, hcount, hw.size_le⟩
    refine hs.traced hw.env id (TracedOp.fits_of_withinFormat hformat) ?_ ?_
    · refine forall_update hs.files ?_
      split <;> exact hnode
    · intro w hmatches
      obtain ⟨ino, hino, hdata⟩ := hmatches.same.exists_file hnode
      have hsize : buf.length ≤ 32767 := le_trans (Nat.le_add_left _ _) hw.size_le
      have hmay : proc.mayOpen (w.perms ino) f.flags.fFlags = true := by
        rw [hmatches.perms_eq _ _ _ hnode hino]
        exact hw.mayOpen
      obtain ⟨hvol, hperms⟩ := replayWorld_write hwalk hino hwritable hmay hsize hw.path_lt
        (BitVec.ofNat 32 buf.length)
      have hstart :
          (if f.flags.append then (w.vol.data ino).length else 0) = s.writeStart f off := by
        rw [hdata, writeStart]
        rcases hw.offset with happend | hoff
        · rw [if_pos happend, if_pos happend]
        · rw [hoff]
      rw [hstart] at hvol
      have htaken :
          (f.flags.direct && !proc.takesDirect (s.writeStart f off) buf.length) = false := by
        cases hdirect : f.flags.direct with
        | false => rfl
        | true => rw [hw.takesDirect hdirect]; rfl
      rw [htaken] at hvol
      exact hmatches.write hnode hino hvol hperms
  · exact hs

/-- **One system call** keeps the replay of the log in step with the lower volume. -/
theorem Mirrored.step (hwalk : walk.Plain cwd) (hs : s.Mirrored proc perms walk cwd target)
    (hr : r.Sound proc perms cwd s) (hstep : s.step r = some s') :
    s'.Mirrored proc perms walk cwd target := by
  obtain ⟨call, env⟩ := r
  unfold FileState.step at hstep
  split at hstep
  · cases hstep
  · cases call with
    | create l mode interpose =>
      simp only at hstep
      split at hstep
      · next hv =>
        cases hstep
        obtain ⟨henv, hlen, hlim⟩ := hr hv
        exact hs.create hwalk hv henv hlen hlim mode interpose
      · cases hstep
        exact hs
    | openFile fd l flags =>
      simp only at hstep
      split at hstep
      · cases hstep
      · next ino hfd hino =>
        cases hstep
        have hlower : (if flags.trunc then s.lower.truncate ino else s.lower) = s.lower := by
          split
          · next htrunc => exact Volume.truncate_eq_self (hr htrunc ino hino)
          · rfl
        rw [hlower]
        obtain ⟨ps, hrecords, hw⟩ := hs.replays
        exact ⟨hs.umask, forall_update hs.files hino, ps, hrecords, hw.congr rfl rfl⟩
      · cases hstep
        exact hs
    | lseek fd pos =>
      simp only at hstep
      split at hstep
      · next f hf =>
        cases hstep
        obtain ⟨ps, hrecords, hw⟩ := hs.replays
        exact ⟨hs.umask, forall_update hs.files (hs.files fd f hf), ps, hrecords, hw.congr rfl rfl⟩
      · cases hstep
        exact hs
    | write fd buf =>
      simp only at hstep
      split at hstep
      · next f hf =>
        cases hstep
        exact hs.writeAt hwalk hf (hr f hf) true
      · cases hstep
        exact hs
    | pwrite fd buf off =>
      simp only at hstep
      split at hstep
      · next f hf =>
        cases hstep
        exact hs.writeAt hwalk hf (hr f hf) false
      · cases hstep
        exact hs

end FileState

/-- **The log regenerates the contents.**  Take a run of calls on a new mount over a volume with the
same files, with the same permissions, as the one below the current directory of the replay tool.
If every write without `O_APPEND` is made at offset zero, no `open` truncates a file that is not
empty, everything is logged within the format, and the tool may create the files, open those that
are written with the flags in the log, and write to them directly where these flags say so, then the
tool, given the whole log in one buffer and no flags, comes to the end of the log and leaves every
regular file with the contents it has in the lower volume. -/
theorem replay_same (hwalk : walk.Plain cwd) {lower : FileVolume} (hsame : lower.Same target.vol)
    (hperms : ∀ p i j, lower.tree.node p = some (.file i) →
      target.vol.tree.node p = some (.file j) → target.perms j = perms i)
    {k : Kernel} {trPage : List UInt8} {rs : List FileRequest}
    (hrun : run FileState.step (.mounted lower k trPage) rs = some s)
    (hrs : RunAllowed FileState.step (FileRequest.Sound proc perms cwd)
      (.mounted lower k trPage) rs) (m : Mem) :
    let env : ReplayEnv FileWorld :=
      ⟨fileCalls proc walk, ⟨false, false⟩, cwd, s.op.sb.log.data⟩
    ∃ n, ((replayStep env)^[n] (wholeStart env m target)).innerDone ∧
      s.lower.Same ((replayStep env)^[n] (wholeStart env m target)).locals.world.vol := by
  have hstart : (FileState.mounted lower k trPage).Mirrored proc perms walk cwd target :=
    ⟨rfl, fun fd f hf => (by cases hf), [], .nil, hsame, hperms⟩
  obtain ⟨-, -, ps, hrecords, hw⟩ :=
    run_invariant (fun _ _ _ hs hr hstep => FileState.Mirrored.step hwalk hs hr hstep) hstart hrs
    hrun
  obtain ⟨n, hdone, hworld⟩ := hrecords.exists_innerDone (fileCalls proc walk) cwd target m
  exact ⟨n, hdone, by rw [hworld]; exact hw.same⟩

/-! ### Two writes in a row -/

/-- An empty volume. -/
def emptyVolume : FileVolume where
  tree := .rootOnly _ _
  data _ := []

/-- An empty volume seen by the replay tool. -/
def emptyWorld : FileWorld where
  vol := emptyVolume
  perms _ := ⟨0, 0, 0⟩
  fds _ := none
  nextFd := 3

/-- A user who runs the tool, without special rights and with the umask `022`. -/
def plainUser : Process where
  uid := 1000
  gid := 1000
  umask := 0x12
  lim := .unlimited _ _
  mayOpen p flags := p.allows 1000 [1000] (openMask flags)
  takesDirect _ _ := false

/-- What this user has created with the mode `0644` can be opened for writing again, and with the
mode `0444` it cannot. -/
example : plainUser.mayOpen (plainUser.created 0x81A4) (oWRONLY ||| oAPPEND) = true ∧
    plainUser.mayOpen (plainUser.created 0x8124) (oWRONLY ||| oAPPEND) = false := by
  decide

/-- Flags for writing, at the end or not. -/
def writeFlags (append : Bool) : OpenFlags :=
  ⟨oWRONLY ||| oCREAT ||| if append then oAPPEND else 0⟩

/-- A file `/d` is created and opened for writing, and two bytes are written one after the other. -/
def twoWrites (append : Bool) : List FileRequest :=
  [⟨.create ⟨[], nameD⟩ 0x81A4 0, .working⟩,
    ⟨.openFile 3 ⟨[], nameD⟩ (writeFlags append), .working⟩,
    ⟨.write 3 [97], .working⟩, ⟨.write 3 [98], .working⟩]

/-- The state after the first `n` of these calls. -/
def afterCalls (append : Bool) (n : ℕ) : Option FileState :=
  run FileState.step (.mounted emptyVolume ⟨-1, [], []⟩ []) ((twoWrites append).take n)

/-- The tool, started in an empty directory on the log of a state, after `n` turns of its loop. -/
def replayTurns (s : FileState) (n : ℕ) : ReplayState FileWorld :=
  let env : ReplayEnv FileWorld :=
    ⟨fileCalls plainUser (.plain replayDir), ⟨false, false⟩, replayDir, s.op.sb.log.data⟩
  (replayStep env)^[n] (wholeStart env (fun _ => 0) emptyWorld)

/-- The open file through which the writes are made. -/
def fileD (append : Bool) (pos : ℕ) : OpenFile :=
  ⟨⟨[], nameD⟩, 0, writeFlags append, pos⟩

/-- With `O_APPEND` the writes are replayed. -/
theorem sound_twoWrites : RunAllowed FileState.step
    (FileRequest.Sound plainUser (fun _ => ⟨0, 0, 0⟩) replayDir)
    (.mounted emptyVolume ⟨-1, [], []⟩ []) (twoWrites true) := by
  have hlogs : TailEnv.working.Logs := ⟨⟨rfl, rfl⟩, rfl, rfl⟩
  have hsize : headerSize + (render [nameD]).length + 1 ≤ 32767 := by decide
  have hpath : replayDir.length + (render [nameD]).length < pathMax := by decide
  have hwrite (s : FileState) (hmodes : s.modes 0 = some 0x81A4) (pos : ℕ) (b : UInt8) :
      (fileD true pos).WriteSound plainUser (fun _ => ⟨0, 0, 0⟩) replayDir s .working [b] pos := by
    refine ⟨hlogs, by simp, hsize, hpath, .inl (show (writeFlags true).append = true by decide), ?_,
      fun h => absurd h (show (writeFlags true).direct ≠ true by decide)⟩
    rw [FileState.replayPerms, show s.modes (fileD true pos).ino = _ from hmodes]
    exact (by decide : plainUser.mayOpen (plainUser.created 0x81A4) (writeFlags true).fFlags = true)
  have hopened : (afterCalls true 2).map (fun s => (s.files 3, s.modes 0)) =
      some (some (fileD true 0), some 0x81A4) := by
    decide +kernel
  have hwritten : (afterCalls true 3).map (fun s => (s.files 3, s.modes 0)) =
      some (some (fileD true 1), some 0x81A4) := by
    decide +kernel
  refine runAllowed_of_take ?_
  intro n r hr s hrun
  match n, hr with
  | 0, rfl => exact fun _ => ⟨hlogs, hpath, rfl⟩
  | 1, rfl => exact fun htrunc => absurd htrunc (by decide)
  | 2, rfl =>
    rw [show afterCalls true 2 = some s from hrun, Option.map_some, Option.some_inj,
      Prod.mk.injEq] at hopened
    intro f hf _
    cases hopened.1.symm.trans hf
    exact hwrite s hopened.2 0 97
  | 3, rfl =>
    rw [show afterCalls true 3 = some s from hrun, Option.map_some, Option.some_inj,
      Prod.mk.injEq] at hwritten
    intro f hf _
    cases hwritten.1.symm.trans hf
    exact hwrite s hwritten.2 1 98

/-- With `O_APPEND`, replaying both writes gives the contents of the lower file. -/
theorem replay_same_twoWrites :
    ∃ s n, run FileState.step (.mounted emptyVolume ⟨-1, [], []⟩ []) (twoWrites true) = some s ∧
      s.lower.contents [nameD] = some [97, 98] ∧
      s.lower.Same (replayTurns s n).locals.world.vol := by
  have hcontents : (afterCalls true 4).map (fun s => s.lower.contents [nameD]) =
      some (some [97, 98]) := by
    decide +kernel
  obtain ⟨s, hrun, hcontents⟩ := Option.map_eq_some_iff.mp hcontents
  obtain ⟨n, -, hsame⟩ := replay_same (PathWalk.plain_plain replayDir)
    (show emptyVolume.Same emptyWorld.vol from .refl _) (fun _ _ _ _ _ => rfl) hrun sound_twoWrites
    fun _ => 0
  exact ⟨s, n, hrun, hcontents, hsame⟩

/-- Without `O_APPEND`, the second byte is replayed over the first one. -/
theorem not_replay_same_twoWrites :
    ∃ s n, run FileState.step (.mounted emptyVolume ⟨-1, [], []⟩ []) (twoWrites false) = some s ∧
      (replayTurns s n).innerDone ∧ s.lower.contents [nameD] = some [97, 98] ∧
      (replayTurns s n).locals.world.vol.contents [nameD] = some [98] ∧
      ¬s.lower.Same (replayTurns s n).locals.world.vol := by
  have hcontents : (afterCalls false 4).map (fun s => (s.lower.contents [nameD],
      (replayTurns s 3).locals.world.vol.contents [nameD],
      decide ((replayTurns s 3).pc = .inner ∧ (replayTurns s 3).limit ≤ (replayTurns s 3).buf))) =
      some (some [97, 98], some [98], true) := by
    decide +kernel
  obtain ⟨s, hrun, hs⟩ := Option.map_eq_some_iff.mp hcontents
  rw [Prod.mk.injEq, Prod.mk.injEq, decide_eq_true_iff] at hs
  obtain ⟨hlower, hworld, hdone⟩ := hs
  refine ⟨s, 3, hrun, hdone, hlower, hworld, fun hsame => ?_⟩
  have hsame := hsame.contents [nameD]
  rw [hlower, hworld] at hsame
  cases hsame

end Trfs
