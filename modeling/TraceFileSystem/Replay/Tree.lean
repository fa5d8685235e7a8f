import TraceFileSystem.Replay.Paths
import TraceFileSystem.Ops.TracedOps
import TraceFileSystem.Treplay.Actions

/-!
# Replaying changes to the tree

A sequential run of `create`, `mkdir`, `symlink`, `link`, `unlink`, `rmdir` and `rename` on a mount,
and the replay of its log in another directory.

* `TraceState.step` is one system call on the mount.  What the VFS refuses does not reach trfs;
  anything else is carried out by the lower file system and then logged by the operation of trfs.
  An operation that faults in its logging tail never returns, although the lower tree has changed.
* `treeCalls` are the system calls the replay tool makes, on the tree below its current directory.
* `world_replay_request` is the simulation step: replaying the record of an operation does to the
  replayed tree what the operation did to the lower one.

The main result `replay_iso` is about whole runs: as long as the paths are short enough and logging
does not fail, replaying the log leaves a tree behind that is isomorphic to the lower one.  A
`mkdir` behind a path of a whole page shows what happens to longer paths
(`not_replay_iso_longPath`).
-/

namespace Trfs

open Posix ByteStore LabelledSystem

/-! ### The system calls of the replay tool -/

/-- What a system call returns to the tool. -/
def answer (r : Tree × Option Errno) : Tree × ℤ :=
  (r.1, if r.2 = none then 0 else -1)

/-- A call about the name a path is resolved to. -/
def onPlace (walk : PathWalk) (path : List UInt8) (t : Tree)
    (call : Place FileName → Tree × Option Errno) : Tree × ℤ :=
  match walk.lookup t path with
  | some l => answer (call l)
  | none => (t, -1)

/-- A call about the names two paths are resolved to. -/
def onPlaces (walk : PathWalk) (old new : List UInt8) (t : Tree)
    (call : Place FileName → Place FileName → Tree × Option Errno) : Tree × ℤ :=
  match walk.lookup t old, walk.lookup t new with
  | some l, some k => answer (call l k)
  | _, _ => (t, -1)

/-- The system calls of the replay tool on the tree below its current directory.  Opening a file
that is there and writing to it do not change the tree. -/
def treeCalls (lim : Limits FileName SymTarget) (walk : PathWalk) : Syscalls Tree where
  openCreat path _ t :=
    match walk.follow t path with
    | none => (t, -1)
    | some l => if t.node l.path = none then answer (t.syscall lim (.create l)) else (t, 0)
  openFlags path _ t :=
    match walk.follow t path with
    | none => (t, -1)
    | some l => (t, if t.node l.path = none then -1 else 0)
  write _ _ count t := (t, count)
  close _ t := t
  mkdir path _ t := onPlace walk path t fun l => t.syscall lim (.mkdir l)
  rename old new t := onPlaces walk old new t fun l k => t.syscall lim (.rename l k)
  link old new t := onPlaces walk old new t fun l k => t.syscall lim (.link l k)
  symlink target path t :=
    match SymTarget.ofBytes? target with
    | none => (t, -1)
    | some s => onPlace walk path t fun l => t.syscall lim (.symlink l s)
  remove path t := onPlace walk path t fun l => t.removeCall lim l

/-! ### A traced run -/

/-- What `vfs_create` and its like return. -/
def vfsResult : Option Errno → CInt
  | none => 0
  | some e => BitVec.ofInt 32 (-e.code)

/-- A system call on the mount, with what the environment of its operation decides. -/
structure Request where
  call : Call FileName SymTarget
  mode : CInt
  interpose : CInt
  env : TailEnv

/-- The operation of trfs behind a request that has passed the VFS, when the lower call returned
`vfs`. -/
def Request.tracedOp (r : Request) (vfs : CInt) : TracedOp :=
  match r.call with
  | .create l => .create ⟨0⟩ 0 (dentryAt l) r.mode vfs r.interpose
  | .mkdir l => .mkdir ⟨0⟩ 0 (dentryAt l) r.mode vfs r.interpose
  | .symlink l target => .symlink ⟨0⟩ 0 (dentryAt l) target.str vfs r.interpose
  | .link l k => .link ⟨dentryAt l, ⟨0⟩⟩ 0 (dentryAt k) vfs true r.interpose
  | .unlink l => .unlink ⟨0⟩ 0 ⟨dentryAt l, ⟨0⟩⟩ vfs false
  | .rmdir l => .rmdir ⟨0⟩ 0 ⟨dentryAt l, ⟨0⟩⟩ vfs
  | .rename l k =>
    .rename 0 (if l.dir = k.dir then 0 else 1) ⟨dentryAt l, ⟨0⟩⟩ (dentryAt k) .none vfs

/-- The lower tree, the mount, and whether an operation got stuck. -/
structure TraceState where
  lower : Tree
  op : OpState
  stuck : Bool

/-- A new mount over a tree. -/
def TraceState.mounted (lower : Tree) (k : Kernel) (trPage : List UInt8) : TraceState where
  lower := lower
  op := ⟨.mounted trPage, k, false, []⟩
  stuck := false

/-- One system call of a sequential run.  After an operation that does not return there is no next
one. -/
def TraceState.step (lim : Limits FileName SymTarget) (s : TraceState) (r : Request) :
    Option TraceState :=
  if s.stuck then none
  else
    match s.lower.verdict r.call with
    | .passes =>
      let done := s.lower.perform lim r.call
      match (r.tracedOp (vfsResult done.2)).plan.run r.env s.op with
      | .ok (op, _) => some ⟨done.1, op, false⟩
      | .error _ => some ⟨done.1, s.op, true⟩
    | _ => some s

/-! ### Logging on a mount that traces everything -/

/-- The mask of a new mount traces everything. -/
theorem traces_all (t : RecType) : traces (-1) t := by
  cases t <;> decide

/-- There are pages, and the writes to the log complete. -/
def TailEnv.Logs (env : TailEnv) : Prop :=
  env.pages.available ∧ env.header = .complete ∧ env.aux = .complete

/-- An operation that is logged completely appends its record. -/
theorem LogFile.Records.traced {s : OpState} {ps : List (FillArgs × CInt)} (h : s.sb.log.Records ps)
    (humask : s.sb.umask = -1) {op : TracedOp} (hfails : ¬op.SymlinkFails) {env : TailEnv}
    (henv : env.Logs) (hfits : op.plan.tail.Fits) :
    ∃ s' recId, op.plan.run env s = .ok (s', op.plan.ret) ∧ s'.sb.umask = -1 ∧
      s'.sb.log.Records (ps ++ [(op.plan.tail.args, recId)]) := by
  obtain ⟨hpages, hheader, haux⟩ := henv
  obtain ⟨i, hi⟩ := Option.ne_none_iff_exists'.mp (mt op.inode_eq_none_iff.mp hfails)
  have htraces : traces s.sb.umask op.plan.tail.type := by
    rw [humask]
    exact traces_all _
  obtain ⟨s', hrun, hlog, hmask, -⟩ := Plan.run_of_traced hi htraces hpages hfits
  rw [hheader, haux] at hlog
  exact ⟨s', _, hrun, hmask.trans humask, hlog ▸ h.append hfits _⟩

/-! ### The simulation step -/

/-- The names whose paths go into the record of a request. -/
def Request.places (r : Request) : List (Place FileName) :=
  match r.call with
  | .create l | .mkdir l | .symlink l _ | .unlink l | .rmdir l => [l]
  | .link l k | .rename l k => [l, k]

/-- Nothing keeps the operation of a request from being logged and its record from being replayed:
there are pages, the writes to the log complete, the paths fit `PATH_MAX` behind the current
directory of the tool, and a new symbolic link gets its inode. -/
structure Request.Logs (cwd : List UInt8) (r : Request) : Prop where
  env : r.env.Logs
  paths : ∀ l ∈ r.places, cwd.length + (render l.path).length < pathMax
  interposed : ∀ l target, r.call = .symlink l target → r.interpose = 0

/-- Requests that do not reach trfs are fine, the others have to be logged. -/
def Request.Sound (cwd : List UInt8) (s : TraceState) (r : Request) : Prop :=
  s.lower.verdict r.call = .passes → r.Logs cwd

variable {lim : Limits FileName SymTarget} {walk : PathWalk} {cwd : List UInt8} {r : Request}
  {s s' : TraceState} {target t : Tree} {ps : List (FillArgs × CInt)}

/-- The record of a request fits the format. -/
theorem Request.Logs.fits (h : r.Logs cwd) (vfs : CInt) : (r.tracedOp vfs).plan.tail.Fits := by
  obtain ⟨call, mode, interpose, env⟩ := r
  have hpaths := h.paths
  apply TracedOp.fits_of_withinFormat
  have hle (l : Place FileName) (hl : cwd.length + (render l.path).length < pathMax) :
      (dentryAt l).path.strlen ≤ 4095 :=
    Nat.le_of_lt_succ (lt_of_le_of_lt (Nat.le_add_left _ _) hl)
  cases call with
  | create l => exact ⟨hle l (hpaths l (by simp [places])), trivial⟩
  | mkdir l => exact ⟨hle l (hpaths l (by simp [places])), trivial⟩
  | symlink l target => exact ⟨hle l (hpaths l (by simp [places])), target.pos, target.le⟩
  | link l k => exact ⟨hle l (hpaths l (by simp [places])), hle k (hpaths k (by simp [places]))⟩
  | unlink l => exact ⟨hle l (hpaths l (by simp [places])), trivial⟩
  | rmdir l => exact ⟨hle l (hpaths l (by simp [places])), trivial⟩
  | rename l k => exact ⟨hle l (hpaths l (by simp [places])), hle k (hpaths k (by simp [places]))⟩

/-- What is there is in a directory. -/
theorem node_dir_of_node {l : Place FileName} (h : t.node l.path ≠ none) :
    t.node l.dir = some .dir :=
  t.closed l.dir l.name h

/-- A call about a name in a directory, by its path. -/
theorem onPlace_render (hwalk : walk.Plain cwd) {l : Place FileName}
    (hdir : t.node l.dir = some .dir)
    (hlen : cwd.length + (render l.path).length < pathMax)
    (call : Place FileName → Tree × Option Errno) :
    (onPlace walk (cwd ++ render l.path) t call).1 = (call l).1 := by
  rw [onPlace, hwalk.lookup t l hdir hlen]
  rfl

/-- A call about two names in directories, by their paths. -/
theorem onPlaces_render (hwalk : walk.Plain cwd) {l k : Place FileName}
    (hl : t.node l.dir = some .dir) (hk : t.node k.dir = some .dir)
    (hlen : ∀ x ∈ [l, k], cwd.length + (render x.path).length < pathMax)
    (call : Place FileName → Place FileName → Tree × Option Errno) :
    (onPlaces walk (cwd ++ render l.path) (cwd ++ render k.path) t call).1 = (call l k).1 := by
  rw [onPlaces, hwalk.lookup t l hl (hlen l (by simp)), hwalk.lookup t k hk (hlen k (by simp))]
  rfl

/-- Replaying the record of a `create`: the file is created and closed. -/
theorem replayWorld_ofCreate {W : Type*} {sys : Syscalls W} {l : Place FileName} {mode : CInt}
    {w : W} {opened : W × ℤ} (hopen : sys.openCreat (cwd ++ render l.path) mode w = opened)
    (vfs interpose : CInt) :
    (TracedOp.create ⟨0⟩ 0 (dentryAt l) mode vfs interpose).plan.tail.args.replayWorld sys cwd w =
      closeIf sys opened.2 opened.1 := by
  rw [← hopen]
  rfl

/-- Replaying the record of a write: the file is opened, written to and closed. -/
theorem replayWorld_ofWrite {W : Type*} {sys : Syscalls W} {l : Place FileName} {flags : CInt}
    {w : W} {opened : W × ℤ} (hopen : sys.openFlags (cwd ++ render l.path) flags w = opened)
    {buf : List UInt8} (hlen : buf.length < 65536) (vfs : CInt) :
    (TracedOp.write ⟨dentryAt l, ⟨0⟩⟩ flags (.user buf) buf.length vfs).plan.tail.args.replayWorld
        sys cwd w =
      closeIf sys opened.2 (sys.write opened.2 buf buf.length opened.1).1 := by
  have haux : (TracedOp.write ⟨dentryAt l, ⟨0⟩⟩ flags (.user buf) buf.length
      vfs).plan.tail.args.auxLogged = buf :=
    FillArgs.auxLogged_eq_of_lt hlen
  rw [← hopen]
  change closeIf sys _ (sys.write _ _ (List.length _) _).1 = _
  rw [haux]
  rfl

/-- **The simulation step.**  Replaying the record of an operation that the VFS lets pass does to
the replayed tree what the file system does to it. -/
theorem replayWorld_request (hwalk : walk.Plain cwd) (h : r.Logs cwd)
    (hv : t.verdict r.call = .passes) (vfs : CInt) :
    (r.tracedOp vfs).plan.tail.args.replayWorld (treeCalls lim walk) cwd t =
      (t.perform lim r.call).1 := by
  obtain ⟨call, mode, interpose, env⟩ := r
  have hpaths := h.paths
  cases call with
  | create l =>
    have hl := Namespace.vacant_of_verdictNew hv
    have hfollow := hwalk.follow t l hl.2 (hpaths l (by simp [Request.places])) (by simp [hl.1])
    have hopen : (treeCalls lim walk).openCreat (cwd ++ render l.path) mode t =
        answer (t.perform lim (.create l)) := by
      simp only [treeCalls, hfollow, hl.1, if_true]
      rw [Namespace.syscall_of_passes hv]
    refine (replayWorld_ofCreate hopen vfs interpose).trans ?_
    rw [closeIf]
    split <;> rfl
  | mkdir l =>
    have hl := Namespace.vacant_of_verdictNew hv
    have hplace := onPlace_render hwalk hl.2 (hpaths l (by simp [Request.places]))
      fun l => t.syscall lim (.mkdir l)
    rw [← Namespace.syscall_of_passes hv]
    exact hplace
  | symlink l target =>
    have hl := Namespace.vacant_of_verdictNew hv
    have hplace := onPlace_render hwalk hl.2 (hpaths l (by simp [Request.places]))
      fun l => t.syscall lim (.symlink l target)
    rw [← Namespace.syscall_of_passes hv, ← hplace]
    change ((treeCalls lim walk).symlink target.str.bytes (cwd ++ render l.path) t).1 = _
    simp only [treeCalls, SymTarget.ofBytes?_bytes]
  | link l k =>
    obtain ⟨⟨n, hn, -⟩, hk⟩ := Namespace.of_verdict_link hv
    have hplaces := onPlaces_render hwalk (node_dir_of_node (by simp [hn])) hk.2 hpaths
      fun l k => t.syscall lim (.link l k)
    rw [← Namespace.syscall_of_passes hv]
    exact hplaces
  | unlink l =>
    have hplace := onPlace_render hwalk (node_dir_of_node (Namespace.of_verdict_unlink hv).1)
      (hpaths l (by simp [Request.places])) fun l => t.removeCall lim l
    rw [← Namespace.removeCall_of_unlink hv]
    exact hplace
  | rmdir l =>
    have hnode : t.node l.path ≠ none := by simp [Namespace.of_verdict_rmdir hv]
    have hplace := onPlace_render hwalk (node_dir_of_node hnode)
      (hpaths l (by simp [Request.places])) fun l => t.removeCall lim l
    rw [← Namespace.removeCall_of_rmdir hv]
    exact hplace
  | rename l k =>
    have hmove := Namespace.of_verdict_rename hv
    have hplaces := onPlaces_render hwalk (node_dir_of_node hmove.1) hmove.2.2.2 hpaths
      fun l k => t.syscall lim (.rename l k)
    rw [← Namespace.syscall_of_passes hv]
    exact hplaces

/-! ### Whole runs -/

/-- The log holds the records, and replaying them leads from the target tree to one that is
isomorphic to the lower tree. -/
structure TraceState.Mirrors (lim : Limits FileName SymTarget) (walk : PathWalk) (cwd : List UInt8)
    (target : Tree) (ps : List (FillArgs × CInt)) (s : TraceState) : Prop where
  umask : s.op.sb.umask = -1
  records : s.op.sb.log.Records ps
  iso : s.lower.Iso (replayWorlds (treeCalls lim walk) cwd ps target)

/-- Only a `symlink` that the lower file system refused gets stuck. -/
theorem Request.Logs.ne_zero_of_symlinkFails (h : r.Logs cwd) {vfs : CInt}
    (hfails : (r.tracedOp vfs).SymlinkFails) : vfs ≠ 0 := by
  obtain ⟨call, mode, interpose, env⟩ := r
  cases call with
  | symlink l target =>
    have hinterpose : interpose = 0 := h.interposed l target rfl
    exact hfails.resolve_right (not_not.mpr hinterpose)
  | _ => exact hfails.elim

/-- What a step does with a request that passes the VFS. -/
theorem TraceState.step_of_passes (hv : s.lower.verdict r.call = .passes)
    (hstep : s.step lim r = some s') :
    (∃ op ret, (r.tracedOp (vfsResult (s.lower.perform lim r.call).2)).plan.run r.env s.op =
        .ok (op, ret) ∧ s' = ⟨(s.lower.perform lim r.call).1, op, false⟩) ∨
      (∃ e, (r.tracedOp (vfsResult (s.lower.perform lim r.call).2)).plan.run r.env s.op =
        .error e ∧ s' = ⟨(s.lower.perform lim r.call).1, s.op, true⟩) := by
  unfold step at hstep
  split at hstep
  · cases hstep
  · simp only [hv] at hstep
    split at hstep
    · next op ret hrun => exact .inl ⟨op, ret, hrun, (Option.some_inj.mp hstep).symm⟩
    · next e hrun => exact .inr ⟨e, hrun, (Option.some_inj.mp hstep).symm⟩

/-- A request that does not pass the VFS changes nothing. -/
theorem TraceState.step_of_not_passes (hv : s.lower.verdict r.call ≠ .passes)
    (hstep : s.step lim r = some s') : s' = s := by
  unfold step at hstep
  split at hstep
  · cases hstep
  · split at hstep
    · next h => exact absurd h hv
    · exact (Option.some_inj.mp hstep).symm

/-- An operation that passes the VFS is logged and repeated, or it is a `symlink` that fails and
leaves everything as it is. -/
theorem TraceState.Mirrors.passes (hwalk : walk.Plain cwd) (hs : s.Mirrors lim walk cwd target ps)
    (hlogs : r.Logs cwd) (hv : s.lower.verdict r.call = .passes) (hstep : s.step lim r = some s') :
    s'.Mirrors lim walk cwd target ps ∨ ∃ p, s'.Mirrors lim walk cwd target (ps ++ [p]) := by
  let op := r.tracedOp (vfsResult (s.lower.perform lim r.call).2)
  by_cases hfails : op.SymlinkFails
  · left
    have hrun : op.plan.run r.env s.op = .error .nullDeref :=
      Plan.run_of_inode_eq_none (op.inode_eq_none_iff.mpr hfails)
    have hself : (s.lower.perform lim r.call).1 = s.lower := by
      have hne := hlogs.ne_zero_of_symlinkFails hfails
      cases hresult : (s.lower.perform lim r.call).2 with
      | none =>
        rw [hresult] at hne
        exact absurd rfl hne
      | some e => exact Namespace.perform_eq_self hresult
    rcases step_of_passes hv hstep with ⟨op', ret, hok, -⟩ | ⟨e, -, rfl⟩
    · cases hrun.symm.trans hok
    · refine ⟨hs.umask, hs.records, ?_⟩
      rw [hself]
      exact hs.iso
  · right
    obtain ⟨op', recId, hrun, hmask, hrecords⟩ :=
      hs.records.traced hs.umask hfails hlogs.env (hlogs.fits _)
    rcases step_of_passes hv hstep with ⟨op'', ret, hok, rfl⟩ | ⟨e, herror, -⟩
    · cases hrun.symm.trans hok
      have hv' : (replayWorlds (treeCalls lim walk) cwd ps target).verdict r.call = .passes :=
        (hs.iso.verdict _).symm.trans hv
      have hworld :
          replayWorlds (treeCalls lim walk) cwd (ps ++ [(op.plan.tail.args, recId)]) target =
            ((replayWorlds (treeCalls lim walk) cwd ps target).perform lim r.call).1 := by
        rw [← replayWorld_request hwalk hlogs hv']
        exact List.foldl_concat _ _ _ _
      refine ⟨_, hmask, hrecords, ?_⟩
      rw [hworld]
      exact (hs.iso.perform hv).1
    · cases hrun.symm.trans herror

/-- **One system call** adds one record at most. -/
theorem TraceState.Mirrors.step (hwalk : walk.Plain cwd) (hs : s.Mirrors lim walk cwd target ps)
    (hr : r.Sound cwd s) (hstep : s.step lim r = some s') :
    s'.Mirrors lim walk cwd target ps ∨ ∃ p, s'.Mirrors lim walk cwd target (ps ++ [p]) := by
  by_cases hv : s.lower.verdict r.call = .passes
  · exact hs.passes hwalk (hr hv) hv hstep
  · rw [step_of_not_passes hv hstep]
    exact .inl hs

/-- **The log regenerates the tree.**  Take a run of calls on a new mount, each of which either does
not reach trfs or is logged, over a tree that is isomorphic to the one below the current directory
of the replay tool.  Then the tool, given the whole log in one buffer and no flags, comes to the end
of the log and leaves a tree behind that is isomorphic to the lower tree: the same paths, the same
kinds of objects, the same targets and the same hard links. -/
theorem replay_iso (hwalk : walk.Plain cwd) {lower : Tree} (hiso : lower.Iso target) {k : Kernel}
    {trPage : List UInt8} {rs : List Request}
    (hrun : run (TraceState.step lim) (.mounted lower k trPage) rs = some s)
    (hrs : RunAllowed (TraceState.step lim) (Request.Sound cwd) (.mounted lower k trPage) rs)
    (m : Mem) :
    ∃ n, ((replayStep ⟨treeCalls lim walk, ⟨false, false⟩, cwd, s.op.sb.log.data⟩)^[n]
        (wholeStart ⟨treeCalls lim walk, ⟨false, false⟩, cwd,
          s.op.sb.log.data⟩ m target)).innerDone ∧
      s.lower.Iso ((replayStep ⟨treeCalls lim walk, ⟨false, false⟩, cwd, s.op.sb.log.data⟩)^[n]
        (wholeStart ⟨treeCalls lim walk, ⟨false, false⟩, cwd, s.op.sb.log.data⟩ m
          target)).locals.world := by
  have hstart : (TraceState.mounted lower k trPage).Mirrors lim walk cwd target [] :=
    ⟨rfl, .nil, hiso⟩
  have hstep (s : TraceState) (r : Request) (s' : TraceState)
      (hs : ∃ ps, s.Mirrors lim walk cwd target ps) (hr : r.Sound cwd s)
      (hstep : s.step lim r = some s') : ∃ ps, s'.Mirrors lim walk cwd target ps := by
    obtain ⟨ps, hs⟩ := hs
    rcases hs.step hwalk hr hstep with hs' | ⟨p, hs'⟩
    · exact ⟨ps, hs'⟩
    · exact ⟨_, hs'⟩
  obtain ⟨ps, hend⟩ := run_invariant hstep ⟨[], hstart⟩ hrs hrun
  obtain ⟨n, hdone, hworld⟩ := hend.records.exists_innerDone (treeCalls lim walk) cwd target m
  exact ⟨n, hdone, by rw [hworld]; exact hend.iso⟩

/-! ### Two concrete runs -/

/-- A request for which nothing fails on the side of the mount. -/
def Request.plain (call : Call FileName SymTarget) : Request where
  call := call
  mode := 0
  interpose := 0
  env := .working

/-- Such a request is logged if its paths are short. -/
theorem Request.logs_plain {call : Call FileName SymTarget}
    (h : ∀ l ∈ (Request.plain call).places, cwd.length + (render l.path).length < pathMax) :
    (Request.plain call).Logs cwd where
  env := ⟨⟨rfl, rfl⟩, rfl, rfl⟩
  paths := h
  interposed _ _ _ := rfl

/-- The directory `/t`, in which the tool is started. -/
def replayDir : List UInt8 := [47, 116]

/-- The name `d`. -/
def nameD : FileName := ⟨[100], by decide⟩

/-- The name `e`. -/
def nameE : FileName := ⟨[101], by decide⟩

/-- A directory `/d` with the file `/d/e` in it is created and renamed to `/e`; then somebody tries
to remove the directory, which is not empty. -/
def renameRequests : List Request :=
  [.plain (.mkdir ⟨[], nameD⟩), .plain (.create ⟨[nameD], nameE⟩),
    .plain (.rename ⟨[], nameD⟩ ⟨[], nameE⟩), .plain (.rmdir ⟨[], nameE⟩)]

/-- Whatever of them passes the VFS is logged. -/
theorem sound_renameRequests : ∀ r ∈ renameRequests, ∀ s, r.Sound replayDir s := by
  intro r hr s _
  simp only [renameRequests, List.mem_cons, List.not_mem_nil, or_false] at hr
  rcases hr with rfl | rfl | rfl | rfl <;> exact Request.logs_plain (by decide)

/-- All four are logged, and the replay gives the tree with the file `/e/e`. -/
theorem replay_iso_rename :
    ∃ s, run (TraceState.step (.unlimited _ _)) (.mounted (.rootOnly _ _) ⟨-1, [], []⟩ [])
        renameRequests = some s ∧
      s.lower.kind [nameE, nameE] = some .file ∧
      ∃ n, s.lower.Iso
        ((replayStep ⟨treeCalls (.unlimited _ _) (.plain replayDir), ⟨false, false⟩, replayDir,
            s.op.sb.log.data⟩)^[n]
          (wholeStart ⟨treeCalls (.unlimited _ _) (.plain replayDir), ⟨false, false⟩, replayDir,
            s.op.sb.log.data⟩ (fun _ => 0) (.rootOnly _ _))).locals.world := by
  have hkind : (run (TraceState.step (.unlimited _ _)) (.mounted (.rootOnly _ _) ⟨-1, [], []⟩ [])
      renameRequests).map (fun s => s.lower.kind [nameE, nameE]) = some (some .file) := by
    decide +kernel
  obtain ⟨s, hrun, hkind⟩ := Option.map_eq_some_iff.mp hkind
  obtain ⟨n, -, hiso⟩ := replay_iso (PathWalk.plain_plain replayDir) (.refl _) hrun
    (runAllowed_of_forall sound_renameRequests _) fun _ => 0
  exact ⟨s, hrun, hkind, n, hiso⟩

/-- An operation that faults gets stuck after the lower file system has done its part. -/
theorem TraceState.step_of_error (hstuck : s.stuck = false) (hv : s.lower.verdict r.call = .passes)
    {e : Fault}
    (hrun : (r.tracedOp (vfsResult (s.lower.perform lim r.call).2)).plan.run r.env s.op =
      .error e) :
    s.step lim r = some ⟨(s.lower.perform lim r.call).1, s.op, true⟩ := by
  simp [step, hstuck, hv, hrun]

/-- A `mkdir` behind a path that does not fit a page changes the lower tree and gets stuck. -/
theorem TraceState.step_mkdir_tooLong {l : Place FileName} (hl : t.Vacant l)
    (hlong : pageSize ≤ (render l.path).length) (k : Kernel) (trPage : List UInt8) :
    (TraceState.mounted t k trPage).step (.unlimited _ _) (.plain (.mkdir l)) =
      some ⟨t.add l .dir, (TraceState.mounted t k trPage).op, true⟩ := by
  have hv : t.verdict (.mkdir l) = .passes := Namespace.verdictNew_of_vacant hl
  have hfault : ((Request.plain (.mkdir l)).tracedOp 0).plan.run .working
      (TraceState.mounted t k trPage).op = .error .errPtrDeref :=
    Plan.run_of_tooLong rfl (traces_all _) ⟨rfl, rfl⟩ (.inl hlong)
  exact step_of_error rfl hv hfault

/-- Nothing is logged then, and the replay leaves the tree as it was, without the directory. -/
theorem TraceState.not_iso_mkdir_tooLong {l : Place FileName} (hl : t.Vacant l)
    (hlong : pageSize ≤ (render l.path).length) (k : Kernel) (trPage : List UInt8)
    (sys : Syscalls Tree) (cwd : List UInt8) (m : Mem) :
    ∃ s, run (step (.unlimited _ _)) (.mounted t k trPage) [.plain (.mkdir l)] = some s ∧
      ∃ n, ((replayStep ⟨sys, ⟨false, false⟩, cwd, s.op.sb.log.data⟩)^[n]
          (wholeStart ⟨sys, ⟨false, false⟩, cwd, s.op.sb.log.data⟩ m t)).innerDone ∧
        ¬s.lower.Iso ((replayStep ⟨sys, ⟨false, false⟩, cwd, s.op.sb.log.data⟩)^[n]
          (wholeStart ⟨sys, ⟨false, false⟩, cwd, s.op.sb.log.data⟩ m t)).locals.world := by
  have hstep := step_mkdir_tooLong hl hlong k trPage
  have hlog : (TraceState.mounted t k trPage).op.sb.log.Records [] := .nil
  obtain ⟨n, hdone, hworld⟩ := hlog.exists_innerDone sys cwd t m
  refine ⟨⟨t.add l .dir, (TraceState.mounted t k trPage).op, true⟩, by rw [run, hstep]; rfl, n,
    hdone, fun hiso => ?_⟩
  rw [hworld] at hiso
  have hnone := hiso.node_eq_none_iff.mpr hl.1
  have hbelow : (Node.dir : Node SymTarget).Below (t.next + 1) := trivial
  rw [Namespace.node_add hl hbelow, if_pos rfl] at hnone
  cases hnone

/-- A path of `n` names `d` takes two bytes for each of them. -/
theorem length_render_replicate (n : ℕ) : (render (List.replicate n nameD)).length = n * 2 := by
  simp [render, List.length_flatMap, nameD]

/-- The place at the end of a chain of 2047 directories `d`.  Its path takes a whole page, without a
terminator. -/
def deepPlace : Place FileName :=
  ⟨List.replicate 2047 nameD, nameD⟩

/-- The directory at the end of the chain is created in the lower tree, but the operation faults in
its tail and nothing is logged; the replay does not create the directory. -/
theorem not_replay_iso_longPath :
    ∃ s, run (TraceState.step (.unlimited _ _)) (.mounted (.chain nameD 2047) ⟨-1, [], []⟩ [])
        [.plain (.mkdir deepPlace)] = some s ∧
      ∃ n, ((replayStep ⟨treeCalls (.unlimited _ _) (.plain replayDir), ⟨false, false⟩, replayDir,
            s.op.sb.log.data⟩)^[n]
          (wholeStart ⟨treeCalls (.unlimited _ _) (.plain replayDir), ⟨false, false⟩, replayDir,
            s.op.sb.log.data⟩ (fun _ => 0) (.chain nameD 2047))).innerDone ∧
        ¬s.lower.Iso
          ((replayStep ⟨treeCalls (.unlimited _ _) (.plain replayDir), ⟨false, false⟩, replayDir,
              s.op.sb.log.data⟩)^[n]
            (wholeStart ⟨treeCalls (.unlimited _ _) (.plain replayDir), ⟨false, false⟩, replayDir,
              s.op.sb.log.data⟩ (fun _ => 0) (.chain nameD 2047))).locals.world := by
  have hpath : deepPlace.path = List.replicate 2048 nameD := List.replicate_succ'.symm
  have hvacant : (Namespace.chain nameD 2047 : Tree).Vacant deepPlace := by
    constructor
    · rw [hpath, Namespace.node_chain, if_neg (by decide)]
    · rw [deepPlace, Namespace.node_chain, if_pos (by decide)]
  have hlong : pageSize ≤ (render deepPlace.path).length := by
    rw [hpath, length_render_replicate]
    decide
  exact TraceState.not_iso_mkdir_tooLong hvacant hlong ⟨-1, [], []⟩ []
    (treeCalls (.unlimited _ _) (.plain replayDir)) replayDir fun _ => 0

end Trfs
