import TraceFileSystem.Lib.Dentries
import TraceFileSystem.Lib.Counterparts
import TraceFileSystem.Replay.Contents

/-!
# Writes through files that are kept open

A sequential run of changes to the tree and of writes, through any number of files that are kept
open while the tree changes, and the replay of its log in another directory.

`trfs_write` identifies the file by the path of the dentry through which it was opened, at the time
of the write; the replay tool opens whatever has this path at that point of the replay.  An open
file keeps its dentry: it goes along when the file is renamed, and it keeps a path when the name is
removed or given to another file (`Trail`).

As long as every write goes through a dentry that can still be looked up, or one whose path leads to
the file anyhow, or to nothing after the file has lost all its names, every record of a write
reaches the counterpart of the file that was written, or nothing (`write_reaches`).  A name that was
removed and used again is enough for a write to be replayed to another file
(`not_write_reaches_reused`).
-/

namespace Trfs

open Posix ByteStore LabelledSystem

/-! ### A traced run -/

/-- A file that was opened on the mount, with its dentry. -/
structure Handle where
  dentry : Trail FileName
  ino : ℕ
  flags : OpenFlags
  deriving DecidableEq

/-- What a call that changes the tree does to the dentry of an open file. -/
def Handle.after (c : Call FileName SymTarget) (f : Handle) : Handle :=
  { f with dentry := f.dentry.after c }

/-- System calls on the mount, with what their environment decides: the lower file system may refuse
a change of the tree for a reason of its own, and a write may fail or be short. -/
inductive HandleCall where
  | tree (r : Request) (refusal : Option Errno)
  | openFile (fd : ℕ) (l : Place FileName) (flags : OpenFlags)
  | close (fd : ℕ)
  | write (fd : ℕ) (buf : List UInt8) (off : ℕ) (vfs : CInt) (env : TailEnv)

/-- The lower volume, the open files, the mount, and whether an operation got stuck. -/
structure HandleState where
  lower : FileVolume
  files : ℕ → Option Handle
  op : OpState
  stuck : Bool

/-- The operation of trfs behind a write. -/
def Handle.tracedOp (f : Handle) (buf : List UInt8) (vfs : CInt) : TracedOp :=
  .write ⟨dentryAt f.dentry.place, ⟨0⟩⟩ f.flags.fFlags (.user buf) buf.length vfs

namespace HandleState

/-- A new mount over a volume. -/
def mounted (lower : FileVolume) (k : Kernel) (trPage : List UInt8) : HandleState where
  lower := lower
  files _ := none
  op := ⟨.mounted trPage, k, false, []⟩
  stuck := false

/-- The end of an operation of trfs, after the lower file system has done its part. -/
def traced (s : HandleState) (env : TailEnv) (op : TracedOp) (lower : FileVolume)
    (files : ℕ → Option Handle) : HandleState :=
  match op.plan.run env s.op with
  | .ok (op', _) => ⟨lower, files, op', false⟩
  | .error _ => ⟨lower, s.files, s.op, true⟩

/-- A change of the tree.  The VFS drops or moves dentries when the operation has succeeded. -/
def changeTree (s : HandleState) (r : Request) (refusal : Option Errno) : HandleState :=
  let done := match refusal with
    | some e => (s.lower, some e)
    | none => s.lower.change r.call
  let files := if done.2 = none then fun fd => (s.files fd).map (Handle.after r.call) else s.files
  s.traced r.env (r.tracedOp (vfsResult done.2)) done.1 files

/-- A write at an offset, which is ignored with `O_APPEND`. -/
def writeFile (s : HandleState) (env : TailEnv) (f : Handle) (buf : List UInt8) (off : ℕ)
    (vfs : CInt) : HandleState :=
  if f.flags.writable then
    let start := if f.flags.append then (s.lower.data f.ino).length else off
    let lower := if 0 < vfs.toInt then s.lower.write f.ino start (buf.take vfs.toInt.toNat) else
      s.lower
    s.traced env (f.tracedOp buf vfs) lower s.files
  else s

/-- One system call of a sequential run.  A file gets a descriptor that is not in use, and after an
operation that does not return there is no next one. -/
def step (s : HandleState) (c : HandleCall) : Option HandleState :=
  if s.stuck then none
  else
    match c with
    | .tree r refusal =>
      if s.lower.tree.verdict r.call = .passes then some (s.changeTree r refusal) else some s
    | .openFile fd l flags =>
      match s.files fd, s.lower.tree.node l.path with
      | some _, _ => none
      | none, some (.file ino) =>
        some { s with
          lower := if flags.trunc then s.lower.truncate ino else s.lower
          files := Function.update s.files fd (some ⟨l.trail, ino, flags⟩) }
      | none, _ => some s
    | .close fd => some { s with files := Function.update s.files fd none }
    | .write fd buf off vfs env =>
      match s.files fd with
      | some f => some (s.writeFile env f buf off vfs)
      | none => some s

end HandleState

/-! ### The writes that are replayed to the right file -/

/-- The file has lost all its names, and the path of the dentry leads to nothing that can be opened
for writing. -/
structure Handle.Gone (t : Tree) (f : Handle) : Prop where
  nameless : ∀ p, t.node p ≠ some (.file f.ino)
  absent : t.node f.dentry.place.path = none ∨ t.node f.dentry.place.path = some .dir
  noSymlink : ∀ p, p <+: f.dentry.place.path → ∀ ino target, t.node p ≠ some (.symlink ino target)

/-- The dentry of the file is still hashed, its path leads to the file in another way, or both are
gone. -/
def Handle.Followed (t : Tree) (f : Handle) : Prop :=
  f.dentry.Hashed ∨ t.node f.dentry.place.path = some (.file f.ino) ∨ f.Gone t

/-- A write that is logged within the format, through a dentry that follows the file. -/
structure Handle.WriteSound (cwd : List UInt8) (f : Handle) (env : TailEnv) (buf : List UInt8)
    (t : Tree) : Prop where
  env : env.Logs
  buf_ne : buf ≠ []
  size_le : headerSize + (render f.dentry.place.path).length + buf.length ≤ 32767
  path_lt : cwd.length + (render f.dentry.place.path).length < pathMax
  followed : f.Followed t

/-- The length of its data is that of a `short`. -/
theorem Handle.WriteSound.length_le {cwd : List UInt8} {f : Handle} {env : TailEnv}
    {buf : List UInt8} {t : Tree} (h : f.WriteSound cwd env buf t) : buf.length ≤ 32767 :=
  le_trans (Nat.le_add_left _ _) h.size_le

/-- The calls that the replay repeats on the right files. -/
def HandleCall.Sound (cwd : List UInt8) (s : HandleState) (c : HandleCall) : Prop :=
  match c with
  | .tree r refusal => s.lower.tree.verdict r.call = .passes → refusal = none ∧ r.Logs cwd
  | .openFile _ _ _ | .close _ => True
  | .write fd buf _ _ env => ∀ f, s.files fd = some f → f.flags.writable = true →
      f.WriteSound cwd env buf s.lower.tree

/-- Paths are resolved to what they say, and a path without symbolic links at whose end there is
nothing leads to nothing. -/
structure PathWalk.Strict (walk : PathWalk) (cwd : List UInt8) : Prop extends walk.Plain cwd where
  missing : ∀ (t : Tree) (l : Place FileName), cwd.length + (render l.path).length < pathMax →
    t.node l.path = none →
    (∀ p, p <+: l.path → ∀ ino target, t.node p ≠ some (.symlink ino target)) →
    ∀ k, walk.follow t (cwd ++ render l.path) = some k → t.node k.path = none

/-- Resolution of plain paths is strict. -/
theorem PathWalk.plain_strict (cwd : List UInt8) : (PathWalk.plain cwd).Strict cwd where
  toPlain := plain_plain cwd
  missing t l _ hnone _ k hk := by
    cases (plainPlace_render cwd l).symm.trans hk
    exact hnone

/-- The system calls of a tool that has permission for everything. -/
abbrev rootCalls (takes : ℕ → ℕ → Bool) (walk : PathWalk) : Syscalls FileWorld :=
  fileCalls (.superuser takes) walk

/-- What replaying the record of a write through an open file does: the file that is opened is the
counterpart of the one that was written, or nothing is opened because the file has no name left; and
nothing else changes. -/
def Handle.Reaches (takes : ℕ → ℕ → Bool) (walk : PathWalk) (cwd : List UInt8)
    (lower target t : Tree) (f : Handle) (w w' : FileWorld) : Prop :=
  let opened :=
    (rootCalls takes walk).openFlags (cwd ++ render f.dentry.place.path) f.flags.fFlags w
  (∃ i, opened = w.openIno i f.flags.fFlags ∧
      (∀ j, Namespace.Counterpart lower target f.ino j ↔ j = i) ∧ w'.vol.tree = w.vol.tree ∧
      ∀ j, j ≠ i → w'.vol.data j = w.vol.data j) ∨
    (opened = (w, -1) ∧ (∀ p, t.node p ≠ some (.file f.ino)) ∧ w'.vol = w.vol)

/-! ### The simulation steps -/

variable {takes : ℕ → ℕ → Bool} {walk : PathWalk} {cwd : List UInt8}

/-- It may open every file. -/
theorem openOld_superuser (w : FileWorld) (ino : ℕ) (flags : CInt) :
    w.openOld (.superuser takes) ino flags = w.openIno ino flags :=
  if_pos rfl

/-- Closing a file does not change a tree. -/
theorem closeIf_treeCalls (fd : ℤ) (t : Tree) :
    closeIf (treeCalls (.unlimited _ _) walk) fd t = t := by
  unfold closeIf
  split <;> rfl

/-- Opening a file does not change the tree, even if it is truncated. -/
theorem tree_openIno (w : FileWorld) (ino : ℕ) (flags : CInt) :
    (w.openIno ino flags).1.vol.tree = w.vol.tree := by
  simp only [FileWorld.openIno]
  split <;> rfl

/-- Opening a file by its path does not change the tree. -/
theorem tree_openFlags (path : List UInt8) (flags : CInt) (w : FileWorld) :
    ((rootCalls takes walk).openFlags path flags w).1.vol.tree = w.vol.tree := by
  simp only [rootCalls, fileCalls, openOld_superuser]
  split
  · rfl
  · split
    · exact tree_openIno _ _ _
    · rfl

/-- Writing does not change the tree. -/
theorem tree_writeFd (proc : Process) (w : FileWorld) (fd : ℤ) (bytes : List UInt8) (count : ℤ) :
    (w.writeFd proc fd bytes count).1.vol.tree = w.vol.tree := by
  unfold FileWorld.writeFd
  split
  · rfl
  · split
    · rfl
    · simp only
      split_ifs <;> rfl

/-- Creating a file changes the tree as on a tree without contents. -/
theorem tree_openCreat (path : List UInt8) (mode : CInt) (w : FileWorld) :
    ((rootCalls takes walk).openCreat path mode w).1.vol.tree =
      ((treeCalls (.unlimited _ _) walk).openCreat path mode w.vol.tree).1 := by
  simp only [fileCalls, treeCalls]
  cases walk.follow w.vol.tree path with
  | none => rfl
  | some l =>
    simp only
    cases w.vol.tree.node l.path with
    | none =>
      simp only [if_true, answer, Namespace.syscall]
      cases w.vol.tree.verdict (.create l) with
      | passes => exact tree_openIno _ _ _
      | noop => rfl
      | refused e => rfl
    | some n =>
      cases n with
      | dir => rfl
      | file ino => exact tree_openIno _ _ _
      | symlink ino target => rfl

/-- **Contents do not matter to the tree.**  The tree of a volume is replayed as a tree without
contents. -/
theorem tree_replayWorld (a : FillArgs) (w : FileWorld) :
    (a.replayWorld (rootCalls takes walk) cwd w).vol.tree =
      a.replayWorld (treeCalls (.unlimited _ _) walk) cwd w.vol.tree := by
  unfold FillArgs.replayWorld
  cases RecType.ofCode? a.type with
  | none => rfl
  | some t =>
    cases t with
    | fcreat =>
      simp only [(closeIf_fileCalls _ _).1, closeIf_treeCalls]
      exact tree_openCreat _ _ _
    | fwrite =>
      simp only [(closeIf_fileCalls _ _).1, closeIf_treeCalls]
      have hopen : ((treeCalls (.unlimited _ _) walk).openFlags (cwd ++ a.dentry.path.bytes) a.flags
          w.vol.tree).1 = w.vol.tree := by
        simp only [treeCalls]
        split <;> rfl
      exact ((tree_writeFd _ _ _ _ _).trans (tree_openFlags _ _ _)).trans hopen.symm
    | _ => rfl

/-- Replaying the record of a change of the tree changes the replayed tree. -/
theorem tree_replayWorld_request (hwalk : walk.Plain cwd) {r : Request} (h : r.Logs cwd)
    {w : FileWorld} (hv : w.vol.tree.verdict r.call = .passes) (vfs : CInt) :
    ((r.tracedOp vfs).plan.tail.args.replayWorld (rootCalls takes walk) cwd w).vol.tree =
      (w.vol.tree.change r.call).1 := by
  rw [tree_replayWorld, replayWorld_request hwalk h hv]
  rfl

/-- Replaying the record of a write does not change the tree. -/
theorem tree_replayWorld_write (f : Handle) (buf : List UInt8) (vfs : CInt) (w : FileWorld) :
    ((f.tracedOp buf vfs).plan.tail.args.replayWorld (rootCalls takes walk) cwd w).vol.tree =
    w.vol.tree := by
  change (closeIf (rootCalls takes walk) _ _).vol.tree = _
  rw [(closeIf_fileCalls _ _).1]
  exact (tree_writeFd _ _ _ _ _).trans (tree_openFlags _ _ _)

/-- Replaying the record of a write through a path that leads to a file. -/
theorem reaches_of_file (hwalk : walk.Strict cwd) {lower target t : Tree} (h₀ : lower.Iso target)
    {w : FileWorld} (htracked : Namespace.Tracked lower target t w.vol.tree) {f : Handle}
    (hnode : t.node f.dentry.place.path = some (.file f.ino)) (hwritable : f.flags.writable = true)
    {env : TailEnv} {buf : List UInt8} (hsound : f.WriteSound cwd env buf t) (vfs : CInt) :
    f.Reaches takes walk cwd lower target t w
      ((f.tracedOp buf vfs).plan.tail.args.replayWorld (rootCalls takes walk) cwd w) := by
  have hkind : w.vol.tree.kind f.dentry.place.path = some .file := by
    rw [← htracked.iso.kind, Namespace.kind, hnode]
    rfl
  obtain ⟨i, hi⟩ := Volume.exists_file_of_kind hkind
  have hfollow := hwalk.follow w.vol.tree f.dentry.place
    (node_dir_of_node (by simp [hi])) hsound.path_lt
    (by simp [hi])
  have hmay : (Process.superuser takes).mayOpen (w.perms i) f.flags.fFlags = true := rfl
  obtain ⟨hvol, -⟩ := replayWorld_write hwalk.toPlain (f := ⟨f.dentry.place, f.ino, f.flags, 0⟩) hi
    hwritable hmay hsound.length_le hsound.path_lt vfs
  -- the write may be refused, but it reaches no other file
  have hothers : ∀ v : FileVolume, v = w.vol ∨ v = w.vol.write i
      (if f.flags.append then (w.vol.data i).length else 0) buf →
      v.tree = w.vol.tree ∧ ∀ j, j ≠ i → v.data j = w.vol.data j := by
    rintro v (rfl | rfl)
    · exact ⟨rfl, fun _ _ => rfl⟩
    · exact ⟨rfl, fun j hj => Function.update_of_ne hj _ _⟩
  obtain ⟨htree, hdata⟩ := hothers _ ((ite_eq_or_eq _ _ _).imp hvol.trans hvol.trans)
  have hcounterpart := htracked.file _ _ _ hnode hi
  refine .inl ⟨i, ?_, ?_, htree, hdata⟩
  · simp only [rootCalls, fileCalls, hfollow, hi, openOld_superuser]
  · intro j
    refine ⟨fun hj => hcounterpart.unique h₀ hj, ?_⟩
    rintro rfl
    exact hcounterpart

/-- Replaying the record of a write through a path that leads to nothing. -/
theorem reaches_of_gone (hwalk : walk.Strict cwd) {lower target t : Tree} {w : FileWorld}
    (hiso : t.Iso w.vol.tree) {f : Handle} (hgone : f.Gone t)
    (hpath : cwd.length + (render f.dentry.place.path).length < pathMax) {buf : List UInt8}
    (hlen : buf.length < 65536) (vfs : CInt) :
    f.Reaches takes walk cwd lower target t w
      ((f.tracedOp buf vfs).plan.tail.args.replayWorld (rootCalls takes walk) cwd w) := by
  have hopen :
      (rootCalls takes walk).openFlags (cwd ++ render f.dentry.place.path) f.flags.fFlags w =
        (w, -1) := by
    simp only [fileCalls]
    rcases hgone.absent with hnone | hdir
    · have hsymlink : ∀ p, p <+: f.dentry.place.path → ∀ ino target,
          w.vol.tree.node p ≠ some (.symlink ino target) := by
        intro p hp ino target hnode
        have hkind : t.kind p = some (.symlink target) := by
          rw [hiso.kind, Namespace.kind, hnode]
          rfl
        obtain ⟨n, hn, hkind⟩ := Option.map_eq_some_iff.mp hkind
        cases n with
        | dir => cases hkind
        | file i => cases hkind
        | symlink i target' => exact hgone.noSymlink p hp i target' hn
      cases hfollow : walk.follow w.vol.tree (cwd ++ render f.dentry.place.path) with
      | none => rfl
      | some k =>
        have hk := hwalk.missing w.vol.tree f.dentry.place hpath
          (hiso.node_eq_none_iff.mp hnone) hsymlink
          k hfollow
        simp only [hk]
    · have hdir' := hiso.node_eq_dir_iff.mp hdir
      have hfollow := hwalk.follow w.vol.tree f.dentry.place
        (node_dir_of_node (by simp [hdir'])) hpath
        (by simp [hdir'])
      simp only [hfollow, hdir']
  refine .inr ⟨hopen, hgone.nameless, ?_⟩
  rw [Handle.tracedOp, replayWorld_ofWrite hopen hlen vfs, (closeIf_fileCalls _ _).1]
  rfl

/-! ### Whole runs -/

/-- The log holds the given records, every hashed dentry of an open file leads to the file, and
replaying the records leads to a tree in which every name leads to the counterpart of what it leads
to in the lower one. -/
structure HandleState.Mirrored (takes : ℕ → ℕ → Bool) (walk : PathWalk) (cwd : List UInt8)
    (lower : Tree) (target : FileWorld) (ps : List (FillArgs × CInt)) (s : HandleState) : Prop where
  umask : s.op.sb.umask = -1
  records : s.op.sb.log.Records ps
  leads : ∀ fd f, s.files fd = some f → f.dentry.Leads s.lower.tree (.file f.ino)
  tracked : Namespace.Tracked lower target.vol.tree s.lower.tree
    (replayWorlds (rootCalls takes walk) cwd ps target).vol.tree

variable {lower : Tree} {target : FileWorld} {ps : List (FillArgs × CInt)} {s s' : HandleState}
  {c : HandleCall}

namespace HandleState

/-- An operation that is logged appends its record, and ends with the lower volume and the open
files it has prepared. -/
theorem Mirrored.traced (hs : s.Mirrored takes walk cwd lower target ps) {env : TailEnv}
    (henv : env.Logs) {op : TracedOp} (hfails : ¬op.SymlinkFails) (hfits : op.plan.tail.Fits)
    {vol : FileVolume} {files : ℕ → Option Handle}
    (hfiles : ∀ fd f, files fd = some f → f.dentry.Leads vol.tree (.file f.ino))
    (htracked : Namespace.Tracked lower target.vol.tree vol.tree (op.plan.tail.args.replayWorld
      (rootCalls takes walk) cwd (replayWorlds (rootCalls takes walk) cwd ps target)).vol.tree) :
    ∃ recId, (s.traced env op vol files).Mirrored takes walk cwd lower target
      (ps ++ [(op.plan.tail.args, recId)]) := by
  obtain ⟨op', recId, hrun, hmask, hrecords⟩ := hs.records.traced hs.umask hfails henv hfits
  have htraced : s.traced env op vol files = ⟨vol, files, op', false⟩ := by
    rw [HandleState.traced, hrun]
  rw [htraced]
  refine ⟨recId, hmask, hrecords, hfiles, ?_⟩
  rw [replayWorlds_concat]
  exact htracked

/-- A change of the tree is repeated. -/
theorem Mirrored.changeTree (hwalk : walk.Strict cwd)
    (hs : s.Mirrored takes walk cwd lower target ps) {r : Request} (hlogs : r.Logs cwd)
    (hv : s.lower.tree.verdict r.call = .passes) :
    ∃ p, (s.changeTree r none).Mirrored takes walk cwd lower target (ps ++ [p]) := by
  let vfs := vfsResult (s.lower.change r.call).2
  have hfails : ¬(r.tracedOp vfs).SymlinkFails := by
    intro hfails
    have hne := hlogs.ne_zero_of_symlinkFails hfails
    obtain ⟨call, mode, interpose, env⟩ := r
    cases call with
    | symlink l target => exact hne rfl
    | _ => exact hfails
  have hfiles : ∀ fd f, (if (s.lower.change r.call).2 = none then
      fun fd => (s.files fd).map (Handle.after r.call) else s.files) fd = some f →
      f.dentry.Leads (s.lower.change r.call).1.tree (.file f.ino) := by
    intro fd f hf
    split at hf
    · next hok =>
      obtain ⟨f', hf', rfl⟩ := Option.map_eq_some_iff.mp hf
      exact (hs.leads fd f' hf').change hv hok
    · next hfail =>
      obtain ⟨e, he⟩ := Option.ne_none_iff_exists'.mp hfail
      have hself : (s.lower.tree.perform (.unlimited _ _) r.call).1 = s.lower.tree :=
        Namespace.perform_eq_self he
      change f.dentry.Leads (s.lower.tree.perform (.unlimited _ _) r.call).1 _
      rw [hself]
      exact hs.leads fd f hf
  have htracked : Namespace.Tracked lower target.vol.tree (s.lower.change r.call).1.tree
      ((r.tracedOp vfs).plan.tail.args.replayWorld (rootCalls takes walk) cwd
        (replayWorlds (rootCalls takes walk) cwd ps target)).vol.tree := by
    rw [tree_replayWorld_request hwalk.toPlain hlogs ((hs.tracked.iso.verdict _).symm.trans hv)]
    exact hs.tracked.change hv
  obtain ⟨recId, h⟩ := hs.traced hlogs.env hfails (hlogs.fits vfs) hfiles htracked
  exact ⟨_, h⟩

/-- A write is logged. -/
theorem Mirrored.writeFile (hs : s.Mirrored takes walk cwd lower target ps) {f : Handle}
    (hwritable : f.flags.writable = true) {env : TailEnv} {buf : List UInt8}
    (hsound : f.WriteSound cwd env buf s.lower.tree) (off : ℕ) (vfs : CInt) :
    ∃ recId, (s.writeFile env f buf off vfs).Mirrored takes walk cwd lower target
      (ps ++ [((f.tracedOp buf vfs).plan.tail.args, recId)]) := by
  have hpath : (dentryAt f.dentry.place).path.strlen ≤ 4095 :=
    Nat.le_of_lt_succ (lt_of_le_of_lt (Nat.le_add_left _ _) hsound.path_lt)
  have hcount : 1 ≤ buf.length := List.length_pos_iff.mpr hsound.buf_ne
  have hformat : (f.tracedOp buf vfs).WithinFormat :=
    ⟨hpath, buf, rfl, rfl, hcount, hsound.size_le⟩
  rw [HandleState.writeFile, if_pos hwritable]
  -- whatever was written, the tree has not changed
  have htree : (if 0 < vfs.toInt then s.lower.write f.ino
      (if f.flags.append then (s.lower.data f.ino).length else off) (buf.take vfs.toInt.toNat)
      else s.lower).tree = s.lower.tree := by
    split <;> rfl
  refine hs.traced hsound.env id (TracedOp.fits_of_withinFormat hformat) ?_ ?_
  · rw [htree]
    exact hs.leads
  · rw [htree, tree_replayWorld_write]
    exact hs.tracked

/-- An open file is added. -/
theorem Mirrored.openFile (hs : s.Mirrored takes walk cwd lower target ps) {l : Place FileName}
    {ino : ℕ} (hino : s.lower.tree.node l.path = some (.file ino)) (fd : ℕ) (flags : OpenFlags) :
    { s with
      lower := if flags.trunc then s.lower.truncate ino else s.lower
      files := Function.update s.files fd (some ⟨l.trail, ino, flags⟩) }.Mirrored takes walk cwd
        lower target ps := by
  have htree : (if flags.trunc then s.lower.truncate ino else s.lower).tree = s.lower.tree := by
    split <;> rfl
  refine ⟨hs.umask, hs.records, ?_, ?_⟩
  · intro fd' f hf
    simp only [htree]
    by_cases hfd : fd' = fd
    · simp only [hfd, Function.update_self, Option.some_inj] at hf
      subst hf
      exact Trail.leads_trail hino
    · simp only [Function.update_of_ne hfd] at hf
      exact hs.leads fd' f hf
  · simp only [htree]
    exact hs.tracked

/-- **One system call** keeps the replay of the log in step with the lower tree. -/
theorem Mirrored.step (hwalk : walk.Strict cwd) (hs : s.Mirrored takes walk cwd lower target ps)
    (hc : c.Sound cwd s) (hstep : s.step c = some s') :
    ∃ qs, s'.Mirrored takes walk cwd lower target (ps ++ qs) := by
  have hsame : ∃ qs, s.Mirrored takes walk cwd lower target (ps ++ qs) :=
    ⟨[], by rwa [List.append_nil]⟩
  unfold HandleState.step at hstep
  split at hstep
  · cases hstep
  · cases c with
    | tree r refusal =>
      simp only at hstep
      split at hstep
      · next hv =>
        cases hstep
        obtain ⟨rfl, hlogs⟩ := hc hv
        obtain ⟨p, h⟩ := hs.changeTree hwalk hlogs hv
        exact ⟨[p], h⟩
      · cases hstep
        exact hsame
    | openFile fd l flags =>
      simp only at hstep
      split at hstep
      · cases hstep
      · next ino hfd hino =>
        cases hstep
        exact ⟨[], by rw [List.append_nil]; exact hs.openFile hino fd flags⟩
      · cases hstep
        exact hsame
    | close fd =>
      cases hstep
      refine ⟨[], ?_⟩
      rw [List.append_nil]
      refine ⟨hs.umask, hs.records, ?_, hs.tracked⟩
      intro fd' f hf
      by_cases hfd : fd' = fd
      · simp [hfd] at hf
      · simp only [Function.update_of_ne hfd] at hf
        exact hs.leads fd' f hf
    | write fd buf off vfs env =>
      simp only at hstep
      split at hstep
      · next f hf =>
        cases hstep
        by_cases hwritable : f.flags.writable = true
        · obtain ⟨recId, h⟩ := hs.writeFile hwritable (hc f hf hwritable) off vfs
          exact ⟨_, h⟩
        · rw [HandleState.writeFile, if_neg hwritable]
          exact hsame
      · cases hstep
        exact hsame

/-- A whole run appends records, and keeps the replay in step. -/
theorem Mirrored.run (hwalk : walk.Strict cwd) (hs : s.Mirrored takes walk cwd lower target ps)
    {cs : List HandleCall} (hcs : RunAllowed HandleState.step (HandleCall.Sound cwd) s cs)
    (hrun : LabelledSystem.run HandleState.step s cs = some s') :
    ∃ qs, s'.Mirrored takes walk cwd lower target (ps ++ qs) := by
  have hstart : ∃ qs, s.Mirrored takes walk cwd lower target (ps ++ qs) :=
    ⟨[], by rwa [List.append_nil]⟩
  have hstep (s : HandleState) (c : HandleCall) (s' : HandleState)
      (hs : ∃ qs, s.Mirrored takes walk cwd lower target (ps ++ qs)) (hc : c.Sound cwd s)
      (hstep : s.step c = some s') : ∃ qs, s'.Mirrored takes walk cwd lower target (ps ++ qs) := by
    obtain ⟨qs, hs⟩ := hs
    obtain ⟨qs', h⟩ := hs.step hwalk hc hstep
    exact ⟨qs ++ qs', by rwa [← List.append_assoc]⟩
  exact run_invariant hstep hstart hcs hrun

end HandleState

/-- The tool on the log of a state, after a number of turns of its loop. -/
def HandleState.toolAt (takes : ℕ → ℕ → Bool) (walk : PathWalk) (cwd : List UInt8)
    (target : FileWorld) (m : Mem) (s : HandleState) (n : ℕ) : ReplayState FileWorld :=
  (replayStep ⟨rootCalls takes walk, ⟨false, false⟩, cwd, s.op.sb.log.data⟩)^[n]
    (wholeStart ⟨rootCalls takes walk, ⟨false, false⟩, cwd, s.op.sb.log.data⟩ m target)

/-- **Writes reach the right file.**  Take a run of calls on a new mount over a volume whose tree is
isomorphic to the one below the current directory of the replay tool, and a write of the run.  If
every change of the tree is carried out and logged, and every write is logged within the format and
goes through a dentry that follows its file, then the tool, given the log of the whole run, comes to
the record of the write, and replaying this record opens the counterpart of the file that was
written, or nothing if that file had no name left, and changes no other file. -/
theorem write_reaches (hwalk : walk.Strict cwd) {vol : FileVolume}
    (hiso : vol.tree.Iso target.vol.tree)
    {k : Kernel} {trPage : List UInt8} {cs cs' : List HandleCall} {fd : ℕ} {buf : List UInt8}
    {off : ℕ} {vfs : CInt} {env : TailEnv} {s'' : HandleState}
    (hrun : run HandleState.step (.mounted vol k trPage) cs = some s)
    (hwrite : s.step (.write fd buf off vfs env) = some s')
    (hrun' : run HandleState.step s' cs' = some s'')
    (hcs : RunAllowed HandleState.step (HandleCall.Sound cwd) (.mounted vol k trPage)
      (cs ++ .write fd buf off vfs env :: cs'))
    {f : Handle} (hf : s.files fd = some f) (hwritable : f.flags.writable = true) (m : Mem) :
    ∃ n recId, (s''.toolAt takes walk cwd target m (n + 1)).parsed.map Parsed.record =
        (s''.toolAt takes walk cwd target m n).parsed.map Parsed.record ++
          [(f.tracedOp buf vfs).plan.tail.args.logRecord recId] ∧
      f.Reaches takes walk cwd vol.tree target.vol.tree s.lower.tree
        (s''.toolAt takes walk cwd target m n).locals.world
        (s''.toolAt takes walk cwd target m (n + 1)).locals.world := by
  have hstart : (HandleState.mounted vol k trPage).Mirrored takes walk cwd vol.tree target [] :=
    ⟨rfl, ⟨by simp, rfl⟩, fun fd f hf => (by cases hf), hiso.tracked⟩
  obtain ⟨hcs, hsound, hcs'⟩ := hcs.of_append hrun
  obtain ⟨ps, hs⟩ := hstart.run hwalk hcs hrun
  rw [List.nil_append] at hs
  have hsound := hsound f hf hwritable
  have hcs' := hcs' s' hwrite
  have hs' : s' = s.writeFile env f buf off vfs := by
    unfold HandleState.step at hwrite
    split at hwrite
    · cases hwrite
    · simp only [hf, Option.some_inj] at hwrite
      exact hwrite.symm
  obtain ⟨recId, hmirrored⟩ := hs.writeFile hwritable hsound off vfs
  rw [← hs'] at hmirrored
  obtain ⟨qs, hs''⟩ := hmirrored.run hwalk hcs' hrun'
  -- the record is replayed after those that were logged before
  have hlog := hs''.records
  obtain ⟨hparsed', hworld'⟩ := hlog.turns (rootCalls takes walk) cwd target m
  rw [List.append_assoc] at hlog
  obtain ⟨hparsed, hworld⟩ := hlog.turns (rootCalls takes walk) cwd target m
  rw [List.length_append, List.length_singleton] at hparsed' hworld'
  rw [replayWorlds_concat, ← hworld] at hworld'
  refine ⟨ps.length, recId, ?_, ?_⟩
  · unfold HandleState.toolAt
    rw [hparsed', hparsed, List.map_append]
    rfl
  · unfold HandleState.toolAt
    rw [hworld', hworld]
    rcases hsound.followed with hhashed | hnode | hgone
    · exact reaches_of_file hwalk hiso hs.tracked (hs.leads fd f hf hhashed) hwritable hsound vfs
    · exact reaches_of_file hwalk hiso hs.tracked hnode hwritable hsound vfs
    · have hlen := lt_of_le_of_lt hsound.length_le (by decide : 32767 < 65536)
      exact reaches_of_gone hwalk hs.tracked.iso hgone hsound.path_lt hlen vfs

/-! ### A name that is used again -/

/-- A file `/d` is created and opened, and then the tree is changed. -/
def keptOpen (calls : List (Call FileName SymTarget)) : List HandleCall :=
  [.tree (.plain (.create ⟨[], nameD⟩)) none, .openFile 3 ⟨[], nameD⟩ ⟨oWRONLY⟩] ++
    calls.map fun c => .tree (.plain c) none

/-- A byte is written through the open file. -/
def lateWrite : HandleCall :=
  .write 3 [120] 0 1 .working

/-- The file, after it was renamed to `/e`. -/
def handleRenamed : Handle :=
  ⟨Place.trail ⟨[], nameE⟩, 0, ⟨oWRONLY⟩⟩

/-- The file, after its name was removed. -/
def handleRemoved : Handle :=
  ⟨⟨[], ⟨nameD, false⟩⟩, 0, ⟨oWRONLY⟩⟩

/-- The tool, started in an empty directory on the log of a state, after a number of turns. -/
def toolTurns (s : HandleState) (n : ℕ) : ReplayState FileWorld :=
  s.toolAt (fun _ _ => false) (.plain replayDir) replayDir emptyWorld (fun _ => 0) n

/-- Calls with short paths are allowed, and so is a write through the renamed file. -/
theorem sound_renamed : RunAllowed HandleState.step (HandleCall.Sound replayDir)
    (.mounted emptyVolume ⟨-1, [], []⟩ [])
    (keptOpen [.rename ⟨[], nameD⟩ ⟨[], nameE⟩] ++ [lateWrite]) := by
  have hfile : (run HandleState.step (.mounted emptyVolume ⟨-1, [], []⟩ [])
      (keptOpen [.rename ⟨[], nameD⟩ ⟨[], nameE⟩])).map (fun s => s.files 3) =
      some (some handleRenamed) := by
    decide +kernel
  have hlogs : TailEnv.working.Logs := ⟨⟨rfl, rfl⟩, rfl, rfl⟩
  refine runAllowed_of_take ?_
  intro n c hc s hrun
  match n, hc with
  | 0, rfl => exact fun _ => ⟨rfl, Request.logs_plain (by decide)⟩
  | 1, rfl => trivial
  | 2, rfl => exact fun _ => ⟨rfl, Request.logs_plain (by decide)⟩
  | 3, rfl =>
    rw [show run HandleState.step _ (keptOpen [.rename ⟨[], nameD⟩ ⟨[], nameE⟩]) = some s from hrun,
      Option.map_some, Option.some_inj] at hfile
    intro f hf _
    cases hfile.symm.trans hf
    exact ⟨hlogs, by simp, by decide, by decide, .inl (by decide)⟩

/-- A write through a file that was renamed is replayed to this file. -/
theorem write_reaches_renamed :
    ∃ s s' n, run HandleState.step (.mounted emptyVolume ⟨-1, [], []⟩ [])
        (keptOpen [.rename ⟨[], nameD⟩ ⟨[], nameE⟩]) = some s ∧
      s.files 3 = some handleRenamed ∧ s.step lateWrite = some s' ∧
      handleRenamed.Reaches (fun _ _ => false) (.plain replayDir) replayDir emptyVolume.tree
        emptyWorld.vol.tree s.lower.tree (toolTurns s' n).locals.world
        (toolTurns s' (n + 1)).locals.world := by
  have hfile : (run HandleState.step (.mounted emptyVolume ⟨-1, [], []⟩ [])
      (keptOpen [.rename ⟨[], nameD⟩ ⟨[], nameE⟩])).map (fun s => (s.files 3, s.stuck)) =
      some (some handleRenamed, false) := by
    decide +kernel
  obtain ⟨s, hrun, hs⟩ := Option.map_eq_some_iff.mp hfile
  obtain ⟨hf, hstuck⟩ := Prod.mk.injEq _ _ _ _ ▸ hs
  have hwrite : s.step lateWrite = some (s.writeFile .working handleRenamed [120] 0 1) := by
    simp [HandleState.step, lateWrite, hstuck, hf]
  obtain ⟨n, recId, -, hreaches⟩ := write_reaches (PathWalk.plain_strict replayDir)
    (show emptyVolume.tree.Iso emptyWorld.vol.tree from .refl _) hrun hwrite rfl sound_renamed hf
    (by decide) fun _ => 0
  exact ⟨s, _, n, hrun, hf, hwrite, hreaches⟩

/-- What the tool opens for a write through the removed name. -/
def toolOpens (s' : HandleState) : FileWorld × ℤ :=
  (rootCalls (fun _ _ => false) (.plain replayDir)).openFlags (replayDir ++ render [nameD])
    handleRemoved.flags.fFlags (toolTurns s' 3).locals.world

/-- A name that was removed and given to a new file: the write through the old one is replayed to
the new one. -/
theorem not_write_reaches_reused :
    ∃ s s', run HandleState.step (.mounted emptyVolume ⟨-1, [], []⟩ [])
        (keptOpen [.unlink ⟨[], nameD⟩, .create ⟨[], nameD⟩]) = some s ∧
      s.files 3 = some handleRemoved ∧ s.step lateWrite = some s' ∧
      s'.lower.contents [nameD] = some [] ∧
      (toolTurns s' 4).locals.world.vol.contents [nameD] = some [120] ∧
      ¬handleRemoved.Reaches (fun _ _ => false) (.plain replayDir) replayDir emptyVolume.tree
        emptyWorld.vol.tree s.lower.tree (toolTurns s' 3).locals.world
        (toolTurns s' 4).locals.world := by
  have hfile : (run HandleState.step (.mounted emptyVolume ⟨-1, [], []⟩ [])
      (keptOpen [.unlink ⟨[], nameD⟩, .create ⟨[], nameD⟩])).map (fun s => (s.files 3, s.stuck)) =
      some (some handleRemoved, false) := by
    decide +kernel
  have hreplay : (run HandleState.step (.mounted emptyVolume ⟨-1, [], []⟩ [])
      (keptOpen [.unlink ⟨[], nameD⟩, .create ⟨[], nameD⟩])).map (fun s =>
        let s' := s.writeFile .working handleRemoved [120] 0 1
        (s'.lower.contents [nameD], (toolTurns s' 4).locals.world.vol.contents [nameD],
          (toolOpens s').2, ((toolOpens s').1.fds 5).map Descriptor.ino,
          (toolTurns s' 3).locals.world.nextFd)) =
      some (some [], some [120], 5, some 1, 5) := by
    decide +kernel
  obtain ⟨s, hrun, hs⟩ := Option.map_eq_some_iff.mp hfile
  rw [hrun, Option.map_some, Option.some_inj] at hreplay
  simp only [Prod.mk.injEq] at hs hreplay
  obtain ⟨hf, hstuck⟩ := hs
  obtain ⟨hlower, hreplayed, hfd, hino, hnext⟩ := hreplay
  have hwrite : s.step lateWrite = some (s.writeFile .working handleRemoved [120] 0 1) := by
    simp [HandleState.step, lateWrite, hstuck, hf]
  refine ⟨s, _, hrun, hf, hwrite, hlower, hreplayed, ?_⟩
  rintro (⟨i, hopen, hcounterpart, -⟩ | ⟨hopen, -⟩)
  · -- the new file is opened, which is not the counterpart of the old one
    have hi : i = 1 := by
      rw [show toolOpens _ = _ from hopen, ← hnext] at hino
      simp only [FileWorld.openIno, Function.update_self, Option.map_some, Option.some_inj] at hino
      exact hino
    have hself : i = 0 := ((hcounterpart 0).mp (.inr ⟨0, rfl, rfl⟩)).symm
    rw [hself] at hi
    cases hi
  · rw [show toolOpens _ = _ from hopen] at hfd
    cases hfd

end Trfs
