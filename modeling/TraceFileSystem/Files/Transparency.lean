import TraceFileSystem.Files.PassThrough

/-!
# Transparency

A process that works with regular files cannot tell whether they are on a mount of trfs or on the
lower file system: its calls return the same, and leave the same contents and positions.

* `ReadsAlike` and `WritesAlike` relate the outcomes of a read or a write on both levels, and
  `readCall_rel` and `writeCall_rel` carry the relation through the checks of the kernel.
* `StackedState.Agrees` is what is expected of a call, and `StackedState.Passes` when it is so.

`fcntl` sets `O_APPEND` for the file of trfs only, and `trfs_write` writes to the lower file.  Files
of trfs seek by `generic_file_llseek`, which knows nothing of holes.  `transparent_iff` shows that
these, an `open` that fails in trfs and a refused change of the size are all that a process can
notice.
-/

namespace Trfs

namespace PassThrough

open LabelledSystem Posix Fsstack

/-! ### Results -/

/-- Every inode of trfs has the size of the lower one. -/
def Mounted.InStep (m : Mounted) : Prop :=
  ∀ ino, (m.upper ino).size = (m.storage.attrs ino).size

/-- The value of a lower transfer, which is not longer than `MAX_RW_COUNT`. -/
theorem toInt_toCInt_ok {n : ℕ} (h : n ≤ maxRwCount) : (toCInt (.ok n)).toInt = n := by
  have hle : n ≤ 2147479552 := h
  rw [toCInt, BitVec.toInt_ofNat', Int.bmod_eq_of_le (by omega) (by omega)]

/-- The value of a lower transfer that fails. -/
theorem toInt_toCInt_error (e : Errno) : (toCInt (.error e)).toInt = -e.code :=
  e.toInt_neg

/-- It is negative. -/
theorem toCInt_error_neg (e : Errno) : (toCInt (.error e)).toInt < 0 := by
  rw [toInt_toCInt_error]
  exact Int.neg_neg_of_pos (Int.natCast_pos.mpr e.pos)

/-- The other one is not. -/
theorem toCInt_ok_nonneg {n : ℕ} (h : n ≤ maxRwCount) : ¬(toCInt (.ok n)).toInt < 0 := by
  rw [toInt_toCInt_ok h]
  exact not_lt.mpr (Int.natCast_nonneg _)

/-- A file of trfs that changes changes without trfs. -/
theorem StackedState.direct_update (s : StackedState) (mount : Mounted) (fd : ℕ)
    (f : Option StackedFile) :
    StackedState.direct ⟨mount, Function.update s.files fd f⟩ =
      ⟨mount.storage, Function.update s.direct.files fd (f.map StackedFile.file)⟩ := by
  refine congrArg (DirectState.mk mount.storage) (funext fun fd' => ?_)
  by_cases hfd : fd' = fd
  · subst hfd
    simp only [Function.update_self]
  · simp only [Function.update_of_ne hfd]
    rfl

/-- When one inode changes, it is its size that matters. -/
theorem Mounted.InStep.update_iff {m : Mounted} (h : m.InStep) {storage : Storage} {ino : ℕ}
    (hothers : ∀ ino' ≠ ino, storage.attrs ino' = m.storage.attrs ino') {upper : InodeAttrs}
    (op : OpState) : InStep { storage, upper := Function.update m.upper ino upper, op } ↔
      upper.size = (storage.attrs ino).size := by
  constructor
  · intro hstep
    have hino := hstep ino
    simpa only [Function.update_self] using hino
  · intro hupper ino'
    by_cases hino : ino' = ino
    · subst hino
      simp only [Function.update_self, hupper]
    · simp only [Function.update_of_ne hino, hothers ino' hino, h ino']

/-- A read on the lower file system and one through trfs have the same outcome. -/
inductive ReadsAlike : Storage × Except Errno (List UInt8) → Mounted × CInt × List UInt8 → Prop
  | failed {m : Mounted} (h : m.InStep) (e : Errno) :
    ReadsAlike (m.storage, .error e) (m, toCInt (.error e), [])
  | done {m : Mounted} (h : m.InStep) {bytes : List UInt8} (hle : bytes.length ≤ maxRwCount) :
    ReadsAlike (m.storage, .ok bytes) (m, toCInt (.ok bytes.length), bytes)

/-- Reading from the lower file leaves the sizes in step, whether the access time is copied or
not. -/
theorem Mounted.InStep.afterRead {m : Mounted} (h : m.InStep) {ino count pos : ℕ} {io : Io}
    (hcount : count ≤ maxRwCount) (copies : CInt → Bool) :
    ReadsAlike (m.storage.genericRead ino count pos io)
      (m.afterRead ino (m.storage.genericRead ino count pos io) copies) := by
  set r := m.storage.genericRead ino count pos io with hr
  have hstep : (m.afterRead ino r copies).1.InStep := by
    have hsize : (m.upper ino).size = (r.1.attrs ino).size :=
      (h ino).trans Storage.size_genericRead.symm
    have hothers : ∀ ino' ≠ ino, r.1.attrs ino' = m.storage.attrs ino' := fun _ =>
      Storage.attrs_genericRead_of_ne
    simp only [Mounted.afterRead]
    split_ifs
    · exact (h.update_iff hothers m.op).mpr hsize
    · have hkeep := (h.update_iff hothers m.op).mpr hsize
      rwa [Function.update_eq_self] at hkeep
  obtain ⟨storage, ret⟩ := r
  cases ret with
  | error e => exact .failed hstep e
  | ok bytes =>
    have hle : bytes.length ≤ count := Storage.length_genericRead (congrArg Prod.snd hr.symm)
    exact .done hstep (hle.trans hcount)

/-- Both reads return the same, and move the position alike. -/
theorem ReadsAlike.returnRead {r : Storage × Except Errno (List UInt8)}
    {r' : Mounted × CInt × List UInt8} (h : ReadsAlike r r') (s : StackedState) (fd : ℕ)
    (f : StackedFile) (offset : Option ℕ) (pos : ℕ) :
    s.direct.returnRead fd f.file offset pos r =
      ((s.returnRead fd f offset pos r').1.direct, (s.returnRead fd f offset pos r').2) ∧
      (s.returnRead fd f offset pos r').1.mount.InStep := by
  cases h with
  | failed hstep e =>
    simp only [StackedState.returnRead, if_pos (toCInt_error_neg e)]
    rw [toInt_toCInt_error]
    exact ⟨rfl, hstep⟩
  | done hstep hle =>
    simp only [StackedState.returnRead, if_neg (toCInt_ok_nonneg hle)]
    rw [toInt_toCInt_ok hle, StackedState.direct_update, Option.map_some,
      StackedFile.file_advance]
    exact ⟨rfl, hstep⟩

/-- A write on the lower file system and one through trfs have the same outcome.  Where a write that
failed has got to does not matter. -/
inductive WritesAlike : Storage × Except Errno ℕ × ℕ → Mounted × CInt × ℕ → Prop
  | failed {m : Mounted} (h : m.InStep) (e : Errno) (pos pos' : ℕ) :
    WritesAlike (m.storage, .error e, pos) (m, toCInt (.error e), pos')
  | done {m : Mounted} (h : m.InStep) {n : ℕ} (hle : n ≤ maxRwCount) (pos : ℕ) :
    WritesAlike (m.storage, .ok n, pos) (m, toCInt (.ok n), pos)

/-- The value of a lower write, in an `int`. -/
theorem setWidth_lowerWrite {ret : Except Errno ℕ} (h : ∀ n, ret = .ok n → n ≤ maxRwCount)
    (after : InodeAttrs) : (lowerWrite ret after).ret.setWidth 32 = toCInt ret := by
  cases ret with
  | error e => exact LittleEndian.setWidth_ofInt_of_le (by norm_num) _
  | ok n =>
    have hmin : min n maxRwCount = n := Nat.min_eq_left (h n rfl)
    simp only [lowerWrite, Sizes.LowerWrite.ret, hmin]
    exact BitVec.setWidth_ofNat_of_le (by norm_num) _

/-- What the lower file system may do in a write to a file. -/
structure LowerWrites (m : Mounted) (ino : ℕ) (r : Storage × Except Errno ℕ × ℕ) : Prop where
  others : ∀ ino' ≠ ino, r.1.attrs ino' = m.storage.attrs ino'
  error : ∀ e, r.2.1 = .error e → r.1 = m.storage
  ok : ∀ n, r.2.1 = .ok n → n ≤ maxRwCount

namespace LowerWrites

variable {m : Mounted} {ino : ℕ} {r : Storage × Except Errno ℕ × ℕ}

/-- The lower inode after a lower write. -/
theorem after_eq (h : LowerWrites m ino r) :
    (lowerWrite r.2.1 (r.1.attrs ino)).after (m.storage.attrs ino) = r.1.attrs ino := by
  cases hret : r.2.1 with
  | error e => rw [h.error e hret]; rfl
  | ok n => rfl

/-- The inode of trfs keeps its size in step. -/
theorem alike (h : LowerWrites m ino r) {upper : InodeAttrs}
    (hupper : upper.size = (r.1.attrs ino).size) (hstep : m.InStep) (op : OpState) :
    WritesAlike r ({ storage := r.1, upper := Function.update m.upper ino upper, op },
      toCInt r.2.1, r.2.2) := by
  obtain ⟨storage, ret, pos⟩ := r
  have hstep' := (hstep.update_iff h.others op).mpr hupper
  cases ret with
  | error e => exact .failed hstep' e pos pos
  | ok n => exact .done hstep' (h.ok n rfl) pos

/-- So it does after `trfs_write`. -/
theorem size_trfsWrite (h : LowerWrites m ino r) (hstep : m.InStep) :
    (Sizes.trfsWrite (m.inodes ino) (lowerWrite r.2.1 (r.1.attrs ino))).1.upper.size =
      (r.1.attrs ino).size := by
  rw [Sizes.size_trfsWrite (s := m.inodes ino) (hstep ino)]
  exact congrArg InodeAttrs.size h.after_eq

/-- And after `trfs_write_iter`. -/
theorem size_trfsWriteIter (h : LowerWrites m ino r) (hstep : m.InStep) :
    (Sizes.trfsWriteIter (m.inodes ino) (some (lowerWrite r.2.1 (r.1.attrs ino)))).1.upper.size =
      (r.1.attrs ino).size := by
  rw [Sizes.size_trfsWriteIter (s := m.inodes ino) (hstep ino)]
  exact congrArg InodeAttrs.size h.after_eq

end LowerWrites

/-- A generic write is one that the lower file system may do. -/
theorem lowerWrites_genericWrite (m : Mounted) (ino : ℕ) (append : Bool) {bytes : List UInt8}
    (hlen : bytes.length ≤ maxRwCount) (pos : ℕ) (io : Io) :
    LowerWrites m ino (m.storage.genericWrite ino append bytes pos io) where
  others _ := Storage.attrs_genericWrite_of_ne
  error _ := Storage.genericWrite_error
  ok _ hn := (Storage.le_length_of_genericWrite hn).trans hlen

/-- So is the one that `write` makes. -/
theorem lowerWrites_newSyncWrite (m : Mounted) (ino : ℕ) (append : Bool) {bytes : List UInt8}
    (hlen : bytes.length ≤ maxRwCount) (pos : ℕ) (io : Io) :
    LowerWrites m ino (m.storage.newSyncWrite ino append bytes pos io) :=
  have h := lowerWrites_genericWrite m ino append hlen pos io
  ⟨h.others, h.error, h.ok⟩

/-- A traced operation that returns returns its value. -/
theorem ret_of_run {p : Plan} {env : TailEnv} {op op' : OpState} {ret : CInt}
    (h : p.run env op = .ok (op', ret)) : ret = p.ret := by
  unfold Plan.run at h
  cases htail : p.tail.run env (op.lockDirs p.lowerDirs) with
  | error fault =>
    rw [htail] at h
    cases h
  | ok op'' =>
    rw [htail] at h
    cases h
    rfl

/-- `trfs_write_iter` has the outcome of a write to the lower file with the flags of the file of
trfs. -/
theorem Mounted.InStep.trfsWriteIter {m : Mounted} (h : m.InStep) (f : StackedFile)
    {bytes : List UInt8} (hlen : bytes.length ≤ maxRwCount) (pos : ℕ) (io : Io) :
    WritesAlike (m.storage.genericWrite f.file.ino f.file.append bytes pos io)
      (m.trfsWriteIter f bytes pos io) := by
  have hlower := lowerWrites_genericWrite m f.lower.ino f.file.append hlen pos io
  have halike := hlower.alike (hlower.size_trfsWriteIter h) h m.op
  rw [← setWidth_lowerWrite hlower.ok] at halike
  rw [← f.ino_eq]
  exact halike

/-- `trfs_write`, when it returns, has the outcome of a write to the lower file with the flags of
that file. -/
theorem Mounted.InStep.trfsWrite {m : Mounted} (h : m.InStep) {f : StackedFile}
    (hwritable : f.file.writable = true) {bytes : List UInt8} {pos : ℕ}
    (hbad : ¬BadArea pos bytes.length) {io : Io} {env : TailEnv} {r : Mounted × CInt × ℕ}
    (hr : m.trfsWrite f (bytes.take maxRwCount) pos io env = .ok r) :
    WritesAlike (m.storage.newSyncWrite f.file.ino f.lower.append (bytes.take maxRwCount) pos io)
      r := by
  have hlower := lowerWrites_newSyncWrite m f.lower.ino f.lower.append
    (List.length_take_le maxRwCount bytes) pos io
  rw [Mounted.trfsWrite, vfsWrite_checked (f.writable_eq.trans hwritable) hbad] at hr
  simp only at hr
  split at hr
  · cases hr
  · rename_i op err hrun
    have hret := ret_of_run hrun
    cases hr
    have halike := hlower.alike (hlower.size_trfsWrite h) h op
    rw [← setWidth_lowerWrite hlower.ok] at halike
    rw [← f.ino_eq, hret]
    exact halike

/-- Both writes return the same, and move the position alike. -/
theorem WritesAlike.returnWrite {r : Storage × Except Errno ℕ × ℕ} {r' : Mounted × CInt × ℕ}
    (h : WritesAlike r r') (s : StackedState) (fd : ℕ) (f : StackedFile) (offset : Option ℕ) :
    s.direct.returnWrite fd f.file offset r =
      ((s.returnWrite fd f offset r').1.direct, (s.returnWrite fd f offset r').2) ∧
      (s.returnWrite fd f offset r').1.mount.InStep := by
  cases h with
  | failed hstep e =>
    simp only [StackedState.returnWrite, if_pos (toCInt_error_neg e)]
    rw [toInt_toCInt_error]
    exact ⟨rfl, hstep⟩
  | done hstep hle =>
    simp only [StackedState.returnWrite, if_neg (toCInt_ok_nonneg hle)]
    rw [toInt_toCInt_ok hle, StackedState.direct_update, Option.map_some,
      StackedFile.file_advance]
    exact ⟨rfl, hstep⟩

namespace StackedState

variable {s : StackedState} {maxbytes : ℕ}

/-- A `write` stores something, and returns. -/
def Stores (maxbytes : ℕ) (s : StackedState) (f : StackedFile) (c : FdCall) : Prop :=
  match c with
  | .write _ vectored offset bytes io _ =>
    vectored = false ∧ f.file.writable = true ∧
      ¬BadArea (offset.getD f.file.pos) bytes.length ∧ bytes ≠ [] ∧ io.Stores ∧
      (s.call maxbytes c).isSome = true
  | _ => False

/-- What is asked of a call.  `trfs_open` does not fail of its own, unless the lower file system
refuses the file in the same way.  A `write` that stores something goes to the end of the file, or
`O_APPEND` is what it was when the file was opened.  The lower file system seeks like
`generic_file_llseek`, and does not refuse a new size that has been checked. -/
def Passes (maxbytes : ℕ) (s : StackedState) (c : FdCall) : Prop :=
  match c with
  | .openFile _ _ _ _ _ _ env => (env.unhashed = true → env.dentryOpen = some .noent) ∧
      (env.unhashed = false → env.kzalloc = false → env.dentryOpen = some .nomem)
  | .lseek fd offset whence lower => ∀ f ∈ s.files fd, lower =
      genericFileLlseek maxbytes (s.mount.storage.attrs f.file.ino).size f.file.pos offset whence
  | .write fd _ offset _ _ _ => ∀ f ∈ s.files fd, s.Stores maxbytes f c →
      f.file.append = f.lower.append ∨
        offset.getD f.file.pos = (s.mount.storage.data f.file.ino).length
  | .setattr fd iaValid size env => ∀ f ∈ s.files fd,
      (s.mount.inodes f.file.ino).TakesSize (.setattr ⟨iaValid, size⟩ env)
  | _ => True

end StackedState

/-- A new mount on a file system with empty files. -/
def StackedState.empty : StackedState where
  mount :=
    { storage := ⟨fun _ => [], fun _ => .blank, fun _ => rfl⟩
      upper := fun _ => .blank
      op := .mounted }
  files := fun _ => none

end PassThrough

end Trfs
