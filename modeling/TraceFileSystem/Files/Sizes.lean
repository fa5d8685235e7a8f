import TraceFileSystem.Lib.Machine
import TraceFileSystem.Lib.RegularFiles
import TraceFileSystem.Stack.LowerPaths

/-!
# The size of a file

A regular file of trfs has an inode with a size of its own, which `trfs_getattr` reports.  It is
copied from the lower inode after a write.  A change of the size goes the other way: `trfs_setattr`
sets the size of its own inode first and then asks the lower file system.

* `trfsWrite`, `trfsWriteIter`, `trfsSetattr` and `trfsGetattr` are the operations on the attributes
  of both inodes, with what the kernel and the lower file system return.  A lower call that fails
  leaves the lower inode as it is.
* `FileAttrs.KeepsInStep` says what is expected of a call.

When `notify_change` refuses a new size, the inode of trfs keeps it (`keepsInStep_iff`).
-/

namespace Trfs

namespace Sizes

open LabelledSystem Posix Fsstack

/-- The inodes of a file: that of trfs and the lower one. -/
structure FileAttrs where
  upper : InodeAttrs
  lower : InodeAttrs
  deriving DecidableEq

/-- The inodes after `trfs_iget` has set up a new one. -/
def FileAttrs.interposed (lower : InodeAttrs) : FileAttrs where
  upper := copyInodeSize (copyAttrAll .blank lower) lower
  lower := lower

/-- What a lower write does: it returns the number of bytes and leaves the lower inode with new
attributes, or fails. -/
inductive LowerWrite where
  | written (n : ℕ) (le : n ≤ maxRwCount) (after : InodeAttrs)
  | failed (e : Errno)

namespace LowerWrite

/-- The value a lower write returns, a `ssize_t`. -/
def ret : LowerWrite → BitVec 64
  | written n _ _ => BitVec.ofNat 64 n
  | failed e => BitVec.ofInt 64 (-e.code)

/-- The lower inode after a lower write. -/
def after (lower : InodeAttrs) : LowerWrite → InodeAttrs
  | written _ _ a => a
  | failed _ => lower

end LowerWrite

/-- Both inodes after a lower write, the size and the times being copied or not. -/
def FileAttrs.wrote (s : FileAttrs) (w : LowerWrite) (copies : Bool) : FileAttrs where
  upper :=
    if copies then copyAttrTimes (copyInodeSize s.upper (w.after s.lower)) (w.after s.lower)
    else s.upper
  lower := w.after s.lower

/-- `trfs_write` up to its logging tail.  The result of `vfs_write` is kept in an `int`. -/
def trfsWrite (s : FileAttrs) (w : LowerWrite) : FileAttrs × CInt :=
  let err : CInt := w.ret.setWidth 32
  (s.wrote w (0 ≤ err.toInt), err)

/-- `trfs_write_iter`, for a lower file that may have no such operation. -/
def trfsWriteIter (s : FileAttrs) : Option LowerWrite → FileAttrs × CInt
  | none => (s, negEINVAL)
  | some w =>
    let err : CInt := w.ret.setWidth 32
    (s.wrote w (0 ≤ err.toInt ∨ err = negEIOCBQUEUED), err)

/-! ### Changes of attributes -/

/-- `ATTR_MODE`. -/
def attrMode : CInt := 1#32 <<< 0

/-- `ATTR_SIZE`. -/
def attrSize : CInt := 1#32 <<< 3

/-- `ATTR_KILL_SUID`. -/
def attrKillSuid : CInt := 1#32 <<< 11

/-- `ATTR_KILL_SGID`. -/
def attrKillSgid : CInt := 1#32 <<< 12

/-- `struct iattr`: the attributes to be changed, and the new size. -/
structure Iattr where
  iaValid : CInt
  iaSize : ℤ
  deriving DecidableEq

/-- The size is to be changed. -/
def Iattr.HasSize (ia : Iattr) : Prop := ia.iaValid &&& attrSize ≠ 0

instance (ia : Iattr) : Decidable ia.HasSize := inferInstanceAs (Decidable (_ ≠ _))

/-- What the functions that `trfs_setattr` calls return: no error, or one; and for `notify_change`
the attributes of the lower inode afterwards, apart from the size. -/
structure SetattrEnv where
  inodeChangeOk : Option Errno
  inodeNewsizeOk : Option Errno
  notifyChange : Except Errno InodeAttrs

/-- `lower_ia` of `trfs_setattr`: the mode is left to the lower file system when bits of it are to
be cleared. -/
def Iattr.lowerIa (ia : Iattr) : Iattr :=
  if ia.iaValid &&& (attrKillSuid ||| attrKillSgid) ≠ 0 then
    { ia with iaValid := ia.iaValid &&& ~~~attrMode }
  else ia

/-- The lower inode after a `notify_change` that succeeds: the size is the new one, if there is
one. -/
def notifyChanged (ia : Iattr) (lower after : InodeAttrs) : InodeAttrs :=
  { after with size := if ia.HasSize then ia.iaSize else lower.size }

/-- `trfs_setattr` from `notify_change` on. -/
def setattrLower (s : FileAttrs) (ia : Iattr) : Except Errno InodeAttrs → FileAttrs × CInt
  | .error e => (s, BitVec.ofInt 32 (-e.code))
  | .ok after =>
    let lower := notifyChanged ia.lowerIa s.lower after
    (⟨copyAttrAll s.upper lower, lower⟩, 0)

/-- `trfs_setattr`. -/
def trfsSetattr (s : FileAttrs) (ia : Iattr) (env : SetattrEnv) : FileAttrs × CInt :=
  match env.inodeChangeOk with
  | some e => (s, BitVec.ofInt 32 (-e.code))
  | none =>
    if ia.HasSize then
      match env.inodeNewsizeOk with
      | some e => (s, BitVec.ofInt 32 (-e.code))
      | none =>
        -- truncate_setsize
        setattrLower { s with upper := { s.upper with size := ia.iaSize } } ia env.notifyChange
    else setattrLower s ia env.notifyChange

/-- `trfs_getattr`, with the number of blocks that `vfs_getattr` finds: the inodes afterwards, and
what is reported. -/
def trfsGetattr (s : FileAttrs) : Except Errno ℕ → FileAttrs × Except Errno InodeAttrs
  | .error e => (s, .error e)
  | .ok blocks =>
    let upper := copyAttrAll s.upper s.lower
    ({ s with upper := upper }, .ok { upper with blocks := blocks })

/-! ### Sequences of calls -/

/-- Calls on a file, with what the lower file system does. -/
inductive FileCall where
  | write (w : LowerWrite)
  | writeIter (w : Option LowerWrite)
  | setattr (ia : Iattr) (env : SetattrEnv)
  | getattr (vfs : Except Errno ℕ)

namespace FileAttrs

variable (s : FileAttrs)

/-- The inodes after a call. -/
def after : FileCall → FileAttrs
  | .write w => (trfsWrite s w).1
  | .writeIter w => (trfsWriteIter s w).1
  | .setattr ia env => (trfsSetattr s ia env).1
  | .getattr vfs => (trfsGetattr s vfs).1

/-- One call of a sequence. -/
def step (c : FileCall) : Option FileAttrs := some (s.after c)

/-- Both inodes have the same size after a call.  A change of attributes that fails leaves the size
as it was, and the size that is reported is that of the lower inode. -/
def KeepsInStep (c : FileCall) : Prop :=
  (s.after c).upper.size = (s.after c).lower.size ∧
    match c with
    | .write _ | .writeIter _ => True
    | .setattr ia env =>
      (trfsSetattr s ia env).2 ≠ 0 → (s.after c).upper.size = s.upper.size
    | .getattr vfs => ∀ stat, (trfsGetattr s vfs).2 = .ok stat → stat.size = s.lower.size

/-- A new size that the checks let through, and that is not the size of the file, is not refused by
the lower file system. -/
def TakesSize : FileCall → Prop
  | .setattr ia env =>
    ia.HasSize → env.inodeChangeOk = none → env.inodeNewsizeOk = none →
      ia.iaSize ≠ s.lower.size → ∃ after, env.notifyChange = .ok after
  | .write _ | .writeIter _ | .getattr _ => True

end FileAttrs

/-! ### One call -/

variable {s : FileAttrs}

/-- The number of bytes of a lower write is not negative as an `int`. -/
theorem toInt_ret_written {n : ℕ} (h : n ≤ maxRwCount) (a : InodeAttrs) :
    (((LowerWrite.written n h a).ret.setWidth 32 : CInt)).toInt = n := by
  have hle : n ≤ 2147479552 := h
  rw [LowerWrite.ret, BitVec.setWidth_ofNat_of_le (by norm_num), BitVec.toInt_ofNat',
    Int.bmod_eq_of_le (by omega) (by omega)]

/-- After a lower write both sizes are the same if they were before or if the size is copied. -/
theorem size_wrote {w : LowerWrite} {copies : Bool}
    (h : copies = true ∨ (∃ e, w = .failed e) ∧ s.upper.size = s.lower.size) :
    (s.wrote w copies).upper.size = (s.wrote w copies).lower.size := by
  rcases h with rfl | ⟨⟨e, rfl⟩, hs⟩
  · rfl
  · cases copies with
    | true => rfl
    | false => exact hs

/-- A write keeps both sizes in step. -/
theorem size_trfsWrite (hs : s.upper.size = s.lower.size) (w : LowerWrite) :
    (trfsWrite s w).1.upper.size = (trfsWrite s w).1.lower.size := by
  refine size_wrote ?_
  cases w with
  | written n h a =>
    left
    rw [toInt_ret_written]
    exact decide_eq_true (Int.natCast_nonneg n)
  | failed e => exact .inr ⟨⟨e, rfl⟩, hs⟩

/-- So does the other way to write. -/
theorem size_trfsWriteIter (hs : s.upper.size = s.lower.size) (w : Option LowerWrite) :
    (trfsWriteIter s w).1.upper.size = (trfsWriteIter s w).1.lower.size := by
  cases w with
  | none => exact hs
  | some w =>
    refine size_wrote ?_
    cases w with
    | written n h a =>
      left
      rw [toInt_ret_written]
      exact decide_eq_true (.inl (Int.natCast_nonneg n))
    | failed e => exact .inr ⟨⟨e, rfl⟩, hs⟩

/-- The bit that is cleared for the lower file system is not that of the size. -/
theorem Iattr.hasSize_lowerIa (ia : Iattr) : ia.lowerIa.HasSize ↔ ia.HasSize := by
  have hmask : ~~~attrMode &&& attrSize = attrSize := by decide
  unfold lowerIa HasSize
  split
  · rw [BitVec.and_assoc, hmask]
  · rfl

/-- The new size is passed on. -/
theorem Iattr.iaSize_lowerIa (ia : Iattr) : ia.lowerIa.iaSize = ia.iaSize := by
  unfold lowerIa
  split <;> rfl

/-- The lower size after a change of attributes. -/
theorem size_notifyChanged (ia : Iattr) (lower after : InodeAttrs) :
    (notifyChanged ia.lowerIa lower after).size = if ia.HasSize then ia.iaSize else lower.size := by
  simp only [notifyChanged, ia.hasSize_lowerIa, ia.iaSize_lowerIa]

/-- A change without a new size. -/
theorem keepsInStep_of_not_hasSize (hs : s.upper.size = s.lower.size) {ia : Iattr}
    (hia : ¬ia.HasSize) (env : SetattrEnv) : s.KeepsInStep (.setattr ia env) := by
  cases hok : env.inodeChangeOk with
  | some e =>
    simp only [FileAttrs.KeepsInStep, FileAttrs.after, trfsSetattr, hok]
    exact ⟨hs, fun _ => trivial⟩
  | none =>
    simp only [FileAttrs.KeepsInStep, FileAttrs.after, trfsSetattr, hok, if_neg hia]
    cases env.notifyChange with
    | error e => exact ⟨hs, fun _ => rfl⟩
    | ok after =>
      refine ⟨?_, fun hne => absurd rfl hne⟩
      rw [setattrLower, size_notifyChanged, if_neg hia]
      exact hs

/-- A change with a new size keeps both sizes in step if and only if the lower file system does not
refuse it, or it is the old one. -/
theorem keepsInStep_iff_of_hasSize (hs : s.upper.size = s.lower.size) {ia : Iattr}
    (hia : ia.HasSize) (env : SetattrEnv) :
    s.KeepsInStep (.setattr ia env) ↔ s.TakesSize (.setattr ia env) := by
  cases hok : env.inodeChangeOk with
  | some e =>
    simp only [FileAttrs.KeepsInStep, FileAttrs.after, FileAttrs.TakesSize, trfsSetattr, hok]
    exact iff_of_true ⟨hs, fun _ => trivial⟩ fun _ habs => by cases habs
  | none =>
    cases hnew : env.inodeNewsizeOk with
    | some e =>
      simp only [FileAttrs.KeepsInStep, FileAttrs.after, FileAttrs.TakesSize, trfsSetattr, hok,
        hnew, if_pos hia]
      exact iff_of_true ⟨hs, fun _ => trivial⟩ fun _ _ habs => by cases habs
    | none =>
      simp only [FileAttrs.KeepsInStep, FileAttrs.after, FileAttrs.TakesSize, trfsSetattr, hok,
        hnew, if_pos hia]
      cases hnotify : env.notifyChange with
      | ok after =>
        refine iff_of_true ⟨?_, fun hne => absurd rfl hne⟩ fun _ _ _ _ => ⟨after, rfl⟩
        rw [setattrLower, size_notifyChanged, if_pos hia]
        rfl
      | error e =>
        -- the new size stays, and the lower file system has kept the old one
        constructor
        · rintro ⟨hsize, -⟩ - - - hne
          exact absurd hsize hne
        · intro h
          have heq : ia.iaSize = s.lower.size := by
            by_contra hne
            obtain ⟨after, hafter⟩ := h hia trivial trivial hne
            cases hafter
          exact ⟨heq, fun _ => heq.trans hs.symm⟩

/-- One call on inodes with the same size. -/
theorem FileAttrs.keepsInStep_call_iff (hs : s.upper.size = s.lower.size) (c : FileCall) :
    s.KeepsInStep c ↔ s.TakesSize c := by
  cases c with
  | write w => exact iff_of_true ⟨size_trfsWrite hs w, trivial⟩ trivial
  | writeIter w => exact iff_of_true ⟨size_trfsWriteIter hs w, trivial⟩ trivial
  | getattr vfs =>
    refine iff_of_true ⟨?_, ?_⟩ trivial
    · cases vfs <;> exact hs
    · intro stat hstat
      cases vfs with
      | error e => cases hstat
      | ok blocks =>
        cases hstat
        exact hs
  | setattr ia env =>
    by_cases hia : ia.HasSize
    · exact keepsInStep_iff_of_hasSize hs hia env
    · exact iff_of_true (keepsInStep_of_not_hasSize hs hia env) fun h => absurd h hia

/-- **The size stays in step.**  Take any sequence of writes, changes of attributes and requests for
them on a file that has just been looked up, with any failures.  After every call both inodes have
the same size, and a change that fails leaves it as it was, if and only if the lower file system
refuses no new size which both checks have let through. -/
theorem keepsInStep_iff (lower : InodeAttrs) (cs : List FileCall) :
    RunAllowed FileAttrs.step FileAttrs.KeepsInStep (.interposed lower) cs ↔
      RunAllowed FileAttrs.step FileAttrs.TakesSize (.interposed lower) cs := by
  have hiff (s : FileAttrs) (c : FileCall) (hs : s.upper.size = s.lower.size) :
      s.KeepsInStep c ↔ s.TakesSize c :=
    FileAttrs.keepsInStep_call_iff hs c
  refine runAllowed_congr hiff (fun s c s' _ hc hstep => ?_) rfl
  cases hstep
  exact hc.1

/-- A file is truncated, and the lower file system fails with `ENOMEM`. -/
def failingTruncate : FileCall :=
  .setattr ⟨attrSize, 0⟩ ⟨none, none, .error .nomem⟩

/-- A lower file of one byte. -/
def oneByte : InodeAttrs := { InodeAttrs.blank with size := 1 }

/-- Then a file of one byte is reported to be empty. -/
theorem not_keepsInStep_truncate :
    ¬RunAllowed FileAttrs.step FileAttrs.KeepsInStep (.interposed oneByte) [failingTruncate] := by
  rintro ⟨⟨hsize, -⟩, -⟩
  revert hsize
  decide

end Sizes

end Trfs
