import TraceFileSystem.Lib.OpenFlags
import TraceFileSystem.Ops.TracedOps

/-!
# The two write paths

A trfs file has two entries for writing (`trfs/file.c`): `trfs_write` for `write(2)`, and
`trfs_write_iter` for vectored, asynchronous and spliced writes.  Both hand the data to the lower
file and copy size and times of its inode to the upper inode; the first one then runs a logging
tail.

The lower file is a parameter: a state, its `write` and `write_iter`, and the attributes of its
inode.  `LowerFile.Agree` is what is assumed of it, that the two functions do the same for the same
bytes and flags.  The flags are not the same: a write through `trfs_write` has those of the lower
file, as it was opened, and one through `trfs_write_iter` those of the trfs file, which `fcntl` can
change.

`sameEffect_iff` compares the two paths for every segmentation of the data: they agree exactly when
the flags make no difference and `trfs_write` leaves no trace either.
-/

namespace Trfs

open Posix

variable {L A : Type*}

/-! ### The lower file -/

/-- What `iocb_flags` puts into a `kiocb`. -/
structure IocbFlags where
  append : Bool
  direct : Bool
  deriving DecidableEq

/-- `iocb_flags` of a trfs file with the given `f_flags`. -/
def iocbFlags (fFlags : CInt) : IocbFlags where
  append := flagsHave fFlags oAPPEND
  direct := flagsHave fFlags oDIRECT

/-- The lower file: its state `L`, its two write functions, which are given the flags of a `kiocb`
and return the new state, the new position and the result, and the size and times of its inode. -/
structure LowerFile (L A : Type*) where
  /-- `iocb_flags` of the lower file. -/
  flags : IocbFlags
  write : IocbFlags → L → ℤ → List UInt8 → L × ℤ × CInt
  writeIter : IocbFlags → L → ℤ → List (List UInt8) → L × ℤ × CInt
  /-- Whether `f_op->write_iter` is there. -/
  hasWriteIter : Bool
  attrs : L → A

/-- The two write functions of the lower file agree: there is a `write_iter`, under the same flags
it does to any segments what `write` does to their concatenation, and it never returns before the
write is done. -/
structure LowerFile.Agree (f : LowerFile L A) : Prop where
  hasWriteIter : f.hasWriteIter = true
  writeIter_eq : ∀ flags l pos segs, f.writeIter flags l pos segs = f.write flags l pos segs.flatten
  synchronous : ∀ flags l pos data, (f.write flags l pos data).2.2 ≠ negEIOCBQUEUED

/-! ### The two entries -/

/-- What a write works on: the lower file, size and times of the upper inode, and the superblock
with its locks. -/
structure WriteState (L A : Type*) where
  lower : L
  upper : A
  op : OpState

/-- `trfs_write`: the state afterwards, the new position and the value returned.  `vfs_write` makes
a `kiocb` for the lower file, so that the flags are those of the lower file. -/
def LowerFile.trfsWrite (f : LowerFile L A) (env : TailEnv) (dentry : PosDentry) (fFlags : CInt)
    (pos : ℤ) (data : List UInt8) (s : WriteState L A) :
    Except Fault (WriteState L A × ℤ × CInt) :=
  let w := f.write f.flags s.lower pos data
  let upper := if 0 ≤ w.2.2.toInt then f.attrs w.1 else s.upper
  match (Trfs.trfsWrite dentry fFlags (.user data) data.length w.2.2).run env s.op with
  | .error fault => .error fault
  | .ok (op, ret) => .ok (⟨w.1, upper, op⟩, w.2.1, ret)

/-- `trfs_write_iter`.  The `kiocb` was made for the trfs file and is passed on with its flags. -/
def LowerFile.trfsWriteIter (f : LowerFile L A) (fFlags : CInt) (pos : ℤ)
    (segs : List (List UInt8)) (s : WriteState L A) : Except Fault (WriteState L A × ℤ × CInt) :=
  if f.hasWriteIter = false then .ok (s, pos, negEINVAL)
  else
    let w := f.writeIter (iocbFlags fFlags) s.lower pos segs
    let upper := if 0 ≤ w.2.2.toInt ∨ w.2.2 = negEIOCBQUEUED then f.attrs w.1 else s.upper
    .ok (⟨w.1, upper, s.op⟩, w.2.1, w.2.2)

/-- Two writes had the same effect: the same lower file, upper attributes, position and result, and
the same records in the log. -/
def SameEffect (r r' : Except Fault (WriteState L A × ℤ × CInt)) : Prop :=
  ∃ s s' pos ret, r = .ok (s, pos, ret) ∧ r' = .ok (s', pos, ret) ∧
    s.lower = s'.lower ∧ s.upper = s'.upper ∧
    s.op.sb.log.committed = s'.op.sb.log.committed ∧ s.op.sb.log.fPos = s'.op.sb.log.fPos

/-- The lower file does the same under the flags of the trfs file as under its own. -/
def LowerFile.SameUnder (f : LowerFile L A) (fFlags : CInt) (l : L) (pos : ℤ) (data : List UInt8) :
    Prop :=
  f.write (iocbFlags fFlags) l pos data = f.write f.flags l pos data

/-- It does when the flags are the same, as they are when `trfs_open` has opened the lower file with
the flags of the trfs file. -/
theorem LowerFile.sameUnder_of_eq {f : LowerFile L A} {fFlags : CInt}
    (h : iocbFlags fFlags = f.flags) (l : L) (pos : ℤ) (data : List UInt8) :
    f.SameUnder fFlags l pos data := by
  rw [SameUnder, h]

section

variable {f : LowerFile L A} (env : TailEnv) (dentry : PosDentry) (fFlags : CInt) (pos : ℤ)
  (segs : List (List UInt8)) (s : WriteState L A)

/-- `trfs_write_iter` on a lower file whose write functions agree: the effect of the lower write,
and nothing else. -/
theorem LowerFile.Agree.trfsWriteIter_eq (h : f.Agree) :
    f.trfsWriteIter fFlags pos segs s =
      let w := f.write (iocbFlags fFlags) s.lower pos segs.flatten
      .ok (⟨w.1, if 0 ≤ w.2.2.toInt then f.attrs w.1 else s.upper, s.op⟩, w.2.1, w.2.2) := by
  have hsync := h.synchronous (iocbFlags fFlags) s.lower pos segs.flatten
  simp only [trfsWriteIter, h.hasWriteIter, h.writeIter_eq, hsync, or_false]
  rfl

/-- The two paths have the same effect exactly when the lower file does the same under both flags
and the logging tail of `trfs_write` leaves the records of the log alone. -/
theorem LowerFile.Agree.sameEffect_iff_log (h : f.Agree) {op : OpState}
    (hrun : (Trfs.trfsWrite dentry fFlags (.user segs.flatten) segs.flatten.length
        (f.write f.flags s.lower pos segs.flatten).2.2).run env s.op =
      .ok (op, (f.write f.flags s.lower pos segs.flatten).2.2)) :
    SameEffect (f.trfsWriteIter fFlags pos segs s)
        (f.trfsWrite env dentry fFlags pos segs.flatten s) ↔
      f.SameUnder fFlags s.lower pos segs.flatten ∧
        s.op.sb.log.committed = op.sb.log.committed ∧ s.op.sb.log.fPos = op.sb.log.fPos := by
  rw [h.trfsWriteIter_eq]
  simp only [trfsWrite, hrun]
  constructor
  · rintro ⟨s₁, s₂, pos', ret, h₁, h₂, hlower, -, hlog⟩
    simp only [Except.ok.injEq, Prod.mk.injEq] at h₁ h₂
    obtain ⟨rfl, hpos, hret⟩ := h₁
    obtain ⟨rfl, rfl, rfl⟩ := h₂
    exact ⟨Prod.ext hlower (Prod.ext hpos hret), hlog⟩
  · rintro ⟨hsame, hlog⟩
    rw [hsame]
    exact ⟨_, _, _, _, rfl, rfl, rfl, rfl, hlog⟩

/-- A traced write that gets its pages: the two paths agree exactly when the lower file does the
same under both flags and neither write to the log completes. -/
theorem sameEffect_iff_of_traced (hagree : f.Agree) (hpath : dentry.path.strlen ≤ 4095)
    (hne : 1 ≤ segs.flatten.length)
    (hsize : headerSize + dentry.path.strlen + segs.flatten.length ≤ 32767)
    (hpos : 0 ≤ s.op.sb.log.fPos) (htype : traces s.op.sb.umask .fwrite)
    (hpages : env.pages.available) :
    SameEffect (f.trfsWriteIter fFlags pos segs s)
        (f.trfsWrite env dentry fFlags pos segs.flatten s) ↔
      f.SameUnder fFlags s.lower pos segs.flatten ∧
        (env.header ≠ .complete ∧ env.aux ≠ .complete) := by
  let p := Trfs.trfsWrite dentry fFlags (.user segs.flatten) segs.flatten.length
    (f.write f.flags s.lower pos segs.flatten).2.2
  have hinode : p.tail.inode = some dentry.inode := rfl
  have hfits : p.tail.Fits :=
    FillArgs.framed_ofWrite (Nat.lt_succ_of_le hpath) (List.length_pos_iff.mp hne) hsize
  obtain ⟨op, hrun, hlog, -⟩ := Plan.run_of_traced hinode htype hpages hfits
  have hbytes : p.tail.args.auxBytes = segs.flatten := rfl
  have haux : p.tail.args.auxLogged = segs.flatten :=
    FillArgs.auxLogged_eq_of_lt (by rw [hbytes]; omega)
  rw [hagree.sameEffect_iff_log env dentry fFlags pos segs s hrun, hlog]
  refine and_congr_right fun _ => ?_
  constructor
  · rintro ⟨-, hfpos⟩
    have hhead := (p.tail.args.logRecord (s.op.kernel.trecordId + 1)).headerCount_pos
    rw [LogRecord.fPos_logAfter hpos, show (p.tail.args.logRecord _).aux = segs.flatten from haux]
      at hfpos
    constructor
    · intro hheader
      rw [if_pos hheader] at hfpos
      split at hfpos <;> omega
    · intro hdata
      rw [if_pos hdata] at hfpos
      split at hfpos <;> omega
  · rintro ⟨hheader, hdata⟩
    obtain ⟨hfpos, hcommitted⟩ := LogRecord.logAfter_incomplete hheader (.inr hdata)
    exact ⟨hcommitted.symm, hfpos.symm⟩

/-- A write that is not traced, or gets no pages, has the same effect through both paths exactly
when the lower file does the same under both flags. -/
theorem sameEffect_iff_of_untraced (hagree : f.Agree)
    (h : ¬traces s.op.sb.umask .fwrite ∨ ¬env.pages.available) :
    SameEffect (f.trfsWriteIter fFlags pos segs s)
        (f.trfsWrite env dentry fFlags pos segs.flatten s) ↔
      f.SameUnder fFlags s.lower pos segs.flatten := by
  let p := Trfs.trfsWrite dentry fFlags (.user segs.flatten) segs.flatten.length
    (f.write f.flags s.lower pos segs.flatten).2.2
  have hinode : p.tail.inode = some dentry.inode := rfl
  obtain ⟨op, hrun, hsb⟩ := Plan.run_of_untraced hinode h
  rw [hagree.sameEffect_iff_log env dentry fFlags pos segs s hrun, hsb]
  exact and_iff_left ⟨rfl, rfl⟩

/-- **The two write paths.**  For data within the format, written through a lower file whose two
write functions agree, `trfs_write_iter` has the effect of `trfs_write` if and only if the lower
file does the same under the flags of the trfs file as under its own, and `trfs_write` appends
nothing to the log: writes are not traced, a page is missing, or neither write to the log
completes. -/
theorem sameEffect_iff (hagree : f.Agree) (hpath : dentry.path.strlen ≤ 4095)
    (hne : 1 ≤ segs.flatten.length)
    (hsize : headerSize + dentry.path.strlen + segs.flatten.length ≤ 32767)
    (hpos : 0 ≤ s.op.sb.log.fPos) :
    SameEffect (f.trfsWriteIter fFlags pos segs s)
        (f.trfsWrite env dentry fFlags pos segs.flatten s) ↔
      f.SameUnder fFlags s.lower pos segs.flatten ∧
        (¬traces s.op.sb.umask .fwrite ∨ ¬env.pages.available ∨
          (env.header ≠ .complete ∧ env.aux ≠ .complete)) := by
  by_cases htraced : traces s.op.sb.umask .fwrite ∧ env.pages.available
  · rw [sameEffect_iff_of_traced env dentry fFlags pos segs s hagree hpath hne hsize hpos htraced.1
      htraced.2]
    simp only [htraced.1, htraced.2, not_true_eq_false, false_or]
  · have huntraced := not_and_or.mp htraced
    rw [sameEffect_iff_of_untraced env dentry fFlags pos segs s hagree huntraced, ← or_assoc]
    exact (and_iff_left (.inl huntraced)).symm

end

/-- A lower file that stores what it is given, at its end in append mode; its only attribute is its
length. -/
def storingFile (flags : IocbFlags) : LowerFile (List UInt8) ℕ where
  flags := flags
  write fl l pos data :=
    let pos := if fl.append then (l.length : ℤ) else pos
    (ByteStore.pwrite l pos.toNat data, pos + data.length, BitVec.ofNat 32 (data.length % 32768))
  writeIter fl l pos segs :=
    let pos := if fl.append then (l.length : ℤ) else pos
    (ByteStore.pwrite l pos.toNat segs.flatten, pos + segs.flatten.length,
      BitVec.ofNat 32 (segs.flatten.length % 32768))
  hasWriteIter := true
  attrs := List.length

/-- Its write functions agree. -/
theorem agree_storingFile (flags : IocbFlags) : (storingFile flags).Agree where
  hasWriteIter := rfl
  writeIter_eq _ _ _ _ := rfl
  synchronous _ l pos data := by
    intro h
    have hlt : (BitVec.ofNat 32 (data.length % 32768)).toNat < 32768 := by
      rw [BitVec.toNat_ofNat]
      omega
    have hbig : negEIOCBQUEUED.toNat = 4294966767 := by decide
    rw [show BitVec.ofNat 32 (data.length % 32768) = negEIOCBQUEUED from h, hbig] at hlt
    omega

/-- An open `/l` and an empty lower file on a new mount. -/
def writeStateL : WriteState (List UInt8) ℕ where
  lower := []
  upper := 0
  op := .mounted

/-- An open `/l` and a lower file of one byte. -/
def writeStateByte : WriteState (List UInt8) ℕ :=
  { writeStateL with lower := [120] }

/-- A tail that gets no pages. -/
def TailEnv.noPages : TailEnv where
  pages := ⟨none, none⟩
  header := .complete
  aux := .complete

/-- Without pages neither path is logged, and at the end of the file append mode makes no
difference. -/
theorem sameEffect_noPages :
    SameEffect ((storingFile ⟨true, false⟩).trfsWriteIter 1 0 [[97], [98]] writeStateL)
      ((storingFile ⟨true, false⟩).trfsWrite .noPages ⟨dentryL, ⟨0⟩⟩ 1 0 [97, 98] writeStateL) :=
  (sameEffect_iff _ _ _ _ [[97], [98]] _ (agree_storingFile _) (by decide) (by decide) (by decide)
    le_rfl).mpr ⟨rfl, .inr (.inl (by decide))⟩

/-- A traced write of two bytes in two segments is logged by `trfs_write` only.  With the lower file
in append mode and the trfs file no longer, a write at the beginning goes to different places. -/
theorem not_sameEffect_twoSegments :
    ¬SameEffect ((storingFile ⟨false, false⟩).trfsWriteIter 1 0 [[97], [98]] writeStateL)
        ((storingFile ⟨false, false⟩).trfsWrite .working ⟨dentryL, ⟨0⟩⟩ 1 0 [97, 98] writeStateL) ∧
      ¬SameEffect ((storingFile ⟨true, false⟩).trfsWriteIter 1 0 [[97]] writeStateByte)
        ((storingFile ⟨true, false⟩).trfsWrite .noPages ⟨dentryL, ⟨0⟩⟩ 1 0 [97]
          writeStateByte) := by
  constructor
  · intro hsame
    have hincomplete := (sameEffect_iff_of_traced .working ⟨dentryL, ⟨0⟩⟩ 1 0 [[97], [98]]
      writeStateL (agree_storingFile _) (by decide) (by decide) (by decide) le_rfl (by decide)
      (by decide)).mp hsame
    exact hincomplete.2.1 rfl
  · intro hsame
    have hunder := (sameEffect_iff_of_untraced .noPages ⟨dentryL, ⟨0⟩⟩ 1 0 [[97]] writeStateByte
      (agree_storingFile ⟨true, false⟩) (.inr (by decide))).mp hsame
    have hlower := congrArg Prod.fst hunder
    exact absurd hlower (by decide)

end Trfs
