import TraceFileSystem.Lib.Machine
import TraceFileSystem.Stack.LowerPaths

/-!
# Positions in directories

An open directory of trfs has a position of its own and an open lower directory with a position.
`trfs_readdir` reads the lower directory and copies its position, and `trfs_file_llseek` seeks in
both.  Positions are `loff_t`, sixty-four bits, but `trfs_file_llseek` keeps the result of each seek
in an `int`.

* `genericFileLlseek` is the seek of the kernel, which accepts a position between zero and
  `s_maxbytes`, and `iterateDir` the function through which the VFS reads a directory.
* `DirFile.step` is one call, and `KeepsTogether` says what is expected of it.

A position whose bit `31` is set looks like an error after the first seek, and one above `2 ^ 32` is
not returned as it is; `keepsTogether_iff` shows that nothing else can go wrong.
-/

namespace Trfs

namespace Positions

open LabelledSystem Posix

/-- The C type `loff_t`. -/
abbrev Loff := BitVec 64

/-- The ways to seek. -/
inductive Whence where
  | seekSet
  | seekCur
  deriving DecidableEq

/-- An open directory: `f_pos` of the file and of the lower file. -/
@[ext] structure DirFile where
  fPos : Loff
  lowerFPos : Loff
  deriving DecidableEq

/-- A directory that was just opened. -/
def DirFile.opened : DirFile := ⟨0, 0⟩

/-- The position to which a seek would lead. -/
def target (fPos offset : Loff) : Whence → Loff
  | .seekSet => offset
  | .seekCur => fPos + offset

/-- The position is one that can be sought to. -/
def Accepted (maxbytes pos : Loff) : Prop := 0 ≤ pos.toInt ∧ pos.toInt ≤ maxbytes.toInt

instance (maxbytes pos : Loff) : Decidable (Accepted maxbytes pos) :=
  inferInstanceAs (Decidable (_ ∧ _))

/-- `generic_file_llseek`: the position afterwards and the value returned. -/
def genericFileLlseek (maxbytes fPos offset : Loff) (whence : Whence) : Loff × Loff :=
  if Accepted maxbytes (target fPos offset whence) then
    (target fPos offset whence, target fPos offset whence)
  else (fPos, BitVec.ofInt 64 (-Errno.inval.code))

/-- `trfs_file_llseek`.  The results of both seeks go through an `int`. -/
def trfsFileLlseek (maxbytes : Loff) (f : DirFile) (offset : Loff) (whence : Whence) :
    DirFile × Loff :=
  let upper := genericFileLlseek maxbytes f.fPos offset whence
  let err : CInt := upper.2.setWidth 32
  if err.toInt < 0 then ({ f with fPos := upper.1 }, err.signExtend 64)
  else
    let lower := genericFileLlseek maxbytes f.lowerFPos offset whence
    let err : CInt := lower.2.setWidth 32
    (⟨upper.1, lower.1⟩, err.signExtend 64)

/-- What `iterate_dir` does to the lower directory: it refuses, because of permissions or because
the directory was removed, or lets the lower file system move the position. -/
inductive LowerIterate where
  | refused (e : Errno)
  | iterated (pos : Loff) (ret : CInt)
  deriving DecidableEq

/-- `trfs_readdir`: the files afterwards, the position in the context and the value returned. -/
def trfsReaddir (f : DirFile) (ctx : Loff) : LowerIterate → DirFile × Loff × CInt
  | .refused e => ({ f with fPos := f.lowerFPos }, ctx, BitVec.ofInt 32 (-e.code))
  | .iterated pos ret => (⟨pos, pos⟩, pos, ret)

/-- `iterate_dir`, through which the VFS calls `trfs_readdir` unless it refuses itself.  It passes
the position of the file in the context, and takes it back from there. -/
def iterateDir (refuses : Bool) (f : DirFile) (lower : LowerIterate) : DirFile :=
  if refuses then f
  else
    let (f', ctx, _) := trfsReaddir f f.fPos lower
    { f' with fPos := ctx }

/-- Calls on an open directory. -/
inductive DirCall where
  | readdir (refuses : Bool) (lower : LowerIterate)
  | llseek (offset : Loff) (whence : Whence)
  deriving DecidableEq

namespace DirFile

variable (maxbytes : Loff) (f : DirFile)

/-- The files after a call. -/
def after : DirCall → DirFile
  | .readdir refuses lower => iterateDir refuses f lower
  | .llseek offset whence => (trfsFileLlseek maxbytes f offset whence).1

/-- One call of a sequence. -/
def step (c : DirCall) : Option DirFile := some (f.after maxbytes c)

/-- Both positions are the same after a call, and when `trfs_readdir` returns to `iterate_dir`.  A
seek to a position that can be sought to has led both files there and returns it, and any other seek
has left them as they were and returns a negated error number. -/
def KeepsTogether (c : DirCall) : Prop :=
  (f.after maxbytes c).fPos = (f.after maxbytes c).lowerFPos ∧
    match c with
    | .readdir _ lower =>
      (trfsReaddir f f.fPos lower).1.fPos = (trfsReaddir f f.fPos lower).1.lowerFPos
    | .llseek offset whence =>
      if Accepted maxbytes (target f.fPos offset whence) then
        f.after maxbytes c = ⟨target f.fPos offset whence, target f.fPos offset whence⟩ ∧
          (trfsFileLlseek maxbytes f offset whence).2 = target f.fPos offset whence
      else f.after maxbytes c = f ∧
        ∃ e : Errno, (trfsFileLlseek maxbytes f offset whence).2.toInt = -e.code

/-- A seek does not lead to `2 ^ 31` or behind it. -/
def SeeksLow : DirCall → Prop
  | .readdir _ _ => True
  | .llseek offset whence =>
    Accepted maxbytes (target f.fPos offset whence) → (target f.fPos offset whence).toInt < 2 ^ 31

end DirFile

/-! ### Positions and `int` -/

/-- A position below `2 ^ 31` keeps its value in an `int`. -/
theorem toInt_setWidth_of_lt {pos : Loff} (h : 0 ≤ pos.toInt) (hlt : pos.toInt < 2 ^ 31) :
    (pos.setWidth 32).toInt = pos.toInt := by
  have hnat : (pos.toNat : ℤ) = pos.toInt := by
    rw [BitVec.toInt_eq_toNat_cond] at h ⊢
    split_ifs at h ⊢ <;> omega
  rw [BitVec.toInt_setWidth, hnat, Int.bmod_eq_of_le (by omega) (by omega)]

/-- A position is returned as it is if and only if it is below `2 ^ 31`. -/
theorem signExtend_setWidth_eq_iff {pos : Loff} (h : 0 ≤ pos.toInt) :
    (pos.setWidth 32).signExtend 64 = pos ↔ pos.toInt < 2 ^ 31 := by
  rw [← BitVec.toInt_inj, BitVec.toInt_signExtend_of_le (by norm_num)]
  constructor
  · intro heq
    have hlt := (pos.setWidth 32).toInt_lt
    rw [heq] at hlt
    exact hlt
  · exact toInt_setWidth_of_lt h

/-! ### Seeks -/

variable {maxbytes : Loff} {f : DirFile} {offset : Loff} {whence : Whence}

/-- A seek that is not accepted fails before the lower file is touched. -/
theorem trfsFileLlseek_refused (h : ¬Accepted maxbytes (target f.fPos offset whence)) :
    trfsFileLlseek maxbytes f offset whence = (f, BitVec.ofInt 64 (-22)) := by
  have hseek : genericFileLlseek maxbytes f.fPos offset whence =
      (f.fPos, BitVec.ofInt 64 (-22)) := if_neg h
  have hneg : ((BitVec.ofInt 64 (-22)).setWidth 32 : CInt).toInt < 0 := by decide
  have hret : ((BitVec.ofInt 64 (-22)).setWidth 32 : CInt).signExtend 64 =
      BitVec.ofInt 64 (-22) := by decide
  simp only [trfsFileLlseek, hseek, if_pos hneg, hret]

/-- A seek that is accepted returns the position as it comes out of an `int`. -/
theorem snd_trfsFileLlseek (hf : f.fPos = f.lowerFPos)
    (h : Accepted maxbytes (target f.fPos offset whence)) :
    (trfsFileLlseek maxbytes f offset whence).2 =
      ((target f.fPos offset whence).setWidth 32).signExtend 64 := by
  have hseek : genericFileLlseek maxbytes f.fPos offset whence =
      (target f.fPos offset whence, target f.fPos offset whence) := if_pos h
  rw [trfsFileLlseek, ← hf, hseek]
  dsimp only
  split <;> rfl

/-- If the position is below `2 ^ 31`, both files are there. -/
theorem fst_trfsFileLlseek (hf : f.fPos = f.lowerFPos)
    (h : Accepted maxbytes (target f.fPos offset whence))
    (hlt : (target f.fPos offset whence).toInt < 2 ^ 31) :
    (trfsFileLlseek maxbytes f offset whence).1 =
      ⟨target f.fPos offset whence, target f.fPos offset whence⟩ := by
  have hseek : genericFileLlseek maxbytes f.fPos offset whence =
      (target f.fPos offset whence, target f.fPos offset whence) := if_pos h
  have hnonneg : ¬((target f.fPos offset whence).setWidth 32).toInt < 0 := by
    rw [toInt_setWidth_of_lt h.1 hlt]
    exact not_lt.mpr h.1
  rw [trfsFileLlseek, ← hf, hseek]
  exact congrArg Prod.fst (if_neg hnonneg)

/-- Reading a directory copies the position of the lower file. -/
theorem trfsReaddir_together (f : DirFile) (ctx : Loff) (lower : LowerIterate) :
    (trfsReaddir f ctx lower).1.fPos = (trfsReaddir f ctx lower).1.lowerFPos := by
  cases lower <;> rfl

/-- The VFS leaves it there. -/
theorem iterateDir_together (hf : f.fPos = f.lowerFPos) (refuses : Bool) (lower : LowerIterate) :
    (iterateDir refuses f lower).fPos = (iterateDir refuses f lower).lowerFPos := by
  cases refuses with
  | true => exact hf
  | false =>
    cases lower with
    | refused e => exact hf
    | iterated pos ret => rfl

/-- One call on files whose positions are the same. -/
theorem DirFile.keepsTogether_call_iff (hf : f.fPos = f.lowerFPos) (c : DirCall) :
    f.KeepsTogether maxbytes c ↔ f.SeeksLow maxbytes c := by
  cases c with
  | readdir refuses lower =>
    exact iff_of_true ⟨iterateDir_together hf refuses lower, trfsReaddir_together f f.fPos lower⟩
      trivial
  | llseek offset whence =>
    unfold KeepsTogether SeeksLow
    by_cases h : Accepted maxbytes (target f.fPos offset whence)
    · simp only [h, if_true, true_imp_iff, snd_trfsFileLlseek hf h]
      constructor
      · rintro ⟨-, -, hret⟩
        exact (signExtend_setWidth_eq_iff h.1).mp hret
      · intro hlt
        have hboth : f.after maxbytes (.llseek offset whence) = _ := fst_trfsFileLlseek hf h hlt
        rw [hboth]
        exact ⟨rfl, rfl, (signExtend_setWidth_eq_iff h.1).mpr hlt⟩
    · have hsame : f.after maxbytes (.llseek offset whence) = f :=
        congrArg Prod.fst (trfsFileLlseek_refused h)
      simp only [h, if_false, hsame, trfsFileLlseek_refused h]
      exact iff_of_true ⟨hf, trivial, .inval, by decide⟩ fun habs => habs.elim

/-- **Both positions move together.**  Take any sequence of reads and seeks on a directory that was
just opened.  After every call the positions are the same, and the seek has returned where they are
or an error, if and only if no seek leads to a position at or above `2 ^ 31`. -/
theorem keepsTogether_iff (maxbytes : Loff) (cs : List DirCall) :
    RunAllowed (DirFile.step maxbytes) (DirFile.KeepsTogether maxbytes) .opened cs ↔
      RunAllowed (DirFile.step maxbytes) (DirFile.SeeksLow maxbytes) .opened cs := by
  have hiff (f : DirFile) (c : DirCall) (hf : f.fPos = f.lowerFPos) :
      f.KeepsTogether maxbytes c ↔ f.SeeksLow maxbytes c :=
    DirFile.keepsTogether_call_iff hf c
  refine runAllowed_congr hiff (fun f c f' _ hc hstep => ?_) rfl
  cases hstep
  exact hc.1

/-- The largest position of a file system with files of `2 ^ 44` bytes. -/
def maxbytes44 : Loff := BitVec.ofNat 64 (2 ^ 44)

/-- A seek to `2 ^ 31` moves the upper file only. -/
theorem not_keepsTogether_llseek :
    ¬RunAllowed (DirFile.step maxbytes44) (DirFile.KeepsTogether maxbytes44) .opened
      [.llseek (BitVec.ofNat 64 (2 ^ 31)) .seekSet] := by
  rintro ⟨⟨htogether, -⟩, -⟩
  revert htogether
  decide

end Positions

end Trfs
