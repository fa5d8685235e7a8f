import Mathlib.Tactic

/-!
# Error numbers

The numbers by which system calls and functions of the kernel report a failure.  They are positive
and below the page size, so that a negated error number is neither zero nor a valid pointer.
-/

namespace Posix

/-- An error number, as a system call sets it or a kernel function returns it negated. -/
@[ext] structure Errno where
  code : ℕ
  pos : 0 < code
  le : code ≤ 4095
  deriving DecidableEq

namespace Errno

/-- `EPERM`. -/
def perm : Errno := ⟨1, by decide, by decide⟩

/-- `ENOENT`. -/
def noent : Errno := ⟨2, by decide, by decide⟩

/-- `ENXIO`. -/
def nxio : Errno := ⟨6, by decide, by decide⟩

/-- `EBADF`. -/
def badf : Errno := ⟨9, by decide, by decide⟩

/-- `ENOMEM`. -/
def nomem : Errno := ⟨12, by decide, by decide⟩

/-- `EEXIST`. -/
def exist : Errno := ⟨17, by decide, by decide⟩

/-- `ENOTDIR`. -/
def notdir : Errno := ⟨20, by decide, by decide⟩

/-- `EISDIR`. -/
def isdir : Errno := ⟨21, by decide, by decide⟩

/-- `EINVAL`. -/
def inval : Errno := ⟨22, by decide, by decide⟩

/-- `ENOTEMPTY`. -/
def notempty : Errno := ⟨39, by decide, by decide⟩

/-- A negated error number is a negative `int`. -/
theorem toInt_neg (e : Errno) : (BitVec.ofInt 32 (-e.code)).toInt = -e.code := by
  have hpos := e.pos
  have hle := e.le
  rw [BitVec.toInt_ofInt, Int.bmod_eq_of_le (by omega) (by omega)]

/-- It is not zero. -/
theorem neg_ne_zero (e : Errno) : BitVec.ofInt 32 (-e.code) ≠ 0 := by
  intro h
  have hpos := e.pos
  have hint := e.toInt_neg
  rw [h] at hint
  change (0 : ℤ) = _ at hint
  omega

end Errno

end Posix
