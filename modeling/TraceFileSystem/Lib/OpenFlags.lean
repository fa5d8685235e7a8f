import Mathlib.Tactic

/-!
# Opening files

The flags that `open` is called with, the flags an open file keeps, and the permissions that are
checked when it is opened.

* `OpenFlags.fFlags` are the flags of the open file.  Those that are about the call only are gone,
  and all the others stay: `OpenFlags.fFlags_and`.  So a file that is opened again with the flags of
  an open file is opened in the same mode, and is not emptied.
* `Permissions.allows` is the check of the permission bits, for the owner, the group or the others.
-/

namespace Posix

/-! ### Flags -/

/-- `O_WRONLY`. -/
def oWRONLY : BitVec 32 := 1

/-- `O_RDWR`. -/
def oRDWR : BitVec 32 := 2

/-- `O_CREAT`. -/
def oCREAT : BitVec 32 := 0x40

/-- `O_EXCL`. -/
def oEXCL : BitVec 32 := 0x80

/-- `O_NOCTTY`. -/
def oNOCTTY : BitVec 32 := 0x100

/-- `O_TRUNC`. -/
def oTRUNC : BitVec 32 := 0x200

/-- `O_APPEND`. -/
def oAPPEND : BitVec 32 := 0x400

/-- `O_DIRECT`. -/
def oDIRECT : BitVec 32 := 0x4000

/-- `O_LARGEFILE`, which the kernel sets for every process. -/
def oLARGEFILE : BitVec 32 := 0x8000

/-- Flags with a certain bit. -/
def flagsHave (flags bit : BitVec 32) : Bool :=
  flags &&& bit ≠ 0

/-- Flags that allow to write.  The access mode 3 does not. -/
def flagsWritable (flags : BitVec 32) : Bool :=
  flags &&& 3 = oWRONLY ∨ flags &&& 3 = oRDWR

/-- The flags a file is opened with. -/
structure OpenFlags where
  bits : BitVec 32
  deriving DecidableEq

namespace OpenFlags

variable (f : OpenFlags)

/-- The file is opened for writing. -/
def writable : Bool := flagsWritable f.bits

/-- `O_APPEND` is set. -/
def append : Bool := flagsHave f.bits oAPPEND

/-- `O_TRUNC` is set. -/
def trunc : Bool := flagsHave f.bits oTRUNC

/-- `O_DIRECT` is set. -/
def direct : Bool := flagsHave f.bits oDIRECT

/-- The flags that `do_dentry_open` removes from those of the open file. -/
def ofCall : BitVec 32 := oCREAT ||| oEXCL ||| oNOCTTY ||| oTRUNC

/-- `f_flags` of the open file. -/
def fFlags : BitVec 32 :=
  f.bits &&& ~~~ofCall ||| oLARGEFILE

/-- All other flags stay with the open file. -/
theorem fFlags_and {mask : BitVec 32} (hcall : ~~~ofCall &&& mask = mask)
    (hlarge : oLARGEFILE &&& mask = 0) : f.fFlags &&& mask = f.bits &&& mask := by
  rw [fFlags, BitVec.and_or_distrib_right, BitVec.and_assoc, hcall, hlarge]
  exact BitVec.or_zero

/-- The open file is one for writing exactly if it was opened for writing. -/
@[simp] theorem flagsWritable_fFlags : flagsWritable f.fFlags = f.writable := by
  rw [writable, flagsWritable, flagsWritable, f.fFlags_and (by decide) (by decide)]

/-- It keeps `O_APPEND`. -/
@[simp] theorem flagsHave_fFlags_oAPPEND : flagsHave f.fFlags oAPPEND = f.append := by
  rw [append, flagsHave, flagsHave, f.fFlags_and (by decide) (by decide)]

/-- It keeps `O_DIRECT`. -/
@[simp] theorem flagsHave_fFlags_oDIRECT : flagsHave f.fFlags oDIRECT = f.direct := by
  rw [direct, flagsHave, flagsHave, f.fFlags_and (by decide) (by decide)]

/-- It does not keep `O_TRUNC`. -/
@[simp] theorem flagsHave_fFlags_oTRUNC : flagsHave f.fFlags oTRUNC = false := by
  have hzero : f.fFlags &&& oTRUNC = 0 := by
    rw [fFlags, BitVec.and_or_distrib_right, BitVec.and_assoc,
      show ~~~ofCall &&& oTRUNC = 0 by decide, show oLARGEFILE &&& oTRUNC = 0 by decide]
    exact BitVec.or_zero.trans BitVec.and_zero
  simp [flagsHave, hzero]

/-- Opening a file with the flags of an open file gives it the same flags. -/
@[simp] theorem fFlags_fFlags : (⟨f.fFlags⟩ : OpenFlags).fFlags = f.fFlags := by
  have hself : oLARGEFILE &&& ~~~ofCall = oLARGEFILE := by decide
  simp only [fFlags, BitVec.and_or_distrib_right, BitVec.and_assoc, BitVec.and_self, hself,
    BitVec.or_assoc, BitVec.or_self]

end OpenFlags

/-! ### Permissions -/

/-- The owner, the group and the permission bits of a file. -/
structure Permissions where
  uid : ℕ
  gid : ℕ
  mode : BitVec 32
  deriving DecidableEq

/-- `MAY_READ` and `MAY_WRITE` for the flags of an `open`. -/
def openMask (flags : BitVec 32) : BitVec 32 :=
  (if flags &&& 3 = oWRONLY then 2 else if flags &&& 3 = 0 then 4 else 6) |||
    if flagsHave flags oTRUNC then 2 else 0

/-- `acl_permission_check`: the bits of the owner, of the group or of the others decide. -/
def Permissions.allows (p : Permissions) (uid : ℕ) (groups : List ℕ) (mask : BitVec 32) : Bool :=
  let bits := if uid = p.uid then p.mode >>> 6 else if p.gid ∈ groups then p.mode >>> 3 else p.mode
  bits &&& mask = mask

end Posix
