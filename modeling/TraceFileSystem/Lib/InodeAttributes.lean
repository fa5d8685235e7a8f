import Mathlib.Tactic

/-!
# Attributes of stacked inodes

A stackable file system keeps an inode of its own for every inode below, and copies attributes from
there by the functions of the kernel for this purpose.  Times, size and all the other attributes are
copied separately; the last of these functions leaves the size out.
-/

namespace Fsstack

/-- The attributes of an inode. -/
@[ext] structure InodeAttrs where
  mode : ℕ
  uid : ℕ
  gid : ℕ
  rdev : ℕ
  nlink : ℕ
  blkbits : ℕ
  flags : ℕ
  size : ℤ
  blocks : ℕ
  atime : ℤ
  mtime : ℤ
  ctime : ℤ
  deriving DecidableEq

/-- The attributes of an inode that has just been allocated. -/
def InodeAttrs.blank : InodeAttrs := ⟨0, 0, 0, 0, 1, 0, 0, 0, 0, 0, 0, 0⟩

/-- `fsstack_copy_attr_atime`. -/
def copyAttrAtime (dest src : InodeAttrs) : InodeAttrs := { dest with atime := src.atime }

/-- `fsstack_copy_attr_times`. -/
def copyAttrTimes (dest src : InodeAttrs) : InodeAttrs :=
  { dest with atime := src.atime, mtime := src.mtime, ctime := src.ctime }

/-- `fsstack_copy_inode_size`. -/
def copyInodeSize (dest src : InodeAttrs) : InodeAttrs :=
  { dest with size := src.size, blocks := src.blocks }

/-- `fsstack_copy_attr_all`, which copies everything but the size. -/
def copyAttrAll (dest src : InodeAttrs) : InodeAttrs :=
  { src with size := dest.size, blocks := dest.blocks }

/-- `set_nlink`. -/
def setNlink (dest : InodeAttrs) (nlink : ℕ) : InodeAttrs := { dest with nlink := nlink }

/-- Two inodes have the same size and the same times. -/
structure Mirrored (upper lower : InodeAttrs) : Prop where
  size : upper.size = lower.size
  atime : upper.atime = lower.atime
  mtime : upper.mtime = lower.mtime
  ctime : upper.ctime = lower.ctime

variable (dest src : InodeAttrs)

/-- Times and size together are all that is mirrored. -/
theorem mirrored_copyAttrTimes : Mirrored (copyInodeSize (copyAttrTimes dest src) src) src :=
  ⟨rfl, rfl, rfl, rfl⟩

/-- So are all attributes and the size. -/
theorem mirrored_copyAttrAll : Mirrored (copyInodeSize (copyAttrAll dest src) src) src :=
  ⟨rfl, rfl, rfl, rfl⟩

variable {dest src}

/-- The number of links does not count. -/
theorem Mirrored.setNlink (h : Mirrored dest src) (nlink : ℕ) :
    Mirrored (Fsstack.setNlink dest nlink) src :=
  ⟨h.size, h.atime, h.mtime, h.ctime⟩

/-- What mirrors an inode mirrors whatever the inode does. -/
theorem Mirrored.congr (h : Mirrored dest src) (other : InodeAttrs) :
    Mirrored dest other ↔ Mirrored src other := by
  constructor
  · intro ho
    exact ⟨h.size.symm.trans ho.size, h.atime.symm.trans ho.atime, h.mtime.symm.trans ho.mtime,
      h.ctime.symm.trans ho.ctime⟩
  · intro ho
    exact ⟨h.size.trans ho.size, h.atime.trans ho.atime, h.mtime.trans ho.mtime,
      h.ctime.trans ho.ctime⟩

end Fsstack
