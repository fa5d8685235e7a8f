import TraceFileSystem.Lib.InodeAttributes
import TraceFileSystem.Stack.Congruence

/-!
# Attributes of both trees

After an operation that changes the entries of a directory, trfs copies attributes of lower inodes
to its own ones.  The operations take the lower inode from different places: from the inode of the
directory, from the parent of the lower dentry, and `trfs_link` from the lower dentry itself, which
is the file that was linked.

* `AttrState` is a `TreeState` with the attributes of all inodes.
* `trfsCreate`, `trfsLink`, … are the operations on the trees together with what they copy, in the
  order of the source, and whether they have no error.

What they do to the trees does not depend on the attributes (`call_tree`).
-/

namespace Trfs

open Dcache DentryCache Fsstack

namespace Stack

variable {α : Type}

namespace TreeState

variable (t : TreeState α) (d : ℕ)

/-- The inode of the directory of a dentry, which the VFS passes to an operation. -/
def dirOf : Option TrfsInode := (t.upper.entry (t.upper.entry d).parent).inode

/-- `d_inode(lower_parent_dentry)`. -/
def lowerParentOf : Option FsInode :=
  (t.lowerPath d).bind fun p => (t.lower.entry (t.lower.entry p.dentry).parent).inode

/-- `d_inode(lower_dentry)`. -/
def lowerInodeOf : Option FsInode := (t.lowerPath d).bind t.lowerInodeAt

end TreeState

/-- The trees, and the attributes of the inodes of both file systems. -/
structure AttrState (α : Type) where
  tree : TreeState α
  upperAttr : TrfsInode → InodeAttrs
  lowerAttr : FsInode → InodeAttrs

/-- An operation, with what it meets. -/
structure AttrCall (α : Type) where
  call : TreeCall α
  /-- The attributes of the lower inodes when the lower call has returned. -/
  after : FsInode → InodeAttrs
  /-- The inode of an interposition was not in the cache. -/
  fresh : Bool
  /-- The logging tail returns. -/
  tail : Bool

/-- The operation gets through its logging tail, if it has one. -/
def AttrCall.returns (c : AttrCall α) : Bool :=
  match c.call with
  | .rename _ _ _ tail => tail.returns
  | .mknod .. => true
  | _ => c.tail

namespace AttrState

variable (s : AttrState α)

/-- The attributes of an inode of trfs are changed. -/
def set (i : Option TrfsInode) (f : InodeAttrs → InodeAttrs) : AttrState α :=
  match i with
  | none => s
  | some i => { s with upperAttr := Function.update s.upperAttr i (f (s.upperAttr i)) }

/-- Attributes are copied from a lower inode. -/
def copy (f : InodeAttrs → InodeAttrs → InodeAttrs) (dest : Option TrfsInode)
    (src : Option FsInode) : AttrState α :=
  match src with
  | none => s
  | some l => s.set dest fun a => f a (s.lowerAttr l)

/-- `set_nlink` to the number of links of a lower inode. -/
def copyNlink (dest : Option TrfsInode) (src : Option FsInode) : AttrState α :=
  s.copy (fun a l => setNlink a l.nlink) dest src

/-- The attributes that `trfs_iget` gives to an inode that was not in the cache. -/
def iget (i : FsInode) (fresh : Bool) : AttrState α :=
  if fresh then
    (s.set (some ⟨i⟩) fun _ => copyAttrAll .blank (s.lowerAttr i)).copy copyInodeSize
      (some ⟨i⟩) (some i)
  else s

section Copies

variable (f : InodeAttrs → InodeAttrs) (g : InodeAttrs → InodeAttrs → InodeAttrs)
  (i : Option TrfsInode) (l : Option FsInode)

@[simp] theorem tree_set : (s.set i f).tree = s.tree := by
  cases i <;> rfl

@[simp] theorem lowerAttr_set : (s.set i f).lowerAttr = s.lowerAttr := by
  cases i <;> rfl

@[simp] theorem tree_copy : (s.copy g i l).tree = s.tree := by
  cases l with
  | none => rfl
  | some l => exact tree_set s _ i

@[simp] theorem lowerAttr_copy : (s.copy g i l).lowerAttr = s.lowerAttr := by
  cases l with
  | none => rfl
  | some l => exact lowerAttr_set s _ i

@[simp] theorem tree_iget (j : FsInode) (fresh : Bool) : (s.iget j fresh).tree = s.tree := by
  unfold iget
  split
  · rw [tree_copy, tree_set]
  · rfl

@[simp] theorem lowerAttr_iget (j : FsInode) (fresh : Bool) :
    (s.iget j fresh).lowerAttr = s.lowerAttr := by
  unfold iget
  split
  · rw [lowerAttr_copy, lowerAttr_set]
  · rfl

end Copies

variable (w : LowerMounts)

/-- The lower call and the interposition of `trfs_create`, `trfs_mkdir`, `trfs_symlink` and
`trfs_mknod`, and whether there was no error. -/
def make (d : ℕ) (vfs : Option FsInode) (ok fresh : Bool) : AttrState α × Bool :=
  match s.tree.lowerPath d, vfs with
  | some p, some i =>
    if (s.tree.lowerInodeAt p).isSome then (s, false)
    else
      let t := { s.tree with lower := s.tree.lower.dInstantiate p.dentry i }
      match t.interpose w d p ok with
      | none => ({ s with tree := t }, false)
      | some t => (({ s with tree := t } : AttrState α).iget i fresh, true)
  | _, _ => (s, false)

/-- Times are copied from the lower inode of the directory, and the size from the parent of the
lower dentry. -/
def makeName (d : ℕ) (vfs : Option FsInode) (ok fresh : Bool) : AttrState α × Bool :=
  let dir := s.tree.dirOf d
  let lowerParent := s.tree.lowerParentOf d
  match s.make w d vfs ok fresh with
  | (s, false) => (s, false)
  | (s, true) =>
    ((s.copy copyAttrTimes dir (dir.map TrfsInode.trfsLowerInode)).copy copyInodeSize dir
      lowerParent, true)

/-- `trfs_create`. -/
def trfsCreate (d : ℕ) (vfs : Option FsInode) (ok fresh : Bool) : AttrState α × Bool :=
  s.makeName w d vfs ok fresh

/-- `trfs_symlink`. -/
def trfsSymlink (d : ℕ) (vfs : Option FsInode) (ok fresh : Bool) : AttrState α × Bool :=
  s.makeName w d vfs ok fresh

/-- `trfs_mknod`. -/
def trfsMknod (d : ℕ) (vfs : Option FsInode) (ok fresh : Bool) : AttrState α × Bool :=
  s.makeName w d vfs ok fresh

/-- `trfs_mkdir`, which sets the number of links of the directory too. -/
def trfsMkdir (d : ℕ) (vfs : Option FsInode) (ok fresh : Bool) : AttrState α × Bool :=
  let dir := s.tree.dirOf d
  match s.makeName w d vfs ok fresh with
  | (s, false) => (s, false)
  | (s, true) => (s.copyNlink dir (dir.map TrfsInode.trfsLowerInode), true)

/-- `trfs_link`.  Times and size are copied from the inode of the new lower dentry. -/
def trfsLink (old d : ℕ) (vfs lowerPositive ok fresh : Bool) : AttrState α × Bool :=
  let dir := s.tree.dirOf d
  let oldInode := (s.tree.upper.entry old).inode
  let fileSizeSave := (oldInode.map fun i => (s.upperAttr i).size).getD 0
  match s.tree.lowerPath old with
  | none => (s, false)
  | some p =>
    if vfs = false then (s, false)
    else if lowerPositive = false then (s, true)
    else
      match s.make w d (s.tree.lowerInodeAt p) ok fresh with
      | (s, false) => (s, false)
      | (s, true) =>
        let lowerNew := s.tree.lowerInodeOf d
        ((((s.copy copyAttrTimes dir lowerNew).copy copyInodeSize dir lowerNew).copyNlink oldInode
          (oldInode.map TrfsInode.trfsLowerInode)).set (s.tree.upper.entry d).inode
            fun a => { a with size := fileSizeSave }, true)

/-- `trfs_unlink`.  The time of the change is taken from the directory. -/
def trfsUnlink (d : ℕ) (vfs busy : Bool) : AttrState α × Bool :=
  let dir := s.tree.dirOf d
  let inode := (s.tree.upper.entry d).inode
  let lowerDir := dir.map TrfsInode.trfsLowerInode
  if s.tree.lowerParentOf d = lowerDir ∧ (s.tree.lowerPath d).isSome ∧ (vfs ∨ busy) then
    let s := { s with tree := s.tree.trfsUnlink d vfs busy }
    let s := (s.copy copyAttrTimes dir lowerDir).copy copyInodeSize dir lowerDir
    let s := s.copyNlink inode (inode.map TrfsInode.trfsLowerInode)
    (s.set inode fun a => { a with ctime := (dir.map fun i => (s.upperAttr i).ctime).getD 0 }, true)
  else (s, false)

/-- `trfs_rmdir`. -/
def trfsRmdir (d : ℕ) (vfs : Bool) : AttrState α × Bool :=
  let dir := s.tree.dirOf d
  let lowerDir := s.tree.lowerParentOf d
  match s.tree.lowerPath d with
  | none => (s, false)
  | some p =>
    if vfs ∧ s.tree.lower.Childless p.dentry then
      let s := ({ s with tree := s.tree.trfsRmdir d vfs } : AttrState α)
      let s := s.set (s.tree.upper.entry d).inode fun a => setNlink a 0
      (((s.copy copyAttrTimes dir lowerDir).copy copyInodeSize dir lowerDir).copyNlink dir lowerDir,
        true)
    else (s, false)

/-- `trfs_rename`. -/
def trfsRename (old new : ℕ) (vfs returns : Bool) : AttrState α × Bool :=
  let oldDir := s.tree.dirOf old
  let newDir := s.tree.dirOf new
  let lowerOldDir := s.tree.lowerParentOf old
  let lowerNewDir := s.tree.lowerParentOf new
  match s.tree.lowerPath old, s.tree.lowerPath new with
  | some _, some q =>
    if vfs ∧ s.tree.lower.Childless q.dentry then
      let s := ({ s with tree := s.tree.trfsRename old new vfs returns } : AttrState α)
      let s := (s.copy copyAttrAll newDir lowerNewDir).copy copyInodeSize newDir lowerNewDir
      if newDir ≠ oldDir then
        ((s.copy copyAttrAll oldDir lowerOldDir).copy copyInodeSize oldDir lowerOldDir, true)
      else (s, true)
    else (s, false)
  | _, _ => (s, false)

/-! ### What the operations do to the trees -/

variable {w} {s s' : AttrState α}

/-- The lower call and the interposition change the trees as they do without attributes. -/
theorem make_tree (s : AttrState α) (d : ℕ) (vfs : Option FsInode) (ok fresh : Bool) :
    (s.make w d vfs ok fresh).1.tree = s.tree.make w d vfs ok := by
  unfold make TreeState.make
  cases s.tree.lowerPath d with
  | none => rfl
  | some p =>
    cases vfs with
    | none => rfl
    | some i =>
      by_cases hused : (s.tree.lowerInodeAt p).isSome
      · simp only [if_pos hused]
      · simp only [if_neg hused]
        split
        · next h => rw [h, Option.getD_none]
        · next t h => rw [h, Option.getD_some, tree_iget]

/-- So do the operations that make a name. -/
theorem makeName_tree (s : AttrState α) (d : ℕ) (vfs : Option FsInode) (ok fresh : Bool) :
    (s.makeName w d vfs ok fresh).1.tree = s.tree.make w d vfs ok := by
  rw [← s.make_tree d vfs ok fresh, makeName]
  split
  · next h => rw [h]
  · next h => rw [h, tree_copy, tree_copy]

/-- `trfs_mkdir`. -/
theorem trfsMkdir_tree (s : AttrState α) (d : ℕ) (vfs : Option FsInode) (ok fresh : Bool) :
    (s.trfsMkdir w d vfs ok fresh).1.tree = s.tree.trfsMkdir w d vfs ok := by
  rw [TreeState.trfsMkdir, ← s.makeName_tree d vfs ok fresh, trfsMkdir]
  split
  · next h => rw [h]
  · next h => rw [h, copyNlink, tree_copy]

/-- `trfs_link`. -/
theorem trfsLink_tree (s : AttrState α) (old d : ℕ) (vfs lowerPositive ok fresh : Bool) :
    (s.trfsLink w old d vfs lowerPositive ok fresh).1.tree =
      s.tree.trfsLink w old d vfs lowerPositive ok := by
  have hnone : s.tree.make w d none ok = s.tree := by
    unfold TreeState.make
    cases s.tree.lowerPath d <;> rfl
  unfold trfsLink TreeState.trfsLink
  dsimp only
  cases s.tree.lowerPath old with
  | none => rfl
  | some p =>
    cases vfs with
    | false => exact hnone.symm
    | true =>
      cases lowerPositive with
      | false => exact hnone.symm
      | true =>
        have htree := s.make_tree (w := w) d (s.tree.lowerInodeAt p) ok fresh
        simp only [Bool.true_eq_false, if_false, and_self, if_true]
        rw [← htree]
        split
        · next h => rw [h]
        · next h => simp only [h, copyNlink, tree_set, tree_copy]

/-- `trfs_unlink`. -/
theorem trfsUnlink_tree (s : AttrState α) (d : ℕ) (vfs busy : Bool) :
    (s.trfsUnlink d vfs busy).1.tree = s.tree.trfsUnlink d vfs busy := by
  unfold trfsUnlink
  dsimp only
  split_ifs with h
  · simp only [copyNlink, tree_set, tree_copy]
  · unfold TreeState.trfsUnlink
    cases hp : s.tree.lowerPath d with
    | none => rfl
    | some p =>
      simp only [TreeState.lowerParentOf, TreeState.dirOf, hp, Option.bind_some, Option.isSome_some,
        true_and, not_and, not_or] at h
      by_cases hdir : (s.tree.lower.entry (s.tree.lower.entry p.dentry).parent).inode =
          (s.tree.upper.entry (s.tree.upper.entry d).parent).inode.map TrfsInode.trfsLowerInode
      · obtain ⟨hvfs, hbusy⟩ := h hdir
        simp only [hdir, ne_eq, not_true_eq_false, if_false, if_neg hvfs, if_neg hbusy]
      · simp only [ne_eq, hdir, not_false_eq_true, if_true]

/-- `trfs_rmdir`. -/
theorem trfsRmdir_tree (s : AttrState α) (d : ℕ) (vfs : Bool) :
    (s.trfsRmdir d vfs).1.tree = s.tree.trfsRmdir d vfs := by
  unfold trfsRmdir
  dsimp only
  cases hp : s.tree.lowerPath d with
  | none => simp only [TreeState.trfsRmdir, hp]
  | some p =>
    by_cases hok : vfs = true ∧ s.tree.lower.Childless p.dentry
    · simp only [if_pos hok, copyNlink, tree_set, tree_copy]
    · simp only [if_neg hok, TreeState.trfsRmdir, hp]

/-- `trfs_rename`. -/
theorem trfsRename_tree (s : AttrState α) (old new : ℕ) (vfs returns : Bool) :
    (s.trfsRename old new vfs returns).1.tree = s.tree.trfsRename old new vfs returns := by
  unfold trfsRename
  dsimp only
  cases hp : s.tree.lowerPath old with
  | none => simp only [TreeState.trfsRename, hp]
  | some p =>
    cases hq : s.tree.lowerPath new with
    | none => simp only [TreeState.trfsRename, hp, hq]
    | some q =>
      by_cases hok : vfs = true ∧ s.tree.lower.Childless q.dentry
      · simp only [if_pos hok]
        split_ifs
        · simp only [tree_copy]
        · simp only [tree_copy]
      · simp only [if_neg hok, TreeState.trfsRename, hp, hq]

end AttrState

/-! ### Sequences of operations -/

variable [DecidableEq α] (w : LowerMounts)

/-- The VFS makes a link only for a name that does not exist, and not to a directory. -/
def TreeState.MayLink (t : TreeState α) : TreeCall α → Prop
  | .link old d _ _ _ => ¬t.IsDir old ∧ (t.upper.entry d).inode = none
  | _ => True

instance decidableMayLink (t : TreeState α) : (c : TreeCall α) → Decidable (t.MayLink c)
  | .link .. => inferInstanceAs (Decidable (_ ∧ _))
  | .lookup .. | .create .. | .mkdir .. | .symlink .. | .mknod .. | .unlink .. | .rmdir ..
  | .rename .. => .isTrue trivial

namespace AttrState

variable (s : AttrState α)

/-- `trfs_lookup`, which may interpose an inode. -/
def trfsLookup (parent : ℕ) (name : α) (a : TreeLookup) (fresh : Bool) : AttrState α × Bool :=
  let t := s.tree.trfsLookup w parent name a
  match (t.upper.entry s.tree.upper.next).inode with
  | none => ({ s with tree := t }, true)
  | some i => (({ s with tree := t } : AttrState α).iget i.trfsLowerInode fresh, true)

/-- What an operation does, and whether it has no error. -/
def call (c : AttrCall α) : AttrState α × Bool :=
  let s := { s with lowerAttr := c.after }
  match c.call with
  | .lookup parent name a => s.trfsLookup w parent name a c.fresh
  | .create d vfs ok => s.trfsCreate w d vfs ok c.fresh
  | .mkdir d vfs ok => s.trfsMkdir w d vfs ok c.fresh
  | .symlink d vfs ok => s.trfsSymlink w d vfs ok c.fresh
  | .mknod d vfs ok => s.trfsMknod w d vfs ok c.fresh
  | .link old d vfs lowerPositive ok => s.trfsLink w old d vfs lowerPositive ok c.fresh
  | .unlink d vfs busy => s.trfsUnlink d vfs busy
  | .rmdir d vfs => s.trfsRmdir d vfs
  | .rename old new vfs tail => s.trfsRename old new vfs tail.returns

/-- Operations that the VFS calls. -/
def Accepts (c : AttrCall α) : Prop := s.tree.Accepts c.call ∧ s.tree.MayLink c.call

instance decidableAttrAccepts (c : AttrCall α) : Decidable (s.Accepts c) :=
  inferInstanceAs (Decidable (_ ∧ _))

/-- One operation of a sequence. -/
def step (c : AttrCall α) : Option (AttrState α) :=
  if s.Accepts c then
    some { (s.call w c).1 with tree := (s.call w c).1.tree.settle c.call }
  else none

/-- A new mount, with any attributes. -/
def mounted (name : α) (root : FsInode) (mnt : ℕ) (upperAttr : TrfsInode → InodeAttrs)
    (lowerAttr : FsInode → InodeAttrs) : AttrState α :=
  ⟨.mounted name root mnt, upperAttr, lowerAttr⟩

end AttrState

namespace AttrState

variable {w} {s s' : AttrState α}

/-- The trees do not depend on the attributes. -/
theorem call_tree (s : AttrState α) (c : AttrCall α) :
    (s.call w c).1.tree = s.tree.call w c.call := by
  cases hc : c.call with
  | lookup parent name a =>
    simp only [call, hc, trfsLookup, TreeState.call]
    split
    · rfl
    · rw [tree_iget]
  | create d vfs ok | symlink d vfs ok | mknod d vfs ok =>
    simp only [call, hc]
    exact makeName_tree ..
  | mkdir d vfs ok =>
    simp only [call, hc]
    exact trfsMkdir_tree ..
  | link old d vfs lowerPositive ok =>
    simp only [call, hc]
    exact trfsLink_tree ..
  | unlink d vfs busy =>
    simp only [call, hc]
    exact trfsUnlink_tree ..
  | rmdir d vfs =>
    simp only [call, hc]
    exact trfsRmdir_tree ..
  | rename old new vfs tail =>
    simp only [call, hc]
    exact trfsRename_tree ..

/-- Every operation is one of the trees. -/
theorem step_tree {c : AttrCall α} (h : s.step w c = some s') :
    s.tree.step w c.call = some s'.tree := by
  obtain ⟨haccepts, hcall⟩ := Option.ite_none_right_eq_some.mp h
  cases hcall
  rw [TreeState.step, if_pos haccepts.1, call_tree]

end AttrState

end Stack

end Trfs
