import TraceFileSystem.Stack.Attributes

/-!
# Parent directories

After every operation that succeeds, the directories whose entries it has changed should have size
and times of the lower directories.  The trees are assumed to be congruent.

* `Paired` is what this gives to an operation on a dentry: the parent of the lower dentry has the
  lower inode of the directory.  It follows from the invariant of the trees
  (`runAllowed_congruentAt`).
* `KeepsMirrored` is what is expected of an operation.

Only a link breaks it, unless the linked file happens to have size and times of the directory
(`keepsMirrored_iff`).
-/

namespace Trfs

open LabelledSystem Dcache DentryCache Fsstack

namespace Stack

variable {α : Type}

/-! ### Dentries in a directory -/

namespace TreeState

variable (t : TreeState α) (d : ℕ)

/-- The lower dentry of a dentry has the lower inode of its inode, or none if there is none. -/
def Leads : Prop :=
  t.lowerInodeOf d = (t.upper.entry d).inode.map TrfsInode.trfsLowerInode

/-- A dentry in a directory leads to a lower dentry in the lower directory. -/
structure Paired : Prop where
  leads : t.Leads d
  lowerPath : (t.lowerPath d).isSome
  dir : ∃ dir, t.dirOf d = some dir ∧ DirInode dir ∧ t.lowerParentOf d = some dir.trfsLowerInode

variable {t} {d} {e : ℕ}

/-- A dentry with an inode leads to the lower inode. -/
theorem Inv.leads (ht : t.Inv) (hd : (t.upper.entry d).inode.isSome) : t.Leads d := by
  obtain ⟨i, hi⟩ := Option.isSome_iff_exists.mp hd
  obtain ⟨e, he, hinode⟩ := ht.mirrors.inode d i hi
  obtain ⟨p, hp, rfl⟩ := exists_lowerPath he
  rw [Leads, lowerInodeOf, hp, hi]
  exact hinode

/-- A dentry whose lower dentry is in the lower directory of its directory. -/
theorem Inv.paired (ht : t.Inv) (hd : t.Leads d) (he : Faces t.upper t.lower t.counterpart d e)
    (hhoused : Housed DirInode t.upper d) : t.Paired d := by
  obtain ⟨p, hp, rfl⟩ := exists_lowerPath he.eq
  obtain ⟨dir, hdir⟩ := Option.isSome_iff_exists.mp (ht.mirrors.isSome_of_live hhoused.live)
  obtain ⟨e', he', hinode⟩ := ht.mirrors.inode _ dir hdir
  cases he.parent.symm.trans he'
  refine ⟨hd, by rw [hp]; rfl, dir, hdir, hhoused.dir dir hdir, ?_⟩
  rw [lowerParentOf, hp]
  exact hinode

/-- Hashed dentries with an inode. -/
theorem Inv.paired_of_shown (ht : t.Inv) (hd : t.upper.Shown d) : t.Paired d := by
  obtain ⟨e, he⟩ := ht.mirrors.faces d hd
  exact ht.paired (ht.leads hd.2) he (ht.mirrors.housed d hd)

/-- Dentries that have just been looked up. -/
theorem Inv.paired_of_ready (ht : t.Inv) (hd : d ∈ t.ready) : t.Paired d := by
  obtain ⟨e, he⟩ := ht.ready d hd
  refine ht.paired ?_ he.faces he.housed
  obtain ⟨p, hp, rfl⟩ := exists_lowerPath he.faces.eq
  rw [Leads, lowerInodeOf, hp, he.noInode]
  exact he.unused

end TreeState

/-! ### What the operations do to a directory -/

namespace AttrState

variable {w : LowerMounts} {s : AttrState α} {d : ℕ} {dir : TrfsInode} {l : FsInode}

/-- An inode of trfs has size and times of a lower inode. -/
def MirroredAt (s : AttrState α) (dir : TrfsInode) (l : FsInode) : Prop :=
  Mirrored (s.upperAttr dir) (s.lowerAttr l)

/-- The inode to which attributes are copied. -/
theorem upperAttr_copy (s : AttrState α) (g : InodeAttrs → InodeAttrs → InodeAttrs)
    (dir : TrfsInode) (l : FsInode) :
    (s.copy g (some dir) (some l)).upperAttr dir = g (s.upperAttr dir) (s.lowerAttr l) :=
  Function.update_self ..

/-- Times and size are copied from one lower inode. -/
theorem mirroredAt_copyAttrTimes (s : AttrState α) (dir : TrfsInode) (l : FsInode) :
    ((s.copy copyAttrTimes (some dir) (some l)).copy copyInodeSize (some dir)
      (some l)).MirroredAt dir l := by
  simp only [MirroredAt, upperAttr_copy, lowerAttr_copy]
  exact mirrored_copyAttrTimes ..

/-- All attributes and the size are copied from one lower inode. -/
theorem mirroredAt_copyAttrAll (s : AttrState α) (dir : TrfsInode) (l : FsInode) :
    ((s.copy copyAttrAll (some dir) (some l)).copy copyInodeSize (some dir)
      (some l)).MirroredAt dir l := by
  simp only [MirroredAt, upperAttr_copy, lowerAttr_copy]
  exact mirrored_copyAttrAll ..

/-- Other inodes do not count. -/
theorem MirroredAt.set (h : s.MirroredAt dir l) {i : Option TrfsInode} (hne : some dir ≠ i)
    (f : InodeAttrs → InodeAttrs) : (s.set i f).MirroredAt dir l := by
  cases i with
  | none => exact h
  | some i =>
    have hsame : (s.set (some i) f).upperAttr dir = s.upperAttr dir :=
      Function.update_of_ne (fun heq => hne (congrArg some heq)) ..
    rw [MirroredAt, hsame, lowerAttr_set]
    exact h

/-- Nor does a copy to another inode. -/
theorem MirroredAt.copy (h : s.MirroredAt dir l) {i : Option TrfsInode} (hne : some dir ≠ i)
    (g : InodeAttrs → InodeAttrs → InodeAttrs) (src : Option FsInode) :
    (s.copy g i src).MirroredAt dir l := by
  cases src with
  | none => exact h
  | some src => exact h.set hne _

/-- Nor does the number of links. -/
theorem MirroredAt.copyNlink (h : s.MirroredAt dir l) (i : Option TrfsInode)
    (src : Option FsInode) : (s.copyNlink i src).MirroredAt dir l := by
  by_cases hi : some dir = i
  · subst hi
    cases src with
    | none => exact h
    | some src =>
      rw [MirroredAt, AttrState.copyNlink, upperAttr_copy, lowerAttr_copy]
      exact Mirrored.setNlink h _
  · exact h.copy hi _ src

/-- `trfs_create`, `trfs_symlink` and `trfs_mknod`. -/
theorem mirroredAt_makeName (hdir : s.tree.dirOf d = some dir)
    (hlower : s.tree.lowerParentOf d = some dir.trfsLowerInode) {vfs : Option FsInode}
    {ok fresh : Bool} (h : (s.makeName w d vfs ok fresh).2 = true) :
    (s.makeName w d vfs ok fresh).1.MirroredAt dir dir.trfsLowerInode := by
  unfold makeName at h ⊢
  rw [hdir, hlower] at h ⊢
  dsimp only at h ⊢
  split at h
  · cases h
  · exact mirroredAt_copyAttrTimes ..

/-- `trfs_mkdir`. -/
theorem mirroredAt_trfsMkdir (hdir : s.tree.dirOf d = some dir)
    (hlower : s.tree.lowerParentOf d = some dir.trfsLowerInode) {vfs : Option FsInode}
    {ok fresh : Bool} (h : (s.trfsMkdir w d vfs ok fresh).2 = true) :
    (s.trfsMkdir w d vfs ok fresh).1.MirroredAt dir dir.trfsLowerInode := by
  unfold trfsMkdir at h ⊢
  dsimp only at h ⊢
  split at h
  · cases h
  · next hmake =>
    have hname := mirroredAt_makeName hdir hlower (congrArg Prod.snd hmake)
    rw [hmake] at hname
    exact hname.copyNlink ..

/-- `trfs_unlink`, whose dentry is not the one of a directory. -/
theorem mirroredAt_trfsUnlink (hdir : s.tree.dirOf d = some dir)
    (hne : some dir ≠ (s.tree.upper.entry d).inode) {vfs busy : Bool}
    (h : (s.trfsUnlink d vfs busy).2 = true) :
    (s.trfsUnlink d vfs busy).1.MirroredAt dir dir.trfsLowerInode := by
  unfold trfsUnlink at h ⊢
  rw [hdir] at h ⊢
  dsimp only [Option.map_some] at h ⊢
  split_ifs at h ⊢
  refine MirroredAt.set (MirroredAt.copyNlink ?_ _ _) hne _
  exact mirroredAt_copyAttrTimes ..

/-- `trfs_rmdir`. -/
theorem mirroredAt_trfsRmdir (hdir : s.tree.dirOf d = some dir)
    (hlower : s.tree.lowerParentOf d = some dir.trfsLowerInode) {vfs : Bool}
    (h : (s.trfsRmdir d vfs).2 = true) :
    (s.trfsRmdir d vfs).1.MirroredAt dir dir.trfsLowerInode := by
  unfold trfsRmdir at h ⊢
  rw [hdir, hlower] at h ⊢
  dsimp only at h ⊢
  cases hp : s.tree.lowerPath d with
  | none =>
    simp only [hp] at h
    cases h
  | some p =>
    simp only [hp] at h ⊢
    by_cases hok : vfs = true ∧ s.tree.lower.Childless p.dentry
    · simp only [if_pos hok]
      exact (mirroredAt_copyAttrTimes ..).copyNlink ..
    · simp only [if_neg hok] at h
      cases h

/-- `trfs_rename`, for both directories. -/
theorem mirroredAt_trfsRename {old new : ℕ} {oldDir newDir : TrfsInode}
    (hold : s.tree.dirOf old = some oldDir) (hnew : s.tree.dirOf new = some newDir)
    (hlowerOld : s.tree.lowerParentOf old = some oldDir.trfsLowerInode)
    (hlowerNew : s.tree.lowerParentOf new = some newDir.trfsLowerInode) {vfs returns : Bool}
    (h : (s.trfsRename old new vfs returns).2 = true) :
    (s.trfsRename old new vfs returns).1.MirroredAt oldDir oldDir.trfsLowerInode ∧
      (s.trfsRename old new vfs returns).1.MirroredAt newDir newDir.trfsLowerInode := by
  unfold trfsRename at h ⊢
  rw [hold, hnew, hlowerOld, hlowerNew] at h ⊢
  dsimp only at h ⊢
  cases hp : s.tree.lowerPath old with
  | none =>
    simp only [hp] at h
    cases h
  | some p =>
    cases hq : s.tree.lowerPath new with
    | none =>
      simp only [hp, hq] at h
      cases h
    | some q =>
      simp only [hp, hq] at h ⊢
      by_cases hok : vfs = true ∧ s.tree.lower.Childless q.dentry
      · simp only [if_pos hok]
        by_cases hdirs : some newDir = some oldDir
        · cases hdirs
          simp only [ne_eq, not_true_eq_false, if_false]
          exact ⟨mirroredAt_copyAttrAll .., mirroredAt_copyAttrAll ..⟩
        · simp only [ne_eq, hdirs, not_false_eq_true, if_true]
          refine ⟨mirroredAt_copyAttrAll .., ?_⟩
          exact ((mirroredAt_copyAttrAll _ newDir newDir.trfsLowerInode).copy hdirs _ _).copy hdirs
            _ _
      · simp only [if_neg hok] at h
        cases h

/-- The lower call and the interposition for a name that does not exist. -/
theorem make_of_unused {p : LowerPath} (hp : s.tree.lowerPath d = some p)
    (hunused : s.tree.lowerInodeAt p = none) {i : FsInode} (hsb : i.sb = w.lowerSb) (fresh : Bool) :
    s.make w d (some i) true fresh = (({ s with tree := { s.tree with
      upper := s.tree.upper.attach d ⟨i⟩, lower := s.tree.lower.dInstantiate p.dentry i } } :
        AttrState α).iget i fresh, true) := by
  simp only [make, hp, hunused, Option.isSome_none, Bool.false_eq_true, if_false]
  simp only [TreeState.interpose, TreeState.lowerInodeAt, inode_dInstantiate_self, hsb, ne_eq,
    not_true_eq_false, if_false, if_true]

/-- The interposition fails on another superblock, or without a reason of its own. -/
theorem make_eq_false {i : FsInode} {ok : Bool} (h : ¬(i.sb = w.lowerSb ∧ ok = true))
    (fresh : Bool) : (s.make w d (some i) ok fresh).2 = false := by
  unfold make
  cases s.tree.lowerPath d with
  | none => rfl
  | some p =>
    by_cases hused : (s.tree.lowerInodeAt p).isSome
    · simp only [if_pos hused]
    · simp only [if_neg hused]
      have hnone : ({ s.tree with lower := s.tree.lower.dInstantiate p.dentry i } :
          TreeState α).interpose w d p ok = none := by
        simp only [TreeState.interpose, TreeState.lowerInodeAt, inode_dInstantiate_self]
        split_ifs with hsb hok
        · rfl
        · exact absurd ⟨not_not.mp hsb, hok⟩ h
        · rfl
      rw [hnone]

/-- `trfs_link` leaves size and times of the linked file in the directory. -/
theorem mirroredAt_trfsLink {old : ℕ} {p q : LowerPath} {i : TrfsInode}
    (hp : s.tree.lowerPath d = some p) (hunused : s.tree.lowerInodeAt p = none)
    (hq : s.tree.lowerPath old = some q) (hold : (s.tree.upper.entry old).inode = some i)
    (hlower : s.tree.lowerInodeAt q = some i.trfsLowerInode)
    (hsb : i.trfsLowerInode.sb = w.lowerSb) (hdir : s.tree.dirOf d = some dir) (hne : dir ≠ i)
    (fresh : Bool) :
    (s.trfsLink w old d true true true fresh).2 = true ∧
      (s.trfsLink w old d true true true fresh).1.lowerAttr = s.lowerAttr ∧
      (s.trfsLink w old d true true true fresh).1.MirroredAt dir i.trfsLowerInode := by
  simp only [trfsLink, hq, hdir, hold, hlower, make_of_unused hp hunused hsb, Bool.true_eq_false,
    if_false]
  simp only [tree_iget, TreeState.lowerInodeOf, hp, Option.bind_some, TreeState.lowerInodeAt,
    inode_dInstantiate_self, entry_attach_self]
  refine ⟨trivial, ?_, ?_⟩
  · simp only [copyNlink, lowerAttr_set, lowerAttr_copy, lowerAttr_iget]
  · refine MirroredAt.set (MirroredAt.copyNlink (mirroredAt_copyAttrTimes ..) ..) ?_ _
    exact fun heq => hne (Option.some_inj.mp heq)

/-- Without an interposition `trfs_link` fails. -/
theorem trfsLink_eq_false {old : ℕ} {q : LowerPath} {i : FsInode} {ok : Bool}
    (hq : s.tree.lowerPath old = some q) (hlower : s.tree.lowerInodeAt q = some i)
    (h : ¬(i.sb = w.lowerSb ∧ ok = true)) (fresh : Bool) :
    (s.trfsLink w old d true true ok fresh).2 = false := by
  have hmake := make_eq_false (s := s) (d := d) h fresh
  simp only [trfsLink, hq, hlower, Bool.true_eq_false, if_false]
  split
  · rfl
  · next hmade =>
    rw [hmade] at hmake
    cases hmake

end AttrState

/-! ### Operations that are expected to keep directories mirrored -/

variable [DecidableEq α] (w : LowerMounts)

/-- The directories whose entries an operation changes. -/
def TreeState.dirsOf (t : TreeState α) : TreeCall α → List (Option TrfsInode)
  | .lookup .. => []
  | .create d _ _ | .mkdir d _ _ | .symlink d _ _ | .mknod d _ _ => [t.dirOf d]
  | .link _ d _ _ _ | .unlink d _ _ | .rmdir d _ => [t.dirOf d]
  | .rename old new _ _ => [t.dirOf old, t.dirOf new]

/-- When an operation has returned zero, every directory whose entries it has changed has size and
times of its lower directory. -/
def AttrState.KeepsMirrored (s : AttrState α) (c : AttrCall α) : Prop :=
  ∀ s', s.step w c = some s' → (s.call w c).2 = true → c.returns = true →
    ∀ dir, some dir ∈ s.tree.dirsOf c.call →
      Mirrored (s'.upperAttr dir) (s'.lowerAttr dir.trfsLowerInode)

/-- What a link that succeeds leaves in the directory is right: the file has size and times of the
lower directory, or the lower dentry got no inode and the directory has them already. -/
def AttrState.LinksAlike (s : AttrState α) (c : AttrCall α) : Prop :=
  match c.call with
  | .link old d vfs lowerPositive ok =>
    s.Accepts c → vfs = true → c.tail = true → ∀ dir, s.tree.dirOf d = some dir →
      if lowerPositive then ∀ i, (s.tree.upper.entry old).inode = some i →
        i.trfsLowerInode.sb = w.lowerSb → ok = true →
          Mirrored (c.after i.trfsLowerInode) (c.after dir.trfsLowerInode)
      else Mirrored (s.upperAttr dir) (c.after dir.trfsLowerInode)
  | _ => True

namespace TreeState

/-- The trees are congruent at the dentries of an operation. -/
def CongruentAt (t : TreeState α) : TreeCall α → Prop
  | .lookup .. => True
  | .create d _ _ | .mkdir d _ _ | .symlink d _ _ | .mknod d _ _ => t.Paired d
  | .link old d _ _ _ => t.Leads old ∧ t.Paired d
  | .unlink d _ _ | .rmdir d _ => t.Paired d
  | .rename old new _ _ => t.Paired old ∧ t.Paired new

end TreeState

/-! ### Congruent trees -/

namespace TreeState

variable {t : TreeState α} {c : TreeCall α}

/-- The invariant of the trees gives what an operation needs. -/
theorem Inv.congruentAt (ht : t.Inv) (hc : t.Accepts c) : t.CongruentAt c := by
  cases c with
  | lookup parent name a => trivial
  | create d vfs ok | mkdir d vfs ok | symlink d vfs ok | mknod d vfs ok =>
    exact ht.paired_of_ready hc
  | link old d vfs lowerPositive ok => exact ⟨ht.leads hc.1, ht.paired_of_ready hc.2⟩
  | unlink d vfs busy => exact ht.paired_of_shown hc.1
  | rmdir d vfs => exact ht.paired_of_shown hc
  | rename old new vfs tail =>
    refine ⟨ht.paired_of_shown hc.1, ?_⟩
    rcases hc.2.1 with hnew | hnew
    · exact ht.paired_of_shown hnew
    · exact ht.paired_of_ready hnew

end TreeState

namespace AttrState

variable {w} {s : AttrState α} {c : AttrCall α}

/-- The trees stay congruent as long as no lookup comes to a mount of the lower superblock and the
renames get through their tails. -/
theorem runAllowed_congruentAt {cs : List (AttrCall α)} (hs : s.tree.Inv)
    (hcs : RunAllowed (step w) (fun s c => c.call.Plain w s.tree) s cs) :
    RunAllowed (step w) (fun s c => s.Accepts c → s.tree.CongruentAt c.call) s cs := by
  have hiff (s : AttrState α) (c : AttrCall α) (ht : s.tree.Inv) :
      c.call.Plain w s.tree ↔
        c.call.Plain w s.tree ∧ (s.Accepts c → s.tree.CongruentAt c.call) :=
    (and_iff_left fun hc => ht.congruentAt hc.1).symm
  have hstep (s : AttrState α) (c : AttrCall α) (s' : AttrState α) (ht : s.tree.Inv)
      (hc : c.call.Plain w s.tree) (hs' : s.step w c = some s') : s'.tree.Inv :=
    ht.step hc (step_tree hs')
  exact ((runAllowed_congr hiff hstep hs).mp hcs).mono fun _ _ h => h.2

/-! ### Mirrored directories -/

/-- What is expected of an operation that the VFS calls. -/
theorem keepsMirrored_iff_of_accepts (h : s.Accepts c) :
    s.KeepsMirrored w c ↔ ((s.call w c).2 = true → c.returns = true →
      ∀ dir, some dir ∈ s.tree.dirsOf c.call →
        (s.call w c).1.MirroredAt dir dir.trfsLowerInode) := by
  have hstep : s.step w c =
      some { (s.call w c).1 with tree := (s.call w c).1.tree.settle c.call } := if_pos h
  constructor
  · intro hkeeps
    exact hkeeps { (s.call w c).1 with tree := (s.call w c).1.tree.settle c.call } hstep
  · intro hmirrored s' hs'
    cases hstep.symm.trans hs'
    exact hmirrored

/-- An operation that changes the entries of one directory. -/
theorem keepsMirrored_iff_of_dir {dir : TrfsInode} (haccepts : s.Accepts c)
    (hdirs : s.tree.dirsOf c.call = [some dir]) :
    s.KeepsMirrored w c ↔ ((s.call w c).2 = true → c.returns = true →
      (s.call w c).1.MirroredAt dir dir.trfsLowerInode) := by
  rw [keepsMirrored_iff_of_accepts haccepts, hdirs]
  refine forall₂_congr fun _ _ => ⟨fun h => h dir List.mem_cons_self, fun h dir' hmem => ?_⟩
  cases List.mem_singleton.mp hmem
  exact h

/-- A link leaves size and times of the linked file in the directory, or nothing if the lower dentry
got no inode. -/
theorem keepsMirrored_link_iff {old d : ℕ} {vfs lowerPositive ok fresh tail : Bool}
    {after : FsInode → InodeAttrs}
    (haccepts : s.Accepts ⟨.link old d vfs lowerPositive ok, after, fresh, tail⟩)
    (hold : s.tree.Leads old) (hd : s.tree.Paired d) :
    s.KeepsMirrored w ⟨.link old d vfs lowerPositive ok, after, fresh, tail⟩ ↔
      s.LinksAlike w ⟨.link old d vfs lowerPositive ok, after, fresh, tail⟩ := by
  obtain ⟨⟨hsome, -⟩, hnotDir, hnoInode⟩ := id haccepts
  obtain ⟨i, hi⟩ := Option.isSome_iff_exists.mp hsome
  obtain ⟨dir, hdir, hisDir, -⟩ := hd.dir
  have hne : dir ≠ i := by
    rintro rfl
    exact hnotDir ⟨dir, hi, hisDir⟩
  obtain ⟨p, hp⟩ := Option.isSome_iff_exists.mp hd.lowerPath
  have hunused : s.tree.lowerInodeAt p = none := by
    have hleads := hd.leads
    rwa [TreeState.Leads, TreeState.lowerInodeOf, hp, hnoInode] at hleads
  rw [TreeState.Leads, hi] at hold
  obtain ⟨q, hq, hlower⟩ := Option.bind_eq_some_iff.mp hold
  have hlinks : s.LinksAlike w ⟨.link old d vfs lowerPositive ok, after, fresh, tail⟩ ↔
      (vfs = true → tail = true →
        if lowerPositive then i.trfsLowerInode.sb = w.lowerSb → ok = true →
          Mirrored (after i.trfsLowerInode) (after dir.trfsLowerInode)
        else Mirrored (s.upperAttr dir) (after dir.trfsLowerInode)) := by
    simp only [LinksAlike, haccepts, true_implies, hdir, hi, Option.some_inj, forall_eq']
  rw [keepsMirrored_iff_of_dir haccepts (congrArg ([·]) hdir), hlinks]
  simp only [call, AttrCall.returns]
  cases vfs with
  | false =>
    refine iff_of_true (fun hok => ?_) (fun habs => by cases habs)
    simp only [trfsLink, hq, if_true, Bool.false_eq_true] at hok
  | true =>
    cases lowerPositive with
    | false =>
      simp only [trfsLink, hq, Bool.true_eq_false, if_false, if_true, true_implies,
        Bool.false_eq_true]
      exact Iff.rfl
    | true =>
      simp only [if_true, true_implies]
      by_cases hok : i.trfsLowerInode.sb = w.lowerSb ∧ ok = true
      · obtain ⟨hsb, rfl⟩ := hok
        obtain ⟨htrue, hattr, hmirrored⟩ := mirroredAt_trfsLink
          (s := { s with lowerAttr := after }) hp hunused hq hi hlower hsb hdir hne fresh
        rw [MirroredAt, hattr] at hmirrored
        simp only [htrue, hsb, true_implies, MirroredAt, hattr]
        exact imp_congr_right fun _ => hmirrored.congr _
      · have hfalse := trfsLink_eq_false (s := { s with lowerAttr := after }) (d := d) hq hlower hok
          fresh
        refine iff_of_true (fun htrue => ?_) fun _ hsb htrue => absurd ⟨hsb, htrue⟩ hok
        rw [hfalse] at htrue
        cases htrue

/-- An operation, on trees that are congruent at its dentries. -/
theorem keepsMirrored_call_iff (hcong : s.Accepts c → s.tree.CongruentAt c.call) :
    s.KeepsMirrored w c ↔ s.LinksAlike w c := by
  obtain ⟨call, after, fresh, tail⟩ := c
  by_cases haccepts : s.Accepts ⟨call, after, fresh, tail⟩
  · have hat := hcong haccepts
    cases call with
    | link old d vfs lowerPositive ok => exact keepsMirrored_link_iff haccepts hat.1 hat.2
    | lookup parent name a =>
      refine iff_of_true ((keepsMirrored_iff_of_accepts haccepts).mpr ?_) trivial
      exact fun _ _ dir hmem => absurd hmem List.not_mem_nil
    | create d vfs ok | symlink d vfs ok | mknod d vfs ok =>
      obtain ⟨dir, hdir, -, hlower⟩ := hat.dir
      refine iff_of_true ((keepsMirrored_iff_of_dir haccepts (congrArg ([·]) hdir)).mpr ?_) trivial
      intro hok _
      exact mirroredAt_makeName (s := { s with lowerAttr := after }) hdir hlower hok
    | mkdir d vfs ok =>
      obtain ⟨dir, hdir, -, hlower⟩ := hat.dir
      refine iff_of_true ((keepsMirrored_iff_of_dir haccepts (congrArg ([·]) hdir)).mpr ?_) trivial
      intro hok _
      exact mirroredAt_trfsMkdir (s := { s with lowerAttr := after }) hdir hlower hok
    | unlink d vfs busy =>
      obtain ⟨dir, hdir, hisDir, -⟩ := hat.dir
      refine iff_of_true ((keepsMirrored_iff_of_dir haccepts (congrArg ([·]) hdir)).mpr ?_) trivial
      intro hok _
      refine mirroredAt_trfsUnlink (s := { s with lowerAttr := after }) hdir (fun heq => ?_) hok
      exact haccepts.1.2 ⟨dir, heq.symm, hisDir⟩
    | rmdir d vfs =>
      obtain ⟨dir, hdir, -, hlower⟩ := hat.dir
      refine iff_of_true ((keepsMirrored_iff_of_dir haccepts (congrArg ([·]) hdir)).mpr ?_) trivial
      intro hok _
      exact mirroredAt_trfsRmdir (s := { s with lowerAttr := after }) hdir hlower hok
    | rename old new vfs tail' =>
      refine iff_of_true ((keepsMirrored_iff_of_accepts haccepts).mpr fun hok _ dir hmem => ?_)
        trivial
      obtain ⟨oldDir, hold, -, hlowerOld⟩ := hat.1.dir
      obtain ⟨newDir, hnew, -, hlowerNew⟩ := hat.2.dir
      obtain ⟨hmirroredOld, hmirroredNew⟩ := mirroredAt_trfsRename
        (s := { s with lowerAttr := after }) hold hnew hlowerOld hlowerNew hok
      rcases List.mem_pair.mp hmem with hmem | hmem
      · cases hmem.trans hold
        exact hmirroredOld
      · cases hmem.trans hnew
        exact hmirroredNew
  · refine iff_of_true (fun s' hs' => ?_) ?_
    · rw [step, if_neg haccepts] at hs'
      cases hs'
    · cases call with
      | link old d vfs lowerPositive ok => exact fun habs => absurd habs haccepts
      | _ => trivial

end AttrState

/-- **Parent directories mirror the lower ones.**  Take any sequence of operations on a mount, with
any failures and any attributes that the lower file system leaves, on trees that are congruent at
the dentries of every operation.  After every operation that succeeds the directories whose entries
it has changed have size and times of the lower directories, if and only if every link that succeeds
links a file which has size and times of the lower directory, or gets no lower inode for its name in
a directory that has them already. -/
theorem keepsMirrored_iff {w : LowerMounts} {name : α} {root : FsInode} {mnt : ℕ}
    {upperAttr : TrfsInode → InodeAttrs} {lowerAttr : FsInode → InodeAttrs}
    {cs : List (AttrCall α)}
    (hcs : RunAllowed (AttrState.step w) (fun s c => s.Accepts c → s.tree.CongruentAt c.call)
      (.mounted name root mnt upperAttr lowerAttr) cs) :
    RunAllowed (AttrState.step w) (AttrState.KeepsMirrored w)
        (.mounted name root mnt upperAttr lowerAttr) cs ↔
      RunAllowed (AttrState.step w) (AttrState.LinksAlike w)
        (.mounted name root mnt upperAttr lowerAttr) cs :=
  hcs.congr fun _ _ h => AttrState.keepsMirrored_call_iff h

/-- Directories have a size, and new files have none. -/
def sizesOf (i : FsInode) : InodeAttrs :=
  { InodeAttrs.blank with size := if i.isDir then 4096 else 0 }

/-- A new mount with these sizes. -/
def newMount : AttrState (List UInt8) :=
  .mounted [] rootInode 0 (fun i => sizesOf i.trfsLowerInode) sizesOf

/-- An operation in which nothing fails and which leaves these sizes. -/
def withSizes (c : TreeCall (List UInt8)) : AttrCall (List UInt8) := ⟨c, sizesOf, true, true⟩

/-- A directory is made, and a file in it. -/
def makeInside : List (TreeCall (List UInt8)) :=
  [.lookup 0 [97] (lookupOf none), .mkdir 1 (some ⟨0, 2, true⟩) true,
    .lookup 1 [98] (lookupOf none), .create 2 (some ⟨0, 3, false⟩) true]

/-- A file is created and linked. -/
def linkTwice : List (TreeCall (List UInt8)) :=
  [.lookup 0 [97] (lookupOf none), .create 1 (some ⟨0, 3, false⟩) true,
    .lookup 0 [98] (lookupOf none), .link 1 2 true true true]

/-- Without mounts below and without renames the trees stay congruent. -/
theorem congruentAt_of_noMounts {cs : List (TreeCall (List UInt8))}
    (hcs : ∀ c ∈ cs, ∀ old new vfs tail, c ≠ .rename old new vfs tail) :
    RunAllowed (AttrState.step noMounts) (fun s c => s.Accepts c → s.tree.CongruentAt c.call)
      newMount (cs.map withSizes) := by
  refine AttrState.runAllowed_congruentAt (TreeState.inv_mounted [] rootInode 0) ?_
  refine runAllowed_of_forall (fun c hc s => ?_) _
  obtain ⟨c, hmem, rfl⟩ := List.mem_map.mp hc
  cases c with
  | lookup parent name a => exact fun dir _ p q i _ hq => (by cases hq)
  | rename old new vfs tail => exact absurd rfl (hcs _ hmem old new vfs tail)
  | _ => trivial

/-- The root and the new directory have the sizes of the lower directories. -/
theorem keepsMirrored_makeInside :
    RunAllowed (AttrState.step noMounts) (AttrState.KeepsMirrored noMounts) newMount
      (makeInside.map withSizes) := by
  refine (keepsMirrored_iff (congruentAt_of_noMounts (by simp [makeInside]))).mpr ?_
  refine runAllowed_of_forall (fun c hc s => ?_) _
  simp only [makeInside, List.map_cons, List.map_nil, List.mem_cons, List.not_mem_nil,
    or_false] at hc
  rcases hc with rfl | rfl | rfl | rfl <;> trivial

/-- The root has the size of the file. -/
theorem not_keepsMirrored_linkTwice :
    RunAllowed (AttrState.step noMounts) (fun s c => s.Accepts c → s.tree.CongruentAt c.call)
        newMount (linkTwice.map withSizes) ∧
      ¬RunAllowed (AttrState.step noMounts) (AttrState.KeepsMirrored noMounts) newMount
        (linkTwice.map withSizes) := by
  refine ⟨congruentAt_of_noMounts (by simp [linkTwice]), fun h => ?_⟩
  have hlink := (((h.2 _ rfl).2 _ rfl).2 _ rfl).1 _ rfl rfl rfl ⟨rootInode⟩ (by decide)
  have hsize := hlink.size
  revert hsize
  decide

end Stack

end Trfs
