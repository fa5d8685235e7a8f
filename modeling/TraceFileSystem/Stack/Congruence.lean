import TraceFileSystem.Stack.Trees

/-!
# Congruent trees

Between two operations every hashed dentry of trfs with an inode leads to a lower dentry of the same
name, in the lower directory of its directory, and to the same lower inode by its lower path and by
its inode (`congruent_of_run`).  The invariant is that the dentries of trfs mirror the lower ones in
the sense of `Mirrors`, and that the dentries which were looked up for the next operation are ready
to get an inode.

There are two ways to lose it.  A lookup follows what is mounted on a lower directory, and
`__trfs_interpose` notices this only if it is on another superblock: a part of the lower tree that
is mounted on another part of it is taken for what is below the mount.  And when the logging tail of
`trfs_rename` faults over a path that is too long, the lower dentry has moved and the dentry of trfs
has not.
-/

namespace Trfs

open LabelledSystem Dcache DentryCache

namespace Stack

variable {α : Type} {w : LowerMounts}

namespace TreeCall

/-- A lookup that comes to something that is mounted finds it on another superblock, and a rename
whose lower call succeeds gets through its logging tail. -/
def Plain [DecidableEq α] (w : LowerMounts) (s : TreeState α) : TreeCall α → Prop
  | .lookup parent name a => ∀ dir, s.lowerPath parent = some dir →
      ∀ p q i, (s.walk dir name a.disk).2 = some p → w.mountedOn p = some q →
        (s.walk dir name a.disk).1.lowerInodeAt q = some i → i.sb ≠ w.lowerSb
  | .rename _ _ vfs tail => vfs = true →
      ¬(traces tail.state.sb.umask .rename ∧ tail.env.pages.available ∧ tail.op.plan.tail.TooLong)
  | _ => True

end TreeCall

namespace TreeState

variable {s s' : TreeState α} {c : TreeCall α} {d e parent : ℕ} {name : α} {dir p : LowerPath}

/-! ### The invariant -/

/-- The lower dentry of a dentry. -/
def counterpart (s : TreeState α) (d : ℕ) : Option ℕ := (s.lowerPath d).map LowerPath.dentry

/-- Inodes of directories. -/
def DirInode (i : TrfsInode) : Prop := i.trfsLowerInode.isDir = true

/-- The dentries of trfs mirror the lower ones, and those that are ready can get an inode. -/
structure Inv (s : TreeState α) : Prop where
  mirrors : Mirrors TrfsInode.trfsLowerInode DirInode s.upper s.lower s.counterpart
  ready : ∀ d ∈ s.ready, ∃ e, Ready DirInode s.upper s.lower s.counterpart d e

/-- The lower path of a dentry with a counterpart. -/
theorem exists_lowerPath (h : s.counterpart d = some e) :
    ∃ p, s.lowerPath d = some p ∧ p.dentry = e :=
  Option.map_eq_some_iff.mp h

/-- When a lower path is set, the counterpart is. -/
theorem counterpart_update (f : ℕ → Option LowerPath) (d : ℕ) (p : LowerPath) :
    (fun x => (Function.update f d (some p) x).map LowerPath.dentry) =
      Function.update (fun x => (f x).map LowerPath.dentry) d (some p.dentry) := by
  funext x
  by_cases hx : x = d
  · subst hx
    simp
  · simp [hx]

/-- The invariant gives what both ways lead to. -/
theorem Inv.congruent (hs : s.Inv) : s.Congruent := by
  intro d i _ hhashed hi
  have hshown : s.upper.Shown d := ⟨hhashed, by rw [hi]; rfl⟩
  obtain ⟨e, he⟩ := hs.mirrors.faces d hshown
  obtain ⟨e', he', hinode⟩ := hs.mirrors.inode d i hi
  cases he.eq.symm.trans he'
  obtain ⟨p, hp, rfl⟩ := exists_lowerPath he.eq
  obtain ⟨q, hq, hqe⟩ := exists_lowerPath he.parent
  have hlive := hs.mirrors.isSome_of_live (hs.mirrors.housed d hshown).live
  obtain ⟨j, hj⟩ := Option.isSome_iff_exists.mp hlive
  obtain ⟨e', he', hparent⟩ := hs.mirrors.inode _ j hj
  cases he.parent.symm.trans he'
  refine ⟨p, hp, hinode, he.name, q, j, hq, hqe.symm, hj, ?_⟩
  rw [lowerInodeAt, hqe, hparent]

/-- A new mount. -/
theorem inv_mounted (name : α) (root : FsInode) (mnt : ℕ) : (mounted name root mnt).Inv where
  mirrors := by
    have hroot : (mounted name root mnt).counterpart = Function.update (fun _ => none) 0 (some 0) :=
      counterpart_update (fun _ => none) 0 ⟨0, mnt⟩
    rw [hroot]
    exact mirrors_rooted TrfsInode.trfsLowerInode DirInode name name ⟨root⟩
  ready d hd := by cases hd

/-! ### Lookups -/

/-- A new dentry without a lower path. -/
def allocated (s : TreeState α) (parent : ℕ) (name : α) : TreeState α :=
  { s with upper := s.upper.dAlloc parent name }

/-- A dentry that has not been allocated has no counterpart. -/
theorem Inv.counterpart_next (hs : s.Inv) : s.counterpart s.upper.next = none := by
  by_contra h
  obtain ⟨e, he⟩ := Option.ne_none_iff_exists'.mp h
  exact lt_irrefl _ (hs.mirrors.lt _ e he).1

/-- A dentry is allocated. -/
theorem Inv.allocated (hs : s.Inv) (parent : ℕ) (name : α) : (s.allocated parent name).Inv := by
  have hsame : Function.update s.counterpart s.upper.next none = s.counterpart := by
    rw [← hs.counterpart_next, Function.update_eq_self]
  refine ⟨?_, fun d hd => ?_⟩
  · have hnew := hs.mirrors.dAlloc parent name (x := none) fun e he => (by cases he)
    rwa [hsame] at hnew
  · obtain ⟨e, he⟩ := hs.ready d hd
    have hnew := he.dAlloc hs.mirrors parent name none
    rw [hsame] at hnew
    exact ⟨e, hnew⟩

/-- A lower dentry is added. -/
theorem Inv.dAdd (hs : s.Inv) {l : ℕ} (hvac : ∀ x, ¬s.lower.At l name x) (inode : Option FsInode) :
    Inv { s with lower := s.lower.dAdd l name inode } where
  mirrors := hs.mirrors.dAdd hvac inode
  ready d hd := by
    obtain ⟨e, he⟩ := hs.ready d hd
    exact ⟨e, he.dAdd hs.mirrors l name inode⟩

/-- A directory of which the VFS has no dentry for a name. -/
structure Misses (s : TreeState α) (parent : ℕ) (name : α) (dir : LowerPath) : Prop where
  live : s.upper.Live parent
  isDir : s.IsDir parent
  lowerPath : s.lowerPath parent = some dir
  vacant : ∀ x, ¬s.upper.At parent name x

/-- Its counterpart. -/
theorem Misses.counterpart (h : s.Misses parent name dir) :
    s.counterpart parent = some dir.dentry := by
  rw [TreeState.counterpart, h.lowerPath]
  rfl

/-- It is a directory. -/
theorem Misses.dirInode (h : s.Misses parent name dir) (i : TrfsInode)
    (hi : (s.upper.entry parent).inode = some i) : DirInode i := by
  obtain ⟨j, hj, hdir⟩ := h.isDir
  cases hi.symm.trans hj
  exact hdir

/-- A dentry whose name exists in the lower directory is interposed. -/
theorem Inv.found (hs : s.Inv) (hmiss : s.Misses parent name dir)
    (hp : s.lower.At dir.dentry name p.dentry)
    {i : FsInode} (hi : s.lowerInodeAt p = some i) :
    Inv { (s.allocated parent name).setLowerPath s.upper.next p with
      upper := (s.upper.dAlloc parent name).attach s.upper.next ⟨i⟩ } := by
  have hnew := hs.mirrors.dAlloc parent name (x := some p.dentry) fun e he => by
    cases he
    exact hs.mirrors.lower.lt _ hp.1
  have hfaces := hs.mirrors.faces_new hmiss.counterpart hp
  have hcounter : (fun x => (Function.update s.lowerPath s.upper.next (some p) x).map
      LowerPath.dentry) = Function.update s.counterpart s.upper.next (some p.dentry) :=
    counterpart_update _ _ _
  refine ⟨?_, fun d hd => ?_⟩
  · have hfound := hs.mirrors.found hmiss.counterpart hmiss.live hmiss.dirInode hmiss.vacant hp
      (i := ⟨i⟩) hi
    rw [← hcounter] at hfound
    exact hfound
  · obtain ⟨e, he⟩ := hs.ready d hd
    have hready := (he.dAlloc hs.mirrors parent name (some p.dentry)).attach hnew hfaces (by simp)
      (by rw [show (s.lower.entry p.dentry).inode = some i from hi]; simp) ⟨i⟩
    rw [← hcounter] at hready
    exact ⟨e, hready⟩

/-- A dentry whose name does not exist in the lower directory gets a lower dentry without an inode,
and is ready. -/
theorem Inv.missing (hs : s.Inv) (hmiss : s.Misses parent name dir)
    (hp : s.lower.At dir.dentry name p.dentry) (hno : s.lowerInodeAt p = none) :
    Inv { (s.allocated parent name).setLowerPath s.upper.next p with
      ready := s.upper.next :: s.ready } := by
  have hcounter : (fun x => (Function.update s.lowerPath s.upper.next (some p) x).map
      LowerPath.dentry) = Function.update s.counterpart s.upper.next (some p.dentry) :=
    counterpart_update _ _ _
  have hlt : ∀ e, some p.dentry = some e → e < s.lower.next := by
    intro e he
    cases he
    exact hs.mirrors.lower.lt _ hp.1
  refine ⟨?_, fun d hd => ?_⟩
  · have hnew := hs.mirrors.dAlloc parent name hlt
    rw [← hcounter] at hnew
    exact hnew
  · rcases List.mem_cons.mp hd with rfl | hd
    · have hready := hs.mirrors.missing hmiss.counterpart hmiss.live hmiss.dirInode hmiss.vacant hp
        hno
      rw [← hcounter] at hready
      exact ⟨p.dentry, hready⟩
    · obtain ⟨e, he⟩ := hs.ready d hd
      have hready := he.dAlloc hs.mirrors parent name (some p.dentry)
      rw [← hcounter] at hready
      exact ⟨e, hready⟩

/-- An interposition that succeeds attaches an inode that stands for the lower one. -/
theorem interpose_eq_some {ok : Bool} (h : s.interpose w d p ok = some s') :
    ∃ i, s.lowerInodeAt p = some i ∧ i.sb = w.lowerSb ∧
      s' = { s with upper := s.upper.attach d ⟨i⟩ } := by
  unfold interpose at h
  cases hi : s.lowerInodeAt p with
  | none =>
    rw [hi] at h
    cases h
  | some i =>
    simp only [hi] at h
    split_ifs at h with hsb
    cases h
    exact ⟨i, rfl, not_not.mp hsb, rfl⟩

/-- A name that exists is interposed, and the new dentry leads to its lower dentry unless that
fails. -/
theorem Inv.interpose_found (hs : s.Inv) (hmiss : s.Misses parent name dir)
    (hp : s.lower.At dir.dentry name p.dentry)
    (hmount : ∀ q i, w.mountedOn p = some q → s.lowerInodeAt q = some i → i.sb ≠ w.lowerSb)
    (ok : Bool) :
    Inv ((((s.allocated parent name).setLowerPath s.upper.next (followMount w p)).interpose w
      s.upper.next (followMount w p) ok).getD (s.allocated parent name)) := by
  cases h : ((s.allocated parent name).setLowerPath s.upper.next (followMount w p)).interpose w
      s.upper.next (followMount w p) ok with
  | none => exact hs.allocated parent name
  | some t =>
    obtain ⟨i, hi, hsb, rfl⟩ := interpose_eq_some h
    cases hq : w.mountedOn p with
    | some q =>
      rw [followMount, hq] at hi
      exact absurd hsb (hmount q i hq hi)
    | none =>
      rw [followMount, hq] at hi ⊢
      exact hs.found hmiss hp hi

section Steps

variable [DecidableEq α]

/-- What a lookup needs. -/
theorem Inv.misses (hs : s.Inv) {a : TreeLookup} (hc : s.Accepts (.lookup parent name a))
    (hdir : s.lowerPath parent = some dir) : s.Misses parent name dir :=
  ⟨hc.1, hc.2.1, hdir, hs.mirrors.upper.not_at_of_dLookup hc.2.2⟩

/-- `trfs_lookup`. -/
theorem Inv.lookup (hs : s.Inv) {a : TreeLookup} (hc : s.Accepts (.lookup parent name a))
    (hplain : (TreeCall.lookup parent name a).Plain w s) : (s.trfsLookup w parent name a).Inv := by
  cases hdir : s.lowerPath parent with
  | none =>
    simp only [trfsLookup, hdir]
    exact hs.allocated parent name
  | some dir =>
    have hmiss := hs.misses hc hdir
    have hmount := hplain dir hdir
    by_cases herr : a.noError = false
    · simp only [trfsLookup, hdir, herr, if_true]
      exact hs.allocated parent name
    · cases hl : s.lower.dLookup dir.dentry name with
      | some l =>
        have hat := at_of_dLookup hl
        cases hi : (s.lower.entry l).inode with
        | some i =>
          simp only [walk, hl, hi, Option.isSome_some, if_true] at hmount
          simp only [trfsLookup, hdir, if_neg herr, walk, hl, hi, Option.isSome_some, if_true]
          exact hs.interpose_found (p := ⟨l, dir.mnt⟩) hmiss hat (fun q i hq => hmount _ q i rfl hq)
            a.interpose
        | none =>
          simp only [trfsLookup, hdir, if_neg herr, walk, hl, hi, lookupNegative,
            Option.isSome_none, Bool.false_eq_true, if_false]
          exact hs.missing (p := ⟨l, dir.mnt⟩) hmiss hat hi
      | none =>
        have hvac := hs.mirrors.lower.not_at_of_dLookup hl
        have hat (inode : Option FsInode) :
            (s.lower.dAdd dir.dentry name inode).At dir.dentry name s.lower.next := by
          simp [At]
        cases hdisk : a.disk with
        | some i =>
          simp only [walk, hl, hdisk] at hmount
          simp only [trfsLookup, hdir, if_neg herr, walk, hl, hdisk]
          exact (hs.dAdd hvac (some i)).interpose_found (p := ⟨s.lower.next, dir.mnt⟩)
            ⟨hmiss.live, hmiss.isDir, hmiss.lowerPath, hmiss.vacant⟩ (hat _)
            (fun q i hq => hmount _ q i rfl hq) a.interpose
        | none =>
          simp only [trfsLookup, hdir, if_neg herr, walk, hl, hdisk, lookupNegative]
          split_ifs
          · exact hs.allocated parent name
          · exact (hs.dAdd hvac none).missing (p := ⟨s.lower.next, dir.mnt⟩)
              ⟨hmiss.live, hmiss.isDir, hmiss.lowerPath, hmiss.vacant⟩ (hat _)
                (by simp [lowerInodeAt])

end Steps

/-! ### Other operations -/

/-- Between two operations the dentries of trfs mirror the lower ones. -/
abbrev MirrorsLower (s : TreeState α) : Prop :=
  Mirrors TrfsInode.trfsLowerInode DirInode s.upper s.lower s.counterpart

/-- A new name is made for a dentry that is ready. -/
theorem Inv.make (hs : s.Inv) (hd : d ∈ s.ready) (vfs : Option FsInode) (ok : Bool) :
    (s.make w d vfs ok).MirrorsLower := by
  obtain ⟨e, he⟩ := hs.ready d hd
  obtain ⟨p, hp, rfl⟩ := exists_lowerPath he.faces.eq
  cases vfs with
  | none =>
    simp only [TreeState.make, hp]
    exact hs.mirrors
  | some i =>
    simp only [TreeState.make, hp, lowerInodeAt, he.unused, Option.isSome_none, Bool.false_eq_true,
      if_false]
    have hlower := hs.mirrors.dInstantiate he.unused i
    cases h : interpose w { s with lower := s.lower.dInstantiate p.dentry i } d p ok with
    | none => exact hlower
    | some t =>
      obtain ⟨j, hj, -, rfl⟩ := interpose_eq_some h
      have hij : i = j := by
        rw [lowerInodeAt, inode_dInstantiate_self] at hj
        exact Option.some_inj.mp hj
      subst hij
      exact hs.mirrors.make he ⟨i⟩

/-- A name is removed together with its lower name. -/
theorem Inv.remove (hs : s.Inv) (hd : s.upper.Shown d) (hp : s.lowerPath d = some p)
    (hchild : ∀ x, s.upper.Shown x → (s.upper.entry x).parent ≠ d) :
    MirrorsLower { s with upper := s.upper.dDrop d, lower := s.lower.dDrop p.dentry } := by
  have hcounter : s.counterpart d = some p.dentry := by
    rw [counterpart, hp]
    rfl
  refine (hs.mirrors.dDrop hchild).dDrop_lower fun x hx hxp => ?_
  rw [Shown, entry_dDrop] at hx
  by_cases hne : x = d
  · simp [hne] at hx
  · rw [if_neg hne] at hx
    exact hne (hs.mirrors.inj x d (.inr hx) (.inr hd) (hxp.trans hcounter.symm))

/-- `trfs_unlink`. -/
theorem Inv.unlink (hs : s.Inv) (hd : s.upper.Shown d) (hdir : ¬s.IsDir d) (vfs busy : Bool) :
    (s.trfsUnlink d vfs busy).MirrorsLower := by
  obtain ⟨i, hi⟩ := Option.isSome_iff_exists.mp hd.2
  have hchild := hs.mirrors.childless_of_not_dir hi fun h => hdir ⟨i, hi, h⟩
  obtain ⟨e, he, -⟩ := hs.mirrors.inode d i hi
  obtain ⟨p, hp, rfl⟩ := exists_lowerPath he
  simp only [trfsUnlink, hp]
  split_ifs
  · exact hs.mirrors
  · exact hs.remove hd hp hchild
  · exact hs.mirrors.dDrop hchild
  · exact hs.mirrors

/-- `trfs_rmdir`. -/
theorem Inv.rmdir (hs : s.Inv) (hd : s.upper.Shown d) (vfs : Bool) :
    (s.trfsRmdir d vfs).MirrorsLower := by
  obtain ⟨e, he⟩ := hs.mirrors.faces d hd
  obtain ⟨p, hp, rfl⟩ := exists_lowerPath he.eq
  simp only [trfsRmdir, hp]
  split_ifs with h
  · exact hs.remove hd hp (hs.mirrors.childless he.eq h.2)
  · exact hs.mirrors

/-- `trfs_rename`, if it returns. -/
theorem Inv.rename {old new : ℕ} (hs : s.Inv) (hold : s.upper.Shown old)
    (hnew : s.upper.Shown new ∨ new ∈ s.ready)
    (hne : (s.upper.entry old).inode ≠ (s.upper.entry new).inode) {vfs returns : Bool}
    (hreturns : vfs = true → returns = true) : (s.trfsRename old new vfs returns).MirrorsLower := by
  obtain ⟨i, hi⟩ := Option.isSome_iff_exists.mp hold.2
  obtain ⟨ea, hea, hia⟩ := hs.mirrors.inode old i hi
  obtain ⟨p, hp, rfl⟩ := exists_lowerPath hea
  have hnew' : ∃ q, s.lowerPath new = some q ∧
      (s.lower.entry p.dentry).inode ≠ (s.lower.entry q.dentry).inode ∧
      (s.lower.Childless q.dentry →
        Target DirInode s.upper s.lower s.counterpart new q.dentry) := by
    rcases hnew with hnew | hnew
    · obtain ⟨j, hj⟩ := Option.isSome_iff_exists.mp hnew.2
      obtain ⟨eb, heb, hjb⟩ := hs.mirrors.inode new j hj
      obtain ⟨q, hq, rfl⟩ := exists_lowerPath heb
      refine ⟨q, hq, fun heq => hne ?_, fun hchild => hs.mirrors.target_of_shown hnew heb hchild⟩
      rw [hia, hjb, Option.some_inj] at heq
      rw [hi, hj, show i = j from TrfsInode.ext heq]
    · obtain ⟨eb, heb⟩ := hs.ready new hnew
      obtain ⟨q, hq, rfl⟩ := exists_lowerPath heb.faces.eq
      refine ⟨q, hq, fun heq => ?_, fun _ => hs.mirrors.target_of_ready heb⟩
      rw [hia, heb.unused] at heq
      cases heq
  obtain ⟨q, hq, hinode, htarget⟩ := hnew'
  have hab : new ≠ old := by
    rintro rfl
    exact hne rfl
  simp only [trfsRename, hp, hq]
  split_ifs with h hr
  · rw [MirrorsLower, vfsRename, if_neg hinode]
    exact hs.mirrors.dMove hold hea (htarget h.2) hab
  · exact absurd (hreturns h.1) hr
  · exact hs.mirrors

end TreeState

/-- The tail of a rename returns if the paths fit or nothing is logged. -/
theorem RenameTail.returns_of_short {t : RenameTail}
    (h : ¬(traces t.state.sb.umask .rename ∧ t.env.pages.available ∧ t.op.plan.tail.TooLong)) :
    t.returns = true := by
  have hfits (hshort : ¬t.op.plan.tail.TooLong) : t.op.plan.tail.Fits :=
    TracedOp.fits_of_withinFormat ⟨Tail.path_le hshort, Tail.aux_le hshort (.inl rfl) rfl⟩
  obtain ⟨o, ho⟩ := (TracedOp.run_tail_iff hfits).mpr ⟨id, h⟩
  rw [returns, ho]

variable [DecidableEq α] {s s' : TreeState α} {c : TreeCall α}

/-- One operation keeps the invariant. -/
theorem TreeState.Inv.step (hs : s.Inv) (hc : c.Plain w s) (hstep : s.step w c = some s') :
    s'.Inv := by
  obtain ⟨haccepts, hcall⟩ := Option.ite_none_right_eq_some.mp hstep
  cases hcall
  cases c with
  | lookup parent name a => exact hs.lookup haccepts hc
  | create d vfs ok | mkdir d vfs ok | symlink d vfs ok | mknod d vfs ok =>
    exact ⟨hs.make haccepts vfs ok, fun x hx => (by cases hx)⟩
  | link old d vfs lowerPositive ok =>
    refine ⟨?_, fun x hx => (by cases hx)⟩
    obtain ⟨i, hi⟩ := Option.isSome_iff_exists.mp haccepts.1
    obtain ⟨e, he, -⟩ := hs.mirrors.inode old i hi
    obtain ⟨p, hp, rfl⟩ := TreeState.exists_lowerPath he
    simp only [TreeState.call, TreeState.trfsLink, hp]
    exact hs.make haccepts.2 _ ok
  | unlink d vfs busy => exact ⟨hs.unlink haccepts.1 haccepts.2 vfs busy, fun x hx => (by cases hx)⟩
  | rmdir d vfs => exact ⟨hs.rmdir haccepts vfs, fun x hx => (by cases hx)⟩
  | rename old new vfs tail =>
    exact ⟨hs.rename haccepts.1 haccepts.2.1 haccepts.2.2 fun hvfs =>
      RenameTail.returns_of_short (hc hvfs), fun x hx => (by cases hx)⟩

/-- **Both trees stay congruent.**  Take any sequence of operations on a mount, with any failures of
the lower calls and of interpositions.  If no lookup comes to a mount of the lower superblock, and
no path of a rename that succeeds below is too long for its record, then every hashed dentry with an
inode leads to a lower dentry with the lower inode of its inode, which has the same name and is in
the lower directory of its directory. -/
theorem congruent_of_run {name : α} {root : FsInode} {mnt : ℕ} {cs : List (TreeCall α)}
    (hrun : run (TreeState.step w) (.mounted name root mnt) cs = some s)
    (hcs : RunAllowed (TreeState.step w) (TreeCall.Plain w) (.mounted name root mnt) cs) :
    s.Congruent :=
  (run_invariant (fun _ _ _ hs hc hstep => TreeState.Inv.step hs hc hstep)
    (TreeState.inv_mounted name root mnt) hcs hrun).congruent

/-! ### A rename, and a mount of the lower superblock -/

/-- The root of a lower file system. -/
def rootInode : FsInode := ⟨0, 1, true⟩

/-- A lookup in which nothing fails. -/
def lookupOf (disk : Option FsInode) : TreeLookup := ⟨true, disk, true, true⟩

/-- A lower file system without mounts. -/
def noMounts : LowerMounts := ⟨0, fun _ => none⟩

/-- A short name is renamed on a new mount. -/
def shortTail : RenameTail := ⟨⟨dentryL, ⟨0⟩⟩, dentryL, .working, .mounted⟩

/-- Its paths fit a page. -/
theorem not_tooLong_shortTail : ¬shortTail.op.plan.tail.TooLong := by
  rintro (hlong | ⟨-, d, hd, hlong⟩)
  · exact absurd hlong (by decide)
  · cases hd
    exact absurd hlong (by decide)

/-- A directory is made, a file is created in it, and the file is renamed to another name in the
root. -/
def renameOut : List (TreeCall (List UInt8)) :=
  [.lookup 0 [97] (lookupOf none), .mkdir 1 (some ⟨0, 2, true⟩) true,
    .lookup 1 [98] (lookupOf none), .create 2 (some ⟨0, 3, false⟩) true,
    .lookup 0 [99] (lookupOf none), .rename 2 3 true shortTail]

/-- The file and its lower dentry have the new name, and both are in the root. -/
theorem congruent_renameOut :
    ∃ s, run (TreeState.step noMounts) (.mounted [] rootInode 0) renameOut = some s ∧
      (s.upper.entry 2).name = [99] ∧ (s.upper.entry 2).parent = 0 ∧ s.Congruent := by
  have hrun : run (TreeState.step noMounts) (.mounted [] rootInode 0) renameOut = some _ := rfl
  refine ⟨_, hrun, rfl, rfl, congruent_of_run hrun (runAllowed_of_forall (fun c hc s => ?_) _)⟩
  have hlookup (parent : ℕ) (name : List UInt8) :
      (TreeCall.lookup parent name (lookupOf none)).Plain noMounts s :=
    fun dir _ p q i _ hq => (by cases hq)
  simp only [renameOut, List.mem_cons, List.not_mem_nil, or_false] at hc
  rcases hc with rfl | rfl | rfl | rfl | rfl | rfl
  · exact hlookup 0 [97]
  · trivial
  · exact hlookup 1 [98]
  · trivial
  · exact hlookup 0 [99]
  · exact fun _ hlong => not_tooLong_shortTail hlong.2.2

/-- The lower directory `a` is also mounted on the lower directory `b`. -/
def bindMount : LowerMounts := ⟨0, fun p => if p = ⟨2, 0⟩ then some ⟨1, 1⟩ else none⟩

/-- Both directories are looked up. -/
def lookupBoth : List (TreeCall (List UInt8)) :=
  [.lookup 0 [97] (lookupOf (some ⟨0, 2, true⟩)), .lookup 0 [98] (lookupOf (some ⟨0, 3, true⟩))]

/-- The dentry `b` has the lower path of `a`, on the same superblock, and its name is not that of
the lower dentry. -/
theorem not_congruent_bindMount :
    ∃ s, run (TreeState.step bindMount) (.mounted [] rootInode 0) lookupBoth = some s ∧
      ¬s.Congruent := by
  refine ⟨_, rfl, fun h => ?_⟩
  obtain ⟨p, hp, -, hname, -⟩ := h 2 _ (by decide) rfl rfl
  cases hp
  revert hname
  decide

end Stack

end Trfs
