import TraceFileSystem.Lib.Machine
import TraceFileSystem.Stack.LowerPaths

/-!
# The balance of lower paths

Between two calls trfs holds one reference to a lower dentry and one to a lower mount for each live
dentry with a lower path, and no lock (`StackState.Balanced`).  Every operation gives back what it
takes on all its ways out, with two exceptions: `trfs_lookup` moves its references into the dentry,
and takes them back when the interposition fails; `trfs_d_release` gives back those of the dentry.

The rules `returns_…` say this of one operation after the other.  An operation that does not get
through its logging tail does not come to its way out: it faults with references and locks held.  By
`settles_run_iff` this is the only way to lose the balance.  A `symlink` that fails is such an
operation, because its tail looks for the superblock behind a dentry without an inode.
-/

namespace Trfs

open LabelledSystem Programs

namespace Stack

/-! ### Balance -/

/-- The references that belong to a dentry: one to the dentry and one to the mount of its lower
path, and none if it has no lower path. -/
def refs : Option LowerPath → Resource → ℤ
  | none => 0
  | some p => Pi.single (.dentry p.dentry) 1 + Pi.single (.mnt p.mnt) 1

/-- Trfs holds the references of its live dentries and nothing else; in particular no lock is
taken. -/
def StackState.Balanced (s : StackState) : Prop :=
  s.holds = (s.live.map fun d => refs (s.lowerPath d)).sum

/-- A dentry has a lower path after its lookup has succeeded, and none after it has failed. -/
def StackCall.Looked (r : Ret) (s : StackState) : StackCall → Prop
  | .lookup _ d _ =>
    match r with
    | .ptr (.ok _) => (s.lowerPath d).isSome
    | .ptr (.error _) => s.fsdata d = some none ∨ s.fsdata d = none
    | _ => False
  | _ => True

/-- A call settles: it returns, and the references of the live dentries are held and no lock. -/
def StackCall.Settles (s : StackState) (c : StackCall) : Prop :=
  s.Accepts c → Returns c.program s fun r s' => s'.Balanced ∧ c.Looked r s'

/-- A call leaves a balance behind if it returns. -/
def StackCall.SettlesIfReturns (s : StackState) (c : StackCall) : Prop :=
  s.Accepts c → ∀ r s', c.program s = .ok r s' → s'.Balanced ∧ c.Looked r s'

/-- A traced operation gets through its logging tail: it is not a `symlink` that failed, and when
there are pages for a record, its paths fit into them. -/
def StackCall.Passes (s : StackState) (c : StackCall) : Prop :=
  s.Accepts c → ∀ op env, c.traced = some (op, env) → ¬op.SymlinkFails ∧
    ¬(traces s.sb.umask op.plan.tail.type ∧ env.pages.available ∧ op.plan.tail.TooLong)

/-! ### Rules for the helpers -/

section Rules

variable {s : StackState} {Q : Unit → StackState → Prop} {r : Resource}

/-- One more is held. -/
@[simp] theorem returns_acquire :
    Returns (acquire r) s Q ↔ Q () { s with holds := s.holds + Pi.single r 1 } := by
  simp [acquire]

/-- One less is held. -/
@[simp] theorem returns_release :
    Returns (release r) s Q ↔ Q () { s with holds := s.holds - Pi.single r 1 } := by
  simp [release]

/-- A lock is taken if it is free. -/
@[simp] theorem returns_lock :
    Returns (lock r) s Q ↔ s.holds r ≤ 0 ∧ Q () { s with holds := s.holds + Pi.single r 1 } := by
  by_cases h : 0 < s.holds r
  · simp [lock, not_le.mpr h]
  · simp [lock, not_lt.mp h]

/-- The private data is written. -/
@[simp] theorem returns_setFsdata {d : ℕ} {info : Option (Option LowerPath)} :
    Returns (setFsdata d info) s Q ↔
      Q () { s with fsdata := Function.update s.fsdata d info } := by
  simp [setFsdata]

variable {d : ℕ} {p : LowerPath}

/-- The private data is read. -/
theorem returns_trfsD {Q : Option LowerPath → StackState → Prop} {lp : Option LowerPath}
    (h : s.fsdata d = some lp) : Returns (trfsD d) s Q ↔ Q lp s := by
  simp [trfsD, h]

/-- A lower path that is set is returned with references. -/
theorem returns_trfsGetLowerPath {Q : LowerPath → StackState → Prop} (h : s.lowerPath d = some p) :
    Returns (trfsGetLowerPath d) s Q ↔
      Q p { s with
        holds := s.holds + Pi.single (.mnt p.mnt) 1 + Pi.single (.dentry p.dentry) 1 } := by
  have hdata : s.fsdata d = some (some p) := by
    simpa [StackState.lowerPath, Option.join_eq_some_iff] using h
  simp [trfsGetLowerPath, returns_trfsD hdata, pathGet]

/-- The lower path of a dentry with private data is set. -/
theorem returns_trfsSetLowerPath {lp : Option LowerPath} (h : s.fsdata d = some lp) :
    Returns (trfsSetLowerPath d p) s Q ↔
      Q () { s with fsdata := Function.update s.fsdata d (some (some p)) } := by
  simp [trfsSetLowerPath, returns_trfsD h]

/-- The lower path of a dentry is emptied, and its references are given back. -/
theorem returns_trfsPutResetLowerPath {lp : Option LowerPath} (h : s.fsdata d = some lp) :
    Returns (trfsPutResetLowerPath d) s Q ↔
      Q () { s with
        fsdata := Function.update s.fsdata d (some none), holds := s.holds - refs lp } := by
  cases lp with
  | none => simp [trfsPutResetLowerPath, returns_trfsD h, refs]
  | some p => simp [trfsPutResetLowerPath, returns_trfsD h, refs, pathPut, sub_sub]

end Rules

section Tails

variable {s : StackState} {env : TailEnv} {t : Tail}

/-- The state after a logging tail. -/
def StackState.logged (s : StackState) (o : OpState) : StackState :=
  { s with sb := o.sb, kernel := o.kernel, trfsLock := o.trfsLock }

/-- A logging tail that gets `trfs_lock`. -/
theorem returns_logTail {Q : Unit → StackState → Prop} (hlock : s.trfsLock = false) :
    Returns (logTail env t) s Q ↔
      ∃ o, t.run env ⟨s.sb, s.kernel, false, []⟩ = .ok o ∧ Q () (s.logged o) := by
  unfold Returns logTail
  simp only [hlock, Bool.false_eq_true, and_false, if_false]
  cases t.run env ⟨s.sb, s.kernel, false, []⟩ with
  | error f => simp
  | ok o =>
    constructor
    · rintro ⟨_, _, h, hQ⟩
      cases h
      exact ⟨o, rfl, hQ⟩
    · rintro ⟨_, h, hQ⟩
      cases h
      exact ⟨(), _, rfl, hQ⟩

end Tails

/-! ### One rule for each operation -/

/-- No lock is taken. -/
structure StackState.Quiet (s : StackState) : Prop where
  free : ∀ i, s.holds (.lock i) = 0
  freeRename : s.holds .renameMutex = 0
  unlocked : s.trfsLock = false

section Operations

variable {s : StackState} {Q : CInt → StackState → Prop} {d d' : ℕ} {p p' : LowerPath}
  {dir dir' : LowerDir} {plan : Plan} {env : TailEnv}

/-- `trfs_create`, `trfs_symlink`, `trfs_mkdir` and `trfs_rmdir` give back what they take. -/
theorem returns_inLowerDir (hp : s.lowerPath d = some p) (hs : s.Quiet) :
    Returns (inLowerDir d dir env plan) s Q ↔
      ∃ o, plan.tail.run env ⟨s.sb, s.kernel, false, []⟩ = .ok o ∧ Q plan.ret (s.logged o) := by
  simp [inLowerDir, returns_trfsGetLowerPath hp, lockParent, hs.free, returns_logTail, hs.unlocked,
    unlockDir, trfsPutLowerPath, pathPut, StackState.logged]

/-- `trfs_unlink` gives back what it takes. -/
theorem returns_trfsUnlink (hp : s.lowerPath d = some p) (hs : s.Quiet) :
    Returns (trfsUnlink d dir env plan) s Q ↔
      ∃ o, plan.tail.run env ⟨s.sb, s.kernel, false, []⟩ = .ok o ∧ Q plan.ret (s.logged o) := by
  simp [trfsUnlink, returns_trfsGetLowerPath hp, lockParent, hs.free, returns_logTail, hs.unlocked,
    unlockDir, trfsPutLowerPath, pathPut, StackState.logged]

/-- `trfs_link` gives back what it takes. -/
theorem returns_trfsLink (hp : s.lowerPath d = some p) (hp' : s.lowerPath d' = some p')
    (hs : s.Quiet) : Returns (trfsLink d d' dir env plan) s Q ↔
      ∃ o, plan.tail.run env ⟨s.sb, s.kernel, false, []⟩ = .ok o ∧ Q plan.ret (s.logged o) := by
  simp only [trfsLink, returns_bind, returns_trfsGetLowerPath hp]
  rw [returns_trfsGetLowerPath (p := p') (by exact hp')]
  simp only [lockParent, returns_bind, returns_acquire, returns_lock, unlockDir,
    returns_release, trfsPutLowerPath, pathPut, returns_pure]
  simp only [Pi.add_apply, hs.free, Pi.single_apply, reduceCtorEq, if_false, add_zero, le_refl,
    true_and]
  rw [returns_logTail (by exact hs.unlocked)]
  simp only [StackState.logged]
  refine exists_congr fun o => and_congr_right fun _ => ?_
  congr! 2
  abel

/-- `trfs_rename` gives back what it takes. -/
theorem returns_trfsRename (hp : s.lowerPath d = some p) (hp' : s.lowerPath d' = some p')
    (hs : s.Quiet) (hdir : dir.inode = dir'.inode → dir = dir') :
    Returns (trfsRename d d' dir dir' env plan) s Q ↔
      ∃ o, plan.tail.run env ⟨s.sb, s.kernel, false, []⟩ = .ok o ∧ Q plan.ret (s.logged o) := by
  simp only [trfsRename, returns_bind, returns_trfsGetLowerPath hp]
  rw [returns_trfsGetLowerPath (p := p') (by exact hp')]
  by_cases heq : dir = dir'
  · simp only [lockRename, unlockRename, heq, if_true, returns_bind, returns_acquire, returns_lock,
      returns_release, trfsPutLowerPath, pathPut, returns_pure]
    simp only [Pi.add_apply, hs.free, Pi.single_apply, reduceCtorEq, if_false, add_zero, le_refl,
      true_and]
    rw [returns_logTail (by exact hs.unlocked)]
    simp only [StackState.logged]
    refine exists_congr fun o => and_congr_right fun _ => ?_
    congr! 2
    abel
  · have hne : dir'.inode ≠ dir.inode := fun h => heq (hdir h.symm)
    simp only [lockRename, unlockRename, heq, if_false, returns_bind, returns_acquire, returns_lock,
      returns_release, trfsPutLowerPath, pathPut, returns_pure]
    simp only [Pi.add_apply, hs.free, hs.freeRename, Pi.single_apply, reduceCtorEq,
      Resource.lock.injEq, hne, if_false, add_zero, le_refl, true_and]
    rw [returns_logTail (by exact hs.unlocked)]
    simp only [StackState.logged]
    refine exists_congr fun o => and_congr_right fun _ => ?_
    congr! 2
    abel

/-- `trfs_mknod` gives back what it takes. -/
theorem returns_trfsMknod {vfs interpose : CInt} (hp : s.lowerPath d = some p) (hs : s.Quiet) :
    Returns (trfsMknod d dir vfs interpose) s Q ↔ Q (thenInterpose vfs interpose) s := by
  simp [trfsMknod, returns_trfsGetLowerPath hp, lockParent, hs.free, unlockDir, trfsPutLowerPath,
    pathPut]

/-- The operations on one lower path give back what they take. -/
theorem returns_onLowerPath {err : CInt} (hp : s.lowerPath d = some p) :
    Returns (onLowerPath d err) s Q ↔ Q err s := by
  simp [onLowerPath, returns_trfsGetLowerPath hp, trfsPutLowerPath, pathPut]

/-- `trfs_d_revalidate` gives back what it takes. -/
theorem returns_trfsDRevalidate {rcu has : Bool} {err : CInt} (hp : s.lowerPath d = some p) :
    Returns (trfsDRevalidate d rcu has err) s Q ↔
      Q (if rcu then negECHILD else if has then err else 1) s := by
  unfold trfsDRevalidate
  cases rcu <;> simp [returns_onLowerPath hp]

/-- `trfs_fsync` gives back what it takes. -/
theorem returns_trfsFsync {generic err : CInt} (hp : s.lowerPath d = some p) :
    Returns (trfsFsync d generic err) s Q ↔ Q (if generic ≠ 0 then generic else err) s := by
  unfold trfsFsync
  split_ifs <;> simp [returns_onLowerPath hp]

/-- `trfs_open` gives back what it takes. -/
theorem returns_trfsOpen {unhashed alloc : Bool} {err : CInt} (hp : s.lowerPath d = some p) :
    Returns (trfsOpen d unhashed alloc err) s Q ↔
      Q (if unhashed then negENOENT else if alloc = false then negENOMEM else err) s := by
  unfold trfsOpen
  split_ifs <;> simp [returns_trfsGetLowerPath hp, pathPut]

/-- `trfs_setattr` gives back what it takes. -/
theorem returns_trfsSetattr {lowerInode : ℕ} {changeOk newsizeOk err : CInt}
    (hp : s.lowerPath d = some p) (hs : s.Quiet) :
    Returns (trfsSetattr d lowerInode changeOk newsizeOk err) s Q ↔
      Q (if changeOk ≠ 0 then changeOk else if newsizeOk ≠ 0 then newsizeOk else err) s := by
  unfold trfsSetattr
  split_ifs <;>
    simp [returns_trfsGetLowerPath hp, hs.free, trfsPutLowerPath, pathPut]

/-- `__trfs_lookup` holds the references of a lower path exactly if it has left one in the
dentry. -/
theorem returns_lookupLower {env : LookupEnv} (hd : s.fsdata d = some none) :
    Returns (lookupLower d p env) s fun r s' => ∃ lp,
      s' = { s with fsdata := Function.update s.fsdata d (some lp), holds := s.holds + refs lp } ∧
      match r with
      | .ok _ => lp.isSome
      | .error _ => lp = none := by
  have hsame : Function.update s.fsdata d (some none) = s.fsdata := by
    rw [← hd, Function.update_eq_self]
  unfold lookupLower
  cases env.vfsPathLookup with
  | ok lowerPath =>
    simp only [pathGet, returns_bind, returns_acquire]
    rw [returns_trfsSetLowerPath (by exact hd)]
    cases env.interpose with
    | ok ret =>
      refine (returns_pure _).mpr ⟨some lowerPath, ?_, rfl⟩
      rw [refs, add_assoc, add_comm (Pi.single (Resource.mnt _) _)]
    | error err =>
      simp only [returns_bind]
      rw [returns_trfsPutResetLowerPath (Function.update_self d (some (some lowerPath)) s.fsdata)]
      refine (returns_pure _).mpr ⟨none, ?_, rfl⟩
      simp [refs]
      abel
  | error err =>
    simp only [returns_ite]
    split_ifs with herr
    · exact (returns_pure _).mpr ⟨none, by simp [refs, hsame], rfl⟩
    · cases env.dLookup <|> env.dAlloc with
      | none => exact (returns_pure _).mpr ⟨none, by simp [refs, hsame], rfl⟩
      | some lowerDentry =>
        simp only [returns_bind, returns_acquire]
        rw [returns_trfsSetLowerPath (by exact hd)]
        refine (returns_pure _).mpr ⟨some ⟨lowerDentry, p.mnt⟩, ?_, rfl⟩
        rw [refs, add_assoc]

/-- `trfs_lookup` holds the references of a lower path exactly if it has left one in the dentry. -/
theorem returns_trfsLookup {parent : ℕ} {env : LookupEnv} (hp : s.lowerPath parent = some p)
    (hd : s.fsdata d = none) : Returns (trfsLookup parent d env) s fun r s' => ∃ info,
      s' = { s with
        fsdata := Function.update s.fsdata d info, holds := s.holds + refs info.join } ∧
      match r with
      | .ok _ => info.join.isSome
      | .error _ => info = some none ∨ info = none := by
  simp only [trfsLookup, returns_bind, returns_trfsGetLowerPath hp, returns_ite]
  split_ifs with hpriv
  · have hsame : Function.update s.fsdata d none = s.fsdata := by
      rw [← hd, Function.update_eq_self]
    simp only [trfsPutLowerPath, pathPut, returns_bind, returns_release, returns_pure]
    refine ⟨none, ?_, .inr rfl⟩
    simp [refs, hsame]
  · simp only [returns_setFsdata]
    refine (returns_lookupLower (by simp)).mono fun r s' => ?_
    rintro ⟨lp, rfl, hlp⟩
    simp only [trfsPutLowerPath, pathPut, returns_bind, returns_release, returns_pure]
    refine ⟨some lp, ?_, ?_⟩
    · simp
      abel
    · cases r with
      | ok ret => exact hlp
      | error err => exact .inl (by rw [hlp])

end Operations

/-! ### Runs -/

namespace StackState

variable {s s' : StackState} {c : StackCall} {d : ℕ}

/-- What holds between two calls. -/
structure Inv (s : StackState) : Prop where
  balanced : s.Balanced
  nodup : s.live.Nodup
  unlocked : s.trfsLock = false

/-- The references of a list of dentries include no lock. -/
theorem sum_refs_lock (ds : List (Option LowerPath)) (i : ℕ) :
    (ds.map refs).sum (.lock i) = 0 ∧ (ds.map refs).sum .renameMutex = 0 := by
  induction ds with
  | nil => exact ⟨rfl, rfl⟩
  | cons lp ds ih =>
    cases lp <;> simp [refs, ih.1, ih.2]

/-- Between two calls no lock is taken. -/
theorem Inv.quiet (hs : s.Inv) : s.Quiet := by
  have hholds : s.holds = ((s.live.map s.lowerPath).map refs).sum := by
    rw [List.map_map]
    exact hs.balanced
  refine ⟨fun i => ?_, ?_, hs.unlocked⟩
  · rw [hholds]
    exact (sum_refs_lock _ i).1
  · rw [hholds]
    exact (sum_refs_lock _ 0).2

/-- A new mount holds the references of its root. -/
theorem inv_mounted (root : LowerPath) (sb : SbInfo) (kernel : Kernel) :
    (mounted root sb kernel).Inv where
  balanced := by simp [Balanced, mounted, lowerPath, refs]
  nodup := List.nodup_singleton 0
  unlocked := rfl

/-- A logging tail does not touch lower paths. -/
theorem Inv.logged (hs : s.Inv) {o : OpState} (ho : o.trfsLock = false) : (s.logged o).Inv :=
  ⟨hs.balanced, hs.nodup, ho⟩

/-- The lower paths of the other dentries. -/
theorem sum_refs_congr {ds : List ℕ} {f g : ℕ → Option LowerPath} (h : ∀ d ∈ ds, f d = g d) :
    (ds.map fun d => refs (f d)).sum = (ds.map fun d => refs (g d)).sum := by
  rw [List.map_congr_left fun d hd => by rw [h d hd]]

/-- A new dentry comes with its references. -/
theorem Inv.looked (hs : s.Inv) (hd : d ∉ s.live) (info : Option (Option LowerPath)) :
    Inv { s with
      live := d :: s.live, fsdata := Function.update s.fsdata d info
      holds := s.holds + refs info.join } where
  balanced := by
    have hothers : ∀ e ∈ s.live, (Function.update s.fsdata d info e).join = s.lowerPath e := by
      intro e he
      have hne : e ≠ d := fun h => hd (h ▸ he)
      rw [Function.update_of_ne hne, lowerPath]
    simp only [Balanced, List.map_cons, List.sum_cons, lowerPath, Function.update_self]
    rw [sum_refs_congr hothers, hs.balanced, add_comm]
  nodup := List.nodup_cons.mpr ⟨hd, hs.nodup⟩
  unlocked := hs.unlocked

/-- A dentry goes with its references. -/
theorem Inv.released (hs : s.Inv) (hd : d ∈ s.live) :
    Inv { s with
      live := s.live.erase d, fsdata := Function.update s.fsdata d none
      holds := s.holds - refs (s.lowerPath d) } where
  balanced := by
    have hothers : ∀ e ∈ s.live.erase d,
        (Function.update s.fsdata d none e).join = s.lowerPath e := by
      intro e he
      rw [Function.update_of_ne (hs.nodup.mem_erase_iff.mp he).1, lowerPath]
    have hsum := ((List.perm_cons_erase hd).map fun e => refs (s.lowerPath e)).sum_eq
    rw [List.map_cons, List.sum_cons] at hsum
    change s.holds - refs (s.lowerPath d) =
      ((s.live.erase d).map fun e => refs (Function.update s.fsdata d none e).join).sum
    rw [sum_refs_congr hothers, hs.balanced, hsum, add_sub_cancel_left]
  nodup := hs.nodup.erase d
  unlocked := hs.unlocked

/-- A call that the VFS makes gets a lower path from each of its dentries. -/
theorem Accepts.lowerPath (hc : s.Accepts c) {d : ℕ} (hd : d ∈ c.dentries) :
    ∃ p, s.lowerPath d = some p :=
  Option.isSome_iff_exists.mp (hc.1 d hd).2

/-- A traced operation returns exactly if its logging tail does, and leaves lower paths and what is
held as they were. -/
theorem Inv.returns_traced (hs : s.Inv) (hc : s.Accepts c) {op : TracedOp} {env : TailEnv}
    (hop : c.traced = some (op, env)) {Q : Ret → StackState → Prop} :
    Returns c.program s Q ↔ ∃ o, op.plan.tail.run env ⟨s.sb, s.kernel, false, []⟩ = .ok o ∧
      Q (.code op.plan.ret) (s.logged o) := by
  cases c with
  | create d lowerDir dir dentry mode vfs interpose env'
  | mkdir d lowerDir dir dentry mode vfs interpose env'
  | symlink d lowerDir dir dentry symname vfs interpose env'
  | rmdir d lowerDir dir dentry vfs env' =>
    obtain ⟨p, hp⟩ := hc.lowerPath (d := d) (by simp [StackCall.dentries])
    cases hop
    exact returns_map.trans (returns_inLowerDir hp hs.quiet)
  | unlink d lowerDir dir dentry vfs nfsRenamed env' =>
    obtain ⟨p, hp⟩ := hc.lowerPath (d := d) (by simp [StackCall.dentries])
    cases hop
    exact returns_map.trans (returns_trfsUnlink hp hs.quiet)
  | link oldD newD lowerDir old new vfs lowerPositive interpose env' =>
    obtain ⟨p, hp⟩ := hc.lowerPath (d := oldD) (by simp [StackCall.dentries])
    obtain ⟨p', hp'⟩ := hc.lowerPath (d := newD) (by simp [StackCall.dentries])
    cases hop
    exact returns_map.trans (returns_trfsLink hp hp' hs.quiet)
  | rename oldD newD oldDir newDir old new trap vfs env' =>
    obtain ⟨p, hp⟩ := hc.lowerPath (d := oldD) (by simp [StackCall.dentries])
    obtain ⟨p', hp'⟩ := hc.lowerPath (d := newD) (by simp [StackCall.dentries])
    cases hop
    exact returns_map.trans (returns_trfsRename hp hp' hs.quiet hc.2)
  | _ => cases hop

/-- `trfs_lookup` on a new dentry. -/
theorem Inv.returns_lookup (hs : s.Inv) {parent : ℕ} {env : LookupEnv}
    (hc : s.Accepts (.lookup parent d env)) :
    Returns (StackCall.lookup parent d env).program s fun r s' =>
      s'.Inv ∧ (StackCall.lookup parent d env).Looked r s' := by
  obtain ⟨p, hp⟩ := hc.lowerPath (d := parent) (by simp [StackCall.dentries])
  have hfresh : d ∉ s.live := hc.2
  have hne : parent ≠ d := fun h => hfresh (h ▸ (hc.1 parent (by simp [StackCall.dentries])).1)
  let t : StackState :=
    { s with live := d :: s.live, fsdata := Function.update s.fsdata d none }
  have hp' : t.lowerPath parent = some p := by
    rw [← hp, lowerPath, lowerPath, show t.fsdata parent = s.fsdata parent from
      Function.update_of_ne hne _ _]
  have hdata : t.fsdata d = none := Function.update_self d none s.fsdata
  simp only [StackCall.program, returns_bind, returns_modify, returns_map]
  refine (returns_trfsLookup hp' hdata).mono fun r s' => ?_
  rintro ⟨info, rfl, hinfo⟩
  rw [show Function.update t.fsdata d info = Function.update s.fsdata d info from
    Function.update_idem _ _ _]
  refine ⟨hs.looked hfresh info, ?_⟩
  cases r with
  | ok ret => simpa [StackCall.Looked, lowerPath] using hinfo
  | error err => simpa [StackCall.Looked] using hinfo

/-- A dentry is released. -/
theorem Inv.returns_dRelease (hs : s.Inv) (hd : d ∈ s.live) :
    Returns (StackCall.dRelease d).program s fun _ s' => s'.Inv := by
  simp only [StackCall.program, returns_bind, returns_get, returns_ite, returns_modify,
    returns_pure]
  have hreleased := hs.released hd
  cases hdata : s.fsdata d with
  | none =>
    have hsame : Function.update s.fsdata d none = s.fsdata := by
      rw [← hdata, Function.update_eq_self]
    rw [hsame, StackState.lowerPath, hdata] at hreleased
    simpa [refs] using hreleased
  | some lp =>
    rw [StackState.lowerPath, hdata] at hreleased
    simp only [Option.isSome_some, if_true, trfsDRelease, returns_bind]
    rw [returns_trfsPutResetLowerPath hdata]
    simpa using hreleased

/-- An operation without a logging tail returns. -/
theorem Inv.returns_untraced (hs : s.Inv) (hc : s.Accepts c) (hop : c.traced = none) :
    Returns c.program s fun r s' => s'.Inv ∧ c.Looked r s' := by
  cases c with
  | lookup parent d env => exact hs.returns_lookup hc
  | dRelease d => exact (hs.returns_dRelease hc.2).mono fun _ _ hs' => ⟨hs', trivial⟩
  | mknod d lowerDir vfs interpose =>
    obtain ⟨p, hp⟩ := hc.lowerPath (d := d) (by simp [StackCall.dentries])
    exact returns_map.mpr ((returns_trfsMknod hp hs.quiet).mpr ⟨hs, trivial⟩)
  | setattr d lowerInode changeOk newsizeOk err =>
    obtain ⟨p, hp⟩ := hc.lowerPath (d := d) (by simp [StackCall.dentries])
    exact returns_map.mpr ((returns_trfsSetattr hp hs.quiet).mpr ⟨hs, trivial⟩)
  | fileOpen d unhashed alloc err =>
    obtain ⟨p, hp⟩ := hc.lowerPath (d := d) (by simp [StackCall.dentries])
    exact returns_map.mpr ((returns_trfsOpen hp).mpr ⟨hs, trivial⟩)
  | fsync d generic err =>
    obtain ⟨p, hp⟩ := hc.lowerPath (d := d) (by simp [StackCall.dentries])
    exact returns_map.mpr ((returns_trfsFsync hp).mpr ⟨hs, trivial⟩)
  | dRevalidate d rcu has err =>
    obtain ⟨p, hp⟩ := hc.lowerPath (d := d) (by simp [StackCall.dentries])
    exact returns_map.mpr ((returns_trfsDRevalidate hp).mpr ⟨hs, trivial⟩)
  | readlink d has err | getattr d err | setxattr d has err | getxattr d has err
  | listxattr d has err | removexattr d has err | statfs d err =>
    obtain ⟨p, hp⟩ := hc.lowerPath (d := d) (by simp [StackCall.dentries])
    exact returns_map.mpr ((returns_onLowerPath hp).mpr ⟨hs, trivial⟩)
  | _ => cases hop

/-- What the VFS promises makes a record fit if the paths do. -/
theorem fits_of_promised {op : TracedOp} {env : TailEnv} (hop : c.traced = some (op, env))
    (hc : c.Promised s) (hshort : ¬op.plan.tail.TooLong) : op.plan.tail.Fits := by
  refine TracedOp.fits_of_withinFormat ⟨Tail.path_le hshort, ?_⟩
  cases c with
  | symlink d lowerDir dir dentry symname vfs interpose env' =>
    cases hop
    exact hc
  | link oldD newD lowerDir old new vfs lowerPositive interpose env' =>
    cases hop
    exact Tail.aux_le hshort (.inr rfl) rfl
  | rename oldD newD oldDir newDir old new trap vfs env' =>
    cases hop
    exact Tail.aux_le hshort (.inl rfl) rfl
  | create | unlink | mkdir | rmdir =>
    cases hop
    trivial
  | _ => cases hop

/-- A call settles exactly if it passes its logging tail. -/
theorem Inv.settles_iff (hs : s.Inv) : c.Settles s ↔ c.Passes s := by
  refine forall_congr' fun hc => ?_
  cases hop : c.traced with
  | none =>
    simp only [reduceCtorEq, false_implies, implies_true, iff_true]
    exact (hs.returns_untraced hc hop).mono fun r s' hs' => ⟨hs'.1.balanced, hs'.2⟩
  | some x =>
    obtain ⟨op, env⟩ := x
    have htail := @TracedOp.run_tail_iff env op ⟨s.sb, s.kernel, false, []⟩
      (fits_of_promised hop hc.2)
    rw [hs.returns_traced hc hop]
    constructor
    · rintro ⟨o, ho, -⟩ op' env' hop'
      cases hop'
      exact htail.mp ⟨o, ho⟩
    · intro hpass
      obtain ⟨o, ho⟩ := htail.mpr (hpass op env rfl)
      refine ⟨o, ho, hs.balanced, ?_⟩
      cases c with
      | lookup parent d env => cases hop
      | _ => trivial

/-- A call that settles leaves the invariant behind. -/
theorem Inv.step (hs : s.Inv) (hc : c.Settles s) (hstep : s.step c = some s') : s'.Inv := by
  obtain ⟨haccepts, hlast⟩ := Option.ite_none_right_eq_some.mp hstep
  cases hlast
  have hreturns : Returns c.program s fun _ s' => s'.Inv := by
    cases hop : c.traced with
    | none => exact (hs.returns_untraced haccepts hop).mono fun _ _ hs' => hs'.1
    | some x =>
      obtain ⟨o, ho, -⟩ := (hs.returns_traced haccepts hop).mp (hc haccepts)
      exact (hs.returns_traced haccepts hop).mpr ⟨o, ho, hs.logged (Tail.trfsLock_of_run ho)⟩
  exact hreturns.lastState.choose_spec

end StackState

/-- **The balance of lower paths.**  Take any sequence of lookups, releases and other operations on
a mount, with any results of the lower calls and allocations.  Every call of it returns with exactly
the references of the live dentries held and no lock, a dentry having a lower path after a
successful lookup and none after a failed one, if and only if every traced operation of it gets
through its logging tail: no `symlink` fails, and no path of an operation that is traced is too long
for its page. -/
theorem settles_run_iff (root : LowerPath) (sb : SbInfo) (kernel : Kernel) (cs : List StackCall) :
    RunAllowed StackState.step StackCall.Settles (.mounted root sb kernel) cs ↔
      RunAllowed StackState.step StackCall.Passes (.mounted root sb kernel) cs :=
  runAllowed_congr (fun _ _ hs => hs.settles_iff) (fun _ _ _ hs hc hstep => hs.step hc hstep)
    (StackState.inv_mounted root sb kernel)

/-! ### A symlink that fails -/

/-- A name in the root is looked up, a symlink with this name cannot be made, and someone asks for
the statistics of the file system. -/
def failedSymlink : List StackCall :=
  [.lookup 0 1 ⟨true, .error negENOENT, .ok none, none, some 1⟩,
    .symlink 1 ⟨0, 0⟩ ⟨0⟩ dentryL ⟨[115], by decide⟩ (BitVec.ofInt 32 (-28)) 0 .working,
    .statfs 0 0]

/-- The `symlink` faults with references and a lock held, and they are still held when `trfs_statfs`
returns. -/
theorem not_settles_failedSymlink :
    ¬RunAllowed StackState.step StackCall.SettlesIfReturns
      (.mounted ⟨0, 0⟩ (.mounted []) ⟨-1, [], []⟩) failedSymlink := by
  intro h
  have hstat := (h.2 _ rfl).2 _ rfl
  obtain ⟨hbalanced, -⟩ := hstat.1 (by decide) _ _ rfl
  have hlock := congrFun hbalanced (.lock 0)
  revert hlock
  decide

end Stack

end Trfs
