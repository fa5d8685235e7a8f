import TraceFileSystem.Concurrency.SameDirectory
import Mathlib.Algebra.Order.BigOperators.Group.Finset
import Mathlib.Data.Set.Finite.Basic

/-!
# Calls return

A thread waits for the locks of the lower parents of its call, and for `trfs_lock` while it holds
them.  Only a rename between two directories holds one lower parent while it waits for the other
one, and `lock_rename` does this under a mutex of the superblock, `s_vfs_rename_mutex`.

* `FsEvent.Serial` is the discipline of this mutex.  It also gives a new directory an inode that
  nobody else has.
* `nextEvent` is how a thread goes on in its call, and `GoesOn` says that it can do so whatever is
  allocated and written.
* `Locked`, `OneRename` and `Unclaimed` are the parts of the invariant: which locks a thread holds,
  that at most one rename holds locks, and that the inodes of new directories are free.

`exists_goesOn_of_run` says that there is no deadlock unless the kernel has stopped a thread, and
`calls_return` that the calls in progress return after at most 13 steps each.
-/

namespace Trfs

open LabelledSystem

/-! ### Locks of lower directories -/

/-- The lower parents a call has still to lock, or to release. -/
def Phase.rest : Phase → List ℕ
  | locking rest => rest
  | leaving rest => rest
  | _ => []

/-- A call that stands here holds the lock of a lower parent. -/
def Phase.HasLock (d : ℕ) : Phase → Prop
  | locking rest => d ∉ rest
  | leaving rest => d ∈ rest
  | _ => True

/-- The call holds the lock of a lower directory. -/
def Activity.HasLock (a : Activity) (d : ℕ) : Prop := d ∈ a.task.lowerDirs ∧ a.phase.HasLock d

/-- A rename between two directories. -/
def Task.CrossDir (k : Task) : Prop := 2 ≤ k.lowerDirs.length

/-- At most two lower parents are locked, and none of them twice. -/
theorem Task.lowerDirs_nodup (k : Task) : k.lowerDirs.Nodup ∧ k.lowerDirs.length ≤ 2 := by
  obtain ⟨num, op, home, object⟩ := k
  cases op with
  | rename oldParent newParent old new trap vfs =>
    change (if oldParent = newParent then [oldParent] else [oldParent, newParent]).Nodup ∧
      (if oldParent = newParent then [oldParent] else [oldParent, newParent]).length ≤ 2
    split
    · simp
    · next hne => simp [hne]
  | write dentry fFlags buf count vfs =>
    change ([] : List ℕ).Nodup ∧ ([] : List ℕ).length ≤ 2
    simp
  | _ =>
    change [_].Nodup ∧ [_].length ≤ 2
    simp

/-- A call that holds one lower parent and waits for another one renames between two directories. -/
theorem Activity.HasLock.crossDir {a : Activity} {d d' : ℕ} (h : a.HasLock d) {rest : List ℕ}
    (hphase : a.phase = .locking rest) (hd' : d' ∈ rest) (hrest : rest ⊆ a.task.lowerDirs) :
    a.task.CrossDir := by
  obtain ⟨hd, hlock⟩ := h
  rw [hphase] at hlock
  have hne : d ≠ d' := by
    rintro rfl
    exact hlock hd'
  have hsub : [d, d'] ⊆ a.task.lowerDirs := by
    intro x hx
    rw [List.mem_cons, List.mem_singleton] at hx
    rcases hx with rfl | rfl
    · exact hd
    · exact hrest hd'
  exact (List.subperm_of_subset (by simp [hne]) hsub).length_le

namespace FsState

/-- The thread is in a rename between two directories and holds at least one of them. -/
def Renaming (s : FsState) (t : ℕ) : Prop :=
  ∃ a ∈ s.doing t, a.task.CrossDir ∧ ∃ d, a.HasLock d

/-- No directory has this inode, and no call is about to make one with it. -/
def Free (s : FsState) (object : ℕ) : Prop :=
  s.maker object = none ∧ s.tree.chain object = [] ∧
    ∀ t, ∀ a ∈ s.doing t, a.task.op.madeIn ≠ none → a.task.object ≠ object

end FsState

namespace FsEvent

/-- What the kernel sees to.  A rename between two directories takes its locks while no other one
holds any, and a new directory gets an inode of its own. -/
def Serial (s : FsState) : FsEvent → Prop
  | enter _ op _ object => op.madeIn ≠ none → s.Free object
  | lockDir t _ => ∀ a ∈ s.doing t, a.task.CrossDir → ∀ u, s.Renaming u → u = t
  | _ => True

/-- The thread that goes on in its call. -/
def goer : FsEvent → Option ℕ
  | lockDir t _ | perform t | interpose t | lock t => some t
  | work t _ | unlock t | unlockDir t _ | leave t => some t
  | _ => none

end FsEvent

/-- The next step inside `trfs_lock`, given what is allocated and written in it. -/
def Stage.nextStep (pages : PageEnv) (o : WriteOutcome) : Stage → Option TailStep
  | locked => some .mask
  | masked _ => some (.fill pages)
  | filled _ => some (.writeHeader o)
  | header _ _ => some (.writeAux o)
  | leaving | dead => none

/-- It can be taken. -/
theorem Stage.exists_next {pages : PageEnv} {o : WriteOutcome} {stage : Stage} {e : TailStep}
    (h : stage.nextStep pages o = some e) (k : Kernel) (sb : SbInfo) (tail : Tail) :
    ∃ res, stage.next k sb tail e = some res := by
  cases stage with
  | locked =>
    cases h
    exact ⟨_, rfl⟩
  | masked a =>
    cases h
    rw [next]
    split <;> exact ⟨_, rfl⟩
  | filled r =>
    cases h
    rw [next]
    split <;> exact ⟨_, rfl⟩
  | header r ret =>
    cases h
    rw [next]
    split <;> exact ⟨_, rfl⟩
  | leaving => cases h
  | dead => cases h

namespace FsState

/-- How a thread goes on in its call. -/
def nextEvent (s : FsState) (t : ℕ) (pages : PageEnv) (o : WriteOutcome) : Option FsEvent :=
  match s.doing t with
  | none => none
  | some a =>
    match a.phase with
    | .locking [] => some (.perform t)
    | .locking (d :: _) => some (.lockDir t d)
    | .performed => some (.interpose t)
    | .ready => some (.lock t)
    | .inside =>
      match s.mnt.holder with
      | none => none
      | some h =>
        if h.stage = .leaving then some (.unlock t) else (h.stage.nextStep pages o).map (.work t)
    | .leaving [] => some (.leave t)
    | .leaving (d :: _) => some (.unlockDir t d)
    | .stopped => none

/-- The thread goes on, whatever is allocated and written. -/
def GoesOn (s : FsState) (t : ℕ) : Prop :=
  ∀ pages o, ∃ e, s.nextEvent t pages o = some e ∧ e.Serial s ∧ (s.step e).isSome = true

/-- The thread was stopped by the kernel. -/
def Halted (s : FsState) (t : ℕ) : Prop :=
  (∃ k, s.doing t = some ⟨k, .stopped⟩) ∨
    ∃ h, s.mnt.holder = some h ∧ h.thread = t ∧ h.stage = .dead

/-! ### The invariant -/

/-- The lock of a directory is held by the thread whose call has it, and what a call has still to
lock or to release are some of its lower parents. -/
structure Locked (s : FsState) : Prop where
  locks : ∀ d t, s.dirLock d = some t ↔ ∃ a ∈ s.doing t, a.HasLock d
  rests : ∀ t, ∀ a ∈ s.doing t, a.phase.rest.Nodup ∧ a.phase.rest ⊆ a.task.lowerDirs
  holder : ∀ h, s.mnt.holder = some h → ∃ k, s.doing h.thread = some ⟨k, .inside⟩

/-- At most one rename between two directories holds locks. -/
def OneRename (s : FsState) : Prop := ∀ t t', s.Renaming t → s.Renaming t' → t = t'

/-- The inodes of the directories that are about to be made are free and different. -/
structure Unclaimed (s : FsState) : Prop where
  free : ∀ t, ∀ a ∈ s.doing t, a.task.op.madeIn ≠ none → (∃ rest, a.phase = .locking rest) →
    s.maker a.task.object = none ∧ s.tree.chain a.task.object = []
  distinct : ∀ t t', t ≠ t' → ∀ a ∈ s.doing t, ∀ a' ∈ s.doing t', a.task.op.madeIn ≠ none →
    a'.task.op.madeIn ≠ none → a.task.object ≠ a'.task.object

variable {s s' : FsState} {t : ℕ}

/-- What a thread does after an update. -/
theorem mem_update {doing : ℕ → Option Activity} {b : Option Activity} {t u : ℕ} {a : Activity} :
    a ∈ Function.update doing t b u ↔ if u = t then a ∈ b else a ∈ doing u := by
  by_cases hu : u = t
  · rw [hu, Function.update_self, if_pos rfl]
  · rw [Function.update_of_ne hu, if_neg hu]

/-- A thread goes on and the locks of the lower directories stay as they are. -/
theorem Locked.of_update (hs : s.Locked) {b : Option Activity}
    (hdoing : s'.doing = Function.update s.doing t b) (hdirLock : s'.dirLock = s.dirLock)
    (hrests : ∀ a ∈ b, a.phase.rest.Nodup ∧ a.phase.rest ⊆ a.task.lowerDirs)
    (hlocks : ∀ d, (∃ a ∈ b, a.HasLock d) ↔ ∃ a ∈ s.doing t, a.HasLock d)
    (hholder : ∀ h, s'.mnt.holder = some h → ∃ k, s'.doing h.thread = some ⟨k, .inside⟩) :
    s'.Locked where
  locks d u := by
    rw [hdirLock, hs.locks, hdoing]
    by_cases hu : u = t
    · rw [hu, Function.update_self, hlocks]
    · rw [Function.update_of_ne hu]
  rests u a ha := by
    rw [hdoing, mem_update] at ha
    split at ha
    · exact hrests a ha
    · exact hs.rests u a ha
  holder := hholder

/-- Nobody but a thread that is inside holds `trfs_lock`, and it stays inside when another one goes
on. -/
theorem Locked.holder_update (hs : s.Locked) {k : Task} {phase : Phase} {b : Option Activity}
    (hdoing : s.doing t = some ⟨k, phase⟩) (hphase : phase ≠ .inside) (h : Holder)
    (hholder : s.mnt.holder = some h) :
    ∃ k, Function.update s.doing t b h.thread = some ⟨k, .inside⟩ := by
  obtain ⟨k', hk'⟩ := hs.holder h hholder
  refine ⟨k', ?_⟩
  rw [Function.update_of_ne, hk']
  rintro rfl
  rw [hdoing] at hk'
  cases hk'
  exact hphase rfl

/-- A thread that begins a call holds no lock. -/
theorem not_hasLock_entered (k : Task) (d : ℕ) :
    ¬(⟨k, .locking k.lowerDirs⟩ : Activity).HasLock d :=
  fun h => h.2 h.1

/-- **One step** keeps account of the locks. -/
theorem Locked.step (hs : s.Locked) {e : FsEvent} (hstep : s.step e = some s') :
    s'.Locked := by
  cases steps_of_step hstep with
  | enter t op home object k hk hidle hnames =>
    refine hs.of_update rfl rfl ?_ ?_ ?_
    · rintro a ⟨⟩
      exact ⟨k.lowerDirs_nodup.1, List.Subset.refl _⟩
    · intro d
      simp [hidle, not_hasLock_entered]
    · intro h hholder
      obtain ⟨k', hk'⟩ := hs.holder h hholder
      refine ⟨k', (Function.update_of_ne ?_ _ _).trans hk'⟩
      rintro rfl
      rw [hidle] at hk'
      cases hk'
  | lockDir t d k rest hdoing hd hfree =>
    obtain ⟨hnodup, hsub⟩ := hs.rests t _ hdoing
    refine ⟨fun d' u => ?_, fun u a ha => ?_, fun h hholder => ?_⟩
    · change Function.update s.dirLock d (some t) d' = some u ↔
        ∃ a ∈ Function.update s.doing t (some ⟨k, .locking (rest.erase d)⟩) u, a.HasLock d'
      by_cases hd' : d' = d
      · subst hd'
        rw [Function.update_self]
        by_cases hu : u = t
        · rw [hu, Function.update_self]
          have hgone : d' ∉ rest.erase d' := List.Nodup.not_mem_erase hnodup
          have hmem : d' ∈ k.lowerDirs := hsub hd
          simp [Activity.HasLock, Phase.HasLock, hmem, hgone]
        · rw [Function.update_of_ne hu, ← hs.locks, hfree]
          simp [Ne.symm hu]
      · rw [Function.update_of_ne hd', hs.locks]
        by_cases hu : u = t
        · rw [hu, Function.update_self, hdoing]
          simp [Activity.HasLock, Phase.HasLock, List.mem_erase_of_ne hd']
        · rw [Function.update_of_ne hu]
    · change a ∈ Function.update s.doing t (some ⟨k, .locking (rest.erase d)⟩) u at ha
      rw [mem_update] at ha
      split at ha
      · cases ha
        exact ⟨List.Nodup.erase d hnodup, fun x hx => hsub (List.erase_subset hx)⟩
      · exact hs.rests u a ha
    · exact hs.holder_update hdoing (by simp) h hholder
  | perform t k hdoing hfresh =>
    refine hs.of_update rfl rfl ?_ ?_ (hs.holder_update hdoing (by simp))
    · rintro a ⟨⟩
      exact ⟨List.nodup_nil, List.nil_subset _⟩
    · intro d
      simp [hdoing, Activity.HasLock, Phase.HasLock]
  | interpose t k phase hdoing hphase =>
    obtain ⟨tree, htree⟩ := s.afterInterpose_eq k
    rw [htree]
    refine hs.of_update rfl rfl ?_ ?_ (hs.holder_update hdoing (by simp))
    · rintro a ⟨⟩
      rcases hphase with rfl | rfl <;> exact ⟨List.nodup_nil, List.nil_subset _⟩
    · intro d
      rcases hphase with rfl | rfl <;> simp [hdoing, Activity.HasLock, Phase.HasLock]
  | lock t k hdoing hfree =>
    refine hs.of_update rfl rfl ?_ ?_ ?_
    · rintro a ⟨⟩
      exact ⟨List.nodup_nil, List.nil_subset _⟩
    · intro d
      simp [hdoing, Activity.HasLock, Phase.HasLock]
    · rintro h ⟨⟩
      exact ⟨k, Function.update_self _ _ _⟩
  | work t e k h kernel sb stage hdoing hholder hthread hnext =>
    refine ⟨hs.locks, hs.rests, ?_⟩
    rintro h' ⟨⟩
    exact hs.holder h hholder
  | unlock t k h hdoing hholder hleaving =>
    refine hs.of_update rfl rfl ?_ ?_ ?_
    · rintro a ⟨⟩
      exact ⟨k.lowerDirs_nodup.1, List.Subset.refl _⟩
    · intro d
      simp [hdoing, Activity.HasLock, Phase.HasLock]
    · rintro h' ⟨⟩
  | unlockDir t d k rest hdoing hheld =>
    obtain ⟨hnodup, hsub⟩ := hs.rests t _ hdoing
    refine ⟨fun d' u => ?_, fun u a ha => ?_, fun h hholder => ?_⟩
    · change Function.update s.dirLock d none d' = some u ↔
        ∃ a ∈ Function.update s.doing t (some ⟨k, .leaving (rest.erase d)⟩) u, a.HasLock d'
      by_cases hd' : d' = d
      · subst hd'
        rw [Function.update_self]
        by_cases hu : u = t
        · rw [hu, Function.update_self]
          have hgone : d' ∉ rest.erase d' := List.Nodup.not_mem_erase hnodup
          simp [Activity.HasLock, Phase.HasLock, hgone]
        · rw [Function.update_of_ne hu, ← hs.locks, hheld]
          simp [Ne.symm hu]
      · rw [Function.update_of_ne hd', hs.locks]
        by_cases hu : u = t
        · rw [hu, Function.update_self, hdoing]
          simp [Activity.HasLock, Phase.HasLock, List.mem_erase_of_ne hd']
        · rw [Function.update_of_ne hu]
    · change a ∈ Function.update s.doing t (some ⟨k, .leaving (rest.erase d)⟩) u at ha
      rw [mem_update] at ha
      split at ha
      · cases ha
        exact ⟨List.Nodup.erase d hnodup, fun x hx => hsub (List.erase_subset hx)⟩
      · exact hs.rests u a ha
    · exact hs.holder_update hdoing (by simp) h hholder
  | leave t k hdoing =>
    obtain ⟨tree, htree⟩ := s.afterReturn_eq k
    rw [htree]
    refine hs.of_update rfl rfl ?_ ?_ (hs.holder_update hdoing (by simp))
    · rintro a ⟨⟩
    · intro d
      simp [hdoing, Activity.HasLock, Phase.HasLock]
  | lookup d p k hmaker hmade hunknown => exact ⟨hs.locks, hs.rests, hs.holder⟩
  | setBmap umask hfree => exact ⟨hs.locks, hs.rests, hs.holder⟩
  | elsewhere k => exact ⟨hs.locks, hs.rests, hs.holder⟩

/-- A thread that is renaming after a step was renaming before it, or no other one was. -/
theorem OneRename.of_update (hs : s.OneRename) {b : Option Activity}
    (hdoing : s'.doing = Function.update s.doing t b)
    (hself : s'.Renaming t → s.Renaming t ∨ ∀ u, s.Renaming u → u = t) : s'.OneRename := by
  have hother : ∀ u, u ≠ t → s'.Renaming u → s.Renaming u := by
    rintro u hu ⟨a, ha, hcross⟩
    rw [hdoing, Function.update_of_ne hu] at ha
    exact ⟨a, ha, hcross⟩
  have honly : s'.Renaming t → ∀ u, s.Renaming u → u = t := by
    intro ht u hu
    rcases hself ht with ht | honly
    · exact hs u t hu ht
    · exact honly u hu
  intro u u' hu hu'
  by_cases hut : u = t
  · by_cases hut' : u' = t
    · rw [hut, hut']
    · exact absurd (honly (hut ▸ hu) u' (hother u' hut' hu')) hut'
  · by_cases hut' : u' = t
    · exact absurd (honly (hut' ▸ hu') u (hother u hut hu)) hut
    · exact hs u u' (hother u hut hu) (hother u' hut' hu')

/-- A thread goes on and holds no more locks than before. -/
theorem OneRename.of_hasLock (hs : s.OneRename) {k : Task} {phase phase' : Phase}
    (hdoing : s.doing t = some ⟨k, phase⟩)
    (hdoing' : s'.doing = Function.update s.doing t (some ⟨k, phase'⟩))
    (hlocks : ∀ d, phase'.HasLock d → d ∈ k.lowerDirs → phase.HasLock d) : s'.OneRename := by
  refine hs.of_update hdoing' fun ⟨a, ha, hcross, d, hd, hlock⟩ => .inl ?_
  rw [hdoing', Function.update_self] at ha
  cases ha
  exact ⟨_, hdoing, hcross, d, hd, hlocks d hlock hd⟩

/-- **One step** under the mutex leaves at most one rename with locks. -/
theorem OneRename.step (hs : s.OneRename) {e : FsEvent} (he : e.Serial s)
    (hstep : s.step e = some s') : s'.OneRename := by
  cases steps_of_step hstep with
  | enter t op home object k hk hidle hnames =>
    refine hs.of_update rfl fun ⟨a, ha, hcross, d, hlock⟩ => ?_
    change a ∈ Function.update s.doing t _ t at ha
    rw [Function.update_self] at ha
    cases ha
    exact absurd hlock (not_hasLock_entered k d)
  | lockDir t d k rest hdoing hd hfree =>
    refine hs.of_update rfl fun ⟨a, ha, hcross, _⟩ => .inr ?_
    change a ∈ Function.update s.doing t _ t at ha
    rw [Function.update_self] at ha
    cases ha
    exact he _ hdoing hcross
  | perform t k hdoing hfresh =>
    exact hs.of_hasLock hdoing rfl fun _ _ _ => List.not_mem_nil
  | interpose t k phase hdoing hphase =>
    obtain ⟨tree, htree⟩ := s.afterInterpose_eq k
    rw [htree]
    exact hs.of_hasLock hdoing rfl fun _ _ _ => trivial
  | lock t k hdoing hfree => exact hs.of_hasLock hdoing rfl fun _ _ _ => trivial
  | work t e k h kernel sb stage hdoing hholder hthread hnext => exact hs
  | unlock t k h hdoing hholder hleaving => exact hs.of_hasLock hdoing rfl fun _ _ _ => trivial
  | unlockDir t d k rest hdoing hheld =>
    exact hs.of_hasLock hdoing rfl fun _ hlock _ => List.erase_subset hlock
  | leave t k hdoing =>
    obtain ⟨tree, htree⟩ := s.afterReturn_eq k
    rw [htree]
    refine hs.of_update rfl fun ⟨a, ha, _⟩ => ?_
    change a ∈ Function.update s.doing t none t at ha
    rw [Function.update_self] at ha
    cases ha
  | lookup d p k hmaker hmade hunknown => exact hs
  | setBmap umask hfree => exact hs
  | elsewhere k => exact hs

/-! ### New directories -/

/-- A thread goes on in its call, past its locks only if it takes its inode, and what was free for
the other threads stays free. -/
theorem Unclaimed.of_update (hs : s.Unclaimed) {k : Task} {phase phase' : Phase}
    (hdoing : s.doing t = some ⟨k, phase⟩)
    (hdoing' : s'.doing = Function.update s.doing t (some ⟨k, phase'⟩))
    (hself : (∃ rest, phase' = .locking rest) → ∃ rest, phase = .locking rest)
    (hfree : ∀ object, s.maker object = none → s.tree.chain object = [] →
      (k.op.madeIn ≠ none → (¬∃ rest, phase' = .locking rest) → k.object ≠ object) →
      s'.maker object = none ∧ s'.tree.chain object = []) : s'.Unclaimed where
  free u a ha hmade hphase := by
    rw [hdoing', mem_update] at ha
    split at ha
    · cases ha
      obtain ⟨hmaker, hchain⟩ := hs.free t _ hdoing hmade (hself hphase)
      exact hfree _ hmaker hchain fun _ hnot => absurd hphase hnot
    · next hu =>
      obtain ⟨hmaker, hchain⟩ := hs.free u a ha hmade hphase
      exact hfree _ hmaker hchain fun hmade' _ =>
        hs.distinct t u (Ne.symm hu) _ hdoing a ha hmade' hmade
  distinct u u' hne a ha a' ha' hmade hmade' := by
    have hback : ∀ v, ∀ b ∈ s'.doing v, ∃ c ∈ s.doing v, c.task = b.task := by
      intro v b hb
      rw [hdoing', mem_update] at hb
      split at hb
      · next hv =>
        cases hb
        exact ⟨⟨k, phase⟩, by rw [hv]; exact hdoing, rfl⟩
      · exact ⟨b, hb, rfl⟩
    obtain ⟨c, hc, hca⟩ := hback u a ha
    obtain ⟨c', hc', hca'⟩ := hback u' a' ha'
    rw [← hca] at hmade ⊢
    rw [← hca'] at hmade' ⊢
    exact hs.distinct u u' hne c hc c' hc' hmade hmade'

/-- A directory that is not known stays unknown when another one is moved. -/
theorem chain_move_eq_nil (tree : DirTree) {d : ℕ} (x p : ℕ) (h : tree.chain d = []) :
    (tree.move x p).chain d = [] := by
  change tree.rerouted x p (tree.chain d) = []
  rw [h]
  exact if_neg List.not_mem_nil

/-- **One step** keeps the inodes of new directories free. -/
theorem Unclaimed.step (hs : s.Unclaimed) {e : FsEvent} (he : e.Serial s)
    (hstep : s.step e = some s') : s'.Unclaimed := by
  cases steps_of_step hstep with
  | enter t op home object k hk hidle hnames =>
    subst hk
    refine ⟨fun u a ha hmade hphase => ?_, fun u u' hne a ha a' ha' hmade hmade' => ?_⟩
    · change a ∈ Function.update s.doing t _ u at ha
      rw [mem_update] at ha
      split at ha
      · cases ha
        exact ⟨(he hmade).1, (he hmade).2.1⟩
      · exact hs.free u a ha hmade hphase
    · change a ∈ Function.update s.doing t _ u at ha
      change a' ∈ Function.update s.doing t _ u' at ha'
      rw [mem_update] at ha ha'
      split at ha
      · next hu =>
        cases ha
        rw [if_neg fun hu' => hne (hu.trans hu'.symm)] at ha'
        exact fun heq => (he hmade).2.2 u' a' ha' hmade' heq.symm
      · split at ha'
        · cases ha'
          exact (he hmade').2.2 u a ha hmade
        · exact hs.distinct u u' hne a ha a' ha' hmade hmade'
  | lockDir t d k rest hdoing hd hfree =>
    exact hs.of_update hdoing rfl (fun _ => ⟨_, rfl⟩) fun _ hmaker hchain _ => ⟨hmaker, hchain⟩
  | perform t k hdoing hfresh =>
    refine hs.of_update hdoing rfl (by simp) fun object hmaker hchain hne => ⟨?_, hchain⟩
    change (if k.op.madeIn.isSome then Function.update s.maker k.object (some k) else s.maker)
      object = none
    split
    · next hmade =>
      rw [Function.update_of_ne (Ne.symm (hne (Option.isSome_iff_ne_none.mp hmade) (by simp))),
        hmaker]
    · exact hmaker
  | interpose t k phase hdoing hphase =>
    have hdoing' : ((s.afterInterpose k).setDoing t (some ⟨k, phase⟩)).doing =
        Function.update s.doing t (some ⟨k, phase⟩) := by
      obtain ⟨tree, htree⟩ := s.afterInterpose_eq k
      rw [htree]
      rfl
    refine hs.of_update hdoing hdoing' ?_ ?_
    · rintro ⟨rest, rfl⟩
      simp at hphase
    · intro object hmaker hchain hne
      change (s.afterInterpose k).maker object = none ∧ (s.afterInterpose k).tree.chain object = []
      unfold afterInterpose
      split
      · next p hp =>
        have hmade : k.op.madeIn ≠ none := by simp [TracedOp.madeIn_of_appearsIn hp]
        have hne' := hne hmade (by rintro ⟨rest, rfl⟩; simp at hphase)
        exact ⟨hmaker, (s.tree.chain_add_of_ne p hne'.symm).trans hchain⟩
      · exact ⟨hmaker, hchain⟩
  | lock t k hdoing hfree =>
    exact hs.of_update hdoing rfl (by simp) fun _ hmaker hchain _ => ⟨hmaker, hchain⟩
  | work t e k h kernel sb stage hdoing hholder hthread hnext => exact ⟨hs.free, hs.distinct⟩
  | unlock t k h hdoing hholder hleaving =>
    exact hs.of_update hdoing rfl (by simp) fun _ hmaker hchain _ => ⟨hmaker, hchain⟩
  | unlockDir t d k rest hdoing hheld =>
    exact hs.of_update hdoing rfl (by simp) fun _ hmaker hchain _ => ⟨hmaker, hchain⟩
  | leave t k hdoing =>
    have hback : ∀ u, ∀ a ∈ ((s.afterReturn k).setDoing t none).doing u, a ∈ s.doing u := by
      intro u a ha
      obtain ⟨tree, htree⟩ := s.afterReturn_eq k
      rw [htree] at ha
      change a ∈ Function.update s.doing t none u at ha
      rw [mem_update] at ha
      split at ha
      · cases ha
      · exact ha
    refine ⟨fun u a ha hmade hphase => ?_, fun u u' hne a ha a' ha' => ?_⟩
    · obtain ⟨hmaker, hchain⟩ := hs.free u a (hback u a ha) hmade hphase
      change (s.afterReturn k).maker _ = none ∧ (s.afterReturn k).tree.chain _ = []
      unfold afterReturn
      split
      · exact ⟨hmaker, chain_move_eq_nil _ _ _ hchain⟩
      · exact ⟨hmaker, hchain⟩
    · exact hs.distinct u u' hne a (hback u a ha) a' (hback u' a' ha')
  | lookup d p k hmaker hmade hunknown =>
    refine ⟨fun u a ha hmade' hphase => ?_, hs.distinct⟩
    obtain ⟨hmaker', hchain⟩ := hs.free u a ha hmade' hphase
    refine ⟨hmaker', (s.tree.chain_add_of_ne p ?_).trans hchain⟩
    rintro heq
    rw [heq, hmaker] at hmaker'
    cases hmaker'
  | setBmap umask hfree => exact ⟨hs.free, hs.distinct⟩
  | elsewhere k => exact ⟨hs.free, hs.distinct⟩

/-! ### No deadlock -/

/-- The whole invariant. -/
structure Sound (s : FsState) : Prop where
  inv : s.Inv
  locked : s.Locked
  oneRename : s.OneRename
  unclaimed : s.Unclaimed

/-- **One step** under the discipline keeps the invariant. -/
theorem Sound.step (hs : s.Sound) {e : FsEvent} (he : e.Serial s) (hstep : s.step e = some s') :
    s'.Sound where
  inv := hs.inv.step hstep
  locked := hs.locked.step hstep
  oneRename := hs.oneRename.step he hstep
  unclaimed := hs.unclaimed.step he hstep

/-- It holds of a new mount. -/
theorem sound_boot (kernel : Kernel) (trPage : List UInt8) (tree : DirTree) :
    (boot kernel trPage tree).Sound where
  inv := inv_boot kernel trPage tree
  locked :=
    { locks := fun d t => by simp [boot]
      rests := fun t a ha => by cases ha
      holder := fun h hh => by cases hh }
  oneRename := by
    rintro t t' ⟨a, ha, -⟩
    cases ha
  unclaimed :=
    { free := fun t a ha => by cases ha
      distinct := fun t t' _ a ha => by cases ha }

/-- A thread goes on when its next event does not depend on the environment, is allowed and is
possible. -/
theorem goesOn_of_step {e : FsEvent} (hnext : ∀ pages o, s.nextEvent t pages o = some e)
    (he : e.Serial s) (hstep : (s.step e).isSome = true) : s.GoesOn t :=
  fun pages o => ⟨e, hnext pages o, he, hstep⟩

/-- The holder of `trfs_lock` goes on unless it was stopped. -/
theorem Locked.goesOn_holder (hs : s.Locked) {h : Holder} (hholder : s.mnt.holder = some h)
    (hstage : h.stage ≠ .dead) : s.GoesOn h.thread := by
  obtain ⟨k, hdoing⟩ := hs.holder h hholder
  by_cases hleaving : h.stage = .leaving
  · refine goesOn_of_step (e := .unlock h.thread) ?_ trivial ?_
    · intro pages o
      simp only [nextEvent, hdoing, hholder, hleaving, if_true]
    · simp only [FsState.step, hdoing, hholder, hleaving, and_self, if_true, Option.isSome_some]
  · intro pages o
    have hnext : ∃ e, h.stage.nextStep pages o = some e := by
      cases hcase : h.stage with
      | leaving => exact absurd hcase hleaving
      | dead => exact absurd hcase hstage
      | _ => exact ⟨_, rfl⟩
    obtain ⟨e, he⟩ := hnext
    obtain ⟨⟨kernel, sb, stage⟩, hres⟩ := Stage.exists_next he s.kernel s.mnt.sb h.tail
    refine ⟨.work h.thread e, ?_, trivial, ?_⟩
    · simp only [nextEvent, hdoing, hholder, if_neg hleaving, he, Option.map_some]
    · simp only [FsState.step, hdoing, hholder, if_true, hres, Option.isSome_some]

/-- A call that holds no lock of a lower directory, or all of them, goes on while `trfs_lock` is
free. -/
theorem Sound.goesOn_of_free (hs : s.Sound) (hfree : s.mnt.holder = none) {k : Task} {phase : Phase}
    (hdoing : s.doing t = some ⟨k, phase⟩) (hstopped : phase ≠ .stopped)
    (hlocking : ∀ d rest, phase ≠ .locking (d :: rest)) : s.GoesOn t := by
  cases phase with
  | locking rest =>
    cases rest with
    | nil =>
      have hfresh : k.op.madeIn = none ∨ s.maker k.object = none ∧ s.tree.chain k.object = [] := by
        by_cases hmade : k.op.madeIn = none
        · exact .inl hmade
        · exact .inr (hs.unclaimed.free t _ hdoing hmade ⟨[], rfl⟩)
      refine goesOn_of_step (e := .perform t) ?_ trivial ?_
      · intro pages o
        simp only [nextEvent, hdoing]
      · simp only [FsState.step, hdoing, if_pos hfresh, Option.isSome_some]
    | cons d rest => exact absurd rfl (hlocking d rest)
  | performed =>
    refine goesOn_of_step (e := .interpose t) ?_ trivial ?_
    · intro pages o
      simp only [nextEvent, hdoing]
    · simp only [FsState.step, hdoing, Option.isSome_some]
  | ready =>
    refine goesOn_of_step (e := .lock t) ?_ trivial ?_
    · intro pages o
      simp only [nextEvent, hdoing]
    · simp only [FsState.step, hdoing, if_pos hfree, Option.isSome_some]
  | inside =>
    obtain ⟨h, hholder, -⟩ := (hs.inv.calls t k _ hdoing).inside rfl
    rw [hfree] at hholder
    cases hholder
  | leaving rest =>
    cases rest with
    | nil =>
      refine goesOn_of_step (e := .leave t) ?_ trivial ?_
      · intro pages o
        simp only [nextEvent, hdoing]
      · simp only [FsState.step, hdoing, Option.isSome_some]
    | cons d rest =>
      have hsub : d ∈ k.lowerDirs := (hs.locked.rests t _ hdoing).2 List.mem_cons_self
      have hheld : s.dirLock d = some t :=
        (hs.locked.locks d t).mpr ⟨_, hdoing, hsub, List.mem_cons_self⟩
      have hguard : d ∈ d :: rest ∧ s.dirLock d = some t := ⟨List.mem_cons_self, hheld⟩
      refine goesOn_of_step (e := .unlockDir t d) ?_ trivial ?_
      · intro pages o
        simp only [nextEvent, hdoing]
      · simp only [FsState.step, hdoing, if_pos hguard, Option.isSome_some]
  | stopped => exact absurd rfl hstopped

/-- A call takes the lock of a lower directory that is free, unless it has to wait for the mutex. -/
theorem goesOn_lockDir {k : Task} {d : ℕ} {rest : List ℕ}
    (hdoing : s.doing t = some ⟨k, .locking (d :: rest)⟩) (hfree : s.dirLock d = none)
    (hmutex : k.CrossDir → ∀ u, s.Renaming u → u = t) : s.GoesOn t := by
  have hguard : d ∈ d :: rest ∧ s.dirLock d = none := ⟨List.mem_cons_self, hfree⟩
  refine goesOn_of_step (e := .lockDir t d) ?_ ?_ ?_
  · intro pages o
    simp only [nextEvent, hdoing]
  · intro a ha
    cases hdoing.symm.trans ha
    exact hmutex
  · simp only [FsState.step, hdoing, if_pos hguard, Option.isSome_some]

/-- **No deadlock.**  While a call is in progress and the kernel has stopped no thread, some thread
goes on. -/
theorem Sound.exists_goesOn (hs : s.Sound) (hhalted : ∀ u, ¬s.Halted u)
    (hactive : s.doing t ≠ none) : ∃ u, s.GoesOn u := by
  cases hholder : s.mnt.holder with
  | some h =>
    refine ⟨h.thread, hs.locked.goesOn_holder hholder fun hdead => ?_⟩
    exact hhalted h.thread (.inr ⟨h, hholder, rfl, hdead⟩)
  | none =>
    by_cases hwaits : ∀ u, ∀ a ∈ s.doing u, ∃ d rest, a.phase = .locking (d :: rest)
    · -- every call waits for a lower parent; one that holds another one is the only rename
      have hrenaming : ∀ d u, s.dirLock d = some u → s.Renaming u := by
        intro d u hlock
        obtain ⟨a, ha, hhas⟩ := (hs.locked.locks d u).mp hlock
        obtain ⟨d', rest, hphase⟩ := hwaits u a ha
        have hsub := (hs.locked.rests u a ha).2
        rw [hphase] at hsub
        exact ⟨a, ha, hhas.crossDir hphase List.mem_cons_self hsub, d, hhas⟩
      by_cases hany : ∃ u, s.Renaming u
      · obtain ⟨u, hu⟩ := hany
        have hdoing := hu
        obtain ⟨⟨k, phase⟩, ha, -⟩ := hdoing
        obtain ⟨d, rest, rfl⟩ := hwaits u _ ha
        refine ⟨u, goesOn_lockDir ha ?_ fun _ v hv => hs.oneRename v u hv hu⟩
        rw [Option.eq_none_iff_forall_ne_some]
        intro v hlock
        rw [hs.oneRename v u (hrenaming d v hlock) hu] at hlock
        obtain ⟨a, ha', -, hnot⟩ := (hs.locked.locks d u).mp hlock
        cases ha.symm.trans ha'
        exact hnot List.mem_cons_self
      · obtain ⟨⟨k, phase⟩, ha⟩ := Option.ne_none_iff_exists'.mp hactive
        obtain ⟨d, rest, rfl⟩ := hwaits t _ ha
        refine ⟨t, goesOn_lockDir ha ?_ fun _ v hv => absurd ⟨v, hv⟩ hany⟩
        rw [Option.eq_none_iff_forall_ne_some]
        exact fun v hlock => hany ⟨v, hrenaming d v hlock⟩
    · push Not at hwaits
      obtain ⟨u, ⟨k, phase⟩, ha, hphase⟩ := hwaits
      refine ⟨u, hs.goesOn_of_free hholder ha ?_ hphase⟩
      rintro rfl
      exact hhalted u (.inl ⟨k, ha⟩)

/-! ### Termination -/

end FsState

/-- The steps that the holder of `trfs_lock` has still to take inside it. -/
def Stage.left : Stage → ℕ
  | locked => 4
  | masked _ => 3
  | filled _ => 2
  | header _ _ => 1
  | leaving | dead => 0

/-- Every step inside the lock is one of them. -/
theorem Stage.left_of_next {k kernel : Kernel} {sb sb' : SbInfo} {tail : Tail}
    {stage stage' : Stage} {e : TailStep}
    (hnext : stage.next k sb tail e = some (kernel, sb', stage')) :
    stage'.left < stage.left := by
  cases stage with
  | locked =>
    cases e with
    | mask =>
      cases hnext
      exact Nat.lt_succ_self _
    | _ => cases hnext
  | masked a =>
    cases e with
    | fill pages =>
      rw [next] at hnext
      split at hnext
      all_goals
        cases hnext
        simp [left]
    | _ => cases hnext
  | filled r =>
    cases e with
    | writeHeader o =>
      rw [next] at hnext
      split at hnext
      all_goals
        cases hnext
        simp [left]
    | _ => cases hnext
  | header r ret =>
    cases e with
    | writeAux o =>
      rw [next] at hnext
      split at hnext
      all_goals
        cases hnext
        simp [left]
    | _ => cases hnext
  | leaving => cases e <;> cases hnext
  | dead => cases e <;> cases hnext

/-- The steps that a call has still to take. -/
def Activity.left (holder : Option Holder) (a : Activity) : ℕ :=
  match a.phase with
  | .locking rest => rest.length + a.task.lowerDirs.length + 9
  | .performed => a.task.lowerDirs.length + 8
  | .ready => a.task.lowerDirs.length + 7
  | .inside => holder.elim 0 (fun h => h.stage.left) + a.task.lowerDirs.length + 2
  | .leaving rest => rest.length + 1
  | .stopped => 0

namespace FsState

variable {s s' : FsState} {t : ℕ}

/-- The steps that a thread has still to take in its call. -/
def left (s : FsState) (t : ℕ) : ℕ := (s.doing t).elim 0 (Activity.left s.mnt.holder)

/-- **Going on in a call** concerns one thread, and takes it nearer to the end of its call. -/
theorem left_of_goer (hs : s.Sound) {e : FsEvent} (he : e.goer = some t)
    (hstep : s.step e = some s') :
    s'.left t < s.left t ∧ ∃ k, Acts s s' t k := by
  cases steps_of_step hstep with
  | enter t' op home object k hk hidle hnames => cases he
  | lockDir t' d k rest hdoing hd hfree =>
    cases he
    refine ⟨?_, k, acts_setDirLock s k _ (.inl hfree)⟩
    have hlen := List.length_erase_of_mem hd
    have hpos := List.length_pos_of_mem hd
    change ((Function.update s.doing t _ t).elim 0 _) < (s.doing t).elim 0 _
    rw [Function.update_self, hdoing]
    simp only [Option.elim_some, Activity.left]
    omega
  | perform t' k hdoing hfresh =>
    cases he
    refine ⟨?_, k, acts_afterLower s t k _⟩
    change ((Function.update s.doing t _ t).elim 0 _) < (s.doing t).elim 0 _
    rw [Function.update_self, hdoing]
    simp only [Option.elim_some, Activity.left]
    omega
  | interpose t' k phase hdoing hphase =>
    cases he
    obtain ⟨tree, htree⟩ := s.afterInterpose_eq k
    rw [htree]
    refine ⟨?_, k, acts_setTree s t k tree _⟩
    change ((Function.update s.doing t _ t).elim 0 _) < (s.doing t).elim 0 _
    rw [Function.update_self, hdoing]
    rcases hphase with rfl | rfl
    · simp only [Option.elim_some, Activity.left]
      omega
    · simp only [Option.elim_some, Activity.left]
      omega
  | lock t' k hdoing hfree =>
    cases he
    refine ⟨?_, k, acts_setHolder s k _ _ (thread_eq_of_free hfree)⟩
    change ((Function.update s.doing t _ t).elim 0 _) < (s.doing t).elim 0 _
    rw [Function.update_self, hdoing]
    simp only [Option.elim_some, Activity.left, Stage.left]
    omega
  | work t' e k h kernel sb stage hdoing hholder hthread hnext =>
    cases he
    refine ⟨?_, k, hthread ▸ acts_afterWork s hholder k e kernel sb stage⟩
    have hlt := Stage.left_of_next hnext
    change ((s.doing t).elim 0 (Activity.left (some { h with stage := stage }))) <
      (s.doing t).elim 0 (Activity.left s.mnt.holder)
    rw [hdoing, hholder]
    simp only [Option.elim_some, Activity.left]
    omega
  | unlock t' k h hdoing hholder hleaving =>
    cases he
    refine ⟨?_, k, acts_setHolder s k _ _ (hs.inv.calls t k _ hdoing).thread_eq⟩
    change ((Function.update s.doing t _ t).elim 0 _) < (s.doing t).elim 0 _
    rw [Function.update_self, hdoing]
    simp only [Option.elim_some, Activity.left]
    omega
  | unlockDir t' d k rest hdoing hheld =>
    cases he
    refine ⟨?_, k, acts_setDirLock s k _ (.inr hheld)⟩
    obtain ⟨a, ha, -, hd⟩ := (hs.locked.locks d t).mp hheld
    cases hdoing.symm.trans ha
    have hlen := List.length_erase_of_mem hd
    have hpos := List.length_pos_of_mem hd
    change ((Function.update s.doing t _ t).elim 0 _) < (s.doing t).elim 0 _
    rw [Function.update_self, hdoing]
    simp only [Option.elim_some, Activity.left]
    omega
  | leave t' k hdoing =>
    cases he
    obtain ⟨tree, htree⟩ := s.afterReturn_eq k
    rw [htree]
    refine ⟨?_, k, acts_setTree s t k tree none⟩
    change ((Function.update s.doing t _ t).elim 0 _) < (s.doing t).elim 0 _
    rw [Function.update_self, hdoing]
    simp only [Option.elim_some, Option.elim_none, Activity.left]
    omega
  | lookup d p k hmaker hmade hunknown => cases he
  | setBmap umask hfree => cases he
  | elsewhere k => cases he

/-- Other threads have as many steps left as before. -/
theorem Acts.left_eq {k : Task} {u : ℕ} (hs : s.Inv) (hacts : Acts s s' t k) (hne : u ≠ t) :
    s'.left u = s.left u := by
  unfold left
  rw [hacts.doing u hne]
  cases hdoing : s.doing u with
  | none => rfl
  | some a =>
    obtain ⟨k', phase⟩ := a
    cases phase with
    | inside =>
      rw [hacts.holder_eq hne (hs.calls u k' _ hdoing) rfl]
    | _ => rfl

/-- A call takes at most 13 steps. -/
theorem left_le (hs : s.Locked) (t : ℕ) : s.left t ≤ 13 := by
  unfold left
  cases hdoing : s.doing t with
  | none => exact Nat.zero_le _
  | some a =>
    obtain ⟨hnodup, hsub⟩ := hs.rests t a hdoing
    have hrest := (List.subperm_of_subset hnodup hsub).length_le
    have hdirs := a.task.lowerDirs_nodup.2
    obtain ⟨k, phase⟩ := a
    rw [Option.elim_some]
    unfold Activity.left
    cases phase with
    | inside =>
      cases hholder : s.mnt.holder with
      | none =>
        simp only [Option.elim_none]
        simp only at hdirs
        omega
      | some h =>
        have hstage : h.stage.left ≤ 4 := by
          cases h.stage <;> simp [Stage.left]
        simp only [Option.elim_some]
        simp only at hdirs
        omega
    | _ =>
      simp only [Phase.rest] at hrest hdirs ⊢
      omega

/-- A thread that goes on is in a call. -/
theorem doing_ne_none_of_goer {e : FsEvent} (he : e.goer = some t) (hstep : s.step e = some s') :
    s.doing t ≠ none := by
  cases steps_of_step hstep with
  | enter => cases he
  | lookup => cases he
  | setBmap => cases he
  | elsewhere => cases he
  | _ =>
    cases he
    simp [*]

/-- Threads that go on have fewer steps left together. -/
theorem sum_left_lt (hs : s.Sound) {ts : Finset ℕ} (hts : ∀ t, s.doing t ≠ none → t ∈ ts)
    {e : FsEvent} (he : e.goer.isSome = true) (hstep : s.step e = some s') :
    ∑ t ∈ ts, s'.left t < ∑ t ∈ ts, s.left t := by
  obtain ⟨t, ht⟩ := Option.isSome_iff_exists.mp he
  obtain ⟨hlt, k, hacts⟩ := left_of_goer hs ht hstep
  refine Finset.sum_lt_sum (fun u _ => ?_) ⟨t, hts t (doing_ne_none_of_goer ht hstep), hlt⟩
  by_cases hu : u = t
  · rw [hu]
    exact hlt.le
  · exact (hacts.left_eq hs.inv hu).le

/-- Nobody begins a call while threads go on. -/
theorem doing_of_goer (hs : s.Sound) {e : FsEvent} (he : e.goer.isSome = true)
    (hstep : s.step e = some s') {u : ℕ} (hu : s'.doing u ≠ none) : s.doing u ≠ none := by
  obtain ⟨t, ht⟩ := Option.isSome_iff_exists.mp he
  obtain ⟨-, k, hacts⟩ := left_of_goer hs ht hstep
  by_cases hut : u = t
  · rw [hut]
    exact doing_ne_none_of_goer ht hstep
  · rwa [← hacts.doing u hut]

/-- Only finitely many threads are in a call. -/
theorem finite_step (hs : {t | s.doing t ≠ none}.Finite) {e : FsEvent}
    (hstep : s.step e = some s') : {t | s'.doing t ≠ none}.Finite := by
  have hupdate (t : ℕ) (b : Option Activity) (hdoing : s'.doing = Function.update s.doing t b) :
      {u | s'.doing u ≠ none}.Finite := by
    refine (hs.insert t).subset fun u hu => ?_
    by_cases hut : u = t
    · exact .inl hut
    · rw [Set.mem_ofPred_eq, hdoing, Function.update_of_ne hut] at hu
      exact .inr hu
  cases steps_of_step hstep with
  | enter t op home object k hk hidle hnames => exact hupdate t _ rfl
  | lockDir t d k rest hdoing hd hfree => exact hupdate t _ rfl
  | perform t k hdoing hfresh => exact hupdate t _ rfl
  | interpose t k phase hdoing hphase =>
    obtain ⟨tree, htree⟩ := s.afterInterpose_eq k
    rw [htree] at hupdate ⊢
    exact hupdate t _ rfl
  | lock t k hdoing hfree => exact hupdate t _ rfl
  | work t e k h kernel sb stage hdoing hholder hthread hnext => exact hs
  | unlock t k h hdoing hholder hleaving => exact hupdate t _ rfl
  | unlockDir t d k rest hdoing hheld => exact hupdate t _ rfl
  | leave t k hdoing =>
    obtain ⟨tree, htree⟩ := s.afterReturn_eq k
    rw [htree] at hupdate ⊢
    exact hupdate t _ rfl
  | lookup d p k hmaker hmade hunknown => exact hs
  | setBmap umask hfree => exact hs
  | elsewhere k => exact hs

end FsState

/-! ### Whole runs -/

section

variable {kernel : Kernel} {trPage : List UInt8} {tree : DirTree} {es : List FsEvent} {s : FsState}

/-- The invariant holds at the end of every run under the discipline. -/
theorem sound_of_run (hrun : run FsState.step (.boot kernel trPage tree) es = some s)
    (hes : RunAllowed FsState.step (fun s e => e.Serial s) (.boot kernel trPage tree) es) :
    s.Sound :=
  run_invariant (fun _ _ _ hs he hstep => hs.step he hstep) (FsState.sound_boot _ _ _) hes hrun

/-- **No deadlock.**  Let threads perform traced operations on a mount in any interleaving.  While
a call is in progress and no thread was stopped by the kernel, some thread can go on in its call,
whatever is allocated and whatever the log accepts. -/
theorem exists_goesOn_of_run (hrun : run FsState.step (.boot kernel trPage tree) es = some s)
    (hes : RunAllowed FsState.step (fun s e => e.Serial s) (.boot kernel trPage tree) es)
    (hhalted : ∀ u, ¬s.Halted u) {t : ℕ} (hactive : s.doing t ≠ none) : ∃ u, s.GoesOn u :=
  (sound_of_run hrun hes).exists_goesOn hhalted hactive

/-- Threads that go on in their calls, in any order. -/
def FsState.Continues (s : FsState) (es : List FsEvent) : Prop :=
  RunAllowed FsState.step (fun s e => e.goer.isSome = true ∧ e.Serial s) s es

/-- The calls in progress take at most 13 steps each, which bounds the steps of all of them, and
when none of them can go on any more, all have returned, unless the kernel has stopped a thread. -/
def FsState.CallsReturn (s : FsState) : Prop :=
  ∃ ts : Finset ℕ, (∀ t, t ∈ ts ↔ s.doing t ≠ none) ∧
    ∀ es' s', s.Continues es' → run FsState.step s es' = some s' →
      (∀ t, es'.countP (fun e => e.goer = some t) ≤ 13) ∧ es'.length ≤ 13 * ts.card ∧
        ((∀ t, ¬s'.GoesOn t) → (∀ t, s'.doing t = none) ∨ ∃ t, s'.Halted t)

/-- A thread that goes on has at most 13 steps left. -/
theorem countP_goer_le (hs : s.Sound) {es' : List FsEvent} {s' : FsState} (hes' : s.Continues es')
    (hrun' : run FsState.step s es' = some s') (t : ℕ) :
    es'.countP (fun e => e.goer = some t) ≤ 13 := by
  have hstep (s : FsState) (e : FsEvent) (s' : FsState) (hs : s.Sound)
      (he : e.goer.isSome = true ∧ e.Serial s) (hstep : s.step e = some s') :
      s'.Sound ∧ s'.left t ≤ s.left t ∧
        (decide (e.goer = some t) = true → s'.left t < s.left t) := by
    obtain ⟨u, hu⟩ := Option.isSome_iff_exists.mp he.1
    obtain ⟨hlt, k, hacts⟩ := FsState.left_of_goer hs hu hstep
    refine ⟨hs.step he.2 hstep, ?_, fun ht => ?_⟩
    · by_cases htu : t = u
      · rw [htu]
        exact hlt.le
      · exact (hacts.left_eq hs.inv htu).le
    · rw [decide_eq_true_iff, hu, Option.some_inj] at ht
      rwa [← ht]
  have hcount := countP_le_of_measure (fun s => FsState.left s t) _ hstep hs hes' hrun'
  exact (Nat.le_of_add_right_le hcount).trans (FsState.left_le hs.locked t)

/-- **Calls return**, in whatever order the threads go on. -/
theorem calls_return (hrun : run FsState.step (.boot kernel trPage tree) es = some s)
    (hes : RunAllowed FsState.step (fun s e => e.Serial s) (.boot kernel trPage tree) es) :
    s.CallsReturn := by
  have hsound := sound_of_run hrun hes
  have hfinite : {t | s.doing t ≠ none}.Finite := by
    have hstep (s : FsState) (e : FsEvent) (s' : FsState) (hs : {t | s.doing t ≠ none}.Finite)
        (_ : e.Serial s) (hstep : s.step e = some s') : {t | s'.doing t ≠ none}.Finite :=
      FsState.finite_step hs hstep
    exact run_invariant hstep (by simp [FsState.boot]) hes hrun
  refine ⟨hfinite.toFinset, fun t => by simp, fun es' s' hes' hrun' =>
    ⟨countP_goer_le hsound hes' hrun', ?_, fun hstuck => ?_⟩⟩
  · have hstep (s : FsState) (e : FsEvent) (s' : FsState)
        (hs : s.Sound ∧ ∀ t, s.doing t ≠ none → t ∈ hfinite.toFinset)
        (he : e.goer.isSome = true ∧ e.Serial s) (hstep : s.step e = some s') :
        (s'.Sound ∧ ∀ t, s'.doing t ≠ none → t ∈ hfinite.toFinset) ∧
          ∑ t ∈ hfinite.toFinset, s'.left t ≤ ∑ t ∈ hfinite.toFinset, s.left t ∧
            (true = true →
              ∑ t ∈ hfinite.toFinset, s'.left t < ∑ t ∈ hfinite.toFinset, s.left t) := by
      have hlt := FsState.sum_left_lt hs.1 hs.2 he.1 hstep
      refine ⟨⟨hs.1.step he.2 hstep, fun t ht => hs.2 t ?_⟩, hlt.le, fun _ => hlt⟩
      exact FsState.doing_of_goer hs.1 he.1 hstep ht
    have hlen := countP_le_of_measure (fun s => ∑ t ∈ hfinite.toFinset, FsState.left s t)
      (fun _ => true) hstep ⟨hsound, fun t ht => by simpa using ht⟩ hes' hrun'
    rw [List.countP_true] at hlen
    have hsum : ∑ t ∈ hfinite.toFinset, s.left t ≤ hfinite.toFinset.card * 13 := by
      rw [← smul_eq_mul]
      exact Finset.sum_le_card_nsmul _ _ _ fun t _ => FsState.left_le hsound.locked t
    omega
  · have hsound' : s'.Sound := run_invariant (fun _ _ _ hs he hstep => hs.step he.2 hstep) hsound
      hes' hrun'
    by_contra hcontra
    push Not at hcontra
    obtain ⟨⟨t, ht⟩, hhalted⟩ := hcontra
    obtain ⟨u, hu⟩ := hsound'.exists_goesOn hhalted ht
    exact hstuck u hu

/-! ### Two renames -/

/-- The root and a directory in it. -/
def twoDirs : DirTree := DirTree.root.add 1 0

/-- A file is moved from the root into the directory while another one is to be moved back. -/
def twoRenames : List FsEvent :=
  [.enter 0 (.rename 0 1 ⟨dentryL, ⟨0⟩⟩ dentryG .none 0) 0 8, .lockDir 0 0,
    .enter 1 (.rename 1 0 ⟨dentryG, ⟨0⟩⟩ dentryL .none 0) 1 9]

/-- The first one has the mutex. -/
theorem serial_twoRenames : RunAllowed FsState.step (fun s e => e.Serial s)
    (.boot ⟨-1, [], []⟩ [] twoDirs) twoRenames := by
  refine ⟨fun hmade => absurd rfl hmade, fun s hs => ?_⟩
  cases hs
  refine ⟨?_, fun s hs => ⟨fun hmade => absurd rfl hmade, fun _ _ => trivial⟩⟩
  rintro a - - u ⟨a', ha', -⟩
  by_contra hu
  rw [FsState.setDoing, FsState.mem_update, if_neg hu] at ha'
  cases ha'

/-- They do not lock each other out. -/
theorem exists_goesOn_twoRenames :
    ∃ s, run FsState.step (.boot ⟨-1, [], []⟩ [] twoDirs) twoRenames = some s ∧
      s.doing 1 ≠ none ∧ ∃ u, s.GoesOn u := by
  refine ⟨_, rfl, by simp [FsState.setDoing], ?_⟩
  refine exists_goesOn_of_run rfl serial_twoRenames (t := 1) ?_ (by simp [FsState.setDoing])
  rintro u (⟨k, hk⟩ | ⟨h, hh, -⟩)
  · by_cases h₁ : u = 1
    · subst h₁
      cases hk
    · by_cases h₀ : u = 0
      · subst h₀
        cases hk
      · simp [FsState.setDoing, FsState.setDirLock, FsState.boot, h₀, h₁] at hk
  · cases hh

/-- Both return. -/
theorem calls_return_twoRenames :
    ∃ s, run FsState.step (.boot ⟨-1, [], []⟩ [] twoDirs) twoRenames = some s ∧ s.CallsReturn :=
  ⟨_, rfl, calls_return rfl serial_twoRenames⟩

end

end Trfs
