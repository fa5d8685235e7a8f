import TraceFileSystem.Concurrency.Interleaving

/-!
# Effects and records

Between the lower operation of a call and its record other calls can run.  What keeps the records of
two calls in the order of their lower operations is a lock that is held across both.

* `FsState.Inv` is the invariant of the machine: who holds which lock, and what each call has done.
* `FsState.Acts` says that one thread acts, and `FsState.Inv.of_acts` that the invariant is kept if
  it holds of the call of this thread.
* `FsState.Inv.ordered_step` is the step rule for any notion of conflict: the records of conflicting
  calls stay in order if no lower operation is performed while a conflicting call is pending.
-/

namespace Trfs

open LabelledSystem Journal

/-! ### What a call has done -/

/-- The header of the record may still be written. -/
def Stage.beforeHeader : Stage → Bool
  | .locked => true
  | .masked _ => true
  | .filled _ => true
  | _ => false

/-- A header is written from a stage before it, and the stages before it lead to each other. -/
theorem Stage.beforeHeader_of_next {k kernel : Kernel} {sb sb' : SbInfo} {tail : Tail}
    {stage stage' : Stage} {e : TailStep}
    (hnext : stage.next k sb tail e = some (kernel, sb', stage'))
    (h : stage'.beforeHeader = true ∨ ∃ r ret, stage' = .header r ret) :
    stage.beforeHeader = true := by
  cases stage with
  | header r ret =>
    cases e with
    | writeAux o =>
      rw [next] at hnext
      split at hnext
      · cases hnext
        simp [beforeHeader] at h
      · cases hnext
        simp [beforeHeader] at h
    | _ => cases hnext
  | leaving => cases e <;> cases hnext
  | dead => cases e <;> cases hnext
  | _ => rfl

/-- Headers are written at one stage only. -/
theorem Mount.eq_header_of_writesHeader {m : Mount} {sb : SbInfo} {stage : Stage}
    (h : m.writesHeader sb stage = true) : ∃ r ret, stage = .header r ret := by
  cases stage with
  | header r ret => exact ⟨r, ret, rfl⟩
  | _ => cases h

namespace Phase

/-- The lower operation was performed and the header of the record may still be written. -/
def pending (holder : Option Holder) : Phase → Bool
  | performed => true
  | ready => true
  | inside => holder.any fun h => h.stage.beforeHeader
  | _ => false

/-- The call holds the lock of one of its lower parents. -/
def Holds (d : ℕ) : Phase → Prop
  | locking rest => d ∉ rest
  | leaving _ => False
  | _ => True

/-- A call that is pending holds the locks of all its lower parents. -/
theorem holds_of_pending {holder : Option Holder} {phase : Phase}
    (h : phase.pending holder = true) (d : ℕ) : phase.Holds d := by
  cases phase with
  | locking rest => cases h
  | leaving rest => cases h
  | _ => trivial

end Phase

namespace FsState

/-- A call is between its lower operation and its record. -/
def Pending (s : FsState) (k : Task) : Prop :=
  ∃ t phase, s.doing t = some ⟨k, phase⟩ ∧ phase.pending s.mnt.holder = true

/-- What is true of a call where it stands. -/
structure CallOk (s : FsState) (t : ℕ) (k : Task) (phase : Phase) : Prop where
  num_lt : k.num < s.started
  locks : ∀ d ∈ k.lowerDirs, phase.Holds d → s.dirLock d = some t
  unperformed : ∀ rest, phase = .locking rest → k ∉ s.effects ∧ k ∉ s.written
  unwritten : phase.pending s.mnt.holder = true → k ∉ s.written
  inside : phase = .inside → ∃ h, s.mnt.holder = some h ∧ h.thread = t

/-- The invariant of the machine. -/
structure Inv (s : FsState) : Prop where
  calls : ∀ t k phase, s.doing t = some ⟨k, phase⟩ → s.CallOk t k phase
  thread_eq : ∀ t t' k phase phase', s.doing t = some ⟨k, phase⟩ → s.doing t' = some ⟨k, phase'⟩ →
    t = t'
  effects_lt : ∀ k ∈ s.effects, k.num < s.started
  written_lt : ∀ k ∈ s.written, k.num < s.started

/-- Only one thread acts, on behalf of a call: what concerns the other threads stays as it is. -/
structure Acts (s s' : FsState) (t : ℕ) (k : Task) : Prop where
  started : s.started ≤ s'.started
  doing : ∀ t' ≠ t, s'.doing t' = s.doing t'
  dirLock : ∀ d, ∀ t' ≠ t, s.dirLock d = some t' → s'.dirLock d = some t'
  effects : ∀ k' ∈ s'.effects, k' ∈ s.effects ∨ k' = k
  written : ∀ k' ∈ s'.written, k' ∈ s.written ∨ k' = k
  holder : s'.mnt.holder = s.mnt.holder ∨ ∀ h, s.mnt.holder = some h → h.thread = t

variable {s s' : FsState} {t t' : ℕ} {k k' : Task} {phase : Phase}

/-- Another thread that is inside `trfs_lock` sees no change of the lock. -/
theorem Acts.holder_eq (hacts : Acts s s' t k) (hne : t' ≠ t) (hok : s.CallOk t' k' phase)
    (hinside : phase = .inside) : s'.mnt.holder = s.mnt.holder := by
  refine hacts.holder.resolve_right fun hthread => ?_
  obtain ⟨h, hholder, rfl⟩ := hok.inside hinside
  exact hne (hthread h hholder)

/-- Whether the call of another thread is pending does not change. -/
theorem Acts.pending_eq (hacts : Acts s s' t k) (hne : t' ≠ t) (hok : s.CallOk t' k' phase) :
    phase.pending s'.mnt.holder = phase.pending s.mnt.holder := by
  cases phase with
  | inside => rw [hacts.holder_eq hne hok rfl]
  | _ => rfl

/-- What is true of a call stays true while another thread acts. -/
theorem Acts.callOk (hacts : Acts s s' t k) (hne : t' ≠ t) (hne' : k' ≠ k)
    (hok : s.CallOk t' k' phase) : s'.CallOk t' k' phase where
  num_lt := hok.num_lt.trans_le hacts.started
  locks d hd hholds := hacts.dirLock d t' hne (hok.locks d hd hholds)
  unperformed rest hrest := by
    obtain ⟨heffects, hwritten⟩ := hok.unperformed rest hrest
    exact ⟨fun h => heffects ((hacts.effects k' h).resolve_right hne'),
      fun h => hwritten ((hacts.written k' h).resolve_right hne')⟩
  unwritten hpending h := by
    rw [hacts.pending_eq hne hok] at hpending
    exact hok.unwritten hpending ((hacts.written k' h).resolve_right hne')
  inside hinside := by
    rw [hacts.holder_eq hne hok hinside]
    exact hok.inside hinside

/-- **One thread acts**: the invariant is kept if it holds of the call of this thread. -/
theorem Inv.of_acts (hs : s.Inv) (hacts : Acts s s' t k) (hk : k.num < s'.started)
    (hother : ∀ t' phase, t' ≠ t → s.doing t' ≠ some ⟨k, phase⟩)
    (hself : ∀ k' phase, s'.doing t = some ⟨k', phase⟩ → k' = k ∧ s'.CallOk t k phase) :
      s'.Inv where
  calls t' k' phase hdoing := by
    by_cases hne : t' = t
    · rw [hne] at hdoing ⊢
      obtain ⟨rfl, hok⟩ := hself k' phase hdoing
      exact hok
    · rw [hacts.doing t' hne] at hdoing
      refine hacts.callOk hne ?_ (hs.calls t' k' phase hdoing)
      rintro rfl
      exact hother t' phase hne hdoing
  thread_eq t₁ t₂ k' phase₁ phase₂ h₁ h₂ := by
    by_cases hne₁ : t₁ = t
    · by_cases hne₂ : t₂ = t
      · rw [hne₁, hne₂]
      · rw [hne₁] at h₁
        rw [hacts.doing t₂ hne₂, (hself k' phase₁ h₁).1] at h₂
        exact absurd h₂ (hother t₂ phase₂ hne₂)
    · rw [hacts.doing t₁ hne₁] at h₁
      by_cases hne₂ : t₂ = t
      · rw [hne₂] at h₂
        rw [(hself k' phase₂ h₂).1] at h₁
        exact absurd h₁ (hother t₁ phase₁ hne₁)
      · rw [hacts.doing t₂ hne₂] at h₂
        exact hs.thread_eq t₁ t₂ k' phase₁ phase₂ h₁ h₂
  effects_lt k' hk' := by
    rcases hacts.effects k' hk' with h | rfl
    · exact (hs.effects_lt k' h).trans_le hacts.started
    · exact hk
  written_lt k' hk' := by
    rcases hacts.written k' hk' with h | rfl
    · exact (hs.written_lt k' h).trans_le hacts.started
    · exact hk

/-- A call that is pending afterwards was pending before, or is the call of the thread that acts. -/
theorem Inv.pending_of_acts (hs : s.Inv) (hacts : Acts s s' t k) (h : s'.Pending k') :
    s.Pending k' ∨ ∃ phase, s'.doing t = some ⟨k', phase⟩ ∧ phase.pending s'.mnt.holder = true := by
  obtain ⟨t', phase, hdoing, hpending⟩ := h
  by_cases hne : t' = t
  · rw [hne] at hdoing
    exact .inr ⟨phase, hdoing, hpending⟩
  · rw [hacts.doing t' hne] at hdoing
    rw [hacts.pending_eq hne (hs.calls t' k' phase hdoing)] at hpending
    exact .inl ⟨t', phase, hdoing, hpending⟩

/-- No other thread works on the call of a thread. -/
theorem Inv.other (hs : s.Inv) (hdoing : s.doing t = some ⟨k, phase⟩) (t' : ℕ) (phase' : Phase)
    (hne : t' ≠ t) : s.doing t' ≠ some ⟨k, phase'⟩ :=
  fun h => hne (hs.thread_eq t' t k phase' phase h hdoing)

/-- The invariant does not speak of the tree, the mask or the kernel. -/
theorem Inv.congr (hs : s.Inv) (hdoing : s'.doing = s.doing) (hdirLock : s'.dirLock = s.dirLock)
    (hholder : s'.mnt.holder = s.mnt.holder) (heffects : s'.effects = s.effects)
    (hwritten : s'.written = s.written) (hstarted : s'.started = s.started) : s'.Inv where
  calls t k phase h := by
    rw [hdoing] at h
    obtain ⟨h₁, h₂, h₃, h₄, h₅⟩ := hs.calls t k phase h
    constructor
    · rwa [hstarted]
    · rwa [hdirLock]
    · rwa [heffects, hwritten]
    · rwa [hholder, hwritten]
    · rwa [hholder]
  thread_eq := by
    rw [hdoing]
    exact hs.thread_eq
  effects_lt := by
    rw [heffects, hstarted]
    exact hs.effects_lt
  written_lt := by
    rw [hwritten, hstarted]
    exact hs.written_lt

/-- What concerns the other threads when a thread does something else. -/
theorem acts_setDoing (s : FsState) (t : ℕ) (k : Task) (a : Option Activity) :
    Acts s (s.setDoing t a) t k where
  started := le_rfl
  doing _ hne := Function.update_of_ne hne _ _
  dirLock _ _ _ h := h
  effects _ h := .inl h
  written _ h := .inl h
  holder := .inl rfl

/-- What concerns the other threads when a call begins. -/
theorem acts_enter (s : FsState) (t : ℕ) (k : Task) (a : Option Activity) :
    Acts s { s.setDoing t a with started := s.started + 1 } t k :=
  { acts_setDoing s t k a with started := Nat.le_succ _ }

/-- What concerns the other threads when the tree changes as well. -/
theorem acts_setTree (s : FsState) (t : ℕ) (k : Task) (tree : DirTree) (a : Option Activity) :
    Acts s ({ s with tree := tree }.setDoing t a) t k :=
  { acts_setDoing s t k a with }

/-- What concerns the other threads when `trfs_lock` is taken or released. -/
theorem acts_setHolder (s : FsState) {t : ℕ} (k : Task) (a : Option Activity)
    (holder : Option Holder) (hthread : ∀ h, s.mnt.holder = some h → h.thread = t) :
    Acts s { s.setDoing t a with mnt := { s.mnt with holder := holder } } t k :=
  { acts_setDoing s t k a with holder := .inr hthread }

/-- `trfs_interpose` changes the tree at most. -/
theorem afterInterpose_eq (s : FsState) (k : Task) :
    ∃ tree, s.afterInterpose k = { s with tree := tree } := by
  unfold afterInterpose
  split
  · exact ⟨_, rfl⟩
  · exact ⟨s.tree, rfl⟩

/-- The return to the VFS changes the tree at most. -/
theorem afterReturn_eq (s : FsState) (k : Task) :
    ∃ tree, s.afterReturn k = { s with tree := tree } := by
  unfold afterReturn
  split
  · exact ⟨_, rfl⟩
  · exact ⟨s.tree, rfl⟩

/-- Nobody else holds `trfs_lock` while it is free. -/
theorem thread_eq_of_free (hfree : s.mnt.holder = none) (h : Holder) (hh : s.mnt.holder = some h) :
    h.thread = t := by
  rw [hfree] at hh
  cases hh

/-- Nobody else holds `trfs_lock` while a call is inside. -/
theorem CallOk.thread_eq (hok : s.CallOk t k .inside) (h : Holder) (hh : s.mnt.holder = some h) :
    h.thread = t := by
  obtain ⟨h', hh', rfl⟩ := hok.inside rfl
  rw [hh, Option.some_inj] at hh'
  rw [hh']

/-- What concerns the other threads when the lock of a lower directory changes hands. -/
theorem acts_setDirLock (s : FsState) {t d : ℕ} (k : Task) {o : Option ℕ} (a : Option Activity)
    (hd : s.dirLock d = none ∨ s.dirLock d = some t) :
    Acts s ((s.setDirLock d o).setDoing t a) t k where
  started := le_rfl
  doing _ hne := Function.update_of_ne hne _ _
  dirLock d' t' hne h := by
    have hne' : d' ≠ d := by
      rintro rfl
      rcases hd with hd | hd
      · rw [hd] at h
        cases h
      · rw [hd, Option.some_inj] at h
        exact hne h.symm
    exact (Function.update_of_ne hne' _ _).trans h
  effects _ h := .inl h
  written _ h := .inl h
  holder := .inl rfl

/-- What concerns the other threads when a lower operation is performed. -/
theorem acts_afterLower (s : FsState) (t : ℕ) (k : Task) (a : Option Activity) :
    Acts s ((s.afterLower k).setDoing t a) t k where
  started := le_rfl
  doing _ hne := Function.update_of_ne hne _ _
  dirLock _ _ _ h := h
  effects k' h := by
    change k' ∈ (if k.op.performs then s.effects ++ [k] else s.effects) at h
    split at h
    · rwa [List.mem_append, List.mem_singleton] at h
    · exact .inl h
  written _ h := .inl h
  holder := .inl rfl

/-- What concerns the other threads when the holder of `trfs_lock` takes a step. -/
theorem acts_afterWork (s : FsState) {h : Holder} (hholder : s.mnt.holder = some h) (k : Task)
    (e : TailStep) (kernel : Kernel) (sb : SbInfo) (stage : Stage) :
    Acts s (s.afterWork k h e kernel sb stage) h.thread k where
  started := le_rfl
  doing _ _ := rfl
  dirLock _ _ _ h := h
  effects _ h := .inl h
  written k' h := by
    change k' ∈ (if s.mnt.writesHeader sb stage then s.written ++ [k] else s.written) at h
    split at h
    · rwa [List.mem_append, List.mem_singleton] at h
    · exact .inl h
  holder := .inr fun h' hh' => by
    rw [hholder, Option.some_inj] at hh'
    rw [← hh']

/-- The invariant is kept when the call of the thread that acts is in order where it stands now. -/
theorem Inv.of_acts_some (hs : s.Inv) (hacts : Acts s s' t k)
    (hother : ∀ t' phase, t' ≠ t → s.doing t' ≠ some ⟨k, phase⟩)
    (hdoing : s'.doing t = some ⟨k, phase⟩) (hok : s'.CallOk t k phase) : s'.Inv := by
  refine hs.of_acts hacts hok.num_lt hother fun k' phase' h => ?_
  rw [hdoing] at h
  cases h
  exact ⟨rfl, hok⟩

/-- A call that is still locking has done nothing. -/
theorem CallOk.of_locking {rest : List ℕ} (hnum : k.num < s.started)
    (hlocks : ∀ d ∈ k.lowerDirs, d ∉ rest → s.dirLock d = some t)
    (hnew : k ∉ s.effects ∧ k ∉ s.written) : s.CallOk t k (.locking rest) where
  num_lt := hnum
  locks := hlocks
  unperformed _ _ := hnew
  unwritten _ := hnew.2
  inside h := by cases h

/-- A call that has performed its lower operation holds all its locks until it has written its
record. -/
theorem CallOk.of_unwritten (hnum : k.num < s.started)
    (hlocks : ∀ d ∈ k.lowerDirs, s.dirLock d = some t) (hwritten : k ∉ s.written)
    (hphase : ∀ rest, phase ≠ .locking rest)
    (hinside : phase = .inside → ∃ h, s.mnt.holder = some h ∧ h.thread = t) :
    s.CallOk t k phase where
  num_lt := hnum
  locks d hd _ := hlocks d hd
  unperformed rest h := absurd h (hphase rest)
  unwritten _ := hwritten
  inside := hinside

/-- Nothing is asked of a call that releases its locks. -/
theorem CallOk.of_leaving (hnum : k.num < s.started) (rest : List ℕ) :
    s.CallOk t k (.leaving rest) where
  num_lt := hnum
  locks _ _ hholds := absurd hholds id
  unperformed _ h := by cases h
  unwritten h := by cases h
  inside h := by cases h

/-- The step of a call inside `trfs_lock`. -/
theorem CallOk.afterWork {h : Holder} (hok : s.CallOk h.thread k .inside)
    (hholder : s.mnt.holder = some h) {e : TailStep} {kernel : Kernel} {sb : SbInfo} {stage : Stage}
    (hnext : h.stage.next s.kernel s.mnt.sb h.tail e = some (kernel, sb, stage)) :
    (s.afterWork k h e kernel sb stage).CallOk h.thread k .inside where
  num_lt := hok.num_lt
  locks := hok.locks
  unperformed _ h := by cases h
  unwritten hpending hwritten := by
    have hbefore : stage.beforeHeader = true := hpending
    change k ∈ (if s.mnt.writesHeader sb stage then s.written ++ [k] else s.written) at hwritten
    split at hwritten
    · next hwrites =>
      obtain ⟨r, ret, rfl⟩ := Mount.eq_header_of_writesHeader hwrites
      cases hbefore
    · refine hok.unwritten ?_ hwritten
      rw [hholder]
      exact Stage.beforeHeader_of_next hnext (.inl hbefore)
  inside _ := ⟨_, rfl, rfl⟩

/-- **One step** keeps the invariant. -/
theorem Inv.step (hs : s.Inv) {e : FsEvent} (hstep : s.step e = some s') : s'.Inv := by
  cases steps_of_step hstep with
  | enter t op home object k hk hidle hnames =>
    have hnum : k.num = s.started := by rw [hk]
    have hnew : ∀ k' : Task, k'.num < s.started → k' ≠ k := by
      rintro k' hlt rfl
      exact absurd hlt (by rw [hnum]; exact lt_irrefl _)
    refine hs.of_acts_some (acts_enter s t k _) (fun t' phase _ h => ?_)
      (Function.update_self _ _ _) ?_
    · exact hnew k (hs.calls t' k phase h).num_lt rfl
    · apply CallOk.of_locking
      · rw [hnum]
        exact Nat.lt_succ_self _
      · intro d hd hrest
        exact absurd hd hrest
      · exact ⟨fun h => hnew k (hs.effects_lt k h) rfl, fun h => hnew k (hs.written_lt k h) rfl⟩
  | lockDir t d k rest hdoing hd hfree =>
    have hok := hs.calls t k _ hdoing
    refine hs.of_acts_some (acts_setDirLock s k _ (.inl hfree)) (hs.other hdoing)
      (Function.update_self _ _ _) ?_
    refine .of_locking hok.num_lt ?_ (hok.unperformed rest rfl)
    intro d' hd' hunlocked
    by_cases heq : d' = d
    · rw [heq]
      exact Function.update_self _ _ _
    · refine (Function.update_of_ne heq _ _).trans (hok.locks d' hd' fun hrest => hunlocked ?_)
      exact (List.mem_erase_of_ne heq).mpr hrest
  | perform t k hdoing hfresh =>
    have hok := hs.calls t k _ hdoing
    refine hs.of_acts_some (acts_afterLower s t k _) (hs.other hdoing)
      (Function.update_self _ _ _) ?_
    exact .of_unwritten hok.num_lt (fun d hd => hok.locks d hd List.not_mem_nil)
      (hok.unperformed [] rfl).2 (by simp) (by simp)
  | interpose t k phase hdoing hphase =>
    have hok := hs.calls t k _ hdoing
    obtain ⟨tree, htree⟩ := s.afterInterpose_eq k
    rw [htree]
    refine hs.of_acts_some (acts_setTree s t k tree _) (hs.other hdoing)
      (Function.update_self _ _ _) ?_
    refine .of_unwritten hok.num_lt (fun d hd => hok.locks d hd trivial) (hok.unwritten rfl) ?_ ?_
    · rcases hphase with rfl | rfl <;> simp
    · rcases hphase with rfl | rfl <;> simp
  | lock t k hdoing hfree =>
    have hok := hs.calls t k _ hdoing
    refine hs.of_acts_some (acts_setHolder s k _ _ (thread_eq_of_free hfree)) (hs.other hdoing)
      (Function.update_self _ _ _) ?_
    exact .of_unwritten hok.num_lt (fun d hd => hok.locks d hd trivial) (hok.unwritten rfl)
      (by simp) fun _ => ⟨_, rfl, rfl⟩
  | work t e k h kernel sb stage hdoing hholder hthread hnext =>
    rw [← hthread] at hdoing
    exact hs.of_acts_some (acts_afterWork s hholder k e kernel sb stage) (hs.other hdoing) hdoing
      ((hs.calls _ k _ hdoing).afterWork hholder hnext)
  | unlock t k h hdoing hholder hleaving =>
    have hok := hs.calls t k _ hdoing
    refine hs.of_acts_some (acts_setHolder s k _ _ hok.thread_eq) (hs.other hdoing)
      (Function.update_self _ _ _) ?_
    apply CallOk.of_leaving
    exact hok.num_lt
  | unlockDir t d k rest hdoing hheld =>
    have hok := hs.calls t k _ hdoing
    refine hs.of_acts_some (acts_setDirLock s k _ (.inr hheld)) (hs.other hdoing)
      (Function.update_self _ _ _) ?_
    apply CallOk.of_leaving
    exact hok.num_lt
  | leave t k hdoing =>
    obtain ⟨tree, htree⟩ := s.afterReturn_eq k
    rw [htree]
    refine hs.of_acts (acts_setTree s t k tree none) (hs.calls t k _ hdoing).num_lt
      (hs.other hdoing) fun k' phase h => ?_
    rw [doing_setDoing_self] at h
    cases h
  | lookup d p k hmaker hmade hunknown => exact hs.congr rfl rfl rfl rfl rfl rfl
  | setBmap umask hfree => exact hs.congr rfl rfl rfl rfl rfl rfl
  | elsewhere k => exact hs.congr rfl rfl rfl rfl rfl rfl

/-! ### Effects and records -/

/-- A step that neither performs a lower operation nor writes a header keeps the order, provided
that it makes no call pending. -/
theorem Inv.ordered_of_acts {Conflict : Task → Task → Prop} (hs : s.Inv)
    (hord : Ordered Conflict s.effects s.written s.Pending) (hacts : Acts s s' t k)
    (heffects : s'.effects = s.effects) (hwritten : s'.written = s.written)
    (hself : ∀ k' phase, s'.doing t = some ⟨k', phase⟩ → phase.pending s'.mnt.holder = true →
      s.Pending k') : Ordered Conflict s'.effects s'.written s'.Pending := by
  rw [heffects, hwritten]
  refine hord.mono (List.Sublist.refl _) fun k' hpending => ?_
  rcases hs.pending_of_acts hacts hpending with h | ⟨phase, hdoing, h⟩
  · exact h
  · exact hself k' phase hdoing h

/-- The same for a step after which the thread is still in its call. -/
theorem Inv.ordered_of_acts_some {Conflict : Task → Task → Prop} (hs : s.Inv)
    (hord : Ordered Conflict s.effects s.written s.Pending) (hacts : Acts s s' t k)
    (heffects : s'.effects = s.effects) (hwritten : s'.written = s.written)
    (hdoing : s'.doing t = some ⟨k, phase⟩)
    (hpending : phase.pending s'.mnt.holder = true → s.Pending k) :
    Ordered Conflict s'.effects s'.written s'.Pending := by
  refine hs.ordered_of_acts hord hacts heffects hwritten fun k' phase' hdoing' hpending' => ?_
  cases hdoing.symm.trans hdoing'
  exact hpending hpending'

/-- **One step keeps the order** if a lower operation is performed only while no conflicting call is
pending. -/
theorem Inv.ordered_step {Conflict : Task → Task → Prop} (hs : s.Inv)
    (hord : Ordered Conflict s.effects s.written s.Pending) {e : FsEvent}
    (hclear : ∀ t k, e = .perform t → s.doing t = some ⟨k, .locking []⟩ →
      ∀ k', Conflict k' k → ¬s.Pending k') (hstep : s.step e = some s') :
    Ordered Conflict s'.effects s'.written s'.Pending := by
  cases steps_of_step hstep with
  | enter t op home object k hk hidle hnames =>
    refine hs.ordered_of_acts_some hord (acts_enter s t k _) rfl rfl (Function.update_self _ _ _) ?_
    intro h
    cases h
  | lockDir t d k rest hdoing hd hfree =>
    refine hs.ordered_of_acts_some hord (acts_setDirLock s k _ (.inl hfree)) rfl rfl
      (Function.update_self _ _ _) ?_
    intro h
    cases h
  | perform t k hdoing hfresh =>
    have hnew := (hs.calls t k _ hdoing).unperformed [] rfl
    have hpending : ∀ k', ((s.afterLower k).setDoing t (some ⟨k, .performed⟩)).Pending k' →
        s.Pending k' ∨ k' = k := by
      intro k' hk'
      refine (hs.pending_of_acts (acts_afterLower s t k _) hk').imp_right ?_
      rintro ⟨phase, hdoing', -⟩
      cases (Function.update_self t _ s.doing).symm.trans hdoing'
      rfl
    by_cases hperforms : k.op.performs = true
    · have heffects : ((s.afterLower k).setDoing t (some ⟨k, .performed⟩)).effects =
          s.effects ++ [k] := if_pos hperforms
      rw [heffects]
      exact hord.effect hnew.1 hnew.2 (fun k' _ => hclear t k rfl hdoing k') hpending
    · have heffects : ((s.afterLower k).setDoing t (some ⟨k, .performed⟩)).effects = s.effects :=
        if_neg hperforms
      rw [heffects]
      exact hord.skip hnew.1 hpending
  | interpose t k phase hdoing hphase =>
    obtain ⟨tree, htree⟩ := s.afterInterpose_eq k
    rw [htree]
    exact hs.ordered_of_acts_some hord (acts_setTree s t k tree _) rfl rfl
      (Function.update_self _ _ _) fun _ => ⟨t, .performed, hdoing, rfl⟩
  | lock t k hdoing hfree =>
    exact hs.ordered_of_acts_some hord (acts_setHolder s k _ _ (thread_eq_of_free hfree)) rfl rfl
      (Function.update_self _ _ _) fun _ => ⟨t, .ready, hdoing, rfl⟩
  | work t e k h kernel sb stage hdoing hholder hthread hnext =>
    rw [← hthread] at hdoing
    have hacts := acts_afterWork s hholder k e kernel sb stage
    -- a call that may still write a header could do so before
    have hbefore (hstage : stage.beforeHeader = true ∨ ∃ r ret, stage = .header r ret) :
        s.Pending k := by
      refine ⟨h.thread, .inside, hdoing, ?_⟩
      rw [hholder]
      exact Stage.beforeHeader_of_next hnext hstage
    have hpending : ∀ k', (s.afterWork k h e kernel sb stage).Pending k' → s.Pending k' := by
      intro k' hk'
      rcases hs.pending_of_acts hacts hk' with hk' | ⟨phase, hdoing', hphase⟩
      · exact hk'
      · cases hdoing.symm.trans hdoing'
        exact hbefore (.inl hphase)
    by_cases hwrites : s.mnt.writesHeader sb stage = true
    · have hk := hbefore (.inr (Mount.eq_header_of_writesHeader hwrites))
      have hwritten : (s.afterWork k h e kernel sb stage).written = s.written ++ [k] :=
        if_pos hwrites
      rw [hwritten]
      refine (hord.record hk ?_).mono (List.Sublist.refl _) hpending
      obtain ⟨t', phase, hdoing', hphase⟩ := hk
      exact (hs.calls t' k phase hdoing').unwritten hphase
    · have hwritten : (s.afterWork k h e kernel sb stage).written = s.written := if_neg hwrites
      rw [hwritten]
      exact hord.mono (List.Sublist.refl _) hpending
  | unlock t k h hdoing hholder hleaving =>
    have hthread := (hs.calls t k _ hdoing).thread_eq
    refine hs.ordered_of_acts_some hord (acts_setHolder s k _ _ hthread) rfl rfl
      (Function.update_self _ _ _) ?_
    intro h
    cases h
  | unlockDir t d k rest hdoing hheld =>
    refine hs.ordered_of_acts_some hord (acts_setDirLock s k _ (.inr hheld)) rfl rfl
      (Function.update_self _ _ _) ?_
    intro h
    cases h
  | leave t k hdoing =>
    obtain ⟨tree, htree⟩ := s.afterReturn_eq k
    rw [htree]
    refine hs.ordered_of_acts hord (acts_setTree s t k tree _) rfl rfl fun k' phase' hdoing' _ => ?_
    rw [doing_setDoing_self] at hdoing'
    cases hdoing'
  | lookup d p k hmaker hmade hunknown => exact hord
  | setBmap umask hfree => exact hord
  | elsewhere k => exact hord

end FsState

end Trfs
