import TraceFileSystem.Concurrency.SameDirectory

/-!
# A fault under the lock

A thread that the kernel stops inside `trfs_lock`, by a fault or by a `BUG_ON`, never releases the
lock, and neither does it release the lower parents of its call.

* `Tail.Fatal` are the logging tails that end like this, provided that they are traced and pages can
  be allocated: a path does not fit a page, or there is a pointer to auxiliary data whose length, as
  a `short`, is zero.  A `symlink` that failed is not among them, as it faults before it takes the
  lock.
* `Frozen` is what is left of the mount: nobody but the call itself logs anything any more, the mask
  cannot be changed, and no call that has not yet released `trfs_lock` ever returns.  The call
  itself may still log the fixed part of its record, as a write of zero bytes does.

`frozen_of_fatal` says that this is so from the moment on at which such a call has taken the lock.
The shortest way into this state is a write of zero bytes (`frozen_emptyWrite`).
-/

namespace Trfs

open LabelledSystem

/-! ### Fatal tails -/

/-- The kernel stops this logging tail when it is traced and has its pages. -/
def Tail.Fatal (t : Tail) : Prop :=
  t.TooLong ∨ (t.storedLen = 0 ∧ t.args.auxPtr 0 ≠ .null)

/-- The holder of `trfs_lock` is in a fatal tail, or has been stopped. -/
def Holder.Doomed (umask : BitVec 64) (h : Holder) : Prop :=
  match h.stage with
  | .locked => ∃ op : TracedOp, h.tail = op.plan.tail ∧ traces umask h.tail.type ∧ h.tail.Fatal
  | .masked a => ∃ op : TracedOp, a = op.plan.tail.args ∧ op.plan.tail.Fatal
  | .filled r => r.auxLen = 0 ∧ r.aux ≠ .null
  | .header r _ => r.auxLen = 0 ∧ r.aux ≠ .null
  | .leaving => False
  | .dead => True

/-- The header has been written, or the kernel has stopped the thread. -/
def Stage.PastHeader : Stage → Prop
  | header _ _ => True
  | dead => True
  | _ => False

/-- The holder of `trfs_lock` is behind the write of its header. -/
def Mount.PastHeader (m : Mount) : Prop :=
  ∃ h ∈ m.holder, h.stage.PastHeader

/-- The log of a later moment is the same, but for the write of the header of the holder, which is
made at most once. -/
inductive Mount.KeepsLog (m m' : Mount) : Prop
  | same (hlog : m'.sb.log = m.sb.log) (hpast : m.PastHeader → m'.PastHeader)
  | header (hbefore : ¬m.PastHeader) (hafter : m'.PastHeader) (o : WriteOutcome)
    (src : List UInt8) (count : ℤ) (hlog : m'.sb.log = (m.sb.log.writeAdvance o src count).1)

/-- At the same moment. -/
theorem Mount.KeepsLog.refl (m : Mount) : m.KeepsLog m :=
  .same rfl id

/-- At a still later moment. -/
theorem Mount.KeepsLog.trans {m m' m'' : Mount} (h : m.KeepsLog m') (h' : m'.KeepsLog m'') :
    m.KeepsLog m'' := by
  cases h with
  | same hlog hpast =>
    cases h' with
    | same hlog' hpast' => exact .same (hlog'.trans hlog) fun hm => hpast' (hpast hm)
    | header hbefore hafter o src count hlog' =>
      exact .header (fun hm => hbefore (hpast hm)) hafter o src count (by rw [hlog', hlog])
  | header hbefore hafter o src count hlog =>
    cases h' with
    | same hlog' hpast' => exact .header hbefore (hpast' hafter) o src count (hlog'.trans hlog)
    | header hbefore' => exact absurd hafter hbefore'

/-- After a step of the holder. -/
theorem Mount.KeepsLog.of_stage {m m' : Mount} {h h' : Holder} (hm : m.holder = some h)
    (hm' : m'.holder = some h')
    (hlog : m'.sb.log = m.sb.log ∧ (h.stage.PastHeader → h'.stage.PastHeader) ∨
      ¬h.stage.PastHeader ∧ h'.stage.PastHeader ∧
        ∃ o src count, m'.sb.log = (m.sb.log.writeAdvance o src count).1) : m.KeepsLog m' := by
  have hpast : m.PastHeader ↔ h.stage.PastHeader := by
    simp only [Mount.PastHeader, hm, Option.mem_some_iff, exists_eq_left']
  have hpast' : m'.PastHeader ↔ h'.stage.PastHeader := by
    simp only [Mount.PastHeader, hm', Option.mem_some_iff, exists_eq_left']
  rcases hlog with ⟨hlog, hstage⟩ | ⟨hbefore, hafter, o, src, count, hlog⟩
  · exact .same hlog fun hm => hpast'.mpr (hstage (hpast.mp hm))
  · exact .header (mt hpast.mp hbefore) (hpast'.mpr hafter) o src count hlog

/-- Pages can be allocated. -/
def TailStep.Allocates : TailStep → Prop
  | fill pages => pages.available
  | _ => True

/-- The pointer of a record is NULL whatever the page it would lie in. -/
theorem FillArgs.auxPtr_ne_null {a : FillArgs} {auxPage : ℕ} (h : a.auxPtr auxPage ≠ .null)
    (auxPage' : ℕ) : a.auxPtr auxPage' ≠ .null := by
  unfold auxPtr at h ⊢
  cases haux : a.aux with
  | chars p =>
    rw [haux] at h
    exact h
  | dentry d => simp

/-- `fill_record` in a fatal tail: it faults, or it builds a record that the assertion of
`append_record` does not let through. -/
theorem TracedOp.doomed_fillRecord {op : TracedOp} (hfatal : op.plan.tail.Fatal) {pages : PageEnv}
    (hpages : pages.available) (k : Kernel) :
    (∃ f, fillRecord pages k op.plan.tail.args = .error f) ∨
      ∃ k' r, fillRecord pages k op.plan.tail.args = .ok (k', .ok r) ∧ r.auxLen = 0 ∧
        r.aux ≠ .null := by
  obtain ⟨pathPage, auxPage, rfl⟩ := PageEnv.exists_of_available hpages
  by_cases hlong : op.plan.tail.TooLong
  · exact .inl ⟨_, fillRecord_tooLong hlong k pathPage auxPage⟩
  · obtain ⟨hlen, haux⟩ := hfatal.resolve_left hlong
    exact .inr ⟨_, _, fillRecord_eq hlong k pathPage auxPage, hlen,
      FillArgs.auxPtr_ne_null haux auxPage⟩

/-- **One step inside the lock** does not lead out of a fatal tail, leaves the mask as it is, and
writes at most the header. -/
theorem Holder.Doomed.next {h : Holder} {k kernel : Kernel} {sb sb' : SbInfo} {stage : Stage}
    {e : TailStep} (hd : h.Doomed sb.umask) (he : e.Allocates)
    (hnext : h.stage.next k sb h.tail e = some (kernel, sb', stage)) :
    ({ h with stage := stage } : Holder).Doomed sb'.umask ∧ sb'.umask = sb.umask ∧
      (sb'.log = sb.log ∧ (h.stage.PastHeader → stage.PastHeader) ∨
        ¬h.stage.PastHeader ∧ stage.PastHeader ∧
          ∃ o src count, sb'.log = (sb.log.writeAdvance o src count).1) := by
  unfold Doomed at hd
  cases hstage : h.stage with
  | locked =>
    rw [hstage] at hd hnext
    obtain ⟨op, htail, htraces, hfatal⟩ := hd
    cases e with
    | mask =>
      cases hnext
      rw [htail] at htraces hfatal
      exact ⟨⟨op, by rw [htail, Tail.fillArgs_of_traces htraces], hfatal⟩, rfl, .inl ⟨rfl, id⟩⟩
    | _ => cases hnext
  | masked a =>
    rw [hstage] at hd hnext
    obtain ⟨op, rfl, hfatal⟩ := hd
    cases e with
    | fill pages =>
      rw [Stage.next] at hnext
      rcases op.doomed_fillRecord hfatal he k with ⟨f, hfill⟩ | ⟨k', r, hfill, hr⟩
      · rw [hfill] at hnext
        cases hnext
        exact ⟨trivial, rfl, .inl ⟨rfl, fun _ => trivial⟩⟩
      · rw [hfill] at hnext
        cases hnext
        exact ⟨hr, rfl, .inl ⟨rfl, id⟩⟩
    | _ => cases hnext
  | filled r =>
    rw [hstage] at hd hnext
    cases e with
    | writeHeader o =>
      rw [Stage.next] at hnext
      split at hnext
      · cases hnext
        exact ⟨trivial, rfl, .inl ⟨rfl, fun _ => trivial⟩⟩
      · next happend =>
        cases hnext
        obtain ⟨page, hlog⟩ := log_of_appendHeader happend
        exact ⟨hd, umask_of_appendHeader happend, .inr ⟨id, trivial, o, page, _, hlog⟩⟩
    | _ => cases hnext
  | header r ret =>
    rw [hstage] at hd hnext
    cases e with
    | writeAux o =>
      have hbug : appendAux sb k r o ret = .error .bugOn := by
        rw [appendAux, if_pos hd.1, if_pos hd.2]
      rw [Stage.next, hbug] at hnext
      cases hnext
      exact ⟨trivial, rfl, .inl ⟨rfl, id⟩⟩
    | _ => cases hnext
  | leaving =>
    rw [hstage] at hd
    exact hd.elim
  | dead =>
    rw [hstage] at hnext
    cases e <;> cases hnext

/-! ### The mount afterwards -/

/-- The call has not released `trfs_lock` yet. -/
def Phase.BeforeUnlock : Phase → Prop
  | leaving _ => False
  | _ => True

/-- Pages can be allocated for the holder of the lock. -/
def FsEvent.Allocates : FsEvent → Prop
  | work _ e => e.Allocates
  | _ => True

namespace FsState

/-- What a state has of an earlier one in which the call `k` is doomed: the mask, the log and its
records but for the header that `k` may still write, and the calls that had not released
`trfs_lock`, which have still not done so and hold the lower parents that they held. -/
structure Frozen (k : Task) (s s' : FsState) : Prop where
  umask : s'.mnt.sb.umask = s.mnt.sb.umask
  log : s.mnt.KeepsLog s'.mnt
  written : ∀ k' ∈ s'.written, k' ∈ s.written ∨ k' = k
  calls : ∀ t k' phase, s.doing t = some ⟨k', phase⟩ → phase.BeforeUnlock →
    ∃ phase', s'.doing t = some ⟨k', phase'⟩ ∧ phase'.BeforeUnlock
  locks : ∀ t k' phase d, s.doing t = some ⟨k', phase⟩ → phase.BeforeUnlock →
    s.dirLock d = some t → s'.dirLock d = some t

/-- A call is in a fatal tail. -/
def Doomed (t : ℕ) (k : Task) (s : FsState) : Prop :=
  s.doing t = some ⟨k, .inside⟩ ∧
    ∃ h, s.mnt.holder = some h ∧ h.thread = t ∧ h.Doomed s.mnt.sb.umask

variable {s s' s'' : FsState} {k : Task} {t : ℕ}

/-- Every state is frozen in itself. -/
theorem Frozen.refl (k : Task) (s : FsState) : Frozen k s s where
  umask := rfl
  log := .refl s.mnt
  written _ h := .inl h
  calls _ _ phase hdoing hbefore := ⟨phase, hdoing, hbefore⟩
  locks _ _ _ _ _ _ h := h

/-- What stays frozen from one state to the next stays frozen in the end. -/
theorem Frozen.trans (h : Frozen k s s') (h' : Frozen k s' s'') : Frozen k s s'' where
  umask := h'.umask.trans h.umask
  log := h.log.trans h'.log
  written k' hk' := (h'.written k' hk').elim (h.written k') .inr
  calls t k' phase hdoing hbefore := by
    obtain ⟨phase', hdoing', hbefore'⟩ := h.calls t k' phase hdoing hbefore
    exact h'.calls t k' phase' hdoing' hbefore'
  locks t k' phase d hdoing hbefore hlock := by
    obtain ⟨phase', hdoing', hbefore'⟩ := h.calls t k' phase hdoing hbefore
    exact h'.locks t k' phase' d hdoing' hbefore' (h.locks t k' phase d hdoing hbefore hlock)

/-- A thread goes on before `trfs_lock`, or begins a call. -/
theorem Frozen.of_update {u : ℕ} {a : Activity}
    (hdoing : s'.doing = Function.update s.doing u (some a)) (hmnt : s'.mnt = s.mnt)
    (hwritten : s'.written = s.written)
    (hself : ∀ k' phase, s.doing u = some ⟨k', phase⟩ → phase.BeforeUnlock →
      a.task = k' ∧ a.phase.BeforeUnlock)
    (hlocks : ∀ d v, s.dirLock d = some v → s'.dirLock d = some v) : Frozen k s s' where
  umask := by rw [hmnt]
  log := by
    rw [hmnt]
    exact .refl s.mnt
  written k' hk' := .inl (hwritten ▸ hk')
  calls v k' phase hv hbefore := by
    rw [hdoing]
    by_cases hvu : v = u
    · rw [hvu] at hv ⊢
      obtain ⟨rfl, hbefore'⟩ := hself k' phase hv hbefore
      exact ⟨a.phase, Function.update_self _ _ _, hbefore'⟩
    · rw [Function.update_of_ne hvu]
      exact ⟨phase, hv, hbefore⟩
  locks v _ _ d _ _ h := hlocks d v h

/-- A thread goes on in its call, and does not release `trfs_lock`. -/
theorem Frozen.of_goes {u : ℕ} {k₁ : Task} {phase phase' : Phase}
    (hu : s.doing u = some ⟨k₁, phase⟩)
    (hdoing : s'.doing = Function.update s.doing u (some ⟨k₁, phase'⟩)) (hmnt : s'.mnt = s.mnt)
    (hwritten : s'.written = s.written) (hbefore : phase'.BeforeUnlock)
    (hlocks : ∀ d v, s.dirLock d = some v → s'.dirLock d = some v) : Frozen k s s' := by
  refine .of_update hdoing hmnt hwritten (fun k' phase'' hv _ => ?_) hlocks
  cases hu.symm.trans hv
  exact ⟨rfl, hbefore⟩

/-- A thread that has released `trfs_lock` goes on. -/
theorem Frozen.of_leaving {u : ℕ} {k₁ : Task} {rest : List ℕ} {b : Option Activity}
    (hu : s.doing u = some ⟨k₁, .leaving rest⟩) (hdoing : s'.doing = Function.update s.doing u b)
    (hmnt : s'.mnt = s.mnt) (hwritten : s'.written = s.written)
    (hlocks : ∀ d v, v ≠ u → s.dirLock d = some v → s'.dirLock d = some v) : Frozen k s s' := by
  have hne : ∀ v k' phase, s.doing v = some ⟨k', phase⟩ → phase.BeforeUnlock → v ≠ u := by
    rintro v k' phase hv hbefore rfl
    cases hu.symm.trans hv
    exact hbefore
  refine ⟨by rw [hmnt], by rw [hmnt]; exact .refl s.mnt, fun k' hk' => .inl (hwritten ▸ hk'),
    fun v k' phase hv hbefore => ?_,
    fun v k' phase d hv hbefore h => hlocks d v (hne v k' phase hv hbefore) h⟩
  exact ⟨phase, by rw [hdoing, Function.update_of_ne (hne v k' phase hv hbefore), hv], hbefore⟩

/-- Another thread goes on, and the call is as doomed as before. -/
theorem Doomed.congr (hd : Doomed t k s) (hmnt : s'.mnt = s.mnt)
    (hdoing : s'.doing t = s.doing t) : Doomed t k s' := by
  obtain ⟨hdoing', h, hholder, hthread, hdoomed⟩ := hd
  exact ⟨hdoing.trans hdoing', h, by rw [hmnt]; exact hholder, hthread, by rw [hmnt]; exact hdoomed⟩

/-- The thread of a doomed call does nothing else. -/
theorem Doomed.ne (hd : Doomed t k s) {u : ℕ} {a : Option Activity} (hu : s.doing u = a)
    (ha : ∀ k', a ≠ some ⟨k', .inside⟩) : t ≠ u := by
  rintro rfl
  exact ha k (hu.symm.trans hd.1)

/-- **One step** leaves a doomed call doomed, and everything else frozen. -/
theorem Doomed.step (hd : Doomed t k s) {e : FsEvent} (he : e.Allocates)
    (hstep : s.step e = some s') : Doomed t k s' ∧ Frozen k s s' := by
  obtain ⟨hdoing, h, hholder, hthread, hdoomed⟩ := id hd
  cases steps_of_step hstep with
  | enter u op home object k₁ hk hidle hnames =>
    have hne := hd.ne hidle (by simp)
    refine ⟨hd.congr rfl (Function.update_of_ne hne _ _), ?_⟩
    refine .of_update rfl rfl rfl (fun k' phase hv _ => ?_) fun _ _ hlock => hlock
    rw [hidle] at hv
    cases hv
  | lockDir u d k₁ rest hu hmem hfree =>
    have hne := hd.ne hu (by simp)
    refine ⟨hd.congr rfl (Function.update_of_ne hne _ _), ?_⟩
    refine .of_goes hu rfl rfl rfl trivial fun d' v hlock => ?_
    have hne' : d' ≠ d := by
      rintro rfl
      rw [hfree] at hlock
      cases hlock
    exact (Function.update_of_ne hne' _ _).trans hlock
  | perform u k₁ hu hfresh =>
    have hne := hd.ne hu (by simp)
    exact ⟨hd.congr rfl (Function.update_of_ne hne _ _),
      .of_goes hu rfl rfl rfl trivial fun _ _ hlock => hlock⟩
  | interpose u k₁ phase hu hphase =>
    have hne := hd.ne hu (by simp)
    obtain ⟨tree, htree⟩ := s.afterInterpose_eq k₁
    rw [htree]
    refine ⟨hd.congr rfl (Function.update_of_ne hne _ _), ?_⟩
    refine .of_goes hu rfl rfl rfl ?_ fun _ _ hlock => hlock
    rcases hphase with rfl | rfl <;> trivial
  | lock u k₁ hu hfree =>
    rw [hholder] at hfree
    cases hfree
  | work u e k₁ h' kernel sb stage hu hholder' hthread' hnext =>
    cases hholder.symm.trans hholder'
    subst hthread'
    subst hthread
    cases hdoing.symm.trans hu
    obtain ⟨hdoomed', humask, hlog⟩ := hdoomed.next he hnext
    refine ⟨⟨hdoing, _, rfl, rfl, hdoomed'⟩, ⟨humask, ?_, fun k' hk' => ?_, ?_, ?_⟩⟩
    · exact .of_stage hholder rfl hlog
    · exact (acts_afterWork s hholder k _ kernel sb stage).written k' hk'
    · exact fun _ _ phase hv hbefore => ⟨phase, hv, hbefore⟩
    · exact fun _ _ _ _ _ _ hlock => hlock
  | unlock u k₁ h' hu hholder' hleaving =>
    cases hholder.symm.trans hholder'
    rw [Holder.Doomed, hleaving] at hdoomed
    exact hdoomed.elim
  | unlockDir u d k₁ rest hu hheld =>
    have hne := hd.ne hu (by simp)
    refine ⟨hd.congr rfl (Function.update_of_ne hne _ _), ?_⟩
    refine .of_leaving hu rfl rfl rfl fun d' v hv hlock => ?_
    have hne' : d' ≠ d := by
      rintro rfl
      rw [hheld, Option.some_inj] at hlock
      exact hv hlock.symm
    exact (Function.update_of_ne hne' _ _).trans hlock
  | leave u k₁ hu =>
    have hne := hd.ne hu (by simp)
    obtain ⟨tree, htree⟩ := s.afterReturn_eq k₁
    rw [htree]
    exact ⟨hd.congr rfl (Function.update_of_ne hne _ _),
      .of_leaving hu rfl rfl rfl fun _ _ _ hlock => hlock⟩
  | lookup d p k₁ hmaker hmade hunknown =>
    exact ⟨hd.congr rfl rfl, ⟨rfl, .refl s.mnt, fun _ hk' => .inl hk', fun _ _ phase hv hbefore =>
      ⟨phase, hv, hbefore⟩, fun _ _ _ _ _ _ hlock => hlock⟩⟩
  | setBmap umask hfree =>
    rw [hholder] at hfree
    cases hfree
  | elsewhere kernel =>
    exact ⟨hd.congr rfl rfl, ⟨rfl, .refl s.mnt, fun _ hk' => .inl hk', fun _ _ phase hv hbefore =>
      ⟨phase, hv, hbefore⟩, fun _ _ _ _ _ _ hlock => hlock⟩⟩

end FsState

/-- **A run** from a doomed call on leaves it doomed, and everything else frozen. -/
theorem FsState.Doomed.run {s s' : FsState} {t : ℕ} {k : Task} (hd : FsState.Doomed t k s)
    {es : List FsEvent} (hes : RunAllowed FsState.step (fun _ e => e.Allocates) s es)
    (hrun : LabelledSystem.run FsState.step s es = some s') :
    FsState.Doomed t k s' ∧ FsState.Frozen k s s' := by
  have hstep (r : FsState) (e : FsEvent) (r' : FsState)
      (hr : FsState.Doomed t k r ∧ FsState.Frozen k s r) (he : e.Allocates)
      (hstep : r.step e = some r') : FsState.Doomed t k r' ∧ FsState.Frozen k s r' := by
    obtain ⟨hdoomed, hfrozen⟩ := hr.1.step he hstep
    exact ⟨hdoomed, hr.2.trans hfrozen⟩
  exact run_invariant hstep ⟨hd, .refl k s⟩ hes hrun

end Trfs
