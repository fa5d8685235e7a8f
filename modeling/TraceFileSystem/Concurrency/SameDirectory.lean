import TraceFileSystem.Concurrency.Order

/-!
# Calls that meet in a directory or in a file

* `FsState.Recorded` ties the ghost list of headers to the log: they are the headers of
  `Mount.headers`, in the order in which they were written.
* The operations on names hold the locks of their lower parents from before the lower operation
  until after the record.  So calls with a lower parent in common are recorded in the order in which
  their lower operations took effect (`records_sameDir`).
* `trfs_write` holds no lock from the lower write to the record.  Two writes of one file can be
  recorded the wrong way round (`not_records_sameFile`).  They are in order in every run in which no
  lower write is made while another write of the file is on its way to its record
  (`records_sameFile`).
-/

namespace Trfs

open LabelledSystem Journal

namespace FsState

/-! ### The log -/

/-- A new mount, with the directories there are. -/
def boot (kernel : Kernel) (trPage : List UInt8) (tree : DirTree) : FsState where
  kernel := kernel
  mnt := .fresh trPage
  dirLock _ := none
  doing _ := none
  tree := tree
  started := 0
  effects := []
  written := []
  records := []
  maker _ := none
  under _ := []

/-- The headers in the log are where `records` has them, and were written in this order. -/
structure Recorded (s : FsState) : Prop where
  placed : s.mnt.Placed
  positions : s.records.map Prod.fst = s.mnt.headers.map Prod.fst
  owners : (s.records.map Prod.snd).Sublist s.written

variable {s s' : FsState}

/-- The positions of headers before a bound. -/
theorem map_fst_filter {α : Type*} (l : List (ℕ × α)) (n : ℕ) :
    (l.filter fun p => p.1 + recIdSize ≤ n).map Prod.fst =
      (l.map Prod.fst).filter fun p => p + recIdSize ≤ n := by
  rw [List.filter_map]
  rfl

/-- A step inside `trfs_lock` does the same to the headers and to their owners. -/
theorem Recorded.map_fst_recordsAfter (hs : s.Recorded) (k : Task) (sb : SbInfo) (stage : Stage) :
    (s.recordsAfter k sb stage).map Prod.fst = (s.mnt.headersAfter sb stage).map Prod.fst := by
  unfold recordsAfter Mount.headersAfter
  rw [map_fst_filter, map_fst_filter]
  congr 1
  cases stage with
  | header r ret =>
    by_cases hlt : s.mnt.sb.log.fPos < sb.log.fPos
    · have hwrites : s.mnt.writesHeader sb (.header r ret) = true := decide_eq_true hlt
      dsimp only
      rw [if_pos hwrites, if_pos hlt, List.map_append, List.map_append, hs.positions]
      rfl
    · have hwrites : ¬s.mnt.writesHeader sb (.header r ret) = true := by
        simpa [Mount.writesHeader] using hlt
      dsimp only
      rw [if_neg hwrites, if_neg hlt, hs.positions]
  | _ => exact hs.positions

/-- The owners after a step inside `trfs_lock`. -/
theorem Recorded.map_snd_recordsAfter (hs : s.Recorded) (k : Task) (h : Holder) (e : TailStep)
    (kernel : Kernel) (sb : SbInfo) (stage : Stage) :
    ((s.recordsAfter k sb stage).map Prod.snd).Sublist
      (s.afterWork k h e kernel sb stage).written := by
  unfold recordsAfter afterWork
  refine (List.filter_sublist.map Prod.snd).trans ?_
  dsimp only
  split
  · rw [List.map_append]
    exact hs.owners.append (List.Sublist.refl _)
  · exact hs.owners

/-- **One step** keeps the headers tied to the log. -/
theorem Recorded.step (hs : s.Recorded) {e : FsEvent} (hstep : s.step e = some s') :
    s'.Recorded := by
  obtain ⟨hplaced, hpositions, howners⟩ := hs
  cases steps_of_step hstep with
  | lock t k hdoing hfree =>
    exact ⟨hplaced.of_eq rfl rfl (Mount.unfilled_of_holder rfl (by simp)), hpositions, howners⟩
  | work t e k h kernel sb stage hdoing hholder hthread hnext =>
    have hs : s.Recorded := ⟨hplaced, hpositions, howners⟩
    exact ⟨(hplaced.work hholder hnext).1, hs.map_fst_recordsAfter k sb stage,
      hs.map_snd_recordsAfter k h e kernel sb stage⟩
  | unlock t k h hdoing hholder hleaving =>
    exact ⟨hplaced.of_eq rfl rfl (Mount.unfilled_of_free rfl), hpositions, howners⟩
  | setBmap umask hfree =>
    exact ⟨hplaced.of_eq rfl rfl (Mount.unfilled_of_free hfree), hpositions, howners⟩
  | interpose t k phase hdoing hphase =>
    obtain ⟨tree, htree⟩ := s.afterInterpose_eq k
    rw [htree]
    exact ⟨hplaced, hpositions, howners⟩
  | leave t k hdoing =>
    obtain ⟨tree, htree⟩ := s.afterReturn_eq k
    rw [htree]
    exact ⟨hplaced, hpositions, howners⟩
  | _ => exact ⟨hplaced, hpositions, howners⟩

/-- A new mount has no headers. -/
theorem recorded_boot (kernel : Kernel) (trPage : List UInt8) (tree : DirTree) :
    (boot kernel trPage tree).Recorded where
  placed := Mount.placed_fresh trPage
  positions := rfl
  owners := List.Sublist.refl _

/-- Nobody does anything on a new mount. -/
theorem inv_boot (kernel : Kernel) (trPage : List UInt8) (tree : DirTree) :
    (boot kernel trPage tree).Inv where
  calls _ _ _ h := by cases h
  thread_eq _ _ _ _ _ h := by cases h
  effects_lt _ h := absurd h List.not_mem_nil
  written_lt _ h := absurd h List.not_mem_nil

/-- The headers in the log stand one behind the other. -/
theorem Recorded.pairwise_lt (hs : s.Recorded) : (s.records.map Prod.fst).Pairwise (· < ·) := by
  rw [hs.positions, List.pairwise_map]
  refine hs.placed.apart.imp fun h => ?_
  rw [recIdSize] at h
  omega

/-- Of two headers in the log the one that was written first comes first. -/
theorem Recorded.lt_of_before (hs : s.Recorded) (hwritten : s.written.Nodup) {a b : Task}
    (h : Before s.written a b) {p q : ℕ} (hp : (p, a) ∈ s.records) (hq : (q, b) ∈ s.records) :
    p < q := by
  refine (Before.map_iff hs.pairwise_lt (hwritten.sublist hs.owners) hp hq).mp ?_
  refine (Before.total (List.mem_map_of_mem hp) (List.mem_map_of_mem hq)
    (h.ne hwritten)).resolve_right fun hrev => ?_
  exact h.asymm hwritten (hrev.mono hs.owners)

/-- The records of two calls stand in the log in the order in which their lower operations took
effect. -/
def InOrder (s : FsState) (a b : Task) : Prop :=
  a ∈ s.effects → b ∈ s.effects → ∀ p q, (p, a) ∈ s.records → (q, b) ∈ s.records →
    (Before s.effects a b ↔ p < q)

/-- Conflicting calls are in order in the log. -/
theorem Recorded.inOrder {Conflict : Task → Task → Prop} (hs : s.Recorded)
    (hord : Ordered Conflict s.effects s.written s.Pending)
    (hsymm : ∀ a b, Conflict a b → Conflict b a) {a b : Task} (hconflict : Conflict a b) :
    s.InOrder a b := by
  intro ha hb p q hp hq
  have hord' : Ordered Conflict s.effects (s.records.map Prod.snd) s.Pending :=
    hord.mono hs.owners fun _ h => h
  rw [hord'.before_iff hsymm hconflict ha hb (List.mem_map_of_mem hp) (List.mem_map_of_mem hq)]
  exact Before.map_iff hs.pairwise_lt hord'.nodup_records hp hq

end FsState

/-- A lower operation is performed only while no conflicting call is pending. -/
def FsEvent.Clear (Conflict : Task → Task → Prop) (s : FsState) (e : FsEvent) : Prop :=
  ∀ t k, e = .perform t → s.doing t = some ⟨k, .locking []⟩ → ∀ k', Conflict k' k → ¬s.Pending k'

section

variable {kernel : Kernel} {trPage : List UInt8} {tree : DirTree} {es : List FsEvent} {s : FsState}
  {a b : Task}

/-- **Runs keep the order**: conflicting calls are in order in the log at the end of every run in
which every lower operation is performed while no conflicting call is pending. -/
theorem inOrder_of_run {Conflict : Task → Task → Prop}
    (hrun : run FsState.step (.boot kernel trPage tree) es = some s)
    (hes : RunAllowed FsState.step (fun s e => s.Inv → e.Clear Conflict s)
      (.boot kernel trPage tree) es)
    (hsymm : ∀ a b, Conflict a b → Conflict b a) (hconflict : Conflict a b) :
    s.InOrder a b ∧ s.records.map Prod.fst = s.mnt.headers.map Prod.fst ∧ s.mnt.Placed := by
  have hstep (s : FsState) (e : FsEvent) (s' : FsState)
      (hinv : (s.Inv ∧ s.Recorded) ∧ Ordered Conflict s.effects s.written s.Pending)
      (he : s.Inv → e.Clear Conflict s) (hstep : s.step e = some s') :
      (s'.Inv ∧ s'.Recorded) ∧ Ordered Conflict s'.effects s'.written s'.Pending := by
    obtain ⟨⟨hinv, hrec⟩, hord⟩ := hinv
    exact ⟨⟨hinv.step hstep, hrec.step hstep⟩, hinv.ordered_step hord (he hinv) hstep⟩
  have hboot : ((FsState.boot kernel trPage tree).Inv ∧
    (FsState.boot kernel trPage tree).Recorded) ∧
      Ordered Conflict [] [] (FsState.boot kernel trPage tree).Pending :=
    ⟨⟨FsState.inv_boot _ _ _, FsState.recorded_boot _ _ _⟩, Ordered.nil _ _⟩
  obtain ⟨⟨-, hrec⟩, hord⟩ := run_invariant hstep hboot hes hrun
  exact ⟨hrec.inOrder hord hsymm hconflict, hrec.positions, hrec.placed⟩

/-! ### Calls with a lower parent in common -/

/-- Two calls have a lower parent in common. -/
def Task.SharesDir (a b : Task) : Prop :=
  ∃ d ∈ a.lowerDirs, d ∈ b.lowerDirs

/-- A call that is about to perform its lower operation holds the locks of its lower parents, so no
call with one of these parents is pending. -/
theorem FsState.Inv.clear_sharesDir (hs : s.Inv) (e : FsEvent) : e.Clear Task.SharesDir s := by
  rintro t k - hdoing k' ⟨d, hd', hd⟩ ⟨t', phase, hdoing', hpending⟩
  have hlock := (hs.calls t k _ hdoing).locks d hd List.not_mem_nil
  have hlock' := (hs.calls t' k' phase hdoing').locks d hd' (Phase.holds_of_pending hpending d)
  rw [hlock, Option.some_inj] at hlock'
  rw [← hlock', hdoing] at hdoing'
  cases hdoing'
  cases hpending

/-- **Same-directory order.**  In every run, whatever the threads do and in which order, the records
of two calls with a lower parent in common stand in the log in the order in which their lower
operations took effect. -/
theorem records_sameDir (hrun : run FsState.step (.boot kernel trPage tree) es = some s)
    (hdir : a.SharesDir b) :
    s.InOrder a b ∧ s.records.map Prod.fst = s.mnt.headers.map Prod.fst ∧ s.mnt.Placed := by
  refine inOrder_of_run hrun ?_ ?_ hdir
  · exact runAllowed_of_forall (fun e _ s hs => hs.clear_sharesDir e) _
  · rintro a b ⟨d, ha, hb⟩
    exact ⟨d, hb, ha⟩

/-- A call up to its lower operation. -/
def beginCall (t : ℕ) (op : TracedOp) (home object : ℕ) : List FsEvent :=
  .enter t op home object :: op.plan.lowerDirs.map (.lockDir t) ++ [.perform t]

/-- A call from its interposition to its return, when it is traced and nothing fails. -/
def finishCall (t : ℕ) (op : TracedOp) : List FsEvent :=
  [.interpose t, .lock t, .work t .mask, .work t (.fill ⟨some 0, some 1⟩),
      .work t (.writeHeader .complete), .work t (.writeAux .complete), .unlock t] ++
    op.plan.lowerDirs.map (.unlockDir t) ++ [.leave t]

/-- The effects and the records after a list of events on a new mount with an empty root. -/
def effectsRecords (es : List FsEvent) : Option (List Task × List (ℕ × Task)) :=
  (run FsState.step (.boot ⟨-1, [], []⟩ [] .root) es).map fun s => (s.effects, s.records)

/-- Reading off the state. -/
theorem exists_of_effectsRecords {effects : List Task} {records : List (ℕ × Task)}
    (h : effectsRecords es = some (effects, records)) :
    ∃ s, run FsState.step (.boot ⟨-1, [], []⟩ [] .root) es = some s ∧ s.effects = effects ∧
      s.records = records := by
  obtain ⟨s, hrun, heq⟩ := Option.map_eq_some_iff.mp h
  cases heq
  exact ⟨s, hrun, rfl, rfl⟩

/-- The dentry of `/g`. -/
def dentryG : Dentry where
  path := ⟨[47, 103], by decide⟩
  path_ne := by decide

/-- A call that makes `/l`. -/
def makeL : Task := ⟨0, mkdirL, 0, 7⟩

/-- A call that creates `/g`. -/
def createG : Task := ⟨1, .create ⟨0⟩ 0 dentryG 0 0 0, 0, 8⟩

/-- `/g` is to be created while `/l` is being made. -/
def rootEvents : List FsEvent :=
  beginCall 0 makeL.op 0 7 ++ .enter 1 createG.op 0 8 :: finishCall 0 makeL.op ++
    [.lockDir 1 0, .perform 1] ++ finishCall 1 createG.op

/-- The two calls meet in the root and are recorded in order. -/
theorem records_sameDir_root :
    ∃ s, run FsState.step (.boot ⟨-1, [], []⟩ [] .root) rootEvents = some s ∧
      s.effects = [makeL, createG] ∧ s.records = [(0, makeL), (34, createG)] ∧
      s.InOrder makeL createG := by
  have h : effectsRecords rootEvents = some ([makeL, createG], [(0, makeL), (34, createG)]) := by
    decide +kernel
  obtain ⟨s, hrun, heffects, hrecords⟩ := exists_of_effectsRecords h
  exact ⟨s, hrun, heffects, hrecords, (records_sameDir hrun ⟨0, by decide, by decide⟩).1⟩

/-! ### Writes of one file -/

/-- Two calls of `trfs_write` on open files of one lower inode. -/
def Task.SameFile (a b : Task) : Prop :=
  a.tail.type = .fwrite ∧ b.tail.type = .fwrite ∧ a.object = b.object

/-- **Write order.**  In every run in which a lower write is made only while no other write of the
file is between its lower write and its record, the records of the writes of a file stand in the log
in the order in which the lower writes took effect. -/
theorem records_sameFile (hrun : run FsState.step (.boot kernel trPage tree) es = some s)
    (hes : RunAllowed FsState.step (fun s e => e.Clear Task.SameFile s)
      (.boot kernel trPage tree) es) (hfile : a.SameFile b) :
    s.InOrder a b ∧ s.records.map Prod.fst = s.mnt.headers.map Prod.fst ∧ s.mnt.Placed := by
  refine inOrder_of_run hrun (hes.mono fun s e he _ => he) ?_ hfile
  rintro a b ⟨ha, hb, hobject⟩
  exact ⟨hb, ha, hobject.symm⟩

instance (a b : Task) : Decidable (a.SameFile b) := inferInstanceAs (Decidable (_ ∧ _ ∧ _))

/-- All calls are made by these threads. -/
def FsEvent.OnlyBy (ts : List ℕ) : FsEvent → Prop
  | .enter t _ _ _ => t ∈ ts
  | _ => True

/-- The other threads do nothing. -/
def FsState.IdleBut (ts : List ℕ) (s : FsState) : Prop :=
  ∀ t a, s.doing t = some a → t ∈ ts

/-- **One step** leaves the other threads idle. -/
theorem FsState.IdleBut.step {ts : List ℕ} {s s' : FsState} (hs : s.IdleBut ts) {e : FsEvent}
    (he : e.OnlyBy ts) (hstep : s.step e = some s') : s'.IdleBut ts := by
  have hset {t : ℕ} (ht : t ∈ ts) (b : Option Activity) (t' : ℕ) (a : Activity)
      (h : Function.update s.doing t b t' = some a) : t' ∈ ts := by
    by_cases hne : t' = t
    · rwa [hne]
    · rw [Function.update_of_ne hne] at h
      exact hs t' a h
  cases steps_of_step hstep with
  | enter t' op home object k hk hidle hnames => exact hset he _
  | lockDir t' d k rest hdoing hd hfree => exact hset (hs t' _ hdoing) _
  | perform t' k hdoing hfresh => exact hset (hs t' _ hdoing) _
  | interpose t' k phase hdoing hphase =>
    obtain ⟨tree, htree⟩ := s.afterInterpose_eq k
    rw [htree]
    exact hset (hs t' _ hdoing) _
  | lock t' k hdoing hfree => exact hset (hs t' _ hdoing) _
  | work t' e k h kernel sb stage hdoing hholder hthread hnext => exact hs
  | unlock t' k h hdoing hholder hleaving => exact hset (hs t' _ hdoing) _
  | unlockDir t' d k rest hdoing hheld => exact hset (hs t' _ hdoing) _
  | leave t' k hdoing =>
    obtain ⟨tree, htree⟩ := s.afterReturn_eq k
    rw [htree]
    exact hset (hs t' _ hdoing) _
  | lookup d p k hmaker hmade hunknown => exact hs
  | setBmap umask hfree => exact hs
  | elsewhere k => exact hs

/-- A lower operation is performed while none of these threads has a conflicting call pending. -/
def FsEvent.ClearAmong (ts : List ℕ) (Conflict : Task → Task → Prop) (s : FsState) :
    FsEvent → Prop
  | .perform t => ∀ a ∈ s.doing t, ∀ u ∈ ts, ∀ b ∈ s.doing u,
      b.phase.pending s.mnt.holder = true → ¬Conflict b.task a.task
  | _ => True

instance (ts : List ℕ) (Conflict : Task → Task → Prop) [DecidableRel Conflict] (s : FsState) :
    (e : FsEvent) → Decidable (e.ClearAmong ts Conflict s)
  | .perform t => inferInstanceAs (Decidable (∀ a ∈ s.doing t, ∀ u ∈ ts, ∀ b ∈ s.doing u,
      b.phase.pending s.mnt.holder = true → ¬Conflict b.task a.task))
  | .enter _ _ _ _ | .lockDir _ _ | .interpose _ | .lock _ | .work _ _ | .unlock _ | .unlockDir _ _
  | .leave _ | .lookup _ | .setBmap _ | .elsewhere _ => .isTrue trivial

/-- It is enough to look at the threads that make calls. -/
theorem runAllowed_clear {ts : List ℕ} (hts : ∀ e ∈ es, e.OnlyBy ts) {Conflict : Task → Task → Prop}
    (hes : RunAllowed FsState.step (fun s e => e.ClearAmong ts Conflict s)
      (.boot kernel trPage tree) es) :
    RunAllowed FsState.step (fun s e => e.Clear Conflict s) (.boot kernel trPage tree) es := by
  have hidle : RunAllowed FsState.step (fun s _ => s.IdleBut ts) (.boot kernel trPage tree) es :=
    runAllowed_of_invariant (fun s e s' hs he hstep => FsState.IdleBut.step hs he hstep)
      (fun s e hs _ => hs) (fun t a h => by cases h) hts
  refine (hidle.and hes).mono ?_
  rintro s e ⟨hidle, hclear⟩ t k rfl hdoing k' hconflict ⟨u, phase, hdoing', hpending⟩
  exact hclear _ hdoing u (hidle u _ hdoing') _ hdoing' hpending hconflict

/-- A call that writes a byte to `/g`. -/
def writeF (num : ℕ) (byte : UInt8) : Task :=
  ⟨num, .write ⟨dentryG, ⟨0⟩⟩ 1 (.user [byte]) 1 1, 0, 8⟩

/-- Two threads write.  The second one begins while the first one is on its way to its record, and
makes its lower write afterwards. -/
def writeInTurn : List FsEvent :=
  beginCall 0 (writeF 0 97).op 0 8 ++ .enter 1 (writeF 1 98).op 0 8 ::
    finishCall 0 (writeF 0 97).op ++ .perform 1 :: finishCall 1 (writeF 1 98).op

/-- The two writes are recorded in order. -/
theorem records_sameFile_inTurn :
    ∃ s, run FsState.step (.boot ⟨-1, [], []⟩ [] .root) writeInTurn = some s ∧
      s.effects = [writeF 0 97, writeF 1 98] ∧
      s.records = [(0, writeF 0 97), (35, writeF 1 98)] ∧
      s.InOrder (writeF 0 97) (writeF 1 98) := by
  have h : effectsRecords writeInTurn = some ([writeF 0 97, writeF 1 98],
      [(0, writeF 0 97), (35, writeF 1 98)]) := by
    decide +kernel
  have hts : ∀ e ∈ writeInTurn, e.OnlyBy [0, 1] := by
    simp [writeInTurn, beginCall, finishCall, FsEvent.OnlyBy, writeF, TracedOp.plan, trfsWrite]
  have hes : RunAllowed FsState.step (fun s e => e.ClearAmong [0, 1] Task.SameFile s)
      (.boot ⟨-1, [], []⟩ [] .root) writeInTurn := by
    decide +kernel
  have hfile : (writeF 0 97).SameFile (writeF 1 98) := ⟨rfl, rfl, rfl⟩
  obtain ⟨s, hrun, heffects, hrecords⟩ := exists_of_effectsRecords h
  exact ⟨s, hrun, heffects, hrecords, (records_sameFile hrun (runAllowed_clear hts hes) hfile).1⟩

/-- Two threads write through different open files: the second write is made and recorded while the
first one is on its way to its record. -/
def overtakeEvents : List FsEvent :=
  beginCall 0 (writeF 0 97).op 0 8 ++ beginCall 1 (writeF 1 98).op 0 8 ++
    finishCall 1 (writeF 1 98).op ++ finishCall 0 (writeF 0 97).op

/-- The record of the second write comes first. -/
theorem not_records_sameFile :
    ∃ s, run FsState.step (.boot ⟨-1, [], []⟩ [] .root) overtakeEvents = some s ∧
      (writeF 0 97).SameFile (writeF 1 98) ∧ ¬s.InOrder (writeF 0 97) (writeF 1 98) := by
  have h : effectsRecords overtakeEvents = some ([writeF 0 97, writeF 1 98],
      [(0, writeF 1 98), (35, writeF 0 97)]) := by
    decide +kernel
  obtain ⟨s, hrun, heffects, hrecords⟩ := exists_of_effectsRecords h
  refine ⟨s, hrun, ⟨rfl, rfl, rfl⟩, fun horder => ?_⟩
  have hiff := horder (by simp [heffects]) (by simp [heffects]) 35 0 (by simp [hrecords])
    (by simp [hrecords])
  rw [heffects] at hiff
  exact absurd (hiff.mp (List.Sublist.refl _)) (by decide)

end

end Trfs
