import TraceFileSystem.System.Consistency
import TraceFileSystem.Treplay.Chunks

/-!
# Replaying a live log

The log disappears when the file system is unmounted, so `treplay` reads it while threads may still
append to it.  `treplay` takes the size of the log first, allocates a buffer for at most that many
bytes, and later reads up to a whole chunk into it.

* `Reader` is what the reading part of `main` of `hw2/treplay.c` knows, `LiveState` the system
  together with a reader of one of its logs, and `LiveState.step` one step of either.
* `Reader.Ok` is the invariant: for a log of less than a chunk the only read gets the log as it was
  at the `stat`.
* `live_safe_of_run`: reads fit into the buffer and end with a whole record in every run in which
  nothing is written to a log of less than a chunk between the `stat` and the last read, and no
  record is half written at the `stat`.
* `not_live_safe_append`: a record that is appended after the `stat` is read over the end of the
  buffer.
-/

namespace Trfs

open LabelledSystem

/-! ### The reader -/

/-- The reading part of `main`, once it has called `stat`. -/
structure Reader where
  /-- The size of the log, as an `int`. -/
  fsize : ℤ
  /-- The number of bytes read so far. -/
  size : ℤ
  /-- The offset of the descriptor. -/
  offset : ℕ
  /-- What the calls of `read` have returned, in order. -/
  chunks : List (List UInt8)
  deriving DecidableEq

namespace Reader

/-- `stat`. -/
def stat (log : List UInt8) : Reader where
  fsize := statSize log
  size := 0
  offset := 0
  chunks := []

/-- `MIN(fsize, 4*BUFFER_SIZE)`, the number of bytes allocated. -/
def alloc (r : Reader) : ℤ :=
  if r.fsize > chunkSize then chunkSize else r.fsize

/-- The outer loop goes on. -/
def Reading (r : Reader) : Prop :=
  r.size < r.fsize

instance (r : Reader) : Decidable r.Reading :=
  inferInstanceAs (Decidable (_ < _))

/-- `read(fd, buf, 4 * BUFFER_SIZE)` and `size += bytes_read`. -/
def read (r : Reader) (log : List UInt8) : Reader :=
  let chunk := (log.drop r.offset).take chunkSize
  { r with
    size := r.size + chunk.length
    offset := r.offset + chunk.length
    chunks := r.chunks ++ [chunk] }

end Reader

/-! ### The system with a reader -/

/-- The system, and a reader of the log of one of its mounts. -/
structure LiveState where
  sys : SysState
  reader : Option Reader

/-- What can happen. -/
inductive LiveEvent where
  /-- Something happens in the system. -/
  | sys (e : Event)
  /-- The replay tool takes the size of the log and allocates its buffer. -/
  | stat
  /-- The replay tool reads. -/
  | read
  deriving DecidableEq

/-- A write of `append_record`. -/
def TailStep.writes : TailStep → Bool
  | .writeHeader _ => true
  | .writeAux _ => true
  | _ => false

/-- The bytes of a list of records. -/
def WholeRecords (bytes : List UInt8) : Prop :=
  ∃ rs : List LogRecord, (∀ r ∈ rs, r.WellFormed) ∧ bytes = frames rs

namespace LiveState

variable (n : ℕ)

/-- One step, with a reader of the log of mount `n`.  The mount stays while there is a reader. -/
def step (s : LiveState) : LiveEvent → Option LiveState
  | .sys e =>
    if e = .umount n ∧ s.reader.isSome then none
    else (s.sys.step e).map fun sys => { s with sys := sys }
  | .stat =>
    match s.sys.mounts n, s.reader with
    | some m, none => some { s with reader := some (.stat m.sb.log.data) }
    | _, _ => none
  | .read =>
    match s.sys.mounts n, s.reader with
    | some m, some r =>
      if r.Reading then some { s with reader := some (r.read m.sb.log.data) } else none
    | _, _ => none

/-- The system before the first mount, without a reader. -/
def boot (k : Kernel) : LiveState where
  sys := .boot k
  reader := none

/-- Every read has returned at most as many bytes as were allocated. -/
def ReadsFit (s : LiveState) : Prop :=
  ∀ r, s.reader = some r → ∀ c ∈ r.chunks, (c.length : ℤ) ≤ r.alloc

/-- If the log is smaller than a chunk, the bytes that were read end with a whole record. -/
def EndsWhole (s : LiveState) : Prop :=
  ∀ r m, s.reader = some r → s.sys.mounts n = some m → m.sb.log.data.length < chunkSize →
    WholeRecords r.chunks.flatten

end LiveState

/-- The log of mount `n` is left alone while it is being read, unless it had a whole chunk from the
start; its size is taken while no record is half written, and fits an `int`. -/
def LiveEvent.Apart (n : ℕ) (s : LiveState) : LiveEvent → Prop
  | .sys (.work t e) => e.writes = true → s.sys.threads t = .inside n →
      ∀ r ∈ s.reader, r.Reading → (chunkSize : ℤ) ≤ r.fsize
  | .sys _ => True
  | .stat => ∀ m ∈ s.sys.mounts n, (m.sb.log.data.length : ℤ) ≤ intMax ∧ m.AtRest
  | .read => True

/-- The holder of a lock is between its two writes. -/
def Stage.halfWritten : Stage → Bool
  | .header _ _ => true
  | _ => false

instance (m : Mount) : Decidable m.AtRest :=
  decidable_of_iff (∀ h ∈ m.holder, h.stage.halfWritten = false) <| by
    constructor
    · intro hrest h r ret hh hstage
      have hhalf := hrest h hh
      rw [hstage] at hhalf
      cases hhalf
    · intro hrest h hh
      cases hstage : h.stage with
      | header r ret => exact absurd hstage (hrest h r ret hh)
      | _ => rfl

instance (n : ℕ) (s : LiveState) : (e : LiveEvent) → Decidable (e.Apart n s)
  | .sys (.work t e) =>
    inferInstanceAs (Decidable (e.writes = true → s.sys.threads t = .inside n →
      ∀ r ∈ s.reader, r.Reading → (chunkSize : ℤ) ≤ r.fsize))
  | .stat => inferInstanceAs (Decidable
      (∀ m ∈ s.sys.mounts n, (m.sb.log.data.length : ℤ) ≤ intMax ∧ m.AtRest))
  | .sys (.arrive _ _) | .sys (.lock _) | .sys (.unlock _) | .sys (.setBmap _ _)
  | .sys .mountBegins | .sys .mountFails | .sys (.mount _ _) | .sys (.umount _) | .read =>
    .isTrue trivial

/-! ### The log between the steps of the reader -/

/-- A write of `append_record` does not shorten the log. -/
theorem LogFile.length_le_writeAdvance (log : LogFile) (o : WriteOutcome) (src : List UInt8)
    (count : ℤ) : log.data.length ≤ (log.writeAdvance o src count).1.data.length := by
  have hwrite : log.data.length ≤ (log.kernelWrite o src count).1.data.length := by
    unfold kernelWrite
    split
    · exact le_rfl
    · cases o with
      | complete => exact ByteStore.length_le_length_pwrite _ _ _
      | short n => exact ByteStore.length_le_length_pwrite _ _ _
      | errno e => exact le_rfl
  unfold writeAdvance
  dsimp only
  split
  · exact hwrite
  · exact hwrite

/-- A step inside the lock leaves the log alone unless it writes, and never shortens it. -/
theorem Stage.log_of_next {k k' : Kernel} {sb sb' : SbInfo} {tail : Tail} {stage stage' : Stage}
    {e : TailStep} (h : stage.next k sb tail e = some (k', sb', stage')) :
    (e.writes = false → sb'.log = sb.log) ∧ sb.log.data.length ≤ sb'.log.data.length := by
  cases stage with
  | locked =>
    cases e with
    | mask =>
      cases h
      exact ⟨fun _ => rfl, le_rfl⟩
    | _ => cases h
  | masked a =>
    cases e with
    | fill pages =>
      rw [next] at h
      split at h <;> cases h <;> exact ⟨fun _ => rfl, le_rfl⟩
    | _ => cases h
  | filled r =>
    cases e with
    | writeHeader o =>
      refine ⟨fun he => (by cases he), ?_⟩
      rw [next] at h
      split at h
      · cases h
        exact le_rfl
      · next happend =>
        cases h
        obtain ⟨page, hlog⟩ := log_of_appendHeader happend
        rw [hlog]
        exact LogFile.length_le_writeAdvance _ _ _ _
    | _ => cases h
  | header r ret =>
    cases e with
    | writeAux o =>
      refine ⟨fun he => (by cases he), ?_⟩
      rw [next] at h
      split at h
      · cases h
        exact le_rfl
      · next happend =>
        cases h
        unfold appendAux at happend
        split at happend
        · split at happend
          · cases happend
          · cases happend
            exact le_rfl
        · cases happend
          exact LogFile.length_le_writeAdvance _ _ _ _
    | _ => cases h
  | leaving => cases e <;> cases h
  | dead => cases e <;> cases h

/-- What a step of the system does to a log: nothing, unless it is a write of `append_record`. -/
theorem SysState.log_of_step {s s' : SysState} {n : ℕ} {m : Mount} {e : Event}
    (hm : s.mounts n = some m) (hstep : s.step e = some s') (hne : e ≠ .umount n) :
    ∃ m', s'.mounts n = some m' ∧ m.sb.log.data.length ≤ m'.sb.log.data.length ∧
      (m'.sb.log = m.sb.log ∨
        ∃ t e', e = .work t e' ∧ e'.writes = true ∧ s.threads t = .inside n) := by
  -- a mount other than the one that changes, or a change that leaves the log alone
  have hset {n' : ℕ} {m₁ m₂ : Mount} (h₁ : s.mounts n' = some m₁) (hlog : m₂.sb.log = m₁.sb.log) :
      ∃ m', Function.update s.mounts n' (some m₂) n = some m' ∧ m'.sb.log = m.sb.log := by
    by_cases hn : n = n'
    · rw [← hn, hm, Option.some_inj] at h₁
      exact ⟨m₂, by rw [hn, Function.update_self], by rw [hlog, h₁]⟩
    · exact ⟨m, by rw [Function.update_of_ne hn, hm], rfl⟩
  have hquiet (h : ∃ m', s'.mounts n = some m' ∧ m'.sb.log = m.sb.log) :
      ∃ m', s'.mounts n = some m' ∧ m.sb.log.data.length ≤ m'.sb.log.data.length ∧
        (m'.sb.log = m.sb.log ∨
          ∃ t e', e = .work t e' ∧ e'.writes = true ∧ s.threads t = .inside n) := by
    obtain ⟨m', hm', hlog⟩ := h
    exact ⟨m', hm', by rw [hlog], .inl hlog⟩
  cases steps_of_step hstep with
  | arrive t op hidle => exact hquiet ⟨m, hm, rfl⟩
  | lock t n' tail m₁ hwaiting hmount hfree => exact hquiet (hset hmount rfl)
  | work t n' m₁ h e k sb stage hholding hnext =>
    obtain ⟨hthread, hmount, -⟩ := holding_eq_some hholding
    obtain ⟨hlog, hlen⟩ := Stage.log_of_next hnext
    by_cases hn : n = n'
    · subst hn
      obtain rfl := Option.some_inj.mp (hm.symm.trans hmount)
      refine ⟨_, mounts_setMount_self _ _ _, hlen, ?_⟩
      cases hwrites : e.writes with
      | true => exact .inr ⟨t, e, rfl, hwrites, hthread⟩
      | false => exact .inl (hlog hwrites)
    · exact hquiet ⟨m, (mounts_setMount_of_ne _ _ hn).trans hm, rfl⟩
  | unlock t n' m₁ h hmount hholder hleaving => exact hquiet (hset hmount rfl)
  | setBmap n' umask m₁ hmount hfree => exact hquiet (hset hmount rfl)
  | mountBegins => exact hquiet ⟨m, hm, rfl⟩
  | mountFails hattempt => exact hquiet ⟨m, hm, rfl⟩
  | mount n' trPage hattempt hnew =>
    have hn : n ≠ n' := by
      rintro rfl
      rw [hnew] at hm
      cases hm
    exact hquiet ⟨m, (mounts_setMount_of_ne _ _ hn).trans hm, rfl⟩
  | umount n' m₁ hmount hfree =>
    have hn : n ≠ n' := by
      rintro rfl
      exact hne rfl
    exact hquiet ⟨m, (mounts_setMount_of_ne _ _ hn).trans hm, rfl⟩

/-! ### The invariant -/

/-- A reader of a log that is left alone.  `P` is what is true of the log at the `stat`. -/
inductive Reader.Ok (P : List UInt8 → Prop) (r : Reader) (log : List UInt8) : Prop
  /-- The buffer is a whole chunk. -/
  | chunk (hfsize : (chunkSize : ℤ) ≤ r.fsize) (hlog : chunkSize ≤ log.length)
      (hchunks : ∀ c ∈ r.chunks, c.length ≤ chunkSize)
  /-- Nothing was read yet, and the log is what it was. -/
  | before (hsmall : log.length < chunkSize) (hfsize : r.fsize = log.length) (hsize : r.size = 0)
      (hoffset : r.offset = 0) (hchunks : r.chunks = []) (hlog : P log)
  /-- Everything was read. -/
  | after (c : List UInt8) (hsmall : c.length < chunkSize) (hfsize : r.fsize = c.length)
      (hsize : r.size = c.length) (hchunks : r.chunks = [c] ∨ r.chunks = [] ∧ c = []) (hlog : P c)

namespace Reader.Ok

variable {P : List UInt8 → Prop} {r : Reader} {log log' : List UInt8}

/-- The reads fit. -/
theorem length_le_alloc (h : r.Ok P log) : ∀ c ∈ r.chunks, (c.length : ℤ) ≤ r.alloc := by
  intro c hc
  unfold alloc
  cases h with
  | chunk hfsize hlog hchunks =>
    have hle := hchunks c hc
    split <;> omega
  | before hsmall hfsize hsize hoffset hchunks hlog =>
    rw [hchunks] at hc
    cases hc
  | after c' hsmall hfsize hsize hchunks hlog =>
    rw [if_neg (by omega)]
    rcases hchunks with hchunks | ⟨hchunks, -⟩
    · rw [hchunks, List.mem_singleton] at hc
      rw [hc, hfsize]
    · rw [hchunks] at hc
      cases hc

/-- What was read of a log of less than a chunk is the log at the `stat`, or nothing. -/
theorem flatten_chunks (h : r.Ok P log) (hsmall : log.length < chunkSize) :
    P r.chunks.flatten ∨ r.chunks.flatten = [] := by
  cases h with
  | chunk hfsize hlog hchunks => exact absurd hlog (not_le.mpr hsmall)
  | before _ hfsize hsize hoffset hchunks hlog =>
    rw [hchunks]
    exact .inr rfl
  | after c _ hfsize hsize hchunks hlog =>
    rcases hchunks with hchunks | ⟨hchunks, -⟩
    · rw [hchunks, List.flatten_singleton]
      exact .inl hlog
    · rw [hchunks]
      exact .inr rfl

/-- A reader that has taken the size of the log. -/
theorem stat (hint : (log.length : ℤ) ≤ intMax) (hlog : P log) : (Reader.stat log).Ok P log := by
  have hfsize : (Reader.stat log).fsize = log.length := statSize_eq hint
  by_cases hsmall : log.length < chunkSize
  · exact .before hsmall hfsize rfl rfl rfl hlog
  · refine .chunk (by omega) (by omega) fun c hc => ?_
    cases hc

/-- **One read.** -/
theorem read (h : r.Ok P log) (hreading : r.Reading) : (r.read log).Ok P log := by
  unfold Reading at hreading
  cases h with
  | chunk hfsize hlog hchunks =>
    refine .chunk hfsize hlog fun c hc => ?_
    rcases List.mem_append.mp hc with hc | hc
    · exact hchunks c hc
    · rw [List.mem_singleton] at hc
      rw [hc]
      exact List.length_take_le _ _
  | before hsmall hfsize hsize hoffset hchunks hlog =>
    have hchunk : (log.drop r.offset).take chunkSize = log := by
      rw [hoffset, List.drop_zero, List.take_of_length_le hsmall.le]
    refine .after log hsmall hfsize ?_ (.inl ?_) hlog
    · simp only [Reader.read, hchunk, hsize, zero_add]
    · simp only [Reader.read, hchunk, hchunks, List.nil_append]
  | after c hsmall hfsize hsize hchunks hlog => omega

/-- The log grows: it had a whole chunk, or nothing remains to be read. -/
theorem grow (h : r.Ok P log) (hlen : log.length ≤ log'.length)
    (hreading : r.Reading → (chunkSize : ℤ) ≤ r.fsize) : r.Ok P log' := by
  unfold Reading at hreading
  cases h with
  | chunk hfsize hlog hchunks => exact .chunk hfsize (hlog.trans hlen) hchunks
  | before hsmall hfsize hsize hoffset hchunks hlog =>
    have hzero : log.length = 0 := by
      by_contra hpos
      have := hreading (by omega)
      omega
    obtain rfl := List.length_eq_zero_iff.mp hzero
    exact .after [] hsmall hfsize hsize (.inr ⟨hchunks, rfl⟩) hlog
  | after c hsmall hfsize hsize hchunks hlog => exact .after c hsmall hfsize hsize hchunks hlog

end Reader.Ok

namespace LiveState

variable {n : ℕ} {s s' : LiveState} {P : List UInt8 → Prop}

/-- If there is a reader, then there is a log and the reader is in order. -/
def ReaderOk (n : ℕ) (P : List UInt8 → Prop) (s : LiveState) : Prop :=
  ∀ r, s.reader = some r → ∃ m, s.sys.mounts n = some m ∧ r.Ok P m.sb.log.data

/-- **One step** of the system or of the reader keeps the reader in order. -/
theorem ReaderOk.step (hs : s.ReaderOk n P) {e : LiveEvent} (he : e.Apart n s)
    (hstat : e = .stat → ∀ m ∈ s.sys.mounts n, P m.sb.log.data) (hstep : s.step n e = some s') :
    s'.ReaderOk n P := by
  cases e with
  | sys e =>
    simp only [LiveState.step] at hstep
    split at hstep
    · cases hstep
    · next hguard =>
      obtain ⟨sys, hsys, rfl⟩ := Option.map_eq_some_iff.mp hstep
      intro r hr
      obtain ⟨m, hm, hok⟩ := hs r hr
      have hne : e ≠ .umount n := by
        rintro rfl
        exact hguard ⟨rfl, by rw [show s.reader = some r from hr]; rfl⟩
      obtain ⟨m', hm', hlen, hlog⟩ := SysState.log_of_step hm hsys hne
      refine ⟨m', hm', ?_⟩
      rcases hlog with hlog | ⟨t, e', rfl, hwrites, hthread⟩
      · rw [hlog]
        exact hok
      · exact hok.grow hlen (he hwrites hthread r hr)
  | stat =>
    simp only [LiveState.step] at hstep
    split at hstep
    · next m hm hnone =>
      cases hstep
      rintro r ⟨⟩
      exact ⟨m, hm, .stat (he m hm).1 (hstat rfl m hm)⟩
    · cases hstep
  | read =>
    simp only [LiveState.step] at hstep
    split at hstep
    · next m r hm hr =>
      split at hstep
      · next hreading =>
        cases hstep
        rintro r' ⟨⟩
        obtain ⟨m', hm', hok⟩ := hs r hr
        cases hm.symm.trans hm'
        exact ⟨m, hm, hok.read hreading⟩
      · cases hstep
    · cases hstep

/-- A step keeps the logs in order if the step of the system does. -/
theorem consistent_step (hs : s.sys.Consistent) {e : LiveEvent} (he : ∀ e', e = .sys e' → e'.Sound)
    (hstep : s.step n e = some s') : s'.sys.Consistent := by
  cases e with
  | sys e =>
    simp only [LiveState.step] at hstep
    split at hstep
    · cases hstep
    · obtain ⟨sys, hsys, rfl⟩ := Option.map_eq_some_iff.mp hstep
      exact hs.step (he e rfl) hsys
  | stat =>
    simp only [LiveState.step] at hstep
    split at hstep
    · cases hstep
      exact hs
    · cases hstep
  | read =>
    simp only [LiveState.step] at hstep
    split at hstep
    · split at hstep
      · cases hstep
        exact hs
      · cases hstep
    · cases hstep

end LiveState

/-- **Replaying a live log.**  In every run in which a log of less than a chunk is left alone from
the `stat` to the last read, and in which no record is half written at the `stat`, every read fits
into the buffer.  If the system also keeps its logs in order, the bytes that were read of a log of
less than a chunk end with a whole record. -/
theorem live_safe_of_run {n : ℕ} {k : Kernel} {es : List LiveEvent} {s : LiveState}
    (hrun : run (LiveState.step n) (.boot k) es = some s)
    (hes : RunAllowed (LiveState.step n) (fun s e => e.Apart n s) (.boot k) es) :
    s.ReadsFit ∧ ((∀ e, .sys e ∈ es → e.Sound) → s.EndsWhole n) := by
  have hboot (P : List UInt8 → Prop) : (LiveState.boot k).ReaderOk n P := by
    intro r hr
    cases hr
  constructor
  · have hok : s.ReaderOk n fun _ => True :=
      run_invariant
        (fun _ _ _ hs he hstep => LiveState.ReaderOk.step hs he (fun _ _ _ => trivial) hstep)
        (hboot _) hes hrun
    intro r hr
    obtain ⟨m, -, hok⟩ := hok r hr
    exact hok.length_le_alloc
  · intro hsound
    have hstep (s : LiveState) (e : LiveEvent) (s' : LiveState)
        (hinv : s.sys.Consistent ∧ s.ReaderOk n WholeRecords)
        (he : e.Apart n s ∧ ∀ e', e = .sys e' → e'.Sound) (hstep : s.step n e = some s') :
        s'.sys.Consistent ∧ s'.ReaderOk n WholeRecords := by
      obtain ⟨hcons, hok⟩ := hinv
      refine ⟨LiveState.consistent_step hcons he.2 hstep, hok.step he.1 ?_ hstep⟩
      rintro rfl m hm
      have hmount := hcons.mounts n m hm
      obtain ⟨rs, hpre, hlog⟩ := hmount.log_of_atRest (he.1 m hm).2
      exact ⟨rs, fun r hr => hmount.wellFormed r (hpre.subset hr), by rw [hlog]; rfl⟩
    have hsound' : RunAllowed (LiveState.step n) (fun _ e => ∀ e', e = .sys e' → e'.Sound)
        (.boot k) es :=
      runAllowed_of_forall (fun e he s e' heq => hsound e' (by rwa [heq] at he)) _
    obtain ⟨-, hok⟩ := run_invariant hstep ⟨SysState.consistent_boot k, hboot _⟩
      (hes.and hsound') hrun
    intro r m hr hm hsmall
    obtain ⟨m', hm', hok⟩ := hok r hr
    cases hm.symm.trans hm'
    rcases hok.flatten_chunks hsmall with hwhole | hnil
    · exact hwhole
    · exact ⟨[], by simp, by rw [hnil, frames_nil]⟩

/-- The reader of the log of mount zero and the length of the log, after a list of events. -/
def readerAfter (es : List LiveEvent) : Option (Option Reader × Option ℕ) :=
  (run (LiveState.step 0) (.boot ⟨0, [], []⟩) es).map fun s =>
    (s.reader, (s.sys.mounts 0).map fun m => m.sb.log.data.length)

/-- Reading off the state. -/
theorem exists_of_readerAfter {es : List LiveEvent} {r : Reader} {len : ℕ}
    (h : readerAfter es = some (some r, some len)) :
    ∃ s m, run (LiveState.step 0) (.boot ⟨0, [], []⟩) es = some s ∧ s.reader = some r ∧
      s.sys.mounts 0 = some m ∧ m.sb.log.data.length = len := by
  obtain ⟨s, hrun, heq⟩ := Option.map_eq_some_iff.mp h
  obtain ⟨hreader, hmount⟩ := Prod.mk.inj heq
  obtain ⟨m, hm, hlen⟩ := Option.map_eq_some_iff.mp hmount
  exact ⟨s, m, hrun, hreader, hm, hlen⟩

/-- `/l` is made, and the replay tool takes the size of the log.  A second thread makes the next
record before the read and writes it after the read. -/
def replayEvents : List LiveEvent :=
  mkdirEvents.map .sys ++ .stat :: ((wholeOp 1 mkdirL).take 4).map .sys ++ .read ::
    ((wholeOp 1 mkdirL).drop 4).map .sys

/-- The single read gets the first record, and the log ends with two. -/
theorem live_safe_secondThread :
    ∃ s m, run (LiveState.step 0) (.boot ⟨0, [], []⟩) replayEvents = some s ∧
      s.reader = some ⟨34, 34, 34, [(mkdirL.plan.tail.args.logRecord 0).frame]⟩ ∧
      s.sys.mounts 0 = some m ∧ m.sb.log.data.length = 68 ∧ s.ReadsFit ∧ s.EndsWhole 0 := by
  have h : readerAfter replayEvents =
      some (some ⟨34, 34, 34, [(mkdirL.plan.tail.args.logRecord 0).frame]⟩, some 68) := by
    decide +kernel
  have hes : RunAllowed (LiveState.step 0) (fun s e => e.Apart 0 s) (.boot ⟨0, [], []⟩)
      replayEvents := by
    decide +kernel
  obtain ⟨s, m, hrun, hreader, hm, hlen⟩ := exists_of_readerAfter h
  obtain ⟨hfit, hwhole⟩ := live_safe_of_run hrun hes
  refine ⟨s, m, hrun, hreader, hm, hlen, hfit, hwhole fun e he => ?_⟩
  -- the second thread takes the steps of the first
  have hloggable : mkdirL.plan.tail.Loggable := .inl fits_mkdirL
  have hmem : e ∈ mkdirEvents ∨ e ∈ wholeOp 1 mkdirL := by
    simpa [replayEvents, wholeOp, or_assoc] using he
  rcases hmem with hmem | hmem
  · exact sound_mkdirEvents e hmem
  · exact sound_wholeOp hloggable e hmem

/-- `/l` is made, the replay tool takes the size of the log, and another record is appended before
the read. -/
def appendEvents : List LiveEvent :=
  mkdirEvents.map .sys ++ .stat :: (wholeOp 0 mkdirL).map .sys ++ [.read]

/-- The replay tool takes the size of the log and reads between the two writes of a record. -/
def halfEvents : List LiveEvent :=
  (Event.mountBegins :: .mount 0 [] :: (wholeOp 0 writeL).take 5).map .sys ++ [.stat, .read]

/-- The record of `writeL`. -/
def writeLRecord : LogRecord := writeL.plan.tail.args.logRecord 0

/-- The first write of a record is not the bytes of records. -/
theorem not_wholeRecords_take : ¬WholeRecords (writeLRecord.frame.take 34) := by
  rintro ⟨rs, hwf, heq⟩
  have hformat : writeL.WithinFormat := ⟨by decide, [97], rfl, rfl, by decide, by decide⟩
  have hrecord : writeLRecord.WellFormed :=
    FillArgs.wellFormed_logRecord (TracedOp.fits_of_withinFormat hformat) 0
  have hsplit : writeLRecord.frame.take 34 ++ [97] = writeLRecord.frame ++ [] := by
    decide +kernel
  cases rs with
  | nil =>
    have hne : writeLRecord.frame.take 34 ≠ [] := by decide +kernel
    exact hne heq
  | cons r rs =>
    rw [heq, frames_cons, List.append_assoc] at hsplit
    have hrest := ((hwf r (by simp)).frame_append_inj hrecord hsplit).2
    simp at hrest

/-- In the first run 68 bytes are read into a buffer of 34, in the second the read ends in the
middle of a record. -/
theorem not_live_safe_append :
    (∃ s, run (LiveState.step 0) (.boot ⟨0, [], []⟩) appendEvents = some s ∧ ¬s.ReadsFit) ∧
      ∃ s, run (LiveState.step 0) (.boot ⟨0, [], []⟩) halfEvents = some s ∧ ¬s.EndsWhole 0 := by
  constructor
  · have h : readerAfter appendEvents = some (some ⟨34, 68, 68,
        [frames [mkdirL.plan.tail.args.logRecord 0, mkdirL.plan.tail.args.logRecord 1]]⟩,
        some 68) := by
      decide +kernel
    obtain ⟨s, m, hrun, hreader, -⟩ := exists_of_readerAfter h
    refine ⟨s, hrun, fun hfit => ?_⟩
    have hle := hfit _ hreader _ (List.mem_singleton_self _)
    exact absurd hle (by decide +kernel)
  · have h : readerAfter halfEvents =
        some (some ⟨34, 34, 34, [writeLRecord.frame.take 34]⟩, some 34) := by
      decide +kernel
    obtain ⟨s, m, hrun, hreader, hm, hlen⟩ := exists_of_readerAfter h
    refine ⟨s, hrun, fun hwhole => not_wholeRecords_take ?_⟩
    have hends := hwhole _ m hreader hm (by rw [hlen]; decide)
    rwa [List.flatten_singleton] at hends

end Trfs
