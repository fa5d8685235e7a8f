import TraceFileSystem.System.Consistency
import TraceFileSystem.Treplay.Framing
import Mathlib.Data.List.Indexes

/-!
# The trace of one mount is exact

One mount, any number of threads, any interleaving of operations and `TR_SET_BMAP` calls, and
nothing fails.  Then, whenever the lock is free, the log contains one record for each operation
whose type was traced under the mask it read, in the order in which the operations held the lock,
numbered from zero on, and the inner loop of the replay tool decodes exactly these records.

* `tracedTails` selects the tails to be logged and `expected` lists their records.
* `Mount.Exact` adds to the consistency of a mount that the tails with a number are the traced ones,
  numbered one after the other; `Mount.Exact.work` is the step lemma.
* `Observer` notes the order in which the operations take the lock and the mask of that moment.  It
  sees nothing but the events, so that `lockOrder` is a function of the run and not of what the
  mount remembers; `SysState.Observed` says that the two agree.
* `trace_exact` is the result.
-/

namespace Trfs

open LabelledSystem ByteStore

/-! ### Numbering -/

/-- The tails whose type was traced under the mask they read. -/
def tracedTails (es : List (Tail × BitVec 64)) : List Tail :=
  (es.filter fun e => traces e.2 e.1.type).map Prod.fst

/-- Tails numbered from zero on. -/
def numbering (ts : List Tail) : List (Tail × CInt) :=
  ts.mapIdx fun i t => (t, BitVec.ofNat 32 i)

/-- The records that the log should contain for the given tails. -/
def expected (ts : List Tail) : List LogRecord :=
  ts.mapIdx fun i t => t.args.logRecord (BitVec.ofNat 32 i)

/-- A traced tail comes last. -/
theorem tracedTails_concat_of_traces (es : List (Tail × BitVec 64)) {t : Tail} {umask : BitVec 64}
    (h : traces umask t.type) : tracedTails (es ++ [(t, umask)]) = tracedTails es ++ [t] := by
  simp [tracedTails, h]

/-- A tail that is not traced leaves no trace. -/
theorem tracedTails_concat_of_not_traces (es : List (Tail × BitVec 64)) {t : Tail}
    {umask : BitVec 64} (h : ¬traces umask t.type) :
    tracedTails (es ++ [(t, umask)]) = tracedTails es := by
  simp [tracedTails, h]

/-- The last tail gets the next number. -/
theorem numbering_concat (ts : List Tail) (t : Tail) :
    numbering (ts ++ [t]) = numbering ts ++ [(t, BitVec.ofNat 32 ts.length)] := by
  simp [numbering]

/-- The records of numbered tails are the expected ones. -/
theorem map_numbering (ts : List Tail) :
    (numbering ts).map (fun p => p.1.args.logRecord p.2) = expected ts := by
  rw [numbering, expected, List.mapIdx_eq_zipIdx_map, List.mapIdx_eq_zipIdx_map, List.map_map]
  rfl

/-! ### One mount -/

namespace Mount

/-- The tails that have a number are the traced ones in order, except for a tail that has read the
mask and has not been filled yet. -/
def NumberedAt (m : Mount) (h : Holder) : Prop :=
  match h.stage with
  | .masked a => ∃ es umask, m.entered = es ++ [(h.tail, umask)] ∧ a = h.tail.fillArgs umask ∧
      m.numbered = numbering (tracedTails es)
  | .dead => False
  | .locked | .filled _ | .header _ _ | .leaving => m.numbered = numbering (tracedTails m.entered)

/-- A mount whose traced tails are numbered one after the other, with the counter at the last
number. -/
structure Exact (m : Mount) (k : Kernel) : Prop where
  counter : k.trecordId + 1 = BitVec.ofNat 32 m.numbered.length
  free : m.holder = none → m.numbered = numbering (tracedTails m.entered)
  held : ∀ h, m.holder = some h → h.tail.Fits ∧ m.NumberedAt h

variable {m : Mount} {k k' : Kernel} {h : Holder} {sb : SbInfo} {stage : Stage}

/-- A step that gives out no number, between stages other than reading the mask. -/
theorem Exact.after_of_numbered (hm : m.Exact k) (hh : m.holder = some h) {e : TailStep}
    (hid : k'.trecordId = k.trecordId)
    (hnum : (m.after h e sb stage).numbered = m.numbered)
    (hat : (m.after h e sb stage).NumberedAt { h with stage := stage }) :
    (m.after h e sb stage).Exact k' where
  counter := by rw [hid, hnum, hm.counter]
  free hnone := by cases hnone
  held := by
    rintro _ ⟨⟩
    exact ⟨(hm.held h hh).1, hat⟩

/-- The step in which the record is filled. -/
theorem Exact.work_fill (hm : m.Exact k) (hh : m.holder = some h) {a : FillArgs}
    (hstage : h.stage = .masked a) {pages : PageEnv} (hpages : pages.available)
    (hnext : h.stage.next k m.sb h.tail (.fill pages) = some (k', sb, stage)) :
    (m.after h (.fill pages) sb stage).Exact k' := by
  obtain ⟨hfits, hat⟩ := hm.held h hh
  simp only [NumberedAt, hstage] at hat
  obtain ⟨es, umask, hentered, rfl, hnumbered⟩ := hat
  rw [hstage, Stage.next] at hnext
  rcases Tail.fillRecord_cases umask pages (fun _ _ => .inl hfits) k with
    ⟨k₁, code, hfill, hid, hrefused⟩ | ⟨fault, hfill, hlong⟩ |
      ⟨htraces, -, k₁, pathPage, auxPage, hfill, hid⟩
  · rw [hfill] at hnext
    cases hnext
    have htraces : ¬traces umask h.tail.type := hrefused.resolve_right (not_not.mpr hpages)
    refine hm.after_of_numbered hh hid rfl ?_
    change m.numbered = numbering (tracedTails m.entered)
    rw [hentered, tracedTails_concat_of_not_traces es htraces, hnumbered]
  · exact absurd hlong hfits.not_tooLong
  · rw [hfill] at hnext
    cases hnext
    have hlen : (tracedTails es).length = m.numbered.length := by
      rw [hnumbered, numbering, List.length_mapIdx]
    have hnum : m.numbered ++ [(h.tail, k.trecordId + 1)] = numbering (tracedTails m.entered) := by
      rw [hentered, tracedTails_concat_of_traces es htraces, numbering_concat, hlen, ← hm.counter,
        hnumbered]
    refine ⟨?_, fun hnone => (by cases hnone), ?_⟩
    · change k'.trecordId + 1 = BitVec.ofNat 32 (m.numbered ++ [(h.tail, k.trecordId + 1)]).length
      rw [hid, hm.counter, List.length_append, List.length_singleton, BitVec.ofNat_add]
      rfl
    · rintro _ ⟨⟩
      exact ⟨hfits, hnum⟩

/-- **One step of the holder** keeps the numbering exact. -/
theorem Exact.work (hm : m.Exact k) (hcons : m.Consistent) (hh : m.holder = some h) {e : TailStep}
    (he : e.Completes) (hpages : ∀ pages, e = .fill pages → pages.available)
    (hnext : h.stage.next k m.sb h.tail e = some (k', sb, stage)) :
    (m.after h e sb stage).Exact k' := by
  have hat := (hm.held h hh).2
  cases hstage : h.stage with
  | locked =>
    cases e with
    | mask =>
      simp only [NumberedAt, hstage] at hat
      rw [hstage] at hnext
      cases hnext
      exact hm.after_of_numbered hh rfl rfl ⟨m.entered, m.sb.umask, rfl, rfl, hat⟩
    | _ => rw [hstage] at hnext; cases hnext
  | masked a =>
    cases e with
    | fill pages => exact hm.work_fill hh hstage (hpages pages rfl) hnext
    | _ => rw [hstage] at hnext; cases hnext
  | filled r =>
    cases e with
    | writeHeader o =>
      obtain rfl : o = .complete := he
      obtain ⟨hid, ret, prev, rfl, -⟩ := hcons.next_header hh hstage hnext
      simp only [NumberedAt, hstage] at hat
      exact hm.after_of_numbered hh hid rfl hat
    | _ => rw [hstage] at hnext; cases hnext
  | header r ret =>
    cases e with
    | writeAux o =>
      obtain rfl : o = .complete := he
      obtain ⟨hid, rfl, -⟩ := hcons.next_aux hh hstage hnext
      simp only [NumberedAt, hstage] at hat
      exact hm.after_of_numbered hh hid rfl hat
    | _ => rw [hstage] at hnext; cases hnext
  | leaving => cases e <;> rw [hstage] at hnext <;> cases hnext
  | dead => cases e <;> rw [hstage] at hnext <;> cases hnext

end Mount

/-! ### The system -/

/-- The events considered: operations within the format, allocations and writes to the log that
succeed, and no mount or unmount.  A `symlink` that fails stops its thread before the lock, so it
need not be excluded. -/
def Event.Faithful : Event → Prop
  | .arrive _ op => op.WithinFormat
  | .work _ e => e.Completes ∧ ∀ pages, e = .fill pages → pages.available
  | .lock _ | .unlock _ | .setBmap _ _ => True
  | .mountBegins | .mountFails | .mount _ _ | .umount _ => False

/-- Such events keep the logs in order. -/
theorem Event.Faithful.sound {e : Event} (he : e.Faithful) : e.Sound := by
  cases e with
  | arrive t op => exact .inl (TracedOp.fits_of_withinFormat he)
  | work t e => exact he.1
  | _ => trivial

namespace SysState

/-- A system with at most one mount, whose numbering is exact. -/
structure Exact (s : SysState) : Prop where
  consistent : s.Consistent
  waiting : ∀ t n tail, s.threads t = .waiting n tail → tail.Fits
  only : ∀ n m, s.mounts n = some m → n = 0
  exact : ∀ n m, s.mounts n = some m → m.Exact s.kernel

variable {s s' : SysState}

/-- Replacing the mount keeps it the only one. -/
theorem Exact.only_setMount (hs : s.Exact) {n : ℕ} {m : Mount} (hm : s.mounts n = some m)
    (m' : Option Mount) : ∀ n' m'', (s.setMount n m').mounts n' = some m'' → n' = 0 := by
  intro n' m'' hm''
  by_cases hn : n' = n
  · rw [hn]
    exact hs.only n m hm
  · rw [mounts_setMount_of_ne _ _ hn] at hm''
    exact hs.only n' m'' hm''

/-- Replacing the only mount by an exact one. -/
theorem Exact.exact_setMount (hs : s.Exact) {n : ℕ} {m : Mount} (hm : s.mounts n = some m)
    {m' : Mount} {k : Kernel} (hm' : m'.Exact k) :
    ∀ n' m'', (s.setMount n (some m')).mounts n' = some m'' → m''.Exact k := by
  intro n' m'' hm''
  by_cases hn : n' = n
  · subst hn
    rw [mounts_setMount_self] at hm''
    cases hm''
    exact hm'
  · rw [mounts_setMount_of_ne _ _ hn] at hm''
    exact absurd ((hs.only n' m'' hm'').trans (hs.only n m hm).symm) hn

/-- **One step of the system** keeps its numbering exact. -/
theorem Exact.step (hs : s.Exact) {e : Event} (he : e.Faithful) (hstep : s.step e = some s') :
    s'.Exact := by
  have hcons := hs.consistent.step he.sound hstep
  cases steps_of_step hstep with
  | arrive t op hidle =>
    refine ⟨hcons, waiting_setThread hs.waiting ?_, hs.only, hs.exact⟩
    intro n tail hwait
    rw [arrives_waiting hwait]
    exact TracedOp.fits_of_withinFormat he
  | lock t n tail m hwaiting hmount hfree =>
    have hm := hs.exact n m hmount
    refine ⟨hcons, waiting_setThread hs.waiting (by simp), hs.only_setMount hmount _,
      hs.exact_setMount hmount ⟨hm.counter, fun hnone => (by cases hnone), ?_⟩⟩
    rintro _ ⟨⟩
    exact ⟨hs.waiting t n tail hwaiting, hm.free hfree⟩
  | work t n m h e k sb stage hholding hnext =>
    obtain ⟨-, hmount, hholder⟩ := holding_eq_some hholding
    exact ⟨hcons, hs.waiting, hs.only_setMount hmount _, hs.exact_setMount hmount
      ((hs.exact n m hmount).work (hs.consistent.mounts n m hmount) hholder he.1 he.2 hnext)⟩
  | unlock t n m h hmount hholder hleaving =>
    have hm := hs.exact n m hmount
    have hat := (hm.held h hholder).2
    simp only [Mount.NumberedAt, hleaving] at hat
    exact ⟨hcons, waiting_setThread hs.waiting (by simp), hs.only_setMount hmount _,
      hs.exact_setMount hmount ⟨hm.counter, fun _ => hat, fun h' hh' => by cases hh'⟩⟩
  | setBmap n umask m hmount hfree =>
    have hm := hs.exact n m hmount
    refine ⟨hcons, hs.waiting, hs.only_setMount hmount _,
      hs.exact_setMount hmount ⟨hm.counter, fun _ => hm.free hfree, fun h' hh' => ?_⟩⟩
    rw [show m.holder = some h' from hh'] at hfree
    cases hfree
  | mountBegins => exact he.elim
  | mountFails hattempt => exact he.elim
  | mount n trPage hattempt hnew => exact he.elim
  | umount n m hmount hfree => exact he.elim

/-- A system in which trfs has just been mounted once. -/
def oneMount (k : Kernel) (trPage : List UInt8) : SysState :=
  (boot k).beginMount.endMount.setMount 0 (some (.fresh trPage))

/-- It has an exact numbering, of nothing. -/
theorem exact_oneMount (k : Kernel) (trPage : List UInt8) : (oneMount k trPage).Exact := by
  have hrun : run step (boot k) [.mountBegins, .mount 0 trPage] = some (oneMount k trPage) := rfl
  have hmounts (n : ℕ) (m : Mount) (hm : (oneMount k trPage).mounts n = some m) :
      n = 0 ∧ m = .fresh trPage := by
    by_cases hn : n = 0
    · subst hn
      rw [oneMount, mounts_setMount_self] at hm
      cases hm
      exact ⟨rfl, rfl⟩
    · rw [oneMount, mounts_setMount_of_ne _ _ hn] at hm
      cases hm
  have hsound : ∀ e ∈ [Event.mountBegins, .mount 0 trPage], e.Sound := by simp [Event.Sound]
  have hcounter : (-1 : CInt) + 1 = BitVec.ofNat 32 0 := by decide
  refine ⟨consistent_run hrun hsound, fun t n tail h => ?_, fun n m hm => ?_,
    fun n m hm => ?_⟩
  · cases h
  · exact (hmounts n m hm).1
  · rw [(hmounts n m hm).2]
    exact ⟨hcounter, fun _ => rfl, fun h hh => by cases hh⟩

end SysState

/-! ### The order of the lock -/

/-- What a bystander notes who sees the events of a run and nothing else. -/
structure Observer where
  /-- The logging tail that a thread has reached last. -/
  reached : ℕ → Option Tail
  /-- The bitmap of the last `TR_SET_BMAP`. -/
  umask : BitVec 64
  /-- The tails in the order in which their threads took the lock, with the bitmap of that
  moment. -/
  locked : List (Tail × BitVec 64)

namespace Observer

/-- Nothing has happened since trfs was mounted, with all bits of the mask set. -/
def start : Observer where
  reached _ := none
  umask := -1
  locked := []

/-- One event. -/
def see (o : Observer) : Event → Observer
  | .arrive t op => { o with reached := Function.update o.reached t (some op.plan.tail) }
  | .lock t =>
    match o.reached t with
    | some tail => { o with locked := o.locked ++ [(tail, o.umask)] }
    | none => o
  | .setBmap _ umask => { o with umask := umask }
  | _ => o

end Observer

/-- The tails that take the lock in a run, in this order, each with the mask of that moment. -/
def lockOrder (es : List Event) : List (Tail × BitVec 64) :=
  (es.foldl Observer.see .start).locked

/-- A step inside the lock leaves the mask as it is. -/
theorem Stage.umask_of_next {stage stage' : Stage} {k k' : Kernel} {sb sb' : SbInfo} {tail : Tail}
    {e : TailStep} (h : stage.next k sb tail e = some (k', sb', stage')) :
    sb'.umask = sb.umask := by
  unfold Stage.next at h
  split at h
  · cases h
    rfl
  · split at h <;> cases h <;> rfl
  · split at h
    · cases h
      rfl
    · next happend =>
      cases h
      exact umask_of_appendHeader happend
  · split at h
    · cases h
      rfl
    · next happend =>
      cases h
      exact umask_of_appendAux happend
  · cases h

namespace Mount

/-- The tails that have taken the lock: those that have read the mask, and the holder that is about
to read it. -/
def locked (m : Mount) : List (Tail × BitVec 64) :=
  m.entered ++
    match m.holder with
    | some h => if h.stage = .locked then [(h.tail, m.sb.umask)] else []
    | none => []

variable {m : Mount} {k k' : Kernel} {h : Holder} {sb : SbInfo} {stage : Stage}

/-- When the lock is free, all of them have read the mask. -/
theorem locked_of_free (hfree : m.holder = none) : m.locked = m.entered := by
  rw [locked, hfree, List.append_nil]

/-- A holder that takes a step has taken the lock before. -/
theorem locked_after (hh : m.holder = some h) {e : TailStep}
    (hnext : h.stage.next k m.sb h.tail e = some (k', sb, stage)) :
    (m.after h e sb stage).locked = m.locked := by
  simp only [locked, after, hh]
  cases hstage : h.stage with
  | locked =>
    cases e with
    | mask =>
      rw [hstage] at hnext
      cases hnext
      simp
    | _ => rw [hstage] at hnext; cases hnext
  | masked a =>
    cases e with
    | fill pages =>
      rw [hstage, Stage.next] at hnext
      split at hnext <;> cases hnext <;> simp
    | _ => rw [hstage] at hnext; cases hnext
  | filled r =>
    cases e with
    | writeHeader o =>
      rw [hstage, Stage.next] at hnext
      split at hnext <;> cases hnext <;> simp
    | _ => rw [hstage] at hnext; cases hnext
  | header r ret =>
    cases e with
    | writeAux o =>
      rw [hstage, Stage.next] at hnext
      split at hnext <;> cases hnext <;> simp
    | _ => rw [hstage] at hnext; cases hnext
  | leaving => cases e <;> rw [hstage] at hnext <;> cases hnext
  | dead => cases e <;> rw [hstage] at hnext <;> cases hnext

end Mount

namespace SysState

/-- An observer has noted the tails of the waiting threads, the mask of the only mount, and the
tails that have taken its lock. -/
structure Observed (s : SysState) (o : Observer) : Prop where
  exact : s.Exact
  reached : ∀ t n tail, s.threads t = .waiting n tail → o.reached t = some tail
  umask : ∀ n m, s.mounts n = some m → m.sb.umask = o.umask
  locked : ∀ n m, s.mounts n = some m → m.locked = o.locked

variable {s s' : SysState} {o : Observer}

/-- Nothing has been noted when trfs has just been mounted. -/
theorem observed_oneMount (k : Kernel) (trPage : List UInt8) :
    (oneMount k trPage).Observed .start := by
  have hexact := exact_oneMount k trPage
  have hmounts (n : ℕ) (m : Mount) (hm : (oneMount k trPage).mounts n = some m) :
      m = .fresh trPage := by
    obtain rfl := hexact.only n m hm
    rw [oneMount, mounts_setMount_self] at hm
    cases hm
    rfl
  refine ⟨hexact, fun t n tail h => ?_, fun n m hm => ?_, fun n m hm => ?_⟩
  · cases h
  · rw [hmounts n m hm]
    rfl
  · rw [hmounts n m hm]
    rfl

/-- **One event** is noted as it happens. -/
theorem Observed.step (hs : s.Observed o) {e : Event} (he : e.Faithful)
    (hstep : s.step e = some s') : s'.Observed (o.see e) := by
  have hexact := hs.exact.step he hstep
  have hmounts {P : Mount → Prop} {s₁ : SysState} {n : ℕ} {m : Mount}
      (h : ∀ n' m', (s₁.setMount n (some m)).mounts n' = some m' → n' = 0)
      (hm : P m) : ∀ n' m', (s₁.setMount n (some m)).mounts n' = some m' → P m' := by
    intro n' m' hm'
    obtain rfl := h n m (mounts_setMount_self _ _ _)
    obtain rfl := h n' m' hm'
    rw [mounts_setMount_self, Option.some_inj] at hm'
    exact hm' ▸ hm
  cases steps_of_step hstep with
  | arrive t op hidle =>
    refine ⟨hexact, fun t' n tail hwait => ?_, hs.umask, hs.locked⟩
    by_cases ht : t' = t
    · subst ht
      rw [threads_setThread_self] at hwait
      rw [arrives_waiting hwait]
      exact Function.update_self ..
    · rw [threads_setThread_of_ne _ _ ht] at hwait
      exact (Function.update_of_ne ht ..).trans (hs.reached t' n tail hwait)
  | lock t n tail m hwaiting hmount hfree =>
    have hlocked := hs.locked n m hmount
    rw [Mount.locked_of_free hfree] at hlocked
    have hsee : o.see (.lock t) = { o with locked := o.locked ++ [(tail, o.umask)] } := by
      simp only [Observer.see, hs.reached t n tail hwaiting]
    rw [hsee]
    refine ⟨hexact, waiting_setThread hs.reached (by simp),
      hmounts hexact.only (hs.umask n m hmount), hmounts hexact.only ?_⟩
    simp [Mount.locked, hlocked, hs.umask n m hmount]
  | work t n m h e k sb stage hholding hnext =>
    obtain ⟨-, hmount, hholder⟩ := holding_eq_some hholding
    refine ⟨hexact, hs.reached, hmounts hexact.only ?_, hmounts hexact.only ?_⟩
    · exact (Stage.umask_of_next hnext).trans (hs.umask n m hmount)
    · exact (Mount.locked_after hholder hnext).trans (hs.locked n m hmount)
  | unlock t n m h hmount hholder hleaving =>
    refine ⟨hexact, waiting_setThread hs.reached (by simp),
      hmounts hexact.only (hs.umask n m hmount), hmounts hexact.only ?_⟩
    have hlocked := hs.locked n m hmount
    simpa [Mount.locked, Observer.see, hholder, hleaving] using hlocked
  | setBmap n umask m hmount hfree =>
    have hlocked := hs.locked n m hmount
    rw [Mount.locked_of_free hfree] at hlocked
    refine ⟨hexact, hs.reached, hmounts hexact.only rfl, hmounts hexact.only ?_⟩
    simpa [Mount.locked, Observer.see, hfree] using hlocked
  | mountBegins => exact he.elim
  | mountFails hattempt => exact he.elim
  | mount n trPage hattempt hnew => exact he.elim
  | umount n m hmount hfree => exact he.elim

/-- An observer of a run has noted everything. -/
theorem observed_run {k : Kernel} {trPage : List UInt8} {es : List Event}
    (hrun : run step (oneMount k trPage) es = some s) (hes : ∀ e ∈ es, e.Faithful) :
    s.Observed (es.foldl Observer.see .start) := by
  have hstep (s : SysState) (o : Observer) (e : Event) (s' : SysState) (hs : s.Observed o)
      (he : e.Faithful) (hstep : s.step e = some s') : s'.Observed (o.see e) := hs.step he hstep
  have hend := run_observed hstep (observed_oneMount k trPage)
    (runAllowed_of_forall (fun e he _ => hes e he) _) hrun
  exact hend

/-- **The log of a run.**  When the lock is free, the log of the mount consists of the records that
are expected from the order of the lock. -/
theorem Observed.records (hs : s.Observed o) {mnt : Mount} (hmnt : s.mounts 0 = some mnt)
    (hfree : mnt.holder = none) :
    mnt.records = expected (tracedTails o.locked) ∧
      mnt.sb.log = .holding (frames (expected (tracedTails o.locked))) := by
  have hrecords : mnt.records = expected (tracedTails o.locked) := by
    rw [Mount.records, (hs.exact.exact 0 mnt hmnt).free hfree, map_numbering,
      ← Mount.locked_of_free hfree, hs.locked 0 mnt hmnt]
  refine ⟨hrecords, ?_⟩
  rw [(hs.exact.consistent.mounts 0 mnt hmnt).free hfree, hrecords]

end SysState

/-- **The trace is exact.**  On one mount, in every state that any interleaving of operations and
`TR_SET_BMAP` calls can reach and in which the lock is free, the log is exactly `f_pos` bytes long,
and the inner loop of the replay tool, given the whole log in one buffer, decodes exactly the
expected records: one for each operation whose type was traced when it took the lock, in the order
in which the events of the run say that the lock was taken, numbered from zero on, each with the
fields, the path and the auxiliary data of its operation. -/
theorem trace_exact {k : Kernel} {trPage : List UInt8} {es : List Event} {s : SysState}
    (hrun : run SysState.step (.oneMount k trPage) es = some s) (hes : ∀ e ∈ es, e.Faithful)
    {mnt : Mount} (hmnt : s.mounts 0 = some mnt) (hfree : mnt.holder = none) {W : Type*}
    (sys : Syscalls W) (noreplay : Bool) (cwd : List UInt8) (m : Mem) (w : W) :
    (mnt.sb.log.data.length : ℤ) = mnt.sb.log.fPos ∧
      ∃ n, ((replayStep ⟨sys, ⟨noreplay, false⟩, cwd, mnt.sb.log.data⟩)^[n]
          (wholeStart ⟨sys, ⟨noreplay, false⟩, cwd, mnt.sb.log.data⟩ m w)).innerDone ∧
        ((replayStep ⟨sys, ⟨noreplay, false⟩, cwd, mnt.sb.log.data⟩)^[n]
          (wholeStart ⟨sys, ⟨noreplay, false⟩, cwd, mnt.sb.log.data⟩ m w)).parsed.map
            Parsed.record = expected (tracedTails (lockOrder es)) := by
  have hobserved := SysState.observed_run hrun hes
  obtain ⟨hrecords, hlog⟩ := hobserved.records hmnt hfree
  have hwf := (hobserved.exact.consistent.mounts 0 mnt hmnt).wellFormed
  rw [hrecords] at hwf
  refine ⟨by rw [hlog]; rfl, ?_⟩
  let env : ReplayEnv W := ⟨sys, ⟨noreplay, false⟩, cwd, mnt.sb.log.data⟩
  have henv : env.log = frames (expected (tracedTails (lockOrder es))) := congrArg LogFile.data hlog
  obtain ⟨n, hdone, hparsed, -⟩ := whole_parses henv rfl hwf m w
  exact ⟨n, hdone, hparsed⟩

/-- Thread zero reaches the tail of a `mkdir` first, but thread one takes the lock before it, with a
write.  Then writes are no longer to be traced: another write of thread one leaves no record, and
the `mkdir` comes second. -/
def twoThreads : List Event :=
  .arrive 0 mkdirL :: wholeOp 1 writeL ++
    [.setBmap 0 (BitVec.ofNat 64 (2 ^ 10)), .arrive 1 writeL, .lock 1, .work 1 .mask,
      .work 1 (.fill ⟨some 0, some 1⟩), .unlock 1] ++
    (wholeOp 0 mkdirL).tail

/-- The two records of such a run, as the tool decodes them. -/
theorem trace_exact_twoThreads :
    ∃ s mnt, run SysState.step (.oneMount ⟨0, [], []⟩ []) twoThreads = some s ∧
      s.mounts 0 = some mnt ∧
      (mnt.sb.log.data.length : ℤ) = mnt.sb.log.fPos ∧
      ∃ n, ((replayStep ⟨Syscalls.refusing, ⟨false, false⟩, [], mnt.sb.log.data⟩)^[n]
          (wholeStart ⟨Syscalls.refusing, ⟨false, false⟩, [], mnt.sb.log.data⟩
            (fun _ => 0) ())).innerDone ∧
        ((replayStep ⟨Syscalls.refusing, ⟨false, false⟩, [], mnt.sb.log.data⟩)^[n]
          (wholeStart ⟨Syscalls.refusing, ⟨false, false⟩, [], mnt.sb.log.data⟩
            (fun _ => 0) ())).parsed.map Parsed.record =
              [⟨⟨0, 1, 0, 1, 35, 2, 4, 1⟩, [47, 108], [97]⟩,
                ⟨⟨1, 0, 0, 0, 34, 2, 1024, 0⟩, [47, 108], []⟩] := by
  have hfree : ((run SysState.step (.oneMount ⟨0, [], []⟩ []) twoThreads).bind fun s =>
      (s.mounts 0).filter fun m => m.holder = none).isSome = true := by
    decide +kernel
  obtain ⟨mnt, hends⟩ := Option.isSome_iff_exists.mp hfree
  obtain ⟨s, hrun, hmnt⟩ := Option.bind_eq_some_iff.mp hends
  obtain ⟨hmnt, hfree⟩ := Option.filter_eq_some_iff.mp hmnt
  have hmkdir : mkdirL.WithinFormat := ⟨by decide, trivial⟩
  have hwrite : writeL.WithinFormat := ⟨by decide, [97], rfl, rfl, by decide, by decide⟩
  have hes : ∀ e ∈ twoThreads, e.Faithful := by
    simp [twoThreads, wholeOp, Event.Faithful, TailStep.Completes, hmkdir, hwrite,
      PageEnv.available]
  have hexpected : expected (tracedTails (lockOrder twoThreads)) =
      [⟨⟨0, 1, 0, 1, 35, 2, 4, 1⟩, [47, 108], [97]⟩,
        ⟨⟨1, 0, 0, 0, 34, 2, 1024, 0⟩, [47, 108], []⟩] := by
    decide +kernel
  refine ⟨s, mnt, hrun, hmnt, ?_⟩
  rw [← hexpected]
  exact trace_exact hrun hes hmnt (of_decide_eq_true hfree) _ _ _ _ _

end Trfs
