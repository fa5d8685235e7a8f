import TraceFileSystem.System.Machine

/-!
# The log under interleaving

Whatever the threads do, the log of a mount consists of the records of the tails that were given a
number there, in the order of their numbers, as long as every record fits the format and every write
to the log completes.

* The two writes of `append_record` extend a log without gaps by header and path and by the
  auxiliary data.
* `Tail.Loggable` allows tails whose record fits the format, and tails with a path that does not fit
  a page: these stop their thread in `fill_record`, before anything is written.
* `Mount.Consistent` describes a mount at every stage of the holder of its lock, and
  `Mount.Consistent.work` is the step lemma for the holder.
* `SysState.fills` is the tail whose record an event fills.  Only such tails have to be loggable, so
  that `SysState.ConsistentAt.step` is about the records that reach the log of one mount.
* `SysState.Consistent` describes the whole system, when all operations that arrive are loggable.
-/

namespace Trfs

open ByteStore LabelledSystem

/-! ### Appending to logs without gaps -/

/-- The first half of `append_record` appends header and path. -/
theorem appendHeader_holding {r : TrRecord} (h : r.Appendable) {sb : SbInfo} {bytes : List UInt8}
    (hlog : sb.log = .holding bytes) (k : Kernel) :
    ∃ sb' ret, appendHeader sb k r .complete = .ok (sb', k.freePage r.pathname, ret) ∧
      sb'.log = .holding (bytes ++ (r.toHeader.bytes ++ r.pathname.bytes)) ∧
      sb'.umask = sb.umask := by
  have hle : headerSize + r.pathname.bytes.length ≤ (r.staged sb.trPage).length := by
    obtain ⟨rest, hrest⟩ := r.staged_eq sb.trPage
    rw [hrest]
    simp
  refine ⟨_, _, appendHeader_eq h sb k .complete, ?_, rfl⟩
  dsimp only
  rw [hlog, ← Nat.cast_add, LogFile.writeAdvance_holding _ _ hle, r.take_staged]

/-- The second half of `append_record` appends the auxiliary data. -/
theorem appendAux_holding {r : TrRecord} (h : r.Appendable) {sb : SbInfo} {bytes : List UInt8}
    (hlog : sb.log = .holding bytes) (k : Kernel) (ret : ℤ) :
    ∃ sb' k' ret', appendAux sb k r .complete ret = .ok (sb', k', ret') ∧
      sb'.log = .holding (bytes ++ r.logged.aux) ∧ sb'.umask = sb.umask ∧
      k'.trecordId = k.trecordId := by
  by_cases haux : r.logged.aux = []
  · refine ⟨sb, k, ret, appendAux_nil haux h sb k .complete ret, ?_, rfl, rfl⟩
    rw [haux, List.append_nil, hlog]
  · have hle : r.logged.aux.length ≤ r.aux.bytes.length := by
      have hlen := h.auxLen_le
      rw [h.auxLen_eq] at hlen
      exact_mod_cast hlen
    have htake : r.aux.bytes.take r.logged.aux.length = r.logged.aux := by
      rw [← Int.toNat_natCast r.logged.aux.length, ← h.auxLen_eq]
      rfl
    refine ⟨_, _, _, appendAux_eq haux h sb k .complete ret, ?_, rfl, ?_⟩
    · dsimp only
      rw [hlog, LogFile.writeAdvance_holding _ _ hle, htake]
    · split
      · rfl
      · exact Kernel.freePage_trecordId k r.aux

/-! ### Tails -/

/-- A tail whose record fits the format, or that is stopped before anything is written. -/
def Tail.Loggable (t : Tail) : Prop := t.Fits ∨ t.TooLong

/-- A tail that fits the format has no path that is too long. -/
theorem Tail.Fits.not_tooLong {t : Tail} (hfits : t.Fits) : ¬t.TooLong := by
  rintro (hlong | ⟨htype, d, haux, hlong⟩)
  · exact absurd hfits.path_lt (not_lt.mpr hlong)
  · have hok := hfits.aux_ok
    rcases htype with htype | htype <;>
      simp only [FillArgs.auxOk, Tail.args, htype, RecType.ofCode?_code, haux] at hok <;>
      obtain ⟨d', ⟨⟩, hlt⟩ := hok <;>
      exact absurd hlt (not_lt.mpr hlong)

/-- What `fill_record` can do under a mask for a tail that is loggable if there is something to
log. -/
theorem Tail.fillRecord_cases {t : Tail} (umask : BitVec 64) (pages : PageEnv)
    (h : traces umask t.type → pages.available → t.Loggable) (k : Kernel) :
    (∃ k' code, fillRecord pages k (t.fillArgs umask) = .ok (k', .error code) ∧
        k'.trecordId = k.trecordId ∧ (¬traces umask t.type ∨ ¬pages.available)) ∨
      (∃ fault, fillRecord pages k (t.fillArgs umask) = .error fault ∧ t.TooLong) ∨
      (traces umask t.type ∧ t.Fits ∧ ∃ k' pathPage auxPage,
        fillRecord pages k (t.fillArgs umask) =
          .ok (k', .ok (t.args.record (k.trecordId + 1) pathPage auxPage)) ∧
        k'.trecordId = k.trecordId + 1) := by
  by_cases htype : traces umask t.type
  · rw [Tail.fillArgs_of_traces htype]
    have hne : t.args.type ≠ 0 := RecType.code_ne_zero t.type
    obtain ⟨pathPage, auxPage⟩ := pages
    cases pathPage with
    | none =>
      refine .inl ⟨k, -eNOMEM, ?_, rfl, .inr (by simp [PageEnv.available])⟩
      simp only [fillRecord, if_neg hne]
    | some pathPage =>
      cases auxPage with
      | none =>
        refine .inl ⟨{ k with ledger := (pathPage :: k.ledger).erase pathPage }, -eNOMEM, ?_, rfl,
          .inr (by simp [PageEnv.available])⟩
        simp only [fillRecord, if_neg hne]
      | some auxPage =>
        rcases h htype ⟨rfl, rfl⟩ with hfits | hlong
        · exact .inr (.inr ⟨htype, hfits, _, pathPage, auxPage,
            fillRecord_framed hfits k pathPage auxPage, rfl⟩)
        · exact .inr (.inl ⟨_, fillRecord_tooLong hlong k pathPage auxPage, hlong⟩)
  · exact .inl ⟨k, -1, fillRecord_zero _ _ (Tail.type_fillArgs_of_not_traces htype), rfl,
      .inl htype⟩

/-! ### One mount -/

namespace Mount

/-- The records of the tails that were given a number. -/
def records (m : Mount) : List LogRecord :=
  m.numbered.map fun p => p.1.args.logRecord p.2

/-- The last record that was given a number is `r`, on its way into the log behind `prev`. -/
def Pending (m : Mount) (r : TrRecord) (prev : List LogRecord) : Prop :=
  m.records = prev ++ [r.logged] ∧ r.Appendable

/-- The log while the lock is held. -/
def LogAt (m : Mount) (h : Holder) : Prop :=
  match h.stage with
  | .locked | .leaving | .dead => m.sb.log = .holding (frames m.records)
  | .masked a => (∃ umask, a = h.tail.fillArgs umask) ∧ m.sb.log = .holding (frames m.records)
  | .filled r => ∃ prev, m.Pending r prev ∧ m.sb.log = .holding (frames prev)
  | .header r _ => ∃ prev, m.Pending r prev ∧
      m.sb.log = .holding (frames prev ++ (r.toHeader.bytes ++ r.pathname.bytes))

/-- A mount whose log consists of its records, up to the record that is being written. -/
structure Consistent (m : Mount) : Prop where
  fits : ∀ p ∈ m.numbered, p.1.Fits
  free : m.holder = none → m.sb.log = .holding (frames m.records)
  held : ∀ h, m.holder = some h → m.LogAt h

/-- No record is half written: the lock is free, or its holder is not between its two writes. -/
def AtRest (m : Mount) : Prop :=
  ∀ h r ret, m.holder = some h → h.stage ≠ .header r ret

/-- No record that was given a number is still on its way into the log. -/
def Idle (m : Mount) : Prop :=
  m.AtRest ∧ ∀ h r, m.holder = some h → h.stage ≠ .filled r

variable {m : Mount}

/-- The records of a consistent mount are well formed. -/
theorem Consistent.wellFormed (hm : m.Consistent) : ∀ r ∈ m.records, r.WellFormed := by
  intro r hr
  obtain ⟨p, hp, rfl⟩ := List.mem_map.mp hr
  exact FillArgs.wellFormed_logRecord (hm.fits p hp) p.2

/-- When no record is on its way, the log consists of the records. -/
theorem Consistent.log_of_idle (hm : m.Consistent) (hidle : m.Idle) :
    m.sb.log = .holding (frames m.records) := by
  cases hholder : m.holder with
  | none => exact hm.free hholder
  | some h =>
    have hlog := hm.held h hholder
    obtain ⟨thread, tail, stage⟩ := h
    cases stage with
    | locked => exact hlog
    | masked a => exact hlog.2
    | filled r => exact absurd rfl (hidle.2 _ r hholder)
    | header r ret => exact absurd rfl (hidle.1 _ r ret hholder)
    | leaving => exact hlog
    | dead => exact hlog

/-- When no record is half written, the log consists of the first of the records: all of them, or
all but the last. -/
theorem Consistent.log_of_atRest (hm : m.Consistent) (hrest : m.AtRest) :
    ∃ rs, rs <+: m.records ∧ m.sb.log = .holding (frames rs) := by
  by_cases hidle : m.Idle
  · exact ⟨m.records, List.prefix_rfl, hm.log_of_idle hidle⟩
  · simp only [Idle, hrest, true_and, not_forall, not_not] at hidle
    obtain ⟨h, r, hholder, hstage⟩ := hidle
    have hlog := hm.held h hholder
    simp only [LogAt, hstage] at hlog
    obtain ⟨prev, hpending, hlog⟩ := hlog
    exact ⟨prev, ⟨[r.logged], hpending.1.symm⟩, hlog⟩

/-- A new mount is consistent. -/
theorem consistent_fresh (trPage : List UInt8) : (Mount.fresh trPage).Consistent where
  fits := by simp [fresh]
  free _ := rfl
  held h hh := by simp [fresh] at hh

end Mount

/-- The writes to the log that a step makes complete. -/
def TailStep.Completes : TailStep → Prop
  | .writeHeader o => o = .complete
  | .writeAux o => o = .complete
  | .mask | .fill _ => True

namespace Mount

variable {m : Mount} {k k' : Kernel} {h : Holder} {sb : SbInfo} {stage : Stage}

/-- A step of the holder that gives out no number and leaves a consistent log. -/
theorem Consistent.after_of_log (hm : m.Consistent) (e : TailStep)
    (sb : SbInfo) (stage : Stage) (hstage : ∀ r, stage ≠ .filled r)
    (hlog : ∀ m' : Mount, m'.records = m.records → m'.sb = sb →
      m'.LogAt { h with stage := stage }) :
    (m.after h e sb stage).Consistent := by
  have hnumbered : (m.after h e sb stage).numbered = m.numbered := by
    unfold after
    cases stage with
    | filled r => exact absurd rfl (hstage r)
    | _ => rfl
  refine ⟨?_, ?_, ?_⟩
  · rw [hnumbered]
    exact hm.fits
  · intro hnone
    cases hnone
  · rintro _ ⟨⟩
    exact hlog _ (by rw [records, hnumbered, records]) rfl

/-- The step in which a tail is given a number. -/
theorem Consistent.after_filled (hm : m.Consistent) (pages : PageEnv)
    (hfits : h.tail.Fits) (hlog : m.sb.log = .holding (frames m.records)) (recId : CInt)
    (pathPage auxPage : ℕ) :
    (m.after h (.fill pages) m.sb
      (.filled (h.tail.args.record recId pathPage auxPage))).Consistent where
  fits := by
    intro p hp
    rw [after, List.mem_append, List.mem_singleton] at hp
    rcases hp with hp | rfl
    · exact hm.fits p hp
    · exact hfits
  free hnone := by cases hnone
  held := by
    rintro _ ⟨⟩
    refine ⟨m.records, ⟨?_, FillArgs.appendable_record hfits _ _ _⟩, hlog⟩
    rw [FillArgs.logged_record hfits, records, records, after]
    exact List.map_append

/-- The step in which the record is filled. -/
theorem Consistent.work_fill (hm : m.Consistent) (hh : m.holder = some h) {a : FillArgs}
    (hstage : h.stage = .masked a) (pages : PageEnv)
    (hfill : a.type ≠ 0 → pages.available → h.tail.Loggable)
    (hnext : h.stage.next k m.sb h.tail (.fill pages) = some (k', sb, stage)) :
    (m.after h (.fill pages) sb stage).Consistent := by
  have hlog := hm.held h hh
  simp only [LogAt, hstage] at hlog
  obtain ⟨⟨umask, rfl⟩, hlog⟩ := hlog
  have hloggable (htraces : traces umask h.tail.type) : pages.available → h.tail.Loggable := by
    refine hfill ?_
    rw [Tail.fillArgs_of_traces htraces]
    exact RecType.code_ne_zero _
  have hsame (m' : Mount) (hrec : m'.records = m.records) (hsb : m'.sb = m.sb) :
      m'.sb.log = .holding (frames m'.records) := by
    rw [hrec, hsb, hlog]
  rw [hstage, Stage.next] at hnext
  rcases Tail.fillRecord_cases umask pages hloggable k with
    ⟨k₁, code, hfill, -⟩ | ⟨fault, hfill, -⟩ | ⟨-, hfits, k₁, pathPage, auxPage, hfill, -⟩
  · rw [hfill] at hnext
    cases hnext
    exact hm.after_of_log (.fill pages) m.sb .leaving (by simp) hsame
  · rw [hfill] at hnext
    cases hnext
    exact hm.after_of_log (.fill pages) m.sb .dead (by simp) hsame
  · rw [hfill] at hnext
    cases hnext
    exact hm.after_filled pages hfits hlog _ _ _

/-- On a consistent mount the first write of a pending record appends header and path. -/
theorem Consistent.next_header (hm : m.Consistent) (hh : m.holder = some h) {r : TrRecord}
    (hstage : h.stage = .filled r)
    (hnext : h.stage.next k m.sb h.tail (.writeHeader .complete) = some (k', sb, stage)) :
    k'.trecordId = k.trecordId ∧ ∃ ret prev, stage = .header r ret ∧ m.Pending r prev ∧
      m.sb.log = .holding (frames prev) ∧
      sb.log = .holding (frames prev ++ (r.toHeader.bytes ++ r.pathname.bytes)) := by
  have hlog := hm.held h hh
  simp only [LogAt, hstage] at hlog
  obtain ⟨prev, hpending, hlog⟩ := hlog
  obtain ⟨sb', ret, happend, hlog', -⟩ := appendHeader_holding hpending.2 hlog k
  rw [hstage, Stage.next, happend] at hnext
  cases hnext
  exact ⟨Kernel.freePage_trecordId k r.pathname, ret, prev, rfl, hpending, hlog, hlog'⟩

/-- On a consistent mount the second write of a pending record completes it. -/
theorem Consistent.next_aux (hm : m.Consistent) (hh : m.holder = some h) {r : TrRecord} {ret : ℤ}
    (hstage : h.stage = .header r ret)
    (hnext : h.stage.next k m.sb h.tail (.writeAux .complete) = some (k', sb, stage)) :
    k'.trecordId = k.trecordId ∧ stage = .leaving ∧ m.sb.log.fPos ≤ sb.log.fPos ∧
      sb.log = .holding (frames m.records) := by
  have hlog := hm.held h hh
  simp only [LogAt, hstage] at hlog
  obtain ⟨prev, hpending, hlog⟩ := hlog
  obtain ⟨sb', k₁, ret', happend, hlog', -, hid⟩ := appendAux_holding hpending.2 hlog k ret
  rw [hstage, Stage.next, happend] at hnext
  cases hnext
  refine ⟨hid, rfl, ?_, ?_⟩
  · rw [hlog', hlog]
    simp [LogFile.holding]
  · rw [hlog', hpending.1, frames_append]
    simp [LogRecord.frame, TrRecord.logged]

/-- The step in which header and path are written. -/
theorem Consistent.work_header (hm : m.Consistent) (hh : m.holder = some h) {r : TrRecord}
    (hstage : h.stage = .filled r)
    (hnext : h.stage.next k m.sb h.tail (.writeHeader .complete) = some (k', sb, stage)) :
    (m.after h (.writeHeader .complete) sb stage).Consistent := by
  obtain ⟨-, ret, prev, rfl, hpending, -, hlog⟩ := hm.next_header hh hstage hnext
  refine hm.after_of_log (.writeHeader .complete) sb (.header r ret) (by simp) ?_
  intro m' hrec hsb
  exact ⟨prev, ⟨hrec.trans hpending.1, hpending.2⟩, by rw [hsb, hlog]⟩

/-- The step in which the auxiliary data is written. -/
theorem Consistent.work_aux (hm : m.Consistent) (hh : m.holder = some h) {r : TrRecord} {ret : ℤ}
    (hstage : h.stage = .header r ret)
    (hnext : h.stage.next k m.sb h.tail (.writeAux .complete) = some (k', sb, stage)) :
    (m.after h (.writeAux .complete) sb stage).Consistent := by
  obtain ⟨-, rfl, -, hlog⟩ := hm.next_aux hh hstage hnext
  refine hm.after_of_log (.writeAux .complete) sb .leaving (by simp) ?_
  intro m' hrec hsb
  change m'.sb.log = _
  rw [hsb, hlog, hrec]

/-- **One step of the holder** keeps the mount consistent, if a record that it fills fits the format
or is stopped. -/
theorem Consistent.work (hm : m.Consistent) (hh : m.holder = some h) {e : TailStep}
    (he : e.Completes)
    (hfill : ∀ a pages, h.stage = .masked a → e = .fill pages → a.type ≠ 0 → pages.available →
      h.tail.Loggable)
    (hnext : h.stage.next k m.sb h.tail e = some (k', sb, stage)) :
    (m.after h e sb stage).Consistent := by
  cases hstage : h.stage with
  | locked =>
    cases e with
    | mask =>
      have hlog := hm.held h hh
      simp only [LogAt, hstage] at hlog
      rw [hstage] at hnext
      cases hnext
      refine hm.after_of_log .mask m.sb (.masked (h.tail.fillArgs m.sb.umask)) (by simp) ?_
      intro m' hrec hsb
      exact ⟨⟨_, rfl⟩, by rw [hrec, hsb, hlog]⟩
    | _ => rw [hstage] at hnext; cases hnext
  | masked a =>
    cases e with
    | fill pages => exact hm.work_fill hh hstage pages (hfill a pages hstage rfl) hnext
    | _ => rw [hstage] at hnext; cases hnext
  | filled r =>
    cases e with
    | writeHeader o =>
      obtain rfl : o = .complete := he
      exact hm.work_header hh hstage hnext
    | _ => rw [hstage] at hnext; cases hnext
  | header r ret =>
    cases e with
    | writeAux o =>
      obtain rfl : o = .complete := he
      exact hm.work_aux hh hstage hnext
    | _ => rw [hstage] at hnext; cases hnext
  | leaving => cases e <;> rw [hstage] at hnext <;> cases hnext
  | dead => cases e <;> rw [hstage] at hnext <;> cases hnext

end Mount

/-! ### The whole system -/

/-- The writes to the log that an event makes complete. -/
def Event.Completes : Event → Prop
  | .work _ e => e.Completes
  | _ => True

/-- An event that keeps the logs in order: the records of arriving operations fit the format or are
stopped by a path that is too long, and writes to the log complete. -/
def Event.Sound : Event → Prop
  | .arrive _ op => op.plan.tail.Loggable
  | .work _ e => e.Completes
  | _ => True

/-- Sound events complete. -/
theorem Event.Sound.completes {e : Event} (he : e.Sound) : e.Completes := by
  cases e with
  | work t e => exact he
  | _ => trivial

namespace SysState

/-- The tail whose record an event fills on a mount: its type is traced, and there are pages. -/
def fills (s : SysState) (n : ℕ) : Event → Option Tail
  | .work t (.fill pages) =>
    match s.holding t with
    | some (n', _, h) =>
      match h.stage with
      | .masked a => if n' = n ∧ a.type ≠ 0 ∧ pages.available then some h.tail else none
      | _ => none
    | none => none
  | _ => none

/-- The tails of the threads that wait for a lock or hold one have a property. -/
structure Tails (P : Tail → Prop) (s : SysState) : Prop where
  waiting : ∀ t n tail, s.threads t = .waiting n tail → P tail
  holding : ∀ n m, s.mounts n = some m → ∀ h, m.holder = some h → P h.tail

/-- A mount with a given number is consistent. -/
def ConsistentAt (n : ℕ) (s : SysState) : Prop :=
  ∀ m, s.mounts n = some m → m.Consistent

/-- A system all of whose mounts are consistent, and will be. -/
structure Consistent (s : SysState) : Prop where
  tails : s.Tails Tail.Loggable
  mounts : ∀ n, s.ConsistentAt n

variable {s s' : SysState}

/-- A property of the mount with a given number survives the replacement of a mount by one that has
it, if it has this number. -/
theorem mount_setMount {P : Mount → Prop} {n n' : ℕ} {m' : Option Mount}
    (hs : ∀ m, s.mounts n = some m → P m) (hm' : n' = n → ∀ m, m' = some m → P m) :
    ∀ m, (s.setMount n' m').mounts n = some m → P m := by
  intro m hm
  by_cases hn : n = n'
  · subst hn
    rw [mounts_setMount_self] at hm
    exact hm' rfl m hm
  · rw [mounts_setMount_of_ne _ _ hn] at hm
    exact hs m hm

/-- A property of all mounts survives the replacement of one of them. -/
theorem forall_setMount {P : Mount → Prop} (hs : ∀ n m, s.mounts n = some m → P m) {n : ℕ}
    {m' : Option Mount} (hm' : ∀ m, m' = some m → P m) :
    ∀ n' m, (s.setMount n m').mounts n' = some m → P m :=
  fun n' => mount_setMount (hs n') fun _ => hm'

/-- Threads that wait for a lock keep waiting with their tails when another thread moves on. -/
theorem waiting_setThread {P : ℕ → Tail → Prop}
    (hs : ∀ t n tail, s.threads t = .waiting n tail → P t tail) {t : ℕ} {th : Thread}
    (hth : ∀ n tail, th = .waiting n tail → P t tail) :
    ∀ t' n tail, (s.setThread t th).threads t' = .waiting n tail → P t' tail := by
  intro t' n tail hwait
  by_cases ht : t' = t
  · subst ht
    rw [threads_setThread_self] at hwait
    exact hth n tail hwait
  · rw [threads_setThread_of_ne _ _ ht] at hwait
    exact hs t' n tail hwait

/-- The tail of a thread that has arrived is the tail of its operation. -/
theorem arrives_waiting {tail tail' : Tail} {n : ℕ} (h : tail.arrives = .waiting n tail') :
    tail' = tail := by
  unfold Tail.arrives at h
  split at h
  · cases h
    rfl
  · cases h

/-- **One step of the system** keeps a property of tails that the arriving operations have. -/
theorem Tails.step {P : Tail → Prop} (hs : s.Tails P) {e : Event}
    (he : ∀ t op, e = .arrive t op → P op.plan.tail) (hstep : s.step e = some s') : s'.Tails P := by
  have hfree (n : ℕ) {m : Mount} (hm : m.holder = none) :
      ∀ n' m', (s.setMount n (some m)).mounts n' = some m' →
        ∀ h, m'.holder = some h → P h.tail := by
    refine forall_setMount hs.holding ?_
    rintro _ ⟨⟩ h hh
    rw [hm] at hh
    cases hh
  cases steps_of_step hstep with
  | arrive t op hidle =>
    refine ⟨waiting_setThread hs.waiting fun n tail hwait => ?_, hs.holding⟩
    rw [arrives_waiting hwait]
    exact he t op rfl
  | lock t n tail m hwaiting hmount hfree =>
    refine ⟨waiting_setThread hs.waiting (by simp), forall_setMount hs.holding ?_⟩
    rintro _ ⟨⟩ h ⟨⟩
    exact hs.waiting t n tail hwaiting
  | work t n m h e k sb stage hholding hnext =>
    obtain ⟨-, hmount, hholder⟩ := holding_eq_some hholding
    refine ⟨hs.waiting, forall_setMount hs.holding ?_⟩
    rintro _ ⟨⟩ h' ⟨⟩
    exact hs.holding n m hmount h hholder
  | unlock t n m h hmount hholder hleaving =>
    exact ⟨waiting_setThread hs.waiting (by simp), hfree n rfl⟩
  | setBmap n umask m hmount hnone => exact ⟨hs.waiting, hfree n hnone⟩
  | mountBegins => exact ⟨hs.waiting, hs.holding⟩
  | mountFails hattempt => exact ⟨hs.waiting, hs.holding⟩
  | mount n trPage hattempt hnew =>
    refine ⟨hs.waiting, forall_setMount (s := s.endMount) hs.holding ?_⟩
    rintro _ ⟨⟩ h ⟨⟩
  | umount n m hmount hfree => exact ⟨hs.waiting, forall_setMount hs.holding (by simp)⟩

/-- The tail that an event fills is that of a holder. -/
theorem Tails.of_fills {P : Tail → Prop} (hs : s.Tails P) {n : ℕ} {e : Event} {tail : Tail}
    (h : s.fills n e = some tail) : P tail := by
  unfold fills at h
  split at h
  · split at h
    · next hholding =>
      obtain ⟨-, hmount, hholder⟩ := holding_eq_some hholding
      split at h
      · obtain ⟨-, htail⟩ := Option.ite_none_right_eq_some.mp h
        cases htail
        exact hs.holding _ _ hmount _ hholder
      · cases h
    · cases h
  · cases h

/-- A holder that fills a record for which there is something to log. -/
theorem fills_of_holding {t n : ℕ} {m : Mount} {h : Holder}
    (hholding : s.holding t = some (n, m, h)) {a : FillArgs} (hstage : h.stage = .masked a)
    (htype : a.type ≠ 0) {pages : PageEnv} (hpages : pages.available) :
    s.fills n (.work t (.fill pages)) = some h.tail := by
  simp only [fills, hholding, hstage]
  exact if_pos ⟨trivial, htype, hpages⟩

/-- **One step of the system** keeps a mount consistent, if the record that it fills there fits the
format or is stopped. -/
theorem ConsistentAt.step {n : ℕ} (hs : s.ConsistentAt n) {e : Event} (he : e.Completes)
    (hfills : ∀ tail, s.fills n e = some tail → tail.Loggable) (hstep : s.step e = some s') :
    s'.ConsistentAt n := by
  cases steps_of_step hstep with
  | arrive t op hidle => exact hs
  | lock t n' tail m hwaiting hmount hfree =>
    refine mount_setMount hs ?_
    rintro rfl _ ⟨⟩
    refine ⟨(hs m hmount).fits, fun hnone => (by cases hnone), ?_⟩
    rintro _ ⟨⟩
    exact (hs m hmount).free hfree
  | work t n' m h e k sb stage hholding hnext =>
    obtain ⟨-, hmount, hholder⟩ := holding_eq_some hholding
    refine mount_setMount hs ?_
    rintro rfl _ ⟨⟩
    refine (hs m hmount).work hholder he ?_ hnext
    rintro a pages hstage rfl htype hpages
    exact hfills h.tail (fills_of_holding hholding hstage htype hpages)
  | unlock t n' m h hmount hholder hleaving =>
    refine mount_setMount hs ?_
    rintro rfl _ ⟨⟩
    have hlog := (hs m hmount).held h hholder
    simp only [Mount.LogAt, hleaving] at hlog
    exact ⟨(hs m hmount).fits, fun _ => hlog, fun h' hh' => by cases hh'⟩
  | setBmap n' umask m hmount hfree =>
    refine mount_setMount hs ?_
    rintro rfl _ ⟨⟩
    refine ⟨(hs m hmount).fits, fun _ => (hs m hmount).free hfree, fun h' hh' => ?_⟩
    rw [show m.holder = some h' from hh'] at hfree
    cases hfree
  | mountBegins => exact hs
  | mountFails hattempt => exact hs
  | mount n' trPage hattempt hnew =>
    refine mount_setMount (s := s.endMount) hs ?_
    rintro rfl _ ⟨⟩
    exact Mount.consistent_fresh trPage
  | umount n' m hmount hfree => exact mount_setMount hs (by simp)

/-- **One step of the system** keeps it consistent. -/
theorem Consistent.step (hs : s.Consistent) {e : Event} (he : e.Sound)
    (hstep : s.step e = some s') : s'.Consistent where
  tails := by
    refine hs.tails.step ?_ hstep
    rintro t op rfl
    exact he
  mounts n := (hs.mounts n).step he.completes (fun tail h => hs.tails.of_fills h) hstep

/-- Before the first mount. -/
def boot (k : Kernel) : SysState where
  kernel := k
  mounts _ := none
  threads _ := .idle
  attempts := 0
  drawn := 0

/-- A system without mounts and without operations is consistent. -/
theorem consistent_boot (k : Kernel) : (boot k).Consistent where
  tails := ⟨fun t n tail h => by simp [boot] at h, fun n m h => by simp [boot] at h⟩
  mounts n m h := by simp [boot] at h

end SysState

/-- A run of sound events leaves the system consistent. -/
theorem consistent_run {k : Kernel} {es : List Event} {s : SysState}
    (hrun : run SysState.step (.boot k) es = some s) (hes : ∀ e ∈ es, e.Sound) : s.Consistent :=
  run_invariant (fun _ _ _ hs he hstep => SysState.Consistent.step hs he hstep)
    (SysState.consistent_boot k) (runAllowed_of_forall (fun e he _ => hes e he) _) hrun

/-! ### Concrete runs -/

/-- One operation of a thread from its arrival at the tail to its return, when it is traced and
nothing fails. -/
def wholeOp (t : ℕ) (op : TracedOp) : List Event :=
  [.arrive t op, .lock t, .work t .mask, .work t (.fill ⟨some 0, some 1⟩),
    .work t (.writeHeader .complete), .work t (.writeAux .complete), .unlock t]

/-- The log of mount zero after a list of events, if its lock is free. -/
def logAfterEvents (es : List Event) : Option LogFile :=
  (run SysState.step (.boot ⟨0, [], []⟩) es).bind fun s =>
    (s.mounts 0).bind fun m => if m.holder = none then some m.sb.log else none

/-- Reading off the state. -/
theorem exists_of_logAfterEvents {es : List Event} {log : LogFile}
    (h : logAfterEvents es = some log) :
    ∃ s m, run SysState.step (.boot ⟨0, [], []⟩) es = some s ∧ s.mounts 0 = some m ∧
      m.holder = none ∧ m.sb.log = log := by
  obtain ⟨s, hrun, hs⟩ := Option.bind_eq_some_iff.mp h
  obtain ⟨m, hm, hlog⟩ := Option.bind_eq_some_iff.mp hs
  split at hlog
  · next hfree =>
    cases hlog
    exact ⟨s, m, hrun, hm, hfree, rfl⟩
  · cases hlog

/-- A free lock is at rest. -/
theorem Mount.atRest_of_free {m : Mount} (h : m.holder = none) : m.AtRest := by
  intro h' r ret hh'
  rw [h] at hh'
  cases hh'

/-- The directory `/l` is created. -/
def mkdirL : TracedOp :=
  .mkdir ⟨0⟩ 0 dentryL 0 0 0

/-- A byte is written to `/l`. -/
def writeL : TracedOp :=
  .write ⟨dentryL, ⟨0⟩⟩ 1 (.user [97]) 1 1

/-- A mount on which `/l` is created as a directory. -/
def mkdirEvents : List Event :=
  .mountBegins :: .mount 0 [] :: wholeOp 0 mkdirL

/-- The record of `mkdirL` is within the format. -/
theorem fits_mkdirL : mkdirL.plan.tail.Fits :=
  mkdirL.fits_of_withinFormat ⟨by decide, trivial⟩

/-- An operation whose writes complete keeps the logs in order. -/
theorem sound_wholeOp {t : ℕ} {op : TracedOp} (h : op.plan.tail.Loggable) :
    ∀ e ∈ wholeOp t op, e.Sound := by
  simp [wholeOp, Event.Sound, TailStep.Completes, h]

/-- Creating `/l` keeps the logs in order. -/
theorem sound_mkdirEvents : ∀ e ∈ mkdirEvents, e.Sound := by
  intro e he
  rcases List.mem_cons.mp he with rfl | he
  · exact trivial
  · rcases List.mem_cons.mp he with rfl | he
    · exact trivial
    · exact sound_wholeOp (.inl fits_mkdirL) e he

end Trfs
