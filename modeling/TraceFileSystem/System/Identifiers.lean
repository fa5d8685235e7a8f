import TraceFileSystem.System.Headers

/-!
# Record numbers

The counter `trecord_id` is shared by all mounts, and every attempt to mount trfs, successful or
not, sets it back.  As long as attempts are made only while no live log contains anything and no
record is on its way into one, the numbers in every log increase (`idsIncrease_of_run`).  A failed
attempt between two operations is enough for a number to come twice (`not_idsIncrease_remount`).

The result has two parts.  In any run the numbers of the headers in a log increase in the order in
which they stand in it, whatever becomes of the rest of the records.  In a run that keeps the logs
in order the log of a mount at rest is a list of records, and their numbers increase.
-/

namespace Trfs

open LabelledSystem

/-- The log consists of complete records whose numbers increase from record to record. -/
def LogFile.IdsIncrease (log : LogFile) : Prop :=
  ∃ rs : List LogRecord, (∀ r ∈ rs, r.WellFormed) ∧ log.committed = frames rs ∧
    (rs.map fun r => r.hdr.recId.toNat).Pairwise (· < ·)

namespace Mount

/-- The headers stand in the log one behind the other, and their numbers increase. -/
def HeadersIncrease (m : Mount) : Prop :=
  (∀ p ∈ m.headers, p.1 + recIdSize ≤ m.sb.log.data.length ∧ m.sb.log.recIdAt p.1 = p.2) ∧
    m.headers.Pairwise fun p q => p.1 + recIdSize ≤ q.1 ∧ p.2.toNat < q.2.toNat

/-- A mount that is left alone by a reset of the counter: its log is empty, and no record is on its
way into it. -/
def Untouched (m : Mount) : Prop :=
  m.sb.log.data = [] ∧ m.Idle

end Mount

/-- The events that keep the numbers increasing: the counter is reset only while all mounts are
untouched. -/
def Event.KeepsIds (s : SysState) : Event → Prop
  | .mountBegins => ∀ n m, s.mounts n = some m → m.Untouched
  | _ => True

/-! ### One mount -/

namespace Mount

/-- An untouched mount has no numbers. -/
theorem Placed.headerIds_eq_nil {m : Mount} (hm : m.Placed) (hu : m.Untouched) :
    m.headerIds = [] := by
  have hnil : m.headers = [] := by
    apply List.eq_nil_iff_forall_not_mem.mpr
    intro p hp
    have hlen := hm.within p hp
    rw [hu.1, List.length_nil, recIdSize] at hlen
    omega
  rw [headerIds_of_unfilled hu.2.2, hnil, List.map_nil]

end Mount

/-! ### The system -/

namespace SysState

/-- The numbers on every mount increase and are below the next number, which has not wrapped
around. -/
structure Ordered (s : SysState) (c : ℕ) : Prop where
  le_drawn : c ≤ s.drawn
  counter : (0 < s.attempts ∨ ∃ n m, s.mounts n = some m) →
    s.kernel.trecordId + 1 = BitVec.ofNat 32 c
  ids : ∀ n m, s.mounts n = some m → m.headerIds.Pairwise (· < ·) ∧ ∀ i ∈ m.headerIds, i < c

/-- The headers of all mounts are in place, and as long as fewer than `2 ^ 32` numbers have been
drawn, the numbers increase. -/
structure Numbered (s : SysState) : Prop where
  placed : ∀ n m, s.mounts n = some m → m.Placed
  ordered : s.drawn < 2 ^ 32 → ∃ c, s.Ordered c

variable {s s' : SysState} {c : ℕ}

/-- A step never takes numbers back. -/
theorem drawn_le_of_step {e : Event} (hstep : s.step e = some s') : s.drawn ≤ s'.drawn := by
  cases steps_of_step hstep with
  | work t n m h e k sb stage hholding hnext => exact Nat.le_add_right _ _
  | _ => exact le_rfl

/-- Appending the next number to a list of numbers below it. -/
theorem pairwise_concat {ids : List ℕ} (h : ids.Pairwise (· < ·)) (hlt : ∀ i ∈ ids, i < c) :
    (ids ++ [c]).Pairwise (· < ·) ∧ ∀ i ∈ ids ++ [c], i < c + 1 := by
  constructor
  · rw [List.pairwise_append]
    refine ⟨h, List.pairwise_singleton _ _, fun i hi j hj => ?_⟩
    rw [List.mem_singleton] at hj
    rw [hj]
    exact hlt i hi
  · intro i hi
    rw [List.mem_append, List.mem_singleton] at hi
    rcases hi with hi | rfl
    · exact (hlt i hi).trans (Nat.lt_succ_self c)
    · exact Nat.lt_succ_self i

/-- The step in which the holder of a lock may draw a number. -/
theorem Ordered.work (hs : s.Ordered c) {n : ℕ} {m m' : Mount} {k : Kernel}
    (hmount : s.mounts n = some m) (hdraws : Draws s.kernel k m.headerIds m'.headerIds)
    (hdrawn : s.drawn + drawsNumber s.kernel k < 2 ^ 32) :
    ∃ c', Ordered { s.setMount n (some m') with
      kernel := k, drawn := s.drawn + drawsNumber s.kernel k } c' := by
  have hcounter := hs.counter (.inr ⟨n, m, hmount⟩)
  obtain ⟨hincr, hlt⟩ := hs.ids n m hmount
  rcases hdraws with ⟨hid, hsub⟩ | ⟨hid, hsub⟩
  · refine ⟨c, hs.le_drawn.trans (Nat.le_add_right _ _), fun _ => ?_, forall_setMount hs.ids ?_⟩
    · dsimp only
      rw [hid, hcounter]
    · rintro _ ⟨⟩
      exact ⟨hincr.sublist hsub, fun i hi => hlt i (hsub.subset hi)⟩
  · have hone : drawsNumber s.kernel k = 1 := by
      have hne : s.kernel.trecordId + 1 ≠ s.kernel.trecordId := by simp
      rw [drawsNumber, hid, if_neg hne]
    have hc := hs.le_drawn
    rw [hone] at hdrawn ⊢
    have hnat : (s.kernel.trecordId + 1).toNat = c := by
      rw [hcounter, BitVec.toNat_ofNat, Nat.mod_eq_of_lt (by omega)]
    rw [hnat] at hsub
    obtain ⟨hincr', hlt'⟩ := pairwise_concat hincr hlt
    refine ⟨c + 1, Nat.succ_le_succ hc, fun _ => ?_, forall_setMount ?_ ?_⟩
    · dsimp only
      rw [hid, hcounter, BitVec.ofNat_add]
      rfl
    · intro n' m'' hm''
      obtain ⟨hincr'', hlt''⟩ := hs.ids n' m'' hm''
      exact ⟨hincr'', fun i hi => (hlt'' i hi).trans (Nat.lt_succ_self c)⟩
    · rintro _ ⟨⟩
      exact ⟨hincr'.sublist hsub, fun i hi => hlt' i (hsub.subset hi)⟩

/-- After a reset of the counter that finds all mounts untouched, zero is the next number. -/
theorem Numbered.beginMount (hs : s.Numbered) (hu : ∀ n m, s.mounts n = some m → m.Untouched) :
    s.beginMount.Numbered where
  placed := hs.placed
  ordered _ := by
    have hcounter : (-1 : CInt) + 1 = BitVec.ofNat 32 0 := by decide
    refine ⟨0, Nat.zero_le _, fun _ => hcounter, fun n m hm => ?_⟩
    rw [(hs.placed n m hm).headerIds_eq_nil (hu n m hm)]
    exact ⟨List.Pairwise.nil, by simp⟩

/-- What the threads do does not matter. -/
theorem Numbered.setThread (hs : s.Numbered) (t : ℕ) (th : Thread) :
    (s.setThread t th).Numbered where
  placed := hs.placed
  ordered hdrawn := by
    obtain ⟨c, hord⟩ := hs.ordered hdrawn
    exact ⟨c, hord.le_drawn, hord.counter, hord.ids⟩

/-- Replacing a mount by one with the same log and the same headers, when no record is on its way
into the log. -/
theorem Numbered.setMount (hs : s.Numbered) {n : ℕ} {m m' : Mount} (hm : s.mounts n = some m)
    (hlog : m'.sb.log = m.sb.log) (hheaders : m'.headers = m.headers) (hfilled : m.Unfilled)
    (hfilled' : m'.Unfilled) : (s.setMount n (some m')).Numbered where
  placed := by
    refine forall_setMount hs.placed ?_
    rintro _ ⟨⟩
    exact (hs.placed n m hm).of_eq hlog hheaders hfilled'
  ordered hdrawn := by
    obtain ⟨c, hord⟩ := hs.ordered hdrawn
    refine ⟨c, hord.le_drawn, fun _ => hord.counter (.inr ⟨n, m, hm⟩), forall_setMount hord.ids ?_⟩
    rintro _ ⟨⟩
    have hids := hord.ids n m hm
    rw [Mount.headerIds_of_unfilled hfilled] at hids
    rw [Mount.headerIds_of_unfilled hfilled', hheaders]
    exact hids

/-- **One step of the system** keeps the headers in place and the numbers increasing. -/
theorem Numbered.step (hs : s.Numbered) {e : Event} (he : e.KeepsIds s)
    (hstep : s.step e = some s') : s'.Numbered := by
  have hdrawn := drawn_le_of_step hstep
  cases steps_of_step hstep with
  | arrive t op hidle => exact hs.setThread t _
  | lock t n tail m hwaiting hmount hfree =>
    apply Numbered.setThread
    exact hs.setMount hmount rfl rfl (Mount.unfilled_of_free hfree)
      (Mount.unfilled_of_holder rfl (by simp))
  | work t n m h e k sb stage hholding hnext =>
    obtain ⟨-, hmount, hholder⟩ := holding_eq_some hholding
    obtain ⟨hplaced, hdraws⟩ := (hs.placed n m hmount).work hholder hnext
    refine ⟨?_, fun hlt => ?_⟩
    · refine forall_setMount hs.placed ?_
      rintro _ ⟨⟩
      exact hplaced
    · obtain ⟨c, hord⟩ := hs.ordered (hdrawn.trans_lt hlt)
      exact hord.work hmount hdraws hlt
  | unlock t n m h hmount hholder hleaving =>
    apply Numbered.setThread
    exact hs.setMount hmount rfl rfl (Mount.unfilled_of_holder hholder (by simp [hleaving]))
      (Mount.unfilled_of_free rfl)
  | setBmap n umask m hmount hfree =>
    exact hs.setMount hmount rfl rfl (Mount.unfilled_of_free hfree) (Mount.unfilled_of_free hfree)
  | mountBegins => exact hs.beginMount he
  | mountFails hattempt =>
    refine ⟨hs.placed, fun hlt => ?_⟩
    obtain ⟨c, hord⟩ := hs.ordered hlt
    exact ⟨c, hord.le_drawn, fun _ => hord.counter (.inl hattempt), hord.ids⟩
  | mount n trPage hattempt hnew =>
    refine ⟨?_, fun hlt => ?_⟩
    · refine forall_setMount (s := s.endMount) hs.placed ?_
      rintro _ ⟨⟩
      exact Mount.placed_fresh trPage
    · obtain ⟨c, hord⟩ := hs.ordered hlt
      refine ⟨c, hord.le_drawn, fun _ => hord.counter (.inl hattempt),
        forall_setMount (s := s.endMount) hord.ids ?_⟩
      rintro _ ⟨⟩
      exact ⟨List.Pairwise.nil, by simp [Mount.headerIds, Mount.fresh]⟩
  | umount n m hmount hfree =>
    refine ⟨forall_setMount hs.placed (by simp), fun hlt => ?_⟩
    obtain ⟨c, hord⟩ := hs.ordered hlt
    exact ⟨c, hord.le_drawn, fun _ => hord.counter (.inr ⟨n, m, hmount⟩),
      forall_setMount hord.ids (by simp)⟩

end SysState

/-! ### Logs in order -/

namespace Mount

/-- The numbers that were given out on a mount. -/
def ids (m : Mount) : List ℕ :=
  m.numbered.map fun p => p.2.toNat

/-- The numbers of the records of a mount are the numbers that were given out. -/
theorem map_recId_records (m : Mount) : m.records.map (fun r => r.hdr.recId.toNat) = m.ids := by
  rw [records, List.map_map, ids]
  rfl

variable {m : Mount} {k k' : Kernel} {h : Holder} {sb : SbInfo} {stage : Stage} {e : TailStep}

/-- No header is lost while the position does not move back. -/
theorem Placed.filter_eq (hm : m.Placed) (hle : m.sb.log.fPos ≤ sb.log.fPos) :
    (m.headers.filter fun p => p.1 + recIdSize ≤ sb.log.fPos.toNat) = m.headers := by
  apply List.filter_eq_self.mpr
  intro p hp
  have hbefore := hm.before p hp
  exact decide_eq_true (hbefore.trans (Int.toNat_le_toNat hle))

/-- The headers after a step that writes none and does not move the position back. -/
theorem Placed.headersAfter_eq (hm : m.Placed) (hle : m.sb.log.fPos ≤ sb.log.fPos)
    (hheader : ∀ r ret, stage ≠ .header r ret) : m.headersAfter sb stage = m.headers := by
  unfold headersAfter
  cases stage with
  | header r ret => exact absurd rfl (hheader r ret)
  | _ => exact hm.filter_eq hle

/-- The headers after a step that writes one. -/
theorem Placed.headersAfter_header_eq (hm : m.Placed) (r : TrRecord) (ret : ℤ)
    (hlt : m.sb.log.fPos.toNat + recIdSize ≤ sb.log.fPos.toNat) :
    m.headersAfter sb (.header r ret) = m.headers ++ [(m.sb.log.fPos.toNat, r.recId)] := by
  have hmove : m.sb.log.fPos < sb.log.fPos := by
    rw [recIdSize] at hlt
    omega
  have hlast : ([(m.sb.log.fPos.toNat, r.recId)].filter fun p : ℕ × CInt =>
      p.1 + recIdSize ≤ sb.log.fPos.toNat) = [(m.sb.log.fPos.toNat, r.recId)] := by
    simp [hlt]
  unfold headersAfter
  dsimp only
  rw [if_pos hmove, List.filter_append, hm.filter_eq hmove.le, hlast]

/-- A step that leaves the numbers in the log and the numbers given out as they are. -/
theorem Placed.headerIds_quiet (hm : m.Placed) (hh : m.holder = some h)
    (hpending : h.stage.pending = []) (hle : m.sb.log.fPos ≤ sb.log.fPos)
    (hfilled : ∀ r, stage ≠ .filled r) (hheader : ∀ r ret, stage ≠ .header r ret)
    (hids : m.headerIds = m.ids) :
    (m.after h e sb stage).headerIds = (m.after h e sb stage).ids := by
  have hids' : (m.after h e sb stage).ids = m.ids := by
    unfold after ids
    cases stage with
    | filled r => exact absurd rfl (hfilled r)
    | _ => rfl
  have hnone : stage.pending = [] := by
    cases stage with
    | filled r => exact absurd rfl (hfilled r)
    | _ => rfl
  rw [headerIds_of_holder hh, hpending] at hids
  rw [headerIds_after, hm.headersAfter_eq hle hheader, hnone, hids', hids]

/-- While the logs stay in order, the numbers in the log and on their way into it are the numbers
that were given out. -/
theorem Consistent.headerIds_work (hm : m.Consistent) (hp : m.Placed) (hh : m.holder = some h)
    (he : e.Completes) (hnext : h.stage.next k m.sb h.tail e = some (k', sb, stage))
    (hids : m.headerIds = m.ids) :
    (m.after h e sb stage).headerIds = (m.after h e sb stage).ids := by
  cases hstage : h.stage with
  | locked =>
    cases e with
    | mask =>
      rw [hstage] at hnext
      cases hnext
      exact hp.headerIds_quiet hh (by rw [hstage]; rfl) le_rfl (by simp) (by simp) hids
    | _ => rw [hstage] at hnext; cases hnext
  | masked a =>
    cases e with
    | fill pages =>
      have hpending : h.stage.pending = [] := by rw [hstage]; rfl
      rw [hstage, Stage.next] at hnext
      rcases fillRecord_cases pages k a with
        ⟨k₁, code, hfill, -⟩ | ⟨fault, hfill⟩ | ⟨k₁, r, hfill, -⟩
      · rw [hfill] at hnext
        cases hnext
        exact hp.headerIds_quiet hh hpending le_rfl (by simp) (by simp) hids
      · rw [hfill] at hnext
        cases hnext
        exact hp.headerIds_quiet hh hpending le_rfl (by simp) (by simp) hids
      · rw [hfill] at hnext
        cases hnext
        have hids' : (m.after h (.fill pages) m.sb (.filled r)).ids = m.ids ++ [r.recId.toNat] :=
          List.map_append
        rw [headerIds_of_holder hh, hpending, List.append_nil] at hids
        rw [headerIds_after, hp.headersAfter_eq le_rfl (by simp), hids, hids']
        rfl
    | _ => rw [hstage] at hnext; cases hnext
  | filled r =>
    cases e with
    | writeHeader o =>
      obtain rfl : o = .complete := he
      obtain ⟨-, ret, prev, rfl, -, hlog, hlog'⟩ := hm.next_header hh hstage hnext
      rw [headerIds_of_holder hh, hstage] at hids
      rw [headerIds_after, hp.headersAfter_header_eq r ret ?_, List.map_append]
      · exact (List.append_nil _).trans hids
      · have hsize : recIdSize ≤ headerSize := by decide
        rw [hlog, hlog']
        simp only [LogFile.holding, List.length_append, Header.length_bytes]
        omega
    | _ => rw [hstage] at hnext; cases hnext
  | header r ret =>
    cases e with
    | writeAux o =>
      obtain rfl : o = .complete := he
      obtain ⟨-, rfl, hle, -⟩ := hm.next_aux hh hstage hnext
      exact hp.headerIds_quiet hh (by rw [hstage]; rfl) hle (by simp) (by simp) hids
    | _ => rw [hstage] at hnext; cases hnext
  | leaving => cases e <;> rw [hstage] at hnext <;> cases hnext
  | dead => cases e <;> rw [hstage] at hnext <;> cases hnext

/-- The same for a change that concerns neither the headers nor the numbers, when no record is on
its way into the log. -/
theorem headerIds_eq_of_unfilled {m m' : Mount} (hids : m.headerIds = m.ids)
    (hheaders : m'.headers = m.headers) (hnumbered : m'.numbered = m.numbered)
    (hfilled : m.Unfilled) (hfilled' : m'.Unfilled) : m'.headerIds = m'.ids := by
  rw [headerIds_of_unfilled hfilled] at hids
  rw [headerIds_of_unfilled hfilled', hheaders, hids, ids, ids, hnumbered]

end Mount

namespace SysState

variable {s s' : SysState}

/-- **One step of the system** that keeps the logs in order: the numbers in the logs and on their
way into them are the numbers that were given out. -/
theorem Consistent.headerIds_step (hcons : s.Consistent)
    (hplaced : ∀ n m, s.mounts n = some m → m.Placed)
    (hids : ∀ n m, s.mounts n = some m → m.headerIds = m.ids) {e : Event} (he : e.Sound)
    (hstep : s.step e = some s') : ∀ n m, s'.mounts n = some m → m.headerIds = m.ids := by
  cases steps_of_step hstep with
  | arrive t op hidle => exact hids
  | lock t n tail m hwaiting hmount hfree =>
    refine forall_setMount hids ?_
    rintro _ ⟨⟩
    exact Mount.headerIds_eq_of_unfilled (hids n m hmount) rfl rfl (Mount.unfilled_of_free hfree)
      (Mount.unfilled_of_holder rfl (by simp))
  | work t n m h e k sb stage hholding hnext =>
    obtain ⟨-, hmount, hholder⟩ := holding_eq_some hholding
    refine forall_setMount hids ?_
    rintro _ ⟨⟩
    exact (hcons.mounts n m hmount).headerIds_work (hplaced n m hmount) hholder he hnext
      (hids n m hmount)
  | unlock t n m h hmount hholder hleaving =>
    refine forall_setMount hids ?_
    rintro _ ⟨⟩
    exact Mount.headerIds_eq_of_unfilled (hids n m hmount) rfl rfl
      (Mount.unfilled_of_holder hholder (by simp [hleaving])) (Mount.unfilled_of_free rfl)
  | setBmap n umask m hmount hfree =>
    refine forall_setMount hids ?_
    rintro _ ⟨⟩
    exact Mount.headerIds_eq_of_unfilled (hids n m hmount) rfl rfl (Mount.unfilled_of_free hfree)
      (Mount.unfilled_of_free hfree)
  | mountBegins => exact hids
  | mountFails hattempt => exact hids
  | mount n trPage hattempt hnew =>
    refine forall_setMount (s := s.endMount) hids ?_
    rintro _ ⟨⟩
    rfl
  | umount n m hmount hfree => exact forall_setMount hids (by simp)

/-- Before the first mount there are no numbers. -/
theorem numbered_boot (k : Kernel) : (boot k).Numbered where
  placed n m h := by simp [boot] at h
  ordered _ := by
    refine ⟨0, le_rfl, ?_, fun n m h => by simp [boot] at h⟩
    rintro (hattempt | ⟨n, m, hm⟩)
    · exact absurd hattempt (lt_irrefl 0)
    · cases hm

/-- In a run that keeps the logs in order as well, the numbers in the log of a mount at rest
increase. -/
theorem Numbered.idsIncrease (hs : s.Numbered) (hcons : s.Consistent) (hdrawn : s.drawn < 2 ^ 32)
    {n : ℕ} {m : Mount} (hm : s.mounts n = some m) (hids : m.headerIds = m.ids) (hrest : m.AtRest) :
    m.sb.log.IdsIncrease := by
  obtain ⟨c, hord⟩ := hs.ordered hdrawn
  have hmount := hcons.mounts n m hm
  obtain ⟨rs, hpre, hlog⟩ := hmount.log_of_atRest hrest
  refine ⟨rs, fun r hr => hmount.wellFormed r (hpre.subset hr), ?_, ?_⟩
  · rw [hlog, LogFile.committed_holding]
  · have hincr := (hord.ids n m hm).1
    rw [hids, ← m.map_recId_records] at hincr
    exact hincr.sublist (hpre.sublist.map _)

/-- The headers in the log of a mount increase. -/
theorem Numbered.headersIncrease (hs : s.Numbered) (hdrawn : s.drawn < 2 ^ 32) {n : ℕ} {m : Mount}
    (hm : s.mounts n = some m) : m.HeadersIncrease := by
  obtain ⟨c, hord⟩ := hs.ordered hdrawn
  have hplaced := hs.placed n m hm
  have hincr : (m.headers.map fun p => p.2.toNat).Pairwise (· < ·) :=
    (hord.ids n m hm).1.sublist (List.sublist_append_left _ _)
  rw [List.pairwise_map] at hincr
  exact ⟨fun p hp => ⟨hplaced.within p hp, hplaced.recIdAt_eq p hp⟩, hplaced.apart.and hincr⟩

end SysState

/-- **Numbers increase.**  In every run in which mounts are attempted only while every live mount is
untouched, and in which fewer than `2 ^ 32` numbers have been drawn, the headers in the log of every
mount stand one behind the other and their numbers increase.  If the run also keeps the logs in
order, the log of every mount at rest is a list of records with increasing numbers. -/
theorem idsIncrease_of_run {k : Kernel} {es : List Event} {s : SysState}
    (hrun : run SysState.step (.boot k) es = some s)
    (hes : RunAllowed SysState.step Event.KeepsIds (.boot k) es) (hdrawn : s.drawn < 2 ^ 32) {n : ℕ}
    {m : Mount} (hm : s.mounts n = some m) :
    m.HeadersIncrease ∧ ((∀ e ∈ es, e.Sound) → m.AtRest → m.sb.log.IdsIncrease) := by
  have hs : s.Numbered :=
    run_invariant (fun _ _ _ hs he hstep => SysState.Numbered.step hs he hstep)
      (SysState.numbered_boot k) hes hrun
  refine ⟨hs.headersIncrease hdrawn hm, fun hsound hrest => ?_⟩
  have hstep (s : SysState) (e : Event) (s' : SysState)
      (hinv : (s.Consistent ∧ s.Numbered) ∧ ∀ n m, s.mounts n = some m → m.headerIds = m.ids)
      (he : e.KeepsIds s ∧ e.Sound) (hstep : s.step e = some s') :
      (s'.Consistent ∧ s'.Numbered) ∧ ∀ n m, s'.mounts n = some m → m.headerIds = m.ids := by
    obtain ⟨⟨hcons, hnum⟩, hids⟩ := hinv
    exact ⟨⟨hcons.step he.2 hstep, hnum.step he.1 hstep⟩,
      hcons.headerIds_step hnum.placed hids he.2 hstep⟩
  have hboot : ((SysState.boot k).Consistent ∧ (SysState.boot k).Numbered) ∧
      ∀ n m, (SysState.boot k).mounts n = some m → m.headerIds = m.ids :=
    ⟨⟨SysState.consistent_boot k, SysState.numbered_boot k⟩, fun n m hm => by cases hm⟩
  obtain ⟨⟨hcons, -⟩, hids⟩ := run_invariant hstep hboot
    (hes.and (runAllowed_of_forall (fun e he _ => hsound e he) _)) hrun
  exact hs.idsIncrease hcons hdrawn hm (hids n m hm) hrest

/-- Operations do not reset the counter. -/
theorem keepsIds_wholeOp (t : ℕ) (op : TracedOp) (s : SysState) :
    ∀ e ∈ wholeOp t op, e.KeepsIds s := by
  simp [wholeOp, Event.KeepsIds]

/-- The headers of mount zero after a list of events. -/
def headersAfterEvents (es : List Event) : Option (List (ℕ × CInt)) :=
  (run SysState.step (.boot ⟨0, [], []⟩) es).bind fun s => (s.mounts 0).map Mount.headers

/-- A second mount attempt fails while the log of the first mount is empty.  Then two threads write
a byte each. -/
def earlyAttempt : List Event :=
  .mountBegins :: .mount 0 [] :: .mountBegins :: .mountFails ::
    (wholeOp 0 writeL ++ wholeOp 1 writeL)

/-- A new mount is untouched. -/
theorem Mount.untouched_fresh (trPage : List UInt8) : (Mount.fresh trPage).Untouched := by
  refine ⟨rfl, Mount.atRest_of_free rfl, fun h r hholder => ?_⟩
  cases hholder

/-- Both attempts find untouched mounts only. -/
theorem keepsIds_earlyAttempt :
    RunAllowed SysState.step Event.KeepsIds (.boot ⟨0, [], []⟩) earlyAttempt := by
  refine ⟨fun n m hm => (by cases hm), fun s hs => ⟨trivial, fun s' hs' => ⟨fun n m hm => ?_,
    fun _ _ => ⟨trivial, fun _ _ => runAllowed_of_forall (fun e he s => ?_) _⟩⟩⟩⟩
  · cases hs
    cases hs'
    by_cases hn : n = 0
    · subst hn
      cases hm
      exact Mount.untouched_fresh []
    · have hnone := hm
      simp only [SysState.setMount, Function.update_of_ne hn] at hnone
      cases hnone
  · rcases List.mem_append.mp he with he | he
    · exact keepsIds_wholeOp 0 writeL s e he
    · exact keepsIds_wholeOp 1 writeL s e he

/-- The record of `writeL` is within the format. -/
theorem fits_writeL : writeL.plan.tail.Fits :=
  writeL.fits_of_withinFormat ⟨by decide, [97], rfl, rfl, by decide, by decide⟩

/-- The writes keep the logs in order. -/
theorem sound_earlyAttempt : ∀ e ∈ earlyAttempt, e.Sound := by
  have hloggable : writeL.plan.tail.Loggable := .inl fits_writeL
  simp [earlyAttempt, wholeOp, Event.Sound, TailStep.Completes, hloggable]

/-- The two records have the numbers zero and one. -/
theorem idsIncrease_earlyAttempt :
    ∃ s m, run SysState.step (.boot ⟨0, [], []⟩) earlyAttempt = some s ∧ s.mounts 0 = some m ∧
      m.headers = [(0, 0), (35, 1)] ∧ m.HeadersIncrease ∧ m.sb.log.IdsIncrease := by
  have hlog : logAfterEvents earlyAttempt = some (.holding (frames
      [writeL.plan.tail.args.logRecord 0, writeL.plan.tail.args.logRecord 1])) := by
    decide +kernel
  have hdrawn : (run SysState.step (.boot ⟨0, [], []⟩) earlyAttempt).map SysState.drawn =
      some 2 := by
    decide +kernel
  have hheaders : headersAfterEvents earlyAttempt = some [(0, 0), (35, 1)] := by
    decide +kernel
  obtain ⟨s, m, hrun, hm, hfree, -⟩ := exists_of_logAfterEvents hlog
  rw [hrun, Option.map_some, Option.some_inj] at hdrawn
  rw [headersAfterEvents, hrun, Option.bind_some, hm, Option.map_some, Option.some_inj] at hheaders
  obtain ⟨hincr, hids⟩ := idsIncrease_of_run hrun keepsIds_earlyAttempt (by rw [hdrawn]; decide) hm
  exact ⟨s, m, hrun, hm, hheaders, hincr, hids sound_earlyAttempt (Mount.atRest_of_free hfree)⟩

/-- A failed mount attempt between two operations on the first mount. -/
def remountEvents : List Event :=
  .mountBegins :: .mount 0 [] ::
    (wholeOp 0 mkdirL ++ .mountBegins :: .mountFails :: wholeOp 0 mkdirL)

/-- Both records get the number zero. -/
theorem not_idsIncrease_remount :
    ∃ s m, run SysState.step (.boot ⟨0, [], []⟩) remountEvents = some s ∧ s.mounts 0 = some m ∧
      m.holder = none ∧ s.drawn < 2 ^ 32 ∧ ¬m.HeadersIncrease ∧ ¬m.sb.log.IdsIncrease := by
  have hlog : logAfterEvents remountEvents = some (.holding (frames
      [mkdirL.plan.tail.args.logRecord 0, mkdirL.plan.tail.args.logRecord 0])) := by
    decide +kernel
  have hdrawn :
      (run SysState.step (.boot ⟨0, [], []⟩) remountEvents).map SysState.drawn = some 2 := by
    decide +kernel
  have hheaders : headersAfterEvents remountEvents = some [(0, 0), (34, 0)] := by
    decide +kernel
  obtain ⟨s, m, hrun, hm, hfree, hlog⟩ := exists_of_logAfterEvents hlog
  rw [hrun, Option.map_some, Option.some_inj] at hdrawn
  rw [headersAfterEvents, hrun, Option.bind_some, hm, Option.map_some, Option.some_inj] at hheaders
  refine ⟨s, m, hrun, hm, hfree, by rw [hdrawn]; decide, ?_, ?_⟩
  · rintro ⟨-, hincr⟩
    rw [hheaders] at hincr
    simp at hincr
  · rintro ⟨rs, hwf, hcommitted, hincr⟩
    have hrecords : ∀ r ∈ [mkdirL.plan.tail.args.logRecord 0, mkdirL.plan.tail.args.logRecord 0],
        r.WellFormed := by
      intro r hr
      rw [List.mem_pair, or_self] at hr
      rw [hr]
      exact FillArgs.wellFormed_logRecord fits_mkdirL 0
    rw [hlog, LogFile.committed_holding] at hcommitted
    have hrs := frames_inj hrecords hwf hcommitted
    rw [← hrs] at hincr
    simp at hincr

end Trfs
