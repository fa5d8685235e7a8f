import TraceFileSystem.System.Consistency

/-!
# The headers in a log

Whatever the threads do and whatever becomes of their writes, the headers in the log of a mount
stand one behind the other, and the number of each is read back from where it stands.  Nothing is
assumed about sizes or about the outcomes of writes: a header may be followed by less than its
record needs, and data may stand in the log without a header.

* `LogFile.Keeps` says that a log keeps what stands before its position.
* `Mount.Placed` is the invariant of a mount and `Mount.Placed.work` the step lemma for the holder
  of its lock, which also says how the numbers in the log follow the counter (`Draws`).
-/

namespace Trfs

open LabelledSystem

/-- What stands in the log before its position is still there afterwards. -/
def LogFile.Keeps (log log' : LogFile) : Prop :=
  ∀ n, n ≤ log.fPos.toNat → n ≤ log.data.length →
    log'.data.take n = log.data.take n ∧ n ≤ log'.data.length

/-- A log keeps what is in it when nothing happens. -/
theorem LogFile.keeps_refl (log : LogFile) : log.Keeps log :=
  fun _ _ hn => ⟨rfl, hn⟩

/-- A write of `append_record` keeps what is in the log. -/
theorem LogFile.keeps_writeAdvance (log : LogFile) (o : WriteOutcome) (src : List UInt8)
    (count : ℤ) : log.Keeps (log.writeAdvance o src count).1 :=
  fun _ hpos hn => take_writeAdvance hpos hn

/-- The second half of `append_record` keeps what is in the log. -/
theorem appendAux_keeps {sb sb' : SbInfo} {k k' : Kernel} {r : TrRecord} {o : WriteOutcome}
    {ret ret' : ℤ} (h : appendAux sb k r o ret = .ok (sb', k', ret')) :
    k'.trecordId = k.trecordId ∧ sb.log.Keeps sb'.log := by
  unfold appendAux at h
  split at h
  · split at h
    · cases h
    · cases h
      exact ⟨rfl, sb.log.keeps_refl⟩
  · cases h
    refine ⟨?_, sb.log.keeps_writeAdvance _ _ _⟩
    split
    · rfl
    · exact Kernel.freePage_trecordId k r.aux

/-! ### The holder of a lock -/

namespace Stage

/-- The number that is on its way into the log. -/
def pending : Stage → List ℕ
  | .filled r => [r.recId.toNat]
  | _ => []

/-- What one step of the holder of a lock can do, whatever the record and the outcomes of the
writes. -/
inductive Progress (k : Kernel) (sb : SbInfo) : Stage → Kernel → SbInfo → Stage → Prop
  /-- No header is written, and no number is left to be written. -/
  | quiet {stage stage' : Stage} {k' : Kernel} {sb' : SbInfo}
      (hid : k'.trecordId = k.trecordId ∨ k'.trecordId = k.trecordId + 1)
      (hlog : sb.log.Keeps sb'.log) (hfilled : ∀ r, stage' ≠ .filled r)
      (hheader : ∀ r ret, stage' ≠ .header r ret) : Progress k sb stage k' sb' stage'
  /-- A number is drawn. -/
  | filled {stage : Stage} {k' : Kernel} {r : TrRecord} (hstage : stage.pending = [])
      (hid : k'.trecordId = k.trecordId + 1) (hrec : r.recId = k.trecordId + 1) (hr : r.Filled) :
      Progress k sb stage k' sb (.filled r)
  /-- A header is written, or was meant to be. -/
  | header {r : TrRecord} {k' : Kernel} {sb' : SbInfo} {ret : ℤ}
      (hid : k'.trecordId = k.trecordId) (hlog : sb.log.Keeps sb'.log)
      (hrec : sb.log.fPos < sb'.log.fPos → sb'.log.recIdAt sb.log.fPos.toNat = r.recId ∧
        sb.log.fPos.toNat + recIdSize ≤ sb'.log.data.length) :
      Progress k sb (.filled r) k' sb' (.header r ret)

/-- Every step of the holder is one of these cases. -/
theorem progress_of_next {k k' : Kernel} {sb sb' : SbInfo} {tail : Tail} {stage stage' : Stage}
    {e : TailStep} (hr : ∀ r, stage = .filled r → r.Filled)
    (h : stage.next k sb tail e = some (k', sb', stage')) : Progress k sb stage k' sb' stage' := by
  cases stage with
  | locked =>
    cases e with
    | mask =>
      cases h
      exact .quiet (.inl rfl) sb.log.keeps_refl (by simp) (by simp)
    | _ => cases h
  | masked a =>
    cases e with
    | fill pages =>
      rw [next] at h
      rcases fillRecord_cases pages k a with
        ⟨k₁, code, hfill, hid⟩ | ⟨fault, hfill⟩ | ⟨k₁, r, hfill, hid, hrec, hfilled⟩
      · rw [hfill] at h
        cases h
        exact .quiet (.inl hid) sb.log.keeps_refl (by simp) (by simp)
      · rw [hfill] at h
        cases h
        exact .quiet (.inr rfl) sb.log.keeps_refl (by simp) (by simp)
      · rw [hfill] at h
        cases h
        exact .filled rfl hid hrec hfilled
    | _ => cases h
  | filled r =>
    cases e with
    | writeHeader o =>
      rw [next] at h
      split at h
      · cases h
        exact .quiet (.inl rfl) sb.log.keeps_refl (by simp) (by simp)
      · next sb₁ k₁ ret happend =>
        cases h
        obtain ⟨hid, count, hlog, -⟩ := (hr r rfl).appendHeader happend
        refine .header hid (by rw [hlog]; exact sb.log.keeps_writeAdvance _ _ _) fun hlt => ?_
        obtain ⟨hrec, hlen, -⟩ := (hr r rfl).recIdAt_appendHeader happend hlt
        exact ⟨hrec, hlen⟩
    | _ => cases h
  | header r ret =>
    cases e with
    | writeAux o =>
      rw [next] at h
      split at h
      · cases h
        exact .quiet (.inl rfl) sb.log.keeps_refl (by simp) (by simp)
      · next sb₁ k₁ ret' happend =>
        cases h
        obtain ⟨hid, hlog⟩ := appendAux_keeps happend
        exact .quiet (.inl hid) hlog (by simp) (by simp)
    | _ => cases h
  | leaving => cases e <;> cases h
  | dead => cases e <;> cases h

end Stage

/-! ### One mount -/

/-- How a list of numbers follows the counter in one step: it loses numbers at most, or the next
number is drawn and is added at most. -/
def Draws (k k' : Kernel) (ids ids' : List ℕ) : Prop :=
  (k'.trecordId = k.trecordId ∧ ids'.Sublist ids) ∨
    (k'.trecordId = k.trecordId + 1 ∧ ids'.Sublist (ids ++ [(k.trecordId + 1).toNat]))

namespace Mount

/-- No record with a number is waiting for its header to be written. -/
def Unfilled (m : Mount) : Prop :=
  ∀ h r, m.holder = some h → h.stage ≠ .filled r

/-- The numbers in the log and the number on its way into it. -/
def headerIds (m : Mount) : List ℕ :=
  m.headers.map (fun p => p.2.toNat) ++ (m.holder.map fun h => h.stage.pending).getD []

/-- The headers of a mount stand before the position of its log, one behind the other, and a record
on its way into the log was filled. -/
structure Placed (m : Mount) : Prop where
  before : ∀ p ∈ m.headers, p.1 + recIdSize ≤ m.sb.log.fPos.toNat
  within : ∀ p ∈ m.headers, p.1 + recIdSize ≤ m.sb.log.data.length
  recIdAt_eq : ∀ p ∈ m.headers, m.sb.log.recIdAt p.1 = p.2
  apart : m.headers.Pairwise fun p q => p.1 + recIdSize ≤ q.1
  filled : ∀ h r, m.holder = some h → h.stage = .filled r → r.Filled

variable {m : Mount} {k k' : Kernel} {h : Holder} {sb : SbInfo} {stage : Stage} {e : TailStep}

/-- Without a header being written, headers can only be lost. -/
theorem headersAfter_sublist (m : Mount) (sb : SbInfo) (hstage : ∀ r ret, stage ≠ .header r ret) :
    (m.headersAfter sb stage).Sublist m.headers := by
  unfold headersAfter
  cases stage with
  | header r ret => exact absurd rfl (hstage r ret)
  | _ => exact List.filter_sublist

/-- When a header is written, it comes last. -/
theorem headersAfter_header_sublist (m : Mount) (sb : SbInfo) (r : TrRecord) (ret : ℤ) :
    (m.headersAfter sb (.header r ret)).Sublist
      (if m.sb.log.fPos < sb.log.fPos then m.headers ++ [(m.sb.log.fPos.toNat, r.recId)]
        else m.headers) :=
  List.filter_sublist

/-- The headers that are kept are before the position. -/
theorem le_fPos_of_mem_headersAfter {p : ℕ × CInt} (hp : p ∈ m.headersAfter sb stage) :
    p.1 + recIdSize ≤ sb.log.fPos.toNat := by
  have hkept := (List.mem_filter.mp hp).2
  exact of_decide_eq_true hkept

/-- A header stays where it is when the log keeps what is in it. -/
theorem Placed.recIdAt_of_keeps (hm : m.Placed) (hlog : m.sb.log.Keeps sb.log) {p : ℕ × CInt}
    (hp : p ∈ m.headers) :
    p.1 + recIdSize ≤ sb.log.data.length ∧ sb.log.recIdAt p.1 = p.2 := by
  obtain ⟨htake, hlen⟩ := hlog _ (hm.before p hp) (hm.within p hp)
  exact ⟨hlen, (LogFile.recIdAt_congr htake).trans (hm.recIdAt_eq p hp)⟩

/-- The headers that are kept of a list of headers which stand in the log one behind the other. -/
theorem placed_after {written : List (ℕ × CInt)} (hsub : (m.headersAfter sb stage).Sublist written)
    (hstored : ∀ p ∈ written, p.1 + recIdSize ≤ sb.log.data.length ∧ sb.log.recIdAt p.1 = p.2)
    (hapart : written.Pairwise fun p q => p.1 + recIdSize ≤ q.1)
    (hfilled : ∀ r, stage = .filled r → r.Filled) : (m.after h e sb stage).Placed where
  before _ hp := le_fPos_of_mem_headersAfter hp
  within p hp := (hstored p (hsub.subset hp)).1
  recIdAt_eq p hp := (hstored p (hsub.subset hp)).2
  apart := hapart.sublist hsub
  filled := by
    rintro _ r ⟨⟩ hstage
    exact hfilled r hstage

/-- The numbers of a mount after a step of the holder. -/
theorem headerIds_after (m : Mount) (h : Holder) (e : TailStep) (sb : SbInfo) (stage : Stage) :
    (m.after h e sb stage).headerIds =
      (m.headersAfter sb stage).map (fun p => p.2.toNat) ++ stage.pending := rfl

/-- The numbers of a mount whose lock is held. -/
theorem headerIds_of_holder (hh : m.holder = some h) :
    m.headerIds = m.headers.map (fun p => p.2.toNat) ++ h.stage.pending := by
  rw [headerIds, hh]
  rfl

/-- **One step of the holder** keeps the headers in place, and their numbers follow the counter. -/
theorem Placed.work (hm : m.Placed) (hh : m.holder = some h)
    (hnext : h.stage.next k m.sb h.tail e = some (k', sb, stage)) :
    (m.after h e sb stage).Placed ∧ Draws k k' m.headerIds (m.after h e sb stage).headerIds := by
  have hprogress := Stage.progress_of_next (hm.filled h · hh) hnext
  rw [headerIds_after, headerIds_of_holder hh]
  generalize h.stage = before at hprogress
  cases hprogress with
  | quiet hid hlog hfilled hheader =>
    have hsub := m.headersAfter_sublist sb hheader
    have hids : ((m.headersAfter sb stage).map fun p => p.2.toNat).Sublist
        (m.headers.map (fun p => p.2.toNat) ++ before.pending) :=
      (hsub.map _).trans (List.sublist_append_left _ _)
    have hnone : stage.pending = [] := by
      cases stage with
      | filled r => exact absurd rfl (hfilled r)
      | _ => rfl
    rw [hnone, List.append_nil]
    refine ⟨placed_after hsub (fun p hp => hm.recIdAt_of_keeps hlog hp) hm.apart
      fun r hr => absurd hr (hfilled r), ?_⟩
    rcases hid with hid | hid
    · exact .inl ⟨hid, hids⟩
    · exact .inr ⟨hid, hids.trans (List.sublist_append_left _ _)⟩
  | @filled _ _ r hstage hid hrec hr =>
    have hsub : (m.headersAfter m.sb (.filled r)).Sublist m.headers :=
      m.headersAfter_sublist m.sb (by simp)
    refine ⟨placed_after hsub (fun p hp => hm.recIdAt_of_keeps m.sb.log.keeps_refl hp) hm.apart ?_,
      .inr ⟨hid, ?_⟩⟩
    · rintro _ ⟨⟩
      exact hr
    · rw [hstage, List.append_nil, Stage.pending, hrec]
      exact (hsub.map _).append_right _
  | @header r _ _ ret hid hlog hrec =>
    have hnone : (Stage.header r ret).pending = [] := rfl
    have hone : (Stage.filled r).pending = [r.recId.toNat] := rfl
    rw [hnone, hone, List.append_nil]
    have hsub := m.headersAfter_header_sublist sb r ret
    split at hsub
    · next hlt =>
      obtain ⟨hrecId, hlen⟩ := hrec hlt
      refine ⟨placed_after hsub ?_ ?_ (by simp), .inl ⟨hid, ?_⟩⟩
      · intro p hp
        rw [List.mem_append, List.mem_singleton] at hp
        rcases hp with hp | rfl
        · exact hm.recIdAt_of_keeps hlog hp
        · exact ⟨hlen, hrecId⟩
      · rw [List.pairwise_append]
        refine ⟨hm.apart, List.pairwise_singleton _ _, fun p hp q hq => ?_⟩
        rw [List.mem_singleton] at hq
        rw [hq]
        exact hm.before p hp
      · have hids := hsub.map fun p => p.2.toNat
        rwa [List.map_append, List.map_singleton] at hids
    · refine ⟨placed_after hsub (fun p hp => hm.recIdAt_of_keeps hlog hp) hm.apart (by simp),
        .inl ⟨hid, ?_⟩⟩
      exact (hsub.map _).trans (List.sublist_append_left _ _)

/-- A mount is placed when only its holder and its mask change, and no filled record appears. -/
theorem Placed.of_eq (hm : m.Placed) {m' : Mount} (hlog : m'.sb.log = m.sb.log)
    (hheaders : m'.headers = m.headers) (hfilled : m'.Unfilled) : m'.Placed where
  before := by rw [hlog, hheaders]; exact hm.before
  within := by rw [hlog, hheaders]; exact hm.within
  recIdAt_eq := by rw [hlog, hheaders]; exact hm.recIdAt_eq
  apart := by rw [hheaders]; exact hm.apart
  filled h r hh hstage := absurd hstage (hfilled h r hh)

/-- No record is waiting while the lock is free. -/
theorem unfilled_of_free (hfree : m.holder = none) : m.Unfilled := by
  intro h r hh
  rw [hfree] at hh
  cases hh

/-- No record is waiting while the holder is at another stage. -/
theorem unfilled_of_holder (hh : m.holder = some h) (hstage : ∀ r, h.stage ≠ .filled r) :
    m.Unfilled := by
  intro h' r hh'
  rw [hh, Option.some_inj] at hh'
  rw [← hh']
  exact hstage r

/-- Without a waiting record the numbers are those in the log. -/
theorem headerIds_of_unfilled (hm : m.Unfilled) :
    m.headerIds = m.headers.map fun p => p.2.toNat := by
  cases hh : m.holder with
  | none => rw [headerIds, hh, Option.map_none, Option.getD_none, List.append_nil]
  | some h =>
    rw [headerIds_of_holder hh]
    cases hstage : h.stage with
    | filled r => exact absurd hstage (hm h r hh)
    | _ => exact List.append_nil _

/-- A new mount has no headers. -/
theorem placed_fresh (trPage : List UInt8) : (Mount.fresh trPage).Placed where
  before := by simp [fresh]
  within := by simp [fresh]
  recIdAt_eq := by simp [fresh]
  apart := List.Pairwise.nil
  filled h r hh := by simp [fresh] at hh

end Mount

end Trfs
