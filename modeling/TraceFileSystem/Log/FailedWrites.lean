import TraceFileSystem.Record.AppendRecord

/-!
# Failed writes to the log

A record goes into the log with two calls of `kernel_write`, and the second one is made whatever the
first one returned.  This file follows a sequence of `append_record` calls through every combination
of outcomes.

* `AppendCall` is a call on a record that `fill_record` produced within the limits of the format,
  with the outcome of each of its two writes; `appendAll` makes a list of calls.
* `LogFile.Complete` says that the bytes in `[0, f_pos)` are a concatenation of complete records.
* `KeepsLog` is what a log should satisfy under failures: it stays complete, and a call in which a
  write does not complete leaves the position where it was.

A record without auxiliary data is written in one piece and never does harm.  With auxiliary data
the log survives exactly when both writes complete or neither does, so `keepsLog_iff` characterises
the harmless sequences, and `not_keepsLog_auxFails` is the shortest harmful one.
-/

namespace Trfs

open ByteStore

/-! ### Calls -/

/-- A call of `append_record` on a record that `fill_record` produced within the limits of the
format, and the outcomes of its two writes. -/
structure AppendCall where
  record : TrRecord
  header : WriteOutcome
  aux : WriteOutcome
  produced : ∃ env k k' a, FillArgs.Framed a ∧ fillRecord env k a = .ok (k', .ok record)

namespace AppendCall

/-- Every write that the call makes completes. -/
def Completes (c : AppendCall) : Prop :=
  c.header = .complete ∧ (c.record.logged.aux ≠ [] → c.aux = .complete)

/-- The call makes a single write, or its two writes both complete or both do not. -/
def Uniform (c : AppendCall) : Prop :=
  c.record.logged.aux = [] ∨ (c.header = .complete ↔ c.aux = .complete)

/-- The log after the call. -/
def logAfter (c : AppendCall) (log : LogFile) : LogFile :=
  c.record.logged.logAfter log c.header c.aux

end AppendCall

/-- A list of calls of `append_record`, one after the other. -/
def appendAll : SbInfo → Kernel → List AppendCall → Except Fault (SbInfo × Kernel)
  | sb, k, [] => .ok (sb, k)
  | sb, k, c :: cs => do
    let (sb, k, _) ← appendRecord sb k c.record c.header c.aux
    appendAll sb k cs

/-- A record that `fill_record` produced within the limits of the format can be appended. -/
theorem AppendCall.appendable (c : AppendCall) : c.record.Appendable := by
  obtain ⟨⟨pathPage, auxPage⟩, k, k', a, hframed, hfill⟩ := c.produced
  have htype : a.type ≠ 0 := by
    intro h0
    simp [fillRecord_zero _ k h0] at hfill
  cases pathPage with
  | none =>
    rw [fillRecord, if_neg htype] at hfill
    simp at hfill
  | some pathPage =>
    cases auxPage with
    | none =>
      rw [fillRecord, if_neg htype] at hfill
      simp at hfill
    | some auxPage =>
      rw [fillRecord_framed hframed] at hfill
      simp only [Except.ok.injEq, Prod.mk.injEq] at hfill
      rw [← hfill.2]
      exact FillArgs.appendable_record hframed _ _ _

/-- A call never fails an assertion and leaves the log `AppendCall.logAfter` behind. -/
theorem AppendCall.appendRecord_eq (c : AppendCall) (sb : SbInfo) (k : Kernel) :
    ∃ sb' k' ret, appendRecord sb k c.record c.header c.aux = .ok (sb', k', ret) ∧
      sb'.log = c.logAfter sb.log := by
  obtain ⟨ret, hret⟩ := Trfs.appendRecord_eq c.appendable sb k c.header c.aux
  exact ⟨_, _, ret, hret, rfl⟩

/-- A list of calls never fails an assertion, and the log passes from call to call. -/
theorem appendAll_eq (sb : SbInfo) (k : Kernel) (cs : List AppendCall) :
    ∃ sb' k', appendAll sb k cs = .ok (sb', k') ∧
      sb'.log = cs.foldl (fun log c => c.logAfter log) sb.log := by
  induction cs generalizing sb k with
  | nil => exact ⟨sb, k, rfl, rfl⟩
  | cons c cs ih =>
    obtain ⟨sb₁, k₁, ret, hcall, hlog⟩ := c.appendRecord_eq sb k
    obtain ⟨sb₂, k₂, hrest, hlog₂⟩ := ih sb₁ k₁
    refine ⟨sb₂, k₂, ?_, ?_⟩
    · simp only [appendAll, hcall, bind, Except.bind, hrest]
    · rw [hlog₂, hlog, List.foldl_cons]

/-! ### Complete logs -/

/-- The bytes of the log in `[0, f_pos)` are a concatenation of complete records. -/
def LogFile.Complete (log : LogFile) : Prop :=
  0 ≤ log.fPos ∧ ∃ rs : List LogRecord, (∀ r ∈ rs, r.WellFormed) ∧ log.committed = frames rs

/-- A list of calls keeps the log: after every call the bytes before the position are a
concatenation of complete records, and a call in which a write does not complete leaves the position
alone. -/
def KeepsLog (sb : SbInfo) (k : Kernel) (calls : List AppendCall) : Prop :=
  ∀ earlier c later, calls = earlier ++ c :: later →
    ∃ sb₁ k₁ sb₂ k₂ ret, appendAll sb k earlier = .ok (sb₁, k₁) ∧
      appendRecord sb₁ k₁ c.record c.header c.aux = .ok (sb₂, k₂, ret) ∧
      sb₂.log.Complete ∧ (¬c.Completes → sb₂.log.fPos = sb₁.log.fPos)

namespace AppendCall

variable {c : AppendCall} {log : LogFile}

/-- A call whose writes all complete extends a complete log by one record. -/
theorem complete_logAfter_of_completes (hlog : log.Complete) (hc : c.Completes) :
    (c.logAfter log).Complete := by
  obtain ⟨hpos, rs, hwf, hrs⟩ := hlog
  have hlogAfter : c.logAfter log = c.record.logged.logAfter log .complete .complete := by
    rw [logAfter, hc.1]
    by_cases haux : c.record.logged.aux = []
    · exact LogRecord.logAfter_congr haux
    · rw [hc.2 haux]
  refine ⟨?_, rs ++ [c.record.logged], ?_, ?_⟩
  · rw [hlogAfter, LogRecord.logAfter_complete hpos]
    dsimp only
    omega
  · intro r hr
    rw [List.mem_append, List.mem_singleton] at hr
    rcases hr with hr | rfl
    · exact hwf r hr
    · exact c.appendable.wellFormed
  · rw [hlogAfter, LogRecord.committed_logAfter_complete hpos, hrs]
    simp

/-- A uniform call in which a write does not complete leaves position and committed bytes alone. -/
theorem logAfter_of_not_completes (log : LogFile) (hu : c.Uniform) (hc : ¬c.Completes) :
    (c.logAfter log).fPos = log.fPos ∧ (c.logAfter log).committed = log.committed := by
  have hheader : c.header ≠ .complete := by
    intro h
    apply hc
    refine ⟨h, fun haux => ?_⟩
    rcases hu with hnil | hiff
    · exact absurd hnil haux
    · exact hiff.mp h
  apply LogRecord.logAfter_incomplete hheader
  rcases hu with hnil | hiff
  · exact .inl hnil
  · exact .inr fun h => hheader (hiff.mpr h)

/-- A call that is not uniform moves the position although one of its writes did not complete. -/
theorem fPos_logAfter_of_not_uniform (hpos : 0 ≤ log.fPos) (hu : ¬c.Uniform) :
    ¬c.Completes ∧ (c.logAfter log).fPos ≠ log.fPos := by
  simp only [Uniform, not_or] at hu
  obtain ⟨haux, hiff⟩ := hu
  have hhead := c.record.logged.headerCount_pos
  have hlen := List.length_pos_iff.mpr haux
  rw [logAfter, LogRecord.fPos_logAfter hpos]
  constructor
  · rintro ⟨hheader, hsecond⟩
    exact hiff ⟨fun _ => hsecond haux, fun _ => hheader⟩
  · by_cases hheader : c.header = .complete
    · rw [if_pos hheader]
      split <;> omega
    · have hsecond : c.aux = .complete := by
        by_contra h
        exact hiff ⟨fun h' => absurd h' hheader, fun h' => absurd h' h⟩
      rw [if_neg hheader, if_pos hsecond]
      omega

/-- No call moves the position back. -/
theorem fPos_le_logAfter (c : AppendCall) (hpos : 0 ≤ log.fPos) :
    log.fPos ≤ (c.logAfter log).fPos := by
  rw [logAfter, LogRecord.fPos_logAfter hpos]
  split <;> split <;> omega

/-- A uniform call keeps a complete log complete. -/
theorem complete_logAfter (hlog : log.Complete) (hu : c.Uniform) : (c.logAfter log).Complete := by
  by_cases hc : c.Completes
  · exact complete_logAfter_of_completes hlog hc
  · obtain ⟨hpos, rs, hwf, hrs⟩ := hlog
    obtain ⟨hfpos, hcommitted⟩ := logAfter_of_not_completes log hu hc
    exact ⟨by rw [hfpos]; exact hpos, rs, hwf, by rw [hcommitted, hrs]⟩

end AppendCall

/-- Uniform calls keep a complete log complete. -/
theorem complete_foldl_logAfter {log : LogFile} (hlog : log.Complete) {cs : List AppendCall}
    (hcs : ∀ c ∈ cs, c.Uniform) : (cs.foldl (fun log c => c.logAfter log) log).Complete := by
  induction cs generalizing log with
  | nil => exact hlog
  | cons c cs ih =>
    exact ih (AppendCall.complete_logAfter hlog (hcs c (by simp)))
      fun c' hc' => hcs c' (by simp [hc'])

/-- No list of calls moves the position before the start of the log. -/
theorem fPos_foldl_logAfter_nonneg {log : LogFile} (hpos : 0 ≤ log.fPos) (cs : List AppendCall) :
    0 ≤ (cs.foldl (fun log c => c.logAfter log) log).fPos := by
  induction cs generalizing log with
  | nil => exact hpos
  | cons c cs ih => exact ih (hpos.trans (c.fPos_le_logAfter hpos))

/-- **Failed writes.**  On a log of complete records a sequence of calls keeps the log exactly when
every call either makes a single write or has two writes of which both complete or neither does. -/
theorem keepsLog_iff {sb : SbInfo} (hlog : sb.log.Complete) (k : Kernel) (calls : List AppendCall) :
    KeepsLog sb k calls ↔ ∀ c ∈ calls, c.Uniform := by
  constructor
  · intro hkeeps c hc
    obtain ⟨earlier, later, rfl⟩ := List.append_of_mem hc
    by_contra hu
    obtain ⟨sb₁, k₁, sb₂, k₂, ret, hearlier, hcall, -, hfpos⟩ := hkeeps earlier c later rfl
    obtain ⟨sb₁', k₁', hearlier', heq₁⟩ := appendAll_eq sb k earlier
    cases hearlier.symm.trans hearlier'
    obtain ⟨sb₂', k₂', ret', hcall', heq₂⟩ := c.appendRecord_eq sb₁ k₁
    cases hcall.symm.trans hcall'
    have hpos : 0 ≤ sb₁.log.fPos := by
      rw [heq₁]
      exact fPos_foldl_logAfter_nonneg hlog.1 earlier
    obtain ⟨hnot, hmoved⟩ := AppendCall.fPos_logAfter_of_not_uniform hpos hu
    rw [heq₂] at hfpos
    exact hmoved (hfpos hnot)
  · rintro hu earlier c later rfl
    have hlog₁ : (earlier.foldl (fun log c => c.logAfter log) sb.log).Complete :=
      complete_foldl_logAfter hlog fun c' hc' => hu c' (by simp [hc'])
    have hc : c.Uniform := hu c (by simp)
    obtain ⟨sb₁, k₁, hearlier, heq₁⟩ := appendAll_eq sb k earlier
    obtain ⟨sb₂, k₂, ret, hcall, heq₂⟩ := c.appendRecord_eq sb₁ k₁
    rw [← heq₁] at hlog₁
    refine ⟨sb₁, k₁, sb₂, k₂, ret, hearlier, hcall, ?_, ?_⟩
    · rw [heq₂]
      exact AppendCall.complete_logAfter hlog₁ hc
    · intro hnot
      rw [heq₂]
      exact (AppendCall.logAfter_of_not_completes sb₁.log hc hnot).1

/-- The dentry of `/f`. -/
def fileF : Dentry where
  path := ⟨[47, 102], by decide⟩
  path_ne := by decide

/-- The record of a write of the byte `a` to `/f`, the first one of a mount. -/
def byteWrite : TrRecord :=
  (FillArgs.ofWrite fileF 1 1 (.user [97]) 1).record 0 0 1

/-- A call for that record with the given outcomes. -/
def byteWriteCall (header aux : WriteOutcome) : AppendCall where
  record := byteWrite
  header := header
  aux := aux
  produced := by
    have hframed : (FillArgs.ofWrite fileF 1 1 (.user [97]) 1).Framed :=
      FillArgs.framed_ofWrite (by decide) (by decide) (by decide)
    exact ⟨⟨some 0, some 1⟩, ⟨-1, [], []⟩, _, _, hframed,
      fillRecord_framed hframed ⟨-1, [], []⟩ 0 1⟩

/-- The log of a new mount holds no records. -/
theorem complete_mounted (trPage : List UInt8) : (SbInfo.mounted trPage).log.Complete :=
  ⟨le_rfl, [], by simp, rfl⟩

/-- A call whose two writes both fail is harmless on a new mount. -/
theorem keepsLog_bothFail :
    KeepsLog (SbInfo.mounted []) ⟨0, [], []⟩ [byteWriteCall (.short 3) (.errno .inval)] :=
  (keepsLog_iff (complete_mounted []) _ _).mpr fun c hc => by
    rw [List.mem_singleton] at hc
    subst hc
    exact .inr (by simp [byteWriteCall])

/-- A call whose header is written and whose data is not moves the position into a record. -/
theorem not_keepsLog_auxFails :
    ¬KeepsLog (SbInfo.mounted []) ⟨0, [], []⟩ [byteWriteCall .complete (.errno .inval)] := by
  intro hkeeps
  obtain ⟨sb₁, k₁, sb₂, k₂, ret, hearlier, hcall, -, hfpos⟩ := hkeeps [] _ [] rfl
  cases hearlier
  obtain ⟨sb₂', k₂', ret', hcall', heq⟩ :=
    (byteWriteCall .complete (.errno .inval)).appendRecord_eq (SbInfo.mounted []) ⟨0, [], []⟩
  cases hcall.symm.trans hcall'
  have hu : ¬(byteWriteCall .complete (.errno .inval)).Uniform := by
    simp only [AppendCall.Uniform, byteWriteCall, not_or]
    exact ⟨by decide, by simp⟩
  have hpos : 0 ≤ (SbInfo.mounted []).log.fPos := le_rfl
  obtain ⟨hnot, hmoved⟩ := AppendCall.fPos_logAfter_of_not_uniform hpos hu
  rw [heq] at hfpos
  exact hmoved (hfpos hnot)

end Trfs
