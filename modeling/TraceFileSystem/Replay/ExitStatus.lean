import TraceFileSystem.Replay.Buffers
import TraceFileSystem.Replay.Calls

/-!
# The exit status of the replay tool

`main` ends with `exit(err)`, and `err` is the result of the call that was made last: a descriptor
after the record of a `create`, a number of bytes after the record of a write, zero after any other
successful call.  Earlier failures have been overwritten, unless strict mode has stopped the run.

* `Syscalls.Documented` are the results that the calls can have.
* `LogRecord.ReturnsZero`: the type of a record decides whether its last call returns zero when it
  succeeds.
* `exitTells_iff` determines for both modes when the status is zero exactly if the replay has
  worked, by the type of the last record and by what fails before it.
-/

namespace Trfs

open ByteStore Traces

variable {W : Type*}

/-- The replay has worked: every record was processed, every call succeeded, and no record has a
negative result. -/
structure Worked (recs : List LogRecord) (s : ReplayState (Traced W)) : Prop where
  parsed : s.parsed.map Parsed.record = recs
  calls : ∀ e ∈ s.locals.world.2, 0 ≤ e.2
  logged : ∀ r ∈ recs, 0 ≤ r.hdr.result.toInt

/-- The tool ends, no path has overrun its buffer, and it passes zero to `exit` exactly if the
replay has worked. -/
def ExitTells (sys : Syscalls W) (strict : Bool) (cwd : List UInt8) (recs : List LogRecord)
    (m : Mem) (w : W) : Prop :=
  ∃ s, EndsIn ⟨sys.traced, ⟨false, strict⟩, cwd, frames recs⟩ m (w, []) s ∧
    (∀ p ∈ s.parsed, p.record.ResolvesWithin cwd) ∧ (s.locals.err = 0 ↔ Worked recs s)

/-! ### Results -/

/-- The results that a call can have: `-1` if it fails, and otherwise a descriptor, the number of
bytes that a file has taken, or zero.  Descriptor zero is in use, since the tool has opened the log
before.  A file takes one byte at least if there are any, and a write needs a descriptor. -/
def SysCall.Returns : SysCall → ℤ → Prop
  | openCreat _ _, res => res = -1 ∨ 0 < res
  | openFlags _ _, res => res = -1 ∨ 0 < res
  | write fd _ count, res => res = -1 ∨ 0 ≤ fd ∧ 0 ≤ res ∧ (res = 0 ↔ count = 0)
  | _, res => res = -1 ∨ res = 0

/-- The system calls return what their manual pages say. -/
def Syscalls.Documented (sys : Syscalls W) : Prop :=
  ∀ (c : SysCall) (w : W), c.Returns (c.perform sys w).2

namespace LogRecord

/-- The first call of the record opens a file. -/
def Opens (r : LogRecord) : Prop :=
  RecType.ofCode? r.hdr.type = some .fcreat ∨ RecType.ofCode? r.hdr.type = some .fwrite

/-- The last call of the record returns zero when it succeeds: it is not the `open` of a `create`,
and no write of one byte or more. -/
def ReturnsZero (r : LogRecord) : Prop :=
  RecType.ofCode? r.hdr.type ≠ some .fcreat ∧
    (RecType.ofCode? r.hdr.type = some .fwrite → r.hdr.auxLen.toInt = 0)

/-- The calls of the record succeed. -/
def Succeeds (sys : Syscalls W) (cwd : List UInt8) (r : LogRecord) (w : W) : Prop :=
  ∀ c ∈ r.made sys cwd w, 0 ≤ c.result

end LogRecord

/-- No call of the log fails without flags, and no result in it is negative. -/
def NothingFails (sys : Syscalls W) (cwd : List UInt8) (recs : List LogRecord) (w : W) : Prop :=
  ∀ c ∈ madeLog sys cwd recs w, ¬c.Fails

instance (sys : Syscalls W) (cwd : List UInt8) (recs : List LogRecord) (w : W) :
    Decidable (NothingFails sys cwd recs w) :=
  inferInstanceAs (Decidable (∀ c ∈ _, _))

/-! ### The calls of one record -/

/-- The calls of a record carry its result. -/
theorem LogRecord.logged_of_mem_made {sys : Syscalls W} {cwd : List UInt8} {r : LogRecord} {w : W}
    {c : Made} (h : c ∈ r.made sys cwd w) : c.logged = r.hdr.result.toInt := by
  unfold made at h
  split at h
  · simp at h
  · unfold madeBy at h
    rcases List.mem_cons.mp h with rfl | h
    · rfl
    · split at h
      · rw [List.mem_singleton.mp h]
      · simp at h

section

variable {sys : Syscalls W} {cwd : List UInt8} {r : LogRecord}

/-- The calls of a well-formed record and what they return: one call that returns zero or fails, the
`open` of a `create`, or the `open` and the write of a write. -/
theorem LogRecord.WellFormed.made_cases (hdoc : sys.Documented) (h : r.WellFormed)
    (cwd : List UInt8) (w : W) :
    (¬r.Opens ∧ ∃ c res, r.made sys cwd w = [⟨c, res, r.hdr.result.toInt⟩] ∧
      (res = -1 ∨ res = 0)) ∨
    (RecType.ofCode? r.hdr.type = some .fcreat ∧ ∃ c res,
      r.made sys cwd w = [⟨c, res, r.hdr.result.toInt⟩] ∧ (res = -1 ∨ 0 < res)) ∨
    (RecType.ofCode? r.hdr.type = some .fwrite ∧ ∃ c c' fd res,
      r.made sys cwd w = [⟨c, fd, r.hdr.result.toInt⟩, ⟨c', res, r.hdr.result.toInt⟩] ∧
      (fd = -1 ∨ 0 < fd) ∧
      (res = -1 ∨ 0 ≤ fd ∧ 0 ≤ res ∧ (res = 0 ↔ r.hdr.auxLen.toInt = 0))) := by
  obtain ⟨c, hc⟩ := h.exists_firstCall cwd
  have hreturns := hdoc c w
  rw [LogRecord.made, hc]
  unfold LogRecord.firstCall at hc
  cases htype : RecType.ofCode? r.hdr.type with
  | none => simp [htype] at hc
  | some t =>
    simp only [htype] at hc
    cases t with
    | fread => cases hc
    | dread => cases hc
    | fcreat =>
      cases hc
      exact .inr (.inl ⟨rfl, _, _, r.madeBy_of_ne sys (by simp [htype]) _ w, hreturns⟩)
    | fwrite =>
      cases hc
      exact .inr (.inr ⟨rfl, _, _, _, _, r.madeBy_of_eq sys htype _ w, hreturns,
        hdoc (.write _ _ _) _⟩)
    | _ =>
      cases hc
      exact .inl ⟨by simp [LogRecord.Opens, htype], _, _,
        r.madeBy_of_ne sys (by simp [htype]) _ w, hreturns⟩

/-- At least one call is made for a well-formed record. -/
theorem LogRecord.WellFormed.exists_made (h : r.WellFormed) (sys : Syscalls W) (cwd : List UInt8)
    (w : W) : ∃ c, c ∈ r.made sys cwd w := by
  obtain ⟨c, hc⟩ := h.exists_firstCall cwd
  rw [LogRecord.made, hc]
  exact ⟨_, List.mem_cons_self⟩

/-- Behind the calls of a record the status is zero exactly if the last call of its type returns
zero and they have all succeeded. -/
theorem LogRecord.WellFormed.lastResult_eq_zero_iff (hdoc : sys.Documented) (h : r.WellFormed)
    (cwd : List UInt8) (w : W) (e : ℤ) :
    lastResult e (r.made sys cwd w) = 0 ↔ r.ReturnsZero ∧ r.Succeeds sys cwd w := by
  unfold LogRecord.ReturnsZero LogRecord.Succeeds
  rcases h.made_cases hdoc cwd w with ⟨hopens, c, res, hmade, hres⟩ | ⟨htype, c, res, hmade, hres⟩ |
    ⟨htype, c, c', fd, res, hmade, hfd, hres⟩
  · rw [LogRecord.Opens, not_or] at hopens
    rw [hmade, lastResult_singleton, List.forall_mem_singleton]
    simp only [ne_eq, hopens, not_false_eq_true, false_implies, and_self, true_and]
    omega
  · rw [hmade, lastResult_singleton, List.forall_mem_singleton]
    simp only [htype, ne_eq, not_true_eq_false, false_and, iff_false]
    omega
  · rw [hmade, List.forall_mem_cons, List.forall_mem_singleton]
    simp only [htype, lastResult, List.getLast?_cons_cons, List.getLast?_singleton,
      Option.map_some, Option.getD_some]
    simp only [ne_eq, reduceCtorEq, Option.some.injEq, not_false_eq_true, true_and, true_implies]
    omega

/-- The first call of a record that fails returns zero only if the operation had failed, and is one
that returns zero and has succeeded now. -/
theorem LogRecord.WellFormed.firstFailure_ne_zero_iff (hdoc : sys.Documented) (h : r.WellFormed)
    (cwd : List UInt8) (w : W) :
    (∀ c ∈ (r.made sys cwd w).find? fun c => c.Fails, c.result ≠ 0) ↔
      (r.hdr.result.toInt < 0 → ¬r.Opens → ¬r.Succeeds sys cwd w) := by
  unfold LogRecord.Succeeds
  rcases h.made_cases hdoc cwd w with ⟨hopens, c, res, hmade, hres⟩ | ⟨htype, c, res, hmade, hres⟩ |
    ⟨htype, c, c', fd, res, hmade, hfd, hres⟩
  · rw [hmade, List.forall_mem_singleton]
    by_cases hfails : res < 0 ∨ r.hdr.result.toInt < 0
    · simp only [List.find?_singleton, Made.Fails, hfails, decide_true, if_true,
        Option.mem_some_iff, forall_eq', hopens, not_false_eq_true, true_implies]
      omega
    · simp only [List.find?_singleton, Made.Fails, hfails, decide_false, Bool.false_eq_true,
        if_false, Option.not_mem_none, false_implies, implies_true, true_iff]
      omega
  · simp only [LogRecord.Opens, htype, true_or, not_true_eq_false, false_implies, implies_true,
      iff_true, hmade]
    intro c' hc'
    rw [List.mem_singleton.mp (List.mem_of_find?_eq_some hc')]
    dsimp only
    omega
  · simp only [LogRecord.Opens, htype, or_true, not_true_eq_false, false_implies, implies_true,
      iff_true, hmade]
    intro d hd
    have hfails := List.find?_some hd
    simp only [decide_eq_true_eq] at hfails
    by_cases hfirst : fd < 0 ∨ r.hdr.result.toInt < 0
    · rw [List.find?_cons_of_pos (by rw [decide_eq_true_eq]; exact hfirst)] at hd
      cases hd
      dsimp only
      omega
    · -- the result in the record is not negative, so the write itself has failed
      rw [List.find?_cons_of_neg (by rw [decide_eq_true_eq]; exact hfirst)] at hd
      rw [List.mem_singleton.mp (List.mem_of_find?_eq_some hd)] at hfails ⊢
      simp only [Made.Fails] at hfails
      dsimp only
      omega

end

/-! ### The calls of a log -/

section

variable (sys : Syscalls W) (cwd : List UInt8) {recs : List LogRecord}

/-- The results in the calls of a log are the results in its records. -/
theorem forall_logged_iff (hwf : ∀ r ∈ recs, r.WellFormed) (w : W) :
    (∀ c ∈ madeLog sys cwd recs w, 0 ≤ c.logged) ↔ ∀ r ∈ recs, 0 ≤ r.hdr.result.toInt := by
  induction recs generalizing w with
  | nil => simp [madeLog]
  | cons r rs ih =>
    obtain ⟨hr, hrs⟩ := List.forall_mem_cons.mp hwf
    have hfirst : (∀ c ∈ r.made sys cwd w, 0 ≤ c.logged) ↔ 0 ≤ r.hdr.result.toInt := by
      constructor
      · intro h
        obtain ⟨c, hc⟩ := hr.exists_made sys cwd w
        rw [← LogRecord.logged_of_mem_made hc]
        exact h c hc
      · intro h c hc
        rwa [LogRecord.logged_of_mem_made hc]
    rw [madeLog, List.forall_mem_append, List.forall_mem_cons, hfirst, ih hrs]

/-- The calls that are made in one of the modes are calls that are made without flags. -/
theorem ranCalls_subset (strict : Bool) (made : List Made) : ranCalls strict made ⊆ made := by
  cases strict with
  | false => exact List.Subset.refl made
  | true => exact throughFirst_subset made

/-- If one of the calls without flags fails, then one that is made fails. -/
theorem exists_fails_ranCalls (strict : Bool) {made : List Made} (h : ∃ c ∈ made, c.Fails) :
    ∃ c ∈ ranCalls strict made, c.Fails := by
  cases strict with
  | false => exact h
  | true => exact exists_mem_throughFirst h

/-- The replay has worked exactly if nothing fails without flags. -/
theorem worked_iff (hwf : ∀ r ∈ recs, r.WellFormed) {strict : Bool} {w : W}
    {s : ReplayState (Traced W)}
    (hcalls : s.locals.world.2 = (ranCalls strict (madeLog sys cwd recs w)).map Made.entry)
    (hparsed : s.parsed.map Parsed.record = processed strict sys cwd recs w) :
    Worked recs s ↔ NothingFails sys cwd recs w := by
  constructor
  · intro hworked c hc hfails
    have hlogged := (forall_logged_iff sys cwd hwf w).mpr hworked.logged
    obtain ⟨c', hc', hfails'⟩ := exists_fails_ranCalls strict ⟨c, hc, hfails⟩
    have hresult : 0 ≤ c'.result := by
      apply hworked.calls c'.entry
      rw [hcalls]
      exact List.mem_map_of_mem hc'
    rcases hfails' with hneg | hneg
    · exact absurd hresult (not_le.mpr hneg)
    · exact absurd (hlogged c' (ranCalls_subset strict _ hc')) (not_le.mpr hneg)
  · intro hnone
    have hgoes : ¬Stops strict (madeLog sys cwd recs w) := by
      rintro ⟨-, c, hc, hfails⟩
      exact hnone c hc hfails
    refine ⟨hparsed.trans (processed_of_not_stops hgoes), ?_, ?_⟩
    · rw [hcalls]
      intro e he
      obtain ⟨c, hc, rfl⟩ := List.mem_map.mp he
      exact not_lt.mp fun hneg => hnone c (ranCalls_subset strict _ hc) (.inl hneg)
    · rw [← forall_logged_iff sys cwd hwf w]
      exact fun c hc => not_lt.mp fun hneg => hnone c hc (.inr hneg)

/-- In one of the two modes the status tells whether the replay has worked exactly if the paths of
the processed records fit the buffers, and the last call that is made returns zero when nothing
fails, and only then. -/
theorem exitTells_iff_lastResult (strict : Bool) (hwf : ∀ r ∈ recs, r.WellFormed)
    (hsize : (frames recs).length ≤ chunkSize) (m : Mem) (w : W) :
    ExitTells sys strict cwd recs m w ↔
      (∀ r ∈ processed strict sys cwd recs w, r.ResolvesWithin cwd) ∧
        (lastResult 0 (ranCalls strict (madeLog sys cwd recs w)) = 0 ↔
          NothingFails sys cwd recs w) := by
  obtain ⟨s, hends, hcalls, herr, hparsed⟩ := exists_endsIn sys cwd strict hwf hsize m w
  rw [← worked_iff sys cwd hwf hcalls hparsed, ← herr, ← hparsed, List.forall_mem_map]
  constructor
  · rintro ⟨s', hends', htells⟩
    rwa [hends'.unique hends] at htells
  · intro htells
    exact ⟨s, hends, htells⟩

variable {sys}

/-- The last result of a log is the one of its last record. -/
theorem lastResult_madeLog (hdoc : sys.Documented) {init : List LogRecord} {r : LogRecord}
    (hr : r.WellFormed) (w : W) :
    lastResult 0 (madeLog sys cwd (init ++ [r]) w) = 0 ↔
      r.ReturnsZero ∧ r.Succeeds sys cwd (logWorld sys cwd init w) := by
  rw [madeLog_append, lastResult_append, madeLog, madeLog, List.append_nil,
    hr.lastResult_eq_zero_iff hdoc]

/-- If nothing fails, then the last result is zero exactly if the last record is one whose last call
returns zero. -/
theorem lastResult_of_nothingFails (hdoc : sys.Documented) (hwf : ∀ r ∈ recs, r.WellFormed) {w : W}
    (h : NothingFails sys cwd recs w) :
    lastResult 0 (madeLog sys cwd recs w) = 0 ↔ ∀ r ∈ recs.getLast?, r.ReturnsZero := by
  rcases List.eq_nil_or_concat' recs with rfl | ⟨init, r, rfl⟩
  · simp [madeLog]
  · have hsucceeds : r.Succeeds sys cwd (logWorld sys cwd init w) := by
      intro c hc
      refine not_lt.mp fun hneg => h c ?_ (.inl hneg)
      rw [madeLog_append, madeLog, madeLog, List.append_nil]
      exact List.mem_append_right _ hc
    rw [lastResult_madeLog cwd hdoc (hwf r (by simp)), List.getLast?_concat]
    simp [hsucceeds]

/-- The first call of a log that fails returns zero only if it belongs to a record, with nothing
failing before it, whose operation had failed, and whose call returns zero and succeeds now. -/
theorem firstFailure_madeLog_iff (hdoc : sys.Documented) (hwf : ∀ r ∈ recs, r.WellFormed) (w : W) :
    (∀ c ∈ (madeLog sys cwd recs w).find? fun c => c.Fails, c.result ≠ 0) ↔
      ∀ init r rest, recs = init ++ r :: rest → NothingFails sys cwd init w →
        r.hdr.result.toInt < 0 → ¬r.Opens → ¬r.Succeeds sys cwd (logWorld sys cwd init w) := by
  induction recs generalizing w with
  | nil => simp [madeLog]
  | cons r rs ih =>
    obtain ⟨hr, hrs⟩ := List.forall_mem_cons.mp hwf
    rw [madeLog, List.find?_append]
    by_cases hfails : ∃ c ∈ r.made sys cwd w, c.Fails
    · -- the first failure is one of this record
      obtain ⟨c, hc⟩ : ∃ c, (r.made sys cwd w).find? (fun c => c.Fails) = some c := by
        obtain ⟨c, hmem, hc⟩ := hfails
        exact Option.isSome_iff_exists.mp (List.find?_isSome.mpr ⟨c, hmem, by simpa using hc⟩)
      have hfirst := hr.firstFailure_ne_zero_iff hdoc cwd w
      rw [hc] at hfirst
      rw [hc, Option.some_or, hfirst]
      constructor
      · intro hzero init r' rest hsplit hnone
        cases init with
        | nil =>
          cases hsplit
          exact hzero
        | cons r'' init =>
          cases hsplit
          obtain ⟨c', hmem, hc'⟩ := hfails
          exact absurd hc' (hnone c' (by rw [madeLog]; exact List.mem_append_left _ hmem))
      · intro hall
        exact hall [] r rs rfl (by simp [NothingFails, madeLog])
    · -- nothing fails in this record, so its result is not negative either
      push Not at hfails
      have hnone : (r.made sys cwd w).find? (fun c => c.Fails) = none := by
        simpa using hfails
      have hresult : ¬r.hdr.result.toInt < 0 := by
        obtain ⟨c, hc⟩ := hr.exists_made sys cwd w
        rw [← LogRecord.logged_of_mem_made hc]
        exact fun hneg => hfails c hc (.inr hneg)
      rw [hnone, Option.none_or, ih hrs]
      constructor
      · intro hall init r' rest hsplit hinit
        cases init with
        | nil =>
          cases hsplit
          exact fun hneg => absurd hneg hresult
        | cons r'' init =>
          cases hsplit
          refine hall init r' rest rfl fun c hc => hinit c ?_
          rw [madeLog]
          exact List.mem_append_right _ hc
      · intro hall init r' rest hsplit hinit
        refine hall (r :: init) r' rest (by rw [hsplit]; rfl) fun c hc => ?_
        rw [madeLog] at hc
        rcases List.mem_append.mp hc with hc | hc
        · exact hfails c hc
        · exact hinit c hc

/-- Without flags the status tells whether the replay has worked exactly if every path fits, and
something fails when the last record is a `create` or a write of one byte or more, and nothing fails
when it is another one whose calls succeed. -/
theorem exitTells_false_iff (hdoc : sys.Documented) (hwf : ∀ r ∈ recs, r.WellFormed)
    (hsize : (frames recs).length ≤ chunkSize) (m : Mem) (w : W) :
    ExitTells sys false cwd recs m w ↔
      (∀ r ∈ recs, r.ResolvesWithin cwd) ∧
        ∀ init r, recs = init ++ [r] →
          (¬r.ReturnsZero → ¬NothingFails sys cwd recs w) ∧
            (r.ReturnsZero → r.Succeeds sys cwd (logWorld sys cwd init w) →
              NothingFails sys cwd recs w) := by
  have hall : processed false sys cwd recs w = recs :=
    processed_of_not_stops (by simp [Stops])
  rw [exitTells_iff_lastResult sys cwd false hwf hsize, hall]
  refine and_congr_right fun _ => ?_
  change (lastResult 0 (madeLog sys cwd recs w) = 0 ↔ _) ↔ _
  rcases List.eq_nil_or_concat' recs with rfl | ⟨init, r, rfl⟩
  · simp [madeLog, NothingFails]
  · have hnone := lastResult_of_nothingFails cwd hdoc hwf (w := w)
    rw [List.getLast?_concat] at hnone
    simp only [Option.mem_some_iff, forall_eq'] at hnone
    rw [lastResult_madeLog cwd hdoc (hwf r (by simp))] at hnone ⊢
    constructor
    · intro hiff init' r' hsplit
      obtain ⟨rfl, hlast⟩ := List.append_inj' hsplit rfl
      cases hlast
      refine ⟨fun hne hnothing => hne (hnone hnothing |>.mp (hiff.mpr hnothing)), ?_⟩
      exact fun hzero hsucceeds => hiff.mp ⟨hzero, hsucceeds⟩
    · intro hcond
      obtain ⟨hne, hzero⟩ := hcond init r rfl
      refine ⟨fun h => hzero h.1 h.2, fun hnothing => (hnone hnothing).mpr ?_⟩
      by_contra hreturns
      exact hne hreturns hnothing

/-- In strict mode it does so exactly if the paths of the records up to the first failure fit, the
last record is no `create` and no write of one byte or more when nothing fails, and the run is not
stopped by a record of another type whose operation had failed and succeeds now. -/
theorem exitTells_true_iff (hdoc : sys.Documented) (hwf : ∀ r ∈ recs, r.WellFormed)
    (hsize : (frames recs).length ≤ chunkSize) (m : Mem) (w : W) :
    ExitTells sys true cwd recs m w ↔
      (∀ r ∈ processed true sys cwd recs w, r.ResolvesWithin cwd) ∧
        (NothingFails sys cwd recs w → ∀ r ∈ recs.getLast?, r.ReturnsZero) ∧
          ∀ init r rest, recs = init ++ r :: rest → NothingFails sys cwd init w →
            r.hdr.result.toInt < 0 → ¬r.Opens →
              ¬r.Succeeds sys cwd (logWorld sys cwd init w) := by
  rw [exitTells_iff_lastResult sys cwd true hwf hsize, ← firstFailure_madeLog_iff cwd hdoc hwf]
  refine and_congr_right fun _ => ?_
  change (lastResult 0 (throughFirst Made.Fails (madeLog sys cwd recs w)) = 0 ↔ _) ↔ _
  by_cases hfails : ∃ c ∈ madeLog sys cwd recs w, c.Fails
  · -- the last call is the first one that fails
    have hsome : ¬NothingFails sys cwd recs w := by
      obtain ⟨c, hmem, hc⟩ := hfails
      exact fun hnone => hnone c hmem hc
    obtain ⟨c, hc⟩ : ∃ c, (madeLog sys cwd recs w).find? (fun c => c.Fails) = some c := by
      obtain ⟨c, hmem, hc⟩ := hfails
      exact Option.isSome_iff_exists.mp (List.find?_isSome.mpr ⟨c, hmem, by simpa using hc⟩)
    have hlast : lastResult 0 (throughFirst Made.Fails (madeLog sys cwd recs w)) = c.result := by
      rw [lastResult, getLast?_throughFirst hfails, hc]
      rfl
    rw [hlast, iff_false_right hsome, hc]
    simp only [Option.mem_some_iff, forall_eq']
    exact ⟨fun hne => ⟨fun h => absurd h hsome, hne⟩, fun h => h.2⟩
  · -- all calls are made
    push Not at hfails
    have hnone : (madeLog sys cwd recs w).find? (fun c => c.Fails) = none := by
      simpa using hfails
    have hnothing : NothingFails sys cwd recs w := hfails
    rw [throughFirst_of_forall hfails, hnone, iff_true_right hnothing,
      lastResult_of_nothingFails cwd hdoc hwf hnothing]
    exact ⟨fun h => ⟨fun _ => h, by simp⟩, fun h => h.1 hnothing⟩

/-- **The exit status.**  On a log of well-formed records that fits one chunk, for system calls that
return what they are documented to return, the status tells whether the replay has worked

* without flags if and only if every path fits its buffer, something fails when the last record is a
  `create` or a write of one byte or more, and nothing fails when the last record is another one
  whose calls succeed;
* in strict mode if and only if the paths of the records up to the first failure fit, the last
  record is no `create` and no write of one byte or more when nothing fails, and the first record
  with a failure is no `mkdir`, `rename`, `link`, `symlink` or `unlink` that had failed and succeeds
  now. -/
theorem exitTells_iff (hdoc : sys.Documented) (hwf : ∀ r ∈ recs, r.WellFormed)
    (hsize : (frames recs).length ≤ chunkSize) (m : Mem) (w : W) :
    (ExitTells sys false cwd recs m w ↔
      (∀ r ∈ recs, r.ResolvesWithin cwd) ∧
        ∀ init r, recs = init ++ [r] →
          (¬r.ReturnsZero → ¬NothingFails sys cwd recs w) ∧
            (r.ReturnsZero → r.Succeeds sys cwd (logWorld sys cwd init w) →
              NothingFails sys cwd recs w)) ∧
    (ExitTells sys true cwd recs m w ↔
      (∀ r ∈ processed true sys cwd recs w, r.ResolvesWithin cwd) ∧
        (NothingFails sys cwd recs w → ∀ r ∈ recs.getLast?, r.ReturnsZero) ∧
          ∀ init r rest, recs = init ++ r :: rest → NothingFails sys cwd init w →
            r.hdr.result.toInt < 0 → ¬r.Opens →
              ¬r.Succeeds sys cwd (logWorld sys cwd init w)) :=
  ⟨exitTells_false_iff cwd hdoc hwf hsize m w, exitTells_true_iff cwd hdoc hwf hsize m w⟩

end

/-! ### A target on which everything works -/

/-- System calls that all succeed: every file is opened as descriptor three, and only a write
without a descriptor or with a negative number of bytes fails. -/
def Syscalls.succeeding : Syscalls Unit where
  openCreat _ _ w := (w, 3)
  openFlags _ _ w := (w, 3)
  write fd _ count w := (w, if 0 ≤ fd ∧ 0 ≤ count then count else -1)
  close _ w := w
  mkdir _ _ w := (w, 0)
  rename _ _ w := (w, 0)
  link _ _ w := (w, 0)
  symlink _ _ w := (w, 0)
  remove _ w := (w, 0)

/-- They return what they are documented to return. -/
theorem documented_succeeding : Syscalls.succeeding.Documented := by
  intro c w
  cases c with
  | write fd data count =>
    change (if 0 ≤ fd ∧ 0 ≤ count then count else -1) = -1 ∨ _
    by_cases h : 0 ≤ fd ∧ 0 ≤ count
    · exact .inr ⟨h.1, by simp [SysCall.perform, Syscalls.succeeding, h]⟩
    · exact .inl (if_neg h)
  | openCreat => exact .inr (show (0 : ℤ) < 3 by decide)
  | openFlags => exact .inr (show (0 : ℤ) < 3 by decide)
  | _ => exact .inr rfl

/-- A `create` of `/l` that was successful. -/
def okCreate : TracedOp := .create ⟨0⟩ 0 dentryL 0 0 0

/-- A write of one byte to `/l` that was successful. -/
def okWrite : TracedOp := .write ⟨dentryL, ⟨0⟩⟩ 1 (.user [97]) 1 1

/-- A `mkdir` of `/l` that was successful. -/
def okMkdir : TracedOp := .mkdir ⟨0⟩ 0 dentryL 0 0 0

/-- The record of an operation. -/
def TracedOp.okRecord (op : TracedOp) : LogRecord :=
  op.plan.tail.args.logRecord 0

/-- The records are well-formed. -/
theorem wellFormed_okRecord : ∀ op ∈ [okCreate, okWrite, okMkdir], op.okRecord.WellFormed := by
  intro op hop
  simp only [List.mem_cons, List.not_mem_nil, or_false] at hop
  rcases hop with rfl | rfl | rfl
  · exact FillArgs.wellFormed_logRecord (TracedOp.fits_of_withinFormat ⟨by decide, trivial⟩) 0
  · have hformat : okWrite.WithinFormat := ⟨by decide, [97], rfl, rfl, by decide, by decide⟩
    exact FillArgs.wellFormed_logRecord (TracedOp.fits_of_withinFormat hformat) 0
  · exact FillArgs.wellFormed_logRecord (TracedOp.fits_of_withinFormat ⟨by decide, trivial⟩) 0

/-- Their paths fit the buffers behind `/t`. -/
theorem resolvesWithin_okRecord :
    ∀ op ∈ [okCreate, okWrite, okMkdir], op.okRecord.ResolvesWithin [47, 116] := by
  intro op hop
  simp only [List.mem_cons, List.not_mem_nil, or_false] at hop
  rcases hop with rfl | rfl | rfl <;>
    exact LogRecord.resolvesWithin_of_le (by decide) (by decide) (by decide)

/-- After a `create`, a write and a `mkdir` that all work, the status tells so in both modes.  It is
also right without flags when a `create` that works comes after a `mkdir` that had failed. -/
theorem exitTells_createWriteMkdir :
    ExitTells .succeeding false [47, 116] [okCreate.okRecord, okWrite.okRecord, okMkdir.okRecord]
        (fun _ => 0) () ∧
      ExitTells .succeeding true [47, 116] [okCreate.okRecord, okWrite.okRecord, okMkdir.okRecord]
        (fun _ => 0) () ∧
      ExitTells .succeeding false [47, 116] [enospcRecord, okCreate.okRecord] (fun _ => 0) () := by
  have hwf := List.forall_mem_map.mpr wellFormed_okRecord
  have hwithin := List.forall_mem_map.mpr resolvesWithin_okRecord
  have hworks := exitTells_iff [47, 116] documented_succeeding hwf (by decide) (fun _ => 0) ()
  have hnothing : NothingFails .succeeding [47, 116]
      ([okCreate, okWrite, okMkdir].map TracedOp.okRecord) () := by decide
  have hzero : okMkdir.okRecord.ReturnsZero := ⟨by decide, by decide⟩
  refine ⟨hworks.1.mpr ⟨hwithin, fun init r hsplit => ?_⟩,
    hworks.2.mpr ⟨by rwa [processed_of_not_stops (by decide)], ?_, ?_⟩, ?_⟩
  · obtain ⟨-, hlast⟩ := List.append_inj' (show [okCreate.okRecord, okWrite.okRecord] ++
      [okMkdir.okRecord] = init ++ [r] from hsplit) rfl
    cases hlast
    exact ⟨fun hne => absurd hzero hne, fun _ _ => hnothing⟩
  · intro _ r hr
    cases hr
    exact hzero
  · intro init r rest hsplit _ hneg
    have hresults : ∀ r ∈ [okCreate, okWrite, okMkdir].map TracedOp.okRecord,
        0 ≤ r.hdr.result.toInt := by decide
    exact absurd (hresults r (by rw [hsplit]; simp)) (not_le.mpr hneg)
  · have hwf' : ∀ r ∈ [enospcRecord, okCreate.okRecord], r.WellFormed :=
      List.forall_mem_cons.mpr ⟨wellFormed_enospcRecord,
        List.forall_mem_singleton.mpr (wellFormed_okRecord okCreate (by simp))⟩
    have hwithin' : ∀ r ∈ [enospcRecord, okCreate.okRecord], r.ResolvesWithin [47, 116] :=
      List.forall_mem_cons.mpr ⟨LogRecord.resolvesWithin_of_le (by decide) (by decide) (by decide),
        List.forall_mem_singleton.mpr (resolvesWithin_okRecord okCreate (by simp))⟩
    have hfails := exitTells_iff [47, 116] documented_succeeding hwf' (by decide) (fun _ => 0) ()
    refine hfails.1.mpr ⟨hwithin', fun init r hsplit => ?_⟩
    obtain ⟨-, hlast⟩ := List.append_inj' (show [enospcRecord] ++ [okCreate.okRecord] =
      init ++ [r] from hsplit) rfl
    cases hlast
    exact ⟨fun _ => by decide, fun hzero => absurd rfl hzero.1⟩

/-- After a `create` that works, the status is the descriptor.  After a `mkdir` that had failed in
the traced run and works in the replay, the status is zero. -/
theorem not_exitTells_create_mkdir :
    ¬ExitTells .succeeding false [47, 116] [okCreate.okRecord] (fun _ => 0) () ∧
      ¬ExitTells .succeeding true [47, 116] [okCreate.okRecord] (fun _ => 0) () ∧
      ¬ExitTells .succeeding false [47, 116] [enospcRecord] (fun _ => 0) () ∧
      ¬ExitTells .succeeding true [47, 116] [enospcRecord] (fun _ => 0) () := by
  have hcreate : ∀ r ∈ [okCreate.okRecord], r.WellFormed :=
    List.forall_mem_singleton.mpr (wellFormed_okRecord okCreate (by simp))
  have hmkdir : ∀ r ∈ [enospcRecord], r.WellFormed :=
    List.forall_mem_singleton.mpr wellFormed_enospcRecord
  refine ⟨?_, ?_, ?_, ?_⟩
  · rw [exitTells_iff_lastResult _ _ false hcreate (by decide)]
    exact fun h => absurd h.2 (by decide)
  · rw [exitTells_iff_lastResult _ _ true hcreate (by decide)]
    exact fun h => absurd h.2 (by decide)
  · rw [exitTells_iff_lastResult _ _ false hmkdir (by decide)]
    exact fun h => absurd h.2 (by decide)
  · rw [exitTells_iff_lastResult _ _ true hmkdir (by decide)]
    exact fun h => absurd h.2 (by decide)

end Trfs
