import TraceFileSystem.Lib.Traces
import TraceFileSystem.Replay.FailedRecords
import TraceFileSystem.Treplay.OneChunk

/-!
# The calls of a replay

The system calls that the replay tool makes, with their arguments and results, in their order.

* `Syscalls.traced` makes every call and adds it to a list, so that the world of a run with these
  calls holds all the calls it has made.
* `LogRecord.made` are the calls that the tool makes for a record when it is started without flags,
  each with its result and with the result in the record; `madeLog` are those of a log.
* `Ran` compares a run with such a list.  In strict mode only the calls up to the first one that
  fails are made, and the run ends there; otherwise all are made.  In both cases `err` is the result
  of the last call.

`ran_of_asksFor` is the case of one record, for each of the seven types and whatever its bytes are,
and `ran_replayLog` follows for logs of well-formed records by induction.
-/

namespace Trfs

open ByteStore Traces

variable {W : Type*}

/-- A world together with the calls made so far and their results. -/
abbrev Traced (W : Type*) := W × List (SysCall × ℤ)

/-- Making a call and adding it to the list. -/
def SysCall.trace (sys : Syscalls W) (c : SysCall) (w : Traced W) : Traced W × ℤ :=
  let res := c.perform sys w.1
  ((res.1, w.2 ++ [(c, res.2)]), res.2)

/-- The system calls, with a list of all that have been made. -/
def Syscalls.traced (sys : Syscalls W) : Syscalls (Traced W) where
  openCreat path mode := SysCall.trace sys (.openCreat path mode)
  openFlags path flags := SysCall.trace sys (.openFlags path flags)
  write fd data count := SysCall.trace sys (.write fd data count)
  close fd w := (sys.close fd w.1, w.2)
  mkdir path mode := SysCall.trace sys (.mkdir path mode)
  rename old new := SysCall.trace sys (.rename old new)
  link old new := SysCall.trace sys (.link old new)
  symlink target path := SysCall.trace sys (.symlink target path)
  remove path := SysCall.trace sys (.remove path)

/-! ### The calls without flags -/

/-- A call that was made for a record: the call, its result, and the result in the record. -/
structure Made where
  call : SysCall
  result : ℤ
  logged : ℤ
  deriving DecidableEq

namespace Made

/-- The call failed, or the operation it repeats had failed. -/
def Fails (c : Made) : Prop :=
  c.result < 0 ∨ c.logged < 0

instance : DecidablePred Fails := fun _ => inferInstanceAs (Decidable (_ ∨ _))

/-- The call and its result. -/
def entry (c : Made) : SysCall × ℤ :=
  (c.call, c.result)

end Made

/-- The result of the last call of a list, or a default. -/
def lastResult (e : ℤ) (made : List Made) : ℤ :=
  (made.getLast?.map Made.result).getD e

@[simp] theorem lastResult_nil (e : ℤ) : lastResult e [] = e := rfl

@[simp] theorem lastResult_singleton (e : ℤ) (c : Made) : lastResult e [c] = c.result := rfl

/-- The last call of two lists. -/
theorem lastResult_append (e : ℤ) (l l' : List Made) :
    lastResult e (l ++ l') = lastResult (lastResult e l) l' := by
  unfold lastResult
  rw [List.getLast?_append]
  cases l'.getLast? <;> rfl

namespace LogRecord

/-- The calls of a record whose first call is known, without flags: the first one, and for a write a
second one with the descriptor that the first one returned. -/
def madeBy (sys : Syscalls W) (r : LogRecord) (c : SysCall) (w : W) : List Made :=
  let first := c.perform sys w
  ⟨c, first.2, r.hdr.result.toInt⟩ ::
    if RecType.ofCode? r.hdr.type = some .fwrite then
      let second : SysCall := .write first.2 r.aux r.hdr.auxLen.toInt
      [⟨second, (second.perform sys first.1).2, r.hdr.result.toInt⟩]
    else []

/-- A record that is none of a write makes one call. -/
theorem madeBy_of_ne (sys : Syscalls W) {r : LogRecord}
    (h : RecType.ofCode? r.hdr.type ≠ some .fwrite) (c : SysCall) (w : W) :
    r.madeBy sys c w = [⟨c, (c.perform sys w).2, r.hdr.result.toInt⟩] := by
  rw [madeBy, if_neg h]

/-- The two calls of a write. -/
theorem madeBy_of_eq (sys : Syscalls W) {r : LogRecord}
    (h : RecType.ofCode? r.hdr.type = some .fwrite) (c : SysCall) (w : W) :
    let first := c.perform sys w
    let second : SysCall := .write first.2 r.aux r.hdr.auxLen.toInt
    r.madeBy sys c w = [⟨c, first.2, r.hdr.result.toInt⟩,
      ⟨second, (second.perform sys first.1).2, r.hdr.result.toInt⟩] := by
  intro first second
  rw [madeBy, if_pos h]

/-- The calls that are made for a record without flags. -/
def made (sys : Syscalls W) (cwd : List UInt8) (r : LogRecord) (w : W) : List Made :=
  match r.firstCall cwd with
  | none => []
  | some c => r.madeBy sys c w

end LogRecord

/-- The calls that are made for the records of a log without flags. -/
def madeLog (sys : Syscalls W) (cwd : List UInt8) : List LogRecord → W → List Made
  | [], _ => []
  | r :: rs, w => r.made sys cwd w ++ madeLog sys cwd rs (r.callsWorld sys cwd w)

/-- The world behind the calls of a log. -/
def logWorld (sys : Syscalls W) (cwd : List UInt8) (recs : List LogRecord) (w : W) : W :=
  recs.foldl (fun w r => r.callsWorld sys cwd w) w

/-- The calls of two logs, one after the other. -/
theorem madeLog_append (sys : Syscalls W) (cwd : List UInt8) (recs recs' : List LogRecord) (w : W) :
    madeLog sys cwd (recs ++ recs') w =
      madeLog sys cwd recs w ++ madeLog sys cwd recs' (logWorld sys cwd recs w) := by
  induction recs generalizing w with
  | nil => rfl
  | cons r rs ih =>
    rw [List.cons_append, madeLog, madeLog, ih, List.append_assoc]
    rfl

/-! ### The calls of arbitrary records -/

namespace LogRecord

/-- The first call of a record, whatever its bytes are.  There is none if copying a path kills the
process, if a second path or a target is missing, or if the type has no call. -/
def asksFor (cwd : List UInt8) (r : LogRecord) (auxpath : Option (List UInt8)) :
    Option SysCall :=
  if r.hdr.pathLen.toInt < 0 ∨ r.hdr.type ≠ RecType.fwrite.code ∧ r.hdr.auxLen.toInt < 0 then none
  else
    match RecType.ofCode? r.hdr.type with
    | some .rename => (r.resolvedAux cwd auxpath).map (SysCall.rename (cwd ++ cstr r.path))
    | some .link => (r.resolvedAux cwd auxpath).map (SysCall.link (cwd ++ cstr r.path))
    | some .symlink => if r.hdr.auxLen = 0 then none else r.firstCall cwd
    | _ => r.firstCall cwd

end LogRecord

/-! ### Runs in both modes -/

/-- The calls that are made in one of the two modes. -/
def ranCalls (strict : Bool) (made : List Made) : List Made :=
  if strict then throughFirst Made.Fails made else made

/-- The run stops at one of the calls. -/
def Stops (strict : Bool) (made : List Made) : Prop :=
  strict = true ∧ ∃ c ∈ made, c.Fails

instance (strict : Bool) (made : List Made) : Decidable (Stops strict made) :=
  inferInstanceAs (Decidable (_ ∧ _))

/-- A part of a run that starts with the variables `l` and ends with `res` has made the calls of one
mode.  It leaves the loop exactly if one of the calls stops it, and otherwise ends in the world
`w`. -/
structure Ran (strict : Bool) (l : Locals (Traced W)) (made : List Made) (w : W)
    (res : Locals (Traced W) × Flow) : Prop where
  calls : res.1.world.2 = l.world.2 ++ (ranCalls strict made).map Made.entry
  err : res.1.err = lastResult l.err (ranCalls strict made)
  goes : ¬Stops strict made → res.2 = .next ∧ res.1.world.1 = w
  stops : Stops strict made → res.2 = .out

/-- Nothing has been done yet. -/
theorem ran_nil (strict : Bool) (l : Locals (Traced W)) : Ran strict l [] l.world.1 (l, .next) where
  calls := by simp [ranCalls]
  err := by simp [ranCalls]
  goes _ := ⟨rfl, rfl⟩
  stops h := by simp [Stops] at h

section

variable {strict : Bool} {made made' : List Made}

/-- While nothing stops the run, all calls are made. -/
theorem ranCalls_append_of_not_stops (h : ¬Stops strict made) (made' : List Made) :
    ranCalls strict (made ++ made') = made ++ ranCalls strict made' := by
  cases strict with
  | false => rfl
  | true =>
    have hnone : ∀ c ∈ made, ¬c.Fails := fun c hc hfails => h ⟨rfl, c, hc, hfails⟩
    exact throughFirst_append_of_forall hnone made'

/-- After the run has been stopped, no calls are made. -/
theorem ranCalls_append_of_stops (h : Stops strict made) (made' : List Made) :
    ranCalls strict (made ++ made') = ranCalls strict made := by
  obtain ⟨rfl, hfails⟩ := h
  exact throughFirst_append_of_exists hfails made'

/-- All calls of a list that does not stop the run are made. -/
theorem ranCalls_of_not_stops (h : ¬Stops strict made) : ranCalls strict made = made := by
  have happend := ranCalls_append_of_not_stops h []
  rw [List.append_nil] at happend
  rw [happend]
  cases strict <;> simp [ranCalls]

/-- A run is stopped in its first or in its second part. -/
theorem stops_append_iff :
    Stops strict (made ++ made') ↔ Stops strict made ∨ Stops strict made' := by
  simp only [Stops, List.mem_append, or_and_right, exists_or, and_or_left]

/-- Two parts of a run, one after the other; the second one is left out when the first one stops
the run. -/
theorem Ran.append {l : Locals (Traced W)} {w w' : W} {res res' : Locals (Traced W) × Flow}
    (h : Ran strict l made w res)
    (hgoes : ¬Stops strict made → Ran strict res.1 made' w' res')
    (hstops : Stops strict made → ∃ w'', Ran strict l made w'' res') :
    Ran strict l (made ++ made') w' res' := by
  by_cases hstop : Stops strict made
  · obtain ⟨w'', hres⟩ := hstops hstop
    exact
      { calls := by rw [hres.calls, ranCalls_append_of_stops hstop]
        err := by rw [hres.err, ranCalls_append_of_stops hstop]
        goes := fun hgo => absurd (stops_append_iff.mpr (.inl hstop)) hgo
        stops := fun _ => hres.stops hstop }
  · have hres := hgoes hstop
    have hmade := ranCalls_of_not_stops hstop
    exact
      { calls := by
          rw [hres.calls, h.calls, ranCalls_append_of_not_stops hstop, hmade, List.map_append,
            List.append_assoc]
        err := by
          rw [hres.err, h.err, ranCalls_append_of_not_stops hstop, hmade, lastResult_append]
        goes := fun hgo => hres.goes fun hstop' => hgo (stops_append_iff.mpr (.inr hstop'))
        stops := fun hstops' => hres.stops ((stops_append_iff.mp hstops').resolve_left hstop) }

end

/-- `replayed_status` reports an error exactly if a call fails in strict mode. -/
theorem replayedStatus_ne_zero_iff (h : Header) (err : ℤ) (strict : Bool) :
    replayedStatus h err strict ≠ 0 ↔ strict = true ∧ (err < 0 ∨ h.result.toInt < 0) := by
  unfold replayedStatus
  cases strict with
  | false => simp
  | true =>
    by_cases hok : 0 ≤ err ∧ 0 ≤ h.result.toInt
    · simp [hok]
    · simp only [if_true, if_neg hok, true_and]
      omega

/-- The end of a case of the `switch` with a single call, after which only a descriptor may have
been closed. -/
theorem ran_settle (sys : Syscalls W) (strict : Bool) (h : Header) (l : Locals (Traced W))
    (auxpath : Option (List UInt8)) (c : SysCall) (w : W) :
    Ran strict l [⟨c, (c.perform sys l.world.1).2, h.result.toInt⟩] w
      (settle strict h { l with auxpath := auxpath }
        ((w, (c.trace sys l.world).1.2), (c.perform sys l.world.1).2)) where
  calls := by simp [settle, SysCall.trace, ranCalls, Made.entry]
  err := by simp [settle, ranCalls]
  goes hgoes := by
    refine ⟨?_, rfl⟩
    simp only [settle]
    rw [if_neg]
    rw [replayedStatus_ne_zero_iff]
    simpa [Stops, Made.Fails] using hgoes
  stops hstops := by
    simp only [settle]
    rw [if_pos]
    rw [replayedStatus_ne_zero_iff]
    simpa [Stops, Made.Fails] using hstops

/-- Closing a descriptor is not one of the calls. -/
theorem closeIf_traced (sys : Syscalls W) (fd : ℤ) (w : Traced W) :
    closeIf sys.traced fd w = (closeIf sys fd w.1, w.2) := by
  unfold closeIf
  split <;> rfl

/-- The case of a write, with its two calls: in strict mode it can be left after the first one. -/
theorem ran_replayWrite (sys : Syscalls W) (strict : Bool) (h : Header) (l : Locals (Traced W))
    (auxpath : Option (List UInt8)) (pathname aux : List UInt8) :
    let opened := sys.openFlags pathname h.recFlags l.world.1
    let written := sys.write opened.2 aux h.auxLen.toInt opened.1
    Ran strict l ([⟨.openFlags pathname h.recFlags, opened.2, h.result.toInt⟩] ++
        [⟨.write opened.2 aux h.auxLen.toInt, written.2, h.result.toInt⟩])
      (closeIf sys opened.2 written.1)
      (replayWrite sys.traced strict h pathname aux { l with auxpath := auxpath }) := by
  intro opened written
  have hstops : Stops strict [⟨.openFlags pathname h.recFlags, opened.2, h.result.toInt⟩] ↔
      replayedStatus h opened.2 strict ≠ 0 := by
    rw [replayedStatus_ne_zero_iff]
    simp [Stops, Made.Fails]
  let calls := l.world.2 ++ [(SysCall.openFlags pathname h.recFlags, opened.2)]
  have hopened : sys.traced.openFlags pathname h.recFlags l.world =
      ((opened.1, calls), opened.2) := rfl
  refine (ran_settle sys strict h l auxpath (.openFlags pathname h.recFlags) opened.1).append ?_ ?_
  · intro hgo
    have hstatus : ¬replayedStatus h opened.2 strict ≠ 0 := mt hstops.mpr hgo
    have hwrite : replayWrite sys.traced strict h pathname aux { l with auxpath := auxpath } =
        settle strict h ⟨(opened.1, calls), opened.2, auxpath⟩
          ((closeIf sys opened.2 written.1,
            calls ++ [(.write opened.2 aux h.auxLen.toInt, written.2)]), written.2) := by
      simp only [replayWrite, hopened]
      rw [if_neg hstatus, closeIf_traced]
      rfl
    rw [hwrite]
    exact ran_settle sys strict h ⟨(opened.1, calls), opened.2, auxpath⟩ auxpath
      (.write opened.2 aux h.auxLen.toInt) _
  · intro hstop
    have hstatus : replayedStatus h opened.2 strict ≠ 0 := hstops.mp hstop
    have hwrite : replayWrite sys.traced strict h pathname aux { l with auxpath := auxpath } =
        settle strict h { l with auxpath := auxpath }
          ((closeIf sys opened.2 opened.1, calls), opened.2) := by
      simp only [replayWrite, hopened]
      rw [if_pos hstatus, closeIf_traced, settle, if_pos hstatus]
    rw [hwrite]
    exact ⟨_, ran_settle sys strict h l auxpath (.openFlags pathname h.recFlags) _⟩

/-- **The calls of a record.**  Processing a record that asks for a call makes its calls, in strict
mode up to the first one that fails. -/
theorem ran_of_asksFor (sys : Syscalls W) (cwd log : List UInt8) (strict : Bool) {r : LogRecord}
    {l : Locals (Traced W)} {c : SysCall} (h : r.asksFor cwd l.auxpath = some c) :
    Ran strict l (r.madeBy sys c l.world.1) (r.worldBy sys c l.world.1)
      (replayRecord ⟨sys.traced, ⟨false, strict⟩, cwd, log⟩ r l) := by
  unfold LogRecord.asksFor at h
  by_cases hneg : r.hdr.pathLen.toInt < 0 ∨
      r.hdr.type ≠ RecType.fwrite.code ∧ r.hdr.auxLen.toInt < 0
  · rw [if_pos hneg] at h
    cases h
  rw [if_neg hneg] at h
  rw [not_or] at hneg
  rw [replayRecord_of_nonneg _ l hneg.1 hneg.2]
  unfold LogRecord.firstCall at h
  unfold LogRecord.madeBy LogRecord.worldBy replaySwitch
  cases htype : RecType.ofCode? r.hdr.type with
  | none => simp [htype] at h
  | some t =>
    simp only [htype] at h
    cases t with
    | fread => cases h
    | dread => cases h
    | fcreat =>
      cases h
      simp only [closeIf_traced]
      exact ran_settle sys strict r.hdr l _ (.openCreat _ _) _
    | fwrite =>
      cases h
      exact ran_replayWrite sys strict r.hdr l _ _ r.aux
    | dcreat =>
      cases h
      exact ran_settle sys strict r.hdr l _ (.mkdir _ _) _
    | rename =>
      obtain ⟨second, hsecond, rfl⟩ := Option.map_eq_some_iff.mp h
      simp only [hsecond]
      exact ran_settle sys strict r.hdr l _ (.rename _ _) _
    | link =>
      obtain ⟨second, hsecond, rfl⟩ := Option.map_eq_some_iff.mp h
      simp only [hsecond]
      exact ran_settle sys strict r.hdr l _ (.link _ _) _
    | symlink =>
      by_cases hzero : r.hdr.auxLen = 0
      · simp [hzero] at h
      · simp only [hzero] at h
        cases h
        simp only [hzero]
        exact ran_settle sys strict r.hdr l _ (.symlink _ _) _
    | unlink =>
      cases h
      exact ran_settle sys strict r.hdr l _ (.remove _) _

/-- A well-formed record asks for its first call. -/
theorem LogRecord.WellFormed.asksFor_eq {r : LogRecord} (h : r.WellFormed) (cwd : List UInt8)
    (auxpath : Option (List UInt8)) : r.asksFor cwd auxpath = r.firstCall cwd := by
  have hnonneg := h.lengths_nonneg
  have hok := h.type_ok
  unfold LogRecord.typeOk at hok
  rw [asksFor, if_neg (not_or.mpr hnonneg)]
  split
  next htype =>
    rw [h.resolvedAux_eq (.inl htype), firstCall, htype]
    rfl
  next htype =>
    rw [h.resolvedAux_eq (.inr htype), firstCall, htype]
    rfl
  next htype =>
    rw [htype] at hok
    rw [if_neg (h.auxLen_ne_zero hok)]
  next => rfl

/-- A well-formed record has a first call. -/
theorem LogRecord.WellFormed.exists_firstCall {r : LogRecord} (h : r.WellFormed)
    (cwd : List UInt8) : ∃ c, r.firstCall cwd = some c := by
  have hok := h.type_ok
  unfold LogRecord.typeOk at hok
  unfold LogRecord.firstCall
  split at hok
  all_goals first | exact hok.elim | skip
  all_goals
    rename_i htype
    rw [htype]
    exact ⟨_, rfl⟩

/-- Processing a well-formed record makes its calls, in strict mode up to the first one that
fails. -/
theorem ran_replayRecord (sys : Syscalls W) (cwd log : List UInt8) (strict : Bool) {r : LogRecord}
    (h : r.WellFormed) (l : Locals (Traced W)) :
    Ran strict l (r.made sys cwd l.world.1) (r.callsWorld sys cwd l.world.1)
      (replayRecord ⟨sys.traced, ⟨false, strict⟩, cwd, log⟩ r l) := by
  obtain ⟨c, hc⟩ := h.exists_firstCall cwd
  rw [LogRecord.made, LogRecord.callsWorld, hc]
  exact ran_of_asksFor sys cwd log strict ((h.asksFor_eq cwd l.auxpath).trans hc)

/-- **The calls of a log.**  Going through a log of well-formed records makes the calls of its
records, in strict mode up to the first one that fails. -/
theorem ran_replayLog (sys : Syscalls W) (cwd log : List UInt8) (strict : Bool)
    {recs : List LogRecord} (hwf : ∀ r ∈ recs, r.WellFormed) (l : Locals (Traced W)) :
    Ran strict l (madeLog sys cwd recs l.world.1) (logWorld sys cwd recs l.world.1)
      (replayLog ⟨sys.traced, ⟨false, strict⟩, cwd, log⟩ recs l) := by
  induction recs generalizing l with
  | nil => exact ran_nil strict l
  | cons r rs ih =>
    obtain ⟨hr, hrs⟩ := List.forall_mem_cons.mp hwf
    have hrecord := ran_replayRecord sys cwd log strict hr l
    refine hrecord.append (fun hgo => ?_) (fun hstop => ?_)
    · obtain ⟨hflow, hworld⟩ := hrecord.goes hgo
      have hrest := ih hrs (replayRecord ⟨sys.traced, ⟨false, strict⟩, cwd, log⟩ r l).1
      rw [hworld] at hrest
      rwa [replayLog_cons_of_next hflow]
    · have hflow := hrecord.stops hstop
      rw [replayLog_cons_of_ne_next (by rw [hflow]; decide)]
      exact ⟨_, hrecord⟩

/-! ### Ends of runs -/

/-- The tool ends in a state at the label `out`. -/
def EndsIn (env : ReplayEnv W) (m : Mem) (w : W) (s : ReplayState W) : Prop :=
  s.pc = .out ∧ ∃ n, (replayStep env)^[n] (replayStart env m w) = s

/-- There the tool stays. -/
theorem iterate_of_out {env : ReplayEnv W} {s : ReplayState W} (h : s.pc = .out) (n : ℕ) :
    (replayStep env)^[n] s = s := by
  induction n with
  | zero => rfl
  | succ n ih => rw [Function.iterate_succ_apply', ih, replayStep, h]

/-- The end of a run is determined. -/
theorem EndsIn.unique {env : ReplayEnv W} {m : Mem} {w : W} {s s' : ReplayState W}
    (h : EndsIn env m w s) (h' : EndsIn env m w s') : s = s' := by
  obtain ⟨hout, n, rfl⟩ := h
  obtain ⟨hout', n', rfl⟩ := h'
  rcases Nat.le_total n n' with hle | hle
  · obtain ⟨k, rfl⟩ := Nat.exists_eq_add_of_le' hle
    rw [Function.iterate_add_apply, iterate_of_out hout]
  · obtain ⟨k, rfl⟩ := Nat.exists_eq_add_of_le' hle
    rw [Function.iterate_add_apply, iterate_of_out hout']

/-- The records that are processed in one of the two modes: those up to the first one at which the
run stops. -/
def processed (strict : Bool) (sys : Syscalls W) (cwd : List UInt8) :
    List LogRecord → W → List LogRecord
  | [], _ => []
  | r :: rs, w =>
    r :: if Stops strict (r.made sys cwd w) then []
      else processed strict sys cwd rs (r.callsWorld sys cwd w)

/-- If nothing stops the run, then all records are processed. -/
theorem processed_of_not_stops {sys : Syscalls W} {cwd : List UInt8} {strict : Bool}
    {recs : List LogRecord} {w : W} (h : ¬Stops strict (madeLog sys cwd recs w)) :
    processed strict sys cwd recs w = recs := by
  induction recs generalizing w with
  | nil => rfl
  | cons r rs ih =>
    rw [madeLog, stops_append_iff, not_or] at h
    rw [processed, if_neg h.1, ih h.2]

/-- These are the records that the loop sees. -/
theorem replayedRecords_eq_processed (sys : Syscalls W) (cwd log : List UInt8) (strict : Bool)
    {recs : List LogRecord} (hwf : ∀ r ∈ recs, r.WellFormed) (l : Locals (Traced W)) :
    replayedRecords ⟨sys.traced, ⟨false, strict⟩, cwd, log⟩ recs l =
      processed strict sys cwd recs l.world.1 := by
  induction recs generalizing l with
  | nil => rfl
  | cons r rs ih =>
    obtain ⟨hr, hrs⟩ := List.forall_mem_cons.mp hwf
    have hrecord := ran_replayRecord sys cwd log strict hr l
    by_cases hstop : Stops strict (r.made sys cwd l.world.1)
    · have hflow := hrecord.stops hstop
      rw [replayedRecords_cons_of_ne_next (by rw [hflow]; decide), processed, if_pos hstop]
    · obtain ⟨hflow, hworld⟩ := hrecord.goes hstop
      rw [replayedRecords_cons_of_next hflow, processed, if_neg hstop, ih hrs, hworld]

/-- On a log of well-formed records that fits one chunk the tool ends, in both modes, after it has
made the calls of that mode and has parsed the records that are processed in it. -/
theorem exists_endsIn (sys : Syscalls W) (cwd : List UInt8) (strict : Bool) {recs : List LogRecord}
    (hwf : ∀ r ∈ recs, r.WellFormed) (hsize : (frames recs).length ≤ chunkSize) (m : Mem) (w : W) :
    ∃ s, EndsIn ⟨sys.traced, ⟨false, strict⟩, cwd, frames recs⟩ m (w, []) s ∧
      s.locals.world.2 = (ranCalls strict (madeLog sys cwd recs w)).map Made.entry ∧
      s.locals.err = lastResult 0 (ranCalls strict (madeLog sys cwd recs w)) ∧
      s.parsed.map Parsed.record = processed strict sys cwd recs w := by
  let env : ReplayEnv (Traced W) := ⟨sys.traced, ⟨false, strict⟩, cwd, frames recs⟩
  obtain ⟨n, hlocals, hparsed, hend⟩ :=
    exists_replayLog (show env.log = _ from rfl) hwf hsize m (w, [])
  have hran := ran_replayLog sys cwd (frames recs) strict hwf ⟨(w, []), 0, none⟩
  refine ⟨(replayStep env)^[n] (replayStart env m (w, [])), ⟨?_, n, rfl⟩, ?_, ?_, ?_⟩
  · rcases hend with ⟨-, hout⟩ | ⟨hflow, hpc⟩
    · exact hout
    · have hstop : Stops strict (madeLog sys cwd recs w) := by
        by_contra hgo
        exact hflow (hran.goes hgo).1
      rw [hpc, hran.stops hstop]
      rfl
  · rw [hlocals, hran.calls]
    rfl
  · rw [hlocals, hran.err]
  · rw [hparsed, replayedRecords_eq_processed sys cwd (frames recs) strict hwf]

end Trfs
