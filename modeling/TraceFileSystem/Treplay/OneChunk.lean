import TraceFileSystem.Treplay.Chunks

/-!
# Logs that fit one chunk

The runs of the replay tool on a log of well-formed records that fits one chunk, whatever the flags
are.  In strict mode a record can end the run.

`replayLog` goes through a list of records until one of them does not let the loop go on, and the
records it has seen by then are `replayedRecords`.  `exists_replayLog` shows that the two nested
loops do just that: they end with the variables of `replayLog`, and these are the records they have
parsed.
-/

namespace Trfs

open ByteStore

variable {W : Type*}

/-- The turns of the inner loop on a list of records, up to the first one that leaves the loop. -/
def replayLog (env : ReplayEnv W) : List LogRecord → Locals W → Locals W × Flow
  | [], l => (l, .next)
  | r :: rs, l =>
    match replayRecord env r l with
    | (l', .next) => replayLog env rs l'
    | (l', flow) => (l', flow)

/-- The records of these turns. -/
def replayedRecords (env : ReplayEnv W) : List LogRecord → Locals W → List LogRecord
  | [], _ => []
  | r :: rs, l =>
    match replayRecord env r l with
    | (l', .next) => r :: replayedRecords env rs l'
    | _ => [r]

/-- A record that lets the loop go on. -/
theorem replayLog_cons_of_next {env : ReplayEnv W} {r : LogRecord} {l : Locals W}
    (h : (replayRecord env r l).2 = .next) (rs : List LogRecord) :
    replayLog env (r :: rs) l = replayLog env rs (replayRecord env r l).1 := by
  rw [replayLog]
  split
  next l' hturn => rw [hturn]
  next l' flow hne hturn =>
    rw [hturn] at h
    exact absurd h hne

/-- A record that leaves the loop. -/
theorem replayLog_cons_of_ne_next {env : ReplayEnv W} {r : LogRecord} {l : Locals W}
    (h : (replayRecord env r l).2 ≠ .next) (rs : List LogRecord) :
    replayLog env (r :: rs) l = replayRecord env r l := by
  rw [replayLog]
  split
  next l' hturn =>
    rw [hturn] at h
    exact absurd rfl h
  next l' flow hne hturn => rw [hturn]

/-- Behind a record that lets the loop go on the others follow. -/
theorem replayedRecords_cons_of_next {env : ReplayEnv W} {r : LogRecord} {l : Locals W}
    (h : (replayRecord env r l).2 = .next) (rs : List LogRecord) :
    replayedRecords env (r :: rs) l = r :: replayedRecords env rs (replayRecord env r l).1 := by
  rw [replayedRecords]
  split
  next l' hturn => rw [hturn]
  next hne =>
    have hturn : replayRecord env r l = ((replayRecord env r l).1, .next) := by rw [← h]
    exact absurd hturn (hne _)

/-- A record that leaves the loop is the last one. -/
theorem replayedRecords_cons_of_ne_next {env : ReplayEnv W} {r : LogRecord} {l : Locals W}
    (h : (replayRecord env r l).2 ≠ .next) (rs : List LogRecord) :
    replayedRecords env (r :: rs) l = [r] := by
  rw [replayedRecords]
  split
  next l' hturn =>
    rw [hturn] at h
    exact absurd rfl h
  next => rfl

section

variable {env : ReplayEnv W} {recs : List LogRecord} {w : W} {s : ReplayState W}
  {done rest : List LogRecord}

/-- The inner loop on the records whose frames fill the rest of the window: it comes to its end, or
it is left at the record at which `replayLog` stops. -/
theorem Sync.run_log (hlog : env.log = frames recs) (hwf : ∀ r ∈ recs, r.WellFormed)
    (h : Sync env recs w s done rest) (hpc : s.pc = .inner)
    (hlimit : s.limit = s.buf + (frames rest).length) :
    ∃ n, ((replayStep env)^[n] s).locals = (replayLog env rest s.locals).1 ∧
      ((replayStep env)^[n] s).parsed.map Parsed.record =
        done ++ replayedRecords env rest s.locals ∧
      (((replayLog env rest s.locals).2 = .next ∧
          Sync env recs w ((replayStep env)^[n] s) recs [] ∧
          ((replayStep env)^[n] s).innerDone ∧ ((replayStep env)^[n] s).limit = s.limit ∧
          ((replayStep env)^[n] s).size = s.size) ∨
        ((replayLog env rest s.locals).2 ≠ .next ∧
          ((replayStep env)^[n] s).pc = (replayLog env rest s.locals).2.pc)) := by
  induction rest generalizing s done with
  | nil =>
    have hdone : done = recs := by rw [h.split, List.append_nil]
    refine ⟨0, rfl, ?_, .inl ⟨rfl, hdone ▸ h, ⟨hpc, ?_⟩, rfl, rfl⟩⟩
    · rw [replayedRecords, List.append_nil]
      exact h.parsed
    · simpa using hlimit.le
  | cons r rest ih =>
    have hr : r.WellFormed := hwf r (by rw [h.split]; simp)
    rw [frames_cons, List.length_append] at hlimit
    have hle : s.buf + r.frame.length ≤ s.limit := by omega
    have hlt : s.buf < s.limit := by
      have := hr.headerSize_lt
      omega
    have hstep : replayStep env s = Trfs.innerTurn env s := by
      simp [replayStep, hpc, hlt]
    by_cases hflow : (replayRecord env r s.locals).2 = .next
    · obtain ⟨hsync, hpc', hbuf', -⟩ := h.innerTurn_of_next hlog hr hpc hle hflow
      have hlocals : (Trfs.innerTurn env s).locals = (replayRecord env r s.locals).1 := by
        rw [h.innerTurn_eq hlog hr hpc hle]
      have hlim : (Trfs.innerTurn env s).limit = s.limit := rfl
      have hsize : (Trfs.innerTurn env s).size = s.size := rfl
      obtain ⟨n, hn⟩ := ih hsync hpc' (by rw [hlim, hbuf']; omega)
      rw [hlocals, ← replayLog_cons_of_next hflow, hlim, hsize, List.append_assoc,
        List.singleton_append, ← replayedRecords_cons_of_next hflow] at hn
      exact ⟨n + 1, by rw [Function.iterate_succ_apply, hstep]; exact hn⟩
    · refine ⟨1, ?_, ?_, .inr ⟨?_, ?_⟩⟩
      · rw [Function.iterate_one, hstep, h.innerTurn_eq hlog hr hpc hle,
          replayLog_cons_of_ne_next hflow]
      · rw [Function.iterate_one, hstep, h.innerTurn_eq hlog hr hpc hle,
          replayedRecords_cons_of_ne_next hflow, List.map_append, h.parsed]
        rfl
      · rwa [replayLog_cons_of_ne_next hflow]
      · rw [Function.iterate_one, hstep, h.innerTurn_eq hlog hr hpc hle,
          replayLog_cons_of_ne_next hflow]

/-- Behind a window with the whole log both loops end. -/
theorem ReplayState.innerDone.exists_out (env : ReplayEnv W) (hdone : s.innerDone)
    (hsize : s.size = 0) (hfsize : s.fsize = s.limit) (hmax : s.limit ≤ intMax) :
    ∃ n, ((replayStep env)^[n] s).pc = .out ∧ ((replayStep env)^[n] s).locals = s.locals ∧
      ((replayStep env)^[n] s).parsed = s.parsed := by
  obtain ⟨hpc, hge⟩ := hdone
  have hnlt : ¬s.buf < s.limit := not_lt.mpr hge
  have hover : ¬intMax < s.size + s.limit := by omega
  have hfirst : replayStep env s =
      { s with pc := .readChunk, size := s.size + s.limit, buf := 0 } := by
    simp [replayStep, hpc, hnlt, hover]
  have hend : ¬s.size + s.limit < s.fsize := by omega
  refine ⟨2, ?_⟩
  rw [Function.iterate_succ_apply, Function.iterate_one, hfirst]
  simp [replayStep, hend]

/-- The size that `stat` reported does not change during a run. -/
theorem fsize_iterate (env : ReplayEnv W) (s : ReplayState W) (n : ℕ) :
    ((replayStep env)^[n] s).fsize = s.fsize := by
  induction n with
  | zero => rfl
  | succ n ih => rw [Function.iterate_succ_apply', fsize_replayStep, ih]

/-- The first step on a log that fits one chunk reads the whole log. -/
theorem replayStep_replayStart (hpos : 0 < env.log.length) (hsize : env.log.length ≤ chunkSize)
    (m : Mem) (w : W) : replayStep env (replayStart env m w) = wholeStart env m w := by
  have hchunk : (chunkSize : ℤ) ≤ intMax := by decide
  have hlt : (0 : ℤ) < statSize env.log := by
    rw [statSize_eq (by omega)]
    exact_mod_cast hpos
  simp only [replayStep, replayStart, wholeStart, hlt, if_true, List.drop_zero,
    List.take_of_length_le hsize, Nat.zero_add]

/-- How a run on a log of well-formed records that fits one chunk ends: with the variables and the
records of `replayLog`, at the label `out` if every record lets the loop go on, and otherwise where
the first other record leads. -/
theorem exists_replayLog (hlog : env.log = frames recs) (hwf : ∀ r ∈ recs, r.WellFormed)
    (hsize : (frames recs).length ≤ chunkSize) (m : Mem) (w : W) :
    ∃ n, ((replayStep env)^[n] (replayStart env m w)).locals =
        (replayLog env recs ⟨w, 0, none⟩).1 ∧
      ((replayStep env)^[n] (replayStart env m w)).parsed.map Parsed.record =
        replayedRecords env recs ⟨w, 0, none⟩ ∧
      (((replayLog env recs ⟨w, 0, none⟩).2 = .next ∧
          ((replayStep env)^[n] (replayStart env m w)).pc = .out) ∨
        ((replayLog env recs ⟨w, 0, none⟩).2 ≠ .next ∧
          ((replayStep env)^[n] (replayStart env m w)).pc =
            (replayLog env recs ⟨w, 0, none⟩).2.pc)) := by
  have hchunk : (chunkSize : ℤ) ≤ intMax := by decide
  have hstat : statSize env.log = env.log.length := statSize_eq (by rw [hlog]; omega)
  by_cases hnil : recs = []
  · subst hnil
    have hzero : statSize env.log = 0 := by
      rw [hstat, hlog]
      rfl
    have hstep : (replayStep env)^[1] (replayStart env m w) =
        { replayStart env m w with pc := .out } := by
      simp [replayStep, replayStart, hzero]
    refine ⟨1, ?_⟩
    rw [hstep]
    exact ⟨rfl, rfl, .inl ⟨rfl, rfl⟩⟩
  · have hpos : 0 < env.log.length := by
      obtain ⟨r, rs, rfl⟩ := List.exists_cons_of_ne_nil hnil
      have hlt := (hwf r (by simp)).headerSize_lt
      rw [hlog, frames_cons, List.length_append]
      omega
    have hiter (k : ℕ) : (replayStep env)^[k + 1] (replayStart env m w) =
        (replayStep env)^[k] (wholeStart env m w) := by
      rw [Function.iterate_succ_apply, replayStep_replayStart hpos (hlog ▸ hsize)]
    have hlimit : (wholeStart env m w).limit = (wholeStart env m w).buf + (frames recs).length := by
      simp [wholeStart, hlog]
    obtain ⟨n, hlocals, hparsed, hend⟩ :=
      (sync_wholeStart env recs m w).run_log hlog hwf rfl hlimit
    rw [List.nil_append] at hparsed
    rcases hend with ⟨hflow, hsync, hdone, hlimit', hsize'⟩ | ⟨hflow, hpc⟩
    · have hfsize : ((replayStep env)^[n] (wholeStart env m w)).fsize =
          ((replayStep env)^[n] (wholeStart env m w)).limit := by
        rw [fsize_iterate, hlimit']
        exact hstat
      have hmax : ((replayStep env)^[n] (wholeStart env m w)).limit ≤ intMax := by
        rw [hlimit', hlimit]
        simp only [wholeStart]
        omega
      obtain ⟨j, hout, hlocals', hparsed'⟩ := hdone.exists_out env hsize' hfsize hmax
      rw [← Function.iterate_add_apply, ← hiter] at hout hlocals' hparsed'
      exact ⟨j + n + 1, hlocals'.trans hlocals, by rw [hparsed']; exact hparsed,
        .inl ⟨hflow, hout⟩⟩
    · rw [← hiter] at hlocals hparsed hpc
      exact ⟨n + 1, hlocals, hparsed, .inr ⟨hflow, hpc⟩⟩

end

end Trfs
