import TraceFileSystem.Treplay.Framing

/-!
# Reading the log in chunks

The outer loop of the replay tool reads the log in chunks of `chunkSize` bytes and starts every
chunk as if a record began there.  Nothing carries a record over from one chunk to the next, so the
two nested loops process the records of the log exactly when every chunk boundary is a record
boundary (`ChunkAligned`) and the size of the log fits the `int` it is kept in.

`ChunkInv` is what the outer loop adds to the invariant `Sync`: the boundaries of all chunks read so
far are record boundaries.  It cannot be violated by a run that parses only bytes of its chunks,
which gives one direction, and on an aligned log every record lies in its chunk, which gives the
other.
-/

namespace Trfs

open ByteStore LittleEndian

variable {W : Type*}

/-- A record of the log ends at the position `pos`, or `pos` is the start of the log. -/
def RecordBoundary (recs : List LogRecord) (pos : ℕ) : Prop :=
  ∃ i, (frames (recs.take i)).length = pos

/-- Every chunk boundary within the log is a record boundary. -/
def ChunkAligned (recs : List LogRecord) : Prop :=
  ∀ k, k * chunkSize ≤ (frames recs).length → RecordBoundary recs (k * chunkSize)

/-- The chunk boundaries up to `pos` are record boundaries. -/
def AlignedUpTo (recs : List LogRecord) (pos : ℕ) : Prop :=
  ∀ k, k * chunkSize ≤ pos → RecordBoundary recs (k * chunkSize)

/-- A log that fits one chunk is aligned. -/
theorem chunkAligned_of_le {recs : List LogRecord} (h : (frames recs).length ≤ chunkSize) :
    ChunkAligned recs := by
  intro k hk
  rcases Nat.eq_zero_or_pos k with rfl | hpos
  · exact ⟨0, by simp⟩
  · have hle : chunkSize ≤ k * chunkSize := Nat.le_mul_of_pos_left _ hpos
    exact ⟨recs.length, by rw [List.take_length]; omega⟩

/-- The position behind some first records is a boundary. -/
theorem recordBoundary_append (done rest : List LogRecord) :
    RecordBoundary (done ++ rest) (frames done).length :=
  ⟨done.length, by rw [List.take_left]⟩

/-- Behind a boundary lies the whole next record, up to the next boundary. -/
theorem frame_le_of_boundary {done rest : List LogRecord} {r : LogRecord} {pos : ℕ}
    (hb : RecordBoundary (done ++ r :: rest) pos) (hlt : (frames done).length < pos) :
    (frames done).length + r.frame.length ≤ pos := by
  obtain ⟨i, rfl⟩ := hb
  rw [List.take_append, frames_append, List.length_append] at hlt ⊢
  have hle : (frames (done.take i)).length ≤ (frames done).length := by
    conv_rhs => rw [← List.take_append_drop i done, frames_append, List.length_append]
    exact Nat.le_add_right _ _
  rcases Nat.lt_or_ge done.length i with hi | hi
  · obtain ⟨j, rfl⟩ := Nat.exists_eq_add_of_lt hi
    have htake : done.take (done.length + j + 1) = done := List.take_of_length_le (by omega)
    have hj : done.length + j + 1 - done.length = j + 1 := by omega
    rw [htake, hj, List.take_succ_cons, frames_cons, List.length_append]
    omega
  · rw [Nat.sub_eq_zero_of_le hi] at hlt
    simp at hlt
    omega

/-- The boundaries of the chunks read so far are record boundaries, and a window of the inner loop
is a whole chunk or the last one. -/
def ChunkInv (recs : List LogRecord) (s : ReplayState W) : Prop :=
  match s.pc with
  | .readChunk | .out =>
    (s.offset = (frames recs).length ∨ chunkSize ∣ s.offset) ∧ AlignedUpTo recs s.offset
  | .inner => ∃ start : ℕ, s.size = start ∧ chunkSize ∣ start ∧
      s.limit = (min chunkSize ((frames recs).length - start) : ℕ) ∧ AlignedUpTo recs start
  | .crashed => True

/-- The start of the outer loop. -/
theorem sync_replayStart (env : ReplayEnv W) (recs : List LogRecord) (m : Mem) (w : W) :
    Sync env recs w (replayStart env m w) [] recs :=
  ⟨rfl, rfl, rfl, rfl, rfl, by simp [replayStart, intMax]⟩

/-- At the start no chunk has been read. -/
theorem chunkInv_replayStart (env : ReplayEnv W) (recs : List LogRecord) (m : Mem) (w : W) :
    ChunkInv recs (replayStart env m w) := by
  refine ⟨Or.inr (Nat.dvd_zero _), fun k hk => ⟨0, ?_⟩⟩
  have : k * chunkSize = 0 := Nat.le_zero.mp hk
  simp [this]

/-- The size kept in an `int` is never more than the size of the log. -/
theorem statSize_le (log : List UInt8) : statSize log ≤ log.length := by
  rw [statSize, ← BitVec.ofInt_natCast, BitVec.toInt_ofInt, Int.bmod_def]
  split <;> omega

/-- The size of a log below `2 ^ 31` bytes is kept. -/
theorem statSize_eq {log : List UInt8} (h : (log.length : ℤ) ≤ intMax) :
    statSize log = log.length := by
  rw [intMax] at h
  rw [statSize, ← BitVec.ofInt_natCast, BitVec.toInt_ofInt, Int.bmod_def]
  split <;> omega

/-- The state of a run over the chunks that has parsed only bytes of its chunks. -/
structure ChunkRun (env : ReplayEnv W) (recs : List LogRecord) (w : W) (s : ReplayState W) :
    Prop where
  sync : ∃ done rest, Sync env recs w s done rest
  chunks : ChunkInv recs s
  fsize_eq : s.fsize = statSize env.log

section Run

variable {env : ReplayEnv W} {recs : List LogRecord} {w : W} {s : ReplayState W}

/-- The size that `stat` reported does not change. -/
theorem fsize_replayStep (env : ReplayEnv W) (s : ReplayState W) :
    (replayStep env s).fsize = s.fsize := by
  unfold replayStep
  split
  · split <;> rfl
  · split
    · rfl
    · split <;> rfl
  all_goals rfl

/-- The records parsed so far stay. -/
theorem parsed_prefix_replayStep (env : ReplayEnv W) (s : ReplayState W) :
    s.parsed <+: (replayStep env s).parsed := by
  unfold replayStep
  split
  · split <;> exact List.prefix_rfl
  · split
    · exact List.prefix_append _ _
    · split <;> exact List.prefix_rfl
  all_goals exact List.prefix_rfl

/-- A state before a clean one is clean. -/
theorem ReplayState.clean.of_replayStep (h : (replayStep env s).clean) : s.clean :=
  fun p hp => h p ((parsed_prefix_replayStep env s).subset hp)

/-- The outer loop reads whole chunks from chunk boundaries. -/
theorem ChunkInv.readChunk (hlog : env.log = frames recs) (hrun : ChunkRun env recs w s)
    (hpc : s.pc = .readChunk) : ChunkInv recs (replayStep env s) := by
  obtain ⟨done, rest, hsync⟩ := hrun.sync
  have hst := hsync.stands
  have hinv := hrun.chunks
  simp only [ReplayState.standsAt, hpc] at hst
  simp only [ChunkInv, hpc] at hinv
  obtain ⟨hsize, hoff, -⟩ := hst
  obtain ⟨hend, hal⟩ := hinv
  by_cases hlt : s.size < s.fsize
  · have hdvd : chunkSize ∣ s.offset := by
      rcases hend with hend | hdvd
      · have := statSize_le env.log
        rw [hrun.fsize_eq, hsize] at hlt
        rw [hlog] at this hlt
        omega
      · exact hdvd
    simp only [replayStep, hpc, hlt, if_true, ChunkInv]
    refine ⟨s.offset, by rw [hsize, hoff], hdvd, ?_, hal⟩
    rw [List.length_take, List.length_drop, hlog]
  · simp only [replayStep, hpc, hlt, if_false, ChunkInv]
    exact ⟨hend, hal⟩

/-- At the end of a chunk the loop stands on a record boundary, so the end of the chunk is one. -/
theorem ChunkInv.innerEnd (hrun : ChunkRun env recs w s) (hpc : s.pc = .inner)
    (hge : s.limit ≤ s.buf) : ChunkInv recs (replayStep env s) := by
  obtain ⟨done, rest, hsync⟩ := hrun.sync
  have hst := hsync.stands
  have hinv := hrun.chunks
  simp only [ReplayState.standsAt, hpc] at hst
  simp only [ChunkInv, hpc] at hinv
  obtain ⟨start, limit, buf, hsize, hlimit, hbuf, hbl, hpos, hoff, -, -⟩ := hst
  obtain ⟨start', hsize', hdvd, hlim, hal⟩ := hinv
  obtain rfl : start' = start := by omega
  have hnlt : ¬s.buf < s.limit := by omega
  by_cases hover : intMax < s.size + s.limit
  · simp only [replayStep, hpc, hnlt, if_false, hover, if_true, ChunkInv]
  · simp only [replayStep, hpc, hnlt, if_false, hover, ChunkInv]
    have hlim' : limit = min chunkSize ((frames recs).length - start') := by
      exact_mod_cast hlimit.symm.trans hlim
    have hboundary : RecordBoundary recs s.offset := by
      have : s.offset = (frames done).length := by omega
      rw [this, hsync.split]
      exact recordBoundary_append done rest
    have hle : start' ≤ (frames recs).length := by
      have : (frames done).length ≤ (frames recs).length := by
        rw [hsync.split, frames_append, List.length_append]
        exact Nat.le_add_right _ _
      omega
    refine ⟨?_, fun k hk => ?_⟩
    · rcases Nat.le_total chunkSize ((frames recs).length - start') with hc | hc
      · right
        rw [hoff, hlim', Nat.min_eq_left hc]
        exact Dvd.dvd.add hdvd (dvd_refl _)
      · left
        rw [hoff, hlim', Nat.min_eq_right hc]
        omega
    · rcases Nat.lt_or_ge start' (k * chunkSize) with hk' | hk'
      · -- the next multiple of the chunk size above the start is the end of the chunk
        obtain ⟨j, rfl⟩ := hdvd
        have hjk : j + 1 ≤ k := by
          rw [Nat.mul_comm] at hk'
          exact Nat.lt_of_mul_lt_mul_right hk'
        have hmul : (j + 1) * chunkSize ≤ k * chunkSize := Nat.mul_le_mul_right _ hjk
        have heq : k * chunkSize = s.offset := by
          rw [Nat.add_mul, Nat.one_mul, Nat.mul_comm j] at hmul
          omega
        rw [heq]
        exact hboundary
      · exact hal k hk'

/-- A turn of the inner loop changes neither the window nor the chunks. -/
theorem ChunkInv.innerTurn (hinv : ChunkInv recs s) (hpc : s.pc = .inner)
    (hpc' : (innerTurn env s).pc = .inner) : ChunkInv recs (innerTurn env s) := by
  simp only [ChunkInv, hpc] at hinv
  simp only [ChunkInv, hpc']
  exact hinv

/-- The invariant of the whole run is preserved by a turn on a record that lies in its chunk. -/
theorem ChunkRun.innerTurn {done rest : List LogRecord} {r : LogRecord}
    (hrun : ChunkRun env recs w s) (hsync : Sync env recs w s done (r :: rest))
    (hlog : env.log = frames recs) (hstrict : env.flags.strict = false) (hr : r.WellFormed)
    (hpc : s.pc = .inner) (hle : s.buf + r.frame.length ≤ s.limit) :
    ChunkRun env recs w (innerTurn env s) := by
  obtain ⟨hsync', hpc', -, -⟩ := hsync.innerTurn hlog hstrict hr hpc hle
  exact ⟨⟨_, _, hsync'⟩, hrun.chunks.innerTurn hpc hpc', hrun.fsize_eq⟩

/-- The invariant of the whole run is preserved by every step outside the inner loop's body. -/
theorem ChunkRun.replayStep_of_not_turn (hrun : ChunkRun env recs w s)
    (hlog : env.log = frames recs) (hturn : ¬(s.pc = .inner ∧ s.buf < s.limit)) :
    ChunkRun env recs w (replayStep env s) := by
  obtain ⟨done, rest, hsync⟩ := hrun.sync
  have hfsize : (replayStep env s).fsize = statSize env.log :=
    (fsize_replayStep env s).trans hrun.fsize_eq
  cases hpc : s.pc with
  | readChunk => exact ⟨⟨done, rest, hsync.readChunk hlog hpc⟩, ChunkInv.readChunk hlog hrun hpc,
    hfsize⟩
  | inner =>
    have hge : s.limit ≤ s.buf := not_lt.mp fun hlt => hturn ⟨hpc, hlt⟩
    exact ⟨⟨done, rest, hsync.innerEnd hpc hge⟩, ChunkInv.innerEnd hrun hpc hge, hfsize⟩
  | out => simpa [replayStep, hpc] using hrun
  | crashed => simpa [replayStep, hpc] using hrun

/-- A step that parses only bytes of its chunk preserves the invariant of the whole run. -/
theorem ChunkRun.replayStep_of_clean (hrun : ChunkRun env recs w s) (hlog : env.log = frames recs)
    (hstrict : env.flags.strict = false) (hwf : ∀ r ∈ recs, r.WellFormed)
    (hclean : (replayStep env s).clean) : ChunkRun env recs w (replayStep env s) := by
  by_cases hturn : s.pc = .inner ∧ s.buf < s.limit
  · obtain ⟨hpc, hlt⟩ := hturn
    obtain ⟨done, rest, hsync⟩ := hrun.sync
    obtain ⟨r, rest', rfl⟩ := hsync.exists_next hlog hpc hlt
    have hr : r.WellFormed := hwf r (by rw [hsync.split]; simp)
    have hstep : replayStep env s = Trfs.innerTurn env s := by simp [replayStep, hpc, hlt]
    rw [hstep] at hclean ⊢
    exact hrun.innerTurn hsync hlog hstrict hr hpc (hsync.frame_le_of_clean hlog hr hpc hclean)
  · exact hrun.replayStep_of_not_turn hlog hturn

/-- The run over the chunks starts in the invariant. -/
theorem chunkRun_replayStart (env : ReplayEnv W) (recs : List LogRecord) (m : Mem) (w : W) :
    ChunkRun env recs w (replayStart env m w) :=
  ⟨⟨[], recs, sync_replayStart env recs m w⟩, chunkInv_replayStart env recs m w, rfl⟩

/-- Along a run that parses only bytes of its chunks the invariant holds. -/
theorem chunkRun_iterate (hlog : env.log = frames recs) (hstrict : env.flags.strict = false)
    (hwf : ∀ r ∈ recs, r.WellFormed) (m : Mem) (n : ℕ)
    (hclean : ((replayStep env)^[n] (replayStart env m w)).clean) :
    ChunkRun env recs w ((replayStep env)^[n] (replayStart env m w)) := by
  induction n with
  | zero => exact chunkRun_replayStart env recs m w
  | succ n ih =>
    rw [Function.iterate_succ_apply'] at hclean ⊢
    exact (ih hclean.of_replayStep).replayStep_of_clean hlog hstrict hwf hclean

/-- A run that ends with all records parsed from bytes of their chunks shows that the log is small
and aligned. -/
theorem aligned_of_run (hlog : env.log = frames recs) (hstrict : env.flags.strict = false)
    (hwf : ∀ r ∈ recs, r.WellFormed) (m : Mem) (n : ℕ)
    (hout : ((replayStep env)^[n] (replayStart env m w)).pc = .out)
    (hparsed : ((replayStep env)^[n] (replayStart env m w)).parsed.map Parsed.record = recs)
    (hclean : ((replayStep env)^[n] (replayStart env m w)).clean) :
    ((frames recs).length : ℤ) ≤ intMax ∧ ChunkAligned recs := by
  obtain ⟨⟨done, rest, hsync⟩, hinv, -⟩ := chunkRun_iterate hlog hstrict hwf m n hclean
  have hdone : done = recs := hsync.parsed.symm.trans hparsed
  subst hdone
  have hst := hsync.stands
  simp only [ReplayState.standsAt, hout] at hst
  simp only [ChunkInv, hout] at hinv
  obtain ⟨hsize, hoff, hmax, -⟩ := hst
  refine ⟨by omega, fun k hk => hinv.2 k (by omega)⟩

/-! ### Aligned logs -/

/-- On an aligned log the next record ends inside the chunk it starts in. -/
theorem ChunkRun.frame_le {done rest : List LogRecord} {r : LogRecord}
    (hrun : ChunkRun env recs w s) (hsync : Sync env recs w s done (r :: rest))
    (hal : ChunkAligned recs) (hpc : s.pc = .inner) (hlt : s.buf < s.limit) :
    s.buf + r.frame.length ≤ s.limit := by
  have hst := hsync.stands
  have hinv := hrun.chunks
  simp only [ReplayState.standsAt, hpc] at hst
  simp only [ChunkInv, hpc] at hinv
  obtain ⟨start, limit, buf, hsize, hlimit, hbuf, -, hpos, -, -, -⟩ := hst
  obtain ⟨start', hsize', ⟨j, hj⟩, hlim, -⟩ := hinv
  obtain rfl : start' = start := by omega
  have hlim' : limit = min chunkSize ((frames recs).length - start') := by
    exact_mod_cast hlimit.symm.trans hlim
  have hboundary : RecordBoundary recs (start' + limit) := by
    rcases Nat.le_total chunkSize ((frames recs).length - start') with hc | hc
    · have hend : start' + limit = (j + 1) * chunkSize := by
        rw [hlim', Nat.min_eq_left hc, hj]
        ring
      rw [hend]
      apply hal
      omega
    · have hend : start' + limit = (frames recs).length := by
        rw [hlim', Nat.min_eq_right hc]
        omega
      rw [hend]
      exact ⟨recs.length, by rw [List.take_length]⟩
  rw [hsync.split] at hboundary
  have := frame_le_of_boundary hboundary (by omega)
  omega

/-- How much of the run is still to come: records not yet parsed, and the turn of the outer loop. -/
def replayMeasure (recs : List LogRecord) (s : ReplayState W) : ℕ :=
  3 * (recs.length - s.parsed.length) +
    match s.pc with
    | .inner => if s.buf < s.limit then 0 else 2
    | .readChunk => 1
    | .out | .crashed => 0

/-- A run over an aligned log that has parsed only bytes of its chunks and has not been killed. -/
structure AlignedRun (env : ReplayEnv W) (recs : List LogRecord) (w : W) (s : ReplayState W) :
    Prop where
  run : ChunkRun env recs w s
  clean : s.clean
  alive : s.pc ≠ .crashed

/-- The inner loop on an aligned log: the record at the position is the next record of the log, the
turn keeps the invariant and moves forward by the length of the frame. -/
theorem AlignedRun.innerTurn (h : AlignedRun env recs w s) (hlog : env.log = frames recs)
    (hstrict : env.flags.strict = false) (hwf : ∀ r ∈ recs, r.WellFormed)
    (hal : ChunkAligned recs) (hpc : s.pc = .inner) (hlt : s.buf < s.limit) :
    AlignedRun env recs w (innerTurn env s) ∧ s.buf < (innerTurn env s).buf ∧
      (innerTurn env s).pc = .inner ∧ (innerTurn env s).parsed.length = s.parsed.length + 1 ∧
      s.parsed.length < recs.length := by
  obtain ⟨done, rest, hsync⟩ := h.run.sync
  obtain ⟨r, rest', rfl⟩ := hsync.exists_next hlog hpc hlt
  have hr : r.WellFormed := hwf r (by rw [hsync.split]; simp)
  have hle := h.run.frame_le hsync hal hpc hlt
  obtain ⟨-, hpc', hbuf', hparsed'⟩ := hsync.innerTurn hlog hstrict hr hpc hle
  have hlen : s.parsed.length = done.length := by
    rw [← hsync.parsed, List.length_map]
  refine ⟨⟨h.run.innerTurn hsync hlog hstrict hr hpc hle, ?_, ?_⟩, ?_, hpc', ?_, ?_⟩
  · intro p hp
    rw [hparsed', List.mem_append, List.mem_singleton] at hp
    rcases hp with hp | rfl
    · exact h.clean p hp
    · exact hle
  · rw [hpc']
    decide
  · have := hr.headerSize_lt
    rw [hbuf']
    omega
  · rw [hparsed', List.length_append, List.length_singleton]
  · rw [hlen, hsync.split, List.length_append, List.length_cons]
    omega

/-- Outside the body of the inner loop a run over a small aligned log goes on, and comes closer to
its end. -/
theorem AlignedRun.replayStep_of_not_turn (h : AlignedRun env recs w s)
    (hlog : env.log = frames recs) (hmax : ((frames recs).length : ℤ) ≤ intMax)
    (hturn : ¬(s.pc = .inner ∧ s.buf < s.limit)) :
    AlignedRun env recs w (replayStep env s) ∧
      (s.pc ≠ .out → replayMeasure recs (replayStep env s) < replayMeasure recs s) := by
  have hrun := h.run.replayStep_of_not_turn hlog hturn
  obtain ⟨done, rest, hsync⟩ := h.run.sync
  have hst := hsync.stands
  cases hpc : s.pc with
  | readChunk =>
    simp only [ReplayState.standsAt, hpc] at hst
    obtain ⟨hsize, hoff, -⟩ := hst
    by_cases hlt : s.size < s.fsize
    · -- the chunk is not empty, so the next step is a turn of the inner loop
      have hchunk : (0 : ℤ) < ((env.log.drop s.offset).take chunkSize).length := by
        have := statSize_le env.log
        rw [h.run.fsize_eq] at hlt
        rw [List.length_take, List.length_drop, chunkSize]
        omega
      simp only [replayStep, hpc, hlt, if_true] at hrun ⊢
      refine ⟨⟨hrun, h.clean, by simp⟩, fun _ => ?_⟩
      simp only [replayMeasure, hpc, hchunk, if_true]
      omega
    · simp only [replayStep, hpc, hlt, if_false] at hrun ⊢
      refine ⟨⟨hrun, h.clean, by simp⟩, fun _ => ?_⟩
      simp [replayMeasure, hpc]
  | inner =>
    simp only [ReplayState.standsAt, hpc] at hst
    obtain ⟨start, limit, buf, hsize, hlimit, -, -, -, -, hend, -⟩ := hst
    have hnlt : ¬s.buf < s.limit := fun hlt => hturn ⟨hpc, hlt⟩
    have hover : ¬intMax < s.size + s.limit := by
      rw [hlog] at hend
      omega
    simp only [replayStep, hpc, hnlt, if_false, hover] at hrun ⊢
    refine ⟨⟨hrun, h.clean, by simp⟩, fun _ => ?_⟩
    simp [replayMeasure, hpc, hnlt]
  | out =>
    have hstep : replayStep env s = s := by simp [replayStep, hpc]
    exact ⟨hstep.symm ▸ h, fun hne => absurd rfl hne⟩
  | crashed => exact absurd hpc h.alive

/-- One step of a run over a small aligned log: the invariant stays, a turn of the inner loop moves
forward, and before the end the measure decreases. -/
theorem AlignedRun.replayStep (h : AlignedRun env recs w s) (hlog : env.log = frames recs)
    (hstrict : env.flags.strict = false) (hwf : ∀ r ∈ recs, r.WellFormed)
    (hmax : ((frames recs).length : ℤ) ≤ intMax) (hal : ChunkAligned recs) :
    AlignedRun env recs w (replayStep env s) ∧
      (s.pc ≠ .out → replayMeasure recs (Trfs.replayStep env s) < replayMeasure recs s) := by
  by_cases hturn : s.pc = .inner ∧ s.buf < s.limit
  · obtain ⟨hpc, hlt⟩ := hturn
    have hstep : Trfs.replayStep env s = Trfs.innerTurn env s := by
      simp [Trfs.replayStep, hpc, hlt]
    obtain ⟨hrun, -, hpc', hlen, hlt'⟩ := h.innerTurn hlog hstrict hwf hal hpc hlt
    rw [hstep]
    refine ⟨hrun, fun _ => ?_⟩
    simp only [replayMeasure, hpc, hpc', hlen, hlt, if_true]
    split <;> omega
  · exact h.replayStep_of_not_turn hlog hmax hturn

/-- The start of the outer loop is such a run. -/
theorem alignedRun_replayStart (env : ReplayEnv W) (recs : List LogRecord) (m : Mem) (w : W) :
    AlignedRun env recs w (replayStart env m w) :=
  ⟨chunkRun_replayStart env recs m w, by simp [ReplayState.clean, replayStart],
    by simp [replayStart]⟩

/-- At the end of a run over a small aligned log all records have been parsed and replayed. -/
theorem AlignedRun.parsed_eq (h : AlignedRun env recs w s) (hlog : env.log = frames recs)
    (hwf : ∀ r ∈ recs, r.WellFormed) (hmax : ((frames recs).length : ℤ) ≤ intMax)
    (hpc : s.pc = .out) :
    s.parsed.map Parsed.record = recs ∧ s.locals = replayAll env recs ⟨w, 0, none⟩ := by
  obtain ⟨done, rest, hsync⟩ := h.run.sync
  have hst := hsync.stands
  simp only [ReplayState.standsAt, hpc] at hst
  obtain ⟨hsize, -, -, hfsize⟩ := hst
  have hlen : (frames recs).length = (frames done).length + (frames rest).length := by
    rw [hsync.split, frames_append, List.length_append]
  rw [h.run.fsize_eq, statSize_eq (by rwa [hlog]), hlog] at hfsize
  have hrest : rest = [] := by
    cases rest with
    | nil => rfl
    | cons r rest =>
      have hr : r.WellFormed := hwf r (by rw [hsync.split]; simp)
      have := hr.headerSize_lt
      rw [frames_cons, List.length_append] at hlen
      omega
  have hdone : done = recs := by rw [hsync.split, hrest, List.append_nil]
  exact ⟨hsync.parsed.trans hdone, hdone ▸ hsync.locals⟩

/-- Every state of a run over a small aligned log satisfies the invariant. -/
theorem alignedRun_iterate (hlog : env.log = frames recs) (hstrict : env.flags.strict = false)
    (hwf : ∀ r ∈ recs, r.WellFormed) (hmax : ((frames recs).length : ℤ) ≤ intMax)
    (hal : ChunkAligned recs) (m : Mem) (w : W) (n : ℕ) :
    AlignedRun env recs w ((Trfs.replayStep env)^[n] (replayStart env m w)) :=
  Machine.iterate_invariant (fun _ h => (h.replayStep hlog hstrict hwf hmax hal).1)
    (alignedRun_replayStart env recs m w) n

/-- **Aligned logs are replayed.**  On a small aligned log the two loops end, having parsed and
replayed exactly the records of the log, each from bytes of its chunk. -/
theorem aligned_replays (hlog : env.log = frames recs) (hstrict : env.flags.strict = false)
    (hwf : ∀ r ∈ recs, r.WellFormed) (hmax : ((frames recs).length : ℤ) ≤ intMax)
    (hal : ChunkAligned recs) (m : Mem) (w : W) :
    ∃ n, ((Trfs.replayStep env)^[n] (replayStart env m w)).pc = .out ∧
      ((Trfs.replayStep env)^[n] (replayStart env m w)).parsed.map Parsed.record = recs ∧
      ((Trfs.replayStep env)^[n] (replayStart env m w)).locals = replayAll env recs ⟨w, 0, none⟩ ∧
      ((Trfs.replayStep env)^[n] (replayStart env m w)).clean := by
  obtain ⟨n, hrun, hout⟩ := Machine.exists_iterate_of_measure (fun s => s.pc = .out)
    (replayMeasure recs)
    (fun s h hgoal => ⟨(h.replayStep hlog hstrict hwf hmax hal).1,
      (h.replayStep hlog hstrict hwf hmax hal).2 hgoal⟩)
    (alignedRun_replayStart env recs m w)
  obtain ⟨hparsed, hlocals⟩ := hrun.parsed_eq hlog hwf hmax hout
  exact ⟨n, hout, hparsed, hlocals, hrun.clean⟩

/-! ### Chunks against one buffer -/

/-- A run of the inner loop on one buffer that holds the whole log. -/
structure WholeRun (env : ReplayEnv W) (recs : List LogRecord) (w : W) (s : ReplayState W) :
    Prop where
  sync : ∃ done rest, Sync env recs w s done rest
  offset_eq : s.offset = env.log.length
  size_eq : s.pc = .inner → s.size = 0
  fsize_eq : s.fsize = statSize env.log

/-- With the whole log in the buffer no record can reach beyond it, and no second chunk is read. -/
theorem WholeRun.replayStep (h : WholeRun env recs w s) (hlog : env.log = frames recs)
    (hstrict : env.flags.strict = false) (hwf : ∀ r ∈ recs, r.WellFormed) :
    WholeRun env recs w (replayStep env s) := by
  obtain ⟨done, rest, hsync⟩ := h.sync
  have hfsize := (fsize_replayStep env s).trans h.fsize_eq
  have hst := hsync.stands
  cases hpc : s.pc with
  | readChunk =>
    simp only [ReplayState.standsAt, hpc] at hst
    have hnlt : ¬s.size < s.fsize := by
      have := statSize_le env.log
      rw [h.fsize_eq, hst.1, ← hst.2.1, h.offset_eq]
      omega
    have hstep : Trfs.replayStep env s = { s with pc := .out } := by
      simp [Trfs.replayStep, hpc, hnlt]
    exact ⟨⟨done, rest, hsync.readChunk hlog hpc⟩, by rw [hstep]; exact h.offset_eq,
      by rw [hstep]; simp, hfsize⟩
  | inner =>
    by_cases hlt : s.buf < s.limit
    · have hstep : Trfs.replayStep env s = Trfs.innerTurn env s := by
        simp [Trfs.replayStep, hpc, hlt]
      obtain ⟨r, rest', rfl⟩ := hsync.exists_next hlog hpc hlt
      have hr : r.WellFormed := hwf r (by rw [hsync.split]; simp)
      have hle : s.buf + r.frame.length ≤ s.limit := by
        simp only [ReplayState.standsAt, hpc] at hst
        obtain ⟨start, limit, buf, hsize, hlimit, hbuf, -, hpos, hoff, -, -⟩ := hst
        have hzero := h.size_eq hpc
        have hoffset := h.offset_eq
        have hlen : env.log.length = (frames done).length +
          (r.frame.length + (frames rest').length) := by
          rw [hlog, hsync.split, frames_append, frames_cons, List.length_append, List.length_append]
        omega
      rw [hstep]
      exact ⟨⟨_, _, (hsync.innerTurn hlog hstrict hr hpc hle).1⟩, h.offset_eq,
        fun _ => h.size_eq hpc, hstep ▸ hfsize⟩
    · have hoff : (Trfs.replayStep env s).offset = s.offset := by
        simp only [Trfs.replayStep, hpc, hlt, if_false]
        split <;> rfl
      have hpc' : (Trfs.replayStep env s).pc ≠ .inner := by
        simp only [Trfs.replayStep, hpc, hlt, if_false]
        split <;> simp
      exact ⟨⟨done, rest, hsync.innerEnd hpc (not_lt.mp hlt)⟩, hoff.trans h.offset_eq,
        fun hi => absurd hi hpc', hfsize⟩
  | out => simpa [Trfs.replayStep, hpc] using h
  | crashed => simpa [Trfs.replayStep, hpc] using h

/-- Whenever the inner loop on one buffer has come to its end, it has parsed all records. -/
theorem whole_parsed_eq (hlog : env.log = frames recs) (hstrict : env.flags.strict = false)
    (hwf : ∀ r ∈ recs, r.WellFormed) (m : Mem) (w : W) (n : ℕ)
    (hdone : ((Trfs.replayStep env)^[n] (wholeStart env m w)).innerDone) :
    ((Trfs.replayStep env)^[n] (wholeStart env m w)).parsed.map Parsed.record = recs := by
  have hstart : WholeRun env recs w (wholeStart env m w) :=
    ⟨⟨[], recs, sync_wholeStart env recs m w⟩, rfl, fun _ => rfl, rfl⟩
  have hrun : WholeRun env recs w ((Trfs.replayStep env)^[n] (wholeStart env m w)) :=
    Machine.iterate_invariant (fun _ h => h.replayStep hlog hstrict hwf) hstart n
  obtain ⟨done, rest, hsync⟩ := hrun.sync
  obtain ⟨hpc, hge⟩ := hdone
  have hst := hsync.stands
  simp only [ReplayState.standsAt, hpc] at hst
  obtain ⟨start, limit, buf, hsize, hlimit, hbuf, -, hpos, hoff, -, -⟩ := hst
  have hzero := hrun.size_eq hpc
  have hoffset := hrun.offset_eq
  have hlen : env.log.length = (frames done).length + (frames rest).length := by
    rw [hlog, hsync.split, frames_append, List.length_append]
  cases rest with
  | nil => rw [hsync.parsed, hsync.split, List.append_nil]
  | cons r rest =>
    have hr : r.WellFormed := hwf r (by rw [hsync.split]; simp)
    have := hr.headerSize_lt
    rw [frames_cons, List.length_append] at hlen
    omega

end Run

/-- Reading in chunks is transparent: the two loops come to their end, they process the same records
as the inner loop does on one buffer with the whole log, and every record is parsed from bytes of
its chunk only. -/
def ChunksTransparent (env : ReplayEnv W) (m : Mem) (w : W) : Prop :=
  ∃ n k, ((replayStep env)^[n] (replayStart env m w)).pc = .out ∧
    ((replayStep env)^[k] (wholeStart env m w)).innerDone ∧
    ((replayStep env)^[n] (replayStart env m w)).parsed.map Parsed.record =
      ((replayStep env)^[k] (wholeStart env m w)).parsed.map Parsed.record ∧
    ((replayStep env)^[n] (replayStart env m w)).clean

/-- Transparent chunks show that the log is small and aligned. -/
theorem aligned_of_chunksTransparent {env : ReplayEnv W} {recs : List LogRecord}
    (hlog : env.log = frames recs) (hstrict : env.flags.strict = false)
    (hwf : ∀ r ∈ recs, r.WellFormed) {m : Mem} {w : W} (h : ChunksTransparent env m w) :
    ((frames recs).length : ℤ) ≤ intMax ∧ ChunkAligned recs := by
  obtain ⟨n, k, hout, hdone, hsame, hclean⟩ := h
  rw [whole_parsed_eq hlog hstrict hwf m w k hdone] at hsame
  exact aligned_of_run hlog hstrict hwf m n hout hsame hclean

/-- **Chunked reading.**  Outside strict mode, reading a log of well-formed records in chunks is
transparent exactly when the size of the log fits an `int` and no record straddles a chunk
boundary. -/
theorem chunksTransparent_iff (sys : Syscalls W) (noreplay : Bool) (cwd : List UInt8)
    {recs : List LogRecord} (hwf : ∀ r ∈ recs, r.WellFormed) (m : Mem) (w : W) :
    ChunksTransparent ⟨sys, ⟨noreplay, false⟩, cwd, frames recs⟩ m w ↔
      ((frames recs).length : ℤ) ≤ intMax ∧ ChunkAligned recs := by
  constructor
  · exact aligned_of_chunksTransparent rfl rfl hwf
  · rintro ⟨hmax, hal⟩
    let env : ReplayEnv W := ⟨sys, ⟨noreplay, false⟩, cwd, frames recs⟩
    have hlog : env.log = frames recs := rfl
    have hstrict : env.flags.strict = false := rfl
    obtain ⟨n, hout, hparsed, -, hclean⟩ := aligned_replays hlog hstrict hwf hmax hal m w
    obtain ⟨k, hdone, hwhole, -⟩ := whole_parses hlog hstrict hwf m w
    exact ⟨n, k, hout, hdone, hparsed.trans hwhole.symm, hclean⟩

/-- The record of a write of `n` zero bytes to `/f`. -/
def zeroWrite (n : ℕ) : LogRecord where
  hdr :=
    { recId := 0
      recFlags := 1
      permFlags := 0
      result := BitVec.ofNat 32 n
      recSize := BitVec.ofNat 16 (headerSize + 2 + n)
      pathLen := 2
      type := RecType.fwrite.code
      auxLen := BitVec.ofNat 16 n }
  path := [47, 102]
  aux := List.replicate n 0

/-- The record of a write that fits the format is well formed. -/
theorem wellFormed_zeroWrite {n : ℕ} (h : headerSize + 2 + n ≤ 32767) :
    (zeroWrite n).WellFormed where
  pathLen_eq := by simp [zeroWrite]
  auxLen_eq := by
    rw [zeroWrite, List.length_replicate]
    exact toInt_ofNat_of_le (by omega)
  recSize_eq := by
    rw [zeroWrite, List.length_replicate]
    exact toInt_ofNat_of_le h
  path_ne := by simp [zeroWrite]
  type_ok := by simp [LogRecord.typeOk, zeroWrite]

/-- The length of a log with a single write. -/
theorem length_frames_zeroWrite (n : ℕ) :
    (frames [zeroWrite n]).length = headerSize + 2 + n := by
  simp [zeroWrite]

/-- Two writes, the first of which fills a chunk. -/
def twoChunks : List LogRecord := [zeroWrite 16350, zeroWrite 1]

theorem length_frames_twoChunks : (frames twoChunks).length = chunkSize + 35 := by
  rw [twoChunks, ← List.singleton_append, frames_append, List.length_append,
    length_frames_zeroWrite, length_frames_zeroWrite]
  rfl

/-- The second chunk begins with the second record. -/
theorem chunkAligned_twoChunks : ChunkAligned twoChunks := by
  intro k hk
  have hlt : k < 2 := by
    rw [length_frames_twoChunks, chunkSize] at hk
    omega
  interval_cases k
  · exact ⟨0, rfl⟩
  · exact ⟨1, length_frames_zeroWrite 16350⟩

/-- A log of two chunks is read transparently. -/
theorem chunksTransparent_twoChunks :
    ChunksTransparent ⟨Syscalls.refusing, ⟨false, false⟩, [], frames twoChunks⟩ (fun _ => 0)
      () := by
  have hwf : ∀ r ∈ twoChunks, r.WellFormed := by
    intro r hr
    simp only [twoChunks, List.mem_cons, List.not_mem_nil, or_false] at hr
    rcases hr with rfl | rfl <;> exact wellFormed_zeroWrite (by decide)
  refine (chunksTransparent_iff Syscalls.refusing false [] hwf (fun _ => 0) ()).mpr
    ⟨?_, chunkAligned_twoChunks⟩
  rw [length_frames_twoChunks]
  decide

/-- A log of one well-formed record that is longer than a chunk is not read transparently. -/
theorem not_chunksTransparent_zeroWrite :
    (zeroWrite 20000).WellFormed ∧
      ¬ChunksTransparent ⟨Syscalls.refusing, ⟨false, false⟩, [], frames [zeroWrite 20000]⟩
        (fun _ => 0) () := by
  have hwf : (zeroWrite 20000).WellFormed := wellFormed_zeroWrite (by decide)
  refine ⟨hwf, fun h => ?_⟩
  have hal := (aligned_of_chunksTransparent rfl rfl
    (fun r hr => List.mem_singleton.mp hr ▸ hwf) h).2
  obtain ⟨i, hi⟩ := hal 1 (by rw [length_frames_zeroWrite]; decide)
  cases i with
  | zero => exact absurd hi (by decide)
  | succ i =>
    rw [List.take_succ_cons, List.take_nil, length_frames_zeroWrite] at hi
    exact absurd hi (by decide)

end Trfs
