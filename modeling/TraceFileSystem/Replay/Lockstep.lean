import TraceFileSystem.Replay.Tree
import TraceFileSystem.Treplay.Chunks

/-!
# The replay at every moment

The replay of a sequential run does not only end with the tree of the run: it passes through the
same trees, in the same order.

* `TraceState.Mirrors.step` says what a system call of the run does: it adds one record at most.
* `Readable.world_eq` is the other side: the tree of the tool is the one that the records it has
  parsed leave behind, at every step.

`replay_lockstep` is the result.  Wherever the tool is stopped, its tree is one that the run has
had, and no tree of the run is left out.
-/

namespace Trfs

open Posix ByteStore LabelledSystem

variable {lim : Limits FileName SymTarget} {walk : PathWalk} {cwd : List UInt8} {r : Request}
  {s s' : TraceState} {target t : Tree} {ps : List (FillArgs × CInt)}

/-! ### The tool -/

/-- A step parses one record at most. -/
theorem length_parsed_replayStep {W : Type*} (env : ReplayEnv W) (s : ReplayState W) :
    (replayStep env s).parsed.length ≤ s.parsed.length + 1 := by
  unfold replayStep
  cases s.pc with
  | readChunk =>
    dsimp only
    split <;> exact Nat.le_succ _
  | inner =>
    dsimp only
    split
    · simp [innerTurn]
    · split <;> exact Nat.le_succ _
  | out => exact Nat.le_succ _
  | crashed => exact Nat.le_succ _

/-- A log of framed records that is small enough and whose chunks tear no record. -/
structure Readable (log : List UInt8) (ps : List (FillArgs × CInt)) : Prop where
  framed : ∀ p ∈ ps, p.1.Framed
  eq : log = frames (ps.map fun p => p.1.logRecord p.2)
  size_le : (log.length : ℤ) ≤ intMax
  aligned : ChunkAligned (ps.map fun p => p.1.logRecord p.2)

namespace Readable

variable {W : Type*} {sys : Syscalls W} {log : List UInt8}

/-- Its records are well-formed. -/
theorem wellFormed (h : Readable log ps) :
    ∀ r ∈ ps.map fun p => p.1.logRecord p.2, r.WellFormed :=
  (LogFile.Records.mk h.framed rfl).wellFormed

/-- At every step the tool has parsed the first records of the log and made their system calls. -/
theorem world_eq (h : Readable log ps) (sys : Syscalls W) (cwd : List UInt8) (m : Mem) (w : W)
    (n : ℕ) :
    let tool := (replayStep ⟨sys, ⟨false, false⟩, cwd, log⟩)^[n]
      (replayStart ⟨sys, ⟨false, false⟩, cwd, log⟩ m w)
    tool.parsed.length ≤ ps.length ∧
      tool.parsed.map Parsed.record =
        (ps.take tool.parsed.length).map (fun p => p.1.logRecord p.2) ∧
      tool.locals.world = replayWorlds sys cwd (ps.take tool.parsed.length) w := by
  intro tool
  have hmax := h.size_le
  rw [h.eq] at hmax
  let env : ReplayEnv W := ⟨sys, ⟨false, false⟩, cwd, log⟩
  have hrun := alignedRun_iterate (show env.log = _ from h.eq) rfl h.wellFormed hmax h.aligned m w n
  obtain ⟨done, rest, hsync⟩ := hrun.run.sync
  have hlen : tool.parsed.length = done.length := by
    rw [← hsync.parsed, List.length_map]
  have hdone : done = (ps.take tool.parsed.length).map fun p => p.1.logRecord p.2 := by
    rw [hlen, List.map_take, hsync.split, List.take_left]
  refine ⟨?_, hsync.parsed.trans hdone, ?_⟩
  · have hsplit := congrArg List.length hsync.split
    rw [List.length_map, List.length_append] at hsplit
    omega
  · rw [hsync.locals, hdone, world_replayAll rfl fun p hp => h.framed p (List.mem_of_mem_take hp)]

/-- The tool parses all of them, one after the other. -/
theorem exists_parsed (h : Readable log ps) (sys : Syscalls W) (cwd : List UInt8) (m : Mem) (w : W)
    {k : ℕ} (hk : k ≤ ps.length) :
    ∃ n, ((replayStep ⟨sys, ⟨false, false⟩, cwd, log⟩)^[n]
      (replayStart ⟨sys, ⟨false, false⟩, cwd, log⟩ m w)).parsed.length = k := by
  have hmax := h.size_le
  rw [h.eq] at hmax
  let env : ReplayEnv W := ⟨sys, ⟨false, false⟩, cwd, log⟩
  obtain ⟨n, -, hparsed, -, -⟩ := aligned_replays (show env.log = _ from h.eq) rfl h.wellFormed hmax
    h.aligned m w
  have hlen := congrArg List.length hparsed
  rw [List.length_map, List.length_map] at hlen
  exact Machine.exists_iterate_of_advance (fun s : ReplayState W => s.parsed.length)
    (length_parsed_replayStep env) (Nat.zero_le _) (hk.trans hlen.ge)

end Readable

/-! ### Both together -/

/-- The tool, started without options in the target tree on the log of a state, after a number of
steps. -/
def TraceState.toolAt (lim : Limits FileName SymTarget) (walk : PathWalk) (cwd : List UInt8)
    (target : Tree) (m : Mem) (s : TraceState) (n : ℕ) : ReplayState Tree :=
  (replayStep ⟨treeCalls lim walk, ⟨false, false⟩, cwd, s.op.sb.log.data⟩)^[n]
    (replayStart ⟨treeCalls lim walk, ⟨false, false⟩, cwd, s.op.sb.log.data⟩ m target)

/-- The tool has parsed what the run has logged so far, and their trees are isomorphic. -/
structure TraceState.Level (s : TraceState) (tool : ReplayState Tree) : Prop where
  log : s.op.sb.log.data = frames (tool.parsed.map Parsed.record)
  iso : s.lower.Iso tool.locals.world

/-- **The replay runs through the trees of the run.**  Take a run of calls on a new mount, each of
which either does not reach trfs or is logged, over a tree that is isomorphic to the one below the
current directory of the replay tool.  Then the log consists of well-formed records, and if it is
small enough and its chunks tear none of them, then after every step the tool is level with the run
after some of its calls, and after any number of its calls the run is level with the tool after some
step. -/
theorem replay_lockstep (hwalk : walk.Plain cwd) {lower : Tree} (hiso : lower.Iso target)
    {k : Kernel} {trPage : List UInt8} {rs : List Request}
    (hrun : run (TraceState.step lim) (.mounted lower k trPage) rs = some s)
    (hrs : RunAllowed (TraceState.step lim) (Request.Sound cwd) (.mounted lower k trPage) rs) :
    ∃ recs : List LogRecord, s.op.sb.log.data = frames recs ∧ (∀ r ∈ recs, r.WellFormed) ∧
      (((frames recs).length : ℤ) ≤ intMax → ChunkAligned recs → ∀ m,
        (∀ n, ∃ j t, run (TraceState.step lim) (.mounted lower k trPage) (rs.take j) = some t ∧
          t.Level (s.toolAt lim walk cwd target m n)) ∧
        ∀ j t, run (TraceState.step lim) (.mounted lower k trPage) (rs.take j) = some t →
          ∃ n, t.Level (s.toolAt lim walk cwd target m n)) := by
  have hstart : (TraceState.mounted lower k trPage).Mirrors lim walk cwd target [] :=
    ⟨rfl, .nil, hiso⟩
  obtain ⟨ps, hend, hcut, hlogged⟩ :=
    exists_log_of_run (fun _ _ _ _ hs hr hstep => hs.step hwalk hr hstep) hstart hrs hrun
  have hdata : s.op.sb.log.data = frames (ps.map fun p => p.1.logRecord p.2) := by
    rw [hend.records.eq]
    rfl
  refine ⟨_, hdata, hend.records.wellFormed, fun hmax hal m => ?_⟩
  have hreadable : Readable s.op.sb.log.data ps :=
    ⟨hend.records.framed, hdata, by rwa [hdata], hal⟩
  -- the run after some calls and the tool after some step, with the same records
  have hlevel (n : ℕ) (t : TraceState)
      (ht : t.Mirrors lim walk cwd target
        (ps.take (s.toolAt lim walk cwd target m n).parsed.length)) :
      t.Level (s.toolAt lim walk cwd target m n) := by
    obtain ⟨-, hparsed, hworld⟩ := hreadable.world_eq (treeCalls lim walk) cwd m target n
    constructor
    · rw [ht.records.eq, TraceState.toolAt, hparsed]
      rfl
    · rw [TraceState.toolAt, hworld]
      exact ht.iso
  constructor
  · intro n
    have hle := (hreadable.world_eq (treeCalls lim walk) cwd m target n).1
    obtain ⟨j, t, ht, hmirrors⟩ := hcut _ hle
    exact ⟨j, t, ht, hlevel n t hmirrors⟩
  · intro j t ht
    obtain ⟨i, hi, hmirrors⟩ := hlogged j t ht
    obtain ⟨n, hn⟩ := hreadable.exists_parsed (treeCalls lim walk) cwd m target hi
    refine ⟨n, hlevel n t ?_⟩
    rw [TraceState.toolAt, hn]
    exact hmirrors

/-- The tool is stopped in the replay of the rename: the file is still at `/d/e`. -/
theorem replay_lockstep_rename :
    ∃ s t n, run (TraceState.step (.unlimited _ _)) (.mounted (.rootOnly _ _) ⟨-1, [], []⟩ [])
        renameRequests = some s ∧
      run (TraceState.step (.unlimited _ _)) (.mounted (.rootOnly _ _) ⟨-1, [], []⟩ [])
        (renameRequests.take 2) = some t ∧
      t.lower.kind [nameD, nameE] = some .file ∧
      t.Level (s.toolAt (.unlimited _ _) (.plain replayDir) replayDir (.rootOnly _ _) (fun _ => 0)
        n) := by
  have hlength : (run (TraceState.step (.unlimited _ _))
      (.mounted (.rootOnly _ _) ⟨-1, [], []⟩ []) renameRequests).map
        (fun s => s.op.sb.log.data.length) = some 140 := by
    decide +kernel
  have hkind : (run (TraceState.step (.unlimited _ _))
      (.mounted (.rootOnly _ _) ⟨-1, [], []⟩ []) (renameRequests.take 2)).map
        (fun s => s.lower.kind [nameD, nameE]) = some (some .file) := by
    decide +kernel
  obtain ⟨s, hrun, hs⟩ := Option.map_eq_some_iff.mp hlength
  obtain ⟨t, hrun', ht⟩ := Option.map_eq_some_iff.mp hkind
  obtain ⟨recs, hdata, -, hlevel⟩ := replay_lockstep (PathWalk.plain_plain replayDir) (.refl _) hrun
    (runAllowed_of_forall sound_renameRequests _)
  have hlen : (frames recs).length = 140 := by rw [← hdata, hs]
  obtain ⟨-, hstops⟩ := hlevel (by rw [hlen]; decide) (chunkAligned_of_le (by rw [hlen]; decide))
    fun _ => 0
  obtain ⟨n, hn⟩ := hstops 2 t hrun'
  exact ⟨s, t, n, hrun, hrun', ht, hn⟩

end Trfs
