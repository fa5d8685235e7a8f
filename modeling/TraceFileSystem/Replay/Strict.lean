import TraceFileSystem.Replay.Calls

/-!
# Strict mode

With `-s` the replay tool is meant to stop at the first failure, and up to there to do what it does
without flags.  `replayed_status` decides after every call, seven times in the `switch` and twice in
the case of a write.

`strict_throughFirst` compares the two runs on any log of well-formed records that fits one chunk.
-/

namespace Trfs

open ByteStore Traces

variable {W : Type*}

/-- The tool, started with the given flags, ends and has made the given calls. -/
def MakesCalls (sys : Syscalls W) (flags : ReplayFlags) (cwd log : List UInt8) (m : Mem) (w : W)
    (calls : List (SysCall × ℤ)) : Prop :=
  ∃ s, EndsIn ⟨sys.traced, flags, cwd, log⟩ m (w, []) s ∧ s.locals.world.2 = calls

/-- **Strict mode is a prefix of normal mode.**  On a log of well-formed records that fits one
chunk, and for all deterministic system calls, the calls made in strict mode are those made without
flags up to and including the first one whose result, or whose record's result, is negative. -/
theorem strict_throughFirst (sys : Syscalls W) (cwd : List UInt8) {recs : List LogRecord}
    (hwf : ∀ r ∈ recs, r.WellFormed) (hsize : (frames recs).length ≤ chunkSize) (m m' : Mem)
    (w : W) :
    MakesCalls sys ⟨false, false⟩ cwd (frames recs) m w
        ((madeLog sys cwd recs w).map Made.entry) ∧
      MakesCalls sys ⟨false, true⟩ cwd (frames recs) m' w
        ((throughFirst Made.Fails (madeLog sys cwd recs w)).map Made.entry) := by
  obtain ⟨s, hends, hcalls, -⟩ := exists_endsIn sys cwd false hwf hsize m w
  obtain ⟨s', hends', hcalls', -⟩ := exists_endsIn sys cwd true hwf hsize m' w
  exact ⟨⟨s, hends, hcalls⟩, ⟨s', hends', hcalls'⟩⟩

/-- The log of a `mkdir` that had failed, twice, on a target where no call succeeds: without flags
two calls are made, in strict mode one. -/
theorem strict_enospc :
    MakesCalls .refusing ⟨false, false⟩ [47, 116] (frames [enospcRecord, enospcRecord])
        (fun _ => 0) () [(.mkdir [47, 116, 47, 108] 0, -1), (.mkdir [47, 116, 47, 108] 0, -1)] ∧
      MakesCalls .refusing ⟨false, true⟩ [47, 116] (frames [enospcRecord, enospcRecord])
        (fun _ => 0) () [(.mkdir [47, 116, 47, 108] 0, -1)] :=
  strict_throughFirst .refusing [47, 116]
    (List.forall_mem_cons.mpr ⟨wellFormed_enospcRecord,
      List.forall_mem_singleton.mpr wellFormed_enospcRecord⟩)
    (by decide) (fun _ => 0) (fun _ => 0) ()

end Trfs
