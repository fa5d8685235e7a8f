import TraceFileSystem.Replay.Tree

/-!
# Records of failed operations

Operations that have failed are logged like any other, and the replay tool makes the system calls of
a record whatever its result says: `replayed_status` compares the two results after the calls.

By `world_replayRecord_wellFormed` the target after a record is `LogRecord.callsWorld`, which does
not look at the result either.

* `LogRecord.CallsFail`: the calls of a record fail and leave the target as it is.
* `replay_ignores_result`: the logged result has no influence on the target, and the target stays
  as it is when the calls of the record fail there without an effect.
* `not_unchanged_enospc`: a `mkdir` that has failed for want of space is carried out by the replay.
-/

namespace Trfs

open Posix

variable {W : Type*}

namespace LogRecord

/-- The record with another result. -/
def withResult (r : LogRecord) (result : CInt) : LogRecord :=
  { r with hdr := { r.hdr with result := result } }

/-- A system call fails and leaves the target as it is. -/
def FailedCall (w : W) (call : W × ℤ) : Prop :=
  call.1 = w ∧ call.2 < 0

/-- The system calls of a record fail and leave the target as it is.  A `write` is made even to the
descriptor that a failed `open` has returned. -/
def CallsFail (sys : Syscalls W) (cwd : List UInt8) (r : LogRecord) (w : W) : Prop :=
  let pathname := cwd ++ cstr r.path
  match RecType.ofCode? r.hdr.type with
  | some .fcreat => FailedCall w (sys.openCreat pathname r.hdr.permFlags w)
  | some .fwrite =>
    let opened := sys.openFlags pathname r.hdr.recFlags w
    FailedCall w opened ∧ FailedCall w (sys.write opened.2 r.aux r.hdr.auxLen.toInt w)
  | some .dcreat => FailedCall w (sys.mkdir pathname r.hdr.permFlags w)
  | some .rename => FailedCall w (sys.rename pathname (cwd ++ cstr r.aux) w)
  | some .link => FailedCall w (sys.link pathname (cwd ++ cstr r.aux) w)
  | some .symlink => FailedCall w (sys.symlink (cstr r.aux) pathname w)
  | some .unlink => FailedCall w (sys.remove pathname w)
  | some .fread | some .dread | none => True

variable {sys : Syscalls W} {cwd : List UInt8} {r : LogRecord} {w : W}

/-- A descriptor that is none is not closed. -/
theorem closeIf_of_neg (sys : Syscalls W) {fd : ℤ} (h : fd < 0) (w : W) :
    closeIf sys fd w = w :=
  if_neg (not_le.mpr h)

/-- Calls that fail without an effect leave the target as it is. -/
theorem callsWorld_of_callsFail (h : r.CallsFail sys cwd w) : r.callsWorld sys cwd w = w := by
  unfold CallsFail at h
  unfold callsWorld firstCall worldBy
  cases htype : RecType.ofCode? r.hdr.type with
  | none => rfl
  | some t =>
    simp only [htype] at h
    cases t with
    | fcreat =>
      obtain ⟨hworld, herr⟩ := h
      simp only [SysCall.perform, closeIf_of_neg sys herr, hworld]
    | fwrite =>
      obtain ⟨⟨hworld, herr⟩, hwrite, -⟩ := h
      simp only [SysCall.perform, closeIf_of_neg sys herr, hworld, hwrite]
    | fread => rfl
    | dread => rfl
    | _ => exact h.1

end LogRecord

/-! ### Processing a record -/

section

variable {env : ReplayEnv W} {r : LogRecord}

/-- The result is not part of the format. -/
theorem LogRecord.WellFormed.withResult (h : r.WellFormed) (result : CInt) :
    (r.withResult result).WellFormed where
  pathLen_eq := h.pathLen_eq
  auxLen_eq := h.auxLen_eq
  recSize_eq := h.recSize_eq
  path_ne := h.path_ne
  type_ok := h.type_ok

/-- **Logged results are not looked at.**  While a log of well-formed records is replayed without
flags, every record, whatever its logged result, does to the target what the system calls of its
type do there. Any other result would lead to the same target, and the target stays as it is if the
calls fail without an effect. -/
theorem replay_ignores_result (hflags : env.flags = ⟨false, false⟩) {done rest : List LogRecord}
    (hlog : ∀ r' ∈ done ++ r :: rest, r'.WellFormed) (l₀ : Locals W) :
    (replayRecord env r (replayAll env done l₀)).1.world =
        r.callsWorld env.sys env.cwd (replayAll env done l₀).world ∧
      (∀ result, (replayRecord env (r.withResult result) (replayAll env done l₀)).1.world =
        (replayRecord env r (replayAll env done l₀)).1.world) ∧
      (r.CallsFail env.sys env.cwd (replayAll env done l₀).world →
        (replayRecord env r (replayAll env done l₀)).1.world = (replayAll env done l₀).world) := by
  have hwf : r.WellFormed := hlog r (by simp)
  have hworld := world_replayRecord_wellFormed hflags hwf (replayAll env done l₀)
  refine ⟨hworld, fun result => ?_, fun hfail => ?_⟩
  · rw [hworld]
    exact world_replayRecord_wellFormed hflags (hwf.withResult result) _
  · rw [hworld]
    exact LogRecord.callsWorld_of_callsFail hfail

end

/-! ### A failed `mkdir` -/

/-- The record of a `mkdir` of `/l` for which the lower file system had no space left. -/
def enospcRecord : LogRecord :=
  (TracedOp.mkdir ⟨0⟩ 0 dentryL 0 (BitVec.ofInt 32 (-28)) 0).plan.tail.args.logRecord 0

/-- The record is well formed. -/
theorem wellFormed_enospcRecord : enospcRecord.WellFormed :=
  FillArgs.wellFormed_logRecord (TracedOp.fits_of_withinFormat ⟨by decide, trivial⟩) 0

/-- The replay tool in `replayDir`, on the log that consists of this record. -/
def enospcEnv : ReplayEnv Tree :=
  ⟨treeCalls (.unlimited _ _) (.plain replayDir), ⟨false, false⟩, replayDir, enospcRecord.frame⟩

/-- Processing the record on an empty target. -/
theorem replay_enospc_ignores_result :
    enospcRecord.WellFormed ∧
      ∀ result, (replayRecord enospcEnv (enospcRecord.withResult result)
          ⟨.rootOnly _ _, 0, none⟩).1.world =
        (replayRecord enospcEnv enospcRecord ⟨.rootOnly _ _, 0, none⟩).1.world := by
  have hlog : ∀ r ∈ [] ++ enospcRecord :: [], r.WellFormed := by
    simpa using wellFormed_enospcRecord
  have hignores := replay_ignores_result (show enospcEnv.flags = ⟨false, false⟩ from rfl) hlog
    ⟨.rootOnly _ _, 0, none⟩
  exact ⟨wellFormed_enospcRecord, hignores.2.1⟩

/-- The replay makes the directory that could not be made in the traced run. -/
theorem not_unchanged_enospc :
    enospcRecord.WellFormed ∧ enospcRecord.hdr.result.toInt < 0 ∧
      (replayRecord enospcEnv enospcRecord ⟨.rootOnly _ _, 0, none⟩).1.world ≠ .rootOnly _ _ := by
  refine ⟨wellFormed_enospcRecord, by decide, fun heq => ?_⟩
  have hkind : (replayRecord enospcEnv enospcRecord ⟨.rootOnly _ _, 0, none⟩).1.world.kind
      [⟨[108], by decide⟩] = some .dir := by
    decide +kernel
  rw [heq] at hkind
  exact absurd hkind (by decide +kernel)

end Trfs
