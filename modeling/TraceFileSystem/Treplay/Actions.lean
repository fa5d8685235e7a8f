import TraceFileSystem.Treplay.Framing
import TraceFileSystem.Record.AppendRecord

/-!
# What the replay tool does with a log of the module

What the replay tool does with a well-formed record when it is started without flags is
`LogRecord.callsWorld`, the system calls of its type: `world_replayRecord_wellFormed`.  The records
that the module logs are determined by the arguments of `fill_record`, and so are these calls:
`FillArgs.replayWorld` and `world_replayRecord`.

`LogFile.Records` is a log that was written record by record, and `replayWorlds` the world that
replaying the records leaves behind.  Every record that is appended completely extends the log
(`LogFile.Records.append`), and the two describe the run of the tool on the whole log
(`LogFile.Records.exists_innerDone`).
-/

namespace Trfs

open ByteStore

variable {W : Type*}

/-! ### The calls of a record -/

/-- A system call of the replay tool that acts on the file system. -/
inductive SysCall where
  | openCreat (path : List UInt8) (mode : CInt)
  | openFlags (path : List UInt8) (flags : CInt)
  | write (fd : ℤ) (data : List UInt8) (count : ℤ)
  | mkdir (path : List UInt8) (mode : CInt)
  | rename (old new : List UInt8)
  | link (old new : List UInt8)
  | symlink (target path : List UInt8)
  | remove (path : List UInt8)
  deriving DecidableEq

/-- The world after a call and the value it returns. -/
def SysCall.perform (sys : Syscalls W) : SysCall → W → W × ℤ
  | openCreat path mode => sys.openCreat path mode
  | openFlags path flags => sys.openFlags path flags
  | write fd data count => sys.write fd data count
  | mkdir path mode => sys.mkdir path mode
  | rename old new => sys.rename old new
  | link old new => sys.link old new
  | symlink target path => sys.symlink target path
  | remove path => sys.remove path

namespace LogRecord

/-- The first call of a record. -/
def firstCall (cwd : List UInt8) (r : LogRecord) : Option SysCall :=
  let pathname := cwd ++ cstr r.path
  match RecType.ofCode? r.hdr.type with
  | some .fcreat => some (.openCreat pathname r.hdr.permFlags)
  | some .fwrite => some (.openFlags pathname r.hdr.recFlags)
  | some .dcreat => some (.mkdir pathname r.hdr.permFlags)
  | some .rename => some (.rename pathname (cwd ++ cstr r.aux))
  | some .link => some (.link pathname (cwd ++ cstr r.aux))
  | some .symlink => some (.symlink (cstr r.aux) pathname)
  | some .unlink => some (.remove pathname)
  | some .fread | some .dread | none => none

/-- The world behind the calls of a record whose first call is known, when the descriptor has been
closed: a write is made with the descriptor that the first call returned. -/
def worldBy (sys : Syscalls W) (r : LogRecord) (c : SysCall) (w : W) : W :=
  let first := c.perform sys w
  match RecType.ofCode? r.hdr.type with
  | some .fcreat => closeIf sys first.2 first.1
  | some .fwrite => closeIf sys first.2 (sys.write first.2 r.aux r.hdr.auxLen.toInt first.1).1
  | _ => first.1

/-- The target after the system calls of a record. -/
def callsWorld (sys : Syscalls W) (cwd : List UInt8) (r : LogRecord) (w : W) : W :=
  match r.firstCall cwd with
  | none => w
  | some c => r.worldBy sys c w

end LogRecord

section

variable {env : ReplayEnv W} {r : LogRecord}

/-- **The system calls of a record.**  Without flags, processing a well-formed record makes the
system calls of its type, whatever its result. -/
theorem world_replayRecord_wellFormed (hflags : env.flags = ⟨false, false⟩) (h : r.WellFormed)
    (l : Locals W) :
    (replayRecord env r l).1.world = r.callsWorld env.sys env.cwd l.world := by
  rw [replayRecord_of_nonneg env l h.lengths_nonneg.1 h.lengths_nonneg.2]
  have hok := h.type_ok
  unfold LogRecord.typeOk at hok
  unfold LogRecord.callsWorld LogRecord.firstCall LogRecord.worldBy replaySwitch
  cases htype : RecType.ofCode? r.hdr.type with
  | none => simp only [htype] at hok
  | some t =>
    rw [htype] at hok
    cases t with
    | fread => exact hok.elim
    | dread => exact hok.elim
    | rename =>
      rw [h.resolvedAux_eq (.inl htype)]
      simp only [hflags]
      rfl
    | link =>
      rw [h.resolvedAux_eq (.inr htype)]
      simp only [hflags]
      rfl
    | symlink =>
      simp only [hflags, h.auxLen_ne_zero hok]
      rfl
    | _ =>
      simp only [hflags]
      rfl

end

/-! ### The calls for given arguments -/

/-- The world after the system calls that a record for the given arguments leads to. -/
def FillArgs.replayWorld (sys : Syscalls W) (cwd : List UInt8) (a : FillArgs) (w : W) : W :=
  let pathname := cwd ++ a.dentry.path.bytes
  match RecType.ofCode? a.type with
  | some .fcreat =>
    let opened := sys.openCreat pathname a.permFlags w
    closeIf sys opened.2 opened.1
  | some .fwrite =>
    let opened := sys.openFlags pathname a.flags w
    closeIf sys opened.2 (sys.write opened.2 a.auxLogged a.auxLogged.length opened.1).1
  | some .dcreat => (sys.mkdir pathname a.permFlags w).1
  | some .rename => (sys.rename pathname (cwd ++ a.auxBytes) w).1
  | some .link => (sys.link pathname (cwd ++ a.auxBytes) w).1
  | some .symlink => (sys.symlink a.auxBytes pathname w).1
  | some .unlink => (sys.remove pathname w).1
  | some .fread | some .dread | none => w

/-- A second path or a target is logged completely, is not empty, and is a C string. -/
theorem FillArgs.Framed.aux_string {a : FillArgs} (h : a.Framed)
    (ht : RecType.ofCode? a.type = some .rename ∨ RecType.ofCode? a.type = some .link ∨
      RecType.ofCode? a.type = some .symlink) :
    a.auxLogged = a.auxBytes ∧ a.auxBytes ≠ [] ∧ cstr a.auxBytes = a.auxBytes := by
  have hstring : ∃ s : CString, a.auxBytes = s.bytes ∧ s.bytes ≠ [] ∧ s.strlen < pageSize := by
    have haux := h.aux_ok
    rcases ht with ht | ht | ht <;> simp only [auxOk, ht] at haux
    · obtain ⟨d, hd, hlt⟩ := haux
      exact ⟨d.path, by simp [auxBytes, hd], d.path_ne, hlt⟩
    · obtain ⟨d, hd, hlt⟩ := haux
      exact ⟨d.path, by simp [auxBytes, hd], d.path_ne, hlt⟩
    · obtain ⟨s, hs, -, hne, hlt⟩ := haux
      exact ⟨s, by simp [auxBytes, hs, CharPtr.bytes], hne, hlt⟩
  obtain ⟨s, hs, hne, hlt⟩ := hstring
  have hlen : a.auxBytes.length < 65536 := by
    rw [hs]
    exact lt_trans hlt (by decide)
  refine ⟨auxLogged_eq_of_lt hlen, by rwa [hs], ?_⟩
  rw [hs]
  exact cstr_eq_self s.noNul

variable {env : ReplayEnv W} {a : FillArgs}

/-- The system calls of the record for arguments that can be framed. -/
theorem FillArgs.Framed.callsWorld_logRecord (h : a.Framed) (recId : CInt) (sys : Syscalls W)
    (cwd : List UInt8) (w : W) :
    (a.logRecord recId).callsWorld sys cwd w = a.replayWorld sys cwd w := by
  have hpath : cstr (a.logRecord recId).path = a.dentry.path.bytes :=
    cstr_eq_self a.dentry.path.noNul
  have hlen : (a.logRecord recId).hdr.auxLen.toInt = a.auxLogged.length :=
    (FillArgs.wellFormed_logRecord h recId).auxLen_eq
  have hstring (ht : RecType.ofCode? a.type = some .rename ∨ RecType.ofCode? a.type = some .link ∨
      RecType.ofCode? a.type = some .symlink) : cstr (a.logRecord recId).aux = a.auxBytes := by
    obtain ⟨hlogged, -, hcstr⟩ := h.aux_string ht
    rw [show (a.logRecord recId).aux = a.auxLogged from rfl, hlogged, hcstr]
  unfold LogRecord.callsWorld LogRecord.firstCall LogRecord.worldBy FillArgs.replayWorld
  rw [show RecType.ofCode? (a.logRecord recId).hdr.type = RecType.ofCode? a.type from rfl]
  cases ht : RecType.ofCode? a.type with
  | none => rfl
  | some t =>
    cases t with
    | fcreat =>
      simp only [hpath]
      rfl
    | dcreat =>
      simp only [hpath]
      rfl
    | fwrite =>
      simp only [hpath, hlen]
      rfl
    | rename => simp only [hpath, hstring (.inl ht), SysCall.perform]
    | link => simp only [hpath, hstring (.inr (.inl ht)), SysCall.perform]
    | symlink => simp only [hpath, hstring (.inr (.inr ht)), SysCall.perform]
    | _ => simp only [hpath, SysCall.perform]

/-- **The system calls of a record.**  Without flags, a turn of the loop on the record for the given
arguments makes the system calls of its type. -/
theorem world_replayRecord (h : a.Framed) (hflags : env.flags = ⟨false, false⟩) (recId : CInt)
    (l : Locals W) : (replayRecord env (a.logRecord recId) l).1.world =
      a.replayWorld env.sys env.cwd l.world := by
  rw [world_replayRecord_wellFormed hflags (FillArgs.wellFormed_logRecord h recId),
    h.callsWorld_logRecord]

/-! ### A log and its replay -/

/-- A log without gaps that holds the records for a list of arguments that can be framed. -/
structure LogFile.Records (log : LogFile) (ps : List (FillArgs × CInt)) : Prop where
  framed : ∀ p ∈ ps, p.1.Framed
  eq : log = .holding (frames (ps.map fun p => p.1.logRecord p.2))

/-- The world after the system calls of a list of records. -/
def replayWorlds (sys : Syscalls W) (cwd : List UInt8) (ps : List (FillArgs × CInt)) (w : W) : W :=
  ps.foldl (fun w p => p.1.replayWorld sys cwd w) w

/-- One more record is replayed after the others. -/
theorem replayWorlds_concat (sys : Syscalls W) (cwd : List UInt8) (ps : List (FillArgs × CInt))
    (p : FillArgs × CInt) (w : W) :
    replayWorlds sys cwd (ps ++ [p]) w = p.1.replayWorld sys cwd (replayWorlds sys cwd ps w) := by
  simp [replayWorlds]

variable {log : LogFile} {ps qs : List (FillArgs × CInt)}

/-- An empty log. -/
theorem LogFile.Records.nil : (LogFile.holding []).Records [] :=
  ⟨by simp, rfl⟩

/-- A record is appended completely. -/
theorem LogFile.Records.append (h : log.Records ps) (ha : a.Framed) (recId : CInt) :
    ((a.logRecord recId).logAfter log .complete .complete).Records (ps ++ [(a, recId)]) := by
  constructor
  · intro p hp
    rw [List.mem_append, List.mem_singleton] at hp
    rcases hp with hp | rfl
    · exact h.framed p hp
    · exact ha
  · rw [h.eq, LogRecord.logAfter_holding]
    simp

/-- The records are well-formed. -/
theorem LogFile.Records.wellFormed (h : log.Records ps) :
    ∀ r ∈ ps.map fun p => p.1.logRecord p.2, r.WellFormed := by
  intro r hr
  obtain ⟨p, hp, rfl⟩ := List.mem_map.mp hr
  exact FillArgs.wellFormed_logRecord (h.framed p hp) p.2

/-- Replaying a list of records is making their system calls one after the other. -/
theorem world_replayAll (hflags : env.flags = ⟨false, false⟩) {ps : List (FillArgs × CInt)}
    (hps : ∀ p ∈ ps, p.1.Framed) (l : Locals W) :
    (replayAll env (ps.map fun p => p.1.logRecord p.2) l).world =
      replayWorlds env.sys env.cwd ps l.world := by
  induction ps generalizing l with
  | nil => rfl
  | cons p ps ih =>
    have hp := world_replayRecord (hps p (by simp)) hflags p.2 l
    rw [replayWorlds, List.foldl_cons, ← hp, ← replayWorlds,
      ← ih (fun q hq => hps q (by simp [hq]))]
    rfl

/-- The inner loop of the tool, started without flags on the whole log in one buffer, takes one turn
for each record and makes its system calls. -/
theorem LogFile.Records.turns (h : log.Records (ps ++ qs)) (sys : Syscalls W) (cwd : List UInt8)
    (w₀ : W) (m : Mem) :
    ((replayStep ⟨sys, ⟨false, false⟩, cwd, log.data⟩)^[ps.length]
        (wholeStart ⟨sys, ⟨false, false⟩, cwd, log.data⟩ m w₀)).parsed.map Parsed.record =
          ps.map (fun p => p.1.logRecord p.2) ∧
      ((replayStep ⟨sys, ⟨false, false⟩, cwd, log.data⟩)^[ps.length]
        (wholeStart ⟨sys, ⟨false, false⟩, cwd, log.data⟩ m w₀)).locals.world =
          replayWorlds sys cwd ps w₀ := by
  let env : ReplayEnv W := ⟨sys, ⟨false, false⟩, cwd, log.data⟩
  have hlog : env.log = frames ((ps ++ qs).map fun p => p.1.logRecord p.2) := by
    change log.data = _
    rw [h.eq]
    rfl
  have hstart := sync_wholeStart env ((ps ++ qs).map fun p => p.1.logRecord p.2) m w₀
  have hlimit : (wholeStart env m w₀).limit = (wholeStart env m w₀).buf +
      (frames ((ps ++ qs).map fun p => p.1.logRecord p.2)).length := by
    simp [wholeStart, hlog]
  have hwf := h.wellFormed
  rw [List.map_append] at hlog hstart hlimit hwf
  obtain ⟨hsync, -⟩ := hstart.run_turns hlog rfl hwf rfl hlimit
    (by simp [ReplayState.clean, wholeStart])
  rw [List.nil_append, List.length_map] at hsync
  refine ⟨hsync.parsed, ?_⟩
  rw [hsync.locals, world_replayAll rfl fun p hp => h.framed p (List.mem_append_left _ hp)]

/-- The inner loop of the tool, started without flags on the whole log in one buffer, comes to its
end behind all records. -/
theorem LogFile.Records.exists_innerDone (h : log.Records ps) (sys : Syscalls W) (cwd : List UInt8)
    (w₀ : W) (m : Mem) :
    let env : ReplayEnv W := ⟨sys, ⟨false, false⟩, cwd, log.data⟩
    ∃ n, ((replayStep env)^[n] (wholeStart env m w₀)).innerDone ∧
      ((replayStep env)^[n] (wholeStart env m w₀)).locals.world = replayWorlds sys cwd ps w₀ := by
  intro env
  have hlog : env.log = frames (ps.map fun p => p.1.logRecord p.2) := by
    change log.data = _
    rw [h.eq]
    rfl
  obtain ⟨n, hdone, -, hlocals⟩ := whole_parses hlog rfl h.wellFormed m w₀
  exact ⟨n, hdone, by rw [hlocals, world_replayAll rfl h.framed]⟩

end Trfs
