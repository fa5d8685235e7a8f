import TraceFileSystem.Record.Layout
import TraceFileSystem.Lib.Machine
import Mathlib.Data.List.TakeWhile

/-!
# The replay tool as a machine

`main` of `hw2/treplay.c` after its options have been parsed: two nested loops over the log file.
The outer loop reads the next chunk of at most `4 * BUFFER_SIZE` bytes into a buffer, the inner loop
casts the current position of the buffer to a record, resolves the one or two paths in it against
the current directory, performs the system calls of the record type, and moves on by `rec_size`.

One step of the machine is one turn of the inner loop, or one test of the outer loop with the `read`
that follows it.  The buffer is the memory from address `0` on; what lies before it and behind the
bytes of the chunk is arbitrary, and a record whose size or lengths are wrong is read from there.

The system calls act on a world `W` through the interface `Syscalls`.  A ghost field remembers every
record that was parsed and where the chunk ended at that moment.
-/

namespace Trfs

open ByteStore

/-- The system calls the replay tool makes, each with the world it acts on and the value it
returns. -/
structure Syscalls (W : Type*) where
  /-- `open(path, O_CREAT, mode)`. -/
  openCreat : List UInt8 → CInt → W → W × ℤ
  /-- `open(path, flags)`. -/
  openFlags : List UInt8 → CInt → W → W × ℤ
  /-- `write(fd, data, count)`; `count` is negative when `aux_len` is. -/
  write : ℤ → List UInt8 → ℤ → W → W × ℤ
  /-- `close(fd)`. -/
  close : ℤ → W → W
  /-- `mkdir(path, mode)`. -/
  mkdir : List UInt8 → CInt → W → W × ℤ
  /-- `rename(old, new)`. -/
  rename : List UInt8 → List UInt8 → W → W × ℤ
  /-- `link(old, new)`. -/
  link : List UInt8 → List UInt8 → W → W × ℤ
  /-- `symlink(target, path)`. -/
  symlink : List UInt8 → List UInt8 → W → W × ℤ
  /-- `remove(path)`. -/
  remove : List UInt8 → W → W × ℤ

/-- System calls that always fail. -/
def Syscalls.refusing : Syscalls Unit where
  openCreat _ _ w := (w, -1)
  openFlags _ _ w := (w, -1)
  write _ _ _ w := (w, -1)
  close _ w := w
  mkdir _ _ w := (w, -1)
  rename _ _ w := (w, -1)
  link _ _ w := (w, -1)
  symlink _ _ w := (w, -1)
  remove _ w := (w, -1)

/-- The two flags of `main`. -/
structure ReplayFlags where
  noreplay : Bool
  strict : Bool
  deriving DecidableEq

/-- What a run of the tool is given: the system calls, the flags, the current directory and the log
file. -/
structure ReplayEnv (W : Type*) where
  sys : Syscalls W
  flags : ReplayFlags
  cwd : List UInt8
  log : List UInt8

/-- The variables of `main` that survive a turn of the inner loop, and the world. -/
structure Locals (W : Type*) where
  world : W
  err : ℤ
  /-- `auxpath`, which has no value before the first record with a second path. -/
  auxpath : Option (List UInt8)

/-- How a turn of the inner loop ends. -/
inductive Flow where
  /-- The loop goes on with the next record. -/
  | next
  /-- `goto out`. -/
  | out
  /-- The process is killed, or the behaviour is undefined. -/
  | crash
  deriving DecidableEq

/-! ### One record -/

/-- The part of a byte block before its first NUL. -/
def cstr (l : List UInt8) : List UInt8 :=
  l.takeWhile (· ≠ 0)

/-- A string without NUL is its own C string. -/
theorem cstr_eq_self {l : List UInt8} (h : (0 : UInt8) ∉ l) : cstr l = l := by
  rw [cstr, List.takeWhile_eq_self_iff]
  intro b hb
  simp only [ne_eq, decide_eq_true_eq]
  rintro rfl
  exact h hb

/-- `replayed_status`: in strict mode a failed call or a failed traced operation is an error. -/
def replayedStatus (h : Header) (err : ℤ) (strict : Bool) : ℤ :=
  if strict then (if 0 ≤ err ∧ 0 ≤ h.result.toInt then 0 else -1) else 0

/-- The end of a case of the `switch` with a single system call. -/
def settle {W : Type*} (strict : Bool) (h : Header) (l : Locals W) (call : W × ℤ) :
    Locals W × Flow :=
  ({ l with world := call.1, err := call.2 },
    if replayedStatus h call.2 strict ≠ 0 then .out else .next)

/-- Closing a descriptor if it is one. -/
def closeIf {W : Type*} (sys : Syscalls W) (fd : ℤ) (w : W) : W :=
  if 0 ≤ fd then sys.close fd w else w

/-- The case `TR_FWRITE`. -/
def replayWrite {W : Type*} (sys : Syscalls W) (strict : Bool) (h : Header)
    (pathname aux : List UInt8) (l : Locals W) : Locals W × Flow :=
  let opened := sys.openFlags pathname h.recFlags l.world
  if replayedStatus h opened.2 strict ≠ 0 then
    ({ l with world := closeIf sys opened.2 opened.1, err := opened.2 }, .out)
  else
    let written := sys.write opened.2 aux h.auxLen.toInt opened.1
    ({ l with world := closeIf sys opened.2 written.1, err := written.2 },
      if replayedStatus h written.2 strict ≠ 0 then .out else .next)

/-- The `switch` of the inner loop.  The pointer `aux` leads to the symlink target only after it has
been copied and terminated, which needs a length other than zero. -/
def replaySwitch {W : Type*} (env : ReplayEnv W) (h : Header) (pathname aux : List UInt8)
    (l : Locals W) : Locals W × Flow :=
  match RecType.ofCode? h.type with
  | some .fcreat =>
    if env.flags.noreplay then (l, .next)
    else
      let opened := env.sys.openCreat pathname h.permFlags l.world
      settle env.flags.strict h l (closeIf env.sys opened.2 opened.1, opened.2)
  | some .fwrite =>
    if env.flags.noreplay then (l, .next)
    else replayWrite env.sys env.flags.strict h pathname aux l
  | some .dcreat =>
    if env.flags.noreplay then (l, .next)
    else settle env.flags.strict h l (env.sys.mkdir pathname h.permFlags l.world)
  | some .rename =>
    if env.flags.noreplay then (l, .next)
    else
      match l.auxpath with
      | some auxpath => settle env.flags.strict h l (env.sys.rename pathname auxpath l.world)
      | none => (l, .crash)
  | some .link =>
    if env.flags.noreplay then (l, .next)
    else
      match l.auxpath with
      | some auxpath => settle env.flags.strict h l (env.sys.link pathname auxpath l.world)
      | none => (l, .crash)
  | some .symlink =>
    if env.flags.noreplay then (l, .next)
    else if h.auxLen = 0 then (l, .crash)
    else settle env.flags.strict h l (env.sys.symlink (cstr aux) pathname l.world)
  | some .unlink =>
    if env.flags.noreplay then (l, .next)
    else settle env.flags.strict h l (env.sys.remove pathname l.world)
  | some .fread | some .dread | none => (l, .out)

/-- A turn of the inner loop on the record `r`: resolve the paths, then the `switch`.  Copying a
negative number of bytes kills the process.  The resolved paths are lists of any length here, while
`pathbuf` and `auxbuf` have 4096 bytes; `LogRecord.ResolvesWithin` says when they suffice, and the
results about the process as a whole ask for it. -/
def replayRecord {W : Type*} (env : ReplayEnv W) (r : LogRecord) (l : Locals W) :
    Locals W × Flow :=
  if r.hdr.pathLen.toInt < 0 then (l, .crash)
  else
    let pathname := env.cwd ++ cstr r.path
    if r.hdr.auxLen ≠ 0 ∧ r.hdr.type ≠ RecType.fwrite.code then
      if r.hdr.auxLen.toInt < 0 then (l, .crash)
      else if r.hdr.type ≠ RecType.symlink.code then
        replaySwitch env r.hdr pathname r.aux { l with auxpath := some (env.cwd ++ cstr r.aux) }
      else replaySwitch env r.hdr pathname r.aux l
    else replaySwitch env r.hdr pathname r.aux l

/-! ### Reading a record from the buffer -/

/-- The header at a position of the buffer. -/
def headerAt (m : Mem) (buf : ℤ) : Header :=
  Header.ofBytes (readBytes m buf headerSize)

/-- The record at a position of the buffer: `rel_path` follows the header and `aux` follows
`rel_path`. -/
def recordAt (m : Mem) (buf : ℤ) : LogRecord where
  hdr := headerAt m buf
  path := readBytes m (buf + headerSize) (headerAt m buf).pathLen.toInt.toNat
  aux := readBytes m (buf + headerSize + (headerAt m buf).pathLen.toInt)
    (headerAt m buf).auxLen.toInt.toNat

/-- The address behind the last byte that belongs to the record at a position. -/
def recordEnd (m : Mem) (buf : ℤ) : ℤ :=
  buf + headerSize + max 0 (headerAt m buf).pathLen.toInt + max 0 (headerAt m buf).auxLen.toInt

/-- A record that was parsed, the end of its bytes and the end of the chunk it was parsed from. -/
structure Parsed where
  record : LogRecord
  stop : ℤ
  limit : ℤ

/-- The record was parsed from bytes of its chunk only. -/
def Parsed.within (p : Parsed) : Prop := p.stop ≤ p.limit

/-! ### The loops -/

/-- Where the control of `main` stands. -/
inductive Pc where
  /-- At the test of the outer loop. -/
  | readChunk
  /-- At the test of the inner loop. -/
  | inner
  /-- At the label `out`. -/
  | out
  /-- Killed, or undefined behaviour. -/
  | crashed
  deriving DecidableEq

/-- The state of `main`. -/
structure ReplayState (W : Type*) where
  pc : Pc
  /-- The size of the log as `stat` reported it, truncated to an `int`. -/
  fsize : ℤ
  /-- The number of bytes read and processed so far. -/
  size : ℤ
  /-- The offset of the log's descriptor. -/
  offset : ℕ
  mem : Mem
  buf : ℤ
  limit : ℤ
  locals : Locals W
  parsed : List Parsed

/-- `4 * BUFFER_SIZE`. -/
def chunkSize : ℕ := 16384

/-- The largest `int`. -/
def intMax : ℤ := 2147483647

/-- The size that `stat` reports, assigned to an `int`. -/
def statSize (log : List UInt8) : ℤ :=
  (BitVec.ofNat 32 log.length).toInt

/-- The flow of a turn decides where the control goes. -/
def Flow.pc : Flow → Pc
  | next => .inner
  | out => .out
  | crash => .crashed

/-- One turn of the inner loop. -/
def innerTurn {W : Type*} (env : ReplayEnv W) (s : ReplayState W) : ReplayState W :=
  let r := recordAt s.mem s.buf
  let turn := replayRecord env r s.locals
  { s with
    pc := turn.2.pc
    buf := s.buf + r.hdr.recSize.toInt
    locals := turn.1
    parsed := s.parsed ++ [⟨r, recordEnd s.mem s.buf, s.limit⟩] }

/-- One step of the tool. -/
def replayStep {W : Type*} (env : ReplayEnv W) (s : ReplayState W) : ReplayState W :=
  match s.pc with
  | .readChunk =>
    if s.size < s.fsize then
      let chunk := (env.log.drop s.offset).take chunkSize
      { s with
        pc := .inner
        offset := s.offset + chunk.length
        mem := load s.mem 0 chunk
        buf := 0
        limit := chunk.length }
    else { s with pc := .out }
  | .inner =>
    if s.buf < s.limit then innerTurn env s
    else if intMax < s.size + s.limit then { s with pc := .crashed }
    else { s with pc := .readChunk, size := s.size + s.limit, buf := 0 }
  | .out | .crashed => s

/-- The state of `main` before the outer loop, with arbitrary memory. -/
def replayStart {W : Type*} (env : ReplayEnv W) (m : Mem) (w : W) : ReplayState W where
  pc := .readChunk
  fsize := statSize env.log
  size := 0
  offset := 0
  mem := m
  buf := 0
  limit := 0
  locals := ⟨w, 0, none⟩
  parsed := []

/-- The state of `main` at the inner loop when one buffer holds the whole log. -/
def wholeStart {W : Type*} (env : ReplayEnv W) (m : Mem) (w : W) : ReplayState W where
  pc := .inner
  fsize := statSize env.log
  size := 0
  offset := env.log.length
  mem := load m 0 env.log
  buf := 0
  limit := env.log.length
  locals := ⟨w, 0, none⟩
  parsed := []

end Trfs
