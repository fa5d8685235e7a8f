import TraceFileSystem.Treplay.Machine

/-!
# Reading well-formed logs

On a log that is a concatenation of well-formed records the inner loop stays on record boundaries as
long as it only parses bytes of its chunk.  The file proves this once, as an invariant of the whole
machine.

* `recordAt_of_frame`: where the memory holds a frame, the loop parses the record of that frame.
* `replayRecord_of_nonneg`: a turn of the loop resolves the paths and reaches the `switch`.
* `replayRecord_flow`: without strict mode every well-formed record lets the loop go on.
* `Sync`: the records parsed so far are the first records of the log, the variables are what
  replaying them gives, and the position of the loop is the boundary behind them.  `Sync.innerTurn`,
  `Sync.innerEnd` and `Sync.readChunk` say that every step preserves it as long as a record is
  parsed from bytes of its chunk only.

The file closes with the case of a single buffer that holds the whole log, where the invariant can
never be lost (`whole_parses`).
-/

namespace Trfs

open ByteStore

/-! ### A frame in memory -/

/-- Where the memory holds the bytes of a header, the header is found. -/
theorem headerAt_of_bytes {m : Mem} {buf : ℤ} {h : Header}
    (hm : readBytes m buf headerSize = h.bytes) : headerAt m buf = h := by
  rw [headerAt, hm, Header.ofBytes_bytes]

/-- Where the memory holds a frame, its header is found. -/
theorem headerAt_of_frame {m : Mem} {buf : ℤ} {r : LogRecord}
    (hm : readBytes m buf r.frame.length = r.frame) : headerAt m buf = r.hdr := by
  apply headerAt_of_bytes
  rw [← r.hdr.length_bytes]
  rw [LogRecord.frame, List.append_assoc] at hm
  exact readBytes_append_left hm

/-- Where the memory holds the frame of a well-formed record, the record is parsed. -/
theorem recordAt_of_frame {m : Mem} {buf : ℤ} {r : LogRecord} (h : r.WellFormed)
    (hm : readBytes m buf r.frame.length = r.frame) : recordAt m buf = r := by
  have hhdr := headerAt_of_frame hm
  have hpath : readBytes m (buf + headerSize) r.path.length = r.path := by
    rw [LogRecord.frame, List.append_assoc] at hm
    have := readBytes_append_right hm
    rw [Header.length_bytes] at this
    exact readBytes_append_left this
  have haux : readBytes m (buf + headerSize + r.path.length) r.aux.length = r.aux := by
    rw [LogRecord.frame] at hm
    have := readBytes_append_right hm
    rwa [List.length_append, Header.length_bytes, Nat.cast_add, ← add_assoc] at this
  simp only [recordAt, hhdr, h.pathLen_eq, h.auxLen_eq, Int.toNat_natCast, hpath, haux]

/-- A record whose header is found ends where its frame ends. -/
theorem recordEnd_of_header {m : Mem} {buf : ℤ} {r : LogRecord} (h : r.WellFormed)
    (hm : headerAt m buf = r.hdr) : recordEnd m buf = buf + r.frame.length := by
  rw [recordEnd, hm, h.pathLen_eq, h.auxLen_eq, LogRecord.length_frame,
    max_eq_right (by positivity), max_eq_right (by positivity)]
  push_cast
  ring

/-! ### Replaying a well-formed record -/

section Flow

variable {W : Type*} {env : ReplayEnv W}

/-- Outside strict mode the end of a case goes on with the loop. -/
theorem settle_flow (h : Header) (l : Locals W) (call : W × ℤ) :
    (settle false h l call).2 = .next := by
  simp [settle, replayedStatus]

/-- Outside strict mode the `switch` goes on with the loop, if the type is known and what its case
needs has been prepared. -/
theorem replaySwitch_flow (hstrict : env.flags.strict = false) {h : Header}
    {pathname aux : List UInt8} {l : Locals W} {t : RecType} (ht : RecType.ofCode? h.type = some t)
    (hread : t ≠ .fread) (hdread : t ≠ .dread)
    (haux : t = .rename ∨ t = .link → l.auxpath ≠ none) (hlen : t = .symlink → h.auxLen ≠ 0) :
    (replaySwitch env h pathname aux l).2 = .next := by
  unfold replaySwitch
  rw [ht, hstrict]
  cases hn : env.flags.noreplay with
  | true => cases t <;> first | rfl | exact absurd rfl hread | exact absurd rfl hdread
  | false =>
    cases t with
    | fcreat => exact settle_flow _ _ _
    | fread => exact absurd rfl hread
    | fwrite => simp [replayWrite, replayedStatus]
    | dcreat => exact settle_flow _ _ _
    | dread => exact absurd rfl hdread
    | rename =>
      obtain ⟨p, hp⟩ := Option.ne_none_iff_exists'.mp (haux (Or.inl rfl))
      simp only [hp]
      exact settle_flow _ _ _
    | link =>
      obtain ⟨p, hp⟩ := Option.ne_none_iff_exists'.mp (haux (Or.inr rfl))
      simp only [hp]
      exact settle_flow _ _ _
    | symlink =>
      simp only [hlen rfl]
      exact settle_flow _ _ _
    | unlink => exact settle_flow _ _ _

/-- The type field determines the record type. -/
theorem RecType.code_of_ofCode? {c : CInt} {t : RecType} (h : RecType.ofCode? c = some t) :
    t.code = c := by
  have := List.find?_some h
  simpa using this

/-- `auxpath` after the paths of a record have been resolved: a second path sets it, and otherwise
it keeps its value. -/
def LogRecord.resolvedAux (cwd : List UInt8) (r : LogRecord) (auxpath : Option (List UInt8)) :
    Option (List UInt8) :=
  if (r.hdr.auxLen ≠ 0 ∧ r.hdr.type ≠ RecType.fwrite.code) ∧
      r.hdr.type ≠ RecType.symlink.code then
    some (cwd ++ cstr r.aux)
  else auxpath

variable {r : LogRecord}

/-- A well-formed record with a second path or a target has auxiliary data. -/
theorem LogRecord.WellFormed.auxLen_ne_zero (h : r.WellFormed) (haux : r.aux ≠ []) :
    r.hdr.auxLen ≠ 0 := by
  intro hzero
  have hlen := h.auxLen_eq
  rw [hzero] at hlen
  have hzero' : (0 : CShort).toInt = 0 := by decide
  rw [hzero'] at hlen
  exact haux (List.length_eq_zero_iff.mp (by exact_mod_cast hlen.symm))

/-- Where the lengths are not negative, the paths are resolved and the `switch` is reached. -/
theorem replayRecord_of_nonneg (env : ReplayEnv W) (l : Locals W)
    (hpath : ¬r.hdr.pathLen.toInt < 0)
    (haux : ¬(r.hdr.type ≠ RecType.fwrite.code ∧ r.hdr.auxLen.toInt < 0)) :
    replayRecord env r l = replaySwitch env r.hdr (env.cwd ++ cstr r.path) r.aux
      { l with auxpath := r.resolvedAux env.cwd l.auxpath } := by
  rw [replayRecord, if_neg hpath, LogRecord.resolvedAux]
  dsimp only
  by_cases hsecond : r.hdr.auxLen ≠ 0 ∧ r.hdr.type ≠ RecType.fwrite.code
  · have hnonneg : ¬r.hdr.auxLen.toInt < 0 := fun hneg => haux ⟨hsecond.2, hneg⟩
    rw [if_pos hsecond, if_neg hnonneg]
    by_cases hsym : r.hdr.type ≠ RecType.symlink.code
    · rw [if_pos hsym, if_pos ⟨hsecond, hsym⟩]
    · rw [if_neg hsym, if_neg fun h => hsym h.2]
  · rw [if_neg hsecond, if_neg fun h => hsecond h.1]

/-- The lengths of a well-formed record are not negative. -/
theorem LogRecord.WellFormed.lengths_nonneg (h : r.WellFormed) :
    ¬r.hdr.pathLen.toInt < 0 ∧
      ¬(r.hdr.type ≠ RecType.fwrite.code ∧ r.hdr.auxLen.toInt < 0) := by
  rw [h.pathLen_eq, h.auxLen_eq]
  omega

/-- The second path of a well-formed record is copied. -/
theorem LogRecord.WellFormed.copied_of_second (h : r.WellFormed)
    (htype : RecType.ofCode? r.hdr.type = some .rename ∨
      RecType.ofCode? r.hdr.type = some .link) :
    (r.hdr.auxLen ≠ 0 ∧ r.hdr.type ≠ RecType.fwrite.code) ∧
      r.hdr.type ≠ RecType.symlink.code := by
  have hok := h.type_ok
  unfold LogRecord.typeOk at hok
  rcases htype with htype | htype
  · rw [htype] at hok
    rw [← RecType.code_of_ofCode? htype]
    exact ⟨⟨h.auxLen_ne_zero hok, by decide⟩, by decide⟩
  · rw [htype] at hok
    rw [← RecType.code_of_ofCode? htype]
    exact ⟨⟨h.auxLen_ne_zero hok, by decide⟩, by decide⟩

/-- It is resolved. -/
theorem LogRecord.WellFormed.resolvedAux_eq (h : r.WellFormed)
    (htype : RecType.ofCode? r.hdr.type = some .rename ∨
      RecType.ofCode? r.hdr.type = some .link) (cwd : List UInt8)
    (auxpath : Option (List UInt8)) :
    r.resolvedAux cwd auxpath = some (cwd ++ cstr r.aux) :=
  if_pos (h.copied_of_second htype)

/-- Outside strict mode a well-formed record lets the loop go on. -/
theorem replayRecord_flow (hstrict : env.flags.strict = false) (h : r.WellFormed)
    (l : Locals W) : (replayRecord env r l).2 = .next := by
  rw [replayRecord_of_nonneg env l h.lengths_nonneg.1 h.lengths_nonneg.2]
  have htype := h.type_ok
  unfold LogRecord.typeOk at htype
  cases ht : RecType.ofCode? r.hdr.type with
  | none => simp [ht] at htype
  | some t =>
    rw [ht] at htype
    refine replaySwitch_flow hstrict ht ?_ ?_ ?_ ?_
    · rintro rfl
      exact htype
    · rintro rfl
      exact htype
    · intro hsecond
      have hcopied := hsecond.imp (fun hk => hk ▸ ht) (fun hk => hk ▸ ht)
      rw [h.resolvedAux_eq hcopied]
      exact Option.some_ne_none _
    · rintro rfl
      exact h.auxLen_ne_zero htype

end Flow

/-! ### A frame in a window of the log -/

section Window

variable {m : Mem} {log suffix : List UInt8} {start limit buf : ℕ} {r : LogRecord}

/-- When the window reaches to the end of a frame, the record of the frame is parsed. -/
theorem recordAt_window (h : r.WellFormed)
    (hm : readBytes m 0 limit = (log.drop start).take limit)
    (hlog : log.drop (start + buf) = r.frame ++ suffix) (hle : buf + r.frame.length ≤ limit) :
    recordAt m buf = r ∧ recordEnd m buf = buf + r.frame.length := by
  have hframe : readBytes m buf r.frame.length = r.frame := by
    rw [readBytes_window hm hle, hlog, List.take_left]
  exact ⟨recordAt_of_frame h hframe, recordEnd_of_header h (headerAt_of_frame hframe)⟩

/-- A record that is parsed from bytes of the window only has its whole frame in the window. -/
theorem frame_le_of_recordEnd_le (h : r.WellFormed)
    (hm : readBytes m 0 limit = (log.drop start).take limit)
    (hlog : log.drop (start + buf) = r.frame ++ suffix) (hle : recordEnd m buf ≤ limit) :
    buf + r.frame.length ≤ limit := by
  have hhead : buf + headerSize ≤ limit := by
    unfold recordEnd at hle
    omega
  have hbytes : readBytes m buf headerSize = r.hdr.bytes := by
    rw [readBytes_window hm hhead, hlog, LogRecord.frame, List.append_assoc, List.append_assoc,
      List.take_left' r.hdr.length_bytes]
  rw [recordEnd_of_header h (headerAt_of_bytes hbytes)] at hle
  omega

end Window

/-! ### The invariant of the loops -/

section Sync

variable {W : Type*}

/-- The variables after replaying a list of records. -/
def replayAll (env : ReplayEnv W) (rs : List LogRecord) (l : Locals W) : Locals W :=
  rs.foldl (fun l r => (replayRecord env r l).1) l

@[simp] theorem replayAll_append (env : ReplayEnv W) (rs rs' : List LogRecord) (l : Locals W) :
    replayAll env (rs ++ rs') l = replayAll env rs' (replayAll env rs l) := by
  simp [replayAll]

/-- Every record so far was parsed from bytes of its chunk only. -/
def ReplayState.clean (s : ReplayState W) : Prop := ∀ p ∈ s.parsed, p.within

/-- The control stands at the position `pos` of the log: at the outer loop everything before it has
been read, at the inner loop the buffer holds a window of the log around it. -/
def ReplayState.standsAt (log : List UInt8) (s : ReplayState W) (pos : ℕ) : Prop :=
  match s.pc with
  | .readChunk => s.size = pos ∧ s.offset = pos ∧ s.size ≤ intMax
  | .inner => ∃ start limit buf : ℕ, s.size = start ∧ s.limit = limit ∧ s.buf = buf ∧
      buf ≤ limit ∧ start + buf = pos ∧ s.offset = start + limit ∧ start + limit ≤ log.length ∧
      readBytes s.mem 0 limit = (log.drop start).take limit
  | .out => s.size = pos ∧ s.offset = pos ∧ s.size ≤ intMax ∧ s.fsize ≤ s.size
  | .crashed => True

/-- The records `done` have been parsed and replayed, the records `rest` are still in the log. -/
structure Sync (env : ReplayEnv W) (recs : List LogRecord) (w : W) (s : ReplayState W)
    (done rest : List LogRecord) : Prop where
  split : recs = done ++ rest
  parsed : s.parsed.map Parsed.record = done
  locals : s.locals = replayAll env done ⟨w, 0, none⟩
  stands : s.standsAt env.log (frames done).length

variable {env : ReplayEnv W} {recs : List LogRecord} {w : W} {s : ReplayState W}
  {done rest : List LogRecord}

/-- Inside the window there is a next record. -/
theorem Sync.exists_next (h : Sync env recs w s done rest) (hlog : env.log = frames recs)
    (hpc : s.pc = .inner) (hlt : s.buf < s.limit) : ∃ r rest', rest = r :: rest' := by
  have hst := h.stands
  simp only [ReplayState.standsAt, hpc] at hst
  obtain ⟨start, limit, buf, -, hlimit, hbuf, -, hpos, -, hend, -⟩ := hst
  cases rest with
  | nil =>
    have hlen : env.log.length = (frames done).length := by rw [hlog, h.split, List.append_nil]
    omega
  | cons r rest' => exact ⟨r, rest', rfl⟩

/-- What follows the boundary in the log is the frame of the next record. -/
theorem Sync.drop_log {r : LogRecord} {rest' : List LogRecord}
    (h : Sync env recs w s done (r :: rest')) (hlog : env.log = frames recs) :
    env.log.drop (frames done).length = r.frame ++ frames rest' := by
  rw [hlog, h.split, frames_append, List.drop_left, frames_cons]

/-- At the inner loop the frame of the next record follows the position in the log, of which the
buffer holds a window. -/
theorem Sync.exists_window {r : LogRecord} {rest' : List LogRecord}
    (h : Sync env recs w s done (r :: rest')) (hlog : env.log = frames recs)
    (hpc : s.pc = .inner) :
    ∃ start limit buf : ℕ, s.limit = limit ∧ s.buf = buf ∧
      readBytes s.mem 0 limit = (env.log.drop start).take limit ∧
      env.log.drop (start + buf) = r.frame ++ frames rest' := by
  have hst := h.stands
  simp only [ReplayState.standsAt, hpc] at hst
  obtain ⟨start, limit, buf, -, hlimit, hbuf, -, hpos, -, -, hwin⟩ := hst
  refine ⟨start, limit, buf, hlimit, hbuf, hwin, ?_⟩
  rw [hpos]
  exact h.drop_log hlog

/-- A turn of the inner loop on a record whose frame lies in the window. -/
theorem Sync.innerTurn_eq {r : LogRecord} {rest' : List LogRecord}
    (h : Sync env recs w s done (r :: rest')) (hlog : env.log = frames recs) (hr : r.WellFormed)
    (hpc : s.pc = .inner) (hle : s.buf + r.frame.length ≤ s.limit) :
    innerTurn env s =
      { s with
        pc := (replayRecord env r s.locals).2.pc
        buf := s.buf + r.frame.length
        locals := (replayRecord env r s.locals).1
        parsed := s.parsed ++ [⟨r, s.buf + r.frame.length, s.limit⟩] } := by
  obtain ⟨start, limit, buf, hlimit, hbuf, hwin, hdrop⟩ := h.exists_window hlog hpc
  rw [hbuf, hlimit] at hle
  obtain ⟨hrec, hstop⟩ := recordAt_window hr hwin hdrop (by exact_mod_cast hle)
  simp only [Trfs.innerTurn, hbuf, hrec, hstop, hr.recSize_eq_length]

/-- A turn of the inner loop on such a record that lets the loop go on moves the invariant to the
next boundary. -/
theorem Sync.innerTurn_of_next {r : LogRecord} {rest' : List LogRecord}
    (h : Sync env recs w s done (r :: rest')) (hlog : env.log = frames recs) (hr : r.WellFormed)
    (hpc : s.pc = .inner) (hle : s.buf + r.frame.length ≤ s.limit)
    (hflow : (replayRecord env r s.locals).2 = .next) :
    Sync env recs w (innerTurn env s) (done ++ [r]) rest' ∧
      (innerTurn env s).pc = .inner ∧ (innerTurn env s).buf = s.buf + r.frame.length ∧
      (innerTurn env s).parsed = s.parsed ++ [⟨r, s.buf + r.frame.length, s.limit⟩] := by
  have hst := h.stands
  simp only [ReplayState.standsAt, hpc] at hst
  obtain ⟨start, limit, buf, hsize, hlimit, hbuf, -, hpos, hoff, hend, hwin⟩ := hst
  rw [h.innerTurn_eq hlog hr hpc hle, hflow]
  rw [hbuf, hlimit] at hle
  refine ⟨⟨?_, ?_, ?_, ?_⟩, rfl, rfl, rfl⟩
  · rw [h.split, List.append_assoc, List.singleton_append]
  · rw [List.map_append, h.parsed]
    rfl
  · rw [replayAll_append, ← h.locals]
    rfl
  · simp only [ReplayState.standsAt, Flow.pc]
    refine ⟨start, limit, buf + r.frame.length, hsize, hlimit, by rw [hbuf]; push_cast; rfl,
      by exact_mod_cast hle, ?_, hoff, hend, hwin⟩
    rw [frames_append, List.length_append, ← hpos]
    simp [frames]
    ring

/-- Outside strict mode every turn lets the loop go on. -/
theorem Sync.innerTurn {r : LogRecord} {rest' : List LogRecord}
    (h : Sync env recs w s done (r :: rest')) (hlog : env.log = frames recs)
    (hstrict : env.flags.strict = false) (hr : r.WellFormed) (hpc : s.pc = .inner)
    (hle : s.buf + r.frame.length ≤ s.limit) :
    Sync env recs w (innerTurn env s) (done ++ [r]) rest' ∧
      (innerTurn env s).pc = .inner ∧ (innerTurn env s).buf = s.buf + r.frame.length ∧
      (innerTurn env s).parsed = s.parsed ++ [⟨r, s.buf + r.frame.length, s.limit⟩] :=
  h.innerTurn_of_next hlog hr hpc hle (replayRecord_flow hstrict hr s.locals)

/-- The boundary lies within the log. -/
theorem Sync.boundary_le (h : Sync env recs w s done rest) (hlog : env.log = frames recs) :
    (frames done).length ≤ env.log.length := by
  rw [hlog, h.split, frames_append, List.length_append]
  exact Nat.le_add_right _ _

/-- The outer loop keeps the boundary: it either reads the next window, which starts there, or
leaves the loops. -/
theorem Sync.readChunk (h : Sync env recs w s done rest) (hlog : env.log = frames recs)
    (hpc : s.pc = .readChunk) : Sync env recs w (replayStep env s) done rest := by
  have hst := h.stands
  simp only [ReplayState.standsAt, hpc] at hst
  obtain ⟨hsize, hoff, hmax⟩ := hst
  by_cases hlt : s.size < s.fsize
  · have hstep : replayStep env s =
        { s with
          pc := .inner
          offset := s.offset + ((env.log.drop s.offset).take chunkSize).length
          mem := load s.mem 0 ((env.log.drop s.offset).take chunkSize)
          buf := 0
          limit := ((env.log.drop s.offset).take chunkSize).length } := by
      simp [replayStep, hpc, hlt]
    rw [hstep]
    refine ⟨h.split, h.parsed, h.locals, ?_⟩
    refine ⟨s.offset, ((env.log.drop s.offset).take chunkSize).length, 0, ?_, rfl, rfl,
      Nat.zero_le _, ?_, rfl, ?_, ?_⟩
    · exact hsize.trans (by rw [hoff])
    · rw [hoff, Nat.add_zero]
    · have hle := h.boundary_le hlog
      rw [List.length_take, List.length_drop, hoff]
      omega
    · rw [readBytes_load, List.take_eq_take_iff, List.length_take]
      omega
  · have hstep : replayStep env s = { s with pc := .out } := by
      simp [replayStep, hpc, hlt]
    rw [hstep]
    exact ⟨h.split, h.parsed, h.locals, hsize, hoff, hmax, not_lt.mp hlt⟩

/-- Behind the last byte of the window the inner loop ends at the boundary. -/
theorem Sync.innerEnd (h : Sync env recs w s done rest) (hpc : s.pc = .inner)
    (hge : s.limit ≤ s.buf) : Sync env recs w (replayStep env s) done rest := by
  have hst := h.stands
  simp only [ReplayState.standsAt, hpc] at hst
  obtain ⟨start, limit, buf, hsize, hlimit, hbuf, hbl, hpos, hoff, -, -⟩ := hst
  have hnlt : ¬s.buf < s.limit := by omega
  by_cases hover : intMax < s.size + s.limit
  · have hstep : replayStep env s = { s with pc := .crashed } := by
      simp [replayStep, hpc, hnlt, hover]
    rw [hstep]
    exact ⟨h.split, h.parsed, h.locals, trivial⟩
  · have hstep : replayStep env s =
        { s with pc := .readChunk, size := s.size + s.limit, buf := 0 } := by
      simp [replayStep, hpc, hnlt, hover]
    rw [hstep]
    refine ⟨h.split, h.parsed, h.locals, ?_, ?_, ?_⟩
    · dsimp only
      omega
    · dsimp only
      omega
    · exact not_lt.mp hover

/-- A turn that parses only bytes of its chunk finds the whole frame of the next record there. -/
theorem Sync.frame_le_of_clean {r : LogRecord} {rest' : List LogRecord}
    (h : Sync env recs w s done (r :: rest')) (hlog : env.log = frames recs) (hr : r.WellFormed)
    (hpc : s.pc = .inner) (hclean : (Trfs.innerTurn env s).clean) :
    s.buf + r.frame.length ≤ s.limit := by
  have hend : recordEnd s.mem s.buf ≤ s.limit :=
    hclean ⟨recordAt s.mem s.buf, recordEnd s.mem s.buf, s.limit⟩ (by simp [Trfs.innerTurn])
  obtain ⟨start, limit, buf, hlimit, hbuf, hwin, hdrop⟩ := h.exists_window hlog hpc
  rw [hbuf, hlimit] at hend ⊢
  exact_mod_cast frame_le_of_recordEnd_le hr hwin hdrop hend

/-! ### The whole log in one buffer -/

/-- The inner loop has come to its end. -/
def ReplayState.innerDone (s : ReplayState W) : Prop := s.pc = .inner ∧ s.limit ≤ s.buf

/-- The invariant holds at the start, for one buffer with the whole log. -/
theorem sync_wholeStart (env : ReplayEnv W) (recs : List LogRecord) (m : Mem) (w : W) :
    Sync env recs w (wholeStart env m w) [] recs := by
  refine ⟨rfl, rfl, rfl, 0, env.log.length, 0, rfl, rfl, rfl, Nat.zero_le _, rfl, ?_, ?_, ?_⟩
  · exact (Nat.zero_add _).symm
  · exact (Nat.zero_add _).le
  · rw [wholeStart, readBytes_load, List.drop_zero, List.take_length]

/-- The inner loop takes one turn for each of the next records, if the window ends with a record. -/
theorem Sync.run_turns (hlog : env.log = frames recs) (hstrict : env.flags.strict = false)
    (hwf : ∀ r ∈ recs, r.WellFormed) {next : List LogRecord}
    (h : Sync env recs w s done (next ++ rest)) (hpc : s.pc = .inner)
    (hlimit : s.limit = s.buf + (frames (next ++ rest)).length) (hclean : s.clean) :
    Sync env recs w ((Trfs.replayStep env)^[next.length] s) (done ++ next) rest ∧
      ((Trfs.replayStep env)^[next.length] s).pc = .inner ∧
      ((Trfs.replayStep env)^[next.length] s).limit =
        ((Trfs.replayStep env)^[next.length] s).buf + (frames rest).length ∧
      ((Trfs.replayStep env)^[next.length] s).clean := by
  induction next generalizing s done with
  | nil =>
    rw [List.append_nil]
    exact ⟨h, hpc, hlimit, hclean⟩
  | cons r next ih =>
    have hr : r.WellFormed := hwf r (by rw [h.split]; simp)
    rw [List.cons_append, frames_cons, List.length_append] at hlimit
    have hle : s.buf + r.frame.length ≤ s.limit := by omega
    have hlt : s.buf < s.limit := by
      have := hr.headerSize_lt
      omega
    have hstep : Trfs.replayStep env s = Trfs.innerTurn env s := by
      simp [Trfs.replayStep, hpc, hlt]
    obtain ⟨hsync, hpc', hbuf', hparsed'⟩ := h.innerTurn hlog hstrict hr hpc hle
    rw [← hstep] at hsync hpc' hbuf' hparsed'
    have hlim : (Trfs.replayStep env s).limit = s.limit := by rw [hstep]; rfl
    have hclean' : (Trfs.replayStep env s).clean := by
      intro p hp
      rw [hparsed', List.mem_append, List.mem_singleton] at hp
      rcases hp with hp | rfl
      · exact hclean p hp
      · exact hle
    have hrun := ih hsync hpc' (by rw [hlim, hbuf']; omega) hclean'
    rwa [List.append_assoc, List.singleton_append] at hrun

/-- The inner loop runs through all records whose frames fill the rest of the window. -/
theorem Sync.run_inner (hlog : env.log = frames recs) (hstrict : env.flags.strict = false)
    (hwf : ∀ r ∈ recs, r.WellFormed) (h : Sync env recs w s done rest) (hpc : s.pc = .inner)
    (hlimit : s.limit = s.buf + (frames rest).length) (hclean : s.clean) :
    ∃ n, Sync env recs w ((Trfs.replayStep env)^[n] s) recs [] ∧
      ((Trfs.replayStep env)^[n] s).innerDone ∧ ((Trfs.replayStep env)^[n] s).clean := by
  rw [← List.append_nil rest] at h hlimit
  obtain ⟨hsync, hpc', hlimit', hclean'⟩ := h.run_turns hlog hstrict hwf hpc hlimit hclean
  have hrecs : done ++ rest = recs := by rw [h.split, List.append_nil]
  refine ⟨rest.length, hrecs ▸ hsync, ⟨hpc', ?_⟩, hclean'⟩
  simpa using hlimit'.le

/-- **One buffer.**  When a buffer holds a whole log of well-formed records, the inner loop parses
exactly these records, replays them in order and ends at the last byte. -/
theorem whole_parses (hlog : env.log = frames recs) (hstrict : env.flags.strict = false)
    (hwf : ∀ r ∈ recs, r.WellFormed) (m : Mem) (w : W) :
    ∃ n, ((Trfs.replayStep env)^[n] (wholeStart env m w)).innerDone ∧
      ((Trfs.replayStep env)^[n] (wholeStart env m w)).parsed.map Parsed.record = recs ∧
      ((Trfs.replayStep env)^[n] (wholeStart env m w)).locals =
        replayAll env recs ⟨w, 0, none⟩ := by
  have hlimit : (wholeStart env m w).limit = (wholeStart env m w).buf + (frames recs).length := by
    simp [wholeStart, hlog]
  obtain ⟨n, hsync, hdone, -⟩ := (sync_wholeStart env recs m w).run_inner hlog hstrict hwf rfl
    hlimit (by simp [ReplayState.clean, wholeStart])
  exact ⟨n, hdone, hsync.parsed, hsync.locals⟩

end Sync

end Trfs
