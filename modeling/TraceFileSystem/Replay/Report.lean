import TraceFileSystem.Lib.Formats
import TraceFileSystem.Replay.Buffers
import TraceFileSystem.Replay.ExitStatus

/-!
# What the replay tool prints

`treplay` prints the size of `rec_type_t` and the name of the log, and then a line for every call it
makes, or with the option `-n` for every call it would make, with all fields of the record, and in
front of it a verdict.

* `printRecord` and `statusText` are `print_record` and what `replayed_status` prints.  `Line` is a
  line with its content, and `flatMap_text_inj` says that nothing of the content is lost in the
  text.
* `replayLines` are the lines of one turn of the inner loop, and `Prints` is the text of a run that
  does not overrun the path buffers.  `linesUpTo_eq` determines the lines for every log from the
  records that are parsed.

`prints_listing` and `sameListing_iff` are the results for `-n`, and `verdicts_tell` is the one for
a replay without options.
-/

namespace Trfs

open ByteStore Formats

/-! ### Lines -/

/-- The names of the calls in the lines. -/
inductive CallName where
  | openFile
  | write
  | mkdir
  | rename
  | link
  | symlink
  | remove
  deriving DecidableEq

/-- The argument `syscall`. -/
def CallName.text : CallName → List Char
  | openFile => lit "open"
  | write => lit "write"
  | mkdir => lit "mkdir"
  | rename => lit "rename"
  | link => lit "link"
  | symlink => lit "symlink"
  | remove => lit "remove"

/-- The fields before the name of the call, with the text behind each. -/
def Header.printed (h : Header) : List (ℤ × List Char) :=
  [(h.recId.toInt, lit ", rec_flags="), (h.recFlags.toInt, lit ", perm_flags="),
    (h.permFlags.toInt, lit ", result="), (h.result.toInt, lit ", rec_size="),
    (h.recSize.toInt, lit ", path_len="), (h.pathLen.toInt, lit ", rec_type="),
    (h.type.toInt, lit ", aux_len="), (h.auxLen.toInt, lit ", syscall=")]

/-- What `print_record` prints.  Without a replay there is no current error. -/
def printRecord (h : Header) (syscall : CallName) (err : Option ℤ) : List Char :=
  lit "rec_id=" ++ formatFields h.printed ++ syscall.text ++ lit ", record_err=" ++
    formatFields [(h.result.toInt, lit ", ")] ++
    (err.elim [] fun e => lit "current_err=" ++ decimal e) ++ lit "\n"

/-- The verdict of `replayed_status`. -/
def verdict (h : Header) (err : ℤ) : List Char :=
  if 0 ≤ err ∧ 0 ≤ h.result.toInt then lit "SUCESS::ID=" else lit "FAILED::ID:"

/-- What `replayed_status` prints, with or without the option `-s`. -/
def statusText (h : Header) (syscall : CallName) (err : ℤ) : List Char :=
  verdict h err ++ decimal h.recId.toInt ++ lit "\n" ++ printRecord h syscall (some err)

/-- What the tool prints for a call. -/
inductive Line where
  /-- With the option `-n`. -/
  | listed (h : Header) (syscall : CallName)
  /-- With the result of the call. -/
  | status (h : Header) (syscall : CallName) (err : ℤ)
  /-- The record is of no type that can be replayed. -/
  | invalid
  deriving DecidableEq

namespace Line

/-- The text of a line. -/
def text : Line → List Char
  | listed h syscall => printRecord h syscall none
  | status h syscall err => statusText h syscall err
  | invalid => lit "Invalid Operation\n"

end Line

/-- The fields that are printed determine the header. -/
theorem Header.eq_of_printed {h h' : Header} (heq : h.printed = h'.printed) : h = h' := by
  obtain ⟨i, f, p, r, s, l, t, a⟩ := h
  obtain ⟨i', f', p', r', s', l', t', a'⟩ := h'
  simp only [printed, List.cons.injEq, Prod.mk.injEq, BitVec.toInt_inj, and_true] at heq
  simp only [Header.mk.injEq]
  exact heq

/-- The names differ. -/
theorem CallName.eq_of_text {c c' : CallName} (h : c.text = c'.text) : c = c' := by
  cases c <;> cases c' <;> first | rfl | exact absurd h (by decide)

/-- The name of a call is read back up to the comma. -/
theorem CallName.text_append_inj {c c' : CallName} {s s' : List Char}
    (h : c.text ++ ',' :: s = c'.text ++ ',' :: s') : c = c' ∧ s = s' := by
  have hcomma (c : CallName) : ',' ∉ c.text := by
    cases c <;> decide
  obtain ⟨htext, hs⟩ := append_cons_inj (hcomma c) (hcomma c') h
  exact ⟨CallName.eq_of_text htext, hs⟩

/-- The fields before the name of the call are read back. -/
theorem Header.printed_append_inj {h h' : Header} {s s' : List Char}
    (heq : formatFields h.printed ++ s = formatFields h'.printed ++ s') : h = h' ∧ s = s' := by
  have htexts (h : Header) : h.printed.map Prod.snd = [lit ", rec_flags=", lit ", perm_flags=",
      lit ", result=", lit ", rec_size=", lit ", path_len=", lit ", rec_type=", lit ", aux_len=",
      lit ", syscall="] := by
    simp only [Header.printed, List.map_cons, List.map_nil]
  have hends : ∀ t ∈ h.printed.map Prod.snd, t ≠ [] ∧ EndsNumber t := by
    rw [htexts]
    decide
  obtain ⟨hprinted, hs⟩ := formatFields_append_inj ((htexts h).trans (htexts h').symm) hends heq
  exact ⟨Header.eq_of_printed hprinted, hs⟩

/-- What `print_record` has printed is read back. -/
theorem printRecord_append_inj {h h' : Header} {c c' : CallName} {err err' : Option ℤ}
    {s s' : List Char} (heq : printRecord h c err ++ s = printRecord h' c' err' ++ s') :
    h = h' ∧ c = c' ∧ err = err' ∧ s = s' := by
  unfold printRecord at heq
  simp only [List.append_assoc] at heq
  obtain ⟨rfl, hcall⟩ := Header.printed_append_inj ((List.append_right_inj _).mp heq)
  rw [show lit ", record_err=" = ',' :: lit " record_err=" from rfl, List.cons_append,
    List.cons_append] at hcall
  obtain ⟨rfl, hresult⟩ := CallName.text_append_inj hcall
  have herr := List.append_cancel_left (List.append_cancel_left hresult)
  rw [lit_newline, show lit "current_err=" = 'c' :: lit "urrent_err=" from rfl] at herr
  refine ⟨rfl, rfl, ?_⟩
  cases err with
  | none =>
    cases err' with
    | none => exact ⟨rfl, by simpa using herr⟩
    | some e' => simp at herr
  | some e =>
    cases err' with
    | none => simp at herr
    | some e' =>
      simp only [Option.elim_some, List.append_assoc] at herr
      obtain ⟨rfl, hs⟩ := decimal_append_inj (by simp [EndsNumber]) (by simp [EndsNumber])
        (List.append_cancel_left herr)
      exact ⟨rfl, List.append_cancel_left hs⟩

/-- What `replayed_status` has printed is read back. -/
theorem statusText_append_inj {h h' : Header} {c c' : CallName} {err err' : ℤ} {s s' : List Char}
    (heq : statusText h c err ++ s = statusText h' c' err' ++ s') :
    h = h' ∧ c = c' ∧ err = err' ∧ s = s' := by
  have hlen (h : Header) (err : ℤ) : (verdict h err).length = 11 := by
    unfold verdict
    split <;> rfl
  unfold statusText at heq
  simp only [List.append_assoc, lit_newline] at heq
  obtain ⟨-, hid⟩ := List.append_inj heq ((hlen h err).trans (hlen h' err').symm)
  obtain ⟨-, hrecord⟩ := decimal_append_inj (by simp [EndsNumber]) (by simp [EndsNumber]) hid
  obtain ⟨rfl, rfl, herr, rfl⟩ := printRecord_append_inj ((List.append_right_inj _).mp hrecord)
  exact ⟨rfl, rfl, Option.some_inj.mp herr, rfl⟩

namespace Line

/-- The first letter of a line tells its kind. -/
def initial : Line → Char
  | listed _ _ => 'r'
  | status h _ err => if 0 ≤ err ∧ 0 ≤ h.result.toInt then 'S' else 'F'
  | invalid => 'I'

/-- A line begins with its letter. -/
theorem exists_text_eq (line : Line) : ∃ s, line.text = line.initial :: s := by
  cases line with
  | listed h c =>
    simp only [text, printRecord, List.append_assoc, initial]
    rw [show lit "rec_id=" = 'r' :: lit "ec_id=" from rfl, List.cons_append]
    exact ⟨_, rfl⟩
  | status h c err =>
    simp only [text, statusText, verdict, initial, List.append_assoc]
    split
    · rw [show lit "SUCESS::ID=" = 'S' :: lit "UCESS::ID=" from rfl, List.cons_append]
      exact ⟨_, rfl⟩
    · rw [show lit "FAILED::ID:" = 'F' :: lit "AILED::ID:" from rfl, List.cons_append]
      exact ⟨_, rfl⟩
  | invalid => exact ⟨_, rfl⟩

/-- A line is read back. -/
theorem text_append_inj {line line' : Line} {s s' : List Char}
    (heq : line.text ++ s = line'.text ++ s') : line = line' ∧ s = s' := by
  have hinitial : line.initial = line'.initial := by
    obtain ⟨t, ht⟩ := line.exists_text_eq
    obtain ⟨t', ht'⟩ := line'.exists_text_eq
    rw [ht, ht', List.cons_append, List.cons_append, List.cons.injEq] at heq
    exact heq.1
  cases line with
  | listed h c =>
    cases line' with
    | listed h' c' =>
      obtain ⟨rfl, rfl, -, rfl⟩ := printRecord_append_inj heq
      exact ⟨rfl, rfl⟩
    | status h' c' err' => simp only [initial] at hinitial; split at hinitial <;> cases hinitial
    | invalid => cases hinitial
  | status h c err =>
    cases line' with
    | listed h' c' => simp only [initial] at hinitial; split at hinitial <;> cases hinitial
    | status h' c' err' =>
      obtain ⟨rfl, rfl, rfl, rfl⟩ := statusText_append_inj heq
      exact ⟨rfl, rfl⟩
    | invalid => simp only [initial] at hinitial; split at hinitial <;> cases hinitial
  | invalid =>
    cases line' with
    | listed h' c' => cases hinitial
    | status h' c' err' => simp only [initial] at hinitial; split at hinitial <;> cases hinitial
    | invalid => exact ⟨rfl, List.append_cancel_left heq⟩

/-- The text of several lines is read back. -/
theorem flatMap_text_inj {lines lines' : List Line}
    (heq : lines.flatMap text = lines'.flatMap text) : lines = lines' := by
  refine flatMap_inj (fun line => ?_) (fun _ _ _ _ _ _ => text_append_inj) heq
  obtain ⟨s, hs⟩ := line.exists_text_eq
  rw [hs]
  exact List.cons_ne_nil _ _

end Line

/-! ### What a turn prints -/

variable {W : Type*}

/-- The lines of the `switch`. -/
def switchLines (env : ReplayEnv W) (h : Header) (pathname aux : List UInt8) (l : Locals W) :
    List Line :=
  match RecType.ofCode? h.type with
  | some .fcreat =>
    if env.flags.noreplay then [.listed h .openFile]
    else [.status h .openFile (env.sys.openCreat pathname h.permFlags l.world).2]
  | some .fwrite =>
    if env.flags.noreplay then [.listed h .openFile, .listed h .write]
    else
      let opened := env.sys.openFlags pathname h.recFlags l.world
      .status h .openFile opened.2 ::
        if replayedStatus h opened.2 env.flags.strict ≠ 0 then []
        else [.status h .write (env.sys.write opened.2 aux h.auxLen.toInt opened.1).2]
  | some .dcreat =>
    if env.flags.noreplay then [.listed h .mkdir]
    else [.status h .mkdir (env.sys.mkdir pathname h.permFlags l.world).2]
  | some .rename =>
    if env.flags.noreplay then [.listed h .rename]
    else l.auxpath.elim [] fun auxpath =>
      [.status h .rename (env.sys.rename pathname auxpath l.world).2]
  | some .link =>
    if env.flags.noreplay then [.listed h .link]
    else l.auxpath.elim [] fun auxpath =>
      [.status h .link (env.sys.link pathname auxpath l.world).2]
  | some .symlink =>
    if env.flags.noreplay then [.listed h .symlink]
    else if h.auxLen = 0 then []
    else [.status h .symlink (env.sys.symlink (cstr aux) pathname l.world).2]
  | some .unlink =>
    if env.flags.noreplay then [.listed h .remove]
    else [.status h .remove (env.sys.remove pathname l.world).2]
  | some .fread | some .dread | none => [.invalid]

/-- The lines of a turn of the inner loop. -/
def replayLines (env : ReplayEnv W) (r : LogRecord) (l : Locals W) : List Line :=
  if r.hdr.pathLen.toInt < 0 then []
  else
    let pathname := env.cwd ++ cstr r.path
    if r.hdr.auxLen ≠ 0 ∧ r.hdr.type ≠ RecType.fwrite.code then
      if r.hdr.auxLen.toInt < 0 then []
      else if r.hdr.type ≠ RecType.symlink.code then
        switchLines env r.hdr pathname r.aux { l with auxpath := some (env.cwd ++ cstr r.aux) }
      else switchLines env r.hdr pathname r.aux l
    else switchLines env r.hdr pathname r.aux l

/-- The lines of one step of the tool. -/
def stepLines (env : ReplayEnv W) (s : ReplayState W) : List Line :=
  if s.pc = .inner ∧ s.buf < s.limit then replayLines env (recordAt s.mem s.buf) s.locals else []

/-- The lines of the first steps. -/
def linesUpTo (env : ReplayEnv W) (s : ReplayState W) (n : ℕ) : List Line :=
  (List.range n).flatMap fun i => stepLines env ((replayStep env)^[i] s)

/-- What `main` prints before it opens the log with the given name. -/
def opening (file : List Char) : List Char :=
  lit "sizeof(enum):4\n" ++ lit "trace_file=" ++ (file ++ lit "\n")

/-- The two loops come to their end, the path buffers suffice for every record, and this is the text
that has been printed since the start. -/
def Prints (env : ReplayEnv W) (file : List Char) (m : Mem) (w : W) (text : List Char) : Prop :=
  ∃ n, ((replayStep env)^[n] (replayStart env m w)).pc = .out ∧
    (∀ p ∈ ((replayStep env)^[n] (replayStart env m w)).parsed,
      p.record.ResolvesWithin env.cwd) ∧
    opening file ++ (linesUpTo env (replayStart env m w) n).flatMap Line.text = text

/-- The lines for a list of records. -/
def linesOf (env : ReplayEnv W) : List LogRecord → Locals W → List Line
  | [], _ => []
  | r :: rs, l => replayLines env r l ++ linesOf env rs (replayRecord env r l).1

/-- The lines for one record more. -/
theorem linesOf_concat (env : ReplayEnv W) (rs : List LogRecord) (r : LogRecord) (l : Locals W) :
    linesOf env (rs ++ [r]) l = linesOf env rs l ++ replayLines env r (replayAll env rs l) := by
  induction rs generalizing l with
  | nil => simp [linesOf, replayAll]
  | cons r' rs ih =>
    rw [List.cons_append, linesOf, linesOf, ih, List.append_assoc]
    rfl

variable (env : ReplayEnv W) {s : ReplayState W}

/-- Whatever the log is, the records that have been parsed determine the lines and the variables. -/
theorem linesUpTo_eq (hs : s.parsed = []) (n : ℕ) :
    linesUpTo env s n =
        linesOf env (((replayStep env)^[n] s).parsed.map Parsed.record) s.locals ∧
      ((replayStep env)^[n] s).locals =
        replayAll env (((replayStep env)^[n] s).parsed.map Parsed.record) s.locals := by
  induction n with
  | zero => exact ⟨by simp [linesUpTo, hs, linesOf], by simp [hs, replayAll]⟩
  | succ n ih =>
    obtain ⟨hlines, hlocals⟩ := ih
    rw [linesUpTo, List.range_succ, List.flatMap_append, List.flatMap_singleton, ← linesUpTo,
      Function.iterate_succ_apply']
    set t := (replayStep env)^[n] s with ht
    by_cases hturn : t.pc = .inner ∧ t.buf < t.limit
    · have hstep : replayStep env t = innerTurn env t := by
        rw [replayStep, hturn.1]
        exact if_pos hturn.2
      rw [hstep, stepLines, if_pos hturn, hlines]
      simp only [innerTurn, List.map_append, List.map_cons, List.map_nil]
      rw [linesOf_concat, replayAll_append, ← hlocals]
      exact ⟨rfl, rfl⟩
    · have hstep : (replayStep env t).parsed = t.parsed ∧ (replayStep env t).locals = t.locals := by
        unfold replayStep
        cases hpc : t.pc with
        | readChunk => constructor <;> simp only <;> split <;> rfl
        | inner =>
          have hge : ¬t.buf < t.limit := fun hlt => hturn ⟨hpc, hlt⟩
          simp only [if_neg hge]
          constructor <;> split <;> rfl
        | out => exact ⟨rfl, rfl⟩
        | crashed => exact ⟨rfl, rfl⟩
      rw [hstep.1, hstep.2, stepLines, if_neg hturn, List.append_nil]
      exact ⟨hlines, hlocals⟩

/-- Nothing is printed at the label `out`. -/
theorem linesUpTo_of_out (hs : s.parsed = []) {n k : ℕ} (hout : ((replayStep env)^[n] s).pc = .out)
    (hle : n ≤ k) : linesUpTo env s k = linesUpTo env s n := by
  obtain ⟨j, rfl⟩ := Nat.exists_eq_add_of_le hle
  rw [(linesUpTo_eq env hs _).1, (linesUpTo_eq env hs n).1, Nat.add_comm,
    Function.iterate_add_apply, iterate_of_out hout]

/-- The text of a run is that of the lines of the records it has parsed. -/
theorem prints_iff {m : Mem} {w : W} {recs : List LogRecord} {n : ℕ}
    (hout : ((replayStep env)^[n] (replayStart env m w)).pc = .out)
    (hparsed : ((replayStep env)^[n] (replayStart env m w)).parsed.map Parsed.record = recs)
    (hwithin : ∀ r ∈ recs, r.ResolvesWithin env.cwd) (file text : List Char) :
    Prints env file m w text ↔
      text = opening file ++ (linesOf env recs ⟨w, 0, none⟩).flatMap Line.text := by
  have hlines : linesUpTo env (replayStart env m w) n = linesOf env recs ⟨w, 0, none⟩ := by
    rw [(linesUpTo_eq env rfl n).1, hparsed]
    rfl
  constructor
  · rintro ⟨k, hout', -, rfl⟩
    rcases Nat.le_total n k with hle | hle
    · rw [linesUpTo_of_out env rfl hout hle, hlines]
    · rw [← linesUpTo_of_out env rfl hout' hle, hlines]
  · rintro rfl
    refine ⟨n, hout, fun p hp => hwithin p.record ?_, by rw [hlines]⟩
    rw [← hparsed]
    exact List.mem_map_of_mem hp

/-! ### Listings -/

/-- The lines for a record with the option `-n`. -/
def Header.listed (h : Header) : List Line :=
  match RecType.ofCode? h.type with
  | some .fcreat => [.listed h .openFile]
  | some .fwrite => [.listed h .openFile, .listed h .write]
  | some .dcreat => [.listed h .mkdir]
  | some .rename => [.listed h .rename]
  | some .link => [.listed h .link]
  | some .symlink => [.listed h .symlink]
  | some .unlink => [.listed h .remove]
  | some .fread | some .dread | none => [.invalid]

/-- The text for the records of a log with the option `-n`. -/
def listing (file : List Char) (hs : List Header) : List Char :=
  opening file ++ (hs.flatMap Header.listed).flatMap Line.text

/-- Where the lengths are not negative, the `switch` is reached. -/
theorem replayLines_of_nonneg (env : ReplayEnv W) {r : LogRecord} (l : Locals W)
    (hpath : ¬r.hdr.pathLen.toInt < 0)
    (haux : ¬(r.hdr.type ≠ RecType.fwrite.code ∧ r.hdr.auxLen.toInt < 0)) :
    replayLines env r l = switchLines env r.hdr (env.cwd ++ cstr r.path) r.aux
      { l with auxpath := r.resolvedAux env.cwd l.auxpath } := by
  rw [replayLines, if_neg hpath, LogRecord.resolvedAux]
  dsimp only
  by_cases hsecond : r.hdr.auxLen ≠ 0 ∧ r.hdr.type ≠ RecType.fwrite.code
  · have hnonneg : ¬r.hdr.auxLen.toInt < 0 := fun hneg => haux ⟨hsecond.2, hneg⟩
    rw [if_pos hsecond, if_neg hnonneg]
    by_cases hsym : r.hdr.type ≠ RecType.symlink.code
    · rw [if_pos hsym, if_pos ⟨hsecond, hsym⟩]
    · rw [if_neg hsym, if_neg fun h => hsym h.2]
  · rw [if_neg hsecond, if_neg fun h => hsecond h.1]

/-- The option `-n` makes a record appear, without any call. -/
theorem replayLines_noreplay {env : ReplayEnv W} (hflags : env.flags.noreplay = true)
    {r : LogRecord} (h : r.WellFormed) (l : Locals W) : replayLines env r l = r.hdr.listed := by
  obtain ⟨hpath, haux⟩ := h.lengths_nonneg
  rw [replayLines_of_nonneg env l hpath haux]
  unfold switchLines Header.listed
  rw [hflags]
  rfl

/-- The lines that the option `-n` makes appear for the records of a log depend on their headers
only. -/
theorem linesOf_noreplay {env : ReplayEnv W} (hflags : env.flags.noreplay = true)
    {recs : List LogRecord} (hwf : ∀ r ∈ recs, r.WellFormed) (l : Locals W) :
    linesOf env recs l = (recs.map LogRecord.hdr).flatMap Header.listed := by
  induction recs generalizing l with
  | nil => rfl
  | cons r rs ih =>
    obtain ⟨hr, hrs⟩ := List.forall_mem_cons.mp hwf
    rw [linesOf, replayLines_noreplay hflags hr, ih hrs, List.map_cons, List.flatMap_cons]

/-- **The listing of a log.**  On a log whose chunks tear no record and whose paths fit the path
buffers, `treplay -n` prints the listing of its headers. -/
theorem prints_listing (sys : Syscalls W) {cwd : List UInt8} {recs : List LogRecord}
    (hwf : ∀ r ∈ recs, r.WellFormed) (hmax : ((frames recs).length : ℤ) ≤ intMax)
    (hal : ChunkAligned recs) (hwithin : ∀ r ∈ recs, r.ResolvesWithin cwd) (file : List Char)
    (m : Mem) (w : W) (text : List Char) :
    Prints ⟨sys, ⟨true, false⟩, cwd, frames recs⟩ file m w text ↔
      text = listing file (recs.map LogRecord.hdr) := by
  let env : ReplayEnv W := ⟨sys, ⟨true, false⟩, cwd, frames recs⟩
  have hlog : env.log = frames recs := rfl
  obtain ⟨n, hout, hparsed, -, -⟩ := aligned_replays hlog rfl hwf hmax hal m w
  rw [prints_iff env hout hparsed hwithin, linesOf_noreplay rfl hwf, listing]

/-- The first line for a record has its header. -/
theorem LogRecord.WellFormed.exists_listed {r : LogRecord} (h : r.WellFormed) :
    ∃ c lines, r.hdr.listed = .listed r.hdr c :: lines := by
  have hok := h.type_ok
  unfold LogRecord.typeOk at hok
  unfold Header.listed
  split at hok
  all_goals first | exact hok.elim | skip
  all_goals rename_i htype; rw [htype]; exact ⟨_, _, rfl⟩

/-- The headers of well-formed records are read back from the lines. -/
theorem listed_inj {recs recs' : List LogRecord} (hwf : ∀ r ∈ recs, r.WellFormed)
    (hwf' : ∀ r ∈ recs', r.WellFormed)
    (heq : (recs.map LogRecord.hdr).flatMap Header.listed =
      (recs'.map LogRecord.hdr).flatMap Header.listed) :
    recs.map LogRecord.hdr = recs'.map LogRecord.hdr := by
  refine flatMap_inj (fun h => ?_) (fun h hh h' hh' s s' hs => ?_) heq
  · unfold Header.listed
    split <;> simp
  · obtain ⟨r, hr, rfl⟩ := List.mem_map.mp hh
    obtain ⟨r', hr', rfl⟩ := List.mem_map.mp hh'
    have hhdr : r.hdr = r'.hdr := by
      obtain ⟨c, lines, hlines⟩ := (hwf r hr).exists_listed
      obtain ⟨c', lines', hlines'⟩ := (hwf' r' hr').exists_listed
      rw [hlines, hlines', List.cons_append, List.cons_append, List.cons.injEq,
        Line.listed.injEq] at hs
      exact hs.1.1
    exact ⟨hhdr, List.append_cancel_left (hhdr ▸ hs)⟩

/-- The name of a log is read back from the first two lines. -/
theorem opening_append_inj {file file' s s' : List Char} (hfile : '\n' ∉ file)
    (hfile' : '\n' ∉ file') (heq : opening file ++ s = opening file' ++ s') :
    file = file' ∧ s = s' := by
  simp only [opening, List.append_assoc, lit_newline, List.singleton_append] at heq
  have hname := List.append_cancel_left (List.append_cancel_left heq)
  exact append_cons_inj hfile hfile' hname

/-- **A listing tells the records.**  Two logs whose chunks tear no record and whose paths fit the
path buffers have the same listing if and only if they have the same name, as far as names of one
line go, and their records have the same headers, whatever file systems the tool is started on. -/
theorem sameListing_iff {V : Type*} (sys : Syscalls W) (sys' : Syscalls V) {cwd cwd' : List UInt8}
    {recs recs' : List LogRecord} (hwf : ∀ r ∈ recs, r.WellFormed)
    (hwf' : ∀ r ∈ recs', r.WellFormed) (hmax : ((frames recs).length : ℤ) ≤ intMax)
    (hmax' : ((frames recs').length : ℤ) ≤ intMax) (hal : ChunkAligned recs)
    (hal' : ChunkAligned recs') (hwithin : ∀ r ∈ recs, r.ResolvesWithin cwd)
    (hwithin' : ∀ r ∈ recs', r.ResolvesWithin cwd') {file file' : List Char} (hfile : '\n' ∉ file)
    (hfile' : '\n' ∉ file') (m m' : Mem) (w : W) (v : V) :
    (∃ text, Prints ⟨sys, ⟨true, false⟩, cwd, frames recs⟩ file m w text ∧
        Prints ⟨sys', ⟨true, false⟩, cwd', frames recs'⟩ file' m' v text) ↔
      file = file' ∧ recs.map LogRecord.hdr = recs'.map LogRecord.hdr := by
  simp only [prints_listing sys hwf hmax hal hwithin, prints_listing sys' hwf' hmax' hal' hwithin',
    exists_eq_left]
  constructor
  · intro heq
    obtain ⟨rfl, hlines⟩ := opening_append_inj hfile hfile' heq
    exact ⟨rfl, listed_inj hwf hwf' (Line.flatMap_text_inj hlines)⟩
  · rintro ⟨rfl, heq⟩
    rw [heq]

/-- A result is not the same as another in the listing, even if the logs have the same name. -/
theorem not_sameListing_result :
    ¬∃ text, Prints ⟨.refusing, ⟨true, false⟩, [47, 116], frames [enospcRecord]⟩ (lit "log")
        (fun _ => 0) () text ∧
      Prints ⟨.refusing, ⟨true, false⟩, [47], frames [enospcRecord.withResult 0]⟩ (lit "log")
        (fun _ => 1) () text := by
  have hwf := wellFormed_enospcRecord
  have hwithin : enospcRecord.ResolvesWithin [47, 116] :=
    LogRecord.resolvesWithin_of_le (by decide) (by decide) (by decide)
  have hwithin' : (enospcRecord.withResult 0).ResolvesWithin [47] :=
    LogRecord.resolvesWithin_of_le (by decide) (by decide) (by decide)
  rw [sameListing_iff _ _ (List.forall_mem_singleton.mpr hwf)
    (List.forall_mem_singleton.mpr (hwf.withResult 0)) (by decide) (by decide)
    (chunkAligned_of_le (by decide)) (chunkAligned_of_le (by decide))
    (List.forall_mem_singleton.mpr hwithin) (List.forall_mem_singleton.mpr hwithin') (by decide)
    (by decide)]
  decide

/-! ### Verdicts -/

/-- The name that the tool prints for a call. -/
def SysCall.name : SysCall → CallName
  | openCreat _ _ | openFlags _ _ => .openFile
  | write _ _ _ => .write
  | mkdir _ _ => .mkdir
  | rename _ _ => .rename
  | link _ _ => .link
  | symlink _ _ => .symlink
  | remove _ => .remove

/-- The line for a call. -/
def Made.line (h : Header) (c : Made) : Line :=
  .status h c.call.name c.result

/-- One call is made in both modes. -/
theorem ranCalls_singleton (strict : Bool) (c : Made) : ranCalls strict [c] = [c] := by
  cases strict <;> simp [ranCalls]

/-- Of two calls, strict mode makes the second one when the first one has worked. -/
theorem map_line_pair (h : Header) (strict : Bool) (c c' : Made)
    (hc : c.logged = h.result.toInt) :
    (ranCalls strict [c, c']).map (Made.line h) = c.line h ::
      if replayedStatus h c.result strict ≠ 0 then [] else [c'.line h] := by
  have hpair : [c, c'] = [c] ++ [c'] := rfl
  have hiff : Stops strict [c] ↔ replayedStatus h c.result strict ≠ 0 := by
    rw [replayedStatus_ne_zero_iff, ← hc, Stops]
    simp [Made.Fails]
  by_cases hstops : Stops strict [c]
  · rw [hpair, ranCalls_append_of_stops hstops, ranCalls_singleton, if_pos (hiff.mp hstops)]
    rfl
  · rw [hpair, ranCalls_append_of_not_stops hstops, ranCalls_singleton,
      if_neg fun hne => hstops (hiff.mpr hne)]
    rfl

/-- **The lines for a record.**  In a replay the tool prints a verdict for every call that it makes
for a record, in both modes. -/
theorem replayLines_replay (sys : Syscalls W) (strict : Bool) (cwd log : List UInt8) {r : LogRecord}
    (h : r.WellFormed) (l : Locals W) :
    replayLines ⟨sys, ⟨false, strict⟩, cwd, log⟩ r l =
      (ranCalls strict (r.made sys cwd l.world)).map (Made.line r.hdr) := by
  obtain ⟨hpath, haux⟩ := h.lengths_nonneg
  rw [replayLines_of_nonneg _ l hpath haux]
  have hok := h.type_ok
  unfold LogRecord.typeOk at hok
  unfold switchLines LogRecord.made LogRecord.firstCall LogRecord.madeBy
  cases htype : RecType.ofCode? r.hdr.type with
  | none => simp [htype] at hok
  | some t =>
    rw [htype] at hok
    cases t with
    | fread => exact hok.elim
    | dread => exact hok.elim
    | fcreat => simp [ranCalls_singleton, Made.line, SysCall.name, SysCall.perform]
    | fwrite =>
      simp only [if_true, Bool.false_eq_true, if_false]
      rw [map_line_pair r.hdr strict]
      · rfl
      · rfl
    | dcreat => simp [ranCalls_singleton, Made.line, SysCall.name, SysCall.perform]
    | rename =>
      simp [h.resolvedAux_eq (.inl htype), ranCalls_singleton, Made.line, SysCall.name,
        SysCall.perform]
    | link =>
      simp [h.resolvedAux_eq (.inr htype), ranCalls_singleton, Made.line, SysCall.name,
        SysCall.perform]
    | symlink =>
      have hne : ¬r.hdr.auxLen = 0 := h.auxLen_ne_zero hok
      simp only [hne, if_false]
      simp [ranCalls_singleton, Made.line, SysCall.name, SysCall.perform]
    | unlink => simp [ranCalls_singleton, Made.line, SysCall.name, SysCall.perform]

/-- What a line says of a call: its name, its result and the result in the record. -/
def Line.report : Line → Option (CallName × ℤ × ℤ)
  | status h syscall err => some (syscall, err, h.result.toInt)
  | _ => none

/-- What there is to say of a call. -/
def Made.report (c : Made) : CallName × ℤ × ℤ :=
  (c.call.name, c.result, c.logged)

/-- The verdict of a line is that the call has failed. -/
def Line.Failed : Line → Prop
  | status h _ err => ¬(0 ≤ err ∧ 0 ≤ h.result.toInt)
  | _ => False

/-- A line has a failed verdict exactly if its report has a negative result, of the call or of the
record. -/
theorem Line.failed_iff (line : Line) :
    line.Failed ↔ ∃ x ∈ line.report, x.2.1 < 0 ∨ x.2.2 < 0 := by
  cases line with
  | status h syscall err =>
    rw [Failed, not_and_or, not_le, not_le]
    simp [report]
  | listed h syscall => simp [Failed, report]
  | invalid => simp [Failed, report]

/-- The lines for the records of a log report its calls. -/
theorem map_report_linesOf (sys : Syscalls W) (cwd log : List UInt8) {recs : List LogRecord}
    (hwf : ∀ r ∈ recs, r.WellFormed) (l : Locals W) :
    (linesOf ⟨sys, ⟨false, false⟩, cwd, log⟩ recs l).map Line.report =
      (madeLog sys cwd recs l.world).map fun c => some c.report := by
  induction recs generalizing l with
  | nil => rfl
  | cons r rs ih =>
    obtain ⟨hr, hrs⟩ := List.forall_mem_cons.mp hwf
    rw [linesOf, madeLog, List.map_append, List.map_append, ih hrs, replayLines_replay _ _ _ _ hr,
      world_replayRecord_wellFormed rfl hr, List.map_map]
    congr 1
    refine List.map_congr_left fun c hc => ?_
    have hlogged := LogRecord.logged_of_mem_made hc
    simp [Made.line, Line.report, Made.report, hlogged]

/-- **The report of a replay.**  On a log whose chunks tear no record and whose paths fit the path
buffers, `treplay` without options prints, behind the name of the log, one verdict for each call it
makes, in the order of the calls, with the result of the call and the one in the record.  There is a
failed one among them if and only if a call has failed or repeats one that had failed. -/
theorem verdicts_tell (sys : Syscalls W) {cwd : List UInt8} {recs : List LogRecord}
    (hwf : ∀ r ∈ recs, r.WellFormed) (hmax : ((frames recs).length : ℤ) ≤ intMax)
    (hal : ChunkAligned recs) (hwithin : ∀ r ∈ recs, r.ResolvesWithin cwd) (file : List Char)
    (m : Mem) (w : W) :
    ∃ lines : List Line,
      (∀ text, Prints ⟨sys, ⟨false, false⟩, cwd, frames recs⟩ file m w text ↔
        text = opening file ++ lines.flatMap Line.text) ∧
      lines.map Line.report = ((madeLog sys cwd recs w).map fun c => some c.report) ∧
      ((∃ line ∈ lines, line.Failed) ↔ ∃ c ∈ madeLog sys cwd recs w, c.Fails) := by
  let env : ReplayEnv W := ⟨sys, ⟨false, false⟩, cwd, frames recs⟩
  have hlog : env.log = frames recs := rfl
  obtain ⟨n, hout, hparsed, -, -⟩ := aligned_replays hlog rfl hwf hmax hal m w
  have hreport := map_report_linesOf sys cwd (frames recs) hwf ⟨w, 0, none⟩
  refine ⟨linesOf env recs ⟨w, 0, none⟩, prints_iff env hout hparsed hwithin file, hreport, ?_⟩
  calc (∃ line ∈ linesOf env recs ⟨w, 0, none⟩, line.Failed)
      ↔ ∃ o ∈ (linesOf env recs ⟨w, 0, none⟩).map Line.report,
          ∃ x ∈ o, x.2.1 < 0 ∨ x.2.2 < 0 := by
        simp only [Line.failed_iff, List.mem_map, exists_exists_and_eq_and]
    _ ↔ ∃ c ∈ madeLog sys cwd recs w, c.Fails := by
        rw [hreport]
        simp [Made.report, Made.Fails]

/-- The report of a failed `mkdir` on a target that refuses it. -/
theorem verdicts_tell_enospc :
    ∃ lines : List Line,
      (∀ text, Prints ⟨.refusing, ⟨false, false⟩, [47, 116], frames [enospcRecord]⟩ (lit "log")
        (fun _ => 0) () text ↔ text = opening (lit "log") ++ lines.flatMap Line.text) ∧
      lines.map Line.report =
        ((madeLog .refusing [47, 116] [enospcRecord] ()).map fun c => some c.report) ∧
      ((∃ line ∈ lines, line.Failed) ↔
        ∃ c ∈ madeLog .refusing [47, 116] [enospcRecord] (), c.Fails) :=
  verdicts_tell .refusing (List.forall_mem_singleton.mpr wellFormed_enospcRecord)
    (by decide) (chunkAligned_of_le (by decide)) (List.forall_mem_singleton.mpr
      (LogRecord.resolvesWithin_of_le (by decide) (by decide) (by decide))) (lit "log")
    (fun _ => 0) ()

end Trfs
