import TraceFileSystem.Replay.ExitStatus

/-!
# The options of the replay tool

`main` parses its options with `getopt` and keeps each of them twice: as a bit of `option`, which is
set to zero in the beginning, and in one of the variables `noreplay` and `strict`, which are not.
The bits decide whether the options exclude each other, and the variables decide everything else.

* `getopt` and `parseOptions` are the parsing of a command line, with arbitrary values of the two
  variables in the beginning.
* `Tool.state` are the runs of the tool on a command line.
* `DependsOnInputs` says of two such values that the calls are the same and as the options demand.

`dependsOnInputs_iff` determines the command lines and the values for which this is the case.
-/

namespace Trfs

open ByteStore

/-- An argument of the command line. -/
abbrev Arg := List Char

/-- What `getopt` returns for a character: one of the two options, or `'?'`. -/
inductive Opt where
  | n
  | s
  | unknown
  deriving DecidableEq

/-- The options are those of `"ns"`. -/
def Opt.ofChar : Char → Opt
  | 'n' => n
  | 's' => s
  | _ => unknown

/-- What `getopt(argc, argv, "ns")` returns, call by call, and the arguments from `optind` on when
it has returned `-1`.  An argument that is no option is moved behind the options, unless the
environment asks for the order of POSIX, in which it ends the options. -/
def getopt (posixlyCorrect : Bool) : List Arg → List Opt × List Arg
  | [] => ([], [])
  | ['-', '-'] :: args => ([], args)
  | ('-' :: c :: cs) :: args =>
    let rest := getopt posixlyCorrect args
    ((c :: cs).map Opt.ofChar ++ rest.1, rest.2)
  | arg :: args =>
    if posixlyCorrect then ([], arg :: args)
    else
      let rest := getopt posixlyCorrect args
      (rest.1, arg :: rest.2)

/-- The variables of `main` that the options set. -/
structure Options where
  option : BitVec 32
  noreplay : Bool
  strict : Bool

/-- `NOREPLAY`. -/
def noreplayBit : BitVec 32 := 1 <<< 0

/-- `STRICT`. -/
def strictBit : BitVec 32 := 1 <<< 1

/-- The loop over the options.  An unknown one leads to `usage`. -/
def optionLoop : List Opt → Options → Option Options
  | [], o => some o
  | .n :: opts, o => optionLoop opts { o with option := o.option ||| noreplayBit, noreplay := true }
  | .s :: opts, o => optionLoop opts { o with option := o.option ||| strictBit, strict := true }
  | .unknown :: _, _ => none

/-- The flags with which the replay starts, unless `usage` was called.  The values of the variables
in the beginning are `start`. -/
def parseOptions (start : ReplayFlags) (opts : List Opt) : Option ReplayFlags :=
  match optionLoop opts ⟨0, start.noreplay, start.strict⟩ with
  | none => none
  | some o =>
    if o.option &&& noreplayBit ≠ 0 ∧ o.option &&& strictBit ≠ 0 then none
    else some ⟨o.noreplay, o.strict⟩

/-- The options call `usage`: one is unknown, or both are given. -/
def Usage (opts : List Opt) : Prop :=
  .unknown ∈ opts ∨ .n ∈ opts ∧ .s ∈ opts

instance : DecidablePred Usage := fun _ => inferInstanceAs (Decidable (_ ∨ _))

/-- Setting the bits of `b` in `option`, and testing those of `c`. -/
theorem or_and_ne_zero_iff (a b c : BitVec 32) :
    (a ||| b) &&& c ≠ 0 ↔ a &&& c ≠ 0 ∨ b &&& c ≠ 0 := by
  rw [BitVec.and_or_distrib_right, ne_eq, BitVec.ofNat_eq_ofNat, BitVec.or_eq_zero_iff,
    not_and_or]

/-- The loop over known options: both copies of an option are set exactly if it is given, or if they
were set before. -/
theorem optionLoop_of_known {opts : List Opt} (h : .unknown ∉ opts) (o : Options) :
    ∃ o', optionLoop opts o = some o' ∧
      o'.noreplay = (o.noreplay || decide (.n ∈ opts)) ∧
      o'.strict = (o.strict || decide (.s ∈ opts)) ∧
      (o'.option &&& noreplayBit ≠ 0 ↔ o.option &&& noreplayBit ≠ 0 ∨ .n ∈ opts) ∧
      (o'.option &&& strictBit ≠ 0 ↔ o.option &&& strictBit ≠ 0 ∨ .s ∈ opts) := by
  have hnn : noreplayBit &&& noreplayBit ≠ 0 := by decide
  have hns : ¬noreplayBit &&& strictBit ≠ 0 := by decide
  have hsn : ¬strictBit &&& noreplayBit ≠ 0 := by decide
  have hss : strictBit &&& strictBit ≠ 0 := by decide
  induction opts generalizing o with
  | nil => exact ⟨o, rfl, by simp, by simp, by simp, by simp⟩
  | cons opt opts ih =>
    rw [List.mem_cons, not_or] at h
    cases opt with
    | n =>
      obtain ⟨o', hloop, hn, hs, hnbit, hsbit⟩ :=
        ih h.2 { o with option := o.option ||| noreplayBit, noreplay := true }
      refine ⟨o', hloop, by simp [hn], by simp [hs], ?_, ?_⟩
      · rw [hnbit, or_and_ne_zero_iff]
        exact iff_of_true (.inl (.inr hnn)) (.inr List.mem_cons_self)
      · have hmem : .s ∈ Opt.n :: opts ↔ .s ∈ opts := by simp
        rw [hsbit, or_and_ne_zero_iff, or_iff_left hns, hmem]
    | s =>
      obtain ⟨o', hloop, hn, hs, hnbit, hsbit⟩ :=
        ih h.2 { o with option := o.option ||| strictBit, strict := true }
      refine ⟨o', hloop, by simp [hn], by simp [hs], ?_, ?_⟩
      · have hmem : .n ∈ Opt.s :: opts ↔ .n ∈ opts := by simp
        rw [hnbit, or_and_ne_zero_iff, or_iff_left hsn, hmem]
      · rw [hsbit, or_and_ne_zero_iff]
        exact iff_of_true (.inl (.inr hss)) (.inr List.mem_cons_self)
    | unknown => exact absurd rfl h.1

/-- An unknown option leads to `usage`. -/
theorem optionLoop_of_unknown {opts : List Opt} (h : .unknown ∈ opts) (o : Options) :
    optionLoop opts o = none := by
  induction opts generalizing o with
  | nil => simp at h
  | cons opt opts ih =>
    cases opt with
    | n => exact ih (by simpa using h) _
    | s => exact ih (by simpa using h) _
    | unknown => rfl

/-- **The flags.**  The replay starts unless the options call `usage`, and then a flag is set
exactly if its option is given, or if it was set in the beginning. -/
theorem parseOptions_eq (start : ReplayFlags) (opts : List Opt) :
    parseOptions start opts = if Usage opts then none
      else some ⟨start.noreplay || decide (.n ∈ opts), start.strict || decide (.s ∈ opts)⟩ := by
  unfold parseOptions
  by_cases hunknown : .unknown ∈ opts
  · rw [optionLoop_of_unknown hunknown, if_pos (.inl hunknown)]
  · obtain ⟨o, hloop, hn, hs, hnbit, hsbit⟩ :=
      optionLoop_of_known hunknown ⟨0, start.noreplay, start.strict⟩
    have hzero (b : BitVec 32) : ¬(0 : BitVec 32) &&& b ≠ 0 := by simp
    have hboth : (o.option &&& noreplayBit ≠ 0 ∧ o.option &&& strictBit ≠ 0) ↔ Usage opts := by
      rw [hnbit, hsbit, or_iff_right (hzero _), or_iff_right (hzero _)]
      exact (or_iff_right hunknown).symm
    rw [hloop]
    simp only [hboth, hn, hs]

/-! ### Runs on a command line -/

/-- A command line behind the name of the program, and whether the environment asks for the order
of POSIX. -/
structure CommandLine where
  posixlyCorrect : Bool
  args : List Arg

/-- The options of a command line. -/
def CommandLine.opts (cl : CommandLine) : List Opt :=
  (getopt cl.posixlyCorrect cl.args).1

/-- The other arguments, of which the first one is the log file. -/
def CommandLine.operands (cl : CommandLine) : List Arg :=
  (getopt cl.posixlyCorrect cl.args).2

/-- Where the tool runs: its system calls, the current directory, and the log files for which `stat`
and `open` succeed. -/
structure Tool (W : Type) where
  sys : Syscalls W
  cwd : List UInt8
  files : Arg → Option (List UInt8)

namespace Tool

variable {W : Type} (t : Tool W) (cl : CommandLine) (start : ReplayFlags) (m : Mem) (w : W)

/-- What the loops of the tool are given, if they are reached. -/
def env : Option (ReplayEnv (Traced W)) :=
  match parseOptions start cl.opts with
  | none => none
  | some flags =>
    (cl.operands.head?.bind t.files).map fun log => ⟨t.sys.traced, flags, t.cwd, log⟩

/-- The state after a number of steps, if the loops are reached. -/
def state (k : ℕ) : Option (ReplayState (Traced W)) :=
  (t.env cl start).map fun env => (replayStep env)^[k] (replayStart env m (w, []))

/-- The calls that have been made after a number of steps. -/
def calls (k : ℕ) : List (SysCall × ℤ) :=
  match t.state cl start m w k with
  | none => []
  | some s => s.locals.world.2

end Tool

/-- The inner loop is about to process a record. -/
def ReplayState.AtRecord {W : Type} (s : ReplayState W) : Prop :=
  s.pc = .inner ∧ s.buf < s.limit

/-- A step has executed the record that stands at the current position of the buffer: its calls have
been made, in strict mode up to the first one that fails, and only such a call in strict mode leaves
the loop.  Nothing is said of a record that asks for no call. -/
structure Executed {W : Type} (sys : Syscalls W) (cwd : List UInt8) (strict : Bool)
    (s s' : ReplayState (Traced W)) : Prop where
  calls : ∀ c ∈ (recordAt s.mem s.buf).asksFor cwd s.locals.auxpath,
    s'.locals.world.2 = s.locals.world.2 ++
      (ranCalls strict ((recordAt s.mem s.buf).madeBy sys c s.locals.world.1)).map Made.entry
  stops : ∀ c ∈ (recordAt s.mem s.buf).asksFor cwd s.locals.auxpath,
    (s'.pc = .out ↔ Stops strict ((recordAt s.mem s.buf).madeBy sys c s.locals.world.1))

/-- The tool does what the options demand, whatever the log and the target are: with `-n` no call is
made, and without it every record is executed, in strict mode exactly if `-s` is given. -/
structure MeetsOptions (cl : CommandLine) (start : ReplayFlags) : Prop where
  noreplay : .n ∈ cl.opts → ∀ (W : Type) (t : Tool W) (m : Mem) (w : W) (k : ℕ),
    t.calls cl start m w k = []
  executes : .n ∉ cl.opts → ∀ (W : Type) (t : Tool W) (m : Mem) (w : W) (k : ℕ)
    (s : ReplayState (Traced W)), t.state cl start m w k = some s → s.AtRecord →
      ∃ s', t.state cl start m w (k + 1) = some s' ∧
        Executed t.sys t.cwd (decide (.s ∈ cl.opts)) s s'

/-- For two values of the variables in the beginning, the calls on every log and every target are
the same after any number of steps, and they are those that the options demand. -/
structure DependsOnInputs (cl : CommandLine) (start start' : ReplayFlags) : Prop where
  same : ∀ (W : Type) (t : Tool W) (m : Mem) (w : W) (k : ℕ),
    t.calls cl start m w k = t.calls cl start' m w k
  meets : MeetsOptions cl start
  meets' : MeetsOptions cl start'

/-! ### Values that do no harm -/

section

variable {W : Type} {t : Tool W} {cl : CommandLine} {start start' : ReplayFlags}

/-- With `noreplay` the `switch` makes no call. -/
theorem fst_replaySwitch_noreplay {W : Type*} (env : ReplayEnv W)
    (hflags : env.flags.noreplay = true) (h : Header) (pathname aux : List UInt8) (l : Locals W) :
    (replaySwitch env h pathname aux l).1 = l := by
  unfold replaySwitch
  split <;> simp [hflags]

/-- With `noreplay` no call is made for a record. -/
theorem world_replayRecord_noreplay {W : Type*} (env : ReplayEnv W)
    (hflags : env.flags.noreplay = true) (r : LogRecord) (l : Locals W) :
    (replayRecord env r l).1.world = l.world := by
  unfold replayRecord
  split
  · rfl
  · dsimp only
    split
    · split
      · rfl
      · split <;> rw [fst_replaySwitch_noreplay env hflags]
    · rw [fst_replaySwitch_noreplay env hflags]

/-- With `noreplay` no step makes a call. -/
theorem world_replayStep_noreplay {W : Type*} (env : ReplayEnv W)
    (hflags : env.flags.noreplay = true) (s : ReplayState W) :
    (replayStep env s).locals.world = s.locals.world := by
  unfold replayStep
  split
  · split <;> rfl
  · split
    · exact world_replayRecord_noreplay env hflags _ _
    · split <;> rfl
  · rfl
  · rfl

/-- With `noreplay` no run makes a call. -/
theorem world_iterate_noreplay {W : Type*} (env : ReplayEnv W)
    (hflags : env.flags.noreplay = true) (s : ReplayState W) (k : ℕ) :
    ((replayStep env)^[k] s).locals.world = s.locals.world := by
  induction k with
  | zero => rfl
  | succ k ih => rw [Function.iterate_succ_apply', world_replayStep_noreplay env hflags, ih]

/-- Without `noreplay` every step at a record executes it. -/
theorem executed_replayStep (sys : Syscalls W) (cwd log : List UInt8) (strict : Bool)
    {s : ReplayState (Traced W)} (hs : s.AtRecord) :
    Executed sys cwd strict s (replayStep ⟨sys.traced, ⟨false, strict⟩, cwd, log⟩ s) := by
  have hstep : replayStep ⟨sys.traced, ⟨false, strict⟩, cwd, log⟩ s =
      innerTurn ⟨sys.traced, ⟨false, strict⟩, cwd, log⟩ s := by
    simp [replayStep, hs.1, hs.2]
  rw [hstep]
  constructor
  · intro c hc
    exact (ran_of_asksFor sys cwd log strict hc).calls
  · intro c hc
    have hran := ran_of_asksFor sys cwd log strict hc
    constructor
    · intro hout
      by_contra hgo
      have hnext := (hran.goes hgo).1
      simp only [innerTurn, hnext, Flow.pc] at hout
      cases hout
    · intro hstop
      simp only [innerTurn, hran.stops hstop, Flow.pc]

/-- The flags with which the tool runs. -/
def CommandLine.flags (cl : CommandLine) (start : ReplayFlags) : ReplayFlags :=
  ⟨start.noreplay || decide (.n ∈ cl.opts), start.strict || decide (.s ∈ cl.opts)⟩

/-- Whether the loops are reached does not depend on the values in the beginning. -/
theorem Tool.env_eq (t : Tool W) (cl : CommandLine) (start : ReplayFlags) :
    t.env cl start = if Usage cl.opts then none
      else (cl.operands.head?.bind t.files).map fun log =>
        ⟨t.sys.traced, cl.flags start, t.cwd, log⟩ := by
  rw [Tool.env, parseOptions_eq]
  by_cases husage : Usage cl.opts
  · rw [if_pos husage, if_pos husage]
  · rw [if_neg husage, if_neg husage]
    rfl

/-- What the loops are given. -/
theorem Tool.exists_of_env {env : ReplayEnv (Traced W)} (h : t.env cl start = some env) :
    ¬Usage cl.opts ∧ cl.operands ≠ [] ∧
      ∃ log, env = ⟨t.sys.traced, cl.flags start, t.cwd, log⟩ := by
  rw [Tool.env_eq] at h
  by_cases husage : Usage cl.opts
  · rw [if_pos husage] at h
    cases h
  · rw [if_neg husage] at h
    obtain ⟨log, hlog, rfl⟩ := Option.map_eq_some_iff.mp h
    refine ⟨husage, ?_, log, rfl⟩
    intro hnil
    simp [hnil] at hlog

/-- The command line determines what the tool does, or the variables have the right values in the
beginning. -/
def Determined (cl : CommandLine) (start : ReplayFlags) : Prop :=
  Usage cl.opts ∨ cl.operands = [] ∨ .n ∈ cl.opts ∨
    start.noreplay = false ∧ (.s ∈ cl.opts ∨ start.strict = false)

instance (cl : CommandLine) (start : ReplayFlags) : Decidable (Determined cl start) :=
  inferInstanceAs (Decidable (_ ∨ _))

/-- Where the loops are reached without `-n`, the flags are then as the options demand. -/
theorem Determined.flags_eq (h : Determined cl start) (husage : ¬Usage cl.opts)
    (hoperands : cl.operands ≠ []) (hn : .n ∉ cl.opts) :
    cl.flags start = ⟨false, decide (.s ∈ cl.opts)⟩ := by
  obtain ⟨hnoreplay, hs | hstrict⟩ :=
    ((h.resolve_left husage).resolve_left hoperands).resolve_left hn
  · simp [CommandLine.flags, hn, hnoreplay, hs]
  · simp [CommandLine.flags, hn, hnoreplay, hstrict]

/-- With `-n` no call is made. -/
theorem Tool.calls_of_noreplay (t : Tool W) (start : ReplayFlags) (hn : .n ∈ cl.opts) (m : Mem)
    (w : W) (k : ℕ) : t.calls cl start m w k = [] := by
  rw [Tool.calls, Tool.state]
  cases henv : t.env cl start with
  | none => rfl
  | some env =>
    obtain ⟨-, -, log, rfl⟩ := Tool.exists_of_env henv
    have hflags : (cl.flags start).noreplay = true := by simp [CommandLine.flags, hn]
    rw [Option.map_some]
    exact congrArg Prod.snd
      (world_iterate_noreplay ⟨t.sys.traced, cl.flags start, t.cwd, log⟩ hflags _ k)

/-- The calls are then those for variables that are false in the beginning. -/
theorem Determined.calls_eq (h : Determined cl start) (t : Tool W) (m : Mem) (w : W) (k : ℕ) :
    t.calls cl start m w k = t.calls cl ⟨false, false⟩ m w k := by
  by_cases hn : .n ∈ cl.opts
  · rw [Tool.calls_of_noreplay t start hn, Tool.calls_of_noreplay t _ hn]
  have henv : t.env cl start = t.env cl ⟨false, false⟩ := by
    rw [Tool.env_eq, Tool.env_eq]
    by_cases husage : Usage cl.opts
    · rw [if_pos husage, if_pos husage]
    by_cases hoperands : cl.operands = []
    · rw [hoperands]
      rfl
    have hfalse : Determined cl ⟨false, false⟩ := .inr (.inr (.inr ⟨rfl, .inr rfl⟩))
    rw [h.flags_eq husage hoperands hn, hfalse.flags_eq husage hoperands hn]
  rw [Tool.calls, Tool.calls, Tool.state, Tool.state, henv]

/-- The tool then does what the options demand. -/
theorem Determined.meetsOptions (h : Determined cl start) : MeetsOptions cl start where
  noreplay hn _ t m w k := t.calls_of_noreplay start hn m w k
  executes hn _ t m w k s hstate hs := by
    obtain ⟨env, henv, rfl⟩ := Option.map_eq_some_iff.mp hstate
    obtain ⟨husage, hoperands, log, rfl⟩ := Tool.exists_of_env henv
    rw [h.flags_eq husage hoperands hn] at henv hs ⊢
    refine ⟨_, ?_, executed_replayStep t.sys t.cwd log _ hs⟩
    rw [Tool.state, henv, Option.map_some, Function.iterate_succ_apply']

end

/-! ### Values that change the calls -/

/-- The tool with the log of one record, on a target where every call succeeds. -/
def Tool.oneRecord (r : LogRecord) : Tool Unit :=
  ⟨.succeeding, [47, 116], fun _ => some (frames [r])⟩

section

variable {cl : CommandLine} {start start' : ReplayFlags}

/-- The state of the tool in front of the record. -/
def Tool.atOneRecord (flags : ReplayFlags) (r : LogRecord) : ReplayState (Traced Unit) :=
  wholeStart ⟨Syscalls.succeeding.traced, flags, [47, 116], frames [r]⟩ (fun _ => 0) ((), [])

/-- The record stands in the buffer. -/
theorem Tool.recordAt_atOneRecord (flags : ReplayFlags) {r : LogRecord} (hr : r.WellFormed) :
    recordAt (Tool.atOneRecord flags r).mem (Tool.atOneRecord flags r).buf = r := by
  have hframes : frames [r] = r.frame := by simp [frames]
  apply recordAt_of_frame hr
  simp only [Tool.atOneRecord, wholeStart, hframes]
  exact readBytes_load _ 0 r.frame

/-- The inner loop is about to process it. -/
theorem Tool.atRecord_atOneRecord (flags : ReplayFlags) {r : LogRecord} (hr : r.WellFormed) :
    (Tool.atOneRecord flags r).AtRecord := by
  have hlt := hr.headerSize_lt
  refine ⟨rfl, ?_⟩
  simp only [Tool.atOneRecord, wholeStart, frames_cons, List.length_append]
  omega

/-- What it means that the record is executed. -/
theorem Executed.of_oneRecord {flags : ReplayFlags} {strict : Bool} {r : LogRecord}
    {s : ReplayState (Traced Unit)} (hr : r.WellFormed)
    (h : Executed .succeeding [47, 116] strict (Tool.atOneRecord flags r) s) :
    ∃ c, r.firstCall [47, 116] = some c ∧
      s.locals.world.2 = (ranCalls strict (r.madeBy .succeeding c ())).map Made.entry ∧
      (s.pc = .out ↔ Stops strict (r.madeBy .succeeding c ())) := by
  obtain ⟨c, hc⟩ := hr.exists_firstCall [47, 116]
  have hasks : r.asksFor [47, 116] (Tool.atOneRecord flags r).locals.auxpath = some c :=
    (hr.asksFor_eq _ _).trans hc
  have hcalls := h.calls
  have hstops := h.stops
  rw [Tool.recordAt_atOneRecord flags hr] at hcalls hstops
  exact ⟨c, hc, hcalls c hasks, hstops c hasks⟩

/-- When the options are met, the record is executed, whatever the flags are. -/
theorem MeetsOptions.executed_oneRecord (h : MeetsOptions cl start) (husage : ¬Usage cl.opts)
    (hoperands : cl.operands ≠ []) (hn : .n ∉ cl.opts) {r : LogRecord} (hr : r.WellFormed)
    (hsize : (frames [r]).length ≤ chunkSize) :
    Executed .succeeding [47, 116] (decide (.s ∈ cl.opts)) (Tool.atOneRecord (cl.flags start) r)
      (replayStep ⟨Syscalls.succeeding.traced, cl.flags start, [47, 116], frames [r]⟩
        (Tool.atOneRecord (cl.flags start) r)) := by
  let env : ReplayEnv (Traced Unit) :=
    ⟨Syscalls.succeeding.traced, cl.flags start, [47, 116], frames [r]⟩
  have hat := Tool.atRecord_atOneRecord (cl.flags start) hr
  have hpos : 0 < env.log.length := Int.natCast_pos.mp hat.2
  have henv : (Tool.oneRecord r).env cl start = some env := by
    obtain ⟨file, files, hfile⟩ := List.exists_cons_of_ne_nil hoperands
    rw [Tool.env_eq, if_neg husage, hfile]
    rfl
  have hfirst : replayStep env (replayStart env (fun _ => 0) ((), [])) =
      Tool.atOneRecord (cl.flags start) r := replayStep_replayStart hpos hsize _ _
  have hstate : (Tool.oneRecord r).state cl start (fun _ => 0) () 1 =
      some (Tool.atOneRecord (cl.flags start) r) := by
    rw [Tool.state, henv, Option.map_some, Function.iterate_one, hfirst]
  obtain ⟨s', hs', hexecuted⟩ := h.executes hn Unit (Tool.oneRecord r) _ () 1 _ hstate hat
  rw [Tool.state, henv, Option.map_some, Function.iterate_succ_apply, Function.iterate_one, hfirst,
    Option.some_inj] at hs'
  rw [← hs'] at hexecuted
  exact hexecuted

/-- In both modes the first call is made. -/
theorem ranCalls_ne_nil (strict : Bool) {made : List Made} (h : made ≠ []) :
    ranCalls strict made ≠ [] := by
  obtain ⟨c, made, rfl⟩ := List.exists_cons_of_ne_nil h
  cases strict with
  | false => exact h
  | true =>
    rw [ranCalls, if_pos rfl, Traces.throughFirst]
    split <;> exact List.cons_ne_nil _ _

/-- When the options are met, the command line determines what the tool does, or the variables have
the right values in the beginning.  The log of a `mkdir` tells the values of `noreplay` apart, and
that of a `mkdir` that had failed those of `strict`. -/
theorem MeetsOptions.determined (h : MeetsOptions cl start) : Determined cl start := by
  by_contra hnot
  simp only [Determined, not_or, not_and] at hnot
  obtain ⟨husage, hoperands, hn, hflags⟩ := hnot
  cases hnoreplay : start.noreplay with
  | true =>
    -- the record is not executed, although `-n` is not given
    have hwf : okMkdir.okRecord.WellFormed := wellFormed_okRecord okMkdir (by simp)
    have hexecuted := h.executed_oneRecord husage hoperands hn hwf (by decide)
    have hset : (cl.flags start).noreplay = true := by simp [CommandLine.flags, hnoreplay]
    obtain ⟨c, -, hcalls, -⟩ := hexecuted.of_oneRecord hwf
    rw [world_replayStep_noreplay _ hset] at hcalls
    have hnil := List.map_eq_nil_iff.mp hcalls.symm
    exact ranCalls_ne_nil _ (List.cons_ne_nil _ _) hnil
  | false =>
    -- the run stops at the record, although `-s` is not given
    obtain ⟨hs, hstrict⟩ := hflags hnoreplay
    have hwf := wellFormed_enospcRecord
    have hexecuted := h.executed_oneRecord husage hoperands hn hwf (by decide)
    have hset : cl.flags start = ⟨false, true⟩ := by
      simp [CommandLine.flags, hnoreplay, hn, hstrict]
    rw [hset] at hexecuted
    obtain ⟨c, hc, -, hstops⟩ := hexecuted.of_oneRecord hwf
    obtain ⟨c', hc', -, hstops'⟩ := (executed_replayStep .succeeding [47, 116]
      (frames [enospcRecord]) true (Tool.atRecord_atOneRecord ⟨false, true⟩ hwf)).of_oneRecord hwf
    obtain rfl : c = c' := Option.some_inj.mp (hc.symm.trans hc')
    have hfails : Stops true (enospcRecord.madeBy .succeeding c ()) :=
      ⟨rfl, _, List.mem_cons_self, .inr (show enospcRecord.hdr.result.toInt < 0 by decide)⟩
    exact hs (of_decide_eq_true (hstops.mp (hstops'.mpr hfails)).1)

/-- **The starting values of the flags.**  For two values of the variables in the beginning, the
tool makes the same calls on every log and every target, and makes those that the options demand, if
and only if for each of them the options call `usage`, or no log file is named, or `-n` is given, or
`noreplay` is false, and so is `strict` unless `-s` is given. -/
theorem dependsOnInputs_iff (cl : CommandLine) (start start' : ReplayFlags) :
    DependsOnInputs cl start start' ↔ Determined cl start ∧ Determined cl start' := by
  constructor
  · intro h
    exact ⟨h.meets.determined, h.meets'.determined⟩
  · rintro ⟨h, h'⟩
    refine ⟨fun W t m w k => ?_, h.meetsOptions, h'.meetsOptions⟩
    rw [h.calls_eq, h'.calls_eq]

end

/-- Without options the values of the variables in the beginning decide.  On the log of a `mkdir` a
call is made when `noreplay` starts as false, and none when it starts as true. -/
theorem not_dependsOnInputs_log :
    (Tool.oneRecord okMkdir.okRecord).calls ⟨false, [['l', 'o', 'g']]⟩ ⟨false, false⟩
        (fun _ => 0) () 2 = [(.mkdir [47, 116, 47, 108] 0, 0)] ∧
      (Tool.oneRecord okMkdir.okRecord).calls ⟨false, [['l', 'o', 'g']]⟩ ⟨true, false⟩
        (fun _ => 0) () 2 = [] ∧
      ¬DependsOnInputs ⟨false, [['l', 'o', 'g']]⟩ ⟨false, false⟩ ⟨true, false⟩ := by
  refine ⟨by decide, by decide, fun h => ?_⟩
  exact absurd h.meets'.determined (by decide)

end Trfs
