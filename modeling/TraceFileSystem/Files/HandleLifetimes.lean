import TraceFileSystem.Files.Handles

/-!
# How long a lower file stays open

For every order of events, a file of trfs has its private data and its lower file from its opening
to the moment in which the last reference is gone.

* `HandleState.Open` has the references that are counted and those that the running code holds
  beside them.  One lemma for each primitive says how it moves them.
* `HandleState.Sound` is the invariant.  `Sound.exec_cases` is one event: it does not happen, keeps
  the invariant, or faults, and it faults only where `HandleState.Provided` fails.
* `runAllowed_safe_iff` and `balanced_of_run` are the results for runs.
-/

namespace Trfs

namespace Handles

open LabelledSystem Posix

/-- The references to a lower file that a call has.  The one of a request that has been completed
too early is gone with it. -/
def FlightKind.pinned (kind : FlightKind) : ℕ :=
  if kind = .iter then 1 else 0

/-- The references to a file that a call and its request have. -/
def FlightKind.held (kind : FlightKind) : ℕ :=
  if kind = .orphan then 0 else 1

namespace HandleState

variable {s s' s'' : HandleState} {f l k j : ℕ} {ops : LowerOps}

/-! ### References -/

/-- What refers to a file: processes, calls in progress with their requests, and mappings. -/
def refs (s : HandleState) (f : ℕ) : ℕ :=
  s.handles f + s.flights.countP (fun x => x.file = f ∧ x.kind ≠ .orphan) +
    s.vmas.countP (fun v => v.file = f)

/-- The calls in progress that have a reference to the lower file of a file. -/
def pins (s : HandleState) (f : ℕ) : ℕ :=
  s.flights.countP fun x => x.file = f ∧ x.kind = .iter

/-- The operations that the first `mmap` to get any has got. -/
def savedOps (s : HandleState) (f : ℕ) : Option VmOps :=
  (s.mmaps f).findSome? id

/-- A file that is not open. -/
structure Closed (s : HandleState) (f : ℕ) : Prop where
  files : s.files f = none
  infos : s.infos f = none
  lower : s.lower f = none
  refs : s.refs f = 0
  closed : s.closed.count f = s.opened.count f
  opened : s.opened.count f ≤ 1

/-- An open file, where the running code has `k` references to the file and `j` references to its
lower file beside those that are counted. -/
structure Open (s : HandleState) (f : ℕ) (ops : LowerOps) (k j : ℕ) : Prop where
  files : s.files f = some ⟨some f, s.refs f + k⟩
  pos : 0 < s.refs f + k
  infos : s.infos f = some ⟨some f, s.savedOps f⟩
  lower : s.lower f = some ⟨ops, 1 + s.pins f + j⟩
  closed : s.closed.count f = 0
  opened : s.opened.count f = 1

/-- Everything about the other files is unchanged. -/
structure Frame (s s' : HandleState) (f : ℕ) : Prop where
  files : ∀ g ≠ f, s'.files g = s.files g
  infos : ∀ g ≠ f, s'.infos g = s.infos g
  lower : ∀ g ≠ f, s'.lower g = s.lower g
  refs : ∀ g ≠ f, s'.refs g = s.refs g
  pins : ∀ g ≠ f, s'.pins g = s.pins g
  savedOps : ∀ g ≠ f, s'.savedOps g = s.savedOps g
  closed : ∀ g ≠ f, s'.closed.count g = s.closed.count g
  opened : ∀ g ≠ f, s'.opened.count g = s.opened.count g
  next : s.next ≤ s'.next
  flights : ∀ x ∈ s'.flights, x ∈ s.flights ∨ x.lower = f ∧ x.file = f

/-- No step at all. -/
theorem Frame.refl (s : HandleState) (f : ℕ) : s.Frame s f := by
  constructor <;> simp +contextual

/-- Two steps that leave the other files alone. -/
theorem Frame.trans (h : s.Frame s' f) (h' : s'.Frame s'' f) : s.Frame s'' f where
  files g hg := (h'.files g hg).trans (h.files g hg)
  infos g hg := (h'.infos g hg).trans (h.infos g hg)
  lower g hg := (h'.lower g hg).trans (h.lower g hg)
  refs g hg := (h'.refs g hg).trans (h.refs g hg)
  pins g hg := (h'.pins g hg).trans (h.pins g hg)
  savedOps g hg := (h'.savedOps g hg).trans (h.savedOps g hg)
  closed g hg := (h'.closed g hg).trans (h.closed g hg)
  opened g hg := (h'.opened g hg).trans (h.opened g hg)
  next := h.next.trans h'.next
  flights x hx := (h'.flights x hx).elim (h.flights x) .inr

/-- The other files stay closed. -/
theorem Frame.closed_of_ne (h : s.Frame s' f) {g : ℕ} (hg : g ≠ f) (hc : s.Closed g) :
    s'.Closed g where
  files := (h.files g hg).trans hc.files
  infos := (h.infos g hg).trans hc.infos
  lower := (h.lower g hg).trans hc.lower
  refs := (h.refs g hg).trans hc.refs
  closed := by rw [h.closed g hg, h.opened g hg, hc.closed]
  opened := by rw [h.opened g hg]; exact hc.opened

/-- The other files stay open. -/
theorem Frame.open_of_ne (h : s.Frame s' f) {g : ℕ} (hg : g ≠ f) (ho : s.Open g ops k j) :
    s'.Open g ops k j where
  files := by rw [h.files g hg, h.refs g hg, ho.files]
  pos := by rw [h.refs g hg]; exact ho.pos
  infos := by rw [h.infos g hg, h.savedOps g hg, ho.infos]
  lower := by rw [h.lower g hg, h.pins g hg, ho.lower]
  closed := (h.closed g hg).trans ho.closed
  opened := (h.opened g hg).trans ho.opened

/-- Something refers to an open file when the running code does not. -/
theorem Open.refs_ne_zero (ho : s.Open f ops 0 j) : s.refs f ≠ 0 := by
  have hpos := ho.pos
  omega

/-! ### Pointers -/

/-- The private data of an open file. -/
theorem Open.trfsF_eq (ho : s.Open f ops k j) : s.trfsF f = .ok (f, ⟨some f, s.savedOps f⟩) := by
  simp only [trfsF, ho.files, ho.infos]

/-- The file itself. -/
theorem Open.derefUpper_eq (ho : s.Open f ops k j) :
    s.derefUpper f = .ok ⟨some f, s.refs f + k⟩ := by
  simp only [derefUpper, ho.files]

/-- Its lower file. -/
theorem Open.derefLower_eq (ho : s.Open f ops k j) :
    s.derefLower f = .ok ⟨ops, 1 + s.pins f + j⟩ := by
  simp only [derefLower, ho.lower]

/-- Both of them. -/
theorem Open.trfsLowerFile_eq (ho : s.Open f ops k j) :
    s.trfsLowerFile f = .ok (f, ⟨ops, 1 + s.pins f + j⟩) := by
  simp only [trfsLowerFile, ho.trfsF_eq, ho.derefLower_eq, bind, Except.bind]

/-! ### Primitives -/

/-- `get_file` of an open file. -/
theorem Open.getUpper_spec (ho : s.Open f ops k j) :
    ∃ s', s.getUpper f = .ok s' ∧ s'.Open f ops (k + 1) j ∧ s.Frame s' f := by
  refine ⟨_, by rw [getUpper, ho.files], ?_, ?_⟩
  · exact ⟨by simp [refs, Nat.add_assoc], by omega, ho.infos, ho.lower, ho.closed, ho.opened⟩
  · constructor <;> simp +contextual [refs, pins, savedOps, Function.update_of_ne]

/-- `get_file` of its lower file. -/
theorem Open.getFile_spec (ho : s.Open f ops k j) :
    ∃ s', s.getFile f = .ok s' ∧ s'.Open f ops k (j + 1) ∧ s.Frame s' f := by
  refine ⟨_, by simp only [getFile, ho.derefLower_eq, bind, Except.bind]; rfl, ?_, ?_⟩
  · exact ⟨ho.files, ho.pos, ho.infos, by simp [pins, Nat.add_assoc], ho.closed, ho.opened⟩
  · constructor <;> simp +contextual [refs, pins, savedOps, Function.update_of_ne]

/-- `fput` of its lower file by code that has a reference of its own. -/
theorem Open.fput_spec (ho : s.Open f ops k (j + 1)) :
    ∃ s', s.fput f = .ok s' ∧ s'.Open f ops k j ∧ s.Frame s' f := by
  have hcount : ¬1 + s.pins f + (j + 1) ≤ 1 := by omega
  refine ⟨_, by simp only [fput, ho.derefLower_eq, bind, Except.bind, if_neg hcount]; rfl, ?_, ?_⟩
  · exact ⟨ho.files, ho.pos, ho.infos, by simp [pins, ← Nat.add_assoc], ho.closed, ho.opened⟩
  · constructor <;> simp +contextual [refs, pins, savedOps, Function.update_of_ne]

/-- A call that holds the lower file refers to the file. -/
theorem pins_le_refs (s : HandleState) (f : ℕ) : s.pins f ≤ s.refs f := by
  have hle : s.pins f ≤ s.flights.countP fun x => x.file = f ∧ x.kind ≠ .orphan := by
    apply List.countP_mono_left
    intro x _ hx
    simp only [decide_eq_true_eq] at hx ⊢
    exact ⟨hx.1, by rw [hx.2]; decide⟩
  unfold refs
  omega

/-- `trfs_file_release` of a file to which nothing refers any more. -/
theorem trfsFileRelease_spec (hfile : s.files f = some ⟨some f, 1⟩)
    (hinfo : s.infos f = some ⟨some f, s.savedOps f⟩) (hlower : s.lower f = some ⟨ops, 1⟩)
    (hclosed : s.closed.count f = 0) (hopened : s.opened.count f = 1) :
    ∃ s', s.trfsFileRelease f = .ok s' ∧ s'.infos f = none ∧ s'.lower f = none ∧
      s'.closed.count f = s'.opened.count f ∧ s'.opened.count f ≤ 1 ∧ s'.refs f = s.refs f ∧
      s.Frame s' f := by
  have hF : s.trfsF f = .ok (f, ⟨some f, s.savedOps f⟩) := by simp only [trfsF, hfile, hinfo]
  refine ⟨{ s with
    infos := Function.update (Function.update s.infos f (some ⟨none, s.savedOps f⟩)) f none
    lower := Function.update s.lower f none
    closed := f :: s.closed }, ?_, ?_⟩
  · simp [trfsFileRelease, hF, trfsSetLowerFile, fput, derefLower, hlower, kfreeInfo, hfile, bind,
      Except.bind]
  · refine ⟨by simp, by simp, by simp [hclosed, hopened], hopened.le, rfl, ?_⟩
    constructor <;> simp +contextual [refs, pins, savedOps, Function.update_of_ne, eq_comm]

/-- `fput` by code that has a reference of its own.  The last reference takes everything along. -/
theorem Open.fputUpper_spec (ho : s.Open f ops (k + 1) 0) :
    ∃ s', s.fputUpper f = .ok s' ∧ (s'.Closed f ∨ s'.Open f ops k 0) ∧ s.Frame s' f := by
  by_cases hlast : s.refs f + (k + 1) ≤ 1
  · have hrefs : s.refs f = 0 := by omega
    have hk : k = 0 := by omega
    have hpins : s.pins f = 0 := Nat.le_zero.mp (hrefs ▸ s.pins_le_refs f)
    subst hk
    obtain ⟨s', hrel, hinfo, hlower, hclosed, hopened, hrefs', hframe⟩ := trfsFileRelease_spec
      (by rw [ho.files, hrefs]) ho.infos (by rw [ho.lower, hpins]) ho.closed ho.opened
    refine ⟨{ s' with files := Function.update s'.files f none }, ?_, .inl ?_, ?_⟩
    · simp only [fputUpper, ho.files, if_pos hlast, hrel, bind, Except.bind]
    · exact ⟨by simp, hinfo, hlower, hrefs'.trans hrefs, hclosed, hopened⟩
    · refine hframe.trans ?_
      constructor <;> simp +contextual [refs, pins, savedOps, Function.update_of_ne]
  · refine ⟨_, by simp only [fputUpper, ho.files, if_neg hlast]; rfl, .inr ?_, ?_⟩
    · have hpos : 0 < s.refs f + k := by omega
      exact ⟨by simp [refs, ← Nat.add_assoc], hpos, ho.infos, ho.lower, ho.closed, ho.opened⟩
    · constructor <;> simp +contextual [refs, pins, savedOps, Function.update_of_ne]

/-! ### References that are counted -/

/-- A process gets the reference of the running code. -/
theorem Open.addHandle (ho : s.Open f ops (k + 1) j) (n : ℕ) (hn : n = s.handles f + 1) :
    ({ s with handles := Function.update s.handles f n } : HandleState).Open f ops k j ∧
      s.Frame { s with handles := Function.update s.handles f n } f := by
  subst hn
  constructor
  · refine ⟨?_, ?_, ho.infos, ho.lower, ho.closed, ho.opened⟩
    · rw [ho.files]
      simp only [refs, Function.update_self]
      congr 2
      omega
    · simp [refs]
  · constructor <;> simp +contextual [refs, pins, savedOps, Function.update_of_ne]

/-- The running code gets the reference of a process. -/
theorem Open.removeHandle (ho : s.Open f ops k j) (hs : s.handles f ≠ 0) :
    ({ s with handles := Function.update s.handles f (s.handles f - 1) } : HandleState).Open f ops
      (k + 1) j ∧
      s.Frame { s with handles := Function.update s.handles f (s.handles f - 1) } f := by
  constructor
  · refine ⟨?_, ?_, ho.infos, ho.lower, ho.closed, ho.opened⟩
    · rw [ho.files]
      simp only [refs, Function.update_self]
      congr 2
      omega
    · omega
  · constructor <;> simp +contextual [refs, pins, savedOps, Function.update_of_ne]

/-- A call in progress gets the references of the running code. -/
theorem Open.addFlight (call : ℕ) {kind : FlightKind}
    (ho : s.Open f ops (k + kind.held) (j + kind.pinned)) :
    ({ s with flights := ⟨call, f, f, kind⟩ :: s.flights } : HandleState).Open f ops k j ∧
      s.Frame { s with flights := ⟨call, f, f, kind⟩ :: s.flights } f := by
  have hpos := ho.pos
  constructor
  · refine ⟨?_, ?_, ho.infos, ?_, ho.closed, ho.opened⟩
    · rw [ho.files]
      simp only [refs, List.countP_cons, FlightKind.held, true_and, decide_eq_true_eq, ite_not]
      congr 2
      omega
    · simp only [refs, FlightKind.held, List.countP_cons, true_and, decide_eq_true_eq,
        ite_not] at hpos ⊢
      omega
    · rw [ho.lower]
      simp only [pins, List.countP_cons, FlightKind.pinned, true_and, decide_eq_true_eq]
      congr 2
      omega
  · constructor <;> simp +contextual [refs, pins, savedOps, eq_comm]

/-- The running code gets the references of a call in progress. -/
theorem Open.removeFlight {x : Flight} (ho : s.Open x.file ops k j) (hx : x ∈ s.flights) :
    ({ s with flights := s.flights.erase x } : HandleState).Open x.file ops (k + x.kind.held)
      (j + x.kind.pinned) ∧ s.Frame { s with flights := s.flights.erase x } x.file := by
  have hpos := ho.pos
  have hrefs (hkind : x.kind ≠ .orphan) :
      0 < s.flights.countP fun y => y.file = x.file ∧ y.kind ≠ .orphan :=
    List.countP_pos_iff.mpr ⟨x, hx, by simp [hkind]⟩
  have hpins (hkind : x.kind = .iter) :
      0 < s.flights.countP fun y => y.file = x.file ∧ y.kind = .iter :=
    List.countP_pos_iff.mpr ⟨x, hx, by simp [hkind]⟩
  constructor
  · refine ⟨?_, ?_, ho.infos, ?_, ho.closed, ho.opened⟩
    · rw [ho.files]
      simp only [refs, List.countP_erase, hx, true_and, decide_eq_true_eq, ite_not, FlightKind.held]
      congr 2
      split
      · omega
      · next hkind =>
        have hcount := hrefs hkind
        omega
    · simp only [refs, List.countP_erase, hx, true_and, decide_eq_true_eq, ite_not,
        FlightKind.held] at hpos ⊢
      split <;> omega
    · rw [ho.lower]
      simp only [pins, List.countP_erase, hx, true_and, decide_eq_true_eq, FlightKind.pinned]
      congr 2
      split
      · next hkind =>
        have hcount := hpins hkind
        omega
      · omega
  · constructor
    case flights => exact fun y hy => .inl (List.mem_of_mem_erase hy)
    all_goals simp +contextual [refs, pins, savedOps, List.countP_erase, eq_comm]

/-- A call without references comes to a closed file, or leaves it. -/
theorem Closed.withFlights (hc : s.Closed f) {flights : List Flight}
    (hrefs : ({ s with flights } : HandleState).refs f = s.refs f) :
    ({ s with flights } : HandleState).Closed f :=
  ⟨hc.files, hc.infos, hc.lower, hrefs.trans hc.refs, hc.closed, hc.opened⟩

/-- A mapping gets the reference of the running code. -/
theorem Open.addVma (id : ℕ) (ho : s.Open f ops (k + 1) j) :
    ({ s with vmas := ⟨id, f⟩ :: s.vmas } : HandleState).Open f ops k j ∧
      s.Frame { s with vmas := ⟨id, f⟩ :: s.vmas } f := by
  constructor
  · refine ⟨?_, by simp [refs], ho.infos, ho.lower, ho.closed, ho.opened⟩
    rw [ho.files]
    simp only [refs, List.countP_cons, decide_true, if_true]
    congr 2
    omega
  · constructor <;> simp +contextual [refs, pins, savedOps, eq_comm]

/-- The running code gets the reference of a mapping. -/
theorem Open.removeVma {v : Vma} (ho : s.Open v.file ops k j) (hv : v ∈ s.vmas) :
    ({ s with vmas := s.vmas.erase v } : HandleState).Open v.file ops (k + 1) j ∧
      s.Frame { s with vmas := s.vmas.erase v } v.file := by
  have hrefs : 0 < s.vmas.countP fun w => w.file = v.file :=
    List.countP_pos_iff.mpr ⟨v, hv, by simp⟩
  constructor
  · refine ⟨?_, by omega, ho.infos, ho.lower, ho.closed, ho.opened⟩
    rw [ho.files]
    simp only [refs, List.countP_erase, hv, decide_true, and_self, if_true]
    congr 2
    omega
  · constructor <;> simp +contextual [refs, pins, savedOps, List.countP_erase, eq_comm]

/-! ### The invariant -/

/-- Every file is either open, with the right number of references, or gone with all it had. -/
structure Sound (s : HandleState) : Prop where
  files : ∀ f, s.Closed f ∨ ∃ ops, s.Open f ops 0 0
  fresh : ∀ f, s.next ≤ f → s.files f = none ∧ s.opened.count f = 0 ∧ s.savedOps f = none
  flights : ∀ x ∈ s.flights, x.lower = x.file ∧ x.file < s.next

/-- It holds when no file is open. -/
theorem sound_empty : empty.Sound where
  files f := .inl ⟨rfl, rfl, rfl, rfl, rfl, Nat.zero_le 1⟩
  fresh f _ := ⟨rfl, rfl, rfl⟩
  flights x hx := by cases hx

/-- A file with a reference is open. -/
theorem Sound.open_of_refs (h : s.Sound) (hf : s.refs f ≠ 0) : ∃ ops, s.Open f ops 0 0 :=
  (h.files f).resolve_left fun hc => hf hc.refs

/-- An open file has been numbered. -/
theorem Sound.lt_next (h : s.Sound) (ho : s.Open f ops k j) : f < s.next := by
  by_contra hle
  have hnone := (h.fresh f (not_lt.mp hle)).1
  rw [ho.files] at hnone
  cases hnone

/-- A step that leaves the other files alone. -/
theorem Sound.frame (h : s.Sound) (hframe : s.Frame s' f) (hlt : f < s'.next)
    (hfile : s'.Closed f ∨ ∃ ops, s'.Open f ops 0 0) : s'.Sound where
  files g := by
    by_cases hg : g = f
    · exact hg ▸ hfile
    · exact (h.files g).imp (hframe.closed_of_ne hg) fun ⟨ops, ho⟩ =>
        ⟨ops, hframe.open_of_ne hg ho⟩
  fresh g hg := by
    have hne : g ≠ f := by omega
    rw [hframe.files g hne, hframe.opened g hne, hframe.savedOps g hne]
    exact h.fresh g (hframe.next.trans hg)
  flights x hx := by
    rcases hframe.flights x hx with hx | ⟨hlower, hfile⟩
    · exact ⟨(h.flights x hx).1, (h.flights x hx).2.trans_le hframe.next⟩
    · exact ⟨hlower.trans hfile.symm, hfile ▸ hlt⟩

/-- A step with an open file that leaves the other files alone. -/
theorem Sound.frame_open (h : s.Sound) (ho : s.Open f ops k j) (hframe : s.Frame s' f)
    (hfile : s'.Closed f ∨ ∃ ops, s'.Open f ops 0 0) : s'.Sound :=
  h.frame hframe ((h.lt_next ho).trans_le hframe.next) hfile

/-! ### Events that never fault -/

/-- Code that does not fault and keeps the invariant. -/
def Fine (x : Except Fault HandleState) : Prop :=
  ∃ s', x = .ok s' ∧ s'.Sound

/-- Code that only reads the state. -/
theorem Sound.fine_map {α : Type} (h : s.Sound) {x : Except Fault α} {a : α} (hx : x = .ok a) :
    Fine (x.map fun _ => s) :=
  ⟨s, by rw [hx]; rfl, h⟩

/-- The opening of a file goes through. -/
def OpenEnv.Opens (env : OpenEnv) (ops : LowerOps) : Prop :=
  env.unhashed = false ∧ env.kzalloc = true ∧ env.dentryOpen = .ok ops

/-- An opening that fails has given back what it had taken. -/
theorem trfsOpen_failed (hinfo : s.infos s.next = none) {env : OpenEnv}
    (henv : ∀ ops, ¬env.Opens ops) :
    ∃ u err, err ≠ 0 ∧ s.trfsOpen env =
      .ok ({ s with
        files := Function.update s.files s.next (some u)
        next := s.next + 1 }, err) := by
  by_cases hu : env.unhashed
  · exact ⟨_, _, Errno.noent.neg_ne_zero, by rw [trfsOpen, if_pos hu]⟩
  · by_cases hk : env.kzalloc = false
    · exact ⟨_, _, Errno.nomem.neg_ne_zero, by rw [trfsOpen, if_neg hu, if_pos hk]⟩
    · cases hd : env.dentryOpen with
      | ok ops => exact absurd ⟨by simpa using hu, by simpa using hk, hd⟩ (henv ops)
      | error e =>
        have hsame : Function.update s.infos s.next none = s.infos := by
          rw [← hinfo, Function.update_eq_self]
        refine ⟨⟨some s.next, 1⟩, _, e.neg_ne_zero, ?_⟩
        rw [trfsOpen, if_neg hu, if_neg hk]
        simp [hd, trfsF, kfreeInfo, bind, Except.bind, hsame]

/-- An opening that succeeds. -/
theorem trfsOpen_opens {env : OpenEnv} (henv : env.Opens ops) :
    s.trfsOpen env = .ok ({ s with
      files := Function.update s.files s.next (some ⟨some s.next, 1⟩)
      infos := Function.update s.infos s.next (some ⟨some s.next, none⟩)
      lower := Function.update s.lower s.next (some ⟨ops, 1⟩)
      next := s.next + 1
      opened := s.next :: s.opened }, 0) := by
  simp [trfsOpen, henv.1, henv.2.1, henv.2.2, trfsSetLowerFile, trfsF, bind, Except.bind]

/-- An opening that fails leaves nothing behind, and one that succeeds leaves an open file with the
reference of the process. -/
theorem Sound.fine_openFile (h : s.Sound) (env : OpenEnv) : Fine (s.openFile env) := by
  obtain ⟨hfiles, hopened, hsaved⟩ := h.fresh s.next le_rfl
  have hc : s.Closed s.next := by
    refine (h.files s.next).resolve_right ?_
    rintro ⟨ops, ho⟩
    exact absurd (h.lt_next ho) (lt_irrefl _)
  by_cases henv : ∃ ops, env.Opens ops
  · obtain ⟨ops, henv⟩ := henv
    have hrefs := hc.refs
    unfold refs at hrefs
    have hpins : s.pins s.next = 0 := Nat.le_zero.mp (hc.refs ▸ s.pins_le_refs s.next)
    have hclosed : s.closed.count s.next = 0 := hc.closed.trans hopened
    refine ⟨_, by simp only [openFile, trfsOpen_opens henv, bind, Except.bind]; rfl, ?_⟩
    refine h.frame (f := s.next) ?_ (Nat.lt_succ_self _) (.inr ⟨ops, ?_⟩)
    · constructor <;> simp +contextual [refs, pins, savedOps, Function.update_of_ne, eq_comm]
    · have hone : 1 + s.flights.countP (fun x => x.file = s.next ∧ x.kind ≠ .orphan) +
          s.vmas.countP (fun v => v.file = s.next) = 1 := by omega
      refine ⟨by simp only [refs, Function.update_self, hone], by simp [refs], ?_,
        by simpa [pins] using hpins, hclosed, by simp [hopened]⟩
      refine (Function.update_self ..).trans ?_
      exact congrArg (fun saved => some (FileInfo.mk (some s.next) saved)) hsaved.symm
  · push Not at henv
    obtain ⟨u, err, herr, hopen⟩ := trfsOpen_failed hc.infos henv
    refine ⟨_, by simp only [openFile, hopen, bind, Except.bind, if_neg herr]; rfl, ?_⟩
    refine h.frame (f := s.next) ?_ (Nat.lt_succ_self _) (.inl ?_)
    · constructor <;> simp +contextual [refs, pins, savedOps, Function.update_of_ne]
    · exact ⟨by simp, hc.infos, hc.lower, hc.refs, hc.closed, hc.opened⟩

/-- A process whose reference counts has opened the file. -/
theorem Sound.open_of_handles (h : s.Sound) (hf : s.handles f ≠ 0) : ∃ ops, s.Open f ops 0 0 :=
  h.open_of_refs (by unfold refs; omega)

/-- A file that is mapped is open. -/
theorem Sound.open_of_vma (h : s.Sound) {v : Vma} (hv : v ∈ s.vmas) :
    ∃ ops, s.Open v.file ops 0 0 := by
  have hpos : 0 < s.vmas.countP fun w => w.file = v.file :=
    List.countP_pos_iff.mpr ⟨v, hv, by simp⟩
  exact h.open_of_refs (by unfold refs; omega)

/-- A file to which a call in progress or its request refers is open. -/
theorem Sound.open_of_flight (h : s.Sound) {x : Flight} (hx : x ∈ s.flights)
    (hkind : x.kind ≠ .orphan) : ∃ ops, s.Open x.file ops 0 0 := by
  have hpos : 0 < s.flights.countP fun y => y.file = x.file ∧ y.kind ≠ .orphan :=
    List.countP_pos_iff.mpr ⟨x, hx, by simp [hkind]⟩
  exact h.open_of_refs (by unfold refs; omega)

/-- `dup`. -/
theorem Sound.fine_dup (h : s.Sound) (hf : s.handles f ≠ 0) : Fine (s.dup f) := by
  obtain ⟨ops, ho⟩ := h.open_of_handles hf
  obtain ⟨s', hget, ho', hframe⟩ := ho.getUpper_spec
  obtain ⟨ho'', hframe'⟩ := ho'.addHandle _ rfl
  refine ⟨_, by simp only [dup, hget, bind, Except.bind]; rfl, ?_⟩
  exact h.frame_open ho (hframe.trans hframe') (.inr ⟨ops, ho''⟩)

/-- The running code gives its reference back and is done. -/
theorem Sound.fine_fputUpper (h : s.Sound) (ho : s.Open f ops k j) (hframe : s.Frame s' f)
    (ho' : s'.Open f ops 1 0) : Fine (s'.fputUpper f) := by
  obtain ⟨s'', hput, hfile, hframe'⟩ := ho'.fputUpper_spec
  refine ⟨s'', hput, h.frame_open ho (hframe.trans hframe') ?_⟩
  exact hfile.imp_right fun ho'' => ⟨ops, ho''⟩

/-- `close`. -/
theorem Sound.fine_filpClose (h : s.Sound) (hf : s.handles f ≠ 0) (flush : CInt) :
    Fine (s.filpClose f flush) := by
  obtain ⟨ops, ho⟩ := h.open_of_handles hf
  obtain ⟨ho', hframe⟩ := ho.removeHandle hf
  have hflush : s.trfsFlush f flush = .ok (if ops.flush then flush else 0) := by
    simp only [trfsFlush, ho.trfsF_eq, ho.derefLower_eq, bind, Except.bind]
  simp only [filpClose, hflush, bind, Except.bind]
  exact h.fine_fputUpper ho hframe ho'

/-- `munmap`. -/
theorem Sound.fine_removeVma (h : s.Sound) {v : Vma} (hv : v ∈ s.vmas) : Fine (s.removeVma v) := by
  obtain ⟨ops, ho⟩ := h.open_of_vma hv
  obtain ⟨ho', hframe⟩ := ho.removeVma hv
  exact h.fine_fputUpper ho hframe ho'

/-- A call begins with the references it needs. -/
theorem Sound.fine_begin (h : s.Sound) (ho : s.Open f ops k j) (hframe : s.Frame s' f)
    (call : ℕ) {kind : FlightKind} (hheld : kind.held = 1) (ho' : s'.Open f ops 0 kind.pinned) :
    Fine (s'.begin call f f kind) := by
  obtain ⟨s'', hget, ho'', hframe'⟩ := ho'.getUpper_spec
  rw [← hheld, ← Nat.zero_add kind.pinned] at ho''
  obtain ⟨ho₃, hframe''⟩ := ho''.addFlight call
  refine ⟨_, by simp only [begin, hget, bind, Except.bind]; rfl, ?_⟩
  exact h.frame_open ho ((hframe.trans hframe').trans hframe'') (.inr ⟨ops, ho₃⟩)

/-- `trfs_read`, `trfs_write` or `trfs_readdir` begins. -/
theorem Sound.fine_beginCall (h : s.Sound) (hf : s.handles f ≠ 0) (call : ℕ) {kind : FlightKind}
    (hheld : kind.held = 1) (hpinned : kind.pinned = 0) : Fine (s.beginCall call f kind) := by
  obtain ⟨ops, ho⟩ := h.open_of_handles hf
  simp only [beginCall, ho.trfsLowerFile_eq, bind, Except.bind]
  exact h.fine_begin ho (.refl s f) call hheld (hpinned ▸ ho)

/-- `trfs_read_iter` or `trfs_write_iter` begins. -/
theorem Sound.fine_beginIter (h : s.Sound) (hf : s.handles f ≠ 0) (call : ℕ) (write : Bool) :
    Fine (s.beginIter call f write) := by
  obtain ⟨ops, ho⟩ := h.open_of_handles hf
  simp only [beginIter, ho.trfsLowerFile_eq, bind, Except.bind]
  by_cases hop : (if write then ops.writeIter else ops.readIter) = false
  · rw [if_pos hop]
    exact ⟨s, rfl, h⟩
  · obtain ⟨s', hget, ho', hframe⟩ := ho.getFile_spec
    have hpinned : s'.Open f ops 0 FlightKind.iter.pinned := ho'
    rw [if_neg hop, hget]
    exact h.fine_begin ho hframe call rfl hpinned

/-- A call in progress gets the references of the running code, and goes on with the same file. -/
theorem Sound.fine_addFlight (h : s.Sound) (ho : s.Open f ops k j) (hframe : s.Frame s' f)
    (call : ℕ) (kind : FlightKind) (ho' : s'.Open f ops kind.held kind.pinned) :
    Fine (.ok { s' with flights := ⟨call, f, f, kind⟩ :: s'.flights }) := by
  rw [← Nat.zero_add kind.held, ← Nat.zero_add kind.pinned] at ho'
  obtain ⟨ho'', hframe'⟩ := ho'.addFlight call
  exact ⟨_, rfl, h.frame_open ho (hframe.trans hframe') (.inr ⟨ops, ho''⟩)⟩

variable {x : Flight} {y : Except Fault HandleState}

/-- The lower operation of an `iter` function returns.  The inode of the lower file, which is read
behind the `fput`, is there, because the file still has the lower file open. -/
theorem Sound.fine_iterReturns (h : s.Sound) (hx : x ∈ s.flights) (hkind : x.kind ≠ .freed)
    {ret : CInt} (hy : s.iterReturns x ret = some y) : Fine y := by
  obtain ⟨call, f, l, kind⟩ := x
  obtain ⟨rfl, -⟩ : l = f ∧ _ := h.flights _ hx
  cases kind with
  | iter =>
    obtain ⟨ops, ho⟩ := h.open_of_flight hx (by simp)
    obtain ⟨ho', hframe⟩ := ho.removeFlight hx
    obtain ⟨s', hput, ho'', hframe'⟩ := Open.fput_spec (j := 0) ho'
    have hframe'' := hframe.trans hframe'
    simp only [iterReturns, hput, ho''.derefUpper_eq, ho''.derefLower_eq, bind, Except.bind,
      Option.some_inj] at hy
    subst hy
    split
    · exact h.fine_addFlight ho hframe'' call .pending ho''
    · split
      · exact h.fine_fputUpper ho hframe'' ho''
      · exact h.fine_fputUpper ho hframe'' ho''
  | freed => exact absurd rfl hkind
  | _ => cases hy

/-- A request is completed, and the file in `ki_filp` is put. -/
theorem Sound.fine_kiocbFree (h : s.Sound) (hx : x ∈ s.flights) (hy : s.kiocbFree x = some y) :
    Fine y := by
  obtain ⟨call, f, l, kind⟩ := x
  obtain ⟨rfl, -⟩ : l = f ∧ _ := h.flights _ hx
  cases kind with
  | iter =>
    obtain ⟨ops, ho⟩ := h.open_of_flight hx (by simp)
    obtain ⟨ho', hframe⟩ := ho.removeFlight hx
    obtain ⟨s', hput, ho'', hframe'⟩ := Open.fput_spec (j := 0) ho'
    simp only [kiocbFree, hput, bind, Except.bind, Option.some_inj] at hy
    subst hy
    exact h.fine_addFlight ho (hframe.trans hframe') call .freed ho''
  | pending =>
    obtain ⟨ops, ho⟩ := h.open_of_flight hx (by simp)
    obtain ⟨ho', hframe⟩ := ho.removeFlight hx
    obtain ⟨s', hput, hfile, hframe'⟩ := Open.fputUpper_spec (k := 0) ho'
    simp only [kiocbFree, hput, bind, Except.bind, Option.some_inj] at hy
    subst hy
    rcases hfile with hc | ho''
    · refine ⟨_, rfl, h.frame_open ho ((hframe.trans hframe').trans ?_) (.inl ?_)⟩
      · constructor <;> simp +contextual [refs, pins, savedOps]
      · exact hc.withFlights (by simp [refs])
    · exact h.fine_addFlight ho (hframe.trans hframe') call .orphan ho''
  | queued =>
    obtain ⟨ops, ho⟩ := h.open_of_flight hx (by simp)
    obtain ⟨ho', hframe⟩ := ho.removeFlight hx
    cases hy
    exact h.fine_fputUpper ho hframe ho'
  | _ => cases hy

/-- A call goes on from where it stands. -/
theorem Sound.fine_finishCall (h : s.Sound) (hx : x ∈ s.flights)
    (hopen : x.kind = .orphan → s.refs x.file ≠ 0) {ret : CInt}
    (hy : s.finishCall x ret = some y) : Fine y := by
  obtain ⟨call, f, l, kind⟩ := x
  obtain ⟨rfl, -⟩ : l = f ∧ _ := h.flights _ hx
  have hfile : ∃ ops, s.Open l ops 0 0 := by
    by_cases hkind : kind = .orphan
    · exact h.open_of_refs (hopen hkind)
    · exact h.open_of_flight hx hkind
  obtain ⟨ops, ho⟩ := hfile
  obtain ⟨ho', hframe⟩ := ho.removeFlight hx
  cases kind with
  | readWrite =>
    simp only [finishCall, ho'.derefLower_eq, bind, Except.bind, Option.some_inj] at hy
    subst hy
    split
    · exact h.fine_fputUpper ho hframe ho'
    · exact h.fine_fputUpper ho hframe ho'
  | readdir =>
    simp only [finishCall, ho'.derefLower_eq, bind, Except.bind, Option.some_inj] at hy
    subst hy
    exact h.fine_fputUpper ho hframe ho'
  | pending =>
    simp only [finishCall, ho'.derefUpper_eq, ho'.derefLower_eq, bind, Except.bind,
      Option.some_inj] at hy
    subst hy
    exact h.fine_addFlight ho hframe call .queued ho'
  | orphan =>
    simp only [finishCall, ho'.derefUpper_eq, ho'.derefLower_eq, bind, Except.bind,
      Option.some_inj] at hy
    subst hy
    exact ⟨_, rfl, h.frame_open ho hframe (.inr ⟨ops, ho'⟩)⟩
  | _ => cases hy

/-! ### Mappings -/

/-- The lower file can be mapped, unless the `mmap` is refused before or operations have already
been saved. -/
def Mappable (s : HandleState) (file : ℕ) (env : MmapEnv) : Prop :=
  ∀ l, s.lower file = some l → ¬(env.Willwrite ∧ l.ops.writepage = false) →
    s.savedOps file = none → l.ops.mmap = true

/-- `trfs_mmap` saves the operations of the lower file as long as it has none. -/
theorem Open.trfsMmap_spec (ho : s.Open f ops k j) {env : MmapEnv} (hmap : s.Mappable f env) :
    ∃ s' err, s.trfsMmap f env = .ok (s', err) ∧ s'.Open f ops k j ∧ s.Frame s' f := by
  simp only [trfsMmap, ho.trfsLowerFile_eq, ho.trfsF_eq, bind, Except.bind]
  by_cases hrefused : env.Willwrite ∧ ops.writepage = false
  · rw [if_pos hrefused]
    exact ⟨s, _, rfl, ho, .refl s f⟩
  · rw [if_neg hrefused]
    cases hsaved : s.savedOps f with
    | some saved => exact ⟨s, _, rfl, ho, .refl s f⟩
    | none =>
      have hmmap : ¬ops.mmap = false := by
        rw [hmap _ ho.lower hrefused hsaved]
        decide
      rw [if_neg hmmap]
      cases env.lowerMmap with
      | error e => exact ⟨s, _, rfl, ho, .refl s f⟩
      | ok saved =>
        refine ⟨_, _, rfl, ⟨ho.files, ho.pos, ?_, ho.lower, ho.closed, ho.opened⟩, ?_⟩
        · have hfirst : (s.mmaps f).findSome? id = none := hsaved
          simp [savedOps, List.findSome?_append, hfirst]
        · constructor <;> simp +contextual [refs, pins, savedOps, Function.update_of_ne]

/-- It follows a NULL pointer when the lower file cannot be mapped. -/
theorem Open.trfsMmap_error (ho : s.Open f ops k j) {env : MmapEnv} (hmap : ¬s.Mappable f env) :
    s.trfsMmap f env = .error .nullDeref := by
  unfold Mappable at hmap
  push Not at hmap
  obtain ⟨l, hl, hrefused, hsaved, hmmap⟩ := hmap
  rw [ho.lower, Option.some_inj] at hl
  subst hl
  simp only [trfsMmap, ho.trfsLowerFile_eq, ho.trfsF_eq, hsaved, bind, Except.bind]
  rw [if_neg (by simpa using hrefused), if_pos (by simpa using hmmap)]

/-- `mmap` of a file that a process has open. -/
theorem Sound.fine_mmapRegion (h : s.Sound) (hf : s.handles f ≠ 0) (id : ℕ) {env : MmapEnv}
    (hmap : s.Mappable f env) : Fine (s.mmapRegion id f env) := by
  obtain ⟨ops, ho⟩ := h.open_of_handles hf
  obtain ⟨s', err, hmmap, ho', hframe⟩ := ho.trfsMmap_spec hmap
  simp only [mmapRegion, hmmap, bind, Except.bind]
  by_cases herr : err = 0
  · obtain ⟨s'', hget, ho'', hframe'⟩ := ho'.getUpper_spec
    obtain ⟨ho₃, hframe₃⟩ := ho''.addVma id
    rw [if_pos herr, hget]
    exact ⟨_, rfl, h.frame_open ho ((hframe.trans hframe').trans hframe₃) (.inr ⟨ops, ho₃⟩)⟩
  · rw [if_neg herr]
    exact ⟨s', rfl, h.frame_open ho hframe (.inr ⟨ops, ho'⟩)⟩

/-- A page fault is served by the lower file, with the operations that have been saved. -/
theorem Open.trfsFault_eq {v : Vma} (ho : s.Open v.file ops k j) :
    s.trfsFault v = match s.savedOps v.file with
      | none => .error .bugOn
      | some saved => if saved.fault = false then .error .nullDeref else .ok (v.file, saved) := by
  unfold trfsFault
  cases hops : s.savedOps v.file with
  | none => simp only [ho.trfsF_eq, hops, bind, Except.bind]
  | some saved => simp only [ho.trfsF_eq, ho.trfsLowerFile_eq, hops, bind, Except.bind]

/-- So is a write fault, if the lower file system wants to know of it. -/
theorem Open.trfsPageMkwrite_eq {v : Vma} (ho : s.Open v.file ops k j) :
    s.trfsPageMkwrite v = match s.savedOps v.file with
      | none => .error .bugOn
      | some saved => .ok (if saved.pageMkwrite = false then none else some (v.file, saved)) := by
  simp only [trfsPageMkwrite, ho.trfsF_eq, ho.trfsLowerFile_eq, bind, Except.bind]
  cases s.savedOps v.file with
  | none => rfl
  | some saved =>
    simp only
    split <;> rfl

/-! ### Events -/

/-- What an event needs of the lower files, and of the requests that are completed.  An event that
does not happen needs nothing. -/
def Provided (s : HandleState) : HandleEvent → Prop
  | .mmap id file env =>
    s.vmas.any (·.id = id) = false → s.handles file ≠ 0 → s.Mappable file env
  | .fault id =>
    ∀ v, s.vmas.find? (·.id = id) = some v → ∃ ops, s.savedOps v.file = some ops ∧ ops.fault = true
  | .pageMkwrite id => ∀ v, s.vmas.find? (·.id = id) = some v → s.savedOps v.file ≠ none
  -- the request has not been completed before `ki_filp` is restored
  | .returns call _ => ∀ x, s.flights.find? (·.call = call) = some x → x.kind ≠ .freed
  -- when it has been completed afterwards, something else still refers to the file
  | .finish call _ =>
    ∀ x, s.flights.find? (·.call = call) = some x → x.kind = .orphan → s.refs x.file ≠ 0
  | _ => True

/-- An event does not fault. -/
def Safe (s : HandleState) (e : HandleEvent) : Prop :=
  ∀ fault, s.exec e ≠ some (.error fault)

variable {e : HandleEvent} {x : Except Fault HandleState}

/-- What a process does through its reference. -/
theorem byHandle_eq_some {y : Except Fault HandleState} :
    s.byHandle f y = some x ↔ s.handles f ≠ 0 ∧ y = x := by
  unfold byHandle
  split
  · next hf => simp [hf]
  · next hf => simp [hf]

/-- A call that begins. -/
theorem byCall_eq_some {call : ℕ} {y : Except Fault HandleState}
    (hx : s.byCall call f y = some x) : s.handles f ≠ 0 ∧ y = x := by
  unfold byCall at hx
  split at hx
  · cases hx
  · exact byHandle_eq_some.mp hx

/-- With what the lower files provide, an event that happens does not fault and keeps the
invariant. -/
theorem Sound.fine_exec (h : s.Sound) (hp : s.Provided e) (hx : s.exec e = some x) : Fine x := by
  cases e with
  | openFile env =>
    cases hx
    exact h.fine_openFile env
  | dup file =>
    obtain ⟨hf, rfl⟩ := byHandle_eq_some.mp hx
    exact h.fine_dup hf
  | close file flush =>
    obtain ⟨hf, rfl⟩ := byHandle_eq_some.mp hx
    exact h.fine_filpClose hf flush
  | fsync file generic ret =>
    obtain ⟨hf, rfl⟩ := byHandle_eq_some.mp hx
    obtain ⟨ops, ho⟩ := h.open_of_handles hf
    have hfsync : s.trfsFsync file generic ret = .ok (if generic ≠ 0 then generic else ret) := by
      simp only [trfsFsync, ho.trfsLowerFile_eq, bind, Except.bind]
      split <;> rfl
    exact h.fine_map hfsync
  | fasync file ret =>
    obtain ⟨hf, rfl⟩ := byHandle_eq_some.mp hx
    obtain ⟨ops, ho⟩ := h.open_of_handles hf
    have hfasync : s.trfsFasync file ret = .ok (if ops.fasync then ret else 0) := by
      simp only [trfsFasync, ho.trfsLowerFile_eq, bind, Except.bind]
    exact h.fine_map hfasync
  | ioctl file ret =>
    obtain ⟨hf, rfl⟩ := byHandle_eq_some.mp hx
    obtain ⟨ops, ho⟩ := h.open_of_handles hf
    have hioctl : s.trfsUnlockedIoctl file ret =
        .ok (if ops.unlockedIoctl then ret else negENOTTY) := by
      simp only [trfsUnlockedIoctl, ho.trfsF_eq, ho.derefLower_eq, bind, Except.bind]
    exact h.fine_map hioctl
  | llseek file upper lower =>
    obtain ⟨hf, rfl⟩ := byHandle_eq_some.mp hx
    obtain ⟨ops, ho⟩ := h.open_of_handles hf
    have hllseek : s.trfsFileLlseek file upper lower =
        .ok (if upper.toInt < 0 then upper else lower) := by
      simp only [trfsFileLlseek, ho.trfsLowerFile_eq, bind, Except.bind]
      split <;> rfl
    exact h.fine_map hllseek
  | readWrite call file =>
    obtain ⟨hf, rfl⟩ := byCall_eq_some hx
    exact h.fine_beginCall hf call rfl rfl
  | readdir call file =>
    obtain ⟨hf, rfl⟩ := byCall_eq_some hx
    exact h.fine_beginCall hf call rfl rfl
  | iter call file write =>
    obtain ⟨hf, rfl⟩ := byCall_eq_some hx
    exact h.fine_beginIter hf call write
  | returns call ret =>
    obtain ⟨y, hy, hx⟩ := Option.bind_eq_some_iff.mp hx
    exact h.fine_iterReturns (List.mem_of_find?_eq_some hy) (hp y hy) hx
  | complete call =>
    obtain ⟨y, hy, hx⟩ := Option.bind_eq_some_iff.mp hx
    exact h.fine_kiocbFree (List.mem_of_find?_eq_some hy) hx
  | finish call ret =>
    obtain ⟨y, hy, hx⟩ := Option.bind_eq_some_iff.mp hx
    exact h.fine_finishCall (List.mem_of_find?_eq_some hy) (hp y hy) hx
  | mmap id file env =>
    rw [exec] at hx
    split at hx
    · cases hx
    · next hid =>
      obtain ⟨hf, rfl⟩ := byHandle_eq_some.mp hx
      exact h.fine_mmapRegion hf id (hp (by simpa using hid) hf)
  | munmap id =>
    obtain ⟨v, hv, rfl⟩ := Option.map_eq_some_iff.mp hx
    exact h.fine_removeVma (List.mem_of_find?_eq_some hv)
  | fault id =>
    obtain ⟨v, hv, rfl⟩ := Option.map_eq_some_iff.mp hx
    obtain ⟨ops, ho⟩ := h.open_of_vma (List.mem_of_find?_eq_some hv)
    obtain ⟨saved, hsaved, hfault⟩ := hp v hv
    have hserved : s.trfsFault v = .ok (v.file, saved) := by
      simp [ho.trfsFault_eq, hsaved, hfault]
    exact h.fine_map hserved
  | pageMkwrite id =>
    obtain ⟨v, hv, rfl⟩ := Option.map_eq_some_iff.mp hx
    obtain ⟨ops, ho⟩ := h.open_of_vma (List.mem_of_find?_eq_some hv)
    obtain ⟨saved, hsaved⟩ := Option.ne_none_iff_exists'.mp (hp v hv)
    have hserved := ho.trfsPageMkwrite_eq
    rw [hsaved] at hserved
    exact h.fine_map hserved

/-- Without it, the event faults. -/
theorem Sound.exec_error (h : s.Sound) (hp : ¬s.Provided e) :
    ∃ fault, s.exec e = some (.error fault) := by
  cases e with
  | mmap id file env =>
    rw [Provided] at hp
    push Not at hp
    obtain ⟨hid, hf, hmap⟩ := hp
    obtain ⟨ops, ho⟩ := h.open_of_handles hf
    refine ⟨.nullDeref, ?_⟩
    rw [exec, hid, if_neg (by decide), byHandle, if_neg hf, mmapRegion, ho.trfsMmap_error hmap]
    rfl
  | fault id =>
    rw [Provided] at hp
    push Not at hp
    obtain ⟨v, hv, hsaved⟩ := hp
    obtain ⟨ops, ho⟩ := h.open_of_vma (List.mem_of_find?_eq_some hv)
    cases hops : s.savedOps v.file with
    | none =>
      refine ⟨.bugOn, ?_⟩
      rw [exec, byVma, hv, Option.map_some, ho.trfsFault_eq, hops]
      rfl
    | some saved =>
      have hfault : saved.fault = false := by simpa using hsaved saved hops
      refine ⟨.nullDeref, ?_⟩
      rw [exec, byVma, hv, Option.map_some, ho.trfsFault_eq, hops]
      simp only [if_pos hfault]
      rfl
  | pageMkwrite id =>
    rw [Provided] at hp
    push Not at hp
    obtain ⟨v, hv, hsaved⟩ := hp
    obtain ⟨ops, ho⟩ := h.open_of_vma (List.mem_of_find?_eq_some hv)
    refine ⟨.bugOn, ?_⟩
    rw [exec, byVma, hv, Option.map_some, ho.trfsPageMkwrite_eq, hsaved]
    rfl
  | returns call ret =>
    rw [Provided] at hp
    push Not at hp
    obtain ⟨y, hy, hkind⟩ := hp
    refine ⟨.wildPtr, ?_⟩
    rw [exec, byFlight, hy, Option.bind_some, iterReturns, hkind]
  | finish call ret =>
    rw [Provided] at hp
    push Not at hp
    obtain ⟨y, hy, hkind, hrefs⟩ := hp
    have hc : s.Closed y.file := (h.files y.file).resolve_right fun ⟨ops, ho⟩ =>
      ho.refs_ne_zero hrefs
    refine ⟨.wildPtr, ?_⟩
    rw [exec, byFlight, hy, Option.bind_some, finishCall, hkind]
    simp only [derefUpper, hc.files]
    rfl
  | _ => exact absurd trivial hp

/-- An event that is safe keeps the invariant. -/
theorem Sound.of_step (h : s.Sound) (hstep : s.step e = some s') : s'.Sound := by
  obtain ⟨x, hx, hok⟩ := Option.bind_eq_some_iff.mp hstep
  by_cases hp : s.Provided e
  · obtain ⟨s'', rfl, h''⟩ := h.fine_exec hp hx
    cases hok
    exact h''
  · obtain ⟨fault, herr⟩ := h.exec_error hp
    rw [hx, Option.some_inj] at herr
    rw [herr] at hok
    cases hok

/-! ### Runs -/

/-- A run faults exactly when it maps a file whose lower file has no `mmap`, has a page fault in a
mapping for which the lower file system has left no operations, restores `ki_filp` in a request that
has already been completed, or copies attributes when its request has been completed and nothing
else refers to the file any more.  In no other order of events does an operation of trfs follow a
pointer to memory that has been freed or use a lower file that has been closed. -/
theorem runAllowed_safe_iff (es : List HandleEvent) :
    RunAllowed step Safe empty es ↔ RunAllowed step Provided empty es := by
  refine runAllowed_congr ?_ ?_ sound_empty
  · intro s e h
    constructor
    · intro hsafe
      by_contra hp
      obtain ⟨fault, herr⟩ := h.exec_error hp
      exact hsafe fault herr
    · intro hp fault hx
      obtain ⟨s', hs', -⟩ := h.fine_exec hp hx
      cases hs'
  · exact fun s e s' h _ hstep => h.of_step hstep

/-- A file is open, has its private data and its lower file as long as something refers to it, with
that many references.  A lower file has one reference of its file and one of each `iter` call inside
the lower operation whose request has not been completed, and has been closed once when its file is
gone.  Page faults go to the lower file of the mapping, with the operations of the first `mmap` that
left some. -/
structure Balanced (s : HandleState) : Prop where
  files : ∀ f, s.files f = if s.refs f = 0 then none else some ⟨some f, s.refs f⟩
  infos : ∀ f, s.infos f = if s.refs f = 0 then none else some ⟨some f, s.savedOps f⟩
  lower : ∀ f,
    (s.lower f).map LowerFile.count = if s.refs f = 0 then none else some (1 + s.pins f)
  closed : ∀ f, s.closed.count f = if s.refs f = 0 then s.opened.count f else 0
  opened : ∀ f, s.opened.count f ≤ 1
  served : ∀ v ∈ s.vmas, ∀ l saved, s.trfsFault v = .ok (l, saved) →
    l = v.file ∧ s.savedOps v.file = some saved

/-- A sound state is balanced. -/
theorem Sound.balanced (h : s.Sound) : s.Balanced where
  files f := by
    obtain hc | ⟨ops, ho⟩ := h.files f
    · rw [if_pos hc.refs, hc.files]
    · rw [if_neg ho.refs_ne_zero, ho.files]
      rfl
  infos f := by
    obtain hc | ⟨ops, ho⟩ := h.files f
    · rw [if_pos hc.refs, hc.infos]
    · rw [if_neg ho.refs_ne_zero, ho.infos]
  lower f := by
    obtain hc | ⟨ops, ho⟩ := h.files f
    · rw [if_pos hc.refs, hc.lower]
      rfl
    · rw [if_neg ho.refs_ne_zero, ho.lower]
      rfl
  closed f := by
    obtain hc | ⟨ops, ho⟩ := h.files f
    · rw [if_pos hc.refs, hc.closed]
    · rw [if_neg ho.refs_ne_zero, ho.closed]
  opened f := by
    obtain hc | ⟨ops, ho⟩ := h.files f
    · exact hc.opened
    · exact ho.opened.le
  served v hv l saved hserved := by
    obtain ⟨ops, ho⟩ := h.open_of_vma hv
    rw [ho.trfsFault_eq] at hserved
    cases hops : s.savedOps v.file with
    | none =>
      rw [hops] at hserved
      cases hserved
    | some saved' =>
      simp only [hops] at hserved
      split at hserved
      · cases hserved
      · cases hserved
        exact ⟨rfl, rfl⟩

/-- Every run leaves the files balanced. -/
theorem balanced_of_run {es : List HandleEvent} (hrun : run step empty es = some s) :
    s.Balanced :=
  (run_invariant (fun _ _ _ h _ hstep => Sound.of_step h hstep) sound_empty
    (runAllowed_of_forall (fun _ _ _ => trivial) _) hrun).balanced

/-- A lower file with all operations. -/
def fullOps : LowerOps :=
  ⟨true, true, true, true, true, true, true⟩

/-- A file is mapped, and a read of it is queued while another thread closes it.  The request is
completed in the end. -/
def closeEarly : List HandleEvent :=
  [.openFile ⟨false, true, .ok fullOps⟩,
    .mmap 0 0 ⟨vmShared ||| vmWrite, .ok (some ⟨7, true, true⟩)⟩, .iter 1 0 false, .close 0 0,
    .fault 0, .returns 1 negEIOCBQUEUED, .finish 1 0, .complete 1]

/-- The mapping is all that is left. -/
theorem balanced_closeEarly :
    ∃ s, run step empty closeEarly = some s ∧ s.Balanced ∧ s.refs 0 = 1 := by
  have hsome : ((run step empty closeEarly).map (·.refs 0)) = some 1 := by decide
  obtain ⟨s, hs, hrefs⟩ := Option.map_eq_some_iff.mp hsome
  exact ⟨s, hs, balanced_of_run hs, hrefs⟩

/-- A write is queued and completed before the lower operation has returned: the request takes the
reference to the lower file along, and `ki_filp` is restored in memory that has been freed. -/
theorem not_safe_completeEarly :
    ¬RunAllowed step Safe empty [.openFile ⟨false, true, .ok fullOps⟩, .iter 1 0 true, .complete 1,
      .returns 1 negEIOCBQUEUED] := by
  rw [runAllowed_safe_iff]
  rintro ⟨-, h⟩
  obtain ⟨-, h⟩ := h _ rfl
  obtain ⟨-, h⟩ := h _ rfl
  exact (h _ rfl).1 _ rfl rfl

end HandleState

end Handles

end Trfs
