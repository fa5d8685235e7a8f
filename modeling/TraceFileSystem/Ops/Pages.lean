import TraceFileSystem.Lib.Machine
import TraceFileSystem.Ops.TracedOps

/-!
# Pages of the logging tails

`fill_record` takes two pages, one for each path.  It gives them back when it fails itself;
otherwise `append_record` frees the pointer to the path and, depending on the record type and on
`aux_len`, the pointer to the auxiliary data.  The second page is freed only through that pointer.

* `Kernel.ledger` are the pages handed out and not yet freed, `Kernel.strayFrees` the pointers freed
  that do not lead into them.
* `pageStep` runs the pair of calls of one operation, or changes the mask, as the `ioctl` does at
  any time.
* `Settles` is the balance of one pair: afterwards the ledger is the same, and nothing else was
  freed.

Only `link` and `rename` point `aux` into the second page.  All other records that are built leave
the second page in the ledger, and the one of a `symlink` frees the string of the VFS in its place:
`pages_settle_iff` is the balance of whole runs.
-/

namespace Trfs

open LabelledSystem

/-! ### What `append_record` frees -/

/-- The kernel after `append_record` has freed what it frees for a record. -/
def TrRecord.freed (r : TrRecord) (k : Kernel) : Kernel :=
  if r.auxLen = 0 ∨ RecType.ofCode? r.type = some .fwrite then k.freePage r.pathname
  else (k.freePage r.pathname).freePage r.aux

/-- Whatever the writes do, a call of `append_record` that returns frees the same pointers. -/
theorem kernel_of_appendRecord {sb sb' : SbInfo} {k k' : Kernel} {r : TrRecord}
    {o₁ o₂ : WriteOutcome} {ret : ℤ} (h : appendRecord sb k r o₁ o₂ = .ok (sb', k', ret)) :
    k' = r.freed k := by
  simp only [appendRecord, bind, Except.bind] at h
  split at h
  · cases h
  next v hheader =>
    have hfirst : v.2.1 = k.freePage r.pathname := by
      unfold appendHeader at hheader
      dsimp only at hheader
      split at hheader
      · cases hheader
      · split at hheader
        · cases hheader
        · cases hheader
          rfl
    unfold appendAux at h
    unfold TrRecord.freed
    split at h
    next haux =>
      rw [if_pos (.inl haux), ← hfirst]
      split at h
      · cases h
      · cases h
        rfl
    next haux =>
      rw [← hfirst]
      cases h
      simp only [haux, false_or]

/-- Freeing a pointer into a page of the ledger takes the page out. -/
theorem Kernel.freePage_of_mem {k : Kernel} {id : ℕ} (h : id ∈ k.ledger) (str : CString) :
    k.freePage (.page id str) = { k with ledger := k.ledger.erase id } := by
  simp only [freePage, if_pos h]

/-- Taking out the second page of a ledger. -/
theorem erase_second (a p : ℕ) (ledger : List ℕ) : (a :: p :: ledger).erase p = a :: ledger := by
  by_cases h : a = p
  · rw [h, List.erase_cons_head]
  · rw [List.erase_cons_tail (by simpa using h), List.erase_cons_head]

/-! ### One pair -/

/-- A traced operation with its environment, or a change of the mask by the `ioctl`. -/
inductive PageEvent where
  | op (op : TracedOp) (env : TailEnv)
  | setBmap (umask : BitVec 64)

/-- The calls of `fill_record` and `append_record` in the tail of an operation. -/
def TracedOp.pair (op : TracedOp) (env : TailEnv) (s : SbInfo × Kernel) :
    Except Fault (SbInfo × Kernel) :=
  fillAppend env.pages s.1 s.2 (op.plan.tail.fillArgs s.1.umask) env.header env.aux

/-- An event.  The tail of a failed `symlink` does not get to the calls; a tail that is stopped in
one of them keeps `trfs_lock`, and no other tail runs after it. -/
def pageStep (s : SbInfo × Kernel) : PageEvent → Option (SbInfo × Kernel)
  | .op op env =>
    match op.plan.tail.inode with
    | none => some s
    | some _ => (op.pair env s).toOption
  | .setBmap umask => some ({ s.1 with umask := umask }, s.2)

/-- The pair of calls, if it is made, returns, leaves the ledger as it was and frees nothing that is
not in the ledger. -/
def Settles (s : SbInfo × Kernel) : PageEvent → Prop
  | .op op env => op.plan.tail.inode ≠ none → ∃ sb k, op.pair env s = .ok (sb, k) ∧
      k.ledger = s.2.ledger ∧ k.strayFrees = s.2.strayFrees
  | .setBmap _ => True

/-- The tail of the operation builds no record, or it is the one of a `link` or a `rename` whose
paths fit a page. -/
def Frees (s : SbInfo × Kernel) : PageEvent → Prop
  | .op op env => op.SymlinkFails ∨ ¬traces s.1.umask op.plan.tail.type ∨ ¬env.pages.available ∨
      ((op.plan.tail.type = .link ∨ op.plan.tail.type = .rename) ∧ ¬op.plan.tail.TooLong)
  | .setBmap _ => True

section

variable {op : TracedOp} {env : TailEnv} {s : SbInfo × Kernel}

/-- The kernel after a pair that has built a record and returned. -/
theorem kernel_of_pair {k' : Kernel} {r : TrRecord}
    (hfill : fillRecord env.pages s.2 (op.plan.tail.fillArgs s.1.umask) = .ok (k', .ok r))
    {sb : SbInfo} {k : Kernel} (h : op.pair env s = .ok (sb, k)) : k = r.freed k' := by
  rw [TracedOp.pair, fillAppend, hfill] at h
  simp only [bind, Except.bind] at h
  split at h
  · cases h
  · next v happend =>
    cases h
    exact kernel_of_appendRecord happend

/-- The second page of a record that does not point into it stays in the ledger. -/
theorem TrRecord.ledger_freed {r : TrRecord} {p : ℕ} {str : CString}
    (hpath : r.pathname = .page p str)
    (haux : RecType.ofCode? r.type = some .fwrite ∨ ∀ id str, r.aux ≠ .page id str) {k : Kernel}
    {a : ℕ} {ledger : List ℕ} (hk : k.ledger = a :: p :: ledger) :
    (r.freed k).ledger = a :: ledger := by
  have hfirst : (k.freePage r.pathname).ledger = a :: ledger := by
    rw [hpath, Kernel.freePage_of_mem (by simp [hk]), hk, erase_second]
  unfold freed
  split
  · exact hfirst
  · next h =>
    rw [← hfirst]
    cases hptr : r.aux with
    | page id str => exact absurd hptr (haux.resolve_left (fun hw => h (.inr hw)) id str)
    | _ => rfl

/-- Both pages of a record that points into both are given back. -/
theorem TrRecord.freed_eq {r : TrRecord} {p a : ℕ} {str str' : CString}
    (hpath : r.pathname = .page p str) (haux : r.aux = .page a str') (hlen : r.auxLen ≠ 0)
    (htype : RecType.ofCode? r.type ≠ some .fwrite) {k : Kernel} {ledger : List ℕ}
    (hk : k.ledger = a :: p :: ledger) : r.freed k = { k with ledger := ledger } := by
  have hfirst : k.freePage r.pathname = { k with ledger := a :: ledger } := by
    rw [hpath, Kernel.freePage_of_mem (by simp [hk]), hk, erase_second]
  rw [freed, if_neg (not_or.mpr ⟨hlen, htype⟩), hfirst, haux, Kernel.freePage_of_mem (by simp),
    List.erase_cons_head]

/-- A pair for a `link` or a `rename` settles. -/
theorem settles_of_dentry (htraces : traces s.1.umask op.plan.tail.type)
    (hpages : env.pages.available) {d : Dentry} (hd : op.plan.tail.aux = .dentry d)
    (hkind : op.plan.tail.type = .link ∨ op.plan.tail.type = .rename)
    (hshort : ¬op.plan.tail.TooLong) : Settles s (.op op env) := by
  intro hinode
  obtain ⟨p, a, hfill⟩ := TracedOp.exists_fillRecord htraces hpages hshort s.2
  let r := op.plan.tail.record (s.2.trecordId + 1) p a
  let k : Kernel := { s.2 with trecordId := s.2.trecordId + 1, ledger := a :: p :: s.2.ledger }
  have hlen : r.auxLen ≠ 0 := by
    have hle := Tail.aux_le hshort hkind.symm hd
    have hpos := List.length_pos_iff.mpr d.path_ne
    have hstored : r.auxLen = BitVec.ofNat 16 d.path.strlen := by
      simp only [r, Tail.record, TrRecord.withAux, Tail.storedLen, hd]
    rw [hstored, Ne, LittleEndian.ofNat_sixteen_eq_zero_iff]
    intro hdvd
    exact absurd (Nat.le_of_dvd hpos hdvd) (by unfold CString.strlen at hle; omega)
  have hfilled : r.Filled := Tail.filled_record hshort _ _ _
  obtain ⟨sb, k', ret, happend⟩ :=
    hfilled.exists_appendRecord rfl (fun h => absurd h hlen) s.1 k env.header env.aux
  have hpair : op.pair env s = .ok (sb, k') := by
    rw [TracedOp.pair, fillAppend, hfill]
    simp only [bind, Except.bind]
    rw [happend]
  refine ⟨sb, k', hpair, ?_⟩
  have htype : RecType.ofCode? r.type ≠ some .fwrite := by
    have hcode : RecType.ofCode? r.type = some op.plan.tail.type := RecType.ofCode?_code _
    rw [hcode]
    rcases hkind with hkind | hkind <;> simp [hkind]
  have haux : r.aux = .page a d.path := by
    simp only [r, Tail.record, TrRecord.withAux, FillArgs.auxPtr, Tail.args, hd]
  have hfreed := TrRecord.freed_eq (k := k) rfl haux hlen htype rfl
  rw [kernel_of_appendRecord happend, hfreed]
  exact ⟨rfl, rfl⟩

/-- A pair for any other record does not settle: if it returns, the second page is left. -/
theorem not_settles_of_chars (htraces : traces s.1.umask op.plan.tail.type)
    (hpages : env.pages.available) (hinode : ¬op.SymlinkFails) {ptr : CharPtr}
    (hptr : op.plan.tail.aux = .chars ptr)
    (hpage : op.plan.tail.type = .fwrite ∨ ∀ id str, ptr ≠ .page id str)
    (hshort : ¬op.plan.tail.TooLong) : ¬Settles s (.op op env) := by
  intro hsettles
  obtain ⟨p, a, hfill⟩ := TracedOp.exists_fillRecord htraces hpages hshort s.2
  obtain ⟨sb, k, hpair, hledger, -⟩ := hsettles (mt op.inode_eq_none_iff.mp hinode)
  let r := op.plan.tail.record (s.2.trecordId + 1) p a
  have hcode : RecType.ofCode? r.type = some op.plan.tail.type := RecType.ofCode?_code _
  have haux : RecType.ofCode? r.type = some .fwrite ∨ ∀ id str, r.aux ≠ .page id str := by
    have hr : r.aux = ptr := by
      simp only [r, Tail.record, TrRecord.withAux, FillArgs.auxPtr, Tail.args, hptr]
    rw [hcode, hr]
    exact hpage.imp_left fun h => by rw [h]
  rw [kernel_of_pair hfill hpair, TrRecord.ledger_freed rfl haux rfl] at hledger
  exact absurd (congrArg List.length hledger) (by simp)

/-- A pair that gets a path that is too long does not settle, since it does not return. -/
theorem not_settles_of_tooLong (htraces : traces s.1.umask op.plan.tail.type)
    (hpages : env.pages.available) (hinode : ¬op.SymlinkFails) (hlong : op.plan.tail.TooLong) :
    ¬Settles s (.op op env) := by
  intro hsettles
  obtain ⟨sb, k, hpair, -⟩ := hsettles (mt op.inode_eq_none_iff.mp hinode)
  rw [TracedOp.pair, fillAppend, Tail.fillRecord_of_tooLong htraces hpages hlong] at hpair
  cases hpair

/-- One event: it settles exactly if it builds no record or frees both pages. -/
theorem settles_iff_frees (s : SbInfo × Kernel) (e : PageEvent) : Settles s e ↔ Frees s e := by
  cases e with
  | setBmap umask => exact Iff.rfl
  | op op env =>
    by_cases hfails : op.SymlinkFails
    · exact iff_of_true (fun h => absurd (op.inode_eq_none_iff.mpr hfails) h) (.inl hfails)
    by_cases h : ¬traces s.1.umask op.plan.tail.type ∨ ¬env.pages.available
    · refine iff_of_true (fun _ => ⟨s.1, s.2, Tail.fillAppend_of_untraced h s.2, rfl, rfl⟩) ?_
      exact .inr (or_assoc.mp (.inl h))
    obtain ⟨htraces, hpages⟩ := not_or.mp h
    rw [not_not] at htraces hpages
    simp only [Frees, hfails, htraces, hpages, not_true_eq_false, false_or]
    by_cases hlong : op.plan.tail.TooLong
    · exact iff_of_false (not_settles_of_tooLong htraces hpages hfails hlong) fun hf => hf.2 hlong
    obtain ⟨hkind, d, hd⟩ | ⟨hlink, hrename, ptr, hptr, hpage⟩ := op.aux_cases
    · exact iff_of_true (settles_of_dentry htraces hpages hd hkind hlong) ⟨hkind, hlong⟩
    · refine iff_of_false (not_settles_of_chars htraces hpages hfails hptr hpage hlong) ?_
      rintro ⟨hkind | hkind, -⟩
      · exact hlink hkind
      · exact hrename hkind

end

/-- **Pages.**  In every run, from any state, every pair of calls leaves the ledger as it was and
frees nothing outside it if and only if every pair that builds a record is the one of a `link` or a
`rename` with paths that fit a page. -/
theorem pages_settle_iff (s : SbInfo × Kernel) (events : List PageEvent) :
    RunAllowed pageStep Settles s events ↔ RunAllowed pageStep Frees s events :=
  runAllowed_congr (fun s e (_ : True) => settles_iff_frees s e) (fun _ _ _ _ _ _ => trivial)
    trivial

/-- The superblock and the kernel of a new mount. -/
def newMount : SbInfo × Kernel :=
  (.mounted [], ⟨-1, [], []⟩)

/-- A `symlink` to `u` at `/l` that succeeds. -/
def symlinkU : TracedOp :=
  .symlink ⟨0⟩ 0 dentryL ⟨[117], by decide⟩ 0 0

/-- The first `unlink` of a new mount leaves a page in the ledger.  The first `symlink` does so too,
and it frees the target string. -/
theorem not_settles_unlink_symlink :
    ¬RunAllowed pageStep Settles newMount
        [.op (.unlink ⟨0⟩ 0 ⟨dentryL, ⟨0⟩⟩ 0 false) .working] ∧
      ¬RunAllowed pageStep Settles newMount [.op symlinkU .working] ∧
      ∃ sb, symlinkU.pair .working newMount = .ok (sb, ⟨0, [1], [.vfs ⟨[117], by decide⟩]⟩) := by
  have hpages : TailEnv.working.pages.available := by decide
  refine ⟨fun h => ?_, fun h => ?_, _, rfl⟩
  · exact not_settles_of_chars (by decide) hpages id rfl (.inr (by simp))
      (Tail.not_tooLong (by decide) (by decide)) h.1
  · have hfails : ¬symlinkU.SymlinkFails := by simp [TracedOp.SymlinkFails, symlinkU]
    exact not_settles_of_chars (by decide) hpages hfails rfl
      (.inr (by simp)) (Tail.not_tooLong (by decide) (by decide)) h.1

end Trfs
