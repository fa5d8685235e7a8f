import TraceFileSystem.Log.LargeWrites

/-!
# Paths that do not fit a page

The path of a dentry is built by `dentry_path_raw` in a page; for a path of `4096` bytes or more it
returns an error pointer.  `fill_record` takes the length of what was returned without looking at
it.

* `PathsLogged` says that the operation returns and appends a record with the full paths and their
  exact lengths.
* `Refused` is the clean way out for a path that does not fit: an error is returned, the pages are
  given back, and the log stays as it is.
* `TracedOp.DataFits` is what the data of a write have to be for the record to be one.

With pages at hand the second way is never taken, and the first one needs more than short paths:
`handlesPaths_iff`.
-/

namespace Trfs

/-- The operation returns, and has appended the record of its arguments to the log, with the full
paths and their exact lengths. -/
def PathsLogged (env : TailEnv) (op : TracedOp) (s : OpState) : Prop :=
  ∃ s' recId, op.plan.run env s = .ok (s', op.plan.ret) ∧
    let t := op.plan.tail
    let r := t.args.logRecord recId
    r.WellFormed ∧ (r.path = t.dentry.path.bytes ∧ r.hdr.pathLen.toInt = t.dentry.path.strlen) ∧
      (∀ d, t.aux = .dentry d → r.aux = d.path.bytes ∧ r.hdr.auxLen.toInt = d.path.strlen) ∧
      s'.sb.log.committed = s.sb.log.committed ++ r.frame ∧
      s'.sb.log.fPos = s.sb.log.fPos + r.frame.length

/-- `fill_record` returns an error and has given back its pages, and the operation returns with the
log left alone. -/
def Refused (env : TailEnv) (op : TracedOp) (s : OpState) : Prop :=
  ∃ k code, fillRecord env.pages s.kernel (op.plan.tail.fillArgs s.sb.umask) =
      .ok (k, .error code) ∧ code ≠ 0 ∧ k.ledger = s.kernel.ledger ∧
    ∃ s', op.plan.run env s = .ok (s', op.plan.ret) ∧ s'.sb = s.sb

/-- Paths that fit are logged, and a path that does not fit is refused. -/
def HandlesPaths (env : TailEnv) (op : TracedOp) (s : OpState) : Prop :=
  PathsLogged env op s ∨ (op.plan.tail.TooLong ∧ Refused env op s)

/-! ### Records that fit -/

/-- What the VFS passes on: a target is not empty and shorter than a page, and a write has a buffer
of as many bytes as it is to write, or NULL and none to write. -/
def TracedOp.Called : TracedOp → Prop
  | symlink _ _ _ symname _ _ => 1 ≤ symname.strlen ∧ symname.strlen ≤ 4095
  | write _ _ buf count _ =>
    (∃ data, buf = .user data ∧ data.length = count) ∨ (buf = .null ∧ count = 0)
  | _ => True

/-- The data of a write, of which as many bytes are logged as the count says modulo `2 ^ 16`: these
are some, unless the buffer is NULL, and leave room for header and path in a `short`. -/
def TracedOp.DataFits : TracedOp → Prop
  | write dentry _ buf count _ => (buf = .null ∨ ¬65536 ∣ count) ∧
      headerSize + dentry.path.strlen + count % 65536 ≤ 32767
  | _ => True

section

variable {op : TracedOp}

/-- A second path that fits a page leaves a tail in the format. -/
theorem Tail.fits_of_dentry {t : Tail} (htype : t.type = .rename ∨ t.type = .link) {d : Dentry}
    (haux : t.aux = .dentry d) (hlong : ¬t.TooLong) : t.Fits := by
  have hpath := path_le hlong
  have hle := aux_le hlong htype haux
  have hbytes : t.args.auxBytes = d.path.bytes := by
    simp [FillArgs.auxBytes, args, haux]
  refine ⟨Nat.lt_succ_of_le hpath, ?_, TracedOp.size_le_of_auxBytes hpath (hbytes ▸ hle)⟩
  rcases htype with htype | htype <;>
    simp only [FillArgs.auxOk, args, htype, RecType.ofCode?_code, haux] <;>
    exact ⟨d, rfl, Nat.lt_succ_of_le hle⟩

/-- An operation whose paths fit a page and whose data fit is within the format. -/
theorem TracedOp.Called.fits (h : op.Called) (hshort : ¬op.plan.tail.TooLong)
    (hdata : op.DataFits) : op.plan.tail.Fits := by
  have hpath := Tail.path_le hshort
  cases op with
  | link => exact Tail.fits_of_dentry (.inr rfl) rfl hshort
  | rename => exact Tail.fits_of_dentry (.inl rfl) rfl hshort
  | symlink dir parent dentry symname vfs interpose => exact fits_of_withinFormat ⟨hpath, h⟩
  | write dentry fFlags buf count vfs =>
    obtain ⟨hsome, hsize⟩ := hdata
    refine ⟨Nat.lt_succ_of_le hpath, ?_, ?_⟩
    · simp only [FillArgs.auxOk, Tail.args, plan, trfsWrite, RecType.ofCode?_code]
      rcases h with ⟨data, rfl, rfl⟩ | ⟨rfl, rfl⟩
      · exact .inl ⟨data, rfl, rfl, fun hzero =>
          (hsome.resolve_left (by simp)) (Nat.dvd_of_mod_eq_zero hzero)⟩
      · exact .inr ⟨rfl, rfl⟩
    · rw [FillArgs.length_auxLogged]
      rcases h with ⟨data, rfl, rfl⟩ | ⟨rfl, rfl⟩
      · exact hsize
      · exact hsize
  | create | unlink | mkdir | rmdir => exact fits_of_withinFormat ⟨hpath, trivial⟩

/-- As many bytes of a write are logged as the count says modulo `2 ^ 16`. -/
theorem TracedOp.Called.length_auxLogged {dentry : PosDentry} {fFlags vfs : CInt} {buf : CharPtr}
    {count : ℕ} (h : (TracedOp.write dentry fFlags buf count vfs).Called) :
    (TracedOp.write dentry fFlags buf count vfs).plan.tail.args.auxLogged.length =
      count % 65536 := by
  rw [FillArgs.length_auxLogged]
  rcases h with ⟨data, rfl, rfl⟩ | ⟨rfl, rfl⟩ <;> rfl

end

/-! ### What is logged -/

variable {env : TailEnv} {op : TracedOp} {s : OpState}

/-- A write whose count is a multiple of `2 ^ 16` does not return, if it is traced, gets its pages
and has a buffer. -/
theorem run_bugOn_of_dvd {dentry : PosDentry} (hpath : dentry.path.strlen ≤ 4095)
    (htraces : traces s.sb.umask .fwrite) (hpages : env.pages.available) {buf : CharPtr}
    (hbuf : buf ≠ .null) {count : ℕ} (hcount : 65536 ∣ count) (fFlags vfs : CInt) :
    (trfsWrite dentry fFlags buf count vfs).run env s = .error .bugOn := by
  obtain ⟨k, r, hfill, hfilled, hasserted⟩ :=
    fillRecord_of_traced hpath htraces hpages fFlags buf count vfs
  have hstops : ¬r.Asserted := fun hr => hbuf (hasserted.mp hr hcount)
  have hbug := (appendRecord_bugOn_iff hfilled s.sb k env.header env.aux).mpr hstops
  rw [Plan.run_error_iff rfl, fillAppend, hfill]
  simp only [bind, Except.bind, hbug]

/-- An operation that was logged with its full paths has paths that fit a page, data that fit, and a
tail that finds an inode and gets its pages. -/
theorem PathsLogged.fits (h : PathsLogged env op s) (htraces : traces s.sb.umask op.plan.tail.type)
    (hcalled : op.Called) :
    ¬op.plan.tail.TooLong ∧ op.DataFits ∧ env.pages.available ∧ ¬op.SymlinkFails := by
  obtain ⟨s', recId, hrun, hwf, -, -, -, hfpos⟩ := h
  have hinode : ¬op.SymlinkFails := by
    intro hfails
    rw [Plan.run_of_inode_eq_none (op.inode_eq_none_iff.mpr hfails)] at hrun
    cases hrun
  obtain ⟨i, hi⟩ := Option.ne_none_iff_exists'.mp (mt op.inode_eq_none_iff.mp hinode)
  have hpages : env.pages.available := by
    by_contra hnone
    obtain ⟨s'', hrun', hsb⟩ := Plan.run_of_untraced hi (.inr hnone)
    cases hrun.symm.trans hrun'
    have := hwf.headerSize_lt
    rw [hsb] at hfpos
    omega
  have hshort : ¬op.plan.tail.TooLong := by
    intro hlong
    rw [Plan.run_of_tooLong hi htraces hpages hlong] at hrun
    cases hrun
  refine ⟨hshort, ?_, hpages, hinode⟩
  cases op with
  | write dentry fFlags buf count vfs =>
    refine ⟨?_, ?_⟩
    · by_contra hnot
      obtain ⟨hbuf, hcount⟩ := not_or.mp hnot
      have hstop : (trfsWrite dentry fFlags buf count vfs).run env s = .error .bugOn :=
        run_bugOn_of_dvd (Tail.path_le hshort) htraces hpages hbuf (not_not.mp hcount) _ _
      cases hrun.symm.trans hstop
    · -- the size is stored in a `short`
      have hsize := hwf.recSize_eq
      have hlt := BitVec.two_mul_toInt_lt (x := ((TracedOp.write dentry fFlags buf count
        vfs).plan.tail.args.logRecord recId).hdr.recSize)
      have haux := hcalled.length_auxLogged
      change _ = (headerSize : ℤ) + dentry.path.strlen + _ at hsize
      change (_ : CShort).toInt = _ at hsize
      simp only [FillArgs.logRecord] at hsize hlt haux
      omega
  | _ => trivial

/-- A traced operation that finds its inode, and whose record fits, logs its full paths when nothing
fails. -/
theorem pathsLogged_of_works (htraces : traces s.sb.umask op.plan.tail.type)
    (hinode : ¬op.SymlinkFails) (hshort : ¬op.plan.tail.TooLong) (hfits : op.plan.tail.Fits)
    (hworks : env.Works op.plan.tail) (hpos : 0 ≤ s.sb.log.fPos) : PathsLogged env op s := by
  obtain ⟨i, hi⟩ := Option.ne_none_iff_exists'.mp (mt op.inode_eq_none_iff.mp hinode)
  obtain ⟨s', hrun, hcommitted, hfpos, -⟩ := Plan.run_of_works hi htraces hfits hworks hpos
  have hwf := FillArgs.wellFormed_logRecord hfits (s.kernel.trecordId + 1)
  refine ⟨s', s.kernel.trecordId + 1, hrun, hwf, ⟨rfl, hwf.pathLen_eq⟩, fun d hd => ?_, hcommitted,
    hfpos⟩
  have hkind : op.plan.tail.type = .link ∨ op.plan.tail.type = .rename := by
    rcases op.aux_cases with ⟨hkind, -⟩ | ⟨-, -, ptr, hptr, -⟩
    · exact hkind
    · rw [hptr] at hd
      cases hd
  have hle := Tail.aux_le hshort hkind.symm hd
  have haux : (op.plan.tail.args.logRecord (s.kernel.trecordId + 1)).aux = d.path.bytes := by
    have hbytes : op.plan.tail.args.auxBytes = d.path.bytes := by
      simp [FillArgs.auxBytes, Tail.args, hd]
    have hlen : d.path.bytes.length ≤ 4095 := hle
    simp only [FillArgs.logRecord, FillArgs.auxLogged, hbytes]
    exact List.take_of_length_le (by omega)
  exact ⟨haux, by rw [hwf.auxLen_eq, haux]; rfl⟩

/-- A negative position stops both writes of a record. -/
theorem LogRecord.logAfter_of_neg {r : LogRecord} {log : LogFile} (hneg : log.fPos < 0)
    (o₁ o₂ : WriteOutcome) : r.logAfter log o₁ o₂ = log := by
  have hwrite (o : WriteOutcome) (src : List UInt8) {count : ℤ} (hcount : 0 < count) :
      (log.writeAdvance o src count).1 = log := by
    have herr : -(o.error.code : ℤ) ≠ count := by omega
    simp [LogFile.writeAdvance, LogFile.kernelWrite, hneg, herr]
  have hhead : (0 : ℤ) < headerSize := by decide
  unfold logAfter
  rw [hwrite o₁ _ (by omega)]
  by_cases haux : r.aux = []
  · exact if_pos haux
  · have hlen := List.length_pos_iff.mpr haux
    rw [if_neg haux, hwrite o₂ _ (by exact_mod_cast hlen)]

/-- An operation that was logged has moved the position forward from where it can be written. -/
theorem PathsLogged.works (h : PathsLogged env op s) (htraces : traces s.sb.umask op.plan.tail.type)
    (hfits : op.plan.tail.Fits) (hpages : env.pages.available) (hinode : ¬op.SymlinkFails) :
    env.Works op.plan.tail ∧ 0 ≤ s.sb.log.fPos := by
  obtain ⟨s', recId, hrun, hwf, -, -, -, hfpos⟩ := h
  have hpos : 0 ≤ s.sb.log.fPos := by
    by_contra hneg
    obtain ⟨i, hi⟩ := Option.ne_none_iff_exists'.mp (mt op.inode_eq_none_iff.mp hinode)
    obtain ⟨s'', hrun', hlog, -⟩ := Plan.run_of_traced (s := s) hi htraces hpages hfits
    cases hrun.symm.trans hrun'
    rw [hlog, LogRecord.logAfter_of_neg (not_le.mp hneg)] at hfpos
    have := hwf.headerSize_lt
    omega
  exact ⟨(TracedOp.works_of_fPos htraces hfits hpos hrun hfpos).1, hpos⟩

/-- A path that does not fit a page is refused only when there are no pages: otherwise `fill_record`
does not return. -/
theorem refused_iff_of_tooLong (htraces : traces s.sb.umask op.plan.tail.type)
    (hlong : op.plan.tail.TooLong) :
    Refused env op s ↔ ¬env.pages.available ∧ ¬op.SymlinkFails := by
  constructor
  · rintro ⟨k, code, hfill, -, -, s', hrun, -⟩
    constructor
    · intro hpages
      rw [Tail.fillRecord_of_tooLong htraces hpages hlong] at hfill
      cases hfill
    · intro hfails
      rw [Plan.run_of_inode_eq_none (op.inode_eq_none_iff.mpr hfails)] at hrun
      cases hrun
  · rintro ⟨hpages, hinode⟩
    obtain ⟨i, hi⟩ := Option.ne_none_iff_exists'.mp (mt op.inode_eq_none_iff.mp hinode)
    have htype : (op.plan.tail.fillArgs s.sb.umask).type ≠ 0 := by
      rw [Tail.fillArgs_of_traces htraces]
      exact RecType.code_ne_zero _
    exact ⟨s.kernel, -eNOMEM, fillRecord_of_unavailable hpages htype s.kernel, by decide, rfl,
      Plan.run_of_untraced hi (.inr hpages)⟩

/-- **Paths that do not fit a page.**  A traced operation logs its full paths or refuses them
cleanly if and only if it is not a `symlink` that failed, and either its paths fit a page, its data
fit the format, there are pages, the writes to the log complete, and the position of the log is not
negative, or else a path does not fit and there are no pages. -/
theorem handlesPaths_iff (htraces : traces s.sb.umask op.plan.tail.type) (hcalled : op.Called) :
    HandlesPaths env op s ↔ ¬op.SymlinkFails ∧
      (¬op.plan.tail.TooLong ∧ op.DataFits ∧ env.Works op.plan.tail ∧ 0 ≤ s.sb.log.fPos ∨
        op.plan.tail.TooLong ∧ ¬env.pages.available) := by
  constructor
  · rintro (hlogged | ⟨hlong, hrefused⟩)
    · obtain ⟨hshort, hdata, hpages, hinode⟩ := hlogged.fits htraces hcalled
      obtain ⟨hworks, hpos⟩ :=
        hlogged.works htraces (hcalled.fits hshort hdata) hpages hinode
      exact ⟨hinode, .inl ⟨hshort, hdata, hworks, hpos⟩⟩
    · obtain ⟨hpages, hinode⟩ := (refused_iff_of_tooLong htraces hlong).mp hrefused
      exact ⟨hinode, .inr ⟨hlong, hpages⟩⟩
  · rintro ⟨hinode, ⟨hshort, hdata, hworks, hpos⟩ | ⟨hlong, hpages⟩⟩
    · have hfits := hcalled.fits hshort hdata
      exact .inl (pathsLogged_of_works htraces hinode hshort hfits hworks hpos)
    · exact .inr ⟨hlong, (refused_iff_of_tooLong htraces hlong).mpr ⟨hpages, hinode⟩⟩

/-- The path of a directory `/a/a/…/a` of the given depth. -/
def deepPath (depth : ℕ) : CString where
  bytes := (List.replicate depth [47, 97]).flatten
  noNul := by
    intro h
    obtain ⟨name, hname, hmem⟩ := List.mem_flatten.mp h
    rw [List.eq_of_mem_replicate hname] at hmem
    exact absurd hmem (by decide)

/-- A path of depth `n` has `2 * n` bytes. -/
theorem strlen_deepPath (depth : ℕ) : (deepPath depth).strlen = 2 * depth := by
  simp [CString.strlen, deepPath, mul_comm]

/-- The dentry of a directory that is nested once more than the given depth. -/
def deepDentry (depth : ℕ) : Dentry where
  path := deepPath (depth + 1)
  path_ne := by simp [deepPath, List.replicate_succ]

/-- A directory is renamed from a depth for which its path fits a page to another one. -/
def deepRename : TracedOp :=
  .rename 0 1 ⟨deepDentry 2046, ⟨0⟩⟩ (deepDentry 2045) .none 0

/-- Both paths are logged. -/
theorem handlesPaths_shallow : HandlesPaths .working deepRename .mounted := by
  have hshort : ¬deepRename.plan.tail.TooLong := by
    rintro (hlong | ⟨-, d, ⟨⟩, hlong⟩)
    · exact absurd ((strlen_deepPath 2047).symm.trans_ge hlong) (by decide)
    · exact absurd ((strlen_deepPath 2046).symm.trans_ge hlong) (by decide)
  have hworks : TailEnv.working.Works deepRename.plan.tail := ⟨by decide, rfl, .inr rfl⟩
  have htraces : traces OpState.mounted.sb.umask RecType.rename := by decide
  have hcalled : deepRename.Called := trivial
  exact (handlesPaths_iff htraces hcalled).mpr ⟨id, .inl ⟨hshort, trivial, hworks, le_rfl⟩⟩

/-- A directory whose path is one level too deep is neither logged nor refused. -/
theorem not_handlesPaths_deep :
    ¬HandlesPaths .working (.mkdir ⟨0⟩ 0 (deepDentry 2047) 0 0 0) .mounted ∧
      (TracedOp.mkdir ⟨0⟩ 0 (deepDentry 2047) 0 0 0).plan.run .working .mounted =
        .error .errPtrDeref := by
  have hlong : (TracedOp.mkdir ⟨0⟩ 0 (deepDentry 2047) 0 0 0).plan.tail.TooLong :=
    .inl (strlen_deepPath 2048).ge
  have htraces : traces OpState.mounted.sb.umask RecType.dcreat := by decide
  have hpages : TailEnv.working.pages.available := by decide
  refine ⟨?_, Plan.run_of_tooLong rfl htraces hpages hlong⟩
  rintro (hlogged | ⟨-, hrefused⟩)
  · exact (hlogged.fits htraces trivial).1 hlong
  · exact ((refused_iff_of_tooLong htraces hlong).mp hrefused).1 hpages

end Trfs
