import TraceFileSystem.Lib.Machine
import TraceFileSystem.Log.WriteSizes
import TraceFileSystem.Ops.TracedOps

/-!
# What large writes do to `append_record`

A write of any size gets to `append_record` with a length of sixteen bits.  Two things depend on
that length there: an assertion that a record of length zero has no data, and a comparison of the
length with what `kernel_write` returned.

* `rec_size_common` is the size of the header for every write (`TrRecord.Filled.common_eq`), so the
  first assertion holds.  The second one fails for the counts that are zero modulo `2 ^ 16`:
  `writeAsserted_iff`.
* A length that is negative as a `short` makes `kernel_write` fail, and the value returned can be
  the length itself.  Then the position moves back; `advances_iff` shows that this is the only way
  for it not to move by what was written.
-/

namespace Trfs

open LittleEndian ByteStore LabelledSystem

/-! ### Assertions -/

/-- Neither of the two conditions that `append_record` asserts of a record fails. -/
structure TrRecord.Asserted (r : TrRecord) : Prop where
  common_pos : 0 < (BitVec.ofInt 16
    (r.recSize.toInt - r.pathLen.toInt - r.auxLen.toInt) : CShort).toInt
  aux_null : r.auxLen = 0 → r.aux = .null

/-- Both conditions hold of the record that `fill_record` builds for a write, if it builds one. -/
def WriteAsserted (env : TailEnv) (s : OpState) (d : PosDentry) (fFlags : CInt) (buf : CharPtr)
    (count : ℕ) (vfs : CInt) : Prop :=
  ∀ k r, fillRecord env.pages s.kernel
      ((trfsWrite d fFlags buf count vfs).tail.fillArgs s.sb.umask) = .ok (k, .ok r) → r.Asserted

/-- The first assertion holds of every record with a size. -/
theorem TrRecord.Filled.asserted_iff {r : TrRecord} (hr : r.Filled)
    (hsize : r.recSize = recordSizeAux r.pathLen r.auxLen) :
    r.Asserted ↔ (r.auxLen = 0 → r.aux = .null) := by
  refine ⟨fun h => h.aux_null, fun h => ⟨?_, h⟩⟩
  rw [hr.common_eq hsize]
  decide

/-- `append_record` stops at an assertion exactly if one of the conditions fails. -/
theorem appendRecord_bugOn_iff {r : TrRecord} (hr : r.Filled) (sb : SbInfo) (k : Kernel)
    (o₁ o₂ : WriteOutcome) : appendRecord sb k r o₁ o₂ = .error .bugOn ↔ ¬r.Asserted := by
  rcases hr.sized with hsize | hsize
  · rw [hr.asserted_iff hsize, appendRecord,
      appendHeader_of_common hr.pathname_ne (hr.common_eq hsize)]
    simp only [bind, Except.bind, appendAux]
    by_cases hzero : r.auxLen = 0
    · rw [if_pos hzero]
      by_cases hnull : r.aux = .null
      · simp [hnull]
      · simp [hnull, hzero]
    · rw [if_neg hzero]
      simp only [reduceCtorEq, false_iff, not_not]
      exact fun h => absurd h hzero
  · have hcommon := hr.common_le hsize
    simp only [appendRecord, appendHeader, hcommon, if_true, bind, Except.bind, true_iff]
    exact fun h => absurd h.common_pos (not_lt.mpr hcommon)

section WriteAsserted

variable {env : TailEnv} {s : OpState} {d : PosDentry}

/-- The record of a write that is traced and gets its pages. -/
theorem fillRecord_of_traced (hpath : d.path.strlen ≤ 4095) (htraces : traces s.sb.umask .fwrite)
    (hpages : env.pages.available) (fFlags : CInt) (buf : CharPtr) (count : ℕ) (vfs : CInt) :
    ∃ k r, fillRecord env.pages s.kernel
        ((trfsWrite d fFlags buf count vfs).tail.fillArgs s.sb.umask) = .ok (k, .ok r) ∧
      r.Filled ∧ (r.Asserted ↔ (65536 ∣ count → buf = .null)) := by
  have hkind : RecType.fwrite ≠ .rename ∧ RecType.fwrite ≠ .link := by decide
  have hshort : ¬(TracedOp.write d fFlags buf count vfs).plan.tail.TooLong :=
    Tail.not_tooLong hpath hkind
  obtain ⟨pathPage, auxPage, hfill⟩ := TracedOp.exists_fillRecord htraces hpages hshort s.kernel
  have hfilled := Tail.filled_record hshort (s.kernel.trecordId + 1) pathPage auxPage
  refine ⟨_, _, hfill, hfilled, ?_⟩
  have hlen : (BitVec.ofNat 32 count).setWidth 16 = BitVec.ofNat 16 count :=
    BitVec.setWidth_ofNat_of_le (by norm_num) count
  rw [hfilled.asserted_iff rfl, ← ofNat_sixteen_eq_zero_iff, ← hlen]
  rfl

/-- **The assertions of `append_record`.**  For a write from a user buffer of any size, with any
mask, the assertions hold if and only if the write is not traced, gets no pages, or has a count that
is not a multiple of `2 ^ 16`; and when they do not hold, `trfs_write` is stopped. -/
theorem writeAsserted_iff (hpath : d.path.strlen ≤ 4095) (fFlags : CInt) (buf : List UInt8)
    (count : ℕ) (vfs : CInt) :
    (WriteAsserted env s d fFlags (.user buf) count vfs ↔
      ¬(traces s.sb.umask .fwrite ∧ env.pages.available ∧ 65536 ∣ count)) ∧
    ((trfsWrite d fFlags (.user buf) count vfs).run env s = .error .bugOn ↔
      ¬WriteAsserted env s d fFlags (.user buf) count vfs) := by
  rw [Plan.run_error_iff (p := trfsWrite d fFlags (.user buf) count vfs) rfl]
  by_cases h : traces s.sb.umask .fwrite ∧ env.pages.available
  · obtain ⟨k, r, hfill, hfilled, hasserted⟩ :=
      fillRecord_of_traced hpath h.1 h.2 fFlags (.user buf) count vfs
    have hiff : WriteAsserted env s d fFlags (.user buf) count vfs ↔ r.Asserted := by
      refine ⟨fun hall => hall k r hfill, fun hr k' r' hfill' => ?_⟩
      rw [hfill] at hfill'
      cases hfill'
      exact hr
    refine ⟨?_, ?_⟩
    · rw [hiff, hasserted]
      simp [h]
    · rw [hiff, ← appendRecord_bugOn_iff hfilled s.sb k env.header env.aux, fillAppend, hfill]
      simp only [bind, Except.bind]
      cases appendRecord s.sb k r env.header env.aux with
      | ok res => simp
      | error f => simp
  · -- `fill_record` builds no record
    have hasserted : WriteAsserted env s d fFlags (.user buf) count vfs := by
      intro k r hfill
      obtain ⟨htype, hpages⟩ := available_of_fillRecord hfill
      refine absurd ⟨?_, hpages⟩ h
      by_contra htraces
      exact htype (Tail.type_fillArgs_of_not_traces htraces)
    rw [Tail.fillAppend_of_untraced (t := (trfsWrite d fFlags (.user buf) count vfs).tail)
      (not_and_or.mp h)]
    refine ⟨⟨fun _ hall => h ⟨hall.1, hall.2.1⟩, fun _ => hasserted⟩, ?_⟩
    simp [hasserted]

end WriteAsserted

/-- The file `/l` of the mount with number zero. -/
def fileL : PosDentry where
  toDentry := dentryL
  inode := ⟨0⟩

/-- The assertions hold for a write of three bytes. -/
theorem writeAsserted_three :
    WriteAsserted .working .mounted fileL 1 (.user [97, 98, 99]) 3 3 :=
  (writeAsserted_iff (by decide) 1 [97, 98, 99] 3 3).1.mpr fun h => absurd h.2.2 (by decide)

/-- A write of no bytes from a user buffer fails an assertion, and so does one of `65536`. -/
theorem not_writeAsserted_zero :
    ¬WriteAsserted .working .mounted fileL 1 (.user []) 0 0 ∧
    ¬WriteAsserted .working .mounted fileL 1 (.user (List.replicate 65536 0)) 65536 65536 ∧
    (trfsWrite fileL 1 (.user []) 0 0).run .working .mounted = .error .bugOn := by
  have hpath : fileL.path.strlen ≤ 4095 := by decide
  have htraced : traces OpState.mounted.sb.umask .fwrite ∧ TailEnv.working.pages.available := by
    decide
  have hfails (buf : List UInt8) (count : ℕ) (vfs : CInt) (h : 65536 ∣ count) :
      ¬WriteAsserted .working .mounted fileL 1 (.user buf) count vfs := by
    intro hall
    obtain ⟨k, r, hfill, -, hiff⟩ :=
      fillRecord_of_traced hpath htraced.1 htraced.2 1 (.user buf) count vfs
    exact absurd (hiff.mp (hall k r hfill) h) (by simp)
  exact ⟨hfails _ 0 0 (dvd_zero _), hfails _ 65536 65536 (dvd_refl _), by decide⟩

/-! ### The position -/

/-- A call of `append_record` on a record that `fill_record` produced, for any arguments, and the
outcomes of its two writes. -/
structure LogCall where
  record : TrRecord
  header : WriteOutcome
  aux : WriteOutcome
  produced : ∃ env k k' a, fillRecord env k a = .ok (k', .ok record)

/-- A call of `append_record` as a step on the superblock and the kernel; a call that is stopped by
an assertion leads nowhere. -/
def appendStep (s : SbInfo × Kernel) (c : LogCall) : Option (SbInfo × Kernel) :=
  match appendRecord s.1 s.2 c.record c.header c.aux with
  | .ok (sb, k, _) => some (sb, k)
  | .error _ => none

/-- The bytes that a call of `kernel_write` has written when it completed in full, and zero
otherwise. -/
def LogFile.fullBytes (log : LogFile) (o : WriteOutcome) (src : List UInt8) (count : ℤ) : ℤ :=
  if 0 ≤ count ∧ (log.kernelWrite o src count).2 = count then count else 0

/-- The bytes that the two writes of a call have written in full. -/
def LogCall.fullBytes (c : LogCall) (sb : SbInfo) : ℤ :=
  let r := c.record
  let count := r.recSize.toInt - r.auxLen.toInt
  let log := (sb.log.writeAdvance c.header (r.staged sb.trPage) count).1
  sb.log.fullBytes c.header (r.staged sb.trPage) count +
    log.fullBytes c.aux r.aux.bytes r.auxLen.toInt

/-- The position moves by the bytes written in full, and not back. -/
def Advances (s : SbInfo × Kernel) (c : LogCall) : Prop :=
  ∀ s', appendStep s c = some s' →
    s'.1.log.fPos = s.1.log.fPos + c.fullBytes s.1 ∧ s.1.log.fPos ≤ s'.1.log.fPos

/-- The value that the second `kernel_write` returns when it fails is not the length of the data. -/
def LogCall.ErrnoApart (c : LogCall) : Prop :=
  c.record.auxLen.toInt ≠ -(c.aux.error.code : ℤ)

namespace LogFile

/-- No bytes are written in full, or some. -/
theorem fullBytes_nonneg (log : LogFile) (o : WriteOutcome) (src : List UInt8) (count : ℤ) :
    0 ≤ log.fullBytes o src count := by
  unfold fullBytes
  split
  · next h => exact h.1
  · exact le_rfl

/-- The position moves by the bytes written in full, unless the count is the error returned. -/
theorem fPos_writeAdvance_iff (log : LogFile) (o : WriteOutcome) (src : List UInt8) (count : ℤ) :
    (log.writeAdvance o src count).1.fPos = log.fPos + log.fullBytes o src count ↔
      count ≠ -(o.error.code : ℤ) := by
  have hpos := o.error.pos
  have hsame : (log.kernelWrite o src count).1.fPos = log.fPos := by
    unfold kernelWrite
    split
    · rfl
    · cases o <;> rfl
  by_cases hcount : 0 ≤ count
  · -- the value returned decides both whether the position moves and whether bytes are counted
    have hne : count ≠ -(o.error.code : ℤ) := by omega
    refine iff_of_true ?_ hne
    by_cases hret : (log.kernelWrite o src count).2 = count
    · simp [writeAdvance, fullBytes, hret, hcount, hsame]
    · simp [writeAdvance, fullBytes, hret, hsame]
  · have hwrite : log.kernelWrite o src count = (log, -(o.error.code : ℤ)) := by
      unfold kernelWrite
      rw [if_pos (.inl (not_le.mp hcount))]
    have hbytes : log.fullBytes o src count = 0 := by
      rw [fullBytes, if_neg fun h => hcount h.1]
    rw [hbytes, add_zero]
    by_cases hret : count = -(o.error.code : ℤ)
    · simp only [writeAdvance, hwrite, ← hret, ne_eq, not_true_eq_false, if_false, iff_false]
      omega
    · simp [writeAdvance, hwrite, Ne.symm hret, hret]

end LogFile

/-- The record of a call is filled. -/
theorem LogCall.filled (c : LogCall) : c.record.Filled := by
  obtain ⟨env, k, k', a, hfill⟩ := c.produced
  obtain ⟨k₁, code, hrefused, -⟩ | ⟨fault, hfault⟩ | ⟨k₁, r, hok, -, -, hr⟩ :=
    fillRecord_cases env k a
  · rw [hrefused] at hfill
    cases hfill
  · rw [hfault] at hfill
    cases hfill
  · rw [hok] at hfill
    cases hfill
    exact hr

/-- The first write moves the position by what it has written: its count is too far from zero to be
an error. -/
theorem TrRecord.Filled.fPos_header {r : TrRecord} (hr : r.Filled)
    (hsize : r.recSize = recordSizeAux r.pathLen r.auxLen) (log : LogFile) (o : WriteOutcome)
    (src : List UInt8) :
    (log.writeAdvance o src (r.recSize.toInt - r.auxLen.toInt)).1.fPos =
      log.fPos + log.fullBytes o src (r.recSize.toInt - r.auxLen.toInt) := by
  rw [LogFile.fPos_writeAdvance_iff]
  have hpos := o.error.pos
  have hle := o.error.le
  have hlt : r.pathname.bytes.length < 4096 := hr.path_lt
  have hhead : headerSize = 32 := rfl
  rcases hr.headerCount_cases hsize with hcount | hcount <;> omega

/-- The log after a call that makes both of its writes. -/
def LogCall.logAfter (c : LogCall) (sb : SbInfo) : LogFile :=
  ((sb.log.writeAdvance c.header (c.record.staged sb.trPage)
    (c.record.recSize.toInt - c.record.auxLen.toInt)).1.writeAdvance c.aux c.record.aux.bytes
      c.record.auxLen.toInt).1

/-- A call that returns is about a record with a size. -/
theorem LogCall.sized_of_appendStep (c : LogCall) {s s' : SbInfo × Kernel}
    (h : appendStep s c = some s') :
    c.record.recSize = recordSizeAux c.record.pathLen c.record.auxLen := by
  have hr := c.filled
  refine hr.sized.resolve_right fun hsize => ?_
  simp only [appendStep, appendRecord, Trfs.appendHeader, hr.common_le hsize, if_true, bind,
    Except.bind] at h
  cases h

/-- A call that returns leaves the position behind that two writes leave behind; without data there
is no second write, and a write of no bytes does not move the position either. -/
theorem LogCall.fPos_appendStep (c : LogCall) {s s' : SbInfo × Kernel}
    (h : appendStep s c = some s') : s'.1.log.fPos = (c.logAfter s.1).fPos := by
  have hr := c.filled
  have hcommon := hr.common_eq (c.sized_of_appendStep h)
  rw [appendStep, appendRecord, appendHeader_of_common hr.pathname_ne hcommon] at h
  simp only [bind, Except.bind, appendAux] at h
  by_cases haux : c.record.auxLen = 0
  · rw [if_pos haux] at h
    by_cases hnull : c.record.aux = .null
    · rw [if_neg (not_not.mpr hnull)] at h
      cases h
      have hlen : c.record.auxLen.toInt = 0 := by rw [haux]; rfl
      rw [logAfter, hlen]
      rcases LogFile.fPos_writeAdvance _ c.aux c.record.aux.bytes 0 with hmove | hmove
      · exact hmove.symm
      · rw [hmove, add_zero]
    · rw [if_pos hnull] at h
      cases h
  · rw [if_neg haux] at h
    cases h
    rfl

/-- A call on a record with data returns. -/
theorem LogCall.exists_appendStep (c : LogCall) (haux : c.record.auxLen ≠ 0) (s : SbInfo × Kernel) :
    ∃ s', appendStep s c = some s' := by
  have hsize := c.filled.sized.resolve_right fun h => haux h.2
  obtain ⟨sb, k, ret, happend⟩ :=
    c.filled.exists_appendRecord hsize (fun h => absurd h haux) s.1 s.2 c.header c.aux
  exact ⟨(sb, k), by rw [appendStep, happend]⟩

/-- One call: the position moves by what was written exactly if the error that the second write
would return is not the length. -/
theorem LogCall.advances_iff_errnoApart (c : LogCall) (s : SbInfo × Kernel) :
    Advances s c ↔ c.ErrnoApart := by
  have hiff := LogFile.fPos_writeAdvance_iff (s.1.log.writeAdvance c.header
    (c.record.staged s.1.trPage) (c.record.recSize.toInt - c.record.auxLen.toInt)).1 c.aux
    c.record.aux.bytes c.record.auxLen.toInt
  constructor
  · intro hadvances herrno
    have haux : c.record.auxLen ≠ 0 := by
      intro hzero
      have hpos := c.aux.error.pos
      have hlen : c.record.auxLen.toInt = 0 := by rw [hzero]; rfl
      omega
    have hsize := c.filled.sized.resolve_right fun h => haux h.2
    obtain ⟨s', hs'⟩ := c.exists_appendStep haux s
    obtain ⟨hmove, -⟩ := hadvances s' hs'
    rw [c.fPos_appendStep hs', fullBytes, ← add_assoc,
      ← c.filled.fPos_header hsize] at hmove
    exact hiff.mp hmove herrno
  · intro hapart s' hs'
    have hsecond := hiff.mpr hapart
    have hfirst := c.filled.fPos_header (c.sized_of_appendStep hs') s.1.log c.header
      (c.record.staged s.1.trPage)
    have hmove : s'.1.log.fPos = s.1.log.fPos + c.fullBytes s.1 := by
      rw [c.fPos_appendStep hs', logAfter, hsecond, hfirst, add_assoc]
      rfl
    have hnonneg : 0 ≤ c.fullBytes s.1 :=
      add_nonneg (LogFile.fullBytes_nonneg _ _ _ _) (LogFile.fullBytes_nonneg _ _ _ _)
    exact ⟨hmove, by omega⟩

/-- **The position of the log.**  In every sequence of calls, from any state, every call moves the
position by the bytes that it has written in full if and only if no call has a length of data that
is the negated error of its second write. -/
theorem advances_iff (s : SbInfo × Kernel) (calls : List LogCall) :
    RunAllowed appendStep Advances s calls ↔
      RunAllowed appendStep (fun _ c => c.ErrnoApart) s calls :=
  runAllowed_congr (fun s c (_ : True) => c.advances_iff_errnoApart s) (fun _ _ _ _ _ _ => trivial)
    trivial

/-- `EIO`. -/
def errIO : Posix.Errno := ⟨5, by decide, by decide⟩

/-- The call for a write of `65531` bytes to `/l`, the first one of a mount: the length is `-5`, and
the second write returns `-EIO`. -/
def callBack : LogCall where
  record := ((FillArgs.ofWrite dentryL 1 65531 (.user (List.replicate 65531 0)) 65531).base 0
    (.page 0 dentryL.path)).withAux (.user (List.replicate 65531 0)) (BitVec.ofNat 16 65531)
  header := .complete
  aux := .errno errIO
  produced := ⟨⟨some 0, some 1⟩, ⟨-1, [], []⟩, _, _,
    fillRecord_ofWrite (by decide) ⟨-1, [], []⟩ 0 1 1 65531 (.user (List.replicate 65531 0)) 65531⟩

/-- The first call of a new mount can move the position back. -/
theorem not_advances_callBack :
    ¬RunAllowed appendStep Advances (SbInfo.mounted [], ⟨-1, [], []⟩) [callBack] := by
  intro hrun
  have hapart := (callBack.advances_iff_errnoApart _).mp hrun.1
  exact hapart (by decide)

end Trfs
