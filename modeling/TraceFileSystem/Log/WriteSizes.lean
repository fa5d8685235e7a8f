import TraceFileSystem.Record.AppendRecord
import TraceFileSystem.Treplay.Framing

/-!
# Sizes of traced writes

`trfs_write` passes the byte count of the caller on to `fill_record`, where it becomes a `short`,
and so does the size computed from it.  The count axis falls into several regions: the size can turn
negative while the length of the data is still positive, the length itself can turn negative, and
beyond `2 ^ 16` it starts over.  This file determines exactly for which counts the log receives a
frame from which the replay tool recovers path and data.

* `TracedWrite` is the faithful case: one frame goes into the log, the position moves over it, and
  the record parsed from the frame has the path and the data of the write.
* `headerCount` and `auxCount` are the counts of the two calls of `kernel_write`.  A position never
  moves by more than they allow (`fPos_appendRecord_le`), which rules out all counts that wrap.

The result is `tracedWrite_iff`.  Zero bytes from a NULL buffer are traced as well: `append_record`
asserts that a record without data has no pointer to data, and NULL satisfies the assertion
(`tracedWrite_null`).
-/

namespace Trfs

open LittleEndian ByteStore

/-! ### The statement -/

/-- A user buffer that holds the given bytes; for no bytes at all it may be NULL. -/
def Holds (buf : CharPtr) (data : List UInt8) : Prop :=
  buf = .user data ∨ (buf = .null ∧ data = [])

/-- The count of the first `kernel_write` for a write of `c` bytes to a path of `p` bytes. -/
def headerCount (p c : ℕ) : ℤ :=
  (recordSizeAux (BitVec.ofNat 16 p) (BitVec.ofNat 16 c)).toInt - (BitVec.ofNat 16 c).toInt

/-- The count of the second `kernel_write` for a write of `c` bytes. -/
def auxCount (c : ℕ) : ℤ :=
  (BitVec.ofNat 16 c).toInt

/-- The replay tool, wherever it finds the bytes `frame` in its buffer, parses a record of exactly
these bytes with the given path and auxiliary data. -/
def DecodesTo (frame path data : List UInt8) : Prop :=
  ∀ (m : Mem) (buf : ℤ), readBytes m buf frame.length = frame →
    (recordAt m buf).path = path ∧ (recordAt m buf).aux = data ∧
      (recordAt m buf).hdr.recSize.toInt = frame.length ∧ recordEnd m buf = buf + frame.length

/-- Running `fill_record` and `append_record` for a write extends the log by one frame that decodes
to the path and the data of the write, moves the position over the frame, and fails no assertion. -/
def TracedWrite (env : PageEnv) (sb : SbInfo) (k : Kernel) (d : Dentry) (flags err : CInt)
    (buf : CharPtr) (data : List UInt8) (o₁ o₂ : WriteOutcome) : Prop :=
  ∃ sb' k' frame,
    fillAppend env sb k (.ofWrite d flags err buf data.length) o₁ o₂ = .ok (sb', k') ∧
    sb'.log.data = pwrite sb.log.data sb.log.fPos.toNat frame ∧
    sb'.log.fPos = sb.log.fPos + frame.length ∧
    DecodesTo frame d.path.bytes data

/-! ### How far the position moves -/

/-- A write moves the position at most by its count, and not forward when the count is negative. -/
theorem LogFile.fPos_writeAdvance_le (log : LogFile) (o : WriteOutcome) (src : List UInt8)
    (count : ℤ) : (log.writeAdvance o src count).1.fPos ≤ log.fPos + max 0 count := by
  have hfpos : (log.kernelWrite o src count).1.fPos = log.fPos := by
    unfold kernelWrite
    split
    · rfl
    · split <;> rfl
  unfold writeAdvance
  dsimp only
  split
  · rw [hfpos]
    omega
  · next heq =>
    dsimp only
    rw [hfpos]
    omega

/-- `append_record` moves the position at most by the two counts. -/
theorem fPos_appendRecord_le {sb sb' : SbInfo} {k k' : Kernel} {r : TrRecord} {o₁ o₂ : WriteOutcome}
    {ret : ℤ} (h : appendRecord sb k r o₁ o₂ = .ok (sb', k', ret)) :
    sb'.log.fPos ≤
      sb.log.fPos + max 0 (r.recSize.toInt - r.auxLen.toInt) + max 0 r.auxLen.toInt := by
  simp only [appendRecord, bind, Except.bind] at h
  split at h
  · simp at h
  next v hheader =>
    obtain ⟨sb₁, k₁, ret₁⟩ := v
    have hfirst : sb₁.log.fPos ≤ sb.log.fPos + max 0 (r.recSize.toInt - r.auxLen.toInt) := by
      unfold appendHeader at hheader
      dsimp only at hheader
      split at hheader
      · simp at hheader
      · split at hheader
        · simp at hheader
        · cases hheader
          exact LogFile.fPos_writeAdvance_le _ _ _ _
    unfold appendAux at h
    dsimp only at h
    split at h
    · split at h
      · simp at h
      · cases h
        omega
    · cases h
      have := LogFile.fPos_writeAdvance_le sb₁.log o₂ r.aux.bytes r.auxLen.toInt
      dsimp only
      omega

/-- The record of a write, whatever its count. -/
theorem fillRecord_ofWrite {d : Dentry} (hpath : d.path.strlen < pageSize) (k : Kernel)
    (pathPage auxPage : ℕ) (flags err : CInt) (buf : CharPtr) (c : ℕ) :
    fillRecord ⟨some pathPage, some auxPage⟩ k (.ofWrite d flags err buf c) =
      .ok ({ k with trecordId := k.trecordId + 1, ledger := auxPage :: pathPage :: k.ledger },
        .ok (((FillArgs.ofWrite d flags err buf c).base (k.trecordId + 1)
          (.page pathPage d.path)).withAux buf (BitVec.ofNat 16 c))) := by
  have htype : (FillArgs.ofWrite d flags err buf c).type ≠ 0 := RecType.code_ne_zero .fwrite
  have hraw : dentryPathRaw (FillArgs.ofWrite d flags err buf c).dentry pathPage =
      some (.page pathPage d.path) := by
    simp [dentryPathRaw, FillArgs.ofWrite, hpath]
  have hlen : (FillArgs.ofWrite d flags err buf c).auxLen.setWidth 16 = BitVec.ofNat 16 c := by
    rw [FillArgs.ofWrite, BitVec.setWidth_ofNat_of_le (by norm_num)]
  have hswitch (r : TrRecord) : fillSwitch (.ofWrite d flags err buf c) auxPage r =
      .ok (r.withAux buf (BitVec.ofNat 16 c)) := by
    rw [← hlen]
    simp only [fillSwitch, FillArgs.ofWrite, RecType.ofCode?_code]
  simp only [fillRecord, if_neg htype, hraw, hswitch]
  rfl

/-! ### The range -/

/-- The counts that move the position over a header, the path and all the data are those for which
the size of the record does not wrap. -/
theorem counts_ge_iff {p c : ℕ} (hp : p < pageSize) :
    (headerSize + p + c : ℤ) ≤ max 0 (headerCount p c) + max 0 (auxCount c) ↔ p + c ≤ 32735 := by
  have hhead : headerCount p c =
      ((headerSize + p + c : ℕ) + 32768 : ℤ) % 65536 - 32768 - auxCount c := by
    rw [headerCount, auxCount, recordSizeAux_ofNat, toInt_ofNat_sixteen (headerSize + p + c)]
  have haux : auxCount c = ((c : ℤ) + 32768) % 65536 - 32768 := toInt_ofNat_sixteen c
  have hsize : headerSize = 32 := rfl
  simp only [pageSize] at hp
  omega

/-- The two counts within the range. -/
theorem counts_nonneg {p c : ℕ} (h : p + c ≤ 32735) : 0 ≤ headerCount p c ∧ 0 ≤ auxCount c := by
  have haux : auxCount c = c := toInt_ofNat_of_le (by omega)
  have hsize : headerSize = 32 := rfl
  have hhead : headerCount p c = (headerSize + p + c : ℕ) - auxCount c := by
    rw [headerCount, auxCount, recordSizeAux_ofNat, toInt_ofNat_of_le (by omega)]
  omega

/-- A frame that decodes to a non-empty path and to data is as long as header, path and data. -/
theorem DecodesTo.length_eq {frame path data : List UInt8} (h : DecodesTo frame path data)
    (hpath : path ≠ []) : frame.length = headerSize + path.length + data.length := by
  have hm := readBytes_load (fun _ => 0) 0 frame
  obtain ⟨hp, hd, -, hend⟩ := h _ 0 hm
  have hplen := congrArg List.length hp
  have hdlen := congrArg List.length hd
  have := List.length_pos_iff.mpr hpath
  simp only [recordAt, length_readBytes] at hplen hdlen
  rw [recordEnd] at hend
  omega

/-- The frame of a well-formed record decodes to its path and its data. -/
theorem decodesTo_frame {r : LogRecord} (h : r.WellFormed) : DecodesTo r.frame r.path r.aux := by
  intro m buf hm
  have hrec := recordAt_of_frame h hm
  refine ⟨by rw [hrec], by rw [hrec], by rw [hrec, h.recSize_eq_length], ?_⟩
  exact recordEnd_of_header h (headerAt_of_frame hm)

/-- Within the range the write is traced. -/
theorem tracedWrite_of_framed {env : PageEnv} (henv : env.available) {sb : SbInfo}
    (hpos : 0 ≤ sb.log.fPos) (k : Kernel) {d : Dentry} {flags err : CInt} {buf : CharPtr}
    {data : List UInt8} (hbuf : Holds buf data)
    (hframed : (FillArgs.ofWrite d flags err buf data.length).Framed)
    (hsize : d.path.strlen + data.length ≤ 32735) {o₁ o₂ : WriteOutcome} (h₁ : o₁ = .complete)
    (h₂ : o₂ = .complete) : TracedWrite env sb k d flags err buf data o₁ o₂ := by
  subst h₁ h₂
  obtain ⟨page, k', happend, -⟩ := fillAppend_framed hframed henv sb k .complete .complete
  have hwf := FillArgs.wellFormed_logRecord hframed (k.trecordId + 1)
  have hbytes : (FillArgs.ofWrite d flags err buf data.length).auxBytes = data := by
    rcases hbuf with rfl | ⟨rfl, rfl⟩ <;> rfl
  have hlogged : (FillArgs.ofWrite d flags err buf data.length).auxLogged = data := by
    rw [FillArgs.auxLogged_eq_of_lt (by rw [hbytes]; omega), hbytes]
  have hdec := decodesTo_frame hwf
  have haux : ((FillArgs.ofWrite d flags err buf data.length).logRecord (k.trecordId + 1)).aux =
      data := hlogged
  rw [haux] at hdec
  refine ⟨_, k', _, happend, ?_, ?_, hdec⟩
  · rw [LogRecord.logAfter_complete hpos]
  · rw [LogRecord.logAfter_complete hpos]

/-- What `fill_record` and `append_record` do for a write, when nothing fails an assertion: the
position moves at most by the two counts, and no data means that there is no buffer. -/
theorem fillAppend_ofWrite {env : PageEnv} (henv : env.available) {sb sb' : SbInfo} {k k' : Kernel}
    {d : Dentry} (hpath : d.path.strlen < pageSize) {flags err : CInt} {buf : CharPtr} {c : ℕ}
    {o₁ o₂ : WriteOutcome}
    (h : fillAppend env sb k (.ofWrite d flags err buf c) o₁ o₂ = .ok (sb', k')) :
    sb'.log.fPos ≤
        sb.log.fPos + max 0 (headerCount d.path.strlen c) + max 0 (auxCount c) ∧
      (c = 0 → buf = .null) := by
  obtain ⟨pathPage, auxPage⟩ := env
  obtain ⟨⟨pathPage, rfl⟩, ⟨auxPage, rfl⟩⟩ :=
    And.imp Option.isSome_iff_exists.mp Option.isSome_iff_exists.mp henv
  rw [fillAppend, fillRecord_ofWrite hpath] at h
  simp only [bind, Except.bind] at h
  split at h
  · simp at h
  next v happend =>
    obtain ⟨sb₁, k₁, ret⟩ := v
    cases h
    have hle := fPos_appendRecord_le happend
    simp only [TrRecord.withAux, FillArgs.base, CharPtr.bytes] at hle
    refine ⟨hle, ?_⟩
    rintro rfl
    simp only [appendRecord, bind, Except.bind] at happend
    split at happend
    · simp at happend
    next v hheader =>
      by_contra hbuf
      have hbug : appendAux v.1 v.2.1 (((FillArgs.ofWrite d flags err buf 0).base
          (k.trecordId + 1) (.page pathPage d.path)).withAux buf (BitVec.ofNat 16 0)) o₂ v.2.2 =
          .error .bugOn := by
        simp [appendAux, TrRecord.withAux, hbuf]
      rw [hbug] at happend
      simp at happend

/-- **The range of traced writes.**  When `kernel_write` completes for counts that are not negative,
a write of `c` bytes to a path of `p` bytes is traced faithfully if and only if
`1 ≤ c ≤ 32735 - p`, or `c` is zero and the buffer is NULL. -/
theorem tracedWrite_iff {env : PageEnv} (henv : env.available) {sb : SbInfo}
    (hpos : 0 ≤ sb.log.fPos) (k : Kernel) {d : Dentry} (hpath : d.path.strlen ≤ 4095)
    (flags err : CInt) {buf : CharPtr} {data : List UInt8} (hbuf : Holds buf data)
    (hcount : data.length ≤ 0x7ffff000) {o₁ o₂ : WriteOutcome}
    (h₁ : 0 ≤ headerCount d.path.strlen data.length → o₁ = .complete)
    (h₂ : 0 ≤ auxCount data.length → o₂ = .complete) :
    TracedWrite env sb k d flags err buf data o₁ o₂ ↔
      (1 ≤ data.length ∧ data.length ≤ 32735 - d.path.strlen) ∨
        (data.length = 0 ∧ buf = .null) := by
  have hlt : d.path.strlen < pageSize := Nat.lt_succ_of_le hpath
  constructor
  · rintro ⟨sb', k', frame, happend, -, hfpos, hdec⟩
    obtain ⟨hle, hnull⟩ := fillAppend_ofWrite henv hlt happend
    have hlen := hdec.length_eq d.path_ne
    have hsum := (counts_ge_iff hlt).mp
      (by rw [CString.strlen] at *; omega : (headerSize + d.path.strlen + data.length : ℤ) ≤
        max 0 (headerCount d.path.strlen data.length) + max 0 (auxCount data.length))
    by_cases h0 : data.length = 0
    · exact .inr ⟨h0, hnull h0⟩
    · exact .inl ⟨by omega, by omega⟩
  · intro hrange
    have hsize : d.path.strlen + data.length ≤ 32735 := by omega
    obtain ⟨hheader, haux⟩ := counts_nonneg hsize
    have hframed : (FillArgs.ofWrite d flags err buf data.length).Framed := by
      rcases hbuf with rfl | ⟨rfl, rfl⟩
      · have hne : data ≠ [] := by
          rintro rfl
          simp at hrange
        exact FillArgs.framed_ofWrite hlt hne
          (by simp [headerSize, sizeofTrRecord, sizeofPtr]; omega)
      · exact FillArgs.framed_ofWrite_null hlt
    exact tracedWrite_of_framed henv hpos k hbuf hframed hsize (h₁ hheader) (h₂ haux)

/-- A write of one byte to `/f` on a new mount is traced. -/
theorem tracedWrite_oneByte :
    TracedWrite ⟨some 0, some 1⟩ (.mounted []) ⟨-1, [], []⟩ ⟨⟨[47, 102], by decide⟩, by decide⟩ 1 1
      (.user [97]) [97] .complete .complete :=
  (tracedWrite_iff (by decide) (by decide) _ (by decide) 1 1 (.inl rfl) (by decide)
    (fun _ => rfl) fun _ => rfl).mpr (.inl (by decide))

/-- A write of no bytes from NULL is traced, although its count is below one. -/
theorem tracedWrite_null :
    ¬(TracedWrite ⟨some 0, some 1⟩ (.mounted []) ⟨-1, [], []⟩ ⟨⟨[47, 102], by decide⟩, by decide⟩ 1
        0 .null [] .complete .complete ↔
      1 ≤ ([] : List UInt8).length ∧ ([] : List UInt8).length ≤ 32735 - 2) := by
  intro h
  have htraced := h.mp (tracedWrite_of_framed (by decide) (by decide) _ (.inr ⟨rfl, rfl⟩)
    (FillArgs.framed_ofWrite_null (by decide)) (by decide) rfl rfl)
  exact absurd htraced.1 (by decide)

end Trfs
