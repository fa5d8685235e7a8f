import TraceFileSystem.Lib.Errno
import TraceFileSystem.Record.FillRecord

/-!
# `append_record`

The function that writes a filled record to the log file (`trfs/trdump.c`).  The header and the path
are staged in the buffer `tr_page` of the superblock and written with one `kernel_write`; the
auxiliary data is written with a second one, straight from where it lies.  Each write moves the file
position only if it completed, and the second write is attempted whether or not the first one
completed.

`kernel_write` itself belongs to the kernel: a `WriteOutcome` says whether a call completes, falls
short or fails, and a call with a count that is negative as a signed number, or at a negative
position, always fails.

The function is cut at the two writes into `appendHeader` and `appendAux`.  For a record that
`fill_record` built within the limits of the format (`Appendable`) the results at the end describe
each half for every outcome (`appendHeader_eq`, `appendAux_eq`), and `appendRecord_eq` puts them
together: the log afterwards is `LogRecord.logAfter`, whose committed bytes and position follow from
the outcomes of the two writes alone.
-/

namespace Trfs

open LittleEndian ByteStore Posix

/-- How a call of `kernel_write` ends. -/
inductive WriteOutcome where
  /-- All bytes are written. -/
  | complete
  /-- At most `n` bytes are written, and fewer than asked for. -/
  | short (n : ℕ)
  /-- Nothing is written and an error is returned. -/
  | errno (e : Errno)
  deriving DecidableEq

/-- The error number of a failing write; a write that has to fail without choosing one fails with
`EINVAL`. -/
def WriteOutcome.error : WriteOutcome → Errno
  | errno e => e
  | _ => .inval

/-- An open log file: the bytes of the lower file and the position `f_pos`. -/
structure LogFile where
  data : List UInt8
  fPos : ℤ
  deriving DecidableEq

namespace LogFile

/-- The bytes of the log in `[0, f_pos)`. -/
def committed (log : LogFile) : List UInt8 :=
  prefixAt log.data log.fPos.toNat

/-- `kernel_write(logfilp, src, count, logfilp->f_pos)`: the file afterwards and the value returned.
The position is passed by value and does not change. -/
def kernelWrite (log : LogFile) (o : WriteOutcome) (src : List UInt8) (count : ℤ) : LogFile × ℤ :=
  if count < 0 ∨ log.fPos < 0 then (log, -(o.error.code : ℤ))
  else
    match o with
    | .complete =>
      ({ log with data := pwrite log.data log.fPos.toNat (src.take count.toNat) }, count)
    | .short n =>
      ({ log with
          data := pwrite log.data log.fPos.toNat (src.take (min n (count.toNat - 1))) },
        (min n (count.toNat - 1) : ℕ))
    | .errno e => (log, -(e.code : ℤ))

/-- A write of `append_record`: the position moves when the value returned is the count. -/
def writeAdvance (log : LogFile) (o : WriteOutcome) (src : List UInt8) (count : ℤ) : LogFile × ℤ :=
  let w := log.kernelWrite o src count
  if w.2 ≠ count then (w.1, -1) else ({ w.1 with fPos := w.1.fPos + w.2 }, w.2)

end LogFile

/-- The fields of `struct trfs_sb_info` that logging uses. -/
structure SbInfo where
  /-- The bitmap of traced record types. -/
  umask : BitVec 64
  /-- The log file `tr_lower_filep`. -/
  log : LogFile
  /-- The staging buffer `tr_page`. -/
  trPage : List UInt8
  deriving DecidableEq

/-- The superblock that `trfs_read_super` leaves behind: everything is traced, the log has just been
created, and the staging buffer has arbitrary contents. -/
def SbInfo.mounted (trPage : List UInt8) : SbInfo where
  umask := -1
  log := ⟨[], 0⟩
  trPage := trPage

/-- The first half of `append_record`: stage header and path, free the page of the path, write the
staged bytes. -/
def appendHeader (sb : SbInfo) (k : Kernel) (r : TrRecord) (o : WriteOutcome) :
    Except Fault (SbInfo × Kernel × ℤ) :=
  let recSizeCommon : CShort :=
    BitVec.ofInt 16 (r.recSize.toInt - r.pathLen.toInt - r.auxLen.toInt)
  if recSizeCommon.toInt ≤ 0 then .error .bugOn
  else if r.pathname = .null then .error .nullDeref
  else
    -- memcpy of the header, then strcpy of the path with its terminator
    let staged := pwrite sb.trPage 0 (r.toHeader.bytes.take recSizeCommon.toNat)
    let page := pwrite staged recSizeCommon.toNat (r.pathname.bytes ++ [0])
    let w := sb.log.writeAdvance o page (r.recSize.toInt - r.auxLen.toInt)
    .ok ({ sb with log := w.1, trPage := page }, k.freePage r.pathname, w.2)

/-- The second half of `append_record`: write the auxiliary data and free it, except when it is the
caller's buffer of a write. -/
def appendAux (sb : SbInfo) (k : Kernel) (r : TrRecord) (o : WriteOutcome) (ret : ℤ) :
    Except Fault (SbInfo × Kernel × ℤ) :=
  if r.auxLen = 0 then
    if r.aux ≠ .null then .error .bugOn else .ok (sb, k, ret)
  else
    let w := sb.log.writeAdvance o r.aux.bytes r.auxLen.toInt
    .ok ({ sb with log := w.1 },
      if RecType.ofCode? r.type = some .fwrite then k else k.freePage r.aux, w.2)

/-- `append_record`. -/
def appendRecord (sb : SbInfo) (k : Kernel) (r : TrRecord) (o₁ o₂ : WriteOutcome) :
    Except Fault (SbInfo × Kernel × ℤ) := do
  let (sb, k, ret) ← appendHeader sb k r o₁
  appendAux sb k r o₂ ret

/-- The body of every logging tail: `fill_record`, and `append_record` if it returned zero. -/
def fillAppend (env : PageEnv) (sb : SbInfo) (k : Kernel) (a : FillArgs) (o₁ o₂ : WriteOutcome) :
    Except Fault (SbInfo × Kernel) := do
  let (k, res) ← fillRecord env k a
  match res with
  | .error _ => .ok (sb, k)
  | .ok r =>
    let (sb, k, _) ← appendRecord sb k r o₁ o₂
    .ok (sb, k)

/-! ### One write and the position -/

namespace LogFile

variable {log : LogFile} {o : WriteOutcome} {src : List UInt8} {count : ℤ}

/-- A complete write stores its bytes at the position and moves the position behind them. -/
theorem writeAdvance_complete (hpos : 0 ≤ log.fPos) (hcount : 0 ≤ count) :
    log.writeAdvance .complete src count =
      ({ data := pwrite log.data log.fPos.toNat (src.take count.toNat)
         fPos := log.fPos + count }, count) := by
  have hneg : ¬(count < 0 ∨ log.fPos < 0) := by omega
  simp [writeAdvance, kernelWrite, hneg]

/-- A write that does not complete reports so and leaves the position alone. -/
theorem writeAdvance_incomplete (ho : o ≠ .complete) (hcount : 0 < count) :
    (log.writeAdvance o src count).1.fPos = log.fPos ∧ (log.writeAdvance o src count).2 = -1 := by
  have herr : -(o.error.code : ℤ) ≠ count := by omega
  unfold writeAdvance kernelWrite
  split
  · simp [herr]
  · cases o with
    | complete => exact absurd rfl ho
    | short n =>
      have hne : ((min n (count.toNat - 1) : ℕ) : ℤ) ≠ count := by omega
      simp only [hne, ne_eq, not_false_eq_true, if_true, and_self]
    | errno e =>
      have hne : -(e.code : ℤ) ≠ count := by omega
      simp [hne]

/-- A write that does not complete changes nothing before the position. -/
theorem committed_writeAdvance_incomplete (ho : o ≠ .complete) (hcount : 0 < count) :
    (log.writeAdvance o src count).1.committed = log.committed := by
  have hfpos : (log.writeAdvance o src count).1.fPos = log.fPos :=
    (writeAdvance_incomplete ho hcount).1
  rw [committed, hfpos, committed]
  unfold writeAdvance kernelWrite
  split
  · dsimp only
    split <;> rfl
  · cases o with
    | complete => exact absurd rfl ho
    | short n =>
      dsimp only
      split <;> exact prefixAt_pwrite_self _ _ _
    | errno e =>
      dsimp only
      split <;> rfl

/-- Only the bytes asked for matter. -/
theorem writeAdvance_congr {src' : List UInt8} (h : src.take count.toNat = src'.take count.toNat) :
    log.writeAdvance o src count = log.writeAdvance o src' count := by
  have hshort (n : ℕ) : src.take (min n (count.toNat - 1)) =
    src'.take (min n (count.toNat - 1)) := by
    have := congrArg (List.take (min n (count.toNat - 1))) h
    rwa [List.take_take, List.take_take, Nat.min_eq_left (by omega)] at this
  unfold writeAdvance kernelWrite
  cases o with
  | complete => simp only [h]
  | short n => simp only [hshort]
  | errno e => rfl

end LogFile

/-! ### Records within the limits of the format -/

/-- A record as `fill_record` builds it within the limits of the format. -/
structure TrRecord.Appendable (r : TrRecord) : Prop where
  wellFormed : r.logged.WellFormed
  pathname_ne : r.pathname ≠ .null
  aux_null : r.auxLen = 0 → r.aux = .null

namespace TrRecord.Appendable

variable {r : TrRecord}

/-- The length field of the path. -/
theorem pathLen_eq (h : r.Appendable) : r.pathLen.toInt = r.pathname.bytes.length :=
  h.wellFormed.pathLen_eq

/-- The length field of the auxiliary data is the number of bytes that are logged. -/
theorem auxLen_eq (h : r.Appendable) : r.auxLen.toInt = r.logged.aux.length :=
  h.wellFormed.auxLen_eq

/-- The length field of the auxiliary data stays within the data. -/
theorem auxLen_le (h : r.Appendable) : r.auxLen.toInt ≤ r.aux.bytes.length := by
  have := h.auxLen_eq
  simp only [logged, List.length_take] at this
  omega

/-- The size of the header and the path, as the first write of `append_record` computes it. -/
theorem headerCount_eq (h : r.Appendable) :
    r.recSize.toInt - r.auxLen.toInt = headerSize + r.pathname.bytes.length := by
  have hsize : r.recSize.toInt = headerSize + r.pathname.bytes.length + r.logged.aux.length :=
    h.wellFormed.recSize_eq
  rw [hsize, h.auxLen_eq]
  ring

/-- `rec_size_common` is the size of the header. -/
theorem recSizeCommon_eq (h : r.Appendable) :
    BitVec.ofInt 16 (r.recSize.toInt - r.pathLen.toInt - r.auxLen.toInt) =
      BitVec.ofNat 16 headerSize := by
  have : r.recSize.toInt - r.pathLen.toInt - r.auxLen.toInt = (headerSize : ℤ) := by
    have := h.headerCount_eq
    have := h.pathLen_eq
    omega
  rw [this, BitVec.ofInt_natCast]

/-- The auxiliary length is zero exactly when nothing is logged after the path. -/
theorem auxLen_eq_zero_iff (h : r.Appendable) : r.auxLen = 0 ↔ r.logged.aux = [] := by
  rw [← List.length_eq_zero_iff, ← Int.natCast_inj, ← h.auxLen_eq]
  constructor
  · rintro h0
    simp [h0]
  · intro h0
    exact BitVec.eq_of_toInt_eq (by simpa using h0)

end TrRecord.Appendable

/-- The staging buffer after header and path have been copied into it. -/
def TrRecord.staged (r : TrRecord) (page : List UInt8) : List UInt8 :=
  pwrite (pwrite page 0 r.toHeader.bytes) headerSize (r.pathname.bytes ++ [0])

/-- The staging buffer starts with header and path, followed by the terminator. -/
theorem TrRecord.staged_eq (r : TrRecord) (page : List UInt8) :
    ∃ rest, r.staged page = r.toHeader.bytes ++ r.pathname.bytes ++ rest := by
  have hhead : prefixAt (pwrite page 0 r.toHeader.bytes) headerSize = r.toHeader.bytes := by
    rw [pwrite_zero, ← r.toHeader.length_bytes, prefixAt_append_left]
  refine ⟨[0] ++ (pwrite page 0 r.toHeader.bytes).drop
    (headerSize + (r.pathname.bytes ++ [0]).length), ?_⟩
  rw [staged, pwrite, hhead]
  simp only [List.append_assoc]

/-- The first write of `append_record` writes header and path. -/
theorem TrRecord.take_staged (r : TrRecord) (page : List UInt8) :
    (r.staged page).take (headerSize + r.pathname.bytes.length) =
      r.toHeader.bytes ++ r.pathname.bytes := by
  obtain ⟨rest, hrest⟩ := r.staged_eq page
  rw [hrest, List.take_left' (by simp)]

/-- The first half of `append_record` when `rec_size_common` is the size of the header. -/
theorem appendHeader_of_common {r : TrRecord} (hnull : r.pathname ≠ .null)
    (hcommon : BitVec.ofInt 16 (r.recSize.toInt - r.pathLen.toInt - r.auxLen.toInt) =
      BitVec.ofNat 16 headerSize) (sb : SbInfo) (k : Kernel) (o : WriteOutcome) :
    appendHeader sb k r o =
      .ok ({ sb with
          log := (sb.log.writeAdvance o (r.staged sb.trPage)
            (r.recSize.toInt - r.auxLen.toInt)).1
          trPage := r.staged sb.trPage },
        k.freePage r.pathname,
        (sb.log.writeAdvance o (r.staged sb.trPage) (r.recSize.toInt - r.auxLen.toInt)).2) := by
  have hpos : ¬(BitVec.ofNat 16 headerSize : CShort).toInt ≤ 0 := by decide
  have hnat : (BitVec.ofNat 16 headerSize : CShort).toNat = headerSize := by decide
  have htake : r.toHeader.bytes.take headerSize = r.toHeader.bytes := by
    rw [← r.toHeader.length_bytes, List.take_length]
  simp only [appendHeader, hcommon, hpos, if_false, hnull, hnat, htake, TrRecord.staged]

/-- The first half of `append_record` on a record within the limits. -/
theorem appendHeader_eq {r : TrRecord} (h : r.Appendable) (sb : SbInfo) (k : Kernel)
    (o : WriteOutcome) :
    appendHeader sb k r o =
      .ok ({ sb with
          log := (sb.log.writeAdvance o (r.staged sb.trPage)
            (headerSize + r.pathname.bytes.length)).1
          trPage := r.staged sb.trPage },
        k.freePage r.pathname,
        (sb.log.writeAdvance o (r.staged sb.trPage) (headerSize + r.pathname.bytes.length)).2) := by
  rw [appendHeader_of_common h.pathname_ne h.recSizeCommon_eq, h.headerCount_eq]

/-- The second half of `append_record` on a record within the limits that has auxiliary data. -/
theorem appendAux_eq {r : TrRecord} (h : r.logged.aux ≠ []) (happ : r.Appendable) (sb : SbInfo)
    (k : Kernel) (o : WriteOutcome) (ret : ℤ) :
    appendAux sb k r o ret =
      .ok ({ sb with log := (sb.log.writeAdvance o r.aux.bytes r.logged.aux.length).1 },
        if RecType.ofCode? r.type = some .fwrite then k else k.freePage r.aux,
        (sb.log.writeAdvance o r.aux.bytes r.logged.aux.length).2) := by
  have h0 : r.auxLen ≠ 0 := fun h0 => h (happ.auxLen_eq_zero_iff.mp h0)
  simp only [appendAux, h0, if_false, happ.auxLen_eq]

/-- The second half of `append_record` on a record within the limits without auxiliary data. -/
theorem appendAux_nil {r : TrRecord} (h : r.logged.aux = []) (happ : r.Appendable) (sb : SbInfo)
    (k : Kernel) (o : WriteOutcome) (ret : ℤ) : appendAux sb k r o ret = .ok (sb, k, ret) := by
  have h0 : r.auxLen = 0 := happ.auxLen_eq_zero_iff.mpr h
  simp [appendAux, h0, happ.aux_null h0]

/-- The log after `append_record` on a record within the limits, for any outcome of the two
writes. -/
def LogRecord.logAfter (r : LogRecord) (log : LogFile) (o₁ o₂ : WriteOutcome) : LogFile :=
  let log₁ := (log.writeAdvance o₁ (r.hdr.bytes ++ r.path) (headerSize + r.path.length)).1
  if r.aux = [] then log₁ else (log₁.writeAdvance o₂ r.aux r.aux.length).1

/-- Freeing a page draws no record number. -/
@[simp] theorem Kernel.freePage_trecordId (k : Kernel) (p : CharPtr) :
    (k.freePage p).trecordId = k.trecordId := by
  unfold freePage
  split
  · split <;> rfl
  · rfl

/-- The kernel after `append_record` on a record within the limits: the page of the path has been
freed, and with it the auxiliary pointer of a record that has one and is not a write. -/
def TrRecord.kernelAfter (r : TrRecord) (k : Kernel) : Kernel :=
  if r.logged.aux = [] ∨ RecType.ofCode? r.type = some .fwrite then k.freePage r.pathname
  else (k.freePage r.pathname).freePage r.aux

/-- The log and the staging buffer after `append_record` on a record within the limits. -/
def SbInfo.after (sb : SbInfo) (r : TrRecord) (o₁ o₂ : WriteOutcome) : SbInfo :=
  { sb with log := r.logged.logAfter sb.log o₁ o₂, trPage := r.staged sb.trPage }

/-- `append_record` on a record within the limits: no assertion fails, and the log is the one given
by `LogRecord.logAfter`. -/
theorem appendRecord_eq {r : TrRecord} (h : r.Appendable) (sb : SbInfo) (k : Kernel)
    (o₁ o₂ : WriteOutcome) :
    ∃ ret, appendRecord sb k r o₁ o₂ = .ok (sb.after r o₁ o₂, r.kernelAfter k, ret) := by
  have hfirst : sb.log.writeAdvance o₁ (r.staged sb.trPage) (headerSize + r.pathname.bytes.length) =
      sb.log.writeAdvance o₁ (r.toHeader.bytes ++ r.pathname.bytes)
        (headerSize + r.pathname.bytes.length) := by
    apply LogFile.writeAdvance_congr
    have hnat : ((headerSize : ℤ) + r.pathname.bytes.length).toNat =
        headerSize + r.pathname.bytes.length := by omega
    rw [hnat, r.take_staged, List.take_of_length_le (by simp)]
  have hsecond (log : LogFile) : log.writeAdvance o₂ r.aux.bytes r.logged.aux.length =
      log.writeAdvance o₂ r.logged.aux r.logged.aux.length := by
    apply LogFile.writeAdvance_congr
    have hlen := h.auxLen_eq
    rw [Int.toNat_natCast, List.take_length, ← Int.toNat_natCast r.logged.aux.length, ← hlen]
    rfl
  by_cases haux : r.logged.aux = []
  · have hlog : r.logged.logAfter sb.log o₁ o₂ = (sb.log.writeAdvance o₁
        (r.toHeader.bytes ++ r.pathname.bytes) (headerSize + r.pathname.bytes.length)).1 := by
      rw [LogRecord.logAfter, if_pos haux]
      rfl
    refine ⟨(sb.log.writeAdvance o₁ (r.toHeader.bytes ++ r.pathname.bytes)
      (headerSize + r.pathname.bytes.length)).2, ?_⟩
    rw [appendRecord, appendHeader_eq h, hfirst]
    simp only [bind, Except.bind, appendAux_nil haux h, SbInfo.after, hlog, TrRecord.kernelAfter,
      haux, true_or, if_true]
  · have hlog : r.logged.logAfter sb.log o₁ o₂ = ((sb.log.writeAdvance o₁
        (r.toHeader.bytes ++ r.pathname.bytes)
        (headerSize + r.pathname.bytes.length)).1.writeAdvance o₂ r.logged.aux
          r.logged.aux.length).1 := by
      rw [LogRecord.logAfter, if_neg haux]
      rfl
    refine ⟨((sb.log.writeAdvance o₁ (r.toHeader.bytes ++ r.pathname.bytes)
      (headerSize + r.pathname.bytes.length)).1.writeAdvance o₂ r.logged.aux
        r.logged.aux.length).2, ?_⟩
    rw [appendRecord, appendHeader_eq h, hfirst]
    simp only [bind, Except.bind, appendAux_eq haux h, SbInfo.after, hlog, TrRecord.kernelAfter,
      haux, false_or, hsecond]

/-! ### The log after one record -/

namespace LogRecord

variable {r : LogRecord} {log : LogFile} {o₁ o₂ : WriteOutcome}

/-- The count of the first write. -/
theorem toNat_headerCount (r : LogRecord) :
    ((headerSize : ℤ) + r.path.length).toNat = (r.hdr.bytes ++ r.path).length := by
  simp
  omega

/-- When all writes complete, the frame of the record is written at the position and the position
moves behind it. -/
theorem logAfter_complete (hpos : 0 ≤ log.fPos) :
    r.logAfter log .complete .complete =
      ⟨pwrite log.data log.fPos.toNat r.frame, log.fPos + r.frame.length⟩ := by
  have hhead : (r.hdr.bytes ++ r.path).length = headerSize + r.path.length := by simp
  have hfirst : (log.writeAdvance .complete (r.hdr.bytes ++ r.path)
    (headerSize + r.path.length)).1 =
      ⟨pwrite log.data log.fPos.toNat (r.hdr.bytes ++ r.path),
        log.fPos + (r.hdr.bytes ++ r.path).length⟩ := by
    rw [LogFile.writeAdvance_complete hpos (by omega), r.toNat_headerCount, List.take_length, hhead]
    push_cast
    rfl
  unfold logAfter
  rw [hfirst]
  by_cases haux : r.aux = []
  · rw [if_pos haux, frame, haux, List.append_nil]
  · have hnat : (log.fPos + (r.hdr.bytes ++ r.path).length).toNat =
        log.fPos.toNat + (r.hdr.bytes ++ r.path).length := by omega
    rw [if_neg haux, LogFile.writeAdvance_complete (by dsimp only; omega) (by omega)]
    dsimp only
    rw [Int.toNat_natCast, List.take_length, hnat, pwrite_pwrite, frame]
    simp [add_assoc]

/-- When all writes complete, the frame of the record is committed. -/
theorem committed_logAfter_complete (hpos : 0 ≤ log.fPos) :
    (r.logAfter log .complete .complete).committed = log.committed ++ r.frame := by
  have hnat : (log.fPos + r.frame.length).toNat = log.fPos.toNat + r.frame.length := by omega
  rw [logAfter_complete hpos, LogFile.committed]
  dsimp only
  rw [hnat, prefixAt_pwrite, LogFile.committed]

/-- Without auxiliary data the outcome of a second write does not matter. -/
theorem logAfter_congr (haux : r.aux = []) {o₂' : WriteOutcome} :
    r.logAfter log o₁ o₂ = r.logAfter log o₁ o₂' := by
  simp [logAfter, haux]

/-- The count of the first write is positive. -/
theorem headerCount_pos (r : LogRecord) : (0 : ℤ) < headerSize + r.path.length := by
  have : (0 : ℤ) < headerSize := by decide
  omega

/-- When no write completes, neither the position nor the committed bytes change. -/
theorem logAfter_incomplete (h₁ : o₁ ≠ .complete) (h₂ : r.aux = [] ∨ o₂ ≠ .complete) :
    (r.logAfter log o₁ o₂).fPos = log.fPos ∧
      (r.logAfter log o₁ o₂).committed = log.committed := by
  unfold logAfter
  dsimp only
  split
  · exact ⟨(LogFile.writeAdvance_incomplete h₁ r.headerCount_pos).1,
      LogFile.committed_writeAdvance_incomplete h₁ r.headerCount_pos⟩
  · next haux =>
    have hsecond : o₂ ≠ .complete := h₂.resolve_left haux
    have hlen : (0 : ℤ) < r.aux.length := Int.natCast_pos.mpr (List.length_pos_iff.mpr haux)
    rw [(LogFile.writeAdvance_incomplete hsecond hlen).1,
      LogFile.committed_writeAdvance_incomplete hsecond hlen]
    exact ⟨(LogFile.writeAdvance_incomplete h₁ r.headerCount_pos).1,
      LogFile.committed_writeAdvance_incomplete h₁ r.headerCount_pos⟩

/-- How far the position moves for any outcome: by what the writes that completed have written. -/
theorem fPos_logAfter (hpos : 0 ≤ log.fPos) :
    (r.logAfter log o₁ o₂).fPos = log.fPos +
      (if o₁ = .complete then (headerSize : ℤ) + r.path.length else 0) +
      (if o₂ = .complete then (r.aux.length : ℤ) else 0) := by
  have hhead := r.headerCount_pos
  have hfirst : (log.writeAdvance o₁ (r.hdr.bytes ++ r.path) (headerSize + r.path.length)).1.fPos =
      log.fPos + (if o₁ = .complete then (headerSize : ℤ) + r.path.length else 0) := by
    by_cases ho : o₁ = .complete
    · rw [ho, LogFile.writeAdvance_complete hpos hhead.le, if_pos rfl]
    · rw [(LogFile.writeAdvance_incomplete ho hhead).1, if_neg ho, add_zero]
  unfold logAfter
  dsimp only
  split
  · next haux => simp [hfirst, haux]
  · next haux =>
    have hlen := List.length_pos_iff.mpr haux
    by_cases ho : o₂ = .complete
    · rw [ho, LogFile.writeAdvance_complete _ (by omega), if_pos rfl]
      · dsimp only
        rw [hfirst]
      · rw [hfirst]
        split <;> omega
    · rw [(LogFile.writeAdvance_incomplete ho (by omega)).1, hfirst, if_neg ho, add_zero]

end LogRecord

/-- The record filled from arguments that can be framed is within the limits. -/
theorem FillArgs.appendable_record {a : FillArgs} (h : a.Framed) (recId : CInt)
    (pathPage auxPage : ℕ) : (a.record recId pathPage auxPage).Appendable where
  wellFormed := by
    rw [logged_record h]
    exact wellFormed_logRecord h recId
  pathname_ne := by simp [record]
  aux_null := by
    intro h0
    have hlen : (BitVec.ofNat 16 a.auxLogged.length).toInt = a.auxLogged.length :=
      toInt_ofNat_of_le (by have := h.size_le; omega)
    have hnil : a.auxLogged = [] := by
      rw [← List.length_eq_zero_iff, ← Int.natCast_inj, ← hlen]
      have : BitVec.ofNat 16 a.auxLogged.length = 0 := h0
      simp [this]
    have haux : a.aux = .chars .null := by
      by_contra hne
      exact (auxLogged_ne_nil_iff h.aux_ok).mpr hne hnil
    simp [record, auxPtr, haux]

/-- The body of a logging tail on arguments that can be framed, with both pages available: one
number is drawn and the log receives the record of the arguments. -/
theorem fillAppend_framed {a : FillArgs} (h : a.Framed) {env : PageEnv} (henv : env.available)
    (sb : SbInfo) (k : Kernel) (o₁ o₂ : WriteOutcome) :
    ∃ page k', fillAppend env sb k a o₁ o₂ =
        .ok ({ sb with
          log := (a.logRecord (k.trecordId + 1)).logAfter sb.log o₁ o₂, trPage := page }, k') ∧
      k'.trecordId = k.trecordId + 1 := by
  obtain ⟨pathPage, auxPage⟩ := env
  obtain ⟨hpath, haux⟩ := henv
  obtain ⟨pathPage, rfl⟩ := Option.isSome_iff_exists.mp hpath
  obtain ⟨auxPage, rfl⟩ := Option.isSome_iff_exists.mp haux
  let k₁ : Kernel :=
    { k with trecordId := k.trecordId + 1, ledger := auxPage :: pathPage :: k.ledger }
  let r := a.record (k.trecordId + 1) pathPage auxPage
  obtain ⟨ret, hret⟩ :=
    appendRecord_eq (FillArgs.appendable_record h (k.trecordId + 1) pathPage auxPage) sb k₁ o₁ o₂
  refine ⟨r.staged sb.trPage, r.kernelAfter k₁, ?_, ?_⟩
  · rw [fillAppend, fillRecord_framed h]
    simp only [bind, Except.bind, k₁, r] at hret ⊢
    rw [hret, SbInfo.after, FillArgs.logged_record h]
  · unfold TrRecord.kernelAfter
    split <;> simp [k₁]

/-! ### Numbers in the log -/

namespace LogFile

/-- The number found by casting the position `pos` of the log to a record. -/
def recIdAt (log : LogFile) (pos : ℕ) : CInt :=
  (Header.ofBytes (log.data.drop pos)).recId

/-- The number depends only on the bytes up to the end of its field. -/
theorem recIdAt_congr {log log' : LogFile} {pos : ℕ}
    (h : log'.data.take (pos + recIdSize) = log.data.take (pos + recIdSize)) :
    log'.recIdAt pos = log.recIdAt pos := by
  have hfield (l : LogFile) : l.recIdAt pos =
      BitVec.ofNat 32 (ofLeBytes ((l.data.take (pos + recIdSize)).drop pos)) := by
    rw [List.drop_take, Nat.add_sub_cancel_left]
    rfl
  rw [hfield, hfield, h]

/-- The number of a header in the log. -/
theorem recIdAt_of_drop {log : LogFile} {pos : ℕ} {h : Header} {rest : List UInt8}
    (hdrop : log.data.drop pos = h.bytes ++ rest) : log.recIdAt pos = h.recId := by
  have hfield : (h.bytes ++ rest).take 4 = h.bytes.take 4 :=
    List.take_append_of_le_length (by rw [Header.length_bytes]; decide)
  have hid : (Header.ofBytes (h.bytes ++ rest)).recId = (Header.ofBytes h.bytes).recId := by
    simp only [Header.ofBytes, Header.fieldAt, List.drop_zero, hfield]
  rw [recIdAt, hdrop, hid, Header.ofBytes_bytes]

variable {log : LogFile} {o : WriteOutcome} {src : List UInt8} {count : ℤ}

/-- Whatever becomes of it, a write leaves the bytes before the position as they were. -/
theorem take_writeAdvance {n : ℕ} (hpos : n ≤ log.fPos.toNat) (hn : n ≤ log.data.length) :
    (log.writeAdvance o src count).1.data.take n = log.data.take n ∧
      n ≤ (log.writeAdvance o src count).1.data.length := by
  have hdata : (log.writeAdvance o src count).1.data = log.data ∨
      ∃ bytes, (log.writeAdvance o src count).1.data = pwrite log.data log.fPos.toNat bytes := by
    unfold writeAdvance kernelWrite
    split
    · refine .inl ?_
      dsimp only
      split <;> rfl
    · cases o with
      | complete =>
        refine .inr ⟨src.take count.toNat, ?_⟩
        dsimp only
        split <;> rfl
      | short n =>
        refine .inr ⟨src.take (min n (count.toNat - 1)), ?_⟩
        dsimp only
        split <;> rfl
      | errno e =>
        refine .inl ?_
        dsimp only
        split <;> rfl
  rcases hdata with hdata | ⟨bytes, hdata⟩
  · rw [hdata]
    exact ⟨rfl, hn⟩
  · rw [hdata]
    exact ⟨take_pwrite bytes hpos hn, hn.trans (length_le_length_pwrite _ _ _)⟩

/-- The position stays or moves by the count. -/
theorem fPos_writeAdvance (log : LogFile) (o : WriteOutcome) (src : List UInt8) (count : ℤ) :
    (log.writeAdvance o src count).1.fPos = log.fPos ∨
      (log.writeAdvance o src count).1.fPos = log.fPos + count := by
  have hsame : (log.kernelWrite o src count).1.fPos = log.fPos := by
    unfold kernelWrite
    split
    · rfl
    · cases o <;> rfl
  unfold writeAdvance
  dsimp only
  split
  · exact .inl hsame
  · next hret => exact .inr (by dsimp only; rw [hsame, not_not.mp hret])

/-- Only a complete write of a positive number of bytes moves the position forward. -/
theorem complete_of_lt (h : log.fPos < (log.writeAdvance o src count).1.fPos) :
    o = .complete ∧ 0 ≤ log.fPos ∧ 0 < count := by
  have hcount : 0 < count := by
    rcases fPos_writeAdvance log o src count with hmove | hmove <;> omega
  refine ⟨?_, ?_, hcount⟩
  · by_contra ho
    exact absurd h (not_lt.mpr (writeAdvance_incomplete ho hcount).1.le)
  · by_contra hneg
    have hfail : -(o.error.code : ℤ) ≠ count := by omega
    have hmove : (log.writeAdvance o src count).1.fPos = log.fPos := by
      simp [writeAdvance, kernelWrite, not_le.mp hneg, hfail]
    omega

end LogFile

/-! ### Filled records in general -/

namespace TrRecord.Filled

variable {r : TrRecord}

/-- A filled record has a path. -/
theorem pathname_ne (hr : r.Filled) : r.pathname ≠ .null := by
  intro hnull
  exact hr.path_ne (by rw [hnull]; rfl)

/-- The size is right modulo `2 ^ 16`. -/
theorem recSize_eq (hr : r.Filled) (hsize : r.recSize = recordSizeAux r.pathLen r.auxLen) :
    r.recSize = BitVec.ofInt 16 (headerSize + r.pathname.bytes.length + r.auxLen.toInt) := by
  rw [hsize, recordSizeAux_eq, hr.pathLen_eq]

/-- So `rec_size_common` is the size of the header, whatever the lengths are. -/
theorem common_eq (hr : r.Filled) (hsize : r.recSize = recordSizeAux r.pathLen r.auxLen) :
    BitVec.ofInt 16 (r.recSize.toInt - r.pathLen.toInt - r.auxLen.toInt) =
      BitVec.ofNat 16 headerSize := by
  have hhead : headerSize = 32 := rfl
  apply BitVec.eq_of_toInt_eq
  rw [hr.recSize_eq hsize, hr.pathLen_eq, toInt_ofInt_sixteen, toInt_ofInt_sixteen,
    toInt_ofNat_sixteen]
  omega

/-- Without a size it is not positive. -/
theorem common_le (hr : r.Filled) (hsize : r.recSize = 0 ∧ r.auxLen = 0) :
    (BitVec.ofInt 16 (r.recSize.toInt - r.pathLen.toInt - r.auxLen.toInt)).toInt ≤ 0 := by
  have hlt : r.pathname.bytes.length < 4096 := hr.path_lt
  have hzero : (0 : CShort).toInt = 0 := rfl
  rw [hsize.1, hsize.2, hr.pathLen_eq, toInt_ofInt_sixteen, hzero]
  omega

/-- The count of the first write is the size of header and path, or `2 ^ 16` less when the size has
wrapped. -/
theorem headerCount_cases (hr : r.Filled) (hsize : r.recSize = recordSizeAux r.pathLen r.auxLen) :
    r.recSize.toInt - r.auxLen.toInt = headerSize + r.pathname.bytes.length ∨
      r.recSize.toInt - r.auxLen.toInt = headerSize + r.pathname.bytes.length - 65536 := by
  have hhead : headerSize = 32 := rfl
  have hlt : r.pathname.bytes.length < 4096 := hr.path_lt
  have hlow := r.auxLen.le_toInt
  have hhigh := r.auxLen.toInt_lt
  rw [hr.recSize_eq hsize, toInt_ofInt_sixteen]
  omega

/-- The first half of `append_record` on a filled record writes from the staging buffer, and if its
count is positive, it is the size of header and path. -/
theorem appendHeader (hr : r.Filled) {sb sb' : SbInfo} {k k' : Kernel} {o : WriteOutcome} {ret : ℤ}
    (h : Trfs.appendHeader sb k r o = .ok (sb', k', ret)) :
    k'.trecordId = k.trecordId ∧ ∃ count : ℤ,
      sb'.log = (sb.log.writeAdvance o (r.staged sb.trPage) count).1 ∧
      (0 < count → count = headerSize + r.pathname.bytes.length) := by
  rcases hr.sized with hsize | hsize
  · rw [appendHeader_of_common hr.pathname_ne (hr.common_eq hsize)] at h
    cases h
    refine ⟨Kernel.freePage_trecordId k _, _, rfl, fun hpos => ?_⟩
    have hhead : headerSize = 32 := rfl
    have hlt : r.pathname.bytes.length < 4096 := hr.path_lt
    rcases hr.headerCount_cases hsize with hcount | hcount <;> omega
  · simp only [Trfs.appendHeader, hr.common_le hsize, if_true] at h
    cases h

/-- `append_record` returns for a record with a size that has data or no pointer to it. -/
theorem exists_appendRecord (hr : r.Filled) (hsize : r.recSize = recordSizeAux r.pathLen r.auxLen)
    (haux : r.auxLen = 0 → r.aux = .null) (sb : SbInfo) (k : Kernel) (o₁ o₂ : WriteOutcome) :
    ∃ sb' k' ret, appendRecord sb k r o₁ o₂ = .ok (sb', k', ret) := by
  rw [appendRecord, appendHeader_of_common hr.pathname_ne (hr.common_eq hsize)]
  simp only [bind, Except.bind, appendAux]
  by_cases hzero : r.auxLen = 0
  · rw [if_pos hzero, if_neg (not_not.mpr (haux hzero))]
    exact ⟨_, _, _, rfl⟩
  · rw [if_neg hzero]
    exact ⟨_, _, _, rfl⟩

end TrRecord.Filled

/-- When it moves the position forward, the number of the record stands at the old position. -/
theorem TrRecord.Filled.recIdAt_appendHeader {r : TrRecord} (hr : r.Filled) {sb sb' : SbInfo}
    {k k' : Kernel} {o : WriteOutcome} {ret : ℤ}
    (h : Trfs.appendHeader sb k r o = .ok (sb', k', ret))
    (hlt : sb.log.fPos < sb'.log.fPos) :
    sb'.log.recIdAt sb.log.fPos.toNat = r.recId ∧
      sb.log.fPos.toNat + recIdSize ≤ sb'.log.data.length ∧
      sb.log.fPos.toNat + recIdSize ≤ sb'.log.fPos.toNat := by
  obtain ⟨-, count, hlog, hcount⟩ := hr.appendHeader h
  rw [hlog] at hlt ⊢
  obtain ⟨rfl, hpos, hcount'⟩ := LogFile.complete_of_lt hlt
  obtain rfl := hcount hcount'
  obtain ⟨rest, hrest⟩ := r.staged_eq sb.trPage
  have hsize : recIdSize ≤ headerSize := by decide
  have hnat : ((headerSize : ℤ) + r.pathname.bytes.length).toNat =
      headerSize + r.pathname.bytes.length := by omega
  rw [LogFile.writeAdvance_complete hpos hcount'.le, hnat, r.take_staged]
  dsimp only
  refine ⟨?_, ?_, by omega⟩
  · apply LogFile.recIdAt_of_drop
    rw [drop_pwrite, List.append_assoc]
  · simp only [pwrite, List.length_append, length_prefixAt, Header.length_bytes]
    omega

/-! ### Logs without gaps -/

/-- A log of exactly the given bytes, with the position at their end. -/
def LogFile.holding (bytes : List UInt8) : LogFile :=
  ⟨bytes, bytes.length⟩

/-- A complete write to such a log appends. -/
theorem LogFile.writeAdvance_holding (bytes src : List UInt8) {count : ℕ}
    (hcount : count ≤ src.length) :
    ((LogFile.holding bytes).writeAdvance .complete src count).1 =
      .holding (bytes ++ src.take count) := by
  have hpos : 0 ≤ (LogFile.holding bytes).fPos := Int.natCast_nonneg _
  rw [writeAdvance_complete hpos (Int.natCast_nonneg _), Int.toNat_natCast]
  simp only [holding, Int.toNat_natCast, pwrite_length, List.length_append, List.length_take,
    Nat.min_eq_left hcount, Nat.cast_add]

/-- All bytes of such a log are committed. -/
theorem LogFile.committed_holding (bytes : List UInt8) :
    (LogFile.holding bytes).committed = bytes := by
  rw [committed, holding, Int.toNat_natCast, prefixAt_length]

/-- A record whose writes complete is appended to such a log. -/
theorem LogRecord.logAfter_holding (r : LogRecord) (bytes : List UInt8) :
    r.logAfter (.holding bytes) .complete .complete = .holding (bytes ++ r.frame) := by
  rw [logAfter_complete (Int.natCast_nonneg _)]
  simp only [LogFile.holding, Int.toNat_natCast, pwrite_length, List.length_append, Nat.cast_add]

/-! ### The mask and the log -/

/-- The first half of `append_record` makes one write to the log. -/
theorem log_of_appendHeader {sb sb' : SbInfo} {k k' : Kernel} {r : TrRecord} {o : WriteOutcome}
    {ret : ℤ} (h : appendHeader sb k r o = .ok (sb', k', ret)) :
    ∃ page, sb'.log = (sb.log.writeAdvance o page (r.recSize.toInt - r.auxLen.toInt)).1 := by
  unfold appendHeader at h
  dsimp only at h
  split at h
  · cases h
  · split at h
    · cases h
    · cases h
      exact ⟨_, rfl⟩

/-- The first half of `append_record` leaves the mask as it is. -/
theorem umask_of_appendHeader {sb sb' : SbInfo} {k k' : Kernel} {r : TrRecord} {o : WriteOutcome}
    {ret : ℤ} (h : appendHeader sb k r o = .ok (sb', k', ret)) : sb'.umask = sb.umask := by
  unfold appendHeader at h
  dsimp only at h
  split at h
  · cases h
  · split at h
    · cases h
    · cases h
      rfl

/-- So does the second half. -/
theorem umask_of_appendAux {sb sb' : SbInfo} {k k' : Kernel} {r : TrRecord} {o : WriteOutcome}
    {ret ret' : ℤ} (h : appendAux sb k r o ret = .ok (sb', k', ret')) : sb'.umask = sb.umask := by
  unfold appendAux at h
  split at h
  · split at h
    · cases h
    · cases h
      rfl
  · cases h
    rfl

end Trfs
