import TraceFileSystem.Record.AppendRecord
import TraceFileSystem.Treplay.Machine

/-!
# The staging buffer

`append_record` does not know the size of a header.  It computes it from the three lengths of a
record, in `int` arithmetic on values that were truncated to sixteen bits before, and truncates the
result once more.  As all truncations are modulo `2 ^ 16`, the result is right for every length
(`Filled.recSizeCommon_eq`).

* `stagingSize` is the size of the buffer that `trfs_read_super` allocates.
* `TrRecord.StoresAt` are the bytes of the buffer to which a record is staged: the header is copied
  to its beginning, and the path with its terminator behind the header.
* `relPath` is where `treplay` looks for the path.

`staged_within` puts them together for every record that `fill_record` builds.
-/

namespace Trfs

open LittleEndian ByteStore

/-- The size of the staging buffer, `sizeof(struct tr_record) + PAGE_SIZE`. -/
def stagingSize : ℕ := sizeofTrRecord + pageSize

/-- `rec_size_common` of `append_record`. -/
def TrRecord.recSizeCommon (r : TrRecord) : CShort :=
  BitVec.ofInt 16 (r.recSize.toInt - r.pathLen.toInt - r.auxLen.toInt)

/-- The bytes of the staging buffer to which `append_record` stores: `memcpy` of `rec_size_common`
bytes, a `size_t`, to the beginning, and `strcpy` of the path to the index `rec_size_common`. -/
def TrRecord.StoresAt (r : TrRecord) (i : ℤ) : Prop :=
  (0 ≤ i ∧ i < (r.recSizeCommon.signExtend 64).toNat) ∨
    (r.recSizeCommon.toInt ≤ i ∧ i ≤ r.recSizeCommon.toInt + r.pathname.bytes.length)

/-- `rel_path` for a record at a position of the buffer of `treplay`. -/
def relPath (buf : ℤ) : ℤ := buf + sizeofTrRecord - sizeofPtr - sizeofPtr

/-- The record types that `fill_record` handles; for the other two it prints a message. -/
def RecType.Handled (t : RecType) : Prop := t ≠ .fread ∧ t ≠ .dread

/-- The argument `aux` has the type that `fill_record` expects of it: a dentry with a path that fits
a page for `rename` and `link`, and characters for writes and symlinks. -/
def FillArgs.AuxSuits (a : FillArgs) (t : RecType) : Prop :=
  match t with
  | .rename | .link => ∃ d, a.aux = .dentry d ∧ d.path.strlen ≤ 4095
  | .fwrite | .symlink => ∃ p, a.aux = .chars p
  | _ => True

/-! ### The size of the header -/

namespace TrRecord.Filled

variable {r : TrRecord}

/-- Whatever the lengths are, `rec_size_common` is the size of the header. -/
theorem recSizeCommon_eq (hr : r.Filled) (hsize : r.recSize = recordSizeAux r.pathLen r.auxLen) :
    r.recSizeCommon = BitVec.ofNat 16 headerSize :=
  hr.common_eq hsize

/-- All bytes to which a record is staged are within the buffer. -/
theorem lt_stagingSize (hr : r.Filled) (hsize : r.recSize = recordSizeAux r.pathLen r.auxLen)
    {i : ℤ} (hi : r.StoresAt i) : 0 ≤ i ∧ i < stagingSize := by
  have hnat : ((BitVec.ofNat 16 headerSize : CShort).signExtend 64).toNat = 32 := by decide
  have hint : (BitVec.ofNat 16 headerSize : CShort).toInt = 32 := by decide
  have hstaging : stagingSize = 4144 := rfl
  have hpath : r.pathname.bytes.length < 4096 := hr.path_lt
  rw [StoresAt, hr.recSizeCommon_eq hsize, hnat, hint] at hi
  omega

end TrRecord.Filled

/-- For a type it handles, `fill_record` computes the size from both lengths and keeps the path. -/
theorem exists_fillSwitch {a : FillArgs} {t : RecType} (htype : a.type = t.code) (ht : t.Handled)
    (haux : a.AuxSuits t) (auxPage : ℕ) {r : TrRecord} (hzero : r.auxLen = 0) :
    ∃ r', fillSwitch a auxPage r = .ok r' ∧ r'.recSize = recordSizeAux r'.pathLen r'.auxLen ∧
      r'.pathname = r.pathname := by
  have hcode : RecType.ofCode? a.type = some t := by rw [htype, RecType.ofCode?_code]
  unfold fillSwitch
  rw [hcode]
  cases t with
  | fcreat | dcreat | unlink =>
    refine ⟨{ r with recSize := recordSize r.pathLen }, rfl, ?_, rfl⟩
    rw [recordSize_eq, ← hzero]
  | fwrite | symlink =>
    obtain ⟨p, hp⟩ := haux
    rw [hp]
    exact ⟨_, rfl, rfl, rfl⟩
  | rename | link =>
    obtain ⟨d, hd, hle⟩ := haux
    have hraw : dentryPathRaw d auxPage = some (.page auxPage d.path) :=
      if_pos (Nat.lt_succ_of_le hle)
    simp only [hd, hraw]
    exact ⟨_, rfl, rfl, rfl⟩
  | fread => exact absurd rfl ht.1
  | dread => exact absurd rfl ht.2

/-- The record that `fill_record` builds for a type it handles. -/
theorem exists_fillRecord_handled {a : FillArgs} {t : RecType} (htype : a.type = t.code)
    (ht : t.Handled) (hpath : a.dentry.path.strlen ≤ 4095) (haux : a.AuxSuits t) (k : Kernel)
    (pathPage auxPage : ℕ) :
    ∃ k' r, fillRecord ⟨some pathPage, some auxPage⟩ k a = .ok (k', .ok r) ∧ r.Filled ∧
      r.recSize = recordSizeAux r.pathLen r.auxLen ∧ r.pathname = .page pathPage a.dentry.path := by
  have hne : a.type ≠ 0 := by
    rw [htype]
    exact RecType.code_ne_zero t
  have hlt : a.dentry.path.strlen < pageSize := Nat.lt_succ_of_le hpath
  have hraw : dentryPathRaw a.dentry pathPage = some (.page pathPage a.dentry.path) := if_pos hlt
  have hbase := a.filled_base (k.trecordId + 1) pathPage hlt
  obtain ⟨r, hr, hsize, hname⟩ := exists_fillSwitch htype ht haux auxPage
    (r := a.base (k.trecordId + 1) (.page pathPage a.dentry.path)) rfl
  refine ⟨{ k with trecordId := k.trecordId + 1, ledger := auxPage :: pathPage :: k.ledger }, r, ?_,
    (hbase.fillSwitch rfl hr).1, hsize, hname⟩
  simp only [fillRecord, if_neg hne, hraw, hr]
  rfl

/-! ### The buffer and the reader -/

/-- `rel_path` is the byte behind the header. -/
theorem relPath_eq (buf : ℤ) : relPath buf = buf + headerSize := by
  have hheader : (headerSize : ℤ) = 32 := rfl
  have hsize : (sizeofTrRecord : ℤ) = 48 := rfl
  have hptr : (sizeofPtr : ℤ) = 8 := rfl
  rw [relPath, hsize, hptr, hheader]
  ring

/-- Staging a record does not make the buffer longer. -/
theorem TrRecord.Filled.length_staged {r : TrRecord} (hr : r.Filled) {page : List UInt8}
    (hpage : page.length = stagingSize) : (r.staged page).length = stagingSize := by
  have hheader : headerSize = 32 := rfl
  have hstaging : stagingSize = 4144 := rfl
  have hpath : r.pathname.bytes.length < 4096 := hr.path_lt
  have hfirst : (pwrite page 0 r.toHeader.bytes).length = page.length := by
    refine length_pwrite_of_le ?_
    rw [Header.length_bytes]
    omega
  have hsecond : headerSize + (r.pathname.bytes ++ [0]).length ≤
      (pwrite page 0 r.toHeader.bytes).length := by
    rw [hfirst, List.length_append, List.length_singleton]
    omega
  rw [staged, length_pwrite_of_le hsecond, hfirst, hpage]

/-- `treplay` finds the path of a staged record. -/
theorem TrRecord.Filled.path_recordAt {r : TrRecord} (hr : r.Filled) (page : List UInt8) (m : Mem)
    (buf : ℤ) : (recordAt (load m buf (r.staged page)) buf).path = r.pathname.bytes := by
  obtain ⟨rest, hrest⟩ := r.staged_eq page
  rw [List.append_assoc] at hrest
  have hm := readBytes_load m buf (r.staged page)
  rw [hrest] at hm ⊢
  have hhead := readBytes_append_left hm
  have htail := readBytes_append_left (readBytes_append_right hm)
  rw [Header.length_bytes] at hhead htail
  have hheader : headerAt (load m buf (r.toHeader.bytes ++ (r.pathname.bytes ++ rest))) buf =
      r.toHeader := by
    rw [headerAt, hhead, Header.ofBytes_bytes]
  rw [recordAt, hheader, hr.pathLen_eq, Int.toNat_natCast, htail]

/-- **Header arithmetic.**  For every record type that `fill_record` handles, every path that fits a
page and every auxiliary length, `append_record` computes the size of the header, stores only to
bytes of the staging buffer, and puts the path where `treplay` looks for it. -/
theorem staged_within {a : FillArgs} {t : RecType} (htype : a.type = t.code) (ht : t.Handled)
    (hpath : a.dentry.path.strlen ≤ 4095) (haux : a.AuxSuits t) (k : Kernel)
    (pathPage auxPage : ℕ) :
    ∃ k' r, fillRecord ⟨some pathPage, some auxPage⟩ k a = .ok (k', .ok r) ∧
      r.recSizeCommon.toInt = 32 ∧ (∀ i, r.StoresAt i → 0 ≤ i ∧ i < stagingSize) ∧
      (∀ buf, relPath buf = buf + r.recSizeCommon.toInt) ∧
      ∀ sb o, sb.trPage.length = stagingSize →
        ∃ sb' k'' ret, appendHeader sb k' r o = .ok (sb', k'', ret) ∧
          sb'.trPage.length = stagingSize ∧
          ∀ m buf, (recordAt (load m buf sb'.trPage) buf).path = a.dentry.path.bytes := by
  obtain ⟨k', r, hfill, hr, hsize, hname⟩ :=
    exists_fillRecord_handled htype ht hpath haux k pathPage auxPage
  have hcommon := hr.recSizeCommon_eq hsize
  refine ⟨k', r, hfill, ?_, fun i => hr.lt_stagingSize hsize, fun buf => ?_, fun sb o hpage => ?_⟩
  · rw [hcommon]
    decide
  · rw [hcommon, relPath_eq]
    rfl
  · refine ⟨_, _, _, appendHeader_of_common hr.pathname_ne hcommon sb k' o,
      hr.length_staged hpage, fun m buf => ?_⟩
    rw [hr.path_recordAt, hname]
    rfl

/-- A `write` of `2 ^ 31 - 1` bytes to `/l`, whose length is truncated to `-1`. -/
theorem staged_within_write :
    ∃ k' r, fillRecord ⟨some 0, some 1⟩ ⟨0, [], []⟩
        (.ofWrite ⟨⟨[47, 108], by decide⟩, by decide⟩ 0 0 .null 2147483647) = .ok (k', .ok r) ∧
      r.auxLen.toInt = -1 ∧ r.recSizeCommon.toInt = 32 := by
  obtain ⟨k', r, hfill, hcommon, -⟩ := staged_within (t := .fwrite)
    (a := .ofWrite ⟨⟨[47, 108], by decide⟩, by decide⟩ 0 0 .null 2147483647) rfl
    ⟨by decide, by decide⟩ (by decide) ⟨.null, rfl⟩ ⟨0, [], []⟩ 0 1
  refine ⟨k', r, hfill, ?_, hcommon⟩
  cases hfill
  decide

end Trfs
