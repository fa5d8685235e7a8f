import TraceFileSystem.Record.Layout

/-!
# `fill_record`

The function that turns the arguments of a logging tail into a `struct tr_record`
(`trfs/trdump.c`).  It refuses the type zero, allocates a page for each of the two paths, draws a
number from the global counter `trecord_id`, and fills in the fields; which of them depends on the
record type.  All lengths are `short`: `path_len` and `aux_len` are truncated to sixteen bits, and
`rec_size` is computed in sixty-four bit unsigned arithmetic and then truncated.

The kernel around the function is the state `Kernel`: the counter, the ledger of pages handed out
and not yet freed, and the pointers that were passed to `free_page` without being in the ledger.
Whether the two allocations succeed is decided by a `PageEnv`.

The results at the end say what a filled record looks like: `fillRecord_ok` for the whole function,
`recordSizeAux_eq` for the truncation, and the sizes of records that fit the format.
-/

namespace Trfs

open LittleEndian

/-- `PAGE_SIZE`. -/
def pageSize : ℕ := 4096

/-- `ENOMEM`. -/
def eNOMEM : ℤ := 12

/-- Ways for a thread to be stopped by the kernel. -/
inductive Fault where
  /-- A `BUG_ON` condition was true. -/
  | bugOn
  /-- A NULL pointer was dereferenced. -/
  | nullDeref
  /-- An error pointer was used as a string. -/
  | errPtrDeref
  /-- A pointer was used at a type it does not have. -/
  | wildPtr
  deriving DecidableEq, Repr

/-- The part of the kernel state that logging changes. -/
structure Kernel where
  /-- The global counter `trecord_id`, an `atomic_t`. -/
  trecordId : CInt
  /-- The pages handed out by `__get_free_page` and not yet freed. -/
  ledger : List ℕ
  /-- The pointers passed to `free_page` that do not lead into a page of the ledger. -/
  strayFrees : List CharPtr
  deriving DecidableEq

/-- The answers of the two calls of `__get_free_page` in `fill_record`; `none` is failure. -/
structure PageEnv where
  pathPage : Option ℕ
  auxPage : Option ℕ
  deriving DecidableEq

/-- Both allocations succeed. -/
def PageEnv.available (env : PageEnv) : Prop :=
  env.pathPage.isSome ∧ env.auxPage.isSome

instance (env : PageEnv) : Decidable env.available :=
  inferInstanceAs (Decidable (_ ∧ _))

/-- The two pages. -/
theorem PageEnv.exists_of_available {env : PageEnv} (h : env.available) :
    ∃ pathPage auxPage, env = ⟨some pathPage, some auxPage⟩ := by
  obtain ⟨pathPage, auxPage⟩ := env
  obtain ⟨pathPage, rfl⟩ := Option.isSome_iff_exists.mp h.1
  obtain ⟨auxPage, rfl⟩ := Option.isSome_iff_exists.mp h.2
  exact ⟨pathPage, auxPage, rfl⟩

/-- A dentry of the mounted file system, known by its path relative to the mount point. -/
structure Dentry where
  path : CString
  path_ne : path.bytes ≠ []
  deriving DecidableEq

/-- The argument `void *aux` of `fill_record`. -/
inductive AuxArg where
  /-- A character pointer, possibly NULL. -/
  | chars (p : CharPtr)
  /-- A dentry. -/
  | dentry (d : Dentry)
  deriving DecidableEq

/-- `dentry_path_raw(dentry, page, PAGE_SIZE)`: the path inside the page, or `none` for the error
pointer that is returned when the path and its terminator do not fit the page. -/
def dentryPathRaw (d : Dentry) (page : ℕ) : Option CharPtr :=
  if d.path.strlen < pageSize then some (.page page d.path) else none

/-- `free_page`. -/
def Kernel.freePage (k : Kernel) (p : CharPtr) : Kernel :=
  match p with
  | .page id _ =>
    if id ∈ k.ledger then { k with ledger := k.ledger.erase id }
    else { k with strayFrees := p :: k.strayFrees }
  | _ => { k with strayFrees := p :: k.strayFrees }

/-- `RECORD_SIZE`, assigned to a `short`. -/
def recordSize (pathLen : CShort) : CShort :=
  (BitVec.ofNat 64 sizeofTrRecord + pathLen.signExtend 64 - BitVec.ofNat 64 sizeofPtr
    - BitVec.ofNat 64 sizeofPtr).setWidth 16

/-- `RECORD_SIZE_AUX`, assigned to a `short`. -/
def recordSizeAux (pathLen auxLen : CShort) : CShort :=
  (BitVec.ofNat 64 sizeofTrRecord + pathLen.signExtend 64 + auxLen.signExtend 64
    - BitVec.ofNat 64 sizeofPtr - BitVec.ofNat 64 sizeofPtr).setWidth 16

/-- The arguments of `fill_record` other than the record itself. -/
structure FillArgs where
  type : CInt
  dentry : Dentry
  flags : CInt
  permFlags : CInt
  err : CInt
  aux : AuxArg
  auxLen : CInt
  deriving DecidableEq

/-- The arguments with which `trfs_write` calls `fill_record` when writes are traced. -/
def FillArgs.ofWrite (d : Dentry) (flags err : CInt) (buf : CharPtr) (count : ℕ) : FillArgs where
  type := RecType.fwrite.code
  dentry := d
  flags := flags
  permFlags := 0
  err := err
  aux := .chars buf
  auxLen := BitVec.ofNat 32 count

/-- The record before the `switch` of `fill_record`: zeroed, then the common fields. -/
def FillArgs.base (a : FillArgs) (recId : CInt) (pathname : CharPtr) : TrRecord where
  recId := recId
  recFlags := a.flags
  permFlags := a.permFlags
  result := a.err
  recSize := 0
  pathLen := BitVec.ofNat 16 pathname.bytes.length
  type := a.type
  auxLen := 0
  pathname := pathname
  aux := .null

/-- The part of the `switch` shared by the types with auxiliary data: `aux` and `aux_len` are set
and the size is computed from both lengths. -/
def TrRecord.withAux (r : TrRecord) (aux : CharPtr) (auxLen : CShort) : TrRecord :=
  { r with aux := aux, auxLen := auxLen, recSize := recordSizeAux r.pathLen auxLen }

/-- The `switch` of `fill_record`. -/
def fillSwitch (a : FillArgs) (auxPage : ℕ) (r : TrRecord) : Except Fault TrRecord :=
  match RecType.ofCode? a.type with
  | some .fcreat | some .dcreat | some .unlink =>
    .ok { r with recSize := recordSize r.pathLen }
  | some .fwrite | some .symlink =>
    match a.aux with
    | .chars p => .ok (r.withAux p (a.auxLen.setWidth 16))
    | .dentry _ => .error .wildPtr
  | some .rename | some .link =>
    match a.aux with
    | .dentry d =>
      match dentryPathRaw d auxPage with
      | some p => .ok (r.withAux p (BitVec.ofNat 16 p.bytes.length))
      | none => .error .errPtrDeref
    | .chars .null => .error .nullDeref
    | .chars _ => .error .wildPtr
  | some .fread | some .dread | none => .ok r

/-- `fill_record`.  The result is the new kernel state together with the filled record when the
function returns zero and with its return value otherwise. -/
def fillRecord (env : PageEnv) (k : Kernel) (a : FillArgs) :
    Except Fault (Kernel × Except ℤ TrRecord) :=
  if a.type = 0 then .ok (k, .error (-1))
  else
    match env.pathPage with
    | none => .ok (k, .error (-eNOMEM))
    | some pathPage =>
      match env.auxPage with
      | none =>
        -- the cleanup path gives the first page back
        .ok ({ k with ledger := (pathPage :: k.ledger).erase pathPage }, .error (-eNOMEM))
      | some auxPage =>
        let recId := k.trecordId + 1
        match dentryPathRaw a.dentry pathPage with
        | none => .error .errPtrDeref
        | some pathname => do
          let r ← fillSwitch a auxPage (a.base recId pathname)
          .ok ({ k with trecordId := recId, ledger := auxPage :: pathPage :: k.ledger }, .ok r)

/-! ### Record sizes -/

/-- The size computed in sixty-four bits is the sixteen-bit sum after truncation. -/
theorem recordSizeAux_eq (pathLen auxLen : CShort) :
    recordSizeAux pathLen auxLen =
      BitVec.ofInt 16 (headerSize + pathLen.toInt + auxLen.toInt) := by
  have hsum : BitVec.ofNat 64 sizeofTrRecord + pathLen.signExtend 64 + auxLen.signExtend 64
      - BitVec.ofNat 64 sizeofPtr - BitVec.ofNat 64 sizeofPtr =
      BitVec.ofInt 64 (headerSize + pathLen.toInt + auxLen.toInt) := by
    have hhead : BitVec.ofInt 64 (headerSize : ℤ) =
        BitVec.ofNat 64 sizeofTrRecord - BitVec.ofNat 64 sizeofPtr - BitVec.ofNat 64 sizeofPtr := by
      decide
    rw [BitVec.ofInt_add, BitVec.ofInt_add, hhead, BitVec.signExtend, BitVec.signExtend]
    simp only [BitVec.sub_eq_add_neg]
    ac_rfl
  rw [recordSizeAux, hsum, setWidth_ofInt_of_le (by norm_num)]

/-- Without auxiliary data the size is the one for auxiliary data of length zero. -/
theorem recordSize_eq (pathLen : CShort) : recordSize pathLen = recordSizeAux pathLen 0 := by
  simp [recordSize, recordSizeAux]

/-! ### Arguments that make a well-formed record -/

namespace FillArgs

/-- The bytes the argument `aux` leads to: data, a symlink target, or the path of a dentry. -/
def auxBytes (a : FillArgs) : List UInt8 :=
  match a.aux with
  | .chars p => p.bytes
  | .dentry d => d.path.bytes

/-- The bytes that go into the log: their number is the length truncated to sixteen bits. -/
def auxLogged (a : FillArgs) : List UInt8 :=
  a.auxBytes.take (a.auxBytes.length % 65536)

/-- The record the log should receive for the given arguments under the number `recId`. -/
def logRecord (a : FillArgs) (recId : CInt) : LogRecord where
  hdr :=
    { recId := recId
      recFlags := a.flags
      permFlags := a.permFlags
      result := a.err
      recSize := BitVec.ofNat 16 (headerSize + a.dentry.path.strlen + a.auxLogged.length)
      pathLen := BitVec.ofNat 16 a.dentry.path.strlen
      type := a.type
      auxLen := BitVec.ofNat 16 a.auxLogged.length }
  path := a.dentry.path.bytes
  aux := a.auxLogged

/-- The argument `aux` suits the record type: NULL where there is no auxiliary data, a dentry whose
path fits a page for `link` and `rename`, a target string for `symlink`, and for `write` either a
user buffer of the length passed along, whose low sixteen bits are not zero, or NULL and length
zero. -/
def auxOk (a : FillArgs) : Prop :=
  match RecType.ofCode? a.type with
  | some .fcreat | some .dcreat | some .unlink => a.aux = .chars .null
  | some .fwrite =>
    (∃ buf, a.aux = .chars (.user buf) ∧ a.auxLen = BitVec.ofNat 32 buf.length ∧
      buf.length % 65536 ≠ 0) ∨ (a.aux = .chars .null ∧ a.auxLen = 0)
  | some .symlink => ∃ s, a.aux = .chars (.vfs s) ∧ a.auxLen = BitVec.ofNat 32 s.strlen ∧
      s.bytes ≠ [] ∧ s.strlen < pageSize
  | some .rename | some .link => ∃ d, a.aux = .dentry d ∧ d.path.strlen < pageSize
  | some .fread | some .dread | none => False

/-- The arguments give a record that can be framed: the path fits its page, the auxiliary argument
suits the type, and header, path and logged data together stay within a `short`. -/
structure Framed (a : FillArgs) : Prop where
  path_lt : a.dentry.path.strlen < pageSize
  aux_ok : a.auxOk
  size_le : headerSize + a.dentry.path.strlen + a.auxLogged.length ≤ 32767

/-- A write of at least one byte can be framed when path and data fit a `short` together. -/
theorem framed_ofWrite {d : Dentry} {flags err : CInt} {data : List UInt8}
    (hpath : d.path.strlen < pageSize) (hne : data ≠ [])
    (hsize : headerSize + d.path.strlen + data.length ≤ 32767) :
    (ofWrite d flags err (.user data) data.length).Framed where
  path_lt := hpath
  aux_ok := by
    have hlen := List.length_pos_iff.mpr hne
    simp only [auxOk, ofWrite, RecType.ofCode?_code]
    exact .inl ⟨data, rfl, rfl, by omega⟩
  size_le := by
    refine le_trans (Nat.add_le_add_left ?_ _) hsize
    exact List.length_take_le' _ _

/-- A write of no bytes from a NULL buffer can be framed. -/
theorem framed_ofWrite_null {d : Dentry} {flags err : CInt} (hpath : d.path.strlen < pageSize) :
    (ofWrite d flags err .null 0).Framed where
  path_lt := hpath
  aux_ok := by
    simp only [auxOk, ofWrite, RecType.ofCode?_code]
    exact .inr (by simp)
  size_le := by
    simp only [pageSize] at hpath
    simp [auxLogged, auxBytes, ofWrite, CharPtr.bytes, headerSize, sizeofTrRecord, sizeofPtr]
    omega

/-- The pointer a record keeps to its auxiliary data. -/
def auxPtr (a : FillArgs) (auxPage : ℕ) : CharPtr :=
  match a.aux with
  | .chars p => p
  | .dentry d => .page auxPage d.path

/-- The filled record for arguments that can be framed. -/
def record (a : FillArgs) (recId : CInt) (pathPage auxPage : ℕ) : TrRecord where
  toHeader := (a.logRecord recId).hdr
  pathname := .page pathPage a.dentry.path
  aux := a.auxPtr auxPage

/-- As many bytes are logged as the truncated length says. -/
theorem length_auxLogged (a : FillArgs) : a.auxLogged.length = a.auxBytes.length % 65536 := by
  rw [auxLogged, List.length_take, Nat.min_eq_left (Nat.mod_le _ _)]

/-- Truncating the number of logged bytes again changes nothing. -/
theorem ofNat_length_auxLogged (a : FillArgs) :
    BitVec.ofNat 16 a.auxLogged.length = BitVec.ofNat 16 a.auxBytes.length := by
  apply BitVec.eq_of_toNat_eq
  simp [length_auxLogged]

/-- Data shorter than a page, or any data below `2 ^ 16` bytes, is logged completely. -/
theorem auxLogged_eq_of_lt {a : FillArgs} (h : a.auxBytes.length < 65536) :
    a.auxLogged = a.auxBytes := by
  rw [auxLogged, Nat.mod_eq_of_lt h, List.take_length]

end FillArgs

/-- Sizes add up modulo `2 ^ 16`. -/
theorem recordSizeAux_ofNat (p n : ℕ) :
    recordSizeAux (BitVec.ofNat 16 p) (BitVec.ofNat 16 n) =
    BitVec.ofNat 16 (headerSize + p + n) := by
  rw [recordSizeAux_eq, BitVec.ofInt_add, BitVec.ofInt_add, BitVec.ofInt_toInt, BitVec.ofInt_toInt,
    BitVec.ofInt_natCast, BitVec.ofNat_add, BitVec.ofNat_add]

/-- Setting the auxiliary data of a base record gives the expected record when pointer and length
are the expected ones. -/
theorem FillArgs.base_withAux (a : FillArgs) (recId : CInt) (pathPage auxPage : ℕ) {n : CShort}
    (hn : n = BitVec.ofNat 16 a.auxBytes.length) :
    (a.base recId (.page pathPage a.dentry.path)).withAux (a.auxPtr auxPage) n =
      a.record recId pathPage auxPage := by
  subst hn
  simp only [base, TrRecord.withAux, record, logRecord, CharPtr.bytes, CString.strlen,
    recordSizeAux_ofNat, ofNat_length_auxLogged]
  rw [BitVec.ofNat_add (headerSize + _) a.auxLogged.length, ofNat_length_auxLogged,
    ← BitVec.ofNat_add]

/-- The `switch` of `fill_record` on arguments that can be framed. -/
theorem fillSwitch_framed {a : FillArgs} (h : a.Framed) (recId : CInt) (pathPage auxPage : ℕ) :
    fillSwitch a auxPage (a.base recId (.page pathPage a.dentry.path)) =
      .ok (a.record recId pathPage auxPage) := by
  have haux := h.aux_ok
  have hnull (hn : a.aux = .chars .null) :
      (Except.ok { a.base recId (.page pathPage a.dentry.path) with
        recSize := recordSize (a.base recId (.page pathPage a.dentry.path)).pathLen } :
        Except Fault TrRecord) = .ok (a.record recId pathPage auxPage) := by
    have h0 : (0 : CShort) = BitVec.ofNat 16 a.auxBytes.length := by
      simp [FillArgs.auxBytes, hn, CharPtr.bytes]
    rw [← a.base_withAux recId pathPage auxPage h0, recordSize_eq]
    simp [TrRecord.withAux, FillArgs.auxPtr, hn, FillArgs.base]
  cases hc : RecType.ofCode? a.type with
  | none => simp [FillArgs.auxOk, hc] at haux
  | some t =>
    cases t <;> simp only [FillArgs.auxOk, hc] at haux <;> simp only [fillSwitch, hc]
    case fcreat | dcreat | unlink => exact hnull haux
    case fwrite =>
      obtain ⟨buf, hbuf, hlen, -⟩ | ⟨hbuf, hlen⟩ := haux
      · have hn : a.auxLen.setWidth 16 = BitVec.ofNat 16 a.auxBytes.length := by
          rw [hlen, BitVec.setWidth_ofNat_of_le (by norm_num)]
          simp [FillArgs.auxBytes, hbuf, CharPtr.bytes]
        have := a.base_withAux recId pathPage auxPage hn
        simpa [FillArgs.auxPtr, hbuf] using this
      · have hn : a.auxLen.setWidth 16 = BitVec.ofNat 16 a.auxBytes.length := by
          simp [hlen, FillArgs.auxBytes, hbuf, CharPtr.bytes]
        have := a.base_withAux recId pathPage auxPage hn
        simpa [FillArgs.auxPtr, hbuf] using this
    case symlink =>
      obtain ⟨s, hs, hlen, -⟩ := haux
      have hn : a.auxLen.setWidth 16 = BitVec.ofNat 16 a.auxBytes.length := by
        rw [hlen, BitVec.setWidth_ofNat_of_le (by norm_num)]
        simp [FillArgs.auxBytes, hs, CharPtr.bytes, CString.strlen]
      have := a.base_withAux recId pathPage auxPage hn
      simpa [FillArgs.auxPtr, hs] using this
    case rename | link =>
      obtain ⟨d, hd, hlt⟩ := haux
      have hn : BitVec.ofNat 16 d.path.bytes.length = BitVec.ofNat 16 a.auxBytes.length := by
        simp [FillArgs.auxBytes, hd]
      have := a.base_withAux recId pathPage auxPage hn
      simpa [FillArgs.auxPtr, hd, dentryPathRaw, hlt, CharPtr.bytes] using this

/-- On arguments that can be framed `fill_record` draws the next number and returns the expected
record, both pages staying in the ledger. -/
theorem fillRecord_framed {a : FillArgs} (h : a.Framed) (k : Kernel) (pathPage auxPage : ℕ) :
    fillRecord ⟨some pathPage, some auxPage⟩ k a =
      .ok ({ k with trecordId := k.trecordId + 1, ledger := auxPage :: pathPage :: k.ledger },
        .ok (a.record (k.trecordId + 1) pathPage auxPage)) := by
  have htype : a.type ≠ 0 := by
    intro h0
    have := h.aux_ok
    simp [FillArgs.auxOk, h0] at this
  have hpath : dentryPathRaw a.dentry pathPage = some (.page pathPage a.dentry.path) := by
    simp [dentryPathRaw, h.path_lt]
  simp only [fillRecord, htype, if_false, hpath, fillSwitch_framed h]
  rfl

/-- `fill_record` does nothing when the mask clears the type. -/
theorem fillRecord_zero (env : PageEnv) (k : Kernel) {a : FillArgs} (h : a.type = 0) :
    fillRecord env k a = .ok (k, .error (-1)) := by
  simp [fillRecord, h]

/-- `fill_record` gives up when a page is missing, and gives back the one it has got. -/
theorem fillRecord_of_unavailable {env : PageEnv} (henv : ¬env.available) {a : FillArgs}
    (htype : a.type ≠ 0) (k : Kernel) : fillRecord env k a = .ok (k, .error (-eNOMEM)) := by
  obtain ⟨pathPage, auxPage⟩ := env
  rw [fillRecord, if_neg htype]
  cases pathPage with
  | none => rfl
  | some pathPage =>
    cases auxPage with
    | none => simp only [List.erase_cons_head]
    | some auxPage => exact absurd ⟨rfl, rfl⟩ henv

/-- `fill_record` builds a record only for a type, and with two pages. -/
theorem available_of_fillRecord {env : PageEnv} {k k' : Kernel} {a : FillArgs} {r : TrRecord}
    (h : fillRecord env k a = .ok (k', .ok r)) : a.type ≠ 0 ∧ env.available := by
  have htype : a.type ≠ 0 := by
    intro hzero
    rw [fillRecord_zero env k hzero] at h
    cases h
  refine ⟨htype, ?_⟩
  obtain ⟨pathPage, auxPage⟩ := env
  rw [fillRecord, if_neg htype] at h
  cases pathPage with
  | none => cases h
  | some pathPage =>
    cases auxPage with
    | none => cases h
    | some auxPage => exact ⟨rfl, rfl⟩

/-! ### Filled records in general -/

/-- A record as `fill_record` leaves it behind for any arguments: the path length is that of a path
that fits a page, and the size is computed from both lengths or, for a type that is not logged, was
not set. -/
structure TrRecord.Filled (r : TrRecord) : Prop where
  pathLen_eq : r.pathLen.toInt = r.pathname.bytes.length
  path_ne : r.pathname.bytes ≠ []
  path_lt : r.pathname.bytes.length < pageSize
  sized : r.recSize = recordSizeAux r.pathLen r.auxLen ∨ (r.recSize = 0 ∧ r.auxLen = 0)

/-- The common fields of a record with a path that fits a page. -/
theorem FillArgs.filled_base (a : FillArgs) (recId : CInt) (page : ℕ)
    (hpath : a.dentry.path.strlen < pageSize) :
    (a.base recId (.page page a.dentry.path)).Filled where
  pathLen_eq := toInt_ofNat_of_le (by
    have : a.dentry.path.bytes.length < 4096 := hpath
    simp only [CharPtr.bytes]
    omega)
  path_ne := a.dentry.path_ne
  path_lt := hpath
  sized := .inr ⟨rfl, rfl⟩

/-- The `switch` keeps the number and the path of a record. -/
theorem TrRecord.Filled.fillSwitch {a : FillArgs} {auxPage : ℕ} {r r' : TrRecord} (hr : r.Filled)
    (haux : r.auxLen = 0) (h : fillSwitch a auxPage r = .ok r') :
    r'.Filled ∧ r'.recId = r.recId := by
  have hwith (p : CharPtr) (n : CShort) : (r.withAux p n).Filled ∧
    (r.withAux p n).recId = r.recId :=
    ⟨⟨hr.pathLen_eq, hr.path_ne, hr.path_lt, .inl rfl⟩, rfl⟩
  have hsize : ({ r with recSize := recordSize r.pathLen } : TrRecord).Filled :=
    ⟨hr.pathLen_eq, hr.path_ne, hr.path_lt, .inl (by rw [recordSize_eq, ← haux])⟩
  unfold Trfs.fillSwitch at h
  cases hcode : RecType.ofCode? a.type with
  | none =>
    rw [hcode] at h
    cases h
    exact ⟨hr, rfl⟩
  | some t =>
    rw [hcode] at h
    cases t with
    | fcreat | dcreat | unlink =>
      cases h
      exact ⟨hsize, rfl⟩
    | fwrite | symlink =>
      dsimp only at h
      split at h
      · cases h
        exact hwith _ _
      · cases h
    | rename | link =>
      dsimp only at h
      split at h
      · split at h
        · cases h
          exact hwith _ _
        · cases h
      · cases h
      · cases h
    | fread | dread =>
      cases h
      exact ⟨hr, rfl⟩

/-- What `fill_record` can do for any arguments: it refuses without drawing a number, or it draws
the next number and is stopped or returns a record with that number. -/
theorem fillRecord_cases (env : PageEnv) (k : Kernel) (a : FillArgs) :
    (∃ k' code, fillRecord env k a = .ok (k', .error code) ∧ k'.trecordId = k.trecordId) ∨
      (∃ fault, fillRecord env k a = .error fault) ∨
      ∃ k' r, fillRecord env k a = .ok (k', .ok r) ∧ k'.trecordId = k.trecordId + 1 ∧
        r.recId = k.trecordId + 1 ∧ r.Filled := by
  by_cases htype : a.type = 0
  · exact .inl ⟨k, -1, fillRecord_zero env k htype, rfl⟩
  · obtain ⟨pathPage, auxPage⟩ := env
    cases pathPage with
    | none => exact .inl ⟨k, -eNOMEM, by simp only [fillRecord, if_neg htype], rfl⟩
    | some pathPage =>
      cases auxPage with
      | none =>
        refine .inl ⟨{ k with ledger := (pathPage :: k.ledger).erase pathPage }, -eNOMEM, ?_, rfl⟩
        simp only [fillRecord, if_neg htype]
      | some auxPage =>
        refine .inr ?_
        by_cases hpath : a.dentry.path.strlen < pageSize
        · have hraw : dentryPathRaw a.dentry pathPage = some (.page pathPage a.dentry.path) := by
            rw [dentryPathRaw, if_pos hpath]
          cases hswitch : fillSwitch a auxPage
              (a.base (k.trecordId + 1) (.page pathPage a.dentry.path)) with
          | error fault =>
            refine .inl ⟨fault, ?_⟩
            simp only [fillRecord, if_neg htype, hraw, hswitch]
            rfl
          | ok r =>
            obtain ⟨hfilled, hid⟩ := (a.filled_base (k.trecordId + 1) pathPage hpath).fillSwitch rfl
              hswitch
            refine .inr ⟨{ k with
              trecordId := k.trecordId + 1
              ledger := auxPage :: pathPage :: k.ledger }, r, ?_, rfl, hid, hfilled⟩
            simp only [fillRecord, if_neg htype, hraw, hswitch]
            rfl
        · have hraw : dentryPathRaw a.dentry pathPage = none := by
            rw [dentryPathRaw, if_neg hpath]
          exact .inl ⟨.errPtrDeref, by simp only [fillRecord, if_neg htype, hraw]⟩

namespace FillArgs

/-- The pointer of the filled record leads to the bytes of the argument. -/
@[simp] theorem bytes_auxPtr (a : FillArgs) (auxPage : ℕ) :
    (a.auxPtr auxPage).bytes = a.auxBytes := by
  unfold auxPtr auxBytes
  split <;> rfl

/-- What `append_record` will write for the filled record is the expected log record. -/
theorem logged_record {a : FillArgs} (h : a.Framed) (recId : CInt) (pathPage auxPage : ℕ) :
    (a.record recId pathPage auxPage).logged = a.logRecord recId := by
  have hsize := h.size_le
  have hlen : (BitVec.ofNat 16 a.auxLogged.length).toInt = a.auxLogged.length :=
    toInt_ofNat_of_le (by omega)
  have haux : a.auxBytes.take a.auxLogged.length = a.auxLogged := by
    rw [length_auxLogged, auxLogged]
  simp only [TrRecord.logged, record, logRecord, bytes_auxPtr, hlen, Int.toNat_natCast, haux]
  rfl

/-- Without auxiliary data the expected record has none, with it at least one byte. -/
theorem auxLogged_ne_nil_iff {a : FillArgs} (h : a.auxOk) :
    a.auxLogged ≠ [] ↔ a.aux ≠ .chars .null := by
  have hlen := a.length_auxLogged
  rw [← List.length_pos_iff, hlen]
  unfold auxOk at h
  split at h
  · simp [auxBytes, h, CharPtr.bytes]
  · simp [auxBytes, h, CharPtr.bytes]
  · simp [auxBytes, h, CharPtr.bytes]
  · obtain ⟨buf, hbuf, -, hne⟩ | ⟨hnull, -⟩ := h
    · simp [auxBytes, hbuf, CharPtr.bytes]
      omega
    · simp [auxBytes, hnull, CharPtr.bytes]
  · obtain ⟨s, hs, -, hne, hlt⟩ := h
    have := List.length_pos_iff.mpr hne
    simp [auxBytes, hs, CharPtr.bytes, CString.strlen, pageSize] at hlt ⊢
    omega
  · obtain ⟨d, hd, hlt⟩ := h
    have := List.length_pos_iff.mpr d.path_ne
    simp [auxBytes, hd, CString.strlen, pageSize] at hlt ⊢
    omega
  · obtain ⟨d, hd, hlt⟩ := h
    have := List.length_pos_iff.mpr d.path_ne
    simp [auxBytes, hd, CString.strlen, pageSize] at hlt ⊢
    omega
  all_goals exact h.elim

/-- Arguments that can be framed give a well-formed log record. -/
theorem wellFormed_logRecord {a : FillArgs} (h : a.Framed) (recId : CInt) :
    (a.logRecord recId).WellFormed where
  pathLen_eq := toInt_ofNat_of_le (by have := h.size_le; omega)
  auxLen_eq := toInt_ofNat_of_le (by have := h.size_le; omega)
  recSize_eq := by
    have := toInt_ofNat_of_le h.size_le
    simpa [logRecord, CString.strlen] using this
  path_ne := a.dentry.path_ne
  type_ok := by
    have haux := h.aux_ok
    have hne := auxLogged_ne_nil_iff haux
    unfold LogRecord.typeOk
    cases hc : RecType.ofCode? a.type with
    | none => simp [auxOk, hc] at haux
    | some t =>
      cases t <;> simp only [auxOk, hc] at haux <;> simp only [logRecord, hc]
      case rename =>
        obtain ⟨d, hd, -⟩ := haux
        exact hne.mpr (by simp [hd])
      case link =>
        obtain ⟨d, hd, -⟩ := haux
        exact hne.mpr (by simp [hd])
      case symlink =>
        obtain ⟨s, hs, -⟩ := haux
        exact hne.mpr (by simp [hs])

end FillArgs

end Trfs
