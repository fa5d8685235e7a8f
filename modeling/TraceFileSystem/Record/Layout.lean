import TraceFileSystem.Lib.ByteStore

/-!
# The in-memory record and its on-disk header

`struct tr_record` of `trfs/tr_types.h`, as the kernel module and the replay tool both see it on
x86_64.  Six words and shorts are followed by two pointers; the bytes before the pointers are what
`append_record` copies into the log and what `treplay` casts a buffer position to, so they form the
`Header` of a logged record.  `Header.bytes` lays a header out at the compiler's offsets (with the
six zero bytes of padding after `aux_len`), `Header.ofBytes` reads it back, and
`Header.ofBytes_bytes` is the round trip.

The pointers of a record are modelled with what they point to: a string inside a page, a buffer of
the caller in user space, or a string the VFS owns.
-/

namespace Trfs

open LittleEndian

/-- The C type `short`. -/
abbrev CShort := BitVec 16

/-- The C type `int`, also used for `uint32_t` fields. -/
abbrev CInt := BitVec 32

/-! ### Record types -/

/-- `rec_type_t`: the kinds of records. -/
inductive RecType where
  | fcreat
  | fread
  | fwrite
  | dcreat
  | dread
  | rename
  | link
  | symlink
  | unlink
  deriving DecidableEq, Repr

namespace RecType

/-- The bit position of a record type in `rec_type_t` and in the mask of a superblock. -/
def shift : RecType → ℕ
  | fcreat => 0
  | fread => 1
  | fwrite => 2
  | dcreat => 10
  | dread => 11
  | rename => 20
  | link => 21
  | symlink => 22
  | unlink => 23

/-- The numeric value of a record type, `1 << shift`. -/
def code (t : RecType) : CInt :=
  1#32 <<< t.shift

/-- The record type with a given numeric value, if there is one. -/
def ofCode? (c : CInt) : Option RecType :=
  [fcreat, fread, fwrite, dcreat, dread, rename, link, symlink, unlink].find? fun t => t.code == c

/-- Every record type is found again from its value. -/
@[simp] theorem ofCode?_code (t : RecType) : ofCode? t.code = some t := by
  cases t <;> decide

/-- No record type has the value zero. -/
@[simp] theorem code_ne_zero (t : RecType) : t.code ≠ 0 := by
  cases t <;> decide

/-- The value zero names no record type. -/
@[simp] theorem ofCode?_zero : ofCode? 0#32 = none := by
  decide

end RecType

/-! ### The header -/

/-- `sizeof(struct tr_record)` on x86_64. -/
def sizeofTrRecord : ℕ := 48

/-- The size of a pointer, `sizeof((record)->pathname)` and `sizeof((record)->aux)`. -/
def sizeofPtr : ℕ := 8

/-- The bytes of a record before its two pointers. -/
def headerSize : ℕ := sizeofTrRecord - sizeofPtr - sizeofPtr

/-- The size of `rec_id`, the first field of a record. -/
def recIdSize : ℕ := 4

/-- The fields of `struct tr_record` before the two pointers. -/
structure Header where
  /-- The value drawn from `trecord_id`. -/
  recId : CInt
  /-- `f_flags` of the written file, otherwise zero. -/
  recFlags : CInt
  /-- The mode of a created file or directory, otherwise zero. -/
  permFlags : CInt
  /-- The result of the traced operation. -/
  result : CInt
  /-- The size of the record in the log, path and auxiliary data included. -/
  recSize : CShort
  /-- The length of the primary path. -/
  pathLen : CShort
  /-- The numeric record type. -/
  type : CInt
  /-- The length of the auxiliary data. -/
  auxLen : CShort
  deriving DecidableEq

namespace Header

/-- The header as it lies in memory: every field at the offset the compiler gives it, and six bytes
of padding before the first pointer. -/
def bytes (h : Header) : List UInt8 :=
  leBytes 4 h.recId.toNat ++ leBytes 4 h.recFlags.toNat ++ leBytes 4 h.permFlags.toNat ++
    leBytes 4 h.result.toNat ++ leBytes 2 h.recSize.toNat ++ leBytes 2 h.pathLen.toNat ++
    leBytes 4 h.type.toNat ++ leBytes 2 h.auxLen.toNat ++ List.replicate 6 0

/-- The number stored in the `k` bytes at offset `off` of a record. -/
def fieldAt (l : List UInt8) (off k : ℕ) : ℕ :=
  ofLeBytes ((l.drop off).take k)

/-- The header found by casting a pointer to `struct tr_record *`. -/
def ofBytes (l : List UInt8) : Header where
  recId := BitVec.ofNat 32 (fieldAt l 0 4)
  recFlags := BitVec.ofNat 32 (fieldAt l 4 4)
  permFlags := BitVec.ofNat 32 (fieldAt l 8 4)
  result := BitVec.ofNat 32 (fieldAt l 12 4)
  recSize := BitVec.ofNat 16 (fieldAt l 16 2)
  pathLen := BitVec.ofNat 16 (fieldAt l 18 2)
  type := BitVec.ofNat 32 (fieldAt l 20 4)
  auxLen := BitVec.ofNat 16 (fieldAt l 24 2)

/-- A header occupies the bytes before the pointers. -/
@[simp] theorem length_bytes (h : Header) : h.bytes.length = headerSize := by
  simp [bytes, headerSize, sizeofTrRecord, sizeofPtr]

/-- Cutting the second of three blocks out of their concatenation. -/
theorem take_drop_append {a b c : List UInt8} {off k : ℕ} (ha : a.length = off)
    (hb : b.length = k) : ((a ++ (b ++ c)).drop off).take k = b := by
  rw [List.drop_left' ha, List.take_left' hb]

/-- Casting the bytes of a header back returns the header. -/
@[simp] theorem ofBytes_bytes (h : Header) : ofBytes h.bytes = h := by
  obtain ⟨i, f, p, r, s, l, t, a⟩ := h
  simp only [ofBytes, fieldAt, bytes, List.append_assoc, Header.mk.injEq]
  refine ⟨?_, ?_, ?_, ?_, ?_, ?_, ?_, ?_⟩
  · rw [List.drop_zero, List.take_left' (by simp), ofNat_ofLeBytes_leBytes _ (by norm_num)]
  · rw [take_drop_append (by simp) (by simp), ofNat_ofLeBytes_leBytes _ (by norm_num)]
  · rw [← List.append_assoc, take_drop_append (by simp) (by simp),
      ofNat_ofLeBytes_leBytes _ (by norm_num)]
  · rw [← List.append_assoc, ← List.append_assoc, take_drop_append (by simp) (by simp),
      ofNat_ofLeBytes_leBytes _ (by norm_num)]
  · rw [← List.append_assoc, ← List.append_assoc, ← List.append_assoc,
      take_drop_append (by simp) (by simp), ofNat_ofLeBytes_leBytes _ (by norm_num)]
  · rw [← List.append_assoc, ← List.append_assoc, ← List.append_assoc, ← List.append_assoc,
      take_drop_append (by simp) (by simp), ofNat_ofLeBytes_leBytes _ (by norm_num)]
  · rw [← List.append_assoc, ← List.append_assoc, ← List.append_assoc, ← List.append_assoc,
      ← List.append_assoc, take_drop_append (by simp) (by simp),
      ofNat_ofLeBytes_leBytes _ (by norm_num)]
  · rw [← List.append_assoc, ← List.append_assoc, ← List.append_assoc, ← List.append_assoc,
      ← List.append_assoc, ← List.append_assoc, take_drop_append (by simp) (by simp),
      ofNat_ofLeBytes_leBytes _ (by norm_num)]

end Header

/-! ### Strings and pointers -/

/-- A NUL-terminated string, stored without its terminator. -/
structure CString where
  bytes : List UInt8
  noNul : (0 : UInt8) ∉ bytes
  deriving DecidableEq

/-- `strlen`. -/
def CString.strlen (s : CString) : ℕ := s.bytes.length

/-- What the `pathname` and `aux` pointers of a record can point to. -/
inductive CharPtr where
  | null
  /-- A string somewhere inside the page `id` handed out by `__get_free_page`. -/
  | page (id : ℕ) (str : CString)
  /-- The buffer a process passed to `write`. -/
  | user (buf : List UInt8)
  /-- A string owned by the VFS, such as the target passed to `symlink`. -/
  | vfs (str : CString)
  deriving DecidableEq

/-- The bytes a pointer leads to, without a terminator. -/
def CharPtr.bytes : CharPtr → List UInt8
  | null => []
  | page _ s => s.bytes
  | user b => b
  | vfs s => s.bytes

/-- `struct tr_record`: the header and the two pointers. -/
structure TrRecord extends Header where
  pathname : CharPtr
  aux : CharPtr
  deriving DecidableEq

/-! ### Records in the log -/

/-- A record as it stands in the log: the header, the path and the auxiliary data. -/
structure LogRecord where
  hdr : Header
  path : List UInt8
  aux : List UInt8
  deriving DecidableEq

namespace LogRecord

/-- The bytes of a record in the log. -/
def frame (r : LogRecord) : List UInt8 :=
  r.hdr.bytes ++ r.path ++ r.aux

/-- The replay tool knows seven record types; three of them need a second path or a target. -/
def typeOk (r : LogRecord) : Prop :=
  match RecType.ofCode? r.hdr.type with
  | some .fcreat | some .fwrite | some .dcreat | some .unlink => True
  | some .rename | some .link | some .symlink => r.aux ≠ []
  | some .fread | some .dread | none => False

/-- A well-formed record: the two lengths are the lengths of what follows the header, the path is
not empty, the size is their sum with the header and did not wrap, and the type can be replayed. -/
structure WellFormed (r : LogRecord) : Prop where
  pathLen_eq : r.hdr.pathLen.toInt = r.path.length
  auxLen_eq : r.hdr.auxLen.toInt = r.aux.length
  recSize_eq : r.hdr.recSize.toInt = headerSize + r.path.length + r.aux.length
  path_ne : r.path ≠ []
  type_ok : r.typeOk

/-- A frame is as long as its three parts. -/
@[simp] theorem length_frame (r : LogRecord) :
    r.frame.length = headerSize + r.path.length + r.aux.length := by
  simp [frame, add_assoc]

/-- The size field of a well-formed record is the length of its frame. -/
theorem WellFormed.recSize_eq_length {r : LogRecord} (h : r.WellFormed) :
    r.hdr.recSize.toInt = r.frame.length := by
  rw [h.recSize_eq, length_frame]
  push_cast
  ring

/-- A well-formed record takes more than a header. -/
theorem WellFormed.headerSize_lt {r : LogRecord} (h : r.WellFormed) :
    headerSize < r.frame.length := by
  have := List.length_pos_iff.mpr h.path_ne
  rw [length_frame]
  omega

end LogRecord

/-- What `append_record` writes for a record when nothing fails: the whole path string and the
first `aux_len` bytes of the auxiliary data. -/
def TrRecord.logged (r : TrRecord) : LogRecord where
  hdr := r.toHeader
  path := r.pathname.bytes
  aux := r.aux.bytes.take r.auxLen.toInt.toNat

/-- A log made of the given records. -/
def frames (rs : List LogRecord) : List UInt8 :=
  rs.flatMap LogRecord.frame

@[simp] theorem frames_nil : frames [] = [] := rfl

@[simp] theorem frames_cons (r : LogRecord) (rs : List LogRecord) :
    frames (r :: rs) = r.frame ++ frames rs := rfl

@[simp] theorem frames_append (rs rs' : List LogRecord) :
    frames (rs ++ rs') = frames rs ++ frames rs' := by
  simp [frames]

/-- The frame of a well-formed record says where it ends. -/
theorem LogRecord.WellFormed.frame_append_inj {r r' : LogRecord} (h : r.WellFormed)
    (h' : r'.WellFormed) {l l' : List UInt8} (heq : r.frame ++ l = r'.frame ++ l') :
    r = r' ∧ l = l' := by
  obtain ⟨hdr, path, aux⟩ := r
  obtain ⟨hdr', path', aux'⟩ := r'
  simp only [LogRecord.frame, List.append_assoc] at heq
  obtain ⟨hbytes, htail⟩ := List.append_inj heq (by simp)
  have hhdr : hdr = hdr' := by
    rw [← Header.ofBytes_bytes hdr, hbytes, Header.ofBytes_bytes]
  subst hhdr
  have hpath : path.length = path'.length := by
    have := h.pathLen_eq.symm.trans h'.pathLen_eq
    exact_mod_cast this
  have haux : aux.length = aux'.length := by
    have := h.auxLen_eq.symm.trans h'.auxLen_eq
    exact_mod_cast this
  obtain ⟨rfl, hrest⟩ := List.append_inj htail hpath
  obtain ⟨rfl, rfl⟩ := List.append_inj hrest haux
  exact ⟨rfl, rfl⟩

/-- A log of well-formed records can be read in one way only. -/
theorem frames_inj {rs rs' : List LogRecord} (h : ∀ r ∈ rs, r.WellFormed)
    (h' : ∀ r ∈ rs', r.WellFormed) (heq : frames rs = frames rs') : rs = rs' := by
  induction rs generalizing rs' with
  | nil =>
    cases rs' with
    | nil => rfl
    | cons r' rs' =>
      have hlt := (h' r' (by simp)).headerSize_lt
      have hlen := congrArg List.length heq
      rw [frames_nil, frames_cons, List.length_append, List.length_nil] at hlen
      omega
  | cons r rs ih =>
    cases rs' with
    | nil =>
      have hlt := (h r (by simp)).headerSize_lt
      have hlen := congrArg List.length heq
      rw [frames_nil, frames_cons, List.length_append, List.length_nil] at hlen
      omega
    | cons r' rs' =>
      rw [frames_cons, frames_cons] at heq
      obtain ⟨rfl, hrest⟩ := (h r (by simp)).frame_append_inj (h' r' (by simp)) heq
      rw [ih (fun r hr => h r (by simp [hr])) (fun r hr => h' r (by simp [hr])) hrest]

end Trfs
