import TraceFileSystem.Ops.LongPaths
import TraceFileSystem.Replay.FailedRecords

/-!
# The path buffers of the replay tool

Before the `switch` the replay tool builds the paths of a record in three buffers of `4096` bytes.
The path is copied to `resolvebuf` and terminated, the current directory is put into `pathbuf`, and
the copy is appended to it.  A second path goes through `resolvebuf` again and is appended to the
current directory in `auxbuf`; a target stays in `resolvebuf`.

* `Buffer.store` keeps account of every index that is stored to, within the buffer or behind it.
* `resolve` is the resolution of the paths of a record, with the string functions of the C library
  acting on what stands in the buffers.
* `replayRecord_eq_resolve` connects it with `replayRecord`: what stands in the buffers afterwards
  are the paths of the system calls.

No length is checked, so the buffers suffice exactly if the current directory and each path fit
together: `within_resolve_iff`.
-/

namespace Trfs

open ByteStore

/-- `BUFFER_SIZE`. -/
def bufferSize : ℕ := 4096

/-- A buffer: its bytes, and what lies behind them, and the indices that were stored to. -/
structure Buffer where
  bytes : List UInt8
  stored : List ℕ

namespace Buffer

/-- Storing a block of bytes. -/
def store (b : Buffer) (off : ℕ) (src : List UInt8) : Buffer where
  bytes := pwrite b.bytes off src
  stored := b.stored ++ List.range' off src.length

/-- `memcpy(buf, src, n)`, followed by `buf[n] = '\0'`. -/
def copyTerminated (b : Buffer) (src : List UInt8) : Buffer :=
  (b.store 0 src).store src.length [0]

/-- `getcwd(buf, BUFFER_SIZE)` when it succeeds. -/
def getcwd (b : Buffer) (cwd : List UInt8) : Buffer :=
  b.store 0 (cwd ++ [0])

/-- `strcat(buf, src)`. -/
def strcat (b : Buffer) (src : List UInt8) : Buffer :=
  b.store (cstr b.bytes).length (cstr src ++ [0])

/-- A buffer from `malloc`, with arbitrary contents. -/
def malloc (bytes : List UInt8) : Buffer :=
  ⟨bytes, []⟩

@[simp] theorem stored_malloc (bytes : List UInt8) : (malloc bytes).stored = [] := rfl

end Buffer

/-- The three buffers. -/
structure Buffers where
  resolvebuf : Buffer
  pathbuf : Buffer
  auxbuf : Buffer

/-- The resolution of the paths of a record.  For a second path `auxbuf` is allocated anew. -/
def resolve (cwd : List UInt8) (r : LogRecord) (fresh : List UInt8) (bs : Buffers) : Buffers :=
  let resolvebuf := bs.resolvebuf.copyTerminated r.path
  let pathbuf := (bs.pathbuf.getcwd cwd).strcat resolvebuf.bytes
  if r.hdr.auxLen ≠ 0 ∧ r.hdr.type ≠ RecType.fwrite.code then
    let resolvebuf := resolvebuf.copyTerminated r.aux
    if r.hdr.type ≠ RecType.symlink.code then
      ⟨resolvebuf, pathbuf, ((Buffer.malloc fresh).getcwd cwd).strcat resolvebuf.bytes⟩
    else ⟨resolvebuf, pathbuf, bs.auxbuf⟩
  else ⟨resolvebuf, pathbuf, bs.auxbuf⟩

/-- The buffers before a turn, with arbitrary contents and no account of stores. -/
def Buffers.before (resolveBytes pathBytes auxBytes : List UInt8) : Buffers :=
  ⟨.malloc resolveBytes, .malloc pathBytes, .malloc auxBytes⟩

/-- Only bytes within the buffers are stored to. -/
def Buffers.Within (bs : Buffers) : Prop :=
  (∀ i ∈ bs.resolvebuf.stored, i < bufferSize) ∧ (∀ i ∈ bs.pathbuf.stored, i < bufferSize) ∧
    ∀ i ∈ bs.auxbuf.stored, i < bufferSize

/-! ### Strings in buffers -/

/-- A C string has no NUL. -/
theorem not_mem_cstr (l : List UInt8) : (0 : UInt8) ∉ cstr l := by
  intro h
  simpa using List.mem_takeWhile_imp h

/-- A string in front of a NUL. -/
theorem cstr_append_nul {s : List UInt8} (h : (0 : UInt8) ∉ s) (rest : List UInt8) :
    cstr (s ++ 0 :: rest) = s := by
  have hs := cstr_eq_self h
  rw [cstr, List.takeWhile_append_of_pos]
  · simp
  · intro b hb
    simp only [ne_eq, decide_eq_true_eq]
    rintro rfl
    exact h hb

namespace Buffer

variable {s : List UInt8}

/-- A string that was stored with its terminator at the start of a buffer. -/
theorem cstr_pwrite_zero (h : (0 : UInt8) ∉ s) (bytes : List UInt8) :
    cstr (pwrite bytes 0 (s ++ [0])) = s := by
  rw [pwrite_zero, List.append_assoc]
  exact cstr_append_nul h _

/-- What stands in a buffer after a copy. -/
theorem cstr_copyTerminated (b : Buffer) (h : (0 : UInt8) ∉ s) :
    cstr (b.copyTerminated s).bytes = s := by
  have hbytes := pwrite_pwrite b.bytes 0 s [0]
  rw [Nat.zero_add] at hbytes
  rw [copyTerminated, store, store, hbytes, cstr_pwrite_zero h]

/-- What stands in a buffer with the current directory. -/
theorem cstr_getcwd (b : Buffer) (h : (0 : UInt8) ∉ s) : cstr (b.getcwd s).bytes = s :=
  cstr_pwrite_zero h b.bytes

/-- What stands in a buffer after a string was appended to the current directory. -/
theorem cstr_strcat (b : Buffer) (h : (0 : UInt8) ∉ s) (t : List UInt8) :
    cstr ((b.getcwd s).strcat t).bytes = s ++ cstr t := by
  have hprefix : prefixAt (b.getcwd s).bytes s.length = s := by
    rw [getcwd, store, pwrite_zero, List.append_assoc, prefixAt_append_left]
  rw [strcat, store, cstr_getcwd b h, pwrite, hprefix, List.append_assoc, List.append_assoc,
    List.singleton_append, ← List.append_assoc]
  apply cstr_append_nul
  rw [List.mem_append, not_or]
  exact ⟨h, not_mem_cstr t⟩

/-- The indices of a copy. -/
theorem mem_stored_copyTerminated {b : Buffer} {i : ℕ} :
    i ∈ (b.copyTerminated s).stored ↔ i ∈ b.stored ∨ i ≤ s.length := by
  simp only [copyTerminated, store, List.mem_append, List.mem_range'_1, List.length_singleton]
  rw [or_assoc]
  exact or_congr_right (by omega)

/-- The indices of a string appended to the current directory. -/
theorem mem_stored_strcat {b : Buffer} (h : (0 : UInt8) ∉ s) {t : List UInt8} {i : ℕ} :
    i ∈ ((b.getcwd s).strcat t).stored ↔ i ∈ b.stored ∨ i ≤ s.length + (cstr t).length := by
  rw [strcat, cstr_getcwd b h]
  simp only [getcwd, store, List.mem_append, List.mem_range'_1, List.length_append,
    List.length_singleton]
  rw [or_assoc]
  exact or_congr_right (by omega)

end Buffer

/-! ### The records of the module -/

/-- The record has a second path. -/
def LogRecord.SecondPath (r : LogRecord) : Prop :=
  RecType.ofCode? r.hdr.type = some .rename ∨ RecType.ofCode? r.hdr.type = some .link

/-- A record that the module can log: the path is a string that fits a page, and so is a second path
or a target.  Other records than these and those of writes have no auxiliary data.  Nothing is said
of the data of a write, whose length may have wrapped. -/
structure LogRecord.Loggable (r : LogRecord) : Prop where
  pathLen_eq : r.hdr.pathLen.toInt = r.path.length
  path_ne : r.path ≠ []
  path_string : (0 : UInt8) ∉ r.path
  path_le : r.path.length ≤ 4095
  aux_cases : RecType.ofCode? r.hdr.type = some .fwrite ∨
    (r.hdr.auxLen = 0 ∧ ¬r.SecondPath) ∨
    (r.SecondPath ∨ RecType.ofCode? r.hdr.type = some .symlink) ∧
      r.hdr.auxLen.toInt = r.aux.length ∧ r.aux ≠ [] ∧ (0 : UInt8) ∉ r.aux ∧ r.aux.length ≤ 4095

/-- The target of a `symlink` is one that the VFS passes on: not empty, and shorter than a page. -/
def TracedOp.TargetFits (op : TracedOp) : Prop :=
  ∀ str, op.plan.tail.aux = .chars (.vfs str) → 1 ≤ str.strlen ∧ str.strlen ≤ 4095

/-- A string that is shorter than a page is logged completely. -/
theorem TrRecord.logged_string {r : TrRecord} {str : CString} (hbytes : r.aux.bytes = str.bytes)
    (hlen : r.auxLen = BitVec.ofNat 16 str.strlen) (hpos : 1 ≤ str.strlen)
    (hle : str.strlen ≤ 4095) :
    r.logged.hdr.auxLen.toInt = r.logged.aux.length ∧ r.logged.aux ≠ [] ∧
      (0 : UInt8) ∉ r.logged.aux ∧ r.logged.aux.length ≤ 4095 := by
  have hint : r.auxLen.toInt = str.strlen := by
    rw [hlen]
    exact LittleEndian.toInt_ofNat_of_le (by omega)
  have haux : r.logged.aux = str.bytes := by
    rw [TrRecord.logged, hint, hbytes, Int.toNat_natCast]
    exact List.take_length
  rw [haux]
  exact ⟨hint, List.length_pos_iff.mp hpos, str.noNul, hle⟩

/-- Every record that `fill_record` builds for a traced operation is such a record. -/
theorem TracedOp.loggable_record {op : TracedOp} (hshort : ¬op.plan.tail.TooLong)
    (htarget : op.TargetFits) (recId : CInt) (pathPage auxPage : ℕ) :
    (op.plan.tail.record recId pathPage auxPage).logged.Loggable where
  pathLen_eq := (Tail.filled_record hshort recId pathPage auxPage).pathLen_eq
  path_ne := op.plan.tail.dentry.path_ne
  path_string := op.plan.tail.dentry.path.noNul
  path_le := Tail.path_le hshort
  aux_cases := by
    have hsecond {t : Tail} (ht : t.type ≠ .rename ∧ t.type ≠ .link) :
        ¬(t.record recId pathPage auxPage).logged.SecondPath := by
      have hcode : RecType.ofCode? (t.record recId pathPage auxPage).logged.hdr.type =
          some t.type := RecType.ofCode?_code t.type
      rw [LogRecord.SecondPath, hcode, Option.some_inj, Option.some_inj]
      exact not_or.mpr ht
    cases op with
    | write dentry fFlags buf count vfs => exact .inl (RecType.ofCode?_code .fwrite)
    | link old parent new vfs lowerPositive interpose =>
      have hle : new.path.strlen ≤ 4095 := Tail.aux_le hshort (.inr rfl) rfl
      exact .inr (.inr ⟨.inl (.inr (RecType.ofCode?_code .link)),
        TrRecord.logged_string rfl rfl (List.length_pos_iff.mpr new.path_ne) hle⟩)
    | rename oldParent newParent old new trap vfs =>
      have hle : new.path.strlen ≤ 4095 := Tail.aux_le hshort (.inl rfl) rfl
      exact .inr (.inr ⟨.inl (.inl (RecType.ofCode?_code .rename)),
        TrRecord.logged_string rfl rfl (List.length_pos_iff.mpr new.path_ne) hle⟩)
    | symlink dir parent dentry symname vfs interpose =>
      obtain ⟨hpos, hle⟩ := htarget symname rfl
      have hlen : (BitVec.ofNat 32 symname.strlen).setWidth 16 =
          BitVec.ofNat 16 symname.strlen :=
        BitVec.setWidth_ofNat_of_le (by norm_num) symname.strlen
      exact .inr (.inr ⟨.inr (RecType.ofCode?_code .symlink),
        TrRecord.logged_string rfl hlen hpos hle⟩)
    | create | mkdir | unlink | rmdir => exact .inr (.inl ⟨rfl, hsecond ⟨nofun, nofun⟩⟩)

section

variable {cwd : List UInt8} {r : LogRecord} {resolveBytes pathBytes auxBytes fresh : List UInt8}

/-- The path of the system calls stands in `pathbuf`. -/
theorem cstr_resolve_pathbuf (hcwd : (0 : UInt8) ∉ cwd) (hpath : (0 : UInt8) ∉ r.path)
    (bs : Buffers) :
    cstr (resolve cwd r fresh bs).pathbuf.bytes = cwd ++ cstr r.path := by
  have hbuf : (resolve cwd r fresh bs).pathbuf =
      (bs.pathbuf.getcwd cwd).strcat (bs.resolvebuf.copyTerminated r.path).bytes := by
    unfold resolve
    dsimp only
    split
    · split <;> rfl
    · rfl
  rw [hbuf, Buffer.cstr_strcat _ hcwd, Buffer.cstr_copyTerminated _ hpath, cstr_eq_self hpath]

/-- A second path stands in `auxbuf`. -/
theorem cstr_resolve_auxbuf (hcwd : (0 : UInt8) ∉ cwd) (hstring : (0 : UInt8) ∉ r.aux)
    (hcopied : (r.hdr.auxLen ≠ 0 ∧ r.hdr.type ≠ RecType.fwrite.code) ∧
      r.hdr.type ≠ RecType.symlink.code) (bs : Buffers) :
    cstr (resolve cwd r fresh bs).auxbuf.bytes = cwd ++ cstr r.aux := by
  simp only [resolve, if_pos hcopied.1, if_pos hcopied.2]
  rw [Buffer.cstr_strcat _ hcwd, Buffer.cstr_copyTerminated _ hstring, cstr_eq_self hstring]

/-- The indices up to some index are within a buffer exactly if that index is. -/
theorem forall_le_lt_bufferSize_iff (n : ℕ) : (∀ i ≤ n, i < bufferSize) ↔ n ≤ 4095 := by
  unfold bufferSize
  exact ⟨fun h => Nat.lt_succ_iff.mp (h n le_rfl), fun h i hi => by omega⟩

/-- The indices of a string that goes through `resolvebuf` and is appended to the current
directory. -/
theorem strcat_within_iff (hcwd : (0 : UInt8) ∉ cwd) {s : List UInt8} (hs : (0 : UInt8) ∉ s)
    (b : Buffer) (bytes : List UInt8) :
    (∀ i ∈ (((Buffer.malloc bytes).getcwd cwd).strcat (b.copyTerminated s).bytes).stored,
      i < bufferSize) ↔ cwd.length + s.length ≤ 4095 := by
  simp only [Buffer.mem_stored_strcat hcwd, Buffer.cstr_copyTerminated b hs, Buffer.stored_malloc,
    List.not_mem_nil, false_or, forall_le_lt_bufferSize_iff]

/-- The indices of a string that is copied to `resolvebuf`. -/
theorem copy_within_iff {s : List UInt8} {b : Buffer} :
    (∀ i ∈ (b.copyTerminated s).stored, i < bufferSize) ↔
      (∀ i ∈ b.stored, i < bufferSize) ∧ s.length ≤ 4095 := by
  simp only [Buffer.mem_stored_copyTerminated, or_imp, forall_and, forall_le_lt_bufferSize_iff]

/-- A string that was stored with its terminator is not longer than it was, even if it holds a NUL
itself. -/
theorem length_cstr_terminated (s bytes : List UInt8) :
    (cstr (pwrite bytes 0 (s ++ [0]))).length ≤ s.length := by
  rw [pwrite_zero, List.append_assoc, cstr, List.takeWhile_append]
  split
  · simp
  · exact (List.takeWhile_prefix _).length_le

/-- A string that goes through `resolvebuf` and is appended to the current directory stays within a
buffer if there is room for both. -/
theorem strcat_within {s : List UInt8} (b : Buffer) (bytes : List UInt8)
    (hle : cwd.length + s.length ≤ 4095) :
    ∀ i ∈ (((Buffer.malloc bytes).getcwd cwd).strcat (b.copyTerminated s).bytes).stored,
      i < bufferSize := by
  have hcwd : (cstr ((Buffer.malloc bytes).getcwd cwd).bytes).length ≤ cwd.length :=
    length_cstr_terminated cwd _
  have hs : (cstr (b.copyTerminated s).bytes).length ≤ s.length := by
    have hbytes := pwrite_pwrite b.bytes 0 s [0]
    rw [Nat.zero_add] at hbytes
    rw [Buffer.copyTerminated, Buffer.store, Buffer.store, hbytes]
    exact length_cstr_terminated s _
  intro i hi
  rw [Buffer.strcat] at hi
  simp only [Buffer.store, Buffer.getcwd, Buffer.malloc, List.mem_append, List.mem_range'_1,
    List.length_append, List.length_singleton, List.not_mem_nil, false_or] at hi hcwd
  unfold bufferSize
  omega

/-- The resolution of the paths of a record stays within the buffers, whatever stood in them. -/
def LogRecord.ResolvesWithin (cwd : List UInt8) (r : LogRecord) : Prop :=
  ∀ resolveBytes pathBytes auxBytes fresh : List UInt8,
    (resolve cwd r fresh (.before resolveBytes pathBytes auxBytes)).Within

/-- It does if the current directory and each path fit one buffer, and a target does by itself. -/
theorem LogRecord.resolvesWithin_of_le (hpath : cwd.length + r.path.length ≤ 4095)
    (hcopied : r.hdr.type ≠ RecType.fwrite.code → r.aux.length ≤ 4095)
    (haux : r.hdr.type ≠ RecType.fwrite.code → r.hdr.type ≠ RecType.symlink.code →
      cwd.length + r.aux.length ≤ 4095) : r.ResolvesWithin cwd := by
  intro resolveBytes pathBytes auxBytes fresh
  have hlen : r.path.length ≤ 4095 := by omega
  simp only [resolve, Buffers.Within, Buffers.before]
  split
  · next hsecond =>
    split
    · next hsymlink =>
      simp only [copy_within_iff, Buffer.stored_malloc, hlen, hcopied hsecond.2]
      exact ⟨by simp, strcat_within _ _ hpath, strcat_within _ _ (haux hsecond.2 hsymlink)⟩
    · simp only [copy_within_iff, Buffer.stored_malloc, hlen, hcopied hsecond.2]
      exact ⟨by simp, strcat_within _ _ hpath, by simp⟩
  · simp only [copy_within_iff, Buffer.stored_malloc, hlen]
    exact ⟨by simp, strcat_within _ _ hpath, by simp⟩

/-- The buffers of a record without a second path or a target. -/
theorem within_resolve_of_path (hcwd : (0 : UInt8) ∉ cwd) (h : r.Loggable)
    (haux : ¬(r.hdr.auxLen ≠ 0 ∧ r.hdr.type ≠ RecType.fwrite.code)) :
    (resolve cwd r fresh (.before resolveBytes pathBytes auxBytes)).Within ↔
      cwd.length + r.path.length ≤ 4095 := by
  simp only [resolve, if_neg haux, Buffers.Within, Buffers.before, copy_within_iff,
    strcat_within_iff hcwd h.path_string, Buffer.stored_malloc, h.path_le]
  simp

/-- The buffers of a record with a target. -/
theorem within_resolve_of_target (hcwd : (0 : UInt8) ∉ cwd) (h : r.Loggable)
    (haux : r.hdr.auxLen ≠ 0 ∧ r.hdr.type ≠ RecType.fwrite.code)
    (hsymlink : ¬r.hdr.type ≠ RecType.symlink.code) (hlen : r.aux.length ≤ 4095) :
    (resolve cwd r fresh (.before resolveBytes pathBytes auxBytes)).Within ↔
      cwd.length + r.path.length ≤ 4095 := by
  simp only [resolve, if_pos haux, if_neg hsymlink, Buffers.Within, Buffers.before,
    copy_within_iff, strcat_within_iff hcwd h.path_string, Buffer.stored_malloc, h.path_le, hlen]
  simp

/-- The buffers of a record with a second path. -/
theorem within_resolve_of_second (hcwd : (0 : UInt8) ∉ cwd) (h : r.Loggable)
    (haux : r.hdr.auxLen ≠ 0 ∧ r.hdr.type ≠ RecType.fwrite.code)
    (hsymlink : r.hdr.type ≠ RecType.symlink.code) (hstring : (0 : UInt8) ∉ r.aux)
    (hlen : r.aux.length ≤ 4095) :
    (resolve cwd r fresh (.before resolveBytes pathBytes auxBytes)).Within ↔
      cwd.length + r.path.length ≤ 4095 ∧ cwd.length + r.aux.length ≤ 4095 := by
  simp only [resolve, if_pos haux, if_pos hsymlink, Buffers.Within, Buffers.before,
    copy_within_iff, strcat_within_iff hcwd h.path_string, strcat_within_iff hcwd hstring,
    Buffer.stored_malloc, h.path_le, hlen]
  simp

/-- The second path of a record is copied. -/
theorem LogRecord.Loggable.copied_of_secondPath (h : r.Loggable) (hsecond : r.SecondPath) :
    (r.hdr.auxLen ≠ 0 ∧ r.hdr.type ≠ RecType.fwrite.code) ∧
      r.hdr.type ≠ RecType.symlink.code := by
  have hlen : r.hdr.auxLen ≠ 0 := by
    rcases h.aux_cases with hwrite | ⟨-, hnot⟩ | ⟨-, hlen, hne, -⟩
    · rcases hsecond with htype | htype <;> cases hwrite.symm.trans htype
    · exact absurd hsecond hnot
    · intro hzero
      have hint : (0 : CShort).toInt = 0 := by decide
      rw [hzero, hint] at hlen
      exact hne (List.length_eq_zero_iff.mp (by exact_mod_cast hlen.symm))
  rcases hsecond with htype | htype
  · rw [← RecType.code_of_ofCode? htype]
    exact ⟨⟨hlen, by decide⟩, by decide⟩
  · rw [← RecType.code_of_ofCode? htype]
    exact ⟨⟨hlen, by decide⟩, by decide⟩

/-- Auxiliary data that is copied is a second path or a target. -/
theorem LogRecord.Loggable.aux_of_copied (h : r.Loggable)
    (haux : r.hdr.auxLen ≠ 0 ∧ r.hdr.type ≠ RecType.fwrite.code) :
    (r.SecondPath ∨ RecType.ofCode? r.hdr.type = some .symlink) ∧ (0 : UInt8) ∉ r.aux ∧
      r.aux.length ≤ 4095 := by
  rcases h.aux_cases with hwrite | ⟨hzero, -⟩ | ⟨htype, -, -, hstring⟩
  · exact absurd (RecType.code_of_ofCode? hwrite).symm haux.2
  · exact absurd hzero haux.1
  · exact ⟨htype, hstring⟩

/-- The lengths with which data are copied are not negative. -/
theorem LogRecord.Loggable.lengths_nonneg (h : r.Loggable) :
    ¬r.hdr.pathLen.toInt < 0 ∧
      ¬(r.hdr.type ≠ RecType.fwrite.code ∧ r.hdr.auxLen.toInt < 0) := by
  constructor
  · rw [h.pathLen_eq]
    omega
  · rintro ⟨htype, hneg⟩
    rcases h.aux_cases with hwrite | ⟨hzero, -⟩ | ⟨-, hlen, -⟩
    · exact htype (RecType.code_of_ofCode? hwrite).symm
    · rw [hzero] at hneg
      exact absurd hneg (by decide)
    · rw [hlen] at hneg
      omega

/-- A turn of the loop on a record that the module can log passes what stands in the buffers to the
`switch`. -/
theorem replayRecord_eq_resolve {W : Type*} {env : ReplayEnv W} (hcwd : (0 : UInt8) ∉ env.cwd)
    (h : r.Loggable) (bs : Buffers) (l : Locals W) :
    replayRecord env r l =
      replaySwitch env r.hdr (cstr (resolve env.cwd r fresh bs).pathbuf.bytes) r.aux
        { l with
          auxpath :=
            if (r.hdr.auxLen ≠ 0 ∧ r.hdr.type ≠ RecType.fwrite.code) ∧
                r.hdr.type ≠ RecType.symlink.code then
              some (cstr (resolve env.cwd r fresh bs).auxbuf.bytes)
            else l.auxpath } := by
  have hnonneg := h.lengths_nonneg
  rw [replayRecord_of_nonneg env l hnonneg.1 hnonneg.2, cstr_resolve_pathbuf hcwd h.path_string,
    LogRecord.resolvedAux]
  by_cases hcopied : (r.hdr.auxLen ≠ 0 ∧ r.hdr.type ≠ RecType.fwrite.code) ∧
      r.hdr.type ≠ RecType.symlink.code
  · obtain ⟨-, hstring, -⟩ := h.aux_of_copied hcopied.1
    rw [if_pos hcopied, if_pos hcopied, cstr_resolve_auxbuf hcwd hstring hcopied]
  · rw [if_neg hcopied, if_neg hcopied]

/-- **The path buffers.**  For every record that the module can log, every current directory and
arbitrary contents of the buffers, the resolution of the paths stores only to bytes within the
buffers if and only if the current directory and the path fit one buffer, and so do the current
directory and a second path. -/
theorem within_resolve_iff (hcwd : (0 : UInt8) ∉ cwd) (h : r.Loggable) :
    (resolve cwd r fresh (.before resolveBytes pathBytes auxBytes)).Within ↔
      cwd.length + r.path.length ≤ 4095 ∧
        (r.SecondPath → cwd.length + r.aux.length ≤ 4095) := by
  by_cases haux : r.hdr.auxLen ≠ 0 ∧ r.hdr.type ≠ RecType.fwrite.code
  · obtain ⟨htype, hstring, hlen⟩ := h.aux_of_copied haux
    by_cases hsymlink : r.hdr.type ≠ RecType.symlink.code
    · have hsecond : r.SecondPath := htype.resolve_right fun hcode =>
        hsymlink (RecType.code_of_ofCode? hcode).symm
      rw [within_resolve_of_second hcwd h haux hsymlink hstring hlen]
      exact and_congr_right fun _ => ⟨fun hle _ => hle, fun hle => hle hsecond⟩
    · have hnot : ¬r.SecondPath := fun hsecond =>
        hsymlink (h.copied_of_secondPath hsecond).2
      rw [within_resolve_of_target hcwd h haux hsymlink hlen]
      exact ⟨fun hle => ⟨hle, fun hsecond => absurd hsecond hnot⟩, fun hle => hle.1⟩
  · have hnot : ¬r.SecondPath := fun hsecond =>
      haux (h.copied_of_secondPath hsecond).1
    rw [within_resolve_of_path hcwd h haux]
    exact ⟨fun hle => ⟨hle, fun hsecond => absurd hsecond hnot⟩, fun hle => hle.1⟩

end

/-- The record of a `mkdir` at the given depth. -/
def deepRecord (depth : ℕ) : LogRecord :=
  ((TracedOp.mkdir ⟨0⟩ 0 (deepDentry depth) 0 0 0).plan.tail.record 0 0 1).logged

/-- The module can log it as long as its path fits a page. -/
theorem loggable_deepRecord {depth : ℕ} (h : 2 * (depth + 1) ≤ 4095) :
    (deepRecord depth).Loggable := by
  have hkind : RecType.dcreat ≠ .rename ∧ RecType.dcreat ≠ .link := by decide
  have hshort : ¬(TracedOp.mkdir ⟨0⟩ 0 (deepDentry depth) 0 0 0).plan.tail.TooLong :=
    Tail.not_tooLong ((strlen_deepPath (depth + 1)).le.trans h) hkind
  have htarget : (TracedOp.mkdir ⟨0⟩ 0 (deepDentry depth) 0 0 0).TargetFits := by
    intro str hstr
    cases hstr
  exact TracedOp.loggable_record hshort htarget 0 0 1

/-- The length of its path. -/
theorem length_deepRecord (depth : ℕ) : (deepRecord depth).path.length = 2 * (depth + 1) :=
  strlen_deepPath (depth + 1)

/-- It is the record of a directory. -/
theorem ofCode?_deepRecord (depth : ℕ) :
    RecType.ofCode? (deepRecord depth).hdr.type = some .dcreat :=
  RecType.ofCode?_code .dcreat

/-- It has no second path. -/
theorem not_secondPath_deepRecord (depth : ℕ) : ¬(deepRecord depth).SecondPath := by
  unfold LogRecord.SecondPath
  rw [ofCode?_deepRecord]
  decide

/-- It has no auxiliary data. -/
theorem auxLen_deepRecord (depth : ℕ) : (deepRecord depth).hdr.auxLen = 0 := rfl

/-- Below `/t` the buffers suffice for a path of `4092` bytes. -/
theorem within_resolve_deepRecord :
    (resolve [47, 116] (deepRecord 2045) [] (.before [] [] [])).Within := by
  refine (within_resolve_iff (by decide) (loggable_deepRecord (by decide))).mpr ⟨?_, ?_⟩
  · rw [length_deepRecord]
    decide
  · exact fun hsecond => absurd hsecond (not_secondPath_deepRecord 2045)

/-- They do not suffice for a path of `4094` bytes, which the module can log. -/
theorem not_within_resolve_deepRecord :
    (deepRecord 2046).Loggable ∧
      ¬(resolve [47, 116] (deepRecord 2046) [] (.before [] [] [])).Within := by
  have h : (deepRecord 2046).Loggable := loggable_deepRecord (by decide)
  have haux : ¬((deepRecord 2046).hdr.auxLen ≠ 0 ∧
      (deepRecord 2046).hdr.type ≠ RecType.fwrite.code) :=
    fun hcopied => hcopied.1 (auxLen_deepRecord 2046)
  refine ⟨h, ?_⟩
  rw [within_resolve_of_path (by decide) h haux, length_deepRecord]
  decide

end Trfs
