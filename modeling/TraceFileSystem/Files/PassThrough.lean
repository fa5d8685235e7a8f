import TraceFileSystem.Files.Sizes
import TraceFileSystem.Lib.OpenFlags
import TraceFileSystem.Lib.RegularFiles
import TraceFileSystem.Ops.TracedOps

/-!
# Regular files, directly and through trfs

System calls on open regular files, as the lower file system answers them and as a mount of trfs on
top of it does.

* `DirectState` is the lower file system with files that were opened there, and `DirectState.call` a
  system call on it.  Whether it opens a file, and where it seeks to, comes with the call.
* `StackedState` is a mount of trfs with open files.  Every one of them has an open lower file,
  which got its flags when it was opened, and every lower inode has one of trfs.
  `StackedState.call` is the system call through trfs, whose regular files seek by
  `generic_file_llseek`.
* `StackedState.direct` forgets trfs.
-/

namespace Trfs

namespace PassThrough

open LabelledSystem Posix Fsstack

/-! ### Calls -/

/-- What `trfs_open` comes upon. -/
structure OpenEnv where
  unhashed : Bool
  kzalloc : Bool
  dentryOpen : Option Errno

/-- What `trfs_open` returns. -/
def OpenEnv.trfsOpen (env : OpenEnv) : Option Errno :=
  if env.unhashed then some .noent
  else if env.kzalloc = false then some .nomem
  else env.dentryOpen

/-- System calls on regular files, with what the lower file system does. -/
inductive FdCall where
  /-- `open` of a file that is there.  The lower file system answers the same when it is asked
  directly. -/
  | openFile (fd ino : ℕ) (readable writable append : Bool) (dentry : PosDentry) (env : OpenEnv)
  | close (fd : ℕ)
  /-- `read` and `readv`, or `pread` and `preadv` at an offset. -/
  | read (fd : ℕ) (vectored : Bool) (offset : Option ℕ) (count : ℕ) (io : Io)
  /-- `write` and `writev`, or `pwrite` and `pwritev` at an offset. -/
  | write (fd : ℕ) (vectored : Bool) (offset : Option ℕ) (bytes : List UInt8) (io : Io)
      (env : TailEnv)
  /-- `lseek`, with the answer of the `llseek` of the lower file system. -/
  | lseek (fd : ℕ) (offset : ℤ) (whence : Whence) (lower : Except Errno ℕ)
  /-- `fcntl` with `F_SETFL`, which is let through and changes `O_APPEND`. -/
  | setfl (fd : ℕ) (append : Bool)
  /-- `ftruncate`, `fchmod` and others. -/
  | setattr (fd : ℕ) (iaValid : CInt) (size : ℕ) (env : Sizes.SetattrEnv)
  | fstat (fd : ℕ) (vfs : Option Errno)

/-- What a call returns: a number, bytes that have been read, and attributes. -/
structure Out where
  ret : ℤ
  bytes : List UInt8
  stat : Option InodeAttrs

/-- A number. -/
def Out.int (ret : ℤ) : Out := ⟨ret, [], none⟩

/-- A negated error number. -/
def Out.error (e : Errno) : Out := .int (-e.code)

/-! ### On the lower file system -/

/-- The lower file system with files that have been opened there. -/
structure DirectState where
  storage : Storage
  files : ℕ → Option Description

/-- `notify_change` on a file, after the checks of its attributes and its size. -/
def notifyChange (st : Storage) (ino : ℕ) (iaValid : CInt) (size : ℕ) :
    Except Errno InodeAttrs → Storage
  | .error _ => st
  | .ok after =>
    let bytes := if (⟨iaValid, size⟩ : Sizes.Iattr).HasSize
      then (st.data ino).takeD size 0 else st.data ino
    st.set ino bytes after

/-- The first error of a change of attributes. -/
def setattrError (iaValid : CInt) (size : ℕ) (env : Sizes.SetattrEnv) : Option Errno :=
  match env.inodeChangeOk with
  | some e => some e
  | none =>
    if (⟨iaValid, size⟩ : Sizes.Iattr).HasSize ∧ env.inodeNewsizeOk ≠ none then env.inodeNewsizeOk
    else
      match env.notifyChange with
      | .error e => some e
      | .ok _ => none

namespace DirectState

variable (d : DirectState)

/-- The return from a read, which moves the position. -/
def returnRead (fd : ℕ) (f : Description) (offset : Option ℕ) (pos : ℕ)
    (r : Storage × Except Errno (List UInt8)) : DirectState × Out :=
  match r.2 with
  | .error e => ({ d with storage := r.1 }, .error e)
  | .ok bytes =>
    ({ storage := r.1
       files := Function.update d.files fd (some (f.advance offset (pos + bytes.length))) },
      ⟨bytes.length, bytes, none⟩)

/-- `read` and `readv`. -/
def read (fd : ℕ) (f : Description) (vectored : Bool) (offset : Option ℕ) (count : ℕ) (io : Io) :
    DirectState × Out :=
  let pos := offset.getD f.pos
  d.returnRead fd f offset pos <|
    readCall f (fun e => (d.storage, .error e)) vectored count pos (d.storage, .ok [])
      (fun count => d.storage.genericRead f.ino count pos io)
      (fun count => d.storage.genericRead f.ino count pos io)

/-- The return from a write, which moves the position. -/
def returnWrite (fd : ℕ) (f : Description) (offset : Option ℕ)
    (r : Storage × Except Errno ℕ × ℕ) : DirectState × Out :=
  match r.2.1 with
  | .error e => ({ d with storage := r.1 }, .error e)
  | .ok n =>
    ({ storage := r.1
       files := Function.update d.files fd (some (f.advance offset r.2.2)) }, .int n)

/-- `write` and `writev`. -/
def write (fd : ℕ) (f : Description) (vectored : Bool) (offset : Option ℕ) (bytes : List UInt8)
    (io : Io) : DirectState × Out :=
  let pos := offset.getD f.pos
  d.returnWrite fd f offset <|
    writeCall f (fun e => (d.storage, .error e, pos)) vectored bytes pos (d.storage, .ok 0, pos)
      (fun bytes => d.storage.newSyncWrite f.ino f.append bytes pos io)
      (fun bytes => d.storage.genericWrite f.ino f.append bytes pos io)

/-- A system call. -/
def call : FdCall → DirectState × Out
  | .openFile fd ino readable writable append _ env =>
    match env.dentryOpen with
    | some e => (d, .error e)
    | none =>
      ({ d with files := Function.update d.files fd (some ⟨ino, readable, writable, append, 0⟩) },
        .int fd)
  | .close fd => ({ d with files := Function.update d.files fd none }, .int 0)
  | .read fd vectored offset count io =>
    match d.files fd with
    | none => (d, .error .badf)
    | some f => d.read fd f vectored offset count io
  | .write fd vectored offset bytes io _ =>
    match d.files fd with
    | none => (d, .error .badf)
    | some f => d.write fd f vectored offset bytes io
  | .lseek fd _ _ lower =>
    match d.files fd, lower with
    | none, _ => (d, .error .badf)
    | some _, .error e => (d, .error e)
    | some f, .ok pos =>
      ({ d with files := Function.update d.files fd (some { f with pos := pos }) }, .int pos)
  | .setfl fd append =>
    match d.files fd with
    | none => (d, .error .badf)
    | some f =>
      ({ d with files := Function.update d.files fd (some { f with append := append }) }, .int 0)
  | .setattr fd iaValid size env =>
    match d.files fd with
    | none => (d, .error .badf)
    | some f =>
      match setattrError iaValid size env with
      | some e => (d, .error e)
      | none =>
        ({ d with storage := notifyChange d.storage f.ino iaValid size env.notifyChange }, .int 0)
  | .fstat fd vfs =>
    match d.files fd, vfs with
    | none, _ => (d, .error .badf)
    | some _, some e => (d, .error e)
    | some f, none => (d, ⟨0, [], some (d.storage.attrs f.ino)⟩)

end DirectState

/-! ### Through trfs -/

/-- The lower file system, the attributes of the inodes of trfs, and the superblock. -/
structure Mounted where
  storage : Storage
  upper : ℕ → InodeAttrs
  op : OpState

/-- An open file of trfs and its lower file, which `trfs_open` has opened on the lower inode in the
same mode. -/
structure StackedFile where
  file : Description
  lower : Description
  dentry : PosDentry
  ino_eq : lower.ino = file.ino
  readable_eq : lower.readable = file.readable
  writable_eq : lower.writable = file.writable

/-- A mount with open files. -/
structure StackedState where
  mount : Mounted
  files : ℕ → Option StackedFile

namespace StackedFile

/-- The files after `trfs_open`: the lower file gets the flags of the other one. -/
def opened (ino : ℕ) (readable writable append : Bool) (dentry : PosDentry) : StackedFile where
  file := ⟨ino, readable, writable, append, 0⟩
  lower := ⟨ino, readable, writable, append, 0⟩
  dentry := dentry
  ino_eq := rfl
  readable_eq := rfl
  writable_eq := rfl

/-- The position of the file of trfs. -/
def seek (f : StackedFile) (pos : ℕ) : StackedFile :=
  { f with file := { f.file with pos := pos } }

/-- A transfer moves the position of the file of trfs. -/
def advance (f : StackedFile) (offset : Option ℕ) (pos : ℕ) : StackedFile :=
  if offset = none then f.seek pos else f

/-- `setfl` changes the flags of the file of trfs. -/
def setfl (f : StackedFile) (append : Bool) : StackedFile :=
  { f with file := { f.file with append := append } }

theorem file_advance (f : StackedFile) (offset : Option ℕ) (pos : ℕ) :
    (f.advance offset pos).file = f.file.advance offset pos := by
  unfold advance Description.advance
  split <;> rfl

end StackedFile

/-- The value of a lower transfer in an `int`. -/
def toCInt : Except Errno ℕ → CInt
  | .ok n => BitVec.ofNat 32 n
  | .error e => BitVec.ofInt 32 (-e.code)

/-- `f_flags` of an open file. -/
def fFlags (f : Description) : CInt :=
  let access := match f.readable, f.writable with
    | true, true => oRDWR
    | true, false => 0
    | false, true => oWRONLY
    | false, false => 3
  OpenFlags.fFlags ⟨access ||| if f.append then oAPPEND else 0⟩

/-- What a lower write returns, with the attributes of the lower inode. -/
def lowerWrite (ret : Except Errno ℕ) (after : InodeAttrs) : Sizes.LowerWrite :=
  match ret with
  | .ok n => .written (min n maxRwCount) (Nat.min_le_right _ _) after
  | .error e => .failed e

namespace Mounted

variable (m : Mounted)

/-- The upper inode after a lower read, whose access time it copies. -/
def afterRead (ino : ℕ) (r : Storage × Except Errno (List UInt8)) (copies : CInt → Bool) :
    Mounted × CInt × List UInt8 :=
  let err := toCInt (r.2.map List.length)
  ({ m with
      storage := r.1
      upper := if copies err
        then Function.update m.upper ino (copyAttrAtime (m.upper ino) (r.1.attrs ino))
        else m.upper },
    err, r.2.toOption.getD [])

/-- `trfs_read`. -/
def trfsRead (lower : Description) (count pos : ℕ) (io : Io) : Mounted × CInt × List UInt8 :=
  let r := vfsRead lower (fun e => (m.storage, .error e)) count pos fun count =>
    m.storage.genericRead lower.ino count pos io
  m.afterRead lower.ino r fun err => 0 ≤ err.toInt

/-- `trfs_read_iter`. -/
def trfsReadIter (lower : Description) (count pos : ℕ) (io : Io) : Mounted × CInt × List UInt8 :=
  m.afterRead lower.ino (m.storage.genericRead lower.ino count pos io) fun err =>
    0 ≤ err.toInt ∨ err = negEIOCBQUEUED

/-- The inodes of a file. -/
def inodes (ino : ℕ) : Sizes.FileAttrs where
  upper := m.upper ino
  lower := m.storage.attrs ino

/-- `trfs_write`, which returns the position of the lower write as well. -/
def trfsWrite (f : StackedFile) (bytes : List UInt8) (pos : ℕ) (io : Io) (env : TailEnv) :
    Except Fault (Mounted × CInt × ℕ) :=
  let (storage, ret, pos') := vfsWrite f.lower (fun e => (m.storage, .error e, pos)) bytes pos
    fun bytes => m.storage.newSyncWrite f.lower.ino f.lower.append bytes pos io
  let (attrs, err) := Sizes.trfsWrite (m.inodes f.lower.ino)
    (lowerWrite ret (storage.attrs f.lower.ino))
  match (Trfs.trfsWrite f.dentry (fFlags f.file) (.user bytes) bytes.length err).run env m.op with
  | .error fault => .error fault
  | .ok (op, err) =>
    .ok ({ storage, upper := Function.update m.upper f.lower.ino attrs.upper, op }, err, pos')

/-- `trfs_write_iter`.  The flags of the `kiocb` are those of the file of trfs. -/
def trfsWriteIter (f : StackedFile) (bytes : List UInt8) (pos : ℕ) (io : Io) :
    Mounted × CInt × ℕ :=
  let (storage, ret, pos') :=
    m.storage.genericWrite f.lower.ino f.file.append bytes pos io
  let (attrs, err) := Sizes.trfsWriteIter (m.inodes f.lower.ino)
    (some (lowerWrite ret (storage.attrs f.lower.ino)))
  ({ m with storage, upper := Function.update m.upper f.lower.ino attrs.upper }, err, pos')

/-- `trfs_setattr`. -/
def trfsSetattr (ino : ℕ) (iaValid : CInt) (size : ℕ) (env : Sizes.SetattrEnv) : Mounted × CInt :=
  let (attrs, err) := Sizes.trfsSetattr (m.inodes ino) ⟨iaValid, size⟩ env
  ({ m with
      storage := if err = 0 then notifyChange m.storage ino iaValid size env.notifyChange
        else m.storage
      upper := Function.update m.upper ino attrs.upper }, err)

/-- `trfs_getattr`. -/
def trfsGetattr (ino : ℕ) (vfs : Option Errno) : Mounted × Except Errno InodeAttrs :=
  let (attrs, stat) := Sizes.trfsGetattr (m.inodes ino)
    (match vfs with
      | some e => .error e
      | none => .ok (m.storage.attrs ino).blocks)
  ({ m with upper := Function.update m.upper ino attrs.upper }, stat)

end Mounted

namespace StackedState

variable (s : StackedState) (maxbytes : ℕ)

/-- The return from a read. -/
def returnRead (fd : ℕ) (f : StackedFile) (offset : Option ℕ) (pos : ℕ)
    (r : Mounted × CInt × List UInt8) : StackedState × Out :=
  if r.2.1.toInt < 0 then ({ s with mount := r.1 }, .int r.2.1.toInt)
  else
    ({ mount := r.1
       files := Function.update s.files fd (some (f.advance offset (pos + r.2.2.length))) },
      ⟨r.2.1.toInt, r.2.2, none⟩)

/-- `read` and `readv` on a file of trfs. -/
def read (fd : ℕ) (f : StackedFile) (vectored : Bool) (offset : Option ℕ) (count : ℕ) (io : Io) :
    StackedState × Out :=
  let pos := offset.getD f.file.pos
  s.returnRead fd f offset pos <|
    readCall f.file (fun e => (s.mount, toCInt (.error e), [])) vectored count pos (s.mount, 0, [])
      (fun count => s.mount.trfsRead f.lower count pos io)
      (fun count => s.mount.trfsReadIter f.lower count pos io)

/-- The return from a write. -/
def returnWrite (fd : ℕ) (f : StackedFile) (offset : Option ℕ) (r : Mounted × CInt × ℕ) :
    StackedState × Out :=
  if r.2.1.toInt < 0 then ({ s with mount := r.1 }, .int r.2.1.toInt)
  else
    ({ mount := r.1
       files := Function.update s.files fd (some (f.advance offset r.2.2)) }, .int r.2.1.toInt)

/-- `write` and `writev` on a file of trfs. -/
def write (fd : ℕ) (f : StackedFile) (vectored : Bool) (offset : Option ℕ) (bytes : List UInt8)
    (io : Io) (env : TailEnv) : Option (StackedState × Out) :=
  let pos := offset.getD f.file.pos
  let r := writeCall f.file (fun e => .ok (s.mount, toCInt (.error e), pos)) vectored bytes pos
    (.ok (s.mount, 0, pos))
    (fun bytes => s.mount.trfsWrite f bytes pos io env)
    (fun bytes => .ok (s.mount.trfsWriteIter f bytes pos io))
  r.toOption.map (s.returnWrite fd f offset)

/-- A system call on the mount.  A fault in the logging tail of `trfs_write` is the end. -/
def call : FdCall → Option (StackedState × Out)
  | .openFile fd ino readable writable append dentry env =>
    match env.trfsOpen with
    | some e => some (s, .error e)
    | none =>
      some ({
        mount := { s.mount with
          upper := Function.update s.mount.upper ino
            (copyAttrAll (s.mount.upper ino) (s.mount.storage.attrs ino)) }
        files := Function.update s.files fd
          (some (.opened ino readable writable append dentry)) }, .int fd)
  | .close fd => some ({ s with files := Function.update s.files fd none }, .int 0)
  | .read fd vectored offset count io =>
    match s.files fd with
    | none => some (s, .error .badf)
    | some f => some (s.read fd f vectored offset count io)
  | .write fd vectored offset bytes io env =>
    match s.files fd with
    | none => some (s, .error .badf)
    | some f => s.write fd f vectored offset bytes io env
  | .lseek fd offset whence _ =>
    match s.files fd with
    | none => some (s, .error .badf)
    | some f =>
      match genericFileLlseek maxbytes (s.mount.upper f.file.ino).size f.file.pos offset whence with
      | .error e => some (s, .error e)
      | .ok pos => some ({ s with files := Function.update s.files fd (some (f.seek pos)) },
          .int pos)
  | .setfl fd append =>
    match s.files fd with
    | none => some (s, .error .badf)
    | some f => some ({ s with files := Function.update s.files fd (some (f.setfl append)) },
        .int 0)
  | .setattr fd iaValid size env =>
    match s.files fd with
    | none => some (s, .error .badf)
    | some f =>
      let (mount, err) := s.mount.trfsSetattr f.file.ino iaValid size env
      some ({ s with mount }, .int err.toInt)
  | .fstat fd vfs =>
    match s.files fd with
    | none => some (s, .error .badf)
    | some f =>
      match s.mount.trfsGetattr f.file.ino vfs with
      | (mount, .error e) => some ({ s with mount }, .error e)
      | (mount, .ok stat) => some ({ s with mount }, ⟨0, [], some stat⟩)

/-- One call of a sequence. -/
def step (maxbytes : ℕ) (s : StackedState) (c : FdCall) : Option StackedState :=
  (s.call maxbytes c).map Prod.fst

/-- The lower file system under the mount, with the files of trfs opened there instead. -/
def direct : DirectState where
  storage := s.mount.storage
  files := fun fd => (s.files fd).map StackedFile.file

end StackedState

end PassThrough

end Trfs
