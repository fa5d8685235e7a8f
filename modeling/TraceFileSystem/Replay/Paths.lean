import TraceFileSystem.Lib.NamespaceCalls
import TraceFileSystem.Record.FillRecord
import TraceFileSystem.Treplay.Machine

/-!
# Names, paths and path resolution

The trees that are traced and replayed are POSIX namespaces whose names are byte strings as the VFS
admits them and whose symbolic links have targets as the VFS admits them.  A dentry of the mounted
file system is known by its path from the mount point, every name preceded by a slash (`render`),
and the replay tool puts its current directory in front of such a path.

How the kernel resolves a path is given by a `PathWalk`.  All that the development uses of it is
`PathWalk.Plain`: a path that leads only through directories and is short enough is resolved to what
it says.
-/

namespace Trfs

open Posix

/-- The byte `/`. -/
def slash : UInt8 := 47

/-- What the VFS accepts as the last component of a path. -/
def ValidName (b : List UInt8) : Prop :=
  b ≠ [] ∧ b.length ≤ 255 ∧ 0 ∉ b ∧ slash ∉ b ∧ b ≠ [46] ∧ b ≠ [46, 46]

instance (b : List UInt8) : Decidable (ValidName b) :=
  inferInstanceAs (Decidable (_ ∧ _ ∧ _ ∧ _ ∧ _ ∧ _))

/-- A name in a directory. -/
structure FileName where
  bytes : List UInt8
  valid : ValidName bytes
  deriving DecidableEq

/-- The name with the given bytes, if they are one. -/
def FileName.ofBytes? (b : List UInt8) : Option FileName :=
  if h : ValidName b then some ⟨b, h⟩ else none

/-- A name is found again from its bytes. -/
@[simp] theorem FileName.ofBytes?_bytes (n : FileName) : FileName.ofBytes? n.bytes = some n := by
  rw [ofBytes?, dif_pos n.valid]

/-- The target of a symbolic link, which the VFS keeps in a page. -/
structure SymTarget where
  str : CString
  pos : 1 ≤ str.strlen
  le : str.strlen ≤ 4095
  deriving DecidableEq

/-- The target with the given bytes, if they are one. -/
def SymTarget.ofBytes? (b : List UInt8) : Option SymTarget :=
  if h : (0 : UInt8) ∉ b ∧ 1 ≤ b.length ∧ b.length ≤ 4095 then some ⟨⟨b, h.1⟩, h.2.1, h.2.2⟩ else
  none

/-- A target is found again from its bytes. -/
@[simp] theorem SymTarget.ofBytes?_bytes (s : SymTarget) :
    SymTarget.ofBytes? s.str.bytes = some s := by
  rw [ofBytes?, dif_pos ⟨s.str.noNul, s.pos, s.le⟩]

/-- The trees below a mount point or a current directory. -/
abbrev Tree := Namespace FileName SymTarget

/-! ### Paths as strings -/

/-- A path from the mount point as a string. -/
def render (p : List FileName) : List UInt8 :=
  p.flatMap fun n => slash :: n.bytes

/-- A path contains no NUL. -/
theorem noNul_render (p : List FileName) : (0 : UInt8) ∉ render p := by
  intro h
  obtain ⟨n, -, hn⟩ := List.mem_flatMap.mp h
  rcases List.mem_cons.mp hn with h0 | hn
  · exact absurd h0 (by decide)
  · exact n.valid.2.2.1 hn

/-- The path of a name is not empty. -/
theorem render_path_ne_nil (l : Place FileName) : render l.path ≠ [] := by
  simp [render, Place.path]

/-- The dentry of a name, seen from the mount point. -/
def dentryAt (l : Place FileName) : Dentry where
  path := ⟨render l.path, noNul_render _⟩
  path_ne := render_path_ne_nil l

/-- A path is made of an empty name and its names, with slashes between them. -/
theorem render_eq_intercalate (p : List FileName) :
    render p = [slash].intercalate ([] :: p.map FileName.bytes) := by
  induction p with
  | nil => rfl
  | cons n p ih =>
    have hcons : render (n :: p) = slash :: (n.bytes ++ render p) := rfl
    rw [hcons, ih, List.map_cons, List.intercalate_cons_cons]
    cases p with
    | nil => simp
    | cons m p => simp [List.intercalate_cons_cons]

/-- Splitting a path at its slashes gives the names back. -/
theorem splitOn_render (p : List FileName) :
    (render p).splitOn slash = [] :: p.map FileName.bytes := by
  rw [render_eq_intercalate]
  refine List.splitOn_intercalate slash ?_ (by simp)
  intro b hb
  rcases List.mem_cons.mp hb with rfl | hb
  · simp
  · obtain ⟨n, -, rfl⟩ := List.mem_map.mp hb
    exact n.valid.2.2.2.1

/-! ### Path resolution -/

/-- How the kernel resolves paths below the current directory: to a name in a directory, without and
with following a symbolic link at the end of the path. -/
structure PathWalk where
  lookup : Tree → List UInt8 → Option (Place FileName)
  follow : Tree → List UInt8 → Option (Place FileName)

/-- `PATH_MAX`, the length of a path with its terminator that a system call accepts. -/
def pathMax : ℕ := 4096

/-- Below a current directory, a path that fits `PATH_MAX` and leads through directories only is
resolved to what it says; a symbolic link at its end may be followed. -/
structure PathWalk.Plain (walk : PathWalk) (cwd : List UInt8) : Prop where
  lookup : ∀ (t : Tree) (l : Place FileName), t.node l.dir = some .dir →
    cwd.length + (render l.path).length < pathMax → walk.lookup t (cwd ++ render l.path) = some l
  follow : ∀ (t : Tree) (l : Place FileName), t.node l.dir = some .dir →
    cwd.length + (render l.path).length < pathMax →
    (∀ ino target, t.node l.path ≠ some (.symlink ino target)) →
    walk.follow t (cwd ++ render l.path) = some l

/-- The name a path below the current directory says, if it is a plain one. -/
def plainPlace (cwd b : List UInt8) : Option (Place FileName) :=
  if cwd <+: b then
    (((b.drop cwd.length).splitOn slash).tail.mapM FileName.ofBytes?).bind fun names =>
      names.getLast?.map fun name => ⟨names.dropLast, name⟩
  else none

/-- The path of a name says this name. -/
theorem plainPlace_render (cwd : List UInt8) (l : Place FileName) :
    plainPlace cwd (cwd ++ render l.path) = some l := by
  have hnames (p : List FileName) : (p.map FileName.bytes).mapM FileName.ofBytes? = some p := by
    induction p with
    | nil => rfl
    | cons n p ih => simp [ih]
  rw [plainPlace, if_pos (List.prefix_append _ _), List.drop_left, splitOn_render, List.tail_cons,
    hnames]
  simp [Place.path]

/-- Resolution of plain paths, which stops at symbolic links. -/
def PathWalk.plain (cwd : List UInt8) : PathWalk where
  lookup _ b := plainPlace cwd b
  follow _ b := plainPlace cwd b

/-- It resolves plain paths. -/
theorem PathWalk.plain_plain (cwd : List UInt8) : (PathWalk.plain cwd).Plain cwd where
  lookup _ l _ _ := plainPlace_render cwd l
  follow _ l _ _ _ := plainPlace_render cwd l

end Trfs
