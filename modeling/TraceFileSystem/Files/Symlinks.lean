import TraceFileSystem.Stack.LowerPaths

/-!
# Following a symlink

`trfs_get_link` allocates a page, lets the lower file system fill in the target through
`trfs_readlink`, terminates it, and leaves it to the VFS to free the page later, by a delayed call.
The variable `buf` is a pointer to the page first, and an error pointer after a failure.

Both are programs over a `LinkState`, which records what was allocated and freed, where the
terminator was stored and which delayed calls were registered.  What the kernel and the lower file
system return is given by a `LinkEnv`.

The delayed call is registered after a failure as well, and the lower file system may fill the whole
page, so that the terminator is stored behind it: `followsSafely_iff`.
-/

namespace Trfs

namespace Symlink

open Programs Posix

/-- A `char *` of `trfs_get_link`. -/
inductive LinkPtr where
  /-- The page. -/
  | page
  /-- `ERR_PTR(err)`. -/
  | err (err : CInt)
  deriving DecidableEq

/-- The result of the lower `readlink` for a buffer of the given size. -/
inductive ReadlinkResult (bufsiz : ℕ) where
  | errno (e : Errno)
  /-- The number of bytes that were filled in. -/
  | length (n : ℕ) (le : n ≤ bufsiz)
  deriving DecidableEq

/-- The value that the lower `readlink` returns. -/
def ReadlinkResult.ret {bufsiz : ℕ} : ReadlinkResult bufsiz → CInt
  | errno e => BitVec.ofInt 32 (-e.code)
  | length n _ => BitVec.ofNat 32 n

/-- What a call is given, and what the kernel and the lower file system return. -/
structure LinkEnv where
  /-- The dentry is not NULL. -/
  dentry : Bool
  /-- The page can be allocated. -/
  kmalloc : Bool
  /-- The result of the lower `readlink`, if the lower inode has this operation. -/
  readlink : Option (ReadlinkResult pageSize)
  /-- The access time of the lower inode after that. -/
  lowerAtime : ℤ

/-- What the functions do. -/
structure LinkState where
  /-- How many pages were allocated. -/
  kmalloced : ℕ
  /-- What was freed. -/
  kfreed : List LinkPtr
  /-- The indices of the page to which the terminator was stored. -/
  stored : List ℕ
  /-- The arguments of the delayed calls of `kfree_link`. -/
  delayed : List LinkPtr
  /-- The references to the lower path. -/
  lowerPaths : ℕ
  /-- The access time of the inode. -/
  atime : ℤ

/-- The state before a call. -/
def LinkState.start (atime : ℤ) : LinkState where
  kmalloced := 0
  kfreed := []
  stored := []
  delayed := []
  lowerPaths := 0
  atime := atime

/-- Programs of symlinks. -/
abbrev LinkM := EStateM Fault LinkState

/-- `trfs_readlink`. -/
def trfsReadlink (env : LinkEnv) : LinkM CInt := do
  modify fun s => { s with lowerPaths := s.lowerPaths + 1 }
  match env.readlink with
  | none => do
    modify fun s => { s with lowerPaths := s.lowerPaths - 1 }
    pure negEINVAL
  | some result => do
    if result.ret.toInt < 0 then pure () else modify fun s => { s with atime := env.lowerAtime }
    modify fun s => { s with lowerPaths := s.lowerPaths - 1 }
    pure result.ret

/-- `trfs_get_link`. -/
def trfsGetLink (env : LinkEnv) : LinkM LinkPtr :=
  if env.dentry = false then pure (.err Stack.negECHILD)
  else if env.kmalloc = false then pure (.err Stack.negENOMEM)
  else do
    modify fun s => { s with kmalloced := s.kmalloced + 1 }
    let err ← trfsReadlink env
    let buf ← if err.toInt < 0 then do
        modify fun s => { s with kfreed := .page :: s.kfreed }
        pure (.err err)
      else do
        modify fun s => { s with stored := err.toNat :: s.stored }
        pure .page
    modify fun s => { s with delayed := buf :: s.delayed }
    pure buf

/-- An error pointer is returned, the page has been freed exactly once if there was one, and no
delayed call is registered.  Or the page is returned with a terminator in it, has not been freed,
and exactly one delayed call is registered, which will free it. -/
def FollowsSafely (env : LinkEnv) : Prop :=
  ∀ atime, Returns (trfsGetLink env) (.start atime) fun ret s =>
    (∃ err, ret = .err err ∧ s.kfreed = List.replicate s.kmalloced .page ∧ s.delayed = []) ∨
      (ret = .page ∧ s.kmalloced = 1 ∧ s.kfreed = [] ∧ (∃ i < pageSize, s.stored = [i]) ∧
        s.delayed = [.page])

/-- The number of bytes that were filled in is returned as it is. -/
theorem toInt_ret_length {n : ℕ} (h : n ≤ pageSize) :
    (ReadlinkResult.length n h).ret.toInt = n ∧ (ReadlinkResult.length n h).ret.toNat = n := by
  have hle : n ≤ 4096 := h
  have hnat : (BitVec.ofNat 32 n).toNat = n := by
    rw [BitVec.toNat_ofNat, Nat.mod_eq_of_lt (by omega)]
  refine ⟨?_, hnat⟩
  rw [ReadlinkResult.ret, BitVec.toInt_eq_toNat_of_lt (by omega), hnat]

section

variable {env : LinkEnv} {s : LinkState}

/-- `trfs_readlink` puts the lower path it has got, and changes the access time only. -/
theorem returns_trfsReadlink {Q : CInt → LinkState → Prop} :
    Returns (trfsReadlink env) s Q ↔
      match env.readlink with
      | none => Q negEINVAL s
      | some result =>
        Q result.ret (if result.ret.toInt < 0 then s else { s with atime := env.lowerAtime }) := by
  unfold trfsReadlink
  cases env.readlink with
  | none => simp only [returns_bind, returns_modify, returns_pure, Nat.add_sub_cancel]
  | some result =>
    simp only [returns_bind, returns_modify, returns_ite, returns_pure, Nat.add_sub_cancel]
    split <;> rfl

/-- After a failure of `trfs_readlink` a delayed call is registered for the error pointer. -/
theorem not_followsSafely_of_neg (hdentry : env.dentry = true) (hkmalloc : env.kmalloc = true)
    (h : ∀ result, env.readlink = some result → result.ret.toInt < 0) : ¬FollowsSafely env := by
  intro hsafe
  have hneg : negEINVAL.toInt < 0 := by decide
  have hreturns := hsafe 0
  unfold trfsGetLink at hreturns
  simp only [hdentry, hkmalloc, Bool.true_eq_false, if_false, returns_bind, returns_modify,
    returns_trfsReadlink, returns_ite, returns_pure] at hreturns
  cases hreadlink : env.readlink with
  | none =>
    simp only [hreadlink, if_pos hneg] at hreturns
    simp at hreturns
  | some result =>
    simp only [hreadlink, if_pos (h result hreadlink)] at hreturns
    simp at hreturns

/-- A target of any length is terminated behind its last byte. -/
theorem followsSafely_length_iff (hdentry : env.dentry = true) (hkmalloc : env.kmalloc = true)
    {n : ℕ} {hn : n ≤ pageSize} (h : env.readlink = some (.length n hn)) :
    FollowsSafely env ↔ n < pageSize := by
  have hret := toInt_ret_length hn
  have hneg : ¬(n : ℤ) < 0 := by omega
  unfold FollowsSafely trfsGetLink
  simp only [hdentry, hkmalloc, Bool.true_eq_false, if_false, returns_bind, returns_modify,
    returns_trfsReadlink, returns_ite, returns_pure, h, hret.1, hret.2, hneg]
  simp [LinkState.start]

end

/-- **Following a symlink.**  For every result of the allocation and of the lower `readlink`,
`trfs_get_link` keeps account of its page, and terminates the target within it, if and only if the
lower file system is not asked, or returns a target that is shorter than the page. -/
theorem followsSafely_iff (env : LinkEnv) :
    FollowsSafely env ↔ (env.dentry = true → env.kmalloc = true →
      ∃ n hn, env.readlink = some (.length n hn) ∧ n < pageSize) := by
  cases hdentry : env.dentry with
  | false => simp [FollowsSafely, trfsGetLink, hdentry, LinkState.start]
  | true =>
    cases hkmalloc : env.kmalloc with
    | false => simp [FollowsSafely, trfsGetLink, hdentry, hkmalloc, LinkState.start]
    | true =>
      cases hreadlink : env.readlink with
      | none =>
        have hbroken := not_followsSafely_of_neg hdentry hkmalloc (by simp [hreadlink])
        simp [hbroken]
      | some result =>
        cases result with
        | errno e =>
          have hneg : (ReadlinkResult.errno e : ReadlinkResult pageSize).ret.toInt < 0 := by
            rw [ReadlinkResult.ret, e.toInt_neg]
            have hpos := e.pos
            omega
          have hbroken := not_followsSafely_of_neg hdentry hkmalloc (by simp [hreadlink, hneg])
          simp [hbroken]
        | length n hn =>
          rw [followsSafely_length_iff hdentry hkmalloc hreadlink]
          simp [hn]

/-- The lower file system fails with `ENOMEM`. -/
def failingEnv : LinkEnv := ⟨true, true, some (.errno .nomem), 0⟩

/-- Then the error pointer will be freed. -/
theorem not_followsSafely_failing : ¬FollowsSafely failingEnv :=
  not_followsSafely_of_neg rfl rfl (by decide)

end Symlink

end Trfs
