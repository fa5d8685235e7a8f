import Mathlib.Tactic

/-!
# Caches of directory entries

A cache of directory entries that are known by numbers: each has a parent, a name, perhaps an inode,
and is hashed if a lookup of its name can find it.  Entry zero is the root, which is below no other
entry.  Names and inodes are elements of arbitrary types.

* `DentryCache.dLookup` finds a hashed entry, `dAlloc` and `dAdd` make new ones, `attach` gives an
  inode to an entry and hashes it, `dDrop` unhashes one, and `dMove` puts one into the place of
  another, as a rename does.
* `DentryCache.Ordered` is the invariant of a cache: no two hashed entries have the same place.
-/

namespace Dcache

/-- A directory entry. -/
structure Entry (α ι : Type*) where
  parent : ℕ
  name : α
  inode : Option ι
  hashed : Bool

/-- A cache of directory entries; `next` is the number of the next new one. -/
structure DentryCache (α ι : Type*) where
  entry : ℕ → Entry α ι
  next : ℕ

variable {α ι κ : Type*}

namespace DentryCache

/-- The entry is found under a name in a directory. -/
def At (c : DentryCache α ι) (dir : ℕ) (name : α) (d : ℕ) : Prop :=
  (c.entry d).hashed = true ∧ (c.entry d).parent = dir ∧ (c.entry d).name = name

instance decidableAt [DecidableEq α] (c : DentryCache α ι) (dir : ℕ) (name : α) (d : ℕ) :
    Decidable (c.At dir name d) :=
  inferInstanceAs (Decidable (_ ∧ _))

/-- The entry is hashed and has an inode. -/
def Shown (c : DentryCache α ι) (d : ℕ) : Prop :=
  (c.entry d).hashed = true ∧ (c.entry d).inode.isSome

instance decidableShown (c : DentryCache α ι) (d : ℕ) : Decidable (c.Shown d) :=
  inferInstanceAs (Decidable (_ ∧ _))

/-- The entry is hashed and has an inode, or it is the root. -/
def Live (c : DentryCache α ι) (d : ℕ) : Prop :=
  d = 0 ∨ c.Shown d

instance decidableLive (c : DentryCache α ι) (d : ℕ) : Decidable (c.Live d) :=
  inferInstanceAs (Decidable (_ ∨ _))

/-- Nothing hashed with an inode is below the entry. -/
def Childless (c : DentryCache α ι) (d : ℕ) : Prop :=
  ∀ x < c.next, c.Shown x → (c.entry x).parent ≠ d

instance decidableChildless (c : DentryCache α ι) (d : ℕ) : Decidable (c.Childless d) :=
  inferInstanceAs (Decidable (∀ x < c.next, c.Shown x → _ ≠ d))

/-- A cache with a root and nothing else. -/
def rooted (name : α) (inode : ι) : DentryCache α ι where
  entry := Function.update (fun _ => ⟨0, name, none, false⟩) 0 ⟨0, name, some inode, false⟩
  next := 1

/-- `d_lookup`. -/
def dLookup [DecidableEq α] (c : DentryCache α ι) (dir : ℕ) (name : α) : Option ℕ :=
  (List.range c.next).find? fun d => c.At dir name d

/-- `d_alloc`: a new entry that is not hashed. -/
def dAlloc (c : DentryCache α ι) (dir : ℕ) (name : α) : DentryCache α ι where
  entry := Function.update c.entry c.next ⟨dir, name, none, false⟩
  next := c.next + 1

/-- `d_alloc` and `d_add`: a new entry that is hashed. -/
def dAdd (c : DentryCache α ι) (dir : ℕ) (name : α) (inode : Option ι) : DentryCache α ι where
  entry := Function.update c.entry c.next ⟨dir, name, inode, true⟩
  next := c.next + 1

/-- `d_instantiate`. -/
def dInstantiate (c : DentryCache α ι) (d : ℕ) (i : ι) : DentryCache α ι :=
  { c with entry := Function.update c.entry d { c.entry d with inode := some i } }

/-- `d_splice_alias`, when it attaches the inode to the entry itself. -/
def attach (c : DentryCache α ι) (d : ℕ) (i : ι) : DentryCache α ι :=
  { c with entry := Function.update c.entry d { c.entry d with inode := some i, hashed := true } }

/-- `d_drop`. -/
def dDrop (c : DentryCache α ι) (d : ℕ) : DentryCache α ι :=
  { c with entry := Function.update c.entry d { c.entry d with hashed := false } }

/-- `d_move`: the entry gets name and parent of the target; the target is unhashed and gets its
parent. -/
def dMove (c : DentryCache α ι) (d target : ℕ) : DentryCache α ι :=
  { c with
    entry := Function.update
      (Function.update c.entry target
        { c.entry target with parent := (c.entry d).parent, hashed := false })
      d { c.entry d with
          parent := (c.entry target).parent, name := (c.entry target).name, hashed := true } }

/-! ### One cache -/

variable {c : DentryCache α ι} {d x : ℕ} {dir : ℕ} {name : α} {i : ι}

/-- No two hashed entries have the same place, and the root is not below any entry. -/
structure Ordered (c : DentryCache α ι) : Prop where
  unique : ∀ x y, (c.entry x).hashed = true → c.At (c.entry x).parent (c.entry x).name y → y = x
  lt : ∀ x, (c.entry x).hashed = true → x < c.next
  root : (c.entry 0).hashed = false
  pos : 0 < c.next

/-- An entry that is found is in its place. -/
theorem at_of_dLookup [DecidableEq α] (h : c.dLookup dir name = some d) : c.At dir name d := by
  simpa using List.find?_some h

/-- When no entry is found, none is there. -/
theorem Ordered.not_at_of_dLookup [DecidableEq α] (hc : c.Ordered) (h : c.dLookup dir name = none)
    (x : ℕ) : ¬c.At dir name x := by
  intro hx
  have hnone := List.find?_eq_none.mp h x (List.mem_range.mpr (hc.lt x hx.1))
  exact hnone (by simpa using hx)

/-- The root of a new cache is not hashed. -/
theorem hashed_rooted (name : α) (inode : ι) (x : ℕ) :
    ((rooted name inode).entry x).hashed = false := by
  by_cases hx : x = 0
  · subst hx
    rfl
  · simp [rooted, hx]

/-- A cache with a root and nothing else is in order. -/
theorem ordered_rooted (name : α) (inode : ι) : (rooted name inode).Ordered where
  unique x y hx := by simp [hashed_rooted] at hx
  lt x hx := by simp [hashed_rooted] at hx
  root := rfl
  pos := Nat.one_pos

/-- Entries below the next number do not change when a new one is made. -/
theorem entry_dAlloc (hx : x ≠ c.next) (dir : ℕ) (name : α) :
    (c.dAlloc dir name).entry x = c.entry x :=
  Function.update_of_ne hx _ _

/-- The new entry. -/
@[simp] theorem entry_dAlloc_next (c : DentryCache α ι) (dir : ℕ) (name : α) :
    (c.dAlloc dir name).entry c.next = ⟨dir, name, none, false⟩ :=
  Function.update_self _ _ _

/-- Entries below the next number do not change when a new one is added. -/
theorem entry_dAdd (hx : x ≠ c.next) (dir : ℕ) (name : α) (inode : Option ι) :
    (c.dAdd dir name inode).entry x = c.entry x :=
  Function.update_of_ne hx _ _

/-- The new entry. -/
@[simp] theorem entry_dAdd_next (c : DentryCache α ι) (dir : ℕ) (name : α) (inode : Option ι) :
    (c.dAdd dir name inode).entry c.next = ⟨dir, name, inode, true⟩ :=
  Function.update_self _ _ _

/-- The inode of another entry does not change when one is attached. -/
theorem entry_attach (hx : x ≠ d) (i : ι) : (c.attach d i).entry x = c.entry x :=
  Function.update_of_ne hx _ _

/-- The entry to which an inode was attached. -/
@[simp] theorem entry_attach_self (c : DentryCache α ι) (d : ℕ) (i : ι) :
    (c.attach d i).entry d = { c.entry d with inode := some i, hashed := true } :=
  Function.update_self _ _ _

/-- Parents and names stay when an inode is attached. -/
theorem place_attach (c : DentryCache α ι) (d : ℕ) (i : ι) (x : ℕ) :
    ((c.attach d i).entry x).parent = (c.entry x).parent ∧
      ((c.attach d i).entry x).name = (c.entry x).name := by
  by_cases hx : x = d
  · subst hx
    simp
  · simp [entry_attach hx]

/-- Everything but the inode stays when an entry is instantiated. -/
theorem entry_dInstantiate (c : DentryCache α ι) (d : ℕ) (i : ι) (x : ℕ) :
    (c.dInstantiate d i).entry x =
      { c.entry x with inode := if x = d then some i else (c.entry x).inode } := by
  by_cases hx : x = d
  · subst hx
    simp [dInstantiate]
  · simp [dInstantiate, hx]

/-- The entry that has got an inode. -/
theorem inode_dInstantiate_self (c : DentryCache α ι) (d : ℕ) (i : ι) :
    ((c.dInstantiate d i).entry d).inode = some i := by
  rw [entry_dInstantiate, if_pos rfl]

/-- Everything but the flag stays when an entry is dropped. -/
theorem entry_dDrop (c : DentryCache α ι) (d x : ℕ) :
    (c.dDrop d).entry x =
      { c.entry x with hashed := if x = d then false else (c.entry x).hashed } := by
  by_cases hx : x = d
  · subst hx
    simp [dDrop]
  · simp [dDrop, hx]

/-- Other entries do not change in a move. -/
theorem entry_dMove {a b : ℕ} (ha : x ≠ a) (hb : x ≠ b) : (c.dMove a b).entry x = c.entry x := by
  simp [dMove, ha, hb]

/-- The entry that is moved. -/
@[simp] theorem entry_dMove_self (c : DentryCache α ι) (a b : ℕ) :
    (c.dMove a b).entry a =
      { c.entry a with parent := (c.entry b).parent, name := (c.entry b).name, hashed := true } :=
  Function.update_self _ _ _

/-- The entry that is replaced. -/
theorem entry_dMove_target {a b : ℕ} (h : b ≠ a) :
    (c.dMove a b).entry b = { c.entry b with parent := (c.entry a).parent, hashed := false } := by
  simp [dMove, h]

/-- Inodes stay in a move. -/
theorem inode_dMove (c : DentryCache α ι) (a b x : ℕ) :
    ((c.dMove a b).entry x).inode = (c.entry x).inode := by
  by_cases ha : x = a
  · subst ha
    simp
  · by_cases hb : x = b
    · subst hb
      rw [entry_dMove_target ha]
    · rw [entry_dMove ha hb]

/-- What is found after a new entry was made was found before. -/
theorem at_of_dAlloc {dir' : ℕ} {name' : α} (h : (c.dAlloc dir name).At dir' name' x) :
    c.At dir' name' x := by
  by_cases hx : x = c.next
  · subst hx
    simp [At] at h
  · rwa [At, entry_dAlloc hx] at h

/-- A new entry has no inode. -/
theorem shown_dAlloc : (c.dAlloc dir name).Shown x ↔ x ≠ c.next ∧ c.Shown x := by
  by_cases hx : x = c.next
  · subst hx
    simp [Shown]
  · simp [Shown, entry_dAlloc hx, hx]

/-- A new entry is not live. -/
theorem live_dAlloc (hpos : 0 < c.next) : (c.dAlloc dir name).Live x ↔ x ≠ c.next ∧ c.Live x := by
  rw [Live, shown_dAlloc, Live]
  constructor
  · rintro (rfl | ⟨hne, hx⟩)
    · exact ⟨hpos.ne, .inl rfl⟩
    · exact ⟨hne, .inr hx⟩
  · rintro ⟨hne, hx⟩
    exact hx.imp id fun hx => ⟨hne, hx⟩

/-- An entry is shown when it gets an inode. -/
theorem shown_attach : (c.attach d i).Shown x ↔ x = d ∨ c.Shown x := by
  by_cases hx : x = d
  · subst hx
    simp [Shown]
  · simp [Shown, entry_attach hx, hx]

/-- An entry is live when it gets an inode. -/
theorem live_attach : (c.attach d i).Live x ↔ x = d ∨ c.Live x := by
  rw [Live, shown_attach, Live, or_left_comm]

/-- An entry that is dropped is not shown. -/
theorem shown_dDrop : (c.dDrop d).Shown x ↔ x ≠ d ∧ c.Shown x := by
  by_cases hx : x = d
  · simp [Shown, entry_dDrop, hx]
  · simp [Shown, entry_dDrop, hx]

/-- The entry that is moved is shown, the one that it replaces is not. -/
theorem shown_dMove {a b : ℕ} (ha : c.Shown a) (hab : b ≠ a) :
    (c.dMove a b).Shown x ↔ x = a ∨ x ≠ b ∧ c.Shown x := by
  by_cases hxa : x = a
  · subst hxa
    simpa [Shown] using ha.2
  · by_cases hxb : x = b
    · subst hxb
      simp [Shown, entry_dMove_target hab, hxa]
    · simp [Shown, entry_dMove hxa hxb, hxa, hxb]

/-- A new entry that is not hashed keeps a cache in order. -/
theorem Ordered.dAlloc (hc : c.Ordered) (dir : ℕ) (name : α) : (c.dAlloc dir name).Ordered := by
  have hold (x : ℕ) (hx : ((c.dAlloc dir name).entry x).hashed = true) :
      (c.dAlloc dir name).entry x = c.entry x := by
    refine entry_dAlloc (fun h => ?_) dir name
    subst h
    simp at hx
  refine ⟨fun x y hx hy => ?_, fun x hx => ?_, ?_, Nat.succ_pos _⟩
  · have hx' := hold x hx
    have hy' := hold y hy.1
    simp only [At, hx', hy'] at hx hy
    exact hc.unique x y hx hy
  · rw [hold x hx] at hx
    exact Nat.lt_succ_of_lt (hc.lt x hx)
  · rw [entry_dAlloc hc.pos.ne]
    exact hc.root

/-- A new entry in a place where there is none keeps a cache in order. -/
theorem Ordered.dAdd (hc : c.Ordered) (h : ∀ x, ¬c.At dir name x) (inode : Option ι) :
    (c.dAdd dir name inode).Ordered where
  unique x y hx hy := by
    by_cases hxn : x = c.next <;> by_cases hyn : y = c.next
    · rw [hxn, hyn]
    · rw [hxn] at hy
      simp only [At, entry_dAdd_next, entry_dAdd hyn] at hy
      exact absurd hy (h y)
    · rw [hyn] at hy
      simp only [At, entry_dAdd_next, entry_dAdd hxn] at hy hx
      exact absurd ⟨hx, hy.2.1.symm, hy.2.2.symm⟩ (h x)
    · simp only [At, entry_dAdd hxn, entry_dAdd hyn] at hx hy
      exact hc.unique x y hx hy
  lt x hx := by
    by_cases hxn : x = c.next
    · exact hxn ▸ Nat.lt_succ_self _
    · rw [entry_dAdd hxn] at hx
      exact Nat.lt_succ_of_lt (hc.lt x hx)
  root := by
    rw [entry_dAdd hc.pos.ne]
    exact hc.root
  pos := Nat.succ_pos _

/-- An inode is attached to an entry in whose place there is none. -/
theorem Ordered.attach (hc : c.Ordered) (hd : d < c.next) (hroot : d ≠ 0)
    (h : ∀ x, ¬c.At (c.entry d).parent (c.entry d).name x) (i : ι) : (c.attach d i).Ordered where
  unique x y hx hy := by
    obtain ⟨hyh, hyp, hyn⟩ := hy
    rw [(place_attach c d i x).1, (place_attach c d i y).1] at hyp
    rw [(place_attach c d i x).2, (place_attach c d i y).2] at hyn
    by_cases hxd : x = d <;> by_cases hyd : y = d
    · rw [hxd, hyd]
    · rw [entry_attach hyd] at hyh
      exact absurd ⟨hyh, by rw [hyp, hxd], by rw [hyn, hxd]⟩ (h y)
    · rw [entry_attach hxd] at hx
      exact absurd ⟨hx, by rw [← hyp, hyd], by rw [← hyn, hyd]⟩ (h x)
    · rw [entry_attach hyd] at hyh
      rw [entry_attach hxd] at hx
      exact hc.unique x y hx ⟨hyh, hyp, hyn⟩
  lt x hx := by
    by_cases hxd : x = d
    · exact hxd ▸ hd
    · rw [entry_attach hxd] at hx
      exact hc.lt x hx
  root := by
    rw [entry_attach hroot.symm]
    exact hc.root
  pos := hc.pos

/-- Instantiating an entry keeps a cache in order. -/
theorem Ordered.dInstantiate (hc : c.Ordered) (d : ℕ) (i : ι) : (c.dInstantiate d i).Ordered where
  unique x y hx hy := by
    simp only [At, entry_dInstantiate] at hx hy
    exact hc.unique x y hx hy
  lt x hx := by
    simp only [entry_dInstantiate] at hx
    exact hc.lt x hx
  root := by simp [entry_dInstantiate, hc.root]
  pos := hc.pos

/-- Dropping an entry keeps a cache in order. -/
theorem Ordered.dDrop (hc : c.Ordered) (d : ℕ) : (c.dDrop d).Ordered where
  unique x y hx hy := by
    simp only [At, entry_dDrop] at hx hy
    split_ifs at hx hy with hxd hyd
    · exact absurd hy.1 (by simp)
    · exact hc.unique x y hx hy
  lt x hx := by
    simp only [entry_dDrop] at hx
    split_ifs at hx
    exact hc.lt x hx
  root := by
    simp only [entry_dDrop, hc.root]
    split_ifs <;> rfl
  pos := hc.pos

/-- Moving an entry into the place of another one, in which there is nothing else, keeps a cache in
order. -/
theorem Ordered.dMove {a b : ℕ} (hc : c.Ordered) (ha : (c.entry a).hashed = true) (hab : b ≠ a)
    (hb : b ≠ 0) (h : ∀ x, c.At (c.entry b).parent (c.entry b).name x → x = b) :
    (c.dMove a b).Ordered := by
  have hne (x : ℕ) (hx : ((c.dMove a b).entry x).hashed = true) : x ≠ b := by
    intro hxb
    rw [hxb, entry_dMove_target hab] at hx
    cases hx
  refine ⟨fun x y hx hy => ?_, fun x hx => ?_, ?_, hc.pos⟩
  · have hxb := hne x hx
    have hyb := hne y hy.1
    by_cases hxa : x = a <;> by_cases hya : y = a
    · rw [hxa, hya]
    · rw [hxa] at hy
      simp only [At, entry_dMove_self, entry_dMove hya hyb] at hy
      exact absurd (h y hy) hyb
    · rw [hya] at hy
      simp only [At, entry_dMove_self, entry_dMove hxa hxb] at hx hy
      exact absurd (h x ⟨hx, hy.2.1.symm, hy.2.2.symm⟩) hxb
    · simp only [At, entry_dMove hxa hxb, entry_dMove hya hyb] at hx hy
      exact hc.unique x y hx hy
  · by_cases hxa : x = a
    · exact hxa ▸ hc.lt a ha
    · rw [entry_dMove hxa (hne x hx)] at hx
      exact hc.lt x hx
  · have hzero : (0 : ℕ) ≠ a := by
      intro h0
      rw [← h0, hc.root] at ha
      cases ha
    rw [entry_dMove hzero hb.symm]
    exact hc.root

end DentryCache

end Dcache
