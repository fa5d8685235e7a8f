import TraceFileSystem.Lib.DentryCache

/-!
# A cache stacked on another one

Some entries of an upper cache have counterparts in a lower one.  `Mirrors` says that every hashed
entry with an inode has a counterpart with the same name, whose inode is the one below its own and
whose parent is the counterpart of its parent.  It is kept when both caches do the same: a new entry
gets an inode (`Mirrors.attach`), an entry is dropped (`Mirrors.dDrop`), or one is put into the
place of another (`Mirrors.dMove`); and when the lower cache does something of its own to entries
that are not counterparts.

`Ready` is what a new upper entry needs to get an inode: its counterpart is in the right place and
has no inode yet.
-/

namespace Dcache

open DentryCache

variable {α ι κ : Type*}

/-- The counterpart of an entry is hashed, has its name, and is in the counterpart of its
directory. -/
structure Faces (u : DentryCache α ι) (l : DentryCache α κ) (f : ℕ → Option ℕ) (d e : ℕ) :
    Prop where
  eq : f d = some e
  hashed : (l.entry e).hashed = true
  name : (l.entry e).name = (u.entry d).name
  parent : f (u.entry d).parent = some (l.entry e).parent

/-- The directory of an entry is live and a directory. -/
structure Housed (Dir : ι → Prop) (u : DentryCache α ι) (d : ℕ) : Prop where
  live : u.Live (u.entry d).parent
  dir : ∀ i, (u.entry (u.entry d).parent).inode = some i → Dir i

/-- The upper cache mirrors the lower one.  `f` gives the counterparts, `low` the inode below
another one, and `Dir` are the inodes of directories. -/
structure Mirrors (low : ι → κ) (Dir : ι → Prop) (u : DentryCache α ι) (l : DentryCache α κ)
    (f : ℕ → Option ℕ) : Prop where
  upper : u.Ordered
  lower : l.Ordered
  root : f 0 = some 0
  rootInode : (u.entry 0).inode.isSome
  lt : ∀ d e, f d = some e → d < u.next ∧ e < l.next
  inode : ∀ d i, (u.entry d).inode = some i → ∃ e, f d = some e ∧ (l.entry e).inode = some (low i)
  faces : ∀ d, u.Shown d → ∃ e, Faces u l f d e
  housed : ∀ d, u.Shown d → Housed Dir u d
  inj : ∀ d d', u.Live d → u.Live d' → f d = f d' → d = d'

/-- An entry without an inode is ready to get one: nothing else has its place, and its counterpart
has no inode either. -/
structure Ready (Dir : ι → Prop) (u : DentryCache α ι) (l : DentryCache α κ) (f : ℕ → Option ℕ)
    (d e : ℕ) : Prop where
  faces : Faces u l f d e
  noInode : (u.entry d).inode = none
  unused : (l.entry e).inode = none
  housed : Housed Dir u d
  vacant : ∀ x, ¬u.At (u.entry d).parent (u.entry d).name x

variable {low : ι → κ} {Dir : ι → Prop} {u : DentryCache α ι} {l : DentryCache α κ}
  {f : ℕ → Option ℕ} {d e : ℕ}

/-- The directory of an entry stays a directory as long as it stays live. -/
theorem Housed.congr {u' : DentryCache α ι} {x : ℕ} (h : Housed Dir u x)
    (hparent : (u'.entry x).parent = (u.entry x).parent) (hlive : u'.Live (u.entry x).parent)
    (hinode : (u'.entry (u.entry x).parent).inode = (u.entry (u.entry x).parent).inode) :
    Housed Dir u' x where
  live := by
    rw [hparent]
    exact hlive
  dir := by
    rw [hparent, hinode]
    exact h.dir

/-- A new upper cache on a new lower one. -/
theorem mirrors_rooted (low : ι → κ) (Dir : ι → Prop) (name name' : α) (i : ι) :
    Mirrors low Dir (rooted name i) (rooted name' (low i))
      (Function.update (fun _ => none) 0 (some 0)) := by
  have hshown (d : ℕ) : ¬(rooted name i).Shown d := by
    intro h
    rw [Shown, hashed_rooted] at h
    cases h.1
  have hroot (d : ℕ) (h : (rooted name i).Live d) : d = 0 :=
    h.resolve_right (hshown d)
  refine ⟨ordered_rooted _ _, ordered_rooted _ _, rfl, rfl, fun d e h => ?_, fun d j h => ?_,
    fun d h => absurd h (hshown d), fun d h => absurd h (hshown d), fun d d' h h' _ => ?_⟩
  · by_cases hd : d = 0
    · subst hd
      cases h
      exact ⟨Nat.one_pos, Nat.one_pos⟩
    · simp [hd] at h
  · by_cases hd : d = 0
    · subst hd
      cases h
      exact ⟨0, rfl, rfl⟩
    · simp [rooted, hd] at h
  · rw [hroot d h, hroot d' h']

namespace Mirrors

/-- An entry that is ready, or found, in a vacant place is the only one with its counterpart. -/
theorem ne_of_vacant (h : Mirrors low Dir u l f) (hf : Faces u l f d e)
    (hd : u.Live (u.entry d).parent) (hvac : ∀ x, ¬u.At (u.entry d).parent (u.entry d).name x)
    (x : ℕ) (hx : u.Live x) : f x ≠ some e := by
  intro hxe
  rcases hx with rfl | hx
  · rw [h.root] at hxe
    cases hxe
    have hhashed := hf.hashed
    rw [h.lower.root] at hhashed
    cases hhashed
  · obtain ⟨e', hx'⟩ := h.faces x hx
    cases hx'.eq.symm.trans hxe
    have hparent : (u.entry x).parent = (u.entry d).parent :=
      h.inj _ _ (h.housed x hx).live hd (hx'.parent.trans hf.parent.symm)
    exact hvac x ⟨hx.1, hparent, hx'.name.symm.trans hf.name⟩

/-- A live entry has an inode. -/
theorem isSome_of_live (h : Mirrors low Dir u l f) (hd : u.Live d) : (u.entry d).inode.isSome := by
  rcases hd with rfl | hd
  · exact h.rootInode
  · exact hd.2

/-- A live entry is not one that has no inode. -/
theorem ne_of_live (h : Mirrors low Dir u l f) (hno : (u.entry d).inode = none) {x : ℕ}
    (hx : u.Live x) : x ≠ d := by
  rintro rfl
  have hsome := h.isSome_of_live hx
  rw [hno] at hsome
  cases hsome

/-! ### The lower cache -/

/-- The lower cache changes, but not the inodes, and not the places of counterparts. -/
theorem lower_congr {l' : DentryCache α κ} (h : Mirrors low Dir u l f) (hl' : l'.Ordered)
    (hnext : l.next ≤ l'.next)
    (hinode : ∀ e k, e < l.next → (l.entry e).inode = some k → (l'.entry e).inode = some k)
    (hplace : ∀ d e, u.Shown d → f d = some e → (l'.entry e).hashed = (l.entry e).hashed ∧
      (l'.entry e).name = (l.entry e).name ∧ (l'.entry e).parent = (l.entry e).parent) :
    Mirrors low Dir u l' f where
  upper := h.upper
  lower := hl'
  root := h.root
  rootInode := h.rootInode
  lt d e hd := ⟨(h.lt d e hd).1, (h.lt d e hd).2.trans_le hnext⟩
  inode d i hd := by
    obtain ⟨e, he, hi⟩ := h.inode d i hd
    exact ⟨e, he, hinode e _ (h.lt d e he).2 hi⟩
  faces d hd := by
    obtain ⟨e, he⟩ := h.faces d hd
    obtain ⟨hhashed, hname, hparent⟩ := hplace d e hd he.eq
    exact ⟨e, he.eq, hhashed.trans he.hashed, hname.trans he.name, hparent ▸ he.parent⟩
  housed := h.housed
  inj := h.inj

/-- A lower entry without an inode gets one. -/
theorem dInstantiate (h : Mirrors low Dir u l f) (he : (l.entry e).inode = none) (k : κ) :
    Mirrors low Dir u (l.dInstantiate e k) f := by
  refine h.lower_congr (h.lower.dInstantiate e k) le_rfl (fun x j _ hx => ?_) fun d x _ _ => ?_
  · have hne : x ≠ e := by
      rintro rfl
      rw [he] at hx
      cases hx
    simp [entry_dInstantiate, hne, hx]
  · simp [entry_dInstantiate]

/-- A new lower entry in a place where there is none. -/
theorem dAdd (h : Mirrors low Dir u l f) {dir : ℕ} {name : α} (hvac : ∀ x, ¬l.At dir name x)
    (inode : Option κ) : Mirrors low Dir u (l.dAdd dir name inode) f := by
  refine h.lower_congr (h.lower.dAdd hvac inode) (Nat.le_succ _) (fun x j hlt hx => ?_)
    fun d x _ hx => ?_
  · rw [entry_dAdd hlt.ne, hx]
  · rw [entry_dAdd (h.lt d x hx).2.ne]
    exact ⟨rfl, rfl, rfl⟩

/-- A lower entry that is the counterpart of no hashed one is dropped. -/
theorem dDrop_lower (h : Mirrors low Dir u l f) (he : ∀ d, u.Shown d → f d ≠ some e) :
    Mirrors low Dir u (l.dDrop e) f := by
  refine h.lower_congr (h.lower.dDrop e) le_rfl (fun x j _ hx => ?_) fun d x hd hx => ?_
  · rw [entry_dDrop, hx]
  · have hne : x ≠ e := by
      rintro rfl
      exact he d hd hx
    simp [entry_dDrop, hne]

/-! ### The upper cache -/

/-- A new upper entry, perhaps with a counterpart. -/
theorem dAlloc (h : Mirrors low Dir u l f) (dir : ℕ) (name : α) {x : Option ℕ}
    (hx : ∀ e, x = some e → e < l.next) :
    Mirrors low Dir (u.dAlloc dir name) l (Function.update f u.next x) := by
  have hf (d e : ℕ) (hd : f d = some e) : d ≠ u.next := (h.lt d e hd).1.ne
  have hlive (d : ℕ) (hd : u.Live d) : d ≠ u.next := by
    obtain ⟨i, hi⟩ := Option.isSome_iff_exists.mp (h.isSome_of_live hd)
    obtain ⟨e, he, -⟩ := h.inode d i hi
    exact hf d e he
  constructor
  case upper => exact h.upper.dAlloc dir name
  case lower => exact h.lower
  case root => rw [Function.update_of_ne h.upper.pos.ne, h.root]
  case rootInode =>
    rw [entry_dAlloc h.upper.pos.ne]
    exact h.rootInode
  case lt =>
    intro d e hd
    by_cases hne : d = u.next
    · subst hne
      rw [Function.update_self] at hd
      exact ⟨Nat.lt_succ_self _, hx e hd⟩
    · rw [Function.update_of_ne hne] at hd
      exact ⟨Nat.lt_succ_of_lt (h.lt d e hd).1, (h.lt d e hd).2⟩
  case inode =>
    intro d i hd
    have hne : d ≠ u.next := by
      rintro rfl
      simp at hd
    rw [entry_dAlloc hne] at hd
    rw [Function.update_of_ne hne]
    exact h.inode d i hd
  case faces =>
    intro d hd
    obtain ⟨hne, hd⟩ := shown_dAlloc.mp hd
    obtain ⟨e, he⟩ := h.faces d hd
    have hparent := hlive _ (h.housed d hd).live
    refine ⟨e, ?_, he.hashed, ?_, ?_⟩
    · rw [Function.update_of_ne hne, he.eq]
    · rw [entry_dAlloc hne, he.name]
    · rw [entry_dAlloc hne, Function.update_of_ne hparent, he.parent]
  case housed =>
    intro d hd
    obtain ⟨hne, hd⟩ := shown_dAlloc.mp hd
    have hparent := (h.housed d hd).live
    refine (h.housed d hd).congr ?_ ?_ ?_
    · rw [entry_dAlloc hne]
    · exact (live_dAlloc h.upper.pos).mpr ⟨hlive _ hparent, hparent⟩
    · rw [entry_dAlloc (hlive _ hparent)]
  case inj =>
    intro d d' hd hd' heq
    obtain ⟨hne, hd⟩ := (live_dAlloc h.upper.pos).mp hd
    obtain ⟨hne', hd'⟩ := (live_dAlloc h.upper.pos).mp hd'
    rw [Function.update_of_ne hne, Function.update_of_ne hne'] at heq
    exact h.inj d d' hd hd' heq

/-- An inode is attached to an entry whose counterpart has the inode below it. -/
theorem attach (h : Mirrors low Dir u l f) (hf : Faces u l f d e) (hno : (u.entry d).inode = none)
    (hhouse : Housed Dir u d) (hvac : ∀ x, ¬u.At (u.entry d).parent (u.entry d).name x) {i : ι}
    (hi : (l.entry e).inode = some (low i)) : Mirrors low Dir (u.attach d i) l f := by
  have hroot : d ≠ 0 := (h.ne_of_live hno (.inl rfl)).symm
  have hhoused (x : ℕ) (hx : Housed Dir u x) : Housed Dir (u.attach d i) x := by
    refine hx.congr (place_attach u d i x).1 (live_attach.mpr (.inr hx.live)) ?_
    rw [entry_attach (h.ne_of_live hno hx.live)]
  have hfaces (x y : ℕ) (hx : Faces u l f x y) : Faces (u.attach d i) l f x y := by
    refine ⟨hx.eq, hx.hashed, ?_, ?_⟩
    · rw [(place_attach u d i x).2, hx.name]
    · rw [(place_attach u d i x).1, hx.parent]
  have hunshared := h.ne_of_vacant hf hhouse.live hvac
  constructor
  case upper => exact h.upper.attach (h.lt d e hf.eq).1 hroot hvac i
  case lower => exact h.lower
  case root => exact h.root
  case rootInode =>
    rw [entry_attach hroot.symm]
    exact h.rootInode
  case lt => exact h.lt
  case inode =>
    intro x j hx
    by_cases hne : x = d
    · subst hne
      rw [entry_attach_self] at hx
      cases hx
      exact ⟨e, hf.eq, hi⟩
    · rw [entry_attach hne] at hx
      exact h.inode x j hx
  case faces =>
    intro x hx
    rcases shown_attach.mp hx with rfl | hx
    · exact ⟨e, hfaces x e hf⟩
    · obtain ⟨y, hy⟩ := h.faces x hx
      exact ⟨y, hfaces x y hy⟩
  case housed =>
    intro x hx
    rcases shown_attach.mp hx with rfl | hx
    · exact hhoused x hhouse
    · exact hhoused x (h.housed x hx)
  case inj =>
    intro x y hx hy heq
    rcases live_attach.mp hx with rfl | hx' <;> rcases live_attach.mp hy with rfl | hy'
    · rfl
    · exact absurd (heq.symm.trans hf.eq) (hunshared y hy')
    · exact absurd (heq.trans hf.eq) (hunshared x hx')
    · exact h.inj x y hx' hy' heq

/-- An upper entry below which there is nothing is dropped. -/
theorem dDrop (h : Mirrors low Dir u l f)
    (hchild : ∀ x, u.Shown x → (u.entry x).parent ≠ d) : Mirrors low Dir (u.dDrop d) l f := by
  have hlive (x : ℕ) (hx : (u.dDrop d).Live x) : u.Live x :=
    hx.imp id fun hx => (shown_dDrop.mp hx).2
  constructor
  case upper => exact h.upper.dDrop d
  case lower => exact h.lower
  case root => exact h.root
  case rootInode =>
    rw [entry_dDrop]
    exact h.rootInode
  case lt => exact h.lt
  case inode =>
    intro x i hx
    rw [entry_dDrop] at hx
    exact h.inode x i hx
  case faces =>
    intro x hx
    obtain ⟨y, hy⟩ := h.faces x (shown_dDrop.mp hx).2
    refine ⟨y, hy.eq, hy.hashed, ?_, ?_⟩
    · rw [entry_dDrop, hy.name]
    · rw [entry_dDrop, hy.parent]
  case housed =>
    intro x hx
    obtain ⟨-, hx⟩ := shown_dDrop.mp hx
    refine (h.housed x hx).congr ?_ ?_ ?_
    · rw [entry_dDrop]
    · exact (h.housed x hx).live.imp id fun hp => shown_dDrop.mpr ⟨hchild x hx, hp⟩
    · rw [entry_dDrop]
  case inj =>
    intro x y hx hy heq
    exact h.inj x y (hlive x hx) (hlive y hy) heq

end Mirrors

/-! ### Entries that are ready -/

namespace Ready

/-- An entry stays ready when a lower entry is added. -/
theorem dAdd (hd : Ready Dir u l f d e) (h : Mirrors low Dir u l f) (dir : ℕ) (name : α)
    (inode : Option κ) : Ready Dir u (l.dAdd dir name inode) f d e := by
  have hne : e ≠ l.next := (h.lt d e hd.faces.eq).2.ne
  refine ⟨⟨hd.faces.eq, ?_, ?_, ?_⟩, hd.noInode, ?_, hd.housed, hd.vacant⟩
  · rw [entry_dAdd hne, hd.faces.hashed]
  · rw [entry_dAdd hne, hd.faces.name]
  · rw [entry_dAdd hne, hd.faces.parent]
  · rw [entry_dAdd hne, hd.unused]

/-- An entry stays ready when an upper entry is allocated. -/
theorem dAlloc (hd : Ready Dir u l f d e) (h : Mirrors low Dir u l f) (dir : ℕ) (name : α)
    (x : Option ℕ) : Ready Dir (u.dAlloc dir name) l (Function.update f u.next x) d e := by
  have hne : d ≠ u.next := (h.lt d e hd.faces.eq).1.ne
  have hparent : (u.entry d).parent ≠ u.next := (h.lt _ _ hd.faces.parent).1.ne
  refine ⟨⟨?_, hd.faces.hashed, ?_, ?_⟩, ?_, hd.unused, ⟨?_, ?_⟩, fun y hy => ?_⟩
  · rw [Function.update_of_ne hne, hd.faces.eq]
  · rw [entry_dAlloc hne, hd.faces.name]
  · rw [entry_dAlloc hne, Function.update_of_ne hparent, hd.faces.parent]
  · rw [entry_dAlloc hne, hd.noInode]
  · rw [entry_dAlloc hne, Live, Shown, entry_dAlloc hparent]
    exact hd.housed.live
  · rw [entry_dAlloc hne, entry_dAlloc hparent]
    exact hd.housed.dir
  · rw [entry_dAlloc hne] at hy
    exact hd.vacant y (at_of_dAlloc hy)

/-- An entry stays ready when another one gets an inode, because the counterpart of that one has an
inode. -/
theorem attach (hd : Ready Dir u l f d e) (h : Mirrors low Dir u l f) {x y : ℕ}
    (hx : Faces u l f x y)
    (hno : (u.entry x).inode = none) (hy : (l.entry y).inode ≠ none) (i : ι) :
    Ready Dir (u.attach x i) l f d e := by
  have hye : y ≠ e := by
    rintro rfl
    exact hy hd.unused
  have hne : d ≠ x := by
    rintro rfl
    exact hye (Option.some_inj.mp (hx.eq.symm.trans hd.faces.eq))
  have hparent : (u.entry d).parent ≠ x := h.ne_of_live hno hd.housed.live
  refine ⟨⟨hd.faces.eq, hd.faces.hashed, ?_, ?_⟩, ?_, hd.unused, ⟨?_, ?_⟩, fun z hz => ?_⟩
  · rw [entry_attach hne, hd.faces.name]
  · rw [entry_attach hne, hd.faces.parent]
  · rw [entry_attach hne, hd.noInode]
  · rw [entry_attach hne, Live, Shown, entry_attach hparent]
    exact hd.housed.live
  · rw [entry_attach hne, entry_attach hparent]
    exact hd.housed.dir
  · rw [entry_attach hne] at hz
    by_cases hzx : z = x
    · subst hzx
      obtain ⟨-, hp, hn⟩ := hz
      rw [entry_attach_self] at hp hn
      have hlower : (l.entry y).parent = (l.entry e).parent := by
        have hfp := hx.parent
        rw [show (u.entry z).parent = (u.entry d).parent from hp, hd.faces.parent] at hfp
        exact (Option.some_inj.mp hfp).symm
      refine hye (h.lower.unique e y hd.faces.hashed ⟨hx.hashed, hlower, ?_⟩)
      rw [hx.name, hd.faces.name]
      exact hn
    · rw [At, entry_attach hzx] at hz
      exact hd.vacant z hz

end Ready

/-! ### Lookups -/

section Lookups

variable {parent dir : ℕ} {name : α}

/-- A new entry for a name in a directory is in the right place. -/
theorem Mirrors.faces_new (h : Mirrors low Dir u l f) (hdir : f parent = some dir)
    (he : l.At dir name e) :
    Faces (u.dAlloc parent name) l (Function.update f u.next (some e)) u.next e := by
  have hne : parent ≠ u.next := (h.lt parent dir hdir).1.ne
  refine ⟨Function.update_self _ _ _, he.1, ?_, ?_⟩
  · rw [entry_dAlloc_next, he.2.2]
  · rw [entry_dAlloc_next, Function.update_of_ne hne, hdir, he.2.1]

/-- It is in a directory. -/
theorem Mirrors.housed_new (h : Mirrors low Dir u l f) (hdir : f parent = some dir)
    (hparent : u.Live parent) (hD : ∀ i, (u.entry parent).inode = some i → Dir i) :
    Housed Dir (u.dAlloc parent name) u.next := by
  have hne : parent ≠ u.next := (h.lt parent dir hdir).1.ne
  refine ⟨?_, ?_⟩
  · rw [entry_dAlloc_next, Live, Shown, entry_dAlloc hne]
    exact hparent
  · rw [entry_dAlloc_next, entry_dAlloc hne]
    exact hD

/-- Nothing else is there if nothing was there before. -/
theorem vacant_new (hvac : ∀ x, ¬u.At parent name x) (x : ℕ) :
    ¬(u.dAlloc parent name).At ((u.dAlloc parent name).entry u.next).parent
      ((u.dAlloc parent name).entry u.next).name x := by
  rw [entry_dAlloc_next]
  intro hx
  exact hvac x (at_of_dAlloc hx)

/-- A name is looked up whose lower entry has an inode. -/
theorem Mirrors.found (h : Mirrors low Dir u l f) (hdir : f parent = some dir)
    (hparent : u.Live parent)
    (hD : ∀ i, (u.entry parent).inode = some i → Dir i) (hvac : ∀ x, ¬u.At parent name x)
    (he : l.At dir name e) {i : ι} (hi : (l.entry e).inode = some (low i)) :
    Mirrors low Dir ((u.dAlloc parent name).attach u.next i) l
      (Function.update f u.next (some e)) := by
  have hnew := h.dAlloc parent name (x := some e) fun e' he' => by
    cases he'
    exact h.lower.lt e he.1
  exact hnew.attach (h.faces_new hdir he) (by simp) (h.housed_new hdir hparent hD)
    (vacant_new hvac) hi

/-- A name is looked up whose lower entry has no inode. -/
theorem Mirrors.missing (h : Mirrors low Dir u l f) (hdir : f parent = some dir)
    (hparent : u.Live parent)
    (hD : ∀ i, (u.entry parent).inode = some i → Dir i) (hvac : ∀ x, ¬u.At parent name x)
    (he : l.At dir name e) (hno : (l.entry e).inode = none) :
    Ready Dir (u.dAlloc parent name) l (Function.update f u.next (some e)) u.next e :=
  ⟨h.faces_new hdir he, by simp, hno, h.housed_new hdir hparent hD, vacant_new hvac⟩

end Lookups

/-- An entry that is ready gets an inode together with its counterpart. -/
theorem Mirrors.make (h : Mirrors low Dir u l f) (hd : Ready Dir u l f d e) (i : ι) :
    Mirrors low Dir (u.attach d i) (l.dInstantiate e (low i)) f := by
  refine (h.dInstantiate hd.unused (low i)).attach (e := e)
    ⟨hd.faces.eq, ?_, ?_, ?_⟩ hd.noInode hd.housed hd.vacant ?_
  · rw [entry_dInstantiate, hd.faces.hashed]
  · rw [entry_dInstantiate, hd.faces.name]
  · rw [entry_dInstantiate, hd.faces.parent]
  · simp [entry_dInstantiate]

/-! ### Moves -/

/-- An entry into whose place another one can be put: it has a counterpart, which no other live
entry has, nothing else is in its place, and nothing is below it. -/
structure Target (Dir : ι → Prop) (u : DentryCache α ι) (l : DentryCache α κ) (f : ℕ → Option ℕ)
    (d e : ℕ) : Prop where
  faces : Faces u l f d e
  housed : Housed Dir u d
  ne_root : d ≠ 0
  alone : ∀ x, u.Live x → f x = some e → x = d
  own : ∀ x, u.At (u.entry d).parent (u.entry d).name x → x = d
  childless : ∀ x, u.Shown x → (u.entry x).parent ≠ d
  parent_ne : (u.entry d).parent ≠ d

namespace Mirrors

/-- An entry that is ready can be a target. -/
theorem target_of_ready (h : Mirrors low Dir u l f) (hd : Ready Dir u l f d e) :
    Target Dir u l f d e where
  faces := hd.faces
  housed := hd.housed
  ne_root := (h.ne_of_live hd.noInode (.inl rfl)).symm
  alone x hx hxe := absurd hxe (h.ne_of_vacant hd.faces hd.housed.live hd.vacant x hx)
  own x hx := absurd hx (hd.vacant x)
  childless x hx := h.ne_of_live hd.noInode (h.housed x hx).live
  parent_ne := h.ne_of_live hd.noInode hd.housed.live

/-- Nothing is below a hashed entry if nothing is below its counterpart. -/
theorem childless (h : Mirrors low Dir u l f) (he : f d = some e) (hchild : l.Childless e) (x : ℕ)
    (hx : u.Shown x) : (u.entry x).parent ≠ d := by
  intro hparent
  obtain ⟨y, hy⟩ := h.faces x hx
  obtain ⟨i, hi⟩ := Option.isSome_iff_exists.mp hx.2
  obtain ⟨y', hy', hinode⟩ := h.inode x i hi
  cases hy.eq.symm.trans hy'
  have hbelow : (l.entry y).parent = e := by
    have hp := hy.parent
    rw [hparent, he] at hp
    exact (Option.some_inj.mp hp).symm
  exact hchild y (h.lt x y hy.eq).2 ⟨hy.hashed, by rw [hinode]; rfl⟩ hbelow

/-- Nothing is below an entry that is not a directory. -/
theorem childless_of_not_dir (h : Mirrors low Dir u l f) {i : ι} (hi : (u.entry d).inode = some i)
    (hdir : ¬Dir i) (x : ℕ) (hx : u.Shown x) : (u.entry x).parent ≠ d := by
  rintro rfl
  exact hdir ((h.housed x hx).dir i hi)

/-- A hashed entry with nothing below its counterpart can be a target. -/
theorem target_of_shown (h : Mirrors low Dir u l f) (hd : u.Shown d) (he : f d = some e)
    (hchild : l.Childless e) : Target Dir u l f d e := by
  obtain ⟨e', hf⟩ := h.faces d hd
  cases hf.eq.symm.trans he
  have hbelow := h.childless he hchild
  refine ⟨hf, h.housed d hd, ?_, fun x hx hxe => h.inj x d hx (.inr hd) (hxe.trans he.symm),
    fun x hx => h.upper.unique d x hd.1 hx, hbelow, fun hp => hbelow d hd hp⟩
  rintro rfl
  have hhashed := hd.1
  rw [h.upper.root] at hhashed
  cases hhashed

/-- A hashed entry is put into the place of a target, and so is its counterpart. -/
theorem dMove {a b ea eb : ℕ} (h : Mirrors low Dir u l f) (ha : u.Shown a) (hea : f a = some ea)
    (hb : Target Dir u l f b eb) (hab : b ≠ a) :
    Mirrors low Dir (u.dMove a b) (l.dMove ea eb) f := by
  obtain ⟨ea', hfa⟩ := h.faces a ha
  cases hfa.eq.symm.trans hea
  have heab : eb ≠ ea := by
    rintro rfl
    exact hab (hb.alone a (.inr ha) hea).symm
  have hroot : (0 : ℕ) ≠ a := by
    rintro rfl
    exact absurd ha.1 (by simp [h.upper.root])
  have heb : eb ≠ 0 := by
    rintro rfl
    exact hb.ne_root (hb.alone 0 (.inl rfl) h.root).symm
  have hlive (x : ℕ) (hx : u.Live x) (hxb : x ≠ b) : (u.dMove a b).Live x :=
    hx.imp id fun hx => (shown_dMove ha hab).mpr (.inr ⟨hxb, hx⟩)
  have hold (x : ℕ) (hx : (u.dMove a b).Live x) : u.Live x := by
    refine hx.imp id fun hx => ?_
    rcases (shown_dMove ha hab).mp hx with rfl | hx
    · exact ha
    · exact hx.2
  constructor
  case upper => exact h.upper.dMove ha.1 hab hb.ne_root hb.own
  case lower =>
    exact h.lower.dMove hfa.hashed heab heb fun x hx => h.lower.unique eb x hb.faces.hashed hx
  case root => exact h.root
  case rootInode =>
    rw [inode_dMove]
    exact h.rootInode
  case lt => exact h.lt
  case inode =>
    intro x i hx
    rw [inode_dMove] at hx
    obtain ⟨e, he, hi⟩ := h.inode x i hx
    exact ⟨e, he, by rw [inode_dMove, hi]⟩
  case faces =>
    intro x hx
    by_cases hxa : x = a
    · subst hxa
      refine ⟨ea, hea, by simp, ?_, ?_⟩
      · simpa using hb.faces.name
      · simpa using hb.faces.parent
    · obtain ⟨hxb, hx'⟩ := ((shown_dMove ha hab).mp hx).resolve_left hxa
      obtain ⟨e, he⟩ := h.faces x hx'
      have hne : e ≠ ea := by
        rintro rfl
        exact hxa (h.inj x a (.inr hx') (.inr ha) (he.eq.trans hea.symm))
      have hne' : e ≠ eb := by
        rintro rfl
        exact hxb (hb.alone x (.inr hx') he.eq)
      refine ⟨e, he.eq, ?_, ?_, ?_⟩
      · rw [entry_dMove hne hne', he.hashed]
      · rw [entry_dMove hne hne', entry_dMove hxa hxb, he.name]
      · rw [entry_dMove hne hne', entry_dMove hxa hxb, he.parent]
  case housed =>
    intro x hx
    by_cases hxa : x = a
    · -- the entry is in the directory of the target now
      subst hxa
      refine ⟨?_, ?_⟩
      · rw [entry_dMove_self]
        exact hlive _ hb.housed.live hb.parent_ne
      · rw [entry_dMove_self, inode_dMove]
        exact hb.housed.dir
    · obtain ⟨hxb, hx'⟩ := ((shown_dMove ha hab).mp hx).resolve_left hxa
      refine (h.housed x hx').congr ?_ ?_ ?_
      · rw [entry_dMove hxa hxb]
      · exact hlive _ (h.housed x hx').live (hb.childless x hx')
      · rw [inode_dMove]
  case inj =>
    intro x y hx hy heq
    exact h.inj x y (hold x hx) (hold y hy) heq

end Mirrors

end Dcache
