import TraceFileSystem.Lib.NamespaceCalls

/-!
# Dentries that are kept

A directory entry that somebody holds on to stays behind when its name is removed, and goes along
when its name is moved.  `Trail` follows such an entry by the names on the way from the root to it;
each of them belongs to an entry that is either still hashed, so that a lookup of the name finds it,
or not.

* `Trail.dropped`: removing a name takes its entry out of the hash table, and its path stays what it
  was.
* `Trail.moved`: a move takes all entries below the name along; the entry in whose place it is put
  is taken out of the hash table, and comes into the directory that the other one has left.

An entry that is hashed leads to its object, whatever calls are made (`Trail.Leads.change`).
-/

namespace Posix

variable {α β τ : Type*}

/-! ### Places -/

/-- What lies below the tree that moves goes along. -/
theorem rekey_append [DecidableEq α] (p q r : List α) : rekey p q (p ++ r) = q ++ r := by
  rw [rekey, if_pos (List.prefix_append _ _), List.drop_left]

/-- What lies elsewhere stays. -/
theorem rekey_of_not_below [DecidableEq α] {p x : List α} (h : ¬p <+: x) (q : List α) :
    rekey p q x = x := by
  rw [rekey, if_neg h]

namespace Place

/-- The place with other names. -/
def map (f : α → β) (l : Place α) : Place β :=
  ⟨l.dir.map f, f l.name⟩

@[simp] theorem path_map (f : α → β) (l : Place α) : (l.map f).path = l.path.map f := by
  simp [map, path]

/-- Places are known by their paths. -/
theorem path_injective : Function.Injective (path : Place α → List α) := by
  rintro ⟨dir, name⟩ ⟨dir', name'⟩ h
  obtain ⟨rfl, h⟩ := List.append_inj' h rfl
  cases h
  rfl

/-- A path begins with a place if it ends there, or its directory begins with the place. -/
theorem path_prefix_iff {l x : Place α} : l.path <+: x.path ↔ x = l ∨ l.path <+: x.dir := by
  refine List.prefix_concat_iff.trans (or_congr_left ?_)
  exact ⟨fun h => (path_injective h).symm, fun h => congrArg path h.symm⟩

variable [DecidableEq α]

/-- Where a place is after the tree at `l` has moved to `k`. -/
def rekey (l k x : Place α) : Place α :=
  if x = l then k else ⟨Posix.rekey l.path k.path x.dir, x.name⟩

/-- Its path moves along. -/
theorem path_rekey (l k x : Place α) : (rekey l k x).path = Posix.rekey l.path k.path x.path := by
  unfold rekey
  split
  · next h =>
    subst h
    simpa using (rekey_append x.path k.path []).symm
  · next h =>
    rcases em (l.path <+: x.dir) with ⟨r, hr⟩ | hdir
    · have hx : x.path = l.path ++ (r ++ [x.name]) := by rw [← List.append_assoc, hr, path]
      rw [hx, rekey_append, ← hr, rekey_append, path, List.append_assoc]
    · have hpath : ¬l.path <+: x.path := fun hpath => (path_prefix_iff.mp hpath).elim h hdir
      rw [rekey_of_not_below hpath, path, rekey_of_not_below hdir]
      rfl

end Place

/-! ### Trails -/

/-- A name on the way to an entry, and whether the entry it belongs to is hashed. -/
structure Hop (α : Type*) where
  name : α
  hashed : Bool
  deriving DecidableEq

/-- An entry, with the names on the way to it. -/
abbrev Trail (α : Type*) := Place (Hop α)

/-- The entry that a lookup finds. -/
def Place.trail (l : Place α) : Trail α :=
  l.map fun a => ⟨a, true⟩

namespace Trail

/-- What the path of an entry says. -/
def place (d : Trail α) : Place α :=
  d.map Hop.name

/-- An entry that a lookup of its path finds. -/
def Hashed (d : Trail α) : Prop :=
  ∀ h ∈ d.path, h.hashed = true

instance (d : Trail α) : Decidable d.Hashed :=
  inferInstanceAs (Decidable (∀ h ∈ d.path, h.hashed = true))

/-- The path of an entry. -/
theorem path_place (d : Trail α) : d.place.path = d.path.map Hop.name :=
  Place.path_map _ _

/-- The path of the entry of a place. -/
theorem path_trail (l : Place α) : l.trail.path = l.path.map fun a => ⟨a, true⟩ :=
  Place.path_map _ _

/-- The path of the entry of a place says this place. -/
theorem map_name_hashed (p : List α) :
    (p.map fun a => (⟨a, true⟩ : Hop α)).map Hop.name = p := by
  rw [List.map_map]
  exact List.map_id p

/-- The entry of a place says this place. -/
theorem place_trail (l : Place α) : l.trail.place = l := by
  apply Place.path_injective
  rw [path_place, path_trail, map_name_hashed]

/-- Hashed names are known by what they say. -/
theorem map_name_of_hashed {p : List (Hop α)} (h : ∀ x ∈ p, x.hashed = true) :
    (p.map Hop.name).map (fun a => (⟨a, true⟩ : Hop α)) = p := by
  induction p with
  | nil => rfl
  | cons x p ih =>
    obtain ⟨hx, hp⟩ := List.forall_mem_cons.mp h
    obtain ⟨name, hashed⟩ := x
    cases hx
    rw [List.map_cons, List.map_cons, ih hp]

variable {d : Trail α} {l k : Place α}

/-- A hashed entry lies below a place exactly if its path says so. -/
theorem Hashed.prefix_iff (hd : d.Hashed) : l.trail.path <+: d.path ↔ l.path <+: d.place.path := by
  rw [path_trail, path_place]
  constructor
  · intro h
    rw [← map_name_hashed l.path]
    exact h.map Hop.name
  · intro h
    rw [← map_name_of_hashed hd]
    exact h.map _

variable [DecidableEq α]

/-- The entry after the one at a place was taken out of the hash table, with a directory and a name
that are left to it. -/
def unhashed (l : Place α) (dir : List (Hop α)) (a : α) (d : Trail α) : Trail α :=
  Place.rekey l.trail ⟨dir, ⟨a, false⟩⟩ d

/-- The entry after a name was removed. -/
def dropped (l : Place α) (d : Trail α) : Trail α :=
  d.unhashed l l.trail.dir l.name

/-- The entry after a tree was moved. -/
def moved (l k : Place α) (d : Trail α) : Trail α :=
  Place.rekey l.trail k.trail (d.unhashed k l.trail.dir k.name)

/-- What a call does to an entry. -/
def after (d : Trail α) : Call α τ → Trail α
  | .create _ | .mkdir _ | .symlink _ _ | .link _ _ => d
  | .unlink l | .rmdir l => d.dropped l
  | .rename l k => d.moved l k

/-- Entries elsewhere stay as they are. -/
theorem unhashed_of_not_below (h : ¬l.trail.path <+: d.path) (dir : List (Hop α)) (a : α) :
    d.unhashed l dir a = d := by
  apply Place.path_injective
  rw [unhashed, Place.path_rekey, rekey_of_not_below h]

/-- Below the place, the entry comes below another one that is not hashed. -/
theorem path_unhashed {r : List (Hop α)} (h : l.trail.path ++ r = d.path) (dir : List (Hop α))
    (a : α) : (d.unhashed l dir a).path = dir ++ ⟨a, false⟩ :: r := by
  rw [unhashed, Place.path_rekey, ← h, rekey_append, Place.path, List.append_assoc,
    List.singleton_append]

/-- If the entry is hashed afterwards, it lies elsewhere. -/
theorem not_prefix_of_unhashed {dir : List (Hop α)} {a : α} (h : (d.unhashed l dir a).Hashed) :
    ¬l.trail.path <+: d.path := by
  rintro ⟨r, hr⟩
  have hhop := h ⟨a, false⟩
  rw [path_unhashed hr] at hhop
  simp at hhop

/-- An entry leads to an object, if it is hashed. -/
def Leads (t : Namespace α τ) (d : Trail α) (n : Node τ) : Prop :=
  d.Hashed → t.node d.place.path = some n

variable {t : Namespace α τ} {n : Node τ} {c : Call α τ}

/-- The entry of a name leads to what the name leads to. -/
theorem leads_trail (h : t.node l.path = some n) : Leads t l.trail n := by
  intro _
  rwa [path_place, path_trail, map_name_hashed]

/-- A name is removed. -/
theorem Leads.dropped (h : Leads t d n) (hl : t.Childless l.path) :
    Leads (t.remove l) (d.dropped l) n := by
  intro hd
  have hnot := not_prefix_of_unhashed hd
  rw [Trail.dropped, unhashed_of_not_below hnot] at hd ⊢
  have hne : d.place.path ≠ l.path := by
    intro hpath
    exact hnot (hd.prefix_iff.mpr (hpath ▸ List.prefix_refl _))
  rw [Namespace.node_remove hl, if_neg hne]
  exact h hd

variable [DecidableEq τ]

/-- A vacant name is given to an object. -/
theorem Leads.add (h : Leads t d n) (hl : t.Vacant l) {m : Node τ} (hm : m.Below (t.next + 1)) :
    Leads (t.add l m) d n := by
  intro hd
  have hnode := h hd
  have hne : d.place.path ≠ l.path := by
    intro hpath
    rw [hpath, hl.1] at hnode
    cases hnode
  rw [Namespace.node_add hl hm, if_neg hne, hnode]

/-- An entry that was put out of a place does not lie in the tree that moves. -/
theorem not_prefix_moved {r : List (Hop α)} (h : k.trail.path ++ r = d.path) :
    ¬l.trail.path <+: (d.unhashed k l.trail.dir k.name).path := by
  rw [path_unhashed h, Place.path, List.prefix_append_right_inj]
  intro hpre
  have heq := (List.cons_prefix_cons.mp hpre).1
  have hhashed : (true : Bool) = false := congrArg Hop.hashed heq
  cases hhashed

/-- A tree is moved. -/
theorem Leads.moved (h : Leads t d n) (hl : t.Movable l k) :
    Leads (t.move l k) (d.moved l k) n := by
  intro hd
  have hpath : (d.moved l k).path =
      rekey l.trail.path k.trail.path (d.unhashed k l.trail.dir k.name).path :=
    Place.path_rekey _ _ _
  -- the entry was not put out of the new place
  have hnot : ¬k.trail.path <+: d.path := by
    rintro ⟨r, hr⟩
    rw [rekey_of_not_below (not_prefix_moved hr)] at hpath
    have hunhashed : (d.unhashed k l.trail.dir k.name).Hashed := fun x hx => hd x (hpath ▸ hx)
    exact not_prefix_of_unhashed hunhashed ⟨r, hr⟩
  rw [unhashed_of_not_below hnot] at hpath
  rw [path_place, Namespace.node_move hl]
  rcases em (l.trail.path <+: d.path) with ⟨r, hr⟩ | hout
  · -- it goes along
    rw [← hr, rekey_append] at hpath
    have hd' : d.Hashed := by
      intro x hx
      rw [← hr, List.mem_append, path_trail] at hx
      rcases hx with hx | hx
      · obtain ⟨a, -, rfl⟩ := List.mem_map.mp hx
        rfl
      · exact hd x (by rw [hpath]; exact List.mem_append_right _ hx)
    have hnode := h hd'
    rw [path_place, ← hr, List.map_append, path_trail, map_name_hashed] at hnode
    rw [hpath, List.map_append, path_trail, map_name_hashed, origin,
      if_pos (List.prefix_append _ _), List.drop_left, Option.bind_some, hnode]
  · -- it stays
    rw [rekey_of_not_below hout] at hpath
    have hd' : d.Hashed := fun x hx => hd x (hpath ▸ hx)
    rw [hd'.prefix_iff] at hnot hout
    rw [hpath, ← path_place, origin, if_neg hnot, if_neg hout, Option.bind_some]
    exact h hd'

/-- **Hashed entries follow their objects.**  A call that is carried out keeps every hashed entry
leading to its object. -/
theorem Leads.change (h : Leads t d n) (hv : t.verdict c = .passes) (hok : (t.change c).2 = none) :
    Leads (t.change c).1 (d.after c) n := by
  cases c with
  | create l => exact h.add (Namespace.vacant_of_verdictNew hv) (Nat.lt_succ_self _)
  | mkdir l => exact h.add (Namespace.vacant_of_verdictNew hv) trivial
  | symlink l target => exact h.add (Namespace.vacant_of_verdictNew hv) (Nat.lt_succ_self _)
  | link l k =>
    obtain ⟨⟨m, hm, -⟩, hk⟩ := Namespace.of_verdict_link hv
    simp only [Namespace.change, hm]
    exact h.add hk ((t.fresh _ _ hm).mono (Nat.le_succ _))
  | unlink l => exact h.dropped (Namespace.childless_of_ne_dir (Namespace.of_verdict_unlink hv).2)
  | rmdir l =>
    simp only [Namespace.change] at hok ⊢
    split at hok
    · next hc =>
      rw [if_pos hc]
      exact h.dropped hc
    · cases hok
  | rename l k =>
    simp only [Namespace.change] at hok ⊢
    split at hok
    · cases hok
    · next hc =>
      rw [if_neg hc]
      exact h.moved (Namespace.of_verdict_rename hv).2

end Trail

end Posix
