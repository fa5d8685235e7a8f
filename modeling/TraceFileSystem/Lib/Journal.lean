import Mathlib.Tactic

/-!
# Journals

Operations take effect one after the other, and some of them write a record later.  Between its
effect and its record, or the decision not to write one, an operation is *pending*.  Some pairs of
operations conflict.

* `Before l a b` says that `a` stands before `b` in a list.
* `Ordered` is the invariant of a journal: of two operations that conflict, the one that took effect
  first is no longer pending, and if both have records, its record comes first.
* `Ordered.effect`, `Ordered.skip`, `Ordered.record` and `Ordered.mono` are the rules for what can
  happen. The first one carries the condition: nothing takes effect while a conflicting operation is
  pending.
* `Ordered.before_iff` is the result, the order of effects is the order of records.
-/

namespace Journal

variable {ι : Type*}

/-! ### Positions in a list -/

/-- One element of a list stands before another. -/
def Before (l : List ι) (a b : ι) : Prop :=
  [a, b].Sublist l

namespace Before

variable {l l' : List ι} {a b c : ι}

theorem mem_left (h : Before l a b) : a ∈ l :=
  h.subset (by simp)

/-- A larger list keeps the order. -/
theorem mono (h : Before l a b) (hl : l.Sublist l') : Before l' a b :=
  h.trans hl

/-- What was in a list stands before what is added to it. -/
theorem of_mem (ha : a ∈ l) (b : ι) : Before (l ++ [b]) a b :=
  (List.singleton_sublist.mpr ha).append (List.Sublist.refl [b])

/-- In a list to which an element was added, the order is the old one, or the second element is the
new one. -/
theorem append_singleton_cases (h : Before (l ++ [c]) a b) : Before l a b ∨ a ∈ l ∧ b = c := by
  obtain ⟨l₁, l₂, heq, h₁, h₂⟩ := List.sublist_append_iff.mp h
  rcases List.sublist_singleton.mp h₂ with rfl | rfl
  · rw [List.append_nil] at heq
    rw [← heq] at h₁
    exact .inl h₁
  · obtain ⟨rfl, rfl⟩ : l₁ = [a] ∧ b = c := by
      have hlast := congrArg List.getLast? heq
      have hinit := congrArg List.dropLast heq
      simp at hlast hinit
      exact ⟨hinit.symm, hlast⟩
    exact .inr ⟨List.singleton_sublist.mp h₁, rfl⟩

/-- In a list without repetitions an element does not stand before itself. -/
theorem ne (h : Before l a b) (hl : l.Nodup) : a ≠ b := by
  have hpair := hl.sublist h
  simpa using hpair

/-- In a list without repetitions only one of two elements stands before the other. -/
theorem asymm (h : Before l a b) (hl : l.Nodup) : ¬Before l b a := by
  induction l with
  | nil => exact absurd h.mem_left List.not_mem_nil
  | cons x l ih =>
    obtain ⟨hx, hnodup⟩ := List.nodup_cons.mp hl
    intro h'
    cases h with
    | cons _ h =>
      cases h' with
      | cons _ h' => exact ih h hnodup h'
      | cons_cons _ h' => exact hx (h.subset (by simp))
    | cons_cons _ h =>
      cases h' with
      | cons _ h' => exact hx (h'.subset (by simp))
      | cons_cons _ h' => exact hx (List.singleton_sublist.mp h)

/-- Of two elements of a list one stands before the other. -/
theorem total (ha : a ∈ l) (hb : b ∈ l) (hne : a ≠ b) : Before l a b ∨ Before l b a := by
  induction l with
  | nil => exact absurd ha List.not_mem_nil
  | cons x l ih =>
    rcases List.mem_cons.mp ha with rfl | ha'
    · have hb' := (List.mem_cons.mp hb).resolve_left hne.symm
      exact .inl ((List.singleton_sublist.mpr hb').cons_cons a)
    · rcases List.mem_cons.mp hb with rfl | hb'
      · exact .inr ((List.singleton_sublist.mpr ha').cons_cons b)
      · exact (ih ha' hb').imp (fun h => h.cons x) (fun h => h.cons x)

/-- In a list with increasing positions the order is that of the positions. -/
theorem map_iff {l : List (ℕ × ι)} (hpos : (l.map Prod.fst).Pairwise (· < ·))
    (hl : (l.map Prod.snd).Nodup) {p q : ℕ} (ha : (p, a) ∈ l) (hb : (q, b) ∈ l) :
    Before (l.map Prod.snd) a b ↔ p < q := by
  have hinj := List.inj_on_of_nodup_map hl
  -- a pair of elements in order has its positions in order
  have hlt {c d : ι} (h : Before (l.map Prod.snd) c d) :
      ∃ x y, (x, c) ∈ l ∧ (y, d) ∈ l ∧ x < y := by
    obtain ⟨l', hsub, heq⟩ := List.sublist_map_iff.mp h
    match l', heq with
    | [(x, _), (y, _)], rfl =>
      have hpair := hpos.sublist (hsub.map Prod.fst)
      exact ⟨x, y, hsub.subset (by simp), hsub.subset (by simp), by simpa using hpair⟩
  have heq {c : ι} {x y : ℕ} (hx : (x, c) ∈ l) (hy : (y, c) ∈ l) : x = y :=
    congrArg Prod.fst (hinj hx hy rfl)
  constructor
  · intro h
    obtain ⟨x, y, hx, hy, hxy⟩ := hlt h
    rwa [heq hx ha, heq hy hb] at hxy
  · intro hpq
    have hne : a ≠ b := by
      rintro rfl
      exact absurd (heq ha hb) hpq.ne
    refine (total (List.mem_map_of_mem ha) (List.mem_map_of_mem hb) hne).resolve_right fun h => ?_
    obtain ⟨x, y, hx, hy, hxy⟩ := hlt h
    rw [heq hx hb, heq hy ha] at hxy
    exact absurd hxy hpq.not_gt

end Before

/-! ### Effects and records -/

/-- The records of conflicting operations follow their effects. -/
structure Ordered (Conflict : ι → ι → Prop) (effects records : List ι) (Pending : ι → Prop) :
    Prop where
  nodup_effects : effects.Nodup
  nodup_records : records.Nodup
  settled : ∀ a b, Conflict a b → Before effects a b → ¬Pending a
  order : ∀ a b, Conflict a b → Before effects a b → a ∈ records → b ∈ records →
    Before records a b

namespace Ordered

variable {Conflict : ι → ι → Prop} {effects records records' : List ι} {Pending Pending' : ι → Prop}
  {a b : ι}

/-- Before anything has happened. -/
theorem nil (Conflict : ι → ι → Prop) (Pending : ι → Prop) : Ordered Conflict [] [] Pending where
  nodup_effects := List.nodup_nil
  nodup_records := List.nodup_nil
  settled _ _ _ h := absurd h.mem_left List.not_mem_nil
  order _ _ _ h := absurd h.mem_left List.not_mem_nil

/-- An operation takes effect while no conflicting operation is pending. -/
theorem effect (h : Ordered Conflict effects records Pending) (hnew : b ∉ effects)
    (hrecord : b ∉ records) (hfree : ∀ a ∈ effects, Conflict a b → ¬Pending a)
    (hpending : ∀ a, Pending' a → Pending a ∨ a = b) :
    Ordered Conflict (effects ++ [b]) records Pending' where
  nodup_effects := by
    rw [← List.concat_eq_append]
    exact h.nodup_effects.concat hnew
  nodup_records := h.nodup_records
  settled a c hconflict hbefore hp := by
    have ha : a ∈ effects := by
      rcases hbefore.append_singleton_cases with hbefore | ⟨ha, -⟩
      · exact hbefore.mem_left
      · exact ha
    have hp : Pending a := (hpending a hp).resolve_right fun hab => hnew (hab ▸ ha)
    rcases hbefore.append_singleton_cases with hbefore | ⟨ha, rfl⟩
    · exact h.settled a c hconflict hbefore hp
    · exact hfree a ha hconflict hp
  order a c hconflict hbefore ha hc := by
    rcases hbefore.append_singleton_cases with hbefore | ⟨-, rfl⟩
    · exact h.order a c hconflict hbefore ha hc
    · exact absurd hc hrecord

/-- An operation without an effect becomes pending. -/
theorem skip (h : Ordered Conflict effects records Pending) (hnew : b ∉ effects)
    (hpending : ∀ a, Pending' a → Pending a ∨ a = b) :
    Ordered Conflict effects records Pending' where
  nodup_effects := h.nodup_effects
  nodup_records := h.nodup_records
  settled a c hconflict hbefore hp := by
    rcases hpending a hp with hp | rfl
    · exact h.settled a c hconflict hbefore hp
    · exact hnew hbefore.mem_left
  order := h.order

/-- A pending operation writes its record. -/
theorem record (h : Ordered Conflict effects records Pending) (hb : Pending b)
    (hnew : b ∉ records) :
    Ordered Conflict effects (records ++ [b]) Pending where
  nodup_effects := h.nodup_effects
  nodup_records := by
    rw [← List.concat_eq_append]
    exact h.nodup_records.concat hnew
  settled := h.settled
  order a c hconflict hbefore ha hc := by
    rw [List.mem_append, List.mem_singleton] at ha hc
    have ha' : a ∈ records := ha.resolve_right fun hab =>
      h.settled a c hconflict hbefore (hab ▸ hb)
    rcases hc with hc | rfl
    · exact (h.order a c hconflict hbefore ha' hc).mono (List.sublist_append_left _ _)
    · exact Before.of_mem ha' c

/-- Operations stop being pending, and records get lost. -/
theorem mono (h : Ordered Conflict effects records Pending) (hrecords : records'.Sublist records)
    (hpending : ∀ a, Pending' a → Pending a) : Ordered Conflict effects records' Pending' where
  nodup_effects := h.nodup_effects
  nodup_records := h.nodup_records.sublist hrecords
  settled a b hconflict hbefore hp := h.settled a b hconflict hbefore (hpending a hp)
  order a b hconflict hbefore ha hb := by
    have hrec := h.order a b hconflict hbefore (hrecords.subset ha) (hrecords.subset hb)
    have hne := hbefore.ne h.nodup_effects
    refine (Before.total ha hb hne).resolve_right fun hrev => ?_
    exact hrec.asymm h.nodup_records (hrev.mono hrecords)

/-- **The order of effects is the order of records.** -/
theorem before_iff (h : Ordered Conflict effects records Pending)
    (hsymm : ∀ a b, Conflict a b → Conflict b a) (hconflict : Conflict a b) (ha : a ∈ effects)
    (hb : b ∈ effects) (ha' : a ∈ records) (hb' : b ∈ records) :
    Before effects a b ↔ Before records a b := by
  refine ⟨fun hbefore => h.order a b hconflict hbefore ha' hb', fun hbefore => ?_⟩
  have hne := hbefore.ne h.nodup_records
  refine (Before.total ha hb hne).resolve_right fun hrev => ?_
  exact hbefore.asymm h.nodup_records (h.order b a (hsymm a b hconflict) hrev hb' ha')

end Ordered

end Journal
