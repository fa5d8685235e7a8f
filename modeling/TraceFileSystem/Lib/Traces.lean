import Mathlib.Tactic

/-!
# Traces up to the first failure

`throughFirst p l` is the part of a list up to and including its first element with the property
`p`, and the whole list if there is none.  It is what a program leaves behind that makes calls one
after the other and stops after the first one that fails: while nothing has failed it has done the
same as a program that does not stop (`throughFirst_append_of_forall`), and afterwards it does
nothing more (`throughFirst_append_of_exists`).
-/

namespace Traces

variable {α : Type*} (p : α → Prop) [DecidablePred p]

/-- The list up to and including its first element with the property. -/
def throughFirst : List α → List α
  | [] => []
  | a :: l => if p a then [a] else a :: throughFirst l

variable {p} {l : List α}

@[simp] theorem throughFirst_nil : throughFirst p [] = [] := rfl

@[simp] theorem throughFirst_singleton (a : α) : throughFirst p [a] = [a] := by
  simp [throughFirst]

theorem throughFirst_cons_of_pos {a : α} (h : p a) (l : List α) :
    throughFirst p (a :: l) = [a] :=
  if_pos h

theorem throughFirst_cons_of_neg {a : α} (h : ¬p a) (l : List α) :
    throughFirst p (a :: l) = a :: throughFirst p l :=
  if_neg h

/-- Behind elements without the property the list goes on. -/
theorem throughFirst_append_of_forall (h : ∀ a ∈ l, ¬p a) (l' : List α) :
    throughFirst p (l ++ l') = l ++ throughFirst p l' := by
  induction l with
  | nil => rfl
  | cons a l ih =>
    obtain ⟨ha, hl⟩ := List.forall_mem_cons.mp h
    rw [List.cons_append, throughFirst_cons_of_neg ha, ih hl, List.cons_append]

/-- Behind an element with the property nothing counts. -/
theorem throughFirst_append_of_exists (h : ∃ a ∈ l, p a) (l' : List α) :
    throughFirst p (l ++ l') = throughFirst p l := by
  induction l with
  | nil => simp at h
  | cons a l ih =>
    by_cases ha : p a
    · rw [List.cons_append, throughFirst_cons_of_pos ha, throughFirst_cons_of_pos ha]
    · have hl : ∃ a ∈ l, p a := ((List.exists_mem_cons_iff p a l).mp h).resolve_left ha
      rw [List.cons_append, throughFirst_cons_of_neg ha, throughFirst_cons_of_neg ha, ih hl]

/-- A list without the property is kept. -/
theorem throughFirst_of_forall (h : ∀ a ∈ l, ¬p a) : throughFirst p l = l := by
  have happend := throughFirst_append_of_forall h []
  rwa [throughFirst_nil, List.append_nil] at happend

/-- The last element that is kept is the first one with the property. -/
theorem getLast?_throughFirst (h : ∃ a ∈ l, p a) :
    (throughFirst p l).getLast? = l.find? fun a => p a := by
  induction l with
  | nil => simp at h
  | cons a l ih =>
    by_cases ha : p a
    · rw [throughFirst_cons_of_pos ha, List.find?_cons_of_pos (by simpa using ha)]
      rfl
    · have hl : ∃ a ∈ l, p a := ((List.exists_mem_cons_iff p a l).mp h).resolve_left ha
      rw [throughFirst_cons_of_neg ha, List.find?_cons_of_neg (by simpa using ha), ← ih hl,
        List.getLast?_cons]
      obtain ⟨b, hb⟩ : ∃ b, (throughFirst p l).getLast? = some b := by
        rw [ih hl]
        obtain ⟨b, hb, hpb⟩ := hl
        exact Option.isSome_iff_exists.mp (List.find?_isSome.mpr ⟨b, hb, by simpa using hpb⟩)
      rw [hb]
      rfl

/-- What is kept stands in the list. -/
theorem throughFirst_subset (l : List α) : throughFirst p l ⊆ l := by
  induction l with
  | nil => exact List.Subset.refl []
  | cons a l ih =>
    by_cases ha : p a
    · rw [throughFirst_cons_of_pos ha]
      exact List.cons_subset_cons a (List.nil_subset l)
    · rw [throughFirst_cons_of_neg ha]
      exact List.cons_subset_cons a ih

/-- If an element has the property, then one that is kept has it. -/
theorem exists_mem_throughFirst (h : ∃ a ∈ l, p a) : ∃ a ∈ throughFirst p l, p a := by
  obtain ⟨a, ha, hpa⟩ := h
  obtain ⟨b, hb⟩ := Option.isSome_iff_exists.mp
    (List.find?_isSome (p := fun a => decide (p a)).mpr ⟨a, ha, by simpa using hpa⟩)
  rw [← getLast?_throughFirst ⟨a, ha, hpa⟩] at hb
  have hfound := getLast?_throughFirst ⟨a, ha, hpa⟩
  rw [hb] at hfound
  exact ⟨b, List.mem_of_getLast? hb, by simpa using List.find?_some hfound.symm⟩

end Traces
