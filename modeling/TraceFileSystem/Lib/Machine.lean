import Mathlib.Tactic
import Mathlib.Logic.Function.Iterate

/-!
# Deterministic machines and labelled systems

Two rules for programs given by a step function.

* A *machine* steps by itself: `iterate_invariant` carries a property along every run,
  `exists_iterate_of_measure` is termination by a decreasing measure, for states that satisfy an
  invariant, and `exists_iterate_of_advance` finds the state in which a count has a given value.
* A *labelled system* takes one label per step and may refuse it: `run` feeds a list of labels, and
  `run_invariant` carries a property along every run whose labels are allowed in the state they
  meet.  `run_observed` does the same for a state together with what an observer has noted who sees
  nothing but the labels.  When some steps decrease a measure and the others do not increase it,
  `countP_le_of_measure` bounds their number.  `exists_log_of_run` cuts a run at the entries that it
  has logged.
-/

namespace Machine

variable {σ : Type*} {step : σ → σ}

/-- A property that one step preserves holds along the whole run. -/
theorem iterate_invariant {Inv : σ → Prop} (hstep : ∀ s, Inv s → Inv (step s)) {s : σ}
    (hs : Inv s) (n : ℕ) : Inv (step^[n] s) := by
  induction n with
  | zero => exact hs
  | succ n ih =>
    rw [Function.iterate_succ_apply']
    exact hstep _ ih

/-- A run whose measure decreases until a goal is met reaches the goal. -/
theorem exists_iterate_of_measure {Inv : σ → Prop} (Goal : σ → Prop) (μ : σ → ℕ)
    (hstep : ∀ s, Inv s → ¬Goal s → Inv (step s) ∧ μ (step s) < μ s) {s : σ} (hs : Inv s) :
    ∃ n, Inv (step^[n] s) ∧ Goal (step^[n] s) := by
  induction hμ : μ s using Nat.strong_induction_on generalizing s with
  | _ m ih =>
    by_cases hg : Goal s
    · exact ⟨0, hs, hg⟩
    · obtain ⟨hinv, hlt⟩ := hstep s hs hg
      obtain ⟨n, hn⟩ := ih _ (hμ ▸ hlt) hinv rfl
      exact ⟨n + 1, by rwa [Function.iterate_succ_apply]⟩

/-- A count that a step raises by one at most takes every value on the way. -/
theorem exists_iterate_of_advance (f : σ → ℕ) (hstep : ∀ s, f (step s) ≤ f s + 1) {s : σ}
    {k n : ℕ} (hk : f s ≤ k) (hn : k ≤ f (step^[n] s)) : ∃ i, f (step^[i] s) = k := by
  induction n with
  | zero => exact ⟨0, le_antisymm hk hn⟩
  | succ n ih =>
    rcases Nat.lt_or_ge (f (step^[n] s)) k with hlt | hge
    · refine ⟨n + 1, le_antisymm ?_ hn⟩
      rw [Function.iterate_succ_apply']
      exact (hstep _).trans hlt
    · exact ih hge

end Machine

namespace LabelledSystem

variable {σ ℓ : Type*} (step : σ → ℓ → Option σ)

/-- The state after feeding a list of labels, if every label is accepted. -/
def run : σ → List ℓ → Option σ
  | s, [] => some s
  | s, l :: ls => (step s l).bind fun s' => run s' ls

/-- The labels of a list are allowed, each in the state in which it arrives. -/
def RunAllowed (Allowed : σ → ℓ → Prop) : σ → List ℓ → Prop
  | _, [] => True
  | s, l :: ls => Allowed s l ∧ ∀ s', step s l = some s' → RunAllowed Allowed s' ls

/-- Whether a list of labels is allowed can be decided by running it. -/
instance decidableRunAllowed (Allowed : σ → ℓ → Prop) [∀ s l, Decidable (Allowed s l)] :
    (s : σ) → (ls : List ℓ) → Decidable (RunAllowed step Allowed s ls)
  | _, [] => .isTrue trivial
  | s, l :: ls =>
    match h : step s l with
    | none => decidable_of_iff (Allowed s l)
        ⟨fun hl => ⟨hl, fun s' hs' => by simp [h] at hs'⟩, fun hl => hl.1⟩
    | some s' =>
      have := decidableRunAllowed Allowed s' ls
      decidable_of_iff (Allowed s l ∧ RunAllowed step Allowed s' ls)
        ⟨fun hl => ⟨hl.1, fun t ht => by rw [h, Option.some_inj] at ht; exact ht ▸ hl.2⟩,
          fun hl => ⟨hl.1, hl.2 s' h⟩⟩

variable {step}

/-- When every label of a list is allowed in any state, the list is allowed. -/
theorem runAllowed_of_forall {Allowed : σ → ℓ → Prop} {ls : List ℓ}
    (h : ∀ l ∈ ls, ∀ s, Allowed s l) (s : σ) : RunAllowed step Allowed s ls := by
  induction ls generalizing s with
  | nil => trivial
  | cons l ls ih =>
    exact ⟨h l (by simp) s, fun s' _ => ih (fun l' hl' => h l' (by simp [hl'])) s'⟩

/-- A list of labels is allowed when each label is allowed in the state to which the labels before
it lead. -/
theorem runAllowed_of_take {Allowed : σ → ℓ → Prop} {ls : List ℓ} {s : σ}
    (h : ∀ (n : ℕ) (l : ℓ), ls[n]? = some l → ∀ s', run step s (ls.take n) = some s' →
      Allowed s' l) : RunAllowed step Allowed s ls := by
  induction ls generalizing s with
  | nil => trivial
  | cons l ls ih =>
    refine ⟨h 0 l rfl s rfl, fun s' hs' => ih fun n l' hl' s'' hrun => ?_⟩
    refine h (n + 1) l' hl' s'' ?_
    rw [List.take_succ_cons, run, hs', Option.bind_some, hrun]

/-- Labels of a kind that keeps an invariant are allowed if they are allowed under the invariant. -/
theorem runAllowed_of_invariant {Allowed : σ → ℓ → Prop} {Inv : σ → Prop} {P : ℓ → Prop}
    (hstep : ∀ s l s', Inv s → P l → step s l = some s' → Inv s')
    (hallowed : ∀ s l, Inv s → P l → Allowed s l) {ls : List ℓ} {s : σ} (hs : Inv s)
    (hls : ∀ l ∈ ls, P l) : RunAllowed step Allowed s ls := by
  induction ls generalizing s with
  | nil => trivial
  | cons l ls ih =>
    obtain ⟨hl, hls⟩ := List.forall_mem_cons.mp hls
    exact ⟨hallowed s l hs hl, fun s' hs' => ih (hstep s l s' hs hl hs') hls⟩

/-- Labels that are allowed in a stronger sense. -/
theorem RunAllowed.mono {Allowed Allowed' : σ → ℓ → Prop} {ls : List ℓ} {s : σ}
    (h : RunAllowed step Allowed s ls) (himp : ∀ s l, Allowed s l → Allowed' s l) :
    RunAllowed step Allowed' s ls := by
  induction ls generalizing s with
  | nil => trivial
  | cons l ls ih => exact ⟨himp s l h.1, fun s' hs' => ih (h.2 s' hs')⟩

/-- Two ways to allow labels that agree in all states of an invariant. -/
theorem runAllowed_congr {Allowed Allowed' : σ → ℓ → Prop} {Inv : σ → Prop}
    (hiff : ∀ s l, Inv s → (Allowed s l ↔ Allowed' s l))
    (hstep : ∀ s l s', Inv s → Allowed s l → step s l = some s' → Inv s') {ls : List ℓ} {s : σ}
    (hs : Inv s) : RunAllowed step Allowed s ls ↔ RunAllowed step Allowed' s ls := by
  induction ls generalizing s with
  | nil => exact Iff.rfl
  | cons l ls ih =>
    refine (and_congr_right fun hl => ?_).trans (and_congr_left' (hiff s l hs))
    exact forall₂_congr fun s' hs' => ih (hstep s l s' hs hl hs')

/-- Two ways to allow labels that agree on the labels of a run. -/
theorem RunAllowed.congr {Given Allowed Allowed' : σ → ℓ → Prop} {ls : List ℓ} {s : σ}
    (h : RunAllowed step Given s ls) (hiff : ∀ s l, Given s l → (Allowed s l ↔ Allowed' s l)) :
    RunAllowed step Allowed s ls ↔ RunAllowed step Allowed' s ls := by
  induction ls generalizing s with
  | nil => exact Iff.rfl
  | cons l ls ih =>
    refine and_congr (hiff s l h.1) ?_
    exact forall₂_congr fun s' hs' => ih (h.2 s' hs')

/-- A list of labels that is allowed is allowed up to a label, and from there on. -/
theorem RunAllowed.of_append {Allowed : σ → ℓ → Prop} {ls ls' : List ℓ} {s s' : σ}
    (h : RunAllowed step Allowed s (ls ++ ls')) (hrun : run step s ls = some s') :
    RunAllowed step Allowed s ls ∧ RunAllowed step Allowed s' ls' := by
  induction ls generalizing s with
  | nil =>
    cases hrun
    exact ⟨trivial, h⟩
  | cons l ls ih =>
    obtain ⟨t, ht, hrun⟩ := Option.bind_eq_some_iff.mp hrun
    obtain ⟨hls, hls'⟩ := ih (h.2 t ht) hrun
    refine ⟨⟨h.1, fun t' ht' => ?_⟩, hls'⟩
    rw [ht, Option.some_inj] at ht'
    exact ht' ▸ hls

/-- Labels that are allowed in two ways. -/
theorem RunAllowed.and {Allowed Allowed' : σ → ℓ → Prop} {ls : List ℓ} {s : σ}
    (h : RunAllowed step Allowed s ls) (h' : RunAllowed step Allowed' s ls) :
    RunAllowed step (fun s l => Allowed s l ∧ Allowed' s l) s ls := by
  induction ls generalizing s with
  | nil => trivial
  | cons l ls ih => exact ⟨⟨h.1, h'.1⟩, fun s' hs' => ih (h.2 s' hs') (h'.2 s' hs')⟩

/-- A property that every allowed step preserves holds at the end of every allowed run. -/
theorem run_invariant {Allowed : σ → ℓ → Prop} {Inv : σ → Prop}
    (hstep : ∀ s l s', Inv s → Allowed s l → step s l = some s' → Inv s') {ls : List ℓ} {s s' : σ}
    (hs : Inv s) (hls : RunAllowed step Allowed s ls) (hrun : run step s ls = some s') :
    Inv s' := by
  induction ls generalizing s with
  | nil =>
    cases hrun
    exact hs
  | cons l ls ih =>
    obtain ⟨hl, hrest⟩ := hls
    obtain ⟨t, ht, hrun⟩ := Option.bind_eq_some_iff.mp hrun
    exact ih (hstep s l t hs hl ht) (hrest t ht) hrun

/-- **Runs that are observed.**  A property of the state and of what an observer has noted, who sees
nothing but the labels, holds at the end of every allowed run if every allowed step preserves it. -/
theorem run_observed {ω : Type*} {see : ω → ℓ → ω} {Allowed : σ → ℓ → Prop} {Inv : σ → ω → Prop}
    (hstep : ∀ s o l s', Inv s o → Allowed s l → step s l = some s' → Inv s' (see o l))
    {ls : List ℓ} {s s' : σ} {o : ω} (hs : Inv s o) (hls : RunAllowed step Allowed s ls)
    (hrun : run step s ls = some s') : Inv s' (ls.foldl see o) := by
  induction ls generalizing s o with
  | nil =>
    cases hrun
    exact hs
  | cons l ls ih =>
    obtain ⟨hl, hrest⟩ := hls
    obtain ⟨t, ht, hrun⟩ := Option.bind_eq_some_iff.mp hrun
    exact ih (hstep s o l t hs hl ht) (hrest t ht) hrun

/-- **Runs that log.**  When an allowed step logs one entry at most, the entries of an allowed run
can be cut where the run can be cut: every first part of the entries is what some first part of the
run has logged, and every first part of the run has logged a first part of the entries. -/
theorem exists_log_of_run {ρ : Type*} {Allowed : σ → ℓ → Prop} {Logged : List ρ → σ → Prop}
    (hstep : ∀ es s l s', Logged es s → Allowed s l → step s l = some s' →
      Logged es s' ∨ ∃ e, Logged (es ++ [e]) s') {ls : List ℓ} {es : List ρ} {s s' : σ}
    (hs : Logged es s) (hls : RunAllowed step Allowed s ls) (hrun : run step s ls = some s') :
    ∃ es', Logged (es ++ es') s' ∧
      (∀ k ≤ es'.length, ∃ j t, run step s (ls.take j) = some t ∧ Logged (es ++ es'.take k) t) ∧
      ∀ j t, run step s (ls.take j) = some t → ∃ k ≤ es'.length, Logged (es ++ es'.take k) t := by
  induction ls generalizing s es with
  | nil =>
    cases hrun
    refine ⟨[], by rwa [List.append_nil], fun k _ => ⟨0, _, rfl, by simpa using hs⟩, ?_⟩
    intro j t ht
    rw [List.take_nil, run, Option.some_inj] at ht
    exact ⟨0, le_rfl, by simpa [← ht] using hs⟩
  | cons l ls ih =>
    obtain ⟨hl, hrest⟩ := hls
    obtain ⟨u, hu, hrun⟩ := Option.bind_eq_some_iff.mp hrun
    have hcons (j : ℕ) : run step s ((l :: ls).take (j + 1)) = run step u (ls.take j) := by
      rw [List.take_succ_cons, run, hu, Option.bind_some]
    rcases hstep es s l u hs hl hu with hsame | ⟨e, he⟩
    · obtain ⟨es', hend, hcut, hlogged⟩ := ih hsame (hrest u hu) hrun
      refine ⟨es', hend, fun k hk => ?_, fun j t ht => ?_⟩
      · obtain ⟨j, t, ht, hk⟩ := hcut k hk
        exact ⟨j + 1, t, by rw [hcons, ht], hk⟩
      · cases j with
        | zero =>
          rw [List.take_zero, run, Option.some_inj] at ht
          exact ⟨0, Nat.zero_le _, by simpa [← ht] using hs⟩
        | succ j => exact hlogged j t ((hcons j).symm.trans ht)
    · obtain ⟨es', hend, hcut, hlogged⟩ := ih he (hrest u hu) hrun
      have happend (k : ℕ) : es ++ [e] ++ es'.take k = es ++ (e :: es').take (k + 1) := by simp
      refine ⟨e :: es', by simpa using hend, fun k hk => ?_, fun j t ht => ?_⟩
      · cases k with
        | zero => exact ⟨0, s, rfl, by simpa using hs⟩
        | succ k =>
          obtain ⟨j, t, ht, hk⟩ := hcut k (Nat.le_of_succ_le_succ hk)
          exact ⟨j + 1, t, by rw [hcons, ht], by rwa [← happend]⟩
      · cases j with
        | zero =>
          rw [List.take_zero, run, Option.some_inj] at ht
          exact ⟨0, Nat.zero_le _, by simpa [← ht] using hs⟩
        | succ j =>
          obtain ⟨k, hk, hlog⟩ := hlogged j t ((hcons j).symm.trans ht)
          exact ⟨k + 1, Nat.succ_le_succ hk, by rwa [← happend]⟩

/-- A run has no more steps of a kind than a measure says that no step increases and that these
decrease. -/
theorem countP_le_of_measure {Allowed : σ → ℓ → Prop} {Inv : σ → Prop} (μ : σ → ℕ) (p : ℓ → Bool)
    (hstep : ∀ s l s', Inv s → Allowed s l → step s l = some s' →
      Inv s' ∧ μ s' ≤ μ s ∧ (p l = true → μ s' < μ s))
    {ls : List ℓ} {s s' : σ} (hs : Inv s) (hls : RunAllowed step Allowed s ls)
    (hrun : run step s ls = some s') : ls.countP p + μ s' ≤ μ s := by
  induction ls generalizing s with
  | nil =>
    cases hrun
    exact (Nat.zero_add _).le
  | cons l ls ih =>
    obtain ⟨hl, hrest⟩ := hls
    obtain ⟨t, ht, hrun⟩ := Option.bind_eq_some_iff.mp hrun
    obtain ⟨hinv, hle, hlt⟩ := hstep s l t hs hl ht
    have hcount := ih hinv (hrest t ht) hrun
    rw [List.countP_cons]
    split
    · next hp =>
      have hlt := hlt hp
      omega
    · omega

end LabelledSystem
