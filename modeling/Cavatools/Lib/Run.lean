import Mathlib

/-!
# Runs of a step function

A system is a partial function from a state and an action to the next state,
where an action names who takes the step and what the environment answers. A
run takes a list of actions in order and has no value when one of them is not
possible (`run`). Runs are put together and taken apart with `run_append` and
`run_cons`.

Whatever is proved about all reachable states goes through the rules of this
file, so that no development repeats the induction.

- `run_invariant`: what every step keeps, a run keeps.
- `Along C`: a condition on the action and the state before it, met by all
  steps of a run. It is decidable when the condition is. `run_invariant_along`
  is the rule for what a step keeps only under the condition.
- `run_states_iff`: if a step keeps a property exactly when it meets the
  condition, then the property holds in every state of a run exactly if all
  steps of the run meet it. This is how a defect of one step becomes the exact
  set of runs that are free of it; `run_states_iff_beside` has the same beside
  an invariant which all steps keep.
- `run_excess`: the quantitative form. A difference that a step keeps under
  the condition and raises by one otherwise never falls, and it is what it was
  at the start exactly along the runs that meet the condition.
-/

namespace Cavatools.Lib

variable {σ α : Type} (step : σ → α → Option σ)

def run : List α → σ → Option σ
  | [], s => some s
  | a :: as, s => (step s a).bind (run as)

variable {step}

theorem run_cons {a : α} {as : List α} {s s' : σ} (h : run step (a :: as) s = some s') :
    ∃ t, step s a = some t ∧ run step as t = some s' :=
  Option.bind_eq_some_iff.mp h

theorem run_append {as bs : List α} {s s' : σ} :
    run step (as ++ bs) s = some s' ↔ ∃ t, run step as s = some t ∧ run step bs t = some s' := by
  induction as generalizing s with
  | nil => simp [run]
  | cons a as ih =>
    rw [List.cons_append, run, run]
    cases step s a with
    | none => simp
    | some t => exact ih

theorem run_singleton {a : α} {s : σ} : run step [a] s = step s a := by
  rw [run]
  cases step s a <;> rfl

/-- What every step keeps, a run keeps. -/
theorem run_invariant {P : σ → Prop} {as : List α}
    (hstep : ∀ s a s', a ∈ as → P s → step s a = some s' → P s') {s s' : σ} (hs : P s)
    (hrun : run step as s = some s') : P s' := by
  induction as generalizing s with
  | nil =>
    obtain rfl := Option.some.inj hrun
    exact hs
  | cons a as ih =>
    obtain ⟨t, ht, hrest⟩ := run_cons hrun
    exact ih (fun s b s' hb => hstep s b s' (List.mem_cons_of_mem _ hb))
      (hstep s a t List.mem_cons_self hs ht) hrest

variable (step) in
/-- A condition on every step of a run: on the action and the state it is taken in. -/
def Along (C : σ → α → Prop) : List α → σ → Prop
  | [], _ => True
  | a :: as, s => C s a ∧ ∀ t ∈ step s a, Along C as t

instance decidableAlong {C : σ → α → Prop} [∀ s a, Decidable (C s a)] :
    (as : List α) → (s : σ) → Decidable (Along step C as s)
  | [], _ => isTrue trivial
  | a :: as, s =>
    match h : step s a with
    | none => decidable_of_iff (C s a) (by simp [Along, h])
    | some t =>
      have := decidableAlong (C := C) as t
      decidable_of_iff (C s a ∧ Along step C as t) (by simp [Along, h])

/-- The rest of a run starts in the one state that its first step leads to. -/
theorem along_cons {C : σ → α → Prop} {a : α} {as : List α} {s t : σ} (ht : step s a = some t) :
    Along step C (a :: as) s ↔ C s a ∧ Along step C as t := by
  refine and_congr_right fun _ => ⟨fun h => h t ht, fun h u hu => ?_⟩
  obtain rfl : t = u := Option.some.inj (ht.symm.trans hu)
  exact h

/-- A condition along a run and on one more step. -/
theorem along_concat {C : σ → α → Prop} {as : List α} {a : α} {s t : σ}
    (hrun : run step as s = some t) : Along step C (as ++ [a]) s ↔ Along step C as s ∧ C t a := by
  induction as generalizing s with
  | nil =>
    obtain rfl := Option.some.inj hrun
    exact ⟨fun h => ⟨trivial, h.1⟩, fun h => ⟨h.2, fun _ _ => trivial⟩⟩
  | cons b as ih =>
    obtain ⟨u, hu, hrest⟩ := run_cons hrun
    rw [List.cons_append, along_cons hu, along_cons hu, ih hrest, and_assoc]

/-- What every step under a condition keeps, a run under it keeps. -/
theorem run_invariant_along {P : σ → Prop} {C : σ → α → Prop}
    (hstep : ∀ s a s', P s → C s a → step s a = some s' → P s') {as : List α} {s s' : σ} (hs : P s)
    (hC : Along step C as s) (hrun : run step as s = some s') : P s' := by
  induction as generalizing s with
  | nil =>
    obtain rfl := Option.some.inj hrun
    exact hs
  | cons a as ih =>
    obtain ⟨t, ht, hrest⟩ := run_cons hrun
    exact ih (hstep s a t hs hC.1 ht) (hC.2 t ht) hrest

/-- What a step keeps exactly under a condition holds in every state of a run exactly if all its
steps meet the condition. -/
theorem run_states_iff {P : σ → Prop} {C : σ → α → Prop}
    (hstep : ∀ s a s', P s → step s a = some s' → (P s' ↔ C s a)) {as : List α} {s s' : σ} (hs : P s)
    (hrun : run step as s = some s') :
    (∀ bs cs t, as = bs ++ cs → run step bs s = some t → P t) ↔ Along step C as s := by
  induction as generalizing s with
  | nil =>
    refine iff_of_true ?_ trivial
    intro bs cs t hsplit ht
    obtain ⟨rfl, -⟩ := List.append_eq_nil_iff.mp hsplit.symm
    obtain rfl := Option.some.inj ht
    exact hs
  | cons a as ih =>
    obtain ⟨u, hu, hrest⟩ := run_cons hrun
    rw [along_cons hu]
    constructor
    · intro h
      have hPu : P u := h [a] as u rfl (by rw [run_singleton]; exact hu)
      refine ⟨(hstep s a u hs hu).mp hPu, (ih hPu hrest).mp fun bs cs t hsplit ht => ?_⟩
      exact h (a :: bs) cs t (congrArg (a :: ·) hsplit) (Option.bind_eq_some_iff.mpr ⟨u, hu, ht⟩)
    · rintro ⟨hC, hal⟩ bs cs t hsplit ht
      have hPu : P u := (hstep s a u hs hu).mpr hC
      cases bs with
      | nil =>
        obtain rfl := Option.some.inj ht
        exact hs
      | cons b bs =>
        obtain ⟨rfl, htail⟩ : a = b ∧ as = bs ++ cs := List.cons.inj hsplit
        obtain ⟨u', hu', ht⟩ := run_cons ht
        obtain rfl := Option.some.inj (hu.symm.trans hu')
        exact (ih hPu hrest).mpr hal bs cs t htail ht

/-- The same of what is only followed beside an invariant of all steps. -/
theorem run_states_iff_beside {I P : σ → Prop} {C : σ → α → Prop}
    (hinv : ∀ s a s', I s → step s a = some s' → I s')
    (hstep : ∀ s a s', I s → P s → step s a = some s' → (P s' ↔ C s a)) {as : List α} {s s' : σ}
    (hI : I s) (hP : P s) (hrun : run step as s = some s') :
    (∀ bs cs t, as = bs ++ cs → run step bs s = some t → P t) ↔ Along step C as s := by
  have hboth (s : σ) (a : α) (s' : σ) (hs : I s ∧ P s) (ht : step s a = some s') :
      (I s' ∧ P s') ↔ C s a := by
    rw [← hstep s a s' hs.1 hs.2 ht]
    exact and_iff_right (hinv s a s' hs.1 ht)
  rw [← run_states_iff hboth ⟨hI, hP⟩ hrun]
  refine forall₃_congr fun bs cs t => forall₂_congr fun _ ht => ?_
  exact (and_iff_right (run_invariant (fun s a s' _ hs hst => hinv s a s' hs hst) hI ht)).symm

/-- A difference that a step keeps under a condition and raises by one otherwise: over a run
it never falls, and it is what it was exactly if every step met the condition. -/
theorem run_excess {D : Int → σ → Prop} {C : σ → α → Prop}
    (hstep : ∀ e s a s', D e s → step s a = some s' → (C s a ∧ D e s') ∨ (¬C s a ∧ D (e + 1) s'))
    {e : Int} {as : List α} {s s' : σ} (hs : D e s) (hrun : run step as s = some s') :
    ∃ e', D e' s' ∧ e ≤ e' ∧ (e' = e ↔ Along step C as s) := by
  induction as generalizing e s with
  | nil =>
    obtain rfl := Option.some.inj hrun
    exact ⟨e, hs, le_rfl, fun _ => trivial, fun _ => rfl⟩
  | cons a as ih =>
    obtain ⟨t, ht, hrest⟩ := run_cons hrun
    rw [along_cons ht]
    rcases hstep e s a t hs ht with ⟨hC, hDt⟩ | ⟨hC, hDt⟩
    · obtain ⟨e', he', hle, hiff⟩ := ih hDt hrest
      exact ⟨e', he', hle, hiff.trans (and_iff_right hC).symm⟩
    · -- one more, and no later step makes up for it
      obtain ⟨e', he', hle, -⟩ := ih hDt hrest
      refine ⟨e', he', by omega, ?_, fun hal => absurd hal.1 hC⟩
      intro heq
      omega

end Cavatools.Lib
