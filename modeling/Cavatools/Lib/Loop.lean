import Mathlib

/-!
# Loops that end, or do not

The body of a loop takes a state and either goes on from another one or leaves
with a result, so it is a function into a sum. No fuel is needed to say what
such a loop returns: `Ends body s r` is the inductive relation that the loop,
started in `s`, leaves with `r` after finitely many turns.

Two lemmas unfold it, for a body that leaves at once (`ends_of_leave`) and for
one that takes a turn (`ends_of_turn`); both are equivalences, so that a proof
can run a loop forward or look back at how it ended. `Ends.last` goes to the
other end of the run, to the state in which the last turn was taken, which is
where facts about the result come from.

A loop that does not end is one for which `Ends` has no result. `not_ends` is
the rule for it: a predicate that is kept by every turn and under which the
body always takes another turn. The proof is by induction on the derivation of
`Ends`, in which such a predicate leaves no base case.
-/

namespace Cavatools.Lib

variable {σ ρ : Type} (body : σ → σ ⊕ ρ)

inductive Ends : σ → ρ → Prop
  | leave {s : σ} {r : ρ} (h : body s = .inr r) : Ends s r
  | turn {s s' : σ} {r : ρ} (h : body s = .inl s') (hrest : Ends s' r) : Ends s r

variable {body} {s s' : σ} {r r' : ρ}

theorem ends_of_leave (h : body s = .inr r) : Ends body s r' ↔ r' = r := by
  constructor
  · intro hends
    cases hends with
    | leave h' => exact Sum.inr.inj (h'.symm.trans h)
    | turn h' => exact absurd (h'.symm.trans h) Sum.inl_ne_inr
  · rintro rfl
    exact .leave h

theorem ends_of_turn (h : body s = .inl s') : Ends body s r ↔ Ends body s' r := by
  constructor
  · intro hends
    cases hends with
    | leave h' => exact absurd (h.symm.trans h') Sum.inl_ne_inr
    | turn h' hrest =>
      obtain rfl := Sum.inl.inj (h'.symm.trans h)
      exact hrest
  · exact .turn h

/-- A loop never ends that goes on wherever `P` holds and keeps it. -/
theorem not_ends {P : σ → Prop} (hP : ∀ s, P s → ∃ s', body s = .inl s' ∧ P s') (hs : P s) :
    ¬Ends body s r := by
  intro hends
  induction hends with
  | leave h =>
    obtain ⟨s', h', -⟩ := hP _ hs
    exact absurd (h'.symm.trans h) Sum.inl_ne_inr
  | turn h _ ih =>
    obtain ⟨s', h', hs'⟩ := hP _ hs
    obtain rfl := Sum.inl.inj (h'.symm.trans h)
    exact ih hs'

/-- The last turn. -/
theorem Ends.last (h : Ends body s r) : ∃ s', body s' = .inr r := by
  induction h with
  | leave h => exact ⟨_, h⟩
  | turn _ _ ih => exact ih

end Cavatools.Lib
