import Mathlib

/-!
# Work that threads have taken on

Threads make objects and put them into a shared structure in several steps,
and another thread may act between any two of them. Whatever the structure is,
one thing has to be known of the steps: that no object is lost and none is put
in twice.

Each thread is somewhere in its code, and where it is says which object it
still has to deal with, if any. `Owed` relates the objects taken on so far,
those dealt with, and the threads in between: an object is in one thread's
hands or done, never both and never lost, and no object comes twice. `role`
gives what a thread has in hand at its place in the code, so the relation does
not depend on what the code is.

A step of one thread does one of three things: it begins with a new object
(`begin`), it goes on with what it has in hand (`keep`), or it is done with it
(`finish`). With one of these three lemmas for each step of a program the
relation holds in every reachable state, and when nobody has anything in hand,
the objects done are all there are (`toFinset_done`).

`sum_update` is for programs that count instead: what one thread's place
contributes to a sum over all threads.
-/

namespace Cavatools.Lib

open Function (update)

variable {T L O : Type} {threads : T → L} {t : T} {l : L}

/-- `role` is what a thread has in hand at its place in the code. -/
structure Owed (threads : T → L) (role : L → Option O) (objects : Finset O) (done : List O) : Prop where
  nodup : done.Nodup
  done_mem : ∀ o ∈ done, o ∈ objects
  mem : ∀ t o, role (threads t) = some o → o ∈ objects
  not_done : ∀ t o, role (threads t) = some o → o ∉ done
  unique : ∀ t u o, role (threads t) = some o → role (threads u) = some o → t = u
  cover : ∀ o ∈ objects, o ∈ done ∨ ∃ t, role (threads t) = some o

namespace Owed

variable {role : L → Option O} {objects : Finset O} {done : List O} {o : O}

theorem start (hidle : ∀ t, role (threads t) = none) : Owed threads role ∅ [] where
  nodup := List.nodup_nil
  done_mem _ h := absurd h List.not_mem_nil
  mem t o h := by rw [hidle t] at h; cases h
  not_done _ _ _ := List.not_mem_nil
  unique t u o h := by rw [hidle t] at h; cases h
  cover o h := absurd h (Finset.notMem_empty o)

/-- When nobody has an object in hand, the done ones are all. -/
theorem toFinset_done [DecidableEq O] (h : Owed threads role objects done)
    (hidle : ∀ t, role (threads t) = none) : done.toFinset = objects := by
  ext p
  rw [List.mem_toFinset]
  refine ⟨h.done_mem p, ?_⟩
  intro hp
  rcases h.cover p hp with hd | hex
  · exact hd
  · obtain ⟨t, ht⟩ := hex
    rw [hidle t] at ht
    cases ht

variable [DecidableEq T]

/-- The thread goes on with what it has in hand. -/
theorem keep (h : Owed threads role objects done) (hl : role l = role (threads t)) :
    Owed (update threads t l) role objects done := by
  have hrole (u : T) : role (update threads t l u) = role (threads u) := by
    by_cases hu : u = t
    · rw [hu, Function.update_self, hl]
    · rw [Function.update_of_ne hu]
  constructor
  · exact h.nodup
  · exact h.done_mem
  · intro u o hu
    exact h.mem u o (hrole u ▸ hu)
  · intro u o hu
    exact h.not_done u o (hrole u ▸ hu)
  · intro u v o hu hv
    exact h.unique u v o (hrole u ▸ hu) (hrole v ▸ hv)
  · intro o ho
    rcases h.cover o ho with hd | hex
    · exact Or.inl hd
    · obtain ⟨u, hu⟩ := hex
      exact Or.inr ⟨u, (hrole u).trans hu⟩

/-- A new object is taken on by a thread that had none. -/
theorem begin [DecidableEq O] (h : Owed threads role objects done) (hnone : role (threads t) = none)
    (hl : role l = some o) (ho : o ∉ objects) : Owed (update threads t l) role (insert o objects) done := by
  have hcase (u : T) (p : O) (hu : role (update threads t l u) = some p) :
      (u = t ∧ p = o) ∨ (u ≠ t ∧ role (threads u) = some p) := by
    by_cases hut : u = t
    · rw [hut, Function.update_self, hl] at hu
      exact Or.inl ⟨hut, (Option.some.inj hu).symm⟩
    · rw [Function.update_of_ne hut] at hu
      exact Or.inr ⟨hut, hu⟩
  constructor
  · exact h.nodup
  · intro p hp
    exact Finset.mem_insert_of_mem (h.done_mem p hp)
  · intro u p hu
    rcases hcase u p hu with ⟨-, rfl⟩ | ⟨-, hu⟩
    · exact Finset.mem_insert_self p objects
    · exact Finset.mem_insert_of_mem (h.mem u p hu)
  · intro u p hu hp
    rcases hcase u p hu with ⟨-, rfl⟩ | ⟨-, hu⟩
    · exact ho (h.done_mem p hp)
    · exact h.not_done u p hu hp
  · intro u v p hu hv
    rcases hcase u p hu with ⟨hut, hpo⟩ | ⟨-, hu⟩
    · rcases hcase v p hv with ⟨hvt, -⟩ | ⟨-, hv⟩
      · rw [hut, hvt]
      · -- the other has an older object, and this one is new
        exact absurd (h.mem v p hv) (hpo ▸ ho)
    · rcases hcase v p hv with ⟨-, hpo⟩ | ⟨-, hv⟩
      · exact absurd (h.mem u p hu) (hpo ▸ ho)
      · exact h.unique u v p hu hv
  · intro p hp
    rcases Finset.mem_insert.mp hp with rfl | hp
    · exact Or.inr ⟨t, by rw [Function.update_self, hl]⟩
    rcases h.cover p hp with hd | hex
    · exact Or.inl hd
    · obtain ⟨u, hu⟩ := hex
      have hut : u ≠ t := fun heq => by
        rw [heq, hnone] at hu
        cases hu
      exact Or.inr ⟨u, by rw [Function.update_of_ne hut, hu]⟩

/-- The object in hand is done. -/
theorem finish (h : Owed threads role objects done) (hhand : role (threads t) = some o)
    (hl : role l = none) : Owed (update threads t l) role objects (o :: done) := by
  have hother (u : T) (p : O) (hu : role (update threads t l u) = some p) :
      u ≠ t ∧ role (threads u) = some p := by
    by_cases hut : u = t
    · rw [hut, Function.update_self, hl] at hu
      cases hu
    · rw [Function.update_of_ne hut] at hu
      exact ⟨hut, hu⟩
  constructor
  · exact List.nodup_cons.mpr ⟨h.not_done t o hhand, h.nodup⟩
  · intro p hp
    rcases List.mem_cons.mp hp with rfl | hp
    · exact h.mem t p hhand
    · exact h.done_mem p hp
  · intro u p hu
    exact h.mem u p (hother u p hu).2
  · intro u p hu hp
    obtain ⟨hut, hu⟩ := hother u p hu
    rcases List.mem_cons.mp hp with rfl | hp
    · -- nobody else had it in hand
      exact hut (h.unique u t p hu hhand)
    · exact h.not_done u p hu hp
  · intro u v p hu hv
    exact h.unique u v p (hother u p hu).2 (hother v p hv).2
  · intro p hp
    rcases h.cover p hp with hd | hex
    · exact Or.inl (List.mem_cons_of_mem o hd)
    obtain ⟨u, hu⟩ := hex
    by_cases hut : u = t
    · rw [hut, hhand] at hu
      exact Or.inl (by rw [Option.some.inj hu]; exact List.mem_cons_self)
    · exact Or.inr ⟨u, by rw [Function.update_of_ne hut, hu]⟩

end Owed

/-- What one thread's place contributes to a sum over all threads. -/
theorem sum_update [DecidableEq T] [Fintype T] {M : Type} [AddCommGroup M] (f : L → M) :
    ∑ u, f (update threads t l u) = ∑ u, f (threads u) - f (threads t) + f l := by
  have hcomp : (fun u => f (update threads t l u)) = update (fun u => f (threads u)) t (f l) := by
    ext u
    by_cases hu : u = t
    · rw [hu, Function.update_self, Function.update_self]
    · rw [Function.update_of_ne hu, Function.update_of_ne hu]
  have hsplit := Finset.sum_erase_add Finset.univ (fun u => f (threads u)) (Finset.mem_univ t)
  rw [hcomp, Finset.sum_update_of_mem (Finset.mem_univ t), ← Finset.erase_eq, ← hsplit]
  abel

end Cavatools.Lib
