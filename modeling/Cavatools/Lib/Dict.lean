import Mathlib.Data.List.Induction

/-!
# Dictionaries in the order of insertion

A dictionary of a scripting language is modelled by its items, in the order in
which their keys were first assigned. Looking a key up is `List.lookup`, going
through the keys is going through the list.

An assignment to a key that is there changes the value in its place, any other
one appends an item (`assign`). So the keys of a dictionary stay distinct
(`nodup_assign`, and `nodup_assigns` for every dictionary that assignments
make), an item of it is what a lookup finds (`lookup_of_mem`,
`mem_of_lookup`), and an assignment is seen at its own key
(`lookup_assign_self`) and at no other one (`lookup_assign_of_ne`,
`mem_assign_of_ne`).

Over a list of assignments, one after the other from an empty dictionary, each
key has the last value that was assigned to it (`lookup_assigns`). The proofs
go by induction on the items for one assignment, and from the end of the list
for many (`assigns_concat`), since it is the last assignment that counts.
-/

namespace Cavatools.Lib

variable {κ β : Type}

section
variable [BEq κ] [LawfulBEq κ]

theorem lookup_cons_of_eq {p : κ × β} {k : κ} (h : p.1 = k) (d : List (κ × β)) :
    (p :: d).lookup k = some p.2 := by
  subst h
  exact List.lookup_cons_self

theorem lookup_cons_of_ne {p : κ × β} {k : κ} (h : p.1 ≠ k) (d : List (κ × β)) :
    (p :: d).lookup k = d.lookup k := by
  have hbeq : (k == p.1) = false := by simpa using Ne.symm h
  rw [List.lookup_cons, hbeq]

theorem mem_of_lookup {d : List (κ × β)} {k : κ} {v : β} (h : d.lookup k = some v) : (k, v) ∈ d := by
  induction d with
  | nil => cases h
  | cons p d ih =>
    by_cases hp : p.1 = k
    · rw [lookup_cons_of_eq hp, Option.some.injEq] at h
      rw [← hp, ← h]
      exact List.mem_cons_self
    · rw [lookup_cons_of_ne hp] at h
      exact List.mem_cons_of_mem p (ih h)

theorem lookup_of_mem {d : List (κ × β)} (hd : (d.map Prod.fst).Nodup) {k : κ} {v : β} (h : (k, v) ∈ d) :
    d.lookup k = some v := by
  induction d with
  | nil => cases h
  | cons p d ih =>
    obtain ⟨hp, hd⟩ := List.nodup_cons.mp hd
    rcases List.mem_cons.mp h with rfl | hmem
    · exact List.lookup_cons_self
    · rw [lookup_cons_of_ne (fun heq => hp (heq ▸ List.mem_map_of_mem hmem)), ih hd hmem]

end

variable [DecidableEq κ]

/-- `d[k] = v`. -/
def assign : List (κ × β) → κ → β → List (κ × β)
  | [], k, v => [(k, v)]
  | p :: d, k, v => if p.1 = k then (k, v) :: d else p :: assign d k v

/-- One assignment after the other, from an empty dictionary. -/
def assigns (items : List (κ × β)) : List (κ × β) := items.foldl (fun d p => assign d p.1 p.2) []

theorem mem_keys_assign {d : List (κ × β)} {k k' : κ} {v : β} :
    k' ∈ (assign d k v).map Prod.fst ↔ k' = k ∨ k' ∈ d.map Prod.fst := by
  induction d with
  | nil => simp [assign]
  | cons p d ih =>
    unfold assign
    by_cases hp : p.1 = k
    · rw [if_pos hp]
      simp [hp]
    · rw [if_neg hp, List.map_cons, List.mem_cons, ih, List.map_cons, List.mem_cons]
      exact or_left_comm

/-- The items of other keys are left alone. -/
theorem mem_assign_of_ne {d : List (κ × β)} {k k' : κ} {v v' : β} (h : k ≠ k') :
    (k', v') ∈ assign d k v ↔ (k', v') ∈ d := by
  have hnew : (k', v') ≠ (k, v) := fun heq => h (congrArg Prod.fst heq).symm
  induction d with
  | nil => simp [assign, hnew]
  | cons p d ih =>
    unfold assign
    by_cases hp : p.1 = k
    · have hold : (k', v') ≠ p := fun heq => h (hp.symm.trans (congrArg Prod.fst heq).symm)
      rw [if_pos hp, List.mem_cons, List.mem_cons, or_iff_right hnew, or_iff_right hold]
    · rw [if_neg hp, List.mem_cons, List.mem_cons]
      exact or_congr_right ih

/-- An assignment keeps the keys distinct. -/
theorem nodup_assign {d : List (κ × β)} (h : (d.map Prod.fst).Nodup) (k : κ) (v : β) :
    ((assign d k v).map Prod.fst).Nodup := by
  induction d with
  | nil => simp [assign]
  | cons p d ih =>
    obtain ⟨hp, hd⟩ := List.nodup_cons.mp h
    unfold assign
    by_cases hk : p.1 = k
    · rw [if_pos hk, List.map_cons, List.nodup_cons]
      exact ⟨hk ▸ hp, hd⟩
    · rw [if_neg hk, List.map_cons, List.nodup_cons]
      refine ⟨fun hmem => ?_, ih hd⟩
      rcases mem_keys_assign.mp hmem with heq | hmem
      · exact hk heq
      · exact hp hmem

theorem assigns_concat (items : List (κ × β)) (p : κ × β) :
    assigns (items ++ [p]) = assign (assigns items) p.1 p.2 := by
  unfold assigns
  rw [List.foldl_append]
  rfl

theorem nodup_assigns (items : List (κ × β)) : ((assigns items).map Prod.fst).Nodup := by
  induction items using List.reverseRecOn with
  | nil => exact List.nodup_nil
  | append_singleton items p ih =>
    rw [assigns_concat]
    exact nodup_assign ih p.1 p.2

section
variable [BEq κ] [LawfulBEq κ]

theorem lookup_assign_self (d : List (κ × β)) (k : κ) (v : β) : (assign d k v).lookup k = some v := by
  induction d with
  | nil => exact List.lookup_cons_self
  | cons p d ih =>
    unfold assign
    by_cases h : p.1 = k
    · rw [if_pos h, List.lookup_cons_self]
    · rw [if_neg h, lookup_cons_of_ne h, ih]

/-- An assignment is not seen at another key. -/
theorem lookup_assign_of_ne (d : List (κ × β)) {k k' : κ} (v : β) (h : k ≠ k') :
    (assign d k v).lookup k' = d.lookup k' := by
  induction d with
  | nil => exact lookup_cons_of_ne (p := (k, v)) h []
  | cons p d ih =>
    unfold assign
    by_cases hp : p.1 = k
    · rw [if_pos hp, lookup_cons_of_ne (p := (k, v)) h, lookup_cons_of_ne (fun heq => h (hp.symm.trans heq))]
    · rw [if_neg hp]
      by_cases hk : p.1 = k'
      · rw [lookup_cons_of_eq hk, lookup_cons_of_eq hk]
      · rw [lookup_cons_of_ne hk, lookup_cons_of_ne hk, ih]

/-- The last assignment to a key gives its value. -/
theorem lookup_assigns (items : List (κ × β)) (k : κ) :
    (assigns items).lookup k = items.reverse.lookup k := by
  induction items using List.reverseRecOn with
  | nil => rfl
  | append_singleton items p ih =>
    rw [assigns_concat, List.reverse_concat]
    by_cases h : p.1 = k
    · rw [lookup_cons_of_eq h, ← h, lookup_assign_self]
    · rw [lookup_cons_of_ne h, lookup_assign_of_ne _ _ h, ih]

end

end Cavatools.Lib
