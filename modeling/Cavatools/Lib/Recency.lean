import Mathlib

/-!
# Recency lists

True least-recently-used replacement, as a list of what a row holds with the
most recent entry first. Using an entry that is there moves its first
occurrence to the front; using something new drops the last entry (`touch`). A
cache is one such list for each row, and a use says whether the entry was in
its row and what the rows are then (`use`; `uses` for a sequence of them).

This is the abstract model that a cache with its tables of orders is compared
with, so the file has the facts that such comparisons and the laws about
caches need.

- `touch_of_first`: when the used entry stands at a known place, the new list
  is the old one with that place moved to the front. This is what a table of
  permutations does.
- `touch_prefix`: inclusion. The list of a smaller row is the front of that of
  a larger one, and a use keeps it so; `uses_prefix` has it for whole
  sequences, and with it a larger row hits wherever a smaller one does.
- `touch_generates`: uses alone lead from any order of some entries to every
  other one, so what they keep holds of all orders.
- `Filled`: rows that start out empty. An empty place is an entry `z` that
  nothing tells from a real one; the invariant says which entries have been
  used and how many places are still empty (`touch_filled` for one use,
  `uses_filled` for many, `mem_filled` for what it says of `z`).
-/

namespace Cavatools.Lib

variable {α : Type} [DecidableEq α]

def touch (a : α) (l : List α) : List α := if a ∈ l then a :: l.erase a else a :: l.dropLast

theorem touch_of_mem {a : α} {l : List α} (h : a ∈ l) : touch a l = a :: l.erase a := if_pos h

theorem touch_of_not_mem {a : α} {l : List α} (h : a ∉ l) : touch a l = a :: l.dropLast := if_neg h

/-- Erasing an entry erases its first occurrence. -/
theorem erase_of_first {a : α} {l : List α} {i : Nat} (hi : l[i]? = some a)
    (hfirst : ∀ j < i, l[j]? ≠ some a) : l.erase a = l.eraseIdx i := by
  -- on the list: its head is the first occurrence, or no occurrence
  induction l generalizing i with
  | nil => cases hi
  | cons b l ih =>
    cases i with
    | zero =>
      obtain rfl : b = a := Option.some.inj hi
      rw [List.erase_cons_head, List.eraseIdx_cons_zero]
    | succ i =>
      have hne : b ≠ a := fun h => hfirst 0 (by omega) (congrArg some h)
      rw [List.erase_cons_tail (by simpa using hne), List.eraseIdx_cons_succ]
      exact congrArg (b :: ·) (ih hi fun j hj => hfirst (j + 1) (by omega))

/-- The first occurrence moves to the front. -/
theorem touch_of_first {a : α} {l : List α} {i : Nat} (hi : l[i]? = some a)
    (hfirst : ∀ j < i, l[j]? ≠ some a) : touch a l = a :: l.eraseIdx i := by
  rw [touch_of_mem (List.mem_of_getElem? hi), erase_of_first hi hfirst]

/-- **Inclusion.** The recency list of a smaller row is the front of that of a larger
one, and using an entry keeps it so. -/
theorem touch_prefix {a : α} {p l : List α} (h : p <+: l) : touch a p <+: touch a l := by
  obtain ⟨q, rfl⟩ := h
  by_cases hp : a ∈ p
  · rw [touch_of_mem hp, touch_of_mem (List.mem_append_left q hp), List.erase_append_left q hp]
    exact List.prefix_append (a :: p.erase a) q
  rw [touch_of_not_mem hp]
  by_cases hq : a ∈ q
  · -- The larger row holds it behind the smaller one, and drops nothing.
    rw [touch_of_mem (List.mem_append_right p hq), List.erase_append_right q hp,
      List.prefix_cons_inj]
    exact (List.dropLast_prefix p).trans (List.prefix_append p _)
  · have hpq : a ∉ p ++ q := fun hm => (List.mem_append.mp hm).elim hp hq
    rw [touch_of_not_mem hpq, List.prefix_cons_inj]
    by_cases hnil : q = []
    · rw [hnil, List.append_nil]
    · rw [List.dropLast_append_of_ne_nil hnil]
      exact (List.dropLast_prefix p).trans (List.prefix_append p _)

/-! ## Orders of one set of entries -/

theorem touch_perm {a : α} {l : List α} (h : a ∈ l) : (touch a l).Perm l := by
  rw [touch_of_mem h]
  exact (List.perm_cons_erase h).symm

/-- **Uses generate the orders.** What holds of one order of some entries, and is kept by every
use, holds of all their orders. -/
theorem touch_generates {P : List α → Prop} {s t : List α} (hs : s.Nodup) (hst : s.Perm t) (h₀ : P s)
    (hstep : ∀ u a, u.Perm s → a ∈ u → P u → P (touch a u)) : P t := by
  -- on the end of `t`: its entries have been used last, in reverse
  have hsuffix (l : List α) : l.Nodup → (∀ a ∈ l, a ∈ s) →
      P (l ++ s.filter (· ∉ l)) ∧ (l ++ s.filter (· ∉ l)).Perm s := by
    induction l with
    | nil =>
      intro _ _
      rw [List.filter_eq_self.mpr (by simp), List.nil_append]
      exact ⟨h₀, List.Perm.refl s⟩
    | cons a l ih =>
      intro hnodup hmem
      obtain ⟨ha, hnodup⟩ := List.nodup_cons.mp hnodup
      obtain ⟨has, hmem⟩ := List.forall_mem_cons.mp hmem
      obtain ⟨hP, hperm⟩ := ih hnodup hmem
      have hau : a ∈ l ++ s.filter (· ∉ l) := hperm.mem_iff.mpr has
      have hnext : touch a (l ++ s.filter (· ∉ l)) = a :: l ++ s.filter (· ∉ a :: l) := by
        rw [touch_of_mem hau, List.erase_append_right _ ha, (hs.filter _).erase_eq_filter,
          List.filter_filter, List.cons_append]
        refine congrArg (fun p => a :: (l ++ List.filter p s)) (funext fun b => ?_)
        by_cases hb : b = a <;> simp [hb]
      rw [← hnext]
      exact ⟨hstep _ a hperm hau hP, (touch_perm hau).trans hperm⟩
  have ht := hsuffix t (hst.nodup_iff.mp hs) fun a ha => hst.mem_iff.mpr ha
  have hnil : s.filter (· ∉ t) = [] := by
    refine List.filter_eq_nil_iff.mpr fun a ha => ?_
    simpa using hst.mem_iff.mp ha
  rw [hnil, List.append_nil] at ht
  exact ht.1

/-! ## Rows that start out empty

An empty place is an entry `z` of the row, which nothing tells from a use of `z`. -/

/-- A row of `n` places after the uses of `seen`: some of these, then empty places; all of
them, while there are empty places. -/
def Filled (n : Nat) (z : α) (seen : Finset α) (l : List α) : Prop :=
  ∃ p, l = p ++ List.replicate (n - p.length) z ∧ p.Nodup ∧ p.length ≤ n ∧ (∀ a ∈ p, a ∈ seen) ∧
    (p.length < n → ∀ a ∈ seen, a ∈ p)

omit [DecidableEq α] in
theorem filled_replicate (n : Nat) (z : α) : Filled n z ∅ (List.replicate n z) :=
  ⟨[], rfl, List.nodup_nil, Nat.zero_le n, fun _ ha => absurd ha List.not_mem_nil,
    fun _ a ha => absurd ha (Finset.notMem_empty a)⟩

/-- A use keeps the invariant, with the entry used added to those of before: it either stood in the
row already, or takes an empty place, or the place of the last entry. -/
theorem touch_filled {n : Nat} {z : α} {seen : Finset α} {l : List α} (h : Filled n z seen l)
    (hn : 0 < n) {a : α} (ha : a ≠ z) : Filled n z (insert a seen) (touch a l) := by
  obtain ⟨p, rfl, hnodup, hle, hseen, hall⟩ := h
  have hempty : a ∉ List.replicate (n - p.length) z := fun hm => ha (List.eq_of_mem_replicate hm)
  by_cases hp : a ∈ p
  -- a hit
  · have hlen : (a :: p.erase a).length = p.length := by
      rw [List.length_cons, List.length_erase_of_mem hp]
      have := List.length_pos_of_mem hp
      omega
    refine ⟨a :: p.erase a, ?_, ?_, hlen.le.trans hle, ?_, ?_⟩
    · rw [touch_of_mem (List.mem_append_left _ hp), List.erase_append_left _ hp, hlen]
      rfl
    · exact List.nodup_cons.mpr ⟨hnodup.not_mem_erase, hnodup.erase a⟩
    · refine List.forall_mem_cons.mpr ⟨Finset.mem_insert_self a seen, fun b hb => ?_⟩
      exact Finset.mem_insert_of_mem (hseen b (List.mem_of_mem_erase hb))
    · intro hlt b hb
      rw [hlen] at hlt
      by_cases hba : b = a
      · exact hba ▸ List.mem_cons_self
      · exact List.mem_cons_of_mem a ((List.mem_erase_of_ne hba).mpr
          (hall hlt b (Finset.mem_of_mem_insert_of_ne hb hba)))
  have hmiss : a ∉ p ++ List.replicate (n - p.length) z :=
    fun hm => (List.mem_append.mp hm).elim hp hempty
  rw [touch_of_not_mem hmiss]
  rcases Nat.lt_or_ge p.length n with hlt | hge
  -- a miss that takes an empty place
  · obtain ⟨k, hk⟩ : ∃ k, n - p.length = k + 1 := ⟨n - p.length - 1, by omega⟩
    refine ⟨a :: p, ?_, List.nodup_cons.mpr ⟨hp, hnodup⟩, ?_, ?_, ?_⟩
    · rw [hk, List.replicate_succ', ← List.append_assoc, List.dropLast_concat, List.length_cons,
        show n - (p.length + 1) = k by omega]
      rfl
    · rw [List.length_cons]
      exact hlt
    · exact List.forall_mem_cons.mpr ⟨Finset.mem_insert_self a seen,
        fun b hb => Finset.mem_insert_of_mem (hseen b hb)⟩
    · intro _ b hb
      rcases Finset.mem_insert.mp hb with rfl | hb
      · exact List.mem_cons_self
      · exact List.mem_cons_of_mem a (hall hlt b hb)
  -- a miss that drops the last entry
  · have hlen : p.length = n := Nat.le_antisymm hle hge
    have hlen' : (a :: p.dropLast).length = n := by
      rw [List.length_cons, List.length_dropLast]
      omega
    refine ⟨a :: p.dropLast, ?_, ?_, hlen'.le, ?_, fun hlt => absurd hlen' hlt.ne⟩
    · rw [hlen', hlen, Nat.sub_self, List.replicate_zero, List.append_nil, List.append_nil]
    · exact List.nodup_cons.mpr ⟨fun hm => hp (List.mem_of_mem_dropLast hm),
        hnodup.sublist (List.dropLast_sublist p)⟩
    · refine List.forall_mem_cons.mpr ⟨Finset.mem_insert_self a seen, fun b hb => ?_⟩
      exact Finset.mem_insert_of_mem (hseen b (List.mem_of_mem_dropLast hb))

/-- A place is still empty while fewer entries have been used than there are places. -/
theorem mem_filled {n : Nat} {z : α} {seen : Finset α} {l : List α} (h : Filled n z seen l)
    (hz : z ∉ seen) : z ∈ l ↔ seen.card < n := by
  obtain ⟨p, rfl, hnodup, hle, hseen, hall⟩ := h
  have hzp : z ∉ p := fun hm => hz (hseen z hm)
  have hcard : p.toFinset.card = p.length := List.toFinset_card_of_nodup hnodup
  rw [List.mem_append, List.mem_replicate]
  constructor
  · intro hall
    rcases hall with hm | ⟨hne, -⟩
    · exact absurd hm hzp
    · have hsub : seen ⊆ p.toFinset :=
        fun b hb => List.mem_toFinset.mpr (hall (by omega) b hb)
      have := Finset.card_le_card hsub
      omega
  · intro hlt
    have hsub : p.toFinset ⊆ seen := fun b hb => hseen b (List.mem_toFinset.mp hb)
    have := Finset.card_le_card hsub
    exact Or.inr ⟨by omega, rfl⟩

/-! ## Rows of recency lists -/

section
variable {κ : Type} [DecidableEq κ] (row : α → κ)

/-- One use: whether `a` was in its row, and the rows after it. -/
def use (rows : κ → List α) (a : α) : Bool × (κ → List α) :=
  (decide (a ∈ rows (row a)), Function.update rows (row a) (touch a (rows (row a))))

/-- A sequence of uses, and the hits it gives. -/
def uses (rows : κ → List α) : List α → List Bool × (κ → List α)
  | [] => ([], rows)
  | a :: as =>
    let (hit, rows) := use row rows a
    let (hits, rows) := uses rows as
    (hit :: hits, rows)

theorem use_self {rows : κ → List α} {a : α} : (use row rows a).2 (row a) = touch a (rows (row a)) :=
  Function.update_self ..

theorem use_other {rows : κ → List α} {a : α} {r : κ} (h : r ≠ row a) :
    (use row rows a).2 r = rows r :=
  Function.update_of_ne h ..

/-- The rows after a sequence of uses. -/
theorem uses_filled {n : Nat} (hn : 0 < n) {z : α} {rows : κ → List α} {seen : κ → Finset α}
    (h : ∀ r, Filled n z (seen r) (rows r)) {as : List α} (hz : z ∉ as) (r : κ) :
    Filled n z (seen r ∪ (as.filter (row · = r)).toFinset) ((uses row rows as).2 r) := by
  induction as generalizing rows seen with
  | nil =>
    rw [List.filter_nil, List.toFinset_nil, Finset.union_empty]
    exact h r
  | cons a as ih =>
    have ha : a ≠ z := fun heq => hz (heq ▸ List.mem_cons_self)
    have hnext (q : κ) : Filled n z (if q = row a then insert a (seen q) else seen q)
        ((use row rows a).2 q) := by
      by_cases hq : q = row a
      · rw [if_pos hq, hq, use_self]
        exact touch_filled (h (row a)) hn ha
      · rw [if_neg hq, use_other row hq]
        exact h q
    have hrest := ih hnext fun hm => hz (List.mem_cons_of_mem a hm)
    by_cases hr : r = row a
    · rw [if_pos hr, Finset.insert_union] at hrest
      rw [List.filter_cons_of_pos (by simpa using hr.symm), List.toFinset_cons, Finset.union_insert]
      exact hrest
    · rw [if_neg hr] at hrest
      rw [List.filter_cons_of_neg (by simpa using fun h => hr h.symm)]
      exact hrest

/-- Rows that are the fronts of larger rows hit only where those hit. -/
theorem uses_prefix {rows rows' : κ → List α} (h : ∀ r, rows r <+: rows' r) (as : List α) :
    List.Forall₂ (fun hit hit' => hit = true → hit' = true) (uses row rows as).1
        (uses row rows' as).1 := by
  induction as generalizing rows rows' with
  | nil => exact List.Forall₂.nil
  | cons a as ih =>
    have hnext (r : κ) : (use row rows a).2 r <+: (use row rows' a).2 r := by
      by_cases hr : r = row a
      · rw [hr, use_self, use_self]
        exact touch_prefix (h (row a))
      · rw [use_other row hr, use_other row hr]
        exact h r
    refine List.Forall₂.cons ?_ (ih hnext)
    intro hit
    exact decide_eq_true ((h (row a)).subset (of_decide_eq_true hit))

end

end Cavatools.Lib
