import Cavatools.Lib.Recency

/-!
# Stack distances

The stack distance of a use is how many different entries were used since the
last use of the same entry (`distance`). A row of `n` places under
least-recently-used replacement holds an entry exactly while its distance is
below `n`, so the distances of a sequence, which do not mention any row, tell
what rows of every size hit.

The uses of the past are listed with the last one first. `recent` lists the
entries in the order of their last uses, without repetition (`recent_nodup`);
a row of `n` places is the front of that list (`front`), filled up with the
entry `z` that an empty place counts as. The link between the two is a count
of positions: what stands before an entry in the list is what was used since
(`takeWhile_recent`), hence an entry is among the first `n` exactly if its
distance is below `n` (`mem_take_recent`).

`touch_front` shows that one use of a row is one more use of the past,
`use_rowsAfter` the same for rows, and `uses_hit_iff` is the law for whole
sequences: a use hits exactly if the entry was used before, or is `z`, and
fewer than `n` others of its row were used since.

The last section compares rows with finer ones, in which each row is split up:
filtering the past by a finer row can only drop other entries
(`takeWhile_filter_ne`), so distances do not grow (`distance_refine`), and
finer and larger rows hit wherever the others do (`uses_refine`).
-/

namespace Cavatools.Lib

variable {α : Type} [DecidableEq α]

/-- The number of different entries used since the last use of `a`. -/
def distance (past : List α) (a : α) : Nat := (past.takeWhile (· ≠ a)).toFinset.card

/-- The entries used, each where it was used last; the first of all uses is one of `z`. -/
def recent (z : α) : List α → List α
  | [] => [z]
  | a :: past => a :: (recent z past).erase a

theorem recent_nodup (z : α) (past : List α) : (recent z past).Nodup := by
  induction past with
  | nil => exact List.nodup_singleton z
  | cons a past ih => exact List.nodup_cons.mpr ⟨ih.not_mem_erase, ih.erase a⟩

theorem mem_recent {z a : α} {past : List α} : a ∈ recent z past ↔ a = z ∨ a ∈ past := by
  induction past with
  | nil => simp [recent]
  | cons b past ih =>
    rw [recent, List.mem_cons, List.mem_cons]
    by_cases hab : a = b
    · simp [hab]
    · rw [List.mem_erase_of_ne hab, ih]
      simp [hab]

/-! ## Positions -/

/-- Erasing another entry erases it from what stands before `b`, too. -/
theorem takeWhile_erase {a b : α} (hab : a ≠ b) (l : List α) :
    (l.erase a).takeWhile (· ≠ b) = (l.takeWhile (· ≠ b)).erase a := by
  induction l with
  | nil => rfl
  | cons c l ih =>
    by_cases hca : c = a
    · subst hca
      rw [List.erase_cons_head, List.takeWhile_cons_of_pos (by simpa using hab), List.erase_cons_head]
    · rw [List.erase_cons_tail (by simpa using hca)]
      by_cases hcb : c = b
      · rw [List.takeWhile_cons_of_neg (by simpa using hcb), List.takeWhile_cons_of_neg (by simpa using hcb)]
        rfl
      · rw [List.takeWhile_cons_of_pos (by simpa using hcb), List.takeWhile_cons_of_pos (by simpa using hcb),
          List.erase_cons_tail (by simpa using hca), ih]

/-- What stands before an entry is what was used since. -/
theorem takeWhile_recent {z a : α} {past : List α} (ha : a ∈ recent z past) :
    ((recent z past).takeWhile (· ≠ a)).toFinset = (past.takeWhile (· ≠ a)).toFinset := by
  induction past with
  | nil =>
    obtain rfl : a = z := List.mem_singleton.mp ha
    simp [recent]
  | cons b past ih =>
    by_cases hba : b = a
    · rw [recent, List.takeWhile_cons_of_neg (by simpa using hba),
        List.takeWhile_cons_of_neg (by simpa using hba)]
    · have ha' : a ∈ recent z past := by
        rcases List.mem_cons.mp ha with rfl | h
        · exact absurd rfl hba
        · exact List.mem_of_mem_erase h
      have hnodup : ((recent z past).takeWhile (· ≠ a)).Nodup :=
        (recent_nodup z past).sublist (List.takeWhile_sublist _)
      rw [recent, List.takeWhile_cons_of_pos (by simpa using hba),
        List.takeWhile_cons_of_pos (by simpa using hba), takeWhile_erase hba, List.toFinset_cons,
        List.toFinset_cons, ← ih ha', hnodup.erase_eq_filter]
      ext c
      by_cases hcb : c = b <;> simp [hcb]

/-- An entry is among the first `n` if fewer than `n` stand before it. -/
theorem mem_take_iff {a : α} {l : List α} {n : Nat} :
    a ∈ l.take n ↔ a ∈ l ∧ (l.takeWhile (· ≠ a)).length < n := by
  induction l generalizing n with
  | nil => simp
  | cons b l ih =>
    cases n with
    | zero => simp
    | succ n =>
      rw [List.take_succ_cons, List.mem_cons, List.mem_cons]
      by_cases hab : a = b
      · subst hab
        simp
      · rw [List.takeWhile_cons_of_pos (by simpa using fun h => hab h.symm), List.length_cons,
          Nat.add_lt_add_iff_right, ih]
        simp [hab]

/-- An entry is among the first `n` exactly if its distance is below `n`. -/
theorem mem_take_recent {z a : α} {past : List α} {n : Nat} :
    a ∈ (recent z past).take n ↔ (a = z ∨ a ∈ past) ∧ distance past a < n := by
  rw [mem_take_iff, mem_recent]
  refine and_congr_right fun ha => ?_
  have hnodup : ((recent z past).takeWhile (· ≠ a)).Nodup :=
    (recent_nodup z past).sublist (List.takeWhile_sublist _)
  rw [← List.toFinset_card_of_nodup hnodup, takeWhile_recent (mem_recent.mpr ha)]
  rfl

/-! ## A row of `n` places -/

/-- The first `n`, and `z` in the places that are left. -/
def front (n : Nat) (z : α) (l : List α) : List α := l.take n ++ List.replicate (n - l.length) z

omit [DecidableEq α] in
theorem mem_front {n : Nat} {z : α} {l : List α} (hz : z ∈ l) {a : α} : a ∈ front n z l ↔ a ∈ l.take n := by
  unfold front
  rw [List.mem_append, List.mem_replicate]
  refine or_iff_left_of_imp ?_
  rintro ⟨hn, rfl⟩
  rw [List.take_of_length_le (by omega)]
  exact hz

/-- An entry among the first `n + 1` can be erased before or after they are cut off. -/
theorem take_erase {a : α} {l : List α} {n : Nat} (ha : a ∈ l.take (n + 1)) :
    (l.take (n + 1)).erase a = (l.erase a).take n := by
  induction l generalizing n with
  | nil => simp at ha
  | cons b l ih =>
    by_cases hba : b = a
    · rw [List.take_succ_cons, hba, List.erase_cons_head, List.erase_cons_head]
    · rw [List.take_succ_cons] at ha
      have hal : a ∈ l.take n := (List.mem_cons.mp ha).resolve_left fun h => hba h.symm
      cases n with
      | zero => simp at hal
      | succ n =>
        rw [List.take_succ_cons, List.erase_cons_tail (by simpa using hba),
          List.erase_cons_tail (by simpa using hba), List.take_succ_cons, ih hal]

/-- An entry that is not among the first `n` can be erased without a trace there. -/
theorem take_erase_of_not_mem {a : α} {l : List α} {n : Nat} (ha : a ∉ l.take n) :
    (l.erase a).take n = l.take n := by
  induction l generalizing n with
  | nil => rfl
  | cons b l ih =>
    cases n with
    | zero => rfl
    | succ n =>
      rw [List.take_succ_cons] at ha
      have hba : b ≠ a := fun h => ha (h ▸ List.mem_cons_self)
      rw [List.erase_cons_tail (by simpa using hba), List.take_succ_cons, List.take_succ_cons,
        ih fun h => ha (List.mem_cons_of_mem b h)]

/-- **One use** of a row. -/
theorem touch_front {n : Nat} {z : α} {l : List α} (hz : z ∈ l) (a : α) :
    touch a (front (n + 1) z l) = front (n + 1) z (a :: l.erase a) := by
  by_cases ha : a ∈ l.take (n + 1)
  · have hlen : (a :: l.erase a).length = l.length := by
      have hpos := List.length_pos_of_mem (List.mem_of_mem_take ha)
      rw [List.length_cons, List.length_erase_of_mem (List.mem_of_mem_take ha)]
      omega
    rw [touch_of_mem ((mem_front hz).mpr ha), front, front, hlen, List.take_succ_cons,
      List.erase_append_left _ ha, take_erase ha]
    rfl
  · rw [touch_of_not_mem fun h => ha ((mem_front hz).mp h), front, front, List.take_succ_cons,
      take_erase_of_not_mem fun h => ha ((List.take_subset_take_left l (Nat.le_succ n)) h)]
    by_cases hle : l.length ≤ n
    -- `a` is new, and takes the place of a `z`
    · have hal : a ∉ l := fun h => ha (by rwa [List.take_of_length_le (by omega)])
      obtain ⟨k, hk⟩ : ∃ k, n + 1 - l.length = k + 1 := ⟨n - l.length, by omega⟩
      rw [List.erase_of_not_mem hal, List.length_cons, show n + 1 - (l.length + 1) = k by omega, hk,
        List.replicate_succ', ← List.append_assoc, List.dropLast_concat, List.take_of_length_le (by omega),
        List.take_of_length_le hle]
      rfl
    -- no place was left: the last entry goes
    · have hlen : n + 1 - (a :: l.erase a).length = 0 := by
        have hge : l.length - 1 ≤ (l.erase a).length := List.le_length_erase
        rw [List.length_cons]
        omega
      rw [hlen, show n + 1 - l.length = 0 by omega, List.replicate_zero, List.append_nil, List.append_nil,
        List.dropLast_eq_take, List.length_take, List.take_take,
        show min (min (n + 1) l.length - 1) (n + 1) = n by omega]

/-! ## Rows -/

section
variable {κ : Type} [DecidableEq κ] (row : α → κ)

/-- Rows of `n` places after the uses of the past. -/
def rowsAfter (n : Nat) (z : α) (past : List α) (r : κ) : List α :=
  front n z (recent z (past.filter (row · = r)))

theorem rowsAfter_nil (n : Nat) (z : α) : rowsAfter row (n + 1) z [] = fun _ => List.replicate (n + 1) z := by
  funext r
  show [z].take (n + 1) ++ List.replicate n z = _
  rw [List.take_succ_cons, List.take_nil]
  rfl

theorem use_rowsAfter {n : Nat} {z : α} (past : List α) (a : α) :
    (use row (rowsAfter row (n + 1) z past) a).2 = rowsAfter row (n + 1) z (a :: past) := by
  funext r
  by_cases hr : r = row a
  · subst hr
    rw [use_self, rowsAfter, rowsAfter, List.filter_cons_of_pos (by simp), recent,
      touch_front (mem_recent.mpr (Or.inl rfl))]
  · rw [use_other row hr, rowsAfter, rowsAfter, List.filter_cons_of_neg (by simpa using fun h => hr h.symm)]

/-- A use hits exactly if the entry was used before, or is `z`, and fewer than `n` others of its
row since. -/
theorem use_hit_iff {n : Nat} {z : α} {past : List α} {a : α} :
    (use row (rowsAfter row n z past) a).1 = true ↔
      (a = z ∨ a ∈ past) ∧ distance (past.filter (row · = row a)) a < n := by
  rw [use, decide_eq_true_iff, rowsAfter, mem_front (mem_recent.mpr (Or.inl rfl)), mem_take_recent]
  simp

theorem uses_cons (rows : κ → List α) (a : α) (as : List α) :
    (uses row rows (a :: as)).1 = (use row rows a).1 :: (uses row (use row rows a).2 as).1 := rfl

/-- **The hits of a sequence of uses**, from the distances alone. -/
theorem uses_hit_iff {n : Nat} {z : α} {past as : List α} {k : Nat} {a : α} {hit : Bool}
    (ha : as[k]? = some a) (hhit : (uses row (rowsAfter row (n + 1) z past) as).1[k]? = some hit) :
    hit = true ↔ (a = z ∨ a ∈ (as.take k).reverse ++ past) ∧
      distance (((as.take k).reverse ++ past).filter (row · = row a)) a < n + 1 := by
  -- on the uses, which pass one by one into the past
  induction as generalizing past k with
  | nil => cases ha
  | cons b as ih =>
    rw [uses_cons] at hhit
    cases k with
    | zero =>
      obtain rfl := Option.some.inj ha
      obtain rfl := Option.some.inj hhit
      exact use_hit_iff row
    | succ k =>
      rw [List.getElem?_cons_succ, use_rowsAfter] at hhit
      rw [List.take_succ_cons, List.reverse_cons, List.append_assoc]
      exact ih ha hhit

/-! ## Finer rows -/

variable {row} {κ' : Type} [DecidableEq κ'] {row' : α → κ'}

/-- What stands before an entry of a row, among the entries of the row. -/
theorem takeWhile_filter_ne {p : α → Bool} {a : α} (ha : p a = true) (l : List α) :
    (l.filter p).takeWhile (· ≠ a) = (l.takeWhile (· ≠ a)).filter p := by
  induction l with
  | nil => rfl
  | cons b l ih =>
    by_cases hba : b = a
    · subst hba
      rw [List.filter_cons_of_pos ha, List.takeWhile_cons_of_neg (by simp),
        List.takeWhile_cons_of_neg (by simp)]
      rfl
    · rw [List.takeWhile_cons_of_pos (by simpa using hba)]
      by_cases hb : p b = true
      · rw [List.filter_cons_of_pos hb, List.filter_cons_of_pos hb,
          List.takeWhile_cons_of_pos (by simpa using hba), ih]
      · rw [List.filter_cons_of_neg hb, List.filter_cons_of_neg hb, ih]

/-- In finer rows the distances are at most as large. -/
theorem distance_refine (hrow : ∀ a b, row' a = row' b → row a = row b) (past : List α) (a : α) :
    distance (past.filter (row' · = row' a)) a ≤ distance (past.filter (row · = row a)) a := by
  unfold distance
  rw [takeWhile_filter_ne (by simp), takeWhile_filter_ne (by simp)]
  refine Finset.card_le_card fun b hb => ?_
  rw [List.mem_toFinset, List.mem_filter, decide_eq_true_iff] at hb ⊢
  exact ⟨hb.1, hrow b a hb.2⟩

/-- **Finer and larger rows** hit where the others do. -/
theorem uses_refine (hrow : ∀ a b, row' a = row' b → row a = row b) {n n' : Nat} (hn : n ≤ n') (z : α)
    (past as : List α) : List.Forall₂ (fun hit hit' => hit = true → hit' = true)
      (uses row (rowsAfter row (n + 1) z past) as).1 (uses row' (rowsAfter row' (n' + 1) z past) as).1 := by
  induction as generalizing past with
  | nil => exact List.Forall₂.nil
  | cons a as ih =>
    rw [uses_cons, uses_cons, use_rowsAfter, use_rowsAfter]
    refine List.Forall₂.cons ?_ (ih (a :: past))
    rw [use_hit_iff, use_hit_iff]
    rintro ⟨hused, hdist⟩
    have := distance_refine hrow past a
    exact ⟨hused, by omega⟩

end

end Cavatools.Lib
