import Mathlib

/-!
# Accounts and their total

A total that is kept beside a list of accounts, and is changed with each of
them, is their sum, and when no account is ever negative, the total is zero
exactly if all accounts are. The point of the theory is to replace a question
about the total, which every participant changes, by one about single
accounts.

`Balanced` is the invariant: no account is overdrawn, and the total is right.
It is kept when one account changes by some amount and the total changes by
the same (`set`), when an account with nothing on it is opened
(`append_zero`), and by leaving one account and its share out (`eraseIdx`).

What it gives is that the total is not negative (`total_nonneg`), that no
account holds more than there is (`le_total`), that the total is nonzero
exactly if some account is (`total_ne_zero_iff`), and the same of what is left
after a withdrawal which the account covers (`total_sub_ne_zero_iff`): that is
nonzero unless the account was emptied and all others are empty.

The amounts are of any ordered commutative group, since an account goes down
as well as up: a count may be taken back for a while.
-/

namespace Cavatools.Lib

variable {M : Type} [AddCommGroup M] [LinearOrder M]

/-- No account is overdrawn, and the total is right. -/
structure Balanced (accounts : List M) (total : M) : Prop where
  nonneg : ∀ a ∈ accounts, 0 ≤ a
  sum : accounts.sum = total

namespace Balanced

variable {accounts : List M} {total a n : M} {i : Nat}

/-- One account changes, and the total with it. -/
theorem set (h : Balanced accounts total) (hi : accounts[i]? = some a) (hn : 0 ≤ a + n) :
    Balanced (accounts.set i (a + n)) (total + n) where
  nonneg := by
    intro b hb
    rcases List.mem_or_eq_of_mem_set hb with hb | rfl
    · exact h.nonneg b hb
    · exact hn
  sum := by
    obtain ⟨hlt, hget⟩ := List.getElem?_eq_some_iff.mp hi
    rw [List.sum_set', dif_pos hlt, hget, h.sum, neg_add_cancel_left]

/-- Nothing is on a new account. -/
theorem append_zero (h : Balanced accounts total) : Balanced (accounts ++ [0]) total where
  nonneg := by
    intro b hb
    rcases List.mem_append.mp hb with hb | hb
    · exact h.nonneg b hb
    · rw [List.mem_singleton.mp hb]
  sum := by rw [List.sum_append, List.sum_singleton, add_zero, h.sum]

theorem eraseIdx (h : Balanced accounts total) (hi : accounts[i]? = some a) :
    Balanced (accounts.eraseIdx i) (total - a) where
  nonneg b hb := h.nonneg b (List.mem_of_mem_eraseIdx hb)
  sum := by
    obtain ⟨hlt, hget⟩ := List.getElem?_eq_some_iff.mp hi
    rw [← h.sum, ← List.CommMonoid.add_sum_eraseIdx hlt, hget, add_sub_cancel_left]

variable [IsOrderedAddMonoid M]

theorem total_nonneg (h : Balanced accounts total) : 0 ≤ total := by
  rw [← h.sum]
  exact List.sum_nonneg h.nonneg

/-- An account holds no more than there is. -/
theorem le_total (h : Balanced accounts total) (hi : accounts[i]? = some a) : a ≤ total :=
  sub_nonneg.mp (h.eraseIdx hi).total_nonneg

theorem total_ne_zero_iff (h : Balanced accounts total) : total ≠ 0 ↔ ∃ b ∈ accounts, b ≠ 0 := by
  constructor
  · intro hne
    by_contra hall
    push Not at hall
    exact hne (by rw [← h.sum]; exact List.sum_eq_zero hall)
  · intro hex
    obtain ⟨b, hb, hne⟩ := hex
    obtain ⟨j, hj⟩ := List.getElem?_of_mem hb
    have hpos : 0 < b := lt_of_le_of_ne (h.nonneg b hb) hne.symm
    exact (hpos.trans_le (h.le_total hj)).ne'

/-- What is left after a withdrawal that the account covers. -/
theorem total_sub_ne_zero_iff (h : Balanced accounts total) (hi : accounts[i]? = some a) (hn : n ≤ a) :
    total - n ≠ 0 ↔ a ≠ n ∨ ∃ b ∈ accounts.eraseIdx i, b ≠ 0 := by
  have hrest := h.eraseIdx hi
  rw [← hrest.total_ne_zero_iff]
  constructor
  · intro hne
    by_cases han : a = n
    · right
      rw [han]
      exact hne
    · exact Or.inl han
  · intro hor hzero
    -- both parts of what is left are zero
    have hsplit : (a - n) + (total - a) = 0 := by rw [add_comm, sub_add_sub_cancel]; exact hzero
    obtain ⟨ha, hb⟩ := (add_eq_zero_iff_of_nonneg (sub_nonneg.mpr hn) hrest.total_nonneg).mp hsplit
    rcases hor with hne | hne
    · exact hne (sub_eq_zero.mp ha)
    · exact hne hb

end Balanced

end Cavatools.Lib
