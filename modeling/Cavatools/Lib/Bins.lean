import Cavatools.Lib.Sweep

/-!
# A sweep in bins

A loop that cuts a sweep of the places from `base` on into `n` bins of one
width can do so in two ways. It may start bin `i` at `base + i * width`, which
is where that bin is meant to start (`edge`), or it may go on where the bin
before it has stopped (`binStart`). The starts only go up (`binStart_le`), but
a stride that steps over an edge makes the bin stop behind it, and all bins
after it are late.

The question of this file is when the second loop visits what the first one
means to. A bin is `Right` if its visits are those of the sweep between its
edges. The answer is local: a bin that `Starts` with the first place from its
edge on is right exactly if its width ends where the bin does, as far as
places go (`Fits`, `right_iff_fits`), and then the next bin starts right as
well (`starts_succ`). So the whole sweep is cut as it is meant to be exactly
if each of its bins fits, by induction on the number of the bin (`bins_iff`).

The last section is about sums over the bins. Whatever is counted for each
place, the sum over the intended bins is the sum over the sweep
(`sum_intended`), and two lists without repetition have equal sums for every
count only if they have the same members (`sum_eq_iff`). That turns a
statement about which places a bin visits into one about what it shows.
-/

namespace Cavatools.Lib.Bins

open Sweep

variable (len : Int → Int) (base bound width : Int)

/-- Where bin `i` starts: where the one before it has stopped. -/
def binStart : Nat → Int
  | 0 => base
  | i + 1 => sweepEnd len (min (binStart i + width) bound) (binStart i)

/-- The place where bin `i` is meant to start. -/
def edge (i : Nat) : Int := base + i * width

/-- Where bin `i` of `n` is meant to end; the last one takes what remains. -/
def edgeEnd (n i : Nat) : Int := if i + 1 = n then bound else edge base width (i + 1)

/-- The first place from `x` on. -/
def First (x p : Int) : Prop :=
  Visits len bound base p ∧ x ≤ p ∧ ∀ q, Visits len bound base q → x ≤ q → p ≤ q

/-- From the first place of a bin on, its width ends where the bin does, as far as places go. -/
def Fits (n i : Nat) : Prop :=
  ∀ p, First len base bound (edge base width i) p → ∀ q, Visits len bound base q → p ≤ q →
    (q < p + width ↔ q < edgeEnd base bound width n i)

/-- A bin starts with the first place from its edge on, if there is one. -/
def Starts (i : Nat) : Prop :=
  ∀ p, Visits len bound base p → (edge base width i ≤ p ↔ binStart len base bound width i ≤ p)

/-- Bin `i` visits what it is meant to. -/
def Right (n i : Nat) : Prop :=
  ∀ p, Visits len bound base p →
    (binStart len base bound width i ≤ p ∧ p < binStart len base bound width i + width ↔
      edge base width i ≤ p ∧ p < edgeEnd base bound width n i)

variable {len base bound width}

theorem binStart_boundary (i : Nat) : Boundary len bound base (binStart len base bound width i) := by
  induction i with
  | zero => exact .refl
  | succ i ih =>
    rw [binStart]
    exact ih.trans ((final_boundary _ _).mono (min_le_right _ _))

theorem starts_first {i : Nat} (hs : Starts len base bound width i) {p : Int}
    (hp : First len base bound (edge base width i) p) : p = binStart len base bound width i := by
  obtain ⟨hv, hle, hfirst⟩ := hp
  have hsp := (hs p hv).mp hle
  have hvs : Visits len bound base (binStart len base bound width i) :=
    ⟨binStart_boundary i, lt_of_le_of_lt hsp hv.2⟩
  exact le_antisymm (hfirst _ hvs ((hs _ hvs).mpr le_rfl)) hsp

/-- A bin that starts right visits what it is meant to exactly if it fits: both bounds cut the same
places off the sweep. -/
theorem right_iff_fits {n i : Nat} (hs : Starts len base bound width i) :
    Right len base bound width n i ↔ Fits len base bound width n i := by
  constructor
  · intro h p hp q hq hle
    have heq := starts_first hs hp
    rw [heq] at hle ⊢
    have hq' := h q hq
    have hedge := (hs q hq).mpr hle
    constructor
    · intro hlt
      exact (hq'.mp ⟨hle, hlt⟩).2
    · intro hlt
      exact (hq'.mpr ⟨hedge, hlt⟩).2
  · intro h p hp
    rw [hs p hp]
    refine and_congr_right ?_
    intro hle
    have hvs : Visits len bound base (binStart len base bound width i) :=
      ⟨binStart_boundary i, lt_of_le_of_lt hle hp.2⟩
    have hfirst : First len base bound (edge base width i) (binStart len base bound width i) :=
      ⟨hvs, (hs _ hvs).mpr le_rfl, fun q hq hq' => (hs q hq).mp hq'⟩
    exact h _ hfirst p hp hle

/-- A bin fits that starts at a place and ends a width behind it. -/
theorem fits_of_edge {n i : Nat} (hv : Visits len bound base (edge base width i))
    (hend : edgeEnd base bound width n i = edge base width i + width) :
    Fits len base bound width n i := by
  intro p hp q _ _
  have heq : p = edge base width i := le_antisymm (hp.2.2 _ hv le_rfl) hp.2.1
  rw [heq, hend]

section
variable (hpos : ∀ p, 0 < len p)
include hpos

theorem binStart_le (i : Nat) : binStart len base bound width i ≤ binStart len base bound width (i + 1) := by
  rw [binStart]
  exact (final_boundary _ _).le hpos

/-- The places from one start to the next lie inside the width. -/
theorem lt_binStart {i : Nat} {p : Int} (hp : Visits len bound base p)
    (hle : binStart len base bound width i ≤ p) :
    p < binStart len base bound width (i + 1) ↔ p < binStart len base bound width i + width := by
  constructor
  · intro h
    have hfrom : Visits len bound (binStart len base bound width i) p :=
      (visits_from hpos (binStart_boundary i) hp.2 hp.2).mpr ⟨hp, hle⟩
    rw [binStart] at h
    exact lt_of_lt_of_le (lt_of_lt_final hpos hfrom.1 h) (min_le_left _ _)
  · intro h
    rw [binStart]
    exact lt_of_lt_of_le (lt_min h hp.2) (le_sweepEnd hpos _ _)

/-- What bin `i` visits. -/
theorem mem_bin {i : Nat} {p : Int} :
    p ∈ sweep len (min (binStart len base bound width i + width) bound) (binStart len base bound width i) ↔
      Visits len bound base p ∧ binStart len base bound width i ≤ p ∧
        p < binStart len base bound width i + width := by
  rw [mem_sweep hpos]
  constructor
  · intro h
    have hb : p < bound := lt_of_lt_of_le h.2 (min_le_right _ _)
    obtain ⟨hv, hle⟩ := (visits_from hpos (binStart_boundary i) hb h.2).mp h
    exact ⟨hv, hle, lt_of_lt_of_le h.2 (min_le_left _ _)⟩
  · intro h
    obtain ⟨hv, hle, hlt⟩ := h
    exact (visits_from hpos (binStart_boundary i) hv.2 (lt_min hlt hv.2)).mpr ⟨hv, hle⟩

/-- Behind a bin that is right the next one starts right, unless that was the last. -/
theorem starts_succ {n i : Nat} (hi : i + 1 ≠ n) (hs : Starts len base bound width i)
    (hw : 0 ≤ width) (hr : Right len base bound width n i) : Starts len base bound width (i + 1) := by
  intro p hp
  have hend : edgeEnd base bound width n i = edge base width (i + 1) := if_neg hi
  have hedge : edge base width i ≤ edge base width (i + 1) := by
    unfold edge
    push_cast
    nlinarith
  have hp' := hr p hp
  rw [hend] at hp'
  have hle : binStart len base bound width i ≤ binStart len base bound width (i + 1) := binStart_le hpos i
  by_cases hsp : binStart len base bound width i ≤ p
  · have hlt := lt_binStart hpos hp hsp
    have hep := (hs p hp).mpr hsp
    constructor
    · intro h
      by_contra hn
      exact absurd (hp'.mp ⟨hsp, hlt.mp (not_le.mp hn)⟩).2 (not_lt.mpr h)
    · intro h
      by_contra hn
      exact absurd (hlt.mpr (hp'.mpr ⟨hep, not_le.mp hn⟩).2) (not_lt.mpr h)
  · have hep := mt (hs p hp).mp hsp
    constructor
    · intro h
      exact absurd (hedge.trans h) hep
    · intro h
      exact absurd (hle.trans h) hsp

/-- The bins are what they are meant to be exactly if each of them fits. -/
theorem bins_iff (hw : 0 ≤ width) (n : Nat) :
    (∀ i < n, Right len base bound width n i) ↔ ∀ i < n, Fits len base bound width n i := by
  have hstarts : ∀ i < n, (∀ j < i, Right len base bound width n j) → Starts len base bound width i := by
    intro i
    induction i with
    | zero =>
      intro _ _ p hp
      have hle := hp.1.le hpos
      simp [edge, binStart, hle]
    | succ i ih =>
      intro hi hr
      exact starts_succ hpos (Nat.ne_of_lt hi)
        (ih (Nat.lt_of_succ_lt hi) fun j hj => hr j (Nat.lt_succ_of_lt hj)) hw (hr i (Nat.lt_succ_self i))
  constructor
  · intro h i hi
    exact (right_iff_fits (hstarts i hi fun j hj => h j (hj.trans hi))).mp (h i hi)
  · intro h i
    induction i using Nat.strong_induction_on with
    | _ i ih =>
      intro hi
      exact (right_iff_fits (hstarts i hi fun j hj => ih j hj (hj.trans hi))).mpr (h i hi)

end

/-! ## Sums -/

variable (len base bound width) in
/-- The places that bin `i` of `n` is meant to hold. -/
def intended (n i : Nat) : List Int :=
  (sweep len bound base).filter fun p =>
    edge base width i ≤ p ∧ p < edgeEnd base bound width n i

/-- A sum up to `b`, in two parts. -/
theorem sum_split (count : Int → Int) (l : List Int) {a b : Int} (hab : a ≤ b) :
    ((l.filter fun p => p < a).map count).sum + ((l.filter fun p => a ≤ p ∧ p < b).map count).sum =
      ((l.filter fun p => p < b).map count).sum := by
  induction l with
  | nil => rfl
  | cons p l ih =>
    by_cases ha : p < a
    · have hb : p < b := by omega
      have hn : ¬(a ≤ p ∧ p < b) := by omega
      rw [List.filter_cons_of_pos (by simpa using ha), List.filter_cons_of_neg (by simpa using hn),
        List.filter_cons_of_pos (by simpa using hb), List.map_cons, List.map_cons, List.sum_cons,
        List.sum_cons, ← ih, add_assoc]
    · rw [List.filter_cons_of_neg (by simpa using ha)]
      by_cases hb : p < b
      · have hp : a ≤ p ∧ p < b := by omega
        rw [List.filter_cons_of_pos (by simpa using hp), List.filter_cons_of_pos (by simpa using hb),
          List.map_cons, List.map_cons, List.sum_cons, List.sum_cons, ← ih]
        ring
      · have hp : ¬(a ≤ p ∧ p < b) := by omega
        rw [List.filter_cons_of_neg (by simpa using hp), List.filter_cons_of_neg (by simpa using hb), ih]

/-- The bins make up the whole sweep. -/
theorem sum_intended (hpos : ∀ p, 0 < len p) (hw : 0 ≤ width) (count : Int → Int) {n : Nat}
    (hn : 0 < n) (hlast : edge base width (n - 1) ≤ bound) :
    ((List.range n).map fun i => ((intended len base bound width n i).map count).sum).sum =
      ((sweep len bound base).map count).sum := by
  have hmono (i : Nat) : edge base width i ≤ edge base width (i + 1) := by
    unfold edge
    push_cast
    nlinarith
  have hfront : ∀ k < n,
      ((List.range k).map fun i => ((intended len base bound width n i).map count).sum).sum =
        (((sweep len bound base).filter fun p => p < edge base width k).map count).sum := by
    intro k
    induction k with
    | zero =>
      intro _
      have hnone : ((sweep len bound base).filter fun p => p < edge base width 0) = [] := by
        rw [List.filter_eq_nil_iff]
        intro p hp
        have hle := ((mem_sweep hpos).mp hp).1.le hpos
        simpa [edge] using hle
      rw [hnone]
      rfl
    | succ k ih =>
      intro hk
      have hend : edgeEnd base bound width n k = edge base width (k + 1) := if_neg (Nat.ne_of_lt hk)
      rw [List.range_succ, List.map_append, List.sum_append, ih (Nat.lt_of_succ_lt hk),
        ← sum_split count _ (hmono k), ← hend]
      simp [intended]
  obtain ⟨k, rfl⟩ := Nat.exists_eq_succ_of_ne_zero (Nat.pos_iff_ne_zero.mp hn)
  have hend : edgeEnd base bound width (k + 1) k = bound := if_pos rfl
  have hall : ((sweep len bound base).filter fun p => p < bound) = sweep len bound base := by
    rw [List.filter_eq_self]
    intro p hp
    simpa using ((mem_sweep hpos).mp hp).2
  rw [List.range_succ, List.map_append, List.sum_append, hfront k (Nat.lt_succ_self k)]
  have hsum := sum_split count (sweep len bound base) hlast
  rw [Nat.succ_sub_one, hall] at hsum
  rw [← hsum]
  simp [intended, hend]

/-- Lists without repetition have the same sums, whatever is counted, if they have the same members. -/
theorem sum_eq_iff {l m : List Int} (hl : l.Nodup) (hm : m.Nodup) :
    (∀ count : Int → Int, (l.map count).sum = (m.map count).sum) ↔ ∀ p, p ∈ l ↔ p ∈ m := by
  constructor
  · intro h p
    have hcount : ∀ k : List Int, (k.map fun q => if q = p then (1 : Int) else 0).sum = k.count p := by
      intro k
      induction k with
      | nil => rfl
      | cons q k ih =>
        rw [List.map_cons, List.sum_cons, ih, List.count_cons]
        by_cases hq : q = p <;> simp [hq, add_comm]
    have hsame := h fun q => if q = p then 1 else 0
    rw [hcount, hcount, Int.natCast_inj] at hsame
    rw [← List.count_pos_iff, hsame, List.count_pos_iff]
  · intro h count
    exact (((List.perm_ext_iff_of_nodup hl hm).mpr h).map count).sum_eq

end Cavatools.Lib.Bins
