import Cavatools.Lib.Patch

/-!
# Ranges that have been moved

What a list of ranges says of a place, and what it says when all of them have
been moved up by the same amount. A program that is loaded somewhere else than
where its tables say is of this kind: the tables are right of the places as
they were, and the question is when they are right of the moved ones too.

The hull of a list of ranges is the pair of the lowest beginning and the
highest end (`hull`). Numbers do not wrap, so a hull that has been moved is
the old one only if there is nothing in it, and ends that were taken modulo
the number of places are the ends only if all are places (`hull_mod_iff`,
`hull_moved_iff`). In the same way no list of ranges covers what lies above
everything that it covers (`false_of_ascent`): what can always be moved up is
not bounded.

The places of a word do wrap, and there a list of patches can be its own
image: if it covers all places, or none. `covered_moved` says that there is
nothing else. If the patches cover what they cover when moved by `b`, and more
multiples of `b` differ than there are patches, then each covered place has
all its translates covered (`covered_mul`); each run of covered places ends at
the last place of a patch (`end_of_covered`), and there are too few of these
for the translates of an end to be ends as well.
-/

namespace Cavatools.Lib

variable {ι : Type} {l : List ι} {lo hi : ι → ℕ}

/-! ## The hull -/

/-- From the lowest beginning to the highest end. -/
def hull (l : List ι) (lo hi : ι → ℕ) : Set ℕ := {a | (∃ x ∈ l, lo x ≤ a) ∧ ∃ x ∈ l, a < hi x}

theorem hull_eq_empty_iff : hull l lo hi = ∅ ↔ ∀ x ∈ l, ∀ y ∈ l, hi x ≤ lo y := by
  rw [Set.eq_empty_iff_forall_notMem]
  constructor
  · intro h x hx y hy
    by_contra hlt
    exact h (lo y) ⟨⟨y, hy, le_rfl⟩, x, hx, not_le.mp hlt⟩
  · intro h a ha
    obtain ⟨⟨y, hy, hlo⟩, x, hx, hhi⟩ := ha
    exact absurd (h x hx y hy) (not_le.mpr (lt_of_le_of_lt hlo hhi))

/-- Ends that are taken modulo the number of places are the ends if they are places. -/
theorem hull_mod_iff {B : ℕ} (hlo : ∀ x ∈ l, lo x < B) :
    hull l lo (hi · % B) = hull l lo hi ↔ ∀ x ∈ l, hi x < B := by
  constructor
  · intro h x hx
    by_contra hge
    have hB := hlo x hx
    -- the last place, which is before an end that has wrapped
    have hlast : B - 1 ∈ hull l lo hi := ⟨⟨x, hx, by omega⟩, x, hx, by omega⟩
    rw [← h] at hlast
    obtain ⟨-, y, -, hy⟩ := hlast
    have hbelow : B - 1 < hi y % B := hy
    have hmod : hi y % B < B := Nat.mod_lt _ (by omega)
    omega
  · intro h
    ext a
    refine and_congr_right fun _ => exists_congr fun x => and_congr_right fun hx => ?_
    show a < hi x % B ↔ a < hi x
    rw [Nat.mod_eq_of_lt (h x hx)]

/-- A hull with some of its ends too low, and the hull moved up. -/
theorem hull_moved_iff {hi' : ι → ℕ} (hle : ∀ x ∈ l, hi' x ≤ hi x) {b : ℕ} (hb : 0 < b) :
    hull l lo hi' = hull l (lo · + b) (hi · + b) ↔ ∀ x ∈ l, ∀ y ∈ l, hi x ≤ lo y := by
  constructor
  · intro h x hx y hy
    by_contra hlt
    have hne : ∃ a, a ∈ hull l (lo · + b) (hi · + b) :=
      ⟨lo y + b, ⟨y, hy, le_rfl⟩, x, hx, Nat.add_lt_add_right (not_le.mp hlt) b⟩
    classical
    obtain ⟨m, hm, hleast⟩ : ∃ m, m ∈ hull l (lo · + b) (hi · + b) ∧
        ∀ k < m, k ∉ hull l (lo · + b) (hi · + b) :=
      ⟨Nat.find hne, Nat.find_spec hne, fun k hk => Nat.find_min hne hk⟩
    -- the range that begins at its lowest place, or below, begins in the other hull
    obtain ⟨-, u, hu, hend⟩ := h.symm.subset hm
    obtain ⟨⟨z, hz, hbegin⟩, -⟩ := hm
    have hlow : lo z + b ≤ m := hbegin
    have hbelow : lo z ∈ hull l lo hi' := ⟨⟨z, hz, le_rfl⟩, u, hu, by omega⟩
    exact hleast (lo z) (by omega) (h.subset hbelow)
  · intro h
    have hempty : hull l lo hi' = ∅ :=
      hull_eq_empty_iff.mpr fun x hx y hy => (hle x hx).trans (h x hx y hy)
    rw [hempty, eq_comm]
    exact hull_eq_empty_iff.mpr fun x hx y hy => Nat.add_le_add_right (h x hx y hy) b

/-! ## Going up -/

/-- What can always be moved up is not bounded. -/
theorem false_of_ascent {P : ℕ → Prop} {b B : ℕ} (hb : 0 < b) (hstep : ∀ a, P a → a < B ∧ P (a + b)) {a : ℕ}
    (ha : P a) : False := by
  -- on what is left below the bound
  induction hn : B - a using Nat.strong_induction_on generalizing a with
  | _ n ih =>
    obtain ⟨hlt, hnext⟩ := hstep a ha
    exact ih (B - (a + b)) (by omega) hnext rfl

/-! ## Around -/

variable {w : ℕ} {B : Type}

/-- Some patch of the list covers the place. -/
def covered (bs : List (Patch w B)) (a : BitVec w) : Bool := bs.any (·.covers a)

/-- The last place of what is covered is the last place of a patch. -/
theorem end_of_covered {bs : List (Patch w B)} {a : BitVec w} (ha : covered bs a = true)
    (hnext : covered bs (a + 1) = false) : a + 1 ∈ bs.map fun b => b.start + BitVec.ofNat w b.len := by
  obtain ⟨b, hb, hcovers⟩ := List.any_eq_true.mp ha
  have hin : (a - b.start).toNat < b.len := of_decide_eq_true hcovers
  have hout : ¬(a + 1 - b.start).toNat < b.len := by
    intro h
    rw [covered, List.any_eq_false] at hnext
    exact hnext b hb (decide_eq_true h)
  have hsplit : a + 1 - b.start = (a - b.start) + 1 := by ring
  rw [hsplit, BitVec.toNat_add] at hout
  have hlt : (a - b.start).toNat < 2 ^ w := (a - b.start).isLt
  have hone : (1 : BitVec w).toNat = 1 % 2 ^ w := BitVec.toNat_ofNat 1 w
  rw [hone, Nat.add_mod_mod] at hout
  -- one more place does not wrap, or it would be in the patch
  have hsmall : (a - b.start).toNat + 1 < 2 ^ w := by
    by_contra hge
    have hwrap : (a - b.start).toNat + 1 = 2 ^ w := by omega
    rw [hwrap, Nat.mod_self] at hout
    omega
  rw [Nat.mod_eq_of_lt hsmall] at hout
  have hlen : b.len = (a - b.start).toNat + 1 := by omega
  refine List.mem_map.mpr ⟨b, hb, ?_⟩
  rw [hlen, BitVec.ofNat_add, BitVec.ofNat_toNat, BitVec.setWidth_eq]
  show b.start + ((a - b.start) + 1) = a + 1
  ring

section
variable {bs : List (Patch w B)} {b : BitVec w} (hmoved : ∀ a, covered bs (a + b) = covered bs a)
include hmoved

/-- What is covered stays covered at every multiple of the distance. -/
theorem covered_mul (a : BitVec w) (k : ℕ) : covered bs (a + b * BitVec.ofNat w k) = covered bs a := by
  induction k with
  | zero =>
    have hzero : a + b * BitVec.ofNat w 0 = a := by
      show a + b * 0 = a
      ring
    rw [hzero]
  | succ k ih =>
    have hsucc : a + b * BitVec.ofNat w (k + 1) = a + b * BitVec.ofNat w k + b := by
      rw [BitVec.ofNat_add]
      show a + b * (BitVec.ofNat w k + 1) = _
      ring
    rw [hsucc, hmoved, ih]

/-- Patches that cover what they cover when all are moved by `b`, of which more multiples differ than
there are patches, cover nothing, or every place. -/
theorem covered_moved
    (hdiffer : ∀ j ≤ bs.length, ∀ k ≤ bs.length, b * BitVec.ofNat w j = b * BitVec.ofNat w k → j = k) :
    (∀ a, covered bs a = false) ∨ ∀ a, covered bs a = true := by
  by_cases hend : ∃ a, covered bs a = true ∧ covered bs (a + 1) = false
  · -- then each multiple of `b` from there is the end of another patch
    obtain ⟨a, ha, hnext⟩ := hend
    have hnodup : ((List.range (bs.length + 1)).map fun k => a + 1 + b * BitVec.ofNat w k).Nodup := by
      refine List.Nodup.map_on ?_ List.nodup_range
      intro j hj k hk heq
      have hj' := List.mem_range.mp hj
      have hk' := List.mem_range.mp hk
      exact hdiffer j (by omega) k (by omega) (add_left_cancel heq)
    have hsubset : ((List.range (bs.length + 1)).map fun k => a + 1 + b * BitVec.ofNat w k) ⊆
        bs.map fun b => b.start + BitVec.ofNat w b.len := by
      intro c hc
      obtain ⟨k, -, rfl⟩ := List.mem_map.mp hc
      have hhere := (covered_mul hmoved a k).trans ha
      have hthere := (covered_mul hmoved (a + 1) k).trans hnext
      rw [add_right_comm a 1] at hthere ⊢
      exact end_of_covered hhere hthere
    have hlength := (List.subperm_of_subset hnodup hsubset).length_le
    rw [List.length_map, List.length_map, List.length_range] at hlength
    omega
  · -- nothing ends, so from one place all others are reached
    by_cases hany : ∃ a, covered bs a = true
    · right
      obtain ⟨a, ha⟩ := hany
      have hup (n : ℕ) : covered bs (a + BitVec.ofNat w n) = true := by
        induction n with
        | zero =>
          rw [show a + BitVec.ofNat w 0 = a from add_zero a]
          exact ha
        | succ n ih =>
          by_contra hout
          refine hend ⟨a + BitVec.ofNat w n, ih, ?_⟩
          rw [add_assoc]
          rw [BitVec.ofNat_add] at hout
          exact eq_false_of_ne_true hout
      intro c
      have hc := hup (c - a).toNat
      rw [BitVec.ofNat_toNat, BitVec.setWidth_eq, add_sub_cancel] at hc
      exact hc
    · left
      intro a
      exact eq_false_of_ne_true fun ha => hany ⟨a, ha⟩

end

end Cavatools.Lib
