import Cavatools.Lib.Digits

/-!
# Fields and immediates of RISC-V encodings

The ISA manual draws an encoding as a row of boxes and writes an immediate as
the pieces of the word it is made of, most significant first, with the zero
bits that follow. `immOf` is that notation, for 16-bit and 32-bit encodings
alike: a list of pieces `(hi, lo)`, a number of zeros, and whether the sign is
extended.

A decoder does not work with pieces. It moves parts of the word around with
shifts and masks, and what it makes can only be compared with the manual bit
by bit. So `immPlace` says which bit of the word each bit of the 64-bit
immediate repeats, or that it is zero: positions inside the pieces come from
where they stand, those above the highest piece repeat the sign or are zero.

`getLsbD_immOf` is the link. Its proof goes through the digits in reverse,
least significant first, because that is the order in which the positions
count (`immDigits_reverse`, `testBit_immDigits`). With it, a value that
repeats the right bit at every position is the immediate (`immOf_eq`), and the
right bits are a closed computation for each format. `immPlace_min` shortens
it: above its digits an immediate repeats one bit.

`immOf_setWidth` is for compressed instructions, whose immediate is the same
in the halfword and in any word it is the low half of.
-/

namespace Cavatools.Riscv

open Lib (digits wordOf testBit_wordOf)

/-- The digits of an immediate, most significant first: the bits `hi..lo` of the
word for each piece, then the zero bits. -/
def immDigits {n : Nat} (pieces : List (Nat × Nat)) (zeros : Nat) (w : BitVec n) : List Bool :=
  pieces.flatMap (fun p => digits (w.extractLsb' p.2 (p.1 - p.2 + 1))) ++ List.replicate zeros false

/-- How many digits the immediate has. -/
def immLen (pieces : List (Nat × Nat)) (zeros : Nat) : Nat :=
  (pieces.map fun p => p.1 - p.2 + 1).sum + zeros

/-- The immediate, sign- or zero-extended to 64 bits. -/
def immOf {n : Nat} (signed : Bool) (pieces : List (Nat × Nat)) (zeros : Nat) (w : BitVec n) :
    BitVec 64 :=
  let v := BitVec.ofNat (immLen pieces zeros) (wordOf (immDigits pieces zeros w))
  if signed then v.signExtend 64 else v.setWidth 64

/-! ## Bit by bit -/

/-- Where the digits stand in the word, least significant first. -/
def immSources (pieces : List (Nat × Nat)) (zeros : Nat) : List (Option Nat) :=
  List.replicate zeros none ++
    pieces.reverse.flatMap fun p => (List.range (p.1 - p.2 + 1)).map fun i => some (p.2 + i)

/-- The bit of the word that bit `k` of the 64-bit immediate repeats. -/
def immPlace (signed : Bool) (pieces : List (Nat × Nat)) (zeros : Nat) (k : Nat) : Option Nat :=
  if k < immLen pieces zeros then (immSources pieces zeros)[k]?.join
  else if signed then (immSources pieces zeros)[immLen pieces zeros - 1]?.join
  else none

/-- From position `n` on an immediate of at most `n + 1` digits repeats one bit. -/
theorem immPlace_min {signed : Bool} {pieces : List (Nat × Nat)} {zeros n : Nat}
    (hlen : immLen pieces zeros ≤ n + 1) (hsign : signed = true ∨ immLen pieces zeros ≤ n) (k : Nat) :
    immPlace signed pieces zeros (min k n) = immPlace signed pieces zeros k := by
  rcases Nat.le_total k n with hk | hk
  · rw [Nat.min_eq_left hk]
  rw [Nat.min_eq_right hk]
  rcases Nat.eq_or_lt_of_le hk with rfl | hlt
  · rfl
  have hbeyond : ¬ k < immLen pieces zeros := by omega
  by_cases hn : n < immLen pieces zeros
  · -- All `n + 1` digits are there, so the last of them is the sign.
    have hsigned : signed = true := hsign.resolve_right (by omega)
    have hlast : immLen pieces zeros - 1 = n := by omega
    unfold immPlace
    rw [if_pos hn, if_neg hbeyond, if_pos hsigned, hlast]
  · unfold immPlace
    rw [if_neg hn, if_neg hbeyond]

/-- The digits, least significant first, are the bits of the word at the sources. -/
theorem immDigits_reverse {n : Nat} (pieces : List (Nat × Nat)) (zeros : Nat) (w : BitVec n) :
    (immDigits pieces zeros w).reverse
      = (immSources pieces zeros).map fun s => s.any w.getLsbD := by
  unfold immDigits immSources
  rw [List.reverse_append, List.map_append, List.reverse_flatMap,
    List.map_flatMap]
  congr 1
  · simp
  · refine List.flatMap_congr ?_
    intro p _
    rw [Function.comp_apply, digits, ← List.map_reverse, List.reverse_reverse, List.map_map]
    refine List.map_congr_left ?_
    intro i hi
    simp [List.mem_range.mp hi]

theorem testBit_immDigits {n : Nat} (pieces : List (Nat × Nat)) (zeros : Nat) (w : BitVec n) (k : Nat) :
    (wordOf (immDigits pieces zeros w)).testBit k
      = (immSources pieces zeros)[k]?.join.any w.getLsbD := by
  rw [testBit_wordOf, immDigits_reverse, List.getD_eq_getElem?_getD, List.getElem?_map]
  cases (immSources pieces zeros)[k]? with
  | none => rfl
  | some s => rfl

/-- **The bits of an immediate.** Each is the bit of the word at its place, or zero. -/
theorem getLsbD_immOf {n : Nat} (signed : Bool) (pieces : List (Nat × Nat)) (zeros : Nat)
    (w : BitVec n) (hpos : 0 < immLen pieces zeros) {k : Nat} (hk : k < 64) :
    (immOf signed pieces zeros w).getLsbD k
      = (immPlace signed pieces zeros k).any w.getLsbD := by
  have hbit (j : Nat) (hj : j < immLen pieces zeros) :
      (BitVec.ofNat (immLen pieces zeros) (wordOf (immDigits pieces zeros w))).getLsbD j
        = (immSources pieces zeros)[j]?.join.any w.getLsbD := by
    rw [BitVec.getLsbD_ofNat, testBit_immDigits]
    simp [hj]
  unfold immOf immPlace
  cases signed with
  | true =>
    rw [if_pos rfl, BitVec.getLsbD_signExtend, BitVec.msb_eq_getLsbD_last]
    by_cases hlt : k < immLen pieces zeros
    · rw [if_pos hlt, if_pos hlt, hbit k hlt]
      simp [hk]
    · rw [if_neg hlt, if_neg hlt, if_pos rfl, hbit _ (by omega)]
      simp [hk]
  | false =>
    rw [if_neg (by simp), BitVec.getLsbD_setWidth]
    by_cases hlt : k < immLen pieces zeros
    · rw [if_pos hlt, hbit k hlt]
      simp [hk]
    · rw [if_neg hlt, if_neg (by simp), BitVec.getLsbD_of_ge _ _ (by omega)]
      simp

/-- The immediate of a halfword is that of any word it is the low half of. -/
theorem immOf_setWidth {n m : Nat} (signed : Bool) {pieces : List (Nat × Nat)} (zeros : Nat)
    (w : BitVec n) (hlow : ∀ p ∈ pieces, p.2 + (p.1 - p.2 + 1) ≤ m) :
    immOf signed pieces zeros (w.setWidth m) = immOf signed pieces zeros w := by
  have hd : immDigits pieces zeros (w.setWidth m) = immDigits pieces zeros w := by
    unfold immDigits
    congr 1
    refine List.flatMap_congr ?_
    intro p hp
    have hle := hlow p hp
    congr 1
    apply BitVec.eq_of_getLsbD_eq
    intro i hi
    rw [BitVec.getLsbD_extractLsb', BitVec.getLsbD_extractLsb', BitVec.getLsbD_setWidth]
    simp [show p.2 + i < m by omega]
  unfold immOf
  rw [hd]

/-- A value that repeats the right bit at every position is the immediate. -/
theorem immOf_eq {n : Nat} {signed : Bool} {pieces : List (Nat × Nat)} {zeros : Nat} {w : BitVec n}
    (hpos : 0 < immLen pieces zeros) {v : BitVec 64}
    (h : ∀ k < 64, v.getLsbD k = (immPlace signed pieces zeros k).any w.getLsbD) :
    v = immOf signed pieces zeros w := by
  apply BitVec.eq_of_getLsbD_eq
  intro k hk
  rw [h k hk, getLsbD_immOf _ _ _ _ hpos hk]

end Cavatools.Riscv
