import Mathlib

/-!
# Binary numerals and the fields of a 32-bit `int`

Small theories that generators of decoders rest on. They take an instruction
word apart in two notations, as a row of binary digits and by the shifts and
masks of C, and this file says that both are about the same bits.

The first part is about numerals written leftmost digit first: `digits` are
those of a word, `wordOf` is the number that a row of them stands for. A digit
of the row is a bit of the number, counted from the right (`testBit_wordOf`).

The second part is about fields of a 32-bit `int`. It gives the bits of what C
makes of `(1 << len) - 1` (`getLsbD_mask`, for the lengths where that shift
does not overflow), of an unsigned field moved down and masked
(`getLsbD_shiftField`), and of a signed field moved up and then down again
(`getLsbD_signedField`). Everything is stated bit by bit, so that two
expressions are compared by comparing one bit of each.

The last part has the words that a sign extension comes from: its low bits are
that word (`setWidth_signExtend`), so it determines it (`signExtend_inj`).
-/

namespace Cavatools.Lib

/-! ## Numerals -/

/-- The digits of a word, leftmost first. -/
def digits {n : Nat} (v : BitVec n) : List Bool := (List.range n).reverse.map v.getLsbD

/-- The number written by a list of binary digits, leftmost first. -/
def wordOf (ds : List Bool) : Nat := ds.foldl (fun w d => 2 * w + d.toNat) 0

theorem wordOf_append (ds : List Bool) (d : Bool) :
    wordOf (ds ++ [d]) = 2 * wordOf ds + d.toNat := by
  simp [wordOf]

/-- The bits of a numeral are its digits from the right. The induction is from the end of the row,
which is the lowest bit. -/
theorem testBit_wordOf (ds : List Bool) (i : Nat) :
    (wordOf ds).testBit i = ds.reverse.getD i false := by
  induction ds using List.reverseRecOn generalizing i with
  | nil => simp [wordOf]
  | append_singleton ds d ih =>
    rw [wordOf_append, List.reverse_append]
    cases i with
    | zero => cases d <;> simp [Nat.testBit_zero, Nat.add_mod]
    | succ i =>
      have hdiv : (2 * wordOf ds + d.toNat) / 2 = wordOf ds := by
        cases d
        · simp
        · simp only [Bool.toNat_true]
          omega
      rw [Nat.testBit_succ, hdiv, ih]
      rfl

/-! ## Fields of an `int` -/

/-- `(1 << len) - 1`, for the lengths where the shift does not overflow. -/
theorem getLsbD_mask {len i : Nat} (hlen : len ≤ 30) :
    (1#32 <<< len - 1#32).getLsbD i = decide (i < len) := by
  have h : (1#32 <<< len - 1#32) = BitVec.ofNat 32 (2 ^ len - 1) := by
    apply BitVec.eq_of_toNat_eq
    have hp : 2 ^ len < 2 ^ 32 := Nat.pow_lt_pow_right (by omega) (by omega)
    have hpos : 0 < 2 ^ len := Nat.pow_pos (by omega)
    rw [BitVec.toNat_sub, BitVec.toNat_shiftLeft, BitVec.toNat_ofNat, BitVec.toNat_ofNat,
      Nat.shiftLeft_eq]
    omega
  rw [h, BitVec.getLsbD_ofNat, Nat.testBit_two_pow_sub_one]
  by_cases hi : i < len
  · simp [hi]
    omega
  · simp [hi]

/-- `(b >> lo) & ((1 << len) - 1)` holds the bits `lo, …, lo+len-1` of `b`. -/
theorem getLsbD_shiftField (b : BitVec 32) {lo len i : Nat} (hlen : len ≤ 30) (hb : lo + len ≤ 32) :
    (b.sshiftRight lo &&& (1#32 <<< len - 1#32)).getLsbD i
      = (decide (i < len) && b.getLsbD (lo + i)) := by
  rw [BitVec.getLsbD_and, getLsbD_mask hlen, BitVec.getLsbD_sshiftRight]
  by_cases hi : i < len
  · rw [if_pos (by omega)]
    simp [hi]
    omega
  · simp [hi]

/-- `b << (32-lo-len) >> (32-len)` holds the same bits and repeats the last. -/
theorem getLsbD_signedField (b : BitVec 32) {lo len i : Nat} (h0 : 0 < len) (hb : lo + len ≤ 32) :
    ((b <<< (32 - lo - len)).sshiftRight (32 - len)).getLsbD i
      = (decide (i < 32) && b.getLsbD (lo + min i (len - 1))) := by
  rw [BitVec.getLsbD_sshiftRight, BitVec.msb_eq_getLsbD_last, BitVec.getLsbD_shiftLeft,
    BitVec.getLsbD_shiftLeft]
  by_cases hi : i < 32
  · by_cases hs : 32 - len + i < 32
    · rw [if_pos hs, Nat.min_eq_left (by omega)]
      simp [hi, hs, show ¬ 32 - len + i < 32 - lo - len by omega,
        show 32 - len + i - (32 - lo - len) = lo + i by omega]
    · rw [if_neg hs, Nat.min_eq_right (by omega)]
      simp [hi, show ¬ 31 < 32 - lo - len by omega,
        show 31 - (32 - lo - len) = lo + (len - 1) by omega]
  · simp [hi]

/-! ## Sign extension -/

/-- The low bits of a sign extension are the word it extends. -/
theorem setWidth_signExtend {w v : Nat} (h : w ≤ v) (x : BitVec w) : (x.signExtend v).setWidth w = x := by
  apply BitVec.eq_of_getLsbD_eq
  intro k hk
  rw [BitVec.getLsbD_setWidth, BitVec.getLsbD_signExtend]
  simp [hk, show k < v by omega]

theorem signExtend_inj {w v : Nat} (h : w ≤ v) {x y : BitVec w} :
    x.signExtend v = y.signExtend v ↔ x = y := by
  constructor
  · intro heq
    rw [← setWidth_signExtend h x, heq, setWidth_signExtend h]
  · intro heq
    rw [heq]

end Cavatools.Lib
