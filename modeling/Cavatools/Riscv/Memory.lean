import Mathlib

/-!
# Byte memory

The memory of a RISC-V machine is a byte for every 64-bit address, a function
from addresses to bytes. A value of `n` bytes is read and written least
significant byte first, and addresses wrap: the bytes of a value that begins
at the last address go on at the first.

`load` and `store` are the two accesses, for every `n`. A value is determined
by its bytes (`eq_of_bytes`), each byte of a loaded value is one place of
memory (`load_byte`), so a load depends on those places only (`load_congr`),
and what has been stored is loaded again (`load_store`).
-/

namespace Cavatools.Riscv

abbrev Mem := BitVec 64 → BitVec 8

namespace Mem

/-- The `n` bytes from `a` up. -/
def load (m : Mem) (a : BitVec 64) : (n : Nat) → BitVec (8 * n)
  | 0 => 0#0
  | n + 1 => load m (a + 1) n ++ m a

def store (m : Mem) (a : BitVec 64) (n : Nat) (v : BitVec (8 * n)) : Mem :=
  fun b => if (b - a).toNat < n then v.extractLsb' (8 * (b - a).toNat) 8 else m b

theorem store_of_lt {m : Mem} {a b : BitVec 64} {n : Nat} {v : BitVec (8 * n)}
    (h : (b - a).toNat < n) : m.store a n v b = v.extractLsb' (8 * (b - a).toNat) 8 :=
  if_pos h

/-- Each byte of a loaded value is a place of memory. -/
theorem load_byte (m : Mem) (a : BitVec 64) {n i : Nat} (h : i < n) :
    (m.load a n).extractLsb' (8 * i) 8 = m (a + BitVec.ofNat 64 i) := by
  induction n generalizing a i with
  | zero => omega
  | succ n ih =>
    rw [load]
    cases i with
    | zero =>
      apply BitVec.eq_of_getLsbD_eq
      intro j hj
      simp [BitVec.getLsbD_append, hj]
    | succ i =>
      have hrest : (m.load (a + 1) n ++ m a).extractLsb' (8 * (i + 1)) 8
          = (m.load (a + 1) n).extractLsb' (8 * i) 8 := by
        apply BitVec.eq_of_getLsbD_eq
        intro j hj
        have hge : ¬8 * (i + 1) + j < 8 := by omega
        have hsub : 8 * (i + 1) + j - 8 = 8 * i + j := by omega
        simp [BitVec.getLsbD_append, hj, hge, hsub]
      rw [hrest, ih (a + 1) (by omega), BitVec.add_assoc, Nat.add_comm i 1, BitVec.ofNat_add]
      rfl

/-- A value of `n` bytes is its bytes. -/
theorem eq_of_bytes {n : Nat} {v v' : BitVec (8 * n)}
    (h : ∀ i < n, v.extractLsb' (8 * i) 8 = v'.extractLsb' (8 * i) 8) : v = v' := by
  apply BitVec.eq_of_getLsbD_eq
  intro j hj
  have hbit := congrArg (fun b => b.getLsbD (j % 8)) (h (j / 8) (by omega))
  simpa [Nat.mod_lt, Nat.div_add_mod] using hbit

theorem load_congr {m m' : Mem} {a : BitVec 64} {n : Nat}
    (h : ∀ i < n, m (a + BitVec.ofNat 64 i) = m' (a + BitVec.ofNat 64 i)) : m.load a n = m'.load a n := by
  refine eq_of_bytes ?_
  intro i hi
  rw [load_byte _ a hi, load_byte _ a hi, h i hi]

/-- What has been stored is loaded. -/
theorem load_store (m : Mem) (a : BitVec 64) {n : Nat} (hn : n ≤ 2 ^ 64) (v : BitVec (8 * n)) :
    (m.store a n v).load a n = v := by
  refine eq_of_bytes ?_
  intro i hi
  have hoff : (a + BitVec.ofNat 64 i - a).toNat = i := by
    rw [BitVec.add_comm, BitVec.add_sub_cancel, BitVec.toNat_ofNat, Nat.mod_eq_of_lt (by omega)]
  rw [load_byte _ a hi, store_of_lt (by omega), hoff]

end Mem

end Cavatools.Riscv
