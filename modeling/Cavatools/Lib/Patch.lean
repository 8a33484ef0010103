import Mathlib

/-!
# Memory written patch by patch

A patch is a range of addresses and a value for each offset into it; writing
it changes the memory there and nowhere else (`Patch.put`, `put_of_covers`,
`put_of_not_covers`). Addresses are words and wrap, so a patch covers a place
if the distance from its start to the place, as a word, is below its length.

After a list of patches has been written in order, a place holds what the last
patch that covers it puts there, and what memory held before if there is none.
That is `putAll_eq`, by induction on the list, and it is the form in which
loaders are proved right: the question what a place of the image holds becomes
the question which patch is found last. The lemmas in front of it say when two
ways to write the same range agree: `put_congr` for patches with the same
values inside, `put_prefix` for one that is the beginning of another, and
`put_append` for one that goes on right behind another.

A stack that grows down is a list of patches each of which ends at or below
the start of the one before (`Descends`). No two of them meet
(`Descends.pairwise`), all stay between the bottom and the top
(`Descends.inside`), so everything that was written is read back
(`Descends.putAll_mem`), and outside nothing changes
(`Descends.putAll_outside`). Here the places are numbers below the size of the
address space, so that nothing wraps.
-/

namespace Cavatools.Lib

/-- `len` places from `start` up. Addresses wrap. -/
structure Patch (w : Nat) (B : Type) where
  start : BitVec w
  len : Nat
  val : Nat → B

variable {w : Nat} {B : Type}

namespace Patch

variable (b : Patch w B)

def covers (a : BitVec w) : Bool := (a - b.start).toNat < b.len

def put (m : BitVec w → B) : BitVec w → B :=
  fun a => if (a - b.start).toNat < b.len then b.val (a - b.start).toNat else m a

theorem put_of_covers {m : BitVec w → B} {a : BitVec w} (h : b.covers a = true) :
    b.put m a = b.val (a - b.start).toNat :=
  if_pos (of_decide_eq_true h)

theorem put_of_not_covers {m : BitVec w → B} {a : BitVec w} (h : b.covers a = false) : b.put m a = m a :=
  if_neg (of_decide_eq_false h)

end Patch

/-! ## Patches that meet -/

variable {s : BitVec w} {n k : Nat} {f g : Nat → B}

/-- Only the values inside a patch count. -/
theorem put_congr (h : ∀ o < n, f o = g o) (m : BitVec w → B) :
    (Patch.mk s n f).put m = (Patch.mk s n g).put m := by
  funext a
  simp only [Patch.put]
  split
  next ho => exact h _ ho
  next => rfl

/-- A patch over the beginning of another. -/
theorem put_prefix (h : k ≤ n) (m : BitVec w → B) :
    (Patch.mk s k g).put ((Patch.mk s n f).put m)
      = (Patch.mk s n fun o => if o < k then g o else f o).put m := by
  funext a
  simp only [Patch.put]
  by_cases hk : (a - s).toNat < k
  · rw [if_pos hk, if_pos (by omega), if_pos hk]
  · rw [if_neg hk, if_neg hk]

/-- A patch right behind another. -/
theorem put_append (h : n + k ≤ 2 ^ w) (m : BitVec w → B) :
    (Patch.mk (s + BitVec.ofNat w n) k g).put ((Patch.mk s n f).put m)
      = (Patch.mk s (n + k) fun o => if o < n then f o else g (o - n)).put m := by
  funext a
  simp only [Patch.put]
  have ho : (a - s).toNat < 2 ^ w := (a - s).isLt
  rw [← BitVec.sub_sub, BitVec.toNat_sub, BitVec.toNat_ofNat]
  -- inside the first patch, or behind its start by `n` or more
  by_cases hn : (a - s).toNat < n
  · have hback : ¬(2 ^ w - n % 2 ^ w + (a - s).toNat) % 2 ^ w < k := by
      rcases Nat.lt_or_ge n (2 ^ w) with hlt | hge
      · rw [Nat.mod_eq_of_lt hlt, Nat.mod_eq_of_lt (by omega)]
        omega
      · omega
    rw [if_neg hback, if_pos hn, if_pos (by omega), if_pos hn]
  · have hsub : (2 ^ w - n % 2 ^ w + (a - s).toNat) % 2 ^ w = (a - s).toNat - n := by
      rw [Nat.mod_eq_of_lt (show n < 2 ^ w by omega),
        show 2 ^ w - n + (a - s).toNat = ((a - s).toNat - n) + 2 ^ w by omega, Nat.add_mod_right,
        Nat.mod_eq_of_lt (by omega)]
    rw [hsub, if_neg hn, if_neg hn]
    by_cases hk : (a - s).toNat - n < k
    · rw [if_pos hk, if_pos (by omega)]
    · rw [if_neg hk, if_neg (by omega)]

/-! ## Lists of patches -/

def putAll (bs : List (Patch w B)) (m : BitVec w → B) : BitVec w → B :=
  bs.foldl (fun m b => b.put m) m

theorem putAll_cons (b : Patch w B) (bs : List (Patch w B)) (m : BitVec w → B) :
    putAll (b :: bs) m = putAll bs (b.put m) :=
  rfl

theorem putAll_append (bs cs : List (Patch w B)) (m : BitVec w → B) :
    putAll (bs ++ cs) m = putAll cs (putAll bs m) :=
  List.foldl_append

/-- **The last writer** of a place. -/
theorem putAll_eq (bs : List (Patch w B)) (m : BitVec w → B) (a : BitVec w) :
    putAll bs m a = match bs.reverse.find? (·.covers a) with
      | some b => b.val (a - b.start).toNat
      | none => m a := by
  -- on the list: what the later patches leave is what the first one put
  induction bs generalizing m with
  | nil => rfl
  | cons b bs ih =>
    rw [putAll_cons, ih, List.reverse_cons, List.find?_append]
    cases bs.reverse.find? (·.covers a) with
    | some c => rfl
    | none =>
      rw [Option.none_or, List.find?_singleton]
      cases hb : b.covers a with
      | true => exact b.put_of_covers hb
      | false => exact b.put_of_not_covers hb

theorem putAll_of_not_covers {bs : List (Patch w B)} {a : BitVec w} (h : ∀ b ∈ bs, b.covers a = false)
    (m : BitVec w → B) : putAll bs m a = m a := by
  rw [putAll_eq, List.find?_eq_none.mpr]
  intro b hb
  rw [h b (List.mem_reverse.mp hb)]
  exact Bool.false_ne_true

/-- Patches of one value. -/
theorem putAll_const {bs : List (Patch w B)} {c : B} (h : ∀ b ∈ bs, ∀ o, b.val o = c) (m : BitVec w → B)
    (a : BitVec w) : putAll bs m a = if bs.any (·.covers a) then c else m a := by
  induction bs generalizing m with
  | nil => rfl
  | cons b bs ih =>
    rw [putAll_cons, ih (fun d hd => h d (List.mem_cons_of_mem _ hd)), List.any_cons]
    cases hb : b.covers a with
    | true => rw [b.put_of_covers hb, h b List.mem_cons_self, Bool.true_or, if_pos rfl, ite_self]
    | false => rw [b.put_of_not_covers hb, Bool.false_or]

/-! ## A stack that grows down -/

/-- The first patch ends at `top` or below, each further one at or below the start of the
one before, and the last starts at `bottom` or above. -/
def Descends (top : Nat) (bs : List (Patch w B)) (bottom : Nat) : Prop :=
  match bs with
  | [] => bottom ≤ top
  | b :: bs => b.start.toNat + b.len ≤ top ∧ Descends b.start.toNat bs bottom

variable {bs cs : List (Patch w B)} {b : Patch w B} {top mid bottom : Nat}

theorem descends_append (hb : Descends top bs mid) (hc : Descends mid cs bottom) :
    Descends top (bs ++ cs) bottom := by
  -- on the upper part, whose last patch the lower one hangs on
  induction bs generalizing top with
  | nil =>
    cases cs with
    | nil => exact le_trans hc hb
    | cons c cs => exact ⟨le_trans hc.1 hb, hc.2⟩
  | cons b bs ih => exact ⟨hb.1, ih hb.2⟩

theorem Descends.bottom_le (h : Descends top bs bottom) : bottom ≤ top := by
  induction bs generalizing top with
  | nil => exact h
  | cons b bs ih =>
    have hrest := ih h.2
    have hend := h.1
    omega

theorem Descends.inside (h : Descends top bs bottom) (hb : b ∈ bs) :
    bottom ≤ b.start.toNat ∧ b.start.toNat + b.len ≤ top := by
  induction bs generalizing top with
  | nil => cases hb
  | cons c cs ih =>
    rcases List.mem_cons.mp hb with rfl | hb
    · exact ⟨h.2.bottom_le, h.1⟩
    · obtain ⟨hlo, hhi⟩ := ih h.2 hb
      have htop := h.1
      exact ⟨hlo, by omega⟩

/-- Every patch lies below those before it. -/
theorem Descends.pairwise (h : Descends top bs bottom) :
    bs.Pairwise fun b c => c.start.toNat + c.len ≤ b.start.toNat := by
  induction bs generalizing top with
  | nil => exact List.Pairwise.nil
  | cons b bs ih => exact List.Pairwise.cons (fun c hc => (h.2.inside hc).2) (ih h.2)

/-- A patch covers no place below its start or behind its end. -/
theorem not_covers {a : BitVec w} (hfit : b.start.toNat + b.len ≤ 2 ^ w)
    (h : a.toNat < b.start.toNat ∨ b.start.toNat + b.len ≤ a.toNat) : b.covers a = false := by
  refine decide_eq_false (not_lt.mpr ?_)
  have ha : a.toNat < 2 ^ w := a.isLt
  have hs : b.start.toNat < 2 ^ w := b.start.isLt
  rw [BitVec.toNat_sub]
  rcases h with h | h
  · rw [Nat.mod_eq_of_lt (by omega)]
    omega
  · have hsum : 2 ^ w - b.start.toNat + a.toNat = (a.toNat - b.start.toNat) + 2 ^ w := by omega
    rw [hsum, Nat.add_mod_right, Nat.mod_eq_of_lt (by omega)]
    omega

theorem toNat_of_covers {a : BitVec w} (hfit : b.start.toNat + b.len ≤ 2 ^ w) (h : b.covers a = true) :
    b.start.toNat ≤ a.toNat ∧ a.toNat < b.start.toNat + b.len := by
  constructor
  · refine not_lt.mp ?_
    intro hlt
    rw [not_covers hfit (Or.inl hlt)] at h
    cases h
  · refine not_le.mp ?_
    intro hle
    rw [not_covers hfit (Or.inr hle)] at h
    cases h

/-- The place at an offset, while addresses do not wrap. -/
theorem toNat_start_add {o : Nat} (h : b.start.toNat + o < 2 ^ w) :
    (b.start + BitVec.ofNat w o).toNat = b.start.toNat + o := by
  rw [BitVec.toNat_add, BitVec.toNat_ofNat, Nat.add_mod_mod, Nat.mod_eq_of_lt h]

/-- **What is in the stack** is read back. -/
theorem Descends.putAll_mem (h : Descends top bs bottom) (htop : top ≤ 2 ^ w) (hb : b ∈ bs) {o : Nat}
    (ho : o < b.len) (m : BitVec w → B) : putAll bs m (b.start + BitVec.ofNat w o) = b.val o := by
  have hplace : (b.start + BitVec.ofNat w o).toNat = b.start.toNat + o := by
    have hhi := (h.inside hb).2
    exact toNat_start_add (by omega)
  have hoff : (b.start + BitVec.ofNat w o - b.start).toNat = o := by
    have hhi := (h.inside hb).2
    rw [BitVec.add_comm, BitVec.add_sub_cancel, BitVec.toNat_ofNat, Nat.mod_eq_of_lt (by omega)]
  induction bs generalizing top m with
  | nil => cases hb
  | cons c cs ih =>
    rw [putAll_cons]
    rcases List.mem_cons.mp hb with rfl | hb
    · have hlater : ∀ d ∈ cs, d.covers (b.start + BitVec.ofNat w o) = false := by
        intro d hd
        have hhi := (h.2.inside hd).2
        have hhi' := h.1
        exact not_covers (by omega) (Or.inr (by omega))
      rw [putAll_of_not_covers hlater, b.put_of_covers (decide_eq_true (by rw [hoff]; exact ho)), hoff]
    · exact ih h.2 (by have := h.1; omega) hb _

/-- Outside the stack nothing changes. -/
theorem Descends.putAll_outside (h : Descends top bs bottom) (htop : top ≤ 2 ^ w) {a : BitVec w}
    (ha : ∀ b ∈ bs, a.toNat < b.start.toNat ∨ b.start.toNat + b.len ≤ a.toNat) (m : BitVec w → B) :
    putAll bs m a = m a :=
  putAll_of_not_covers (fun b hb => not_covers (by have := (h.inside hb).2; omega) (ha b hb)) m

end Cavatools.Lib
