import Cavatools.Uspike.GdbSession

/-!
# The addresses of the debugger

`RcvHexInt` collects the digits of a number in an `int`, by shifting and
or-ing, and widens it. So of a number it keeps 32 bits and takes the upper one
for a sign.

`hexValue` is the number that hexadecimal digits write, without a bound.
`RcvHexInt_eq` says that the number arrives with its low 32 bits and their
sign, and that the reading stops at the first character that is no digit, in
either case of the letters; the digits are shifted in one by one, so the
induction carries the number of the digits before (`rcvDigits_eq`). Widening
an `int` keeps exactly the numbers within 2 GiB of 0 (`Near`), of which those
below `2^63` are the ones below `2^31` (`widen_iff`).

The rest is about who reads numbers so: the argument of `s` and `c`, and the
address and the length of `m` and `M`, whose parsers agree (`parseM_eq`).
`address_exact_iff` states for all of them that a number below `2^63` arrives
as it was sent exactly if it is below `2^31`. The host's own addresses, such
as those of a stack or of what `mmap` returns, are above.
-/

namespace Cavatools.Uspike.Gdblink

/-- The number that hexadecimal digits write, behind a number before them. -/
def hexValueFrom (n : Nat) (ds : Input) : Nat := ds.foldl (fun n c => 16 * n + (hexDigit c).getD 0) n

def hexValue (ds : Input) : Nat := hexValueFrom 0 ds

/-- Hexadecimal digits and nothing else. -/
def IsHex (ds : Input) : Prop := ∀ c ∈ ds, (hexDigit c).isSome = true

instance (ds : Input) : Decidable (IsHex ds) := inferInstanceAs (Decidable (∀ c ∈ ds, _))

/-- What is not read as a digit: another character, or the NUL. -/
def EndsHex (rest : Input) : Prop := hexDigit (peek rest) = none

instance (rest : Input) : Decidable (EndsHex rest) := inferInstanceAs (Decidable (_ = none))

/-! ## The digits -/

/-- `value <<= 4; value |= digit`. -/
theorem shift_or (n : Nat) {digit : Nat} (hd : digit < 16) :
    BitVec.ofNat 32 n <<< 4 ||| BitVec.ofNat 32 digit = BitVec.ofNat 32 (16 * n + digit) := by
  apply BitVec.eq_of_toNat_eq
  rw [BitVec.toNat_or, BitVec.toNat_shiftLeft, BitVec.toNat_ofNat, BitVec.toNat_ofNat, BitVec.toNat_ofNat,
    Nat.shiftLeft_eq, Nat.mod_eq_of_lt (show digit < 2 ^ 32 by omega)]
  have hhigh : n % 2 ^ 32 * 2 ^ 4 % 2 ^ 32 = 2 ^ 4 * (n % 2 ^ 28) := by omega
  rw [hhigh, ← Nat.two_pow_add_eq_or_of_lt (show digit < 2 ^ 4 by omega)]
  omega

theorem rcvDigits_ends {rest : Input} (hrest : EndsHex rest) (value : BitVec 32) :
    rcvDigits value rest = (value, rest) := by
  cases rest with
  | nil => rfl
  | cons c rest =>
    have hc : hexDigit c = none := hrest
    rw [rcvDigits, hc]

/-- The digits shift into an `int`, up to the first that is none. -/
theorem rcvDigits_eq {ds rest : Input} (hds : IsHex ds) (hrest : EndsHex rest) (n : Nat) :
    rcvDigits (BitVec.ofNat 32 n) (ds ++ rest) = (BitVec.ofNat 32 (hexValueFrom n ds), rest) := by
  induction ds generalizing n with
  | nil =>
    rw [List.nil_append, rcvDigits_ends hrest]
    rfl
  | cons c ds ih =>
    obtain ⟨hc, hds⟩ := List.forall_mem_cons.mp hds
    obtain ⟨digit, hdigit⟩ := Option.isSome_iff_exists.mp hc
    rw [List.cons_append, rcvDigits, hdigit]
    dsimp only
    rw [shift_or n (hexDigit_spec c digit hdigit).1, ih hds]
    unfold hexValueFrom
    rw [List.foldl_cons, hdigit]
    rfl

/-- A number arrives with the low 32 bits that it has, and their sign. -/
theorem RcvHexInt_eq {ds rest : Input} (hds : IsHex ds) (hne : ds ≠ []) (hrest : EndsHex rest) :
    RcvHexInt (ds ++ rest) = some ((BitVec.ofNat 32 (hexValue ds)).signExtend 64, rest) := by
  cases ds with
  | nil => exact absurd rfl hne
  | cons c ds =>
    obtain ⟨hc, hds⟩ := List.forall_mem_cons.mp hds
    obtain ⟨digit, hdigit⟩ := Option.isSome_iff_exists.mp hc
    unfold RcvHexInt RcvHexDigit
    rw [List.cons_append]
    dsimp only
    rw [hdigit, Option.map_some]
    dsimp only
    rw [rcvDigits_eq hds hrest]
    unfold hexValue hexValueFrom
    rw [List.foldl_cons, hdigit, Option.getD_some, Nat.mul_zero, Nat.zero_add]

/-- Within 2 GiB of 0, in either direction. -/
def Near (v : Nat) : Prop := (v + 2 ^ 31) % 2 ^ 64 < 2 ^ 32

instance (v : Nat) : Decidable (Near v) := inferInstanceAs (Decidable (_ < _))

/-- Widening an `int` keeps the numbers near 0. -/
theorem widen_near (v : Nat) : (BitVec.ofNat 32 v).signExtend 64 = BitVec.ofNat 64 v ↔ Near v := by
  rw [← BitVec.toInt_inj, BitVec.toInt_signExtend_of_le (by decide), BitVec.toInt_eq_toNat_cond,
    BitVec.toInt_eq_toNat_cond, BitVec.toNat_ofNat, BitVec.toNat_ofNat, Near]
  split <;> split <;> omega

/-- Of the numbers below `2^63` those below `2^31` survive. -/
theorem widen_iff {v : Nat} (hv : v < 2 ^ 63) :
    (BitVec.ofNat 32 v).signExtend 64 = BitVec.ofNat 64 v ↔ v < 2 ^ 31 := by
  rw [widen_near, Near]
  omega

/-! ## The commands -/

theorem RcvHexInt_iff {ds rest : Input} (hds : IsHex ds) (hne : ds ≠ []) (hrest : EndsHex rest)
    (hv : hexValue ds < 2 ^ 63) :
    RcvHexInt (ds ++ rest) = some (BitVec.ofNat 64 (hexValue ds), rest) ↔ hexValue ds < 2 ^ 31 := by
  rw [RcvHexInt_eq hds hne hrest, ← widen_iff hv]
  simp

/-- A packet with digits does not end before them. -/
theorem peek_ne_zero {ds : Input} (hds : IsHex ds) (hne : ds ≠ []) (rest : Input) :
    peek (ds ++ rest) ≠ 0 := by
  cases ds with
  | nil => exact absurd rfl hne
  | cons c ds =>
    intro h0
    have hc := (List.forall_mem_cons.mp hds).1
    have hzero : c = 0 := h0
    rw [hzero] at hc
    exact absurd hc (by decide)

theorem endsHex_cons {c : BitVec 8} (hc : hexDigit c = none) (rest : Input) : EndsHex (c :: rest) := hc

theorem parseAddrLength_eq {ds more rest : Input} {length : Long} (hds : IsHex ds) (hne : ds ≠ [])
    (hmore : RcvHexInt more = some (length, rest)) :
    parseAddrLength (ds ++ chr ',' :: more) =
      some ((BitVec.ofNat 32 (hexValue ds)).signExtend 64, (length.setWidth 32).toInt, rest) := by
  have hcomma : ¬peek (chr ',' :: more) ≠ chr ',' := not_not.mpr rfl
  unfold parseAddrLength
  rw [RcvHexInt_eq hds hne (endsHex_cons (by decide) more)]
  dsimp only
  rw [if_neg hcomma, List.tail_cons, hmore]
  rfl

/-- `M` reads its address and length as `m` does. -/
theorem parseM_eq (inp : Input) : parseM inp = (parseAddrLength inp).bind fun (addr, length, rest) =>
    if peek rest ≠ chr ':' then none else some (addr, length, rest.tail) := by
  unfold parseM parseAddrLength
  cases RcvHexInt inp with
  | none => rfl
  | some p =>
    dsimp only
    split
    · rfl
    · cases RcvHexInt p.2.tail <;> rfl

/-- **Addresses arrive** exactly if they are below `2^31`: as the number that `RcvHexInt` stores, as
the pc of `s` and `c`, and as the address that `m` and `M` go to. The reading stops behind the
digits in any case. -/
theorem address_exact_iff {ds : Input} (hds : IsHex ds) (hne : ds ≠ []) (hv : hexValue ds < 2 ^ 63) :
    (∀ rest, EndsHex rest → (∃ value, RcvHexInt (ds ++ rest) = some (value, rest)) ∧
      (RcvHexInt (ds ++ rest) = some (BitVec.ofNat 64 (hexValue ds), rest) ↔ hexValue ds < 2 ^ 31)) ∧
    (∀ r rest, EndsHex rest →
      (commandResume r (ds ++ rest) = ({ r with gdb_pc := BitVec.ofNat 64 (hexValue ds) }, none) ↔
        hexValue ds < 2 ^ 31)) ∧
    (∀ more length rest, RcvHexInt more = some (length, rest) →
      (parseAddrLength (ds ++ chr ',' :: more) =
          some (BitVec.ofNat 64 (hexValue ds), (length.setWidth 32).toInt, rest) ↔
        hexValue ds < 2 ^ 31)) ∧
    ∀ more length rest, RcvHexInt more = some (length, chr ':' :: rest) →
      (parseM (ds ++ chr ',' :: more) =
          some (BitVec.ofNat 64 (hexValue ds), (length.setWidth 32).toInt, rest) ↔
        hexValue ds < 2 ^ 31) := by
  refine ⟨fun rest hrest => ⟨⟨_, RcvHexInt_eq hds hne hrest⟩, RcvHexInt_iff hds hne hrest hv⟩, ?_, ?_, ?_⟩
  · intro r rest hrest
    unfold commandResume
    rw [if_neg (peek_ne_zero hds hne rest), RcvHexInt_eq hds hne hrest, ← widen_iff hv]
    dsimp only
    constructor
    · intro h
      exact congrArg (fun p => p.1.gdb_pc) h
    · intro h
      rw [h]
  · intro more length rest hmore
    rw [parseAddrLength_eq hds hne hmore, ← widen_iff hv]
    simp
  · intro more length rest hmore
    have hcolon : ¬peek (chr ':' :: rest) ≠ chr ':' := not_not.mpr rfl
    rw [parseM_eq, parseAddrLength_eq hds hne hmore, ← widen_iff hv, Option.bind_some]
    dsimp only
    rw [if_neg hcolon]
    simp

/-- An address of the text, in either case of the letters. -/
theorem address_exact_text : RcvHexInt (packet "1aBc,4") = some (0x1abc, packet ",4") := by
  have hds : IsHex (packet "1aBc") := by decide
  have h := (address_exact_iff hds (by decide) (by decide)).1 (packet ",4") (by decide)
  exact h.2.mpr (by decide)

/-- The first address that changes, and one that the host's `mmap` returns. -/
theorem address_widened :
    RcvHexInt (packet "80000000") = some (0xffffffff80000000, []) ∧
      (commandResume ⟨fun _ => 0, 0⟩ (packet "7ffff7dd0000")).1.gdb_pc = 0xfffffffff7dd0000 ∧
      parseAddrLength (packet "7ffff7dd0000,4") = some (0xfffffffff7dd0000, 4, []) := by
  refine ⟨by decide, by decide, by decide⟩

end Cavatools.Uspike.Gdblink
