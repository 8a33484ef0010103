import Cavatools.Uspike.Gdblink
import Cavatools.Uspike.Insn

/-!
# Register packets of the debugger

`ProcessGdbCommand` gives the debugger the register file and the pc by
pointer. A `G` packet writes all of them and a `P` packet one; both first
write zeros, then a byte for each pair of hexadecimal digits until the digits
end. `s` and `c` may write the pc. The parsers are here as the code has them:
`RcvHexInt` collects digits in an `int`, `RcvHexToMemory` leaves bytes in a
place of some length and returns whether it liked what it read, and the input
behind what it has taken is passed on.

The question of this file is what happens to register 0, which an instruction
reads as an operand like any other and which the interpreter clears only
behind each instruction. A packet leaves 0 there exactly if its digits for
that register are zeros, as far as there are digits (`zeroPairs`,
`rcvHexToMemory_zero`). For `G` these are the first sixteen digits
(`commandG_zero`); for `P` they are the ones behind a register number of 0
(`commandP_zero`); the other packets do not write registers. So `keepsZero` is
a predicate of the packet alone, and `command_zero` states it for all of them.
-/

namespace Cavatools.Uspike.Gdblink

/-- The packet from `inPtr` on. Behind its last byte stands the NUL. -/
abbrev Input := List (BitVec 8)

/-- `*inPtr`. -/
def peek (inp : Input) : BitVec 8 := inp.headD 0

def RcvHexDigit : Input → Option (Nat × Input)
  | [] => none
  | c :: inp => (hexDigit c).map fun digit => (digit, inp)

/-- `while (RcvHexDigit(&digit))`, on an `int`. -/
def rcvDigits (value : BitVec 32) : Input → BitVec 32 × Input
  | [] => (value, [])
  | c :: inp =>
    match hexDigit c with
    | some digit => rcvDigits (value <<< 4 ||| BitVec.ofNat 32 digit) inp
    | none => (value, c :: inp)

def RcvHexInt (inp : Input) : Option (Long × Input) :=
  match RcvHexDigit inp with
  | none => none
  | some (digit, inp) =>
    let (value, inp) := rcvDigits (BitVec.ofNat 32 digit) inp
    some (value.signExtend 64, inp)

/-- What `RcvHexToMemory` leaves in the `bytes` bytes of a place that can be written, what
it returns, and the input behind what it read. -/
def RcvHexToMemory : (bytes : Nat) → Input → List (BitVec 8) × Bool × Input
  | 0, inp => ([], peek inp = 0, inp)
  | bytes + 1, inp =>
    match RcvHexDigit inp with
    | none => (List.replicate (bytes + 1) 0, false, inp)
    | some (high, inp) =>
      match RcvHexDigit inp with
      | none => (List.replicate (bytes + 1) 0, false, inp)
      | some (low, inp) =>
        let (rest, done, inp) := RcvHexToMemory bytes inp
        (BitVec.ofNat 8 (16 * high + low) :: rest, done, inp)

/-! ## The registers -/

/-- Bytes in memory order as a number. -/
def natOf : List (BitVec 8) → Nat
  | [] => 0
  | b :: bs => b.toNat + 256 * natOf bs

def longOf (bytes : List (BitVec 8)) : Long := BitVec.ofNat 64 (natOf bytes)

/-- What `gdb_reg` and `gdb_pc` point to. -/
structure Regs where
  gdb_reg : BitVec 5 → Long
  gdb_pc : Long

/-- `G`: all registers and the pc, and the reply. -/
def commandG (inp : Input) : Regs × String :=
  let (regs, done, inp) := RcvHexToMemory (NUMREGS * 8) inp
  let (pc, done', _) := RcvHexToMemory 8 inp
  ({ gdb_reg := fun r => longOf ((regs.drop (8 * r.toNat)).take 8), gdb_pc := longOf pc },
    if done || done' then "OK" else "E02")

/-- `P`: one register. -/
def commandP (r : Regs) (inp : Input) : Regs × String :=
  match RcvHexInt inp with
  | none => (r, "E01")
  | some (regno, inp) =>
    if peek inp = chr '=' ∧ 0 ≤ regno.toInt ∧ regno.toInt < NUMREGS then
      let (value, done, _) := RcvHexToMemory 8 inp.tail
      ({ r with gdb_reg := Function.update r.gdb_reg (regno.setWidth 5) (longOf value) },
        if done then "OK" else "E02")
    else (r, "E01")

/-- `s` and `c`: they return to the caller, which is `none`, unless they do not parse. -/
def commandResume (r : Regs) (inp : Input) : Regs × Option String :=
  if peek inp = 0 then (r, none)
  else match RcvHexInt inp with
    | some (addr, _) => ({ r with gdb_pc := addr }, none)
    | none => (r, some "E01")

/-- The switch of `ProcessGdbCommand`, for the packets that write a register or the pc. -/
def ProcessGdbCommand (r : Regs) (inp : Input) : Regs :=
  if peek inp = chr 'G' then (commandG inp.tail).1
  else if peek inp = chr 'P' then (commandP r inp.tail).1
  else if peek inp = chr 's' ∨ peek inp = chr 'c' then (commandResume r inp.tail).1
  else r

/-! ## What a packet says of register 0 -/

/-- Of the first `bytes` pairs, those up to the first that is not two digits are zeros. -/
def zeroPairs : (bytes : Nat) → Input → Bool
  | 0, _ => true
  | bytes + 1, c :: d :: inp =>
    if (hexDigit c).isSome && (hexDigit d).isSome then c == chr '0' && d == chr '0' && zeroPairs bytes inp
    else true
  | _ + 1, _ => true

theorem hexDigit_eq_zero {c : BitVec 8} {v : Nat} (h : hexDigit c = some v) : v = 0 ↔ c = chr '0' := by
  have hall : ∀ c : BitVec 8, ∀ v ∈ hexDigit c, v = 0 ↔ c = chr '0' := by decide +kernel
  exact hall c v h

/-- Two digits write the byte 0 only if both are the character 0. -/
theorem byte_eq_zero {c d : BitVec 8} {v w : Nat} (hc : hexDigit c = some v) (hd : hexDigit d = some w) :
    BitVec.ofNat 8 (16 * v + w) = 0 ↔ c = chr '0' ∧ d = chr '0' := by
  obtain ⟨hv, -, -⟩ := hexDigit_spec c v hc
  obtain ⟨hw, -, -⟩ := hexDigit_spec d w hd
  rw [← hexDigit_eq_zero hc, ← hexDigit_eq_zero hd, ← BitVec.toNat_inj, BitVec.toNat_ofNat,
    Nat.mod_eq_of_lt (by omega)]
  constructor
  · intro h
    have hsum : 16 * v + w = 0 := h
    omega
  · intro h
    obtain ⟨rfl, rfl⟩ := h
    rfl

/-- The first bytes are zero exactly when their digits are, as far as there are digits. -/
theorem rcvHexToMemory_zero {k n : Nat} (hk : k ≤ n) (inp : Input) :
    (∀ b ∈ (RcvHexToMemory n inp).1.take k, b = 0) ↔ zeroPairs k inp = true := by
  -- two digits a byte: `k` bytes of the `n` that are asked for
  induction n generalizing k inp with
  | zero =>
    obtain rfl : k = 0 := by omega
    simp [zeroPairs]
  | succ n ih =>
    cases k with
    | zero => simp [zeroPairs]
    | succ k =>
      match inp with
      | [] => simp [RcvHexToMemory, RcvHexDigit, zeroPairs]
      | [c] =>
        cases hc : hexDigit c <;> simp [RcvHexToMemory, RcvHexDigit, zeroPairs, hc]
      | c :: d :: inp =>
        cases hc : hexDigit c with
        -- no digit: the rest of the bytes is filled with zeros
        | none => simp [RcvHexToMemory, RcvHexDigit, zeroPairs, hc]
        | some v =>
          cases hd : hexDigit d with
          | none => simp [RcvHexToMemory, RcvHexDigit, zeroPairs, hc, hd]
          | some w =>
            have hrest := ih (Nat.le_of_succ_le_succ hk) inp
            simp only [RcvHexToMemory, RcvHexDigit, hc, hd, Option.map_some, List.take_succ_cons,
              List.forall_mem_cons, hrest, byte_eq_zero hc hd]
            simp [zeroPairs, hc, hd, and_assoc]

theorem natOf_lt (bs : List (BitVec 8)) : natOf bs < 256 ^ bs.length := by
  induction bs with
  | nil => exact Nat.one_pos
  | cons b bs ih =>
    rw [natOf, List.length_cons, Nat.pow_succ]
    have hb : b.toNat < 256 := b.isLt
    omega

theorem natOf_eq_zero {bs : List (BitVec 8)} : natOf bs = 0 ↔ ∀ b ∈ bs, b = 0 := by
  induction bs with
  | nil => simp [natOf]
  | cons b bs ih =>
    have hb : b.toNat = 0 ↔ b = 0 := by rw [← BitVec.toNat_inj]; rfl
    rw [natOf, List.forall_mem_cons, ← ih, ← hb]
    omega

theorem longOf_eq_zero {bs : List (BitVec 8)} (hlen : bs.length ≤ 8) : longOf bs = 0 ↔ ∀ b ∈ bs, b = 0 := by
  have hlt : natOf bs < 2 ^ 64 :=
    lt_of_lt_of_le (natOf_lt bs) (Nat.pow_le_pow_right (by decide) hlen : 256 ^ bs.length ≤ 256 ^ 8)
  rw [← natOf_eq_zero, longOf, ← BitVec.toNat_inj, BitVec.toNat_ofNat, Nat.mod_eq_of_lt hlt]
  rfl

theorem rcvHexToMemory_length (n : Nat) (inp : Input) : (RcvHexToMemory n inp).1.length = n := by
  induction n generalizing inp with
  | zero => rfl
  | succ n ih =>
    rw [RcvHexToMemory]
    split
    · exact List.length_replicate
    · split
      · exact List.length_replicate
      · rw [List.length_cons, ih]

/-- What a `G` packet leaves in register 0. -/
theorem commandG_zero (inp : Input) : (commandG inp).1.gdb_reg 0 = 0 ↔ zeroPairs 8 inp = true := by
  rw [← rcvHexToMemory_zero (show 8 ≤ NUMREGS * 8 by decide) inp]
  exact longOf_eq_zero (List.length_take_le 8 _)

/-- A `P` packet does not give register 0 a value with a digit that is not zero. -/
def keepsZeroP (inp : Input) : Bool :=
  match RcvHexInt inp with
  | none => true
  | some (regno, inp) => regno != 0 || peek inp != chr '=' || zeroPairs 8 inp.tail

/-- A register number below 32 is 0 in five bits only if it is. -/
theorem regno_setWidth {regno : Long} (hlo : 0 ≤ regno.toInt) (hhi : regno.toInt < NUMREGS) :
    regno.setWidth 5 = 0 ↔ regno = 0 := by
  have hlt : regno.toNat < 32 := by
    have hcond := BitVec.toInt_eq_toNat_cond regno
    simp only [NUMREGS] at hhi
    split at hcond <;> omega
  rw [← BitVec.toNat_inj, ← BitVec.toNat_inj, BitVec.toNat_setWidth, Nat.mod_eq_of_lt hlt]
  rfl

/-- What a `P` packet leaves in register 0. -/
theorem commandP_zero {r : Regs} (hr : r.gdb_reg 0 = 0) (inp : Input) :
    (commandP r inp).1.gdb_reg 0 = 0 ↔ keepsZeroP inp = true := by
  unfold commandP keepsZeroP
  cases hint : RcvHexInt inp with
  | none => exact iff_of_true hr rfl
  | some p =>
    obtain ⟨regno, rest⟩ := p
    dsimp only
    split
    next hok =>
      obtain ⟨heq, hlo, hhi⟩ := hok
      have hreg := regno_setWidth hlo hhi
      show Function.update r.gdb_reg (regno.setWidth 5) (longOf (RcvHexToMemory 8 rest.tail).1) 0 = 0 ↔ _
      -- register 0, or another one
      by_cases hzero : regno = 0
      · have hval := rcvHexToMemory_zero (le_refl 8) rest.tail
        have hlen := rcvHexToMemory_length 8 rest.tail
        rw [List.take_of_length_le hlen.le] at hval
        rw [hreg.mpr hzero, Function.update_self, longOf_eq_zero hlen.le, hval]
        simp [hzero, heq]
      · rw [Function.update_of_ne fun h => hzero (hreg.mp h.symm)]
        exact iff_of_true hr (by rw [bne_iff_ne.mpr hzero]; rfl)
    next hbad =>
      refine iff_of_true hr ?_
      by_cases hzero : regno = 0
      · have hne : peek rest ≠ chr '=' := fun heq => hbad ⟨heq, by rw [hzero]; decide, by rw [hzero]; decide⟩
        rw [bne_iff_ne.mpr hne, Bool.or_true]
        rfl
      · rw [bne_iff_ne.mpr hzero]
        rfl

theorem commandResume_reg (r : Regs) (inp : Input) : (commandResume r inp).1.gdb_reg = r.gdb_reg := by
  unfold commandResume
  split
  · rfl
  · split <;> rfl

/-- A packet that leaves 0 in register 0. -/
def keepsZero (inp : Input) : Bool :=
  if peek inp = chr 'G' then zeroPairs 8 inp.tail
  else if peek inp = chr 'P' then keepsZeroP inp.tail
  else true

/-- **A packet** leaves 0 in register 0 exactly when its digits for it are zeros. -/
theorem command_zero {r : Regs} (hr : r.gdb_reg 0 = 0) (inp : Input) :
    (ProcessGdbCommand r inp).gdb_reg 0 = 0 ↔ keepsZero inp = true := by
  unfold ProcessGdbCommand keepsZero
  by_cases hG : peek inp = chr 'G'
  · rw [if_pos hG, if_pos hG]
    exact commandG_zero _
  · rw [if_neg hG, if_neg hG]
    by_cases hP : peek inp = chr 'P'
    · rw [if_pos hP, if_pos hP]
      exact commandP_zero hr _
    · rw [if_neg hP, if_neg hP]
      refine iff_of_true ?_ rfl
      split
      · rw [commandResume_reg]
        exact hr
      · exact hr

end Cavatools.Uspike.Gdblink
