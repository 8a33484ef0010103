import Cavatools.Uspike.GdbHex

/-!
# Packets that write, as a whole or not at all

`G`, `P` and `M` write zeros to their place, then the bytes of the payload as
they come, and find out only at the end that there were too few digits or too
many.

The decoder is described first. `digitsOf` are the digits at the beginning of
a payload, `pairs` the bytes that they write, and `supplied` has of `n` bytes
those that the payload supplies and zeros behind them. `RcvHexToMemory_eq`
says that the decoder leaves what is supplied, returns whether that was all
(`Supplies`), and goes no further than the digits. For two decodes in a row,
as in `G`, the second finds no digit where the first stops short
(`supplied_add`), and the two results are joined in a way that takes `G`
without the digits of the pc for right (`commandG_eq`).

Then what a packet writes. `Place` is where, `room` how many bytes can be
written there, `Atomic` what is asked: an `OK` exactly for a right payload,
and after an error the guest as it was. `Outcome` lists what a packet can do,
and each of the three commands is shown to do one of these (`outcome_G`,
`outcome_P`, `outcome_M`). What a refused packet leaves in its place is what
its digits supplied, so it is as it was only if the place held those bytes
before.

`atomic_iff` reads off the exact condition for every packet that writes: its
payload is right and there is room for it; or it is wrong, not by the digits
of the pc alone, and its bytes were in their place already.
-/

namespace Cavatools.Uspike.Gdblink

open Riscv

/-! ## Payloads -/

/-- The digits at the beginning. -/
def digitsOf (inp : Input) : Input := inp.takeWhile fun c => (hexDigit c).isSome

/-- The bytes that digits write, two for each. -/
def pairs : Input → List (BitVec 8)
  | c :: d :: inp => BitVec.ofNat 8 (16 * (hexDigit c).getD 0 + (hexDigit d).getD 0) :: pairs inp
  | _ => []

/-- Two digits for each of `n` bytes and nothing more. -/
def Supplies (n : Nat) (inp : Input) : Prop := (digitsOf inp).length = 2 * n ∧ peek (inp.drop (2 * n)) = 0

instance (n : Nat) (inp : Input) : Decidable (Supplies n inp) := inferInstanceAs (Decidable (_ ∧ _))

/-- Of `n` bytes those that the payload supplies, and zeros behind them. -/
def supplied (n : Nat) (inp : Input) : List (BitVec 8) :=
  (pairs (digitsOf inp)).take n ++ List.replicate (n - (pairs (digitsOf inp)).length) 0

/-! ## The decoder -/

theorem digitsOf_cons {c : BitVec 8} {v : Nat} (hc : hexDigit c = some v) (inp : Input) :
    digitsOf (c :: inp) = c :: digitsOf inp :=
  List.takeWhile_cons_of_pos (by rw [hc]; rfl)

theorem digitsOf_cons_none {c : BitVec 8} (hc : hexDigit c = none) (inp : Input) :
    digitsOf (c :: inp) = [] :=
  List.takeWhile_cons_of_neg (by rw [hc]; exact Bool.false_ne_true)

theorem isHex_digitsOf (inp : Input) : IsHex (digitsOf inp) := by
  intro c hc
  exact List.mem_takeWhile_imp (p := fun c => (hexDigit c).isSome) hc

theorem digitsOf_append (inp : Input) : ∃ rest, inp = digitsOf inp ++ rest ∧ EndsHex rest := by
  induction inp with
  | nil => exact ⟨[], rfl, rfl⟩
  | cons c inp ih =>
    cases hc : hexDigit c with
    | none => exact ⟨c :: inp, by rw [digitsOf_cons_none hc, List.nil_append], hc⟩
    | some v =>
      obtain ⟨rest, heq, hrest⟩ := ih
      exact ⟨rest, by rw [digitsOf_cons hc, List.cons_append, ← heq], hrest⟩

theorem RcvHexDigit_cons {c : BitVec 8} {v : Nat} (hc : hexDigit c = some v) (inp : Input) :
    RcvHexDigit (c :: inp) = some (v, inp) := by
  rw [RcvHexDigit, hc, Option.map_some]

/-- The beginning of a payload: two digits, or fewer and no third. -/
theorem payload_cases (inp : Input) :
    (digitsOf inp = [] ∧ RcvHexDigit inp = none) ∨
    (∃ c v rest, inp = c :: rest ∧ hexDigit c = some v ∧ digitsOf rest = [] ∧ RcvHexDigit rest = none) ∨
    ∃ c d v w rest, inp = c :: d :: rest ∧ hexDigit c = some v ∧ hexDigit d = some w := by
  cases inp with
  | nil => exact Or.inl ⟨rfl, rfl⟩
  | cons c inp =>
    cases hc : hexDigit c with
    | none => exact Or.inl ⟨digitsOf_cons_none hc inp, by rw [RcvHexDigit, hc]; rfl⟩
    | some v =>
      refine Or.inr ?_
      cases inp with
      | nil => exact Or.inl ⟨c, v, [], rfl, hc, rfl, rfl⟩
      | cons d inp =>
        cases hd : hexDigit d with
        | none => exact Or.inl ⟨c, v, _, rfl, hc, digitsOf_cons_none hd inp, by rw [RcvHexDigit, hd]; rfl⟩
        | some w => exact Or.inr ⟨c, d, v, w, inp, rfl, hc, hd⟩

section
variable {c d : BitVec 8} {v w : Nat} (hc : hexDigit c = some v) (hd : hexDigit d = some w) (n : Nat)
  (inp : Input)
include hc hd

theorem supplied_pair : supplied (n + 1) (c :: d :: inp) = BitVec.ofNat 8 (16 * v + w) :: supplied n inp := by
  unfold supplied
  rw [digitsOf_cons hc, digitsOf_cons hd, pairs, hc, hd, Option.getD_some, Option.getD_some,
    List.take_succ_cons, List.length_cons, Nat.add_sub_add_right, List.cons_append]

theorem supplies_pair : Supplies (n + 1) (c :: d :: inp) ↔ Supplies n inp := by
  have hdouble : 2 * (n + 1) = 2 * n + 2 := rfl
  unfold Supplies
  rw [digitsOf_cons hc, digitsOf_cons hd, List.length_cons, List.length_cons, hdouble, List.drop_succ_cons,
    List.drop_succ_cons, Nat.add_right_cancel_iff, Nat.add_right_cancel_iff]

theorem rest_pair : (c :: d :: inp).drop (min (2 * (n + 1)) (digitsOf (c :: d :: inp)).length) =
      inp.drop (min (2 * n) (digitsOf inp).length) := by
  have hmin : min (2 * (n + 1)) (digitsOf (c :: d :: inp)).length =
      min (2 * n) (digitsOf inp).length + 1 + 1 := by
    rw [digitsOf_cons hc, digitsOf_cons hd, List.length_cons, List.length_cons]
    omega
  rw [hmin, List.drop_succ_cons, List.drop_succ_cons]

end

/-- Without two digits there is no byte. -/
theorem supplied_of_short {inp : Input} (h : (digitsOf inp).length < 2) (n : Nat) :
    supplied n inp = List.replicate n 0 := by
  have hpairs : pairs (digitsOf inp) = [] := by
    rcases hdigits : digitsOf inp with _ | ⟨c, _ | ⟨d, ds⟩⟩
    · rfl
    · rfl
    · rw [hdigits, List.length_cons, List.length_cons] at h
      omega
  unfold supplied
  rw [hpairs, List.take_nil, List.nil_append, List.length_nil, Nat.sub_zero]

theorem not_supplies_of_short {inp : Input} (h : (digitsOf inp).length < 2) (n : Nat) :
    ¬Supplies (n + 1) inp := by
  intro hall
  obtain ⟨hlen, -⟩ := hall
  omega

theorem supplied_zero (inp : Input) : supplied 0 inp = [] := by
  rw [supplied, List.take_zero, Nat.zero_sub]
  rfl

/-- Behind the end there are no digits. -/
theorem supplies_zero (inp : Input) : Supplies 0 inp ↔ peek inp = 0 := by
  constructor
  · exact fun h => h.2
  · intro h
    refine ⟨?_, h⟩
    cases inp with
    | nil => rfl
    | cons c inp =>
      have hc : c = 0 := h
      rw [digitsOf_cons_none (by rw [hc]; decide)]
      rfl

/-- **The decoder** leaves what is supplied, says whether that was all, and goes no further than the
digits. -/
theorem RcvHexToMemory_eq (n : Nat) (inp : Input) : RcvHexToMemory n inp =
    (supplied n inp, decide (Supplies n inp), inp.drop (min (2 * n) (digitsOf inp).length)) := by
  induction n generalizing inp with
  | zero =>
    have hzero : decide (Supplies 0 inp) = decide (peek inp = 0) := decide_eq_decide.mpr (supplies_zero inp)
    rw [hzero, supplied_zero, Nat.mul_zero, Nat.zero_min, List.drop_zero]
    rfl
  | succ n ih =>
    have hdouble : 2 * (n + 1) = 2 * n + 1 + 1 := rfl
    rcases payload_cases inp with ⟨hdigits, hnone⟩ | ⟨c, v, rest, rfl, hc, hdigits, hnone⟩ |
      ⟨c, d, v, w, rest, rfl, hc, hd⟩
    · have hshort : (digitsOf inp).length < 2 := by rw [hdigits]; decide
      rw [supplied_of_short hshort, decide_eq_false (not_supplies_of_short hshort n), hdigits, List.length_nil,
        Nat.min_zero, List.drop_zero, RcvHexToMemory, hnone]
    · -- the first digit is read before the second is missed
      have hlen : (digitsOf (c :: rest)).length = 1 := by rw [digitsOf_cons hc, hdigits]; rfl
      have hshort : (digitsOf (c :: rest)).length < 2 := by rw [hlen]; decide
      rw [supplied_of_short hshort, decide_eq_false (not_supplies_of_short hshort n), hlen, hdouble,
        Nat.min_eq_right (by omega), List.drop_one, List.tail_cons, RcvHexToMemory, RcvHexDigit_cons hc]
      dsimp only
      rw [hnone]
    · rw [RcvHexToMemory_pair hc hd, ih, supplied_pair hc hd, rest_pair hc hd,
        decide_eq_decide.mpr (supplies_pair hc hd n rest)]

/-! ## One decode after another -/

theorem supplied_length (n : Nat) (inp : Input) : (supplied n inp).length = n := by
  have h := rcvHexToMemory_length n inp
  rwa [RcvHexToMemory_eq] at h

theorem digitsOf_drop (inp : Input) : digitsOf (inp.drop (digitsOf inp).length) = [] := by
  induction inp with
  | nil => rfl
  | cons c inp ih =>
    cases hc : hexDigit c with
    | none =>
      have hnil := digitsOf_cons_none hc inp
      rw [hnil, List.length_nil, List.drop_zero, hnil]
    | some v => rwa [digitsOf_cons hc, List.length_cons, List.drop_succ_cons]

/-- A payload is short, or begins with a byte. -/
theorem short_or_pair (inp : Input) : (digitsOf inp).length < 2 ∨
    ∃ c d v w rest, inp = c :: d :: rest ∧ hexDigit c = some v ∧ hexDigit d = some w := by
  rcases payload_cases inp with ⟨hdigits, -⟩ | ⟨c, v, rest, rfl, hc, hdigits, -⟩ | hpair
  · exact Or.inl (by rw [hdigits]; decide)
  · exact Or.inl (by rw [digitsOf_cons hc, hdigits, List.length_singleton]; decide)
  · exact Or.inr hpair

/-- The end of a decode that stops short. -/
theorem digitsOf_rest_of_short {inp : Input} (h : (digitsOf inp).length < 2) (a : Nat) :
    digitsOf (inp.drop (min (2 * (a + 1)) (digitsOf inp).length)) = [] := by
  rw [Nat.min_eq_right (by omega), digitsOf_drop]

/-- Where a decode stops short, the next one finds no digit. -/
theorem supplied_add (a b : Nat) (inp : Input) : supplied (a + b) inp =
    supplied a inp ++ supplied b (inp.drop (min (2 * a) (digitsOf inp).length)) := by
  induction a generalizing inp with
  | zero =>
    rw [Nat.zero_add, Nat.mul_zero, Nat.zero_min, List.drop_zero, supplied_zero, List.nil_append]
  | succ a ih =>
    rcases short_or_pair inp with hshort | ⟨c, d, v, w, rest, rfl, hc, hd⟩
    · have hrest : (digitsOf (inp.drop (min (2 * (a + 1)) (digitsOf inp).length))).length < 2 := by
        rw [digitsOf_rest_of_short hshort]
        decide
      rw [supplied_of_short hshort, supplied_of_short hshort, supplied_of_short hrest,
        List.replicate_append_replicate]
    · rw [rest_pair hc hd, Nat.add_right_comm, supplied_pair hc hd, supplied_pair hc hd, ih, List.cons_append]

theorem supplies_add (a b : Nat) (inp : Input) :
    Supplies (b + 1) (inp.drop (min (2 * a) (digitsOf inp).length)) ↔ Supplies (a + (b + 1)) inp := by
  induction a generalizing inp with
  | zero => rw [Nat.zero_add, Nat.mul_zero, Nat.zero_min, List.drop_zero]
  | succ a ih =>
    rcases short_or_pair inp with hshort | ⟨c, d, v, w, rest, rfl, hc, hd⟩
    · have hrest : (digitsOf (inp.drop (min (2 * (a + 1)) (digitsOf inp).length))).length < 2 := by
        rw [digitsOf_rest_of_short hshort]
        decide
      exact iff_of_false (not_supplies_of_short hrest b) (not_supplies_of_short hshort (a + 1 + b))
    · rw [rest_pair hc hd, ih, Nat.add_right_comm, supplies_pair hc hd]

/-- The registers that bytes in memory order are. -/
def regsOf (bytes : List (BitVec 8)) : Regs where
  gdb_reg := fun r => longOf ((bytes.drop (8 * r.toNat)).take 8)
  gdb_pc := longOf (bytes.drop (NUMREGS * 8))

/-- `G`: a decode that leaves nothing over is enough, be it the first. -/
theorem commandG_eq (inp : Input) : commandG inp =
    (regsOf (supplied (NUMREGS * 8 + 8) inp),
      if Supplies (NUMREGS * 8) inp ∨ Supplies (NUMREGS * 8 + 8) inp then "OK" else "E02") := by
  have hlen := supplied_length (NUMREGS * 8) inp
  unfold commandG regsOf
  rw [RcvHexToMemory_eq]
  dsimp only
  rw [RcvHexToMemory_eq, supplied_add, List.drop_left' hlen]
  dsimp only
  congr 1
  · congr 1
    funext r
    have hr : r.toNat < 32 := r.isLt
    rw [List.drop_append_of_le_length (by rw [hlen]; unfold NUMREGS; omega), List.take_append_of_le_length
      (by rw [List.length_drop, hlen]; unfold NUMREGS; omega)]
  · simp only [Bool.or_eq_true, decide_eq_true_eq, supplies_add (NUMREGS * 8) 7 inp]

theorem length_pairs (ds : Input) : (pairs ds).length = ds.length / 2 := by
  induction ds using pairs.induct with
  | case1 c d ds ih =>
    rw [pairs, List.length_cons, ih, List.length_cons, List.length_cons]
    omega
  | case2 ds hds =>
    rcases ds with _ | ⟨c, _ | ⟨d, ds⟩⟩
    · simp [pairs]
    · simp [pairs]
    · exact absurd rfl (hds c d ds)

theorem supplied_of_supplies {n : Nat} {inp : Input} (h : Supplies n inp) :
    supplied n inp = pairs (digitsOf inp) := by
  have hlen : (pairs (digitsOf inp)).length = n := by
    rw [length_pairs, h.1]
    omega
  rw [supplied, hlen, Nat.sub_self, List.take_of_length_le hlen.le]
  exact List.append_nil _

/-! ## What a packet writes -/

/-- Registers, pc and memory. -/
structure Guest where
  regs : Regs
  mem : Mem

def Session.guest (s : Session) : Guest := ⟨s.regs, s.mem⟩

/-- Where a packet writes: all registers and the pc, one register, or memory. -/
inductive Place
  | all
  | one (r : BitVec 5)
  | memory (addr : Long)
  deriving DecidableEq

def Place.put (p : Place) (bytes : List (BitVec 8)) (g : Guest) : Guest :=
  match p with
  | .all => { g with regs := regsOf bytes }
  | .one r => { g with regs.gdb_reg := Function.update g.regs.gdb_reg r (longOf bytes) }
  | .memory addr => { g with mem := fill g.mem addr bytes }

/-- The place of a packet, how many bytes it takes, and the digits for them. -/
def payload (inp : Input) : Option (Place × Nat × Input) :=
  if peek inp = chr 'G' then some (.all, NUMREGS * 8 + 8, inp.tail)
  else if peek inp = chr 'P' then
    (RcvHexInt inp.tail).bind fun (regno, rest) =>
      if peek rest = chr '=' ∧ 0 ≤ regno.toInt ∧ regno.toInt < NUMREGS then
        some (.one (regno.setWidth 5), 8, rest.tail)
      else none
  else (parseM inp.tail).map fun (addr, length, rest) => (.memory addr, length.toNat, rest)

/-- How many of the bytes can be written, from the first on. -/
def Session.room (s : Session) (p : Place) (n : Nat) : Nat :=
  match p with
  | .memory addr => ((List.range n).takeWhile fun k => s.writable (addr + BitVec.ofNat 64 k)).length
  | _ => n

/-- The text has a slot for the place. -/
def Session.Slotted (s : Session) (p : Place) : Prop :=
  match p with
  | .memory addr => s.code.valid addr = true → s.code.slot addr < s.code.predecoded.length
  | _ => True

/-- What is in the place of a packet that is refused. -/
def Session.left (s : Session) (p : Place) (n : Nat) (digits : Input) : List (BitVec 8) :=
  if s.room p n < n then List.replicate (s.room p n) 0 else supplied n digits

/-- **A packet as a whole or not at all**: it is answered OK exactly if its payload has two digits for
each byte and nothing more; then the bytes are written and nothing else; and after an error all is
as it was. -/
structure Atomic (chain : List Entry) (s : Session) (inp : Input) : Prop where
  ok_iff : (∃ s', handle chain s inp = .sent s' ∧ s'.out = packet "OK") ↔
    ∃ p n digits, payload inp = some (p, n, digits) ∧ Supplies n digits
  written : ∀ s' p n digits, handle chain s inp = .sent s' → s'.out = packet "OK" →
    payload inp = some (p, n, digits) → s'.guest = p.put (pairs (digitsOf digits)) s.guest
  refused : ∀ s', handle chain s inp = .sent s' → s'.out ≠ packet "OK" → s'.guest = s.guest

/-- The payload is right and there is room for it; or it is wrong, not by the digits of the pc alone,
and its bytes were in their place before. -/
def AtomicWhen (s : Session) (inp : Input) : Prop :=
  ∀ p n digits, payload inp = some (p, n, digits) →
    if Supplies n digits then s.room p n = n ∧ s.Slotted p
    else ¬(p = .all ∧ Supplies (NUMREGS * 8) digits) ∧ p.put (s.left p n digits) s.guest = s.guest

/-! ## The three commands -/

/-- The end of a decode that counts. -/
def Accepted (p : Place) (n : Nat) (digits : Input) : Prop :=
  Supplies n digits ∨ p = .all ∧ Supplies (NUMREGS * 8) digits

/-- What a packet that writes can do. -/
inductive Outcome (chain : List Entry) (s : Session) (inp : Input) : Prop
  | unparsed (s' : Session) (hpayload : payload inp = none) (hsent : handle chain s inp = .sent s')
      (hout : s'.out = packet "E01") (hguest : s'.guest = s.guest)
  | accepted (p : Place) (n : Nat) (digits : Input) (s' : Session)
      (hpayload : payload inp = some (p, n, digits)) (hroom : s.room p n = n) (haccepted : Accepted p n digits)
      (hslot : s.Slotted p) (hsent : handle chain s inp = .sent s') (hout : s'.out = packet "OK")
      (hguest : s'.guest = p.put (supplied n digits) s.guest)
  | lost (p : Place) (n : Nat) (digits : Input) (hpayload : payload inp = some (p, n, digits))
      (hsupplies : Supplies n digits) (hslot : ¬s.Slotted p) (hlost : handle chain s inp = .stopped .lost)
  | refused (p : Place) (n : Nat) (digits : Input) (s' : Session)
      (hpayload : payload inp = some (p, n, digits)) (hnot : ¬(s.room p n = n ∧ Accepted p n digits))
      (hsent : handle chain s inp = .sent s') (hout : s'.out = packet "E02")
      (hguest : s'.guest = p.put (s.left p n digits) s.guest)

theorem room_le (s : Session) (p : Place) (n : Nat) : s.room p n ≤ n := by
  cases p with
  | all => exact le_rfl
  | one r => exact le_rfl
  | memory addr =>
    have h := List.takeWhile_sublist (l := List.range n) fun k => s.writable (addr + BitVec.ofNat 64 k)
    exact h.length_le.trans_eq List.length_range

/-- `RcvHexToMemory` on the memory of the guest. -/
theorem rcvHexToGuest_eq (s : Session) (addr : Long) (length : Int) (inp : Input) :
    rcvHexToGuest s.writable s.mem addr length inp =
      (fill s.mem addr (s.left (.memory addr) length.toNat inp),
        decide (s.room (.memory addr) length.toNat = length.toNat ∧ Supplies length.toNat inp)) := by
  have hle := room_le s (.memory addr) length.toNat
  unfold Session.left
  by_cases hroom : s.room (.memory addr) length.toNat < length.toNat
  · rw [if_pos hroom, decide_eq_false fun h => hroom.ne h.1]
    exact if_pos hroom
  · have hfull : s.room (.memory addr) length.toNat = length.toNat := by omega
    have hdone : decide (s.room (.memory addr) length.toNat = length.toNat ∧ Supplies length.toNat inp) =
        decide (Supplies length.toNat inp) := decide_eq_decide.mpr (and_iff_right hfull)
    rw [if_neg hroom, hdone]
    refine (if_neg hroom).trans ?_
    rw [RcvHexToMemory_eq]

section
variable (chain : List Entry) {s : Session} (hs : s.out = []) (inp : Input)
include hs

/-- What `G` does. -/
theorem outcome_G : Outcome chain s (chr 'G' :: inp) := by
  have hcommand := commandG_eq inp
  have hleft : s.left .all (NUMREGS * 8 + 8) inp = supplied (NUMREGS * 8 + 8) inp := if_neg (lt_irrefl _)
  by_cases haccepted : Supplies (NUMREGS * 8) inp ∨ Supplies (NUMREGS * 8 + 8) inp
  · rw [if_pos haccepted] at hcommand
    exact .accepted .all _ inp _ rfl rfl (haccepted.symm.imp_right fun h => ⟨rfl, h⟩) trivial
      (sent_G chain hs inp hcommand (by decide)) rfl rfl
  · rw [if_neg haccepted] at hcommand
    refine .refused .all _ inp _ rfl (fun h => haccepted ?_) (sent_G chain hs inp hcommand (by decide)) rfl
      (by rw [hleft]; rfl)
    exact h.2.symm.imp_left fun h => h.2

/-- What `P` does. -/
theorem outcome_P : Outcome chain s (chr 'P' :: inp) := by
  have hpayload : payload (chr 'P' :: inp) = (RcvHexInt inp).bind fun (regno, rest) =>
      if peek rest = chr '=' ∧ 0 ≤ regno.toInt ∧ regno.toInt < NUMREGS then
        some (.one (regno.setWidth 5), 8, rest.tail)
      else none := rfl
  cases hint : RcvHexInt inp with
  | none =>
    have hcommand : commandP s.regs inp = (s.regs, "E01") := by
      unfold commandP
      rw [hint]
    rw [hint] at hpayload
    exact .unparsed _ hpayload (sent_P chain hs inp hcommand (by decide)) rfl rfl
  | some q =>
    obtain ⟨regno, rest⟩ := q
    rw [hint, Option.bind_some] at hpayload
    dsimp only at hpayload
    by_cases hreg : peek rest = chr '=' ∧ 0 ≤ regno.toInt ∧ regno.toInt < NUMREGS
    · have hcommand : commandP s.regs inp =
          (⟨Function.update s.regs.gdb_reg (regno.setWidth 5) (longOf (supplied 8 rest.tail)), s.regs.gdb_pc⟩,
            if Supplies 8 rest.tail then "OK" else "E02") := by
        unfold commandP
        rw [hint]
        dsimp only
        rw [if_pos hreg, RcvHexToMemory_eq]
        simp only [decide_eq_true_eq]
      have hleft : s.left (.one (regno.setWidth 5)) 8 rest.tail = supplied 8 rest.tail := if_neg (lt_irrefl _)
      rw [if_pos hreg] at hpayload
      by_cases hsupplies : Supplies 8 rest.tail
      · rw [if_pos hsupplies] at hcommand
        exact .accepted _ _ _ _ hpayload rfl (Or.inl hsupplies) trivial
          (sent_P chain hs inp hcommand (by decide)) rfl rfl
      · rw [if_neg hsupplies] at hcommand
        refine .refused _ _ _ _ hpayload (fun h => ?_) (sent_P chain hs inp hcommand (by decide)) rfl
          (by rw [hleft]; rfl)
        rcases h.2 with h | ⟨h, -⟩
        · exact hsupplies h
        · cases h
    · have hcommand : commandP s.regs inp = (s.regs, "E01") := by
        unfold commandP
        rw [hint]
        dsimp only
        rw [if_neg hreg]
      rw [if_neg hreg] at hpayload
      exact .unparsed _ hpayload (sent_P chain hs inp hcommand (by decide)) rfl rfl

/-- What `M` does. -/
theorem outcome_M : Outcome chain s (chr 'M' :: inp) := by
  have hpayload : payload (chr 'M' :: inp) =
      (parseM inp).map fun (addr, length, rest) => (.memory addr, length.toNat, rest) := rfl
  cases hparse : parseM inp with
  | none =>
    have hcommand : commandM chain s.writable s.toDebuggee inp = some (s.toDebuggee, "E01") := by
      unfold commandM
      rw [hparse]
    rw [hparse] at hpayload
    exact .unparsed _ hpayload (sent_M chain hs inp hcommand (by decide)) rfl rfl
  | some q =>
    obtain ⟨addr, length, rest⟩ := q
    rw [hparse, Option.map_some] at hpayload
    have hcommand : commandM chain s.writable s.toDebuggee inp =
        if s.room (.memory addr) length.toNat = length.toNat ∧ Supplies length.toNat rest then
          (redecode chain (fill s.mem addr (s.left (.memory addr) length.toNat rest)) s.code addr).map
            fun code => (⟨fill s.mem addr (s.left (.memory addr) length.toNat rest), code⟩, "OK")
        else some (⟨fill s.mem addr (s.left (.memory addr) length.toNat rest), s.code⟩, "E02") := by
      unfold commandM
      rw [hparse]
      dsimp only
      rw [rcvHexToGuest_eq]
      simp only [decide_eq_true_eq]
    by_cases hright : s.room (.memory addr) length.toNat = length.toNat ∧ Supplies length.toNat rest
    · obtain ⟨hroom, hsupplies⟩ := hright
      have hleft : s.left (.memory addr) length.toNat rest = supplied length.toNat rest :=
        if_neg (by rw [hroom]; exact lt_irrefl _)
      rw [if_pos ⟨hroom, hsupplies⟩, hleft] at hcommand
      cases hredecode : redecode chain (fill s.mem addr (supplied length.toNat rest)) s.code addr with
      | some code =>
        rw [hredecode, Option.map_some] at hcommand
        have hslot := redecode_isSome_iff.mp (Option.isSome_of_eq_some hredecode)
        exact .accepted _ _ _ _ hpayload hroom (Or.inl hsupplies) hslot
          (sent_M chain hs inp hcommand (by decide)) rfl rfl
      | none =>
        rw [hredecode, Option.map_none] at hcommand
        refine .lost _ _ _ hpayload hsupplies (fun hslot => ?_) (handle_M_none hcommand)
        have hsome : (redecode chain (fill s.mem addr (supplied length.toNat rest)) s.code addr).isSome :=
          redecode_isSome_iff.mpr hslot
        rw [hredecode] at hsome
        cases hsome
    · rw [if_neg hright] at hcommand
      refine .refused _ _ _ _ hpayload (fun h => hright ⟨h.1, ?_⟩)
        (sent_M chain hs inp hcommand (by decide)) rfl rfl
      rcases h.2 with h | ⟨h, -⟩
      · exact h
      · cases h

end

theorem cons_of_peek {c : BitVec 8} (hc : c ≠ 0) {inp : Input} (h : peek inp = c) : inp = c :: inp.tail := by
  cases inp with
  | nil => exact absurd h.symm hc
  | cons d inp => rw [← show d = c from h, List.tail_cons]

theorem outcome (chain : List Entry) {s : Session} (hs : s.out = []) {inp : Input}
    (hc : peek inp = chr 'G' ∨ peek inp = chr 'P' ∨ peek inp = chr 'M') : Outcome chain s inp := by
  rcases hc with hc | hc | hc
  · rw [cons_of_peek (by decide) hc]
    exact outcome_G chain hs inp.tail
  · rw [cons_of_peek (by decide) hc]
    exact outcome_P chain hs inp.tail
  · rw [cons_of_peek (by decide) hc]
    exact outcome_M chain hs inp.tail

/-! ## Atomic packets -/

section
variable {chain : List Entry} {s s' : Session} {inp : Input} {p : Place} {n : Nat} {digits : Input}

theorem right_iff (hpayload : payload inp = some (p, n, digits)) :
    (∃ p n digits, payload inp = some (p, n, digits) ∧ Supplies n digits) ↔ Supplies n digits := by
  constructor
  · intro hall
    obtain ⟨p', n', digits', hp, h⟩ := hall
    rw [hpayload] at hp
    cases hp
    exact h
  · exact fun h => ⟨p, n, digits, hpayload, h⟩

theorem atomicWhen_iff (hpayload : payload inp = some (p, n, digits)) : AtomicWhen s inp ↔
    if Supplies n digits then s.room p n = n ∧ s.Slotted p
    else ¬(p = .all ∧ Supplies (NUMREGS * 8) digits) ∧ p.put (s.left p n digits) s.guest = s.guest := by
  constructor
  · exact fun h => h p n digits hpayload
  · intro h p' n' digits' hp
    rw [hpayload] at hp
    cases hp
    exact h

/-- The three parts for a packet that is answered. -/
theorem atomic_sent (hsent : handle chain s inp = .sent s') : Atomic chain s inp ↔
    (s'.out = packet "OK" ↔ ∃ p n digits, payload inp = some (p, n, digits) ∧ Supplies n digits) ∧
    (s'.out = packet "OK" → ∀ p n digits, payload inp = some (p, n, digits) →
      s'.guest = p.put (pairs (digitsOf digits)) s.guest) ∧
    (s'.out ≠ packet "OK" → s'.guest = s.guest) := by
  have hok : (∃ s'', handle chain s inp = .sent s'' ∧ s''.out = packet "OK") ↔ s'.out = packet "OK" := by
    constructor
    · intro hall
      obtain ⟨s'', hs'', h⟩ := hall
      rw [hsent] at hs''
      cases hs''
      exact h
    · exact fun h => ⟨s', hsent, h⟩
  constructor
  · intro hall
    obtain ⟨hiff, hwritten, hrefused⟩ := hall
    exact ⟨hok.symm.trans hiff, fun h p n digits hp => hwritten s' p n digits hsent h hp,
      fun h => hrefused s' hsent h⟩
  · intro hall
    obtain ⟨hiff, hwritten, hrefused⟩ := hall
    refine ⟨hok.trans hiff, fun s'' p n digits hs'' h hp => ?_, fun s'' hs'' h => ?_⟩
    · rw [hsent] at hs''
      cases hs''
      exact hwritten h p n digits hp
    · rw [hsent] at hs''
      cases hs''
      exact hrefused h

end

/-- **Atomic packets**: a packet that writes is handled as a whole or not at all exactly if it is right
and there is room for it, or if it is wrong and what it leaves was there before. A `G` packet with
the digits of the registers alone never is. -/
theorem atomic_iff (chain : List Entry) {s : Session} (hs : s.out = []) {inp : Input}
    (hc : peek inp = chr 'G' ∨ peek inp = chr 'P' ∨ peek inp = chr 'M') :
    Atomic chain s inp ↔ AtomicWhen s inp := by
  cases outcome chain hs hc with
  | unparsed s' hpayload hsent hout hguest =>
    have herror : s'.out ≠ packet "OK" := by
      rw [hout]
      decide
    refine iff_of_true ((atomic_sent hsent).mpr ⟨iff_of_false herror ?_, ?_, fun _ => hguest⟩) ?_
    · intro hall
      obtain ⟨p, n, digits, hp, -⟩ := hall
      rw [hpayload] at hp
      cases hp
    · exact fun hok => absurd hok herror
    · intro p n digits hp
      rw [hpayload] at hp
      cases hp
  | accepted p n digits s' hpayload hroom haccepted hslot hsent hout hguest =>
    rw [atomic_sent hsent, right_iff hpayload, atomicWhen_iff hpayload]
    by_cases hsupplies : Supplies n digits
    · rw [if_pos hsupplies]
      refine iff_of_true ⟨iff_of_true hout hsupplies, fun _ p' n' digits' hp => ?_, absurd hout⟩ ⟨hroom, hslot⟩
      rw [hpayload] at hp
      cases hp
      rw [hguest, supplied_of_supplies hsupplies]
    · -- the digits of the registers are there, those of the pc are not
      rw [if_neg hsupplies]
      exact iff_of_false (fun h => hsupplies (h.1.mp hout)) fun h => h.1 (haccepted.resolve_left hsupplies)
  | lost p n digits hpayload hsupplies hslot hlost =>
    rw [atomicWhen_iff hpayload, if_pos hsupplies]
    refine iff_of_false (fun h => ?_) fun h => hslot h.2
    obtain ⟨s', hsent, -⟩ := h.ok_iff.mpr ((right_iff hpayload).mpr hsupplies)
    rw [hlost] at hsent
    cases hsent
  | refused p n digits s' hpayload hnot hsent hout hguest =>
    have herror : s'.out ≠ packet "OK" := by
      rw [hout]
      decide
    rw [atomic_sent hsent, right_iff hpayload, atomicWhen_iff hpayload]
    by_cases hsupplies : Supplies n digits
    · rw [if_pos hsupplies]
      exact iff_of_false (fun h => herror (h.1.mpr hsupplies)) fun h => hnot ⟨h.1, Or.inl hsupplies⟩
    · have hall : ¬(p = .all ∧ Supplies (NUMREGS * 8) digits) := by
        intro hall
        obtain ⟨rfl, h⟩ := hall
        exact hnot ⟨rfl, Or.inr ⟨rfl, h⟩⟩
      rw [if_neg hsupplies, and_iff_right hall, ← hguest]
      constructor
      · exact fun h => h.2.2 herror
      · exact fun h => ⟨iff_of_false herror hsupplies, fun hok => absurd hok herror, fun _ => h⟩

/-- A register with all its digits. -/
theorem atomic_iff_register : Atomic listedChain openSession (packet "P1=ab00000000000000") := by
  refine (atomic_iff listedChain rfl (by decide)).mpr fun p n digits hp => ?_
  have hpayload : payload (packet "P1=ab00000000000000") = some (.one 1, 8, packet "ab00000000000000") := by
    decide
  rw [hpayload] at hp
  cases hp
  rw [if_pos (by decide)]
  exact ⟨rfl, trivial⟩

/-- A register that is lost by a packet with too few digits, and a `G` packet that is answered OK without
the digits of the pc. -/
theorem packets_torn : ¬Atomic listedChain openSession (packet "P1=ab") ∧
    ¬Atomic listedChain openSession (chr 'G' :: List.replicate 512 (chr '0')) := by
  constructor
  · intro h
    have hcommand : commandP openSession.regs (packet "1=ab") =
      ((commandP openSession.regs (packet "1=ab")).1, "E02") := rfl
    have hguest := h.refused _ (sent_P listedChain rfl _ hcommand (by decide)) (by decide)
    have hreg : (0xab : Long) = 0 := congrArg (fun g => g.regs.gdb_reg 1) hguest
    exact absurd hreg (by decide)
  · intro h
    have hcommand := commandG_eq (List.replicate 512 (chr '0'))
    rw [if_pos (Or.inl (by decide +kernel))] at hcommand
    obtain ⟨p, n, digits, hp, hsupplies⟩ := h.ok_iff.mp ⟨_, sent_G listedChain rfl _ hcommand (by decide), rfl⟩
    cases hp
    exact absurd hsupplies (by decide +kernel)

end Cavatools.Uspike.Gdblink
