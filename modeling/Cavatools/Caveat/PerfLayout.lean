import Cavatools.Caveat.Perf
import Cavatools.Uspike.Insn

/-!
# The segment in machine arithmetic

`create`, the constructor and `index` once more, with the types they have:
`long`, and the `unsigned long` of `sizeof`, which wraps. Arithmetic on `long`
that overflows is undefined, so `create` and the addresses have no value then
(`signed`). `index` is as it is compiled: a difference that overflows wraps,
the check sees what has come out, and it may let it pass.

`Layout` is what the tools count on. The counters of all cores, for every pc
that passes `index`, lie behind the header and inside the segment, wherever it
is mapped; two counters share no byte; and a process that opens the segment
after any updates reads the header that `create` stored, so that its pointers
lead to the same counters.

While the size of the segment fits in a `long`, nothing overflows in `create`
(`create64_some`) and the header it stores is the one of the integers of
`Perf` (`create64_ints`). From a base that is not negative no difference of
`index` overflows either (`toInt_half`, `index64_ints`), so every address is
the address of the segment and the offset that the integers say
(`address64_eq`), and the facts about the integers carry over:
`layout_of_laid`.

From a negative base it is otherwise, as soon as there is a core at all. Half
the address space further the check passes again, with the smallest index that
there is (`index_wraps`), and its counter is that of the base or lies behind
the segment (`not_layout`). Addresses of a text are below 2^63, so this is no
layout that a tool makes, but it is what `perf_layout` has to exclude: the
layout is as it should be exactly if the base is not negative or no core was
allocated.
-/

namespace Cavatools.Caveat

open Uspike (Long)

/-- A value that a `long` can hold. -/
def FitsLong (x : Int) : Prop := -2 ^ 63 ≤ x ∧ x < 2 ^ 63

instance (x : Int) : Decidable (FitsLong x) := inferInstanceAs (Decidable (_ ∧ _))

/-- The result of signed arithmetic. -/
def signed (x : Int) : Option Long := if FitsLong x then some (BitVec.ofInt 64 x) else none

/-- `perf_header_t`, with the fields as they are stored. -/
structure Header64 where
  size : Long
  parcels : Long
  base : Long
  _cores : Long
  deriving DecidableEq, Repr

/-- `perf_t`, with addresses for pointers. -/
structure Pointers where
  _count : Long
  _imiss : Long
  _dmiss : Long
  deriving DecidableEq, Repr

namespace perf64

/-- The header that `create` stores. -/
def create (base bound n : Long) : Option Header64 := do
  let d ← signed (bound.toInt - base.toInt)
  let p ← signed (d.toInt.tdiv 2)
  let pn ← signed (p.toInt * n.toInt)
  let sz : Long := 32 + pn * 16
  let p2 ← signed (2 * p.toInt)
  let p2n ← signed (p2.toInt * n.toInt)
  return ⟨sz + p2n * 8, p, base, n⟩

variable (h : Header64) (mapped : Long)

/-- The constructor, in a process that has the segment at the address `mapped`. For a core
that was not allocated it only prints. -/
def make (n : Long) : Option Pointers :=
  if h._cores.toInt ≤ n.toInt then none
  else do
    let np ← signed (n.toInt * h.parcels.toInt)
    let ptr := mapped + 32 + np * (16 + 2 * 8)
    let imiss := ptr + h.parcels * 16
    return ⟨ptr, imiss, imiss + h.parcels * 8⟩

/-- `index`, which dies where its check fails. From a negative base the difference can overflow,
and then the check passes a pc far above the text, with a negative index. -/
def index (pc : Long) : Option Long :=
  let i := (pc - h.base).sdiv 2
  if h.base.toInt ≤ pc.toInt ∧ i.toInt < h.parcels.toInt then some i else none

/-- The address of entry `i` of an array. -/
def cell (p : Pointers) (i : Long) : Field → Long
  | .executed => p._count + i * 16
  | .cycles => p._count + i * 16 + 8
  | .imiss => p._imiss + i * 8
  | .dmiss => p._dmiss + i * 8

/-- The address of a counter of `pc` for core `n`. -/
def address (n pc : Long) (f : Field) : Option Long := do
  let p ← make h mapped n
  let i ← index h pc
  return cell p i f

/-! ## The segment -/

/-- The segment, in cells of eight bytes by their offset. -/
abbrev Shared := Nat → Long

/-- What `create` leaves in it. -/
def created (h : Header64) : Shared
  | 0 => h.size
  | 8 => h.parcels
  | 16 => h.base
  | 24 => h._cores
  | _ => 0

/-- The header that a process reads, also after `open`. -/
def header (s : Shared) : Header64 := ⟨s 0, s 8, s 16, s 24⟩

/-- `inc_count` and its like, by core `n` of a process that has the segment at `mapped`. -/
structure Update where
  mapped : Long
  n : Long
  pc : Long
  field : Field
  k : Long
  deriving DecidableEq, Repr

def inc (u : Update) (s : Shared) : Option Shared :=
  (address (header s) u.mapped u.n u.pc u.field).map fun a =>
    Function.update s (a - u.mapped).toNat (s (a - u.mapped).toNat + u.k)

/-- Updates in the order in which they happen. -/
def incs : List Update → Shared → Option Shared
  | [], s => some s
  | u :: us, s => (inc u s).bind (incs us)

end perf64

/-! ## Against the integers -/

theorem signed_of_fits {x : Int} (hx : FitsLong x) : signed x = some (BitVec.ofInt 64 x) := if_pos hx

theorem signed_some {x : Int} {v : Long} (h : signed x = some v) : FitsLong x ∧ v = BitVec.ofInt 64 x := by
  unfold signed at h
  split at h
  case isTrue hx => exact ⟨hx, (Option.some.inj h).symm⟩
  case isFalse => cases h

theorem toInt_ofInt_of_fits {x : Int} (hx : FitsLong x) : (BitVec.ofInt 64 x).toInt = x :=
  BitVec.toInt_ofInt_eq_self (by decide) hx.1 hx.2

theorem toInt_signed {x : Int} {v : Long} (h : signed x = some v) : v.toInt = x := by
  obtain ⟨hx, rfl⟩ := signed_some h
  exact toInt_ofInt_of_fits hx

/-- A scaled index. -/
theorem mul_eq_ofInt (i : Long) (k : Int) : i * BitVec.ofInt 64 k = BitVec.ofInt 64 (k * i.toInt) := by
  rw [BitVec.ofInt_mul, BitVec.ofInt_toInt, BitVec.mul_comm]

theorem toNat_of_nonneg {x : Long} (hx : 0 ≤ x.toInt) : (x.toNat : Int) = x.toInt := by
  rw [BitVec.toInt_eq_toNat_cond] at hx ⊢
  split at hx <;> split <;> omega

/-- The header as integers. -/
def Header64.ints (h : Header64) : perf_header_t :=
  ⟨h.size.toInt, h.parcels.toInt, h.base.toInt, h._cores.toInt⟩

/-- The size of the segment, without a bound. -/
def totalSize (base bound n : Int) : Int := (create base bound n).size

theorem totalSize_eq (base bound n : Int) :
    totalSize base bound n = 32 + 32 * ((bound - base).tdiv 2 * n) := by
  simp only [totalSize, create, sizeof_perf_header_t, sizeof_count_t, sizeof_long]
  ring

section
variable {base bound n : Long} (hb : base.toInt ≤ bound.toInt)
  (hfits : totalSize base.toInt bound.toInt n.toInt < 2 ^ 63)
include hb hfits

/-- `create` does not overflow. -/
theorem create64_some (hn : 0 < n.toInt) : ∃ h, perf64.create base bound n = some h := by
  rw [totalSize_eq] at hfits
  have hd : (bound.toInt - base.toInt).tdiv 2 = (bound.toInt - base.toInt) / 2 :=
    Int.tdiv_eq_ediv_of_nonneg (by omega)
  have hp : 0 ≤ (bound.toInt - base.toInt).tdiv 2 := by omega
  have hmul : (bound.toInt - base.toInt).tdiv 2 ≤ (bound.toInt - base.toInt).tdiv 2 * n.toInt :=
    le_mul_of_one_le_right hp hn
  have hfd : FitsLong (bound.toInt - base.toInt) := by unfold FitsLong; omega
  have hfp : FitsLong ((bound.toInt - base.toInt).tdiv 2) := by unfold FitsLong; omega
  have hfpn : FitsLong ((bound.toInt - base.toInt).tdiv 2 * n.toInt) := by unfold FitsLong; omega
  have hfp2 : FitsLong (2 * (bound.toInt - base.toInt).tdiv 2) := by unfold FitsLong; omega
  have hfp2n : FitsLong (2 * (bound.toInt - base.toInt).tdiv 2 * n.toInt) := by
    unfold FitsLong
    rw [Int.mul_assoc]
    omega
  unfold perf64.create
  simp only [Option.bind_eq_bind, signed_of_fits hfd, Option.bind_some, toInt_ofInt_of_fits hfd,
    signed_of_fits hfp, toInt_ofInt_of_fits hfp, signed_of_fits hfpn, signed_of_fits hfp2,
    toInt_ofInt_of_fits hfp2, signed_of_fits hfp2n]
  exact ⟨_, rfl⟩

/-- `create` is that of the integers. -/
theorem create64_ints (hn : 0 ≤ n.toInt) {h : Header64} (hcreate : perf64.create base bound n = some h) :
    h.ints = create base.toInt bound.toInt n.toInt := by
  unfold perf64.create at hcreate
  simp only [Option.bind_eq_bind, Option.bind_eq_some_iff] at hcreate
  obtain ⟨d, hd, p, hp, pn, hpn, p2, hp2, p2n, hp2n, hcreate⟩ := hcreate
  obtain rfl := Option.some.inj hcreate
  have hd' := toInt_signed hd
  have hp' := toInt_signed hp
  rw [hd'] at hp'
  have hsize : ((32 : Long) + pn * 16 + p2n * 8) =
      BitVec.ofInt 64 (totalSize base.toInt bound.toInt n.toInt) := by
    obtain ⟨-, rfl⟩ := signed_some hpn
    obtain ⟨-, rfl⟩ := signed_some hp2n
    rw [toInt_signed hp2, hp', totalSize, create]
    simp only [sizeof_perf_header_t, sizeof_count_t, sizeof_long, BitVec.ofInt_add, BitVec.ofInt_mul]
    rfl
  have hpos : 0 ≤ (bound.toInt - base.toInt).tdiv 2 * n.toInt :=
    Int.mul_nonneg (Int.tdiv_nonneg (by omega) (by omega)) hn
  have htotal : FitsLong (totalSize base.toInt bound.toInt n.toInt) := by
    refine ⟨?_, hfits⟩
    rw [totalSize_eq]
    omega
  unfold Header64.ints
  rw [hsize, toInt_ofInt_of_fits htotal, hp']
  rfl

end

/-- From a base that is not negative no difference overflows. -/
theorem toInt_half {base pc : Long} (hbase : 0 ≤ base.toInt) (hpc : base.toInt ≤ pc.toInt) :
    ((pc - base).sdiv 2).toInt = (pc.toInt - base.toInt).tdiv 2 := by
  have hlt : pc.toInt < 2 ^ 63 := BitVec.toInt_lt
  have hsub : (pc - base).toInt = pc.toInt - base.toInt := by
    rw [BitVec.toInt_sub]
    exact Int.bmod_eq_of_le (by norm_num; omega) (by norm_num; omega)
  rw [BitVec.toInt_sdiv_of_ne_or_ne _ _ (Or.inr (by decide)), hsub]
  rfl

/-- Then a pc that passes `index` passes that of the integers. -/
theorem index64_ints {h : Header64} (hbase : 0 ≤ h.base.toInt) {pc i : Long}
    (hi : perf64.index h pc = some i) : index h.ints pc.toInt = some i.toInt := by
  unfold perf64.index at hi
  dsimp only at hi
  split at hi
  case isFalse => cases hi
  case isTrue hpc =>
    obtain ⟨hle, hlt⟩ := hpc
    obtain rfl := Option.some.inj hi
    have hhalf := toInt_half hbase hle
    unfold index
    rw [if_pos ⟨hle, hhalf ▸ hlt⟩, hhalf]
    rfl

/-! ## The cells -/

/-- A segment that `create` has laid out for a text whose base is not negative, if there is a core
at all, with the bounds that it has by that. -/
structure Laid (h : Header64) : Prop where
  base : 0 < h._cores.toInt → 0 ≤ h.base.toInt
  parcels : 0 ≤ h.parcels.toInt
  size : perf_t.arrays h.ints h._cores.toInt = h.size.toInt

/-- What `create` stores is laid out, if the base is not negative or there is no core. -/
theorem laid_create {base bound n : Long} (hb : base.toInt ≤ bound.toInt)
    (hfits : totalSize base.toInt bound.toInt n.toInt < 2 ^ 63) (hn : 0 ≤ n.toInt)
    (hbase : 0 ≤ base.toInt ∨ n.toInt = 0) {h : Header64}
    (hcreate : perf64.create base bound n = some h) : Laid h := by
  have hints := create64_ints hb hfits hn hcreate
  have hparcels : h.parcels.toInt = (bound.toInt - base.toInt).tdiv 2 := congrArg perf_header_t.parcels hints
  have hcores : h._cores.toInt = n.toInt := congrArg perf_header_t._cores hints
  have hsize : h.size.toInt = (create base.toInt bound.toInt n.toInt).size :=
    congrArg perf_header_t.size hints
  have hfrom : h.base.toInt = base.toInt := congrArg perf_header_t.base hints
  constructor
  · intro hpos
    rw [hfrom]
    exact hbase.resolve_right (by omega)
  · rw [hparcels]
    exact Int.tdiv_nonneg (by omega) (by omega)
  · rw [hints, hcores, hsize]
    simp only [perf_t.arrays, create, sizeof_count_t, sizeof_long]
    ring

section
variable {h : Header64} (hlaid : Laid h) {n : Long} (h0 : 0 ≤ n.toInt) (hn : n.toInt < h._cores.toInt)
include hlaid h0 hn

/-- The regions of the cores are inside the segment. -/
theorem arrays_le_size : 32 ≤ perf_t.arrays h.ints n.toInt ∧
    perf_t.arrays h.ints (n.toInt + 1) ≤ h.size.toInt := by
  have hlo := arrays_mono h.ints hlaid.parcels h0
  have hhi := arrays_mono h.ints hlaid.parcels (Int.add_one_le_of_lt hn)
  have hfirst : perf_t.arrays h.ints 0 = 32 := by
    unfold perf_t.arrays
    rw [Int.zero_mul, Int.zero_mul]
    rfl
  rw [hfirst] at hlo
  rw [hlaid.size] at hhi
  exact ⟨hlo, hhi⟩

/-- The constructor's pointers. -/
theorem make64_eq (mapped : Long) : ∃ p, perf64.make h mapped n = some p ∧
    p._count = mapped + BitVec.ofInt 64 (perf_t.arrays h.ints n.toInt) ∧
    p._imiss = p._count + BitVec.ofInt 64 (16 * h.parcels.toInt) ∧
    p._dmiss = p._imiss + BitVec.ofInt 64 (8 * h.parcels.toInt) := by
  obtain ⟨hlo, hhi⟩ := arrays_le_size hlaid h0 hn
  have hpos : 0 ≤ n.toInt * h.parcels.toInt := Int.mul_nonneg h0 hlaid.parcels
  have hparcels := hlaid.parcels
  have hsize : h.size.toInt < 2 ^ 63 := BitVec.toInt_lt
  have harrays : perf_t.arrays h.ints n.toInt = 32 + n.toInt * h.parcels.toInt * 32 := rfl
  have hnp : FitsLong (n.toInt * h.parcels.toInt) := by
    rw [arrays_succ] at hhi
    have hcast : h.ints.parcels = h.parcels.toInt := rfl
    unfold FitsLong
    omega
  unfold perf64.make
  rw [if_neg (by omega), signed_of_fits hnp]
  refine ⟨_, rfl, ?_, ?_, ?_⟩
  · dsimp only
    rw [harrays, BitVec.ofInt_add, BitVec.ofInt_mul _ 32, BitVec.add_assoc]
    rfl
  · exact congrArg (_ + ·) (mul_eq_ofInt h.parcels 16)
  · exact congrArg (_ + ·) (mul_eq_ofInt h.parcels 8)

/-- An address is the address of the segment and the offset that the integers say. -/
theorem address64_eq (mapped : Long) {pc i : Long} (hi : perf64.index h pc = some i) (f : Field) :
    ∃ c, (perf_t.make h.ints n.toInt).cell i.toInt f = some c ∧
      perf64.address h mapped n pc f = some (mapped + BitVec.ofInt 64 c) := by
  obtain ⟨p, hp, hcount, himiss, hdmiss⟩ := make64_eq hlaid h0 hn mapped
  have hcores : n.toInt < h.ints._cores := hn
  refine ⟨_, cell_make hcores i.toInt f, ?_⟩
  unfold perf64.address
  rw [hp, hi]
  have hparcels : h.ints.parcels = h.parcels.toInt := rfl
  have h16 : i * 16 = BitVec.ofInt 64 (16 * i.toInt) := mul_eq_ofInt i 16
  have h8 : i * 8 = BitVec.ofInt 64 (8 * i.toInt) := mul_eq_ofInt i 8
  refine congrArg some ?_
  cases f with
  | executed =>
    show p._count + i * 16 = _
    rw [hcount, h16, BitVec.add_assoc, ← BitVec.ofInt_add]
  | cycles =>
    show p._count + i * 16 + 8 = _
    rw [hcount, h16, BitVec.ofInt_add, BitVec.ofInt_add]
    simp only [BitVec.add_assoc]
    rfl
  | imiss =>
    show p._imiss + i * 8 = _
    rw [himiss, hcount, h8, hparcels, BitVec.ofInt_add, BitVec.ofInt_add]
    simp only [BitVec.add_assoc]
  | dmiss =>
    show p._dmiss + i * 8 = _
    rw [hdmiss, himiss, hcount, h8, hparcels, BitVec.ofInt_add, BitVec.ofInt_add,
      show 24 * h.parcels.toInt = 16 * h.parcels.toInt + 8 * h.parcels.toInt by omega, BitVec.ofInt_add]
    simp only [BitVec.add_assoc]

/-- The offset of a counter in the segment. -/
theorem offset_spec (mapped : Long) {pc i : Long} (hi : perf64.index h pc = some i) (f : Field) :
    ∃ a, perf64.address h mapped n pc f = some a ∧ (perf_t.make h.ints n.toInt).cell i.toInt f =
        some ((a - mapped).toNat : Int) ∧
      32 ≤ (a - mapped).toNat ∧ (a - mapped).toNat + 8 ≤ h.size.toNat := by
  obtain ⟨c, hcell, haddr⟩ := address64_eq hlaid h0 hn mapped hi f
  obtain ⟨hi0, hilt, -⟩ := index_eq (index64_ints (hlaid.base (by omega)) hi)
  have hregion := inRegion_cell (h := h.ints) hn hi0 hilt hcell
  obtain ⟨hlo, hhi⟩ := arrays_le_size hlaid h0 hn
  have hlong : sizeof_long = 8 := rfl
  have hsize : h.size.toInt < 2 ^ 63 := BitVec.toInt_lt
  have hc := hregion.1
  have hc' := hregion.2
  have hsub : mapped + BitVec.ofInt 64 c - mapped = BitVec.ofInt 64 c := by
    rw [BitVec.add_comm, BitVec.add_sub_cancel]
  have hnat : (BitVec.ofInt 64 c).toNat = c.toNat := by
    rw [BitVec.toNat_ofInt]
    omega
  have hsizeNat := toNat_of_nonneg (x := h.size) (by omega)
  refine ⟨_, haddr, ?_, ?_, ?_⟩
  · rw [hsub, hnat, hcell, Int.toNat_of_nonneg (by omega)]
  · rw [hsub, hnat]
    omega
  · rw [hsub, hnat]
    omega

end

/-- A counter starts at a multiple of eight. -/
theorem dvd_cell {h : perf_header_t} {n i c : Int} {f : Field} (hn : n < h._cores)
    (hc : (perf_t.make h n).cell i f = some c) : 8 ∣ c := by
  rw [cell_make hn, Option.some_inj] at hc
  have harrays : perf_t.arrays h n = 32 + n * h.parcels * 32 := rfl
  cases f <;> dsimp only at hc <;> omega

/-- Two counters share no byte. -/
theorem offset_apart {h : Header64} (hlaid : Laid h) {n n' : Long}
    (hn : 0 ≤ n.toInt ∧ n.toInt < h._cores.toInt) (hn' : 0 ≤ n'.toInt ∧ n'.toInt < h._cores.toInt)
    {pc pc' i i' : Long} (hi : perf64.index h pc = some i) (hi' : perf64.index h pc' = some i')
    {f f' : Field} (hne : (n, f, i) ≠ (n', f', i')) {c c' : Nat}
    (hc : (perf_t.make h.ints n.toInt).cell i.toInt f = some (c : Int))
    (hc' : (perf_t.make h.ints n'.toInt).cell i'.toInt f' = some (c' : Int)) :
    c + 8 ≤ c' ∨ c' + 8 ≤ c := by
  have hbase := hlaid.base (by omega)
  obtain ⟨h0, hlt, -⟩ := index_eq (index64_ints hbase hi)
  obtain ⟨h0', hlt', -⟩ := index_eq (index64_ints hbase hi')
  have hdvd := dvd_cell (h := h.ints) hn.2 hc
  have hdvd' := dvd_cell (h := h.ints) hn'.2 hc'
  have hdiff : c ≠ c' := by
    rintro rfl
    apply hne
    have hregion := inRegion_cell (h := h.ints) hn.2 h0 hlt hc
    have hregion' := inRegion_cell (h := h.ints) hn'.2 h0' hlt' hc'
    obtain rfl := BitVec.eq_of_toInt_eq (region_disjoint hlaid.parcels hregion hregion')
    obtain ⟨hii, rfl⟩ := cell_injective (h := h.ints) hn.2 ⟨h0, hlt⟩ ⟨h0', hlt'⟩ hc hc'
    rw [BitVec.eq_of_toInt_eq hii]
  omega

/-- Updates of counters leave the header. -/
theorem header_incs {h : Header64} (hlaid : Laid h) {us : List perf64.Update}
    (hus : ∀ u ∈ us, 0 ≤ u.n.toInt) {s s' : perf64.Shared} (hs : perf64.header s = h)
    (hrun : perf64.incs us s = some s') : perf64.header s' = h := by
  induction us generalizing s with
  | nil =>
    cases hrun
    exact hs
  | cons u us ih =>
    obtain ⟨t, ht, hrest⟩ := Option.bind_eq_some_iff.mp hrun
    obtain ⟨hu, hus⟩ := List.forall_mem_cons.mp hus
    refine ih hus ?_ hrest
    obtain ⟨a, ha, rfl⟩ := Option.map_eq_some_iff.mp ht
    rw [hs] at ha
    -- the address is that of a counter of an allocated core
    obtain ⟨p, hp, hindex⟩ := Option.bind_eq_some_iff.mp ha
    obtain ⟨i, hi, -⟩ := Option.bind_eq_some_iff.mp hindex
    have hn : u.n.toInt < h._cores.toInt := by
      by_contra hge
      unfold perf64.make at hp
      rw [if_pos (by omega)] at hp
      cases hp
    obtain ⟨a', ha', -, hlo, -⟩ := offset_spec hlaid hu hn u.mapped hi u.field
    obtain rfl : a' = a := Option.some.inj (ha'.symm.trans ha)
    have hkeep (o : Nat) (ho : o < 32) :
        Function.update s (a' - u.mapped).toNat (s (a' - u.mapped).toNat + u.k) o = s o :=
      Function.update_of_ne (by omega) ..
    unfold perf64.header at hs ⊢
    rw [hkeep 0 (by omega), hkeep 8 (by omega), hkeep 16 (by omega), hkeep 24 (by omega)]
    exact hs

/-! ## The law -/

/-- What the tools count on of a segment: the counters of the cores, for every pc that passes
`index`, lie behind the header and inside the segment, wherever that is mapped; two counters share
no byte; and after any updates of the counters a process that opens the segment reads the header that
`create` stored, so its `perf_t` have the same cells. -/
structure Layout (h : Header64) : Prop where
  inside : ∀ mapped core pc i f, 0 ≤ core.toInt → core.toInt < h._cores.toInt → perf64.index h pc = some i →
    ∃ a, perf64.address h mapped core pc f = some a ∧
      32 ≤ (a - mapped).toNat ∧ (a - mapped).toNat + 8 ≤ h.size.toNat
  apart : ∀ mapped core pc i f a core' pc' i' f' a', 0 ≤ core.toInt → core.toInt < h._cores.toInt →
    0 ≤ core'.toInt → core'.toInt < h._cores.toInt →
    perf64.index h pc = some i → perf64.index h pc' = some i' → (core, f, i) ≠ (core', f', i') →
    perf64.address h mapped core pc f = some a →
    perf64.address h mapped core' pc' f' = some a' →
    (a - mapped).toNat + 8 ≤ (a' - mapped).toNat ∨ (a' - mapped).toNat + 8 ≤ (a - mapped).toNat
  opened : ∀ us s, (∀ u ∈ us, 0 ≤ u.n.toInt) → perf64.incs us (perf64.created h) = some s →
    perf64.header s = h ∧
    ∀ mapped mapped' core pc i f, 0 ≤ core.toInt → core.toInt < h._cores.toInt →
      perf64.index h pc = some i →
      ∃ a a', perf64.address h mapped core pc f = some a ∧
        perf64.address (perf64.header s) mapped' core pc f = some a' ∧ a' - mapped' = a - mapped

/-- The layout of the integers is that of the machine words. -/
theorem layout_of_laid {h : Header64} (hlaid : Laid h) : Layout h where
  inside := by
    intro mapped core pc i f h0 hlt hi
    obtain ⟨a, ha, -, hlo, hhi⟩ := offset_spec hlaid h0 hlt mapped hi f
    exact ⟨a, ha, hlo, hhi⟩
  apart := by
    intro mapped core pc i f a core' pc' i' f' a' h0 hlt h0' hlt' hi hi' hne ha ha'
    obtain ⟨b, hb, hcell, -, -⟩ := offset_spec hlaid h0 hlt mapped hi f
    obtain ⟨b', hb', hcell', -, -⟩ := offset_spec hlaid h0' hlt' mapped hi' f'
    obtain rfl := Option.some.inj (hb.symm.trans ha)
    obtain rfl := Option.some.inj (hb'.symm.trans ha')
    exact offset_apart hlaid ⟨h0, hlt⟩ ⟨h0', hlt'⟩ hi hi' hne hcell hcell'
  opened := by
    intro us s hus hrun
    have hheader : perf64.header s = h := header_incs hlaid hus rfl hrun
    refine ⟨hheader, ?_⟩
    intro mapped mapped' core pc i f h0 hlt hi
    rw [hheader]
    obtain ⟨a, ha, hcell, -, -⟩ := offset_spec hlaid h0 hlt mapped hi f
    obtain ⟨a', ha', hcell', -, -⟩ := offset_spec hlaid h0 hlt mapped' hi f
    refine ⟨a, a', ha, ha', BitVec.eq_of_toNat_eq ?_⟩
    have hsame := Option.some.inj (hcell'.symm.trans hcell)
    omega

/-! ## A negative base -/

/-- Half the address space behind a negative base the check passes again, with the index that the
smallest `long` has. -/
theorem index_wraps {h : Header64} (hneg : h.base.toInt < 0) (hparcels : 0 ≤ h.parcels.toInt) :
    perf64.index h (h.base + 0x8000000000000000) = some 0xc000000000000000 := by
  have hdiff : h.base + 0x8000000000000000 - h.base = 0x8000000000000000 := by
    rw [BitVec.add_comm, BitVec.add_sub_cancel]
  have hhalf : (0x8000000000000000 : Long).sdiv 2 = 0xc000000000000000 := by decide
  have hlow : (0xc000000000000000 : Long).toInt = -2 ^ 62 := by decide
  have hlo := BitVec.le_toInt h.base
  have hle : h.base.toInt ≤ (h.base + 0x8000000000000000).toInt := by
    rw [BitVec.toInt_add, show (0x8000000000000000 : Long).toInt = -2 ^ 63 by decide, Int.bmod_def]
    norm_num at *
    split <;> omega
  unfold perf64.index
  rw [hdiff, hhalf]
  refine if_pos ⟨hle, ?_⟩
  rw [hlow]
  omega

/-- The pointer of core 0 is the first byte behind the header. -/
theorem address_first {h : Header64} (hcores : 0 < h._cores.toInt) (mapped : Long) {pc i : Long}
    (hi : perf64.index h pc = some i) :
    perf64.address h mapped 0 pc .executed = some (mapped + 32 + i * 16) := by
  have hzero : signed ((0 : Long).toInt * h.parcels.toInt) = some 0 := by
    rw [show (0 : Long).toInt = 0 from rfl, Int.zero_mul]
    rfl
  have hcore : ¬h._cores.toInt ≤ (0 : Long).toInt := not_le.mpr hcores
  unfold perf64.address perf64.make
  rw [if_neg hcore, hzero, hi]
  have hstride : (0 : Long) * (16 + 2 * 8) = 0 := by decide
  show some (mapped + 32 + 0 * (16 + 2 * 8) + i * 16) = _
  rw [hstride]
  exact congrArg (fun a => some (a + i * 16)) (BitVec.add_zero _)

/-- **The layout fails** from a negative base: that index and 0 have the same cell, and where 0 is no
index the cell is behind the segment. -/
theorem not_layout {h : Header64} (hneg : h.base.toInt < 0) (hcores : 0 < h._cores.toInt)
    (hparcels : 0 ≤ h.parcels.toInt) (hsize : h.parcels.toInt = 0 → h.size.toNat = 32) : ¬Layout h := by
  intro hlayout
  have hwraps := index_wraps hneg hparcels
  have hcell : (0 : Long) + 32 + 0xc000000000000000 * 16 = 32 := by decide
  have haddr := address_first hcores 0 hwraps
  rw [hcell] at haddr
  obtain ⟨a, ha, -, hhi⟩ := hlayout.inside 0 0 _ _ .executed le_rfl hcores hwraps
  obtain rfl := Option.some.inj (ha.symm.trans haddr)
  have hbehind : 40 ≤ h.size.toNat := hhi
  have hpos : 0 < h.parcels.toInt := by
    by_contra hnone
    have := hsize (by omega)
    omega
  -- so the base itself passes
  have hfirst : perf64.index h h.base = some 0 := by
    unfold perf64.index
    rw [BitVec.sub_self]
    exact if_pos ⟨le_rfl, hpos⟩
  have haddr' := address_first hcores 0 hfirst
  have hapart := hlayout.apart 0 0 _ _ .executed _ 0 _ _ .executed _ le_rfl hcores le_rfl hcores hwraps hfirst
    (by decide) haddr haddr'
  exact absurd hapart (by decide)

/-- **The layout of the segment.** While the size of the segment fits in a `long`, `create`
computes it without overflow, and the counters are laid out as `Layout` says exactly if the base of
the text is not negative, or there is no core that counts. -/
theorem perf_layout {base bound n : Long} (hb : base.toInt ≤ bound.toInt) (hn : 0 ≤ n.toInt)
    (hfits : totalSize base.toInt bound.toInt n.toInt < 2 ^ 63) :
    (0 < n.toInt → ∃ h, perf64.create base bound n = some h) ∧
    ∀ h, perf64.create base bound n = some h →
      h.size.toInt = totalSize base.toInt bound.toInt n.toInt ∧ h._cores = n ∧
      (Layout h ↔ 0 ≤ base.toInt ∨ n.toInt = 0) := by
  refine ⟨create64_some hb hfits, ?_⟩
  intro h hcreate
  have hints := create64_ints hb hfits hn hcreate
  have hcores : h._cores.toInt = n.toInt := congrArg perf_header_t._cores hints
  have hfrom : h.base.toInt = base.toInt := congrArg perf_header_t.base hints
  have hparcels : h.parcels.toInt = (bound.toInt - base.toInt).tdiv 2 := congrArg perf_header_t.parcels hints
  have hsize : h.size.toInt = totalSize base.toInt bound.toInt n.toInt := congrArg perf_header_t.size hints
  refine ⟨hsize, BitVec.eq_of_toInt_eq hcores, ?_, ?_⟩
  · intro hlayout
    by_contra hneither
    rw [not_or] at hneither
    refine not_layout (by omega) (by omega) ?_ ?_ hlayout
    · rw [hparcels]
      exact Int.tdiv_nonneg (by omega) (by omega)
    · intro hnone
      rw [totalSize_eq, ← hparcels, hnone, Int.zero_mul] at hsize
      have hnat := toNat_of_nonneg (x := h.size) (by omega)
      omega
  · intro hbase
    exact layout_of_laid (laid_create hb hfits hn hbase hcreate)

/-- Two cores and eight bytes of text. -/
theorem perf_layout_twoCores : ∃ h, perf64.create 0x10000 0x10008 2 = some h ∧ h.size.toInt = 288 ∧
    ∃ a, perf64.address h 0x7000 1 0x10006 .dmiss = some a ∧ (a - 0x7000).toNat + 8 ≤ 288 := by
  obtain ⟨hsome, hall⟩ := @perf_layout 0x10000 0x10008 2 (by decide) (by decide) (by decide)
  obtain ⟨h, hcreate⟩ := hsome (by decide)
  obtain ⟨hsize, -, hiff⟩ := hall h hcreate
  have hh : h = ⟨288, 4, 0x10000, 2⟩ := by
    have hrun : perf64.create 0x10000 0x10008 2 = some ⟨288, 4, 0x10000, 2⟩ := by decide
    exact Option.some.inj (hcreate.symm.trans hrun)
  obtain ⟨a, ha, -, hhi⟩ := (hiff.mpr (Or.inl (by decide))).inside 0x7000 1 0x10006 3 .dmiss (by decide)
    (by rw [hh]; decide) (by rw [hh]; decide)
  refine ⟨h, hcreate, hsize, a, ha, ?_⟩
  rw [hh] at hhi
  exact hhi

/-- Eight bytes of text at the smallest `long`: pc 0 passes `index`, and its counter is that of the
base. -/
theorem perf_layout_lowest : ∃ h, perf64.create 0x8000000000000000 0x8000000000000008 1 = some h ∧
    (0x8000000000000000 : Long).toInt ≤ (0x8000000000000008 : Long).toInt ∧
    totalSize (0x8000000000000000 : Long).toInt (0x8000000000000008 : Long).toInt (1 : Long).toInt < 2 ^ 63 ∧
    perf64.index h 0 = some 0xc000000000000000 ∧ perf64.index h 0x8000000000000000 = some 0 ∧
    perf64.address h 0x7000 0 0 .executed = perf64.address h 0x7000 0 0x8000000000000000 .executed ∧
    ¬Layout h := by
  refine ⟨⟨160, 4, 0x8000000000000000, 1⟩, by decide, by decide, by decide, by decide, by decide, by decide, ?_⟩
  exact not_layout (by decide) (by decide) (by decide) (by decide)

end Cavatools.Caveat
