import Mathlib

/-!
# `perf_t`: the shared counters

One shared memory segment holds a header and a region for each core: an array
of pairs (times executed, cycles) and two arrays of cache misses, with an
entry for each two-byte parcel of the text. A `perf_t` is three pointers into
it. Here a pointer is a byte offset from the start of the segment, and a null
pointer is `none`; the segment maps the offset of an eight-byte counter to its
value.

The layout is linear arithmetic over the number of parcels. The regions follow
each other (`arrays_succ`), each counter of a core is in its region
(`inRegion_cell`), no two counters of a core share an address
(`cell_injective`), the regions of two cores share none (`region_disjoint`),
and the regions of the allocated cores are inside the segment that `create`
maps (`region_inside`). The constructor only prints for a core that was not
allocated, and leaves what the memory pool held, which is null pointers.

An update goes through `index`, which dies on a pc outside the text, and
through a pointer. `incs_make` says what a list of updates does. For a core
with a region each counter grows by what the updates add to it, and nothing
outside of the region changes; so the totals over the text (`total`) grow by
what the updates add over all pcs (`added`). The books of the timing model
rest on this alone.

Integers are unbounded here. That the machine arithmetic of the code computes
the same is the subject of `PerfLayout`.
-/

namespace Cavatools.Caveat

structure perf_header_t where
  size : Int
  parcels : Int
  base : Int
  _cores : Int
  deriving DecidableEq, Repr

def sizeof_perf_header_t : Int := 32
def sizeof_count_t : Int := 16
def sizeof_long : Int := 8

/-- `perf_t::create`, which maps `size` zeroed bytes. -/
def create (base bound n : Int) : perf_header_t :=
  let p := (bound - base).tdiv 2
  { size := sizeof_perf_header_t + p * n * sizeof_count_t + 2 * p * n * sizeof_long
    parcels := p
    base := base
    _cores := n }

abbrev Segment := Int → Int

structure perf_t where
  _count : Option Int
  _imiss : Option Int
  _dmiss : Option Int
  deriving DecidableEq, Repr

/-- The four counters of a parcel. -/
inductive Field
  | executed
  | cycles
  | imiss
  | dmiss
  deriving DecidableEq, Repr

variable (h : perf_header_t)

/-- `index`, which dies on a pc outside the text. -/
def index (pc : Int) : Option Int :=
  if h.base ≤ pc ∧ (pc - h.base).tdiv 2 < h.parcels then some ((pc - h.base).tdiv 2) else none

namespace perf_t

/-- The constructor's pointer to the region of core `n`. -/
def arrays (n : Int) : Int :=
  sizeof_perf_header_t + n * h.parcels * (sizeof_count_t + 2 * sizeof_long)

/-- The constructor. For a core that was not allocated it only prints, and the fields
keep what the memory pool held there: null pointers. -/
def make (n : Int) : perf_t :=
  if n ≥ h._cores then ⟨none, none, none⟩
  else
    let ptr := arrays h n
    let imiss := ptr + h.parcels * sizeof_count_t
    ⟨some ptr, some imiss, some (imiss + h.parcels * sizeof_long)⟩

variable (p : perf_t)

/-- The address of entry `i` of an array. -/
def cell (i : Int) : Field → Option Int
  | .executed => p._count.map fun a => a + i * sizeof_count_t
  | .cycles => p._count.map fun a => a + i * sizeof_count_t + sizeof_long
  | .imiss => p._imiss.map fun a => a + i * sizeof_long
  | .dmiss => p._dmiss.map fun a => a + i * sizeof_long

/-- The address a counter of `pc` is read and written at. -/
def address (pc : Int) (f : Field) : Option Int := (index h pc).bind fun i => p.cell i f

def get (f : Field) (pc : Int) (s : Segment) : Option Int := (p.address h pc f).map s

def count (pc : Int) (s : Segment) : Option Int := p.get h .executed pc s
def cycle (pc : Int) (s : Segment) : Option Int := p.get h .cycles pc s
def imiss (pc : Int) (s : Segment) : Option Int := p.get h .imiss pc s
def dmiss (pc : Int) (s : Segment) : Option Int := p.get h .dmiss pc s

end perf_t

/-- One of the updates `inc_count(pc, k)`, `inc_cycle`, `inc_imiss` and `inc_dmiss`. -/
structure Inc where
  field : Field
  pc : Int
  k : Int
  deriving DecidableEq, Repr

def inc_count (pc : Int) (k : Int := 1) : Inc := ⟨.executed, pc, k⟩
def inc_cycle (pc : Int) (k : Int := 1) : Inc := ⟨.cycles, pc, k⟩
def inc_imiss (pc : Int) (k : Int := 1) : Inc := ⟨.imiss, pc, k⟩
def inc_dmiss (pc : Int) (k : Int := 1) : Inc := ⟨.dmiss, pc, k⟩

namespace perf_t

variable (p : perf_t)

/-- One update, which faults on a null pointer. -/
def inc (u : Inc) (s : Segment) : Option Segment :=
  (p.address h u.pc u.field).map fun a => Function.update s a (s a + u.k)

/-- Updates in order. -/
def incs : List Inc → Segment → Option Segment
  | [], s => some s
  | u :: us, s => (p.inc h u s).bind (incs us)

end perf_t

/-! ## The layout -/

/-- The regions follow each other. -/
def InRegion (n a : Int) : Prop :=
  perf_t.arrays h n ≤ a ∧ a + sizeof_long ≤ perf_t.arrays h (n + 1)

instance (n a : Int) : Decidable (InRegion h n a) :=
  inferInstanceAs (Decidable (perf_t.arrays h n ≤ a ∧ a + sizeof_long ≤ perf_t.arrays h (n + 1)))

theorem arrays_succ (n : Int) : perf_t.arrays h (n + 1) = perf_t.arrays h n + 32 * h.parcels := by
  simp only [perf_t.arrays, sizeof_count_t, sizeof_long]
  ring

theorem arrays_mono (hp : 0 ≤ h.parcels) {n m : Int} (hnm : n ≤ m) :
    perf_t.arrays h n ≤ perf_t.arrays h m := by
  have hmul : n * h.parcels ≤ m * h.parcels := Int.mul_le_mul_of_nonneg_right hnm hp
  simp only [perf_t.arrays, sizeof_count_t, sizeof_long]
  omega

variable {h}

theorem index_eq {pc i : Int} (hi : index h pc = some i) :
    0 ≤ i ∧ i < h.parcels ∧ i = (pc - h.base).tdiv 2 := by
  unfold index at hi
  split at hi
  case isTrue hpc =>
    obtain rfl := Option.some.inj hi
    exact ⟨Int.tdiv_nonneg (by omega) (by omega), hpc.2, rfl⟩
  case isFalse => cases hi

/-- The pc of a parcel. -/
theorem index_parcel {i : Int} (h0 : 0 ≤ i) (hi : i < h.parcels) :
    index h (h.base + 2 * i) = some i := by
  have hdiv : (h.base + 2 * i - h.base).tdiv 2 = i := by
    rw [Int.tdiv_eq_ediv_of_nonneg (by omega)]
    omega
  unfold index
  rw [hdiv, if_pos ⟨by omega, hi⟩]

/-- An allocated core has its pointers. -/
theorem cell_make {n : Int} (hn : n < h._cores) (i : Int) (f : Field) :
    (perf_t.make h n).cell i f = some (match f with
      | .executed => perf_t.arrays h n + 16 * i
      | .cycles => perf_t.arrays h n + 16 * i + 8
      | .imiss => perf_t.arrays h n + 16 * h.parcels + 8 * i
      | .dmiss => perf_t.arrays h n + 24 * h.parcels + 8 * i) := by
  unfold perf_t.make
  rw [if_neg (by omega)]
  cases f <;> simp only [perf_t.cell, Option.map_some, Option.some.injEq, sizeof_count_t, sizeof_long] <;>
    omega

/-- The counters of a core are in its region. -/
theorem inRegion_cell {n i a : Int} {f : Field} (hn : n < h._cores) (h0 : 0 ≤ i) (hi : i < h.parcels)
    (ha : (perf_t.make h n).cell i f = some a) : InRegion h n a := by
  rw [cell_make hn, Option.some.injEq] at ha
  unfold InRegion
  rw [arrays_succ, sizeof_long]
  cases f <;> dsimp only at ha <;> omega

/-- No two counters of a core share an address. -/
theorem cell_injective {n i j a : Int} {f g : Field} (hn : n < h._cores) (hi : 0 ≤ i ∧ i < h.parcels)
    (hj : 0 ≤ j ∧ j < h.parcels) (hf : (perf_t.make h n).cell i f = some a)
    (hg : (perf_t.make h n).cell j g = some a) : i = j ∧ f = g := by
  rw [cell_make hn, Option.some.injEq] at hf hg
  cases f <;> cases g <;> dsimp only at hf hg <;>
    first | exact ⟨by omega, rfl⟩ | (exfalso; omega)

/-- Two regions share no address. -/
theorem region_disjoint (hp : 0 ≤ h.parcels) {n m a : Int} (hn : InRegion h n a) (hm : InRegion h m a) :
    n = m := by
  have hlong : (0 : Int) < sizeof_long := by decide
  -- the lower of two regions ends before the higher one begins
  rcases Int.lt_trichotomy n m with hlt | heq | hgt
  · have := arrays_mono h hp (Int.add_one_le_of_lt hlt)
    have := hn.2
    have := hm.1
    omega
  · exact heq
  · have := arrays_mono h hp (Int.add_one_le_of_lt hgt)
    have := hm.2
    have := hn.1
    omega

/-- The regions of the allocated cores are inside the segment that `create` maps. -/
theorem region_inside {base bound n a : Int} {cores : Int} (hb : base ≤ bound)
    (h0 : 0 ≤ n) (hn : n < cores) (ha : InRegion (create base bound cores) n a) :
    sizeof_perf_header_t ≤ a ∧ a + sizeof_long ≤ (create base bound cores).size := by
  have hp : 0 ≤ (create base bound cores).parcels := Int.tdiv_nonneg (by omega) (by omega)
  have hlo := arrays_mono _ hp h0
  have hhi := arrays_mono _ hp (Int.add_one_le_of_lt hn)
  have hfirst : perf_t.arrays (create base bound cores) 0 = sizeof_perf_header_t := by
    unfold perf_t.arrays
    rw [Int.zero_mul, Int.zero_mul, Int.add_zero]
  have hlast : perf_t.arrays (create base bound cores) cores = (create base bound cores).size := by
    simp only [perf_t.arrays, create, sizeof_count_t, sizeof_long]
    ring
  rw [hfirst] at hlo
  rw [hlast] at hhi
  exact ⟨hlo.trans ha.1, ha.2.trans hhi⟩

/-! ## Totals over the text -/

/-- The sum of a counter over the pcs of the text. -/
def total (h : perf_header_t) (p : perf_t) (f : Field) (s : Segment) : Int :=
  ∑ i ∈ Finset.range h.parcels.toNat, (p.get h f (h.base + 2 * i) s).getD 0

/-- What a list of updates adds to a counter, over all pcs. -/
def added (f : Field) (us : List Inc) : Int :=
  (us.map fun u => if u.field = f then u.k else 0).sum

@[simp] theorem added_nil (f : Field) : added f [] = 0 := rfl

@[simp] theorem added_cons (f : Field) (u : Inc) (us : List Inc) :
    added f (u :: us) = (if u.field = f then u.k else 0) + added f us := rfl

@[simp] theorem added_append (f : Field) (us vs : List Inc) :
    added f (us ++ vs) = added f us + added f vs := by
  rw [added, List.map_append, List.sum_append]
  rfl

theorem address_make {n pc i : Int} (hn : n < h._cores) (hi : index h pc = some i) (f : Field) :
    ∃ a, (perf_t.make h n).address h pc f = some a ∧ (perf_t.make h n).cell i f = some a := by
  unfold perf_t.address
  rw [hi, Option.bind_some, cell_make hn]
  exact ⟨_, rfl, rfl⟩

/-- The totals of a core are in its region. -/
theorem total_congr {n : Int} (hn : n < h._cores) {s s' : Segment}
    (hs : ∀ a, InRegion h n a → s' a = s a) (f : Field) :
    total h (perf_t.make h n) f s' = total h (perf_t.make h n) f s := by
  refine Finset.sum_congr rfl ?_
  intro i hi
  have hlt : (i : Int) < h.parcels := by
    have := Finset.mem_range.mp hi
    omega
  obtain ⟨a, haddr, hcell⟩ := address_make hn (index_parcel (by omega) hlt) f
  unfold perf_t.get
  rw [haddr, Option.map_some, Option.map_some,
    hs a (inRegion_cell hn (by omega) hlt hcell)]

/-- The totals of a zeroed region. -/
theorem total_zero {n : Int} (hn : n < h._cores) {s : Segment} (hs : ∀ a, InRegion h n a → s a = 0)
    (f : Field) : total h (perf_t.make h n) f s = 0 := by
  rw [total_congr hn (s := fun _ => 0) hs]
  refine Finset.sum_eq_zero ?_
  intro i _
  unfold perf_t.get
  cases (perf_t.make h n).address h (h.base + 2 * i) f <;> rfl

/-- An update inside the text of an allocated core. -/
theorem inc_make {n : Int} (hn : n < h._cores) {u : Inc} (hu : (index h u.pc).isSome = true)
    (s : Segment) :
    ∃ s', (perf_t.make h n).inc h u s = some s' ∧
      (∀ f, total h (perf_t.make h n) f s' =
        total h (perf_t.make h n) f s + if u.field = f then u.k else 0) ∧
      ∀ a, ¬InRegion h n a → s' a = s a := by
  obtain ⟨i, hi⟩ := Option.isSome_iff_exists.mp hu
  obtain ⟨h0, hlt, -⟩ := index_eq hi
  obtain ⟨a, haddr, hcell⟩ := address_make hn hi u.field
  refine ⟨Function.update s a (s a + u.k), ?_, ?_, ?_⟩
  · unfold perf_t.inc
    rw [haddr]
    rfl
  · intro f
    have hget (j : Nat) (hj : j ∈ Finset.range h.parcels.toNat) :
        ((perf_t.make h n).get h f (h.base + 2 * j) (Function.update s a (s a + u.k))).getD 0
          = ((perf_t.make h n).get h f (h.base + 2 * j) s).getD 0
            + if j = i.toNat then (if u.field = f then u.k else 0) else 0 := by
      have hjlt : (j : Int) < h.parcels := by
        have := Finset.mem_range.mp hj
        omega
      obtain ⟨b, hbaddr, hbcell⟩ := address_make hn (index_parcel (by omega) hjlt) f
      unfold perf_t.get
      rw [hbaddr, Option.map_some, Option.map_some, Option.getD_some,
        Option.getD_some]
      -- the updated counter, or another: of the same parcel or not
      by_cases hab : b = a
      · subst hab
        obtain ⟨hij, hf⟩ := cell_injective hn ⟨h0, hlt⟩ ⟨by omega, hjlt⟩ hcell hbcell
        rw [Function.update_self, if_pos (by omega), if_pos hf]
      · rw [Function.update_of_ne hab]
        by_cases hji : j = i.toNat
        · rw [if_pos hji, if_neg, Int.add_zero]
          rintro rfl
          have hij : (j : Int) = i := by omega
          rw [hij, hcell, Option.some.injEq] at hbcell
          exact hab hbcell.symm
        · rw [if_neg hji, Int.add_zero]
    have hmem : i.toNat ∈ Finset.range h.parcels.toNat := Finset.mem_range.mpr (by omega)
    rw [total, Finset.sum_congr rfl hget, Finset.sum_add_distrib, Finset.sum_ite_eq', if_pos hmem]
    rfl
  · intro b hb
    refine Function.update_of_ne ?_ ..
    rintro rfl
    exact hb (inRegion_cell hn h0 hlt hcell)

theorem index_of_inc {p : perf_t} {u : Inc} {s s' : Segment} (hinc : p.inc h u s = some s') :
    (index h u.pc).isSome = true := by
  unfold perf_t.inc perf_t.address at hinc
  rw [Option.map_eq_some_iff] at hinc
  obtain ⟨a, ha, -⟩ := hinc
  obtain ⟨i, hi, -⟩ := Option.bind_eq_some_iff.mp ha
  rw [hi]
  rfl

/-- Updates that were made were in the text. -/
theorem index_of_incs {p : perf_t} {us : List Inc} {s s' : Segment} (hincs : p.incs h us s = some s') :
    ∀ u ∈ us, (index h u.pc).isSome = true := by
  induction us generalizing s with
  | nil => exact fun u hu => by cases hu
  | cons v us ih =>
    obtain ⟨t, ht, hrest⟩ := Option.bind_eq_some_iff.mp hincs
    intro u hu
    rcases List.mem_cons.mp hu with rfl | hu
    · exact index_of_inc ht
    · exact ih hrest u hu

/-- **Updates in order** add up, and touch nothing outside the core's region. -/
theorem incs_make {n : Int} (hn : n < h._cores) {us : List Inc}
    (hus : ∀ u ∈ us, (index h u.pc).isSome = true) (s : Segment) :
    ∃ s', (perf_t.make h n).incs h us s = some s' ∧
      (∀ f, total h (perf_t.make h n) f s' = total h (perf_t.make h n) f s + added f us) ∧
      ∀ a, ¬InRegion h n a → s' a = s a := by
  -- on the updates, in the order in which they are made
  induction us generalizing s with
  | nil => exact ⟨s, rfl, fun f => (Int.add_zero _).symm, fun _ _ => rfl⟩
  | cons u us ih =>
    obtain ⟨s₁, hs₁, htotal₁, hframe₁⟩ := inc_make hn (hus u List.mem_cons_self) s
    obtain ⟨s', hs', htotal, hframe⟩ := ih (fun v hv => hus v (List.mem_cons_of_mem _ hv)) s₁
    refine ⟨s', ?_, ?_, fun a ha => (hframe a ha).trans (hframe₁ a ha)⟩
    · unfold perf_t.incs
      rw [hs₁]
      exact hs'
    · intro f
      rw [htotal, htotal₁, added_cons]
      ring

end Cavatools.Caveat
