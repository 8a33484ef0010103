import Cavatools.Lib.Bins
import Cavatools.Uspike.Text

/-!
# `histo_compute`

The viewer shows the counters of a range of the text in as many bins as its
window has lines. The width of a bin is the length of the range divided by
their number, rounded down, and each bin begins where the walk has stopped, so
a bin holds the instructions of its interval only where the two agree.

The first part is the code: `tally` is the loop over one bin, which goes from
instruction to instruction, `fill` the loop over the bins, and `histo_compute`
both, with the early return for a range that it skips. It dies at a pc without
a slot, at the `checkif` of a counter, or at a division by zero (`Died`).

The second part connects it with the sweeps that made the text. In a text that
`loadelf` has loaded the strides of the viewer are those of the loader
(`stride_eq`), so an instruction start is a place that a sweep from the base
visits (`InsnStart`). Over a range that can be read, the walk leaves in each
bin the counts of the places between two starts (`tally_bin`, `fill_eq`,
`histo_compute_eq`).

What the bins are for is `Tallied`: each holds the counts of the instructions
of its interval, the last one also those of what remains. As the counts may be
anything, that is about which places each bin visits (`bins_right_iff`), and
the theory of `Lib.Bins` says when these are the right ones. So `tallied_iff`
is exact over all counts: the range is not skipped, and each bin fits, which
is to say that the width from its first instruction ends where the bin does,
as far as instructions go.
-/

namespace Cavatools.Erised

open Uspike Lib.Sweep Lib.Bins

/-- How the viewer dies: at the `checkif` of a pc, at a slot that does not exist, or at a division by
zero. -/
inductive Died
  | invalid_pc (pc : Int)
  | no_slot
  | sigfpe
  deriving DecidableEq

abbrev Reading (α : Type) := Except Died α

def HOT_COLOR : Int := 7 - 2
def PERSISTENCE : Int := 30

/-- `bin[i]` and `decay[i]`. -/
structure cell where
  bin : Int
  decay : Int
  deriving DecidableEq

/-- `cells` are the two arrays, which have one length. -/
structure histogram_t where
  cells : List cell
  base : Int
  bound : Int
  range : Int
  max_value : Int
  deriving DecidableEq

def histogram_t.bins (histo : histogram_t) : Nat := histo.cells.length

/-- `histo_create`, for a window of `lines` lines: the first one is the title. -/
def histo_create (lines : Nat) : histogram_t :=
  ⟨List.replicate (lines - 1) ⟨0, 0⟩, 0, 0, 0, 0⟩

section
variable (code : InsnSpace) (count : Int → Reading Int)

/-- `code.at(pc)`. What the viewer keeps in a `long` is an integer here. -/
def codeAt (pc : Int) : Reading Insn :=
  if code.base.toInt ≤ pc ∧ pc < code.limit.toInt then
    match code.predecoded[code.slotOf pc]? with
    | some i => .ok i
    | none => .error .no_slot
  else .error (.invalid_pc pc)

/-- `while (pc < end)`, which cannot take more turns than `end - pc`. -/
def tally (finish : Int) : Nat → Int → Int → Reading (Int × Int)
  | 0, pc, mcount => .ok (mcount, pc)
  | n + 1, pc, mcount =>
    if pc < finish then do
      let c ← count pc
      let i ← codeAt code pc
      tally finish n (pc + i.stride) (mcount + c)
    else .ok (mcount, pc)

/-- `for (int i=0; i<histo->bins; i++)`, over the bins that are left. -/
def fill (range bound : Int) : List cell → Int → Int → Reading (List cell × Int)
  | [], _, max_count => .ok ([], max_count)
  | c :: cells, pc, max_count => do
    let finish := min (pc + range) bound
    let r ← tally code count finish (finish - pc).toNat pc 0
    let rest ← fill range bound cells r.2 (max max_count r.1)
    return (⟨r.1, if r.1 ≠ c.bin then HOT_COLOR * PERSISTENCE else c.decay⟩ :: rest.1, rest.2)

def histo_compute (histo : histogram_t) (base bound : Int) : Reading histogram_t :=
  if base = 0 ∨ bound = 0 then .ok histo
  else if histo.bins = 0 then .error .sigfpe
  else do
    let range := (bound - base).tdiv histo.bins
    let r ← fill code count range bound histo.cells base 0
    return ⟨r.1, base, bound, range, r.2⟩

end

/-- The range that a click in line `y` of the window selects. -/
def histogram_t.select (histo : histogram_t) (y : Int) : Int × Int :=
  (histo.base + (y - 1) * histo.range, histo.base + (y - 1) * histo.range + histo.range)

/-! ## The text -/

/-- `code.at(pc).compressed() ? 2 : 4`, where there is a slot. -/
def stride (code : InsnSpace) (pc : Int) : Int :=
  match codeAt code pc with
  | .ok i => i.stride
  | .error _ => 4

theorem stride_of_at {code : InsnSpace} {pc : Int} {i : Insn} (h : codeAt code pc = .ok i) :
    stride code pc = i.stride := by
  rw [stride, h]

theorem insn_stride_pos (i : Insn) : 0 < i.stride := by
  rcases stride_cases i with h | h <;> omega

theorem stride_pos (code : InsnSpace) (pc : Int) : 0 < stride code pc := by
  unfold stride
  split
  next i _ => exact insn_stride_pos i
  next => decide

/-- The instruction starts and ends of the text. -/
def InsnStart (code : InsnSpace) (pc : Int) : Prop := Visits (stride code) code.limit.toInt code.base.toInt pc

def InsnEnd (code : InsnSpace) (pc : Int) : Prop := Boundary (stride code) code.limit.toInt code.base.toInt pc

/-- A text in which every start can be read. -/
def Readable (code : InsnSpace) : Prop := ∀ p, InsnStart code p → ∃ i, codeAt code p = .ok i

section
variable {chain : List Entry} {mem : Riscv.Mem} {base limit entry : Long} {code : InsnSpace}

theorem codeAt_start (h : TextOf chain mem base limit entry code) {q : Int}
    (hq : Uspike.Start chain mem base limit q) : codeAt code q = .ok (finalAt chain mem limit.toInt q) := by
  rw [codeAt, if_pos ⟨h.lo hq, h.lt_limit hq⟩, h.start q hq]

/-- The strides of a loaded text are those of the sweeps that made it. -/
theorem stride_eq (h : TextOf chain mem base limit entry code) {q : Int}
    (hq : Uspike.Start chain mem base limit q) : stride code q = strideAt chain mem q := by
  rw [stride_of_at (codeAt_start h hq)]
  by_cases hlr : (insnAt chain mem q).isLr
  · have hcas : (finalAt chain mem limit.toInt q).isCas :=
      (h.final_cases hq).resolve_left fun hn => hn.2 hlr
    rw [stride_of_isCas hcas, strideAt, stride_of_isLr hlr]
  · rw [finalAt_of_not_isLr hlr]
    rfl

theorem insnStart_iff (h : loadelf chain mem base limit entry = .text code) (q : Int) :
    InsnStart code q ↔ Uspike.Start chain mem base limit q := by
  have ht := loadelf_textOf h
  rw [InsnStart, ht.base_eq, ht.limit_eq]
  exact visits_congr fun p hp => stride_eq ht hp

theorem readable_loadelf (h : loadelf chain mem base limit entry = .text code) : Readable code := by
  intro p hp
  exact ⟨_, codeAt_start (loadelf_textOf h) ((insnStart_iff h p).mp hp)⟩

end

/-! ## The walk -/

section
variable {code : InsnSpace} {count : Int → Reading Int}

theorem tally_succ {finish pc c : Int} {i : Insn} (n : Nat) (mcount : Int) (h : pc < finish)
    (hc : count pc = .ok c) (hi : codeAt code pc = .ok i) :
    tally code count finish (n + 1) pc mcount = tally code count finish n (pc + i.stride) (mcount + c) := by
  rw [tally, if_pos h, hc, hi]
  rfl

theorem fill_cons {range bound : Int} (c : cell) {cells : List cell} {pc max_count : Int}
    {t : Int × Int} {r : List cell × Int}
    (ht : tally code count (min (pc + range) bound) (min (pc + range) bound - pc).toNat pc 0 = .ok t)
    (hr : fill code count range bound cells t.2 (max max_count t.1) = .ok r) :
    fill code count range bound (c :: cells) pc max_count =
      .ok (⟨t.1, if t.1 ≠ c.bin then HOT_COLOR * PERSISTENCE else c.decay⟩ :: r.1, r.2) := by
  rw [fill, ht]
  show (fill code count range bound cells t.2 (max max_count t.1) >>= _) = _
  rw [hr]
  rfl

theorem histo_compute_skip (histo : histogram_t) {base bound : Int} (hz : base = 0 ∨ bound = 0) :
    histo_compute code count histo base bound = .ok histo := if_pos hz

theorem histo_compute_walk {histo : histogram_t} {base bound : Int} (hz : ¬(base = 0 ∨ bound = 0))
    (hbins : histo.bins ≠ 0) :
    histo_compute code count histo base bound =
      (fill code count ((bound - base).tdiv histo.bins) bound histo.cells base 0).map fun r =>
        ⟨r.1, base, bound, (bound - base).tdiv histo.bins, r.2⟩ := by
  rw [histo_compute, if_neg hz, if_neg hbins]
  rfl

end

/-- The loop over a bin, where every pc it comes to can be read. -/
theorem tally_eq {code : InsnSpace} (count : Int → Int) {finish : Int} (n : Nat) {pc : Int} (mcount : Int)
    (hread : ∀ p, Visits (stride code) finish pc p → ∃ i, codeAt code p = .ok i) :
    tally code (fun pc => .ok (count pc)) finish n pc mcount =
      .ok (mcount + ((places (stride code) finish n pc).map count).sum,
        final (stride code) finish n pc) := by
  induction n generalizing pc mcount with
  | zero =>
    rw [tally, places, final, List.map_nil, List.sum_nil, add_zero]
  | succ n ih =>
    by_cases h : pc < finish
    · obtain ⟨i, hi⟩ := hread pc (visits_self h)
      have hrest : ∀ p, Visits (stride code) finish (pc + i.stride) p →
          ∃ i, codeAt code p = .ok i := by
        intro p hp
        rw [← stride_of_at hi] at hp
        exact hread p ((visits_iff h).mpr (Or.inr hp))
      have hc : (fun pc => (.ok (count pc) : Reading Int)) pc = .ok (count pc) := rfl
      rw [tally_succ n mcount h hc hi, places, if_pos h, final, if_pos h, List.map_cons,
        List.sum_cons, ← add_assoc, stride_of_at hi]
      exact ih (mcount + count pc) hrest
    · rw [tally, if_neg h, places, if_neg h, final, if_neg h, List.map_nil, List.sum_nil, add_zero]

section
variable (code : InsnSpace) (count : Int → Int) (base bound range : Int)

/-- What bin `i` holds in the end. -/
def binCount (i : Nat) : Int :=
  ((sweep (stride code) (min (binStart (stride code) base bound range i + range) bound)
    (binStart (stride code) base bound range i)).map count).sum

/-- The range can be read. -/
def ReadableRange : Prop :=
  ∀ p, Visits (stride code) bound base p → ∃ i, codeAt code p = .ok i

variable {code base bound}

theorem tally_bin (hread : ReadableRange code base bound) (i : Nat) :
    tally code (fun pc => .ok (count pc)) (min (binStart (stride code) base bound range i + range) bound)
        (min (binStart (stride code) base bound range i + range) bound -
          binStart (stride code) base bound range i).toNat
        (binStart (stride code) base bound range i) 0 =
      .ok (binCount code count base bound range i, binStart (stride code) base bound range (i + 1)) := by
  rw [tally_eq count _ 0 fun p hp => hread p
    ((mem_bin (stride_pos code)).mp ((mem_sweep (stride_pos code)).mpr hp)).1, zero_add]
  rfl

/-- The bins that are left, each with the counts from where the walk is. -/
theorem fill_eq (hread : ReadableRange code base bound) (cells : List cell) (i : Nat) (max_count : Int) :
    ∃ r, fill code (fun pc => .ok (count pc)) range bound cells (binStart (stride code) base bound range i)
        max_count = .ok r ∧
      r.1.map cell.bin =
        (List.range cells.length).map fun k => binCount code count base bound range (i + k) := by
  induction cells generalizing i max_count with
  | nil => exact ⟨([], max_count), rfl, rfl⟩
  | cons c cells ih =>
    obtain ⟨r, hr, hrest⟩ := ih (i + 1) (max max_count (binCount code count base bound range i))
    refine ⟨_, fill_cons c (tally_bin count range hread i) hr, ?_⟩
    rw [List.map_cons, hrest, List.length_cons, List.range_succ_eq_map, List.map_cons, List.map_map]
    refine congrArg₂ List.cons rfl (List.map_congr_left ?_)
    intro k _
    rw [Function.comp_apply, Nat.succ_eq_add_one, Nat.add_right_comm, Nat.add_assoc]

/-- `histo_compute` over a range that is not skipped. -/
theorem histo_compute_eq (histo : histogram_t) (hread : ReadableRange code base bound) (hb : base ≠ 0)
    (hd : bound ≠ 0) (hbins : 1 ≤ histo.bins) :
    ∃ h, histo_compute code (fun pc => .ok (count pc)) histo base bound = .ok h ∧ h.base = base ∧
      h.range = (bound - base).tdiv histo.bins ∧
      h.cells.map cell.bin = (List.range histo.bins).map
        (binCount code count base bound ((bound - base).tdiv histo.bins)) := by
  obtain ⟨r, hr, hcells⟩ := fill_eq count ((bound - base).tdiv histo.bins) hread histo.cells 0 0
  have hne : ¬(base = 0 ∨ bound = 0) := by
    intro h
    exact h.elim hb hd
  refine ⟨⟨r.1, base, bound, (bound - base).tdiv histo.bins, r.2⟩, ?_, rfl, rfl, ?_⟩
  · rw [binStart] at hr
    rw [histo_compute_walk hne (by omega), hr]
    rfl
  · show r.1.map cell.bin = _
    rw [hcells]
    refine List.map_congr_left ?_
    intro k _
    rw [Nat.zero_add]

end

/-! ## What the bins are for -/

/-- After `histo_compute` each bin holds the counts of the instructions of its interval, the last
one those of what remains too; together they hold the counts of the range; and a click on a bin
selects its interval. -/
def Tallied (code : InsnSpace) (count : Int → Int) (histo : histogram_t) (base bound : Int) : Prop :=
  ∃ h, histo_compute code (fun pc => .ok (count pc)) histo base bound = .ok h ∧
    (h.cells.map cell.bin = (List.range histo.bins).map fun i =>
      ((intended (stride code) base bound ((bound - base) / histo.bins) histo.bins i).map count).sum) ∧
    (h.cells.map cell.bin).sum = ((sweep (stride code) bound base).map count).sum ∧
    ∀ i < histo.bins, h.select (i + 1) =
      (base + i * ((bound - base) / histo.bins), base + (i + 1) * ((bound - base) / histo.bins))

/-- A range that starts at an instruction start and ends at an instruction end. -/
structure InsnRange (code : InsnSpace) (base bound : Int) : Prop where
  start : InsnStart code base
  stop : InsnEnd code bound
  lt : base < bound

/-- The starts of a range are starts of the text. -/
theorem InsnRange.insnStart {code : InsnSpace} {base bound : Int} (h : InsnRange code base bound) {p : Int}
    (hp : Visits (stride code) bound base p) : InsnStart code p := by
  have hlim : p < code.limit.toInt := by
    by_contra hge
    rcases h.stop.prev with heq | ⟨q, hq, heq⟩
    · have hle := h.start.1.le (stride_pos code)
      have hlt := h.lt
      omega
    · have hp' : Boundary (stride code) (max code.limit.toInt bound) code.base.toInt p :=
        (h.start.1.mono (le_max_left _ _)).trans (hp.1.mono (le_max_right _ _))
      have hq' : Visits (stride code) (max code.limit.toInt bound) code.base.toInt q :=
        ⟨hq.1.mono (le_max_left _ _), lt_max_of_lt_left hq.2⟩
      have hgap := hq'.gap (stride_pos code) hp' (lt_of_lt_of_le hq.2 (not_lt.mp hge))
      have hlt := hp.2
      omega
  exact ⟨h.start.1.trans (Boundary.restrict (stride_pos code) hp.1 hlim).1, hlim⟩

/-- A range that is skipped shows what was shown before, whatever the counts are. -/
theorem not_tallied_of_zero {code : InsnSpace} {histo : histogram_t} {base bound : Int} (hlt : base < bound)
    (hz : base = 0 ∨ bound = 0) : ¬∀ count, Tallied code count histo base bound := by
  intro h
  have hsum : ∀ count : Int → Int,
      (histo.cells.map cell.bin).sum = ((sweep (stride code) bound base).map count).sum := by
    intro count
    obtain ⟨h', hrun, -, hsum, -⟩ := h count
    rw [histo_compute_skip histo hz, Except.ok.injEq] at hrun
    rw [hrun, hsum]
  have hmem : base ∈ sweep (stride code) bound base := (mem_sweep (stride_pos code)).mpr (visits_self hlt)
  have hnil : ∀ p, p ∈ sweep (stride code) bound base ↔ p ∈ ([] : List Int) := by
    refine (sum_eq_iff (sweep_nodup (stride_pos code) _ _) List.nodup_nil).mp ?_
    intro count
    have hzero : ((sweep (stride code) bound base).map fun _ => (0 : Int)).sum = 0 := by simp
    rw [← hsum count, hsum fun _ => 0, hzero, List.map_nil, List.sum_nil]
  exact List.not_mem_nil ((hnil base).mp hmem)

/-- The bins are right for all counts exactly if each of them visits its interval. -/
theorem bins_right_iff {code : InsnSpace} {base bound range : Int} (n : Nat) :
    (∀ count : Int → Int, (List.range n).map (binCount code count base bound range) =
      (List.range n).map fun i => ((intended (stride code) base bound range n i).map count).sum) ↔
    ∀ i < n, Right (stride code) base bound range n i := by
  have hone (i : Nat) : (∀ count : Int → Int, binCount code count base bound range i =
      ((intended (stride code) base bound range n i).map count).sum) ↔
      Right (stride code) base bound range n i := by
    unfold binCount intended
    rw [sum_eq_iff (sweep_nodup (stride_pos code) _ _) ((sweep_nodup (stride_pos code) _ _).filter _)]
    refine forall_congr' fun p => ?_
    rw [mem_bin (stride_pos code), List.mem_filter, mem_sweep (stride_pos code), decide_eq_true_eq]
    exact and_congr_right_iff
  constructor
  · intro h i hi
    refine (hone i).mp ?_
    intro count
    exact List.map_inj_left.mp (h count) i (List.mem_range.mpr hi)
  · intro h count
    refine List.map_congr_left ?_
    intro i hi
    exact (hone i).mpr (h i (List.mem_range.mp hi)) count

/-- **The bins.** Every instruction is counted in the bin of its interval exactly if the range is not
skipped and each bin fits: from the first instruction of its interval on, the width of a bin ends
where the interval does, as far as instruction starts go. -/
theorem tallied_iff {chain : List Entry} {mem : Riscv.Mem} {lo limit entry : Long} {code : InsnSpace}
    (hcode : loadelf chain mem lo limit entry = .text code) (histo : histogram_t) (hbins : 1 ≤ histo.bins)
    {base bound : Int} (hr : InsnRange code base bound) :
    (∀ count, Tallied code count histo base bound) ↔
      base ≠ 0 ∧ bound ≠ 0 ∧ ∀ i < histo.bins,
        Fits (stride code) base bound ((bound - base) / histo.bins) histo.bins i := by
  have hlt := hr.lt
  have hread : ReadableRange code base bound := fun p hp => readable_loadelf hcode p (hr.insnStart hp)
  have hwidth : (bound - base).tdiv histo.bins = (bound - base) / histo.bins :=
    Int.tdiv_eq_ediv_of_nonneg (by omega)
  have hw : 0 ≤ (bound - base) / histo.bins := Int.ediv_nonneg (by omega) (Int.natCast_nonneg _)
  have hlast : edge base ((bound - base) / histo.bins) (histo.bins - 1) ≤ bound := by
    have hmul := Int.ediv_mul_le (bound - base) (b := (histo.bins : Int)) (by omega)
    unfold edge
    push_cast [hbins]
    nlinarith
  by_cases hz : base = 0 ∨ bound = 0
  · refine iff_of_false (not_tallied_of_zero hlt hz) ?_
    intro h
    exact hz.elim h.1 h.2.1
  · obtain ⟨hb, hd⟩ := not_or.mp hz
    rw [← bins_iff (stride_pos code) hw, ← bins_right_iff]
    constructor
    · intro h
      refine ⟨hb, hd, ?_⟩
      intro count
      obtain ⟨h', hrun, hcells, -, -⟩ := h count
      obtain ⟨h'', hrun', -, -, hcells'⟩ := histo_compute_eq count histo hread hb hd hbins
      rw [hrun, Except.ok.injEq] at hrun'
      rw [← hrun', hwidth] at hcells'
      rw [← hcells', hcells]
    · intro h count
      obtain ⟨-, -, hright⟩ := h
      obtain ⟨h', hrun, hbase, hrange, hcells⟩ := histo_compute_eq count histo hread hb hd hbins
      rw [hwidth] at hrange hcells
      refine ⟨h', hrun, hcells.trans (hright count), ?_, ?_⟩
      · rw [hcells, hright count, sum_intended (stride_pos code) hw count (by omega) hlast]
      · intro i _
        rw [histogram_t.select, hbase, hrange]
        refine Prod.ext ?_ ?_
        · ring
        · ring

/-- Three instructions of four bytes. -/
def lrscCode : InsnSpace := lrscText.set 0x1000 lrscCas

theorem insnRange_lrsc : InsnRange lrscCode 0x1000 0x100c := by
  have hfirst : InsnStart lrscCode 0x1000 := visits_self (by decide)
  have hsecond : InsnStart lrscCode 0x1004 := ⟨hfirst.next, by decide⟩
  have hthird : InsnStart lrscCode 0x1008 := ⟨hsecond.next, by decide⟩
  exact ⟨hfirst, hthird.next, by decide⟩

/-- Three bins show one each, which here has its pc as its count. -/
theorem tallied_lrsc : Tallied lrscCode id (histo_create 4) 0x1000 0x100c := by
  refine (tallied_iff loadelf_lrscMem (histo_create 4) (by decide) insnRange_lrsc).mpr
    ⟨by decide, by decide, ?_⟩ id
  have hfirst : Visits (stride lrscCode) 0x100c 0x1000 0x1000 := visits_self (by decide)
  have hsecond : Visits (stride lrscCode) 0x100c 0x1000 0x1004 := ⟨hfirst.next, by decide⟩
  have hthird : Visits (stride lrscCode) 0x100c 0x1000 0x1008 := ⟨hsecond.next, by decide⟩
  intro i hi
  have h3 : i < 3 := hi
  interval_cases i
  · exact fits_of_edge hfirst (by decide)
  · exact fits_of_edge hsecond (by decide)
  · exact fits_of_edge hthird (by decide)

/-- Five bins show the second instruction in the bin in front of its own, and thirteen bins show
none. -/
theorem not_tallied_lrsc :
    InsnRange lrscCode 0x1000 0x100c ∧
    ¬(∀ count, Tallied lrscCode count (histo_create 6) 0x1000 0x100c) ∧
    ¬∀ count, Tallied lrscCode count (histo_create 14) 0x1000 0x100c := by
  refine ⟨insnRange_lrsc, ?_, ?_⟩
  · intro h
    obtain ⟨h', hrun, hcells, -, -⟩ := h fun _ => 1
    have hshown : (histo_compute lrscCode (fun _ => .ok 1) (histo_create 6) 0x1000 0x100c).map
        (fun h => h.cells.map cell.bin) = .ok [1, 1, 1, 0, 0] := rfl
    rw [hrun, Except.map, hcells, Except.ok.injEq] at hshown
    exact absurd hshown (by decide)
  · intro h
    obtain ⟨h', hrun, -, hsum, -⟩ := h fun _ => 1
    have hshown : (histo_compute lrscCode (fun _ => .ok 1) (histo_create 14) 0x1000 0x100c).map
        (fun h => (h.cells.map cell.bin).sum) = .ok 0 := rfl
    rw [hrun, Except.map, hsum, Except.ok.injEq] at hshown
    exact absurd hshown (by decide)

end Cavatools.Erised
