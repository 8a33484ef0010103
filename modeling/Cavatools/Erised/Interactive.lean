import Cavatools.Caveat.Perf
import Cavatools.Erised.Histogram
import Cavatools.Lib.Run

/-!
# `interactive`

The loop of the viewer: paint the two histograms and the assembly window, wait
for an event, move the bounds of the windows, and clamp them. The question is
whether it ever reads the text outside of its bounds, where the viewer dies at
an invalid pc.

What is painted lies inside the text in every turn, because of the clamps.
`Clamped` is the invariant: the range of the local histogram lies inside the
text, or is not set, and the assembly window does not begin in front of the
text. The clamps leave it whatever the event has made of the bounds
(`clamped_of_clamp`), and over such bounds nothing is read outside
(`histo_compute_valid`, `paint_valid`). The assembly window is painted from
its base down and stops at the end of the text by itself (`paintRows_ok`).

The two scroll events of the assembly window read the code before anything is
clamped: two bytes in front of both bounds to scroll up, at both bounds to
scroll down. The viewer dies in them exactly where the bounds that the
painting has left are too close to an end of the text (`InBounds`,
`handle_valid_iff`).

By the rule for runs this gives whole sessions (`interactive_valid_iff`,
`viewer_iff`): no invalid pc is read exactly if each event finds its bounds
so. Validity is about one way to die; a session may also end in a division by
zero, which is valid here. The counters are those of the first core of a
simulation of the same text, whose segment has a counter for every pc that can
be read (`counter_mapped`), and they may change at every turn.
-/

namespace Cavatools.Erised

open Uspike Caveat Lib.Sweep

/-- The window's lines below the title, with the count last shown in each (`old`) and its decay. -/
structure assembly_t where
  rows : List cell
  base : Int
  bound : Int
  deriving DecidableEq

def assembly_create (lines : Nat) : assembly_t := ⟨List.replicate (lines - 1) ⟨0, 0⟩, 0, 0⟩

structure Viewer where
  global : histogram_t
  «local» : histogram_t
  assembly : assembly_t
  deriving DecidableEq

inductive Window
  | assembly
  | global
  | «local»
  deriving DecidableEq

/-- A mouse event: the window that encloses it, its line, and the bits of `bstate` that are looked
at. -/
structure MEVENT where
  window : Option Window
  y : Int
  button1 : Bool
  button4 : Bool
  button5 : Bool
  shift : Bool
  deriving DecidableEq

/-- What `getch` returns. -/
inductive Key
  | ERR
  | quit
  | mouse (event : MEVENT)
  | other
  deriving DecidableEq

section
variable (h : perf_header_t) (p : perf_t) (s : Segment)

/-- A counter of the shared segment, with the `checkif` of its `index`. -/
def counter (f : Field) (pc : Int) : Reading Int :=
  match p.get h f pc s with
  | some c => .ok c
  | none => .error (.invalid_pc pc)

variable (code : InsnSpace)

/-! ## Painting -/

/-- `if (histo->decay[y] > 0) histo->decay[y]--;` for each line; the rest goes to the screen. -/
def cell.cool (c : cell) : cell := if c.decay > 0 then { c with decay := c.decay - 1 } else c

def histo_paint (histo : histogram_t) : histogram_t := { histo with cells := histo.cells.map cell.cool }

/-- The lines of the assembly window from `pc` on. `sdisasm` reads the instruction that the stride is
taken from afterwards. -/
def paintRows : List cell → Int → Reading (List cell × Int)
  | [], pc => .ok ([], pc)
  | c :: rows, pc =>
    if pc < code.limit.toInt then do
      let n ← counter h p s .executed pc
      let decay := if n ≠ c.bin then HOT_COLOR * PERSISTENCE else c.decay
      let _ ← counter h p s .cycles pc
      let _ ← counter h p s .imiss pc
      let _ ← counter h p s .dmiss pc
      let i ← codeAt code pc
      let rest ← paintRows rows (pc + i.stride)
      return (cell.cool ⟨n, decay⟩ :: rest.1, rest.2)
    else .ok (c :: rows, pc)

def assembly_paint (assembly : assembly_t) : Reading assembly_t :=
  if assembly.base ≠ 0 then do
    let r ← paintRows h p s code assembly.rows assembly.base
    return ⟨r.1, assembly.base, r.2⟩
  else .ok { assembly with bound := assembly.base }

def paint (v : Viewer) : Reading Viewer := do
  let global ← histo_compute code (counter h p s .executed) v.global code.base.toInt code.limit.toInt
  let «local» ← histo_compute code (counter h p s .executed) v.local v.local.base v.local.bound
  let assembly ← assembly_paint h p s code v.assembly
  return ⟨histo_paint global, histo_paint «local», assembly⟩

def resize_histos (lines : Nat) : Reading Viewer := do
  let global ← histo_compute code (counter h p s .executed) (histo_create lines)
    code.base.toInt code.limit.toInt
  let «local» ← histo_compute code (counter h p s .executed) (histo_create lines)
    code.base.toInt code.limit.toInt
  return ⟨global, «local», assembly_create lines⟩

/-! ## Events -/

/-- `code.at(pc-2).opcode() != Op_ZERO ? 2 : 4` -/
def stepBack (pc : Int) : Reading Int := do
  let i ← codeAt code (pc - 2)
  return if i.opcode ≠ .ZERO then 2 else 4

/-- `BUTTON4_PRESSED` in the assembly window. -/
def scrollUp (assembly : assembly_t) : Reading assembly_t := do
  let d ← stepBack code assembly.base
  let base := max (assembly.base - d) code.base.toInt
  let e ← stepBack code assembly.bound
  return { assembly with base := base, bound := assembly.bound - e }

/-- `BUTTON5_PRESSED` there. -/
def scrollDown (assembly : assembly_t) : Reading assembly_t := do
  let i ← codeAt code assembly.bound
  let bound := min (assembly.bound + i.stride) code.limit.toInt
  let j ← codeAt code assembly.base
  return { assembly with base := assembly.base + j.stride, bound := bound }

/-- What an event in the local histogram does; `scroll` is an `int`. -/
def scrollLocal (v : Viewer) (e : MEVENT) : Viewer :=
  let scroll := (BitVec.ofInt 32 v.local.range).toInt
  if e.button1 then { v with assembly := { v.assembly with base := (v.local.select e.y).1 } }
  else if e.button4 && e.shift then
    { v with «local» := { v.local with base := v.local.base + scroll, bound := v.local.bound - scroll } }
  else if e.button5 && e.shift then
    { v with «local» := { v.local with base := v.local.base - scroll, bound := v.local.bound + scroll } }
  else if e.button4 then
    { v with «local» := { v.local with base := v.local.base - scroll, bound := v.local.bound - scroll } }
  else if e.button5 then
    { v with «local» := { v.local with base := v.local.base + scroll, bound := v.local.bound + scroll } }
  else v

def mouse (v : Viewer) (e : MEVENT) : Reading Viewer :=
  match e.window with
  | some .assembly =>
    if e.button4 then do
      let assembly ← scrollUp code v.assembly
      return { v with assembly := assembly }
    else if e.button5 then do
      let assembly ← scrollDown code v.assembly
      return { v with assembly := assembly }
    else .ok v
  | some .global =>
    if e.button1 then
      let selected := v.global.select e.y
      .ok { v with «local» := { v.local with base := selected.1, bound := selected.2 } }
    else .ok v
  | some .local => .ok (scrollLocal v e)
  | none => .ok v

/-- The four comparisons behind the `switch`, with the division between them. -/
def clamp (v : Viewer) : Reading Viewer :=
  let base := max v.local.base code.base.toInt
  let bound := min v.local.bound code.limit.toInt
  if v.local.bins = 0 then .error .sigfpe
  else .ok {
    v with
    «local» := { v.local with base := base, bound := bound, range := (bound - base).tdiv v.local.bins }
    assembly := {
      v.assembly with
      base := max v.assembly.base code.base.toInt
      bound := min v.assembly.bound code.limit.toInt } }

/-- The `switch`. -/
def handle (v : Viewer) : Key → Reading Viewer
  | .mouse e => mouse code v e
  | _ => .ok v

end

section
variable (h : perf_header_t) (p : perf_t) (code : InsnSpace)

/-- From one wait for an event to the next: what comes is a key, and the counters as they are when the
windows are painted again. -/
def turn (v : Viewer) (key : Key × Segment) : Reading Viewer := do
  let v ← handle code v key.1
  let v ← clamp code v
  paint h p key.2 code v

/-- The loop, from a wait for an event on. `q` leaves it. -/
def interactive : List (Key × Segment) → Viewer → Reading Viewer
  | [], v => .ok v
  | key :: keys, v => if key.1 = .quit then .ok v else turn h p code v key >>= interactive keys

/-- What is shown first, in windows of `lines` lines, with the counters as they are in
`resize_histos` and at the first painting. -/
def opened (lines : Nat) (start first : Segment) : Reading Viewer :=
  resize_histos h p start code lines >>= paint h p first code

def viewer (lines : Nat) (start first : Segment) (keys : List (Key × Segment)) : Reading Viewer :=
  opened h p code lines start first >>= interactive h p code keys

end

/-! ## What is painted -/

def Inside (code : InsnSpace) (pc : Int) : Prop := code.base.toInt ≤ pc ∧ pc < code.limit.toInt

instance (code : InsnSpace) (pc : Int) : Decidable (Inside code pc) := inferInstanceAs (Decidable (_ ∧ _))

/-- Every pc of the text can be read. -/
def Mapped (code : InsnSpace) (count : Int → Reading Int) : Prop :=
  ∀ pc, Inside code pc → (∃ i, codeAt code pc = .ok i) ∧ ∃ n, count pc = .ok n

/-- It does not die at an invalid pc. -/
def Valid {α : Type} (r : Reading α) : Prop := ∀ pc, r ≠ .error (.invalid_pc pc)

theorem valid_ok {α : Type} (a : α) : Valid (.ok a : Reading α) := by
  intro pc h
  cases h

theorem valid_sigfpe {α : Type} : Valid (.error .sigfpe : Reading α) := by
  intro pc h
  rw [Except.error.injEq] at h
  exact Died.noConfusion h

/-- A sequence of two is as valid as its parts. -/
theorem valid_bind {α β : Type} {r : Reading α} {f : α → Reading β} :
    Valid (r >>= f) ↔ Valid r ∧ ∀ a, r = .ok a → Valid (f a) := by
  cases r with
  | error e =>
    have hsame : Valid (Except.error e >>= f) ↔ Valid (.error e : Reading α) := by
      refine forall_congr' fun pc => not_congr ?_
      show Except.error e = Except.error (.invalid_pc pc) ↔ _
      rw [Except.error.injEq, Except.error.injEq]
    refine hsame.trans (and_iff_left ?_).symm
    intro a ha
    cases ha
  | ok a =>
    show Valid (f a) ↔ _
    constructor
    · intro h
      refine ⟨valid_ok a, ?_⟩
      intro b hb
      rw [Except.ok.injEq] at hb
      rw [← hb]
      exact h
    · intro h
      exact h.2 a rfl

section
variable {code : InsnSpace} {count : Int → Reading Int} (hm : Mapped code count)
include hm

/-- A bin that ends inside the text is read inside the text. -/
theorem tally_ok {finish : Int} (hfin : finish ≤ code.limit.toInt) (n : Nat) {pc : Int}
    (hpc : code.base.toInt ≤ pc) (mcount : Int) :
    ∃ r, tally code count finish n pc mcount = .ok r ∧ pc ≤ r.2 := by
  induction n generalizing pc mcount with
  | zero => exact ⟨(mcount, pc), rfl, le_rfl⟩
  | succ n ih =>
    by_cases h : pc < finish
    · obtain ⟨⟨i, hi⟩, c, hc⟩ := hm pc ⟨hpc, lt_of_lt_of_le h hfin⟩
      have hstride := insn_stride_pos i
      have hnext : code.base.toInt ≤ pc + i.stride := by omega
      obtain ⟨r, hr, hle⟩ := ih hnext (mcount + c)
      exact ⟨r, (tally_succ n mcount h hc hi).trans hr, by omega⟩
    · exact ⟨(mcount, pc), by rw [tally, if_neg h], le_rfl⟩

theorem fill_ok {range bound : Int} (hb : bound ≤ code.limit.toInt) (cells : List cell) {pc : Int}
    (hpc : code.base.toInt ≤ pc) (max_count : Int) :
    ∃ r, fill code count range bound cells pc max_count = .ok r := by
  induction cells generalizing pc max_count with
  | nil => exact ⟨_, rfl⟩
  | cons c cells ih =>
    obtain ⟨t, ht, hle⟩ := tally_ok hm ((min_le_right (pc + range) bound).trans hb) _ hpc 0
    obtain ⟨r, hr⟩ := ih (hpc.trans hle) (max max_count t.1)
    exact ⟨_, fill_cons c ht hr⟩

/-- A range inside the text is read inside the text, and none is read where it is skipped. -/
theorem histo_compute_valid (histo : histogram_t) {base bound : Int}
    (hin : base = 0 ∨ bound = 0 ∨ code.base.toInt ≤ base ∧ bound ≤ code.limit.toInt) :
    Valid (histo_compute code count histo base bound) := by
  by_cases hz : base = 0 ∨ bound = 0
  · rw [histo_compute_skip histo hz]
    exact valid_ok histo
  · by_cases hbins : histo.bins = 0
    · rw [histo_compute, if_neg hz, if_pos hbins]
      exact valid_sigfpe
    · obtain ⟨hlo, hhi⟩ := (or_assoc.mpr hin).resolve_left hz
      obtain ⟨r, hr⟩ : ∃ r, fill code count ((bound - base).tdiv histo.bins) bound histo.cells base 0 = .ok r :=
        fill_ok hm hhi histo.cells hlo 0
      rw [histo_compute_walk hz hbins, hr]
      exact valid_ok _

end

/-- What a histogram covers afterwards. -/
theorem histo_compute_bounds {code : InsnSpace} {count : Int → Reading Int} {histo r : histogram_t}
    {base bound : Int} (h : histo_compute code count histo base bound = .ok r) :
    ((base = 0 ∨ bound = 0) ∧ r = histo) ∨ (r.base = base ∧ r.bound = bound) := by
  by_cases hz : base = 0 ∨ bound = 0
  · rw [histo_compute_skip histo hz, Except.ok.injEq] at h
    exact Or.inl ⟨hz, h.symm⟩
  · right
    by_cases hbins : histo.bins = 0
    · rw [histo_compute, if_neg hz, if_pos hbins] at h
      cases h
    · rw [histo_compute_walk hz hbins] at h
      cases hf : fill code count ((bound - base).tdiv histo.bins) bound histo.cells base 0 with
      | error e =>
        rw [hf] at h
        cases h
      | ok t =>
        rw [hf] at h
        obtain rfl := Except.ok.inj h
        exact ⟨rfl, rfl⟩

section
variable {h : perf_header_t} {p : perf_t} {s : Segment} {code : InsnSpace}
variable (hm : ∀ f, Mapped code (counter h p s f))
include hm

/-- The lines of the assembly window are read inside the text, or are left empty behind it. -/
theorem paintRows_ok (rows : List cell) {pc : Int} (hpc : code.base.toInt ≤ pc) :
    ∃ r, paintRows h p s code rows pc = .ok r := by
  induction rows generalizing pc with
  | nil => exact ⟨_, rfl⟩
  | cons c rows ih =>
    by_cases hlt : pc < code.limit.toInt
    · obtain ⟨⟨i, hi⟩, n, hn⟩ := hm .executed pc ⟨hpc, hlt⟩
      obtain ⟨-, k, hk⟩ := hm .cycles pc ⟨hpc, hlt⟩
      obtain ⟨-, l, hl⟩ := hm .imiss pc ⟨hpc, hlt⟩
      obtain ⟨-, d, hd⟩ := hm .dmiss pc ⟨hpc, hlt⟩
      have hstride := insn_stride_pos i
      have hnext : code.base.toInt ≤ pc + i.stride := by omega
      obtain ⟨r, hr⟩ := ih hnext
      refine ⟨(cell.cool ⟨n, if n ≠ c.bin then HOT_COLOR * PERSISTENCE else c.decay⟩ :: r.1, r.2), ?_⟩
      rw [paintRows, if_pos hlt, hn, hk, hl, hd, hi]
      show (paintRows h p s code rows (pc + i.stride) >>= _) = _
      rw [hr]
      rfl
    · exact ⟨(c :: rows, pc), by rw [paintRows, if_neg hlt]⟩

/-- The bounds that the clamps leave, or `resize_histos`. -/
structure Clamped (code : InsnSpace) (v : Viewer) : Prop where
  range : v.local.base = 0 ∨ v.local.bound = 0 ∨
    code.base.toInt ≤ v.local.base ∧ v.local.bound ≤ code.limit.toInt
  lines : v.assembly.base = 0 ∨ code.base.toInt ≤ v.assembly.base

/-- All that is painted is read inside the text. -/
theorem paint_valid {v : Viewer} (hv : Clamped code v) : Valid (paint h p s code v) := by
  refine valid_bind.mpr ⟨histo_compute_valid (hm .executed) _ (Or.inr (Or.inr ⟨le_rfl, le_rfl⟩)), ?_⟩
  intro global _
  refine valid_bind.mpr ⟨histo_compute_valid (hm .executed) _ hv.range, ?_⟩
  intro loc _
  refine valid_bind.mpr ⟨?_, fun assembly _ => valid_ok _⟩
  unfold assembly_paint
  split
  next hne =>
    obtain ⟨r, hr⟩ := paintRows_ok hm v.assembly.rows (hv.lines.resolve_left hne)
    rw [hr]
    exact valid_ok _
  next => exact valid_ok _

end

theorem clamp_valid (code : InsnSpace) (v : Viewer) : Valid (clamp code v) := by
  unfold clamp
  dsimp only
  split
  next => exact valid_sigfpe
  next => exact valid_ok _

theorem clamped_of_clamp {code : InsnSpace} {v w : Viewer} (h : clamp code v = .ok w) : Clamped code w := by
  unfold clamp at h
  dsimp only at h
  split at h
  next => cases h
  next =>
    obtain rfl := Except.ok.inj h
    exact ⟨Or.inr (Or.inr ⟨le_max_right _ _, min_le_right _ _⟩), Or.inr (le_max_right _ _)⟩

/-! ## A loaded text -/

/-- The count of slots is the count of halfwords, up to what an `int` loses. -/
theorem slotCount_emod {base limit : Long} (heven : 2 ∣ limit.toInt - base.toInt) :
    (slotCount base limit - (limit.toInt - base.toInt) / 2) % 2 ^ 32 = 0 := by
  have hcases : (limit - base).toInt % 2 ^ 64 = (limit.toInt - base.toInt) % 2 ^ 64 := by
    rw [BitVec.toInt_sub]
    exact Int.bmod_emod
  have hdvd : 2 ∣ (limit - base).toInt := by omega
  have hdiv : ((limit - base).sdiv 2).toInt = (limit - base).toInt / 2 := by
    rw [BitVec.toInt_sdiv_of_ne_or_ne _ _ (Or.inr (by decide))]
    exact Int.tdiv_eq_ediv_of_dvd hdvd
  have hnat : (((limit - base).sdiv 2).toNat : Int) % 2 ^ 64 = ((limit - base).sdiv 2).toInt % 2 ^ 64 := by
    rw [BitVec.toInt_eq_toNat_bmod]
    exact Int.bmod_emod.symm
  have hslot : slotCount base limit % 2 ^ 32 = (((limit - base).sdiv 2).toNat : Int) % 2 ^ 32 := by
    rw [slotCount, BitVec.toInt_setWidth]
    exact Int.bmod_emod
  rw [hdiv] at hnat
  omega

section
variable {chain : List Entry} {mem : Riscv.Mem} {base limit entry : Long} {code : InsnSpace}
  (hcode : loadelf chain mem base limit entry = .text code)
  (heven : 2 ∣ limit.toInt - base.toInt)
include hcode heven

/-- A text of whole halfwords that was loaded has a slot for each: the last start has one. -/
theorem length_loadelf (hlt : base.toInt < limit.toInt) :
    2 * (code.predecoded.length : Int) = limit.toInt - base.toInt := by
  obtain ⟨-, code₀, hpre, -⟩ := loadelf_text_iff.mp hcode
  have hslots := predecode_empty.2.mp (Option.isSome_iff_exists.mpr ⟨code₀, hpre⟩)
  have hend := le_sweepEnd (strideAt_pos chain mem) limit.toInt base.toInt
  have hlast : ∃ q, Uspike.Start chain mem base limit q ∧ limit.toInt ≤ q + strideAt chain mem q := by
    have hb : Boundary (strideAt chain mem) limit.toInt base.toInt
        (sweepEnd (strideAt chain mem) limit.toInt base.toInt) := final_boundary _ _
    rcases hb.prev with heq | ⟨q, hq, heq⟩
    · omega
    · exact ⟨q, hq, by omega⟩
  obtain ⟨q, hq, hle⟩ := hlast
  have hslot := hslots q hq
  have hlong : strideAt chain mem q ≤ 4 := by
    unfold strideAt
    rcases stride_cases (insnAt chain mem q) with h | h <;> omega
  have hmod := slotCount_emod heven
  have hcount := slotCount_lt base limit
  have hlength := (loadelf_textOf hcode).length
  omega

/-- Every pc inside a loaded text has a slot. -/
theorem codeAt_inside {pc : Int} (hpc : Inside code pc) : ∃ i, codeAt code pc = .ok i := by
  have ht := loadelf_textOf hcode
  have hin := hpc
  rw [Inside, ht.base_eq, ht.limit_eq] at hin
  have hlength := length_loadelf hcode heven (lt_of_le_of_lt hin.1 hin.2)
  have hslot : code.slotOf pc < code.predecoded.length := by
    unfold InsnSpace.slotOf
    rw [ht.base_eq]
    omega
  have hbounds : code.base.toInt ≤ pc ∧ pc < code.limit.toInt := hpc
  refine ⟨code.predecoded[code.slotOf pc], ?_⟩
  rw [codeAt, if_pos hbounds, List.getElem?_eq_getElem hslot]

/-- The counters of the first core of a simulation of the same text. -/
theorem counter_mapped {n : Int} (hn : 0 < n) (s : Segment) (f : Field) :
    Mapped code (counter (create base.toInt limit.toInt n)
      (perf_t.make (create base.toInt limit.toInt n) 0) s f) := by
  intro pc hpc
  refine ⟨codeAt_inside hcode heven hpc, ?_⟩
  have ht := loadelf_textOf hcode
  rw [Inside, ht.base_eq, ht.limit_eq] at hpc
  have hparcels : (create base.toInt limit.toInt n).parcels = (limit.toInt - base.toInt) / 2 :=
    Int.tdiv_eq_ediv_of_dvd heven
  have hbelow : (pc - base.toInt).tdiv 2 < (create base.toInt limit.toInt n).parcels := by
    rw [hparcels, Int.tdiv_eq_ediv_of_nonneg (by omega)]
    omega
  have hindex : index (create base.toInt limit.toInt n) pc = some ((pc - base.toInt).tdiv 2) :=
    if_pos ⟨hpc.1, hbelow⟩
  obtain ⟨a, haddr, -⟩ := address_make (n := 0) hn hindex f
  unfold counter perf_t.get
  rw [haddr]
  exact ⟨_, rfl⟩

end

/-! ## What the events read -/

/-- An event of the assembly window comes where the code can be read that it reads: two bytes in front
of both bounds to scroll up, at both bounds to scroll down. -/
def InBounds (code : InsnSpace) (v : Viewer) : Key → Prop
  | .mouse e =>
    e.window = some .assembly →
      (e.button4 = true → Inside code (v.assembly.base - 2) ∧ Inside code (v.assembly.bound - 2)) ∧
      (e.button4 = false → e.button5 = true → Inside code v.assembly.bound ∧ Inside code v.assembly.base)
  | _ => True

instance (code : InsnSpace) (v : Viewer) : (key : Key) → Decidable (InBounds code v key)
  | .mouse e =>
    inferInstanceAs (Decidable (e.window = some .assembly →
      (e.button4 = true → Inside code (v.assembly.base - 2) ∧ Inside code (v.assembly.bound - 2)) ∧
      (e.button4 = false → e.button5 = true →
        Inside code v.assembly.bound ∧ Inside code v.assembly.base)))
  | .ERR => isTrue trivial
  | .quit => isTrue trivial
  | .other => isTrue trivial

/-- A read dies exactly outside the text. -/
theorem codeAt_valid_iff {code : InsnSpace} {pc : Int} : Valid (codeAt code pc) ↔ Inside code pc := by
  by_cases h : code.base.toInt ≤ pc ∧ pc < code.limit.toInt
  · refine iff_of_true ?_ h
    intro q hq
    rw [codeAt, if_pos h] at hq
    split at hq
    next => cases hq
    next =>
      rw [Except.error.injEq] at hq
      exact Died.noConfusion hq
  · refine iff_of_false ?_ h
    intro hv
    exact hv pc (by rw [codeAt, if_neg h])

section
variable {code : InsnSpace} (hat : ∀ pc, Inside code pc → ∃ i, codeAt code pc = .ok i)
include hat

/-- Of two reads the second comes if the first one does not die. -/
theorem two_reads_iff {α : Type} {pc q : Int} {f : Insn → Insn → Reading α}
    (hf : ∀ i j, Valid (f i j)) :
    Valid (codeAt code pc >>= fun i => codeAt code q >>= f i) ↔ Inside code pc ∧ Inside code q := by
  rw [valid_bind, codeAt_valid_iff]
  refine and_congr_right ?_
  intro hpc
  obtain ⟨i, hi⟩ := hat pc hpc
  constructor
  · intro h
    exact codeAt_valid_iff.mp (valid_bind.mp (h i hi)).1
  · intro hq j _
    exact valid_bind.mpr ⟨codeAt_valid_iff.mpr hq, fun k _ => hf j k⟩

/-- Scrolling up reads two bytes in front of both bounds. -/
theorem scrollUp_valid_iff (assembly : assembly_t) :
    Valid (scrollUp code assembly) ↔
      Inside code (assembly.base - 2) ∧ Inside code (assembly.bound - 2) := by
  have hflat : scrollUp code assembly =
      codeAt code (assembly.base - 2) >>= fun i => codeAt code (assembly.bound - 2) >>= fun j =>
        .ok { assembly with
          base := max (assembly.base - if i.opcode ≠ .ZERO then 2 else 4) code.base.toInt
          bound := assembly.bound - if j.opcode ≠ .ZERO then 2 else 4 } := by
    unfold scrollUp stepBack
    cases codeAt code (assembly.base - 2) with
    | error e => rfl
    | ok i => cases codeAt code (assembly.bound - 2) <;> rfl
  rw [hflat]
  exact two_reads_iff hat fun _ _ => valid_ok _

theorem scrollDown_valid_iff (assembly : assembly_t) :
    Valid (scrollDown code assembly) ↔ Inside code assembly.bound ∧ Inside code assembly.base :=
  two_reads_iff hat fun _ _ => valid_ok _

/-- An event dies at an invalid pc only where it scrolls the assembly window out of bounds. -/
theorem handle_valid_iff (v : Viewer) (key : Key) : Valid (handle code v key) ↔ InBounds code v key := by
  cases key with
  | ERR => exact iff_of_true (valid_ok v) trivial
  | quit => exact iff_of_true (valid_ok v) trivial
  | other => exact iff_of_true (valid_ok v) trivial
  | mouse e =>
    obtain ⟨window, y, button1, button4, button5, shift⟩ := e
    cases window with
    | none => exact iff_of_true (valid_ok v) (fun h => absurd h.symm (Option.some_ne_none _))
    | some w =>
      cases w with
      | global =>
        refine iff_of_true ?_ (fun h => by cases h)
        cases button1 <;> exact valid_ok _
      | «local» => exact iff_of_true (valid_ok _) (fun h => by cases h)
      | assembly =>
        cases button4 with
        | true =>
          have hup : Valid (handle code v (.mouse ⟨some .assembly, y, button1, true, button5, shift⟩)) ↔
              Valid (scrollUp code v.assembly) :=
            valid_bind.trans (and_iff_left fun a _ => valid_ok _)
          rw [hup, scrollUp_valid_iff hat]
          simp [InBounds]
        | false =>
          cases button5 with
          | true =>
            have hdown : Valid (handle code v (.mouse ⟨some .assembly, y, button1, false, true, shift⟩)) ↔
                Valid (scrollDown code v.assembly) :=
              valid_bind.trans (and_iff_left fun a _ => valid_ok _)
            rw [hdown, scrollDown_valid_iff hat]
            simp [InBounds]
          | false => exact iff_of_true (valid_ok v) (by simp [InBounds])

end

/-! ## The whole session -/

/-- One turn, as far as it ends. -/
def next (h : perf_header_t) (p : perf_t) (code : InsnSpace) (v : Viewer) (key : Key × Segment) :
    Option Viewer := (turn h p code v key).toOption

/-- The keys up to `q`. -/
def played (keys : List (Key × Segment)) : List (Key × Segment) :=
  keys.takeWhile fun key => key.1 ≠ .quit

section
variable {h : perf_header_t} {p : perf_t} {code : InsnSpace}
variable (hm : ∀ s f, Mapped code (counter h p s f))
include hm

/-- A turn dies at an invalid pc only in its event. -/
theorem turn_valid_iff (v : Viewer) (key : Key × Segment) :
    Valid (turn h p code v key) ↔ InBounds code v key.1 := by
  have hat : ∀ pc, Inside code pc → ∃ i, codeAt code pc = .ok i := fun pc hpc =>
    (hm key.2 .executed pc hpc).1
  rw [← handle_valid_iff hat]
  refine valid_bind.trans (and_iff_left ?_)
  intro w _
  refine valid_bind.mpr ⟨clamp_valid code w, ?_⟩
  intro u hu
  exact paint_valid (hm key.2) (clamped_of_clamp hu)

/-- A session dies at an invalid pc exactly if one of its events does; the induction is on the keys.
-/
theorem interactive_valid_iff (keys : List (Key × Segment)) (v : Viewer) :
    Valid (interactive h p code keys v) ↔
      Lib.Along (next h p code) (fun v key => InBounds code v key.1) (played keys) v := by
  induction keys generalizing v with
  | nil => exact iff_of_true (valid_ok v) trivial
  | cons key keys ih =>
    by_cases hq : key.1 = .quit
    · have hplayed : played (key :: keys) = [] := List.takeWhile_cons_of_neg (by simpa using hq)
      rw [interactive, if_pos hq, hplayed]
      exact iff_of_true (valid_ok v) trivial
    · have hplayed : played (key :: keys) = key :: played keys :=
        List.takeWhile_cons_of_pos (by simpa using hq)
      rw [interactive, if_neg hq, valid_bind, turn_valid_iff hm, hplayed, Lib.Along]
      refine and_congr_right fun _ => forall_congr' fun w => ?_
      rw [ih w, next, Option.mem_def]
      cases turn h p code v key with
      | error e => exact iff_of_true (fun h => by cases h) (fun h => by cases h)
      | ok u =>
        rw [Except.toOption, Option.some_inj, Except.ok.injEq]

/-- Nothing that is painted first is read outside the text. -/
theorem opened_valid (lines : Nat) (start first : Segment) :
    Valid (opened h p code lines start first) := by
  have hcompute : Valid (histo_compute code (counter h p start .executed) (histo_create lines)
      code.base.toInt code.limit.toInt) :=
    histo_compute_valid (hm start .executed) _ (Or.inr (Or.inr ⟨le_rfl, le_rfl⟩))
  refine valid_bind.mpr ⟨?_, ?_⟩
  · refine valid_bind.mpr ⟨hcompute, fun g _ => valid_bind.mpr ⟨hcompute, fun l _ => valid_ok _⟩⟩
  · intro v hv
    refine paint_valid (hm first) ?_
    unfold resize_histos at hv
    cases hc : histo_compute code (counter h p start .executed) (histo_create lines)
        code.base.toInt code.limit.toInt with
    | error e =>
      rw [hc] at hv
      cases hv
    | ok g =>
      rw [hc] at hv
      obtain rfl := Except.ok.inj hv
      refine ⟨?_, Or.inl rfl⟩
      show g.base = 0 ∨ g.bound = 0 ∨ code.base.toInt ≤ g.base ∧ g.bound ≤ code.limit.toInt
      rcases histo_compute_bounds hc with ⟨-, hg⟩ | ⟨hb, hd⟩
      · rw [hg]
        exact Or.inl rfl
      · rw [hb, hd]
        exact Or.inr (Or.inr ⟨le_rfl, le_rfl⟩)

end

/-- **The viewer.** For a loaded text of whole halfwords and the counters of its simulation, the viewer
dies at an invalid pc exactly if a scroll event of the assembly window comes too close to an end of
the text. -/
theorem viewer_iff {chain : List Entry} {mem : Riscv.Mem} {base limit entry : Long} {code : InsnSpace}
    (hcode : loadelf chain mem base limit entry = .text code)
    (heven : 2 ∣ limit.toInt - base.toInt) {n : Int} (hn : 0 < n) (lines : Nat) (start first : Segment)
    (keys : List (Key × Segment)) :
    let h := create base.toInt limit.toInt n
    let p := perf_t.make h 0
    Valid (viewer h p code lines start first keys) ↔
      ∀ v, opened h p code lines start first = .ok v →
        Lib.Along (next h p code) (fun v key => InBounds code v key.1) (played keys) v := by
  intro h p
  have hm : ∀ s f, Mapped code (counter h p s f) := fun s f => counter_mapped hcode heven hn s f
  refine valid_bind.trans ((and_iff_right (opened_valid hm lines start first)).trans ?_)
  exact forall_congr' fun v => imp_congr_right fun _ => interactive_valid_iff hm keys v

/-- Counters that count nothing. -/
def zeros : Segment := fun _ => 0

def lrscHeader : perf_header_t := create (0x1000 : Long).toInt (0x100c : Long).toInt 1

/-- The wheel in the assembly window. -/
def wheel (up : Bool) : Key := .mouse ⟨some .assembly, 1, false, up, !up, false⟩

/-- One line of assembly, scrolled down by an instruction and up again. -/
theorem viewer_lrsc :
    Valid (viewer lrscHeader (perf_t.make lrscHeader 0) lrscCode 2 zeros zeros
      [(.ERR, zeros), (wheel false, zeros), (wheel true, zeros)]) := by
  refine (viewer_iff loadelf_lrscMem (by decide) (n := 1) (by decide) 2 zeros zeros
    [(.ERR, zeros), (wheel false, zeros), (wheel true, zeros)]).mpr ?_
  intro v hv
  have hopened : opened lrscHeader (perf_t.make lrscHeader 0) lrscCode 2 zeros zeros =
      .ok ⟨⟨[⟨0, 0⟩], 0x1000, 0x100c, 12, 0⟩, ⟨[⟨0, 0⟩], 0x1000, 0x100c, 12, 0⟩, ⟨[⟨0, 0⟩], 0, 0⟩⟩ := rfl
  obtain rfl := Except.ok.inj (hopened.symm.trans hv)
  decide

/-- The wheel turned up at the top of the text reads in front of it, and turned down at its end
behind it. -/
theorem viewer_dies :
    ¬Valid (viewer lrscHeader (perf_t.make lrscHeader 0) lrscCode 2 zeros zeros
      [(.ERR, zeros), (wheel true, zeros)]) ∧
    ¬Valid (viewer lrscHeader (perf_t.make lrscHeader 0) lrscCode 5 zeros zeros
      [(.ERR, zeros), (wheel false, zeros)]) :=
  ⟨fun h => h 0xffe rfl, fun h => h 0x100c rfl⟩

end Cavatools.Erised
