import Cavatools.Caveat.CacheLru
import Cavatools.Caveat.Perf
import Cavatools.Lib.Run
import Cavatools.Uspike.Mmu

/-!
# `mem_t`: caveat's timing model

Each of the five models charges cycles to a pc of the text and to the core's
clock, looks an address up in one of the two caches or in none, and charges
the penalty of a miss. A model here gives the new clock and caches and the
counter updates in the order the C++ makes them; `perform` applies those to
the segment. The three data models share one body (`data_model`).

Everything is counted twice, once in the core and once in the shared counters,
and this file is about the two agreeing. `Charged` has the books of one call:
what it adds to the clock and to the caches' own counts, against what its
updates add to each counter over the text. `call_charged` proves it for each
model, from what a lookup adds to its cache. Over a run `Balanced` has the
same for totals, and it is kept by every call (`perform_balanced`).

A run also has to get through: a call could fail in a lookup, at a null
pointer, or at a pc that has no counters. `Sound` rules the first out: the
instruction cache has only been read, so no line of it is dirty, and the data
cache has somewhere to note what it evicts. With a region for the core and pcs
of the text no call fails (`call_sound`, `performs_sound`).

`run_balanced` puts it together for any sequence of calls from a fresh `mem_t`
with a zeroed region. Caches are `Admitted` if the tag and the arithmetic of
rows allow their sizes.
-/

namespace Cavatools.Caveat

open Uspike (Long Mmu)

/-- The options of caveat. -/
structure Conf where
  Jump : Int
  Imiss : Int
  Iways : Nat
  Iline : Nat
  Irows : Nat
  Dmiss : Int
  Dways : Nat
  Dline : Nat
  Drows : Nat
  cores : Int

structure mem_t extends perf_t where
  local_time : Int
  ic : cache_t
  dc : cache_t

variable (h : perf_header_t) (conf : Conf)

namespace mem_t

/-- The constructor; there is no object when a cache exits the process. -/
def make (n : Int) : Option mem_t := do
  let ig ← geometry conf.Iways conf.Iline conf.Irows
  let dg ← geometry conf.Dways conf.Dline conf.Drows
  return { perf_t.make h n with
    local_time := 0
    ic := cache_t.make conf.Imiss ig false
    dc := cache_t.make conf.Dmiss dg true }

variable (m : mem_t)

def insn_model (pc : Long) : Option (mem_t × List Inc) :=
  match m.ic.lookup pc false with
  | none => none
  | some (hit, ic) =>
    let m := { m with ic := ic }
    if hit then
      some ({ m with local_time := m.local_time + 1 }, [inc_count pc.toInt, inc_cycle pc.toInt])
    else
      let m := { m with local_time := m.local_time + ic._penalty }
      some ({ m with local_time := m.local_time + 1 },
        [inc_imiss pc.toInt, inc_cycle pc.toInt ic._penalty, inc_count pc.toInt, inc_cycle pc.toInt])

/-- A taken jump is charged to its target. -/
def jump_model (npc _pc : Long) : Option (mem_t × List Inc) :=
  some ({ m with local_time := m.local_time + conf.Jump }, [inc_cycle npc.toInt conf.Jump])

/-- The body that the three data models share. -/
def data_model (write : Bool) (a pc : Long) : Option (mem_t × List Inc) :=
  match m.dc.lookup a write with
  | none => none
  | some (hit, dc) =>
    let m := { m with dc := dc }
    if hit then some (m, [])
    else
      some ({ m with local_time := m.local_time + dc._penalty },
        [inc_dmiss pc.toInt, inc_cycle pc.toInt dc._penalty])

def load_model (a pc : Long) : Option (mem_t × List Inc) := m.data_model false a pc
def store_model (a pc : Long) : Option (mem_t × List Inc) := m.data_model true a pc
def amo_model (a pc : Long) : Option (mem_t × List Inc) := m.data_model true a pc

end mem_t

/-- A call of one of the models. -/
inductive Call
  | insn_model (pc : Long)
  | jump_model (npc pc : Long)
  | load_model (a pc : Long)
  | store_model (a pc : Long)
  | amo_model (a pc : Long)

def mem_t.call (m : mem_t) : Call → Option (mem_t × List Inc)
  | .insn_model pc => m.insn_model pc
  | .jump_model npc pc => m.jump_model conf npc pc
  | .load_model a pc => m.load_model a pc
  | .store_model a pc => m.store_model a pc
  | .amo_model a pc => m.amo_model a pc

/-- A call with its counter updates. -/
def perform (c : Call) (ms : mem_t × Segment) : Option (mem_t × Segment) :=
  match ms.1.call conf c with
  | none => none
  | some (m, us) => (ms.1.incs h us ms.2).map fun s => (m, s)

/-- A sequence of calls. -/
def performs : List Call → mem_t × Segment → Option (mem_t × Segment) :=
  Lib.run fun ms c => perform h conf c ms

/-- What the interpreter calls; each model returns the address it was given. -/
def caveat_mmu : Mmu (mem_t × Segment) where
  insn_model pc ms := perform h conf (.insn_model pc) ms
  jump_model npc pc ms := (perform h conf (.jump_model npc pc) ms).map fun ms => (npc, ms)
  load_model a pc ms := (perform h conf (.load_model a pc) ms).map fun ms => (a, ms)
  store_model a pc ms := (perform h conf (.store_model a pc) ms).map fun ms => (a, ms)
  amo_model a pc ms := perform h conf (.amo_model a pc) ms

/-! ## What one call charges -/

namespace Call

def insns : Call → Int
  | insn_model _ => 1
  | _ => 0

def jumps : Call → Int
  | jump_model _ _ => 1
  | _ => 0

def accesses : Call → Int
  | insn_model _ => 0
  | jump_model _ _ => 0
  | _ => 1

/-- The pc whose counters a call updates. -/
def charged : Call → Long
  | insn_model pc => pc
  | jump_model npc _ => npc
  | load_model _ pc => pc
  | store_model _ pc => pc
  | amo_model _ pc => pc

/-- The pc a call charges is in the text. -/
def InText (c : Call) : Prop := (index h c.charged.toInt).isSome = true

end Call

/-- The books of one call: what it adds to the clock and the caches' counts, against
what its updates add to each counter. -/
structure Charged (c : Call) (m m' : mem_t) (us : List Inc) : Prop where
  perf : m'.toperf_t = m.toperf_t
  ipenalty : m'.ic._penalty = m.ic._penalty
  dpenalty : m'.dc._penalty = m.dc._penalty
  time : m'.local_time = m.local_time + added .cycles us
  cycles : added .cycles us = added .executed us + conf.Jump * c.jumps
    + m.ic._penalty * added .imiss us + m.dc._penalty * added .dmiss us
  imisses : m'.ic._misses = m.ic._misses + added .imiss us
  dmisses : m'.dc._misses = m.dc._misses + added .dmiss us
  irefs : m'.ic._refs = m.ic._refs + added .executed us
  insns : added .executed us = c.insns
  drefs : m'.dc._refs = m.dc._refs + c.accesses
  pcs : ∀ u ∈ us, u.pc = c.charged.toInt

variable {h conf}

/-- An instruction is one count, one cycle, and the penalty if its line misses. -/
theorem insn_model_charged {m m' : mem_t} {pc : Long} {us : List Inc}
    (hcall : m.insn_model pc = some (m', us)) : Charged conf (.insn_model pc) m m' us := by
  unfold mem_t.insn_model at hcall
  split at hcall
  case h_1 => cases hcall
  case h_2 hit ic hlookup =>
    obtain ⟨hrefs, hmisses, hpenalty⟩ := cache_t.lookup_counts hlookup
    cases hit with
    | true =>
      -- a hit: one instruction and one cycle
      obtain ⟨rfl, rfl⟩ := Prod.mk.inj (Option.some.inj hcall)
      constructor <;> simp_all [inc_count, inc_cycle, Call.insns, Call.jumps, Call.accesses, Call.charged]
    | false =>
      -- a miss: the penalty goes to the clock and to the counter of the same pc
      obtain ⟨rfl, rfl⟩ := Prod.mk.inj (Option.some.inj hcall)
      constructor <;>
        simp_all [inc_count, inc_cycle, inc_imiss, Call.insns, Call.jumps, Call.accesses,
          Call.charged] <;> omega

theorem jump_model_charged {m m' : mem_t} {npc pc : Long} {us : List Inc}
    (hcall : m.jump_model conf npc pc = some (m', us)) :
    Charged conf (.jump_model npc pc) m m' us := by
  obtain ⟨rfl, rfl⟩ := Prod.mk.inj (Option.some.inj hcall)
  constructor <;> simp [inc_cycle, Call.insns, Call.jumps, Call.accesses, Call.charged]

/-- An access is a lookup in the data cache, and costs nothing unless it misses. -/
theorem data_model_charged {m m' : mem_t} {write : Bool} {a pc : Long} {us : List Inc} {c : Call}
    (hinsns : c.insns = 0) (hjumps : c.jumps = 0) (haccesses : c.accesses = 1) (hcharged : c.charged = pc)
    (hcall : m.data_model write a pc = some (m', us)) : Charged conf c m m' us := by
  unfold mem_t.data_model at hcall
  split at hcall
  case h_1 => cases hcall
  case h_2 hit dc hlookup =>
    obtain ⟨hrefs, hmisses, hpenalty⟩ := cache_t.lookup_counts hlookup
    cases hit with
    | true =>
      obtain ⟨rfl, rfl⟩ := Prod.mk.inj (Option.some.inj hcall)
      constructor <;> simp_all
    | false =>
      obtain ⟨rfl, rfl⟩ := Prod.mk.inj (Option.some.inj hcall)
      constructor <;> simp_all [inc_cycle, inc_dmiss]

/-- **One call** keeps the books. -/
theorem call_charged {m m' : mem_t} {c : Call} {us : List Inc}
    (hcall : m.call conf c = some (m', us)) : Charged conf c m m' us := by
  cases c with
  | insn_model pc => exact insn_model_charged hcall
  | jump_model npc pc => exact jump_model_charged hcall
  | load_model a pc => exact data_model_charged rfl rfl rfl rfl hcall
  | store_model a pc => exact data_model_charged rfl rfl rfl rfl hcall
  | amo_model a pc => exact data_model_charged rfl rfl rfl rfl hcall

/-! ## Runs -/

/-- The books of a run that started at `t0`. -/
structure Balanced (h : perf_header_t) (conf : Conf) (t0 jumps accesses : Int) (m : mem_t)
    (s : Segment) : Prop where
  time : m.local_time - t0 = total h m.toperf_t .cycles s
  cycles : m.local_time - t0 = total h m.toperf_t .executed s + conf.Jump * jumps
    + m.ic._penalty * total h m.toperf_t .imiss s + m.dc._penalty * total h m.toperf_t .dmiss s
  imisses : total h m.toperf_t .imiss s = m.ic._misses
  dmisses : total h m.toperf_t .dmiss s = m.dc._misses
  irefs : total h m.toperf_t .executed s = m.ic._refs
  drefs : accesses = m.dc._refs

/-- What a performed call did to the segment, for the core of an allocated region. -/
theorem perform_spec {n : Int} (hn : n < h._cores) {c : Call} {m m' : mem_t} {s s' : Segment}
    (hm : m.toperf_t = perf_t.make h n) (hrun : perform h conf c (m, s) = some (m', s')) :
    ∃ us, Charged conf c m m' us ∧
      (∀ f, total h m.toperf_t f s' = total h m.toperf_t f s + added f us) ∧
      ∀ a, ¬InRegion h n a → s' a = s a := by
  unfold perform at hrun
  split at hrun
  case h_1 => cases hrun
  case h_2 m₁ us hcall =>
    obtain ⟨s₂, hs₂, heq⟩ := Option.map_eq_some_iff.mp hrun
    obtain ⟨rfl, rfl⟩ := Prod.mk.inj heq
    obtain ⟨s₁, hs₁, htotal, hframe⟩ := incs_make hn (index_of_incs hs₂) s
    rw [← hm] at hs₁ htotal
    obtain rfl := Option.some.inj (hs₁.symm.trans hs₂)
    exact ⟨us, call_charged hcall, htotal, hframe⟩

/-- A call keeps the books balanced. -/
theorem perform_balanced {n : Int} (hn : n < h._cores) {c : Call} {m m' : mem_t}
    {s s' : Segment} {t0 jumps accesses : Int} (hm : m.toperf_t = perf_t.make h n)
    (hbal : Balanced h conf t0 jumps accesses m s)
    (hrun : perform h conf c (m, s) = some (m', s')) :
    m'.toperf_t = perf_t.make h n ∧
      Balanced h conf t0 (jumps + c.jumps) (accesses + c.accesses) m' s' := by
  obtain ⟨us, hch, htotal, -⟩ := perform_spec hn hm hrun
  refine ⟨hch.perf.trans hm, ?_, ?_, ?_, ?_, ?_, ?_⟩
  · rw [hch.perf, htotal, hch.time, ← hbal.time]
    ring
  · have hold := hbal.cycles
    have hadd := hch.cycles
    rw [hch.perf, htotal, htotal, htotal, hch.ipenalty, hch.dpenalty, hch.time]
    linear_combination hold + hadd
  · rw [hch.perf, htotal, hbal.imisses, hch.imisses]
  · rw [hch.perf, htotal, hbal.dmisses, hch.dmisses]
  · rw [hch.perf, htotal, hbal.irefs, hch.irefs]
  · rw [hbal.drefs, hch.drefs]

/-- So does a run. -/
theorem performs_balanced {n : Int} (hn : n < h._cores) {cs : List Call} {m m' : mem_t}
    {s s' : Segment} {t0 jumps accesses : Int} (hm : m.toperf_t = perf_t.make h n)
    (hbal : Balanced h conf t0 jumps accesses m s)
    (hrun : performs h conf cs (m, s) = some (m', s')) :
    Balanced h conf t0 (jumps + (cs.map Call.jumps).sum) (accesses + (cs.map Call.accesses).sum)
      m' s' := by
  induction cs generalizing m s jumps accesses with
  | nil =>
    obtain ⟨rfl, rfl⟩ := Prod.mk.inj (Option.some.inj hrun)
    simpa using hbal
  | cons c cs ih =>
    obtain ⟨⟨m₁, s₁⟩, hstep, hrest⟩ := Lib.run_cons hrun
    obtain ⟨hm₁, hbal₁⟩ := perform_balanced hn hm hbal hstep
    have hend := ih hm₁ hbal₁ hrest
    rw [List.map_cons, List.map_cons, List.sum_cons, List.sum_cons, ← Int.add_assoc, ← Int.add_assoc]
    exact hend

/-! ### No call fails -/

/-- The caches of a running core: the instruction cache has only been read, and the
data cache can note what it evicts. -/
structure Sound (is ds : List State) (m : mem_t) : Prop where
  itracks : Tracks is m.ic
  clean : ∀ w r, (m.ic.tags w r).dirty = false
  dtracks : Tracks ds m.dc
  writeable : m.dc.evicted.isSome = true

/-- With sound caches no model fails, and the caches stay sound. -/
theorem call_sound (conf : Conf) {is ds : List State} {m : mem_t} (hm : Sound is ds m) (c : Call) :
    ∃ m' us, m.call conf c = some (m', us) ∧ Sound is ds m' := by
  have hdata (write : Bool) (a pc : Long) :
      ∃ m' us, m.data_model write a pc = some (m', us) ∧ Sound is ds m' := by
    rcases lookup_spec hm.dtracks a write with ⟨hit, dc, hget, ha⟩ | ⟨-, hnull, -⟩
    · have hwr : dc.evicted.isSome = true := ha.evicted.trans hm.writeable
      unfold mem_t.data_model
      rw [hget]
      cases hit with
      | true => exact ⟨_, _, rfl, hm.itracks, hm.clean, ha.tracks, hwr⟩
      | false => exact ⟨_, _, rfl, hm.itracks, hm.clean, ha.tracks, hwr⟩
    · -- the data cache has an `evicted` to store to
      have hwr := hm.writeable
      rw [hnull] at hwr
      cases hwr
  cases c with
  | insn_model pc =>
    rcases lookup_spec hm.itracks pc false with ⟨hit, ic, hget, ha⟩ | ⟨-, -, w, r, hdirty⟩
    · have hclean : ∀ w r, (ic.tags w r).dirty = false := by
        intro w r
        by_contra hd
        rcases ha.dirty w r (by simpa using hd) with hw | hold
        · cases hw
        · rw [hm.clean] at hold
          cases hold
      show ∃ m' us, m.insn_model pc = some (m', us) ∧ Sound is ds m'
      unfold mem_t.insn_model
      rw [hget]
      cases hit with
      | true => exact ⟨_, _, rfl, ha.tracks, hclean, hm.dtracks, hm.writeable⟩
      | false => exact ⟨_, _, rfl, ha.tracks, hclean, hm.dtracks, hm.writeable⟩
    · -- nothing of the instruction cache is dirty
      rw [hm.clean] at hdirty
      cases hdirty
  | jump_model npc pc => exact ⟨_, _, rfl, hm.itracks, hm.clean, hm.dtracks, hm.writeable⟩
  | load_model a pc => exact hdata false a pc
  | store_model a pc => exact hdata true a pc
  | amo_model a pc => exact hdata true a pc

/-- A run of calls at pcs of the text gets through. -/
theorem performs_sound {n : Int} (hn : n < h._cores) {is ds : List State} {cs : List Call}
    (hcs : ∀ c ∈ cs, c.InText h) {m : mem_t} (s : Segment) (hp : m.toperf_t = perf_t.make h n)
    (hm : Sound is ds m) : ∃ m' s', performs h conf cs (m, s) = some (m', s') := by
  -- on the calls; each leaves the caches fit for the next
  induction cs generalizing m s with
  | nil => exact ⟨m, s, rfl⟩
  | cons c cs ih =>
    obtain ⟨m₁, us, hcall, hm₁⟩ := call_sound conf hm c
    have hch := call_charged hcall
    have hpcs : ∀ u ∈ us, (index h u.pc).isSome = true := by
      intro u hu
      rw [hch.pcs u hu]
      exact hcs c List.mem_cons_self
    obtain ⟨s₁, hs₁, -⟩ := incs_make hn hpcs s
    obtain ⟨m', s', hrest⟩ :=
      ih (fun d hd => hcs d (List.mem_cons_of_mem _ hd)) s₁ (hch.perf.trans hp) hm₁
    have hstep : perform h conf c (m, s) = some (m₁, s₁) := by
      unfold perform
      dsimp only
      rw [hcall]
      dsimp only
      rw [hp, hs₁]
      rfl
    exact ⟨m', s', Option.bind_eq_some_iff.mpr ⟨(m₁, s₁), hstep, hrest⟩⟩

/-! ### From a fresh `mem_t` -/

/-- Caches that the tag width and the row arithmetic allow. -/
structure Conf.Admitted (conf : Conf) : Prop where
  iline : 1 ≤ conf.Iline ∧ conf.Iline ≤ 30
  irows : conf.Irows ≤ 30
  dline : 1 ≤ conf.Dline ∧ conf.Dline ≤ 30
  drows : conf.Drows ≤ 30

theorem make_spec {n : Int} {m : mem_t} (hm : mem_t.make h conf n = some m) :
    ∃ ig ∈ geometry conf.Iways conf.Iline conf.Irows, ∃ dg ∈ geometry conf.Dways conf.Dline conf.Drows,
      m.toperf_t = perf_t.make h n ∧ m.ic = cache_t.make conf.Imiss ig false ∧
      m.dc = cache_t.make conf.Dmiss dg true := by
  unfold mem_t.make at hm
  simp only [Option.bind_eq_bind, Option.bind_eq_some_iff] at hm
  obtain ⟨ig, hig, dg, hdg, hm⟩ := hm
  obtain rfl := Option.some.inj hm
  exact ⟨ig, hig, dg, hdg, rfl, rfl, rfl⟩

theorem made_tracks {states : List State} {g : Geometry} {w : Nat} (hok : FsmOk w g.fsm states)
    (hways : g.ways = w) (hw : 1 ≤ w) (hline : 1 ≤ g.lg_line) (hrows : g.lg_rows ≤ 30) {miss : Int}
    {writeable : Bool} : Tracks states (cache_t.make miss g writeable) := by
  subst hways
  exact tracks_flush hok hw hline hrows

/-- The caches of a new `mem_t` are sound. -/
theorem make_sound {n : Int} {m : mem_t} (hm : mem_t.make h conf n = some m) (hconf : conf.Admitted) :
    ∃ is ds, Sound is ds m := by
  obtain ⟨ig, hig, dg, hdg, -, hic, hdc⟩ := make_spec hm
  obtain ⟨is, hi1, -, hiok, hiw, hil, hir⟩ := geometry_some hig
  obtain ⟨ds, hd1, -, hdok, hdw, hdl, hdr⟩ := geometry_some hdg
  refine ⟨is, ds, ?_, ?_, ?_, ?_⟩
  · rw [hic]
    exact made_tracks hiok hiw hi1 (by rw [hil]; exact hconf.iline.1) (by rw [hir]; exact hconf.irows)
  · intro w r
    rw [hic]
    rfl
  · rw [hdc]
    exact made_tracks hdok hdw hd1 (by rw [hdl]; exact hconf.dline.1) (by rw [hdr]; exact hconf.drows)
  · rw [hdc]
    rfl

/-- **The books balance.** From a fresh `mem_t` with a zeroed region of its own and the
clock at `t0`, any sequence of model calls inside the text leaves the clock, the
counters summed over the text and the caches' own counts in agreement; and with caches
of an admitted size every such sequence can be made. -/
theorem run_balanced {n : Int} (hn : n < h._cores) {m₀ : mem_t} (hm : mem_t.make h conf n = some m₀)
    {s₀ : Segment} (hs : ∀ a, InRegion h n a → s₀ a = 0) (t0 : Int) {cs : List Call}
    (hcs : ∀ c ∈ cs, c.InText h) :
    (conf.Admitted → ∃ m s, performs h conf cs ({ m₀ with local_time := t0 }, s₀) = some (m, s)) ∧
    ∀ m s, performs h conf cs ({ m₀ with local_time := t0 }, s₀) = some (m, s) →
      Balanced h conf t0 (cs.map Call.jumps).sum (cs.map Call.accesses).sum m s := by
  obtain ⟨ig, -, dg, -, hperf, hic, hdc⟩ := make_spec hm
  constructor
  · intro hconf
    obtain ⟨is, ds, hsound⟩ := make_sound hm hconf
    have hstart : Sound is ds { m₀ with local_time := t0 } :=
      ⟨hsound.itracks, hsound.clean, hsound.dtracks, hsound.writeable⟩
    exact performs_sound hn hcs s₀ hperf hstart
  · intro m s hrun
    have hzero (f : Field) : total h m₀.toperf_t f s₀ = 0 := by
      rw [hperf]
      exact total_zero hn hs f
    have hstart : Balanced h conf t0 0 0 { m₀ with local_time := t0 } s₀ := by
      constructor <;> simp only [hzero, hic, hdc] <;> simp [cache_t.make, cache_t.flush]
    have hend := performs_balanced (m := { m₀ with local_time := t0 }) hn hperf hstart hrun
    rw [Int.zero_add, Int.zero_add] at hend
    exact hend

/-- Direct-mapped caches of one line each, and a text of four parcels. -/
def tinyConf : Conf :=
  { Jump := 2, Imiss := 15, Iways := 1, Iline := 6, Irows := 0,
    Dmiss := 15, Dways := 1, Dline := 6, Drows := 0, cores := 1 }

/-- A load, a jump back to it, and the same load. -/
def tinyCalls : List Call :=
  [.insn_model 0x1000, .load_model 0x2000 0x1000, .insn_model 0x1004, .jump_model 0x1000 0x1004,
    .insn_model 0x1000, .load_model 0x2000 0x1000]

/-- The books of these six calls, with the clock at 7 before them. -/
theorem run_balanced_tiny : ∃ m₀, mem_t.make (create 0x1000 0x1008 1) tinyConf 0 = some m₀ ∧
    ∃ m s, performs (create 0x1000 0x1008 1) tinyConf tinyCalls
        ({ m₀ with local_time := 7 }, fun _ => 0) = some (m, s) ∧
      Balanced (create 0x1000 0x1008 1) tinyConf 7 1 2 m s := by
  obtain ⟨fsm, -, hgeo, -⟩ := geometry_ok (w := 1) (by decide) (by decide) 6 0
  have hmake : mem_t.make (create 0x1000 0x1008 1) tinyConf 0 = some
      { perf_t.make (create 0x1000 0x1008 1) 0 with
        local_time := 0
        ic := cache_t.make 15 ⟨fsm, 1, 6, 0⟩ false
        dc := cache_t.make 15 ⟨fsm, 1, 6, 0⟩ true } := by
    simp only [mem_t.make, tinyConf, hgeo]
    rfl
  have htext : ∀ c ∈ tinyCalls, c.InText (create 0x1000 0x1008 1) := by
    simp only [tinyCalls, Call.InText, Call.charged]
    decide
  obtain ⟨hruns, hbal⟩ := run_balanced (by decide) hmake (fun _ _ => rfl) 7 htext
  obtain ⟨m, s, hrun⟩ := hruns ⟨by decide, by decide, by decide, by decide⟩
  exact ⟨_, hmake, m, s, hrun, hbal m s hrun⟩

end Cavatools.Caveat
