import Cavatools.Caveat.Mem
import Cavatools.Lib.Run

/-!
# `core_t`: which counters a core updates

A core is constructed base by base, in the order of the class's base list:
`mem_t(number())` comes before the `hart_t` that sets the number. So the
`perf_t` of every core is made for the number that the memory held before, and
that is 0 on fresh memory.

The system here is the process: the first core, cores made by `newcore` from
any core, and the models that each core runs, one counter update at a time in
any interleaving. What the models update is left open as far as the list of
updates allows, so the result does not depend on the guest.

`step_cases` says what one step can do: it adds a core, begins a model call of
one, or makes one update, at a cell of that core's `perf_t`. Two invariants
follow. Cores are numbered in the order of their construction and all of them
point to the region of core 0 (`Wired`), and every update goes where a counter
of core 0 is, or behind its null pointer (`Landed`).

From these, `updates_own_iff` reads off exactly which runs keep the counters
of the cores apart. An update lands in the region of its own hart number just
if the core is the first one and the segment has a region for it, so these are
the runs in which no other core makes an update.
-/

namespace Cavatools.Caveat

/-- A core, with the updates of the model it is in that it has still to make. -/
structure core_t extends mem_t where
  _number : Int
  pending : List Inc

/-- An update that was made: the core, by order of construction, and the address, which
is `none` behind a null pointer. -/
structure Update where
  core : Nat
  address : Option Int
  deriving DecidableEq, Repr

/-- The process. `updates` lists what was updated, newest first. -/
structure Process where
  seg : Segment
  num_threads : Int
  cores : List core_t
  updates : List Update
  faulted : Bool

variable (h : perf_header_t) (conf : Conf)

/-- The process before its first core, with the segment that `create` zeroed. -/
def Process.start : Process :=
  { seg := fun _ => 0, num_threads := 0, cores := [], updates := [], faulted := false }

/-- `core_t()` on fresh memory: `mem_t(number())` reads a `_number` that is still zero,
then `hart_t` takes the next number. -/
def core_t.make (num_threads : Int) : Option core_t :=
  let _number := 0
  (mem_t.make h conf _number).map fun m => { m with _number := num_threads, pending := [] }

/-- `newcore`, which also copies the parent's clock. -/
def core_t.newcore (p : core_t) (num_threads : Int) : Option core_t :=
  (core_t.make h conf num_threads).map fun c => { c with local_time := p.local_time }

/-- One step of one thread. -/
inductive Act
  | core_t
  | newcore (parent : Nat)
  | call (core : Nat) (c : Call)
  | update (core : Nat)

namespace Process

variable (s : Process)

def addCore (c : core_t) : Process :=
  { s with num_threads := s.num_threads + 1, cores := s.cores ++ [c] }

/-- The next counter update of core `i`; a null pointer is the last thing the process sees. -/
def update (i : Nat) (c : Caveat.core_t) (u : Inc) (us : List Inc) : Option Process :=
  match index h u.pc with
  | none => none
  | some k =>
    let s := { s with
      cores := s.cores.set i { c with pending := us }
      updates := ⟨i, c.cell k u.field⟩ :: s.updates }
    match c.inc h u s.seg with
    | some seg => some { s with seg := seg }
    | none => some { s with faulted := true }

def step : Act → Option Process
  | .core_t => if s.cores = [] then (core_t.make h conf s.num_threads).map s.addCore else none
  | .newcore i =>
    match s.faulted, s.cores[i]? with
    | false, some p => (p.newcore h conf s.num_threads).map s.addCore
    | _, _ => none
  | .call i call =>
    match s.faulted, s.cores[i]? with
    | false, some c =>
      if c.pending = [] then
        (c.tomem_t.call conf call).map fun (m, us) =>
          { s with cores := s.cores.set i { c with tomem_t := m, pending := us } }
      else none
    | _, _ => none
  | .update i =>
    match s.faulted, s.cores[i]? with
    | false, some c =>
      match c.pending with
      | [] => none
      | u :: us => s.update h i c u us
    | _, _ => none

end Process

/-! ## What a step does -/

variable {h conf} {s s' : Process}

theorem newcore_spec {n : Int} {c : core_t} (hc : core_t.make h conf n = some c) :
    c._number = n ∧ c.toperf_t = perf_t.make h 0 := by
  unfold core_t.make at hc
  rw [Option.map_eq_some_iff] at hc
  obtain ⟨m, hm, rfl⟩ := hc
  obtain ⟨_, _, _, _, hperf, -, -⟩ := make_spec hm
  exact ⟨rfl, hperf⟩

/-- `c'` is `c` but for the state of its model. -/
def SameCore (c c' : core_t) : Prop := c'._number = c._number ∧ c'.toperf_t = c.toperf_t

/-- **One step** of the process: a core is added, with the `perf_t` of core 0; a core enters a
model; or a core makes the next update of the model that it is in. -/
theorem step_cases {a : Act} (hstep : s.step h conf a = some s') :
    (∃ c, (a = .core_t ∨ ∃ p, a = .newcore p) ∧ c._number = s.num_threads ∧
      c.toperf_t = perf_t.make h 0 ∧ s' = s.addCore c) ∨
    (∃ i call c c', a = .call i call ∧ s.cores[i]? = some c ∧ SameCore c c' ∧
      s' = { s with cores := s.cores.set i c' }) ∨
    ∃ i c c' k f, a = .update i ∧ s.cores[i]? = some c ∧ SameCore c c' ∧ 0 ≤ k ∧ k < h.parcels ∧
      s'.num_threads = s.num_threads ∧ s'.cores = s.cores.set i c' ∧
      s'.updates = ⟨i, c.cell k f⟩ :: s.updates := by
  cases a with
  | core_t =>
    rw [Process.step] at hstep
    split at hstep
    case isTrue =>
      obtain ⟨c, hc, rfl⟩ := Option.map_eq_some_iff.mp hstep
      obtain ⟨hnum, hperf⟩ := newcore_spec hc
      exact Or.inl ⟨c, Or.inl rfl, hnum, hperf, rfl⟩
    case isFalse => cases hstep
  | newcore p =>
    rw [Process.step] at hstep
    split at hstep
    case h_1 parent _ hparent =>
      -- `newcore` copies the clock afterwards, which none of these facts is about
      obtain ⟨c, hc, rfl⟩ := Option.map_eq_some_iff.mp hstep
      unfold core_t.newcore at hc
      rw [Option.map_eq_some_iff] at hc
      obtain ⟨c₀, hc₀, rfl⟩ := hc
      obtain ⟨hnum, hperf⟩ := newcore_spec hc₀
      exact Or.inl ⟨{ c₀ with local_time := parent.local_time }, Or.inr ⟨p, rfl⟩, hnum, hperf, rfl⟩
    case h_2 => cases hstep
  | call i call =>
    rw [Process.step] at hstep
    split at hstep
    case h_1 c _ hc =>
      split at hstep
      case isTrue =>
        obtain ⟨⟨m, us⟩, hcall, rfl⟩ := Option.map_eq_some_iff.mp hstep
        exact Or.inr (Or.inl ⟨i, call, c, { c with tomem_t := m, pending := us }, rfl, hc,
          ⟨rfl, (call_charged hcall).perf⟩, rfl⟩)
      case isFalse => cases hstep
    case h_2 => cases hstep
  | update i =>
    rw [Process.step] at hstep
    split at hstep
    case h_1 c _ hc =>
      split at hstep
      case h_1 => cases hstep
      case h_2 u us _ =>
        unfold Process.update at hstep
        split at hstep
        case h_1 => cases hstep
        case h_2 k hk =>
          obtain ⟨h0, hlt, -⟩ := index_eq hk
          refine Or.inr (Or.inr ⟨i, c, { c with pending := us }, k, u.field, rfl, hc, ⟨rfl, rfl⟩, h0, hlt,
            ?_⟩)
          dsimp only at hstep
          split at hstep
          case h_1 =>
            obtain rfl := Option.some.inj hstep
            exact ⟨rfl, rfl, rfl⟩
          case h_2 =>
            obtain rfl := Option.some.inj hstep
            exact ⟨rfl, rfl, rfl⟩
    case h_2 => cases hstep

/-! ## The cores of a run -/

/-- Cores are numbered in the order of their construction, and every one of them points
to the region of core 0. -/
structure Wired (h : perf_header_t) (s : Process) : Prop where
  threads : s.num_threads = s.cores.length
  number : ∀ (i : Nat) (c : core_t), s.cores[i]? = some c → c._number = i
  perf : ∀ (i : Nat) (c : core_t), s.cores[i]? = some c → c.toperf_t = perf_t.make h 0

theorem wired_start : Wired h Process.start :=
  ⟨rfl, fun _ _ hc => (by cases hc), fun _ _ hc => (by cases hc)⟩

/-- A change of what a core has still to do leaves numbers and regions as they are. -/
theorem wired_set (hs : Wired h s) {i : Nat} {c c' : core_t} (hc : s.cores[i]? = some c)
    (hsame : SameCore c c') (hthreads : s'.num_threads = s.num_threads)
    (hcores : s'.cores = s.cores.set i c') : Wired h s' := by
  have hget (j : Nat) (d : core_t) (hd : s'.cores[j]? = some d) :
      ∃ e, s.cores[j]? = some e ∧ SameCore e d := by
    rw [hcores] at hd
    -- the core that stepped, or another
    by_cases hij : i = j
    · subst hij
      have hlt := (List.getElem?_eq_some_iff.mp hc).1
      rw [List.getElem?_set_self hlt] at hd
      obtain rfl := Option.some.inj hd
      exact ⟨c, hc, hsame⟩
    · rw [List.getElem?_set_ne hij] at hd
      exact ⟨d, hd, rfl, rfl⟩
  refine ⟨?_, ?_, ?_⟩
  · rw [hthreads, hcores, List.length_set]
    exact hs.threads
  · intro j d hd
    obtain ⟨e, he, hsame⟩ := hget j d hd
    exact hsame.1.trans (hs.number j e he)
  · intro j d hd
    obtain ⟨e, he, hsame⟩ := hget j d hd
    exact hsame.2.trans (hs.perf j e he)

/-- Every step keeps the numbers in order, and every core at the region of core 0. -/
theorem step_wired (hs : Wired h s) {a : Act} (hstep : s.step h conf a = some s') : Wired h s' := by
  rcases step_cases hstep with ⟨c, -, hnum, hperf, rfl⟩ | ⟨i, _, c, c', -, hc, hsame, rfl⟩ |
    ⟨i, c, c', _, _, -, hc, hsame, -, -, hthreads, hcores, -⟩
  · have hget (j : Nat) (d : core_t) (hd : (s.addCore c).cores[j]? = some d) :
        s.cores[j]? = some d ∨ j = s.cores.length ∧ d = c := by
      -- an older core, the new one, or none
      rcases Nat.lt_trichotomy j s.cores.length with hlt | heq | hgt
      · exact Or.inl ((List.getElem?_append_left hlt).symm.trans hd)
      · subst heq
        unfold Process.addCore at hd
        rw [List.getElem?_concat_length, Option.some.injEq] at hd
        exact Or.inr ⟨rfl, hd.symm⟩
      · unfold Process.addCore at hd
        rw [List.getElem?_eq_none (by simp; omega)] at hd
        cases hd
    refine ⟨?_, ?_, ?_⟩
    · simp [Process.addCore, hs.threads]
    · intro j d hd
      rcases hget j d hd with hold | ⟨rfl, rfl⟩
      · exact hs.number j d hold
      · exact hnum.trans hs.threads
    · intro j d hd
      rcases hget j d hd with hold | ⟨-, rfl⟩
      · exact hs.perf j d hold
      · exact hperf
  · exact wired_set hs hc hsame rfl rfl
  · exact wired_set hs hc hsame hthreads hcores

/-! ## Where the updates land -/

/-- The region that `perf_t` gives to core `n`, inside the segment. -/
def Assigned (h : perf_header_t) (n a : Int) : Prop :=
  0 ≤ n ∧ n < h._cores ∧ InRegion h n a ∧ sizeof_perf_header_t ≤ a ∧ a + sizeof_long ≤ h.size

/-- Every update of a core lands in the region of its own hart number. -/
def Own (h : perf_header_t) (s : Process) : Prop :=
  ∀ u ∈ s.updates, ∃ c, s.cores[u.core]? = some c ∧ ∃ a, u.address = some a ∧ Assigned h c._number a

/-- Two cores never update the same counter. -/
def Apart (s : Process) : Prop :=
  ∀ u ∈ s.updates, ∀ v ∈ s.updates, u.core ≠ v.core → ∀ a, u.address = some a → v.address ≠ some a

/-- Every update goes where a counter of core 0 is, or behind its null pointer. -/
def Landed (h : perf_header_t) (s : Process) : Prop :=
  ∀ u ∈ s.updates, u.core < s.cores.length ∧
    (0 < h._cores → ∃ a, u.address = some a ∧ InRegion h 0 a) ∧ (¬0 < h._cores → u.address = none)

/-- The core whose update a step makes. -/
def Act.updater : Act → Option Nat
  | .update i => some i
  | _ => none

/-- The update of a step lands where a counter of core 0 is. -/
theorem step_landed (hs : Wired h s) (hl : Landed h s) {a : Act}
    (hstep : s.step h conf a = some s') : Landed h s' := by
  rcases step_cases hstep with ⟨c, -, -, -, rfl⟩ | ⟨i, _, c, c', -, -, -, rfl⟩ |
    ⟨i, c, c', k, f, -, hc, -, h0, hk, -, hcores, hupdates⟩
  · intro u hu
    obtain ⟨hlt, hin, hout⟩ := hl u hu
    refine ⟨?_, hin, hout⟩
    unfold Process.addCore
    rw [List.length_append]
    omega
  · intro u hu
    rw [List.length_set]
    exact hl u hu
  · intro u hu
    rw [hupdates] at hu
    rw [hcores, List.length_set]
    rcases List.mem_cons.mp hu with rfl | hold
    · -- every core has the pointers of core 0
      refine ⟨(List.getElem?_eq_some_iff.mp hc).1, fun hpos => ?_, fun hneg => ?_⟩
      · rw [hs.perf i c hc]
        exact ⟨_, cell_make hpos k f, inRegion_cell hpos h0 hk (cell_make hpos k f)⟩
      · rw [hs.perf i c hc, perf_t.make, if_pos (by omega)]
        cases f <;> rfl
    · exact hl u hold

/-- The updates a run adds are those of its `update` steps. -/
theorem run_updaters {as : List Act} (hrun : Lib.run (Process.step h conf) as s = some s') :
    s'.updates.map (·.core) = (as.filterMap Act.updater).reverse ++ s.updates.map (·.core) := by
  -- on the steps: only an `update` adds one, for its own core
  induction as generalizing s with
  | nil =>
    obtain rfl := Option.some.inj hrun
    rfl
  | cons a as ih =>
    obtain ⟨t, ht, hrest⟩ := Lib.run_cons hrun
    rw [ih hrest]
    rcases step_cases ht with ⟨c, rfl | ⟨p, rfl⟩, -, -, rfl⟩ | ⟨i, _, c, c', rfl, -, -, rfl⟩ |
      ⟨i, c, c', k, f, rfl, -, -, -, -, -, -, hupdates⟩
    · rfl
    · rfl
    · rfl
    · rw [hupdates]
      simp [Act.updater]

/-- **Which runs keep the counters apart.** In a process of caveat, every update lands in
the region of the updating core's own number, and no two cores share a counter, exactly
when every update is made by the first core and a region was allocated for it. -/
theorem updates_own_iff {base bound : Int} (hb : base ≤ bound) {as : List Act} {s : Process}
    (hrun : Lib.run (Process.step (create base bound conf.cores) conf) as Process.start = some s) :
    (Own (create base bound conf.cores) s ∧ Apart s) ↔
      ∀ i, Act.update i ∈ as → i = 0 ∧ 0 < conf.cores := by
  have hinv : Wired (create base bound conf.cores) s ∧ Landed (create base bound conf.cores) s :=
    Lib.run_invariant (P := fun s => Wired (create base bound conf.cores) s ∧
        Landed (create base bound conf.cores) s)
      (fun t a t' _ ht hstep => ⟨step_wired ht.1 hstep, step_landed ht.1 ht.2 hstep⟩)
      ⟨wired_start, fun u hu => by cases hu⟩ hrun
  obtain ⟨hwired, hlanded⟩ := hinv
  have hp : 0 ≤ (create base bound conf.cores).parcels := Int.tdiv_nonneg (by omega) (by omega)
  have hcores : (create base bound conf.cores)._cores = conf.cores := rfl
  have hmade (i : Nat) : Act.update i ∈ as ↔ ∃ u ∈ s.updates, u.core = i := by
    have hmap := run_updaters hrun
    rw [show Process.start.updates.map (·.core) = [] from rfl, List.append_nil] at hmap
    have hmem : i ∈ s.updates.map (·.core) ↔ ∃ a ∈ as, a.updater = some i := by
      rw [hmap, List.mem_reverse, List.mem_filterMap]
    rw [← List.mem_map, hmem]
    constructor
    · intro hi
      exact ⟨_, hi, rfl⟩
    · rintro ⟨a, ha, hup⟩
      cases a <;> cases hup
      exact ha
  constructor
  · rintro ⟨hown, -⟩ i hi
    obtain ⟨u, hu, rfl⟩ := (hmade i).mp hi
    obtain ⟨c, hc, a, ha, h0, hlt, hin, -, -⟩ := hown u hu
    have hpos : 0 < conf.cores := by omega
    obtain ⟨a', ha', hin'⟩ := (hlanded u hu).2.1 hpos
    obtain rfl := Option.some.inj (ha.symm.trans ha')
    -- an address in the core's own region and in that of core 0
    have hzero := region_disjoint hp hin hin'
    rw [hwired.number _ _ hc] at hzero
    exact ⟨by omega, hpos⟩
  · intro hfirst
    have hzero (u : Update) (hu : u ∈ s.updates) : u.core = 0 ∧ 0 < conf.cores :=
      hfirst u.core ((hmade u.core).mpr ⟨u, hu, rfl⟩)
    constructor
    · intro u hu
      obtain ⟨hcore, hpos⟩ := hzero u hu
      obtain ⟨hlt, hin, -⟩ := hlanded u hu
      obtain ⟨a, ha, hregion⟩ := hin hpos
      have hget := List.getElem?_eq_getElem hlt
      have hnum : s.cores[u.core]._number = 0 := by
        rw [hwired.number _ _ hget]
        omega
      refine ⟨_, hget, a, ha, ?_⟩
      have hassigned : Assigned (create base bound conf.cores) 0 a :=
        ⟨le_rfl, hpos, hregion, region_inside hb le_rfl hpos hregion⟩
      rw [← hnum] at hassigned
      exact hassigned
    · intro u hu v hv hne
      exact absurd ((hzero u hu).1.trans (hzero v hv).1.symm) hne

/-- The defaults of caveat's options. -/
def defaultConf : Conf :=
  { Jump := 2, Imiss := 15, Iways := 4, Iline := 6, Irows := 6,
    Dmiss := 15, Dways := 4, Dline := 6, Drows := 6, cores := 8 }

/-- The first core alone, at its first instruction. -/
theorem updates_own_iff_oneCore : ∃ s,
    Lib.run (Process.step (create 0x10000 0x11000 8) defaultConf)
      [.core_t, .call 0 (.insn_model 0x10000), .update 0] Process.start = some s ∧
    Own (create 0x10000 0x11000 8) s ∧ Apart s := by
  obtain ⟨s, hs⟩ := Option.isSome_iff_exists.mp
    (show (Lib.run (Process.step (create 0x10000 0x11000 8) defaultConf)
      [.core_t, .call 0 (.insn_model 0x10000), .update 0] Process.start).isSome = true by
        decide +kernel)
  refine ⟨s, hs, (updates_own_iff (by decide) hs).mpr ?_⟩
  intro i hi
  simp only [List.mem_cons, reduceCtorEq, Act.update.injEq, List.not_mem_nil, or_false,
    false_or] at hi
  exact ⟨hi, by decide⟩

/-- Two cores at the first instruction of the text. -/
def twoCores : List Act :=
  [.core_t, .call 0 (.insn_model 0x10000), .update 0,
    .newcore 0, .call 1 (.insn_model 0x10000), .update 1]

/-- Both update the same counter, in the region of core 0. -/
theorem twoCores_share : ∃ s,
    Lib.run (Process.step (create 0x10000 0x11000 8) defaultConf) twoCores Process.start = some s ∧
    ¬Own (create 0x10000 0x11000 8) s ∧ ¬Apart s := by
  have hrun : (Lib.run (Process.step (create 0x10000 0x11000 8) defaultConf) twoCores
      Process.start).map (fun s => (s.updates, s.cores.map (·._number)))
        = some ([⟨1, some 32800⟩, ⟨0, some 32800⟩], [0, 1]) := by decide +kernel
  obtain ⟨s, hs, hpair⟩ := Option.map_eq_some_iff.mp hrun
  obtain ⟨hupdates, hnumbers⟩ := Prod.mk.inj hpair
  have h1 : (⟨1, some 32800⟩ : Update) ∈ s.updates := by
    rw [hupdates]
    decide
  have h0 : (⟨0, some 32800⟩ : Update) ∈ s.updates := by
    rw [hupdates]
    decide
  refine ⟨s, hs, ?_, ?_⟩
  · intro hown
    obtain ⟨c, hc, a, ha, -, -, hregion, -⟩ := hown _ h1
    obtain rfl := Option.some.inj ha
    have hnum : c._number = 1 := by
      have hget := congrArg (fun l : List Int => l[1]?) hnumbers
      rw [List.getElem?_map, hc] at hget
      exact Option.some.inj hget
    rw [hnum] at hregion
    exact absurd hregion.1 (by decide)
  · intro hapart
    exact hapart _ h1 _ h0 (by decide) _ rfl rfl

end Cavatools.Caveat
