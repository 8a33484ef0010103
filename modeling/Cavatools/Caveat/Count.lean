import Cavatools.Caveat.Mem
import Cavatools.Uspike.Decode
import Cavatools.Uspike.Keeps

/-!
# Counted and executed

The two counts of a core of caveat are kept in different places. `insn_model`
counts an instruction at its pc before it is dispatched; `incr_count` counts
it in the hart after the loop, and not at all when it threw `trap_breakpoint`.
This file is about when they agree.

`Counted` says that the counts of core `n` over the text are `d` ahead of its
hart's count. An iteration that goes on adds one to both
(`iteration_next_counted`), one that throws adds one to the first alone
(`iteration_trap_counted`); the return of a call writes the local count back
(`counted_incr`). By induction over the iterations of a call (`loop_counted`)
and over the steps of a run (`coreStep_counted`, `run_counted`) the difference
never falls, and it stays zero exactly until the first throw. That is
`counts_iff`, in both directions.

What is around the core is stated once. `CaveatEnv` says that the interpreter
runs on caveat's models and that Spike's functions reach these only as members
of `mmu_t`; no function of Spike's announces an instruction, so only the loop
counts. Between two calls the rest of the process may change the guest's
state, the shared total and the counters of other cores (`Elsewhere`), but not
the region of this one.
-/

namespace Cavatools.Caveat

open Uspike (Long Machine Hart Env Mmu Throws)

variable {τ : Type} (h : perf_header_t) (conf : Conf) (n : Int)

/-- A core of caveat, for the interpreter. -/
abbrev CoreHart (τ : Type) := Hart (mem_t × Segment) τ

/-! ## The program around a core -/

/-- From one state of the model to another no instruction of core `n` was counted. -/
def SameCount (ms ms' : mem_t × Segment) : Prop :=
  ms.1.toperf_t = perf_t.make h n → ms'.1.toperf_t = perf_t.make h n ∧
    total h (perf_t.make h n) .executed ms'.2 = total h (perf_t.make h n) .executed ms.2

/-- The interpreter runs on caveat's models. Spike's functions reach them only as the
members of `mmu_t`, and never announce an instruction; a system call leaves the count,
the pointers and the region of the calling core alone. -/
structure CaveatEnv (env : Env (mem_t × Segment) τ) : Prop where
  mmu : env.mmu = caveat_mmu h conf
  golden : ∀ op f pc m pc' m', env.golden op = some f → f pc m = .next pc' m' →
    ∃ cs : List Call, (∀ c ∈ cs, c.insns = 0) ∧ performs h conf cs m.mmu = some m'.mmu
  proxy_syscall : ∀ sysnum c c', env.proxy_syscall sysnum c = .ok c' →
    c'.executed = c.executed ∧ c'.mmu.1.toperf_t = c.mmu.1.toperf_t ∧
      ∀ a, InRegion h n a → c'.mmu.2 a = c.mmu.2 a

variable {h conf n}

theorem perform_count (hn : n < h._cores) {c : Call} {ms ms' : mem_t × Segment}
    (hperf : ms.1.toperf_t = perf_t.make h n) (hrun : perform h conf c ms = some ms') :
    ms'.1.toperf_t = perf_t.make h n ∧ total h (perf_t.make h n) .executed ms'.2
      = total h (perf_t.make h n) .executed ms.2 + c.insns := by
  obtain ⟨us, hcharged, htotal, -⟩ := perform_spec hn hperf hrun
  rw [hperf] at htotal
  refine ⟨hcharged.perf.trans hperf, ?_⟩
  rw [htotal, hcharged.insns]

theorem perform_sameCount (hn : n < h._cores) {c : Call} (hc : c.insns = 0)
    {ms ms' : mem_t × Segment} (hrun : perform h conf c ms = some ms') : SameCount h n ms ms' := by
  intro hperf
  obtain ⟨hperf', hcount⟩ := perform_count hn hperf hrun
  rw [hc, Int.add_zero] at hcount
  exact ⟨hperf', hcount⟩

theorem sameCount_refl (ms : mem_t × Segment) : SameCount h n ms ms := fun hperf => ⟨hperf, rfl⟩

theorem sameCount_trans {a b c : mem_t × Segment} (hab : SameCount h n a b) (hbc : SameCount h n b c) :
    SameCount h n a c := by
  intro hperf
  obtain ⟨hb, hcountb⟩ := hab hperf
  obtain ⟨hc, hcountc⟩ := hbc hb
  exact ⟨hc, hcountc.trans hcountb⟩

theorem performs_sameCount (hn : n < h._cores) {cs : List Call} (hcs : ∀ c ∈ cs, c.insns = 0)
    {ms ms' : mem_t × Segment} (hrun : performs h conf cs ms = some ms') : SameCount h n ms ms' :=
  Lib.run_invariant (P := SameCount h n ms)
    (fun _ c _ hc hms hstep => sameCount_trans hms (perform_sameCount hn (hcs c hc) hstep))
    (sameCount_refl ms) hrun

/-- No member of the memory model that an instruction calls counts an instruction. -/
theorem caveat_admits (hn : n < h._cores) : Uspike.Admits (caveat_mmu h conf) (SameCount h n) := by
  have hmapped {α : Type} {c : Call} (hc : c.insns = 0) {ms ms' : mem_t × Segment} {a b : α}
      (hrun : (perform h conf c ms).map (fun ms => (a, ms)) = some (b, ms')) : SameCount h n ms ms' := by
    obtain ⟨ms₁, hms₁, heq⟩ := Option.map_eq_some_iff.mp hrun
    obtain ⟨-, rfl⟩ := Prod.mk.inj heq
    exact perform_sameCount hn hc hms₁
  exact
    { refl := sameCount_refl
      trans := fun _ _ _ => sameCount_trans
      jump_model := fun npc pc _ _ _ hrun => hmapped (c := .jump_model npc pc) rfl hrun
      load_model := fun a pc _ _ _ hrun => hmapped (c := .load_model a pc) rfl hrun
      store_model := fun a pc _ _ _ hrun => hmapped (c := .store_model a pc) rfl hrun
      amo_model := fun a pc _ _ hrun => perform_sameCount (c := .amo_model a pc) hn rfl hrun }

theorem caveat_keeps {env : Env (mem_t × Segment) τ} (henv : CaveatEnv h conf n env)
    (hn : n < h._cores) : Uspike.EnvKeeps env (SameCount h n) := by
  refine ⟨?_, ?_, ?_⟩
  · rw [henv.mmu]
    exact caveat_admits hn
  · intro op f pc m pc' m' hf hrun
    obtain ⟨cs, hcs, hperforms⟩ := henv.golden op f pc m pc' m' hf hrun
    exact performs_sameCount hn hcs hperforms
  · intro sysnum c c' hsys
    obtain ⟨hexec, hperf, hregion⟩ := henv.proxy_syscall sysnum c c' hsys
    exact ⟨hexec, fun hmake => ⟨hperf.trans hmake, total_congr hn hregion _⟩⟩

/-! ## One iteration -/

/-- The counts of core `n` over the text are `d` ahead of its hart's count. -/
structure Counted (h : perf_header_t) (n d : Int) (c : CoreHart τ) : Prop where
  perf : c.mmu.1.toperf_t = perf_t.make h n
  sum : total h (perf_t.make h n) .executed c.mmu.2 = c.executed + d

section
variable {env : Env (mem_t × Segment) τ} (henv : CaveatEnv h conf n env) (hn : n < h._cores)
include henv hn

theorem insn_model_counts {pc : Long} {ms ms' : mem_t × Segment}
    (hperf : ms.1.toperf_t = perf_t.make h n) (hmodel : env.mmu.insn_model pc ms = some ms') :
    ms'.1.toperf_t = perf_t.make h n ∧ total h (perf_t.make h n) .executed ms'.2
      = total h (perf_t.make h n) .executed ms.2 + 1 := by
  rw [henv.mmu] at hmodel
  exact perform_count (c := .insn_model pc) hn hperf hmodel

theorem iteration_next_counted {insns d : Int} {pc pc' : Long} {c c' : CoreHart τ}
    (hc : Counted h n d c) (hstep : Uspike.iteration env insns pc c = .next pc' c') :
    Counted h n (d + 1) c' := by
  obtain ⟨ms, hmodel, hexec, hsame⟩ := Uspike.iteration_next (caveat_keeps henv hn) hstep
  obtain ⟨hperf, hcount⟩ := insn_model_counts henv hn hc.perf hmodel
  obtain ⟨hperf', hcount'⟩ := hsame hperf
  refine ⟨hperf', ?_⟩
  rw [hcount', hcount, hc.sum, hexec]
  ring

theorem iteration_trap_counted {insns d : Int} {pc : Long} {c c' : CoreHart τ}
    (hc : Counted h n d c) (hstep : Uspike.iteration env insns pc c = .trap_breakpoint c') :
    Counted h n (d + 1) c' := by
  obtain ⟨-, hexec, hmodel⟩ := Uspike.iteration_trap hstep
  obtain ⟨hperf, hcount⟩ := insn_model_counts henv hn hc.perf hmodel
  refine ⟨hperf, ?_⟩
  rw [hcount, hc.sum, hexec]
  ring

end

/-! ## One call -/

/-- None of the next `m` iterations throws. -/
def Quiet (env : Env (mem_t × Segment) τ) : Nat → Int → Long → CoreHart τ → Prop
  | 0, _, _, _ => True
  | m + 1, insns, pc, c => ¬Throws env pc c ∧
    ∀ pc' c', Uspike.iteration env insns pc c = .next pc' c' → Quiet env m (insns + 1) pc' c'

theorem quiet_next {env : Env (mem_t × Segment) τ} {m : Nat} {insns : Int} {pc pc' : Long}
    {c c' : CoreHart τ} (hstep : Uspike.iteration env insns pc c = .next pc' c') :
    Quiet env (m + 1) insns pc c ↔ Quiet env m (insns + 1) pc' c' := by
  constructor
  · intro hq
    exact hq.2 pc' c' hstep
  · refine fun hq => ⟨Uspike.not_throws_of_next hstep, fun pc₁ c₁ h₁ => ?_⟩
    obtain ⟨rfl, rfl⟩ := Uspike.Step.next.inj (hstep.symm.trans h₁)
    exact hq

/-- What a return of `write_pc` and `incr_count` does to the difference. -/
theorem counted_incr {d : Int} {c : CoreHart τ} (hc : Counted h n d c) (pc : Long) (k : Int) :
    Counted h n (d - k) ((c.write_pc pc).incr_count k) := by
  refine ⟨hc.perf, ?_⟩
  show total h (perf_t.make h n) .executed c.mmu.2 = c.executed + k + (d - k)
  rw [hc.sum]
  ring

section
variable {env : Env (mem_t × Segment) τ} (henv : CaveatEnv h conf n env) (hn : n < h._cores)
include henv hn

/-- A throw leaves the difference one larger. -/
theorem trap_counted {e : Int} {m : Nat} {insns : Int} {pc : Long} {c c₁ : CoreHart τ}
    (hc : Counted h n (insns + e) c)
    (hstep : Uspike.iteration env insns pc c = .trap_breakpoint c₁) :
    Counted h n (e + 1) ((c₁.write_pc pc).incr_count insns) ∧ ¬Quiet env (m + 1) insns pc c := by
  refine ⟨?_, fun hq => absurd (Uspike.iteration_trap hstep).1 hq.1⟩
  rw [show e + 1 = insns + e + 1 - insns by ring]
  exact counted_incr (iteration_trap_counted henv hn hc hstep) pc insns

/-- The loop, with `m + 1` iterations to go at most. -/
theorem loop_counted {how_many e : Int} {m : Nat} {insns : Int} {pc : Long} {c c' : CoreHart τ} {b : Bool}
    (hm : m = (how_many - insns - 1).toNat) (hc : Counted h n (insns + e) c)
    (hrun : Uspike.loop env how_many insns pc c = .returned b c') :
    Counted h n (e + if b then 1 else 0) c' ∧ (Quiet env (m + 1) insns pc c ↔ b = false) := by
  fun_induction Uspike.loop env how_many insns pc c generalizing m with
  | case1 insns pc c s hstep => cases hrun
  | case2 insns pc c c₁ hstep =>
    obtain ⟨rfl, rfl⟩ := Uspike.Outcome.returned.inj hrun
    obtain ⟨hend, htrap⟩ := trap_counted henv hn hc hstep
    exact ⟨hend, fun hq => absurd hq htrap, fun hb => by cases hb⟩
  | case3 insns pc c pc₁ c₁ hstep hlt ih =>
    obtain ⟨k, rfl⟩ : ∃ k, m = k + 1 := ⟨(how_many - (insns + 1) - 1).toNat, by omega⟩
    have hnext := iteration_next_counted henv hn hc hstep
    -- both counts have gone up by one, so the difference is still `e`
    rw [show insns + e + 1 = insns + 1 + e by ring] at hnext
    rw [quiet_next hstep]
    exact ih (by omega) hnext hrun
  | case4 insns pc c pc₁ c₁ hstep hge =>
    obtain rfl : m = 0 := by omega
    obtain ⟨rfl, rfl⟩ := Uspike.Outcome.returned.inj hrun
    have hend := counted_incr (iteration_next_counted henv hn hc hstep) pc₁ (insns + 1)
    rw [show insns + e + 1 - (insns + 1) = e + 0 by ring] at hend
    exact ⟨hend, fun _ => rfl, fun _ => (quiet_next hstep).mpr trivial⟩

end

/-! ## Runs of a core -/

/-- What the rest of the process may change between two calls: the guest's state, the
shared total, and the other regions of the segment. -/
structure Elsewhere (τ : Type) where
  xpr : BitVec 5 → Long
  mem : Riscv.Mem
  rest : τ
  pc : Long
  total_insns : Int
  seg : Segment

inductive CoreAct (τ : Type)
  | interpreter (how_many : Int)
  | elsewhere (o : Elsewhere τ)

def coreStep (h : perf_header_t) (n : Int) (env : Env (mem_t × Segment) τ) (c : CoreHart τ) :
    CoreAct τ → Option (CoreHart τ)
  | .interpreter how_many =>
    match Uspike.interpreter env how_many c with
    | .returned _ c => some c
    | .stopped _ => none
  | .elsewhere o =>
    some { c with
      xpr := o.xpr, mem := o.mem, rest := o.rest, pc := o.pc, total_insns := o.total_insns
      mmu := (c.mmu.1, fun a => if InRegion h n a then c.mmu.2 a else o.seg a) }

/-- No iteration of the call throws `trap_breakpoint`. -/
def NoTrap (env : Env (mem_t × Segment) τ) (c : CoreHart τ) : CoreAct τ → Prop
  | .interpreter how_many => Quiet env ((how_many - 1).toNat + 1) 0 c.pc c
  | .elsewhere _ => True

section
variable {env : Env (mem_t × Segment) τ} (henv : CaveatEnv h conf n env) (hn : n < h._cores)
include henv hn

/-- A step of a core moves the difference up by one if it trapped and keeps it if not. -/
theorem coreStep_counted {e : Int} {c c' : CoreHart τ} {a : CoreAct τ} (hc : Counted h n e c)
    (hstep : coreStep h n env c a = some c') :
    (NoTrap env c a ∧ Counted h n e c') ∨ (¬NoTrap env c a ∧ Counted h n (e + 1) c') := by
  cases a with
  | interpreter how_many =>
    rw [coreStep] at hstep
    split at hstep
    case h_1 b c₁ hrun =>
      obtain rfl := Option.some.inj hstep
      rw [← Int.zero_add e] at hc
      obtain ⟨hend, hquiet⟩ := loop_counted henv hn (by rw [Int.sub_zero]) hc hrun
      cases b with
      | false =>
        rw [if_neg (by simp), Int.add_zero] at hend
        exact Or.inl ⟨hquiet.mpr rfl, hend⟩
      | true => exact Or.inr ⟨fun hq => (by cases hquiet.mp hq), hend⟩
    case h_2 => cases hstep
  | elsewhere o =>
    obtain rfl := Option.some.inj hstep
    refine Or.inl ⟨trivial, hc.perf, ?_⟩
    -- the others write outside this core's region
    exact (total_congr hn (fun a ha => if_pos ha) .executed).trans hc.sum

theorem run_counted {e : Int} {as : List (CoreAct τ)} {c c' : CoreHart τ} (hc : Counted h n e c)
    (hrun : Lib.run (coreStep h n env) as c = some c') :
    ∃ e', Counted h n e' c' ∧ e ≤ e' ∧ (e' = e ↔ Lib.Along (coreStep h n env) (NoTrap env) as c) := by
  have hstep (e : Int) (c : CoreHart τ) (a : CoreAct τ) (c' : CoreHart τ) (hc : Counted h n e c)
      (hca : coreStep h n env c a = some c') :
      (NoTrap env c a ∧ Counted h n e c') ∨ (¬NoTrap env c a ∧ Counted h n (e + 1) c') :=
    coreStep_counted henv hn hc hca
  exact Lib.run_excess hstep hc hrun

/-- **When the totals agree.** After any run of a core with a region of its own, the counts
over the text sum to `executed()` exactly when no instruction that the run came to threw
`trap_breakpoint`. -/
theorem counts_iff {c₀ c : CoreHart τ} (hperf : c₀.mmu.1.toperf_t = perf_t.make h n)
    (hzero : ∀ a, InRegion h n a → c₀.mmu.2 a = 0) (hexec : c₀.executed = 0)
    {as : List (CoreAct τ)} (hrun : Lib.run (coreStep h n env) as c₀ = some c) :
    total h c.mmu.1.toperf_t .executed c.mmu.2 = c.executed ↔
      Lib.Along (coreStep h n env) (NoTrap env) as c₀ := by
  have hstart : Counted h n 0 c₀ := ⟨hperf, by rw [total_zero hn hzero, hexec]; rfl⟩
  obtain ⟨e, hc, -, hiff⟩ := run_counted henv hn hstart hrun
  rw [hc.perf, hc.sum, ← hiff]
  constructor
  · intro hsum
    omega
  · rintro rfl
    exact Int.add_zero _

end

/-! ## A breakpoint -/

/-- `c.addi a0, 1` and `c.ebreak`, on which Spike's function throws. -/
def breakEnv : Env (mem_t × Segment) Unit where
  code := ⟨0x10000, 0x10004, 0x10000,
    [Uspike.decoder Uspike.rvcChain 0x90020505, Uspike.decoder Uspike.rvcChain 0x9002]⟩
  mmu := caveat_mmu (create 0x10000 0x10004 1) tinyConf
  golden op := if op = .c .c_ebreak then some fun _ _ => .trap_breakpoint else none
  HIGHEST_ECALL_NUM := 0
  rv_to_host _ := none
  proxy_syscall _ c := .ok c

/-- The two instructions run on the models of caveat. -/
theorem breakEnv_caveat : CaveatEnv (create 0x10000 0x10004 1) tinyConf 0 breakEnv := by
  refine ⟨rfl, ?_, ?_⟩
  · intro op f pc m pc' m' hf hrun
    unfold breakEnv at hf
    dsimp only at hf
    split at hf
    case isTrue =>
      obtain rfl := Option.some.inj hf
      cases hrun
    case isFalse => cases hf
  · intro sysnum c c' hsys
    cases hsys
    exact ⟨rfl, rfl, fun _ _ => rfl⟩

/-- The core that `mem_t` was just built for, at the start of the text. -/
def freshCore : Option (CoreHart Unit) :=
  (mem_t.make (create 0x10000 0x10004 1) tinyConf 0).map fun m =>
    { xpr := fun _ => 0, mem := fun _ => 0, rest := (), mmu := (m, fun _ => 0), trace := [],
      pc := 0x10000, executed := 0, total_insns := 0 }

/-- The first instruction alone. -/
theorem counts_iff_addi : ∃ c₀ ∈ freshCore, ∃ c,
    Lib.run (coreStep (create 0x10000 0x10004 1) 0 breakEnv) [.interpreter 1] c₀ = some c ∧
    total (create 0x10000 0x10004 1) c.mmu.1.toperf_t .executed c.mmu.2 = c.executed := by
  obtain ⟨c, hbind⟩ := Option.isSome_iff_exists.mp
    (show (freshCore.bind
      (Lib.run (coreStep (create 0x10000 0x10004 1) 0 breakEnv) [.interpreter 1])).isSome = true by
        decide +kernel)
  obtain ⟨c₀, hc₀, hrun⟩ := Option.bind_eq_some_iff.mp hbind
  obtain ⟨m, hm, rfl⟩ := Option.map_eq_some_iff.mp hc₀
  obtain ⟨_, _, _, _, hperf, -, -⟩ := make_spec hm
  refine ⟨_, hc₀, c, hrun, (counts_iff breakEnv_caveat (by decide) hperf (fun _ _ => rfl) rfl hrun).mpr ?_⟩
  refine ⟨⟨?_, fun _ _ _ => trivial⟩, fun _ _ => trivial⟩
  rintro ⟨_, i, _, _, hi, ⟨-, hact⟩, -⟩
  obtain rfl := Option.some.inj (hi.symm.trans (show breakEnv.code.at 0x10000
    = some (Uspike.decoder Uspike.rvcChain 0x90020505) by decide +kernel))
  rw [show (Uspike.decoder Uspike.rvcChain 0x90020505).opcode = .c .c_addi by decide +kernel] at hact
  cases hact

/-- The call that reaches the breakpoint: two instructions are counted, one is executed. -/
theorem counts_break : ∃ c₀ ∈ freshCore, ∃ c,
    Lib.run (coreStep (create 0x10000 0x10004 1) 0 breakEnv) [.interpreter 2] c₀ = some c ∧
    total (create 0x10000 0x10004 1) c.mmu.1.toperf_t .executed c.mmu.2 ≠ c.executed := by
  have hrun : (freshCore.bind
      (Lib.run (coreStep (create 0x10000 0x10004 1) 0 breakEnv) [.interpreter 2])).map
        (fun c => (total (create 0x10000 0x10004 1) c.mmu.1.toperf_t .executed c.mmu.2, c.executed))
      = some (2, 1) := by decide +kernel
  obtain ⟨c, hbind, hpair⟩ := Option.map_eq_some_iff.mp hrun
  obtain ⟨c₀, hc₀, hrun⟩ := Option.bind_eq_some_iff.mp hbind
  obtain ⟨htotal, hexec⟩ := Prod.mk.inj hpair
  refine ⟨c₀, hc₀, c, hrun, ?_⟩
  rw [htotal, hexec]
  decide

end Cavatools.Caveat
