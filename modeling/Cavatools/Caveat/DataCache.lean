import Cavatools.Caveat.Mem
import Cavatools.Uspike.Access

/-!
# Lookups in the data cache

A load, a store and an AMO of the guest reach the data cache through
`load_model`, `store_model` and `amo_model`, one lookup each. `hart_t::cas`,
which stands for a load-reserved and store-conditional pair, goes to memory
without them. So over a run the references of the data cache are the guest's
accesses exactly when no such compare-and-swap was executed.

The accesses are recorded beside the core (`Core`), as the guest makes them;
`Looked` relates two states of the model by the accesses that the data cache
has looked up between them, in order. An instruction of the text makes a list
of calls of the models, each of which is one lookup or none
(`perform_looked`), so an iteration looks up what it accesses
(`caveat_looks`), and a step of a core does, unless it executes a substituted
compare-and-swap (`step_spec`): that is one more access and no lookup.

`Behind` counts how many accesses the references lack. Every step keeps the
number or, at a compare-and-swap, raises it by one (`step_behind`), which by
the rule for runs gives both directions of `refs_iff`, and in runs without
compare-and-swaps the whole state of the data cache (`run_looked`). As
everywhere, other harts and the kernel act between the steps, and Spike's
functions reach the models as members of `mmu_t` only.
-/

namespace Cavatools.Caveat.DataCache

open Uspike (Long Machine Hart Thread Env Opcode EnvLooks Member members)

variable {τ : Type}

/-! ## What a call of a model does to the data cache -/

/-- From one state of the model to another the data cache looked the accesses up, in order. -/
def Looked (l : List (Long × Bool)) (ms ms' : mem_t × Segment) : Prop :=
  ∃ hits, ms.1.dc.lookups l = some (hits, ms'.1.dc)

theorem lookups_append {c c₁ c₂ : cache_t} {l l' : List (Long × Bool)} {hits hits' : List Bool}
    (h : c.lookups l = some (hits, c₁)) (h' : c₁.lookups l' = some (hits', c₂)) :
    c.lookups (l ++ l') = some (hits ++ hits', c₂) := by
  -- on the first list; the second starts in the cache that it leaves
  induction l generalizing c hits with
  | nil =>
    obtain ⟨rfl, rfl⟩ := Prod.mk.inj (Option.some.inj h)
    exact h'
  | cons a l ih =>
    obtain ⟨hit, c₃, rest, hlookup, hrest, rfl⟩ := lookups_cons.mp h
    exact lookups_cons.mpr ⟨hit, c₃, rest ++ hits', hlookup, ih hrest, rfl⟩

theorem lookups_refs {c c' : cache_t} {l : List (Long × Bool)} {hits : List Bool}
    (h : c.lookups l = some (hits, c')) : c'._refs = c._refs + l.length := by
  induction l generalizing c hits with
  | nil =>
    obtain ⟨-, rfl⟩ := Prod.mk.inj (Option.some.inj h)
    exact (Int.add_zero _).symm
  | cons a l ih =>
    obtain ⟨hit, c₁, rest, hlookup, hrest, -⟩ := lookups_cons.mp h
    rw [ih hrest, (cache_t.lookup_counts hlookup).1, List.length_cons]
    push_cast
    ring

theorem looked_nil {ms ms' : mem_t × Segment} : Looked [] ms ms' ↔ ms'.1.dc = ms.1.dc := by
  constructor
  · intro h
    obtain ⟨hits, hl⟩ := h
    exact (Prod.mk.inj (Option.some.inj hl)).2.symm
  · intro h
    exact ⟨[], by rw [h]; rfl⟩

variable {h : perf_header_t} {conf : Conf}

/-- The instruction and jump models leave the data cache alone. -/
theorem call_dc {m m' : mem_t} {c : Call} {us : List Inc} (hc : c.accesses = 0)
    (hcall : m.call conf c = some (m', us)) : m'.dc = m.dc := by
  cases c with
  | insn_model pc =>
    unfold mem_t.call mem_t.insn_model at hcall
    dsimp only at hcall
    split at hcall
    case h_1 => cases hcall
    case h_2 =>
      split at hcall <;> cases hcall <;> rfl
  | jump_model npc pc =>
    cases hcall
    rfl
  | load_model a pc => cases hc
  | store_model a pc => cases hc
  | amo_model a pc => cases hc

theorem data_model_dc {m m' : mem_t} {write : Bool} {a pc : Long} {us : List Inc}
    (hcall : m.data_model write a pc = some (m', us)) : ∃ hit, m.dc.lookup a write = some (hit, m'.dc) := by
  unfold mem_t.data_model at hcall
  split at hcall
  case h_1 => cases hcall
  case h_2 hit dc hlookup =>
    refine ⟨hit, ?_⟩
    cases hit <;> cases hcall <;> exact hlookup

theorem perform_call {c : Call} {ms ms' : mem_t × Segment} (hrun : perform h conf c ms = some ms') :
    ∃ us, ms.1.call conf c = some (ms'.1, us) := by
  unfold perform at hrun
  split at hrun
  case h_1 => cases hrun
  case h_2 m us hcall =>
    obtain ⟨s, -, rfl⟩ := Option.map_eq_some_iff.mp hrun
    exact ⟨us, hcall⟩

theorem perform_quiet {c : Call} (hc : c.accesses = 0) {ms ms' : mem_t × Segment}
    (hrun : perform h conf c ms = some ms') : Looked [] ms ms' := by
  obtain ⟨us, hcall⟩ := perform_call hrun
  exact looked_nil.mpr (call_dc hc hcall)

/-- A data model is one lookup. -/
theorem perform_looked {c : Call} {a pc : Long} {write : Bool} {ms ms' : mem_t × Segment}
    (hc : ms.1.call conf c = ms.1.data_model write a pc) (hrun : perform h conf c ms = some ms') :
    Looked [(a, write)] ms ms' := by
  obtain ⟨us, hcall⟩ := perform_call hrun
  rw [hc] at hcall
  obtain ⟨hit, hlookup⟩ := data_model_dc hcall
  exact ⟨[hit], lookups_cons.mpr ⟨hit, ms'.1.dc, [], hlookup, rfl, rfl⟩⟩

/-- An access of the guest through caveat's models is a lookup in the data cache, in the order of
the accesses. -/
theorem caveat_looks : Uspike.Looks (caveat_mmu h conf) Looked where
  refl _ := looked_nil.mpr rfl
  trans l l' s t u hst htu := by
    obtain ⟨hits, hl⟩ := hst
    obtain ⟨hits', hl'⟩ := htu
    exact ⟨hits ++ hits', lookups_append hl hl'⟩
  insn_model pc s s' hrun := perform_quiet (c := .insn_model pc) rfl hrun
  jump_model npc pc s a s' hrun := by
    obtain ⟨ms, hms, heq⟩ := Option.map_eq_some_iff.mp hrun
    obtain ⟨-, rfl⟩ := Prod.mk.inj heq
    exact perform_quiet (c := .jump_model npc pc) rfl hms
  load_model a pc s b s' hrun := by
    obtain ⟨ms, hms, heq⟩ := Option.map_eq_some_iff.mp hrun
    obtain ⟨-, rfl⟩ := Prod.mk.inj heq
    exact perform_looked (c := .load_model a pc) rfl hms
  store_model a pc s b s' hrun := by
    obtain ⟨ms, hms, heq⟩ := Option.map_eq_some_iff.mp hrun
    obtain ⟨-, rfl⟩ := Prod.mk.inj heq
    exact perform_looked (c := .store_model a pc) rfl hms
  amo_model a pc s s' hrun := perform_looked (c := .amo_model a pc) rfl hrun

/-! ## Runs of a core -/

/-- A core of caveat, with the data accesses of the instructions it has executed. -/
structure Core (τ : Type) where
  thread : Thread (mem_t × Segment) τ
  accesses : List (Long × Bool)

namespace Core

def dc (c : Core τ) : cache_t := c.thread.hart.mmu.1.dc

end Core

/-- A core enters a call of the interpreter or takes a turn of its loop; or the rest of the
process does something, which reaches all but the core's own `mem_t`. -/
inductive Act (τ : Type)
  | interpreter (how_many : Int)
  | iterate
  | elsewhere (h : Hart (mem_t × Segment) τ)

section
variable (env : Env (mem_t × Segment) τ)
  (spike : Opcode → Long → Machine (mem_t × Segment) τ → List (Long × Bool))

def step (c : Core τ) : Act τ → Option (Core τ)
  | .interpreter how_many => (c.thread.interpreter how_many).map fun t => { c with thread := t }
  | .iterate =>
    (c.thread.iterate env).map fun t =>
      { thread := t, accesses := c.accesses ++ c.thread.accesses env spike }
  | .elsewhere h =>
    some { c with thread := { c.thread with hart := { h with mmu := (c.thread.hart.mmu.1, h.mmu.2) } } }

/-- The step does not execute a substituted compare-and-swap. -/
def casFree (c : Core τ) : Act τ → Bool
  | .iterate => !c.thread.atCas env
  | _ => true

/-- The interpreter runs on caveat's models. Spike's functions reach them as the members of
`mmu_t` (`spike` lists the accesses); a system call leaves the core's data cache alone. -/
structure CaveatEnv (h : perf_header_t) (conf : Conf) : Prop where
  mmu : env.mmu = caveat_mmu h conf
  golden : ∀ op f pc m pc' m', env.golden op = some f → f pc m = .next pc' m' →
    ∃ cs m₁, cs.flatMap Member.accesses = spike op pc m ∧ members env.mmu pc cs m = .ok ((), m₁) ∧
      m₁.mmu = m'.mmu
  golden_trap : ∀ op f pc m, env.golden op = some f → f pc m = .trap_breakpoint → spike op pc m = []
  proxy_syscall : ∀ sysnum c c', env.proxy_syscall sysnum c = .ok c' → c'.mmu.1.dc = c.mmu.1.dc

end

section
variable {env : Env (mem_t × Segment) τ}
  {spike : Opcode → Long → Machine (mem_t × Segment) τ → List (Long × Bool)}

theorem caveat_env_looks (henv : CaveatEnv env spike h conf) : EnvLooks env Looked spike where
  looks := henv.mmu ▸ caveat_looks
  golden := henv.golden
  golden_trap := henv.golden_trap
  proxy_syscall sysnum c c' hsys := looked_nil.mpr (henv.proxy_syscall sysnum c c' hsys)

/-- A step looks the new accesses up, unless it executes a compare-and-swap: that is one more
access and no lookup. -/
theorem step_spec (henv : CaveatEnv env spike h conf) {c c' : Core τ} {a : Act τ}
    (hstep : step env spike c a = some c') : ∃ l, c'.accesses = c.accesses ++ l ∧
      ((casFree env c a = true ∧ ∃ hits, c.dc.lookups l = some (hits, c'.dc)) ∨
        (casFree env c a = false ∧ c'.dc = c.dc ∧ l.length = 1)) := by
  cases a with
  | interpreter how_many =>
    -- entering a call executes nothing
    obtain ⟨t, ht, rfl⟩ := Option.map_eq_some_iff.mp hstep
    refine ⟨[], (List.append_nil _).symm, Or.inl ⟨rfl, [], ?_⟩⟩
    unfold Thread.interpreter at ht
    split at ht <;> cases ht
    rfl
  | iterate =>
    obtain ⟨t, ht, rfl⟩ := Option.map_eq_some_iff.mp hstep
    refine ⟨_, rfl, ?_⟩
    have hlook := Uspike.iterate_looks (caveat_env_looks henv) ht
    cases hcas : c.thread.atCas env with
    | true =>
      -- the one access of a compare-and-swap is not looked up
      rw [hcas, if_pos rfl] at hlook
      obtain ⟨a, ha⟩ : ∃ a, c.thread.accesses env spike = [(a, true)] := Uspike.accesses_of_atCas hcas ht
      refine Or.inr ⟨?_, looked_nil.mp hlook, by rw [ha]; rfl⟩
      unfold casFree
      rw [hcas]
      rfl
    | false =>
      rw [hcas, if_neg (by simp)] at hlook
      refine Or.inl ⟨?_, hlook⟩
      unfold casFree
      rw [hcas]
      rfl
  | elsewhere o =>
    -- the core's `mem_t` is not reached
    obtain rfl := Option.some.inj hstep
    exact ⟨[], (List.append_nil _).symm, Or.inl ⟨rfl, [], rfl⟩⟩

/-- The references are `k` behind the accesses. -/
def Behind (k : Int) (c : Core τ) : Prop := c.dc._refs + k = c.accesses.length

/-- A compare-and-swap puts them one more behind. -/
theorem step_behind (henv : CaveatEnv env spike h conf) {k : Int} {c c' : Core τ} {a : Act τ}
    (hc : Behind k c) (hstep : step env spike c a = some c') :
    (casFree env c a = true ∧ Behind k c') ∨ (¬casFree env c a = true ∧ Behind (k + 1) c') := by
  unfold Behind at hc ⊢
  obtain ⟨l, hl, ⟨hfree, hits, hlook⟩ | ⟨hcas, hdc, hlen⟩⟩ := step_spec henv hstep
  · have hrefs := lookups_refs hlook
    refine Or.inl ⟨hfree, ?_⟩
    rw [hl, List.length_append]
    push_cast
    omega
  · refine Or.inr ⟨Bool.eq_false_iff.mp hcas, ?_⟩
    rw [hl, List.length_append, hlen, hdc]
    push_cast
    omega

/-- In a run without compare-and-swaps the data cache is what looking every access up makes it. -/
theorem run_looked (henv : CaveatEnv env spike h conf) {c c' : Core τ} {as : List (Act τ)} {d : cache_t}
    (hd : ∃ hits, d.lookups c.accesses = some (hits, c.dc))
    (hfree : Lib.Along (step env spike) (casFree env · · = true) as c)
    (hrun : Lib.run (step env spike) as c = some c') :
    ∃ hits, d.lookups c'.accesses = some (hits, c'.dc) := by
  refine Lib.run_invariant_along (P := fun c => ∃ hits, d.lookups c.accesses = some (hits, c.dc))
    (fun s a t hs hC ht => ?_) hd hfree hrun
  obtain ⟨hits, hd⟩ := hs
  obtain ⟨l, hl, ⟨-, hits', hlook⟩ | ⟨hcas, -⟩⟩ := step_spec henv ht
  · rw [hl]
    exact ⟨hits ++ hits', lookups_append hd hlook⟩
  · rw [hC] at hcas
    cases hcas

/-- **When every access is looked up.** After any run of a core from a fresh data cache, its
references count the guest's data accesses, each looked up once, in order, at its address
and as a write where it may write, exactly when no substituted compare-and-swap was executed. -/
theorem refs_iff (henv : CaveatEnv env spike h conf) {g : Geometry} {c₀ c : Core τ}
    (hdc : c₀.dc = cache_t.make conf.Dmiss g true) (hnone : c₀.accesses = []) {as : List (Act τ)}
    (hrun : Lib.run (step env spike) as c₀ = some c) :
    (c.dc._refs = c.accesses.length ∧ ∃ hits, c₀.dc.lookups c.accesses = some (hits, c.dc)) ↔
      Lib.Along (step env spike) (casFree env · · = true) as c₀ := by
  have hstart : Behind 0 c₀ := by
    unfold Behind
    rw [hnone, hdc]
    rfl
  have hstep (k : Int) (c : Core τ) (a : Act τ) (c' : Core τ) (hc : Behind k c)
      (hca : step env spike c a = some c') :
      (casFree env c a = true ∧ Behind k c') ∨ (¬casFree env c a = true ∧ Behind (k + 1) c') :=
    step_behind henv hc hca
  obtain ⟨k, hk, -, hiff⟩ := Lib.run_excess (C := (casFree env · · = true)) hstep hstart hrun
  unfold Behind at hk
  constructor
  · intro hall
    refine hiff.mp ?_
    have hrefs := hall.1
    omega
  · intro hfree
    have hzero := hiff.mpr hfree
    refine ⟨by omega, run_looked henv ⟨[], ?_⟩ hfree hrun⟩
    rw [hnone]
    rfl

end

/-! ## A store and a load, and a compare-and-swap -/

/-- A text that leaves nothing to Spike or the kernel. -/
def textEnv (code : Uspike.InsnSpace) : Env (mem_t × Segment) Unit where
  code := code
  mmu := caveat_mmu (create code.base.toInt code.limit.toInt 1) tinyConf
  golden _ := none
  HIGHEST_ECALL_NUM := 0
  rv_to_host _ := none
  proxy_syscall _ c := .ok c

theorem textEnv_caveat (code : Uspike.InsnSpace) :
    CaveatEnv (textEnv code) (fun _ _ _ => []) (create code.base.toInt code.limit.toInt 1) tinyConf where
  mmu := rfl
  golden _ _ _ _ _ _ hf := by cases hf
  golden_trap _ _ _ _ hf := by cases hf
  proxy_syscall _ _ _ hsys := by cases hsys; rfl

/-- A core that was just built for the text, with an address in `a0`. -/
def freshCore (code : Uspike.InsnSpace) : Option (Core Unit) :=
  (mem_t.make (create code.base.toInt code.limit.toInt 1) tinyConf 0).map fun m =>
    { thread := {
        hart := {
          xpr := fun r => if r = 10 then 0x2000 else 0, mem := fun _ => 0, rest := (),
          mmu := (m, fun _ => 0), trace := [], pc := code.entry, executed := 0, total_insns := 0 }
        call := none }
      accesses := [] }

theorem freshCore_dc {code : Uspike.InsnSpace} {c : Core Unit} (hc : freshCore code = some c) :
    (∃ g, c.dc = cache_t.make tinyConf.Dmiss g true) ∧ c.accesses = [] := by
  obtain ⟨m, hm, rfl⟩ := Option.map_eq_some_iff.mp hc
  obtain ⟨_, _, dg, _, _, _, hdc⟩ := make_spec hm
  exact ⟨⟨dg, hdc⟩, rfl⟩

/-- `c.sw a2,0(a0)` and `c.lw a3,0(a0)`. -/
def swapText : Uspike.InsnSpace :=
  ⟨0x10000, 0x10004, 0x10000, [Uspike.decoder Uspike.rvcChain 0xc110, Uspike.decoder Uspike.rvcChain 0x4114]⟩

/-- A store and a load: two accesses, two references. -/
theorem refs_iff_swap : ∃ c₀ ∈ freshCore swapText, ∃ c,
    Lib.run (step (textEnv swapText) fun _ _ _ => []) [.interpreter 2, .iterate, .iterate] c₀ = some c ∧
      c.accesses = [(0x2000, true), (0x2000, false)] ∧ c.dc._refs = c.accesses.length := by
  have hend : (freshCore swapText).map (fun c₀ =>
      ((Lib.run (step (textEnv swapText) fun _ _ _ => []) [.interpreter 2, .iterate, .iterate] c₀).map
          Core.accesses,
        decide (Lib.Along (step (textEnv swapText) fun _ _ _ => []) (casFree (textEnv swapText) · · = true)
          [.interpreter 2, .iterate, .iterate] c₀)))
      = some (some [(0x2000, true), (0x2000, false)], true) := by decide +kernel
  obtain ⟨c₀, hc₀, hpair⟩ := Option.map_eq_some_iff.mp hend
  obtain ⟨hacc, hfree⟩ := Prod.mk.inj hpair
  obtain ⟨c, hrun, hacc⟩ := Option.map_eq_some_iff.mp hacc
  obtain ⟨⟨g, hdc⟩, hnone⟩ := freshCore_dc hc₀
  exact ⟨c₀, hc₀, c, hrun, hacc,
    ((refs_iff (textEnv_caveat swapText) hdc hnone hrun).mpr (of_decide_eq_true hfree)).1⟩

/-- The compare-and-swap that stands for `lr.w`, `bne`, `sc.w`: an access without a lookup. -/
theorem refs_cas : ∃ c₀ ∈ freshCore (Uspike.lrscText.set 0x1000 Uspike.lrscCas), ∃ c,
    Lib.run (step (textEnv (Uspike.lrscText.set 0x1000 Uspike.lrscCas)) fun _ _ _ => [])
        [.interpreter 1, .iterate] c₀ = some c ∧
      c.accesses = [(0x2000, true)] ∧ c.dc._refs = 0 := by
  have hend : ((freshCore (Uspike.lrscText.set 0x1000 Uspike.lrscCas)).bind
      (Lib.run (step (textEnv (Uspike.lrscText.set 0x1000 Uspike.lrscCas)) fun _ _ _ => [])
        [.interpreter 1, .iterate])).map (fun c => (c.accesses, c.dc._refs)) = some ([(0x2000, true)], 0) := by
    decide +kernel
  obtain ⟨c, hbind, hpair⟩ := Option.map_eq_some_iff.mp hend
  obtain ⟨c₀, hc₀, hrun⟩ := Option.bind_eq_some_iff.mp hbind
  obtain ⟨hacc, hrefs⟩ := Prod.mk.inj hpair
  exact ⟨c₀, hc₀, c, hrun, hacc, hrefs⟩

end Cavatools.Caveat.DataCache
