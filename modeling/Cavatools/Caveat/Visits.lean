import Cavatools.Caveat.Profile
import Cavatools.Uspike.Refine

/-!
# What caveat counts of the manual's machine

A call of the interpreter in caveat, on a loaded text: if the machine of the
manual makes the instructions at some pcs one after another, so does caveat,
and `count` at each instruction start of the text is how often that machine
was there (`counts_visits`). So the numbers in the perf file are about the
architecture, and not about the simulator.

The result is put together from three others.

- `path_run`: what the machine of the manual does with these instructions,
  uspike does, each in one turn of its loop. This is the refinement of
  `Refine` along a path, under its condition on every instruction.
- The transparency of caveat's models: what uspike does, caveat does, if every
  jump that is announced goes to a pc of the text. Along a path it does: the
  events of a sequence of instructions announce the instructions themselves,
  and the jumps go to pcs of the sequence or to where it ends (`Announced`).
- The profile: the counter of a parcel is what the events add to it. Of these
  only `insn_model` counts, so it is a count over the fetches
  (`tally_fetched`), and two instruction starts do not share a counter
  (`start_of_index`), so it is a count of one pc (`count_starts`).

The last section has the smallest text that goes around, a jump to itself.
-/

namespace Cavatools.Caveat

open Riscv (ArchState)
open Uspike (Long Event World Thread ThreadAct Start Executable Faithful Shows TextOf SetsPc mmu_t)
open Uspike (Entry FastOp rvcChain fastChain)

variable {τ ο : Type}

/-! ## The events -/

/-- The events of a sequence of instructions: each announces itself, and the jumps go to pcs of
the sequence but the first, or to where it ends. -/
structure Announced (pcs : List Long) (npc : Long) (before after : List Event) : Prop where
  fetches : after.filterMap fetch? = pcs.reverse ++ before.filterMap fetch?
  jumps : ∀ t p, Event.jump_model t p ∈ after → t ∈ pcs.tail ∨ t = npc ∨ Event.jump_model t p ∈ before

/-- The events of one instruction that announces itself and then goes on to `npc`. -/
theorem announced_one {pc npc : Long} {l l' : List Event}
    (h : Uspike.Grown (Uspike.Onward npc) (.insn_model pc :: l) l') : Announced [pc] npc l l' := by
  obtain ⟨d, rfl, hd⟩ := h
  refine ⟨?_, fun t p hmem => ?_⟩
  · have hnone : d.filterMap fetch? = [] := by
      refine List.filterMap_eq_nil_iff.mpr fun e he => ?_
      cases e with
      | insn_model pc' => exact (hd _ he).elim
      | _ => rfl
    rw [List.filterMap_append, hnone]
    rfl
  · rcases List.mem_append.mp hmem with hmem | hmem
    · exact Or.inr (Or.inl (hd _ hmem))
    · rcases List.mem_cons.mp hmem with heq | hmem
      · cases heq
      · exact Or.inr (Or.inr hmem)

/-- The events of two sequences, the second of which starts where the first has gone. -/
theorem announced_cons {pc pc' npc : Long} {pcs : List Long} {l₁ l₂ l₃ : List Event}
    (h : Announced [pc] pc' l₁ l₂) (h' : Announced (pc' :: pcs) npc l₂ l₃) :
    Announced (pc :: pc' :: pcs) npc l₁ l₃ := by
  refine ⟨?_, fun t p hmem => ?_⟩
  · simp [h'.fetches, h.fetches]
  · rcases h'.jumps t p hmem with htail | hnpc | hmem
    · exact Or.inl (List.mem_cons_of_mem _ htail)
    · exact Or.inr (Or.inl hnpc)
    · rcases h.jumps t p hmem with htail | rfl | hmem
      · cases htail
      · exact Or.inl List.mem_cons_self
      · exact Or.inr (Or.inr hmem)

/-! ## Uspike -/

section
variable {w : World τ} {order : List FastOp} {tail : List Entry} {image : Riscv.Mem} {base limit entry : Long}
  {e : Riscv.Elsewhere τ}

theorem step_iterate {σ : Type} {env : Uspike.Env σ τ} {f : ο → σ → σ} (t : Thread σ τ) :
    t.step env f .iterate = t.iterate env := rfl

/-- **The loop of a call in uspike**, with the instructions at `pcs` to go. -/
theorem path_run (hlisted : ∀ op, (Uspike.fastEntry op).isSome → op ∈ order)
    (ht : TextOf (rvcChain ++ fastChain order ++ tail) image base limit entry w.code)
    (hF : Faithful (w.env mmu_t) (rvcChain ++ fastChain order ++ tail) e) (hset : SetsPc w) (f : ο → Unit → Unit)
    {pc : Long} {pcs : List Long} {q q' : ArchState × τ} {h : Uspike.Hart Unit τ} (hq : Shows h q.1.pc q)
    (hpath : Riscv.Path e (Executable (rvcChain ++ fastChain order ++ tail) image base limit) (pc :: pcs) q q')
    (insns : Int) :
    ∃ h', Lib.run (Thread.step (w.env mmu_t) f) (List.replicate (pcs.length + 1) .iterate)
        ⟨h, some ⟨insns + (pcs.length + 1), insns, pc⟩⟩ = some ⟨h', none⟩ ∧ Shows h' q'.1.pc q' ∧
      h'.pc = q'.1.pc ∧ h'.executed = h.executed + insns + (pcs.length + 1) ∧
      Announced (pc :: pcs) q'.1.pc h.trace h'.trace := by
  -- on the instructions to go; each is one turn of the loop
  induction pcs generalizing pc q h insns with
  | nil =>
    cases hpath with
    | cons hC hstep hrest =>
      cases hrest
      obtain ⟨h₁, hit, hshows, hexec, -⟩ := Uspike.iteration_step hlisted ht hF hC hq hstep insns
      have hone := announced_one (Uspike.iteration_announces hset hit)
      refine ⟨(h₁.write_pc q'.1.pc).incr_count (insns + 1), ?_, ⟨hshows.arch, hshows.rest, hshows.zero⟩, rfl,
        ?_, hone⟩
      · refine Option.bind_eq_some_iff.mpr ⟨_, ?_, rfl⟩
        rw [step_iterate, Thread.iterate]
        dsimp only
        rw [hit]
        exact if_neg (by simp)
      · show h₁.executed + (insns + 1) = _
        simp only [List.length_nil]
        omega
  | cons pc₂ pcs ih =>
    cases hpath with
    | cons hC hstep hrest =>
      obtain ⟨h₁, hit, hshows, hexec, -⟩ := Uspike.iteration_step hlisted ht hF hC hq hstep insns
      have hone := announced_one (Uspike.iteration_announces hset hit)
      have hpc := hrest
      cases hpc with
      | @cons _ q₁ _ _ _ _ _ =>
        obtain ⟨h', hrun, hshows', hpc', hexec', hann⟩ := ih hshows hrest (insns + 1)
        refine ⟨h', ?_, hshows', hpc', ?_, announced_cons hone hann⟩
        · refine Option.bind_eq_some_iff.mpr ⟨_, ?_, hrun⟩
          rw [step_iterate, Thread.iterate]
          dsimp only
          rw [hit]
          simp only [List.length_cons]
          rw [if_pos (by push_cast; omega)]
          congr 4
          push_cast
          ring
        · rw [hexec', hexec]
          simp only [List.length_cons]
          push_cast
          ring

/-- The pcs of a sequence are instruction starts. -/
theorem path_starts {chain : List Entry} {pcs : List Long} {q q' : ArchState × τ}
    (hpath : Riscv.Path e (Executable chain image base limit) pcs q q') :
    ∀ pc ∈ pcs, Start chain image base limit pc.toInt := by
  induction hpath with
  | nil q => exact fun _ h => absurd h List.not_mem_nil
  | cons hC _ _ ih => exact List.forall_mem_cons.mpr ⟨hC.start, ih⟩

/-! ## Caveat -/

variable {h : perf_header_t}

/-- Two instruction starts do not share a counter. -/
theorem start_of_index {chain : List Entry} {pc pc' : Long} {i : Int} (hbase : h.base = base.toInt)
    (hpc : Start chain image base limit pc.toInt) (hpc' : Start chain image base limit pc'.toInt)
    (hi : index h pc.toInt = some i) (hi' : index h pc'.toInt = some i) : pc = pc' := by
  have hle := hpc.1.le (Uspike.strideAt_pos chain image)
  have hle' := hpc'.1.le (Uspike.strideAt_pos chain image)
  have heven := hpc.1.dvd (Uspike.strideAt_even chain image)
  have heven' := hpc'.1.dvd (Uspike.strideAt_even chain image)
  have hdiv := (index_eq hi).2.2
  have hdiv' := (index_eq hi').2.2
  rw [hbase, Int.tdiv_eq_ediv_of_nonneg (by omega)] at hdiv hdiv'
  exact BitVec.eq_of_toInt_eq (by omega)

/-- The fetches of a trace that go to the pcs `here`. -/
theorem tally_fetched (here : Int → Bool) (trace : List Event) :
    tally (fetched here) trace = ((trace.filterMap fetch?).countP fun pc => here pc.toInt) := by
  induction trace with
  | nil => rfl
  | cons e before ih =>
    rw [tally, ih]
    cases e with
    | insn_model pc =>
      have hcons : (Event.insn_model pc :: before).filterMap fetch? = pc :: before.filterMap fetch? := rfl
      rw [hcons, List.countP_cons]
      push_cast
      rfl
    | _ =>
      rw [List.filterMap_cons_none rfl]
      exact Int.add_zero _

/-- Where the counters of a start count, among starts. -/
theorem count_starts {chain : List Entry} {pcs : List Long} {pc : Long} {i : Int} (hbase : h.base = base.toInt)
    (hpcs : ∀ p ∈ pcs, Start chain image base limit p.toInt) (hpc : Start chain image base limit pc.toInt)
    (hi : index h pc.toInt = some i) :
    pcs.reverse.countP (fun p => inParcel h i p.toInt) = pcs.count pc := by
  rw [List.countP_reverse, List.count]
  refine List.countP_congr fun p hp => ?_
  unfold inParcel
  rw [decide_eq_true_iff, beq_iff_eq]
  constructor
  · exact fun hip => start_of_index hbase (hpcs p hp) hpc hip hi
  · rintro rfl
    exact hi

/-- **The counts of caveat** are those of the manual's machine. From a core that was just made, in a
call for the instructions at `pcs`: if the manual makes these from where the core is, and ends in
the text, then the call returns with the state that the manual ends in, and every instruction
start has been counted as often as it is in `pcs`. -/
theorem counts_visits {conf : Conf} {n t0 : Int} {m : mem_t}
    (hlisted : ∀ op, (Uspike.fastEntry op).isSome → op ∈ order)
    (hload : Uspike.loadelf (rvcChain ++ fastChain order ++ tail) image base limit entry = .text w.code)
    (hle : base.toInt ≤ limit.toInt) (hh : h = create base.toInt limit.toInt conf.cores)
    (hconf : conf.Admitted) (hn : n < h._cores)
    (hm : mem_t.make h conf n = some m)
    (hF : Faithful (w.env mmu_t) (rvcChain ++ fastChain order ++ tail) e) (hset : SetsPc w)
    {c : Thread (mem_t × Segment) τ} (hc : c.hart.mmu.1 = { m with local_time := t0 })
    (hzero : ∀ a, InRegion h n a → c.hart.mmu.2 a = 0)
    (htrace : c.hart.trace = []) (hcall : c.call = none) {pcs : List Long} {q q' : ArchState × τ}
    (hq : Shows (plain c).hart c.hart.pc q) (hpcs : pcs ≠ [])
    (hpath : Riscv.Path e (Executable (rvcChain ++ fastChain order ++ tail) image base limit) pcs q q')
    (hend : (index h q'.1.pc.toInt).isSome = true) :
    ∃ c', Lib.run (Thread.step (w.env (caveat_mmu h conf))
        (otherRegions h n))
        (.interpreter pcs.length :: List.replicate pcs.length .iterate) c = some c' ∧ c'.call = none ∧
      c'.hart.arch c'.hart.pc = q'.1 ∧ c'.hart.rest = q'.2 ∧ c'.hart.executed = c.hart.executed + pcs.length ∧
      ∀ pc, Start (rvcChain ++ fastChain order ++ tail) image base limit pc.toInt →
        c'.hart.mmu.1.count h pc.toInt c'.hart.mmu.2
          = some (pcs.count pc : Int) := by
  have hcode := countersOf_loadelf hload hle conf.cores
  rw [← hh] at hcode
  have ht := Uspike.loadelf_textOf hload
  have hindex {pc : Long} (hpc : Start (rvcChain ++ fastChain order ++ tail) image base limit pc.toInt) :
      (index h pc.toInt).isSome = true := by
    refine index_of_at hcode ?_
    rw [← BitVec.ofInt_toInt (x := pc), ht.at_start hpc]
    rfl
  obtain ⟨pc, rest, rfl⟩ := List.exists_cons_of_ne_nil hpcs
  have hstarts := path_starts hpath
  -- uspike makes the instructions
  have hpc : q.1.pc = c.hart.pc := (congrArg ArchState.pc hq.arch).symm
  have hfirst : pc = c.hart.pc := by
    cases hpath
    exact hpc
  rw [← hpc] at hq
  obtain ⟨h', hturns, hshows, hat, hexec, hann⟩ :=
    path_run (f := fun (_ : Segment) s => s) hlisted ht hF hset hq hpath 0
  have hrun : Lib.run (Thread.step (w.env mmu_t) fun (_ : Segment) s => s)
      (.interpreter (pc :: rest).length :: List.replicate (pc :: rest).length .iterate) (plain c)
        = some ⟨h', none⟩ := by
    refine Option.bind_eq_some_iff.mpr ⟨_, ?_, hturns⟩
    unfold Thread.step Thread.interpreter plain
    dsimp only
    rw [hcall, hfirst]
    simp
  -- and so does caveat, since the jumps stay in the text
  have hjumps : JumpsInText h h'.trace := by
    intro t p hmem
    rcases hann.jumps t p hmem with hrest | rfl | hbefore
    · exact hindex (hstarts t (List.mem_cons_of_mem _ hrest))
    · exact hend
    · rw [show (plain c).hart.trace = [] from htrace] at hbefore
      cases hbefore
  obtain ⟨c', hrun', hview⟩ := (run_plain_iff (g := otherRegions h n)
    (fun _ _ => rfl) w hconf hn hcode hm hc htrace _ (view ⟨h', none⟩)).mpr ⟨⟨_, hrun, rfl⟩, hjumps⟩
  obtain ⟨hguest, hrest⟩ := Prod.mk.inj hview
  obtain ⟨hcall', htrace'⟩ := Prod.mk.inj hrest
  -- whose counters are the profile of these events
  obtain ⟨is, ds, hstart⟩ := profiled_make hn hconf hm t0 hzero
  rw [← hc, ← htrace] at hstart
  have hprofiled := run_profiled hn hrun' hstart
  refine ⟨c', hrun', hcall', ?_, ?_, ?_, fun p hp => ?_⟩
  · have harch : c'.hart.arch c'.hart.pc = h'.arch h'.pc := by
      rw [Uspike.Hart.guest, Uspike.Hart.guest] at hguest
      injection hguest with hx hmem hstate hat'
      rw [Uspike.Machine.arch, Uspike.Machine.arch, hx, hmem, hat']
    rw [harch, hat]
    exact hshows.arch
  · exact (congrArg Uspike.Guest.rest hguest).trans hshows.rest
  · refine (congrArg Uspike.Guest.executed hguest).trans (hexec.trans ?_)
    rw [List.length_cons, Int.add_zero]
    push_cast
    rfl
  · obtain ⟨i, hi⟩ := Option.isSome_iff_exists.mp (hindex hp)
    obtain ⟨h0, hlt, -⟩ := index_eq hi
    obtain ⟨a, haddr, hcell⟩ := address_make hn hi .executed
    rw [perf_t.count, perf_t.get, hprofiled.perf, haddr, Option.map_some, hprofiled.cells i ⟨h0, hlt⟩ _ a hcell,
      profile, tally_fetched, htrace', hann.fetches, show (plain c).hart.trace = [] from htrace,
      List.filterMap_nil, List.append_nil, count_starts (by rw [hh]; rfl) hstarts hp hi]

end

/-! ### A text of one instruction -/

/-- `c.j .` at 0x1000. -/
def selfJumpMem : Riscv.Mem := Riscv.Mem.store (fun _ => 0) 0x1000 2 0xa001#16

def selfJump : Uspike.InsnSpace := ⟨0x1000, 0x1002, 0x1000, [Uspike.decoder Uspike.listedChain 0xa001]⟩

theorem loadelf_selfJump :
    Uspike.loadelf Uspike.listedChain selfJumpMem 0x1000 0x1002 0x1000 = .text selfJump := by
  refine Uspike.loadelf_plain (by decide) ?_ (by decide) (by decide)
  show Uspike.predecode Uspike.listedChain selfJumpMem 0x1002 0x1000 _ = _
  rw [Uspike.predecode, if_pos (by decide)]
  show Uspike.predecode Uspike.listedChain selfJumpMem 0x1002 0x1002 _ = _
  rw [Uspike.predecode, if_neg (by decide)]
  rfl

def selfJumpWorld : World Unit := { nopLiWorld with code := selfJump }

/-- At the instruction, which jumps to itself. -/
def selfJumpState : ArchState := ⟨fun _ => 0, 0x1000, selfJumpMem⟩

/-- Three times around. -/
theorem counts_visits_selfJump : ∃ m, mem_t.make (create 0x1000 0x1002 1) tinyConf 0 = some m ∧
    ∃ c', Lib.run (Thread.step (selfJumpWorld.env (caveat_mmu (create 0x1000 0x1002 1) tinyConf))
        (otherRegions (create 0x1000 0x1002 1) 0)) [.interpreter 3, .iterate, .iterate, .iterate]
        ⟨⟨⟨fun _ => 0, selfJumpMem, (), ({ m with local_time := 0 }, fun _ => 0), []⟩, 0x1000, 0, 0⟩, none⟩
        = some c' ∧ c'.hart.mmu.1.count (create 0x1000 0x1002 1) 0x1000 c'.hart.mmu.2 = some 3 := by
  obtain ⟨m, hm⟩ := Option.isSome_iff_exists.mp
    (show (mem_t.make (create 0x1000 0x1002 1) tinyConf 0).isSome = true by decide +kernel)
  have hstart : Start Uspike.listedChain selfJumpMem 0x1000 0x1002 0x1000 := Lib.Sweep.visits_self (by decide)
  have hword : selfJumpState.fetch = 0xa001 := by decide
  have hC : Executable Uspike.listedChain selfJumpMem 0x1000 0x1002 selfJumpState :=
    Uspike.executable_of_plainWord hstart rfl
      (by rw [hword]; exact Uspike.plainWord_of (by decide) (by decide) (by decide))
  have hlegal : Riscv.Legal (Riscv.half selfJumpState.fetch) .c_j := by
    rw [hword]
    exact ⟨by decide, by decide⟩
  have hexec : Riscv.execC (Riscv.half selfJumpState.fetch) selfJumpState .c_j = some selfJumpState := by
    rw [hword]
    rfl
  have hjump : Riscv.Step Uspike.nopLiElsewhere (selfJumpState, ()) (selfJumpState, ()) :=
    .compressed hlegal hexec
  have hpath : Riscv.Path Uspike.nopLiElsewhere (Executable Uspike.listedChain selfJumpMem 0x1000 0x1002)
      [0x1000, 0x1000, 0x1000] (selfJumpState, ()) (selfJumpState, ()) :=
    .cons hC hjump (.cons hC hjump (.cons hC hjump (.nil _)))
  have hF : Faithful (selfJumpWorld.env mmu_t) Uspike.listedChain Uspike.nopLiElsewhere :=
    Uspike.faithful_nothing rfl _
  have hset : SetsPc selfJumpWorld := fun op r h => by cases h
  have hchain : Uspike.listedChain = rvcChain ++ fastChain Uspike.listedFast ++ Uspike.lrscRest :=
    (List.append_assoc _ _ _).symm
  have hload := loadelf_selfJump
  rw [hchain] at hload hF hpath hstart
  obtain ⟨c', hrun, -, -, -, -, hcounts⟩ := counts_visits (fun _ => Uspike.mem_listedFast) (w := selfJumpWorld)
    hload (by decide) rfl ⟨by decide, by decide, by decide, by decide⟩ (by decide) hm hF hset
    (c := ⟨⟨⟨fun _ => 0, selfJumpMem, (), ({ m with local_time := 0 }, fun _ => 0), []⟩, 0x1000, 0, 0⟩, none⟩)
    rfl (fun _ _ => rfl) rfl rfl ⟨rfl, rfl, rfl⟩ (by simp) hpath (by decide)
  exact ⟨m, hm, c', hrun, hcounts 0x1000 hstart⟩

end Cavatools.Caveat
