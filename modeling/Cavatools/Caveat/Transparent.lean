import Cavatools.Caveat.Mem
import Cavatools.Uspike.Redecode
import Cavatools.Uspike.Simulate

/-!
# Caveat runs what uspike runs

Caveat is uspike with `mem_t` in the place of `mmu_t`. Its models count and
keep time, and return the address they were given, so a thread of caveat
computes what a thread of uspike computes. What they add is a condition: a
jump is charged to its target before anything is fetched there, and the
counters are those of the text. `caveat_run_iff` says that this condition is
the only difference, for any loaded text, any functions of Spike's, any kernel
and whatever the other threads do in between.

It is a simulation in both directions, and each direction is an instance of
the rule of `Simulate` for two models under one interpreter.

- From caveat to uspike (`caveat_follows`): what caveat lets pass, uspike does
  too. On the way it is recorded that each event had its counters (`LetPass`).
- From uspike to caveat (`uspike_follows`): what uspike does, caveat can do if
  the events can be charged (`CanCharge`). Here it is needed that no lookup
  fails, which is the invariant `Ready`, and that there are counters wherever
  there is an instruction (`index_of_at`). So of the condition only the jumps
  remain.

`run_plain_iff` puts the two together for runs, over what can be seen of a
thread beside its model: the guest, where its call is, and the events so far
(`view`). The counters of `main` are made with the bounds of the text that was
loaded (`countersOf_loadelf`), which is where the assumption about counters
comes from.
-/

namespace Cavatools.Caveat

open Uspike (Long Mmu Event World Thread ThreadAct Guest InsnSpace Locals Follows FollowsAll AlikeThread mmu_t)

variable {h : perf_header_t} {conf : Conf}

/-- The counters that an event charges are there. -/
def CanCharge (h : perf_header_t) : Event → Prop
  | .insn_model pc => (index h pc.toInt).isSome = true
  | .jump_model npc _ => (index h npc.toInt).isSome = true
  | .load_model _ pc | .store_model _ pc | .amo_model _ pc => (index h pc.toInt).isSome = true
  | .proxy_syscall _ _ => True

/-- The counters were created for this text. -/
structure CountersOf (h : perf_header_t) (code : InsnSpace) : Prop where
  base : h.base = code.base.toInt
  length : (code.predecoded.length : Int) ≤ h.parcels

/-- Where there is an instruction there are counters for it. -/
theorem index_of_at {code : InsnSpace} (hcode : CountersOf h code) {pc : Long}
    (hat : (code.at pc).isSome = true) : (index h pc.toInt).isSome = true := by
  rw [← BitVec.ofInt_toInt (x := pc)] at hat
  have hlo : code.base.toInt ≤ pc.toInt := by
    unfold InsnSpace.at InsnSpace.valid at hat
    split at hat
    case isTrue hvalid =>
      rw [BitVec.ofInt_toInt, Bool.and_eq_true, BitVec.sle_eq_decide, decide_eq_true_eq] at hvalid
      exact hvalid.1
    case isFalse => cases hat
  have hhi : pc.toInt < code.base.toInt + 2 ^ 64 := by
    have hpc := BitVec.toInt_lt (x := pc)
    have hbase := BitVec.le_toInt code.base
    norm_num at *
    omega
  rw [InsnSpace.at_ofInt hlo hhi] at hat
  split at hat
  case isTrue =>
    have hslot : code.slotOf pc.toInt < code.predecoded.length := by
      by_contra hge
      rw [List.getElem?_eq_none (by omega)] at hat
      cases hat
    unfold InsnSpace.slotOf at hslot
    have hlen := hcode.length
    unfold index
    rw [hcode.base, Int.tdiv_eq_ediv_of_nonneg (by omega), if_pos ⟨hlo, by omega⟩]
    rfl
  case isFalse => cases hat

/-- The rest of a process of caveat changes the counters, and not the `mem_t` of this core. -/
def otherCounters (seg : Segment) (ms : mem_t × Segment) : mem_t × Segment := (ms.1, seg)

/-! ## From caveat to uspike -/

/-- What is known of an event at `pc` once caveat let it pass. -/
def LetPass (h : perf_header_t) (pc : Long) : Event → Prop
  | .insn_model pc' => pc' = pc ∧ (index h pc.toInt).isSome = true
  | .jump_model npc _ => (index h npc.toInt).isSome = true
  | .load_model _ pc' | .store_model _ pc' | .amo_model _ pc' => pc' = pc
  | .proxy_syscall _ _ => True

/-- An instruction that was counted, or a jump that was charged, has its counters. -/
theorem inText_of_perform {c : Call} (hc : c.insns = 1 ∨ c.jumps = 1) {ms ms' : mem_t × Segment}
    (hrun : perform h conf c ms = some ms') : c.InText h := by
  unfold perform at hrun
  split at hrun
  case h_1 => cases hrun
  case h_2 m us hcall =>
    obtain ⟨s, hs, -⟩ := Option.map_eq_some_iff.mp hrun
    have hcharged := call_charged hcall
    have hne : ∃ u, u ∈ us := by
      rcases hc with hc | hc
      · -- it was counted once, so there was an update
        cases us with
        | nil =>
          have hzero := hcharged.insns
          rw [hc] at hzero
          cases hzero
        | cons u us => exact ⟨u, List.mem_cons_self⟩
      · cases c with
        | jump_model npc pc =>
          cases hcall
          exact ⟨_, List.mem_cons_self⟩
        | insn_model _ | load_model _ _ | store_model _ _ | amo_model _ _ => cases hc
    obtain ⟨u, hu⟩ := hne
    have hindex := index_of_incs hs u hu
    rw [hcharged.pcs u hu] at hindex
    exact hindex

/-- Each model of caveat returns what that of uspike does. -/
theorem caveat_follows (h : perf_header_t) (conf : Conf) (pc : Long) :
    Follows (fun _ => True) (LetPass h pc) (fun _ _ => True) (caveat_mmu h conf) mmu_t pc where
  insn_model ms ms' hrun :=
    ⟨⟨rfl, inText_of_perform (c := .insn_model pc) (Or.inl rfl) hrun⟩, fun _ _ _ => ⟨(), rfl, trivial⟩⟩
  jump_model npc ms a ms' hrun := by
    obtain ⟨ms₁, hms₁, heq⟩ := Option.map_eq_some_iff.mp hrun
    cases heq
    exact ⟨inText_of_perform (c := .jump_model npc pc) (Or.inr rfl) hms₁, fun _ _ _ => ⟨(), rfl, trivial⟩⟩
  load_model b ms a ms' hrun := by
    obtain ⟨ms₁, -, heq⟩ := Option.map_eq_some_iff.mp hrun
    cases heq
    exact ⟨rfl, fun _ _ _ => ⟨(), rfl, trivial⟩⟩
  store_model b ms a ms' hrun := by
    obtain ⟨ms₁, -, heq⟩ := Option.map_eq_some_iff.mp hrun
    cases heq
    exact ⟨rfl, fun _ _ _ => ⟨(), rfl, trivial⟩⟩
  amo_model b ms ms' hrun := ⟨rfl, fun _ _ _ => ⟨(), rfl, trivial⟩⟩

theorem caveat_followsAll (h : perf_header_t) (conf : Conf) (code : InsnSpace) :
    FollowsAll (fun _ => True) (CanCharge h) (fun _ _ => True) code (caveat_mmu h conf) mmu_t := by
  refine ⟨fun pc => ⟨LetPass h pc, caveat_follows h conf pc, fun _ _ => trivial, ?_⟩⟩
  rintro ⟨-, hpc⟩ - e he
  cases e with
  | insn_model pc' => exact he.1 ▸ hpc
  | jump_model npc pc' => exact he
  | load_model a pc' | store_model a pc' | amo_model a pc' =>
    -- an access is charged to the pc that was just counted
    exact (show pc' = pc from he) ▸ hpc
  | proxy_syscall sysnum executed => trivial

/-! ## From uspike to caveat -/

/-- The core has a region, and caches that no lookup fails in. -/
def Ready (h : perf_header_t) (n : Int) (_ : Unit) (ms : mem_t × Segment) : Prop :=
  ms.1.toperf_t = perf_t.make h n ∧ ∃ is ds, Sound is ds ms.1

/-- A call at a pc of the text can be charged, and leaves a core that is ready. -/
theorem perform_ready {n : Int} (hn : n < h._cores) {c : Call} (hc : c.InText h) {ms : mem_t × Segment}
    (hms : Ready h n () ms) : ∃ ms', perform h conf c ms = some ms' ∧ Ready h n () ms' := by
  obtain ⟨hperf, is, ds, hsound⟩ := hms
  obtain ⟨m, us, hcall, hsound'⟩ := call_sound conf hsound c
  have hcharged := call_charged hcall
  have hpcs : ∀ u ∈ us, (index h u.pc).isSome = true := by
    intro u hu
    rw [hcharged.pcs u hu]
    exact hc
  obtain ⟨s, hs, -⟩ := incs_make hn hpcs ms.2
  refine ⟨(m, s), ?_, hcharged.perf.trans hperf, is, ds, hsound'⟩
  unfold perform
  rw [hcall]
  dsimp only
  rw [hperf, hs]
  rfl

/-- What is known of an event at `pc` of uspike's. -/
def At (pc : Long) : Event → Prop
  | .insn_model pc' | .load_model _ pc' | .store_model _ pc' | .amo_model _ pc' => pc' = pc
  | .jump_model _ _ | .proxy_syscall _ _ => True

/-- Where an event can be charged, the model of caveat returns what that of uspike does. -/
theorem uspike_follows {n : Int} (hn : n < h._cores) (conf : Conf) (pc : Long) :
    Follows (CanCharge h) (At pc) (Ready h n) mmu_t (caveat_mmu h conf) pc where
  insn_model _ _ _ := ⟨rfl, fun _ hms hP => perform_ready (c := .insn_model pc) hn hP hms⟩
  jump_model npc _ a _ hrun := by
    cases hrun
    refine ⟨trivial, fun ms hms hP => ?_⟩
    have hcall : ∃ ms', perform h conf (.jump_model npc pc) ms = some ms' ∧ Ready h n () ms' :=
      perform_ready (c := .jump_model npc pc) hn hP hms
    obtain ⟨ms', hms', hready⟩ := hcall
    exact ⟨ms', Option.map_eq_some_iff.mpr ⟨ms', hms', rfl⟩, hready⟩
  load_model b _ a _ hrun := by
    cases hrun
    refine ⟨rfl, fun ms hms hP => ?_⟩
    have hcall : ∃ ms', perform h conf (.load_model b pc) ms = some ms' ∧ Ready h n () ms' :=
      perform_ready (c := .load_model b pc) hn hP hms
    obtain ⟨ms', hms', hready⟩ := hcall
    exact ⟨ms', Option.map_eq_some_iff.mpr ⟨ms', hms', rfl⟩, hready⟩
  store_model b _ a _ hrun := by
    cases hrun
    refine ⟨rfl, fun ms hms hP => ?_⟩
    have hcall : ∃ ms', perform h conf (.store_model b pc) ms = some ms' ∧ Ready h n () ms' :=
      perform_ready (c := .store_model b pc) hn hP hms
    obtain ⟨ms', hms', hready⟩ := hcall
    exact ⟨ms', Option.map_eq_some_iff.mpr ⟨ms', hms', rfl⟩, hready⟩
  amo_model b _ _ _ := ⟨rfl, fun _ hms hP => perform_ready (c := .amo_model b pc) hn hP hms⟩

/-- Every jump that was announced goes to a pc of the text. -/
def JumpsInText (h : perf_header_t) (trace : List Event) : Prop :=
  ∀ npc pc, Event.jump_model npc pc ∈ trace → (index h npc.toInt).isSome = true

/-- All but the jumps can be charged in any run of uspike. -/
def NoJumpOrCharge (h : perf_header_t) (e : Event) : Prop :=
  (∀ npc pc, e ≠ .jump_model npc pc) → CanCharge h e

theorem uspike_followsAll {n : Int} (hn : n < h._cores) (conf : Conf) {code : InsnSpace}
    (hcode : CountersOf h code) : FollowsAll (CanCharge h) (NoJumpOrCharge h) (Ready h n) code mmu_t
      (caveat_mmu h conf) := by
  refine ⟨fun pc => ⟨At pc, uspike_follows hn conf pc, fun _ _ => trivial, ?_⟩⟩
  intro _ hat e he hnot
  have hpc := index_of_at hcode hat
  cases e with
  | insn_model pc' | load_model a pc' | store_model a pc' | amo_model a pc' =>
    exact (show pc' = pc from he) ▸ hpc
  | jump_model npc pc' => exact absurd rfl (hnot npc pc')
  | proxy_syscall sysnum executed => trivial

/-! ## Runs -/

section
variable {σ τ : Type}

/-- The thread on the base class. -/
def plain (t : Thread σ τ) : Thread Unit τ := ⟨{ t.hart with mmu := () }, t.call⟩

/-- What can be seen of a thread beside its model: the guest, where its call is, and the
events so far. -/
def view (t : Thread σ τ) : Guest τ × Option Locals × List Event := (t.hart.guest, t.call, t.hart.trace)

theorem alike_plain (t : Thread σ τ) : AlikeThread (fun _ _ => True) t (plain t) :=
  ⟨rfl, ⟨rfl, rfl, rfl, rfl, trivial⟩, rfl, rfl, rfl⟩

theorem view_alike {σ' : Type} {S : σ → σ' → Prop} {t : Thread σ τ} {t' : Thread σ' τ}
    (ht : AlikeThread S t t') : view t' = view t := by
  unfold view
  rw [Uspike.alike_guest ht.hart, ht.call, ht.hart.trace]

/-- **Runs on both sides.** The two simulations, and what either records of the events. -/
theorem run_plain_iff {ο : Type} {g : ο → mem_t × Segment → mem_t × Segment} (hg : ∀ o ms, (g o ms).1 = ms.1)
    (w : World τ) (hconf : conf.Admitted) {n : Int} (hn : n < h._cores)
    (hcode : CountersOf h w.code) {m : mem_t} (hm : mem_t.make h conf n = some m) {t0 : Int}
    {c : Thread (mem_t × Segment) τ} (hc : c.hart.mmu.1 = { m with local_time := t0 })
    (htrace : c.hart.trace = []) (as : List (ThreadAct τ ο))
    (v : Guest τ × Option Locals × List Event) :
    (∃ c', Lib.run (Thread.step (w.env (caveat_mmu h conf)) g) as c = some c' ∧ view c' = v) ↔
      (∃ t', Lib.run (Thread.step (w.env mmu_t) fun _ s => s) as (plain c) = some t' ∧ view t' = v) ∧
        JumpsInText h v.2.2 := by
  constructor
  · rintro ⟨c', hrun, rfl⟩
    obtain ⟨⟨d, hd, hcharge⟩, hgo⟩ := Uspike.run_sim (caveat_followsAll h conf w.code)
      (g := fun _ s => s) (fun _ _ _ _ => trivial) hrun
    obtain ⟨t', hrun', ht'⟩ := hgo (plain c) (alike_plain c) fun _ _ => trivial
    refine ⟨⟨t', hrun', view_alike ht'⟩, fun npc pc hmem => ?_⟩
    have htr : c'.hart.trace = d := by rw [hd, htrace, List.append_nil]
    have hin : Event.jump_model npc pc ∈ c'.hart.trace := hmem
    rw [htr] at hin
    exact hcharge _ hin
  · rintro ⟨⟨t', hrun, rfl⟩, hjumps⟩
    obtain ⟨is, ds, hsound⟩ := make_sound hm hconf
    obtain ⟨-, -, -, -, hperf, -, -⟩ := make_spec hm
    have hready : Ready h n () c.hart.mmu := by
      refine ⟨by rw [hc]; exact hperf, is, ds, ?_⟩
      rw [hc]
      exact ⟨hsound.itracks, hsound.clean, hsound.dtracks, hsound.writeable⟩
    have hother (o : ο) (s : Unit) (ms : mem_t × Segment) (hms : Ready h n s ms) : Ready h n s (g o ms) := by
      unfold Ready
      rw [hg]
      exact hms
    have hstart : AlikeThread (Ready h n) (plain c) c := ⟨rfl, ⟨rfl, rfl, rfl, rfl, hready⟩, rfl, rfl, rfl⟩
    obtain ⟨⟨d, hd, hcharge⟩, hgo⟩ := Uspike.run_sim (uspike_followsAll hn conf hcode)
      (g := g) hother hrun
    have htr : t'.hart.trace = d := by
      rw [hd]
      show d ++ c.hart.trace = d
      rw [htrace, List.append_nil]
    obtain ⟨c', hrun', hc'⟩ := hgo c hstart fun e he => by
      by_cases hjump : ∃ npc pc, e = .jump_model npc pc
      · obtain ⟨npc, pc, rfl⟩ := hjump
        exact hjumps npc pc he
      · exact hcharge e (htr ▸ he) fun npc pc heq => hjump ⟨npc, pc, heq⟩
    exact ⟨c', hrun', view_alike hc'⟩

/-- `main` creates the counters with the bounds of the text that it has loaded. -/
theorem countersOf_loadelf {chain : List Uspike.Entry} {image : Riscv.Mem} {base limit entry : Long}
    {code : InsnSpace} (hload : Uspike.loadelf chain image base limit entry = .text code)
    (hle : base.toInt ≤ limit.toInt) (cores : Int) :
    CountersOf (create base.toInt limit.toInt cores) code := by
  have htext := Uspike.loadelf_textOf hload
  have hlength := htext.length
  refine ⟨by rw [htext.base_eq]; rfl, ?_⟩
  show (code.predecoded.length : Int) ≤ (limit.toInt - base.toInt).tdiv 2
  rw [Int.tdiv_eq_ediv_of_nonneg (by omega)]
  rcases Int.lt_or_le ((limit.toInt - base.toInt) / 2) (2 ^ 31) with hlt | hge
  · -- an `int` holds the number of slots
    have hsub : (limit - base).toInt = limit.toInt - base.toInt := by
      rw [BitVec.toInt_sub]
      exact Int.bmod_eq_of_le (by norm_num; omega) (by norm_num; omega)
    have hdiv : ((limit - base).sdiv 2).toInt = (limit.toInt - base.toInt) / 2 := by
      rw [BitVec.toInt_sdiv_of_ne_or_ne _ _ (Or.inr (by decide)), hsub]
      exact Int.tdiv_eq_ediv_of_nonneg (by omega)
    have hnat : (((limit - base).sdiv 2).toNat : Int) = (limit.toInt - base.toInt) / 2 := by
      rw [← hdiv, BitVec.toInt_eq_toNat_of_lt]
      rw [BitVec.toInt_eq_toNat_cond] at hdiv
      have hbits := ((limit - base).sdiv 2).isLt
      split at hdiv <;> omega
    have hcount : Uspike.slotCount base limit = (limit.toInt - base.toInt) / 2 := by
      rw [Uspike.slotCount, BitVec.toInt_setWidth, hnat]
      exact Int.bmod_eq_of_le (by norm_num; omega) (by norm_num; omega)
    omega
  · have hcount := Uspike.slotCount_lt base limit
    omega

/-- **Caveat against uspike.** From the same start, whatever the thread and the others do, a
core of caveat comes to the end of the run with a given guest and given events exactly when a
hart of uspike does and every jump it announced went to a pc of the text. -/
theorem caveat_run_iff (w : World τ) {chain : List Uspike.Entry} {image : Riscv.Mem}
    {base limit entry : Long} (hload : Uspike.loadelf chain image base limit entry = .text w.code)
    (hle : base.toInt ≤ limit.toInt) (hconf : conf.Admitted) {n : Int} (hn : n < conf.cores) {m : mem_t}
    (hm : mem_t.make (create base.toInt limit.toInt conf.cores) conf n = some m) {t0 : Int}
    {c : Thread (mem_t × Segment) τ} (hc : c.hart.mmu.1 = { m with local_time := t0 })
    (htrace : c.hart.trace = []) (as : List (ThreadAct τ Segment))
    (v : Guest τ × Option Locals × List Event) :
    (∃ c', Lib.run (Thread.step (w.env (caveat_mmu (create base.toInt limit.toInt conf.cores) conf))
        otherCounters) as c = some c' ∧ view c' = v) ↔
      (∃ t', Lib.run (Thread.step (w.env mmu_t) fun _ s => s) as (plain c) = some t' ∧ view t' = v) ∧
        JumpsInText (create base.toInt limit.toInt conf.cores) v.2.2 :=
  run_plain_iff (g := otherCounters) (fun _ _ => rfl) w hconf hn (countersOf_loadelf hload hle conf.cores) hm hc htrace as v

end

/-- Around the two instructions of `nopLi`, nothing. -/
def nopLiWorld : World Unit where
  code := Uspike.nopLi
  golden _ := none
  HIGHEST_ECALL_NUM := 0
  rv_to_host _ := none
  proxy_syscall _ g := .ok g

/-- A thread at its first instruction. -/
def nopLiThread {σ : Type} (mmu : σ) : Thread σ Unit :=
  ⟨⟨⟨fun _ => 0, Uspike.nopLiMem, (), mmu, []⟩, 0x1000, 0, 0⟩, none⟩

/-- One instruction of caveat's, from that of uspike. -/
theorem caveat_run_iff_nopLi : ∃ m, mem_t.make (create 0x1000 0x1004 1) tinyConf 0 = some m ∧
    ∃ c', Lib.run (Thread.step (nopLiWorld.env (caveat_mmu (create 0x1000 0x1004 1) tinyConf)) otherCounters)
      [.interpreter 1, .iterate] (nopLiThread ({ m with local_time := 0 }, fun _ => 0)) = some c' ∧
      c'.hart.pc = 0x1002 := by
  obtain ⟨m, hm⟩ := Option.isSome_iff_exists.mp
    (show (mem_t.make (create 0x1000 0x1004 1) tinyConf 0).isSome = true by decide +kernel)
  refine ⟨m, hm, ?_⟩
  have hrun : (Lib.run (Thread.step (nopLiWorld.env mmu_t) fun (_ : Segment) s => s) [.interpreter 1, .iterate]
      (nopLiThread ())).map (fun t => (t.hart.pc, t.hart.trace))
      = some (0x1002, [.insn_model 0x1000]) := by decide +kernel
  obtain ⟨t, ht, hend⟩ := Option.map_eq_some_iff.mp hrun
  obtain ⟨hpc, htrace⟩ := Prod.mk.inj hend
  obtain ⟨c', hc', hview⟩ := (caveat_run_iff nopLiWorld Uspike.loadelf_nopLi (by decide)
    ⟨by decide, by decide, by decide, by decide⟩ (by decide) hm
    (c := nopLiThread ({ m with local_time := 0 }, fun _ => 0)) rfl rfl _ (view t)).mpr
      ⟨⟨t, ht, rfl⟩, fun npc pc hmem => by rw [view, htrace] at hmem; simp at hmem⟩
  have hguest := congrArg Guest.pc (Prod.mk.inj hview).1
  exact ⟨c', hc', hguest.trans hpc⟩

end Cavatools.Caveat
