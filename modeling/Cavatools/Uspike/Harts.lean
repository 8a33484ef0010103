import Cavatools.Riscv.Cores
import Cavatools.Uspike.Process
import Cavatools.Uspike.Refine

/-!
# Harts on one memory

Every thread of the process runs the loop of the interpreter on its own hart,
with its pc and its count in locals, and calls it again when a call is over.
Memory, the host and `total_insns` are shared. If each iteration is taken as a
whole, then in whatever order the threads take theirs the harts do what the
cores of a RISC-V machine with one memory do in that order: nothing of a hart
is kept in memory, nothing of the memory in a hart.

The hart of a thread has a copy of the shared part from when the thread last
looked; `Harts.sees` brings it up to date before an iteration and `Harts.put`
gives it back. A thread whose call is over enters the next one first
(`Thread.enter`). A `clone` that makes a thread is a step of its own, in which
the child copies the registers before its parent goes on, as the handshake of
`Clone` has it.

`Related` is the simulation: the threads are as the cores, one for one, on the
same memory, where the pc of a thread inside a call is the one in its locals
(`Holds`). `iterate_step` is the refinement of a single iteration, applied to
what one thread sees, and `related_put` gives back what it has changed. For a
`clone` the threads and the cores agree on which `ecall` is one
(`atClone_iff`), and on what the child starts with (`holds_child`,
`related_clone`). `turn_step` is both cases.

`harts_turns` is the induction over the turns, with the number of instructions
that each thread has made (`madeAt`). The condition on each instruction is the
one of `Refine`.
-/

namespace Cavatools.Uspike

open Riscv (ArchState Mem Elsewhere Core Cores Move Turn Turns)

variable {ρ η : Type}

/-! ## The process -/

/-- The threads, and what they share. The hart of a thread has a copy of the shared part from
when the thread last looked. -/
structure Harts (ρ η : Type) where
  threads : List (Thread Unit (ρ × η))
  mem : Mem
  host : η
  total_insns : Int

/-- A thread that is between two calls makes the next one. -/
def Thread.enter (how_many : Int) (t : Thread Unit (ρ × η)) : Thread Unit (ρ × η) :=
  match t.call with
  | none => { t with call := some ⟨how_many, 0, t.hart.pc⟩ }
  | some _ => t

namespace Harts

variable (s : Harts ρ η)

def sees (t : Thread Unit (ρ × η)) : Thread Unit (ρ × η) :=
  { t with hart := { t.hart with
    mem := s.mem, rest := (t.hart.rest.1, s.host), total_insns := s.total_insns } }

/-- The thread at `i` is done with its iteration. -/
def put (i : Nat) (t : Thread Unit (ρ × η)) : Harts ρ η where
  threads := s.threads.set i t
  mem := t.hart.mem
  host := t.hart.rest.2
  total_insns := t.hart.total_insns

/-- An iteration of the thread at `i`. -/
def iterate (env : Env Unit (ρ × η)) (how_many : Int) (i : Nat) : Option (Harts ρ η) :=
  s.threads[i]?.bind fun t => (((s.sees t).enter how_many).iterate env).map (s.put i)

/-- Where the next instruction of a thread is. -/
def pcOf (t : Thread Unit (ρ × η)) : Long :=
  match t.call with
  | none => t.hart.pc
  | some l => l.pc

/-- The thread at `i` is at an `ecall` that the table takes to the host's `clone`. -/
def atClone (env : Env Unit (ρ × η)) (t : Thread Unit (ρ × η)) : Bool :=
  match env.code.at (pcOf t) with
  | none => false
  | some d =>
    decide (d.opcode = .fast .ecall ∧ env.rv_to_host (t.hart.xpr 17).toNat = some Process.SYS_clone)

/-- The child copies the registers before its parent goes on. -/
def clone (env : Env Unit (ρ × η)) (how_many : Int) (i : Nat) : Option (Harts ρ η) :=
  s.threads[i]?.bind fun t =>
    if atClone env t then
      iterate { s with threads := s.threads ++ [Process.child (s.sees t) (pcOf t) ()] } env how_many i
    else none

/-- A thread that is not at a `clone`. -/
def stepped (env : Env Unit (ρ × η)) (how_many : Int) (i : Nat) : Option (Harts ρ η) :=
  s.threads[i]?.bind fun t => if atClone env t then none else s.iterate env how_many i

def step (env : Env Unit (ρ × η)) (how_many : Int) : Move → Option (Harts ρ η)
  | .step i => s.stepped env how_many i
  | .clone i => s.clone env how_many i

end Harts

/-- The instructions that a thread has executed, those of its call included. -/
def Thread.made (t : Thread Unit (ρ × η)) : Int :=
  match t.call with
  | none => t.hart.executed
  | some l => t.hart.executed + l.insns

/-! ## Harts and cores -/

namespace Harts

/-- The hart of a thread is as a core. -/
structure Holds (t : Thread Unit (ρ × η)) (c : Core ρ) : Prop where
  xpr : t.hart.xpr = c.x
  own : t.hart.rest.1 = c.own
  pc : pcOf t = c.pc
  zero : c.x 0 = 0

/-- The threads are as the cores, one for one, on the same memory. -/
structure Related (s : Harts ρ η) (q : Cores ρ η) : Prop where
  length : s.threads.length = q.cores.length
  threads : ∀ (i : Nat) t c, s.threads[i]? = some t → q.cores[i]? = some c → Holds t c
  mem : s.mem = q.mem
  host : s.host = q.shared

section
variable {env : Env Unit (ρ × η)} {s : Harts ρ η} {q : Cores ρ η} {t : Thread Unit (ρ × η)}
  {c : Core ρ} {i : Nat}

theorem holds_at (hrel : Related s q) (hc : q.cores[i]? = some c) :
    ∃ t, s.threads[i]? = some t ∧ Holds t c := by
  obtain ⟨hi, -⟩ := List.getElem?_eq_some_iff.mp hc
  have ht := List.getElem?_eq_getElem (hrel.length ▸ hi)
  exact ⟨_, ht, hrel.threads i _ _ ht hc⟩

/-- A call that has just begun has counted nothing and starts where the hart is. -/
theorem enter_call (how_many : Int) (t : Thread Unit (ρ × η)) : ∃ l, (t.enter how_many).call = some l ∧
    (t.enter how_many).hart = t.hart ∧ l.pc = pcOf t ∧ t.hart.executed + l.insns = t.made := by
  unfold Thread.enter pcOf Thread.made
  cases hcall : t.call with
  | none => exact ⟨_, rfl, rfl, rfl, Int.add_zero _⟩
  | some l => exact ⟨l, hcall, rfl, rfl, rfl⟩

theorem shows_seen (hrel : Related s q) (h : Holds t c) : Shows (s.sees t).hart c.pc (q.view c) := by
  refine ⟨?_, ?_, h.zero⟩
  · show ArchState.mk t.hart.xpr c.pc s.mem = ⟨c.x, c.pc, q.mem⟩
    rw [h.xpr, hrel.mem]
  · show (t.hart.rest.1, s.host) = (c.own, q.shared)
    rw [h.own, hrel.host]

/-- What a thread is after a turn of its loop that goes on. -/
theorem iterate_next {l : Locals} (hcall : t.call = some l) {pc : Long} {h : Hart Unit (ρ × η)}
    (hit : iteration env l.insns l.pc t.hart = .next pc h) :
    ∃ t', t.iterate env = some t' ∧ pcOf t' = pc ∧ t'.hart.xpr = h.xpr ∧ t'.hart.mem = h.mem ∧
      t'.hart.rest = h.rest ∧ t'.made = h.executed + l.insns + 1 := by
  unfold Thread.iterate
  rw [hcall]
  dsimp only
  rw [hit]
  dsimp only
  by_cases hlt : l.insns + 1 < l.how_many
  · rw [if_pos hlt]
    refine ⟨_, rfl, rfl, rfl, rfl, rfl, ?_⟩
    show h.executed + (l.insns + 1) = _
    omega
  · rw [if_neg hlt]
    refine ⟨_, rfl, rfl, rfl, rfl, rfl, ?_⟩
    show h.executed + (l.insns + 1) = _
    omega

/-- What the thread at `i` has executed; one that is still to come has executed nothing. -/
def madeAt (s : Harts ρ η) (i : Nat) : Int :=
  match s.threads[i]? with
  | none => 0
  | some t => t.made

theorem madeAt_of (ht : s.threads[i]? = some t) : madeAt s i = t.made := by
  unfold madeAt
  rw [ht]

/-- What one thread has done is given back on both sides. -/
theorem related_put (hrel : Related s q) {t' : Thread Unit (ρ × η)} {q₁ : ArchState × (ρ × η)}
    (hholds : Holds t' ⟨q₁.1.x, q₁.1.pc, q₁.2.1⟩) (hmem : t'.hart.mem = q₁.1.mem)
    (hhost : t'.hart.rest.2 = q₁.2.2) :
    Related (s.put i t') (q.put i q₁) := by
  refine ⟨?_, ?_, hmem, hhost⟩
  · show (s.threads.set i t').length = (q.cores.set i _).length
    rw [List.length_set, List.length_set]
    exact hrel.length
  · intro j u d hu hd
    change (s.threads.set i t')[j]? = some u at hu
    change (q.cores.set i _)[j]? = some d at hd
    rw [List.getElem?_set] at hu hd
    by_cases hij : i = j
    · rw [if_pos hij] at hu hd
      split at hu
      case isFalse => cases hu
      case isTrue hlt =>
        rw [if_pos (hrel.length ▸ hlt)] at hd
        cases hu
        cases hd
        exact hholds
    · rw [if_neg hij] at hu hd
      exact hrel.threads j u d hu hd

theorem madeAt_put {t' : Thread Unit (ρ × η)} (ht : s.threads[i]? = some t)
    (hmade : t'.made = t.made + 1) (j : Nat) :
    madeAt (s.put i t') j = madeAt s j + if i = j then 1 else 0 := by
  obtain ⟨hlt, -⟩ := List.getElem?_eq_some_iff.mp ht
  by_cases hij : i = j
  · have ht' : (s.put i t').threads[i]? = some t' := List.getElem?_set_self hlt
    rw [if_pos hij, ← hij, madeAt_of ht, madeAt_of ht', hmade]
  · unfold madeAt Harts.put
    dsimp only
    rw [List.getElem?_set_ne hij, if_neg hij, Int.add_zero]

end

/-! ## A turn -/

section
variable {env : Env Unit (ρ × η)} {s : Harts ρ η} {q q' : Cores ρ η} {i : Nat} {c : Core ρ}
  {order : List FastOp} {tail : List Entry} {image : Mem} {base limit entry : Long} {e : Elsewhere (ρ × η)}
  (hlisted : ∀ op, (fastEntry op).isSome → op ∈ order)
  (ht : TextOf (rvcChain ++ fastChain order ++ tail) image base limit entry env.code)
  (hF : Faithful env (rvcChain ++ fastChain order ++ tail) e)
include hlisted ht hF

/-- An iteration of a thread is an instruction of its core. -/
theorem iterate_step (how_many : Int) (hrel : Related s q) (hc : q.cores[i]? = some c)
    (hC : Executable (rvcChain ++ fastChain order ++ tail) image base limit (q.view c).1)
    {q₁ : ArchState × (ρ × η)} (hstep : Riscv.Step e (q.view c) q₁) :
    ∃ s', s.iterate env how_many i = some s' ∧ Related s' (q.put i q₁) ∧
      ∀ j, madeAt s' j = madeAt s j + if i = j then 1 else 0 := by
  obtain ⟨t, hthread, hholds⟩ := holds_at hrel hc
  obtain ⟨l, hcall, hhart, hpc, hmade⟩ := enter_call how_many (s.sees t)
  have hlpc : l.pc = c.pc := hpc.trans hholds.pc
  obtain ⟨h', hit, hshows, hexec, -⟩ :=
    iteration_step hlisted ht hF hC (shows_seen hrel hholds) hstep l.insns
  have hit' : iteration env l.insns l.pc ((s.sees t).enter how_many).hart = .next q₁.1.pc h' := by
    rw [hhart, hlpc]
    exact hit
  obtain ⟨t', hturn, hpc', hxpr, hmem, hrest, hmade'⟩ := iterate_next hcall hit'
  have hrun : s.iterate env how_many i = some (s.put i t') := by
    unfold Harts.iterate
    rw [hthread, Option.bind_some, hturn, Option.map_some]
  have hend : h'.xpr = q₁.1.x := congrArg ArchState.x hshows.arch
  refine ⟨s.put i t', hrun, related_put hrel ⟨hxpr.trans hend, ?_, hpc', hshows.zero⟩ ?_ ?_, ?_⟩
  · rw [hrest, hshows.rest]
  · rw [hmem]
    exact congrArg ArchState.mem hshows.arch
  · rw [hrest, hshows.rest]
  · refine madeAt_put hthread ?_
    have hsame : (s.sees t).made = t.made := rfl
    omega

omit hlisted ht hF in
/-- The hart of a child is as the core that `clone` makes. -/
theorem holds_child {t : Thread Unit (ρ × η)} (hholds : Holds t c) :
    Holds (Process.child (s.sees t) (pcOf t) ()) c.child := by
  refine ⟨?_, hholds.own, congrArg (· + 4) hholds.pc, ?_⟩
  · funext r
    show Clone.started (Process.regsAt (s.sees t).hart (pcOf t)) (.xpr r) = _
    unfold Clone.started Core.child
    rw [Function.update_of_ne (fun h => by cases h)]
    simp only [Function.update_apply, Clone.Word.xpr.injEq]
    show (if r = 10 then 0 else if r = 4 then t.hart.xpr 13 else if r = 2 then t.hart.xpr 11
      else t.hart.xpr r) = _
    rw [hholds.xpr]
  · show Function.update (Function.update (Function.update c.x 2 (c.x 11)) 4 (c.x 13)) 10 0 0 = 0
    rw [Function.update_of_ne (by decide), Function.update_of_ne (by decide),
      Function.update_of_ne (by decide)]
    exact hholds.zero

omit hlisted ht hF in
/-- A child that is as its core is added on both sides. -/
theorem related_clone (hrel : Related s q) {u : Thread Unit (ρ × η)} {d : Core ρ} (hchild : Holds u d) :
    Related { s with threads := s.threads ++ [u] } { q with cores := q.cores ++ [d] } := by
  have hlen := hrel.length
  refine ⟨?_, ?_, hrel.mem, hrel.host⟩
  · show (s.threads ++ [u]).length = (q.cores ++ [d]).length
    rw [List.length_append, List.length_append, hlen]
    rfl
  · intro j v b hv hb
    change (s.threads ++ [u])[j]? = some v at hv
    change (q.cores ++ [d])[j]? = some b at hb
    rw [List.getElem?_append] at hv hb
    by_cases hj : j < s.threads.length
    · rw [if_pos hj] at hv
      rw [if_pos (hlen ▸ hj)] at hb
      exact hrel.threads j v b hv hb
    · rw [if_neg hj] at hv
      rw [if_neg (hlen ▸ hj)] at hb
      obtain rfl := List.mem_singleton.mp (List.mem_of_getElem? hv)
      obtain rfl := List.mem_singleton.mp (List.mem_of_getElem? hb)
      exact hchild

omit hlisted ht hF in
/-- A child has executed nothing. -/
theorem madeAt_clone (t : Thread Unit (ρ × η)) (pc : Long) (j : Nat) :
    madeAt { s with threads := s.threads ++ [Process.child t pc ()] } j = madeAt s j := by
  unfold madeAt
  dsimp only
  rw [List.getElem?_append]
  by_cases hj : j < s.threads.length
  · rw [if_pos hj]
  · rw [if_neg hj, List.getElem?_eq_none (not_lt.mp hj)]
    cases hchild : [Process.child t pc ()][j - s.threads.length]? with
    | none => rfl
    | some u =>
      obtain rfl := List.mem_singleton.mp (List.mem_of_getElem? hchild)
      rfl

omit hlisted hF in
/-- A thread is at a `clone` exactly if its core is: it is at an `ecall` with the number of `clone`
in a7. -/
theorem atClone_iff {t : Thread Unit (ρ × η)}
    (hclone : ∀ n, env.rv_to_host n = some Process.SYS_clone ↔ n = 220) (hholds : Holds t c)
    (hC : Executable (rvcChain ++ fastChain order ++ tail) image base limit (q.view c).1) :
    atClone env t = true ↔
      (decoder (rvcChain ++ fastChain order ++ tail) (q.view c).1.fetch).opcode = .fast .ecall ∧
      c.x 17 = 220 := by
  have hat : env.code.at (pcOf t)
      = some (decoder (rvcChain ++ fastChain order ++ tail) (q.view c).1.fetch) := by
    rw [hholds.pc]
    exact at_executable ht hC
  unfold atClone
  rw [hat]
  dsimp only
  rw [decide_eq_true_eq, hclone, hholds.xpr]
  exact and_congr_right fun _ => BitVec.toNat_inj (y := 220)

/-- **A turn.** -/
theorem turn_step (how_many : Int) (hclone : ∀ n, env.rv_to_host n = some Process.SYS_clone ↔ n = 220)
    (hrel : Related s q) {m : Move}
    (hturn : Turn e (Executable (rvcChain ++ fastChain order ++ tail) image base limit) q m q') :
    ∃ s', s.step env how_many m = some s' ∧ Related s' q' ∧
      ∀ j, madeAt s' j = madeAt s j + if m.core = j then 1 else 0 := by
  cases hturn with
  | @step i c q₁ hc hC hno hstep =>
    obtain ⟨t, hthread, hholds⟩ := holds_at hrel hc
    have hnot : ¬atClone env t = true := fun h => by
      obtain ⟨hop, hnumber⟩ := (atClone_iff ht hclone hholds hC).mp h
      exact hno ⟨fetch_of_ecall hlisted hF hholds.zero hstep hop, hnumber⟩
    obtain ⟨s', hrun, hrest⟩ := iterate_step hlisted ht hF how_many hrel hc hC hstep
    refine ⟨s', ?_, hrest⟩
    show s.stepped env how_many i = some s'
    unfold Harts.stepped
    rw [hthread, Option.bind_some, if_neg hnot]
    exact hrun
  | @clone i c q₁ hc hC henc hnumber hflags hstack hcall =>
    obtain ⟨t, hthread, hholds⟩ := holds_at hrel hc
    have hclones : atClone env t = true :=
      (atClone_iff ht hclone hholds hC).mpr ⟨decode_ecall hlisted tail henc, hnumber⟩
    have hrel' := related_clone hrel (holds_child (s := s) hholds)
    have hc' : (q.cores ++ [c.child])[i]? = some c := by
      rw [List.getElem?_append_left (List.getElem?_eq_some_iff.mp hc).1]
      exact hc
    obtain ⟨s', hrun, hrel'', hmade⟩ :=
      iterate_step hlisted ht hF how_many hrel' hc' hC (.ecall henc hcall)
    refine ⟨s', ?_, hrel'', fun j => ?_⟩
    · show s.clone env how_many i = some s'
      unfold Harts.clone
      rw [hthread, Option.bind_some, if_pos hclones]
      exact hrun
    · rw [hmade j, madeAt_clone]
      rfl

end

/-! ## A run -/

/-- **The harts are the cores.** On a loaded text, if the cores of the manual make these turns, in
whatever order, the threads of the process make the same iterations one for one and end with the
same registers, pcs and memory, and each has executed the instructions of its turns. -/
theorem harts_turns {env : Env Unit (ρ × η)} {s : Harts ρ η} {q q' : Cores ρ η} {order : List FastOp}
    {tail : List Entry} {image : Mem} {base limit entry : Long} {e : Elsewhere (ρ × η)}
    (hlisted : ∀ op, (fastEntry op).isSome → op ∈ order)
    (hload : loadelf (rvcChain ++ fastChain order ++ tail) image base limit entry = .text env.code)
    (hF : Faithful env (rvcChain ++ fastChain order ++ tail) e)
    (hclone : ∀ n, env.rv_to_host n = some Process.SYS_clone ↔ n = 220) (how_many : Int) (hrel : Related s q)
    {ms : List Move}
    (hturns : Turns e (Executable (rvcChain ++ fastChain order ++ tail) image base limit) ms q q') :
    ∃ s', Lib.run (fun s m => s.step env how_many m) ms s = some s' ∧ Related s' q' ∧
      ∀ j, madeAt s' j = madeAt s j + ms.countP fun m => m.core = j := by
  have ht := loadelf_textOf hload
  -- on the turns
  induction hturns generalizing s with
  | nil q => exact ⟨s, rfl, hrel, fun j => (Int.add_zero _).symm⟩
  | @cons m ms q q₁ q' hturn hrest ih =>
    obtain ⟨s₁, hstep, hrel₁, hmade⟩ := turn_step hlisted ht hF how_many hclone hrel hturn
    obtain ⟨s', hrun, hrel', hmade'⟩ := ih hrel₁
    refine ⟨s', ?_, hrel', fun j => ?_⟩
    · rw [Lib.run, hstep, Option.bind_some]
      exact hrun
    · rw [hmade' j, hmade j, List.countP_cons]
      by_cases hj : m.core = j
      · simp only [hj, if_pos, decide_true]
        push_cast
        ring
      · simp only [hj, decide_false]
        push_cast
        ring

/-! ### A process that makes a thread -/

/-- `ecall`, `c.addi a0,1` at 0x1000. -/
def forkMem : Mem := Mem.store (Mem.store (fun _ => 0) 0x1000 4 0x73#32) 0x1004 2 0x0505#16

def fork : InsnSpace :=
  ((emptyText 0x1000 0x1006 0x1000).set 0x1000 (decoder listedChain 0x73)).set 0x1004
    (decoder listedChain 0x505)

theorem loadelf_fork : loadelf listedChain forkMem 0x1000 0x1006 0x1000 = .text fork := by
  refine loadelf_plain (by decide) ?_ (by decide) (by decide)
  show predecode listedChain forkMem 0x1006 0x1000 _ = _
  rw [predecode, if_pos (by decide)]
  show predecode listedChain forkMem 0x1006 0x1004 _ = _
  rw [predecode, if_pos (by decide)]
  show predecode listedChain forkMem 0x1006 0x1006 _ = _
  rw [predecode, if_neg (by decide)]
  rfl

/-- The host tells the parent that its child is 7. -/
def forkElsewhere : Elsewhere (Unit × Unit) :=
  ⟨fun _ _ => none, fun q => if q.1.x 17 = 220 then some (q.1.wrote 10 7 4, q.2) else none⟩

def forkEnv : Env Unit (Unit × Unit) where
  code := fork
  mmu := mmu_t
  golden := fun _ => none
  HIGHEST_ECALL_NUM := 300
  rv_to_host := fun n => if n = 220 then some Process.SYS_clone else none
  proxy_syscall := fun _ h => .ok { h with xpr := Function.update h.xpr 10 7 }

/-- The environment of this text: the host answers `clone`, and nothing else is called. -/
theorem faithful_fork : Faithful forkEnv listedChain forkElsewhere := by
  refine ⟨rfl, fun _ _ _ h => (by cases h), ?_⟩
  intro q q' h insns hcall hshows
  change (if q.1.x 17 = 220 then some (q.1.wrote 10 7 4, q.2) else none) = some q' at hcall
  split at hcall
  case isFalse => cases hcall
  case isTrue hnumber =>
    cases hcall
    have hxpr : h.xpr = q.1.x := congrArg ArchState.x hshows.arch
    have h17 : h.xpr 17 = 220 := by rw [hxpr, hnumber]
    have hproxy : proxy_ecall forkEnv insns (h.write_pc q.1.pc) = .ok
        (({ ((h.write_pc q.1.pc).incr_count insns).setMachine (((h.write_pc q.1.pc).incr_count insns).log
            (.proxy_syscall Process.SYS_clone ((h.write_pc q.1.pc).incr_count insns).executed)) with
          xpr := Function.update h.xpr 10 7 } : Hart Unit (Unit × Unit)).incr_count (-insns)) := by
      unfold proxy_ecall
      dsimp only
      rw [show ((h.write_pc q.1.pc).incr_count insns).xpr 17 = 220 from h17]
      rfl
    have hmem : h.mem = q.1.mem := congrArg ArchState.mem hshows.arch
    have hzero : Function.update (Function.update q.1.x 10 7) 0 0
        = Function.update q.1.x 10 (7 : BitVec 64) :=
      Function.update_eq_self_iff.mpr hshows.zero.symm
    refine ⟨_, hproxy, ?_, hshows.rest, ?_, ?_⟩
    · show ArchState.mk (Function.update (Function.update h.xpr 10 7) 0 0) (q.1.pc + 4) h.mem = _
      rw [hxpr, hmem, hzero]
      rfl
    · show h.executed + insns + -insns = h.executed
      omega
    · show h.total_insns + insns + -insns = h.total_insns
      omega

/-- `clone(CLONE_VM | CLONE_SETTLS, 0x9000, ...)`. -/
def forkCore : Core Unit :=
  ⟨fun r => if r = 17 then 220 else if r = 10 then 0x80100 else if r = 11 then 0x9000 else 0, 0x1000, ()⟩

def forkThread : Thread Unit (Unit × Unit) :=
  ⟨⟨⟨forkCore.x, forkMem, ((), ()), (), []⟩, 0x1000, 0, 0⟩, none⟩

/-- The child goes first. -/
theorem harts_turns_fork : ∃ (s : Harts Unit Unit) (t u : Thread Unit (Unit × Unit)),
    Lib.run (fun (s : Harts Unit Unit) m => s.step forkEnv 1000000 m) [.clone 0, .step 1, .step 0]
      ⟨[forkThread], forkMem, (), 0⟩ = some s ∧
    s.threads = [t, u] ∧ t.hart.xpr 10 = 8 ∧ u.hart.xpr 10 = 1 ∧ u.hart.xpr 2 = 0x9000 ∧
    t.made = 2 ∧ u.made = 1 := by
  have hfirst : Start listedChain forkMem 0x1000 0x1006 0x1000 := Lib.Sweep.visits_self (by decide)
  have hsecond : Start listedChain forkMem 0x1000 0x1006 0x1004 := ⟨hfirst.next, by decide⟩
  have hC₀ : Executable listedChain forkMem 0x1000 0x1006 ⟨forkCore.x, 0x1000, forkMem⟩ := by
    have hword : (ArchState.mk forkCore.x 0x1000 forkMem).fetch = 0x73 := by decide
    have hplain : PlainWord (ArchState.mk forkCore.x 0x1000 forkMem).fetch := by
      rw [hword]
      exact plainWord_of (by decide) (by decide) (by decide)
    exact executable_of_plainWord hfirst rfl hplain
  have hword (x) : (ArchState.mk x 0x1004 forkMem).fetch = 0x505 :=
    show (ArchState.mk forkCore.x 0x1004 forkMem).fetch = 0x505 by decide
  have hC₁ (x) : Executable listedChain forkMem 0x1000 0x1006 ⟨x, 0x1004, forkMem⟩ := by
    refine executable_of_plainWord hsecond rfl ?_
    rw [hword]
    exact plainWord_of (by decide) (by decide) (by decide)
  have hno (x) : ¬((ArchState.mk x 0x1004 forkMem).fetch = 0x73 ∧ x 17 = 220) := by
    rw [hword]
    exact fun h => absurd h.1 (by decide)
  have hadd (x) : Riscv.Step forkElsewhere (⟨x, 0x1004, forkMem⟩, ((), ()))
      (ArchState.wrote ⟨x, 0x1004, forkMem⟩ 10 (x 10 + 1) 2, ((), ())) := by
    have hlegal : Riscv.Legal (Riscv.half (ArchState.mk x 0x1004 forkMem).fetch) .c_addi := by
      rw [hword]
      exact ⟨by decide, by decide⟩
    exact .compressed hlegal (by rw [hword]; rfl)
  let x₁ := Riscv.setX forkCore.x 10 7
  have hturns : Turns forkElsewhere (Executable listedChain forkMem 0x1000 0x1006)
      [.clone 0, .step 1, .step 0] ⟨[forkCore], forkMem, ()⟩
      ⟨[⟨Riscv.setX x₁ 10 (x₁ 10 + 1), 0x1006, ()⟩,
        ⟨Riscv.setX forkCore.child.x 10 (forkCore.child.x 10 + 1), 0x1006, ()⟩], forkMem, ()⟩ :=
    .cons (.clone (c := forkCore) rfl hC₀ (by decide) rfl (by decide) (by decide) rfl)
      (.cons (.step (c := forkCore.child) rfl (hC₁ _) (hno _) (hadd _))
        (.cons (.step (c := ⟨x₁, 0x1004, ()⟩) rfl (hC₁ _) (hno _) (hadd _)) (.nil _)))
  have hchain : listedChain = rvcChain ++ fastChain listedFast ++ lrscRest := (List.append_assoc _ _ _).symm
  have hload := loadelf_fork
  have hF := faithful_fork
  rw [hchain] at hload hF hturns
  have hrel : Related ⟨[forkThread], forkMem, (), 0⟩ (⟨[forkCore], forkMem, ()⟩ : Cores Unit Unit) := by
    refine ⟨rfl, ?_, rfl, rfl⟩
    intro i t c ht hc
    obtain rfl := List.mem_singleton.mp (List.mem_of_getElem? ht)
    obtain rfl := List.mem_singleton.mp (List.mem_of_getElem? hc)
    exact ⟨rfl, rfl, rfl, rfl⟩
  have hclone (n : Nat) : forkEnv.rv_to_host n = some Process.SYS_clone ↔ n = 220 := by
    show (if n = 220 then some Process.SYS_clone else none) = _ ↔ _
    simp
  obtain ⟨s, hrun, hend, hmade⟩ := harts_turns (fun _ => mem_listedFast) hload hF hclone 1000000 hrel hturns
  obtain ⟨t, u, hthreads⟩ := List.length_eq_two.mp hend.length
  have ht : s.threads[0]? = some t := by rw [hthreads]; rfl
  have hu : s.threads[1]? = some u := by rw [hthreads]; rfl
  have hparent := hend.threads 0 t _ ht rfl
  have hchild := hend.threads 1 u _ hu rfl
  refine ⟨s, t, u, hrun, hthreads, ?_, ?_, ?_, ?_, ?_⟩
  · rw [hparent.xpr]
    rfl
  · rw [hchild.xpr]
    rfl
  · rw [hchild.xpr]
    rfl
  · rw [← madeAt_of ht, hmade 0]
    rfl
  · rw [← madeAt_of hu, hmade 1]
    rfl

end Harts

end Cavatools.Uspike
