import Cavatools.Uspike.Interpreter

/-!
# Batches and single steps

Normal mode calls `interpreter` for millions of instructions at a time, the
debugger for one. Both have to leave the same hart, although a batch keeps its
pc and its count in locals and writes them back only when it returns or when a
system call needs them.

Between two iterations, a batch that is `insns` instructions in holds in its
locals exactly what the single-stepping run has already written back. So the
two are related by `Hart.settle`, which writes the locals of a batch back.
Settling commutes with all that an instruction does to the registers and to
memory; the one place that looks at the written-back values is `proxy_ecall`,
which writes them back itself and takes them away again, so that inside of the
system call both runs show the same hart (`proxy_ecall_settle`).

`dispatch_settle` and `iteration_settle` have this for one iteration, and
`loop_eq_stepping` for the loop from any point of a batch, by induction on
what is left of it. The main result `interpreter_eq_stepping` is equality of
results: the hart with its counts and its list of events, the value that was
returned, and the way the process ends if it does. It assumes nothing of the
models, of Spike's functions or of the kernel, which are parameters.
-/

namespace Cavatools.Uspike

variable {σ τ : Type} (env : Env σ τ)

/-- Call `interpreter(1)` until `n` calls were made or one of them returned true. -/
def stepping : Nat → Hart σ τ → Outcome σ τ
  | 0, h => .returned false h
  | n + 1, h =>
    match interpreter env 1 h with
    | .returned true h => .returned true h
    | .returned false h => stepping n h
    | .stopped s => .stopped s

/-! ## Writing the locals back -/

def Hart.settle (pc : Long) (insns : Int) (h : Hart σ τ) : Hart σ τ :=
  (h.write_pc pc).incr_count insns

def Step.settle (pc : Long) (insns : Int) : Step σ τ → Step σ τ
  | .next pc' h => .next pc' (h.settle pc' insns)
  | .trap_breakpoint h => .trap_breakpoint (h.settle pc insns)
  | .stop s => .stop s

theorem incr_count_incr_count (h : Hart σ τ) (a b : Int) :
    (h.incr_count a).incr_count b = h.incr_count (a + b) := by
  simp only [Hart.incr_count, Hart.mk.injEq, true_and]
  omega

theorem incr_count_zero (h : Hart σ τ) : h.incr_count 0 = h := by
  simp only [Hart.incr_count, Int.add_zero]

theorem settle_add (h : Hart σ τ) (pc : Long) (a b : Int) :
    (h.settle pc a).incr_count b = h.settle pc (a + b) :=
  incr_count_incr_count _ a b

theorem settle_settle (h : Hart σ τ) (pc pc' : Long) (a b : Int) :
    (h.settle pc a).settle pc' b = h.settle pc' (a + b) :=
  incr_count_incr_count (h.write_pc pc') a b

theorem settle_toMachine (h : Hart σ τ) (pc : Long) (n : Int) :
    (h.settle pc n).toMachine = h.toMachine := rfl

theorem settle_setMachine (h : Hart σ τ) (m : Machine σ τ) (pc : Long) (n : Int) :
    (h.settle pc n).setMachine m = (h.setMachine m).settle pc n := rfl

theorem settle_clear_x0 (s : Step σ τ) (pc : Long) (n : Int) :
    s.clear_x0.settle pc n = (s.settle pc n).clear_x0 := by
  cases s <;> rfl

/-! ## One iteration -/

/-- Inside the system call of an `ecall`, both runs show the same hart. -/
theorem proxy_ecall_settle (insns : Int) (pc : Long) (h : Hart σ τ) :
    proxy_ecall env 0 ((h.settle pc insns).write_pc pc)
      = (proxy_ecall env insns (h.write_pc pc)).map (·.incr_count insns) := by
  have hin : ((h.settle pc insns).write_pc pc).incr_count 0 = (h.write_pc pc).incr_count insns :=
    incr_count_zero _
  simp only [proxy_ecall, hin]
  split
  · rfl
  split
  · rfl
  split
  · rfl
  split
  · rfl
  · rw [Except.map, incr_count_incr_count, Int.add_left_neg, Int.neg_zero]

/-- The switch on a settled hart, and settled afterwards. -/
theorem dispatch_settle (insns : Int) (i : Insn) (pc : Long) (h : Hart σ τ) :
    (dispatch env 0 i pc (h.settle pc insns)).settle pc 0
      = (dispatch env insns i pc h).settle pc insns := by
  have hback (h : Hart σ τ) (pc' : Long) : (h.settle pc insns).settle pc' 0 = h.settle pc' insns := by
    rw [settle_settle, Int.add_zero]
  unfold dispatch
  by_cases hecall : i.opcode = .fast .ecall
  · rw [if_pos hecall, if_pos hecall, proxy_ecall_settle]
    cases proxy_ecall env insns (h.write_pc pc) with
    | error s => rfl
    | ok h' =>
      have hret : (h'.incr_count insns).settle (pc + 4) 0 = h'.settle (pc + 4) insns :=
        hback (h'.write_pc pc) (pc + 4)
      exact congrArg (Step.next (pc + 4)) hret
  · rw [if_neg hecall, if_neg hecall]
    cases i.opcode.action i pc env.mmu env.code with
    | some act =>
      dsimp only [settle_toMachine]
      cases act h.toMachine with
      | error m => rfl
      | ok r => exact congrArg (Step.next r.1) (hback (h.setMachine r.2) r.1)
    | none =>
      cases env.golden i.opcode with
      | none => rfl
      | some f =>
        dsimp only [settle_toMachine]
        cases f pc h.toMachine with
        | next pc' m => exact congrArg (Step.next pc') (hback (h.setMachine m) pc')
        | trap_breakpoint => exact congrArg Step.trap_breakpoint (hback h pc)
        | die m => rfl

/-- **One iteration** sees the same machine in both runs, and what it leaves
settles to the same hart. -/
theorem iteration_settle (insns : Int) (pc : Long) (h : Hart σ τ) :
    (iteration env 0 pc (h.settle pc insns)).settle pc 0
      = (iteration env insns pc h).settle pc insns := by
  unfold iteration
  rw [settle_toMachine]
  cases insn_model env.mmu pc h.toMachine with
  | error m => rfl
  | ok r =>
    obtain ⟨-, m⟩ := r
    cases env.code.at pc with
    | none => rfl
    | some i =>
      dsimp only
      rw [settle_setMachine, settle_clear_x0, settle_clear_x0, dispatch_settle]

/-! ## The loop -/

/-- What a call of `interpreter(1)` returns, by the step it took. -/
theorem interpreter_one (h : Hart σ τ) :
    interpreter env 1 h = match iteration env 0 h.pc h with
      | .stop s => .stopped s
      | .trap_breakpoint h' => .returned true (h'.settle h.pc 0)
      | .next pc h' => .returned false (h'.settle pc 1) := by
  unfold interpreter loop
  cases iteration env 0 h.pc h with
  | next pc h' => exact if_neg (by omega)
  | trap_breakpoint h' => rfl
  | stop s => rfl

/-- The same from the middle of a batch. -/
theorem interpreter_one_settle (insns : Int) (pc : Long) (h : Hart σ τ) :
    interpreter env 1 (h.settle pc insns) = match iteration env insns pc h with
      | .stop s => .stopped s
      | .trap_breakpoint h' => .returned true (h'.settle pc insns)
      | .next pc' h' => .returned false (h'.settle pc' (insns + 1)) := by
  have hstep := iteration_settle env insns pc h
  rw [interpreter_one, show (h.settle pc insns).pc = pc from rfl]
  cases hs : iteration env 0 pc (h.settle pc insns) <;> cases hb : iteration env insns pc h <;>
    rw [hs, hb] at hstep <;> simp only [Step.settle, reduceCtorEq, Step.next.injEq,
      Step.trap_breakpoint.injEq, Step.stop.injEq] at hstep ⊢
  case next.next pc₁ h₁ pc₂ h₂ =>
    obtain ⟨rfl, heq⟩ := hstep
    rw [← Int.zero_add 1, ← settle_add, heq, settle_add, Int.zero_add]
  case trap_breakpoint.trap_breakpoint h₁ h₂ =>
    exact congrArg (Outcome.returned true) hstep
  case stop.stop s₁ s₂ =>
    exact congrArg Outcome.stopped hstep

/-- The loop from any point of a batch, against single steps from the hart that
its locals settle to; `n + 1` is what is left of the batch. -/
theorem loop_eq_stepping (n : Nat) (insns : Int) (pc : Long) (h : Hart σ τ) :
    loop env (insns + (n + 1 : Nat)) insns pc h = stepping env (n + 1) (h.settle pc insns) := by
  induction n generalizing insns pc h with
  | zero =>
    unfold stepping
    rw [interpreter_one_settle, loop]
    cases iteration env insns pc h with
    | next pc' h' =>
      dsimp only
      rw [if_neg (by omega), stepping]
      rfl
    | trap_breakpoint h' => rfl
    | stop s => rfl
  | succ n ih =>
    unfold stepping
    rw [interpreter_one_settle, loop]
    cases iteration env insns pc h with
    | next pc' h' =>
      dsimp only
      rw [if_pos (by omega), ← ih]
      congr 1
      omega
    | trap_breakpoint h' => rfl
    | stop s => rfl

/-- **A batch is its single steps.** For every text, hart and `k ≥ 1`, the call
`interpreter(k)` ends like `k` calls of `interpreter(1)` that stop at the first
to return true: the same bool, registers, pc, memory and counts, the same calls
of the timing model and the same `executed()` inside every system call (the
`trace`), and the same end when the process does not survive. -/
theorem interpreter_eq_stepping (k : Int) (hk : 1 ≤ k) (h : Hart σ τ) :
    interpreter env k h = stepping env k.toNat h := by
  have hloop := loop_eq_stepping env (k.toNat - 1) 0 h.pc h
  have hsettle : h.settle h.pc 0 = h := incr_count_zero h
  rw [show k.toNat - 1 + 1 = k.toNat by omega, show 0 + (k.toNat : Int) = k by omega, hsettle] at hloop
  exact hloop

/-- Two `ecall`s in a row, under a kernel that returns at once. -/
def twoEcalls : Env Unit Unit where
  code := ⟨0x1000, 0x1008, 0x1000,
    [.ofCode (.fast .ecall), .ofCode .ZERO, .ofCode (.fast .ecall), .ofCode .ZERO]⟩
  mmu := mmu_t
  golden _ := none
  HIGHEST_ECALL_NUM := 0
  rv_to_host _ := some 0
  proxy_syscall _ h := .ok h

/-- The hart before any program has run, at `pc`. -/
def freshHart (pc : Long) : Hart Unit Unit :=
  { xpr := fun _ => 0, mem := fun _ => 0, rest := (), mmu := (), trace := [], pc := pc,
    executed := 0, total_insns := 0 }

theorem interpreter_eq_stepping_twoEcalls :
    interpreter twoEcalls 2 (freshHart 0x1000) = stepping twoEcalls 2 (freshHart 0x1000) :=
  interpreter_eq_stepping twoEcalls 2 (by decide) (freshHart 0x1000)

end Cavatools.Uspike
