import Cavatools.Uspike.Keeps

/-!
# Register 0 within an iteration

A fast action writes its destination as it would any word of an array, so
between the write and the `xpr[0] = 0` behind the switch register 0 can hold
anything. The question is whether a hart can be seen in between, by a fault
that jumps out of the iteration.

No action fails in between: one that fails does so before its write. `Ends`
says how an action that starts with 0 in register 0 can end; `Holds` is an
action that does not write it at all, and `Faults` one that may write it, but
only behind everything that can fail. Reads, loads, stores and the models hold
(`holds_readX` to `holds_fetch`); a write of a register is the last thing that
can fail (`faults_writeX`), and so a line, which has its write at its end,
faults in this sense whatever it computes (`faults_line`). A jump that links
passes the jump to the model before the link is written, and `cas` uses
`write_reg`, which ignores register 0. Through the form of lines that is all
of RV.fast (`action_faults`).

So an iteration leaves 0 in register 0 however it ends: if it goes on, by its
own clearing (`iteration_next_zero`); if it throws, since nothing was written
(`iteration_trap_zero`); if it faults, by what is said above
(`iteration_crash_zero`). Of Spike's functions and of the kernel it is assumed
(`EnvZero`).
-/

namespace Cavatools.Uspike

variable {σ τ α β : Type}

/-- With 0 in register 0 an action ends with `Q`, or fails with 0 in register 0. -/
def Ends (Q : Machine σ τ → Prop) (act : Act σ τ α) : Prop :=
  ∀ m, m.xpr 0 = 0 →
    match act m with
    | .ok (_, m') => Q m'
    | .error m' => m'.xpr 0 = 0

/-- It does not write register 0. -/
abbrev Holds (act : Act σ τ α) : Prop := Ends (fun m => m.xpr 0 = 0) act

/-- It does not fail behind a write of register 0. -/
abbrev Faults (act : Act σ τ α) : Prop := Ends (fun _ => True) act

/-! ## The steps of an action -/

/-- An action that holds, and then another one. -/
theorem ends_bind {Q : Machine σ τ → Prop} {x : Act σ τ α} {f : α → Act σ τ β} (hx : Holds x)
    (hf : ∀ a, Ends Q (f a)) : Ends Q (x >>= f) := by
  intro m hm
  have hxm := hx m hm
  change match (x m).bind (fun p => f p.1 p.2) with
    | .ok (_, m') => Q m'
    | .error m' => m'.xpr 0 = 0
  cases hrun : x m with
  | error e =>
    rw [hrun] at hxm
    exact hxm
  | ok p =>
    rw [hrun] at hxm
    exact hf p.1 p.2 hxm

theorem holds_pure (a : α) : Holds (pure a : Act σ τ α) := fun _ hm => hm

theorem holds_crash : Holds (crash : Act σ τ α) := fun _ hm => hm

theorem faults_of_holds {act : Act σ τ α} (h : Holds act) : Faults act := by
  intro m hm
  have hact := h m hm
  cases hrun : act m with
  | error e =>
    rw [hrun] at hact
    exact hact
  | ok p => trivial

theorem holds_readX (r : BitVec 8) : Holds (readX r : Act σ τ Long) := by
  intro m hm
  unfold readX
  by_cases hr : r.toNat < 32
  · rw [if_pos hr]
    exact hm
  · rw [if_neg hr]
    exact hm

/-- A write of a register is the last thing that can fail. -/
theorem faults_writeX (r : BitVec 8) (v : Long) (a : α) :
    Faults (do writeX r v; pure a : Act σ τ α) := by
  intro m hm
  change match (writeX r v m).bind (fun p => (pure a : Act σ τ α) p.2) with
    | .ok (_, _) => True
    | .error m' => m'.xpr 0 = 0
  unfold writeX
  by_cases hr : r.toNat < 32
  · rw [if_pos hr]
    trivial
  · rw [if_neg hr]
    exact hm

/-- A register byte below 32 names register 0 only if it is 0. -/
theorem setWidth_eq_zero {r : BitVec 8} (hr : r.toNat < 32) (h : r.setWidth 5 = 0) : r = 0 := by
  have hnat := congrArg BitVec.toNat h
  rw [BitVec.toNat_setWidth, Nat.mod_eq_of_lt hr] at hnat
  exact BitVec.eq_of_toNat_eq hnat

/-- `write_reg` ignores register 0. -/
theorem holds_write_reg (r : BitVec 8) (v : Long) : Holds (write_reg r v : Act σ τ Unit) := by
  intro m hm
  unfold write_reg writeX
  by_cases h0 : r = 0
  · -- `cas` leaves register 0 out itself
    rw [if_pos h0]
    exact hm
  · rw [if_neg h0]
    by_cases hr : r.toNat < 32
    · rw [if_pos hr]
      have hne : (0 : BitVec 5) ≠ r.setWidth 5 := fun h => h0 (setWidth_eq_zero hr h.symm)
      exact (Function.update_of_ne hne _ _).trans hm
    · rw [if_neg hr]
      exact hm

theorem holds_get : Holds (get : Act σ τ (Machine σ τ)) := fun _ hm => hm

theorem holds_modify_mem (f : Machine σ τ → Riscv.Mem) :
    Holds (modify fun m => { m with mem := f m } : Act σ τ PUnit) := fun _ hm => hm

variable (mmu : Mmu σ)

theorem holds_insn_model (pc : Long) : Holds (insn_model mmu pc : Act σ τ Unit) := by
  intro m hm
  unfold insn_model
  dsimp only [Machine.log]
  cases mmu.insn_model pc m.mmu <;> exact hm

theorem holds_jump_model (npc pc : Long) : Holds (jump_model mmu npc pc : Act σ τ Long) := by
  intro m hm
  unfold jump_model
  dsimp only [Machine.log]
  cases mmu.jump_model npc pc m.mmu <;> exact hm

theorem holds_load_model (a pc : Long) : Holds (load_model mmu a pc : Act σ τ Long) := by
  intro m hm
  unfold load_model
  dsimp only [Machine.log]
  cases mmu.load_model a pc m.mmu <;> exact hm

theorem holds_store_model (a pc : Long) : Holds (store_model mmu a pc : Act σ τ Long) := by
  intro m hm
  unfold store_model
  dsimp only [Machine.log]
  cases mmu.store_model a pc m.mmu <;> exact hm

theorem holds_load_int (n : Nat) (a pc : Long) : Holds (load_int mmu n a pc : Act σ τ Long) :=
  ends_bind (holds_load_model mmu a pc) fun _ => ends_bind holds_get fun _ => holds_pure _

theorem holds_load_uint (n : Nat) (a pc : Long) : Holds (load_uint mmu n a pc : Act σ τ Long) :=
  ends_bind (holds_load_model mmu a pc) fun _ => ends_bind holds_get fun _ => holds_pure _

theorem holds_store_int (n : Nat) (a pc v : Long) : Holds (store_int mmu n a pc v : Act σ τ Unit) :=
  ends_bind (holds_store_model mmu a pc) fun _ => holds_modify_mem _

theorem holds_shl {w : Nat} (a : BitVec w) (n : Long) : Holds (shl a n : Act σ τ (BitVec w)) := by
  unfold shl
  split
  · exact holds_pure _
  · exact holds_crash

theorem holds_shr {w : Nat} (a : BitVec w) (n : Long) : Holds (shr a n : Act σ τ (BitVec w)) := by
  unfold shr
  split
  · exact holds_pure _
  · exact holds_crash

theorem holds_sar {w : Nat} (a : BitVec w) (n : Long) : Holds (sar a n : Act σ τ (BitVec w)) := by
  unfold sar
  split
  · exact holds_pure _
  · exact holds_crash

theorem holds_fetch (code : InsnSpace) (pc : Long) : Holds (fetch code pc : Act σ τ Insn) := by
  unfold fetch
  split
  · exact holds_pure _
  · exact holds_crash

/-! ## The shapes of the lines -/

variable (i : Insn) (pc : Long)

theorem holds_r1 : Holds (r1 i : Act σ τ Long) := holds_readX _

theorem holds_r2 : Holds (r2 i : Act σ τ Long) := holds_readX _

theorem faults_compute (len : Nat) {e : Act σ τ Long} (he : Holds e) : Faults (compute i pc len e) :=
  ends_bind he fun _ => faults_writeX _ _ _

theorem faults_store (len : Nat) {st : Long → Long → Long → Act σ τ Unit}
    (hst : ∀ a pc v, Holds (st a pc v)) : Faults (store i pc len st) :=
  ends_bind (holds_r1 i) fun _ => ends_bind (holds_r2 i) fun _ => ends_bind (hst _ _ _) fun _ =>
    faults_of_holds (holds_pure _)

theorem faults_branch (len : Nat) (c : Bool) : Faults (branch i pc mmu len c : Act σ τ Long) := by
  unfold branch
  split
  · exact faults_of_holds (holds_jump_model mmu _ _)
  · exact faults_of_holds (holds_pure _)

/-- The jump is passed to the model before the link is written. -/
theorem faults_link (len : Nat) (npc : Long) : Faults (link i pc mmu len npc : Act σ τ Long) :=
  ends_bind (holds_jump_model mmu _ _) fun _ => faults_writeX _ _ _

variable (code : InsnSpace)

theorem holds_cas (n : Nat) : Holds (cas pc code n : Act σ τ Bool) := by
  refine ends_bind (holds_fetch _ _) fun i => ends_bind (holds_readX _) fun ptr =>
    ends_bind (holds_readX _) fun expect => ends_bind (holds_readX _) fun replace =>
    ends_bind holds_get fun m => ?_
  dsimp only
  split
  case isTrue =>
    exact ends_bind (holds_modify_mem _) fun _ => ends_bind (holds_fetch _ _) fun _ =>
      ends_bind (holds_write_reg _ _) fun _ => ends_bind (holds_write_reg _ _) fun _ => holds_pure _
  case isFalse =>
    exact ends_bind (holds_fetch _ _) fun _ => ends_bind (holds_write_reg _ _) fun _ => holds_pure _

theorem holds_casLine (len n : Nat) : Holds (casLine pc mmu code len n : Act σ τ Long) := by
  refine ends_bind (holds_cas pc code n) ?_
  intro b
  split
  · exact ends_bind (holds_fetch _ _) fun _ => holds_jump_model mmu _ _
  · exact holds_pure _

/-! ## The switch -/

variable {mmu i pc code}

theorem holds_expr {x : Act σ τ α} (hx : Expr mmu α x) : Holds x := by
  induction hx with
  | pure a => exact holds_pure a
  | bind _ _ ihx ihf => exact ends_bind ihx ihf
  | readX r => exact holds_readX r
  | load_int n a pc => exact holds_load_int mmu n a pc
  | load_uint n a pc => exact holds_load_uint mmu n a pc
  | shl a n => exact holds_shl a n
  | shr a n => exact holds_shr a n
  | sar a n => exact holds_sar a n

/-- A line, by its form: the one write is at its end. -/
theorem faults_line {act : Act σ τ Long} (hact : Line i pc mmu code act) : Faults act := by
  induction hact with
  | bind hx _ ihf => exact ends_bind (holds_expr hx) ihf
  -- the write of the destination is last, and nothing behind it fails
  | compute len he => exact faults_compute i pc len (holds_expr he)
  | store len n =>
    refine faults_store i pc len ?_
    intro a pc v
    exact holds_store_int mmu n a pc v
  | jump npc => exact faults_of_holds (holds_jump_model mmu npc pc)
  | branch len c => exact faults_branch mmu i pc len c
  | link len npc => exact faults_link mmu i pc len npc
  | casLine len n => exact faults_of_holds (holds_casLine mmu pc code len n)

/-- **A fast action** that fails has not written register 0. -/
theorem action_faults {act : Act σ τ Long} (hact : i.opcode.action i pc mmu code = some act) :
    Faults act :=
  faults_line (action_line hact)

/-! ## An iteration -/

/-- What the code outside the repository does to register 0: nothing. One of Spike's
functions that fails has written through a register file that ignores it, and so has the
kernel's answer. -/
structure EnvZero (env : Env σ τ) : Prop where
  die : ∀ op f pc m m', env.golden op = some f → f pc m = .die m' → m.xpr 0 = 0 → m'.xpr 0 = 0
  proxy_syscall : ∀ sysnum h m, env.proxy_syscall sysnum h = .error (.crash m) → h.xpr 0 = 0 →
    m.xpr 0 = 0

variable {env : Env σ τ}

theorem insn_model_zero {pc : Long} {m m' : Machine σ τ} {u : Unit}
    (hmodel : insn_model env.mmu pc m = .ok (u, m')) (hm : m.xpr 0 = 0) : m'.xpr 0 = 0 := by
  have hends := holds_insn_model env.mmu pc m hm
  rw [hmodel] at hends
  exact hends

theorem clear_x0_xpr (h : Hart σ τ) : h.clear_x0.xpr 0 = 0 := by
  simp only [Hart.clear_x0, Function.update_self]

/-- The `xpr[0] = 0` behind the switch. -/
theorem iteration_next_zero {insns : Int} {pc pc' : Long} {h h' : Hart σ τ}
    (hstep : iteration env insns pc h = .next pc' h') : h'.xpr 0 = 0 := by
  unfold iteration at hstep
  split at hstep
  · cases hstep
  · split at hstep
    · cases hstep
    · unfold Step.clear_x0 at hstep
      split at hstep <;> cases hstep
      exact clear_x0_xpr _

/-- A throw jumps over it, before anything is written. -/
theorem iteration_trap_zero {insns : Int} {pc : Long} {h h' : Hart σ τ} (hzero : h.xpr 0 = 0)
    (hstep : iteration env insns pc h = .trap_breakpoint h') : h'.xpr 0 = 0 := by
  unfold iteration at hstep
  split at hstep
  · cases hstep
  next m hmodel =>
    split at hstep
    · cases hstep
    next i _ =>
      unfold Step.clear_x0 at hstep
      split at hstep <;> cases hstep
      next htrap =>
        obtain ⟨rfl, -, -⟩ := dispatch_trap.mp htrap
        exact insn_model_zero hmodel hzero

/-- An `ecall` that fails has not come to the kernel, or the kernel has left register 0 alone. -/
theorem proxy_ecall_crash_zero (hE : EnvZero env) {insns : Int} {h : Hart σ τ} {m : Machine σ τ}
    (hzero : h.xpr 0 = 0) (hcall : proxy_ecall env insns h = .error (.crash m)) : m.xpr 0 = 0 := by
  unfold proxy_ecall at hcall
  dsimp only at hcall
  split at hcall
  · cases hcall
    exact hzero
  · split at hcall
    · cases hcall
      exact hzero
    · split at hcall
      · cases hcall
        exact hzero
      · split at hcall
        next s hsys =>
          -- the host faults behind the call
          cases hcall
          exact hE.proxy_syscall _ _ _ hsys hzero
        next => cases hcall

/-- A fault in the middle. -/
theorem iteration_crash_zero (hE : EnvZero env) {insns : Int} {pc : Long} {h : Hart σ τ}
    {m : Machine σ τ} (hzero : h.xpr 0 = 0) (hstep : iteration env insns pc h = .stop (.crash m)) :
    m.xpr 0 = 0 := by
  unfold iteration at hstep
  have hmodel := holds_insn_model env.mmu pc h.toMachine hzero
  split at hstep
  next e herr =>
    -- in the instruction model
    cases hstep
    rw [herr] at hmodel
    exact hmodel
  next m₁ hok =>
    rw [hok] at hmodel
    split at hstep
    · cases hstep
      exact hmodel
    next i _ =>
      -- behind the fetch: in the kernel, in a line, or in one of Spike's functions
      unfold Step.clear_x0 at hstep
      split at hstep <;> cases hstep
      next hdispatch =>
        cases dispatch_cases env hdispatch with
        | ecall_stop _ hcall => exact proxy_ecall_crash_zero hE (by exact hmodel) hcall
        | fast_stop _ hact hrun =>
          have hfaults := action_faults hact m₁ hmodel
          rw [show (h.setMachine m₁).toMachine = m₁ from rfl] at hrun
          rw [hrun] at hfaults
          exact hfaults
        | null _ => exact hmodel
        | die hf hdie => exact hE.die _ _ pc _ m hf hdie hmodel

end Cavatools.Uspike
