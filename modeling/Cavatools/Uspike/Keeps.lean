import Cavatools.Uspike.Interpreter
import Cavatools.Uspike.Line

/-!
# What an instruction can do to the memory model

A fast action reaches the state of the memory model only through `jump_model`,
`load_model`, `store_model` and `amo_model`. So whatever those four keep,
every action keeps, and with the same of Spike's functions and of the kernel
so does an iteration once its `insn_model` call is over.

`Admits` is a preorder on the states of a model that the four follow, and
`Keeps R act` says that an action which ends leaves the model in a state
related to the one it began in. The lemmas go through the combinators of the
actions, from `keeps_pure` and `keeps_bind` on, and then through the forms of
lines that there are (`keeps_line`), so no line of RV.fast is looked at by
itself: `action_keeps`.

The second half is about an iteration under an environment that keeps the
relation, too (`EnvKeeps`). It makes one `insn_model` call at its beginning
(`iteration_model`), and behind that one of three things happens. It goes on,
having done what the four other models can (`iteration_next`); it throws,
having done nothing else (`iteration_trap`); or the process is over. Whether
an instruction throws is a predicate of the descriptor and of Spike's function
on the machine before (`Throws`), which is how statements about runs can speak
of throws in the state before the step.
-/

namespace Cavatools.Uspike

variable {σ τ α β : Type}

/-- A preorder on the states of a model that the four data and jump models follow. -/
structure Admits (mmu : Mmu σ) (R : σ → σ → Prop) : Prop where
  refl : ∀ s, R s s
  trans : ∀ s t u, R s t → R t u → R s u
  jump_model : ∀ npc pc s a s', mmu.jump_model npc pc s = some (a, s') → R s s'
  load_model : ∀ a pc s b s', mmu.load_model a pc s = some (b, s') → R s s'
  store_model : ∀ a pc s b s', mmu.store_model a pc s = some (b, s') → R s s'
  amo_model : ∀ a pc s s', mmu.amo_model a pc s = some s' → R s s'

/-- An action that ends leaves the model in a state related to the one it began in. -/
def Keeps (R : σ → σ → Prop) (act : Act σ τ α) : Prop :=
  ∀ m a m', act m = .ok (a, m') → R m.mmu m'.mmu

section
variable {mmu : Mmu σ} {R : σ → σ → Prop} (hR : Admits mmu R)
include hR

/-! ## The steps of an action -/

theorem keeps_pure (a : α) : Keeps R (pure a : Act σ τ α) := by
  intro m b m' h
  cases h
  exact hR.refl _

/-- Two actions, one after the other. -/
theorem keeps_bind {x : Act σ τ α} {f : α → Act σ τ β} (hx : Keeps R x) (hf : ∀ a, Keeps R (f a)) :
    Keeps R (x >>= f) := by
  intro m b m' h
  have hrun : (x m).bind (fun p => f p.1 p.2) = .ok (b, m') := h
  cases hxm : x m with
  | error e =>
    rw [hxm] at hrun
    cases hrun
  | ok p =>
    obtain ⟨a, m₁⟩ := p
    rw [hxm] at hrun
    exact hR.trans _ _ _ (hx m a m₁ hxm) (hf a m₁ b m' hrun)

omit hR in
theorem keeps_crash : Keeps R (crash : Act σ τ α) := fun _ _ _ h => by cases h

theorem keeps_readX (r : BitVec 8) : Keeps R (readX r : Act σ τ Long) := by
  intro m a m' h
  unfold readX at h
  split at h <;> cases h
  exact hR.refl _

theorem keeps_writeX (r : BitVec 8) (v : Long) : Keeps R (writeX r v : Act σ τ Unit) := by
  intro m a m' h
  unfold writeX at h
  split at h <;> cases h
  exact hR.refl _

theorem keeps_write_reg (r : BitVec 8) (v : Long) : Keeps R (write_reg r v : Act σ τ Unit) := by
  intro m a m' h
  unfold write_reg at h
  split at h
  case isTrue =>
    cases h
    exact hR.refl _
  case isFalse => exact keeps_writeX hR r v m a m' h

theorem keeps_get : Keeps R (get : Act σ τ (Machine σ τ)) := by
  intro m a m' h
  cases h
  exact hR.refl _

theorem keeps_modify_mem (f : Machine σ τ → Riscv.Mem) :
    Keeps R (modify fun m => { m with mem := f m } : Act σ τ PUnit) := by
  intro m a m' h
  cases h
  exact hR.refl _

theorem keeps_jump_model (npc pc : Long) : Keeps R (jump_model mmu npc pc : Act σ τ Long) := by
  intro m a m' h
  rw [jump_model] at h
  split at h
  case h_1 b s hs =>
    cases h
    exact hR.jump_model npc pc _ _ s hs
  case h_2 => cases h

theorem keeps_load_model (a pc : Long) : Keeps R (load_model mmu a pc : Act σ τ Long) := by
  intro m b m' h
  rw [load_model] at h
  split at h
  case h_1 c s hs =>
    cases h
    exact hR.load_model a pc _ _ s hs
  case h_2 => cases h

theorem keeps_store_model (a pc : Long) : Keeps R (store_model mmu a pc : Act σ τ Long) := by
  intro m b m' h
  rw [store_model] at h
  split at h
  case h_1 c s hs =>
    cases h
    exact hR.store_model a pc _ _ s hs
  case h_2 => cases h

theorem keeps_load_int (n : Nat) (a pc : Long) : Keeps R (load_int mmu n a pc : Act σ τ Long) :=
  keeps_bind hR (keeps_load_model hR a pc) fun _ => keeps_bind hR (keeps_get hR) fun _ =>
    keeps_pure hR _

theorem keeps_load_uint (n : Nat) (a pc : Long) : Keeps R (load_uint mmu n a pc : Act σ τ Long) :=
  keeps_bind hR (keeps_load_model hR a pc) fun _ => keeps_bind hR (keeps_get hR) fun _ =>
    keeps_pure hR _

theorem keeps_store_int (n : Nat) (a pc v : Long) : Keeps R (store_int mmu n a pc v : Act σ τ Unit) :=
  keeps_bind hR (keeps_store_model hR a pc) fun _ => keeps_modify_mem hR _

theorem keeps_shl {w : Nat} (a : BitVec w) (n : Long) : Keeps R (shl a n : Act σ τ (BitVec w)) := by
  unfold shl
  split
  · exact keeps_pure hR _
  · exact keeps_crash

theorem keeps_shr {w : Nat} (a : BitVec w) (n : Long) : Keeps R (shr a n : Act σ τ (BitVec w)) := by
  unfold shr
  split
  · exact keeps_pure hR _
  · exact keeps_crash

theorem keeps_sar {w : Nat} (a : BitVec w) (n : Long) : Keeps R (sar a n : Act σ τ (BitVec w)) := by
  unfold sar
  split
  · exact keeps_pure hR _
  · exact keeps_crash

theorem keeps_fetch (code : InsnSpace) (pc : Long) : Keeps R (fetch code pc : Act σ τ Insn) := by
  unfold fetch
  split
  · exact keeps_pure hR _
  · exact keeps_crash

/-! ## The shapes of the lines -/

variable (i : Insn) (pc : Long)

theorem keeps_r1 : Keeps R (r1 i : Act σ τ Long) := keeps_readX hR _

theorem keeps_r2 : Keeps R (r2 i : Act σ τ Long) := keeps_readX hR _

theorem keeps_compute (len : Nat) {e : Act σ τ Long} (he : Keeps R e) : Keeps R (compute i pc len e) :=
  keeps_bind hR he fun _ => keeps_bind hR (keeps_writeX hR _ _) fun _ => keeps_pure hR _

theorem keeps_store (len : Nat) {st : Long → Long → Long → Act σ τ Unit}
    (hst : ∀ a pc v, Keeps R (st a pc v)) : Keeps R (store i pc len st) :=
  keeps_bind hR (keeps_r1 hR i) fun _ => keeps_bind hR (keeps_r2 hR i) fun _ =>
    keeps_bind hR (hst _ _ _) fun _ => keeps_pure hR _

theorem keeps_branch (len : Nat) (c : Bool) : Keeps R (branch i pc mmu len c : Act σ τ Long) := by
  unfold branch
  split
  · exact keeps_jump_model hR _ _
  · exact keeps_pure hR _

theorem keeps_link (len : Nat) (npc : Long) : Keeps R (link i pc mmu len npc : Act σ τ Long) :=
  keeps_bind hR (keeps_jump_model hR _ _) fun _ => keeps_bind hR (keeps_writeX hR _ _) fun _ =>
    keeps_pure hR _

variable (code : InsnSpace)

/-- `cas` goes to memory past the models. -/
theorem keeps_cas (n : Nat) : Keeps R (cas pc code n : Act σ τ Bool) := by
  refine keeps_bind hR (keeps_fetch hR _ _) fun i => keeps_bind hR (keeps_readX hR _) fun ptr =>
    keeps_bind hR (keeps_readX hR _) fun expect => keeps_bind hR (keeps_readX hR _) fun replace =>
    keeps_bind hR (keeps_get hR) fun m => ?_
  dsimp only
  -- the words match and are replaced, or they do not; no model is told either way
  split
  case isTrue =>
    exact keeps_bind hR (keeps_modify_mem hR _) fun _ => keeps_bind hR (keeps_fetch hR _ _) fun _ =>
      keeps_bind hR (keeps_write_reg hR _ _) fun _ => keeps_bind hR (keeps_write_reg hR _ _) fun _ =>
      keeps_pure hR _
  case isFalse =>
    exact keeps_bind hR (keeps_fetch hR _ _) fun _ => keeps_bind hR (keeps_write_reg hR _ _) fun _ =>
      keeps_pure hR _

theorem keeps_casLine (len n : Nat) : Keeps R (casLine pc mmu code len n : Act σ τ Long) := by
  refine keeps_bind hR (keeps_cas hR pc code n) ?_
  intro b
  split
  · exact keeps_bind hR (keeps_fetch hR _ _) fun _ => keeps_jump_model hR _ _
  · exact keeps_pure hR _

/-! ## The switch -/

variable {i pc code}

theorem keeps_expr {x : Act σ τ α} (hx : Expr mmu α x) : Keeps R x := by
  induction hx with
  | pure a => exact keeps_pure hR a
  | bind _ _ ihx ihf => exact keeps_bind hR ihx ihf
  | readX r => exact keeps_readX hR r
  | load_int n a pc => exact keeps_load_int hR n a pc
  | load_uint n a pc => exact keeps_load_uint hR n a pc
  | shl a n => exact keeps_shl hR a n
  | shr a n => exact keeps_shr hR a n
  | sar a n => exact keeps_sar hR a n

/-- A line, by its form. -/
theorem keeps_line {act : Act σ τ Long} (hact : Line i pc mmu code act) : Keeps R act := by
  induction hact with
  | bind hx _ ihf => exact keeps_bind hR (keeps_expr hR hx) ihf
  | compute len he => exact keeps_compute hR i pc len (keeps_expr hR he)
  | store len n =>
    refine keeps_store hR i pc len ?_
    intro a pc v
    exact keeps_store_int hR n a pc v
  | jump npc => exact keeps_jump_model hR npc pc
  | branch len c => exact keeps_branch hR i pc len c
  | link len npc => exact keeps_link hR i pc len npc
  | casLine len n => exact keeps_casLine hR pc code len n

/-- **A fast action** does to the model's state what its four models can. -/
theorem action_keeps {act : Act σ τ Long} (hact : i.opcode.action i pc mmu code = some act) :
    Keeps R act :=
  keeps_line hR (action_line hact)

end

/-! ## An iteration -/

/-- What the code outside the repository may do to the model: Spike's functions and the
kernel follow the same relation, and the kernel leaves the hart's count alone. -/
structure EnvKeeps (env : Env σ τ) (R : σ → σ → Prop) : Prop where
  admits : Admits env.mmu R
  golden : ∀ op f pc m pc' m', env.golden op = some f → f pc m = .next pc' m' → R m.mmu m'.mmu
  proxy_syscall : ∀ sysnum h h', env.proxy_syscall sysnum h = .ok h' →
    h'.executed = h.executed ∧ R h.mmu h'.mmu

/-- An `ecall` that returns is a system call, between two changes of the count. -/
theorem proxy_ecall_ok {env : Env σ τ} {insns : Int} {h h' : Hart σ τ}
    (hcall : proxy_ecall env insns h = .ok h') : ∃ sysnum m h₁,
      env.proxy_syscall sysnum ((h.incr_count insns).setMachine m) = .ok h₁ ∧ m.mmu = h.mmu ∧
        h' = h₁.incr_count (-insns) := by
  rw [proxy_ecall] at hcall
  split at hcall
  case isTrue => cases hcall
  case isFalse =>
    split at hcall
    case h_1 => cases hcall
    case h_2 sysnum _ =>
      split at hcall
      case isTrue => cases hcall
      case isFalse =>
        split at hcall
        case h_1 => cases hcall
        case h_2 h₁ hsys =>
          cases hcall
          exact ⟨sysnum, _, h₁, hsys, rfl, rfl⟩

section
variable {env : Env σ τ} {R : σ → σ → Prop} (hE : EnvKeeps env R)
include hE

theorem proxy_ecall_keeps {insns : Int} {h h' : Hart σ τ} (hcall : proxy_ecall env insns h = .ok h') :
    h'.executed = h.executed ∧ R h.mmu h'.mmu := by
  obtain ⟨sysnum, m, h₁, hsys, hm, rfl⟩ := proxy_ecall_ok hcall
  obtain ⟨hexec, hrel⟩ := hE.proxy_syscall sysnum _ h₁ hsys
  have hin : h₁.executed = h.executed + insns := hexec
  constructor
  · show h₁.executed + -insns = h.executed
    omega
  · rw [← hm]
    exact hrel

theorem dispatch_keeps {insns : Int} {i : Insn} {pc pc' : Long} {h h' : Hart σ τ}
    (hstep : dispatch env insns i pc h = .next pc' h') :
    h'.executed = h.executed ∧ R h.mmu h'.mmu := by
  cases dispatch_cases env hstep with
  | ecall _ hcall =>
    have hkeeps := proxy_ecall_keeps hE hcall
    exact hkeeps
  | fast _ hact hrun => exact ⟨rfl, action_keeps hE.admits hact _ _ _ hrun⟩
  | golden _ _ hf hrun => exact ⟨rfl, hE.golden _ _ pc _ _ _ hf hrun⟩

end

section
variable {env : Env σ τ}

/-- The switch leaves the instruction to Spike. -/
def Defaults (env : Env σ τ) (i : Insn) (pc : Long) : Prop :=
  i.opcode ≠ .fast .ecall ∧ (i.opcode.action i pc env.mmu env.code : Option (Act σ τ Long)) = none

/-- The instruction at `pc` goes to one of Spike's functions, and that throws. -/
def Throws (env : Env σ τ) (pc : Long) (h : Hart σ τ) : Prop :=
  ∃ m i f, insn_model env.mmu pc h.toMachine = .ok ((), m) ∧ env.code.at pc = some i ∧
    Defaults env i pc ∧ env.golden i.opcode = some f ∧ f pc m = .trap_breakpoint

/-- A throw leaves the hart as the `insn_model` call left it. -/
theorem dispatch_trap {insns : Int} {i : Insn} {pc : Long} {h h' : Hart σ τ} :
    dispatch env insns i pc h = .trap_breakpoint h' ↔
      h' = h ∧ Defaults env i pc ∧
        ∃ f, env.golden i.opcode = some f ∧ f pc h.toMachine = .trap_breakpoint := by
  constructor
  · intro hstep
    cases dispatch_cases env hstep with
    | trap_breakpoint hecall hact hf hrun => exact ⟨rfl, ⟨hecall, hact⟩, _, hf, hrun⟩
  · rintro ⟨rfl, ⟨hecall, hact⟩, f, hf, hrun⟩
    unfold dispatch
    rw [if_neg hecall, hact]
    dsimp only
    rw [hf]
    dsimp only
    rw [hrun]

/-- The `insn_model` call that every iteration begins with. -/
theorem iteration_model {insns : Int} {pc : Long} {h : Hart σ τ}
    (hgo : ∀ s, iteration env insns pc h ≠ .stop s) :
    ∃ m s i, insn_model env.mmu pc h.toMachine = .ok ((), m) ∧ env.mmu.insn_model pc h.mmu = some s ∧
      m.mmu = s ∧ env.code.at pc = some i ∧
      iteration env insns pc h = (dispatch env insns i pc (h.setMachine m)).clear_x0 := by
  cases hm : insn_model env.mmu pc h.toMachine with
  | error e =>
    -- a fault in the model ends the process
    refine absurd ?_ (hgo (.crash e))
    unfold iteration
    rw [hm]
  | ok p =>
    obtain ⟨⟨⟩, m⟩ := p
    cases hi : env.code.at pc with
    | none =>
      refine absurd ?_ (hgo (.crash m))
      unfold iteration
      rw [hm]
      dsimp only
      rw [hi]
    | some i =>
      have hrun := hm
      rw [insn_model] at hrun
      split at hrun
      case h_1 s hs =>
        cases hrun
        exact ⟨_, s, i, rfl, hs, rfl, rfl, iteration_eq env hm hi⟩
      case h_2 => cases hrun

/-- **An iteration that goes on** made one `insn_model` call, and then what the four other
models can. -/
theorem iteration_next {R : σ → σ → Prop} (hE : EnvKeeps env R) {insns : Int} {pc pc' : Long}
    {h h' : Hart σ τ} (hstep : iteration env insns pc h = .next pc' h') :
    ∃ s, env.mmu.insn_model pc h.mmu = some s ∧ h'.executed = h.executed ∧ R s h'.mmu := by
  obtain ⟨m, s, i, -, hmodel, hms, -, heq⟩ :=
    iteration_model (fun s => by rw [hstep]; simp)
  rw [hstep] at heq
  cases hd : dispatch env insns i pc (h.setMachine m) with
  | next pc₁ h₁ =>
    rw [hd] at heq
    obtain ⟨rfl, rfl⟩ := Step.next.inj heq
    obtain ⟨hexec, hrel⟩ := dispatch_keeps hE hd
    rw [show (h.setMachine m).mmu = s from hms] at hrel
    exact ⟨s, hmodel, hexec, hrel⟩
  | trap_breakpoint h₁ =>
    rw [hd] at heq
    cases heq
  | stop e =>
    rw [hd] at heq
    cases heq

/-- **An iteration that throws** made the call, and nothing else. -/
theorem iteration_trap {insns : Int} {pc : Long} {h h' : Hart σ τ}
    (hstep : iteration env insns pc h = .trap_breakpoint h') :
    Throws env pc h ∧ h'.executed = h.executed ∧ env.mmu.insn_model pc h.mmu = some h'.mmu := by
  obtain ⟨m, s, i, hm, hmodel, hms, hi, heq⟩ :=
    iteration_model (fun s => by rw [hstep]; simp)
  rw [hstep] at heq
  cases hd : dispatch env insns i pc (h.setMachine m) with
  | next pc₁ h₁ =>
    rw [hd] at heq
    cases heq
  | trap_breakpoint h₁ =>
    rw [hd] at heq
    obtain rfl := Step.trap_breakpoint.inj heq
    obtain ⟨rfl, hspike, f, hf, hthrow⟩ := dispatch_trap.mp hd
    exact ⟨⟨m, i, f, hm, hi, hspike, hf, hthrow⟩, rfl, by rw [hmodel, ← hms]; rfl⟩
  | stop e =>
    rw [hd] at heq
    cases heq

/-- An instruction that throws ends its iteration with what `insn_model` left. -/
theorem iteration_of_throws {insns : Int} {pc : Long} {h : Hart σ τ} (hthrows : Throws env pc h) :
    ∃ m, insn_model env.mmu pc h.toMachine = .ok ((), m) ∧
      iteration env insns pc h = .trap_breakpoint (h.setMachine m) := by
  obtain ⟨m, i, f, hm, hi, hspike, hf, hthrow⟩ := hthrows
  have hd : dispatch env insns i pc (h.setMachine m) = .trap_breakpoint (h.setMachine m) :=
    dispatch_trap.mpr ⟨rfl, hspike, f, hf, hthrow⟩
  refine ⟨m, hm, ?_⟩
  rw [iteration_eq env hm hi, hd]
  rfl

/-- An iteration that goes on did not throw. -/
theorem not_throws_of_next {insns : Int} {pc pc' : Long} {h h' : Hart σ τ}
    (hstep : iteration env insns pc h = .next pc' h') : ¬Throws env pc h := by
  intro hthrows
  obtain ⟨m, -, htrap⟩ := iteration_of_throws hthrows
  cases hstep.symm.trans htrap

end

end Cavatools.Uspike
