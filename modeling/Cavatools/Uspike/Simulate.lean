import Cavatools.Lib.Run
import Cavatools.Uspike.Access

/-!
# One program on two memory models

A simulator derives its class from `mmu_t` and the interpreter runs on that.
This file is about one program on two models: whatever the interpreter does on
the first it does on the second, to the same registers, memory and counts, and
it announces the same events in the same order.

`Follows` says of the models that whatever one does the other can do in a
related state, with the same address returned. It has two predicates on
events. The first one stands for what the second model asks of its caller: it
need hold only of the events that were announced. The second stands for what
is known of an event that the first model let pass. So a simulation can be
conditional on the events of the run, and tell something about them.

Spike's functions are outside the repository and could do anything with a
model. `Routine` says what they can do: look at the registers and memory,
change them, call the members of `mmu_t`, and die or return, one thing after
another. `World` is the program without a model, and `World.env` links it with
one.

`Sim` is the simulation of two actions; it is proved for each combinator of
the actions (`sim_bind`, `sim_ask` for a call of a model, and so on), then for
the shapes of lines, and with these for every line of RV.fast (`action_sim`)
and every routine (`sim_routine`). Behind it come the system call
(`proxy_ecall_sim`), the switch (`dispatch_sim`), an iteration that goes on or
throws (`iteration_sim`, `iteration_trap_sim`), a turn of the loop of one
thread among others (`iterate_sim`), and a run, in which the rest of the
process may do anything that keeps the models related (`run_sim`).
-/

namespace Cavatools.Uspike

variable {σ σ' τ α β : Type}

/-! ## What surrounds the interpreter, without a model -/

/-- What a function of Spike's does next: it is done, with the next pc; it dies; it looks at
the registers and the rest of `state_t`; it writes them; or it calls a member of `mmu_t`. -/
inductive Routine (τ : Type) : Type
  | next (npc : Long)
  | die
  | read (k : (BitVec 5 → Long) → τ → Routine τ)
  | write (xpr : BitVec 5 → Long) (rest : τ) (k : Routine τ)
  | jump_model (npc : Long) (k : Long → Routine τ)
  | load_int (n : Nat) (a : Long) (k : Long → Routine τ)
  | load_uint (n : Nat) (a : Long) (k : Long → Routine τ)
  | store_int (n : Nat) (a v : Long) (k : Routine τ)
  | amo_uint (n : Nat) (a : Long) (f : BitVec (8 * n) → BitVec (8 * n)) (k : BitVec (8 * n) → Routine τ)

/-- The function on a model. -/
def Routine.act (mmu : Mmu σ) (pc : Long) : Routine τ → Act σ τ Long
  | .next npc => return npc
  | .die => crash
  | .read k => do
    let m ← get
    (k m.xpr m.rest).act mmu pc
  | .write xpr rest k => do
    modify fun m => { m with xpr := xpr, rest := rest }
    k.act mmu pc
  | .jump_model npc k => do
    let a ← Uspike.jump_model mmu npc pc
    (k a).act mmu pc
  | .load_int n a k => do
    let v ← Uspike.load_int mmu n a pc
    (k v).act mmu pc
  | .load_uint n a k => do
    let v ← Uspike.load_uint mmu n a pc
    (k v).act mmu pc
  | .store_int n a v k => do
    Uspike.store_int mmu n a pc v
    k.act mmu pc
  | .amo_uint n a f k => do
    let v ← Uspike.amo_uint mmu n a pc f
    (k v).act mmu pc

/-- A function of Spike's: it throws `trap_breakpoint` at once, or runs. -/
inductive Spike (τ : Type) : Type
  | trap_breakpoint
  | run (r : Long → Routine τ)

def Spike.golden (mmu : Mmu σ) : Spike τ → Long → Machine σ τ → Golden σ τ
  | .trap_breakpoint, _, _ => .trap_breakpoint
  | .run r, pc, m =>
    match (r pc).act mmu pc m with
    | .ok (npc, m) => .next npc m
    | .error m => .die m

/-- A hart as a system call sees it. -/
structure Guest (τ : Type) where
  xpr : BitVec 5 → Long
  mem : Riscv.Mem
  rest : τ
  pc : Long
  executed : Int
  total_insns : Int

def Hart.guest (h : Hart σ τ) : Guest τ :=
  { xpr := h.xpr, mem := h.mem, rest := h.rest, pc := h.pc, executed := h.executed,
    total_insns := h.total_insns }

/-- The hart with the guest's part replaced; the model and the announced events stay. -/
def Hart.setGuest (h : Hart σ τ) (g : Guest τ) : Hart σ τ :=
  { h with xpr := g.xpr, mem := g.mem, rest := g.rest, pc := g.pc, executed := g.executed,
           total_insns := g.total_insns }

/-- The text, Spike's functions, the table of system call numbers and the kernel, which ends
the process where it has an error. -/
structure World (τ : Type) where
  code : InsnSpace
  golden : Opcode → Option (Spike τ)
  HIGHEST_ECALL_NUM : Int
  rv_to_host : Nat → Option Int
  proxy_syscall : Int → Guest τ → Except (Guest τ) (Guest τ)

/-- The program that is linked with a model. -/
def World.env (w : World τ) (mmu : Mmu σ) : Env σ τ where
  code := w.code
  mmu := mmu
  golden op := (w.golden op).map (Spike.golden mmu)
  HIGHEST_ECALL_NUM := w.HIGHEST_ECALL_NUM
  rv_to_host := w.rv_to_host
  proxy_syscall sysnum h :=
    match w.proxy_syscall sysnum h.guest with
    | .error g => .error (.exit (h.setGuest g))
    | .ok g => .ok (h.setGuest g)

/-! ## The relation -/

/-- At `pc`, each of the five models of `mmu'` does in a related state what that of `mmu`
did, for an event that meets `P`; and `Q` holds of what `mmu` did. -/
structure Follows (P Q : Event → Prop) (S : σ → σ' → Prop) (mmu : Mmu σ) (mmu' : Mmu σ') (pc : Long) :
    Prop where
  insn_model : ∀ s s₁, mmu.insn_model pc s = some s₁ → Q (.insn_model pc) ∧
    ∀ t, S s t → P (.insn_model pc) → ∃ t₁, mmu'.insn_model pc t = some t₁ ∧ S s₁ t₁
  jump_model : ∀ npc s a s₁, mmu.jump_model npc pc s = some (a, s₁) → Q (.jump_model npc pc) ∧
    ∀ t, S s t → P (.jump_model npc pc) → ∃ t₁, mmu'.jump_model npc pc t = some (a, t₁) ∧ S s₁ t₁
  load_model : ∀ b s a s₁, mmu.load_model b pc s = some (a, s₁) → Q (.load_model b pc) ∧
    ∀ t, S s t → P (.load_model b pc) → ∃ t₁, mmu'.load_model b pc t = some (a, t₁) ∧ S s₁ t₁
  store_model : ∀ b s a s₁, mmu.store_model b pc s = some (a, s₁) → Q (.store_model b pc) ∧
    ∀ t, S s t → P (.store_model b pc) → ∃ t₁, mmu'.store_model b pc t = some (a, t₁) ∧ S s₁ t₁
  amo_model : ∀ b s s₁, mmu.amo_model b pc s = some s₁ → Q (.amo_model b pc) ∧
    ∀ t, S s t → P (.amo_model b pc) → ∃ t₁, mmu'.amo_model b pc t = some t₁ ∧ S s₁ t₁

/-- Two machines with the same guest and the same events, on related models. -/
structure Alike (S : σ → σ' → Prop) (m : Machine σ τ) (m' : Machine σ' τ) : Prop where
  xpr : m'.xpr = m.xpr
  mem : m'.mem = m.mem
  rest : m'.rest = m.rest
  trace : m'.trace = m.trace
  mmu : S m.mmu m'.mmu

/-- Events were added, and `Q` holds of them. -/
def Grown (Q : Event → Prop) (l l' : List Event) : Prop := ∃ d, l' = d ++ l ∧ ∀ e ∈ d, Q e

theorem grown_refl {Q : Event → Prop} (l : List Event) : Grown Q l l := ⟨[], rfl, fun _ h => by cases h⟩

theorem grown_cons {Q : Event → Prop} {e : Event} (he : Q e) (l : List Event) : Grown Q l (e :: l) :=
  ⟨[e], rfl, fun e' h => by rwa [List.mem_singleton.mp h]⟩

theorem grown_trans {Q : Event → Prop} {l₁ l₂ l₃ : List Event} (h : Grown Q l₁ l₂) (h' : Grown Q l₂ l₃) :
    Grown Q l₁ l₃ := by
  obtain ⟨d, rfl, hd⟩ := h
  obtain ⟨d', rfl, hd'⟩ := h'
  refine ⟨d' ++ d, (List.append_assoc _ _ _).symm, fun e he => ?_⟩
  rcases List.mem_append.mp he with he | he
  · exact hd' e he
  · exact hd e he

theorem grown_subset {Q : Event → Prop} {l l' : List Event} (h : Grown Q l l') : l ⊆ l' := by
  obtain ⟨d, rfl, -⟩ := h
  exact List.subset_append_right _ _

/-- An action that ends on the first model has only added events, of which `Q` holds; if all
events meet `P` it ends on the second with the same value. -/
def Sim (P Q : Event → Prop) (S : σ → σ' → Prop) (x : Act σ τ α) (y : Act σ' τ α) : Prop :=
  ∀ m a m₁, x m = .ok (a, m₁) → Grown Q m.trace m₁.trace ∧
    ∀ m', Alike S m m' → (∀ e ∈ m₁.trace, P e) → ∃ m₁', y m' = .ok (a, m₁') ∧ Alike S m₁ m₁'

section
variable {P Q : Event → Prop} {S : σ → σ' → Prop}

/-! ## The steps of an action -/

theorem sim_pure (a : α) : Sim P Q S (pure a : Act σ τ α) (pure a) := by
  intro m b m₁ h
  cases h
  exact ⟨grown_refl _, fun m' hm _ => ⟨m', rfl, hm⟩⟩

theorem sim_bind {x : Act σ τ α} {y : Act σ' τ α} {f : α → Act σ τ β} {g : α → Act σ' τ β}
    (hx : Sim P Q S x y) (hf : ∀ a, Sim P Q S (f a) (g a)) : Sim P Q S (x >>= f) (y >>= g) := by
  intro m b m₂ h
  obtain ⟨a, m₁, hxm, hfm⟩ := bind_ok_inv h
  obtain ⟨hgrow, hsim⟩ := hx m a m₁ hxm
  obtain ⟨hgrow', hsim'⟩ := hf a m₁ b m₂ hfm
  refine ⟨grown_trans hgrow hgrow', fun m' hm hP => ?_⟩
  -- what the first part announced is still in the trace at the end
  obtain ⟨m₁', hy, hm₁⟩ := hsim m' hm fun e he => hP e (grown_subset hgrow' he)
  obtain ⟨m₂', hg, hm₂⟩ := hsim' m₁' hm₁ hP
  exact ⟨m₂', (bind_ok hy).trans hg, hm₂⟩

theorem sim_crash : Sim P Q S (crash : Act σ τ α) crash := fun _ _ _ h => by cases h

theorem sim_readX (r : BitVec 8) : Sim P Q S (readX r : Act σ τ Long) (readX r) := by
  intro m a m₁ h
  unfold readX at h
  split at h
  case isTrue hr =>
    cases h
    refine ⟨grown_refl _, fun m' hm _ => ⟨m', ?_, hm⟩⟩
    unfold readX
    rw [if_pos hr, hm.xpr]
  case isFalse => cases h

theorem sim_writeX (r : BitVec 8) (v : Long) : Sim P Q S (writeX r v : Act σ τ Unit) (writeX r v) := by
  intro m a m₁ h
  unfold writeX at h
  split at h
  case isTrue hr =>
    cases h
    refine ⟨grown_refl _, fun m' hm _ => ⟨_, if_pos hr, ?_⟩⟩
    exact ⟨by rw [hm.xpr], hm.mem, hm.rest, hm.trace, hm.mmu⟩
  case isFalse => cases h

/-- `write_reg`, which ignores register 0. -/
theorem sim_write_reg (r : BitVec 8) (v : Long) :
    Sim P Q S (write_reg r v : Act σ τ Unit) (write_reg r v) := by
  intro m a m₁ h
  unfold write_reg at h
  split at h
  case isTrue hr =>
    cases h
    exact ⟨grown_refl _, fun m' hm _ => ⟨m', if_pos hr, hm⟩⟩
  case isFalse hr =>
    obtain ⟨hgrow, hsim⟩ := sim_writeX r v m a m₁ h
    refine ⟨hgrow, fun m' hm hP => ?_⟩
    obtain ⟨m₁', hw, hm₁⟩ := hsim m' hm hP
    exact ⟨m₁', (if_neg hr).trans hw, hm₁⟩

/-- Looking at a part of the machine that two alike machines share. -/
theorem sim_get {γ : Type} (p : Machine σ τ → γ) (p' : Machine σ' τ → γ)
    (hp : ∀ m m', Alike S m m' → p' m' = p m) {f : γ → Act σ τ β} {g : γ → Act σ' τ β}
    (h : ∀ c, Sim P Q S (f c) (g c)) :
    Sim P Q S (get >>= fun m => f (p m)) (get >>= fun m => g (p' m)) := by
  intro m b m₁ hrun
  have hf : f (p m) m = .ok (b, m₁) := hrun
  obtain ⟨hgrow, hsim⟩ := h (p m) m b m₁ hf
  refine ⟨hgrow, fun m' hm hP => ?_⟩
  obtain ⟨m₁', hg, hm₁⟩ := hsim m' hm hP
  refine ⟨m₁', ?_, hm₁⟩
  show g (p' m') m' = _
  rw [hp m m' hm]
  exact hg

theorem sim_modify {f : Machine σ τ → Machine σ τ} {g : Machine σ' τ → Machine σ' τ}
    (htrace : ∀ m, (f m).trace = m.trace) (h : ∀ m m', Alike S m m' → Alike S (f m) (g m')) :
    Sim P Q S (modify f : Act σ τ PUnit) (modify g) := by
  intro m a m₁ hrun
  cases hrun
  exact ⟨(htrace m).symm ▸ grown_refl _, fun m' hm _ => ⟨g m', rfl, h m m' hm⟩⟩

theorem sim_modify_mem (f : Riscv.Mem → Riscv.Mem) :
    Sim P Q S (modify fun m => { m with mem := f m.mem } : Act σ τ PUnit)
      (modify fun m => { m with mem := f m.mem }) :=
  sim_modify (fun _ => rfl) fun _ _ hm =>
    ⟨hm.xpr, congrArg f hm.mem, hm.rest, hm.trace, hm.mmu⟩

theorem sim_shl {w : Nat} (a : BitVec w) (n : Long) :
    Sim P Q S (shl a n : Act σ τ (BitVec w)) (shl a n) := by
  unfold shl
  split
  · exact sim_pure _
  · exact sim_crash

theorem sim_shr {w : Nat} (a : BitVec w) (n : Long) :
    Sim P Q S (shr a n : Act σ τ (BitVec w)) (shr a n) := by
  unfold shr
  split
  · exact sim_pure _
  · exact sim_crash

theorem sim_sar {w : Nat} (a : BitVec w) (n : Long) :
    Sim P Q S (sar a n : Act σ τ (BitVec w)) (sar a n) := by
  unfold sar
  split
  · exact sim_pure _
  · exact sim_crash

theorem sim_fetch (code : InsnSpace) (pc : Long) :
    Sim P Q S (fetch code pc : Act σ τ Insn) (fetch code pc) := by
  unfold fetch
  split
  · exact sim_pure _
  · exact sim_crash

/-! ## The models -/

/-- A call of one of the models: an event, and then its answer. -/
def ask (e : Event) (f : σ → Option (α × σ)) : Act σ τ α := fun m =>
  let m := m.log e
  match f m.mmu with
  | some (a, s) => .ok (a, { m with mmu := s })
  | none => .error m

/-- A call of a model: the event is announced on both sides, and the answers are the same. -/
theorem sim_ask {e : Event} {f : σ → Option (α × σ)} {g : σ' → Option (α × σ')}
    (h : ∀ s a s₁, f s = some (a, s₁) → Q e ∧
      ∀ t, S s t → P e → ∃ t₁, g t = some (a, t₁) ∧ S s₁ t₁) :
    Sim P Q S (ask e f : Act σ τ α) (ask e g) := by
  intro m a m₁ hrun
  unfold ask at hrun
  dsimp only [Machine.log] at hrun
  split at hrun
  case h_1 b s hs =>
    cases hrun
    obtain ⟨hQ, hgo⟩ := h _ _ _ hs
    refine ⟨grown_cons hQ _, fun m' hm hP => ?_⟩
    obtain ⟨t, ht, hst⟩ := hgo _ hm.mmu (hP e List.mem_cons_self)
    refine ⟨{ m'.log e with mmu := t }, ?_, hm.xpr, hm.mem, hm.rest, congrArg (e :: ·) hm.trace, hst⟩
    unfold ask
    dsimp only [Machine.log]
    rw [ht]
  case h_2 => cases hrun

theorem insn_model_ask (mmu : Mmu σ) (pc : Long) : (insn_model mmu pc : Act σ τ Unit)
    = ask (.insn_model pc) fun s => (mmu.insn_model pc s).map fun s => ((), s) := by
  funext m
  unfold insn_model ask
  dsimp only [Machine.log]
  cases mmu.insn_model pc m.mmu <;> rfl

theorem jump_model_ask (mmu : Mmu σ) (npc pc : Long) :
    (jump_model mmu npc pc : Act σ τ Long) = ask (.jump_model npc pc) (mmu.jump_model npc pc) := by
  funext m
  unfold jump_model ask
  dsimp only [Machine.log]
  cases mmu.jump_model npc pc m.mmu <;> rfl

theorem load_model_ask (mmu : Mmu σ) (a pc : Long) :
    (load_model mmu a pc : Act σ τ Long) = ask (.load_model a pc) (mmu.load_model a pc) := by
  funext m
  unfold load_model ask
  dsimp only [Machine.log]
  cases mmu.load_model a pc m.mmu <;> rfl

theorem store_model_ask (mmu : Mmu σ) (a pc : Long) :
    (store_model mmu a pc : Act σ τ Long) = ask (.store_model a pc) (mmu.store_model a pc) := by
  funext m
  unfold store_model ask
  dsimp only [Machine.log]
  cases mmu.store_model a pc m.mmu <;> rfl

theorem amo_model_ask (mmu : Mmu σ) (a pc : Long) : (amo_model mmu a pc : Act σ τ Unit)
    = ask (.amo_model a pc) fun s => (mmu.amo_model a pc s).map fun s => ((), s) := by
  funext m
  unfold amo_model ask
  dsimp only [Machine.log]
  cases mmu.amo_model a pc m.mmu <;> rfl

variable {mmu : Mmu σ} {mmu' : Mmu σ'} {pc : Long} (hF : Follows P Q S mmu mmu' pc)
include hF

theorem sim_insn_model :
    Sim P Q S (insn_model mmu pc : Act σ τ Unit) (insn_model mmu' pc) := by
  rw [insn_model_ask, insn_model_ask]
  refine sim_ask fun s a s₁ hs => ?_
  obtain ⟨s₂, hs₂, heq⟩ := Option.map_eq_some_iff.mp hs
  cases heq
  obtain ⟨hQ, hgo⟩ := hF.insn_model s s₁ hs₂
  refine ⟨hQ, fun t hst hP => ?_⟩
  obtain ⟨t₁, ht₁, hst₁⟩ := hgo t hst hP
  exact ⟨t₁, by rw [ht₁]; rfl, hst₁⟩

theorem sim_jump_model (npc : Long) :
    Sim P Q S (jump_model mmu npc pc : Act σ τ Long) (jump_model mmu' npc pc) := by
  rw [jump_model_ask, jump_model_ask]
  exact sim_ask (hF.jump_model npc)

theorem sim_load_model (b : Long) :
    Sim P Q S (load_model mmu b pc : Act σ τ Long) (load_model mmu' b pc) := by
  rw [load_model_ask, load_model_ask]
  exact sim_ask (hF.load_model b)

theorem sim_store_model (b : Long) :
    Sim P Q S (store_model mmu b pc : Act σ τ Long) (store_model mmu' b pc) := by
  rw [store_model_ask, store_model_ask]
  exact sim_ask (hF.store_model b)

theorem sim_amo_model (b : Long) :
    Sim P Q S (amo_model mmu b pc : Act σ τ Unit) (amo_model mmu' b pc) := by
  rw [amo_model_ask, amo_model_ask]
  refine sim_ask fun s a s₁ hs => ?_
  obtain ⟨s₂, hs₂, heq⟩ := Option.map_eq_some_iff.mp hs
  cases heq
  obtain ⟨hQ, hgo⟩ := hF.amo_model b s s₁ hs₂
  refine ⟨hQ, fun t hst hP => ?_⟩
  obtain ⟨t₁, ht₁, hst₁⟩ := hgo t hst hP
  exact ⟨t₁, by rw [ht₁]; rfl, hst₁⟩

theorem sim_load_int (n : Nat) (a : Long) :
    Sim P Q S (load_int mmu n a pc : Act σ τ Long) (load_int mmu' n a pc) :=
  sim_bind (sim_load_model hF a) fun a =>
    sim_get Machine.mem Machine.mem (fun _ _ hm => hm.mem) fun c => sim_pure ((c.load a n).signExtend 64)

theorem sim_load_uint (n : Nat) (a : Long) :
    Sim P Q S (load_uint mmu n a pc : Act σ τ Long) (load_uint mmu' n a pc) :=
  sim_bind (sim_load_model hF a) fun a =>
    sim_get Machine.mem Machine.mem (fun _ _ hm => hm.mem) fun c => sim_pure ((c.load a n).setWidth 64)

theorem sim_store_int (n : Nat) (a v : Long) :
    Sim P Q S (store_int mmu n a pc v : Act σ τ Unit) (store_int mmu' n a pc v) :=
  sim_bind (sim_store_model hF a) fun a => sim_modify_mem fun c => c.store a n (v.setWidth (8 * n))

theorem sim_amo_uint (n : Nat) (a : Long) (f : BitVec (8 * n) → BitVec (8 * n)) :
    Sim P Q S (amo_uint mmu n a pc f : Act σ τ _) (amo_uint mmu' n a pc f) :=
  sim_get Machine.mem Machine.mem (fun _ _ hm => hm.mem) fun c =>
    sim_bind (sim_modify_mem fun d => d.store a n (f (c.load a n))) fun _ =>
      sim_bind (sim_amo_model hF a) fun _ => sim_pure (c.load a n)

/-! ## The shapes of the lines -/

variable (i : Insn) (code : InsnSpace)

omit hF in
theorem sim_compute (len : Nat) {e : Act σ τ Long} {e' : Act σ' τ Long} (he : Sim P Q S e e') :
    Sim P Q S (compute i pc len e) (compute i pc len e') :=
  sim_bind he fun _ => sim_bind (sim_writeX _ _) fun _ => sim_pure _

omit hF in
theorem sim_store (len : Nat) {st : Long → Long → Long → Act σ τ Unit}
    {st' : Long → Long → Long → Act σ' τ Unit} (hst : ∀ a v, Sim P Q S (st a pc v) (st' a pc v)) :
    Sim P Q S (store i pc len st) (store i pc len st') :=
  sim_bind (sim_readX _) fun _ => sim_bind (sim_readX _) fun _ =>
    sim_bind (hst _ _) fun _ => sim_pure _

theorem sim_branch (len : Nat) (c : Bool) :
    Sim P Q S (branch i pc mmu len c : Act σ τ Long) (branch i pc mmu' len c) := by
  unfold branch
  split
  · exact sim_jump_model hF _
  · exact sim_pure _

theorem sim_link (len : Nat) (npc : Long) :
    Sim P Q S (link i pc mmu len npc : Act σ τ Long) (link i pc mmu' len npc) :=
  sim_bind (sim_jump_model hF _) fun _ => sim_bind (sim_writeX _ _) fun _ => sim_pure _

/-- `hart_t::cas` from its access of memory on. -/
def casFrom (pc : Long) (code : InsnSpace) (n : Nat) (i : Insn) (ptr expect replace : Long)
    (mem : Riscv.Mem) : Act σ τ Bool := do
  let oldval := mem.load ptr n
  if oldval = expect.setWidth (8 * n) then
    modify fun m => { m with mem := m.mem.store ptr n (replace.setWidth (8 * n)) }
  write_reg (← fetch code (pc + 4)).rs1 (oldval.signExtend 64)
  if oldval = expect.setWidth (8 * n) then
    write_reg i.rd 0
  return oldval = expect.setWidth (8 * n)

omit hF in
/-- `cas` is the same access of memory on both sides. -/
theorem sim_cas (n : Nat) : Sim P Q S (cas pc code n : Act σ τ Bool) (cas pc code n) := by
  refine sim_bind (sim_fetch _ _) fun i => sim_bind (sim_readX _) fun ptr =>
    sim_bind (sim_readX _) fun expect => sim_bind (sim_readX _) fun replace => ?_
  refine sim_get Machine.mem Machine.mem (fun _ _ hm => hm.mem)
    (f := casFrom pc code n i ptr expect replace) (g := casFrom pc code n i ptr expect replace)
    fun c => ?_
  unfold casFrom
  dsimp only
  -- both find the same word in memory
  split
  case isTrue =>
    exact sim_bind (sim_modify_mem fun d => d.store ptr n (replace.setWidth (8 * n))) fun _ =>
      sim_bind (sim_fetch _ _) fun _ => sim_bind (sim_write_reg _ _) fun _ =>
      sim_bind (sim_write_reg _ _) fun _ => sim_pure _
  case isFalse =>
    exact sim_bind (sim_fetch _ _) fun _ => sim_bind (sim_write_reg _ _) fun _ => sim_pure _

theorem sim_casLine (len n : Nat) :
    Sim P Q S (casLine pc mmu code len n : Act σ τ Long) (casLine pc mmu' code len n) := by
  refine sim_bind (sim_cas code n) fun b => ?_
  split
  · exact sim_bind (sim_fetch _ _) fun _ => sim_jump_model hF _
  · exact sim_pure _

/-! ## The switch -/

variable {i code}

omit hF in
theorem sim_r1 : Sim P Q S (r1 i : Act σ τ Long) (r1 i) := sim_readX _

omit hF in
theorem sim_r2 : Sim P Q S (r2 i : Act σ τ Long) (r2 i) := sim_readX _

/-- The compressed lines, one after another. -/
theorem c_fast_sim {op : COp} {act : Act σ τ Long} (hact : op.fast i pc mmu = some act) :
    ∃ act', op.fast i pc mmu' = some act' ∧ Sim P Q S act act' := by
  cases op <;> simp only [COp.fast, load_int32, load_int64, store_int32, store_int64,
      Option.some.injEq, reduceCtorEq, exists_eq_left'] at hact ⊢ <;>
    subst hact <;>
    -- the two lines have the same form
    repeat' with_reducible first
      | refine sim_compute _ _ ?_
      | refine sim_store _ _ fun a v => ?_
      | apply sim_jump_model hF
      | apply sim_branch hF
      | apply sim_link hF
      | apply sim_r1
      | apply sim_r2
      | apply sim_load_int hF
      | apply sim_store_int hF
      | apply sim_shl
      | apply sim_shr
      | apply sim_sar
      | refine sim_bind ?_ fun _ => ?_
      | apply sim_pure

/-- The full-size lines, one after another. -/
theorem fast_sim {op : FastOp} {act : Act σ τ Long} (hact : op.fast i pc mmu code = some act) :
    ∃ act', op.fast i pc mmu' code = some act' ∧ Sim P Q S act act' := by
  cases op <;> simp only [FastOp.fast, load_int8, load_int16, load_int32, load_int64, load_uint8,
      load_uint16, load_uint32, store_int8, store_int16, store_int32, store_int64,
      Option.some.injEq, reduceCtorEq, exists_eq_left'] at hact ⊢ <;>
    subst hact <;>
    repeat' with_reducible first
      | refine sim_compute _ _ ?_
      | refine sim_store _ _ fun a v => ?_
      | apply sim_casLine hF
      | apply sim_branch hF
      | apply sim_link hF
      | apply sim_r1
      | apply sim_r2
      | apply sim_load_int hF
      | apply sim_load_uint hF
      | apply sim_store_int hF
      | apply sim_shl
      | apply sim_shr
      | apply sim_sar
      | refine sim_bind ?_ fun _ => ?_
      | apply sim_pure

/-- **Every fast action** on one model is the same action on the other. -/
theorem action_sim {act : Act σ τ Long} (hact : i.opcode.action i pc mmu code = some act) :
    ∃ act', i.opcode.action i pc mmu' code = some act' ∧ Sim P Q S act act' := by
  cases hop : i.opcode with
  | c op =>
    rw [hop] at hact
    exact c_fast_sim hF hact
  | fast op =>
    rw [hop] at hact
    exact fast_sim hF hact
  | ZERO | spike _ | ILLEGAL | UNKNOWN =>
    rw [hop] at hact
    cases hact

omit hF in
/-- Which opcodes have a line does not depend on the model. -/
theorem action_none (hact : (i.opcode.action i pc mmu code : Option (Act σ τ Long)) = none) :
    (i.opcode.action i pc mmu' code : Option (Act σ' τ Long)) = none := by
  cases hop : i.opcode with
  | c op =>
    rw [hop] at hact
    cases op <;> first | rfl | cases hact
  | fast op =>
    rw [hop] at hact
    cases op <;> first | rfl | cases hact
  | ZERO | spike _ | ILLEGAL | UNKNOWN => rfl

/-- **A function of Spike's**, by what it does next. -/
theorem sim_routine (r : Routine τ) : Sim P Q S (r.act mmu pc) (r.act mmu' pc) := by
  -- on the function, one case for each thing it can do next
  induction r with
  | next npc => exact sim_pure npc
  | die => exact sim_crash
  | read k ih =>
    exact sim_get (fun m => (m.xpr, m.rest)) (fun m => (m.xpr, m.rest))
      (fun m m' hm => by rw [hm.xpr, hm.rest]) (f := fun c => (k c.1 c.2).act mmu pc)
      (g := fun c => (k c.1 c.2).act mmu' pc) fun c => ih c.1 c.2
  | write xpr rest k ih =>
    exact sim_bind (sim_modify (fun _ => rfl) fun _ _ hm => ⟨rfl, hm.mem, rfl, hm.trace, hm.mmu⟩) fun _ => ih
  | jump_model npc k ih => exact sim_bind (sim_jump_model hF npc) ih
  | load_int n a k ih => exact sim_bind (sim_load_int hF n a) ih
  | load_uint n a k ih => exact sim_bind (sim_load_uint hF n a) ih
  | store_int n a v k ih => exact sim_bind (sim_store_int hF n a v) fun _ => ih
  | amo_uint n a f k ih => exact sim_bind (sim_amo_uint hF n a f) ih

end

/-! ## An iteration -/

/-- Two harts that differ in the state of their model only. -/
structure AlikeHart (S : σ → σ' → Prop) (h : Hart σ τ) (h' : Hart σ' τ) : Prop
    extends Alike S h.toMachine h'.toMachine where
  pc : h'.pc = h.pc
  executed : h'.executed = h.executed
  total_insns : h'.total_insns = h.total_insns

section
variable {P Q : Event → Prop} {S : σ → σ' → Prop} {h h₁ : Hart σ τ} {h' : Hart σ' τ}

theorem alike_log {m : Machine σ τ} {m' : Machine σ' τ} (hm : Alike S m m') (e : Event) :
    Alike S (m.log e) (m'.log e) :=
  ⟨hm.xpr, hm.mem, hm.rest, congrArg (e :: ·) hm.trace, hm.mmu⟩

theorem alike_guest (hh : AlikeHart S h h') : h'.guest = h.guest := by
  unfold Hart.guest
  rw [hh.xpr, hh.mem, hh.rest, hh.pc, hh.executed, hh.total_insns]

theorem alike_incr_count (hh : AlikeHart S h h') (n : Int) :
    AlikeHart S (h.incr_count n) (h'.incr_count n) :=
  ⟨hh.toAlike, hh.pc, congrArg (· + n) hh.executed, congrArg (· + n) hh.total_insns⟩

theorem alike_write_pc (hh : AlikeHart S h h') (pc : Long) :
    AlikeHart S (h.write_pc pc) (h'.write_pc pc) :=
  ⟨⟨hh.xpr, hh.mem, hh.rest, hh.trace, hh.mmu⟩, rfl, hh.executed, hh.total_insns⟩

theorem alike_clear_x0 (hh : AlikeHart S h h') : AlikeHart S h.clear_x0 h'.clear_x0 :=
  ⟨⟨by rw [Hart.clear_x0, Hart.clear_x0, hh.xpr], hh.mem, hh.rest, hh.trace, hh.mmu⟩, hh.pc,
    hh.executed, hh.total_insns⟩

theorem alike_setMachine (hh : AlikeHart S h h') {m : Machine σ τ} {m' : Machine σ' τ}
    (hm : Alike S m m') : AlikeHart S (h.setMachine m) (h'.setMachine m') :=
  ⟨hm, hh.pc, hh.executed, hh.total_insns⟩

theorem alike_setGuest (hh : AlikeHart S h h') (g : Guest τ) :
    AlikeHart S (h.setGuest g) (h'.setGuest g) :=
  ⟨⟨rfl, rfl, rfl, hh.trace, hh.mmu⟩, rfl, rfl, rfl⟩

variable {mmu : Mmu σ} {mmu' : Mmu σ'} {w : World τ}

/-- The hart inside the system call `sysnum` that an `ecall` makes after `insns` instructions. -/
def Hart.calling (h : Hart σ τ) (insns sysnum : Int) : Hart σ τ :=
  (h.incr_count insns).setMachine (h.log (.proxy_syscall sysnum (h.incr_count insns).executed))

theorem alike_calling (hh : AlikeHart S h h') (insns sysnum : Int) :
    AlikeHart S (h.calling insns sysnum) (h'.calling insns sysnum) := by
  have hin := alike_incr_count hh insns
  unfold Hart.calling
  rw [hin.executed]
  exact alike_setMachine hin (alike_log hh.toAlike _)

/-- An `ecall` that returns is one call of the kernel, on the guest. -/
theorem proxy_ecall_world {insns : Int} : proxy_ecall (w.env mmu) insns h = .ok h₁ ↔
    ∃ sysnum g, ¬((h.xpr 17).toInt < 0 ∨ w.HIGHEST_ECALL_NUM < (h.xpr 17).toInt) ∧
      w.rv_to_host (h.xpr 17).toInt.toNat = some sysnum ∧ ¬sysnum < 0 ∧
      w.proxy_syscall sysnum (h.calling insns sysnum).guest = .ok g ∧
      h₁ = ((h.calling insns sysnum).setGuest g).incr_count (-insns) := by
  constructor
  · intro hcall
    unfold proxy_ecall at hcall
    dsimp only at hcall
    split at hcall
    case isTrue => cases hcall
    case isFalse hrange =>
      split at hcall
      case h_1 => cases hcall
      case h_2 sysnum hmap =>
        split at hcall
        case isTrue => cases hcall
        case isFalse hpos =>
          split at hcall
          case h_1 => cases hcall
          case h_2 h₂ hsys =>
            cases hcall
            unfold World.env at hsys
            dsimp only at hsys
            split at hsys
            case h_1 => cases hsys
            case h_2 g hg =>
              cases hsys
              exact ⟨sysnum, g, hrange, hmap, hpos, hg, rfl⟩
  · rintro ⟨sysnum, g, hrange, hmap, hpos, hg, rfl⟩
    have hmap' : (w.env mmu).rv_to_host ((h.incr_count insns).xpr 17).toInt.toNat = some sysnum := hmap
    have hrange' : ¬(((h.incr_count insns).xpr 17).toInt < 0 ∨
        (w.env mmu).HIGHEST_ECALL_NUM < ((h.incr_count insns).xpr 17).toInt) := hrange
    have hsys : (w.env mmu).proxy_syscall sysnum ((h.incr_count insns).setMachine
        ((h.incr_count insns).log (.proxy_syscall sysnum (h.incr_count insns).executed)))
        = .ok ((h.calling insns sysnum).setGuest g) := by
      show (w.env mmu).proxy_syscall sysnum (h.calling insns sysnum) = _
      unfold World.env
      dsimp only
      rw [hg]
    unfold proxy_ecall
    dsimp only
    rw [if_neg hrange', hmap']
    dsimp only
    rw [if_neg hpos, hsys]

variable (mmu') in
/-- An `ecall` makes the same system call on both sides. -/
theorem proxy_ecall_sim (hQ : ∀ n k, Q (.proxy_syscall n k)) {insns : Int}
    (hcall : proxy_ecall (w.env mmu) insns h = .ok h₁) :
    Grown Q h.trace h₁.trace ∧ ∀ h' : Hart σ' τ, AlikeHart S h h' →
      ∃ h₁', proxy_ecall (w.env mmu') insns h' = .ok h₁' ∧ AlikeHart S h₁ h₁' := by
  obtain ⟨sysnum, g, hrange, hmap, hpos, hg, rfl⟩ := proxy_ecall_world.mp hcall
  refine ⟨grown_cons (hQ _ _) _, fun h' hh => ?_⟩
  have hin := alike_calling hh insns sysnum
  refine ⟨_, proxy_ecall_world.mpr ⟨sysnum, g, ?_, ?_, hpos, ?_, rfl⟩,
    alike_incr_count (alike_setGuest hin g) (-insns)⟩
  · rw [hh.xpr]
    exact hrange
  · rw [hh.xpr]
    exact hmap
  · rw [alike_guest hin]
    exact hg

/-- **The switch** goes on to the same pc. -/
theorem dispatch_sim {pc : Long} (hF : Follows P Q S mmu mmu' pc) (hQ : ∀ n k, Q (.proxy_syscall n k))
    {insns : Int} {i : Insn} {pc' : Long} (hstep : dispatch (w.env mmu) insns i pc h = .next pc' h₁) :
    Grown Q h.trace h₁.trace ∧ ∀ h' : Hart σ' τ, AlikeHart S h h' → (∀ e ∈ h₁.trace, P e) →
      ∃ h₁', dispatch (w.env mmu') insns i pc h' = .next pc' h₁' ∧ AlikeHart S h₁ h₁' := by
  cases dispatch_cases (w.env mmu) hstep with
  | ecall hecall hcall =>
    obtain ⟨hgrow, hsim⟩ := proxy_ecall_sim mmu' (S := S) hQ hcall
    refine ⟨hgrow, fun h' hh _ => ?_⟩
    obtain ⟨h₁', hcall', hh₁⟩ := hsim (h'.write_pc pc) (alike_write_pc hh pc)
    refine ⟨h₁', ?_, hh₁⟩
    unfold dispatch
    rw [if_pos hecall, hcall']
  | fast hecall hact hrun =>
    obtain ⟨act', hact', hsim⟩ := action_sim hF hact
    obtain ⟨hgrow, hgo⟩ := hsim _ _ _ hrun
    refine ⟨hgrow, fun h' hh hP => ?_⟩
    obtain ⟨m', hrun', hm⟩ := hgo h'.toMachine hh.toAlike hP
    exact ⟨_, dispatch_fast _ hecall hact' hrun', alike_setMachine hh hm⟩
  | golden hecall hact hf hrun =>
    obtain ⟨sp, hsp, rfl⟩ := Option.map_eq_some_iff.mp hf
    cases sp with
    | trap_breakpoint => cases hrun
    | run r =>
      unfold Spike.golden at hrun
      dsimp only at hrun
      split at hrun
      case h_1 npc m₁ hr =>
        cases hrun
        obtain ⟨hgrow, hgo⟩ := sim_routine hF (r pc) _ _ _ hr
        refine ⟨hgrow, fun h' hh hP => ?_⟩
        obtain ⟨m', hrun', hm⟩ := hgo h'.toMachine hh.toAlike hP
        refine ⟨_, ?_, alike_setMachine hh hm⟩
        unfold dispatch
        rw [if_neg hecall, show (i.opcode.action i pc (w.env mmu').mmu (w.env mmu').code :
          Option (Act σ' τ Long)) = none from action_none hact]
        dsimp only
        rw [show (w.env mmu').golden i.opcode = some (Spike.golden mmu' (.run r)) by
          unfold World.env; dsimp only; rw [hsp]; rfl]
        dsimp only [Spike.golden]
        rw [hrun']
      case h_2 => cases hrun

variable (mmu') in
/-- A throw of Spike's leaves the hart as it was. -/
theorem dispatch_trap_sim {insns : Int} {i : Insn} {pc : Long}
    (hstep : dispatch (w.env mmu) insns i pc h = .trap_breakpoint h₁) :
    h₁ = h ∧ ∀ h' : Hart σ' τ, dispatch (w.env mmu') insns i pc h' = .trap_breakpoint h' := by
  obtain ⟨rfl, ⟨hecall, hact⟩, f, hf, hthrow⟩ := dispatch_trap.mp hstep
  obtain ⟨sp, hsp, rfl⟩ := Option.map_eq_some_iff.mp hf
  refine ⟨rfl, fun h' => dispatch_trap.mpr ⟨rfl, ⟨hecall, action_none hact⟩, Spike.golden mmu' sp, ?_, ?_⟩⟩
  · unfold World.env
    dsimp only
    rw [hsp]
    rfl
  · cases sp with
    | trap_breakpoint => rfl
    | run r =>
      -- a function that runs does not throw
      unfold Spike.golden at hthrow
      dsimp only at hthrow
      split at hthrow <;> cases hthrow

/-- At every pc the one model follows the other, and what holds there of the events is `Q` for
all of them once it holds of the `insn_model` call and the text has an instruction there. -/
structure FollowsAll (P Q : Event → Prop) (S : σ → σ' → Prop) (code : InsnSpace) (mmu : Mmu σ)
    (mmu' : Mmu σ') : Prop where
  pcs : ∀ pc, ∃ R, Follows P R S mmu mmu' pc ∧ (∀ n k, R (.proxy_syscall n k)) ∧
    (R (.insn_model pc) → (code.at pc).isSome = true → ∀ e, R e → Q e)

theorem grown_mono {R : Event → Prop} (hRQ : ∀ e, R e → Q e) {l l' : List Event} (h : Grown R l l') :
    Grown Q l l' := by
  obtain ⟨d, hd, hR⟩ := h
  exact ⟨d, hd, fun e he => hRQ e (hR e he)⟩

/-- An iteration is the model's `insn_model` and then the switch, on either model. -/
theorem iteration_world {insns : Int} {pc : Long}
    (hgo : ∀ s, iteration (w.env mmu) insns pc h ≠ .stop s) :
    ∃ m s i, insn_model mmu pc h.toMachine = .ok ((), m) ∧ mmu.insn_model pc h.mmu = some s ∧
      w.code.at pc = some i ∧
      iteration (w.env mmu) insns pc h = (dispatch (w.env mmu) insns i pc (h.setMachine m)).clear_x0 := by
  obtain ⟨m, s, i, hm, hs, -, hi, heq⟩ := iteration_model hgo
  exact ⟨m, s, i, hm, hs, hi, heq⟩

/-- **An iteration** that goes on. -/
theorem iteration_sim (hF : FollowsAll P Q S w.code mmu mmu') {insns : Int} {pc pc' : Long}
    (hstep : iteration (w.env mmu) insns pc h = .next pc' h₁) :
    Grown Q h.trace h₁.trace ∧ ∀ h' : Hart σ' τ, AlikeHart S h h' → (∀ e ∈ h₁.trace, P e) →
      ∃ h₁', iteration (w.env mmu') insns pc h' = .next pc' h₁' ∧ AlikeHart S h₁ h₁' := by
  obtain ⟨m, s, i, hm, hs, hi, heq⟩ := iteration_world fun s => by rw [hstep]; simp
  obtain ⟨R, hR, hsys, hRQ⟩ := hF.pcs pc
  have hall := hRQ (hR.insn_model _ _ hs).1 (by rw [hi]; rfl)
  rw [hstep] at heq
  cases hd : dispatch (w.env mmu) insns i pc (h.setMachine m) with
  | next pc₂ h₂ =>
    rw [hd] at heq
    obtain ⟨rfl, rfl⟩ := Step.next.inj heq
    obtain ⟨hgrow, hgo⟩ := sim_insn_model hR _ _ _ hm
    obtain ⟨hgrow', hgo'⟩ := dispatch_sim hR hsys hd
    refine ⟨grown_mono hall (grown_trans hgrow hgrow'), fun h' hh hP => ?_⟩
    have hPm : ∀ e ∈ m.trace, P e := fun e he => hP e (grown_subset hgrow' he)
    obtain ⟨m', hm', hmm⟩ := hgo h'.toMachine hh.toAlike hPm
    obtain ⟨h₂', hd', hh₂⟩ := hgo' (h'.setMachine m') (alike_setMachine hh hmm) hP
    refine ⟨h₂'.clear_x0, ?_, alike_clear_x0 hh₂⟩
    rw [iteration_eq (w.env mmu') hm' hi, hd']
    rfl
  | trap_breakpoint h₂ =>
    rw [hd] at heq
    cases heq
  | stop e =>
    rw [hd] at heq
    cases heq

/-- An iteration that throws, which leaves its hart as `insn_model` has left it. -/
theorem iteration_trap_sim (hF : FollowsAll P Q S w.code mmu mmu') {insns : Int} {pc : Long}
    (hstep : iteration (w.env mmu) insns pc h = .trap_breakpoint h₁) :
    Grown Q h.trace h₁.trace ∧ ∀ h' : Hart σ' τ, AlikeHart S h h' → (∀ e ∈ h₁.trace, P e) →
      ∃ h₁', iteration (w.env mmu') insns pc h' = .trap_breakpoint h₁' ∧ AlikeHart S h₁ h₁' := by
  obtain ⟨m, s, i, hm, hs, hi, heq⟩ := iteration_world fun s => by rw [hstep]; simp
  obtain ⟨R, hR, hsys, hRQ⟩ := hF.pcs pc
  have hall := hRQ (hR.insn_model _ _ hs).1 (by rw [hi]; rfl)
  rw [hstep] at heq
  cases hd : dispatch (w.env mmu) insns i pc (h.setMachine m) with
  | next pc₂ h₂ =>
    rw [hd] at heq
    cases heq
  | trap_breakpoint h₂ =>
    rw [hd] at heq
    obtain rfl := Step.trap_breakpoint.inj heq
    obtain ⟨rfl, hgo'⟩ := dispatch_trap_sim mmu' hd
    obtain ⟨hgrow, hgo⟩ := sim_insn_model hR _ _ _ hm
    refine ⟨grown_mono hall hgrow, fun h' hh hP => ?_⟩
    obtain ⟨m', hm', hmm⟩ := hgo h'.toMachine hh.toAlike hP
    refine ⟨h'.setMachine m', ?_, alike_setMachine hh hmm⟩
    rw [iteration_eq (w.env mmu') hm' hi, hgo']
    rfl
  | stop e =>
    rw [hd] at heq
    cases heq

/-! ## A thread among others -/

/-- Two threads in the same place of a call, on alike harts. -/
structure AlikeThread (S : σ → σ' → Prop) (t : Thread σ τ) (t' : Thread σ' τ) : Prop where
  call : t'.call = t.call
  hart : AlikeHart S t.hart t'.hart

/-- **A turn of the loop.** -/
theorem iterate_sim (hF : FollowsAll P Q S w.code mmu mmu') {t t₁ : Thread σ τ}
    (hstep : t.iterate (w.env mmu) = some t₁) :
    Grown Q t.hart.trace t₁.hart.trace ∧ ∀ t' : Thread σ' τ, AlikeThread S t t' →
      (∀ e ∈ t₁.hart.trace, P e) → ∃ t₁', t'.iterate (w.env mmu') = some t₁' ∧ AlikeThread S t₁ t₁' := by
  unfold Thread.iterate at hstep
  split at hstep
  case h_1 => cases hstep
  case h_2 l hl =>
    split at hstep
    case h_1 => cases hstep
    case h_2 h₁ hit =>
      cases hstep
      obtain ⟨hgrow, hgo⟩ := iteration_trap_sim hF hit
      refine ⟨hgrow, fun t' ht hP => ?_⟩
      obtain ⟨h₁', hit', hh₁⟩ := hgo t'.hart ht.hart hP
      refine ⟨⟨(h₁'.write_pc l.pc).incr_count l.insns, none⟩, ?_, rfl,
        alike_incr_count (alike_write_pc hh₁ _) _⟩
      unfold Thread.iterate
      rw [ht.call, hl]
      dsimp only
      rw [hit']
    case h_3 pc' h₁ hit =>
      obtain ⟨hgrow, hgo⟩ := iteration_sim hF hit
      split at hstep
      case isTrue hlt =>
        cases hstep
        refine ⟨hgrow, fun t' ht hP => ?_⟩
        obtain ⟨h₁', hit', hh₁⟩ := hgo t'.hart ht.hart hP
        refine ⟨⟨h₁', some ⟨l.how_many, l.insns + 1, pc'⟩⟩, ?_, rfl, hh₁⟩
        unfold Thread.iterate
        rw [ht.call, hl]
        dsimp only
        rw [hit']
        exact if_pos hlt
      case isFalse hge =>
        cases hstep
        refine ⟨hgrow, fun t' ht hP => ?_⟩
        obtain ⟨h₁', hit', hh₁⟩ := hgo t'.hart ht.hart hP
        refine ⟨⟨(h₁'.write_pc pc').incr_count (l.insns + 1), none⟩, ?_, rfl,
          alike_incr_count (alike_write_pc hh₁ _) _⟩
        unfold Thread.iterate
        rw [ht.call, hl]
        dsimp only
        rw [hit']
        exact if_neg hge

end

/-- A thread enters a call of the interpreter or takes a turn of its loop; or the rest of the
process does something, to the guest and in a way of its own (`ο`) to the model. -/
inductive ThreadAct (τ ο : Type)
  | interpreter (how_many : Int)
  | iterate
  | elsewhere (g : Guest τ) (o : ο)

def Thread.step {ο : Type} (env : Env σ τ) (elsewhere : ο → σ → σ) (t : Thread σ τ) :
    ThreadAct τ ο → Option (Thread σ τ)
  | .interpreter how_many => t.interpreter how_many
  | .iterate => t.iterate env
  | .elsewhere g o =>
    some { t with hart := { t.hart.setGuest g with mmu := elsewhere o t.hart.mmu } }

section
variable {ο : Type} {P Q : Event → Prop} {S : σ → σ' → Prop} {mmu : Mmu σ} {mmu' : Mmu σ'}
  {w : World τ} {f : ο → σ → σ} {g : ο → σ' → σ'}

/-- A step of the thread, or of the rest of the process. -/
theorem step_sim (hF : FollowsAll P Q S w.code mmu mmu') (hf : ∀ o s s', S s s' → S (f o s) (g o s'))
    {a : ThreadAct τ ο} {t t₁ : Thread σ τ} (hstep : t.step (w.env mmu) f a = some t₁) :
    Grown Q t.hart.trace t₁.hart.trace ∧ ∀ t' : Thread σ' τ, AlikeThread S t t' →
      (∀ e ∈ t₁.hart.trace, P e) → ∃ t₁', t'.step (w.env mmu') g a = some t₁' ∧ AlikeThread S t₁ t₁' := by
  cases a with
  | interpreter how_many =>
    unfold Thread.step Thread.interpreter at hstep
    dsimp only at hstep
    split at hstep
    case h_1 hcall =>
      cases hstep
      refine ⟨grown_refl _, fun t' ht _ => ⟨{ t' with call := some ⟨how_many, 0, t'.hart.pc⟩ }, ?_, ?_, ht.hart⟩⟩
      · unfold Thread.step Thread.interpreter
        rw [ht.call, hcall]
      · dsimp only
        rw [ht.hart.pc]
    case h_2 => cases hstep
  | iterate => exact iterate_sim hF hstep
  | elsewhere g o =>
    cases hstep
    refine ⟨grown_refl _, fun t' ht _ => ⟨_, rfl, ht.call, ?_⟩⟩
    exact ⟨⟨rfl, rfl, rfl, ht.hart.trace, hf o _ _ ht.hart.mmu⟩, rfl, rfl, rfl⟩

/-- **A run** on one model is a run on the other. -/
theorem run_sim (hF : FollowsAll P Q S w.code mmu mmu') (hf : ∀ o s s', S s s' → S (f o s) (g o s'))
    {as : List (ThreadAct τ ο)} {t t₁ : Thread σ τ}
    (hrun : Lib.run (Thread.step (w.env mmu) f) as t = some t₁) :
    Grown Q t.hart.trace t₁.hart.trace ∧ ∀ t' : Thread σ' τ, AlikeThread S t t' →
      (∀ e ∈ t₁.hart.trace, P e) →
        ∃ t₁', Lib.run (Thread.step (w.env mmu') g) as t' = some t₁' ∧ AlikeThread S t₁ t₁' := by
  induction as generalizing t with
  | nil =>
    obtain rfl := Option.some.inj hrun
    exact ⟨grown_refl _, fun t' ht _ => ⟨t', rfl, ht⟩⟩
  | cons a as ih =>
    obtain ⟨t₂, hstep, hrest⟩ := Lib.run_cons hrun
    obtain ⟨hgrow, hgo⟩ := step_sim hF hf hstep
    obtain ⟨hgrow', hgo'⟩ := ih hrest
    refine ⟨grown_trans hgrow hgrow', fun t' ht hP => ?_⟩
    obtain ⟨t₂', hstep', ht₂⟩ := hgo t' ht fun e he => hP e (grown_subset hgrow' he)
    obtain ⟨t₁', hrest', ht₁⟩ := hgo' t₂' ht₂ hP
    exact ⟨t₁', Option.bind_eq_some_iff.mpr ⟨t₂', hstep', hrest'⟩, ht₁⟩

end

end Cavatools.Uspike
