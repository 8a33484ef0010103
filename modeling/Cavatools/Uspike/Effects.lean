import Cavatools.Uspike.Simulate

/-!
# What an action does, one thing at a time

An action of an instruction is a function on the machine, and to know what it
keeps one would have to run it. Here it is taken apart into single things: a
line of RV.fast reads and writes registers and memory through the models
(`Effect`), and may take a jump (`LineEffect`); a function of Spike's does
these things and two more (`SpikeEffect`). `Does R act` says that an action
which ends has done things of the kind `R`, one after another, and it is
proved for every line and every routine by the combinators that these are made
of (`does_line`, `does_routine`).

Whatever is kept by each single thing is kept by the action. That is used
twice.

The first use is about models. `Tells` says that a relation between the events
so far and the state of the model is kept by each call that is announced by
its event; then it is kept by an instruction (`iteration_tells`), by a turn of
the loop and by a run (`run_tells`), if the rest of the process keeps it. The
profile of caveat is an instance.

The second is about events. An instruction that goes on announces itself once,
and only jumps to the pc that it goes on at (`Onward`, `iteration_announces`),
which for a line is proved from its shape (`line_onward`) and of Spike's
functions is assumed: they jump with `set_pc` (`SetsPc`).
-/

namespace Cavatools.Uspike

open Relation (ReflTransGen)

variable {σ τ α β : Type}

/-- One thing that a line does, but for a jump. -/
inductive Effect (mmu : Mmu σ) (m : Machine σ τ) : Machine σ τ → Prop
  | xpr (x : BitVec 5 → Long) : Effect mmu m { m with xpr := x }
  | mem (d : Riscv.Mem) : Effect mmu m { m with mem := d }
  | load_model (b pc : Long) {a : Long} {s : σ} (hs : mmu.load_model b pc m.mmu = some (a, s)) :
      Effect mmu m { m.log (.load_model b pc) with mmu := s }
  | store_model (b pc : Long) {a : Long} {s : σ} (hs : mmu.store_model b pc m.mmu = some (a, s)) :
      Effect mmu m { m.log (.store_model b pc) with mmu := s }

/-- One thing that a line does. -/
inductive LineEffect (mmu : Mmu σ) (m : Machine σ τ) : Machine σ τ → Prop
  | effect {m' : Machine σ τ} (h : Effect mmu m m') : LineEffect mmu m m'
  | jump_model (npc pc : Long) {a : Long} {s : σ} (hs : mmu.jump_model npc pc m.mmu = some (a, s)) :
      LineEffect mmu m { m.log (.jump_model npc pc) with mmu := s }

/-- One thing that a function of Spike's does. -/
inductive SpikeEffect (mmu : Mmu σ) (m : Machine σ τ) : Machine σ τ → Prop
  | line {m' : Machine σ τ} (h : LineEffect mmu m m') : SpikeEffect mmu m m'
  | state (x : BitVec 5 → Long) (t : τ) : SpikeEffect mmu m { m with xpr := x, rest := t }
  | amo_model (b pc : Long) {s : σ} (hs : mmu.amo_model b pc m.mmu = some s) :
      SpikeEffect mmu m { m.log (.amo_model b pc) with mmu := s }

/-- An action that ends has done things of the kind `R`. -/
def Does (R : Machine σ τ → Machine σ τ → Prop) (act : Act σ τ α) : Prop :=
  ∀ m a m', act m = .ok (a, m') → ReflTransGen R m m'

section
variable {R : Machine σ τ → Machine σ τ → Prop}

theorem does_mono {R' : Machine σ τ → Machine σ τ → Prop} (hR : ∀ m m', R m m' → R' m m') {act : Act σ τ α}
    (h : Does R act) : Does R' act :=
  fun m a m' hrun => ReflTransGen.mono hR _ _ (h m a m' hrun)

theorem does_bind {x : Act σ τ α} {f : α → Act σ τ β} (hx : Does R x) (hf : ∀ a, Does R (f a)) :
    Does R (x >>= f) := by
  intro m b m' h
  obtain ⟨a, m₁, hxm, hfm⟩ := bind_ok_inv h
  exact (hx m a m₁ hxm).trans (hf a m₁ b m' hfm)

theorem does_nothing {act : Act σ τ α} (h : ∀ m a m', act m = .ok (a, m') → m' = m) : Does R act := by
  intro m a m' hrun
  rw [h m a m' hrun]

theorem does_pure (a : α) : Does R (pure a : Act σ τ α) := does_nothing fun _ _ _ h => by cases h; rfl

theorem does_crash : Does R (crash : Act σ τ α) := fun _ _ _ h => by cases h

theorem does_readX (r : BitVec 8) : Does R (readX r : Act σ τ Long) :=
  does_nothing fun _ _ _ h => (readX_ok_inv h).2

theorem does_get : Does R (get : Act σ τ (Machine σ τ)) := does_nothing fun _ _ _ h => by cases h; rfl

theorem does_fetch (code : InsnSpace) (pc : Long) : Does R (fetch code pc : Act σ τ Insn) := by
  unfold fetch
  split
  · exact does_pure _
  · exact does_crash

/-- A shift is a value, or has no meaning. -/
theorem does_guarded {c : Prop} [Decidable c] (a : α) : Does R (if c then pure a else crash : Act σ τ α) := by
  split
  · exact does_pure a
  · exact does_crash

theorem does_ask {e : Event} {f : σ → Option (α × σ)}
    (h : ∀ m a s, f m.mmu = some (a, s) → R m { m.log e with mmu := s }) : Does R (ask e f : Act σ τ α) := by
  intro m a m' hrun
  unfold ask at hrun
  dsimp only [Machine.log] at hrun
  split at hrun
  case h_1 b s hs =>
    cases hrun
    exact .single (h m a s hs)
  case h_2 => cases hrun

end

/-! ## Lines -/

section
variable {mmu : Mmu σ} {i : Insn} {pc : Long} {code : InsnSpace}

theorem does_load_model (b pc : Long) : Does (Effect mmu) (load_model mmu b pc : Act σ τ Long) := by
  rw [load_model_ask]
  exact does_ask fun _ _ _ hs => .load_model b pc hs

theorem does_expr {x : Act σ τ α} (hx : Expr mmu α x) : Does (Effect mmu) x := by
  induction hx with
  | pure a => exact does_pure a
  | bind _ _ ihx ihf => exact does_bind ihx ihf
  | readX r => exact does_readX r
  | load_int n a pc | load_uint n a pc =>
    exact does_bind (does_load_model _ _) fun _ => does_bind does_get fun _ => does_pure _
  | shl a n | shr a n | sar a n => exact does_guarded _

theorem does_writeX (r : BitVec 8) (v : Long) : Does (Effect mmu) (writeX r v : Act σ τ Unit) := by
  intro m a m' h
  unfold writeX at h
  split at h <;> cases h
  exact .single (.xpr _)

theorem does_write_reg (r : BitVec 8) (v : Long) : Does (Effect mmu) (write_reg r v : Act σ τ Unit) := by
  intro m a m' h
  unfold write_reg at h
  split at h
  case isTrue =>
    cases h
    exact .refl
  case isFalse => exact does_writeX r v m a m' h

theorem does_modify_mem (f : Machine σ τ → Riscv.Mem) :
    Does (Effect mmu) (modify fun m => { m with mem := f m } : Act σ τ PUnit) := by
  intro m a m' h
  cases h
  exact .single (.mem _)

theorem does_store_int (n : Nat) (a pc v : Long) : Does (Effect mmu) (store_int mmu n a pc v : Act σ τ Unit) := by
  unfold store_int
  rw [store_model_ask]
  exact does_bind (does_ask fun _ _ _ hs => .store_model a pc hs) fun _ => does_modify_mem _

theorem does_jump_model (npc pc : Long) : Does (LineEffect mmu) (jump_model mmu npc pc : Act σ τ Long) := by
  rw [jump_model_ask]
  exact does_ask fun _ _ _ hs => .jump_model npc pc hs

theorem does_cas (pc : Long) (code : InsnSpace) (n : Nat) : Does (Effect mmu) (cas pc code n : Act σ τ Bool) := by
  refine does_bind (does_fetch _ _) fun i => does_bind (does_readX _) fun ptr =>
    does_bind (does_readX _) fun expect => does_bind (does_readX _) fun replace =>
    does_bind does_get fun m => ?_
  dsimp only
  split
  case isTrue =>
    exact does_bind (does_modify_mem _) fun _ => does_bind (does_fetch _ _) fun _ =>
      does_bind (does_write_reg _ _) fun _ => does_bind (does_write_reg _ _) fun _ => does_pure _
  case isFalse =>
    exact does_bind (does_fetch _ _) fun _ => does_bind (does_write_reg _ _) fun _ => does_pure _

theorem does_compute (len : Nat) {e : Act σ τ Long} (he : Expr mmu Long e) :
    Does (Effect mmu) (compute i pc len e) :=
  does_bind (does_expr he) fun _ => does_bind (does_writeX _ _) fun _ => does_pure _

theorem does_store (len n : Nat) : Does (Effect mmu) (store i pc len (store_int mmu n) : Act σ τ Long) :=
  does_bind (does_readX _) fun _ => does_bind (does_readX _) fun _ =>
    does_bind (does_store_int n _ _ _) fun _ => does_pure _

/-- **A line** does one thing after another. -/
theorem does_line {act : Act σ τ Long} (hact : Line i pc mmu code act) : Does (LineEffect mmu) act := by
  have hquiet {γ : Type} {x : Act σ τ γ} (hx : Does (Effect mmu) x) : Does (LineEffect mmu) x :=
    does_mono (fun _ _ => .effect) hx
  induction hact with
  | bind hx _ ihf => exact does_bind (hquiet (does_expr hx)) ihf
  | compute len he => exact hquiet (does_compute len he)
  | store len n => exact hquiet (does_store len n)
  | jump npc => exact does_jump_model npc pc
  | branch len c =>
    unfold branch
    split
    · exact does_jump_model _ _
    · exact does_pure _
  | link len npc =>
    exact does_bind (does_jump_model _ _) fun _ => does_bind (hquiet (does_writeX _ _)) fun _ => does_pure _
  | casLine len n =>
    refine does_bind (hquiet (does_cas pc code n)) fun b => ?_
    split
    · exact does_bind (does_fetch _ _) fun _ => does_jump_model _ _
    · exact does_pure _

/-- **A function of Spike's** that runs to its end. -/
theorem does_routine (r : Routine τ) : Does (SpikeEffect mmu) (r.act mmu pc) := by
  have hline {γ : Type} {x : Act σ τ γ} (hx : Does (LineEffect mmu) x) : Does (SpikeEffect mmu) x :=
    does_mono (fun _ _ => .line) hx
  have hquiet {γ : Type} {x : Act σ τ γ} (hx : Does (Effect mmu) x) : Does (SpikeEffect mmu) x :=
    does_mono (fun _ _ h => .line (.effect h)) hx
  induction r with
  | next npc => exact does_pure npc
  | die => exact does_crash
  | read k ih =>
    intro m a m' h
    exact ih m.xpr m.rest m a m' h
  | write xpr rest k ih =>
    refine does_bind (fun m a m' h => ?_) fun _ => ih
    cases h
    exact .single (.state xpr rest)
  | jump_model npc k ih => exact does_bind (hline (does_jump_model npc pc)) ih
  | load_int n a k ih => exact does_bind (hquiet (does_expr (.load_int n a pc))) ih
  | load_uint n a k ih => exact does_bind (hquiet (does_expr (.load_uint n a pc))) ih
  | store_int n a v k ih => exact does_bind (hquiet (does_store_int n a pc v)) fun _ => ih
  | amo_uint n a f k ih =>
    refine does_bind (does_bind does_get fun m => does_bind (hquiet (does_modify_mem _)) fun _ =>
      does_bind ?_ fun _ => does_pure _) ih
    rw [amo_model_ask]
    refine does_ask fun m b s hs => ?_
    obtain ⟨s', hs', heq⟩ := Option.map_eq_some_iff.mp hs
    cases heq
    exact .amo_model a pc hs'

end

/-! ## Events and the model -/

/-- `I` ties the state of a model to the events so far, the latest first. -/
structure Tells (mmu : Mmu σ) (I : List Event → σ → Prop) : Prop where
  insn_model : ∀ pc l s s', mmu.insn_model pc s = some s' → I l s → I (.insn_model pc :: l) s'
  jump_model : ∀ npc pc l s a s', mmu.jump_model npc pc s = some (a, s') → I l s →
    I (.jump_model npc pc :: l) s'
  load_model : ∀ b pc l s a s', mmu.load_model b pc s = some (a, s') → I l s →
    I (.load_model b pc :: l) s'
  store_model : ∀ b pc l s a s', mmu.store_model b pc s = some (a, s') → I l s →
    I (.store_model b pc :: l) s'
  amo_model : ∀ b pc l s s', mmu.amo_model b pc s = some s' → I l s → I (.amo_model b pc :: l) s'
  proxy_syscall : ∀ sysnum executed l s, I l s → I (.proxy_syscall sysnum executed :: l) s

section
variable {mmu : Mmu σ} {I : List Event → σ → Prop} (hI : Tells mmu I)
include hI

theorem lineEffect_tells {m m' : Machine σ τ} (h : LineEffect mmu m m') (hm : I m.trace m.mmu) :
    I m'.trace m'.mmu := by
  cases h with
  | effect h =>
    cases h with
    | xpr x | mem d => exact hm
    | load_model b pc hs => exact hI.load_model b pc _ _ _ _ hs hm
    | store_model b pc hs => exact hI.store_model b pc _ _ _ _ hs hm
  | jump_model npc pc hs => exact hI.jump_model npc pc _ _ _ _ hs hm

theorem spikeEffect_tells {m m' : Machine σ τ} (h : SpikeEffect mmu m m') (hm : I m.trace m.mmu) :
    I m'.trace m'.mmu := by
  cases h with
  | line h => exact lineEffect_tells hI h hm
  | state x t => exact hm
  | amo_model b pc hs => exact hI.amo_model b pc _ _ _ hs hm

theorem does_tells {act : Act σ τ α} (hact : Does (SpikeEffect mmu) act) {m m' : Machine σ τ} {a : α}
    (hrun : act m = .ok (a, m')) (hm : I m.trace m.mmu) : I m'.trace m'.mmu := by
  have heffects := hact m a m' hrun
  clear hrun
  -- on the things done, one after another
  induction heffects with
  | refl => exact hm
  | tail _ h ih => exact spikeEffect_tells hI h ih

variable {w : World τ} {insns : Int} {pc : Long} {h : Hart σ τ}

/-- The switch, on an instruction that goes on. -/
theorem dispatch_tells {i : Insn} {pc' : Long} {h' : Hart σ τ} (hh : I h.trace h.mmu)
    (hstep : dispatch (w.env mmu) insns i pc h = .next pc' h') : I h'.trace h'.mmu := by
  cases dispatch_cases (w.env mmu) hstep with
  | ecall _ hcall =>
    obtain ⟨sysnum, g, -, -, -, -, rfl⟩ := proxy_ecall_world.mp hcall
    exact hI.proxy_syscall _ _ _ _ hh
  | fast _ hact hrun => exact does_tells hI (does_mono (fun _ _ => .line) (does_line (action_line hact))) hrun hh
  | golden _ _ hf hrun =>
    obtain ⟨sp, -, rfl⟩ := Option.map_eq_some_iff.mp hf
    cases sp with
    | trap_breakpoint => cases hrun
    | run r =>
      unfold Spike.golden at hrun
      dsimp only at hrun
      split at hrun
      case h_1 npc m₁ hr =>
        cases hrun
        exact does_tells hI (does_routine (r pc)) hr hh
      case h_2 => cases hrun

/-- An iteration that goes on, or throws. -/
theorem iteration_tells (hh : I h.trace h.mmu) :
    (∀ pc' h', iteration (w.env mmu) insns pc h = .next pc' h' → I h'.trace h'.mmu) ∧
      ∀ h', iteration (w.env mmu) insns pc h = .trap_breakpoint h' → I h'.trace h'.mmu := by
  have hbegin (hgo : ∀ s, iteration (w.env mmu) insns pc h ≠ .stop s) : ∃ m i, I m.trace m.mmu ∧
      iteration (w.env mmu) insns pc h = (dispatch (w.env mmu) insns i pc (h.setMachine m)).clear_x0 := by
    obtain ⟨m, s, i, hm, hs, -, heq⟩ := iteration_world hgo
    refine ⟨m, i, ?_, heq⟩
    rw [insn_model, show (h.log (.insn_model pc)).mmu = h.mmu from rfl, hs] at hm
    cases hm
    exact hI.insn_model pc _ _ _ hs hh
  constructor
  · intro pc' h' hstep
    obtain ⟨m, i, hm, heq⟩ := hbegin fun s => by rw [hstep]; simp
    rw [hstep] at heq
    cases hd : dispatch (w.env mmu) insns i pc (h.setMachine m) with
    | next pc₂ h₂ =>
      rw [hd] at heq
      obtain ⟨-, rfl⟩ := Step.next.inj heq
      have hnext : I h₂.trace h₂.mmu := dispatch_tells hI hm hd
      exact hnext
    | trap_breakpoint h₂ =>
      rw [hd] at heq
      cases heq
    | stop e =>
      rw [hd] at heq
      cases heq
  · intro h' hstep
    obtain ⟨m, i, hm, heq⟩ := hbegin fun s => by rw [hstep]; simp
    rw [hstep] at heq
    cases hd : dispatch (w.env mmu) insns i pc (h.setMachine m) with
    | next pc₂ h₂ =>
      rw [hd] at heq
      cases heq
    | trap_breakpoint h₂ =>
      rw [hd] at heq
      obtain rfl := Step.trap_breakpoint.inj heq
      obtain ⟨rfl, -⟩ := dispatch_trap.mp hd
      exact hm
    | stop e =>
      rw [hd] at heq
      cases heq

/-- A turn of the loop of a thread. -/
theorem iterate_tells {t t' : Thread σ τ} (ht : I t.hart.trace t.hart.mmu)
    (hstep : t.iterate (w.env mmu) = some t') : I t'.hart.trace t'.hart.mmu := by
  unfold Thread.iterate at hstep
  split at hstep
  case h_1 => cases hstep
  case h_2 l hl =>
    split at hstep
    case h_1 => cases hstep
    case h_2 h₁ hit =>
      cases hstep
      exact (iteration_tells hI ht).2 h₁ hit
    case h_3 pc' h₁ hit =>
      have hnext := (iteration_tells hI ht).1 pc' h₁ hit
      split at hstep <;> cases hstep <;> exact hnext

/-- **What ties the model to the events** is kept by a run, if the rest of the process keeps it. -/
theorem run_tells {ο : Type} {f : ο → σ → σ} (hf : ∀ o l s, I l s → I l (f o s)) {as : List (ThreadAct τ ο)}
    {t t' : Thread σ τ} (hrun : Lib.run (Thread.step (w.env mmu) f) as t = some t')
    (ht : I t.hart.trace t.hart.mmu) : I t'.hart.trace t'.hart.mmu := by
  refine Lib.run_invariant (P := fun t => I t.hart.trace t.hart.mmu) (fun t a t₁ _ ht hstep => ?_) ht hrun
  cases a with
  | interpreter how_many =>
    unfold Thread.step Thread.interpreter at hstep
    dsimp only at hstep
    split at hstep
    · cases hstep
      exact ht
    · cases hstep
  | iterate => exact iterate_tells hI ht hstep
  | elsewhere g o =>
    cases hstep
    exact hf o _ _ ht

end

/-! ## What an instruction announces -/

/-- What an instruction that goes on at `npc` announces beside itself. -/
def Onward (npc : Long) : Event → Prop
  | .insn_model _ => False
  | .jump_model t _ => t = npc
  | _ => True

/-- What does not jump may go on anywhere. -/
theorem does_onward {mmu : Mmu σ} {act : Act σ τ α} (hact : Does (Effect mmu) act) {m m' : Machine σ τ} {a : α}
    (hrun : act m = .ok (a, m')) (npc : Long) : Grown (Onward npc) m.trace m'.trace := by
  have heffects := hact m a m' hrun
  clear hrun
  induction heffects with
  | refl => exact grown_refl _
  | tail _ h ih =>
    refine grown_trans ih ?_
    cases h with
    | xpr x | mem d => exact grown_refl _
    | load_model b pc hs | store_model b pc hs => exact grown_cons trivial _

theorem jump_onward {npc pc a : Long} {m m' : Machine Unit τ} (hrun : jump_model mmu_t npc pc m = .ok (a, m')) :
    Grown (Onward a) m.trace m'.trace := by
  cases hrun
  have hto : Onward npc (.jump_model npc pc) := rfl
  exact grown_cons hto _

/-- A line announces no jump but to the pc that it returns. The cases are the kinds of lines; one
that jumps returns what the jump model has returned. -/
theorem line_onward {i : Insn} {pc : Long} {code : InsnSpace} {act : Act Unit τ Long}
    (hact : Line i pc mmu_t code act) {m m' : Machine Unit τ} {npc : Long} (hrun : act m = .ok (npc, m')) :
    Grown (Onward npc) m.trace m'.trace := by
  induction hact generalizing m with
  | bind hx _ ihf =>
    obtain ⟨a, m₁, hxm, hfm⟩ := bind_ok_inv hrun
    exact grown_trans (does_onward (does_expr hx) hxm npc) (ihf a hfm)
  | compute len he => exact does_onward (does_compute len he) hrun npc
  | store len n => exact does_onward (does_store len n) hrun npc
  | jump t => exact jump_onward hrun
  | branch len c =>
    unfold branch at hrun
    split at hrun
    · exact jump_onward hrun
    · cases hrun
      exact grown_refl _
  | link len t =>
    obtain ⟨a, m₁, hjump, hrest⟩ := bind_ok_inv hrun
    obtain ⟨u, m₂, hwrite, hpure⟩ := bind_ok_inv hrest
    cases hpure
    have hquiet : Does (Effect mmu_t) (writeX i.op_rd (pc + len) : Act Unit τ Unit) := does_writeX _ _
    -- the pc is what the jump model returned
    exact grown_trans (jump_onward hjump) (does_onward hquiet hwrite _)
  | casLine len n =>
    obtain ⟨b, m₁, hcas, hrest⟩ := bind_ok_inv hrun
    have hquiet : Does (Effect mmu_t) (cas pc code n : Act Unit τ Bool) := does_cas pc code n
    refine grown_trans (does_onward hquiet hcas npc) ?_
    split at hrest
    · obtain ⟨c, m₂, hfetch, hjump⟩ := bind_ok_inv hrest
      exact grown_trans (does_onward (does_fetch (R := Effect mmu_t) code _) hfetch npc) (jump_onward hjump)
    · cases hrest
      exact grown_refl _

/-- Spike's functions jump with `set_pc`, which sets the pc that they return. -/
def SetsPc (w : World τ) : Prop :=
  ∀ op r, w.golden op = some (.run r) → ∀ pc m npc m', (r pc).act mmu_t pc m = .ok (npc, m') →
    Grown (Onward npc) m.trace m'.trace

/-- **An instruction that goes on.** -/
theorem iteration_announces {w : World τ} (hset : SetsPc w) {insns : Int} {pc pc' : Long} {h h' : Hart Unit τ}
    (hstep : iteration (w.env mmu_t) insns pc h = .next pc' h') :
    Grown (Onward pc') (.insn_model pc :: h.trace) h'.trace := by
  obtain ⟨m, s, i, hm, hs, -, heq⟩ := iteration_world fun s => by rw [hstep]; simp
  obtain rfl : m = h.log (.insn_model pc) := by
    cases hm
    rfl
  rw [hstep] at heq
  cases hd : dispatch (w.env mmu_t) insns i pc (h.setMachine (h.log (.insn_model pc))) with
  | next pc₂ h₂ =>
    rw [hd] at heq
    obtain ⟨rfl, rfl⟩ := Step.next.inj heq
    show Grown (Onward pc') (h.setMachine (h.log (.insn_model pc))).trace h₂.trace
    cases dispatch_cases (w.env mmu_t) hd with
    | ecall _ hcall =>
      obtain ⟨sysnum, g, -, -, -, -, rfl⟩ := proxy_ecall_world.mp hcall
      exact grown_cons trivial _
    | fast _ hact hrun => exact line_onward (action_line hact) hrun
    | golden _ _ hf hrun =>
      obtain ⟨sp, hsp, rfl⟩ := Option.map_eq_some_iff.mp hf
      cases sp with
      | trap_breakpoint => cases hrun
      | run r =>
        unfold Spike.golden at hrun
        dsimp only at hrun
        split at hrun
        case h_1 npc m₁ hr =>
          cases hrun
          exact hset _ r hsp pc _ _ _ hr
        case h_2 => cases hrun
  | trap_breakpoint h₂ =>
    rw [hd] at heq
    cases heq
  | stop e =>
    rw [hd] at heq
    cases heq

end Cavatools.Uspike
