import Cavatools.Uspike.Cas
import Cavatools.Uspike.Keeps
import Cavatools.Uspike.Stepwise

/-!
# The data accesses of an instruction

Which address an instruction accesses, and whether it may write there, is read
off the instruction and the registers it starts with, without running it:
`Insn.accesses` has it for the lines of RV.fast, in one definition over how a
line touches memory (`Touch`). What the models are told when the instruction
does run is another matter, and this file compares the two.

A relation `R l s s'` on the states of a model says that from `s` to `s'` it
was told of the accesses `l`. `Looks` is what is asked of such a relation: it
composes, the models of instructions and jumps tell it nothing, and each data
model tells it of one access. Then each line of RV.fast tells it of its own
accesses (`action_looks`), by going through the steps of the line's action; a
line that makes none is the same without the data models (`Mmu.quiet`), so it
cannot have told them anything. The exception is a substituted
compare-and-swap, which goes to memory past the models.

Spike's functions are outside the repository. They reach memory as members of
`mmu_t` (`Member`), each of which tells the models of its access, and
`EnvLooks` lists the accesses of each function. With that a turn of the
interpreter's loop tells the models of exactly the accesses of its
instruction, and of none where that is a compare-and-swap (`iterate_looks`).
-/

namespace Cavatools.Uspike

variable {σ τ α β : Type}

/-! ## What is accessed -/

/-- How a line of RV.fast accesses memory. -/
inductive Touch
  | load
  | store
  | cas
  deriving DecidableEq

def COp.touch : COp → Option Touch
  | .c_lw | .c_ld | .c_lwsp | .c_ldsp => some .load
  | .c_sw | .c_sd | .c_swsp | .c_sdsp => some .store
  | _ => none

def FastOp.touch : FastOp → Option Touch
  | .lb | .lh | .lw | .ld | .lbu | .lhu | .lwu => some .load
  | .sb | .sh | .sw | .sd => some .store
  | .cas12_w | .cas12_d | .cas10_w | .cas10_d => some .cas
  | _ => none

def Opcode.touch : Opcode → Option Touch
  | .c op => op.touch
  | .fast op => op.touch
  | _ => none

/-- The accesses of a line, in the state it starts in; the flag is set where it may write. -/
def Insn.accesses (i : Insn) (m : Machine σ τ) : List (Long × Bool) :=
  match i.opcode.touch with
  | none => []
  | some .load => [(m.xpr (i.rs1.setWidth 5) + i.immed, false)]
  | some .store => [(m.xpr (i.rs1.setWidth 5) + i.immed, true)]
  | some .cas => [(m.xpr (i.rs1.setWidth 5), true)]

/-- A line that accesses memory is a line. -/
theorem action_isSome {i : Insn} {t : Touch} (pc : Long) (mmu : Mmu σ) (code : InsnSpace)
    (h : i.opcode.touch = some t) :
    (i.opcode.action i pc mmu code : Option (Act σ τ Long)).isSome = true := by
  cases hop : i.opcode with
  | c op =>
    rw [hop] at h
    cases op <;> first | rfl | cases h
  | fast op =>
    rw [hop] at h
    cases op <;> first | rfl | cases h
  | ZERO | spike _ | ILLEGAL | UNKNOWN =>
    rw [hop] at h
    cases h

/-! ## The members of `mmu_t` -/

/-- `amo_uint32` and `amo_uint64`, for the hart whose swap succeeds. -/
def amo_uint (mmu : Mmu σ) (n : Nat) (a pc : Long) (f : BitVec (8 * n) → BitVec (8 * n)) :
    Act σ τ (BitVec (8 * n)) := do
  let lhs := (← get).mem.load a n
  modify fun m => { m with mem := m.mem.store a n (f lhs) }
  amo_model mmu a pc
  return lhs

/-- A call of a member by one of Spike's functions. -/
inductive Member
  | jump_model (npc : Long)
  | load_int (n : Nat) (a : Long)
  | load_uint (n : Nat) (a : Long)
  | store_int (n : Nat) (a v : Long)
  | amo_uint (n : Nat) (a : Long) (f : BitVec (8 * n) → BitVec (8 * n))

def Member.act (mmu : Mmu σ) (pc : Long) : Member → Act σ τ Unit
  | .jump_model npc => do let _ ← Uspike.jump_model mmu npc pc
  | .load_int n a => do let _ ← Uspike.load_int mmu n a pc
  | .load_uint n a => do let _ ← Uspike.load_uint mmu n a pc
  | .store_int n a v => Uspike.store_int mmu n a pc v
  | .amo_uint n a f => do let _ ← Uspike.amo_uint mmu n a pc f

def Member.accesses : Member → List (Long × Bool)
  | .jump_model _ => []
  | .load_int _ a | .load_uint _ a => [(a, false)]
  | .store_int _ a _ | .amo_uint _ a _ => [(a, true)]

def members (mmu : Mmu σ) (pc : Long) : List Member → Act σ τ Unit
  | [] => pure ()
  | c :: cs => do
    c.act mmu pc
    members mmu pc cs

/-! ## What the models are told -/

/-- `R l s s'`: from state `s` of the model to `s'` it was told of the accesses `l`. -/
structure Looks (mmu : Mmu σ) (R : List (Long × Bool) → σ → σ → Prop) : Prop where
  refl : ∀ s, R [] s s
  trans : ∀ l l' s t u, R l s t → R l' t u → R (l ++ l') s u
  insn_model : ∀ pc s s', mmu.insn_model pc s = some s' → R [] s s'
  jump_model : ∀ npc pc s a s', mmu.jump_model npc pc s = some (a, s') → R [] s s'
  load_model : ∀ a pc s b s', mmu.load_model a pc s = some (b, s') → R [(a, false)] s s'
  store_model : ∀ a pc s b s', mmu.store_model a pc s = some (b, s') → R [(a, true)] s s'
  amo_model : ∀ a pc s s', mmu.amo_model a pc s = some s' → R [(a, true)] s s'

/-! ## An action by its steps -/

theorem bind_ok_inv {x : Act σ τ α} {f : α → Act σ τ β} {m m' : Machine σ τ} {b : β}
    (h : (x >>= f) m = .ok (b, m')) : ∃ a m₁, x m = .ok (a, m₁) ∧ f a m₁ = .ok (b, m') := by
  have hrun : (x m).bind (fun p => f p.1 p.2) = .ok (b, m') := h
  cases hx : x m with
  | error e =>
    rw [hx] at hrun
    cases hrun
  | ok p =>
    rw [hx] at hrun
    exact ⟨p.1, p.2, rfl, hrun⟩

theorem readX_ok_inv {r : BitVec 8} {m m' : Machine σ τ} {v : Long} (h : readX r m = .ok (v, m')) :
    v = m.xpr (r.setWidth 5) ∧ m' = m := by
  unfold readX at h
  split at h <;> cases h
  exact ⟨rfl, rfl⟩

theorem writeX_ok_inv {r : BitVec 8} {v : Long} {m m' : Machine σ τ} {u : Unit}
    (h : writeX r v m = .ok (u, m')) : m'.mmu = m.mmu := by
  unfold writeX at h
  split at h <;> cases h
  rfl

section
variable {mmu : Mmu σ} {R : List (Long × Bool) → σ → σ → Prop} (hL : Looks mmu R)
include hL

theorem looks_load_model {a pc b : Long} {m m' : Machine σ τ}
    (h : load_model mmu a pc m = .ok (b, m')) : R [(a, false)] m.mmu m'.mmu := by
  rw [load_model] at h
  split at h
  case h_1 s hs =>
    cases h
    exact hL.load_model a pc _ _ _ hs
  case h_2 => cases h

theorem looks_store_model {a pc b : Long} {m m' : Machine σ τ}
    (h : store_model mmu a pc m = .ok (b, m')) : R [(a, true)] m.mmu m'.mmu := by
  rw [store_model] at h
  split at h
  case h_1 s hs =>
    cases h
    exact hL.store_model a pc _ _ _ hs
  case h_2 => cases h

theorem looks_load_int {n : Nat} {a pc v : Long} {m m' : Machine σ τ}
    (h : load_int mmu n a pc m = .ok (v, m')) : R [(a, false)] m.mmu m'.mmu := by
  obtain ⟨b, m₁, hload, hrest⟩ := bind_ok_inv h
  cases hrest
  exact looks_load_model hL hload

theorem looks_load_uint {n : Nat} {a pc v : Long} {m m' : Machine σ τ}
    (h : load_uint mmu n a pc m = .ok (v, m')) : R [(a, false)] m.mmu m'.mmu := by
  obtain ⟨b, m₁, hload, hrest⟩ := bind_ok_inv h
  cases hrest
  exact looks_load_model hL hload

theorem looks_store_int {n : Nat} {a pc v : Long} {u : Unit} {m m' : Machine σ τ}
    (h : store_int mmu n a pc v m = .ok (u, m')) : R [(a, true)] m.mmu m'.mmu := by
  obtain ⟨b, m₁, hstore, hrest⟩ := bind_ok_inv h
  have hlook := looks_store_model hL hstore
  cases hrest
  exact hlook

/-- `amo_uint` works on the word itself, and tells the model of its access behind the swap. -/
theorem looks_amo_uint {n : Nat} {a pc : Long} {f : BitVec (8 * n) → BitVec (8 * n)} {v : BitVec (8 * n)}
    {m m' : Machine σ τ} (h : amo_uint mmu n a pc f m = .ok (v, m')) : R [(a, true)] m.mmu m'.mmu := by
  obtain ⟨m₀, m₁, hget, hrest⟩ := bind_ok_inv h
  cases hget
  -- the load and the store are on the atomic word itself, not through a model
  obtain ⟨u, m₂, hmod, hrest⟩ := bind_ok_inv hrest
  cases hmod
  obtain ⟨u, m₃, hamo, hrest⟩ := bind_ok_inv hrest
  cases hrest
  rw [amo_model] at hamo
  split at hamo
  case h_1 s hs =>
    cases hamo
    exact hL.amo_model a pc _ _ hs
  case h_2 => cases hamo

/-- A member tells the models of its own access. -/
theorem looks_member {pc : Long} {c : Member} {u : Unit} {m m' : Machine σ τ}
    (h : c.act mmu pc m = .ok (u, m')) : R c.accesses m.mmu m'.mmu := by
  cases c with
  | jump_model npc =>
    obtain ⟨a, m₁, hjump, hrest⟩ := bind_ok_inv h
    cases hrest
    rw [Uspike.jump_model] at hjump
    split at hjump
    case h_1 s hs =>
      cases hjump
      exact hL.jump_model npc pc _ _ _ hs
    case h_2 => cases hjump
  | load_int n a =>
    obtain ⟨v, m₁, hload, hrest⟩ := bind_ok_inv h
    cases hrest
    exact looks_load_int hL hload
  | load_uint n a =>
    obtain ⟨v, m₁, hload, hrest⟩ := bind_ok_inv h
    cases hrest
    exact looks_load_uint hL hload
  | store_int n a v => exact looks_store_int hL h
  | amo_uint n a f =>
    obtain ⟨v, m₁, hamo, hrest⟩ := bind_ok_inv h
    cases hrest
    exact looks_amo_uint hL hamo

theorem looks_members {pc : Long} {cs : List Member} {u : Unit} {m m' : Machine σ τ}
    (h : members mmu pc cs m = .ok (u, m')) : R (cs.flatMap Member.accesses) m.mmu m'.mmu := by
  -- on the calls, each from the state the one before it left
  induction cs generalizing m with
  | nil =>
    cases h
    exact hL.refl _
  | cons c cs ih =>
    obtain ⟨v, m₁, hc, hcs⟩ := bind_ok_inv h
    exact hL.trans _ _ _ _ _ (looks_member hL hc) (ih hcs)

/-! ## The lines of RV.fast -/

variable {i : Insn} {pc : Long} {code : InsnSpace}

omit hL in
/-- A load line. -/
theorem looks_compute {len : Nat} {ld : Long → Long → Act σ τ Long}
    (hld : ∀ a pc m v m', ld a pc m = .ok (v, m') → R [(a, false)] m.mmu m'.mmu) {pc' : Long}
    {m m' : Machine σ τ}
    (h : compute i pc len (do ld ((← r1 i) + imm i) pc) m = .ok (pc', m')) :
    R [(m.xpr (i.rs1.setWidth 5) + i.immed, false)] m.mmu m'.mmu := by
  obtain ⟨v, m₁, hexpr, hrest⟩ := bind_ok_inv h
  obtain ⟨base, m₂, hr1, hload⟩ := bind_ok_inv hexpr
  obtain ⟨rfl, rfl⟩ := readX_ok_inv hr1
  obtain ⟨u, m₃, hwrite, hpure⟩ := bind_ok_inv hrest
  cases hpure
  rw [writeX_ok_inv hwrite]
  exact hld _ _ _ _ _ hload

omit hL in
/-- A store line. -/
theorem looks_store {len : Nat} {st : Long → Long → Long → Act σ τ Unit}
    (hst : ∀ a pc v m u m', st a pc v m = .ok (u, m') → R [(a, true)] m.mmu m'.mmu) {pc' : Long}
    {m m' : Machine σ τ} (h : store i pc len st m = .ok (pc', m')) :
    R [(m.xpr (i.rs1.setWidth 5) + i.immed, true)] m.mmu m'.mmu := by
  obtain ⟨base, m₁, hr1, hrest⟩ := bind_ok_inv h
  obtain ⟨rfl, rfl⟩ := readX_ok_inv hr1
  obtain ⟨v, m₂, hr2, hrest⟩ := bind_ok_inv hrest
  obtain ⟨-, rfl⟩ := readX_ok_inv hr2
  obtain ⟨u, m₃, hstore, hpure⟩ := bind_ok_inv hrest
  cases hpure
  exact hst _ _ _ _ _ _ hstore

/-- The models with no data access left to tell them of. -/
def Mmu.quiet (mmu : Mmu σ) : Mmu σ :=
  { mmu with load_model := fun _ _ _ => none, store_model := fun _ _ _ => none, amo_model := fun _ _ _ => none }

theorem admits_quiet : Admits mmu.quiet (R []) where
  refl := hL.refl
  trans s t u := hL.trans [] [] s t u
  jump_model := hL.jump_model
  load_model _ _ _ _ _ h := by cases h
  store_model _ _ _ _ _ h := by cases h
  amo_model _ _ _ _ h := by cases h

omit hL in
/-- A line that makes no data access is the same without those models, and so is a
compare-and-swap. -/
theorem action_quiet (h : i.opcode.touch = none ∨ i.opcode.touch = some .cas) :
    (i.opcode.action i pc mmu.quiet code : Option (Act σ τ Long)) = i.opcode.action i pc mmu code := by
  cases hop : i.opcode with
  | c op =>
    rw [hop] at h
    cases op <;> first | rfl | (rcases h with h | h <;> cases h)
  | fast op =>
    rw [hop] at h
    cases op <;> first | rfl | (rcases h with h | h <;> cases h)
  | ZERO | spike _ | ILLEGAL | UNKNOWN => rfl

/-- Such a line tells the models of no access. -/
theorem action_looks_quiet (h : i.opcode.touch = none ∨ i.opcode.touch = some .cas) {act : Act σ τ Long}
    (hact : i.opcode.action i pc mmu code = some act) {pc' : Long} {m m' : Machine σ τ}
    (hrun : act m = .ok (pc', m')) : R [] m.mmu m'.mmu := by
  rw [← action_quiet h] at hact
  exact action_keeps (admits_quiet hL) hact _ _ _ hrun

theorem c_looks {op : COp} {t : Touch} (hop : op.touch = some t) {act : Act σ τ Long}
    (hact : op.fast i pc mmu = some act) {pc' : Long} {m m' : Machine σ τ} (hrun : act m = .ok (pc', m')) :
    R [(m.xpr (i.rs1.setWidth 5) + i.immed, t = .store)] m.mmu m'.mmu := by
  cases op <;> cases hop <;> obtain rfl := Option.some.inj hact
  case c_lw | c_ld | c_lwsp | c_ldsp =>
    exact looks_compute (fun _ _ _ _ _ h => looks_load_int hL h) hrun
  case c_sw | c_sd | c_swsp | c_sdsp =>
    exact looks_store (fun _ _ _ _ _ _ h => looks_store_int hL h) hrun

theorem fast_looks {op : FastOp} {t : Touch} (hop : op.touch = some t) (hcas : t ≠ .cas) {act : Act σ τ Long}
    (hact : op.fast i pc mmu code = some act) {pc' : Long} {m m' : Machine σ τ}
    (hrun : act m = .ok (pc', m')) :
    R [(m.xpr (i.rs1.setWidth 5) + i.immed, t = .store)] m.mmu m'.mmu := by
  cases op <;> cases hop <;> first | exact absurd rfl hcas | obtain rfl := Option.some.inj hact
  case lb | lh | lw | ld =>
    exact looks_compute (fun _ _ _ _ _ h => looks_load_int hL h) hrun
  case lbu | lhu | lwu =>
    exact looks_compute (fun _ _ _ _ _ h => looks_load_uint hL h) hrun
  case sb | sh | sw | sd =>
    exact looks_store (fun _ _ _ _ _ _ h => looks_store_int hL h) hrun

/-- **A line** tells the models of its own accesses, unless it is a compare-and-swap. -/
theorem action_looks {act : Act σ τ Long} (hact : i.opcode.action i pc mmu code = some act) {pc' : Long}
    {m m' : Machine σ τ} (hrun : act m = .ok (pc', m')) :
    R (if i.opcode.touch = some .cas then [] else i.accesses m) m.mmu m'.mmu := by
  cases ht : i.opcode.touch with
  | none =>
    unfold Insn.accesses
    rw [if_neg (by simp), ht]
    exact action_looks_quiet hL (Or.inl ht) hact hrun
  | some t =>
    by_cases hcas : t = .cas
    · -- `hart_t::cas` goes to memory by itself
      rw [if_pos (by rw [hcas])]
      exact action_looks_quiet hL (Or.inr (by rw [ht, hcas])) hact hrun
    · have hacc : i.accesses m = [(m.xpr (i.rs1.setWidth 5) + i.immed, decide (t = .store))] := by
        unfold Insn.accesses
        rw [ht]
        cases t with
        | load => rfl
        | store => rfl
        | cas => exact absurd rfl hcas
      rw [if_neg (by simpa using hcas), hacc]
      cases hop : i.opcode with
      | c op =>
        rw [hop] at ht hact
        exact c_looks hL ht hact hrun
      | fast op =>
        rw [hop] at ht hact
        exact fast_looks hL ht hcas hact hrun
      | ZERO | spike _ | ILLEGAL | UNKNOWN =>
        rw [hop] at ht
        cases ht

end

/-! ## An iteration -/

/-- Each model, each member that a function of Spike's calls, and the kernel tell `R` of
their accesses; `spike` lists those of Spike's functions. -/
structure EnvLooks (env : Env σ τ) (R : List (Long × Bool) → σ → σ → Prop)
    (spike : Opcode → Long → Machine σ τ → List (Long × Bool)) : Prop where
  looks : Looks env.mmu R
  golden : ∀ op f pc m pc' m', env.golden op = some f → f pc m = .next pc' m' →
    ∃ cs m₁, cs.flatMap Member.accesses = spike op pc m ∧ members env.mmu pc cs m = .ok ((), m₁) ∧
      m₁.mmu = m'.mmu
  golden_trap : ∀ op f pc m, env.golden op = some f → f pc m = .trap_breakpoint → spike op pc m = []
  proxy_syscall : ∀ sysnum h h', env.proxy_syscall sysnum h = .ok h' → R [] h.mmu h'.mmu

section
variable (env : Env σ τ) (spike : Opcode → Long → Machine σ τ → List (Long × Bool))

/-- The accesses of an instruction, by its line or by Spike's function. -/
def accessesOf (i : Insn) (pc : Long) (m : Machine σ τ) : List (Long × Bool) :=
  if i.opcode ≠ .fast .ecall ∧
      (i.opcode.action i pc env.mmu env.code : Option (Act σ τ Long)).isNone = true then
    spike i.opcode pc m
  else i.accesses m

namespace Thread

variable (t : Thread σ τ)

/-- The accesses of the instruction that the next turn of the loop executes. -/
def accesses : List (Long × Bool) :=
  match t.call with
  | none => []
  | some l =>
    match insn_model env.mmu l.pc t.hart.toMachine, env.code.at l.pc with
    | .ok (_, m), some i => accessesOf env spike i l.pc m
    | _, _ => []

/-- The next turn executes a substituted compare-and-swap. -/
def atCas : Bool :=
  match t.call with
  | none => false
  | some l =>
    match env.code.at l.pc with
    | none => false
    | some i => i.opcode.touch == some .cas

end Thread

end

section
variable {env : Env σ τ} {R : List (Long × Bool) → σ → σ → Prop}
  {spike : Opcode → Long → Machine σ τ → List (Long × Bool)} (hE : EnvLooks env R spike)
include hE

theorem proxy_ecall_looks {insns : Int} {h h' : Hart σ τ} (hcall : proxy_ecall env insns h = .ok h') :
    R [] h.mmu h'.mmu := by
  obtain ⟨sysnum, m, h₁, hsys, hm, rfl⟩ := proxy_ecall_ok hcall
  have hlook := hE.proxy_syscall sysnum _ h₁ hsys
  rw [← hm]
  exact hlook

/-- The switch tells the models of the instruction's accesses. -/
theorem dispatch_looks {insns : Int} {i : Insn} {pc pc' : Long} {h h' : Hart σ τ}
    (hstep : dispatch env insns i pc h = .next pc' h') :
    R (if i.opcode.touch = some .cas then [] else accessesOf env spike i pc h.toMachine) h.mmu h'.mmu := by
  cases dispatch_cases env hstep with
  | ecall hecall hcall =>
    have hacc : (if i.opcode.touch = some .cas then [] else accessesOf env spike i pc h.toMachine) = [] := by
      unfold accessesOf Insn.accesses
      rw [hecall]
      rfl
    -- an `ecall` is left to the kernel, which looks nothing up
    rw [hacc]
    have hlook := proxy_ecall_looks hE hcall
    exact hlook
  | fast hecall hact hrun =>
    have hacc : accessesOf env spike i pc h.toMachine = i.accesses h.toMachine := by
      unfold accessesOf
      rw [hact, if_neg (by simp)]
    rw [hacc]
    exact action_looks hE.looks hact hrun
  | golden hecall hact hf hrun =>
    have hacc : accessesOf env spike i pc h.toMachine = spike i.opcode pc h.toMachine := by
      unfold accessesOf
      rw [hact, if_pos ⟨hecall, rfl⟩]
    -- what goes to Spike is no line, so no compare-and-swap
    have htouch : i.opcode.touch ≠ some .cas := by
      intro ht
      have hsome := action_isSome (τ := τ) pc env.mmu env.code ht
      rw [hact] at hsome
      cases hsome
    rw [if_neg htouch, hacc]
    obtain ⟨cs, m₁, hcs, hmem, hmmu⟩ := hE.golden _ _ pc _ _ _ hf hrun
    rw [← hcs]
    have hlook := looks_members hE.looks hmem
    rw [hmmu] at hlook
    exact hlook

omit hE in
/-- A turn of the loop fetches and dispatches an instruction. -/
theorem iterate_model {t t' : Thread σ τ} (hstep : t.iterate env = some t') :
    ∃ l m s i, t.call = some l ∧ insn_model env.mmu l.pc t.hart.toMachine = .ok ((), m) ∧
      env.mmu.insn_model l.pc t.hart.mmu = some s ∧ m.mmu = s ∧ env.code.at l.pc = some i ∧
      iteration env l.insns l.pc t.hart = (dispatch env l.insns i l.pc (t.hart.setMachine m)).clear_x0 := by
  unfold Thread.iterate at hstep
  cases hc : t.call with
  | none =>
    rw [hc] at hstep
    cases hstep
  | some l =>
    rw [hc] at hstep
    dsimp only at hstep
    have hgo : ∀ s, iteration env l.insns l.pc t.hart ≠ .stop s := by
      intro s hs
      rw [hs] at hstep
      cases hstep
    obtain ⟨m, s, i, hrest⟩ := iteration_model hgo
    exact ⟨l, m, s, i, rfl, hrest⟩

/-- **A turn of the loop** tells the models of the accesses of its instruction, and of none
where that is a compare-and-swap. -/
theorem iterate_looks {t t' : Thread σ τ} (hstep : t.iterate env = some t') :
    R (if t.atCas env then [] else t.accesses env spike) t.hart.mmu t'.hart.mmu := by
  obtain ⟨l, m, s, i, hc, hm, hmodel, hms, hi, heq⟩ := iterate_model hstep
  have hlist : (if t.atCas env then [] else t.accesses env spike)
      = if i.opcode.touch = some .cas then [] else accessesOf env spike i l.pc m := by
    simp [Thread.atCas, Thread.accesses, hc, hi, hm]
  have hfirst : R [] t.hart.mmu m.mmu := hms ▸ hE.looks.insn_model l.pc _ s hmodel
  unfold Thread.iterate at hstep
  rw [hc] at hstep
  dsimp only at hstep
  rw [hlist]
  cases hd : dispatch env l.insns i l.pc (t.hart.setMachine m) with
  | next pc' h' =>
    rw [heq, hd] at hstep
    have hmmu : t'.hart.mmu = h'.mmu := by
      simp only [Step.clear_x0] at hstep
      split at hstep <;> cases hstep <;> rfl
    rw [hmmu]
    exact hE.looks.trans [] _ _ _ _ hfirst (dispatch_looks hE hd)
  | trap_breakpoint h' =>
    -- a function that throws has accessed nothing
    rw [heq, hd] at hstep
    obtain ⟨rfl, ⟨hecall, hact⟩, f, hf, hthrow⟩ := dispatch_trap.mp hd
    have hacc : accessesOf env spike i l.pc m = [] := by
      unfold accessesOf
      rw [hact, if_pos ⟨hecall, rfl⟩]
      exact hE.golden_trap _ f l.pc _ hf hthrow
    have hmmu : t'.hart.mmu = m.mmu := by
      cases hstep
      rfl
    rw [hacc, ite_self, hmmu]
    exact hfirst
  | stop e =>
    rw [heq, hd] at hstep
    cases hstep

end

/-- A compare-and-swap is one access, which may write. -/
theorem accesses_of_atCas {env : Env σ τ} {spike : Opcode → Long → Machine σ τ → List (Long × Bool)}
    {t t' : Thread σ τ} (hcas : t.atCas env = true) (hstep : t.iterate env = some t') :
    ∃ a, t.accesses env spike = [(a, true)] := by
  obtain ⟨l, m, -, i, hc, hm, -, -, hi, -⟩ := iterate_model hstep
  have htouch : i.opcode.touch = some .cas := by
    simpa [Thread.atCas, hc, hi] using hcas
  have hsome := action_isSome (τ := τ) l.pc env.mmu env.code htouch
  rw [Option.isSome_iff_ne_none] at hsome
  refine ⟨m.xpr (i.rs1.setWidth 5), ?_⟩
  simp [Thread.accesses, hc, hi, hm, accessesOf, hsome, Insn.accesses, htouch]

end Cavatools.Uspike
