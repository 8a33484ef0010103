import Cavatools.Uspike.Effects
import Cavatools.Uspike.Redecode
import Cavatools.Uspike.ShortLines

/-!
# The interpreter against the manual

A call of the interpreter on a loaded text executes the instructions of the
manual one for one: if the machine of the manual makes `n` steps, each from an
instruction start of the text with operands that the line of the code is right
for, then `interpreter(n)` returns with the registers, the memory and the pc
it ends with.

The two sides have different states. The machine of the manual has its pc, its
registers and its memory, and fetches; the hart has a predecoded text, a pc in
the locals of a call, counts, and a list of events. `Shows` relates a hart
inside a call to a state of the manual, and `iteration_step` is the simulation
of one step, by the cases of the manual's step: the decoder finds the entry of
the instruction, the line runs to the same registers, memory and pc, and the
loop clears register 0.

`Executable` is the condition on a state under which the code executes its
instruction as it is: what was loaded is still there, it is no load-reserved,
whose sequences are replaced by one instruction, and its operands are of those
that the line is right for. `Faithful` is the assumption about what is outside
the repository: for the instructions and the calls that go to Spike's
functions and to the kernel, the manual's side is a parameter that they
implement.

The loop is an induction over the steps (`loop_steps`), with the number of
instructions and the pc in the locals, and `interpreter_steps` is the call,
which writes both back.
-/

namespace Cavatools.Uspike

open Riscv (ArchState Mem Elsewhere Steps half)

variable {σ τ : Type}

/-- A line leaves the rest of the state alone. -/
theorem line_rest {mmu : Mmu σ} {i : Insn} {pc pc' : Long} {code : InsnSpace} {act : Act σ τ Long}
    (hact : Line i pc mmu code act) {m m' : Machine σ τ} (hrun : act m = .ok (pc', m')) : m'.rest = m.rest := by
  have heffects := does_line hact m pc' m' hrun
  clear hrun
  induction heffects with
  | refl => rfl
  | tail _ h ih =>
    rw [← ih]
    cases h with
    | effect h => cases h <;> rfl
    | jump_model npc pc hs => rfl

/-! ## One instruction -/

/-- A hart that is inside a call at `pc`, in a state of the manual. -/
structure Shows (h : Hart Unit τ) (pc : Long) (q : ArchState × τ) : Prop where
  arch : h.arch pc = q.1
  rest : h.rest = q.2
  zero : q.1.x 0 = 0

/-- What is outside the repository does what the manual's side has for it: a function of
Spike's for each instruction that has no line, and the kernel behind `proxy_ecall`. -/
structure Faithful (env : Env Unit τ) (chain : List Entry) (e : Elsewhere τ) : Prop where
  mmu : env.mmu = mmu_t
  other : ∀ w q q', e.other w q = some q' → q.1.x 0 = 0 →
    (decoder chain w).opcode ≠ .fast .ecall ∧
    (∀ pc, ((decoder chain w).opcode.action (decoder chain w) pc mmu_t env.code :
      Option (Act Unit τ Long)) = none) ∧
    ∃ f, env.golden (decoder chain w).opcode = some f ∧ ∀ m : Machine Unit τ, m.arch q.1.pc = q.1 →
      m.rest = q.2 → ∃ m', f q.1.pc m = .next q'.1.pc m' ∧ cleared q'.1.pc m' = q'.1 ∧ m'.rest = q'.2
  ecall : ∀ q q' h insns, e.ecall q = some q' → Shows h q.1.pc q →
    ∃ h', proxy_ecall env insns (h.write_pc q.1.pc) = .ok h' ∧ cleared (q.1.pc + 4) h'.toMachine = q'.1 ∧
      h'.rest = q'.2 ∧ h'.executed = h.executed ∧ h'.total_insns = h.total_insns

/-- The state is at an instruction of the loaded text that the code executes as it is: it is
still what was loaded, it is no load-reserved, and its operands are of those that the lines of
RV.fast are right for. -/
structure Executable (chain : List Entry) (image : Mem) (base limit : Long) (s : ArchState) : Prop where
  start : Start chain image base limit s.pc.toInt
  fetch : s.fetch = image.load s.pc 4
  notLr : ¬(decoder chain s.fetch).isLr
  shift : ∀ i : Riscv.Shift, i.Encodes s.fetch → (s.x (Riscv.rs2 s.fetch)).toNat < 64
  word : ∀ i : Riscv.Word, i.Encodes s.fetch → WordRight (s.x (i.src1 s.fetch)) (i.operand s.fetch s.x) i
  even : ∀ op, Riscv.Legal (half s.fetch) op → EvenTarget (half s.fetch) s.x op

/-- The text holds what the decoder makes of the instruction. -/
theorem at_executable {chain : List Entry} {image : Mem} {base limit entry : Long} {code : InsnSpace}
    (ht : TextOf chain image base limit entry code) {s : ArchState}
    (hs : Executable chain image base limit s) : code.at s.pc = some (decoder chain s.fetch) := by
  have hinsn : insnAt chain image s.pc.toInt = decoder chain s.fetch := by
    rw [insnAt, BitVec.ofInt_toInt, hs.fetch]
  have hat := ht.at_start hs.start
  rw [BitVec.ofInt_toInt, finalAt_of_not_isLr (by rw [hinsn]; exact hs.notLr), hinsn] at hat
  exact hat

section
variable {env : Env Unit τ} {pc : Long} {q q' : ArchState × τ} {h : Hart Unit τ}

/-- The state at the end of an iteration that goes on. -/
theorem shows_next {h' : Hart Unit τ} {pc' : Long} (harch : cleared pc' h'.toMachine = q'.1)
    (hrest : h'.rest = q'.2) : Shows h'.clear_x0 pc' q' := by
  refine ⟨harch, hrest, ?_⟩
  rw [← harch]
  exact Function.update_self 0 0 h'.xpr

/-- An iteration on an instruction that has a line. -/
theorem iteration_runs (hmmu : env.mmu = mmu_t) {D : Insn} (hat : env.code.at pc = some D)
    (hecall : D.opcode ≠ .fast .ecall) {s : ArchState} {t : τ} (hrest : h.rest = t)
    (hline : ∃ act, D.opcode.action D pc mmu_t env.code = some act ∧
      Runs act (h.log (.insn_model pc)) s) (insns : Int) :
    ∃ h', iteration env insns pc h = .next s.pc h' ∧ Shows h' s.pc (s, t) ∧
      h'.executed = h.executed ∧ h'.total_insns = h.total_insns := by
  obtain ⟨act, hact, pc', m', hrun, rfl⟩ := hline
  have hkeeps := line_rest (action_line hact) hrun
  refine ⟨((h.setMachine (h.log (.insn_model pc))).setMachine m').clear_x0, ?_,
    shows_next rfl (hkeeps.trans hrest), rfl, rfl⟩
  have hmodel : insn_model env.mmu pc h.toMachine = .ok ((), h.log (.insn_model pc)) := by
    rw [hmmu]
    rfl
  rw [iteration_eq env hmodel hat, dispatch_fast env hecall (by rw [hmmu]; exact hact) hrun]
  rfl

variable {order : List FastOp} {tail : List Entry} {image : Mem} {base limit entry : Long} {e : Elsewhere τ}

theorem decode_ecall (hlisted : ∀ op, (fastEntry op).isSome → op ∈ order) (tail : List Entry) {w : BitVec 32}
    (hw : w = 0x73) : (decoder (rvcChain ++ fastChain order ++ tail) w).opcode = .fast .ecall := by
  have hentry : fastEntry .ecall = some ((fastEntry .ecall).get rfl) := (Option.some_get _).symm
  rw [hw, fast_first hentry (by decide) (hlisted _ rfl) tail, Entry.build_opcode]
  rfl

/-- Among the instructions of the manual it is only `ecall` that decodes to `ecall`. -/
theorem fetch_of_ecall (hlisted : ∀ op, (fastEntry op).isSome → op ∈ order)
    (hF : Faithful env (rvcChain ++ fastChain order ++ tail) e) (hzero : q.1.x 0 = 0)
    (hstep : Riscv.Step e q q')
    (hop : (decoder (rvcChain ++ fastChain order ++ tail) q.1.fetch).opcode = .fast .ecall) :
    q.1.fetch = 0x73 := by
  cases hstep with
  | @rv64i s t i henc =>
    rw [rv64i_first henc (hlisted _ (rv64i_isSome i)) tail, (decoded_build i s.fetch).opcode] at hop
    cases i <;> cases hop
  | @shift s t i henc =>
    obtain ⟨entry, hentry⟩ : ∃ entry, fastEntry (shiftOp i) = some entry := by cases i <;> exact ⟨_, rfl⟩
    rw [fast_first hentry (shift_test hentry henc) (hlisted _ (by cases i <;> rfl)) tail, Entry.build_opcode,
      (shift_bytes i entry hentry).1] at hop
    cases i <;> cases hop
  | @word s t i hfull henc =>
    rw [(word_decoded henc (fun op hop => hlisted op (wordFull_listed i op hop).2) tail).opcode] at hop
    cases i <;> cases hop
  | @compressed s s' t op hlegal hexec =>
    rw [List.append_assoc, rvc_first hlegal, (shortDecoded_build op s.fetch).opcode] at hop
    cases hop
  | ecall henc hcall => exact henc
  | @other s t _ hother => exact absurd hop (hF.other s.fetch (s, t) q' hother hzero).1

/-- **One iteration** is one instruction of the manual. -/
theorem iteration_step (hlisted : ∀ op, (fastEntry op).isSome → op ∈ order)
    (ht : TextOf (rvcChain ++ fastChain order ++ tail) image base limit entry env.code)
    (hF : Faithful env (rvcChain ++ fastChain order ++ tail) e)
    (hC : Executable (rvcChain ++ fastChain order ++ tail) image base limit q.1)
    (hq : Shows h q.1.pc q) (hstep : Riscv.Step e q q') (insns : Int) :
    ∃ h', iteration env insns q.1.pc h = .next q'.1.pc h' ∧ Shows h' q'.1.pc q' ∧
      h'.executed = h.executed ∧ h'.total_insns = h.total_insns := by
  have hat := at_executable ht hC
  -- the machine that the line runs on, once the model was told
  have harch : (h.log (.insn_model q.1.pc)).arch q.1.pc = q.1 := hq.arch
  have h0 : (h.log (.insn_model q.1.pc)).xpr 0 = 0 := by
    rw [show (h.log (.insn_model q.1.pc)).xpr = q.1.x from congrArg ArchState.x hq.arch]
    exact hq.zero
  have hx : (h.log (.insn_model q.1.pc)).xpr = q.1.x := congrArg ArchState.x hq.arch
  cases hstep with
  | @rv64i s t i henc =>
    rw [rv64i_first henc (hlisted _ (rv64i_isSome i)) tail] at hat
    have hD := decoded_build i s.fetch
    have hecall : ((rv64iEntry i).build s.fetch).opcode ≠ .fast .ecall := by
      rw [hD.opcode]
      cases i <;> decide
    have hline := fast_runs hD env.code s.pc h0
    rw [harch] at hline
    exact iteration_runs hF.mmu hat hecall hq.rest hline insns
  | @shift s t i henc =>
    have hlt := hC.shift i henc
    rw [← hx] at hlt
    obtain ⟨hop, hline⟩ := shift_line_runs henc (hlisted _ (by cases i <;> rfl)) tail env.code s.pc h0 hlt
    rw [harch, hx] at hline
    exact iteration_runs hF.mmu hat (by rw [hop]; cases i <;> decide) hq.rest hline insns
  | @word s t i hfull henc =>
    have hsome : (wordFull i).isSome := by
      obtain ⟨h1, h2, h3⟩ := hfull
      cases i <;> first | rfl | exact absurd rfl ‹_›
    have hright := hC.word i henc
    rw [← hx] at hright
    have horder : ∀ op ∈ wordFull i, op ∈ order := fun op hop => hlisted op (wordFull_listed i op hop).2
    have hline := word_line_runs hsome henc horder tail env.code s.pc h0 hright
    have hecall : (decoder (rvcChain ++ fastChain order ++ tail) s.fetch).opcode ≠ .fast .ecall := by
      rw [(word_decoded henc horder tail).opcode]
      cases i <;> decide
    rw [harch, hx] at hline
    exact iteration_runs hF.mmu hat hecall hq.rest hline insns
  | @compressed s s' t op hlegal hexec =>
    have hfirst : decoder (rvcChain ++ fastChain order ++ tail) s.fetch = (rvcEntry op).build s.fetch := by
      rw [List.append_assoc]
      exact rvc_first hlegal _
    rw [hfirst] at hat
    have hD := shortDecoded_build op s.fetch
    have heven := hC.even op hlegal
    rw [← hx] at heven
    have hexec' : Riscv.execC (half s.fetch) ((h.log (.insn_model s.pc)).arch s.pc) op = some s' :=
      (congrArg (Riscv.execC (half s.fetch) · op) harch).trans hexec
    have hline := short_runs hD env.code s.pc h0 heven hexec'
    exact iteration_runs hF.mmu hat (by rw [hD.opcode]; exact Opcode.noConfusion) hq.rest hline insns
  | @ecall s t _ henc hcall =>
    have hdecode := decode_ecall hlisted tail henc
    obtain ⟨h', hproxy, hend, hrest, hexec, htotal⟩ :=
      hF.ecall (s, t) q' (h.setMachine (h.log (.insn_model s.pc))) insns hcall ⟨harch, hq.rest, hq.zero⟩
    have hpc : q'.1.pc = s.pc + 4 := (congrArg ArchState.pc hend).symm
    refine ⟨h'.clear_x0, ?_, ?_, hexec, htotal⟩
    · rw [hpc, iteration_eq env (by rw [hF.mmu]; rfl) hat]
      unfold dispatch
      rw [if_pos hdecode, hproxy]
      rfl
    · rw [hpc]
      exact shows_next hend hrest
  | @other s t _ hother =>
    obtain ⟨hecall, hnone, f, hf, hrun⟩ := hF.other s.fetch (s, t) q' hother hq.zero
    obtain ⟨m', hnext, hend, hrest⟩ := hrun (h.log (.insn_model s.pc)) harch hq.rest
    refine ⟨((h.setMachine (h.log (.insn_model s.pc))).setMachine m').clear_x0, ?_, shows_next hend hrest,
      rfl, rfl⟩
    have hnone' : ((decoder (rvcChain ++ fastChain order ++ tail) s.fetch).opcode.action
        (decoder (rvcChain ++ fastChain order ++ tail) s.fetch) s.pc env.mmu env.code :
        Option (Act Unit τ Long)) = none := by
      rw [hF.mmu]
      exact hnone s.pc
    rw [iteration_eq env (by rw [hF.mmu]; rfl) hat]
    unfold dispatch
    rw [if_neg hecall, hnone']
    dsimp only
    rw [hf]
    dsimp only
    rw [show f s.pc (h.setMachine (h.log (.insn_model s.pc))).toMachine = .next q'.1.pc m' from hnext]
    rfl

/-! ## A call -/

/-- **The loop**, with `n + 1` instructions to go. -/
theorem loop_steps (hlisted : ∀ op, (fastEntry op).isSome → op ∈ order)
    (ht : TextOf (rvcChain ++ fastChain order ++ tail) image base limit entry env.code)
    (hF : Faithful env (rvcChain ++ fastChain order ++ tail) e) {n : Nat} (insns : Int)
    (hq : Shows h q.1.pc q)
    (hsteps : Steps e (Executable (rvcChain ++ fastChain order ++ tail) image base limit) (n + 1) q q') :
    ∃ h', loop env (insns + (n + 1)) insns q.1.pc h = .returned false h' ∧ Shows h' q'.1.pc q' ∧
      h'.pc = q'.1.pc ∧ h'.executed = h.executed + insns + (n + 1) ∧
      h'.total_insns = h.total_insns + insns + (n + 1) := by
  -- on the number of instructions to go; each iteration is a step
  induction n generalizing insns q h with
  | zero =>
    cases hsteps with
    | succ hC hstep hrest =>
      cases hrest
      obtain ⟨h₁, hit, hshows, hexec, htotal⟩ := iteration_step hlisted ht hF hC hq hstep insns
      refine ⟨(h₁.write_pc q'.1.pc).incr_count (insns + 1), ?_,
        ⟨hshows.arch, hshows.rest, hshows.zero⟩, rfl, ?_, ?_⟩
      · rw [loop, hit]
        exact if_neg (by omega)
      · show h₁.executed + (insns + 1) = _
        omega
      · show h₁.total_insns + (insns + 1) = _
        omega
  | succ n ih =>
    cases hsteps with
    | succ hC hstep hrest =>
      obtain ⟨h₁, hit, hshows, hexec, htotal⟩ := iteration_step hlisted ht hF hC hq hstep insns
      obtain ⟨h', hloop, hshows', hpc, hexec', htotal'⟩ := ih (insns + 1) hshows hrest
      refine ⟨h', ?_, hshows', hpc, by push_cast; omega, by push_cast; omega⟩
      rw [loop, hit]
      dsimp only
      rw [if_pos (by push_cast; omega), ← hloop]
      congr 1
      push_cast
      ring

/-- A call returns with the state that the manual ends with. -/
theorem call_steps (hlisted : ∀ op, (fastEntry op).isSome → op ∈ order)
    (ht : TextOf (rvcChain ++ fastChain order ++ tail) image base limit entry env.code)
    (hF : Faithful env (rvcChain ++ fastChain order ++ tail) e) (hq : Shows h h.pc q) {n : Nat} (hn : 1 ≤ n)
    (hsteps : Steps e (Executable (rvcChain ++ fastChain order ++ tail) image base limit) n q q') :
    ∃ h', interpreter env n h = .returned false h' ∧ Shows h' h'.pc q' ∧
      h'.executed = h.executed + n ∧ h'.total_insns = h.total_insns + n := by
  obtain ⟨k, rfl⟩ : ∃ k, n = k + 1 := ⟨n - 1, by omega⟩
  have hpc : q.1.pc = h.pc := (congrArg ArchState.pc hq.arch).symm
  rw [← hpc] at hq
  obtain ⟨h', hloop, hshows, hend, hexec, htotal⟩ := loop_steps hlisted ht hF 0 hq hsteps
  refine ⟨h', ?_, ?_, by push_cast; omega, by push_cast; omega⟩
  · unfold interpreter
    rw [← hpc, ← hloop]
    congr 1
    push_cast
    ring
  · rw [hend]
    exact hshows

/-- **A call of the interpreter** on a loaded text executes as many instructions of the manual
as it was asked for: it returns with the registers, the memory and the pc that the manual ends
with, and has counted them. -/
theorem interpreter_steps (hlisted : ∀ op, (fastEntry op).isSome → op ∈ order)
    (hload : loadelf (rvcChain ++ fastChain order ++ tail) image base limit entry = .text env.code)
    (hF : Faithful env (rvcChain ++ fastChain order ++ tail) e) (hq : Shows h h.pc q) {n : Nat} (hn : 1 ≤ n)
    (hsteps : Steps e (Executable (rvcChain ++ fastChain order ++ tail) image base limit) n q q') :
    ∃ h', interpreter env n h = .returned false h' ∧ h'.arch h'.pc = q'.1 ∧ h'.rest = q'.2 ∧
      h'.executed = h.executed + n ∧ h'.total_insns = h.total_insns + n := by
  obtain ⟨h', hcall, hshows, hexec, htotal⟩ := call_steps hlisted (loadelf_textOf hload) hF hq hn hsteps
  exact ⟨h', hcall, hshows.arch, hshows.rest, hexec, htotal⟩

end

/-! ### The text of two instructions -/

/-- Nothing is elsewhere. -/
def nopLiElsewhere : Elsewhere Unit := ⟨fun _ _ => none, fun _ => none⟩

theorem faithful_nothing {env : Env Unit Unit} (hmmu : env.mmu = mmu_t) (chain : List Entry) :
    Faithful env chain nopLiElsewhere := by
  refine ⟨hmmu, fun _ _ _ h => ?_, fun _ _ _ _ h => ?_⟩
  · cases h
  · cases h

def nopLiEnv : Env Unit Unit := ⟨nopLi, mmu_t, fun _ => none, 0, fun _ => none, fun _ h => .ok h⟩

/-- At the first instruction. -/
def nopLiState : ArchState := ⟨fun _ => 0, 0x1000, nopLiMem⟩

def nopLiHart : Hart Unit Unit := ⟨⟨fun _ => 0, nopLiMem, (), (), []⟩, 0x1000, 0, 0⟩

/-- No load-reserved, no shift that the lines get wrong for some operands, and no jump by a register. -/
def PlainWord (w : BitVec 32) : Prop :=
  ¬(decoder listedChain w).isLr ∧ (∀ i : Riscv.Shift, ¬i.Encodes w) ∧
    (∀ i ∈ [Riscv.Word.slliw, .srliw, .sllw, .srlw, .sraw], ¬i.Encodes w) ∧
    ¬Riscv.Legal (half w) .c_jr ∧ ¬Riscv.Legal (half w) .c_jalr

theorem executable_of_plainWord {image : Mem} {base limit : Long} {s : ArchState}
    (hstart : Start listedChain image base limit s.pc.toInt) (hfetch : s.fetch = image.load s.pc 4)
    (hplain : PlainWord s.fetch) : Executable listedChain image base limit s := by
  obtain ⟨hlr, hshift, hword, hjr, hjalr⟩ := hplain
  refine ⟨hstart, hfetch, hlr, fun i h => absurd h (hshift i), fun i h => ?_, ?_⟩
  · by_cases hi : i ∈ [Riscv.Word.slliw, .srliw, .sllw, .srlw, .sraw]
    · exact absurd h (hword i hi)
    · cases i <;> trivial
  · rintro op hop (rfl | rfl)
    · exact absurd hop hjr
    · exact absurd hop hjalr

/-- Words that are neither among the operations on two registers or on words, nor compressed jumps
through a register. -/
theorem plainWord_of {w : BitVec 32} (hlr : ¬(decoder listedChain w).isLr)
    (hshift : Riscv.opcode w ∉ [0x33#7, 0x1b, 0x3b]) (hjump : Riscv.cOp (half w) ≠ 0b10) : PlainWord w := by
  have hnot (n : BitVec 7) (hn : n ∈ [0x33#7, 0x1b, 0x3b]) : Riscv.opcode w ≠ n := fun h => hshift (h ▸ hn)
  refine ⟨hlr, ?_, ?_, fun h => hjump h.1, fun h => hjump h.1⟩
  · intro i h
    cases i <;> exact hnot 0x33 (by decide) h.1
  · intro i hi h
    fin_cases hi
    · exact hnot 0x1b (by decide) h.1
    · exact hnot 0x1b (by decide) h.1
    · exact hnot 0x3b (by decide) h.1
    · exact hnot 0x3b (by decide) h.1
    · exact hnot 0x3b (by decide) h.1

/-- Both of them, in one call. -/
theorem interpreter_steps_nopLi : ∃ h', interpreter nopLiEnv 2 nopLiHart = .returned false h' ∧
    h'.pc = 0x1004 ∧ h'.xpr 10 = 1 := by
  have hfirst : Start listedChain nopLiMem 0x1000 0x1004 0x1000 := Lib.Sweep.visits_self (by decide)
  have hsecond : Start listedChain nopLiMem 0x1000 0x1004 0x1002 := ⟨hfirst.next, by decide⟩
  have hF : Faithful nopLiEnv listedChain nopLiElsewhere := faithful_nothing rfl _
  let s₁ := nopLiState.wrote 0 0 2
  let s₂ := s₁.wrote 10 1 2
  have hw₀ : nopLiState.fetch = 0x45050001 := by decide
  have hw₁ : s₁.fetch = 0x00004505 := by decide
  have hC₀ : Executable listedChain nopLiMem 0x1000 0x1004 nopLiState :=
    executable_of_plainWord hfirst rfl (by rw [hw₀]; exact plainWord_of (by decide) (by decide) (by decide))
  have hC₁ : Executable listedChain nopLiMem 0x1000 0x1004 s₁ :=
    executable_of_plainWord hsecond rfl (by rw [hw₁]; exact plainWord_of (by decide) (by decide) (by decide))
  have hnop : Riscv.execC (half nopLiState.fetch) nopLiState .c_addi = some s₁ := by
    rw [hw₀]
    rfl
  have hli : Riscv.execC (half s₁.fetch) s₁ .c_li = some s₂ := by
    rw [hw₁]
    rfl
  have hlegal₀ : Riscv.Legal (half nopLiState.fetch) .c_addi := ⟨by decide, by decide⟩
  have hlegal₁ : Riscv.Legal (half s₁.fetch) .c_li := ⟨by decide, by decide⟩
  have hsteps : Steps nopLiElsewhere (Executable listedChain nopLiMem 0x1000 0x1004) 2
      (nopLiState, ()) (s₂, ()) :=
    .succ hC₀ (.compressed hlegal₀ hnop) (.succ hC₁ (.compressed hlegal₁ hli) (.zero _))
  have hchain : listedChain = rvcChain ++ fastChain listedFast ++ lrscRest := (List.append_assoc _ _ _).symm
  have hload := loadelf_nopLi
  rw [hchain] at hload hF hsteps
  have hshows : Shows nopLiHart nopLiHart.pc (nopLiState, ()) := ⟨rfl, rfl, rfl⟩
  obtain ⟨h', hcall, harch, -⟩ := interpreter_steps (fun _ => mem_listedFast) hload hF hshows (by decide) hsteps
  exact ⟨h', hcall, congrArg ArchState.pc harch, congrArg (fun s => s.x 10) harch⟩

end Cavatools.Uspike
