import Cavatools.Uspike.Fast

/-!
# The form of the lines

RV.fast has about eighty lines. What has to be known of all of them, such as
which state they reach or what they announce, should not take eighty cases,
and it need not: every line computes from registers and loads, and ends with
one write, of its destination, of memory, or of the pc.

`Expr` is an inductive description of what a line computes before it writes:
the registers and constants, loads, the shifts that may have no meaning, and
what is put together from these. `Line` is a line, which may first compute
something and then has one of six ends. An induction over the two has a case
for each form.

`action_line` says that every fast action has such a form. Its proof goes
through the table once, line by line; what holds of the forms then holds of
every fast action, also when a line of the file changes within its form.
-/

namespace Cavatools.Uspike

variable {σ τ : Type}

/-- What a line computes before it writes. -/
inductive Expr (mmu : Mmu σ) : (α : Type) → Act σ τ α → Prop
  | pure {α : Type} (a : α) : Expr mmu α (Pure.pure a)
  | bind {α β : Type} {x : Act σ τ α} {f : α → Act σ τ β} (hx : Expr mmu α x) (hf : ∀ a, Expr mmu β (f a)) :
      Expr mmu β (x >>= f)
  | readX (r : BitVec 8) : Expr mmu Long (readX r)
  | load_int (n : Nat) (a pc : Long) : Expr mmu Long (load_int mmu n a pc)
  | load_uint (n : Nat) (a pc : Long) : Expr mmu Long (load_uint mmu n a pc)
  | shl {w : Nat} (a : BitVec w) (n : Long) : Expr mmu (BitVec w) (shl a n)
  | shr {w : Nat} (a : BitVec w) (n : Long) : Expr mmu (BitVec w) (shr a n)
  | sar {w : Nat} (a : BitVec w) (n : Long) : Expr mmu (BitVec w) (sar a n)

/-- A line, which may first compute. -/
inductive Line (i : Insn) (pc : Long) (mmu : Mmu σ) (code : InsnSpace) : Act σ τ Long → Prop
  | bind {α : Type} {x : Act σ τ α} {f : α → Act σ τ Long} (hx : Expr mmu α x)
      (hf : ∀ a, Line i pc mmu code (f a)) : Line i pc mmu code (x >>= f)
  | compute (len : Nat) {e : Act σ τ Long} (he : Expr mmu Long e) : Line i pc mmu code (compute i pc len e)
  | store (len n : Nat) : Line i pc mmu code (store i pc len (store_int mmu n))
  | jump (npc : Long) : Line i pc mmu code (jump_model mmu npc pc)
  | branch (len : Nat) (c : Bool) : Line i pc mmu code (branch i pc mmu len c)
  | link (len : Nat) (npc : Long) : Line i pc mmu code (link i pc mmu len npc)
  | casLine (len n : Nat) : Line i pc mmu code (casLine pc mmu code len n)

variable {i : Insn} {pc : Long} {mmu : Mmu σ} {code : InsnSpace}

theorem expr_r1 : Expr mmu Long (r1 i : Act σ τ Long) := Expr.readX _

theorem expr_r2 : Expr mmu Long (r2 i : Act σ τ Long) := Expr.readX _

/-- The compressed lines, one after another. -/
theorem c_fast_line {op : COp} {act : Act σ τ Long} (hact : op.fast i pc mmu = some act) :
    Line i pc mmu code act := by
  cases op <;> simp only [COp.fast, load_int32, load_int64, store_int32, store_int64,
      Option.some.injEq, reduceCtorEq] at hact <;> subst hact <;>
    -- each line is one of the forms, read from the outside in
    repeat' with_reducible first
      | refine Line.compute _ ?_
      | apply Line.store
      | apply Line.jump
      | apply Line.branch
      | apply Line.link
      | refine Line.bind ?_ fun _ => ?_
      | refine Expr.bind ?_ fun _ => ?_
      | apply Expr.pure
      | apply expr_r1
      | apply expr_r2
      | apply Expr.load_int
      | apply Expr.shl
      | apply Expr.shr
      | apply Expr.sar

/-- The full-size lines, one after another. -/
theorem fast_line {op : FastOp} {act : Act σ τ Long} (hact : op.fast i pc mmu code = some act) :
    Line i pc mmu code act := by
  cases op <;> simp only [FastOp.fast, load_int8, load_int16, load_int32, load_int64, load_uint8,
      load_uint16, load_uint32, store_int8, store_int16, store_int32, store_int64,
      Option.some.injEq, reduceCtorEq] at hact <;> subst hact <;>
    repeat' with_reducible first
      | refine Line.compute _ ?_
      | apply Line.store
      | apply Line.casLine
      | apply Line.branch
      | apply Line.link
      | refine Line.bind ?_ fun _ => ?_
      | refine Expr.bind ?_ fun _ => ?_
      | apply Expr.pure
      | apply expr_r1
      | apply expr_r2
      | apply Expr.load_int
      | apply Expr.load_uint
      | apply Expr.shl
      | apply Expr.shr
      | apply Expr.sar

/-- **Every fast action** has the form of a line. -/
theorem action_line {act : Act σ τ Long} (hact : i.opcode.action i pc mmu code = some act) :
    Line i pc mmu code act := by
  cases hop : i.opcode with
  | c op =>
    rw [hop] at hact
    exact c_fast_line hact
  | fast op =>
    rw [hop] at hact
    exact fast_line hact
  | ZERO | spike _ | ILLEGAL | UNKNOWN =>
    rw [hop] at hact
    cases hact

end Cavatools.Uspike
