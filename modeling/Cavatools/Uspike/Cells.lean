import Cavatools.Lib.Digits
import Cavatools.Uspike.Template

/-!
# Templates bit by bit

A template of the instruction listing is a row of words: strings of digits,
operand fields, and groups of immediate bits in the order in which the
encoding has them. It is read here as one cell per bit position, lowest first
(`cells`): a fixed digit, a bit of an operand field, or an immediate bit, with
the bit a group marked `-` is extended from singled out.

The two readings are the same. `place` puts the values of operands and
immediate bits into a word in template order, and that is the cells under the
same assignment (`place_reverse`, by induction on the words of the template,
where an immediate group is the concatenation of its ranges). So a word
carries certain operands exactly if its bits agree with every cell
(`getLsbD_of_placed`, `placed_of_getLsbD`).

`WellFormed` is what the generator relies on and does not check: a template is
a halfword or a word, its registers stand where the operand fields are, no
operand slot and no immediate bit comes twice, at most one group is signed,
and it has the highest bit. It is decidable, so that each template of a
listing can be tried. Of a well-formed template the immediate cells are
distinct (`cell_unique`), with at most one sign bit, above all the others
(`signBit_some`).

What the decode generator makes of the cells is the business of `TemplateLaw`.
-/

namespace Cavatools.Uspike

open Lib (digits wordOf testBit_wordOf)

/-! ## Placement: what a template says a word looks like -/

/-- Values for the operand fields and for the immediate bits of a template. -/
structure Assign where
  reg : (r : RegName) → BitVec (regs r).width
  imm : Nat → Bool

/-- The digits one word of the template stands for, leftmost first. -/
def Token.place (a : Assign) : Token → List Bool
  | .bits ds => digits ds
  | .reg r => digits (a.reg r)
  | .imm _ first rest =>
    (first :: rest).flatMap fun r => (List.range (r.1 - r.2 + 1)).reverse.map fun i => a.imm (r.2 + i)

/-- The fields placed in template order. -/
def place (a : Assign) (t : Template) : List Bool := t.flatMap (Token.place a)

/-! ## Well-formed templates -/

def Token.width : Token → Nat
  | .bits (n := n) _ => n
  | .reg r => (regs r).width
  | .imm _ first rest => ((first :: rest).map fun r => r.1 - r.2 + 1).sum

def width (t : Template) : Nat := (t.map Token.width).sum

def Token.ranges : Token → List (Nat × Nat)
  | .imm _ first rest => first :: rest
  | _ => []

def Token.slots : Token → List (Fin 4)
  | .reg r => (regs r).slots
  | _ => []

def Token.isSigned : Token → Bool
  | .imm signed _ _ => signed
  | _ => false

/-- The highest bit of the first range of a group marked `-`. -/
def Token.signTop : Token → Option Nat
  | .imm true first _ => some first.1
  | _ => none

/-- The immediate bits a range stands for. -/
def rangePositions (r : Nat × Nat) : List Nat := (List.range (r.1 - r.2 + 1)).map (r.2 + ·)

def Token.immPositions (tok : Token) : List Nat := tok.ranges.flatMap rangePositions

def immPositions (t : Template) : List Nat := t.flatMap Token.immPositions

/-- Every register name stands at the bit position that `regs` gives. -/
def AtPos : Template → Prop
  | [] => True
  | .reg r :: t => width t = (regs r).lo ∧ AtPos t
  | _ :: t => AtPos t

structure WellFormed (t : Template) : Prop where
  total : width t = 16 ∨ width t = 32
  atPos : AtPos t
  slots : (t.flatMap Token.slots).Nodup
  ranges : ∀ tok ∈ t, ∀ r ∈ tok.ranges, r.2 ≤ r.1 ∧ r.1 - r.2 + 1 < 31
  distinct : (immPositions t).Nodup
  small : ∀ j ∈ immPositions t, j ≤ 31
  bit31 : ∀ tok ∈ t, 31 ∈ tok.immPositions → tok.isSigned = true
  oneSigned : (t.filter Token.isSigned).length ≤ 1
  signedTop : ∀ tok ∈ t, ∀ top ∈ tok.signTop, ∀ j ∈ immPositions t, j ≤ top

instance : DecidablePred AtPos := go
where
  go : (t : Template) → Decidable (AtPos t)
  | [] => inferInstanceAs (Decidable True)
  | .reg r :: t => @instDecidableAnd _ _ (inferInstanceAs (Decidable (width t = (regs r).lo))) (go t)
  | .bits _ :: t => go t
  | .imm _ _ _ :: t => go t

instance (t : Template) : Decidable (WellFormed t) :=
  decidable_of_iff
    ((width t = 16 ∨ width t = 32) ∧ AtPos t ∧ (t.flatMap Token.slots).Nodup ∧
      (∀ tok ∈ t, ∀ r ∈ tok.ranges, r.2 ≤ r.1 ∧ r.1 - r.2 + 1 < 31) ∧ (immPositions t).Nodup ∧
      (∀ j ∈ immPositions t, j ≤ 31) ∧ (∀ tok ∈ t, 31 ∈ tok.immPositions → tok.isSigned = true) ∧
      (t.filter Token.isSigned).length ≤ 1 ∧
      ∀ tok ∈ t, ∀ top ∈ tok.signTop, ∀ j ∈ immPositions t, j ≤ top)
    ⟨fun ⟨h1, h2, h3, h4, h5, h6, h7, h8, h9⟩ => ⟨h1, h2, h3, h4, h5, h6, h7, h8, h9⟩,
     fun ⟨h1, h2, h3, h4, h5, h6, h7, h8, h9⟩ => ⟨h1, h2, h3, h4, h5, h6, h7, h8, h9⟩⟩

/-- The bit the template's immediate is sign-extended from, if a group is
marked `-`. -/
def signBit (t : Template) : Option Nat := t.findSome? Token.signTop

/-- The number whose bits are the assigned immediate bits. -/
def immNat (a : Assign) (t : Template) : Nat :=
  Nat.ofBits (n := 32) fun j => decide (j.val ∈ immPositions t) && a.imm j

/-- The immediate, sign-extended from its top bit iff a group is marked `-`. -/
def immValue (a : Assign) (t : Template) : Int :=
  match signBit t with
  | none => immNat a t
  | some top => (BitVec.ofNat (top + 1) (immNat a t)).toInt

/-! ## Cells: a template bit by bit -/

/-- What one bit position of a template holds. `top` marks the bit a signed
group is extended from. -/
inductive Cell
  | fixed (d : Bool)
  | reg (r : RegName) (i : Nat)
  | imm (j : Nat) (top : Bool)
  deriving DecidableEq

def Cell.value (a : Assign) : Cell → Bool
  | .fixed d => d
  | .reg r i => (a.reg r).getLsbD i
  | .imm j _ => a.imm j

def rangeCells (signed : Bool) (r : Nat × Nat) : List Cell :=
  (List.range (r.1 - r.2 + 1)).map fun i => .imm (r.2 + i) (signed && decide (r.2 + i = r.1))

/-- The cells of one word of the template, lowest bit first. -/
def Token.cells : Token → List Cell
  | .bits (n := n) ds => (List.range n).map fun i => .fixed (ds.getLsbD i)
  | .reg r => (List.range (regs r).width).map (.reg r)
  | .imm signed first rest => rest.reverse.flatMap (rangeCells false) ++ rangeCells signed first

/-- The cells of a template, lowest bit first; the rightmost word is lowest. -/
def cells : Template → List Cell
  | [] => []
  | tok :: t => cells t ++ tok.cells

@[simp] theorem length_rangeCells (s : Bool) (r : Nat × Nat) :
    (rangeCells s r).length = r.1 - r.2 + 1 := by
  simp [rangeCells]

theorem length_flatMap_rangeCells (rest : List (Nat × Nat)) :
    (rest.reverse.flatMap (rangeCells false)).length = (rest.map fun r => r.1 - r.2 + 1).sum := by
  rw [List.length_flatMap, List.map_reverse, List.sum_reverse]
  simp

@[simp] theorem length_token_cells (tok : Token) : tok.cells.length = tok.width := by
  cases tok with
  | bits ds => simp [Token.cells, Token.width]
  | reg r => simp [Token.cells, Token.width]
  | imm s first rest =>
    unfold Token.cells
    rw [List.length_append, length_flatMap_rangeCells, length_rangeCells, Token.width,
      List.map_cons, List.sum_cons]
    omega

@[simp] theorem length_cells (t : Template) : (cells t).length = width t := by
  induction t with
  | nil => rfl
  | cons tok t ih =>
    unfold cells
    rw [List.length_append, ih, length_token_cells, width, width, List.map_cons, List.sum_cons]
    omega

/-! ### Placement is the cells under an assignment -/

/-- One word of the template, lowest digit first. -/
theorem place_token_reverse (a : Assign) (tok : Token) :
    (tok.place a).reverse = tok.cells.map (Cell.value a) := by
  cases tok with
  | bits ds =>
    simp [Token.place, Token.cells, digits, Function.comp_def, Cell.value, ← List.map_reverse]
  | reg r =>
    simp [Token.place, Token.cells, digits, Function.comp_def, Cell.value, ← List.map_reverse]
  | imm s first rest =>
    rw [Token.place, Token.cells, List.flatMap_cons, List.reverse_append, List.map_append,
      List.reverse_flatMap, List.map_flatMap]
    congr 1
    · simp [Function.comp_def, rangeCells, Cell.value, ← List.map_reverse]
    · simp [rangeCells, Function.comp_def, Cell.value, ← List.map_reverse]

theorem place_reverse (a : Assign) (t : Template) :
    (place a t).reverse = (cells t).map (Cell.value a) := by
  induction t with
  | nil => rfl
  | cons tok t ih =>
    unfold place
    rw [List.flatMap_cons, List.reverse_append, cells, List.map_append, place_token_reverse,
      ← ih, place]

/-- A word that carries the placed fields in its low bits has, at every cell,
the bit the assignment gives. -/
theorem getLsbD_of_placed {a : Assign} {t : Template} {b : BitVec 32}
    (hb : b.toNat % 2 ^ width t = wordOf (place a t)) {i : Nat} {c : Cell}
    (hc : (cells t)[i]? = some c) : b.getLsbD i = c.value a := by
  have hi : i < width t := by
    rw [← length_cells]
    exact (List.getElem?_eq_some_iff.mp hc).1
  have h := congrArg (fun n => n.testBit i) hb
  simp only [Nat.testBit_mod_two_pow, testBit_wordOf, place_reverse, hi, decide_true,
    Bool.true_and] at h
  rw [BitVec.getLsbD, h, List.getD_eq_getElem?_getD, List.getElem?_map, hc]
  rfl

/-- Conversely a word whose bits agree with every cell carries the placed
fields in its low bits. -/
theorem placed_of_getLsbD {a : Assign} {t : Template} {b : BitVec 32}
    (h : ∀ i c, (cells t)[i]? = some c → b.getLsbD i = c.value a) :
    b.toNat % 2 ^ width t = wordOf (place a t) := by
  apply Nat.eq_of_testBit_eq
  intro i
  rw [Nat.testBit_mod_two_pow, testBit_wordOf, place_reverse, List.getD_eq_getElem?_getD,
    List.getElem?_map]
  by_cases hi : i < width t
  · have hlen : i < (cells t).length := by rw [length_cells]; exact hi
    have hbit := h i _ (List.getElem?_eq_getElem hlen)
    rw [List.getElem?_eq_getElem hlen]
    simpa [hi, BitVec.getLsbD] using hbit
  · rw [List.getElem?_eq_none (by rw [length_cells]; omega)]
    simp [hi]

/-! ## Immediate positions are cells -/

def Cell.immPos? : Cell → Option Nat
  | .imm j _ => some j
  | _ => none

theorem filterMap_rangeCells (s : Bool) (r : Nat × Nat) :
    (rangeCells s r).filterMap Cell.immPos? = rangePositions r := by
  unfold rangeCells
  rw [List.filterMap_map, rangePositions, ← List.filterMap_eq_map]
  rfl

/-- The immediate bits of a word of the template are its immediate cells, in some order. -/
theorem filterMap_token_cells (tok : Token) :
    (tok.cells.filterMap Cell.immPos?).Perm tok.immPositions := by
  cases tok with
  | bits ds =>
    have h : (Token.bits ds).cells.filterMap Cell.immPos? = [] := by
      unfold Token.cells
      rw [List.filterMap_map]
      exact List.filterMap_eq_nil_iff.mpr fun _ _ => rfl
    rw [h]
    exact List.Perm.nil
  | reg r =>
    have h : (Token.reg r).cells.filterMap Cell.immPos? = [] := by
      unfold Token.cells
      rw [List.filterMap_map]
      exact List.filterMap_eq_nil_iff.mpr fun _ _ => rfl
    rw [h]
    exact List.Perm.nil
  | imm s first rest =>
    unfold Token.cells
    rw [List.filterMap_append, List.filterMap_flatMap, filterMap_rangeCells]
    simp only [filterMap_rangeCells]
    refine List.perm_append_comm.trans ?_
    exact List.Perm.append_left _ (List.Perm.flatMap_right _ (List.reverse_perm rest))

theorem filterMap_cells (t : Template) :
    ((cells t).filterMap Cell.immPos?).Perm (immPositions t) := by
  induction t with
  | nil => exact List.Perm.nil
  | cons tok t ih =>
    unfold cells
    rw [List.filterMap_append, immPositions, List.flatMap_cons]
    exact List.perm_append_comm.trans ((filterMap_token_cells tok).append ih)

/-- An immediate bit of the template has a cell. -/
theorem mem_immPositions_iff {t : Template} {j : Nat} :
    j ∈ immPositions t ↔ ∃ (i : Nat) (top : Bool), (cells t)[i]? = some (.imm j top) := by
  rw [← (filterMap_cells t).mem_iff, List.mem_filterMap]
  constructor
  · rintro ⟨c, hc, hj⟩
    obtain ⟨i, hi⟩ := List.mem_iff_getElem?.mp hc
    cases c with
    | fixed d => cases hj
    | reg r k => cases hj
    | imm k top =>
      obtain rfl : k = j := by simpa [Cell.immPos?] using hj
      exact ⟨i, top, hi⟩
  · rintro ⟨i, top, hi⟩
    exact ⟨_, List.mem_of_getElem? hi, rfl⟩

/-- With distinct positions an immediate bit has one cell. -/
theorem cell_unique {t : Template} (hd : (immPositions t).Nodup) {i i' j : Nat} {top top' : Bool}
    (h : (cells t)[i]? = some (.imm j top)) (h' : (cells t)[i']? = some (.imm j top')) : i = i' := by
  have hp := List.pairwise_iff_getElem.mp
    (List.pairwise_filterMap.mp ((filterMap_cells t).nodup_iff.mpr hd))
  obtain ⟨hi, hci⟩ := List.getElem?_eq_some_iff.mp h
  obtain ⟨hi', hci'⟩ := List.getElem?_eq_some_iff.mp h'
  rcases Nat.lt_trichotomy i i' with hlt | heq | hlt
  · exact absurd rfl (hp i i' hi hi' hlt j (by rw [hci]; rfl) j (by rw [hci']; rfl))
  · exact heq
  · exact absurd rfl (hp i' i hi' hi hlt j (by rw [hci']; rfl) j (by rw [hci]; rfl))

/-! ### The sign bit -/

/-- A cell that extends is the highest bit of a group marked `-`. -/
theorem top_cell {t : Template} {i k : Nat} (h : (cells t)[i]? = some (.imm k true)) :
    ∃ tok ∈ t, tok.signTop = some k := by
  induction t generalizing i with
  | nil => simp [cells] at h
  | cons tok t ih =>
    unfold cells at h
    rw [List.getElem?_append] at h
    split at h
    · obtain ⟨tok', hm, hk⟩ := ih h
      exact ⟨tok', List.mem_cons_of_mem _ hm, hk⟩
    · refine ⟨tok, List.mem_cons_self .., ?_⟩
      have hmem := List.mem_of_getElem? h
      cases tok with
      | bits ds =>
        obtain ⟨i, -, hi⟩ := List.mem_map.mp hmem
        cases hi
      | reg r =>
        obtain ⟨i, -, hi⟩ := List.mem_map.mp hmem
        cases hi
      | imm s first rest =>
        unfold Token.cells at hmem
        rw [List.mem_append, List.mem_flatMap] at hmem
        rcases hmem with ⟨r, -, hr⟩ | hr
        · obtain ⟨i, -, hi⟩ := List.mem_map.mp hr
          simp at hi
        · obtain ⟨i, -, hi⟩ := List.mem_map.mp hr
          simp only [Cell.imm.injEq, Bool.and_eq_true, decide_eq_true_eq] at hi
          obtain ⟨rfl, hs, htop⟩ := hi
          rw [hs, Token.signTop, htop]

/-- A group marked `-` has its sign bit among the cells. -/
theorem signed_cell {t : Template} {tok : Token} {top : Nat}
    (hr : ∀ r ∈ tok.ranges, r.2 ≤ r.1 ∧ r.1 - r.2 + 1 < 31) (hm : tok ∈ t)
    (h : tok.signTop = some top) : ∃ i : Nat, (cells t)[i]? = some (.imm top true) := by
  have hself : Cell.imm top true ∈ tok.cells := by
    cases tok with
    | bits ds => cases h
    | reg r => cases h
    | imm s first rest =>
      cases s with
      | false => cases h
      | true =>
        obtain rfl : first.1 = top := by simpa [Token.signTop] using h
        have hle := (hr first (List.mem_cons_self ..)).1
        refine List.mem_append_right _ (List.mem_map.mpr ⟨first.1 - first.2, ?_, ?_⟩)
        · rw [List.mem_range]
          omega
        · simp [show first.2 + (first.1 - first.2) = first.1 by omega]
  have hmem : Cell.imm top true ∈ cells t := by
    clear hr h
    induction t with
    | nil => cases hm
    | cons tok' t ih =>
      unfold cells
      rw [List.mem_append]
      rcases List.mem_cons.mp hm with rfl | hm'
      · exact Or.inr hself
      · exact Or.inl (ih hm')
  exact List.mem_iff_getElem?.mp hmem

theorem signBit_none {t : Template} (h : signBit t = none) {i k : Nat} {top : Bool}
    (hc : (cells t)[i]? = some (.imm k top)) : top = false := by
  cases top with
  | false => rfl
  | true =>
    obtain ⟨tok, hm, hk⟩ := top_cell hc
    rw [List.findSome?_eq_none_iff.mp h tok hm] at hk
    cases hk

/-- With at most one group marked `-` the sign bit is the only cell that extends. -/
theorem signBit_some {t : Template} (hw : WellFormed t) {top : Nat} (h : signBit t = some top) :
    (∃ i : Nat, (cells t)[i]? = some (.imm top true)) ∧
    (∀ j ∈ immPositions t, j ≤ top) ∧
    ∀ (i k : Nat), (cells t)[i]? = some (.imm k true) → k = top := by
  obtain ⟨tok, hm, htop⟩ := List.exists_of_findSome?_eq_some h
  have hmax := hw.signedTop tok hm top htop
  obtain ⟨i₀, hi₀⟩ := signed_cell (hw.ranges tok hm) hm htop
  refine ⟨⟨i₀, hi₀⟩, hmax, ?_⟩
  intro i k hc
  obtain ⟨tok', hm', hk⟩ := top_cell hc
  -- each sign bit is the highest position, so they are the same one
  have h1 := hmax _ (mem_immPositions_iff.mpr ⟨i, true, hc⟩)
  have h2 := hw.signedTop tok' hm' k hk _ (mem_immPositions_iff.mpr ⟨i₀, true, hi₀⟩)
  omega

end Cavatools.Uspike
