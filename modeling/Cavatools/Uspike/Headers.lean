import Cavatools.Uspike.Cas

/-!
# The generated headers

crunch_isa lists the opcodes in sections, and make_headers numbers them in
that order. From that order come three facts which the rest of the program
uses without saying so.

`compressed()` compares with the last opcode of the compressed section
(`Last_Compressed_Opcode`, the last name whose length is at most 2), so it
tells exactly the compressed opcodes and ZERO from the rest:
`compressed_iff_number`, for every list of names that may follow.

The decoder asks the templates in the same order, which makes a descriptor
compressed exactly when some template of RVC.bits matches
(`decoder_compressed_iff`). For that it is enough to know of what stands
behind them that it is full-size (`FullSize`), and `decoder_cases` has the
three outcomes of a decoding: a compressed template, a full-size one, or none,
which is UNKNOWN.

The table `golden` has a function only where an opcode has a template, and the
opcodes that `substitute_cas` makes have none.

`listedTail` and `listedChain` are the decoder with the full-size opcodes that
have a line in the tables here; what riscv-opcodes may list beyond them stays
a parameter elsewhere.
-/

namespace Cavatools.Uspike

/-! ## opcodes.h -/

/-- ZERO and the compressed names. -/
def compressedSection : List Opcode := .ZERO :: rvcOrder.map .c

/-- `opcode_list`: behind them the fast names, then those with Spike semantics. -/
def opcode_list (order : List FastOp) (spikes : List SpikeOp) : List Opcode :=
  compressedSection ++ (order.map .fast ++ (spikes.map .spike ++ [.ILLEGAL, .UNKNOWN]))

/-- The value of an opcode in `enum Opcode_t`. -/
def number (opcodes : List Opcode) (op : Opcode) : Nat := opcodes.idxOf op

/-- Whether `'len'` is at most 2: the length of the template, or the 10 or 12 of a compare-and-swap. -/
def Opcode.isShort : Opcode → Bool
  | .c op => decide (width (RVC_bits op).2 / 8 ≤ 2)
  | _ => false

/-- The last name of length 2. -/
def Last_Compressed_Opcode (opcodes : List Opcode) : Option Opcode := (opcodes.filter Opcode.isShort).getLast?

theorem isShort_compressed : compressedSection.filter Opcode.isShort = rvcOrder.map .c := by
  decide

theorem last_compressed (order : List FastOp) (spikes : List SpikeOp) :
    Last_Compressed_Opcode (opcode_list order spikes) = some (.c .c_sdsp) := by
  have hfast : (order.map Opcode.fast).filter Opcode.isShort = [] := by
    simp [List.filter_eq_nil_iff, Opcode.isShort]
  have hspike : (spikes.map Opcode.spike).filter Opcode.isShort = [] := by
    simp [List.filter_eq_nil_iff, Opcode.isShort]
  unfold Last_Compressed_Opcode opcode_list
  rw [List.filter_append, List.filter_append, List.filter_append, isShort_compressed, hfast, hspike]
  rfl

theorem mem_compressedSection (op : Opcode) : op ∈ compressedSection ↔ op.compressed = true := by
  unfold compressedSection
  rw [List.mem_cons, List.mem_map]
  cases op with
  | ZERO => simp [Opcode.compressed]
  | c op => simp [Opcode.compressed, mem_rvcOrder]
  | fast _ | spike _ | ILLEGAL | UNKNOWN => simp [Opcode.compressed]

/-- **`compressed()`** compares numbers. -/
theorem compressed_iff_number (order : List FastOp) (spikes : List SpikeOp) (op : Opcode) :
    op.compressed = true ↔ ∃ last ∈ Last_Compressed_Opcode (opcode_list order spikes),
      number (opcode_list order spikes) op ≤ number (opcode_list order spikes) last := by
  have hlast : number (opcode_list order spikes) (.c .c_sdsp) = 36 := by
    unfold number opcode_list
    rw [List.idxOf_append_of_mem (by decide)]
    decide
  rw [last_compressed, ← mem_compressedSection]
  simp only [Option.mem_some, exists_eq_left', hlast]
  unfold number opcode_list
  constructor
  · intro h
    rw [List.idxOf_append_of_mem h]
    exact Nat.le_of_lt_succ (List.idxOf_lt_length_of_mem h)
  · intro h
    by_contra hmem
    rw [List.idxOf_append_of_notMem hmem] at h
    have hlength : compressedSection.length = 37 := by decide
    omega

/-! ## decoder.h -/

/-- What stands behind the compressed part: full-size opcodes, fast ones or Spike's. -/
def FullSize (tail : List Entry) : Prop := ∀ e ∈ tail, (∃ op, e.op = .fast op) ∨ ∃ op, e.op = .spike op

theorem fullSize_fastChain (order : List FastOp) : FullSize (fastChain order) := by
  intro e he
  obtain ⟨op, -, hop⟩ := List.mem_filterMap.mp he
  unfold fastEntry at hop
  obtain ⟨l, -, rfl⟩ := Option.map_eq_some_iff.mp hop
  exact Or.inl ⟨op, rfl⟩

theorem fullSize_lrscRest : FullSize lrscRest := by
  intro e he
  obtain ⟨op, hop, -⟩ := standardRest_lrscRest e he
  exact Or.inr ⟨op, hop⟩

/-- The full-size opcodes that have a line in the tables here. -/
def listedTail : List Entry := fastChain listedFast ++ lrscRest

/-- The decoder that they make. -/
abbrev listedChain : List Entry := rvcChain ++ listedTail

theorem fullSize_listedTail : FullSize listedTail := by
  intro e he
  rcases List.mem_append.mp he with h | h
  · exact fullSize_fastChain _ e h
  · exact fullSize_lrscRest e h

/-- **What decoding can come to**: a compressed template, a full-size one behind them, or none. -/
theorem decoder_cases {tail : List Entry} (htail : FullSize tail) (w : BitVec 32) :
    (∃ op, (rvcEntry op).test w = true ∧ (decoder (rvcChain ++ tail) w).opcode = .c op) ∨
    (∀ op, (rvcEntry op).test w = false) ∧
      ((∃ op, (decoder (rvcChain ++ tail) w).opcode = .fast op) ∨
        (∃ op, (decoder (rvcChain ++ tail) w).opcode = .spike op) ∨
        (∀ e ∈ tail, e.test w = false) ∧ decoder (rvcChain ++ tail) w = .ofCode .UNKNOWN) := by
  unfold decoder
  rw [List.find?_append]
  cases hrvc : rvcChain.find? (fun e => e.test w) with
  | some e =>
    left
    have htest := List.find?_some hrvc
    obtain ⟨op, -, rfl⟩ := List.mem_map.mp (List.mem_of_find?_eq_some hrvc)
    exact ⟨op, htest, Entry.build_opcode _ _⟩
  | none =>
    right
    refine ⟨fun op => ?_, ?_⟩
    · simpa using List.find?_eq_none.mp hrvc _ (List.mem_map.mpr ⟨op, mem_rvcOrder op, rfl⟩)
    · rw [Option.none_or]
      cases hfind : tail.find? (fun e => e.test w) with
      | some e =>
        rcases htail e (List.mem_of_find?_eq_some hfind) with ⟨op, hop⟩ | ⟨op, hop⟩
        · exact Or.inl ⟨op, (Entry.build_opcode _ _).trans hop⟩
        · exact Or.inr (Or.inl ⟨op, (Entry.build_opcode _ _).trans hop⟩)
      | none =>
        refine Or.inr (Or.inr ⟨fun e he => ?_, rfl⟩)
        simpa using List.find?_eq_none.mp hfind e he

theorem decoder_ne_zero {tail : List Entry} (htail : FullSize tail) (w : BitVec 32) :
    (decoder (rvcChain ++ tail) w).opcode ≠ .ZERO := by
  rcases decoder_cases htail w with ⟨op, -, h⟩ | ⟨-, ⟨op, h⟩ | ⟨op, h⟩ | ⟨-, h⟩⟩ <;> rw [h]
  · exact Opcode.noConfusion
  · exact Opcode.noConfusion
  · exact Opcode.noConfusion
  · exact Opcode.noConfusion

/-- A word is taken for a compressed instruction exactly if a template of RVC.bits matches. -/
theorem decoder_compressed_iff {tail : List Entry} (htail : FullSize tail) (w : BitVec 32) :
    (decoder (rvcChain ++ tail) w).compressed = true ↔ ∃ op, (rvcEntry op).test w = true := by
  show (decoder (rvcChain ++ tail) w).opcode.compressed = true ↔ _
  rcases decoder_cases htail w with ⟨op, htest, h⟩ | ⟨hnone, h⟩
  · rw [h]
    exact iff_of_true rfl ⟨op, htest⟩
  · refine iff_of_false ?_ ?_
    · rcases h with ⟨op, h⟩ | ⟨op, h⟩ | ⟨-, h⟩ <;> rw [h]
      · exact Bool.noConfusion
      · exact Bool.noConfusion
      · exact Bool.noConfusion
    · rintro ⟨op, htest⟩
      rw [hnone op] at htest
      cases htest

/-! ## dispatch_table.h -/

/-- `golden`: the function of every opcode with a template, null for the others. -/
def golden {F : Type} (chain : List Entry) (I : Opcode → F) (op : Opcode) : Option F :=
  if chain.any fun e => e.op = op then some (I op) else none

end Cavatools.Uspike
