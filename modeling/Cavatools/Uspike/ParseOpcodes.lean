import Cavatools.Lib.Dict
import Cavatools.Uspike.Immed

/-!
# Reading riscv-opcodes

`parse_inputs` reads a line as fixed bits and argument names that cover the
instruction word, and exits where two of them overlap, where some bit is left
out, or where an earlier instruction is a special case of this one. What it
keeps is a mask and a match, but `print_inst` prints a template, and the
decoder that is generated tests the template: it accepts what the mask and the
match accept, less the words with a one where a bit is neither fixed nor
printed.

There are three parts. The first is about one line. The loop over its words
covers the bits once: `Covers` says that the match is under the mask, that
what is covered is the mask and the arguments, and that these are apart, and
each word keeps it (`fixed_covers`, `field_covers`, `fields_cover`).

The second is about the listing. `Reads` is what a line does to what was read
before it, and `Inputs.Inv` the invariant over the lines: what is kept of the
names that are listed once is what was accepted for them, and no earlier
instruction is a special case of a later one (`line_inv`, `parse_inv`).

The third is about templates. Whatever type is printed, the words of the
template are arguments in the places of arglut, and bits of the match (`Laid`,
`laid_print_inst`), so each cell is a fixed bit of the match or a bit that an
operand is taken from (`lays_cell`). With that `listed_test` compares the
generated test with mask and match, bit by bit, and `listed_overlap` says
where two of the tests can accept the same word.
-/

namespace Cavatools.Uspike.ParseOpcodes

abbrev Name := List Char

/-! ## arglut -/

/-- The names of arglut that no `print_…_type` prints. -/
inductive OtherName
  | rt | funct3 | bs | rnum | wd | amoop | nf | simm5 | zimm10 | zimm11
  deriving DecidableEq, Repr

def OtherName.range : OtherName → Nat × Nat
  | .rt => (19, 15)
  | .funct3 => (14, 12)
  | .bs => (31, 30)
  | .rnum => (23, 20)
  | .wd => (26, 26)
  | .amoop => (31, 27)
  | .nf => (31, 29)
  | .simm5 => (19, 15)
  | .zimm10 => (29, 20)
  | .zimm11 => (30, 20)

inductive LutName
  | printed (a : ArgName)
  | other (a : OtherName)
  deriving DecidableEq, Repr

def LutName.range : LutName → Nat × Nat
  | .printed a => arglut a
  | .other a => a.range

def LutName.printed? : LutName → Option ArgName
  | .printed a => some a
  | .other _ => none

/-! ## The words of a line -/

/-- `hi..lo=val`, `pos=val`, an argument name or none of these; the value `ignore` is `none`. -/
inductive Field
  | range (hi lo : Nat) (val : Option Nat)
  | bit (pos : Nat) (val : Option Nat)
  | argument (a : LutName)
  | unknown (token : Name)

/-- A line: its name, without the `@` of a pseudo-instruction, and the words after it. -/
structure Line where
  pseudo : Bool
  name : Name
  fields : List Field

/-- How parse_inputs ends when it does not return: an assertion, or one of its messages. -/
inductive Exit
  | nameAlone
  | badRange (name : Name) (hi lo : Nat)
  | badValue (name : Name) (val hi lo : Nat)
  | overspecified (name : Name)
  | unknownToken (name token : Name)
  | notCovered (name : Name)
  | overlap (name name2 : Name)
  deriving DecidableEq, Repr

def Exit.text : Exit → Name
  | .nameAlone => []
  | .badRange name hi lo => name ++ (": bad range " ++ toString hi ++ ".." ++ toString lo).toList
  | .badValue name val hi lo =>
    name ++ (": bad value " ++ toString val ++ " for range " ++ toString hi ++ ".." ++ toString lo).toList
  | .overspecified name => name ++ ": overspecified".toList
  | .unknownToken name token => name ++ ": unknown token ".toList ++ token
  | .notCovered name => name ++ ": not all bits are covered".toList
  | .overlap name name2 => name ++ " and ".toList ++ name2 ++ " overlap".toList

/-- `(1<<(hi+1))-(1<<lo)`. -/
def bitsOf (hi lo : Nat) : Nat := (1 <<< (hi + 1)) - (1 <<< lo)

/-- The variables of the loop over the words, and the arguments of the name. -/
structure Cover where
  mymatch : Nat
  mymask : Nat
  cover : Nat
  arguments : List LutName

namespace Cover

def take (name : Name) (hi lo : Nat) (st : Cover) : Except Exit Cover :=
  if st.cover &&& bitsOf hi lo ≠ 0 then .error (.overspecified name)
  else .ok { st with cover := st.cover ||| bitsOf hi lo }

/-- A word with an `=`. -/
def fixed (name : Name) (hi lo : Nat) (val : Option Nat) (st : Cover) : Except Exit Cover :=
  match val with
  | none => st.take name hi lo
  | some val =>
    if 1 <<< (hi - lo + 1) ≤ val then .error (.badValue name val hi lo)
    else Cover.take name hi lo
      { st with mymatch := st.mymatch ||| val <<< lo, mymask := st.mymask ||| bitsOf hi lo }

def field (name : Name) (st : Cover) : Field → Except Exit Cover
  | .range hi lo val => if hi ≤ lo then .error (.badRange name hi lo) else st.fixed name hi lo val
  | .bit pos val => st.fixed name pos pos val
  | .argument a => do
    let st ← st.take name a.range.1 a.range.2
    return { st with arguments := st.arguments ++ [a] }
  | .unknown token => .error (.unknownToken name token)

end Cover

/-! ## parse_inputs -/

def rv32_only : List Name :=
  ["aes32esmi", "aes32esi", "aes32dsmi", "aes32dsi", "sha512sum0r", "sha512sum1r", "sha512sig0l",
    "sha512sig0h", "sha512sig1l", "sha512sig1h"].map String.toList

def rv64_only : List Name :=
  ["aes64ks1i", "aes64im", "aes64ks2", "aes64esm", "aes64es", "aes64dsm", "aes64ds", "sha512sum0",
    "sha512sum1", "sha512sig0", "sha512sig1"].map String.toList

def different_base_isa (name1 name2 : Name) : Bool :=
  decide (name1 ∈ rv32_only) && decide (name2 ∈ rv64_only) ||
    decide (name2 ∈ rv32_only) && decide (name1 ∈ rv64_only)

/-- What parse_inputs returns. -/
structure Inputs where
  namelist : List Name
  pseudos : List Name
  mask : List (Name × Nat)
  «match» : List (Name × Nat)
  arguments : List (Name × List LutName)

namespace Inputs

def init : Inputs := ⟨[], [], [], [], []⟩

/-- The arguments that the name has so far. -/
def argumentsOf (st : Inputs) (name : Name) : List LutName := (st.arguments.lookup name).getD []

/-- The first earlier instruction that is a special case of the new one. -/
def overlapping (st : Inputs) (name : Name) (mymatch mymask : Nat) : Option (Name × Nat) :=
  st.match.find? fun p => decide (p.1 ∉ st.pseudos ∧ p.2 &&& mymask = mymatch) &&
    !different_base_isa name p.1

def line (st : Inputs) (l : Line) : Except Exit Inputs :=
  if l.fields = [] then .error .nameAlone
  else do
    let c ← l.fields.foldlM (Cover.field l.name) ⟨0, 0, 0, st.argumentsOf l.name⟩
    if c.cover ≠ 0xFFFFFFFF ∧ c.cover ≠ 0xFFFF then throw (.notCovered l.name)
    let st := { st with arguments := Lib.assign st.arguments l.name c.arguments }
    let st ←
      if l.pseudo then pure { st with pseudos := l.name :: st.pseudos }
      else
        match st.overlapping l.name c.mymatch c.mymask with
        | some (name2, _) => throw (.overlap l.name name2)
        | none => pure st
    return { st with
      mask := Lib.assign st.mask l.name c.mymask
      «match» := Lib.assign st.match l.name c.mymatch
      namelist := st.namelist ++ [l.name] }

end Inputs

def parse_inputs (lines : List Line) : Except Exit Inputs := lines.foldlM Inputs.line Inputs.init

/-! ## What print_inst is given -/

/-- What `print_inst` asks of a name. -/
def kindOf (n : Name) : NameKind :=
  if n = "fence".toList ∨ n = "fence.tso".toList ∨ n = "pause".toList then .fence
  else if n.take 3 = "csr".toList then .csr (n.getLast? == some 'i')
  else if n = "ecall".toList ∨ n = "ebreak".toList then .env
  else
    -- 'v.+\.'
    match n with
    | 'v' :: _ :: rest => if '.' ∈ rest then .vector else .plain
    | _ => .plain

def Inputs.opLine (st : Inputs) (name : Name) : OpLine where
  kind := kindOf name
  «match» := BitVec.ofNat 32 ((st.match.lookup name).getD 0)
  arguments := (st.argumentsOf name).filterMap LutName.printed?

def Inputs.maskOf (st : Inputs) (name : Name) : Nat := (st.mask.lookup name).getD 0

def Inputs.matchOf (st : Inputs) (name : Name) : Nat := (st.match.lookup name).getD 0

/-! ## The words of a line cover its bits once -/

theorem testBit_bitsOf {hi lo : Nat} (h : lo ≤ hi + 1) (i : Nat) :
    (bitsOf hi lo).testBit i = decide (lo ≤ i ∧ i ≤ hi) := by
  have hshift : bitsOf hi lo = (2 ^ (hi + 1 - lo) - 1) <<< lo := by
    have hpow : 2 ^ (hi + 1) = 2 ^ (hi + 1 - lo) * 2 ^ lo := by
      rw [← Nat.pow_add, Nat.sub_add_cancel h]
    unfold bitsOf
    rw [Nat.one_shiftLeft, Nat.one_shiftLeft, Nat.shiftLeft_eq, Nat.sub_mul, Nat.one_mul, hpow]
  rw [hshift, Nat.testBit_shiftLeft, Nat.testBit_two_pow_sub_one, Bool.eq_iff_iff]
  simp only [Bool.and_eq_true, decide_eq_true_eq]
  omega

/-- The match is under the mask, the mask is covered, and so are the arguments, apart from it. -/
structure Covers (st : Cover) : Prop where
  «match» : ∀ i, st.mymatch.testBit i = true → st.mymask.testBit i = true
  mask : ∀ i, st.mymask.testBit i = true → st.cover.testBit i = true
  arguments : ∀ a ∈ st.arguments, ∀ i, a.range.2 ≤ i → i ≤ a.range.1 →
    st.cover.testBit i = true ∧ st.mymask.testBit i = false

theorem take_cases {name : Name} {hi lo : Nat} {st st' : Cover} (h : st.take name hi lo = .ok st') :
    (∀ i, st.cover.testBit i = true → (bitsOf hi lo).testBit i = false) ∧
      st' = { st with cover := st.cover ||| bitsOf hi lo } := by
  unfold Cover.take at h
  split at h
  · cases h
  · rename_i hzero
    refine ⟨fun i hi => ?_, (Except.ok.inj h).symm⟩
    have hbit := congrArg (Nat.testBit · i) (not_not.mp hzero)
    simpa [hi] using hbit

/-- A word with an `=`: its bits were free, and are fixed from now on. -/
theorem fixed_covers {name : Name} {hi lo : Nat} {val : Option Nat} {st st' : Cover} (hle : lo ≤ hi)
    (hst : Covers st) (h : st.fixed name hi lo val = .ok st') : Covers st' := by
  have hbits := testBit_bitsOf (Nat.le_succ_of_le hle)
  cases val with
  | none =>
    obtain ⟨-, rfl⟩ := take_cases h
    refine ⟨hst.match, fun i hi => ?_, fun a ha i h1 h2 => ?_⟩
    · rw [Nat.testBit_or, hst.mask i hi, Bool.true_or]
    · obtain ⟨hcover, hmask⟩ := hst.arguments a ha i h1 h2
      exact ⟨by rw [Nat.testBit_or, hcover, Bool.true_or], hmask⟩
  | some val =>
    unfold Cover.fixed at h
    dsimp only at h
    split at h
    · cases h
    · rename_i hval
      obtain ⟨hfree, rfl⟩ := take_cases h
      rw [Nat.one_shiftLeft] at hval
      refine ⟨fun i hbit => ?_, fun i hbit => ?_, fun a ha i h1 h2 => ?_⟩
      · rw [Nat.testBit_or, Bool.or_eq_true] at hbit ⊢
        rcases hbit with hbit | hbit
        · exact Or.inl (hst.match i hbit)
        · -- a bit of the value lies in the range
          rw [Nat.testBit_shiftLeft, Bool.and_eq_true, decide_eq_true_eq] at hbit
          obtain ⟨hlo, hbit⟩ := hbit
          have hlt : i - lo < hi - lo + 1 := by
            by_contra hge
            rw [Nat.testBit_lt_two_pow ((Nat.lt_of_not_le hval).trans_le
              (Nat.pow_le_pow_right (by omega) (by omega)))] at hbit
            cases hbit
          right
          rw [hbits, decide_eq_true_eq]
          omega
      · rw [Nat.testBit_or, Bool.or_eq_true] at hbit ⊢
        exact hbit.imp_left (hst.mask i)
      · obtain ⟨hcover, hmask⟩ := hst.arguments a ha i h1 h2
        exact ⟨by rw [Nat.testBit_or, hcover, Bool.true_or],
          by rw [Nat.testBit_or, hmask, hfree i hcover, Bool.or_false]⟩

theorem LutName.range_le (a : LutName) : a.range.2 ≤ a.range.1 := by
  cases a with
  | printed a => cases a <;> decide
  | other a => cases a <;> decide

/-- A word of the line, which fixes bits, takes those of an argument, or ends the reading. -/
theorem field_covers {name : Name} {f : Field} {st st' : Cover} (hst : Covers st)
    (h : st.field name f = .ok st') : Covers st' := by
  cases f with
  | range hi lo val =>
    unfold Cover.field at h
    by_cases hle : hi ≤ lo
    · simp only [if_pos hle] at h
      cases h
    · simp only [if_neg hle] at h
      exact fixed_covers (by omega) hst h
  | bit pos val => exact fixed_covers le_rfl hst h
  | unknown token => cases h
  | argument a =>
    simp only [Cover.field] at h
    cases htake : st.take name a.range.1 a.range.2 with
    | error e =>
      rw [htake] at h
      cases h
    | ok st₁ =>
      rw [htake] at h
      cases h
      obtain ⟨hfree, rfl⟩ := take_cases htake
      have hbits := testBit_bitsOf (Nat.le_succ_of_le a.range_le)
      refine ⟨hst.match, fun i hi => ?_, fun a' ha' i h1 h2 => ?_⟩
      · rw [Nat.testBit_or, hst.mask i hi, Bool.true_or]
      · rw [Nat.testBit_or]
        rcases List.mem_append.mp ha' with hold | hnew
        · obtain ⟨hcover, hmask⟩ := hst.arguments a' hold i h1 h2
          exact ⟨by rw [hcover, Bool.true_or], hmask⟩
        · obtain rfl := List.mem_singleton.mp hnew
          have hin : (bitsOf a'.range.1 a'.range.2).testBit i = true := by
            rw [hbits, decide_eq_true_eq]
            exact ⟨h1, h2⟩
          refine ⟨by rw [hin, Bool.or_true], Bool.eq_false_iff.mpr fun hmask => ?_⟩
          rw [hfree i (hst.mask i hmask)] at hin
          cases hin

/-- All words of a line, one after another. -/
theorem fields_cover {name : Name} {fields : List Field} {st st' : Cover} (hst : Covers st)
    (h : fields.foldlM (Cover.field name) st = .ok st') : Covers st' := by
  induction fields generalizing st with
  | nil =>
    cases h
    exact hst
  | cons f fields ih =>
    rw [List.foldlM_cons] at h
    cases hf : st.field name f with
    | error e =>
      rw [hf] at h
      cases h
    | ok st₁ =>
      rw [hf] at h
      exact ih (field_covers hst hf) h

/-! ## What is kept of a line -/

/-- Match, mask and arguments of a line that was accepted. -/
structure Accepted (mymatch mymask : Nat) (arguments : List LutName) : Prop where
  «match» : ∀ i, mymatch.testBit i = true → mymask.testBit i = true
  mask : ∀ i, mymask.testBit i = true → i < 32
  arguments : ∀ a ∈ arguments, ∀ i, a.range.2 ≤ i → i ≤ a.range.1 → mymask.testBit i = false

theorem accepted_of_covers {st : Cover} (hst : Covers st)
    (hcover : st.cover = 0xFFFFFFFF ∨ st.cover = 0xFFFF) : Accepted st.mymatch st.mymask st.arguments := by
  refine ⟨hst.match, fun i hi => ?_, fun a ha i h1 h2 => (hst.arguments a ha i h1 h2).2⟩
  have hbit := hst.mask i hi
  by_contra hge
  have hlt : st.cover < 2 ^ i :=
    (show st.cover < 2 ^ 32 by omega).trans_le (Nat.pow_le_pow_right (by omega) (by omega))
  rw [Nat.testBit_lt_two_pow hlt] at hbit
  cases hbit

/-- What a line does to what was read before it. -/
structure Reads (st : Inputs) (l : Line) (c : Cover) (st' : Inputs) : Prop where
  fields : l.fields.foldlM (Cover.field l.name) ⟨0, 0, 0, st.argumentsOf l.name⟩ = .ok c
  cover : c.cover = 0xFFFFFFFF ∨ c.cover = 0xFFFF
  namelist : st'.namelist = st.namelist ++ [l.name]
  pseudos : st'.pseudos = if l.pseudo then l.name :: st.pseudos else st.pseudos
  mask : st'.mask = Lib.assign st.mask l.name c.mymask
  «match» : st'.match = Lib.assign st.match l.name c.mymatch
  arguments : st'.arguments = Lib.assign st.arguments l.name c.arguments
  overlap : l.pseudo = false → st.overlapping l.name c.mymatch c.mymask = none

/-- **A line** that is read has been accepted, and was compared with the instructions before it. -/
theorem line_reads {st st' : Inputs} {l : Line} (h : st.line l = .ok st') : ∃ c, Reads st l c st' := by
  unfold Inputs.line at h
  split at h
  · cases h
  · cases hc : l.fields.foldlM (Cover.field l.name) ⟨0, 0, 0, st.argumentsOf l.name⟩ with
    | error e =>
      rw [hc] at h
      cases h
    | ok c =>
      rw [hc] at h
      by_cases hcover : c.cover ≠ 0xFFFFFFFF ∧ c.cover ≠ 0xFFFF
      · simp only [bind, Except.bind, if_pos hcover] at h
        cases h
      · simp only [bind, Except.bind, if_neg hcover] at h
        have hor : c.cover = 0xFFFFFFFF ∨ c.cover = 0xFFFF := by
          by_contra hno
          exact hcover (not_or.mp hno)
        cases hpseudo : l.pseudo with
        | true =>
          rw [hpseudo] at h
          cases h
          exact ⟨c, hc, hor, rfl, by rw [if_pos hpseudo], rfl, rfl, rfl,
            fun hfalse => by rw [hpseudo] at hfalse; cases hfalse⟩
        | false =>
          rw [hpseudo] at h
          cases hover : st.overlapping l.name c.mymatch c.mymask with
          | some p =>
            simp only [Bool.false_eq_true, if_false, Inputs.overlapping] at h hover
            rw [hover] at h
            cases h
          | none =>
            simp only [Bool.false_eq_true, if_false, Inputs.overlapping] at h hover
            rw [hover] at h
            cases h
            exact ⟨c, hc, hor, rfl, by rw [if_neg (by rw [hpseudo]; exact Bool.false_ne_true)], rfl, rfl,
              rfl, fun _ => hover⟩

/-- The listing so far: what is kept of the names listed once, and that none of them is a special
case of a later one. -/
structure Inputs.Inv (st : Inputs) : Prop where
  fresh : ∀ n, n ∉ st.namelist → st.argumentsOf n = []
  known : ∀ n ∈ st.namelist, (n, st.matchOf n) ∈ st.match
  accepted : ∀ n, st.namelist.count n = 1 → Accepted (st.matchOf n) (st.maskOf n) (st.argumentsOf n)
  order : st.namelist.Pairwise fun n1 n2 => st.namelist.count n1 = 1 → st.namelist.count n2 = 1 →
    n1 ∉ st.pseudos → n2 ∉ st.pseudos → different_base_isa n2 n1 = false →
      st.matchOf n1 &&& st.maskOf n2 ≠ st.matchOf n2

theorem init_inv : Inputs.init.Inv := by
  refine ⟨fun n _ => rfl, fun n hn => ?_, fun n hn => ?_, List.Pairwise.nil⟩
  · cases hn
  · cases hn

section
variable {st st' : Inputs} {l : Line} {c : Cover} (hr : Reads st l c st')
include hr

theorem reads_self : st'.matchOf l.name = c.mymatch ∧ st'.maskOf l.name = c.mymask ∧
    st'.argumentsOf l.name = c.arguments := by
  unfold Inputs.matchOf Inputs.maskOf Inputs.argumentsOf
  rw [hr.match, hr.mask, hr.arguments, Lib.lookup_assign_self, Lib.lookup_assign_self,
    Lib.lookup_assign_self]
  exact ⟨rfl, rfl, rfl⟩

theorem reads_other {n : Name} (hn : l.name ≠ n) : st'.matchOf n = st.matchOf n ∧
    st'.maskOf n = st.maskOf n ∧ st'.argumentsOf n = st.argumentsOf n := by
  unfold Inputs.matchOf Inputs.maskOf Inputs.argumentsOf
  rw [hr.match, hr.mask, hr.arguments, Lib.lookup_assign_of_ne _ _ hn, Lib.lookup_assign_of_ne _ _ hn,
    Lib.lookup_assign_of_ne _ _ hn]
  exact ⟨rfl, rfl, rfl⟩

theorem reads_pseudos {n : Name} (hn : n ∉ st'.pseudos) : n ∉ st.pseudos := by
  rw [hr.pseudos] at hn
  split at hn
  · exact fun hmem => hn (List.mem_cons_of_mem _ hmem)
  · exact hn

theorem reads_count (n : Name) :
    st'.namelist.count n = st.namelist.count n + if l.name = n then 1 else 0 := by
  rw [hr.namelist, List.count_append, List.count_singleton]
  simp [beq_iff_eq]

/-- A name that is listed before the line, and once after it, is another one. -/
theorem reads_ne {n : Name} (hmem : n ∈ st.namelist) (hcount : st'.namelist.count n = 1) : l.name ≠ n := by
  intro heq
  have h := reads_count hr n
  have hpos := List.count_pos_iff.mpr hmem
  rw [hcount, if_pos heq] at h
  omega

theorem line_accepted (hst : st.Inv) (hcount : st'.namelist.count l.name = 1) :
    Accepted c.mymatch c.mymask c.arguments := by
  have hnew : st.argumentsOf l.name = [] := hst.fresh l.name fun hmem => reads_ne hr hmem hcount rfl
  have hempty : Covers ⟨0, 0, 0, st.argumentsOf l.name⟩ := by
    rw [hnew]
    refine ⟨fun i hi => ?_, fun i hi => ?_, fun a ha => ?_⟩
    · exact Bool.noConfusion ((Nat.zero_testBit i).symm.trans hi)
    · exact Bool.noConfusion ((Nat.zero_testBit i).symm.trans hi)
    · cases ha
  exact accepted_of_covers (fields_cover hempty hr.fields) hr.cover

/-- The line is not listed if an earlier one is a special case of it. -/
theorem line_order (hst : st.Inv) {n : Name} (hmem : n ∈ st.namelist) (hn : n ∉ st'.pseudos)
    (hl : l.name ∉ st'.pseudos) (hbase : different_base_isa l.name n = false) :
    st.matchOf n &&& c.mymask ≠ c.mymatch := by
  have hpseudo : l.pseudo = false := by
    rw [hr.pseudos] at hl
    by_contra htrue
    rw [if_pos (Bool.not_eq_false _ ▸ htrue)] at hl
    exact hl List.mem_cons_self
  have hnone := List.find?_eq_none.mp (hr.overlap hpseudo) _ (hst.known n hmem)
  intro heq
  apply hnone
  simp only [Bool.and_eq_true, decide_eq_true_eq, Bool.not_eq_true']
  exact ⟨⟨reads_pseudos hr hn, heq⟩, hbase⟩

/-- A line keeps the invariant: it is one more name, or makes one that was listed before be listed
twice. -/
theorem line_inv (hst : st.Inv) : st'.Inv := by
  obtain ⟨hmatch, hmask, harguments⟩ := reads_self hr
  refine ⟨fun n hn => ?_, fun n hn => ?_, fun n hcount => ?_, ?_⟩
  · rw [hr.namelist, List.mem_append, List.mem_singleton, not_or] at hn
    obtain ⟨-, -, hargs⟩ := reads_other hr (Ne.symm hn.2)
    rw [hargs]
    exact hst.fresh n hn.1
  · by_cases heq : l.name = n
    · rw [← heq, hmatch, hr.match]
      exact Lib.mem_of_lookup (Lib.lookup_assign_self _ _ _)
    · rw [hr.namelist, List.mem_append, List.mem_singleton] at hn
      obtain ⟨hm, -, -⟩ := reads_other hr heq
      have hold := hst.known n (hn.resolve_right (Ne.symm heq))
      rw [hm, hr.match]
      exact (Lib.mem_assign_of_ne heq).mpr hold
  · by_cases heq : l.name = n
    · rw [← heq] at hcount ⊢
      rw [hmatch, hmask, harguments]
      exact line_accepted hr hst hcount
    · obtain ⟨hm, hk, hargs⟩ := reads_other hr heq
      rw [hm, hk, hargs]
      have hold := reads_count hr n
      rw [if_neg heq, hcount] at hold
      exact hst.accepted n hold.symm
  · rw [hr.namelist, List.pairwise_append]
    have hcounts := reads_count hr
    rw [hr.namelist] at hcounts
    refine ⟨List.Pairwise.imp_of_mem ?_ hst.order, List.pairwise_singleton _ _, ?_⟩
    · intro n1 n2 hmem1 hmem2 hold hcount1 hcount2 hn1 hn2 hbase
      rw [← hr.namelist] at hcount1 hcount2
      have hne1 := reads_ne hr hmem1 hcount1
      have hne2 := reads_ne hr hmem2 hcount2
      obtain ⟨hm1, -, -⟩ := reads_other hr hne1
      obtain ⟨hm2, hk2, -⟩ := reads_other hr hne2
      have h1 := reads_count hr n1
      have h2 := reads_count hr n2
      rw [if_neg hne1, hcount1] at h1
      rw [if_neg hne2, hcount2] at h2
      rw [hm1, hm2, hk2]
      exact hold h1.symm h2.symm (reads_pseudos hr hn1) (reads_pseudos hr hn2) hbase
    · intro n1 hmem1 n2 hmem2 hcount1 hcount2 hn1 hn2 hbase
      obtain rfl := List.mem_singleton.mp hmem2
      rw [← hr.namelist] at hcount1
      obtain ⟨hm1, -, -⟩ := reads_other hr (reads_ne hr hmem1 hcount1)
      rw [hm1, hmatch, hmask]
      exact line_order hr hst hmem1 hn1 hn2 hbase

end

/-- The invariant of a whole listing, by induction on its lines. -/
theorem parse_inv {lines : List Line} {st : Inputs} (h : parse_inputs lines = .ok st) : st.Inv := by
  have hrun : ∀ (lines : List Line) (st₀ : Inputs), st₀.Inv → lines.foldlM Inputs.line st₀ = .ok st → st.Inv := by
    intro lines
    induction lines with
    | nil =>
      intro st₀ hst₀ h
      cases h
      exact hst₀
    | cons l lines ih =>
      intro st₀ hst₀ h
      rw [List.foldlM_cons] at h
      cases hl : st₀.line l with
      | error e =>
        rw [hl] at h
        cases h
      | ok st₁ =>
        rw [hl] at h
        obtain ⟨c, hr⟩ := line_reads hl
        exact ih st₁ (line_inv hr hst₀) h
  exact hrun lines Inputs.init init_inv h

/-! ## What is printed stands in its place -/

/-- The bits from `lo` up are those of an argument of the line. -/
def Spans (l : OpLine) (lo w : Nat) : Prop := ∃ a ∈ l.arguments, (arglut a).2 = lo ∧ (arglut a).1 + 1 = lo + w

def TokenLaid (l : OpLine) (lo : Nat) : Token → Prop
  | .bits (n := n) ds => ds = l.match.extractLsb' lo n
  | tok => Spans l lo tok.width

/-- The words of the template are arguments in the places of arglut, and bits of the match. -/
def Lays (l : OpLine) : Template → Prop
  | [] => True
  | tok :: t => TokenLaid l (width t) tok ∧ Lays l t

structure Laid (l : OpLine) (n : Nat) (t : Template) : Prop where
  lays : Lays l t
  width : width t = n

section
variable {l : OpLine} {t : Template} {n m : Nat}

theorem width_cons (tok : Token) (t : Template) : width (tok :: t) = width t + tok.width := by
  unfold width
  rw [List.map_cons, List.sum_cons, Nat.add_comm]

theorem laid_nil : Laid l 0 [] := ⟨trivial, rfl⟩

theorem Laid.cons (h : Laid l n t) {tok : Token} (htok : TokenLaid l n tok) (hw : n + tok.width = m) :
    Laid l m (tok :: t) := by
  refine ⟨⟨?_, h.lays⟩, ?_⟩
  · rw [h.width]
    exact htok
  · rw [width_cons, h.width, hw]

theorem Laid.binary (h : Laid l n t) (len : Nat) : Laid l (n + len) (binary l.match n len :: t) :=
  h.cons (by exact rfl) rfl

theorem argToken_width (a : ArgName) : (arglut a).2 + (argToken a).width = (arglut a).1 + 1 := by
  cases a <;> rfl

theorem argToken_laid {a : ArgName} (ha : a ∈ l.arguments) : TokenLaid l (arglut a).2 (argToken a) := by
  have hspans : Spans l (arglut a).2 (argToken a).width := ⟨a, ha, rfl, (argToken_width a).symm⟩
  cases a <;> exact hspans

theorem Laid.str_arg (h : Laid l n t) (a : ArgName) (hlo : (arglut a).2 = n) (hhi : (arglut a).1 + 1 = m) :
    Laid l m (str_arg a l :: t) := by
  subst hlo hhi
  unfold Uspike.str_arg
  split
  · rename_i ha
    exact h.cons (argToken_laid ha) (argToken_width a)
  · have hle : (arglut a).2 ≤ (arglut a).1 := (LutName.printed a).range_le
    have hsum : (arglut a).2 + ((arglut a).1 - (arglut a).2 + 1) = (arglut a).1 + 1 := by omega
    exact hsum ▸ h.binary _

/-- A group that stands for an argument under another name. -/
theorem Laid.group (h : Laid l n t) {a : ArgName} (ha : a ∈ l.arguments) (hlo : (arglut a).2 = n)
    (hhi : (arglut a).1 + 1 = m) {r : Nat × Nat} (hw : n + (r.1 - r.2 + 1) = m) :
    Laid l m (.imm false r [] :: t) :=
  h.cons ⟨a, ha, hlo, hhi.trans hw.symm⟩ hw

theorem Laid.of_ite {p : Prop} [Decidable p] {t' : Template} (h : Laid l n t) (h' : Laid l n t') :
    Laid l n (if p then t else t') := by
  split
  · exact h
  · exact h'

end

variable (l : OpLine)

theorem laid_opcode : Laid l 7 [binary l.match 0 7] := laid_nil.binary 7

/-- The opcode, rd and funct3, which most types end in. -/
theorem laid_funct : Laid l 15 [binary l.match 12 3, str_arg .rd l, binary l.match 0 7] :=
  ((laid_opcode l).str_arg .rd rfl rfl).binary 3

/-- The CSR types, which name their immediates themselves. -/
theorem laid_csr (i : Bool) : Laid l 32 (print_csr_type i l) := by
  have hrs1 : Laid l 20 [if i ∧ ArgName.rs1 ∈ l.arguments then .imm false (16, 12) [] else str_arg .rs1 l,
      binary l.match 12 3, str_arg .rd l, binary l.match 0 7] := by
    split
    · rename_i h
      exact (laid_funct l).group h.2 rfl rfl rfl
    · exact (laid_funct l).str_arg .rs1 rfl rfl
  unfold print_csr_type
  split
  · rename_i h
    exact hrs1.group h rfl rfl rfl
  · exact hrs1.str_arg .imm12 rfl rfl

theorem laid_r : Laid l 32 (print_r_type l) := by
  have hrm : Laid l 15 [str_arg .rm l, str_arg .rd l, binary l.match 0 7] :=
    ((laid_opcode l).str_arg .rd rfl rfl).str_arg .rm rfl rfl
  unfold print_r_type
  split
  · exact ((hrm.str_arg .zimm rfl rfl).str_arg .rs2 rfl rfl).binary 7
  · exact ((hrm.str_arg .rs1 rfl rfl).str_arg .rs2 rfl rfl).binary 7

/-- The vector type. -/
theorem laid_v : Laid l 32 (print_v_type l) := by
  -- both names of a field have the same bits
  have hfield (p : Prop) [Decidable p] (a a' : ArgName) (h : arglut a = arglut a') :
      arglut (if p then a else a') = arglut a' := by
    split
    · exact h
    · rfl
  have hvd : arglut (if ArgName.vd ∈ l.arguments then .vd
      else if ArgName.vs3 ∈ l.arguments then .vs3 else .rd) = (11, 7) := by
    split
    · rfl
    · exact hfield _ _ _ rfl
  have hvs1 := hfield (.vs1 ∈ l.arguments) .vs1 .rs1 rfl
  have hvs2 := hfield (.vs2 ∈ l.arguments) .vs2 .rs2 rfl
  have h12 := ((laid_opcode l).str_arg _ (congrArg Prod.snd hvd) (congrArg (·.1 + 1) hvd)).binary 3
  have h20 := h12.str_arg _ (congrArg Prod.snd hvs1) (congrArg (·.1 + 1) hvs1)
  have h25 := h20.str_arg _ (congrArg Prod.snd hvs2) (congrArg (·.1 + 1) hvs2)
  exact (h25.str_arg .vm rfl rfl).binary 6

/-- Every template that is printed has 32 bits. -/
theorem laid_print_inst : Laid l 32 (print_inst l) := by
  have hrd := (laid_opcode l).str_arg .rd rfl rfl
  have hrs1 := (laid_funct l).str_arg .rs1 rfl rfl
  have hrs2 := hrs1.str_arg .rs2 rfl rfl
  have hr4 := ((hrd.str_arg .rm rfl rfl).str_arg .rs1 rfl rfl).str_arg .rs2 rfl rfl
  have hstore (lo : ArgName) (hlo : (arglut lo).2 = 7) (hhi : (arglut lo).1 + 1 = 12) :
      Laid l 25 [str_arg .rs2 l, str_arg .rs1 l, binary l.match 12 3, str_arg lo l, binary l.match 0 7] :=
    ((((laid_opcode l).str_arg lo hlo hhi).binary 3).str_arg .rs1 rfl rfl).str_arg .rs2 rfl rfl
  unfold print_inst
  refine .of_ite (((hrs1.str_arg .succ rfl rfl).str_arg .pred rfl rfl).str_arg .fm rfl rfl) ?_
  refine .of_ite ((hrs2.str_arg .aqrl rfl rfl).binary 5) ?_
  refine .of_ite ((hrs1.str_arg .shamt rfl rfl).binary 6) ?_
  refine .of_ite ((hrs1.str_arg .shamtw rfl rfl).binary 7) ?_
  refine .of_ite (hrd.str_arg .imm20 rfl rfl) ?_
  refine .of_ite (hrd.str_arg .jimm20 rfl rfl) ?_
  refine .of_ite (laid_csr l true) ?_
  refine .of_ite (laid_csr l false) ?_
  refine .of_ite (hrs1.str_arg .imm12 rfl rfl) ?_
  refine .of_ite ((hstore .imm12lo rfl rfl).str_arg .imm12hi rfl rfl) ?_
  refine .of_ite ((hstore .bimm12lo rfl rfl).str_arg .bimm12hi rfl rfl) ?_
  refine .of_ite ((hr4.binary 2).str_arg .rs3 rfl rfl) ?_
  exact .of_ite (laid_v l) (laid_r l)

/-! ### The cells -/

theorem width_replace (fp : FpName) (tok : Token) : (tok.replace fp).width = tok.width := by
  have hreg (r : RegName) : (regs (fp.replace r)).width = (regs r).width := by
    cases fp <;> cases r <;> rfl
  cases tok with
  | bits ds => rfl
  | reg r => exact hreg r
  | imm s first rest => rfl

theorem width_map_replace (fp : FpName) (t : Template) : width (t.map (Token.replace fp)) = width t := by
  induction t with
  | nil => rfl
  | cons tok t ih => rw [List.map_cons, width_cons, width_cons, ih, width_replace]

variable {l : OpLine}

/-- crunch_isa replaces the names of operands, and no place changes. -/
theorem lays_replace (fp : FpName) {t : Template} (h : Lays l t) : Lays l (t.map (Token.replace fp)) := by
  induction t with
  | nil => trivial
  | cons tok t ih =>
    refine ⟨?_, ih h.2⟩
    rw [width_map_replace]
    cases tok with
    | bits ds => exact h.1
    | imm s first rest => exact h.1
    | reg r =>
      show Spans l (width t) ((Token.reg r).replace fp).width
      rw [width_replace]
      exact h.1

/-- A bit that an operand is taken from. -/
def OperandBit (t : Template) (i : Nat) : Prop := ∃ c, (cells t)[i]? = some c ∧ c.isFixed = false

/-- A cell of a template is a fixed bit of the match, or belongs to an argument of the line. -/
theorem lays_cell {t : Template} (h : Lays l t) {i : Nat} (hi : i < width t) :
    (cells t)[i]? = some (.fixed (l.match.getLsbD i)) ∨
      OperandBit t i ∧ ∃ a ∈ l.arguments, (arglut a).2 ≤ i ∧ i ≤ (arglut a).1 := by
  induction t with
  | nil => cases hi
  | cons tok t ih =>
    obtain ⟨htok, ht⟩ := h
    rw [width_cons] at hi
    unfold OperandBit
    rw [cells, List.getElem?_append, length_cells]
    by_cases hlt : i < width t
    · rw [if_pos hlt]
      exact ih ht hlt
    · rw [if_neg hlt]
      have hk : i - width t < tok.width := by omega
      cases tok with
      | bits ds =>
        rename_i n
        left
        have hds : ds = l.match.extractLsb' (width t) n := htok
        have hkn : i - width t < n := hk
        unfold Token.cells
        rw [List.getElem?_map, List.getElem?_range hkn, Option.map_some, hds, BitVec.getLsbD_extractLsb']
        simp [hkn, show width t + (i - width t) = i by omega]
      | reg r =>
        obtain ⟨a, ha, hlo, hhi⟩ : Spans l (width t) (Token.reg r).width := htok
        have hkr : i - width t < (regs r).width := hk
        refine Or.inr ⟨⟨.reg r (i - width t), ?_, rfl⟩, a, ha, by omega, by omega⟩
        unfold Token.cells
        rw [List.getElem?_map, List.getElem?_range hkr]
        rfl
      | imm s first rest =>
        obtain ⟨a, ha, hlo, hhi⟩ : Spans l (width t) (Token.imm s first rest).width := htok
        rw [← length_token_cells] at hk
        obtain ⟨j, top, hcell⟩ := imm_cells s first rest _ (List.getElem_mem hk)
        refine Or.inr ⟨⟨_, List.getElem?_eq_getElem hk, ?_⟩, a, ha, by omega, by omega⟩
        rw [hcell]
        rfl

/-! ## What the decoder accepts -/

section
variable {lines : List Line} {st : Inputs} {name : Name} (op : Opcode) (fp : FpName)

theorem entry_laid : Laid l 32 (Listing.line op fp l).entry.bits :=
  ⟨lays_replace fp (laid_print_inst l).lays, (width_map_replace fp _).trans (laid_print_inst l).width⟩

/-- The generated test, bit by bit: it looks at all bits but those of operands. -/
theorem entry_test (b : BitVec 32) : (Listing.line op fp l).entry.test b = true ↔
    ∀ i < 32, ¬OperandBit (Listing.line op fp l).entry.bits i → b.getLsbD i = l.match.getLsbD i := by
  obtain ⟨hlays, hwidth⟩ := entry_laid (l := l) op fp
  refine (test_iff (by omega) b).trans ⟨fun h i hi hop => ?_, fun h i d hc => ?_⟩
  · rcases lays_cell hlays (hwidth ▸ hi) with hcell | ⟨hop', -⟩
    · exact h i _ hcell
    · exact absurd hop' hop
  · have hi : i < 32 := by
      rw [← hwidth, ← length_cells]
      exact (List.getElem?_eq_some_iff.mp hc).1
    have hop : ¬OperandBit (Listing.line op fp l).entry.bits i := by
      rintro ⟨c, hc', hfixed⟩
      rw [hc, Option.some.injEq] at hc'
      rw [← hc'] at hfixed
      cases hfixed
    rcases lays_cell hlays (hwidth ▸ hi) with hcell | ⟨hop', -⟩
    · rw [hc, Option.some.injEq, Cell.fixed.injEq] at hcell
      rw [h i hi hop, hcell]
    · exact absurd hop' hop

theorem opLine_match (st : Inputs) (name : Name) {i : Nat} (hi : i < 32) :
    (st.opLine name).match.getLsbD i = (st.matchOf name).testBit i := by
  show (BitVec.ofNat 32 (st.matchOf name)).getLsbD i = _
  rw [BitVec.getLsbD_ofNat]
  simp [hi]

/-- What the mask fixes is fixed in the template. -/
theorem fixed_of_mask (hacc : Accepted (st.matchOf name) (st.maskOf name) (st.argumentsOf name)) {i : Nat}
    (hmask : (st.maskOf name).testBit i = true) :
    ¬OperandBit (Listing.line op fp (st.opLine name)).entry.bits i := by
  obtain ⟨hlays, hwidth⟩ := entry_laid (l := st.opLine name) op fp
  have hi := hacc.mask i hmask
  rcases lays_cell hlays (hwidth ▸ hi) with hcell | ⟨-, a, ha, hlo, hhi⟩
  · rintro ⟨c, hc, hfixed⟩
    rw [hcell, Option.some.injEq] at hc
    rw [← hc] at hfixed
    cases hfixed
  · obtain ⟨a', ha', heq⟩ := List.mem_filterMap.mp ha
    cases a' with
    | other a' => cases heq
    | printed a' =>
      cases heq
      rw [hacc.arguments _ ha' i hlo hhi] at hmask
      cases hmask

/-- **The decoder of riscv-opcodes.** A name that is listed once is tested for its mask and match,
and for zeros in the bits that are under neither the mask nor an operand of its template. -/
theorem listed_test (h : parse_inputs lines = .ok st) (hone : st.namelist.count name = 1) (b : BitVec 32) :
    (Listing.line op fp (st.opLine name)).entry.test b = true ↔
      b.toNat &&& st.maskOf name = st.matchOf name ∧
        ∀ i < 32, (st.maskOf name).testBit i = false →
          ¬OperandBit (Listing.line op fp (st.opLine name)).entry.bits i → b.getLsbD i = false := by
  have hacc := (parse_inv h).accepted name hone
  have hunmasked {i : Nat} (hmask : (st.maskOf name).testBit i = false) :
      (st.matchOf name).testBit i = false := by
    rw [Bool.eq_false_iff] at hmask ⊢
    exact fun hm => hmask (hacc.match i hm)
  rw [entry_test]
  constructor
  · intro hfixed
    refine ⟨Nat.eq_of_testBit_eq fun i => ?_, fun i hi hmask hop => ?_⟩
    · rw [Nat.testBit_and]
      cases hmask : (st.maskOf name).testBit i with
      | false => rw [Bool.and_false, hunmasked hmask]
      | true =>
        have hi := hacc.mask i hmask
        rw [Bool.and_true, ← opLine_match st name hi]
        exact hfixed i hi (fixed_of_mask op fp hacc hmask)
    · rw [hfixed i hi hop, opLine_match st name hi, hunmasked hmask]
  · rintro ⟨hmatch, hzero⟩ i hi hop
    rw [opLine_match st name hi]
    cases hmask : (st.maskOf name).testBit i with
    | false => rw [hzero i hi hmask hop, hunmasked hmask]
    | true =>
      have hbit := congrArg (Nat.testBit · i) hmatch
      simp only [Nat.testBit_and, hmask, Bool.and_true] at hbit
      exact hbit

/-- **Overlaps.** Where two tests accept one word, the later instruction fixes to one a bit that
the earlier takes an operand from. -/
theorem listed_overlap (h : parse_inputs lines = .ok st) {n1 n2 : Name}
    (horder : List.Sublist [n1, n2] st.namelist) (hone1 : st.namelist.count n1 = 1)
    (hone2 : st.namelist.count n2 = 1) (hreal1 : n1 ∉ st.pseudos) (hreal2 : n2 ∉ st.pseudos)
    (hbase : different_base_isa n2 n1 = false) (op' : Opcode) (fp' : FpName) {b : BitVec 32}
    (h1 : (Listing.line op fp (st.opLine n1)).entry.test b = true)
    (h2 : (Listing.line op' fp' (st.opLine n2)).entry.test b = true) :
    ∃ i < 32, OperandBit (Listing.line op fp (st.opLine n1)).entry.bits i ∧
      (cells (Listing.line op' fp' (st.opLine n2)).entry.bits)[i]? = some (.fixed true) := by
  have hinv := parse_inv h
  have hacc1 := hinv.accepted n1 hone1
  have hacc2 := hinv.accepted n2 hone2
  have hne := List.pairwise_iff_forall_sublist.mp hinv.order horder hone1 hone2 hreal1 hreal2 hbase
  rw [entry_test] at h1 h2
  -- a bit under the later mask in which the two matches differ
  obtain ⟨i, hdiff⟩ := Nat.exists_testBit_ne_of_ne hne
  rw [Nat.testBit_and] at hdiff
  have hmask2 : (st.maskOf n2).testBit i = true := by
    by_contra hno
    have hm2 : (st.matchOf n2).testBit i = false := Bool.eq_false_iff.mpr fun hm => hno (hacc2.match i hm)
    rw [Bool.not_eq_true] at hno
    rw [hno, hm2, Bool.and_false] at hdiff
    exact hdiff rfl
  rw [hmask2, Bool.and_true] at hdiff
  have hi := hacc2.mask i hmask2
  have hfixed2 := fixed_of_mask op' fp' hacc2 hmask2
  have hb2 := h2 i hi hfixed2
  rw [opLine_match st n2 hi] at hb2
  -- the earlier one cannot have fixed it
  have hop1 : OperandBit (Listing.line op fp (st.opLine n1)).entry.bits i := by
    by_contra hno
    have hb1 := h1 i hi hno
    rw [opLine_match st n1 hi] at hb1
    exact hdiff (hb1.symm.trans hb2)
  have hm1 : (st.matchOf n1).testBit i = false :=
    Bool.eq_false_iff.mpr fun hm => fixed_of_mask op fp hacc1 (hacc1.match i hm) hop1
  have hm2 : (st.matchOf n2).testBit i = true := by
    rw [hm1] at hdiff
    exact Bool.eq_true_of_not_eq_false (Ne.symm hdiff)
  obtain ⟨hlays, hwidth⟩ := entry_laid (l := st.opLine n2) op' fp'
  refine ⟨i, hi, hop1, ?_⟩
  rcases lays_cell hlays (hwidth ▸ hi) with hcell | ⟨hop, -⟩
  · rw [hcell, opLine_match st n2 hi, hm2]
  · exact absurd hop hfixed2

end

/-- `aes64ks1i rd rs1 rnum`: the round number is no operand of the template, so only number 0 is decoded. -/
def aes64ks1i : Line where
  pseudo := false
  name := "aes64ks1i".toList
  fields := [.argument (.printed .rd), .argument (.printed .rs1), .argument (.other .rnum),
    .range 31 30 (some 0), .range 29 25 (some 0x18), .bit 24 (some 1), .range 14 12 (some 1),
    .range 6 0 (some 0x13)]

def aes64ks1iInputs : Inputs where
  namelist := [aes64ks1i.name]
  pseudos := []
  mask := [(aes64ks1i.name, 0xff00707f)]
  «match» := [(aes64ks1i.name, 0x31001013)]
  arguments := [(aes64ks1i.name, [.printed .rd, .printed .rs1, .other .rnum])]

/-- A word with the round number 1 has the fixed bits of the line, and fails the test. -/
theorem listed_test_aes64ks1i : parse_inputs [aes64ks1i] = .ok aes64ks1iInputs ∧
    0x31101013 &&& 0xff00707f = aes64ks1iInputs.matchOf aes64ks1i.name ∧
    (Listing.line (.spike (.other 0)) .none (aes64ks1iInputs.opLine aes64ks1i.name)).entry.test 0x31101013
      = false := by
  have hparse : parse_inputs [aes64ks1i] = .ok aes64ks1iInputs := by rfl
  refine ⟨hparse, by rfl, Bool.eq_false_iff.mpr fun htest => ?_⟩
  obtain ⟨-, hzero⟩ := (listed_test (.spike (.other 0)) .none hparse (by decide) 0x31101013).mp htest
  have hbit := hzero 20 (by decide) (by decide) ?_
  · cases hbit
  · rintro ⟨c, hc, hfixed⟩
    have hcell : (cells (Listing.line (.spike (.other 0)) .none
      (aes64ks1iInputs.opLine aes64ks1i.name)).entry.bits)[20]? = some (.fixed false) := by rfl
    rw [hcell, Option.some.injEq] at hc
    rw [← hc] at hfixed
    cases hfixed

def oriLine : Line where
  pseudo := false
  name := "ori".toList
  fields := [.argument (.printed .rd), .argument (.printed .rs1), .argument (.printed .imm12),
    .range 14 12 (some 6), .range 6 0 (some 0x13)]

/-- A hint in the place of `ori zero,rs1,imm`. -/
def prefetchLine : Line where
  pseudo := false
  name := "prefetch.r".toList
  fields := [.argument (.printed .rs1), .argument (.printed .imm12hi), .range 24 20 (some 1),
    .range 14 12 (some 6), .range 11 7 (some 0), .range 6 0 (some 0x13)]

def hintInputs : Inputs where
  namelist := [oriLine.name, prefetchLine.name]
  pseudos := []
  mask := [(oriLine.name, 0x707f), (prefetchLine.name, 0x1f07fff)]
  «match» := [(oriLine.name, 0x6013), (prefetchLine.name, 0x106013)]
  arguments := [(oriLine.name, [.printed .rd, .printed .rs1, .printed .imm12]),
    (prefetchLine.name, [.printed .rs1, .printed .imm12hi])]

theorem listed_overlap_prefetch : parse_inputs [oriLine, prefetchLine] = .ok hintInputs ∧
    ∃ i < 32, OperandBit (Listing.line (.fast .ori) .none (hintInputs.opLine oriLine.name)).entry.bits i ∧
      (cells (Listing.line (.spike (.other 0)) .none (hintInputs.opLine prefetchLine.name)).entry.bits)[i]?
        = some (.fixed true) := by
  have hparse : parse_inputs [oriLine, prefetchLine] = .ok hintInputs := by rfl
  exact ⟨hparse, listed_overlap (.fast .ori) .none hparse (List.Sublist.refl _) (by decide) (by decide) (by decide)
    (by decide) (by decide) (.spike (.other 0)) .none (b := 0x00106013) (by rfl) (by rfl)⟩

end Cavatools.Uspike.ParseOpcodes
