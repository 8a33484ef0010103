import Cavatools.Lib.Ranges
import Cavatools.Uspike.ElfImage

/-!
# What the load bias reaches

The segments of a position-independent file are mapped a page higher than the
file says, and its entry is a page higher. The section loop and `elf_find_pc`
take the addresses of the file as they are. There are three such views of the
program: the bounds of the text, the memory that is cleared, and the symbols
that are found (`Views`).

Each view is stated of the loaded program, with addresses that do not wrap,
and compared with what the code makes.

- The bounds after the loop are those of the executable sections
  (`load_sections_bounds`), as they stand in the file. The hull of moved
  sections is another one, unless nothing is executable (`bounds_iff_fixed`,
  `bounds_iff_moved`).
- The symbols are those of the last section that has some
  (`load_sections_symbols`), and `elf_find_pc` compares the pc with their
  values. A symbol that is a page higher is found at its own addresses only if
  it has no size (`symbols_iff_fixed`, `symbols_iff_moved`).
- The memory that is cleared is a list of patches. Stated on whatever memory
  holds before it, the loop clears what is loaded exactly if it would clear
  the same a bias lower (`zeroed_iff`), and a list of patches is its own image
  only if it covers nothing or everything, as there are fewer sections than
  pages in the address space (`isCleared_moved_iff`).

So the three views are those of the loaded program exactly if there is no
bias, and then nothing reaches the end of the address space, or there is
nothing that could have moved. `views_iff` states that of every file that the
loader accepts.
-/

namespace Cavatools.Uspike.Elf

open Lib (Patch putAll hull covered)
open Riscv (Mem)

/-! ## The symbol table -/

structure Elf64_Sym where
  st_name : BitVec 32
  st_value : Long
  st_size : Long
  deriving DecidableEq

def Elf64_Sym.ofBytes (b : List (BitVec 8)) : Elf64_Sym where
  st_name := field b 0 4
  st_value := field b 8 8
  st_size := field b 16 8

/-- `symtbl[0]` to `symtbl[num_syms - 1]`. -/
def symbols (symtbl : List (BitVec 8)) (num_syms : Long) : List Elf64_Sym :=
  (List.range num_syms.toNat).map fun i => Elf64_Sym.ofBytes (symtbl.drop (i * sizeof_Sym))

/-- `st_value <= pc && pc < st_value + st_size`, of unsigned numbers. -/
def Elf64_Sym.contains (s : Elf64_Sym) (pc : Long) : Bool := s.st_value ≤ pc && pc < s.st_value + s.st_size

/-- The name as its place in the string table, and `*offset`. -/
def elf_find_pc (st : Sections) (pc : Long) : Option (BitVec 32 × Long) :=
  ((symbols st.symtbl st.num_syms).find? (·.contains pc)).map fun s => (s.st_name, pc - s.st_value)

/-! ## The file -/

/-- The section headers as the loop reads them, and how it reads their names. -/
def section_table (w : World) (file : File) : List Elf64_Shdr × (Nat → BitVec 8) :=
  match load_shstrtbl w file (header file) with
  | none => ([], fun _ => 0)
  | some (shstrtbl, buf) =>
    (section_headers file (header file) (List.range (header file).e_shnum.toNat) buf, strings w shstrtbl)

def Elf64_Shdr.executable (h : Elf64_Shdr) : Bool := h.sh_flags &&& SHF_EXECINSTR != 0

/-- The sections with instructions. -/
def executables (w : World) (file : File) : List Elf64_Shdr := (section_table w file).1.filter (·.executable)

/-- The symbols in a section. -/
def Elf64_Shdr.symbols (file : File) (h : Elf64_Shdr) : List Elf64_Sym :=
  Elf.symbols ((load_elf_section file h.sh_offset h.sh_size).getD []) (h.sh_size / BitVec.ofNat 64 sizeof_Sym)

/-- The symbols of the last of these sections that is named .symtab, and `before` if none is. -/
def lastSymbols (file : File) (shstrtbl : Nat → BitVec 8) (hs : List Elf64_Shdr) (before : List Elf64_Sym) :
    List Elf64_Sym :=
  ((hs.reverse.find? (named shstrtbl · ".symtab")).map (·.symbols file)).getD before

def symbol_table (w : World) (file : File) : List Elf64_Sym :=
  lastSymbols file (section_table w file).2 (section_table w file).1 []

/-! ## The loaded program -/

/-- Where a section begins and ends when the file is loaded. Addresses do not wrap here. -/
def Elf64_Shdr.lo (bias : Long) (h : Elf64_Shdr) : Nat := h.sh_addr.toNat + bias.toNat

def Elf64_Shdr.hi (bias : Long) (h : Elf64_Shdr) : Nat := h.sh_addr.toNat + h.sh_size.toNat + bias.toNat

/-- The zeros for a section where it is loaded. -/
def Elf64_Shdr.loadedZeros (bias : Long) (h : Elf64_Shdr) : Patch 64 (BitVec 8) :=
  ⟨h.sh_addr + bias, h.sh_size.toNat, fun _ => 0⟩

def Elf64_Sym.lo (bias : Long) (s : Elf64_Sym) : Nat := s.st_value.toNat + bias.toNat

def Elf64_Sym.hi (bias : Long) (s : Elf64_Sym) : Nat := s.st_value.toNat + s.st_size.toNat + bias.toNat

/-- The place is inside the symbol. -/
def Elf64_Sym.holds (bias : Long) (a : Nat) (s : Elf64_Sym) : Bool := s.lo bias ≤ a && a < s.hi bias

/-- The bounds are the hull of the executable sections where they are loaded. -/
def BoundsLoaded (w : World) (file : File) (r : Loaded) : Prop :=
  {a : Nat | r.sections.low_bound.toNat ≤ a ∧ a < r.sections.high_bound.toNat} =
    hull (executables w file) (·.lo (load_bias file)) (·.hi (load_bias file))

/-- The section loop clears .bss and .sbss where they are loaded, whatever memory holds. -/
def ZeroedLoaded (w : World) (file : File) : Prop :=
  ∀ shstrtbl st st', load_shstrtbl w file (header file) = some (shstrtbl, st.header) →
    load_sections file (header file) (strings w shstrtbl) (List.range (header file).e_shnum.toNat) st =
      some st' →
    ∀ a, st'.space.mem a =
      if covered ((cleared w file).map (·.loadedZeros (load_bias file))) a then 0 else st.space.mem a

/-- A pc in a symbol where it is loaded is found as the first such symbol, with the offset in it. -/
def SymbolsLoaded (w : World) (file : File) (r : Loaded) : Prop :=
  ∀ a s, (symbol_table w file).find? (·.holds (load_bias file) a) = some s →
    ∃ pc : Long, pc.toNat = a ∧
      elf_find_pc r.sections pc = some (s.st_name, BitVec.ofNat 64 (a - s.lo (load_bias file)))

/-- The three views of the loaded program. -/
structure Views (w : World) (file : File) (r : Loaded) : Prop where
  bounds : BoundsLoaded w file r
  zeroed : ZeroedLoaded w file
  symbols : SymbolsLoaded w file r

/-- With a bias: no section has an instruction, none is cleared, or all of memory is, and no symbol
has a size. Without one: no executable section and no symbol reaches the end of the address space. -/
def Agree (w : World) (file : File) : Prop :=
  if (header file).e_type = ET_DYN then
    (∀ h ∈ executables w file, ∀ k ∈ executables w file, h.hi 0 ≤ k.lo 0) ∧
      ((∀ a, isCleared w file a = false) ∨ ∀ a, isCleared w file a = true) ∧
      ∀ s ∈ symbol_table w file, s.st_size = 0
  else
    (∀ h ∈ executables w file, h.hi 0 < 2 ^ 64) ∧ ∀ s ∈ symbol_table w file, s.hi 0 < 2 ^ 64

/-! ## The bounds -/

section
variable {file : File} {eh : Elf64_Ehdr} {shstrtbl : Nat → BitVec 8} {st st' : Sections}

theorem toNat_lower_le (x y : Long) (a : Nat) :
    (if x < y then x else y).toNat ≤ a ↔ y.toNat ≤ a ∨ x.toNat ≤ a := by
  split
  next h =>
    have hlt : x.toNat < y.toNat := h
    omega
  next h =>
    have hge : ¬x.toNat < y.toNat := h
    omega

theorem lt_toNat_upper (x y : Long) (a : Nat) :
    a < (if y < x then x else y).toNat ↔ a < y.toNat ∨ a < x.toNat := by
  split
  next h =>
    have hlt : y.toNat < x.toNat := h
    omega
  next h =>
    have hge : ¬y.toNat < x.toNat := h
    omega

/-- What a section adds to the addresses from `low_bound` up and to those below `high_bound`. -/
theorem find_bounds_bounds (h : Elf64_Shdr) (st : Sections) (a : Nat) :
    ((find_bounds h st).low_bound.toNat ≤ a ↔
      st.low_bound.toNat ≤ a ∨ (h.executable = true ∧ h.sh_addr.toNat ≤ a)) ∧
    (a < (find_bounds h st).high_bound.toNat ↔
      a < st.high_bound.toNat ∨ (h.executable = true ∧ a < (h.sh_addr + h.sh_size).toNat)) := by
  by_cases hexec : h.executable = true
  · have hfound : find_bounds h st = { st with
        low_bound := if h.sh_addr < st.low_bound then h.sh_addr else st.low_bound
        high_bound := if st.high_bound < h.sh_addr + h.sh_size then h.sh_addr + h.sh_size
          else st.high_bound } := if_pos hexec
    rw [hfound, and_iff_right hexec, and_iff_right hexec]
    exact ⟨toNat_lower_le _ _ a, lt_toNat_upper _ _ a⟩
  · have hfound : find_bounds h st = st := if_neg hexec
    rw [hfound]
    simp only [hexec, false_and, or_false, Bool.false_eq_true]
    exact ⟨trivial, trivial⟩

/-- **The bounds** after the loop: those before, and those of the executable sections. -/
theorem load_sections_bounds {is : List Nat} (hload : load_sections file eh shstrtbl is st = some st')
    (a : Nat) :
    (st'.low_bound.toNat ≤ a ↔ st.low_bound.toNat ≤ a ∨
      ∃ h ∈ (section_headers file eh is st.header).filter (·.executable), h.sh_addr.toNat ≤ a) ∧
    (a < st'.high_bound.toNat ↔ a < st.high_bound.toNat ∨
      ∃ h ∈ (section_headers file eh is st.header).filter (·.executable),
        a < (h.sh_addr + h.sh_size).toNat) := by
  induction is generalizing st with
  | nil =>
    obtain rfl := Option.some.inj hload
    simp [section_headers]
  | cons i is ih =>
    obtain ⟨st₁, hsec, hrest⟩ := Option.bind_eq_some_iff.mp hload
    obtain ⟨space, st₂, -, htable, rfl⟩ := load_section_cases hsec
    obtain ⟨hlow, hhigh⟩ := ih hrest
    obtain ⟨hlow', hhigh'⟩ := find_bounds_bounds (Elf64_Shdr.ofBytes
      (read file (eh.e_shoff + BitVec.ofNat 64 (i * sizeof_Shdr)).toNat st.header)) st₂ a
    obtain ⟨strtbl, symtbl, num_syms, rfl⟩ := load_table_spec htable
    have hheader := (load_section_spec hsec).1
    rw [hlow, hhigh, hlow', hhigh', hheader, section_headers]
    simp only [List.mem_filter, List.mem_cons, or_and_right, exists_or, and_assoc, exists_eq_left, or_assoc,
      and_self]

/-! ## The symbols -/

theorem find_bounds_symbols (h : Elf64_Shdr) (st : Sections) :
    (find_bounds h st).symtbl = st.symtbl ∧ (find_bounds h st).num_syms = st.num_syms := by
  unfold find_bounds
  split <;> exact ⟨rfl, rfl⟩

/-- No section is named both, so each of the two tables is loaded on its own. -/
theorem not_symtab {h : Elf64_Shdr} (hstr : named shstrtbl h ".strtab" = true) :
    named shstrtbl h ".symtab" = false := by
  have hstrtab : ".strtab".toList = ['.', 's', 't', 'r', 't', 'a', 'b'] := rfl
  have hsymtab : ".symtab".toList = ['.', 's', 'y', 'm', 't', 'a', 'b'] := rfl
  unfold named at hstr ⊢
  rw [hstrtab] at hstr
  rw [hsymtab]
  simp only [streq, Bool.and_eq_true, beq_iff_eq] at hstr
  obtain ⟨-, -, hthird, -⟩ := hstr
  simp [streq, hthird]

/-- The symbol table after a section: its own symbols if it is named .symtab, or those of before. -/
theorem load_table_symbols {h : Elf64_Shdr} (hload : load_table file shstrtbl h st = some st') :
    symbols st'.symtbl st'.num_syms =
      if named shstrtbl h ".symtab" then h.symbols file else symbols st.symtbl st.num_syms := by
  unfold load_table at hload
  split at hload
  next hstr =>
    obtain ⟨_, -, rfl⟩ := Option.map_eq_some_iff.mp hload
    rw [not_symtab hstr, if_neg Bool.false_ne_true]
  next =>
    split at hload
    next hsym =>
      obtain ⟨bytes, hbytes, rfl⟩ := Option.map_eq_some_iff.mp hload
      rw [if_pos hsym, Elf64_Shdr.symbols, hbytes, Option.getD_some]
    next hsym =>
      obtain rfl := Option.some.inj hload
      rw [if_neg hsym]

theorem lastSymbols_cons (h : Elf64_Shdr) (hs : List Elf64_Shdr) (before : List Elf64_Sym) :
    lastSymbols file shstrtbl (h :: hs) before =
      lastSymbols file shstrtbl hs (if named shstrtbl h ".symtab" then h.symbols file else before) := by
  unfold lastSymbols
  rw [List.reverse_cons, List.find?_append]
  cases hs.reverse.find? (named shstrtbl · ".symtab") with
  | some k => rfl
  | none =>
    rw [Option.none_or, List.find?_singleton]
    cases named shstrtbl h ".symtab" <;> rfl

/-- **The symbols** after the loop are those of the last section that has some. -/
theorem load_sections_symbols {is : List Nat} (hload : load_sections file eh shstrtbl is st = some st') :
    symbols st'.symtbl st'.num_syms =
      lastSymbols file shstrtbl (section_headers file eh is st.header) (symbols st.symtbl st.num_syms) := by
  induction is generalizing st with
  | nil =>
    obtain rfl := Option.some.inj hload
    rfl
  | cons i is ih =>
    obtain ⟨st₁, hsec, hrest⟩ := Option.bind_eq_some_iff.mp hload
    obtain ⟨space, st₂, -, htable, rfl⟩ := load_section_cases hsec
    obtain ⟨hsymtbl, hnum⟩ := find_bounds_symbols (Elf64_Shdr.ofBytes
      (read file (eh.e_shoff + BitVec.ofNat 64 (i * sizeof_Shdr)).toNat st.header)) st₂
    have hheader := (load_section_spec hsec).1
    rw [ih hrest, hheader, hsymtbl, hnum, load_table_symbols htable, section_headers, lastSymbols_cons]

/-! ## The cleared memory -/

theorem load_table_isSome (h : Elf64_Shdr) (st st₁ : Sections) :
    (load_table file shstrtbl h st).isSome = (load_table file shstrtbl h st₁).isSome := by
  unfold load_table
  split
  · rw [Option.isSome_map, Option.isSome_map]
  · split
    · rw [Option.isSome_map, Option.isSome_map]
    · rfl

theorem load_section_isSome {st₁ : Sections} (hheader : st₁.header = st.header) (i : Nat) :
    (load_section file eh shstrtbl st₁ i).isSome = (load_section file eh shstrtbl st i).isSome := by
  unfold load_section
  rw [hheader]
  split
  · rfl
  · rw [Option.isSome_map, Option.isSome_map]
    exact load_table_isSome _ _ _

/-- Whether the loop ends well is the same whatever memory holds. -/
theorem load_sections_some {is : List Nat} (hload : load_sections file eh shstrtbl is st = some st')
    {st₁ : Sections} (hheader : st₁.header = st.header) :
    ∃ st₂, load_sections file eh shstrtbl is st₁ = some st₂ := by
  induction is generalizing st st₁ with
  | nil => exact ⟨st₁, rfl⟩
  | cons i is ih =>
    obtain ⟨st₃, hsec, hrest⟩ := Option.bind_eq_some_iff.mp hload
    obtain ⟨st₄, hsec'⟩ : ∃ st₄, load_section file eh shstrtbl st₁ i = some st₄ := by
      rw [← Option.isSome_iff_exists, load_section_isSome hheader, hsec]
      rfl
    have hsame : st₄.header = st₃.header := by
      rw [(load_section_spec hsec').1, (load_section_spec hsec).1, hheader]
    obtain ⟨st₂, hst₂⟩ := ih hrest hsame
    exact ⟨st₂, Option.bind_eq_some_iff.mpr ⟨st₄, hsec', hst₂⟩⟩

end

/-! ## What was loaded -/

section
variable {w : World} {file : File} {r : Loaded}

/-- The section loop of a file that is accepted. -/
theorem load_elf_binary_sections (h : load_elf_binary w file = some r) :
    ∃ shstrtbl st, load_shstrtbl w file (header file) = some (shstrtbl, st.header) ∧
      st.low_bound = -1 ∧ st.high_bound = 0 ∧ symbols st.symtbl st.num_syms = [] ∧
      load_sections file (header file) (strings w shstrtbl) (List.range (header file).e_shnum.toNat) st =
        some r.sections := by
  unfold load_elf_binary at h
  split at h
  · cases h
  next eh ph hheaders =>
    obtain ⟨rfl, -⟩ := load_headers_spec hheaders
    simp only at h
    split at h
    · cases h
    · split at h
      · cases h
      next shstrtbl buf hshstrtbl =>
        split at h
        · cases h
        next st hsections =>
          obtain ⟨space, -, rfl⟩ := Option.map_eq_some_iff.mp h
          exact ⟨shstrtbl, _, hshstrtbl, rfl, rfl, rfl, hsections⟩

theorem section_table_eq {shstrtbl : List (BitVec 8)} {buf : List (BitVec 8)}
    (h : load_shstrtbl w file (header file) = some (shstrtbl, buf)) :
    section_table w file = (section_headers file (header file)
      (List.range (header file).e_shnum.toNat) buf, strings w shstrtbl) := by
  unfold section_table
  rw [h]

/-- The bounds are the hull of the addresses of the file. -/
theorem bounds_eq (h : load_elf_binary w file = some r) :
    {a : Nat | r.sections.low_bound.toNat ≤ a ∧ a < r.sections.high_bound.toNat} =
      hull (executables w file) (·.lo 0) (fun h => h.hi 0 % 2 ^ 64) := by
  obtain ⟨shstrtbl, st, hshstrtbl, hlow, hhigh, -, hsections⟩ := load_elf_binary_sections h
  have hexec : executables w file = (section_headers file (header file)
      (List.range (header file).e_shnum.toNat) st.header).filter (·.executable) := by
    rw [executables, section_table_eq hshstrtbl]
  ext a
  obtain ⟨hlo, hhi⟩ := load_sections_bounds hsections a
  rw [hlow] at hlo
  rw [hhigh] at hhi
  show r.sections.low_bound.toNat ≤ a ∧ a < r.sections.high_bound.toNat ↔
    (∃ h ∈ executables w file, h.sh_addr.toNat + 0 ≤ a) ∧
      ∃ h ∈ executables w file, a < (h.sh_addr.toNat + h.sh_size.toNat + 0) % 2 ^ 64
  rw [hlo, hhi, hexec]
  simp only [Nat.add_zero, BitVec.toNat_add]
  constructor
  · intro hin
    obtain ⟨hlo, hend⟩ := hin
    have hhi := hend.resolve_left (Nat.not_lt_zero a)
    refine ⟨hlo.resolve_left ?_, hhi⟩
    -- no end is above the place that the loop begins with
    obtain ⟨k, -, hk⟩ := hhi
    have hmod : (k.sh_addr.toNat + k.sh_size.toNat) % 2 ^ 64 < 2 ^ 64 := Nat.mod_lt _ (by decide)
    show ¬2 ^ 64 - 1 ≤ a
    omega
  · intro hin
    exact ⟨Or.inr hin.1, Or.inr hin.2⟩

/-- The symbols that `elf_find_pc` looks through. -/
theorem symbols_eq (h : load_elf_binary w file = some r) :
    symbols r.sections.symtbl r.sections.num_syms = symbol_table w file := by
  obtain ⟨shstrtbl, st, hshstrtbl, -, -, hnone, hsections⟩ := load_elf_binary_sections h
  rw [load_sections_symbols hsections, hnone, symbol_table, section_table_eq hshstrtbl]

/-! ## The three views -/

theorem bounds_iff_fixed (h : load_elf_binary w file = some r) (hbias : load_bias file = 0) :
    BoundsLoaded w file r ↔ ∀ h ∈ executables w file, h.hi 0 < 2 ^ 64 := by
  rw [BoundsLoaded, bounds_eq h, hbias]
  exact Lib.hull_mod_iff fun h _ => h.sh_addr.isLt

theorem bounds_iff_moved (h : load_elf_binary w file = some r) (hbias : 0 < (load_bias file).toNat) :
    BoundsLoaded w file r ↔ ∀ h ∈ executables w file, ∀ k ∈ executables w file, h.hi 0 ≤ k.lo 0 := by
  rw [BoundsLoaded, bounds_eq h]
  exact Lib.hull_moved_iff (fun h _ => Nat.mod_le _ _) hbias

theorem covers_loadedZeros (h : Elf64_Shdr) (bias a : Long) :
    (h.loadedZeros bias).covers a = h.zeros.covers (a - bias) := by
  have hplace : a - (h.sh_addr + bias) = a - bias - h.sh_addr := by ring
  unfold Patch.covers
  show decide ((a - (h.sh_addr + bias)).toNat < _) = decide ((a - bias - h.sh_addr).toNat < _)
  rw [hplace]
  rfl

theorem covered_loadedZeros (w : World) (file : File) (bias a : Long) :
    covered ((cleared w file).map (·.loadedZeros bias)) a = isCleared w file (a - bias) := by
  rw [covered, List.any_map, isCleared]
  exact congrArg _ (funext fun h => covers_loadedZeros h bias a)

/-- What the section loop makes of memory. -/
theorem load_sections_mem {shstrtbl : List (BitVec 8)} {st st' : Sections}
    (hshstrtbl : load_shstrtbl w file (header file) = some (shstrtbl, st.header))
    (hload : load_sections file (header file) (strings w shstrtbl) (List.range (header file).e_shnum.toNat) st =
      some st') (a : Long) :
    st'.space.mem a = if isCleared w file a then 0 else st.space.mem a := by
  have hzeros : ∀ b ∈ (cleared w file).map (·.zeros), ∀ o, b.val o = 0 := by
    intro b hb o
    obtain ⟨h, -, rfl⟩ := List.mem_map.mp hb
    rfl
  rw [(load_sections_spec hload).2, ← cleared_eq hshstrtbl, Lib.putAll_const hzeros, List.any_map]
  rfl

/-- The loop clears what is loaded exactly if it would clear the same a bias lower. -/
theorem zeroed_iff (h : load_elf_binary w file = some r) :
    ZeroedLoaded w file ↔ ∀ a, isCleared w file (a - load_bias file) = isCleared w file a := by
  constructor
  · intro hzeroed a
    obtain ⟨shstrtbl, st, hshstrtbl, -, -, -, hsections⟩ := load_elf_binary_sections h
    -- memory without a zero shows what is cleared
    let ones : Sections := { st with space := ⟨fun _ => 1, st.space.maps⟩ }
    have hones : load_shstrtbl w file (header file) = some (shstrtbl, ones.header) := hshstrtbl
    obtain ⟨st₂, hst₂⟩ := load_sections_some hsections (show ones.header = st.header from rfl)
    have hmem := hzeroed shstrtbl ones st₂ hones hst₂ a
    rw [load_sections_mem hones hst₂, covered_loadedZeros] at hmem
    show isCleared w file (a - load_bias file) = isCleared w file a
    cases hc : isCleared w file a <;> cases hd : isCleared w file (a - load_bias file) <;>
      rw [hc, hd] at hmem <;> first | rfl | cases hmem
  · intro hsame shstrtbl st st' hshstrtbl hload a
    rw [load_sections_mem hshstrtbl hload, covered_loadedZeros, hsame]

theorem length_section_headers (file : File) (eh : Elf64_Ehdr) (is : List Nat) (buf : List (BitVec 8)) :
    (section_headers file eh is buf).length = is.length := by
  induction is generalizing buf with
  | nil => rfl
  | cons i is ih => rw [section_headers, List.length_cons, List.length_cons, ih]

theorem length_cleared (w : World) (file : File) : (cleared w file).length < 2 ^ 16 := by
  unfold cleared
  split
  · decide
  · refine lt_of_le_of_lt (List.length_filter_le _ _) ?_
    rw [length_section_headers, List.length_range]
    exact (header file).e_shnum.isLt

/-- A page higher, the same is cleared only if nothing is, or everything. -/
theorem isCleared_moved_iff (w : World) (file : File) :
    (∀ a, isCleared w file (a - RISCV_PGSIZE) = isCleared w file a) ↔
      (∀ a, isCleared w file a = false) ∨ ∀ a, isCleared w file a = true := by
  constructor
  · intro hsame
    have hcovered (a : Long) : covered ((cleared w file).map (·.zeros)) a = isCleared w file a := by
      rw [covered, List.any_map]
      rfl
    have hmoved (a : Long) : covered ((cleared w file).map (·.zeros)) (a + RISCV_PGSIZE) =
        covered ((cleared w file).map (·.zeros)) a := by
      rw [hcovered, hcovered, ← hsame, add_sub_cancel_right]
    have hends := Lib.covered_moved hmoved ?_
    · simp only [hcovered] at hends
      exact hends
    · intro j hj k hk heq
      have hlen := length_cleared w file
      rw [List.length_map] at hj hk
      have hnat := congrArg BitVec.toNat heq
      rw [BitVec.toNat_mul, BitVec.toNat_mul, BitVec.toNat_ofNat, BitVec.toNat_ofNat] at hnat
      have hpage : RISCV_PGSIZE.toNat = 4096 := rfl
      rw [hpage] at hnat
      omega
  · intro hall a
    rcases hall with hall | hall <;> rw [hall, hall]

theorem contains_iff (s : Elf64_Sym) (pc : Long) :
    s.contains pc = true ↔ s.lo 0 ≤ pc.toNat ∧ pc.toNat < s.hi 0 % 2 ^ 64 := by
  unfold Elf64_Sym.contains
  rw [Bool.and_eq_true, decide_eq_true_iff, decide_eq_true_iff, BitVec.le_def, BitVec.lt_def, BitVec.toNat_add]
  exact Iff.rfl

theorem holds_iff (s : Elf64_Sym) (bias : Long) (a : Nat) :
    s.holds bias a = true ↔ s.lo bias ≤ a ∧ a < s.hi bias := by
  unfold Elf64_Sym.holds
  rw [Bool.and_eq_true, decide_eq_true_iff, decide_eq_true_iff]

theorem elf_find_pc_eq (h : load_elf_binary w file = some r) (pc : Long) :
    elf_find_pc r.sections pc =
      ((symbol_table w file).find? (·.contains pc)).map fun s => (s.st_name, pc - s.st_value) := by
  rw [elf_find_pc, symbols_eq h]

/-- Without a bias, a symbol is missed only where its end wraps. -/
theorem symbols_iff_fixed (h : load_elf_binary w file = some r) (hbias : load_bias file = 0) :
    SymbolsLoaded w file r ↔ ∀ s ∈ symbol_table w file, s.hi 0 < 2 ^ 64 := by
  unfold SymbolsLoaded
  simp only [hbias, elf_find_pc_eq h]
  constructor
  · intro hfound s hs
    by_contra hge
    -- the last address is in the symbol, and in no symbol as the loader sees them
    have hholds : s.holds 0 (2 ^ 64 - 1) = true := by
      rw [holds_iff]
      have hlt : s.lo 0 < 2 ^ 64 := s.st_value.isLt
      omega
    obtain ⟨k, hk⟩ := Option.isSome_iff_exists.mp
      (List.find?_isSome (p := fun s : Elf64_Sym => s.holds 0 (2 ^ 64 - 1)).mpr ⟨s, hs, hholds⟩)
    obtain ⟨pc, hpc, hmap⟩ := hfound _ k hk
    obtain ⟨j, hj, -⟩ := Option.map_eq_some_iff.mp hmap
    have hin := List.find?_some hj
    obtain ⟨-, hend⟩ := (contains_iff j pc).mp hin
    have hmod : j.hi 0 % 2 ^ 64 < 2 ^ 64 := Nat.mod_lt _ (by decide)
    omega
  · intro hfit a s hs
    have hmem := List.mem_of_find?_eq_some hs
    obtain ⟨hlo, hhi⟩ := (holds_iff s 0 a).mp (List.find?_some hs)
    have ha : a < 2 ^ 64 := hhi.trans (hfit s hmem)
    have htoNat : (BitVec.ofNat 64 a).toNat = a := by rw [BitVec.toNat_ofNat, Nat.mod_eq_of_lt ha]
    have hsame : (symbol_table w file).find? (·.contains (BitVec.ofNat 64 a)) = some s := by
      rw [← hs]
      refine List.find?_congr ?_
      intro k hk
      rw [Bool.eq_iff_iff, contains_iff, holds_iff, htoNat, Nat.mod_eq_of_lt (hfit k hk)]
    refine ⟨BitVec.ofNat 64 a, htoNat, ?_⟩
    have hle : s.st_value ≤ BitVec.ofNat 64 a := by
      rw [BitVec.le_def, htoNat]
      exact hlo
    have hoffset : BitVec.ofNat 64 a - s.st_value = BitVec.ofNat 64 (a - s.lo 0) := by
      apply BitVec.eq_of_toNat_eq
      rw [BitVec.toNat_sub_of_le hle, htoNat, BitVec.toNat_ofNat, Nat.mod_eq_of_lt (by omega)]
      rfl
    rw [hsame, Option.map_some, hoffset]

/-- With a bias, the first place of a moved symbol is missed, or found with another symbol or
another offset. -/
theorem symbols_iff_moved (h : load_elf_binary w file = some r) (hbias : 0 < (load_bias file).toNat) :
    SymbolsLoaded w file r ↔ ∀ s ∈ symbol_table w file, s.st_size = 0 := by
  unfold SymbolsLoaded
  simp only [elf_find_pc_eq h]
  constructor
  · intro hfound s hs
    by_contra hsize
    have hpos : s.st_size.toNat ≠ 0 := fun h => hsize (BitVec.eq_of_toNat_eq h)
    -- where a symbol is loaded there is another one in the file, which is loaded higher up
    refine Lib.false_of_ascent (P := fun a => ∃ s ∈ symbol_table w file, s.holds (load_bias file) a = true)
      (B := 2 ^ 64) hbias ?_ (a := s.lo (load_bias file)) ⟨s, hs, ?_⟩
    · intro a ha
      obtain ⟨k, hk⟩ := Option.isSome_iff_exists.mp
        (List.find?_isSome (p := fun s : Elf64_Sym => s.holds (load_bias file) a).mpr ha)
      obtain ⟨pc, rfl, hmap⟩ := hfound a k hk
      obtain ⟨j, hj, -⟩ := Option.map_eq_some_iff.mp hmap
      have hin := List.find?_some hj
      obtain ⟨hlo, hend⟩ := (contains_iff j pc).mp hin
      refine ⟨pc.isLt, j, List.mem_of_find?_eq_some hj, ?_⟩
      have hmod : j.hi 0 % 2 ^ 64 ≤ j.hi 0 := Nat.mod_le _ _
      rw [holds_iff]
      show j.lo 0 + (load_bias file).toNat ≤ _ ∧ _ < j.hi 0 + (load_bias file).toNat
      omega
    · rw [holds_iff]
      refine ⟨le_rfl, ?_⟩
      show s.st_value.toNat + (load_bias file).toNat <
        s.st_value.toNat + s.st_size.toNat + (load_bias file).toNat
      omega
  · intro hzero a s hs
    obtain ⟨hlo, hhi⟩ := (holds_iff s _ a).mp (List.find?_some hs)
    have hsize : s.st_size.toNat = 0 := by
      rw [hzero s (List.mem_of_find?_eq_some hs)]
      rfl
    have hlo' : s.st_value.toNat + (load_bias file).toNat ≤ a := hlo
    have hhi' : a < s.st_value.toNat + s.st_size.toNat + (load_bias file).toNat := hhi
    omega

/-- **The bias.** The three views of an accepted file are those of the loaded program exactly if they
agree with the file: where there is no bias, unless something reaches the end of the address space, and
where there is one, only if it moves nothing. -/
theorem views_iff (h : load_elf_binary w file = some r) : Views w file r ↔ Agree w file := by
  have hparts : Views w file r ↔ BoundsLoaded w file r ∧ ZeroedLoaded w file ∧ SymbolsLoaded w file r :=
    ⟨fun h => ⟨h.bounds, h.zeroed, h.symbols⟩, fun h => ⟨h.1, h.2.1, h.2.2⟩⟩
  rw [hparts, zeroed_iff h]
  unfold Agree
  by_cases hdyn : (header file).e_type = ET_DYN
  · have hbias : load_bias file = RISCV_PGSIZE := if_pos hdyn
    have hpos : 0 < (load_bias file).toNat := by
      rw [hbias]
      decide
    rw [if_pos hdyn, bounds_iff_moved h hpos, symbols_iff_moved h hpos, hbias, isCleared_moved_iff]
  · have hbias : load_bias file = 0 := if_neg hdyn
    have hzeroed : ∀ a, isCleared w file (a - load_bias file) = isCleared w file a := by
      intro a
      rw [hbias, sub_zero]
    rw [if_neg hdyn, bounds_iff_fixed h hbias, symbols_iff_fixed h hbias, and_iff_right hzeroed]

end

/-! ## A small file -/

/-- One segment, of 424 bytes in the file and 4112 in memory, with .text at the end of its file bytes,
.bss at the end of its memory, and one symbol, the text. -/
def fourSections (e_type : Nat) : File :=
  magic ++ [2, 1, 1] ++ le 9 0 ++ le 2 e_type ++ le 2 243 ++ le 4 1 ++ le 8 0x101a4 ++ le 8 64 ++ le 8 120 ++
    le 4 0 ++ le 2 64 ++ le 2 56 ++ le 2 1 ++ le 2 64 ++ le 2 4 ++ le 2 0 ++
  (le 4 1 ++ le 4 7 ++ le 8 0 ++ le 8 0x10000 ++ le 8 0x10000 ++ le 8 424 ++ le 8 4112 ++ le 8 0x1000) ++
  (le 4 0 ++ le 4 3 ++ le 8 0 ++ le 8 0 ++ le 8 376 ++ le 8 20 ++ le 24 0) ++
  (le 4 1 ++ le 4 1 ++ le 8 6 ++ le 8 0x101a4 ++ le 8 420 ++ le 8 4 ++ le 24 0) ++
  (le 4 7 ++ le 4 8 ++ le 8 3 ++ le 8 0x11000 ++ le 8 424 ++ le 8 16 ++ le 24 0) ++
  (le 4 12 ++ le 4 2 ++ le 8 0 ++ le 8 0 ++ le 8 396 ++ le 8 24 ++ le 24 0) ++
  ("\x00.text\x00.bss\x00.symtab\x00".toList.map fun c => BitVec.ofNat 8 c.toNat) ++
  (le 4 1 ++ le 4 0 ++ le 8 0x101a4 ++ le 8 4) ++ le 4 0x73

/-- As a fixed-address executable. -/
theorem views_exec : ∃ r, load_elf_binary emptyWorld (fourSections 2) = some r ∧
    Views emptyWorld (fourSections 2) r := by
  have hsome : (load_elf_binary emptyWorld (fourSections 2)).isSome = true := by decide +kernel
  obtain ⟨r, hr⟩ := Option.isSome_iff_exists.mp hsome
  refine ⟨r, hr, (views_iff hr).mpr ?_⟩
  have htype : (header (fourSections 2)).e_type ≠ ET_DYN := by decide +kernel
  rw [Agree, if_neg htype]
  exact ⟨by decide +kernel, by decide +kernel⟩

/-- As a position-independent one, it has its text and its symbol a page above the bounds and above
where the symbol is found, and the first of its bytes have been cleared. -/
theorem views_dyn : ∃ r, load_elf_binary emptyWorld (fourSections 3) = some r ∧
    ¬Views emptyWorld (fourSections 3) r ∧
    r.current.entry = 0x111a4 ∧ r.sections.high_bound = 0x101a8 ∧ elf_find_pc r.sections 0x111a4 = none ∧
    (fourSections 3).getD 0 0 = 0x7f ∧ r.mem 0x11000 = 0 := by
  have hmap : (load_elf_binary emptyWorld (fourSections 3)).map (fun r =>
      (r.current.entry, r.sections.high_bound, elf_find_pc r.sections 0x111a4, r.mem 0x11000)) =
      some (0x111a4, 0x101a8, none, 0) := by decide +kernel
  obtain ⟨r, hr, hfields⟩ := Option.map_eq_some_iff.mp hmap
  simp only [Prod.mk.injEq] at hfields
  obtain ⟨hentry, hhigh, hfind, hmem⟩ := hfields
  refine ⟨r, hr, ?_, hentry, hhigh, hfind, by decide +kernel, hmem⟩
  intro hviews
  have hsym : (symbol_table emptyWorld (fourSections 3)).find?
      (·.holds (load_bias (fourSections 3)) 0x111a4) = some ⟨1, 0x101a4, 4⟩ := by decide +kernel
  obtain ⟨pc, hpc, hfound⟩ := hviews.symbols 0x111a4 _ hsym
  obtain rfl : pc = 0x111a4 := BitVec.eq_of_toNat_eq hpc
  rw [hfind] at hfound
  cases hfound

end Cavatools.Uspike.Elf
