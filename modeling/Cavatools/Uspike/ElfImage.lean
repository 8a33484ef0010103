import Cavatools.Uspike.Elf

/-!
# What the loader leaves at an address

A segment is mapped in whole pages: in front of it there are zeros, behind its
file bytes whatever the file goes on with to the end of the page, and then
pages of zeros. All of it is one patch (`load_segment_spec`), which takes the
two calls of `mmap` and the `memset` together; the pages fit, because the
kernel has refused what does not (`Placed`).

The loops write patches one after another. The segment loop goes from the last
segment to the first (`load_segments_spec`), the section loop writes zeros for
the sections that it clears (`load_sections_spec`), and the stack comes last,
where nothing was (`mmapHint_spec`). So the memory after `load_elf_binary` is
a list of patches over the memory before it (`load_elf_binary_spec`), and by
the theorem about the last writer a place holds what the first segment in the
table whose pages cover it puts there, unless a section clears it (`mem_at`).

What a place should hold is `Elf64_Phdr.wanted`, the file's byte or zero.
`Intact` lists, in terms of the file alone, what has to be so for the byte in
memory to be that one: cleared sections cover no file bytes but zeros; behind
a segment's bytes the file goes on with zeros to the end of the page; and
where the pages of a segment that stands earlier in the table cover a place,
they hold the right byte by chance. `image_iff` shows that this is exact, for
every file on which the loader returns: in one direction because the right
byte is then what is found last, in the other because whatever is found last
is then the right byte (`wanted_of_intact`, `intact_of_wanted`).
-/

namespace Cavatools.Uspike.Elf

open Lib (Patch putAll)
open Riscv (Mem)

/-! ## The pages of a segment -/

namespace Elf64_Phdr

variable (p : Elf64_Phdr) (file : File) (bias : Long)

def prepad : Long := p.p_vaddr % RISCV_PGSIZE

/-- Where its first page is mapped. -/
def start : Long := p.p_vaddr + bias - p.prepad

/-- The length of its file pages. -/
def filePages : Nat := pages (p.p_filesz + p.prepad).toNat

def mapped : Long := ROUNDUP (p.p_filesz + p.prepad) RISCV_PGSIZE - p.prepad

/-- The length of all its pages. -/
def size : Nat := if p.mapped < p.p_memsz then p.filePages + pages (p.p_memsz - p.mapped).toNat else p.filePages

/-- What its pages hold. -/
def byte (o : Nat) : BitVec 8 :=
  if o < p.prepad.toNat then 0
  else if o < p.filePages then file.getD ((p.p_offset - p.prepad).toNat + o) 0
  else 0

def patch : Patch 64 (BitVec 8) := ⟨p.start bias, p.size, p.byte file⟩

end Elf64_Phdr

theorem mmap_spec {s s' : Space} {addr len : Long} {val : Nat → BitVec 8} (h : mmap s addr len val = some s') :
    len ≠ 0 ∧ addr.toNat + pages len.toNat ≤ TASK_SIZE ∧
      s'.mem = (Patch.mk addr (pages len.toNat) val).put s.mem ∧
      s'.maps = (addr.toNat, addr.toNat + pages len.toNat) :: s.maps := by
  unfold mmap at h
  split at h
  next hok =>
    obtain rfl := Option.some.inj h
    exact ⟨hok.2.1, hok.2.2, rfl, rfl⟩
  next => cases h

theorem mmapFile_spec {s s' : Space} {addr len offset : Long} {file : File}
    (h : mmapFile s addr len file offset = some s') :
    mmap s addr len (fun o => file.getD (offset.toNat + o) 0) = some s' := by
  unfold mmapFile at h
  split at h
  · exact h
  · cases h

theorem le_pages (n : Nat) : n ≤ pages n := by
  unfold pages PAGE
  omega

theorem toNat_prepad (p : Elf64_Phdr) : p.prepad.toNat = p.p_vaddr.toNat % PAGE :=
  BitVec.toNat_umod

/-- Rounding up does not wrap for what the kernel maps. -/
theorem toNat_ROUNDUP {x : Long} (hx : x ≠ 0) (hfit : pages x.toNat ≤ TASK_SIZE) :
    (ROUNDUP x RISCV_PGSIZE).toNat = pages x.toNat := by
  have hpos : x.toNat ≠ 0 := fun h => hx (BitVec.eq_of_toNat_eq h)
  have hone : (1 : Long).toNat ≤ x.toNat := by
    show 1 ≤ x.toNat
    omega
  have hsub : (x - 1).toNat = x.toNat - 1 := BitVec.toNat_sub_of_le hone
  have hpage : RISCV_PGSIZE.toNat = PAGE := rfl
  unfold pages PAGE TASK_SIZE at *
  rw [ROUNDUP, BitVec.toNat_mul, BitVec.toNat_add, BitVec.toNat_udiv, hsub, hpage]
  show ((x.toNat - 1) / 4096 + 1) % 2 ^ 64 * 4096 % 2 ^ 64 = _
  omega

variable {p : Elf64_Phdr} {bias : Long} {file : File} {s s' : Space}

/-- All of a segment's pages are mapped, and its file bytes fit into its file pages. -/
structure Placed (p : Elf64_Phdr) (bias : Long) (maps : List (Nat × Nat)) : Prop where
  below : (p.start bias).toNat + p.size ≤ TASK_SIZE
  filesz : p.p_filesz.toNat + p.prepad.toNat ≤ p.filePages
  memsz : p.p_memsz.toNat + p.prepad.toNat ≤ p.size
  maps : ∀ a, (p.start bias).toNat ≤ a → a < (p.start bias).toNat + p.size → ∃ r ∈ maps, r.1 ≤ a ∧ a < r.2

theorem Placed.mono {maps maps' : List (Nat × Nat)} (h : Placed p bias maps) (hsub : ∀ r ∈ maps, r ∈ maps') :
    Placed p bias maps' where
  below := h.below
  filesz := h.filesz
  memsz := h.memsz
  maps a hlo hhi := by
    obtain ⟨r, hr, hin⟩ := h.maps a hlo hhi
    exact ⟨r, hsub r hr, hin⟩

/-- After the first `mmap` and the `memset`: the file pages, with zeros in front. -/
structure FilePages (p : Elf64_Phdr) (file : File) (bias : Long) (s t : Space) : Prop where
  mem : t.mem = (Patch.mk (p.start bias) p.filePages (p.byte file)).put s.mem
  maps : t.maps = ((p.start bias).toNat, (p.start bias).toNat + p.filePages) :: s.maps
  below : (p.start bias).toNat + p.filePages ≤ TASK_SIZE
  prepad : p.prepad.toNat ≤ p.filePages
  round : (ROUNDUP (p.p_filesz + p.prepad) RISCV_PGSIZE).toNat = p.filePages

/-- The file pages, once the bytes in front of the segment are cleared. -/
theorem memset_mmapFile
    (h : mmapFile s (p.start bias) (p.p_filesz + p.prepad) file (p.p_offset - p.prepad) = some s') :
    FilePages p file bias s (memset s' (p.start bias) p.prepad.toNat) := by
  obtain ⟨hne, hfit, hmem, hmaps⟩ := mmap_spec (mmapFile_spec h)
  have hpos : (p.p_filesz + p.prepad).toNat ≠ 0 := fun h => hne (BitVec.eq_of_toNat_eq h)
  have hprepad : p.prepad.toNat ≤ p.filePages := by
    rw [toNat_prepad]
    unfold Elf64_Phdr.filePages pages PAGE
    omega
  constructor
  · show (Patch.mk (p.start bias) p.prepad.toNat fun _ => 0).put s'.mem = _
    rw [hmem]
    refine (Lib.put_prefix hprepad s.mem).trans (Lib.put_congr ?_ s.mem)
    intro o ho
    unfold Elf64_Phdr.byte
    rw [if_pos ho]
  · exact hmaps
  · exact hfit
  · exact hprepad
  · exact toNat_ROUNDUP hne (le_trans (Nat.le_add_left _ _) hfit)

/-- What the first `mmap` has covered, from `p_vaddr` on. -/
theorem FilePages.toNat_mapped {t : Space} (hpages : FilePages p file bias s t) :
    p.mapped.toNat = p.filePages - p.prepad.toNat := by
  rw [← hpages.round]
  refine BitVec.toNat_sub_of_le ?_
  rw [BitVec.le_def, hpages.round]
  exact hpages.prepad

/-- A segment that ends in its file pages. -/
theorem placed_filePages {t : Space} (hpages : FilePages p file bias s t)
    (hle : p.p_filesz.toNat ≤ p.p_memsz.toNat) (hmore : ¬p.mapped < p.p_memsz) :
    t.mem = (p.patch file bias).put s.mem ∧ Placed p bias t.maps := by
  have hsize : p.size = p.filePages := if_neg hmore
  have hshort : p.p_memsz.toNat ≤ p.mapped.toNat := not_lt.mp hmore
  have hmapped := hpages.toNat_mapped
  have hprepad := hpages.prepad
  refine ⟨?_, ?_, ?_, ?_, ?_⟩
  · rw [hpages.mem, Elf64_Phdr.patch, hsize]
  · rw [hsize]
    exact hpages.below
  · omega
  · omega
  · intro a hlo hhi
    refine ⟨_, hpages.maps ▸ List.mem_cons_self, hlo, ?_⟩
    show a < _
    omega

/-- A segment with pages of zeros behind them, which the second `mmap` adds. -/
theorem placed_more {t : Space} (hpages : FilePages p file bias s t) (hle : p.p_filesz.toNat ≤ p.p_memsz.toNat)
    (hmore : p.mapped < p.p_memsz)
    (h : mmap t (p.p_vaddr + bias + p.mapped) (p.p_memsz - p.mapped) (fun _ => 0) = some s') :
    s'.mem = (p.patch file bias).put s.mem ∧ (∀ r ∈ t.maps, r ∈ s'.maps) ∧ Placed p bias s'.maps := by
  have hsize : p.size = p.filePages + pages (p.p_memsz - p.mapped).toNat := if_pos hmore
  have hmapped := hpages.toNat_mapped
  have hprepad := hpages.prepad
  have hbelow := hpages.below
  unfold TASK_SIZE at hbelow
  have hstart : p.p_vaddr + bias + p.mapped = p.start bias + BitVec.ofNat 64 p.filePages := by
    rw [← hpages.round, BitVec.ofNat_toNat, BitVec.setWidth_eq, Elf64_Phdr.mapped, Elf64_Phdr.start]
    abel
  have hplace : (p.start bias + BitVec.ofNat 64 p.filePages).toNat = (p.start bias).toNat + p.filePages := by
    rw [BitVec.toNat_add, BitVec.toNat_ofNat, Nat.add_mod_mod, Nat.mod_eq_of_lt (by omega)]
  rw [hstart] at h
  obtain ⟨-, hfit, hmem, hmaps⟩ := mmap_spec h
  rw [hplace] at hfit hmaps
  have hlong : p.mapped.toNat < p.p_memsz.toNat := hmore
  have hrest : (p.p_memsz - p.mapped).toNat = p.p_memsz.toNat - p.mapped.toNat :=
    BitVec.toNat_sub_of_le (BitVec.le_of_lt hmore)
  have hrounded := le_pages (p.p_memsz - p.mapped).toNat
  -- `p_filesz` and the zeros in front do not wrap, so they are what was rounded up
  have hsum : (p.p_filesz + p.prepad).toNat = (p.p_filesz.toNat + p.prepad.toNat) % 2 ^ 64 := BitVec.toNat_add _ _
  have hfile : (p.p_filesz + p.prepad).toNat ≤ p.filePages := le_pages _
  unfold TASK_SIZE at hfit
  refine ⟨?_, ?_, ?_, ?_, ?_, ?_⟩
  · rw [hmem, hpages.mem, Lib.put_append (by omega), ← hsize]
    refine Lib.put_congr ?_ s.mem
    intro o _
    by_cases ho : o < p.filePages
    · rw [if_pos ho]
    · rw [if_neg ho, Elf64_Phdr.byte, if_neg (by omega), if_neg ho]
  · intro r hr
    rw [hmaps]
    exact List.mem_cons_of_mem _ hr
  · unfold TASK_SIZE
    omega
  · have hsmall : p.prepad.toNat < 4096 := by
      rw [toNat_prepad]
      unfold PAGE
      omega
    omega
  · omega
  · intro a hlo hhi
    rw [hmaps]
    by_cases ha : a < (p.start bias).toNat + p.filePages
    · exact ⟨_, List.mem_cons_of_mem _ (hpages.maps ▸ List.mem_cons_self), hlo, ha⟩
    · refine ⟨_, List.mem_cons_self, not_lt.mp ha, ?_⟩
      show a < _
      omega

/-- **One segment** is one patch. -/
theorem load_segment_spec (hle : p.p_filesz.toNat ≤ p.p_memsz.toNat) (h : load_segment file bias p s = some s') :
    s'.mem = (p.patch file bias).put s.mem ∧ (∀ r ∈ s.maps, r ∈ s'.maps) ∧ Placed p bias s'.maps := by
  unfold load_segment at h
  simp only at h
  split at h
  · cases h
  next s₁ hfile =>
    have hpages : FilePages p file bias s (memset s₁ (p.start bias) p.prepad.toNat) := memset_mmapFile hfile
    have hold (r : Nat × Nat) (hr : r ∈ s.maps) : r ∈ (memset s₁ (p.start bias) p.prepad.toNat).maps :=
      hpages.maps ▸ List.mem_cons_of_mem _ hr
    change (if p.mapped < p.p_memsz then mmap (memset s₁ (p.start bias) p.prepad.toNat)
      (p.p_vaddr + bias + p.mapped) (p.p_memsz - p.mapped) (fun _ => 0)
      else some (memset s₁ (p.start bias) p.prepad.toNat)) = some s' at h
    by_cases hmore : p.mapped < p.p_memsz
    · rw [if_pos hmore] at h
      obtain ⟨hmem, hmaps, hplaced⟩ := placed_more hpages hle hmore h
      exact ⟨hmem, fun r hr => hmaps r (hold r hr), hplaced⟩
    · rw [if_neg hmore] at h
      obtain rfl := Option.some.inj h
      obtain ⟨hmem, hplaced⟩ := placed_filePages hpages hle hmore
      exact ⟨hmem, hold, hplaced⟩

/-! ## The loops -/

/-- **The segment loop** writes the patches of what it loads, and every one of them was placed. The
induction is along the loop, in which mapped ranges only become more. -/
theorem load_segments_spec {ps : List Elf64_Phdr} {info info' : pinfo_t}
    (hle : ∀ p ∈ ps, p.loads = true → p.p_filesz.toNat ≤ p.p_memsz.toNat)
    (h : load_segments file bias ps (info, s) = some (info', s')) :
    s'.mem = putAll ((ps.filter (·.loads)).map (·.patch file bias)) s.mem ∧ (∀ r ∈ s.maps, r ∈ s'.maps) ∧
      ∀ p ∈ ps.filter (·.loads), Placed p bias s'.maps := by
  -- on the table, in the order in which the loop maps it: from the last
  induction ps generalizing info s with
  | nil =>
    obtain rfl := (Prod.mk.inj (Option.some.inj h)).2
    exact ⟨rfl, fun _ hr => hr, fun p hp => by cases hp⟩
  | cons p ps ih =>
    have hle' (q : Elf64_Phdr) (hq : q ∈ ps) := hle q (List.mem_cons_of_mem _ hq)
    rw [load_segments] at h
    split at h
    · cases h
    · by_cases hp : p.loads = true
      · rw [if_pos hp] at h
        simp only at h
        split at h
        · cases h
        next s₁ hseg =>
          obtain ⟨hmem, hmaps, hplaced⟩ := load_segment_spec (hle p List.mem_cons_self hp) hseg
          obtain ⟨hmem', hmaps', hplaced'⟩ := ih hle' h
          rw [List.filter_cons_of_pos hp]
          refine ⟨?_, fun r hr => hmaps' r (hmaps r hr), ?_⟩
          · rw [hmem', hmem]
            rfl
          · intro q hq
            rcases List.mem_cons.mp hq with rfl | hq
            · exact hplaced.mono hmaps'
            · exact hplaced' q hq
      · rw [if_neg hp] at h
        rw [List.filter_cons_of_neg hp]
        exact ih hle' h

/-- The section headers as the loop reads them, one over the other. -/
def section_headers (file : File) (eh : Elf64_Ehdr) : List Nat → List (BitVec 8) → List Elf64_Shdr
  | [], _ => []
  | i :: is, header =>
    let buf := read file (eh.e_shoff + BitVec.ofNat 64 (i * sizeof_Shdr)).toNat header
    Elf64_Shdr.ofBytes buf :: section_headers file eh is buf

/-- The zeros that a section is cleared with. -/
def Elf64_Shdr.zeros (h : Elf64_Shdr) : Patch 64 (BitVec 8) := ⟨h.sh_addr, h.sh_size.toNat, fun _ => 0⟩

variable {eh : Elf64_Ehdr} {shstrtbl : Nat → BitVec 8} {st st' : Sections}

/-- A string table or a symbol table changes nothing else. -/
theorem load_table_spec {h : Elf64_Shdr} (hload : load_table file shstrtbl h st = some st') :
    ∃ strtbl symtbl num_syms, st' = { st with strtbl, symtbl, num_syms } := by
  unfold load_table at hload
  split at hload
  · obtain ⟨strtbl, -, rfl⟩ := Option.map_eq_some_iff.mp hload
    exact ⟨strtbl, _, _, rfl⟩
  · split at hload
    · obtain ⟨symtbl, -, rfl⟩ := Option.map_eq_some_iff.mp hload
      exact ⟨_, symtbl, _, rfl⟩
    · obtain rfl := Option.some.inj hload
      exact ⟨_, _, _, rfl⟩

theorem find_bounds_spec (h : Elf64_Shdr) (st : Sections) :
    (find_bounds h st).header = st.header ∧ (find_bounds h st).space = st.space := by
  unfold find_bounds
  split <;> exact ⟨rfl, rfl⟩

theorem lseek_spec {offset : Long} {n : Nat} (h : lseek offset = some n) : n = offset.toNat := by
  unfold lseek at h
  split at h
  · exact (Option.some.inj h).symm
  · cases h

/-- The steps of the body: `memset`, the tables, the bounds. -/
theorem load_section_cases {i : Nat} (hload : load_section file eh shstrtbl st i = some st') :
    let buf := read file (eh.e_shoff + BitVec.ofNat 64 (i * sizeof_Shdr)).toNat st.header
    let h := Elf64_Shdr.ofBytes buf
    ∃ space st₁,
      (space = if isBss shstrtbl h then memset st.space h.sh_addr h.sh_size.toNat else st.space) ∧
      load_table file shstrtbl h { st with header := buf, space } = some st₁ ∧ st' = find_bounds h st₁ := by
  unfold load_section at hload
  split at hload
  · cases hload
  next offset hseek =>
    obtain rfl := lseek_spec hseek
    obtain ⟨st₁, htable, rfl⟩ := Option.map_eq_some_iff.mp hload
    exact ⟨_, st₁, rfl, htable, rfl⟩

/-- One turn of the section loop: its header is read over the one before, and it clears its
addresses or nothing. -/
theorem load_section_spec {i : Nat} (hload : load_section file eh shstrtbl st i = some st') :
    let buf := read file (eh.e_shoff + BitVec.ofNat 64 (i * sizeof_Shdr)).toNat st.header
    st'.header = buf ∧ st'.space.maps = st.space.maps ∧
      st'.space.mem = putAll
        (if isBss shstrtbl (Elf64_Shdr.ofBytes buf) then [(Elf64_Shdr.ofBytes buf).zeros] else [])
        st.space.mem := by
  obtain ⟨space, st₁, hmemset, htable, rfl⟩ := load_section_cases hload
  obtain ⟨strtbl, symtbl, num_syms, rfl⟩ := load_table_spec htable
  obtain ⟨hheader, hspace⟩ := find_bounds_spec (Elf64_Shdr.ofBytes
    (read file (eh.e_shoff + BitVec.ofNat 64 (i * sizeof_Shdr)).toNat st.header)) _
  -- only the `memset` in the middle reaches memory
  refine ⟨hheader, ?_, ?_⟩
  · rw [hspace, hmemset]
    split <;> rfl
  · rw [hspace, hmemset]
    split <;> rfl

/-- **The section loop** clears the sections named .bss and .sbss, in order, and maps nothing. -/
theorem load_sections_spec {is : List Nat} (hload : load_sections file eh shstrtbl is st = some st') :
    st'.space.maps = st.space.maps ∧
      st'.space.mem = putAll (((section_headers file eh is st.header).filter (isBss shstrtbl)).map (·.zeros))
        st.space.mem := by
  -- on the section numbers; each read goes over the header before it
  induction is generalizing st with
  | nil =>
    obtain rfl := Option.some.inj hload
    exact ⟨rfl, rfl⟩
  | cons i is ih =>
    obtain ⟨st₁, hsec, hrest⟩ := Option.bind_eq_some_iff.mp hload
    obtain ⟨hheader, hmaps, hmem⟩ := load_section_spec hsec
    obtain ⟨hmaps', hmem'⟩ := ih hrest
    refine ⟨hmaps'.trans hmaps, ?_⟩
    rw [hmem', hmem, hheader, section_headers]
    split
    next hbss => rw [List.filter_cons_of_pos hbss]; rfl
    next hbss => rw [List.filter_cons_of_neg hbss]; rfl

/-! ## The file -/

/-- The ELF header. -/
def header (file : File) : Elf64_Ehdr := Elf64_Ehdr.ofBytes (file.take sizeof_Ehdr)

def load_bias (file : File) : Long := (header file).bias

/-- The program headers, in the order of the table. -/
def program_headers (file : File) : List Elf64_Phdr :=
  phdrs (header file) ((file.drop (header file).e_phoff.toNat).take (header file).phdr_size)

/-- The segments that are mapped. -/
def segments (file : File) : List Elf64_Phdr := (program_headers file).filter (·.loads)

/-- The sections that are cleared. -/
def cleared (w : World) (file : File) : List Elf64_Shdr :=
  match load_shstrtbl w file (header file) with
  | none => []
  | some (shstrtbl, buf) =>
    (section_headers file (header file) (List.range (header file).e_shnum.toNat) buf).filter
      (isBss (strings w shstrtbl))

/-- What a section read whole is. -/
theorem load_elf_section_spec {offset size : Long} {bytes : List (BitVec 8)}
    (h : load_elf_section file offset size = some bytes) (hsize : size.toNat < 2 ^ 63) :
    bytes = (file.drop offset.toNat).take size.toNat := by
  have hint : size.toInt = size.toNat := BitVec.toInt_eq_toNat_of_lt (by omega)
  unfold load_elf_section at h
  split at h
  · cases h
  next off hseek =>
    obtain rfl := lseek_spec hseek
    split at h
    · cases h
    next =>
      rw [if_neg (by omega)] at h
      simp only at h
      split at h
      · cases h
      · exact (Option.some.inj h).symm

/-- What the checks let pass is the header of the file, with the program headers that it says. -/
theorem load_headers_spec {eh : Elf64_Ehdr} {ph : List (BitVec 8)} (h : load_headers file = some (eh, ph)) :
    eh = header file ∧ phdrs eh ph = program_headers file := by
  unfold load_headers at h
  simp only at h
  split at h
  · cases h
  next hok =>
    split at h
    · cases h
    · split at h
      · cases h
      · obtain ⟨ph', hload, heq⟩ := Option.map_eq_some_iff.mp h
        obtain ⟨rfl, rfl⟩ := Prod.mk.inj heq
        refine ⟨rfl, ?_⟩
        have hphdrs : (header file).phdr_size ≤ 1024 := not_lt.mp (not_or.mp (not_or.mp hok).2).2
        have hsize : (BitVec.ofNat 64 (header file).phdr_size).toNat = (header file).phdr_size := by
          rw [BitVec.toNat_ofNat, Nat.mod_eq_of_lt (by omega)]
        rw [program_headers]
        refine congrArg (phdrs (header file)) ?_
        rw [← hsize]
        exact load_elf_section_spec hload (show (BitVec.ofNat 64 (header file).phdr_size).toNat < 2 ^ 63 by omega)

/-- The stack, as the kernel hands it out. -/
def stackPatch : Patch 64 (BitVec 8) := ⟨MEM_END - STACK_SIZE, pages STACK_SIZE.toNat, fun _ => 0⟩

/-- The stack is mapped where nothing was. -/
theorem mmapHint_spec {addr len : Long} (h : mmapHint s addr len = some s') :
    s'.mem = (Patch.mk addr (pages len.toNat) fun _ => 0).put s.mem ∧
      ∀ r ∈ s.maps, r.2 ≤ addr.toNat ∨ addr.toNat + pages len.toNat ≤ r.1 := by
  unfold mmapHint at h
  split at h
  next hfree =>
    obtain ⟨-, -, hmem, -⟩ := mmap_spec h
    refine ⟨hmem, ?_⟩
    intro r hr
    have hr' := List.all_eq_true.mp hfree r hr
    rcases Bool.or_eq_true _ _ ▸ hr' with h | h
    · exact Or.inl (of_decide_eq_true h)
    · exact Or.inr (of_decide_eq_true h)
  next => cases h

/-- The pages of a segment hold all of it and lie clear of the stack. -/
structure Clear (p : Elf64_Phdr) (bias : Long) : Prop where
  below : (p.start bias).toNat + p.size ≤ TASK_SIZE
  filesz : p.p_filesz.toNat + p.prepad.toNat ≤ p.filePages
  memsz : p.p_memsz.toNat + p.prepad.toNat ≤ p.size
  stack : ∀ a, (p.start bias).toNat ≤ a → a < (p.start bias).toNat + p.size →
    a < (MEM_END - STACK_SIZE).toNat ∨ MEM_END.toNat ≤ a

theorem clear_of_placed {maps : List (Nat × Nat)} (hplaced : Placed p bias maps)
    (hstack : ∀ r ∈ maps, r.2 ≤ (MEM_END - STACK_SIZE).toNat ∨
      (MEM_END - STACK_SIZE).toNat + pages STACK_SIZE.toNat ≤ r.1) : Clear p bias where
  below := hplaced.below
  filesz := hplaced.filesz
  memsz := hplaced.memsz
  stack a hlo hhi := by
    obtain ⟨r, hr, hin⟩ := hplaced.maps a hlo hhi
    have hend : (MEM_END - STACK_SIZE).toNat + pages STACK_SIZE.toNat = MEM_END.toNat := rfl
    have hapart := hstack r hr
    omega

/-- What there is to clear is read from the string table that the loader has found. -/
theorem cleared_eq {w : World} {strtbl buf : List (BitVec 8)}
    (h : load_shstrtbl w file (header file) = some (strtbl, buf)) :
    cleared w file = (section_headers file (header file) (List.range (header file).e_shnum.toNat) buf).filter
      (isBss (strings w strtbl)) := by
  rw [cleared, h]

/-- **The loader** writes the segments from the last to the first, clears, and maps the stack. -/
theorem load_elf_binary_spec {w : World} {r : Loaded}
    (hle : ∀ p ∈ segments file, p.p_filesz.toNat ≤ p.p_memsz.toNat) (h : load_elf_binary w file = some r) :
    r.mem = putAll ((segments file).reverse.map (·.patch file (load_bias file)) ++
      (cleared w file).map (·.zeros) ++ [stackPatch]) w.mem ∧
      ∀ p ∈ segments file, Clear p (load_bias file) := by
  unfold load_elf_binary at h
  split at h
  · cases h
  next eh ph hheaders =>
    obtain ⟨rfl, hphdrs⟩ := load_headers_spec hheaders
    simp only at h
    split at h
    · cases h
    next info space hsegments =>
      rw [hphdrs] at hsegments
      obtain ⟨hmem₁, -, hplaced⟩ := load_segments_spec
        (fun p hp hl => hle p (List.mem_filter.mpr ⟨List.mem_reverse.mp hp, hl⟩)) hsegments
      split at h
      · cases h
      next strtbl buf hstr =>
        split at h
        · cases h
        next st hsections =>
          obtain ⟨space', hstack, rfl⟩ := Option.map_eq_some_iff.mp h
          obtain ⟨hmaps₂, hmem₂⟩ := load_sections_spec hsections
          obtain ⟨hmem₃, hfree⟩ := mmapHint_spec hstack
          rw [hmaps₂] at hfree
          refine ⟨?_, fun p hp => clear_of_placed (hplaced p ?_) hfree⟩
          · rw [Lib.putAll_append, Lib.putAll_append, cleared_eq hstr]
            show space'.mem = stackPatch.put _
            rw [hmem₃, hmem₂, hmem₁, List.filter_reverse]
            rfl
          · rw [List.filter_reverse]
            exact List.mem_reverse.mpr hp

/-- The segment loop leaves the size of the program headers. -/
theorem load_segments_phdr_size {ps : List Elf64_Phdr} {info info' : pinfo_t}
    (h : load_segments file bias ps (info, s) = some (info', s')) : info'.phdr_size = info.phdr_size := by
  induction ps generalizing info s with
  | nil => rw [(Prod.mk.inj (Option.some.inj h)).1]
  | cons p ps ih =>
    rw [load_segments] at h
    split at h
    · cases h
    · split at h
      · simp only at h
        split at h
        · cases h
        · exact (ih h).trans rfl
      · exact (ih h).trans rfl

/-- The stack that the loader leaves, and what it says of it. -/
theorem load_elf_binary_stack {w : World} {r : Loaded} (h : load_elf_binary w file = some r) :
    r.current.stack_top = MEM_END ∧ r.current.phdr_size = BitVec.ofNat 64 sizeof_phdrs ∧
      ∀ a : Long, (MEM_END - STACK_SIZE).toNat ≤ a.toNat → a.toNat < MEM_END.toNat → r.mem a = 0 := by
  unfold load_elf_binary at h
  split at h
  · cases h
  · simp only at h
    split at h
    · cases h
    next info space hsegments =>
      split at h
      · cases h
      · split at h
        · cases h
        next st _ =>
          obtain ⟨space', hstack, rfl⟩ := Option.map_eq_some_iff.mp h
          refine ⟨rfl, load_segments_phdr_size hsegments, ?_⟩
          intro a hlo hhi
          show space'.mem a = 0
          rw [(mmapHint_spec hstack).1]
          refine stackPatch.put_of_covers (decide_eq_true ?_)
          have hsub : (a - (MEM_END - STACK_SIZE)).toNat = a.toNat - (MEM_END - STACK_SIZE).toNat :=
            BitVec.toNat_sub_of_le hlo
          have hend : MEM_END.toNat = (MEM_END - STACK_SIZE).toNat + pages STACK_SIZE.toNat := rfl
          show (a - (MEM_END - STACK_SIZE)).toNat < pages STACK_SIZE.toNat
          omega

/-! ## The image -/

/-- A place of a segment. -/
def Elf64_Phdr.addr (p : Elf64_Phdr) (bias : Long) (k : Nat) : Long := p.p_vaddr + bias + BitVec.ofNat 64 k

/-- A cleared section covers the place. -/
def isCleared (w : World) (file : File) (a : Long) : Bool := (cleared w file).any (·.zeros.covers a)

/-- The first segment in the table whose pages cover the place. -/
def holder (file : File) (a : Long) : Option Elf64_Phdr :=
  (segments file).find? fun q => (q.patch file (load_bias file)).covers a

/-- A place of a segment is in the segment's own pages. -/
theorem covers_addr (hclear : Clear p bias) {k : Nat} (hk : k < p.p_memsz.toNat) (file : File) :
    (p.addr bias k - p.start bias).toNat = p.prepad.toNat + k ∧
      (p.patch file bias).covers (p.addr bias k) = true := by
  have hbelow := hclear.below
  have hmemsz := hclear.memsz
  unfold TASK_SIZE at hbelow
  have hoff : p.addr bias k - p.start bias = p.prepad + BitVec.ofNat 64 k := by
    rw [Elf64_Phdr.addr, Elf64_Phdr.start]
    abel
  have hnat : (p.addr bias k - p.start bias).toNat = p.prepad.toNat + k := by
    rw [hoff, BitVec.toNat_add, BitVec.toNat_ofNat, Nat.add_mod_mod, Nat.mod_eq_of_lt (by omega)]
  refine ⟨hnat, decide_eq_true ?_⟩
  show (p.addr bias k - p.start bias).toNat < p.size
  omega

/-- **What is at a place** of a segment in the end. -/
theorem mem_at {w : World} {r : Loaded} (hle : ∀ p ∈ segments file, p.p_filesz.toNat ≤ p.p_memsz.toNat)
    (h : load_elf_binary w file = some r) (hp : p ∈ segments file) {k : Nat} (hk : k < p.p_memsz.toNat) :
    ∃ q, holder file (p.addr (load_bias file) k) = some q ∧
      r.mem (p.addr (load_bias file) k) = if isCleared w file (p.addr (load_bias file) k) then 0
        else q.byte file (p.addr (load_bias file) k - q.start (load_bias file)).toNat := by
  obtain ⟨hmem, hclear⟩ := load_elf_binary_spec hle h
  have hp' := hclear p hp
  obtain ⟨-, hcovers⟩ := covers_addr hp' hk file
  have hstack : stackPatch.covers (p.addr (load_bias file) k) = false := by
    have hbelow := hp'.below
    unfold TASK_SIZE at hbelow
    obtain ⟨hlo, hhi⟩ := Lib.toNat_of_covers
      (show (p.start (load_bias file)).toNat + p.size ≤ 2 ^ 64 by omega) hcovers
    exact Lib.not_covers (by decide) (hp'.stack _ hlo hhi)
  obtain ⟨q, hq⟩ : ∃ q, holder file (p.addr (load_bias file) k) = some q :=
    Option.isSome_iff_exists.mp (List.find?_isSome.mpr ⟨p, hp, hcovers⟩)
  refine ⟨q, hq, ?_⟩
  rw [hmem, Lib.putAll_append, Lib.putAll_append]
  -- the last writers first: not the stack, then the cleared sections, then the segments
  refine (stackPatch.put_of_not_covers hstack).trans ?_
  have hzeros : ∀ b ∈ (cleared w file).map (·.zeros), ∀ o, b.val o = 0 := by
    intro b hb o
    obtain ⟨h, -, rfl⟩ := List.mem_map.mp hb
    rfl
  rw [Lib.putAll_const hzeros, List.any_map, Lib.putAll_eq, ← List.map_reverse,
    List.reverse_reverse, List.find?_map]
  rw [show (segments file).find?
    ((·.covers (p.addr (load_bias file) k)) ∘ (·.patch file (load_bias file))) = some q from hq]
  rfl

/-- A well-formed static file. -/
structure Static (file : File) : Prop where
  apart : ((program_headers file).filter (·.p_type == PT_LOAD)).Pairwise fun p q =>
    p.p_vaddr.toNat + p.p_memsz.toNat ≤ q.p_vaddr.toNat ∨ q.p_vaddr.toNat + q.p_memsz.toNat ≤ p.p_vaddr.toNat
  filesz_le : ∀ p ∈ program_headers file, p.p_type = PT_LOAD → p.p_filesz.toNat ≤ p.p_memsz.toNat
  congruent : ∀ p ∈ program_headers file, p.p_type = PT_LOAD → p.p_offset.toNat % PAGE = p.p_vaddr.toNat % PAGE

/-- Each segment's file bytes are in memory, and zeros behind them. -/
structure Image (file : File) (m : Mem) : Prop where
  bytes : ∀ p ∈ program_headers file, p.p_type = PT_LOAD → ∀ k < p.p_filesz.toNat,
    m (p.addr (load_bias file) k) = file.getD (p.p_offset.toNat + k) 0
  zero : ∀ p ∈ program_headers file, p.p_type = PT_LOAD → ∀ k, p.p_filesz.toNat ≤ k → k < p.p_memsz.toNat →
    m (p.addr (load_bias file) k) = 0

/-- The byte that a place of a segment is for. -/
def Elf64_Phdr.wanted (p : Elf64_Phdr) (file : File) (k : Nat) : BitVec 8 :=
  if k < p.p_filesz.toNat then file.getD (p.p_offset.toNat + k) 0 else 0

/-- What has to be so for the image to be right. -/
structure Intact (w : World) (file : File) : Prop where
  /-- The sections that are cleared cover no bytes of the file but zeros. -/
  cleared : ∀ p ∈ segments file, ∀ k < p.p_filesz.toNat,
    isCleared w file (p.addr (load_bias file) k) = true → file.getD (p.p_offset.toNat + k) 0 = 0
  /-- Behind a segment's bytes the file goes on with zeros, to the end of the page or of the
  segment, where no section is cleared. -/
  tail : ∀ p ∈ segments file, ∀ k, p.p_filesz.toNat ≤ k → k < p.p_memsz.toNat →
    p.prepad.toNat + k < p.filePages → isCleared w file (p.addr (load_bias file) k) = false →
    holder file (p.addr (load_bias file) k) = some p → file.getD (p.p_offset.toNat + k) 0 = 0
  /-- Where the pages of a segment that stands earlier in the table cover a place, they hold
  the right byte by chance. -/
  shared : ∀ p ∈ segments file, ∀ k < p.p_memsz.toNat, isCleared w file (p.addr (load_bias file) k) = false →
    ∀ q, holder file (p.addr (load_bias file) k) = some q → q ≠ p →
      q.byte file (p.addr (load_bias file) k - q.start (load_bias file)).toNat = p.wanted file k

theorem mem_segments : p ∈ segments file ↔ p ∈ program_headers file ∧ p.p_type = PT_LOAD ∧ p.p_memsz ≠ 0 := by
  simp [segments, Elf64_Phdr.loads]

/-- A segment's own pages. -/
theorem byte_own (hcongruent : p.p_offset.toNat % PAGE = p.p_vaddr.toNat % PAGE) (k : Nat) :
    p.byte file (p.prepad.toNat + k)
      = if p.prepad.toNat + k < p.filePages then file.getD (p.p_offset.toNat + k) 0 else 0 := by
  have hle : p.prepad.toNat ≤ p.p_offset.toNat := by
    rw [toNat_prepad, ← hcongruent]
    exact Nat.mod_le _ _
  have hsub : (p.p_offset - p.prepad).toNat = p.p_offset.toNat - p.prepad.toNat := BitVec.toNat_sub_of_le hle
  have hplace : p.p_offset.toNat - p.prepad.toNat + (p.prepad.toNat + k) = p.p_offset.toNat + k := by omega
  rw [Elf64_Phdr.byte, if_neg (by omega), hsub, hplace]

/-- The image is right exactly if every place of a segment has the byte that it is for. -/
theorem image_iff_wanted
    (hle : ∀ p ∈ program_headers file, p.p_type = PT_LOAD → p.p_filesz.toNat ≤ p.p_memsz.toNat) {m : Mem} :
    Image file m ↔ ∀ p ∈ segments file, ∀ k < p.p_memsz.toNat,
      m (p.addr (load_bias file) k) = p.wanted file k := by
  constructor
  · intro himage p hp k hk
    obtain ⟨hph, hload, -⟩ := mem_segments.mp hp
    unfold Elf64_Phdr.wanted
    split
    next hfile => exact himage.bytes p hph hload k hfile
    next hzero => exact himage.zero p hph hload k (not_lt.mp hzero) hk
  · intro hwanted
    -- a header with a place has a size, so it is one of the segments that are mapped
    have hseg {p : Elf64_Phdr} (hph : p ∈ program_headers file) (hload : p.p_type = PT_LOAD) {k : Nat}
        (hk : k < p.p_memsz.toNat) : p ∈ segments file := by
      refine mem_segments.mpr ⟨hph, hload, ?_⟩
      intro hzero
      rw [hzero] at hk
      exact Nat.not_lt_zero k hk
    constructor
    · intro p hph hload k hk
      have hk' := lt_of_lt_of_le hk (hle p hph hload)
      rw [hwanted p (hseg hph hload hk') k hk', Elf64_Phdr.wanted, if_pos hk]
    · intro p hph hload k hlo hhi
      rw [hwanted p (hseg hph hload hhi) k hhi, Elf64_Phdr.wanted, if_neg (not_lt.mpr hlo)]

theorem Static.filesz_le_segments (hstatic : Static file) (p : Elf64_Phdr) (hp : p ∈ segments file) :
    p.p_filesz.toNat ≤ p.p_memsz.toNat :=
  hstatic.filesz_le p (mem_segments.mp hp).1 (mem_segments.mp hp).2.1

/-- What a segment's own pages put at its places. -/
theorem byte_addr (hstatic : Static file) (hp : p ∈ segments file) (hclear : Clear p bias) {k : Nat}
    (hk : k < p.p_memsz.toNat) :
    p.byte file (p.addr bias k - p.start bias).toNat
      = if p.prepad.toNat + k < p.filePages then file.getD (p.p_offset.toNat + k) 0 else 0 := by
  rw [(covers_addr hclear hk file).1]
  exact byte_own (hstatic.congruent p (mem_segments.mp hp).1 (mem_segments.mp hp).2.1) k

section
variable {w : World} {r : Loaded} (hstatic : Static file) (hload : load_elf_binary w file = some r)
include hstatic hload

/-- If every place has its byte, then whatever is there in the end is that byte. -/
theorem intact_of_wanted (hwanted : ∀ p ∈ segments file, ∀ k < p.p_memsz.toNat,
    r.mem (p.addr (load_bias file) k) = p.wanted file k) : Intact w file := by
  have hle := hstatic.filesz_le_segments
  obtain ⟨-, hclear⟩ := load_elf_binary_spec hle hload
  constructor
  · intro p hp k hk hcl
    have hk' := lt_of_lt_of_le hk (hle p hp)
    obtain ⟨q, -, hmem⟩ := mem_at hle hload hp hk'
    rw [hwanted p hp k hk', Elf64_Phdr.wanted, if_pos hk, if_pos hcl] at hmem
    exact hmem
  · intro p hp k hlo hhi htail hcl hheld
    obtain ⟨q, hq, hmem⟩ := mem_at hle hload hp hhi
    obtain rfl := Option.some.inj (hheld.symm.trans hq)
    rw [hwanted p hp k hhi, Elf64_Phdr.wanted, if_neg (not_lt.mpr hlo), hcl, if_neg Bool.false_ne_true,
      byte_addr hstatic hp (hclear p hp) hhi, if_pos htail] at hmem
    exact hmem.symm
  · intro p hp k hk hcl q hheld _
    obtain ⟨q', hq, hmem⟩ := mem_at hle hload hp hk
    obtain rfl := Option.some.inj (hheld.symm.trans hq)
    rw [hwanted p hp k hk, hcl, if_neg Bool.false_ne_true] at hmem
    exact hmem.symm

/-- And if nothing wrong covers a place, it has its byte. -/
theorem wanted_of_intact (hintact : Intact w file) (p : Elf64_Phdr) (hp : p ∈ segments file) (k : Nat)
    (hk : k < p.p_memsz.toNat) : r.mem (p.addr (load_bias file) k) = p.wanted file k := by
  have hle := hstatic.filesz_le_segments
  obtain ⟨-, hclear⟩ := load_elf_binary_spec hle hload
  obtain ⟨q, hq, hmem⟩ := mem_at hle hload hp hk
  rw [hmem]
  cases hcl : isCleared w file (p.addr (load_bias file) k) with
  | true =>
    rw [if_pos rfl, Elf64_Phdr.wanted]
    split
    next hfile => exact (hintact.cleared p hp k hfile hcl).symm
    next => rfl
  | false =>
    rw [if_neg Bool.false_ne_true]
    by_cases hqp : q = p
    · -- the segment's own pages: its bytes, then the tail of the page, then zeros
      subst hqp
      rw [byte_addr hstatic hp (hclear q hp) hk, Elf64_Phdr.wanted]
      have hfilesz := (hclear q hp).filesz
      by_cases hfile : k < q.p_filesz.toNat
      · rw [if_pos hfile, if_pos (by omega)]
      · rw [if_neg hfile]
        split
        next htail => exact hintact.tail q hp k (not_lt.mp hfile) hk htail hcl hq
        next => rfl
    · exact hintact.shared p hp k hk hcl q hq hqp

end

/-- **The image** is right exactly if nothing else covers what is mapped. -/
theorem image_iff {w : World} {r : Loaded} (hstatic : Static file) (h : load_elf_binary w file = some r) :
    Image file r.mem ↔ Intact w file := by
  rw [image_iff_wanted hstatic.filesz_le]
  exact ⟨intact_of_wanted hstatic h, wanted_of_intact hstatic h⟩

/-! ## A small file -/

/-- A number in `n` bytes. -/
def le (n v : Nat) : List (BitVec 8) := (List.range n).map fun i => BitVec.ofNat 8 (v >>> (8 * i))

/-- An executable with one segment, of 120 bytes in the file and 136 in memory, and two
sections: the string table, and one without bytes that covers the last 16. `name` is where
its name stands in the string table, `.bss` at 1 and `.heap` at 6. -/
def oneSegment (name : Nat) : File :=
  magic ++ [2, 1, 1] ++ le 9 0 ++ le 2 2 ++ le 2 243 ++ le 4 1 ++ le 8 0x10078 ++ le 8 64 ++ le 8 120 ++ le 4 0 ++
    le 2 64 ++ le 2 56 ++ le 2 1 ++ le 2 64 ++ le 2 2 ++ le 2 0 ++
  (le 4 1 ++ le 4 7 ++ le 8 0 ++ le 8 0x10000 ++ le 8 0x10000 ++ le 8 120 ++ le 8 136 ++ le 8 0x1000) ++
  (le 4 0 ++ le 4 3 ++ le 8 0 ++ le 8 0 ++ le 8 248 ++ le 8 12 ++ le 24 0) ++
  (le 4 name ++ le 4 8 ++ le 8 3 ++ le 8 0x10078 ++ le 8 248 ++ le 8 16 ++ le 24 0) ++
  "\x00.bss\x00.heap\x00".toList.map fun c => BitVec.ofNat 8 c.toNat

def theSegment : Elf64_Phdr := ⟨PT_LOAD, 0, 0x10000, 120, 136⟩

def emptyWorld : World where
  mem _ := 0
  phdr := 0x7f0000000000
  beyond _ := 0
  header := List.replicate sizeof_Shdr 0
  header_length := rfl

/-- The section of this file clears what lies behind the file bytes of the segment, so the rest of
the page does not show. -/
theorem intact_bss : Intact emptyWorld (oneSegment 1) := by
  have hsegments : segments (oneSegment 1) = [theSegment] := by decide +kernel
  -- the segment ends with the section, and nothing else is there
  have hbytes : ∀ k < 120,
      isCleared emptyWorld (oneSegment 1) (theSegment.addr (load_bias (oneSegment 1)) k) = false := by
    decide +kernel
  have hzeros : ∀ k < 136, 120 ≤ k →
      isCleared emptyWorld (oneSegment 1) (theSegment.addr (load_bias (oneSegment 1)) k) = true := by
    decide +kernel
  have hthe {p : Elf64_Phdr} (hp : p ∈ segments (oneSegment 1)) : p = theSegment := by
    rw [hsegments] at hp
    exact List.mem_singleton.mp hp
  constructor
  · intro p hp k hk hcl
    obtain rfl := hthe hp
    rw [hbytes k hk] at hcl
    cases hcl
  · intro p hp k hlo hhi _ hcl
    obtain rfl := hthe hp
    rw [hzeros k hhi hlo] at hcl
    cases hcl
  · intro p hp k _ _ q hq hne
    exact absurd ((hthe (List.mem_of_find?_eq_some hq)).trans (hthe hp).symm) hne

theorem image_iff_bss : ∃ r, load_elf_binary emptyWorld (oneSegment 1) = some r ∧ Image (oneSegment 1) r.mem := by
  have hsome : (load_elf_binary emptyWorld (oneSegment 1)).isSome = true := by decide +kernel
  obtain ⟨r, hr⟩ := Option.isSome_iff_exists.mp hsome
  refine ⟨r, hr, (image_iff ⟨?_, ?_, ?_⟩ hr).mpr intact_bss⟩
  · decide +kernel
  · decide +kernel
  · decide +kernel

/-- With another name the segment goes on with the bytes of the section headers. -/
theorem image_heap : Static (oneSegment 6) ∧ ∃ r, load_elf_binary emptyWorld (oneSegment 6) = some r ∧
    ¬Image (oneSegment 6) r.mem := by
  refine ⟨⟨by decide +kernel, by decide +kernel, by decide +kernel⟩, ?_⟩
  have hmap : (load_elf_binary emptyWorld (oneSegment 6)).map
      (fun r => r.mem (theSegment.addr (load_bias (oneSegment 6)) 124)) = some 3 := by decide +kernel
  obtain ⟨r, hr, hbyte⟩ := Option.map_eq_some_iff.mp hmap
  refine ⟨r, hr, ?_⟩
  intro himage
  have hmem : theSegment ∈ program_headers (oneSegment 6) := by decide +kernel
  rw [himage.zero theSegment hmem rfl 124 (by decide) (by decide)] at hbyte
  cases hbyte

end Cavatools.Uspike.Elf
