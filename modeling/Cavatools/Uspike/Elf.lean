import Cavatools.Lib.Patch
import Cavatools.Riscv.Memory
import Cavatools.Uspike.Insn

/-!
# The ELF loader

`load_elf_binary` maps the segments of a static ELF file from the last to the
first, each in whole pages, clears the sections named .bss and .sbss, finds
the bounds of the text and the symbol table, and maps the stack. This file is
the code; what it leaves at an address is the subject of the next ones.

A file is a list of bytes, and the structs of elf.h are read from it field by
field, least significant byte first. Of the kernel only what the loader uses
is modelled: `read` stops at the end of the file and leaves the rest of the
buffer as it was, which shows in the section loop, since that reads each
header over the one before; `mmap` with a fixed address takes whole pages,
whatever was there; of a file it has zeros behind its end; and an address that
is only a hint is taken if it is free (`mmapHint`). `World` is what the
program finds when it calls the loader: memory, where the kernel puts what the
loader allocates for itself, and what lies behind a string table.

Each part of the function is a definition of its own under the name of what it
does: the headers (`load_headers`), the segment loop (`load_segments`) with
its body, the string table, the section loop (`load_sections`) with its body,
and the stack. What the loader allocates lies elsewhere and is kept as lists
of bytes. `none` is every way in which it does not return: a check that ends
the process, or a call of the kernel that fails.
-/

namespace Cavatools.Uspike.Elf

open Lib (Patch)
open Riscv (Mem)

/-! ## The structs of elf.h -/

abbrev File := List (BitVec 8)

/-- `n` bytes of a struct, least significant first. -/
def field (buf : List (BitVec 8)) (off n : Nat) : BitVec (8 * n) :=
  Mem.load (fun a => buf.getD a.toNat 0) (BitVec.ofNat 64 off) n

structure Elf64_Ehdr where
  e_type : BitVec 16
  e_entry : Long
  e_phoff : Long
  e_shoff : Long
  e_phnum : BitVec 16
  e_shnum : BitVec 16
  e_shstrndx : BitVec 16
  deriving DecidableEq

structure Elf64_Phdr where
  p_type : BitVec 32
  p_offset : Long
  p_vaddr : Long
  p_filesz : Long
  p_memsz : Long
  deriving DecidableEq

structure Elf64_Shdr where
  sh_name : BitVec 32
  sh_flags : Long
  sh_addr : Long
  sh_offset : Long
  sh_size : Long
  deriving DecidableEq

def sizeof_Ehdr : Nat := 64
def sizeof_Phdr : Nat := 56
def sizeof_Shdr : Nat := 64
def sizeof_Sym : Nat := 24

def Elf64_Ehdr.ofBytes (b : List (BitVec 8)) : Elf64_Ehdr where
  e_type := field b 16 2
  e_entry := field b 24 8
  e_phoff := field b 32 8
  e_shoff := field b 40 8
  e_phnum := field b 56 2
  e_shnum := field b 60 2
  e_shstrndx := field b 62 2

def Elf64_Phdr.ofBytes (b : List (BitVec 8)) : Elf64_Phdr where
  p_type := field b 0 4
  p_offset := field b 8 8
  p_vaddr := field b 16 8
  p_filesz := field b 32 8
  p_memsz := field b 40 8

def Elf64_Shdr.ofBytes (b : List (BitVec 8)) : Elf64_Shdr where
  sh_name := field b 0 4
  sh_flags := field b 8 8
  sh_addr := field b 16 8
  sh_offset := field b 24 8
  sh_size := field b 32 8

def ET_DYN : BitVec 16 := 3
def PT_LOAD : BitVec 32 := 1
def PT_INTERP : BitVec 32 := 3
def SHF_EXECINSTR : Long := 4

/-! ## The kernel -/

/-- An `off_t` is signed. -/
def lseek (offset : Long) : Option Nat := if 0 ≤ offset.toInt then some offset.toNat else none

/-- What the buffer holds after a `read`, which stops at the end of the file. -/
def read (file : File) (offset : Nat) (buf : List (BitVec 8)) : List (BitVec 8) :=
  let got := (file.drop offset).take buf.length
  got ++ buf.drop got.length

def PAGE : Nat := 4096

/-- The end of what a process can map. -/
def TASK_SIZE : Nat := 0x7ffffffff000

/-- A length in whole pages. -/
def pages (len : Nat) : Nat := (len + (PAGE - 1)) / PAGE * PAGE

/-- Memory, and the ranges that have been mapped into it. -/
structure Space where
  mem : Mem
  maps : List (Nat × Nat)

/-- With `MAP_FIXED`: whole pages, whatever was there before. -/
def mmap (s : Space) (addr len : Long) (val : Nat → BitVec 8) : Option Space :=
  if addr.toNat % PAGE = 0 ∧ len ≠ 0 ∧ addr.toNat + pages len.toNat ≤ TASK_SIZE then
    some {
      mem := (Patch.mk addr (pages len.toNat) val).put s.mem
      maps := (addr.toNat, addr.toNat + pages len.toNat) :: s.maps }
  else none

/-- Of a file: zeros behind its end. -/
def mmapFile (s : Space) (addr len : Long) (file : File) (offset : Long) : Option Space :=
  if offset.toNat % PAGE = 0 then mmap s addr len fun o => file.getD (offset.toNat + o) 0 else none

/-- Of nothing, where an address is only a hint: it is taken if it is free. -/
def mmapHint (s : Space) (addr len : Long) : Option Space :=
  if s.maps.all fun r => r.2 ≤ addr.toNat || addr.toNat + pages len.toNat ≤ r.1 then
    mmap s addr len fun _ => 0
  else none

def memset (s : Space) (addr : Long) (n : Nat) : Space :=
  { s with mem := (Patch.mk addr n fun _ => 0).put s.mem }

/-! ## elf_loader.c -/

def RISCV_PGSIZE : Long := 1 <<< 12

def ROUNDUP (a b : Long) : Long := ((a - 1) / b + 1) * b

def MEM_END : Long := 0x60000000
def STACK_SIZE : Long := 0x01000000
def BRK_SIZE : Long := 0x01000000

structure pinfo_t where
  phnum : Long
  phent : Long
  phdr : Long
  phdr_size : Long
  entry : Long
  stack_top : Long
  brk_min : Long
  brk_max : Long

/-- What the program finds when it calls the loader: memory, where the kernel puts the
program headers, what lies behind the string table, and what `header` holds at first. -/
structure World where
  mem : Mem
  phdr : Long
  beyond : Nat → BitVec 8
  header : List (BitVec 8)
  header_length : header.length = sizeof_Shdr

/-- There is no memory for an empty section, or for one of a negative size, and `mmap` answers with
-1, which is not the 0 that is looked for. `read` refuses that address with -1, and only a size of 0
is more than that. -/
def load_elf_section (file : File) (offset size : Long) : Option (List (BitVec 8)) :=
  match lseek offset with
  | none => none
  | some offset =>
    if size.toInt = 0 then none
    else if size.toInt < 0 then some []
    else
      let got := (file.drop offset).take size.toNat
      if got.length < size.toNat then none else some got

/-- The body of the segment loop for a segment that is loaded. -/
def load_segment (file : File) (bias : Long) (p : Elf64_Phdr) (s : Space) : Option Space :=
  let prepad := p.p_vaddr % RISCV_PGSIZE
  let vaddr := p.p_vaddr + bias
  match mmapFile s (vaddr - prepad) (p.p_filesz + prepad) file (p.p_offset - prepad) with
  | none => none
  | some s =>
    let s := memset s (vaddr - prepad) prepad.toNat
    let mapped := ROUNDUP (p.p_filesz + prepad) RISCV_PGSIZE - prepad
    if mapped < p.p_memsz then mmap s (vaddr + mapped) (p.p_memsz - mapped) fun _ => 0
    else some s

/-- `p_type == PT_LOAD && p_memsz`. -/
def Elf64_Phdr.loads (p : Elf64_Phdr) : Bool := p.p_type == PT_LOAD && p.p_memsz != 0

/-- The segment loop, over the headers in the order it takes them. -/
def load_segments (file : File) (bias : Long) : List Elf64_Phdr → pinfo_t × Space → Option (pinfo_t × Space)
  | [], r => some r
  | p :: ps, (info, s) =>
    if p.p_type = PT_INTERP then none
    else if p.loads then
      let top := p.p_vaddr + bias + p.p_memsz
      let brk_min := if info.brk_min < top then top else info.brk_min
      match load_segment file bias p s with
      | none => none
      | some s => load_segments file bias ps ({ info with brk_min, brk_max := brk_min + BRK_SIZE }, s)
    else load_segments file bias ps ({ info with brk_max := info.brk_min + BRK_SIZE }, s)

/-- What the section loop works on: `header` as bytes, and what it collects. -/
structure Sections where
  header : List (BitVec 8)
  space : Space
  low_bound : Long
  high_bound : Long
  strtbl : List (BitVec 8)
  symtbl : List (BitVec 8)
  num_syms : Long

/-- `strcmp(s, name) == 0`. -/
def streq (s : Nat → BitVec 8) : List Char → Bool
  | [] => s 0 == 0
  | c :: name => s 0 == BitVec.ofNat 8 c.toNat && streq (fun k => s (k + 1)) name

/-- The bytes from `shstrtbl` on. -/
def strings (w : World) (shstrtbl : List (BitVec 8)) (k : Nat) : BitVec 8 :=
  shstrtbl.getD k (w.beyond (k - shstrtbl.length))

def named (shstrtbl : Nat → BitVec 8) (h : Elf64_Shdr) (name : String) : Bool :=
  streq (fun k => shstrtbl (h.sh_name.toNat + k)) name.toList

/-- The sections that are cleared. -/
def isBss (shstrtbl : Nat → BitVec 8) (h : Elf64_Shdr) : Bool :=
  named shstrtbl h ".bss" || named shstrtbl h ".sbss"

def load_table (file : File) (shstrtbl : Nat → BitVec 8) (h : Elf64_Shdr) (st : Sections) : Option Sections :=
  if named shstrtbl h ".strtab" then
    (load_elf_section file h.sh_offset h.sh_size).map fun strtbl => { st with strtbl }
  else if named shstrtbl h ".symtab" then
    (load_elf_section file h.sh_offset h.sh_size).map fun symtbl =>
      { st with symtbl, num_syms := h.sh_size / BitVec.ofNat 64 sizeof_Sym }
  else some st

def find_bounds (h : Elf64_Shdr) (st : Sections) : Sections :=
  if h.sh_flags &&& SHF_EXECINSTR != 0 then
    { st with
      low_bound := if h.sh_addr < st.low_bound then h.sh_addr else st.low_bound
      high_bound := if st.high_bound < h.sh_addr + h.sh_size then h.sh_addr + h.sh_size else st.high_bound }
  else st

/-- The body of the section loop. -/
def load_section (file : File) (eh : Elf64_Ehdr) (shstrtbl : Nat → BitVec 8) (st : Sections) (i : Nat) :
    Option Sections :=
  match lseek (eh.e_shoff + BitVec.ofNat 64 (i * sizeof_Shdr)) with
  | none => none
  | some offset =>
    let buf := read file offset st.header
    let header := Elf64_Shdr.ofBytes buf
    let space := if isBss shstrtbl header then memset st.space header.sh_addr header.sh_size.toNat else st.space
    (load_table file shstrtbl header { st with header := buf, space }).map (find_bounds header)

def load_sections (file : File) (eh : Elf64_Ehdr) (shstrtbl : Nat → BitVec 8) :
    List Nat → Sections → Option Sections
  | [], st => some st
  | i :: is, st => (load_section file eh shstrtbl st i).bind (load_sections file eh shstrtbl is)

def Elf64_Ehdr.phdr_size (eh : Elf64_Ehdr) : Nat := eh.e_phnum.toNat * sizeof_Phdr

/-- `bias`: not at 0, to catch null pointers. -/
def Elf64_Ehdr.bias (eh : Elf64_Ehdr) : Long := if eh.e_type = ET_DYN then RISCV_PGSIZE else 0

/-- `e_ident`. -/
def magic : List (BitVec 8) := [0x7f, 0x45, 0x4c, 0x46]

/-- `ph[0]` to `ph[phnum - 1]`. -/
def phdrs (eh : Elf64_Ehdr) (ph : List (BitVec 8)) : List Elf64_Phdr :=
  (List.range eh.e_phnum.toNat).map fun i => Elf64_Phdr.ofBytes (ph.drop (i * sizeof_Phdr))

/-- The static `phdrs` is `long[128]`. -/
def sizeof_phdrs : Nat := 1024

/-- Up to the segment loop: the header and the program headers. -/
def load_headers (file : File) : Option (Elf64_Ehdr × List (BitVec 8)) :=
  let eh := Elf64_Ehdr.ofBytes (file.take sizeof_Ehdr)
  if file.length < sizeof_Ehdr ∨ file.take 4 ≠ magic ∨ sizeof_phdrs < eh.phdr_size then none
  else match lseek eh.e_shoff with
    | none => none
    | some offset =>
      -- the bytes themselves are read again from e_phoff
      if ((file.drop offset).take eh.phdr_size).length ≠ eh.phdr_size then none
      else (load_elf_section file eh.e_phoff (BitVec.ofNat 64 eh.phdr_size)).map fun ph => (eh, ph)

/-- The section header string table, and what `header` holds then. -/
def load_shstrtbl (w : World) (file : File) (eh : Elf64_Ehdr) : Option (List (BitVec 8) × List (BitVec 8)) :=
  match lseek (eh.e_shoff + BitVec.ofNat 64 (eh.e_shstrndx.toNat * sizeof_Shdr)) with
  | none => none
  | some offset =>
    let buf := read file offset w.header
    let header := Elf64_Shdr.ofBytes buf
    (load_elf_section file header.sh_offset header.sh_size).map fun shstrtbl => (shstrtbl, buf)

/-- What the loader leaves behind. -/
structure Loaded where
  current : pinfo_t
  sections : Sections
  mem : Mem

def load_elf_binary (w : World) (file : File) : Option Loaded :=
  match load_headers file with
  | none => none
  | some (eh, ph) =>
    let info : pinfo_t :=
      { phnum := eh.e_phnum.setWidth 64, phent := BitVec.ofNat 64 sizeof_Phdr, phdr := w.phdr,
        phdr_size := BitVec.ofNat 64 sizeof_phdrs, entry := eh.e_entry + eh.bias, stack_top := 0,
        brk_min := 0, brk_max := 0 }
    match load_segments file eh.bias (phdrs eh ph).reverse (info, ⟨w.mem, []⟩) with
    | none => none
    | some (info, space) =>
      match load_shstrtbl w file eh with
      | none => none
      | some (shstrtbl, header) =>
        let st : Sections :=
          { header, space, low_bound := -1, high_bound := 0, strtbl := [], symtbl := [], num_syms := 0 }
        match load_sections file eh (strings w shstrtbl) (List.range eh.e_shnum.toNat) st with
        | none => none
        | some st =>
          (mmapHint st.space (MEM_END - STACK_SIZE) STACK_SIZE).map fun space =>
            { current := { info with stack_top := MEM_END }, sections := st, mem := space.mem }

end Cavatools.Uspike.Elf
