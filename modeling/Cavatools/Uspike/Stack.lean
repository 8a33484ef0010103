import Cavatools.Uspike.ElfImage

/-!
# The stack of a new process

`initialize_stack` copies the program headers and the strings of the arguments
and of the environment to the top of the stack, each below the one before, and
below them writes the vector that the guest's start code walks. It reserves
room for all of the host's auxiliary vector and writes the entries that the
guest is to see; what ends the guest's walk is a pair of words that nobody has
written.

What the guest should find is `Image`: at the stack pointer, which is aligned
to 16 bytes, the number of arguments, the pointers to their strings and to
those of the environment, each list with its null, and the pairs of the
auxiliary vector with their end (`vector`); each pointer leads to a copy of
its string with the NUL, and the program headers are where the vector says;
the parts share no byte, and all lie inside the segment of the stack.

All of it is patches. The copies are a stack that grows down
(`copy_strings_spec`), a list of words is a patch of eight bytes each
(`wordsPatch`, `push_args_eq`), and the pushes are those of the words of the
vector up to its last pair (`pushes_eq`). That pair is zero already, because
the stack was mapped fresh and room was reserved for it (`wordsPatch_null`,
`guestPairs_length`). Then everything on the stack is a patch and no patch
covers another, so each is read back (`image_of_patches`).

What is left is where the pieces come to lie. The arithmetic of `stack_top` is
on words with masks (`toNat_align8`, `toNat_align16`), and with the sizes of
all pieces (`need`) below the size of the stack nothing wraps
(`toNat_stackPointer`, `initialize_stack_layout`). `initialize_stack_image` is
the result for every argument list, environment and auxiliary vector that
fits.
-/

namespace Cavatools.Uspike.Stack

open Elf (pinfo_t RISCV_PGSIZE MEM_END STACK_SIZE)
open Lib (Patch Descends putAll)
open Riscv (Mem)

/-! ## elf_loader.c -/

/-- A string of C, without its NUL. -/
abbrev CString := { s : List (BitVec 8) // (0 : BitVec 8) ∉ s }

/-- `strlen(s) + 1`. -/
def CString.size (s : CString) : Nat := s.val.length + 1

def CString.bytes (s : CString) : List (BitVec 8) := s.val ++ [0]

/-- `struct aux_t`. -/
structure Aux where
  key : Long
  value : Long

def AT_NULL : Long := 0
def AT_PHDR : Long := 3
def AT_PHENT : Long := 4
def AT_PHNUM : Long := 5
def AT_PAGESZ : Long := 6
def AT_ENTRY : Long := 9
def AT_SECURE : Long := 23
def AT_RANDOM : Long := 25

/-- The host's vector, which has an end. -/
abbrev Auxv := { l : List Aux // ∃ a ∈ l, a.key = AT_NULL }

/-- What is written by `memcpy`. -/
def copy (dst : Long) (bytes : List (BitVec 8)) : Patch 64 (BitVec 8) := ⟨dst, bytes.length, (bytes.getD · 0)⟩

/-- The `n` bytes from `src` on. -/
def bytesAt (m : Mem) (src : Long) (n : Nat) : List (BitVec 8) :=
  (List.range n).map fun k => m (src + BitVec.ofNat 64 k)

/-- One of the two loops over strings: the memory, `stack_top`, and the pointers. -/
def copy_strings (m : Mem) (stack_top : Long) : List CString → Mem × Long × List Long
  | [] => (m, stack_top, [])
  | s :: strings =>
    let stack_top := stack_top - BitVec.ofNat 64 s.size
    let m := (copy stack_top s.bytes).put m
    let (m, top, pointers) := copy_strings m stack_top strings
    (m, top, stack_top :: pointers)

/-- The `do` loop that counts the entries, the terminator among them. -/
def auxc : List Aux → Nat
  | [] => 0
  | a :: auxv => if a.key = AT_NULL then 1 else auxc auxv + 1

def PUSH_ARG (m : Mem) (sp value : Long) : Mem × Long := (m.store sp 8 value, sp + 8)

def push_args (m : Mem) (sp : Long) : List Long → Mem × Long
  | [] => (m, sp)
  | v :: values =>
    let (m, sp) := PUSH_ARG m sp v
    push_args m sp values

/-- The `switch`: the value to write, where there is no `continue`. -/
def aux_value (current : pinfo_t) (key : Long) : Option Long :=
  if key = AT_PAGESZ then some RISCV_PGSIZE
  else if key = AT_PHDR then some current.phdr
  else if key = AT_PHENT then some current.phent
  else if key = AT_PHNUM then some current.phnum
  else if key = AT_ENTRY then some current.entry
  else if key = AT_SECURE then some 0
  else if key = AT_RANDOM then some current.stack_top
  else none

def push_auxv (current : pinfo_t) (m : Mem) (sp : Long) : List Aux → Mem × Long
  | [] => (m, sp)
  | a :: auxv =>
    match aux_value current a.key with
    | none => push_auxv current m sp auxv
    | some value =>
      let (m, sp) := PUSH_ARG m sp a.key
      let (m, sp) := PUSH_ARG m sp value
      push_auxv current m sp auxv

/-- What it returns is `current.stack_top`. -/
def initialize_stack (current : pinfo_t) (m : Mem) (argv envp : List CString) (auxv : List Aux) :
    pinfo_t × Mem :=
  let stack_top := current.stack_top - current.phdr_size
  let m := (copy stack_top (bytesAt m current.phdr current.phdr_size.toNat)).put m
  let current := { current with phdr := stack_top }
  let (m, stack_top, argp) := copy_strings m stack_top argv
  let (m, stack_top, envp) := copy_strings m stack_top envp
  let stack_top := stack_top - BitVec.ofNat 64 (auxc auxv * 16)
  let stack_top := stack_top &&& -8
  let stack_top := stack_top - BitVec.ofNat 64 ((1 + argp.length + 1 + envp.length + 1 + 2 * auxc auxv) * 8)
  let stack_top := stack_top &&& -16
  let current := { current with stack_top }
  let (m, sp) := PUSH_ARG m stack_top (BitVec.ofNat 64 argp.length)
  let (m, sp) := push_args m sp argp
  let (m, sp) := PUSH_ARG m sp 0
  let (m, sp) := push_args m sp envp
  let (m, sp) := PUSH_ARG m sp 0
  let (m, _) := push_auxv current m sp (auxv.take (auxc auxv))
  (current, m)

/-! ## What the guest finds -/

/-- The keys that the guest is to see, and what it is to see there. -/
def guestKeys : List Long := [AT_PAGESZ, AT_PHDR, AT_PHENT, AT_PHNUM, AT_ENTRY, AT_SECURE, AT_RANDOM]

/-- The pairs for the guest, of the host's entries before the terminator. -/
def guestPairs (value : Long → Long) (auxv : List Aux) : List Long :=
  ((auxv.takeWhile (·.key ≠ AT_NULL)).filter (·.key ∈ guestKeys)).flatMap fun a => [a.key, value a.key]

/-- The vector that a guest walks up from its stack pointer. -/
def vector (argp envp pairs : List Long) : List Long :=
  BitVec.ofNat 64 argp.length :: argp ++ 0 :: envp ++ 0 :: pairs ++ [AT_NULL, 0]

/-- A NUL-terminated copy of a string. -/
def StringAt (m : Mem) (p : Long) (s : CString) : Prop :=
  ∀ k < s.size, m (p + BitVec.ofNat 64 k) = s.bytes.getD k 0

/-- A range of addresses. -/
structure Range where
  start : Nat
  size : Nat

def Range.Apart (r s : Range) : Prop := r.start + r.size ≤ s.start ∨ s.start + s.size ≤ r.start

def stringRanges (pointers : List Long) (strings : List CString) : List Range :=
  List.zipWith (fun p s => ⟨p.toNat, s.size⟩) pointers strings

/-- What a key gives, with the program headers at `phdr` and the stack pointer for `AT_RANDOM`. -/
def guestValue (current : pinfo_t) (phdr sp : Long) (key : Long) : Long :=
  if key = AT_PAGESZ then RISCV_PGSIZE
  else if key = AT_PHDR then phdr
  else if key = AT_PHENT then current.phent
  else if key = AT_PHNUM then current.phnum
  else if key = AT_ENTRY then current.entry
  else if key = AT_SECURE then 0
  else sp

/-- Where everything is. -/
structure Layout where
  phdr : Long
  argp : List Long
  envp : List Long
  sp : Long

def Layout.words (l : Layout) (current : pinfo_t) (auxv : List Aux) : List Long :=
  vector l.argp l.envp (guestPairs (guestValue current l.phdr l.sp) auxv)

def Layout.ranges (l : Layout) (current : pinfo_t) (argv envp : List CString) (auxv : List Aux) : List Range :=
  ⟨l.phdr.toNat, current.phdr_size.toNat⟩ ::
    (stringRanges l.argp argv ++ stringRanges l.envp envp ++ [⟨l.sp.toNat, 8 * (l.words current auxv).length⟩])

/-- The memory `m` of a process that is about to start, from `current` and the memory `m₀` before. -/
structure Image (l : Layout) (current : pinfo_t) (argv envp : List CString) (auxv : List Aux) (m₀ m : Mem) :
    Prop where
  aligned : l.sp.toNat % 16 = 0
  words : ∀ k v, (l.words current auxv)[k]? = some v → m.load (l.sp + BitVec.ofNat 64 (8 * k)) 8 = v
  args : List.Forall₂ (StringAt m) l.argp argv
  envs : List.Forall₂ (StringAt m) l.envp envp
  headers : ∀ k < current.phdr_size.toNat,
    m (l.phdr + BitVec.ofNat 64 k) = m₀ (current.phdr + BitVec.ofNat 64 k)
  apart : (l.ranges current argv envp auxv).Pairwise Range.Apart
  inside : ∀ r ∈ l.ranges current argv envp auxv,
    (MEM_END - STACK_SIZE).toNat ≤ r.start ∧ r.start + r.size ≤ MEM_END.toNat

/-! ## Pushing words -/

/-- Words from `sp` up, as a patch of bytes. -/
def wordsPatch (sp : Long) (values : List Long) : Patch 64 (BitVec 8) :=
  ⟨sp, 8 * values.length, fun o => (values.getD (o / 8) 0).extractLsb' (8 * (o % 8)) 8⟩

theorem store_eq_put (m : Mem) (sp v : Long) :
    m.store sp 8 v = (Patch.mk sp 8 fun o => v.extractLsb' (8 * o) 8).put m :=
  rfl

/-- Pushing words, one after another, writes them as one patch. -/
theorem push_args_eq (m : Mem) (sp : Long) {values : List Long} (hlen : 8 * values.length ≤ 2 ^ 64) :
    push_args m sp values = ((wordsPatch sp values).put m, sp + BitVec.ofNat 64 (8 * values.length)) := by
  -- on the words: the first is a patch of eight bytes, and the rest go right behind it
  induction values generalizing m sp with
  | nil =>
    refine Prod.ext (funext ?_) (BitVec.add_zero sp).symm
    intro a
    exact ((wordsPatch sp []).put_of_not_covers (decide_eq_false (Nat.not_lt_zero _))).symm
  | cons v values ih =>
    rw [List.length_cons] at hlen
    refine (ih (m.store sp 8 v) (sp + 8) (by omega)).trans (Prod.ext ?_ ?_)
    · show (wordsPatch (sp + 8) values).put (m.store sp 8 v) = (wordsPatch sp (v :: values)).put m
      rw [store_eq_put, wordsPatch, show sp + 8 = sp + BitVec.ofNat 64 8 from rfl,
        Lib.put_append (by omega), wordsPatch, List.length_cons, Nat.mul_add, Nat.add_comm]
      refine Lib.put_congr ?_ m
      intro o ho
      by_cases h8 : o < 8
      · rw [if_pos h8, Nat.div_eq_of_lt h8, Nat.mod_eq_of_lt h8]
        rfl
      · rw [if_neg h8, show o / 8 = (o - 8) / 8 + 1 by omega, show o % 8 = (o - 8) % 8 by omega]
        rfl
    · show sp + 8 + BitVec.ofNat 64 (8 * values.length) = sp + BitVec.ofNat 64 (8 * (values.length + 1))
      rw [Nat.mul_add, Nat.add_comm, BitVec.ofNat_add, ← BitVec.add_assoc]
      rfl

theorem push_args_append (m : Mem) (sp : Long) (vs ws : List Long) :
    push_args m sp (vs ++ ws) = push_args (push_args m sp vs).1 (push_args m sp vs).2 ws := by
  induction vs generalizing m sp with
  | nil => rfl
  | cons v vs ih => exact ih _ _

/-- The `switch` lets through the keys for the guest. -/
theorem aux_value_eq (current : pinfo_t) (key : Long) :
    aux_value current key
      = if key ∈ guestKeys then some (guestValue current current.phdr current.stack_top key) else none := by
  unfold aux_value guestValue
  by_cases hkey : key ∈ guestKeys
  · rw [if_pos hkey]
    simp only [guestKeys, List.mem_cons, List.not_mem_nil, or_false] at hkey
    rcases hkey with rfl | rfl | rfl | rfl | rfl | rfl | rfl <;> rfl
  · rw [if_neg hkey]
    simp only [guestKeys, List.mem_cons, List.not_mem_nil, or_false, not_or] at hkey
    obtain ⟨h1, h2, h3, h4, h5, h6, h7⟩ := hkey
    rw [if_neg h1, if_neg h2, if_neg h3, if_neg h4, if_neg h5, if_neg h6, if_neg h7]

/-- The pairs for the guest, by the first entry of the host's vector. -/
theorem guestPairs_cons (value : Long → Long) (a : Aux) (auxv : List Aux) :
    guestPairs value (a :: auxv)
      = if a.key = AT_NULL then []
        else if a.key ∈ guestKeys then a.key :: value a.key :: guestPairs value auxv
        else guestPairs value auxv := by
  unfold guestPairs
  by_cases hend : a.key = AT_NULL
  · rw [if_pos hend, List.takeWhile_cons_of_neg (by simp [hend])]
    rfl
  · rw [if_neg hend, List.takeWhile_cons_of_pos (by simp [hend])]
    by_cases hkey : a.key ∈ guestKeys
    · rw [if_pos hkey, List.filter_cons_of_pos (by simp [hkey])]
      rfl
    · rw [if_neg hkey, List.filter_cons_of_neg (by simp [hkey])]

/-- The entries that the loop visits before the terminator. -/
theorem push_auxv_eq (current : pinfo_t) (m : Mem) (sp : Long) (auxv : List Aux) :
    push_auxv current m sp (auxv.take (auxc auxv))
      = push_args m sp (guestPairs (guestValue current current.phdr current.stack_top) auxv) := by
  have hnull : AT_NULL ∉ guestKeys := by decide
  -- on the vector, up to the entry where the count stops
  induction auxv generalizing m sp with
  | nil => rfl
  | cons a auxv ih =>
    rw [auxc, guestPairs_cons]
    by_cases hend : a.key = AT_NULL
    · rw [if_pos hend, if_pos hend, List.take_succ_cons, List.take_zero, push_auxv, aux_value_eq, hend,
        if_neg hnull]
      rfl
    · rw [if_neg hend, if_neg hend, List.take_succ_cons, push_auxv, aux_value_eq]
      by_cases hkey : a.key ∈ guestKeys
      · rw [if_pos hkey, if_pos hkey]
        exact ih _ _
      · rw [if_neg hkey, if_neg hkey]
        exact ih _ _

/-- Behind the pairs for the guest there is room for one more. -/
theorem guestPairs_length (value : Long → Long) {auxv : List Aux} (hend : ∃ a ∈ auxv, a.key = AT_NULL) :
    (guestPairs value auxv).length + 2 ≤ 2 * auxc auxv := by
  induction auxv with
  | nil =>
    obtain ⟨a, ha, -⟩ := hend
    cases ha
  | cons a auxv ih =>
    rw [guestPairs_cons, auxc]
    by_cases hnull : a.key = AT_NULL
    · rw [if_pos hnull, if_pos hnull]
      exact le_refl 2
    · rw [if_neg hnull, if_neg hnull]
      have hrest := ih (by
        obtain ⟨b, hb, hkey⟩ := hend
        -- the entry that ends the vector is still to come
        rcases List.mem_cons.mp hb with rfl | hb
        · exact absurd hkey hnull
        · exact ⟨b, hb, hkey⟩)
      by_cases hkey : a.key ∈ guestKeys
      · rw [if_pos hkey, List.length_cons, List.length_cons]
        omega
      · rw [if_neg hkey]
        omega

/-! ## Copying strings -/

def sizes (strings : List CString) : Nat := (strings.map CString.size).sum

theorem toNat_sub_ofNat {x : Long} {n : Nat} (h : n ≤ x.toNat) :
    (x - BitVec.ofNat 64 n).toNat = x.toNat - n := by
  have hn : (BitVec.ofNat 64 n).toNat = n := BitVec.toNat_ofNat n 64 ▸ Nat.mod_eq_of_lt (lt_of_le_of_lt h x.isLt)
  have hle : BitVec.ofNat 64 n ≤ x := by
    rw [BitVec.le_def, hn]
    exact h
  rw [BitVec.toNat_sub_of_le hle, hn]

theorem length_bytes (s : CString) : s.bytes.length = s.size :=
  List.length_append

/-- Each patch is the copy of a string. -/
def Copies (bs : List (Patch 64 (BitVec 8))) (strings : List CString) : Prop :=
  List.Forall₂ (fun b s => b = copy b.start (CString.bytes s)) bs strings

/-- The copies lie one below the other. -/
theorem copy_strings_spec (m : Mem) {stack_top : Long} {strings : List CString}
    (hfit : sizes strings ≤ stack_top.toNat) : ∃ bs,
      copy_strings m stack_top strings
        = (putAll bs m, stack_top - BitVec.ofNat 64 (sizes strings), bs.map (·.start)) ∧
      Copies bs strings ∧
      Descends stack_top.toNat bs (stack_top.toNat - sizes strings) := by
  -- on the strings: the first goes to the top, the others below it
  induction strings generalizing m stack_top with
  | nil => exact ⟨[], by rw [copy_strings]; exact congrArg _ (congrArg (·, _) (BitVec.sub_zero _).symm),
      List.Forall₂.nil, Nat.sub_le _ _⟩
  | cons s strings ih =>
    have hsizes : sizes (s :: strings) = s.size + sizes strings := List.sum_cons
    have hnext : (stack_top - BitVec.ofNat 64 s.size).toNat = stack_top.toNat - s.size :=
      toNat_sub_ofNat (by omega)
    obtain ⟨bs, heq, hcopies, hdesc⟩ := ih ((copy (stack_top - BitVec.ofNat 64 s.size) s.bytes).put m)
      (show sizes strings ≤ (stack_top - BitVec.ofNat 64 s.size).toNat by omega)
    refine ⟨copy (stack_top - BitVec.ofNat 64 s.size) s.bytes :: bs, ?_, List.Forall₂.cons rfl hcopies, ?_, ?_⟩
    · rw [copy_strings, heq, hsizes, BitVec.ofNat_add, ← BitVec.sub_sub]
      rfl
    · show (stack_top - BitVec.ofNat 64 s.size).toNat + s.bytes.length ≤ stack_top.toNat
      rw [hnext, length_bytes]
      omega
    · show Descends (stack_top - BitVec.ofNat 64 s.size).toNat bs _
      rw [hsizes, ← Nat.sub_sub, ← hnext]
      exact hdesc

/-! ## Aligning -/

/-- Clearing the low bits. -/
theorem toNat_and_mask (x : Long) {k : Nat} {mask : Long} (hmask : ∀ i < 64, mask.getLsbD i = decide (k ≤ i)) :
    (x &&& mask).toNat = x.toNat / 2 ^ k * 2 ^ k := by
  have hshift : x &&& mask = (x >>> k) <<< k := by
    apply BitVec.eq_of_getLsbD_eq
    intro i hi
    rw [BitVec.getLsbD_and, hmask i hi, BitVec.getLsbD_shiftLeft, BitVec.getLsbD_ushiftRight]
    by_cases hk : k ≤ i
    · rw [decide_eq_true hk, decide_eq_true hi, decide_eq_false (by omega), Nat.add_sub_cancel' hk]
      simp
    · rw [decide_eq_false hk, decide_eq_true (show i < k by omega)]
      simp
  have hle : x.toNat / 2 ^ k * 2 ^ k ≤ x.toNat := Nat.div_mul_le_self _ _
  rw [hshift, BitVec.toNat_shiftLeft, BitVec.toNat_ushiftRight, Nat.shiftRight_eq_div_pow, Nat.shiftLeft_eq,
    Nat.mod_eq_of_lt (lt_of_le_of_lt hle x.isLt)]

theorem toNat_align8 (x : Long) : (x &&& -8).toNat = x.toNat / 8 * 8 :=
  toNat_and_mask x (k := 3) (by decide)

theorem toNat_align16 (x : Long) : (x &&& -16).toNat = x.toNat / 16 * 16 :=
  toNat_and_mask x (k := 4) (by decide)

/-! ## The whole stack -/

/-- What the strings, the vector and the program headers take, with the room that is reserved. -/
def need (phdr_size : Nat) (argv envp : List CString) (auxv : List Aux) : Nat :=
  let top := (phdr_size + sizes argv + sizes envp + auxc auxv * 16 + 7) / 8 * 8
  (top + (1 + argv.length + 1 + envp.length + 1 + 2 * auxc auxv) * 8 + 15) / 16 * 16

/-- What is pushed: all of the vector but its last pair. -/
def pushed (argp envp pairs : List Long) : List Long :=
  BitVec.ofNat 64 argp.length :: argp ++ 0 :: envp ++ 0 :: pairs

theorem vector_eq (argp envp pairs : List Long) :
    vector argp envp pairs = pushed argp envp pairs ++ [AT_NULL, 0] := by
  simp [vector, pushed]

theorem pushed_length (argp envp pairs : List Long) :
    (pushed argp envp pairs).length = argp.length + envp.length + pairs.length + 3 := by
  simp only [pushed, List.length_cons, List.length_append]
  omega

/-- Words over zeros may as well end in a pair of zeros. -/
theorem wordsPatch_null {m : Mem} {sp : Long} {values : List Long}
    (hzero : ∀ o, 8 * values.length ≤ o → o < 8 * (values.length + 2) → m (sp + BitVec.ofNat 64 o) = 0) :
    (wordsPatch sp values).put m = (wordsPatch sp (values ++ [AT_NULL, 0])).put m := by
  funext a
  have ha : a = sp + BitVec.ofNat 64 (a - sp).toNat := by
    rw [BitVec.ofNat_toNat, BitVec.setWidth_eq, BitVec.add_comm, BitVec.sub_add_cancel]
  have htwo : (values ++ [AT_NULL, 0]).length = values.length + 2 := List.length_append
  have hshort : (wordsPatch sp values).covers a = decide ((a - sp).toNat < 8 * values.length) := rfl
  have hlong : (wordsPatch sp (values ++ [AT_NULL, 0])).covers a
      = decide ((a - sp).toNat < 8 * (values.length + 2)) := by
    rw [← htwo]
    rfl
  by_cases hin : (a - sp).toNat < 8 * values.length
  · have hget : values.getD ((a - sp).toNat / 8) 0 = (values ++ [AT_NULL, 0]).getD ((a - sp).toNat / 8) 0 := by
      rw [List.getD_eq_getElem?_getD, List.getD_eq_getElem?_getD, List.getElem?_append_left (by omega)]
    rw [(wordsPatch sp values).put_of_covers (hshort.trans (decide_eq_true hin)),
      (wordsPatch sp (values ++ [AT_NULL, 0])).put_of_covers (hlong.trans (decide_eq_true (by omega)))]
    simp only [wordsPatch]
    rw [hget]
  · rw [(wordsPatch sp values).put_of_not_covers (hshort.trans (decide_eq_false hin))]
    by_cases hpair : (a - sp).toNat < 8 * (values.length + 2)
    · have hget : (values ++ [AT_NULL, 0]).getD ((a - sp).toNat / 8) 0 = 0 := by
        rw [List.getD_eq_getElem?_getD, List.getElem?_append_right (by omega)]
        have hk : (a - sp).toNat / 8 - values.length < 2 := by omega
        generalize (a - sp).toNat / 8 - values.length = k at hk
        match k, hk with
        | 0, _ => rfl
        | 1, _ => rfl
      have hplace := hzero _ (not_lt.mp hin) hpair
      rw [← ha] at hplace
      rw [(wordsPatch sp (values ++ [AT_NULL, 0])).put_of_covers (hlong.trans (decide_eq_true hpair)), hplace]
      simp only [wordsPatch]
      rw [hget]
      exact (BitVec.extractLsb'_zero).symm
    · rw [(wordsPatch sp (values ++ [AT_NULL, 0])).put_of_not_covers (hlong.trans (decide_eq_false hpair))]

/-- A word of a patch of words is read back. -/
theorem load_words {m : Mem} {sp : Long} {values : List Long}
    (hm : ∀ o < 8 * values.length, m (sp + BitVec.ofNat 64 o) = (wordsPatch sp values).val o) {k : Nat} {v : Long}
    (hk : values[k]? = some v) : m.load (sp + BitVec.ofNat 64 (8 * k)) 8 = v := by
  have hlt : k < values.length := (List.getElem?_eq_some_iff.mp hk).1
  refine Mem.eq_of_bytes ?_
  intro i hi
  have hdiv : (8 * k + i) / 8 = k := by omega
  have hmod : (8 * k + i) % 8 = i := by omega
  rw [Mem.load_byte m _ hi, BitVec.add_assoc, ← BitVec.ofNat_add, hm _ (by omega)]
  simp only [wordsPatch]
  rw [hdiv, hmod, List.getD_eq_getElem?_getD, hk, Option.getD_some]

/-- The copy of a string is read back. -/
theorem stringAt_of_copy {m : Mem} {b : Patch 64 (BitVec 8)} {s : CString} (hb : b = copy b.start s.bytes)
    (hm : ∀ o < b.len, m (b.start + BitVec.ofNat 64 o) = b.val o) : StringAt m b.start s := by
  intro k hk
  have hlen : b.len = s.size := by rw [hb]; exact length_bytes s
  rw [hm k (by omega), hb]
  rfl

theorem stringsAt {m : Mem} {bs : List (Patch 64 (BitVec 8))} {strings : List CString}
    (hcopies : Copies bs strings)
    (hm : ∀ b ∈ bs, ∀ o < b.len, m (b.start + BitVec.ofNat 64 o) = b.val o) :
    List.Forall₂ (StringAt m) (bs.map (·.start)) strings := by
  induction hcopies with
  | nil => exact List.Forall₂.nil
  | cons hb hrest ih =>
    exact List.Forall₂.cons (stringAt_of_copy hb (hm _ List.mem_cons_self))
      (ih fun b hmem => hm b (List.mem_cons_of_mem _ hmem))

/-- The range that a patch takes. -/
def rangeOf (b : Patch 64 (BitVec 8)) : Range := ⟨b.start.toNat, b.len⟩

theorem stringRanges_eq {bs : List (Patch 64 (BitVec 8))} {strings : List CString}
    (hcopies : Copies bs strings) :
    stringRanges (bs.map (·.start)) strings = bs.map rangeOf := by
  induction hcopies with
  | nil => rfl
  | @cons b s bs strings hb hrest ih =>
    have hlen : b.len = s.size := by rw [hb]; exact length_bytes s
    rw [List.map_cons, List.map_cons, stringRanges, List.zipWith_cons_cons]
    exact congrArg₂ List.cons (by rw [rangeOf, hlen]) ih

/-- The pushes, one after the other, are the words of the vector up to its last pair. -/
theorem pushes_eq (current : pinfo_t) (m : Mem) (sp : Long) (argp envp : List Long) (auxv : List Aux) :
    (let (m, sp) := PUSH_ARG m sp (BitVec.ofNat 64 argp.length)
     let (m, sp) := push_args m sp argp
     let (m, sp) := PUSH_ARG m sp 0
     let (m, sp) := push_args m sp envp
     let (m, sp) := PUSH_ARG m sp 0
     (push_auxv current m sp (auxv.take (auxc auxv))).1)
      = (push_args m sp (pushed argp envp
          (guestPairs (guestValue current current.phdr current.stack_top) auxv))).1 := by
  rw [pushed, push_args_append, push_args_append]
  exact congrArg Prod.fst (push_auxv_eq current _ _ auxv)

/-- Where the stack pointer ends up. -/
def stackPointer (stack_top : Long) (args envs auxc : Nat) : Long :=
  (((stack_top - BitVec.ofNat 64 (auxc * 16)) &&& -8) -
    BitVec.ofNat 64 ((1 + args + 1 + envs + 1 + 2 * auxc) * 8)) &&& -16

/-- The stack pointer, without a wrap if everything fits. -/
theorem toNat_stackPointer {t : Long} {used args envs auxc : Nat} (ht : t.toNat = MEM_END.toNat - used)
    (hfit : ((used + auxc * 16 + 7) / 8 * 8 + (1 + args + 1 + envs + 1 + 2 * auxc) * 8 + 15) / 16 * 16
      ≤ STACK_SIZE.toNat) :
    (stackPointer t args envs auxc).toNat = MEM_END.toNat -
      ((used + auxc * 16 + 7) / 8 * 8 + (1 + args + 1 + envs + 1 + 2 * auxc) * 8 + 15) / 16 * 16 := by
  have hend : MEM_END.toNat = 0x60000000 := rfl
  have hsize : STACK_SIZE.toNat = 0x01000000 := rfl
  unfold stackPointer
  have haux := toNat_sub_ofNat (show auxc * 16 ≤ t.toNat by omega)
  have hwords := toNat_sub_ofNat (show (1 + args + 1 + envs + 1 + 2 * auxc) * 8 ≤
    ((t - BitVec.ofNat 64 (auxc * 16)) &&& -8).toNat by rw [toNat_align8, haux]; omega)
  rw [toNat_align16, hwords, toNat_align8, haux]
  omega

/-- The function with its two loops over strings done. -/
theorem initialize_stack_eq {current : pinfo_t} {m₀ m₁ m₂ : Mem} {argv envp : List CString} {auxv : List Aux}
    {t₁ t₂ : Long} {argp envpp : List Long}
    (hargv : copy_strings ((copy (current.stack_top - current.phdr_size)
      (bytesAt m₀ current.phdr current.phdr_size.toNat)).put m₀) (current.stack_top - current.phdr_size) argv
        = (m₁, t₁, argp))
    (henvp : copy_strings m₁ t₁ envp = (m₂, t₂, envpp)) :
    let sp := stackPointer t₂ argp.length envpp.length (auxc auxv)
    initialize_stack current m₀ argv envp auxv
      = ({ current with phdr := current.stack_top - current.phdr_size, stack_top := sp },
        (push_args m₂ sp (pushed argp envpp
          (guestPairs (guestValue current (current.stack_top - current.phdr_size) sp) auxv))).1) := by
  unfold initialize_stack
  simp only [hargv, henvp]
  exact congrArg (Prod.mk _) (pushes_eq _ m₂ _ argp envpp auxv)

/-- The patches above the vector. -/
def upper (l : Layout) (current : pinfo_t) (m₀ : Mem) (bs cs : List (Patch 64 (BitVec 8))) :
    List (Patch 64 (BitVec 8)) :=
  copy l.phdr (bytesAt m₀ current.phdr current.phdr_size.toNat) :: (bs ++ cs)

/-- The pointers of a layout are those to the patches `bs` and `cs` of copied strings. -/
structure Copied (l : Layout) (argv envp : List CString) (bs cs : List (Patch 64 (BitVec 8))) : Prop where
  args : Copies bs argv
  envs : Copies cs envp
  argp_eq : l.argp = bs.map (·.start)
  envp_eq : l.envp = cs.map (·.start)

variable {l : Layout} {current : pinfo_t} {argv envp : List CString} {auxv : List Aux} {m₀ : Mem}
  {bs cs : List (Patch 64 (BitVec 8))}

theorem length_headers (current : pinfo_t) (m₀ : Mem) :
    (bytesAt m₀ current.phdr current.phdr_size.toNat).length = current.phdr_size.toNat :=
  (List.length_map _).trans List.length_range

/-- Everything on the stack is a patch, and no patch covers another. -/
theorem image_of_patches (hcopied : Copied l argv envp bs cs) (haligned : l.sp.toNat % 16 = 0)
    (hdesc : Descends MEM_END.toNat (upper l current m₀ bs cs ++ [wordsPatch l.sp (l.words current auxv)])
      (MEM_END - STACK_SIZE).toNat) :
    Image l current argv envp auxv m₀
      (putAll (upper l current m₀ bs cs ++ [wordsPatch l.sp (l.words current auxv)]) m₀) := by
  -- whatever was put later, each patch is read back
  have hread {b : Patch 64 (BitVec 8)}
      (hb : b ∈ upper l current m₀ bs cs ++ [wordsPatch l.sp (l.words current auxv)]) {o : Nat}
      (ho : o < b.len) :=
    hdesc.putAll_mem (show MEM_END.toNat ≤ 2 ^ 64 by decide) hb ho m₀
  have hranges : l.ranges current argv envp auxv =
      (upper l current m₀ bs cs ++ [wordsPatch l.sp (l.words current auxv)]).map rangeOf := by
    simp only [Layout.ranges, hcopied.argp_eq, hcopied.envp_eq, stringRanges_eq hcopied.args,
      stringRanges_eq hcopied.envs, upper, List.map_cons, List.map_append, List.map_nil, rangeOf, copy, wordsPatch,
      length_headers, List.cons_append]
  constructor
  · exact haligned
  · intro k v hk
    exact load_words (fun o ho => hread (b := wordsPatch l.sp (l.words current auxv)) (by simp) ho) hk
  · rw [hcopied.argp_eq]
    exact stringsAt hcopied.args fun b hb o ho => hread (by simp [upper, hb]) ho
  · rw [hcopied.envp_eq]
    exact stringsAt hcopied.envs fun b hb o ho => hread (by simp [upper, hb]) ho
  · intro k hk
    rw [← length_headers current m₀] at hk
    refine (hread List.mem_cons_self hk).trans ?_
    show (bytesAt m₀ current.phdr current.phdr_size.toNat).getD k 0 = _
    rw [List.getD_eq_getElem _ _ hk]
    simp [bytesAt]
  · rw [hranges, List.pairwise_map]
    exact hdesc.pairwise.imp fun h => Or.inr h
  · intro r hr
    rw [hranges] at hr
    obtain ⟨b, hb, rfl⟩ := List.mem_map.mp hr
    exact hdesc.inside hb

/-- What is not pushed of the vector is zero already. -/
theorem push_vector
    (hzero : ∀ a : Long, (MEM_END - STACK_SIZE).toNat ≤ a.toNat → a.toNat < MEM_END.toNat → m₀ a = 0)
    {bottom : Nat} (hdesc : Descends MEM_END.toNat (upper l current m₀ bs cs) bottom)
    (hlow : (MEM_END - STACK_SIZE).toNat ≤ l.sp.toNat)
    (hroom : l.sp.toNat + 8 * (l.words current auxv).length ≤ bottom) :
    (push_args (putAll (upper l current m₀ bs cs) m₀) l.sp
      (pushed l.argp l.envp (guestPairs (guestValue current l.phdr l.sp) auxv))).1
      = putAll (upper l current m₀ bs cs ++ [wordsPatch l.sp (l.words current auxv)]) m₀ := by
  have hbottom := hdesc.bottom_le
  have hend : MEM_END.toNat = 0x60000000 := rfl
  obtain ⟨values, hvalues⟩ :
      ∃ values, values = pushed l.argp l.envp (guestPairs (guestValue current l.phdr l.sp) auxv) := ⟨_, rfl⟩
  have hwords : l.words current auxv = values ++ [AT_NULL, 0] := by
    rw [hvalues]
    exact vector_eq _ _ _
  have hlength : (values ++ [AT_NULL, 0]).length = values.length + 2 := List.length_append
  rw [hwords, hlength] at hroom
  rw [← hvalues, push_args_eq _ _ (by omega), Lib.putAll_append, hwords]
  -- what lies between the last pair and the strings is untouched stack
  refine wordsPatch_null ?_
  intro o hlo hhi
  have ho : (l.sp + BitVec.ofNat 64 o).toNat = l.sp.toNat + o := by
    rw [BitVec.toNat_add, BitVec.toNat_ofNat, Nat.add_mod_mod, Nat.mod_eq_of_lt (by omega)]
  rw [hdesc.putAll_outside (by decide) fun b hb => ?_]
  · exact hzero _ (by omega) (by omega)
  · have hin := (hdesc.inside hb).1
    exact Or.inl (by omega)

/-- Where everything is put. -/
theorem initialize_stack_layout (htop : current.stack_top = MEM_END) (m₀ : Mem)
    (hend : ∃ a ∈ auxv, a.key = AT_NULL)
    (hfit : need current.phdr_size.toNat argv envp auxv ≤ STACK_SIZE.toNat) : ∃ l bs cs bottom,
      Copied l argv envp bs cs ∧ l.sp.toNat % 16 = 0 ∧
      Descends MEM_END.toNat (upper l current m₀ bs cs) bottom ∧
      (MEM_END - STACK_SIZE).toNat ≤ l.sp.toNat ∧ l.sp.toNat + 8 * (l.words current auxv).length ≤ bottom ∧
      initialize_stack current m₀ argv envp auxv
        = ({ current with phdr := l.phdr, stack_top := l.sp },
          (push_args (putAll (upper l current m₀ bs cs) m₀) l.sp
            (pushed l.argp l.envp (guestPairs (guestValue current l.phdr l.sp) auxv))).1) := by
  have hmem : MEM_END.toNat = 0x60000000 := rfl
  have hsize : STACK_SIZE.toNat = 0x01000000 := rfl
  have hlow : (MEM_END - STACK_SIZE).toNat = 0x5f000000 := rfl
  simp only [need] at hfit
  -- the program headers
  obtain ⟨t₀, ht₀⟩ : ∃ t₀, t₀ = current.stack_top - current.phdr_size := ⟨_, rfl⟩
  have h₀ : t₀.toNat = MEM_END.toNat - current.phdr_size.toNat := by
    rw [ht₀, htop, ← toNat_sub_ofNat (show current.phdr_size.toNat ≤ MEM_END.toNat by omega), BitVec.ofNat_toNat,
      BitVec.setWidth_eq]
  -- the strings
  have h₁ := toNat_sub_ofNat (show sizes argv ≤ t₀.toNat by omega)
  obtain ⟨bs, hargv, hargs, hdesc₁⟩ :=
    copy_strings_spec ((copy t₀ (bytesAt m₀ current.phdr current.phdr_size.toNat)).put m₀)
      (show sizes argv ≤ t₀.toNat by omega)
  rw [← h₁] at hdesc₁
  have h₂ := toNat_sub_ofNat (show sizes envp ≤ (t₀ - BitVec.ofNat 64 (sizes argv)).toNat by omega)
  obtain ⟨cs, henvp, henvs, hdesc₂⟩ :=
    copy_strings_spec (putAll bs ((copy t₀ (bytesAt m₀ current.phdr current.phdr_size.toNat)).put m₀))
      (show sizes envp ≤ (t₀ - BitVec.ofNat 64 (sizes argv)).toNat by omega)
  -- the vector
  have hargc := hargs.length_eq
  have henvc := henvs.length_eq
  obtain ⟨sp, hsp⟩ : ∃ sp, sp = stackPointer (t₀ - BitVec.ofNat 64 (sizes argv) - BitVec.ofNat 64 (sizes envp))
      (bs.map (·.start)).length (cs.map (·.start)).length (auxc auxv) := ⟨_, rfl⟩
  have h₃ : sp.toNat = MEM_END.toNat
      - ((current.phdr_size.toNat + sizes argv + sizes envp + auxc auxv * 16 + 7) / 8 * 8
        + (1 + argv.length + 1 + envp.length + 1 + 2 * auxc auxv) * 8 + 15) / 16 * 16 := by
    rw [hsp, List.length_map, List.length_map, hargc, henvc]
    exact toNat_stackPointer (by omega) hfit
  have hroom := guestPairs_length (guestValue current t₀ sp) hend
  have hwords : ((Layout.mk t₀ (bs.map (·.start)) (cs.map (·.start)) sp).words current auxv).length
      = argv.length + envp.length + (guestPairs (guestValue current t₀ sp) auxv).length + 3 + 2 := by
    rw [Layout.words, vector_eq, List.length_append, pushed_length, List.length_map, List.length_map, hargc, henvc]
    rfl
  refine ⟨⟨t₀, bs.map (·.start), cs.map (·.start), sp⟩, bs, cs,
    (t₀ - BitVec.ofNat 64 (sizes argv)).toNat - sizes envp, ⟨hargs, henvs, rfl, rfl⟩, ?_, ?_, ?_, ?_, ?_⟩
  · show sp.toNat % 16 = 0
    omega
  · refine ⟨?_, Lib.descends_append hdesc₁ hdesc₂⟩
    show t₀.toNat + (bytesAt m₀ current.phdr current.phdr_size.toNat).length ≤ MEM_END.toNat
    rw [length_headers]
    omega
  · show (MEM_END - STACK_SIZE).toNat ≤ sp.toNat
    omega
  · rw [hwords]
    show sp.toNat + _ ≤ _
    omega
  · have heq := @initialize_stack_eq current m₀ _ _ argv envp auxv _ _ _ _ (by rw [← ht₀]; exact hargv) henvp
    rw [← ht₀, ← hsp] at heq
    have hputs : putAll (upper ⟨t₀, bs.map (·.start), cs.map (·.start), sp⟩ current m₀ bs cs) m₀
        = putAll cs (putAll bs ((copy t₀ (bytesAt m₀ current.phdr current.phdr_size.toNat)).put m₀)) :=
      Lib.putAll_append bs cs _
    rw [hputs]
    exact heq

theorem image_of_fit (htop : current.stack_top = MEM_END)
    (hzero : ∀ a : Long, (MEM_END - STACK_SIZE).toNat ≤ a.toNat → a.toNat < MEM_END.toNat → m₀ a = 0)
    (auxv : Auxv) (hfit : need current.phdr_size.toNat argv envp auxv.val ≤ STACK_SIZE.toNat) :
    ∃ l, (initialize_stack current m₀ argv envp auxv.val).1.stack_top = l.sp ∧
      Image l current argv envp auxv.val m₀ (initialize_stack current m₀ argv envp auxv.val).2 := by
  obtain ⟨l, bs, cs, bottom, hcopied, haligned, hdesc, hlow, hroom, hrun⟩ :=
    initialize_stack_layout htop m₀ auxv.property hfit
  rw [hrun]
  refine ⟨l, rfl, ?_⟩
  rw [push_vector hzero hdesc hlow hroom]
  exact image_of_patches hcopied haligned (Lib.descends_append hdesc ⟨hroom, hlow⟩)

/-- After the loader the stack is as it has to be. -/
theorem image_of_loaded {w : Elf.World} {file : Elf.File} {r : Elf.Loaded}
    (hload : Elf.load_elf_binary w file = some r) (auxv : Auxv)
    (hfit : need Elf.sizeof_phdrs argv envp auxv.val ≤ STACK_SIZE.toNat) :
    ∃ l, (initialize_stack r.current r.mem argv envp auxv.val).1.stack_top = l.sp ∧
      Image l r.current argv envp auxv.val r.mem (initialize_stack r.current r.mem argv envp auxv.val).2 := by
  obtain ⟨htop, hsize, hzero⟩ := Elf.load_elf_binary_stack hload
  have hphdrs : r.current.phdr_size.toNat = Elf.sizeof_phdrs := by
    rw [hsize]
    rfl
  exact image_of_fit htop hzero auxv (hphdrs ▸ hfit)

/-- **The stack.** If everything fits, the guest finds its vector at the stack pointer. -/
theorem initialize_stack_image (htop : current.stack_top = MEM_END)
    (hzero : ∀ a : Long, (MEM_END - STACK_SIZE).toNat ≤ a.toNat → a.toNat < MEM_END.toNat → m₀ a = 0)
    (auxv : Auxv) (hfit : need current.phdr_size.toNat argv envp auxv.val ≤ STACK_SIZE.toNat) :
    ∃ l, (initialize_stack current m₀ argv envp auxv.val).1.stack_top = l.sp ∧
      Image l current argv envp auxv.val m₀ (initialize_stack current m₀ argv envp auxv.val).2 :=
  image_of_fit htop hzero auxv hfit

/-- `current` for a file with three program headers. -/
def threeHeaders : pinfo_t where
  phnum := 3
  phent := 56
  phdr := 0x7f0000000000
  phdr_size := 1024
  entry := 0x10078
  stack_top := MEM_END
  brk_min := 0
  brk_max := 0

/-- An entry for the guest, one that is not, and the end. -/
def shortAuxv : Auxv := ⟨[⟨AT_PAGESZ, 0x10000⟩, ⟨33, 0x7fff0000⟩, ⟨AT_NULL, 0⟩], ⟨AT_NULL, 0⟩, by simp, rfl⟩

/-- The program `a` in an empty environment. -/
theorem initialize_stack_image_a : ∃ l,
    (initialize_stack threeHeaders (fun _ => 0) [⟨[0x61], by decide⟩] [] shortAuxv.val).1.stack_top = l.sp ∧
      Image l threeHeaders [⟨[0x61], by decide⟩] [] shortAuxv.val (fun _ => 0)
        (initialize_stack threeHeaders (fun _ => 0) [⟨[0x61], by decide⟩] [] shortAuxv.val).2 :=
  initialize_stack_image rfl (fun _ _ _ => rfl) shortAuxv (by decide)

end Cavatools.Uspike.Stack
