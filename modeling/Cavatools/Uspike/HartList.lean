import Cavatools.Lib.Run
import Cavatools.Lib.Threads

/-!
# The list of harts

Three words are shared by all threads: the head of the list that a constructor
pushes its hart on, the number of threads, and the count of instructions. Each
is updated by a loop that reads it and retries a compare-and-swap. Every read
and every swap is a step here, and so are the read and the write of the `+=`
on a hart's own count, which only the hart's own thread makes. A pointer is a
number or null. No hart is ever freed.

A thread is somewhere in a constructor or in `incr_count` (`Local`), with the
locals it holds there. The state keeps, for the statements only, which harts a
constructor was called for, which were pushed, counted and returned, in order,
and what was asked of `incr_count`.

`Inv` is the invariant over all interleavings. What a thread owes is a
function of where it is, so three instances of `Lib.Owed` say that no hart is
pushed, counted or returned twice and none is lost: those between the call and
the push, between the push and the count, and before the return. The list that
begins at the head has the pushed harts (`Walk`); a hart whose link is still
to be written is not on it, so writing that link leaves the walk
(`walk_update`). The numbers follow the order of counting. For the sums, what
each thread has still to add is counted in (`Local.unadded`,
`Local.unexecuted`).

Each kind of step has one lemma (`inv_readList` to `inv_incr_count`),
`inv_next` collects them, and `list_complete` reads the result off: every hart
that has been pushed is on the list, and when all calls have finished the list
has every hart once, the numbers are those from 0 up, and both sums are what
was asked for.
-/

namespace Cavatools.Uspike.HartList

/-- Where a thread is, with the object and the locals it holds there. -/
inductive Local
  | idle
  | readList (h : Nat)
  | swapList (h : Nat)
  | readThreads (h : Nat)
  | swapThreads (h : Nat) (old_n : BitVec 32)
  | setNumber (h : Nat) (old_n : BitVec 32)
  | readExecuted (h : Nat) (n : BitVec 64)
  | writeExecuted (h : Nat) (n v : BitVec 64)
  | readTotal (n : BitVec 64)
  | swapTotal (n oldtotal : BitVec 64)
  deriving DecidableEq

variable {T : Type}

/-- The statics and the fields of the harts. What no code reads is kept for the statements:
the harts a constructor was called for, those it pushed, counted and finished (newest
first), and the arguments of the calls of `incr_count`. -/
structure State (T : Type) where
  cpu_list : Option Nat
  link : Nat → Option Nat
  num_threads : BitVec 32
  _number : Nat → BitVec 32
  total_insns : BitVec 64
  _executed : Nat → BitVec 64
  threads : T → Local
  harts : Finset Nat
  pushed : List Nat
  counted : List Nat
  constructed : List Nat
  args : List (BitVec 64)

/-- A thread begins a constructor on fresh memory or a call of `incr_count`, or goes on. -/
inductive Act (T : Type)
  | hart_t (t : T) (h : Nat)
  | incr_count (t : T) (h : Nat) (n : BitVec 64)
  | step (t : T)

namespace State

def start : State T :=
  { cpu_list := none, link := fun _ => none, num_threads := 0, _number := fun _ => 0,
    total_insns := 0, _executed := fun _ => 0, threads := fun _ => .idle, harts := ∅, pushed := [],
    counted := [], constructed := [], args := [] }

variable [DecidableEq T] (s : State T)

def setThread (t : T) (l : Local) : State T := { s with threads := Function.update s.threads t l }

/-- The next step of thread `t`. -/
def next (t : T) : Option (State T) :=
  match s.threads t with
  | .idle => none
  | .readList h => some { s.setThread t (.swapList h) with link := Function.update s.link h s.cpu_list }
  | .swapList h =>
    if s.cpu_list = s.link h then
      some { s.setThread t (.readThreads h) with cpu_list := some h, pushed := h :: s.pushed }
    else some (s.setThread t (.readList h))
  | .readThreads h => some (s.setThread t (.swapThreads h s.num_threads))
  | .swapThreads h old_n =>
    if s.num_threads = old_n then
      some { s.setThread t (.setNumber h old_n) with num_threads := old_n + 1, counted := h :: s.counted }
    else some (s.setThread t (.readThreads h))
  | .setNumber h old_n =>
    some { s.setThread t .idle with
      _number := Function.update s._number h old_n, constructed := h :: s.constructed }
  | .readExecuted h n => some (s.setThread t (.writeExecuted h n (s._executed h)))
  | .writeExecuted h n v =>
    some { s.setThread t (.readTotal n) with _executed := Function.update s._executed h (v + n) }
  | .readTotal n => some (s.setThread t (.swapTotal n s.total_insns))
  | .swapTotal n oldtotal =>
    if s.total_insns = oldtotal then some { s.setThread t .idle with total_insns := oldtotal + n }
    else some (s.setThread t (.readTotal n))

end State

/-- Only its own thread, `own h`, calls `incr_count` of a hart. -/
def State.step [DecidableEq T] (own : Nat → T) (s : State T) : Act T → Option (State T)
  | .hart_t t h =>
    if s.threads t = .idle ∧ h ∉ s.harts then
      some { s.setThread t (.readList h) with
        _executed := Function.update s._executed h 0, harts := insert h s.harts }
    else none
  | .incr_count t h n =>
    if s.threads t = .idle ∧ h ∈ s.constructed ∧ own h = t then
      some { s.setThread t (.readExecuted h n) with args := n :: s.args }
    else none
  | .step t => s.next t

/-- The walk from a pointer by `next()`. -/
def Walk (link : Nat → Option Nat) : Option Nat → List Nat → Prop
  | p, [] => p = none
  | p, h :: l => p = some h ∧ Walk link (link h) l

/-- Changing the link of a hart that is not on it leaves a walk. -/
theorem walk_update {link : Nat → Option Nat} {h : Nat} {q : Option Nat} {p : Option Nat} {l : List Nat}
    (hl : h ∉ l) (hw : Walk link p l) : Walk (Function.update link h q) p l := by
  induction l generalizing p with
  | nil => exact hw
  | cons g l ih =>
    obtain ⟨rfl, hrest⟩ := hw
    have hne : g ≠ h := fun heq => hl (by rw [heq]; exact List.mem_cons_self)
    -- the first hart is another one, so its link is the old one
    refine ⟨rfl, ?_⟩
    rw [Function.update_of_ne hne]
    exact ih (fun hm => hl (List.mem_cons_of_mem g hm)) hrest

/-! ## What a thread still owes -/

namespace Local

/-- The hart whose constructor it is in. -/
@[simp] def building : Local → Option Nat
  | .readList h | .swapList h | .readThreads h | .swapThreads h _ | .setNumber h _ => some h
  | _ => none

/-- Before the push of its hart has succeeded. -/
@[simp] def pushing : Local → Option Nat
  | .readList h | .swapList h => some h
  | _ => none

/-- Before its hart has been counted. -/
@[simp] def counting : Local → Option Nat
  | .readList h | .swapList h | .readThreads h | .swapThreads h _ => some h
  | _ => none

/-- What it has not yet added to its hart's count. -/
@[simp] def unexecuted : Local → BitVec 64
  | .readExecuted _ n | .writeExecuted _ n _ => n
  | _ => 0

/-- What it has not yet added to the total. -/
@[simp] def unadded : Local → BitVec 64
  | .readExecuted _ n | .writeExecuted _ n _ | .readTotal n | .swapTotal n _ => n
  | _ => 0

end Local

/-! ## The invariant -/

section Invariant

variable {s : State T} {t : T} {l : Local}

/-- Where a thread is after one thread has changed place. -/
theorem threads_cases [DecidableEq T] {u : T} {p : Local} (h : (s.setThread t l).threads u = p) :
    (u = t ∧ l = p) ∨ (u ≠ t ∧ s.threads u = p) := by
  by_cases hu : u = t
  · exact Or.inl ⟨hu, by simpa [State.setThread, hu] using h⟩
  · exact Or.inr ⟨hu, by simpa [State.setThread, hu] using h⟩

variable [Fintype T] (own : Nat → T)

/-- A constructor pushes, counts and numbers its hart; the numbers follow the order of
counting, and each sum is what has been asked for less what is still in the threads' hands. -/
structure Inv (s : State T) : Prop where
  pushing : Lib.Owed s.threads Local.pushing s.harts s.pushed
  counting : Lib.Owed s.threads Local.counting s.harts s.counted
  building : Lib.Owed s.threads Local.building s.harts s.constructed
  walk : Walk s.link s.cpu_list s.pushed
  num : s.num_threads = BitVec.ofNat 32 s.counted.length
  number : ∀ later h earlier, s.counted = later ++ h :: earlier →
    (h ∈ s.constructed ∧ s._number h = BitVec.ofNat 32 earlier.length) ∨
      ∃ t, s.threads t = .setNumber h (BitVec.ofNat 32 earlier.length)
  reading : ∀ t h n, s.threads t = .readExecuted h n → h ∈ s.harts ∧ own h = t
  writing : ∀ t h n v, s.threads t = .writeExecuted h n v →
    h ∈ s.harts ∧ own h = t ∧ s._executed h = v
  total : s.total_insns + ∑ t, (s.threads t).unadded = s.args.sum
  executed : ∑ h ∈ s.harts, s._executed h + ∑ t, (s.threads t).unexecuted = s.args.sum

variable {own}

theorem inv_start : Inv own (State.start : State T) where
  pushing := Lib.Owed.start fun _ => rfl
  counting := Lib.Owed.start fun _ => rfl
  building := Lib.Owed.start fun _ => rfl
  walk := rfl
  num := rfl
  number later h earlier heq := by simp [State.start] at heq
  reading t h n heq := by cases heq
  writing t h n v heq := by cases heq
  total := by simp [State.start]
  executed := by simp [State.start]

variable [DecidableEq T]

/-- A thread that is not numbering a hart changes place: the numbers stay accounted for. -/
theorem number_keep (hinv : Inv own s) (ht : ∀ h n, s.threads t ≠ .setNumber h n) {later earlier : List Nat}
    {h : Nat} (hc : s.counted = later ++ h :: earlier) :
    (h ∈ s.constructed ∧ s._number h = BitVec.ofNat 32 earlier.length) ∨
      ∃ u, (s.setThread t l).threads u = .setNumber h (BitVec.ofNat 32 earlier.length) := by
  rcases hinv.number later h earlier hc with hdone | hex
  · exact Or.inl hdone
  obtain ⟨u, hu⟩ := hex
  have hut : u ≠ t := fun heq => ht _ _ (heq ▸ hu)
  exact Or.inr ⟨u, by simp [State.setThread, hut, hu]⟩

/-- What is left to add after one thread has changed place. -/
theorem sum_setThread (f : Local → BitVec 64) :
    ∑ u, f ((s.setThread t l).threads u) = ∑ u, f (s.threads u) - f (s.threads t) + f l :=
  Lib.sum_update f

/-- What a thread must know of a hart before it writes that hart's count. -/
theorem writing_keep (hinv : Inv own s)
    (hl : ∀ h n v, l = .writeExecuted h n v → h ∈ s.harts ∧ own h = t ∧ s._executed h = v) :
    ∀ u h n v, (s.setThread t l).threads u = .writeExecuted h n v →
      h ∈ s.harts ∧ own h = u ∧ s._executed h = v := by
  intro u h n v hu
  rcases threads_cases hu with ⟨rfl, hlw⟩ | ⟨-, hold⟩
  · exact hl h n v hlw
  · exact hinv.writing u h n v hold

theorem reading_keep (hinv : Inv own s) (hl : ∀ h n, l = .readExecuted h n → h ∈ s.harts ∧ own h = t) :
    ∀ u h n, (s.setThread t l).threads u = .readExecuted h n → h ∈ s.harts ∧ own h = u := by
  intro u h n hu
  rcases threads_cases hu with ⟨rfl, hlr⟩ | ⟨-, hold⟩
  · exact hl h n hlr
  · exact hinv.reading u h n hold

theorem total_keep (hinv : Inv own s) (hl : l.unadded = (s.threads t).unadded) :
    s.total_insns + ∑ u, ((s.setThread t l).threads u).unadded = s.args.sum := by
  rw [sum_setThread, hl, sub_add_cancel]
  exact hinv.total

theorem executed_keep (hinv : Inv own s) (hl : l.unexecuted = (s.threads t).unexecuted) :
    ∑ h ∈ s.harts, s._executed h + ∑ u, ((s.setThread t l).threads u).unexecuted = s.args.sum := by
  rw [sum_setThread, hl, sub_add_cancel]
  exact hinv.executed

/-- A read of a shared word, or a swap that fails: a thread goes on with what it has in hand. -/
theorem inv_move (hinv : Inv own s) (hp : l.pushing = (s.threads t).pushing)
    (hc : l.counting = (s.threads t).counting) (hb : l.building = (s.threads t).building)
    (hn : ∀ h n, s.threads t ≠ .setNumber h n) (ha : l.unadded = (s.threads t).unadded)
    (hx : l.unexecuted = (s.threads t).unexecuted)
    (hr : ∀ h n, l = .readExecuted h n → h ∈ s.harts ∧ own h = t)
    (hw : ∀ h n v, l = .writeExecuted h n v → h ∈ s.harts ∧ own h = t ∧ s._executed h = v) :
    Inv own (s.setThread t l) where
  pushing := hinv.pushing.keep hp
  counting := hinv.counting.keep hc
  building := hinv.building.keep hb
  walk := hinv.walk
  num := hinv.num
  number _ _ _ heq := number_keep hinv hn heq
  reading := reading_keep hinv hr
  writing := writing_keep hinv hw
  total := (total_keep hinv ha :)
  executed := (executed_keep hinv hx :)

/-- `link = list()`. -/
theorem inv_readList (hinv : Inv own s) {h : Nat} (ht : s.threads t = .readList h) :
    Inv own { s.setThread t (.swapList h) with link := Function.update s.link h s.cpu_list } := by
  have hmove : Inv own (s.setThread t (.swapList h)) := by
    apply inv_move hinv <;> simp [ht]
  -- its hart is not on the list yet, so writing its link leaves the walk
  have hnot : h ∉ s.pushed := hinv.pushing.not_done t h (by rw [ht]; rfl)
  exact { hmove with walk := walk_update hnot hinv.walk }

/-- The hart is pushed: its link is what the head was until now. -/
theorem inv_swapList (hinv : Inv own s) {h : Nat} (ht : s.threads t = .swapList h)
    (hhead : s.cpu_list = s.link h) :
    Inv own { s.setThread t (.readThreads h) with cpu_list := some h, pushed := h :: s.pushed } where
  pushing := hinv.pushing.finish (by rw [ht]; rfl) rfl
  counting := hinv.counting.keep (by rw [ht]; rfl)
  building := hinv.building.keep (by rw [ht]; rfl)
  walk := ⟨rfl, hhead ▸ hinv.walk⟩
  num := hinv.num
  number _ _ _ heq := number_keep hinv (by simp [ht]) heq
  reading := reading_keep hinv (by simp)
  writing := writing_keep hinv (by simp)
  total := (total_keep (l := .readThreads h) hinv (by rw [ht]; rfl) :)
  executed := (executed_keep (l := .readThreads h) hinv (by rw [ht]; rfl) :)

/-- The hart is counted: it will have as number how many were counted before it. -/
theorem inv_swapThreads (hinv : Inv own s) {h : Nat} {old_n : BitVec 32}
    (ht : s.threads t = .swapThreads h old_n) (hcur : s.num_threads = old_n) :
    Inv own { s.setThread t (.setNumber h old_n) with
      num_threads := old_n + 1, counted := h :: s.counted } where
  pushing := hinv.pushing.keep (by rw [ht]; rfl)
  counting := hinv.counting.finish (by rw [ht]; rfl) rfl
  building := hinv.building.keep (by rw [ht]; rfl)
  walk := hinv.walk
  num := by
    show old_n + 1 = BitVec.ofNat 32 (h :: s.counted).length
    rw [← hcur, hinv.num, List.length_cons, BitVec.ofNat_add]
    rfl
  number := by
    intro later g earlier heq
    rcases later with _ | ⟨g', later⟩
    · -- the hart just counted: its number is in this thread's hands
      obtain ⟨rfl, rfl⟩ := List.cons.inj heq
      refine Or.inr ⟨t, ?_⟩
      rw [← hinv.num, hcur]
      exact Function.update_self ..
    · exact number_keep hinv (by simp [ht]) (List.cons.inj heq).2
  reading := reading_keep hinv (by simp)
  writing := writing_keep hinv (by simp)
  total := (total_keep (l := .setNumber h old_n) hinv (by rw [ht]; rfl) :)
  executed := (executed_keep (l := .setNumber h old_n) hinv (by rw [ht]; rfl) :)

/-- `_number = old_n`, and the constructor returns. -/
theorem inv_setNumber (hinv : Inv own s) {h : Nat} {old_n : BitVec 32}
    (ht : s.threads t = .setNumber h old_n) :
    Inv own { s.setThread t .idle with
      _number := Function.update s._number h old_n, constructed := h :: s.constructed } where
  pushing := hinv.pushing.keep (by rw [ht]; rfl)
  counting := hinv.counting.keep (by rw [ht]; rfl)
  building := hinv.building.finish (by rw [ht]; rfl) rfl
  walk := hinv.walk
  num := hinv.num
  number := by
    intro later g earlier heq
    have hbuild : (s.threads t).building = some h := by rw [ht]; rfl
    rcases hinv.number later g earlier heq with ⟨hdone, hnum⟩ | hex
    · -- A finished hart is not the one in hand, and keeps its number.
      have hgh : g ≠ h := fun hgh => hinv.building.not_done t h hbuild (hgh ▸ hdone)
      refine Or.inl ⟨List.mem_cons_of_mem h hdone, ?_⟩
      exact (Function.update_of_ne hgh ..).trans hnum
    · obtain ⟨u, hu⟩ := hex
      -- the number in hand is this hart's, or another thread has it
      by_cases hut : u = t
      · rw [hut, ht] at hu
        obtain ⟨rfl, rfl⟩ := Local.setNumber.inj hu
        exact Or.inl ⟨List.mem_cons_self, Function.update_self ..⟩
      · exact Or.inr ⟨u, (Function.update_of_ne hut ..).trans hu⟩
  reading := reading_keep hinv (by simp)
  writing := writing_keep hinv (by simp)
  total := (total_keep (l := .idle) hinv (by rw [ht]; rfl) :)
  executed := (executed_keep (l := .idle) hinv (by rw [ht]; rfl) :)

/-- The write of `_executed += n`: since its read only this thread could have written. -/
theorem inv_writeExecuted (hinv : Inv own s) {h : Nat} {n v : BitVec 64}
    (ht : s.threads t = .writeExecuted h n v) :
    Inv own { s.setThread t (.readTotal n) with
      _executed := Function.update s._executed h (v + n) } where
  pushing := hinv.pushing.keep (by rw [ht]; rfl)
  counting := hinv.counting.keep (by rw [ht]; rfl)
  building := hinv.building.keep (by rw [ht]; rfl)
  walk := hinv.walk
  num := hinv.num
  number _ _ _ heq := number_keep hinv (by simp [ht]) heq
  reading := reading_keep hinv (by simp)
  writing := by
    intro u g m w hu
    rcases threads_cases hu with ⟨-, hl⟩ | ⟨hut, hold⟩
    · cases hl
    obtain ⟨hg, hown, hw⟩ := hinv.writing u g m w hold
    -- two threads that write the same count would both own the hart
    have hgh : g ≠ h := by
      rintro rfl
      exact hut (hown.symm.trans (hinv.writing t g n v ht).2.1)
    exact ⟨hg, hown, (Function.update_of_ne hgh ..).trans hw⟩
  total := (total_keep (l := .readTotal n) hinv (by rw [ht]; rfl) :)
  executed := by
    obtain ⟨hh, -, hv⟩ := hinv.writing t h n v ht
    have hsplit := Finset.sum_erase_add s.harts s._executed hh
    show ∑ g ∈ s.harts, Function.update s._executed h (v + n) g
      + ∑ u, ((s.setThread t (.readTotal n)).threads u).unexecuted = s.args.sum
    rw [Finset.sum_update_of_mem hh, ← Finset.erase_eq, sum_setThread, ht, ← hinv.executed, ← hsplit, hv]
    simp only [Local.unexecuted]
    abel

/-- The total takes in what the thread had left to add. -/
theorem inv_swapTotal (hinv : Inv own s) {n oldtotal : BitVec 64} (ht : s.threads t = .swapTotal n oldtotal)
    (hcur : s.total_insns = oldtotal) :
    Inv own { s.setThread t .idle with total_insns := oldtotal + n } where
  pushing := hinv.pushing.keep (by rw [ht]; rfl)
  counting := hinv.counting.keep (by rw [ht]; rfl)
  building := hinv.building.keep (by rw [ht]; rfl)
  walk := hinv.walk
  num := hinv.num
  number _ _ _ heq := number_keep hinv (by simp [ht]) heq
  reading := reading_keep hinv (by simp)
  writing := writing_keep hinv (by simp)
  total := by
    show oldtotal + n + ∑ u, ((s.setThread t .idle).threads u).unadded = s.args.sum
    rw [sum_setThread, ht, ← hinv.total, hcur]
    simp only [Local.unadded]
    abel
  executed := (executed_keep (l := .idle) hinv (by rw [ht]; rfl) :)

/-- A constructor is called for a new hart. -/
theorem inv_hart_t (hinv : Inv own s) (ht : s.threads t = .idle) {h : Nat} (hh : h ∉ s.harts) :
    Inv own { s.setThread t (.readList h) with
      _executed := Function.update s._executed h 0, harts := insert h s.harts } where
  pushing := hinv.pushing.begin (by rw [ht]; rfl) rfl hh
  counting := hinv.counting.begin (by rw [ht]; rfl) rfl hh
  building := hinv.building.begin (by rw [ht]; rfl) rfl hh
  walk := hinv.walk
  num := hinv.num
  number _ _ _ heq := number_keep hinv (by simp [ht]) heq
  reading u g n hu := by
    obtain ⟨hg, hown⟩ := reading_keep hinv (by simp) u g n hu
    exact ⟨Finset.mem_insert_of_mem hg, hown⟩
  writing u g n v hu := by
    obtain ⟨hg, hown, hv⟩ := writing_keep hinv (by simp) u g n v hu
    -- a hart on fresh memory is none of those being counted
    have hgh : g ≠ h := fun heq => hh (heq ▸ hg)
    exact ⟨Finset.mem_insert_of_mem hg, hown, (Function.update_of_ne hgh ..).trans hv⟩
  total := (total_keep (l := .readList h) hinv (by rw [ht]; rfl) :)
  executed := by
    have hsum : ∑ g ∈ insert h s.harts, Function.update s._executed h 0 g = ∑ g ∈ s.harts, s._executed g := by
      rw [Finset.sum_insert hh, Function.update_self, zero_add]
      refine Finset.sum_congr rfl fun g hg => Function.update_of_ne ?_ ..
      rintro rfl
      exact hh hg
    show ∑ g ∈ insert h s.harts, Function.update s._executed h 0 g
      + ∑ u, ((s.setThread t (.readList h)).threads u).unexecuted = s.args.sum
    rw [hsum]
    exact executed_keep hinv (by rw [ht]; rfl)

/-- `incr_count` is called by the hart's own thread. -/
theorem inv_incr_count (hinv : Inv own s) (ht : s.threads t = .idle) {h : Nat} {n : BitVec 64}
    (hh : h ∈ s.constructed) (hown : own h = t) :
    Inv own { s.setThread t (.readExecuted h n) with args := n :: s.args } where
  pushing := hinv.pushing.keep (by rw [ht]; rfl)
  counting := hinv.counting.keep (by rw [ht]; rfl)
  building := hinv.building.keep (by rw [ht]; rfl)
  walk := hinv.walk
  num := hinv.num
  number _ _ _ heq := number_keep hinv (by simp [ht]) heq
  reading := by
    refine reading_keep hinv ?_
    intro g m hl
    obtain ⟨rfl, rfl⟩ := Local.readExecuted.inj hl
    exact ⟨hinv.building.done_mem h hh, hown⟩
  writing := writing_keep hinv (by simp)
  total := by
    show s.total_insns + ∑ u, ((s.setThread t (.readExecuted h n)).threads u).unadded = (n :: s.args).sum
    rw [sum_setThread, ht, List.sum_cons, ← hinv.total]
    simp only [Local.unadded]
    abel
  executed := by
    show ∑ g ∈ s.harts, s._executed g + ∑ u, ((s.setThread t (.readExecuted h n)).threads u).unexecuted
      = (n :: s.args).sum
    rw [sum_setThread, ht, List.sum_cons, ← hinv.executed]
    simp only [Local.unexecuted]
    abel

/-- Every step of a thread keeps the invariant. -/
theorem inv_next (hinv : Inv own s) {s' : State T} (hnext : s.next t = some s') : Inv own s' := by
  unfold State.next at hnext
  cases ht : s.threads t with rw [ht] at hnext
  | idle => cases hnext
  | readList h =>
    obtain rfl := Option.some.inj hnext
    exact inv_readList hinv ht
  | swapList h =>
    simp only at hnext
    split at hnext
    · obtain rfl := Option.some.inj hnext
      exact inv_swapList hinv ht ‹_›
    · obtain rfl := Option.some.inj hnext
      -- the swap lost: back to reading the head
      apply inv_move hinv <;> simp [ht]
  | readThreads h =>
    obtain rfl := Option.some.inj hnext
    apply inv_move hinv <;> simp [ht]
  | swapThreads h old_n =>
    simp only at hnext
    split at hnext
    · obtain rfl := Option.some.inj hnext
      exact inv_swapThreads hinv ht ‹_›
    · obtain rfl := Option.some.inj hnext
      apply inv_move hinv <;> simp [ht]
  | setNumber h old_n =>
    obtain rfl := Option.some.inj hnext
    exact inv_setNumber hinv ht
  | readExecuted h n =>
    obtain rfl := Option.some.inj hnext
    obtain ⟨hh, hown⟩ := hinv.reading t h n ht
    apply inv_move hinv <;> simp [ht, hh, hown]
  | writeExecuted h n v =>
    obtain rfl := Option.some.inj hnext
    exact inv_writeExecuted hinv ht
  | readTotal n =>
    obtain rfl := Option.some.inj hnext
    apply inv_move hinv <;> simp [ht]
  | swapTotal n oldtotal =>
    simp only at hnext
    split at hnext
    · obtain rfl := Option.some.inj hnext
      exact inv_swapTotal hinv ht ‹_›
    · obtain rfl := Option.some.inj hnext
      apply inv_move hinv <;> simp [ht]

/-- A step is the begin of a call, by a thread that is in none, or the next step of a thread. -/
theorem inv_step (hinv : Inv own s) {a : Act T} {s' : State T} (hstep : s.step own a = some s') :
    Inv own s' := by
  cases a with
  | hart_t t h =>
    simp only [State.step] at hstep
    split at hstep
    · obtain ⟨ht, hh⟩ := ‹_ ∧ _›
      obtain rfl := Option.some.inj hstep
      exact inv_hart_t hinv ht hh
    · cases hstep
  | incr_count t h n =>
    simp only [State.step] at hstep
    split at hstep
    · obtain ⟨ht, hh, hown⟩ := ‹_ ∧ _ ∧ _›
      obtain rfl := Option.some.inj hstep
      exact inv_incr_count hinv ht hh hown
    · cases hstep
  | step t => exact inv_next hinv hstep

theorem inv_run {as : List (Act T)} (hrun : Lib.run (State.step own) as State.start = some s) : Inv own s :=
  Lib.run_invariant (fun _ _ _ _ hinv hstep => inv_step hinv hstep) inv_start hrun

/-! ## When every call has finished -/

omit [DecidableEq T] in
/-- The harts counted in order have the numbers in order. -/
theorem map_number (hinv : Inv own s) (hidle : ∀ t, s.threads t = .idle) :
    s.counted.map s._number = ((List.range s.counted.length).map (BitVec.ofNat 32)).reverse := by
  have hnum (later : List Nat) (h : Nat) (earlier : List Nat) (heq : s.counted = later ++ h :: earlier) :
      s._number h = BitVec.ofNat 32 earlier.length := by
    rcases hinv.number later h earlier heq with ⟨-, hn⟩ | ⟨t, ht⟩
    · exact hn
    · rw [hidle t] at ht
      cases ht
  -- From the first counted on: every earlier part of the list is a tail of it.
  suffices htail : ∀ earlier later, s.counted = later ++ earlier → earlier.map s._number
      = ((List.range earlier.length).map (BitVec.ofNat 32)).reverse from htail s.counted [] rfl
  intro earlier
  induction earlier with
  | nil => exact fun _ _ => rfl
  | cons h earlier ih =>
    intro later heq
    rw [List.map_cons, hnum later h earlier heq, ih (later ++ [h]) (by simp [heq]), List.length_cons,
      List.range_succ, List.map_append, List.reverse_append]
    rfl

/-- **The list and the counts.** However the threads' steps interleave, every hart that has
been pushed is on the list; when all calls have returned the walk meets every hart once,
their numbers are the first ones, and both counts are the sum of what was passed. -/
theorem list_complete {as : List (Act T)} (hrun : Lib.run (State.step own) as State.start = some s) :
    ∃ l, Walk s.link s.cpu_list l ∧ l.Nodup ∧ (∀ h ∈ s.pushed, h ∈ l) ∧
      ((∀ t, s.threads t = .idle) →
        l.Perm s.constructed ∧ l.toFinset = s.harts ∧
        (l.map s._number).Perm ((List.range l.length).map (BitVec.ofNat 32)) ∧
        s.total_insns = s.args.sum ∧ (l.map s._executed).sum = s.args.sum) := by
  have hinv := inv_run hrun
  refine ⟨s.pushed, hinv.walk, hinv.pushing.nodup, fun h hh => hh, ?_⟩
  intro hidle
  -- no thread has a hart in hand, so each of the three lists is all of them
  have hpushed : s.pushed.toFinset = s.harts := hinv.pushing.toFinset_done fun t => by rw [hidle t]; rfl
  have hcounted : s.counted.toFinset = s.harts := hinv.counting.toFinset_done fun t => by rw [hidle t]; rfl
  have hbuilt : s.constructed.toFinset = s.harts := hinv.building.toFinset_done fun t => by rw [hidle t]; rfl
  have hperm : s.pushed.Perm s.counted :=
    List.perm_of_nodup_nodup_toFinset_eq hinv.pushing.nodup hinv.counting.nodup (hpushed.trans hcounted.symm)
  refine ⟨?_, hpushed, ?_, ?_, ?_⟩
  · exact List.perm_of_nodup_nodup_toFinset_eq hinv.pushing.nodup hinv.building.nodup
      (hpushed.trans hbuilt.symm)
  · rw [hperm.length_eq]
    refine (hperm.map s._number).trans ?_
    rw [map_number hinv hidle]
    exact List.reverse_perm _
  · -- what is left to add is 0 in every thread
    have htotal := hinv.total
    simp only [hidle, Local.unadded, Finset.sum_const_zero, add_zero] at htotal
    exact htotal
  · have hexec := hinv.executed
    simp only [hidle, Local.unexecuted, Finset.sum_const_zero, add_zero] at hexec
    rw [← hexec, ← hpushed, List.sum_toFinset _ hinv.pushing.nodup]

end Invariant

/-- Two threads construct a hart each; the second wins both races, and the first tries
again. Then both count at once. -/
def race : List (Act Bool) :=
  [.hart_t false 16, .hart_t true 32, .step false, .step true, .step true, .step false, .step false,
    .step false, .step true, .step false, .step true, .step false, .step false, .step false, .step false,
    .step true,
    .incr_count false 16 5, .incr_count true 32 7, .step false, .step true, .step false, .step true,
    .step false, .step true, .step true, .step false, .step false, .step false]

/-- Both harts are on the list, and the total is what the two calls have asked for. -/
theorem list_complete_race : ∃ s, Lib.run (State.step fun h => h == 32) race State.start = some s ∧
    s.total_insns = 12 ∧ ∃ l, Walk s.link s.cpu_list l ∧ l.toFinset = {16, 32} := by
  have hend : (Lib.run (State.step fun h => h == 32) race State.start).map (fun s =>
      (s.threads false, s.threads true, s.harts, s.total_insns)) = some (.idle, .idle, {16, 32}, 12) := by
    decide +kernel
  obtain ⟨s, hrun, hs⟩ := Option.map_eq_some_iff.mp hend
  simp only [Prod.mk.injEq] at hs
  obtain ⟨hfalse, htrue, hharts, htotal⟩ := hs
  obtain ⟨l, hwalk, -, -, hdone⟩ := list_complete hrun
  obtain ⟨-, hl, -⟩ := hdone fun t => by
    cases t
    · exact hfalse
    · exact htrue
  exact ⟨s, hrun, htotal, l, hwalk, hl.trans hharts⟩

end Cavatools.Uspike.HartList
