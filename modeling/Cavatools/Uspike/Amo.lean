import Cavatools.Lib.Run
import Cavatools.Lib.Threads
import Cavatools.Uspike.Cas

/-!
# Atomic operations on one word

Harts change a shared word by `amo_uint32` and `amo_uint64`, which read it and
retry a compare-and-swap of what `f` makes of it, and by the single
compare-and-swap of `hart_t::cas`. Every read and every swap is a step of its
own, and the steps of any number of harts interleave in any order.

The state keeps more than the code does, for the statements only: the calls in
the order in which they were made, the history of the word and what was
returned. The history has an event for each swap that succeeded and each `cas`
that did not. Replaying it from the first value gives the word (`Replays`), so
it is an order in which the calls take effect one after another. What a call
has to have there is `Does`: for an AMO that returns `v` just one link, from
`v` to `f v`; for a `cas` one link, or a look at a value that was not the
expected one.

`Inv` says that each call is in one hart's hands or has returned (`Lib.Owed`),
that the history leads to the word, and that it has the event of each call
that has got to its swap and no event of one that has not. A step that leaves
the word alone moves a hart (`inv_move`), a swap adds the event that its call
lacked (`inv_swap`), and a return finds it there (`inv_ret`). Hence no update
is lost and none is applied twice in any run (`updates_once`).

The last section shows that a hart which is not interrupted does in three
steps what `hart_t::cas` does in one.
-/

namespace Cavatools.Uspike.Amo

variable {T : Type} {w : Nat}

/-- A call: an AMO with its function, or a `cas` with the values of its registers. -/
inductive Call (w : Nat)
  | amo_uint (f : BitVec w → BitVec w)
  | cas (expect replace : BitVec w)

/-- What a call returns; `cas` also writes the old value to a register. -/
inductive Result (w : Nat)
  | lhs (lhs : BitVec w)
  | cas (oldval : BitVec w) (success : Bool)

/-- Where a hart is, with the number of its call and the locals it holds there. -/
inductive Local (w : Nat)
  | idle
  | readWord (id : Nat) (f : BitVec w → BitVec w)
  | swapWord (id : Nat) (f : BitVec w → BitVec w) (lhs : BitVec w)
  | amoModel (id : Nat) (f : BitVec w → BitVec w) (lhs : BitVec w)
  | swapCas (id : Nat) (expect replace : BitVec w)
  | returnCas (id : Nat) (expect replace oldval : BitVec w)

/-- A swap that wrote, with what was there, or one that found something else. -/
inductive Event (w : Nat)
  | link (id : Nat) (v v' : BitVec w)
  | miss (id : Nat) (v : BitVec w)

/-- The word and the harts; the rest is kept for the statements: the calls in order (their
places are their numbers), the history of the word, and what was returned. -/
structure State (T : Type) (w : Nat) where
  word : BitVec w
  threads : T → Local w
  calls : List (Call w)
  history : List (Event w)
  returned : List (Nat × Result w)

inductive Act (T : Type) (w : Nat)
  | call (t : T) (c : Call w)
  | step (t : T)

/-- Where a call begins. -/
def Call.entry (id : Nat) : Call w → Local w
  | .amo_uint f => .readWord id f
  | .cas expect replace => .swapCas id expect replace

namespace State

def start (v : BitVec w) : State T w :=
  { word := v, threads := fun _ => .idle, calls := [], history := [], returned := [] }

variable [DecidableEq T] (s : State T w)

def setThread (t : T) (l : Local w) : State T w := { s with threads := Function.update s.threads t l }

/-- A swap of the word: it has become `v`, and the history has one more event. -/
def swap (t : T) (l : Local w) (e : Event w) (v : BitVec w) : State T w :=
  { s.setThread t l with word := v, history := s.history ++ [e] }

def ret (t : T) (id : Nat) (r : Result w) : State T w :=
  { s.setThread t .idle with returned := (id, r) :: s.returned }

/-- The next step of hart `t`. -/
def next (t : T) : Option (State T w) :=
  match s.threads t with
  | .idle => none
  | .readWord id f => some (s.setThread t (.swapWord id f s.word))
  | .swapWord id f lhs =>
    if s.word = lhs then some (s.swap t (.amoModel id f lhs) (.link id s.word (f lhs)) (f lhs))
    else some (s.setThread t (.readWord id f))
  | .amoModel id _ lhs => some (s.ret t id (.lhs lhs))
  | .swapCas id expect replace =>
    if s.word = expect then
      some (s.swap t (.returnCas id expect replace s.word) (.link id s.word replace) replace)
    else some (s.swap t (.returnCas id expect replace s.word) (.miss id s.word) s.word)
  | .returnCas id expect _ oldval => some (s.ret t id (.cas oldval (oldval == expect)))

def step : Act T w → Option (State T w)
  | .call t c =>
    match s.threads t with
    | .idle => some { s.setThread t (c.entry s.calls.length) with calls := s.calls ++ [c] }
    | _ => none
  | .step t => s.next t

end State

/-! ## The history of a word -/

namespace Event

def id : Event w → Nat
  | .link id _ _ | .miss id _ => id

/-- What the word was. -/
def before : Event w → BitVec w
  | .link _ v _ | .miss _ v => v

/-- What the word has become. -/
def after : Event w → BitVec w
  | .link _ _ v | .miss _ v => v

end Event

/-- From `v`, the events in order lead to `v'`: each begins where the one before it ended. -/
def Replays : BitVec w → List (Event w) → BitVec w → Prop
  | v, [], v' => v = v'
  | v, e :: es, v' => e.before = v ∧ Replays e.after es v'

theorem replays_concat {v : BitVec w} {es : List (Event w)} {e : Event w} (h : Replays v es e.before) :
    Replays v (es ++ [e]) e.after := by
  induction es generalizing v with
  | nil => exact ⟨h.symm, rfl⟩
  | cons d es ih => exact ⟨h.1, ih h.2⟩

/-- The events of one call. -/
def eventsOf (id : Nat) (es : List (Event w)) : List (Event w) := es.filter fun e => e.id = id

theorem eventsOf_concat_self {es : List (Event w)} {e : Event w} :
    eventsOf e.id (es ++ [e]) = eventsOf e.id es ++ [e] := by
  simp [eventsOf]

theorem eventsOf_concat_ne {es : List (Event w)} {e : Event w} {id : Nat} (h : e.id ≠ id) :
    eventsOf id (es ++ [e]) = eventsOf id es := by
  simp [eventsOf, h]

/-! ## What a call does to the word -/

/-- One link from `v` to `f v` for an AMO that returns `v`; one link for a `cas` that
succeeds, and a look at the old value for one that does not. -/
def Does (id : Nat) : Call w → Result w → List (Event w) → Prop
  | .amo_uint f, .lhs v, es => es = [.link id v (f v)]
  | .cas expect replace, .cas oldval true, es => oldval = expect ∧ es = [.link id expect replace]
  | .cas expect _, .cas oldval false, es => oldval ≠ expect ∧ es = [.miss id oldval]
  | _, _, _ => False

namespace Local

@[simp] def call : Local w → Option Nat
  | .idle => none
  | .readWord id _ | .swapWord id _ _ | .amoModel id _ _ | .swapCas id _ _ | .returnCas id _ _ _ => some id

@[simp] def kind : Local w → Option (Call w)
  | .idle => none
  | .readWord _ f | .swapWord _ f _ | .amoModel _ f _ => some (.amo_uint f)
  | .swapCas _ expect replace | .returnCas _ expect replace _ => some (.cas expect replace)

/-- The events its call has put in the history so far. -/
@[simp] def events : Local w → List (Event w)
  | .amoModel id f lhs => [.link id lhs (f lhs)]
  | .returnCas id expect replace oldval =>
    if oldval = expect then [.link id expect replace] else [.miss id oldval]
  | _ => []

/-- What the calls and the history must say of where a hart is. -/
def Holds (calls : List (Call w)) (history : List (Event w)) (l : Local w) : Prop :=
  ∀ id, l.call = some id → calls[id]? = l.kind ∧ eventsOf id history = l.events

end Local

/-! ## The invariant -/

/-- Every call is in one hart's hands or has returned, and the history has its event, if
it has made one. -/
structure Inv (v₀ : BitVec w) (s : State T w) : Prop where
  owed : Lib.Owed s.threads Local.call (Finset.range s.calls.length) (s.returned.map Prod.fst)
  replays : Replays v₀ s.history s.word
  held : ∀ t, (s.threads t).Holds s.calls s.history
  done : ∀ id r, (id, r) ∈ s.returned → ∃ c, s.calls[id]? = some c ∧ Does id c r (eventsOf id s.history)
  known : ∀ e ∈ s.history, e.id < s.calls.length

variable {v₀ : BitVec w} {s : State T w} {t : T} {l : Local w}

theorem inv_start : Inv v₀ (State.start v₀ : State T w) where
  owed := Lib.Owed.start fun _ => rfl
  replays := rfl
  held t id h := by cases h
  done id r h := absurd h List.not_mem_nil
  known e h := absurd h List.not_mem_nil

variable [DecidableEq T]

/-- What every hart must hold, after one hart has changed place. -/
theorem held_update {calls : List (Call w)} {history : List (Event w)} (hl : l.Holds calls history)
    (hrest : ∀ u, u ≠ t → (s.threads u).Holds calls history) (u : T) :
    ((s.setThread t l).threads u).Holds calls history :=
  (Function.forall_update_iff s.threads fun _ p => p.Holds calls history).mpr ⟨hl, hrest⟩ u

/-- A step that leaves the word alone and its call without a new event. -/
theorem inv_move (hinv : Inv v₀ s) (hc : l.call = (s.threads t).call) (hk : l.kind = (s.threads t).kind)
    (he : l.events = (s.threads t).events) : Inv v₀ (s.setThread t l) where
  owed := hinv.owed.keep hc
  replays := hinv.replays
  held := by
    refine held_update ?_ fun u _ => hinv.held u
    intro id hid
    -- the new place asks no more of the history than the old one
    obtain ⟨hcall, hev⟩ := hinv.held t id (hc ▸ hid)
    exact ⟨hcall.trans hk.symm, hev.trans he.symm⟩
  done := hinv.done
  known := hinv.known

/-- A swap, whether it writes or not: the history of the call gets the event it lacked. -/
theorem inv_swap (hinv : Inv v₀ s) {e : Event w} (ht : (s.threads t).call = some e.id)
    (hc : l.call = (s.threads t).call) (hk : l.kind = (s.threads t).kind)
    (he : l.events = (s.threads t).events ++ [e]) (hbefore : e.before = s.word) :
    Inv v₀ (s.swap t l e e.after) where
  owed := hinv.owed.keep hc
  replays := replays_concat (hbefore ▸ hinv.replays)
  held := by
    refine held_update ?_ ?_
    · intro id hid
      obtain rfl : e.id = id := Option.some.inj ((ht.symm.trans hc.symm).trans hid)
      obtain ⟨hcall, hev⟩ := hinv.held t e.id ht
      exact ⟨hcall.trans hk.symm, by rw [State.swap, eventsOf_concat_self, hev, he]⟩
    · -- Another hart is in another call.
      intro u hut id hu
      have hne : e.id ≠ id := fun heq => hut (hinv.owed.unique u t id hu (heq ▸ ht))
      obtain ⟨hcall, hev⟩ := hinv.held u id hu
      exact ⟨hcall, (eventsOf_concat_ne hne).trans hev⟩
  done := by
    intro id r hr
    obtain ⟨c, hcall, hdoes⟩ := hinv.done id r hr
    -- a call that has returned is in nobody's hands, and this one is
    have hne : e.id ≠ id := by
      rintro rfl
      exact hinv.owed.not_done t _ ht (List.mem_map.mpr ⟨_, hr, rfl⟩)
    exact ⟨c, hcall, by rw [State.swap, eventsOf_concat_ne hne]; exact hdoes⟩
  known := by
    intro d hd
    rcases List.mem_append.mp hd with hd | hd
    · exact hinv.known d hd
    · rw [List.mem_singleton.mp hd]
      exact Finset.mem_range.mp (hinv.owed.mem t _ ht)

/-- The call returns what its event says. -/
theorem inv_ret (hinv : Inv v₀ s) {id : Nat} {c : Call w} {r : Result w} (ht : (s.threads t).call = some id)
    (hk : (s.threads t).kind = some c) (hdoes : Does id c r (s.threads t).events) :
    Inv v₀ (s.ret t id r) where
  owed := hinv.owed.finish ht rfl
  replays := hinv.replays
  held := held_update (fun _ hid => by cases hid) fun u _ => hinv.held u
  done := by
    intro i q hq
    rcases List.mem_cons.mp hq with heq | hq
    · obtain ⟨rfl, rfl⟩ := Prod.mk.inj heq
      obtain ⟨hcall, hev⟩ := hinv.held t i ht
      exact ⟨c, hcall.trans hk, hev ▸ hdoes⟩
    · exact hinv.done i q hq
  known := hinv.known

/-- A new call has no event yet. -/
theorem inv_call (hinv : Inv v₀ s) {c : Call w} (ht : s.threads t = .idle) :
    Inv v₀ { s.setThread t (c.entry s.calls.length) with calls := s.calls ++ [c] } where
  owed := by
    show Lib.Owed _ _ (Finset.range (s.calls ++ [c]).length) _
    rw [List.length_append, List.length_singleton, Finset.range_add_one]
    refine hinv.owed.begin (by rw [ht]; rfl) ?_ Finset.notMem_range_self
    cases c <;> rfl
  replays := hinv.replays
  held := by
    refine held_update ?_ ?_
    · -- its number is new, and every event has an older one
      intro id hid
      have hnone : eventsOf s.calls.length s.history = [] := by
        refine List.filter_eq_nil_iff.mpr ?_
        intro e he
        have hlt := hinv.known e he
        simp only [decide_eq_true_eq]
        omega
      cases c <;>
      · obtain rfl : s.calls.length = id := Option.some.inj hid
        exact ⟨List.getElem?_concat_length, hnone⟩
    · intro u _ id hu
      obtain ⟨hcall, hev⟩ := hinv.held u id hu
      have hlt : id < s.calls.length := Finset.mem_range.mp (hinv.owed.mem u id hu)
      exact ⟨(List.getElem?_append_left hlt).trans hcall, hev⟩
  done := by
    intro id r hr
    obtain ⟨d, hcall, hdoes⟩ := hinv.done id r hr
    have hlt : id < s.calls.length := (List.getElem?_eq_some_iff.mp hcall).1
    exact ⟨d, (List.getElem?_append_left hlt).trans hcall, hdoes⟩
  known := by
    intro e he
    have hlt := hinv.known e he
    show e.id < (s.calls ++ [c]).length
    rw [List.length_append]
    exact Nat.lt_add_right _ hlt

/-- The next step of a hart, by where it is: a read, a swap that succeeds or is retried, or a
return. -/
theorem inv_next (hinv : Inv v₀ s) {s' : State T w} (hnext : s.next t = some s') : Inv v₀ s' := by
  unfold State.next at hnext
  cases ht : s.threads t with rw [ht] at hnext
  | idle => cases hnext
  | readWord id f =>
    obtain rfl := Option.some.inj hnext
    apply inv_move hinv <;> rw [ht] <;> rfl
  | swapWord id f lhs =>
    simp only at hnext
    split at hnext
    next heq =>
      -- the word is still what was read, so the link begins where the history ends
      obtain rfl := Option.some.inj hnext
      refine inv_swap hinv (e := .link id s.word (f lhs)) ?_ ?_ ?_ ?_ rfl <;> rw [ht]
      · rfl
      · rfl
      · rfl
      · rw [heq]
        rfl
    next =>
      -- the swap lost: the call has put nothing in the history
      obtain rfl := Option.some.inj hnext
      apply inv_move hinv <;> rw [ht] <;> rfl
  | amoModel id f lhs =>
    obtain rfl := Option.some.inj hnext
    refine inv_ret hinv (c := .amo_uint f) ?_ ?_ ?_ <;> rw [ht] <;> rfl
  | swapCas id expect replace =>
    simp only at hnext
    split at hnext
    next heq =>
      obtain rfl := Option.some.inj hnext
      refine inv_swap hinv (e := .link id s.word replace) ?_ ?_ ?_ ?_ rfl <;> rw [ht]
      · rfl
      · rfl
      · rfl
      · simp [heq]
    next hne =>
      -- a miss is an event too, one that leaves the word
      obtain rfl := Option.some.inj hnext
      refine inv_swap hinv (e := .miss id s.word) ?_ ?_ ?_ ?_ rfl <;> rw [ht]
      · rfl
      · rfl
      · rfl
      · simp [hne]
  | returnCas id expect replace oldval =>
    obtain rfl := Option.some.inj hnext
    refine inv_ret hinv (c := .cas expect replace) ?_ ?_ ?_ <;> rw [ht]
    · rfl
    · rfl
    · by_cases heq : oldval = expect
      · simp [heq, Does]
      · simp [heq, Does, beq_eq_false_iff_ne.mpr heq]

theorem inv_step (hinv : Inv v₀ s) {a : Act T w} {s' : State T w} (hstep : s.step a = some s') :
    Inv v₀ s' := by
  cases a with
  | call t c =>
    simp only [State.step] at hstep
    split at hstep
    next ht =>
      obtain rfl := Option.some.inj hstep
      exact inv_call hinv ht
    next => cases hstep
  | step t => exact inv_next hinv hstep

theorem inv_run {as : List (Act T w)} (hrun : Lib.run State.step as (State.start v₀) = some s) : Inv v₀ s :=
  Lib.run_invariant (fun _ _ _ _ hinv hstep => inv_step hinv hstep) inv_start hrun

omit [DecidableEq T] in
/-- A hart that has not returned has put nothing in the history, or just what it will return. -/
theorem held_events (hinv : Inv v₀ s) {id : Nat} (ht : (s.threads t).call = some id) :
    eventsOf id s.history = [] ∨
      ∃ c r, s.calls[id]? = some c ∧ Does id c r (eventsOf id s.history) := by
  obtain ⟨hcall, hev⟩ := hinv.held t id ht
  rw [hcall, hev]
  cases hp : s.threads t with rw [hp] at ht
  | idle => cases ht
  -- before the swap there is nothing; behind it there is what it returns
  | readWord => exact Or.inl rfl
  | swapWord => exact Or.inl rfl
  | swapCas => exact Or.inl rfl
  | amoModel i f lhs =>
    obtain rfl : i = id := Option.some.inj ht
    exact Or.inr ⟨_, .lhs lhs, rfl, rfl⟩
  | returnCas i expect replace oldval =>
    obtain rfl : i = id := Option.some.inj ht
    refine Or.inr ⟨_, .cas oldval (oldval == expect), rfl, ?_⟩
    by_cases heq : oldval = expect
    · simp [heq, Does]
    · simp [heq, Does, beq_eq_false_iff_ne.mpr heq]

/-- **No update is lost or applied twice.** However the harts' steps interleave, the history
leads from the first value to the word; every call that has returned has exactly its own
event there, and any other number has none, or the one its call is about to return. -/
theorem updates_once {as : List (Act T w)} (hrun : Lib.run State.step as (State.start v₀) = some s) :
    Replays v₀ s.history s.word ∧ (s.returned.map Prod.fst).Nodup ∧
      (∀ id r, (id, r) ∈ s.returned →
        ∃ c, s.calls[id]? = some c ∧ Does id c r (eventsOf id s.history)) ∧
      ∀ id, id ∉ s.returned.map Prod.fst → eventsOf id s.history = [] ∨
        ∃ c r, s.calls[id]? = some c ∧ Does id c r (eventsOf id s.history) := by
  have hinv := inv_run hrun
  refine ⟨hinv.replays, hinv.owed.nodup, hinv.done, ?_⟩
  intro id hid
  -- a number that is no call's has no event
  by_cases hlt : id < s.calls.length
  · rcases hinv.owed.cover id (Finset.mem_range.mpr hlt) with hdone | hex
    · exact absurd hdone hid
    · obtain ⟨t, ht⟩ := hex
      exact held_events hinv ht
  · left
    refine List.filter_eq_nil_iff.mpr ?_
    intro e he
    have hknown := hinv.known e he
    simp only [decide_eq_true_eq]
    omega

/-- Two harts add 1 and double at once, and a third swaps 3 for 7. The first one's swap
fails and is retried; the word ends as 8. -/
def threeHarts : List (Act (Fin 3) 32) :=
  [.call 0 (.amo_uint (· + 1)), .call 1 (.amo_uint (2 * ·)), .step 0, .step 1, .step 1, .step 0,
    .step 1, .call 2 (.cas 6 7), .step 2, .step 0, .step 0, .step 2, .step 0]

theorem updates_once_threeHarts : ∃ s, Lib.run State.step threeHarts (State.start 3) = some s ∧
    s.word = 8 ∧ Replays 3 s.history 8 ∧
    ∃ c, s.calls[2]? = some c ∧ Does 2 c (.cas 6 true) (eventsOf 2 s.history) := by
  have hend : ∃ s, Lib.run State.step threeHarts (State.start 3) = some s ∧ s.word = 8 ∧
      (2, Result.cas 6 true) ∈ s.returned := by
    refine ⟨_, rfl, rfl, ?_⟩
    exact List.mem_cons_of_mem _ List.mem_cons_self
  obtain ⟨s, hrun, hword, hmem⟩ := hend
  obtain ⟨hreplays, -, hdone, -⟩ := updates_once hrun
  exact ⟨s, hrun, hword, hword ▸ hreplays, hdone 2 _ hmem⟩

/-! ## The compare-and-swap of one hart -/

/-- A hart that makes its three steps with no other in between. -/
theorem run_cas_alone (v expect replace : BitVec w) :
    (Lib.run State.step [.call () (.cas expect replace), .step (), .step ()] (State.start v)).map
        (fun s => (s.word, s.returned)) =
      some (if v = expect then replace else v, [(0, .cas v (v == expect))]) := by
  by_cases h : v = expect <;>
    simp [Lib.run, State.step, State.next, State.start, State.setThread, State.swap, State.ret, Call.entry, h]

section
open Riscv (Mem)

variable {τ : Type} {code : InsnSpace} {pc : Long} {c i2 : Insn}

/-- `hart_t::cas` does to memory, and returns, what a hart alone does to the word. -/
theorem cas_alone (hc : code.at pc = some c) (h2 : code.at (pc + 4) = some i2) (hrs1 : IsGp c.rs1)
    (hrs2 : IsGp c.rs2) (hrs3 : IsGp c.rs3) (hrd : IsGp c.rd) (hload : IsGp i2.rs1) {n : Nat}
    (hn : n ≤ 2 ^ 64) (m : Machine Unit τ) :
    let ptr := m.xpr (c.rs1.setWidth 5)
    ∃ success m', cas pc code n m = .ok (success, m') ∧
      (Lib.run State.step
        [.call () (.cas ((m.xpr (c.rs2.setWidth 5)).setWidth (8 * n))
          ((m.xpr (c.rs3.setWidth 5)).setWidth (8 * n))), .step (), .step ()]
        (State.start (m.mem.load ptr n))).map (fun s => (s.word, s.returned)) =
        some (m'.mem.load ptr n, [(0, .cas (m.mem.load ptr n) success)]) := by
  have hcas := cas_ok hc h2 hrs1 hrs2 hrs3 hrd hload n m
  intro ptr
  rw [run_cas_alone]
  by_cases heq : m.mem.load ptr n = (m.xpr (c.rs2.setWidth 5)).setWidth (8 * n)
  · rw [if_pos heq] at hcas
    refine ⟨_, _, hcas, ?_⟩
    rw [if_pos heq, Mem.load_store _ _ hn, beq_iff_eq.mpr heq]
  · rw [if_neg heq] at hcas
    refine ⟨_, _, hcas, ?_⟩
    rw [if_neg heq, beq_eq_false_iff_ne.mpr heq]

end

end Cavatools.Uspike.Amo
