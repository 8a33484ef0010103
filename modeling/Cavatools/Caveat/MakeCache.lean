import Mathlib

/-!
# `make_cache`: the replacement tables

A script writes the LRU state machine of an `N`-way row as a C array, which
cache.h walks. Its states are the orders of recency, most recent way first;
hitting the way at position `i` moves it to the front. This file is the
script, and what the array it writes is good for.

The script explores the orders from one of them by recursion (`factorial`),
with a dictionary from keys to rows of successors. The recursion has no bound
of its own, while the interpreter that runs it has one, so it takes a depth
here and has no value when that is too small. Then the script numbers the
orders by their sorted keys, the ways joined by `-`, and emits a header and
`N` entries for each: the way at that position, and the number of the next
state times `N`. Both go to narrow fields of a `struct lru_fsm_t`
(`cache_fsm`). Python strings are lists of characters here, and comparing them
is comparing the lists.

`FsmOk` is what a cache needs of its array: there is a state, the numbers fit
their fields, every state is an order of the ways, and entry `i` of state `k`
holds its `i`-th way and `N` times the number of the order with that way in
front. It is decidable, and `cache_fsm_ok` decides it for the four arrays that
caveat compiles in. That the script is right for every `N` is a theorem of its
own, in the next file.
-/

namespace Cavatools.Caveat

/-- A recency order, most recent way first. -/
abbrev State := List Nat

abbrev Key := List Char

/-- `pop(hit)` and `insert(0, …)`. -/
def cacheHit {α : Type} (state : List α) (hit : Nat) : List α :=
  match state[hit]? with
  | some way => way :: state.eraseIdx hit
  | none => state

/-- `str(i)`. -/
def str (i : Nat) : Key := Nat.toDigits 10 i

/-- `'-'.join(state)`. -/
def makeKey (state : State) : Key := ['-'].intercalate (state.map str)

/-- The dictionary `table`: the successors of each key, `None` until filled. -/
abbrev Table := List (Key × List (Option Key))

/-- `key in table`. -/
def Table.has (table : Table) (key : Key) : Bool := table.any fun e => e.1 == key

/-- `table[key]`. -/
def Table.get (table : Table) (key : Key) : Option (List (Option Key)) :=
  (table.find? fun e => e.1 == key).map Prod.snd

/-- `table[key][i] = next`. -/
def Table.fill (table : Table) (key : Key) (i : Nat) (next : Key) : Table :=
  table.map fun e => if e.1 == key then (e.1, e.2.set i (some next)) else e

/-- `factorial(state)`, to a given depth of recursion; `none` if that is too small. -/
def factorial (N : Nat) : Nat → State → Table → Option Table
  | 0, _, _ => none
  | depth + 1, state, table =>
    (List.range N).foldlM (fun table i => do
      let nextState := cacheHit state i
      let nextKey := makeKey nextState
      let table ←
        if table.has nextKey then some table
        else factorial N depth nextState (table ++ [(nextKey, List.replicate N none)])
      return table.fill (makeKey state) i nextKey) table

/-- `[N-1, …, 0]`. -/
def initial (N : Nat) : State := (List.range N).reverse

/-- The table after the call `factorial(initial)`. -/
def exploredTable (N depth : Nat) : Option Table :=
  factorial N depth (initial N) [(makeKey (initial N), List.replicate N none)]

/-- `sorted(table)`. -/
def sortedKeys (table : Table) : List Key := (table.map Prod.fst).insertionSort (· ≤ ·)

/-- `struct lru_fsm_t`. -/
structure lru_fsm_t where
  way : BitVec 16
  next_state : BitVec 16
  deriving DecidableEq, Repr

/-- `int(ww)`. -/
def int (ww : Key) : Nat := ww.foldl (fun n c => 10 * n + (c.toNat - '0'.toNat)) 0

/-- The entries of one state. -/
def emitState (N : Nat) (keys : List Key) (table : Table) (key : Key) : Option (List lru_fsm_t) := do
  let successors ← table.get key
  (key.splitOn '-').zipIdx.mapM fun (ww, i) => do
    let next ← (← successors[i]?)
    let ns ← keys.idxOf? next
    return ⟨BitVec.ofNat 16 (int ww), BitVec.ofNat 16 (ns * N)⟩

/-- The array `cache_fsm_Nway`. -/
def cache_fsm (N depth : Nat) : Option (List lru_fsm_t) := do
  let table ← exploredTable N depth
  let keys := sortedKeys table
  let states ← keys.mapM (emitState N keys table)
  return ⟨BitVec.ofNat 16 N, BitVec.ofNat 16 table.length⟩ :: states.flatten

/-! ## What a table is good for -/

/-- The orders that the states of the array stand for. -/
def cache_states (N depth : Nat) : Option (List State) := do
  let table ← exploredTable N depth
  return (sortedKeys table).map fun key => (key.splitOn '-').map int

/-- The array walks the orders: every state is an order of the ways, and entry `i`
of state `k` holds its `i`-th way and `N` times the number of the order with that
way in front. -/
structure FsmOk (N : Nat) (fsm : List lru_fsm_t) (states : List State) : Prop where
  nonempty : 0 < states.length
  fits : N * states.length < 2 ^ 16
  perm : ∀ s ∈ states, s.Perm (List.range N)
  entry : ∀ k < states.length, ∀ i < N, ∃ k' < states.length,
    states[k']? = (states[k]?).map (cacheHit · i) ∧
    fsm[N * k + i + 1]? = ((states[k]?).bind (·[i]?)).map fun way =>
      ⟨BitVec.ofNat 16 way, BitVec.ofNat 16 (N * k')⟩

instance (N : Nat) (fsm : List lru_fsm_t) (states : List State) : Decidable (FsmOk N fsm states) :=
  decidable_of_iff (0 < states.length ∧ N * states.length < 2 ^ 16 ∧
      (∀ s ∈ states, s.Perm (List.range N)) ∧
      ∀ k < states.length, ∀ i < N, ∃ k' < states.length,
        states[k']? = (states[k]?).map (cacheHit · i) ∧
        fsm[N * k + i + 1]? = ((states[k]?).bind (·[i]?)).map fun way =>
          ⟨BitVec.ofNat 16 way, BitVec.ofNat 16 (N * k')⟩)
    ⟨fun ⟨h1, h2, h3, h4⟩ => ⟨h1, h2, h3, h4⟩, fun ⟨h1, h2, h3, h4⟩ => ⟨h1, h2, h3, h4⟩⟩

/-- The four arrays that caveat compiles in. -/
theorem cache_fsm_ok {N : Nat} (h1 : 1 ≤ N) (h4 : N ≤ 4) :
    ∃ fsm ∈ cache_fsm N (N.factorial + 1), ∃ states ∈ cache_states N (N.factorial + 1),
      FsmOk N fsm states := by
  interval_cases N <;> decide +kernel

end Cavatools.Caveat
