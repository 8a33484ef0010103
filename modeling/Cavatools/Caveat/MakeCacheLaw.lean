import Cavatools.Caveat.MakeCache
import Cavatools.Lib.Recency

/-!
# The table for any number of ways

The script that writes the replacement tables, for every number of ways and
every depth of recursion that is enough. There are three things to prove: the
recursion ends, it finds every order once, and the numbering makes of the
table what the cache walks.

The keys are injective (`makeKey_inj`), since splitting at the dashes gives
the ways back, so the dictionary can be thought of as one on orders.
`Explored` says that it holds orders, each once; there are no more of these
than `N!` (`Explored.length_le`). `Grown` says what the call for one order has
made of the table before position `i`. The keys that were there stay in front
and their rows stay, every new key has its row filled, and the row of the
order itself is filled up to `i`. A call for a new order keeps that
(`Grown.call`), and so does filling the position with a key that is there
(`Grown.fill`).

With these, `factorial_spec` goes by induction on the depth. Each call adds a
key before it recurses, so the depth left and the keys so far stay above the
number of orders, which is what rules out running out of depth. What the whole
exploration leaves is closed under moving a way to the front, and such moves
generate all orders (`Lib.touch_generates`); hence it holds every order with
its row filled (`exploredTable_spec`).

The rest is bookkeeping. The orders are numbered by their sorted keys
(`sortedOrders`), the emitted entries are those of the orders
(`Full.emittedState_eq`), and what C reads is that, narrowed to the fields
(`cache_fsm_eq_narrow`). `make_cache_correct` states all of it.
-/

namespace Cavatools.Caveat

/-! ## Keys -/

theorem int_str (i : Nat) : int (str i) = i := by
  have h := Nat.ofDigitChars_ten_toDigits (n := i)
  rw [Nat.ofDigitChars_eq_foldl] at h
  exact h

theorem dash_not_mem_str (i : Nat) : '-' ∉ str i := by
  intro hmem
  have hdigit := Nat.isDigit_of_mem_toDigits (by decide) (by decide) hmem
  exact absurd hdigit (by decide)

/-- Splitting a key gives the ways back. -/
theorem splitOn_makeKey {s : State} (hs : s ≠ []) : (makeKey s).splitOn '-' = s.map str := by
  refine List.splitOn_intercalate '-' ?_ (by simpa using hs)
  intro l hl
  obtain ⟨i, -, rfl⟩ := List.mem_map.mp hl
  exact dash_not_mem_str i

theorem map_int_str (s : State) : (s.map str).map int = s := by
  rw [List.map_map]
  exact List.map_id'' int_str s

theorem makeKey_inj {s t : State} (hs : s ≠ []) (ht : t ≠ []) (h : makeKey s = makeKey t) : s = t := by
  rw [← map_int_str s, ← map_int_str t, ← splitOn_makeKey hs, ← splitOn_makeKey ht, h]

/-! ## Orders of the ways -/

/-- An order of the ways `0 … N-1`. -/
def IsOrder (N : Nat) (s : State) : Prop := s.Perm (List.range N)

namespace IsOrder

variable {N : Nat} {s t : State}

theorem length (h : IsOrder N s) : s.length = N := by rw [List.Perm.length_eq h, List.length_range]

theorem nodup (h : IsOrder N s) : s.Nodup := (List.Perm.nodup_iff h).mpr List.nodup_range

theorem ne_nil (h : IsOrder N s) (hN : 1 ≤ N) : s ≠ [] := by
  intro hnil
  have := h.length
  rw [hnil] at this
  exact absurd this (by simp; omega)

theorem key_inj (hs : IsOrder N s) (ht : IsOrder N t) (hN : 1 ≤ N) (h : makeKey s = makeKey t) : s = t :=
  makeKey_inj (hs.ne_nil hN) (ht.ne_nil hN) h

/-- Hitting position `i` uses the way that is there. -/
theorem cacheHit_eq_touch (h : IsOrder N s) {i : Nat} (hi : i < s.length) :
    cacheHit s i = Lib.touch s[i] s := by
  have hget : s[i]? = some s[i] := List.getElem?_eq_getElem hi
  rw [Lib.touch_of_first hget, cacheHit, hget]
  intro j hj heq
  have hjl : j < s.length := hj.trans hi
  rw [List.getElem?_eq_getElem hjl] at heq
  exact absurd ((List.Nodup.getElem_inj_iff h.nodup).mp (Option.some.inj heq)) (by omega)

theorem cacheHit (h : IsOrder N s) {i : Nat} (hi : i < N) : IsOrder N (cacheHit s i) := by
  have hil : i < s.length := by rw [h.length]; exact hi
  rw [h.cacheHit_eq_touch hil]
  exact (Lib.touch_perm (List.getElem_mem hil)).trans h

end IsOrder

theorem initial_isOrder (N : Nat) : IsOrder N (initial N) := List.reverse_perm _

/-! ## The dictionary -/

/-- The keys, in the order in which they were added. -/
def Table.keys (table : Table) : List Key := table.map Prod.fst

theorem Table.has_iff {table : Table} {key : Key} : table.has key = true ↔ key ∈ table.keys := by
  unfold Table.has Table.keys
  rw [List.any_eq_true, List.mem_map]
  refine exists_congr fun e => and_congr_right fun _ => ?_
  exact beq_iff_eq

theorem Table.keys_append (table rest : Table) : (table ++ rest).keys = table.keys ++ rest.keys :=
  List.map_append

theorem Table.keys_fill (table : Table) (key : Key) (i : Nat) (next : Key) :
    (table.fill key i next).keys = table.keys := by
  unfold Table.fill Table.keys
  rw [List.map_map]
  refine List.map_congr_left fun e _ => ?_
  rw [Function.comp_apply]
  split <;> rfl

theorem Table.get_append {table rest : Table} {key : Key} (h : key ∈ table.keys) :
    (table ++ rest).get key = table.get key := by
  unfold Table.get
  obtain ⟨e, he, rfl⟩ := List.mem_map.mp h
  have hsome : (table.find? fun e' => e'.1 == e.1).isSome := by
    rw [List.find?_isSome]
    exact ⟨e, he, beq_self_eq_true _⟩
  rw [List.find?_append, Option.or_of_isSome hsome]

theorem Table.get_new {table : Table} {key : Key} {row : List (Option Key)} (h : key ∉ table.keys) :
    (table ++ [(key, row)]).get key = some row := by
  unfold Table.get
  have hnone : (table.find? fun e => e.1 == key) = none := by
    refine List.find?_eq_none.mpr fun e he heq => h ?_
    exact List.mem_map.mpr ⟨e, he, beq_iff_eq.mp heq⟩
  rw [List.find?_append, hnone, Option.none_or, List.find?_cons_of_pos (by simp)]
  rfl

/-- A row after a fill: the row filled, or the row as it was. -/
theorem Table.get_fill (table : Table) (key key' next : Key) (i : Nat) :
    (table.fill key i next).get key' =
      (table.get key').map fun row => if key' = key then row.set i (some next) else row := by
  unfold Table.fill Table.get
  have hkey : (fun e : Key × List (Option Key) => e.1 == key') ∘
      (fun e => if e.1 == key then (e.1, e.2.set i (some next)) else e) = fun e => e.1 == key' := by
    funext e
    rw [Function.comp_apply]
    split <;> rfl
  rw [List.find?_map, hkey, Option.map_map, Option.map_map]
  cases hfind : table.find? fun e => e.1 == key' with
  | none => rfl
  | some e =>
    have hfound := List.find?_some hfind
    obtain rfl : e.1 = key' := beq_iff_eq.mp hfound
    by_cases heq : e.1 = key
    · simp [heq]
    · simp [heq]

theorem Table.get_fill_self {table : Table} {key next : Key} {i : Nat} :
    (table.fill key i next).get key = (table.get key).map (·.set i (some next)) := by
  rw [Table.get_fill]
  simp only [if_true]

theorem Table.get_fill_other {table : Table} {key key' next : Key} {i : Nat} (h : key' ≠ key) :
    (table.fill key i next).get key' = table.get key' := by
  rw [Table.get_fill]
  simp only [if_neg h]
  exact Option.map_id' ..

/-! ## The recursion -/

/-- The filled row of an order. -/
def successors (N : Nat) (s : State) : List (Option Key) :=
  (List.range N).map fun i => some (makeKey (cacheHit s i))

/-- The table holds orders, each once. -/
structure Explored (N : Nat) (table : Table) : Prop where
  nodup : table.keys.Nodup
  order : ∀ key ∈ table.keys, ∃ s, IsOrder N s ∧ key = makeKey s

/-- The row of an order is filled, with keys of the table. -/
structure Done (N : Nat) (table : Table) (s : State) : Prop where
  row : table.get (makeKey s) = some (successors N s)
  next : ∀ i < N, makeKey (cacheHit s i) ∈ table.keys

/-- A table that holds every order, with its row filled. -/
structure Full (N : Nat) (table : Table) : Prop extends Explored N table where
  done : ∀ s, IsOrder N s → Done N table s
  all : ∀ s, IsOrder N s → makeKey s ∈ table.keys

/-- What the call for `s` has made of the table before position `i`: the keys that were there
stay in front and their rows stay, except that of `s`; the keys that came are done. -/
structure Grown (N : Nat) (s : State) (table table' : Table) (i : Nat) : Prop where
  explored : Explored N table'
  keys : table.keys <+: table'.keys
  old : ∀ key ∈ table.keys, key ≠ makeKey s → table'.get key = table.get key
  new : ∀ u, IsOrder N u → makeKey u ∈ table'.keys → makeKey u ∉ table.keys → Done N table' u
  row : ∃ row, table'.get (makeKey s) = some row ∧ row.length = N ∧
    ∀ j < i, row[j]? = some (some (makeKey (cacheHit s j)))
  next : ∀ j < i, makeKey (cacheHit s j) ∈ table'.keys

section
variable {N : Nat}

/-- A new order is added with its row. -/
theorem Explored.add {table : Table} (h : Explored N table) {u : State} (hu : IsOrder N u)
    (hnew : makeKey u ∉ table.keys) (row : List (Option Key)) :
    Explored N (table ++ [(makeKey u, row)]) := by
  constructor
  · rw [Table.keys_append]
    refine List.nodup_append.mpr ⟨h.nodup, List.nodup_singleton _, ?_⟩
    intro key hkey key' hkey' heq
    have hu' : key = makeKey u := heq.trans (List.mem_singleton.mp hkey')
    exact hnew (hu' ▸ hkey)
  · intro key hkey
    rw [Table.keys_append] at hkey
    rcases List.mem_append.mp hkey with hkey | hkey
    · exact h.order key hkey
    · exact ⟨u, hu, List.mem_singleton.mp hkey⟩

theorem Explored.fill {table : Table} (h : Explored N table) (key next : Key) (i : Nat) :
    Explored N (table.fill key i next) := by
  constructor
  · rw [Table.keys_fill]
    exact h.nodup
  · rw [Table.keys_fill]
    exact h.order

/-- There are no more keys than orders. -/
theorem Explored.length_le {table : Table} (h : Explored N table) : table.length ≤ N.factorial := by
  have hsub : table.keys ⊆ (List.range N).permutations.map makeKey := by
    intro key hkey
    obtain ⟨s, hs, rfl⟩ := h.order key hkey
    exact List.mem_map_of_mem (List.mem_permutations.mpr hs)
  have hle := (List.subperm_of_subset h.nodup hsub).length_le
  rw [List.length_map, List.length_permutations, List.length_range] at hle
  exact (List.length_map Prod.fst).symm.le.trans hle

/-- A done order stays done when other rows are filled. -/
theorem Done.fill {table : Table} {u : State} (h : Done N table u) {key : Key}
    (hkey : makeKey u ≠ key) (i : Nat) (next : Key) : Done N (table.fill key i next) u := by
  constructor
  · rw [Table.get_fill_other hkey]
    exact h.row
  · rw [Table.keys_fill]
    exact h.next

/-- Filling position `i` of the row, with a key of the table. -/
theorem Grown.fill {s : State} {table table' : Table} {i : Nat} (h : Grown N s table table' i)
    (hkey : makeKey s ∈ table.keys) (hi : i < N) (hnext : makeKey (cacheHit s i) ∈ table'.keys) :
    Grown N s table (table'.fill (makeKey s) i (makeKey (cacheHit s i))) (i + 1) := by
  obtain ⟨row, hrow, hlen, hfilled⟩ := h.row
  refine ⟨h.explored.fill _ _ _, ?_, ?_, ?_, ⟨row.set i (some (makeKey (cacheHit s i))), ?_, ?_, ?_⟩, ?_⟩
  · rw [Table.keys_fill]
    exact h.keys
  · intro key hmem hne
    rw [Table.get_fill_other hne]
    exact h.old key hmem hne
  · intro u hu hmem hnot
    rw [Table.keys_fill] at hmem
    exact (h.new u hu hmem hnot).fill (fun heq => hnot (heq ▸ hkey)) _ _
  · rw [Table.get_fill_self, hrow]
    rfl
  · rw [List.length_set]
    exact hlen
  · intro j hj
    rcases Nat.lt_succ_iff_lt_or_eq.mp hj with hlt | rfl
    · rw [List.getElem?_set_ne (by omega)]
      exact hfilled j hlt
    · exact List.getElem?_set_self (hlen ▸ hi)
  · intro j hj
    rw [Table.keys_fill]
    rcases Nat.lt_succ_iff_lt_or_eq.mp hj with hlt | rfl
    · exact h.next j hlt
    · exact hnext

/-- After the last position the row is the filled row. -/
theorem Grown.done {s : State} {table table' : Table} (h : Grown N s table table' N) :
    Done N table' s := by
  refine ⟨?_, h.next⟩
  obtain ⟨row, hrow, hlen, hfilled⟩ := h.row
  rw [hrow, Option.some_inj]
  refine List.ext_getElem? fun j => ?_
  unfold successors
  rw [List.getElem?_map]
  rcases Nat.lt_or_ge j N with hj | hj
  · rw [hfilled j hj, List.getElem?_range hj]
    rfl
  · rw [List.getElem?_eq_none (by omega), List.getElem?_eq_none (by simpa using hj)]
    rfl

/-- The call for an order `u` that is new to the table. -/
theorem Grown.call {s u : State} {table t t' : Table} {i : Nat} (h : Grown N s table t i) (hN : 1 ≤ N)
    (hkey : makeKey s ∈ table.keys) (hu : IsOrder N u) (hnew : makeKey u ∉ t.keys)
    (hcall : Grown N u (t ++ [(makeKey u, List.replicate N none)]) t' N) : Grown N s table t' i := by
  have hprefix : t.keys <+: t'.keys := by
    have hkeys := hcall.keys
    rw [Table.keys_append] at hkeys
    exact (List.prefix_append _ _).trans hkeys
  have hget (key : Key) (hmem : key ∈ t.keys) : t'.get key = t.get key := by
    rw [hcall.old key _ fun heq => hnew (heq ▸ hmem), Table.get_append hmem]
    rw [Table.keys_append]
    exact List.mem_append_left _ hmem
  refine ⟨hcall.explored, h.keys.trans hprefix, ?_, ?_, ?_, fun j hj => hprefix.subset (h.next j hj)⟩
  · intro key hmem hne
    rw [hget key (h.keys.subset hmem)]
    exact h.old key hmem hne
  · intro v hv hmem hnot
    by_cases hvt : makeKey v ∈ t.keys
    -- there before the call, the call itself, or found in it
    · have hdone := h.new v hv hvt hnot
      exact ⟨(hget _ hvt).trans hdone.row, fun j hj => hprefix.subset (hdone.next j hj)⟩
    · by_cases hvu : makeKey v = makeKey u
      · obtain rfl := hv.key_inj hu hN hvu
        exact hcall.done
      · refine hcall.new v hv hmem fun hin => ?_
        rw [Table.keys_append] at hin
        exact (List.mem_append.mp hin).elim hvt fun hlast => hvu (List.mem_singleton.mp hlast)
  · obtain ⟨row, hrow, hlen, hfilled⟩ := h.row
    exact ⟨row, (hget _ (h.keys.subset hkey)).trans hrow, hlen, hfilled⟩

/-- A loop over `range n` keeps what each of its turns keeps. -/
theorem foldlM_range {σ : Type} {f : σ → Nat → Option σ} {P : Nat → σ → Prop} {n : Nat} {t : σ}
    (h₀ : P 0 t) (hstep : ∀ i < n, ∀ t, P i t → ∃ t', f t i = some t' ∧ P (i + 1) t') :
    ∃ t', (List.range n).foldlM f t = some t' ∧ P n t' := by
  induction n with
  | zero => exact ⟨t, rfl, h₀⟩
  | succ n ih =>
    obtain ⟨t₁, hfold, hP⟩ := ih fun i hi => hstep i (hi.trans (Nat.lt_succ_self n))
    obtain ⟨t₂, hlast, hP'⟩ := hstep n (Nat.lt_succ_self n) t₁ hP
    refine ⟨t₂, ?_, hP'⟩
    rw [List.range_succ, List.foldlM_append, hfold]
    exact (bind_pure (f t₁ n)).trans hlast

/-- **The recursion ends**, if its depth and the keys so far are more than the orders. -/
theorem factorial_spec (hN : 1 ≤ N) (depth : Nat) {s : State} (hs : IsOrder N s) {table : Table}
    (he : Explored N table) (hkey : makeKey s ∈ table.keys)
    (hrow : ∃ row, table.get (makeKey s) = some row ∧ row.length = N)
    (hdepth : N.factorial + 1 ≤ depth + table.length) :
    ∃ table', factorial N depth s table = some table' ∧ Grown N s table table' N := by
  -- every call adds a key before it is made
  induction depth generalizing s table with
  | zero =>
    have := he.length_le
    omega
  | succ depth ih =>
    rw [factorial]
    refine foldlM_range (P := fun i t => Grown N s table t i) ?_ ?_
    · obtain ⟨row, hget, hlen⟩ := hrow
      exact ⟨he, List.prefix_refl _, fun _ _ _ => rfl, fun _ _ hin hnot => absurd hin hnot,
        ⟨row, hget, hlen, fun j hj => absurd hj (Nat.not_lt_zero j)⟩,
        fun j hj => absurd hj (Nat.not_lt_zero j)⟩
    · intro i hi t ht
      have hu : IsOrder N (cacheHit s i) := hs.cacheHit hi
      by_cases hhas : makeKey (cacheHit s i) ∈ t.keys
      · refine ⟨_, ?_, ht.fill hkey hi hhas⟩
        dsimp only
        rw [if_pos (Table.has_iff.mpr hhas)]
        rfl
      · have hlen : table.length ≤ t.length := by
          have := ht.keys.length_le
          unfold Table.keys at this
          rwa [List.length_map, List.length_map] at this
        have hin : makeKey (cacheHit s i) ∈
            (t ++ [(makeKey (cacheHit s i), List.replicate N none)]).keys := by
          rw [Table.keys_append]
          exact List.mem_append_right _ (List.mem_singleton_self _)
        obtain ⟨t', hcalled, hcall⟩ := ih hu (ht.explored.add hu hhas _) hin
          ⟨_, Table.get_new hhas, List.length_replicate⟩ (by rw [List.length_append]; simp; omega)
        refine ⟨_, ?_, (ht.call hN hkey hu hhas hcall).fill hkey hi (hcall.keys.subset hin)⟩
        dsimp only
        rw [if_neg fun h => hhas (Table.has_iff.mp h), hcalled]
        rfl

theorem foldlM_mono {σ α : Type} {f g : σ → α → Option σ}
    (hfg : ∀ t a t', f t a = some t' → g t a = some t') {as : List α} {t t' : σ}
    (h : as.foldlM f t = some t') : as.foldlM g t = some t' := by
  induction as generalizing t with
  | nil => exact h
  | cons a as ih =>
    rw [List.foldlM_cons, Option.bind_eq_bind, Option.bind_eq_some_iff] at h ⊢
    obtain ⟨t₁, hhead, hrest⟩ := h
    exact ⟨t₁, hfg t a t₁ hhead, ih hrest⟩

/-- A recursion that has ended does not need more depth. -/
theorem factorial_succ {depth : Nat} {s : State} {table table' : Table}
    (h : factorial N depth s table = some table') : factorial N (depth + 1) s table = some table' := by
  induction depth generalizing s table table' with
  | zero => cases h
  | succ depth ih =>
    rw [factorial] at h ⊢
    refine foldlM_mono (fun t i t' hturn => ?_) h
    dsimp only at hturn ⊢
    by_cases hhas : t.has (makeKey (cacheHit s i)) = true
    · rw [if_pos hhas] at hturn ⊢
      exact hturn
    · rw [if_neg hhas, Option.bind_eq_bind, Option.bind_eq_some_iff] at hturn ⊢
      obtain ⟨t₁, hcall, hfill⟩ := hturn
      exact ⟨t₁, ih hcall, hfill⟩

theorem factorial_mono {depth depth' : Nat} (hle : depth ≤ depth') {s : State} {table table' : Table}
    (h : factorial N depth s table = some table') : factorial N depth' s table = some table' := by
  induction hle with
  | refl => exact h
  | step _ ih => exact factorial_succ ih

/-- **The explored table**: every order once, with its row filled. -/
theorem exploredTable_spec (hN : 1 ≤ N) {depth : Nat} (hdepth : N.factorial ≤ depth) :
    ∃ table, exploredTable N depth = some table ∧ Full N table := by
  have hinit : IsOrder N (initial N) := initial_isOrder N
  have hstart : Explored N [(makeKey (initial N), List.replicate N none)] :=
    ⟨List.nodup_singleton _, fun key hkey => ⟨_, hinit, List.mem_singleton.mp hkey⟩⟩
  have hin : makeKey (initial N) ∈ Table.keys [(makeKey (initial N), List.replicate N none)] :=
    List.mem_singleton_self _
  have hget : Table.get ([] ++ [(makeKey (initial N), List.replicate N none)]) (makeKey (initial N)) =
      some (List.replicate N none) := Table.get_new List.not_mem_nil
  obtain ⟨table, htable, hgrown⟩ := factorial_spec hN depth hinit hstart hin
    ⟨_, hget, List.length_replicate⟩ (by simpa using hdepth)
  have hdone (s : State) (hs : IsOrder N s) (hkey : makeKey s ∈ table.keys) : Done N table s := by
    by_cases hmem : makeKey s ∈ Table.keys [(makeKey (initial N), List.replicate N none)]
    · obtain rfl := hs.key_inj hinit hN (List.mem_singleton.mp hmem)
      exact hgrown.done
    · exact hgrown.new s hs hkey hmem
  -- the orders of the table are closed under use, so they are all the orders
  have hall (s : State) (hs : IsOrder N s) : makeKey s ∈ table.keys := by
    refine Lib.touch_generates (P := fun u => makeKey u ∈ table.keys) hinit.nodup (hinit.trans hs.symm)
      (hgrown.keys.subset hin) ?_
    intro u a hperm ha hkey
    have hu : IsOrder N u := hperm.trans hinit
    obtain ⟨i, hi, rfl⟩ := List.getElem_of_mem ha
    rw [← hu.cacheHit_eq_touch hi]
    exact (hdone u hu hkey).next i (hu.length ▸ hi)
  exact ⟨table, htable, hgrown.explored, fun s hs => hdone s hs (hall s hs), hall⟩

end

/-! ## The array before it is narrowed -/

/-- The entries of one state as the script writes them: the way, and the next state as an
integer of any size. -/
def emittedState (N : Nat) (keys : List Key) (table : Table) (key : Key) :
    Option (List (Nat × Nat)) := do
  let successors ← table.get key
  (key.splitOn '-').zipIdx.mapM fun (ww, i) => do
    let next ← (← successors[i]?)
    let ns ← keys.idxOf? next
    return (int ww, ns * N)

/-- The array as it is written: the header, and the entries of the sorted keys. -/
def emitted (N depth : Nat) : Option (List (Nat × Nat)) := do
  let table ← exploredTable N depth
  let keys := sortedKeys table
  let states ← keys.mapM (emittedState N keys table)
  return (N, table.length) :: states.flatten

/-- Two integers as the fields of a `struct lru_fsm_t`. -/
def narrow (e : Nat × Nat) : lru_fsm_t := ⟨BitVec.ofNat 16 e.1, BitVec.ofNat 16 e.2⟩

theorem mapM_map_result {α β γ : Type} {f : α → Option β} {g : α → Option γ} {h : β → γ}
    (hfg : ∀ a, g a = (f a).map h) (l : List α) : l.mapM g = (l.mapM f).map (List.map h) := by
  induction l with
  | nil => rfl
  | cons a l ih =>
    rw [List.mapM_cons, List.mapM_cons, hfg, ih]
    cases f a with
    | none => rfl
    | some b =>
      cases l.mapM f <;> rfl

/-- What C reads is what the script writes, narrowed. -/
theorem cache_fsm_eq_narrow (N depth : Nat) :
    cache_fsm N depth = (emitted N depth).map (List.map narrow) := by
  unfold cache_fsm emitted
  cases exploredTable N depth with
  | none => rfl
  | some table =>
    have hstate (key : Key) : emitState N (sortedKeys table) table key =
        (emittedState N (sortedKeys table) table key).map (List.map narrow) := by
      unfold emitState emittedState
      cases table.get key with
      | none => rfl
      | some row =>
        refine mapM_map_result (fun e => ?_) _
        dsimp only
        rcases row[e.2]? with _ | _ | next
        · rfl
        · rfl
        · cases hidx : (sortedKeys table).idxOf? next <;> simp [hidx, narrow]
    simp only [Option.bind_eq_bind, Option.bind_some, mapM_map_result hstate]
    cases (sortedKeys table).mapM (emittedState N (sortedKeys table) table) with
    | none => rfl
    | some states =>
      simp [narrow, List.map_flatten]

/-! ## The numbering -/

theorem mapM_eq_map {α β : Type} {f : α → Option β} {g : α → β} {l : List α}
    (h : ∀ a ∈ l, f a = some (g a)) : l.mapM f = some (l.map g) := by
  induction l with
  | nil => rfl
  | cons a l ih =>
    obtain ⟨ha, hl⟩ := List.forall_mem_cons.mp h
    rw [List.mapM_cons, ha, ih hl]
    rfl

/-- Rows of one length, laid end to end. -/
theorem getElem?_flatten {α : Type} {n : Nat} {rows : List (List α)} (h : ∀ row ∈ rows, row.length = n)
    (k : Nat) {i : Nat} (hi : i < n) : rows.flatten[n * k + i]? = (rows[k]?).bind (·[i]?) := by
  induction rows generalizing k with
  | nil => rfl
  | cons row rows ih =>
    obtain ⟨hrow, hrows⟩ := List.forall_mem_cons.mp h
    rw [List.flatten_cons]
    cases k with
    | zero =>
      rw [Nat.mul_zero, Nat.zero_add, List.getElem?_append_left (by omega)]
      rfl
    | succ k =>
      rw [List.getElem?_append_right (by rw [hrow, Nat.mul_succ]; omega),
        show n * (k + 1) + i - row.length = n * k + i by rw [hrow, Nat.mul_succ]; omega]
      exact ih hrows k

theorem idxOf?_of_mem {key : Key} {keys : List Key} (h : key ∈ keys) :
    keys.idxOf? key = some (keys.idxOf key) := by
  obtain ⟨k, hk⟩ := Option.isSome_iff_exists.mp (List.isSome_idxOf?.mpr h)
  rw [List.idxOf_eq_getD_idxOf?, hk]
  rfl

theorem getElem?_idxOf_of_mem {key : Key} {keys : List Key} (h : key ∈ keys) :
    keys[keys.idxOf key]? = some key :=
  List.getElem?_eq_some_iff.mpr ⟨List.idxOf_lt_length_iff.mpr h, List.getElem_idxOf _⟩

/-- The entries of an order, by the number of each of its successors. -/
def entriesOf (N : Nat) (keys : List Key) (s : State) : List (Nat × Nat) :=
  s.zipIdx.map fun (way, i) => (way, N * keys.idxOf (makeKey (cacheHit s i)))

theorem length_entriesOf {N : Nat} {keys : List Key} {s : State} (hs : IsOrder N s) :
    (entriesOf N keys s).length = N := by
  unfold entriesOf
  rw [List.length_map, List.length_zipIdx, hs.length]

section
variable {N : Nat} {table : Table}

theorem Full.mem_keys (h : Full N table) {key : Key} :
    key ∈ table.keys ↔ ∃ s, IsOrder N s ∧ key = makeKey s := by
  constructor
  · exact h.order key
  · intro hall
    obtain ⟨s, hs, rfl⟩ := hall
    exact h.all s hs

theorem Full.mem_sortedKeys (h : Full N table) {s : State} (hs : IsOrder N s) :
    makeKey s ∈ sortedKeys table :=
  (List.mem_insertionSort _).mpr (h.all s hs)

/-- With a full table nothing is missing when the entries of an order are written. -/
theorem Full.emittedState_eq (h : Full N table) (hN : 1 ≤ N) {s : State} (hs : IsOrder N s) :
    emittedState N (sortedKeys table) table (makeKey s) = some (entriesOf N (sortedKeys table) s) := by
  have hsplit : (makeKey s).splitOn '-' = s.map str := splitOn_makeKey (hs.ne_nil hN)
  unfold emittedState
  rw [(h.done s hs).row, hsplit]
  refine (mapM_eq_map (g := fun e : Key × Nat =>
    (int e.1, N * (sortedKeys table).idxOf (makeKey (cacheHit s e.2)))) ?_).trans ?_
  · intro e hmem
    have hi : e.2 < N := by
      have hlt := (List.mem_zipIdx hmem).2.1
      rw [List.length_map, hs.length] at hlt
      omega
    have hnext := idxOf?_of_mem (h.mem_sortedKeys (hs.cacheHit hi))
    unfold successors
    dsimp only
    rw [List.getElem?_map, List.getElem?_range hi]
    simp [hnext, Nat.mul_comm]
  · unfold entriesOf
    rw [List.zipIdx_map, List.map_map]
    refine congrArg some (List.map_congr_left fun e _ => ?_)
    simp [int_str]

/-- The orders, in the order of their keys. -/
def sortedOrders (table : Table) : List State :=
  (sortedKeys table).map fun key => (key.splitOn '-').map int

theorem Full.sortedKeys_eq (h : Full N table) (hN : 1 ≤ N) :
    (sortedOrders table).map makeKey = sortedKeys table := by
  unfold sortedOrders
  rw [List.map_map]
  refine (List.map_congr_left fun key hkey => ?_).trans (List.map_id _)
  obtain ⟨s, hs, rfl⟩ := h.order key ((List.mem_insertionSort _).mp hkey)
  rw [Function.comp_apply, splitOn_makeKey (hs.ne_nil hN), map_int_str]
  rfl

/-- The sorted keys are those of all orders. -/
theorem Full.mem_sortedOrders (h : Full N table) (hN : 1 ≤ N) {s : State} :
    s ∈ sortedOrders table ↔ IsOrder N s := by
  unfold sortedOrders
  rw [List.mem_map]
  constructor
  · intro hall
    obtain ⟨key, hkey, rfl⟩ := hall
    obtain ⟨u, hu, rfl⟩ := h.order key ((List.mem_insertionSort _).mp hkey)
    rw [splitOn_makeKey (hu.ne_nil hN), map_int_str]
    exact hu
  · intro hs
    refine ⟨makeKey s, h.mem_sortedKeys hs, ?_⟩
    rw [splitOn_makeKey (hs.ne_nil hN), map_int_str]

theorem Full.sorted (h : Full N table) : (sortedKeys table).Pairwise (· < ·) := by
  have hle := List.pairwise_insertionSort (· ≤ ·) (table.map Prod.fst)
  have hnodup : (sortedKeys table).Nodup := (List.perm_insertionSort _ _).nodup_iff.mpr h.nodup
  exact (hle.and hnodup).imp fun h => lt_of_le_of_ne h.1 h.2

/-- One key for each order. -/
theorem Full.length (h : Full N table) (hN : 1 ≤ N) : table.length = N.factorial := by
  refine Nat.le_antisymm h.length_le ?_
  have hnodup : ((List.range N).permutations.map makeKey).Nodup := by
    refine List.Nodup.map_on ?_ (List.nodup_permutations _ List.nodup_range)
    intro s hs t ht heq
    exact IsOrder.key_inj (List.mem_permutations.mp hs) (List.mem_permutations.mp ht) hN heq
  have hsub : (List.range N).permutations.map makeKey ⊆ table.keys := by
    intro key hkey
    obtain ⟨s, hs, rfl⟩ := List.mem_map.mp hkey
    exact h.all s (List.mem_permutations.mp hs)
  have hle := (List.subperm_of_subset hnodup hsub).length_le
  rw [List.length_map, List.length_permutations, List.length_range] at hle
  exact hle.trans (List.length_map Prod.fst).le

theorem Full.length_sortedKeys (h : Full N table) (hN : 1 ≤ N) :
    (sortedKeys table).length = N.factorial := by
  unfold sortedKeys
  rw [List.length_insertionSort, List.length_map, h.length hN]

/-- No successor is left unfilled. -/
theorem Full.filled (h : Full N table) {e : Key × List (Option Key)} (hmem : e ∈ table) :
    ∃ s, IsOrder N s ∧ e = (makeKey s, successors N s) := by
  obtain ⟨s, hs, hkey⟩ := h.order e.1 (List.mem_map_of_mem hmem)
  have hrow := (h.done s hs).row
  unfold Table.get at hrow
  obtain ⟨e', hfind, hrow⟩ := Option.map_eq_some_iff.mp hrow
  have hkey' : e'.1 = makeKey s := by
    have hfound := List.find?_some hfind
    exact beq_iff_eq.mp hfound
  have heq : e = e' := List.inj_on_of_nodup_map h.nodup hmem (List.mem_of_find?_eq_some hfind)
    (hkey.trans hkey'.symm)
  exact ⟨s, hs, Prod.ext hkey (heq ▸ hrow)⟩

end

/-- **`make_cache` for any number of ways.** The recursion ends, with one entry for each order
of the ways and every successor filled. In the array that it writes, after the header, entry
`i` of the `k`-th order in the order of the keys is its way at position `i`, and `N` times the
number of the order with that way moved to the front; C narrows these to `unsigned short`. -/
theorem make_cache_correct {N : Nat} (hN : 1 ≤ N) : ∃ (table : Table) (entries : List (Nat × Nat)),
    (∀ depth, N.factorial ≤ depth → exploredTable N depth = some table ∧
      emitted N depth = some entries ∧ cache_fsm N depth = some (entries.map narrow)) ∧
    (table.length = N.factorial ∧ table.keys.Nodup ∧
      (∀ key, key ∈ table.keys ↔ ∃ s, IsOrder N s ∧ key = makeKey s) ∧
      ∀ e ∈ table, e.2.length = N ∧ ∀ next ∈ e.2, next ≠ none) ∧
    ((sortedOrders table).length = N.factorial ∧ (∀ s, s ∈ sortedOrders table ↔ IsOrder N s) ∧
      ((sortedOrders table).map makeKey).Pairwise (· < ·)) ∧
    entries.length = N * N.factorial + 1 ∧ entries[0]? = some (N, N.factorial) ∧
    ∀ k s, (sortedOrders table)[k]? = some s → ∀ i < N, ∃ way k', s[i]? = some way ∧
      (sortedOrders table)[k']? = some (cacheHit s i) ∧ entries[N * k + i + 1]? = some (way, N * k') := by
  obtain ⟨table, htable, hfull⟩ := exploredTable_spec hN (le_refl N.factorial)
  have hkeys := hfull.sortedKeys_eq hN
  have hrows : (sortedKeys table).mapM (emittedState N (sortedKeys table) table) =
      some ((sortedOrders table).map (entriesOf N (sortedKeys table))) := by
    rw [← hkeys, List.mapM_map]
    refine mapM_eq_map fun s hs => ?_
    rw [Function.comp_apply, hkeys]
    exact hfull.emittedState_eq hN ((hfull.mem_sortedOrders hN).mp hs)
  have hlen : ∀ row ∈ (sortedOrders table).map (entriesOf N (sortedKeys table)), row.length = N := by
    intro row hrow
    obtain ⟨s, hs, rfl⟩ := List.mem_map.mp hrow
    exact length_entriesOf ((hfull.mem_sortedOrders hN).mp hs)
  have hcount : (sortedOrders table).length = N.factorial := by
    rw [← hfull.length_sortedKeys hN, ← hkeys, List.length_map]
  refine ⟨table, (N, table.length) ::
    ((sortedOrders table).map (entriesOf N (sortedKeys table))).flatten, ?_,
    ⟨hfull.length hN, hfull.nodup, fun _ => hfull.mem_keys, ?_⟩,
    ⟨hcount, fun _ => hfull.mem_sortedOrders hN, ?_⟩, ?_, ?_, ?_⟩
  · intro depth hdepth
    have htable' : exploredTable N depth = some table := factorial_mono hdepth htable
    have hemitted : emitted N depth = some ((N, table.length) ::
        ((sortedOrders table).map (entriesOf N (sortedKeys table))).flatten) := by
      unfold emitted
      simp only [htable', Option.bind_eq_bind, Option.bind_some, hrows]
      rfl
    refine ⟨htable', hemitted, ?_⟩
    rw [cache_fsm_eq_narrow, hemitted]
    rfl
  · intro e he
    obtain ⟨s, -, rfl⟩ := hfull.filled he
    refine ⟨by simp [successors], fun next hnext => ?_⟩
    obtain ⟨i, -, rfl⟩ := List.mem_map.mp hnext
    exact Option.some_ne_none _
  · rw [hkeys]
    exact hfull.sorted
  · have hlengths : (((sortedOrders table).map (entriesOf N (sortedKeys table))).map List.length) =
        List.replicate N.factorial N := by
      refine List.eq_replicate_iff.mpr ⟨?_, fun n hn => ?_⟩
      · rw [List.length_map, List.length_map, hcount]
      · obtain ⟨row, hrow, rfl⟩ := List.mem_map.mp hn
        exact hlen row hrow
    rw [List.length_cons, List.length_flatten, hlengths, List.sum_replicate, smul_eq_mul, Nat.mul_comm]
  · rw [hfull.length hN]
    rfl
  · intro k s hk i hi
    have hs : IsOrder N s := (hfull.mem_sortedOrders hN).mp (List.mem_of_getElem? hk)
    have hil : i < s.length := by rw [hs.length]; exact hi
    have hnext := getElem?_idxOf_of_mem (hfull.mem_sortedKeys (hs.cacheHit hi))
    refine ⟨s[i], (sortedKeys table).idxOf (makeKey (cacheHit s i)), List.getElem?_eq_getElem hil, ?_, ?_⟩
    · unfold sortedOrders
      rw [List.getElem?_map, hnext, Option.map_some, splitOn_makeKey ((hs.cacheHit hi).ne_nil hN),
        map_int_str]
    · rw [List.getElem?_cons_succ, getElem?_flatten hlen k hi, List.getElem?_map, hk]
      unfold entriesOf
      simp [List.getElem?_zipIdx, List.getElem?_eq_getElem hil]

/-- Two ways: two orders, and an array of five entries. -/
theorem make_cache_correct_twoWays : ∃ (table : Table) (entries : List (Nat × Nat)),
    exploredTable 2 2 = some table ∧ cache_fsm 2 2 = some (entries.map narrow) ∧
    table.length = 2 ∧ entries.length = 5 := by
  obtain ⟨table, entries, hrun, ⟨hlength, -⟩, -, hentries, -⟩ := @make_cache_correct 2 (by decide)
  obtain ⟨htable, -, hfsm⟩ := hrun 2 (by decide)
  exact ⟨table, entries, htable, hfsm, hlength, hentries⟩

end Cavatools.Caveat
