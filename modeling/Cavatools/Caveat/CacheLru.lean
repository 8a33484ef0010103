import Cavatools.Caveat.Cache
import Cavatools.Lib.Recency

/-!
# The cache is true LRU

The cache keeps the order of the ways of a row as a number into a generated
table. This file shows that it is least-recently-used replacement, by
simulation with the recency lists of `Lib.Recency`.

`Tracks` is the invariant. The state of every row is `ways` times the number
of an order, the table has the entries of all orders, and the tags are those
of the geometry. Reading the tags of a row in its order gives the recency list
of the row (`recency`).

- `walk_spec`: the walk of a lookup goes through that list and stops at the
  first way that holds the line, or at the last.
- `advance_spec`: following the entry found moves its way to the front of the
  order, because the table was generated that way.
- `access_spec`: so one access is one use of its line in the list of its row
  and leaves the other rows alone, at a hit (`accessed_hit`) as at a miss
  (`accessed_miss`); the only other outcome is the store through a null
  pointer.

By induction over the lookups of a run, the hits are those of the recency
lists, and the lists afterwards are the ones that the same uses leave
(`lookups_spec`, `lookups_are_lru`).

An empty way is not told from a way that holds line 0, so the lists start out
as rows of zeros. Line numbers fit the 63 bits of a tag if a line has two
bytes or more (`signExtend_line`), which is why that is assumed wherever tags
are compared.
-/

namespace Cavatools.Caveat

open Uspike (Long)
open Lib (touch touch_of_first touch_of_not_mem)

/-- The invariant of a cache whose array walks `states`. -/
structure Tracks (states : List State) (c : cache_t) : Prop where
  fsm : FsmOk c.ways c.fsm states
  ways : 0 < c.ways
  line : 1 ≤ c.lg_line
  rows : c.lg_rows ≤ 30
  state : ∀ r < c.rows, ∃ k < states.length, c.states r = BitVec.ofNat 16 (c.ways * k)

/-- The order of the ways of a row, most recent first. -/
def order (states : List State) (c : cache_t) (r : Nat) : State :=
  states.getD ((c.states r).toNat / c.ways) []

/-- The lines of a row, most recent first. -/
def recency (states : List State) (c : cache_t) (r : Nat) : List Long :=
  (order states c r).map fun w => (c.tags w r).addr.signExtend 64

/-! ## Lines and rows -/

/-- A line number fits in the 63 bits of a tag. -/
theorem signExtend_line {c : cache_t} (h : 1 ≤ c.lg_line) (addr : Long) :
    ((c.lineOf addr).setWidth 63).signExtend 64 = c.lineOf addr := by
  have hbit (k : Nat) (hk : k < 64) : (c.lineOf addr).getLsbD k
      = if c.lg_line + k < 64 then addr.getLsbD (c.lg_line + k) else addr.msb := by
    unfold cache_t.lineOf
    rw [BitVec.getLsbD_sshiftRight]
    simp [show ¬ 64 ≤ k by omega]
  apply BitVec.eq_of_getLsbD_eq
  intro k hk
  rw [BitVec.getLsbD_signExtend, BitVec.msb_eq_getLsbD_last, BitVec.getLsbD_setWidth,
    BitVec.getLsbD_setWidth]
  -- bit 63 is bit 62 again: both are the sign, as a line is shifted by one at least
  rcases Nat.lt_or_ge k 63 with h63 | h63
  · simp [hk, h63]
  · obtain rfl : k = 63 := by omega
    simp only [hbit 63 (by omega), hbit 62 (by omega), hk, decide_true, Bool.true_and,
      Nat.lt_irrefl, if_false]
    have h62 : c.lg_line + 62 < 64 → c.lg_line + 62 = 63 := by omega
    rw [if_neg (by omega : ¬ c.lg_line + 63 < 64)]
    by_cases hlt : c.lg_line + 62 < 64
    · rw [if_pos hlt, h62 hlt, BitVec.msb_eq_getLsbD_last]
      simp
    · rw [if_neg hlt]
      simp

/-- The row of a line is one of the rows: it is a remainder modulo a power of two. -/
theorem index_lt {states : List State} {c : cache_t} (h : Tracks states c) (line : Long) :
    c.index line < c.rows := by
  -- so few rows that the mask does not wrap
  have hpow : c.rows ≤ 2 ^ 30 := Nat.pow_le_pow_right (by omega) h.rows
  have hpos : 0 < c.rows := Nat.two_pow_pos _
  have hmask : c.row_mask.toNat = c.rows - 1 := by
    unfold cache_t.row_mask
    rw [BitVec.toNat_ofNat, Nat.mod_eq_of_lt (by omega)]
  unfold cache_t.index
  rw [BitVec.toNat_and, hmask]
  have := Nat.and_le_right (n := line.toNat) (m := c.rows - 1)
  omega

/-! ## The walk -/

section
variable {states : List State} {c : cache_t} (h : Tracks states c) {r : Nat} (hr : r < c.rows)
include h hr

/-- The number of a row's order. -/
theorem exists_number : ∃ k < states.length, (c.states r).toNat = c.ways * k ∧
    states[k]? = some (order states c r) := by
  obtain ⟨k, hk, hs⟩ := h.state r hr
  have hfit : c.ways * k < 2 ^ 16 :=
    Nat.lt_of_le_of_lt (Nat.mul_le_mul_left _ (by omega)) h.fsm.fits
  have hnat : (c.states r).toNat = c.ways * k := by
    rw [hs, BitVec.toNat_ofNat, Nat.mod_eq_of_lt hfit]
  refine ⟨k, hk, hnat, ?_⟩
  unfold order
  rw [hnat, Nat.mul_div_cancel_left _ h.ways, List.getD_eq_getElem?_getD,
    List.getElem?_eq_getElem hk, Option.getD_some]

theorem order_perm : (order states c r).Perm (List.range c.ways) := by
  obtain ⟨k, -, -, hget⟩ := exists_number h hr
  exact h.fsm.perm _ (List.mem_of_getElem? hget)

theorem length_order : (order states c r).length = c.ways := by
  rw [(order_perm h hr).length_eq, List.length_range]

theorem order_lt {w : Nat} (hw : w ∈ order states c r) : w < c.ways :=
  List.mem_range.mp ((order_perm h hr).mem_iff.mp hw)

/-- The entry of the array at position `i` of the row's order. -/
theorem entry_at {k : Nat} (hk : k < states.length) (hget : states[k]? = some (order states c r))
    {i w : Nat} (hi : (order states c r)[i]? = some w) :
    c.wayAt (c.ways * k + i + 1) r = some w ∧
    ∃ e k', c.fsm[c.ways * k + i + 1]? = some e ∧ k' < states.length ∧
      e.next_state = BitVec.ofNat 16 (c.ways * k') ∧
      states[k']? = some (cacheHit (order states c r) i) := by
  have hiw : i < c.ways := by
    rw [← length_order h hr]
    exact (List.getElem?_eq_some_iff.mp hi).1
  have hw : w < c.ways := order_lt h hr (List.mem_of_getElem? hi)
  have hfit : c.ways < 2 ^ 16 :=
    Nat.lt_of_le_of_lt (Nat.le_mul_of_pos_right _ h.fsm.nonempty) h.fsm.fits
  obtain ⟨k', hk', hnext, hentry⟩ := h.fsm.entry k hk i hiw
  rw [hget] at hnext hentry
  rw [Option.bind_some, hi] at hentry
  refine ⟨?_, _, k', hentry, hk', rfl, hnext⟩
  have htoNat : (BitVec.ofNat 16 w).toNat = w := by
    rw [BitVec.toNat_ofNat, Nat.mod_eq_of_lt (by omega)]
  unfold cache_t.wayAt
  rw [hentry]
  simp only [Option.map_some, htoNat, hw, hr, and_self, if_true]

/-- The walk stops at the first way that holds the line, or at the last way. -/
theorem walk_spec (line : Long) {k : Nat} (hk : k < states.length)
    (hget : states[k]? = some (order states c r)) {i : Nat} (hi : i < c.ways) :
    ∃ hit m w, i ≤ m ∧ (order states c r)[m]? = some w ∧
      c.walk line r (c.ways * k + c.ways) (c.ways * k + i) = some (hit, c.ways * k + m + 1, w) ∧
      (∀ j, i ≤ j → j < m → (recency states c r)[j]? ≠ some line) ∧
      (hit = true → (recency states c r)[m]? = some line) ∧
      (hit = false → m + 1 = c.ways ∧ (recency states c r)[m]? ≠ some line) := by
  have hlen := length_order h hr
  obtain ⟨w, hw⟩ : ∃ w, (order states c r)[i]? = some w :=
    ⟨_, List.getElem?_eq_getElem (by omega)⟩
  have htag : (recency states c r)[i]? = some ((c.tags w r).addr.signExtend 64) := by
    unfold recency
    rw [List.getElem?_map, hw]
    rfl
  have hway := (entry_at h hr hk hget hw).1
  unfold cache_t.walk
  rw [hway]
  dsimp only
  -- a hit here; or the last way; or the rest of the walk
  by_cases heq : line = (c.tags w r).addr.signExtend 64
  · rw [if_pos heq]
    refine ⟨true, i, w, le_rfl, hw, rfl, fun j h1 h2 => by omega, ?_, fun hf => (by cases hf)⟩
    intro _
    rw [htag, heq]
  · have hne : (recency states c r)[i]? ≠ some line := by
      rw [htag]
      intro hc
      exact heq (Option.some.inj hc).symm
    rw [if_neg heq]
    by_cases hlast : i + 1 < c.ways
    · rw [if_pos (by omega)]
      obtain ⟨hit, m, w', him, hw', hwalk, hbefore, hyes, hno⟩ := walk_spec line hk hget hlast
      refine ⟨hit, m, w', by omega, hw', hwalk, ?_, hyes, hno⟩
      intro j h1 h2
      rcases Nat.eq_or_lt_of_le h1 with rfl | hlt
      · exact hne
      · exact hbefore j hlt h2
    · rw [if_neg (by omega)]
      exact ⟨false, i, w, le_rfl, hw, rfl, fun j h1 h2 => by omega, fun hf => (by cases hf),
        fun _ => ⟨by omega, hne⟩⟩
termination_by c.ways - i

end

/-! ## One lookup -/

/-- The parts of a cache that the replacement order is read from: the geometry, and
the line numbers and the states of the rows. -/
structure SameLines (c c' : cache_t) : Prop where
  geometry : c'.toGeometry = c.toGeometry
  addr : ∀ w r, (c'.tags w r).addr = (c.tags w r).addr
  states : c'.states = c.states

theorem touchTag_same (c : cache_t) (way row : Nat) (write : Bool) :
    SameLines c (c.touchTag way row write) := by
  cases write with
  | false => exact ⟨rfl, fun _ _ => rfl, rfl⟩
  | true =>
    refine ⟨rfl, ?_, rfl⟩
    intro w r
    show (if w = way ∧ r = row then _ else c.tags w r).addr = _
    split
    case isTrue hw => rw [hw.1, hw.2]
    case isFalse => rfl

theorem touchTag_frame (c : cache_t) {way row r : Nat} (write : Bool) (hr : r ≠ row) (w : Nat) :
    (c.touchTag way row write).tags w r = c.tags w r := by
  cases write with
  | false => rfl
  | true => exact if_neg fun hw => hr hw.2

theorem touchTag_dirty (c : cache_t) (way row : Nat) (write : Bool) {w r : Nat}
    (hd : ((c.touchTag way row write).tags w r).dirty = true) :
    write = true ∨ (c.tags w r).dirty = true := by
  cases write with
  | false => exact Or.inr hd
  | true => exact Or.inl rfl

/-- What a miss leaves, when it does not store through a null pointer. -/
theorem refill_spec (c : cache_t) (line : Long) (row way : Nat) :
    (∃ c', c.refill line row way = some c' ∧ c'.toGeometry = c.toGeometry ∧
      c'.states = c.states ∧ c'.evicted.isSome = c.evicted.isSome ∧
      (c'.tags way row).addr = line.setWidth 63 ∧
      (∀ w r, ¬(w = way ∧ r = row) → c'.tags w r = c.tags w r) ∧
      ∀ w r, (c'.tags w r).dirty = true → (c.tags w r).dirty = true) ∨
    (c.refill line row way = none ∧ c.evicted = none ∧ (c.tags way row).dirty = true) := by
  unfold cache_t.refill
  dsimp only
  by_cases hd : (c.tags way row).dirty = true
  · rw [if_pos hd]
    cases he : c.evicted with
    -- the store through the null `evicted`
    | none => exact Or.inr ⟨rfl, rfl, hd⟩
    | some v =>
      refine Or.inl ⟨_, rfl, rfl, rfl, rfl, ?_, fun w r hne => if_neg hne, ?_⟩
      · exact congrArg tag_t.addr (if_pos ⟨rfl, rfl⟩)
      · intro w r hdirty
        by_cases hw : w = way ∧ r = row
        · rw [hw.1, hw.2]
          exact hd
        · exact (congrArg tag_t.dirty (if_neg hw)).symm.trans hdirty
  · rw [if_neg hd]
    refine Or.inl ⟨_, rfl, rfl, rfl, ?_, ?_, fun w r hne => if_neg hne, ?_⟩
    · cases c.evicted <;> rfl
    · exact congrArg tag_t.addr (if_pos ⟨rfl, rfl⟩)
    · intro w r hdirty
      by_cases hw : w = way ∧ r = row
      · exact absurd ((congrArg tag_t.dirty (if_pos hw)).symm.trans hdirty) hd
      · exact (congrArg tag_t.dirty (if_neg hw)).symm.trans hdirty

theorem cacheHit_of_get {α : Type} {l : List α} {i : Nat} {a : α} (h : l[i]? = some a) :
    cacheHit l i = a :: l.eraseIdx i := by
  unfold cacheHit
  rw [h]

/-- The row after its state has moved to the order with number `k'`. -/
theorem advance_spec {states : List State} {c c₁ : cache_t} (h : Tracks states c) (r way : Nat)
    {k' : Nat} (hgeo : c₁.toGeometry = c.toGeometry) (hstates : c₁.states = c.states)
    (hk' : k' < states.length) {s' : State} (hget : states[k']? = some s') (write : Bool) :
    let c' := (c₁.setState r (BitVec.ofNat 16 (c.ways * k'))).touchTag way r write
    Tracks states c' ∧ c'.toGeometry = c.toGeometry ∧
      recency states c' r = s'.map fun w => (c₁.tags w r).addr.signExtend 64 := by
  intro c'
  have hsame := touchTag_same (c₁.setState r (BitVec.ofNat 16 (c.ways * k'))) way r write
  have hc' : c'.toGeometry = c.toGeometry := hsame.geometry.trans hgeo
  have hways : c'.ways = c.ways := congrArg Geometry.ways hc'
  have hrows : c'.lg_rows = c.lg_rows := congrArg Geometry.lg_rows hc'
  have hst : c'.states = Function.update c.states r (BitVec.ofNat 16 (c.ways * k')) := by
    rw [← hstates]
    exact hsame.states
  refine ⟨⟨?_, ?_, ?_, ?_, ?_⟩, hc', ?_⟩
  · rw [hways, show c'.fsm = c.fsm from congrArg Geometry.fsm hc']
    exact h.fsm
  · rw [hways]
    exact h.ways
  · rw [show c'.lg_line = c.lg_line from congrArg Geometry.lg_line hc']
    exact h.line
  · rw [hrows]
    exact h.rows
  · intro q hq
    rw [hst, hways]
    by_cases hqr : q = r
    · subst hqr
      exact ⟨k', hk', Function.update_self ..⟩
    · rw [Function.update_of_ne hqr]
      refine h.state q ?_
      unfold cache_t.rows
      rw [← hrows]
      exact hq
  · -- the state is read back as the number that was written
    have hfit : c.ways * k' < 2 ^ 16 :=
      Nat.lt_of_le_of_lt (Nat.mul_le_mul_left _ (by omega)) h.fsm.fits
    have horder : order states c' r = s' := by
      unfold order
      rw [hst, Function.update_self, hways, BitVec.toNat_ofNat, Nat.mod_eq_of_lt hfit,
        Nat.mul_div_cancel_left _ h.ways, List.getD_eq_getElem?_getD, hget, Option.getD_some]
    unfold recency
    rw [horder]
    refine List.map_congr_left ?_
    intro w _
    rw [hsame.addr]
    rfl

/-- What an access to a line does to the rows. -/
structure Accessed (states : List State) (c : cache_t) (line : Long) (r : Nat) (write hit : Bool)
    (c' : cache_t) : Prop where
  hit_iff : hit = decide (line ∈ recency states c r)
  tracks : Tracks states c'
  geometry : c'.toGeometry = c.toGeometry
  row : recency states c' r = touch line (recency states c r)
  others : ∀ q ≠ r, c'.states q = c.states q ∧ ∀ w, c'.tags w q = c.tags w q
  evicted : c'.evicted.isSome = c.evicted.isSome
  dirty : ∀ w q, (c'.tags w q).dirty = true → write = true ∨ (c.tags w q).dirty = true

section
variable {states : List State} {c : cache_t} (h : Tracks states c) {line : Long} {r : Nat}
  {m w k' : Nat} (hw : (order states c r)[m]? = some w) (hk' : k' < states.length)
  (hnext : states[k']? = some (cacheHit (order states c r) m)) (write : Bool)
include h hw hk' hnext

/-- A hit at position `m`. -/
theorem accessed_hit (hline : (recency states c r)[m]? = some line)
    (hfirst : ∀ j < m, (recency states c r)[j]? ≠ some line) :
    Accessed states c line r write true
      ((c.setState r (BitVec.ofNat 16 (c.ways * k'))).touchTag w r write) := by
  obtain ⟨htracks, hgeo, hrec⟩ := advance_spec h r w rfl rfl hk' hnext write
  have hmem : line ∈ recency states c r := List.mem_of_getElem? hline
  refine ⟨(decide_eq_true hmem).symm, htracks, hgeo, ?_, fun q hq => ⟨?_, ?_⟩, ?_, ?_⟩
  · rw [hrec, touch_of_first hline hfirst, cacheHit_of_get hw, List.map_cons, ← List.eraseIdx_map]
    have hget : (recency states c r)[m]? = some ((c.tags w r).addr.signExtend 64) := by
      unfold recency
      rw [List.getElem?_map, hw]
      rfl
    rw [← Option.some.inj (hget.symm.trans hline)]
    rfl
  · rw [(touchTag_same _ w r write).states]
    exact Function.update_of_ne hq ..
  · intro v
    exact touchTag_frame _ write hq v
  · cases write <;> rfl
  · exact fun v q hd =>
      touchTag_dirty (c.setState r (BitVec.ofNat 16 (c.ways * k'))) w r write hd

/-- A miss, which ends at the last position. -/
theorem accessed_miss (hr : r < c.rows) (hlast : m + 1 = c.ways) (hnot : line ∉ recency states c r)
    (hfits : (line.setWidth 63).signExtend 64 = line) {c₁ : cache_t}
    (hgeo₁ : c₁.toGeometry = c.toGeometry) (hst₁ : c₁.states = c.states)
    (hev₁ : c₁.evicted.isSome = c.evicted.isSome) (hway₁ : (c₁.tags w r).addr = line.setWidth 63)
    (htags₁ : ∀ v q, ¬(v = w ∧ q = r) → c₁.tags v q = c.tags v q)
    (hdirty₁ : ∀ v q, (c₁.tags v q).dirty = true → (c.tags v q).dirty = true) :
    Accessed states c line r write false
      ((c₁.setState r (BitVec.ofNat 16 (c.ways * k'))).touchTag w r write) := by
  obtain ⟨htracks, hgeo, hrec⟩ := advance_spec h r w hgeo₁ hst₁ hk' hnext write
  have hlen := length_order h hr
  refine ⟨(decide_eq_false hnot).symm, htracks, hgeo, ?_, fun q hq => ⟨?_, fun v => ?_⟩, ?_, ?_⟩
  · rw [hrec, touch_of_not_mem hnot, cacheHit_of_get hw, List.map_cons, hway₁, hfits]
    -- the last way in the order is the one refilled, so its line is the one dropped
    have hdrop : (order states c r).eraseIdx m = (order states c r).dropLast :=
      (List.dropLast_eq_eraseIdx (by omega)).symm
    have hsplit : (order states c r).dropLast ++ [w] = order states c r := by
      refine List.dropLast_append_getLast? w ?_
      rw [List.getLast?_eq_getElem?, hlen, ← hlast, Nat.add_sub_cancel]
      exact hw
    have hnodup : ((order states c r).dropLast ++ [w]).Nodup := by
      rw [hsplit]
      exact (order_perm h hr).nodup_iff.mpr List.nodup_range
    congr 1
    rw [hdrop, recency, ← List.map_dropLast]
    refine List.map_congr_left ?_
    intro v hv
    -- The way refilled is the last of the order, so none of the others is.
    have hvw : v ≠ w := (List.nodup_append.mp hnodup).2.2 v hv w (List.mem_singleton_self w)
    rw [htags₁ v r fun hc => hvw hc.1]
  · rw [(touchTag_same _ w r write).states]
    show Function.update c₁.states r _ q = _
    rw [Function.update_of_ne hq, hst₁]
  · rw [touchTag_frame _ write hq v]
    exact htags₁ v q fun hc => hq hc.2
  · rw [← hev₁]
    cases write <;> rfl
  · intro v q hd
    exact (touchTag_dirty (c₁.setState r (BitVec.ofNat 16 (c.ways * k'))) w r write
      hd).imp_right (hdirty₁ v q)

end

/-- **One access** is one use of the line in the recency list of its row, and leaves
every other row alone; or it stores through the null `evicted`. -/
theorem access_spec {states : List State} {c : cache_t} (h : Tracks states c) {line : Long}
    {r : Nat} (hr : r < c.rows) (hfits : (line.setWidth 63).signExtend 64 = line) (write : Bool) :
    (∃ hit c', c.access line r write = some (hit, c') ∧ Accessed states c line r write hit c') ∨
    (c.access line r write = none ∧ c.evicted = none ∧ ∃ w q, (c.tags w q).dirty = true) := by
  obtain ⟨k, hk, hstart, hget⟩ := exists_number h hr
  obtain ⟨hit, m, w, -, hw, hwalk, hbefore, hyes, hno⟩ := walk_spec h hr line hk hget h.ways
  obtain ⟨-, e, k', he, hk', hns, hnext⟩ := entry_at h hr hk hget hw
  rw [Nat.add_zero] at hwalk
  rw [cache_t.access, hstart, hwalk]
  dsimp only
  rw [he]
  cases hit with
  | true =>
    rw [if_pos rfl]
    dsimp only
    rw [hns]
    exact Or.inl ⟨true, _, rfl, accessed_hit h hw hk' hnext write (hyes rfl)
      fun j hj => hbefore j (by omega) hj⟩
  | false =>
    rw [if_neg (by simp)]
    obtain ⟨hlast, hlastne⟩ := hno rfl
    have hnot : line ∉ recency states c r := by
      intro hmem
      obtain ⟨j, hj⟩ := List.mem_iff_getElem?.mp hmem
      have hjlt : j < c.ways := by
        have hjl := (List.getElem?_eq_some_iff.mp hj).1
        unfold recency at hjl
        rw [List.length_map, length_order h hr] at hjl
        exact hjl
      rcases Nat.lt_or_ge j m with hlt | hge
      · exact hbefore j (by omega) hlt hj
      · obtain rfl : j = m := by omega
        exact hlastne hj
    rcases refill_spec c line r w with
      ⟨c₁, hc₁, hgeo₁, hst₁, hev₁, hway₁, htags₁, hdirty₁⟩ | ⟨hnone, hev, hdirty⟩
    · rw [hc₁]
      dsimp only
      rw [hns]
      exact Or.inl ⟨false, _, rfl, accessed_miss h hw hk' hnext write hr hlast hnot hfits hgeo₁ hst₁
        hev₁ hway₁ htags₁ hdirty₁⟩
    · rw [hnone]
      exact Or.inr ⟨rfl, hev, w, r, hdirty⟩

/-! ## Runs -/

/-- The row of a line: the remainder that `row_mask` keeps. -/
def rowOf (lg_rows : Nat) (line : Long) : Nat := line.toNat % 2 ^ lg_rows

theorem index_eq_rowOf {c : cache_t} (h : c.lg_rows ≤ 30) (line : Long) :
    c.index line = rowOf c.lg_rows line := by
  have hpow : 2 ^ c.lg_rows ≤ 2 ^ 30 := Nat.pow_le_pow_right (by omega) h
  have hpos : 0 < 2 ^ c.lg_rows := Nat.two_pow_pos _
  unfold cache_t.index cache_t.row_mask cache_t.rows
  rw [BitVec.toNat_and, BitVec.toNat_ofNat,
    Nat.mod_eq_of_lt (by omega), Nat.and_two_pow_sub_one_eq_mod, rowOf]

/-- `lookup` is `access` with one more reference counted. -/
theorem lookup_spec {states : List State} {c : cache_t} (h : Tracks states c) (addr : Long)
    (write : Bool) :
    (∃ hit c', c.lookup addr write = some (hit, c') ∧
      Accessed states c (c.lineOf addr) (rowOf c.lg_rows (c.lineOf addr)) write hit c') ∨
    (c.lookup addr write = none ∧ c.evicted = none ∧ ∃ w q, (c.tags w q).dirty = true) := by
  have h' : Tracks states { c with _refs := c._refs + 1 } :=
    ⟨h.fsm, h.ways, h.line, h.rows, h.state⟩
  rw [← index_eq_rowOf h.rows]
  rcases access_spec h' (index_lt h (c.lineOf addr)) (signExtend_line h.line addr) write with
    ⟨hit, c', hget, ha⟩ | hnone
  · exact Or.inl ⟨hit, c', hget, ha.hit_iff, ha.tracks, ha.geometry, ha.row, ha.others, ha.evicted,
      ha.dirty⟩
  · exact Or.inr hnone

theorem lineOf_congr {c c' : cache_t} (h : c'.toGeometry = c.toGeometry) : c'.lineOf = c.lineOf := by
  funext addr
  rw [cache_t.lineOf, h, cache_t.lineOf]

/-- A sequence of lookups, and what they return. -/
def cache_t.lookups (c : cache_t) : List (Long × Bool) → Option (List Bool × cache_t)
  | [] => some ([], c)
  | (addr, write) :: calls => do
    let (hit, c) ← c.lookup addr write
    let (hits, c) ← lookups c calls
    return (hit :: hits, c)

/-- A run that returns is its first lookup, and the run of the others in the cache it leaves. -/
theorem lookups_cons {c c' : cache_t} {a : Long × Bool} {calls : List (Long × Bool)}
    {hits : List Bool} : c.lookups (a :: calls) = some (hits, c') ↔
      ∃ hit c₁ hits', c.lookup a.1 a.2 = some (hit, c₁) ∧ c₁.lookups calls = some (hits', c') ∧
        hits = hit :: hits' := by
  rw [cache_t.lookups, Option.bind_eq_bind]
  constructor
  · intro h
    obtain ⟨⟨hit, c₁⟩, hlookup, h⟩ := Option.bind_eq_some_iff.mp h
    obtain ⟨⟨hits', c₂⟩, hrest, h⟩ := Option.bind_eq_some_iff.mp h
    cases h
    exact ⟨hit, c₁, hits', hlookup, hrest, rfl⟩
  · rintro ⟨hit, c₁, hits', hlookup, hrest, rfl⟩
    rw [hlookup, Option.bind_some]
    dsimp only
    rw [hrest]
    rfl

/-- The recency lists that hold the lines of a cache. -/
def Holds (states : List State) (c : cache_t) (rows : Nat → List Long) : Prop :=
  ∀ r < c.rows, recency states c r = rows r

/-- One lookup uses its line. -/
theorem lookup_holds {states : List State} {c c' : cache_t} {addr : Long} {write hit : Bool}
    {rows : Nat → List Long} (hrows : Holds states c rows)
    (ha : Accessed states c (c.lineOf addr) (rowOf c.lg_rows (c.lineOf addr)) write hit c') :
    hit = (Lib.use (rowOf c.lg_rows) rows (c.lineOf addr)).1 ∧
      Holds states c' (Lib.use (rowOf c.lg_rows) rows (c.lineOf addr)).2 := by
  have hr : rowOf c.lg_rows (c.lineOf addr) < c.rows := Nat.mod_lt _ (Nat.two_pow_pos _)
  constructor
  · rw [ha.hit_iff, hrows _ hr]
    rfl
  · intro q hq
    by_cases hqr : q = rowOf c.lg_rows (c.lineOf addr)
    · rw [hqr, ha.row, hrows _ hr, Lib.use_self]
    · have hq' : q < c.rows := by
        unfold cache_t.rows
        rw [← ha.geometry]
        exact hq
      obtain ⟨hstate, htags⟩ := ha.others q hqr
      rw [Lib.use_other _ hqr, ← hrows q hq', recency, order, hstate, ha.geometry]
      exact List.map_congr_left fun v _ => by rw [htags]

/-- A sequence of lookups is the same sequence of uses, unless one stores through the
null `evicted`. -/
theorem lookups_spec {states : List State} {c : cache_t} {rows : Nat → List Long}
    (hc : Tracks states c) (hrows : Holds states c rows) (calls : List (Long × Bool)) :
    (∃ c', c.lookups calls =
        some ((Lib.uses (rowOf c.lg_rows) rows (calls.map fun a => c.lineOf a.1)).1, c') ∧
      Tracks states c' ∧ c'.toGeometry = c.toGeometry ∧
      Holds states c' (Lib.uses (rowOf c.lg_rows) rows (calls.map fun a => c.lineOf a.1)).2) ∨
    (c.lookups calls = none ∧ c.evicted = none ∧
      ((∃ w q, (c.tags w q).dirty = true) ∨ ∃ a ∈ calls, a.2 = true)) := by
  induction calls generalizing c rows with
  | nil => exact Or.inl ⟨c, rfl, hc, rfl, hrows⟩
  | cons a calls ih =>
    obtain ⟨addr, write⟩ := a
    rcases lookup_spec hc addr write with ⟨hit, c₁, hget, ha⟩ | ⟨hnone, hev, hdirty⟩
    · obtain ⟨hhit, hrows₁⟩ := lookup_holds hrows ha
      have hlg : c₁.lg_rows = c.lg_rows := congrArg Geometry.lg_rows ha.geometry
      have hline : c₁.lineOf = c.lineOf := lineOf_congr ha.geometry
      rcases ih ha.tracks hrows₁ with ⟨c', hrun, htracks, hgeo, hholds⟩ | ⟨hrun, hev, hd⟩
      · rw [hlg, hline] at hrun hholds
        refine Or.inl ⟨c', ?_, htracks, hgeo.trans ha.geometry, hholds⟩
        exact lookups_cons.mpr ⟨hit, c₁, _, hget, hrun, by rw [hhit]; rfl⟩
      · refine Or.inr ⟨?_, ?_, ?_⟩
        · unfold cache_t.lookups
          rw [hget]
          simp only [Option.bind_eq_bind, Option.bind_some, hrun, Option.bind_none]
        · have hsome := ha.evicted
          rw [hev] at hsome
          cases he : c.evicted with
          | none => rfl
          | some _ =>
            rw [he] at hsome
            cases hsome
        · rcases hd with ⟨w, q, hd⟩ | ⟨b, hb, hwrite⟩
          · rcases ha.dirty w q hd with hw | hold
            · exact Or.inr ⟨_, List.mem_cons_self, hw⟩
            · exact Or.inl ⟨w, q, hold⟩
          · exact Or.inr ⟨b, List.mem_cons_of_mem _ hb, hwrite⟩
    · refine Or.inr ⟨?_, hev, Or.inl hdirty⟩
      unfold cache_t.lookups
      rw [hnone]
      rfl

/-! ## From `flush` -/

theorem geometry_ok {w : Nat} (h1 : 1 ≤ w) (h4 : w ≤ 4) (lin row : Nat) :
    ∃ fsm states, geometry w lin row = some ⟨fsm, w, lin, row⟩ ∧
      cache_states w (w.factorial + 1) = some states ∧ FsmOk w fsm states := by
  obtain ⟨fsm, hfsm, states, hstates, hok⟩ := cache_fsm_ok h1 h4
  refine ⟨fsm, states, ?_, Option.mem_def.mp hstates, hok⟩
  unfold geometry
  rw [if_pos ⟨h1, h4⟩, Option.mem_def.mp hfsm]
  rfl

/-- A cache that the constructor makes: one to four ways, and their array. -/
theorem geometry_some {w lin row : Nat} {g : Geometry} (hg : geometry w lin row = some g) :
    ∃ states, 1 ≤ w ∧ w ≤ 4 ∧ FsmOk w g.fsm states ∧ g.ways = w ∧ g.lg_line = lin ∧ g.lg_rows = row := by
  by_cases hw : 1 ≤ w ∧ w ≤ 4
  · obtain ⟨fsm, states, hgeo, -, hok⟩ := geometry_ok hw.1 hw.2 lin row
    rw [hgeo] at hg
    obtain rfl := Option.some.inj hg
    exact ⟨states, hw.1, hw.2, hok, rfl, rfl, rfl⟩
  · unfold geometry at hg
    rw [if_neg hw] at hg
    cases hg

theorem tracks_flush {states : List State} {c : cache_t} (hok : FsmOk c.ways c.fsm states)
    (hways : 0 < c.ways) (hline : 1 ≤ c.lg_line) (hrows : c.lg_rows ≤ 30) :
    Tracks states c.flush :=
  ⟨hok, hways, hline, hrows, fun _ _ => ⟨0, hok.nonempty, rfl⟩⟩

theorem holds_flush {states : List State} {c : cache_t} (h : Tracks states c.flush) :
    Holds states c.flush fun _ => List.replicate c.ways 0 := by
  intro r hr
  have hlen : (order states c.flush r).length = c.ways := length_order h hr
  have hzero : recency states c.flush r = (order states c.flush r).map fun _ => (0 : Long) :=
    List.map_congr_left fun _ _ => by
      show (0 : BitVec 63).signExtend 64 = 0
      decide
  rw [hzero, List.map_const', hlen]

/-- Every table entry and tag that a walk of the row can read is there. -/
def InRange (c : cache_t) : Prop :=
  ∀ r < c.rows, ∀ i < c.ways, (c.wayAt ((c.states r).toNat + i + 1) r).isSome = true

theorem inRange_of_tracks {states : List State} {c : cache_t} (h : Tracks states c) : InRange c := by
  intro r hr i hi
  obtain ⟨k, hk, hstart, hget⟩ := exists_number h hr
  have hlen := length_order h hr
  rw [hstart, (entry_at h hr hk hget (List.getElem?_eq_getElem (by omega))).1]
  rfl

/-- The state of every row is `ways` times the number of an order of the ways. -/
def Numbered (states : List State) (c : cache_t) : Prop :=
  ∀ r < c.rows, ∃ k s, (c.states r).toNat = c.ways * k ∧ states[k]? = some s ∧
    s.Perm (List.range c.ways)

theorem numbered_of_tracks {states : List State} {c : cache_t} (h : Tracks states c) :
    Numbered states c := by
  intro r hr
  obtain ⟨k, -, hstart, hget⟩ := exists_number h hr
  exact ⟨k, _, hstart, hget, order_perm h hr⟩

/-- A lookup leaves every row but that of its line alone. -/
def OneRow (c : cache_t) : Prop :=
  ∀ addr write hit c', c.lookup addr write = some (hit, c') →
    ∀ r ≠ rowOf c.lg_rows (c.lineOf addr),
      c'.states r = c.states r ∧ ∀ way, c'.tags way r = c.tags way r

theorem oneRow_of_tracks {states : List State} {c : cache_t} (h : Tracks states c) : OneRow c := by
  intro addr write hit c' hlookup r hr
  rcases lookup_spec h addr write with ⟨hit₁, c₁, hget, ha⟩ | ⟨hnone, -⟩
  · obtain rfl : c₁ = c' := congrArg Prod.snd (Option.some.inj (hget.symm.trans hlookup))
    exact ha.others r hr
  · rw [hnone] at hlookup
    cases hlookup

/-- **The cache is true LRU.** A sequence of lookups after `flush` hits exactly when
the same uses of rows of zeros do, and reading each row in the order of its state gives
the row that those uses leave. The one way not to get there is a write to a cache that is
not writable. -/
theorem lookups_are_lru {w lin row : Nat} (hw : 1 ≤ w ∧ w ≤ 4) (hlin : 1 ≤ lin ∧ lin ≤ 30)
    (hrow : row ≤ 30) :
    ∃ g states, geometry w lin row = some g ∧ cache_states w (w.factorial + 1) = some states ∧
      ∀ c : cache_t, c.toGeometry = g → ∀ calls : List (Long × Bool),
        let lru := Lib.uses (rowOf row) (fun _ => List.replicate w 0)
          (calls.map fun a => a.1.sshiftRight lin)
        (∃ c', c.flush.lookups calls = some (lru.1, c') ∧
          (∀ r < 2 ^ row, recency states c' r = lru.2 r) ∧
          Numbered states c' ∧ InRange c' ∧ OneRow c') ∨
        (c.flush.lookups calls = none ∧ c.evicted = none ∧ ∃ a ∈ calls, a.2 = true) := by
  obtain ⟨fsm, states, hgeo, hstates, hok⟩ := geometry_ok hw.1 hw.2 lin row
  refine ⟨_, states, hgeo, hstates, ?_⟩
  intro c hc calls
  obtain ⟨⟨fsm', w', lin', row'⟩, p, tags, sts, ev, refs, misses, updates, evictions⟩ := c
  obtain ⟨rfl, rfl, rfl, rfl⟩ := Geometry.mk.inj hc
  intro lru
  have htracks := tracks_flush (c := ⟨⟨fsm', w', lin', row'⟩, p, tags, sts, ev, refs, misses, updates,
    evictions⟩) hok hw.1 hlin.1 hrow
  rcases lookups_spec htracks (holds_flush htracks) calls with
    ⟨c', hrun, ht', hgeo', hholds⟩ | ⟨hrun, hev, hd⟩
  · refine Or.inl ⟨c', hrun, fun r hr => hholds r ?_, numbered_of_tracks ht', inRange_of_tracks ht',
      oneRow_of_tracks ht'⟩
    unfold cache_t.rows
    rw [hgeo']
    exact hr
  · -- after `flush` nothing is dirty, so a line to evict was written since
    refine Or.inr ⟨hrun, hev, ?_⟩
    rcases hd with ⟨_, _, hdirty⟩ | hwrite
    · cases hdirty
    · exact hwrite

/-- Two ways in one row: the third line evicts the first, which the second use of the
second line has made the older. -/
theorem lookups_are_lru_twoWays :
    ∃ g, geometry 2 6 0 = some g ∧ ∀ c : cache_t, c.toGeometry = g → ∃ c',
      c.flush.lookups [(0x40, false), (0x80, false), (0x47, false), (0x80, false), (0xc0, false),
        (0x40, false)] = some ([false, false, true, true, false, false], c') ∧
      ∃ states, recency states c' 0 = [1, 3] := by
  obtain ⟨g, states, hgeo, -, hlru⟩ :=
    @lookups_are_lru 2 6 0 ⟨by decide, by decide⟩ ⟨by decide, by decide⟩
      (by decide)
  refine ⟨g, hgeo, ?_⟩
  intro c hc
  rcases hlru c hc _ with ⟨c', hrun, hrows, -⟩ | ⟨-, -, hwrite⟩
  · exact ⟨c', hrun, states, hrows 0 (by decide)⟩
  · simp at hwrite

/-- A write to a cache that is not writable, and a lookup that evicts the line: the
recency list would drop it, the cache stores through the null `evicted`. -/
theorem lookups_null_evicted : ∃ g, geometry 1 6 0 = some g ∧
    ¬∃ c', (cache_t.make 15 g false).flush.lookups [(0x40, true), (0x80, false)]
      = some ((Lib.uses (rowOf 0) (fun _ => List.replicate 1 0) [0x1, 0x2]).1, c') := by
  have hfault : (geometry 1 6 0).map (fun g => ((cache_t.make 15 g false).flush.lookups
      [(0x40, true), (0x80, false)]).isNone) = some true := by decide +kernel
  obtain ⟨g, hg, hnone⟩ := Option.map_eq_some_iff.mp hfault
  refine ⟨g, hg, ?_⟩
  intro hex
  obtain ⟨c', hrun⟩ := hex
  rw [hrun] at hnone
  cases hnone

end Cavatools.Caveat
