import Mathlib

/-!
# Sweeps with data-dependent strides

A loop that walks from `lo` up to `hi` and moves on by a stride that depends
on where it is sees some of the places between and skips the others. A
disassembler or the initialisation of a text are such loops: the length of
what stands at a place decides which place is looked at next.

`Boundary` are the places where such a loop stands, the last one perhaps
beyond `hi`, as the reflexive and transitive closure of one stride from below
`hi` (`Next`). `Visits` are those below `hi`, at which it does its work. The
basic facts are that a sweep visits its first place and what the rest of it
visits (`visits_iff`), that between a place and the next there is none
(`Visits.gap`), and that sweeps with equal strides at the places that one of
them visits are the same (`visits_congr`), so that work which changes lengths
elsewhere does not disturb a sweep. `Boundary.mono` and `Boundary.restrict`
compare bounds: going further changes nothing about what comes before.

The second part has the same sweep as a list: `places` with a number of turns,
`sweep` with as many as the distance allows, which is enough (`le_final`).
Then `mem_sweep` says that the list has what the sweep visits, each place once
(`sweep_nodup`), and `sweepEnd` is where it stands in the end. All this is for
positive strides.
-/

namespace Cavatools.Lib.Sweep

/-- From one place to the next. -/
def Next (len : Int → Int) (hi p q : Int) : Prop := p < hi ∧ q = p + len p

def Boundary (len : Int → Int) (hi lo : Int) : Int → Prop := Relation.ReflTransGen (Next len hi) lo

def Visits (len : Int → Int) (hi lo p : Int) : Prop := Boundary len hi lo p ∧ p < hi

variable {len : Int → Int} {hi lo p q : Int}

theorem Visits.next (h : Visits len hi lo p) : Boundary len hi lo (p + len p) := h.1.tail ⟨h.2, rfl⟩

theorem visits_self (h : lo < hi) : Visits len hi lo lo := ⟨.refl, h⟩

theorem not_visits (h : ¬ lo < hi) : ¬ Visits len hi lo p := by
  rintro ⟨hb, hp⟩
  rcases hb.cases_head with rfl | ⟨_, ⟨hlt, -⟩, -⟩
  · exact h hp
  · exact h hlt

/-- What a sweep visits is its first place and what the rest of it visits. -/
theorem visits_iff (h : lo < hi) : Visits len hi lo p ↔ p = lo ∨ Visits len hi (lo + len lo) p := by
  constructor
  · rintro ⟨hb, hp⟩
    rcases hb.cases_head with rfl | ⟨_, ⟨-, rfl⟩, hb⟩
    · exact Or.inl rfl
    · exact Or.inr ⟨hb, hp⟩
  · rintro (rfl | ⟨hb, hp⟩)
    · exact visits_self h
    · exact ⟨hb.head ⟨h, rfl⟩, hp⟩

/-- Every place but the first has one before it. -/
theorem Boundary.prev (h : Boundary len hi lo p) : p = lo ∨ ∃ q, Visits len hi lo q ∧ q + len q = p := by
  rcases h.cases_tail with rfl | ⟨q, hb, hq, rfl⟩
  · exact Or.inl rfl
  · exact Or.inr ⟨q, ⟨hb, hq⟩, rfl⟩

/-- A divisor of all strides divides every distance. -/
theorem Boundary.dvd {k : Int} (hk : ∀ p, k ∣ len p) (h : Boundary len hi lo p) : k ∣ p - lo := by
  induction h with
  | refl => simp
  | @tail q _ _ hstep ih =>
    obtain ⟨-, rfl⟩ := hstep
    have hsum := dvd_add ih (hk q)
    rwa [← add_sub_right_comm] at hsum

section
variable (hpos : ∀ p, 0 < len p)
include hpos

theorem Boundary.le (h : Boundary len hi lo p) : lo ≤ p := by
  induction h with
  | refl => exact le_rfl
  | @tail p _ _ hstep ih =>
    obtain ⟨-, rfl⟩ := hstep
    have := hpos p
    omega

/-- Between a place and the next there is none. -/
theorem Visits.gap (hp : Visits len hi lo p) (hq : Boundary len hi lo q) (h : p < q) : p + len p ≤ q := by
  have hunique : Relator.RightUnique (Next len hi) := by
    rintro a b c ⟨-, rfl⟩ ⟨-, rfl⟩
    rfl
  rcases hp.1.total_of_right_unique hunique hq with hpq | hqp
  · rcases hpq.cases_head with rfl | ⟨_, ⟨-, rfl⟩, hb⟩
    · exact absurd h (lt_irrefl _)
    · exact Boundary.le hpos hb
  · have := Boundary.le hpos hqp
    omega

end

/-- Strides that agree at the places one sweep visits make the same sweep. -/
theorem boundary_congr {len' : Int → Int} (h : ∀ p, Visits len hi lo p → len' p = len p) :
    Boundary len' hi lo q ↔ Boundary len hi lo q := by
  constructor
  · intro hb
    induction hb with
    | refl => exact .refl
    | tail _ hstep ih =>
      obtain ⟨hlt, rfl⟩ := hstep
      exact ih.tail ⟨hlt, by rw [h _ ⟨ih, hlt⟩]⟩
  · intro hb
    induction hb with
    | refl => exact .refl
    | tail hb hstep ih =>
      obtain ⟨hlt, rfl⟩ := hstep
      exact ih.tail ⟨hlt, by rw [h _ ⟨hb, hlt⟩]⟩

theorem visits_congr {len' : Int → Int} (h : ∀ p, Visits len hi lo p → len' p = len p) :
    Visits len' hi lo q ↔ Visits len hi lo q := and_congr_left' (boundary_congr h)

/-- A sweep that goes further comes to the same places first. -/
theorem Boundary.mono {hi' : Int} (hle : hi ≤ hi') (h : Boundary len hi lo p) : Boundary len hi' lo p := by
  induction h with
  | refl => exact .refl
  | tail _ hstep ih =>
    obtain ⟨hlt, rfl⟩ := hstep
    exact ih.tail ⟨by omega, rfl⟩

/-! ## Sweeps as lists -/

/-- The places that a sweep visits, in order, and where it stands in the end; `n` turns at most. -/
def places (len : Int → Int) (hi : Int) : Nat → Int → List Int
  | 0, _ => []
  | n + 1, p => if p < hi then p :: places len hi n (p + len p) else []

def final (len : Int → Int) (hi : Int) : Nat → Int → Int
  | 0, p => p
  | n + 1, p => if p < hi then final len hi n (p + len p) else p

theorem final_boundary (n : Nat) (lo : Int) : Boundary len hi lo (final len hi n lo) := by
  induction n generalizing lo with
  | zero => exact .refl
  | succ n ih =>
    rw [final]
    split
    next h => exact .head ⟨h, rfl⟩ (ih _)
    next => exact .refl

section
variable (hpos : ∀ p, 0 < len p)
include hpos

/-- Enough turns end the sweep. -/
theorem le_final {n : Nat} (hn : hi ≤ lo + n) : hi ≤ final len hi n lo := by
  induction n generalizing lo with
  | zero => simpa [final] using hn
  | succ n ih =>
    rw [final]
    split
    next =>
      have := hpos lo
      exact ih (by push_cast at hn; omega)
    next h => exact not_lt.mp h

theorem mem_places {n : Nat} (hn : hi ≤ lo + n) : p ∈ places len hi n lo ↔ Visits len hi lo p := by
  induction n generalizing lo with
  | zero => exact iff_of_false List.not_mem_nil (not_visits (by simpa using hn))
  | succ n ih =>
    rw [places]
    split
    next h =>
      have := hpos lo
      rw [List.mem_cons, visits_iff h, ih (by push_cast at hn; omega)]
    next h => exact iff_of_false List.not_mem_nil (not_visits h)

/-- No place comes twice, since every stride leads upwards. -/
theorem places_nodup (n : Nat) (lo : Int) : (places len hi n lo).Nodup := by
  have hle : ∀ (n : Nat) (lo p : Int), p ∈ places len hi n lo → lo ≤ p := by
    intro n
    induction n with
    | zero => exact fun _ _ h => absurd h List.not_mem_nil
    | succ n ih =>
      intro lo p h
      rw [places] at h
      split at h
      next =>
        rcases List.mem_cons.mp h with rfl | h
        · exact le_rfl
        · have hnext := ih _ p h
          have := hpos lo
          omega
      next => exact absurd h List.not_mem_nil
  induction n generalizing lo with
  | zero => exact List.nodup_nil
  | succ n ih =>
    rw [places]
    split
    next =>
      refine List.nodup_cons.mpr ⟨fun h => ?_, ih _⟩
      have hnext := hle n _ _ h
      have := hpos lo
      omega
    next => exact List.nodup_nil

/-- What comes before `hi` does not depend on how far the sweep goes. -/
theorem Boundary.restrict {hi' : Int} (h : Boundary len hi' lo p) (hp : p < hi) : Visits len hi lo p := by
  refine ⟨?_, hp⟩
  induction h with
  | refl => exact .refl
  | @tail q _ hb hstep ih =>
    obtain ⟨-, rfl⟩ := hstep
    have := hpos q
    exact (ih (by omega)).tail ⟨by omega, rfl⟩

/-- A sweep from a place of another one visits what that one visits from there on. -/
theorem visits_from {hi' s : Int} (hs : Boundary len hi lo s) (hp : p < hi) (hp' : p < hi') :
    Visits len hi' s p ↔ Visits len hi lo p ∧ s ≤ p := by
  have hs' : Boundary len (max hi hi') lo s := hs.mono (le_max_left hi hi')
  constructor
  · intro h
    have hb : Boundary len (max hi hi') s p := h.1.mono (le_max_right hi hi')
    exact ⟨Boundary.restrict hpos (hs'.trans hb) hp, h.1.le hpos⟩
  · intro h
    obtain ⟨hv, hle⟩ := h
    have hunique : Relator.RightUnique (Next len (max hi hi')) := by
      intro a b c hb hc
      exact hb.2.trans hc.2.symm
    rcases hs'.total_of_right_unique hunique (hv.1.mono (le_max_left hi hi')) with hsp | hps
    · exact Boundary.restrict hpos hsp hp'
    · have heq : p = s := le_antisymm (Boundary.le hpos hps) hle
      rw [heq] at hp' ⊢
      exact visits_self hp'

/-- The end of a sweep is the first place of a longer one that is not before `hi`. -/
theorem lt_of_lt_final {hi' : Int} {n : Nat} (hp : Boundary len hi' lo p) (h : p < final len hi n lo) :
    p < hi := by
  by_contra hge
  rcases (final_boundary n lo : Boundary len hi lo _).prev with heq | ⟨q, hq, heq⟩
  · rw [heq] at h
    exact absurd (hp.le hpos) (not_le.mpr h)
  · have hq' : Visits len (max hi hi') lo q :=
      ⟨hq.1.mono (le_max_left hi hi'), lt_max_of_lt_left hq.2⟩
    have hqp : q < p := lt_of_lt_of_le hq.2 (not_lt.mp hge)
    have := hq'.gap hpos (hp.mono (le_max_right hi hi')) hqp
    omega

end

/-- The places of a whole sweep, and where it ends. -/
def sweep (len : Int → Int) (hi lo : Int) : List Int := places len hi (hi - lo).toNat lo

def sweepEnd (len : Int → Int) (hi lo : Int) : Int := final len hi (hi - lo).toNat lo

theorem mem_sweep (hpos : ∀ p, 0 < len p) : p ∈ sweep len hi lo ↔ Visits len hi lo p :=
  mem_places hpos (by omega)

theorem sweep_nodup (hpos : ∀ p, 0 < len p) (hi lo : Int) : (sweep len hi lo).Nodup :=
  places_nodup hpos _ lo

theorem le_sweepEnd (hpos : ∀ p, 0 < len p) (hi lo : Int) : hi ≤ sweepEnd len hi lo :=
  le_final hpos (by omega)

end Cavatools.Lib.Sweep
