import Cavatools.Lib.Run
import Cavatools.Uspike.Insn

/-!
# Cloning a thread

The clone branch of `hart_t::proxy_syscall` holds the parent in a loop until
the child, in `thread_interpreter`, has copied the parent's registers and
cleared `clone_lock`. The loop sleeps on a futex; the child wakes it. Each
read and write of the lock, each word of the copy and each system call is a
step of one of the two. The host's answer to `clone` is an action of its own.

With `CLONE_VM` the child works on the parent's memory; without, on a copy as
of the call, and a wake there reaches nobody.

Two things are asked of the handshake. The parent neither writes `a0` nor goes
on while the child copies, and the child starts with what the parent had
(`Copied`). And the parent gets out of its loop. A sleep can end at any time,
which covers the wake that a child of an earlier call still owes, but nothing
promises such a wake-up; so `Hung` asks for a continuation without any that
leads out of the loop, and `Stuck` is the stronger state that no wake-up
helps.

`Inv` carries both. The lock is held while the child copies (`Inv.held`), it
is free as soon as the child has released it where the parent can see that
(`Inv.released`), and whoever sleeps on a lock that is free is still owed the
wake (`Inv.awake`): that last part is what the futex, which compares the word
before it sleeps, and the wake behind the release are for. It is kept by the
child's steps (`inv_childNext`) and by the parent's (`inv_parentNext`).

Under it a child on the same memory lets the parent go (`not_hung_of_shared`),
while a child on a copy leaves it `Stranded`, which every step keeps and from
which the child can always come to its loop; so a `clone` without `CLONE_VM`
leads to a parent that hangs, woken or not (`hangs_of_private`).
`clone_handshake` puts the parts together.
-/

namespace Cavatools.Uspike.Clone

open Function (update)

/-- A word of Spike's `state_t`. -/
inductive Word (ω : Type)
  | pc
  | xpr (r : BitVec 5)
  | rest (x : ω)
  deriving DecidableEq

abbrev Regs (ω : Type) := Word ω → Long

def CLONE_VM : Long := 0x100
def CLONE_SETTLS : Long := 0x80000

/-- Where the parent is: between clones, or in the branch with its `flags` or `retval`. -/
inductive Parent
  | guest
  | lock (flags : Long)
  | clone (flags : Long)
  | check (retval : Long)
  | wait (retval : Long)
  | asleep (retval : Long)
  | write_reg (retval : Long)
  deriving DecidableEq

/-- In `while (clone_lock) futex(..)`. -/
def Parent.looping : Parent → Bool
  | .check _ | .wait _ | .asleep _ => true
  | _ => false

/-- Where the child is: `newcore` with the words that `memcpy` has not copied yet, the lines of
`thread_interpreter` in order, and its loop. -/
inductive Phase (ω : Type)
  | newcore (todo : List (Word ω))
  | sp
  | tp
  | a0
  | pc
  | set_tid
  | unlock
  | wake
  | interpreter

/-- The child, with its own copy of what the parent's hart was at the call. -/
structure Child (ω : Type) where
  shared : Bool
  oldcpu : Regs ω
  clone_lock : BitVec 32
  newcpu : Regs ω
  phase : Phase ω

/-- The parent's hart and the child of its last clone. `ecall` is what the registers were
when the branch was entered; no code reads it. -/
structure State (ω : Type) where
  regs : Regs ω
  clone_lock : BitVec 32
  parent : Parent
  ecall : Regs ω
  child : Option (Child ω)

inductive Act (ω : Type)
  | guest (regs : Regs ω)
  | ecall (pc : Long)
  | parent
  | clone (tid : Option (BitVec 32))
  | interrupt
  | child

variable {ω : Type} [DecidableEq ω]

namespace State

variable (s : State ω)

/-- `clone_lock` is not initialised. -/
def start (regs : Regs ω) (clone_lock : BitVec 32) : State ω :=
  { regs, clone_lock, parent := .guest, ecall := regs, child := none }

/-- The parent's registers as the child reads them. -/
def seen (c : Child ω) : Regs ω := if c.shared then s.regs else c.oldcpu

/-- The parent's next step, where it has one of its own. -/
def parentNext : Option (State ω) :=
  match s.parent with
  | .guest | .clone _ | .asleep _ => none
  | .lock flags => some { s with clone_lock := 1, parent := .clone flags }
  | .check retval =>
    if s.clone_lock = 0 then some { s with parent := .write_reg retval }
    else some { s with parent := .wait retval }
  | .wait retval =>
    if s.clone_lock = 1 then some { s with parent := .asleep retval }
    else some { s with parent := .check retval }
  | .write_reg retval => some { s with regs := update s.regs (.xpr 10) retval, parent := .guest }

/-- The child writes a word of its own hart and goes on. -/
def childWrite (c : Child ω) (w : Word ω) (v : Long) (p : Phase ω) : State ω :=
  { s with child := some { c with newcpu := update c.newcpu w v, phase := p } }

/-- The child's next step. -/
def childNext (c : Child ω) : Option (State ω) :=
  match c.phase with
  | .newcore (w :: todo) => some (s.childWrite c w (s.seen c w) (.newcore todo))
  | .newcore [] => some { s with child := some { c with phase := .sp } }
  | .sp => some (s.childWrite c (.xpr 2) (c.newcpu (.xpr 11)) .tp)
  | .tp => some (s.childWrite c (.xpr 4) (c.newcpu (.xpr 13)) .a0)
  | .a0 => some (s.childWrite c (.xpr 10) 0 .pc)
  | .pc => some (s.childWrite c .pc (c.newcpu .pc + 4) .set_tid)
  | .set_tid => some { s with child := some { c with phase := .unlock } }
  | .unlock =>
    if c.shared then some { s with clone_lock := 0, child := some { c with phase := .wake } }
    else some { s with child := some { c with clone_lock := 0, phase := .wake } }
  | .wake =>
    let s := { s with child := some { c with phase := .interpreter } }
    match s.parent with
    | .asleep retval => if c.shared then some { s with parent := .check retval } else some s
    | _ => some s
  | .interpreter => none

end State

/-- `layout` are the words that `memcpy` copies, and `fresh` is what a new hart's are. -/
def State.step (layout : List (Word ω)) (fresh : Regs ω) (s : State ω) : Act ω → Option (State ω)
  | .guest regs => if s.parent = .guest then some { s with regs } else none
  | .ecall pc =>
    if s.parent = .guest then
      let regs := update s.regs .pc pc
      let flags := regs (.xpr 10) &&& ~~~CLONE_SETTLS
      some { s with regs, ecall := regs, parent := .lock flags, child := none }
    else none
  | .parent => s.parentNext
  | .clone tid =>
    match s.parent, tid with
    | .clone _, none => some { s with parent := .check (-1) }
    | .clone flags, some tid =>
      some { s with
        parent := .check (tid.signExtend 64)
        child := some {
          shared := flags &&& CLONE_VM != 0, oldcpu := s.regs, clone_lock := s.clone_lock,
          newcpu := fresh, phase := .newcore layout } }
    | _, _ => none
  | .interrupt =>
    match s.parent with
    | .asleep retval => some { s with parent := .check retval }
    | _ => none
  | .child => s.child.bind s.childNext

/-! ## What the handshake is for -/

/-- The registers a child starts with. -/
def started (ecall : Regs ω) : Regs ω :=
  update (update (update (update ecall (.xpr 2) (ecall (.xpr 11))) (.xpr 4) (ecall (.xpr 13)))
    (.xpr 10) 0) .pc (ecall .pc + 4)

/-- The parent neither writes `a0` nor executes an instruction while the child copies, and
the child runs with what the parent had at the call. -/
structure Copied (s : State ω) : Prop where
  held : ∀ c, s.child = some c → ∀ todo, c.phase = .newcore todo → s.parent.looping = true
  started : ∀ c, s.child = some c → c.phase = .interpreter → c.newcpu = started s.ecall

/-- A wake-up that nobody has made. -/
def Act.spurious : Act ω → Bool
  | .interrupt => true
  | _ => false

/-- The child has made its wake, and whatever the two do next the parent is still in its loop. A
wake-up by the host alone does not count, since nothing promises one: a parent that has missed the
child's is hung. -/
def Hung (layout : List (Word ω)) (fresh : Regs ω) (s : State ω) : Prop :=
  (∃ c, s.child = some c ∧ c.phase = .interpreter) ∧
    ∀ as s', (∀ a ∈ as, a.spurious = false) → Lib.run (State.step layout fresh) as s = some s' →
      s'.parent.looping = true

/-- No wake-up helps either: the parent reads 1 again. -/
def Stuck (layout : List (Word ω)) (fresh : Regs ω) (s : State ω) : Prop :=
  ∀ as s', Lib.run (State.step layout fresh) as s = some s' → s'.parent.looping = true ∧ s'.clone_lock = 1

/-! ## The invariant -/

namespace Phase

/-- Up to the release of the lock. -/
def holding : Phase ω → Bool
  | .wake | .interpreter => false
  | _ => true

/-- What the child's registers are at each line, from the parent's at the call. -/
def Reached (e r : Regs ω) : Phase ω → Prop
  | .newcore todo => ∀ w, w ∉ todo → r w = e w
  | .sp => r = e
  | .tp => r = update e (.xpr 2) (e (.xpr 11))
  | .a0 => r = update (update e (.xpr 2) (e (.xpr 11))) (.xpr 4) (e (.xpr 13))
  | .pc => r = update (update (update e (.xpr 2) (e (.xpr 11))) (.xpr 4) (e (.xpr 13))) (.xpr 10) 0
  | .set_tid | .unlock | .wake | .interpreter => r = started e

end Phase

/-- A child that has not let the parent go: it holds the lock, or has only cleared its own copy. -/
def Child.holds (c : Child ω) : Prop := c.phase.holding = true ∨ c.shared = false

structure Inv (s : State ω) : Prop where
  before : ∀ flags, s.parent = .lock flags ∨ s.parent = .clone flags → s.regs = s.ecall ∧ s.child = none
  locked : ∀ flags, s.parent = .clone flags → s.clone_lock = 1
  reached : ∀ c, s.child = some c → c.phase.Reached s.ecall c.newcpu
  held : ∀ c, s.child = some c → c.holds →
    s.parent.looping = true ∧ s.clone_lock = 1 ∧ s.seen c = s.ecall
  released : ∀ c, s.child = some c → ¬c.holds → s.clone_lock = 0
  awake : ∀ c, s.child = some c → ¬c.holds → ∀ retval, s.parent = .asleep retval → c.phase = .wake

theorem inv_start (regs : Regs ω) (clone_lock : BitVec 32) : Inv (State.start regs clone_lock) where
  before flags h := by rcases h with h | h <;> cases h
  locked flags h := by cases h
  reached c h := by cases h
  held c h := by cases h
  released c h := by cases h
  awake c h := by cases h

variable {s : State ω}

namespace Inv

/-- While the lock is being taken there is no child yet. -/
theorem no_child (hinv : Inv s) {flags : Long} (hp : s.parent = .lock flags ∨ s.parent = .clone flags)
    {c : Child ω} : s.child ≠ some c := by
  rw [(hinv.before flags hp).2]
  exact nofun

/-- A parent outside the loop is not held. -/
theorem free (hinv : Inv s) (hp : s.parent.looping = false) {c : Child ω} (hc : s.child = some c) :
    ¬c.holds := by
  intro hh
  have hl := (hinv.held c hc hh).1
  rw [hp] at hl
  cases hl

end Inv

/-- The parent alone moves, inside the loop or out of it when the lock is free. -/
theorem inv_parent_move (hinv : Inv s) {p : Parent}
    (hto : p.looping = true ∨ (s.clone_lock = 0 ∧ ∃ retval, p = .write_reg retval))
    (hsleep : ∀ retval, p = .asleep retval → s.clone_lock = 1) : Inv { s with parent := p } where
  before flags h := by
    rcases hto with hl | ⟨-, retval, hw⟩
    · rcases h with h | h <;> (rw [show p = _ from h] at hl; cases hl)
    · rcases h with h | h <;> (rw [show p = _ from h] at hw; cases hw)
  locked flags h := by
    rcases hto with hl | ⟨-, retval, hw⟩
    · rw [show p = _ from h] at hl
      cases hl
    · rw [show p = _ from h] at hw
      cases hw
  reached := hinv.reached
  held c hc hh := by
    obtain ⟨-, hlock, hseen⟩ := hinv.held c hc hh
    rcases hto with hl | ⟨h0, -⟩
    · exact ⟨hl, hlock, hseen⟩
    · rw [hlock] at h0
      cases h0
  released := hinv.released
  awake c hc hh retval hp := by
    have h0 := hinv.released c hc hh
    have h1 := hsleep retval hp
    rw [h0] at h1
    cases h1

/-- The child goes on before it releases the lock. -/
theorem inv_child_move (hinv : Inv s) {c : Child ω} (hc : s.child = some c) {r : Regs ω} {p : Phase ω}
    (hfrom : c.phase.holding = true) (hto : p.holding = true) (hr : p.Reached s.ecall r) :
    Inv { s with child := some { c with newcpu := r, phase := p } } where
  before flags h := absurd hc (hinv.no_child h)
  locked := hinv.locked
  reached := by
    intro d hd
    obtain rfl := Option.some.inj hd
    exact hr
  held := by
    intro d hd _
    obtain rfl := Option.some.inj hd
    exact hinv.held c hc (Or.inl hfrom)
  released := by
    intro d hd hh
    obtain rfl := Option.some.inj hd
    exact absurd (Or.inl hto) hh
  awake := by
    intro d hd hh
    obtain rfl := Option.some.inj hd
    exact absurd (Or.inl hto) hh

/-- Clearing the lock lets the parent go, if the parent can see it. -/
theorem inv_unlock (hinv : Inv s) {c : Child ω} (hc : s.child = some c) (hp : c.phase = .unlock)
    (hshared : c.shared = true) :
    Inv { s with clone_lock := 0, child := some { c with phase := .wake } } where
  before flags h := absurd hc (hinv.no_child h)
  locked flags h := absurd hc (hinv.no_child (Or.inr h))
  reached := by
    intro d hd
    obtain rfl := Option.some.inj hd
    have hreached := hinv.reached c hc
    rw [hp] at hreached
    exact hreached
  held := by
    intro d hd hh
    obtain rfl := Option.some.inj hd
    rcases hh with h | h
    · cases h
    · exact absurd (hshared.symm.trans h) (by decide)
  released _ _ _ := rfl
  awake := by
    intro d hd _ retval _
    obtain rfl := Option.some.inj hd
    rfl

/-- Without shared memory the child clears its own copy. -/
theorem inv_unlock_private (hinv : Inv s) {c : Child ω} (hc : s.child = some c) (hp : c.phase = .unlock)
    (hprivate : c.shared = false) :
    Inv { s with child := some { c with clone_lock := 0, phase := .wake } } where
  before flags h := absurd hc (hinv.no_child h)
  locked := hinv.locked
  reached := by
    intro d hd
    obtain rfl := Option.some.inj hd
    have hreached := hinv.reached c hc
    rw [hp] at hreached
    exact hreached
  held := by
    intro d hd _
    obtain rfl := Option.some.inj hd
    exact hinv.held c hc (Or.inr hprivate)
  released := by
    intro d hd hh
    obtain rfl := Option.some.inj hd
    exact absurd (Or.inr hprivate) hh
  awake := by
    intro d hd hh
    obtain rfl := Option.some.inj hd
    exact absurd (Or.inr hprivate) hh

/-- After the wake nobody sleeps on a lock that the child has cleared. -/
theorem inv_wake (hinv : Inv s) {c : Child ω} (hc : s.child = some c) (hp : c.phase = .wake)
    (hsleep : c.shared = true → ∀ retval, s.parent ≠ .asleep retval) :
    Inv { s with child := some { c with phase := .interpreter } } where
  before flags h := absurd hc (hinv.no_child h)
  locked := hinv.locked
  reached := by
    intro d hd
    obtain rfl := Option.some.inj hd
    have hreached := hinv.reached c hc
    rw [hp] at hreached
    exact hreached
  held := by
    intro d hd hh
    obtain rfl := Option.some.inj hd
    rcases hh with h | h
    · cases h
    · exact hinv.held c hc (Or.inr h)
  released := by
    intro d hd hh
    obtain rfl := Option.some.inj hd
    refine hinv.released c hc fun hold => hh (Or.inr ?_)
    rcases hold with h | h
    · rw [hp] at h
      cases h
    · exact h
  awake := by
    intro d hd hh retval hasleep
    obtain rfl := Option.some.inj hd
    cases hs : c.shared with
    | true => exact absurd hasleep (hsleep hs retval)
    | false => exact absurd (Or.inr hs) hh

/-- The child's step. -/
theorem inv_childNext (hinv : Inv s) {c : Child ω} (hc : s.child = some c) {s' : State ω}
    (hnext : s.childNext c = some s') : Inv s' := by
  have hreached := hinv.reached c hc
  unfold State.childNext at hnext
  cases hp : c.phase with rw [hp] at hnext hreached
  | newcore todo =>
    have hhold : c.phase.holding = true := by rw [hp]; rfl
    obtain ⟨-, -, hseen⟩ := hinv.held c hc (Or.inl hhold)
    cases todo with
    | nil =>
      obtain rfl := Option.some.inj hnext
      exact inv_child_move hinv hc hhold rfl (funext fun w => hreached w List.not_mem_nil)
    | cons w todo =>
      -- the parent is held, so what it has here is still what it had at the call
      obtain rfl := Option.some.inj hnext
      refine inv_child_move hinv hc hhold rfl ?_
      intro v hv
      by_cases hvw : v = w
      · rw [hvw, Function.update_self, hseen]
      · rw [Function.update_of_ne hvw]
        exact hreached v fun hm => (List.mem_cons.mp hm).elim hvw hv
  | sp =>
    obtain rfl := Option.some.inj hnext
    refine inv_child_move hinv hc (by rw [hp]; rfl) rfl ?_
    rw [show c.newcpu = s.ecall from hreached]
    rfl
  | tp =>
    obtain rfl := Option.some.inj hnext
    refine inv_child_move hinv hc (by rw [hp]; rfl) rfl ?_
    rw [show c.newcpu = _ from hreached, Function.update_of_ne (by simp)]
    rfl
  | a0 =>
    obtain rfl := Option.some.inj hnext
    refine inv_child_move hinv hc (by rw [hp]; rfl) rfl ?_
    rw [show c.newcpu = _ from hreached]
    rfl
  | pc =>
    obtain rfl := Option.some.inj hnext
    refine inv_child_move hinv hc (by rw [hp]; rfl) rfl ?_
    rw [show c.newcpu = _ from hreached, Function.update_of_ne (by simp), Function.update_of_ne (by simp),
      Function.update_of_ne (by simp)]
    rfl
  | set_tid =>
    obtain rfl := Option.some.inj hnext
    exact inv_child_move hinv hc (by rw [hp]; rfl) rfl hreached
  | unlock =>
    simp only at hnext
    split at hnext
    next hs =>
      -- the parent sees the store
      obtain rfl := Option.some.inj hnext
      exact inv_unlock hinv hc hp hs
    next hs =>
      -- `clone_lock` of a copy: the parent's own stays 1
      obtain rfl := Option.some.inj hnext
      exact inv_unlock_private hinv hc hp (Bool.eq_false_iff.mpr hs)
  | wake =>
    simp only at hnext
    split at hnext
    next retval hasleep =>
      -- the wake is two moves, of the parent and then of the child
      split at hnext
      next =>
        obtain rfl := Option.some.inj hnext
        have hmove : Inv { s with parent := .check retval } :=
          inv_parent_move hinv (Or.inl rfl) (by simp)
        exact inv_wake hmove hc hp (by simp)
      next hs =>
        -- nobody sleeps on the child's copy
        obtain rfl := Option.some.inj hnext
        exact inv_wake hinv hc hp fun h => absurd h hs
    next hawake =>
      obtain rfl := Option.some.inj hnext
      exact inv_wake hinv hc hp fun _ retval hasleep => hawake retval hasleep
  | interpreter => cases hnext

/-- The parent's own step. -/
theorem inv_parentNext (hinv : Inv s) {s' : State ω} (hnext : s.parentNext = some s') : Inv s' := by
  unfold State.parentNext at hnext
  cases hp : s.parent with rw [hp] at hnext
  | guest => cases hnext
  | clone flags => cases hnext
  | asleep retval => cases hnext
  | lock flags =>
    -- no child exists yet to read or clear the lock
    obtain rfl := Option.some.inj hnext
    constructor
    · intro _ _
      exact hinv.before flags (Or.inl hp)
    · intro _ _
      rfl
    · exact hinv.reached
    all_goals exact fun c hc => absurd hc (hinv.no_child (Or.inl hp))
  | check retval =>
    simp only at hnext
    split at hnext
    next h0 =>
      -- a lock that reads 0 has been cleared, so no child holds it
      obtain rfl := Option.some.inj hnext
      exact inv_parent_move hinv (Or.inr ⟨h0, retval, rfl⟩) (by simp)
    next =>
      obtain rfl := Option.some.inj hnext
      exact inv_parent_move hinv (Or.inl rfl) (by simp)
  | wait retval =>
    simp only at hnext
    split at hnext
    next h1 =>
      obtain rfl := Option.some.inj hnext
      exact inv_parent_move hinv (Or.inl rfl) fun _ _ => h1
    next =>
      obtain rfl := Option.some.inj hnext
      exact inv_parent_move hinv (Or.inl rfl) (by simp)
  | write_reg retval =>
    obtain rfl := Option.some.inj hnext
    constructor
    · intro flags h
      rcases h with h | h <;> cases h
    · intro flags h
      cases h
    · exact hinv.reached
    · exact fun c hc hh => absurd hh (hinv.free (by rw [hp]; rfl) hc)
    · exact hinv.released
    · intro c hc hh r h
      cases h

variable {layout : List (Word ω)} {fresh : Regs ω}

/-- **One step** keeps the invariant: the parent enters the branch, the host answers `clone` or ends
a sleep, or one of the two takes its own next step. -/
theorem inv_step (hall : ∀ w, w ∈ layout) (hinv : Inv s) {a : Act ω} {s' : State ω}
    (hstep : s.step layout fresh a = some s') : Inv s' := by
  cases a with
  | guest regs =>
    simp only [State.step] at hstep
    split at hstep
    next hp =>
      obtain rfl := Option.some.inj hstep
      constructor
      · intro flags h
        rcases h with h | h <;> exact absurd (hp.symm.trans h) (by simp)
      · exact hinv.locked
      · exact hinv.reached
      · exact fun c hc hh => absurd hh (hinv.free (by rw [hp]; rfl) hc)
      · exact hinv.released
      · exact hinv.awake
    next => cases hstep
  | ecall pc =>
    simp only [State.step] at hstep
    split at hstep
    next hp =>
      obtain rfl := Option.some.inj hstep
      constructor
      · intro _ _
        exact ⟨rfl, rfl⟩
      · intro flags h
        cases h
      all_goals
        intro c hc
        cases hc
    next => cases hstep
  | parent => exact inv_parentNext hinv hstep
  | clone tid =>
    simp only [State.step] at hstep
    split at hstep
    next flags hp =>
      -- the host refuses: `retval` is an error, and the lock stays taken
      obtain rfl := Option.some.inj hstep
      constructor
      · intro flags h
        rcases h with h | h <;> cases h
      · intro flags h
        cases h
      · exact hinv.reached
      · intro c hc
        exact absurd hc (hinv.no_child (Or.inr hp))
      · exact hinv.released
      · intro c hc
        exact absurd hc (hinv.no_child (Or.inr hp))
    next flags tid hp =>
      -- no word has been copied, and the layout misses none
      obtain rfl := Option.some.inj hstep
      obtain ⟨hregs, -⟩ := hinv.before flags (Or.inr hp)
      constructor
      · intro flags h
        rcases h with h | h <;> cases h
      · intro flags h
        cases h
      · intro c hc
        obtain rfl := Option.some.inj hc
        intro w hw
        exact absurd (hall w) hw
      · intro c hc _
        obtain rfl := Option.some.inj hc
        refine ⟨rfl, hinv.locked flags hp, ?_⟩
        unfold State.seen
        split
        · exact hregs
        · exact hregs
      · intro c hc hh
        obtain rfl := Option.some.inj hc
        exact absurd (Or.inl rfl) hh
      · intro c hc hh
        obtain rfl := Option.some.inj hc
        exact absurd (Or.inl rfl) hh
    next => cases hstep
  | interrupt =>
    simp only [State.step] at hstep
    split at hstep
    next retval hp =>
      obtain rfl := Option.some.inj hstep
      exact inv_parent_move hinv (Or.inl rfl) (by simp)
    next => cases hstep
  | child =>
    obtain ⟨c, hc, hnext⟩ := Option.bind_eq_some_iff.mp hstep
    exact inv_childNext hinv hc hnext

theorem inv_run (hall : ∀ w, w ∈ layout) {regs : Regs ω} {clone_lock : BitVec 32} {as : List (Act ω)}
    (hrun : Lib.run (State.step layout fresh) as (State.start regs clone_lock) = some s) : Inv s :=
  Lib.run_invariant (fun _ _ _ _ hinv hstep => inv_step hall hinv hstep) (inv_start regs clone_lock) hrun

theorem copied_of_inv (hinv : Inv s) : Copied s where
  held c hc todo hp := (hinv.held c hc (Or.inl (by rw [hp]; rfl))).1
  started c hc hp := by
    have hreached := hinv.reached c hc
    rw [hp] at hreached
    exact hreached

/-! ## A child on the same memory lets the parent go -/

/-- After the child's wake the parent's own steps lead out of the loop. -/
theorem not_hung_of_shared (hinv : Inv s) (hshared : ∀ c, s.child = some c → c.shared = true) :
    ¬Hung layout fresh s := by
  intro hhung
  obtain ⟨⟨c, hc, hp⟩, hloop⟩ := hhung
  have hfree : ¬c.holds := by
    intro hh
    rcases hh with h | h
    · rw [hp] at h
      cases h
    · exact absurd ((hshared c hc).symm.trans h) (by decide)
  have h0 := hinv.released c hc hfree
  cases hpar : s.parent with
  | check retval =>
    -- one read of the lock leads out
    have hstep : State.step layout fresh s .parent = some { s with parent := .write_reg retval } := by
      simp [State.step, State.parentNext, hpar, h0]
    have hleft := hloop [.parent] _ (by simp [Act.spurious]) (Lib.run_singleton.trans hstep)
    cases hleft
  | wait retval =>
    -- the futex call finds the lock changed and returns at once
    have hrun : Lib.run (State.step layout fresh) [.parent, .parent] s
        = some { s with parent := .write_reg retval } := by
      simp [Lib.run, State.step, State.parentNext, hpar, h0]
    have hleft := hloop _ _ (by simp [Act.spurious]) hrun
    cases hleft
  | asleep retval =>
    -- asleep only while the wake is still to come
    have hwake := hinv.awake c hc hfree retval hpar
    rw [hp] at hwake
    cases hwake
  | guest | lock | clone | write_reg =>
    have hnow := hloop [] s (by simp) rfl
    rw [hpar] at hnow
    cases hnow

/-- A `clone` that the host carries out shares the parent's memory. -/
def sharesMemory (s : State ω) (a : Act ω) : Bool :=
  match s.parent, a with
  | .clone flags, .clone (some _) => flags &&& CLONE_VM != 0
  | _, _ => true

/-! ## A child on a copy does not -/

/-- How far the child is from its loop. -/
def Phase.rank : Phase ω → Nat
  | .newcore todo => todo.length + 8
  | .sp => 7
  | .tp => 6
  | .a0 => 5
  | .pc => 4
  | .set_tid => 3
  | .unlock => 2
  | .wake => 1
  | .interpreter => 0

/-- The child can always take its next step, which brings it nearer to its loop. -/
theorem childNext_some (s : State ω) {c : Child ω} (hp : c.phase.rank ≠ 0) : ∃ s' c',
    s.childNext c = some s' ∧ s'.child = some c' ∧ c'.shared = c.shared ∧
      c'.phase.rank < c.phase.rank := by
  unfold State.childNext
  cases hphase : c.phase with rw [hphase] at hp
  | newcore todo =>
    cases todo with
    | nil => exact ⟨_, _, rfl, rfl, rfl, by simp [Phase.rank]⟩
    | cons w todo => exact ⟨_, _, rfl, rfl, rfl, by simp [Phase.rank]⟩
  | sp | tp | a0 | pc | set_tid => exact ⟨_, _, rfl, rfl, rfl, by simp [Phase.rank]⟩
  | unlock =>
    simp only
    split
    · exact ⟨_, _, rfl, rfl, rfl, by simp [Phase.rank]⟩
    · exact ⟨_, _, rfl, rfl, rfl, by simp [Phase.rank]⟩
  | wake =>
    simp only
    split
    · split
      · exact ⟨_, _, rfl, rfl, rfl, by simp [Phase.rank]⟩
      · exact ⟨_, _, rfl, rfl, rfl, by simp [Phase.rank]⟩
    · exact ⟨_, _, rfl, rfl, rfl, by simp [Phase.rank]⟩
  | interpreter => exact absurd rfl hp

theorem parentNext_child {s' : State ω} (h : s.parentNext = some s') : s'.child = s.child := by
  unfold State.parentNext at h
  split at h <;> (try split at h) <;> cases h <;> rfl

/-- A child keeps the memory it was given. -/
theorem childNext_shared {c : Child ω} {s' : State ω} (h : s.childNext c = some s') :
    ∃ c', s'.child = some c' ∧ c'.shared = c.shared := by
  have hrank : c.phase.rank ≠ 0 := by
    intro hzero
    cases hp : c.phase <;> rw [hp] at hzero <;> cases hzero
    simp [State.childNext, hp] at h
  obtain ⟨t, d, hnext, hd, hshared, -⟩ := childNext_some s hrank
  rw [hnext] at h
  obtain rfl := Option.some.inj h
  exact ⟨d, hd, hshared⟩

/-- Left to itself the child comes to its loop. -/
theorem child_arrives {c : Child ω} (hc : s.child = some c) : ∃ as s' c',
    Lib.run (State.step layout fresh) as s = some s' ∧ s'.child = some c' ∧ c'.phase = .interpreter ∧
      c'.shared = c.shared := by
  -- on the lines that the child has left
  induction hn : c.phase.rank using Nat.strong_induction_on generalizing s c with
  | _ n ih =>
    by_cases hzero : n = 0
    · refine ⟨[], s, c, rfl, hc, ?_, rfl⟩
      rw [hzero] at hn
      cases hp : c.phase <;> rw [hp] at hn <;> first | rfl | cases hn
    · obtain ⟨t, d, hnext, hd, hshared, hlt⟩ := childNext_some s (c := c) (by omega)
      obtain ⟨as, s', c', hrun, hc', hp', hs'⟩ := ih d.phase.rank (by omega) hd rfl
      have hstep : State.step layout fresh s .child = some t := by
        simp only [State.step, hc, Option.bind_some]
        exact hnext
      refine ⟨.child :: as, s', c', ?_, hc', hp', hs'.trans hshared⟩
      rw [Lib.run, hstep]
      exact hrun

/-- The parent waits for a lock that only a child on another memory would clear. -/
structure Stranded (s : State ω) : Prop where
  inv : Inv s
  child : ∃ c, s.child = some c ∧ c.shared = false

theorem stranded_looping (h : Stranded s) : s.parent.looping = true ∧ s.clone_lock = 1 := by
  obtain ⟨c, hc, hs⟩ := h.child
  obtain ⟨hloop, hlock, -⟩ := h.inv.held c hc (Or.inr hs)
  exact ⟨hloop, hlock⟩

/-- Nothing brings a stranded parent out of its loop: the lock that it reads is not the one that the
child has cleared. -/
theorem stranded_step (hall : ∀ w, w ∈ layout) (h : Stranded s) {a : Act ω} {s' : State ω}
    (hstep : s.step layout fresh a = some s') : Stranded s' := by
  refine ⟨inv_step hall h.inv hstep, ?_⟩
  obtain ⟨c, hc, hs⟩ := h.child
  obtain ⟨hloop, hlock⟩ := stranded_looping h
  cases a with
  | guest regs =>
    simp only [State.step] at hstep
    split at hstep
    next hp =>
      rw [hp] at hloop
      cases hloop
    next => cases hstep
  | ecall pc =>
    simp only [State.step] at hstep
    split at hstep
    next hp =>
      rw [hp] at hloop
      cases hloop
    next => cases hstep
  | parent =>
    -- a parent that leaves the loop contradicts the invariant of the next state,
    -- so it is enough that the child stays where it is
    exact ⟨c, (parentNext_child hstep).trans hc, hs⟩
  | clone tid =>
    simp only [State.step] at hstep
    split at hstep
    next hp =>
      rw [hp] at hloop
      cases hloop
    next hp =>
      rw [hp] at hloop
      cases hloop
    next => cases hstep
  | interrupt =>
    simp only [State.step] at hstep
    split at hstep
    next =>
      obtain rfl := Option.some.inj hstep
      exact ⟨c, hc, hs⟩
    next => cases hstep
  | child =>
    simp only [State.step, hc, Option.bind_some] at hstep
    obtain ⟨d, hd, hshared⟩ := childNext_shared hstep
    exact ⟨d, hd, hshared.trans hs⟩

/-- A `clone` without shared memory leads to a parent that hangs. -/
theorem hangs_of_private (hall : ∀ w, w ∈ layout) (hinv : Inv s) {flags : Long}
    (hp : s.parent = .clone flags) (hflags : flags &&& CLONE_VM = 0) (tid : BitVec 32) : ∃ as s',
    Lib.run (State.step layout fresh) (.clone (some tid) :: as) s = some s' ∧ Hung layout fresh s' ∧
      Stuck layout fresh s' := by
  obtain ⟨t, hstep, c, hc, hs⟩ : ∃ t, State.step layout fresh s (.clone (some tid)) = some t ∧
      ∃ c, t.child = some c ∧ c.shared = false := by
    simp only [State.step, hp]
    exact ⟨_, rfl, _, rfl, by simp [hflags]⟩
  have hstranded : Stranded t := ⟨inv_step hall hinv hstep, c, hc, hs⟩
  obtain ⟨as, s', c', hrun, hc', hp', -⟩ : ∃ as s' c', Lib.run (State.step layout fresh) as t = some s' ∧
      s'.child = some c' ∧ c'.phase = .interpreter ∧ c'.shared = c.shared := child_arrives hc
  have hkeep {bs : List (Act ω)} {u v : State ω} (hu : Stranded u)
      (hbs : Lib.run (State.step layout fresh) bs u = some v) : Stranded v :=
    Lib.run_invariant (fun _ _ _ _ h hs => stranded_step hall h hs) hu hbs
  have hs' := hkeep hstranded hrun
  -- the child alone runs up to its loop, and nothing can change after that
  have hstuck : Stuck layout fresh s' := fun bs u hbs => stranded_looping (hkeep hs' hbs)
  refine ⟨as, s', ?_, ⟨⟨c', hc', hp'⟩, ?_⟩, hstuck⟩
  · rw [Lib.run, hstep]
    exact hrun
  · intro bs u _ hbs
    exact (hstuck bs u hbs).1

/-! ## The handshake -/

/-- A step whose `clone`, if it is one, shares memory leaves a child that does. -/
theorem shared_step (hs : ∀ c, s.child = some c → c.shared = true) {a : Act ω} (hC : sharesMemory s a = true)
    {s' : State ω} (hstep : s.step layout fresh a = some s') : ∀ c, s'.child = some c → c.shared = true := by
  cases a with
  | guest regs =>
    simp only [State.step] at hstep
    split at hstep
    next =>
      obtain rfl := Option.some.inj hstep
      exact hs
    next => cases hstep
  | ecall pc =>
    simp only [State.step] at hstep
    split at hstep
    next =>
      obtain rfl := Option.some.inj hstep
      intro c hc
      cases hc
    next => cases hstep
  | parent =>
    intro c hc
    exact hs c ((parentNext_child hstep).symm.trans hc)
  | clone tid =>
    simp only [State.step] at hstep
    split at hstep
    next =>
      obtain rfl := Option.some.inj hstep
      exact hs
    next flags tid hp =>
      obtain rfl := Option.some.inj hstep
      intro c hc
      obtain rfl := Option.some.inj hc
      unfold sharesMemory at hC
      rw [hp] at hC
      exact hC
    next => cases hstep
  | interrupt =>
    simp only [State.step] at hstep
    split at hstep
    next =>
      obtain rfl := Option.some.inj hstep
      exact hs
    next => cases hstep
  | child =>
    obtain ⟨c, hc, hnext⟩ := Option.bind_eq_some_iff.mp hstep
    obtain ⟨d, hd, hshared⟩ := childNext_shared hnext
    intro e he
    obtain rfl := Option.some.inj (hd.symm.trans he)
    exact hshared.trans (hs c hc)

/-- **The handshake.** In every run the child copies before the parent goes on. No reachable
state of a run whose clones share memory has a parent that hangs; a clone that does not
share it leads to one. -/
theorem clone_handshake (hall : ∀ w, w ∈ layout) {regs : Regs ω} {clone_lock : BitVec 32}
    {as : List (Act ω)}
    (hrun : Lib.run (State.step layout fresh) as (State.start regs clone_lock) = some s) :
    Copied s ∧
      (Lib.Along (State.step layout fresh) (sharesMemory · · = true) as (State.start regs clone_lock) →
        ¬Hung layout fresh s) ∧
      ∀ flags, s.parent = .clone flags → flags &&& CLONE_VM = 0 → ∀ tid, ∃ bs s',
        Lib.run (State.step layout fresh) (.clone (some tid) :: bs) s = some s' ∧
          Hung layout fresh s' ∧ Stuck layout fresh s' := by
  have hinv := inv_run hall hrun
  refine ⟨copied_of_inv hinv, fun hC => ?_, fun flags hp hflags tid =>
    hangs_of_private hall hinv hp hflags tid⟩
  have hshared : ∀ c, s.child = some c → c.shared = true :=
    Lib.run_invariant_along (fun _ _ _ hs hC hstep => shared_step hs hC hstep)
      (fun c hc => by cases hc) hC hrun
  exact not_hung_of_shared hinv hshared

/-- The words of the registers that a guest without floating point has. -/
def xprLayout : List (Word Empty) := .pc :: (List.range 32).map fun r => .xpr (BitVec.ofNat 5 r)

theorem mem_xprLayout (w : Word Empty) : w ∈ xprLayout := by
  cases w with
  | pc => exact List.mem_cons_self
  | xpr r =>
    refine List.mem_cons_of_mem _ (List.mem_map.mpr ⟨r.toNat, List.mem_range.mpr r.isLt, ?_⟩)
    rw [BitVec.ofNat_toNat, BitVec.setWidth_eq]
  | rest x => exact x.elim

/-- A guest that asks for a clone with the given flags. -/
def callerRegs (flags : Long) : Regs Empty := fun w => if w = .xpr 10 then flags else 0

/-- The flags of a new thread. The parent falls asleep before the child has copied all. -/
def threadRun : List (Act Empty) :=
  [.ecall 0x1000, .parent, .clone (some 7), .child, .parent, .parent] ++ List.replicate 40 .child ++
    [.parent, .parent]

theorem clone_handshake_thread : ∃ s : State Empty,
    Lib.run (State.step xprLayout fun _ => 0) threadRun (State.start (callerRegs 0x3d0f00) 0) = some s ∧
      Copied s ∧ ¬Hung xprLayout (fun _ => 0) s := by
  have hsome : (Lib.run (State.step xprLayout fun _ => 0) threadRun
      (State.start (callerRegs 0x3d0f00) 0)).isSome = true := by decide +kernel
  obtain ⟨s, hrun⟩ := Option.isSome_iff_exists.mp hsome
  obtain ⟨hcopied, hnot, -⟩ := clone_handshake mem_xprLayout hrun
  exact ⟨s, hrun, hcopied, hnot (by decide +kernel)⟩

/-- A fork: the flags are `SIGCHLD` alone. -/
theorem clone_fork_hangs : ∃ as s,
    Lib.run (State.step xprLayout fun _ => 0) as (State.start (callerRegs 17) 0) = some s ∧
      Hung xprLayout (fun _ => 0) s ∧ Stuck xprLayout (fun _ => 0) s := by
  have hcall : ∃ s, Lib.run (State.step xprLayout fun _ => 0) [.ecall 0x1000, .parent]
      (State.start (callerRegs 17) 0) = some s ∧ s.parent = .clone 17 := ⟨_, rfl, rfl⟩
  obtain ⟨s, hrun, hp⟩ := hcall
  obtain ⟨bs, s', hrest, hhung⟩ :=
    hangs_of_private mem_xprLayout (inv_run mem_xprLayout hrun) hp (by decide) 7
  exact ⟨_, s', Lib.run_append.mpr ⟨s, hrun, hrest⟩, hhung⟩

end Cavatools.Uspike.Clone
