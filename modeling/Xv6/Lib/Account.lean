import Mathlib.Algebra.Order.BigOperators.Group.Finset
import Mathlib.Algebra.Order.Group.Int
import Mathlib.Data.Fintype.BigOperators
import Xv6.Lib.Code
import Xv6.Lib.System

/-!
# Threads that make calls on a shared state

Each thread makes one call after another.  A call is code, and each of its commands is one atomic
step on the shared state; between two commands any other thread may run.  Some commands have more
than one possible outcome, and a step says which (`o : O`).

The reasoning is thread by thread again, as in `Monitor`, but nobody ever has the whole state to
itself.  A thread has a *view* of the state: the part that is its own.  `spec` says what a command
does to the view of the thread that issues it, and asks what has to hold of that view.  Such a set
of rules is `Sound` if a step that the rules allow keeps an invariant of the whole state, does to
the view of its thread what `spec` says, and does the other threads no harm.  Then the invariant
holds in every reachable state, and every thread in the middle of a call is still correct from where
it is (`Sound.of_reach`).
-/

namespace Account

open Code Lts Lts.System Function

variable {P σ C O S : Type} {R : C → Type}

/-! ## The machine -/

/-- What the threads run: `act` is one command, `body` the code of a call, and `ready` says which
threads can make one. -/
structure Machine (P σ C : Type) (R : C → Type) (O S : Type) where
  act : P → (c : C) → O → σ → Option (R c × σ)
  body : S → Code C R Unit
  ready : σ → P → Bool

/-- The shared state, and what is left of the call of each thread. -/
structure State (P σ C : Type) (R : C → Type) where
  shared : σ
  code : P → Code C R Unit

/-- A thread makes a call, or runs the next command of the one it is in. -/
inductive Act (P O S : Type) where
  | call (p : P) (c : S)
  | run (p : P) (o : O)

variable [DecidableEq P]

/-- A step. -/
def Machine.step (M : Machine P σ C R O S) (s : State P σ C R) : Act P O S → Option (State P σ C R)
  | .call p c =>
    match s.code p with
    | .ret () =>
      if M.ready s.shared p then some { s with code := update s.code p (M.body c) } else none
    | .cmd _ _ => none
  | .run p o =>
    match s.code p with
    | .ret () => none
    | .cmd c k =>
      match M.act p c o s.shared with
      | some (r, x) => some ⟨x, update s.code p (k r)⟩
      | none => none

/-- All threads start between two calls, with this shared state. -/
def Machine.system (M : Machine P σ C R O S) (x : σ) : System (State P σ C R) (Act P O S) where
  init := fun s => s = ⟨x, fun _ => .ret ()⟩
  step := M.step

/-! ## The rules -/

/-- What a thread may rely on, and what it has to keep: its `view` of the shared state, the effect
of the commands on it, the views between two calls, and the invariant of the shared state. -/
structure Rules (P σ C : Type) (R : C → Type) (L : Type) where
  view : σ → P → L
  spec : (c : C) → L → (R c → L → Prop) → Prop
  idle : L → Prop
  inv : σ → Prop

variable {L : Type}

/-- A thread with this view of the state, and this code still to run, is correct. -/
abbrev Rules.Correct (A : Rules P σ C R L) (c : Code C R Unit) (l : L) : Prop :=
  wp A.spec c l fun _ => A.idle

/-- The rules fit the machine. -/
structure Rules.Sound (A : Rules P σ C R L) (M : Machine P σ C R O S) : Prop where
  /-- A call that is made is correct. -/
  call : ∀ x p c, A.inv x → M.ready x p = true → A.idle (A.view x p) →
    A.Correct (M.body c) (A.view x p)
  /-- A command that the rules allow does what they say. -/
  step : ∀ x p c o r x' Q, A.inv x → A.spec c (A.view x p) Q → M.act p c o x = some (r, x') →
    A.inv x' ∧ Q r (A.view x' p)
  /-- And it does the others no harm. -/
  others : ∀ x p c o r x' Q q code, A.inv x → A.spec c (A.view x p) Q →
    M.act p c o x = some (r, x') → q ≠ p → A.Correct code (A.view x q) →
      A.Correct code (A.view x' q)

/-- What holds in all states of a run. -/
structure Rules.Holds (A : Rules P σ C R L) (s : State P σ C R) : Prop where
  inv : A.inv s.shared
  correct : ∀ p, A.Correct (s.code p) (A.view s.shared p)

variable {A : Rules P σ C R L} {M : Machine P σ C R O S} {s s' : State P σ C R}

/-- **One step.** -/
theorem Rules.Sound.holds_step (hA : A.Sound M) (h : A.Holds s) {a : Act P O S}
    (hs : M.step s a = some s') : A.Holds s' := by
  cases a with
  | call p c =>
    rw [Machine.step] at hs
    split at hs
    · rename_i hc
      split at hs
      · rename_i hp
        cases hs
        refine ⟨h.inv, fun q => ?_⟩
        by_cases hq : q = p
        · subst hq
          have hidle := h.correct q
          rw [hc] at hidle
          dsimp only
          rw [update_self]
          exact hA.call _ _ c h.inv hp hidle
        · dsimp only
          rw [update_of_ne hq]
          exact h.correct q
      · nomatch hs
    · nomatch hs
  | run p o =>
    rw [Machine.step] at hs
    split at hs
    · nomatch hs
    · rename_i c k hc
      have hp := h.correct p
      rw [hc] at hp
      split at hs
      · rename_i r x hact
        cases hs
        obtain ⟨hinv, hr⟩ := hA.step _ _ _ _ _ _ _ h.inv hp hact
        refine ⟨hinv, fun q => ?_⟩
        by_cases hq : q = p
        · subst hq
          dsimp only
          rw [update_self]
          exact hr
        · dsimp only
          rw [update_of_ne hq]
          exact hA.others _ _ _ _ _ _ _ q _ h.inv hp hact hq (h.correct q)
      · nomatch hs

/-- **A whole run.** -/
theorem Rules.Sound.of_reach (hA : A.Sound M) {x : σ} (hx : A.inv x)
    (hidle : ∀ p, A.idle (A.view x p))
    (hr : (M.system x).Reach Any s) : A.Holds s := by
  refine hr.inv (I := A.Holds) (fun s hs => ?_) fun s a s' h _ hs => hA.holds_step h hs
  obtain rfl := hs
  exact ⟨hx, hidle⟩

/-! ## Counting

What a thread has taken and not given back is a function to the integers. -/

section Counting

variable {A : Type} [DecidableEq A]

/-- One more, or one less, at `a`. -/
def bump (g : A → ℤ) (a : A) (n : ℤ) : A → ℤ :=
  update g a (g a + n)

variable (g : A → ℤ) (a : A)

@[simp] theorem bump_self (n : ℤ) : bump g a n a = g a + n := update_self ..

theorem bump_of_ne {a c : A} (n : ℤ) (h : c ≠ a) : bump g a n c = g c := update_of_ne h ..

theorem bump_apply (n : ℤ) (c : A) : bump g a n c = g c + if c = a then n else 0 := by
  by_cases h : c = a
  · subst h
    rw [bump_self, if_pos rfl]
  · rw [bump_of_ne g n h, if_neg h, add_zero]

@[simp] theorem bump_bump (n m : ℤ) : bump (bump g a n) a m = bump g a (n + m) := by
  funext c
  simp only [bump_apply]
  split <;> omega

@[simp] theorem bump_zero : bump g a 0 = g := by
  funext c
  rw [bump_apply, ite_self, add_zero]

theorem bump_nonneg {a : A} {n : ℤ} (h : ∀ c, 0 ≤ g c) (hn : 0 ≤ g a + n) (c : A) :
    0 ≤ bump g a n c := by
  rw [bump_apply]
  have := h c
  split
  · rename_i hc
    rw [hc]
    exact hn
  · omega

end Counting

theorem le_sum {Q : Type} [Fintype Q] {g : Q → ℤ} (h : ∀ q, 0 ≤ g q) (p : Q) : g p ≤ ∑ q, g q :=
  Finset.single_le_sum (fun q _ => h q) (Finset.mem_univ p)

end Account
