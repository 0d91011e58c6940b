import Xv6.Lib.Code
import Xv6.Lib.System

/-!
# Threads that share a state under one lock

Threads run code that takes a lock, works on a shared state, and gives the lock back.  Between two
commands any other thread may run, and nothing in the machine stops a thread from touching the
shared state without the lock: that is for the code to get right.

The reasoning is thread by thread.  An invariant `J x g` ties the shared state `x` to what the
threads say about themselves, `g p` for the thread `p`.  `spec` is how the commands look to one
thread: when it gets the lock, it finds some shared state with the invariant, in which its own `g p`
is what it was; when it gives the lock back, the invariant has to hold, and `g p` may be another
one.  In between it is alone.  If the code of every thread is correct in that sense (`Code.wp`), the
invariant holds in all states in which the lock is free (`Holds.of_reach`).
-/

namespace Monitor

open Code Lts Lts.System
open Function (update)

/-! ## The machine -/

/-- The commands of a thread; `op` is one on the shared state. -/
inductive Cmd (C : Type) where
  | acquire
  | release
  | op (c : C)

/-- What a command answers. -/
abbrev Ans {C : Type} (R : C → Type) : Cmd C → Type
  | .op c => R c
  | _ => Unit

/-- The code of a thread. -/
abbrev Prog (C : Type) (R : C → Type) (α : Type) := Code (Cmd C) (Ans R) α

section Machine

variable {P σ C α : Type} {R : C → Type}

def acquire : Prog C R Unit := Code.call Cmd.acquire
def release : Prog C R Unit := Code.call Cmd.release
def op (c : C) : Prog C R (R c) := Code.call (Cmd.op c)

/-- The state of the machine. -/
structure State (P σ C : Type) (R : C → Type) (α : Type) where
  lock : Option P
  shared : σ
  code : P → Prog C R α

variable [DecidableEq P]

/-- The next command of the thread `p`.  It waits for the lock; an operation without an answer never
ends. -/
def State.step (act : (c : C) → σ → Option (R c × σ)) (s : State P σ C R α) (p : P) :
    Option (State P σ C R α) :=
  match s.code p with
  | .ret _ => none
  | .cmd .acquire k =>
    if s.lock = none then some { s with lock := some p, code := update s.code p (k ()) }
    else none
  | .cmd .release k =>
    if s.lock = some p then some { s with lock := none, code := update s.code p (k ()) }
    else none
  | .cmd (.op c) k =>
    match act c s.shared with
    | some (r, x) => some { s with shared := x, code := update s.code p (k r) }
    | none => none

/-- The threads start with this shared state and this code. -/
def machine (act : (c : C) → σ → Option (R c × σ)) (x : σ) (code : P → Prog C R α) :
    System (State P σ C R α) P where
  init := fun s => s = ⟨none, x, code⟩
  step := State.step act

end Machine

/-! ## One thread -/

/-- Where a thread is: outside, or with the lock, and then it sees the shared state. -/
inductive Mode (P σ L : Type) where
  | out (l : L)
  | inside (g : P → L) (x : σ)

section Logic

variable {P σ C α L : Type} {R : C → Type} [DecidableEq P]
  (act : (c : C) → σ → Option (R c × σ)) (free : C → Prop) (J : σ → (P → L) → Prop)

/-- The commands as the thread `p` sees them.  Operations that are `free` do not touch the shared
state. -/
def spec (p : P) : (c : Cmd C) → Mode P σ L → (Ans R c → Mode P σ L → Prop) → Prop
  | .acquire, .out l, Q => ∀ g x, J x g → g p = l → Q () (.inside g x)
  | .release, .inside g x, Q => ∃ l, J x (update g p l) ∧ Q () (.out l)
  | .op c, .inside g x, Q => ∀ r x', act c x = some (r, x') → Q r (.inside g x')
  | .op c, .out l, Q => free c ∧ ∀ r, Q r (.out l)
  | _, _, _ => False

theorem monotone_spec (p : P) : Code.Monotone (spec (R := R) act free J p) := by
  intro c m Q Q' hQ
  cases c <;> cases m <;> simp only [spec] <;> gcongr <;> exact hQ _ _

/-- The thread returns outside, and then `post` holds. -/
def returns (post : α → L → Prop) (a : α) : Mode P σ L → Prop
  | .out l => post a l
  | .inside _ _ => False

/-- The code of the thread `p`, run from `m`, is correct and returns with `post`. -/
abbrev Correct (p : P) (c : Prog C R α) (m : Mode P σ L) (post : α → L → Prop) : Prop :=
  wp (spec act free J p) c m (returns post)

/-! ## All threads -/

/-- Every thread is correct from where it is, and if the lock is free, the invariant holds. -/
structure Holds (post : P → α → L → Prop) (s : State P σ C R α) (g : P → L) : Prop where
  idle : s.lock = none → J s.shared g
  out : ∀ p, s.lock ≠ some p → Correct act free J p (s.code p) (.out (g p)) (post p)
  inside : ∀ p, s.lock = some p → Correct act free J p (s.code p) (.inside g s.shared) (post p)

variable {act free J} {post : P → α → L → Prop} {s s' : State P σ C R α} {g : P → L}

/-- Only the thread that runs has other code afterwards. -/
theorem Holds.others {p : P} (h : Holds act free J post s g) {c : Prog C R α} {g' : P → L}
    (hg : ∀ q, q ≠ p → g' q = g q) {q : P} (hq : q ≠ p) (hl : s.lock ≠ some q) :
    Correct act free J q (update s.code p c q) (.out (g' q)) (post q) := by
  rw [Function.update_of_ne hq, hg q hq]
  exact h.out q hl

/-- **One step.** -/
theorem Holds.step (hfree : ∀ c x r x', free c → act c x = some (r, x') → x' = x)
    (h : Holds act free J post s g) {p : P} (hs : s.step act p = some s') :
    ∃ g', Holds act free J post s' g' := by
  rw [State.step.eq_def] at hs
  split at hs
  · nomatch hs
  · -- the lock is taken
    rename_i k hc
    split at hs
    · rename_i hl
      cases hs
      have hp := h.out p (by rw [hl]; nofun)
      rw [hc] at hp
      refine ⟨g, nofun, fun q hq => ?_, fun q hq => ?_⟩
      · have hqp : q ≠ p := fun he => hq (by rw [he])
        exact h.others (fun _ _ => rfl) hqp (by rw [hl]; nofun)
      · cases hq
        dsimp only
        rw [Function.update_self]
        exact hp g s.shared (h.idle hl) rfl
    · nomatch hs
  · -- and given back
    rename_i k hc
    split at hs
    · rename_i hl
      cases hs
      have hp := h.inside p hl
      rw [hc] at hp
      obtain ⟨l, hJ, hp⟩ := hp
      refine ⟨update g p l, fun _ => hJ, fun q _ => ?_, nofun⟩
      by_cases hqp : q = p
      · subst hqp
        dsimp only
        rw [Function.update_self, Function.update_self]
        exact hp
      · refine h.others (fun q hq => Function.update_of_ne hq ..) hqp ?_
        rw [hl]
        exact fun he => hqp (Option.some.inj he).symm
    · nomatch hs
  · rename_i c k hc
    split at hs
    · rename_i r x hact
      cases hs
      by_cases hl : s.lock = some p
      · -- by the thread that has the lock
        have hp := h.inside p hl
        rw [hc] at hp
        refine ⟨g, fun hn => absurd (hn.symm.trans hl) nofun, fun q hq => ?_, fun q hq => ?_⟩
        · exact h.others (fun _ _ => rfl) (fun he => hq (by rw [he, ← hl])) hq
        · obtain rfl := Option.some.inj (hq.symm.trans hl)
          dsimp only
          rw [Function.update_self]
          exact hp r x hact
      · -- by another one, which leaves the shared state alone
        have hp := h.out p hl
        rw [hc] at hp
        obtain rfl := hfree c _ r x hp.1 hact
        refine ⟨g, h.idle, fun q hq => ?_, fun q hq => ?_⟩
        · by_cases hqp : q = p
          · subst hqp
            dsimp only
            rw [Function.update_self]
            exact hp.2 r
          · exact h.others (fun _ _ => rfl) hqp hq
        · have hqp : q ≠ p := fun he => hl (by rw [← he]; exact hq)
          dsimp only
          rw [Function.update_of_ne hqp]
          exact h.inside q hq
    · nomatch hs

/-- **A whole run.**  If the threads are correct to begin with, they are in every state. -/
theorem Holds.of_reach {x : σ} {code : P → Prog C R α}
    (hfree : ∀ c x r x', free c → act c x = some (r, x') → x' = x) (hJ : J x g)
    (hcode : ∀ p, Correct act free J p (code p) (.out (g p)) (post p))
    (hr : (machine act x code).Reach Any s) : ∃ g', Holds act free J post s g' := by
  refine hr.inv (I := fun s => ∃ g', Holds act free J post s g') (fun s hs => ?_) ?_
  · obtain rfl := hs
    exact ⟨g, fun _ => hJ, fun p _ => hcode p, nofun⟩
  · rintro s p s' ⟨g, h⟩ - hs
    exact h.step hfree hs

/-- When all threads have returned, the lock is free. -/
theorem Holds.returned (h : Holds act free J post s g) {r : P → α}
    (hret : ∀ p, s.code p = .ret (r p)) : J s.shared g ∧ ∀ p, post p (r p) (g p) := by
  have hl : s.lock = none := by
    cases hp : s.lock with
    | none => rfl
    | some p =>
      have := h.inside p hp
      rw [hret] at this
      exact this.elim
  refine ⟨h.idle hl, fun p => ?_⟩
  have := h.out p (by rw [hl]; nofun)
  rw [hret] at this
  exact this

end Logic

end Monitor
