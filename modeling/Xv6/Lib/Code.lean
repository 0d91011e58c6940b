import Mathlib.Logic.Function.Basic

/-!
# Code as trees of commands

A piece of kernel code is a tree: it has returned, or it issues a *command* and goes on with the
answer.  `C` is the type of commands and `R c` the type of the answers to `c`.  What a command
does is not said here.  The same code is run by a machine in which many threads take turns, and by
a function that runs it to the end with nobody else around.

* `Code` is a monad, so code is written with `do`.
* `Code.wp spec` computes, from a specification of the single commands over some type of states,
  the condition under which a whole piece of code meets a postcondition.  `spec c s Q` is what has
  to hold in `s` for the command `c` to be allowed and to establish `Q`.
* `Code.exec h` runs code with a function `h` that answers every command; `Code.wp_specOf_iff`
  connects the two.
-/

/-- Code that issues commands `c : C`, receives answers in `R c` and returns an `α`. -/
inductive Code (C : Type) (R : C → Type) (α : Type) : Type
  | ret (a : α)
  | cmd (c : C) (k : R c → Code C R α)

namespace Code

variable {C : Type} {R : C → Type} {α β σ ε : Type}
variable {x : Code C R α}

/-- Run `x`, then `f` on what it returned. -/
def bind (x : Code C R α) (f : α → Code C R β) : Code C R β :=
  match x with
  | .ret a => f a
  | .cmd c k => .cmd c fun r => bind (k r) f

instance : Monad (Code C R) where
  pure := .ret
  bind := bind

/-- Issue a single command. -/
def call (c : C) : Code C R (R c) := .cmd c .ret

@[simp] theorem pure_eq (a : α) : (pure a : Code C R α) = .ret a := rfl

@[simp] theorem ret_bind (a : α) (f : α → Code C R β) : (Code.ret a >>= f) = f a := rfl

@[simp] theorem cmd_bind (c : C) (k : R c → Code C R α) (f : α → Code C R β) :
    (Code.cmd c k >>= f) = .cmd c fun r => k r >>= f := rfl

/-- What the code has returned, if it has. -/
def value : Code C R α → Option α
  | .ret a => some a
  | .cmd _ _ => none

theorem eq_ret_of_value {a : α} (h : x.value = some a) : x = .ret a := by
  cases x with
  | ret b => rw [Option.some.inj h]
  | cmd c k => nomatch h

/-! ## Weakest preconditions -/

/-- The condition on the state under which `x` only issues commands that `spec` allows and returns
with the postcondition `Q`. -/
def wp (spec : (c : C) → σ → (R c → σ → Prop) → Prop) :
    Code C R α → σ → (α → σ → Prop) → Prop
  | .ret a, s, Q => Q a s
  | .cmd c k, s, Q => spec c s fun r s' => wp spec (k r) s' Q

/-- A specification of the commands in which a stronger postcondition needs more. -/
def Monotone (spec : (c : C) → σ → (R c → σ → Prop) → Prop) : Prop :=
  ∀ c s (Q Q' : R c → σ → Prop), (∀ r s', Q r s' → Q' r s') → spec c s Q → spec c s Q'

variable {spec : (c : C) → σ → (R c → σ → Prop) → Prop}

@[simp] theorem wp_ret (a : α) (s : σ) (Q : α → σ → Prop) : wp spec (.ret a) s Q ↔ Q a s := Iff.rfl

@[simp] theorem wp_cmd (c : C) (k : R c → Code C R α) (s : σ) (Q : α → σ → Prop) :
    wp spec (.cmd c k) s Q ↔ spec c s fun r s' => wp spec (k r) s' Q := Iff.rfl

/-- The rule of consequence. -/
theorem wp_mono (hm : Monotone spec) :
    ∀ {s : σ} {Q Q' : α → σ → Prop}, (∀ a s', Q a s' → Q' a s') → wp spec x s Q →
      wp spec x s Q' := by
  induction x with
  | ret a => intro s Q Q' h hx; exact h a s hx
  | cmd c k ih => intro s Q Q' h hx; exact hm c s _ _ (fun r s' => ih r h) hx

/-- The rule of sequencing. -/
theorem wp_bind (hm : Monotone spec) {f : α → Code C R β} :
    ∀ {s : σ} {Q : β → σ → Prop}, wp spec x s (fun a s' => wp spec (f a) s' Q) →
      wp spec (x >>= f) s Q := by
  induction x with
  | ret a => intro s Q h; exact h
  | cmd c k ih => intro s Q h; exact hm c s _ _ (fun r s' => ih r) h

/-- Code that keeps to a specification keeps to a weaker one. -/
theorem wp_imp {spec' : (c : C) → σ → (R c → σ → Prop) → Prop} (hm : Monotone spec)
    (h : ∀ c s Q, spec c s Q → spec' c s Q) :
    ∀ {s : σ} {Q : α → σ → Prop}, wp spec x s Q → wp spec' x s Q := by
  induction x with
  | ret a => exact id
  | cmd c k ih => intro s Q hx; exact h c s _ (hm c s _ _ (fun r s' => ih r) hx)

/-! ## Replacing commands by code -/

section Interp

variable {C' : Type} {R' : C' → Type}

/-- Run code for other commands, with a piece of code for each of them. -/
def interp (h : (c : C') → Code C R (R' c)) : Code C' R' α → Code C R α
  | .ret a => .ret a
  | .cmd c k => h c >>= fun r => interp h (k r)

/-- What replaces the commands has to meet their specification. -/
theorem wp_interp {σ' : Type} {spec' : (c : C') → σ' → (R' c → σ' → Prop) → Prop}
    (hm : Monotone spec) {h : (c : C') → Code C R (R' c)} {r : σ' → σ → Prop}
    (hh : ∀ c x s (Q : R' c → σ' → Prop), r x s → spec' c x Q →
      wp spec (h c) s fun a s' => ∃ x', r x' s' ∧ Q a x') {y : Code C' R' α} :
    ∀ {x : σ'} {s : σ} {Q : α → σ' → Prop}, r x s → wp spec' y x Q →
      wp spec (interp h y) s fun a s' => ∃ x', r x' s' ∧ Q a x' := by
  induction y with
  | ret a => intro x s Q hr hy; exact ⟨x, hr, hy⟩
  | cmd c k ih =>
    intro x s Q hr hy
    refine wp_bind hm (wp_mono hm ?_ (hh c x s _ hr hy))
    rintro a s' ⟨x', hr', hk⟩
    exact ih a hr' hk

end Interp

/-! ## Running code to the end -/

/-- Run code with a function that answers each command. -/
def exec (h : (c : C) → σ → Except ε (R c × σ)) : Code C R α → σ → Except ε (α × σ)
  | .ret a, s => .ok (a, s)
  | .cmd c k, s =>
    match h c s with
    | .ok (r, s') => exec h (k r) s'
    | .error e => .error e

theorem exec_bind (h : (c : C) → σ → Except ε (R c × σ)) (x : Code C R α) (f : α → Code C R β) :
    ∀ s, exec h (x >>= f) s = (exec h x s).bind fun r => exec h (f r.1) r.2 := by
  induction x with
  | ret a => intro s; rfl
  | cmd c k ih =>
    intro s
    rw [cmd_bind, exec, exec]
    cases h c s with
    | ok r => exact ih r.1 r.2
    | error e => rfl

/-- What a function that answers commands does, as a specification: an error has to be one of the
tolerated ones. -/
def specOf (h : (c : C) → σ → Except ε (R c × σ)) (E : ε → Prop) (c : C) (s : σ)
    (Q : R c → σ → Prop) : Prop :=
  match h c s with
  | .ok (r, s') => Q r s'
  | .error e => E e

theorem monotone_specOf (h : (c : C) → σ → Except ε (R c × σ)) (E : ε → Prop) :
    Monotone (specOf h E) := by
  intro c s Q Q' hQ hs
  rw [specOf] at hs ⊢
  split
  · rename_i r s' heq
    rw [heq] at hs
    exact hQ r s' hs
  · rename_i e heq
    rw [heq] at hs
    exact hs

section Exec

variable {h : (c : C) → σ → Except ε (R c × σ)} {E E' : ε → Prop}

/-- Code meets its postcondition if it does so when it is run, or ends in a tolerated error. -/
theorem wp_specOf_iff : ∀ {s : σ} {Q : α → σ → Prop}, wp (specOf h E) x s Q ↔
    match exec h x s with
    | .ok (a, s') => Q a s'
    | .error e => E e := by
  induction x with
  | ret a => exact Iff.rfl
  | cmd c k ih =>
    intro s Q
    rw [wp_cmd, specOf, exec]
    cases h c s with
    | ok rs => exact ih rs.1
    | error e => exact Iff.rfl

/-- A function that answers commands has one answer, so postconditions can be put together. -/
theorem wp_specOf_and {s : σ} {Q Q' : α → σ → Prop} (hx : wp (specOf h E) x s Q)
    (hx' : wp (specOf h E') x s Q') : wp (specOf h E) x s fun a s' => Q a s' ∧ Q' a s' := by
  rw [wp_specOf_iff] at hx hx' ⊢
  cases hr : exec h x s with
  | ok r =>
    rw [hr] at hx hx'
    exact ⟨hx, hx'⟩
  | error e => rwa [hr] at hx

/-- More errors may be tolerated. -/
theorem wp_specOf_mono {s : σ} {Q : α → σ → Prop} (hE : ∀ e, E e → E' e)
    (hx : wp (specOf h E) x s Q) : wp (specOf h E') x s Q := by
  rw [wp_specOf_iff] at hx ⊢
  cases hr : exec h x s with
  | ok r => rwa [hr] at hx
  | error e => exact hE e (by rwa [hr] at hx)

end Exec

end Code
