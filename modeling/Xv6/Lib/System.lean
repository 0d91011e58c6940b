import Mathlib.Algebra.BigOperators.Group.Finset.Basic
import Mathlib.Algebra.GroupWithZero.Nat
import Mathlib.Data.Fintype.EquivFin

/-!
# Guarded transition systems

A *system* is a set of initial states together with a partial step function: `step s a` is where
the action `a` leads from `s`, and `none` when `a` is not enabled there.  Nothing here knows what
the states are; the kernel models instantiate it.

* `System.Reach ok s` — `s` is the end of a run **all of whose steps satisfy `ok`**.  With
  `ok := Any` this is plain reachability.  A property that only holds while some step is never
  taken is stated over the smaller set of runs, with the missing step spelled out by `ok`.
* `System.Reach.inv` — the invariant rule, with the condition on the steps available in the step
  case.
* `System.exec` replays a list of actions, so a concrete run can be checked by evaluation, and
  `System.reach_of_exec` says that what it arrives at is reachable.

The second half counts the indices at which a function on a finite type satisfies a test, and sums
over them.  That is how a counter kept in a shared record is compared with the processes it counts,
one `update` at a time.
-/

namespace Lts

open Finset

open Function (update)

/-! In concrete runs processes are numerals in `Fin 1`, `Fin 2` and `Fin 3`, which take these
instances: with them the numerals do not depend on what else is imported. -/

instance neZero_one : NeZero 1 := ⟨by decide⟩

instance neZero_two : NeZero 2 := ⟨by decide⟩

instance neZero_three : NeZero 3 := ⟨by decide⟩

/-- A labelled transition system given by a partial step function. -/
structure System (σ α : Type*) where
  /-- The states a run may start in. -/
  init : σ → Prop
  /-- Where an action leads, if it is enabled. -/
  step : σ → α → Option σ

namespace System

variable {σ α : Type*} {I : σ → Prop} {as : List α} {s : σ}

/-- No condition on the steps of a run. -/
def Any (_ : σ) (_ : α) : Prop := True

/-- The states at the end of a run all of whose steps satisfy `ok`. -/
inductive Reach (M : System σ α) (ok : σ → α → Prop) : σ → Prop
  | init {s : σ} (h : M.init s) : Reach M ok s
  | step {s s' : σ} {a : α} (h : Reach M ok s) (ha : ok s a) (hs : M.step s a = some s') :
      Reach M ok s'

variable {M : System σ α} {ok ok' : σ → α → Prop}

/-- **The invariant rule.**  What holds initially and is kept by every step that satisfies `ok`
holds at the end of every run whose steps all do. -/
theorem Reach.inv (h0 : ∀ s, M.init s → I s)
    (hstep : ∀ s a s', I s → ok s a → M.step s a = some s' → I s') (h : Reach M ok s) : I s := by
  induction h with
  | init h => exact h0 _ h
  | step _ ha hs ih => exact hstep _ _ _ ih ha hs

/-- A weaker condition on the steps reaches more. -/
theorem Reach.mono (hok : ∀ s a, ok s a → ok' s a) (h : Reach M ok s) : Reach M ok' s := by
  induction h with
  | init h => exact Reach.init h
  | step _ ha hs ih => exact ih.step (hok _ _ ha) hs

/-- Replay a list of actions; `none` as soon as one is not enabled. -/
def exec (M : System σ α) : σ → List α → Option σ
  | s, [] => some s
  | s, a :: as =>
    match M.step s a with
    | none => none
    | some s' => exec M s' as

/-- Replay a list of actions, refusing those that do not satisfy the test `ok`. -/
def execOk (M : System σ α) (ok : σ → α → Bool) : σ → List α → Option σ
  | s, [] => some s
  | s, a :: as =>
    if ok s a then
      match M.step s a with
      | none => none
      | some s' => execOk M ok s' as
    else none

/-- A replayed run stays inside the reachable states. -/
theorem reach_of_execOk {t : σ → α → Bool} :
    ∀ {s s' : σ}, Reach M (fun s a => t s a = true) s → M.execOk t s as = some s' →
      Reach M (fun s a => t s a = true) s' := by
  induction as with
  | nil =>
    intro s s' h he
    rw [execOk, Option.some.injEq] at he
    exact he ▸ h
  | cons a as ih =>
    intro s s' h he
    rw [execOk] at he
    split at he
    · rename_i hok
      split at he
      · nomatch he
      · rename_i s1 hs
        exact ih (h.step hok hs) he
    · nomatch he

/-- What every step keeps, a replayed run keeps. -/
theorem exec_inv (hstep : ∀ s a s', I s → M.step s a = some s' → I s') :
    ∀ {s s' : σ}, I s → M.exec s as = some s' → I s' := by
  induction as with
  | nil =>
    intro s s' h he
    rw [exec, Option.some.injEq] at he
    exact he ▸ h
  | cons a as ih =>
    intro s s' h he
    rw [exec] at he
    split at he
    · nomatch he
    · rename_i s1 hs
      exact ih (hstep _ _ _ h hs) he

/-- A replayed run stays inside the reachable states. -/
theorem reach_of_exec {s' : σ} (h : Reach M Any s) (he : M.exec s as = some s') : Reach M Any s' :=
  exec_inv (fun _ _ _ h hs => h.step trivial hs) h he

instance (s : σ) (a : α) : Decidable (Any s a) := .isTrue trivial

/-- What a replayed run arrives at can be shown by evaluation. -/
theorem Reach.replay [∀ s a, Decidable (ok s a)] {p : σ → Prop} [DecidablePred p] (h : Reach M ok s)
    (as : List α)
    (hp : (M.execOk (fun s a => decide (ok s a)) s as).any (fun s => decide (p s)) = true) :
    ∃ s', Reach M ok s' ∧ p s' := by
  obtain ⟨s', hs, hp⟩ := (Option.any_eq_true ..).mp hp
  have h' := reach_of_execOk (h.mono fun _ _ => decide_eq_true) hs
  exact ⟨s', h'.mono fun _ _ => of_decide_eq_true, of_decide_eq_true hp⟩

end System

/-! ## Counting the indices that pass a test -/

section Count

variable {ι β : Type*} [Fintype ι] {f : ι → β} {i : ι} {t : β → Bool} {x : β}

/-- How many indices `f` sends to a value that passes the test `t`. -/
def count (t : β → Bool) (f : ι → β) : Nat := (univ.filter fun i => t (f i) = true).card

theorem count_eq_zero : count t f = 0 ↔ ∀ i, t (f i) = false := by
  simp [count, filter_eq_empty_iff]

theorem count_pos (h : t (f i) = true) : 0 < count t f :=
  card_pos.mpr ⟨i, by simpa using h⟩

theorem count_congr {g : ι → β} (h : ∀ i, t (f i) = t (g i)) : count t f = count t g := by
  simp only [count, h]

theorem count_le_card (t : β → Bool) (f : ι → β) : count t f ≤ Fintype.card ι :=
  (card_filter_le _ _).trans_eq card_univ

variable [DecidableEq ι]

/-- Replacing a value by one the test treats alike changes nothing. -/
theorem count_update_same (h : t x = t (f i)) : count t (update f i x) = count t f := by
  refine count_congr fun j => ?_
  by_cases hj : j = i
  · subst hj; simpa using h
  · rw [Function.update_of_ne hj]

/-- Replacing a value that fails the test by one that passes it adds one. -/
theorem count_update_in (hf : t (f i) = false) (hx : t x = true) :
    count t (update f i x) = count t f + 1 := by
  have hset : (univ.filter fun j => t (update f i x j) = true)
      = insert i (univ.filter fun j => t (f j) = true) := by
    ext j
    by_cases hj : j = i
    · subst hj; simp [hx]
    · simp [hj]
  rw [count, hset, card_insert_of_notMem (by simp [hf]), count]

/-- Replacing a value that passes the test by one that fails it takes one away. -/
theorem count_update_out (hf : t (f i) = true) (hx : t x = false) :
    count t (update f i x) + 1 = count t f := by
  have h := count_update_in (f := update f i x) (i := i) (x := f i) (t := t)
    (by simpa using hx) hf
  rw [Function.update_idem, Function.update_eq_self] at h
  exact h.symm

/-- The three cases in one equation. -/
theorem count_update :
    count t (update f i x) + (if t (f i) then 1 else 0) =
      count t f + if t x then 1 else 0 := by
  cases hf : t (f i) <;> cases hx : t x
  · rw [count_update_same (hx.trans hf.symm)]
  · simp [count_update_in hf hx]
  · simp [count_update_out hf hx]
  · rw [count_update_same (hx.trans hf.symm)]

end Count

/-- A sum over finitely many indices, when the value at one of them is replaced. -/
theorem sum_update {ι β M : Type*} [DecidableEq ι] [AddCommMonoid M] {t : Finset ι} {f : β → M}
    {x : ι → β} {i : ι} {y : β} (hi : i ∈ t) :
    ∑ j ∈ t, f (update x i y j) + f (x i) = ∑ j ∈ t, f (x j) + f y := by
  have hrest : ∑ j ∈ t.erase i, f (update x i y j) = ∑ j ∈ t.erase i, f (x j) :=
    sum_congr rfl fun j hj => by rw [Function.update_of_ne (ne_of_mem_erase hj)]
  rw [← add_sum_erase t _ hi, ← add_sum_erase t (fun j => f (x j)) hi, hrest,
    Function.update_self, add_right_comm, add_comm (f y), add_right_comm, add_comm (f (x i))]

/-- The same for values that can be subtracted: two functions that differ at one index only. -/
theorem sum_eq_of_ne {ι M : Type*} [Fintype ι] [DecidableEq ι] [AddCommGroup M]
    {f g : ι → M} (i : ι)
    (h : ∀ j, j ≠ i → g j = f j) : ∑ j, g j = ∑ j, f j + (g i - f i) := by
  have hg : g = update f i (g i) := by
    funext j
    by_cases hj : j = i
    · rw [hj, Function.update_self]
    · rw [Function.update_of_ne hj, h j hj]
  have := sum_update (f := id) (x := f) (y := g i) (mem_univ i)
  rw [← hg] at this
  rw [← add_sub_assoc, eq_sub_iff_add_eq]
  exact this

end Lts
