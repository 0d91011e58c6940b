import Mathlib.Data.List.Nodup

/-!
# Redo logging

The idea behind a physical redo log, stated for a store of values of any type.  Part of the store
is *home*; elsewhere there are numbered *slots*.  A list `L` of home addresses — read off whatever
header the system keeps — says that slot `i` holds the value meant for the address `L[i]`.

`Replayable home slot L d T` says that the store `d`, together with the list `L`, determines the
home contents `T`: copying every slot to its address turns the home part of `d` into `T`.  It is
the one notion a crash argument needs, because it holds *before* a commit with the empty list and
the old contents, *after* it with the new list and the new contents, and copying slots home in any
number of attempts never leaves it:

* `Replayable.nil` — nothing logged: the home part of the store is already right;
* `Replayable.update_off` — writes that touch neither home addresses nor slots in use are free;
* `Replayable.commit` — switching to a list whose slots hold the new contents;
* `Replayable.install` — copying one slot home, the step recovery repeats;
* `Replayable.settled` — once all have been copied, the home part is right by itself.
-/

namespace RedoLog

open Function

variable {A V : Type*} {k : Nat}

/-- Copying every slot named by `L` to its address makes the home part of `d` equal to `T`. -/
structure Replayable (home : A → Prop) (slot : Nat → A) (L : List A) (d T : A → V) : Prop where
  /-- Only home addresses are logged. -/
  homes : ∀ a ∈ L, home a
  /-- Every slot in use holds the contents meant for its address. -/
  copies : ∀ i, (h : i < L.length) → d (slot i) = T (L.get ⟨i, h⟩)
  /-- The addresses that are not logged are right already. -/
  rest : ∀ a, home a → a ∉ L → d a = T a

variable {home : A → Prop} {slot : Nat → A} {L : List A} {d T : A → V}

theorem Replayable.nil (h : ∀ a, home a → d a = T a) : Replayable home slot [] d T :=
  ⟨fun _ ha => absurd ha List.not_mem_nil, fun _ h => absurd h (Nat.not_lt_zero _),
    fun a ha _ => h a ha⟩

/-- With nothing logged, the home part of the store is what it determines. -/
theorem Replayable.eq_of_nil (h : Replayable home slot [] d T) {a : A} (ha : home a) : d a = T a :=
  h.rest a ha List.not_mem_nil

/-- Switching to a list whose slots already hold the new contents, the addresses that are not
logged being the same before and after. -/
theorem Replayable.commit {T' : A → V} (h : Replayable home slot [] d T)
    (hhome : ∀ a ∈ L, home a) (hcopies : ∀ i, (h : i < L.length) → d (slot i) = T' (L.get ⟨i, h⟩))
    (hrest : ∀ a, home a → a ∉ L → T a = T' a) : Replayable home slot L d T' :=
  ⟨hhome, hcopies, fun a ha hL => (h.eq_of_nil ha).trans (hrest a ha hL)⟩

variable [DecidableEq A]

/-- A write to an address that is neither home nor a slot in use changes nothing. -/
theorem Replayable.update_off (h : Replayable home slot L d T) {x : A} (hx : ¬ home x)
    (hslot : ∀ i, i < L.length → slot i ≠ x) (v : V) :
    Replayable home slot L (update d x v) T := by
  refine ⟨h.homes, fun i hi => ?_, fun a ha hL => ?_⟩
  · rw [update_of_ne (hslot i hi)]
    exact h.copies i hi
  · rw [update_of_ne (fun he => hx (by rwa [he] at ha))]
    exact h.rest a ha hL

/-- **Copying a slot home is free**, whatever the address held before. -/
theorem Replayable.install (h : Replayable home slot L d T)
    (hoff : ∀ i, i < L.length → ¬ home (slot i)) {i : Nat} (hi : i < L.length) :
    Replayable home slot L (update d (L.get ⟨i, hi⟩) (d (slot i))) T := by
  have hhome : home (L.get ⟨i, hi⟩) := h.homes _ (List.getElem_mem hi)
  refine ⟨h.homes, fun j hj => ?_, fun a ha hL => ?_⟩
  · rw [update_of_ne (fun he => hoff j hj (by rw [he]; exact hhome))]
    exact h.copies j hj
  · rw [update_of_ne (fun he => hL (by rw [he]; exact List.getElem_mem hi))]
    exact h.rest a ha hL

/-- The addresses among the first `k` logged ones have been copied home. -/
def Settled (L : List A) (k : Nat) (d T : A → V) : Prop := ∀ a ∈ L.take k, d a = T a

omit [DecidableEq A] in
theorem settled_zero : Settled L 0 d T := fun a ha => absurd ha (by simp)

/-- Copying slot `k` home settles one more address. -/
theorem Settled.install (hs : Settled L k d T) (h : Replayable home slot L d T) (hk : k < L.length)
    : Settled L (k + 1) (update d (L.get ⟨k, hk⟩) (d (slot k))) T := by
  intro a ha
  by_cases he : a = L.get ⟨k, hk⟩
  · rw [he, update_self]
    exact h.copies k hk
  · rw [update_of_ne he]
    rw [List.take_add_one, List.mem_append] at ha
    rcases ha with ha | ha
    · exact hs a ha
    · rw [List.getElem?_eq_getElem hk] at ha
      exact absurd (by simpa using ha) he

omit [DecidableEq A] in
/-- Once every slot has been copied, the home part of the store is right by itself. -/
theorem Replayable.settled (h : Replayable home slot L d T) (hs : Settled L k d T)
    (hk : L.length ≤ k) {a : A} (ha : home a) : d a = T a := by
  by_cases hL : a ∈ L
  · exact hs a (by rwa [List.take_of_length_le hk])
  · exact h.rest a ha hL

end RedoLog
