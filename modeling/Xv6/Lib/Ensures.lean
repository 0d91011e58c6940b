import Mathlib.Logic.Basic

/-!
# Total correctness of programs with a state and a panic

`Ensures m s Q` says that `m`, started in the state `s`, returns (it does not throw) with a value
and a state that satisfy `Q`.
-/

variable {σ ε α β : Type}

section Run

variable {m : StateT σ (Except ε) α} {f : α → StateT σ (Except ε) β} {a : α} {s t : σ}

theorem bind_ok (h : m s = .ok (a, t)) : (m >>= f) s = f a t := by
  change (m s >>= fun x => f x.1 x.2) = _
  rw [h]
  rfl

@[simp] theorem get_bind (f : σ → StateT σ (Except ε) β) : (get >>= f) s = f s s := rfl

@[simp] theorem modify_bind (g : σ → σ) (f : Unit → StateT σ (Except ε) β) :
    (modify g >>= f) s = f () (g s) := rfl

@[simp] theorem pure_run : (pure a : StateT σ (Except ε) α) s = .ok (a, s) := rfl

end Run

/-- From `s`, `m` returns with a value and a state that satisfy `Q`. -/
def Ensures (m : StateT σ (Except ε) α) (s : σ) (Q : α → σ → Prop) : Prop :=
  ∃ a t, m s = .ok (a, t) ∧ Q a t

namespace Ensures

variable {m : StateT σ (Except ε) α} {s : σ} {Q : α → σ → Prop}

theorem mono {Q' : α → σ → Prop} (h : Ensures m s Q) (hq : ∀ a t, Q a t → Q' a t) :
    Ensures m s Q' :=
  let ⟨a, t, e, ha⟩ := h; ⟨a, t, e, hq a t ha⟩

theorem pure {a : α} (h : Q a s) : Ensures (pure a : StateT σ (Except ε) α) s Q := ⟨a, s, rfl, h⟩

theorem bind {f : α → StateT σ (Except ε) β} {Q' : β → σ → Prop} (h : Ensures m s Q)
    (hf : ∀ a t, Q a t → Ensures (f a) t Q') : Ensures (m >>= f) s Q' := by
  obtain ⟨a, t, e, ha⟩ := h
  obtain ⟨b, u, e', hb⟩ := hf a t ha
  exact ⟨b, u, (bind_ok e).trans e', hb⟩

theorem step {a : α} {t : σ} {f : α → StateT σ (Except ε) β} {Q : β → σ → Prop}
    (h : m s = .ok (a, t)) (hf : Ensures (f a) t Q) : Ensures (m >>= f) s Q :=
  let ⟨b, u, e, hb⟩ := hf; ⟨b, u, (bind_ok h).trans e, hb⟩

theorem get {f : σ → StateT σ (Except ε) α} (h : Ensures (f s) s Q) : Ensures (get >>= f) s Q := h

theorem modify {g : σ → σ} {f : Unit → StateT σ (Except ε) α} (h : Ensures (f ()) (g s) Q) :
    Ensures (modify g >>= f) s Q := h

end Ensures
