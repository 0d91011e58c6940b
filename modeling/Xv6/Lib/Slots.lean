import Mathlib.Logic.Function.Basic

/-!
# Slots that refer to objects, and marks on the objects in use

Objects of a type `β` are handed out and taken back.  A *slot* `i : ι` holds a reference `ref i` to
an object, or `nil`; `used b` is the mark the allocator keeps.  The two are separate pieces of data
that have to agree: `Slots.Owned` says that what a slot refers to is one of the objects the
allocator manages, that no two slots refer to the same object, and that exactly the objects some
slot refers to are marked.

Allocation sets a mark and fills a slot, freeing clears both; `Owned.fill` and `Owned.clear` are
these two steps.
-/

namespace Slots

open Function (update update_self update_of_ne)

variable {ι β : Type*}

/-- The marks `used` of the objects satisfying `data` are those of the objects that the slots refer
to, each of them once. -/
structure Owned (nil : β) (data : β → Prop) (used : β → Bool) (ref : ι → β) : Prop where
  /-- Slots refer to objects of the allocator. -/
  managed : ∀ i, ref i ≠ nil → data (ref i)
  /-- No object is referred to twice. -/
  once : ∀ i j, ref i ≠ nil → ref i = ref j → i = j
  /-- The marked objects are those referred to. -/
  mark : ∀ b, data b → (used b = true ↔ ∃ i, ref i = b)

namespace Owned

variable {nil b : β} {data : β → Prop} {used used' : β → Bool} {ref : ι → β} {i : ι}

theorem congr_used (h : Owned nil data used ref) (hu : ∀ b, data b → used' b = used b) :
    Owned nil data used' ref :=
  ⟨h.managed, h.once, fun b hb => by rw [hu b hb]; exact h.mark b hb⟩

theorem marked (h : Owned nil data used ref) (hi : ref i ≠ nil) : used (ref i) = true :=
  (h.mark _ (h.managed i hi)).mpr ⟨i, rfl⟩

theorem ne_of_free (h : Owned nil data used ref) (hb : data b) (hf : used b = false) (i : ι) :
    ref i ≠ b := by
  intro hi
  have : used b = true := (h.mark b hb).mpr ⟨i, hi⟩
  simp [hf] at this

variable [DecidableEq ι] [DecidableEq β]

/-- Mark an object that was free, and fill an empty slot with it. -/
theorem fill (h : Owned nil data used ref) (hb : data b) (hf : used b = false) (hi : ref i = nil)
    (hnil : ¬ data nil) : Owned nil data (update used b true) (update ref i b) := by
  have hne := h.ne_of_free hb hf
  refine ⟨fun j hj => ?_, fun j k hj hjk => ?_, fun c hc => ?_⟩
  · by_cases hji : j = i
    · subst hji; simpa using hb
    · rw [update_of_ne hji] at hj ⊢
      exact h.managed j hj
  · by_cases hji : j = i <;> by_cases hki : k = i
    · rw [hji, hki]
    · rw [hji, update_self, update_of_ne hki] at hjk
      exact absurd hjk.symm (hne k)
    · rw [hki, update_self, update_of_ne hji] at hjk
      exact absurd hjk (hne j)
    · rw [update_of_ne hji] at hj
      rw [update_of_ne hji, update_of_ne hki] at hjk
      exact h.once j k hj hjk
  · by_cases hcb : c = b
    · subst hcb
      exact iff_of_true (by simp) ⟨i, by simp⟩
    · rw [update_of_ne hcb, h.mark c hc]
      refine exists_congr fun j => ?_
      by_cases hji : j = i
      · subst hji
        rw [update_self, hi]
        exact iff_of_false (fun h => hnil (h ▸ hc)) (fun h => hcb h.symm)
      · rw [update_of_ne hji]

/-- Clear a slot, and the mark of the object it referred to. -/
theorem clear (h : Owned nil data used ref) (hi : ref i ≠ nil) (hnil : ¬ data nil) :
    Owned nil data (update used (ref i) false) (update ref i nil) := by
  refine ⟨fun j hj => ?_, fun j k hj hjk => ?_, fun c hc => ?_⟩
  · have hji : j ≠ i := fun h => hj (by rw [h, update_self])
    rw [update_of_ne hji] at hj ⊢
    exact h.managed j hj
  · have hji : j ≠ i := fun h => hj (by rw [h, update_self])
    rw [update_of_ne hji] at hj hjk
    have hki : k ≠ i := fun h => hj (by rw [hjk, h, update_self])
    rw [update_of_ne hki] at hjk
    exact h.once j k hj hjk
  · have hcn : nil ≠ c := fun h => hnil (h ▸ hc)
    by_cases hci : c = ref i
    · subst hci
      refine iff_of_false (by simp) ?_
      rintro ⟨j, hj⟩
      by_cases hji : j = i
      · rw [hji, update_self] at hj
        exact hcn hj
      · rw [update_of_ne hji] at hj
        exact hji (h.once j i (by rwa [hj]) hj)
    · rw [update_of_ne hci, h.mark c hc]
      refine exists_congr fun j => ?_
      by_cases hji : j = i
      · rw [hji, update_self]
        exact iff_of_false (fun h => hci h.symm) hcn
      · rw [update_of_ne hji]

end Owned

end Slots
