import Mathlib.Data.List.Basic
import Mathlib.Order.Nat

/-!
# A finite map kept in slots

A list of slots, each of them empty or with a key and a value.  `lookup` scans for the first slot
with the key; `insert` fills the first empty slot, and makes the list longer if there is none;
`erase` empties the slot at a place that `lookup` has reported.  None of the three looks at what the
others rely on, that no key is in two slots (`Distinct`).  As long as that is so the list is a map
from keys to values: `lookup_insert` and `lookup_erase` say which, and `Distinct.insert` and
`Distinct.erase` that it stays so.

Both changes are `put`, the replacement of one slot or one more slot at the end.
-/

namespace SlotMap

open List Option

variable {κ ν α : Type*} {n : Nat}

/-! ## Slots -/

/-- The slot `n` is replaced; the list gets longer if there are only `n` slots. -/
def put {α : Type*} (t : List α) (n : Nat) (e : α) : List α := t.take n ++ e :: t.drop (n + 1)

theorem getElem?_put {t : List α} (hn : n ≤ t.length) (e : α) (j : Nat) :
    (put t n e)[j]? = if j = n then some e else t[j]? := by
  have hlen : (t.take n).length = n := by rw [length_take, Nat.min_eq_left hn]
  rw [put]
  rcases Nat.lt_trichotomy j n with hj | rfl | hj
  · rw [if_neg hj.ne, getElem?_append_left (by omega), getElem?_take_of_lt hj]
  · rw [if_pos rfl, getElem?_append_right hlen.le, hlen, Nat.sub_self, getElem?_cons_zero]
  · obtain ⟨k, rfl⟩ := Nat.exists_eq_add_of_lt hj
    rw [if_neg hj.ne', getElem?_append_right (by omega), hlen,
      show n + k + 1 - n = k + 1 by omega, getElem?_cons_succ, getElem?_drop]
    congr 1
    omega

theorem mem_of_mem_put {t : List α} {a e : α} (h : a ∈ put t n e) : a ∈ t ∨ a = e := by
  rcases mem_append.mp h with h | h
  · exact .inl (mem_of_mem_take h)
  · rcases mem_cons.mp h with h | h
    · exact .inr h
    · exact .inl (mem_of_mem_drop h)

/-- No key is in two slots. -/
def Distinct (t : List (Option (κ × ν))) : Prop :=
  ∀ (n n' : Nat) (k : κ) (v v' : ν), t[n]? = some (some (k, v)) →
    t[n']? = some (some (k, v')) → n = n'

/-- The first empty slot, or the end of the list. -/
def firstFree (t : List (Option (κ × ν))) : Nat := t.findIdx (·.isNone)

theorem firstFree_le (t : List (Option (κ × ν))) : firstFree t ≤ t.length := findIdx_le_length

/-- There is an empty slot. -/
theorem firstFree_lt_iff {t : List (Option (κ × ν))} : firstFree t < t.length ↔ none ∈ t := by
  rw [firstFree, findIdx_lt_length]
  exact ⟨fun ⟨x, hx, h0⟩ => isNone_iff_eq_none.mp h0 ▸ hx, fun h => ⟨none, h, rfl⟩⟩

/-- Nothing is overwritten. -/
theorem getElem?_firstFree (t : List (Option (κ × ν))) (e : κ × ν) :
    t[firstFree t]? ≠ some (some e) := by
  intro h
  obtain ⟨hlt, he⟩ := List.getElem?_eq_some_iff.mp h
  have h0 : (t[firstFree t]).isNone = true := List.findIdx_getElem (w := hlt)
  simp [he] at h0

/-! ## Operations -/

/-- The key gets a value, in the first empty slot. -/
def insert (t : List (Option (κ × ν))) (k : κ) (v : ν) : List (Option (κ × ν)) :=
  put t (firstFree t) (some (k, v))

/-- The slot `n` gets empty. -/
def erase (t : List (Option (κ × ν))) (n : Nat) : List (Option (κ × ν)) := put t n none

theorem countP_insert (t : List (Option (κ × ν))) (k : κ) (v : ν) :
    (insert t k v).countP (·.isSome) = t.countP (·.isSome) + 1 := by
  rw [SlotMap.insert, put, countP_append, countP_cons_of_pos rfl]
  rcases Nat.lt_or_eq_of_le (firstFree_le t) with hlt | heq
  · have hnone : t[firstFree t] = none := by
      have := findIdx_getElem (w := hlt)
      exact isNone_iff_eq_none.mp this
    conv_rhs => rw [← take_append_drop (firstFree t) t, drop_eq_getElem_cons hlt, hnone]
    rw [countP_append, countP_cons_of_neg (by simp)]
    omega
  · rw [heq, take_length, drop_eq_nil_of_le (Nat.le_succ _), countP_nil]

theorem Distinct.erase {t : List (Option (κ × ν))} (h : Distinct t) (hn : n ≤ t.length) :
    Distinct (erase t n) := by
  intro j j' q w w' hj hj'
  rw [SlotMap.erase, getElem?_put hn] at hj hj'
  split at hj <;> split at hj'
  · omega
  · cases hj
  · cases hj'
  · exact h j j' q w w' hj hj'

section

variable [DecidableEq κ]

/-- The value of the first slot with the key, and its place. -/
def lookup (k : κ) : List (Option (κ × ν)) → Option (ν × Nat)
  | [] => none
  | some (k', v) :: t => if k' = k then some (v, 0) else (lookup k t).map fun p => (p.1, p.2 + 1)
  | none :: t => (lookup k t).map fun p => (p.1, p.2 + 1)

variable {t : List (Option (κ × ν))} {k k' : κ} {v : ν} {n : Nat}

theorem getElem?_of_lookup : ∀ {t : List (Option (κ × ν))} {v : ν} {n : Nat},
    lookup k t = some (v, n) → t[n]? = some (some (k, v))
  | [], _, _, h => nomatch h
  | some (k', v') :: t, v, n, h => by
    rw [lookup] at h
    split at h
    · rename_i hk
      cases h
      rw [hk]
      rfl
    · obtain ⟨⟨v1, n1⟩, h1, h2⟩ := map_eq_some_iff.mp h
      cases h2
      exact getElem?_cons_succ.trans (getElem?_of_lookup h1)
  | none :: t, v, n, h => by
    obtain ⟨⟨v1, n1⟩, h1, h2⟩ := map_eq_some_iff.mp h
    cases h2
    exact getElem?_cons_succ.trans (getElem?_of_lookup h1)

theorem lookup_eq_none_iff : ∀ {t : List (Option (κ × ν))},
    lookup k t = none ↔ ∀ (n : Nat) (v : ν), t[n]? ≠ some (some (k, v))
  | [] => ⟨fun _ _ _ => nofun, fun _ => rfl⟩
  | some (k', v') :: t => by
    rw [lookup]
    by_cases hk : k' = k
    · rw [if_pos hk]
      exact ⟨nofun, fun h => absurd (by rw [hk]; rfl) (h 0 v')⟩
    · rw [if_neg hk, map_eq_none_iff, lookup_eq_none_iff]
      refine ⟨fun h n v => ?_, fun h n v => h (n + 1) v⟩
      cases n with
      | zero => exact fun he => hk (by cases he; rfl)
      | succ n => exact h n v
  | none :: t => by
    rw [lookup, map_eq_none_iff, lookup_eq_none_iff]
    refine ⟨fun h n v => ?_, fun h n v => h (n + 1) v⟩
    cases n with
    | zero => exact nofun
    | succ n => exact h n v

/-- **What `lookup` finds**: the only slot with the key. -/
theorem Distinct.lookup_eq_some_iff (h : Distinct t) :
    lookup k t = some (v, n) ↔ t[n]? = some (some (k, v)) := by
  refine ⟨getElem?_of_lookup, fun hn => ?_⟩
  cases hl : lookup k t with
  | none => exact absurd hn (lookup_eq_none_iff.mp hl n v)
  | some p =>
    obtain ⟨v', n'⟩ := p
    have hn' := getElem?_of_lookup hl
    obtain rfl := h n n' k v v' hn hn'
    rw [hn] at hn'
    cases hn'
    rfl

/-- Two maps in which a key has the same slot. -/
theorem Distinct.lookup_congr {t' : List (Option (κ × ν))} (h : Distinct t) (h' : Distinct t')
    (he : ∀ (n : Nat) (v : ν), t'[n]? = some (some (k, v)) ↔ t[n]? = some (some (k, v))) :
    lookup k t' = lookup k t := by
  refine ext fun p => ?_
  obtain ⟨v, n⟩ := p
  exact h'.lookup_eq_some_iff.trans ((he n v).trans h.lookup_eq_some_iff.symm)

/-! ## Insertion -/

theorem Distinct.insert (h : Distinct t) (hk : lookup k t = none) (v : ν) :
    Distinct (insert t k v) := by
  have hno := lookup_eq_none_iff.mp hk
  intro n n' q w w' hn hn'
  rw [SlotMap.insert, getElem?_put (firstFree_le t)] at hn hn'
  split at hn <;> split at hn'
  · omega
  · cases hn
    exact absurd hn' (hno n' w')
  · cases hn'
    exact absurd hn (hno n w)
  · exact h n n' q w w' hn hn'

theorem lookup_insert_self (h : Distinct t) (hk : lookup k t = none) (v : ν) :
    lookup k (insert t k v) = some (v, firstFree t) := by
  rw [(h.insert hk v).lookup_eq_some_iff, SlotMap.insert, getElem?_put (firstFree_le t), if_pos rfl]

theorem lookup_insert_of_ne (h : Distinct t) (hk : lookup k t = none) (v : ν) (hne : k' ≠ k) :
    lookup k' (insert t k v) = lookup k' t := by
  refine h.lookup_congr (h.insert hk v) fun n w => ?_
  rw [SlotMap.insert, getElem?_put (firstFree_le t)]
  split
  · rename_i hn
    subst hn
    refine iff_of_false (fun he => hne ?_) (getElem?_firstFree t _)
    cases he
    rfl
  · exact Iff.rfl

/-! ## Removal -/

theorem lt_length_of_lookup (hk : lookup k t = some (v, n)) : n < t.length :=
  (List.getElem?_eq_some_iff.mp (getElem?_of_lookup hk)).1

theorem lookup_erase_self (h : Distinct t) (hk : lookup k t = some (v, n)) :
    lookup k (erase t n) = none := by
  rw [lookup_eq_none_iff]
  intro j w hj
  rw [SlotMap.erase, getElem?_put (lt_length_of_lookup hk).le] at hj
  split at hj
  · cases hj
  · rename_i hne
    exact hne (h j n k w v hj (getElem?_of_lookup hk))

theorem lookup_erase_of_ne (h : Distinct t) (hk : lookup k t = some (v, n)) (hne : k' ≠ k) :
    lookup k' (erase t n) = lookup k' t := by
  have hle := (lt_length_of_lookup hk).le
  refine h.lookup_congr (h.erase hle) fun j w => ?_
  rw [SlotMap.erase, getElem?_put hle]
  split
  · rename_i hj
    subst hj
    refine iff_of_false nofun fun he => hne ?_
    rw [getElem?_of_lookup hk] at he
    cases he
    rfl
  · exact Iff.rfl

end

end SlotMap
