import Mathlib.Data.List.Basic
import Mathlib.Data.Nat.ModEq

/-!
# Ring buffers with wrapping counters

An array of `N` cells with two counters, one of everything ever taken out and one of everything ever
put in.  Both count modulo `M`, and a counter is an index into the array modulo `N`.  Nothing is
reset, so the buffer is full when the counters differ by `N` and empty when they are equal.

That works if `N` divides `M` and is smaller: the first makes the index come out right when a
counter wraps around, the second keeps full and empty apart.  `Fifo.push_contents` and
`Fifo.pop_contents` say that the buffer is then a queue.
-/

/-- The array and the two counters. -/
structure Fifo (α : Type) where
  /-- The cells; only those below the size of the array are used. -/
  data : Nat → α
  /-- How much has been taken out, modulo `M`. -/
  nread : Nat
  /-- How much has been put in, modulo `M`. -/
  nwrite : Nat

namespace Fifo

open List Nat Function

variable {α : Type} (N M : Nat) {d : Nat → α}

/-- How much there is in the buffer. -/
def len (r : Fifo α) : Nat := (r.nwrite + (M - r.nread)) % M

/-- The test of the writer. -/
def isFull (r : Fifo α) : Bool := decide (r.nwrite = (r.nread + N) % M)

/-- The test of the reader. -/
def isEmpty (r : Fifo α) : Bool := decide (r.nread = r.nwrite)

/-- The cell of the `k`-th oldest item. -/
def cell (r : Fifo α) (k : Nat) : Nat := (r.nread + k) % M % N

/-- What is in the buffer, oldest first. -/
def contents (r : Fifo α) : List α := (List.range (r.len M)).map fun k => r.data (r.cell N M k)

/-- Put something in. -/
def push (r : Fifo α) (a : α) : Fifo α where
  data := update r.data (r.nwrite % N) a
  nread := r.nread
  nwrite := (r.nwrite + 1) % M

/-- Take something out. -/
def pop (r : Fifo α) : α × Fifo α :=
  (r.data (r.nread % N), { r with nread := (r.nread + 1) % M })

/-- Take the newest item back. -/
def unpush (r : Fifo α) : Fifo α := { r with nwrite := (r.nwrite + (M - 1)) % M }

/-- The counters are what they should be. -/
structure Ok (r : Fifo α) : Prop where
  nread : r.nread < M
  nwrite : r.nwrite < M
  len : r.len M ≤ N

variable {N M} {r : Fifo α}

/-- A sum of two numbers up to `M` wraps around at most once. -/
theorem wrap {a b : Nat} (ha : a < M) (hb : b ≤ M) :
    (a + b) % M = if a + b < M then a + b else a + b - M := by
  split
  · rename_i hlt
    exact mod_eq_of_lt hlt
  · rw [mod_eq_sub_mod (by omega), mod_eq_of_lt (by omega)]

theorem len_eq (hr : r.nread < M) (hw : r.nwrite < M) :
    r.len M = if r.nread ≤ r.nwrite then r.nwrite - r.nread else r.nwrite + M - r.nread := by
  rw [len, wrap hw (Nat.sub_le ..)]
  split_ifs <;> omega

theorem Ok.isFull_iff (h : r.Ok N M) (hNM : N < M) : r.isFull N M = true ↔ r.len M = N := by
  obtain ⟨hr, hw, hl⟩ := h
  rw [len_eq hr hw] at hl ⊢
  rw [isFull, decide_eq_true_iff, wrap hr hNM.le]
  split_ifs at hl ⊢ <;> omega

theorem Ok.push_len (h : r.Ok N M) (hNM : N < M) (hf : r.isFull N M = false) (a : α) :
    (r.push N M a).len M = r.len M + 1 ∧ r.len M < N := by
  have hne : r.len M ≠ N := fun hl => by simp [(h.isFull_iff hNM).mpr hl] at hf
  obtain ⟨hr, hw, hl⟩ := h
  have hnext : (r.nwrite + 1) % M = if r.nwrite + 1 < M then r.nwrite + 1 else 0 := by
    rw [wrap hw (by omega)]
    split_ifs <;> omega
  rw [len_eq hr hw] at hl hne ⊢
  rw [len_eq (r := r.push N M a) hr (mod_lt _ (by omega)), Fifo.push, hnext]
  dsimp only
  split_ifs at * <;> omega

/-- A writer that is not told to wait has a cell for one more. -/
theorem Ok.push (h : r.Ok N M) (hNM : N < M) (hf : r.isFull N M = false) (a : α) :
    (r.push N M a).Ok N M := by
  have hlen := h.push_len hNM hf a
  refine ⟨h.nread, mod_lt _ (by omega), ?_⟩
  rw [hlen.1]
  exact hlen.2

theorem cell_of_dvd (hd : N ∣ M) (k : Nat) : r.cell N M k = (r.nread + k) % N := by
  rw [cell, mod_mod_of_dvd _ hd]

/-- The cell that is written is that of the next item. -/
theorem Ok.cell_len (h : r.Ok N M) : r.nwrite % N = r.cell N M (r.len M) := by
  have hnext : (r.nread + r.len M) % M = r.nwrite := by
    rw [Fifo.len, add_mod_mod, show r.nread + (r.nwrite + (M - r.nread)) = r.nwrite + M by
      have := h.nread; omega, add_mod_right, mod_eq_of_lt h.nwrite]
  rw [cell, hnext]

/-- **The cell that is written holds nothing that has not been read.** -/
theorem Ok.cell_ne (h : r.Ok N M) (hd : N ∣ M) (hlt : r.len M < N) {k : Nat} (hk : k < r.len M) :
    r.cell N M k ≠ r.nwrite % N := by
  rw [h.cell_len, cell_of_dvd hd, cell_of_dvd hd]
  intro heq
  have hmod : k ≡ r.len M [MOD N] := Nat.ModEq.add_left_cancel' r.nread heq
  exact hk.ne (hmod.eq_of_lt_of_lt (by omega) hlt)

/-- The next cell may be written before it is counted. -/
theorem Ok.contents_set (h : r.Ok N M) (hd : N ∣ M) (hlt : r.len M < N) (a : α) :
    Fifo.contents N M { r with data := update r.data (r.nwrite % N) a } = r.contents N M :=
  map_congr_left fun _ hk => update_of_ne (h.cell_ne hd hlt (mem_range.mp hk)) ..

theorem push_eq {a : α} (ha : r.data (r.nwrite % N) = a) :
    r.push N M a = { r with nwrite := (r.nwrite + 1) % M } := by
  rw [push, ← ha, update_eq_self]

/-- **Putting something in** appends it. -/
theorem push_contents (h : r.Ok N M) (hd : N ∣ M) (hNM : N < M) (hf : r.isFull N M = false)
    (a : α) :
    (r.push N M a).contents N M = r.contents N M ++ [a] := by
  obtain ⟨hlen, hlt⟩ := h.push_len hNM hf a
  have hcell : ∀ k, (r.push N M a).cell N M k = r.cell N M k := fun k => rfl
  rw [contents, hlen, range_succ, map_append, contents]
  congr 1
  · refine map_congr_left fun k hk => ?_
    rw [hcell]
    exact update_of_ne (h.cell_ne hd hlt (mem_range.mp hk)) ..
  · rw [map_singleton, hcell, ← h.cell_len]
    exact congrArg (· :: []) (update_self ..)

theorem Ok.pop_len (h : r.Ok N M) (he : r.isEmpty = false) : r.len M = (r.pop N M).2.len M + 1 := by
  obtain ⟨hr, hw, -⟩ := h
  rw [isEmpty, decide_eq_false_iff_not] at he
  have hnext : (r.nread + 1) % M = if r.nread + 1 < M then r.nread + 1 else 0 := by
    rw [wrap hr (by omega)]
    split_ifs <;> omega
  rw [len_eq hr hw, len_eq (r := (r.pop N M).2) (mod_lt _ (by omega)) hw, Fifo.pop, hnext]
  dsimp only
  split_ifs at * <;> omega

theorem Ok.pop (h : r.Ok N M) (he : r.isEmpty = false) : (r.pop N M).2.Ok N M := by
  refine ⟨mod_lt _ (by have := h.nread; omega), h.nwrite, ?_⟩
  have hlen := h.pop_len he
  have hle := h.len
  omega

/-- **Taking something out** takes the oldest. -/
theorem pop_contents (h : r.Ok N M) (hd : N ∣ M) (he : r.isEmpty = false) :
    r.contents N M = (r.pop N M).1 :: (r.pop N M).2.contents N M := by
  rw [contents, h.pop_len he, range_succ_eq_map, map_cons, map_map, contents]
  congr 1
  · rw [cell_of_dvd hd, add_zero]
    rfl
  · refine map_congr_left fun k _ => ?_
    have hcell : (r.pop N M).2.cell N M k = r.cell N M (k + 1) := by
      rw [cell_of_dvd hd, cell_of_dvd hd, pop, add_mod, mod_mod_of_dvd _ hd, ← add_mod]
      congr 1
      omega
    rw [hcell]
    rfl

/-! ## The other end, and both ends together -/

theorem len_eq_zero_iff (hr : r.nread < M) (hw : r.nwrite < M) :
    r.len M = 0 ↔ r.nread = r.nwrite := by
  rw [len_eq hr hw]
  split <;> omega

theorem Ok.push_isEmpty (h : r.Ok N M) (hNM : N < M) (hf : r.isFull N M = false) (a : α) :
    (r.push N M a).isEmpty = false := by
  have hok := h.push hNM hf a
  rw [isEmpty, decide_eq_false_iff_not, ← len_eq_zero_iff hok.nread hok.nwrite,
    (h.push_len hNM hf a).1]
  exact succ_ne_zero _

theorem unpush_len (hr : r.nread < M) (hw : r.nwrite < M) (he : r.len M ≠ 0) :
    r.len M = (r.unpush M).len M + 1 := by
  rw [ne_eq, len_eq_zero_iff hr hw] at he
  have hprev : (r.nwrite + (M - 1)) % M = if r.nwrite = 0 then M - 1 else r.nwrite - 1 := by
    rw [wrap hw (Nat.sub_le ..)]
    split_ifs <;> omega
  rw [len_eq hr hw, len_eq (r := r.unpush M) hr (mod_lt _ (by omega)), unpush, hprev]
  dsimp only
  split_ifs at * <;> omega

/-- **Taking the newest item back** drops it. -/
theorem unpush_contents (hr : r.nread < M) (hw : r.nwrite < M) (he : r.len M ≠ 0) :
    (r.unpush M).contents N M = (r.contents N M).dropLast := by
  have hlen := unpush_len hr hw he
  rw [contents, contents, hlen, range_succ, map_append, map_singleton,
    dropLast_concat]
  rfl

/-- The cell before the writing counter holds the newest item. -/
theorem Ok.last_mem (h : r.Ok N M) (he : r.len M ≠ 0) :
    r.data ((r.nwrite + (M - 1)) % M % N) ∈ r.contents N M := by
  have hlen := unpush_len h.nread h.nwrite he
  have hlast : (r.nwrite + (M - 1)) % M % N = r.cell N M ((r.unpush M).len M) :=
    Ok.cell_len (r := r.unpush M) ⟨h.nread, mod_lt _ (by have := h.nread; omega), by
      have := h.len
      omega⟩
  rw [hlast, contents]
  exact mem_map_of_mem (mem_range.mpr (by omega))

theorem length_contents : (r.contents N M).length = r.len M := by
  rw [contents, length_map, length_range]

/-- A third counter between the two divides the items. -/
theorem len_split {i j k : Nat} (hi : i < M) (hj : j < M) (hk : k < M)
    (h : (⟨d, i, j⟩ : Fifo α).len M ≤ (⟨d, i, k⟩ : Fifo α).len M) :
    (⟨d, i, k⟩ : Fifo α).len M = (⟨d, i, j⟩ : Fifo α).len M + (⟨d, j, k⟩ : Fifo α).len M := by
  have hlen : ∀ {a b}, a < M → b < M → (⟨d, a, b⟩ : Fifo α).len M = _ := fun {a b} =>
    len_eq (r := ⟨d, a, b⟩)
  rw [hlen hi hj, hlen hi hk] at h
  rw [hlen hi hj, hlen hi hk, hlen hj hk]
  dsimp only at h ⊢
  split_ifs at h ⊢ <;> omega

theorem contents_split {i j k : Nat} (hi : i < M) (hj : j < M) (hk : k < M)
    (h : (⟨d, i, j⟩ : Fifo α).len M ≤ (⟨d, i, k⟩ : Fifo α).len M) :
    (⟨d, i, k⟩ : Fifo α).contents N M =
      (⟨d, i, j⟩ : Fifo α).contents N M ++ (⟨d, j, k⟩ : Fifo α).contents N M := by
  rw [contents, len_split hi hj hk h, range_add, map_append, map_map, contents, contents]
  congr 1
  refine map_congr_left fun t _ => ?_
  change d (cell N M ⟨d, i, k⟩ _) = d (cell N M ⟨d, j, k⟩ t)
  have hj' : (i + (⟨d, i, j⟩ : Fifo α).len M) % M = j := by
    rw [Fifo.len, add_mod_mod, show i + (j + (M - i)) = j + M by omega, add_mod_right,
      mod_eq_of_lt hj]
  congr 1
  rw [cell, cell]
  congr 1
  change (i + ((⟨d, i, j⟩ : Fifo α).len M + t)) % M = (j + t) % M
  rw [← add_assoc, add_mod, hj', add_mod_mod]

end Fifo
