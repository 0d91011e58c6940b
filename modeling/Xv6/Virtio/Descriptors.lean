import Xv6.Virtio.Model

/-!
# Descriptors

What `alloc3_desc` and `free_chain` do, and the bound on the number of chains.  Both may wake
threads that sleep for descriptors, which changes nothing else about a thread.
-/

namespace Xv6.Virtio

open List

open Function (update_self update_of_ne)

variable {T B : Type}
variable {s : State T B} {i j : Nat}

/-- A thread, or the same thread woken from its sleep for descriptors. -/
def Pc.wakeFree : Pc B → Pc B
  | .sleepFree r => .wokenFree r
  | c => c

theorem Pc.wakeFree_wakeFree (c : Pc B) : c.wakeFree.wakeFree = c.wakeFree := by
  cases c <;> rfl

namespace State

theorem wakeFree_eq (s : State T B) : s.wakeFree = { s with pc := fun t => (s.pc t).wakeFree } := by
  rw [wakeFree]
  rfl

/-- There are three free descriptors. -/
def ThreeFree (free : Nat → Bool) : Prop :=
  ∃ i j k, [i, j, k].Nodup ∧ ∀ x ∈ [i, j, k], x < num ∧ free x = true

theorem ThreeFree.mono {free free' : Nat → Bool} (h : ThreeFree free)
    (hle : ∀ i, free i = true → free' i = true) : ThreeFree free' := by
  obtain ⟨i, j, k, hn, hf⟩ := h
  exact ⟨i, j, k, hn, fun x hx => ⟨(hf x hx).1, hle x (hf x hx).2⟩⟩

theorem not_threeFree {free : Nat → Bool} {l : List Nat} (hl : l.length < 3)
    (h : ∀ i, i < num → free i = true → i ∈ l) : ¬ ThreeFree free := by
  rintro ⟨i, j, k, hn, hf⟩
  have hsub : [i, j, k] ⊆ l := fun x hx => h x (hf x hx).1 (hf x hx).2
  have := (subperm_of_subset hn hsub).length_le
  rw [length_cons, length_cons, length_singleton] at this
  omega

theorem allocDesc_none (h : s.allocDesc = none) : ∀ i, i < num → s.free i = false := by
  rw [allocDesc, Option.map_eq_none_iff, find?_eq_none] at h
  exact fun i hi => Bool.eq_false_iff.mpr (h i (mem_range.mpr hi))

/-- With a descriptor taken. -/
def take (s : State T B) (i : Nat) : State T B := { s with free := Function.update s.free i false }

/-- With a descriptor given back. -/
def give (s : State T B) (i : Nat) : State T B :=
  { s with
    desc := Function.update s.desc i { s.desc i with addr := .null }
    free := Function.update s.free i true
    pc t := (s.pc t).wakeFree }

theorem allocDesc_some {s' : State T B} (h : s.allocDesc = some (i, s')) :
    i < num ∧ s.free i = true ∧ s' = s.take i := by
  rw [allocDesc] at h
  obtain ⟨j, hj, he⟩ := Option.map_eq_some_iff.mp h
  cases he
  exact ⟨mem_range.mp (mem_of_find?_eq_some hj), find?_some hj, rfl⟩

theorem freeDesc_ok (hi : i < num) (hf : s.free i = false) : s.freeDesc i = .ok (s.give i) := by
  rw [freeDesc, if_neg (Nat.not_le.mpr hi), if_neg (by rw [hf]; exact Bool.false_ne_true),
    wakeFree_eq]
  rfl

theorem take_free_self (s : State T B) (i : Nat) : (s.take i).free i = false := update_self ..

theorem take_free_of_ne (s : State T B) (h : j ≠ i) : (s.take i).free j = s.free j :=
  update_of_ne h ..

theorem take_free (h : (s.take i).free j = true) : j ≠ i ∧ s.free j = true := by
  have hne : j ≠ i := by
    rintro rfl
    simp [take_free_self] at h
  exact ⟨hne, s.take_free_of_ne hne ▸ h⟩

theorem take_free_iff : (s.take i).free j = false ↔ j = i ∨ s.free j = false := by
  by_cases hj : j = i
  · rw [hj, take_free_self]
    simp
  · rw [take_free_of_ne _ hj]
    simp [hj]

theorem give_free_self (s : State T B) (i : Nat) : (s.give i).free i = true := update_self ..

theorem give_free_of_ne (s : State T B) (h : j ≠ i) : (s.give i).free j = s.free j :=
  update_of_ne h ..

theorem give_free_iff : (s.give i).free j = true ↔ j = i ∨ s.free j = true := by
  by_cases hj : j = i
  · rw [hj, give_free_self]
    simp
  · rw [give_free_of_ne _ hj]
    simp [hj]

theorem give_desc_of_ne (s : State T B) (h : j ≠ i) : (s.give i).desc j = s.desc j :=
  update_of_ne h ..

theorem give_link (s : State T B) (i j : Nat) :
    ((s.give i).desc j).flags = (s.desc j).flags ∧ ((s.give i).desc j).next = (s.desc j).next := by
  by_cases hj : j = i
  · have hself : (s.give i).desc i = { s.desc i with addr := .null } := update_self ..
    rw [hj, hself]
    exact ⟨rfl, rfl⟩
  · rw [give_desc_of_ne _ hj]
    exact ⟨rfl, rfl⟩

/-- Descriptors that were taken and given back are as free as before. -/
structure Restored (s s' : State T B) : Prop where
  eq : s' = { s with desc := s'.desc, pc := s'.pc }
  desc : ∀ i, s.free i = false → s'.desc i = s.desc i
  pc : ∀ t, s'.pc t = s.pc t ∨ s'.pc t = (s.pc t).wakeFree

/-- **`alloc3_desc`** either takes three free descriptors, or there are not that many. -/
theorem alloc3Desc_spec (s : State T B) :
    (∃ idx : Idx, s.alloc3Desc = .ok (some idx, ((s.take idx.i0).take idx.i1).take idx.i2) ∧
      idx.list.Nodup ∧ ∀ i ∈ idx.list, i < num ∧ s.free i = true) ∨
    ∃ s', s.alloc3Desc = .ok (none, s') ∧ ¬ ThreeFree s.free ∧ Restored s s' := by
  rw [alloc3Desc]
  cases h0 : s.allocDesc with
  | none =>
    refine .inr ⟨s, rfl, ?_, rfl, fun _ _ => rfl, fun _ => .inl rfl⟩
    refine not_threeFree (l := []) (by decide) fun i hi hf => ?_
    simp [allocDesc_none h0 i hi] at hf
  | some r0 =>
    obtain ⟨i0, s0⟩ := r0
    obtain ⟨hlt0, hf0, rfl⟩ := allocDesc_some h0
    dsimp only
    cases h1 : (s.take i0).allocDesc with
    | none =>
      rw [freeDesc_ok hlt0 (take_free_self ..)]
      refine .inr ⟨_, rfl, ?_, ?_, fun i hi => ?_, fun t => .inr rfl⟩
      · refine not_threeFree (l := [i0]) (by rw [length_singleton]; decide) fun i hi hf => ?_
        by_contra hne
        have := allocDesc_none h1 i hi
        simp [take_free_of_ne _ (by simpa using hne), hf] at this
      · refine congrArg (fun free => { (s.take i0).give i0 with free }) ?_
        funext i
        by_cases hi0 : i = i0
        · rw [hi0, update_self, hf0]
        · rw [update_of_ne hi0, take_free_of_ne _ hi0]
      · exact update_of_ne (fun he => by rw [he, hf0] at hi; nomatch hi) ..
    | some r1 =>
      obtain ⟨i1, s1⟩ := r1
      obtain ⟨hlt1, hf1, rfl⟩ := allocDesc_some h1
      obtain ⟨h10, hf1⟩ := take_free hf1
      dsimp only
      cases h2 : ((s.take i0).take i1).allocDesc with
      | none =>
        have hf1' : (((s.take i0).take i1).give i0).free i1 = false := by
          rw [give_free_of_ne _ h10, take_free_self]
        rw [freeDesc_ok hlt0 (by rw [take_free_of_ne _ h10.symm, take_free_self])]
        refine .inr ⟨(((s.take i0).take i1).give i0).give i1, ?_, ?_, ?_,
          fun i hi => ?_, fun t => ?_⟩
        · exact congrArg (fun x => x >>= fun s => pure (none, s)) (freeDesc_ok hlt1 hf1')
        · refine not_threeFree (l := [i0, i1]) (by rw [length_cons, length_singleton]; decide)
            fun i hi hf => ?_
          by_contra hne
          have hne : i ≠ i0 ∧ i ≠ i1 := by simpa using hne
          have := allocDesc_none h2 i hi
          simp [take_free_of_ne _ hne.2, take_free_of_ne _ hne.1, hf] at this
        · refine congrArg (fun free => { (((s.take i0).take i1).give i0).give i1 with free }) ?_
          funext i
          by_cases hi1 : i = i1
          · rw [hi1, update_self, hf1]
          · rw [update_of_ne hi1]
            by_cases hi0 : i = i0
            · rw [hi0, give_free_self, hf0]
            · rw [give_free_of_ne _ hi0, take_free_of_ne _ hi1, take_free_of_ne _ hi0]
        · have hi0 : i ≠ i0 := fun he => by rw [he, hf0] at hi; nomatch hi
          have hi1 : i ≠ i1 := fun he => by rw [he, hf1] at hi; nomatch hi
          rw [give_desc_of_ne _ hi1, give_desc_of_ne _ hi0]
          rfl
        · exact .inr (Pc.wakeFree_wakeFree _)
      | some r2 =>
        obtain ⟨i2, s2⟩ := r2
        obtain ⟨hlt2, hf2, rfl⟩ := allocDesc_some h2
        obtain ⟨h21, hf2⟩ := take_free hf2
        obtain ⟨h20, hf2⟩ := take_free hf2
        refine .inl ⟨⟨i0, i1, i2⟩, rfl, ?_, ?_⟩
        · simp [Idx.list, h10.symm, h20.symm, h21.symm]
        · rintro i hi
          simp only [Idx.list, mem_cons, not_mem_nil, or_false] at hi
          obtain rfl | rfl | rfl := hi
          · exact ⟨hlt0, hf0⟩
          · exact ⟨hlt1, hf1⟩
          · exact ⟨hlt2, hf2⟩

/-- **`free_chain`** gives back the three descriptors of a request. -/
theorem freeChain_spec {r : Req B} {idx : Idx} (fuel : Nat) (hn : idx.list.Nodup)
    (hf : ∀ i ∈ idx.list, i < num ∧ s.free i = false) (h0 : s.desc idx.i0 = header r idx)
    (h1 : s.desc idx.i1 = data r idx) (h2 : s.desc idx.i2 = result idx) :
    freeChain (fuel + 3) s idx.i0 = .ok (((s.give idx.i0).give idx.i1).give idx.i2) := by
  obtain ⟨⟨h01, h02⟩, h12⟩ : (idx.i0 ≠ idx.i1 ∧ idx.i0 ≠ idx.i2) ∧ idx.i1 ≠ idx.i2 := by
    simpa [Idx.list] using hn
  obtain ⟨hlt0, hf0⟩ := hf idx.i0 (by simp [Idx.list])
  obtain ⟨hlt1, hf1⟩ := hf idx.i1 (by simp [Idx.list])
  obtain ⟨hlt2, hf2⟩ := hf idx.i2 (by simp [Idx.list])
  have step : ∀ (s : State T B) (fuel i j : Nat), i < num → s.free i = false →
      (s.desc i).flags &&& descNext ≠ 0 → (s.desc i).next = j →
      freeChain (fuel + 1) s i = freeChain fuel (s.give i) j := by
    intro s fuel i j hi hf hflag hnext
    rw [freeChain, freeDesc_ok hi hf]
    obtain ⟨hfl, hnx⟩ := s.give_link i i
    refine (if_pos ?_).trans ?_
    · rwa [hfl]
    · rw [hnx, hnext]
  have hhead : (header r idx).flags &&& descNext ≠ 0 := show descNext &&& descNext ≠ 0 by decide
  have hdata : (data r idx).flags &&& descNext ≠ 0 := by
    rw [data]
    cases r.write
    · exact show (descWrite ||| descNext) &&& descNext ≠ 0 by decide
    · exact show (0 ||| descNext) &&& descNext ≠ 0 by decide
  have hres : (result idx : Desc B).flags &&& descNext = 0 :=
    show descWrite &&& descNext = 0 by decide
  rw [step s (fuel + 2) _ idx.i1 hlt0 hf0 (h0 ▸ hhead) (by rw [h0]; rfl)]
  obtain ⟨hfl1, hnx1⟩ := s.give_link idx.i0 idx.i1
  rw [step _ (fuel + 1) _ idx.i2 hlt1 (by rw [give_free_of_ne _ h01.symm, hf1]) ?_
    (by rw [hnx1, h1]; rfl)]
  · rw [freeChain, freeDesc_ok hlt2
      (by rw [give_free_of_ne _ h12.symm, give_free_of_ne _ h02.symm, hf2])]
    have hlast := (((s.give idx.i0).give idx.i1).give_link idx.i2 idx.i2).1
    rw [((s.give idx.i0).give_link idx.i1 idx.i2).1, (s.give_link idx.i0 idx.i2).1, h2] at hlast
    refine if_neg (not_not.mpr ?_)
    rw [hlast]
    exact hres
  · rw [hfl1, h1]
    exact hdata

end State

theorem chains_le_two {a b c : Idx} (h : (a.list ++ b.list ++ c.list).Nodup)
    (hlt : ∀ i ∈ a.list ++ b.list ++ c.list, i < num) : False := by
  have hsub : a.list ++ b.list ++ c.list ⊆ List.range num := fun i hi => mem_range.mpr (hlt i hi)
  have := (subperm_of_subset h hsub).length_le
  rw [length_range] at this
  exact absurd this (by simp [Idx.list, num])

end Xv6.Virtio
