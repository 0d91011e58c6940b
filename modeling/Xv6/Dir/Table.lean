import Xv6.Dir.Graph
import Xv6.Dir.Model

/-!
# References and locks of the running system calls

`Table` relates the inode cache to the contexts of the processes: `ref` counts their references, a
locked inode is locked by the process that has it in its context, and nobody but its maker has
anything to do with an inode that is being made.  One lemma per command shows that it is kept.
-/

namespace Xv6.Dir

open Lts Option Finset Ctx
open Function (update update_self update_of_ne)

namespace Ctx

/-- All references of a call to `i`, including those `iput` is about to drop. -/
def refs (x : Ctx) (i : Nat) : Nat :=
  x.held i + (if x.freeing = some i then 1 else 0) + if x.dropping = some i then 1 else 0

/-- The call relies on the inode. -/
def Touches (x : Ctx) (i : Nat) : Prop := 0 < x.held i ∨ x.view i ≠ none ∨ x.freeing = some i

/-- What is locked is held, and what the job is about is still locked or held. -/
structure Ok (x : Ctx) : Prop where
  view : ∀ i, x.view i ≠ none → 0 < x.held i
  pins : ∀ i ∈ x.job.pins, x.view i ≠ none
  dying : ∀ i, x.job.dying = some i → 0 < x.held i

variable {x : Ctx} {i j : Nat}

theorem refs_get : (x.get i).refs j = x.refs j + if j = i then 1 else 0 := by
  change (x.get i).held j + (if x.freeing = some j then 1 else 0) +
    (if x.dropping = some j then 1 else 0) = _
  rw [refs]
  by_cases h : j = i
  · subst h
    rw [get_self, if_pos rfl]
    omega
  · rw [get_of_ne h, if_neg h, Nat.add_zero]

theorem refs_put (h : 0 < x.held i) : (x.put i).refs j + (if j = i then 1 else 0) = x.refs j := by
  change update x.held i (x.held i - 1) j + (if x.freeing = some j then 1 else 0) +
    (if x.dropping = some j then 1 else 0) + _ = _
  rw [refs]
  by_cases h' : j = i
  · subst h'
    rw [update_self, if_pos rfl]
    omega
  · rw [update_of_ne h', if_neg h', Nat.add_zero]

theorem put_self : (x.put i).held i = x.held i - 1 := update_self ..

theorem put_of_ne (h : j ≠ i) : (x.put i).held j = x.held j := update_of_ne h ..

theorem held_of_put (h : 0 < (x.put i).held j) : 0 < x.held j := by
  by_cases hj : j = i
  · subst hj
    rw [put_self] at h
    omega
  · rwa [put_of_ne hj] at h

theorem settle_dying (h : (x.settle i).job.dying = some j) : j ≠ i ∧ x.job.dying = some j := by
  rw [settle] at h
  split at h
  · cases h
  · rename_i hi
    exact ⟨fun hj => hi (hj ▸ h), h⟩

theorem settle_fresh (h : (x.settle i).job.fresh = some j) : x.job.fresh = some j := by
  rw [settle] at h
  split at h
  · cases h
  · exact h

theorem settle_pins (h : j ∈ (x.settle i).job.pins) : j ∈ x.job.pins := by
  rw [settle] at h
  split at h
  · cases h
  · exact h

/-- After `iput` the job is still about inodes that are held. -/
theorem Ok.put (h : x.Ok) (hv : x.view i ≠ none → 1 < x.held i) : ((x.put i).settle i).Ok where
  view j hj := by
    change 0 < (x.put i).held j
    by_cases hji : j = i
    · subst hji
      rw [put_self]
      have := hv hj
      omega
    · rw [put_of_ne hji]
      exact h.view j hj
  pins j hj := h.pins j (settle_pins (x := x.put i) hj)
  dying j hj := by
    obtain ⟨h1, h2⟩ := settle_dying (x := x.put i) hj
    change 0 < (x.put i).held j
    rw [put_of_ne h1]
    exact h.dying j h2

theorem Ok.put_idle (h : x.Ok) (hv : x.view i = none) (hj : x.job = .none) : (x.put i).Ok where
  view j hv' := by
    rw [put_of_ne]
    · exact h.view j hv'
    · rintro rfl
      exact hv' hv
  pins := h.pins
  dying j hd := by simp [hj, Job.dying] at hd

theorem view_of_unsee (h : (x.unsee i).view j ≠ none) : x.view j ≠ none := by
  by_cases hj : j = i
  · simp [unsee, hj] at h
  · simpa [unsee, hj] using h

theorem Ok.get (h : x.Ok) : (x.get i).Ok where
  view j hj := (h.view j hj).trans_le held_le_get
  pins := h.pins
  dying j hj := (h.dying j hj).trans_le held_le_get

end Ctx

variable {P : Type} [Fintype P] {s' : State P}

/-- References from current directories and open files. -/
def uses (s : State P) (i : Nat) : Nat :=
  count (fun c => decide (c = some i)) s.cwd + s.files.count i

/-- What the calls have begun. -/
def jobs (x : P → Ctx) (p : P) : Job := (x p).job

/-- Somebody other than its maker may rely on the inode. -/
def Known (s : State P) (x : P → Ctx) (i : Nat) : Prop :=
  (s.node i).kind ≠ .free ∧ ¬ Fresh (jobs x) i

/-- How the inode cache is related to what the running calls have. -/
structure Table (s : State P) (x : P → Ctx) : Prop where
  refs : ∀ i, s.ref i = ∑ p, (x p).refs i + uses s i
  lock : ∀ i p, s.lock i = some p ↔ (x p).view i ≠ none ∨ (x p).freeing = some i
  view : ∀ p i nd, (x p).view i = some nd → s.node i = nd
  touch : ∀ p i, (x p).Touches i →
    (s.node i).kind ≠ .free ∧ ∀ q, (x q).job.fresh = some i → q = p
  cwd : ∀ p i, s.cwd p = some i → Known s x i
  files : ∀ i ∈ s.files, Known s x i
  freeing : ∀ p i, (x p).freeing = some i →
    s.ref i = 1 ∧ (s.node i).nlink = 0 ∧ (x p).view i = none ∧ (x p).job.fresh ≠ some i
  removing : ∀ p i, s.removing p = some i → (x p).job.dying = some i ∨ (x p).freeing = some i
  valid : ∀ p i, (x p).view i ≠ none ∨ (x p).job.dying = some i → s.valid i = true
  ok : ∀ p, (x p).Ok

/-- What a step of process `p` from `s` to `s'`, with the context `y` afterwards, does to the
cache.  What is not mentioned stays as it is. -/
structure Moves (s s' : State P) (x : P → Ctx) (p : P) (y : Ctx) : Prop where
  refs : ∀ i, s'.ref i + (x p).refs i + uses s i = s.ref i + y.refs i + uses s' i
  lock_other : ∀ i q, q ≠ p → (s'.lock i = some q ↔ s.lock i = some q)
  lock_self : ∀ i, s'.lock i = some p ↔ y.view i ≠ none ∨ y.freeing = some i
  node_other : ∀ i q, q ≠ p → s.lock i = some q → s'.node i = s.node i
  /-- Only `ifree` frees an inode. -/
  kind : ∀ i, (s.node i).kind ≠ .free → (s'.node i).kind = .free → (x p).freeing = some i
  view : ∀ i nd, y.view i = some nd → s'.node i = nd
  touch : ∀ i, y.Touches i → (x p).Touches i ∨
    (s.node i).kind ≠ .free ∧ ∀ q, (x q).job.fresh = some i → q = p
  alive : ∀ i, y.Touches i → (s.node i).kind ≠ .free → (s'.node i).kind ≠ .free
  fresh : ∀ i, y.job.fresh = some i → (x p).job.fresh = some i ∨ (s.node i).kind = .free
  cwd : ∀ q i, s'.cwd q = some i → s.cwd q = some i ∨ 0 < (x p).held i ∧ (x p).job = .none
  files : ∀ i ∈ s'.files, i ∈ s.files ∨ 0 < (x p).held i ∧ (x p).job = .none
  ref_other : ∀ q i, q ≠ p → (x q).freeing = some i → s'.ref i = s.ref i
  freeing : ∀ i, y.freeing = some i →
    s'.ref i = 1 ∧ (s'.node i).nlink = 0 ∧ y.view i = none ∧ y.job.fresh ≠ some i
  removing : ∀ q, q ≠ p → s'.removing q = s.removing q
  removing_self : ∀ i, s'.removing p = some i → y.job.dying = some i ∨ y.freeing = some i
  valid : ∀ q i, q ≠ p → 0 < (x q).held i → s.valid i = true → s'.valid i = true
  valid_self : ∀ i, y.view i ≠ none ∨ y.job.dying = some i → s'.valid i = true
  ok : y.Ok

variable {s : State P} {x : P → Ctx} {p q : P} {y : Ctx} {i j : Nat}

omit [Fintype P] in
theorem Known.mine (h : Known s x i) :
    (s.node i).kind ≠ .free ∧ ∀ q, (x q).job.fresh = some i → q = p :=
  ⟨h.1, fun q hq => absurd ⟨q, hq⟩ h.2⟩

omit [Fintype P] in
theorem touches_get (hi : (s.node i).kind ≠ .free ∧ ∀ q, (x q).job.fresh = some i → q = p)
    (h : (y.get i).Touches j) :
    y.Touches j ∨ (s.node j).kind ≠ .free ∧ ∀ q, (x q).job.fresh = some j → q = p := by
  by_cases hj : j = i
  · exact .inr (hj ▸ hi)
  · rw [Ctx.Touches, get_of_ne hj] at h
    exact .inl h

namespace Table

theorem ref_ge (t : Table s x) (p : P) (i : Nat) : (x p).refs i ≤ s.ref i := by
  have h := single_le_sum (f := fun p => (x p).refs i) (fun _ _ => Nat.zero_le _)
    (mem_univ p)
  have := t.refs i
  omega

theorem ref_pos (t : Table s x) (h : 0 < (x p).held i) : 0 < s.ref i := by
  have := t.ref_ge p i
  rw [Ctx.refs] at this
  omega

theorem uses_cwd (h : s.cwd q = some i) : 0 < uses s i :=
  Nat.add_pos_left (count_pos (i := q) (by simpa using h)) _

theorem uses_files (h : i ∈ s.files) : 0 < uses s i :=
  Nat.add_pos_right _ (List.count_pos_iff.mpr h)

/-- What a call has locked or is removing, it holds. -/
theorem held_of_valid (t : Table s x) (h : (x q).view i ≠ none ∨ (x q).job.dying = some i) :
    0 < (x q).held i :=
  h.elim ((t.ok q).view i) ((t.ok q).dying i)

/-- If there is one reference, and `p` has it, nobody else has one. -/
theorem sole (t : Table s x) (h : s.ref i = 1) (hp : 0 < (x p).refs i) :
    (∀ q, q ≠ p → (x q).refs i = 0) ∧ uses s i = 0 ∧ (x p).refs i = 1 := by
  classical
  have hsum := t.refs i
  rw [← add_sum_erase _ _ (mem_univ p)] at hsum
  refine ⟨fun q hq => ?_, by omega, by omega⟩
  have hle := single_le_sum (f := fun p => (x p).refs i) (fun _ _ => Nat.zero_le _)
    (mem_erase.mpr ⟨hq, mem_univ q⟩)
  omega

/-- An inode that is being freed is not touched by anybody else. -/
theorem freeing_alone (t : Table s x) (h : (x p).freeing = some i) :
    (∀ q, q ≠ p → ¬ (x q).Touches i) ∧ uses s i = 0 ∧ (x p).held i = 0 := by
  have hp : 0 < (x p).refs i := by simp [Ctx.refs, h]
  obtain ⟨h1, h2, h3⟩ := t.sole (t.freeing p i h).1 hp
  refine ⟨fun q hq ht => ?_, h2, ?_⟩
  · have h0 := h1 q hq
    rw [Ctx.refs] at h0
    rcases ht with ht | ht | ht
    · omega
    · have hl := (t.lock i p).mpr (.inr h)
      rw [(t.lock i q).mpr (.inl ht)] at hl
      exact hq (some.inj hl)
    · simp [ht] at h0
  · simp only [Ctx.refs, h, if_true] at h3
    omega

/-! ## One lemma per command

Each says what is different from `stay`. -/

theorem stay (t : Table s x) : Moves s s x p (x p) where
  refs _ := rfl
  lock_other _ _ _ := Iff.rfl
  lock_self i := t.lock i p
  node_other _ _ _ _ := rfl
  kind _ h h' := absurd h' h
  view := t.view p
  touch _ := .inl
  alive _ _ := id
  fresh _ := .inl
  cwd _ _ := .inl
  files _ := .inl
  ref_other _ _ _ _ := rfl
  freeing := t.freeing p
  removing _ _ := rfl
  removing_self := t.removing p
  valid _ _ _ _ := id
  valid_self := t.valid p
  ok := t.ok p

theorem valid_iget (t : Table s x) (h : 0 < (x q).held j) (hv : s.valid j = true) :
    (s.iget i).valid j = true := by
  rw [State.iget]
  dsimp only
  split
  · rename_i h0
    rw [update_of_ne]
    · exact hv
    · rintro rfl
      have := t.ref_pos h
      omega
  · exact hv

omit [Fintype P] in
theorem ref_iget : (s.iget i).ref j = s.ref j + if j = i then 1 else 0 := by
  rw [State.iget]
  dsimp only
  by_cases h : j = i
  · rw [h, update_self, if_pos rfl]
  · rw [update_of_ne h, if_neg h, Nat.add_zero]

omit [Fintype P] in
/-- A lock that `p` takes or gives back is nobody else's. -/
theorem lock_update {o : Option P} (hl : ∀ q, s.lock i = some q → q = p)
    (ho : ∀ q, o = some q → q = p) (hq : q ≠ p) :
    update s.lock i o j = some q ↔ s.lock j = some q := by
  by_cases h : j = i
  · rw [h, update_self]
    exact ⟨fun h => absurd (ho q h) hq, fun h => absurd (hl q h) hq⟩
  · rw [update_of_ne h]

section

variable (t : Table s x) {rem : P → Option Nat}

include t

/-- `iget`, `idup` and `dirlookup`: one more reference. -/
theorem get (hk : (s.node i).kind ≠ .free) (hf : ∀ q, (x q).job.fresh = some i → q = p)
    (hr : ∀ q, (x q).freeing ≠ some i) :
    Moves s (s.iget i) x p ((x p).get i) where
  __ := t.stay
  refs j := by
    rw [ref_iget, refs_get]
    change _ + uses s j = _ + uses s j
    omega
  touch _ := touches_get ⟨hk, hf⟩
  alive _ _ h := h
  ref_other q j _ h := by
    rw [ref_iget, if_neg (by rintro rfl; exact hr q h), Nat.add_zero]
  freeing j h := by
    rw [ref_iget, if_neg (by rintro rfl; exact hr p h), Nat.add_zero]
    exact t.freeing p j h
  valid q j _ h hv := t.valid_iget h hv
  valid_self j h := t.valid_iget (t.held_of_valid h) (t.valid p j h)
  ok := (t.ok p).get

theorem acquire (hh : 0 < (x p).held i) (hl : s.lock i = none) :
    Moves s { s with lock := update s.lock i (some p)
                     valid := update s.valid i true } x p ((x p).see i (s.node i)) where
  __ := t.stay
  lock_other _ _ := lock_update (by simp [hl]) (by simp [eq_comm])
  lock_self j := by
    dsimp only
    by_cases h : j = i
    · subst h
      simp
    · rw [update_of_ne h, see_of_ne h]
      exact t.lock j p
  view j nd h := by
    by_cases hj : j = i
    · subst hj
      exact some.inj (see_self.symm.trans h)
    · rw [see_of_ne hj] at h
      exact t.view p j nd h
  touch j ht := by
    rcases ht with ht | ht | ht
    · exact .inl (.inl ht)
    · by_cases h : j = i
      · subst h
        exact .inl (.inl hh)
      · rw [see_of_ne h] at ht
        exact .inl (.inr (.inl ht))
    · exact .inl (.inr (.inr ht))
  alive _ _ h := h
  freeing j h := by
    have hj : j ≠ i := by
      rintro rfl
      simp [(t.lock j p).mpr (.inr h)] at hl
    rw [see_of_ne hj]
    exact t.freeing p j h
  valid q j _ h hv := by
    by_cases hj : j = i <;> simp [hj, hv]
  valid_self j h := by
    by_cases hj : j = i
    · simp [hj]
    · rw [see_of_ne hj] at h
      simpa [hj] using t.valid p j h
  ok := by
    refine ⟨fun j hj => ?_, fun j hj => ?_, (t.ok p).dying⟩
    · by_cases h : j = i
      · exact h ▸ hh
      · rw [see_of_ne h] at hj
        exact (t.ok p).view j hj
    · by_cases h : j = i
      · simp [h]
      · rw [see_of_ne h]
        exact (t.ok p).pins j hj

theorem release (hv : (x p).view i ≠ none) (hp : i ∉ (x p).job.pins) :
    Moves s { s with lock := update s.lock i none } x p ((x p).unsee i) where
  __ := t.stay
  lock_other _ _ := lock_update (by simp [(t.lock i p).mpr (.inl hv), eq_comm]) nofun
  lock_self j := by
    dsimp only
    by_cases h : j = i
    · subst h
      have hf : (x p).freeing ≠ some j := fun h => hv (t.freeing p j h).2.2.1
      simpa [unsee] using hf
    · rw [update_of_ne h]
      simpa [unsee, h] using t.lock j p
  view j nd h := by
    by_cases hj : j = i
    · simp [unsee, hj] at h
    · exact t.view p j nd (by simpa [unsee, hj] using h)
  touch j ht := by
    rcases ht with ht | ht | ht
    · exact .inl (.inl ht)
    · exact .inl (.inr (.inl (view_of_unsee ht)))
    · exact .inl (.inr (.inr ht))
  alive _ _ h := h
  freeing j h := by
    obtain ⟨h1, h2, h3, h4⟩ := t.freeing p j h
    refine ⟨h1, h2, ?_, h4⟩
    by_cases hj : j = i <;> simp [unsee, hj, h3]
  valid_self j h := t.valid p j (h.imp view_of_unsee id)
  ok := by
    refine ⟨fun j hj => (t.ok p).view j (view_of_unsee hj), fun j hj => ?_, (t.ok p).dying⟩
    have hji : j ≠ i := fun h => hp (h ▸ hj)
    simpa [unsee, hji] using (t.ok p).pins j hj

/-- The first section of `iput`, when the inode is not freed. -/
theorem put (hh : 0 < (x p).held i) (hv : (x p).view i ≠ none → 1 < (x p).held i)
    (hf : (x p).freeing = none) (hr : ∀ q, q ≠ p → rem q = s.removing q)
    (hrp : ∀ j, rem p = some j → s.removing p = some j ∧ j ≠ i) :
    Moves s { (s.unref i) with removing := rem } x p (((x p).put i).settle i) where
  __ := t.stay
  refs j := by
    have h1 := refs_put (j := j) hh
    have h2 := t.ref_pos hh
    change update s.ref i (s.ref i - 1) j + (x p).refs j + uses s j =
      s.ref j + ((x p).put i).refs j + uses s j
    by_cases hj : j = i
    · subst hj
      rw [update_self]
      rw [if_pos rfl] at h1
      omega
    · rw [update_of_ne hj]
      rw [if_neg hj] at h1
      omega
  touch j ht := .inl (ht.imp held_of_put id)
  alive _ _ h := h
  fresh j h := .inl (settle_fresh h)
  ref_other q j hq h := by
    refine update_of_ne ?_ ..
    rintro rfl
    exact (t.freeing_alone h).1 p hq.symm (.inl hh)
  freeing j h := absurd (hf.symm.trans h) nofun
  removing := hr
  removing_self j h := by
    obtain ⟨h1, h2⟩ := hrp j h
    rcases t.removing p j h1 with h | h
    · refine .inl ?_
      rw [settle, if_neg]
      · exact h
      · exact fun h' => h2 (some.inj (h.symm.trans h'))
    · exact absurd (hf.symm.trans h) nofun
  valid_self j h := t.valid p j (h.imp id fun h => (settle_dying h).2)
  ok := (t.ok p).put hv

/-- The first section of `iput`, when the inode is to be freed. -/
theorem startFree (hh : 0 < (x p).held i) (hfr : (x p).job.fresh ≠ some i)
    (hf : (x p).freeing = none) (h1 : s.ref i = 1) (hn : (s.node i).nlink = 0)
    (hl : s.lock i = none) (hv : (x p).view i = none) :
    Moves s { s with lock := update s.lock i (some p) } x p
      { ((x p).put i).settle i with freeing := some i } where
  __ := t.stay
  refs j := by
    have h2 := refs_put (j := j) hh
    have h3 : ({ ((x p).put i).settle i with freeing := some i } : Ctx).refs j =
        ((x p).put i).refs j + if j = i then 1 else 0 := by
      change ((x p).put i).held j + (if some i = some j then 1 else 0) +
        (if (x p).dropping = some j then 1 else 0) = ((x p).put i).held j +
        (if (x p).freeing = some j then 1 else 0) + (if (x p).dropping = some j then 1 else 0) + _
      rw [hf]
      simp only [some.injEq, eq_comm (a := i), reduceCtorEq, if_false]
      omega
    rw [h3]
    change s.ref j + _ + uses s j = s.ref j + _ + uses s j
    omega
  lock_other _ _ := lock_update (by simp [hl]) (by simp [eq_comm])
  lock_self j := by
    dsimp only
    by_cases h : j = i
    · subst h
      simp
    · rw [update_of_ne h, t.lock, hf]
      simp [Ne.symm h, settle]
  touch j ht := by
    rcases ht with ht | ht | ht
    · exact .inl (.inl (held_of_put ht))
    · exact .inl (.inr (.inl ht))
    · cases ht
      exact .inl (.inl hh)
  alive _ _ h := h
  fresh j h := .inl (settle_fresh (x := (x p).put i) h)
  freeing j h := by
    cases h
    exact ⟨h1, hn, hv, fun h => hfr (settle_fresh (x := (x p).put i) h)⟩
  removing_self j h := by
    by_cases hj : j = i
    · exact .inr (by rw [hj])
    rcases t.removing p j h with h | h
    · refine .inl ?_
      change (((x p).put i).settle i).job.dying = some j
      rw [settle, if_neg]
      · exact h
      · exact fun h' => hj (some.inj (h.symm.trans h'))
    · exact absurd (hf.symm.trans h) (by simp)
  valid_self := fun j h => t.valid p j (h.imp id fun h => (settle_dying (x := (x p).put i) h).2)
  ok := ⟨((t.ok p).put fun h => absurd hv h).view, ((t.ok p).put fun h => absurd hv h).pins,
    ((t.ok p).put fun h => absurd hv h).dying⟩

theorem free {m : Node} (hf : (x p).freeing = some i) (hd : (x p).dropping = none)
    (hr : ∀ q, q ≠ p → rem q = s.removing q)
    (hrp : ∀ j, rem p = some j → s.removing p = some j ∧ j ≠ i) :
    Moves s { (s.set i m) with
      valid := update s.valid i false
      lock := update s.lock i none
      removing := rem } x p { x p with freeing := none, dropping := some i } := by
  have hl : s.lock i = some p := (t.lock i p).mpr (.inr hf)
  obtain ⟨halone, _, hheld⟩ := t.freeing_alone hf
  have hview : (x p).view i = none := (t.freeing p i hf).2.2.1
  have hne : ∀ j, ({ x p with freeing := none, dropping := some i } : Ctx).Touches j → j ≠ i := by
    rintro _ (h | h | h) rfl
    · exact absurd hheld (Nat.ne_of_gt h)
    · exact h hview
    · nomatch h
  have hnode : ∀ j, j ≠ i → (s.set i m).node j = s.node j := fun j hj => update_of_ne hj ..
  exact { t.stay with
    refs j := by
      change s.ref j + ((x p).held j + (if (x p).freeing = some j then 1 else 0) +
        (if (x p).dropping = some j then 1 else 0)) + uses s j =
        s.ref j + ((x p).held j + (if none = some j then 1 else 0) +
        (if some i = some j then 1 else 0)) + uses s j
      rw [hf, hd]
      simp
    lock_other _ _ := lock_update (by simp [hl, eq_comm]) nofun
    lock_self j := by
      dsimp only
      by_cases h : j = i
      · subst h
        simp [hview]
      · rw [update_of_ne h]
        have := t.lock j p
        rw [hf] at this
        simpa [Ne.symm h] using this
    node_other j q hq h := hnode j (by rintro rfl; exact hq (some.inj (h.symm.trans hl)))
    kind j h h' := by
      by_cases hj : j = i
      · rw [hj, hf]
      · rw [hnode j hj] at h'
        exact absurd h' h
    view j m h := by
      have hj : j ≠ i := by
        rintro rfl
        exact absurd (hview.symm.trans h) nofun
      rw [hnode j hj]
      exact t.view p j m h
    touch j ht := .inl (ht.imp id fun h => .inl (h.resolve_right nofun))
    alive j ht h := by
      rw [hnode j (hne j ht)]
      exact h
    freeing := nofun
    removing := hr
    removing_self j h := by
      obtain ⟨h1, h2⟩ := hrp j h
      refine .inl ((t.removing p j h1).resolve_right ?_)
      rw [hf]
      exact fun h => h2 (some.inj h).symm
    valid q j hq h hv := by
      dsimp only
      rw [update_of_ne]
      · exact hv
      · rintro rfl
        exact halone q hq (.inl h)
    valid_self j h := by
      have hp := t.held_of_valid h
      dsimp only
      rw [update_of_ne]
      · exact t.valid p j h
      · rintro rfl
        omega
    ok := ⟨(t.ok p).view, (t.ok p).pins, (t.ok p).dying⟩ }

/-- `iput` gives its reference back after it has freed the inode. -/
theorem drop (hd : (x p).dropping = some i) :
    Moves s (s.unref i) x p { x p with dropping := none } := by
  have hrefs : ∀ j, (x p).refs j = ({ x p with dropping := none } : Ctx).refs j +
      if j = i then 1 else 0 := by
    intro j
    change (x p).held j + (if (x p).freeing = some j then 1 else 0) +
      (if (x p).dropping = some j then 1 else 0) = (x p).held j +
      (if (x p).freeing = some j then 1 else 0) + (if none = some j then 1 else 0) + _
    rw [hd]
    simp only [some.injEq, eq_comm (a := i), reduceCtorEq, if_false]
    omega
  have hp : 0 < (x p).refs i := by
    rw [hrefs, if_pos rfl]
    omega
  have hne : ∀ j, j ≠ i → (s.unref i).ref j = s.ref j := fun j hj => update_of_ne hj ..
  exact { t.stay with
    refs j := by
      have h1 := hrefs j
      have h2 := t.ref_ge p i
      change (s.unref i).ref j + _ + uses s j = _ + uses s j
      by_cases hj : j = i
      · subst hj
        rw [if_pos rfl] at h1
        rw [show (s.unref j).ref j = s.ref j - 1 from update_self ..]
        omega
      · rw [hne j hj]
        rw [if_neg hj] at h1
        omega
    alive _ _ h := h
    ref_other q j hq h := hne j (by
      rintro rfl
      have hq' : 0 < (x q).refs j := by simp [Ctx.refs, h]
      have := (t.sole (t.freeing q j h).1 hq').1 p hq.symm
      omega)
    freeing j h := by
      have hj : j ≠ i := by
        rintro rfl
        have h1 := (t.freeing p j h).1
        have h2 := t.ref_ge p j
        have h3 : (x p).freeing = some j := h
        rw [Ctx.refs, h3, hd] at h2
        simp only [if_true] at h2
        omega
      rw [hne j hj]
      exact t.freeing p j h
    ok := ⟨(t.ok p).view, (t.ok p).pins, (t.ok p).dying⟩ }

theorem store {nd m : Node} {j : Job} (hv : (x p).view i = some m) (hk : nd.kind = m.kind)
    (hf : ∀ k, j.fresh = some k → (x p).job.fresh = some k) (hp : ∀ k ∈ j.pins, (x p).view k ≠ none)
    (hd : ∀ k, j.dying = some k → (x p).job.dying = some k ∨ (x p).view k ≠ none)
    (hr : ∀ q, q ≠ p → rem q = s.removing q)
    (hrp : ∀ k, rem p = some k → j.dying = some k ∨ (x p).freeing = some k) :
    Moves s { (s.set i nd) with removing := rem } x p { (x p).see i nd with job := j } := by
  have hl : s.lock i = some p := (t.lock i p).mpr (.inl (by simp [hv]))
  have hnode : ∀ k, k ≠ i → (s.set i nd).node k = s.node k := fun k hk => update_of_ne hk ..
  have hself : (s.set i nd).node i = nd := update_self ..
  have hkind : ∀ k, ((s.set i nd).node k).kind = (s.node k).kind := by
    intro k
    by_cases h : k = i
    · rw [h, hself, t.view p i m hv, hk]
    · rw [hnode k h]
  have hview : ∀ k, ((x p).see i nd).view k ≠ none ↔ (x p).view k ≠ none := by
    intro k
    by_cases h : k = i
    · simp [h, hv]
    · rw [see_of_ne h]
  exact { t.stay with
    lock_self k := by
      rw [hview]
      exact t.lock k p
    node_other k q hq h := hnode k (by rintro rfl; exact hq (some.inj (h.symm.trans hl)))
    kind k h h' := absurd (hkind k ▸ h') h
    view k m' h := by
      by_cases hki : k = i
      · subst hki
        rw [hself]
        exact some.inj (see_self.symm.trans h)
      · rw [hnode k hki]
        exact t.view p k m' ((see_of_ne hki).symm.trans h)
    touch k ht := .inl (ht.imp id fun h => h.imp (hview k).mp id)
    alive k _ h := by
      rw [hkind]
      exact h
    fresh k h := .inl (hf k h)
    freeing k h := by
      have hki : k ≠ i := by
        rintro rfl
        exact absurd (hv.symm.trans (t.freeing p k h).2.2.1) nofun
      obtain ⟨h1, h2, h3, h4⟩ := t.freeing p k h
      rw [hnode k hki]
      exact ⟨h1, h2, (see_of_ne hki).trans h3, fun h => h4 (hf k h)⟩
    removing := hr
    removing_self := hrp
    valid_self k h := by
      refine t.valid p k ?_
      rcases h with h | h
      · exact .inl ((hview k).mp h)
      · exact (hd k h).symm.imp id id
    ok := ⟨fun k h => (t.ok p).view k ((hview k).mp h), fun k h => (hview k).mpr (hp k h),
      fun k h => (hd k h).elim ((t.ok p).dying k) ((t.ok p).view k)⟩ }

theorem alloc {k : Kind} (hi : (s.node i).kind = .free) (hk : k ≠ .free) (hj : (x p).job = .none) :
    Moves s (s.set i ⟨k, 0, []⟩) x p { x p with job := .alloc i k } := by
  have hnode : ∀ l, l ≠ i → (s.set i ⟨k, 0, []⟩).node l = s.node l := fun l hl => update_of_ne hl ..
  have hself : (s.set i ⟨k, 0, []⟩).node i = ⟨k, 0, []⟩ := update_self ..
  have hne : ∀ q l, (x q).Touches l → l ≠ i := by
    rintro q _ h rfl
    exact (t.touch q _ h).1 hi
  exact { t.stay with
    node_other l q hq h := hnode l (hne q l ((t.lock l q).mp h |>.elim
      (fun h => .inr (.inl h)) fun h => .inr (.inr h)))
    kind l h h' := by
      by_cases hl : l = i
      · rw [hl, hself] at h'
        exact absurd h' hk
      · rw [hnode l hl] at h'
        exact absurd h' h
    view l nd h := by
      have hl : (x p).view l ≠ none := fun h' => absurd (h'.symm.trans h) nofun
      rw [hnode l (hne p l (.inr (.inl hl)))]
      exact t.view p l nd h
    alive l ht h := by
      rw [hnode l (hne p l ht)]
      exact h
    fresh l h := .inr (by
      cases h
      exact hi)
    freeing l h := by
      have hl : l ≠ i := hne p l (.inr (.inr h))
      obtain ⟨h1, h2, h3, h4⟩ := t.freeing p l h
      rw [hnode l hl]
      exact ⟨h1, h2, h3, fun h => hl (some.inj h).symm⟩
    removing_self l h := .inr ((t.removing p l h).resolve_left (by rw [hj]; nofun))
    valid_self l h := t.valid p l (.inl (h.resolve_right nofun))
    ok := ⟨(t.ok p).view, nofun, nofun⟩ }

end

theorem uses_update [DecidableEq P] {c : Option Nat} :
    uses { s with cwd := update s.cwd p c } j + (if s.cwd p = some j then 1 else 0) =
      uses s j + if c = some j then 1 else 0 := by
  have h : count (fun c => decide (c = some j)) (update s.cwd p c) +
      (if decide (s.cwd p = some j) = true then 1 else 0) =
      count (fun c => decide (c = some j)) s.cwd + if decide (c = some j) = true then 1 else 0 :=
    count_update
  simp only [decide_eq_true_eq] at h
  rw [uses, uses]
  dsimp only
  omega

theorem takeCwd [DecidableEq P] (t : Table s x) (h : s.cwd p = some i) :
    Moves s { s with cwd := update s.cwd p none } x p ((x p).get i) := by
  have hk := t.cwd p i h
  exact { t.stay with
    refs j := by
      have h1 := uses_update (s := s) (p := p) (c := none) (j := j)
      rw [h] at h1
      rw [refs_get]
      simp only [some.injEq, eq_comm (a := i), reduceCtorEq, if_false] at h1
      change s.ref j + _ + _ = s.ref j + _ + _
      omega
    touch _ := touches_get hk.mine
    alive _ _ h := h
    cwd q j hq := by
      by_cases hqp : q = p
      · simp [hqp] at hq
      · exact .inl (by simpa [hqp] using hq)
    ok := (t.ok p).get }

theorem setCwd [DecidableEq P] (t : Table s x) (hh : 0 < (x p).held i) (hv : (x p).view i = none)
    (hj : (x p).job = .none) (hc : s.cwd p = some j) :
    Moves s { s with cwd := update s.cwd p (some i) } x p (((x p).put i).get j) := by
  have hk := t.cwd p j hc
  exact { t.stay with
    refs k := by
      have h1 := uses_update (s := s) (p := p) (c := i) (j := k)
      have h2 := refs_put (j := k) hh
      rw [hc] at h1
      rw [refs_get]
      simp only [some.injEq, eq_comm (b := k)] at h1
      change s.ref k + _ + _ = s.ref k + _ + _
      omega
    touch _ ht := (touches_get hk.mine ht).imp_left (Or.imp_left held_of_put)
    alive _ _ h := h
    cwd q k hq := by
      by_cases hqp : q = p
      · obtain rfl : i = k := by simpa [hqp] using hq
        exact .inr ⟨hh, hj⟩
      · exact .inl (by simpa [hqp] using hq)
    ok := ((t.ok p).put_idle hv hj).get }

theorem giveCwd [DecidableEq P] (t : Table s x) (hh : 0 < (x p).held i) (hv : (x p).view i = none)
    (hj : (x p).job = .none) (hc : s.cwd p = none) :
    Moves s { s with cwd := update s.cwd p (some i) } x p ((x p).put i) where
  __ := t.stay
  refs k := by
    have h1 := uses_update (s := s) (p := p) (c := i) (j := k)
    have h2 := refs_put (j := k) hh
    rw [hc] at h1
    simp only [some.injEq, eq_comm (b := k), reduceCtorEq, if_false] at h1
    change s.ref k + _ + _ = s.ref k + _ + _
    omega
  touch k ht := .inl (ht.imp held_of_put id)
  alive _ _ h := h
  cwd q k hq := by
    by_cases hqp : q = p
    · obtain rfl : i = k := by simpa [hqp] using hq
      exact .inr ⟨hh, hj⟩
    · exact .inl (by simpa [hqp] using hq)
  ok := (t.ok p).put_idle hv hj

theorem openFile (t : Table s x) (hh : 0 < (x p).held i) (hv : (x p).view i ≠ none)
    (hj : (x p).job = .none) :
    Moves s { s with files := i :: s.files, lock := update s.lock i none } x p
      (((x p).unsee i).put i) := by
  have r := t.release hv (by rw [hj]; nofun)
  exact { t.stay with
    refs j := by
      have h2 := refs_put (x := (x p).unsee i) (j := j) hh
      change s.ref j + (x p).refs j + (count _ s.cwd + s.files.count j) =
        s.ref j + (((x p).unsee i).put i).refs j + (count _ s.cwd + (i :: s.files).count j)
      rw [List.count_cons]
      simp only [beq_iff_eq, eq_comm (a := i)]
      change _ = (x p).refs j at h2
      omega
    lock_other := r.lock_other
    lock_self := r.lock_self
    kind := r.kind
    view := r.view
    touch j ht := r.touch j (ht.imp held_of_put id)
    alive _ _ h := h
    files j hj' := by
      rcases List.mem_cons.mp hj' with rfl | h
      · exact .inr ⟨hh, hj⟩
      · exact .inl h
    freeing := r.freeing
    removing_self := r.removing_self
    valid_self := r.valid_self
    ok := r.ok.put_idle (update_self ..) hj }

theorem takeFile (t : Table s x) {k : Nat} (h : s.files[k]? = some i) :
    Moves s { s with files := s.files.eraseIdx k } x p ((x p).get i) := by
  have hk := t.files i (List.mem_of_getElem? h)
  exact { t.stay with
    refs j := by
      have h1 : s.files.count j = (s.files.eraseIdx k).count j + if j = i then 1 else 0 := by
        obtain ⟨hlt, rfl⟩ := List.getElem?_eq_some_iff.mp h
        rw [← (List.getElem_cons_eraseIdx_perm hlt).count_eq, List.count_cons]
        simp only [beq_iff_eq, eq_comm (a := j)]
      rw [refs_get]
      change s.ref j + _ + (count _ s.cwd + s.files.count j) =
        s.ref j + _ + (count _ s.cwd + (s.files.eraseIdx k).count j)
      omega
    touch _ := touches_get hk.mine
    alive _ _ h := h
    files j hj := .inl (List.mem_of_mem_eraseIdx hj)
    ok := (t.ok p).get }

end Table

/-! ## A step keeps the table -/

variable [DecidableEq P]

omit [Fintype P] in
theorem jobs_update : jobs (update x p y) = update (jobs x) p y.job := by
  funext q
  rw [jobs, Function.apply_update (fun _ => job)]
  rfl

theorem refs_update : ∑ q, (update x p y q).refs i + (x p).refs i = ∑ q, (x q).refs i + y.refs i :=
  sum_update (f := fun z : Ctx => z.refs i) (mem_univ p)

namespace Table

/-- **What is known stays known** as long as it is not freed. -/
theorem known_step (m : Moves s s' x p y) (h : Known s x i) (hf : (x p).freeing ≠ some i) :
    Known s' (update x p y) i := by
  refine ⟨fun h' => hf (m.kind i h.1 h'), ?_⟩
  rw [jobs_update, fresh_update]
  rintro (h' | ⟨q, _, h'⟩)
  · rcases m.fresh i h' with h' | h'
    · exact h.2 ⟨p, h'⟩
    · exact h.1 h'
  · exact h.2 ⟨q, h'⟩

theorem step (t : Table s x) (m : Moves s s' x p y) : Table s' (update x p y) := by
  have hx : ∀ q, q ≠ p → update x p y q = x q := fun q hq => update_of_ne hq ..
  have hxp : update x p y p = y := update_self ..
  -- nobody else touches what is being freed
  have hkind : ∀ q i, q ≠ p → (x q).Touches i → (s'.node i).kind ≠ .free := fun q i hq ht h' =>
    (t.freeing_alone (m.kind i (t.touch q i ht).1 h')).1 q hq ht
  have hmine : ∀ i, 0 < (x p).held i → (x p).job = .none → Known s x i ∧
      (x p).freeing ≠ some i := by
    intro i hh hj
    refine ⟨⟨(t.touch p i (.inl hh)).1, fun ⟨q, hq⟩ => ?_⟩, fun h => ?_⟩
    · obtain rfl := (t.touch p i (.inl hh)).2 q hq
      rw [jobs, hj] at hq
      nomatch hq
    · have := (t.freeing_alone h).2.2
      omega
  refine ⟨fun i => ?_, fun i q => ?_, fun q i nd h => ?_, fun q i ht => ?_, fun q i h => ?_,
    fun i h => ?_, fun q i h => ?_, fun q i h => ?_, fun q i h => ?_, fun q => ?_⟩
  · have h1 := m.refs i
    have h2 := t.refs i
    have h3 : ∑ q, (update x p y q).refs i + (x p).refs i = ∑ q, (x q).refs i + y.refs i :=
      refs_update
    omega
  · by_cases hq : q = p
    · subst hq
      rw [hxp]
      exact m.lock_self i
    · rw [hx q hq]
      exact (m.lock_other i q hq).trans (t.lock i q)
  · by_cases hq : q = p
    · subst hq
      rw [hxp] at h
      exact m.view i nd h
    · rw [hx q hq] at h
      rw [m.node_other i q hq ((t.lock i q).mpr (.inl (by simp [h])))]
      exact t.view q i nd h
  · by_cases hq : q = p
    · subst hq
      rw [hxp] at ht
      have hold : (s.node i).kind ≠ .free ∧ ∀ r, (x r).job.fresh = some i → r = q := by
        rcases m.touch i ht with h | h
        · exact t.touch q i h
        · exact h
      refine ⟨m.alive i ht hold.1, fun r hr => ?_⟩
      by_cases hrq : r = q
      · exact hrq
      · rw [hx r hrq] at hr
        exact hold.2 r hr
    · rw [hx q hq] at ht
      refine ⟨hkind q i hq ht, fun r hr => ?_⟩
      by_cases hrp : r = p
      · subst hrp
        rw [hxp] at hr
        rcases m.fresh i hr with h | h
        · exact (t.touch q i ht).2 r h
        · exact absurd h (t.touch q i ht).1
      · rw [hx r hrp] at hr
        exact (t.touch q i ht).2 r hr
  · rcases m.cwd q i h with h | ⟨hh, hj⟩
    · refine known_step m (t.cwd q i h) fun h' => ?_
      have h1 := (t.freeing_alone h').2.1
      have h2 := uses_cwd h
      omega
    · exact known_step m (hmine i hh hj).1 (hmine i hh hj).2
  · rcases m.files i h with h | ⟨hh, hj⟩
    · refine known_step m (t.files i h) fun h' => ?_
      have h1 := (t.freeing_alone h').2.1
      have h2 := uses_files h
      omega
    · exact known_step m (hmine i hh hj).1 (hmine i hh hj).2
  · by_cases hq : q = p
    · subst hq
      rw [hxp] at h ⊢
      exact m.freeing i h
    · rw [hx q hq] at h ⊢
      rw [m.ref_other q i hq h, m.node_other i q hq ((t.lock i q).mpr (.inr h))]
      exact t.freeing q i h
  · by_cases hq : q = p
    · subst hq
      rw [hxp]
      exact m.removing_self i h
    · rw [m.removing q hq] at h
      rw [hx q hq]
      exact t.removing q i h
  · by_cases hq : q = p
    · subst hq
      rw [hxp] at h
      exact m.valid_self i h
    · rw [hx q hq] at h
      exact m.valid q i hq (t.held_of_valid h) (t.valid q i h)
  · by_cases hq : q = p
    · subst hq
      rw [hxp]
      exact m.ok
    · rw [hx q hq]
      exact t.ok q

end Table

end Xv6.Dir
