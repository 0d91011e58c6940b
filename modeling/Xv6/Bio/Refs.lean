import Xv6.Bio.Discipline
import Xv6.Log.Protocol

/-!
# Reference counts
-/

namespace Xv6.Bio

open Lts Code Nat
open Function (update update_self update_of_ne)

variable {P : Type} [DecidableEq P] [Fintype P]
variable {k : K (Fin nbuf) Unit} {t : Thread}

/-! ## References -/

/-- The process has a reference to the buffer, from `bget`, but not its lock: it is waiting for the
lock, or has released it and is about to drop the reference. -/
def Thread.refs (i : Fin nbuf) : Thread → Bool
  | .locking j _ => decide (j = i)
  | .putting j _ => decide (j = i)
  | _ => false

@[simp] theorem Thread.refs_run (i : Fin nbuf) (c : K (Fin nbuf) Unit) :
    (Thread.run c).refs i = false := rfl

@[simp] theorem Thread.refs_locking (i j : Fin nbuf) (k : Fin nbuf × Block → K (Fin nbuf) Unit) :
    (Thread.locking j k).refs i = decide (j = i) := rfl

@[simp] theorem Thread.refs_reading (i j : Fin nbuf) (k : Fin nbuf × Block → K (Fin nbuf) Unit) :
    (Thread.reading j k).refs i = false := rfl

@[simp] theorem Thread.refs_putting (i j : Fin nbuf) (k : K (Fin nbuf) Unit) :
    (Thread.putting j k).refs i = decide (j = i) := rfl

@[simp] theorem Thread.refs_logTested (i j : Fin nbuf) (k : K (Fin nbuf) Unit) :
    (Thread.logTested j k).refs i = false := rfl

@[simp] theorem Thread.refs_logAcquire (i j : Fin nbuf) (k : K (Fin nbuf) Unit) :
    (Thread.logAcquire j k).refs i = false := rfl

/-- The entries of `log.lh` whose buffers are pinned: those that `install_trans` has not unpinned
yet. -/
def State.pins (s : State P) : List Nat := s.log.lh.drop s.unpinned

/-- The buffer caches one of the given blocks. -/
def Buf.In (u : Buf P) (pins : List Nat) : Prop := u.dev = rootDev ∧ u.blockno ∈ pins

instance (u : Buf P) (pins : List Nat) : Decidable (u.In pins) :=
  inferInstanceAs (Decidable (_ ∧ _))

/-- What is known of the reference counts. -/
structure Refs (lru : List (Fin nbuf)) (buf : Fin nbuf → Buf P) (gets : Fin nbuf → Nat)
    (pins : List Nat) (thread : P → Thread) : Prop where
  /-- Every buffer is in the list. -/
  listed : ∀ i, i ∈ lru
  /-- No block is cached twice. -/
  unique : ∀ i j, (buf i).dev = rootDev → (buf j).dev = rootDev →
    (buf i).blockno = (buf j).blockno → i = j
  /-- The count is the number of unmatched `bget` calls, plus one for a pinned block. -/
  refcnt : ∀ i, (buf i).refcnt = gets i + if (buf i).In pins then 1 else 0
  /-- Every unmatched `bget` is a process that holds the lock or one that does not. -/
  users : ∀ i, gets i = count (Thread.refs i) thread + if (buf i).lock = none then 0 else 1
  /-- A buffer in use caches a block. -/
  inUse : ∀ i, 0 < gets i → (buf i).dev = rootDev
  /-- A pinned block is cached. -/
  cached : ∀ b ∈ pins, ∃ i, (buf i).dev = rootDev ∧ (buf i).blockno = b

namespace Refs

variable {lru lru' : List (Fin nbuf)} {buf buf' : Fin nbuf → Buf P} {gets gets' : Fin nbuf → Nat}
  {pins pins' : List Nat} {thread : P → Thread} {p : P} {i : Fin nbuf} {b n : Nat}

section

variable (h : Refs lru buf gets pins thread)

include h

section

omit [DecidableEq P]

/-- **No overflow**: a process is in at most one `bget` or `brelse`. -/
theorem gets_le (i : Fin nbuf) : gets i ≤ Fintype.card P + 1 := by
  have hc := count_le_card (Thread.refs i) thread
  rw [h.users i]
  split <;> omega

theorem gets_pos_of_refs (hp : (thread p).refs i = true) : 0 < gets i := by
  have hc := count_pos (t := Thread.refs i) (f := thread) hp
  rw [h.users i]
  omega

theorem gets_pos_of_lock (hl : (buf i).lock ≠ none) : 0 < gets i := by
  rw [h.users i, if_neg hl]
  omega

/-- A buffer that `bget` may recycle is in nobody's use. -/
theorem of_refcnt_eq_zero (hi : (buf i).refcnt = 0) : gets i = 0 ∧ ¬ (buf i).In pins := by
  have := h.refcnt i
  split at this
  · omega
  · exact ⟨by omega, ‹_›⟩

theorem not_cached (hb : ∀ i ∈ lru, ¬ ((buf i).dev = rootDev ∧ (buf i).blockno = b)) :
    b ∉ pins := by
  intro hm
  obtain ⟨j, hj⟩ := h.cached b hm
  exact hb j (h.listed j) hj

end

end

/-- The number of processes without the lock, when one process moves. -/
theorem count_goto (ht : t.refs i = (thread p).refs i) :
    count (Thread.refs i) (update thread p t) = count (Thread.refs i) thread :=
  count_update_same ht

/-- Nothing that matters has changed in the buffers. -/
def Same (u v : Buf P) : Prop :=
  u.dev = v.dev ∧ u.blockno = v.blockno ∧ u.lock = v.lock ∧ u.refcnt = v.refcnt

/-- A step that only looks at buffers or changes their contents. -/
theorem quiet (h : Refs lru buf gets pins thread) (hb : ∀ i, Same (buf' i) (buf i))
    (ht : ∀ i, t.refs i = (thread p).refs i) : Refs lru buf' gets pins (update thread p t) where
  listed := h.listed
  unique i j := by
    rw [(hb i).1, (hb j).1, (hb i).2.1, (hb j).2.1]
    exact h.unique i j
  refcnt i := by
    have hin : (buf' i).In pins ↔ (buf i).In pins := by
      rw [Buf.In, (hb i).1, (hb i).2.1, Buf.In]
    rw [(hb i).2.2.2, h.refcnt i]
    simp only [hin]
  users i := by
    rw [(hb i).2.2.1, count_goto (ht i)]
    exact h.users i
  inUse i := by
    rw [(hb i).1]
    exact h.inUse i
  cached b hm := by
    obtain ⟨j, hj⟩ := h.cached b hm
    exact ⟨j, by rwa [(hb j).1, (hb j).2.1]⟩

/-- A step that changes one buffer in use, and the process that uses it. -/
theorem change (h : Refs lru buf gets pins thread) (hlru : ∀ j ∈ lru, j ∈ lru')
    (hbuf : ∀ j, j ≠ i → buf' j = buf j) (hgets : ∀ j, j ≠ i → gets' j = gets j)
    (hrefs : ∀ j, j ≠ i → t.refs j = (thread p).refs j) (hdev : (buf' i).dev = rootDev)
    (hnew : ∀ j, j ≠ i → (buf j).dev = rootDev → (buf j).blockno ≠ (buf' i).blockno)
    (hpins : ∀ b ∈ pins', b ∈ pins ∧
      ((buf i).dev = rootDev → (buf i).blockno = b → (buf' i).blockno = b) ∨ b = (buf' i).blockno)
    (hpins' : ∀ b ∈ pins, b ∉ pins' → b = (buf' i).blockno)
    (hcnt : (buf' i).refcnt = gets' i + if (buf' i).In pins' then 1 else 0)
    (huse : gets' i = count (Thread.refs i) (update thread p t) +
      if (buf' i).lock = none then 0 else 1) :
    Refs lru' buf' gets' pins' (update thread p t) where
  listed j := hlru j (h.listed j)
  unique j k hj hk hjk := by
    by_cases hji : j = i <;> by_cases hki : k = i
    · rw [hji, hki]
    · subst hji
      rw [hbuf k hki] at hk hjk
      exact absurd hjk.symm (hnew k hki hk)
    · subst hki
      rw [hbuf j hji] at hj hjk
      exact absurd hjk (hnew j hji hj)
    · rw [hbuf j hji] at hj hjk
      rw [hbuf k hki] at hk hjk
      exact h.unique j k hj hk hjk
  refcnt j := by
    by_cases hji : j = i
    · rw [hji, hcnt]
    · -- another buffer is pinned exactly when it was
      have hin : (buf j).In pins' ↔ (buf j).In pins := by
        refine and_congr_right fun hj => ⟨fun hm => ?_, fun hm => ?_⟩
        · rcases hpins _ hm with hm' | hm'
          · exact hm'.1
          · exact absurd hm' (hnew j hji hj)
        · by_contra hm'
          exact hnew j hji hj (hpins' _ hm hm')
      rw [hbuf j hji, hgets j hji, h.refcnt j]
      simp only [hin]
  users j := by
    by_cases hji : j = i
    · rw [hji, huse]
    · rw [hbuf j hji, hgets j hji, count_goto (hrefs j hji), h.users j]
  inUse j hj := by
    by_cases hji : j = i
    · rw [hji, hdev]
    · rw [hgets j hji] at hj
      rw [hbuf j hji, h.inUse j hj]
  cached b hm := by
    rcases hpins b hm with ⟨hm', hi⟩ | hm'
    · obtain ⟨j, hj, hjb⟩ := h.cached b hm'
      by_cases hji : j = i
      · exact ⟨i, hdev, hi (hji ▸ hj) (hji ▸ hjb)⟩
      · exact ⟨j, by rw [hbuf j hji]; exact ⟨hj, hjb⟩⟩
    · exact ⟨i, hdev, hm'.symm⟩

/-- A step that changes one buffer in use but not the block it caches. -/
theorem changeSame (h : Refs lru buf gets pins thread) {u : Buf P} (hlru : ∀ j ∈ lru, j ∈ lru')
    (hgets : ∀ j, j ≠ i → gets' j = gets j) (hrefs : ∀ j, j ≠ i → t.refs j = (thread p).refs j)
    (hd : (buf i).dev = rootDev) (hdev : u.dev = (buf i).dev) (hno : u.blockno = (buf i).blockno)
    (hpins : ∀ b ∈ pins', b ∈ pins ∨ b = (buf i).blockno)
    (hpins' : ∀ b ∈ pins, b ∉ pins' → b = (buf i).blockno)
    (hcnt : u.refcnt = gets' i + if (buf i).In pins' then 1 else 0)
    (huse : gets' i = count (Thread.refs i) (update thread p t) + if u.lock = none then 0 else 1) :
    Refs lru' (update buf i u) gets' pins' (update thread p t) := by
  have hin : u.In pins' ↔ (buf i).In pins' := by rw [Buf.In, hdev, hno, Buf.In]
  have hself : update buf i u i = u := update_self ..
  refine h.change hlru (fun j hj => update_of_ne hj ..) hgets hrefs ?_ ?_ ?_ ?_ ?_ ?_
  · rw [hself, hdev, hd]
  · intro j hj hjd hjb
    rw [hself, hno] at hjb
    exact hj (h.unique j i hjd hd hjb)
  · intro b hb
    rw [hself, hno]
    exact (hpins b hb).imp (fun hb' => ⟨hb', fun _ hib => hib⟩) id
  · rwa [hself, hno]
  · rw [hself, hcnt]
    simp only [hin]
  · rwa [hself]

theorem incr_eq (h : n < 2 ^ 32 - 1) : incr n = n + 1 := mod_eq_of_lt (by omega)

theorem decr_succ (h : n < 2 ^ 32) : decr (n + 1) = n := by
  rw [decr, show n + 1 + (2 ^ 32 - 1) = n + 2 ^ 32 by omega, add_mod_right,
    mod_eq_of_lt h]

section

variable (h : Refs lru buf gets pins thread)

include h

omit [DecidableEq P] in
/-- The count is small, so it does not wrap around. -/
theorem refcnt_lt (hP : Fintype.card P ≤ nproc) (i : Fin nbuf) : (buf i).refcnt < 2 ^ 32 - 1 := by
  have hle := h.gets_le i
  rw [nproc] at hP
  rw [h.refcnt i]
  split <;> omega

theorem hit (hP : Fintype.card P ≤ nproc) (hd : (buf i).dev = rootDev)
    (ht : ∀ j, (thread p).refs j = false) (k : Fin nbuf × Block → K (Fin nbuf) Unit) :
    Refs lru (update buf i { buf i with refcnt := incr (buf i).refcnt })
      (update gets i (gets i + 1)) pins (update thread p (.locking i k)) := by
  have hc := count_update_in (t := Thread.refs i) (x := .locking i k) (ht i) (by simp)
  refine h.changeSame (fun _ hj => hj) (fun j hj => update_of_ne hj ..)
    (fun j hj => by simp [ht j, hj.symm]) hd rfl rfl (fun b hb => .inl hb)
    (fun b hb hb' => absurd hb hb') ?_ ?_
  · simp only [update_self, incr_eq (h.refcnt_lt hP i)]
    rw [h.refcnt i, add_right_comm]
  · rw [update_self, hc, h.users i, add_right_comm]

theorem recycle (hb : ∀ i ∈ lru, ¬ ((buf i).dev = rootDev ∧ (buf i).blockno = b))
    (hi : (buf i).refcnt = 0) (ht : ∀ j, (thread p).refs j = false)
    (k : Fin nbuf × Block → K (Fin nbuf) Unit) :
    Refs lru (update buf i
        { buf i with dev := rootDev, blockno := b, valid := false, refcnt := 1 })
      (update gets i (gets i + 1)) pins (update thread p (.locking i k)) := by
  have hc := count_update_in (t := Thread.refs i) (x := .locking i k) (ht i) (by simp)
  obtain ⟨hg, hpin⟩ := h.of_refcnt_eq_zero hi
  have hbp := h.not_cached hb
  refine h.change (fun _ hj => hj) (fun j hj => update_of_ne hj ..)
    (fun j hj => update_of_ne hj ..) (fun j hj => by simp [ht j, hj.symm])
    ?_ ?_ ?_ (fun b hb hb' => absurd hb hb') ?_ ?_
  · rw [update_self]
  · intro j _ hjd
    simpa using fun hjb => hb j (h.listed j) ⟨hjd, hjb⟩
  · intro c hcp
    exact .inl ⟨hcp, fun hd hib => absurd ⟨hd, hib ▸ hcp⟩ hpin⟩
  · rw [update_self, update_self, hg, if_neg (fun hin => hbp hin.2)]
  · rw [update_self, update_self, hc, h.users i, add_right_comm]

theorem acquire {k k' : Fin nbuf × Block → K (Fin nbuf) Unit} (hp : thread p = .locking i k)
    (hl : (buf i).lock = none) :
    Refs lru (update buf i { buf i with lock := some p }) gets pins
      (update thread p (.reading i k')) := by
  have hc := count_update_out (t := Thread.refs i) (f := thread) (i := p) (x := .reading i k')
    (by simp [hp]) (by simp)
  have huse := h.users i
  rw [if_pos hl] at huse
  refine h.changeSame (fun _ hj => hj) (fun _ _ => rfl) (fun j hj => by simp [hp, hj.symm])
    (h.inUse i (h.gets_pos_of_refs (p := p) (by simp [hp]))) rfl rfl (fun b hb => .inl hb)
    (fun b hb hb' => absurd hb hb') (h.refcnt i) ?_
  rw [if_neg (by simp)]
  omega

theorem release (ht : ∀ j, (thread p).refs j = false) (hl : (buf i).lock ≠ none) :
    Refs lru (update buf i { buf i with lock := none }) gets pins
      (update thread p (.putting i k)) := by
  have hc := count_update_in (t := Thread.refs i) (x := .putting i k) (ht i) (by simp)
  have huse := h.users i
  rw [if_neg hl] at huse
  refine h.changeSame (fun _ hj => hj) (fun _ _ => rfl) (fun j hj => by simp [ht j, hj.symm])
    (h.inUse i (h.gets_pos_of_lock hl)) rfl rfl (fun b hb => .inl hb)
    (fun b hb hb' => absurd hb hb') (h.refcnt i) ?_
  rw [if_pos rfl, hc]
  omega

theorem put (hP : Fintype.card P ≤ nproc) {k' : K (Fin nbuf) Unit} (hp : thread p = .putting i k) :
    Refs (if decr (buf i).refcnt = 0 then i :: lru.erase i else lru)
      (update buf i { buf i with refcnt := decr (buf i).refcnt })
      (update gets i (gets i - 1)) pins (update thread p (.run k')) := by
  have hpos := h.gets_pos_of_refs (p := p) (i := i) (by simp [hp])
  have hc := count_update_out (t := Thread.refs i) (f := thread) (i := p) (x := .run k')
    (by simp [hp]) (by simp)
  have hcnt := h.refcnt i
  have huse := h.users i
  have hlt := h.refcnt_lt hP i
  obtain ⟨n, hn⟩ : ∃ n, gets i = n + 1 := ⟨gets i - 1, by omega⟩
  refine h.changeSame ?_ (fun j hj => update_of_ne hj ..)
    (fun j hj => by simp [hp, hj.symm]) (h.inUse i hpos) rfl rfl (fun b hb => .inl hb)
    (fun b hb hb' => absurd hb hb') ?_ ?_
  · intro j hj
    split
    · by_cases hji : j = i
      · exact hji ▸ List.mem_cons_self
      · exact List.mem_cons_of_mem _ ((List.mem_erase_of_ne hji).mpr hj)
    · exact hj
  · rw [hn, add_right_comm] at hcnt
    simp only [update_self]
    rw [hcnt, decr_succ (by omega), hn, Nat.add_sub_cancel]
  · rw [update_self]
    change gets i - 1 = _ + if (buf i).lock = none then 0 else 1
    omega

theorem pin (hP : Fintype.card P ≤ nproc) (ht : ∀ j, (thread p).refs j = false)
    (hd : (buf i).dev = rootDev) (hi : (buf i).blockno ∉ pins) :
    Refs lru (update buf i { buf i with refcnt := incr (buf i).refcnt }) gets
      (pins ++ [(buf i).blockno]) (update thread p (.run k)) := by
  have hcnt := h.refcnt i
  rw [if_neg fun hin => hi hin.2] at hcnt
  refine h.changeSame (fun _ hj => hj) (fun _ _ => rfl) (fun j hj => by simp [ht j])
    hd rfl rfl ?_ ?_ ?_ ?_
  · intro b hb
    simpa using hb
  · intro b hb hb'
    exact absurd (List.mem_append_left _ hb) hb'
  · simp only [incr_eq (h.refcnt_lt hP i)]
    rw [hcnt, if_pos ⟨hd, by simp⟩, add_zero]
  · rw [count_goto (by simp [ht]), h.users i]

end

theorem unpin (h : Refs lru buf gets ((buf i).blockno :: pins) thread) (hP : Fintype.card P ≤ nproc)
    (ht : ∀ j, (thread p).refs j = false) (hd : (buf i).dev = rootDev)
    (hi : (buf i).blockno ∉ pins) :
    Refs lru (update buf i { buf i with refcnt := decr (buf i).refcnt }) gets pins
      (update thread p (.run k)) := by
  have hcnt := h.refcnt i
  have hlt := h.refcnt_lt hP i
  rw [if_pos ⟨hd, List.mem_cons_self⟩] at hcnt
  refine h.changeSame (fun _ hj => hj) (fun _ _ => rfl) (fun j hj => by simp [ht j])
    hd rfl rfl (fun b hb => .inl (List.mem_cons_of_mem _ hb)) ?_ ?_ ?_
  · intro b hb hb'
    exact (List.mem_cons.mp hb).resolve_right hb'
  · simp only
    rw [hcnt, decr_succ (by omega), if_neg fun hin => hi hin.2, add_zero]
  · rw [count_goto (by simp [ht]), h.users i]

end Refs

end Xv6.Bio
