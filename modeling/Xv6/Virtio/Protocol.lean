import Xv6.Virtio.Descriptors

/-!
# The descriptor protocol

The invariant of the driver.  Its centre is `queue`: the heads of all requests that the device has
been told about and `virtio_disk_intr` has not handled, in the order `avail` ring, device, `used`
ring.  The queue has the heads of exactly those threads whose flag `b->disk` is set.
-/

open Lts

namespace Xv6.Virtio

open List Function

/-! ## Threads -/

namespace Pc

variable {B T : Type} {c : Pc B} {r : Req B} {x : Idx}

/-- The thread holds `vdisk_lock`. -/
def holds : Pc B → Bool
  | .rwAlloc _ | .rwFill _ _ | .rwPublish _ _ | .rwTest _ _ | .rwFree _ _ | .rwRelease | .intrTest
  | .intrBody | .intrAck => true
  | _ => false

/-- The chain of the thread. -/
def idx : Pc B → Option Idx
  | .rwFill _ x | .rwPublish _ x | .rwTest _ x | .sleepBuf _ x | .wokenBuf _ x
  | .rwFree _ x => some x
  | _ => none

/-- Its request, once the descriptors are written. -/
def formatted : Pc B → Option (Req B × Idx)
  | .rwPublish r x | .rwTest r x | .sleepBuf r x | .wokenBuf r x | .rwFree r x => some (r, x)
  | _ => none

/-- Its request, once the device has been told. -/
def published : Pc B → Option (Req B × Idx)
  | .rwTest r x | .sleepBuf r x | .wokenBuf r x | .rwFree r x => some (r, x)
  | _ => none

/-- What matters to others about a thread. -/
structure SameView (c c' : Pc B) : Prop where
  buf : c'.buf = c.buf
  idx : c'.idx = c.idx
  formatted : c'.formatted = c.formatted
  published : c'.published = c.published

theorem SameView.rfl : SameView c c := ⟨Eq.refl _, Eq.refl _, Eq.refl _, Eq.refl _⟩

theorem idx_of_formatted (h : c.formatted = some (r, x)) : c.idx = some x ∧ c.buf = some r.b := by
  cases c with
  | rwPublish | rwTest | sleepBuf | wokenBuf | rwFree =>
    cases h
    exact ⟨Eq.refl _, Eq.refl _⟩
  | _ => nomatch h

theorem formatted_of_published (h : c.published = some (r, x)) : c.formatted = some (r, x) := by
  cases c with
  | rwTest | sleepBuf | wokenBuf | rwFree => exact h
  | _ => nomatch h

theorem wakeFree_view (c : Pc B) : SameView c c.wakeFree ∧ c.wakeFree.holds = c.holds := by
  cases c <;> exact ⟨⟨Eq.refl _, Eq.refl _, Eq.refl _, Eq.refl _⟩, Eq.refl _⟩

theorem wakeBuf_view [DecidableEq B] (b : B) (c : Pc B) :
    SameView c (c.wakeBuf b) ∧ (c.wakeBuf b).holds = c.holds := by
  cases c with
  | sleepBuf r x =>
    rw [wakeBuf]
    split <;> exact ⟨⟨Eq.refl _, Eq.refl _, Eq.refl _, Eq.refl _⟩, Eq.refl _⟩
  | _ => exact ⟨⟨Eq.refl _, Eq.refl _, Eq.refl _, Eq.refl _⟩, Eq.refl _⟩

/-- What a thread relies on where it is. -/
def Fits {T : Type} (s : State T B) : Pc B → Prop
  | .sleepFree _ => ¬ State.ThreeFree s.free
  | .rwPublish r x => s.avail.data (s.avail.nwrite % num) = x.i0 ∧ s.flag r.b = true
  | .sleepBuf r _ => s.flag r.b = true
  | .rwFree r _ => s.flag r.b = false
  | .intrBody => s.used.isEmpty = false
  | _ => True

/-- A woken thread does not rely on there being few free descriptors. -/
theorem Fits.wakeFree {s s' : State T B} (h : c.Fits s) (hf : s'.flag = s.flag)
    (ha : s'.avail = s.avail) (hu : s'.used = s.used) : c.wakeFree.Fits s' := by
  cases c with
  | rwPublish | sleepBuf | rwFree | intrBody =>
    simp only [Fits, Pc.wakeFree, hf, ha, hu] at h ⊢
    exact h
  | _ => trivial

/-- What a thread relies on changes only where it depends on the state. -/
theorem Fits.congr {s s' : State T B} (h : c.Fits s)
    (hfree : State.ThreeFree s'.free → State.ThreeFree s.free)
    (hslot : ∀ r x, c = .rwPublish r x → s.avail.data (s.avail.nwrite % num) = x.i0 →
      s'.avail.data (s'.avail.nwrite % num) = x.i0)
    (hflag : ∀ b, c.buf = some b → s'.flag b = s.flag b)
    (hused : c = .intrBody → s.used.isEmpty = false → s'.used.isEmpty = false) : c.Fits s' := by
  cases c with
  | sleepFree r => exact mt hfree h
  | rwPublish r x => exact ⟨hslot r x (Eq.refl _) h.1, (hflag r.b (Eq.refl _)).trans h.2⟩
  | sleepBuf r x | rwFree r x => exact (hflag r.b (Eq.refl _)).trans h
  | intrBody => exact hused (Eq.refl _) h
  | _ => trivial

end Pc

/-! ## The invariant -/

section

variable {T B : Type}

/-- The requests that are under way, by their heads. -/
def State.queue (s : State T B) : List Nat :=
  s.avail.contents num idxSize ++ s.pending ++ s.used.contents num idxSize

structure Inv (s : State T B) : Prop where
  lock : ∀ t, (s.pc t).holds = true ↔ s.lock = some t
  bufs : ∀ t u b, (s.pc t).buf = some b → (s.pc u).buf = some b → t = u
  chain : ∀ t x, (s.pc t).idx = some x → x.list.Nodup ∧ ∀ i ∈ x.list, i < num ∧ s.free i = false
  disjoint : ∀ t u x y i, (s.pc t).idx = some x → (s.pc u).idx = some y → i ∈ x.list →
    i ∈ y.list → t = u
  owner : ∀ i, i < num → s.free i = false → ∃ t x, (s.pc t).idx = some x ∧ i ∈ x.list
  format : ∀ t r x, (s.pc t).formatted = some (r, x) → s.desc x.i0 = State.header r x ∧
    s.desc x.i1 = State.data r x ∧ s.desc x.i2 = State.result x ∧ s.info x.i0 = some r.b
  fits : ∀ t, (s.pc t).Fits s
  nodup : s.queue.Nodup
  queued : ∀ h ∈ s.queue, ∃ t r x, (s.pc t).published = some (r, x) ∧ x.i0 = h ∧ s.flag r.b = true
  flagged : ∀ t r x, (s.pc t).published = some (r, x) → s.flag r.b = true → x.i0 ∈ s.queue
  avail : s.avail.Ok num idxSize
  used : s.used.Ok num idxSize
  usedIdx : s.usedIdx = s.used.nread % num
  history : s.completed.map some = s.cleared.map some ++ (s.used.contents num idxSize).map s.info
  stopped : s.stopped = none ∨ s.stopped = some .status

namespace Inv

variable {s : State T B} {t u : T} (h : Inv s)

include h

theorem eq_of_head {r r' : Req B} {x y : Idx} (ht : (s.pc t).published = some (r, x))
    (hu : (s.pc u).published = some (r', y)) (he : x.i0 = y.i0) : t = u :=
  h.disjoint t u x y x.i0 (Pc.idx_of_formatted (Pc.formatted_of_published ht)).1
    (Pc.idx_of_formatted (Pc.formatted_of_published hu)).1 (by simp [Idx.list])
      (by simp [Idx.list, he])

/-- Three threads cannot have chains at the same time. -/
theorem not_three {v : T} {x y z : Idx} (ht : (s.pc t).idx = some x) (hu : (s.pc u).idx = some y)
    (hv : (s.pc v).idx = some z) (htu : t ≠ u) (htv : t ≠ v) (huv : u ≠ v) : False := by
  have hdisj : ∀ {t u : T} {x y : Idx}, (s.pc t).idx = some x → (s.pc u).idx = some y → t ≠ u →
      ∀ i ∈ x.list, ∀ j ∈ y.list, i ≠ j := fun ht hu hne i hi j hj he =>
    hne (h.disjoint _ _ _ _ i ht hu hi (he ▸ hj))
  refine chains_le_two (a := x) (b := y) (c := z) ?_ fun i hi => ?_
  · rw [nodup_append, nodup_append]
    refine ⟨⟨(h.chain t x ht).1, (h.chain u y hu).1, hdisj ht hu htu⟩, (h.chain v z hv).1, ?_⟩
    exact forall_mem_append.mpr ⟨hdisj ht hv htv, hdisj hu hv huv⟩
  · rw [mem_append, mem_append] at hi
    obtain (hi | hi) | hi := hi
    · exact ((h.chain t x ht).2 i hi).1
    · exact ((h.chain u y hu).2 i hi).1
    · exact ((h.chain v z hv).2 i hi).1

/-- **At most two requests are under way.** -/
theorem queue_le : s.queue.length ≤ 2 := by
  have hn := h.nodup
  have hq := h.queued
  match hl : s.queue with
  | [] | [_] | [_, _] => simp
  | a :: b :: c :: l =>
    exfalso
    rw [hl] at hn hq
    obtain ⟨t, r, x, ht, rfl, -⟩ := hq a (by simp)
    obtain ⟨u, r', y, hu, rfl, -⟩ := hq b (by simp)
    obtain ⟨v, r'', z, hv, rfl, -⟩ := hq c (by simp)
    have hne : ∀ {t u : T} {r r' : Req B} {x y : Idx}, (s.pc t).published = some (r, x) →
        (s.pc u).published = some (r', y) → x.i0 ≠ y.i0 → t ≠ u := by
      rintro t u r r' x y ht hu hxy rfl
      rw [ht] at hu
      exact hxy (by rw [(Prod.mk.inj (Option.some.inj hu)).2])
    have hxy : x.i0 ≠ y.i0 ∧ x.i0 ≠ z.i0 ∧ y.i0 ≠ z.i0 := by
      simp only [nodup_cons, mem_cons, not_or] at hn
      exact ⟨hn.1.1, hn.1.2.1, hn.2.1.1⟩
    have hidx : ∀ {t : T} {r : Req B} {x : Idx}, (s.pc t).published = some (r, x) →
        (s.pc t).idx = some x := fun ht => (Pc.idx_of_formatted (Pc.formatted_of_published ht)).1
    exact h.not_three (hidx ht) (hidx hu) (hidx hv) (hne ht hu hxy.1) (hne ht hv hxy.2.1)
      (hne hu hv hxy.2.2)

theorem avail_le : s.avail.len idxSize ≤ 2 := by
  have := h.queue_le
  rw [State.queue, length_append, length_append, Fifo.length_contents] at this
  omega

theorem used_le : s.used.len idxSize ≤ 2 := by
  have := h.queue_le
  rw [State.queue, length_append, Fifo.length_contents] at this
  omega

/-- The head of a thread that the device does not work for is not in the queue. -/
theorem not_queued {x : Idx} (ht : (s.pc t).idx = some x)
    (hp : ∀ r, (s.pc t).published = some (r, x) → s.flag r.b = false) : x.i0 ∉ s.queue :=
    fun hq => by
  obtain ⟨u, r, y, hu, hy, hf⟩ := h.queued _ hq
  have hidx := (Pc.idx_of_formatted (Pc.formatted_of_published hu)).1
  obtain rfl := h.disjoint t u x y x.i0 ht hidx (by simp [Idx.list]) (by simp [Idx.list, hy])
  rw [ht] at hidx
  cases hidx
  simp [hp r hu] at hf

/-- Threads change where they are, but not in what others see of them. -/
theorem view {pc : T → Pc B} {lock : Option T} (hview : ∀ u, Pc.SameView (s.pc u) (pc u))
    (hlock : ∀ u, (pc u).holds = true ↔ lock = some u) (hfits : ∀ u, (pc u).Fits s) :
    Inv { s with pc, lock } where
  lock := hlock
  bufs t u b ht hu := h.bufs t u b ((hview t).buf ▸ ht) ((hview u).buf ▸ hu)
  chain t x ht := h.chain t x ((hview t).idx ▸ ht)
  disjoint t u x y i ht hu := h.disjoint t u x y i ((hview t).idx ▸ ht) ((hview u).idx ▸ hu)
  owner i hi hf := by
    obtain ⟨t, x, ht, hx⟩ := h.owner i hi hf
    exact ⟨t, x, (hview t).idx.trans ht, hx⟩
  format t r x ht := h.format t r x ((hview t).formatted ▸ ht)
  fits := hfits
  nodup := h.nodup
  queued i hi := by
    obtain ⟨t, r, x, ht, hx⟩ := h.queued i hi
    exact ⟨t, r, x, (hview t).published.trans ht, hx⟩
  flagged t r x ht := h.flagged t r x ((hview t).published ▸ ht)
  avail := h.avail
  used := h.used
  usedIdx := h.usedIdx
  history := h.history
  stopped := h.stopped

theorem free_desc {desc : Nat → Desc B} (hd : ∀ i, s.free i = false → desc i = s.desc i) :
    Inv { s with desc } where
  __ := h
  fits := h.fits
  format t r x ht := by
    have hx := fun i hi => hd i ((h.chain t x (Pc.idx_of_formatted ht).1).2 i hi).2
    obtain ⟨h0, h1, h2, h3⟩ := h.format t r x ht
    exact ⟨(hx x.i0 (by simp [Idx.list])).trans h0, (hx x.i1 (by simp [Idx.list])).trans h1,
      (hx x.i2 (by simp [Idx.list])).trans h2, h3⟩

theorem eq_of_holds (ht : (s.pc t).holds = true) (hu : (s.pc u).holds = true) : t = u :=
  Option.some.inj (((h.lock t).mp ht).symm.trans ((h.lock u).mp hu))

/-- A step of the thread `t` that changes its own chain and request and leaves those of others
alone. -/
theorem change [DecidableEq T] {s' : State T B} {pc : T → Pc B} {c : Pc B} (hs' : s' = { s with
      pc := update pc t c, desc := s'.desc, free := s'.free, avail := s'.avail
      info := s'.info, status := s'.status, flag := s'.flag })
    (hview : ∀ u, u ≠ t → Pc.SameView (s.pc u) (pc u) ∧ (pc u).holds = (s.pc u).holds ∧
      (pc u).Fits s')
    -- the thread itself
    (hholds : c.holds = (s.pc t).holds) (hfits : c.Fits s')
    (hbuf : ∀ u b, u ≠ t → c.buf = some b → (s.pc u).buf ≠ some b)
    (hchain : ∀ x, c.idx = some x → x.list.Nodup ∧ (∀ i ∈ x.list, i < num ∧ s'.free i = false) ∧
      ∀ u y, u ≠ t → (s.pc u).idx = some y → ∀ i ∈ x.list, i ∉ y.list)
    (hformat : ∀ r x, c.formatted = some (r, x) → s'.desc x.i0 = State.header r x ∧
      s'.desc x.i1 = State.data r x ∧ s'.desc x.i2 = State.result x ∧ s'.info x.i0 = some r.b)
    (hflagged : ∀ r x, c.published = some (r, x) → s'.flag r.b = true → x.i0 ∈ s'.queue)
    -- the others
    (hfree : ∀ i, i < num → (s'.free i = false ↔
      (∃ x, c.idx = some x ∧ i ∈ x.list) ∨ ∃ u x, u ≠ t ∧ (s.pc u).idx = some x ∧ i ∈ x.list))
    (hdesc : ∀ u x i, u ≠ t → (s.pc u).idx = some x → i ∈ x.list →
      s'.desc i = s.desc i ∧ s'.info i = s.info i)
    (hflag : ∀ u b, u ≠ t → (s.pc u).buf = some b → s'.flag b = s.flag b)
    -- the rings
    (hnodup : s'.queue.Nodup)
    (hpub : ∀ r x, (s.pc t).published = some (r, x) → s.flag r.b = false)
    (hqueue : ∀ i ∈ s'.queue, i ∈ s.queue ∨
      ∃ r x, c.published = some (r, x) ∧ x.i0 = i ∧ s'.flag r.b = true)
    (hqueue' : ∀ i ∈ s.queue, i ∈ s'.queue) (havail : s'.avail.Ok num idxSize)
    (hinfo : ∀ i ∈ s.used.contents num idxSize, s'.info i = s.info i) : Inv s' := by
  have hpc : s'.pc = update pc t c := congrArg State.pc hs'
  have hself : s'.pc t = c := hpc ▸ update_self ..
  have hother : ∀ u, u ≠ t → s'.pc u = pc u := fun u hu => hpc ▸ update_of_ne hu ..
  have hsame : ∀ u, u ≠ t → Pc.SameView (s.pc u) (s'.pc u) := fun u hu =>
    hother u hu ▸ (hview u hu).1
  have hused : s'.used = s.used := by rw [hs']
  refine ⟨fun u => ?_, fun u v b hu hv => ?_, fun u x hu => ?_, fun u v x y i hu hv hx hy => ?_,
    fun i hi hf => ?_, fun u r x hu => ?_, fun u => ?_, hnodup, fun i hi => ?_,
    fun u r x hu hf => ?_,
    havail, hused ▸ h.used, by rw [hs', h.usedIdx], ?_, by rw [hs']; exact h.stopped⟩
  · rw [show s'.lock = s.lock by rw [hs'], ← h.lock u]
    by_cases hut : u = t
    · rw [hut, hself, hholds]
    · rw [hother u hut, (hview u hut).2.1]
  · by_cases hut : u = t
    · subst hut
      by_cases hvt : v = u
      · exact hvt.symm
      · exact absurd ((hsame v hvt).buf ▸ hv) (hbuf v b hvt (hself ▸ hu))
    · by_cases hvt : v = t
      · subst hvt
        exact absurd ((hsame u hut).buf ▸ hu) (hbuf u b hut (hself ▸ hv))
      · exact h.bufs u v b ((hsame u hut).buf ▸ hu) ((hsame v hvt).buf ▸ hv)
  · by_cases hut : u = t
    · subst hut
      obtain ⟨hn, hi, -⟩ := hchain x (hself ▸ hu)
      exact ⟨hn, hi⟩
    · have hu' := (hsame u hut).idx ▸ hu
      obtain ⟨hn, hi⟩ := h.chain u x hu'
      exact ⟨hn, fun i hx => ⟨(hi i hx).1, (hfree i (hi i hx).1).mpr (.inr ⟨u, x, hut, hu', hx⟩)⟩⟩
  · by_cases hut : u = t
    · subst hut
      by_cases hvt : v = u
      · exact hvt.symm
      · exact absurd hy ((hchain x (hself ▸ hu)).2.2 v y hvt ((hsame v hvt).idx ▸ hv) i hx)
    · by_cases hvt : v = t
      · subst hvt
        exact absurd hx ((hchain y (hself ▸ hv)).2.2 u x hut ((hsame u hut).idx ▸ hu) i hy)
      · exact h.disjoint u v x y i ((hsame u hut).idx ▸ hu) ((hsame v hvt).idx ▸ hv) hx hy
  · obtain ⟨x, hx, hm⟩ | ⟨u, x, hut, hx, hm⟩ := (hfree i hi).mp hf
    · exact ⟨t, x, hself ▸ hx, hm⟩
    · exact ⟨u, x, (hsame u hut).idx.trans hx, hm⟩
  · by_cases hut : u = t
    · subst hut
      exact hformat r x (hself ▸ hu)
    · have hu' := (hsame u hut).formatted ▸ hu
      have hd := fun i hi => hdesc u x i hut (Pc.idx_of_formatted hu').1 hi
      rw [(hd x.i0 (by simp [Idx.list])).1, (hd x.i1 (by simp [Idx.list])).1,
        (hd x.i2 (by simp [Idx.list])).1, (hd x.i0 (by simp [Idx.list])).2]
      exact h.format u r x hu'
  · by_cases hut : u = t
    · rwa [hut, hself]
    · rw [hother u hut]
      exact (hview u hut).2.2
  · obtain hi | ⟨r, x, hx⟩ := hqueue i hi
    · obtain ⟨u, r, x, hu, hx, hf⟩ := h.queued i hi
      have hut : u ≠ t := by
        rintro rfl
        simp [hpub r x hu] at hf
      refine ⟨u, r, x, (hsame u hut).published.trans hu, hx, ?_⟩
      rw [hflag u r.b hut (Pc.idx_of_formatted (Pc.formatted_of_published hu)).2, hf]
    · exact ⟨t, r, x, hself ▸ hx⟩
  · by_cases hut : u = t
    · subst hut
      exact hflagged r x (hself ▸ hu) hf
    · have hu' := (hsame u hut).published ▸ hu
      rw [hflag u r.b hut (Pc.idx_of_formatted (Pc.formatted_of_published hu')).2] at hf
      exact hqueue' _ (h.flagged u r x hu' hf)
  · rw [hused, map_congr_left hinfo, hs', h.history]

/-- The descriptors in use, by the threads other than `t`. -/
theorem free_iff (i : Nat) (hi : i < num) : s.free i = false ↔
    (∃ x, (s.pc t).idx = some x ∧ i ∈ x.list) ∨ ∃ u x, u ≠ t ∧ (s.pc u).idx = some x ∧
    i ∈ x.list := by
  constructor
  · intro hf
    obtain ⟨u, x, hu, hx⟩ := h.owner i hi hf
    by_cases hut : u = t
    · exact .inl ⟨x, hut ▸ hu, hx⟩
    · exact .inr ⟨u, x, hut, hu, hx⟩
  · rintro (⟨x, hu, hx⟩ | ⟨u, x, -, hu, hx⟩)
    · exact ((h.chain t x hu).2 i hx).2
    · exact ((h.chain u x hu).2 i hx).2

end Inv

end

end Xv6.Virtio
