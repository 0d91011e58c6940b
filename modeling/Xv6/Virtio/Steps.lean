import Xv6.Virtio.Protocol

/-!
# The driver keeps its invariant

One lemma for each step of a thread or of the device that changes more than where a thread is.
-/

open Lts

namespace Xv6.Virtio

open List State

open Function (update update_self update_of_ne)

variable {T B : Type} [DecidableEq T]

namespace Inv

variable {s : State T B} {t : T} {c c' : Pc B} (h : Inv s)
variable {x : Idx} {s' : State T B} {r : Req B}

/-! ## Steps of one thread -/

include h

theorem move {lock : Option T} (hpc : s.pc t = c) (hv : Pc.SameView c c') (hf : c'.Fits s)
    (hlock : ∀ u, (update s.pc t c' u).holds = true ↔ lock = some u) :
    Inv { s with pc := update s.pc t c', lock } := by
  refine h.view (fun u => ?_) hlock fun u => ?_
  · by_cases hu : u = t
    · rw [hu, update_self, hpc]
      exact hv
    · simpa [hu] using .rfl
  · by_cases hu : u = t
    · rwa [hu, update_self]
    · simpa [hu] using h.fits u

theorem goto (hpc : s.pc t = c) (hv : Pc.SameView c c') (hh : c'.holds = c.holds) (hf : c'.Fits s) :
    Inv (s.goto t c') := by
  refine h.move hpc hv hf fun u => ?_
  rw [← h.lock u]
  by_cases hu : u = t
  · rw [hu, update_self, hpc, hh]
  · rw [update_of_ne hu]

theorem acquire (hpc : s.pc t = c) (hs : s.acquire t c' = some s') (hv : Pc.SameView c c')
    (hh : c'.holds = true) (hf : c'.Fits s) : Inv s' := by
  rw [State.acquire] at hs
  split at hs
  · rename_i hlock
    cases hs
    refine h.move hpc hv hf fun u => ?_
    by_cases hu : u = t
    · rw [hu, update_self, hh]
      simp
    · rw [update_of_ne hu, h.lock u, hlock]
      simp [Ne.symm hu]
  · nomatch hs

theorem release (hpc : s.pc t = c) (hv : Pc.SameView c c') (hh : c.holds = true)
    (hh' : c'.holds = false)
    (hf : c'.Fits s) : Inv (s.release t c') := by
  refine h.move hpc hv hf fun u => ?_
  have ht : s.lock = some t := (h.lock t).mp (hpc ▸ hh)
  by_cases hu : u = t
  · rw [hu, update_self, hh']
    simp
  · rw [update_of_ne hu, h.lock u, ht]
    simp [Ne.symm hu]

/-- A thread enters `virtio_disk_rw` for a buffer with which nobody else is there. -/
theorem call (hpc : s.pc t = .idle) (hr : ∀ u, (s.pc u).buf ≠ some r.b) :
    Inv (s.goto t (.rwAcquire r)) := by
  have hidx : (s.pc t).idx = none := by rw [hpc]; rfl
  refine h.change rfl (fun u _ => ⟨.rfl, rfl, h.fits u⟩) (by rw [hpc]; rfl) trivial
    (fun u b _ hb => ?_)
    nofun nofun nofun (fun i hi => ?_) (fun _ _ _ _ _ _ => ⟨rfl, rfl⟩) (fun _ _ _ _ => rfl) h.nodup
    (by rw [hpc]; exact nofun) (fun _ => .inl) (fun _ hi => hi) h.avail fun _ _ => rfl
  · exact Option.some.inj hb ▸ hr u
  · rw [show (Pc.rwAcquire r : Pc B).idx = (s.pc t).idx from hidx.symm]
    exact h.free_iff i hi

theorem alloc (hpc : s.pc t = .rwAlloc r) (hn : x.list.Nodup)
    (hx : ∀ i ∈ x.list, i < num ∧ s.free i = true) :
    Inv ((((s.take x.i0).take x.i1).take x.i2).goto t (.rwFill r x)) := by
  set s' := (((s.take x.i0).take x.i1).take x.i2).goto t (.rwFill r x) with hs'
  have hidx : (s.pc t).idx = none := by rw [hpc]; rfl
  have hfree : ∀ i, s'.free i = false ↔ i ∈ x.list ∨ s.free i = false := by
    intro i
    refine take_free_iff.trans ?_
    rw [take_free_iff, take_free_iff]
    simp only [Idx.list, mem_cons, not_mem_nil, or_false]
    tauto
  have hout : ∀ u y, (s.pc u).idx = some y → ∀ i ∈ x.list, i ∉ y.list := fun u y hu i hi hy => by
    have := ((h.chain u y hu).2 i hy).2
    simp [(hx i hi).2] at this
  refine h.change rfl (fun u hu => ⟨.rfl, rfl, ?_⟩) (by rw [hpc]; rfl) trivial
    (fun u b hu hb hub => ?_)
    (fun y hy => ?_) (by rintro _ _ ⟨⟩) (by rintro _ _ ⟨⟩) (fun i hi => ?_)
    (fun _ _ _ _ _ _ => ⟨rfl, rfl⟩) (fun _ _ _ _ => rfl) h.nodup (by rw [hpc]; rintro _ _ ⟨⟩)
    (fun _ => .inl) (fun _ hi => hi) h.avail
    fun _ _ => rfl
  · refine Pc.Fits.congr (h.fits u) (fun h3 => h3.mono fun i hi => ?_) (fun _ _ _ => id)
      (fun _ _ => rfl)
      fun _ => id
    by_contra hf
    simp [(hfree i).mpr (.inr (Bool.eq_false_iff.mpr hf))] at hi
  · exact hu (h.bufs u t b hub (by rw [hpc]; exact hb))
  · cases hy
    exact ⟨hn, fun i hi => ⟨(hx i hi).1, (hfree i).mpr (.inl hi)⟩, fun u y _ hu => hout u y hu⟩
  · rw [hfree, h.free_iff (t := t) i hi, hidx]
    simp only [reduceCtorEq, false_and, exists_false, false_or]
    refine or_congr ⟨fun hm => ⟨x, rfl, hm⟩, ?_⟩ Iff.rfl
    rintro ⟨y, ⟨⟩, hm⟩
    exact hm

theorem starve (hpc : s.pc t = .rwAlloc r) (h3 : ¬ State.ThreeFree s.free)
    (hr : State.Restored s s') : Inv (s'.release t (.sleepFree r)) := by
  obtain ⟨heq, hdesc, hwake⟩ := hr
  generalize s'.desc = desc at heq hdesc
  generalize s'.pc = pc at heq hwake
  subst heq
  have hwake' : ∀ u, Pc.SameView (s.pc u) (pc u) ∧ (pc u).holds = (s.pc u).holds ∧
      (pc u).Fits s := by
    intro u
    obtain he | he := hwake u
    · rw [he]
      exact ⟨.rfl, rfl, h.fits u⟩
    · rw [he]
      exact ⟨(s.pc u).wakeFree_view.1, (s.pc u).wakeFree_view.2,
        Pc.Fits.wakeFree (h.fits u) rfl rfl rfl⟩
  have ht : s.lock = some t := (h.lock t).mp (by rw [hpc]; rfl)
  refine (h.free_desc hdesc).view (fun u => ?_) (fun u => ?_) fun u => ?_
  · by_cases hu : u = t
    · rw [hu, update_self]
      refine hpc ▸ ⟨rfl, rfl, rfl, rfl⟩
    · simpa [hu] using (hwake' u).1
  · by_cases hu : u = t
    · rw [hu, update_self]
      exact iff_of_false Bool.false_ne_true nofun
    · rw [update_of_ne hu]
      change (pc u).holds = true ↔ _
      rw [(hwake' u).2.1, h.lock u, ht]
      simp [Ne.symm hu]
  · by_cases hu : u = t
    · rw [hu, update_self]
      exact h3
    · rw [update_of_ne hu]
      exact (hwake' u).2.2

/-- The descriptors are written, and the entry in the `avail` ring. -/
theorem fill [DecidableEq B] (hpc : s.pc t = .rwFill r x) :
    Inv ((s.fill r x).goto t (.rwPublish r x)) := by
  set s' := (s.fill r x).goto t (.rwPublish r x) with hs'
  have hpub : ∀ r x, (s.pc t).published = some (r, x) → s.flag r.b = false := by
    rw [hpc]
    rintro _ _ ⟨⟩
  have hidx : (s.pc t).idx = some x := by rw [hpc]; rfl
  have hbuf : (s.pc t).buf = some r.b := by rw [hpc]; rfl
  obtain ⟨hn, hx⟩ := h.chain t x hidx
  obtain ⟨⟨h01, h02⟩, h12⟩ : (x.i0 ≠ x.i1 ∧ x.i0 ≠ x.i2) ∧ x.i1 ≠ x.i2 := by
    simpa [Idx.list] using hn
  have hout : ∀ u y, u ≠ t → (s.pc u).idx = some y → ∀ i ∈ y.list, i ≠ x.i0 ∧ i ≠ x.i1 ∧
      i ≠ x.i2 := by
    intro u y hu hy i hi
    have hni : i ∉ x.list := fun hm => hu (h.disjoint u t y x i hy hidx hi hm)
    simpa [Idx.list] using hni
  have hflag : ∀ u b, u ≠ t → (s.pc u).buf = some b → s'.flag b = s.flag b := by
    intro u b hu hb
    exact update_of_ne (fun he : b = r.b => hu (h.bufs u t b hb (he ▸ hbuf))) ..
  have havail : s'.avail.contents num idxSize = s.avail.contents num idxSize :=
    h.avail.contents_set (by decide) (by have := h.avail_le; rw [num]; omega) x.i0
  have hq : s'.queue = s.queue := by rw [queue, havail]; rfl
  have hnq : x.i0 ∉ s.queue := h.not_queued hidx fun r' => hpub r' x
  refine h.change rfl (fun u hu => ⟨.rfl, rfl, ?_⟩) (by rw [hpc]; rfl)
    ⟨update_self .., update_self ..⟩
    (fun u b hu hb hub => ?_) (fun y hy => ?_) (fun r' y hy => ?_)
      (by rintro _ _ ⟨⟩) (fun i hi => ?_)
    (fun u y i hu hy hi => ?_) hflag (hq ▸ h.nodup) hpub (fun i hi => .inl (hq ▸ hi))
    (fun i hi => hq ▸ hi) ⟨h.avail.nread, h.avail.nwrite, h.avail.len⟩ (fun i hi => ?_)
  · refine Pc.Fits.congr (h.fits u) id (fun r' y he _ => ?_) (fun b hb => hflag u b hu hb)
      fun _ => id
    -- the slot of another thread would be the same one, but only one thread holds the lock
    exact absurd (h.eq_of_holds (congrArg Pc.holds he) (by rw [hpc]; rfl)) hu
  · exact hu (h.bufs u t b hub (hbuf.trans hb))
  · cases hy
    exact ⟨hn, hx, fun u y hu hy i hi hm => hu (h.disjoint u t y x i hy hidx hm hi)⟩
  · cases hy
    refine ⟨?_, ?_, update_self .., update_self ..⟩
    · refine (update_of_ne h02 ..).trans ((update_of_ne h01 ..).trans ?_)
      exact update_self ..
    · exact (update_of_ne h12 ..).trans (update_self ..)
  · rw [show (Pc.rwPublish r x).idx = (s.pc t).idx from hidx.symm]
    exact h.free_iff i hi
  · obtain ⟨h0, h1, h2⟩ := hout u y hu hy i hi
    refine ⟨?_, update_of_ne h0 ..⟩
    exact (update_of_ne h2 ..).trans ((update_of_ne h1 ..).trans
      (update_of_ne h0 ..))
  · refine update_of_ne (fun he => hnq ?_) ..
    rw [queue, ← he]
    exact mem_append_right _ hi

theorem publish (hpc : s.pc t = .rwPublish r x) : Inv (s.publish.goto t (.rwTest r x)) := by
  set s' := s.publish.goto t (.rwTest r x) with hs'
  have hpub : ∀ r x, (s.pc t).published = some (r, x) → s.flag r.b = false := by
    rw [hpc]
    exact nofun
  have hidx : (s.pc t).idx = some x := by rw [hpc]; rfl
  have hbuf : (s.pc t).buf = some r.b := by rw [hpc]; rfl
  obtain ⟨hslot, hflag⟩ : s.avail.data (s.avail.nwrite % num) = x.i0 ∧ s.flag r.b = true := by
    have := h.fits t
    rwa [hpc] at this
  have hpush : s'.avail = s.avail.push num idxSize x.i0 := (Fifo.push_eq hslot).symm
  have hfull : s.avail.isFull num idxSize = false := by
    have hle := h.avail_le
    by_contra hf
    rw [h.avail.isFull_iff (by decide) |>.mp (Bool.eq_true_of_not_eq_false hf)] at hle
    nomatch hle
  have havail : s'.avail.contents num idxSize = s.avail.contents num idxSize ++ [x.i0] := by
    rw [hpush, Fifo.push_contents h.avail (by decide) (by decide) hfull]
  have hq : s'.queue.Perm (x.i0 :: s.queue) := by
    rw [queue, havail, queue, append_assoc, append_assoc, append_assoc]
    exact perm_middle
  have hnq : x.i0 ∉ s.queue := h.not_queued hidx fun r' => hpub r' x
  refine h.change rfl (fun u hu => ⟨.rfl, rfl, ?_⟩) (by rw [hpc]; rfl) trivial
    (fun u b hu hb hub => ?_)
    (fun y hy => ?_) (fun r' y hy => h.format t r' y (by rw [hpc]; exact hy)) (fun r' y hy _ => ?_)
    (fun i hi => ?_) (fun _ _ _ _ _ _ => ⟨rfl, rfl⟩) (fun _ _ _ _ => rfl)
    (hq.nodup_iff.mpr (nodup_cons.mpr ⟨hnq, h.nodup⟩)) hpub (fun i hi => ?_)
    (fun i hi => hq.mem_iff.mpr (mem_cons_of_mem _ hi)) ?_ fun _ _ => rfl
  · refine Pc.Fits.congr (h.fits u) id (fun r' y he _ => ?_) (fun _ _ => rfl) fun _ => id
    exact absurd (h.eq_of_holds (congrArg Pc.holds he) (by rw [hpc]; rfl)) hu
  · exact hu (h.bufs u t b hub (hbuf.trans hb))
  · cases hy
    obtain ⟨hn, hx⟩ := h.chain t x hidx
    exact ⟨hn, hx, fun u y hu hy i hi hm => hu (h.disjoint u t y x i hy hidx hm hi)⟩
  · cases hy
    exact hq.mem_iff.mpr (mem_cons_self ..)
  · rw [show (Pc.rwTest r x).idx = (s.pc t).idx from hidx.symm]
    exact h.free_iff i hi
  · obtain rfl | hi := mem_cons.mp (hq.mem_iff.mp hi)
    · exact .inr ⟨r, x, rfl, rfl, hflag⟩
    · exact .inl hi
  · rw [hpush]
    exact h.avail.push (by decide) hfull x.i0

theorem free (hpc : s.pc t = .rwFree r x) :
    ∃ s', freeChain (num + 1) { s with info := update s.info x.i0 none } x.i0 = .ok s' ∧
      Inv (s'.goto t .rwRelease) := by
  have hidx : (s.pc t).idx = some x := by rw [hpc]; rfl
  have hbuf : (s.pc t).buf = some r.b := by rw [hpc]; rfl
  have hfmt : (s.pc t).formatted = some (r, x) := by rw [hpc]; rfl
  have hflag : s.flag r.b = false := by
    have := h.fits t
    rwa [hpc] at this
  have hpub : ∀ r' y, (s.pc t).published = some (r', y) → s.flag r'.b = false := by
    intro r' y hy
    rw [hpc] at hy
    cases hy
    exact hflag
  obtain ⟨hn, hx⟩ := h.chain t x hidx
  obtain ⟨h0, h1, h2, -⟩ := h.format t r x hfmt
  refine ⟨_, freeChain_spec (s := { s with info := update s.info x.i0 none }) 6 hn hx h0
    h1 h2, ?_⟩
  set s0 : State T B := { s with info := update s.info x.i0 none } with hs0
  set s' := (((s0.give x.i0).give x.i1).give x.i2).goto t .rwRelease with hs'
  have hwake : ∀ u, (((s0.give x.i0).give x.i1).give x.i2).pc u = (s.pc u).wakeFree := fun u =>
    (Pc.wakeFree_wakeFree _).trans (Pc.wakeFree_wakeFree _)
  have hout : ∀ i, i ∉ x.list → s'.free i = s.free i ∧ s'.desc i = s.desc i ∧
      s'.info i = s.info i := by
    intro i hi
    obtain ⟨hi0, hi1, hi2⟩ : i ≠ x.i0 ∧ i ≠ x.i1 ∧ i ≠ x.i2 := by simpa [Idx.list] using hi
    refine ⟨?_, ?_, update_of_ne hi0 ..⟩
    · exact (give_free_of_ne _ hi2).trans ((give_free_of_ne _ hi1).trans
        (give_free_of_ne _ hi0))
    · exact (give_desc_of_ne _ hi2).trans ((give_desc_of_ne _ hi1).trans
        (give_desc_of_ne _ hi0))
  have hfree : ∀ i, s'.free i = true ↔ i ∈ x.list ∨ s.free i = true := by
    intro i
    refine give_free_iff.trans ?_
    rw [give_free_iff, give_free_iff]
    simp only [Idx.list, mem_cons, not_mem_nil, or_false]
    tauto
  have hchain : ∀ u y i, u ≠ t → (s.pc u).idx = some y → i ∈ y.list → i ∉ x.list :=
    fun u y i hu hy hi hm => hu (h.disjoint u t y x i hy hidx hi hm)
  have hnq : x.i0 ∉ s.queue := h.not_queued hidx fun r' => hpub r' x
  refine h.change rfl (fun u hu => hwake u ▸ ⟨(s.pc u).wakeFree_view.1, (s.pc u).wakeFree_view.2,
      Pc.Fits.wakeFree (h.fits u) rfl rfl rfl⟩) (by rw [hpc]; rfl) trivial
    (by intros; contradiction) (by rintro _ ⟨⟩) (by rintro _ _ ⟨⟩) (by rintro _ _ ⟨⟩)
    (fun i hi => ?_) (fun u y i hu hy hi => (hout i (hchain u y i hu hy hi)).2)
    (fun _ _ _ _ => rfl) h.nodup hpub (fun _ => .inl) (fun _ hi => hi) h.avail (fun i hi => ?_)
  · rw [← Bool.not_eq_true, hfree, not_or, Bool.not_eq_true, h.free_iff (t := t) i hi]
    constructor
    · rintro ⟨hni, ⟨y, hy, hm⟩ | hu⟩
      · rw [hidx] at hy
        exact absurd (Option.some.inj hy ▸ hm) hni
      · exact .inr hu
    · rintro (⟨y, hy, -⟩ | ⟨u, y, hu, hy, hm⟩)
      · cases hy
      · exact ⟨hchain u y i hu hy hm, .inr ⟨u, y, hu, hy, hm⟩⟩
  · refine update_of_ne (fun he => hnq ?_) ..
    rw [queue, ← he]
    exact mem_append_right _ hi

/-! ## The device -/

omit [DecidableEq T] in
theorem fetch (hs : s.fetch = some s') : Inv s' := by
  rw [State.fetch] at hs
  split at hs
  · nomatch hs
  · rename_i he
    have he := Bool.eq_false_iff.mpr he
    cases hs
    have hpop := Fifo.pop_contents h.avail (by decide) he
    have hq : (queue { s with
        avail := (s.avail.pop num idxSize).2
        pending := s.pending ++ [(s.avail.pop num idxSize).1] }).Perm s.queue := by
      rw [queue, queue, hpop, ← append_assoc, append_assoc]
      exact perm_middle
    exact {
      h with
      fits t := Pc.Fits.congr (h.fits t) id (fun _ _ _ => id) (fun _ _ => rfl) fun _ => id
      nodup := hq.nodup_iff.mpr h.nodup
      queued i hi := h.queued i (hq.mem_iff.mp hi)
      flagged t r x ht hf := hq.mem_iff.mpr (h.flagged t r x ht hf)
      avail := h.avail.pop he }

omit [DecidableEq T] in
theorem complete {head : Nat} {status : UInt8} (hs : s.complete head status = some s') :
    Inv s' := by
  rw [State.complete] at hs
  split at hs
  · rename_i hmem
    have hqueue : head ∈ s.queue := mem_append_left _ (mem_append_right _ hmem)
    obtain ⟨t, r, x, ht, rfl, -⟩ := h.queued head hqueue
    obtain ⟨h0, h1, h2, hinfo⟩ := h.format t r x (Pc.formatted_of_published ht)
    have hnext0 : (s.desc x.i0).next = x.i1 := by rw [h0]; rfl
    simp only [hnext0, h1, h2, data, result] at hs
    cases hs
    have hfull : s.used.isFull num idxSize = false := by
      have hle := h.used_le
      by_contra hf
      rw [h.used.isFull_iff (by decide) |>.mp (Bool.eq_true_of_not_eq_false hf)] at hle
      exact absurd hle (by decide)
    have hpush := Fifo.push_contents h.used (by decide) (by decide) hfull x.i0
    have hq : (s.avail.contents num idxSize ++ s.pending.erase x.i0 ++
        (s.used.push num idxSize x.i0).contents num idxSize).Perm s.queue := by
      rw [hpush, queue, ← append_assoc]
      calc s.avail.contents num idxSize ++ s.pending.erase x.i0 ++ s.used.contents num idxSize ++
          [x.i0]
        _ |>.Perm (x.i0 :: (s.avail.contents num idxSize ++ s.pending.erase x.i0 ++
            s.used.contents num idxSize)) := perm_append_singleton ..
        _ |>.Perm (s.avail.contents num idxSize ++ x.i0 :: s.pending.erase x.i0 ++
            s.used.contents num idxSize) := by
          rw [append_assoc, append_assoc, cons_append]
          exact perm_middle.symm
        _ |>.Perm (s.avail.contents num idxSize ++ s.pending ++ s.used.contents num idxSize) :=
          ((perm_cons_erase hmem).symm.append_left _).append_right _
    exact {
      h with
      fits t := Pc.Fits.congr (h.fits t) id (fun _ _ _ => id) (fun _ _ => rfl) fun _ _ =>
        h.used.push_isEmpty (by decide) hfull x.i0
      nodup := hq.nodup_iff.mpr h.nodup
      queued i hi := h.queued i (hq.mem_iff.mp hi)
      flagged t r x ht hf := hq.mem_iff.mpr (h.flagged t r x ht hf)
      used := h.used.push (by decide) hfull x.i0
      history := by
        rw [hpush, map_append, map_append, h.history, append_assoc, map_singleton,
          map_singleton, hinfo] }
  · cases hs

/-! ## Interrupts -/

section

omit [DecidableEq T]

/-- What the loop of `virtio_disk_intr` handles next. -/
theorem next (he : s.used.isEmpty = false) : ∃ u r x, (s.pc u).published = some (r, x) ∧
    s.used.data s.usedIdx = x.i0 ∧ s.info x.i0 = some r.b ∧ s.flag r.b = true ∧
    s.used.contents num idxSize = x.i0 :: (s.used.pop num idxSize).2.contents num idxSize := by
  have hpop := Fifo.pop_contents h.used (by decide) he
  have hdata : s.used.data s.usedIdx = (s.used.pop num idxSize).1 := by rw [h.usedIdx]; rfl
  have hmem : s.used.data s.usedIdx ∈ s.queue := by
    rw [hdata, queue, hpop]
    exact mem_append_right _ (mem_cons_self ..)
  obtain ⟨u, r, x, hu, hx, hf⟩ := h.queued _ hmem
  obtain ⟨-, -, -, hinfo⟩ := h.format u r x (Pc.formatted_of_published hu)
  exact ⟨u, r, x, hu, hx.symm, hinfo, hf, by rw [hpop, hx, hdata]⟩

/-- **The test of the loop** compares indices modulo `NUM`; it is right because so few requests are
under way. -/
theorem loop_iff : s.usedIdx % num = s.used.nwrite % num ↔ s.used.isEmpty = true := by
  have hle := h.used_le
  have hcell := h.used.cell_len
  rw [Fifo.cell_of_dvd (by decide)] at hcell
  rw [h.usedIdx, hcell, Nat.mod_mod, Fifo.isEmpty, decide_eq_true_iff,
    ← Fifo.len_eq_zero_iff h.used.nread h.used.nwrite, num]
  omega

/-- The flag of the buffer of the oldest completion is cleared. -/
theorem handle [DecidableEq B] {s' : State T B} {u : T} {r : Req B} {x : Idx}
    (he : s.used.isEmpty = false)
    (hu : (s.pc u).published = some (r, x)) (hinfo : s.info x.i0 = some r.b)
    (hcont : s.used.contents num idxSize = x.i0 :: (s.used.pop num idxSize).2.contents num idxSize)
    (hs' : s' = { s with
      flag := update s.flag r.b false
      usedIdx := (s.usedIdx + 1) % num
      used := (s.used.pop num idxSize).2
      cleared := s.cleared ++ [r.b] })
    (hfits : ∀ v, (s.pc v).Fits s') : Inv s' := by
  have hq : s.queue.Perm (x.i0 :: s'.queue) := by
    rw [queue, queue, hcont, hs']
    exact perm_middle
  have hn := hq.nodup_iff.mp h.nodup
  obtain ⟨hx, hn⟩ := nodup_cons.mp hn
  have hbuf := (Pc.idx_of_formatted (Pc.formatted_of_published hu)).2
  have hflag : ∀ v r' y, (s.pc v).published = some (r', y) → x.i0 ≠ y.i0 →
      s'.flag r'.b = s.flag r'.b := by
    intro v r' y hv hne
    rw [hs']
    refine update_of_ne (fun heq => hne ?_) ..
    have hbuf' := (Pc.idx_of_formatted (Pc.formatted_of_published hv)).2
    obtain rfl := h.bufs v u r.b (heq ▸ hbuf') hbuf
    rw [hv] at hu
    rw [(Prod.mk.inj (Option.some.inj hu)).2]
  have hself : s'.flag r.b = false := by rw [hs']; exact update_self ..
  have hqueued : ∀ i ∈ s'.queue, ∃ v r' y, (s.pc v).published = some (r', y) ∧ y.i0 = i ∧
      s'.flag r'.b = true := by
    intro i hi
    obtain ⟨v, r', y, hv, rfl, hf⟩ := h.queued i (hq.mem_iff.mpr (mem_cons_of_mem _ hi))
    exact ⟨v, r', y, hv, rfl, (hflag v r' y hv fun heq => hx (heq ▸ hi)).trans hf⟩
  have hflagged : ∀ v r' y, (s.pc v).published = some (r', y) → s'.flag r'.b = true →
      y.i0 ∈ s'.queue := by
    intro v r' y hv hf
    by_cases hne : x.i0 = y.i0
    · obtain rfl := h.eq_of_head hu hv hne
      rw [hu] at hv
      cases hv
      simp [hself] at hf
    · rw [hflag v r' y hv hne] at hf
      exact (mem_cons.mp (hq.mem_iff.mp (h.flagged v r' y hv hf))).resolve_left (Ne.symm hne)
  have hcount : (s.usedIdx + 1) % num = (s.used.pop num idxSize).2.nread % num := by
    rw [h.usedIdx, Fifo.pop]
    rw [Nat.mod_mod_of_dvd _ (by decide), Nat.mod_add_mod]
  have hhistory : s.completed.map some = (s.cleared ++ [r.b]).map some ++
      ((s.used.pop num idxSize).2.contents num idxSize).map s.info := by
    rw [h.history, hcont, map_cons, hinfo, map_append, append_assoc]
    rfl
  subst hs'
  exact {
    h with
    fits := hfits
    nodup := hn
    queued := hqueued
    flagged := hflagged
    used := h.used.pop he
    usedIdx := hcount
    history := hhistory }

end

theorem intrBody [DecidableEq B] (hpc : s.pc t = .intrBody) : Inv (s.intrBody t) := by
  have he : s.used.isEmpty = false := by
    have := h.fits t
    rwa [hpc] at this
  obtain ⟨u, r, x, hu, hid, hinfo, hflag, hcont⟩ := h.next he
  rw [State.intrBody, hid, hinfo]
  split
  · exact { h with fits := h.fits, stopped := .inr rfl }
  · have hidx := Pc.idx_of_formatted (Pc.formatted_of_published hu)
    set pc : T → Pc B := update (fun v => (s.pc v).wakeBuf r.b) t .intrTest with hpc'
    have hself : pc t = .intrTest := update_self ..
    have hother : ∀ v, v ≠ t → pc v = (s.pc v).wakeBuf r.b := fun v hv => update_of_ne hv ..
    have hholds : ∀ v, (pc v).holds = (s.pc v).holds := by
      intro v
      by_cases hv : v = t
      · rw [hv, hself, hpc]
        rfl
      · rw [hother v hv]
        exact ((s.pc v).wakeBuf_view r.b).2
    have h' : Inv { s with pc } := by
      refine h.view (fun v => ?_) (fun v => by rw [hholds]; exact h.lock v) fun v => ?_
      · by_cases hv : v = t
        · rw [hv, hself, hpc]
          exact ⟨rfl, rfl, rfl, rfl⟩
        · rw [hother v hv]
          exact ((s.pc v).wakeBuf_view r.b).1
      · by_cases hv : v = t
        · rw [hv, hself]
          trivial
        · rw [hother v hv]
          have := h.fits v
          cases hc : s.pc v with
          | sleepBuf r' y =>
            rw [hc] at this
            rw [Pc.wakeBuf]
            split
            · trivial
            · exact this
          | _ => rw [hc] at this; exact this
    have hview : (pc u).published = some (r, x) := by
      by_cases hut : u = t
      · rw [hut, hpc] at hu
        cases hu
      · rw [hother u hut, ((s.pc u).wakeBuf_view r.b).1.published]
        exact hu
    refine h'.handle he hview hinfo hcont rfl fun v => ?_
    have hfits := h.fits v
    by_cases hv : v = t
    · subst hv
      change (pc v).Fits _
      rw [hself]
      trivial
    · change (pc v).Fits _
      rw [hother v hv]
      have hnot : (s.pc v).holds = false := by
        by_contra hc
        exact hv (h.eq_of_holds (Bool.eq_true_of_not_eq_false hc) (by rw [hpc]; rfl))
      cases hc : s.pc v with
      | sleepFree r' => rw [hc] at hfits; exact hfits
      | sleepBuf r' y =>
        rw [hc] at hfits
        rw [Pc.wakeBuf]
        by_cases hb : r'.b = r.b
        · rw [if_pos hb]
          trivial
        · rw [if_neg hb]
          exact (update_of_ne hb ..).trans hfits
      | rwPublish | rwFree | intrBody => rw [hc] at hnot; cases hnot
      | _ => trivial

end Inv

end Xv6.Virtio
