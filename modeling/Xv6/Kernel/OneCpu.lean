import Xv6.Kernel.Locking

/-!
# One CPU per process

What the contexts of the first layer say about the machine, and that every command keeps it.  For
each CPU the context of the thread it runs says which locks it holds; for each process, `c->proc` of
at most one CPU is this process, and the state of a process whose lock is free agrees with that.

`current_on_one_cpu` is the result: in every state of every run, a process is current on at most one
CPU, and while its lock is free it is `RUNNING` exactly if it is current somewhere, and otherwise
its context has been saved.  That `wait` never frees a process that is still running, and that two
of the panics of `sched` are impossible, comes with it.
-/

namespace Xv6.Kernel

open Lts System Code Option
open Function (update update_self update_of_ne update_eq_self update_eq_self_iff update_comm)

variable {n : Nat} {C : Type} [DecidableEq C]

namespace Sys

variable (s : Sys n C) (c : C)

@[simp] theorem pushOff_noff : (s.pushOff c).noff c = s.noff c + 1 := update_self ..

@[simp] theorem pushOff_sie : (s.pushOff c).sie c = false := update_self ..

@[simp] theorem popOff_noff : (s.popOff c).noff c = s.noff c - 1 := update_self ..

/-- What the locks and the processes are about. -/
def core := (s.proc, s.lock, s.cur, s.thr, s.noff, s.sie)

variable {c} in
theorem popOff_sie_of_ne {d : C} (h : d ≠ c) : (s.popOff c).sie d = s.sie d := by
  rw [popOff]
  split
  · exact update_of_ne h ..
  · rfl

end Sys

namespace Proc

variable (r : Proc n) (ch : Chan n)

theorem wake_on : (r.wake ch).on = r.on := by
  rw [wake]
  split <;> rfl

theorem rouse_on : r.rouse.on = r.on := by
  rw [rouse]
  split <;> rfl

theorem wake_running (h : r.state = .running) : (r.wake ch).state = .running := by
  rw [wake, if_neg (by simp [h]), h]

theorem rouse_running (h : r.state = .running) : r.rouse.state = .running := by
  rw [rouse, if_neg (by simp [h]), h]

end Proc

namespace Locking

/-- What the context of the thread on CPU `c` says. -/
structure Cpu (s : Sys n C) (c : C) (y : Ctx n) : Prop where
  me : y.me = s.thr c
  cur : y.cur = s.cur c
  off : y.off = s.noff c
  lock : ∀ l, s.lock l = some c ↔ l ∈ y.held
  nodup : y.held.Nodup
  len : y.held.length ≤ s.noff c
  sie : s.sie c = true → s.noff c = 0
  view : ∀ p, s.lock (.proc p) = some c → y.view p = some (s.proc p)
  blind : ∀ p, s.lock (.proc p) ≠ some c → y.view p = none

/-- What is true of the processes. -/
structure Table (s : Sys n C) : Prop where
  on : ∀ p, (s.proc p).on = true ↔ ∃ c, s.cur c = some p
  uniq : ∀ c d p, s.cur c = some p → s.cur d = some p → c = d
  thr : ∀ c p, s.thr c = some p → s.cur c = some p
  sched : ∀ c p, s.thr c = none → s.cur c = some p → s.lock (.proc p) = some c
  running : ∀ c p, s.thr c = some p → s.lock (.proc p) ≠ some c → (s.proc p).state = .running
  free : ∀ p, s.lock (.proc p) = none → (s.proc p).Free

/-- A process that will not run again. -/
def Over (r : Proc n) : Prop := r.state = .zombie ∨ r.state = .unused ∧ r.saved = false

/-- What the contexts of all threads say. -/
structure Good (s : Sys n C) (x : Thread n C → Ctx n) : Prop extends Table s where
  cpu : ∀ c, Cpu s c (x (s.who c))
  dead : ∀ p, (x (.inl p)).dead = true → Over (s.proc p)
  live : ∀ c, (x (.inr c)).dead = false
  /-- A scheduler that does not run waits for the process that does. -/
  back : ∀ c p, s.thr c = some p → (x (.inr c)).cur = some p

section

variable {s s' : Sys n C} {x : Thread n C → Ctx n} {c d : C} {p q : Fin n} {y : Ctx n} {b : Bool}
  {l : Lock n} {r r' : Proc n} {v : Fin n → Option (Proc n)}

section

omit [DecidableEq C]

theorem Table.inj (h : Table s) (hc : s.thr c = some p) (hd : s.thr d = some p) : c = d :=
  h.uniq c d p (h.thr c p hc) (h.thr d p hd)

theorem Table.who_ne (h : Table s) (hd : d ≠ c) : s.who d ≠ s.who c := by
  intro he
  cases hc : s.thr c with
  | none =>
    rw [Layer.who_of_none hc] at he
    exact hd (Layer.who_eq_inr.mp he).2
  | some p =>
    rw [Layer.who_of_some hc] at he
    exact hd (h.inj (Layer.who_eq_inl.mp he) hc)

/-- Nothing has happened that concerns CPU `d`. -/
theorem Cpu.frame (h : Cpu s d y) (hthr : s'.thr d = s.thr d) (hcur : s'.cur d = s.cur d)
    (hoff : s'.noff d = s.noff d) (hsie : s'.sie d = s.sie d)
    (hlock : ∀ l, s'.lock l = some d ↔ s.lock l = some d)
    (hproc : ∀ p, s.lock (.proc p) = some d → s'.proc p = s.proc p) : Cpu s' d y where
  me := h.me.trans hthr.symm
  cur := h.cur.trans hcur.symm
  off := h.off.trans hoff.symm
  lock l := (hlock l).trans (h.lock l)
  nodup := h.nodup
  len := hoff ▸ h.len
  sie hs := hoff ▸ h.sie (hsie ▸ hs)
  view p hl := by
    have hl := (hlock _).mp hl
    rw [hproc p hl, h.view p hl]
  blind p hl := h.blind p (mt (hlock _).mpr hl)

end

section

variable (r : Proc n) (cur : C → Option (Fin n)) (hl : s.lock (.proc p) = some c)

include hl

omit [DecidableEq C] in
/-- A process that CPU `c` has locked is changed there. -/
theorem Cpu.see (h : Cpu s c y) (b : Bool) : Cpu { s with proc := update s.proc p r, cur := cur } c
      ({ y with cur := cur c, dead := b }.see p r) where
  __ := h
  cur := rfl
  view q hq := by
    change update y.view p (some r) q = some (update s.proc p r q)
    by_cases hqp : q = p
    · rw [hqp, update_self, update_self]
    · rw [update_of_ne hqp, update_of_ne hqp]
      exact h.view q hq
  blind q hq := by
    have hqp : q ≠ p := by
      rintro rfl
      exact hq hl
    exact (update_of_ne hqp ..).trans (h.blind q hq)

variable {r cur}

omit [DecidableEq C] in
theorem Cpu.unseen (h : Cpu s d y) (hd : d ≠ c) (hcur : cur d = s.cur d) :
    Cpu { s with proc := update s.proc p r, cur := cur } d y := by
  refine h.frame rfl hcur rfl rfl (fun _ => .rfl) fun q hq => update_of_ne (fun he => ?_) ..
  rw [he, hl] at hq
  exact hd (some.inj hq).symm

end

theorem Good.change (h : Good s x) (ht : Table s') (hthr : s'.thr = s.thr) (hc : Cpu s' c y)
    (hd : ∀ d, d ≠ c → Cpu s d (x (s.who d)) → Cpu s' d (x (s.who d)))
    (hdead : ∀ p, (update x (s.who c) y (.inl p)).dead = true → Over (s'.proc p))
    (hlive : s.thr c = none → y.dead = false) : Good s' (update x (s.who c) y) := by
  have hwho : ∀ d, s'.who d = s.who d := fun d => by rw [Sys.who, Sys.who, hthr]
  refine ⟨ht, fun d => ?_, hdead, fun d => ?_, fun d p hp => ?_⟩
  · rw [hwho]
    by_cases hdc : d = c
    · subst hdc
      rwa [update_self]
    · rw [update_of_ne (h.who_ne hdc)]
      exact hd d hdc (h.cpu d)
  · by_cases hw : Sum.inr d = s.who c
    · rw [hw, update_self]
      exact hlive (Layer.who_eq_inr.mp hw.symm).1
    · simpa [hw] using h.live d
  · rw [hthr] at hp
    have hne : Sum.inr d ≠ s.who c := fun he => by
      obtain ⟨h1, rfl⟩ := Layer.who_eq_inr.mp he.symm
      simp [h1] at hp
    simpa [hne] using h.back d p hp

section

variable (h : Good s x)

include h

omit [DecidableEq C] in
theorem Good.congr (he : s'.core = s.core) : Good s' x := by
  cases s
  cases s'
  obtain ⟨rfl, rfl, rfl, rfl, rfl, rfl⟩ := he
  exact ⟨{ h.toTable with }, fun c => { h.cpu c with }, h.dead, h.live, h.back⟩

theorem Good.same_update (he : s'.core = s.core) : Good s' (update x (s.who c) (x (s.who c))) := by
  rw [update_eq_self]
  exact h.congr he

theorem Good.setSie (hb : b = true → s.noff c = 0) :
    Good { s with sie := update s.sie c b } x where
  __ := h
  toTable := { h.toTable with }
  cpu d :=
    { h.cpu d with
      sie hs := by
        by_cases hdc : d = c
        · subst hdc
          exact hb ((update_self ..).symm.trans hs)
        · exact (h.cpu d).sie ((update_of_ne hdc ..).symm.trans hs) }

/-- The thread on CPU `c` gets a new context, and has not become a `ZOMBIE`. -/
theorem Good.recontext (ht : Table s') (hthr : s'.thr = s.thr) (hc : Cpu s' c y)
    (hd : ∀ d, d ≠ c → Cpu s d (x (s.who d)) → Cpu s' d (x (s.who d)))
    (hy : y.dead = (x (s.who c)).dead) (hdead : ∀ p, (x (.inl p)).dead = true → Over (s'.proc p)) :
    Good s' (update x (s.who c) y) := by
  refine h.change ht hthr hc hd (fun p hp => hdead p ?_) fun hc => ?_
  · by_cases hw : Sum.inl p = s.who c
    · rw [hw, update_self, hy] at hp
      rwa [hw]
    · rwa [update_of_ne hw] at hp
  · rw [hy, Layer.who_of_none hc, h.live]

/-! ## Locks and interrupts -/

theorem Good.pushOff : Good (s.pushOff c)
      (update x (s.who c) { x (s.who c) with off := (x (s.who c)).off + 1 }) := by
  refine h.recontext { h.toTable with } rfl ?_ (fun d hd hcpu => ?_) rfl h.dead
  · obtain ⟨h1, h2, h3, h4, h5, h6, -, h7, h8⟩ := h.cpu c
    refine ⟨h1, h2, ?_, h4, h5, ?_, fun hs => ?_, h7, h8⟩
    · rw [Sys.pushOff_noff, h3]
    · rw [Sys.pushOff_noff]
      exact Nat.le_succ_of_le h6
    · simp [Sys.pushOff_sie] at hs
  · exact hcpu.frame rfl rfl (update_of_ne hd ..) (update_of_ne hd ..)
      (fun _ => Iff.rfl) fun _ _ => rfl

theorem Good.take (hl : s.lock l = none) (hlen : (x (s.who c)).held.length < (x (s.who c)).off)
    (hv1 : ∀ p, l = .proc p → v p = some (s.proc p))
    (hv2 : ∀ p, l ≠ .proc p → v p = (x (s.who c)).view p) :
    Good { s with lock := update s.lock l (some c) }
      (update x (s.who c)
        { x (s.who c) with held := l :: (x (s.who c)).held, view := v }) := by
  obtain ⟨h1, h2, h3, h4, h5, h6, h7, h8, h9⟩ := h.cpu c
  have hnot : l ∉ (x (s.who c)).held := fun hmem => by
    simp [(h4 l).mpr hmem] at hl
  refine h.recontext ⟨h.on, h.uniq, h.thr, fun d p hd hp => ?_, fun d p hd hp => ?_,
    fun p hp => ?_⟩ rfl ?_
    (fun d hd hcpu => ?_) rfl h.dead
  · have hlp : Lock.proc p ≠ l := fun he => by
      simp [← he, h.sched d p hd hp] at hl
    exact (update_of_ne hlp ..).trans (h.sched d p hd hp)
  · by_cases hlp : Lock.proc p = l
    · subst hlp
      refine h.running d p hd fun he => ?_
      simp [hl] at he
    · exact h.running d p hd fun he => hp ((update_of_ne hlp ..).trans he)
  · have hlp : Lock.proc p ≠ l := fun he => by
      subst he
      simp at hp
    exact h.free p ((update_of_ne hlp ..).symm.trans hp)
  · refine ⟨h1, h2, h3, fun l' => ?_, List.nodup_cons.mpr ⟨hnot, h5⟩, h3 ▸ hlen, h7, fun p hp => ?_,
      fun p hp => ?_⟩
    · by_cases hll : l' = l
      · subst hll
        exact ⟨fun _ => List.mem_cons_self .., fun _ => update_self ..⟩
      · dsimp only
        rw [update_of_ne hll, h4, List.mem_cons]
        exact ⟨.inr, fun h => h.resolve_left hll⟩
    · by_cases hll : l = .proc p
      · exact hv1 p hll
      · exact (hv2 p hll).trans (h8 p ((update_of_ne (Ne.symm hll) ..).symm.trans hp))
    · have hll : l ≠ .proc p := fun he => hp (he ▸ update_self ..)
      exact (hv2 p hll).trans (h9 p fun he => hp ((update_of_ne (Ne.symm hll) ..).trans he))
  · refine hcpu.frame rfl rfl rfl rfl (fun l' => ?_) fun _ _ => rfl
    dsimp only
    by_cases hll : l' = l
    · subst hll
      rw [update_self, hl]
      exact ⟨fun he => absurd (some.inj he).symm hd, nofun⟩
    · rw [update_of_ne hll]

/-- `release` has released a lock; if it is that of a process, the process is in order. -/
theorem Good.release (hl : s.lock l = some c) (hfree : ∀ p, l = .proc p → (s.proc p).Free)
    (hv1 : ∀ p, l = .proc p → v p = none) (hv2 : ∀ p, l ≠ .proc p → v p = (x (s.who c)).view p)
    (hsched : ∀ p, l = .proc p → s.thr c = none → s.cur c ≠ some p) :
    Good { s.popOff c with lock := update s.lock l none }
      (update x (s.who c)
        { x (s.who c) with
          off := (x (s.who c)).off - 1
          held := (x (s.who c)).held.erase l
          view := v }) := by
  obtain ⟨h1, h2, h3, h4, h5, h6, h7, h8, h9⟩ := h.cpu c
  have hmem : l ∈ (x (s.who c)).held := (h4 l).mp hl
  refine h.recontext ⟨h.on, h.uniq, h.thr, fun d p hd hp => ?_, fun d p hd hp => ?_,
    fun p hp => ?_⟩ rfl ?_
    (fun d hd hcpu => ?_) rfl h.dead
  · have hlp : Lock.proc p ≠ l := fun he => by
      subst he
      have := h.sched d p hd hp
      rw [hl] at this
      cases this
      exact hsched p rfl hd hp
    exact (update_of_ne hlp ..).trans (h.sched d p hd hp)
  · by_cases hlp : Lock.proc p = l
    · -- the process that runs on `d` is in order, and it is current
      exact (hfree p hlp.symm).running.mpr ((h.on p).mpr ⟨d, h.thr d p hd⟩)
    · exact h.running d p hd fun he => hp ((update_of_ne hlp ..).trans he)
  · by_cases hlp : Lock.proc p = l
    · exact hfree p hlp.symm
    · exact h.free p ((update_of_ne hlp ..).symm.trans hp)
  · refine ⟨h1, h2, ?_, fun l' => ?_, h5.erase l, ?_, fun hs => ?_, fun p hp => ?_, fun p hp => ?_⟩
    · dsimp only
      rw [Sys.popOff_noff, h3]
    · dsimp only
      by_cases hll : l' = l
      · subst hll
        rw [update_self, h5.mem_erase_iff]
        exact ⟨nofun, fun h => absurd rfl h.1⟩
      · rw [update_of_ne hll, h4, h5.mem_erase_iff]
        exact ⟨fun h => ⟨hll, h⟩, fun h => h.2⟩
    · dsimp only
      rw [Sys.popOff_noff, List.length_erase_of_mem hmem]
      exact Nat.sub_le_sub_right h6 1
    · have hs : (s.popOff c).sie c = true := hs
      rw [Sys.popOff_noff]
      by_cases hz : s.noff c - 1 = 0 ∧ s.intena c = true
      · exact hz.1
      · rw [Sys.popOff] at hs
        dsimp only at hs
        rw [if_neg hz] at hs
        rw [h7 hs]
    · have hll : l ≠ .proc p := fun he => by
        subst he
        simp at hp
      exact (hv2 p hll).trans (h8 p ((update_of_ne (Ne.symm hll) ..).symm.trans hp))
    · by_cases hll : l = .proc p
      · exact hv1 p hll
      · exact (hv2 p hll).trans (h9 p fun he => hp ((update_of_ne (Ne.symm hll) ..).trans he))
  · refine hcpu.frame rfl rfl (update_of_ne hd ..) (s.popOff_sie_of_ne hd) (fun l' => ?_)
      fun _ _ => rfl
    dsimp only
    by_cases hll : l' = l
    · subst hll
      rw [update_self, hl]
      exact ⟨nofun, fun he => absurd (some.inj he).symm hd⟩
    · rw [update_of_ne hll]

end

/-! ## Processes -/

omit [DecidableEq C] in
theorem Table.free_update (h : Table s) (hl : s.lock (.proc p) = some c)
    (hq : s.lock (.proc q) = none) : (update s.proc p r q).Free := by
  have hqp : q ≠ p := fun he => by
    simp [he, hl] at hq
  simpa [hqp] using h.free q hq

omit [DecidableEq C] in
/-- A process that CPU `c` has locked changes, but not whether it is current.  If it runs elsewhere
it still runs. -/
theorem Table.modify (h : Table s) (hl : s.lock (.proc p) = some c) (hon : r.on = (s.proc p).on)
    (hrun : s.thr c = some p ∨ ((s.proc p).state = .running → r.state = .running)) :
    Table { s with proc := update s.proc p r } where
  __ := h
  on q := by
    dsimp only
    rw [← h.on q]
    by_cases hq : q = p
    · rw [hq, update_self, hon]
    · rw [update_of_ne hq]
  running d q hd hq := by
    have hold := h.running d q hd hq
    dsimp only
    by_cases hqp : q = p
    · subst hqp
      rw [update_self]
      refine (hrun.resolve_left fun hc => hq ?_) hold
      rw [h.inj hd hc]
      exact hl
    · rwa [update_of_ne hqp]
  free q hq := h.free_update hl hq

section

variable (h : Good s x) (hl : s.lock (.proc p) = some c) (hon : r.on = (s.proc p).on)
  (hrun : s.thr c = some p ∨ ((s.proc p).state = .running → r.state = .running))

include h hl hon hrun

/-- The same with the contexts; `b` says whether this was the end of the process. -/
theorem Good.modify (hb : b = true → b = (x (s.who c)).dead ∨ s.thr c = some p)
    (hdead : (x (.inl p)).dead = true ∨ b = true ∧ s.thr c = some p → Over r) :
    Good { s with proc := update s.proc p r }
      (update x (s.who c) ({ x (s.who c) with dead := b }.see p r)) := by
  refine h.change (h.toTable.modify hl hon hrun) rfl ?_ (fun d hd hcpu => hcpu.unseen hl hd rfl)
    (fun q hq => ?_) fun hc => ?_
  · have hsee := Cpu.see r s.cur hl (h.cpu c) b
    rwa [← (h.cpu c).cur] at hsee
  · dsimp only
    by_cases hw : Sum.inl q = s.who c
    · have hthr' : s.thr c = some q := Layer.who_eq_inl.mp hw.symm
      rw [hw, update_self] at hq
      have hq : b = true := hq
      by_cases hqp : q = p
      · subst hqp
        simpa using hdead (.inr ⟨hq, hthr'⟩)
      · rw [update_of_ne hqp]
        refine h.dead q (hw ▸ ?_)
        rcases hb hq with hb | hb
        · exact hb ▸ hq
        · exact absurd (some.inj (hthr'.symm.trans hb)) hqp
    · rw [update_of_ne hw] at hq
      by_cases hqp : q = p
      · subst hqp
        simpa using hdead (.inl hq)
      · simpa [hqp] using h.dead q hq
  · refine Bool.eq_false_iff.mpr fun hb' => ?_
    have hb' : b = true := hb'
    rcases hb hb' with he | he
    · simp [Layer.who_of_none hc, h.live, hb'] at he
    · simp [hc] at he

theorem Good.modify_alive (hdead : (x (.inl p)).dead = true → Over r) :
    Good { s with proc := update s.proc p r } (update x (s.who c) ((x (s.who c)).see p r)) := by
  refine h.modify hl hon hrun (fun _ => .inl rfl) fun hd => hdead ?_
  rcases hd with hd | ⟨hd, hc⟩
  · exact hd
  · rwa [Layer.who_of_some hc] at hd

end

theorem Good.setCur (h : Good s x) {o : Option (Fin n)} (hl : s.lock (.proc p) = some c)
    (ht : s.thr c = none) (ho : s.cur c = some p ∧ o = none ∨
      (s.cur c = none ∧ (s.proc p).on = false) ∧ o = some p) :
    Good { s with
        proc := update s.proc p { s.proc p with on := o.isSome }
        cur := update s.cur c o }
      (update x (s.who c)
        ({ x (s.who c) with cur := o }.see p { s.proc p with on := o.isSome })) := by
  have hcd : ∀ d q, update s.cur c o d = some q ↔ d = c ∧ o = some q ∨ d ≠ c ∧
      s.cur d = some q := by
    intro d q
    by_cases hd : d = c
    · subst hd
      rw [update_self]
      simp
    · rw [update_of_ne hd]
      simp [hd]
  have hoq : ∀ q, o = some q → q = p := by
    rintro q rfl
    rcases ho with ⟨-, ho⟩ | ⟨-, ho⟩
    · nomatch ho
    · exact some.inj ho
  have hother : ∀ d, d ≠ c → s.cur d ≠ some p := by
    intro d hd hp
    rcases ho with ⟨hc, -⟩ | ⟨⟨-, hon⟩, -⟩
    · exact hd (h.uniq d c p hp hc)
    · simp [(h.on p).mpr ⟨d, hp⟩] at hon
  have hcp : ∀ q, s.cur c = some q → q = p := by
    intro q hq
    rcases ho with ⟨hc, -⟩ | ⟨⟨hc, -⟩, -⟩
    · exact some.inj (hq.symm.trans hc)
    · simp [hc] at hq
  have hthr : ∀ d q, s.thr d = some q → d ≠ c := fun d q hd he => by
    simp [he, ht] at hd
  refine h.recontext ⟨fun q => ?_, fun d e q hd he => ?_, fun d q hd => ?_, fun d q hd hq => ?_,
    fun d q hd hq => ?_, fun q hq => h.free_update hl hq⟩ rfl ?_ (fun d hd hcpu => ?_)
      rfl fun q hq => ?_
  · dsimp only
    by_cases hqp : q = p
    · subst hqp
      rw [update_self]
      cases o with
      | none =>
        refine ⟨nofun, fun ⟨d, hd⟩ => ?_⟩
        rcases (hcd d q).mp hd with ⟨-, hd⟩ | ⟨hdc, hd⟩
        · nomatch hd
        · exact absurd hd (hother d hdc)
      | some q' =>
        obtain rfl := hoq q' rfl
        exact ⟨fun _ => ⟨c, (hcd c q').mpr (.inl ⟨rfl, rfl⟩)⟩, fun _ => rfl⟩
    · rw [update_of_ne hqp, h.on q]
      refine exists_congr fun d => ?_
      rw [hcd]
      refine ⟨fun hd => .inr ⟨fun hdc => ?_, hd⟩, fun hd => ?_⟩
      · exact hqp (hcp q (hdc ▸ hd))
      · rcases hd with ⟨-, hd⟩ | ⟨-, hd⟩
        · exact absurd (hoq q hd) hqp
        · exact hd
  · rcases (hcd d q).mp hd with ⟨rfl, h1⟩ | ⟨h1, h2⟩ <;> rcases (hcd e q).mp he with
      ⟨rfl, h3⟩ | ⟨h3, h4⟩
    · rfl
    · obtain rfl := hoq q h1
      exact absurd h4 (hother e h3)
    · obtain rfl := hoq q h3
      exact absurd h2 (hother d h1)
    · exact h.uniq d e q h2 h4
  · exact (hcd d q).mpr (.inr ⟨hthr d q hd, h.thr d q hd⟩)
  · rcases (hcd d q).mp hq with ⟨rfl, h1⟩ | ⟨-, h1⟩
    · rw [hoq q h1]
      exact hl
    · exact h.sched d q hd h1
  · have hqp : q ≠ p := fun he => hother d (hthr d q hd) (he ▸ h.thr d q hd)
    simpa [hqp] using h.running d q hd hq
  · have hsee := Cpu.see { s.proc p with on := o.isSome } (update s.cur c o) hl (h.cpu c)
      (x (s.who c)).dead
    rwa [update_self] at hsee
  · exact hcpu.unseen hl hd (update_of_ne hd ..)
  · dsimp only
    by_cases hqp : q = p
    · subst hqp
      rw [update_self]
      exact h.dead q hq
    · simpa [hqp] using h.dead q hq

/-! ## Commands -/

variable {boot : C} {o : Nat} {cmd : Cmd n} {a : Ans cmd} {Q : Ans cmd → Ctx n → Prop}

/-- A process that the context knows about is locked. -/
theorem Cpu.of_view (h : Cpu s c y) (hv : y.view p = some r) :
    s.lock (.proc p) = some c ∧ r = s.proc p := by
  by_cases hl : s.lock (.proc p) = some c
  · exact ⟨hl, some.inj (hv.symm.trans (h.view p hl))⟩
  · simp [h.blind p hl] at hv

theorem Over.congr (h : Over r) (h1 : r'.state = r.state) (h2 : r'.saved = r.saved) : Over r' := by
  rwa [Over, h1, h2]

theorem not_over (h1 : r.state ≠ .zombie) (h2 : r.state = .unused → r.saved = true) : ¬ Over r := by
  rintro (h | ⟨h3, h4⟩)
  · exact h1 h
  · simp [h2 h3] at h4

theorem Over.wake (ch : Chan n) (h : Over r) : Over (r.wake ch) := by
  rw [Proc.wake, if_neg]
  · exact h
  · rintro ⟨h1, -⟩
    exact not_over (by simp [h1]) (by simp [h1]) h

theorem Over.rouse (h : Over r) : Over r.rouse := by
  rw [Proc.rouse, if_neg]
  · exact h
  · intro h1
    exact not_over (by simp [h1]) (by simp [h1]) h

section

variable (h : Good s x)

include h

theorem Good.see (hv : (x (s.who c)).view p = some r) (hon : r'.on = r.on)
    (hrun : (x (s.who c)).me = some p ∨ (r.state = .running → r'.state = .running))
    (hdead : Over r → Over r') (he : s'.core = Sys.core { s with proc := update s.proc p r' }) :
    Good s' (update x (s.who c) ((x (s.who c)).see p r')) := by
  obtain ⟨hl, rfl⟩ := (h.cpu c).of_view hv
  refine .congr (h.modify_alive hl hon ?_ fun hd => hdead (h.dead p hd)) he
  exact (h.cpu c).me ▸ hrun

theorem Good.effect_take {Q : Unit → Ctx n → Prop} (hl : s.lock l = none)
    (hs : spec (.take l) (x (s.who c)) Q) :
    ∃ y, Q () y ∧ Good { s with lock := update s.lock l (some c) }
      (update x (s.who c) y) := by
  have hnot : l ∉ (x (s.who c)).held := fun hmem => by
    simp [((h.cpu c).lock l).mpr hmem] at hl
  cases l with
  | proc p =>
    refine ⟨_, hs.2 hnot (s.proc p) (h.free p hl) fun hme => ?_, h.take hl hs.1 (fun q hq => ?_)
      fun q hq => ?_⟩
    · refine h.running c p ((h.cpu c).me ▸ hme) fun he => ?_
      simp [hl] at he
    · obtain rfl := Lock.proc.inj hq
      exact update_self ..
    · exact update_of_ne (fun he => hq (congrArg Lock.proc he.symm)) ..
  | _ => exact ⟨_, hs.2 hnot, h.take hl hs.1 nofun fun _ _ => rfl⟩

theorem Good.effect_release {Q : Unit → Ctx n → Prop} (hl : s.lock l = some c)
    (hs : spec (.release l) (x (s.who c)) Q) :
    ∃ y, Q () y ∧ Good { s.popOff c with lock := update s.lock l none }
      (update x (s.who c) y) := by
  cases l with
  | proc p =>
    obtain ⟨-, -, hcur, ⟨r, hv, hr⟩, hQ⟩ := hs
    obtain ⟨-, rfl⟩ := (h.cpu c).of_view hv
    refine ⟨_, hQ, h.release hl (fun q hq => ?_) (fun q hq => ?_) (fun q hq => ?_)
      fun q _ ht hq => ?_⟩
    · exact Lock.proc.inj hq ▸ hr
    · exact Lock.proc.inj hq ▸ update_self ..
    · exact update_of_ne (fun he => hq (congrArg Lock.proc he.symm)) ..
    · simp [(h.cpu c).cur, (h.cpu c).me, ht, hq] at hcur
  | _ => exact ⟨_, hs.2.2, h.release hl nofun nofun (fun _ _ => rfl) nofun⟩

theorem Good.effect_setCur {q : Option (Fin n)} {Q : Unit → Ctx n → Prop}
    (hs : spec (.setCur q) (x (s.who c)) Q) :
    ∃ y, Q () y ∧ Good (s.setCur c q) (update x (s.who c) y) := by
  have hcpu := h.cpu c
  rw [Sys.setCur.eq_def]
  cases q with
  | none =>
    obtain ⟨hme, hs⟩ := hs
    rw [hcpu.me] at hme
    rw [hcpu.cur] at hs
    cases hc : s.cur c with
    | none =>
      rw [hc] at hs
      exact ⟨_, hs, h.same_update (congrArg (fun cur => Sys.core { s with cur := cur })
        (update_eq_self_iff.mpr hc.symm))⟩
    | some p =>
      rw [hc] at hs
      obtain ⟨r, hv, hQ⟩ := hs
      obtain ⟨hl, rfl⟩ := hcpu.of_view hv
      exact ⟨_, hQ, h.setCur hl hme (.inl ⟨hc, rfl⟩)⟩
  | some p =>
    obtain ⟨hme, hc, r, hv, hon, hQ⟩ := hs
    rw [hcpu.me] at hme
    rw [hcpu.cur] at hc
    obtain ⟨hl, rfl⟩ := hcpu.of_view hv
    rw [hc]
    exact ⟨_, hQ, h.setCur hl hme (.inr ⟨⟨hc, hon⟩, rfl⟩)⟩

theorem Good.effect (he : effect boot s c o cmd = .done a s') (hnew : ∀ p, cmd ≠ .newContext p)
    (hs : spec cmd (x (s.who c)) Q) : ∃ y, Q a y ∧ Good s' (update x (s.who c) y) := by
  have hcpu := h.cpu c
  cases cmd with
  | newContext p => exact absurd rfl (hnew p)
  | swtchSched p | swtchProc p | loop l | panic m => cases he
  | pushOff =>
    cases he
    exact ⟨_, hs, h.pushOff⟩
  | take l =>
    rw [Kernel.effect] at he
    split at he
    · cases he
      exact h.effect_take ‹_› hs
    · split at he <;> cases he
  | release l =>
    rw [Kernel.effect] at he
    split at he
    · split at he
      · cases he
      · split at he
        · cases he
        · cases he
          exact h.effect_release ‹_› hs
    · cases he
  | setCur q =>
    cases he
    exact h.effect_setCur hs
  | intrOn =>
    cases he
    refine ⟨_, hs.2, ?_⟩
    rw [update_eq_self]
    exact h.setSie fun _ => hcpu.off.symm.trans hs.1
  | intrOff =>
    cases he
    refine ⟨_, hs, ?_⟩
    rw [update_eq_self]
    exact h.setSie (by simp)
  | holding l =>
    cases he
    refine ⟨_, ?_, h.same_update rfl⟩
    rwa [decide_eq_decide.mpr (hcpu.lock l)]
  | intrGet =>
    cases he
    refine ⟨_, hs _ fun hoff => ?_, h.same_update rfl⟩
    exact Bool.eq_false_iff.mpr fun hsie => hoff (hcpu.off.trans (hcpu.sie hsie))
  | noff =>
    cases he
    exact ⟨_, hcpu.off ▸ hs, h.same_update rfl⟩
  | myproc =>
    cases he
    exact ⟨_, hcpu.cur ▸ hs, h.same_update rfl⟩
  | intena | isBoot | killed p | ask | wakeBegin ch q | get b =>
    cases he
    exact ⟨_, hs _, h.same_update rfl⟩
  | setIntena b | wakeEnd w | put b v | returned d v =>
    cases he
    exact ⟨_, hs, h.same_update rfl⟩
  | slept l | fatal p =>
    cases he
    exact ⟨_, hs.2, h.same_update rfl⟩
  | state p =>
    cases he
    refine ⟨_, hs _ (fun r hr => by rw [(hcpu.of_view hr).2]) fun hv hme => ?_,
      h.same_update rfl⟩
    refine h.running c p (hcpu.me ▸ hme) fun hl => ?_
    simp [hcpu.view p hl] at hv
  | parent p | pid p | xstate p =>
    cases he
    exact ⟨_, hs _ fun r hr => by rw [(hcpu.of_view hr).2], h.same_update rfl⟩
  | clearChan p | setPid p v =>
    cases he
    obtain ⟨r, hv, -, hQ⟩ := hs
    obtain ⟨-, rfl⟩ := hcpu.of_view hv
    exact ⟨_, hQ, h.see hv rfl (.inr id) (fun hr => hr.congr rfl rfl) rfl⟩
  | setParent p q =>
    cases he
    obtain ⟨r, hv, hQ⟩ := hs
    obtain ⟨-, rfl⟩ := hcpu.of_view hv
    exact ⟨_, hQ, h.see hv rfl (.inr id) (fun hr => hr.congr rfl rfl) rfl⟩
  | ready p =>
    cases he
    obtain ⟨r, hv, hst, hsv, hQ⟩ := hs
    obtain ⟨-, rfl⟩ := hcpu.of_view hv
    refine ⟨_, hQ, h.see hv rfl (.inr ?_) (fun hr => absurd hr (not_over ?_ fun _ => hsv)) rfl⟩
    all_goals simp [hst]
  | setRunning p =>
    cases he
    obtain ⟨r, hv, -, hst, hQ⟩ := hs
    obtain ⟨-, rfl⟩ := hcpu.of_view hv
    refine ⟨_, hQ, h.see hv rfl (.inr ?_) (fun hr => absurd hr (not_over ?_ ?_)) rfl⟩
    all_goals simp [hst]
  | setSleeping p ch =>
    cases he
    obtain ⟨r, hv, hme, hst, -, -, hQ⟩ := hs
    obtain ⟨-, rfl⟩ := hcpu.of_view hv
    refine ⟨_, hQ, h.see hv rfl (.inl hme) (fun hr => absurd hr (not_over ?_ ?_)) rfl⟩
    all_goals simp [hst]
  | setRunnable p | doze p ch =>
    cases he
    obtain ⟨r, hv, hme, hst, hQ⟩ := hs
    obtain ⟨-, rfl⟩ := hcpu.of_view hv
    refine ⟨_, hQ, h.see hv rfl (.inl hme) (fun hr => absurd hr (not_over ?_ ?_)) rfl⟩
    all_goals simp [hst]
  | setZombie p v =>
    cases he
    obtain ⟨r, hv, hme, -, hQ⟩ := hs
    obtain ⟨hl, rfl⟩ := hcpu.of_view hv
    have ht : s.thr c = some p := hcpu.me ▸ hme
    exact ⟨_, hQ, .congr (h.modify hl rfl (.inl ht) (fun _ => .inr ht) fun _ => .inl rfl) rfl⟩
  | wake p ch w =>
    cases he
    obtain ⟨r, hv, -, hQ⟩ := hs
    obtain ⟨-, rfl⟩ := hcpu.of_view hv
    exact ⟨_, hQ, h.see hv (Proc.wake_on ..) (.inr (Proc.wake_running _ ch)) (Over.wake ch) rfl⟩
  | mark p pid =>
    cases he
    obtain ⟨r, hv, -, hQ⟩ := hs
    obtain ⟨-, rfl⟩ := hcpu.of_view hv
    exact ⟨_, hQ, h.see hv (Proc.rouse_on ..) (.inr (Proc.rouse_running _)) Over.rouse rfl⟩
  | freeproc p =>
    cases he
    obtain ⟨r, hv, hst, hon, hQ⟩ := hs
    obtain ⟨-, rfl⟩ := hcpu.of_view hv
    refine ⟨_, hQ, h.see hv rfl (.inr fun hr => ?_) (fun _ => .inr ⟨rfl, rfl⟩) rfl⟩
    rcases hst with hst | hst
    · simp [hr] at hst
    · simp [hr] at hst

theorem Good.halt {m : Panic} (he : Kernel.effect boot s c o cmd = .halt m)
    (hs : spec cmd (x (s.who c)) Q) : Panics m := by
  have hcpu := h.cpu c
  cases cmd with
  | panic m' =>
    obtain rfl := Effect.halt.inj he
    exact hs
  | take l =>
    rw [Kernel.effect] at he
    split at he
    · cases he
    · split at he
      · obtain rfl := Effect.halt.inj he
        exact trivial
      · cases he
  | release l =>
    have hrel : l ∈ (x (s.who c)).held ∧ 0 < (x (s.who c)).off := by
      cases l with
      | _ => exact ⟨hs.1, hs.2.1⟩
    rw [hcpu.off] at hrel
    rw [Kernel.effect, if_pos ((hcpu.lock l).mpr hrel.1), if_neg, if_neg (by omega)] at he
    · cases he
    · intro hsie
      have := hcpu.sie hsie
      omega
  | _ => cases he

/-! ## Switching -/

/-- A slot in which nothing runs is used for a new process. -/
theorem Good.renew (hp : ∀ d, s.thr d ≠ some p) {z : Ctx n} (hz : z.dead = false) :
    Good s (update x (.inl p) z) := by
  refine ⟨h.toTable, fun d => ?_, fun q hq => ?_, fun d => ?_, fun d q hd => ?_⟩
  · rw [update_of_ne fun he => hp d (Layer.who_eq_inl.mp he)]
    exact h.cpu d
  · by_cases hqp : q = p
    · subst hqp
      simp [update_self, hz] at hq
    · rw [update_of_ne (by simpa using hqp)] at hq
      exact h.dead q hq
  · rw [update_of_ne (by simp)]
    exact h.live d
  · rw [update_of_ne (by simp)]
    exact h.back d q hd

end

omit [DecidableEq C] in
theorem Table.not_thr (h : Table s) (hon : (s.proc p).on = false) (d : C) : s.thr d ≠ some p := by
  intro hd
  simp [(h.on p).mpr ⟨d, h.thr d p hd⟩] at hon

theorem Good.newContext (h : Good s x) {Q : Unit → Ctx n → Prop}
    (hs : spec (.newContext p) (x (s.who c)) Q) : (∀ d, s.thr d ≠ some p) ∧
      ∃ y, Q () y ∧ Good (s.modify p fun r => { r with saved := true })
        (update (update x (s.who c) y) (.inl p) (.calm none [])) := by
  obtain ⟨r, hv, hst, hon, hQ⟩ := hs
  obtain ⟨hl, rfl⟩ := (h.cpu c).of_view hv
  have hp := h.toTable.not_thr hon
  have hne : s.who c ≠ .inl p := fun he => hp c (Layer.who_eq_inl.mp he)
  refine ⟨hp, _, hQ, ?_⟩
  rw [update_comm hne]
  have h' := h.renew hp (z := .calm none []) rfl
  have hx : update x (.inl p) (.calm none []) (s.who c) = x (s.who c) :=
    update_of_ne hne ..
  rw [← hx]
  refine h'.modify_alive hl rfl (.inr ?_) fun hd => ?_
  · exact fun hr => absurd (hst.symm.trans hr) nofun
  · rw [update_self] at hd
    nomatch hd

/-- What a scheduler knows when `swtch` returns. -/
def Returns (z w : Ctx n) : Prop :=
  ∃ p, ∃ r : Proc n, z.cur = some p ∧ r.state ≠ .running ∧ r.on = true ∧ r.saved = true ∧
    r.dozing = false ∧ w = .switching p r

/-- What a process knows when `swtch` returns. -/
def Awakes (p : Fin n) (z w : Ctx n) : Prop :=
  z.dead = false ∧ ∃ r : Proc n, r.Free ∧ r.state = .running ∧ w = .awake p r

/-- CPU `c` changes between its scheduler and the process `p`, which is current and locked. -/
theorem Good.switch (h : Good s x) {t : Option (Fin n)} {b : Bool} {x' : Thread n C → Ctx n}
    (hp : s.cur c = some p) (hl : s.lock (.proc p) = some c) (ht : t = none ∨ t = some p)
    (hs : s' = { s with
      proc := update s.proc p { s.proc p with saved := b }
      thr := update s.thr c t }) (hc : Cpu s' c (x' (s'.who c)))
    (hx : ∀ d, d ≠ c → x' (s.who d) = x (s.who d))
    (hdead : ∀ q, (x' (.inl q)).dead = true → Over (s'.proc q))
    (hlive : ∀ d, (x' (.inr d)).dead = false)
    (hback : ∀ d q, s'.thr d = some q → (x' (.inr d)).cur = some q) : Good s' x' := by
  have hthr : s'.thr = update s.thr c t := by rw [hs]
  have hthr' : ∀ d, d ≠ c → s'.thr d = s.thr d := fun d hd => by rw [hthr, update_of_ne hd]
  have hthrc : ∀ q, s'.thr c = some q → q = p := fun q hq => by
    rw [hthr, update_self] at hq
    rcases ht with ht | ht
    · simp [ht] at hq
    · exact (some.inj (ht.symm.trans hq)).symm
  have hwho : ∀ d, d ≠ c → s'.who d = s.who d := fun d hd => by rw [Sys.who, Sys.who, hthr' d hd]
  subst hs
  refine ⟨⟨fun q => ?_, h.uniq, fun d q hd => ?_, fun d q hd hq => ?_, fun d q hd hq => ?_,
    fun q hq => h.free_update hl hq⟩, fun d => ?_, hdead, hlive, hback⟩
  · dsimp only
    rw [← h.on q]
    by_cases hqp : q = p
    · rw [hqp, update_self]
    · rw [update_of_ne hqp]
  · by_cases hdc : d = c
    · subst hdc
      rw [hthrc q hd]
      exact hp
    · exact h.thr d q (hthr' d hdc ▸ hd)
  · by_cases hdc : d = c
    · subst hdc
      rw [some.inj (hq.symm.trans hp)]
      exact hl
    · exact h.sched d q (hthr' d hdc ▸ hd) hq
  · have hdc : d ≠ c := fun he => by
      subst he
      exact hq (hthrc q hd ▸ hl)
    have hold := h.running d q (hthr' d hdc ▸ hd) hq
    dsimp only
    by_cases hqp : q = p
    · subst hqp
      simpa using hold
    · rwa [update_of_ne hqp]
  · by_cases hdc : d = c
    · exact hdc ▸ hc
    · rw [hwho d hdc, hx d hdc]
      have hcpu := (h.cpu d).unseen (r := { s.proc p with saved := b }) hl hdc rfl
      exact { hcpu with me := hcpu.me.trans (hthr' d hdc).symm }

omit [DecidableEq C] in
/-- The context of a thread that has locked only the process `p`. -/
theorem Cpu.only (h : Cpu s c y) (hheld : y.held = [.proc p]) (hoff : y.off = 1) {y' : Ctx n}
    {thr : C → Option (Fin n)} (hme : y'.me = thr c) (hcur : y'.cur = s.cur c) (hy : y'.off = 1)
    (hheld' : y'.held = [.proc p]) (hview : y'.view = update (fun _ => none) p (some r)) :
    Cpu { s with proc := update s.proc p r, thr := thr } c y' := by
  have hl : ∀ q, s.lock (.proc q) = some c ↔ q = p := fun q => by
    rw [h.lock, hheld, List.mem_singleton]
    exact ⟨Lock.proc.inj, congrArg _⟩
  refine ⟨hme, hcur, ?_, fun l => ?_, ?_, ?_, h.sie, fun q hq => ?_, fun q hq => ?_⟩
  · rw [hy, ← hoff]
    exact h.off
  · rw [hheld', ← hheld]
    exact h.lock l
  · rw [hheld']
    exact List.nodup_singleton _
  · rw [hheld', ← hheld]
    exact h.len
  · dsimp only
    rw [(hl q).mp hq, hview, update_self, update_self]
  · rw [hview, update_of_ne fun he => hq ((hl q).mpr he)]

theorem Good.save (h : Good s x) {Q : Unit → Ctx n → Prop}
    (hs : spec (.swtchSched p) (x (s.who c)) Q) : s.thr c = some p ∧
      ∃ y z, Returns (x (.inr c)) y ∧ (∀ w, Awakes p z w → Q () w) ∧
        Good ({ s with thr := update s.thr c none }.modify p fun r => { r with saved := true })
          (update (update x (.inl p) z) (.inr c) y) := by
  obtain ⟨r, hme, hheld, hoff, hv, hrun, hun, hdz, hQ⟩ := hs
  have hcpu := h.cpu c
  obtain ⟨hl, rfl⟩ := hcpu.of_view hv
  have ht : s.thr c = some p := hcpu.me ▸ hme
  have hcur : s.cur c = some p := h.thr c p ht
  have hx : x (s.who c) = x (.inl p) := by rw [Layer.who_of_some ht]
  refine ⟨ht, .switching p { s.proc p with saved := true }, x (.inl p),
    ⟨p, { s.proc p with saved := true },
    h.back c p ht, hrun, (h.on p).mpr ⟨c, hcur⟩, rfl, hdz, rfl⟩, fun w hw => ?_, ?_⟩
  · obtain ⟨hd, r', h1, h2, rfl⟩ := hw
    exact hQ (hx ▸ hd) r' h1 h2
  rw [update_eq_self]
  refine h.switch hcur hl (.inl rfl) rfl ?_ (fun d hd => ?_) (fun q hq => ?_)
    (fun d => ?_) fun d q hd => ?_
  · rw [Layer.who_of_none (update_self ..), update_self]
    refine hcpu.only hheld hoff ?_ hcur.symm rfl rfl rfl
    exact (update_self c none s.thr).symm
  · refine update_of_ne (fun he => hd ?_) ..
    exact (Layer.who_eq_inr.mp he).2
  · rw [update_of_ne (by simp)] at hq
    have hover := h.dead q hq
    by_cases hqp : q = p
    · subst hqp
      rw [Sys.modify_self]
      exact .inl (hover.resolve_right fun he => hun he.1)
    · rwa [Sys.modify_of_ne _ _ hqp]
  · by_cases hdc : d = c
    · rw [hdc, update_self]
      rfl
    · rw [update_of_ne (by simpa using hdc)]
      exact h.live d
  · have hdc : d ≠ c := fun he => by
      have hd : update s.thr c none d = some q := hd
      simp [he] at hd
    rw [update_of_ne (by simpa using hdc)]
    exact h.back d q ((update_of_ne hdc ..).symm.trans hd)

theorem Good.resume (h : Good s x) {Q : Unit → Ctx n → Prop}
    (hs : spec (.swtchProc p) (x (s.who c)) Q) : s.thr c = none ∧ (∀ d, s.thr d ≠ some p) ∧
      (s.proc p).saved = true ∧
      ∃ y z, Awakes p (x (.inl p)) y ∧ (∀ w, Returns z w → Q () w) ∧
        Good ({ s with thr := update s.thr c (some p) }.modify p fun r => { r with saved := false })
          (update (update x (.inl p) y) (.inr c) z) := by
  obtain ⟨r, hx, hrun, hsv, hdz, hQ⟩ := hs
  have hcpu := h.cpu c
  have hme : s.thr c = none := by rw [← hcpu.me, hx]; rfl
  have hcur : s.cur c = some p := by rw [← hcpu.cur, hx]; rfl
  obtain ⟨hl, rfl⟩ := hcpu.of_view (p := p) (r := r) (by rw [hx]; exact Ctx.lockProc_view ..)
  have hnot : ∀ d, s.thr d ≠ some p := fun d hd => by
    simp [h.uniq d c p (h.thr d p hd) hcur, hme] at hd
  have hon : (s.proc p).on = true := (h.on p).mpr ⟨c, hcur⟩
  have hw : s.who c = .inr c := Layer.who_of_none hme
  have hlive : (x (.inl p)).dead = false := Bool.eq_false_iff.mpr fun hd =>
    not_over (by simp [hrun]) (by simp [hrun]) (h.dead p hd)
  rw [hw] at hx hcpu
  refine ⟨hme, hnot, hsv, .awake p { s.proc p with saved := false }, x (.inr c), ⟨hlive,
    { s.proc p with saved := false }, ⟨by simp [hrun, hon], by simp [hrun], hdz⟩, hrun, rfl⟩,
    fun w hw => ?_, ?_⟩
  · obtain ⟨q, r', h1, h2, h3, h4, h5, rfl⟩ := hw
    rw [hx] at h1
    obtain rfl := some.inj h1
    exact hQ r' h2 h3 h4 h5
  have hz : update x (.inl p) (.awake p { s.proc p with saved := false }) (.inr c) = x (.inr c) :=
    update_of_ne (by simp) ..
  rw [← hz, update_eq_self]
  refine h.switch hcur hl (.inr rfl) rfl ?_ (fun d hd => ?_) (fun q hq => ?_)
    (fun d => ?_) fun d q hd => ?_
  · rw [Layer.who_of_some (update_self ..), update_self]
    refine hcpu.only (by rw [hx]; rfl) (by rw [hx]; rfl) ?_ hcur.symm rfl rfl rfl
    exact (update_self c (some p) s.thr).symm
  · exact update_of_ne (fun he => hnot d (Layer.who_eq_inl.mp he)) ..
  · by_cases hqp : q = p
    · subst hqp
      rw [update_self] at hq
      nomatch hq
    · rw [update_of_ne (by simpa using hqp)] at hq
      rw [Sys.modify_of_ne _ _ hqp]
      exact h.dead q hq
  · rw [update_of_ne (by simp)]
    exact h.live d
  · rw [update_of_ne (by simp)]
    by_cases hdc : d = c
    · subst hdc
      have hd : update s.thr d (some p) d = some q := hd
      rw [update_self] at hd
      rw [hx, ← hd]
      rfl
    · exact h.back d q ((update_of_ne hdc ..).symm.trans hd)

/-! ## The layer -/

/-- The context of a process in user space. -/
def User (y : Ctx n) : Prop := ∃ p, y = .calm (some p) []

omit [DecidableEq C] in
/-- A thread with interrupts on has no lock. -/
theorem Good.calm (h : Good s x) (hsie : s.sie c = true) : ∃ o, x (s.who c) = .calm o [] := by
  have hcpu := h.cpu c
  have hoff := hcpu.sie hsie
  have hheld : (x (s.who c)).held = [] := List.length_eq_zero_iff.mp (by have := hcpu.len; omega)
  have hlock : ∀ p, s.lock (.proc p) ≠ some c := fun p hl => by
    have := (hcpu.lock (.proc p)).mp hl
    simp [hheld] at this
  refine ⟨s.thr c, Ctx.ext hcpu.me ?_ (hcpu.off.trans hoff) hheld
    (funext fun p => hcpu.blind p (hlock p)) ?_⟩
  · rw [hcpu.cur]
    cases ht : s.thr c with
    | some p => exact h.thr c p ht
    | none =>
      cases hc : s.cur c with
      | none => rfl
      | some p => exact absurd (h.sched c p ht hc) (hlock p)
  · cases hd : (x (s.who c)).dead with
    | false => rfl
    | true =>
      -- only a process that holds its own lock is a `ZOMBIE` and runs
      cases ht : s.thr c with
      | none =>
        simp [Layer.who_of_none ht, h.live] at hd
      | some p =>
        rw [Layer.who_of_some ht] at hd
        have hrun := h.running c p ht (hlock p)
        exact absurd (h.dead p hd) (not_over (by simp [hrun]) (by simp [hrun]))

end

/-- The first layer. -/
def layer (n : Nat) (C : Type) : Layer n C where
  X := Ctx n
  spec := spec
  User := User
  Wakes := Awakes
  Returns := Returns
  Panics := Panics
  G := Good

/-- All code keeps the rules of the first layer. -/
theorem sound (boot : C) (init : Fin n) (ok : State n C → Act C → Prop) (F : State n C → Prop) :
    (layer n C).Sound boot init ok F where
  mono := monotone_spec
  inj s x _ hG c d p hc hd := hG.toTable.inj hc hd
  first mem _ := by
    refine ⟨fun _ => .calm none [],
      ⟨⟨fun p => ⟨nofun, nofun⟩, nofun, nofun, nofun, nofun, fun p _ => ?_⟩,
      fun c => ?_, nofun, fun _ => rfl, nofun⟩, fun c => ?_, ?_⟩
    · by_cases hp : p = init
      · exact Proc.Free.of_saved (by simp [start, firstProc, hp]) rfl
          (by simp [start, firstProc, hp])
          rfl
      · exact Proc.Free.of_unused (by simp [start, firstProc, hp]) rfl rfl
    · exact ⟨rfl, rfl, rfl, fun l => ⟨nofun, nofun⟩, List.nodup_nil, Nat.le_refl 0,
        fun _ => rfl, nofun,
        fun _ _ => rfl⟩
    · exact ⟨rfl, rfl⟩
    · rintro y ⟨-, r, hr, -, rfl⟩
      exact wp_post (wp_forkret hr) fun _ => ⟨init, rfl⟩
  body l x Q h := wp_body l h
  eff s x c o cmd k r sys' Q _ _ hG _ hnew he hs := hG.effect he hnew hs
  halt s x c o cmd k m Q _ _ hG _ he hs := hG.halt he hs
  new s x c p k Q _ hG _ hs := by
    obtain ⟨hp, y, hQ, hG'⟩ := hG.newContext hs
    refine ⟨hp, y, .calm none [], hQ, ?_, hG'⟩
    rintro w ⟨-, r, hr, -, rfl⟩
    exact wp_post (wp_forkret hr) fun _ => ⟨p, rfl⟩
  save s x c p k Q _ hG _ hs := hG.save hs
  resume s x c p k Q _ hG _ hs := hG.resume hs
  trap s x c p u t _ hG _ ht hu := by
    obtain ⟨q, hq⟩ := hu
    refine ⟨x (.inl p), ?_, ?_⟩
    · rw [hq]
      exact wp_post (wp_usertrap init t) fun _ => ⟨q, rfl⟩
    · rw [update_eq_self]
      exact Good.congr (hG.setSie (c := c) (b := false) nofun) rfl
  intr s x c cmd k i _ hG _ hsie hk := by
    obtain ⟨o, ho⟩ := hG.calm hsie
    refine ⟨?_, hG.setSie nofun⟩
    rw [ho] at hk ⊢
    exact wp_keep (wp_kerneltrap o i) fun _ => ⟨rfl, hk⟩

section Results

variable {boot : C} {init : Fin n} {ok : State n C → Act C → Prop} {s : State n C}

theorem inv (h : (machine n C boot init).Reach ok s) : ∃ x, (layer n C).Runs s x ∧ Good s.sys x :=
  (sound boot init ok fun _ => True).inv (fun _ _ => trivial) h

/-- What the rules demand of the next command of a CPU. -/
theorem next (h : (machine n C boot init).Reach ok s) {c : C} {cmd : Cmd n}
    {k : Ans cmd → K n Unit} (hc : s.run c = .code (.cmd cmd k)) :
    ∃ x Q, Good s.sys x ∧ spec cmd (x (s.sys.who c)) Q := by
  obtain ⟨x, hr, hG⟩ := inv h
  exact ⟨x, _, hG, hr.code c _ hc⟩

end Results

end Locking

section Results

variable {boot : C} {init : Fin n} {s : State n C}

/-- **One CPU per process.** -/
theorem current_on_one_cpu (h : (machine n C boot init).Reach Any s) :
    (∀ c d p, s.sys.cur c = some p → s.sys.cur d = some p → c = d) ∧
    (∀ p, s.sys.lock (.proc p) = none →
      ((s.sys.proc p).state = .running ↔ ∃! c, s.sys.cur c = some p) ∧
      ((s.sys.proc p).state ≠ .running → (∀ c, s.sys.cur c ≠ some p) ∧
        ((s.sys.proc p).state ≠ .unused → (s.sys.proc p).saved = true))) ∧
    -- a process that is being freed does not run, on any CPU
    (∀ c p k, s.run c = .code (.cmd (.freeproc p) k) →
      ∀ d, s.sys.cur d ≠ some p ∧ s.sys.thr d ≠ some p) ∧
    s.halted ≠ some .schedLock ∧ s.halted ≠ some .schedRunning := by
  obtain ⟨x, hr, hG⟩ := Locking.inv h
  refine ⟨hG.uniq, fun p hp => ?_, fun c p k hc d => ?_, fun he => ?_, fun he => ?_⟩
  · have hfree := hG.free p hp
    refine ⟨hfree.running.trans ((hG.on p).trans ⟨fun ⟨c, hc⟩ => ?_, fun ⟨c, hc, _⟩ => ⟨c, hc⟩⟩),
      fun hrun => ⟨fun c hc => ?_, fun hun => hfree.saved hun hrun⟩⟩
    · exact ⟨c, hc, fun d hd => hG.uniq d c p hd hc⟩
    · exact hrun (hfree.running.mpr ((hG.on p).mpr ⟨c, hc⟩))
  · obtain ⟨r, hv, -, hon, -⟩ := hr.code c _ hc
    obtain ⟨-, rfl⟩ := (hG.cpu c).of_view hv
    have hcur : s.sys.cur d ≠ some p := fun hd => by
      simp [(hG.on p).mpr ⟨d, hd⟩] at hon
    exact ⟨hcur, fun ht => hcur (hG.thr d p ht)⟩
  · exact hr.panics _ he
  · exact hr.panics _ he

/-- On two CPUs, the second one takes the first process to user space. -/
theorem current_on_one_cpu_init : ∃ s : State 2 Bool, (machine 2 Bool false 0).Reach Any s ∧
    (s.sys.proc 0).state = .running ∧ ∃! c, s.sys.cur c = some 0 := by
  obtain ⟨s, hr, hst, hl⟩ : ∃ s : State 2 Bool, (machine 2 Bool false 0).Reach Any s ∧
      (s.sys.proc 0).state = .running ∧ s.sys.lock (.proc 0) = none :=
    (reach_start false 0).replay (List.replicate 19 (.step true 0)) (by decide +kernel)
  exact ⟨s, hr, hst, ((current_on_one_cpu hr).2.1 0 hl).1.mp hst⟩

/-- **Locks and interrupts.**  A CPU that can be interrupted, or that runs user code, holds no
spinlock; a lock is released by the CPU that holds it; `release`, `pop_off` and `wakeup1` never
panic, and `sched` only for a second lock. -/
theorem locks_and_interrupts (h : (machine n C boot init).Reach Any s) :
    (∀ c, s.sys.sie c = true → ∀ l, s.sys.lock l ≠ some c) ∧
    (∀ c u, s.run c = .code (.ret u) → s.sys.noff c = 0 ∧ (∀ l, s.sys.lock l ≠ some c) ∧
      ∃ p, s.sys.thr c = some p ∧ (s.sys.proc p).state = .running) ∧
    (∀ c l k, s.run c = .code (.cmd (.release l) k) → s.sys.lock l = some c) ∧
    ∀ m, s.halted = some m → Locking.Panics m := by
  obtain ⟨x, hr, hG⟩ := Locking.inv h
  have hfree : ∀ c o, x (s.sys.who c) = .calm o [] → ∀ l, s.sys.lock l ≠ some c := by
    intro c o ho l hl
    have hmem := ((hG.cpu c).lock l).mp hl
    rw [ho] at hmem
    cases hmem
  refine ⟨fun c hs => ?_, fun c u hc => ?_, fun c l k hc => ?_, hr.panics⟩
  · obtain ⟨o, ho⟩ := hG.calm hs
    exact hfree c o ho
  · obtain ⟨p, hp⟩ := hr.code c _ hc
    have hcpu := hG.cpu c
    rw [hp] at hcpu
    have ht : s.sys.thr c = some p := hcpu.me.symm
    exact ⟨hcpu.off.symm, hfree c _ hp, p, ht, hG.running c p ht (hfree c _ hp _)⟩
  · have hs := hr.code c _ hc
    exact ((hG.cpu c).lock l).mpr (by cases l <;> exact hs.1)

theorem locks_and_interrupts_init : ∃ s, (machine 2 Bool false 0).Reach Any s ∧
    s.sys.sie true = true ∧ ∀ l, s.sys.lock l ≠ some true := by
  obtain ⟨s, hr, hs⟩ : ∃ s, (machine 2 Bool false 0).Reach Any s ∧ s.sys.sie true = true :=
    (reach_start false 0).replay (List.replicate 12 (.step true 0)) (by decide +kernel)
  exact ⟨s, hr, hs, (locks_and_interrupts hr).1 true hs⟩

end Results

end Xv6.Kernel
