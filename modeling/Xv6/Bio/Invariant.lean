import Xv6.Bio.Refs

/-!
# What holds in every state of the buffer cache
-/

namespace Xv6.Bio

open Lts Code Option State Ctx
open Function (update update_self update_of_ne update_eq_self)

variable {P : Type} [DecidableEq P] [Fintype P] {lh : List Nat} {start va : Nat}
variable {b n : Nat} {x : P → Ctx (Fin nbuf)} {t : Thread} {k : Unit → K (Fin nbuf) Unit}
  {buf : Fin nbuf → Buf P} {i : Fin nbuf} {pl : Place} {d : Mark} {l : Log} {disk : Nat → Block}
  {u : Buf P} {q : P} {pins : List Nat}

/-! ## Processes -/

/-- Where a process may end: with nothing, or at the end of `recover_from_log`. -/
def Done (_ : Unit) (x : Ctx (Fin nbuf)) : Prop :=
  x = idle ∨ x.place = .recovered ∧ x.held = fun _ => none

/-- What the process still has to do keeps the rules. -/
def Runs (r : Rules) (start : Nat) (buf : Fin nbuf → Buf P) (x : Ctx (Fin nbuf)) : Thread → Prop
  | .run c => wp (spec r start) c x Done
  | .locking i k => x.held i = none →
      ∀ v, (x.place = .recover → (buf i).blockno = start → Log.readHead v = []) →
        wp (spec r start) (k (i, v)) (x.hold i (buf i).blockno .clean) Done
  | .reading i k => x.held i = some ((buf i).blockno, .clean) ∧
      ∀ v, (x.place = .recover → (buf i).blockno = start → Log.readHead v = []) →
        wp (spec r start) (k (i, v)) x Done
  | .putting _ k => wp (spec r start) k x Done
  | .logTested i k | .logAcquire i k => x.place = .inOp ∧
      ∃ b d, x.held i = some (b, d) ∧ wp (spec r start) k (x.hold i b .clean) Done

/-- **What a process knows is so**, and what it still has to do keeps the rules. -/
structure Owns (r : Rules) (start : Nat) (buf : Fin nbuf → Buf P) (lh pins : List Nat) (q : P)
    (pl : Place) (t : Thread) (x : Ctx (Fin nbuf)) : Prop where
  place : x.place = pl
  /-- It holds the locks it thinks it holds. -/
  held : ∀ i, (buf i).lock = some q ↔ x.held i ≠ none
  /-- They are the locks of the blocks it thinks they are of. -/
  block : ∀ i b d, x.held i = some (b, d) → (buf i).blockno = b
  /-- In `commit` it knows the transaction. -/
  log : x.InLog → x.lh = lh ∧ x.todo = pins
  code : Runs r start buf x t

section Owns

variable {r : Rules} {start : Nat} {buf buf' : Fin nbuf → Buf P} {lh pins lh' pins' : List Nat}
  {q : P} {pl : Place} {t t' : Thread} {x : Ctx (Fin nbuf)}

section

omit [DecidableEq P] [Fintype P]

section

variable (h : Owns r start buf lh pins q pl t x)

include h

/-- What others do does not concern a process as long as they leave its buffers alone. -/
theorem Owns.frame (hl : ∀ i, (buf' i).lock = some q ↔ (buf i).lock = some q)
    (hb : ∀ i, (buf i).lock = some q ∨ t.refs i = true → (buf' i).blockno = (buf i).blockno)
    (hlog : x.InLog → lh' = lh ∧ pins' = pins) : Owns r start buf' lh' pins' q pl t x where
  place := h.place
  held i := (hl i).trans (h.held i)
  block i b d hi := by
    rw [hb i (.inl ((h.held i).mpr (by simp [hi]))), h.block i b d hi]
  log hin := by
    rw [(hlog hin).1, (hlog hin).2]
    exact h.log hin
  code := by
    have hc := h.code
    cases t with
    | run c | putting i k | logTested i k | logAcquire i k => exact hc
    | locking i k =>
      rw [Runs, hb i (.inr (by simp))]
      exact hc
    | reading i k =>
      have hi : (buf i).lock = some q := (h.held i).mpr (by simp [hc.1])
      rw [Runs, hb i (.inl hi)]
      exact hc

/-- The process itself changes what it knows of the contents of a buffer it holds. -/
theorem Owns.mark {e : Mark} (hi : x.held i = some (b, d))
    (hc : Runs r start buf (x.hold i b e) t') :
    Owns r start buf lh pins q pl t' (x.hold i b e) where
  place := h.place
  held j := by
    by_cases hj : j = i
    · subst hj
      simp [h.held, hi]
    · rw [held_hold_of_ne hj, h.held]
  block j c f hj := by
    by_cases hji : j = i
    · subst hji
      rw [held_hold_self, some.injEq, Prod.mk.injEq] at hj
      exact hj.1 ▸ h.block j b d hi
    · rw [held_hold_of_ne hji] at hj
      exact h.block j c f hj
  log hin := h.log hin
  code := hc

theorem Owns.goto (hc : Runs r start buf x t') : Owns r start buf lh pins q pl t' x :=
  ⟨h.place, h.held, h.block, h.log, hc⟩

end

end

end Owns

/-! ## The log -/

/-- The counters of `struct log` agree with the processes. -/
structure Proto (log : Log) (unpinned : Nat) (place : P → Place) (mode : Mode P) : Prop where
  outstanding : log.outstanding = count (fun x => decide (x = Place.inOp)) place
  committing : count (fun x => decide (x = Place.commit)) place = if log.committing then 1 else 0
  quiet : log.committing = true → log.outstanding = 0
  /-- While booting there is only the process that recovers. -/
  booting : ∀ p, mode = .recovering p →
    (place p = .recover ∨ place p = .recovered) ∧ ∀ q, q ≠ p → place q = .outside
  /-- Afterwards nobody recovers. -/
  running : (∀ p, mode ≠ .recovering p) → ∀ p, place p ≠ .recover ∧ place p ≠ .recovered
  pinned : log.committing = false → unpinned = 0
  le : unpinned ≤ log.lh.length
  nodup : log.lh.Nodup

section Proto

variable {log : Log} {unpinned : Nat} {place : P → Place} {mode : Mode P} {p q : P}

section

variable (h : Proto log unpinned place mode)

include h

section

omit [DecidableEq P]

theorem Proto.outstanding_pos (hp : place p = .inOp) : 0 < log.outstanding := by
  have := count_pos (t := fun x => decide (x = Place.inOp)) (f := place) (i := p) (by simp [hp])
  rw [h.outstanding]
  omega

theorem Proto.not_committing (hp : place p = .inOp) : log.committing = false := by
  have := h.outstanding_pos hp
  rw [Bool.eq_false_iff]
  intro hc
  simp [h.quiet hc] at this

theorem Proto.isCommitting (hp : place p = .commit) : log.committing = true := by
  have hpos := count_pos (t := fun x => decide (x = Place.commit)) (f := place) (i := p)
    (by simp [hp])
  have := h.committing
  split at this
  · assumption
  · omega

end

/-- A process that recovers is alone, and the machine is booting. -/
theorem Proto.recovering (hp : place p = .recover ∨ place p = .recovered) :
    mode = .recovering p := by
  by_contra hm
  by_cases hex : ∃ p', mode = .recovering p'
  · obtain ⟨p', hp'⟩ := hex
    have hne : p ≠ p' := fun heq => hm (heq ▸ hp')
    rw [(h.booting p' hp').2 p hne] at hp
    simp at hp
  · have := h.running (fun p' hp' => hex ⟨p', hp'⟩) p
    exact hp.elim this.1 this.2

/-- Whoever works on the log does so alone. -/
theorem Proto.alone (hp : place p ≠ .outside) (hq : q ≠ p)
    (hin : place q = .commit ∨ place q = .recovered) : False := by
  rcases hin with hc | hc
  · cases hpl : place p with
    | outside => exact hp hpl
    | inOp => simpa [h.isCommitting hc] using h.not_committing hpl
    | commit =>
      -- two processes in `commit` would be counted twice
      have h1 := count_update_out (t := fun x => decide (x = Place.commit)) (f := place) (i := p)
        (x := Place.outside) (by simp [hpl]) (by simp)
      have h2 := count_pos (t := fun x => decide (x = Place.commit))
        (f := update place p .outside) (i := q) (by simp [hq, hc])
      have h3 := h.committing
      split at h3 <;> omega
    | recover =>
      rw [(h.booting p (h.recovering (.inl hpl))).2 q hq] at hc
      simp at hc
    | recovered =>
      rw [(h.booting p (h.recovering (.inr hpl))).2 q hq] at hc
      simp at hc
  · rw [(h.booting q (h.recovering (.inr hc))).2 p hq.symm] at hp
    exact hp rfl

end

end Proto

/-! ## Contents -/

/-- While the header has not been read, it is empty on the disk and wherever it is cached. -/
def Header (disk : Nat → Block) (buf : Fin nbuf → Buf P) (log : Log) (place : P → Place) : Prop :=
  ∀ p, place p = .recover → log.lh = [] ∧ Log.readHead (disk log.start) = [] ∧
    ∀ i, (buf i).valid = true → (buf i).blockno = log.start → Log.readHead (buf i).data = []

/-- **The cache agrees with the disk**, but for pinned blocks and for what a process has stored and
not logged yet. -/
structure Coherent (disk : Nat → Block) (buf : Fin nbuf → Buf P) (pins : List Nat)
    (x : P → Ctx (Fin nbuf)) : Prop where
  contents : ∀ i, (buf i).valid = true → (buf i).dev = rootDev →
    (buf i).data = disk (buf i).blockno ∨ (buf i).blockno ∈ pins ∨
      ∃ q b, (x q).held i = some (b, .dirty)
  written : ∀ q i b, (x q).held i = some (b, .written) → (buf i).data = disk b

/-! ## The invariant -/

/-- What holds while the machine is not stopped. -/
structure Live (r : Rules) (s : State P) : Prop where
  proto : Proto s.log s.unpinned s.place s.mode
  header : Header s.disk s.buf s.log s.place
  owns : ∃ x : P → Ctx (Fin nbuf),
    (∀ q, Owns r s.log.start s.buf s.log.lh s.pins q (s.place q) (s.thread q) (x q)) ∧
    (r = .logging → Coherent s.disk s.buf s.pins x)

/-- The invariant. -/
structure Inv (r : Rules) (s : State P) : Prop where
  refs : Refs s.lru s.buf s.gets s.pins s.thread
  live : (∀ m, s.mode ≠ .halted m) → Live r s

/-- A state in which it is `p`'s turn. -/
structure Turn (r : Rules) (s : State P) (p : P) (x : P → Ctx (Fin nbuf)) : Prop where
  refs : Refs s.lru s.buf s.gets s.pins s.thread
  proto : Proto s.log s.unpinned s.place s.mode
  header : Header s.disk s.buf s.log s.place
  owns : ∀ q, Owns r s.log.start s.buf s.log.lh s.pins q (s.place q) (s.thread q) (x q)
  coherent : r = .logging → Coherent s.disk s.buf s.pins x
  mode : s.mode = .running ∨ s.mode = .recovering p

namespace Turn

variable {r : Rules} {s S : State P} {p : P} {x : P → Ctx (Fin nbuf)} {y : Ctx (Fin nbuf)}

omit [DecidableEq P] in
theorem halt (h : Turn r s p x) (m : Panic) : Inv r (s.halt m) :=
  ⟨h.refs, fun hm => absurd rfl (hm m)⟩

omit [DecidableEq P] in
theorem code (h : Turn r s p x) (ht : s.thread p = t) : Runs r s.log.start s.buf (x p) t :=
  ht ▸ (h.owns p).code

theorem move (h : Turn r s p x) (hthread : S.thread = update s.thread p t)
    (hplace : S.place = update s.place p pl) (hstart : S.log.start = s.log.start)
    (refs' : Refs S.lru S.buf S.gets S.pins (update s.thread p t))
    (proto' : Proto S.log S.unpinned (update s.place p pl) S.mode)
    (header' : Header S.disk S.buf S.log (update s.place p pl))
    (own' : Owns r s.log.start S.buf S.log.lh S.pins p pl t y)
    (coherent' : r = .logging → Coherent S.disk S.buf S.pins (update x p y))
    (hlock : ∀ q, q ≠ p → ∀ i, (S.buf i).lock = some q ↔ (s.buf i).lock = some q)
    (hblock : ∀ i, 0 < s.gets i → (S.buf i).blockno = (s.buf i).blockno)
    (hlog : ∀ q, q ≠ p → s.place q = .commit ∨ s.place q = .recovered →
      S.log.lh = s.log.lh ∧ S.pins = s.pins) :
    Inv r S := by
  refine ⟨hthread ▸ refs', fun _ => ⟨hplace ▸ proto', hplace ▸ header', update x p y,
    fun q => ?_, coherent'⟩⟩
  rw [hthread, hplace, hstart]
  by_cases hq : q = p
  · subst hq
    simpa using own'
  · rw [update_of_ne hq, update_of_ne hq, update_of_ne hq]
    refine (h.owns q).frame (hlock q hq) (fun i hi => hblock i ?_) fun hin => hlog q hq ?_
    · rcases hi with hi | hi
      · exact h.refs.gets_pos_of_lock (by simp [hi])
      · exact h.refs.gets_pos_of_refs hi
    · rwa [Ctx.InLog, (h.owns q).place] at hin

/-- A process in `recover_from_log` has its turn. -/
theorem eq_of_recover (h : Turn r s p x) (hq : s.place q = .recover) : q = p := by
  have hrec := h.proto.recovering (.inl hq)
  rcases h.mode with hm | hm <;> rw [hm] at hrec
  · nomatch hrec
  · simpa using hrec.symm

/-- A step that changes no more than the contents of buffers and of the disk. -/
theorem quiet (h : Turn r s p x) {D : Nat → Block} {B : Fin nbuf → Buf P}
    (hB : ∀ i, Refs.Same (B i) (s.buf i)) (ht : ∀ j, t.refs j = (s.thread p).refs j)
    (header' : s.place p = .recover → D s.log.start = s.disk s.log.start ∧
      ∀ i, (B i).valid = true → (B i).blockno = s.log.start → Log.readHead (B i).data = [])
    (own' : Owns r s.log.start B s.log.lh s.pins p (s.place p) t y)
    (coherent' : r = .logging → Coherent D B s.pins (update x p y)) :
    Inv r ({ s with disk := D, buf := B }.goto p t) := by
  have hpl : s.place = update s.place p (s.place p) := (update_eq_self ..).symm
  refine h.move (S := { s with disk := D, buf := B }.goto p t) rfl hpl rfl
    (h.refs.quiet hB ht) (hpl ▸ h.proto) ?_ own' coherent' ?_ (fun i _ => (hB i).2.1)
    (fun _ _ _ => ⟨rfl, rfl⟩)
  · rw [← hpl]
    intro q hq
    obtain rfl := h.eq_of_recover hq
    obtain ⟨hlh, hd, -⟩ := h.header q hq
    refine ⟨hlh, ?_, (header' hq).2⟩
    change Log.readHead (D s.log.start) = []
    rw [(header' hq).1, hd]
  · intro q _ i
    rw [goto, (hB i).2.2.1]

section

omit [DecidableEq P]

theorem held (h : Turn r s p x) {j : Fin nbuf} (hj : (x q).held j = some (b, d)) :
    (s.buf j).lock = some q ∧ (s.buf j).blockno = b ∧ (s.buf j).dev = rootDev := by
  have hl : (s.buf j).lock = some q := ((h.owns q).held j).mpr (by simp [hj])
  exact ⟨hl, (h.owns q).block j b d hj, h.refs.inUse j (h.refs.gets_pos_of_lock (by simp [hl]))⟩

/-- Nobody else holds a buffer that is locked by `p` or not locked at all. -/
theorem held_other (h : Turn r s p x) (hi : ∀ q, (s.buf i).lock = some q → q = p) (hq : q ≠ p) :
    (x q).held i = none := by
  by_contra hne
  exact hq (hi q (((h.owns q).held i).mpr hne))

theorem held_other_of_held (h : Turn r s p x) (hi : (x p).held i = some (b, d)) (hq : q ≠ p) :
    (x q).held i = none := by
  refine h.held_other (fun q' hq' => ?_) hq
  rw [(h.held hi).1] at hq'
  exact (some.inj hq').symm

end

/-! ### Contents -/

omit [Fintype P] in
theorem coherent_frame (hc : Coherent s.disk s.buf s.pins x)
    (hbuf : ∀ i, (buf i).valid = (s.buf i).valid ∧ (buf i).data = (s.buf i).data ∧
      (buf i).dev = (s.buf i).dev ∧ (buf i).blockno = (s.buf i).blockno)
    (hy : ∀ i b d, d ≠ .clean → (y.held i = some (b, d) ↔ (x p).held i = some (b, d))) :
    Coherent s.disk buf s.pins (update x p y) := by
  have hx : ∀ q i b d, d ≠ Mark.clean →
      ((update x p y q).held i = some (b, d) ↔ (x q).held i = some (b, d)) := by
    intro q i b d hd
    by_cases hq : q = p
    · subst hq
      rw [update_self, hy i b d hd]
    · rw [update_of_ne hq]
  constructor
  · intro i
    obtain ⟨h1, h2, h3, h4⟩ := hbuf i
    rw [h1, h2, h3, h4]
    simp only [hx _ _ _ _ (show Mark.dirty ≠ .clean by simp)]
    exact hc.contents i
  · intro q i b
    rw [hx q i b _ (by simp), (hbuf i).2.1]
    exact hc.written q i b

theorem coherent_own (h : Turn r s p x) (hc : Coherent s.disk s.buf s.pins x)
    (hi : ∀ q, q ≠ p → (x q).held i = none) (hy : ∀ j, j ≠ i → y.held j = (x p).held j)
    (hbuf : ∀ j, j ≠ i → buf j = s.buf j)
    (hdisk : ∀ j, j ≠ i → (s.buf j).dev = rootDev →
      disk (s.buf j).blockno = s.disk (s.buf j).blockno)
    (hpins : ∀ j, j ≠ i → (s.buf j).dev = rootDev → (s.buf j).blockno ∈ s.pins →
      (s.buf j).blockno ∈ pins)
    (hcont : (buf i).valid = true → (buf i).dev = rootDev → (buf i).data = disk (buf i).blockno ∨
      (buf i).blockno ∈ pins ∨ ∃ b, y.held i = some (b, .dirty))
    (hwr : ∀ b, y.held i = some (b, .written) → (buf i).data = disk b) :
    Coherent disk buf pins (update x p y) := by
  have hx : ∀ q j, j ≠ i → (update x p y q).held j = (x q).held j := by
    intro q j hj
    by_cases hq : q = p
    · subst hq
      rw [update_self, hy j hj]
    · rw [update_of_ne hq]
  constructor
  · intro j hv hd
    by_cases hj : j = i
    · subst hj
      refine (hcont hv hd).imp id (Or.imp id ?_)
      rintro ⟨b, hb⟩
      exact ⟨p, b, by rwa [update_self]⟩
    · rw [hbuf j hj] at hv hd ⊢
      rw [hdisk j hj hd]
      refine (hc.contents j hv hd).imp id (Or.imp (hpins j hj hd) ?_)
      rintro ⟨q, b, hb⟩
      exact ⟨q, b, by rwa [hx q j hj]⟩
  · intro q j b hb
    by_cases hj : j = i
    · subst hj
      by_cases hq : q = p
      · subst hq
        rw [update_self] at hb
        exact hwr b hb
      · simp [update_of_ne hq, hi q hq] at hb
    · rw [hx q j hj] at hb
      obtain ⟨-, hjb, hjd⟩ := h.held hb
      rw [hbuf j hj, hc.written q j b hb, ← hjb, hdisk j hj hjd]

/-! ### Commands that use a buffer -/

section Commands

variable {i : Fin nbuf} {B : Fin nbuf → Buf P} {G : Fin nbuf → Nat} {L : List (Fin nbuf)}

omit [DecidableEq P] in
/-- What a process knows of its buffers does not depend on what is in them. -/
theorem owns_of_same (h : Turn r s p x) (hbuf : ∀ i, Refs.Same (buf i) (s.buf i)) :
    Owns r s.log.start buf s.log.lh s.pins p (s.place p) (s.thread p) (x p) :=
  (h.owns p).frame (fun i => by rw [(hbuf i).2.2.1]) (fun i _ => (hbuf i).2.1)
    fun _ => ⟨rfl, rfl⟩

omit [DecidableEq P] [Fintype P] in
theorem same_update (hu : Refs.Same u (s.buf i)) (j : Fin nbuf) :
    Refs.Same (update s.buf i u j) (s.buf j) := by
  by_cases hj : j = i
  · subst hj
    rwa [update_self]
  · simpa [hj] using ⟨rfl, rfl, rfl, rfl⟩

section

variable (h : Turn r s p x)

include h

theorem store {v : Block} (ht : s.thread p = .run (.cmd (.store i v) k))
    (hin : r = .logging → s.place p ≠ .outside) :
    Inv r ((s.modify i fun u => { u with data := v }).goto p (.run (k ()))) := by
  obtain ⟨hne, b, d, hi, hk⟩ := h.code ht
  rw [(h.owns p).place] at hne hk
  have hsame := same_update (s := s) (i := i) (u := { s.buf i with data := v }) ⟨rfl, rfl, rfl, rfl⟩
  refine h.quiet hsame (by simp [ht]) (fun hr => absurd hr hne)
    ((h.owns_of_same hsame).mark hi (hk hin)) fun hr => ?_
  refine h.coherent_own (h.coherent hr) (fun q => h.held_other_of_held hi)
    (fun j hj => held_hold_of_ne hj) (fun j hj => update_of_ne hj ..)
    (fun _ _ _ => rfl) (fun _ _ _ hb => hb) (fun _ _ => .inr (.inr ⟨b, by simp⟩)) ?_
  intro c hc
  simp at hc

theorem bwrite (ht : s.thread p = .run (.cmd (.bwrite i) k)) :
    Inv r ({ s with disk := update s.disk (s.buf i).blockno (s.buf i).data }.goto p
      (.run (k ()))) := by
  obtain ⟨hne, b, d, hi, hk⟩ := h.code ht
  rw [(h.owns p).place] at hne
  obtain ⟨-, hib, hid⟩ := h.held hi
  refine h.quiet (fun _ => ⟨rfl, rfl, rfl, rfl⟩) (by simp [ht]) (fun hr => absurd hr hne)
    ((h.owns p).mark hi hk) fun hr => ?_
  refine h.coherent_own (h.coherent hr) (fun q => h.held_other_of_held hi)
    (fun j hj => held_hold_of_ne hj) (fun _ _ => rfl) (fun j hj hjd => ?_)
    (fun _ _ _ hb => hb) (fun _ _ => .inl (by rw [update_self])) ?_
  · exact update_of_ne (fun hjb => hj (h.refs.unique j i hjd hid hjb)) ..
  · intro c hc
    rw [held_hold_self, some.injEq, Prod.mk.injEq] at hc
    rw [← hc.1, ← hib, update_self]

theorem copyin {off : Nat} {m : UserMem} {k : Bool → K (Fin nbuf) Unit}
    (ht : s.thread p = .run (.cmd (.copyin i off va n) k))
    (hin : r = .logging → s.place p ≠ .outside)
    (hok : r = .logging → (Xv6.copyin m va n).2 = true ∨
      (s.buf i).data.splice off (Xv6.copyin m va n).1 = (s.buf i).data ∨
      (s.buf i).blockno ∈ s.log.lh) :
    Inv r ((s.modify i fun u => { u with data := u.data.splice off (Xv6.copyin m va n).1 }).goto p
      (.run (k (Xv6.copyin m va n).2))) := by
  obtain ⟨hpl, b, hi, hk⟩ := h.code ht
  rw [(h.owns p).place] at hpl hk
  have hne : s.place p ≠ .recover := by rcases hpl with hpl | hpl <;> simp [hpl]
  have hsame := same_update (s := s) (i := i)
    (u := { s.buf i with data := (s.buf i).data.splice off (Xv6.copyin m va n).1 })
    ⟨rfl, rfl, rfl, rfl⟩
  have hother := fun q => h.held_other_of_held (q := q) hi
  cases hres : (Xv6.copyin m va n).2 with
  | true =>
    refine h.quiet hsame (by simp [ht]) (fun hr => absurd hr hne)
      ((h.owns_of_same hsame).mark hi (hk hin).1) fun hr => ?_
    refine h.coherent_own (h.coherent hr) hother (fun j hj => held_hold_of_ne hj)
      (fun j hj => update_of_ne hj ..) (fun _ _ _ => rfl) (fun _ _ _ hb => hb)
      (fun _ _ => .inr (.inr ⟨b, by simp⟩)) ?_
    intro c hc
    simp at hc
  | false =>
    refine h.quiet hsame (by simp [ht]) (fun hr => absurd hr hne)
      ((h.owns_of_same hsame).goto (hk hin).2) fun hr => ?_
    have hin' := hpl.resolve_right (hin hr)
    refine h.coherent_own (h.coherent hr) hother (fun _ _ => rfl)
      (fun j hj => update_of_ne hj ..) (fun _ _ _ => rfl) (fun _ _ _ hb => hb) ?_ ?_
    · rw [update_self]
      intro hv hd
      rcases (hok hr).resolve_left (by simp [hres]) with heq | hmem
      · -- the bytes that were copied are those that were there
        simp only [heq]
        refine ((h.coherent hr).contents i hv hd).imp id (Or.imp id ?_)
        rintro ⟨q, c, hq⟩
        by_cases hqp : q = p
        · exact ⟨c, hqp ▸ hq⟩
        · simp [hother q hqp] at hq
      · right; left
        rw [pins, h.proto.pinned (h.proto.not_committing hin'), List.drop_zero]
        exact hmem
    · intro c hc
      rw [hi] at hc
      simp at hc

theorem stay (ht : ∀ j, t.refs j = (s.thread p).refs j) (hcode : Runs r s.log.start s.buf (x p) t) :
    Inv r (s.goto p t) := by
  refine h.quiet (D := s.disk) (B := s.buf) (fun _ => ⟨rfl, rfl, rfl, rfl⟩) ht
    (fun hr => ⟨rfl, (h.header p hr).2.2⟩) ((h.owns p).goto hcode) fun hr => ?_
  rw [update_eq_self]
  exact h.coherent hr

theorem copyout {bytes : List UInt8} {k : Bool → K (Fin nbuf) Unit}
    (ht : s.thread p = .run (.cmd (.copyout va bytes) k)) (b : Bool) :
    Inv r (s.goto p (.run (k b))) := by
  have hc := h.code ht
  refine h.stay (by simp [ht]) ?_
  cases b with
  | true => exact hc.1
  | false => exact hc.2

theorem readLh {k : List Nat → K (Fin nbuf) Unit} (ht : s.thread p = .run (.cmd .readLh k)) :
    Inv r (s.goto p (.run (k s.log.lh))) := by
  obtain ⟨hin, hk⟩ := h.code ht
  rw [((h.owns p).log hin).1] at hk
  exact h.stay (by simp [ht]) hk

/-- The first test of `log_write`. -/
theorem logWrite (ht : s.thread p = .run (.cmd (.logWrite i) k))
    (hin : r = .logging → s.place p ≠ .outside) :
    Inv r (s.goto p (.logTested i (k ()))) := by
  obtain ⟨hpl, b, d, hi, hk⟩ := h.code ht
  have hop : (x p).place = .inOp := by
    refine hpl.resolve_right ?_
    rintro ⟨hr, hout⟩
    rw [(h.owns p).place] at hout
    exact hin hr hout
  exact h.stay (by simp [ht]) ⟨hop, b, d, hi, hk hop⟩

/-- The second test of `log_write`. -/
theorem logTest {k : K (Fin nbuf) Unit} (ht : s.thread p = .logTested i k) :
    Inv r (s.goto p (.logAcquire i k)) := by
  have hc := h.code ht
  exact h.stay (by simp [ht]) hc

/-- The end of `bread`. -/
theorem read {k : Fin nbuf × Block → K (Fin nbuf) Unit} (ht : s.thread p = .reading i k) :
    Inv r (if (s.buf i).valid then s.goto p (.run (k (i, (s.buf i).data)))
      else (s.modify i fun u => { u with valid := true, data := s.disk (s.buf i).blockno }).goto p
        (.run (k (i, s.disk (s.buf i).blockno)))) := by
  obtain ⟨hi, hk⟩ := h.code ht
  rw [(h.owns p).place] at hk
  split
  · rename_i hv
    exact h.stay (by simp [ht]) (hk _ fun hr hb => (h.header p hr).2.2 i hv hb)
  · have hsame := same_update (s := s) (i := i)
      (u := { s.buf i with valid := true, data := s.disk (s.buf i).blockno }) ⟨rfl, rfl, rfl, rfl⟩
    have hcode := hk (s.disk (s.buf i).blockno) fun hr hb => hb ▸ (h.header p hr).2.1
    refine h.quiet hsame (by simp [ht]) ?_ ((h.owns_of_same hsame).goto hcode) fun hr => ?_
    · refine fun hr => ⟨rfl, fun j hv hb => ?_⟩
      by_cases hj : j = i
      · subst hj
        rw [update_self] at hb ⊢
        exact hb ▸ (h.header p hr).2.1
      · rw [update_of_ne hj] at hv hb ⊢
        exact (h.header p hr).2.2 j hv hb
    · refine h.coherent_own (h.coherent hr) (fun q => h.held_other_of_held hi) (fun _ _ => rfl)
        (fun j hj => update_of_ne hj ..) (fun _ _ _ => rfl) (fun _ _ _ hb => hb)
        (fun _ _ => .inl (by rw [update_self])) ?_
      intro c hc
      rw [hi] at hc
      simp at hc

/-! ### Getting and releasing buffers -/

theorem steady (refs' : Refs L B G s.pins (update s.thread p t))
    (hvalid : ∀ i, (B i).valid = true → (s.buf i).valid = true ∧
      (B i).blockno = (s.buf i).blockno ∧ (B i).data = (s.buf i).data)
    (own' : Owns r s.log.start B s.log.lh s.pins p (s.place p) t y)
    (coherent' : r = .logging → Coherent s.disk B s.pins (update x p y))
    (hlock : ∀ q, q ≠ p → ∀ i, (B i).lock = some q ↔ (s.buf i).lock = some q)
    (hblock : ∀ i, 0 < s.gets i → (B i).blockno = (s.buf i).blockno) :
    Inv r ({ s with lru := L, buf := B, gets := G }.goto p t) := by
  have hpl : s.place = update s.place p (s.place p) := (update_eq_self ..).symm
  refine h.move (S := { s with lru := L, buf := B, gets := G }.goto p t) rfl hpl rfl refs'
    (hpl ▸ h.proto) ?_ own' coherent' hlock hblock (fun _ _ _ => ⟨rfl, rfl⟩)
  rw [← hpl]
  intro q hq
  obtain ⟨hlh, hd, hbuf⟩ := h.header q hq
  refine ⟨hlh, hd, fun i hv hb => ?_⟩
  obtain ⟨h1, h2, h3⟩ := hvalid i hv
  exact h3 ▸ hbuf i h1 (h2 ▸ hb)

end

/-- Two states of a buffer that cache the same thing. -/
def Alike (u v : Buf P) : Prop :=
  u.valid = v.valid ∧ u.data = v.data ∧ u.dev = v.dev ∧ u.blockno = v.blockno

section

omit [DecidableEq P] [Fintype P]

theorem alike_update (hu : Alike u (s.buf i)) (j : Fin nbuf) :
    Alike (update s.buf i u j) (s.buf j) := by
  by_cases hj : j = i
  · subst hj
    rwa [update_self]
  · simpa [hj] using ⟨rfl, rfl, rfl, rfl⟩

theorem lock_update (hu : u.lock = (s.buf i).lock) (q : P) (j : Fin nbuf) :
    (update s.buf i u j).lock = some q ↔ (s.buf j).lock = some q := by
  by_cases hj : j = i
  · subst hj
    rw [update_self, hu]
  · rw [update_of_ne hj]

/-- Nobody but the counter notices a reference. -/
theorem recount (s : State P) (i : Fin nbuf) (c : Nat) :
    (∀ j, Alike (update s.buf i { s.buf i with refcnt := c } j) (s.buf j)) ∧
      ∀ q j, (update s.buf i { s.buf i with refcnt := c } j).lock = some q ↔
        (s.buf j).lock = some q :=
  ⟨alike_update ⟨rfl, rfl, rfl, rfl⟩, lock_update rfl⟩

end

/-- A step that concerns locks and reference counts only. -/
theorem keep (h : Turn r s p x) (refs' : Refs L B G s.pins (update s.thread p t))
    (hB : ∀ i, Alike (B i) (s.buf i))
    (own' : Owns r s.log.start B s.log.lh s.pins p (s.place p) t y)
    (hlock : ∀ q, q ≠ p → ∀ i, (B i).lock = some q ↔ (s.buf i).lock = some q)
    (hy : ∀ i b d, d ≠ .clean → (y.held i = some (b, d) ↔ (x p).held i = some (b, d))) :
    Inv r ({ s with lru := L, buf := B, gets := G }.goto p t) :=
  h.steady refs' (fun i hv => ⟨(hB i).1 ▸ hv, (hB i).2.2.2, (hB i).2.1⟩) own'
    (fun hr => coherent_frame (h.coherent hr) hB hy) hlock fun i _ => (hB i).2.2.2

section

omit [DecidableEq P] [Fintype P]

theorem lookup_some (hl : s.lookup b = some i) :
    (s.buf i).dev = rootDev ∧ (s.buf i).blockno = b := by
  simpa using List.find?_some hl

theorem lookup_none (hl : s.lookup b = none) :
    ∀ i ∈ s.lru, ¬ ((s.buf i).dev = rootDev ∧ (s.buf i).blockno = b) := by
  intro i hi
  simpa using List.find?_eq_none.mp hl i hi

theorem victim_some (hl : s.victim = some i) : (s.buf i).refcnt = 0 := by
  simpa using List.find?_some hl

end

section

variable (h : Turn r s p x)

include h

theorem hit (hP : Fintype.card P ≤ nproc) {k : Fin nbuf × Block → K (Fin nbuf) Unit}
    (ht : s.thread p = .run (.cmd (.bread b) k)) (hd : (s.buf i).dev = rootDev)
    (hb : (s.buf i).blockno = b) :
    Inv r ({ s.modify i fun u => { u with refcnt := incr u.refcnt } with
      gets := update s.gets i (s.gets i + 1) }.goto p (.locking i k)) := by
  have hc := h.code ht
  obtain ⟨hB, hlock⟩ := recount s i (incr (s.buf i).refcnt)
  refine h.keep (y := x p) (h.refs.hit hP hd (by simp [ht]) k) hB ?_ (fun q _ => hlock q)
    fun _ _ _ _ => Iff.rfl
  refine ((h.owns p).frame (hlock p) (fun j _ => (hB j).2.2.2) fun _ => ⟨rfl, rfl⟩).goto ?_
  intro hn v hv
  rw [(hB i).2.2.2, hb] at hv ⊢
  exact hc i v hn hv

/-- `bget` recycles a buffer: nobody holds it or waits for it, and it is not pinned. -/
theorem recycle {k : Fin nbuf × Block → K (Fin nbuf) Unit}
    (ht : s.thread p = .run (.cmd (.bread b) k)) (hl : s.lookup b = none) (hv : s.victim = some i) :
    Inv r ({ s.modify i fun u =>
        { u with dev := rootDev, blockno := b, valid := false, refcnt := 1 } with
      gets := update s.gets i (s.gets i + 1) }.goto p (.locking i k)) := by
  have hc := h.code ht
  obtain ⟨hg, -⟩ := h.refs.of_refcnt_eq_zero (victim_some hv)
  have hfree : (s.buf i).lock = none := by
    by_contra hne
    have := h.refs.gets_pos_of_lock hne
    omega
  have hne : ∀ j, 0 < s.gets j → j ≠ i := by
    rintro j hj rfl
    omega
  generalize hu : ({ s.buf i with
    dev := rootDev, blockno := b, valid := false, refcnt := 1 } : Buf P) = u
  have hlock := lock_update (s := s) (i := i) (u := u) (by rw [← hu])
  have hblock : ∀ j, 0 < s.gets j →
      (update s.buf i u j).blockno = (s.buf j).blockno :=
    fun j hj => by rw [update_of_ne (hne j hj)]
  have hrefs := h.refs.recycle (lookup_none hl) (victim_some hv) (p := p) (by simp [ht]) k
  rw [hu] at hrefs
  change Inv r ({ s with
    lru := s.lru
    buf := update s.buf i { s.buf i with
      dev := rootDev, blockno := b, valid := false, refcnt := 1 }
    gets := update s.gets i (s.gets i + 1) }.goto p (.locking i k))
  rw [hu]
  refine h.steady (y := x p) hrefs ?_ ?_ ?_ (fun q _ => hlock q) hblock
  · intro j hj
    by_cases hji : j = i
    · subst hji
      simp [update_self, ← hu] at hj
    · rw [update_of_ne hji] at hj ⊢
      exact ⟨hj, rfl, rfl⟩
  · refine ((h.owns p).frame (hlock p) (fun j hj => hblock j ?_) fun _ => ⟨rfl, rfl⟩).goto ?_
    · rcases hj with hj | hj
      · exact h.refs.gets_pos_of_lock (by simp [hj])
      · exact h.refs.gets_pos_of_refs hj
    · intro hn v hv
      rw [update_self, ← hu] at hv ⊢
      exact hc i v hn hv
  · refine fun hr => h.coherent_own (h.coherent hr) (i := i) (fun q => h.held_other ?_)
      (fun _ _ => rfl) (fun j hj => update_of_ne hj ..) (fun _ _ _ => rfl)
      (fun _ _ _ hb => hb) ?_ ?_
    · simp [hfree]
    · rw [update_self, ← hu]
      exact nofun
    · intro c hc
      have := (h.held hc).1
      simp [hfree] at this

theorem bget (hP : Fintype.card P ≤ nproc) {k : Fin nbuf × Block → K (Fin nbuf) Unit}
    (ht : s.thread p = .run (.cmd (.bread b) k)) :
    Inv r (stepBget s p b k) := by
  rw [stepBget]
  split
  · rename_i i hl
    obtain ⟨hd, hb⟩ := lookup_some hl
    exact h.hit hP ht hd hb
  · rename_i hl
    split
    · rename_i i hv
      exact h.recycle ht hl hv
    · exact h.halt _

theorem acquire {k : Fin nbuf × Block → K (Fin nbuf) Unit} (ht : s.thread p = .locking i k)
    (hl : (s.buf i).lock = none) :
    Inv r ((s.modify i fun u => { u with lock := some p }).goto p (.reading i k)) := by
  have hc := h.code ht
  have hn : (x p).held i = none := by
    by_contra hne
    have := ((h.owns p).held i).mpr hne
    simp [hl] at this
  have hB := alike_update (s := s) (i := i) (u := { s.buf i with lock := some p })
    ⟨rfl, rfl, rfl, rfl⟩
  refine h.keep (y := (x p).hold i (s.buf i).blockno .clean) (h.refs.acquire ht hl) hB
    ⟨(h.owns p).place, fun j => ?_, fun j b d hj => ?_, (h.owns p).log, ?_⟩ (fun q hq j => ?_)
    fun j b d hd => ?_
  · by_cases hj : j = i
    · subst hj; simp
    · rw [update_of_ne hj, held_hold_of_ne hj, (h.owns p).held j]
  · rw [(hB j).2.2.2]
    by_cases hji : j = i
    · subst hji
      rw [held_hold_self, some.injEq, Prod.mk.injEq] at hj
      exact hj.1
    · rw [held_hold_of_ne hji] at hj
      exact (h.owns p).block j b d hj
  · refine ⟨by rw [held_hold_self, (hB i).2.2.2], fun v hv => hc hn v ?_⟩
    rwa [(hB i).2.2.2] at hv
  · by_cases hj : j = i
    · subst hj
      simp [hl, hq.symm]
    · rw [update_of_ne hj]
  · by_cases hj : j = i
    · subst hj
      simp [hn, hd.symm]
    · rw [held_hold_of_ne hj]

theorem brelse (ht : s.thread p = .run (.cmd (.brelse i) k)) :
    Inv r ((s.modify i fun u => { u with lock := none }).goto p (.putting i (k ()))) := by
  obtain ⟨b, d, hi, hd, hk⟩ := h.code ht
  have hl := (h.held hi).1
  have hB := alike_update (s := s) (i := i) (u := { s.buf i with lock := none })
    ⟨rfl, rfl, rfl, rfl⟩
  have hself : ((x p).drop i).held i = none := update_self ..
  have hother : ∀ j, j ≠ i → ((x p).drop i).held j = (x p).held j :=
    fun j hj => update_of_ne hj ..
  refine h.steady (y := (x p).drop i) (h.refs.release (p := p) (k := k ()) (by simp [ht])
      (by simp [hl])) (fun j hv => ⟨(hB j).1 ▸ hv, (hB j).2.2.2, (hB j).2.1⟩)
    ⟨(h.owns p).place, fun j => ?_, fun j c e hj => ?_, (h.owns p).log, hk⟩
    (fun hr => ?_) (fun q hq j => ?_) fun j _ => (hB j).2.2.2
  · by_cases hj : j = i
    · subst hj
      simp [hself]
    · rw [update_of_ne hj, hother j hj, (h.owns p).held j]
  · rw [(hB j).2.2.2]
    by_cases hji : j = i
    · subst hji
      simp [hself] at hj
    · rw [hother j hji] at hj
      exact (h.owns p).block j c e hj
  · -- what is released is not dirty
    refine h.coherent_own (h.coherent hr) (fun q => h.held_other_of_held hi) hother
      (fun j hj => update_of_ne hj ..) (fun _ _ _ => rfl) (fun _ _ _ hb => hb) ?_ ?_
    · rw [update_self]
      intro hv hdev
      refine ((h.coherent hr).contents i hv hdev).imp id fun hrest => .inl ?_
      refine hrest.resolve_right ?_
      rintro ⟨q, c, hq⟩
      by_cases hqp : q = p
      · rw [hqp, hi, some.injEq, Prod.mk.injEq] at hq
        exact hd hr hq.2
      · simp [h.held_other_of_held hi hqp] at hq
    · intro c hc
      simp [hself] at hc
  · by_cases hj : j = i
    · subst hj
      simp [hl, hq.symm]
    · rw [update_of_ne hj]

theorem put (hP : Fintype.card P ≤ nproc) {k : K (Fin nbuf) Unit} (ht : s.thread p = .putting i k) :
    Inv r ((stepPut s i).goto p (.run k)) := by
  have hc := h.code ht
  obtain ⟨hB, hlock⟩ := recount s i (decr (s.buf i).refcnt)
  refine h.keep (y := x p) (h.refs.put hP ht) hB ?_ (fun q _ => hlock q) fun _ _ _ _ => Iff.rfl
  exact ((h.owns p).frame (hlock p) (fun j _ => (hB j).2.2.2) fun _ => ⟨rfl, rfl⟩).goto hc

/-! ### The log -/

theorem alone (hp : s.place p ≠ .outside) {A : Prop} (q : P) (hq : q ≠ p)
    (hin : s.place q = .commit ∨ s.place q = .recovered) : A :=
  (h.proto.alone hp hq hin).elim

omit [DecidableEq P] in
theorem running_of_place (h1 : s.place p ≠ .recover) (h2 : s.place p ≠ .recovered) :
    s.mode = .running := by
  refine h.mode.resolve_right fun hm => ?_
  exact ((h.proto.booting p hm).1).elim h1 h2

theorem relog (hstart : l.start = s.log.start) (hpins : l.lh.drop n = s.pins)
    (ht : ∀ j, t.refs j = (s.thread p).refs j) (proto' : Proto l n (update s.place p pl) s.mode)
    (hpl : pl ≠ .recover) (own' : Owns r s.log.start s.buf l.lh s.pins p pl t y)
    (hy : y.held = (x p).held)
    (hlog : ∀ q, q ≠ p → s.place q = .commit ∨ s.place q = .recovered → l.lh = s.log.lh) :
    Inv r (({ s with log := l, unpinned := n }.enter p pl).goto p t) := by
  have hp : pins (({ s with log := l, unpinned := n }.enter p pl).goto p t) = s.pins := hpins
  refine h.move (y := y) (S := ({ s with log := l, unpinned := n }.enter p pl).goto p t) rfl rfl
    hstart
    ?_ proto' ?_ ?_ (fun hr => ?_) (fun _ _ _ => Iff.rfl) (fun _ _ => rfl)
    fun q hq hin => ⟨hlog q hq hin, hp⟩
  · rw [hp]
    exact h.refs.quiet (fun _ => ⟨rfl, rfl, rfl, rfl⟩) ht
  · intro q hq
    by_cases hqp : q = p
    · subst hqp
      rw [update_self] at hq
      exact absurd hq hpl
    · rw [update_of_ne hqp] at hq
      exact absurd (h.eq_of_recover hq) hqp
  · rw [hp]
    exact own'
  · rw [hp]
    exact coherent_frame (h.coherent hr) (fun _ => ⟨rfl, rfl, rfl, rfl⟩)
      fun i b d _ => by rw [hy]

end

/-- The place of a process changes, and nothing that is counted under `c`. -/
theorem count_place {c : Place} (h1 : pl ≠ c) (h2 : s.place p ≠ c) :
    count (fun z => decide (z = c)) (update s.place p pl) =
      count (fun z => decide (z = c)) s.place :=
  count_update_same (by simp [h1, h2])

section

variable (h : Turn r s p x)

include h

/-- The log changes and a process goes to another place, while processes run. -/
theorem proto_enter (hmode : s.mode = .running) (hpl : pl ≠ .recover ∧ pl ≠ .recovered)
    (hout : l.outstanding = count (fun z => decide (z = Place.inOp)) (update s.place p pl))
    (hcom : count (fun z => decide (z = Place.commit)) (update s.place p pl) =
      if l.committing then 1 else 0)
    (hquiet : l.committing = true → l.outstanding = 0) (hpin : l.committing = false → n = 0)
    (hle : n ≤ l.lh.length) (hnodup : l.lh.Nodup) :
    Proto l n (update s.place p pl) s.mode := by
  refine ⟨hout, hcom, hquiet, fun q hq => ?_, fun _ q => ?_, hpin, hle, hnodup⟩
  · simp [hmode] at hq
  · by_cases hqp : q = p
    · subst hqp
      simpa using hpl
    · simpa [hqp] using h.proto.running (by simp [hmode]) q

theorem beginOp (ht : s.thread p = .run (.cmd .beginOp k)) (hl : Log.beginOp s.log = some l) :
    Inv r (({ s with log := l }.enter p .inOp).goto p (.run (k ()))) := by
  obtain ⟨hpl, hk⟩ := h.code ht
  rw [(h.owns p).place] at hpl
  obtain ⟨hcm, rfl⟩ := Log.beginOp_eq_some hl
  have hmode := h.running_of_place (by simp [hpl]) (by simp [hpl])
  have hin := count_update_in (t := fun z => decide (z = Place.inOp)) (f := s.place) (i := p)
    (x := Place.inOp) (by simp [hpl]) (by simp)
  refine h.relog (y := { x p with place := .inOp }) rfl rfl (by simp [ht]) ?_ (by simp) ?_ rfl
    (fun _ _ _ => rfl)
  · refine h.proto_enter hmode (by simp) ?_ ?_ (fun hc => absurd hc (by simp [hcm])) h.proto.pinned
      h.proto.le h.proto.nodup
    · change s.log.outstanding + 1 = _
      rw [hin, h.proto.outstanding]
      omega
    · rw [count_place (by simp) (by simp [hpl])]
      exact h.proto.committing
  · exact ⟨rfl, (h.owns p).held, (h.owns p).block, fun hin => by simp [Ctx.InLog] at hin, hk⟩

/-- The first locked section of `end_op`. -/
theorem endOp {k : Bool → K (Fin nbuf) Unit} (ht : s.thread p = .run (.cmd .endOp k)) :
    Inv r (match Log.endOp s.log with
      | .error e => s.halt (.log e)
      | .ok (true, l) => ({ s with log := l }.enter p .commit).goto p (.run (k true))
      | .ok (false, l) => ({ s with log := l }.enter p .outside).goto p (.run (k false))) := by
  obtain ⟨hpl, hmore, hlast⟩ := h.code ht
  rw [(h.owns p).place] at hpl
  have hmode := h.running_of_place (by simp [hpl]) (by simp [hpl])
  have hcm := h.proto.not_committing hpl
  have hpins : s.pins = s.log.lh := by rw [pins, h.proto.pinned hcm, List.drop_zero]
  have hcount := h.proto.committing
  rw [hcm] at hcount
  by_cases ho : s.log.outstanding = 1
  · rw [Log.endOp_last hcm ho]
    have hout := count_update_out (t := fun z => decide (z = Place.inOp)) (f := s.place) (i := p)
      (x := Place.commit) (by simp [hpl]) (by simp)
    have hin := count_update_in (t := fun z => decide (z = Place.commit)) (f := s.place) (i := p)
      (x := Place.commit) (by simp [hpl]) (by simp)
    refine h.relog (y := { x p with place := .commit, lh := s.log.lh, todo := s.log.lh }) rfl rfl
      (by simp [ht]) ?_ (by simp) ?_ rfl (h.alone (by simp [hpl]))
    · refine h.proto_enter hmode (by simp) ?_ ?_ (fun _ => rfl) (by simp) h.proto.le h.proto.nodup
      · have := h.proto.outstanding
        change (0 : Int) = _
        omega
      · simpa [hcount] using hin
    · exact ⟨rfl, (h.owns p).held, (h.owns p).block, fun _ => ⟨rfl, hpins.symm⟩, hlast s.log.lh⟩
  · rw [Log.endOp_more hcm ho]
    have hout := count_update_out (t := fun z => decide (z = Place.inOp)) (f := s.place) (i := p)
      (x := Place.outside) (by simp [hpl]) (by simp)
    refine h.relog (y := { x p with place := .outside }) rfl rfl (by simp [ht]) ?_ (by simp) ?_ rfl
      (fun _ _ _ => rfl)
    · refine h.proto_enter hmode (by simp) ?_ ?_ (fun hc => absurd hc (by simp [hcm]))
        h.proto.pinned h.proto.le h.proto.nodup
      · have := h.proto.outstanding
        change s.log.outstanding - 1 = _
        omega
      · rw [count_place (by simp) (by simp [hpl])]
        exact h.proto.committing
    · exact ⟨rfl, (h.owns p).held, (h.owns p).block, fun hin => by simp [Ctx.InLog] at hin, hmore⟩

/-- The last locked section of `end_op`. -/
theorem endCommit (ht : s.thread p = .run (.cmd .endCommit k)) :
    Inv r (({ s with log := { s.log with committing := false } }.enter p .outside).goto p
      (.run (k ()))) := by
  obtain ⟨hpl, hlh, hk⟩ := h.code ht
  have hl := ((h.owns p).log (.inl hpl)).1
  rw [hlh] at hl
  rw [(h.owns p).place] at hpl
  have hmode := h.running_of_place (by simp [hpl]) (by simp [hpl])
  have hcm := h.proto.isCommitting hpl
  have hle := h.proto.le
  rw [← hl, List.length_nil, Nat.le_zero] at hle
  have hout := count_update_out (t := fun z => decide (z = Place.commit)) (f := s.place) (i := p)
    (x := Place.outside) (by simp [hpl]) (by simp)
  refine h.relog (y := { x p with place := .outside, lh := [], todo := [] }) rfl rfl
    (by simp [ht]) ?_ (by simp) ?_ rfl (fun _ _ _ => rfl)
  · refine h.proto_enter hmode (by simp) ?_ ?_ (by simp) (fun _ => hle) h.proto.le h.proto.nodup
    · rw [count_place (by simp) (by simp [hpl])]
      exact h.proto.outstanding
    · have := h.proto.committing
      rw [hcm] at this
      simp only [if_true] at this
      simp only [Bool.false_eq_true, if_false]
      omega
  · exact ⟨rfl, (h.owns p).held, (h.owns p).block, fun hin => by simp [Ctx.InLog] at hin, hk⟩

/-- `log.lh.n = 0`, when nothing is pinned any more; or the empty header has been read. -/
theorem setLh (ht : s.thread p = .run (.cmd (.setLh lh) k)) :
    Inv r (({ s with log := { s.log with lh := lh }, unpinned := 0 }.enter p
      (if s.place p = Place.recover then Place.recovered else s.place p)).goto p
        (.run (k ()))) := by
  obtain ⟨rfl, hpl, hk⟩ := h.code ht
  have hplace := (h.owns p).place
  have hpins : s.pins = [] := by
    rcases hpl with hpl | ⟨hin, htodo⟩
    · rw [pins, (h.header p (hplace ▸ hpl)).1, List.drop_nil]
    · rw [← ((h.owns p).log hin).2, htodo]
  rw [hplace] at hk
  refine h.relog (y := { x p with
      place := if s.place p = .recover then .recovered else s.place p, lh := [], todo := [] })
    rfl (by simp [hpins]) (by simp [ht]) ?_ ?_ ?_ rfl (h.alone ?_)
  · by_cases hpl' : s.place p = .recover
    · rw [if_pos hpl']
      have hm := h.proto.recovering (.inl hpl')
      refine ⟨?_, ?_, h.proto.quiet, ?_, fun hno => absurd hm (hno p), fun _ => rfl, Nat.zero_le _,
        List.nodup_nil⟩
      · rw [count_place (by simp) (by simp [hpl'])]
        exact h.proto.outstanding
      · rw [count_place (by simp) (by simp [hpl'])]
        exact h.proto.committing
      · intro q hq
        obtain rfl : p = q := by simpa [hm] using hq
        refine ⟨by simp, fun q' hq' => ?_⟩
        rw [update_of_ne hq']
        exact (h.proto.booting p hm).2 q' hq'
    · rw [if_neg hpl', update_eq_self]
      exact { h.proto with
        pinned _ := rfl
        le := Nat.zero_le _
        nodup := List.nodup_nil }
  · split
    · simp
    · assumption
  · exact ⟨rfl, (h.owns p).held, (h.owns p).block, fun _ => ⟨rfl, hpins.symm⟩, hk⟩
  · rw [← hplace]
    rcases hpl with hpl | ⟨hpl | hpl, -⟩ <;> simp [hpl]

theorem repin {N : List Nat} (hpins : l.lh.drop n = N) (hstart : l.start = s.log.start)
    (hpl : s.place p ≠ .outside) (hrec : s.place p ≠ .recover)
    (refs' : Refs s.lru B s.gets N (update s.thread p t)) (hB : ∀ i, Alike (B i) (s.buf i))
    (hlock : ∀ q i, (B i).lock = some q ↔ (s.buf i).lock = some q)
    (proto' : Proto l n s.place s.mode) (own' : Owns r s.log.start B l.lh N p (s.place p) t y)
    (coherent' : r = .logging → Coherent s.disk B N (update x p y)) :
    Inv r ({ s with buf := B, log := l, unpinned := n }.goto p t) := by
  have hself : s.place = update s.place p (s.place p) := (update_eq_self ..).symm
  have hp : pins ({ s with buf := B, log := l, unpinned := n }.goto p t) = N := hpins
  refine h.move (y := y) (S := { s with buf := B, log := l, unpinned := n }.goto p t) rfl hself
    hstart (hp ▸ refs') (hself ▸ proto') ?_ (hp ▸ own') (hp ▸ coherent') (fun q _ => hlock q)
    (fun i _ => (hB i).2.2.2) (h.alone hpl)
  rw [← hself]
  intro q hq
  obtain rfl := h.eq_of_recover hq
  exact absurd hq hrec

/-- The locked section of `log_write`. -/
theorem logAcquire (hP : Fintype.card P ≤ nproc) {k : K (Fin nbuf) Unit}
    (ht : s.thread p = .logAcquire i k) : Inv r (stepLogWrite s p i k) := by
  obtain ⟨hop, b, d, hi, hk⟩ := h.code ht
  have hpl : s.place p = .inOp := (h.owns p).place ▸ hop
  have hz := h.proto.pinned (h.proto.not_committing hpl)
  have hpins : s.pins = s.log.lh := by rw [pins, hz, List.drop_zero]
  have hid := (h.held hi).2.2
  have hother := fun q => h.held_other_of_held (q := q) hi
  have hwr : ∀ c, ((x p).hold i b .clean).held i ≠ some (c, .written) := by simp
  rw [stepLogWrite]
  rcases Log.logWrite_cases s.log (s.buf i).blockno with ⟨hm, heq⟩ | ⟨hm, -, heq⟩ | ⟨-, -, heq⟩ <;>
    rw [heq] <;> dsimp only
  · -- absorption: the block is in the log already
    rw [if_pos rfl]
    refine h.quiet (D := s.disk) (B := s.buf) (fun _ => ⟨rfl, rfl, rfl, rfl⟩) (by simp [ht])
      (fun hr => absurd (hpl.symm.trans hr) (by simp)) ((h.owns p).mark hi hk) fun hr => ?_
    exact h.coherent_own (h.coherent hr) hother (fun j hj => held_hold_of_ne hj)
      (fun _ _ => rfl) (fun _ _ _ => rfl) (fun _ _ _ hb => hb)
      (fun _ _ => .inr (.inl (hpins ▸ hm))) fun c hc => absurd hc (hwr c)
  · rw [if_neg (by simp)]
    obtain ⟨hB, hlock⟩ := recount s i (incr (s.buf i).refcnt)
    refine h.repin (y := (x p).hold i b .clean) (N := s.pins ++ [(s.buf i).blockno])
      (by change List.drop s.unpinned _ = _; rw [hz, List.drop_zero, hpins]) rfl (by simp [hpl])
      (by simp [hpl]) (h.refs.pin hP (by simp [ht]) hid (hpins ▸ hm)) hB hlock ?_ ?_ fun hr => ?_
    · refine { h.proto with le := hz.le.trans (Nat.zero_le _), nodup := ?_ }
      refine List.nodup_append.mpr ⟨h.proto.nodup, by simp, ?_⟩
      rintro c hc _ hd rfl
      exact hm (List.mem_singleton.mp hd ▸ hc)
    · have hno : ¬ (x p).InLog := by simp [Ctx.InLog, hop]
      exact ((h.owns p).frame (hlock p) (fun j _ => (hB j).2.2.2)
        fun hin => absurd hin hno).mark hi hk
    · refine h.coherent_own (h.coherent hr) hother (fun j hj => held_hold_of_ne hj)
        (fun j hj => update_of_ne hj ..) (fun _ _ _ => rfl)
        (fun _ _ _ hb => List.mem_append_left _ hb) (fun _ _ => .inr (.inl ?_))
        fun c hc => absurd hc (hwr c)
      change (update s.buf i _ i).blockno ∈ _
      rw [(hB i).2.2.2]
      exact List.mem_append_right _ List.mem_cons_self
  · exact h.halt _

theorem bunpin (hP : Fintype.card P ≤ nproc) (ht : s.thread p = .run (.cmd (.bunpin i) k)) :
    Inv r ({ s.modify i fun u => { u with refcnt := decr u.refcnt } with
      unpinned := s.unpinned + 1 }.goto p (.run (k ()))) := by
  obtain ⟨hcommit, b, d, todo, hi, htodo, hd, hk⟩ := h.code ht
  have hpl : s.place p = .commit := (h.owns p).place ▸ hcommit
  obtain ⟨hlh, hpins⟩ := (h.owns p).log (.inl hcommit)
  rw [htodo] at hpins
  obtain ⟨-, hib, hid⟩ := h.held hi
  have hcm := h.proto.isCommitting hpl
  have hnew : s.log.lh.drop (s.unpinned + 1) = todo := by
    rw [← List.drop_drop, ← pins, ← hpins, List.drop_one, List.tail_cons]
  have hlt : s.unpinned < s.log.lh.length := by
    by_contra hge
    rw [pins, List.drop_of_length_le (by omega)] at hpins
    nomatch hpins
  have hnotin : b ∉ todo := by
    have hnd := h.proto.nodup.sublist (List.drop_sublist s.unpinned _)
    rw [← pins, ← hpins] at hnd
    exact (List.nodup_cons.mp hnd).1
  obtain ⟨hB, hlock⟩ := recount s i (decr (s.buf i).refcnt)
  have hrefs := h.refs
  rw [← hpins, ← hib] at hrefs
  refine h.repin (y := { x p with todo := todo }) hnew rfl (by simp [hpl]) (by simp [hpl])
    (hrefs.unpin hP (by simp [ht]) hid (hib ▸ hnotin)) hB hlock ?_ ?_ fun hr => ?_
  · exact { h.proto with
      pinned hc := absurd hc (by simp [State.modify, hcm])
      le := hlt }
  · exact { (h.owns p).frame (hlock p) (fun j _ => (hB j).2.2.2) fun _ => ⟨rfl, rfl⟩ with
      log _ := ⟨hlh, rfl⟩
      code := hk }
  · -- the block has just been written
    have hw : (s.buf i).data = s.disk b := (h.coherent hr).written p i b (hd hr ▸ hi)
    refine h.coherent_own (h.coherent hr) (fun q => h.held_other_of_held hi) (fun _ _ => rfl)
      (fun j hj => update_of_ne hj ..) (fun _ _ _ => rfl) (fun j hj hjd hjb => ?_)
      (fun _ _ => .inl ?_) fun c hc => ?_
    · rw [← hpins, List.mem_cons] at hjb
      refine hjb.resolve_left fun hjb => hj (h.refs.unique j i hjd hid (hjb.trans hib.symm))
    · change (update s.buf i _ i).data = s.disk (update s.buf i _ i).blockno
      rw [(hB i).2.1, (hB i).2.2.2, hib, hw]
    · exact (hB i).2.1.trans ((h.coherent hr).written p i c hc)

end

end Commands

end Turn

/-! ## Steps -/

variable {T : Type}

/-- The machine is only switched on when the header on the disk is empty: no transaction is
committed and not installed. -/
def CleanBoot (s : State P) : Act T P → Prop
  | .powerOn _ => Log.readHead (s.disk s.log.start) = []
  | _ => True

/-- Nobody stores to a buffer, or calls `log_write`, outside of an operation. -/
def Inside (s : State P) : Act T P → Prop
  | .run p _ =>
    match s.thread p with
    | .run (.cmd (.store _ _) _) | .run (.cmd (.copyin _ _ _ _) _) | .run (.cmd (.logWrite _) _) =>
      s.place p ≠ .outside
    | _ => True
  | _ => True

/-- No `copyin` stops at a missing page after it has changed a block that is not in the
transaction. -/
def WholeCopy (s : State P) : Act T P → Prop
  | .run p m =>
    match s.thread p with
    | .run (.cmd (.copyin i off va n) _) => (copyin m va n).2 = true ∨
        (s.buf i).data.splice off (copyin m va n).1 = (s.buf i).data ∨
        (s.buf i).blockno ∈ s.log.lh
    | _ => True
  | _ => True

variable {r : Rules} {s s' : State P} {p : P} {m : UserMem}

theorem Turn.stepCmd {x : P → Ctx (Fin nbuf)} (h : Turn r s p x) (hP : Fintype.card P ≤ nproc)
    {c : Cmd (Fin nbuf)} {k : Ans c → K (Fin nbuf) Unit} (ht : s.thread p = .run (.cmd c k))
    (hin : r = .logging → Inside (T := T) s (.run p m) ∧ WholeCopy (T := T) s (.run p m))
    (hs : Bio.stepCmd s p m c k = some s') : Inv r s' := by
  rw [Inside, WholeCopy, ht] at hin
  cases c with
  | bread b => exact some.inj hs ▸ h.bget hP ht
  | store i v => exact some.inj hs ▸ h.store ht fun hr => (hin hr).1
  | copyin i off va n =>
    exact some.inj hs ▸ h.copyin ht (fun hr => (hin hr).1) fun hr => (hin hr).2
  | copyout va bytes => exact some.inj hs ▸ h.copyout ht _
  | bwrite i =>
    rw [Bio.stepCmd] at hs
    split at hs
    · exact some.inj hs ▸ h.bwrite ht
    · exact some.inj hs ▸ h.halt _
  | bunpin i => exact some.inj hs ▸ h.bunpin hP ht
  | brelse i =>
    rw [Bio.stepCmd] at hs
    split at hs
    · exact some.inj hs ▸ h.brelse ht
    · exact some.inj hs ▸ h.halt _
  | logWrite i =>
    rw [Bio.stepCmd, some.injEq] at hs
    rw [← hs]
    split
    · exact h.halt _
    · exact h.logWrite ht fun hr => (hin hr).1
  | beginOp =>
    rw [Bio.stepCmd] at hs
    split at hs
    · nomatch hs
    · rename_i l hl
      exact some.inj hs ▸ h.beginOp ht hl
  | endOp =>
    have hend := h.endOp ht
    rw [Bio.stepCmd] at hs
    split at hs <;> rename_i heq <;> rw [heq] at hend <;> exact some.inj hs ▸ hend
  | endCommit => exact some.inj hs ▸ h.endCommit ht
  | readLh => exact some.inj hs ▸ h.readLh ht
  | setLh lh => exact some.inj hs ▸ h.setLh ht
  | panic m => exact some.inj hs ▸ h.halt _

theorem Turn.step {x : P → Ctx (Fin nbuf)} (h : Turn r s p x) (hP : Fintype.card P ≤ nproc)
    (hin : r = .logging → Inside (T := T) s (.run p m) ∧ WholeCopy (T := T) s (.run p m))
    (hs : stepThread s p m (s.thread p) = some s') : Inv r s' := by
  cases ht : s.thread p with
  | run c =>
    rw [ht] at hs
    cases c with
    | ret a => exact absurd hs (by simp [stepThread])
    | cmd c k => exact h.stepCmd hP ht hin hs
  | locking i k =>
    rw [ht, stepThread] at hs
    split at hs
    · rename_i hl
      exact some.inj hs ▸ h.acquire ht hl
    · nomatch hs
  | reading i k =>
    have hread := h.read ht
    rw [ht, stepThread] at hs
    split at hs <;> rename_i hv
    · rw [if_pos hv] at hread
      exact some.inj hs ▸ hread
    · rw [if_neg hv] at hread
      exact some.inj hs ▸ hread
  | putting i k =>
    rw [ht, stepThread] at hs
    exact some.inj hs ▸ h.put hP ht
  | logTested i k =>
    rw [ht, stepThread, some.injEq] at hs
    rw [← hs]
    split
    · exact h.halt _
    · exact h.logTest ht
  | logAcquire i k =>
    rw [ht, stepThread] at hs
    exact some.inj hs ▸ h.logAcquire hP ht

omit [DecidableEq P] in
theorem refs_powerOff {thread : P → Thread} (hpins : pins = [])
    (ht : ∀ p i, (thread p).refs i = false) (disk : Nat → Block) (start size : Nat) :
    Refs (P := P) binit (powerOff disk start size).buf (fun _ => 0) pins thread where
  listed := by simp [binit]
  unique i j hi := absurd hi (by simp [powerOff, rootDev])
  refcnt i := by simp [powerOff, Buf.In, rootDev]
  users i := by
    rw [count_eq_zero.mpr fun p => ht p i]
    simp [powerOff]
  inUse i hi := absurd hi (by simp)
  cached b hb := absurd hb (by simp [hpins])

omit [DecidableEq P] [Fintype P] in
theorem owns_idle {size : Nat} (q : P) :
    Owns r n (powerOff (P := P) disk start size).buf lh pins q .outside (.run (.ret ()))
      idle :=
  ⟨rfl, by simp [powerOff, idle], by simp [idle], by simp [Ctx.InLog, idle], .inl rfl⟩

omit [DecidableEq P] [Fintype P] in
theorem coherent_powerOff (disk : Nat → Block) (start size : Nat) (pins : List Nat)
    (hx : ∀ q, (x q).held = fun _ => none) :
    Coherent disk (powerOff (P := P) disk start size).buf pins x :=
  ⟨by simp [powerOff], fun q i b hb => by simp [hx] at hb⟩

omit [DecidableEq P] in
theorem inv_powerOff (disk : Nat → Block) (start size : Nat) :
    Inv r (powerOff (P := P) disk start size) := by
  refine ⟨refs_powerOff rfl (fun _ _ => rfl) disk start size, fun _ => ⟨?_, ?_, fun _ => idle,
    fun q => owns_idle q, fun _ => coherent_powerOff disk start size _ fun _ => rfl⟩⟩
  · refine ⟨?_, ?_, by simp [powerOff], by simp [powerOff], by simp [powerOff], by simp [powerOff],
      by simp [powerOff], by simp [powerOff]⟩
    · rw [count_eq_zero.mpr (by simp [powerOff])]
      rfl
    · rw [count_eq_zero.mpr (by simp [powerOff])]
      rfl
  · intro p hp
    simp [powerOff] at hp

theorem inv_powerOn (hd : Log.readHead (disk start) = []) (size : Nat) (p : P) :
    Inv r (powerOn disk start size p) := by
  have hout : ∀ c : Place, c ≠ .outside → c ≠ .recover →
      count (fun z => decide (z = c)) (powerOn disk start size p).place = 0 := by
    intro c h1 h2
    refine count_eq_zero.mpr fun q => ?_
    change decide (update (fun _ => Place.outside) p .recover q = c) = false
    by_cases hq : q = p
    · subst hq
      simp [h2.symm]
    · simp [hq, h1.symm]
  refine ⟨refs_powerOff rfl (fun q i => ?_) disk start size, fun _ => ⟨?_, ?_,
    update (fun _ => idle) p { idle with place := .recover }, fun q => ?_,
    fun _ => coherent_powerOff disk start size _ fun q => ?_⟩⟩
  · change (update (fun _ => Thread.run (.ret ())) p _ q).refs i = false
    by_cases hq : q = p
    · subst hq
      rw [update_self, Thread.refs_run]
    · rw [update_of_ne hq, Thread.refs_run]
  · refine ⟨?_, ?_, fun h => absurd h (by simp [powerOn, powerOff, goto, enter]), ?_, ?_,
      fun _ => rfl, Nat.zero_le _, List.nodup_nil⟩
    · rw [hout _ (by simp) (by simp)]
      rfl
    · rw [hout _ (by simp) (by simp)]
      rfl
    · intro q hq
      obtain rfl : p = q := by simpa [powerOn, goto, enter] using hq
      refine ⟨.inl (update_self ..), fun q' hq' => ?_⟩
      exact update_of_ne hq' ..
    · exact fun hno => absurd rfl (hno p)
  · intro q _
    exact ⟨rfl, hd, fun i hv => absurd hv (by simp [powerOn, powerOff, goto, enter])⟩
  · change Owns r start (powerOff disk start size).buf [] [] q
      (update (fun _ => Place.outside) p .recover q)
      (update (fun _ => Thread.run (.ret ())) p (.run (recoverFromLog start)) q) _
    by_cases hq : q = p
    · subst hq
      simp only [update_self]
      exact ⟨rfl, by simp [powerOff, idle], by simp [idle], by simp [Ctx.InLog],
        wp_recoverFromLog rfl (.inr ⟨rfl, rfl⟩)⟩
    · simp only [update_of_ne hq]
      exact owns_idle q
  · by_cases hq : q = p
    · subst hq
      rw [update_self]
      rfl
    · rw [update_of_ne hq]
      rfl

theorem inv_call {code : K (Fin nbuf) Unit} {a : Unit} (h : Inv r s) (hm : s.mode = .running)
    (ht : s.thread p = .run (.ret a)) (hcode : Disciplined r s.log.start code) :
    Inv r (s.goto p (.run code)) := by
  obtain ⟨proto, header, x, hx, hcoh⟩ := h.live (by simp [hm])
  have hturn : Turn r s p x := ⟨h.refs, proto, header, hx, hcoh, .inl hm⟩
  have hidle : x p = idle := by
    refine (hturn.code ht).resolve_right fun hr => ?_
    have := (proto.running (by simp [hm]) p).2
    rw [← (hx p).place] at this
    exact this hr.1
  refine hturn.stay (by simp [ht]) ?_
  rw [hidle]
  exact wp_mono (monotone_spec r _) (fun _ _ => .inl) hcode

theorem inv_boot {a : Unit} (h : Inv r s) (hm : s.mode = .recovering p)
    (ht : s.thread p = .run (.ret a)) : Inv r ({ s with mode := .running }.enter p .outside) := by
  obtain ⟨proto, header, x, hx, hcoh⟩ := h.live (by simp [hm])
  obtain ⟨hpl, hrest⟩ := proto.booting p hm
  have hc := (hx p).code
  rw [ht] at hc
  obtain ⟨hrec, hheld⟩ : (x p).place = .recovered ∧ (x p).held = fun _ => none := by
    refine hc.resolve_left fun hidle => ?_
    rw [← (hx p).place, hidle] at hpl
    simp [idle] at hpl
  rw [(hx p).place] at hrec
  have hall : ∀ q, update s.place p .outside q = .outside := by
    intro q
    by_cases hq : q = p
    · subst hq; simp
    · rw [update_of_ne hq, hrest q hq]
  refine ⟨h.refs, fun _ => ⟨?_, ?_, update x p idle, fun q => ?_, fun hr => ?_⟩⟩
  · refine { proto with
      outstanding := ?_, committing := ?_, running := fun _ q => ?_, booting := by simp [enter] }
    · exact proto.outstanding.trans (congrArg _ (count_update_same (by simp [hrec])).symm)
    · exact (count_update_same (by simp [hrec])).trans proto.committing
    · change update s.place p .outside q ≠ _ ∧ update s.place p .outside q ≠ _
      rw [hall q]
      simp
  · intro q hq
    change update s.place p .outside q = _ at hq
    simp [hall q] at hq
  · change Owns r s.log.start s.buf s.log.lh s.pins q (update s.place p .outside q)
      (s.thread q) _
    by_cases hq : q = p
    · subst hq
      rw [update_self, update_self, ht]
      exact ⟨rfl, fun i => by rw [(hx q).held i, hheld]; rfl, by simp [idle],
        by simp [Ctx.InLog, idle], .inl rfl⟩
    · rw [update_of_ne hq, update_of_ne hq]
      exact hx q
  · exact Turn.coherent_frame (hcoh hr) (fun _ => ⟨rfl, rfl, rfl, rfl⟩)
      fun i b d _ => by rw [hheld]; rfl

/-- **Every step keeps the invariant**, if the machine is only switched on with an empty header and,
for the contents of the cache, if stores stay inside operations and copies are not torn. -/
theorem inv_step (hP : Fintype.card P ≤ nproc) {code : Nat → T → K (Fin nbuf) Unit}
    (hcode : ∀ start t, Disciplined r start (code start t)) (h : Inv r s) {a : Act T P}
    (hboot : CleanBoot s a) (hin : r = .logging → Inside s a ∧ WholeCopy s a)
    (hs : step code s a = some s') : Inv r s' := by
  have hturn : ∀ p, s.mode = .running ∨ s.mode = .recovering p → ∃ x, Turn r s p x := by
    intro p hm
    obtain ⟨proto, header, x, hx, hcoh⟩ := h.live (by rcases hm with hm | hm <;> simp [hm])
    exact ⟨x, h.refs, proto, header, hx, hcoh, hm⟩
  cases a with
  | call p t =>
    rw [step] at hs
    split at hs
    · rename_i a hm ht
      exact some.inj hs ▸ inv_call h hm ht (hcode _ t)
    · nomatch hs
  | run p m =>
    rw [step] at hs
    split at hs
    · rename_i hm
      obtain ⟨x, hx⟩ := hturn p (.inl hm)
      exact hx.step hP hin hs
    · rename_i q hm
      split at hs
      · rename_i hpq
        subst hpq
        obtain ⟨x, hx⟩ := hturn p (.inr hm)
        exact hx.step hP hin hs
      · nomatch hs
    · nomatch hs
  | powerOn p => exact some.inj hs ▸ inv_powerOn hboot _ p
  | boot =>
    rw [step] at hs
    split at hs
    · rename_i p hm
      split at hs
      · rename_i a ht
        exact some.inj hs ▸ inv_boot h hm ht
      · nomatch hs
    · nomatch hs

end Xv6.Bio
