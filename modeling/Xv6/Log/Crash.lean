import Xv6.Log.Admission
import Xv6.Lib.RedoLog

/-!
# Crash atomicity of the log

A crash may come between any two disk writes, in `commit()` or in `recover_from_log`, and recovery
may itself crash any number of times.  What keeps the disk recoverable throughout is that its
header block, its log blocks and its home blocks together *determine* the contents after some
number of groups: `Durable`, which is `RedoLog.Replayable` for the list `read_head` would find.
`Phase` says, for every point of `commit()`, how many groups that is and how far the log and the
home blocks have got; `Safe` is the invariant made of it.

All of this rests on the log blocks staying inside the log area.  `log_write` compares `log.lh.n`
with the size of the area **before** it takes `log.lock`, so two processes can both pass the test
and both add a block, and the transaction then has more blocks than the area that `mkfs` makes.  But
its blocks are pinned, and `LOGSIZE` is `NBUF`: the first `bread` of `write_log` finds no buffer and
panics before anything is written.  So the log area has to have `NBUF` blocks, as it has on a disk
made by `mkfs`, and then no test is needed at all.
-/

namespace Xv6
open Function (update update_self update_of_ne)

namespace Log

open Lts Lts.System RedoLog List State

variable {P : Type} [DecidableEq P] {lh : List Nat}
variable {h' : History P} {i j : Nat} {s' : State P} {p : P}

/-! ## The header block -/

theorem get_writeBlocks_of_le (bs : List Nat) : ∀ (hb : Block) (i off : Nat),
    off + 4 ≤ 4 * (i + 1) → (writeBlocks hb i bs).get off 4 = hb.get off 4 := by
  induction bs with
  | nil => intro hb i off _; rfl
  | cons b bs ih =>
    intro hb i off h
    rw [writeBlocks, ih _ _ _ (by omega), Block.get_set_of_disjoint (by omega)]

theorem get_writeBlocks (bs : List Nat) : ∀ (hb : Block) (i k : Nat), (hk : k < bs.length) →
    4 * (i + bs.length + 1) ≤ bsize → (∀ b ∈ bs, b < 2 ^ 32) →
    (writeBlocks hb i bs).get (4 * (i + k + 1)) 4 = bs.get ⟨k, hk⟩ := by
  induction bs with
  | nil => intro _ _ _ hk; nomatch hk
  | cons b bs ih =>
    intro hb i k hk hroom hlt
    rw [length_cons] at hroom
    rw [writeBlocks]
    cases k with
    | zero =>
      rw [get_writeBlocks_of_le _ _ _ _ (by omega), Nat.add_zero,
        Block.get_set_self (by omega) (hlt b mem_cons_self)]
      rfl
    | succ k =>
      rw [show i + (k + 1) + 1 = (i + 1) + k + 1 by omega,
        ih _ _ k (Nat.lt_of_succ_lt_succ hk) (by omega) fun c hc => hlt c (mem_cons_of_mem _ hc)]
      rfl

/-- `read_head` finds what `write_head` wrote, whatever else was in the header block. -/
theorem readHead_writeHead (hb : Block) (hlen : lh.length ≤ logSize) (hlt : ∀ b ∈ lh, b < 2 ^ 32) :
    readHead (writeHead hb lh) = lh := by
  have hsz : lh.length ≤ 30 := hlen
  have hbs : bsize = 1024 := rfl
  have hn : (writeHead hb lh).get 0 4 = lh.length := by
    rw [writeHead, get_writeBlocks_of_le _ _ _ _ (by omega),
      Block.get_set_self (by omega) (by omega)]
  rw [readHead, hn]
  refine ext_getElem (by simp) fun k h1 h2 => ?_
  have hg := get_writeBlocks lh (hb.set 0 4 lh.length) 0 k h2 (by omega) hlt
  rw [Nat.zero_add] at hg
  simpa [writeHead] using hg

/-! ## What the disk determines -/

/-- The log block that belongs to entry `i` of the header. -/
def Area.slot (A : Area) (i : Nat) : Nat := A.start + i + 1

/-- The disk `d` determines the contents after the first `j` groups, by the header entries `L`. -/
structure Durable (A : Area) (d : Nat → Block) (h : History P) (L : List Nat) (j : Nat) :
    Prop where
  /-- The header block lists `L`. -/
  head : readHead (d A.start) = L
  /-- The log blocks in use are inside the log area. -/
  fits : ∀ i, i < L.length → i + 1 < A.size
  /-- Copying them home gives the contents after `j` groups. -/
  replay : Replayable A.Home A.slot L d (h.after j)

/-- The home blocks hold the given contents, on the disk or in the cache. -/
def Holds (A : Area) (d T : Nat → Block) : Prop := ∀ b, A.Home b → d b = T b

/-- Before the header of the last group is written: the disk has the groups before it, the cache
has it too, and its first `k` blocks are in the log. -/
structure Before (A : Area) (lh : List Nat) (d c : Nat → Block) (h : History P) (k : Nat) :
    Prop where
  returned : h.returned + 1 = h.groups.length
  durable : Durable A d h [] h.returned
  cached : Holds A c (h.after h.groups.length)
  same : ∀ b, b ∉ lh → h.after h.groups.length b = h.after h.returned b
  copies : ∀ i, i < k → (hi : i < lh.length) →
    d (A.slot i) = h.after h.groups.length (lh.get ⟨i, hi⟩)
  /-- The first log block has found a buffer. -/
  small : 0 < k → lh.length < nbuf

/-- How far the last group has got, when a process is at the given point of `commit()`. -/
def Phase (A : Area) (lh : List Nat) (d c : Nat → Block) (h : History P) : Commit → Prop
  | .start => Before A lh d c h 0
  | .writeLog k => Before A lh d c h k
  | .writeHead => Before A lh d c h lh.length
  | .installTrans k => h.returned + 1 = h.groups.length ∧ Durable A d h lh h.groups.length ∧
      Settled lh k d (h.after h.groups.length) ∧ Holds A c (h.after h.groups.length)
  | .eraseHead => h.returned + 1 = h.groups.length ∧ (∃ L, Durable A d h L h.groups.length) ∧
      Holds A d (h.after h.groups.length) ∧ Holds A c (h.after h.groups.length)
  | .returned => h.returned = h.groups.length ∧ Durable A d h [] h.groups.length ∧
      Holds A c (h.after h.groups.length)

/-- Between commits: the disk has all groups, the cache has the running transaction as well. -/
structure Quiet (A : Area) (d c : Nat → Block) (h : History P) : Prop where
  returned : h.returned = h.groups.length
  durable : Durable A d h [] h.groups.length
  cached : Holds A c (applyAll (h.after h.groups.length) h.cur)

/-- During recovery: the disk determines the contents after some number of groups, at least those
whose `commit()` returned. -/
structure Recovering (A : Area) (lh : List Nat) (d c : Nat → Block) (h : History P)
    (r : Recovery) (j : Nat) (L : List Nat) : Prop where
  lo : h.returned ≤ j
  hi : j ≤ h.groups.length
  durable : Durable A d h L j
  cached : ∀ b, c b = d b
  read : ∀ k, r = .installTrans k → lh = L ∧ Settled L k d (h.after j)
  installed : r = .writeHead → Holds A d (h.after j)
  erased : r = .returned → L = []

/-- The transaction consists of home blocks, and fits into the header block. -/
structure Fits (A : Area) (lh : List Nat) : Prop where
  homes : ∀ b ∈ lh, A.Home b ∧ b < 2 ^ 32
  head : lh.length ≤ logSize

/-- **The invariant.** -/
structure Safe (s : State P) (h : History P) : Prop where
  area : nbuf ≤ s.log.area.size
  /-- The log area is cached as it is on disk. -/
  logArea : ∀ b, ¬ s.log.area.Home b → s.cache b = s.disk b
  fits : s.Up → Fits s.log.area s.log.lh
  /-- Home blocks are about to be recorded. -/
  pending : ∀ p b v, s.pc p = .logTested b v ∨ s.pc p = .logAcquire b v →
    s.log.area.Home b ∧ b < 2 ^ 32
  quiet : s.Up → s.log.committing = false → Quiet s.log.area s.disk s.cache h
  commit : ∀ p c, s.pc p = .commit c → Phase s.log.area s.log.lh s.disk s.cache h c
  recovering : ∀ r, s.mode = .recovering r →
    ∃ j L, Recovering s.log.area s.log.lh s.disk s.cache h r j L

/-! ## Disk writes -/

section Writes

variable {A : Area} {lh L : List Nat} {d c T : Nat → Block} {h : History P} {x : Nat}

theorem start_not_home (h : 0 < A.size) : ¬ A.Home A.start := by
  rintro (h' | h') <;> omega

theorem slot_not_home (h : i + 1 < A.size) : ¬ A.Home (A.slot i) := by
  rintro (h' | h') <;> rw [Area.slot] at h' <;> omega

theorem slot_ne_start (A : Area) (i : Nat) : A.slot i ≠ A.start := by
  rw [Area.slot]; omega

theorem slot_ne_slot (A : Area) (h : i ≠ j) : A.slot i ≠ A.slot j := by
  simp only [Area.slot]; omega

section

omit [DecidableEq P]

/-- What the disk determines depends on the groups only. -/
theorem Durable.history (hd : Durable A d h L j) (hb : h'.base = h.base) (hg : h'.groups = h.groups)
    : Durable A d h' L j :=
  ⟨hd.head, hd.fits, by rw [History.after, hb, hg]; exact hd.replay⟩

/-- With an empty header, a write inside the log area that leaves the header alone is free. -/
theorem Durable.write_slot (hd : Durable A d h [] j) (hi : i + 1 < A.size) (v : Block) :
    Durable A (update d (A.slot i) v) h [] j where
  head := by
    rw [update_of_ne (slot_ne_start A i).symm]
    exact hd.head
  fits := nofun
  replay := hd.replay.update_off (slot_not_home hi) (nofun) v

/-- **Writing the header is the commit**: from then on the disk determines the new contents. -/
theorem Before.write_head (hb : Before A lh d c h lh.length) (harea : nbuf ≤ A.size)
    (hf : Fits A lh) (hdr : Block) :
    Durable A (update d A.start (writeHead hdr lh)) h lh h.groups.length where
  head := by
    simpa using readHead_writeHead _ hf.head fun b hb => (hf.homes b hb).2
  fits i hi := by
    have := hb.small (by omega)
    omega
  replay := (hb.durable.replay.commit (fun b hb => (hf.homes b hb).1)
    (fun i hi => hb.copies i hi hi) fun b _ hL => (hb.same b hL).symm).update_off
      (start_not_home (Nat.lt_of_lt_of_le (by decide) harea)) (fun i _ => slot_ne_start A i) _

theorem Durable.install {k : Nat} (hd : Durable A d h L j) (harea : 0 < A.size) (hk : k < L.length)
    : Durable A (update d (L.get ⟨k, hk⟩) (d (A.slot k))) h L j where
  head := by
    have hne : A.start ≠ L.get ⟨k, hk⟩ := fun he =>
      start_not_home harea (he ▸ hd.replay.homes _ (getElem_mem hk))
    rw [update_of_ne hne]
    exact hd.head
  fits := hd.fits
  replay := hd.replay.install (fun i hi => slot_not_home (hd.fits i hi)) hk

/-- Writing an empty header, once everything is installed. -/
theorem Durable.erase (harea : 0 < A.size) (hin : Holds A d (h.after j)) (hdr : Block) :
    Durable A (update d A.start (writeHead hdr [])) h [] j where
  head := by
    rw [update_self]
    exact readHead_writeHead _ (Nat.zero_le _) nofun
  fits := nofun
  replay := (Replayable.nil fun b hb => hin b hb).update_off (start_not_home harea)
    (nofun) _

/-- Closing a group: its blocks are in the cache and nowhere else. -/
theorem Quiet.close (hq : Quiet A d c h) (hblk : ∀ b, b ∉ lh → b ∉ h.cur.filterMap Event.block)
    (hbase : h'.base = h.base) (hgroups : h'.groups = h.groups ++ [h.cur ++ [.endOp p]])
    (hreturned : h'.returned = h.returned) :
    Before A lh d c h' 0 := by
  have hlen : h'.groups.length = h.groups.length + 1 := by simp [hgroups]
  have hT : h'.after h'.groups.length = applyAll (h.after h.groups.length) h.cur := by
    rw [hlen, after_length_append hbase hgroups, applyAll_append]
    rfl
  have hR : h'.after h'.returned = h.after h.groups.length := by
    rw [hreturned, after_append_of_le hbase hgroups hq.returned.le, hq.returned]
  refine ⟨by rw [hlen, hreturned, hq.returned], ⟨hq.durable.head, hq.durable.fits, ?_⟩,
    fun b hb => ?_, fun b hb => ?_, nofun, nofun⟩
  · rw [hR]; exact hq.durable.replay
  · rw [hT]; exact hq.cached b hb
  · rw [hT, hR]; exact applyAll_of_notMem (hblk b hb) _

end

theorem Holds.write_off (hc : Holds A c T) (hx : ¬ A.Home x) (v : Block) :
    Holds A (update c x v) T := by
  intro b hb
  have hne : b ≠ x := fun he => hx (he ▸ hb)
  simpa [hne] using hc b hb

theorem Holds.write_same (hc : Holds A c T) {v : Block} (hv : A.Home x → v = T x) :
    Holds A (update c x v) T := by
  intro b hb
  by_cases hbx : b = x
  · subst hbx; rw [update_self]; exact hv hb
  · rw [update_of_ne hbx]; exact hc b hb

/-- `bwrite` leaves the cache equal to the disk where it was. -/
theorem write_both {b : Nat} (hb : c b = d b) (x : Nat) (v : Block) :
    update c x v b = update d x v b := by
  by_cases hbx : b = x
  · subst hbx; simp
  · rw [update_of_ne hbx, update_of_ne hbx, hb]

end Writes

namespace Safe

variable {s : State P} {h : History P} {b : Nat} {pc : P → Pc} {v : Block}

/-- A process moves, neither of whose places is in `commit()`. -/
theorem goto (hs : Safe s h) {c : Pc} (hc : c.inCommit = false)
    (hpend : ∀ b v, c = .logTested b v ∨ c = .logAcquire b v → s.log.area.Home b ∧ b < 2 ^ 32) :
    Safe (s.goto p c) h where
  area := hs.area
  logArea := hs.logArea
  fits := hs.fits
  pending q b v hq := by
    by_cases hqp : q = p
    · subst hqp; exact hpend b v (by simpa [State.goto] using hq)
    · exact hs.pending q b v (by simpa [State.goto, hqp] using hq)
  quiet := hs.quiet
  commit q c' hq := by
    by_cases hqp : q = p
    · subst hqp
      have hcc : c = .commit c' := by simpa [goto] using hq
      rw [hcc] at hc
      exact absurd hc (by simp [Pc.inCommit])
    · exact hs.commit q c' (by simpa [State.goto, hqp] using hq)
  recovering := hs.recovering

omit [DecidableEq P] in
theorem halt (hs : Safe s h) (hup : s.Up) (x : Halt) : Safe (s.halt x) h where
  area := hs.area
  logArea := hs.logArea
  fits _ := hs.fits hup
  pending := hs.pending
  quiet _ := hs.quiet hup
  commit := hs.commit
  recovering _ hr := absurd hr (by simp [State.halt])

omit [DecidableEq P] in
theorem pos (hs : Safe s h) : 0 < s.log.area.size := Nat.lt_of_lt_of_le (by decide) hs.area

/-- Waking up sleepers and moving a process out of `log_write` makes nobody record a block. -/
theorem pending_goto (hs : Safe s h) (hpc : pc = s.pc ∨ pc = wakeup s.pc) {c : Pc}
    (hc : ∀ b v, c ≠ .logTested b v ∧ c ≠ .logAcquire b v) {q : P}
    (hq : update pc p c q = .logTested b v ∨ update pc p c q = .logAcquire b v) :
    s.log.area.Home b ∧ b < 2 ^ 32 := by
  by_cases hqp : q = p
  · subst hqp
    rw [update_self] at hq
    exact (hq.elim (hc b v).1 (hc b v).2).elim
  · rw [update_of_ne hqp] at hq
    refine hs.pending q b v ?_
    rcases hpc with rfl | rfl
    · exact hq
    · rw [wakeup] at hq
      split at hq
      · simp at hq
      · exact hq

/-- Between commits a process records an event; the cache and the transaction change with it. -/
theorem event [Fintype P] (hs : Safe s h) (hi : Inv s) (hup : s.Up) (hnc : s.log.committing = false)
    {e : Event P} {l : Log} (hl : l.area = s.log.area) (hpc : pc = s.pc ∨ pc = wakeup s.pc) {c : Pc}
    (hc : c = .idle ∨ c = .inOp) (hblk : ∀ b, e.block = some b → s.log.area.Home b)
    (hfits : Fits s.log.area l.lh) :
    Safe ({ s with log := l, cache := e.apply s.cache, pc := pc }.goto p c)
      { h with cur := h.cur ++ [e] } := by
  have hq := hs.quiet hup hnc
  rw [← hl] at hblk hfits
  refine ⟨hl ▸ hs.area, fun b (hb : ¬ l.area.Home b) => ?_, fun _ => hfits,
    fun q b v hq => hl ▸ hs.pending_goto hpc (by rcases hc with rfl | rfl <;> simp) hq,
    fun _ _ => ⟨hq.returned, hl ▸ hq.durable.history rfl rfl,
      fun b (hb : l.area.Home b) => ?_⟩,
    fun q c' hqc => ?_, fun r hr => absurd hr (hup r)⟩
  · change e.apply s.cache b = s.disk b
    rw [← hs.logArea b (hl ▸ hb)]
    cases e with
    | logWrite p c v =>
      have hne : b ≠ c := fun he => hb (he ▸ hblk c rfl)
      exact update_of_ne hne v s.cache
    | beginOp p | endOp p => rfl
  · have hb' := hq.cached b (hl ▸ hb)
    show e.apply s.cache b = applyAll (h.after h.groups.length) (h.cur ++ [e]) b
    rw [applyAll_append]
    cases e with
    | logWrite p c v =>
      by_cases hbc : b = c
      · subst hbc; simp [Event.apply, applyAll]
      · simpa [Event.apply, applyAll, hbc] using hb'
    | beginOp p | endOp p => exact hb'
  · by_cases hqp : q = p
    · subst hqp
      rcases hc with rfl | rfl <;> simp [State.goto] at hqc
    · have hin : (s.pc q).inCommit = true := by
        have hqc : pc q = .commit c' := by simpa [State.goto, hqp] using hqc
        rcases hpc with rfl | rfl
        · rw [hqc]; rfl
        · rw [← wakeup_inCommit, hqc]; rfl
      exact absurd (hi.committing_of_inCommit hin) (by simp [hnc])

variable [Fintype P]

section

variable (hs : Safe s h) (hi : Inv s)

include hs hi

theorem stepBeginOp (hup : s.Up) : Safe (Log.stepBeginOp s p) (observe s h (.beginOp p)) := by
  rw [Log.stepBeginOp, observe]
  cases hb : beginOp s.log with
  | none => exact hs.goto rfl (by simp)
  | some l =>
    obtain ⟨hnc, rfl⟩ := beginOp_eq_some hb
    exact hs.event (e := .beginOp p) hi hup hnc (by rfl) (.inl rfl) (.inr rfl)
      (by rintro _ ⟨⟩) (hs.fits hup)

theorem stepLogWrite (hup : s.Up) (hp : s.pc p = .logAcquire b v) :
    Safe (Log.stepLogWrite s p b v) (observe s h (.logWrite p)) := by
  have hnc := hi.not_committing (p := p) (by rw [hp]; rfl)
  have hhome := hs.pending p b v (Or.inr hp)
  have hfits := hs.fits hup
  have hev : ∀ l : Log, l.area = s.log.area → Fits s.log.area l.lh →
      Safe ({ s with log := l, cache := update s.cache b v }.goto p .inOp)
        { h with cur := h.cur ++ [.logWrite p b v] } := by
    intro l hl hf
    refine hs.event (e := .logWrite p b v) hi hup hnc hl (.inl rfl) (.inr rfl) (fun b' hb' => ?_) hf
    obtain rfl : b = b' := by simpa [Event.block] using hb'
    exact hhome.1
  rw [Log.stepLogWrite, observe, hp]
  rcases logWrite_cases s.log b with ⟨hb, he⟩ | ⟨hb, hlen, he⟩ | ⟨_, _, he⟩
  · simp only [he]
    exact hev _ rfl hfits
  · simp only [he]
    refine hev _ rfl ⟨fun c hc => ?_, ?_⟩
    · rcases mem_append.mp hc with hc | hc
      · exact hfits.homes c hc
      · exact (mem_singleton.mp hc) ▸ hhome
    · simp only [length_append, length_singleton]; omega
  · simp only [he]
    exact hs.halt hup _

theorem stepEndOp (w : Watches s h) (hup : s.Up) (hp : s.pc p = .inOp) :
    Safe (Log.stepEndOp s p) (observe s h (.endOp p)) := by
  have hnc := hi.not_committing (p := p) (by rw [hp]; rfl)
  rw [Log.stepEndOp, observe]
  by_cases ho : s.log.outstanding = 1
  · rw [endOp_last hnc ho]
    refine ⟨hs.area, hs.logArea, hs.fits, fun q b v => hs.pending_goto (.inl rfl) (by simp),
      fun _ hc => absurd hc (by simp [State.goto]), fun q c hqc => ?_,
      fun r hr => absurd hr (hup r)⟩
    by_cases hqp : q = p
    · subst hqp
      obtain rfl : Commit.start = c := by simpa [State.goto] using hqc
      exact (hs.quiet hup hnc).close (fun b hb hm => hb ((w.blocks hup hnc b).mpr hm)) rfl rfl rfl
    · have hqc : s.pc q = .commit c := by simpa [State.goto, hqp] using hqc
      exact absurd (hi.committing_of_inCommit (p := q) (by rw [hqc]; rfl)) (by simp [hnc])
  · rw [endOp_more hnc ho]
    exact hs.event (e := .endOp p) hi hup hnc (by rfl) (.inr rfl) (.inl rfl)
      (by rintro _ ⟨⟩) (hs.fits hup)

/-- A step of `commit()` leaves everything but the disk, the cache and the transaction alone. -/
theorem move (hup : s.Up) {c c' : Commit} (hp : s.pc p = .commit c) {disk cache : Nat → Block}
    (hlog : ∀ b, ¬ s.log.area.Home b → cache b = disk b) (hfits : Fits s.log.area lh)
    (hphase : Phase s.log.area lh disk cache h' c') :
    Safe ({ s with disk := disk, cache := cache, log := { s.log with lh := lh } }.goto p
      (.commit c')) h' := by
  have hc : s.log.committing = true := hi.committing_of_inCommit (p := p) (by rw [hp]; rfl)
  refine ⟨hs.area, hlog, fun _ => hfits, fun q b v => hs.pending_goto (.inl rfl) (by simp),
    fun _ hnc => absurd (hc.symm.trans hnc) (by simp), fun q c'' hq => ?_,
    fun r hr => absurd hr (hup r)⟩
  have hqp : q = p := by
    by_contra hqp
    have hqc : s.pc q = .commit c'' := by simpa [State.goto, hqp] using hq
    exact hqp (hi.inCommit_unique (by rw [hp]; rfl) (by rw [hqc]; rfl))
  subst hqp
  obtain rfl : c' = c'' := by simpa [State.goto] using hq
  exact hphase

theorem stepCommit (w : Watches s h) (hup : s.Up) {c : Commit} (hp : s.pc p = .commit c) :
    Safe (Log.stepCommit s p c) (observe s h (.commit p)) := by
  have hph := hs.commit p c hp
  have hfits := hs.fits hup
  have hc : s.log.committing = true := hi.committing_of_inCommit (p := p) (by rw [hp]; rfl)
  cases c with
  | start =>
    rw [Log.stepCommit, observe, hp]
    split
    · exact hs.move hi hup hp hs.logArea hfits hph
    · -- an empty transaction: `commit()` does nothing
      rename_i hn
      have hlh : s.log.lh = [] := length_eq_zero_iff.mp (by omega)
      have hsame : h.after h.groups.length = h.after h.returned :=
        funext fun b => hph.same b (by rw [hlh]; exact not_mem_nil)
      have hdur : Durable s.log.area s.disk h [] h.groups.length :=
        ⟨hph.durable.head, hph.durable.fits, by rw [hsame]; exact hph.durable.replay⟩
      exact hs.move hi hup hp hs.logArea hfits
        ⟨hph.returned, hdur.history rfl rfl, hph.cached⟩
  | writeLog k =>
    rw [Log.stepCommit, observe, hp]
    cases hk : s.log.lh[k]? with
    | none =>
      have hlen : s.log.lh.length ≤ k := getElem?_eq_none_iff.mp hk
      exact hs.move hi hup hp hs.logArea hfits
        ⟨hph.returned, hph.durable, hph.cached, hph.same,
          fun i (hi' : i < s.log.lh.length) => hph.copies i (by omega),
          fun (h0 : 0 < s.log.lh.length) => hph.small (by omega)⟩
    | some b =>
      obtain ⟨hlt, rfl⟩ := List.getElem?_eq_some_iff.mp hk
      have hhome := (hfits.homes _ (List.getElem_mem hlt)).1
      have hin : k + 1 < s.log.area.size := by
        have harea := hs.area
        have hsmall := hph.small
        rw [nbuf, maxOpBlocks] at *
        omega
      dsimp only
      rw [State.bread]
      split
      case isFalse => exact hs.halt hup _
      rename_i hbuf
      -- the log block is not in the transaction, so the buffer that it has found was free
      have hfree := hbuf.resolve_left fun hm => slot_not_home hin (hfits.homes _ hm).1
      refine hs.move hi hup hp (fun b hb => write_both (hs.logArea b hb) _ _) hfits
        ⟨hph.returned, hph.durable.write_slot hin _, hph.cached.write_off (slot_not_home hin) _,
          hph.same, fun i hik hilt => ?_, fun _ => hfree⟩
      show update s.disk (s.log.area.slot k) _ (s.log.area.slot i) = _
      by_cases hik' : i = k
      · subst hik'
        simpa using hph.cached _ hhome
      · rw [update_of_ne (slot_ne_slot _ hik')]
        exact hph.copies i (by omega) hilt
  | writeHead =>
    rw [Log.stepCommit, observe, hp]
    refine bread_of (Q := (Safe · h)) ?_ (hs.halt hup _)
    exact hs.move hi hup hp (fun b hb => write_both (hs.logArea b hb) _ _) hfits
      ⟨hph.returned, hph.write_head hs.area hfits _, settled_zero,
        hph.cached.write_off (start_not_home hs.pos) _⟩
  | installTrans k =>
    obtain ⟨hret, hdur, hset, hcache⟩ := hph
    rw [Log.stepCommit, observe, hp]
    cases hk : s.log.lh[k]? with
    | none =>
      have hlen : s.log.lh.length ≤ k := getElem?_eq_none_iff.mp hk
      exact hs.move hi hup hp hs.logArea
        ⟨by simp, Nat.zero_le _⟩
        ⟨hret, ⟨_, hdur⟩, fun b hb => hdur.replay.settled hset hlen hb, hcache⟩
    | some b =>
      obtain ⟨hlt, rfl⟩ := List.getElem?_eq_some_iff.mp hk
      have hin := hdur.fits k hlt
      have hlog : s.cache (s.log.area.slot k) = s.disk (s.log.area.slot k) :=
        hs.logArea _ (slot_not_home hin)
      have hcopy : s.disk (s.log.area.slot k) = h.after h.groups.length s.log.lh[k] :=
        hdur.replay.copies k hlt
      have hd := hdur.install hs.pos hlt
      have hst := hset.install hdur.replay hlt
      rw [← hlog] at hd hst
      refine bread_of (Q := (Safe · h)) ?_ (hs.halt hup _)
      exact hs.move hi hup hp (fun b hb => write_both (hs.logArea b hb) _ _) hfits
        ⟨hret, hd, hst, hcache.write_same fun _ => hlog.trans hcopy⟩
  | eraseHead =>
    obtain ⟨hret, ⟨L, hdur⟩, hin, hcache⟩ := hph
    have hlh := hi.erased p (by rw [hp]; rfl)
    rw [Log.stepCommit, observe, hp, hlh]
    exact hs.move hi hup hp (fun b hb => write_both (hs.logArea b hb) _ _) hfits
      ⟨hret, (Durable.erase hs.pos hin _).history rfl rfl,
        hcache.write_off (start_not_home hs.pos) _⟩
  | returned =>
    obtain ⟨hret, hdur, hcache⟩ := hph
    have hcur := w.quiet hc
    rw [Log.stepCommit, observe, hp]
    refine ⟨hs.area, hs.logArea, hs.fits, fun q b v => hs.pending_goto (.inr rfl) (by simp),
      fun _ _ => ⟨hret, hdur, ?_⟩, fun q c' hqc => ?_, fun r hr => absurd hr (hup r)⟩
    · rw [hcur]; exact hcache
    · by_cases hqp : q = p
      · subst hqp; exact absurd hqc (by simp [State.goto])
      · have hw : wakeup s.pc q = .commit c' := by simpa [State.goto, hqp] using hqc
        have hqin : (s.pc q).inCommit = true := by rw [← wakeup_inCommit, hw]; rfl
        exact absurd (hi.inCommit_unique (by rw [hp]; rfl) hqin) hqp

omit [DecidableEq P] in
/-- **The disk is recoverable at any time**: it determines the contents after all groups whose
`commit()` has returned, and at most one more. -/
theorem durable :
    ∃ j L, h.returned ≤ j ∧ j ≤ h.groups.length ∧ Durable s.log.area s.disk h L j := by
  by_cases hup : s.Up
  · cases hc : s.log.committing with
    | false =>
      have hq := hs.quiet hup hc
      exact ⟨_, _, hq.returned.le, le_rfl, hq.durable⟩
    | true =>
      obtain ⟨p, hp⟩ : ∃ p, (s.pc p).inCommit = true := by
        by_contra hno
        have h0 := hi.committing
        rw [hc, if_pos rfl, count_eq_zero.mpr fun p => by
          simpa using fun hp => hno ⟨p, hp⟩] at h0
        nomatch h0
      cases hpc : s.pc p with
      | commit c =>
        have hph := hs.commit p c hpc
        cases c with
        | start | writeLog k | writeHead =>
          exact ⟨_, _, le_rfl, by have := hph.returned; omega, hph.durable⟩
        | installTrans k => exact ⟨_, _, by have := hph.1; omega, le_rfl, hph.2.1⟩
        | eraseHead =>
          obtain ⟨hret, ⟨L, hdur⟩, _⟩ := hph
          exact ⟨_, L, by omega, le_rfl, hdur⟩
        | returned => exact ⟨_, _, hph.1.le, le_rfl, hph.2.1⟩
      | _ => rw [hpc] at hp; exact absurd hp (by simp [Pc.inCommit])
  · obtain ⟨r, hr⟩ : ∃ r, s.mode = .recovering r := by
      simpa [State.Up] using hup
    obtain ⟨j, L, hrec⟩ := hs.recovering r hr
    exact ⟨j, L, hrec.lo, hrec.hi, hrec.durable⟩

end

omit [DecidableEq P] [Fintype P] in
theorem powerOn {A : Area} {d : Nat → Block} {L : List Nat} (hsize : nbuf ≤ A.size)
    (hlo : h.returned ≤ j) (hhi : j ≤ h.groups.length) (hdur : Durable A d h L j) :
    Safe (Log.powerOn d A.start A.size) h := by
  refine ⟨hsize, fun _ _ => rfl, fun hup => absurd rfl (hup .readHead),
    fun p b v hp => absurd hp (by simp [Log.powerOn]), fun hup => absurd rfl (hup .readHead),
    fun p c hp => absurd hp (by simp [Log.powerOn]), fun r hr => ?_⟩
  obtain rfl : Recovery.readHead = r := by simpa [Log.powerOn] using hr
  exact ⟨j, L, hlo, hhi, hdur, fun _ => rfl, by simp, by simp, by simp⟩

omit [Fintype P] in
theorem evict (hs : Safe s h) (w : Watches s h) (hb : b ∉ s.log.lh) :
    Safe { s with cache := update s.cache b (s.disk b) } h := by
  have hmem := fun hup hnc => w.blocks hup hnc b
  refine ⟨hs.area, fun a ha => ?_, hs.fits, hs.pending, fun hup hnc => ?_, fun p c hp => ?_,
    fun r hr => ?_⟩
  · by_cases hab : a = b
    · subst hab; simp
    · simpa [hab] using hs.logArea a ha
  · have hq := hs.quiet hup hnc
    refine ⟨hq.returned, hq.durable, hq.cached.write_same fun hh => ?_⟩
    rw [applyAll_of_notMem fun hm => hb ((hmem hup hnc).mpr hm)]
    exact hq.durable.replay.eq_of_nil hh
  · -- wherever `commit()` is, a block it does not touch is the same in the cache and on disk
    have hph := hs.commit p c hp
    have hbefore : ∀ k, Before s.log.area s.log.lh s.disk s.cache h k →
        Before s.log.area s.log.lh s.disk (update s.cache b (s.disk b)) h k := fun k hk =>
      ⟨hk.returned, hk.durable, hk.cached.write_same fun hh =>
        (hk.durable.replay.eq_of_nil hh).trans (hk.same b hb).symm, hk.same, hk.copies, hk.small⟩
    cases c with
    | start | writeLog k | writeHead => exact hbefore _ hph
    | installTrans k =>
      exact ⟨hph.1, hph.2.1, hph.2.2.1, hph.2.2.2.write_same fun hh => hph.2.1.replay.rest b hh hb⟩
    | eraseHead => exact ⟨hph.1, hph.2.1, hph.2.2.1, hph.2.2.2.write_same fun hh => hph.2.2.1 b hh⟩
    | returned => exact ⟨hph.1, hph.2.1, hph.2.2.write_same fun hh => hph.2.1.replay.eq_of_nil hh⟩
  · obtain ⟨j, L, hrec⟩ := hs.recovering r hr
    refine ⟨j, L, hrec.lo, hrec.hi, hrec.durable, fun a => ?_, hrec.read, hrec.installed,
      hrec.erased⟩
    by_cases hab : a = b
    · subst hab; simp
    · simpa [hab] using hrec.cached a

omit [DecidableEq P] in
theorem stepRecover (hs : Safe s h) (hi : Inv s) {r : Recovery} (hr : r ≠ .returned)
    (hm : s.mode = .recovering r) : Safe (Log.stepRecover s r) h := by
  obtain ⟨j, L, hrec⟩ := hs.recovering r hm
  have hidle := hi.alone r hm
  have hmk : ∀ (s' : State P) (r' : Recovery) (L' : List Nat), s'.log.area = s.log.area →
      s'.pc = s.pc → s'.mode = .recovering r' →
      Recovering s.log.area s'.log.lh s'.disk s'.cache h r' j L' → Safe s' h := by
    intro s' r' L' harea hpc hr' hrec'
    refine ⟨by rw [harea]; exact hs.area, fun b _ => hrec'.cached b, fun hup => absurd hr' (hup r'),
      fun p b v hp => absurd hp (by simp [hpc, hidle p]), fun hup => absurd hr' (hup r'),
      fun p c hp => absurd hp (by simp [hpc, hidle p]), fun r'' hr'' => ?_⟩
    obtain rfl : r' = r'' := by simpa [hr'] using hr''
    exact ⟨j, L', by rw [harea]; exact hrec'⟩
  cases r with
  | readHead =>
    refine hmk _ (.installTrans 0) L rfl rfl rfl
      ⟨hrec.lo, hrec.hi, hrec.durable, hrec.cached, fun k hk => ⟨?_, ?_⟩, by simp, by simp⟩
    · show readHead (s.cache s.log.start) = L
      rw [hrec.cached]
      exact hrec.durable.head
    · obtain rfl : 0 = k := by simpa using hk
      exact settled_zero
  | installTrans k =>
    obtain ⟨hlh, hset⟩ := hrec.read k rfl
    subst hlh
    rw [Log.stepRecover]
    cases hk : s.log.lh[k]? with
    | none =>
      have hlen : s.log.lh.length ≤ k := getElem?_eq_none_iff.mp hk
      exact hmk _ .writeHead s.log.lh rfl rfl rfl
        ⟨hrec.lo, hrec.hi, hrec.durable, hrec.cached, by simp,
          fun _ b hb => hrec.durable.replay.settled hset hlen hb, by simp⟩
    | some b =>
      obtain ⟨hlt, rfl⟩ := List.getElem?_eq_some_iff.mp hk
      have hd := hrec.durable.install hs.pos hlt
      have hst := hset.install hrec.durable.replay hlt
      rw [← hrec.cached] at hd hst
      refine hmk _ (.installTrans (k + 1)) s.log.lh rfl rfl rfl
        ⟨hrec.lo, hrec.hi, hd, fun b => write_both (hrec.cached b) _ _, fun k' hk' => ⟨rfl, ?_⟩,
          by simp, by simp⟩
      obtain rfl : k + 1 = k' := by simpa using hk'
      exact hst
  | writeHead =>
    have hlh := hi.recovered (Or.inl hm)
    rw [Log.stepRecover, hlh]
    exact hmk _ .returned [] rfl rfl rfl
      ⟨hrec.lo, hrec.hi, Durable.erase hs.pos (hrec.installed rfl) _,
        fun b => write_both (hrec.cached b) _ _, by simp, by simp, fun _ => rfl⟩
  | returned => exact absurd rfl hr

omit [DecidableEq P] in
theorem boot (hs : Safe s h) (hi : Inv s) (hm : s.mode = .recovering .returned) :
    Safe { s with mode := .running }
      { base := s.disk, groups := [], returned := 0, cur := [] } := by
  obtain ⟨j, L, hrec⟩ := hs.recovering _ hm
  have hidle := hi.alone _ hm
  have hlh := hi.recovered (Or.inr hm)
  obtain rfl := hrec.erased rfl
  refine ⟨hs.area, hs.logArea, fun _ => ?_, fun p b v hp => absurd hp (by simp [hidle p]),
    fun _ _ => ⟨rfl, ⟨hrec.durable.head, hrec.durable.fits, Replayable.nil fun b _ => rfl⟩,
      fun b _ => hrec.cached b⟩,
    fun p c hp => absurd hp (by simp [hidle p]), fun r hr => absurd hr (by simp)⟩
  rw [hlh]
  exact ⟨nofun, Nat.zero_le _⟩

end Safe

variable [Fintype P]

/-- **Every action keeps the disk recoverable.** -/
theorem safe_step {s : State P} {h : History P} {a : Act P} (hi : Inv s) (w : Watches s h)
    (hs : Safe s h) (hst : step s a = some s') : Safe s' (observe s h a) := by
  cases a with
  | beginOp p =>
    obtain ⟨hm, _, rfl⟩ := of_beginOp hst
    exact hs.stepBeginOp hi (up_of_running hm)
  | kill p =>
    obtain ⟨_, _, rfl⟩ := of_kill hst
    exact hs.goto rfl nofun
  | logCall p b v =>
    obtain ⟨hm, _, hb, hlt, rfl⟩ := of_logCall hst
    split
    · exact hs.halt (up_of_running hm) _
    · refine hs.goto rfl fun b' v' hbv => ?_
      obtain ⟨rfl, _⟩ : b = b' ∧ v = v' := by simpa using hbv
      exact ⟨hb, hlt⟩
  | logTest p =>
    obtain ⟨b, v, hm, hp, rfl⟩ := of_logTest hst
    split
    · exact hs.halt (up_of_running hm) _
    · refine hs.goto rfl fun b' v' hbv => ?_
      obtain ⟨rfl, _⟩ : b = b' ∧ v = v' := by simpa using hbv
      exact hs.pending p b v (Or.inl hp)
  | logWrite p =>
    obtain ⟨b, v, hm, hp, rfl⟩ := of_logWrite hst
    exact hs.stepLogWrite hi (up_of_running hm) hp
  | endOp p =>
    obtain ⟨hm, hp, rfl⟩ := of_endOp hst
    exact hs.stepEndOp hi w (up_of_running hm) hp
  | commit p =>
    obtain ⟨c, hm, hp, rfl⟩ := of_commit hst
    exact hs.stepCommit hi w (up_of_running hm) hp
  | evict b =>
    obtain ⟨hb, rfl⟩ := of_evict hst
    exact hs.evict w hb
  | crash =>
    obtain rfl := of_crash hst
    obtain ⟨j, L, hlo, hhi, hdur⟩ := hs.durable hi
    exact .powerOn hs.area hlo hhi (hdur.history rfl rfl)
  | recover =>
    obtain ⟨r, hr, hm, rfl⟩ := of_recover hst
    exact hs.stepRecover hi hr hm
  | boot =>
    obtain ⟨hm, rfl⟩ := of_boot hst
    exact hs.boot hi hm

theorem safe_reach {x : State P × History P} (h : (traced P).Reach Any x)
    (hsize : nbuf ≤ x.1.log.size) : Safe x.1 x.2 := by
  induction h with
  | init h =>
    obtain ⟨disk, start, size, _, hhead, rfl⟩ := h
    exact .powerOn (A := ⟨start, size⟩) hsize le_rfl le_rfl
      ⟨hhead, nofun, Replayable.nil fun b _ => rfl⟩
  | step h _ hs ih =>
    obtain ⟨hs, hh⟩ := of_traced hs
    rw [hh]
    refine safe_step (inv_traced h) (watches_reach h) (ih ?_) hs
    exact hsize.trans_eq (congrArg Area.size (step_area hs))

/-! ## Crash atomicity -/

/-- The home blocks are those of the start of the run with a prefix of the groups applied, each
consisting of complete operations, and all those whose `commit()` returned among them. -/
def Atomic (x : State P × History P) : Prop :=
  ∃ j, x.2.returned ≤ j ∧ j ≤ x.2.groups.length ∧
    (∀ b, x.1.log.area.Home b → x.1.disk b = x.2.after j b) ∧ ∀ g ∈ x.2.groups, Complete g

/-- **Crash atomicity.**  On a disk whose log area has `NBUF` blocks or more, in every run and after
any number of crashes anywhere: when `recover_from_log` returns, a prefix of the groups is in
effect. -/
theorem crash_atomicity {x : State P × History P} (h : (traced P).Reach Any x)
    (hsize : nbuf ≤ x.1.log.size) (hm : x.1.mode = .recovering .returned) : Atomic x := by
  obtain ⟨j, L, hrec⟩ := (safe_reach h hsize).recovering _ hm
  obtain rfl := hrec.erased rfl
  exact ⟨j, hrec.lo, hrec.hi, fun b hb => hrec.durable.replay.eq_of_nil hb,
    (watches_reach h).complete⟩

/-- A block all of whose bytes are `1`. -/
def ones : Block := fun _ => 1

/-- One block is logged and the operation ends; the machine crashes when the header is written, and
again in the middle of recovery. -/
def crashTwice : List (Act (Fin 1)) :=
  bootActs ++ [.beginOp 0, .logCall 0 50 ones, .logTest 0, .logWrite 0, .endOp 0, .commit 0,
    .commit 0, .commit 0, .commit 0, .crash, .recover, .recover, .crash] ++
    List.replicate 4 .recover

/-- Recovery has then installed the block. -/
theorem crash_atomicity_twice : ∃ x, (traced (Fin 1)).Reach Any x ∧ Atomic x ∧
    x.2.groups.length = 1 ∧ (x.1.disk 50).byte 0 = 1 := by
  obtain ⟨x, hx, hsize, hm, hg⟩ : ∃ x, (traced (Fin 1)).Reach Any x ∧ nbuf ≤ x.1.log.size ∧
      x.1.mode = .recovering .returned ∧ x.2.groups.length = 1 ∧ (x.1.disk 50).byte 0 = 1 :=
    (Reach.init freshLog_init.1).replay crashTwice (by decide +kernel)
  exact ⟨x, hx, crash_atomicity hx hsize hm, hg⟩

end Log
end Xv6
