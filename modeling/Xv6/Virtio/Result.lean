import Xv6.Virtio.Steps

/-!
# The descriptor protocol in every run

The invariant holds after every step (`Inv.step`), hence in every reachable state.
`virtio_protocol` says what that means for descriptors, completions and sleeping threads.
-/

open Lts

namespace Xv6.Virtio

open List State

variable {T B : Type} [DecidableEq T] [DecidableEq B]

namespace Inv

variable {s s' : State T B} {t : T} (h : Inv s)

include h

/-! ## All steps -/

theorem run (hs : s.run t = some s') : Inv s' := by
  have hfits := h.fits t
  rw [State.run] at hs
  cases hpc : s.pc t with
  | idle | sleepFree | sleepBuf => rw [hpc] at hs; nomatch hs
  | rwAcquire r | wokenFree r | wokenBuf r x | intrAcquire =>
    simp only [hpc] at hs
    exact h.acquire hpc hs ⟨rfl, rfl, rfl, rfl⟩ rfl trivial
  | rwAlloc r =>
    rw [hpc] at hs
    obtain ⟨x, he, hn, hx⟩ | ⟨s1, he, h3, hr⟩ := s.alloc3Desc_spec
    · simp only [he] at hs
      exact Option.some.inj hs ▸ h.alloc hpc hn hx
    · simp only [he] at hs
      exact Option.some.inj hs ▸ h.starve hpc h3 hr
  | rwFill r x => rw [hpc] at hs; exact Option.some.inj hs ▸ h.fill hpc
  | rwPublish r x => rw [hpc] at hs; exact Option.some.inj hs ▸ h.publish hpc
  | rwTest r x =>
    simp only [hpc] at hs
    by_cases hf : s.flag r.b = true
    · rw [if_pos hf] at hs
      cases hs
      exact h.release hpc ⟨rfl, rfl, rfl, rfl⟩ rfl rfl hf
    · rw [if_neg hf] at hs
      cases hs
      exact h.goto hpc ⟨rfl, rfl, rfl, rfl⟩ rfl (Bool.eq_false_iff.mpr hf)
  | rwFree r x =>
    obtain ⟨s1, he, hinv⟩ := h.free hpc
    simp only [hpc, he] at hs
    exact Option.some.inj hs ▸ hinv
  | rwRelease | intrAck =>
    simp only [hpc] at hs
    cases hs
    exact h.release hpc ⟨rfl, rfl, rfl, rfl⟩ rfl rfl trivial
  | intrTest =>
    simp only [hpc] at hs
    by_cases hf : s.usedIdx % num = s.used.nwrite % num
    · rw [if_neg (not_not.mpr hf)] at hs
      cases hs
      exact h.goto hpc ⟨rfl, rfl, rfl, rfl⟩ rfl trivial
    · rw [if_pos hf] at hs
      cases hs
      refine h.goto hpc ⟨rfl, rfl, rfl, rfl⟩ rfl ?_
      exact Bool.eq_false_iff.mpr (mt h.loop_iff.mpr hf)
  | intrBody => rw [hpc] at hs; exact Option.some.inj hs ▸ h.intrBody hpc

theorem step [Fintype T] {a : Action T B} (hs : s.step a = some s') : Inv s' := by
  unfold State.step at hs
  split at hs
  · nomatch hs
  · cases a with
    | rw t r =>
      dsimp only at hs
      split at hs
      · rename_i hpc
        split at hs
        · rename_i hr
          exact Option.some.inj hs ▸ h.call hpc hr
        · nomatch hs
      · nomatch hs
    | intr t =>
      dsimp only at hs
      split at hs
      · rename_i hpc
        cases hs
        exact h.goto hpc ⟨rfl, rfl, rfl, rfl⟩ rfl trivial
      · nomatch hs
    | run t => exact h.run hs
    | fetch => exact h.fetch hs
    | complete head status => exact h.complete hs
    | wake t =>
      dsimp only at hs
      split at hs
      · rename_i hpc
        cases hs
        exact h.goto hpc ⟨rfl, rfl, rfl, rfl⟩ rfl trivial
      · rename_i hpc
        cases hs
        exact h.goto hpc ⟨rfl, rfl, rfl, rfl⟩ rfl trivial
      · nomatch hs

end Inv

/-! ## The protocol -/

variable [Fintype T]

omit [DecidableEq T] [Fintype T] [DecidableEq B] in
theorem inv_start : Inv (start T B) := by
  have hlen : (Fifo.mk (fun _ => 0) 0 0 : Fifo Nat).len idxSize = 0 := by
    rw [Fifo.len, Nat.sub_zero, Nat.zero_add, Nat.mod_self]
  have hcont : (Fifo.mk (fun _ => 0) 0 0 : Fifo Nat).contents num idxSize = [] := by
    rw [Fifo.contents, hlen, range_zero, map_nil]
  have hok : (Fifo.mk (fun _ => 0) 0 0 : Fifo Nat).Ok num idxSize :=
    ⟨by decide, by decide, hlen.trans_le (Nat.zero_le _)⟩
  have hq : (start T B).queue = [] := by
    rw [queue, start, hcont]
    rfl
  exact {
    lock _ := iff_of_false Bool.false_ne_true (by rintro ⟨⟩)
    bufs _ _ _ := by rintro ⟨⟩
    chain _ _ := by rintro ⟨⟩
    disjoint _ _ _ _ _ := by rintro ⟨⟩
    owner i hi hf := by
      rw [start, decide_eq_false_iff_not] at hf
      exact absurd hi hf
    format _ _ _ := by rintro ⟨⟩
    fits _ := trivial
    nodup := hq ▸ nodup_nil
    queued i hi := by rw [hq] at hi; cases hi
    flagged _ _ _ := by rintro ⟨⟩
    avail := hok
    used := hok
    usedIdx := rfl
    history := by rw [start, hcont]; rfl
    stopped := .inl rfl }

theorem inv_of_reach {s : State T B} (h : (driver T B).Reach System.Any s) : Inv s :=
  h.inv (by rintro _ rfl; exact inv_start) fun _ _ _ hi _ hs => hi.step hs

omit [DecidableEq T] [Fintype T] [DecidableEq B] in
/-- What is in the `used` ring and not handled yet, by buffers. -/
theorem Inv.unhandled {s : State T B} (h : Inv s) : ∃ rest, s.completed = s.cleared ++ rest ∧
    rest.map some = (s.used.contents num idxSize).map s.info := by
  obtain ⟨a, rest, hc, ha, hr⟩ := map_eq_append_iff.mp h.history
  rw [map_inj_right fun _ _ => Option.some.inj] at ha
  exact ⟨rest, ha ▸ hc, hr⟩

omit [Fintype T] in
/-- A pass through the loop of `virtio_disk_intr`. -/
theorem Inv.pass {s : State T B} (h : Inv s) {t : T} (hpc : s.pc t = .intrBody)
    (hst : s.status (s.used.data s.usedIdx) = 0) :
    ∃ b, s.completed[s.cleared.length]? = some b ∧ (s.intrBody t).cleared = s.cleared ++ [b] ∧
      (s.intrBody t).flag = Function.update s.flag b false ∧
      (s.intrBody t).usedIdx = (s.usedIdx + 1) % num ∧ (s.intrBody t).pc t = .intrTest ∧
      ∀ u, u ≠ t → (s.intrBody t).pc u = (s.pc u).wakeBuf b := by
  have he : s.used.isEmpty = false := by
    have := h.fits t
    rwa [hpc] at this
  obtain ⟨v, r, x, -, hid, hinfo, -, hcont⟩ := h.next he
  obtain ⟨rest, hc, hr⟩ := h.unhandled
  have hbody : s.intrBody t = ({ s with
      flag := Function.update s.flag r.b false
      usedIdx := (s.usedIdx + 1) % num
      used := (s.used.pop num idxSize).2
      cleared := s.cleared ++ [r.b] }.wakeBuf r.b).goto t .intrTest := by
    rw [hid] at hst
    simp only [State.intrBody, hid, hst, hinfo, ne_eq, not_true_eq_false, if_false]
  rw [hbody]
  refine ⟨r.b, ?_, rfl, rfl, rfl, Function.update_self .., fun u hu => Function.update_of_ne hu ..⟩
  rw [hcont, map_cons, hinfo] at hr
  obtain ⟨b, rest', rfl, hb, -⟩ := map_eq_cons_iff.mp hr
  rw [hc, getElem?_append_right (Nat.le_refl _), Nat.sub_self, ← Option.some.inj hb]
  rfl

/-- **The descriptor protocol.**  In every state of every run:

* every descriptor is free or belongs to exactly one chain of three;
* no three threads have a chain at the same time;
* what the device has completed is what `virtio_disk_intr` has handled, in the same order and buffer
  by buffer, and at most two more; the loop sees whether there are more, and the next entry it
  handles is that of the oldest of them, whose flag is still set;
* to handle it is to clear this flag and no other, to count it and to wake up the thread that waits
  for this buffer, unless the device has reported an error;
* the device finds a well-formed chain for every request it has fetched;
* the only panic is that for a request that the device reports as failed;
* no thread sleeps for descriptors while three are free. -/
theorem virtio_protocol {s : State T B} (h : (driver T B).Reach System.Any s) : (∀ i, i < num →
      (s.free i = true ∧ ∀ t x, (s.pc t).idx = some x → i ∉ x.list) ∨
      (s.free i = false ∧ ∃! t, ∃ x, (s.pc t).idx = some x ∧ i ∈ x.list ∧ x.list.Nodup)) ∧
    (∀ t u v, (s.pc t).idx ≠ none → (s.pc u).idx ≠ none → (s.pc v).idx ≠ none → t = u ∨
      t = v ∨ u = v) ∧
    (∃ rest, s.completed = s.cleared ++ rest ∧ rest.length ≤ 2 ∧
      (s.usedIdx % num ≠ s.used.nwrite % num ↔ rest ≠ []) ∧
      ∀ b rest', rest = b :: rest' → s.info (s.used.data s.usedIdx) = some b ∧ s.flag b = true) ∧
    (∀ t, s.stopped = none → s.pc t = .intrBody → s.status (s.used.data s.usedIdx) = 0 →
      ∃ b s', s.completed[s.cleared.length]? = some b ∧ (driver T B).step s (.run t) = some s' ∧
        s'.completed = s.completed ∧ s'.cleared = s.cleared ++ [b] ∧
        s'.flag = Function.update s.flag b false ∧ s'.usedIdx = (s.usedIdx + 1) % num ∧
        s'.pc t = .intrTest ∧ ∀ u, u ≠ t → s'.pc u = (s.pc u).wakeBuf b) ∧
    (∀ head ∈ s.pending, ∀ status, s.complete head status ≠ none) ∧
    (s.stopped = none ∨ s.stopped = some .status) ∧
    (State.ThreeFree s.free → ∀ t r, s.pc t ≠ .sleepFree r) := by
  have hinv := inv_of_reach h
  refine ⟨fun i hi => ?_, fun t u v ht hu hv => ?_, ?_, fun t hs hpc hst => ?_,
    fun head hh status => ?_, hinv.stopped, fun h3 t r hpc => ?_⟩
  · cases hf : s.free i with
    | true =>
      refine .inl ⟨rfl, fun t x ht hx => ?_⟩
      have := ((hinv.chain t x ht).2 i hx).2
      simp [hf] at this
    | false =>
      obtain ⟨t, x, ht, hx⟩ := hinv.owner i hi hf
      refine .inr ⟨rfl, t, ⟨x, ht, hx, (hinv.chain t x ht).1⟩, ?_⟩
      rintro u ⟨y, hu, hy, -⟩
      exact hinv.disjoint u t y x i hu ht hy hx
  · obtain ⟨x, hx⟩ := Option.ne_none_iff_exists'.mp ht
    obtain ⟨y, hy⟩ := Option.ne_none_iff_exists'.mp hu
    obtain ⟨z, hz⟩ := Option.ne_none_iff_exists'.mp hv
    by_contra hne
    obtain ⟨h1, h2, h3⟩ : t ≠ u ∧ t ≠ v ∧ u ≠ v := by simpa [not_or] using hne
    exact hinv.not_three hx hy hz h1 h2 h3
  · obtain ⟨rest, hc, hr⟩ := hinv.unhandled
    have hlen : rest.length = s.used.len idxSize := by
      rw [← length_map some, hr, length_map, Fifo.length_contents]
    have hnil : rest = [] ↔ s.used.isEmpty = true := by
      rw [← length_eq_zero_iff, hlen, Fifo.len_eq_zero_iff hinv.used.nread hinv.used.nwrite,
        Fifo.isEmpty, decide_eq_true_iff]
    refine ⟨rest, hc, hlen ▸ hinv.used_le, not_congr (hinv.loop_iff.trans hnil.symm),
      fun b rest' he => ?_⟩
    have hne : s.used.isEmpty = false := by
      rw [← Bool.not_eq_true, ← hnil, he]
      rintro ⟨⟩
    obtain ⟨u, r, x, -, hid, hinfo, hflag, hcont⟩ := hinv.next hne
    rw [he, hcont, map_cons, map_cons, hinfo] at hr
    obtain rfl := Option.some.inj (List.cons.inj hr).1
    exact ⟨hid ▸ hinfo, hflag⟩
  · obtain ⟨b, hb, hcleared, hflag, hidx, hself, hother⟩ := hinv.pass hpc hst
    refine ⟨b, s.intrBody t, hb, ?_, ?_, hcleared, hflag, hidx, hself, hother⟩
    · change s.step (.run t) = _
      rw [State.step, if_neg (not_not.mpr hs)]
      simp only [State.run, hpc]
    · rw [State.intrBody]
      split
      · rfl
      · split <;> rfl
  · have hqueue : head ∈ s.queue := mem_append_left _ (mem_append_right _ hh)
    obtain ⟨t, r, x, ht, rfl, -⟩ := hinv.queued head hqueue
    obtain ⟨h0, h1, h2, -⟩ := hinv.format t r x (Pc.formatted_of_published ht)
    have hnext0 : (s.desc x.i0).next = x.i1 := by rw [h0]; rfl
    rw [complete, if_pos hh]
    simp only [hnext0, h1, h2, data, result]
    rintro ⟨⟩
  · have := hinv.fits t
    rw [hpc] at this
    exact this h3

/-- One thread reads a block and sleeps; another takes the interrupt, up to the body of the loop. -/
def oneRequest : List (Action (Fin 2) Nat) :=
  .rw 0 ⟨5, 3, false⟩ :: replicate 5 (.run 0) ++ [.fetch, .complete 0 0, .intr 1, .run 1, .run 1]

/-- The next step clears the flag and wakes up the first thread. -/
theorem virtio_protocol_oneRequest : ∃ s s', (driver (Fin 2) Nat).Reach System.Any s ∧
    (driver (Fin 2) Nat).step s (.run 1) = some s' ∧ s.flag 5 = true ∧ s'.flag 5 = false ∧
    s.completed = [5] ∧ s'.cleared = [5] ∧ s'.pc 0 = .wokenBuf ⟨5, 3, false⟩ ⟨0, 1, 2⟩ := by
  obtain ⟨s, hreach, hc, hcl, hs, hst, hp0, hp1⟩ : ∃ s, (driver (Fin 2) Nat).Reach System.Any s ∧
      s.completed = [5] ∧ s.cleared = [] ∧ s.stopped = none ∧
      s.status (s.used.data s.usedIdx) = 0 ∧ s.pc 0 = .sleepBuf ⟨5, 3, false⟩ ⟨0, 1, 2⟩ ∧
      s.pc 1 = .intrBody :=
    (System.Reach.init rfl).replay oneRequest (by decide +kernel)
  obtain ⟨-, -, ⟨rest, hrest, -, -, hnext⟩, hpass, -⟩ := virtio_protocol hreach
  rw [hc, hcl, nil_append] at hrest
  obtain ⟨b, s', hb, hstep, -, hcleared, hflag, -, -, hother⟩ := hpass 1 hs hp1 hst
  obtain rfl : 5 = b := by simpa [hc, hcl] using hb
  refine ⟨s, s', hreach, hstep, (hnext 5 [] hrest.symm).2, ?_, hc, by rw [hcleared, hcl]; rfl, ?_⟩
  · rw [hflag, Function.update_self]
  · rw [hother 0 (by decide), hp0]
    rfl

end Xv6.Virtio
