import Xv6.Dir.Invariant

/-!
# Every step keeps the invariant

One case per command.  A command is given by the context of the process before it, by what the
discipline says about that context, and by what the machine does; the result is a context
afterwards with which the invariant holds again.
-/

namespace Xv6.Dir

open Lts Multigraph Code Option
open Function (update update_self update_of_ne update_idem update_eq_self)

variable {P α : Type} [Fintype P] [DecidableEq P] {n : Nat} {b : Bool} {s s' : State P}
  {x : P → Ctx} {p : P} {o : Choice} {y : Ctx}
variable {k : Unit → K Unit} {d i : Nat} {Q : Unit → Ctx → Prop}

/-- After a command the machine has stopped, but not in `ilock`, or the process goes on with an
answer and a context that satisfy `Q`. -/
def Lands (n : Nat) (b : Bool) (s : State P) (x : P → Ctx) (p : P) {α : Type} (k : α → K Unit)
    (Q : α → Ctx → Prop) (s' : State P) : Prop :=
  (∃ m, m ≠ .ilockNoType ∧ s' = s.halt m) ∨
    ∃ r y t, Q r y ∧ Inv n b t (update x p y) ∧ t.thread = s.thread ∧ t.halted = s.halted ∧
      s' = t.goto p (k r)

theorem Lands.go {k : α → K Unit} {Q : α → Ctx → Prop} {r : α} {t : State P} (hQ : Q r y)
    (h : Inv n b t (update x p y)) (h1 : t.thread = s.thread) (h2 : t.halted = s.halted)
    (hs : some (t.goto p (k r)) = some s') : Lands n b s x p k Q s' :=
  .inr ⟨r, y, t, hQ, h, h1, h2, (some.inj hs).symm⟩

theorem Lands.stay {k : α → K Unit} {Q : α → Ctx → Prop} {r : α} (h : Inv n b s x) (hQ : Q r (x p))
    (hs : some (s.goto p (k r)) = some s') : Lands n b s x p k Q s' :=
  .go hQ (by rwa [update_eq_self]) rfl rfl hs

namespace Inv

variable (h : Inv n b s x) {name : Name}

include h

theorem step_iget (hs : spec (.iget i) (x p) Q) (hst : stepCmd n s p o (.iget i) k = some s') :
    Lands n b s x p k Q s' := by
  obtain ⟨hi, hQ⟩ := hs
  refine .go hQ (h.get ?_) rfl rfl hst
  rcases hi with rfl | ⟨t, hj⟩
  · exact h.gettable_of_indeg (by simp [h.graph.root.1]) h.graph.root.2 (.inl rfl)
  · have hf : (x p).job.fresh = some i := by rw [hj]; rfl
    have hok : s.node i = ⟨t, 0, []⟩ ∧ t ≠ .free := by
      have := h.jobs.ok p
      rwa [show Dir.jobs x p = _ from hj] at this
    have hfree : ∀ q, (x q).freeing ≠ some i := by
      intro q hq
      obtain rfl := (h.table.touch q i (.inr (.inr hq))).2 p hf
      exact (h.table.freeing p i hq).2.2.2 hf
    refine ⟨by rw [hok.1]; exact hok.2, fun q hq => h.jobs.apart q p i hq hf, hfree, fun he => ?_⟩
    obtain ⟨q, hq, -⟩ := h.remover he
    rcases hq with hq | hq
    · exact h.jobs.dying q i hq ⟨p, hf⟩
    · exact hfree q hq

theorem step_idupCwd {k : Nat → K Unit} {Q : Nat → Ctx → Prop}
    (hs : spec .idupCwd (x p) Q) (hst : stepCmd n s p o .idupCwd k = some s') :
    Lands n b s x p k Q s' := by
  rw [stepCmd] at hst
  split at hst
  · rename_i i hi
    exact .go (hs i) (h.get (h.gettable_of_uses (h.table.cwd p i hi) (Table.uses_cwd hi)))
      rfl rfl hst
  · nomatch hst

theorem step_ilock (hs : spec (.ilock i) (x p) Q) (hst : stepCmd n s p o (.ilock i) k = some s') :
    Lands n b s x p k Q s' := by
  obtain ⟨hh, hQ⟩ := hs
  have hk := (h.table.touch p i (.inl hh)).1
  rw [stepCmd] at hst
  split at hst
  · rename_i hl
    rw [if_neg fun hf => hk hf.2] at hst
    refine .go (hQ (h.view_eq_none hl) _ hk fun t hj => ?_)
      (h.calm (h.table.acquire hh hl) rfl rfl rfl (.inl rfl)) rfl rfl hst
    have := h.jobs.ok p
    rw [show Dir.jobs x p = _ from hj] at this
    exact this.1
  · nomatch hst

theorem step_iunlock (hs : spec (.iunlock i) (x p) Q)
    (hst : stepCmd n s p o (.iunlock i) k = some s') :
    Lands n b s x p k Q s' := by
  obtain ⟨hv, hp, hQ⟩ := hs
  exact .go hQ (h.calm (h.table.release hv hp) rfl rfl rfl (.inl rfl)) rfl rfl hst

theorem step_iputTest {k : Bool → K Unit} {Q : Bool → Ctx → Prop} (hs : spec (.iputTest i) (x p) Q)
    (hst : stepCmd n s p o (.iputTest i) k = some s') :
    Lands n b s x p k Q s' := by
  obtain ⟨hh, hv1, hfr, hp, hf, hd, hQ0, hQ1⟩ := hs
  -- the directory that is given back is the removed one, if any
  have hgone : (x p).job.dying = some i → (x p).job = .gone i := by
    intro hdy
    cases hj : (x p).job with
    | erased l up b =>
      rw [hj] at hdy hp
      cases b with
      | true =>
        cases hdy
        exact absurd List.mem_cons_self hp
      | false => nomatch hdy
    | gone l =>
      rw [hj] at hdy
      rw [some.inj hdy]
    | none | link | alloc | made =>
      rw [hj] at hdy
      nomatch hdy
  have hjob : (((x p).put i).settle i).job = (x p).job ∨
      ∃ l, (x p).job = .gone l ∧ (((x p).put i).settle i).job = .none := by
    by_cases hdy : (x p).job.dying = some i
    · exact .inr ⟨i, hgone hdy, if_pos hdy⟩
    · exact .inl (if_neg hdy)
  rw [stepCmd] at hst
  split at hst
  · rename_i hcond
    split at hst
    · rename_i hl
      have hv := h.view_eq_none (p := p) hl
      exact .go (hQ1 hv) (h.calm (h.table.startFree hh hfr hf hcond.1 hcond.2.2 hl hv) rfl rfl rfl
        hjob) rfl rfl hst
    · nomatch hst
  · rename_i hcond
    have hex : ¬ Exempt n s i := by
      intro he
      have hdy := h.dying_of_held he hh
      exact hcond ⟨he.2.1, h.table.valid p i (.inr hdy), h.nlink_gone he (hgone hdy)⟩
    refine .go hQ0 (h.quiet (h.table.put hh hv1 hf ?_ ?_) rfl hjob fun d he => ?_) rfl rfl hst
    · intro q hq
      split
      · exact update_of_ne hq ..
      · rfl
    · intro j hj
      split at hj
      · simp at hj
      · rename_i hne
        exact ⟨hj, fun hji => hne (hji ▸ hj)⟩
    · have hdi : d ≠ i := by
        rintro rfl
        exact hex he
      refine he.mono (fun q hq => ?_) (update_of_ne hdi ..) fun k _ h1 h2 => ⟨h1, h2⟩
      dsimp only
      split
      · rename_i hri
        rw [update_of_ne]
        · exact hq
        · rintro rfl
          exact hdi (some.inj (hq.symm.trans hri))
      · exact hq

theorem step_ifree (hs : spec (.ifree i) (x p) Q) (hst : stepCmd n s p o (.ifree i) k = some s') :
    Lands n b s x p k Q s' := by
  obtain ⟨hf, hd, hQ⟩ := hs
  refine .go hQ (h.free hf hd ?_ ?_ ?_) rfl rfl hst
  · intro q hq
    split
    · exact update_of_ne hq ..
    · rfl
  · intro j hj
    split at hj
    · simp at hj
    · rename_i hne
      exact ⟨hj, fun hji => hne (hji ▸ hj)⟩
  · intro j hji hj
    rw [if_neg]
    · exact hj
    · exact fun hi => hji (some.inj (hj.symm.trans hi))

theorem step_iputDrop (hs : spec (.iputDrop i) (x p) Q)
    (hst : stepCmd n s p o (.iputDrop i) k = some s') :
    Lands n b s x p k Q s' := by
  obtain ⟨hd, hQ⟩ := hs
  refine .go hQ (h.quiet (h.table.drop hd) rfl (.inl rfl) fun d he => ?_) rfl rfl hst
  refine he.mono (fun _ h => h) (update_of_ne ?_ ..) fun k _ h1 h2 => ⟨h1, h2⟩
  -- the reference that is dropped would be a second one
  rintro rfl
  obtain ⟨q, hq, h1, -, h3⟩ := h.remover he
  have hp : (x p).refs d ≠ 0 := by simp [Ctx.refs, hd]
  obtain rfl : q = p := by
    by_contra hne
    exact hp (h1 p (Ne.symm hne))
  rw [Ctx.refs, hd, if_pos rfl] at h3
  rcases hq with hq | hq
  · have := (h.table.ok q).dying d hq
    omega
  · rw [if_pos hq] at h3
    omega

theorem step_dirlookup {k : Option (Nat × Nat) → K Unit} {Q : Option (Nat × Nat) → Ctx → Prop}
    (hs : spec (.dirlookup d name) (x p) Q) (hst : stepCmd n s p o (.dirlookup d name) k = some s')
    : Lands n b s x p k Q s' := by
  obtain ⟨nd, hh, hv, hdy, hf, hQ⟩ := hs
  obtain rfl : s.node d = nd := h.table.view p d nd hv
  rw [stepCmd] at hst
  split at hst
  · rename_i hk
    have hQ := hQ hk
    split at hst
    · rename_i i off hl
      rw [hl] at hQ
      exact .go hQ.2 (h.get (h.gettable_of_lookup hh hk hQ.1 hdy hf hl)) rfl rfl hst
    · rename_i hl
      rw [hl] at hQ
      exact .stay h hQ hst
  · exact .inl ⟨.dirlookupNotDir, nofun, (some.inj hst).symm⟩

theorem step_direrase {off : Nat} (hs : spec (.direrase d off i) (x p) Q)
    (hst : stepCmd n s p o (.direrase d off i) k = some s') : Lands n b s x p k Q s' := by
  obtain ⟨nd, m, name, -, -, hv, hk, he, h0, h1, h2, hvi, hm, hj, hf, hdi, hQ⟩ := hs
  have hI := h.erase hv hk he h0 h1 h2 hvi hm hj hf hdi
  obtain rfl : s.node d = nd := h.table.view p d nd hv
  obtain rfl : s.node i = m := h.table.view p i m hvi
  exact .go hQ hI rfl rfl hst

theorem step_ialloc {t : Kind} {k : Nat → K Unit} {Q : Nat → Ctx → Prop}
    (hs : spec (.ialloc t) (x p) Q) (hst : stepCmd n s p o (.ialloc t) k = some s') :
    Lands n b s x p k Q s' := by
  obtain ⟨hj, ht, hQ⟩ := hs
  rw [stepCmd] at hst
  split at hst
  · rename_i hi
    exact .go (hQ o.inum (Nat.ne_of_gt hi.1)) (h.alloc hi.2.2 (Nat.ne_of_gt hi.1) hi.2.1 ht hj)
      rfl rfl hst
  · nomatch hst

theorem step_takeCwd {k : Nat → K Unit} {Q : Nat → Ctx → Prop} (hs : spec .takeCwd (x p) Q)
    (hst : stepCmd n s p o .takeCwd k = some s') : Lands n b s x p k Q s' := by
  rw [stepCmd] at hst
  split at hst
  · rename_i i hi
    exact .go (hs i) (h.calm (h.table.takeCwd hi) rfl rfl rfl (.inl rfl)) rfl rfl hst
  · nomatch hst

theorem step_setCwd {k : Nat → K Unit} {Q : Nat → Ctx → Prop} (hs : spec (.setCwd i) (x p) Q)
    (hst : stepCmd n s p o (.setCwd i) k = some s') :
    Lands n b s x p k Q s' := by
  obtain ⟨hh, hv, hj, hQ⟩ := hs
  rw [stepCmd] at hst
  split at hst
  · rename_i j hc
    exact .go (hQ j) (h.calm (h.table.setCwd hh hv hj hc) rfl rfl rfl (.inl rfl)) rfl rfl hst
  · nomatch hst

theorem step_openFile {k : Bool → K Unit} {Q : Bool → Ctx → Prop} (hs : spec (.openFile i) (x p) Q)
    (hst : stepCmd n s p o (.openFile i) k = some s') :
    Lands n b s x p k Q s' := by
  obtain ⟨hh, hv, hj, hQ0, hQ1⟩ := hs
  rw [stepCmd] at hst
  split at hst
  · exact .go hQ1 (h.calm (h.table.openFile hh hv hj) rfl rfl rfl (.inl rfl)) rfl rfl hst
  · exact .stay h hQ0 hst

theorem step_takeFile {j : Nat} {k : Option Nat → K Unit} {Q : Option Nat → Ctx → Prop}
    (hs : spec (.takeFile j) (x p) Q) (hst : stepCmd n s p o (.takeFile j) k = some s') :
    Lands n b s x p k Q s' := by
  rw [stepCmd] at hst
  split at hst
  · rename_i i hi
    exact .go (hs.2 i) (h.calm (h.table.takeFile hi) rfl rfl rfl (.inl rfl)) rfl rfl hst
  · exact .stay h hs.1 hst

theorem step_nlinkInit (hs : spec (.nlinkInit i) (x p) Q)
    (hst : stepCmd n s p o (.nlinkInit i) k = some s') :
    Lands n b s x p k Q s' := by
  obtain ⟨nd, t, hv, hj, hh, hQ⟩ := hs
  obtain rfl : s.node i = nd := h.table.view p i nd hv
  obtain ⟨hnd, ht⟩ : s.node i = ⟨t, 0, []⟩ ∧ t ≠ .free := by
    have := h.jobs.ok p
    rwa [show Dir.jobs x p = _ from hj] at this
  refine .go hQ (h.relink hv hj (by cases b <;> decide) rfl nofun (fun _ => Iff.rfl)
    (fun l hl => ?_) ?_ (fun l hl => ?_) ⟨?_, nofun⟩ nofun (.inl Nat.one_pos)) rfl rfl hst
  · obtain rfl := List.mem_singleton.mp hl
    simp [hv]
  · rw [hnd]
    simp [Job.owed]
  · simp [Job.owed, hl]
  · rw [hnd]
    exact ht

theorem step_nlinkInc (hs : spec (.nlinkInc i) (x p) Q) (ha : Allowed n b s (.nlinkInc i))
    (hst : stepCmd n s p o (.nlinkInc i) k = some s') : Lands n b s x p k Q s' := by
  obtain ⟨nd, j, hv, hh, hc, hQ⟩ := hs
  obtain rfl : s.node i = nd := h.table.view p i nd hv
  obtain ⟨hlim, hpos⟩ := ha
  have hinc : inc16 (s.node i).nlink = (s.node i).nlink + 1 :=
    Nat.mod_eq_of_lt (hlim.trans_le (limit_le b))
  have hkf := (h.table.touch p i (.inl hh)).1
  suffices hI : Inv n b (s.set i { s.node i with nlink := inc16 (s.node i).nlink })
      (update x p { (x p).see i { s.node i with nlink := inc16 (s.node i).nlink } with
        job := j }) from .go (hQ _) hI rfl rfl hst
  cases hc with
  | link hj hk =>
    refine h.relink hv hj (hinc ▸ hlim) rfl (by simp) (fun _ => Iff.rfl) (by rintro _ ⟨⟩)
      ?_ (fun l hl => ?_) ⟨hkf, hk⟩ (by simp) (.inl (by omega))
    · simp [Job.owed, hinc]
    · simp [Job.owed, hl]
  | made l m hj hil hk hm hd =>
    obtain rfl : s.node l = m := h.table.view p l m hm
    have hlf := (h.table.touch p l (.inr (.inl (by simp [hm])))).1
    refine h.relink hv hj (hinc ▸ hlim) rfl (by simp) (fun _ => Iff.rfl)
      (fun e he => ?_) ?_ (fun e he => ?_) ⟨hlf, fun e he => ?_⟩ (fun hb e d he => ?_)
      (.inl (by omega))
    · rcases List.mem_cons.mp he with rfl | he
      · simp [hm]
      · obtain rfl : e = i := by simpa using he
        simp [hv]
    · simp [Job.owed, hinc, hil]
    · simp [Job.owed, Ne.symm he]
    · cases he
      exact ⟨hd, hk⟩
    · obtain ⟨rfl, rfl⟩ : l = e ∧ i = d := by simpa using he
      refine h.linked_of_nlink (p := p) hb hk (hpos hb hk) (by simp [hv]) fun hpin => ?_
      rw [hj] at hpin
      exact absurd (List.mem_singleton.mp hpin) hil

theorem step_nlinkDec (hs : spec (.nlinkDec i) (x p) Q) (ha : Allowed n b s (.nlinkDec i))
    (hst : stepCmd n s p o (.nlinkDec i) k = some s') : Lands n b s x p k Q s' := by
  obtain ⟨nd, j, hv, hh, hc, hQ⟩ := hs
  obtain rfl : s.node i = nd := h.table.view p i nd hv
  have hkf := (h.table.touch p i (.inl hh)).1
  have hok := h.jobs.ok p
  -- the link that is given up has been counted
  have hpos : 0 < (s.node i).nlink := by
    have howed : 0 < (x p).job.owed i := by
      cases hc with
      | link hj | up l c hj | erased c hj => simp [hj, Job.owed]
    have h1 : 0 < owed (Dir.jobs x) i := owed_pos (p := p) howed
    have h2 := h.graph.counts i hkf
    rw [total] at h2
    omega
  have hshort := h.graph.short i hkf
  have hdec : dec16 (s.node i).nlink = (s.node i).nlink - 1 := by
    have := limit_le b
    rw [dec16]
    omega
  have hpar : 0 < dec16 (s.node i).nlink ∨ ∀ d, (s.node d).kind = .dir → ¬ Fresh (Dir.jobs x) d →
      up (s.node d).ents = some i → Exempt n s d := by
    by_cases hz : (s.node i).nlink = 1
    · exact .inr fun d hd hF hu => h.exempt_of_allowed ha hz hd hF hu
    · exact .inl (by omega)
  suffices hI : Inv n b (s.set i { s.node i with nlink := dec16 (s.node i).nlink })
      (update x p { (x p).see i { s.node i with nlink := dec16 (s.node i).nlink } with
        job := j }) from .go (hQ _) hI rfl rfl hst
  cases hc with
  | link hj =>
    refine h.relink hv hj (by omega) rfl (by simp) (fun _ => Iff.rfl) (by rintro _ ⟨⟩)
      ?_ (fun l hl => ?_) trivial (by simp) hpar
    · simp [Job.owed]
      omega
    · simp [Job.owed, hl]
  | up l c hj =>
    rw [show Dir.jobs x p = _ from hj] at hok
    refine h.relink hv hj (by omega) rfl (by simp) (by intro e; cases c <;> rfl)
      (fun e he => ?_) ?_ (fun e he => ?_) ⟨hok.1, by simp, hok.2.2⟩ (by simp) hpar
    · refine (h.table.ok p).pins e ?_
      rw [hj]
      obtain rfl := List.mem_singleton.mp he
      exact List.mem_cons_self
    · simp [Job.owed]
      omega
    · simp [Job.owed, Ne.symm he]
  | erased c hj =>
    rw [show Dir.jobs x p = _ from hj] at hok
    cases c with
    | true =>
      refine h.relink hv hj (by omega) rfl (by simp) (fun _ => Iff.rfl) (by rintro _ ⟨⟩)
        ?_ (fun l hl => ?_) hok.2.2 (by simp) hpar
      · simp [Job.owed]
        omega
      · simp [Job.owed, hl]
    | false =>
      refine h.relink hv hj (by omega) rfl (by simp) (fun _ => Iff.rfl) (by rintro _ ⟨⟩)
        ?_ (fun l hl => ?_) trivial (by simp) hpar
      · simp [Job.owed]
        omega
      · simp [Job.owed, hl]

theorem step_dirwrite (hs : spec (.dirwrite d name i) (x p) Q)
    (ha : Allowed n b s (.dirwrite d name i))
    (hst : stepCmd n s p o (.dirwrite d name i) k = some s') : Lands n b s x p k Q s' := by
  obtain ⟨nd, j, hh, hv, hdy, hf, hw, hQ⟩ := hs
  obtain rfl : s.node d = nd := h.table.view p d nd hv
  suffices hI : Inv n b (s.set d { s.node d with ents := insert (s.node d).ents ⟨i, name⟩ })
      (update x p { (x p).see d
        { s.node d with ents := insert (s.node d).ents ⟨i, name⟩ } with job := j }) from
    .go hQ hI rfl rfl hst
  have hok := h.jobs.ok p
  have hvd : (x p).view d ≠ none := by simp [hv]
  have h0 := (h.graph.bound d (h.table.touch p d (.inl hh)).1).1
  cases hw with
  | dot up hj he hn hi =>
    subst hn hi
    refine h.dots hv (by rw [hj]; rfl) (by rw [hj]; simp) ?_ ?_
    · simp [he, insert, edges, Ent.isEdge]
    · simp [he, insert, Dir.up, lookup, lookupFrom, dot, dotdot]
  | dotdot hj he hn =>
    subst hn
    refine h.dots hv (by rw [hj]; rfl) (by rw [hj]; simp) ?_ fun q hq hx => ?_
    · simp [he, insert, h0, edges, Ent.isEdge]
    · obtain rfl : i = q := by
        by_cases hi : i = 0 <;>
          simp [he, insert, h0, Dir.up, lookup, lookupFrom, dot, dotdot, hi] at hq
        exact hq
      have hpin := (h.table.ok p).view i ((h.table.ok p).pins i (by rw [hj]; simp [Job.pins]))
      have := h.dying_of_held hx hpin
      rw [hj] at this
      cases this
  | made m up hj hd hk hl hm hdir =>
    obtain rfl : s.node i = m := h.table.view p i m hm
    rw [show Dir.jobs x p = _ from hj] at hok
    have hfi : (x p).job.fresh = some i := by rw [hj]; rfl
    have hiF : Fresh (Dir.jobs x) i := ⟨p, hfi⟩
    have hdF : (x p).job.fresh ≠ some d := by
      rw [hfi]
      exact fun h => hd (some.inj h).symm
    refine h.link hh hv hk hl hdF hdy hd hok.1 (fun hid => ?_) (fun l => ?_) (fun l => ?_)
      (fun q hq => h.jobs.dying q i hq hiF) (fun hb => ?_)
    · obtain ⟨-, hup, hes⟩ := hdir.resolve_right fun h => h.1 hid
      subst hup
      have hi0 := (h.graph.bound i hok.1).1
      refine ⟨?_, ⟨[], hes, hi0, h0, by simp⟩, ?_, ?_⟩
      · rintro rfl
        exact h.graph.root.2 hiF
      · exact indeg_eq_zero.mpr fun e _ he => (h.graph.edge e i he).2 hiF
      · have h1 : 0 < owed (Dir.jobs x) d := owed_pos (p := p) (by
          rw [Dir.jobs, hj]
          simp [Job.owed])
        have h2 := h.graph.counts d (by simp [hk])
        rw [total] at h2
        omega
    · rw [fresh_update]
      constructor
      · rintro (hl | ⟨q, hqp, hq⟩)
        · cases hl
        · refine ⟨⟨q, hq⟩, ?_⟩
          rintro rfl
          exact hqp (h.jobs.apart q p l hq hfi)
      · rintro ⟨⟨q, hq⟩, hli⟩
        refine .inr ⟨q, ?_, hq⟩
        rintro rfl
        exact hli (some.inj (hq.symm.trans hfi))
    · rw [hj]
      rcases hdir with ⟨hid, rfl, -⟩ | ⟨hid, rfl⟩
      · simp [Job.owed, hid, eq_comm]
      · simp [Job.owed, hid]
    · refine h.linked_of_nlink (p := p) hb hk (ha hb) hvd fun hpin => ?_
      rw [hj] at hpin
      rcases List.mem_cons.mp hpin with hpin | hpin
      · exact absurd hpin hd
      · exact h.jobs.made hb p i d (hj.trans (by rw [mem_toList.mp hpin]))
  | link hj hhi hk hl =>
    rw [show Dir.jobs x p = _ from hj] at hok
    have hiF : ¬ Fresh (Dir.jobs x) i := h.not_fresh (.inl hhi) (by rw [hj]; rintro ⟨⟩)
    refine h.link hh hv hk hl (by rw [hj]; rintro ⟨⟩) hdy ?_ hok.1 (fun hid => absurd hid hok.2)
      (fun l => ?_) (fun l => ?_) (fun q hq => ?_) (fun hb => ?_)
    · rintro rfl
      exact hok.2 hk
    · rw [fresh_update_same (by rw [Dir.jobs, hj]; rfl)]
      refine ⟨fun hl => ⟨hl, ?_⟩, fun hl => hl.1⟩
      rintro rfl
      exact hiF hl
    · rw [hj]
      simp [Job.owed, hok.2]
    · exact hok.2 ((h.jobs.ok q).dying hq).1
    · refine h.linked_of_nlink (p := p) hb hk (ha hb) hvd fun hpin => ?_
      rw [hj] at hpin
      cases hpin

/-- **Every allowed command keeps the invariant.** -/
theorem cmd {c : Cmd} {k : Ans c → K Unit} {Q : Ans c → Ctx → Prop} (hs : spec c (x p) Q)
    (ha : Allowed n b s c) (hst : stepCmd n s p o c k = some s') : Lands n b s x p k Q s' := by
  cases c with
  | iget i => exact h.step_iget hs hst
  | idupCwd => exact h.step_idupCwd hs hst
  | ilock i => exact h.step_ilock hs hst
  | kind i | isdirempty i =>
    obtain ⟨nd, hv, hQ⟩ := hs
    obtain rfl := h.table.view p i nd hv
    exact .stay h hQ hst
  | iunlock i => exact h.step_iunlock hs hst
  | iputTest i => exact h.step_iputTest hs hst
  | ifree i => exact h.step_ifree hs hst
  | iputDrop i => exact h.step_iputDrop hs hst
  | dirlookup d name => exact h.step_dirlookup hs hst
  | dirwrite d name i => exact h.step_dirwrite hs ha hst
  | direrase d off i => exact h.step_direrase hs hst
  | nlinkBad i =>
    obtain ⟨nd, hv, hQ⟩ := hs
    exact .stay h (hQ _) hst
  | nlinkInit i => exact h.step_nlinkInit hs hst
  | nlinkInc i => exact h.step_nlinkInc hs ha hst
  | nlinkDec i => exact h.step_nlinkDec hs ha hst
  | ialloc t => exact h.step_ialloc hs hst
  | takeCwd => exact h.step_takeCwd hs hst
  | setCwd i => exact h.step_setCwd hs hst
  | openFile i => exact h.step_openFile hs hst
  | takeFile j => exact h.step_takeFile hs hst
  | panic m => exact .inl ⟨m, hs, (some.inj hst).symm⟩

end Inv

/-! ## The machine -/

/-- **The condition on the steps of a run**: the next command of the process is an allowed one. -/
def Careful (n : Nat) (b : Bool) (s : State P) : Act P → Prop
  | .run p _ =>
    match s.thread p with
    | .run (.cmd c _) => Allowed n b s c
    | _ => True
  | _ => True

/-- What a process is doing fits its context. -/
def Follows : Thread → Ctx → Prop
  | .idle, x => x = .idle
  | .run c, x => wp spec c x fun _ y => y = .idle

/-- The invariant of the machine.  After a panic nothing more is said but which panic it was not. -/
structure Safe (n : Nat) (b : Bool) (s : State P) : Prop where
  halted : s.halted ≠ some .ilockNoType
  inv : ∃ x, Inv n b s x ∧ (s.halted = none → ∀ p, Follows (s.thread p) (x p))

omit [Fintype P] in
theorem Follows.update {t : P → Thread} {c : Thread} (h : ∀ p, Follows (t p) (x p))
    (hc : Follows c y) (q : P) : Follows (update t p c q) (update x p y q) := by
  by_cases hq : q = p
  · rw [hq, update_self, update_self]
    exact hc
  · rw [update_of_ne hq, update_of_ne hq]
    exact h q

omit [DecidableEq P] in
/-- The invariant does not speak about threads and panics. -/
theorem Inv.control {t : P → Thread} {m : Option Panic} (h : Inv n b s x) :
    Inv n b { s with thread := t, halted := m } x :=
  ⟨⟨h.table.refs, h.table.lock, h.table.view, h.table.touch, h.table.cwd, h.table.files,
    h.table.freeing, h.table.removing, h.table.valid, h.table.ok⟩, h.graph, h.jobs, h.parents⟩

/-- `fork` gives a new process the current directory of the old one. -/
theorem Inv.fork {q : P} (h : Inv n b s x) (hp : s.cwd p = some i) (hq : s.cwd q = none)
    (hx : x q = .idle) : Inv n b { (s.iget i) with cwd := update s.cwd q (some i) } x := by
  have h1 := h.get (p := q) (h.gettable_of_uses (h.table.cwd p i hp) (Table.uses_cwd hp))
  have hself : update x q ((x q).get i) q = (x q).get i := update_self ..
  have h2 := h1.quiet (p := q) (h1.table.giveCwd (i := i) (by rw [hself]; exact Ctx.get_pos)
    (by rw [hself, hx]; rfl) (by rw [hself, hx]; rfl) hq) rfl (.inl rfl)
    fun d he => he.mono (fun _ h => h) rfl fun k _ h1 h2 => ⟨h1, h2⟩
  rw [hself, Ctx.get_put, update_idem, update_eq_self] at h2
  exact h2

namespace Safe

/-- **Every step that satisfies the condition keeps the invariant.** -/
theorem step {a : Act P} (h : Safe n b s) (ha : Careful n b s a) (hs : Dir.step n s a = some s') :
    Safe n b s' := by
  obtain ⟨hh, x, hI, hF⟩ := h
  rw [Dir.step.eq_def] at hs
  split at hs
  · nomatch hs
  rename_i hnone
  have hnone : s.halted = none := by simpa using hnone
  have hF := hF hnone
  cases a with
  | call p c =>
    dsimp only at hs
    split at hs
    · rename_i ht _
      cases hs
      have hp := hF p
      rw [ht] at hp
      refine ⟨hh, x, hI.control, fun _ q => ?_⟩
      rw [← update_eq_self p x]
      exact Follows.update hF (by rw [show x p = .idle from hp]; exact c.disciplined) q
    · nomatch hs
  | run p o =>
    dsimp only at hs
    have hp := hF p
    split at hs
    · rename_i c k ht
      rw [Careful] at ha
      rw [ht] at ha hp
      rcases hI.cmd hp ha hs with ⟨m, hm, rfl⟩ | ⟨r, y, t, hQ, hI', h1, h2, rfl⟩
      · exact ⟨fun he => hm (some.inj he), x, hI.control, nofun⟩
      · refine ⟨by rw [State.goto, h2]; exact hh, _, hI'.control, fun _ q => ?_⟩
        rw [State.goto, h1]
        exact Follows.update (c := .run (k r)) hF hQ q
    · rename_i u ht
      cases hs
      rw [ht] at hp
      refine ⟨hh, x, hI.control, fun _ q => ?_⟩
      rw [← update_eq_self p x]
      exact Follows.update (c := .idle) hF hp q
    · nomatch hs
  | fork p q =>
    dsimp only at hs
    split at hs
    · rename_i i hp hq _ ht
      cases hs
      have hxq := hF q
      rw [ht] at hxq
      exact ⟨hh, x, hI.fork hp hq hxq, fun _ => hF⟩
    · nomatch hs

end Safe

end Xv6.Dir
