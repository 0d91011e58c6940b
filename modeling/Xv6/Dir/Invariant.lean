import Xv6.Dir.Table

/-!
# The invariant of the running system calls

`Inv` puts the graph, the table and the jobs together, and adds what the other parts do not say:
what `..` leads to.  The entry `..` of a directory that is still in its parent leads to a directory
with a positive link count, so `..` cannot be freed.  A directory that has been removed is not
counted by its parent any more; then nothing in the code keeps the parent alive, and the invariant
needs the condition `Allowed` on `nlink--`.

`Inv.cmd` is the main result: every command that the discipline and the condition allow keeps the
invariant, and none of them is the `ilock` of an inode that is free.
-/

namespace Xv6.Dir

open Lts Multigraph Option
open Function (update update_self update_of_ne update_eq_self)

variable {P : Type}
variable {nd : Node} {name : Name}

/-- The directory is just being removed, and nobody can find it any more. -/
def Exempt (n : Nat) (s : State P) (d : Nat) : Prop :=
  (∃ p, s.removing p = some d) ∧ s.ref d = 1 ∧
    ∀ k < n, (s.node k).kind = .dir → up (s.node k).ents ≠ some d

/-- A directory that its subdirectories can rely on. -/
def Good (N : Nat → Node) (F : Nat → Prop) (q : Nat) : Prop :=
  (N q).kind = .dir ∧ 0 < (N q).nlink ∧ ¬ F q

/-- **The condition on the commands.**  A directory loses its last link only when no `..` names it
but that of a directory that is just being removed, and link counts do not overflow.  If `b`, then
also nothing is created in a directory that has lost its last link. -/
def Allowed (n : Nat) (b : Bool) (s : State P) : Cmd → Prop
  | .nlinkDec q => (s.node q).kind = .dir → (s.node q).nlink = 1 →
    ∀ d < n, (s.node d).kind = .dir → up (s.node d).ents = some q → Exempt n s d
  | .nlinkInc i => (s.node i).nlink + 1 < limit b ∧
    (b = true → (s.node i).kind = .dir → 0 < (s.node i).nlink)
  | .dirwrite d _ _ => b = true → 0 < (s.node d).nlink
  | _ => True

/-- The invariant. -/
structure Inv [Fintype P] (n : Nat) (b : Bool) (s : State P) (x : P → Ctx) : Prop where
  table : Table s x
  graph : Graph n b s.node (Fresh (jobs x)) (owed (jobs x))
  jobs : Jobs n b s.node (jobs x)
  parents : ∀ d q, (s.node d).kind = .dir → ¬ Fresh (Dir.jobs x) d → up (s.node d).ents = some q →
    Good s.node (Fresh (Dir.jobs x)) q ∨ Exempt n s d

variable {n : Nat} {b : Bool} {s s' : State P} {x : P → Ctx} {p q : P} {y : Ctx} {d i : Nat}

theorem Exempt.mono (h : Exempt n s d) (hr : ∀ q, s.removing q = some d → s'.removing q = some d)
    (href : s'.ref d = s.ref d)
    (hup : ∀ k < n, (s'.node k).kind = .dir → up (s'.node k).ents = some d →
      (s.node k).kind = .dir ∧ up (s.node k).ents = some d) : Exempt n s' d := by
  obtain ⟨⟨q, hq⟩, h1, h2⟩ := h
  refine ⟨⟨q, hr q hq⟩, href.trans h1, fun k hk hd hu => ?_⟩
  obtain ⟨h3, h4⟩ := hup k hk hd hu
  exact h2 k hk h3 h4

namespace Inv

variable [Fintype P]

/-- Only the process that removes it has a reference to an exempt directory. -/
theorem remover (h : Inv n b s x) (he : Exempt n s d) :
    ∃ p, ((x p).job.dying = some d ∨ (x p).freeing = some d) ∧
      (∀ q, q ≠ p → (x q).refs d = 0) ∧ uses s d = 0 ∧ (x p).refs d = 1 := by
  obtain ⟨⟨p, hp⟩, h1, -⟩ := he
  have hr := h.table.removing p d hp
  refine ⟨p, hr, h.table.sole h1 ?_⟩
  rcases hr with hr | hr
  · have := (h.table.ok p).dying d hr
    rw [Ctx.refs]
    omega
  · simp [Ctx.refs, hr]

/-- A call that holds an exempt directory is removing it. -/
theorem dying_of_held (h : Inv n b s x) (he : Exempt n s d) (hh : 0 < (x p).held d) :
    (x p).job.dying = some d := by
  obtain ⟨r, hr, h1, -, -⟩ := h.remover he
  have hrefs : (x p).refs d ≠ 0 := by
    rw [Ctx.refs]
    omega
  obtain rfl : r = p := by
    by_contra hne
    exact hrefs (h1 p (Ne.symm hne))
  refine hr.resolve_right fun hf => ?_
  have := (h.table.freeing_alone hf).2.2
  omega

/-- What a call has to do with, nobody else is making. -/
theorem not_fresh (h : Inv n b s x) (ht : (x p).Touches i) (hf : (x p).job.fresh ≠ some i) :
    ¬ Fresh (Dir.jobs x) i := by
  rintro ⟨q, hq⟩
  obtain rfl := (h.table.touch p i ht).2 q hq
  exact hf hq

theorem view_eq_none (h : Inv n b s x) (hl : s.lock i = none) : (x p).view i = none := by
  by_contra hv
  exact absurd (hl.symm.trans ((h.table.lock i p).mpr (.inl hv))) nofun

theorem not_fresh_other (h : Inv n b s x) (ht : (x p).Touches i) (hq : q ≠ p) :
    (Dir.jobs x q).fresh ≠ some i := fun hf => hq ((h.table.touch p i ht).2 q hf)

/-- The jobs of the others survive when a call changes an inode that it has to do with. -/
theorem jobOk_other (h : Inv n b s x) {N' : Nat → Node} (ht : (x p).Touches i)
    (e : Edit s.node N' i) (hq : q ≠ p)
    (hd : ∀ k, (Dir.jobs x q).dying = some k → indeg n (outs s.node) k = 0 →
      indeg n (outs N') k = 0) : JobOk n N' (Dir.jobs x q) := by
  refine (h.jobs.ok q).congr (fun k _ => e.kind k) (fun k t hk => e.other k ?_) hd
  rintro rfl
  exact h.not_fresh_other ht hq (by rw [hk]; rfl)

/-! ## Finding inodes -/

/-- An inode that a call may take a reference to. -/
structure Gettable (n : Nat) (s : State P) (x : P → Ctx) (p : P) (i : Nat) : Prop where
  kind : (s.node i).kind ≠ .free
  fresh : ∀ q, (x q).job.fresh = some i → q = p
  freeing : ∀ q, (x q).freeing ≠ some i
  exempt : ¬ Exempt n s i

theorem gettable_of_indeg (h : Inv n b s x) (hk : (s.node i).kind ≠ .free)
    (hF : ¬ Fresh (Dir.jobs x) i) (hi : i = rootIno ∨ 0 < indeg n (outs s.node) i) :
    Gettable n s x p i := by
  have hz : (s.node i).nlink ≠ 0 := fun hz => by
    obtain ⟨h1, h2, -, -⟩ := h.graph.of_nlink_zero hk hz
    rcases hi with hi | hi
    · exact h1 hi
    · omega
  refine ⟨hk, fun q hq => absurd ⟨q, hq⟩ hF, fun q hq => hz (h.table.freeing q i hq).2.1,
    fun he => ?_⟩
  obtain ⟨q, hq, -⟩ := h.remover he
  rcases hq with hq | hq
  · obtain ⟨-, h1, h2⟩ := (h.jobs.ok q).dying hq
    rcases hi with hi | hi
    · exact h1 hi
    · omega
  · exact hz (h.table.freeing q i hq).2.1

/-- What a current directory or an open file refers to is not being removed or freed. -/
theorem gettable_of_uses (h : Inv n b s x) (hk : Known s x i) (hu : 0 < uses s i) :
    Gettable n s x p i := by
  refine ⟨hk.1, fun q hq => absurd ⟨q, hq⟩ hk.2, fun q hq => ?_, fun he => ?_⟩
  · have := (h.table.freeing_alone hq).2.1
    omega
  · obtain ⟨q, -, -, h0, -⟩ := h.remover he
    omega

/-! ## Links -/

/-- A directory with a link count is still in its parent, as long as nothing is created in removed
directories. -/
theorem linked_of_nlink (h : Inv n b s x) (hb : b = true) (hk : (s.node d).kind = .dir)
    (hz : 0 < (s.node d).nlink) (hv : (x p).view d ≠ none)
    (hp : d ∈ (x p).job.pins → Linked n s.node d) : Linked n s.node d := by
  by_contra hl
  obtain ⟨hr, hin⟩ := not_or.mp hl
  have hsub : subdirs s.node d = 0 := by
    rw [subdirs, h.graph.empty hb d hk hl]
    rfl
  rw [h.graph.counts_eq d (by simp [hk]) (.inl hk), total, if_neg hr, hsub] at hz
  have howed : owed (Dir.jobs x) d ≠ 0 := by omega
  obtain ⟨q, -, hq⟩ := Finset.exists_ne_zero_of_sum_ne_zero howed
  rcases pins_of_owed (Nat.pos_of_ne_zero hq) with hq | hq
  · have hlq := (h.table.lock d q).mpr (.inl ((h.table.ok q).pins d hq))
    have hlp := (h.table.lock d p).mpr (.inl hv)
    obtain rfl : q = p := some.inj (hlq.symm.trans hlp)
    exact hl (hp hq)
  · have := h.jobs.ok q
    rw [hq] at this
    exact this.2 hk

/-- What the condition on `nlink--` is for. -/
theorem exempt_of_allowed (h : Inv n b s x) (ha : Allowed n b s (.nlinkDec i))
    (hz : (s.node i).nlink = 1) (hd : (s.node d).kind = .dir) (hF : ¬ Fresh (Dir.jobs x) d)
    (hu : up (s.node d).ents = some i) : Exempt n s d := by
  by_cases hk : (s.node i).kind = .dir
  · exact ha hk hz d (h.graph.bound d (by simp [hd])).2 hd hu
  · exact (h.parents d i hd hF hu).resolve_left fun hg => hk hg.1

/-! ## Commands -/

variable [DecidableEq P]

section

variable (h : Inv n b s x) {off : Nat}

include h

/-- **Commands that do not change an inode.** -/
theorem quiet (m : Moves s s' x p y) (hn : s'.node = s.node)
    (hj : y.job = (x p).job ∨ ∃ i, (x p).job = .gone i ∧ y.job = .none)
    (he : ∀ d, Exempt n s d → Exempt n s' d) : Inv n b s' (update x p y) := by
  have hf : y.job.fresh = (x p).job.fresh := by
    rcases hj with hj | ⟨i, h1, h2⟩
    · rw [hj]
    · rw [h1, h2]
      rfl
  have ho : ∀ i, y.job.owed i = (x p).job.owed i := by
    rcases hj with hj | ⟨i, h1, h2⟩
    · intro i
      rw [hj]
    · intro i
      rw [h1, h2]
      rfl
  have hF : Fresh (Dir.jobs (update x p y)) = Fresh (Dir.jobs x) := by
    rw [jobs_update]
    exact fresh_update_same hf
  have hO : owed (Dir.jobs (update x p y)) = owed (Dir.jobs x) := by
    rw [jobs_update]
    exact owed_update_same ho
  refine ⟨h.table.step m, ?_, ?_, ?_⟩
  · rw [hF, hO, hn]
    exact h.graph
  · rw [jobs_update, hn]
    refine h.jobs.step ?_ (fun q _ => h.jobs.ok q) (fun i hi => .inl (hf ▸ hi)) (fun i hi => ?_)
      (fun hb i d hd => ?_) (fun _ _ _ _ _ _ hl => hl)
    · rcases hj with hj | ⟨i, -, h2⟩
      · exact hj ▸ h.jobs.ok p
      · rw [h2]
        trivial
    · refine ⟨?_, fresh_of_dying hi⟩
      rcases hj with hj | ⟨k, -, h2⟩
      · exact h.jobs.dying p i (by rwa [hj] at hi)
      · rw [h2] at hi
        nomatch hi
    · rcases hj with hj | ⟨k, -, h2⟩
      · exact h.jobs.made hb p i d (hj.symm.trans hd)
      · simp [h2] at hd
  · rw [hF, hn]
    intro d q hd hdF hq
    exact (h.parents d q hd hdF hq).imp id (he d)

/-- Commands that also keep the references and what is being removed. -/
theorem calm (m : Moves s s' x p y) (hn : s'.node = s.node) (href : s'.ref = s.ref)
    (hrem : s'.removing = s.removing)
    (hj : y.job = (x p).job ∨ ∃ i, (x p).job = .gone i ∧ y.job = .none) :
    Inv n b s' (update x p y) :=
  h.quiet m hn hj fun d he => by rwa [Exempt, hn, href, hrem]

/-- **A link count is changed.** -/
theorem relink {a v : Nat} {j0 j : Job} (hv : (x p).view a = some nd) (hj0 : (x p).job = j0)
    (hlim : v < limit b) (hf : j.fresh = j0.fresh) (hna : ∀ i t, j ≠ .alloc i t)
    (hd : ∀ k, j.dying = some k ↔ j0.dying = some k) (hp : ∀ k ∈ j.pins, (x p).view k ≠ none)
    (hc : v + j0.owed a = nd.nlink + j.owed a) (ho : ∀ i, i ≠ a → j.owed i = j0.owed i)
    (hj : JobOk n s.node j) (hm : b = true → ∀ i d, j = .made i (some d) → Linked n s.node d)
    (hpar : 0 < v ∨ ∀ d, (s.node d).kind = .dir → ¬ Fresh (Dir.jobs x) d →
      up (s.node d).ents = some a → Exempt n s d) :
    Inv n b (s.set a { nd with nlink := v })
      (update x p { (x p).see a { nd with nlink := v } with job := j }) := by
  subst hj0
  obtain rfl : s.node a = nd := h.table.view p a nd hv
  have ht : (x p).Touches a := .inr (.inl (by simp [hv]))
  generalize hnd : ({ s.node a with nlink := v } : Node) = nd'
  have hk : nd'.kind = (s.node a).kind := hnd ▸ rfl
  have hents : nd'.ents = (s.node a).ents := hnd ▸ rfl
  have hnl : nd'.nlink = v := hnd ▸ rfl
  have e : Edit s.node (s.set a nd').node a := Edit.update hk
  have hself : (s.set a nd').node a = nd' := update_self ..
  have he : ∀ i, ((s.set a nd').node i).ents = (s.node i).ents := e.keeps (by rw [hself, hents])
  have houts : outs (s.set a nd').node = outs s.node :=
    e.outs_eq (by rw [out, out, hself, hk, hents])
  have m : Moves s (s.set a nd') x p { (x p).see a nd' with job := j } :=
    h.table.store hv hk (fun k hk => hf ▸ hk) hp (fun k hk => .inl ((hd k).mp hk)) (fun _ _ => rfl)
      (fun k hk => (h.table.removing p k hk).imp (hd k).mpr id)
  have hF : Fresh (Dir.jobs (update x p { (x p).see a nd' with job := j })) =
      Fresh (Dir.jobs x) := by
    rw [jobs_update]
    exact fresh_update_same hf
  have hL : ∀ k, Linked n s.node k → Linked n (s.set a nd').node k := fun k => by
    rw [Linked, Linked, houts]
    exact id
  refine ⟨h.table.step m, ?_, ?_, ?_⟩
  · rw [hF]
    refine h.graph.relink e (by rw [hself, hents]) (by rw [hself, hnl]; exact hlim) fun i => ?_
    rw [jobs_update]
    have h1 : owed (update (Dir.jobs x) p j) i + (Dir.jobs x p).owed i =
      owed (Dir.jobs x) i + j.owed i := owed_update
    have h2 : (Dir.jobs x p).owed i = (x p).job.owed i := rfl
    by_cases hi : i = a
    · subst hi
      rw [hself, hnl]
      dsimp only
      omega
    · have h3 := ho i hi
      rw [e.other i hi]
      dsimp only
      omega
  · rw [jobs_update]
    refine h.jobs.step ?_ (fun q hq => ?_) (fun i hi => .inl (hf ▸ hi)) (fun i hi => ?_)
      (fun hb i d hd => hL d (hm hb i d hd)) (fun _ _ _ k _ _ hl => hL k hl)
    · exact hj.congr (fun i _ => e.kind i) (fun i t hi => absurd hi (hna i t))
        (fun i _ hi => houts ▸ hi)
    · exact h.jobOk_other ht e hq fun k _ hk => houts ▸ hk
    · exact ⟨h.jobs.dying p i ((hd i).mp hi), fresh_of_dying hi⟩
  · rw [hF]
    have hmono : ∀ d, Exempt n s d → Exempt n (s.set a nd') d := fun d hd =>
      hd.mono (fun _ h => h) rfl fun k _ h1 h2 => ⟨e.kind k ▸ h1, he k ▸ h2⟩
    intro d q hd hdF hq
    rw [e.kind] at hd
    rw [he] at hq
    rcases h.parents d q hd hdF hq with hg | hx
    · by_cases hqa : q = a
      · subst hqa
        rcases hpar with hpar | hpar
        · exact .inl ⟨e.kind q ▸ hg.1, by rwa [hself, hnl], hg.2.2⟩
        · exact .inr (hmono d (hpar d hd hdF hq))
      · refine .inl ?_
        rw [Good, e.other q hqa]
        exact hg
    · exact .inr (hmono d hx)

/-- **An entry is written**, which is what the job was about. -/
theorem link (hh : 0 < (x p).held d) (hv : (x p).view d = some nd) (hk : nd.kind = .dir)
    (hl : lookup nd.ents name = none) (hfd : (x p).job.fresh ≠ some d)
    (hdy : (x p).job.dying = none) (hdi : d ≠ i) (hi : (s.node i).kind ≠ .free)
    (hdir : (s.node i).kind = .dir → i ≠ rootIno ∧ Shaped i d (s.node i).ents ∧
      indeg n (outs s.node) i = 0 ∧ 0 < nd.nlink)
    (hF : ∀ k, Fresh (update (Dir.jobs x) p .none) k ↔ Fresh (Dir.jobs x) k ∧ k ≠ i)
    (ho : ∀ k, (x p).job.owed k = (if k = i then 1 else 0) +
      if k = d ∧ (s.node i).kind = .dir then 1 else 0)
    (hdi' : ∀ q, (Dir.jobs x q).dying ≠ some i) (hb : b = true → Linked n s.node d) :
    Inv n b (s.set d { nd with ents := insert nd.ents ⟨i, name⟩ })
      (update x p { (x p).see d { nd with ents := insert nd.ents ⟨i, name⟩ } with
        job := .none }) := by
  obtain rfl : s.node d = nd := h.table.view p d nd hv
  have ht : (x p).Touches d := .inl hh
  have hdF : ¬ Fresh (Dir.jobs x) d := h.not_fresh ht hfd
  obtain ⟨q, hsh⟩ := h.graph.shape d hk hdF
  generalize hnd : ({ s.node d with ents := insert (s.node d).ents ⟨i, name⟩ } : Node) = nd'
  have hk' : nd'.kind = (s.node d).kind := hnd ▸ rfl
  have hents : nd'.ents = insert (s.node d).ents ⟨i, name⟩ := hnd ▸ rfl
  have hnl : nd'.nlink = (s.node d).nlink := hnd ▸ rfl
  have e : Edit s.node (s.set d nd').node d := Edit.update hk'
  have hself : (s.set d nd').node d = nd' := update_self ..
  have hsh' : ∀ q, Shaped d q (s.node d).ents → Shaped d q ((s.set d nd').node d).ents := by
    intro q hq
    rw [hself, hents]
    exact hq.insert hl
  have hup := h.graph.up_kept e hsh' hk hdF
  have hedge : (⟨i, name⟩ : Ent).isEdge = true := by
    have h1 : name ≠ dot := by
      rintro rfl
      simp [hsh.lookup_dot] at hl
    have h2 : name ≠ dotdot := by
      rintro rfl
      have := hsh.up_eq
      simp [up, hl] at this
    simp [Ent.isEdge, h1, h2, (h.graph.bound i hi).1]
  have hperm : (out ((s.set d nd').node d)).Perm (i :: out (s.node d)) := by
    rw [hself, out, out, hk', hk, if_pos rfl, if_pos rfl, hents]
    exact edges_insert hedge
  have hnlink : ∀ k, ((s.set d nd').node k).nlink = (s.node k).nlink := e.keeps (by rw [hself, hnl])
  have hin : ∀ k, indeg n (outs (s.set d nd').node) k = indeg n (outs s.node) k +
      if k = i then 1 else 0 := fun k => e.indeg (h.graph.bound d (by simp [hk])).2 hperm
  have m : Moves s (s.set d nd') x p { (x p).see d nd' with job := .none } :=
    h.table.store hv hk' (by rintro _ ⟨⟩) (by rintro _ ⟨⟩) (by rintro _ ⟨⟩) (fun _ _ => rfl)
      (fun k hk => .inr ((h.table.removing p k hk).resolve_left (by simp [hdy])))
  refine ⟨h.table.step m, ?_, ?_, ?_⟩
  · refine h.graph.link e hk hdF hsh' hperm (hnlink d) hdi hi
      (fun hd => ⟨(hdir hd).1, (hdir hd).2.1, (hdir hd).2.2.1⟩) ?_ (fun k => ?_) hb
    · rw [jobs_update]
      exact hF
    · rw [jobs_update]
      have h1 : owed (update (Dir.jobs x) p .none) k + (x p).job.owed k =
        owed (Dir.jobs x) k + 0 := owed_update
      have h2 := ho k
      dsimp only
      omega
  · rw [jobs_update]
    refine h.jobs.step trivial (fun q hq => ?_)
      (by rintro _ ⟨⟩) (by rintro _ ⟨⟩) (by simp) (fun _ q k d' _ _ hl => ?_)
    · refine h.jobOk_other ht e hq fun k hk hz => ?_
      rw [hin, hz, if_neg]
      rintro rfl
      exact hdi' q hk
    · exact hl.imp id fun hl => by
        rw [hin]
        omega
  · rw [jobs_update]
    intro k q hk hkF hq
    rw [e.kind] at hk
    rw [hup] at hq
    have hgood : ∀ q, Good s.node (Fresh (Dir.jobs x)) q →
        Good (s.set d nd').node (Fresh (update (Dir.jobs x) p .none)) q := fun q hg =>
      ⟨e.kind q ▸ hg.1, hnlink q ▸ hg.2.1, fun hf => hg.2.2 ((hF q).mp hf).1⟩
    by_cases hki : k = i
    · subst hki
      obtain ⟨-, h2, -, h4⟩ := hdir hk
      obtain rfl : d = q := some.inj (h2.up_eq.symm.trans hq)
      exact .inl (hgood d ⟨‹_›, h4, hdF⟩)
    · have hkF' : ¬ Fresh (Dir.jobs x) k := fun hf => hkF ((hF k).mpr ⟨hf, hki⟩)
      refine (h.parents k q hk hkF' hq).imp (hgood q) fun he => ?_
      exact he.mono (fun _ h => h) rfl fun l _ h1 h2 => ⟨e.kind l ▸ h1, hup l ▸ h2⟩

/-- **The entries `.` and `..` of a new directory are written.** -/
theorem dots {es : List Ent} (hv : (x p).view i = some nd) (hf : (x p).job.fresh = some i)
    (hna : ∀ k t, (x p).job ≠ .alloc k t) (hes : edges es = [])
    (hup : ∀ q, up es = some q → ¬ Exempt n s q) :
    Inv n b (s.set i { nd with ents := es })
      (update x p { (x p).see i { nd with ents := es } with job := (x p).job }) := by
  obtain rfl : s.node i = nd := h.table.view p i nd hv
  have ht : (x p).Touches i := .inr (.inl (by simp [hv]))
  generalize hnd : ({ s.node i with ents := es } : Node) = nd'
  have hk' : nd'.kind = (s.node i).kind := hnd ▸ rfl
  have hents : nd'.ents = es := hnd ▸ rfl
  have hnl : nd'.nlink = (s.node i).nlink := hnd ▸ rfl
  have e : Edit s.node (s.set i nd').node i := Edit.update hk'
  have hself : (s.set i nd').node i = nd' := update_self ..
  have hout : out ((s.set i nd').node i) = [] := by
    rw [hself, out, hents, hes, ite_self]
  have houts : outs (s.set i nd').node = outs s.node :=
    e.outs_eq (hout.trans (h.graph.fresh i ⟨p, hf⟩).symm)
  have m : Moves s (s.set i nd') x p { (x p).see i nd' with job := (x p).job } :=
    h.table.store hv hk' (fun _ h => h) (h.table.ok p).pins (fun _ h => .inl h) (fun _ _ => rfl)
      (h.table.removing p)
  have hJ : Dir.jobs (update x p { (x p).see i nd' with job := (x p).job }) = Dir.jobs x := by
    rw [jobs_update]
    exact update_eq_self p (Dir.jobs x)
  refine ⟨h.table.step m, ?_, ?_, ?_⟩
  · rw [hJ]
    exact h.graph.dots e ⟨p, hf⟩ hout (by rw [hself, hnl])
  · rw [hJ]
    refine ⟨fun q => ?_, h.jobs.apart, h.jobs.dying, fun hb q k d hd => ?_⟩
    · refine (h.jobs.ok q).congr (fun k _ => e.kind k) (fun k t hk => e.other k ?_)
        (fun k _ hk => houts ▸ hk)
      rintro rfl
      have hq : q = p := (h.table.touch p k ht).2 q (by rw [show (x q).job = _ from hk]; rfl)
      subst hq
      exact hna k t hk
    · have := h.jobs.made hb q k d hd
      rwa [Linked, houts]
  · rw [hJ]
    intro k q hk hkF hq
    have hki : k ≠ i := fun hki => hkF (hki ▸ ⟨p, hf⟩)
    rw [e.other k hki] at hk hq
    rcases h.parents k q hk hkF hq with hg | he
    · refine .inl ⟨e.kind q ▸ hg.1, ?_, hg.2.2⟩
      rw [e.other q fun hqi => hg.2.2 (hqi ▸ ⟨p, hf⟩)]
      exact hg.2.1
    · refine .inr (he.mono (fun _ h => h) rfl fun l _ h1 h2 => ?_)
      by_cases hli : l = i
      · rw [hli, hself, hents] at h2
        exact absurd he (hup k h2)
      · rw [e.other l hli] at h1 h2
        exact ⟨h1, h2⟩

/-- **An entry is erased.** -/
theorem erase {m : Node} (hv : (x p).view d = some nd) (hk : nd.kind = .dir)
    (he : nd.ents[off]? = some ⟨i, name⟩) (h0 : i ≠ 0) (h1 : name ≠ dot) (h2 : name ≠ dotdot)
    (hvi : (x p).view i = some m) (hm : m.kind = .dir → isEmpty m.ents = true)
    (hj : (x p).job = .none) (hf : (x p).freeing = none) (hdi : d ≠ i) :
    Inv n b { (s.set d { nd with ents := nd.ents.set off ⟨0, []⟩ }) with
        removing := if m.kind = .dir then update s.removing p (some i) else s.removing }
      (update x p { (x p).see d { nd with ents := nd.ents.set off ⟨0, []⟩ } with
        job := .erased i (if m.kind = .dir then some d else none) (decide (m.kind = .dir)) }) := by
  obtain rfl : s.node d = nd := h.table.view p d nd hv
  obtain rfl : s.node i = m := h.table.view p i m hvi
  have ht : (x p).Touches d := .inr (.inl (by simp [hv]))
  have hti : (x p).Touches i := .inr (.inl (by simp [hvi]))
  have hdF : ¬ Fresh (Dir.jobs x) d := h.not_fresh ht (by rw [hj]; rintro ⟨⟩)
  have hiF : ¬ Fresh (Dir.jobs x) i := h.not_fresh hti (by rw [hj]; rintro ⟨⟩)
  generalize hnd : ({ s.node d with ents := (s.node d).ents.set off ⟨0, []⟩ } : Node) = nd'
  have hk' : nd'.kind = (s.node d).kind := hnd ▸ rfl
  have hents : nd'.ents = (s.node d).ents.set off ⟨0, []⟩ := hnd ▸ rfl
  have hnl : nd'.nlink = (s.node d).nlink := hnd ▸ rfl
  have e : Edit s.node (s.set d nd').node d := Edit.update hk'
  have hself : (s.set d nd').node d = nd' := update_self ..
  have hsh' : ∀ q, Shaped d q (s.node d).ents → Shaped d q ((s.set d nd').node d).ents := by
    intro q hq
    rw [hself, hents]
    exact hq.set he h1 h2
  have hup := h.graph.up_kept e hsh' hk hdF
  have hperm : (out (s.node d)).Perm (i :: out ((s.set d nd').node d)) := by
    rw [hself, out, out, hk', hk, if_pos rfl, if_pos rfl, hents]
    exact (edges_set (by simp [Ent.isEdge, h0, h1, h2]) he).symm
  have hid : i ∈ outs s.node d := by
    rw [outs, hperm.mem_iff]
    exact List.mem_cons_self
  have hnlink : ∀ k, ((s.set d nd').node k).nlink = (s.node k).nlink := e.keeps (by rw [hself, hnl])
  have hin : ∀ k, indeg n (outs s.node) k = indeg n (outs (s.set d nd').node) k +
      if k = i then 1 else 0 := fun k => e.symm.indeg (h.graph.bound d (by simp [hk])).2 hperm
  have hempty : outs s.node i = [] := by
    by_cases hid : (s.node i).kind = .dir
    · obtain ⟨q, hq⟩ := h.graph.shape i hid hiF
      rw [outs_of_dir hid]
      exact hq.edges_nil (hm hid)
    · exact outs_of_not_dir hid
  have hrem : ∀ k, s.removing p ≠ some k := fun k hk => by
    rcases h.table.removing p k hk with hk | hk
    · rw [hj] at hk
      cases hk
    · rw [hf] at hk
      cases hk
  generalize hrem' : (if (s.node i).kind = .dir then update s.removing p (some i)
    else s.removing) = rem
  generalize hjob : Job.erased i (if (s.node i).kind = .dir then some d else none)
    (decide ((s.node i).kind = .dir)) = j
  have hr : ∀ q, q ≠ p → rem q = s.removing q := by
    intro q hq
    rw [← hrem']
    split
    · exact update_of_ne hq ..
    · rfl
  have hdying : ∀ k, j.dying = some k ↔ k = i ∧ (s.node i).kind = .dir := by
    intro k
    rw [← hjob]
    by_cases hd : (s.node i).kind = .dir <;> simp [hd, Job.dying, eq_comm]
  have hfresh : j.fresh = none := by rw [← hjob]; rfl
  have hpins : ∀ k ∈ j.pins, (x p).view k ≠ none := by
    rw [← hjob]
    intro k hk
    rcases List.mem_cons.mp hk with rfl | hk
    · simp [hvi]
    · rw [mem_toList] at hk
      split at hk
      · cases hk
        simp [hv]
      · cases hk
  have m : Moves s { (s.set d nd') with removing := rem } x p
      { (x p).see d nd' with job := j } := by
    refine h.table.store hv hk' (by rw [hfresh]; rintro _ ⟨⟩) hpins (fun k hk => .inr ?_) hr
      (fun k hk => .inl ?_)
    · rw [((hdying k).mp hk).1, hvi]
      simp
    · rw [← hrem'] at hk
      split at hk
      · rename_i hid
        rw [update_self] at hk
        exact (hdying k).mpr ⟨(some.inj hk).symm, hid⟩
      · exact absurd hk (hrem k)
  have howed : ∀ k, j.owed k = (if k = i then 1 else 0) +
      if k = d ∧ (s.node i).kind = .dir then 1 else 0 := by
    intro k
    rw [← hjob]
    by_cases hid : (s.node i).kind = .dir <;> simp [Job.owed, hid, eq_comm]
  refine ⟨h.table.step m, ?_, ?_, ?_⟩
  · rw [jobs_update]
    rw [fresh_update_same (by rw [Dir.jobs, hj]; exact hfresh)]
    refine h.graph.erase e hk hdF hsh' hperm (hnlink d) hdi hempty fun k => ?_
    have h1 : owed (update (Dir.jobs x) p j) k + (x p).job.owed k =
      owed (Dir.jobs x) k + j.owed k := owed_update
    have h2 : (x p).job.owed k = 0 := by rw [hj]; rfl
    have h3 := howed k
    dsimp only
    omega
  · rw [jobs_update]
    refine h.jobs.step ?_ (fun q hq => ?_) (by rw [hfresh]; rintro _ ⟨⟩) (fun k hk => ?_)
      (fun _ k d' hd' => ?_)
      (fun _ q k d' hq hd' hl => ?_)
    · rw [← hjob]
      refine ⟨?_, fun d' hd' => ?_, ?_⟩
      · rw [e.kind]
        exact (h.table.touch p i hti).1
      · split at hd'
        · rw [← some.inj hd', e.kind, hk]
        · cases hd'
      · by_cases hid' : (s.node i).kind = .dir
        · rw [if_pos (decide_eq_true hid')]
          have h3 := h.graph.single i hid'
          rw [hin, if_pos rfl] at h3
          refine ⟨by rw [e.kind, hid'], (h.graph.child d i hid hid').1, ?_⟩
          dsimp only
          omega
        · rw [if_neg (by simpa using hid'), e.kind]
          exact hid'
    · refine h.jobOk_other ht e hq fun k _ hz => ?_
      have := hin k
      dsimp only
      omega
    · rw [((hdying k).mp hk).1]
      exact ⟨hiF, hfresh⟩
    · rw [← hjob] at hd'
      cases hd'
    · -- the other call has its directory locked
      have hdi' : d' ≠ i := by
        rintro rfl
        have hpin : d' ∈ (x q).job.pins := by
          rw [show (x q).job = _ from hd']
          simp [Job.pins]
        have hlq := (h.table.lock d' q).mpr (.inl ((h.table.ok q).pins d' hpin))
        have hlp := (h.table.lock d' p).mpr (.inl (by simp [hvi]))
        exact hq (some.inj (hlq.symm.trans hlp))
      refine hl.imp id fun hl => ?_
      rw [hin, if_neg hdi'] at hl
      exact hl
  · rw [jobs_update, fresh_update_same (by rw [Dir.jobs, hj]; exact hfresh)]
    intro k q hk hkF hq
    rw [e.kind] at hk
    rw [hup] at hq
    rcases h.parents k q hk hkF hq with hg | hx
    · exact .inl ⟨e.kind q ▸ hg.1, hnlink q ▸ hg.2.1, hg.2.2⟩
    · refine .inr (hx.mono (fun r hr' => ?_) rfl fun l _ h1 h2 => ⟨e.kind l ▸ h1, hup l ▸ h2⟩)
      rw [← hr']
      refine hr r ?_
      rintro rfl
      exact hrem k hr'

/-- **An inode is freed.** -/
theorem free {rem : P → Option Nat} (hf : (x p).freeing = some i) (hd : (x p).dropping = none)
    (hr : ∀ q, q ≠ p → rem q = s.removing q)
    (hrp : ∀ j, rem p = some j → s.removing p = some j ∧ j ≠ i)
    (hrp' : ∀ j, j ≠ i → s.removing p = some j → rem p = some j) :
    Inv n b { (s.set i ⟨.free, (s.node i).nlink, []⟩) with
        valid := update s.valid i false
        lock := update s.lock i none
        removing := rem }
      (update x p { x p with freeing := none, dropping := some i }) := by
  have m := h.table.free (m := ⟨.free, (s.node i).nlink, []⟩) hf hd hr hrp
  have ht : (x p).Touches i := .inr (.inr hf)
  obtain ⟨-, hz, -, hfr⟩ := h.table.freeing p i hf
  have hk := (h.table.touch p i ht).1
  have hiF := h.not_fresh ht hfr
  obtain ⟨halone, -, hheld⟩ := h.table.freeing_alone hf
  have hnode : ∀ k, k ≠ i → (s.set i ⟨.free, (s.node i).nlink, []⟩).node k = s.node k := fun k hk =>
    update_of_ne hk ..
  have hself : (s.set i ⟨.free, (s.node i).nlink, []⟩).node i = ⟨.free, (s.node i).nlink, []⟩ :=
    update_self ..
  have hJ : Dir.jobs (update x p { x p with freeing := none, dropping := some i }) =
      Dir.jobs x := by
    rw [jobs_update]
    exact update_eq_self p (Dir.jobs x)
  have houts : outs (s.set i ⟨.free, (s.node i).nlink, []⟩).node =
      update (outs s.node) i [] := outs_update
  have hin : ∀ k, indeg n (outs s.node) k = 0 →
      indeg n (outs (s.set i ⟨.free, (s.node i).nlink, []⟩).node) k = 0 := by
    intro k hz
    have h1 : indeg n (update (outs s.node) i []) k + (outs s.node i).count k =
      indeg n (outs s.node) k + List.count k [] := indeg_update (h.graph.bound i hk).2
    rw [houts]
    simp only [List.count_nil] at h1
    omega
  -- no job mentions the inode
  have habout : ∀ q, i ∉ (Dir.jobs x q).about := by
    intro q hq
    rcases about_cases hq with hq | hq | hq
    · have := owed_pos hq
      have := (h.graph.of_nlink_zero hk hz).2.2.2
      omega
    · exact hiF ⟨q, hq⟩
    · have hh := (h.table.ok q).dying i hq
      by_cases hqp : q = p
      · subst hqp
        omega
      · exact halone q hqp (.inl hh)
  refine ⟨h.table.step m, ?_, ?_, ?_⟩
  · rw [hJ]
    exact h.graph.free hk hz hiF
  · rw [hJ]
    refine ⟨fun q => ?_, h.jobs.apart, h.jobs.dying, fun hb q k d hd => ?_⟩
    · have hne : ∀ k ∈ (Dir.jobs x q).about, k ≠ i := fun k hk hki => habout q (hki ▸ hk)
      refine (h.jobs.ok q).congr (fun k hk => ?_) (fun k t hk => hnode k ?_)
        (fun k _ hz => hin k hz)
      · dsimp only
        rw [hnode k (hne k hk)]
      · exact hne k (by rw [hk]; exact List.mem_cons_self)
    · have := h.jobs.made hb q k d hd
      rwa [Linked, houts, ← h.graph.outs_nil hb hk hz, update_eq_self]
  · rw [hJ]
    intro d q hd hdF hq
    have hdi : d ≠ i := by
      rintro rfl
      simp [hself] at hd
    rw [hnode d hdi] at hd hq
    rcases h.parents d q hd hdF hq with hg | hx
    · refine .inl ?_
      rw [Good, hnode q]
      · exact hg
      · rintro rfl
        exact absurd hz (Nat.ne_of_gt hg.2.1)
    · refine .inr (hx.mono (fun r hr' => ?_) rfl fun l _ h1 h2 => ?_)
      · by_cases hrp'' : r = p
        · subst hrp''
          exact hrp' d hdi hr'
        · rw [← hr']
          exact hr r hrp''
      · dsimp only at h1 h2
        have hli : l ≠ i := by
          rintro rfl
          simp [hself] at h1
        rw [hnode l hli] at h1 h2
        exact ⟨h1, h2⟩

/-- **An inode is allocated.** -/
theorem alloc {k : Kind} (hi : (s.node i).kind = .free) (h0 : i ≠ 0) (hn : i < n) (hk : k ≠ .free)
    (hj : (x p).job = .none) :
    Inv n b (s.set i ⟨k, 0, []⟩) (update x p { x p with job := .alloc i k }) := by
  have m := h.table.alloc hi hk hj
  have hnode : ∀ l, l ≠ i → (s.set i ⟨k, 0, []⟩).node l = s.node l := fun l hl => update_of_ne hl ..
  have hself : (s.set i ⟨k, 0, []⟩).node i = ⟨k, 0, []⟩ := update_self ..
  have hF : ∀ l, Fresh (update (Dir.jobs x) p (.alloc i k)) l ↔
      Fresh (Dir.jobs x) l ∨ l = i := by
    intro l
    rw [fresh_update, or_comm]
    refine or_congr ⟨Exists.imp fun q => And.right, Exists.imp fun q hq => ⟨?_, hq⟩⟩ ?_
    · rintro rfl
      rw [Dir.jobs, hj] at hq
      cases hq
    · simp [Job.fresh, eq_comm]
  have howed : owed (update (Dir.jobs x) p (.alloc i k)) = owed (Dir.jobs x) :=
    owed_update_same fun l => by
      rw [Dir.jobs, hj]
      rfl
  have houts : outs (s.set i ⟨k, 0, []⟩).node = outs s.node := by
    rw [State.set, outs_update, show out ⟨k, 0, []⟩ = outs s.node i by
      rw [outs_of_not_dir (by simp [hi])]; simp [out, edges], update_eq_self]
  refine ⟨h.table.step m, ?_, ?_, ?_⟩
  · rw [jobs_update, howed]
    exact h.graph.alloc hi h0 hn (h.jobs.owed_of_free hi) hF
  · rw [jobs_update]
    refine h.jobs.step ⟨hself, hk⟩ (fun q hq => ?_) (fun l hl => .inr ?_) (by rintro _ ⟨⟩) (by simp)
      (fun _ _ _ d _ _ hl => ?_)
    · have hne : ∀ l ∈ (Dir.jobs x q).about, l ≠ i := by
        rintro l hl rfl
        exact (h.jobs.ok q).kind_ne_free hl hi
      refine (h.jobs.ok q).congr (fun l hl => by rw [hnode l (hne l hl)])
        (fun l t hl => hnode l ?_) (fun l _ hz => by rwa [houts])
      exact hne l (by rw [hl]; exact List.mem_cons_self)
    · cases hl
      exact hi
    · rwa [Linked, houts]
  · rw [jobs_update]
    intro d q hd hdF hq
    have hdi : d ≠ i := fun hdi => hdF ((hF d).mpr (.inr hdi))
    have hdF' : ¬ Fresh (Dir.jobs x) d := fun hf => hdF ((hF d).mpr (.inl hf))
    rw [hnode d hdi] at hd hq
    rcases h.parents d q hd hdF' hq with hg | hx
    · have hqi : q ≠ i := by
        rintro rfl
        exact absurd (hi.symm.trans hg.1) (by simp)
      refine .inl ?_
      rw [Good, hnode q hqi]
      exact ⟨hg.1, hg.2.1, fun hf => ((hF q).mp hf).elim hg.2.2 hqi⟩
    · refine .inr (hx.mono (fun _ h => h) rfl fun l _ h1 h2 => ?_)
      have hli : l ≠ i := by
        rintro rfl
        rw [hself] at h2
        cases h2
      rw [hnode l hli] at h1 h2
      exact ⟨h1, h2⟩

/-- **What a lookup finds can be used**, if it is in a directory that the call holds and is not
about to remove. -/
theorem gettable_of_lookup (hh : 0 < (x p).held d) (hk : (s.node d).kind = .dir)
    (hfr : (x p).job.fresh ≠ some d) (hd : (x p).job.dying ≠ some d) (hf : (x p).freeing = none)
    (hl : lookup (s.node d).ents name = some (i, off)) : Gettable n s x p i := by
  have hdF := h.not_fresh (.inl hh) hfr
  have hex : ¬ Exempt n s d := fun he => hd (h.dying_of_held he hh)
  obtain ⟨q, hsh⟩ := h.graph.shape d hk hdF
  rcases hsh.lookup hl with rfl | rfl | hi
  · refine ⟨by simp [hk], fun q hq => absurd ⟨q, hq⟩ hdF, fun q hq => ?_, hex⟩
    by_cases hqp : q = p
    · simp [hqp, hf] at hq
    · exact (h.table.freeing_alone hq).1 p (Ne.symm hqp) (.inl hh)
  · -- the parent
    have hg := (h.parents d i hk hdF hsh.up_eq).resolve_right hex
    refine ⟨by simp [hg.1], fun q hq => absurd ⟨q, hq⟩ hg.2.2, fun q hq => ?_, fun he => ?_⟩
    · exact absurd (h.table.freeing q i hq).2.1 (Nat.ne_of_gt hg.2.1)
    · exact he.2.2 d (h.graph.bound d (by simp [hk])).2 hk hsh.up_eq
  · rw [← outs_of_dir hk] at hi
    obtain ⟨h1, h2⟩ := h.graph.edge d i hi
    exact h.gettable_of_indeg h1 h2 (.inr (indeg_pos.mpr ⟨d, h.graph.lt_of_mem hi, hi⟩))

/-- **A reference is taken.** -/
theorem get (g : Gettable n s x p i) : Inv n b (s.iget i) (update x p ((x p).get i)) := by
  refine h.quiet (h.table.get g.kind g.fresh g.freeing) rfl (.inl rfl) fun d he => ?_
  refine he.mono (fun _ h => h) ?_ fun k _ h1 h2 => ⟨h1, h2⟩
  rw [Table.ref_iget, if_neg, Nat.add_zero]
  rintro rfl
  exact g.exempt he

/-- A directory that nobody can find any more has no links left when it is given back. -/
theorem nlink_gone (he : Exempt n s d) (hj : (x p).job = .gone d) : (s.node d).nlink = 0 := by
  obtain ⟨hk, hr, hin⟩ := (h.jobs.ok p).dying (i := d) (by rw [Dir.jobs, hj]; rfl)
  have hp := (h.table.ok p).dying d (by rw [hj]; rfl)
  have hsub : subdirs s.node d = 0 := by
    rw [subdirs, List.countP_eq_zero]
    intro k hk' hdir
    rw [isDir_iff] at hdir
    exact he.2.2 k (h.graph.bound k (by simp [hdir])).2 hdir (h.graph.child d k hk' hdir).2
  have howed : owed (Dir.jobs x) d = 0 := by
    rw [owed, Finset.sum_eq_zero_iff]
    intro q _
    by_contra hne
    rcases pins_of_owed (Nat.pos_of_ne_zero hne) with hq | hq
    · have hh := (h.table.ok q).view d ((h.table.ok q).pins d hq)
      obtain rfl : q = p := by
        by_contra hqp
        have := (h.table.sole he.2.1 (p := p) (by rw [Ctx.refs]; omega)).1 q hqp
        rw [Ctx.refs] at this
        omega
      rw [Dir.jobs, hj] at hq
      cases hq
    · have := h.jobs.ok q
      rw [hq] at this
      exact this.2 hk
  rw [h.graph.counts_eq d (by simp [hk]) (.inl hk), total, if_neg hr, hin, hsub, howed]

end

end Inv

end Xv6.Dir
