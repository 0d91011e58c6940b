import Xv6.Dir.Steps

/-!
# What the entries of a directory name

`WellFormed` describes the file systems the machine may start with.  Such a start satisfies the
invariant `Safe`, so every run whose steps are `Careful` stays inside it, and then no entry of a
directory that somebody can look names up in leads to a free inode.

Without the condition this is false: a process that stays in a removed directory keeps that
directory, but not the directory its `..` names.
-/

namespace Xv6.Dir

open Lts System Multigraph Ctx

/-! ## The start -/

/-- A well-formed file system with `n` inodes. -/
structure WellFormed (n : Nat) (N : Nat → Node) : Prop where
  bound : ∀ i, (N i).kind ≠ .free → i ≠ 0 ∧ i < n
  root : (N rootIno).kind = .dir ∧ up (N rootIno).ents = some rootIno
  shape : ∀ d, (N d).kind = .dir → ∃ q, Shaped d q (N d).ents
  edge : ∀ d i, i ∈ outs N d → (N i).kind ≠ .free
  child : ∀ d i, i ∈ outs N d → (N i).kind = .dir → i ≠ rootIno ∧ up (N i).ents = some d
  single : ∀ i, (N i).kind = .dir → indeg n (outs N) i ≤ 1
  path : ∀ d, (N d).kind = .dir → Path (outs N) rootIno d
  counts : ∀ i, (N i).kind ≠ .free →
    (N i).nlink = total n N (fun _ => 0) i ∧ (N i).nlink < 2 ^ 15

section Start

variable {P : Type} {n : Nat} {N : Nat → Node} {d q i : Nat} {b : Bool} {s : State P}

theorem mem_outs_lt (h : WellFormed n N) (hi : i ∈ outs N d) : d < n := by
  refine (h.bound d fun hk => ?_).2
  rw [outs_of_not_dir (by rw [hk]; exact nofun)] at hi
  nomatch hi

theorem WellFormed.cases_path (h : WellFormed n N) (hd : (N d).kind = .dir) :
    d = rootIno ∨ ∃ e < n, d ∈ outs N e := by
  rcases (h.path d hd).cases_tail with rfl | ⟨e, _, he⟩
  · exact .inl rfl
  · exact .inr ⟨e, mem_outs_lt h he, he⟩

theorem WellFormed.linked (h : WellFormed n N) (hd : (N d).kind = .dir) : Linked n N d :=
  (h.cases_path hd).imp id indeg_pos.mpr

theorem WellFormed.good (h : WellFormed n N) {F : Nat → Prop} (hF : ∀ i, ¬ F i)
    (hd : (N d).kind = .dir) (hu : up (N d).ents = some q) : Good N F q := by
  have hpos : ∀ e, (N e).kind = .dir → e = rootIno ∨ 0 < subdirs N e → 0 < (N e).nlink := by
    intro e he h1
    rw [(h.counts e (by rw [he]; exact nofun)).1, total]
    rcases h1 with rfl | h1
    · simp
    · omega
  rcases h.cases_path hd with rfl | ⟨e, _, he⟩
  · obtain rfl := Option.some.inj (hu.symm.trans h.root.2)
    exact ⟨h.root.1, hpos _ h.root.1 (.inl rfl), hF _⟩
  · obtain rfl := Option.some.inj (hu.symm.trans (h.child e d he hd).2)
    have hk := (mem_outs.mp he).1
    exact ⟨hk, hpos _ hk (.inr (List.countP_pos_iff.mpr ⟨d, he, isDir_iff.mpr hd⟩)), hF _⟩

variable [Fintype P]

omit [Fintype P] in
theorem not_fresh_idle : ¬ Fresh (jobs fun _ : P => idle) i := by
  rintro ⟨p, hp⟩
  nomatch hp

theorem owed_idle : owed (jobs fun _ : P => idle) = fun _ => 0 := by
  funext i
  exact Finset.sum_eq_zero fun _ _ => rfl

theorem WellFormed.graph (h : WellFormed n N) (b : Bool) :
    Graph n b N (Fresh (jobs fun _ : P => idle)) (owed (jobs fun _ : P => idle)) where
  bound := h.bound
  root := ⟨h.root.1, not_fresh_idle⟩
  short i hi := (h.counts i hi).2.trans_le (by cases b <;> decide)
  shape d hd _ := h.shape d hd
  edge d i hi := ⟨h.edge d i hi, not_fresh_idle⟩
  child := h.child
  fresh _ hF := absurd hF not_fresh_idle
  single := h.single
  counts i hi := by rw [owed_idle, (h.counts i hi).1]
  counts_eq i hi _ := by rw [owed_idle, (h.counts i hi).1]
  empty _ d hd hl := absurd (h.linked hd) hl
  path _ d hd _ := h.path d hd

theorem table_idle (hc : ∀ p, s.cwd p = none ∨ s.cwd p = some rootIno)
    (hr : ∀ i, s.ref i = if i = rootIno then count Option.isSome s.cwd else 0)
    (hl : ∀ i, s.lock i = none) (hm : ∀ p, s.removing p = none) (hf : s.files = [])
    (hk : (s.node rootIno).kind ≠ .free) : Table s fun _ : P => idle where
  refs i := by
    have h0 : ∑ _ : P, idle.refs i = 0 := Finset.sum_eq_zero fun _ _ => rfl
    have hfiles : s.files.count i = 0 := by rw [hf]; rfl
    have hsome : ∀ p, (s.cwd p).isSome = decide (s.cwd p = some rootIno) := fun p => by
      rcases hc p with h | h <;> simp [h]
    rw [h0, hr, uses, hfiles, Nat.zero_add, Nat.add_zero]
    split
    · subst i
      simp only [count, hsome]
    · rename_i hi
      refine (count_eq_zero.mpr fun p => ?_).symm
      rcases hc p with h | h <;> simp [h, Ne.symm hi]
  lock i p := by simp [hl, idle]
  view := nofun
  touch := by rintro p i (h | h | h) <;> simp [idle] at h
  cwd p i h := by
    obtain rfl : i = rootIno := by simpa [h] using hc p
    exact ⟨hk, not_fresh_idle⟩
  files i hi := by
    simp [hf] at hi
  freeing := nofun
  removing p i h := by
    simp [hm] at h
  valid := nofun
  ok _ := ⟨fun _ h => absurd rfl h, nofun, nofun⟩

/-- **A well-formed file system satisfies the invariant.** -/
theorem Safe.init [DecidableEq P] (h : (machine P n (WellFormed n)).init s) : Safe n b s := by
  obtain ⟨hw, hc, hr, hl, ht, hm, hf, hh⟩ := h
  refine ⟨by rw [hh]; exact nofun, fun _ => .idle, ?_, fun _ p => by rw [ht p]; rfl⟩
  exact {
    table := table_idle hc hr hl hm hf (by rw [hw.root.1]; exact nofun)
    graph := hw.graph b
    jobs := ⟨fun _ => trivial, nofun, nofun, nofun⟩
    parents d q hd _ hu := .inl (hw.good (fun _ => not_fresh_idle) hd hu) }

/-- **Every run whose steps satisfy the condition stays inside the invariant.** -/
theorem Safe.of_reach [DecidableEq P] (h : (machine P n (WellFormed n)).Reach (Careful n b) s) :
    Safe n b s :=
  h.inv (fun _ h0 => .init h0) fun _ _ _ hI ha hs => hI.step ha hs

end Start

/-! ## Looking names up -/

/-- Some path name leads from the root to the inode, through `.` and `..` too. -/
inductive FromRoot (N : Nat → Node) : Nat → Prop
  | root : FromRoot N rootIno
  | entry {d : Nat} {e : Ent} (hd : FromRoot N d) (hk : (N d).kind = .dir) (he : e ∈ (N d).ents)
      (h0 : e.inum ≠ 0) : FromRoot N e.inum

/-- Some process can still get at the inode. -/
def Lookable {P : Type} (s : State P) (d : Nat) : Prop :=
  FromRoot s.node d ∨ (∃ p, s.cwd p = some d) ∨ d ∈ s.files

section Lookup

variable {P : Type} [Fintype P] {n : Nat} {b : Bool} {s : State P} {x : P → Ctx} {d q : Nat}
  {e : Ent}

omit [Fintype P] in
theorem Shaped.mem_cases {es : List Ent} (h : Shaped d q es) (he : e ∈ es) (h0 : e.inum ≠ 0) :
    e.inum = d ∧ e.name ≠ dotdot ∨ e.inum = q ∨ e.inum ∈ edges es ∧ e.name ≠ dotdot := by
  obtain ⟨rest, rfl, -, -, hr⟩ := h
  rcases List.mem_cons.mp he with rfl | he'
  · exact .inl ⟨rfl, (by decide : dot ≠ dotdot)⟩
  rcases List.mem_cons.mp he' with rfl | he'
  · exact .inr (.inl rfl)
  · exact .inr (.inr ⟨mem_edges.mpr ⟨e.name, he, h0, hr e he'⟩, (hr e he').2⟩)

namespace Inv

/-- What an entry of a directory names, and that it is not being removed itself. -/
theorem entry (h : Inv n b s x) (hk : (s.node d).kind = .dir) (hF : ¬ Fresh (Dir.jobs x) d)
    (he : ¬ Exempt n s d) (hm : e ∈ (s.node d).ents) (h0 : e.inum ≠ 0) :
    Known s x e.inum ∧ ¬ Exempt n s e.inum ∧
      (e.name = dotdot → (s.node e.inum).kind = .dir) := by
  obtain ⟨q, hq⟩ := h.graph.shape d hk hF
  rcases hq.mem_cases hm h0 with ⟨h1, h2⟩ | h1 | ⟨h1, h2⟩
  · rw [h1]
    exact ⟨⟨by rw [hk]; exact nofun, hF⟩, he, fun hn => absurd hn h2⟩
  · obtain ⟨g1, _, g3⟩ := (h.parents d q hk hF hq.up_eq).resolve_right he
    have hdn := (h.graph.bound d (by rw [hk]; exact nofun)).2
    rw [h1]
    exact ⟨⟨by rw [g1]; exact nofun, g3⟩, fun hx => hx.2.2 d hdn hk hq.up_eq, fun _ => g1⟩
  · have ho : e.inum ∈ outs s.node d := mem_outs.mpr ⟨hk, h1⟩
    obtain ⟨g1, g2⟩ := h.graph.edge d _ ho
    have hpos := indeg_pos.mpr ⟨d, h.graph.lt_of_mem ho, ho⟩
    refine ⟨⟨g1, g2⟩, fun hx => ?_, fun hn => absurd hn h2⟩
    obtain ⟨p, hp, -⟩ := h.remover hx
    exact (h.gettable_of_indeg (p := p) g1 g2 (.inr hpos)).exempt hx

theorem lookable (h : Inv n b s x) (hd : Lookable s d) : Known s x d ∧ ¬ Exempt n s d := by
  have hused : ∀ d, Known s x d → 0 < uses s d → Known s x d ∧ ¬ Exempt n s d := by
    refine fun d hk hu => ⟨hk, fun hx => ?_⟩
    obtain ⟨p, -, -, h1, -⟩ := h.remover hx
    omega
  rcases hd with hd | ⟨p, hp⟩ | hd
  · -- along the path: each directory on it is known and not being removed
    induction hd with
    | root =>
      have hk := h.graph.root
      have hfree : (s.node rootIno).kind ≠ .free := by rw [hk.1]; exact nofun
      refine ⟨⟨hfree, hk.2⟩, fun hx => ?_⟩
      obtain ⟨p, -⟩ := h.remover hx
      exact (h.gettable_of_indeg (p := p) hfree hk.2 (.inl rfl)).exempt hx
    | entry _ hk he h0 ih =>
      obtain ⟨h1, h2, -⟩ := h.entry hk ih.1.2 ih.2 he h0
      exact ⟨h1, h2⟩
  · exact hused d (h.table.cwd p d hp) (Table.uses_cwd hp)
  · refine hused d (h.table.files d hd) ?_
    rw [uses]
    have := List.count_pos_iff.mpr hd
    omega

end Inv

/-- **No entry is left dangling**, as long as a directory loses its last link only when no `..`
names it any more, and link counts do not overflow: what somebody can get at is allocated, and so is
what the entries of such a directory name; and no process finds a free inode where it follows an
entry. -/
theorem entries_allocated [DecidableEq P]
    (h : (machine P n (WellFormed n)).Reach (Careful n false) s) :
    (∀ d, Lookable s d → (s.node d).kind ≠ .free ∧
      ((s.node d).kind = .dir → ∀ e ∈ (s.node d).ents, e.inum ≠ 0 →
        (s.node e.inum).kind ≠ .free ∧ (e.name = dotdot → (s.node e.inum).kind = .dir))) ∧
    s.halted ≠ some .ilockNoType := by
  obtain ⟨hh, x, hI, -⟩ := Safe.of_reach h
  refine ⟨fun d hd => ?_, hh⟩
  obtain ⟨hK, hE⟩ := hI.lookable hd
  refine ⟨hK.1, fun hk e he h0 => ?_⟩
  obtain ⟨h1, -, h2⟩ := hI.entry hk hK.2 hE he h0
  exact ⟨h1.1, h2⟩

end Lookup

/-! ## Checking the condition -/

section Decide

variable {P : Type} [Fintype P] {n : Nat} {b : Bool} {s : State P} {d : Nat}

instance : Decidable (Exempt n s d) := inferInstanceAs (Decidable (_ ∧ _ ∧ _))

instance : (c : Cmd) → Decidable (Allowed n b s c)
  | .nlinkDec _ => inferInstanceAs (Decidable (_ → _ → _))
  | .nlinkInc _ => inferInstanceAs (Decidable (_ ∧ _))
  | .dirwrite _ _ _ => inferInstanceAs (Decidable (_ → _))
  | .iget _ | .idupCwd | .ilock _ | .kind _ | .iunlock _ | .iputTest _ | .ifree _ | .iputDrop _
  | .dirlookup _ _ | .direrase _ _ _ | .isdirempty _ | .nlinkBad _ | .nlinkInit _ | .ialloc _
  | .takeCwd | .setCwd _ | .openFile _ | .takeFile _ | .panic _ => isTrue trivial

instance : (a : Act P) → Decidable (Careful n b s a)
  | .call _ _ | .fork _ _ => isTrue trivial
  | .run p _ =>
    match h : s.thread p with
    | .run (.cmd c _) => decidable_of_iff (Allowed n b s c) (by simp only [Careful, h])
    | .run (.ret _) | .idle => isTrue (by simp only [Careful, h])

end Decide

/-! ## Runs of one process -/

/-- The file system with nothing but the root directory. -/
def emptyRoot (i : Nat) : Node :=
  if i = rootIno then ⟨.dir, 1, [⟨rootIno, dot⟩, ⟨rootIno, dotdot⟩]⟩ else ⟨.free, 0, []⟩

theorem emptyRoot_kind {i : Nat} (h : (emptyRoot i).kind ≠ .free) : i = rootIno := by
  by_contra hi
  exact h (by rw [emptyRoot, if_neg hi])

theorem outs_emptyRoot (d : Nat) : outs emptyRoot d = [] := by
  by_cases hd : d = rootIno
  · rw [hd]
    decide
  · rw [outs_of_not_dir]
    rw [emptyRoot, if_neg hd]
    exact nofun

theorem wellFormed_emptyRoot {n : Nat} (hn : rootIno < n) : WellFormed n emptyRoot where
  bound i hi := by
    rw [emptyRoot_kind hi]
    exact ⟨by decide, hn⟩
  root := by decide
  shape d hd := by
    obtain rfl := emptyRoot_kind (i := d) (by rw [hd]; exact nofun)
    exact ⟨rootIno, [], rfl, by decide, by decide, nofun⟩
  edge d i hi := by
    simp [outs_emptyRoot] at hi
  child d i hi := by
    simp [outs_emptyRoot] at hi
  single i _ := by
    rw [indeg_eq_zero.mpr fun d _ => by rw [outs_emptyRoot]; exact List.not_mem_nil]
    exact Nat.zero_le 1
  path d hd := by
    obtain rfl := emptyRoot_kind (i := d) (by rw [hd]; exact nofun)
    exact .refl
  counts i hi := by
    obtain rfl := emptyRoot_kind hi
    rw [total, indeg_eq_zero.mpr fun d _ => by rw [outs_emptyRoot]; exact List.not_mem_nil]
    decide

/-- One process in the root directory, after `boot`. -/
def alone : State (Fin 1) where
  node := emptyRoot
  ref i := if i = rootIno then 1 else 0
  valid _ := false
  lock _ := none
  cwd _ := some rootIno
  files := []
  thread _ := .idle
  removing _ := none
  halted := none

theorem init_alone {n : Nat} (hn : rootIno < n) : (machine (Fin 1) n (WellFormed n)).init alone :=
  ⟨wellFormed_emptyRoot hn, fun _ => .inr rfl, fun _ => by rfl, fun _ => rfl, fun _ => rfl,
    fun _ => rfl, rfl, rfl⟩

/-- A system call that takes `k` commands; `ialloc` finds the inode `i`. -/
def whole (c : Syscall) (k i : Nat) : List (Act (Fin 1)) :=
  .call 0 c :: List.replicate k (.run 0 ⟨i, true⟩)

/-- `mkdir p`, `mkdir p/d`, `chdir p/d`, and then the two are removed, the outer one last. -/
def removeParent : List (Act (Fin 1)) :=
  whole (.mkdir "p".toList) 22 2 ++ whole (.mkdir "p/d".toList) 27 3 ++
    whole (.chdir "p/d".toList) 17 0 ++ whole (.unlink "/p/d".toList) 23 0 ++
    whole (.unlink "/p".toList) 20 0

/-- After that the current directory of the process is allocated, its `..` names an inode that is
not, and `chdir ..` panics. -/
theorem parent_of_cwd_freed :
    (∃ s, (machine (Fin 1) 200 (WellFormed 200)).Reach Any s ∧ s.halted = none ∧
      s.cwd 0 = some 3 ∧ (s.node 3).kind = .dir ∧ ⟨2, dotdot⟩ ∈ (s.node 3).ents ∧
      (s.node 2).kind = .free) ∧
    ∃ s, (machine (Fin 1) 200 (WellFormed 200)).Reach Any s ∧ s.halted = some .ilockNoType := by
  have h0 : (machine (Fin 1) 200 (WellFormed 200)).Reach Any alone := .init (init_alone (by decide))
  exact ⟨h0.replay removeParent (by decide +kernel),
    h0.replay (removeParent ++ whole (.chdir "..".toList) 7 0) (by decide +kernel)⟩

/-- A directory is made in the current directory, and removed again. -/
def makeAndRemove : List (Act (Fin 1)) :=
  whole (.mkdir "p".toList) 22 2 ++ whole (.chdir "p".toList) 12 0 ++
    whole (.mkdir "d".toList) 22 3 ++ whole (.unlink "d".toList) 20 0

theorem entries_allocated_makeAndRemove :
    ∃ s, (machine (Fin 1) 200 (WellFormed 200)).Reach (Careful 200 false) s ∧ s.cwd 0 = some 2 ∧
      (s.node 3).kind = .free ∧ (s.node 2).kind = .dir ∧
      (∀ e ∈ (s.node 2).ents, e.inum ≠ 0 →
        (s.node e.inum).kind ≠ .free ∧ (e.name = dotdot → (s.node e.inum).kind = .dir)) ∧
      s.halted ≠ some .ilockNoType := by
  obtain ⟨s, hreach, h1, h2, h3⟩ :
      ∃ s, (machine (Fin 1) 200 (WellFormed 200)).Reach (Careful 200 false) s ∧
        s.cwd 0 = some 2 ∧ (s.node 3).kind = .free ∧ (s.node 2).kind = .dir :=
    (Reach.init (init_alone (by decide))).replay makeAndRemove (by decide +kernel)
  obtain ⟨he, hh⟩ := entries_allocated hreach
  exact ⟨s, hreach, h1, h2, h3, (he 2 (.inr (.inl ⟨0, h1⟩))).2 h3, hh⟩

end Xv6.Dir
