import Xv6.Dir.Dangling

/-!
# Link counts

Between system calls nothing has been counted in advance, and the link count of an inode is the
number of entries that name it in the directories that can be reached from the root.  `Graph` counts
the links in another way: by the edges to an inode and the directories in it.  The entries `..` make
up the difference, because each directory in `i` has one that names `i`.

This needs the condition that nothing is created in a directory that has been removed: `create` and
`sys_link` do not look at the link count of the directory they write to.
-/

namespace Xv6.Dir

open Lts System Multigraph List

/-! ## The entries that count -/

/-- The entry of the directory `d` is one that counts: it is neither `.` nor the `..` of the root.
-/
def counted (d : Nat) (e : Ent) : Bool :=
  decide (e.inum ≠ 0 ∧ e.name ≠ dot ∧ ¬ (d = rootIno ∧ e.name = dotdot))

/-- How many entries of the directory `d` name the inode `i`. -/
def naming (N : Nat → Node) (i d : Nat) : Nat :=
  (N d).ents.countP fun e => counted d e && decide (e.inum = i)

/-- The directories that can be reached from the root. -/
def Reachable (N : Nat → Node) (d : Nat) : Prop := (N d).kind = .dir ∧ Path (outs N) rootIno d

open Classical in
/-- The number of links of the inode `i`, with one more for the root. -/
noncomputable def links (n : Nat) (N : Nat → Node) (i : Nat) : Nat :=
  (if i = rootIno then 1 else 0) + ∑ d ∈ (Finset.range n).filter (Reachable N), naming N i d

section Count

variable {n d q i : Nat} {N : Nat → Node} {es : List Ent}

theorem count_edges (h : ∀ e ∈ es, e.name ≠ dot ∧ e.name ≠ dotdot) :
    es.countP (fun e => counted d e && decide (e.inum = i)) = (edges es).count i := by
  induction es with
  | nil => rfl
  | cons e es ih =>
    obtain ⟨h1, h2⟩ := h e (by simp)
    have hc : counted d e = e.isEdge := by simp [counted, Ent.isEdge, h1, h2]
    rw [countP_cons, ih fun e he => h e (mem_cons_of_mem _ he), edges_cons, hc]
    cases e.isEdge <;> simp [count_cons]

/-- An entry that counts is an edge, or the `..` of a directory other than the root. -/
theorem naming_eq (h : Shaped d q (N d).ents) :
    naming N i d = (edges (N d).ents).count i + if d ≠ rootIno ∧ q = i then 1 else 0 := by
  obtain ⟨rest, hes, h1, h2, hr⟩ := h
  have hdots : edges (⟨d, dot⟩ :: ⟨q, dotdot⟩ :: rest) = edges rest := by
    simp [edges_cons, Ent.isEdge]
  have hne : dotdot ≠ dot := by decide
  rw [naming, hes, hdots, countP_cons, countP_cons, count_edges hr]
  simp [counted, h2, hne]

theorem subdirs_eq (hn : ∀ d ∈ outs N i, d < n) :
    subdirs N i = ∑ d ∈ Finset.range n, if (N d).kind = .dir then (outs N i).count d else 0 := by
  have hsum := Multiset.sum_count_eq_card (s := Finset.range n)
    (m := ((outs N i).filter (isDir N) : Multiset Nat))
    (fun d hd => Finset.mem_range.mpr (hn d (mem_of_mem_filter (Multiset.mem_coe.mp hd))))
  rw [subdirs, countP_eq_length_filter, ← Multiset.coe_card, ← hsum]
  refine Finset.sum_congr rfl fun d _ => ?_
  rw [Multiset.coe_count]
  split
  · rename_i hd
    rw [count_filter (isDir_iff.mpr hd)]
  · rename_i hd
    exact count_eq_zero.mpr fun hm => hd (isDir_iff.mp (of_mem_filter hm))

end Count

namespace Graph

variable {n d q i : Nat} {N : Nat → Node} {F : Nat → Prop}

/-- A directory that can be reached is in the directory its `..` names, and nowhere else. -/
theorem count_up (g : Graph n true N F fun _ => 0) (hd : Reachable N d)
    (hu : up (N d).ents = some q) :
    (outs N i).count d = if d ≠ rootIno ∧ q = i then 1 else 0 := by
  have hin : d ∈ outs N i → d ≠ rootIno ∧ q = i := fun hm => by
    obtain ⟨h1, h2⟩ := g.child i d hm hd.1
    exact ⟨h1, Option.some.inj (hu.symm.trans h2)⟩
  split
  · rename_i h
    obtain ⟨h1, rfl⟩ := h
    have hm : d ∈ outs N q := by
      rcases hd.2.cases_tail with h2 | ⟨e, _, he⟩
      · exact absurd h2 h1
      · obtain rfl := Option.some.inj (hu.symm.trans (g.child e d he hd.1).2)
        exact he
    have hle : (outs N q).count d ≤ indeg n (outs N) d :=
      Finset.single_le_sum (f := fun e => (outs N e).count d) (fun _ _ => Nat.zero_le _)
        (Finset.mem_range.mpr (g.lt_of_mem hm))
    have hpos := count_pos_iff.mpr hm
    have h1 := g.single d hd.1
    omega
  · rename_i h
    exact count_eq_zero.mpr fun hm => h (hin hm)

/-- **Both ways of counting agree.** -/
theorem total_eq_links (g : Graph n true N F fun _ => 0) (hF : ∀ i, ¬ F i) :
    total n N (fun _ => 0) i = links n N i := by
  classical
  -- directories that cannot be reached are empty
  have hreach : ∀ d, (N d).kind = .dir → ¬ Reachable N d → ¬ Linked n N d :=
    fun d hd h hl => h ⟨hd, g.path rfl d hd hl⟩
  have hout : ∀ d, ¬ Reachable N d → outs N d = [] := fun d h => by
    by_cases hd : (N d).kind = .dir
    · exact g.empty rfl d hd (hreach d hd h)
    · exact outs_of_not_dir hd
  have hsub : subdirs N i = ∑ d ∈ (Finset.range n).filter (Reachable N), (outs N i).count d := by
    rw [subdirs_eq fun d hd => (g.bound d (g.edge i d hd).1).2, Finset.sum_filter]
    refine Finset.sum_congr rfl fun d hdn => ?_
    by_cases hd : (N d).kind = .dir
    · rw [if_pos hd]
      split
      · rfl
      · rename_i hr
        refine count_eq_zero.mpr fun hm => hreach d hd hr (.inr (indeg_pos.mpr ?_))
        exact ⟨i, g.lt_of_mem hm, hm⟩
    · rw [if_neg hd, if_neg fun hr : Reachable N d => hd hr.1]
  have hin : indeg n (outs N) i =
      ∑ d ∈ (Finset.range n).filter (Reachable N), (outs N d).count i := by
    rw [indeg, Finset.sum_filter]
    refine Finset.sum_congr rfl fun d _ => ?_
    split
    · rfl
    · rename_i hr
      rw [hout d hr]
      rfl
  have hname : ∀ d ∈ (Finset.range n).filter (Reachable N),
      (outs N d).count i + (outs N i).count d = naming N i d := fun d hd => by
    have hr := (Finset.mem_filter.mp hd).2
    obtain ⟨q, hq⟩ := g.shape d hr.1 (hF d)
    rw [naming_eq hq, g.count_up hr hq.up_eq, outs_of_dir hr.1]
  rw [total, links, hin, hsub, Nat.add_zero, Nat.add_assoc, ← Finset.sum_add_distrib,
    Finset.sum_congr rfl hname]

end Graph

theorem exists_entry_of_links {n i : Nat} {N : Nat → Node} (hi : i ≠ rootIno)
    (h : 0 < links n N i) :
    ∃ d e, Reachable N d ∧ e ∈ (N d).ents ∧ counted d e = true ∧ e.inum = i := by
  classical
  rw [links, if_neg hi, Nat.zero_add] at h
  obtain ⟨d, hd, hne⟩ := Finset.exists_ne_zero_of_sum_ne_zero (Nat.ne_of_gt h)
  obtain ⟨e, he, ht⟩ := countP_pos_iff.mp (Nat.pos_of_ne_zero hne)
  rw [Bool.and_eq_true, decide_eq_true_eq] at ht
  exact ⟨d, e, (Finset.mem_filter.mp hd).2, he, ht⟩

/-- No process is in a system call, and nothing has panicked. -/
def Between {P : Type} (s : State P) : Prop := s.halted = none ∧ ∀ p, s.thread p = .idle

/-- Between two calls no process has begun anything. -/
theorem Safe.idle {P : Type} [Fintype P] {n : Nat} {b : Bool} {s : State P} (h : Safe n b s)
    (hs : Between s) : Inv n b s fun _ => .idle := by
  obtain ⟨-, x, hI, hF⟩ := h
  obtain rfl : x = fun _ => .idle := by
    funext p
    have hp := hF hs.1 p
    rw [hs.2 p] at hp
    exact hp
  exact hI

/-- **Link counts are right between system calls**, as long as nothing is created in a removed
directory, a directory loses its last link only when no `..` names it any more, and link counts stay
below 2^15: then an allocated inode has as many links as its `nlink` says, and if that is positive,
then there is an entry that leads to it. -/
theorem nlink_eq_links {P : Type} [Fintype P] [DecidableEq P] {n : Nat} {s : State P}
    (h : (machine P n (WellFormed n)).Reach (Careful n true) s) (hs : Between s) {i : Nat}
    (hi : (s.node i).kind ≠ .free) :
    (s.node i).nlink = links n s.node i ∧ (s.node i).nlink < 2 ^ 15 ∧
    (i ≠ rootIno → 0 < (s.node i).nlink →
      ∃ d e, Reachable s.node d ∧ e ∈ (s.node d).ents ∧ counted d e = true ∧ e.inum = i) := by
  have g := ((Safe.of_reach h).idle hs).graph
  rw [owed_idle] at g
  have hlinks : (s.node i).nlink = links n s.node i := by
    rw [g.counts_eq i hi (.inr rfl), g.total_eq_links fun _ => not_fresh_idle]
  refine ⟨hlinks, g.short i hi, fun hne hpos => ?_⟩
  rw [hlinks] at hpos
  exact exists_entry_of_links hne hpos

/-! ## Runs of one process -/

def Thread.isIdle : Thread → Bool
  | .idle => true
  | .run _ => false

theorem Thread.eq_idle {t : Thread} (h : t.isIdle = true) : t = .idle := by
  cases t with
  | idle => rfl
  | run c => nomatch h

theorem nlink_eq_links_makeAndRemove :
    ∃ s, (machine (Fin 1) 200 (WellFormed 200)).Reach (Careful 200 true) s ∧ Between s ∧
      (s.node rootIno).nlink = 2 ∧ links 200 s.node rootIno = 2 ∧ links 200 s.node 2 = 1 := by
  obtain ⟨s, hreach, h1, h2, h3, h4, h5, h6⟩ :
      ∃ s, (machine (Fin 1) 200 (WellFormed 200)).Reach (Careful 200 true) s ∧
        s.halted = none ∧ (s.thread 0).isIdle ∧ (s.node rootIno).nlink = 2 ∧
        (s.node 2).nlink = 1 ∧ (s.node rootIno).kind = .dir ∧ (s.node 2).kind = .dir :=
    (Reach.init (init_alone (by decide))).replay makeAndRemove (by decide +kernel)
  have hb : Between s := ⟨h1, Fin.forall_fin_one.mpr (Thread.eq_idle h2)⟩
  refine ⟨s, hreach, hb, h3, ?_, ?_⟩
  · rw [← (nlink_eq_links hreach hb (by rw [h5]; exact nofun)).1, h3]
  · rw [← (nlink_eq_links hreach hb (by rw [h6]; exact nofun)).1, h4]

section Between

variable {P : Type} [Fintype P] [DecidableEq P] {n : Nat} {b : Bool} {s : State P}

/-- **The directories are a tree.**  Between system calls, and under the same conditions, a
directory is in at most one other and its `..` names that one; it can be reached from the root, or
it has been removed: then it is empty and has no links. -/
theorem directories_tree (h : (machine P n (WellFormed n)).Reach (Careful n true) s)
    (hs : Between s) {d : Nat}
    (hd : (s.node d).kind = .dir) :
    (∀ q, d ∈ outs s.node q → d ≠ rootIno ∧ up (s.node d).ents = some q) ∧
    indeg n (outs s.node) d ≤ 1 ∧
    (Path (outs s.node) rootIno d ∨ outs s.node d = [] ∧ (s.node d).nlink = 0) := by
  have g := ((Safe.of_reach h).idle hs).graph
  refine ⟨fun q hq => g.child q d hq hd, g.single d hd, ?_⟩
  by_cases hl : Linked n s.node d
  · exact .inl (g.path rfl d hd hl)
  · have hout := g.empty rfl d hd hl
    obtain ⟨hroot, hin⟩ := not_or.mp hl
    refine .inr ⟨hout, ?_⟩
    rw [g.counts_eq d (by simp [hd]) (.inl hd), total, if_neg hroot, owed_idle, subdirs, hout]
    simpa using hin

/-- **References to inodes.**  Between system calls no inode is locked, `ref` counts the current
directories and open files, and what is referenced is allocated. -/
theorem ref_eq_uses (h : (machine P n (WellFormed n)).Reach (Careful n b) s) (hs : Between s)
    (i : Nat) :
    s.lock i = none ∧ s.ref i = uses s i ∧ (0 < s.ref i → (s.node i).kind ≠ .free) := by
  have ht := ((Safe.of_reach h).idle hs).table
  have href : s.ref i = uses s i := by simp [ht.refs i, Ctx.idle, Ctx.refs]
  refine ⟨Option.eq_none_iff_forall_ne_some.mpr fun p hp => ?_, href, fun hpos => ?_⟩
  · simpa [Ctx.idle] using (ht.lock i p).mp hp
  · rcases Nat.add_pos_iff_pos_or_pos.mp (href ▸ hpos) with hc | hf
    · obtain ⟨p, hp⟩ := Finset.card_pos.mp hc
      exact (ht.cwd p i (by simpa using hp)).1
    · exact (ht.files i (count_pos_iff.mp hf)).1

end Between

theorem reach_makeAndRemove :
    ∃ s, (machine (Fin 1) 200 (WellFormed 200)).Reach (Careful 200 true) s ∧
    Between s ∧ s.cwd 0 = some 2 ∧ (s.node 2).nlink = 1 ∧ (s.node 2).kind = .dir := by
  obtain ⟨s, hreach, h1, h2, h⟩ : ∃ s,
      (machine (Fin 1) 200 (WellFormed 200)).Reach (Careful 200 true) s ∧
      s.halted = none ∧ (s.thread 0).isIdle ∧ s.cwd 0 = some 2 ∧ (s.node 2).nlink = 1 ∧
        (s.node 2).kind = .dir :=
    (Reach.init (init_alone (by decide))).replay makeAndRemove (by decide +kernel)
  exact ⟨s, hreach, ⟨h1, Fin.forall_fin_one.mpr (Thread.eq_idle h2)⟩, h⟩

theorem directories_tree_makeAndRemove :
    ∃ s, (machine (Fin 1) 200 (WellFormed 200)).Reach (Careful 200 true) s ∧
    Path (outs s.node) rootIno 2 := by
  obtain ⟨s, hreach, hs, -, h1, hd⟩ := reach_makeAndRemove
  obtain ⟨-, -, h | h⟩ := directories_tree hreach hs hd
  · exact ⟨s, hreach, h⟩
  · omega

theorem ref_eq_uses_makeAndRemove :
    ∃ s, (machine (Fin 1) 200 (WellFormed 200)).Reach (Careful 200 true) s ∧
    s.cwd 0 = some 2 ∧ s.ref 2 = uses s 2 := by
  obtain ⟨s, hreach, hs, hcwd, -⟩ := reach_makeAndRemove
  exact ⟨s, hreach, hcwd, (ref_eq_uses hreach hs 2).2.1⟩

/-- A process creates a file in its current directory after it has removed that directory. -/
def createInRemoved : List (Act (Fin 1)) :=
  whole (.mkdir "d".toList) 22 2 ++ whole (.chdir "d".toList) 12 0 ++
    whole (.unlink "/d".toList) 18 0 ++ whole (.open "f".toList true true) 16 3 ++
    whole (.close 0) 3 0 ++ whole (.chdir "/".toList) 9 0

/-- Then the file stays allocated with one link for ever, and no entry anywhere names it. -/
theorem file_lost :
    ∃ s, (machine (Fin 1) 200 (WellFormed 200)).Reach Any s ∧ Between s ∧ s.ref 3 = 0 ∧
      (s.node 3).kind = .file ∧ (s.node 3).nlink = 1 ∧ links 200 s.node 3 = 0 := by
  obtain ⟨s, hreach, h1, h2, h3, h4, h5, h6⟩ :
      ∃ s, (machine (Fin 1) 200 (WellFormed 200)).Reach Any s ∧
        s.halted = none ∧ (s.thread 0).isIdle ∧ s.ref 3 = 0 ∧ (s.node 3).kind = .file ∧
        (s.node 3).nlink = 1 ∧ ∀ d ∈ List.range 200, ∀ e ∈ (s.node d).ents, e.inum ≠ 3 :=
    (Reach.init (init_alone (by decide))).replay createInRemoved (by decide +kernel)
  refine ⟨s, hreach, ⟨h1, Fin.forall_fin_one.mpr (Thread.eq_idle h2)⟩, h3, h4, h5, ?_⟩
  classical
  rw [links, Finset.sum_eq_zero]
  · rfl
  · intro d hd
    refine countP_eq_zero.mpr fun e he => ?_
    have hne := h6 d (mem_range.mpr (Finset.mem_range.mp (Finset.mem_filter.mp hd).1)) e he
    simp [hne]

end Xv6.Dir
