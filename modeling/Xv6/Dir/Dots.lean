import Xv6.Dir.Links

/-!
# `.` and `..` stay where they are

`isdirempty` skips the first two entries of a directory by position; `sys_unlink` refuses `.` and
`..` by name; `dirlink` writes to the first free place.  The two views agree as long as the first
two entries of every directory are `.` and `..` and no other entry has these names: that is
`Shaped`, and no order of calls breaks it.  Nothing is assumed about link counts, which may
overflow, and inodes may be freed while there are entries for them.

Here the calls come one after the other, by any processes.  `entrySpec` says what a command does to
the inodes, whatever it does to the rest; it also says what is to hold when a directory is tested or
an entry is erased.  `dots_stay` is the result.
-/

namespace Xv6.Dir

open Lts System Code Option
open Function (update update_self update_of_ne update_idem update_comm)

/-! ## Entries -/

/-- There are no names but `.` and `..`. -/
def OnlyDots (es : List Ent) : Prop := ∀ e ∈ es, e.inum ≠ 0 → e.name = dot ∨ e.name = dotdot

/-- Every directory begins with `.` and `..`. -/
def Dotted (N : Nat → Node) : Prop := ∀ d, (N d).kind = .dir → ∃ q, Shaped d q (N d).ents

/-- **What `isdirempty` tests.** -/
theorem Shaped.isEmpty_iff {d q : Nat} {es : List Ent} (h : Shaped d q es) :
    isEmpty es = true ↔ OnlyDots es := by
  obtain ⟨rest, rfl, hd, hq, hr⟩ := h
  simp only [isEmpty, List.drop_succ_cons, List.drop_zero, List.all_eq_true, decide_eq_true_eq]
  refine ⟨fun hall e he h0 => ?_, fun hdots e he => ?_⟩
  · rcases List.mem_cons.mp he with rfl | he
    · exact .inl rfl
    rcases List.mem_cons.mp he with rfl | he
    · exact .inr rfl
    exact absurd (hall e he) h0
  · by_contra h0
    have hin : e ∈ ⟨d, dot⟩ :: ⟨q, dotdot⟩ :: rest :=
      List.mem_cons_of_mem _ (List.mem_cons_of_mem _ he)
    rcases hdots e hin h0 with h1 | h1
    · exact (hr e he).1 h1
    · exact (hr e he).2 h1

section Changes

variable {N : Nat → Node} {i : Nat} {m : Node}

theorem Dotted.update (h : Dotted N) (hm : m.kind = .dir → ∃ q, Shaped i q m.ents) :
    Dotted (update N i m) := by
  intro d hd
  by_cases hi : d = i
  · subst hi
    rw [update_self] at hd ⊢
    exact hm hd
  · rw [update_of_ne hi] at hd ⊢
    exact h d hd

theorem Dotted.update_nlink (h : Dotted N) (v : Nat) :
    Dotted (Function.update N i { N i with nlink := v }) :=
  h.update (h i)

end Changes

/-! ## Commands -/

/-- What a command does to the inodes.  What it answers from the rest of the state is left open,
except that there is no inode 0. -/
def entrySpec : (c : Cmd) → (Nat → Node) → (Ans c → (Nat → Node) → Prop) → Prop
  | .iget _, N, Q => Q () N
  | .idupCwd, N, Q => ∀ i, i ≠ 0 → Q i N
  | .ilock _, N, Q => Q () N
  | .kind i, N, Q => Q (N i).kind N
  | .iunlock _, N, Q => Q () N
  | .iputTest _, N, Q => ∀ b, Q b N
  | .ifree i, N, Q => Q () (update N i { kind := .free, nlink := (N i).nlink, ents := [] })
  | .iputDrop _, N, Q => Q () N
  | .dirlookup d name, N, Q => (N d).kind = .dir → Q (lookup (N d).ents name) N
  | .dirwrite d name i, N, Q =>
    Q () (update N d { N d with ents := insert (N d).ents ⟨i, name⟩ })
  | .direrase d off i, N, Q => ((N i).kind = .dir → OnlyDots (N i).ents) ∧
    Q () (update N d { N d with ents := (N d).ents.set off ⟨0, []⟩ })
  | .isdirempty d, N, Q =>
    (isEmpty (N d).ents = true ↔ OnlyDots (N d).ents) ∧ Q (isEmpty (N d).ents) N
  | .nlinkBad i, N, Q => Q (below1 (N i).nlink) N
  | .nlinkInit i, N, Q | .nlinkInc i, N, Q | .nlinkDec i, N, Q =>
    ∀ v, Q () (update N i { N i with nlink := v })
  | .ialloc t, N, Q => ∀ i, i ≠ 0 → (N i).kind = .free →
    Q i (update N i { kind := t, nlink := 0, ents := [] })
  | .takeCwd, N, Q => ∀ i, Q i N
  | .setCwd i, N, Q => i ≠ 0 ∧ ∀ j, Q j N
  | .openFile _, N, Q => ∀ b, Q b N
  | .takeFile _, N, Q => ∀ r, Q r N
  | .panic _, _, _ => True

/-- `.` and `..` are in their places when the code returns. -/
abbrev Stays {α : Type} (c : K α) (N : Nat → Node) : Prop := wp entrySpec c N fun _ N' => Dotted N'

theorem monotone_entrySpec : Monotone entrySpec := by
  intro c N Q Q' h
  cases c
  all_goals
    simp only [entrySpec]
    try gcongr
    all_goals exact h _ _

section Rules

variable {α β : Type} {N : Nat → Node} {i d : Nat} {name : Name} {Q : α → (Nat → Node) → Prop}

theorem Entries.bind {c : K β} {f : β → K α} {R : β → (Nat → Node) → Prop} (hc : wp entrySpec c N R)
    (hf : ∀ a N', R a N' → wp entrySpec (f a) N' Q) : wp entrySpec (c >>= f) N Q :=
  wp_bind monotone_entrySpec (wp_mono monotone_entrySpec hf hc)

theorem entries_call {c : Cmd} {k : Ans c → K α}
    (h : entrySpec c N fun r N' => wp entrySpec (k r) N' Q) : wp entrySpec (call c >>= k) N Q := h

theorem entries_kind {k : Kind → K α} (h : wp entrySpec (k (N i).kind) N Q) :
    wp entrySpec (kind i >>= k) N Q := h

theorem entries_iput (h : Dotted N) : Stays (iput i) N := by
  intro b
  cases b with
  | false => exact h
  | true => exact h.update nofun

theorem entries_iunlockput (h : Dotted N) : Stays (iunlockput i) N :=
  entries_iput h

theorem entries_iunlockput_pure {a : α} (h : Dotted N) (hq : ∀ N', Dotted N' → Q a N') :
    wp entrySpec (iunlockput i >>= fun _ => pure a) N Q :=
  Entries.bind (entries_iunlockput h) fun _ N' hN => hq N' hN

/-- The result of a path lookup is no inode 0. -/
def Found (r : Option (Nat × Name)) (N : Nat → Node) : Prop :=
  Dotted N ∧ ∀ d name, r = some (d, name) → d ≠ 0

theorem found_none (h : Dotted N) : Found none N := ⟨h, nofun⟩

theorem found_some (h : Dotted N) (hd : d ≠ 0) : Found (some (d, name)) N := by
  refine ⟨h, ?_⟩
  rintro _ _ ⟨⟩
  exact hd

theorem entries_namexFrom (np : Bool) (es : List Name) : ∀ {i : Nat} {N : Nat → Node}, i ≠ 0 →
    Dotted N → wp entrySpec (namexFrom np i es) N Found := by
  induction es with
  | nil =>
    intro i N hi h
    rw [namexFrom]
    split
    · exact Entries.bind (entries_iput h) fun _ N' hN => found_none hN
    · exact found_some h hi
  | cons name rest ih =>
    intro i N hi h
    rw [namexFrom]
    change wp entrySpec (if (N i).kind ≠ .dir then _ else _) N Found
    split
    · exact entries_iunlockput_pure h fun N' => found_none
    split
    · exact found_some h hi
    refine entries_call (c := .dirlookup ..) fun _ => ?_
    cases hl : lookup (N i).ents name with
    | none => exact entries_iunlockput_pure h fun N' => found_none
    | some r =>
      obtain ⟨next, off⟩ := r
      exact Entries.bind (entries_iunlockput h) fun _ N' hN => ih (lookup_some hl).2 hN

theorem entries_namex (h : Dotted N) (np : Bool) (path : List Char) :
    wp entrySpec (namex np path) N Found := by
  rw [namex]
  split
  · exact entries_namexFrom np _ (by decide) h
  · exact fun i hi => entries_namexFrom np _ hi h

theorem entries_namei (h : Dotted N) (path : List Char) :
    wp entrySpec (namei path) N fun r N' => Dotted N' ∧ ∀ i, r = some i → i ≠ 0 := by
  refine Entries.bind (entries_namex h false path) fun r N' hN => ⟨hN.1, fun i hi => ?_⟩
  obtain ⟨⟨j, name⟩, rfl, rfl⟩ := map_eq_some_iff.mp hi
  exact hN.2 j name rfl

theorem entries_dirlink (hl : lookup (N d).ents name = none) :
    wp entrySpec (dirlink d name i) N fun ok N' => ok = true ∧
      N' = update N d { N d with ents := insert (N d).ents ⟨i, name⟩ } := by
  intro _
  rw [hl]
  exact ⟨rfl, rfl⟩

theorem Dotted.dirlink (h : Dotted N) : Stays (dirlink d name i) N := by
  refine entries_call (c := .dirlookup ..) fun hd => ?_
  cases hl : lookup (N d).ents name with
  | none =>
    obtain ⟨q, hq⟩ := h d hd
    exact h.update fun _ => ⟨q, hq.insert hl⟩
  | some r => exact Entries.bind (entries_iput h) fun _ _ hN => hN

/-! ## System calls -/

theorem entries_createDots (h0 : i ≠ 0) (hne : i ≠ d) {v : Nat} (hi : N i = ⟨.dir, v, []⟩) :
    wp entrySpec (createDots d i) N fun _ N' => ∃ w, N' = update
      (update N d { N d with nlink := w }) i ⟨.dir, v, [⟨i, dot⟩, ⟨d, dotdot⟩]⟩ := by
  refine entries_call (c := .nlinkInc d) fun w => ?_
  obtain ⟨M, hM⟩ : ∃ M, M = update N d { N d with nlink := w } := ⟨_, rfl⟩
  have hMi : M i = ⟨.dir, v, []⟩ := by rw [hM, update_of_ne hne, hi]
  rw [← hM]
  refine Entries.bind (entries_dirlink (by rw [hMi]; rfl)) ?_
  rintro _ _ ⟨rfl, rfl⟩
  rw [hMi, orPanic_true]
  refine Entries.bind (entries_dirlink ?_) ?_
  · rw [update_self]
    exact if_neg fun h => absurd h.2 (show dot ≠ dotdot by decide)
  rintro _ _ ⟨rfl, rfl⟩
  refine ⟨w, ?_⟩
  rw [update_idem, update_self, hM]
  simp [insert, h0]

section

variable (h : Dotted N)

include h

theorem entries_createNew (h0 : d ≠ 0) (hd : (N d).kind = .dir) (hl : lookup (N d).ents name = none)
    (t : Kind) :
    Stays (createNew d name t) N := by
  refine entries_call (c := .ialloc t) fun i hi hfree => ?_
  have hne : i ≠ d := by
    rintro rfl
    simp [hd] at hfree
  refine entries_call (c := .iget i) <| entries_call (c := .ilock i) <|
    entries_call (c := .nlinkInit i) fun v => ?_
  rw [update_idem, update_self]
  -- the new inode has been made: `M` are the inodes before it is entered
  have hmade : wp entrySpec (if t = .dir then createDots d i else pure ())
      (update N i ⟨t, v, []⟩) fun _ M =>
        Dotted M ∧ lookup (M d).ents name = none ∧ ∃ q, Shaped d q (M d).ents := by
    obtain ⟨q, hq⟩ := h d hd
    split
    · rename_i ht
      subst ht
      refine wp_mono monotone_entrySpec ?_ (entries_createDots hi hne (update_self ..))
      rintro _ _ ⟨w, rfl⟩
      rw [update_comm hne, update_of_ne hne.symm, update_idem,
        update_of_ne hne.symm, update_self]
      refine ⟨(h.update_nlink w).update fun _ => ⟨d, [], rfl, hi, h0, nofun⟩, hl, q, hq⟩
    · rename_i ht
      rw [pure_eq, wp_ret, update_of_ne hne.symm]
      exact ⟨h.update fun h => absurd h ht, hl, q, hq⟩
  -- and then it is entered
  have henter : ∀ M, Dotted M ∧ lookup (M d).ents name = none ∧ (∃ q, Shaped d q (M d).ents) →
      Stays (do
        let ok ← dirlink d name i
        orPanic ok .createDirlink
        iunlockput d
        pure i) M := by
    rintro M ⟨hM, hl, q, hq⟩
    refine Entries.bind (entries_dirlink hl) ?_
    rintro _ _ ⟨rfl, rfl⟩
    exact entries_iunlockput_pure (hM.update fun _ => ⟨q, hq.insert hl⟩) fun _ h => h
  split <;> rename_i ht
  · rw [if_pos ht] at hmade
    exact Entries.bind hmade fun _ => henter
  · rw [if_neg ht] at hmade
    exact henter _ hmade

theorem entries_create (path : List Char) (t : Kind) : Stays (create path t) N := by
  refine Entries.bind (entries_namex h true path) ?_
  rintro r N' ⟨h', hr⟩
  cases r with
  | none => exact h'
  | some r =>
    obtain ⟨dp, name⟩ := r
    refine entries_call (c := .dirlookup ..) fun hd => ?_
    cases hl : lookup (N' dp).ents name with
    | none =>
      exact Entries.bind (entries_createNew h' (hr dp name rfl) hd hl t) fun _ N'' hN => hN
    | some r =>
      obtain ⟨ip, off⟩ := r
      refine Entries.bind (entries_iunlockput h') fun _ N'' hN => ?_
      change wp entrySpec (if t = .file ∧
        ((N'' ip).kind = .file ∨ (N'' ip).kind = .dev) then _ else _)
        N'' _
      split
      · exact hN
      · exact entries_iunlockput_pure hN fun _ h => h

theorem entries_openLocked : Stays (openLocked i) N := by
  refine entries_call (c := .openFile i) fun ok => ?_
  cases ok with
  | true => exact h
  | false => exact entries_iunlockput h

theorem entries_sysOpen (path : List Char) (creat rdonly : Bool) :
    Stays (sysOpen path creat rdonly) N := by
  rw [sysOpen]
  split
  · refine Entries.bind (entries_create h path .file) fun r N' hN => ?_
    cases r with
    | none => exact hN
    | some ip => exact entries_openLocked hN
  · refine Entries.bind (entries_namei h path) fun r N' hN => ?_
    cases r with
    | none => exact hN.1
    | some ip =>
      refine entries_call (c := .ilock ip) <| entries_kind ?_
      split
      · exact entries_iunlockput hN.1
      · exact entries_openLocked hN.1

theorem entries_sysMake (path : List Char) (t : Kind) : Stays (sysMake path t) N := by
  refine Entries.bind (entries_create h path t) fun r N' hN => ?_
  cases r with
  | none => exact hN
  | some ip => exact entries_iunlockput hN

theorem entries_linkBad : Stays (linkBad i) N :=
  entries_call (c := .ilock i) <| entries_call (c := .nlinkDec i) fun v =>
    entries_iunlockput (h.update_nlink v)

theorem entries_sysLink (old new : List Char) : Stays (sysLink old new) N := by
  refine Entries.bind (entries_namei h old) ?_
  rintro r N1 ⟨h1, -⟩
  cases r with
  | none => exact h1
  | some ip =>
    refine entries_call (c := .ilock ip) <| entries_kind ?_
    split
    · exact entries_iunlockput h1
    refine entries_call (c := .nlinkInc ip) fun v => entries_call (c := .iunlock ip) ?_
    refine Entries.bind (entries_namex (h1.update_nlink v) true new) ?_
    rintro r N2 ⟨h2, -⟩
    cases r with
    | none => exact entries_linkBad h2
    | some r =>
      obtain ⟨dp, name⟩ := r
      refine entries_call (c := .ilock dp) <| Entries.bind h2.dirlink fun ok N3 h3 => ?_
      refine Entries.bind (entries_iunlockput h3) fun _ N4 h4 => ?_
      split
      · exact entries_iput h4
      · exact entries_linkBad h4

theorem entries_unlinkErase {off : Nat} {t : Kind}
    (he : ∃ q, Shaped d q ((N d).ents.set off ⟨0, []⟩))
    (hdots : (N i).kind = .dir → OnlyDots (N i).ents) :
    Stays (unlinkErase d off i t) N := by
  have hrest : ∀ M, Dotted M → Stays (do
      iunlockput d
      nlinkDec i
      iunlockput i) M := fun M hM =>
    Entries.bind (entries_iunlockput hM) fun _ M' hM' =>
      entries_call (c := .nlinkDec i) fun v => entries_iunlockput (hM'.update_nlink v)
  refine entries_call (c := .direrase ..) ⟨hdots, ?_⟩
  have h' : Dotted (update N d { N d with ents := (N d).ents.set off ⟨0, []⟩ }) :=
    h.update fun _ => he
  split
  · exact entries_call (c := .nlinkDec d) fun v => hrest _ (h'.update_nlink v)
  · exact hrest _ h'

/-- **`sys_unlink`** erases the entry of a directory only if that is empty. -/
theorem entries_sysUnlink (path : List Char) : Stays (sysUnlink path) N := by
  refine Entries.bind (entries_namex h true path) ?_
  rintro r N1 ⟨h1, -⟩
  cases r with
  | none => exact h1
  | some r =>
    obtain ⟨dp, name⟩ := r
    refine entries_call (c := .ilock dp) ?_
    split
    · exact entries_iunlockput h1
    rename_i hname
    rw [not_or] at hname
    refine entries_call (c := .dirlookup ..) fun hd => ?_
    cases hl : lookup (N1 dp).ents name with
    | none => exact entries_iunlockput h1
    | some r =>
      obtain ⟨ip, off⟩ := r
      obtain ⟨q, hq⟩ := h1 dp hd
      have hset : ∃ q, Shaped dp q ((N1 dp).ents.set off ⟨0, []⟩) :=
        ⟨q, hq.set (lookup_some hl).1 hname.1 hname.2⟩
      refine entries_call (c := .ilock ip) <| entries_call (c := .nlinkBad ip) ?_
      change wp entrySpec (if below1 (N1 ip).nlink = true then _ else _) N1 _
      split
      · trivial
      refine entries_kind ?_
      split
      · rename_i hdir
        obtain ⟨r, hr⟩ := h1 ip hdir
        refine entries_call (c := .isdirempty ip) ⟨hr.isEmpty_iff, ?_⟩
        cases hempty : isEmpty (N1 ip).ents with
        | true => exact entries_unlinkErase h1 hset fun _ => hr.isEmpty_iff.mp hempty
        | false =>
          exact Entries.bind (entries_iunlockput h1) fun _ _ => entries_iunlockput
      · rename_i hdir
        exact entries_unlinkErase h1 hset fun h => absurd h hdir

theorem entries_sysChdir (path : List Char) : Stays (sysChdir path) N := by
  refine Entries.bind (entries_namei h path) ?_
  rintro r N1 ⟨h1, hr⟩
  cases r with
  | none => exact h1
  | some ip =>
    refine entries_call (c := .ilock ip) <| entries_kind ?_
    split
    · exact entries_iunlockput h1
    · exact entries_call (c := .iunlock ip) <|
        entries_call (c := .setCwd ip) ⟨hr ip rfl, fun _ => entries_iput h1⟩

/-- **Every system call** keeps `.` and `..` in their places. -/
theorem Syscall.entries (c : Syscall) : Stays c.code N := by
  cases c with
  | «open» path creat rdonly => exact entries_sysOpen h path creat rdonly
  | mkdir path => exact entries_sysMake h path .dir
  | mknod path => exact entries_sysMake h path .dev
  | link old new => exact entries_sysLink h old new
  | unlink path => exact entries_sysUnlink h path
  | chdir path => exact entries_sysChdir h path
  | close k =>
    refine entries_call (c := .takeFile k) fun r => ?_
    cases r with
    | none => exact h
    | some ip => exact entries_iput h
  | exit => exact entries_call (c := .takeCwd) fun _ => entries_iput h

end

end Rules

/-! ## Runs -/

section Runs

variable {P : Type} [DecidableEq P] {n : Nat} {s s' : State P} {p : P}

/-- **The condition on the steps of a run**: a call begins when all others have returned. -/
def OneByOne (s : State P) : Act P → Prop
  | .call _ _ => ∀ q, s.thread q = .idle
  | _ => True

/-- The invariant of such runs, as long as there is no panic. -/
structure Tidy (s : State P) : Prop where
  cwd : ∀ q i, s.cwd q = some i → i ≠ 0
  threads : (∀ q, s.thread q = .idle) ∧ Dotted s.node ∨ ∃ p c, s.thread p = .run c ∧
    (∀ q, q ≠ p → s.thread q = .idle) ∧ Stays c s.node

omit [DecidableEq P] in
theorem Tidy.running (h : Tidy s) {c : K Unit} (hp : s.thread p = .run c) :
    (∀ q, q ≠ p → s.thread q = .idle) ∧ Stays c s.node := by
  rcases h.threads with ⟨hidle, -⟩ | ⟨r, c', hr, hothers, hwp⟩
  · simp [hidle p] at hp
  · by_cases hpr : p = r
    · subst hpr
      rw [hp] at hr
      obtain rfl := Thread.run.inj hr
      exact ⟨hothers, hwp⟩
    · simp [hothers p hpr] at hp

omit [DecidableEq P] in
theorem Tidy.dotted (h : Tidy s) (hidle : ∀ q, s.thread q = .idle) : Dotted s.node := by
  rcases h.threads with ⟨-, hd⟩ | ⟨q, c, hq, -⟩
  · exact hd
  · simp [hidle q] at hq

theorem cwd_update {cwd : P → Option Nat} {c : Option Nat} (h : ∀ q i, cwd q = some i → i ≠ 0)
    (hc : ∀ i, c = some i → i ≠ 0) (q : P) (i : Nat) (hi : update cwd p c q = some i) :
    i ≠ 0 := by
  by_cases hq : q = p
  · rw [hq, update_self] at hi
    exact hc i hi
  · rw [update_of_ne hq] at hi
    exact h q i hi

theorem stepCmd_entries {o : Choice} {c : Cmd} {k : Ans c → K Unit}
    {Q : Ans c → (Nat → Node) → Prop}
    (hc : ∀ q i, s.cwd q = some i → i ≠ 0) (hs : entrySpec c s.node Q)
    (hst : stepCmd n s p o c k = some s') :
    s'.halted ≠ none ∨ ∃ r, Q r s'.node ∧ s'.thread = update s.thread p (.run (k r)) ∧
      ∀ q i, s'.cwd q = some i → i ≠ 0 := by
  cases c with
  | idupCwd =>
    rw [stepCmd] at hst
    split at hst
    · rename_i i hi
      cases hst
      exact .inr ⟨i, hs i (hc p i hi), rfl, hc⟩
    · cases hst
  | ilock i =>
    rw [stepCmd] at hst
    split at hst
    · split at hst
      · cases hst
        exact .inl (by rintro ⟨⟩)
      · cases hst
        exact .inr ⟨(), hs, rfl, hc⟩
    · cases hst
  | iputTest i =>
    rw [stepCmd] at hst
    split at hst
    · split at hst
      · cases hst
        exact .inr ⟨true, hs true, rfl, hc⟩
      · cases hst
    · cases hst
      exact .inr ⟨false, hs false, rfl, hc⟩
  | dirlookup d name =>
    rw [stepCmd] at hst
    split at hst
    · rename_i hd
      have hQ := hs hd
      split at hst
      · rename_i i off hl
        cases hst
        exact .inr ⟨some (i, off), hl ▸ hQ, rfl, hc⟩
      · rename_i hl
        cases hst
        exact .inr ⟨none, hl ▸ hQ, rfl, hc⟩
    · cases hst
      exact .inl (by rintro ⟨⟩)
  | direrase d off i =>
    cases hst
    exact .inr ⟨(), hs.2, rfl, hc⟩
  | isdirempty d =>
    cases hst
    exact .inr ⟨_, hs.2, rfl, hc⟩
  | nlinkInit i | nlinkInc i | nlinkDec i =>
    cases hst
    exact .inr ⟨(), hs _, rfl, hc⟩
  | ialloc t =>
    rw [stepCmd] at hst
    split at hst
    · rename_i hi
      cases hst
      exact .inr ⟨_, hs _ hi.1.ne' hi.2.2, rfl, hc⟩
    · cases hst
  | takeCwd =>
    rw [stepCmd] at hst
    split at hst
    · cases hst
      exact .inr ⟨_, hs _, rfl, cwd_update hc (by simp)⟩
    · cases hst
  | setCwd i =>
    rw [stepCmd] at hst
    split at hst
    · cases hst
      exact .inr ⟨_, hs.2 _, rfl, cwd_update hc fun j hj => some.inj hj ▸ hs.1⟩
    · cases hst
  | openFile i =>
    rw [stepCmd] at hst
    split at hst
    · cases hst
      exact .inr ⟨true, hs true, rfl, hc⟩
    · cases hst
      exact .inr ⟨false, hs false, rfl, hc⟩
  | takeFile j =>
    rw [stepCmd] at hst
    split at hst
    · cases hst
      exact .inr ⟨_, hs _, rfl, hc⟩
    · cases hst
      exact .inr ⟨_, hs _, rfl, hc⟩
  | panic m =>
    cases hst
    exact .inl (by rintro ⟨⟩)
  | _ =>
    cases hst
    exact .inr ⟨_, hs, rfl, hc⟩

/-- **Every step keeps the invariant**, or is a panic. -/
theorem Tidy.step {a : Act P} (h : s.halted = none → Tidy s) (ha : OneByOne s a)
    (hst : step n s a = some s') : s'.halted = none → Tidy s' := by
  intro hh'
  rw [Dir.step.eq_def] at hst
  split at hst
  · cases hst
  rename_i hh
  have hI := h (by simpa using hh)
  have hc := hI.cwd
  cases a with
  | call p c =>
    dsimp only at hst
    split at hst
    · cases hst
      have hidle : ∀ q, s.thread q = .idle := ha
      refine ⟨hc, .inr ⟨p, c.code, update_self .., fun q hq => ?_,
        c.entries (hI.dotted hidle)⟩⟩
      exact (update_of_ne hq ..).trans (hidle q)
    · cases hst
  | run p o =>
    dsimp only at hst
    split at hst
    · rename_i c k hp
      obtain ⟨hothers, hwp⟩ := hI.running hp
      rcases stepCmd_entries hc hwp hst with hhalt | ⟨r, hQ, hthread, hc'⟩
      · exact absurd hh' hhalt
      · refine ⟨hc', .inr ⟨p, k r, ?_, fun q hq => ?_, hQ⟩⟩
        · rw [hthread, update_self]
        · rw [hthread, update_of_ne hq, hothers q hq]
    · rename_i u hp
      obtain ⟨hothers, hwp⟩ := hI.running hp
      cases hst
      refine ⟨hc, .inl ⟨fun q => ?_, hwp⟩⟩
      by_cases hq : q = p
      · rw [hq]
        exact update_self ..
      · exact (update_of_ne hq ..).trans (hothers q hq)
    · cases hst
  | fork p q =>
    dsimp only at hst
    split at hst
    · rename_i i hp _ _ _
      cases hst
      exact ⟨cwd_update hc fun j hj => some.inj hj ▸ hc p i hp, hI.threads⟩
    · cases hst

/-- **`.` and `..`**, in every state that any calls, one after the other, lead to from a well-formed
file system:

* between two calls the first entry of every directory is `.`, for the directory itself, the second
  is `..`, and `isdirempty` tells whether there is any other name;
* within a call, what `isdirempty` tells is right, and when `sys_unlink` is about to erase the entry
  of a directory there is no other name in that. -/
theorem dots_stay [Fintype P] (h : (machine P n (WellFormed n)).Reach OneByOne s)
    (hh : s.halted = none) :
    ((∀ p, s.thread p = .idle) → ∀ d, (s.node d).kind = .dir →
      (s.node d).ents[0]? = some ⟨d, dot⟩ ∧ (∃ q, (s.node d).ents[1]? = some ⟨q, dotdot⟩) ∧
      (isEmpty (s.node d).ents = true ↔ OnlyDots (s.node d).ents)) ∧
    (∀ p d k, s.thread p = .run (.cmd (.isdirempty d) k) →
      (isEmpty (s.node d).ents = true ↔ OnlyDots (s.node d).ents)) ∧
    ∀ p d off i k, s.thread p = .run (.cmd (.direrase d off i) k) → (s.node i).kind = .dir →
      OnlyDots (s.node i).ents := by
  have hinv : s.halted = none → Tidy s := by
    refine h.inv (I := fun s => s.halted = none → Tidy s) (fun s hs _ => ?_)
      fun _ _ _ hI ha hst => Tidy.step hI ha hst
    obtain ⟨hw, hcwd, -, -, hidle, -⟩ := hs
    refine ⟨fun q i hi => ?_, .inl ⟨hidle, hw.shape⟩⟩
    rcases hcwd q with h0 | h1
    · simp [h0] at hi
    · rw [h1] at hi
      exact some.inj hi ▸ by decide
  have hI := hinv hh
  refine ⟨fun hidle d hd => ?_, fun p d k hp => (hI.running hp).2.1,
    fun p d off i k hp => (hI.running hp).2.1⟩
  obtain ⟨q, hq⟩ := hI.dotted hidle d hd
  obtain ⟨rest, hes, -⟩ := id hq
  rw [hes]
  exact ⟨rfl, ⟨q, rfl⟩, hes ▸ hq.isEmpty_iff⟩

end Runs

/-- A directory that has been made and removed again, with one still there. -/
theorem dots_stay_makeAndRemove : ∃ s, (machine (Fin 1) 200 (WellFormed 200)).Reach OneByOne s ∧
    (s.node 3).kind = .free ∧ (s.node 2).ents[0]? = some ⟨2, dot⟩ ∧
    (isEmpty (s.node 2).ents = true ↔ OnlyDots (s.node 2).ents) := by
  have hrun : ((machine (Fin 1) 200 (WellFormed 200)).execOk
      (fun s a => match a with
        | .call _ _ => (s.thread 0).isIdle
        | _ => true) alone makeAndRemove).map (fun s => decide (s.halted = none ∧
          (s.thread 0).isIdle ∧ (s.node 3).kind = .free ∧ (s.node 2).kind = .dir)) = some true := by
    decide +kernel
  obtain ⟨s, hs, hd⟩ := map_eq_some_iff.mp hrun
  have hreach : (machine (Fin 1) 200 (WellFormed 200)).Reach OneByOne s := by
    refine (reach_of_execOk (.init (init_alone (by decide))) hs).mono fun s a h => ?_
    cases a with
    | call p c => exact Fin.forall_fin_one.mpr (Thread.eq_idle h)
    | run p o | fork p q => trivial
  obtain ⟨h1, h2, h3, h4⟩ := of_decide_eq_true hd
  obtain ⟨hdot, -, hempty⟩ :=
    (dots_stay hreach h1).1 (Fin.forall_fin_one.mpr (Thread.eq_idle h2)) 2 h4
  exact ⟨s, hreach, h3, hdot, hempty⟩

end Xv6.Dir
