import Xv6.Ftable.Balance

/-!
# One step

A command that the rules of `Rules` allow keeps the invariant of `Balance`, and does to the view of
its process what the rules say.  To the other processes it does nothing that they could notice
(`Kept`): their views stay, or they are not running, and then it does not matter which descriptors
they have.
-/

namespace Xv6.Ftable

open Account Option State
open Function (update update_self update_of_ne)

variable {P : Type} [DecidableEq P] {a ip : Nat} {l : Life} {w : Bool}

/-! ## Views -/

/-- What happens to a process when another one takes a step. -/
def Kept (s s' : State P) (q : P) : Prop :=
  view s' q = view s q ∨ s.life q ≠ .alive ∧ s'.books q = s.books q ∧ s'.child q = s.child q

section View

variable {s : State P} {p q : P} {f : F} {x : File} {b : Books} {fd : Fd} {y : Option F}

theorem view_note_self : view (s.note p b) p = (view s p).note b := by
  rw [view, note_books_self]
  rfl

theorem view_note_of_ne (h : q ≠ p) : view (s.note p b) q = view s q := by
  rw [view, note_books_of_ne h]
  rfl

theorem view_put_self : view (s.put p f x b) p = (view s p).note b := view_note_self

theorem view_put_of_ne (h : q ≠ p) : view (s.put p f x b) q = view s q := view_note_of_ne h

theorem view_setOfile (h : s.child q ≠ some p) : view (s.setOfile p fd y) q =
    { view s q with ofile := update s.ofile p (update (s.ofile p) fd y) q } := by
  rw [view, view, setOfile_ofile]
  congr 1
  cases hc : s.child q with
  | none => rw [setOfile_child, hc]; rfl
  | some r =>
    have hr : r ≠ p := fun he => h (by rw [hc, he])
    rw [setOfile_child, hc, map_some, map_some, update_of_ne hr]

theorem view_setOfile_self (h : s.child p ≠ some p) :
    view (s.setOfile p fd y) p = (view s p).setOfile fd y := by
  rw [view_setOfile h, update_self]
  rfl

theorem view_setOfile_of_ne (h : s.child q ≠ some p) (hq : q ≠ p) :
    view (s.setOfile p fd y) q = view s q := by
  rw [view_setOfile h, update_of_ne hq]
  rfl

omit [DecidableEq P] in
theorem Family.not_child (h : Family s) (hp : s.life p = .alive) :
    s.child q ≠ some p := fun hc => by
  have := h.embryo q p hc
  simp [hp] at this

end View

/-! ## The descriptors -/

variable [Fintype P] {s s' : State P} {p : P} {f : F} {b : Books} {fd : Fd} {y : Option F}

/-- What is to be shown of a step: the invariant, the view of `p`, and the others. -/
structure Fine (p : P) (s s' : State P) (v : View P) : Prop where
  inv : Inv s'
  self : view s' p = v
  others : ∀ q, q ≠ p → Kept s s' q

/-- A step that leaves `b` in the books of `p`, and changes nothing else that `p` sees. -/
abbrev Noted (p : P) (s s' : State P) (b : Books) : Prop :=
  Fine p s (s'.note p b) ((view s p).note b)

omit [Fintype P] in
theorem Family.setOfile (h : Family s) (hp : s.life p = .alive) : Family (s.setOfile p fd y) where
  bare q hq d := by
    have hne : q ≠ p := by
      rintro rfl
      rw [setOfile_life, hp] at hq
      exact hq.elim nofun nofun
    rw [setOfile_ofile, update_of_ne hne]
    exact h.bare q hq d
  embryo := h.embryo
  parent := h.parent

/-- A step that only changes the books, and not what the process accounts for. -/
theorem fine_setOfile (h : Inv s) (hp : s.life p = .alive)
    (hb : ∀ g, slots (update (s.ofile p) fd y) g + b.files g = net s p g)
    (hr : b.inodes = (s.books p).inodes ∧ b.ends = (s.books p).ends ∧ b.pages = (s.books p).pages ∧
      b.fresh = (s.books p).fresh) :
    Fine p s ((s.setOfile p fd y).note p b) (((view s p).setOfile fd y).note b) where
  inv := by
    refine ⟨h.fault, h.files.congr rfl (fun q g => ?_) (note_congr Books.fresh hr.2.2.2),
      h.inodes.congr rfl rfl (note_congr Books.inodes hr.1),
      h.pipes.congr rfl rfl (note_congr Books.ends hr.2.1) (note_congr Books.pages hr.2.2.1), ?_⟩
    · by_cases hq : q = p
      · subst hq
        rw [net, note_books_self, note_ofile, setOfile_ofile, update_self]
        exact hb g
      · rw [net, note_books_of_ne hq, note_ofile, setOfile_ofile, update_of_ne hq]
        rfl
    · have hf : Family (s.setOfile p fd y) := h.family.setOfile hp
      exact ⟨hf.bare, hf.embryo, hf.parent⟩
  self := by rw [view_note_self, view_setOfile_self (h.family.not_child hp)]
  others q hq := .inl (by rw [view_note_of_ne hq, view_setOfile_of_ne (h.family.not_child hp) hq])

theorem fine_clear (h : Inv s) (hp : s.life p = .alive) (hf : s.ofile p fd = some f) :
    Fine p s ((s.setOfile p fd none).note p ((s.books p).addFile f 1))
      (((view s p).setOfile fd none).note ((s.books p).addFile f 1)) :=
  fine_setOfile h hp (fun g => slots_clear hf _ g) ⟨rfl, rfl, rfl, rfl⟩

theorem fine_fdalloc (h : Inv s) (hp : s.life p = .alive) (hf : s.ofile p fd = none) (f : F) :
    Fine p s ((s.setOfile p fd (some f)).note p ((s.books p).addFile f (-1)))
      (((view s p).setOfile fd (some f)).note ((s.books p).addFile f (-1))) :=
  fine_setOfile h hp (fun g => slots_fdalloc hf _ f g) ⟨rfl, rfl, rfl, rfl⟩

/-! ## The files -/

variable {x : File}

theorem fine_put (h : Inv s) (hf : Files (s.put p f x b)) (hi : Inodes (s.put p f x b))
    (hp : Pipes (s.put p f x b)) : Noted p s (s.setFile f x) b where
  inv := ⟨h.fault, hf, hi, hp, ⟨h.family.bare, h.family.embryo, h.family.parent⟩⟩
  self := view_put_self
  others _ hq := .inl (view_put_of_ne hq)

/-- What the file stands for, and the books for the rest, are as they were. -/
theorem fine_put_same (h : Inv s) (hf : Files (s.put p f x b))
    (hx : x.type = (s.file f).type ∧ x.ip = (s.file f).ip ∧ x.pipe = (s.file f).pipe ∧
      x.writable = (s.file f).writable)
    (hb : b.inodes = (s.books p).inodes ∧ b.ends = (s.books p).ends ∧ b.pages = (s.books p).pages) :
    Noted p s (s.setFile f x) b := by
  obtain ⟨ht, hip, hpi, hw⟩ := hx
  obtain ⟨hi, he, hp⟩ := hb
  refine fine_put h hf (h.inodes.put (fun i => ?_) ?_) (h.pipes.put (fun e => ?_) hp ?_)
  · rw [hi, File.inodeAt, File.inodeAt, ht, hip]
  · rw [hi]
    exact h.inodes.nonneg p
  · rw [he, File.endOf, File.endOf, ht, hpi, hw]
  · rw [he]
    exact h.pipes.ends_nonneg p

theorem fine_filealloc (h : Inv s) (hf : (s.file f).ref = 0) :
    Noted p s (s.setFile f { s.file f with ref := 1 })
      (((s.books p).addFile f 1).setFresh f true) := by
  have hnet := h.files.net_eq_zero hf
  have hfresh : ∀ q, (s.books q).fresh f = false := fun q => by
    by_contra hq
    have := (h.files.fresh q f (by simpa using hq)).2
    rw [hnet] at this
    omega
  refine fine_put_same h (h.files.put (d := 1) ?_ rfl ?_ nofun (.inl (h.files.closed f hf))
    fun g hg => ?_)
    ⟨rfl, rfl, rfl, rfl⟩ ⟨rfl, rfl, rfl⟩
  · rw [hf]
    rfl
  · rw [hnet]
    decide
  · by_cases hgf : g = f
    · refine .inr ⟨hgf, h.files.closed f hf, ?_, fun q _ => hfresh q⟩
      rw [hnet]
      decide
    · refine .inl ⟨hgf, ?_⟩
      rw [Books.setFresh_fresh, update_of_ne hgf] at hg
      exact hg

theorem fine_filedup (h : Inv s) (hf : 1 ≤ net s p f) :
    Noted p s (s.setFile f { s.file f with ref := (s.file f).ref + 1 })
      ((s.books p).addFile f 1) := by
  refine fine_put_same h (h.files.put (d := 1) ?_ rfl ?_ nofun (.inr (.inl rfl)) fun g hg => ?_)
    ⟨rfl, rfl, rfl, rfl⟩ ⟨rfl, rfl, rfl⟩
  · push_cast
    rfl
  · omega
  · by_cases hgf : g = f
    · subst hgf
      refine .inr ⟨rfl, (h.files.fresh p g hg).1, by omega, fun q hq => ?_⟩
      by_contra hq'
      exact hq (h.files.owner q p g (by simpa using hq') hg)
    · exact .inl ⟨hgf, hg⟩

theorem of_update_false {c : F → Bool} {g : F} (h : update c f false g = true) :
    g ≠ f ∧ c g = true := by
  by_cases hg : g = f
  · simp [hg] at h
  · rw [update_of_ne hg] at h
    exact ⟨hg, h⟩

theorem fine_closeRef (h : Inv s) (hf : 1 ≤ net s p f) (hr : 0 < (s.file f).ref - 1) :
    Noted p s (s.setFile f { s.file f with ref := (s.file f).ref - 1 })
      (((s.books p).addFile f (-1)).setFresh f false) := by
  refine fine_put_same h (h.files.put (d := -1) ?_ rfl ?_ (fun h0 => ?_) (.inr (.inl rfl))
    fun g hg => ?_)
    ⟨rfl, rfl, rfl, rfl⟩ ⟨rfl, rfl, rfl⟩
  · dsimp only
    omega
  · omega
  · exact absurd h0 (by dsimp only; omega)
  · exact .inl (of_update_false hg)

theorem release_rest (b : Books) (ff : File) : (b.release ff).files = b.files ∧
    (b.release ff).fresh = b.fresh ∧ (b.release ff).pages = b.pages := by
  rw [Books.release]
  split <;> exact ⟨rfl, rfl, rfl⟩

theorem release_inodes (b : Books) (ff : File) (ip : Nat) :
    (b.release ff).inodes ip = b.inodes ip + ff.inodeAt ip := by
  obtain ⟨type, ref, readable, writable, pipe, i⟩ := ff
  cases type <;> simp [Books.release, File.inodeAt, bump_apply, eq_comm]

theorem release_ends (b : Books) (ff : File) (e : Nat × Bool) :
    (b.release ff).ends e = b.ends e + ff.endOf e := by
  obtain ⟨type, ref, readable, writable, pipe, i⟩ := ff
  cases type <;> simp [Books.release, File.endOf, bump_apply, eq_comm]

section

variable (h : Inv s)

include h

/-- `fileclose`, when it is: the books take over what the file stood for. -/
theorem fine_closeRef_last (hf : 1 ≤ net s p f) (hr : ¬0 < (s.file f).ref - 1) :
    Noted p s (s.setFile f { s.file f with ref := 0, type := .none })
      ((((s.books p).addFile f (-1)).setFresh f false).release (s.file f)) := by
  obtain ⟨hfiles, hfresh, hpages⟩ :=
    release_rest (((s.books p).addFile f (-1)).setFresh f false) (s.file f)
  have href : (s.file f).ref = 1 := by
    have := h.files.pos hf
    omega
  have hi : ∀ ip, File.inodeAt { s.file f with ref := 0, type := .none } ip = 0 := fun ip => by
    simp [File.inodeAt]
  have he : ∀ e, File.endOf { s.file f with ref := 0, type := .none } e = 0 := fun e => by
    simp [File.endOf]
  refine fine_put h (h.files.put (d := -1) ?_ ?_ ?_ (fun _ => rfl) (.inl rfl) fun g hg => ?_)
    (h.inodes.put (fun ip => ?_) fun ip => ?_) (h.pipes.put (fun e => ?_) ?_ fun e => ?_)
  · rw [href]
    rfl
  · exact hfiles
  · omega
  · rw [hfresh] at hg
    exact .inl (of_update_false hg)
  · rw [hi, release_inodes, zero_add, add_comm]
    rfl
  · have := h.inodes.nonneg p ip
    have := (s.file f).inodeAt_nonneg ip
    rw [release_inodes]
    change 0 ≤ (s.books p).inodes ip + _
    omega
  · rw [he, release_ends, zero_add, add_comm]
    rfl
  · exact hpages
  · have := h.pipes.ends_nonneg p e
    have := (s.file f).endOf_nonneg e
    rw [release_ends]
    change 0 ≤ (s.books p).ends e + _
    omega

/-- A new file is filled: it takes over what is in the books. -/
theorem fine_fill (hf : (s.books p).fresh f = true) (hr : x.ref = (s.file f).ref)
    (hb : b.files = (s.books p).files ∧ b.pages = (s.books p).pages ∧
      b.fresh = update (s.books p).fresh f false)
    (hi : ∀ ip, x.inodeAt ip + b.inodes ip = (s.books p).inodes ip) (hin : ∀ ip, 0 ≤ b.inodes ip)
    (he : ∀ e, x.endOf e + b.ends e = (s.books p).ends e) (hen : ∀ e, 0 ≤ b.ends e) :
    Noted p s (s.setFile f x) b := by
  obtain ⟨ht, hnet⟩ := h.files.fresh p f hf
  have hi0 : ∀ ip, (s.file f).inodeAt ip = 0 := fun ip => by simp [File.inodeAt, ht]
  have he0 : ∀ e, (s.file f).endOf e = 0 := fun e => by simp [File.endOf, ht]
  refine fine_put h (h.files.put (d := 0) ?_ ?_ ?_ (fun h0 => ?_) (.inr (.inr hf)) fun g hg => ?_)
    (h.inodes.put (fun ip => ?_) hin) (h.pipes.put (fun e => ?_) hb.2.1 hen)
  · rw [hr, add_zero]
  · rw [hb.1, bump_zero]
  · omega
  · have := h.files.pos hnet
    omega
  · rw [hb.2.2] at hg
    exact .inl (of_update_false hg)
  · rw [hi, hi0, zero_add]
  · rw [he, he0, zero_add]

theorem fine_setPipe (hf : (s.books p).fresh f = true) {pi : Nat}
    (he : 1 ≤ (s.books p).ends (pi, w)) :
    Noted p s
      (s.setFile f { s.file f with type := .pipe, readable := !w, writable := w, pipe := pi })
      (((s.books p).addEnd (pi, w) (-1)).setFresh f false) := by
  refine fine_fill h hf rfl ⟨rfl, rfl, rfl⟩ (fun ip => ?_) (h.inodes.nonneg p) (fun e => ?_) ?_
  · simp [File.inodeAt]
  · by_cases hew : (pi, w) = e
    · subst hew
      simp [File.endOf]
    · simp [File.endOf, hew, bump_of_ne _ _ (Ne.symm hew)]
  · exact bump_nonneg _ (h.pipes.ends_nonneg p) (by omega)

theorem fine_setInode (hf : (s.books p).fresh f = true) {device r : Bool}
    (hi : 1 ≤ (s.books p).inodes ip) :
    Noted p s
      (s.setFile f { s.file f with
        type := if device then .device else .inode, ip := ip, readable := r, writable := w })
      (((s.books p).addInode ip (-1)).setFresh f false) := by
  refine fine_fill h hf rfl ⟨rfl, rfl, rfl⟩ (fun i => ?_) ?_ (fun e => ?_) (h.pipes.ends_nonneg p)
  · by_cases hii : ip = i
    · subst hii
      cases device <;> simp [File.inodeAt]
    · simp [File.inodeAt, hii, bump_of_ne _ _ (Ne.symm hii)]
  · exact bump_nonneg _ (h.inodes.nonneg p) (by omega)
  · cases device <;> simp [File.endOf]

/-! ## Inodes and pipes -/

theorem fine_inode {n : Nat} {d : ℤ} (hr : (n : ℤ) = s.iref ip + d)
    (hn : 0 ≤ (s.books p).inodes ip + d) :
    Noted p s { s with iref := update s.iref ip n } ((s.books p).addInode ip d) where
  inv := by
    refine ⟨h.fault, h.files.congr rfl (fun q g => ?_) (note_congr Books.fresh rfl),
      h.inodes.count hr hn,
      h.pipes.congr rfl rfl (note_congr Books.ends rfl) (note_congr Books.pages rfl),
      ⟨h.family.bare, h.family.embryo, h.family.parent⟩⟩
    exact congrArg (slots (s.ofile q) g + ·) (congrFun (note_congr (b := (s.books p).addInode ip d)
      Books.files rfl q) g)
  self := view_note_self
  others _ hq := .inl (view_note_of_ne hq)

theorem fine_pipe {a : Nat} {y : Option Pipe}
    (hp : Pipes (({ s with pipe := update s.pipe a y }).note p b))
    (hb : b.files = (s.books p).files ∧ b.inodes = (s.books p).inodes ∧
      b.fresh = (s.books p).fresh) :
    Noted p s { s with pipe := update s.pipe a y } b where
  inv := by
    refine ⟨h.fault, h.files.congr rfl (fun q g => ?_) (note_congr Books.fresh hb.2.2),
      h.inodes.congr rfl rfl (note_congr Books.inodes hb.2.1), hp,
      ⟨h.family.bare, h.family.embryo, h.family.parent⟩⟩
    exact congrArg (slots (s.ofile q) g + ·) (congrFun (note_congr Books.files hb.1 q) g)
  self := view_note_self
  others _ hq := .inl (view_note_of_ne hq)

theorem fine_kalloc (ha : s.pipe a = none) :
    Noted p s { s with pipe := update s.pipe a (some ⟨true, true⟩) }
      (((s.books p).addEnd (a, false) 1).addEnd (a, true) 1) := by
  have hn := h.pipes.ends_nonneg p
  refine fine_pipe h (h.pipes.page (fun w => ?_) (fun c w hc => ?_) ?_ (fun c _ => rfl) ?_
    (h.pipes.pages_nonneg p)) ⟨rfl, rfl, rfl⟩
  · cases w <;> simp [ha, openEnd, Pipe.isOpen, bump_apply]
  · simp [bump_apply, hc]
  · simp [ha, used, live]
  · refine bump_nonneg _ (bump_nonneg _ hn ?_) ?_
    · have := hn (a, false)
      omega
    · have := hn (a, true)
      rw [Books.addEnd_ends, bump_of_ne _ _ (by simp)]
      omega

theorem fine_kfree (ha : 1 ≤ (s.books p).pages a) :
    Noted p s { s with pipe := update s.pipe a none } ((s.books p).addPage a (-1)) := by
  obtain ⟨x, hx, hr, hw⟩ := h.pipes.some_of_pages ha
  refine fine_pipe h (h.pipes.page (fun w => ?_) (fun c w _ => rfl) ?_ (fun c hc => ?_)
    (h.pipes.ends_nonneg p) ?_) ⟨rfl, rfl, rfl⟩
  · cases w <;> simp [hx, openEnd, Pipe.isOpen, hr, hw]
  · simp [hx, used, live, hr, hw]
    omega
  · simp [bump_of_ne _ _ hc]
  · exact bump_nonneg _ (h.pipes.pages_nonneg p) (by omega)

/-- One end is closed; if that was the last one, the page is in the books. -/
theorem fine_closeEnd {x : Pipe} (hx : s.pipe a = some x) (hw : x.isOpen w = true)
    (he : 1 ≤ (s.books p).ends (a, w)) :
    Noted p s { s with pipe := update s.pipe a (some (x.close w)) }
      (((s.books p).addEnd (a, w) (-1)).addPage a
        (if !(x.close w).readopen && !(x.close w).writeopen then 1 else 0)) := by
  refine fine_pipe h (h.pipes.page (fun w' => ?_) (fun c w' hc => ?_) ?_ (fun c hc => ?_) ?_ ?_)
    ⟨rfl, rfl, rfl⟩
  · cases w <;> cases w' <;> simp_all [openEnd, Pipe.isOpen, Pipe.close, bump_apply, sub_eq_add_neg]
  · simp [bump_apply, hc]
  · cases w <;> cases hro : x.readopen <;> cases hwo : x.writeopen <;>
      simp_all [used, live, Pipe.isOpen, Pipe.close]
  · simp [bump_of_ne _ _ hc]
  · exact bump_nonneg _ (h.pipes.ends_nonneg p) (by omega)
  · refine bump_nonneg _ (h.pipes.pages_nonneg p) ?_
    have := h.pipes.pages_nonneg p a
    split <;> simp only [Books.addEnd_pages] <;> omega

end

/-! ## Processes -/

omit [DecidableEq P] in
theorem Inv.of_family (h : Inv s) {life : P → Life} {child : P → Option P}
    (hf : Family { s with life := life, child := child }) :
    Inv { s with life := life, child := child } :=
  ⟨h.fault, h.files.congr rfl (fun _ _ => rfl) fun _ => rfl, h.inodes.congr rfl rfl fun _ => rfl,
    h.pipes.congr rfl rfl (fun _ => rfl) fun _ => rfl, hf⟩

omit [DecidableEq P] [Fintype P] in
theorem view_procs (life : P → Life) (child : P → Option P) (q : P) :
    view { s with life := life, child := child } q =
      ⟨life q, s.ofile q, s.books q, (child q).map fun r => (r, s.ofile r)⟩ := rfl

variable {np : P}

omit [Fintype P] in
theorem kept_procs {c : Option P} {q : P} (hn : s.life np ≠ .alive) (hq : q ≠ p) :
    Kept s { s with life := update s.life np l, child := update s.child p c } q := by
  by_cases hqn : q = np
  · subst hqn
    exact .inr ⟨hn, rfl, update_of_ne hq ..⟩
  · refine .inl ?_
    rw [view_procs, update_of_ne hqn, update_of_ne hq]
    rfl

theorem fine_allocproc (h : Inv s) (hp : s.life p = .alive) (hn : s.life np = .unused) :
    Fine p s { s with
        life := update s.life np .embryo, child := update s.child p (some np) }
      { view s p with child := some (np, fun _ => none) } := by
  have hne : np ≠ p := by
    rintro rfl
    simp [hp] at hn
  have hnot : ∀ q r, s.child q = some r → r ≠ np := by
    rintro q r hq rfl
    have := h.family.embryo q r hq
    simp [hn] at this
  refine ⟨h.of_family ⟨fun q hq fd => ?_, fun q r hq => ?_, fun q q' r hq hq' => ?_⟩, ?_,
    fun q hq => ?_⟩
  · refine h.family.bare q ?_ fd
    by_cases hqn : q = np
    · exact .inl (by rw [hqn, hn])
    · simpa [update_of_ne hqn] using hq
  · dsimp only at hq ⊢
    by_cases hqp : q = p
    · subst hqp
      obtain rfl : np = r := by simpa using hq
      exact update_self ..
    · rw [update_of_ne hqp] at hq
      rw [update_of_ne (hnot q r hq)]
      exact h.family.embryo q r hq
  · dsimp only at hq hq'
    by_cases hqp : q = p <;> by_cases hqp' : q' = p
    · rw [hqp, hqp']
    · subst hqp
      rw [update_self] at hq
      rw [update_of_ne hqp'] at hq'
      exact absurd (some.inj hq).symm (hnot q' r hq')
    · subst hqp'
      rw [update_self] at hq'
      rw [update_of_ne hqp] at hq
      exact absurd (some.inj hq').symm (hnot q r hq)
    · rw [update_of_ne hqp] at hq
      rw [update_of_ne hqp'] at hq'
      exact h.family.parent q q' r hq hq'
  · have ho : s.ofile np = fun _ => none := funext (h.family.bare np (.inl hn))
    rw [view_procs, update_of_ne hne.symm, update_self, map_some, ho]
    rfl
  · exact kept_procs (by rw [hn]; nofun) hq

omit [Fintype P] in
theorem Family.release (h : Family s) (hc : s.child p = some np)
    (hl : l = .unused ∨ l = .zombie → ∀ fd, s.ofile np fd = none) :
    Family { s with life := update s.life np l, child := update s.child p none } := by
  have hrest : ∀ q r, update s.child p none q = some r → q ≠ p ∧ s.child q = some r := by
    intro q r hq
    by_cases hqp : q = p
    · simp [hqp, update_self] at hq
    · rw [update_of_ne hqp] at hq
      exact ⟨hqp, hq⟩
  refine ⟨fun q hq fd => ?_, fun q r hq => ?_, fun q q' r hq hq' => ?_⟩
  · by_cases hqn : q = np
    · subst hqn
      exact hl (by simpa using hq) fd
    · exact h.bare q (by simpa [update_of_ne hqn] using hq) fd
  · obtain ⟨hqp, hqr⟩ := hrest q r hq
    have hr : r ≠ np := by
      rintro rfl
      exact hqp (h.parent q p r hqr hc)
    simpa [hr] using h.embryo q r hqr
  · exact h.parent q q' r (hrest q r hq).2 (hrest q' r hq').2

section

variable (h : Inv s) (hp : s.life p = .alive)

include h hp

theorem fine_release (hc : s.child p = some np)
    (hl : l = .unused ∨ l = .zombie → ∀ fd, s.ofile np fd = none) :
    Fine p s { s with life := update s.life np l, child := update s.child p none }
      { view s p with child := none } := by
  have hn := h.family.embryo p np hc
  have hne : np ≠ p := by
    rintro rfl
    simp [hp] at hn
  refine ⟨h.of_family (h.family.release hc hl), ?_, fun q hq => ?_⟩
  · rw [view_procs, update_of_ne hne.symm, update_self]
    rfl
  · exact kept_procs (by rw [hn]; nofun) hq

theorem fine_zombie (ho : ∀ fd, s.ofile p fd = none) :
    Fine p s { s with life := update s.life p .zombie } { view s p with life := .zombie } := by
  refine ⟨h.of_family ⟨fun q hq fd => ?_, fun q r hq => ?_, h.family.parent⟩, ?_,
    fun q hq => .inl ?_⟩
  · by_cases hqp : q = p
    · rw [hqp]
      exact ho fd
    · exact h.family.bare q (by simpa [update_of_ne hqp] using hq) fd
  · have hr : r ≠ p := fun he => h.family.not_child hp (hq.trans (by rw [he]))
    simpa [hr] using h.family.embryo q r hq
  · exact (view_procs ..).trans (by rw [update_self]; rfl)
  · exact (view_procs ..).trans (by rw [update_of_ne hq]; rfl)

theorem fine_reap (hn : s.life np = .zombie) :
    Fine p s { s with life := update s.life np .unused } (view s p) := by
  have hne : p ≠ np := by
    rintro rfl
    simp [hp] at hn
  refine ⟨h.of_family ⟨fun q hq fd => ?_, fun q r hq => ?_, h.family.parent⟩, ?_, fun q hq => ?_⟩
  · by_cases hqn : q = np
    · rw [hqn]
      exact h.family.bare np (.inr hn) fd
    · exact h.family.bare q (by simpa [update_of_ne hqn] using hq) fd
  · have hr : r ≠ np := by
      rintro rfl
      have := h.family.embryo q r hq
      simp [hn] at this
    simpa [hr] using h.family.embryo q r hq
  · exact (view_procs ..).trans (by rw [update_of_ne hne]; rfl)
  · by_cases hqn : q = np
    · subst hqn
      exact .inr ⟨by rw [hn]; nofun, rfl, rfl⟩
    · exact .inl ((view_procs ..).trans (by rw [update_of_ne hqn]; rfl))

theorem fine_childOfile (hc : s.child p = some np) (ho : s.ofile np fd = none)
    (hf : 1 ≤ (s.books p).files f) (hfr : (s.books p).fresh f = false) :
    Fine p s ((s.setOfile np fd (some f)).note p ((s.books p).addFile f (-1)))
      { view s p with
        child := some (np, update (s.ofile np) fd (some f)),
        books := (s.books p).addFile f (-1) } := by
  have hn := h.family.embryo p np hc
  have hne : p ≠ np := by
    rintro rfl
    simp [hp] at hn
  set s' := (s.setOfile np fd (some f)).note p ((s.books p).addFile f (-1)) with hs'
  have hnet : ∀ q g, net s' q g = net s q g +
      ((if q = np ∧ g = f then 1 else 0) - if q = p ∧ g = f then 1 else 0) := by
    intro q g
    have hslots : slots (s'.ofile q) g = slots (s.ofile q) g + if q = np ∧ g = f then 1 else 0 := by
      rw [hs', note_ofile, setOfile_ofile]
      by_cases hq : q = np
      · subst hq
        rw [update_self, slots_update, ho]
        simp [eq_comm]
      · rw [update_of_ne hq, if_neg (fun he => hq he.1), add_zero]
    have hfiles : (s'.books q).files g = (s.books q).files g - if q = p ∧ g = f then 1 else 0 := by
      rw [hs']
      by_cases hq : q = p
      · subst hq
        rw [note_books_self, Books.addFile_files, bump_apply]
        by_cases hg : g = f
        · simp [hg]
          omega
        · simp [hg]
      · rw [note_books_of_ne hq, if_neg (fun he => hq he.1), sub_zero]
        rfl
    rw [net, net, hslots, hfiles]
    omega
  have hfresh : ∀ q, (s'.books q).fresh = (s.books q).fresh := fun q =>
    note_congr (s := s.setOfile np fd (some f)) (b := (s.books p).addFile f (-1)) Books.fresh rfl q
  refine ⟨⟨h.fault, ⟨fun g => ?_, fun q g => ?_, h.files.closed,
    fun q g hq => ?_, fun q r g hq hr => ?_⟩, ?_, ?_, ?_⟩,
    ?_, fun q hq => ?_⟩
  · have hone : ∀ r : P, ∑ q, (if q = r ∧ g = f then (1 : ℤ) else 0) = if g = f then 1 else 0 := by
      intro r
      by_cases hg : g = f <;> simp [hg]
    simp only [hnet, Finset.sum_add_distrib, Finset.sum_sub_distrib, hone, sub_self, add_zero]
    exact h.files.refs g
  · have h1 := h.files.net_nonneg q g
    have h2 := slots_nonneg (s.ofile p) f
    rw [hnet]
    by_cases hq : q = p ∧ g = f
    · obtain ⟨rfl, rfl⟩ := hq
      rw [if_neg (fun he => hne he.1), if_pos ⟨rfl, rfl⟩, net]
      omega
    · rw [if_neg hq]
      split <;> omega
  · rw [hfresh] at hq
    obtain ⟨h1, h2⟩ := h.files.fresh q g hq
    refine ⟨h1, ?_⟩
    have hqp : ¬(q = p ∧ g = f) := by
      rintro ⟨rfl, rfl⟩
      simp [hfr] at hq
    rw [hnet, if_neg hqp]
    split <;> omega
  · rw [hfresh] at hq hr
    exact h.files.owner q r g hq hr
  · exact h.inodes.congr rfl rfl (note_congr (b := (s.books p).addFile f (-1)) Books.inodes rfl)
  · exact h.pipes.congr rfl rfl (note_congr (b := (s.books p).addFile f (-1)) Books.ends rfl)
      (note_congr (b := (s.books p).addFile f (-1)) Books.pages rfl)
  · refine ⟨fun q hq d => ?_, h.family.embryo, h.family.parent⟩
    have hqn : q ≠ np := by
      rintro rfl
      change s.life q = _ ∨ s.life q = _ at hq
      rw [hn] at hq
      exact hq.elim (by simp) (by simp)
    rw [hs', note_ofile, setOfile_ofile, update_of_ne hqn]
    exact h.family.bare q hq d
  · rw [hs', view_note_self, view, setOfile_ofile, setOfile_child, update_of_ne hne, hc,
      map_some, update_self]
    rfl
  · by_cases hqn : q = np
    · subst hqn
      exact .inr ⟨by rw [hn]; rintro ⟨⟩, note_books_of_ne hq, rfl⟩
    · refine .inl ?_
      rw [hs', view_note_of_ne hq]
      exact view_setOfile_of_ne (fun hq' => hq (h.family.parent q p np hq' hc)) hqn

end

/-! ## All commands -/

/-- What is to be shown, for a continuation `Q`. -/
def Done (p : P) (s s' : State P) (Q : View P → Prop) : Prop :=
  Inv s' ∧ Q (view s' p) ∧ ∀ q, q ≠ p → Kept s s' q

section Done

variable {α : Type} {S : State P} {r r' : α} {Q : α → View P → Prop}

omit [DecidableEq P] in
theorem Fine.done {v : View P} (h : Fine p s S v) (hQ : Q r v) (hs : some (r, S) = some (r', s')) :
    Done p s s' (Q r') := by
  cases hs
  exact ⟨h.inv, by rw [h.self]; exact hQ, h.others⟩

omit [DecidableEq P] in
theorem done_refl (h : Inv s) (hQ : Q r (view s p)) (hs : some (r, s) = some (r', s')) :
    Done p s s' (Q r') :=
  Fine.done ⟨h, rfl, fun _ _ => .inl rfl⟩ hQ hs

end Done

omit [DecidableEq P] [Fintype P] in
theorem child_of_view {o : Fd → Option F} (h : (view s p).child = some (np, o)) :
    s.child p = some np ∧ s.ofile np = o := by
  change (s.child p).map (fun np => (np, s.ofile np)) = _ at h
  cases hc : s.child p with
  | none =>
    simp [hc] at h
  | some r =>
    rw [hc] at h
    cases h
    exact ⟨rfl, rfl⟩

/-- **One command.** -/
theorem done_effect (h : Inv s) {c : Cmd P} {Q : c.Ans → View P → Prop} (hc : spec c (view s p) Q)
    {o : Choice P} {r : c.Ans} (hs : effect p c o s = some (r, s')) : Done p s s' (Q r) := by
  obtain ⟨hp, -, hc⟩ := hc
  have hp : s.life p = .alive := hp
  cases c with
  | ofile fd =>
    exact done_refl h hc hs
  | clear fd =>
    obtain ⟨f, hf, hc⟩ := hc
    have hf : s.ofile p fd = some f := hf
    rw [effect, hf] at hs
    exact (fine_clear h hp hf).done hc hs
  | fdalloc f =>
    rw [effect] at hs
    split at hs
    · rename_i fd hfd
      have hfd : s.ofile p fd = none := by simpa using List.find?_some hfd
      exact (fine_fdalloc h hp hfd f).done (hc.2 fd hfd) hs
    · exact done_refl h hc.1 hs
  | filealloc =>
    rw [effect] at hs
    split at hs
    · rename_i f hf
      have hf : (s.file f).ref = 0 := by simpa using List.find?_some hf
      have hnet := h.files.net_eq_zero hf p
      refine (fine_filealloc h hf).done (hc.2 f ?_ hnet) hs
      by_contra hfr
      have hfr : (s.books p).fresh f = true := Bool.eq_true_of_not_eq_false hfr
      have := (h.files.fresh p f hfr).2
      omega
    · exact done_refl h hc.1 hs
  | filedup f =>
    have hr := h.files.pos (p := p) (f := f) hc.1
    rw [effect, if_neg (by omega)] at hs
    exact (fine_filedup h hc.1).done hc.2 hs
  | closeRef f =>
    have hr := h.files.pos (p := p) (f := f) hc.1
    rw [effect, if_neg (by omega)] at hs
    split at hs
    · rename_i hlast
      exact (fine_closeRef h hc.1 hlast).done hc.2.1 hs
    · rename_i hlast
      exact (fine_closeRef_last h hc.1 hlast).done (hc.2.2 _) hs
  | setPipe f pi w =>
    exact (fine_setPipe h hc.1 hc.2.1).done hc.2.2 hs
  | setInode f d ip r w =>
    exact (fine_setInode h hc.1 hc.2.1).done hc.2.2 hs
  | lookup =>
    rw [effect] at hs
    split at hs
    · rename_i ip _
      have := h.inodes.nonneg p ip.inum
      exact (fine_inode h (d := 1) (by push_cast; rfl) (by omega)).done (hc.2 ip) hs
    · exact done_refl h hc.1 hs
  | iput ip =>
    have hr := h.inodes.pos (p := p) hc.1
    have hb : 1 ≤ (s.books p).inodes ip := hc.1
    rw [effect, if_neg (by omega)] at hs
    exact (fine_inode h (d := -1) (by omega) (by omega)).done hc.2 hs
  | kalloc =>
    rw [effect] at hs
    split at hs
    · rename_i a _
      split at hs
      · rename_i ha
        exact (fine_kalloc h ha).done (hc.2 a) hs
      · nomatch hs
    · exact done_refl h hc.1 hs
  | closeEnd pi w =>
    obtain ⟨x, hx, hw⟩ := h.pipes.isOpen (p := p) hc.1
    have hd := fine_closeEnd h hx hw hc.1
    rw [effect, hx] at hs
    dsimp only at hs
    rw [if_pos hw] at hs
    split at hs
    · rename_i hlast
      rw [if_pos hlast] at hd
      exact hd.done hc.2.2 hs
    · rename_i hlast
      rw [if_neg hlast, Books.addPage_zero] at hd
      exact hd.done hc.2.1 hs
  | kfree pi =>
    obtain ⟨x, hx, -⟩ := h.pipes.some_of_pages (p := p) hc.1
    rw [effect, if_neg (by rw [hx]; nofun)] at hs
    exact (fine_kfree h hc.1).done hc.2 hs
  | copyout | uvmcopy =>
    exact done_refl h (hc _) hs
  | allocproc =>
    rw [effect] at hs
    split at hs
    · rename_i np _
      split at hs
      · rename_i hn
        exact (fine_allocproc h hp hn).done (hc.2.2 np) hs
      · nomatch hs
    · exact done_refl h hc.2.1 hs
  | freeproc np =>
    obtain ⟨hch, ho⟩ := child_of_view hc.1
    exact (fine_release h hp hch fun _ fd => by rw [ho]).done hc.2 hs
  | childOfile np fd f =>
    obtain ⟨o', hview, hfd, hf, hfr, hc⟩ := hc
    obtain ⟨hch, rfl⟩ := child_of_view hview
    exact (fine_childOfile h hp hch hfd hf hfr).done hc hs
  | runnable np =>
    obtain ⟨⟨o', hch⟩, hc⟩ := hc
    obtain ⟨hch, -⟩ := child_of_view hch
    exact (fine_release (l := .alive) h hp hch fun hl =>
      (hl.elim nofun nofun : False).elim).done hc hs
  | zombie =>
    exact (fine_zombie h hp hc.1).done hc.2 hs
  | reap =>
    rw [effect] at hs
    split at hs
    · split at hs
      · rename_i hn
        exact (fine_reap h hp hn).done hc hs
      · nomatch hs
    · exact done_refl h hc hs

end Xv6.Ftable
