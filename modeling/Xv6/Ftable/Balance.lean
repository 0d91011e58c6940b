import Xv6.Ftable.Rules

/-!
# The books balance

The invariant of the table says that every count is the sum of what the processes account for.  It
has four parts, which different commands touch:

* `Files`: `f->ref` is the number of descriptors that point at `f` plus what is in the books; no
  process accounts for less than nothing; and a file that has been allocated and not filled has one
  owner.
* `Inodes`: a reference to an inode belongs to an open file or to a call.
* `Pipes`: an end of a pipe that is open belongs to a file or to a call, and so does a page whose
  two ends are closed until it is freed.
* `Family`: who has descriptors at all, and whose child is being made.
-/

namespace Xv6.Ftable

open Account
open Function (update update_self update_of_ne)

variable {P : Type} {a ip : Nat} {s' : State P}

/-! ## Updates -/

section Update

variable [DecidableEq P] {s : State P} {p q : P} {f : F} {x : File} {b : Books}

/-- A part of the books that the new books of `p` have as well. -/
theorem note_congr {A : Type} (g : Books → A) (h : g b = g (s.books p)) (q : P) :
    g ((s.note p b).books q) = g (s.books q) := by
  by_cases hq : q = p
  · subst hq
    rw [State.note_books, update_self, h]
  · rw [State.note_books, update_of_ne hq]

theorem note_books_self : (s.note p b).books p = b := update_self ..

theorem note_books_of_ne (h : q ≠ p) : (s.note p b).books q = s.books q :=
  update_of_ne h ..

/-- What holds of the books of all processes and of the new ones of `p`. -/
theorem note_forall {C : Books → Prop} (h : ∀ q, C (s.books q)) (hb : C b) (q : P) :
    C ((s.note p b).books q) := by
  by_cases hq : q = p
  · rwa [hq, note_books_self]
  · rw [note_books_of_ne hq]
    exact h q

variable (s p f x b) in
/-- The state after a step that changes the file `f` and the books of `p`. -/
abbrev State.put : State P := (s.setFile f x).note p b

theorem put_books_self : (s.put p f x b).books p = b := note_books_self

theorem put_books_of_ne (h : q ≠ p) : (s.put p f x b).books q = s.books q :=
  note_books_of_ne h

theorem put_file_self : (s.put p f x b).file f = x := update_self ..

theorem put_file_of_ne {g : F} (h : g ≠ f) : (s.put p f x b).file g = s.file g := update_of_ne h ..

theorem sum_put_file (k : File → ℤ) :
    ∑ g, k ((s.put p f x b).file g) = ∑ g, k (s.file g) + (k x - k (s.file f)) := by
  have := Lts.sum_eq_of_ne (f := fun g => k (s.file g)) (g := fun g => k ((s.put p f x b).file g)) f
    fun g hg => by rw [put_file_of_ne hg]
  rwa [put_file_self] at this

end Update

/-! ## The four parts -/

/-- The references to the inode `ip` that the file has. -/
def File.inodeAt (x : File) (ip : Nat) : ℤ :=
  if (x.type = .inode ∨ x.type = .device) ∧ x.ip = ip then 1 else 0

/-- The ends `e` of pipes that the file has. -/
def File.endOf (x : File) (e : Nat × Bool) : ℤ :=
  if x.type = .pipe ∧ (x.pipe, x.writable) = e then 1 else 0

theorem File.inodeAt_nonneg (x : File) (ip : Nat) : 0 ≤ x.inodeAt ip := by
  rw [File.inodeAt]
  split <;> omega

theorem File.endOf_nonneg (x : File) (e : Nat × Bool) : 0 ≤ x.endOf e := by
  rw [File.endOf]
  split <;> omega

/-- 1 if that end is open. -/
def openEnd (x : Option Pipe) (w : Bool) : ℤ := if x.any (·.isOpen w) then 1 else 0

/-- 1 if there is a pipe. -/
def used (x : Option Pipe) : ℤ := if x.isSome then 1 else 0

/-- 1 if there is a pipe with an open end. -/
def live (x : Option Pipe) : ℤ := if x.any fun x => x.readopen || x.writeopen then 1 else 0

/-- What `p` accounts for. -/
def net (s : State P) (p : P) (f : F) : ℤ := slots (s.ofile p) f + (s.books p).files f

/-- Processes that are not alive have no descriptors, unless they are being made. -/
structure Family (s : State P) : Prop where
  bare : ∀ p, s.life p = .unused ∨ s.life p = .zombie → ∀ fd, s.ofile p fd = none
  embryo : ∀ p q, s.child p = some q → s.life q = .embryo
  parent : ∀ p q r, s.child p = some r → s.child q = some r → p = q

variable [Fintype P]

/-- The references to files. -/
structure Files (s : State P) : Prop where
  refs : ∀ f, ((s.file f).ref : ℤ) = ∑ p, net s p f
  net_nonneg : ∀ p f, 0 ≤ net s p f
  closed : ∀ f, (s.file f).ref = 0 → (s.file f).type = .none
  fresh : ∀ p f, (s.books p).fresh f = true → (s.file f).type = .none ∧ 1 ≤ net s p f
  owner : ∀ p q f, (s.books p).fresh f = true → (s.books q).fresh f = true → p = q

/-- The references to inodes. -/
structure Inodes (s : State P) : Prop where
  refs : ∀ ip, (s.iref ip : ℤ) = ∑ f, (s.file f).inodeAt ip + ∑ p, (s.books p).inodes ip
  nonneg : ∀ p ip, 0 ≤ (s.books p).inodes ip

/-- The ends of pipes, and the pages to be freed. -/
structure Pipes (s : State P) : Prop where
  ends : ∀ a w, openEnd (s.pipe a) w = ∑ f, (s.file f).endOf (a, w) + ∑ p, (s.books p).ends (a, w)
  pages : ∀ a, used (s.pipe a) = live (s.pipe a) + ∑ p, (s.books p).pages a
  ends_nonneg : ∀ p e, 0 ≤ (s.books p).ends e
  pages_nonneg : ∀ p a, 0 ≤ (s.books p).pages a

/-- The invariant. -/
structure Inv (s : State P) : Prop where
  fault : s.fault = none
  files : Files s
  inodes : Inodes s
  pipes : Pipes s
  family : Family s

/-! ## What is in the books is there -/

variable {s : State P} {p : P} {f : F} {x : File} {b : Books}

/-- A reference in the books is one of those that are counted. -/
theorem Inodes.pos (h : Inodes s) (hp : 1 ≤ (s.books p).inodes ip) : 1 ≤ s.iref ip := by
  have h1 := h.refs ip
  have h2 := le_sum (fun q => h.nonneg q ip) p
  have h3 : 0 ≤ ∑ f, (s.file f).inodeAt ip := Finset.sum_nonneg fun f _ => File.inodeAt_nonneg _ _
  omega

theorem Pipes.isOpen (h : Pipes s) {w : Bool} (hp : 1 ≤ (s.books p).ends (a, w)) :
    ∃ x, s.pipe a = some x ∧ x.isOpen w = true := by
  have h1 := h.ends a w
  have h2 := le_sum (fun q => h.ends_nonneg q (a, w)) p
  have h3 : 0 ≤ ∑ f, (s.file f).endOf (a, w) := Finset.sum_nonneg fun f _ => File.endOf_nonneg _ _
  cases hx : s.pipe a with
  | none =>
    rw [hx, openEnd] at h1
    simp at h1
    omega
  | some x =>
    refine ⟨x, rfl, ?_⟩
    by_contra hw
    rw [hx, openEnd] at h1
    simp [hw] at h1
    omega

theorem Pipes.some_of_pages (h : Pipes s) (hp : 1 ≤ (s.books p).pages a) :
    ∃ x, s.pipe a = some x ∧ x.readopen = false ∧ x.writeopen = false := by
  have h1 := h.pages a
  have h2 := le_sum (fun q => h.pages_nonneg q a) p
  cases hx : s.pipe a with
  | none =>
    rw [hx] at h1
    simp [used, live] at h1
    omega
  | some x =>
    refine ⟨x, rfl, ?_⟩
    by_contra hw
    rw [hx] at h1
    have : (x.readopen || x.writeopen) = true := by
      cases hr : x.readopen <;> cases hw' : x.writeopen <;> simp_all
    simp [used, live, this] at h1
    omega

theorem Files.net_eq_zero (h : Files s) (hf : (s.file f).ref = 0) (p : P) : net s p f = 0 := by
  have h1 := h.refs f
  have h2 := le_sum (fun q => h.net_nonneg q f) p
  have := h.net_nonneg p f
  omega

theorem Files.pos (h : Files s) (hf : 1 ≤ net s p f) : 1 ≤ (s.file f).ref := by
  by_contra h0
  have := h.net_eq_zero (f := f) (by omega) p
  omega

/-! ## The parts that a command leaves alone -/

theorem Files.congr (h : Files s) (hf : s'.file = s.file) (hn : ∀ q g, net s' q g = net s q g)
    (hb : ∀ q, (s'.books q).fresh = (s.books q).fresh) : Files s' where
  refs g := by simp only [hf, hn, h.refs g]
  net_nonneg q g := by rw [hn]; exact h.net_nonneg q g
  closed g := by rw [hf]; exact h.closed g
  fresh q g hq := by
    rw [hb] at hq
    rw [hf, hn]
    exact h.fresh q g hq
  owner q r g hq hr := by
    rw [hb] at hq hr
    exact h.owner q r g hq hr

theorem Inodes.congr (h : Inodes s) (hf : s'.file = s.file) (hi : s'.iref = s.iref)
    (hb : ∀ q, (s'.books q).inodes = (s.books q).inodes) : Inodes s' where
  refs ip := by simp only [hf, hi, hb, h.refs ip]
  nonneg q ip := by rw [hb]; exact h.nonneg q ip

theorem Pipes.congr (h : Pipes s) (hf : s'.file = s.file) (hi : s'.pipe = s.pipe)
    (he : ∀ q, (s'.books q).ends = (s.books q).ends)
    (hp : ∀ q, (s'.books q).pages = (s.books q).pages) : Pipes s' where
  ends a w := by simp only [hf, hi, he, h.ends a w]
  pages a := by simp only [hi, hp, h.pages a]
  ends_nonneg q e := by rw [he]; exact h.ends_nonneg q e
  pages_nonneg q a := by rw [hp]; exact h.pages_nonneg q a

section Put

variable [DecidableEq P] {d : ℤ}

/-! ## A file and the books change -/

theorem sum_note (k : Books → ℤ) :
    ∑ q, k ((s.note p b).books q) = ∑ q, k (s.books q) + (k b - k (s.books p)) := by
  have := Lts.sum_eq_of_ne (f := fun q => k (s.books q)) (g := fun q => k ((s.note p b).books q)) p
    fun q hq => by rw [note_books_of_ne hq]
  rwa [note_books_self] at this

theorem sum_put_books (k : Books → ℤ) :
    ∑ q, k ((s.put p f x b).books q) = ∑ q, k (s.books q) + (k b - k (s.books p)) :=
  sum_note k

theorem Inodes.put (h : Inodes s)
    (he : ∀ ip, x.inodeAt ip + b.inodes ip = (s.file f).inodeAt ip + (s.books p).inodes ip)
    (hn : ∀ ip, 0 ≤ b.inodes ip) : Inodes (s.put p f x b) where
  refs ip := by
    have h1 := sum_put_file (s := s) (p := p) (f := f) (x := x) (b := b) fun y => y.inodeAt ip
    have h2 := sum_put_books (s := s) (p := p) (f := f) (x := x) (b := b) fun y => y.inodes ip
    have h3 := h.refs ip
    have h4 := he ip
    change (s.iref ip : ℤ) = _
    omega
  nonneg q ip := note_forall (C := fun y => 0 ≤ y.inodes ip) (h.nonneg · ip) (hn ip) q

theorem Pipes.put (h : Pipes s)
    (he : ∀ e, x.endOf e + b.ends e = (s.file f).endOf e + (s.books p).ends e)
    (hp : b.pages = (s.books p).pages) (hn : ∀ e, 0 ≤ b.ends e) : Pipes (s.put p f x b) where
  ends a w := by
    have h1 := sum_put_file (s := s) (p := p) (f := f) (x := x) (b := b) fun y => y.endOf (a, w)
    have h2 := sum_put_books (s := s) (p := p) (f := f) (x := x) (b := b) fun y => y.ends (a, w)
    have h3 := h.ends a w
    have h4 := he (a, w)
    change openEnd (s.pipe a) w = _
    omega
  pages a := by
    have := sum_put_books (s := s) (p := p) (f := f) (x := x) (b := b) fun y => y.pages a
    simp only [hp] at this
    change used (s.pipe a) = live (s.pipe a) + _
    rw [h.pages a, this, sub_self, add_zero]
  ends_nonneg q e := note_forall (C := fun y => 0 ≤ y.ends e) (h.ends_nonneg · e) (hn e) q
  pages_nonneg q a := note_forall (C := fun y => 0 ≤ y.pages a) (h.pages_nonneg · a)
    (by rw [hp]; exact h.pages_nonneg p a) q

/-- `d` more references to `f`, and `p` accounts for them.  The type of `f` only changes if nobody
else is going to fill it, and what `p` is going to fill has no type yet. -/
theorem Files.put (h : Files s) (hr : (x.ref : ℤ) = (s.file f).ref + d)
    (hd : b.files = bump (s.books p).files f d) (hn : 0 ≤ net s p f + d)
    (hc : x.ref = 0 → x.type = .none)
    (ht : x.type = .none ∨ x.type = (s.file f).type ∨ (s.books p).fresh f = true)
    (hf : ∀ g, b.fresh g = true → g ≠ f ∧ (s.books p).fresh g = true ∨
      g = f ∧ x.type = .none ∧ 1 ≤ net s p f + d ∧ ∀ q, q ≠ p → (s.books q).fresh f = false) :
    Files (s.put p f x b) := by
  have hnet : ∀ q g, net (s.put p f x b) q g = net s q g + if q = p ∧ g = f then d else 0 := by
    intro q g
    rw [net, net]
    by_cases hq : q = p
    · subst hq
      rw [put_books_self, hd, bump_apply]
      by_cases hg : g = f
      · simp [hg]
        omega
      · simp [hg]
    · rw [put_books_of_ne hq, if_neg (fun he => hq he.1), add_zero]
      rfl
  refine ⟨fun g => ?_, fun q g => ?_, fun g => ?_, fun q g hq => ?_, fun q r g hq hr' => ?_⟩
  · have h1 := Lts.sum_eq_of_ne (f := fun q => net s q g) (g := fun q => net (s.put p f x b) q g) p
      fun q hq => by rw [hnet, if_neg (fun he => hq he.1), add_zero]
    rw [h1, hnet]
    by_cases hg : g = f
    · subst hg
      rw [put_file_self, if_pos ⟨rfl, rfl⟩, hr, h.refs g]
      omega
    · rw [put_file_of_ne hg, if_neg (fun he => hg he.2), h.refs g]
      omega
  · rw [hnet]
    have := h.net_nonneg q g
    split
    · rename_i he
      rw [he.1, he.2]
      exact hn
    · omega
  · by_cases hg : g = f
    · rw [hg, put_file_self]
      exact hc
    · rw [put_file_of_ne hg]
      exact h.closed g
  · by_cases hqp : q = p
    · subst hqp
      rw [put_books_self] at hq
      obtain ⟨hg, hq⟩ | ⟨hg, hx, h1, -⟩ := hf g hq
      · rw [put_file_of_ne hg, hnet, if_neg (fun he => hg he.2), add_zero]
        exact h.fresh q g hq
      · rw [hg, put_file_self, hnet, if_pos ⟨rfl, rfl⟩]
        exact ⟨hx, h1⟩
    · rw [put_books_of_ne hqp] at hq
      obtain ⟨h1, h2⟩ := h.fresh q g hq
      rw [hnet, if_neg (fun he => hqp he.1), add_zero]
      refine ⟨?_, h2⟩
      by_cases hg : g = f
      · subst hg
        rw [put_file_self]
        obtain hx | hx | hx := ht
        · exact hx
        · rw [hx]
          exact h1
        · exact absurd (h.owner q p g hq hx) hqp
      · rw [put_file_of_ne hg]
        exact h1
  · have key : ∀ r, r ≠ p → ((s.put p f x b).books p).fresh g = true →
        ((s.put p f x b).books r).fresh g = true → False := by
      intro r hrp hp hr
      rw [put_books_self] at hp
      rw [put_books_of_ne hrp] at hr
      obtain ⟨-, hp⟩ | ⟨hg, -, -, ho⟩ := hf g hp
      · exact hrp (h.owner r p g hr hp)
      · have := ho r hrp
        rw [← hg] at this
        exact absurd (hr.symm.trans this) nofun
    by_cases hqp : q = p
    · subst hqp
      by_contra hne
      exact key r (Ne.symm hne) hq hr'
    · by_cases hrp : r = p
      · subst hrp
        exact (key q hqp hr' hq).elim
      · rw [put_books_of_ne hqp] at hq
        rw [put_books_of_ne hrp] at hr'
        exact h.owner q r g hq hr'

/-! ## The counts of an inode or of a pipe change -/

theorem Inodes.count (h : Inodes s) {n : Nat} (hr : (n : ℤ) = s.iref ip + d)
    (hn : 0 ≤ (s.books p).inodes ip + d) :
    Inodes (({ s with iref := update s.iref ip n }).note p ((s.books p).addInode ip d)) where
  refs i := by
    have h1 := sum_note (s := { s with iref := update s.iref ip n }) (p := p)
      (b := (s.books p).addInode ip d) fun y => y.inodes i
    have h2 := h.refs i
    rw [h1]
    change ((update s.iref ip n i : Nat) : ℤ) = ∑ f, (s.file f).inodeAt i +
      (∑ q, (s.books q).inodes i + (bump (s.books p).inodes ip d i - (s.books p).inodes i))
    by_cases hi : i = ip
    · subst hi
      rw [update_self, bump_self]
      omega
    · rw [update_of_ne hi, bump_of_ne _ _ hi]
      omega
  nonneg q i := note_forall (C := fun y => 0 ≤ y.inodes i) (h.nonneg · i)
    (bump_nonneg _ (h.nonneg p) hn i) q

theorem Pipes.page (h : Pipes s) {y : Option Pipe}
    (he : ∀ w, openEnd y w - b.ends (a, w) = openEnd (s.pipe a) w - (s.books p).ends (a, w))
    (ho : ∀ c w, c ≠ a → b.ends (c, w) = (s.books p).ends (c, w))
    (hu : used y - live y - b.pages a = used (s.pipe a) - live (s.pipe a) - (s.books p).pages a)
    (hp : ∀ c, c ≠ a → b.pages c = (s.books p).pages c) (hn : ∀ e, 0 ≤ b.ends e)
    (hn' : ∀ c, 0 ≤ b.pages c) : Pipes (({ s with pipe := update s.pipe a y }).note p b) where
  ends c w := by
    have h1 := sum_note (s := { s with pipe := update s.pipe a y }) (p := p) (b := b)
      fun z => z.ends (c, w)
    have h2 := h.ends c w
    rw [h1]
    change openEnd (update s.pipe a y c) w = ∑ f, (s.file f).endOf (c, w) +
      (∑ q, (s.books q).ends (c, w) + (b.ends (c, w) - (s.books p).ends (c, w)))
    by_cases hc : c = a
    · subst hc
      have := he w
      rw [update_self]
      omega
    · rw [update_of_ne hc, ho c w hc]
      omega
  pages c := by
    have h1 := sum_note (s := { s with pipe := update s.pipe a y }) (p := p) (b := b)
      fun z => z.pages c
    have h2 := h.pages c
    rw [h1]
    change used (update s.pipe a y c) = live (update s.pipe a y c) +
      (∑ q, (s.books q).pages c + (b.pages c - (s.books p).pages c))
    by_cases hc : c = a
    · subst hc
      rw [update_self]
      omega
    · rw [update_of_ne hc, hp c hc]
      omega
  ends_nonneg q e := note_forall (C := fun y => 0 ≤ y.ends e) (h.ends_nonneg · e) (hn e) q
  pages_nonneg q c := note_forall (C := fun y => 0 ≤ y.pages c) (h.pages_nonneg · c) (hn' c) q

end Put

end Xv6.Ftable
