import Mathlib.Algebra.BigOperators.Fin
import Xv6.Ftable.Model

/-!
# What a process does with its references

`View` is what one process sees of the table: its own descriptors, its own books, and the
descriptors of a child that it is making.  `spec` is the effect of a command on a view, with what it
needs: a reference to a file has to be there to be copied or dropped, an inode or the end of a pipe
has to be in the books to be given back.  `correct_body` shows that every system call, on all its
returns, stays within these rules and leaves nothing in the books.

Twice the code has a descriptor that is not counted, and then the books are below zero: in `sys_dup`
between `fdalloc` and `filedup`, and in `exit`, which closes a file before it clears the descriptor.
`Pays` says which commands can come next at such a point.
-/

namespace Xv6.Ftable

open Code Account
open Function (update update_self update_of_ne update_idem update_apply update_eq_self)

variable {P : Type} {b : Books} {f : F} {fd : Fd} {ip : Nat} {n : ℤ} {o : Fd → Option F}

/-! ## Views -/

/-- How many of the descriptors point at `f`. -/
def slots (o : Fd → Option F) (f : F) : ℤ := ∑ fd, if o fd = some f then 1 else 0

theorem slots_nonneg (o : Fd → Option F) (f : F) : 0 ≤ slots o f :=
  Finset.sum_nonneg fun fd _ => by split <;> omega

theorem one_le_slots (h : o fd = some f) : 1 ≤ slots o f := by
  calc (1 : ℤ) = if o fd = some f then 1 else 0 := by rw [if_pos h]
    _ ≤ slots o f := Finset.single_le_sum
        (f := fun fd => if o fd = some f then (1 : ℤ) else 0)
        (fun fd _ => by split <;> omega) (Finset.mem_univ fd)

/-- What a process sees. -/
structure View (P : Type) where
  life : Life
  ofile : Fd → Option F
  books : Books
  child : Option (P × (Fd → Option F))

/-- The view of `p`. -/
def view (s : State P) (p : P) : View P :=
  ⟨s.life p, s.ofile p, s.books p, (s.child p).map fun np => (np, s.ofile np)⟩

/-- The references to `f` that the process accounts for: its descriptors, and those in its books. -/
def View.net (v : View P) (f : F) : ℤ := slots v.ofile f + v.books.files f

/-- Other books. -/
@[simps -fullyApplied] def View.note (v : View P) (b : Books) : View P := { v with books := b }

/-- Another file at a descriptor. -/
@[simps -fullyApplied] def View.setOfile (v : View P) (fd : Fd) (f : Option F) : View P :=
  { v with ofile := update v.ofile fd f }

/-- The commands that can come next when a descriptor of `f` is not counted. -/
def View.Pays (v : View P) (f : F) : Cmd P → Prop
  | .filedup g => g = f
  | .clear fd => v.ofile fd = some f
  | .iput _ => True
  | .closeEnd _ _ => True
  | .kfree _ => True
  | _ => False

/-- What a command needs, and does. -/
def rule : (c : Cmd P) → View P → (c.Ans → View P → Prop) → Prop
  | .ofile fd, v, Q => Q (v.ofile fd) v
  | .clear fd, v, Q => ∃ f, v.ofile fd = some f ∧
  Q () ((v.setOfile fd none).note (v.books.addFile f 1))
  | .fdalloc f, v, Q =>
    Q none v ∧ ∀ fd, v.ofile fd = none →
      Q (some fd) ((v.setOfile fd (some f)).note (v.books.addFile f (-1)))
  | .filealloc, v, Q =>
    Q none v ∧ ∀ f, v.books.fresh f = false → v.net f = 0 →
      Q (some f) (v.note ((v.books.addFile f 1).setFresh f true))
  | .filedup f, v, Q => 1 ≤ v.net f ∧ Q () (v.note (v.books.addFile f 1))
  | .closeRef f, v, Q =>
    1 ≤ v.net f ∧ Q none (v.note ((v.books.addFile f (-1)).setFresh f false)) ∧
      ∀ ff, Q (some ff) (v.note (((v.books.addFile f (-1)).setFresh f false).release ff))
  | .setPipe f pi w, v, Q =>
    v.books.fresh f = true ∧ 1 ≤ v.books.ends (pi, w) ∧
      Q () (v.note ((v.books.addEnd (pi, w) (-1)).setFresh f false))
  | .setInode f _ ip _ _, v, Q =>
    v.books.fresh f = true ∧ 1 ≤ v.books.inodes ip ∧
      Q () (v.note ((v.books.addInode ip (-1)).setFresh f false))
  | .lookup, v, Q => Q none v ∧ ∀ ip, Q (some ip) (v.note (v.books.addInode ip.inum 1))
  | .iput ip, v, Q => 1 ≤ v.books.inodes ip ∧ Q () (v.note (v.books.addInode ip (-1)))
  | .kalloc, v, Q =>
    Q none v ∧ ∀ a, Q (some a) (v.note ((v.books.addEnd (a, false) 1).addEnd (a, true) 1))
  | .closeEnd pi w, v, Q =>
    1 ≤ v.books.ends (pi, w) ∧ Q false (v.note (v.books.addEnd (pi, w) (-1))) ∧
      Q true (v.note ((v.books.addEnd (pi, w) (-1)).addPage pi 1))
  | .kfree pi, v, Q => 1 ≤ v.books.pages pi ∧ Q () (v.note (v.books.addPage pi (-1)))
  | .copyout, v, Q => ∀ ok, Q ok v
  | .uvmcopy, v, Q => ∀ ok, Q ok v
  | .allocproc, v, Q =>
    v.child = none ∧ Q none v ∧ ∀ np, Q (some np) { v with child := some (np, fun _ => none) }
  | .freeproc np, v, Q => v.child = some (np, fun _ => none) ∧ Q () { v with child := none }
  | .childOfile np fd f, v, Q =>
    ∃ o, v.child = some (np, o) ∧ o fd = none ∧ 1 ≤ v.books.files f ∧ v.books.fresh f = false ∧
      Q () { v with
        child := some (np, update o fd (some f)), books := v.books.addFile f (-1) }
  | .runnable np, v, Q => (∃ o, v.child = some (np, o)) ∧ Q () { v with child := none }
  | .zombie, v, Q => (∀ fd, v.ofile fd = none) ∧ Q () { v with life := .zombie }
  | .reap, v, Q => Q () v

/-- The rules of a process: it is alive, and what it owes is paid at once. -/
def spec (c : Cmd P) (v : View P) (Q : c.Ans → View P → Prop) : Prop :=
  v.life = .alive ∧ (∀ f, v.books.files f < 0 → v.Pays f c) ∧ rule c v Q

/-- Between two calls a process has nothing in its books, and no child that is not ready. -/
def Idle (v : View P) : Prop := v.books = .clear ∧ v.child = none

theorem monotone_spec : Code.Monotone (spec (P := P)) := by
  intro c v Q Q' hQ
  rw [spec, spec]
  gcongr
  cases c
  all_goals
    simp only [rule]
    try gcongr
    all_goals exact hQ _ _

/-! ## The books -/

@[simp] theorem Books.addEnd_cancel (b : Books) (e : Nat × Bool) (n m : ℤ) :
    (b.addEnd e n).addEnd e m = b.addEnd e (n + m) := by
  simp only [Books.addEnd, bump_bump]

@[simp] theorem Books.addEnd_zero (b : Books) (e : Nat × Bool) : b.addEnd e 0 = b := by
  simp only [Books.addEnd, bump_zero]

@[simp] theorem Books.addInode_cancel (b : Books) (ip : Nat) (n m : ℤ) :
    (b.addInode ip n).addInode ip m = b.addInode ip (n + m) := by
  simp only [Books.addInode, bump_bump]

@[simp] theorem Books.addInode_zero (b : Books) (ip : Nat) : b.addInode ip 0 = b := by
  simp only [Books.addInode, bump_zero]

@[simp] theorem Books.addPage_cancel (b : Books) (pi : Nat) (n m : ℤ) :
    (b.addPage pi n).addPage pi m = b.addPage pi (n + m) := by
  simp only [Books.addPage, bump_bump]

@[simp] theorem Books.addPage_zero (b : Books) (pi : Nat) : b.addPage pi 0 = b := by
  simp only [Books.addPage, bump_zero]

@[simp] theorem Books.addFile_cancel (b : Books) (f : F) (n m : ℤ) :
    (b.addFile f n).addFile f m = b.addFile f (n + m) := by
  simp only [Books.addFile, bump_bump]

@[simp] theorem Books.addFile_zero (b : Books) (f : F) : b.addFile f 0 = b := by
  simp only [Books.addFile, bump_zero]

/-! ## Descriptors -/

theorem slots_update (o : Fd → Option F) (fd : Fd) (x : Option F) (f : F) :
    slots (update o fd x) f =
      slots o f - (if o fd = some f then 1 else 0) + if x = some f then 1 else 0 := by
  have h := Lts.sum_update (f := fun y : Option F => if y = some f then (1 : ℤ) else 0)
    (x := o) (y := x)
    (Finset.mem_univ fd)
  rw [slots, slots]
  omega

theorem slots_fdalloc (h : o fd = none) (b : Books) (f g : F) :
    slots (update o fd (some f)) g + (b.addFile f (-1)).files g = slots o g + b.files g := by
  rw [slots_update, h, if_neg nofun, Books.addFile_files, bump_apply]
  by_cases hg : f = g
  · rw [if_pos (by rw [hg]), if_pos hg.symm]
    omega
  · rw [if_neg (fun he => hg (Option.some.inj he)), if_neg (Ne.symm hg)]
    omega

theorem slots_clear (h : o fd = some f) (b : Books) (g : F) :
    slots (update o fd none) g + (b.addFile f 1).files g = slots o g + b.files g := by
  rw [slots_update, h, if_neg (c := none = some g) nofun, Books.addFile_files, bump_apply]
  by_cases hg : f = g
  · rw [if_pos (by rw [hg]), if_pos hg.symm]
    omega
  · rw [if_neg (fun he => hg (Option.some.inj he)), if_neg (Ne.symm hg)]
    omega

@[simp] theorem Books.setFresh_setFresh (b : Books) (f : F) (x y : Bool) :
    (b.setFresh f x).setFresh f y = b.setFresh f y := by
  simp only [Books.setFresh, update_idem]

@[simp] theorem Books.addFile_setFresh (b : Books) (f g : F) (x : Bool) (n : ℤ) :
    (b.setFresh f x).addFile g n = (b.addFile g n).setFresh f x := rfl

theorem Books.setFresh_of_eq {x : Bool} (h : b.fresh f = x) : b.setFresh f x = b := by
  rw [Books.setFresh, ← h, update_eq_self]

@[simp] theorem Books.setFresh_clear (f : F) : Books.clear.setFresh f false = .clear :=
  Books.setFresh_of_eq rfl

/-- No debts. -/
structure Books.Nonneg (b : Books) : Prop where
  files : ∀ f, 0 ≤ b.files f
  inodes : ∀ ip, 0 ≤ b.inodes ip
  ends : ∀ e, 0 ≤ b.ends e
  pages : ∀ pi, 0 ≤ b.pages pi

namespace Books.Nonneg

theorem clear : Books.clear.Nonneg :=
    ⟨fun _ => le_rfl, fun _ => le_rfl, fun _ => le_rfl, fun _ => le_rfl⟩

variable {b : Books} (h : b.Nonneg)
include h

theorem addFile (hn : 0 ≤ b.files f + n) : (b.addFile f n).Nonneg :=
  { h with files := bump_nonneg _ h.files hn }

theorem addInode (hn : 0 ≤ b.inodes ip + n) : (b.addInode ip n).Nonneg :=
  { h with inodes := bump_nonneg _ h.inodes hn }

theorem addEnd {e : Nat × Bool} (hn : 0 ≤ b.ends e + n) : (b.addEnd e n).Nonneg :=
  { h with ends := bump_nonneg _ h.ends hn }

theorem setFresh (f : F) (x : Bool) : (b.setFresh f x).Nonneg := { h with }

theorem file (f : F) : (b.addFile f 1).Nonneg := h.addFile (by have := h.files f; omega)

theorem fresh (f : F) : ((b.addFile f 1).setFresh f true).Nonneg := (h.file f).setFresh f true

end Books.Nonneg

/-! ## Closing a file

In this section and the next one a view is written `v.note b`: the process is as in `v`, with `b` in
its books. -/

section Calls

variable {α : Type} {v : View P} {b : Books} {f : F} {Q : α → View P → Prop} (hl : v.life = .alive)
include hl

/-- A process without debts can issue any command. -/
theorem spec_of_rule (hb : b.Nonneg) {c : Cmd P} {Q : c.Ans → View P → Prop}
    (h : rule c (v.note b) Q) :
    spec c (v.note b) Q :=
  ⟨hl, fun f hf => absurd (hb.files f) (not_le.mpr hf), h⟩

/-- `iput` can be called with debts. -/
theorem wp_iput {k : Unit → K P α} (h : 1 ≤ b.inodes ip)
    (hQ : wp spec (k ()) (v.note (b.addInode ip (-1))) Q) :
    wp spec ((Cmd.iput ip).run >>= k) (v.note b) Q :=
  ⟨hl, fun _ _ => trivial, h, hQ⟩

/-- So can `pipeclose`. -/
theorem wp_pipeclose {pi : Nat} {w : Bool} {k : Unit → K P α} (h : 1 ≤ b.ends (pi, w))
    (hp : 0 ≤ b.pages pi) (hQ : wp spec (k ()) (v.note (b.addEnd (pi, w) (-1))) Q) :
    wp spec (pipeclose pi w >>= k) (v.note b) Q := by
  refine ⟨hl, fun _ _ => trivial, h, hQ, hl, fun _ _ => trivial, ?_, ?_⟩
  · simpa using hp
  · change wp spec (k ()) (v.note (((b.addEnd (pi, w) (-1)).addPage pi 1).addPage pi (-1))) Q
    simpa using hQ

theorem wp_closeLast {k : Unit → K P α} (hi : ∀ ip, 0 ≤ b.inodes ip) (he : ∀ e, 0 ≤ b.ends e)
    (hp : ∀ pi, 0 ≤ b.pages pi) (ff : File) (hQ : wp spec (k ()) (v.note b) Q) :
    wp spec (closeLast ff >>= k) (v.note (b.release ff)) Q := by
  obtain ⟨type, ref, readable, writable, pipe, ip⟩ := ff
  cases type with
  | none => exact hQ
  | pipe =>
    exact wp_pipeclose hl (by simpa [Books.release] using he (pipe, writable)) (hp _)
      (by simpa [Books.release] using hQ)
  | inode | device =>
    exact wp_iput hl (by simpa [Books.release] using hi ip) (by simpa [Books.release] using hQ)

theorem wp_fileclose {k : Unit → K P α} (hb : b.Nonneg) (hf : 1 ≤ slots v.ofile f + b.files f)
    (hQ : wp spec (k ()) (v.note ((b.addFile f (-1)).setFresh f false)) Q) :
    wp spec (fileclose f >>= k) (v.note b) Q := by
  refine spec_of_rule hl hb ⟨hf, hQ, fun ff => ?_⟩
  exact wp_closeLast hl (b := (b.addFile f (-1)).setFresh f false) hb.inodes hb.ends hb.pages ff hQ

/-! ## The system calls -/

theorem wp_filealloc {k : Option F → K P α} (hb : b.Nonneg) (hnone : wp spec (k none) (v.note b) Q)
    (hsome : ∀ f, b.fresh f = false →
      wp spec (k (some f)) (v.note ((b.addFile f 1).setFresh f true)) Q) :
    wp spec (Cmd.filealloc.run >>= k) (v.note b) Q :=
  spec_of_rule hl hb ⟨hnone, fun f hf _ => hsome f hf⟩

theorem wp_fdalloc {k : Option Fd → K P α} (hb : b.Nonneg) (hnone : wp spec (k none) (v.note b) Q)
    (hsome : ∀ fd, v.ofile fd = none →
      wp spec (k (some fd)) ((v.setOfile fd (some f)).note (b.addFile f (-1))) Q) :
    wp spec ((Cmd.fdalloc f).run >>= k) (v.note b) Q :=
  spec_of_rule hl hb ⟨hnone, hsome⟩

theorem wp_clear {k : Unit → K P α} (hb : b.Nonneg) (hf : v.ofile fd = some f)
    (hQ : wp spec (k ()) ((v.setOfile fd none).note (b.addFile f 1)) Q) :
    wp spec ((Cmd.clear fd).run >>= k) (v.note b) Q :=
  spec_of_rule hl hb ⟨f, hf, hQ⟩

theorem wp_argfd {k : Option (Fd × F) → K P α} (hb : b.Nonneg) (fd : Int)
    (hnone : wp spec (k none) (v.note b) Q)
    (hsome : ∀ fd f, v.ofile fd = some f → wp spec (k (some (fd, f))) (v.note b) Q) :
    wp spec (argfd fd >>= k) (v.note b) Q := by
  unfold argfd
  split
  · refine spec_of_rule hl hb ?_
    rw [rule]
    cases hf : (v.note b).ofile ⟨fd.toNat, by omega⟩ with
    | none => exact hnone
    | some f => exact hsome _ f hf
  · exact hnone

variable (hc : v.child = none)
include hc

/-- `dup` has two descriptors of `f` before it counts the new one. -/
theorem wp_sysDup (fd : Int) : wp spec (sysDup fd) (v.note .clear) fun _ => Idle := by
  have hdone : Idle (v.note .clear) := ⟨rfl, hc⟩
  refine wp_argfd hl .clear fd hdone fun fd f hf => ?_
  refine wp_fdalloc hl .clear hdone fun fd' hfd' => ?_
  refine ⟨hl, fun g hg => ?_, ?_, ?_, hc⟩
  · -- the only debt is the one for `f`
    by_contra hne
    have : bump Books.clear.files f (-1) g < 0 := hg
    rw [bump_of_ne _ _ (Ne.symm hne)] at this
    exact absurd this (lt_irrefl 0)
  · have hn := slots_fdalloc hfd' .clear f f
    have h1 := one_le_slots hf
    have h2 : Books.clear.files f = 0 := rfl
    change 1 ≤ slots (update v.ofile fd' (some f)) f + (Books.clear.addFile f (-1)).files f
    omega
  · change (Books.clear.addFile f (-1)).addFile f 1 = _
    simp

theorem wp_sysClose (fd : Int) : wp spec (sysClose fd) (v.note .clear) fun _ => Idle := by
  refine wp_argfd hl .clear fd (And.intro rfl hc) fun fd f hf => ?_
  refine wp_clear hl .clear hf ?_
  refine wp_fileclose (v := v.setOfile fd none) hl (.file .clear f) ?_ ⟨?_, hc⟩
  · have := slots_nonneg (v.setOfile fd none).ofile f
    simp only [Books.addFile_files, bump_self, Books.clear, Pi.zero_apply]
    omega
  · simp

/-- On every path of `open` the inode goes to the new file or is put back. -/
theorem wp_sysOpen (omode : Omode) : wp spec (sysOpen omode) (v.note .clear) fun _ => Idle := by
  refine spec_of_rule hl .clear ⟨⟨rfl, hc⟩, fun ip => ?_⟩
  set b := Books.clear.addInode ip.inum 1 with hb
  have hb0 : b.Nonneg := Books.Nonneg.clear.addInode (by simp [Books.clear])
  have hput : wp spec ((Cmd.iput ip.inum).run >>= fun _ => pure (-1 : Int))
      (v.note b) fun _ => Idle :=
    wp_iput hl (by simp [hb, Books.clear]) ⟨by simp [hb], hc⟩
  change wp spec (ite _ _ _) (v.note b) _
  split_ifs
  · exact hput
  · exact hput
  · refine wp_filealloc hl hb0 hput fun f _ => wp_fdalloc hl (hb0.fresh f) ?_ fun fd _ => ?_
    · refine wp_fileclose hl (hb0.fresh f) ?_ (wp_iput hl ?_ ⟨?_, hc⟩)
      · have := slots_nonneg v.ofile f
        simp only [hb, Books.setFresh_files, Books.addFile_files, bump_self, Books.addInode_files,
          Books.clear,
          Pi.zero_apply]
        omega
      · simp [hb, Books.clear]
      · ext x <;> simp [hb, Books.clear]
    · refine spec_of_rule (v := v.setOfile fd (some f)) hl ((hb0.fresh f).addFile ?_)
        ⟨by simp, by simp [hb, Books.clear], ?_, hc⟩
      · simp [hb, Books.clear]
      · ext x <;> simp [hb, Books.clear]

/-- The references of a call that has two new files. -/
def twoFiles (rf wf : F) : Books := (Books.clear.addFile rf 1).addFile wf 1

omit hl hc in
theorem twoFiles_nonneg (rf wf : F) : (twoFiles rf wf).Nonneg := .file (.file .clear rf) wf

omit hc in
theorem wp_closeBoth {k : Unit → K P α} {rf wf : F} (hb : b.Nonneg)
    (hf : ∀ f, b.files f = (twoFiles rf wf).files f) (hne : rf ≠ wf)
    (hQ : wp spec (k ()) (v.note
      ((((b.addFile rf (-1)).setFresh rf false).addFile wf (-1)).setFresh wf false)) Q) :
    wp spec (fileclose rf >>= fun _ => fileclose wf >>= k) (v.note b) Q := by
  have hr : b.files rf = 1 := by
    rw [hf, twoFiles, Books.addFile_files, bump_of_ne _ _ hne, Books.addFile_files, bump_self]
    rfl
  have hw : b.files wf = 1 := by
    rw [hf, twoFiles, Books.addFile_files, bump_self, Books.addFile_files, bump_of_ne _ _ hne.symm]
    rfl
  refine wp_fileclose hl hb ?_ (wp_fileclose hl ((hb.addFile ?_).setFresh rf false) ?_ hQ)
  · have := slots_nonneg v.ofile rf
    omega
  · omega
  · have := slots_nonneg v.ofile wf
    rw [Books.setFresh_files, Books.addFile_files, bump_of_ne _ _ hne.symm]
    omega

omit hc in
/-- `pipealloc` gets two new files, one for each end, or leaves everything as it was. -/
theorem wp_pipealloc {Q : Option (F × F) → View P → Prop} (hnone : Q none (v.note .clear))
    (hsome : ∀ rf wf, rf ≠ wf → Q (some (rf, wf)) (v.note (twoFiles rf wf))) :
    wp spec pipealloc (v.note .clear) Q := by
  refine wp_filealloc hl .clear hnone fun f0 _ => ?_
  refine wp_filealloc hl (.fresh .clear f0) ?_ fun f1 hf1 => ?_
  · refine wp_fileclose (k := fun _ => pure none) hl (.fresh .clear f0) ?_ ?_
    · have := slots_nonneg v.ofile f0
      simp only [Books.setFresh_files, Books.addFile_files, bump_self, Books.clear, Pi.zero_apply]
      omega
    · simpa using hnone
  · have hne : f0 ≠ f1 := by
      rintro rfl
      simp at hf1
    have hb : ((((Books.clear.addFile f0 1).setFresh f0 true).addFile f1 1).setFresh f1
        true).Nonneg :=
      .fresh (.fresh .clear f0) f1
    refine spec_of_rule hl hb ⟨wp_closeBoth (k := fun _ => pure none) hl hb (fun _ => rfl) hne ?_,
      fun pi => ?_⟩
    · have he : ((((((Books.clear.addFile f0 1).setFresh f0 true).addFile f1 1).setFresh f1
          true).addFile f0
          (-1)).setFresh f0 false |>.addFile f1 (-1)).setFresh f1 false = .clear := by
        ext x <;> simp [bump_apply, update_apply, Books.clear]
        · split_ifs <;> rfl
        · exact And.intro
      rw [he]
      exact hnone
    · have hb0 := (hb.addEnd (e := (pi, false)) (n := 1) (by simp [Books.clear])).addEnd
        (e := (pi, true)) (n := 1) (by simp [Books.clear, bump_apply])
      refine spec_of_rule hl hb0
        ⟨?_, ?_, spec_of_rule hl ((hb0.addEnd ?_).setFresh f0 false) ⟨?_, ?_, ?_⟩⟩
      · simp [update_of_ne hne]
      · simp [Books.clear, bump_apply]
      · simp [Books.clear, bump_apply]
      · simp [update_of_ne hne.symm]
      · simp [Books.clear, bump_apply]
      · have he : ((((((((((Books.clear.addFile f0 1).setFresh f0 true).addFile f1 1).setFresh f1
            true).addEnd
            (pi, false) 1).addEnd (pi, true) 1).addEnd (pi, false) (-1)).setFresh f0 false).addEnd
            (pi, true) (-1)).setFresh f1 false) = twoFiles f0 f1 := by
          ext x <;> simp [twoFiles, bump_apply, update_apply, Books.clear]
          · split_ifs <;> rfl
          · exact And.intro
        have := hsome f0 f1 hne
        rw [← he] at this
        exact this

theorem wp_pipeFailed {rf wf : F} (hne : rf ≠ wf) :
    wp spec (fileclose rf >>= fun _ => fileclose wf >>= fun _ => pure (-1 : Int))
      (v.note (twoFiles rf wf)) fun _ => Idle := by
  refine wp_closeBoth hl (twoFiles_nonneg rf wf) (fun _ => rfl) hne ⟨?_, hc⟩
  ext x <;> simp [twoFiles, bump_apply, update_apply, Books.clear]
  split_ifs <;> rfl

/-- `pipe` keeps two descriptors and no reference, or nothing at all. -/
theorem wp_sysPipe : wp spec sysPipe (v.note .clear) fun _ => Idle := by
  refine wp_bind monotone_spec (wp_pipealloc hl ⟨rfl, hc⟩ fun rf wf hne => ?_)
  have hwf : (Books.addFile (twoFiles rf wf) rf (-1)).files wf = 1 := by
    simp [twoFiles, bump_apply, hne.symm, Books.clear]
  have hb0 : (Books.addFile (twoFiles rf wf) rf (-1)).Nonneg :=
    (twoFiles_nonneg rf wf).addFile (by simp [twoFiles, bump_apply, hne, Books.clear])
  refine wp_fdalloc hl (twoFiles_nonneg rf wf) (wp_pipeFailed hl hc hne) fun fd0 _ => ?_
  refine wp_fdalloc (v := v.setOfile fd0 (some rf)) hl hb0 ?_ fun fd1 hfd1 => ?_
  · -- there is no second descriptor
    refine wp_clear (v := v.setOfile fd0 (some rf)) hl hb0 (update_self ..) ?_
    simpa using wp_pipeFailed (v := (v.setOfile fd0 (some rf)).setOfile fd0 none) hl hc hne
  · set u := (v.setOfile fd0 (some rf)).setOfile fd1 (some wf) with hu
    set b := (Books.addFile (twoFiles rf wf) rf (-1)).addFile wf (-1) with hb
    have hb1 : b.Nonneg := hb0.addFile (by rw [hwf]; decide)
    have hfd : fd0 ≠ fd1 := by
      rintro rfl
      simp at hfd1
    have hbad : wp spec (sysPipeBad (some fd0) (some fd1) rf wf) (u.note b) fun _ => Idle := by
      refine wp_clear (v := u) hl hb1 (f := rf) ?_ ?_
      · rw [hu, View.setOfile_ofile, update_of_ne hfd, View.setOfile_ofile, update_self]
      · refine wp_clear (v := u.setOfile fd0 none) hl (hb1.file rf) (f := wf) ?_ ?_
        · rw [hu, View.setOfile_ofile, update_of_ne hfd.symm, View.setOfile_ofile,
            update_self]
        · have he : (b.addFile rf 1).addFile wf 1 = twoFiles rf wf := by
            ext x <;> simp [hb, bump_apply]
            split_ifs <;> omega
          rw [he]
          exact wp_pipeFailed (v := (u.setOfile fd0 none).setOfile fd1 none) hl hc hne
    have hpos : ∀ Q, (∀ ok, Q ok (u.note b)) → spec (.copyout (P := P)) (u.note b) Q :=
      fun Q h => spec_of_rule (v := u) hl hb1 h
    refine hpos _ fun ok => ?_
    cases ok with
    | false => exact hbad
    | true =>
      refine hpos _ fun ok => ?_
      cases ok with
      | false => exact hbad
      | true =>
        refine ⟨?_, hc⟩
        ext x <;> simp [hb, twoFiles, bump_apply, Books.clear]
        split_ifs <;> rfl

omit hc in
/-- The loop of `fork`: each descriptor of the child takes over a reference that was counted before.
-/
theorem wp_forkFiles {np : P} {Q : Unit → View P → Prop} (fds : List Fd) (hnd : fds.Nodup) :
    ∀ {o : Fd → Option F}, v.child = some (np, o) → (∀ fd ∈ fds, o fd = none) →
      (∀ o', Q () { v.note .clear with child := some (np, o') }) →
      wp spec (forkFiles np fds) (v.note .clear) Q := by
  induction fds generalizing v with
  | nil =>
    intro o hv _ hQ
    have := hQ o
    rw [← hv] at this
    exact this
  | cons fd fds ih =>
    intro o hv ho hQ
    obtain ⟨hfd, hnd⟩ := List.nodup_cons.mp hnd
    refine spec_of_rule hl .clear ?_
    rw [rule]
    cases hf : (v.note .clear).ofile fd with
    | none => exact ih hl hnd hv (fun d hd => ho d (List.mem_cons_of_mem _ hd)) hQ
    | some f =>
      refine spec_of_rule hl .clear ⟨?_, spec_of_rule hl (.file .clear f) ⟨o, hv, ?_, ?_, rfl, ?_⟩⟩
      · have := one_le_slots hf
        rw [View.net]
        simpa [Books.clear] using this
      · exact ho fd List.mem_cons_self
      · simp [Books.clear]
      · have := ih (v := { v with child := some (np, update o fd (some f)) }) hl hnd rfl
          (fun d hd => by
            rw [update_of_ne (fun he => hfd (by rw [← he]; exact hd))]
            exact ho d (List.mem_cons_of_mem _ hd)) hQ
        have he : (Books.clear.addFile f 1).addFile f (-1) = .clear := by simp
        rw [← he] at this
        exact this

theorem wp_fork : wp spec fork (v.note .clear) fun _ => Idle := by
  refine spec_of_rule hl .clear ⟨hc, ⟨rfl, hc⟩, fun np => ?_⟩
  set u : View P := { v with child := some (np, fun _ => none) } with hu
  have hcopy : ∀ Q, (∀ ok, Q ok (u.note .clear)) → spec (.uvmcopy (P := P)) (u.note .clear) Q :=
    fun Q h => spec_of_rule (v := u) hl .clear h
  refine hcopy _ fun ok => ?_
  cases ok with
  | false => exact spec_of_rule (v := u) hl .clear ⟨rfl, rfl, rfl⟩
  | true =>
    refine wp_bind (x := forkFiles np (List.finRange nofile)) monotone_spec ?_
    refine wp_forkFiles (v := u) hl _ (List.nodup_finRange _) rfl (fun _ _ => rfl) fun o' => ?_
    exact spec_of_rule (v := { u with child := some (np, o') }) hl .clear ⟨⟨o', rfl⟩, rfl, rfl⟩

/-- The loop of `exit`: a file is closed first and its descriptor cleared then. -/
theorem wp_exitFiles {Q : Unit → View P → Prop} (fds : List Fd) :
    (∀ fd, fd ∉ fds → v.ofile fd = none) →
      (∀ u : View P, u.life = .alive → u.child = none → (∀ fd, u.ofile fd = none) →
        Q () (u.note .clear)) →
      wp spec (exitFiles fds) (v.note .clear) Q := by
  induction fds generalizing v with
  | nil => exact fun h hQ => hQ v hl hc fun fd => h fd List.not_mem_nil
  | cons fd fds ih =>
    intro h hQ
    have hrest : ∀ d, d ∉ fds → d ≠ fd → v.ofile d = none := fun d hd hne =>
      h d fun hm => (List.mem_cons.mp hm).elim hne hd
    refine spec_of_rule hl .clear ?_
    rw [rule]
    cases hf : (v.note .clear).ofile fd with
    | none =>
      refine ih hl hc (fun d hd => ?_) hQ
      by_cases hne : d = fd
      · rw [hne]
        exact hf
      · exact hrest d hd hne
    | some f =>
      refine wp_fileclose hl .clear ?_ ?_
      · have := one_le_slots hf
        simpa [Books.clear] using this
      · have he : ((Books.clear.addFile f (-1)).setFresh f false).addFile f 1 = .clear := by simp
        refine ⟨hl, fun g hg => ?_, f, hf, ?_⟩
        · -- the debt is for the descriptor that is cleared now
          by_contra hne
          have hgf : g ≠ f := fun h => hne (by rw [h]; exact hf)
          have : bump Books.clear.files f (-1) g < 0 := hg
          rw [bump_of_ne _ _ hgf] at this
          exact absurd this (lt_irrefl 0)
        · have := ih (v := v.setOfile fd none) hl hc (fun d hd => ?_) hQ
          · rw [← he] at this
            exact this
          · by_cases hne : d = fd
            · rw [hne]
              exact update_self ..
            · rw [View.setOfile_ofile, update_of_ne hne]
              exact hrest d hd hne

theorem wp_exit : wp spec exit (v.note .clear) fun _ => Idle := by
  refine wp_bind monotone_spec ?_
  refine wp_exitFiles hl hc _ (fun fd hfd => absurd (List.mem_finRange fd) hfd)
    fun u hu huc ho => ?_
  exact spec_of_rule hu .clear ⟨ho, rfl, huc⟩

/-- **Every system call** keeps to the rules, and leaves the books as they were. -/
theorem correct_body (c : Call) : wp spec c.body (v.note .clear) fun _ => Idle := by
  cases c with
  | dup fd => exact wp_bind monotone_spec (wp_sysDup hl hc fd)
  | close fd => exact wp_bind monotone_spec (wp_sysClose hl hc fd)
  | «open» omode => exact wp_bind monotone_spec (wp_sysOpen hl hc omode)
  | pipe => exact wp_bind monotone_spec (wp_sysPipe hl hc)
  | fork => exact wp_fork hl hc
  | exit => exact wp_exit hl hc
  | wait => exact spec_of_rule hl .clear ⟨rfl, hc⟩

end Calls

end Xv6.Ftable
