import Xv6.Ftable.Steps

/-!
# The reference counts of open files

Here the rules for one process and the invariant of the table are put together: they hold in every
state that any processes can reach with `open`, `pipe`, `dup`, `close`, `fork`, `exit` and `wait`,
in any order and with any outcome (`counted`).

A count is not always the number of descriptors plus the references of calls in progress.  `exit`
closes a file before it clears the descriptor, so for a moment there is a descriptor of a file whose
count is 0 (`dangling_descriptor`); nobody but the process that exits can see it, and it does not
use it again.
-/

namespace Xv6.Ftable

open Code Account Lts Lts.System

variable {P : Type} [Fintype P] [DecidableEq P] {code : K P Unit}
  {s : Account.State P (State P) (Cmd P) Cmd.Ans}

/-! ## The rules fit -/

/-- The rules of a process and the invariant of the table. -/
def rules (P : Type) [Fintype P] : Account.Rules P (State P) (Cmd P) Cmd.Ans (View P) where
  view := view
  spec := spec
  idle := Idle
  inv := Inv

omit [Fintype P] [DecidableEq P] in
/-- A process that is not alive has no code to run. -/
theorem eq_ret_of_not_alive {v : View P} (hv : v.life ≠ .alive) (h : wp spec code v fun _ => Idle) :
    code = .ret () ∧ Idle v := by
  cases code with
  | ret a => exact ⟨rfl, h⟩
  | cmd c k => exact absurd h.1 hv

theorem sound : (rules P).Sound (machine P) where
  call s p c _ hp hidle := by
    have hl : (view s p).life = .alive := of_decide_eq_true hp
    have hv : (view s p).note .clear = view s p := by
      rw [View.note, ← hidle.1]
      rfl
    have := correct_body (v := view s p) hl hidle.2 c
    rwa [hv] at this
  step s p c o r s' Q hs hc hact := by
    have hact : act p c o s = some (r, s') := hact
    rw [act, if_pos hs.fault] at hact
    exact ⟨(done_effect hs hc hact).1, (done_effect hs hc hact).2.1⟩
  others s p c o r s' Q q code hs hc hact hq hcode := by
    have hact : act p c o s = some (r, s') := hact
    rw [act, if_pos hs.fault] at hact
    obtain hv | ⟨hl, hb, hch⟩ := (done_effect hs hc hact).2.2 q hq
    · change wp spec code (view s' q) _
      rw [hv]
      exact hcode
    · obtain ⟨rfl, hbooks, hchild⟩ := eq_ret_of_not_alive hl hcode
      refine ⟨hb.trans hbooks, ?_⟩
      have : s.child q = none := Option.map_eq_none_iff.mp hchild
      change (s'.child q).map _ = none
      rw [hch, this]
      rfl

theorem inv_boot (p0 : P) : Inv (boot p0) := by
  refine ⟨rfl, ⟨fun f => ?_, fun p f => ?_, fun _ _ => rfl, nofun, nofun⟩,
    ⟨fun ip => ?_, fun p ip => le_rfl⟩,
    ⟨fun a w => ?_, fun a => ?_, fun p e => le_rfl, fun p a => le_rfl⟩,
      ⟨fun _ _ _ => rfl, nofun, nofun⟩⟩
  · simp [boot, net, slots, Books.clear]
  · simp [boot, net, slots, Books.clear]
  · simp [boot, File.inodeAt, Books.clear]
  · simp [boot, File.endOf, openEnd, Books.clear]
  · simp [boot, used, live, Books.clear]

/-- The processes of the machine. -/
abbrev processes (p₀ : P) :
    System (Account.State P (State P) (Cmd P) Cmd.Ans) (Account.Act P (Choice P) Call) :=
  (machine P).system (boot p₀)

theorem holds_of_reach {p0 : P} (hr : (processes p0).Reach Any s) : (rules P).Holds s :=
  sound.of_reach (inv_boot p0) (fun _ => ⟨rfl, rfl⟩) hr

/-! ## The result -/

/-- What a process does next when it has a descriptor of `f` that is not counted: it releases what
the file stood for, if anything, and clears the descriptor.  If it `may` still use `f`, it can also
count the descriptor. -/
def Settles (o : Fd → Option F) (f : F) (may : Prop) : K P Unit → Prop
  | .ret _ => False
  | .cmd (.clear fd) _ => o fd = some f
  | .cmd (.filedup g) _ => may ∧ g = f
  | .cmd (.iput _) k => Settles o f may (k ())
  | .cmd (.closeEnd _ _) k => ∀ r, Settles o f may (k r)
  | .cmd (.kfree _) k => Settles o f may (k ())
  | .cmd _ _ => False

/-- The counts of the table are right. -/
structure Counted (s : Account.State P (State P) (Cmd P) Cmd.Ans) : Prop where
  /-- No panic, and nothing is released that has been released before. -/
  fault : s.shared.fault = none
  /-- `ref` counts the descriptors, and the references of calls in progress. -/
  refs : ∀ f, ((s.shared.file f).ref : ℤ) =
    ∑ p, slots (s.shared.ofile p) f + ∑ p, (s.shared.books p).files f
  /-- Between two calls a process has no other references. -/
  idle : ∀ p, s.code p = .ret () → s.shared.books p = .clear
  /-- A process accounts for less than its descriptors only where `dup` is going to count a new one,
  or where `exit` is closing the file. -/
  owed : ∀ p f, (s.shared.books p).files f < 0 → Settles (s.shared.ofile p) f True (s.code p)
  /-- A descriptor of a file with `ref` 0 is about to be cleared, and is not used again. -/
  dead : ∀ f, (s.shared.file f).ref = 0 → (s.shared.file f).type = .none ∧
    ∀ p fd, s.shared.ofile p fd = some f → Settles (s.shared.ofile p) f False (s.code p)
  /-- Every reference to an inode belongs to one open file, or to a call in progress. -/
  inodes : ∀ ip, (s.shared.iref ip : ℤ) =
    ∑ f, (s.shared.file f).inodeAt ip + ∑ p, (s.shared.books p).inodes ip
  /-- Every open end of a pipe belongs to one open file, or to a call in progress. -/
  ends : ∀ a w, openEnd (s.shared.pipe a) w =
    ∑ f, (s.shared.file f).endOf (a, w) + ∑ p, (s.shared.books p).ends (a, w)
  /-- A pipe with no open end is about to be freed. -/
  pages : ∀ a, used (s.shared.pipe a) = live (s.shared.pipe a) + ∑ p, (s.shared.books p).pages a
  /-- A pipe is there, and open, as long as there is a file for one of its ends. -/
  pipes : ∀ f, (s.shared.file f).type = .pipe →
    ∃ x, s.shared.pipe (s.shared.file f).pipe = some x ∧ x.isOpen (s.shared.file f).writable = true

omit [Fintype P] [DecidableEq P] in
theorem settles_of_wp {f : F} {may : Prop} : ∀ {v : View P}, (1 ≤ v.net f → may) →
    v.books.files f < 0 → wp spec code v (fun _ => Idle) → Settles v.ofile f may code := by
  induction code with
  | ret a =>
    intro v _ hf h
    have hb : v.books = .clear := h.1
    rw [hb] at hf
    exact absurd hf (lt_irrefl 0)
  | cmd c k ih =>
    intro v hmay hf h
    have hpays := h.2.1 f hf
    cases c with
    | filedup g =>
      obtain rfl : g = f := hpays
      exact ⟨hmay h.2.2.1, rfl⟩
    | clear fd => exact hpays
    | iput ip => exact ih () (v := v.note (v.books.addInode ip (-1))) hmay hf h.2.2.2
    | closeEnd pi w =>
      intro r
      cases r with
      | false => exact ih false (v := v.note (v.books.addEnd (pi, w) (-1))) hmay hf h.2.2.2.1
      | true =>
        exact ih true (v := v.note ((v.books.addEnd (pi, w) (-1)).addPage pi 1)) hmay hf h.2.2.2.2
    | kfree pi => exact ih () (v := v.note (v.books.addPage pi (-1))) hmay hf h.2.2.2
    | _ => exact hpays.elim

/-- **The reference counts of open files.**  For all processes and all interleavings of their calls.
-/
theorem counted {p₀ : P} {s : Account.State P (State P) (Cmd P) Cmd.Ans}
    (hr : (processes p₀).Reach Any s) : Counted s := by
  have h := holds_of_reach hr
  refine ⟨h.inv.fault, fun f => ?_, fun p hp => ?_, fun p f hf => ?_,
    fun f hf => ⟨h.inv.files.closed f hf, ?_⟩,
    h.inv.inodes.refs, h.inv.pipes.ends, h.inv.pipes.pages, fun f hf => ?_⟩
  · rw [h.inv.files.refs f, ← Finset.sum_add_distrib]
    rfl
  · have := h.correct p
    rw [hp] at this
    exact this.1
  · exact settles_of_wp (v := view s.shared p) (fun _ => trivial) hf (h.correct p)
  · intro p fd hfd
    have h1 := one_le_slots hfd
    have h2 := h.inv.files.net_eq_zero hf p
    have h3 : net s.shared p f = slots (s.shared.ofile p) f + (s.shared.books p).files f := rfl
    refine settles_of_wp (v := view s.shared p) (fun hn => ?_) (?_ : (s.shared.books p).files f < 0)
      (h.correct p)
    · have hn : 1 ≤ net s.shared p f := hn
      omega
    · omega
  · set x := s.shared.file f with hx
    have h1 := h.inv.pipes.ends x.pipe x.writable
    have h2 : x.endOf (x.pipe, x.writable) ≤ ∑ g, (s.shared.file g).endOf (x.pipe, x.writable) :=
      le_sum (g := fun g => (s.shared.file g).endOf (x.pipe, x.writable))
        (fun g => File.endOf_nonneg _ _) f
    have h3 : x.endOf (x.pipe, x.writable) = 1 := by
      rw [File.endOf, if_pos ⟨hf, rfl⟩]
    have h4 : 0 ≤ ∑ p, (s.shared.books p).ends (x.pipe, x.writable) :=
      Finset.sum_nonneg fun p _ => h.inv.pipes.ends_nonneg p _
    cases hp : s.shared.pipe x.pipe with
    | none =>
      rw [hp] at h1
      have : openEnd none x.writable = 0 := rfl
      omega
    | some y =>
      refine ⟨y, rfl, ?_⟩
      by_contra hy
      rw [hp] at h1
      have : openEnd (some y) x.writable = 0 := by
        rw [openEnd, if_neg (by simpa using hy)]
      omega

instance : NeZero nfile := ⟨by decide⟩

instance : NeZero nofile := ⟨by decide⟩

/-- A choice for every command. -/
def choice : Choice (Fin 2) := ⟨some ⟨5, .file, 0⟩, some 7, some 1, true⟩

/-- A process makes a call, and runs it for `n` commands. -/
def calling (p : Fin 2) (c : Call) (n : Nat) : List (Account.Act (Fin 2) (Choice (Fin 2)) Call) :=
  .call p c :: List.replicate n (.run p choice)

/-- A pipe, its two descriptors copied by `fork`, and one of them closed by the child. -/
theorem counted_fork : ∃ s : Account.State (Fin 2) (State (Fin 2)) (Cmd (Fin 2)) Cmd.Ans,
    (s.shared.file 0).ref = 1 ∧ (s.shared.file 1).ref = 2 ∧ (processes (0 : Fin 2)).Reach Any s ∧
    Counted s := by
  obtain ⟨s, hreach, h0, h1⟩ : ∃ s, (processes (0 : Fin 2)).Reach Any s ∧
      (s.shared.file 0).ref = 1 ∧ (s.shared.file 1).ref = 2 :=
    (Reach.init rfl).replay (calling 0 .pipe 9 ++ calling 0 .fork 23 ++ calling 1 (.close 0) 3)
      (by decide +kernel)
  exact ⟨s, h0, h1, hreach, counted hreach⟩

/-- A process that exits has closed its file, and not cleared the descriptor yet. -/
theorem dangling_descriptor : ∃ s : Account.State (Fin 2) (State (Fin 2)) (Cmd (Fin 2)) Cmd.Ans,
    (processes (0 : Fin 2)).Reach Any s ∧ (s.shared.file 0).ref = 0 ∧ s.shared.ofile 0 0 = some 0 :=
  (Reach.init rfl).replay (calling 0 (.open .rdonly) 4 ++ calling 0 .exit 2) (by decide +kernel)

/-- **Nothing is leaked.**  When no call is in progress and no process has a descriptor, every file
is free, no inode is referenced and every pipe has been freed. -/
theorem all_released {p₀ : P} (hr : (processes p₀).Reach Any s) (hret : ∀ p, s.code p = .ret ())
    (hfd : ∀ p fd, s.shared.ofile p fd = none) :
    (∀ f, (s.shared.file f).ref = 0 ∧ (s.shared.file f).type = .none) ∧
    (∀ ip, s.shared.iref ip = 0) ∧
    ∀ a, s.shared.pipe a = none := by
  have h := holds_of_reach hr
  have hclear p : s.shared.books p = .clear := by
    have := h.correct p
    rw [hret p] at this
    exact this.1
  have href f : (s.shared.file f).ref = 0 := by
    have := h.inv.files.refs f
    simpa [net, slots, hfd, hclear, Books.clear] using this
  have htype f := h.inv.files.closed f (href f)
  refine ⟨fun f => ⟨href f, htype f⟩, fun ip => ?_, fun a => ?_⟩
  · have := h.inv.inodes.refs ip
    simpa [File.inodeAt, htype, hclear, Books.clear] using this
  · have hend w : openEnd (s.shared.pipe a) w = 0 := by
      rw [h.inv.pipes.ends a w]
      simp [File.endOf, htype, hclear, Books.clear]
    have hpage := h.inv.pipes.pages a
    cases hp : s.shared.pipe a with
    | none => rfl
    | some x =>
      simp_all [openEnd, used, live, Pipe.isOpen, Books.clear]

def returned : K (Fin 2) Unit → Bool
  | .ret _ => true
  | .cmd _ _ => false

theorem eq_ret {c : K (Fin 2) Unit} (h : returned c = true) : c = .ret () := by
  cases c with
  | ret a => rfl
  | cmd c k => cases h

/-- A pipe is made, shared with a child and closed by both. -/
theorem all_released_pipe : ∃ s, (processes (0 : Fin 2)).Reach Any s ∧ s.shared.life 1 = .zombie ∧
    ∀ a, s.shared.pipe a = none := by
  obtain ⟨s, hreach, hlife, hret, hfd⟩ : ∃ s, (processes (0 : Fin 2)).Reach Any s ∧
      s.shared.life 1 = .zombie ∧ (∀ p, returned (s.code p) = true) ∧
        ∀ p fd, s.shared.ofile p fd = none :=
    (Reach.init rfl).replay (calling 0 .pipe 9 ++ calling 0 .fork 23 ++ calling 1 .exit 21 ++
      calling 0 (.close 0) 4 ++ calling 0 (.close 1) 5) (by decide +kernel)
  exact ⟨s, hreach, hlife, (all_released hreach (fun p => eq_ret (hret p)) hfd).2.2⟩

end Xv6.Ftable
