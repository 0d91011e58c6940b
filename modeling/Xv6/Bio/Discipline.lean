import Xv6.Bio.Model

/-!
# Rules for code that uses buffers

What a piece of kernel code may do with buffers, as a specification of the commands over what the
process itself knows: which buffers it holds and for which block, whether it has stored to them, and
where it is with respect to the log.  `spec` gives the rule of each command; `Code.wp` extends it to
whole pieces of code.

There are two sets of rules.  Under `Rules.pinning` a process releases what it has read and calls
`log_write` between `begin_op` and `end_op` only: this is what the reference counts depend on.
Under `Rules.logging` moreover every store to `bp->data` reaches `log_write` or `bwrite` before the
buffer is released, which is what the contents of the cache depend on.  There a process outside any
operation has nothing to prove about its stores, because it should not reach one; whether it does is
a property of the run.

The last section shows that the code of `log.c` keeps the rules.
-/

namespace Xv6.Bio

open Lts Code Function

variable {b : Nat}

/-- The two sets of rules. -/
inductive Rules where
  | pinning
  | logging
  deriving DecidableEq

/-- What a process knows about the contents of a buffer it holds. -/
inductive Mark where
  /-- As when it was read or logged. -/
  | clean
  /-- Stored to, and neither logged nor written since. -/
  | dirty
  /-- Written to the disk. -/
  | written
  deriving DecidableEq

/-- What a process knows. -/
@[ext] structure Ctx (H : Type) where
  /-- Where it is with respect to the log. -/
  place : Place
  /-- The buffers it holds, for which block, and what it knows about the contents. -/
  held : H → Option (Nat × Mark)
  /-- In `commit`: `log.lh`. -/
  lh : List Nat
  /-- In `commit`: the blocks that are still to be unpinned. -/
  todo : List Nat

section Spec

variable {H : Type} [DecidableEq H] {c : Nat} {d e : Mark} {i j : H} {x : Ctx H}

/-- A process that is not doing anything. -/
def Ctx.idle : Ctx H := { place := .outside, held := fun _ => none, lh := [], todo := [] }

/-- The process holds `i` for block `b`. -/
def Ctx.hold (x : Ctx H) (i : H) (b : Nat) (d : Mark) : Ctx H :=
  { x with held := update x.held i (some (b, d)) }

/-- The process no longer holds `i`. -/
def Ctx.drop (x : Ctx H) (i : H) : Ctx H := { x with held := update x.held i none }

/-- The process is in `commit`, or in `recover_from_log` and has read the header. -/
def Ctx.InLog (x : Ctx H) : Prop := x.place = .commit ∨ x.place = .recovered

/-- The rule of each command. -/
def spec (r : Rules) (start : Nat) :
    (c : Cmd H) → Ctx H → (Ans c → Ctx H → Prop) → Prop
  | .bread b, x, Q => ∀ i v, x.held i = none →
      (x.place = .recover → b = start → Log.readHead v = []) → Q (i, v) (x.hold i b .clean)
  | .store i _, x, Q => x.place ≠ .recover ∧ ∃ b d, x.held i = some (b, d) ∧
      ((r = .logging → x.place ≠ .outside) → Q () (x.hold i b .dirty))
  | .copyin i _ _ _, x, Q => (x.place = .inOp ∨ x.place = .outside) ∧
      ∃ b, x.held i = some (b, .clean) ∧
      ((r = .logging → x.place ≠ .outside) → Q true (x.hold i b .dirty) ∧ Q false x)
  | .copyout _ _, x, Q => Q true x ∧ Q false x
  | .bwrite i, x, Q => x.place ≠ .recover ∧ ∃ b d, x.held i = some (b, d) ∧
      Q () (x.hold i b .written)
  | .bunpin i, x, Q => x.place = .commit ∧ ∃ b d todo, x.held i = some (b, d) ∧
      x.todo = b :: todo ∧ (r = .logging → d = .written) ∧ Q () { x with todo := todo }
  | .brelse i, x, Q => ∃ b d, x.held i = some (b, d) ∧ (r = .logging → d ≠ .dirty) ∧ Q () (x.drop i)
  | .logWrite i, x, Q => (x.place = .inOp ∨ r = .logging ∧ x.place = .outside) ∧
      ∃ b d, x.held i = some (b, d) ∧ (x.place = .inOp → Q () (x.hold i b .clean))
  | .beginOp, x, Q => x.place = .outside ∧ Q () { x with place := .inOp }
  | .endOp, x, Q => x.place = .inOp ∧ Q false { x with place := .outside } ∧
      ∀ lh, Q true { x with place := .commit, lh := lh, todo := lh }
  | .endCommit, x, Q => x.place = .commit ∧ x.lh = [] ∧
      Q () { x with place := .outside, lh := [], todo := [] }
  | .readLh, x, Q => x.InLog ∧ Q x.lh x
  | .setLh lh, x, Q => lh = [] ∧ (x.place = .recover ∨ x.InLog ∧ x.todo = []) ∧
      Q () { x with place := if x.place = .recover then .recovered else x.place,
                    lh := [], todo := [] }
  | .panic _, _, _ => True

theorem monotone_spec (r : Rules) (start : Nat) : Monotone (spec (H := H) r start) := by
  intro c x Q Q' hQ
  cases c
  all_goals
    simp only [spec]
    gcongr
    all_goals exact hQ _ _

/-- **A piece of code keeps the rules**, from when the process has nothing to when it has nothing
again. -/
def Disciplined (r : Rules) (start : Nat) (c : K H Unit) : Prop :=
  wp (spec r start) c Ctx.idle fun _ x => x = Ctx.idle

/-! ## Holding and dropping -/

@[simp] theorem Ctx.hold_place (x : Ctx H) (i : H) (b : Nat) (d : Mark) :
    (x.hold i b d).place = x.place := rfl

@[simp] theorem Ctx.hold_lh (x : Ctx H) (i : H) (b : Nat) (d : Mark) :
    (x.hold i b d).lh = x.lh := rfl

@[simp] theorem Ctx.hold_todo (x : Ctx H) (i : H) (b : Nat) (d : Mark) :
    (x.hold i b d).todo = x.todo := rfl

@[simp] theorem Ctx.held_hold_self (x : Ctx H) (i : H) (b : Nat) (d : Mark) :
    (x.hold i b d).held i = some (b, d) := update_self ..

theorem Ctx.held_hold_of_ne (h : j ≠ i) : (x.hold i b d).held j = x.held j := update_of_ne h ..

@[simp] theorem Ctx.hold_hold (x : Ctx H) (i : H) (b c : Nat) (d e : Mark) :
    (x.hold i b d).hold i c e = x.hold i c e := by
  rw [hold, hold, hold, update_idem]

theorem Ctx.hold_drop (h : x.held i = none) : (x.hold i b d).drop i = x := by
  rw [hold, drop, update_idem, ← h, update_eq_self]

theorem Ctx.hold_comm (h : j ≠ i) : (x.hold i b d).hold j c e = (x.hold j c e).hold i b d := by
  simp only [hold]
  rw [update_comm h]

theorem Ctx.hold_hold_drop (h : x.held i = none) (hij : j ≠ i) :
    ((x.hold i b d).hold j c e).drop i = x.hold j c e := by
  rw [hold_comm hij, hold_drop (by rwa [held_hold_of_ne hij.symm])]

theorem Ctx.ne_of_held (h : (x.hold i b d).held j = none) : j ≠ i := by
  rintro rfl
  simp at h

/-! ## The rules of single commands -/

variable {r : Rules} {start : Nat} {α : Type} {x : Ctx H} {Q : α → Ctx H → Prop}

@[simp] theorem wp_bread {k : H × Block → K H α} :
    wp (spec r start) (bread b >>= k) x Q ↔ ∀ i v, x.held i = none →
      (x.place = .recover → b = start → Log.readHead v = []) →
        wp (spec r start) (k (i, v)) (x.hold i b .clean) Q := Iff.rfl

theorem wp_store {v : Block} {k : Unit → K H α} (hp : x.place ≠ .recover)
    (hi : x.held i = some (b, d))
    (h : (r = .logging → x.place ≠ .outside) → wp (spec r start) (k ()) (x.hold i b .dirty) Q) :
    wp (spec r start) (store i v >>= k) x Q := ⟨hp, b, d, hi, h⟩

theorem wp_bwrite {k : Unit → K H α} (hp : x.place ≠ .recover) (hi : x.held i = some (b, d))
    (h : wp (spec r start) (k ()) (x.hold i b .written) Q) :
    wp (spec r start) (bwrite i >>= k) x Q := ⟨hp, b, d, hi, h⟩

theorem wp_brelse {k : Unit → K H α} (hd : d ≠ .dirty) (hi : x.held i = some (b, d))
    (h : wp (spec r start) (k ()) (x.drop i) Q) :
    wp (spec r start) (brelse i >>= k) x Q := ⟨b, d, hi, fun _ => hd, h⟩

theorem wp_bunpin {k : Unit → K H α} {l : List Nat} (hp : x.place = .commit)
    (hi : x.held i = some (b, .written)) (ht : x.todo = b :: l)
    (h : wp (spec r start) (k ()) { x with todo := l } Q) :
    wp (spec r start) (bunpin i >>= k) x Q := ⟨hp, b, .written, l, hi, ht, fun _ => rfl, h⟩

omit [DecidableEq H] in
theorem Ctx.InLog.ne_recover (h : x.InLog) : x.place ≠ .recover := by
  rcases h with h | h <;> simp [h]

theorem wp_readLh {k : List Nat → K H α} (hp : x.InLog)
    (h : wp (spec r start) (k x.lh) x Q) : wp (spec r start) (readLh >>= k) x Q := ⟨hp, h⟩

/-! ## The code of `log.c` keeps the rules -/

theorem wp_writeLogFrom (hx : x.place = .commit) {Q : Unit → Ctx H → Prop} (hQ : Q () x)
    (lh : List Nat) : ∀ tail, wp (spec r start) (writeLogFrom start tail lh) x Q := by
  induction lh with
  | nil => exact fun _ => hQ
  | cons b lh ih =>
    intro tail
    rw [writeLogFrom, wp_bread]
    intro i v hi _
    rw [wp_bread]
    intro j d hj _
    have hji : j ≠ i := Ctx.ne_of_held hj
    have hj' : x.held j = none := by rwa [Ctx.held_hold_of_ne hji] at hj
    rw [Ctx.hold_comm hji]
    refine wp_store (by simp [hx]) (Ctx.held_hold_self ..) fun _ => ?_
    refine wp_bwrite (by simp [hx]) (Ctx.held_hold_self ..) ?_
    simp only [Ctx.hold_hold]
    refine wp_brelse (b := b) (d := .clean) (by simp)
      (by rw [Ctx.held_hold_of_ne hji, Ctx.held_hold_self]) ?_
    rw [Ctx.hold_hold_drop hj' hji.symm]
    refine wp_brelse (by simp) (Ctx.held_hold_self ..) ?_
    rw [Ctx.hold_drop hi]
    exact ih (tail + 1)

theorem wp_installTransFrom (hx : x.place = .commit) {Q : Unit → Ctx H → Prop}
    (hQ : Q () { x with todo := [] }) (lh : List Nat) (ht : x.todo = lh) :
    ∀ tail, wp (spec r start) (installTransFrom start tail lh) x Q := by
  induction lh generalizing x with
  | nil =>
    intro _
    rw [← ht] at hQ
    exact hQ
  | cons b lh ih =>
    intro tail
    rw [installTransFrom, wp_bread]
    intro i d hi _
    rw [wp_bread]
    intro j v hj _
    have hji : j ≠ i := Ctx.ne_of_held hj
    refine wp_store (by simp [hx]) (Ctx.held_hold_self ..) fun _ => ?_
    refine wp_bwrite (by simp [hx]) (Ctx.held_hold_self ..) ?_
    simp only [Ctx.hold_hold]
    refine wp_bunpin (b := b) (l := lh) (by simp [hx]) (Ctx.held_hold_self ..) (by simp [ht]) ?_
    have hj' : x.held j = none := by rwa [Ctx.held_hold_of_ne hji] at hj
    let y : Ctx H := { x with todo := lh }
    change wp (spec r start) _ ((y.hold i (start + tail + 1) .clean).hold j b .written) Q
    refine wp_brelse (b := start + tail + 1) (d := .clean) (by simp)
      (by rw [Ctx.held_hold_of_ne hji.symm, Ctx.held_hold_self]) ?_
    rw [Ctx.hold_hold_drop (x := y) hi hji]
    refine wp_brelse (by simp) (Ctx.held_hold_self ..) ?_
    rw [Ctx.hold_drop (x := y) hj']
    exact ih (x := y) hx hQ rfl (tail + 1)

theorem wp_writeHead (hx : x.InLog) {Q : Unit → Ctx H → Prop} (hQ : Q () x) :
    wp (spec r start) (writeHead start) x Q := by
  rw [writeHead, wp_bread]
  intro i v hi _
  refine wp_readLh hx ?_
  refine wp_store hx.ne_recover (Ctx.held_hold_self ..) fun _ => ?_
  refine wp_bwrite hx.ne_recover (Ctx.held_hold_self ..) ?_
  simp only [Ctx.hold_hold]
  refine ⟨start, .written, Ctx.held_hold_self .., fun _ => by simp, ?_⟩
  rw [Ctx.hold_drop hi]
  exact hQ

/-- `commit` leaves an empty log and nothing to unpin. -/
theorem wp_commit (hx : x.place = .commit) (ht : x.todo = x.lh) {Q : Unit → Ctx H → Prop}
    (hQ : Q () { x with lh := [], todo := [] }) : wp (spec r start) (commit start) x Q := by
  have hm := monotone_spec (H := H) r start
  obtain ⟨pl, held, lh, todo⟩ := x
  obtain rfl : pl = .commit := hx
  obtain rfl : todo = lh := ht
  have hin {l t : List Nat} : Ctx.InLog (H := H) ⟨.commit, held, l, t⟩ := .inl rfl
  refine wp_readLh hin ?_
  split
  · refine wp_bind hm (wp_readLh hin (wp_writeLogFrom rfl ?_ todo 0))
    refine wp_bind hm (wp_writeHead hin ?_)
    refine wp_bind hm (wp_readLh hin (wp_installTransFrom rfl ?_ todo rfl 0))
    exact ⟨rfl, .inr ⟨hin, rfl⟩, wp_writeHead hin hQ⟩
  · rename_i hn
    obtain rfl : todo = [] := by simpa using hn
    exact hQ

/-- `end_op` takes a process that holds no more than it needs out of the operation. -/
theorem wp_endOp (hx : x.place = .inOp) (hl : x.lh = []) (ht : x.todo = [])
    {Q : Unit → Ctx H → Prop} (hQ : Q () { x with place := .outside }) :
    wp (spec r start) (endOp start) x Q := by
  obtain ⟨pl, held, l, todo⟩ := x
  obtain rfl : l = [] := hl
  obtain rfl : todo = [] := ht
  refine ⟨hx, hQ, fun lh => ?_⟩
  change wp (spec r start) (commit start >>= fun _ => call Cmd.endCommit) _ Q
  exact wp_bind (monotone_spec r start) (wp_commit rfl rfl ⟨rfl, rfl, hQ⟩)

/-- `recover_from_log` keeps the rules **if the header it finds is empty**: then `install_trans`
has nothing to unpin. -/
theorem wp_recoverFromLog (hx : x.place = .recover) {Q : Unit → Ctx H → Prop}
    (hQ : Q () { x with place := .recovered, lh := [], todo := [] }) :
    wp (spec r start) (recoverFromLog start) x Q := by
  have hm := monotone_spec (H := H) r start
  obtain ⟨pl, held, lh, todo⟩ := x
  obtain rfl : pl = .recover := hx
  have hin : Ctx.InLog (H := H) ⟨.recovered, held, [], []⟩ := .inr rfl
  refine wp_bind hm ?_
  rw [readHead, wp_bread]
  intro i v hi hv
  refine ⟨hv rfl rfl, .inl rfl, ⟨start, .clean, Ctx.held_hold_self .., fun _ => by simp, ?_⟩⟩
  change wp (spec r start) _ ((Ctx.hold ⟨.recovered, held, [], []⟩ i start .clean).drop i) Q
  rw [Ctx.hold_drop (x := ⟨.recovered, held, [], []⟩) hi]
  refine wp_bind hm (wp_readLh hin ?_)
  exact ⟨rfl, .inr ⟨hin, rfl⟩, wp_writeHead hin hQ⟩

end Spec

end Xv6.Bio
