import Xv6.Dir.Code
import Mathlib.Data.Nat.Init

/-!
# What the system calls promise each other

Between two steps of one system call the others may do anything — except to what the call has
locked, and except for taking away what it holds a reference to.  A *context* records what a call
has: its references, the inodes it has locked together with their contents, and what it has begun
and not finished.  `spec` says which commands are allowed in which context and what the context is
afterwards; `Syscall.disciplined` says that the code of every system call keeps to it.

What a call has begun matters because the link counts are changed apart from the entries: between
`ip->nlink++` in `sys_link` and the writing of the entry the count is one more than the number of
entries, and likewise in `create` and `sys_unlink`.  `Job` is the list of these situations.
-/

namespace Xv6.Dir

open Code
open Function (update update_self update_of_ne update_idem update_apply update_eq_self update_comm)

variable {n : Node} {path : List Char} {t : Kind} {name : Name}

/-! ## Contexts -/

/-- What a system call has begun. -/
inductive Job where
  | none
  /-- `sys_link` has counted a link to `i` for which there is no entry. -/
  | link (i : Nat)
  /-- `ialloc` has returned `i`. -/
  | alloc (i : Nat) (k : Kind)
  /-- `create` has set `nlink` of the new inode `i` to 1, and counted the entry `..` in `up`. -/
  | made (i : Nat) (up : Option Nat)
  /-- `sys_unlink` has erased the entry of `i`, but has not yet changed its link count, nor that of
  the directory `up`. -/
  | erased (i : Nat) (up : Option Nat) (isDir : Bool)
  /-- `sys_unlink` has removed the directory `i` and is about to give it back. -/
  | gone (i : Nat)

/-- The inode that is being made and that nobody else knows of. -/
def Job.fresh : Job → Option Nat
  | .alloc i _ | .made i _ => some i
  | _ => Option.none

/-- The directory that is being removed. -/
def Job.dying : Job → Option Nat
  | .erased i _ true | .gone i => some i
  | _ => Option.none

/-- The inodes that stay locked until the job is done. -/
def Job.pins : Job → List Nat
  | .made i up | .erased i up _ => i :: up.toList
  | _ => []

/-- How many links to `i` are in its count though there is no entry for them. -/
def Job.owed : Job → Nat → Nat
  | .link j, i => if i = j then 1 else 0
  | .made j up, i | .erased j up _, i => (if i = j then 1 else 0) + if up = some i then 1 else 0
  | _, _ => 0

/-- What a system call has. -/
structure Ctx where
  /-- The number of references to each inode. -/
  held : Nat → Nat
  /-- The locked inodes, with their contents. -/
  view : Nat → Option Node
  job : Job
  /-- The inode that `iput` is freeing. -/
  freeing : Option Nat
  /-- The inode that `iput` has freed, while it still has the reference. -/
  dropping : Option Nat

namespace Ctx

/-- A process that is not in a system call. -/
def idle : Ctx where
  held _ := 0
  view _ := none
  job := .none
  freeing := none
  dropping := none

/-- One more reference. -/
def get (x : Ctx) (i : Nat) : Ctx := { x with held := update x.held i (x.held i + 1) }

/-- One reference less. -/
def put (x : Ctx) (i : Nat) : Ctx := { x with held := update x.held i (x.held i - 1) }

/-- The inode `i` is locked and has these contents. -/
def see (x : Ctx) (i : Nat) (n : Node) : Ctx := { x with view := update x.view i (some n) }

/-- The inode `i` is not locked any more. -/
def unsee (x : Ctx) (i : Nat) : Ctx := { x with view := update x.view i none }

/-- The removed directory has been given back. -/
def settle (x : Ctx) (i : Nat) : Ctx :=
  { x with job := if x.job.dying = some i then .none else x.job }

/-- Nothing is locked, `iput` is not running, and nothing has been begun but `sys_link`. -/
structure Calm (x : Ctx) : Prop where
  view : ∀ i, x.view i = none
  freeing : x.freeing = none
  dropping : x.dropping = none
  job : x.job = .none ∨ ∃ i, x.job = .link i

variable {x : Ctx} {i j : Nat}

@[simp] theorem get_view : (x.get i).view = x.view := rfl
@[simp] theorem get_job : (x.get i).job = x.job := rfl
@[simp] theorem get_freeing : (x.get i).freeing = x.freeing := rfl
@[simp] theorem get_dropping : (x.get i).dropping = x.dropping := rfl
@[simp] theorem put_view : (x.put i).view = x.view := rfl
@[simp] theorem put_job : (x.put i).job = x.job := rfl
@[simp] theorem see_held : (x.see i n).held = x.held := rfl
@[simp] theorem see_job : (x.see i n).job = x.job := rfl
@[simp] theorem see_freeing : (x.see i n).freeing = x.freeing := rfl
@[simp] theorem see_dropping : (x.see i n).dropping = x.dropping := rfl
@[simp] theorem unsee_held : (x.unsee i).held = x.held := rfl
@[simp] theorem unsee_job : (x.unsee i).job = x.job := rfl

@[simp] theorem see_self : (x.see i n).view i = some n := update_self ..

theorem see_of_ne (h : j ≠ i) : (x.see i n).view j = x.view j :=
  update_of_ne h ..

@[simp] theorem get_self : (x.get i).held i = x.held i + 1 := update_self ..

theorem get_pos : 0 < (x.get i).held i := by simp

theorem get_of_ne (h : j ≠ i) : (x.get i).held j = x.held j := update_of_ne h ..

theorem held_le_get : x.held j ≤ (x.get i).held j := by
  by_cases h : j = i
  · subst h; simp
  · exact Nat.le_of_eq (get_of_ne h).symm

theorem get_put : (x.get i).put i = x := by
  simp [get, put]

theorem get_comm : (x.get i).get j = (x.get j).get i := by
  by_cases h : i = j
  · rw [h]
  · simp only [get, update_of_ne h, update_of_ne (Ne.symm h)]
    rw [update_comm h]

theorem see_unsee (h : x.view i = none) : (x.see i n).unsee i = x := by
  rw [see, unsee]
  rw [update_idem, ← h, update_eq_self]

theorem see_see {m : Node} : (x.see i n).see i m = x.see i m := by
  rw [see, see, see]
  rw [update_idem]

theorem settle_of_ne (h : x.job.dying ≠ some i) : x.settle i = x := by rw [settle, if_neg h]

theorem Calm.get (h : x.Calm) (i : Nat) : (x.get i).Calm := ⟨h.view, h.freeing, h.dropping, h.job⟩

theorem Calm.fresh (h : x.Calm) : x.job.fresh = none := by
  rcases h.job with h | ⟨i, h⟩ <;> rw [h] <;> rfl

theorem Calm.dying (h : x.Calm) : x.job.dying = none := by
  rcases h.job with h | ⟨i, h⟩ <;> rw [h] <;> rfl

theorem Calm.pins (h : x.Calm) : x.job.pins = [] := by
  rcases h.job with h | ⟨i, h⟩ <;> rw [h] <;> rfl

theorem calm_idle : idle.Calm := ⟨fun _ => rfl, rfl, rfl, .inl rfl⟩

end Ctx

/-! ## The rules -/

/-- Which entries may be written, and what that finishes: the first two of a new directory, the
entry of a new inode, and the one `sys_link` has counted. -/
inductive Writes (x : Ctx) (d : Nat) (n : Node) (name : Name) (i : Nat) : Job → Prop
  | dot (up : Option Nat) (hj : x.job = .made d up) (he : n.ents = []) (hn : name = dot)
      (hi : i = d) : Writes x d n name i x.job
  | dotdot (hj : x.job = .made d (some i)) (he : n.ents = [⟨d, dot⟩]) (hn : name = dotdot) :
      Writes x d n name i x.job
  | made (m : Node) (up : Option Nat) (hj : x.job = .made i up) (hd : d ≠ i) (hk : n.kind = .dir)
      (hl : lookup n.ents name = none) (hm : x.view i = some m)
      (hdir : m.kind = .dir ∧ up = some d ∧ m.ents = [⟨i, Dir.dot⟩, ⟨d, Dir.dotdot⟩] ∨
        m.kind ≠ .dir ∧ up = none) : Writes x d n name i .none
  | link (hj : x.job = .link i) (hh : 0 < x.held i) (hk : n.kind = .dir)
      (hl : lookup n.ents name = none) : Writes x d n name i .none

/-- What `nlink++` begins. -/
inductive Counts (x : Ctx) (i : Nat) (n : Node) : Job → Prop
  | link (hj : x.job = .none) (hk : n.kind ≠ .dir) : Counts x i n (.link i)
  | made (j : Nat) (m : Node) (hj : x.job = .made j none) (hij : i ≠ j) (hk : n.kind = .dir)
      (hm : x.view j = some m) (hd : m.kind = .dir) : Counts x i n (.made j (some i))

/-- What `nlink--` finishes. -/
inductive Uncounts (x : Ctx) (i : Nat) : Job → Prop
  | link (hj : x.job = .link i) : Uncounts x i .none
  | up (j : Nat) (b : Bool) (hj : x.job = .erased j (some i) b) : Uncounts x i (.erased j none b)
  | erased (b : Bool) (hj : x.job = .erased i none b) : Uncounts x i (if b then .gone i else .none)

/-- Which commands are allowed, and what the context is afterwards. -/
def spec : (c : Cmd) → Ctx → (Ans c → Ctx → Prop) → Prop
  | .iget i, x, Q => (i = rootIno ∨ ∃ k, x.job = .alloc i k) ∧ Q () (x.get i)
  | .idupCwd, x, Q => ∀ i, Q i (x.get i)
  | .ilock i, x, Q => 0 < x.held i ∧ (x.view i = none → ∀ n : Node, n.kind ≠ .free →
    (∀ k, x.job = .alloc i k → n = ⟨k, 0, []⟩) → Q () (x.see i n))
  | .kind i, x, Q => ∃ n, x.view i = some n ∧ Q n.kind x
  | .iunlock i, x, Q => x.view i ≠ none ∧ i ∉ x.job.pins ∧ Q () (x.unsee i)
  | .iputTest i, x, Q => 0 < x.held i ∧ (x.view i ≠ none → 1 < x.held i) ∧
    x.job.fresh ≠ some i ∧ i ∉ x.job.pins ∧ x.freeing = none ∧ x.dropping = none ∧
    Q false ((x.put i).settle i) ∧
    (x.view i = none → Q true { (x.put i).settle i with freeing := some i })
  | .ifree i, x, Q =>
    x.freeing = some i ∧ x.dropping = none ∧
      Q () { x with freeing := none, dropping := some i }
  | .iputDrop i, x, Q => x.dropping = some i ∧ Q () { x with dropping := none }
  | .dirlookup d name, x, Q => ∃ n, 0 < x.held d ∧ x.view d = some n ∧ x.job.dying ≠ some d ∧
    x.freeing = none ∧ (n.kind = .dir →
      match lookup n.ents name with
      | none => Q none x
      | some r => x.job.fresh ≠ some d ∧ Q (some r) (x.get r.1))
  | .dirwrite d name i, x, Q => ∃ n j, 0 < x.held d ∧ x.view d = some n ∧
    x.job.dying = none ∧ x.freeing = none ∧ Writes x d n name i j ∧
    Q () { x.see d { n with ents := insert n.ents ⟨i, name⟩ } with job := j }
  | .direrase d off i, x, Q => ∃ n m name, 0 < x.held d ∧ 0 < x.held i ∧ x.view d = some n ∧
    n.kind = .dir ∧ n.ents[off]? = some ⟨i, name⟩ ∧ i ≠ 0 ∧ name ≠ dot ∧ name ≠ dotdot ∧
    x.view i = some m ∧ (m.kind = .dir → isEmpty m.ents = true) ∧ x.job = .none ∧
    x.freeing = none ∧ d ≠ i ∧
    Q () { x.see d { n with ents := n.ents.set off ⟨0, []⟩ } with
      job := .erased i (if m.kind = .dir then some d else none) (decide (m.kind = .dir)) }
  | .isdirempty d, x, Q => ∃ n, x.view d = some n ∧ Q (isEmpty n.ents) x
  | .nlinkBad i, x, Q => ∃ n, x.view i = some n ∧ ∀ b, Q b x
  | .nlinkInit i, x, Q => ∃ n k, x.view i = some n ∧ x.job = .alloc i k ∧ 0 < x.held i ∧
    Q () { x.see i { n with nlink := 1 } with job := .made i none }
  | .nlinkInc i, x, Q => ∃ n j, x.view i = some n ∧ 0 < x.held i ∧ Counts x i n j ∧
    ∀ v, Q () { x.see i { n with nlink := v } with job := j }
  | .nlinkDec i, x, Q => ∃ n j, x.view i = some n ∧ 0 < x.held i ∧ Uncounts x i j ∧
    ∀ v, Q () { x.see i { n with nlink := v } with job := j }
  | .ialloc k, x, Q => x.job = .none ∧ k ≠ .free ∧ ∀ i, i ≠ 0 → Q i { x with job := .alloc i k }
  | .takeCwd, x, Q => ∀ i, Q i (x.get i)
  | .setCwd i, x, Q => 0 < x.held i ∧ x.view i = none ∧ x.job = .none ∧
    ∀ j, Q j ((x.put i).get j)
  | .openFile i, x, Q => 0 < x.held i ∧ x.view i ≠ none ∧ x.job = .none ∧ Q false x ∧
    Q true ((x.unsee i).put i)
  | .takeFile _, x, Q => Q none x ∧ ∀ i, Q (some i) (x.get i)
  | .panic m, _, _ => m ≠ .ilockNoType

theorem monotone_spec : Monotone spec := by
  intro c x Q Q' h
  cases c with
  | dirlookup d name =>
    simp only [spec]
    gcongr
    split
    · exact h _ _
    · exact And.imp id (h _ _)
  | _ =>
    simp only [spec]
    gcongr
    all_goals exact h _ _

/-! ## The code keeps to them -/

section Rules

variable {α β : Type} {x : Ctx} {Q : α → Ctx → Prop} {i : Nat}

theorem wp_seq {c : K β} {f : β → K α} {R : β → Ctx → Prop} (hc : wp spec c x R)
    (hf : ∀ b y, R b y → wp spec (f b) y Q) : wp spec (c >>= f) x Q :=
  wp_bind monotone_spec (wp_mono monotone_spec hf hc)

theorem wp_call {c : Cmd} {k : Ans c → K α} (h : spec c x fun r y => wp spec (k r) y Q) :
    wp spec (Code.call c >>= k) x Q := h

theorem wp_iput (hh : 0 < x.held i) (hv : x.view i ≠ none → 1 < x.held i)
    (hf : x.job.fresh ≠ some i) (hp : i ∉ x.job.pins)
    (h1 : x.freeing = none) (h2 : x.dropping = none) :
    wp spec (iput i) x fun _ y => y = (x.put i).settle i := by
  refine ⟨hh, hv, hf, hp, h1, h2, rfl, fun _ => ⟨rfl, h2, rfl, ?_⟩⟩
  obtain ⟨held, view, job, freeing, dropping⟩ := x
  subst h1 h2
  rfl

theorem wp_iunlockput (hv : x.view i ≠ none) (hh : 0 < x.held i) (hf : x.job.fresh ≠ some i)
    (hp : i ∉ x.job.pins) (h1 : x.freeing = none) (h2 : x.dropping = none) :
    wp spec (iunlockput i) x fun _ y => y = ((x.unsee i).put i).settle i :=
  ⟨hv, hp, wp_iput hh (fun h => absurd (update_self ..) h) hf hp h1 h2⟩

theorem wp_iput_calm (h : x.Calm) : wp spec (iput i) (x.get i) fun _ y => y = x := by
  have hp : i ∉ (x.get i).job.pins := by simp [h.pins]
  refine wp_mono monotone_spec ?_ (wp_iput Ctx.get_pos (fun hv => absurd (h.view i) hv)
    (by simp [h.fresh]) hp h.freeing h.dropping)
  rintro _ _ rfl
  rw [Ctx.get_put, Ctx.settle_of_ne (by simp [h.dying])]

/-- Lock an inode that is not new.  If the call itself has it locked, it waits forever. -/
theorem wp_ilock {k : Unit → K α} (hh : 0 < x.held i)
    (hk : x.view i = none → ∀ n : Node, n.kind ≠ .free → wp spec (k ()) (x.see i n) Q) :
    wp spec (ilock i >>= k) x Q := ⟨hh, fun hv n hn _ => hk hv n hn⟩

theorem wp_dirlookup {k : Option (Nat × Nat) → K α} (hh : 0 < x.held i) (hv : x.view i = some n)
    (hd : x.job.dying ≠ some i) (hf : x.freeing = none)
    (hnone : n.kind = .dir → lookup n.ents name = none → wp spec (k none) x Q)
    (hsome : n.kind = .dir → ∀ j off, lookup n.ents name = some (j, off) →
      x.job.fresh ≠ some i ∧ wp spec (k (some (j, off))) (x.get j) Q) :
    wp spec (dirlookup i name >>= k) x Q := by
  refine ⟨n, hh, hv, hd, hf, fun hk => ?_⟩
  cases hl : lookup n.ents name with
  | none => exact hnone hk hl
  | some r => exact hsome hk r.1 r.2 hl

theorem wp_iunlockput_calm (h : x.Calm) :
    wp spec (iunlockput i) ((x.get i).see i n) fun _ y => y = x := by
  refine wp_call ⟨by simp, by simp [h.pins], ?_⟩
  rw [Ctx.see_unsee ((h.get i).view i)]
  exact wp_iput_calm h

/-- The same when another reference has been taken meanwhile. -/
theorem wp_iunlockput_get {j : Nat} (h : x.Calm) :
    wp spec (iunlockput i) (((x.get i).see i n).get j) fun _ y => y = x.get j := by
  have hx : ((x.get i).see i n).get j = ((x.get j).get i).see i n := by
    rw [Ctx.get_comm]
    rfl
  rw [hx]
  exact wp_iunlockput_calm (h.get j)

/-- Code that ends with giving back what it has and an answer. -/
theorem wp_then_ret {c : K Unit} {y : Ctx} {a : α} (hc : wp spec c x fun _ z => z = y)
    (hQ : Q a y) : wp spec (do c; pure a) x Q :=
  wp_seq hc (by rintro _ _ rfl; exact hQ)

/-- What the loop of `namex` leaves: a reference to the inode it has found, nothing locked. -/
theorem wp_namexFrom (np : Bool) (es : List Name) :
    ∀ {x : Ctx} {ip : Nat}, x.Calm → wp spec (namexFrom np ip es) (x.get ip) fun r y =>
      y = match r with
        | none => x
        | some (j, _) => x.get j := by
  induction es with
  | nil =>
    intro x ip h
    rw [namexFrom]
    split
    · exact wp_then_ret (wp_iput_calm h) rfl
    · rfl
  | cons name rest ih =>
    intro x ip h
    rw [namexFrom]
    refine wp_ilock Ctx.get_pos fun _ n _ => wp_call ⟨n, Ctx.see_self, ?_⟩
    beta_reduce
    by_cases hk : n.kind = .dir
    · rw [if_neg (not_not_intro hk)]
      split
      · refine wp_call ⟨by simp, by simp [h.pins], ?_⟩
        rw [Ctx.see_unsee ((h.get ip).view ip)]
        rfl
      · refine wp_dirlookup (by simp) Ctx.see_self (by simp [h.dying]) h.freeing ?_ ?_
        · intro _ _
          exact wp_then_ret (wp_iunlockput_calm h) rfl
        · intro _ next off _
          refine ⟨by simp [h.fresh], wp_seq (wp_iunlockput_get h) ?_⟩
          rintro _ _ rfl
          exact ih h
    · rw [if_pos hk]
      exact wp_then_ret (wp_iunlockput_calm h) rfl

theorem wp_namex (h : x.Calm) (np : Bool) (path : List Char) : wp spec (namex np path) x fun r y =>
      y = match r with
        | none => x
        | some (j, _) => x.get j := by
  rw [namex]
  split
  · exact ⟨.inl rfl, wp_namexFrom np _ h⟩
  · exact fun i => wp_namexFrom np _ h

theorem wp_namei (h : x.Calm) (path : List Char) : wp spec (namei path) x fun r y =>
      y = match r with
        | none => x
        | some j => x.get j := by
  rw [namei]
  refine wp_seq (wp_namex h false path) ?_
  rintro (_ | ⟨j, name⟩) _ rfl <;> rfl

end Rules

/-! ### Two locked inodes

`create` and `sys_unlink` have a directory and an inode in it locked. -/

namespace Ctx

/-- One inode locked. -/
def one (i : Nat) (m : Node) (j : Job) : Ctx := { (idle.get i).see i m with job := j }

/-- A directory and another inode locked. -/
def pair (d i : Nat) (n m : Node) (j : Job) : Ctx :=
  { ((idle.get d).see d n |>.get i).see i m with job := j }

variable {d i : Nat} {n m : Node} {j j' : Job}

@[simp] theorem one_job : (one i m j).job = j := rfl
@[simp] theorem one_freeing : (one i m j).freeing = none := rfl
@[simp] theorem one_dropping : (one i m j).dropping = none := rfl
@[simp] theorem one_view : (one i m j).view i = some m := update_self ..
@[simp] theorem one_held : 0 < (one i m j).held i := by simp [one]

@[simp] theorem pair_job : (pair d i n m j).job = j := rfl
@[simp] theorem pair_freeing : (pair d i n m j).freeing = none := rfl
@[simp] theorem pair_dropping : (pair d i n m j).dropping = none := rfl
@[simp] theorem pair_view_right : (pair d i n m j).view i = some m := update_self ..
@[simp] theorem pair_held_right : 0 < (pair d i n m j).held i := by simp [pair]

@[simp] theorem pair_held_left : 0 < (pair d i n m j).held d :=
  Nat.lt_of_lt_of_le get_pos (held_le_get (x := (idle.get d).see d n))

theorem pair_view_left (h : d ≠ i) : (pair d i n m j).view d = some n := by
  rw [show (pair d i n m j).view d = (((idle.get d).see d n).get i).view d from see_of_ne h]
  simp

theorem pair_see_right {m' : Node} :
    { (pair d i n m j).see i m' with job := j' } = pair d i n m' j' := by
  simp [pair, see]

theorem pair_see_left {n' : Node} (h : d ≠ i) :
    { (pair d i n m j).see d n' with job := j' } = pair d i n' m j' := by
  simp [pair, see, get, update_comm h]

theorem pair_put_left (h : d ≠ i) : ((pair d i n m j).unsee d).put d = one i m j := by
  simp only [pair, one, see, unsee, put, get, idle, Ctx.mk.injEq, and_true]
  constructor <;> funext k <;> grind [update_apply]

theorem pair_put_right (h : d ≠ i) : ((pair d i n m j).unsee i).put i = one d n j := by
  simp only [pair, one, see, unsee, put, get, idle, Ctx.mk.injEq, and_true]
  constructor <;> funext k <;> grind [update_apply]

theorem one_put : ((one i m j).unsee i).put i = { idle with job := j } := by
  simp [one, see, unsee, put, get, idle]

end Ctx

section Pairs

open Ctx

variable {d i off : Nat} {n m : Node} {j : Job} {Q : Unit → Ctx → Prop}

theorem wp_iunlockput_left (h : d ≠ i) (hf : j.fresh ≠ some d) (hp : d ∉ j.pins)
    (hd : j.dying ≠ some d) :
    wp spec (iunlockput d) (pair d i n m j) fun _ y => y = one i m j := by
  refine wp_mono monotone_spec ?_
    (wp_iunlockput (by simp [pair_view_left h]) (by simp) hf hp rfl rfl)
  rintro _ _ rfl
  rw [pair_put_left h, settle_of_ne hd]

theorem wp_iunlockput_right (h : d ≠ i) (hf : j.fresh ≠ some i) (hp : i ∉ j.pins)
    (hd : j.dying ≠ some i) :
    wp spec (iunlockput i) (pair d i n m j) fun _ y => y = one d n j := by
  refine wp_mono monotone_spec ?_ (wp_iunlockput (by simp) (by simp) hf hp rfl rfl)
  rintro _ _ rfl
  rw [pair_put_right h, settle_of_ne hd]

theorem wp_iunlockput_last (hj : j = .none ∨ j = .gone i) :
    wp spec (iunlockput i) (one i m j) fun _ y => y = idle := by
  have hf : j.fresh ≠ some i := by rcases hj with rfl | rfl <;> nofun
  have hp : i ∉ j.pins := by rcases hj with rfl | rfl <;> nofun
  refine wp_mono monotone_spec ?_ (wp_iunlockput (by simp) (by simp) hf hp rfl rfl)
  rintro _ _ rfl
  rw [one_put]
  rcases hj with rfl | rfl <;> simp [settle, Job.dying, idle]

/-! ### System calls -/

theorem wp_dirlink_new {x : Ctx} {j : Job} (hh : 0 < x.held d) (hv : x.view d = some n)
    (hl : lookup n.ents name = none) (hd : x.job.dying = none) (hf : x.freeing = none)
    (hw : Writes x d n name i j) :
    wp spec (dirlink d name i) x fun b y =>
      b = true ∧ y = { x.see d { n with ents := insert n.ents ⟨i, name⟩ } with job := j } := by
  refine wp_dirlookup hh hv (by simp [hd]) hf (fun _ _ => ?_) fun _ j off hl' => ?_
  · exact ⟨n, _, hh, hv, hd, hf, hw, rfl, rfl⟩
  · rw [hl] at hl'
    nomatch hl'

theorem orPanic_true {α : Type} {e : Panic} {k : Unit → K α} : (orPanic true e >>= k) = k () := rfl

theorem wp_createDots (h : d ≠ i) (h0 : i ≠ 0) (hn : n.kind = .dir) (hm : m = ⟨.dir, 1, []⟩) :
    wp spec (createDots d i) (pair d i n m (.made i none)) fun _ y => ∃ v,
      y = pair d i { n with nlink := v } { m with ents := [⟨i, dot⟩, ⟨d, dotdot⟩] }
        (.made i (some d)) := by
  subst hm
  refine wp_call ⟨n, .made i (some d), pair_view_left h, pair_held_left, ?_, fun v => ?_⟩
  · exact .made i _ rfl h hn pair_view_right rfl
  rw [pair_see_left h]
  have h1 : Writes (pair d i { n with nlink := v } ⟨.dir, 1, []⟩ (.made i (some d))) i
    ⟨.dir, 1, []⟩ dot i (.made i (some d)) := .dot (some d) rfl rfl rfl rfl
  refine wp_seq (wp_dirlink_new pair_held_right pair_view_right rfl rfl rfl h1) ?_
  rintro _ _ ⟨rfl, rfl⟩
  rw [pair_see_right, orPanic_true]
  have h2 : Writes (pair d i { n with nlink := v } ⟨.dir, 1, [⟨i, dot⟩]⟩ (.made i (some d))) i
    ⟨.dir, 1, [⟨i, dot⟩]⟩ dotdot d (.made i (some d)) := .dotdot rfl rfl rfl
  refine wp_seq (wp_dirlink_new pair_held_right pair_view_right ?_ rfl rfl h2) ?_
  · simp [lookup, lookupFrom, insert, dot, dotdot]
  · rintro _ _ ⟨rfl, rfl⟩
    rw [pair_see_right]
    exact ⟨v, by simp [insert, h0]⟩

/-- What `create` and its callers end with: the new or found inode, locked. -/
theorem wp_createNew (hn : n.kind = .dir) (hl : lookup n.ents name = none) (ht : t ≠ .free) :
    wp spec (createNew d name t) ((idle.get d).see d n) fun i y => ∃ m, y = one i m .none := by
  refine wp_call ⟨rfl, ht, fun i h0 => wp_call ⟨.inr ⟨t, rfl⟩, get_pos, fun hv m hm hj => ?_⟩⟩
  have h : d ≠ i := by
    rintro rfl
    simp at hv
  obtain rfl := hj t rfl
  refine wp_call ⟨⟨t, 0, []⟩, t, see_self, rfl, get_pos, ?_⟩
  have hx : ({ (({ (idle.get d).see d n with job := Job.alloc i t }.get i).see i ⟨t, 0, []⟩).see i
      ⟨t, 1, []⟩ with job := Job.made i none } : Ctx) = pair d i n ⟨t, 1, []⟩ (.made i none) := by
    rw [see_see]
    rfl
  beta_reduce
  rw [hx]
  -- the entry in the parent directory, which finishes the job
  have hend : ∀ (v : Nat) (m : Node) (up : Option Nat),
      m.kind = .dir ∧ up = some d ∧ m.ents = [⟨i, dot⟩, ⟨d, dotdot⟩] ∨ m.kind ≠ .dir ∧ up = none →
      wp spec (do
        let ok ← dirlink d name i
        orPanic ok .createDirlink
        iunlockput d
        pure i) (pair d i { n with nlink := v } m (.made i up)) fun i y =>
          ∃ m, y = one i m .none := by
    intro v m up hm
    have hw : Writes (pair d i { n with nlink := v } m (.made i up)) d { n with nlink := v } name i
        .none := .made m up rfl h hn hl pair_view_right hm
    refine wp_seq (wp_dirlink_new pair_held_left (pair_view_left h) hl rfl rfl hw) ?_
    rintro _ _ ⟨rfl, rfl⟩
    rw [pair_see_left h, orPanic_true]
    exact wp_then_ret (wp_iunlockput_left h nofun nofun nofun) ⟨m, rfl⟩
  split
  · rename_i ht
    subst ht
    refine wp_seq (wp_createDots h h0 hn rfl) ?_
    rintro _ _ ⟨v, rfl⟩
    exact hend v _ _ (.inl ⟨rfl, rfl, rfl⟩)
  · rename_i ht
    exact hend n.nlink _ _ (.inr ⟨ht, rfl⟩)

theorem wp_create (ht : t ≠ .free) : wp spec (create path t) idle fun r y => match r with
      | none => y = idle
      | some i => ∃ m, y = one i m .none := by
  refine wp_seq (wp_namex calm_idle true path) ?_
  rintro (_ | ⟨d, name⟩) _ rfl
  · rfl
  refine wp_ilock get_pos fun _ n _ => ?_
  refine wp_dirlookup (by simp) see_self nofun rfl ?_ ?_
  · intro hn hl
    exact wp_seq (wp_createNew hn hl ht) fun i y hy => hy
  · intro hn i off hl
    refine ⟨nofun, wp_seq (wp_iunlockput_get calm_idle) ?_⟩
    rintro _ _ rfl
    refine wp_ilock get_pos fun _ m _ => wp_call ⟨m, see_self, ?_⟩
    beta_reduce
    split
    · exact ⟨m, rfl⟩
    · exact wp_then_ret (wp_iunlockput_calm calm_idle) rfl

theorem wp_openLocked : wp spec (openLocked i) (one i m .none) fun _ y => y = idle := by
  exact wp_call ⟨one_held, by simp, rfl, wp_iunlockput_last (.inl rfl), one_put⟩

theorem wp_sysOpen {creat rdonly : Bool} :
    wp spec (sysOpen path creat rdonly) idle fun _ y => y = idle := by
  rw [sysOpen]
  split
  · refine wp_seq (wp_create nofun) ?_
    rintro (_ | i) y hy
    · exact hy
    · obtain ⟨m, rfl⟩ := hy
      exact wp_openLocked
  · refine wp_seq (wp_namei calm_idle path) ?_
    rintro (_ | i) _ rfl
    · rfl
    · refine wp_ilock get_pos fun _ m _ => wp_call ⟨m, see_self, ?_⟩
      beta_reduce
      split
      · exact wp_iunlockput_calm calm_idle
      · exact wp_openLocked

theorem wp_sysMake (ht : t ≠ .free) : wp spec (sysMake path t) idle fun _ y => y = idle := by
  refine wp_seq (wp_create ht) ?_
  rintro (_ | i) y hy
  · exact hy
  · obtain ⟨m, rfl⟩ := hy
    exact wp_iunlockput_last (.inl rfl)

/-- `sys_link` between its two locked sections. -/
def Ctx.linking (i : Nat) : Ctx := { idle.get i with job := .link i }

theorem Ctx.calm_linking : (linking i).Calm := ⟨fun _ => rfl, rfl, rfl, .inr ⟨i, rfl⟩⟩

theorem wp_linkBad : wp spec (linkBad i) (linking i) fun _ y => y = idle := by
  refine wp_ilock get_pos fun _ m _ => ?_
  refine wp_call ⟨m, .none, see_self, get_pos, .link rfl, fun v => ?_⟩
  have hx : ({ ((linking i).see i m).see i { m with nlink := v } with job := .none } : Ctx) =
      one i { m with nlink := v } .none := by
    rw [see_see]
    rfl
  beta_reduce
  rw [hx]
  exact wp_iunlockput_last (.inl rfl)

/-- `dirlink` in `sys_link`: the entry is there, or nothing has changed. -/
theorem wp_dirlink_link : wp spec (dirlink d name i) (((linking i).get d).see d n) fun b y =>
      if b then ∃ n', y = ((idle.get i).get d).see d n'
      else y = ((linking i).get d).see d n := by
  refine wp_dirlookup (by simp) see_self nofun rfl ?_ ?_
  · intro hn hl
    refine wp_call ⟨n, .none, by simp, see_self, rfl, rfl, .link rfl ?_ hn hl, ?_⟩
    · exact Nat.lt_of_lt_of_le (get_pos (x := idle)) (held_le_get (x := linking i))
    · exact ⟨{ n with ents := insert n.ents ⟨i, name⟩ }, by rw [see_see]; rfl⟩
  · intro hn j off hl
    refine ⟨nofun, wp_then_ret ?_ rfl⟩
    refine wp_mono monotone_spec ?_ (wp_iput get_pos (fun hv => ?_) nofun nofun rfl rfl)
    · rintro _ _ rfl
      rw [get_put]
      rfl
    · -- only the directory is locked, and there is another reference to it
      have hj : j = d := by
        by_contra h
        exact hv (see_of_ne h)
      subst hj
      simp

theorem wp_sysLink {old new : List Char} : wp spec (sysLink old new) idle fun _ y => y = idle := by
  refine wp_seq (wp_namei calm_idle old) ?_
  rintro (_ | i) _ rfl
  · rfl
  refine wp_ilock get_pos fun _ m _ => wp_call ⟨m, see_self, ?_⟩
  beta_reduce
  split
  · exact wp_iunlockput_calm calm_idle
  rename_i hk
  refine wp_call ⟨m, .link i, see_self, get_pos, .link rfl hk, fun v => ?_⟩
  refine wp_call ⟨by simp, nofun, ?_⟩
  have hx : (({ ((idle.get i).see i m).see i { m with nlink := v } with job := .link i } :
      Ctx).unsee i) = linking i := by
    rw [see_see]
    exact see_unsee (x := linking i) rfl
  rw [hx]
  refine wp_seq (wp_namex calm_linking true new) ?_
  rintro (_ | ⟨d, name⟩) _ rfl
  · exact wp_linkBad
  refine wp_ilock get_pos fun _ n _ => wp_seq wp_dirlink_link ?_
  rintro b y hy
  cases b with
  | false =>
    rw [if_neg nofun] at hy
    subst hy
    refine wp_seq (wp_iunlockput_calm calm_linking) ?_
    rintro _ _ rfl
    exact wp_linkBad
  | true =>
    rw [if_pos rfl] at hy
    obtain ⟨n', rfl⟩ := hy
    refine wp_seq (wp_iunlockput_calm (calm_idle.get i)) ?_
    rintro _ _ rfl
    exact wp_iput_calm calm_idle

theorem lookupFrom_some : ∀ {es : List Ent} {k i off : Nat}, lookupFrom name k es = some (i, off) →
      ∃ l, off = k + l ∧ es[l]? = some ⟨i, name⟩ ∧ i ≠ 0 := by
  intro es
  induction es with
  | nil => nofun
  | cons e es ih =>
    intro k i off h
    rw [lookupFrom] at h
    split at h
    · rename_i he
      obtain ⟨rfl, rfl⟩ : e.inum = i ∧ k = off := by simpa using h
      exact ⟨0, rfl, by simp [← he.2], he.1⟩
    · obtain ⟨l, rfl, hl, h0⟩ := ih h
      exact ⟨l + 1, by omega, by simpa using hl, h0⟩

theorem lookup_some {es : List Ent} {i : Nat} (h : lookup es name = some (i, off)) :
    es[off]? = some ⟨i, name⟩ ∧ i ≠ 0 := by
  obtain ⟨l, rfl, hl, h0⟩ := lookupFrom_some h
  exact ⟨by simpa using hl, h0⟩

theorem wp_unlinkErase (h : d ≠ i) (hn : n.kind = .dir) (he : n.ents[off]? = some ⟨i, name⟩)
    (h0 : i ≠ 0) (h1 : name ≠ dot) (h2 : name ≠ dotdot) (hm : m.kind = .dir → isEmpty m.ents = true)
    :
    wp spec (unlinkErase d off i m.kind) (pair d i n m .none) fun _ y => y = idle := by
  refine wp_call ⟨n, m, name, pair_held_left, pair_held_right, pair_view_left h, hn, he, h0, h1, h2,
    pair_view_right, hm, rfl, rfl, h, ?_⟩
  rw [pair_see_left h]
  -- the rest, when the link count of the parent is right
  have hend : ∀ (n : Node) (b : Bool), wp spec (do
      iunlockput d
      nlinkDec i
      iunlockput i) (pair d i n m (.erased i none b)) fun _ y => y = idle := by
    intro n b
    refine wp_seq (wp_iunlockput_left h nofun (by simpa [Job.pins] using h) ?_) ?_
    · cases b
      · nofun
      · simpa [Job.dying] using Ne.symm h
    · rintro _ _ rfl
      refine wp_call ⟨m, _, one_view, one_held, .erased b rfl, fun v => ?_⟩
      have hx : ({ (one i m (.erased i none b)).see i { m with nlink := v } with
          job := if b then .gone i else .none } : Ctx) =
            one i { m with nlink := v } (if b then .gone i else .none) := by
        simp [one, see]
      rw [hx]
      refine wp_iunlockput_last ?_
      cases b
      · exact .inl rfl
      · exact .inr rfl
  by_cases hk : m.kind = .dir
  · simp only [hk, if_true, decide_true]
    refine wp_call ⟨_, .erased i none true, pair_view_left h, pair_held_left, .up i true rfl,
      fun v => ?_⟩
    rw [pair_see_left h]
    exact hend _ _
  · simp only [hk, if_false, decide_false]
    exact hend _ _

theorem wp_sysUnlink : wp spec (sysUnlink path) idle fun _ y => y = idle := by
  refine wp_seq (wp_namex calm_idle true path) ?_
  rintro (_ | ⟨d, name⟩) _ rfl
  · rfl
  refine wp_ilock get_pos fun _ n _ => ?_
  split
  · exact wp_iunlockput_calm calm_idle
  rename_i hname
  rw [not_or] at hname
  refine wp_dirlookup (by simp) see_self nofun rfl ?_ ?_
  · intro _ _
    exact wp_iunlockput_calm calm_idle
  intro hn i off hl
  refine ⟨nofun, wp_ilock get_pos fun hv m _ => ?_⟩
  have h : d ≠ i := by
    rintro rfl
    simp at hv
  refine wp_call ⟨m, pair_view_right, fun low => ?_⟩
  cases low with
  | true => exact nofun
  | false =>
    obtain ⟨he, h0⟩ := lookup_some hl
    refine wp_call ⟨m, pair_view_right, ?_⟩
    beta_reduce
    by_cases hk : m.kind = .dir
    · rw [if_pos hk]
      refine wp_call ⟨m, pair_view_right, ?_⟩
      cases hm : isEmpty m.ents with
      | false =>
        refine wp_seq (wp_iunlockput_right h nofun nofun nofun) ?_
        rintro _ _ rfl
        exact wp_iunlockput_last (.inl rfl)
      | true => exact wp_unlinkErase h hn he h0 hname.1 hname.2 fun _ => hm
    · rw [if_neg hk]
      exact wp_unlinkErase h hn he h0 hname.1 hname.2 fun h => absurd h hk

theorem wp_sysChdir : wp spec (sysChdir path) idle fun _ y => y = idle := by
  refine wp_seq (wp_namei calm_idle path) ?_
  rintro (_ | i) _ rfl
  · rfl
  refine wp_ilock get_pos fun _ m _ => wp_call ⟨m, see_self, ?_⟩
  beta_reduce
  split
  · exact wp_iunlockput_calm calm_idle
  refine wp_call ⟨by simp, nofun, wp_call ?_⟩
  rw [see_unsee rfl]
  refine ⟨get_pos, rfl, rfl, fun cwd => ?_⟩
  rw [get_put]
  exact wp_iput_calm calm_idle

/-- The code of a system call does only what is allowed, and leaves nothing behind. -/
theorem Syscall.disciplined (c : Syscall) : wp spec c.code idle fun _ y => y = idle := by
  cases c with
  | «open» path creat rdonly => exact wp_sysOpen
  | mkdir path | mknod path => exact wp_sysMake nofun
  | link old new => exact wp_sysLink
  | unlink path => exact wp_sysUnlink
  | chdir path => exact wp_sysChdir
  | close k => exact ⟨rfl, fun i => wp_iput_calm calm_idle⟩
  | exit => exact fun i => wp_iput_calm calm_idle

end Pairs

end Xv6.Dir
