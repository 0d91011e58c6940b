import Mathlib.Data.Set.BooleanAlgebra
import Mathlib.Order.CompletePartialOrder
import Xv6.Sh.Run

/-!
# Plumbing

Which files the parts of a command are run with (`Cmd.locate`, read off from the tree alone), and
that the processes agree with it: a program starts with exactly the three descriptors its place in
the command denotes, and the ends of a pipe are held where they belong.

Processes are followed one at a time, through `Ctx`: the part of the command they are in, their
descriptors, and the set of *events* that they and their children still cause.  A fork divides that
set, and it is empty when a process exits.  So an event that has happened is ahead of nobody, one
that is ahead of nobody has happened, and a process that is still between `pipe` and one of the
calls of `runcmd` for the two sides is recognised by the event it has ahead.
-/

open Lts

namespace Xv6.Sh

open List Option Function

variable {W : Type} {d : Dir} {node : Path} {t : Cmd W}

/-! ## What a command denotes -/

/-- What a descriptor stands for: one of the descriptors of the whole command, the file of a
redirection, or an end of a pipe, with the place of the redirection or pipe. -/
inductive Source (W : Type) where
  | given (fd : Nat)
  | redir (node : Path) (file : W) (mode : Mode)
  | readEnd (node : Path)
  | writeEnd (node : Path)
  | other

/-- What each descriptor stands for. -/
abbrev Env (W : Type) := Nat → Source W

/-- A part of the command at `node`, and its descriptors: a redirection replaces one of them for its
body, a pipe one for each side. -/
def Cmd.child (node : Path) : Cmd W × Env W → Dir → Option (Cmd W × Env W)
  | (.redir c file mode, env), .inner => some (c, update env mode.fd (.redir node file mode))
  | (.pipe l _, env), .left => some (l, update env 1 (.writeEnd node))
  | (.pipe _ r, env), .right => some (r, update env 0 (.readEnd node))
  | (.list l _, env), .left => some (l, env)
  | (.list _ r, env), .right => some (r, env)
  | (.back c, env), .inner => some (c, env)
  | _, _ => none

/-- The part at the end of a path that leads on from `node`. -/
def Cmd.walk (node : Path) (x : Cmd W × Env W) : Path → Option (Cmd W × Env W)
  | [] => some x
  | d :: ds => (Cmd.child node x d).bind fun y => Cmd.walk (node ++ [d]) y ds

/-- The part of the whole command at a place, and what the descriptors stand for there. -/
def Cmd.locate (c : Cmd W) (node : Path) : Option (Cmd W × Env W) := Cmd.walk [] (c, .given) node

theorem Cmd.walk_append (node : Path) (x : Cmd W × Env W) (ds : Path) (d : Dir) :
    Cmd.walk node x (ds ++ [d]) = (Cmd.walk node x ds).bind fun y =>
      Cmd.child (node ++ ds) y d := by
  induction ds generalizing node x with
  | nil =>
    rw [nil_append, append_nil, walk, walk, bind_some]
    cases Cmd.child node x d <;> rfl
  | cons e es ih =>
    rw [cons_append, walk, walk]
    cases hc : Cmd.child node x e with
    | none => rfl
    | some y =>
      rw [bind_some, bind_some, ih, append_assoc]
      rfl

theorem Cmd.locate_child {x y : Cmd W × Env W} (h : t.locate node = some x)
    (hd : Cmd.child node x d = some y) : t.locate (node ++ [d]) = some y := by
  rw [locate, walk_append]
  rw [locate] at h
  rw [h, bind_some, nil_append, hd]

/-- What a file stands for. -/
def File.source : File W → Source W
  | .given fd => .given fd
  | .opened _ node file mode => .redir node file mode
  | .readEnd _ node => .readEnd node
  | .writeEnd _ node => .writeEnd node
  | .other _ => .other

/-! ## Descriptors -/

/-- The part of the command in which an end of a pipe belongs. -/
def File.home : File W → Option Path
  | .readEnd _ node => some (node ++ [.right])
  | .writeEnd _ node => some (node ++ [.left])
  | _ => none

/-- Ends of pipes are where they belong. -/
def File.Within (node : Path) (f : File W) : Prop := ∀ h, f.home = some h → h <+: node

theorem File.Within.child {f : File W} (h : f.Within node) (d : Dir) :
    f.Within (node ++ [d]) := fun p hp => (h p hp).trans (prefix_append ..)

/-- All files in a table. -/
def Fds.All (P : File W → Prop) (fds : Fds W) : Prop := ∀ f, some f ∈ fds → P f

namespace Fds.All

variable {P Q : File W → Prop} {fds : Fds W} {f : File W}

theorem mono (h : All P fds) (hPQ : ∀ f, P f → Q f) : All Q fds := fun f hf => hPQ f (h f hf)

theorem std {f0 f1 f2 : File W} (h0 : P f0) (h1 : P f1) (h2 : P f2) : All P (std f0 f1 f2) := by
  intro f hf
  simp only [Sh.std, nofile, cons_append, nil_append, mem_cons, some.injEq,
    mem_replicate, reduceCtorEq, and_false, or_false] at hf
  obtain rfl | rfl | rfl := hf
  · exact h0
  · exact h1
  · exact h2

theorem set_none (h : All P fds) (fd : Nat) : All P (fds.set fd none) := fun f hf =>
  (mem_or_eq_of_mem_set hf).elim (h f) nofun

theorem fdalloc (h : All P fds) (hf : P f) {fd : Nat} {fds' : Fds W}
    (he : Sh.fdalloc f fds = some (fd, fds')) : All P fds' := by
  obtain ⟨_, -, he⟩ := map_eq_some_iff.mp he
  obtain ⟨-, rfl⟩ := Prod.mk.inj he
  exact fun g hg => (mem_or_eq_of_mem_set hg).elim (h g) fun hg => some.inj hg ▸ hf

theorem opens (h : All P fds) (hf : P f) : All P (Sh.opens f fds).2 := by
  rw [Sh.opens]
  split
  · exact h
  · rename_i he
    exact h.fdalloc hf he

theorem pipe {r w : File W} (h : All P fds) (hr : P r) (hw : P w) : All P (Sh.pipe r w fds).2 := by
  rw [Sh.pipe]
  split
  · exact h
  · rename_i he
    split
    · exact (h.fdalloc hr he).set_none _
    · rename_i he'
      exact (h.fdalloc hr he).fdalloc hw he'

theorem dup (h : All P fds) (fd : Nat) : All P (Sh.dup fd fds).2 := by
  rw [Sh.dup]
  split
  · rename_i f hf
    exact h.opens (h f (mem_of_getElem? hf))
  · exact h

theorem close (h : All P fds) (fd : Nat) : All P (Sh.close fd fds).2 := by
  rw [Sh.close]
  split
  · exact h.set_none fd
  · exact h

end Fds.All

/-! ## One process -/

/-- A process in the shell: the part of the command it is in, its descriptors, and the events that
it and its children still cause. -/
structure Ctx (W : Type) where
  node : Path
  fds : Fds W
  ahead : Set Event

/-- One of the three things that happen on the way from `pipe` to both sides of the pipe. -/
def Pending (node : Path) (ahead : Set Event) : Prop :=
  .enter (node ++ [.left]) ∈ ahead ∨ .enter (node ++ [.right]) ∈ ahead ∨ .waits node ∈ ahead

/-- Ends of pipes are where they belong, but for those of the pipe that is being made. -/
def Ctx.Tidy (x : Ctx W) : Prop :=
  x.fds.All fun f => f.Within x.node ∨ (∃ d, f.home = some (x.node ++ [d])) ∧ Pending x.node x.ahead

/-- Whoever is to call `exec` for a part has to enter it first. -/
def Unentered (ahead : Set Event) : Prop := ∀ node, .exec node ∈ ahead → .enter node ∈ ahead

/-- The process is not about to call `exec`. -/
def Ctx.Ok (x : Ctx W) : Prop := x.Tidy ∧ Unentered x.ahead

/-- What `exec` finds at the part at `node` of the command `t`. -/
def Denoted (t : Cmd W) (node : Path) (argv : List W) (fds : Fds W) : Prop :=
  ∃ env f0 f1 f2, t.locate node = some (.exec argv, env) ∧ fds = std f0 f1 f2 ∧
    f0.source = env 0 ∧ f1.source = env 1 ∧ f2.source = env 2

/-- What the calls of the shell do to a process, and what has to hold before them. -/
def spec (t : Cmd W) : (c : Call W) → Ctx W → (c.Ret → Ctx W → Prop) → Prop
  | .event e, x, Q =>
    x.Ok ∧ e ∈ x.ahead ∧ Q () { x with node := e.place x.node, ahead := x.ahead \ {e} }
  | .close fd, x, Q => x.Ok ∧ Q (close fd x.fds).1 { x with fds := (close fd x.fds).2 }
  | .opens file mode, x, Q => x.Ok ∧ ∀ n,
    Q (opens (.opened n x.node file mode) x.fds).1
      { x with fds := (opens (.opened n x.node file mode) x.fds).2 }
  | .pipe, x, Q => x.Ok ∧ ∀ n,
    Q (pipe (.readEnd n x.node) (.writeEnd n x.node) x.fds).1
      { x with fds := (pipe (.readEnd n x.node) (.writeEnd n x.node) x.fds).2 }
  | .dup fd, x, Q => x.Ok ∧ Q (dup fd x.fds).1 { x with fds := (dup fd x.fds).2 }
  | .fork, x, Q => x.Ok ∧ ∃ A ⊆ x.ahead, Q (0 : Int) { x with ahead := A } ∧
    ∀ pid : Nat, 0 < pid → Q (pid : Int) { x with ahead := x.ahead \ A }
  | .wait, x, Q => x.Ok ∧ ∀ r, Q r x
  | .exec argv, x, _ =>
    x.fds.All (File.Within x.node) ∧ x.ahead = {.exec x.node} ∧ Denoted t x.node argv x.fds
  | .exit _, x, _ => x.Ok ∧ x.ahead = ∅
  | .fprintf _ _, x, Q => x.Ok ∧ Q () x

theorem Ctx.Tidy.of_within {x : Ctx W} (h : x.fds.All (File.Within x.node)) : x.Tidy :=
  h.mono fun _ => .inl

/-- The process is in order before each of its calls. -/
theorem tidy_of_spec {c : Call W} {x : Ctx W} {Q : c.Ret → Ctx W → Prop} (h : spec t c x Q) :
    x.Tidy := by
  cases c with
  | exec argv => exact .of_within h.1
  | _ => exact h.1.1

/-- Who has entered a part and is to call `exec` for it does so now. -/
theorem exec_of_spec {c : Call W} {x : Ctx W} {Q : c.Ret → Ctx W → Prop} (h : spec t c x Q)
    (he : .exec node ∈ x.ahead) (hn : .enter node ∉ x.ahead) :
    ∃ argv, c = .exec argv ∧ x.node = node ∧ Denoted t node argv x.fds := by
  cases c with
  | exec argv =>
    obtain ⟨-, hx, hd⟩ := h
    rw [hx] at he
    cases he
    exact ⟨argv, rfl, rfl, hd⟩
  | _ => exact absurd (h.1.2 node he) hn

/-- The events of the part `c` at `node`. -/
def events (node : Path) : Cmd W → Set Event
  | .exec argv => insert (.enter node) {e | e = .exec node ∧ argv ≠ []}
  | .redir c _ _ | .back c => insert (.enter node) (events (node ++ [.inner]) c)
  | .list l r => insert (.enter node) (events (node ++ [.left]) l ∪ events (node ++ [.right]) r)
  | .pipe l r => insert (.enter node)
    (events (node ++ [.left]) l ∪ (events (node ++ [.right]) r ∪ {.waits node}))

theorem enter_mem_events (node : Path) (c : Cmd W) : .enter node ∈ events node c := by
  cases c <;> exact Set.mem_insert ..

/-- The part that an event is about is at `node` or below, and is entered. -/
theorem of_mem_events {e : Event} (c : Cmd W) :
    ∀ {node : Path}, e ∈ events node c → node <+: e.node ∧ .enter e.node ∈ events node c := by
  induction c with
  | exec argv => rintro node (rfl | ⟨rfl, -⟩) <;> exact ⟨prefix_rfl, .inl rfl⟩
  | redir c _ _ ih | back c ih =>
    rintro node (rfl | h)
    · exact ⟨prefix_rfl, .inl rfl⟩
    · exact (ih h).imp (prefix_append ..).trans .inr
  | list l r ihl ihr =>
    rintro node (rfl | h | h)
    · exact ⟨prefix_rfl, .inl rfl⟩
    · exact (ihl h).imp (prefix_append ..).trans fun h => .inr (.inl h)
    · exact (ihr h).imp (prefix_append ..).trans fun h => .inr (.inr h)
  | pipe l r ihl ihr =>
    rintro node (rfl | h | h | rfl)
    · exact ⟨prefix_rfl, .inl rfl⟩
    · exact (ihl h).imp (prefix_append ..).trans fun h => .inr (.inl h)
    · exact (ihr h).imp (prefix_append ..).trans fun h => .inr (.inr (.inl h))
    · exact ⟨prefix_rfl, .inl rfl⟩

theorem unentered_events (node : Path) (c : Cmd W) : Unentered (events node c) := fun _ h =>
  (of_mem_events c h).2

theorem events_child {x y : Cmd W × Env W} (h : Cmd.child node x d = some y) :
    events (node ++ [d]) y.1 ⊆ events node x.1 := by
  obtain ⟨c, env⟩ := x
  intro e he
  cases c with
  | exec argv => cases d <;> nomatch h
  | redir c _ _ | back c =>
    cases d <;> cases h
    exact .inr he
  | list l r =>
    cases d with
    | inner => nomatch h
    | left => cases h; exact .inr (.inl he)
    | right => cases h; exact .inr (.inr he)
  | pipe l r =>
    cases d with
    | inner => nomatch h
    | left => cases h; exact .inr (.inl he)
    | right => cases h; exact .inr (.inr (.inl he))

/-- Every part of the command has its events. -/
theorem events_locate {x : Cmd W × Env W} (h : t.locate node = some x) :
    events node x.1 ⊆ events [] t := by
  induction node using reverseRecOn generalizing x with
  | nil =>
    cases h
    exact Set.Subset.rfl
  | append_singleton node d ih =>
    rw [Cmd.locate, Cmd.walk_append] at h
    obtain ⟨y, hy, hd⟩ := bind_eq_some_iff.mp h
    exact (events_child hd).trans (ih hy)

/-- The root of a part is not below its children. -/
theorem not_mem_events_child (node : Path) (d : Dir) (c : Cmd W) :
    .enter node ∉ events (node ++ [d]) c ∧ .waits node ∉ events (node ++ [d]) c := by
  have hlen : ¬ node ++ [d] <+: node := fun h => by
    have := h.length_le
    rw [length_append, length_singleton] at this
    omega
  exact ⟨fun h => hlen (of_mem_events c h).1, fun h => hlen (of_mem_events c h).1⟩

theorem disjoint_events {e : Dir} (hne : d ≠ e) (c c' : Cmd W) :
    Disjoint (events (node ++ [d]) c) (events (node ++ [e]) c') := by
  have hpath : ∀ n, node ++ [d] <+: n → ¬ node ++ [e] <+: n := by
    rintro n ⟨u, rfl⟩ ⟨v, hv⟩
    rw [append_assoc, append_assoc] at hv
    exact hne (List.cons.inj (append_cancel_left hv)).1.symm
  rw [Set.disjoint_left]
  exact fun _ h1 h2 => hpath _ (of_mem_events c h1).1 (of_mem_events c' h2).1

/-! ## The walk through `runcmd` -/

section Walk

variable {x : Ctx W} {α : Type} {Q : α → Ctx W → Prop} {ahead : Set Event} {fds : Fds W}

theorem wp_enter {c : Cmd W} {place : Path} {rest : Set Event} {f : Unit → Run W α}
    (ht : Ctx.Tidy ⟨place, fds, events node c⟩) (hc : events node c = insert (.enter node) rest)
    (hnot : .enter node ∉ rest) (h : Code.wp (spec t) (f ()) ⟨node, fds, rest⟩ Q) :
    Code.wp (spec t) (call (.event (.enter node)) >>= f) ⟨place, fds, events node c⟩ Q := by
  refine And.intro ⟨ht, unentered_events node c⟩ ⟨enter_mem_events node c, ?_⟩
  show Code.wp (spec t) (f ()) ⟨node, fds, events node c \ {.enter node}⟩ Q
  rwa [hc, Set.insert_sdiff_self_of_notMem hnot]

theorem wp_fork1 {child parent : Run W Empty} {Q : Empty → Ctx W → Prop} {A B : Set Event}
    (hok : x.Ok) (hx : x.ahead = A ∪ B) (hAB : Disjoint A B)
    (hchild : Code.wp (spec t) child { x with ahead := A } Q)
    (hparent : Code.wp (spec t) parent { x with ahead := B } Q) :
    Code.wp (spec t) (fork1 child parent) x Q := by
  refine And.intro hok ⟨A, hx ▸ Set.subset_union_left, hchild, fun pid hpid => ?_⟩
  show Code.wp (spec t) (if (pid : Int) = -1 then panic "fork" else if (pid : Int) = 0 then child
    else parent) { x with ahead := x.ahead \ A } Q
  rw [if_neg (by omega), if_neg (by omega), hx, Set.union_sdiff_cancel_left hAB.le_bot]
  exact hparent

/-- The part `c` is at `node`, and the files stand for what the tree denotes there. -/
structure Stands (t c : Cmd W) (node : Path) (env : Env W) (f0 f1 f2 : File W) : Prop where
  loc : t.locate node = some (c, env)
  s0 : f0.source = env 0
  s1 : f1.source = env 1
  s2 : f2.source = env 2
  w0 : f0.Within node
  w1 : f1.Within node
  w2 : f2.Within node

section

variable {c c' : Cmd W} {env : Env W} {f0 f1 f2 : File W} (h : Stands t c node env f0 f1 f2)

include h

theorem Stands.all : (std f0 f1 f2).All (File.Within node) := .std h.w0 h.w1 h.w2

theorem Stands.tidy : Ctx.Tidy ⟨node, std f0 f1 f2, ahead⟩ := .of_within h.all

theorem Stands.child (hd : Cmd.child node (c, env) d = some (c', env)) :
    Stands t c' (node ++ [d]) env f0 f1 f2 :=
  ⟨Cmd.locate_child h.loc hd, h.s0, h.s1, h.s2, h.w0.child d, h.w1.child d, h.w2.child d⟩

end

theorem Unentered.union {A B : Set Event} (hA : Unentered A) (hB : Unentered B) :
    Unentered (A ∪ B) := fun n h => h.imp (hA n) (hB n)

theorem unentered_empty : Unentered ∅ := nofun

/-- Between `pipe` and the two sides, the ends of the pipe are excused by an event that is still
ahead. -/
theorem ok_of_pending (hp : Pending node ahead) (hu : Unentered ahead)
    (h : fds.All fun f => f.Within node ∨ ∃ d, f.home = some (node ++ [d])) :
    Ctx.Ok ⟨node, fds, ahead⟩ := ⟨h.mono fun _ hf => hf.imp id (⟨·, hp⟩), hu⟩

theorem runcmd_spec (c : Cmd W) : ∀ {node place : Path} {env : Env W} {f0 f1 f2 : File W},
    Stands t c node env f0 f1 f2 → Ctx.Tidy ⟨place, std f0 f1 f2, events node c⟩ →
    Code.wp (spec t) (runcmd node c) ⟨place, std f0 f1 f2, events node c⟩ fun _ _ => False := by
  induction c with
  | exec argv =>
    intro node place env f0 f1 f2 h ht
    have hnot : .enter node ∉ {e | e = Event.exec node ∧ argv ≠ []} := fun h => nomatch h.1
    cases argv with
    | nil =>
      rw [runcmd]
      exact wp_enter ht rfl hnot (And.intro ⟨h.tidy, fun n h => absurd rfl h.2⟩
        (Set.eq_empty_of_forall_notMem fun e he => he.2 rfl))
    | cons w ws =>
      rw [runcmd]
      exact wp_enter ht rfl hnot (And.intro h.all ⟨Set.ext fun e => and_iff_left (cons_ne_nil w ws),
        env, f0, f1, f2, h.loc, rfl, h.s0, h.s1, h.s2⟩)
  | redir c file mode ih =>
    intro node place env f0 f1 f2 h ht
    have hun := unentered_events (node ++ [.inner]) c
    rw [runcmd]
    refine wp_enter ht rfl (not_mem_events_child ..).1 (And.intro ⟨h.tidy, hun⟩
      (And.intro ⟨.of_within (h.all.close _), hun⟩ fun n => ?_))
    have hfile : (File.opened n node file mode).Within node := nofun
    -- the lowest free descriptor is the one that has just been closed
    cases mode with
    | input =>
      exact ih ⟨Cmd.locate_child h.loc rfl, rfl, h.s1, h.s2, hfile.child _, h.w1.child _,
        h.w2.child _⟩ (.of_within (.std hfile h.w1 h.w2))
    | output | append =>
      exact ih ⟨Cmd.locate_child h.loc rfl, h.s0, rfl, h.s2, h.w0.child _, hfile.child _,
        h.w2.child _⟩ (.of_within (.std h.w0 hfile h.w2))
  | list l r ihl ihr =>
    intro node place env f0 f1 f2 h ht
    have hl := unentered_events (node ++ [.left]) l
    have hr := unentered_events (node ++ [.right]) r
    rw [runcmd]
    refine wp_enter ht rfl
      (not_or.mpr ⟨(not_mem_events_child ..).1, (not_mem_events_child ..).1⟩)
      (wp_fork1 ⟨h.tidy, hl.union hr⟩ rfl (disjoint_events (by decide) l r) ?_ ?_)
    · exact ihl (h.child rfl) h.tidy
    · exact And.intro ⟨h.tidy, hr⟩ fun _ => ihr (h.child rfl) h.tidy
  | pipe l r ihl ihr =>
    intro node place env f0 f1 f2 h ht
    have hnl := not_mem_events_child node .left l
    have hnr := not_mem_events_child node .right r
    have hl := unentered_events (node ++ [.left]) l
    have hr := unentered_events (node ++ [.right]) r
    have hw : Unentered {.waits node} := nofun
    rw [runcmd]
    refine wp_enter ht rfl (not_or.mpr ⟨hnl.1, not_or.mpr ⟨hnr.1, nofun⟩⟩)
      (And.intro ⟨h.tidy, hl.union (hr.union hw)⟩ fun n => ?_)
    have hends := (h.all.mono (Q := fun f => f.Within node ∨ ∃ d, f.home = some (node ++ [d]))
      fun _ => .inl).pipe (r := .readEnd n node) (w := .writeEnd n node) (.inr ⟨_, rfl⟩)
      (.inr ⟨_, rfl⟩)
    have hleft : ∀ {fds : Fds W}, fds.All _ → _ :=
      ok_of_pending (.inl (enter_mem_events (node ++ [.left]) l)) hl
    have hright : ∀ {fds : Fds W}, fds.All _ → _ :=
      ok_of_pending (.inr (.inl (enter_mem_events (node ++ [.right]) r))) hr
    have hwaits : ∀ {fds : Fds W}, fds.All _ → _ :=
      ok_of_pending (.inr (.inr (Set.mem_singleton _))) hw
    show Code.wp (spec t) (fork1 _ (fork1 _ _))
      ⟨node, (pipe (.readEnd n node) (.writeEnd n node) (std f0 f1 f2)).2, _⟩ _
    refine wp_fork1
      (ok_of_pending (.inr (.inr (.inr (.inr rfl)))) (hl.union (hr.union hw)) hends) rfl
      (Set.disjoint_union_right.mpr ⟨disjoint_events (by decide) l r,
        Set.disjoint_singleton_right.mpr hnl.2⟩) ?_
      (wp_fork1 (ok_of_pending (.inr (.inr (.inr rfl))) (hr.union hw) hends) rfl
        (Set.disjoint_singleton_right.mpr hnr.2) ?_ ?_)
    · have h1 := hends.close 1
      have h2 := h1.dup 4
      have h3 := h2.close 3
      refine And.intro (hleft hends) (And.intro (hleft h1) (And.intro (hleft h2)
        (And.intro (hleft h3) (ihl ⟨Cmd.locate_child h.loc rfl, h.s0, rfl, h.s2, h.w0.child _, ?_,
          h.w2.child _⟩ (hleft (h3.close 4)).1))))
      rintro _ ⟨⟩
      exact prefix_rfl
    · have h1 := hends.close 0
      have h2 := h1.dup 3
      have h3 := h2.close 3
      refine And.intro (hright hends) (And.intro (hright h1) (And.intro (hright h2)
        (And.intro (hright h3) (ihr ⟨Cmd.locate_child h.loc rfl, rfl, h.s1, h.s2, ?_, h.w1.child _,
          h.w2.child _⟩ (hright (h3.close 4)).1))))
      rintro _ ⟨⟩
      exact prefix_rfl
    · have h1 := hends.close 3
      have h2 := h1.close 4
      refine And.intro (hwaits hends) (And.intro (hwaits h1) (And.intro (hwaits h2) ⟨rfl, ?_⟩))
      have hok : ∀ {ahead : Set Event}, ahead = ∅ → Ctx.Ok ⟨node, std f0 f1 f2, ahead⟩ :=
        fun h0 => ⟨h.tidy, h0 ▸ unentered_empty⟩
      have hnone : {Event.waits node} \ {Event.waits node} = (∅ : Set Event) := Set.sdiff_self
      exact And.intro (hok hnone) fun _ => And.intro (hok hnone) fun _ =>
        And.intro (hok hnone) hnone
  | back c ih =>
    intro node place env f0 f1 f2 h ht
    rw [runcmd]
    refine wp_enter ht rfl (not_mem_events_child ..).1
      (wp_fork1 (B := ∅) ⟨h.tidy, unentered_events _ c⟩ (Set.union_empty _).symm
        (Set.disjoint_empty _) (ih (h.child rfl) h.tidy) ?_)
    exact And.intro ⟨h.tidy, unentered_empty⟩ rfl

end Walk

end Xv6.Sh
