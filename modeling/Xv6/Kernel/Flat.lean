import Xv6.Kernel.OneCpu
import Xv6.Kernel.Uniform

/-!
# Layers whose contexts survive a switch

In the layers after the first one a thread finds its context unchanged when it goes on after
`swtch`, and code ends in the context in which it began; so an interrupt does no harm either,
whatever the context is.  What such a layer has to show is `Flat`, and `Flat.inv` is the result.
That the machine is in a reachable state, and so everything that earlier layers have shown, may be
used in every step.
-/

namespace Xv6.Kernel

open Lts System Code

variable {n o : Nat} {C : Type} [DecidableEq C] {X : Type} {boot c : C} {cmd : Cmd n} {x : X}

/-! ## Layers -/

/-- Code that ends in the context in which it began. -/
def Keeps (spec : (cmd : Cmd n) → X → (Ans cmd → X → Prop) → Prop) {α : Type} (k : K n α) : Prop :=
  ∀ x, wp spec k x fun _ y => y = x

namespace Keeps

variable {spec : (cmd : Cmd n) → X → (Ans cmd → X → Prop) → Prop} (hm : Code.Monotone spec)
  {α β : Type} {f : α → K n β} {k : K n α}

include hm

theorem bind (hk : Keeps spec k) (hf : ∀ a, Keeps spec (f a)) : Keeps spec (k >>= f) := by
  refine fun x => wp_bind hm (wp_mono hm ?_ (hk x))
  rintro a _ rfl
  exact hf a _

theorem seq {Q : β → X → Prop} (hk : Keeps spec k) (hf : ∀ a, wp spec (f a) x Q) :
    wp spec (k >>= f) x Q := by
  refine wp_bind hm (wp_mono hm ?_ (hk x))
  rintro a _ rfl
  exact hf a

theorem post {Q : α → X → Prop} (hk : Keeps spec k) (hQ : ∀ a, Q a x) : wp spec k x Q := by
  refine wp_mono hm ?_ (hk x)
  rintro a _ rfl
  exact hQ a

end Keeps

section

variable {spec : (cmd : Cmd n) → X → (Ans cmd → X → Prop) → Prop}

/-- `usertrap`, where the system call itself need not keep the context. -/
theorem wp_usertrap (hm : Code.Monotone spec) (h : Whole fun (α : Type) (k : K n α) => Keeps spec k)
    (init : Fin n) (t : Trap)
    (hsys : ∀ c, t = .syscall c → wp spec (c.code init) x fun r y =>
      spec (.returned c r) y fun _ _ => True)
    (hfatal : ∀ p, t = .fault → spec (.fatal p) x fun _ _ => True) :
    wp spec (usertrap init t) x fun _ _ => True := by
  refine h.myproc.seq hm fun p => ?_
  have hend : ∀ y, wp spec _ y fun _ _ => True := fun y =>
    (h.usertrapEnd init p t (h.exit init failed)).post hm fun _ => trivial
  cases t with
  | syscall c =>
    refine (h.basic (c := .killed p) trivial).seq hm fun b => ?_
    have hcode : wp spec (do
        run .intrOn
        let r ← c.code init
        run (.returned c r)
        run (.put (.ret p) r)
        if ← run (.killed p) then Kernel.exit init failed
        run .intrOff) x fun _ _ => True := by
      refine (h.basic (c := .intrOn) trivial).seq hm fun _ => wp_bind hm ?_
      refine wp_mono hm (fun r y hr => ?_) (hsys c rfl)
      refine hm (.returned c r) y _ _ (fun _ z _ => ?_) hr
      exact (h.basic (c := .put (.ret p) r) trivial).seq hm fun _ => hend z
    dsimp only
    split
    · exact (h.exit init failed).seq hm fun _ => hcode
    · exact hcode
  | irq i => exact (h.walk.devintr (L := []) i).seq hm fun _ => hend x
  | fault => exact hm (.fatal p) x _ _ (fun _ y _ => hend y) (hfatal p rfl)

end

/-- Which parts of the machine switching, interrupts and the set-up of contexts change. -/
structure Sys.Like (s s' : Sys n C) : Prop where
  killed : s'.killed = s.killed
  lock : s'.lock = s.lock
  mem : s'.mem = s.mem
  doomed : s'.doomed = s.doomed
  hit : s'.hit = s.hit
  ncalls : s'.ncalls = s.ncalls
  call : s'.call = s.call
  proc : ∀ p, ∃ b, s'.proc p = { s.proc p with saved := b }

/-- A layer of this kind. -/
def flat (spec : (cmd : Cmd n) → X → (Ans cmd → X → Prop) → Prop)
    (G : Sys n C → (Thread n C → X) → Prop) : Layer n C where
  X := X
  spec := spec
  User _ := True
  Wakes _ z w := w = z
  Returns z w := w = z
  Panics _ := True
  G := G

/-- What it has to show. -/
structure Flat (spec : (cmd : Cmd n) → X → (Ans cmd → X → Prop) → Prop)
    (G : Sys n C → (Thread n C → X) → Prop) (boot : C) (init : Fin n)
    (ok : State n C → Act C → Prop) : Prop where
  mono : Code.Monotone spec
  scheduler : Keeps spec (scheduler (n := n))
  forkret : Keeps spec (forkret (n := n))
  kerneltrap : ∀ i, Keeps spec (kerneltrap (n := n) i)
  intrOn : ∀ x Q, Q () x → spec .intrOn x Q
  body : ∀ l : Loop n, Keeps spec l.body
  loop : ∀ l x Q, spec (.loop l) x Q → ∀ a, Q a x
  swtchSched : ∀ p x Q, spec (.swtchSched p) x Q → Q () x
  swtchProc : ∀ p x Q, spec (.swtchProc p) x Q → Q () x
  newContext : ∀ p x Q, spec (.newContext p) x Q → Q () x
  first : ∀ mem, FirstMem init mem → ∃ x, G (start init mem).sys x
  eff : ∀ s x c o cmd k r sys' Q, (machine n C boot init).Reach ok s → ok s (.step c o) →
    G s.sys x → s.run c = .code (.cmd cmd k) → (∀ p, cmd ≠ .newContext p) →
    effect boot s.sys c o cmd = .done r sys' → spec cmd (x (s.sys.who c)) Q →
    ∃ y, Q r y ∧ G sys' (Function.update x (s.sys.who c) y)
  like : ∀ s s' x, G s x → s.Like s' → G s' x
  trap : ∀ s x c p t, (machine n C boot init).Reach ok s → G s.sys x → s.sys.thr c = some p →
    ∃ y, wp spec (usertrap init t) y (fun _ _ => True) ∧
      G (s.sys.enter c p) (Function.update x (.inl p) y)

omit [DecidableEq C] in
theorem Sys.Like.refl (s : Sys n C) : s.Like s :=
  ⟨rfl, rfl, rfl, rfl, rfl, rfl, rfl, fun _ => ⟨_, rfl⟩⟩

omit [DecidableEq C] in
theorem Sys.Like.modify {s : Sys n C} {thr : C → Option (Fin n)} {p : Fin n} {b : Bool} :
    s.Like ({ s with thr := thr }.modify p fun r => { r with saved := b }) where
  __ := Sys.Like.refl s
  proc q := by
    by_cases hq : q = p
    · subst hq
      exact ⟨b, Sys.modify_self ..⟩
    · exact ⟨(s.proc q).saved, Sys.modify_of_ne _ _ hq⟩

namespace Flat

variable {spec : (cmd : Cmd n) → X → (Ans cmd → X → Prop) → Prop}
  {G : Sys n C → (Thread n C → X) → Prop} {boot : C} {init : Fin n}
  {ok : State n C → Act C → Prop} (h : Flat spec G boot init ok)

include h

theorem sound : (flat spec G).Sound boot init ok ((machine n C boot init).Reach ok) where
  mono := h.mono
  inj s x hs _ c c' p hc hc' := by
    obtain ⟨y, -, hG⟩ := Locking.inv hs
    exact hG.toTable.inj hc hc'
  first mem hmem := by
    obtain ⟨x, hG⟩ := h.first mem hmem
    refine ⟨x, hG, fun c => ?_, fun y _ => h.forkret.post h.mono fun _ => trivial⟩
    exact h.scheduler.seq h.mono fun e => e.elim
  body l x Q hs := (h.body l).post h.mono (h.loop l x Q hs)
  eff s x c o cmd k r sys' Q hF hok hG hc hnew he hs :=
    h.eff s x c o cmd k r sys' Q hF hok hG hc hnew he hs
  halt _ _ _ _ _ _ _ _ _ _ _ _ _ _ := trivial
  new s x c p k Q hs hG hc hQ := by
    obtain ⟨y, R, hg, hR⟩ := Locking.next hs hc
    have hp := (hg.newContext hR).1
    refine ⟨hp, x (s.sys.who c), x (.inl p), h.newContext p _ Q hQ,
      fun w _ => h.forkret.post h.mono fun _ => trivial, ?_⟩
    rw [Function.update_eq_self, Function.update_eq_self]
    exact h.like _ _ _ hG .modify
  save s x c p k Q hs hG hc hQ := by
    obtain ⟨y, R, hg, hR⟩ := Locking.next hs hc
    have ht := (hg.save hR).1
    rw [Layer.who_of_some ht] at hQ
    refine ⟨ht, x (.inr c), x (.inl p), rfl, fun w hw => hw ▸ h.swtchSched p _ Q hQ, ?_⟩
    rw [Function.update_eq_self, Function.update_eq_self]
    exact h.like _ _ _ hG .modify
  resume s x c p k Q hs hG hc hQ := by
    obtain ⟨y, R, hg, hR⟩ := Locking.next hs hc
    obtain ⟨ht, hp, hsv, -⟩ := hg.resume hR
    rw [Layer.who_of_none ht] at hQ
    refine ⟨ht, hp, hsv, x (.inl p), x (.inr c), rfl, fun w hw => hw ▸ h.swtchProc p _ Q hQ, ?_⟩
    rw [Function.update_eq_self, Function.update_eq_self]
    exact h.like _ _ _ hG .modify
  trap s x c p u t hs hG hc ht _ := h.trap s x c p t hs hG ht
  intr s x c cmd k i hs hG hc hsie hk := by
    refine ⟨(h.kerneltrap i).seq h.mono fun _ => h.intrOn _ _ hk, h.like _ _ _ hG ?_⟩
    exact { Sys.Like.refl s.sys with }

variable {s : State n C}

theorem inv (hs : (machine n C boot init).Reach ok s) : ∃ x, (flat spec G).Runs s x ∧ G s.sys x :=
  h.sound.inv (fun _ hs => hs) hs

end Flat

/-! ## Steps -/

/-- How a step changes the machine. -/
inductive Moves (boot : C) (s : State n C) : Act C → Sys n C → Prop
  | like {a : Act C} {s' : Sys n C} (h : s.sys.Like s') : Moves boot s a s'
  | effect {c : C} {o : Nat} {cmd : Cmd n} {k : Ans cmd → K n Unit} {r : Ans cmd} {s' : Sys n C}
      (hc : s.run c = .code (.cmd cmd k)) (h : effect boot s.sys c o cmd = .done r s') :
      Moves boot s (.step c o) s'
  | enter {c : C} {u : Unit} {p : Fin n} {t : Trap} (hc : s.run c = .code (.ret u))
      (hp : s.sys.thr c = some p) : Moves boot s (.trap c t) (s.sys.enter c p)

theorem moves_of_cmd {s s' : State n C} {k : Ans cmd → K n Unit} (hc : s.run c = .code (.cmd cmd k))
    (h : stepCmd boot s c o cmd k = some s') : Moves boot s (.step c o) s'.sys := by
  by_cases h1 : (∃ p, cmd = .swtchSched p) ∨ (∃ p, cmd = .swtchProc p) ∨ (∃ l, cmd = .loop l) ∨
      ∃ p, cmd = .newContext p
  · obtain ⟨p, rfl⟩ | ⟨p, rfl⟩ | ⟨l, rfl⟩ | ⟨p, rfl⟩ := h1
    · cases h
      exact .like .modify
    · cases h
      exact .like .modify
    · cases h
      exact .like (.refl _)
    · cases h
      exact .like .modify
  · have h2 := Layer.stepCmd_eq boot s c o k (fun p hp => h1 (.inl ⟨p, hp⟩))
      (fun p hp => h1 (.inr (.inl ⟨p, hp⟩))) (fun l hl => h1 (.inr (.inr (.inl ⟨l, hl⟩))))
      fun p hp => h1 (.inr (.inr (.inr ⟨p, hp⟩)))
    rw [h2] at h
    split at h
    · nomatch h
    · cases h
      exact .like (.refl _)
    · rename_i he
      cases h
      exact .effect hc he

theorem moves_of_step {init : Fin n} {s s' : State n C} {a : Act C}
    (h : step boot init s a = some s') : Moves boot s a s'.sys := by
  rw [step.eq_def] at h
  split at h
  · cases h
  · cases a with
    | step c o =>
      dsimp only at h
      split at h
      · cases h
      · rename_i hc
        exact moves_of_cmd hc h
      · cases h
        exact .like (.refl _)
      · cases h
        exact .like (.refl _)
    | trap c t =>
      dsimp only at h
      split at h
      · rename_i hc hp
        cases h
        exact .enter hc hp
      · cases h
    | intr c i =>
      dsimp only at h
      split at h
      · split at h
        · cases h
          exact .like { Sys.Like.refl s.sys with }
        · cases h
      · cases h

end Xv6.Kernel
