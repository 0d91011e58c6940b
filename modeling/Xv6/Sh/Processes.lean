import Xv6.Sh.Plumbing

/-!
# All processes of a command

Every process in the shell is at a point of its walk through `runcmd` (`Good`), and the events ahead
of different processes are different and have not happened yet (`Inv`), while all others have.
Programs and children of programs only hold what belongs to their part of the command.
-/

open Lts

namespace Xv6.Sh

open List Option

open Function (update update_self update_of_ne update_eq_self)

variable {W : Type} {t : Cmd W} {T : Set Event} {e : Event} {owner : Event → Option Nat} {p : Nat}
  {pr : Proc W} {s : State W}

/-! ## The invariant -/

/-- What is known of a process with the events `T` ahead. -/
def Good (t : Cmd W) (T : Set Event) (pr : Proc W) : Prop :=
  match pr.phase with
  | .shell code => Code.wp (spec t) code ⟨pr.node, pr.fds, T⟩ fun _ _ => False
  | .program _ => pr.fds.All (File.Within pr.node) ∧ T = ∅
  | .zombie | .reaped => pr.fds.All (fun _ => False) ∧ T = ∅

/-- `owner` says who has an event ahead. -/
structure Inv (t : Cmd W) (s : State W) (owner : Event → Option Nat) : Prop where
  good : ∀ p pr, s.procs[p]? = some pr → Good t {e | owner e = some p} pr
  fresh : ∀ e p, owner e = some p → e ∉ s.log ∧ p < s.procs.length
  due : ∀ e ∈ events [] t, e ∈ s.log ∨ ∃ p, owner e = some p

/-- An end of a pipe that a process holds is where it belongs, or the process is on the way to the
sides of that pipe. -/
theorem Good.tidy (h : Good t T pr) : Ctx.Tidy ⟨pr.node, pr.fds, T⟩ := by
  rw [Good] at h
  split at h
  · rename_i code _
    cases code with
    | ret r => nomatch r
    | cmd c k => exact tidy_of_spec h
  · exact .of_within h.1
  · exact .of_within (h.1.mono nofun)
  · exact .of_within (h.1.mono nofun)

theorem Good.congr {pr' : Proc W} (h : Good t T pr) (hn : pr'.node = pr.node)
    (hf : pr'.fds = pr.fds) (hp : pr'.phase = pr.phase) : Good t T pr' := by
  rw [Good] at h ⊢
  rwa [hn, hf, hp]

namespace Inv

variable {s' : State W} {pid : Nat} {r : Proc W}

section

variable (h : Inv t s owner)

include h

theorem good_set {owner' : Event → Option Nat} (hg : Good t {e | owner' e = some pid} r)
    (ho : p ≠ pid → {e | owner' e = some p} = {e | owner e = some p}) {q : Proc W}
    (hq : (s.procs.set pid r)[p]? = some q) : Good t {e | owner' e = some p} q := by
  rw [getElem?_set] at hq
  split at hq
  · rename_i hp
    split at hq
    · exact hp ▸ some.inj hq ▸ hg
    · nomatch hq
  · rename_i hp
    rw [ho (Ne.symm hp)]
    exact h.good p q hq

/-- A process makes a step without an event. -/
theorem keep (hg : Good t {e | owner e = some pid} r) (hprocs : s'.procs = s.procs.set pid r)
    (hlog : s'.log = s.log) : Inv t s' owner where
  good p q hq := h.good_set hg (fun _ => rfl) (hprocs ▸ hq)
  fresh e p he := by
    rw [hlog, hprocs, length_set]
    exact h.fresh e p he
  due := hlog ▸ h.due

/-- An event happens, and is no longer ahead. -/
theorem happen (he : owner e = some pid) (hg : Good t ({e | owner e = some pid} \ {e}) r)
    (hprocs : s'.procs = s.procs.set pid r) (hlog : s'.log = e :: s.log) :
    Inv t s' (update owner e none) := by
  have hmem : ∀ {e' p}, update owner e none e' = some p ↔ owner e' = some p ∧ e' ≠ e := by
    intro e' p
    by_cases hee : e' = e
    · simp [hee]
    · simp [hee]
  constructor
  · intro p q hq
    have hrest : {e' | update owner e none e' = some pid} = {e | owner e = some pid} \ {e} :=
      Set.ext fun _ => hmem
    refine h.good_set (hrest ▸ hg) (fun hp => Set.ext fun e' => ?_) (hprocs ▸ hq)
    refine hmem.trans (and_iff_left_of_imp ?_)
    rintro he' rfl
    exact hp (some.inj (he'.symm.trans he))
  · intro e' p he'
    obtain ⟨he', hne⟩ := hmem.mp he'
    rw [hlog, hprocs, length_set, mem_cons, not_or]
    exact ⟨⟨hne, (h.fresh e' p he').1⟩, (h.fresh e' p he').2⟩
  · intro e' he'
    rw [hlog, mem_cons]
    by_cases hee : e' = e
    · exact .inl (.inl hee)
    · exact (h.due e' he').imp .inr fun ⟨p, hp⟩ => ⟨p, hmem.mpr ⟨hp, hee⟩⟩

open Classical in
/-- What is ahead of a process is divided between it and its child. -/
theorem fork {A : Set Event} {child parent : Phase W} (hA : A ⊆ {e | owner e = some pid})
    (hpid : pid < s.procs.length) (hc : Good t A { pr with phase := child })
    (hp : Good t ({e | owner e = some pid} \ A) { pr with phase := parent }) :
    Inv t (s.fork pid pr child parent)
      fun e => if e ∈ A then some s.procs.length else owner e := by
  have hlen : (s.procs.set pid { pr with phase := parent }).length = s.procs.length := length_set
  have hmem : ∀ {e p}, (if e ∈ A then some s.procs.length else owner e) = some p ↔
      e ∈ A ∧ p = s.procs.length ∨ owner e = some p ∧ e ∉ A := by
    intro e p
    by_cases he : e ∈ A
    · simp [he, eq_comm]
    · simp [he]
  constructor
  · intro p q hq
    by_cases hpl : p = s.procs.length
    · subst hpl
      rw [State.fork, getElem?_append_right hlen.le, hlen, Nat.sub_self] at hq
      cases hq
      have hnew : {e | (if e ∈ A then some s.procs.length else owner e) = some s.procs.length} =
          A := Set.ext fun e => by
        refine hmem.trans ⟨?_, fun he => .inl ⟨he, rfl⟩⟩
        exact fun he => he.elim And.left fun he => absurd (h.fresh e _ he.1).2 (Nat.lt_irrefl _)
      rw [hnew]
      exact hc.congr rfl rfl rfl
    · have hrest : {e | (if e ∈ A then some s.procs.length else owner e) = some pid} =
          {e | owner e = some pid} \ A := Set.ext fun e =>
        hmem.trans (or_iff_right fun he => hpid.ne he.2)
      refine h.good_set (hrest ▸ hp) (fun hpp => Set.ext fun e => ?_) ?_
      · refine hmem.trans
          ⟨fun he => (he.resolve_left fun he => hpl he.2).1, fun he => .inr ⟨he, ?_⟩⟩
        exact fun hm => hpp (some.inj (he.symm.trans (hA hm)))
      · rw [State.fork, getElem?_append] at hq
        split at hq
        · exact hq
        · rw [getElem?_eq_none (by rw [length_singleton]; omega)] at hq
          nomatch hq
  · intro e p he
    rw [State.fork, length_append, hlen, length_singleton]
    obtain ⟨hm, rfl⟩ | ⟨he, -⟩ := hmem.mp he
    · exact ⟨(h.fresh e pid (hA hm)).1, Nat.lt_succ_self _⟩
    · exact (h.fresh e p he).imp id Nat.lt_succ_of_lt
  · intro e he
    by_cases hm : e ∈ A
    · exact .inr ⟨_, if_pos hm⟩
    · exact (h.due e he).imp id fun ⟨p, hp⟩ => ⟨p, hmem.mpr (.inr ⟨hp, hm⟩)⟩

theorem map {f : Proc W → Proc W} (hn : ∀ q, (f q).node = q.node) (hf : ∀ q, (f q).fds = q.fds)
    (hp : ∀ q, (f q).phase = q.phase) (hprocs : s'.procs = s.procs.map f) (hlog : s'.log = s.log) :
    Inv t s' owner := by
  refine ⟨fun p q hq => ?_, fun e p he => ?_, hlog ▸ h.due⟩
  · rw [hprocs, getElem?_map] at hq
    obtain ⟨q', hq', rfl⟩ := map_eq_some_iff.mp hq
    exact (h.good p q' hq').congr (hn q') (hf q') (hp q')
  · rw [hlog, hprocs, length_map]
    exact h.fresh e p he

theorem exit (h0 : {e | owner e = some pid} = ∅) : Inv t (s.exit pid pr) owner := by
  have hz : Good t {e | owner e = some pid}
      { pr with fds := pr.fds.map fun _ => none, phase := .zombie } := by
    refine And.intro (fun f hf => ?_) h0
    obtain ⟨g, -, hg⟩ := mem_map.mp hf
    nomatch hg
  have h' : Inv t (s.setProc pid _) owner := h.keep hz rfl rfl
  refine h'.map (f := fun q => if q.parent = some pid then { q with parent := .none } else q)
    ?_ ?_ ?_ rfl rfl
  all_goals
    intro q
    split <;> rfl

theorem wait {child : Nat} {r : Int} (hs : s.wait pid child = some (r, s')) : Inv t s' owner := by
  rw [State.wait] at hs
  split at hs
  · rename_i c hc
    cases hs
    obtain ⟨hc, hz⟩ := filter_eq_some_iff.mp hc
    obtain ⟨parent, node, fds, phase⟩ := c
    have hg := h.good child _ hc
    cases phase with
    | zombie => exact h.keep (r := ⟨parent, node, fds, .reaped⟩) hg rfl rfl
    | _ => simp at hz
  · split at hs
    · nomatch hs
    · cases hs
      exact h

theorem shellStep {c : Call W} {k : c.Ret → Run W Empty} {child : Nat}
    (hwp : spec t c ⟨pr.node, pr.fds, {e | owner e = some pid}⟩ fun r x =>
      Code.wp (spec t) (k r) x fun _ _ => False)
    (hpid : pid < s.procs.length) (hs : s.shellStep pid child pr c k = some s') :
    ∃ owner', Inv t s' owner' := by
  cases c with
  | event e =>
    cases hs
    obtain ⟨-, he, hk⟩ := hwp
    exact ⟨_, h.happen he (r := { pr with node := e.place pr.node, phase := .shell (k ()) }) hk
      rfl rfl⟩
  | close fd | dup fd =>
    cases hs
    exact ⟨_, h.keep (r := { pr with fds := _, phase := .shell _ }) hwp.2 rfl rfl⟩
  | opens file mode | pipe =>
    cases hs
    exact ⟨_, h.keep (r := { pr with fds := _, phase := .shell _ }) (hwp.2 s.serial) rfl rfl⟩
  | fork =>
    cases hs
    obtain ⟨-, A, hA, h0, hp⟩ := hwp
    exact ⟨_, h.fork hA hpid h0 (hp s.procs.length (by omega))⟩
  | wait =>
    rw [State.shellStep] at hs
    obtain ⟨⟨r, s1⟩, hw, he⟩ := bind_eq_some_iff.mp hs
    cases he
    exact ⟨_, (h.wait hw).keep (r := { pr with phase := .shell _ }) (hwp.2 r) rfl rfl⟩
  | exec argv =>
    cases hs
    obtain ⟨hall, hahead, -⟩ := hwp
    have he : owner (.exec pr.node) = some pid := hahead.ge rfl
    refine ⟨_, h.happen he (r := { pr with phase := .program argv }) ⟨hall, ?_⟩ rfl rfl⟩
    exact sdiff_eq_bot_iff.mpr hahead.le
  | exit status =>
    cases hs
    exact ⟨_, h.exit hwp.2⟩
  | fprintf fmt arg =>
    cases hs
    exact ⟨_, h.keep (r := { pr with phase := .shell (k ()) }) hwp.2 rfl rfl⟩

theorem programStep {argv : List W} (hphase : pr.phase = .program argv)
    (hg : pr.fds.All (File.Within pr.node)) (hpid : pid < s.procs.length)
    (h0 : {e | owner e = some pid} = ∅) {op : Op W}
    (hs : s.programStep pid pr op = some s') : ∃ owner', Inv t s' owner' := by
  have hkeep : ∀ (fds : Fds W) (s' : State W), fds.All (File.Within pr.node) →
      s'.procs = s.procs.set pid { pr with fds } → s'.log = s.log → ∃ owner', Inv t s' owner' := by
    intro fds s' hfds hprocs hlog
    refine ⟨_, h.keep (r := { pr with fds }) ?_ hprocs hlog⟩
    rw [Good, hphase]
    exact ⟨hfds, h0⟩
  have hother : ∀ n, (File.other n : File W).Within pr.node := fun _ => nofun
  cases op with
  | close fd => exact some.inj hs ▸ hkeep _ _ (hg.close fd) rfl rfl
  | dup fd => exact some.inj hs ▸ hkeep _ _ (hg.dup fd) rfl rfl
  | opens => exact some.inj hs ▸ hkeep _ _ (hg.opens (hother _)) rfl rfl
  | pipe => exact some.inj hs ▸ hkeep _ _ (hg.pipe (hother _) (hother _)) rfl rfl
  | fork =>
    have hpr : Good t ∅ { pr with phase := pr.phase } := by
      rw [Good, hphase]
      exact ⟨hg, rfl⟩
    exact some.inj hs ▸ ⟨_, h.fork (Set.empty_subset _) hpid hpr (by rwa [h0, Set.sdiff_self])⟩
  | exec argv =>
    exact some.inj hs ▸ ⟨_, h.keep (r := { pr with phase := .program argv }) ⟨hg, h0⟩ rfl rfl⟩
  | wait child =>
    obtain ⟨⟨r, s1⟩, hw, rfl⟩ := map_eq_some_iff.mp hs
    exact ⟨_, h.wait hw⟩
  | exit => exact some.inj hs ▸ ⟨_, h.exit h0⟩

theorem step {a : Action W} (hs : s.step a = some s') : ∃ owner', Inv t s' owner' := by
  have hpid : ∀ {p : Nat} {pr : Proc W}, s.procs[p]? = some pr → p < s.procs.length := fun hpr =>
    (List.getElem?_eq_some_iff.mp hpr).1
  cases a with
  | shell pid child =>
    obtain ⟨pr, hpr, hs⟩ := bind_eq_some_iff.mp hs
    have hg := h.good _ pr hpr
    split at hs
    · rename_i c k hphase
      rw [Good, hphase] at hg
      exact h.shellStep hg (hpid hpr) hs
    · nomatch hs
  | program pid op =>
    obtain ⟨pr, hpr, hs⟩ := bind_eq_some_iff.mp hs
    have hg := h.good _ pr hpr
    split at hs
    · rename_i argv hphase
      rw [Good, hphase] at hg
      exact h.programStep hphase hg.1 (hpid hpr) hg.2 hs
    · nomatch hs

end

end Inv

open Classical in
/-- At the start everything is ahead of the only process. -/
theorem inv_start (t : Cmd W) :
    Inv t (State.start t) fun e => if e ∈ events [] t then some 0 else none where
  good p pr hpr := by
    cases p with
    | zero =>
      cases hpr
      have hg : ∀ n, (File.given n : File W).Within [] := fun _ => nofun
      have hall : {e | (if e ∈ events [] t then some 0 else none) = some 0} = events [] t :=
        Set.ext fun e => by simp
      rw [hall]
      exact runcmd_spec t ⟨rfl, rfl, rfl, rfl, hg 0, hg 1, hg 2⟩
        (.of_within (.std (hg 0) (hg 1) (hg 2)))
    | succ p => nomatch hpr
  fresh e p he := by
    obtain ⟨-, rfl⟩ : e ∈ events [] t ∧ 0 = p := by simpa using he
    exact ⟨not_mem_nil, Nat.one_pos⟩
  due e he := .inr ⟨0, if_pos he⟩

theorem inv_of_reach (h : (running t).Reach System.Any s) : ∃ owner, Inv t s owner :=
  h.inv (I := fun s => ∃ owner, Inv t s owner) (fun _ hs => ⟨_, hs ▸ inv_start t⟩)
    fun _ _ _ ⟨_, hi⟩ _ hs => hi.step hs

/-! ## The result -/

/-- A process that has exited. -/
def Phase.exited : Phase W → Bool
  | .zombie | .reaped => true
  | _ => false

/-- An end of a pipe of which both sides have begun, and whose process waits, is in its part of the
command. -/
theorem within_of_begun (h : Inv t s owner) {node : Path} (hl : .enter (node ++ [.left]) ∈ s.log)
    (hr : .enter (node ++ [.right]) ∈ s.log) (hw : .waits node ∈ s.log) (hp : s.procs[p]? = some pr)
    {f : File W} (hf : some f ∈ pr.fds) {d : Dir} (hd : f.home = some (node ++ [d])) :
    node ++ [d] <+: pr.node := by
  obtain hin | ⟨⟨d', hd'⟩, hpend⟩ := (h.good p pr hp).tidy f hf
  · exact hin _ hd
  · have hnode : node = pr.node := (append_inj' (some.inj (hd.symm.trans hd')) rfl).1
    subst hnode
    obtain he | he | he := hpend
    · exact absurd hl (h.fresh _ p he).1
    · exact absurd hr (h.fresh _ p he).1
    · exact absurd hw (h.fresh _ p he).1

/-- What is still ahead is ahead of a process in the shell. -/
theorem shell_of_ahead (h : Inv t s owner) (he : owner e = some p) :
    ∃ (pr : Proc W) (c : Call W) (k : c.Ret → Run W Empty),
      s.procs[p]? = some pr ∧ pr.phase = .shell (.cmd c k) ∧
      spec t c ⟨pr.node, pr.fds, {e | owner e = some p}⟩ fun r x =>
        Code.wp (spec t) (k r) x fun _ _ => False := by
  have hp := (h.fresh e p he).2
  have hg := h.good p _ (getElem?_eq_getElem hp)
  have hmem : e ∈ {e | owner e = some p} := he
  rw [Good] at hg
  split at hg
  · rename_i code hphase
    cases code with
    | ret r => nomatch r
    | cmd c k => exact ⟨_, c, k, getElem?_eq_getElem hp, hphase, hg⟩
  all_goals
    rw [hg.2] at hmem
    nomatch hmem

/-- **The plumbing of a command.**  In every state of every run of the command `t`:

* a process that executes a program is at a leaf of `t`, and has exactly the descriptors 0, 1 and 2,
  which stand for what the tree denotes there;
* a process that has entered a leaf with arguments is about to call `exec` for it, or has done so;
* when all processes have exited, every part of `t` has been entered;
* for every pipe of `t` whose process has reached `wait` and whose two sides have begun, the write
  end is held only by processes of the left side and the read end only by processes of the right
  side; so when all processes of the left side have exited, nobody holds the write end any more. -/
theorem plumbing (t : Cmd W) {s : State W} (h : (running t).Reach System.Any s) :
    (∀ (p : Nat) (pr : Proc W) argv k, s.procs[p]? = some pr →
      pr.phase = .shell (.cmd (.exec argv) k) →
      ∃ env f0 f1 f2, t.locate pr.node = some (.exec argv, env) ∧ pr.fds = std f0 f1 f2 ∧
        f0.source = env 0 ∧ f1.source = env 1 ∧ f2.source = env 2) ∧
    (∀ node argv env, t.locate node = some (.exec argv, env) → argv ≠ [] → .enter node ∈ s.log →
      .exec node ∈ s.log ∨ ∃ (p : Nat) (pr : Proc W) (k : _), s.procs[p]? = some pr ∧
        pr.node = node ∧ pr.phase = .shell (.cmd (.exec argv) k)) ∧
    ((∀ (p : Nat) pr, s.procs[p]? = some pr → pr.phase.exited = true) →
      ∀ node x, t.locate node = some x → .enter node ∈ s.log) ∧
    ∀ node, .enter (node ++ [.left]) ∈ s.log → .enter (node ++ [.right]) ∈ s.log →
      .waits node ∈ s.log →
      (∀ (p : Nat) pr n, s.procs[p]? = some pr → some (.writeEnd n node) ∈ pr.fds →
        node ++ [.left] <+: pr.node) ∧
      (∀ (p : Nat) pr n, s.procs[p]? = some pr → some (.readEnd n node) ∈ pr.fds →
        node ++ [.right] <+: pr.node) ∧
      ((∀ (p : Nat) pr, s.procs[p]? = some pr → node ++ [.left] <+: pr.node →
          pr.phase.exited = true) →
        ∀ (p : Nat) pr n, s.procs[p]? = some pr → some (.writeEnd n node) ∉ pr.fds) := by
  obtain ⟨owner, hinv⟩ := inv_of_reach h
  refine ⟨fun p pr argv k hp hphase => ?_, fun node argv env hloc hne hin => ?_,
    fun hexit node x hloc => ?_, fun node hl hr hw => ?_⟩
  · have hg := hinv.good p pr hp
    rw [Good, hphase] at hg
    exact hg.2.2
  · refine (hinv.due _ (events_locate hloc (.inr ⟨rfl, hne⟩))).imp id ?_
    rintro ⟨p, he⟩
    obtain ⟨pr, c, k, hp, hphase, hspec⟩ := shell_of_ahead hinv he
    obtain ⟨argv', rfl, hnode, _, _, _, _, hloc', -⟩ :=
      exec_of_spec hspec he fun hn => (hinv.fresh _ p hn).1 hin
    cases hloc.symm.trans hloc'
    exact ⟨p, pr, k, hp, hnode, hphase⟩
  · refine (hinv.due _ (events_locate hloc (enter_mem_events ..))).resolve_right ?_
    rintro ⟨p, he⟩
    obtain ⟨pr, c, k, hp, hphase, -⟩ := shell_of_ahead hinv he
    have hex := hexit p pr hp
    rw [hphase] at hex
    nomatch hex
  · have hwrite : ∀ (p : Nat) pr n, s.procs[p]? = some pr → some (.writeEnd n node) ∈ pr.fds →
        node ++ [.left] <+: pr.node := fun p pr n hp hf => within_of_begun hinv hl hr hw hp hf rfl
    refine ⟨hwrite, fun p pr n hp hf => within_of_begun hinv hl hr hw hp hf rfl,
      fun hexit p pr n hp hf => ?_⟩
    have hex := hexit p pr hp (hwrite p pr n hp hf)
    have hg := hinv.good p pr hp
    rw [Good] at hg
    cases hphase : pr.phase with
    | shell code | program argv => rw [hphase] at hex; nomatch hex
    | zombie | reaped => rw [hphase] at hg; exact hg.1 _ hf

/-- `a < f | b` up to the point where both sides have begun and the process of the pipe is about to
wait. -/
def pipeRun : List (Action Nat) :=
  List.replicate 7 (.shell 0 0) ++ List.replicate 5 (.shell 1 0) ++ List.replicate 5 (.shell 2 0)

/-- Then the right side is about to execute its program, with the read end and the descriptors 1 and
2 that it was given, and only the left side has the write end. -/
theorem plumbing_pipe : ∃ s,
    (running (.pipe (.redir (.exec [0]) 7 .input) (.exec [1]))).Reach System.Any s ∧
    (∃ (p : Nat) (pr : Proc Nat) (k : _) (f0 f1 f2 : File Nat), s.procs[p]? = some pr ∧
      pr.node = [.right] ∧ pr.phase = .shell (.cmd (.exec [1]) k) ∧ pr.fds = std f0 f1 f2 ∧
      f0.source = .readEnd [] ∧ f1.source = .given 1 ∧ f2.source = .given 2) ∧
    (∀ (p : Nat) pr n, s.procs[p]? = some pr → some (.writeEnd n []) ∈ pr.fds →
      [.left] <+: pr.node) := by
  let t : Cmd Nat := .pipe (.redir (.exec [0]) 7 .input) (.exec [1])
  obtain ⟨s, hreach, hl, hr, hw, hno⟩ : ∃ s, (running t).Reach System.Any s ∧
      .enter [.left] ∈ s.log ∧ .enter [.right] ∈ s.log ∧ .waits [] ∈ s.log ∧
        .exec [.right] ∉ s.log :=
    (System.Reach.init rfl).replay pipeRun (by decide +kernel)
  obtain ⟨hexec, hleaf, -, hpipes⟩ := plumbing t hreach
  obtain ⟨p, pr, k, hp, hnode, hphase⟩ :=
    (hleaf [.right] [1] _ rfl (by decide) hr).resolve_left hno
  obtain ⟨env, f0, f1, f2, hloc, hfds, h0, h1, h2⟩ := hexec p pr [1] k hp hphase
  rw [hnode] at hloc
  cases hloc
  exact ⟨s, hreach, ⟨p, pr, k, f0, f1, f2, hp, hnode, hphase, hfds, h0, h1, h2⟩,
    (hpipes [] hl hr hw).1⟩

end Xv6.Sh
