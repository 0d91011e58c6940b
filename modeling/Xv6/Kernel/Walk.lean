import Xv6.Kernel.Threads

/-!
# What all kernel code has in common

Most functions of the kernel do little that is of interest for the management of processes: they
take some lock, look at some data, sleep or wake up others, and release the lock.  Rather than to go
through all of them again for every property, this is done once here.  A `Rule` is a property of
code that begins with some spin locks held, the last one first, and ends with others.  `Plain`,
`Wakes` and `Walk` say that a rule is closed under sequencing and holds of the basic pieces; what
follows is that it holds of everything that is made of them.

The functions of `proc.c` are not covered.  They are what the properties are about.
-/

namespace Xv6.Kernel

variable {n : Nat}

/-- The lock is not that of a process. -/
def Lock.Simple : Lock n → Prop
  | .proc _ => False
  | _ => True

/-- The lock that is held when a loop begins. -/
def Loop.lock : Loop n → Option (Lock n)
  | .wait p _ => some (.proc p)
  | .pipeFull i | .pipeEmpty i => some (.pipe i)
  | .consEmpty => some .cons
  | .ticks .. => some .ticks
  | .acquiresleep k => some (.slk k)
  | .beginOp => some .log
  | .uartputc _ => some .uart
  | .allocDescs | .diskBusy _ => some .disk
  | _ => none

/-- Whether it is still held at the end.  A loop that gives up releases its lock. -/
def Loop.keeps : (l : Loop n) → LoopAns l → Bool
  | .wait .., _ | .uartputc _, _ => false
  | .pipeFull _, b | .pipeEmpty _, b | .consEmpty, b | .ticks .., b => b
  | _, _ => true

/-- The loops that never sleep, so that handlers of interrupts can run them. -/
def Loop.Quick : Loop n → Prop
  | .uartstart | .uartintr | .diskIntr => True
  | _ => False

/-- The other loops, except those of `proc.c`. -/
def Loop.Slow : Loop n → Prop
  | .uartstart | .uartintr | .diskIntr | .scheduler | .wait .. => False
  | _ => True

/-- The loops that test `p->killed`. -/
def Loop.Tests : Loop n → Prop
  | .pipeFull _ | .pipeEmpty _ | .consEmpty | .ticks .. | .wait .. => True
  | _ => False

/-- The channels that these loops sleep on. -/
def Chan.Tests : Chan n → Prop
  | .proc _ | .ticks | .nread _ | .nwrite _ | .cons => True
  | _ => False

/-- Panics outside of `proc.c` and `spinlock.c`. -/
def Panic.Soft : Panic → Prop
  | .null | .logCommitting | .filedup | .fileclose | .igetNoInodes | .iallocNoInodes
  | .ilock | .iunlock
  | .dir _ => True
  | _ => False

/-- A property of code, together with the locks that are held before and after. -/
abbrev Rule (n : Nat) := ∀ ⦃α : Type⦄, List (Lock n) → K n α → (α → List (Lock n)) → Prop

/-- The objects of devices, buffers and the log. -/
def Obj.Low : Obj n → Prop
  | .ticks | .cons | .uart | .log | .disk | .slk (.buf _) => True
  | _ => False

/-- The objects of the inode cache. -/
def Obj.Ino : Obj n → Prop
  | .icache | .inode _ | .slk (.inode _) | .cwd _ => True
  | _ => False

/-- The objects of the file table. -/
def Obj.Fil : Obj n → Prop
  | .ftable | .file _ | .ofile _ => True
  | _ => False

/-- The objects of pipes. -/
def Obj.Pip : Obj n → Prop
  | .pipe _ | .npipe => True
  | _ => False

/-- A rule for code that uses locks and the objects `O`. -/
structure Plain (O : Obj n → Prop) (P : Rule n) : Prop where
  ret : ∀ {α : Type} (a : α) (post : α → List (Lock n)), P (post a) (.ret a) post
  bind : ∀ {α β : Type} {L : List (Lock n)} {k : K n α} {mid : α → List (Lock n)} {f : α → K n β}
    {post : β → List (Lock n)}, P L k mid → (∀ a, P (mid a) (f a) post) → P L (k >>= f) post
  panic : ∀ {α : Type} (L : List (Lock n)) {m : Panic} (post : α → List (Lock n)), m.Soft →
    P L (Kernel.panic m) post
  ask : ∀ L, P L (run .ask) fun _ => L
  getProc : ∀ L, P L (run .myproc) fun _ => L
  isBoot : ∀ L, P L (run .isBoot) fun _ => L
  pid : ∀ L p, P L (run (.pid p)) fun _ => L
  get : ∀ L {o}, O o → P L (run (.get o)) fun _ => L
  put : ∀ L {o} v, O o → P L (run (.put o v)) fun _ => L
  acquire : ∀ L {l}, l.Simple → P L (Kernel.acquire l) fun _ => l :: L
  release : ∀ L {l}, l.Simple → P (l :: L) (Kernel.release l) fun _ => L

/-- It also allows to wake up processes. -/
structure Wakes (O : Obj n → Prop) (P : Rule n) : Prop extends Plain O P where
  low : ∀ {o}, o.Low → O o
  wakeup : ∀ L ch, P L (Kernel.wakeup ch) fun _ => L
  quick : ∀ L {l : Loop n}, l.Quick → P L (run (.loop l)) fun _ => L

/-- It also allows to sleep. -/
structure Walk (O : Obj n → Prop) (P : Rule n) : Prop extends Wakes O P where
  sleep : ∀ L ch {lk}, lk.Simple → ¬ ch.Tests → P (lk :: L) (Kernel.sleep ch lk) fun _ => lk :: L
  slow : ∀ L {l : Loop n}, l.Slow → P (l.lock.toList ++ L) (run (.loop l)) fun a =>
    if l.keeps a then l.lock.toList ++ L else L

section

variable {α β : Type} {O : Obj n → Prop} {P : Rule n} {L : List (Lock n)}

namespace Plain

variable (h : Plain O P) {b : Prop}

include h

theorem give {post : α → List (Lock n)} (a : α) (hL : post a = L) : P L (Pure.pure a) post :=
  hL ▸ h.ret a post

theorem pure (a : α) : P L (pure a) fun _ => L := h.give a rfl

section

variable {post : β → List (Lock n)} {l : Lock n} {o : Obj n}

theorem look {f : Cell o → K n β} (ho : O o) (hf : ∀ v, P L (f v) post) :
    P L (run (.get o) >>= f) post := h.bind (h.get L ho) hf

variable {f : Unit → K n β}

theorem store {v : Cell o} (ho : O o) (hf : P L (f ()) post) :
    P L (run (.put o v) >>= f) post := h.bind (h.put L v ho) fun _ => hf

theorem lock (hl : l.Simple) (hf : P (l :: L) (f ()) post) :
    P L (Kernel.acquire l >>= f) post := h.bind (h.acquire L hl) fun _ => hf

theorem unlock (hl : l.Simple) (hf : P L (f ()) post) :
    P (l :: L) (Kernel.release l >>= f) post := h.bind (h.release L hl) fun _ => hf

end

theorem works : P L works fun _ => L := h.bind (h.ask L) fun _ => h.pure _

theorem check (b : Bool) {m : Panic} (hm : m.Soft) : P L (check b m) fun _ => L := by
  rw [Kernel.check]
  split
  · exact h.pure ()
  · exact h.panic L _ hm

theorem myproc : P L myproc fun _ => L := by
  refine h.bind (h.getProc L) fun p => ?_
  cases p with
  | none => exact h.panic L _ trivial
  | some p => exact h.pure p

/-- `if(b) k`, in the middle of some code. -/
theorem optional [Decidable b] {k : K n Unit} {f : Unit → K n β} {post : β → List (Lock n)}
    (hk : b → P L k fun _ => L) (hf : P L (f ()) post) :
    P L (if b then k >>= fun r => f r else f ()) post := by
  split
  · exact h.bind (hk ‹_›) fun _ => hf
  · exact hf

/-- `a = b ? k : k'`, in the middle of some code. -/
theorem choose [Decidable b] {k k' : K n α} {f : α → K n β} {post : β → List (Lock n)}
    (hk : P L k fun _ => L) (hk' : P L k' fun _ => L) (hf : ∀ a, P L (f a) post) :
    P L (if b then k >>= fun r => f r else k' >>= fun r => f r) post := by
  split
  · exact h.bind hk hf
  · exact h.bind hk' hf

theorem copyinByte : P L copyinByte fun _ => L := by
  refine h.bind (h.ask L) fun o => ?_
  cases o <;> exact h.pure _

/-! ## The file table -/

section

variable (hf : ∀ {o}, o.Fil → O o)

include hf

theorem filealloc : P L filealloc fun _ => L := by
  refine h.lock trivial <| h.look (hf trivial) fun ref => ?_
  cases (List.range nfile).find? fun f => decide (ref f = 0) with
  | some f =>
    exact h.store (hf trivial) <| h.unlock trivial <| h.pure _
  | none => exact h.unlock trivial <| h.pure _

theorem filedup (f : Nat) : P L (filedup f) fun _ => L :=
  h.lock trivial <| h.look (hf trivial) fun _ =>
    h.bind (h.check _ trivial) fun _ => h.store (hf trivial) <| h.release L trivial

theorem fdalloc (f : Nat) : P L (fdalloc f) fun _ => L := by
  refine h.bind h.myproc fun p => h.look (hf trivial) fun of => ?_
  cases (List.range nofile).find? fun fd => (of fd).isNone with
  | some fd => exact h.store (hf trivial) <| h.pure _
  | none => exact h.pure _

theorem clearFd (fd : Nat) : P L (clearFd fd) fun _ => L :=
  h.bind h.myproc fun _ => h.look (hf trivial) fun _ => h.put _ _ (hf trivial)

theorem argfd (fd : Nat) : P L (argfd fd) fun _ => L :=
  h.bind h.myproc fun _ => h.look (hf trivial) fun _ => h.pure _

theorem forkFiles (p np : Fin n) (fds : List Nat) : P L (forkFiles p np fds) fun _ => L := by
  induction fds with
  | nil => exact h.pure ()
  | cons fd fds ih =>
    refine h.look (hf trivial) fun of => ?_
    cases of fd with
    | some f =>
      exact h.bind (h.filedup hf f) fun _ => h.look (hf trivial) fun _ => h.store (hf trivial) <| ih
    | none => exact h.bind (h.pure ()) fun _ => ih

end

/-! ## The inode cache -/

section

variable (hi : ∀ {o}, o.Ino → O o)

include hi

theorem iget (i : Nat) : P L (iget i) fun _ => L := by
  refine h.lock trivial <| h.look (hi trivial) fun ref => ?_
  split
  · exact h.store (hi trivial) <| h.release L trivial
  · exact h.bind h.works fun _ => h.bind (h.check _ trivial) fun _ =>
      h.store (hi trivial) <| h.look (hi trivial) fun _ =>
        h.store (hi trivial) <| h.release L trivial

theorem idup (i : Nat) : P L (idup i) fun _ => L :=
  h.lock trivial <| h.look (hi trivial) fun _ => h.store (hi trivial) <| h.release L trivial

theorem iputDrop (i : Nat) : P L (iputDrop i) fun _ => L :=
  h.lock trivial <| h.look (hi trivial) fun _ => h.store (hi trivial) <| h.release L trivial

theorem holdingsleep (i : Nat) : P L (holdingsleep (.inode i)) fun _ => L :=
  h.lock trivial <| h.look (hi trivial) fun _ =>
    h.bind h.myproc fun p => h.bind (h.pid _ p) fun _ => h.unlock trivial <| h.pure _

end

theorem newPipe (hp : ∀ {o}, o.Pip → O o) : P L newPipe fun _ => L := by
  refine h.bind h.works fun b => ?_
  split
  · exact h.lock trivial <| h.look (hp trivial) fun _ =>
      h.store (hp trivial) <| h.unlock trivial <| h.pure _
  · exact h.pure _

end Plain

/-! ## Handlers of interrupts -/

namespace Wakes

variable (h : Wakes O P)

include h

theorem wake {ch : Chan n} {f : Unit → K n β} {post : β → List (Lock n)} (hf : P L (f ()) post) :
    P L (Kernel.wakeup ch >>= f) post := h.bind (h.wakeup L ch) fun _ => hf

theorem consoleintr (c : Nat) : P L (consoleintr c) fun _ => L :=
  h.lock trivial <| h.look (h.low trivial) fun _ =>
    h.store (h.low trivial) <| h.optional (fun _ => h.wakeup _ _)
      (h.release L trivial)

theorem uartintr : P L uartintr fun _ => L :=
  h.bind (h.quick L trivial) fun _ => h.lock trivial <|
    h.bind (h.quick _ trivial) fun _ => h.release L trivial

theorem virtioDiskIntr : P L virtioDiskIntr fun _ => L :=
  h.lock trivial <| h.bind (h.quick _ trivial) fun _ => h.release L trivial

theorem clockintr : P L clockintr fun _ => L :=
  h.lock trivial <| h.look (h.low trivial) fun _ =>
    h.store (h.low trivial) <| h.wake <| h.release L trivial

theorem devintr (i : Irq) : P L (devintr i) fun _ => L := by
  cases i with
  | uart => exact h.uartintr
  | disk => exact h.virtioDiskIntr
  | timer =>
    refine h.bind (h.isBoot L) fun b => ?_
    split
    · exact h.clockintr
    · exact h.pure ()

theorem quickBody {l : Loop n} (hl : l.Quick) : P L l.body fun _ => L := by
  cases l with
  | uartstart =>
    refine h.look (h.low trivial) fun u => ?_
    split
    · exact h.pure ()
    · refine h.bind h.works fun b => ?_
      split
      · exact h.store (h.low trivial) <| h.wake <| h.quick L trivial
      · exact h.pure ()
  | uartintr =>
    refine h.bind (h.ask L) fun o => ?_
    cases o with
    | zero => exact h.pure ()
    | succ c => exact h.bind (h.consoleintr c) fun _ => h.quick L trivial
  | diskIntr =>
    refine h.bind (h.ask L) fun o => ?_
    cases o with
    | zero => exact h.pure ()
    | succ b =>
      exact h.look (h.low trivial) fun _ => h.store (h.low trivial) <|
        h.wake <| h.quick L trivial
  | _ => nomatch hl

theorem wakeFree (k : Nat) : P L (wakeFree k) fun _ => L := by
  induction k with
  | zero => exact h.pure ()
  | succ k ih => exact h.wake <| ih

theorem releasesleep {k : SleepLock} (hk : O (.slk k)) : P L (releasesleep k) fun _ => L :=
  h.lock trivial <| h.store hk <| h.wake <| h.release L trivial

theorem endCommit : P L endCommit fun _ => L :=
  h.lock trivial <| h.look (h.low trivial) fun _ =>
    h.store (h.low trivial) <| h.wake <| h.release L trivial

theorem pipeclose (hp : ∀ {o}, o.Pip → O o) (i : Nat) (w : Bool) : P L (pipeclose i w) fun _ => L :=
  h.lock trivial <| h.look (hp trivial) fun _ =>
    h.store (hp trivial) <| h.wake <| h.release L trivial

theorem iunlock (hi : ∀ {o}, o.Ino → O o) (i : Nat) : P L (iunlock i) fun _ => L :=
  h.bind (h.holdingsleep hi i) fun _ => h.bind (h.check _ trivial) fun _ =>
    h.look (hi trivial) fun _ => h.bind (h.check _ trivial) fun _ => h.releasesleep (hi trivial)

end Wakes

/-! ## Everything else -/

namespace Walk

variable (h : Walk O P)

include h

theorem acquiresleep {k : SleepLock} (hk : O (.slk k)) : P L (acquiresleep k) fun _ => L :=
  h.lock trivial <| h.bind (h.slow L (l := .acquiresleep k) trivial) fun _ =>
    h.bind h.myproc fun p => h.bind (h.pid _ p) fun _ => h.store hk <| h.release L trivial

theorem virtioDiskRw (b : Nat) : P L (virtioDiskRw b) fun _ => L :=
  h.lock trivial <| h.bind (h.slow L (l := .allocDescs) trivial) fun _ =>
    h.look (h.low trivial) fun _ => h.store (h.low trivial) <|
      h.bind (h.slow L (l := .diskBusy b) trivial) fun _ =>
        h.look (h.low trivial) fun _ => h.store (h.low trivial) <|
          h.bind (h.wakeFree 3) fun _ => h.release L trivial

theorem blockAccess (b : Nat) : P L (blockAccess b) fun _ => L :=
  h.lock trivial <| h.unlock trivial <|
    h.bind (h.acquiresleep (h.low trivial)) fun _ => h.bind h.works fun _ =>
      h.optional (fun _ => h.virtioDiskRw b) <| h.bind h.works fun _ =>
        h.optional (fun _ => h.virtioDiskRw b) <| h.bind (h.releasesleep (h.low trivial)) fun _ =>
          h.lock trivial <| h.release L trivial

theorem blocks : P L blocks fun _ => L := h.slow L (l := .blocks) trivial

theorem beginOp : P L beginOp fun _ => L :=
  h.lock trivial <| h.bind (h.slow L (l := .beginOp) trivial) fun _ => h.release L trivial

theorem endOp : P L endOp fun _ => L := by
  refine h.lock trivial <| h.look (h.low trivial) fun l => ?_
  split
  · exact h.panic _ _ trivial
  · refine h.store (h.low trivial) <| ?_
    split
    · exact h.unlock trivial <| h.bind h.blocks fun _ => h.endCommit
    · exact h.wake <| h.release L trivial

theorem uartputc (c : UInt8) : P L (uartputc c) fun _ => L :=
  h.lock trivial <| h.slow L (l := .uartputc c) trivial

theorem consolewriteFrom (todo k : Nat) : P L (consolewriteFrom todo k) fun _ => L := by
  induction todo generalizing k with
  | zero => exact h.pure k
  | succ todo ih =>
    refine h.bind h.copyinByte fun c => ?_
    cases c with
    | none => exact h.pure k
    | some c => exact h.bind (h.uartputc c) fun _ => ih (k + 1)

theorem consolewrite (m : Nat) : P L (consolewrite m) fun _ => L :=
  h.lock trivial <| h.bind (h.consolewriteFrom m 0) fun _ => h.unlock trivial <| h.pure _

theorem giveUp {l : Loop n} (hl : l.Slow) {f : LoopAns l → K n β} {post : β → List (Lock n)}
    (hf : ∀ a, P (if l.keeps a then l.lock.toList ++ L else L) (f a) post) :
    P (l.lock.toList ++ L) (run (.loop l) >>= f) post :=
  h.bind (h.slow L hl) hf

theorem consolereadFrom (target m : Nat) :
    P (.cons :: L) (consolereadFrom target m) fun a => if a.isSome then .cons :: L else L := by
  induction m with
  | zero => exact h.give (some target) rfl
  | succ m ih =>
    refine h.giveUp (l := .consEmpty) trivial fun b => ?_
    cases b with
    | false => exact h.give none rfl
    | true =>
      refine h.look (L := .cons :: L) (h.low trivial) fun s => ?_
      dsimp only
      split
      · exact h.store (h.low trivial) <| h.give (some _) rfl
      · refine h.store (h.low trivial) <| h.bind h.works fun b => ?_
        split
        · split
          · exact h.give (some _) rfl
          · exact ih
        · exact h.give (some _) rfl

theorem consoleread (m : Nat) : P L (consoleread m) fun _ => L := by
  refine h.lock trivial <| h.bind (h.consolereadFrom m m) fun a => ?_
  cases a with
  | none => exact h.pure failed
  | some k => exact h.unlock trivial <| h.pure _

theorem sysSleep (m : Nat) : P L (sysSleep m) fun _ => L := by
  refine h.lock trivial <| h.look (h.low trivial) fun t => ?_
  refine h.giveUp (l := .ticks t m) trivial fun b => ?_
  cases b with
  | false => exact h.pure failed
  | true => exact h.unlock trivial <| h.pure _

theorem sysUptime : P L sysUptime fun _ => L :=
  h.lock trivial <| h.look (h.low trivial) fun _ => h.unlock trivial <| h.pure _

/-! ## Pipes -/

section

variable (hp : ∀ {o}, o.Pip → O o)

include hp

theorem pipewriteFrom (i todo k : Nat) : P (.pipe i :: L) (pipewriteFrom i todo k) fun _ => L := by
  induction todo generalizing k with
  | zero =>
    exact h.wake <| h.unlock trivial <| h.pure _
  | succ todo ih =>
    refine h.giveUp (l := .pipeFull i) trivial fun b => ?_
    cases b with
    | false => exact h.pure failed
    | true =>
      refine h.bind h.copyinByte fun c => ?_
      cases c with
      | none =>
        exact h.wake <| h.unlock trivial <| h.pure _
      | some c =>
        exact h.look (hp trivial) fun _ => h.store (hp trivial) <| ih (k + 1)

theorem pipewrite (i m : Nat) : P L (pipewrite i m) fun _ => L :=
  h.lock trivial <| h.pipewriteFrom hp i m 0

theorem pipereadFrom (i todo k : Nat) : P L (pipereadFrom i todo k) fun _ => L := by
  induction todo generalizing k with
  | zero => exact h.pure k
  | succ todo ih =>
    refine h.look (hp trivial) fun pi => ?_
    split
    · exact h.pure k
    · refine h.store (hp trivial) <| h.bind h.works fun b => ?_
      split
      · exact ih (k + 1)
      · exact h.pure k

theorem piperead (i m : Nat) : P L (piperead i m) fun _ => L := by
  refine h.lock trivial <| h.giveUp (l := .pipeEmpty i) trivial fun b => ?_
  cases b with
  | false => exact h.pure failed
  | true =>
    exact h.bind (h.pipereadFrom hp i m 0) fun _ => h.wake <| h.unlock trivial <| h.pure _

end

/-! ## Inodes -/

section

variable (hi : ∀ {o}, o.Ino → O o)

include hi

theorem ilock (i : Nat) : P L (ilock i) fun _ => L := by
  refine h.look (hi trivial) fun _ => h.bind (h.check _ trivial) fun _ =>
    h.bind (h.acquiresleep (hi trivial)) fun _ => h.look (hi trivial) fun ip => ?_
  split
  · exact h.pure ()
  · exact h.bind h.blocks fun _ => h.store (hi trivial) <| h.check _ trivial

theorem iputTest (i : Nat) : P L (iputTest i) fun _ => L := by
  refine h.lock trivial <| h.look (hi trivial) fun ref => h.look (hi trivial) fun ip => ?_
  split
  · exact h.bind (h.acquiresleep (hi trivial)) fun _ => h.unlock trivial <| h.pure true
  · exact h.store (hi trivial) <| h.unlock trivial <| h.pure false

theorem ifree (i : Nat) : P L (ifree i) fun _ => L :=
  h.bind h.blocks fun _ => h.look (hi trivial) fun _ =>
    h.store (hi trivial) <| h.releasesleep (hi trivial)

theorem iput (i : Nat) : P L (iput i) fun _ => L := by
  refine h.bind (h.iputTest hi i) fun b => ?_
  split
  · exact h.bind (h.ifree hi i) fun _ => h.iputDrop hi i
  · exact h.pure ()

theorem setNode (i : Nat) (f : Dir.Node → Dir.Node) : P L (setNode i f) fun _ => L :=
  h.bind h.blocks fun _ => h.look (hi trivial) fun _ => h.put _ _ (hi trivial)

section

variable (ho : ∀ i, P L (openFile i) fun _ => L)

include ho

/-- The commands of the directory layer, but for the one that opens a file. -/
theorem dirCmd {c : Dir.Cmd} : P L (dirCmd c) fun _ => L := by
  cases c with
  | iget i => exact h.iget hi i
  | idupCwd =>
    refine h.bind h.myproc fun p => h.look (hi trivial) fun o => ?_
    cases o with
    | none => exact h.panic _ _ trivial
    | some i => exact h.bind (h.idup hi i) fun _ => h.pure i
  | ilock i => exact h.ilock hi i
  | kind i | nlinkBad i => exact h.look (hi trivial) fun _ => h.pure _
  | iunlock i => exact h.iunlock hi i
  | iputTest i => exact h.iputTest hi i
  | ifree i => exact h.ifree hi i
  | iputDrop i => exact h.iputDrop hi i
  | dirlookup d name =>
    refine h.bind h.blocks fun _ => h.look (hi trivial) fun dp =>
      h.bind (h.check _ trivial) fun _ => ?_
    cases Dir.lookup dp.node.ents name with
    | none => exact h.pure none
    | some r => exact h.bind (h.iget hi r.1) fun _ => h.pure (some r)
  | dirwrite d name i =>
    exact h.setNode hi d fun nd => { nd with ents := Dir.insert nd.ents ⟨i, name⟩ }
  | direrase d off i => exact h.setNode hi d fun nd => { nd with ents := nd.ents.set off ⟨0, []⟩ }
  | nlinkInit i => exact h.setNode hi i fun nd => { nd with nlink := 1 }
  | nlinkInc i => exact h.setNode hi i fun nd => { nd with nlink := (nd.nlink + 1) % 2 ^ 16 }
  | nlinkDec i =>
    exact h.setNode hi i fun nd => { nd with nlink := (nd.nlink + 2 ^ 16 - 1) % 2 ^ 16 }
  | isdirempty d => exact h.bind h.blocks fun _ => h.look (hi trivial) fun _ => h.pure _
  | ialloc kind =>
    exact h.bind h.blocks fun _ => h.bind (h.ask L) fun _ =>
      h.bind (h.acquiresleep (h.low trivial)) fun _ => h.look (hi trivial) fun _ =>
        h.bind (h.check _ trivial) fun _ => h.store (hi trivial) <|
          h.bind (h.releasesleep (h.low trivial)) fun _ => h.pure _
  | takeCwd | setCwd i =>
    refine h.bind h.myproc fun p => h.look (hi trivial) fun o => ?_
    cases o with
    | none => exact h.panic _ _ trivial
    | some i => exact h.store (hi trivial) <| h.pure i
  | openFile i => exact ho i
  | takeFile k => exact h.pure none
  | panic m => exact h.panic _ _ trivial

theorem interp (k : Dir.K α) : P L (Code.interp Kernel.dirCmd k) fun _ => L := by
  induction k with
  | ret a => exact h.pure a
  | cmd c k ih => exact h.bind (h.dirCmd hi ho) fun r => ih r

theorem pathCall (c : PathCall) : P L (pathCall c) fun _ => L := by
  refine h.bind h.beginOp fun _ => h.bind (h.interp hi ho c.code) fun _ =>
    h.bind h.endOp fun _ => h.bind h.works fun b => ?_
  split <;> exact h.pure _

end

theorem filewriteFrom (i rounds : Nat) : P L (filewriteFrom i rounds) fun _ => L := by
  induction rounds with
  | zero => exact h.pure 0
  | succ rounds ih =>
    refine h.bind h.beginOp fun _ => h.bind (h.ilock hi i) fun _ => h.bind h.blocks fun _ =>
      h.bind (h.iunlock hi i) fun _ => h.bind h.endOp fun _ => h.bind h.works fun b => ?_
    split
    · exact ih
    · exact h.pure failed

/-- What is done with the last reference to an inode or a device. -/
theorem closeInode (i : Nat) :
    P L (Kernel.beginOp >>= fun _ => Kernel.iput i >>= fun _ => Kernel.endOp) fun _ => L :=
  h.bind h.beginOp fun _ => h.bind (h.iput hi i) fun _ => h.endOp

end

/-! ## Files -/

section

variable (hi : ∀ {o}, o.Ino → O o) (hf : ∀ {o}, o.Fil → O o) (hp : ∀ {o}, o.Pip → O o)

include hi hf hp

theorem fileclose (f : Nat) : P L (fileclose f) fun _ => L := by
  refine h.lock trivial <| h.look (hf trivial) fun ref =>
    h.bind (h.check _ trivial) fun _ => h.store (hf trivial) <| ?_
  split
  · exact h.release L trivial
  · refine h.look (hf trivial) fun ff => h.store (hf trivial) <| h.unlock trivial <| ?_
    rw [closeLast]
    split
    · exact h.pure ()
    · exact h.pipeclose hp _ _
    · exact h.closeInode hi _
    · exact h.closeInode hi _

theorem openFile (i : Nat) : P L (openFile i) fun _ => L := by
  refine h.look (hi trivial) fun ip => h.choose h.works (h.pure true) fun ok => ?_
  split
  · refine h.bind (h.filealloc hf) fun f => ?_
    cases f with
    | none => exact h.pure false
    | some f =>
      refine h.bind (h.fdalloc hf f) fun fd => ?_
      cases fd with
      | none => exact h.bind (h.fileclose hi hf hp f) fun _ => h.pure false
      | some fd =>
        exact h.bind h.works fun _ => h.bind h.works fun _ =>
          h.store (hf trivial) <| h.bind (h.iunlock hi i) fun _ => h.pure true
  · exact h.pure false

theorem fileread (f m : Nat) : P L (fileread f m) fun _ => L := by
  refine h.look (hf trivial) fun file => ?_
  split
  · split
    · exact h.piperead hp _ m
    · exact h.consoleread m
    · exact h.bind (h.ilock hi _) fun _ => h.bind h.blocks fun _ => h.bind (h.iunlock hi _) fun _ =>
        h.pure _
    · exact h.pure failed
  · exact h.pure failed

theorem filewrite (f m : Nat) : P L (filewrite f m) fun _ => L := by
  refine h.look (hf trivial) fun file => ?_
  split
  · split
    · exact h.pipewrite hp _ m
    · exact h.consolewrite m
    · exact h.filewriteFrom hi _ m
    · exact h.pure failed
  · exact h.pure failed

omit hp in
theorem filestat (f : Nat) : P L (filestat f) fun _ => L := by
  have hstat : ∀ i, P L (do
      Kernel.ilock i
      Kernel.iunlock i
      if ← copyout then Pure.pure 0 else Pure.pure failed) fun _ => L := fun i => by
    refine h.bind (h.ilock hi i) fun _ => h.bind (h.iunlock hi i) fun _ =>
      h.bind h.works fun b => ?_
    split <;> exact h.pure _
  refine h.look (hf trivial) fun file => ?_
  split
  · exact hstat _
  · exact hstat _
  · exact h.pure failed

theorem pipealloc : P L pipealloc fun _ => L := by
  refine h.bind (h.filealloc hf) fun f0 => ?_
  cases f0 with
  | none => exact h.pure none
  | some f0 =>
    refine h.bind (h.filealloc hf) fun f1 => ?_
    cases f1 with
    | none => exact h.bind (h.fileclose hi hf hp f0) fun _ => h.pure none
    | some f1 =>
      refine h.bind (h.newPipe hp) fun i => ?_
      cases i with
      | none =>
        exact h.bind (h.fileclose hi hf hp f0) fun _ => h.bind (h.fileclose hi hf hp f1) fun _ =>
          h.pure none
      | some i =>
        exact h.look (hp trivial) fun _ => h.store (hp trivial) <|
          h.store (hf trivial) <| h.store (hf trivial) <| h.pure _

theorem pipeBad (rf wf : Nat) : P L (pipeBad rf wf) fun _ => L :=
  h.bind (h.fileclose hi hf hp rf) fun _ => h.bind (h.fileclose hi hf hp wf) fun _ => h.pure failed

theorem sysPipe : P L sysPipe fun _ => L := by
  refine h.bind (h.pipealloc hi hf hp) fun r => ?_
  rcases r with - | ⟨rf, wf⟩
  · exact h.pure failed
  · refine h.bind (h.fdalloc hf rf) fun fd0 => ?_
    cases fd0 with
    | none => exact h.pipeBad hi hf hp rf wf
    | some fd0 =>
      refine h.bind (h.fdalloc hf wf) fun fd1 => ?_
      cases fd1 with
      | none => exact h.bind (h.clearFd hf fd0) fun _ => h.pipeBad hi hf hp rf wf
      | some fd1 =>
        refine h.bind h.works fun b => ?_
        split
        · exact h.pure 0
        · exact h.bind (h.clearFd hf fd0) fun _ => h.bind (h.clearFd hf fd1) fun _ =>
            h.pipeBad hi hf hp rf wf

omit hi hp in
theorem sysDup (fd : Nat) : P L (sysDup fd) fun _ => L := by
  refine h.bind (h.argfd hf fd) fun f => ?_
  cases f with
  | none => exact h.pure failed
  | some f =>
    refine h.bind (h.fdalloc hf f) fun fd' => ?_
    cases fd' with
    | none => exact h.pure failed
    | some fd' => exact h.bind (h.filedup hf f) fun _ => h.pure _

theorem sysClose (fd : Nat) : P L (sysClose fd) fun _ => L := by
  refine h.bind (h.argfd hf fd) fun f => ?_
  cases f with
  | none => exact h.pure failed
  | some f =>
    exact h.bind (h.clearFd hf fd) fun _ => h.bind (h.fileclose hi hf hp f) fun _ => h.pure 0

omit hi hp in
theorem onFile (fd : Nat) {call : Nat → K n Int} (hc : ∀ f, P L (call f) fun _ => L) :
    P L (onFile fd call) fun _ => L := by
  refine h.bind (h.argfd hf fd) fun f => ?_
  cases f with
  | none => exact h.pure failed
  | some f => exact hc f

theorem exitFiles (p : Fin n) (fds : List Nat) : P L (exitFiles p fds) fun _ => L := by
  induction fds with
  | nil => exact h.pure ()
  | cons fd fds ih =>
    refine h.look (hf trivial) fun of => ?_
    cases of fd with
    | some f =>
      exact h.bind (h.fileclose hi hf hp f) fun _ => h.look (hf trivial) fun _ =>
        h.store (hf trivial) <| ih
    | none => exact h.bind (h.pure ()) fun _ => ih

/-- All system calls, if those of `proc.c` keep the rule. -/
theorem syscall (init : Fin n) (c : Syscall) (hfork : c = .fork → P L Kernel.fork fun _ => L)
    (hexit : ∀ status, c = .exit status → P L (Kernel.exit init status : K n Int) fun _ => L)
    (hwait : ∀ addr, c = .wait addr → P L (Kernel.wait addr) fun _ => L)
    (hkill : ∀ pid, c = .kill pid → P L (Kernel.kill pid) fun _ => L) :
    P L (c.code init) fun _ => L := by
  cases c with
  | fork => exact hfork rfl
  | exit status => exact hexit status rfl
  | wait addr => exact hwait addr rfl
  | kill pid => exact hkill pid rfl
  | sleep m => exact h.sysSleep m
  | uptime => exact h.sysUptime
  | pipe => exact h.sysPipe hi hf hp
  | read fd m => exact h.onFile hf fd fun f => h.fileread hi hf hp f m
  | write fd m => exact h.onFile hf fd fun f => h.filewrite hi hf hp f m
  | fstat fd => exact h.onFile hf fd fun f => h.filestat hi hf f
  | dup fd => exact h.sysDup hf fd
  | close fd => exact h.sysClose hi hf hp fd
  | path c => exact h.pathCall hi (fun i => h.openFile hi hf hp i) c

end

/-! ## The bodies of the loops -/

/-- The loops that do not test `p->killed`. -/
theorem slowBody {l : Loop n} (hl : l.Slow) (ht : ¬ l.Tests)
    (hk : ∀ k, l = .acquiresleep k → O (.slk k)) :
    P (l.lock.toList ++ L) l.body fun a => if l.keeps a then l.lock.toList ++ L else L := by
  cases l with
  | acquiresleep k =>
    refine h.look (hk k rfl) fun lk => ?_
    split
    · exact h.bind (h.sleep L _ trivial id) fun _ => h.slow L (l := .acquiresleep k) trivial
    · exact h.give () rfl
  | beginOp =>
    refine h.look (h.low trivial) fun l => ?_
    cases l.beginOp with
    | none => exact h.bind (h.sleep L _ trivial id) fun _ => h.slow L (l := .beginOp) trivial
    | some l' => exact h.put (.log :: L) (o := .log) l' (h.low trivial)
  | uartputc c =>
    refine h.look (h.low trivial) fun u => ?_
    split
    · exact h.bind (h.sleep L _ trivial id) fun _ => h.slow L (l := .uartputc c) trivial
    · exact h.store (h.low trivial) <| h.bind (h.quick _ trivial) fun _ => h.release L trivial
  | allocDescs =>
    refine h.look (h.low trivial) fun v => ?_
    cases v.alloc3 with
    | none =>
      exact h.bind (h.wakeFree _) fun _ => h.bind (h.sleep L _ trivial id) fun _ =>
        h.slow L (l := .allocDescs) trivial
    | some v' => exact h.put (.disk :: L) (o := .disk) v' (h.low trivial)
  | diskBusy b =>
    refine h.look (h.low trivial) fun v => ?_
    split
    · exact h.bind (h.sleep L _ trivial id) fun _ => h.slow L (l := .diskBusy b) trivial
    · exact h.give () rfl
  | blocks =>
    refine h.bind (h.ask _) fun o => ?_
    cases o with
    | zero => exact h.give () rfl
    | succ b => exact h.bind (h.blockAccess b) fun _ => h.blocks
  | pipeFull i | pipeEmpty i | consEmpty | ticks t m | wait p addr => exact absurd trivial ht
  | scheduler | uartstart | uartintr | diskIntr => nomatch hl

/-- The loops that test it, where the test needs no particular attention. -/
theorem testBody {l : Loop n} (hl : l.Slow) (ht : l.Tests) (hp : ∀ {o}, o.Pip → O o)
    (hk : ∀ L p, P L (run (.killed p)) fun _ => L)
    (hs : ∀ L ch {lk}, lk.Simple → P (lk :: L) (Kernel.sleep ch lk) fun _ => lk :: L) :
    P (l.lock.toList ++ L) l.body fun a => if l.keeps a then l.lock.toList ++ L else L := by
  cases l with
  | pipeFull i =>
    refine h.look (hp trivial) fun pi => ?_
    split
    · refine h.bind h.myproc fun p => h.choose (hk _ p) (h.pure true) fun stop => ?_
      split
      · exact h.unlock trivial <| h.give false rfl
      · exact h.wake <| h.bind (hs L _ trivial) fun _ =>
          h.slow L (l := .pipeFull i) trivial
    · exact h.give true rfl
  | pipeEmpty i =>
    refine h.look (hp trivial) fun pi => ?_
    split
    · refine h.bind h.myproc fun p => h.bind (hk _ p) fun stop => ?_
      split
      · exact h.unlock trivial <| h.give false rfl
      · exact h.bind (hs L _ trivial) fun _ => h.slow L (l := .pipeEmpty i) trivial
    · exact h.give true rfl
  | consEmpty =>
    refine h.look (h.low trivial) fun s => ?_
    split
    · refine h.bind h.myproc fun p => h.bind (hk _ p) fun stop => ?_
      split
      · exact h.unlock trivial <| h.give false rfl
      · exact h.bind (hs L _ trivial) fun _ => h.slow L (l := .consEmpty) trivial
    · exact h.give true rfl
  | ticks t m =>
    refine h.look (h.low trivial) fun now => ?_
    split
    · refine h.bind h.myproc fun p => h.bind (hk _ p) fun stop => ?_
      split
      · exact h.unlock trivial <| h.give false rfl
      · exact h.bind (hs L _ trivial) fun _ => h.slow L (l := .ticks t m) trivial
    · exact h.give true rfl
  | wait p addr | scheduler | uartstart | uartintr | diskIntr => nomatch hl
  | _ => nomatch ht

end Walk

end

end Xv6.Kernel
