import Xv6.Bio.Code
import Xv6.Lib.Fifo

/-!
# The buffer of a pipe: `kernel/pipe.c`

`pipewrite` and `piperead` hold `pi->lock` from when they are called, or wake up, to when they
return or go to sleep.  Here such a *stretch* is one step, and any number of processes call the two
functions on one pipe in any order; what a process reads from its user memory and whether that works
is left open.  The counters `nread` and `nwrite` are 32-bit numbers that are never reset.

The bytes that have been put in and taken out so far are history variables, and so is `overwritten`,
which records whether a byte has ever been stored over one that had not been taken out.
`pipe_fifo` is the result.  When processes sleep and are woken is in `Xv6.Kernel.Callers`.
-/

namespace Xv6

/-- `PIPESIZE` -/
def pipesize : Nat := 512

/-- What a `uint` counts up to. -/
def uintSize : Nat := 2 ^ 32

/-- `struct pipe`, without its lock. -/
structure Pipe extends Fifo UInt8 where
  /-- The read end is still open. -/
  readopen : Bool
  /-- The write end is still open. -/
  writeopen : Bool

namespace Pipe

/-- The pipe that `pipealloc` makes, in memory that holds anything. -/
def alloc (data : Nat → UInt8) : Pipe :=
  { data := data, nread := 0, nwrite := 0, readopen := true, writeopen := true }

/-- `pi->nwrite == pi->nread + PIPESIZE` -/
def full (pi : Pipe) : Bool := pi.isFull pipesize uintSize

/-- `pi->nread == pi->nwrite` -/
def empty (pi : Pipe) : Bool := pi.isEmpty

/-- `pi->data[pi->nwrite++ % PIPESIZE] = ch` -/
def put (pi : Pipe) (ch : UInt8) : Pipe := { pi with toFifo := pi.push pipesize uintSize ch }

/-- `ch = pi->data[pi->nread++ % PIPESIZE]` -/
def get (pi : Pipe) : UInt8 × Pipe :=
  let r := pi.pop pipesize uintSize
  (r.1, { pi with toFifo := r.2 })

/-- The first half of `pipeclose(pi, writable)`. -/
def close (pi : Pipe) (writable : Bool) : Pipe :=
  if writable then { pi with writeopen := false } else { pi with readopen := false }

/-- `(nwrite - nread) mod 2^32` -/
def used (pi : Pipe) : Nat := pi.len uintSize

/-- The bytes that are still in the buffer. -/
def unread (pi : Pipe) : List UInt8 := pi.contents pipesize uintSize

/-- Does `pi->data[j]` hold a byte that has not been taken out? -/
def holds (pi : Pipe) (j : Nat) : Bool :=
  (List.range pi.used).any fun k => decide (pi.cell pipesize uintSize k = j)

end Pipe

namespace PipeBuffer

open Lts

/-- A pipe with its history. -/
structure Buffer where
  pipe : Pipe
  /-- The bytes put in by all writers, in order. -/
  written : List UInt8
  /-- The bytes taken out by all readers, in order. -/
  taken : List UInt8
  /-- Some byte was stored over one that had not been taken out. -/
  overwritten : Bool

def Buffer.put (b : Buffer) (ch : UInt8) : Buffer where
  pipe := b.pipe.put ch
  written := b.written ++ [ch]
  taken := b.taken
  overwritten := b.overwritten || b.pipe.holds (b.pipe.nwrite % pipesize)

def Buffer.get (b : Buffer) : Buffer :=
  { b with pipe := b.pipe.get.2, taken := b.taken ++ [b.pipe.get.1] }

/-- How a stretch ends. -/
inductive Outcome where
  /-- The call returns; `none` is -1. -/
  | returns (r : Option Nat)
  /-- `sleep(&pi->nwrite, &pi->lock)`, with `i` bytes done and `todo` to go. -/
  | sleepWrite (i todo : Nat)
  /-- `sleep(&pi->nread, &pi->lock)` -/
  | sleepRead
  deriving DecidableEq

/-- `pipewrite` from the head of its `for` loop on, with `i` bytes done and `todo` to go.  `m` is
the user memory of the process and `killed` its `p->killed`. -/
def pipewriteFrom (m : UserMem) (killed : Bool) (addr : Nat) :
    (todo i : Nat) → Buffer → Buffer × Outcome
  | 0, i, b => (b, .returns (some i))
  | todo + 1, i, b =>
    if b.pipe.full then
      if b.pipe.readopen = false ∨ killed then (b, .returns none)
      else (b, .sleepWrite i (todo + 1))
    else
      match copyin m ((addr + i) % 2 ^ 64) 1 with
      | (_, false) => (b, .returns (some i))
      | (bytes, true) => pipewriteFrom m killed addr todo (i + 1) (b.put (bytes.headD 0))

/-- The `for` loop of `piperead`.  When `copyout` fails, a byte has been taken out already. -/
def copyBytes (m : UserMem) (addr : Nat) : (todo i : Nat) → Buffer → Buffer × Nat
  | 0, i, b => (b, i)
  | todo + 1, i, b =>
    if b.pipe.empty then (b, i)
    else if (copyin m ((addr + i) % 2 ^ 64) 1).2 then copyBytes m addr todo (i + 1) b.get
    else (b.get, i)

/-- `piperead` from the head of its `while` loop on. -/
def pipereadFrom (m : UserMem) (killed : Bool) (addr n : Nat) (b : Buffer) : Buffer × Outcome :=
  if b.pipe.empty ∧ b.pipe.writeopen then
    if killed then (b, .returns none) else (b, .sleepRead)
  else
    let r := copyBytes m addr n 0 b
    (r.1, .returns (some r.2))

/-- What a process is doing. -/
inductive Thread where
  | idle
  /-- Asleep in `pipewrite`. -/
  | writing (addr i todo : Nat)
  /-- Asleep in `piperead`. -/
  | reading (addr n : Nat)

/-- A pipe and the processes that use it. -/
structure State (P : Type) where
  buffer : Buffer
  thread : P → Thread

/-- The actions.  A process that sleeps may go on at any time: it looks again. -/
inductive Act (P : Type) where
  /-- A process calls `pipewrite(pi, addr, n)`. -/
  | write (p : P) (m : UserMem) (killed : Bool) (addr n : Nat)
  /-- A process calls `piperead(pi, addr, n)`. -/
  | read (p : P) (m : UserMem) (killed : Bool) (addr n : Nat)
  /-- `sleep` returns. -/
  | resume (p : P) (m : UserMem) (killed : Bool)
  /-- Somebody calls `pipeclose(pi, writable)`. -/
  | close (writable : Bool)

variable {P : Type} [DecidableEq P]

/-- A stretch of `p` has ended. -/
def State.after (s : State P) (p : P) (addr n : Nat) (r : Buffer × Outcome) : State P where
  buffer := r.1
  thread := Function.update s.thread p
    (match r.2 with
    | .returns _ => .idle
    | .sleepWrite i todo => .writing addr i todo
    | .sleepRead => .reading addr n)

/-- One step. -/
def step (s : State P) : Act P → Option (State P)
  | .write p m killed addr n =>
    match s.thread p with
    | .idle => some (s.after p addr n (pipewriteFrom m killed addr n 0 s.buffer))
    | _ => none
  | .read p m killed addr n =>
    match s.thread p with
    | .idle => some (s.after p addr n (pipereadFrom m killed addr n s.buffer))
    | _ => none
  | .resume p m killed =>
    match s.thread p with
    | .idle => none
    | .writing addr i todo => some (s.after p addr 0 (pipewriteFrom m killed addr todo i s.buffer))
    | .reading addr n => some (s.after p addr n (pipereadFrom m killed addr n s.buffer))
  | .close writable =>
    some { s with buffer := { s.buffer with pipe := s.buffer.pipe.close writable } }

/-- The machine, from when `pipealloc` has returned. -/
def machine (P : Type) [DecidableEq P] : System (State P) (Act P) where
  init s := (∃ data, s.buffer.pipe = Pipe.alloc data) ∧ s.buffer.written = [] ∧
    s.buffer.taken = [] ∧ s.buffer.overwritten = false ∧ ∀ p, s.thread p = .idle
  step := step

/-! ## The buffer is a queue -/

theorem pipesize_dvd : pipesize ∣ uintSize := by decide

theorem pipesize_lt : pipesize < uintSize := by decide

/-- The invariant of the buffer. -/
structure Queue (b : Buffer) : Prop where
  ok : b.pipe.Ok pipesize uintSize
  intact : b.overwritten = false
  order : b.taken ++ b.pipe.unread = b.written

namespace Queue

variable {b : Buffer} {killed : Bool} {m : UserMem}

theorem put (h : Queue b) (hf : b.pipe.full = false) (ch : UInt8) : Queue (b.put ch) := by
  refine ⟨h.ok.push pipesize_lt hf ch, ?_, ?_⟩
  · have hlt := (h.ok.push_len pipesize_lt hf ch).2
    rw [Buffer.put, h.intact, Bool.false_or, Pipe.holds, List.any_eq_false]
    intro k hk
    rw [decide_eq_true_iff]
    exact h.ok.cell_ne pipesize_dvd hlt (List.mem_range.mp hk)
  · have hpush := Fifo.push_contents h.ok pipesize_dvd pipesize_lt hf ch
    change b.taken ++ (b.pipe.push pipesize uintSize ch).contents pipesize uintSize =
      b.written ++ [ch]
    rw [hpush, ← List.append_assoc]
    exact congrArg (· ++ [ch]) h.order

theorem get (h : Queue b) (he : b.pipe.empty = false) : Queue b.get := by
  refine ⟨h.ok.pop he, h.intact, ?_⟩
  have hpop := Fifo.pop_contents h.ok pipesize_dvd he
  have horder := h.order
  rw [Pipe.unread, hpop] at horder
  change (b.taken ++ [(b.pipe.pop pipesize uintSize).1]) ++
    (b.pipe.pop pipesize uintSize).2.contents pipesize uintSize = b.written
  rw [List.append_assoc]
  exact horder

theorem close (h : Queue b) (w : Bool) : Queue { b with pipe := b.pipe.close w } := by
  cases w
  · exact ⟨⟨h.ok.nread, h.ok.nwrite, h.ok.len⟩, h.intact, h.order⟩
  · exact ⟨⟨h.ok.nread, h.ok.nwrite, h.ok.len⟩, h.intact, h.order⟩

theorem pipewriteFrom {addr todo : Nat} :
    ∀ {i : Nat} {b : Buffer}, Queue b →
      Queue (PipeBuffer.pipewriteFrom m killed addr todo i b).1 := by
  induction todo with
  | zero => intro i b h; exact h
  | succ todo ih =>
    intro i b h
    rw [PipeBuffer.pipewriteFrom]
    split
    · split <;> exact h
    · rename_i hf
      split
      · exact h
      · exact ih (h.put (Bool.eq_false_iff.mpr hf) _)

theorem copyBytes {addr todo : Nat} :
    ∀ {i : Nat} {b : Buffer}, Queue b → Queue (PipeBuffer.copyBytes m addr todo i b).1 := by
  induction todo with
  | zero => intro i b h; exact h
  | succ todo ih =>
    intro i b h
    rw [PipeBuffer.copyBytes]
    split
    · exact h
    · rename_i he
      have hget := h.get (Bool.eq_false_iff.mpr he)
      split
      · exact ih hget
      · exact hget

theorem pipereadFrom {addr n : Nat} (h : Queue b) :
    Queue (PipeBuffer.pipereadFrom m killed addr n b).1 := by
  rw [PipeBuffer.pipereadFrom]
  split
  · split <;> exact h
  · exact h.copyBytes

end Queue

theorem queue_of_init {s : State P} (h : (machine P).init s) : Queue s.buffer := by
  obtain ⟨⟨data, hpipe⟩, hw, ht, ho, -⟩ := h
  have hlen : (Pipe.alloc data).used = 0 := by simp [Pipe.used, Pipe.alloc, Fifo.len]
  have hpos : 0 < uintSize := by decide
  refine ⟨?_, ho, ?_⟩
  · rw [hpipe]
    exact ⟨hpos, hpos, hlen.trans_le (Nat.zero_le _)⟩
  · rw [hpipe, hw, ht, Pipe.unread, Fifo.contents]
    change [] ++ (List.range (Pipe.alloc data).used).map _ = []
    rw [hlen]
    rfl

theorem queue_step {s s' : State P} {a : Act P} (h : Queue s.buffer) (hs : step s a = some s') :
    Queue s'.buffer := by
  cases a with
  | write p m killed addr n =>
    rw [step] at hs
    split at hs
    · cases hs
      exact h.pipewriteFrom
    · nomatch hs
  | read p m killed addr n =>
    rw [step] at hs
    split at hs
    · cases hs
      exact h.pipereadFrom
    · nomatch hs
  | resume p m killed =>
    rw [step] at hs
    split at hs
    · nomatch hs
    · cases hs
      exact h.pipewriteFrom
    · cases hs
      exact h.pipereadFrom
  | close w =>
    cases hs
    exact h.close w

/-- **A pipe is a queue**, whoever calls `pipewrite` and `piperead` on it and for however long: it
never holds more than `PIPESIZE` bytes, no byte is overwritten before it has been taken out, and the
bytes taken out, followed by those still there, are the bytes put in. -/
theorem pipe_fifo {s : State P} (h : System.Reach (machine P) System.Any s) :
    s.buffer.pipe.used ≤ pipesize ∧ s.buffer.overwritten = false ∧
      s.buffer.taken ++ s.buffer.pipe.unread = s.buffer.written := by
  have hq : Queue s.buffer :=
    h.inv (I := fun s => Queue s.buffer) (fun _ hs => queue_of_init hs)
      fun _ _ _ hq _ hs => queue_step hq hs
  exact ⟨hq.ok.len, hq.intact, hq.order⟩

/-- A new pipe that nobody uses. -/
def unused : State (Fin 2) where
  buffer := { pipe := Pipe.alloc fun _ => 0, written := [], taken := [], overwritten := false }
  thread := fun _ => .idle

/-- A page of user memory with the bytes 0, 1, 2, … -/
def countingPage : UserMem := fun va => if va = 0 then some fun j => j.toUInt8 else none

/-- One process reads before another one writes, and goes on. -/
def readFirst : List (Act (Fin 2)) :=
  [.read 0 countingPage false 0 2, .write 1 countingPage false 0 3, .resume 0 countingPage false]

theorem pipe_fifo_readFirst :
    ∃ s, (machine (Fin 2)).exec unused readFirst = some s ∧ s.buffer.taken = [0, 1] ∧
      s.buffer.taken ++ s.buffer.pipe.unread = s.buffer.written := by
  have hrun : ((machine (Fin 2)).exec unused readFirst).map (·.buffer.taken) = some [0, 1] := by
    decide +kernel
  obtain ⟨s, hs, ht⟩ := Option.map_eq_some_iff.mp hrun
  have hinit : (machine (Fin 2)).init unused := ⟨⟨_, rfl⟩, rfl, rfl, rfl, fun _ => rfl⟩
  exact ⟨s, hs, ht, (pipe_fifo (System.reach_of_exec (.init hinit) hs)).2.2⟩

end PipeBuffer
end Xv6
