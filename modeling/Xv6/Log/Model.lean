import Xv6.Block
import Xv6.Lib.System

/-!
# The log: `kernel/log.c`

The write-ahead log, together with the disk it writes and the processes that use it.

The functions of `log.c` that run with `log.lock` held are pure functions on `Log`, and the two
ways the header block is accessed are functions on its contents.  Around them `step` puts the
processes.  Each lock-protected section is one action; so is each test that `log_write` makes
*before* it takes the lock, and each disk write of `commit` and of `recover_from_log`, so that
everything else can come in between.

* A process is somewhere in `begin_op`, in an operation, in `log_write`, or in `commit`; `Pc` says
  where.  `sleep(&log, &log.lock)` and `wakeup(&log)` are the passage to `Pc.sleeping` and back.
  A process asleep can also be made runnable by `kill`.
* `State.cache b` is what `bread(b)` returns.  A block that is not in `log.lh` may be evicted at
  any time and is then read from the disk again.  The buffers of the blocks in `log.lh` are pinned:
  when they are all `NBUF` buffers, `bread` of another block panics.  In `commit()` this matters;
  elsewhere, or because of the buffers that others use meanwhile, such a panic leaves the same disk
  as a crash at that point.
* A *crash* loses everything but the disk, at any time.  Afterwards `recover_from_log` runs in the
  first process, before any other exists; it may crash again.

The caller of `log_write` has changed `b->data` under the buffer's sleep lock, which it still
holds; the model makes the new contents visible when the block is recorded, and nobody could have
looked in between.
-/

namespace Xv6

open Function (update)

/-! ## `struct log` -/

/-- `struct log`.  `lh` lists `lh.block[0], …, lh.block[lh.n - 1]`; the entries of the array from
`lh.n` on are never read before they are written. -/
structure Log where
  /-- First block of the log area, the header block. -/
  start : Nat
  /-- Number of blocks of the log area, the header block included. -/
  size : Nat
  /-- How many operations are executing. -/
  outstanding : Int
  /-- In `commit()`, please wait. -/
  committing : Bool
  /-- The block numbers of the running transaction. -/
  lh : List Nat

namespace Log

open Lts

/-- The ways the kernel stops in this file.  `overrun` is not a `panic`: it is the store to
`log.lh.block[LOGSIZE]`, past the end of the array, after which nothing is known. -/
inductive Halt where
  /-- `panic("too big a transaction")` -/
  | tooBigATransaction
  /-- `panic("log_write outside of trans")` -/
  | logWriteOutsideOfTrans
  /-- `panic("log.committing")` -/
  | logCommitting
  /-- A store past the end of `log.lh.block[]`. -/
  | overrun
  /-- `panic("bget: no buffers")` -/
  | bgetNoBuffers
  deriving DecidableEq

/-- One round of the loop of `begin_op`: `none` when it calls `sleep`. -/
def beginOp (l : Log) : Option Log :=
  if l.committing then none
  else if l.lh.length + (l.outstanding + 1) * maxOpBlocks > logSize then none
  else some { l with outstanding := l.outstanding + 1 }

/-- The first test of `log_write`. -/
def tooBig (l : Log) : Bool :=
  decide (l.lh.length ≥ logSize) || decide ((l.lh.length : Int) ≥ l.size - 1)

/-- The part of `log_write` that runs with `log.lock` held.  The loop leaves in `i` the index of
the block, or `lh.n` when it is not there. -/
def logWrite (l : Log) (b : Nat) : Except Halt Log :=
  let i := l.lh.idxOf b
  if i < l.lh.length then
    .ok { l with lh := l.lh.set i b }
  else if i < logSize then
    .ok { l with lh := l.lh ++ [b] }
  else
    .error .overrun

/-- The first locked section of `end_op`; the flag is `do_commit`. -/
def endOp (l : Log) : Except Halt (Bool × Log) :=
  let l' := { l with outstanding := l.outstanding - 1 }
  if l'.committing then .error .logCommitting
  else if l'.outstanding = 0 then .ok (true, { l' with committing := true })
  else .ok (false, l')

/-! ## The header block -/

/-- The stores of `write_head` to `hb->block[i]`, `hb->block[i + 1]`, … -/
def writeBlocks (hb : Block) (i : Nat) : List Nat → Block
  | [] => hb
  | b :: bs => writeBlocks (hb.set (4 * (i + 1)) 4 b) (i + 1) bs

/-- `write_head` on the contents of the header block.  Entries beyond `lh.n` keep what they had. -/
def writeHead (hb : Block) (lh : List Nat) : Block :=
  writeBlocks (hb.set 0 4 lh.length) 0 lh

/-- `read_head` on the contents of the header block. -/
def readHead (hb : Block) : List Nat :=
  (List.range (hb.get 0 4)).map fun i => hb.get (4 * (i + 1)) 4

/-! ## The machine -/

/-- Where `commit()` is. -/
inductive Commit where
  /-- About to test `log.lh.n > 0`. -/
  | start
  /-- In `write_log`, at the given `tail`. -/
  | writeLog (tail : Nat)
  /-- About to write the header, the real commit. -/
  | writeHead
  /-- In `install_trans`, at the given `tail`. -/
  | installTrans (tail : Nat)
  /-- About to erase the transaction from the log: `log.lh.n` is zero, the header is not. -/
  | eraseHead
  /-- `commit()` has returned; `end_op` is about to clear `log.committing`. -/
  | returned

/-- Where a process is. -/
inductive Pc where
  /-- Not in an operation. -/
  | idle
  /-- `SLEEPING` on `&log` in `begin_op`. -/
  | sleeping
  /-- Runnable in the loop of `begin_op` after a sleep. -/
  | woken
  /-- `begin_op` has returned and `end_op` has not been called. -/
  | inOp
  /-- In `log_write`, past its first test; the block number and the new contents. -/
  | logTested (b : Nat) (v : Block)
  /-- In `log_write`, past both tests, waiting for `log.lock`. -/
  | logAcquire (b : Nat) (v : Block)
  /-- In `end_op`, running `commit()`. -/
  | commit (c : Commit)

/-- Where `recover_from_log` is. -/
inductive Recovery where
  /-- About to call `read_head`. -/
  | readHead
  /-- In `install_trans`, at the given `tail`. -/
  | installTrans (tail : Nat)
  /-- About to write the empty header. -/
  | writeHead
  /-- `recover_from_log` has returned. -/
  | returned
  deriving DecidableEq

/-- What the machine as a whole is doing. -/
inductive Mode where
  /-- Booting, in `recover_from_log`. -/
  | recovering (r : Recovery)
  /-- Running processes. -/
  | running
  /-- Stopped. -/
  | halted (h : Halt)
  deriving DecidableEq

/-- The machine: the disk, the cached contents of its blocks, `struct log` and the processes. -/
structure State (P : Type) where
  /-- The disk. -/
  disk : Nat → Block
  /-- What `bread` returns. -/
  cache : Nat → Block
  /-- `struct log`. -/
  log : Log
  /-- Where each process is. -/
  pc : P → Pc
  /-- What the machine is doing. -/
  mode : Mode

/-- The actions. -/
inductive Act (P : Type) where
  /-- One locked round of `begin_op`. -/
  | beginOp (p : P)
  /-- `kill` makes a sleeping process runnable. -/
  | kill (p : P)
  /-- Call `log_write` on a block whose data has been changed, and make its first test. -/
  | logCall (p : P) (b : Nat) (v : Block)
  /-- The second test of `log_write`. -/
  | logTest (p : P)
  /-- The locked section of `log_write`. -/
  | logWrite (p : P)
  /-- The first locked section of `end_op`. -/
  | endOp (p : P)
  /-- The next step of `commit()`, or the last locked section of `end_op`. -/
  | commit (p : P)
  /-- Drop a block from the cache. -/
  | evict (b : Nat)
  /-- Power off and on again. -/
  | crash
  /-- The next step of `recover_from_log`. -/
  | recover
  /-- Start running processes. -/
  | boot

variable {P : Type} [DecidableEq P]

/-- The blocks `start, …, start + size - 1` of the disk. -/
structure Area where
  start : Nat
  size : Nat

/-- The log area. -/
def area (l : Log) : Area := ⟨l.start, l.size⟩

/-- `b` lies outside the area. -/
def Area.Home (A : Area) (b : Nat) : Prop := b < A.start ∨ A.start + A.size ≤ b

instance (A : Area) (b : Nat) : Decidable (A.Home b) := inferInstanceAs (Decidable (_ ∨ _))

/-- `bwrite`: the cached contents of a block go to the disk. -/
def bwrite (s : State P) (b : Nat) (v : Block) : State P :=
  { s with cache := update s.cache b v, disk := update s.disk b v }

/-- `wakeup(&log)` -/
def wakeup (pc : P → Pc) : P → Pc := fun p =>
  match pc p with
  | .sleeping => .woken
  | c => c

/-- The process `p` goes to `c`. -/
def State.goto (s : State P) (p : P) (c : Pc) : State P :=
  { s with pc := update s.pc p c }

/-- The kernel stops. -/
def State.halt (s : State P) (h : Halt) : State P := { s with mode := .halted h }

/-- `bread(b)`, when the blocks `pinned` have their buffers, and what comes after it. -/
def State.bread (s : State P) (pinned : List Nat) (b : Nat) (next : State P) : State P :=
  if b ∈ pinned ∨ pinned.length < nbuf then next else s.halt .bgetNoBuffers

/-- One locked round of `begin_op`. -/
def stepBeginOp (s : State P) (p : P) : State P :=
  match beginOp s.log with
  | none => s.goto p .sleeping
  | some l => { s with log := l }.goto p .inOp

/-- The locked section of `log_write`. -/
def stepLogWrite (s : State P) (p : P) (b : Nat) (v : Block) : State P :=
  match logWrite s.log b with
  | .error h => s.halt h
  | .ok l => { s with log := l, cache := update s.cache b v }.goto p .inOp

/-- The first locked section of `end_op`. -/
def stepEndOp (s : State P) (p : P) : State P :=
  match endOp s.log with
  | .error h => s.halt h
  | .ok (true, l) => { s with log := l }.goto p (.commit .start)
  | .ok (false, l) => { s with log := l, pc := wakeup s.pc }.goto p .idle

/-- The next step of `commit()`, or the last locked section of `end_op`. -/
def stepCommit (s : State P) (p : P) : Commit → State P
  | .start => s.goto p (.commit (if s.log.lh.length > 0 then .writeLog 0 else .returned))
  | .writeLog tail =>
    match s.log.lh[tail]? with
    | some b =>
      s.bread s.log.lh (s.log.start + tail + 1) <|
        (bwrite s (s.log.start + tail + 1) (s.cache b)).goto p (.commit (.writeLog (tail + 1)))
    | none => s.goto p (.commit .writeHead)
  | .writeHead =>
    s.bread s.log.lh s.log.start <|
      (bwrite s s.log.start (writeHead (s.cache s.log.start) s.log.lh)).goto p
        (.commit (.installTrans 0))
  | .installTrans tail =>
    match s.log.lh[tail]? with
    | some b =>
      -- the blocks before `tail` are unpinned
      s.bread (s.log.lh.drop tail) (s.log.start + tail + 1) <|
        (bwrite s b (s.cache (s.log.start + tail + 1))).goto p (.commit (.installTrans (tail + 1)))
    | none => { s with log := { s.log with lh := [] } }.goto p (.commit .eraseHead)
  | .eraseHead =>
    (bwrite s s.log.start (writeHead (s.cache s.log.start) s.log.lh)).goto p (.commit .returned)
  | .returned =>
    { s with log := { s.log with committing := false }, pc := wakeup s.pc }.goto p .idle

/-- The next step of `recover_from_log`. -/
def stepRecover (s : State P) : Recovery → State P
  | .readHead =>
    { s with log := { s.log with lh := readHead (s.cache s.log.start) },
             mode := .recovering (.installTrans 0) }
  | .installTrans tail =>
    match s.log.lh[tail]? with
    | some b =>
      { bwrite s b (s.cache (s.log.start + tail + 1)) with
        mode := .recovering (.installTrans (tail + 1)) }
    | none => { s with log := { s.log with lh := [] }, mode := .recovering .writeHead }
  | .writeHead =>
    { bwrite s s.log.start (writeHead (s.cache s.log.start) s.log.lh) with
      mode := .recovering .returned }
  | .returned => s

/-- A machine that has just been switched on, with the given disk and log area. -/
def powerOn (disk : Nat → Block) (start size : Nat) : State P where
  disk := disk
  cache := disk
  log := { start := start, size := size, outstanding := 0, committing := false, lh := [] }
  pc := fun _ => .idle
  mode := .recovering .readHead

/-- The step function.  A block number is a `uint`, and processes log blocks outside the log area
only. -/
def step (s : State P) : Act P → Option (State P)
  | .beginOp p =>
    match s.mode, s.pc p with
    | .running, .idle => some (stepBeginOp s p)
    | .running, .woken => some (stepBeginOp s p)
    | _, _ => none
  | .kill p =>
    match s.mode, s.pc p with
    | .running, .sleeping => some (s.goto p .woken)
    | _, _ => none
  | .logCall p b v =>
    match s.mode, s.pc p with
    | .running, .inOp =>
      if s.log.area.Home b ∧ b < 2 ^ 32 then
        some (if tooBig s.log then s.halt .tooBigATransaction else s.goto p (.logTested b v))
      else none
    | _, _ => none
  | .logTest p =>
    match s.mode, s.pc p with
    | .running, .logTested b v =>
      some (if s.log.outstanding < 1 then s.halt .logWriteOutsideOfTrans
        else s.goto p (.logAcquire b v))
    | _, _ => none
  | .logWrite p =>
    match s.mode, s.pc p with
    | .running, .logAcquire b v => some (stepLogWrite s p b v)
    | _, _ => none
  | .endOp p =>
    match s.mode, s.pc p with
    | .running, .inOp => some (stepEndOp s p)
    | _, _ => none
  | .commit p =>
    match s.mode, s.pc p with
    | .running, .commit c => some (stepCommit s p c)
    | _, _ => none
  | .evict b =>
    if b ∈ s.log.lh then none
    else some { s with cache := update s.cache b (s.disk b) }
  | .crash => some (powerOn s.disk s.log.start s.log.size)
  | .recover =>
    match s.mode with
    | .recovering r => if r = .returned then none else some (stepRecover s r)
    | _ => none
  | .boot => if s.mode = .recovering .returned then some { s with mode := .running } else none

end Log
end Xv6
