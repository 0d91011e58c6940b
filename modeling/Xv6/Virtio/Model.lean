import Xv6.Lib.Fifo
import Xv6.Lib.System

/-!
# The disk driver: `kernel/virtio_disk.c`

Threads that are in `virtio_disk_rw` or in `virtio_disk_intr`, and the device.  What a thread does
between two points at which the device can see the difference is one step; the points are the
publication of a request in the `avail` ring and the test for new entries in the `used` ring.  All
of it happens under `vdisk_lock`, except that `sleep` gives up the lock.

* The device fetches published requests in order and completes them in any order, each once; the
  chain head goes to the `used` ring.  It may report any status.
* A sleeping thread may be woken for other reasons at any time, as `kill` does.
* A thread calls `virtio_disk_rw` for a buffer whose sleep-lock it holds (`bread` and `bwrite`), so
  no two threads are there with the same buffer.

Ring indices are 16 bits wide and wrap; the driver's own `used_idx` counts modulo `NUM`.
-/

open Lts

namespace Xv6.Virtio

open Function (update)

/-- `NUM` -/
def num : Nat := 8

/-- The indices in the rings are `uint16`. -/
def idxSize : Nat := 65536

/-- What the address in a descriptor refers to: `buf0` on the stack of the caller, the data of a
buffer, or `disk.info[i].status`. -/
inductive Addr (B : Type) where
  | null
  | header (type : Nat) (sector : UInt64)
  | data (b : B)
  | status (i : Nat)

/-- `struct VRingDesc` -/
structure Desc (B : Type) where
  addr : Addr B
  len : Nat
  flags : UInt16
  next : Nat

/-- `VRING_DESC_F_NEXT` and `VRING_DESC_F_WRITE` -/
def descNext : UInt16 := 1
def descWrite : UInt16 := 2

/-- A call of `virtio_disk_rw`: the buffer, its block number and the direction. -/
structure Req (B : Type) where
  b : B
  blockno : UInt32
  write : Bool
  deriving DecidableEq

/-- `int idx[3]` -/
structure Idx where
  i0 : Nat
  i1 : Nat
  i2 : Nat
  deriving DecidableEq

/-- The descriptors of a chain. -/
def Idx.list (x : Idx) : List Nat := [x.i0, x.i1, x.i2]

/-- Where a thread is. -/
inductive Pc (B : Type) where
  | idle
  /-- Before `acquire` in `virtio_disk_rw`. -/
  | rwAcquire (r : Req B)
  /-- At `alloc3_desc`. -/
  | rwAlloc (r : Req B)
  /-- Asleep on `&disk.free[0]`. -/
  | sleepFree (r : Req B)
  /-- Woken, before taking the lock again. -/
  | wokenFree (r : Req B)
  /-- About to format the descriptors. -/
  | rwFill (r : Req B) (idx : Idx)
  /-- About to increment `avail[1]`. -/
  | rwPublish (r : Req B) (idx : Idx)
  /-- At `while (b->disk == 1)`. -/
  | rwTest (r : Req B) (idx : Idx)
  /-- Asleep on the buffer. -/
  | sleepBuf (r : Req B) (idx : Idx)
  /-- Woken, before taking the lock again. -/
  | wokenBuf (r : Req B) (idx : Idx)
  /-- At `disk.info[idx[0]].b = 0`. -/
  | rwFree (r : Req B) (idx : Idx)
  | rwRelease
  /-- Before `acquire` in `virtio_disk_intr`. -/
  | intrAcquire
  /-- At the condition of the loop. -/
  | intrTest
  /-- In the loop. -/
  | intrBody
  /-- After the loop. -/
  | intrAck
  deriving DecidableEq

/-- A thread, or the same thread woken from its sleep for the buffer. -/
def Pc.wakeBuf {B : Type} [DecidableEq B] (b : B) : Pc B → Pc B
  | .sleepBuf r x => if r.b = b then .wokenBuf r x else .sleepBuf r x
  | c => c

/-- What stops the kernel. -/
inductive Stop where
  /-- `panic("virtio_disk_intr 1")` -/
  | descRange
  /-- `panic("virtio_disk_intr 2")` -/
  | descFree
  /-- `panic("virtio_disk_intr status")` -/
  | status
  /-- `disk.info[id].b` is null. -/
  | nullBuf
  /-- `free_chain` does not end. -/
  | endless
  deriving DecidableEq

/-- `disk`, the flags `b->disk`, the threads and the device. -/
structure State (T B : Type) where
  desc : Nat → Desc B
  free : Nat → Bool
  /-- `avail[2..]`, with `avail[1]` as the counter of the driver and that of the device. -/
  avail : Fifo Nat
  /-- `used->elems`, with `used->id` as the counter of the device.  The other counter, of the
  entries that `virtio_disk_intr` has handled, is kept for the statements; the driver has `usedIdx`.
  -/
  used : Fifo Nat
  usedIdx : Nat
  /-- `disk.info[i].b` -/
  info : Nat → Option B
  /-- `disk.info[i].status` -/
  status : Nat → UInt8
  /-- `b->disk == 1` -/
  flag : B → Bool
  lock : Option T
  pc : T → Pc B
  /-- The requests that the device has fetched and not completed. -/
  pending : List Nat
  stopped : Option Stop
  /-- History: the buffers of the requests in the order in which the device has completed them. -/
  completed : List B
  /-- History: the buffers whose flags `virtio_disk_intr` has cleared. -/
  cleared : List B

namespace State

variable {T B : Type} [DecidableEq T] [DecidableEq B]

/-! ## Descriptors -/

/-- `alloc_desc()` -/
def allocDesc (s : State T B) : Option (Nat × State T B) :=
  ((List.range num).find? s.free).map fun i => (i, { s with free := update s.free i false })

/-- `wakeup(&disk.free[0])` -/
def wakeFree (s : State T B) : State T B :=
  { s with
    pc := fun t => match s.pc t with
      | .sleepFree r => .wokenFree r
      | c => c }

/-- `free_desc(i)` -/
def freeDesc (s : State T B) (i : Nat) : Except Stop (State T B) :=
  if num ≤ i then .error .descRange
  else if s.free i then .error .descFree
  else .ok { s with
    desc := update s.desc i { s.desc i with addr := .null }
    free := update s.free i true }.wakeFree

/-- `free_chain(i)` -/
def freeChain : (fuel : Nat) → State T B → Nat → Except Stop (State T B)
  | 0, _, _ => .error .endless
  | fuel + 1, s, i => do
    let s ← s.freeDesc i
    if (s.desc i).flags &&& descNext ≠ 0 then freeChain fuel s (s.desc i).next else pure s

/-- `alloc3_desc(idx)` -/
def alloc3Desc (s : State T B) : Except Stop (Option Idx × State T B) :=
  match s.allocDesc with
  | none => pure (none, s)
  | some (i0, s) =>
    match s.allocDesc with
    | none => do
      let s ← s.freeDesc i0
      pure (none, s)
    | some (i1, s) =>
      match s.allocDesc with
      | none => do
        let s ← s.freeDesc i0
        let s ← s.freeDesc i1
        pure (none, s)
      | some (i2, s) => pure (some ⟨i0, i1, i2⟩, s)

/-! ## `virtio_disk_rw` -/

/-- The three descriptors of a request. -/
def header (r : Req B) (idx : Idx) : Desc B where
  addr := .header (if r.write then 1 else 0) (r.blockno * 2).toUInt64
  len := 16
  flags := descNext
  next := idx.i1

def data (r : Req B) (idx : Idx) : Desc B where
  addr := .data r.b
  len := 1024
  flags := (if r.write then 0 else descWrite) ||| descNext
  next := idx.i2

def result (idx : Idx) : Desc B where
  addr := .status idx.i0
  len := 1
  flags := descWrite
  next := 0

/-- From `format the three descriptors` to the entry in the `avail` ring. -/
def fill (s : State T B) (r : Req B) (idx : Idx) : State T B :=
  { s with
    desc := update (update (update s.desc idx.i0 (header r idx))
      idx.i1 (data r idx)) idx.i2 (result idx)
    status := update s.status idx.i0 0
    flag := update s.flag r.b true
    info := update s.info idx.i0 (some r.b)
    avail := { s.avail with data := update s.avail.data (s.avail.nwrite % num) idx.i0 } }

/-- `disk.avail[1] = disk.avail[1] + 1` -/
def publish (s : State T B) : State T B :=
  { s with avail := { s.avail with nwrite := (s.avail.nwrite + 1) % idxSize } }

/-- `wakeup(b)` -/
def wakeBuf (s : State T B) (b : B) : State T B := { s with pc := fun t => (s.pc t).wakeBuf b }

/-! ## Steps -/

/-- A thread goes on elsewhere. -/
def goto (s : State T B) (t : T) (c : Pc B) : State T B := { s with pc := update s.pc t c }

/-- `acquire(&disk.vdisk_lock)` -/
def acquire (s : State T B) (t : T) (c : Pc B) : Option (State T B) :=
  match s.lock with
  | none => some ({ s with lock := some t }.goto t c)
  | some _ => none

/-- `release(&disk.vdisk_lock)`, also the one inside `sleep` -/
def release (s : State T B) (t : T) (c : Pc B) : State T B := { s with lock := none }.goto t c

/-- The body of the loop of `virtio_disk_intr`. -/
def intrBody (s : State T B) (t : T) : State T B :=
  let id := s.used.data s.usedIdx
  if s.status id ≠ 0 then { s with stopped := some .status }
  else
    match s.info id with
    | none => { s with stopped := some .nullBuf }
    | some b =>
      ({ s with
        flag := update s.flag b false
        usedIdx := (s.usedIdx + 1) % num
        used := (s.used.pop num idxSize).2
        cleared := s.cleared ++ [b] }.wakeBuf b).goto t .intrTest

/-- The next step of a thread. -/
def run (s : State T B) (t : T) : Option (State T B) :=
  match s.pc t with
  | .idle | .sleepFree _ | .sleepBuf _ _ => none
  | .rwAcquire r | .wokenFree r => s.acquire t (.rwAlloc r)
  | .rwAlloc r =>
    match s.alloc3Desc with
    | .error e => some { s with stopped := some e }
    | .ok (none, s) => some (s.release t (.sleepFree r))
    | .ok (some idx, s) => some (s.goto t (.rwFill r idx))
  | .rwFill r idx => some ((s.fill r idx).goto t (.rwPublish r idx))
  | .rwPublish r idx => some (s.publish.goto t (.rwTest r idx))
  | .rwTest r idx =>
    if s.flag r.b then some (s.release t (.sleepBuf r idx)) else some (s.goto t (.rwFree r idx))
  | .wokenBuf r idx => s.acquire t (.rwTest r idx)
  | .rwFree _ idx =>
    match freeChain (num + 1) { s with info := update s.info idx.i0 none } idx.i0 with
    | .error e => some { s with stopped := some e }
    | .ok s => some (s.goto t .rwRelease)
  | .rwRelease | .intrAck => some (s.release t .idle)
  | .intrAcquire => s.acquire t .intrTest
  | .intrTest =>
    if s.usedIdx % num ≠ s.used.nwrite % num then some (s.goto t .intrBody)
    else some (s.goto t .intrAck)
  | .intrBody => some (s.intrBody t)

/-- The device takes the next request from the `avail` ring. -/
def fetch (s : State T B) : Option (State T B) :=
  if s.avail.isEmpty then none
  else some { s with
    avail := (s.avail.pop num idxSize).2
    pending := s.pending ++ [(s.avail.pop num idxSize).1] }

/-- The device completes a request that it has fetched, and follows its chain to the buffer and the
place for the status. -/
def complete (s : State T B) (head : Nat) (status : UInt8) : Option (State T B) :=
  if head ∈ s.pending then
    let second := s.desc (s.desc head).next
    match second.addr, (s.desc second.next).addr with
    | .data b, .status i =>
      some { s with
        pending := s.pending.erase head
        status := update s.status i status
        used := s.used.push num idxSize head
        completed := s.completed ++ [b] }
    | _, _ => none
  else none

end State

/-- The buffer for which a thread is in `virtio_disk_rw`. -/
def Pc.buf {B : Type} : Pc B → Option B
  | .rwAcquire r | .rwAlloc r | .sleepFree r | .wokenFree r | .rwFill r _ | .rwPublish r _
  | .rwTest r _
  | .sleepBuf r _ | .wokenBuf r _ | .rwFree r _ => some r.b
  | .idle | .rwRelease | .intrAcquire | .intrTest | .intrBody | .intrAck => none

/-- What happens next. -/
inductive Action (T B : Type) where
  | rw (t : T) (r : Req B)
  | intr (t : T)
  | run (t : T)
  | fetch
  | complete (head : Nat) (status : UInt8)
  | wake (t : T)

section

variable (T B : Type) [DecidableEq T] [DecidableEq B]

/-- After `virtio_disk_init`. -/
def start : State T B where
  desc _ := ⟨.null, 0, 0, 0⟩
  free i := decide (i < num)
  avail := ⟨fun _ => 0, 0, 0⟩
  used := ⟨fun _ => 0, 0, 0⟩
  usedIdx := 0
  info _ := none
  status _ := 0
  flag _ := false
  lock := none
  pc _ := .idle
  pending := []
  stopped := none
  completed := []
  cleared := []

variable {T B}

/-- A step of the driver, of the device or of the rest of the kernel.  Nobody calls `virtio_disk_rw`
for a buffer that another thread has there. -/
def State.step [Fintype T] (s : State T B) (a : Action T B) : Option (State T B) :=
  if s.stopped ≠ none then none
  else
    match a with
    | .rw t r =>
      match s.pc t with
      | .idle => if ∀ u, (s.pc u).buf ≠ some r.b then some (s.goto t (.rwAcquire r)) else none
      | _ => none
    | .intr t =>
      match s.pc t with
      | .idle => some (s.goto t .intrAcquire)
      | _ => none
    | .run t => s.run t
    | .fetch => s.fetch
    | .complete head status => s.complete head status
    | .wake t =>
      match s.pc t with
      | .sleepFree r => some (s.goto t (.wokenFree r))
      | .sleepBuf r idx => some (s.goto t (.wokenBuf r idx))
      | _ => none

variable (T B) in
/-- The driver with the threads in `T` and the buffers in `B`. -/
def driver [Fintype T] : System (State T B) (Action T B) where
  init s := s = start T B
  step := State.step

end

end Xv6.Virtio
