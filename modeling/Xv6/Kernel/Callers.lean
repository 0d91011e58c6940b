import Xv6.Kernel.Code

/-!
# Everything that sleeps and wakes up

The callers of `sleep` and `wakeup`: sleep locks, the log, the disk, pipes, the console, the clock.
Above them the inode cache, the file table and the system calls, and at the top the handlers of
traps and interrupts.  `Loop.body` is the code of each loop.

What blocks, buffers and tables contain is the subject of other modules, which have the same
functions without the waiting: `Xv6.Bio.Code`, `Xv6.Virtio.Model`, `Xv6.Ftable.Model`,
`Xv6.Kernel.PipeBuffer` and `Xv6.Kernel.Console`.  Each is read off from the source, and no theorem
connects it with the code here.  That accesses to blocks take time is all that matters: `blocks`
stands for any number of them.  The system calls on directories are those of `Xv6.Dir.Code`, with
code in place of each of their commands.
-/

namespace Xv6
open Function (update)

namespace Kernel

variable {n : Nat}

/-- A byte of user memory, if it can be read. -/
def copyinByte : K n (Option UInt8) := do
  match ← run .ask with
  | 0 => pure none
  | v + 1 => pure (some v.toUInt8)

/-- `copyout` to user memory, or any other use of it. -/
def copyout : K n Bool := works

/-! ## `sleeplock.c` -/

/-- The loop of `acquiresleep`. -/
def acquiresleepBody (k : SleepLock) : K n Unit := do
  let lk ← run (.get (.slk k))
  if lk.locked then
    sleep (.slk k) (.slk k)
    run (.loop (.acquiresleep k))
  else pure ()

/-- `acquiresleep(lk)` -/
def acquiresleep (k : SleepLock) : K n Unit := do
  acquire (.slk k)
  run (.loop (.acquiresleep k))
  let p ← myproc
  let pid ← run (.pid p)
  run (.put (.slk k) ⟨true, pid⟩)
  release (.slk k)

/-- `releasesleep(lk)` -/
def releasesleep (k : SleepLock) : K n Unit := do
  acquire (.slk k)
  run (.put (.slk k) ⟨false, 0⟩)
  wakeup (.slk k)
  release (.slk k)

/-- `holdingsleep(lk)` -/
def holdingsleep (k : SleepLock) : K n Bool := do
  acquire (.slk k)
  let lk ← run (.get (.slk k))
  let p ← myproc
  let pid ← run (.pid p)
  release (.slk k)
  pure (lk.locked && decide (lk.pid = pid))

/-! ## `virtio_disk.c` and `bio.c` -/

/-- Take three descriptors, if there are three. -/
def Vdisk.alloc3 (v : Vdisk) : Option Vdisk :=
  if 3 ≤ v.free.count true then
    some { v with free := ((v.free.replaceF fun b => if b then some false else none).replaceF
      fun b => if b then some false else none).replaceF fun b => if b then some false else none }
  else none

/-- Give three descriptors back. -/
def Vdisk.free3 (v : Vdisk) : Vdisk :=
  { v with free := ((v.free.replaceF fun b => if b then none else some true).replaceF
      fun b => if b then none else some true).replaceF fun b => if b then none else some true }

/-- `wakeup(&disk.free[0])`, as often as `free_desc` is called. -/
def wakeFree : Nat → K n Unit
  | 0 => pure ()
  | k + 1 => do
    wakeup .free
    wakeFree k

/-- The loop of `virtio_disk_rw` that allocates descriptors.  When `alloc3_desc` fails, it frees
those it has got. -/
def allocDescsBody : K n Unit := do
  let v ← run (.get .disk)
  match v.alloc3 with
  | some v' => run (.put .disk v')
  | none =>
    wakeFree (v.free.count true)
    sleep .free .disk
    run (.loop .allocDescs)

/-- The loop of `virtio_disk_rw` that waits for the disk. -/
def diskBusyBody (b : Nat) : K n Unit := do
  let v ← run (.get .disk)
  if v.busy b then
    sleep (.buf b) .disk
    run (.loop (.diskBusy b))
  else pure ()

/-- `virtio_disk_rw(b, write)` -/
def virtioDiskRw (b : Nat) : K n Unit := do
  acquire .disk
  run (.loop .allocDescs)
  let v ← run (.get .disk)
  run (.put .disk { v with busy := update v.busy b true })
  run (.loop (.diskBusy b))
  let v ← run (.get .disk)
  run (.put .disk v.free3)
  wakeFree 3
  release .disk

/-- The loop of `virtio_disk_intr`, over the requests that are done. -/
def diskIntrBody : K n Unit := do
  match ← run .ask with
  | 0 => pure ()
  | b + 1 =>
    let v ← run (.get .disk)
    run (.put .disk { v with busy := update v.busy b false })
    wakeup (.buf b)
    run (.loop .diskIntr)

/-- `virtio_disk_intr()` -/
def virtioDiskIntr : K n Unit := do
  acquire .disk
  run (.loop .diskIntr)
  release .disk

/-- `bread`, `bwrite` and `brelse` of some buffer, with the sections of `bget` and `brelse` that
hold `bcache.lock`. -/
def blockAccess (b : Nat) : K n Unit := do
  acquire .bcache
  release .bcache
  acquiresleep (.buf b)
  if ← works then virtioDiskRw b
  if ← works then virtioDiskRw b
  releasesleep (.buf b)
  acquire .bcache
  release .bcache

/-- Any number of accesses to blocks. -/
def blocksBody : K n Unit := do
  match ← run .ask with
  | 0 => pure ()
  | b + 1 =>
    blockAccess b
    run (.loop .blocks)

/-- Read and write disk blocks. -/
def blocks : K n Unit := run (.loop .blocks)

/-! ## `log.c` -/

/-- The loop of `begin_op`. -/
def beginOpBody : K n Unit := do
  let l ← run (.get .log)
  match l.beginOp with
  | none =>
    sleep .log .log
    run (.loop .beginOp)
  | some l' => run (.put .log l')

/-- `begin_op()` -/
def beginOp : K n Unit := do
  acquire .log
  run (.loop .beginOp)
  release .log

/-- The end of `end_op`, after `commit()`. -/
def endCommit : K n Unit := do
  acquire .log
  let l ← run (.get .log)
  run (.put .log { l with committing := false })
  wakeup .log
  release .log

/-- `end_op()` -/
def endOp : K n Unit := do
  acquire .log
  let l ← run (.get .log)
  match l.endOp with
  | .error _ => panic .logCommitting
  | .ok (doCommit, l') =>
    run (.put .log l')
    if doCommit then
      release .log
      -- commit()
      blocks
      endCommit
    else
      wakeup .log
      release .log

/-! ## `pipe.c` -/

/-- The `while` loop of `pipewrite`. -/
def pipeFullBody (i : Nat) : K n Bool := do
  let pi ← run (.get (.pipe i))
  if pi.full then
    let pr ← myproc
    let stop ← if pi.readopen then run (.killed pr) else pure true
    if stop then
      release (.pipe i)
      pure false
    else
      wakeup (.nread i)
      sleep (.nwrite i) (.pipe i)
      run (.loop (.pipeFull i))
  else pure true

/-- The end of `pipewrite`, with `k` bytes written. -/
def pipewriteEnd (i k : Nat) : K n Int := do
  wakeup (.nread i)
  release (.pipe i)
  pure k

/-- The `for` loop of `pipewrite`, with `k` bytes written. -/
def pipewriteFrom (i : Nat) : (todo k : Nat) → K n Int
  | 0, k => pipewriteEnd i k
  | todo + 1, k => do
    if ← run (.loop (.pipeFull i)) then
      match ← copyinByte with
      | none => pipewriteEnd i k
      | some ch =>
        let pi ← run (.get (.pipe i))
        run (.put (.pipe i) (pi.put ch))
        pipewriteFrom i todo (k + 1)
    else pure failed

/-- `pipewrite(pi, addr, m)` -/
def pipewrite (i m : Nat) : K n Int := do
  acquire (.pipe i)
  pipewriteFrom i m 0

/-- The `while` loop of `piperead`. -/
def pipeEmptyBody (i : Nat) : K n Bool := do
  let pi ← run (.get (.pipe i))
  if pi.empty && pi.writeopen then
    let pr ← myproc
    if ← run (.killed pr) then
      release (.pipe i)
      pure false
    else
      sleep (.nread i) (.pipe i)
      run (.loop (.pipeEmpty i))
  else pure true

/-- The `for` loop of `piperead`, with `k` bytes read. -/
def pipereadFrom (i : Nat) : (todo k : Nat) → K n Nat
  | 0, k => pure k
  | todo + 1, k => do
    let pi ← run (.get (.pipe i))
    if pi.empty then pure k
    else
      run (.put (.pipe i) pi.get.2)
      if ← copyout then pipereadFrom i todo (k + 1) else pure k

/-- `piperead(pi, addr, m)` -/
def piperead (i m : Nat) : K n Int := do
  acquire (.pipe i)
  if ← run (.loop (.pipeEmpty i)) then
    let k ← pipereadFrom i m 0
    wakeup (.nwrite i)
    release (.pipe i)
    pure k
  else pure failed

/-- `pipeclose(pi, writable)` -/
def pipeclose (i : Nat) (writable : Bool) : K n Unit := do
  acquire (.pipe i)
  let pi ← run (.get (.pipe i))
  run (.put (.pipe i) (pi.close writable))
  wakeup (if writable then .nread i else .nwrite i)
  -- if both ends are closed, its page is freed now
  release (.pipe i)

/-! ## `uart.c` and `console.c` -/

/-- `UART_TX_BUF_SIZE` -/
def uartTxBufSize : Nat := 32

/-- `((uart_tx_w + 1) % UART_TX_BUF_SIZE) == uart_tx_r` -/
def Uart.full (u : Uart) : Bool := decide ((u.w + 1) % uartTxBufSize = u.r)

/-- The loop of `uartstart`. -/
def uartstartBody : K n Unit := do
  let u ← run (.get .uart)
  if u.w = u.r then pure ()
  else if ← works then
    -- the UART is idle
    run (.put .uart { u with r := (u.r + 1) % uartTxBufSize })
    wakeup .uart
    run (.loop .uartstart)
  else pure ()

/-- The loop of `uartputc`. -/
def uartputcBody (c : UInt8) : K n Unit := do
  let u ← run (.get .uart)
  if u.full then
    sleep .uart .uart
    run (.loop (.uartputc c))
  else
    run (.put .uart { u with buf := update u.buf u.w c, w := (u.w + 1) % uartTxBufSize })
    run (.loop .uartstart)
    release .uart

/-- `uartputc(c)` -/
def uartputc (c : UInt8) : K n Unit := do
  acquire .uart
  run (.loop (.uartputc c))

/-- `INPUT_BUF` -/
def inputBuf : Nat := 128

/-- `C(x)` -/
def ctrl (c : Char) : Nat := c.toNat - '@'.toNat

/-- `C('U')`: erase the line that is being typed. -/
def Cons.killLine : (fuel : Nat) → Cons → Cons
  | 0, s => s
  | fuel + 1, s =>
    if s.e ≠ s.w ∧ (s.buf ((s.e + (uintSize - 1)) % uintSize % inputBuf)).toNat ≠ '\n'.toNat then
      killLine fuel { s with e := (s.e + (uintSize - 1)) % uintSize }
    else s

/-- What `consoleintr(c)` does to the buffer, and whether it calls `wakeup(&cons.r)`. -/
def Cons.intr (s : Cons) (c : Nat) : Cons × Bool :=
  if c = ctrl 'P' then (s, false)
  else if c = ctrl 'U' then (s.killLine ((s.e + (uintSize - s.w)) % uintSize), false)
  else if c = ctrl 'H' ∨ c = 127 then
    (if s.e ≠ s.w then { s with e := (s.e + (uintSize - 1)) % uintSize } else s, false)
  else if c ≠ 0 ∧ (s.e + (uintSize - s.r)) % uintSize < inputBuf then
    let c := if c = '\r'.toNat then '\n'.toNat else c
    let e := (s.e + 1) % uintSize
    let s' := { s with buf := update s.buf (s.e % inputBuf) c.toUInt8, e := e }
    if c = '\n'.toNat ∨ c = ctrl 'D' ∨ e = (s.r + inputBuf) % uintSize then
      ({ s' with w := e }, true)
    else (s', false)
  else (s, false)

/-- `consoleintr(c)` -/
def consoleintr (c : Nat) : K n Unit := do
  acquire .cons
  let s ← run (.get .cons)
  run (.put .cons (s.intr c).1)
  if (s.intr c).2 then wakeup .cons
  release .cons

/-- The loop of `uartintr`. -/
def uartintrBody : K n Unit := do
  match ← run .ask with
  | 0 => pure ()
  | c + 1 =>
    consoleintr c
    run (.loop .uartintr)

/-- `uartintr()` -/
def uartintr : K n Unit := do
  run (.loop .uartintr)
  acquire .uart
  run (.loop .uartstart)
  release .uart

/-- The loop of `consolewrite`, with `k` bytes written. -/
def consolewriteFrom : (todo k : Nat) → K n Nat
  | 0, k => pure k
  | todo + 1, k => do
    match ← copyinByte with
    | none => pure k
    | some c =>
      uartputc c
      consolewriteFrom todo (k + 1)

/-- `consolewrite(1, src, m)` -/
def consolewrite (m : Nat) : K n Int := do
  acquire .cons
  let k ← consolewriteFrom m 0
  release .cons
  pure k

/-- The inner loop of `consoleread`. -/
def consEmptyBody : K n Bool := do
  let s ← run (.get .cons)
  if s.r = s.w then
    let p ← myproc
    if ← run (.killed p) then
      release .cons
      pure false
    else
      sleep .cons .cons
      run (.loop .consEmpty)
  else pure true

/-- The outer loop of `consoleread`, with `m` of `target` bytes to go; `none` is -1. -/
def consolereadFrom (target : Nat) : (m : Nat) → K n (Option Nat)
  | 0 => pure (some target)
  | m + 1 => do
    if ← run (.loop .consEmpty) then
      let s ← run (.get .cons)
      let c := s.buf (s.r % inputBuf)
      let r := (s.r + 1) % uintSize
      if c.toNat = ctrl 'D' then
        -- save ^D for next time unless it comes first
        run (.put .cons { s with r := if m + 1 < target then s.r else r })
        pure (some (target - (m + 1)))
      else
        run (.put .cons { s with r := r })
        if ← copyout then
          if c.toNat = '\n'.toNat then pure (some (target - m)) else consolereadFrom target m
        else pure (some (target - (m + 1)))
    else pure none

/-- `consoleread(1, dst, m)` -/
def consoleread (m : Nat) : K n Int := do
  acquire .cons
  match ← consolereadFrom m m with
  | none => pure failed
  | some k =>
    release .cons
    pure k

/-! ## The inode cache: `fs.c` -/

/-- `iget(dev, inum)` -/
def iget (i : Nat) : K n Unit := do
  acquire .icache
  let ref ← run (.get .icache)
  if 0 < ref i then
    run (.put .icache (update ref i (ref i + 1)))
  else
    -- recycle an entry, if there is one
    check (← works) .igetNoInodes
    run (.put .icache (update ref i 1))
    let ip ← run (.get (.inode i))
    run (.put (.inode i) { ip with valid := false })
  release .icache

/-- `idup(ip)` -/
def idup (i : Nat) : K n Unit := do
  acquire .icache
  let ref ← run (.get .icache)
  run (.put .icache (update ref i (ref i + 1)))
  release .icache

/-- `ilock(ip)` -/
def ilock (i : Nat) : K n Unit := do
  let ref ← run (.get .icache)
  check (decide (0 < ref i)) .ilock
  acquiresleep (.inode i)
  let ip ← run (.get (.inode i))
  if ip.valid then pure ()
  else
    blocks
    run (.put (.inode i) { ip with valid := true })
    check (decide (ip.node.kind ≠ .free)) (.dir .ilockNoType)

/-- `iunlock(ip)` -/
def iunlock (i : Nat) : K n Unit := do
  check (← holdingsleep (.inode i)) .iunlock
  let ref ← run (.get .icache)
  check (decide (0 < ref i)) .iunlock
  releasesleep (.inode i)

/-- The first locked section of `iput(ip)`, which takes the lock of an inode that is to be freed. -/
def iputTest (i : Nat) : K n Bool := do
  acquire .icache
  let ref ← run (.get .icache)
  let ip ← run (.get (.inode i))
  if ref i = 1 ∧ ip.valid ∧ ip.node.nlink = 0 then
    acquiresleep (.inode i)
    release .icache
    pure true
  else
    run (.put .icache (update ref i (ref i - 1)))
    release .icache
    pure false

/-- `itrunc(ip); ip->type = 0; iupdate(ip); ip->valid = 0; releasesleep(&ip->lock)` in `iput(ip)`.
-/
def ifree (i : Nat) : K n Unit := do
  blocks
  let ip ← run (.get (.inode i))
  run (.put (.inode i) { valid := false, node := { ip.node with kind := .free, ents := [] } })
  releasesleep (.inode i)

/-- The last locked section of `iput(ip)`. -/
def iputDrop (i : Nat) : K n Unit := do
  acquire .icache
  let ref ← run (.get .icache)
  run (.put .icache (update ref i (ref i - 1)))
  release .icache

/-- `iput(ip)` -/
def iput (i : Nat) : K n Unit := do
  if ← iputTest i then
    ifree i
    iputDrop i

/-! ## The file table: `file.c` -/

/-- `NFILE` -/
def nfile : Nat := 100

/-- `NOFILE` -/
def nofile : Nat := 16

/-- `filealloc()` -/
def filealloc : K n (Option Nat) := do
  acquire .ftable
  let ref ← run (.get .ftable)
  match (List.range nfile).find? fun f => decide (ref f = 0) with
  | some f =>
    run (.put .ftable (update ref f 1))
    release .ftable
    pure (some f)
  | none =>
    release .ftable
    pure none

/-- `filedup(f)` -/
def filedup (f : Nat) : K n Unit := do
  acquire .ftable
  let ref ← run (.get .ftable)
  check (decide (1 ≤ ref f)) .filedup
  run (.put .ftable (update ref f (ref f + 1)))
  release .ftable

/-- What `fileclose` does when the last reference is gone. -/
def closeLast (ff : File) : K n Unit :=
  match ff.kind with
  | .none => pure ()
  | .pipe i => pipeclose i ff.writable
  | .inode i | .device i => do
    beginOp
    iput i
    endOp

/-- `fileclose(f)` -/
def fileclose (f : Nat) : K n Unit := do
  acquire .ftable
  let ref ← run (.get .ftable)
  check (decide (1 ≤ ref f)) .fileclose
  run (.put .ftable (update ref f (ref f - 1)))
  if 0 < ref f - 1 then release .ftable
  else
    let ff ← run (.get (.file f))
    run (.put (.file f) { ff with kind := .none })
    release .ftable
    closeLast ff

/-- `fdalloc(f)` -/
def fdalloc (f : Nat) : K n (Option Nat) := do
  let p ← myproc
  let of ← run (.get (.ofile p))
  match (List.range nofile).find? fun fd => (of fd).isNone with
  | some fd =>
    run (.put (.ofile p) (update of fd (some f)))
    pure (some fd)
  | none => pure none

/-- `p->ofile[fd] = 0` -/
def clearFd (fd : Nat) : K n Unit := do
  let p ← myproc
  let of ← run (.get (.ofile p))
  run (.put (.ofile p) (update of fd none))

/-- Set the fields of a new file. -/
def setFile (f : Nat) (kind : FileKind) (readable writable : Bool) : K n Unit :=
  run (.put (.file f) { kind, readable, writable })

/-- `argfd(0, &fd, &f)` -/
def argfd (fd : Nat) : K n (Option Nat) := do
  let p ← myproc
  let of ← run (.get (.ofile p))
  pure (if fd < nofile then of fd else none)

/-- The loop of `filewrite` for an inode. -/
def filewriteFrom (i : Nat) : (rounds : Nat) → K n Int
  | 0 => pure 0
  | rounds + 1 => do
    beginOp
    ilock i
    blocks
    iunlock i
    endOp
    if ← works then filewriteFrom i rounds else pure failed

/-! ## Directories -/

/-- `filealloc` and `fdalloc` in `sys_open`, with the fields of the file, and `iunlock(ip)`. -/
def openFile (i : Nat) : K n Bool := do
  let ip ← run (.get (.inode i))
  let ok ← if ip.node.kind = .dev then works else pure true
  if ok then
    match ← filealloc with
    | none => pure false
    | some f =>
      match ← fdalloc f with
      | none =>
        fileclose f
        pure false
      | some _ =>
        let readable ← works
        let writable ← works
        setFile f (if ip.node.kind = .dev then .device i else .inode i) readable writable
        iunlock i
        pure true
  else pure false

/-- Change the contents of a locked inode. -/
def setNode (i : Nat) (f : Dir.Node → Dir.Node) : K n Unit := do
  blocks
  let ip ← run (.get (.inode i))
  run (.put (.inode i) { ip with node := f ip.node })

/-- The code of the commands of `Xv6.Dir.Code`. -/
def dirCmd : (c : Dir.Cmd) → K n (Dir.Ans c)
  | .iget i => iget i
  | .idupCwd => do
    let p ← myproc
    match ← run (.get (.cwd p)) with
    | some i => do
      idup i
      pure i
    | none => panic .null
  | .ilock i => ilock i
  | .kind i => do
    let ip ← run (.get (.inode i))
    pure ip.node.kind
  | .iunlock i => iunlock i
  | .iputTest i => iputTest i
  | .ifree i => ifree i
  | .iputDrop i => iputDrop i
  | .dirlookup d name => do
    blocks
    let dp ← run (.get (.inode d))
    check (decide (dp.node.kind = .dir)) (.dir .dirlookupNotDir)
    match Dir.lookup dp.node.ents name with
    | some (i, off) => do
      iget i
      pure (some (i, off))
    | none => pure none
  | .dirwrite d name i => setNode d fun nd => { nd with ents := Dir.insert nd.ents ⟨i, name⟩ }
  | .direrase d off _ => setNode d fun nd => { nd with ents := nd.ents.set off ⟨0, []⟩ }
  | .isdirempty d => do
    blocks
    let dp ← run (.get (.inode d))
    pure (Dir.isEmpty dp.node.ents)
  | .nlinkBad i => do
    let ip ← run (.get (.inode i))
    pure (decide (ip.node.nlink = 0 ∨ 2 ^ 15 ≤ ip.node.nlink))
  | .nlinkInit i => setNode i fun nd => { nd with nlink := 1 }
  | .nlinkInc i => setNode i fun nd => { nd with nlink := (nd.nlink + 1) % 2 ^ 16 }
  | .nlinkDec i => setNode i fun nd => { nd with nlink := (nd.nlink + 2 ^ 16 - 1) % 2 ^ 16 }
  | .ialloc kind => do
    blocks
    let i ← run .ask
    -- the block of the inode stays locked from the test to the store
    acquiresleep (.buf (i / 16))
    let ip ← run (.get (.inode i))
    check (decide (ip.node.kind = .free)) .iallocNoInodes
    run (.put (.inode i) { ip with node := { kind, nlink := 0, ents := [] } })
    releasesleep (.buf (i / 16))
    pure i
  | .takeCwd => do
    let p ← myproc
    match ← run (.get (.cwd p)) with
    | some i => do
      run (.put (.cwd p) none)
      pure i
    | none => panic .null
  | .setCwd i => do
    let p ← myproc
    match ← run (.get (.cwd p)) with
    | some j => do
      run (.put (.cwd p) (some i))
      pure j
    | none => panic .null
  | .openFile i => openFile i
  | .takeFile _ => pure none
  | .panic m => panic (.dir m)

/-- `exec(path, argv)`, as far as it uses the file. -/
def execFile (path : List Char) : Dir.K Unit := do
  match ← Dir.namei path with
  | none => pure ()
  | some ip =>
    Dir.ilock ip
    Dir.iunlockput ip

/-- The system calls on paths. -/
def PathCall.code : PathCall → Dir.K Unit
  | .open path creat rdonly => Dir.sysOpen path creat rdonly
  | .mkdir path => Dir.sysMake path .dir
  | .mknod path => Dir.sysMake path .dev
  | .link old new => Dir.sysLink old new
  | .unlink path => Dir.sysUnlink path
  | .chdir path => Dir.sysChdir path
  | .exec path => execFile path

/-- A system call on paths, between `begin_op` and `end_op`. -/
def pathCall (c : PathCall) : K n Int := do
  beginOp
  Code.interp dirCmd c.code
  endOp
  if ← works then pure 0 else pure failed

/-! ## System calls -/

/-- `fileread(f, addr, m)` -/
def fileread (f m : Nat) : K n Int := do
  let file ← run (.get (.file f))
  if file.readable then
    match file.kind with
    | .pipe i => piperead i m
    | .device _ => consoleread m
    | .inode i =>
      ilock i
      blocks
      iunlock i
      pure m
    | .none => pure failed
  else pure failed

/-- `filewrite(f, addr, m)` -/
def filewrite (f m : Nat) : K n Int := do
  let file ← run (.get (.file f))
  if file.writable then
    match file.kind with
    | .pipe i => pipewrite i m
    | .device _ => consolewrite m
    | .inode i => filewriteFrom i m
    | .none => pure failed
  else pure failed

/-- `filestat(f, addr)` -/
def filestat (f : Nat) : K n Int := do
  let file ← run (.get (.file f))
  match file.kind with
  | .inode i | .device i =>
    ilock i
    iunlock i
    if ← copyout then pure 0 else pure failed
  | _ => pure failed

/-- A page for a pipe. -/
def newPipe : K n (Option Nat) := do
  if ← works then
    acquire .kmem
    let i ← run (.get .npipe)
    run (.put .npipe (i + 1))
    release .kmem
    pure (some i)
  else pure none

/-- `pipealloc(&f0, &f1)` -/
def pipealloc : K n (Option (Nat × Nat)) := do
  match ← filealloc with
  | none => pure none
  | some f0 =>
    match ← filealloc with
    | none =>
      fileclose f0
      pure none
    | some f1 =>
      match ← newPipe with
      | none =>
        fileclose f0
        fileclose f1
        pure none
      | some i =>
        let pi ← run (.get (.pipe i))
        run (.put (.pipe i) (Pipe.alloc pi.data))
        setFile f0 (.pipe i) true false
        setFile f1 (.pipe i) false true
        pure (some (f0, f1))

/-- The clean-up of `sys_pipe`. -/
def pipeBad (rf wf : Nat) : K n Int := do
  fileclose rf
  fileclose wf
  pure failed

/-- `sys_pipe()` -/
def sysPipe : K n Int := do
  match ← pipealloc with
  | none => pure failed
  | some (rf, wf) =>
    match ← fdalloc rf with
    | none => pipeBad rf wf
    | some fd0 =>
      match ← fdalloc wf with
      | none =>
        clearFd fd0
        pipeBad rf wf
      | some fd1 =>
        if ← copyout then pure 0
        else
          clearFd fd0
          clearFd fd1
          pipeBad rf wf

/-- `sys_dup()` -/
def sysDup (fd : Nat) : K n Int := do
  match ← argfd fd with
  | none => pure failed
  | some f =>
    match ← fdalloc f with
    | none => pure failed
    | some fd' =>
      filedup f
      pure fd'

/-- `sys_close()` -/
def sysClose (fd : Nat) : K n Int := do
  match ← argfd fd with
  | none => pure failed
  | some f =>
    clearFd fd
    fileclose f
    pure 0

/-- The loop of `sys_sleep`. -/
def ticksBody (ticks0 m : Nat) : K n Bool := do
  let ticks ← run (.get .ticks)
  if (ticks + (uintSize - ticks0)) % uintSize < m then
    let p ← myproc
    if ← run (.killed p) then
      release .ticks
      pure false
    else
      sleep .ticks .ticks
      run (.loop (.ticks ticks0 m))
  else pure true

/-- `sys_sleep()` -/
def sysSleep (m : Nat) : K n Int := do
  acquire .ticks
  let ticks0 ← run (.get .ticks)
  if ← run (.loop (.ticks ticks0 m)) then
    release .ticks
    pure 0
  else pure failed

/-- `sys_uptime()` -/
def sysUptime : K n Int := do
  acquire .ticks
  let xticks ← run (.get .ticks)
  release .ticks
  pure xticks

/-- The loop of `fork` over the open files. -/
def forkFiles (p np : Fin n) : List Nat → K n Unit
  | [] => pure ()
  | fd :: fds => do
    let of ← run (.get (.ofile p))
    match of fd with
    | some f =>
      filedup f
      let of' ← run (.get (.ofile np))
      run (.put (.ofile np) (update of' fd (some f)))
    | none => pure ()
    forkFiles p np fds

/-- `fork()` -/
def fork : K n Int := do
  let p ← myproc
  match ← allocproc with
  | none => pure failed
  | some np =>
    -- uvmcopy
    if ← works then
      run (.setParent np p)
      run (.put (.ret np) 0)
      forkFiles p np (List.range nofile)
      match ← run (.get (.cwd p)) with
      | some i => idup i
      | none => panic .null
      let cwd ← run (.get (.cwd p))
      run (.put (.cwd np) cwd)
      let pid ← run (.pid np)
      run (.ready np)
      release (.proc np)
      pure pid
    else
      run (.freeproc np)
      release (.proc np)
      pure failed

/-- The loop of `exit` over the open files. -/
def exitFiles (p : Fin n) : List Nat → K n Unit
  | [] => pure ()
  | fd :: fds => do
    let of ← run (.get (.ofile p))
    match of fd with
    | some f =>
      fileclose f
      let of' ← run (.get (.ofile p))
      run (.put (.ofile p) (update of' fd none))
    | none => pure ()
    exitFiles p fds

/-- `exit(status)` -/
def exit {α : Type} (init : Fin n) (status : Int) : K n α := do
  let p ← myproc
  check (decide (p ≠ init)) .initExiting
  exitFiles p (List.range nofile)
  beginOp
  match ← run (.get (.cwd p)) with
  | some i => iput i
  | none => panic .null
  endOp
  run (.put (.cwd p) none)
  exitFinal init p status

/-- What a system call does with an open file. -/
def onFile (fd : Nat) (call : Nat → K n Int) : K n Int := do
  match ← argfd fd with
  | none => pure failed
  | some f => call f

/-- The code of a system call. -/
def Syscall.code (init : Fin n) : Syscall → K n Int
  | .fork => Kernel.fork
  | .exit status => Kernel.exit init status
  | .wait addr => Kernel.wait addr
  | .kill pid => Kernel.kill pid
  | .sleep m => sysSleep m
  | .uptime => sysUptime
  | .pipe => sysPipe
  | .read fd m => onFile fd fun f => fileread f m
  | .write fd m => onFile fd fun f => filewrite f m
  | .fstat fd => onFile fd filestat
  | .dup fd => sysDup fd
  | .close fd => sysClose fd
  | .path c => pathCall c

/-! ## `trap.c` -/

/-- The interrupts. -/
inductive Irq where
  | uart
  | disk
  | timer
  deriving DecidableEq

/-- The reasons for which user code enters the kernel. -/
inductive Trap where
  | syscall (c : Syscall)
  | irq (i : Irq)
  /-- Any other exception. -/
  | fault

/-- `clockintr()` -/
def clockintr : K n Unit := do
  acquire .ticks
  let ticks ← run (.get .ticks)
  run (.put .ticks ((ticks + 1) % uintSize))
  wakeup .ticks
  release .ticks

/-- `devintr()` -/
def devintr : Irq → K n Unit
  | .uart => uartintr
  | .disk => virtioDiskIntr
  | .timer => do
    if ← run .isBoot then clockintr

/-- `usertrap()` and `usertrapret()` -/
def usertrap (init : Fin n) (t : Trap) : K n Unit := do
  let p ← myproc
  match t with
  | .syscall c =>
    if ← run (.killed p) then exit init failed
    run .intrOn
    let r ← c.code init
    run (.returned c r)
    run (.put (.ret p) r)
  | .irq i => devintr i
  | .fault => run (.fatal p)
  if ← run (.killed p) then exit init failed
  match t with
  | .irq .timer => yield
  | _ => pure ()
  run .intrOff

/-- `kerneltrap()` -/
def kerneltrap (i : Irq) : K n Unit := do
  devintr i
  if i = .timer then
    match ← run .myproc with
    | some p => if (← run (.state p)) = .running then yield
    | none => pure ()

/-- `fsinit(dev)`: read the superblock, and install what is in the log. -/
def fsinit : K n Unit := do
  blocks
  let log ← run (.get .log)
  run (.put .log { log with lh := [] })

/-- `forkret()`.  The first process that gets here sleeps in `fsinit`. -/
def forkret : K n Unit := do
  let p ← myproc
  release (.proc p)
  if ← run (.get .first) then
    run (.put .first false)
    fsinit
  run .intrOff

/-- The code of each loop. -/
def Loop.body : (l : Loop n) → K n (LoopAns l)
  | .scheduler => schedulerBody
  | .wait p addr => waitBody p addr
  | .pipeFull i => pipeFullBody i
  | .pipeEmpty i => pipeEmptyBody i
  | .consEmpty => consEmptyBody
  | .ticks ticks0 m => ticksBody ticks0 m
  | .acquiresleep k => acquiresleepBody k
  | .beginOp => beginOpBody
  | .uartputc c => uartputcBody c
  | .uartstart => uartstartBody
  | .uartintr => uartintrBody
  | .allocDescs => allocDescsBody
  | .diskBusy b => diskBusyBody b
  | .diskIntr => diskIntrBody
  | .blocks => blocksBody

end Kernel
end Xv6
