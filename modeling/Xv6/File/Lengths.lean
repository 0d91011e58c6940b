import Xv6.File.Faults
import Xv6.Kernel.Console

/-!
# How much `read` and `write` transfer

The length of a transfer is an `int`, and may be negative.  Pipes and the console count up to it
with signed comparisons, and so does `filewrite`; but `fileread` passes it on to `readi`, which
takes a `uint` and only refuses it if the sum with the offset overflows.

A call is run from any state of the things it uses.  Each time it gives up the lock, or waits for
one, other processes and interrupt handlers change them: `others` is the list of what they make of
them, and a call that would wait longer than that has not returned.  `Trace` records what happens to
user memory.  `transfer_lengths` is the result.

`filewrite` is in `Xv6.File.Write` with the bytes it writes, and the loops of pipes and the console
are in `Xv6.Kernel.PipeBuffer` and `Xv6.Kernel.Console` with theirs.  The code here is a separate
reading of the source, in which lengths have their signs.
-/

namespace Xv6.Lengths

open Code Bio Fs File List Option Nat

/-! ## The code -/

/-- What a call shares with other processes. -/
structure World where
  /-- `f->pipe` -/
  pipe : Pipe
  cons : Kernel.Cons
  /-- `myproc()->killed` -/
  killed : Bool
  disk : Disk
  /-- `f->ip->valid` -/
  valid : Bool
  /-- The other fields of `f->ip`. -/
  ip : Inode
  /-- `f->off` -/
  off : Nat

/-- Commands. -/
inductive Cmd where
  | get
  | put (w : World)
  /-- The lock is given up, or not held. -/
  | wait
  | copyin (va len : Nat)
  | copyout (va : Nat) (bytes : List UInt8)
  /-- A command of the block layer. -/
  | block (c : Bio.Cmd Nat)
  /-- A panic. -/
  | stop

abbrev Ans : Cmd → Type
  | .get => World
  | .put _ | .wait => Unit
  | .copyin _ _ => List UInt8 × Bool
  | .copyout _ _ => Bool
  | .block c => Bio.Ans c
  | .stop => Empty

/-- Code of a call. -/
abbrev T (α : Type) := Code Cmd Ans α

def get : T World := call Cmd.get
def put (w : World) : T Unit := call (Cmd.put w)
def wait : T Unit := call Cmd.wait
def copyin (va len : Nat) : T (List UInt8 × Bool) := call (Cmd.copyin va len)
def copyout (va : Nat) (bytes : List UInt8) : T Bool := call (Cmd.copyout va bytes)
def stop {α : Type} : T α := .cmd .stop fun e => e.elim

def blocks {α : Type} (c : K Nat α) : T α := interp (fun c => call (Cmd.block c)) c

/-- An `int` as a `uint`. -/
def uint (n : Int) : Nat := (n % 2 ^ 32).toNat

/-- A `uint` as an `int`. -/
def int (u : Nat) : Int := if u < 2 ^ 31 then u else u - 2 ^ 32

/-- A loop that sleeps while a condition holds; it answers whether to go on, and gives up if
`hopeless`.  A process that is woken up looks again, as long as `fuel` lasts. -/
def waitWhile (blocked hopeless : World → Bool) : (fuel : Nat) → T Bool
  | 0 => stop
  | fuel + 1 => do
    let w ← get
    if blocked w then
      if hopeless w then pure false
      else
        wait
        waitWhile blocked hopeless fuel
    else pure true

/-- The `while` loop of `pipewrite`. -/
def pipeFull : (fuel : Nat) → T Bool :=
  waitWhile (fun w => w.pipe.full) fun w => !w.pipe.readopen || w.killed

/-- The `for` loop of `pipewrite`. -/
def pipewriteLoop (fuel addr : Nat) (n : Int) : (rounds i : Nat) → T Int
  | 0, i => pure i
  | rounds + 1, i =>
    if (i : Int) < n then do
      if ← pipeFull fuel then
        let (bytes, ok) ← copyin ((addr + i) % 2 ^ 64) 1
        if ok then
          let w ← get
          put { w with pipe := w.pipe.put (bytes.headD 0) }
          pipewriteLoop fuel addr n rounds (i + 1)
        else pure i
      else pure (-1)
    else pure i

/-- `pipewrite(pi, addr, n)` -/
def pipewrite (fuel addr : Nat) (n : Int) : T Int := pipewriteLoop fuel addr n n.toNat 0

/-- The `while` loop of `piperead`. -/
def pipeEmpty : (fuel : Nat) → T Bool :=
  waitWhile (fun w => w.pipe.empty && w.pipe.writeopen) fun w => w.killed

/-- The `for` loop of `piperead`. -/
def pipereadLoop (addr : Nat) (n : Int) : (rounds i : Nat) → T Int
  | 0, i => pure i
  | rounds + 1, i =>
    if (i : Int) < n then do
      let w ← get
      if w.pipe.empty then pure i
      else
        put { w with pipe := w.pipe.get.2 }
        if ← copyout ((addr + i) % 2 ^ 64) [w.pipe.get.1] then pipereadLoop addr n rounds (i + 1)
        else pure i
    else pure i

/-- `piperead(pi, addr, n)` -/
def piperead (fuel addr : Nat) (n : Int) : T Int := do
  if ← pipeEmpty fuel then pipereadLoop addr n n.toNat 0 else pure (-1)

/-- The loop of `consolewrite`; `uartputc` may sleep. -/
def consolewriteLoop (src : Nat) (n : Int) : (rounds i : Nat) → T Int
  | 0, i => pure i
  | rounds + 1, i =>
    if (i : Int) < n then do
      let (_, ok) ← copyin ((src + i) % 2 ^ 64) 1
      if ok then
        wait
        consolewriteLoop src n rounds (i + 1)
      else pure i
    else pure i

/-- `consolewrite(1, src, n)` -/
def consolewrite (src : Nat) (n : Int) : T Int := consolewriteLoop src n n.toNat 0

/-- The inner loop of `consoleread`. -/
def consEmpty : (fuel : Nat) → T Bool :=
  waitWhile (fun w => decide (w.cons.r = w.cons.w)) fun w => w.killed

/-- The outer loop of `consoleread`: what is left of `n` at its end, or `none` if it returns -1. -/
def consolereadLoop (fuel target : Nat) : (rounds : Nat) → (n : Int) → (dst : Nat) → T (Option Int)
  | 0, n, _ => pure (some n)
  | rounds + 1, n, dst =>
    if 0 < n then do
      if ← consEmpty fuel then
        let w ← get
        let c := w.cons.buf (w.cons.r % Kernel.inputBuf)
        if c.toNat = Kernel.ctrl 'D' then
          -- `n < target` compares two `uint`s
          put (if uint n < target then w else { w with cons := w.cons.advance })
          pure (some n)
        else
          put { w with cons := w.cons.advance }
          if ← copyout dst [c] then
            if c.toNat = '\n'.toNat then pure (some (n - 1))
            else consolereadLoop fuel target rounds (n - 1) ((dst + 1) % 2 ^ 64)
          else pure (some n)
      else pure none
    else pure (some n)

/-- `consoleread(1, dst, n)` -/
def consoleread (fuel dst : Nat) (n : Int) : T Int := do
  match ← consolereadLoop fuel (uint n) n.toNat n dst with
  | none => pure (-1)
  | some left => pure (int (uint (uint n - left)))

/-- `ilock(f->ip)` -/
def ilock (sb : Superblock) : T Inode := do
  let w ← get
  if w.valid then pure w.ip
  else
    let ip ← blocks (ilockRead sb w.ip.inum)
    put { w with valid := true, ip := ip }
    pure ip

/-- The `while` loop of `filewrite`, which returns `i`. -/
def filewriteLoop (sb : Superblock) (addr : Nat) (n : Int) : (rounds i : Nat) → T Nat
  | 0, i => pure i
  | rounds + 1, i =>
    if (i : Int) < n then do
      let n1 := min (n.toNat - i) maxWrite
      -- `begin_op`
      wait
      let ip ← ilock sb
      let w ← get
      let (r, ip) ← blocks (writei sb ip (.user ((addr + i) % 2 ^ 64)) w.off n1)
      let w ← get
      put { w with ip := ip, off := if 0 < r.getD 0 then uint (w.off + r.getD 0) else w.off }
      -- `end_op`
      wait
      match r with
      | none => pure i
      | some r => if r ≠ n1 then stop else filewriteLoop sb addr n rounds (i + r)
    else pure i

/-- `f->type` -/
inductive FileType where
  | none
  | pipe
  | inode
  | device (major : Int)
  deriving DecidableEq

/-- `struct file`, without what it points to and the offset. -/
structure OpenFile where
  type : FileType
  readable : Bool
  writable : Bool
  deriving DecidableEq

/-- `CONSOLE`, the only device in `devsw`. -/
def console : Int := 1

/-- `fileread(f, addr, n)` -/
def fileread (sb : Superblock) (fuel : Nat) (f : OpenFile) (addr : Nat) (n : Int) : T Int :=
  if f.readable = false then pure (-1)
  else match f.type with
  | .none => stop
  | .pipe => piperead fuel addr n
  | .device major => if major = console then consoleread fuel addr n else pure (-1)
  | .inode => do
    let ip ← ilock sb
    let w ← get
    let (tot, _, ip) ← blocks (readi sb ip (.user addr) w.off (uint n))
    let r := int tot
    let w ← get
    put { w with ip := ip, off := if 0 < r then uint (w.off + r) else w.off }
    pure r

/-- `filewrite(f, addr, n)` -/
def filewrite (sb : Superblock) (fuel : Nat) (f : OpenFile) (addr : Nat) (n : Int) : T Int :=
  if f.writable = false then pure (-1)
  else match f.type with
  | .none => stop
  | .pipe => pipewrite fuel addr n
  | .device major => if major = console then consolewrite addr n else pure (-1)
  | .inode => do
    let i ← filewriteLoop sb addr n n.toNat 0
    pure (if (i : Int) = n then n else -1)

/-- `argint` takes the low half of a register. -/
def argint (a : UInt64) : Int := int (a.toNat % 2 ^ 32)

/-- `sys_read()`: the file of the descriptor, if it is open, and the registers with the other two
arguments. -/
def sysRead (sb : Superblock) (fuel : Nat) (f : Option OpenFile) (a1 a2 : UInt64) : T Int :=
  match f with
  | none => pure (-1)
  | some f => fileread sb fuel f a1.toNat (argint a2)

/-- `sys_write()` -/
def sysWrite (sb : Superblock) (fuel : Nat) (f : Option OpenFile) (a1 a2 : UInt64) : T Int :=
  match f with
  | none => pure (-1)
  | some f => filewrite sb fuel f a1.toNat (argint a2)

/-! ## Runs -/

/-- What has happened to the memory of the caller: the addresses that have been stored to, and the
number of bytes that have been taken from it. -/
structure Trace where
  stored : List Nat
  consumed : Nat

/-- The addresses that a copy gets to. -/
def reached (m : UserMem) (va len : Nat) : List Nat :=
  (List.range (Xv6.copyin m va len).1.length).map fun j => (va + j) % 2 ^ 64

def Trace.copyin (t : Trace) (m : UserMem) (va len : Nat) : Trace :=
  { t with consumed := t.consumed + (Xv6.copyin m va len).1.length }

def Trace.copyout (t : Trace) (m : UserMem) (va len : Nat) : Trace :=
  { t with stored := t.stored ++ reached m va len }

/-- What a command of the block layer does to the memory of the caller. -/
def Trace.block (t : Trace) (m : UserMem) : Bio.Cmd Nat → Trace
  | .copyin _ _ va len => t.copyin m va len
  | .copyout va bytes => t.copyout m va bytes.length
  | _ => t

/-- The state of a call. -/
structure State where
  world : World
  /-- What other processes make of it while the call waits. -/
  others : List World
  trace : Trace

/-- One command.  A call that does not return leaves its trace. -/
def act (m : UserMem) : (c : Cmd) → State → Except Trace (Ans c × State)
  | .get, s => .ok (s.world, s)
  | .put w, s => .ok ((), { s with world := w })
  | .wait, s =>
    match s.others with
    | [] => .error s.trace
    | w :: ws => .ok ((), { s with world := w, others := ws })
  | .copyin va len, s => .ok (Xv6.copyin m va len, { s with trace := s.trace.copyin m va len })
  | .copyout va bytes, s =>
    .ok ((Xv6.copyin m va bytes.length).2, { s with trace := s.trace.copyout m va bytes.length })
  | .block c, s =>
    match answer m c s.world.disk with
    | .ok (r, d) =>
      .ok (r, { s with world := { s.world with disk := d }, trace := s.trace.block m c })
    | .error _ => .error s.trace
  | .stop, s => .error s.trace

/-- A call starts. -/
def start (w : World) (others : List World) : State := ⟨w, others, ⟨[], 0⟩⟩

/-- All stores are to the first `n` bytes from `addr` on, and at most `n` bytes have been taken. -/
structure Trace.Within (t : Trace) (addr n : Nat) : Prop where
  stored : ∀ a ∈ t.stored, ∃ j < n, a = (addr + j) % 2 ^ 64
  consumed : t.consumed ≤ n

/-- A transfer of at most `max(n, 0)` bytes, whether the call returns or not. -/
def Bounded (addr : Nat) (n : Int) : Except Trace (Int × State) → Prop
  | .ok (r, s) => s.trace.Within addr n.toNat ∧ r ≤ max n 0
  | .error t => t.Within addr n.toNat

/-! ## Rules -/

section Rules

variable {α β : Type} {m : UserMem} {addr n va : Nat} {t : Trace} {Q : α → Trace → Prop}

/-- From any state with the trace `t`, the code returns with `Q`, and its trace is within the buffer
where it does not return. -/
def Traces (m : UserMem) (addr n : Nat) (c : T α) (t : Trace) (Q : α → Trace → Prop) : Prop :=
  ∀ w ws, wp (specOf (act m) (·.Within addr n)) c ⟨w, ws, t⟩ fun a s => Q a s.trace

theorem Traces.bind {c : T β} {f : β → T α} {R : β → Trace → Prop} (hc : Traces m addr n c t R)
    (hf : ∀ a t', R a t' → Traces m addr n (f a) t' Q) : Traces m addr n (c >>= f) t Q :=
  fun w ws => wp_bind (monotone_specOf _ _) <| wp_mono (monotone_specOf _ _)
    (fun a s hR => hf a s.trace hR s.world s.others) (hc w ws)

theorem Traces.mono {c : T α} {R : α → Trace → Prop} (hc : Traces m addr n c t R)
    (h : ∀ a t', R a t' → Q a t') : Traces m addr n c t Q :=
  fun w ws => wp_mono (monotone_specOf _ _) (fun a s => h a s.trace) (hc w ws)

theorem traces_pure {a : α} (h : Q a t) : Traces m addr n (pure a) t Q := fun _ _ => h

theorem traces_get {k : World → T α} (h : ∀ w, Traces m addr n (k w) t Q) :
    Traces m addr n (get >>= k) t Q := fun w ws => h w w ws

theorem traces_put {w : World} {k : Unit → T α} (h : Traces m addr n (k ()) t Q) :
    Traces m addr n (put w >>= k) t Q := fun _ ws => h w ws

theorem traces_wait {k : Unit → T α} (ht : t.Within addr n) (h : Traces m addr n (k ()) t Q) :
    Traces m addr n (wait >>= k) t Q := by
  intro w ws
  cases ws with
  | nil => exact ht
  | cons w' ws => exact h w' ws

theorem traces_copyin {len : Nat} {k : List UInt8 × Bool → T α}
    (h : Traces m addr n (k (Xv6.copyin m va len)) (t.copyin m va len) Q) :
    Traces m addr n (copyin va len >>= k) t Q := fun w ws => h w ws

theorem traces_copyout {bytes : List UInt8} {k : Bool → T α}
    (h : Traces m addr n (k (Xv6.copyin m va bytes.length).2) (t.copyout m va bytes.length) Q) :
    Traces m addr n (copyout va bytes >>= k) t Q := fun w ws => h w ws

theorem traces_stop (ht : t.Within addr n) : Traces m addr n (stop : T α) t Q := fun _ _ => ht

end Rules

/-! ## Pipes and the console -/

theorem length_copyinLoop_le (m : UserMem) (rounds : Nat) :
    ∀ va len, (copyinLoop m rounds va len).1.length ≤ len := by
  induction rounds with
  | zero => exact fun _ len => zero_le len
  | succ rounds ih =>
    intro va len
    rw [copyinLoop]
    split
    · exact zero_le len
    · dsimp only
      split
      · exact zero_le len
      · dsimp only
        have := ih ((va - va % pgSize + pgSize) % 2 ^ 64)
          (len - min (pgSize - (va - (va - va % pgSize))) len)
        rw [length_append, length_map, length_range]
        omega

theorem length_copyin_le (m : UserMem) (va len : Nat) : (Xv6.copyin m va len).1.length ≤ len :=
  length_copyinLoop_le m len va len

/-- Nothing has been stored, and at most `i` bytes have been taken. -/
structure Trace.Took (t : Trace) (i : Nat) : Prop where
  stored : t.stored = []
  consumed : t.consumed ≤ i

theorem Trace.Took.within {t : Trace} {addr i n : Nat} (h : t.Took i) (hi : i ≤ n) :
    t.Within addr n :=
  ⟨by simp [h.stored], h.consumed.trans hi⟩

theorem Trace.Took.mono {t : Trace} {i j : Nat} (h : t.Took i) (hij : i ≤ j) : t.Took j :=
  ⟨h.stored, h.consumed.trans hij⟩

theorem Trace.Took.copyin {t : Trace} {i : Nat} (h : t.Took i) (m : UserMem) (va len : Nat) :
    (t.copyin m va len).Took (i + len) :=
  ⟨h.stored, Nat.add_le_add h.consumed (length_copyin_le m va len)⟩

theorem Trace.Within.copyout {t : Trace} {addr n : Nat} (h : t.Within addr n) (m : UserMem)
    {i len : Nat} (hi : i + len ≤ n) : (t.copyout m ((addr + i) % 2 ^ 64) len).Within addr n := by
  refine ⟨fun a ha => ?_, h.consumed⟩
  rcases mem_append.mp ha with ha | ha
  · exact h.stored a ha
  · obtain ⟨j, hj, rfl⟩ := mem_map.mp ha
    have hlen := length_copyin_le m ((addr + i) % 2 ^ 64) len
    rw [mem_range] at hj
    exact ⟨i + j, by omega, by rw [mod_add_mod, add_assoc]⟩

section Streams

variable {m : UserMem} {addr : Nat} {n : Int} {t : Trace}

theorem traces_waitWhile {blocked hopeless : World → Bool} {k : Nat} (ht : t.Within addr k)
    (fuel : Nat) : Traces m addr k (waitWhile blocked hopeless fuel) t fun _ t' => t' = t := by
  induction fuel with
  | zero => exact traces_stop ht
  | succ fuel ih =>
    refine traces_get fun w => ?_
    split
    · split
      · exact traces_pure rfl
      · exact traces_wait ht ih
    · exact traces_pure rfl

/-- What a call may return, and its trace. -/
def Fine (addr : Nat) (n : Int) (r : Int) (t : Trace) : Prop :=
  t.Within addr n.toNat ∧ r ≤ max n 0

theorem fine_neg_one (ht : t.Within addr n.toNat) : Fine addr n (-1) t := ⟨ht, by omega⟩

theorem fine_count {i : Nat} (hi : i ≤ n.toNat) (ht : t.Within addr n.toNat) :
    Fine addr n i t := ⟨ht, by omega⟩

theorem traces_pipewriteLoop (fuel rounds : Nat) : ∀ {i : Nat} {t : Trace}, i ≤ n.toNat → t.Took i →
    Traces m addr n.toNat (pipewriteLoop fuel addr n rounds i) t (Fine addr n) := by
  induction rounds with
  | zero => exact fun hi ht => traces_pure (fine_count hi (ht.within hi))
  | succ rounds ih =>
    intro i t hi ht
    rw [pipewriteLoop]
    split
    · refine (traces_waitWhile (ht.within hi) fuel).bind ?_
      rintro ok t' rfl
      have ht' := ht.copyin m ((addr + i) % 2 ^ 64) 1
      split
      · refine traces_copyin ?_
        dsimp only
        split
        · exact traces_get fun w => traces_put (ih (by omega) ht')
        · exact traces_pure (fine_count hi (ht'.within (by omega)))
      · exact traces_pure (fine_neg_one (ht.within hi))
    · exact traces_pure (fine_count hi (ht.within hi))

theorem traces_pipereadLoop (rounds : Nat) : ∀ {i : Nat} {t : Trace}, i ≤ n.toNat →
    t.Within addr n.toNat →
    Traces m addr n.toNat (pipereadLoop addr n rounds i) t (Fine addr n) := by
  induction rounds with
  | zero => exact fun hi ht => traces_pure (fine_count hi ht)
  | succ rounds ih =>
    intro i t hi ht
    rw [pipereadLoop]
    split
    · refine traces_get fun w => ?_
      split
      · exact traces_pure (fine_count hi ht)
      · have ht' : (t.copyout m ((addr + i) % 2 ^ 64) 1).Within addr n.toNat :=
          ht.copyout m (by omega)
        refine traces_put (traces_copyout ?_)
        split
        · exact ih (by omega) ht'
        · exact traces_pure (fine_count hi ht')
    · exact traces_pure (fine_count hi ht)

theorem traces_consolewriteLoop (rounds : Nat) : ∀ {i : Nat} {t : Trace}, i ≤ n.toNat → t.Took i →
    Traces m addr n.toNat (consolewriteLoop addr n rounds i) t (Fine addr n) := by
  induction rounds with
  | zero => exact fun hi ht => traces_pure (fine_count hi (ht.within hi))
  | succ rounds ih =>
    intro i t hi ht
    rw [consolewriteLoop]
    split
    · have ht' := ht.copyin m ((addr + i) % 2 ^ 64) 1
      refine traces_copyin ?_
      dsimp only
      split
      · exact traces_wait (ht'.within (by omega)) (ih (by omega) ht')
      · exact traces_pure (fine_count hi (ht'.within (by omega)))
    · exact traces_pure (fine_count hi (ht.within hi))

/-- The outer loop of `consoleread`, with `k` bytes left to read. -/
theorem traces_consolereadLoop {target : Nat} (fuel rounds : Nat) :
    ∀ {k : Int} {dst : Nat} {t : Trace},
    0 ≤ k → k ≤ n → dst = (addr + (n - k).toNat) % 2 ^ 64 → t.Within addr n.toNat →
    Traces m addr n.toNat (consolereadLoop fuel target rounds k dst) t fun r t' =>
      t'.Within addr n.toNat ∧ ∀ left, r = some left → 0 ≤ left ∧ left ≤ n := by
  have hdone : ∀ {k : Int} {t : Trace}, 0 ≤ k → k ≤ n → t.Within addr n.toNat →
      Traces m addr n.toNat (pure (some k)) t fun r t' =>
        t'.Within addr n.toNat ∧ ∀ left, r = some left → 0 ≤ left ∧ left ≤ n :=
    fun h0 hk ht => traces_pure ⟨ht, fun left h => some.inj h ▸ ⟨h0, hk⟩⟩
  induction rounds with
  | zero => exact fun h0 hk _ ht => hdone h0 hk ht
  | succ rounds ih =>
    intro k dst t h0 hk hdst ht
    rw [consolereadLoop]
    split
    · refine (traces_waitWhile ht fuel).bind ?_
      rintro ok t' rfl
      split
      · refine traces_get fun w => ?_
        dsimp only
        split
        · exact traces_put (hdone h0 hk ht)
        · have ht' : (t'.copyout m dst 1).Within addr n.toNat := by
            rw [hdst]
            exact ht.copyout m (by omega)
          refine traces_put (traces_copyout ?_)
          split
          · split
            · exact hdone (by omega) (by omega) ht'
            · refine ih (by omega) (by omega) ?_ ht'
              rw [hdst, mod_add_mod, add_assoc]
              congr 2
              omega
          · exact hdone h0 hk ht'
      · exact traces_pure ⟨ht, nofun⟩
    · exact hdone h0 hk ht

/-- What `consoleread` returns is an `int` again. -/
theorem int_uint_sub (h1 : -2 ^ 31 ≤ n) (h2 : n < 2 ^ 31) {left : Int}
    (h : left = n ∨ 0 ≤ left ∧ left ≤ n) : int (uint (uint n - left)) ≤ max n 0 := by
  rw [int, uint, uint]
  split <;> omega

theorem traces_consoleread (h1 : -2 ^ 31 ≤ n) (h2 : n < 2 ^ 31) (fuel : Nat) (haddr : addr < 2 ^ 64)
    (ht : t.Within addr n.toNat) :
    Traces m addr n.toNat (consoleread fuel addr n) t (Fine addr n) := by
  rw [consoleread]
  rcases Int.lt_or_le n 0 with hneg | hpos
  · -- the loop is not entered
    rw [Int.toNat_of_nonpos hneg.le]
    exact traces_pure ⟨Int.toNat_of_nonpos hneg.le ▸ ht, int_uint_sub h1 h2 (.inl rfl)⟩
  · have hdst : addr = (addr + (n - n).toNat) % 2 ^ 64 := by
      rw [Int.sub_self, Int.toNat_zero, add_zero, mod_eq_of_lt haddr]
    refine (traces_consolereadLoop fuel n.toNat hpos (Int.le_refl n) hdst ht).bind ?_
    rintro r t' ⟨ht', hleft⟩
    cases r with
    | none => exact traces_pure (fine_neg_one ht')
    | some left => exact traces_pure ⟨ht', int_uint_sub h1 h2 (.inr (hleft left rfl))⟩

end Streams

/-! ## Inodes -/

section Blocks

variable {α β : Type} {m : UserMem} {addr n off va : Nat} {t : Trace} {Q : α → Trace → Prop}
  {ip : Inode}

theorem blocks_bind (c : K Nat β) (f : β → K Nat α) :
    blocks (c >>= f) = blocks c >>= fun a => blocks (f a) := by
  induction c with
  | ret a => rfl
  | cmd c k ih => exact congrArg (Code.cmd _) (funext fun r => ih r)

/-- Code that does not touch user memory leaves no trace. -/
theorem traces_noCopy {c : K Nat α} (hc : NoCopy c) (ht : t.Within addr n) :
    Traces m addr n (blocks c) t fun _ t' => t' = t := by
  induction c with
  | ret a => exact traces_pure rfl
  | cmd c k ih =>
    intro w ws
    have hplain : t.block m c = t := by
      cases c with
      | copyin | copyout => exact hc.1.elim
      | _ => rfl
    change specOf (act m) (·.Within addr n) (.block c) ⟨w, ws, t⟩ _
    rw [specOf, act]
    cases answer m c w.disk with
    | error e => exact ht
    | ok r =>
      rw [hplain]
      exact ih r.1 (hc.2 r.1) _ ws

/-- Code that does not touch user memory, followed by other code. -/
theorem traces_noCopy_bind {c : K Nat β} {f : β → K Nat α} (hc : NoCopy c) (ht : t.Within addr n)
    (hf : ∀ a, Traces m addr n (blocks (f a)) t Q) : Traces m addr n (blocks (c >>= f)) t Q := by
  rw [blocks_bind]
  refine (traces_noCopy hc ht).bind ?_
  rintro a _ rfl
  exact hf a

theorem traces_eitherCopyout {tot len : Nat} {bytes : List UInt8} {f : Bool → K Nat α}
    (hlen : bytes.length = len)
    (h : Traces m addr n (blocks (f (Xv6.copyin m ((va + tot) % 2 ^ 64) len).2))
      (t.copyout m ((va + tot) % 2 ^ 64) len) Q) :
    Traces m addr n (blocks (eitherCopyout (.user va) tot bytes >>= f)) t Q := by
  subst hlen
  exact fun w ws => h w ws

theorem traces_eitherCopyin {b tot len : Nat} {d : Block} {f : Bool → K Nat α}
    (h : Traces m addr n (blocks (f (Xv6.copyin m ((va + tot) % 2 ^ 64) len).2))
      (t.copyin m ((va + tot) % 2 ^ 64) len) Q) :
    Traces m addr n (blocks (eitherCopyin b d off (.user va) tot len >>= f)) t Q :=
  fun _ ws => h _ ws

variable {sb : Superblock} {k : Nat}

theorem traces_readiLoop (hk : k ≤ n) (rounds : Nat) : ∀ {ip : Inode} {tot off : Nat}
    {acc : List UInt8} {t : Trace}, tot ≤ k → t.Within addr n →
    Traces m addr n (blocks (readiLoop sb (.user addr) k rounds ip tot off acc)) t fun r t' =>
      t'.Within addr n ∧ r.1 ≤ k := by
  induction rounds with
  | zero => exact fun htot ht => traces_pure ⟨ht, htot⟩
  | succ rounds ih =>
    intro ip tot off acc t htot ht
    rw [readiLoop]
    split
    · obtain ⟨len, hlen⟩ : ∃ len, len = min (k - tot) (bsize - off % bsize) := ⟨_, rfl⟩
      refine traces_noCopy_bind (noCopy_bmap ip _) ht fun a => ?_
      refine traces_noCopy_bind (noCopy_bread _) ht fun b => ?_
      rw [← hlen]
      have ht' : (t.copyout m ((addr + tot) % 2 ^ 64) len).Within addr n := ht.copyout m (by omega)
      refine traces_eitherCopyout (show _ = len by simp) ?_
      refine traces_noCopy_bind (noCopy_brelse _) ht' fun _ => ?_
      split
      · exact ih (by omega) ht'
      · exact traces_pure ⟨ht', htot⟩
    · exact traces_pure ⟨ht, htot⟩

theorem traces_readi (ht : t.Within addr n) :
    Traces m addr n (blocks (readi sb ip (.user addr) off n)) t fun r t' =>
      t'.Within addr n ∧ r.1 ≤ n := by
  rw [readi]
  split
  · exact traces_pure ⟨ht, zero_le n⟩
  · have hle : (if off + n > ip.size then ip.size - off else n) ≤ n := by
      split <;> omega
    exact (traces_readiLoop hle _ (zero_le _) ht).mono fun r t' h => ⟨h.1, h.2.trans hle⟩

/-- The loop of `writei` takes its buffer from the start. -/
theorem traces_writeiLoop (rounds : Nat) : ∀ {ip : Inode} {i tot off : Nat} {t : Trace},
    tot ≤ k → i + (k - tot) ≤ n → t.Took i →
    Traces m addr n (blocks (writeiLoop sb (.user va) k rounds ip tot off)) t fun _ t' =>
      t'.Took (i + (k - tot)) := by
  induction rounds with
  | zero => exact fun _ _ ht => traces_pure (ht.mono (by omega))
  | succ rounds ih =>
    intro ip i tot off t htot hi ht
    rw [writeiLoop]
    split
    · obtain ⟨len, hlen⟩ : ∃ len, len = min (k - tot) (bsize - off % bsize) := ⟨_, rfl⟩
      have hin : ∀ {j : Nat} {t : Trace}, t.Took j → j ≤ i + (k - tot) → t.Within addr n :=
        fun h hj => h.within (by omega)
      refine traces_noCopy_bind (noCopy_bmap ip _) (hin ht (by omega)) fun a => ?_
      refine traces_noCopy_bind (noCopy_bread _) (hin ht (by omega)) fun b => ?_
      rw [← hlen]
      have ht' := ht.copyin m ((va + tot) % 2 ^ 64) len
      refine traces_eitherCopyin ?_
      split
      · refine traces_noCopy_bind (noCopy_logWrite _) (hin ht' (by omega)) fun _ => ?_
        refine traces_noCopy_bind (noCopy_brelse _) (hin ht' (by omega)) fun _ => ?_
        refine (ih (by omega) (by omega) ht').mono fun _ t' h => h.mono (by omega)
      · refine traces_noCopy_bind (noCopy_brelse _) (hin ht' (by omega)) fun _ => ?_
        exact traces_pure (ht'.mono (by omega))
    · exact traces_pure (ht.mono (by omega))

theorem traces_writei {i : Nat} (hi : i + k ≤ n) (ht : t.Took i) :
    Traces m addr n (blocks (writei sb ip (.user va) off k)) t fun _ t' => t'.Took (i + k) := by
  have ht' := ht.mono (le_add_right i k)
  rw [writei]
  split
  · exact traces_pure ht'
  · split
    · exact traces_pure ht'
    · rw [blocks_bind]
      refine (traces_writeiLoop k (zero_le k) hi ht).bind ?_
      intro r t' h
      rw [Nat.sub_zero] at h
      dsimp only
      split
      · exact traces_noCopy_bind (noCopy_iupdate _) (h.within hi) fun _ => traces_pure h
      · exact traces_pure h

theorem traces_ilock (ht : t.Within addr n) : Traces m addr n (ilock sb) t fun _ t' => t' = t := by
  refine traces_get fun w => ?_
  split
  · exact traces_pure rfl
  · refine (traces_noCopy (noCopy_ilockRead _) ht).bind ?_
    rintro ip _ rfl
    exact traces_put (traces_pure rfl)

end Blocks

theorem traces_filewriteLoop {sb : Superblock} {m : UserMem} {addr : Nat} {n : Int} (rounds : Nat) :
    ∀ {i : Nat} {t : Trace}, i ≤ n.toNat → t.Took i →
    Traces m addr n.toNat (filewriteLoop sb addr n rounds i) t fun a t' =>
      t'.Within addr n.toNat ∧ a ≤ n.toNat := by
  induction rounds with
  | zero => exact fun hi ht => traces_pure ⟨ht.within hi, hi⟩
  | succ rounds ih =>
    intro i t hi ht
    rw [filewriteLoop]
    split
    · obtain ⟨k, hk⟩ : ∃ k, k = min (n.toNat - i) maxWrite := ⟨_, rfl⟩
      rw [← hk]
      refine traces_wait (ht.within hi) ?_
      refine (traces_ilock (ht.within hi)).bind ?_
      rintro ip _ rfl
      refine traces_get fun w => ?_
      refine (traces_writei (by omega) ht).bind ?_
      rintro ⟨r, ip'⟩ t' ht'
      have hin : t'.Within addr n.toNat := ht'.within (by omega)
      refine traces_get fun w' => traces_put (traces_wait hin ?_)
      split
      · exact traces_pure ⟨hin, hi⟩
      · split
        · exact traces_stop hin
        · rename_i r' hr
          obtain rfl := not_not.mp hr
          exact ih (by omega) ht'
    · exact traces_pure ⟨ht.within hi, hi⟩

/-! ## A negative length -/

/-- The copy of the inode that `ilock` leaves. -/
def World.inode (w : World) (sb : Superblock) : Inode :=
  if w.valid then w.ip else dinode sb w.disk w.ip.inum

/-- A read of a negative length that is not refused: the sum of offset and length, as a `uint`, does
not overflow, there are bytes to read, and there is a page to put them. -/
structure Slips (sb : Superblock) (m : UserMem) (f : OpenFile) (w : World) (addr : Nat) (n : Int) :
    Prop where
  type : f.type = .inode
  readable : f.readable = true
  neg : n < 0
  inside : w.off < (w.inode sb).size
  sum : (w.off : Int) < -n
  mapped : Readable m addr

section Negative

variable {m : UserMem} {addr n : Nat} {t : Trace} {sb : Superblock} {ip : Inode} {off : Nat}
  {E : Trace → Prop} {s : State} {α : Type}

theorem copyin_of_not_readable {va len : Nat} (hva : va < 2 ^ 64) (h : ¬ Readable m va)
    (hlen : len ≠ 0) : Xv6.copyin m va len = ([], false) := by
  rw [Readable, mod_eq_of_lt hva, userByte, isSome_map, isSome_iff_ne_none,
    not_not] at h
  obtain ⟨len, rfl⟩ := exists_eq_succ_of_ne_zero hlen
  rw [Xv6.copyin, copyinLoop, if_neg hlen]
  dsimp only
  rw [h]

/-- A loop of `readi` with nothing to read, or no place to put it. -/
theorem traces_readiLoop_none {k : Nat} (haddr : addr < 2 ^ 64) (ht : t.Within addr n)
    (h : k = 0 ∨ ¬ Readable m addr) :
    Traces m addr n (blocks (readiLoop sb (.user addr) k k ip 0 off [])) t fun r t' =>
      t' = t ∧ r.1 = 0 := by
  rcases Nat.eq_zero_or_pos k with rfl | hpos
  · exact traces_pure ⟨rfl, rfl⟩
  have hfault := h.resolve_left (by omega)
  obtain ⟨k, rfl⟩ := exists_eq_succ_of_ne_zero hpos.ne'
  rw [readiLoop, if_pos hpos]
  obtain ⟨len, hlen⟩ : ∃ len, len = min (k.succ - 0) (bsize - off % bsize) := ⟨_, rfl⟩
  have hb : 0 < bsize - off % bsize := Nat.sub_pos_of_lt (mod_bsize_lt _)
  refine traces_noCopy_bind (noCopy_bmap ip _) ht fun a => ?_
  refine traces_noCopy_bind (noCopy_bread _) ht fun b => ?_
  rw [← hlen]
  have hcopy : Xv6.copyin m ((addr + 0) % 2 ^ 64) len = ([], false) := by
    rw [add_zero, mod_eq_of_lt haddr]
    exact copyin_of_not_readable haddr hfault (by omega)
  have htrace : t.copyout m ((addr + 0) % 2 ^ 64) len = t := by
    rw [Trace.copyout, reached, hcopy]
    exact congrArg (Trace.mk · t.consumed) (append_nil _)
  refine traces_eitherCopyout (show _ = len by simp) ?_
  rw [hcopy, htrace]
  exact traces_noCopy_bind (noCopy_brelse _) ht fun _ => traces_pure ⟨rfl, rfl⟩

/-- The read is refused, or there is nothing to read, or no place to put it. -/
theorem traces_readi_none {k : Int} (haddr : addr < 2 ^ 64) (hk : k < 0) (h31 : -2 ^ 31 ≤ k)
    (ht : t.Within addr n)
    (h : ip.size ≤ off ∨ -k ≤ off ∨ ¬ Readable m addr) :
    Traces m addr n (blocks (readi sb ip (.user addr) off (uint k))) t fun r t' =>
      t' = t ∧ r.1 = 0 := by
  have hu : (uint k : Int) = 2 ^ 32 + k := by
    rw [uint]
    omega
  rw [readi]
  split
  · exact traces_pure ⟨rfl, rfl⟩
  · refine traces_readiLoop_none haddr ht ?_
    rcases h with h | h | h
    · left
      rw [if_pos (by omega)]
      omega
    · omega
    · exact .inr h

theorem wp_get {k : World → T α} {Q : α → State → Prop} :
    wp (specOf (act m) E) (get >>= k) s Q ↔ wp (specOf (act m) E) (k s.world) s Q := Iff.rfl

theorem wp_ilock {k : Inode → T α} {Q : α → State → Prop}
    (ht : (s.world.inode sb).type = 0 → E s.trace)
    (h : wp (specOf (act m) E) (k (s.world.inode sb))
      { s with world := { s.world with valid := true, ip := s.world.inode sb } } Q) :
    wp (specOf (act m) E) (ilock sb >>= k) s Q := by
  obtain ⟨⟨pipe, cons, killed, disk, valid, ip, off⟩, ws, t⟩ := s
  cases valid with
  | true => exact h
  | false =>
    let w : World := ⟨pipe, cons, killed, disk, false, ip, off⟩
    change wp (specOf (act m) E) ((blocks (if (dinode sb disk ip.inum).type = 0 then
      Bio.panic .ilockNoType else pure (dinode sb disk ip.inum)) >>= fun ip =>
        put { w with valid := true, ip := ip } >>= fun _ => pure ip) >>= k) ⟨w, ws, t⟩ Q
    split
    · rename_i htype
      exact ht htype
    · exact h

end Negative

/-! ## The calls -/

section Calls

variable {sb : Superblock} {m : UserMem} {addr : Nat} {n : Int} {t : Trace} {f : OpenFile}
  {w : World} {ws : List World}

theorem traces_filewrite (fuel : Nat) (f : OpenFile) (ht : t.Took 0) :
    Traces m addr n.toNat (filewrite sb fuel f addr n) t (Fine addr n) := by
  have hin : t.Within addr n.toNat := ht.within (zero_le _)
  rw [filewrite]
  split
  · exact traces_pure (fine_neg_one hin)
  · split
    · exact traces_stop hin
    · exact traces_pipewriteLoop fuel _ (zero_le _) ht
    · split
      · exact traces_consolewriteLoop _ (zero_le _) ht
      · exact traces_pure (fine_neg_one hin)
    · refine (traces_filewriteLoop n.toNat (zero_le _) ht).bind ?_
      rintro i t' ⟨ht', hi⟩
      refine traces_pure ⟨ht', ?_⟩
      split <;> omega

/-- A read from an inode of a length that is not negative. -/
theorem traces_fileread_inode (h0 : 0 ≤ n) (h31 : n < 2 ^ 31) (fuel : Nat) (hf : f.type = .inode)
    (hr : f.readable = true) (ht : t.Within addr n.toNat) :
    Traces m addr n.toNat (fileread sb fuel f addr n) t (Fine addr n) := by
  have hu : uint n = n.toNat := by
    rw [uint]
    omega
  rw [fileread, if_neg (by rw [hr]; decide), hf, hu]
  refine (traces_ilock ht).bind ?_
  rintro ip _ rfl
  refine traces_get fun w => ?_
  refine (traces_readi ht).bind ?_
  rintro ⟨tot, bytes, ip'⟩ t' ⟨ht', htot⟩
  refine traces_get fun w' => traces_put (traces_pure ⟨ht', ?_⟩)
  rw [int, if_pos (by omega)]
  omega

/-- A read from an inode of a negative length that is refused. -/
theorem wp_fileread_refused (h31 : -2 ^ 31 ≤ n) (hneg : n < 0) (haddr : addr < 2 ^ 64) (fuel : Nat)
    (hf : f.type = .inode) (hr : f.readable = true) (h : ¬ Slips sb m f w addr n)
    (ht : t.Within addr n.toNat) :
    wp (specOf (act m) (·.Within addr n.toNat)) (fileread sb fuel f addr n) ⟨w, ws, t⟩ fun r s =>
      Fine addr n r s.trace := by
  have hnone : (w.inode sb).size ≤ w.off ∨ -n ≤ w.off ∨ ¬ Readable m addr := by
    by_contra hall
    rw [not_or, not_or, not_not] at hall
    exact h ⟨hf, hr, hneg, by omega, by omega, hall.2.2⟩
  have hread : Traces m addr n.toNat (blocks (readi sb (w.inode sb) (.user addr) w.off (uint n))) t
      fun r t' => t' = t ∧ r.1 = 0 := traces_readi_none haddr hneg h31 ht hnone
  rw [fileread, if_neg (by rw [hr]; decide), hf]
  refine wp_ilock (fun _ => ht) ?_
  refine (Traces.bind (Q := Fine addr n) hread ?_) _ ws
  rintro ⟨tot, bytes, ip'⟩ _ ⟨rfl, rfl⟩
  exact traces_get fun w' => traces_put (traces_pure ⟨ht, le_max_right n 0⟩)

/-- A read that does not slip through. -/
theorem wp_fileread (h1 : -2 ^ 31 ≤ n) (h2 : n < 2 ^ 31) (haddr : addr < 2 ^ 64) (fuel : Nat)
    (h : ¬ Slips sb m f w addr n) (ht : t.Within addr n.toNat) :
    wp (specOf (act m) (·.Within addr n.toNat)) (fileread sb fuel f addr n) ⟨w, ws, t⟩ fun r s =>
      Fine addr n r s.trace := by
  cases hr : f.readable with
  | false =>
    rw [fileread, if_pos hr]
    exact fine_neg_one ht
  | true =>
    cases hf : f.type with
    | inode =>
      rcases Int.lt_or_le n 0 with hneg | hpos
      · exact wp_fileread_refused h1 hneg haddr fuel hf hr h ht
      · exact traces_fileread_inode hpos h2 fuel hf hr ht w ws
    | none =>
      rw [fileread, if_neg (by rw [hr]; decide), hf]
      exact ht
    | pipe =>
      rw [fileread, if_neg (by rw [hr]; decide), hf]
      refine Traces.bind (Q := Fine addr n) (traces_waitWhile ht fuel) ?_ w ws
      rintro ok _ rfl
      split
      · exact traces_pipereadLoop _ (zero_le _) ht
      · exact traces_pure (fine_neg_one ht)
    | device major =>
      rw [fileread, if_neg (by rw [hr]; decide), hf]
      dsimp only
      split
      · exact traces_consoleread h1 h2 fuel haddr ht w ws
      · exact fine_neg_one ht

end Calls

/-- What a call does in all runs, it does when it is run. -/
theorem Bounded.of_wp {m : UserMem} {addr : Nat} {n : Int} {c : T Int} {s : State}
    (h : wp (specOf (act m) (·.Within addr n.toNat)) c s fun r s => Fine addr n r s.trace) :
    Bounded addr n (exec (act m) c s) := by
  have hpost := wp_specOf_iff.mp h
  cases hx : exec (act m) c s with
  | ok r | error t =>
    rw [hx] at hpost
    exact hpost

/-! ## A read that slips through -/

section Slips

variable {α β : Type} {m : UserMem} {sb : Superblock} {s : State}

/-- Something has been stored. -/
def Stored (t : Trace) : Prop := t.stored ≠ []

theorem stored_grows (c : T α) : ∀ {s : State}, Stored s.trace →
    wp (specOf (act m) Stored) c s fun _ s' => Stored s'.trace := by
  have happ : ∀ {t : Trace} (l : List Nat), Stored t → t.stored ++ l ≠ [] :=
    fun l ht => append_ne_nil_of_left_ne_nil ht l
  induction c with
  | ret a => exact fun hs => hs
  | cmd c k ih =>
    intro s hs
    cases c with
    | get | put w | copyin va len => exact ih _ hs
    | wait =>
      obtain ⟨w, ws, t⟩ := s
      cases ws with
      | nil => exact hs
      | cons w' ws => exact ih _ hs
    | copyout va bytes => exact ih _ (happ _ hs)
    | block c =>
      rw [wp_cmd, specOf, act]
      have hblock : Stored (s.trace.block m c) := by
        cases c with
        | copyout va bytes => exact happ _ hs
        | _ => exact hs
      cases answer m c s.world.disk with
      | ok r => exact ih r.1 hblock
      | error e => exact hs
    | stop => exact hs

/-- Code that does not touch user memory and reads what is known. -/
theorem wp_blocks_of_exec {E : Trace → Prop} {c : K Nat β} (hc : NoCopy c) {a : β} {d : Disk} :
    ∀ {s : State}, exec (answer m) c s.world.disk = .ok (a, d) →
      wp (specOf (act m) E) (blocks c) s fun a' s' =>
        a' = a ∧ s' = { s with world := { s.world with disk := d } } := by
  induction c with
  | ret b =>
    intro s h
    cases h
    exact ⟨rfl, rfl⟩
  | cmd c k ih =>
    intro s h
    change specOf (act m) E (.block c) s _
    rw [specOf, act]
    rw [exec] at h
    cases hx : answer m c s.world.disk with
    | error e =>
      simp [hx] at h
    | ok r =>
      rw [hx] at h
      have hplain : s.trace.block m c = s.trace := by
        cases c with
        | copyin | copyout => exact hc.1.elim
        | _ => rfl
      rw [hplain]
      exact ih r.1 (hc.2 r.1) h

/-- The first byte of a copy arrives if its page is there. -/
theorem reached_ne_nil {va len : Nat} (hva : va < 2 ^ 64) (h : Readable m va) (hlen : len ≠ 0) :
    reached m va len ≠ [] := by
  rw [Readable, mod_eq_of_lt hva, userByte, isSome_map] at h
  obtain ⟨page, hpage⟩ := isSome_iff_exists.mp h
  obtain ⟨len, rfl⟩ := exists_eq_succ_of_ne_zero hlen
  have hmod : va % pgSize < pgSize := mod_lt va (by decide)
  have hle : va % pgSize ≤ va := mod_le ..
  rw [reached, ne_eq, map_eq_nil_iff, range_eq_nil, Xv6.copyin, copyinLoop, if_neg hlen]
  dsimp only
  rw [hpage]
  rw [length_append, length_map, length_range]
  omega

theorem wp_eitherCopyout_stored {addr : Nat} {bytes : List UInt8} (haddr : addr < 2 ^ 64)
    (hm : Readable m addr) (hlen : bytes.length ≠ 0) (f : Bool → K Nat α) :
    wp (specOf (act m) Stored) (blocks (eitherCopyout (.user addr) 0 bytes >>= f)) s fun _ s' =>
      Stored s'.trace := by
  refine stored_grows (blocks (f _)) (append_ne_nil_of_right_ne_nil s.trace.stored ?_)
  rw [add_zero, mod_eq_of_lt haddr]
  exact reached_ne_nil haddr hm hlen

theorem wp_readiLoop_stored {addr k off : Nat} {ip : Inode} (haddr : addr < 2 ^ 64)
    (hm : Readable m addr) (hk : k ≠ 0) (hbn : off / bsize < maxfile)
    (h0 : ip.ref s.world.disk (slotOf (off / bsize)) ≠ 0) :
    wp (specOf (act m) Stored) (blocks (readiLoop sb (.user addr) k k ip 0 off [])) s fun _ s' =>
      Stored s'.trace := by
  obtain ⟨k, rfl⟩ := Nat.exists_eq_succ_of_ne_zero hk
  have hb : 0 < bsize - off % bsize := Nat.sub_pos_of_lt (mod_bsize_lt _)
  rw [readiLoop, if_pos (Nat.succ_pos k), blocks_bind]
  have hbmap : Yields m (bmap sb ip (off / bsize)) s.world.disk _ := yields_bmap hbn h0
  refine wp_bind (monotone_specOf _ _) <| wp_mono (monotone_specOf _ _) ?_ <|
    wp_blocks_of_exec (noCopy_bmap ip _) hbmap
  rintro _ _ ⟨rfl, rfl⟩
  exact wp_eitherCopyout_stored haddr hm (by rw [length_map, length_range]; omega) _

end Slips

/-- The file system is as it should be: the file is there, its copy is that on disk, and it has no
holes. -/
structure Intact (sb : Superblock) (w : World) : Prop where
  full : Full sb w.disk
  inum : w.ip.inum < sb.ninodes
  type : (dinode sb w.disk w.ip.inum).type ≠ 0
  valid : w.valid = true → dinode sb w.disk w.ip.inum = w.ip

theorem Intact.inode {sb : Superblock} {w : World} (h : Intact sb w) :
    w.inode sb = dinode sb w.disk w.ip.inum := by
  rw [World.inode]
  split
  · rename_i hv
    exact (h.valid hv).symm
  · rfl

/-- **A read that slips through** stores something. -/
theorem wp_fileread_slips {sb : Superblock} {m : UserMem} {addr : Nat} {n : Int} {f : OpenFile}
    {w : World} {ws : List World} {t : Trace} (h31 : -2 ^ 31 ≤ n) (haddr : addr < 2 ^ 64)
    (fuel : Nat)
    (hw : Intact sb w) (h : Slips sb m f w addr n) :
    wp (specOf (act m) Stored) (fileread sb fuel f addr n) ⟨w, ws, t⟩ fun _ s =>
      Stored s.trace := by
  have hu : (uint n : Int) = 2 ^ 32 + n := by
    have := h.neg
    rw [uint]
    omega
  have hneg := h.neg
  have hsum := h.sum
  have hin := h.inside
  rw [fileread, if_neg (by rw [h.readable]; decide), h.type]
  refine wp_ilock (fun h0 => absurd (hw.inode ▸ h0) hw.type) ?_
  rw [wp_get]
  have hpos : 0 < bsize := by decide
  have hblock : w.off / bsize * bsize < (dinode sb w.disk w.ip.inum).size :=
    (div_mul_le_self ..).trans_lt (hw.inode ▸ hin)
  obtain ⟨hbn, h0⟩ := hw.full _ hw.inum hw.type _ hblock
  rw [refs_self hw.inum hw.type, ← hw.inode] at h0
  have hread : wp (specOf (act m) Stored)
      (blocks (readi sb (w.inode sb) (.user addr) w.off (uint n)))
      ⟨{ w with valid := true, ip := w.inode sb }, ws, t⟩ fun _ s => Stored s.trace := by
    rw [readi, if_neg (by omega)]
    refine wp_readiLoop_stored haddr h.mapped ?_ hbn h0
    split <;> omega
  exact wp_bind (monotone_specOf _ _) <| wp_mono (monotone_specOf _ _)
    (fun a s hs => stored_grows _ hs) hread

theorem argint_bounds (a : UInt64) : -2 ^ 31 ≤ argint a ∧ argint a < 2 ^ 31 := by
  rw [argint, int]
  split <;> omega

/-- **How much is transferred**, for every file, offset and length, and whatever other processes do
meanwhile:

* `write` takes at most `max(n, 0)` bytes and returns no more;
* `read` stores to the first `max(n, 0)` bytes of the buffer only and returns no more, unless it is
  a read of a negative length from an inode that slips through;
* which does store something, if the file system is as it should be. -/
theorem transfer_lengths (sb : Superblock) (m : UserMem) (fuel : Nat) (f : OpenFile)
    (a1 a2 : UInt64)
    (w : World) (others : List World) :
    Bounded a1.toNat (argint a2) (exec (act m) (sysWrite sb fuel (some f) a1 a2) (start w others)) ∧
    (¬ Slips sb m f w a1.toNat (argint a2) →
      Bounded a1.toNat (argint a2)
        (exec (act m) (sysRead sb fuel (some f) a1 a2) (start w others))) ∧
    (Intact sb w → Slips sb m f w a1.toNat (argint a2) →
      ¬ Bounded a1.toNat (argint a2)
        (exec (act m) (sysRead sb fuel (some f) a1 a2) (start w others))) := by
  obtain ⟨h1, h2⟩ := argint_bounds a2
  have haddr : a1.toNat < 2 ^ 64 := a1.toNat_lt
  refine ⟨.of_wp (traces_filewrite fuel f ⟨rfl, le_refl _⟩ w others), fun h => ?_,
    fun hw h hb => ?_⟩
  · exact .of_wp (wp_fileread h1 h2 haddr fuel h ⟨nofun, zero_le _⟩)
  · have hslip : wp (specOf (act m) Stored) (sysRead sb fuel (some f) a1 a2) (start w others) _ :=
      wp_fileread_slips h1 haddr fuel hw h
    have hstored := wp_specOf_iff.mp hslip
    have hempty : ∀ {t : Trace}, t.Within a1.toNat (argint a2).toNat → ¬ Stored t := by
      rintro t ht hne
      obtain ⟨a, ha⟩ := exists_mem_of_ne_nil _ hne
      obtain ⟨j, hj, -⟩ := ht.stored a ha
      simp [Int.toNat_of_nonpos h.neg.le] at hj
    cases hx : exec (act m) (sysRead sb fuel (some f) a1 a2) (start w others) with
    | ok r =>
      rw [hx] at hb hstored
      exact hempty hb.1 hstored
    | error t =>
      rw [hx] at hb hstored
      exact hempty hb hstored

theorem ok_of_toOption {ε α : Type} {x : Except ε α} {a : α} (h : x.toOption = some a) :
    x = .ok a := by
  cases x with
  | ok b => exact congrArg Except.ok (some.inj h)
  | error e => nomatch h

/-- A file opened for reading, on a machine that does nothing else. -/
def opened (disk : Disk) (ip : Inode) : World where
  pipe := Pipe.alloc fun _ => 0
  cons := { buf := fun _ => 0, r := 0, w := 0, e := 0 }
  killed := false
  disk := disk
  valid := true
  ip := ip
  off := 0

/-- Three bytes are written to the file of `withFile`, and then read with the length `a2`: what the
two calls return, and where the second stores. -/
def readBack (a2 : UInt64) : Option (Option Nat × Option (Int × List Nat)) :=
  (exec (answer onePage) (writei mkfsSuper (freshInode 1 tFile) (.user 0) 0 3)
    withFile).toOption.map
    fun r => (r.1.1, (exec (act onePage) (sysRead mkfsSuper 0 (some ⟨.inode, true, false⟩) 0 a2)
      (start (opened r.2 r.1.2) [])).toOption.map fun x => (x.1, x.2.trace.stored))

theorem exists_of_readBack {a2 : UInt64} {v : Int} {l : List Nat}
    (h : readBack a2 = some (some 3, some (v, l))) : ∃ d ip s,
    exec (answer onePage) (writei mkfsSuper (freshInode 1 tFile) (.user 0) 0 3) withFile =
      .ok ((some 3, ip), d) ∧
    exec (act onePage) (sysRead mkfsSuper 0 (some ⟨.inode, true, false⟩) 0 a2)
      (start (opened d ip) []) = .ok (v, s) ∧ s.trace.stored = l := by
  obtain ⟨⟨⟨r, ip⟩, d⟩, hwrite, hrest⟩ := map_eq_some_iff.mp h
  obtain ⟨rfl, hrest⟩ := Prod.mk.inj hrest
  obtain ⟨⟨w, s⟩, hread, hrest⟩ := map_eq_some_iff.mp hrest
  obtain ⟨rfl, hstored⟩ := Prod.mk.inj hrest
  exact ⟨d, ip, s, ok_of_toOption hwrite, ok_of_toOption hread, hstored⟩

/-- Reading two of the three bytes. -/
theorem transfer_lengths_two : ∃ d ip s, exec (act onePage)
      (sysRead mkfsSuper 0 (some ⟨.inode, true, false⟩) 0 2) (start (opened d ip) []) = .ok (2, s) ∧
    s.trace.stored = [0, 1] ∧ Bounded 0 2 (.ok (2, s)) := by
  obtain ⟨d, ip, s, -, hread, hstored⟩ :=
    exists_of_readBack (show readBack 2 = some (some 3, some (2, [0, 1])) by decide +kernel)
  refine ⟨d, ip, s, hread, hstored, hread ▸ ?_⟩
  exact (transfer_lengths mkfsSuper onePage 0 ⟨.inode, true, false⟩ 0 2 (opened d ip) []).2.1
    fun h => absurd h.neg (by decide)

/-- Three bytes are written to a file, and `read(fd, 0, -1)` from its start stores and returns them
all. -/
theorem negative_read_unbounded : ∃ d ip s,
    exec (answer onePage) (writei mkfsSuper (freshInode 1 tFile) (.user 0) 0 3) withFile =
      .ok ((some 3, ip), d) ∧ argint 0xffffffff = -1 ∧
    exec (act onePage) (sysRead mkfsSuper 0 (some ⟨.inode, true, false⟩) 0 0xffffffff)
      (start (opened d ip) []) = .ok (3, s) ∧ s.trace.stored = [0, 1, 2] ∧
    ¬ Bounded 0 (-1) (.ok (3, s)) := by
  obtain ⟨d, ip, s, hwrite, hread, hstored⟩ := exists_of_readBack
    (show readBack 0xffffffff = some (some 3, some (3, [0, 1, 2])) by decide +kernel)
  exact ⟨d, ip, s, hwrite, by decide, hread, hstored, fun hb => absurd hb.2 (by decide)⟩

end Xv6.Lengths
