import Mathlib.Data.Fintype.Fin
import Mathlib.Data.Nat.Bitwise
import Xv6.Lib.Ensures

/-!
# Page tables and user copies: `kernel/kalloc.c`, `kernel/vm.c` and `kernel/syscall.c`

Physical memory is a set of pages.  A page holds the 512 words of a page-table page or the bytes of
data, and the two forms are kept apart: no code reads a page in the form it was not written in, as
long as no page is used in both ways.  The functions run one after the other on this memory, and
`kalloc` may refuse any of its calls: other processes take and give back pages in between.
-/

open Function (update)

namespace Xv6.Vm

/-- What the functions here panic with. -/
inductive Panic
  | walk
deriving DecidableEq

/-- `PGSIZE` -/
def pgsize : Nat := 4096

/-- `MAXVA` -/
def maxva : Nat := 2 ^ 38

/-- `PGROUNDDOWN(a)` -/
def pgrounddown (a : Nat) : Nat := a / pgsize * pgsize

/-- `pte & PTE_V` -/
def valid (pte : Nat) : Bool := pte.testBit 0

/-- `pte & PTE_U` -/
def user (pte : Nat) : Bool := pte.testBit 4

/-- `PA2PTE(pa)` -/
def pa2pte (pa : Nat) : Nat := pa / 2 ^ 12 * 2 ^ 10

/-- `PTE2PA(pte)` -/
def pte2pa (pte : Nat) : Nat := pte / 2 ^ 10 * 2 ^ 12 % 2 ^ 64

/-- `PTE_FLAGS(pte)` -/
def pteFlags (pte : Nat) : Nat := pte % 2 ^ 10

instance neZero512 : NeZero 512 := ⟨by decide⟩

/-- `PX(level, va)` -/
def px (level va : Nat) : Fin 512 := Fin.ofNat 512 (va / 2 ^ (12 + 9 * level))

/-- Physical memory. -/
structure Ram where
  /-- The words of the page at an address. -/
  word : Nat → Fin 512 → Nat
  /-- The bytes. -/
  byte : Nat → UInt8
  /-- `kmem.freelist` -/
  free : List Nat
  /-- Which of the next calls of `kalloc` find nothing. -/
  deny : List Bool

namespace Ram

/-- `memset(p, b, PGSIZE)` -/
def fill (r : Ram) (p : Nat) (b : UInt8) : Ram :=
  { r with
    word := update r.word p fun _ => b.toNat * 0x0101010101010101
    byte := fun a => if p ≤ a ∧ a < p + pgsize then b else r.byte a }

/-- `p[i] = e`, in a page-table page. -/
def set (r : Ram) (p : Nat) (i : Fin 512) (e : Nat) : Ram :=
  { r with word := update r.word p (update (r.word p) i e) }

/-- `memmove` of `bs` to the address `a`. -/
def store (r : Ram) (a : Nat) (bs : List UInt8) : Ram :=
  { r with byte := fun b => if a ≤ b ∧ b < a + bs.length then bs.getD (b - a) 0 else r.byte b }

/-- The `n` bytes at the address `a`. -/
def load (r : Ram) (a n : Nat) : List UInt8 := (List.range n).map fun i => r.byte (a + i)

/-- The first page of the free list is gone. -/
def pop (r : Ram) : Ram := { r with free := r.free.tail }

end Ram

/-- Kernel code on the memory. -/
abbrev Kern := StateT Ram (Except Panic)

/-- `kalloc()` -/
def kalloc : Kern (Option Nat) := do
  let r ← get
  modify fun r => { r with deny := r.deny.tail }
  match r.deny.head?, r.free with
  | some true, _ => return none
  | _, [] => return none
  | _, p :: _ => do
    modify fun r => r.pop.fill p 5
    return some p

/-- The loop of `walk`, at the table `p` of a level.  A pointer to an entry is its page and its
index. -/
def walkFrom (va : Nat) (alloc : Bool) : Nat → Nat → Kern (Option (Nat × Fin 512))
  | 0, p => return some (p, px 0 va)
  | level + 1, p => do
    let i := px (level + 1) va
    let pte := (← get).word p i
    if valid pte then walkFrom va alloc level (pte2pa pte)
    else if !alloc then return none
    else match ← kalloc with
      | none => return none
      | some q => do
        modify fun r => (r.fill q 0).set p i (pa2pte q ||| 1)
        walkFrom va alloc level q

/-- `walk(pagetable, va, alloc)` -/
def walk (pagetable va : Nat) (alloc : Bool) : Kern (Option (Nat × Fin 512)) :=
  if maxva ≤ va then throw .walk else walkFrom va alloc 2 pagetable

/-- `walkaddr(pagetable, va)` -/
def walkaddr (pagetable va : Nat) : Kern Nat := do
  if maxva ≤ va then return 0
  else match ← walk pagetable va false with
  | none => return 0
  | some (p, i) =>
    let pte := (← get).word p i
    if !valid pte then return 0
    else if !user pte then return 0
    else return pte2pa pte

/-! ## Copies between the kernel and a user -/

/-- The loop of `copyout`.  Every round copies a byte or more, so that as many rounds as bytes are
enough. -/
def copyoutLoop (pagetable : Nat) : Nat → Nat → List UInt8 → Kern Int
  | 0, _, _ => return 0
  | rounds + 1, dstva, src =>
    if src.length = 0 then return 0
    else do
      let va0 := pgrounddown dstva
      let pa0 ← walkaddr pagetable va0
      if pa0 = 0 then return -1
      else do
        let n := min (pgsize - (dstva - va0)) src.length
        modify fun r => r.store (pa0 + (dstva - va0)) (src.take n)
        copyoutLoop pagetable rounds ((va0 + pgsize) % 2 ^ 64) (src.drop n)

/-- `copyout(pagetable, dstva, src, len)` -/
def copyout (pagetable dstva : Nat) (src : List UInt8) : Kern Int :=
  copyoutLoop pagetable src.length dstva src

/-- The loop of `copyin`.  It gives what has been stored to `dst`, too. -/
def copyinLoop (pagetable : Nat) : Nat → Nat → Nat → Kern (Int × List UInt8)
  | 0, _, _ => return (0, [])
  | rounds + 1, srcva, len =>
    if len = 0 then return (0, [])
    else do
      let va0 := pgrounddown srcva
      let pa0 ← walkaddr pagetable va0
      if pa0 = 0 then return (-1, [])
      else do
        let n := min (pgsize - (srcva - va0)) len
        let bs := (← get).load (pa0 + (srcva - va0)) n
        let (x, dst) ← copyinLoop pagetable rounds ((va0 + pgsize) % 2 ^ 64) (len - n)
        return (x, bs ++ dst)

/-- `copyin(pagetable, dst, srcva, len)` -/
def copyin (pagetable srcva len : Nat) : Kern (Int × List UInt8) :=
  copyinLoop pagetable len srcva len

/-- The inner loop of `copyinstr` on the bytes of a page: what it stores, and `got_null`. -/
def upToNull : List UInt8 → List UInt8 × Bool
  | [] => ([], false)
  | c :: cs => if c = 0 then ([0], true) else (c :: (upToNull cs).1, (upToNull cs).2)

/-- The outer loop of `copyinstr`. -/
def copyinstrLoop (pagetable : Nat) : Nat → Nat → Nat → Kern (Int × List UInt8)
  | 0, _, _ => return (-1, [])
  | rounds + 1, srcva, max =>
    if max = 0 then return (-1, [])
    else do
      let va0 := pgrounddown srcva
      let pa0 ← walkaddr pagetable va0
      if pa0 = 0 then return (-1, [])
      else do
        let n := min (pgsize - (srcva - va0)) max
        let (bs, gotNull) := upToNull ((← get).load (pa0 + (srcva - va0)) n)
        if gotNull then return (0, bs)
        else do
          let (x, dst) ← copyinstrLoop pagetable rounds ((va0 + pgsize) % 2 ^ 64) (max - n)
          return (x, bs ++ dst)

/-- `copyinstr(pagetable, dst, srcva, max)` -/
def copyinstr (pagetable srcva max : Nat) : Kern (Int × List UInt8) :=
  copyinstrLoop pagetable max srcva max

/-- `strlen(s)` -/
def strlen (s : List UInt8) : Nat := (s.takeWhile (· ≠ 0)).length

/-- `fetchstr(addr, buf, max)`, with what it stores to `buf`. -/
def fetchstr (pagetable addr max : Nat) : Kern (Int × List UInt8) := do
  let (err, buf) ← copyinstr pagetable addr max
  return (if err < 0 then err else strlen buf, buf)

/-- `argstr(n, buf, max)`, with the argument registers that the trapframe holds. -/
def argstr (pagetable : Nat) (trapframe : Fin 6 → Nat) (n : Fin 6) (max : Nat) :
    Kern (Int × List UInt8) :=
  fetchstr pagetable (trapframe n) max

end Xv6.Vm
