import Mathlib.Algebra.Group.Nat.Defs
import Mathlib.Data.List.Basic

/-!
# Kernel objects that are copied to a user

A local variable of the kernel has the bytes that earlier calls left on the stack until the code
stores there, and `copyout` is given all bytes of an object.  What a system call does with two
different stacks is compared for every `copyout`, hence for every page table and memory.
-/

namespace Xv6.Objects

/-- The bytes of a variable. -/
abbrev Object := Nat → UInt8

namespace Object

/-- Store the `n` bytes of `v` at the offset `off`. -/
def put (x : Object) (off n v : Nat) : Object := fun i =>
  if off ≤ i ∧ i < off + n then UInt8.ofNat (v / 256 ^ (i - off)) else x i

/-- The first `n` bytes. -/
def bytes (x : Object) (n : Nat) : List UInt8 := (List.range n).map x

variable {x y : Object} {off n v i : Nat}

theorem put_eq_put_iff :
    x.put off n v i = y.put off n v i ↔ (i < off ∨ off + n ≤ i → x i = y i) := by
  simp only [put]
  split
  · exact iff_of_true rfl fun _ => by omega
  · exact ⟨fun h _ => h, fun h => h (by omega)⟩

theorem bytes_eq_bytes_iff : x.bytes n = y.bytes n ↔ ∀ i < n, x i = y i := by
  simp [bytes]

/-- An object of one integer is stored as a whole. -/
theorem bytes_put (x y : Object) : (x.put 0 n v).bytes n = (y.put 0 n v).bytes n :=
  bytes_eq_bytes_iff.mpr fun i hi => put_eq_put_iff.mpr fun _ => by omega

end Object

open Object

/-- `struct inode`, without what `stati` does not read. -/
structure Inode where
  (dev inum size : UInt32)
  (type nlink : UInt16)

/-- `f->type` -/
inductive FileType
  | none | pipe | inode | device
  deriving DecidableEq

/-- `stati(ip, st)`; in `struct stat` the bytes 12 to 15 belong to no field. -/
def stati (ip : Inode) (st : Object) : Object :=
  ((((st.put 0 4 ip.dev.toNat).put 4 4 ip.inum.toNat).put 8 2 ip.type.toNat).put 10 2
    ip.nlink.toNat).put 16 8 ip.size.toNat

section

variable {m : Type → Type} [Monad m] (copyout : UInt64 → List UInt8 → m Int)

/-- `filestat(f, addr)`; `st` is the local variable. -/
def filestat (type : FileType) (ip : Inode) (addr : UInt64) (st : Object) : m Int :=
  if type = .inode ∨ type = .device then do
    if (← copyout addr ((stati ip st).bytes 24)) < 0 then return -1
    return 0
  else return -1

/-- `wait(addr)`, once it has found a child; `exit` has stored the status. -/
def wait (addr : UInt64) (pid : Int) (status : UInt32) (xstate : Object) : m Int := do
  if addr ≠ 0 then
    if (← copyout addr ((xstate.put 0 4 status.toNat).bytes 4)) < 0 then return -1
  return pid

/-- `sys_pipe()`, with the descriptors that it has got. -/
def pipe (fdarray : UInt64) (rfd wfd : Nat) (fd0 fd1 : Object) : m Int := do
  if (← copyout fdarray ((fd0.put 0 4 rfd).bytes 4)) < 0 then return -1
  if (← copyout (fdarray + 4) ((fd1.put 0 4 wfd).bytes 4)) < 0 then return -1
  return 0

/-- The end of `exec`: the strings of `argv`, and the array of pointers to them. -/
def pushArgs (stackbase : UInt64) : List (List UInt8) → Nat → UInt64 → Object → m Int
  | [], argc, sp, ustack => do
    let sp := sp - UInt64.ofNat ((argc + 1) * 8)
    let sp := sp - sp % 16
    if sp < stackbase then return -1
    if (← copyout sp ((ustack.put (argc * 8) 8 0).bytes ((argc + 1) * 8))) < 0 then return -1
    return argc
  | arg :: argv, argc, sp, ustack => do
    if argc ≥ 32 then return -1
    let sp := sp - UInt64.ofNat (arg.length + 1)
    let sp := sp - sp % 16
    if sp < stackbase then return -1
    if (← copyout sp (arg ++ [0])) < 0 then return -1
    pushArgs stackbase argv (argc + 1) sp (ustack.put (argc * 8) 8 sp.toNat)

/-- The part of `ustack` that has been filled is all that matters. -/
theorem pushArgs_congr {stackbase : UInt64} (sp : UInt64) {argv : List (List UInt8)} {argc : Nat}
    {u v : Object} (h : ∀ i < argc * 8, u i = v i) :
    pushArgs copyout stackbase argv argc sp u = pushArgs copyout stackbase argv argc sp v := by
  have hput : ∀ a, ∀ i < (argc + 1) * 8, u.put (argc * 8) 8 a i = v.put (argc * 8) 8 a i :=
    fun a i hi => put_eq_put_iff.mpr fun _ => h i (by omega)
  induction argv generalizing argc sp u v with
  | nil => rw [pushArgs, pushArgs, bytes_eq_bytes_iff.mpr (hput 0)]
  | cons arg argv ih =>
    have ih (sp : UInt64) := ih sp (hput sp.toNat) fun a i hi =>
      put_eq_put_iff.mpr fun _ => hput sp.toNat i (by omega)
    simp only [pushArgs, ih]

end

/-- What is handed to `copyout`. -/
def record (_ : UInt64) (bs : List UInt8) : StateM (List UInt8) Int := fun _ => (0, bs)

/-- **Stale bytes**: `fstat` gives the user the bytes of the stack between the fields of `struct
stat`.  The other system calls do the same with every stack. -/
theorem stale_bytes_iff (type : FileType) (ip : Inode) (addr : UInt64) (x y x' y' : Object) :
    ((∀ (m : Type → Type) [Monad m] (copyout : UInt64 → List UInt8 → m Int),
        filestat copyout type ip addr x = filestat copyout type ip addr y) ↔
      (type = .inode ∨ type = .device → ∀ i, 12 ≤ i → i < 16 → x i = y i)) ∧
    ∀ (m : Type → Type) [Monad m] (copyout : UInt64 → List UInt8 → m Int),
      (∀ pid status, wait copyout addr pid status x = wait copyout addr pid status y) ∧
      (∀ rfd wfd, pipe copyout addr rfd wfd x x' = pipe copyout addr rfd wfd y y') ∧
      ∀ stackbase argv sp,
        pushArgs copyout stackbase argv 0 sp x = pushArgs copyout stackbase argv 0 sp y := by
  have hst : (stati ip x).bytes 24 = (stati ip y).bytes 24 ↔ ∀ i, 12 ≤ i → i < 16 → x i = y i := by
    simp only [bytes_eq_bytes_iff, stati, put_eq_put_iff]
    constructor
    · intro h i h₁ h₂
      exact h i (by omega) (by omega) (by omega) (by omega) (by omega) (by omega)
    · intro h i _ _ _ _ _ _
      exact h i (by omega) (by omega)
  refine ⟨⟨fun h hf => ?_, fun h m _ copyout => ?_⟩, fun m _ copyout => ⟨fun pid status => ?_,
    fun rfd wfd => ?_, fun stackbase argv sp => pushArgs_congr copyout sp fun i hi => by omega⟩⟩
  · have := congrFun (h (StateM (List UInt8)) record) []
    simp only [filestat, if_pos hf] at this
    exact hst.mp (congrArg Prod.snd this)
  · rw [filestat, filestat]
    split
    · rw [hst.mpr (h ‹_›)]
    · rfl
  · rw [wait, wait, bytes_put x y]
  · rw [pipe, pipe, bytes_put x y, bytes_put x' y']

/-- The root directory, after two different calls. -/
theorem fstat_stale :
    (filestat record .inode ⟨1, 1, 1024, 1, 1⟩ 0 (fun _ => 0) []).2 ≠
      (filestat record .inode ⟨1, 1, 1024, 1, 1⟩ 0 (fun _ => 7) []).2 := by
  decide

end Xv6.Objects
