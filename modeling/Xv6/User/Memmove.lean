import Mathlib.Algebra.Group.Nat.Defs
import Mathlib.Logic.Function.Basic

/-!
# `memmove`, in `kernel/string.c` and `user/ulib.c`

Both copy in a loop, upwards or downwards, and differ in when they do which.  If the source and the
destination overlap, a loop reads what it has not yet overwritten only in one of the directions.
-/

open Function (update update_self update_of_ne)

namespace Xv6.Memmove

abbrev Ptr := BitVec 64

abbrev Mem := Ptr → UInt8

/-- `while(n-- > 0) *d++ = *s++;` -/
def up : Nat → Ptr → Ptr → Mem → Mem
  | 0, _, _, m => m
  | n + 1, d, s, m => up n (d + 1) (s + 1) (update m d (m s))

/-- `while(n-- > 0) *--d = *--s;` -/
def down : Nat → Ptr → Ptr → Mem → Mem
  | 0, _, _, m => m
  | n + 1, d, s, m => down n (d - 1) (s - 1) (update m (d - 1) (m (s - 1)))

/-- `memmove(dst, src, n)` of the kernel. -/
def kernel (dst src : Ptr) (n : Nat) (m : Mem) : Mem :=
  if src < dst ∧ src + .ofNat 64 n > dst then down n (dst + .ofNat 64 n) (src + .ofNat 64 n) m
  else up n dst src m

/-- `memmove(dst, src, n)` of the user library. -/
def user (dst src : Ptr) (n : Nat) (m : Mem) : Mem :=
  if src > dst then up n dst src m else down n (dst + .ofNat 64 n) (src + .ofNat 64 n) m

/-- From `m` to `m'` the `n` bytes at `s` have been moved to `d`. -/
def Moved (n : Nat) (d s : Ptr) (m m' : Mem) : Prop :=
  (∀ i < n, m' (d + .ofNat 64 i) = m (s + .ofNat 64 i)) ∧
    ∀ a, (∀ i < n, a ≠ d + .ofNat 64 i) → m' a = m a

theorem Moved.unique {n : Nat} {d s : Ptr} {m m1 m2 : Mem} (h1 : Moved n d s m m1)
    (h2 : Moved n d s m m2) : m1 = m2 := by
  funext a
  by_cases h : ∃ i < n, a = d + .ofNat 64 i
  · obtain ⟨i, hi, rfl⟩ := h
    rw [h1.1 i hi, h2.1 i hi]
  · have h : ∀ i < n, a ≠ d + .ofNat 64 i := fun i hi he => h ⟨i, hi, he⟩
    rw [h1.2 a h, h2.2 a h]

/-- Upwards, nothing is overwritten before it is read if the source is not below the destination. -/
theorem moved_up {n : Nat} {d s : Ptr} {m : Mem} (hd : d.toNat + n ≤ 2 ^ 64)
    (hs : s.toNat + n ≤ 2 ^ 64) (h : d ≤ s ∨ s.toNat + n ≤ d.toNat) :
    Moved n d s m (up n d s m) := by
  induction n generalizing d s m with
  | zero => exact ⟨nofun, fun _ _ => rfl⟩
  | succ n ih =>
    obtain ⟨h1, h2⟩ := ih (m := update m d (m s)) (d := d + 1) (s := s + 1) (by bv_omega)
      (by bv_omega) (by bv_omega)
    refine ⟨fun i hi => ?_, fun a ha => ?_⟩
    · cases i with
      | zero =>
        rw [up, BitVec.add_zero, BitVec.add_zero, h2 d fun i hi => by bv_omega, update_self]
      | succ i =>
        have hne : s + 1 + .ofNat 64 i ≠ d := by bv_omega
        rw [up, show d + .ofNat 64 (i + 1) = d + 1 + .ofNat 64 i by bv_omega, h1 i (by omega),
          update_of_ne hne, show s + .ofNat 64 (i + 1) = s + 1 + .ofNat 64 i by bv_omega]
    · have had : a ≠ d := by simpa using ha 0 (by omega)
      rw [up, h2 a, update_of_ne had]
      intro i hi
      have := ha (i + 1) (by omega)
      bv_omega

/-- Downwards it is the other way round. -/
theorem moved_down {n : Nat} {d s : Ptr} {m : Mem} (hd : d.toNat + n ≤ 2 ^ 64)
    (hs : s.toNat + n ≤ 2 ^ 64) (h : s ≤ d) :
    Moved n d s m (down n (d + .ofNat 64 n) (s + .ofNat 64 n) m) := by
  induction n generalizing m with
  | zero => exact ⟨nofun, fun _ _ => rfl⟩
  | succ n ih =>
    have hpre (p : Ptr) : p + .ofNat 64 (n + 1) - 1 = p + .ofNat 64 n := by bv_omega
    obtain ⟨h1, h2⟩ := ih (m := update m (d + .ofNat 64 n) (m (s + .ofNat 64 n))) (by omega)
      (by omega)
    rw [down, hpre, hpre]
    refine ⟨fun i hi => ?_, fun a ha => ?_⟩
    · rcases Nat.lt_or_eq_of_le (Nat.le_of_lt_succ hi) with hi | rfl
      · have hne : s + .ofNat 64 i ≠ d + .ofNat 64 n := by bv_omega
        rw [h1 i hi, update_of_ne hne]
      · rw [h2 _ fun j hj => by bv_omega, update_self]
    · rw [h2 a fun i hi => ha i (by omega), update_of_ne (ha n (by omega))]

/-- **Both versions handle every overlap**, and so they agree. -/
theorem memmove_moved {dst src : Ptr} {n : Nat} (hd : dst.toNat + n ≤ 2 ^ 64)
    (hs : src.toNat + n ≤ 2 ^ 64) (m : Mem) :
    Moved n dst src m (kernel dst src n m) ∧ Moved n dst src m (user dst src n m) ∧
      kernel dst src n m = user dst src n m := by
  have hk : Moved n dst src m (kernel dst src n m) := by
    rw [kernel]
    split
    · exact moved_down hd hs (by bv_omega)
    · exact moved_up hd hs (by bv_omega)
  have hu : Moved n dst src m (user dst src n m) := by
    rw [user]
    split
    · exact moved_up hd hs (by bv_omega)
    · exact moved_down hd hs (by bv_omega)
  exact ⟨hk, hu, hk.unique hu⟩

/-- Two bytes, moved by one up to the end of the address space. -/
theorem memmove_moved_overlap :
    Moved 2 (-2) (-3) (fun a => .ofNat a.toNat) (kernel (-2) (-3) 2 fun a => .ofNat a.toNat) :=
  (memmove_moved (by decide) (by decide) _).1

end Xv6.Memmove
