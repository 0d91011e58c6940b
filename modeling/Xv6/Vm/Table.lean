import Xv6.Vm.Model

/-!
# Page tables as partial maps

A page table is a tree of pages: `page r pt is` is the page-table page that the indices `is` lead to
from the root `pt`, and `lookup r pt` is the table seen as a partial map.  `walkaddr` reads this
map.
-/

namespace Xv6.Vm

/-- The page that entry `i` of the page `p` points to. -/
def child (r : Ram) (p : Nat) (i : Fin 512) : Option Nat :=
  if valid (r.word p i) then some (pte2pa (r.word p i)) else none

/-- The page that the indices lead to, the last one first. -/
def page (r : Ram) (pt : Nat) (is : List (Fin 512)) : Option Nat :=
  is.foldr (fun i p => p.bind (child r · i)) (some pt)

/-- The indices that lead to the last page on the way to an address. -/
def dir (va : Nat) : List (Fin 512) := [px 1 va, px 2 va]

/-- The mapping of an address: its physical page and the flags. -/
def lookup (r : Ram) (pt va : Nat) : Option (Nat × Nat) :=
  (page r pt (dir va)).bind fun p => let pte := r.word p (px 0 va)
    if valid pte then some (pte2pa pte, pteFlags pte) else none

variable {r : Ram} {pt p va va' : Nat}

theorem dir_congr (h : va / pgsize = va' / pgsize) : dir va = dir va' ∧ px 0 va = px 0 va' := by
  simp only [dir, px, List.cons.injEq, Fin.ext_iff, Fin.val_ofNat, and_true, pgsize] at *
  omega

theorem lookup_congr (h : va / pgsize = va' / pgsize) : lookup r pt va = lookup r pt va' := by
  rw [lookup, lookup, (dir_congr h).1, (dir_congr h).2]

theorem lookup_eq_some {f : Nat} : lookup r pt va = some (p, f) ↔
    ∃ q, page r pt (dir va) = some q ∧ valid (r.word q (px 0 va)) ∧
      pte2pa (r.word q (px 0 va)) = p ∧ pteFlags (r.word q (px 0 va)) = f := by
  simp only [lookup, Option.bind_eq_some_iff, Option.ite_none_right_eq_some, Option.some.injEq,
    Prod.mk.injEq]

theorem walk_false (hva : va < maxva) :
    walk pt va false r = .ok ((page r pt (dir va)).map fun p => (p, px 0 va), r) := by
  have h2 : page r pt (dir va) = (child r pt (px 2 va)).bind (child r · (px 1 va)) := rfl
  rw [walk, if_neg (by omega), h2, child, walkFrom]
  by_cases hv : valid (r.word pt (px 2 va))
  · by_cases hw : valid (r.word (pte2pa (r.word pt (px 2 va))) (px 1 va))
    all_goals simp [walkFrom, child, hv, hw]
  · simp [hv]

/-- The physical page of an address that user code may access. -/
def userPage (r : Ram) (pt va : Nat) : Option Nat :=
  (lookup r pt va).bind fun m => if user m.2 then some m.1 else none

theorem walkaddr_eq (va : Nat) :
    walkaddr pt va r = .ok (if va < maxva then (userPage r pt va).getD 0 else 0, r) := by
  rw [walkaddr]
  split
  next h => rw [if_neg (by omega)]; rfl
  next h =>
    have hf (e : Nat) : user (pteFlags e) = user e := by
      rw [user, pteFlags, Nat.testBit_mod_two_pow]
      simp [user]
    rw [if_pos (by omega), bind_ok (walk_false (by omega)), userPage, lookup]
    cases page r pt (dir va) with
    | none => rfl
    | some p => cases hv : valid (r.word p (px 0 va)) <;>
        cases hu : user (r.word p (px 0 va)) <;> simp [hv, hu, hf]

end Xv6.Vm
