import Xv6.Lib.System
import Mathlib.Algebra.Order.BigOperators.Group.Finset

/-!
# Finite directed multigraphs

The vertices are the numbers below `n`, and `out d` lists the targets of the edges that leave `d`,
with repetition.  Edges are added and removed one at a time, and vertices come and go with their
outgoing edges; the lemmas say what that does to the number of edges that arrive at a vertex and to
what can be reached.
-/

namespace Multigraph

variable {n d i j r : Nat} {out out' : Nat → List Nat} {l : List Nat}

/-! ## How many edges arrive -/

/-- The number of edges that arrive at `i`. -/
def indeg (n : Nat) (out : Nat → List Nat) (i : Nat) : Nat := ∑ d ∈ Finset.range n, (out d).count i

theorem indeg_eq_zero : indeg n out i = 0 ↔ ∀ d < n, i ∉ out d := by
  simp [indeg, List.count_eq_zero]

theorem indeg_pos : 0 < indeg n out i ↔ ∃ d < n, i ∈ out d := by
  rw [Nat.pos_iff_ne_zero, ne_eq, indeg_eq_zero]
  push Not
  rfl

theorem indeg_update (hd : d < n) :
    indeg n (Function.update out d l) i + (out d).count i = indeg n out i + l.count i :=
  Lts.sum_update (Finset.mem_range.mpr hd)

/-! ## Paths -/

/-- There is a path from `r` to `i`. -/
def Path (out : Nat → List Nat) : Nat → Nat → Prop := Relation.ReflTransGen fun d i => i ∈ out d

theorem Path.mono (h : ∀ d i, i ∈ out d → i ∈ out' d) (hp : Path out r i) : Path out' r i :=
  Relation.ReflTransGen.mono h _ _ hp

theorem Path.tail (hp : Path out r d) (h : i ∈ out d) : Path out r i :=
  Relation.ReflTransGen.tail hp h

/-- When a vertex that no edge leaves is cut off, the others can be reached as before. -/
theorem Path.cut (hj : out j = []) (h : ∀ d i, i ∈ out d → i ≠ j → i ∈ out' d) (hp : Path out r i)
    (hi : i ≠ j) : Path out' r i := by
  induction hp with
  | refl => exact .refl
  | @tail b c _ hbc ih =>
    have hb : b ≠ j := by
      rintro rfl
      simp [hj] at hbc
    exact Path.tail (ih hb) (h b c hbc hi)

end Multigraph
