import Xv6.User.Regex

/-!
# `grep` of `user/grep.c`

The buffer holds the line that is not complete yet; everything before it has been looked at.  The
input has no null byte, so that `strchr` and `match` see all of it.  `read` may give less than it is
asked for, and how much it gives each time is arbitrary here.
-/

namespace Xv6.User.Grep

open List

variable (re : Str) {size : Nat → Nat}

/-- The inner loop: what it writes, and what is left at `p`.  Between `p` and where `strchr` looks
stands `line`. -/
def scan (line : Str) : Str → List Str × Str
  | [] => ([], line)
  | c :: cs =>
    if c = 10 then
      ((if matchText re line then [line ++ [10]] else []) ++ (scan [] cs).1, (scan [] cs).2)
    else scan (line ++ [c]) cs

/-- The outer loop, with `buf` in the buffer and `input` still to be read.  A byte or more is read
in every round, so that as many rounds as bytes, and the last one, are enough. -/
def loop (size : Nat → Nat) : Nat → Str → Str → List Str
  | 0, _, _ => []
  | rounds + 1, buf, input =>
    let n := min (1024 - buf.length - 1) (min (size rounds + 1) input.length)
    if 0 < n then
      let (out, rest) := scan re [] (buf ++ input.take n)
      out ++ loop size rounds rest (input.drop n)
    else []

/-- `grep(pattern, fd)`: what is written. -/
def grep (size : Nat → Nat) (input : Str) : List Str := loop re size (input.length + 1) [] input

/-! ## What is written -/

/-- The same without the buffer, except that a line stops everything when it has filled it. -/
def kept (line : Str) : Str → List Str
  | [] => []
  | c :: cs =>
    if 1023 ≤ line.length then []
    else if c = 10 then (if matchText re line then [line ++ [10]] else []) ++ kept [] cs
    else kept (line ++ [c]) cs

variable {re} {line l cs ds : Str}

theorem scan_append (h : 10 ∉ l) : scan re line (l ++ cs) = scan re (line ++ l) cs := by
  induction l generalizing line with
  | nil => simp
  | cons c l ih =>
    obtain ⟨hc, h⟩ := ne_and_not_mem_of_not_mem_cons h
    simp [scan, hc.symm, ih h]

/-- What is left is part of a line, and not longer. -/
theorem scan_rest (cs : Str) (h : 10 ∉ line) : 10 ∉ (scan re line cs).2 ∧
    (scan re line cs).2.length ≤ line.length + cs.length := by
  induction cs generalizing line with
  | nil => exact ⟨h, le_rfl⟩
  | cons c cs ih =>
    rw [scan]
    split
    · have := @ih [] not_mem_nil
      simp at this ⊢
      exact ⟨this.1, by omega⟩
    · rename_i hc
      have := @ih (line ++ [c]) (by simp [h, Ne.symm hc])
      simp at this ⊢
      exact ⟨this.1, by omega⟩

/-- What fits into the buffer can be looked at as a piece. -/
theorem kept_append (h : line.length + cs.length ≤ 1023) :
    kept re line (cs ++ ds) = (scan re line cs).1 ++ kept re (scan re line cs).2 ds := by
  induction cs generalizing line with
  | nil => simp [scan]
  | cons c cs ih =>
    rw [length_cons] at h
    rw [cons_append, kept, if_neg (by omega), scan]
    split
    · rw [ih (by simp; omega), append_assoc]
    · exact ih (by simp; omega)

theorem loop_eq {rounds : Nat} (hr : cs.length < rounds) (hl : 10 ∉ line)
    (hlen : line.length ≤ 1023) : loop re size rounds line cs = kept re line cs := by
  induction rounds generalizing line cs with
  | zero => omega
  | succ rounds ih =>
    rw [loop]
    generalize hn : min (1024 - line.length - 1) (min (size rounds + 1) cs.length) = n
    dsimp only
    split
    · have hcs : kept re line cs = kept re line (cs.take n ++ cs.drop n) := by rw [take_append_drop]
      obtain ⟨h₁, h₂⟩ := @scan_rest re _ (cs.take n) hl
      rw [length_take] at h₂
      rw [scan_append hl, nil_append, hcs, kept_append (by rw [length_take]; omega),
        ih (by rw [length_drop]; omega) h₁ (by omega)]
    · cases cs with
      | nil => rfl
      | cons c cs =>
        rw [length_cons] at hn
        rw [kept, if_pos (by omega)]

/-! ## Lines -/

/-- Lines with a newline each, and what stands after the last newline. -/
def text (ls : List Str) (last : Str) : Str := ls.flatMap (· ++ [10]) ++ last

/-- What `grep` is for. -/
def wanted (re : Str) (ls : List Str) (last : Str) : List Str :=
  (ls.filter (matchText re)).map (· ++ [10]) ++ if last ≠ [] ∧ matchText re last then [last] else []

theorem kept_part (h : 10 ∉ l) (hl : l.length ≤ 1023) : kept re [] (l ++ ds) = kept re l ds := by
  have hscan : scan re [] (l ++ []) = ([], l) := scan_append h
  rw [append_nil] at hscan
  rw [kept_append (by simpa using hl), hscan, nil_append]

theorem kept_full (h : 1023 ≤ line.length) : kept re line cs = [] := by
  cases cs <;> simp [kept, h]

/-- A line that does not fit. -/
theorem kept_long (h : 10 ∉ l) (hl : 1023 ≤ l.length) : kept re [] (l ++ ds) = [] := by
  rw [← take_append_drop 1023 l, append_assoc, kept_part (fun hm => h (mem_of_mem_take hm))
    (by simp)]
  exact kept_full (by simpa using hl)

/-- However the input is cut, what is written are the matching lines before the first one that does
not fit; and what stands after the last newline is not looked at. -/
theorem grep_eq {ls : List Str} {last : Str} (hls : ∀ l ∈ ls, 10 ∉ l) (hlast : 10 ∉ last) :
    grep re size (text ls last) =
      ((ls.takeWhile (·.length < 1023)).filter (matchText re)).map (· ++ [10]) := by
  rw [grep, loop_eq (by simp) not_mem_nil (by simp)]
  induction ls with
  | nil =>
    rcases le_total last.length 1023 with h | h
    · exact (congrArg _ (append_nil last)).symm.trans (kept_part hlast h)
    · exact (congrArg _ (append_nil last)).symm.trans (kept_long hlast h)
  | cons l ls ih =>
    obtain ⟨hl, hls⟩ := forall_mem_cons.mp hls
    have ht : text (l :: ls) last = l ++ 10 :: text ls last := by simp [text]
    rw [ht]
    by_cases h : l.length < 1023
    · rw [kept_part hl h.le, kept, if_neg (by omega), if_pos rfl, ih hls]
      by_cases hm : matchText re l <;> simp [h, hm]
    · simp [kept_long hl (not_lt.mp h), h]

/-- `grep` writes the same for all cuts of its input.  These are the matching lines if and only if
none of them stands at or after a line that does not fit, or after the last newline. -/
theorem grep_matching_iff (size size' : Nat → Nat) (ls : List Str) (last : Str)
    (hls : ∀ l ∈ ls, 10 ∉ l) (hlast : 10 ∉ last) :
    grep re size (text ls last) = grep re size' (text ls last) ∧
      (grep re size (text ls last) = wanted re ls last ↔
        (∀ l ∈ ls.dropWhile (·.length < 1023), ¬ matchText re l) ∧
          (last = [] ∨ ¬ matchText re last)) := by
  refine ⟨by rw [grep_eq hls hlast, grep_eq hls hlast], ?_⟩
  have hsplit : ls.filter (matchText re) =
      (ls.takeWhile (·.length < 1023)).filter (matchText re) ++
        (ls.dropWhile (·.length < 1023)).filter (matchText re) := by
    rw [← filter_append, takeWhile_append_dropWhile]
  have hrest : (if last ≠ [] ∧ matchText re last then [last] else []) = [] ↔
      last = [] ∨ ¬ matchText re last := by
    split <;> grind
  rw [grep_eq hls hlast, wanted, hsplit, map_append, append_assoc, self_eq_append_right,
    append_eq_nil_iff, map_eq_nil_iff, filter_eq_nil_iff, hrest]

/-- `b` of the lines `a`, `b` in two reads. -/
theorem grep_matching_b :
    grep [98] (fun _ => 2) (text [[97], [98]] []) = wanted [98] [[97], [98]] [] :=
  ((grep_matching_iff _ (fun _ => 0) _ _ (by decide) (by decide)).2).mpr (by decide +kernel)

/-- The file that is just `a`, without a newline: nothing is written. -/
theorem grep_last_lost :
    grep [97] (fun _ => 0) (text [] [97]) = [] ∧ wanted [97] [] [97] = [[97]] := by
  decide +kernel

end Xv6.User.Grep
