import Mathlib.Computability.Language

/-!
# The matcher of `grep` and `find`: `match`, `matchhere`, `matchstar`

The code takes a pattern apart while it matches; `parse` does so beforehand, and `lang` is what the
parts stand for.  The matcher is correct if these two readings agree, for every pattern and text.
-/

namespace Xv6.User

open List

/-- Bytes; those of a string are the ones before its null byte. -/
abbrev Str := List UInt8

/-! ## The code -/

/-- The loop of `matchstar(c, re, text)`, where `here` is `matchhere(re, ·)`. -/
def matchstar (c : UInt8) (here : Str → Bool) : Str → Bool
  | [] => here []
  | t :: text => here (t :: text) || ((t = c || c = 46) && matchstar c here text)

/-- `matchhere(re, text)`; the characters are `*`, `$` and `.`. -/
def matchhere : Str → Str → Bool
  | [], _ => true
  | c :: 42 :: re, text => matchstar c (matchhere re) text
  | [36], text => text.isEmpty
  | c :: re, t :: text => (c = 46 || c = t) && matchhere re text
  | _ :: _, [] => false

/-- The loop of `match(re, text)`. -/
def matchFrom (re : Str) : Str → Bool
  | [] => matchhere re []
  | t :: text => matchhere re (t :: text) || matchFrom re text

/-- `match(re, text)`; the character is `^`. -/
def matchText : Str → Str → Bool
  | 94 :: re, text => matchhere re text
  | re, text => matchFrom re text

/-! ## What a pattern stands for -/

/-- The parts of a pattern: a character, or any number of it. -/
inductive Item
  | one (c : UInt8)
  | star (c : UInt8)

/-- The parts of a pattern, and whether it ends with the anchor `$`.  A `*` that does not follow a
character is one itself. -/
def parse : Str → List Item × Bool
  | [] => ([], false)
  | c :: 42 :: re => (.star c :: (parse re).1, (parse re).2)
  | [36] => ([], true)
  | c :: re => (.one c :: (parse re).1, (parse re).2)

/-- `.` stands for any character, every other one for itself. -/
def Fits (c t : UInt8) : Prop := c = 46 ∨ c = t

theorem fits_iff {c t : UInt8} : Fits c t ↔ (t = c || c = 46 : Bool) := by
  rw [Fits, Bool.or_eq_true, decide_eq_true_iff, decide_eq_true_iff, or_comm, eq_comm]

/-- What a part stands for. -/
def Item.lang : Item → Language UInt8
  | .one c => {w | ∃ t, w = [t] ∧ Fits c t}
  | .star c => {w | ∀ t ∈ w, Fits c t}

/-- What the parts stand for, one after the other. -/
def lang (items : List Item) : Language UInt8 := (items.map Item.lang).prod

/-- The pattern without the anchor `^`. -/
def body : Str → Str
  | 94 :: re => re
  | re => re

/-- The text begins with a string of the pattern, and ends with it if the pattern has the anchor. -/
def Begins (p : List Item × Bool) (text : Str) : Prop :=
  ∃ w rest, text = w ++ rest ∧ w ∈ lang p.1 ∧ (p.2 = true → rest = [])

theorem begins_cons {i : Item} {p : List Item × Bool} {text : Str} :
    Begins (i :: p.1, p.2) text ↔ ∃ u v, text = u ++ v ∧ u ∈ i.lang ∧ Begins p v := by
  simp only [Begins, lang, map_cons, prod_cons, Language.mem_mul]
  constructor
  · rintro ⟨-, rest, rfl, ⟨u, hu, w, hw, rfl⟩, hrest⟩
    exact ⟨u, w ++ rest, append_assoc .., hu, w, rest, rfl, hw, hrest⟩
  · rintro ⟨u, -, rfl, hu, w, rest, rfl, hw, hrest⟩
    exact ⟨u ++ w, rest, (append_assoc ..).symm, ⟨u, hu, w, hw, rfl⟩, hrest⟩

/-! ## The matcher is correct -/

theorem matchstar_iff (c : UInt8) (here : Str → Bool) (text : Str) :
    matchstar c here text ↔ ∃ u v, text = u ++ v ∧ u ∈ (Item.star c).lang ∧ here v := by
  induction text with
  | nil =>
    rw [matchstar]
    constructor
    · exact fun h => ⟨[], [], rfl, nofun, h⟩
    · rintro ⟨u, v, he, -, hv⟩
      obtain ⟨rfl, rfl⟩ := nil_eq_append_iff.mp he
      exact hv
  | cons t text ih =>
    rw [matchstar, Bool.or_eq_true, Bool.and_eq_true, ← fits_iff, ih]
    constructor
    · rintro (h | ⟨hc, u, v, rfl, hu, hv⟩)
      · exact ⟨[], t :: text, rfl, nofun, h⟩
      · exact ⟨t :: u, v, rfl, forall_mem_cons.mpr ⟨hc, hu⟩, hv⟩
    · rintro ⟨u, v, he, hu, hv⟩
      cases u with
      | nil => exact .inl (he ▸ hv)
      | cons x u =>
        obtain ⟨rfl, rfl⟩ := List.cons.inj he
        obtain ⟨hc, hu⟩ := forall_mem_cons.mp hu
        exact .inr ⟨hc, u, v, rfl, hu, hv⟩

/-- `matchhere` looks for the pattern where the text begins. -/
theorem matchhere_iff (re text : Str) : matchhere re text ↔ Begins (parse re) text := by
  induction hn : re.length using Nat.strong_induction_on generalizing re text with
  | _ n ih =>
    subst hn
    fun_cases matchhere re text with
    | case1 => simp [parse, Begins, lang]
    | case2 c re =>
      have ih (v : Str) := ih re.length (by simp only [length_cons]; omega) re v rfl
      simp only [parse, begins_cons, matchstar_iff, ih]
    | case3 => simp [parse, Begins, lang]
    | case4 c re t text hstar hend =>
      rw [parse, begins_cons, Bool.and_eq_true, ih re.length (by simp) re text rfl]
      · constructor
        · rintro ⟨hc, h⟩
          exact ⟨[t], text, rfl, ⟨t, rfl, by simpa [Fits] using hc⟩, h⟩
        · rintro ⟨-, v, he, ⟨x, rfl, hc⟩, h⟩
          obtain ⟨rfl, rfl⟩ := List.cons.inj he
          exact ⟨by simpa [Fits] using hc, h⟩
      · exact hstar
      · exact hend
    | case5 c re hstar hend =>
      rw [parse, begins_cons]
      · refine iff_of_false nofun ?_
        rintro ⟨-, v, he, ⟨x, rfl, -⟩, -⟩
        nomatch he
      · exact hstar
      · exact hend

theorem matchFrom_iff (re text : Str) :
    matchFrom re text ↔ ∃ pre rest, text = pre ++ rest ∧ Begins (parse re) rest := by
  induction text with
  | nil => simp [matchFrom, matchhere_iff]
  | cons t text ih =>
    rw [matchFrom, Bool.or_eq_true, ih, matchhere_iff]
    constructor
    · rintro (h | ⟨pre, rest, rfl, h⟩)
      · exact ⟨[], _, rfl, h⟩
      · exact ⟨t :: pre, rest, rfl, h⟩
    · rintro ⟨pre, rest, he, h⟩
      cases pre with
      | nil => exact .inl (he ▸ h)
      | cons x pre => exact .inr ⟨pre, rest, (List.cons.inj he).2, h⟩

/-- **The matcher is correct**: it finds a part of the text that is in the language of the pattern,
at the beginning of the text if the pattern begins with `^`, and at its end if it ends with `$`. -/
theorem match_iff (re text : Str) :
    matchText re text ↔ ∃ pre w rest, text = pre ++ w ++ rest ∧ w ∈ lang (parse (body re)).1 ∧
      (re.head? = some 94 → pre = []) ∧ ((parse (body re)).2 = true → rest = []) := by
  fun_cases matchText re text with
  | case1 re =>
    rw [matchhere_iff, body]
    constructor
    · rintro ⟨w, rest, rfl, hw, hrest⟩
      exact ⟨[], w, rest, rfl, hw, fun _ => rfl, hrest⟩
    · rintro ⟨pre, w, rest, rfl, hw, hpre, hrest⟩
      rw [hpre rfl]
      exact ⟨w, rest, rfl, hw, hrest⟩
  | case2 _ _ hre =>
    have hhead : re.head? ≠ some 94 := fun h => by
      obtain ⟨re', rfl⟩ := head?_eq_some_iff.mp h
      exact hre re' rfl
    rw [matchFrom_iff, body]
    · constructor
      · rintro ⟨pre, -, rfl, w, rest, rfl, hw, hrest⟩
        exact ⟨pre, w, rest, (append_assoc ..).symm, hw, fun h => absurd h hhead, hrest⟩
      · rintro ⟨pre, w, rest, rfl, hw, -, hrest⟩
        exact ⟨pre, w ++ rest, append_assoc .., w, rest, rfl, hw, hrest⟩
    · exact hre

end Xv6.User
