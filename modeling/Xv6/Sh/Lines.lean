import Xv6.Sh.Correctness

/-!
# Cutting a line

`main` cuts a line at every `;`, and gives the pieces to `process_one_cmd` one after the other,
while the parser knows `;` as well.  The two agree as long as no `;` stands inside parentheses, as
in `(a;b)`, of which both pieces are rejected.
-/

namespace Xv6.Sh

open List

/-- The inner loop of `main`, for the line in `buf`: the strings that `process_one_cmd` is given.
What stands between `cmdstart` and `p` is `cur`. -/
def cut (cur : List UInt8) : List UInt8 → List (List UInt8)
  | [] => [cur]
  | c :: p => if c = 59 then cur :: cut [] p else cut (cur ++ [c]) p

/-- What the shell does with a piece. -/
inductive Outcome
  | chdir (dir : List UInt8)
  /-- `sleep(atoi(s))` -/
  | sleep (s : List UInt8)
  /-- In a child: `runcmd(parsecmd(buf))`. -/
  | run (buf : List UInt8)
  deriving DecidableEq

/-- `process_one_cmd(buf)`; the words are `cd` and `wait`. -/
def processOneCmd (buf : List UInt8) : Outcome :=
  if [99, 100, 32] <+: buf then .chdir (buf.dropLast.drop 3)
  else if [119, 97, 105, 116, 32] <+: buf then .sleep (buf.drop 5)
  else .run buf

/-! ## Cutting and parsing -/

/-- `parsecmd(line)` returns the tree `t`. -/
def Parses (line : List UInt8) (t : Tree) : Prop :=
  ∃ cmd b, parsecmd (4 * line.length + 5) line = .ok (cmd, b) ∧ cmd.map Word.text = t

/-- What the shell does, one after the other, is what the tree says. -/
def Agree : List Outcome → Tree → Prop
  | [], _ => False
  | x :: xs, t => xs = [] ∧ (∃ p, x = .run p ∧ Parses p t) ∨
    ∃ l r, t = .list l r ∧ (∃ p, x = .run p ∧ Parses p l) ∧ Agree xs r

variable {a b cur line : List UInt8} {ts us : List Token} {t u : Tree}
  {rs : List (List UInt8 × Mode)}

theorem Parses.unique (h : Parses line t) (h' : Parses line u) : t = u := by
  obtain ⟨cmd, b, hp, rfl⟩ := h
  obtain ⟨cmd', b', hp', rfl⟩ := h'
  cases hp.symm.trans hp'
  rfl

theorem cut_append (h : 59 ∉ a) : cut cur (a ++ b) = cut (cur ++ a) b := by
  induction a generalizing cur with
  | nil => simp
  | cons c a ih =>
    obtain ⟨hc, h⟩ := ne_and_not_mem_of_not_mem_cons h
    simp [cut, hc.symm, ih h]

theorem cut_semi (h : 59 ∉ a) : cut [] (a ++ 59 :: b) = a :: cut [] b := cut_append h

theorem cut_of_not_mem (h : 59 ∉ a) : cut [] a = [a] := by
  simpa [cut] using @cut_append a [] [] h

theorem extend_append (c : UInt8) : extend c (ts ++ .semi :: us) = extend c ts ++ .semi :: us := by
  cases ts with
  | nil => rfl
  | cons t ts => cases t <;> rfl

theorem lex_semi : lex (a ++ 59 :: b) = lex a ++ .semi :: lex b := by
  have hsemi : lex (59 :: b) = .semi :: lex b := lex_symbol rfl (by decide) rfl
  have hword : isWordChar 59 = false := rfl
  fun_induction lex a <;> simp_all [lex, extend_append]

/-! ## Parentheses -/

/-- No `;` stands inside parentheses: as many are closed before it as have been opened. -/
def SemisOutside (l : List UInt8) : Prop :=
  ∀ i < l.length, l[i]? = some 59 → (l.take i).count 40 = (l.take i).count 41

instance {l : List UInt8} : Decidable (SemisOutside l) :=
  inferInstanceAs (Decidable (∀ i < l.length, _))

/-- How many parentheses are open after the tokens, if `d` were before.  It is an error to close one
that is not open; a `;` outside is one only if `top` is false. -/
def walk (top : Bool) (d : Nat) : List Token → Option Nat
  | [] => some d
  | .lpar :: ts => walk top (d + 1) ts
  | .rpar :: ts => if d = 0 then none else walk top (d - 1) ts
  | .semi :: ts => if d = 0 ∧ top = false then none else walk top d ts
  | _ :: ts => walk top d ts

variable {top : Bool} {d m : Nat}

theorem walk_append : walk top d (ts ++ us) = (walk top d ts).bind (walk top · us) := by
  fun_induction walk top d ts <;> simp_all [walk]

@[simp]
theorem walk_replicate_amp {k : Nat} : walk top d (replicate k .amp) = some d := by
  induction k with
  | zero => rfl
  | succ k ih => exact ih

theorem Redirs.balanced (h : Redirs ts rs) : walk top d ts = some d := by
  induction h with
  | nil => rfl
  | cons _ ih => exact ih

theorem Words.balanced {ws : List (List UInt8)} (h : Words ts ws rs) : walk top d ts = some d := by
  induction h with
  | nil => rfl
  | cons h _ ih => simpa [walk_append, walk, h.balanced] using ih

mutual

theorem Line.balanced : ∀ {ts : List Token} {t : Tree} {d : Nat}, Line ts t → (d = 0 → top = true) →
    walk top d ts = some d
  | _, _, _, .last h, _ => by simp [walk_append, h.balanced]
  | _, _, _, .list h h', htop => by
    simp +contextual [walk_append, walk, h.balanced, htop, h'.balanced htop]

theorem Pipe.balanced : ∀ {ts : List Token} {t : Tree} {d : Nat}, Pipe ts t → walk top d ts = some d
  | _, _, _, .last h => h.balanced
  | _, _, _, .pipe h h' => by simp [walk_append, walk, h.balanced, h'.balanced]

theorem Exec.balanced : ∀ {ts : List Token} {t : Tree} {d : Nat}, Exec ts t → walk top d ts = some d
  | _, _, d, .block h h' => by
    have hl := h.balanced (d := d + 1) nofun
    simp [walk_append, walk, hl, h'.balanced]
  | _, _, _, .simple h h' _ => by simp [walk_append, h.balanced, h'.balanced]

end

theorem count_of_walk (h : walk top d ts = some m) : d + ts.count .lpar = m + ts.count .rpar := by
  fun_induction walk top d ts <;> simp_all <;> omega

theorem walk_of_not_mem (h : .semi ∉ ts) : walk false d ts = walk true d ts := by
  fun_induction walk true d ts <;> simp_all [walk]

theorem count_extend {c : UInt8} {x : Token} (hx : ∀ w, .word w ≠ x) :
    (extend c ts).count x = ts.count x := by
  fun_cases extend c ts <;> simp [hx]

/-- The lexer neither loses nor adds a `;` or a parenthesis. -/
theorem count_lex {x : Token} {c : UInt8}
    (h : x = .semi ∧ c = 59 ∨ x = .lpar ∧ c = 40 ∨ x = .rpar ∧ c = 41) :
    (lex a).count x = a.count c := by
  have hspace : ∀ e, isSpace e = true → e ≠ c := by
    rintro e he rfl
    rcases h with ⟨-, rfl⟩ | ⟨-, rfl⟩ | ⟨-, rfl⟩ <;> cases he
  have hsymbol : ∀ e, isSymbol e = false → e ≠ c := by
    rintro e he rfl
    rcases h with ⟨-, rfl⟩ | ⟨-, rfl⟩ | ⟨-, rfl⟩ <;> cases he
  have htoken : ∀ e, isSymbol e = true → e ≠ 62 → (symbolToken e = x ↔ e = c) := by
    intro e he h62
    unfold symbolToken
    rcases h with ⟨rfl, rfl⟩ | ⟨rfl, rfl⟩ | ⟨rfl, rfl⟩ <;> split_ifs <;> simp_all [isSymbol]
  have hword : ∀ w, .word w ≠ x := by rintro w rfl; simp at h
  have hredir : ∀ m, .redir m ≠ x := by rintro m rfl; simp at h
  have h62 : 62 ≠ c := by rintro rfl; simp at h
  fun_induction lex a <;> simp_all [count_extend, count_cons]

/-- A line with a `;` outside of parentheses is a list. -/
theorem Line.split (h : Line (ts ++ .semi :: us) t) (hs : .semi ∉ ts)
    (hw : walk false 0 ts = some 0) :
    ∃ l r, t = .list l r ∧ Line ts l ∧ Line us r := by
  have hnone : ∀ {vs : List Token}, walk false 0 (ts ++ .semi :: vs) = none := by
    simp [walk_append, hw, walk]
  generalize he : ts ++ .semi :: us = vs at h
  cases h with
  | last h =>
    have := he ▸ hnone
    simp [walk_append, h.balanced] at this
  | @list vs vs' l r k h h' =>
    rcases append_eq_append_iff.mp he with ⟨c, hc, hd⟩ | ⟨c, rfl, hd⟩
    · cases c with
      | nil =>
        rw [append_nil] at hc
        obtain ⟨-, rfl⟩ := cons.inj hd
        exact ⟨_, _, rfl, hc ▸ .last h, h'⟩
      | cons x c =>
        obtain ⟨rfl, -⟩ := cons.inj hd
        have := hc ▸ hnone
        simp [walk_append, h.balanced] at this
    · cases c with
      | nil =>
        obtain ⟨-, rfl⟩ := cons.inj hd
        exact ⟨_, _, rfl, by simpa using Line.last h, h'⟩
      | cons x c =>
        obtain ⟨rfl, -⟩ := cons.inj hd
        simp at hs

theorem parses_iff (h0 : 0 ∉ line) : Parses line t ↔ Line (lex line) t :=
  (line_iff_parsecmd h0 le_rfl).symm

theorem Parses.count_eq (h0 : 0 ∉ line) (h : Parses line t) : line.count 40 = line.count 41 := by
  have hc := count_of_walk (((parses_iff h0).mp h).balanced (d := 0) fun _ => rfl)
  rw [count_lex (c := 40) (by simp), count_lex (c := 41) (by simp)] at hc
  omega

theorem SemisOutside.semi (h : SemisOutside (a ++ 59 :: b)) :
    a.count 40 = a.count 41 ∧ SemisOutside b := by
  have ha := h a.length (by simp) (by simp)
  rw [take_left] at ha
  refine ⟨ha, fun i hi h59 => ?_⟩
  have hb := h (a.length + (i + 1)) (by simpa using hi) (by
    rw [getElem?_append_right (Nat.le_add_right ..), Nat.add_sub_cancel_left]
    exact h59)
  rw [take_length_add_append] at hb
  simpa [ha] using hb

/-- Cut outside of parentheses, the pieces make up the tree. -/
theorem SemisOutside.agree (hs : SemisOutside line) (h0 : 0 ∉ line) (ht : Parses line t)
    (hb : ∀ p ∈ cut [] line, processOneCmd p = .run p) :
    Agree ((cut [] line).map processOneCmd) t := by
  induction hn : line.length using Nat.strong_induction_on generalizing line t with
  | _ n ih =>
    by_cases hsemi : 59 ∈ line
    · obtain ⟨a, b, rfl, ha⟩ := eq_append_cons_of_mem hsemi
      rw [cut_semi ha] at hb ⊢
      obtain ⟨hpa, hb⟩ := forall_mem_cons.mp hb
      have h0a : 0 ∉ a := fun h => h0 (mem_append_left _ h)
      have h0b : 0 ∉ b := fun h => h0 (mem_append_right _ (mem_cons_of_mem _ h))
      have hline := (parses_iff h0).mp ht
      rw [lex_semi] at hline
      have hw := hline.balanced (d := 0) fun _ => rfl
      rw [walk_append] at hw
      obtain ⟨m, hm, -⟩ := Option.bind_eq_some_iff.mp hw
      have hc := count_of_walk hm
      obtain ⟨hbal, hs⟩ := hs.semi
      rw [count_lex (c := 40) (by simp), count_lex (c := 41) (by simp), hbal] at hc
      obtain rfl : m = 0 := by omega
      have hno : .semi ∉ lex a :=
        count_eq_zero.mp ((count_lex (by simp)).trans (count_eq_zero.mpr ha))
      rw [← walk_of_not_mem hno] at hm
      obtain ⟨l, r, rfl, hl, hr⟩ := hline.split hno hm
      rw [map_cons, hpa]
      exact .inr ⟨l, r, rfl, ⟨a, rfl, (parses_iff h0a).mpr hl⟩,
        ih b.length (by simp at hn; omega) hs h0b ((parses_iff h0b).mpr hr) hb rfl⟩
    · rw [cut_of_not_mem hsemi, forall_mem_singleton] at hb
      rw [cut_of_not_mem hsemi, map_singleton, hb]
      exact .inl ⟨rfl, line, rfl, ht⟩

theorem Agree.parses {ps : List (List UInt8)} (hb : ∀ p ∈ ps, processOneCmd p = .run p)
    (h : Agree (ps.map processOneCmd) t) : ∀ p ∈ ps, ∃ u, Parses p u := by
  induction ps generalizing t with
  | nil => nofun
  | cons p ps ih =>
    obtain ⟨hp, hb⟩ := forall_mem_cons.mp hb
    rw [map_cons, hp, Agree] at h
    refine forall_mem_cons.mpr ?_
    rcases h with ⟨hnil, _, ⟨⟩, h⟩ | ⟨l, r, -, ⟨_, ⟨⟩, h⟩, hag⟩
    · rw [map_eq_nil_iff.mp hnil]
      exact ⟨⟨t, h⟩, nofun⟩
    · exact ⟨⟨l, h⟩, ih hb hag⟩

/-- No `;` was inside if the parentheses of every piece match. -/
theorem count_eq_of_cut {l : List UInt8} {i : Nat} (h : ∀ p ∈ cut cur l, p.count 40 = p.count 41)
    (hi : l[i]? = some 59) : (cur ++ l.take i).count 40 = (cur ++ l.take i).count 41 := by
  induction l generalizing cur i with
  | nil => simp at hi
  | cons c l ih =>
    rw [cut] at h
    split at h
    · rename_i hc
      obtain ⟨hcur, h⟩ := forall_mem_cons.mp h
      cases i with
      | zero => simpa using hcur
      | succ i => simpa [hc, hcur] using ih h hi
    · rename_i hc
      cases i with
      | zero => exact absurd (Option.some.inj hi) hc
      | succ i => simpa using ih h hi

theorem subset_of_mem_cut {p : List UInt8} (h : p ∈ cut cur line) : p ⊆ cur ++ line := by
  induction line generalizing cur with
  | nil => simp_all [cut]
  | cons c line ih =>
    rw [cut] at h
    split at h
    · rcases mem_cons.mp h with rfl | h
      · exact subset_append_left ..
      · exact List.Subset.trans (ih h) (by simp)
    · simpa using ih h

/-- **Cutting agrees with parsing** exactly if no `;` stands inside parentheses; and exactly then no
piece is rejected. -/
theorem cut_agrees_iff (h0 : 0 ∉ line) (ht : Parses line t)
    (hb : ∀ p ∈ cut [] line, processOneCmd p = .run p) :
    (Agree ((cut [] line).map processOneCmd) t ↔ SemisOutside line) ∧
    ((∀ p ∈ cut [] line, ∃ u, Parses p u) ↔ SemisOutside line) := by
  have hout : (∀ p ∈ cut [] line, ∃ u, Parses p u) → SemisOutside line := fun h i _ hi => by
    refine @count_eq_of_cut [] line i (fun p hp => ?_) hi
    obtain ⟨u, hu⟩ := h p hp
    exact hu.count_eq fun hm => h0 (subset_of_mem_cut hp hm)
  exact ⟨⟨fun h => hout (h.parses hb), fun h => h.agree h0 ht hb⟩,
    ⟨hout, fun h => (h.agree h0 ht hb).parses hb⟩⟩

/-- The line `(a)|b;c`. -/
theorem cut_agrees_list : Agree ((cut [] [40, 97, 41, 124, 98, 59, 99]).map processOneCmd)
    (.list (.pipe (.exec [[97]]) (.exec [[98]])) (.exec [[99]])) := by
  exact (cut_agrees_iff (by decide) ⟨_, _, rfl, by decide⟩ (by decide)).1.mpr (by decide)

/-- The line `(a;b)` is accepted, and `(a` is not. -/
theorem cut_rejected : Parses [40, 97, 59, 98, 41] (.list (.exec [[97]]) (.exec [[98]])) ∧
    (cut [] [40, 97, 59, 98, 41]).map processOneCmd = [.run [40, 97], .run [98, 41]] ∧
    ∀ t, ¬Parses [40, 97] t := by
  refine ⟨⟨_, _, rfl, by decide⟩, by decide, ?_⟩
  rintro t ⟨cmd, b, h, -⟩
  nomatch h

end Xv6.Sh
