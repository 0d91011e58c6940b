import Xv6.Sh.Code

/-!
# Pointers and tokens

`gettoken` and `peek` at a pointer, in terms of the tokens of what is left of the line.  A line has
no 0 before its end; a 0 would count as a character of a word.
-/

namespace Xv6.Sh

open List

/-! ## Reading off the tokens -/

section Lex

variable {c : UInt8} {cs : List UInt8}

theorem lex_space (h : isSpace c = true) : lex (c :: cs) = lex cs := by
  cases cs <;> simp [lex, h]

theorem lex_symbol (h1 : isSpace c = false) (h2 : c ≠ 62) (h3 : isSymbol c = true) :
    lex (c :: cs) = symbolToken c :: lex cs := by
  cases cs <;> simp [lex, h1, h2, h3]

theorem lex_append : lex (62 :: 62 :: cs) = .redir .append :: lex cs := by
  rw [lex, if_neg (by decide), if_pos rfl, if_pos rfl]

theorem lex_output (h : deref cs ≠ 62) : lex (62 :: cs) = .redir .output :: lex cs := by
  cases cs with
  | nil => rfl
  | cons d ds =>
    have h : d ≠ 62 := h
    rw [lex, if_neg (by decide), if_pos rfl, if_neg h]

theorem isWordChar_iff : isWordChar c = true ↔ isSpace c = false ∧ isSymbol c = false := by
  rw [isWordChar, Bool.and_eq_true, Bool.not_eq_true', Bool.not_eq_true']

theorem lex_word (h : isWordChar c = true) :
    lex (c :: cs) = .word ((c :: cs).takeWhile isWordChar) ::
      lex ((c :: cs).dropWhile isWordChar) := by
  induction cs generalizing c with
  | nil =>
    obtain ⟨h1, h2⟩ := isWordChar_iff.mp h
    have h62 : c ≠ 62 := fun he => by
      rw [he] at h2
      nomatch h2
    rw [lex, if_neg (by simp [h1]), if_neg h62, if_neg (by simp [h2]), takeWhile_cons_of_pos h,
      dropWhile_cons_of_pos h]
    rfl
  | cons d ds ih =>
    obtain ⟨h1, h2⟩ := isWordChar_iff.mp h
    have h62 : c ≠ 62 := fun he => by
      rw [he] at h2
      nomatch h2
    rw [lex, if_neg (by simp [h1]), if_neg h62, if_neg (by simp [h2]), takeWhile_cons_of_pos h,
      dropWhile_cons_of_pos h]
    by_cases hd : isWordChar d = true
    · rw [if_pos hd, ih hd]
      rfl
    · rw [if_neg hd, takeWhile_cons_of_neg hd, dropWhile_cons_of_neg hd]

end Lex

theorem dropWhile_cases (p : UInt8 → Bool) (s : Ptr) :
    s.dropWhile p = [] ∨ ∃ c cs, s.dropWhile p = c :: cs ∧ p c = false := by
  induction s with
  | nil => exact .inl rfl
  | cons c cs ih =>
    by_cases hc : p c = true
    · rwa [dropWhile_cons_of_pos hc]
    · rw [dropWhile_cons_of_neg hc]
      exact .inr ⟨c, cs, rfl, Bool.eq_false_iff.mpr hc⟩

theorem lex_skip (s : Ptr) : lex (skip s) = lex s := by
  induction s with
  | nil => rfl
  | cons c cs ih =>
    rw [skip]
    by_cases hc : isSpace c = true
    · rw [dropWhile_cons_of_pos hc, lex_space hc]
      exact ih
    · rw [dropWhile_cons_of_neg hc]

theorem skip_suffix (s : Ptr) : skip s <:+ s := dropWhile_suffix _

/-! ## `peek` and `gettoken` -/

@[simp] theorem peek_fst (s : Ptr) (toks : List UInt8) : (peek s toks).1 = skip s := rfl

namespace Token

/-- What `gettoken` returns. -/
def code : Token → UInt8
  | .word _ => 97
  | .redir .input => 60
  | .redir .output => 62
  | .redir .append => 43
  | .bar => 124
  | .amp => 38
  | .semi => 59
  | .lpar => 40
  | .rpar => 41

/-- The symbol with which it begins. -/
def symbol : Token → Option UInt8
  | .word _ => none
  | .redir .append => some 62
  | t => some t.code

theorem code_ne_zero (t : Token) : t.code ≠ 0 := by
  cases t with
  | redir mode => cases mode <;> exact nofun
  | _ => exact nofun

theorem code_eq_word {t : Token} : t.code = 97 ↔ ∃ w, t = .word w := by
  constructor
  · intro h
    cases t with
    | word w => exact ⟨w, rfl⟩
    | redir mode => cases mode <;> nomatch h
    | _ => nomatch h
  · rintro ⟨w, rfl⟩
    rfl

theorem modeOf_code (mode : Mode) : modeOf (Token.redir mode).code = mode := by
  cases mode <;> rfl

end Token

/-- The pointers of a word of the line: a run of characters of words, followed by something else. -/
structure Word.In (line : Ptr) (w : Word) : Prop where
  suffix : w.q <:+ line
  split : w.q = w.text ++ w.eq
  chars : ∀ c ∈ w.text, isWordChar c = true
  stop : ∀ c cs, w.eq = c :: cs → isWordChar c = false

theorem Word.text_eq {q txt e : Ptr} (h : q = txt ++ e) : (Word.mk q e).text = txt := by
  subst h
  rw [Word.text, length_append, Nat.add_sub_cancel]
  exact take_left

theorem lex_cases {c : UInt8} (cs : List UInt8) (h1 : isSpace c = false) (h2 : c ≠ 62)
    (h3 : isSymbol c = true) : ∃ t : Token, t.code = c ∧ t.symbol = some c ∧
      lex (c :: cs) = t :: lex cs ∧ c ∈ [124, 40, 41, 59, 38, 60] := by
  refine ⟨symbolToken c, ?_, ?_, lex_symbol h1 h2 h3, ?_⟩
  all_goals
    simp only [isSymbol, mem_cons, not_mem_nil, or_false, decide_eq_true_eq] at h3
    rcases h3 with rfl | rfl | rfl | rfl | rfl | rfl | rfl
  all_goals first | exact absurd rfl h2 | decide

/-- What is found at a pointer. -/
inductive Ahead (s : Ptr) : Prop
  | nothing (h : skip s = [])
  | symbol {c : UInt8} {cs : Ptr} (h : skip s = c :: cs) (h1 : isSpace c = false) (h2 : c ≠ 62)
      (h3 : isSymbol c = true)
  | append {cs : Ptr} (h : skip s = 62 :: 62 :: cs)
  | output {cs : Ptr} (h : skip s = 62 :: cs) (h' : deref cs ≠ 62)
  | word {c : UInt8} {cs : Ptr} (h : skip s = c :: cs) (h' : isWordChar c = true)

theorem ahead (s : Ptr) : Ahead s := by
  obtain h | ⟨c, cs, h, hc⟩ := dropWhile_cases isSpace s
  · exact .nothing h
  · by_cases hw : isWordChar c = true
    · exact .word h hw
    · have hsym : isSymbol c = true := by
        cases hs : isSymbol c with
        | true => rfl
        | false => exact absurd (isWordChar_iff.mpr ⟨hc, hs⟩) hw
      by_cases h62 : c = 62
      · subst h62
        cases cs with
        | nil => exact .output h (by decide)
        | cons d ds =>
          by_cases hd : d = 62
          · subst hd
            exact .append h
          · exact .output h hd
      · exact .symbol h hc h62 hsym

theorem suffix_of_skip {s cs a : Ptr} (h : skip s = a ++ cs) (ha : a ≠ []) :
    skip cs <:+ s ∧ (skip cs).length < s.length := by
  have h1 : cs <:+ s := (suffix_append a cs).trans (h ▸ skip_suffix s)
  refine ⟨(skip_suffix cs).trans h1, (skip_suffix cs).length_le.trans_lt ?_⟩
  have h2 := (skip_suffix s).length_le
  have h3 := length_pos_iff.mpr ha
  rw [h, length_append] at h2
  omega

section

variable {s : Ptr} (h0 : 0 ∉ s)

include h0

theorem head_ne_zero {c : UInt8} {cs : Ptr} (h : skip s = c :: cs) : c ≠ 0 := fun he =>
  h0 ((skip_suffix s).subset (by rw [h, he]; exact mem_cons_self ..))

omit h0 in
theorem skip_eq_nil (h : lex s = []) : skip s = [] := by
  rw [← lex_skip] at h
  cases ahead s with
  | nothing hs => exact hs
  | symbol hs h1 h2 h3 => rw [hs, lex_symbol h1 h2 h3] at h; nomatch h
  | append hs => rw [hs, lex_append] at h; nomatch h
  | output hs h' => rw [hs, lex_output h'] at h; nomatch h
  | word hs h' => rw [hs, lex_word h'] at h; nomatch h

omit h0 in
theorem gettoken_nil (h : lex s = []) : (gettoken s).ret = 0 ∧ (gettoken s).ps = [] := by
  simp only [gettoken, skip_eq_nil h]
  exact ⟨rfl, rfl⟩

/-- **`gettoken` reads the first token** and leaves the others. -/
theorem gettoken_cons {t : Token} {ts : List Token} (h : lex s = t :: ts) :
    (gettoken s).ret = t.code ∧ lex (gettoken s).ps = ts ∧ (gettoken s).ps <:+ s ∧
      (gettoken s).ps.length < s.length ∧
      ∀ w, t = .word w → (Word.mk (gettoken s).q (gettoken s).eq).In s ∧
        (Word.mk (gettoken s).q (gettoken s).eq).text = w := by
  rw [← lex_skip] at h
  cases ahead s with
  | nothing hs =>
    rw [hs] at h
    nomatch h
  | @symbol c cs hs h1 h2 h3 =>
    obtain ⟨t', hcode, hsym, hlex, hmem⟩ := lex_cases cs h1 h2 h3
    rw [hs, hlex] at h
    obtain ⟨rfl, rfl⟩ := List.cons.inj h
    have hg : gettoken s = { ret := c, q := c :: cs, eq := cs, ps := skip cs } := by
      simp only [gettoken, hs, deref, headD_cons, tail_cons]
      rw [if_neg (head_ne_zero h0 hs), if_pos hmem]
    obtain ⟨hsuf, hlt⟩ := suffix_of_skip (a := [c]) hs nofun
    rw [hg]
    refine ⟨hcode.symm, lex_skip cs, hsuf, hlt, fun w hw => ?_⟩
    rw [hw] at hsym
    nomatch hsym
  | @append cs hs =>
    rw [hs, lex_append] at h
    obtain ⟨rfl, rfl⟩ := List.cons.inj h
    have hg : gettoken s = { ret := 43, q := 62 :: 62 :: cs, eq := cs, ps := skip cs } := by
      simp only [gettoken, hs, deref, headD_cons, tail_cons]
      rfl
    obtain ⟨hsuf, hlt⟩ := suffix_of_skip (a := [62, 62]) hs nofun
    rw [hg]
    exact ⟨rfl, lex_skip cs, hsuf, hlt, nofun⟩
  | @output cs hs h' =>
    rw [hs, lex_output h'] at h
    obtain ⟨rfl, rfl⟩ := List.cons.inj h
    have hg : gettoken s = { ret := 62, q := 62 :: cs, eq := cs, ps := skip cs } := by
      simp only [gettoken, hs, tail_cons, if_neg h']
      rfl
    obtain ⟨hsuf, hlt⟩ := suffix_of_skip (a := [62]) hs nofun
    rw [hg]
    exact ⟨rfl, lex_skip cs, hsuf, hlt, nofun⟩
  | @word c cs hs h' =>
    rw [hs, lex_word h'] at h
    obtain ⟨rfl, rfl⟩ := List.cons.inj h
    obtain ⟨h1, h2⟩ := isWordChar_iff.mp h'
    have hmem : c ∉ [124, 40, 41, 59, 38, 60] := fun hm => by
      have : isSymbol c = true := by
        simp only [mem_cons, not_mem_nil, or_false] at hm
        rcases hm with rfl | rfl | rfl | rfl | rfl | rfl <;> decide
      rw [this] at h2
      nomatch h2
    have h62 : c ≠ 62 := fun he => by
      rw [he] at h2
      nomatch h2
    have hg : gettoken s =
        { ret := 97, q := c :: cs, eq := (c :: cs).dropWhile isWordChar
          ps := skip ((c :: cs).dropWhile isWordChar) } := by
      simp only [gettoken, hs, deref, headD_cons]
      rw [if_neg (head_ne_zero h0 hs), if_neg hmem, if_neg h62]
    have hsplit : c :: cs = (c :: cs).takeWhile isWordChar ++ (c :: cs).dropWhile isWordChar :=
      (takeWhile_append_dropWhile ..).symm
    have hne : (c :: cs).takeWhile isWordChar ≠ [] := by
      rw [takeWhile_cons_of_pos h']
      exact nofun
    obtain ⟨hsuf, hlt⟩ := suffix_of_skip (hs.trans hsplit) hne
    have htext : (Word.mk (c :: cs) ((c :: cs).dropWhile isWordChar)).text =
        (c :: cs).takeWhile isWordChar := Word.text_eq hsplit
    rw [hg]
    refine ⟨rfl, lex_skip _, hsuf, hlt, fun w hw => ?_⟩
    obtain rfl := Token.word.inj hw
    refine ⟨⟨hs ▸ skip_suffix s, ?_, fun d hd => ?_, fun d ds hd => ?_⟩, htext⟩
    · rw [htext]
      exact hsplit
    · rw [htext] at hd
      exact mem_takeWhile_imp hd
    · obtain hnil | ⟨e, es, he, hf⟩ := dropWhile_cases isWordChar (c :: cs)
      · rw [hnil] at hd
        nomatch hd
      · rw [he] at hd
        rwa [(List.cons.inj hd).1] at hf

theorem peek_iff {toks : List UInt8} (hsym : ∀ c ∈ toks, isSymbol c = true) :
    (peek s toks).2 = true ↔ ∃ t ts c, lex s = t :: ts ∧ t.symbol = some c ∧ c ∈ toks := by
  have hhead : ∀ {c : UInt8} {cs : Ptr}, skip s = c :: cs →
      ((peek s toks).2 = true ↔ c ∈ toks) := by
    intro c cs hs
    have := head_ne_zero h0 hs
    simp [peek, hs, deref, this]
  have htoken : ∀ {c : UInt8} {cs : Ptr} {t : Token} {ts : List Token}, skip s = c :: cs →
      lex (c :: cs) = t :: ts → t.symbol = some c → ((peek s toks).2 = true ↔
        ∃ t ts c, lex (skip s) = t :: ts ∧ t.symbol = some c ∧ c ∈ toks) := by
    intro c cs t ts hs hlex ht
    rw [hhead hs, hs, hlex]
    constructor
    · exact fun hc => ⟨t, ts, c, rfl, ht, hc⟩
    · rintro ⟨t', ts', c', he, ht', hc⟩
      obtain ⟨rfl, -⟩ := List.cons.inj he
      rw [ht] at ht'
      exact Option.some.inj ht' ▸ hc
  rw [← lex_skip]
  cases ahead s with
  | nothing hs =>
    rw [hs]
    constructor
    · intro hp
      simp [peek, hs, deref] at hp
    · rintro ⟨t, ts, c, ht, -⟩
      nomatch ht
  | @symbol c cs hs h1 h2 h3 =>
    obtain ⟨t, -, ht, hlex, -⟩ := lex_cases cs h1 h2 h3
    exact htoken hs hlex ht
  | append hs => exact htoken hs (lex_append ..) rfl
  | output hs h' => exact htoken hs (lex_output h') rfl
  | word hs h' =>
    rw [hhead hs, hs, lex_word h']
    constructor
    · intro hc
      have := (isWordChar_iff.mp h').2
      simp [hsym _ hc] at this
    · rintro ⟨t', ts, c', he, ht', hc⟩
      obtain ⟨rfl, -⟩ := List.cons.inj he
      nomatch ht'

end

end Xv6.Sh
