import Xv6.Sh.Soundness

/-!
# The parser is complete

Tokens that are derived from one of the nonterminals, followed by nothing that would continue them,
are read as that derivation's tree (`parse_complete`).
-/

namespace Xv6.Sh

open List

variable {F : Token → Prop} {s : Ptr} {ts us : List Token} {rs : List (List UInt8 × Mode)}
  {fuel : Nat} {t : Token} {ws : List (List UInt8)}

/-- The function returns something with the property `P`. -/
def Gives {α : Type} (r : Except Stop α) (P : α → Prop) : Prop := ∃ a, r = .ok a ∧ P a

namespace Gives

variable {α β : Type} {r : Except Stop α} {P Q : α → Prop}

theorem mono (h : Gives r P) (hP : ∀ a, P a → Q a) : Gives r Q :=
  h.imp fun a ha => ⟨ha.1, hP a ha.2⟩

theorem and_safe (h : Gives r P) (hQ : Safe r Q) : Gives r fun a => P a ∧ Q a := by
  obtain ⟨a, rfl, ha⟩ := h
  exact ⟨a, rfl, ha, hQ⟩

theorem bind {f : α → Except Stop β} {R : β → Prop} (h : Gives r P)
    (hf : ∀ a, P a → Gives (f a) R) :
    Gives (r >>= f) R := by
  obtain ⟨a, rfl, ha⟩ := h
  exact hf a ha

end Gives

/-- Nothing, or a token of this kind, comes next. -/
def Follow (F : Token → Prop) (us : List Token) : Prop := ∀ t ts, us = t :: ts → F t

theorem Follow.nil : Follow F [] := nofun

theorem Follow.cons (h : F t) : Follow F (t :: ts) := by
  rintro t' ts' he
  exact (List.cons.inj he).1 ▸ h

theorem Follow.mono {F' : Token → Prop} (h : Follow F us) (hF : ∀ t, F t → F' t) :
    Follow F' us := fun t ts he => hF t (h t ts he)

/-- What may follow one of several pieces may follow all of them. -/
theorem Follow.append (h : Follow F ts) (h' : Follow F us) : Follow F (ts ++ us) := by
  cases ts with
  | nil => exact h'
  | cons t ts => exact .cons (h t ts rfl)

theorem Follow.not_redir (h : Follow Token.stops us) :
    Follow (fun t => ∀ mode, t ≠ .redir mode) us :=
  h.mono fun t ht mode he => by rw [he] at ht; exact ht

theorem Words.follow (h : Words ts ws rs) (hF : ∀ w, F (.word w)) : Follow F ts := by
  cases h with
  | nil => exact .nil
  | cons _ _ => exact .cons (hF _)

theorem Redirs.follow (h : Redirs ts rs) (hF : ∀ mode, F (.redir mode)) : Follow F ts := by
  cases h with
  | nil => exact .nil
  | cons _ => exact .cons (hF _)

section Complete

variable {line : Ptr} (h0 : 0 ∉ line)

include h0

theorem parseredirs_complete (h : Redirs ts rs) (fuel : Nat) (cmd : Cmd Word) (s : Ptr)
    (hs : s <:+ line) (hf : s.length < fuel) (hlex : lex s = ts ++ us)
    (hus : Follow (fun t => ∀ mode, t ≠ .redir mode) us) :
    Gives (parseredirs fuel cmd s) fun p => ∃ rs', p.1 = cmd.redirs rs' ∧ texts rs' = rs ∧
    lex p.2 = us := by
  induction h generalizing fuel cmd s with
  | nil =>
    obtain ⟨d, rfl⟩ := Nat.exists_eq_add_of_lt hf
    rw [parseredirs]
    have hp : (peek s [60, 62]).2 ≠ true := fun hp => by
      obtain ⟨mode, ts, he⟩ := (peek_redir (not_mem_of_suffix h0 hs)).mp hp
      exact hus _ ts (hlex.symm.trans he) mode rfl
    simp only [hp]
    exact ⟨_, rfl, [], rfl, rfl, (lex_skip s).trans hlex⟩
  | @cons mode w ts rs h ih =>
    obtain ⟨d, rfl⟩ := Nat.exists_eq_add_of_lt hf
    rw [parseredirs]
    have hp : (peek s [60, 62]).2 = true :=
      (peek_redir (not_mem_of_suffix h0 hs)).mpr ⟨mode, _, hlex⟩
    obtain ⟨h1, h2, h3, h4, -⟩ := gettoken_skip h0 hs hlex
    obtain ⟨h6, h7, h8, h9, h10⟩ := gettoken_cons (not_mem_of_suffix h0 (h3.trans hs)) h2
    have h6 : (gettoken (gettoken (skip s)).ps).ret = 97 := h6
    obtain ⟨-, h11⟩ := h10 w rfl
    simp only [hp, if_true, peek_fst, h6, ne_eq, not_true, if_false, h1, Token.modeOf_code]
    generalize Word.mk (gettoken (gettoken (skip s)).ps).q (gettoken (gettoken (skip s)).ps).eq = w'
      at h11 ⊢
    refine (ih _ _ _ ((h8.trans h3).trans hs) (by omega) h7).mono ?_
    rintro ⟨c, s'⟩ ⟨rs', rfl, hrs, hlex'⟩
    refine ⟨(w', mode) :: rs', rfl, ?_, hlex'⟩
    rw [texts, map_cons, h11]
    exact congrArg _ hrs

theorem parseargs_complete (h : Words ts ws rs) (fuel : Nat) (rs0 : List (Word × Mode))
    (argv : List Word) (s : Ptr) (hs : s <:+ line) (hf : s.length < fuel)
    (hargs : argv.length + ws.length < maxargs) (hlex : lex s = ts ++ us)
    (hus : Follow Token.stops us) :
    Gives (parseargs fuel ((Cmd.exec []).redirs rs0) argv s) fun p =>
      ∃ ws' rs', p.1 = (Cmd.exec (argv ++ ws')).redirs (rs0 ++ rs') ∧ ws'.map Word.text = ws ∧
        texts rs' = rs ∧ lex p.2 = us := by
  induction h generalizing fuel rs0 argv s with
  | nil =>
    obtain ⟨d, rfl⟩ := Nat.exists_eq_add_of_lt hf
    rw [parseargs]
    have hdone : ∀ s', lex s' = us → Gives (finishExec ((Cmd.exec []).redirs rs0) argv s') fun p =>
        ∃ ws' rs', p.1 = (Cmd.exec (argv ++ ws')).redirs (rs0 ++ rs') ∧ ws'.map Word.text = [] ∧
          texts rs' = [] ∧ lex p.2 = us := by
      intro s' hs'
      have hargs : argv.length < maxargs := hargs
      rw [finishExec, if_neg (Nat.not_le.mpr hargs), Cmd.redirs_fill]
      refine ⟨_, rfl, [], [], ?_, rfl, rfl, hs'⟩
      rw [append_nil, append_nil]
    by_cases hp : (peek s [124, 41, 38, 59]).2 = true
    · simp only [hp, if_true]
      exact hdone _ ((lex_skip s).trans hlex)
    · have hnil : us = [] := by
        cases hcons : us with
        | nil => rfl
        | cons t ts =>
          have hlex : lex s = t :: ts := hlex.trans hcons
          exact absurd ((peek_stops (not_mem_of_suffix h0 hs)).mpr ⟨t, ts, hlex, hus t ts hcons⟩) hp
      obtain ⟨h1, h2⟩ := gettoken_nil (((lex_skip s).trans hlex).trans hnil)
      simp only [hp]
      rw [peek_fst, if_neg Bool.false_ne_true, if_pos h1, h2]
      exact hdone _ hnil.symm
  | @cons w ts vs rs rs' ws hr _ ih =>
    obtain ⟨d, rfl⟩ := Nat.exists_eq_add_of_lt hf
    rw [parseargs]
    have hlex : lex s = .word w :: (ts ++ (vs ++ us)) := by
      rw [hlex, cons_append, cons_append, append_assoc]
    have hp : (peek s [124, 41, 38, 59]).2 ≠ true := fun hp => by
      obtain ⟨t, ts', he, ht⟩ := (peek_stops (not_mem_of_suffix h0 hs)).mp hp
      obtain ⟨rfl, -⟩ := List.cons.inj (hlex.symm.trans he)
      exact ht
    obtain ⟨h1, h2, h3, h4, h5⟩ := gettoken_skip h0 hs hlex
    obtain ⟨h6, h7⟩ := h5 w rfl
    have h1 : (gettoken (skip s)).ret = 97 := h1
    rw [length_cons] at hargs
    simp only [hp]
    rw [peek_fst]
    generalize Word.mk (gettoken (skip s)).q (gettoken (skip s)).eq = w' at h6 h7 ⊢
    have hlen : (argv ++ [w']).length = argv.length + 1 := length_append
    rw [if_neg Bool.false_ne_true, if_neg (h1 ▸ by decide), if_neg (not_not.mpr h1),
      if_neg (by omega), if_neg (by omega)]
    have hfollow : Follow (fun t => ∀ mode, t ≠ .redir mode) (vs ++ us) :=
      .append (Words.follow ‹_› (by simp)) hus.not_redir
    have hr := (parseredirs_complete h0 hr (s.length + d) ((Cmd.exec []).redirs rs0) _ (h3.trans hs)
      (by omega) h2 hfollow).and_safe (parseredirs_sound h0 _ _ _ (h3.trans hs) (by omega))
    refine hr.bind ?_
    rintro ⟨c, s1⟩ ⟨⟨rs1, rfl, hrs1, hlex1⟩, -, -, -, -, -, hsuf1, -⟩
    have hsuf1 : s1 <:+ (gettoken (skip s)).ps := hsuf1
    have hl := hsuf1.length_le
    rw [← Cmd.redirs_append]
    refine (ih _ (rs0 ++ rs1) (argv ++ [w']) s1 ((hsuf1.trans h3).trans hs) (by omega) (by omega)
      hlex1).mono ?_
    rintro ⟨c', s'⟩ ⟨ws', rs2, rfl, hws', hrs2, hlex'⟩
    refine ⟨w' :: ws', rs1 ++ rs2, ?_, ?_, ?_, hlex'⟩
    · rw [append_assoc, append_assoc]
      rfl
    · rw [map_cons, h7, hws']
    · rw [texts, map_append]
      exact congrArg₂ _ hrs1 hrs2

theorem parsebacks_complete (k : Nat) (fuel : Nat) (cmd : Cmd Word) (s : Ptr) (hs : s <:+ line)
    (hf : s.length < fuel) (hlex : lex s = List.replicate k .amp ++ us)
    (hus : Follow (· ≠ .amp) us) :
    Gives (parsebacks fuel cmd s) fun p => p.1 = cmd.backs k ∧ lex p.2 = us := by
  induction k generalizing fuel cmd s with
  | zero =>
    obtain ⟨d, rfl⟩ := Nat.exists_eq_add_of_lt hf
    rw [parsebacks]
    have hp : (peek s [38]).2 ≠ true := fun hp => by
      obtain ⟨ts, he⟩ := (peek_single (t := .amp) (not_mem_of_suffix h0 hs) (by decide)).mp hp
      exact hus _ ts (hlex.symm.trans he) rfl
    simp only [hp]
    exact ⟨_, rfl, rfl, (lex_skip s).trans hlex⟩
  | succ k ih =>
    obtain ⟨d, rfl⟩ := Nat.exists_eq_add_of_lt hf
    rw [parsebacks]
    obtain ⟨hp, h2, h3, h4⟩ := gettoken_symbol h0 (b := 38) (by decide) rfl hs hlex
    simp only [hp, if_true, peek_fst]
    exact ih _ _ _ (h3.trans hs) (by omega) h2

/-- From `s` on, the function reads every sequence of tokens of the grammar that is followed by a
token in `F` or by nothing. -/
def Complete (f : Ptr → Except Stop (Cmd Word × Ptr)) (G : List Token → Tree → Prop)
    (F : Token → Prop)
    (s : Ptr) : Prop :=
  ∀ ts t us, G ts t → lex s = ts ++ us → Follow F us →
    Gives (f s) fun p => p.1.map Word.text = t ∧ lex p.2 = us

theorem peek_ne (hs : s <:+ line) (ht : t ∈ [Token.bar, .amp, .semi, .lpar, .rpar])
    (h : Follow (· ≠ t) (lex s)) : (peek s [t.code]).2 ≠ true := fun hp => by
  obtain ⟨ts, he⟩ := (peek_single (not_mem_of_suffix h0 hs) ht).mp hp
  exact h _ ts he rfl

theorem parseline_complete (hs : s <:+ line) (hf : s.length < fuel)
    (hsound : Safe (parsepipe fuel s) (Reads line Pipe s))
    (hpipe : Complete (parsepipe fuel) Pipe (fun t => t.stops ∧ t ≠ .bar) s)
    (hline : ∀ s', s' <:+ line → s'.length < s.length →
      Complete (parseline fuel) Line (· = .rpar) s') :
    Complete (parseline (fuel + 1)) Line (· = .rpar) s := by
  intro ts0 t0 us hder hlex hus
  -- a pipe, ampersands, and then either nothing or a semicolon and a line
  obtain ⟨ts, t, k, vs, hder', hlex, hvs, hrest⟩ : ∃ ts t k vs, Pipe ts t ∧
      lex s = ts ++ (List.replicate k .amp ++ vs) ∧ Follow (fun t => t = .rpar ∨ t = .semi) vs ∧
      ((t0 = t.backs k ∧ vs = us) ∨
        ∃ ts' u, vs = .semi :: (ts' ++ us) ∧ Line ts' u ∧ t0 = .list (t.backs k) u) := by
    cases hder with
    | @last ts t k h =>
      exact ⟨ts, t, k, us, h, by rw [hlex, append_assoc], hus.mono fun t => .inl, .inl ⟨rfl, rfl⟩⟩
    | @list ts us' t u k h h' =>
      refine ⟨ts, t, k, .semi :: (us' ++ us), h, ?_, .cons (.inr rfl), .inr ⟨us', u, rfl, h', rfl⟩⟩
      rw [hlex, append_assoc, append_assoc, cons_append]
  have hfollow : Follow (fun t => t.stops ∧ t ≠ .bar) (List.replicate k .amp ++ vs) := by
    refine .append ?_ (hvs.mono ?_)
    · cases k with
      | zero => exact .nil
      | succ k => exact .cons (by decide)
    · rintro t (rfl | rfl) <;> decide
  rw [parseline]
  refine ((hpipe _ _ _ hder' hlex hfollow).and_safe hsound).bind ?_
  rintro ⟨c, s1⟩ ⟨⟨hc, hlex1⟩, -, hsuf, -⟩
  have hsuf : s1 <:+ s := hsuf
  have hl := hsuf.length_le
  have hbacks := parsebacks_complete h0 k fuel c s1 (hsuf.trans hs) (by omega) hlex1
    (hvs.mono fun t ht he => by rw [he] at ht; revert ht; decide)
  refine (hbacks.and_safe (parsebacks_sound h0 fuel c s1 (hsuf.trans hs) (by omega))).bind ?_
  rintro ⟨c', s2⟩ ⟨⟨rfl, hlex2⟩, -, -, -, hsuf2⟩
  have hsuf2 : s2 <:+ s := hsuf2.trans hsuf
  have hlex2 : lex s2 = vs := hlex2
  have htree : (c.backs k).map Word.text = t.backs k := by
    rw [Cmd.backs_map]
    exact congrArg (Cmd.backs · k) hc
  obtain ⟨rfl, rfl⟩ | ⟨ts', u, rfl, hder2, rfl⟩ := hrest
  · have hp : (peek s2 [59]).2 ≠ true := peek_ne h0 (t := .semi) (hsuf2.trans hs) (by decide) (by
      rw [hlex2]
      exact hus.mono (by rintro t rfl; decide))
    simp only [hp]
    exact ⟨_, rfl, htree, (lex_skip s2).trans hlex2⟩
  · obtain ⟨hp, h2, h3, h4⟩ := gettoken_symbol h0 (b := 59) (by decide) rfl (hsuf2.trans hs) hlex2
    simp only [hp, if_true, peek_fst]
    refine (hline _ ((h3.trans hsuf2).trans hs) (h4.trans_le hsuf2.length_le) _ _ _ hder2 h2
      hus).bind ?_
    rintro ⟨r, s3⟩ ⟨rfl, hlex3⟩
    exact ⟨_, rfl, congrArg (Cmd.list · _) htree, hlex3⟩

theorem parsepipe_complete (hs : s <:+ line)
    (hsound : Safe (parseexec fuel s) (Reads line Exec s))
    (hexec : Complete (parseexec fuel) Exec Token.stops s)
    (hpipe : ∀ s', s' <:+ line → s'.length < s.length →
      Complete (parsepipe fuel) Pipe (fun t => t.stops ∧ t ≠ .bar) s') :
    Complete (parsepipe (fuel + 1)) Pipe (fun t => t.stops ∧ t ≠ .bar) s := by
  intro ts0 t0 us hder hlex hus
  rw [parsepipe]
  cases hder with
  | last h =>
    refine ((hexec _ _ _ h hlex (hus.mono fun t => And.left)).and_safe hsound).bind ?_
    rintro ⟨c, s2⟩ ⟨⟨hc, hlex2⟩, -, hsuf, -⟩
    have hlex2 : lex s2 = us := hlex2
    have hp : (peek s2 [124]).2 ≠ true := peek_ne h0 (t := .bar) (hsuf.trans hs) (by decide) (by
      rw [hlex2]
      exact hus.mono fun t => And.right)
    simp only [hp]
    exact ⟨_, rfl, hc, (lex_skip s2).trans hlex2⟩
  | @pipe ts us' t u h h' =>
    have hlex : lex s = ts ++ .bar :: (us' ++ us) := by rw [hlex, append_assoc, cons_append]
    refine ((hexec _ _ _ h hlex (.cons (by decide))).and_safe hsound).bind ?_
    rintro ⟨c, s2⟩ ⟨⟨hc, hlex2⟩, -, hsuf, -⟩
    have hsuf : s2 <:+ s := hsuf
    have hlex2 : lex s2 = .bar :: (us' ++ us) := hlex2
    obtain ⟨hp, h2, h3, h4⟩ := gettoken_symbol h0 (b := 124) (by decide) rfl (hsuf.trans hs) hlex2
    simp only [hp, if_true, peek_fst]
    refine (hpipe _ ((h3.trans hsuf).trans hs) (h4.trans_le hsuf.length_le) _ _ _ h' h2
      hus).bind ?_
    rintro ⟨r, s3⟩ ⟨rfl, hlex3⟩
    exact ⟨_, rfl, congrArg (Cmd.pipe · _) hc, hlex3⟩

/-- `'(' line ')' redir*` -/
inductive Block : List Token → Tree → Prop
  | mk {ts us : List Token} {t : Tree} {rs : List (List UInt8 × Mode)} (h : Line ts t)
      (h' : Redirs us rs) : Block (.lpar :: ts ++ .rpar :: us) (t.redirs rs)

theorem parseexec_complete (hs : s <:+ line) (hf : s.length < fuel)
    (hblock : Complete (parseblock fuel) Block Token.stops (skip s)) :
    Complete (parseexec (fuel + 1)) Exec Token.stops s := by
  intro ts0 t0 us hder hlex hus
  rw [parseexec]
  have hsk := skip_suffix s
  cases hder with
  | @block ts us' t rs h h' =>
    have hp := (gettoken_symbol h0 (b := 40) (by decide) rfl hs hlex).1
    simp only [hp, if_true, peek_fst]
    exact hblock _ _ _ (.mk h h') ((lex_skip s).trans hlex) hus
  | @simple ts us' rs rs' ws h h' hlen =>
    have hlex : lex s = ts ++ (us' ++ us) := hlex.trans (append_assoc ..)
    have hp : (peek s [40]).2 ≠ true := peek_ne h0 (t := .lpar) hs (by decide) (by
      rw [hlex]
      exact .append (h.follow (by simp)) (.append (h'.follow (by simp)) (hus.mono fun t ht he => by
        rw [he] at ht
        exact ht)))
    have hl := hsk.length_le
    simp only [hp, peek_fst]
    have hredirs := parseredirs_complete h0 h fuel (.exec []) (skip s) (hsk.trans hs) (by omega)
      ((lex_skip s).trans hlex) (.append (h'.follow (by simp)) hus.not_redir)
    refine (hredirs.and_safe (parseredirs_sound h0 fuel _ _ (hsk.trans hs) (by omega))).bind ?_
    rintro ⟨c, s1⟩ ⟨⟨rs1, rfl, hrs1, hlex1⟩, -, -, -, -, -, hsuf, -⟩
    have hsuf : s1 <:+ skip s := hsuf
    have hl' := hsuf.length_le
    refine (parseargs_complete h0 h' fuel rs1 [] s1 ((hsuf.trans hsk).trans hs) (by omega)
      (by rwa [length_nil, Nat.zero_add]) hlex1 hus).mono ?_
    rintro ⟨c', s'⟩ ⟨ws', rs2, rfl, hws, hrs2, hlex'⟩
    refine ⟨?_, hlex'⟩
    rw [Cmd.redirs_map, Cmd.map, nil_append, hws, map_append]
    exact congrArg _ (congrArg₂ _ hrs1 hrs2)

theorem parseblock_complete (hs : s <:+ line) (hf : s.length < fuel)
    (hsound : ∀ s', s' <:+ line → s'.length < s.length →
      Safe (parseline fuel s') (Reads line Line s'))
    (hline : ∀ s', s' <:+ line → s'.length < s.length →
      Complete (parseline fuel) Line (· = .rpar) s') :
    Complete (parseblock (fuel + 1)) Block Token.stops s := by
  rintro _ _ us ⟨h, h'⟩ hlex hus
  rename_i ts us' t rs
  have hlex : lex s = .lpar :: (ts ++ .rpar :: (us' ++ us)) := by
    rw [hlex, cons_append, cons_append, append_assoc, cons_append]
  rw [parseblock]
  obtain ⟨hp, h2, h3, h4⟩ := gettoken_symbol h0 (b := 40) (by decide) rfl hs hlex
  simp only [hp, if_true, peek_fst]
  refine ((hline _ (h3.trans hs) h4 _ _ _ h h2 (.cons rfl)).and_safe
    (hsound _ (h3.trans hs) h4)).bind ?_
  rintro ⟨c, s1⟩ ⟨⟨rfl, hlex1⟩, -, hsuf1, -⟩
  have hsuf1 : s1 <:+ s := hsuf1.trans h3
  have hlex1 : lex s1 = .rpar :: (us' ++ us) := hlex1
  obtain ⟨hp1, h2', h3', h4'⟩ := gettoken_symbol h0 (b := 41) (by decide) rfl (hsuf1.trans hs) hlex1
  have hl := hsuf1.length_le
  simp only [hp1, if_true]
  refine (parseredirs_complete h0 h' fuel c _ ((h3'.trans hsuf1).trans hs) (by omega) h2'
    hus.not_redir).mono ?_
  rintro ⟨c', s'⟩ ⟨rs', rfl, rfl, hlex'⟩
  exact ⟨Cmd.redirs_map .., hlex'⟩

/-- **Completeness** of the four functions at once. -/
theorem parse_complete (fuel : Nat) : ∀ s, s <:+ line →
    (4 * s.length + 5 ≤ fuel → Complete (parseline fuel) Line (· = .rpar) s) ∧
    (4 * s.length + 4 ≤ fuel → Complete (parsepipe fuel) Pipe (fun t => t.stops ∧ t ≠ .bar) s) ∧
    (4 * s.length + 3 ≤ fuel → Complete (parseexec fuel) Exec Token.stops s) ∧
    (4 * s.length + 2 ≤ fuel → Complete (parseblock fuel) Block Token.stops s) := by
  induction fuel with
  | zero => exact fun s _ => ⟨nofun, nofun, nofun, nofun⟩
  | succ fuel ih =>
    intro s hs
    have hsk := skip_suffix s
    have hlen := hsk.length_le
    have hsound := parse_sound h0 fuel
    refine ⟨fun hf => ?_, fun hf => ?_, fun hf => ?_, fun hf => ?_⟩
    · exact parseline_complete h0 hs (by omega) ((hsound s hs).2.1 (by omega))
        ((ih s hs).2.1 (by omega))
        fun s' hs' hl => (ih s' hs').1 (by omega)
    · exact parsepipe_complete h0 hs ((hsound s hs).2.2.1 (by omega)) ((ih s hs).2.2.1 (by omega))
        fun s' hs' hl => (ih s' hs').2.1 (by omega)
    · exact parseexec_complete h0 hs (by omega) ((ih _ (hsk.trans hs)).2.2.2 (by omega))
    · exact parseblock_complete h0 hs (by omega) (fun s' hs' hl => (hsound s' hs').1 (by omega))
        fun s' hs' hl => (ih s' hs').1 (by omega)

end Complete

end Xv6.Sh
