import Xv6.Sh.Scanner

/-!
# The parser is sound

A command that one of the functions of the descent returns is the tree of the tokens it has consumed
(`parse_sound`).  The same induction shows that the functions terminate and that `parseexec` never
stores to `argv` beyond its end: what they stop with is one of their own errors.
-/

namespace Xv6.Sh

open List

variable {t : Token} {s : Ptr} {fuel : Nat}

/-! ## Commands with several redirections -/

namespace Cmd

variable {V W : Type}

theorem redirs_append (c : Cmd W) (rs rs' : List (W × Mode)) :
    c.redirs (rs ++ rs') = (c.redirs rs).redirs rs' := foldl_append ..

theorem redirs_map (f : V → W) (c : Cmd V) (rs : List (V × Mode)) :
    (c.redirs rs).map f = (c.map f).redirs (rs.map fun r => (f r.1, r.2)) := by
  induction rs generalizing c with
  | nil => rfl
  | cons r rs ih => exact ih (c.redir r.1 r.2)

theorem redirs_words (c : Cmd W) (rs : List (W × Mode)) :
    (c.redirs rs).words = c.words ++ rs.map Prod.fst := by
  induction rs generalizing c with
  | nil => exact (append_nil _).symm
  | cons r rs ih =>
    rw [redirs, foldl_cons]
    exact (ih _).trans (append_assoc ..)

theorem redirs_fill (argv argv' : List W) (rs : List (W × Mode)) :
    ((exec argv).redirs rs).fill argv' = (exec argv').redirs rs := by
  have h : ∀ (c : Cmd W), (∀ r ∈ rs, (c.redir r.1 r.2).fill argv' = (c.fill argv').redir r.1 r.2) →
      (c.redirs rs).fill argv' = (c.fill argv').redirs rs := by
    induction rs with
    | nil => exact fun _ _ => rfl
    | cons r rs ih => exact fun c _ => ih (c.redir r.1 r.2) fun _ _ => rfl
  exact h (exec argv) fun _ _ => rfl

theorem redirs_execs (c : Cmd W) (rs : List (W × Mode)) : (c.redirs rs).execs = c.execs := by
  induction rs generalizing c with
  | nil => rfl
  | cons r rs ih => exact ih (c.redir r.1 r.2)

theorem backs_execs (c : Cmd W) (k : Nat) : (c.backs k).execs = c.execs := by
  induction k generalizing c with
  | zero => rfl
  | succ k ih => exact ih c.back

theorem execs_map (f : V → W) (c : Cmd V) : (c.map f).execs = c.execs.map (List.map f) := by
  induction c with
  | exec argv => rfl
  | redir c file mode ih | back c ih => exact ih
  | pipe l r ihl ihr | list l r ihl ihr => rw [map, execs, execs, map_append, ihl, ihr]

theorem backs_map (f : V → W) (c : Cmd V) (k : Nat) : (c.backs k).map f = (c.map f).backs k := by
  induction k generalizing c with
  | zero => rfl
  | succ k ih => exact ih c.back

theorem backs_words (c : Cmd W) (k : Nat) : (c.backs k).words = c.words := by
  induction k generalizing c with
  | zero => rfl
  | succ k ih => exact ih c.back

end Cmd

/-! ## Soundness -/

/-- The function returns something with the property `P`, or panics for one of the reasons in its
text. -/
def Safe {α : Type} (r : Except Stop α) (P : α → Prop) : Prop :=
  match r with
  | .ok a => P a
  | .error e => e ≠ .fuel ∧ e ≠ .overrun

namespace Safe

variable {α β : Type} {r : Except Stop α} {P P' : α → Prop}

theorem mono (h : Safe r P) (hP : ∀ a, P a → P' a) : Safe r P' := by
  cases r with
  | ok a => exact hP a h
  | error e => exact h

theorem bind {f : α → Except Stop β} {Q : β → Prop} (h : Safe r P) (hf : ∀ a, P a → Safe (f a) Q) :
    Safe (r >>= f) Q := by
  cases r with
  | ok a => exact hf a h
  | error e => exact h

end Safe

/-- Redirections as they are written. -/
def texts (rs : List (Word × Mode)) : List (List UInt8 × Mode) := rs.map fun r => (r.1.text, r.2)

theorem Word.In.mono {line line' : Ptr} {w : Word} (h : w.In line) (hs : line <:+ line') :
    w.In line' :=
  ⟨h.suffix.trans hs, h.split, h.chars, h.stop⟩

/-- The tokens that end the arguments of a command. -/
def Token.stops : Token → Prop
  | .bar | .rpar | .amp | .semi => True
  | _ => False

instance (t : Token) : Decidable t.stops := by
  cases t <;> simp only [Token.stops] <;> infer_instance

namespace Token

theorem symbol_redir : (∃ c, t.symbol = some c ∧ c ∈ [60, 62]) ↔ ∃ mode, t = .redir mode := by
  cases t with
  | redir mode => cases mode <;> simp [symbol, code]
  | _ => simp [symbol, code]

theorem symbol_stops : (∃ c, t.symbol = some c ∧ c ∈ [124, 41, 38, 59]) ↔ t.stops := by
  cases t with
  | redir mode => cases mode <;> simp [symbol, code, stops]
  | _ => simp [symbol, code, stops]

theorem symbol_single {t' : Token} (h : t' ∈ [bar, amp, semi, lpar, rpar]) :
    (∃ c, t.symbol = some c ∧ c ∈ [t'.code]) ↔ t = t' := by
  simp only [mem_cons, not_mem_nil, or_false] at h
  obtain rfl | rfl | rfl | rfl | rfl := h
  all_goals
    cases t with
    | redir mode => cases mode <;> simp [symbol, code]
    | _ => simp [symbol, code]

end Token

section Peek

variable {s : Ptr} (h0 : 0 ∉ s)

include h0

theorem peek_redir : (peek s [60, 62]).2 = true ↔ ∃ mode ts, lex s = .redir mode :: ts := by
  rw [peek_iff h0 (all_eq_true.mp (by decide))]
  constructor
  · rintro ⟨t, ts, c, h, hc⟩
    obtain ⟨mode, rfl⟩ := Token.symbol_redir.mp ⟨c, hc⟩
    exact ⟨mode, ts, h⟩
  · rintro ⟨mode, ts, h⟩
    obtain ⟨c, hc⟩ := Token.symbol_redir.mpr ⟨mode, rfl⟩
    exact ⟨_, ts, c, h, hc⟩

theorem peek_stops : (peek s [124, 41, 38, 59]).2 = true ↔ ∃ t ts, lex s = t :: ts ∧ t.stops := by
  rw [peek_iff h0 (all_eq_true.mp (by decide))]
  constructor
  · rintro ⟨t, ts, c, h, hc⟩
    exact ⟨t, ts, h, Token.symbol_stops.mp ⟨c, hc⟩⟩
  · rintro ⟨t, ts, h, ht⟩
    obtain ⟨c, hc⟩ := Token.symbol_stops.mpr ht
    exact ⟨t, ts, c, h, hc⟩

theorem peek_single (ht : t ∈ [Token.bar, .amp, .semi, .lpar, .rpar]) :
    (peek s [t.code]).2 = true ↔ ∃ ts, lex s = t :: ts := by
  rw [peek_iff h0]
  · constructor
    · rintro ⟨t', ts, c, h, hc⟩
      obtain rfl := (Token.symbol_single ht).mp ⟨c, hc⟩
      exact ⟨ts, h⟩
    · rintro ⟨ts, h⟩
      obtain ⟨c, hc⟩ := (Token.symbol_single ht).mpr rfl
      exact ⟨t, ts, c, h, hc⟩
  · simp only [mem_cons, not_mem_nil, or_false] at ht ⊢
    rintro c rfl
    obtain rfl | rfl | rfl | rfl | rfl := ht <;> decide

end Peek

section Sound

variable {line : Ptr} (h0 : 0 ∉ line) {rs : List (Word × Mode)} {ts : List Token}

include h0

theorem not_mem_of_suffix (h : s <:+ line) : 0 ∉ s := fun hs => h0 (h.subset hs)

theorem gettoken_skip (hs : s <:+ line) (h : lex s = t :: ts) :
    (gettoken (skip s)).ret = t.code ∧ lex (gettoken (skip s)).ps = ts ∧
    (gettoken (skip s)).ps <:+ s ∧
      (gettoken (skip s)).ps.length < s.length ∧
      ∀ w, t = .word w → (Word.mk (gettoken (skip s)).q (gettoken (skip s)).eq).In line ∧
        (Word.mk (gettoken (skip s)).q (gettoken (skip s)).eq).text = w := by
  have hsk := skip_suffix s
  obtain ⟨h1, h2, h3, h4, h5⟩ := gettoken_cons (not_mem_of_suffix h0 (hsk.trans hs))
    ((lex_skip s).trans h)
  exact ⟨h1, h2, h3.trans hsk, h4.trans_le hsk.length_le, fun w hw =>
    ⟨(h5 w hw).1.mono (hsk.trans hs), (h5 w hw).2⟩⟩

section

variable {b : UInt8} (ht : t ∈ [Token.bar, .amp, .semi, .lpar, .rpar]) (hb : t.code = b)
  (hs : s <:+ line)

include ht hb hs

theorem gettoken_symbol (h : lex s = t :: ts) :
    (peek s [b]).2 = true ∧ lex (gettoken (skip s)).ps = ts ∧ (gettoken (skip s)).ps <:+ s ∧
      (gettoken (skip s)).ps.length < s.length := by
  obtain ⟨-, h2, h3, h4, -⟩ := gettoken_skip h0 hs h
  exact ⟨hb ▸ (peek_single (not_mem_of_suffix h0 hs) ht).mpr ⟨ts, h⟩, h2, h3, h4⟩

/-- Whether the next token is the symbol `t`, and what follows it then. -/
theorem peek_cases : (peek s [b]).2 = true ∧ lex s = t :: lex (gettoken (skip s)).ps ∧
    (gettoken (skip s)).ps <:+ s ∧ (gettoken (skip s)).ps.length < s.length ∨
      (peek s [b]).2 ≠ true := by
  refine (Classical.em _).imp_left fun hp => ?_
  subst hb
  obtain ⟨ts, hlex⟩ := (peek_single (not_mem_of_suffix h0 hs) ht).mp hp
  obtain ⟨hp, rfl, h⟩ := gettoken_symbol h0 ht rfl hs hlex
  exact ⟨hp, hlex, h⟩

end

/-- What `gettoken` returns tells whether it has found a word. -/
theorem gettoken_word (hs : s <:+ line) (h : (gettoken s).ret = 97) :
    (gettoken s).ps <:+ s ∧ (gettoken s).ps.length < s.length ∧
      (Word.mk (gettoken s).q (gettoken s).eq).In line ∧
      lex s = .word (Word.mk (gettoken s).q (gettoken s).eq).text :: lex (gettoken s).ps := by
  cases hlex : lex s with
  | nil =>
    simp [(gettoken_nil hlex).1] at h
  | cons t ts =>
    obtain ⟨h1, h2, h3, h4, h5⟩ := gettoken_cons (not_mem_of_suffix h0 hs) hlex
    obtain ⟨w, rfl⟩ := Token.code_eq_word.mp (h1.symm.trans h)
    obtain ⟨h6, h7⟩ := h5 w rfl
    exact ⟨h3, h4, h6.mono hs, by rw [h7, h2]⟩

theorem parseredirs_sound (fuel : Nat) (cmd : Cmd Word) (s : Ptr) (hs : s <:+ line)
    (hf : s.length < fuel) : Safe (parseredirs fuel cmd s) fun p =>
      ∃ rs ts, p.1 = cmd.redirs rs ∧ lex s = ts ++ lex p.2 ∧ Redirs ts (texts rs) ∧ p.2 <:+ s ∧
        ∀ r ∈ rs, r.1.In line := by
  induction fuel generalizing cmd s with
  | zero => nomatch hf
  | succ fuel ih =>
    rw [parseredirs]
    by_cases hp : (peek s [60, 62]).2 = true
    · simp only [hp, if_true]
      obtain ⟨mode, ts, hlex⟩ := (peek_redir (not_mem_of_suffix h0 hs)).mp hp
      obtain ⟨h1, h2, h3, h4, -⟩ := gettoken_skip h0 hs hlex
      split
      · exact ⟨nofun, nofun⟩
      · rename_i hret
        obtain ⟨h6, h7, h8, h9⟩ := gettoken_word h0 (h3.trans hs) (not_not.mp hret)
        refine (ih _ _ ((h6.trans h3).trans hs) (by omega)).mono ?_
        rintro ⟨c, s'⟩ ⟨rs, us, rfl, hus, hrs, hsuf, hin⟩
        refine ⟨⟨_, mode⟩ :: rs, .redir mode :: .word _ :: us, ?_, ?_, .cons hrs,
          (hsuf.trans h6).trans h3, forall_mem_cons.mpr ⟨h8, hin⟩⟩
        · exact congrArg (fun m => (cmd.redir _ m).redirs rs)
            ((congrArg modeOf h1).trans (Token.modeOf_code mode))
        · rw [hlex, ← h2, h9, hus]
          rfl
    · simp only [hp]
      exact ⟨[], [], rfl, (lex_skip s).symm, .nil, skip_suffix s, nofun⟩

/-- What the loop of `parseexec` has read from `s` on. -/
def ReadArgs (line : Ptr) (rs : List (Word × Mode)) (argv : List Word) (s : Ptr)
    (p : Cmd Word × Ptr) : Prop :=
  ∃ ws rs' ts, p.1 = (Cmd.exec (argv ++ ws)).redirs (rs ++ rs') ∧ lex s = ts ++ lex p.2 ∧
    Words ts (ws.map Word.text) (texts rs') ∧ (argv ++ ws).length < maxargs ∧ p.2 <:+ s ∧
    (∀ w ∈ ws, w.In line) ∧ ∀ r ∈ rs', r.1.In line

omit h0 in
theorem finishExec_safe {argv : List Word} {P : Cmd Word × Ptr → Prop}
    (hargs : argv.length < maxargs) (hP : P ((Cmd.exec argv).redirs rs, s)) :
    Safe (finishExec ((Cmd.exec []).redirs rs) argv s) P := by
  rw [finishExec, if_neg (Nat.not_le.mpr hargs), Cmd.redirs_fill]
  exact hP

theorem parseargs_sound (fuel : Nat) (rs : List (Word × Mode)) (argv : List Word) (s : Ptr)
    (hs : s <:+ line) (hf : s.length < fuel) (hargs : argv.length < maxargs) :
    Safe (parseargs fuel ((Cmd.exec []).redirs rs) argv s) (ReadArgs line rs argv s) := by
  induction fuel generalizing rs argv s with
  | zero => nomatch hf
  | succ fuel ih =>
    rw [parseargs]
    have hdone : ∀ s' : Ptr, lex s' = lex s → s' <:+ s →
        Safe (finishExec ((Cmd.exec []).redirs rs) argv s') (ReadArgs line rs argv s) := by
      intro s' hlex hsuf
      refine finishExec_safe hargs ⟨[], [], [], ?_, hlex.symm, .nil, ?_, hsuf, nofun, nofun⟩
      · rw [append_nil, append_nil]
      · rwa [append_nil]
    by_cases hp : (peek s [124, 41, 38, 59]).2 = true
    · simp only [hp, if_true]
      exact hdone _ (lex_skip s) (skip_suffix s)
    · simp only [hp]
      have hsk := skip_suffix s
      rw [peek_fst]
      by_cases hret0 : (gettoken (skip s)).ret = 0
      · rw [if_neg Bool.false_ne_true, if_pos hret0]
        have hlex : lex (skip s) = [] := by
          cases h : lex (skip s) with
          | nil => rfl
          | cons t ts =>
            have h1 := (gettoken_cons (not_mem_of_suffix h0 (hsk.trans hs)) h).1
            exact absurd (h1.symm.trans hret0) t.code_ne_zero
        have hps := (gettoken_nil hlex).2
        refine hdone _ ?_ (hps ▸ nil_suffix)
        rw [hps, ← lex_skip s, hlex]
        rfl
      · rw [if_neg Bool.false_ne_true, if_neg hret0]
        by_cases hret : (gettoken (skip s)).ret = 97
        · rw [if_neg (not_not.mpr hret), if_neg (Nat.not_le.mpr hargs)]
          obtain ⟨h1, h2, h3, h4⟩ := gettoken_word h0 (hsk.trans hs) hret
          generalize Word.mk (gettoken (skip s)).q (gettoken (skip s)).eq = w at h3 h4 ⊢
          have hlen := hsk.length_le
          split
          · exact ⟨nofun, nofun⟩
          · rename_i hargs'
            refine (parseredirs_sound h0 fuel _ _ ((h1.trans hsk).trans hs) (by omega)).bind ?_
            rintro ⟨c, s1⟩ ⟨rs1, ts1, rfl, hlex1, hrs1, hsuf1, hin1⟩
            rw [← Cmd.redirs_append]
            have hlen1 := hsuf1.length_le
            refine (ih (rs ++ rs1) _ s1 (((hsuf1.trans h1).trans hsk).trans hs)
              (by simp only at hlen1 ⊢; omega) (Nat.not_le.mp hargs')).mono ?_
            rintro ⟨c', s'⟩ ⟨ws, rs', ts, rfl, hlex', hws, hl, hsuf', hin, hin'⟩
            have hcons : Words _ (w.text :: _) _ := .cons hrs1 hws
            refine ⟨w :: ws, rs1 ++ rs', _, ?_, ?_, map_append ▸ hcons, ?_,
              ((hsuf'.trans hsuf1).trans h1).trans hsk,
              forall_mem_cons.mpr ⟨h3, hin⟩, forall_mem_append.mpr ⟨hin1, hin'⟩⟩
            · rw [append_assoc, append_assoc]
              rfl
            · rw [← lex_skip s, h4, hlex1, hlex', ← append_assoc]
              rfl
            · rwa [append_assoc] at hl
        · rw [if_pos hret]
          exact ⟨nofun, nofun⟩

theorem parsebacks_sound (fuel : Nat) (cmd : Cmd Word) (s : Ptr) (hs : s <:+ line)
    (hf : s.length < fuel) : Safe (parsebacks fuel cmd s) fun p =>
      ∃ k, p.1 = cmd.backs k ∧ lex s = List.replicate k .amp ++ lex p.2 ∧ p.2 <:+ s := by
  induction fuel generalizing cmd s with
  | zero => nomatch hf
  | succ fuel ih =>
    rw [parsebacks]
    obtain ⟨hp, hlex, h3, h4⟩ | hp := peek_cases h0 (t := .amp) (b := 38) (by decide) rfl hs
    · simp only [hp, if_true]
      refine (ih _ _ (h3.trans hs) (by omega)).mono ?_
      rintro ⟨c, s'⟩ ⟨k, rfl, hk, hsuf⟩
      refine ⟨k + 1, rfl, ?_, hsuf.trans h3⟩
      rw [hlex, hk]
      rfl
    · simp only [hp]
      exact ⟨0, rfl, (lex_skip s).symm, skip_suffix s⟩

/-- What one of the functions of the descent has read from `s` on: tokens with the tree `p.1`. -/
structure Reads (line : Ptr) (G : List Token → Tree → Prop) (s : Ptr) (p : Cmd Word × Ptr) :
    Prop where
  tree : ∃ ts, lex s = ts ++ lex p.2 ∧ G ts (p.1.map Word.text)
  suffix : p.2 <:+ s
  words : ∀ w ∈ p.1.words, w.In line

omit h0 in
theorem Reads.redirs {G : List Token → Tree → Prop} {s' : Ptr} {p : Cmd Word × Ptr}
    (hw : ∀ w ∈ p.1.words, w.In line) (hrs : ∀ r ∈ rs, r.1.In line) (hsuf : s' <:+ s)
    (htree : ∃ ts, lex s = ts ++ lex s' ∧ G ts ((p.1.map Word.text).redirs (texts rs))) :
    Reads line G s (p.1.redirs rs, s') := by
  refine ⟨?_, hsuf, fun w hmem => ?_⟩
  · rwa [Cmd.redirs_map]
  · rw [Cmd.redirs_words] at hmem
    obtain hmem | hmem := mem_append.mp hmem
    · exact hw w hmem
    · obtain ⟨r, hr, rfl⟩ := mem_map.mp hmem
      exact hrs r hr

theorem parseline_sound (hs : s <:+ line) (hf : s.length < fuel)
    (hpipe : Safe (parsepipe fuel s) (Reads line Pipe s))
    (hline : ∀ s', s' <:+ line → s'.length < s.length →
      Safe (parseline fuel s') (Reads line Line s')) :
    Safe (parseline (fuel + 1) s) (Reads line Line s) := by
  rw [parseline]
  refine hpipe.bind ?_
  rintro ⟨c, s1⟩ ⟨⟨ts, hlex, htree⟩, hsuf, hw⟩
  have hl := hsuf.length_le
  refine (parsebacks_sound h0 fuel c s1 (hsuf.trans hs) (hl.trans_lt hf)).bind ?_
  rintro ⟨c', s2⟩ ⟨k, rfl, hlex2, hsuf2⟩
  have hread : lex s = ts ++ List.replicate k .amp ++ lex s2 := by
    rw [hlex, hlex2, append_assoc]
  have hw : ∀ w ∈ (c.backs k).words, w.In line := by rwa [Cmd.backs_words]
  have hsuf2 : s2 <:+ s := hsuf2.trans hsuf
  obtain ⟨hp, hus, h3, h4⟩ | hp :=
    peek_cases h0 (t := .semi) (b := 59) (by decide) rfl (hsuf2.trans hs)
  · simp only [hp, if_true]
    refine (hline _ ((h3.trans hsuf2).trans hs) (h4.trans_le hsuf2.length_le)).bind ?_
    rintro ⟨r, s3⟩ ⟨⟨vs, hvs, htree'⟩, hsuf3, hw'⟩
    refine ⟨⟨ts ++ List.replicate k .amp ++ .semi :: vs, ?_, ?_⟩, (hsuf3.trans h3).trans hsuf2,
      forall_mem_append.mpr ⟨hw, hw'⟩⟩
    · rw [hread, hus, hvs]
      simp only [append_assoc, cons_append]
    · rw [Cmd.map, Cmd.backs_map]
      exact .list htree htree'
  · simp only [hp]
    refine ⟨⟨_, hread.trans (congrArg _ (lex_skip s2).symm), ?_⟩, (skip_suffix s2).trans hsuf2, hw⟩
    exact Cmd.backs_map Word.text c k ▸ .last htree

theorem parsepipe_sound (hs : s <:+ line) (hexec : Safe (parseexec fuel s) (Reads line Exec s))
    (hpipe : ∀ s', s' <:+ line → s'.length < s.length →
      Safe (parsepipe fuel s') (Reads line Pipe s')) :
    Safe (parsepipe (fuel + 1) s) (Reads line Pipe s) := by
  rw [parsepipe]
  refine hexec.bind ?_
  rintro ⟨c, s2⟩ ⟨⟨ts, hlex, htree⟩, hsuf, hw⟩
  have hsuf : s2 <:+ s := hsuf
  have hlex : lex s = ts ++ lex s2 := hlex
  obtain ⟨hp, hus, h3, h4⟩ | hp :=
    peek_cases h0 (t := .bar) (b := 124) (by decide) rfl (hsuf.trans hs)
  · simp only [hp, if_true]
    refine (hpipe _ ((h3.trans hsuf).trans hs) (h4.trans_le hsuf.length_le)).bind ?_
    rintro ⟨r, s3⟩ ⟨⟨vs, hvs, htree'⟩, hsuf3, hw'⟩
    refine ⟨⟨ts ++ .bar :: vs, ?_, .pipe htree htree'⟩, (hsuf3.trans h3).trans hsuf,
      forall_mem_append.mpr ⟨hw, hw'⟩⟩
    rw [hlex, hus, hvs]
    simp only [append_assoc, cons_append]
  · simp only [hp]
    exact ⟨⟨ts, hlex.trans (congrArg _ (lex_skip s2).symm), .last htree⟩,
      (skip_suffix s2).trans hsuf, hw⟩

theorem parseexec_sound (hs : s <:+ line) (hf : s.length < fuel)
    (hblock : Safe (parseblock fuel (skip s)) (Reads line Exec (skip s))) :
    Safe (parseexec (fuel + 1) s) (Reads line Exec s) := by
  rw [parseexec]
  have hsk := skip_suffix s
  by_cases hp : (peek s [40]).2 = true
  · simp only [hp, if_true]
    refine hblock.mono ?_
    rintro ⟨c, s'⟩ ⟨⟨ts, hlex, htree⟩, hsuf, hw⟩
    exact ⟨⟨ts, (lex_skip s).symm.trans hlex, htree⟩, hsuf.trans hsk, hw⟩
  · simp only [hp, peek_fst]
    have hl := hsk.length_le
    refine (parseredirs_sound h0 fuel (.exec []) (skip s) (hsk.trans hs) (by omega)).bind ?_
    rintro ⟨c, s1⟩ ⟨rs, ts, rfl, hlex, hrs, hsuf, hin⟩
    have hsuf : s1 <:+ skip s := hsuf
    have hl' := hsuf.length_le
    refine (parseargs_sound h0 fuel rs [] s1 ((hsuf.trans hsk).trans hs) (by omega)
      (by decide)).mono ?_
    rintro ⟨c, s'⟩ ⟨ws, rs', us, rfl, hlex', hws, hlen, hsuf', hin', hin''⟩
    have hsuf' : s' <:+ s1 := hsuf'
    refine Reads.redirs (p := (.exec ws, s')) hin' (forall_mem_append.mpr ⟨hin, hin''⟩)
      ((hsuf'.trans hsuf).trans hsk) ⟨ts ++ us, ?_, ?_⟩
    · have hlex : lex (skip s) = ts ++ lex s1 := hlex
      have hlex' : lex s1 = us ++ lex s' := hlex'
      rw [← lex_skip s, hlex, hlex', append_assoc]
    · rw [texts, map_append]
      exact .simple hrs hws (by rwa [length_map])

theorem parseblock_sound (hs : s <:+ line) (hf : s.length < fuel)
    (hline : ∀ s', s' <:+ line → s'.length < s.length →
      Safe (parseline fuel s') (Reads line Line s')) :
    Safe (parseblock (fuel + 1) s) (Reads line Exec s) := by
  rw [parseblock]
  obtain ⟨hp, hus, h3, h4⟩ | hp := peek_cases h0 (t := .lpar) (b := 40) (by decide) rfl hs
  · simp only [hp, if_true]
    refine (hline _ (h3.trans hs) h4).bind ?_
    rintro ⟨c, s1⟩ ⟨⟨ts, hts, htree⟩, hsuf1, hw⟩
    have hsuf1 : s1 <:+ s := hsuf1.trans h3
    obtain ⟨hp1, hvs, h3', h4'⟩ | hp1 :=
      peek_cases h0 (t := .rpar) (b := 41) (by decide) rfl (hsuf1.trans hs)
    · simp only [hp1, if_true]
      have hl := hsuf1.length_le
      refine (parseredirs_sound h0 fuel c _ ((h3'.trans hsuf1).trans hs) (by omega)).mono ?_
      rintro ⟨c', s'⟩ ⟨rs, ws, rfl, hlex, hrs, hsuf, hin⟩
      refine Reads.redirs (p := (c, s')) hw hin ((hsuf.trans h3').trans hsuf1)
        ⟨.lpar :: ts ++ .rpar :: ws, ?_, .block htree hrs⟩
      rw [hus, hts, hvs, hlex]
      simp only [append_assoc, cons_append]
    · simp only [hp1]
      exact ⟨nofun, nofun⟩
  · simp only [hp]
    exact ⟨nofun, nofun⟩

/-- **Soundness** of the four functions at once.  The fuel pays for every function that is entered
before the next token is read. -/
theorem parse_sound (fuel : Nat) : ∀ s, s <:+ line →
    (4 * s.length + 5 ≤ fuel → Safe (parseline fuel s) (Reads line Line s)) ∧
    (4 * s.length + 4 ≤ fuel → Safe (parsepipe fuel s) (Reads line Pipe s)) ∧
    (4 * s.length + 3 ≤ fuel → Safe (parseexec fuel s) (Reads line Exec s)) ∧
    (4 * s.length + 2 ≤ fuel → Safe (parseblock fuel s) (Reads line Exec s)) := by
  induction fuel with
  | zero => exact fun s _ => ⟨nofun, nofun, nofun, nofun⟩
  | succ fuel ih =>
    intro s hs
    have hsk := skip_suffix s
    have hlen := hsk.length_le
    refine ⟨fun hf => ?_, fun hf => ?_, fun hf => ?_, fun hf => ?_⟩
    · exact parseline_sound h0 hs (by omega) ((ih s hs).2.1 (by omega))
        fun s' hs' hl => (ih s' hs').1 (by omega)
    · exact parsepipe_sound h0 hs ((ih s hs).2.2.1 (by omega)) fun s' hs' hl =>
        (ih s' hs').2.1 (by omega)
    · exact parseexec_sound h0 hs (by omega) ((ih _ (hsk.trans hs)).2.2.2 (by omega))
    · exact parseblock_sound h0 hs (by omega) fun s' hs' hl => (ih s' hs').1 (by omega)

end Sound

end Xv6.Sh
