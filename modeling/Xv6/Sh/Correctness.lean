import Xv6.Sh.Completeness

/-!
# The parser recognises the language

`parsecmd` returns a tree exactly for the lines of the grammar (`parsecmd_correct`), and the words
of the tree are strings in the buffer of the line: words are disjoint, so the zeros that
`nulterminate` writes end all of them and change none.
-/

namespace Xv6.Sh

open List

/-! ## Arguments and strings -/

mutual

theorem Line.length_lt : ∀ {ts : List Token} {t : Tree}, Line ts t →
    ∀ argv ∈ t.execs, argv.length < maxargs
  | _, _, .last h => by
    rw [Cmd.backs_execs]
    exact h.length_lt
  | _, _, .list h h' => by
    rw [Cmd.execs, Cmd.backs_execs]
    exact forall_mem_append.mpr ⟨h.length_lt, h'.length_lt⟩

theorem Pipe.length_lt : ∀ {ts : List Token} {t : Tree}, Pipe ts t →
    ∀ argv ∈ t.execs, argv.length < maxargs
  | _, _, .last h => h.length_lt
  | _, _, .pipe h h' => forall_mem_append.mpr ⟨h.length_lt, h'.length_lt⟩

theorem Exec.length_lt : ∀ {ts : List Token} {t : Tree}, Exec ts t →
    ∀ argv ∈ t.execs, argv.length < maxargs
  | _, _, .block h _ => by
    rw [Cmd.redirs_execs]
    exact h.length_lt
  | _, _, .simple _ _ hlen => by
    rw [Cmd.redirs_execs]
    exact forall_mem_singleton.mpr hlen

end

theorem nulterminate_eq (n : Nat) (cmd : Cmd Word) (b : List UInt8) :
    nulterminate n cmd b = cmd.words.foldl (fun b w => terminateAt n b w.eq) b := by
  induction cmd generalizing b with
  | exec argv => rfl
  | redir c file mode ih => rw [nulterminate, Cmd.words, foldl_append, ih]; rfl
  | pipe l r ihl ihr | list l r ihl ihr => rw [nulterminate, Cmd.words, foldl_append, ihl, ihr]
  | back c ih => exact ih b

theorem getElem?_terminate (n : Nat) (ws : List Word) (b : List UInt8) (i : Nat) :
    (ws.foldl (fun b w => terminateAt n b w.eq) b)[i]? =
      if ∃ w ∈ ws, n - w.eq.length = i then b[i]?.map fun _ => 0 else b[i]? := by
  induction ws generalizing b with
  | nil => simp
  | cons w ws ih =>
    rw [foldl_cons, ih, terminateAt]
    by_cases hw : n - w.eq.length = i
    · have h1 : ∃ w' ∈ w :: ws, n - w'.eq.length = i := ⟨w, mem_cons_self .., hw⟩
      rw [if_pos h1, hw, getElem?_set_self']
      split <;> cases b[i]? <;> rfl
    · rw [getElem?_set_ne hw]
      simp only [mem_cons, exists_eq_or_imp, hw, false_or]

theorem takeWhile_eq {l txt : List UInt8} (h : ∀ j, j < txt.length → l[j]? = txt[j]?)
    (hend : l[txt.length]? = some 0) (h0 : 0 ∉ txt) : l.takeWhile (· ≠ 0) = txt := by
  induction txt generalizing l with
  | nil =>
    cases l with
    | nil => rfl
    | cons c cs =>
      obtain rfl : c = 0 := Option.some.inj hend
      rfl
  | cons d ds ih =>
    cases l with
    | nil => nomatch h 0 (Nat.zero_lt_succ _)
    | cons c cs =>
      obtain rfl : c = d := Option.some.inj (h 0 (Nat.zero_lt_succ _))
      have hc : c ≠ 0 := fun hc => h0 (hc ▸ mem_cons_self ..)
      rw [takeWhile_cons_of_pos (by simpa using hc)]
      exact congrArg _ (ih (fun j hj => h (j + 1) (Nat.succ_lt_succ hj)) hend
        fun hm => h0 (mem_cons_of_mem _ hm))

theorem getElem?_of_suffix {s q : Ptr} (h : q <:+ s) (j : Nat) :
    s[s.length - q.length + j]? = q[j]? :=
  getElem?_drop.symm.trans (congrArg (fun l => l[j]?) (suffix_iff_eq_drop.mp h).symm)

/-- **Every word reads as its text** after `nulterminate`: a zero is stored only at a character that
belongs to no word. -/
theorem readString_nulterminate {line : Ptr} (h0 : 0 ∉ line) {cmd : Cmd Word}
    (hin : ∀ w ∈ cmd.words, w.In line) : ∀ w ∈ cmd.words,
      readString line.length (nulterminate line.length cmd (line ++ [0])) w.q = w.text := by
  intro w hmem
  have hw := hin w hmem
  have hlen : w.q.length = w.text.length + w.eq.length :=
    (congrArg List.length hw.split).trans length_append
  have hle := hw.suffix.length_le
  rw [readString, nulterminate_eq]
  refine takeWhile_eq (fun j hj => ?_) ?_ fun hm => h0 (hw.suffix.subset ?_)
  · rw [getElem?_drop, getElem?_terminate]
    have hchar : (line)[line.length - w.q.length + j]? = w.text[j]? :=
      calc (line)[line.length - w.q.length + j]?
        _ = w.q[j]? := getElem?_of_suffix hw.suffix j
        _ = (w.text ++ w.eq)[j]? := congrArg (fun l => l[j]?) hw.split
        _ = w.text[j]? := getElem?_append_left hj
    rw [if_neg, getElem?_append_left (by omega), hchar]
    rintro ⟨w', hmem', hpos⟩
    have hw' := hin w' hmem'
    have hsuf' : w'.eq <:+ line := (hw'.split ▸ suffix_append ..).trans hw'.suffix
    cases heq : w'.eq with
    | nil =>
      rw [heq, length_nil] at hpos
      omega
    | cons c cs =>
      have hc : (line)[line.length - w.q.length + j]? = some c := by
        rw [← hpos, ← Nat.add_zero (_ - _), getElem?_of_suffix hsuf', heq]
        rfl
      have hmem := mem_of_getElem? (hchar.symm.trans hc)
      exact absurd (hw.chars c hmem) (by rw [hw'.stop c cs heq]; decide)
  · rw [getElem?_drop, getElem?_terminate, if_pos ⟨w, hmem, by omega⟩,
      getElem?_eq_getElem (by rw [length_append, length_singleton]; omega)]
    rfl
  · rw [hw.split]
    exact mem_append_left _ hm

/-! ## The whole -/

section

variable {line : List UInt8} (h0 : 0 ∉ line) {fuel : Nat} (hf : 4 * line.length + 5 ≤ fuel)

include h0 hf

theorem parsecmd_safe : Safe (parsecmd fuel line) fun p => Line (lex line) (p.1.map Word.text) ∧
    (∀ w ∈ p.1.words, w.In line) ∧ p.2 = nulterminate line.length p.1 (line ++ [0]) := by
  refine ((parse_sound h0 fuel line suffix_rfl).1 hf).bind ?_
  rintro ⟨c, s⟩ ⟨⟨ts, hlex, htree⟩, hsuf, hw⟩
  have hlex : lex line = ts ++ lex s := hlex
  change Safe (if (peek s []).1 ≠ [] then _ else _) _
  by_cases hnil : (peek s []).1 ≠ []
  · rw [if_pos hnil]
    exact ⟨nofun, nofun⟩
  · rw [if_neg hnil]
    have hnil : lex s = [] := by
      rw [← lex_skip]
      exact congrArg lex (not_not.mp hnil)
    rw [hnil, append_nil] at hlex
    exact ⟨hlex ▸ htree, hw, rfl⟩

/-- The trees that it returns are those of the grammar. -/
theorem line_iff_parsecmd {t : Tree} :
    Line (lex line) t ↔ ∃ cmd b, parsecmd fuel line = .ok (cmd, b) ∧ cmd.map Word.text = t := by
  constructor
  · intro ht
    obtain ⟨⟨c, s⟩, hc, ht, hlex⟩ := (parse_complete h0 fuel line suffix_rfl).1 hf _ t [] ht
      (append_nil _).symm .nil
    refine ⟨c, nulterminate line.length c (line ++ [0]), ?_, ht⟩
    rw [parsecmd, hc]
    exact if_neg (not_not.mpr (skip_eq_nil hlex))
  · rintro ⟨cmd, b, he, rfl⟩
    have hsafe := parsecmd_safe h0 hf
    rw [he] at hsafe
    exact hsafe.1

end

/-- **The parser recognises exactly its grammar.**  For every line it returns a tree or panics with
an error of its text.  The trees it returns are those derived from the line, and its words are
strings in the buffer. -/
theorem parsecmd_correct (line : List UInt8) (h0 : 0 ∉ line) (fuel : Nat)
    (hf : 4 * line.length + 5 ≤ fuel) :
    (∀ e, parsecmd fuel line = .error e → e ≠ .fuel ∧ e ≠ .overrun) ∧
      (∀ t, Line (lex line) t ↔ ∃ cmd b, parsecmd fuel line = .ok (cmd, b) ∧
        cmd.map Word.text = t) ∧
      ∀ cmd b, parsecmd fuel line = .ok (cmd, b) →
        (∀ w ∈ cmd.words, readString line.length b w.q = w.text) ∧
        ∀ argv ∈ cmd.execs, argv.length < maxargs := by
  have hsafe := parsecmd_safe h0 hf
  refine ⟨fun e he => ?_, fun t => line_iff_parsecmd h0 hf, fun cmd b he => ?_⟩
  · rwa [he] at hsafe
  · rw [he] at hsafe
    obtain ⟨htree, hw, hb⟩ : _ ∧ _ ∧ b = nulterminate line.length cmd (line ++ [0]) := hsafe
    subst hb
    refine ⟨readString_nulterminate h0 hw, fun argv hmem => ?_⟩
    have := htree.length_lt (argv.map Word.text) (by
      rw [Cmd.execs_map]
      exact mem_map_of_mem hmem)
    rwa [length_map] at this

theorem parsecmd_correct_pipe : (0 : UInt8) ∉ [108, 115, 124, 119, 99] ∧
    4 * [108, 115, 124, 119, 99].length + 5 ≤ 25 ∧
    Line (lex [108, 115, 124, 119, 99]) (.pipe (.exec [[108, 115]]) (.exec [[119, 99]])) := by
  refine ⟨by decide, by decide, ?_⟩
  have h := parsecmd_correct [108, 115, 124, 119, 99] (by decide) 25 (by decide)
  exact (h.2.1 _).mpr ⟨_, _, rfl, by decide⟩

end Xv6.Sh
