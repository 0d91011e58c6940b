import Mathlib.Data.List.DropRight
import Xv6.Sh.Lines

/-!
# Reading a command line

`get_oneline_of_cmd` reads into the 100 bytes of `main` until a line has ended or 99 bytes are
there.  A tab is not stored: the last word is completed instead, if there is an entry in the current
directory that it begins.  Of the piece `cd dir` the last character is lost, whether it is the
newline or not.

No byte that is read is zero, so `buf` is given by the string in it, which has the length `i`.
-/

namespace Xv6.Sh

open List

/-! ## Input -/

/-- `is_valid_identifier_char` -/
def isValidIdentifierChar (c : UInt8) : Bool :=
  65 ≤ c && c ≤ 90 || 97 ≤ c && c ≤ 122 || 48 ≤ c && c ≤ 57 || c = 95 || c = 46 || c = 45

/-- `find_last_word` -/
def findLastWord (buf : List UInt8) : List UInt8 := buf.rtakeWhile isValidIdentifierChar

/-- An entry of a directory: `de.inum`, the string in `de.name`, and if `stat` succeeds. -/
structure Entry where
  inum : Nat
  name : List UInt8
  found : Bool

/-- `buf` after `tab_completion`, for the entries of `.`; there are none if it cannot be opened. -/
def tabCompletion (cmdbuf : List UInt8) (dir : List Entry) : List UInt8 :=
  let path := fun e : Entry => 46 :: 47 :: e.name
  match dir.find? fun e => e.inum ≠ 0 ∧ e.found = true ∧ ¬[47, 46] <:+ path e ∧
      ¬[47, 46, 46] <:+ path e ∧ findLastWord cmdbuf <+: findLastWord (path e) with
  | some e => cmdbuf.rdropWhile isValidIdentifierChar ++ findLastWord (path e)
  | none => cmdbuf

/-- A byte that is read, and the entries of `.` at that time. -/
structure Key where
  c : UInt8
  dir : List Entry

/-- The round of the loop in which the byte is read. -/
def Key.store (k : Key) (buf : List UInt8) : List UInt8 :=
  if k.c = 9 then tabCompletion buf k.dir else buf ++ [k.c]

/-- The loop of `get_oneline_of_cmd`, until the input ends. -/
def getOnelineOfCmd (nbuf : Nat) (buf : List UInt8) : List Key → List UInt8
  | [] => buf
  | k :: ks =>
    if buf.length + 1 < nbuf then
      if k.c = 10 ∨ k.c = 13 then k.store buf else getOnelineOfCmd nbuf (k.store buf) ks
    else buf

/-- A round of `main`.  There is none if the line is empty. -/
def round (keys : List Key) : List Outcome :=
  let buf := getOnelineOfCmd 100 [] keys
  if buf = [] then [] else (cut [] buf).map processOneCmd

/-- What is typed, however long it gets. -/
def typed (line : List UInt8) (ks : List Key) : List UInt8 := ks.foldl (fun l k => k.store l) line

variable {nbuf : Nat} {line l w cur : List UInt8} {k : Key} {ks ks' : List Key}

/-- Nothing is taken away. -/
theorem prefix_store : line <+: k.store line := by
  rw [Key.store]
  split
  · rw [tabCompletion]
    dsimp only
    split
    · rename_i e he
      have hword := find?_some he
      simp only [decide_eq_true_eq] at hword
      conv_lhs => rw [← @rdropWhile_append_rtakeWhile _ isValidIdentifierChar line]
      exact prefix_append_right_inj _ |>.mpr hword.2.2.2.2
    · exact prefix_rfl
  · exact prefix_append ..

theorem prefix_typed : line <+: typed line ks := by
  induction ks generalizing line with
  | nil => exact prefix_rfl
  | cons k ks ih => exact prefix_store.trans ih

theorem typed_append : typed line (ks ++ ks') = typed (typed line ks) ks' := foldl_append ..

theorem getOnelineOfCmd_full (h : ¬line.length + 1 < nbuf) :
    getOnelineOfCmd nbuf line ks = line := by
  cases ks with
  | nil => rfl
  | cons k ks => rw [getOnelineOfCmd, if_neg h]

theorem prefix_getOnelineOfCmd : line <+: getOnelineOfCmd nbuf line ks := by
  fun_induction getOnelineOfCmd nbuf line ks with
  | case1 => exact prefix_rfl
  | case2 => exact prefix_store
  | case3 _ _ _ _ _ ih => exact prefix_store.trans ih
  | case4 => exact prefix_rfl

/-- If the keys do not end the line, then they are all read, or nothing after them is. -/
theorem getOnelineOfCmd_append (h : ∀ k ∈ ks, k.c ≠ 10 ∧ k.c ≠ 13) :
    if (typed line ks).length + 1 < nbuf then
      getOnelineOfCmd nbuf line (ks ++ ks') = getOnelineOfCmd nbuf (typed line ks) ks'
    else getOnelineOfCmd nbuf line (ks ++ ks') <+: typed line ks := by
  induction ks generalizing line with
  | nil =>
    split
    · rfl
    · rename_i hlen
      exact (getOnelineOfCmd_full hlen).symm ▸ prefix_rfl
  | cons k ks ih =>
    obtain ⟨hk, h⟩ := forall_mem_cons.mp h
    have hpre : line <+: typed line (k :: ks) := prefix_typed
    have hle := hpre.length_le
    by_cases hlen : line.length + 1 < nbuf
    · rw [cons_append, getOnelineOfCmd, if_pos hlen, if_neg (c := _ ∨ _) (not_or.mpr hk)]
      exact ih h
    · rw [getOnelineOfCmd_full hlen, if_neg (by omega)]
      exact hpre

/-! ## `cd` -/

/-- Spaces, and tabs that complete nothing. -/
def Blanks (line : List UInt8) : List Key → Prop
  | [] => True
  | k :: ks => (k.c = 32 ∨ k.c = 9 ∧ k.store line = line) ∧ Blanks (k.store line) ks

/-- The characters that blanks leave. -/
def spaces (ks : List Key) : Nat := ks.countP (·.c = 32)

/-- The character that ends a line is stored, too. -/
def newline : List Key → Nat
  | [] => 0
  | k :: _ => if k.c = 10 ∨ k.c = 13 then 1 else 0

variable {pre a cd b d z post : List Key} {dir p q : List UInt8} {m n : Nat}

/-- A piece that is `cd`, blanks and the word `dir`, with blanks around it, is typed after `pre`. -/
structure TypesCd (pre a cd b d z post : List Key) (dir : List UInt8) : Prop where
  start : typed [] pre = [] ∨ ∃ l, typed [] pre = l ++ [59]
  before : Blanks (typed [] pre) a
  name : cd.map Key.c = [99, 100]
  between : Blanks (typed [] (pre ++ a ++ cd)) b
  word : typed (typed [] (pre ++ a ++ cd ++ b)) d = typed [] (pre ++ a ++ cd ++ b) ++ dir
  clean : dir ≠ [] ∧ 32 ∉ dir ∧ 59 ∉ dir
  after : Blanks (typed [] (pre ++ a ++ cd ++ b ++ d)) z
  stop : post = [] ∨ ∃ k ks, post = k :: ks ∧ (k.c = 59 ∨ k.c = 10 ∨ k.c = 13)
  line : ∀ k ∈ pre ++ a ++ cd ++ b ++ d, k.c ≠ 10 ∧ k.c ≠ 13
  nul : ∀ k ∈ pre ++ a ++ cd ++ b ++ d ++ (z ++ post), k.c ≠ 0

theorem Blanks.typed (h : Blanks line ks) : typed line ks = line ++ replicate (spaces ks) 32 := by
  induction ks generalizing line with
  | nil => simp [Sh.typed, spaces]
  | cons k ks ih =>
    obtain ⟨hk, h⟩ := h
    rw [Sh.typed, foldl_cons, ← Sh.typed, ih h]
    rcases hk with hk | ⟨hk, hstore⟩
    · simp [Key.store, hk, spaces, replicate_succ]
    · simp [hstore, hk, spaces]

/-- What is read after the word, up to the end of the piece. -/
theorem getOnelineOfCmd_blanks (hz : Blanks line z)
    (hpost : post = [] ∨ ∃ k ks, post = k :: ks ∧ (k.c = 59 ∨ k.c = 10 ∨ k.c = 13)) :
    ∃ q w, getOnelineOfCmd nbuf line (z ++ post) = line ++ q ++ w ∧ 59 ∉ q ∧
    (w = [] ∨ ∃ v, w = 59 :: v) ∧
      q.length = min (spaces z + newline post) (nbuf - 1 - line.length) := by
  induction z generalizing line with
  | nil =>
    by_cases hlt : line.length + 1 < nbuf
    case neg => exact ⟨[], [], by simp [getOnelineOfCmd_full hlt], not_mem_nil,
      .inl rfl, by simp; omega⟩
    rcases hpost with rfl | ⟨k, ks, rfl, h59 | hnl⟩
    · exact ⟨[], [], by simp [getOnelineOfCmd], not_mem_nil, .inl rfl, by simp [spaces, newline]⟩
    · obtain ⟨v, hv⟩ := @prefix_getOnelineOfCmd nbuf (line ++ [59]) ks
      refine ⟨[], 59 :: v, ?_, not_mem_nil, .inr ⟨v, rfl⟩, by simp [spaces, newline, h59]⟩
      simp [getOnelineOfCmd, hlt, h59, Key.store, ← hv]
    · have hne : k.c ≠ 59 ∧ k.c ≠ 9 := by rcases hnl with h | h <;> simp [h]
      refine ⟨[k.c], [], ?_, by simpa using hne.1.symm, .inl rfl, ?_⟩
      · simp [getOnelineOfCmd, hlt, hnl, Key.store, hne]
      · simp [spaces, newline, hnl]
        omega
  | cons k z ih =>
    by_cases hlt : line.length + 1 < nbuf
    case neg => exact ⟨[], [], by simp [getOnelineOfCmd_full hlt], not_mem_nil,
      .inl rfl, by simp; omega⟩
    obtain ⟨hk, hz⟩ := hz
    obtain ⟨q, w, he, hq, hw, hlen⟩ := ih hz
    rcases hk with hk | ⟨hk, hstore⟩
    · refine ⟨32 :: q, w, ?_, by simpa using hq, hw, ?_⟩
      · simpa [getOnelineOfCmd, hlt, hk, Key.store] using he
      · simp [hlen, spaces, hk, Key.store]
        omega
    · refine ⟨q, w, ?_, hq, hw, ?_⟩
      · simpa [getOnelineOfCmd, hlt, hk, hstore] using he
      · simpa [hstore, spaces, hk] using hlen

/-! ### Pieces -/

theorem length_cut : (cut cur line).length = line.count 59 + 1 := by
  fun_induction cut cur line <;> simp_all

/-- After a `;` the cut begins anew. -/
theorem drop_cut : (cut cur (l ++ 59 :: line)).drop (l.count 59 + 1) = cut [] line := by
  induction l generalizing cur with
  | nil => simp [cut]
  | cons c l ih =>
    by_cases hc : c = 59
    · simpa [cut, hc] using ih
    · simpa [cut, hc] using ih

theorem getElem?_cut (hl : l = [] ∨ ∃ l', l = l' ++ [59]) (hp : 59 ∉ p)
    (hw : w = [] ∨ ∃ v, w = 59 :: v) :
    (cut [] (l ++ p ++ w))[l.count 59]? = some p := by
  have hhead : (cut [] (p ++ w))[0]? = some p := by
    rcases hw with rfl | ⟨v, rfl⟩
    · rw [append_nil, cut_of_not_mem hp]
      rfl
    · rw [cut_semi hp]
      rfl
  rcases hl with rfl | ⟨l', rfl⟩
  · exact hhead
  · rw [← @drop_cut (p ++ w) l' [], getElem?_drop] at hhead
    simpa using hhead

/-- A piece that is not read to its end. -/
theorem prefix_of_cut (hl : l = [] ∨ ∃ l', l = l' ++ [59]) (hq : 59 ∉ q) (hline : line <+: l ++ q)
    (hp : (cut [] line)[l.count 59]? = some p) : p <+: q := by
  obtain ⟨r, hr⟩ := hline
  rcases append_eq_append_iff.mp hr with ⟨c, rfl, -⟩ | ⟨c, rfl, rfl⟩
  · rcases eq_nil_or_concat c with rfl | ⟨c, x, rfl⟩
    · have hnil := getElem?_cut hl (not_mem_nil (a := 59)) (.inl rfl)
      simp only [append_nil] at hp hnil
      rw [hp] at hnil
      cases hnil
      exact nil_prefix
    · obtain ⟨hlt, -⟩ := List.getElem?_eq_some_iff.mp hp
      have hx : x = 59 := by
        rcases hl with hl | ⟨l', hl⟩
        · simp at hl
        · rw [concat_eq_append, ← append_assoc] at hl
          exact (append_inj' hl rfl).2 |> cons.inj |>.1
      simp [length_cut, hx] at hlt
  · rw [mem_append, not_or] at hq
    have hc := getElem?_cut hl hq.1 (.inl rfl)
    rw [append_nil, hp] at hc
    cases hc
    exact prefix_append ..

/-- One character at the end is chopped. -/
theorem processOneCmd_eq_chdir (hd : dir ≠ []) :
    processOneCmd p = .chdir dir ↔ ∃ e, p = [99, 100, 32] ++ dir ++ [e] := by
  rw [processOneCmd]
  constructor
  · intro h
    split at h
    · rename_i hcd
      obtain ⟨x, rfl⟩ := hcd
      have hx := Outcome.chdir.inj h
      rcases eq_nil_or_concat x with rfl | ⟨y, e, rfl⟩
      · exact absurd hx.symm hd
      · rw [concat_eq_append, ← append_assoc] at hx ⊢
        rw [dropLast_concat] at hx
        exact ⟨e, by rw [← hx]; rfl⟩
    · split at h <;> cases h
  · rintro ⟨e, rfl⟩
    rw [append_assoc, if_pos (prefix_append ..), ← append_assoc, dropLast_concat]
    rfl

/-- What precedes that character has to be the word. -/
theorem chdir_iff (hp : p <+: replicate m 32 ++ 99 :: 100 :: (replicate n 32 ++ dir) ++ q)
    (hd : dir ≠ []) (h32 : 32 ∉ dir) :
    processOneCmd p = .chdir dir ↔ m = 0 ∧ n = 1 ∧ p.length = dir.length + 4 := by
  obtain ⟨c, dir, rfl⟩ := exists_cons_of_ne_nil hd
  obtain ⟨hc, -⟩ := ne_and_not_mem_of_not_mem_cons h32
  rw [processOneCmd_eq_chdir hd]
  constructor
  · rintro ⟨e, rfl⟩
    cases m with
    | succ m => simp [replicate_succ] at hp
    | zero =>
      rcases n with _ | _ | n
      · simp [hc] at hp
      · simp
      · simp [replicate_succ, hc.symm] at hp
  · rintro ⟨rfl, rfl, hlen⟩
    have htake : p = [99, 100, 32] ++ (c :: dir) ++ q.take 1 := by
      rw [prefix_iff_eq_take.mp hp, hlen]
      simp [take_append, take_of_length_le]
    obtain ⟨e, he⟩ := length_eq_one_iff.mp (show (q.take 1).length = 1 by
      have := htake ▸ hlen
      simp at this ⊢
      omega)
    exact ⟨e, he ▸ htake⟩

/-- **`cd` changes to the directory that is typed** exactly if no space is stored before `cd` and
one is stored after it, and if one character is stored after the word and belongs to the piece: a
space, or what ends the line.  At most 99 are stored. -/
theorem cd_iff (h : TypesCd pre a cd b d z post dir) :
    (round (pre ++ a ++ cd ++ b ++ d ++ (z ++ post)))[(typed [] pre).count 59]? =
    some (.chdir dir) ↔
      spaces a = 0 ∧ spaces b = 1 ∧
      min (spaces z + newline post) (99 - (typed [] (pre ++ a ++ cd ++ b ++ d)).length) = 1 := by
  have htyped : typed [] (pre ++ a ++ cd ++ b ++ d) = typed [] pre ++
      (replicate (spaces a) 32 ++ 99 :: 100 :: (replicate (spaces b) 32 ++ dir)) := by
    have hcd : ∀ l, typed l cd = l ++ [99, 100] := fun l => by
      obtain ⟨k, k', rfl⟩ : ∃ k k', cd = [k, k'] :=
        length_eq_two.mp (by simpa using congrArg length h.name)
      have hk := h.name
      simp at hk
      simp [typed, Key.store, hk]
    rw [typed_append, h.word, typed_append, h.between.typed, typed_append, hcd, typed_append,
      h.before.typed]
    simp
  have hread := @getOnelineOfCmd_append 100 [] _ (z ++ post) h.line
  have hafter := h.after
  obtain ⟨hd, h32, h59⟩ := h.clean
  rw [round]
  rw [htyped] at hread hafter ⊢
  split at hread
  · obtain ⟨q, w, he, hq, hw, hlen⟩ := @getOnelineOfCmd_blanks 100 _ _ _ hafter h.stop
    rw [hread, he, if_neg (by simp), getElem?_map, append_assoc (typed [] pre),
      getElem?_cut h.start (by simp [hq, h59]) hw, Option.map_some, Option.some.injEq,
      chdir_iff prefix_rfl hd h32, length_append, hlen]
    refine and_congr_right fun ha => and_congr_right fun hb => ?_
    simp [ha, hb]
    omega
  · rename_i hfull
    refine iff_of_false (fun hc => ?_) (fun hc => by omega)
    split at hc
    · cases hc
    rw [getElem?_map] at hc
    obtain ⟨p, hp, hc⟩ := Option.map_eq_some_iff.mp hc
    have hpre := prefix_of_cut h.start (by simp [h59]) hread hp
    rw [chdir_iff (hpre.trans (prefix_append _ [])) hd h32] at hc
    have hle := hpre.length_le
    simp only [length_append, length_replicate, length_cons] at hle
    omega

/-- Keys of which none is a tab. -/
def keys (text : List UInt8) : List Key := text.map fun c => ⟨c, []⟩

/-- Of a directory of 96 characters 95 are left, as the newline is not read. -/
example : round (keys ([99, 100, 32] ++ replicate 96 97 ++ [10])) = [.chdir (replicate 95 97)] := by
  decide +kernel

/-- The line `b;`, tab, `cd a` and a newline, where `.` is empty. -/
theorem cd_alone : (round (keys [98, 59, 9, 99, 100, 32, 97, 10]))[1]? = some (.chdir [97]) :=
  (@cd_iff (keys [98, 59]) (keys [9]) (keys [99, 100]) (keys [32]) (keys [97]) [] (keys [10]) [97]
    ⟨.inr ⟨[98], rfl⟩, ⟨.inr ⟨rfl, rfl⟩, trivial⟩, rfl, ⟨.inl rfl, trivial⟩,
      rfl, by decide, trivial,
      .inr ⟨_, _, rfl, .inr (.inl rfl)⟩, by decide, by decide⟩).mpr ⟨rfl, rfl, rfl⟩

/-- In `cd a;b` the directory is empty. -/
theorem cd_chopped : round (keys [99, 100, 32, 97, 59, 98, 10]) = [.chdir [], .run [98, 10]] := by
  decide +kernel

end Xv6.Sh
