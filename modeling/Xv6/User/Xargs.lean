import Xv6.User.Regex

/-!
# `user/xargs.c`

The loop puts the input into `buf`, a null byte in place of every separator, and into `argsbuf` a
pointer to the beginning of every word.  It looks for the end of a line in the byte that it has just
overwritten, so it never finds one: there is one command, at the end of the input.

Both arrays are lists here, of what has been stored so far, and `stores` keeps where: nothing stops
the program at the end of an array.
-/

namespace Xv6.User.Xargs

open List

/-- What `argsbuf` holds: a `char *`. -/
inductive Ptr
  | argv (i : Nat)
  | buf (i : Nat)

/-- Where the program stores: `buf[i]` or `argsbuf[i]`. -/
inductive Place
  | buf (i : Nat)
  | args (i : Nat)
  deriving DecidableEq

/-- The place is in its array. -/
def Place.InBounds : Place → Prop
  | .buf i => i < 1024
  | .args i => i < 128

/-- The variables of `main`; `p` is the end of `buf`, and `cur` that of `args`. -/
structure State where
  buf : Str
  args : List Ptr
  head : Nat
  stores : List Place
  /-- The commands that have been run, with their argument vectors. -/
  runs : List (Str × List Str)

/-- The string at the beginning of a piece of memory. -/
def cstr (bytes : Str) : Str := bytes.takeWhile (· ≠ 0)

variable (argv : List Str) {w : Str} {ws : List Str}

/-- What a pointer points at. -/
def deref (buf : Str) : Ptr → Str
  | .argv i => argv.getD i []
  | .buf i => cstr (buf.drop i)

namespace State

/-- `*cur = x; cur++` -/
def push (s : State) (x : Ptr) : State :=
  { s with args := s.args ++ [x], stores := s.stores ++ [.args s.args.length] }

/-- `*cur = 0; run(argv[1], argsbuf)` -/
def run (s : State) : State :=
  { s with
    stores := s.stores ++ [.args s.args.length]
    runs := s.runs ++ [(argv.getD 1 [], s.args.map (deref argv s.buf))] }

/-- One round of the loop, with the byte `c` from the standard input. -/
def step (s : State) (c : UInt8) : State :=
  let p := s.buf.length
  let s := { s with stores := s.stores ++ [Place.buf p] }
  if c = 32 ∨ c = 10 then
    let c : UInt8 := 0
    let s := { s with buf := s.buf ++ [c], stores := s.stores ++ [Place.buf p] }
    let s := { s.push (.buf s.head) with head := p + 1 }
    if c = 10 then { s.run argv with args := [] } else s
  else { s with buf := s.buf ++ [c] }

/-- What `main` does after the loop. -/
def finish (s : State) : State :=
  if s.args.length ≠ 0 then
    let s := { s with buf := s.buf ++ [0], stores := s.stores ++ [Place.buf s.buf.length] }
    (s.push (.buf s.head)).run argv
  else s

end State

/-- The loop that puts the arguments of `xargs` into `argsbuf`. -/
def start : State :=
  (List.range (argv.length - 1)).foldl (fun s i => s.push (.argv (i + 1))) ⟨[], [], 0, [], []⟩

/-- `main`, with the whole standard input; without a command it only prints how it is used. -/
def main (input : Str) : State :=
  if argv.length < 2 then ⟨[], [], 0, [], []⟩
  else (input.foldl (State.step argv) (start argv)).finish argv

/-! ## What is run -/

/-- Separators. -/
def sep (c : UInt8) : Bool := c = 32 || c = 10

variable {argv} {s : State} {c : UInt8} {input : Str}

theorem step_of_sep (h : sep c) : s.step argv c = { s with
    buf := s.buf ++ [0]
    args := s.args ++ [.buf s.head]
    head := s.buf.length + 1
    stores := s.stores ++ [.buf s.buf.length] ++ [.buf s.buf.length] ++
      [.args s.args.length] } := by
  have hc : c = 32 ∨ c = 10 := by simpa [sep] using h
  simp [State.step, hc, State.push]

theorem step_of_not_sep (h : ¬sep c) : s.step argv c =
    { s with buf := s.buf ++ [c], stores := s.stores ++ [.buf s.buf.length] } := by
  have hc : ¬(c = 32 ∨ c = 10) := by simpa [sep] using h
  simp [State.step, hc]

/-- In the middle of the input the words `ws` are complete, and `w` is the beginning of the next. -/
structure Holds (argv : List Str) (s : State) (ws : List Str) (w : Str) : Prop where
  args : ∀ rest, s.args.map (deref argv (s.buf ++ rest)) = ws
  head : s.head ≤ s.buf.length
  word : s.buf.drop s.head = w
  runs : s.runs = []

theorem cstr_append (w rest : Str) : cstr (w ++ 0 :: rest) = cstr w := by
  induction w with
  | nil => rfl
  | cons c w ih =>
    simp only [cstr, cons_append, takeWhile_cons] at ih ⊢
    rw [ih]

/-- A word is complete when a null byte follows it. -/
theorem Holds.deref (h : Holds argv s ws w) (rest : Str) :
    (s.args ++ [Ptr.buf s.head]).map (Xargs.deref argv (s.buf ++ [0] ++ rest)) =
      ws ++ [cstr w] := by
  have hw : Xargs.deref argv (s.buf ++ [0] ++ rest) (.buf s.head) = cstr w := by
    rw [Xargs.deref, append_assoc, drop_append_of_le_length h.head, h.word]
    exact cstr_append w rest
  have hargs := h.args ([0] ++ rest)
  rw [← append_assoc] at hargs
  rw [map_append, hargs, map_singleton, hw]

theorem Holds.step (h : Holds argv s ws w) :
    if sep c then Holds argv (s.step argv c) (ws ++ [cstr w]) [] else
      Holds argv (s.step argv c) ws (w ++ [c]) := by
  split
  next hc =>
    rw [step_of_sep hc]
    exact ⟨h.deref, by simp, by simp, h.runs⟩
  next hc =>
    rw [step_of_not_sep hc]
    refine ⟨fun rest => by rw [append_assoc]; exact h.args _, ?_, ?_, h.runs⟩
    · exact h.head.trans (by simp)
    · rw [drop_append_of_le_length h.head, h.word]

theorem Holds.loop (h : Holds argv s ws w) (input : Str) :
    ∃ us u, ws ++ ((input.splitOnP sep).modifyHead (w ++ ·)).map cstr = us ++ [cstr u] ∧
      Holds argv (input.foldl (State.step argv) s) us u := by
  induction input generalizing s ws w with
  | nil => exact ⟨ws, w, by simp, h⟩
  | cons c input ih =>
    have hs := h.step (c := c)
    rw [splitOnP_cons_eq_if_modifyHead]
    split at hs
    all_goals
      rename_i hsep
      obtain ⟨us, u, he, hu⟩ := ih hs
      refine ⟨us, u, ?_, hu⟩
      rw [← he]
      cases input.splitOnP sep <;> simp [hsep]

theorem start_eq : start argv =
    ⟨[], (List.range (argv.length - 1)).map fun i => .argv (i + 1), 0,
      (List.range (argv.length - 1)).map .args, []⟩ := by
  rw [start]
  generalize argv.length - 1 = n
  induction n with
  | zero => rfl
  | succ n ih =>
    rw [range_succ, foldl_append, ih]
    simp [State.push]

theorem holds_start : Holds argv (start argv) argv.tail [] := by
  rw [start_eq]
  refine ⟨fun rest => ?_, by simp, rfl, rfl⟩
  refine ext_getElem (by simp) fun i h1 h2 => ?_
  have hi : i + 1 < argv.length := by simp at h2; omega
  simp [deref, hi]

theorem loop_length : (input.foldl (State.step argv) s).buf.length = s.buf.length + input.length ∧
    (input.foldl (State.step argv) s).args.length = s.args.length + input.countP sep := by
  induction input generalizing s with
  | nil => simp
  | cons c input ih =>
    rw [foldl_cons, ih.1, ih.2]
    by_cases hc : sep c
    · rw [step_of_sep hc]
      simp [hc]
      omega
    · rw [step_of_not_sep hc]
      simp [hc]
      omega

/-- There is one command, and its arguments are the pieces between the separators, as strings. -/
theorem main_runs (hargv : 2 ≤ argv.length) :
    (main argv input).runs = [(argv.getD 1 [], argv.tail ++ (input.splitOnP sep).map cstr)] := by
  have hstart : Holds argv (start argv) argv.tail [] := holds_start
  obtain ⟨us, u, he, hu⟩ := hstart.loop input
  have hne : (input.foldl (State.step argv) (start argv)).args.length ≠ 0 := by
    rw [loop_length.2, start_eq]
    simp
    omega
  have hd := hu.deref []
  rw [append_nil] at hd
  have he' : argv.tail ++ (input.splitOnP sep).map cstr = us ++ [cstr u] := by
    rw [← he]
    cases input.splitOnP sep <;> simp
  rw [main, if_neg (Nat.not_lt.mpr hargv), State.finish, if_pos hne, he', ← hd, State.run]
  simp [State.push, hu.runs]

/-! ## Lines of words -/

/-- The input with these lines, and with or without a newline after the last of them. -/
def text (lines : List (List Str)) (nl : Bool) : Str :=
  [10].intercalate (lines.map [32].intercalate) ++ if nl then [10] else []

/-- A word has at least one byte, and no separator or null byte. -/
def Word (w : Str) : Prop := w ≠ [] ∧ ∀ c ∈ w, c ≠ 0 ∧ ¬sep c

theorem splitOnP_intercalate {ls : List Str} (hc : sep c) (hls : ls ≠ []) :
    ([c].intercalate ls).splitOnP sep = ls.flatMap (·.splitOnP sep) := by
  induction ls with
  | nil => exact absurd rfl hls
  | cons l ls ih =>
    cases ls with
    | nil => simp
    | cons l' ls =>
      rw [intercalate_cons_cons, append_assoc, singleton_append,
        splitOnP_append_cons _ _ hc, ih (by simp)]
      simp

theorem splitOnP_words {l : List Str} (hl : ∀ w ∈ l, Word w) :
    ([32].intercalate l).splitOnP sep = if l = [] then [[]] else l := by
  split
  next he => simp [he]
  next hne =>
    have h : ∀ w ∈ l, w.splitOnP sep = [w] := fun w hw =>
      splitOnP_eq_singleton fun c hc => by simpa using ((hl w hw).2 c hc).2
    rw [splitOnP_intercalate rfl hne, flatMap_congr h]
    simp

/-- Every line gives its words, and an empty argument if it has none; so does a newline at the
end. -/
theorem splitOnP_text {lines : List (List Str)} {nl : Bool} (hl : lines ≠ [])
    (hw : ∀ l ∈ lines, ∀ w ∈ l, Word w) : (text lines nl).splitOnP sep =
      lines.flatMap (fun l => if l = [] then [[]] else l) ++ if nl then [[]] else [] := by
  have h : ([10].intercalate (lines.map [32].intercalate)).splitOnP sep =
      lines.flatMap fun l => if l = [] then [[]] else l := by
    rw [splitOnP_intercalate rfl (by simpa using hl), flatMap_map]
    exact flatMap_congr fun l hl => splitOnP_words (hw l hl)
  cases nl with
  | false => simp [text, h]
  | true =>
    rw [text, if_pos rfl, splitOnP_append_cons _ _ rfl, h]
    simp

/-- What `xargs` is for: the command is run once for every line that is not empty. -/
def perLine (argv : List Str) (lines : List (List Str)) : List (Str × List Str) :=
  (lines.filter (· ≠ [])).map fun l => (argv.getD 1 [], argv.tail ++ l)

theorem map_cstr_words {l : List Str} (hl : ∀ w ∈ l, Word w) : l.map cstr = l := by
  refine (map_congr_left fun w hw => ?_).trans (map_id l)
  have hall : ∀ c ∈ w, decide (c ≠ 0) = true := fun c hc => decide_eq_true ((hl w hw).2 c hc).1
  have htake : (w ++ []).takeWhile (fun c => decide (c ≠ 0)) = w ++ [] :=
    takeWhile_append_of_pos hall
  simpa [cstr] using htake

/-- The command is run once for every line exactly if the input is one line without a newline. -/
theorem runs_per_line_iff {lines : List (List Str)} {nl : Bool} (hargv : 2 ≤ argv.length)
    (hw : ∀ l ∈ lines, ∀ w ∈ l, Word w) :
    (main argv (text lines nl)).runs = perLine argv lines ↔
      nl = false ∧ ∃ l, l ≠ [] ∧ lines = [l] := by
  rw [main_runs hargv]
  constructor
  · intro h
    obtain ⟨l, hl, hm⟩ := map_eq_singleton_iff.mp h.symm
    rw [Prod.mk.injEq, append_cancel_left_eq] at hm
    have hmem : l ∈ lines ∧ l ≠ [] := by
      have := mem_filter.mp (hl ▸ mem_singleton_self l)
      simpa using this
    have hne : [] ∉ (text lines nl).splitOnP sep := fun h' =>
      (hw l hmem.1 [] (hm.2 ▸ mem_map_of_mem (f := cstr) h')).1 rfl
    rw [splitOnP_text (ne_nil_of_mem hmem.1) hw] at hne
    have hall : ∀ l ∈ lines, l ≠ [] := by
      rintro _ hl' rfl
      exact hne (mem_append_left _ (mem_flatMap.mpr ⟨[], hl', by simp⟩))
    refine ⟨?_, l, hmem.2, ?_⟩
    · cases nl <;> simp_all
    · rwa [filter_eq_self.mpr (by simpa using hall)] at hl
  · rintro ⟨rfl, l, hne, rfl⟩
    rw [splitOnP_text (by simp) hw]
    simp [perLine, hne, map_cstr_words (hw l (by simp))]

theorem runs_for_one_line :
    (main [[120], [99]] (text [[[97], [98]]] false)).runs = perLine [[120], [99]] [[[97], [98]]] :=
  (runs_per_line_iff (by decide) (by unfold Word; decide +kernel)).mpr ⟨rfl, _, by simp, rfl⟩

/-- With the input `a\nb\n` there is one command, with the arguments `a`, `b` and the empty one. -/
theorem one_run_for_two_lines :
    (main [[120], [99]] (text [[[97]], [[98]]] true)).runs = [([99], [[99], [97], [98], []])] ∧
      perLine [[120], [99]] [[[97]], [[98]]] = [([99], [[99], [97]]), ([99], [[99], [98]])] := by
  decide

/-! ## Where it stores -/

/-- Everything so far has been stored in bounds exactly if what is stored fits. -/
def Fits (s : State) : Prop :=
  (∀ x ∈ s.stores, x.InBounds) ↔ s.buf.length ≤ 1024 ∧ s.args.length ≤ 128

theorem Fits.step (h : Fits s) : Fits (s.step argv c) := by
  by_cases hc : sep c
  on_goal 1 => rw [step_of_sep hc]
  on_goal 2 => rw [step_of_not_sep hc]
  all_goals
    simp only [Fits, forall_mem_append, forall_mem_singleton, Place.InBounds] at h ⊢
    rw [h]
    simp
    omega

theorem Fits.loop (h : Fits s) : Fits (input.foldl (State.step argv) s) := by
  induction input generalizing s with
  | nil => exact h
  | cons c input ih => exact ih h.step

theorem fits_start : Fits (start argv) := by
  rw [start_eq, Fits]
  simp only [forall_mem_map, mem_range, length_map, length_range]
  constructor
  · intro h
    refine ⟨by simp, Nat.le_of_not_lt fun hlt => ?_⟩
    exact absurd (h 128 hlt) (Nat.lt_irrefl _)
  · exact fun h i hi => hi.trans_le h.2

theorem main_stores_iff : (∀ x ∈ (main argv input).stores, x.InBounds) ↔
    (2 ≤ argv.length → input.length < 1024 ∧ argv.length + input.countP sep < 128) := by
  rw [main]
  split
  next hlt => simp [Nat.not_le.mpr hlt]
  next hge =>
    obtain ⟨hb, ha⟩ := @loop_length argv (start argv) input
    have h : Fits (input.foldl (State.step argv) (start argv)) := fits_start.loop
    generalize input.foldl (State.step argv) (start argv) = s at hb ha h ⊢
    rw [start_eq] at hb ha
    simp only [length_map, length_range, length_nil] at hb ha
    rw [State.finish, if_pos (by omega)]
    simp only [Fits, State.run, State.push, forall_mem_append, forall_mem_singleton,
      Place.InBounds, length_append, length_singleton] at h ⊢
    rw [h, hb, ha]
    omega

/-- **Nothing is stored beyond the arrays** exactly if the input has less than 1024 bytes, and less
than 128 arguments come together; and then the command gets all of them. -/
theorem stores_in_bounds_iff : ((∀ x ∈ (main argv input).stores, x.InBounds) ↔
      (2 ≤ argv.length → input.length < 1024 ∧ argv.length + input.countP sep < 128)) ∧
    (2 ≤ argv.length → input.length < 1024 → argv.length + input.countP sep < 128 →
      (main argv input).runs = [(argv.getD 1 [], argv.tail ++ (input.splitOnP sep).map cstr)]) :=
  ⟨main_stores_iff, fun hargv _ _ => main_runs hargv⟩

theorem stores_in_bounds_word :
    (main [[120], [99]] [97, 32, 98]).runs = [([99], [[99], [97], [98]])] :=
  (stores_in_bounds_iff.2 (by decide) (by decide) (by decide)).trans (by decide)

/-- 126 spaces already overrun `argsbuf`. -/
theorem spaces_overrun :
    .args 128 ∈ (main [[120], [99]] (List.replicate 126 32)).stores ∧
      ¬(Place.args 128).InBounds :=
  ⟨by decide +kernel, Nat.lt_irrefl 128⟩

end Xv6.User.Xargs
