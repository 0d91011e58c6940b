import Xv6.Kernel.Callers

/-!
# The line discipline of the console: `kernel/console.c`

Input bytes are edited in a ring of 128 cells with three wrapping indices.  `consoleintr` moves `e`
forward and, to erase, backward, and `w` up to `e` when a line is complete; `consoleread` moves `r`
forward, and backward again over a control-D that it leaves for the next call.

As in `Xv6.Kernel.PipeBuffer` a stretch of `consoleread` with `cons.lock` held is one step, and so
is a call of `consoleintr`; any number of processes read.

* `Editor` is the reference: a text that grows and shrinks at its end, with no ring and no indices.
* `Shows` relates a ring to an editor, and every step keeps it.
* `console_edits` is the result.
-/

namespace Xv6.Kernel

open Lts List Nat Function

/-! ## The reference -/

/-- A line editor. -/
structure Editor where
  /-- Everything that has been typed and not been erased. -/
  text : List UInt8
  /-- How much of it cannot be erased any more. -/
  committed : Nat
  /-- How much of it has been read. -/
  taken : Nat
  deriving DecidableEq

namespace Editor

/-- Nothing has been typed. -/
def empty : Editor := { text := [], committed := 0, taken := 0 }

/-- How much has not been read. -/
def pending (ed : Editor) : Nat := ed.text.length - ed.taken

/-- A byte that is not a command is typed. -/
def type (ed : Editor) (c : UInt8) : Editor :=
  let text := ed.text ++ [c]
  if c = 10 ∨ c = 4 ∨ text.length - ed.taken = inputBuf then
    { ed with text := text, committed := text.length }
  else { ed with text := text }

/-- A byte arrives: control-U, control-H or DEL, one of the bytes `dropped` that are never part of
the text, or any other byte. -/
def input (dropped : List UInt8) (ed : Editor) (c : UInt8) : Editor :=
  if c = 21 then { ed with text := ed.text.take ed.committed }
  else if c = 8 ∨ c = 127 then
    if ed.committed < ed.text.length then { ed with text := ed.text.dropLast } else ed
  else if c ∈ dropped ∨ inputBuf ≤ ed.pending then ed
  else ed.type (if c = 13 then 10 else c)

/-- A byte is read. -/
def take (ed : Editor) : Editor := { ed with taken := ed.taken + 1 }

/-- What happens at a console. -/
inductive Event where
  | input (c : UInt8)
  | taken

/-- The editor after some events. -/
def run (dropped : List UInt8) (es : List Event) : Editor :=
  es.foldl (fun ed e => match e with
    | .input c => ed.input dropped c
    | .taken => ed.take) empty

end Editor

/-! ## The code -/

namespace Cons

/-- `cons.r++` -/
def advance (s : Cons) : Cons := { s with r := (s.r + 1) % uintSize }

/-- `cons.r--` -/
def pushBack (s : Cons) : Cons := { s with r := (s.r + (uintSize - 1)) % uintSize }

end Cons

namespace Console

/-- The console with its history. -/
structure Tty where
  cons : Cons
  /-- The bytes that readers have consumed, in order. -/
  consumed : List UInt8
  /-- What has happened so far. -/
  events : List Editor.Event

namespace Tty

/-- `consoleintr(c)` -/
def intr (t : Tty) (c : UInt8) : Tty :=
  { t with cons := (t.cons.intr c.toNat).1, events := t.events ++ [.input c] }

/-- A reader keeps the byte `c` for which it has moved `cons.r`. -/
def consume (t : Tty) (c : UInt8) : Tty :=
  { cons := t.cons.advance, consumed := t.consumed ++ [c], events := t.events ++ [.taken] }

end Tty

/-- How a stretch ends. -/
inductive Outcome where
  /-- The call returns; `none` is -1. -/
  | returns (r : Option Nat)
  /-- `sleep(&cons.r, &cons.lock)`, with `n` bytes to go. -/
  | sleeps (n : Nat)

/-- `consoleread` from the head of its outer loop on, with `n` of `target` bytes to go.  `m` is the
user memory of the process and `killed` its `p->killed`. -/
def consolereadFrom (m : UserMem) (killed : Bool) (dst target : Nat) :
    (n : Nat) → Tty → Tty × Outcome
  | 0, t => (t, .returns (some target))
  | n + 1, t =>
    if t.cons.r = t.cons.w then
      if killed then (t, .returns none) else (t, .sleeps (n + 1))
    else
      let c := t.cons.buf (t.cons.r % inputBuf)
      if c.toNat = ctrl 'D' then
        if n + 1 < target then
          ({ t with cons := t.cons.advance.pushBack }, .returns (some (target - (n + 1))))
        else (t.consume c, .returns (some (target - (n + 1))))
      else if (copyin m ((dst + (target - (n + 1))) % 2 ^ 64) 1).2 then
        if c.toNat = '\n'.toNat then (t.consume c, .returns (some (target - n)))
        else consolereadFrom m killed dst target n (t.consume c)
      else (t.consume c, .returns (some (target - (n + 1))))

/-- The console and the processes that read from it, each with its buffer, and what it has asked for
and what is to go if it is asleep. -/
structure State (P : Type) where
  tty : Tty
  reader : P → Option (Nat × Nat × Nat)

/-- The actions. -/
inductive Act (P : Type) where
  /-- A byte arrives. -/
  | input (c : UInt8)
  /-- A process calls `consoleread(1, dst, n)`. -/
  | read (p : P) (m : UserMem) (killed : Bool) (dst n : Nat)
  /-- `sleep` returns. -/
  | resume (p : P) (m : UserMem) (killed : Bool)

variable {P : Type} [DecidableEq P]

/-- A stretch of `p` has ended. -/
def State.after (s : State P) (p : P) (dst target : Nat) (r : Tty × Outcome) : State P where
  tty := r.1
  reader := update s.reader p
    (match r.2 with
    | .returns _ => none
    | .sleeps n => some (dst, target, n))

/-- One step. -/
def step (s : State P) : Act P → Option (State P)
  | .input c => some { s with tty := s.tty.intr c }
  | .read p m killed dst n =>
    match s.reader p with
    | none => some (s.after p dst n (consolereadFrom m killed dst n n s.tty))
    | some _ => none
  | .resume p m killed =>
    match s.reader p with
    | none => none
    | some (dst, target, n) =>
      some (s.after p dst target (consolereadFrom m killed dst target n s.tty))

/-- The machine, from when the console has been set up. -/
def machine (P : Type) [DecidableEq P] : System (State P) (Act P) where
  init s := s.tty.cons.r = 0 ∧ s.tty.cons.w = 0 ∧ s.tty.cons.e = 0 ∧ s.tty.consumed = [] ∧
    s.tty.events = [] ∧ ∀ p, s.reader p = none
  step := step

end Console

/-! ## The ring shows the text -/

theorem inputBuf_dvd : inputBuf ∣ uintSize := by decide

theorem inputBuf_lt : inputBuf < uintSize := by decide

namespace Cons

/-- `e - r` -/
def pending (s : Cons) : Nat := (s.e + (uintSize - s.r)) % uintSize

/-- `w - r` -/
def complete (s : Cons) : Nat := (s.w + (uintSize - s.r)) % uintSize

/-- The bytes from `r` to `w`, which can be read. -/
def lines (s : Cons) : List UInt8 := (⟨s.buf, s.r, s.w⟩ : Fifo UInt8).contents inputBuf uintSize

/-- The bytes from `w` to `e`, which can be erased. -/
def edit (s : Cons) : List UInt8 := (⟨s.buf, s.w, s.e⟩ : Fifo UInt8).contents inputBuf uintSize

/-- All of these bytes. -/
abbrev whole (s : Cons) : Fifo UInt8 := ⟨s.buf, s.r, s.e⟩

/-- Those that can be read. -/
abbrev ready (s : Cons) : Fifo UInt8 := ⟨s.buf, s.r, s.w⟩

/-- Those that can be erased. -/
abbrev line (s : Cons) : Fifo UInt8 := ⟨s.buf, s.w, s.e⟩

/-- The indices are in order. -/
structure Ok (s : Cons) : Prop where
  r : s.r < uintSize
  w : s.w < uintSize
  e : s.e < uintSize
  le : s.complete ≤ s.pending
  pending : s.pending ≤ inputBuf

/-- Editing does not concern the bytes that can be read. -/
theorem lines_of_edit (s : Cons) (e : Nat) : { s with e := e }.lines = s.lines := rfl

variable {s : Cons} (h : s.Ok)

include h

theorem Ok.ok_whole : s.whole.Ok inputBuf uintSize := ⟨h.r, h.e, h.pending⟩

theorem Ok.len_le : s.ready.len uintSize ≤ s.whole.len uintSize := h.le

theorem Ok.len_split : s.whole.len uintSize = s.ready.len uintSize + s.line.len uintSize :=
  Fifo.len_split h.r h.w h.e h.le

theorem Ok.line_ne (hne : s.e ≠ s.w) : s.line.len uintSize ≠ 0 := fun h0 =>
  hne ((Fifo.len_eq_zero_iff h.w h.e).mp h0).symm

theorem pending_eq : s.pending = s.lines.length + s.edit.length := by
  rw [lines, edit, Fifo.length_contents, Fifo.length_contents]
  exact h.len_split

theorem edit_eq_nil : s.edit = [] ↔ s.e = s.w := by
  rw [← length_eq_zero_iff, edit, Fifo.length_contents, Fifo.len_eq_zero_iff h.w h.e]
  exact eq_comm

/-- `cons.e--` -/
theorem Ok.erase (hne : s.e ≠ s.w) : Ok { s with e := (s.e + (uintSize - 1)) % uintSize } ∧
      { s with e := (s.e + (uintSize - 1)) % uintSize }.edit = s.edit.dropLast := by
  have hedit := h.line_ne hne
  have hsplit := h.len_split
  have hall : s.whole.len uintSize ≠ 0 := by omega
  have hlen := Fifo.unpush_len (r := s.whole) h.r h.e hall
  refine ⟨⟨h.r, h.w, mod_lt _ (by decide), ?_, ?_⟩, Fifo.unpush_contents h.w h.e hedit⟩
  · change s.ready.len uintSize ≤ (s.whole.unpush uintSize).len uintSize
    omega
  · refine le_trans ?_ h.pending
    change (s.whole.unpush uintSize).len uintSize ≤ s.whole.len uintSize
    omega

/-- `cons.buf[cons.e++ % INPUT_BUF] = c` -/
theorem Ok.store (hlt : s.pending < inputBuf) (c : UInt8) : let s' : Cons :=
      { s with buf := update s.buf (s.e % inputBuf) c, e := (s.e + 1) % uintSize }
    s'.Ok ∧ s'.pending = s.pending + 1 ∧ s'.lines = s.lines ∧ s'.edit = s.edit ++ [c] := by
  have hsplit := h.len_split
  have hall := h.ok_whole
  have hlt' : s.whole.len uintSize < inputBuf := hlt
  have hedit : s.line.Ok inputBuf uintSize := ⟨h.w, h.e, by omega⟩
  have hfull : s.whole.isFull inputBuf uintSize = false :=
    Bool.eq_false_iff.mpr fun hf => hlt'.ne ((hall.isFull_iff inputBuf_lt).mp hf)
  have hfull' : s.line.isFull inputBuf uintSize = false :=
    Bool.eq_false_iff.mpr fun hf => by
      have := (hedit.isFull_iff inputBuf_lt).mp hf
      omega
  have hlen := (hall.push_len inputBuf_lt hfull c).1
  have hpush : s.whole.len uintSize + 1 ≤ inputBuf := hlt'
  refine ⟨⟨h.r, h.w, mod_lt _ (by decide), ?_, ?_⟩, hlen, ?_,
    Fifo.push_contents hedit inputBuf_dvd inputBuf_lt hfull' c⟩
  · refine le_trans h.le (le_trans (le_succ _) hlen.ge)
  · exact hlen.trans_le hpush
  · -- the bytes that can be read are in other cells
    refine map_congr_left fun k hk => ?_
    refine update_of_ne (hall.cell_ne inputBuf_dvd hlt' ?_) ..
    exact lt_of_lt_of_le (mem_range.mp hk) h.le

/-- `cons.w = cons.e` -/
theorem Ok.commit : Ok { s with w := s.e } ∧ { s with w := s.e }.lines = s.lines ++ s.edit ∧
    { s with w := s.e }.edit = [] := by
  refine ⟨⟨h.r, h.e, h.e, le_refl _, h.pending⟩, Fifo.contents_split h.r h.w h.e h.le, ?_⟩
  rw [← length_eq_zero_iff, edit, Fifo.length_contents, Fifo.len_eq_zero_iff h.e h.e]

/-- `cons.r++` -/
theorem Ok.advance (hne : s.r ≠ s.w) : s.advance.Ok ∧
    s.lines = s.buf (s.r % inputBuf) :: s.advance.lines := by
  have hall := h.ok_whole
  have hready : s.ready.Ok inputBuf uintSize := ⟨h.r, h.w, le_trans h.le h.pending⟩
  have he : s.ready.isEmpty = false := decide_eq_false hne
  have hready' := hready.pop_len he
  have hle := h.len_le
  have hne' : s.r ≠ s.e := fun hre => by
    have hzero := (Fifo.len_eq_zero_iff (r := s.whole) h.r h.e).mpr hre
    omega
  have hall' := hall.pop_len (decide_eq_false hne')
  refine ⟨⟨(hall.pop (decide_eq_false hne')).nread, h.w, h.e, ?_, ?_⟩,
    Fifo.pop_contents hready inputBuf_dvd he⟩
  · change (s.ready.pop inputBuf uintSize).2.len uintSize ≤
      (s.whole.pop inputBuf uintSize).2.len uintSize
    omega
  · exact (hall.pop (decide_eq_false hne')).len

/-- `cons.r++; cons.r--` -/
theorem advance_pushBack : s.advance.pushBack = s := by
  have hr := h.r
  have hback : ((s.r + 1) % uintSize + (uintSize - 1)) % uintSize = s.r := by
    rw [uintSize] at hr ⊢
    omega
  rw [pushBack, Cons.advance, hback]

omit h in
theorem eq_of_edited (he : s.e = s.w) : s = { s with e := s.w } := by
  cases s
  dsimp only at he
  rw [he]

/-- Control-U erases everything up to the last complete line. -/
theorem killLine_eq (hplain : ∀ c ∈ s.edit, c ≠ 10) {fuel : Nat} (hf : s.edit.length ≤ fuel) :
    s.killLine fuel = { s with e := s.w } := by
  induction fuel generalizing s with
  | zero =>
    have he := (edit_eq_nil h).mp (length_eq_zero_iff.mp (le_zero.mp hf))
    exact eq_of_edited he
  | succ fuel ih =>
    rw [killLine]
    by_cases hne : s.e = s.w
    · rw [if_neg fun hc => hc.1 hne]
      exact eq_of_edited hne
    · have hle := pending_eq h
      have hlast := hplain _ (Fifo.Ok.last_mem (r := s.line) ⟨h.w, h.e, by
        rw [← Fifo.length_contents (N := inputBuf)]
        change s.edit.length ≤ _
        have := h.pending
        omega⟩ (h.line_ne hne))
      rw [if_pos ⟨hne, fun h10 => hlast (UInt8.toNat_inj.mp h10)⟩]
      obtain ⟨hok, herase⟩ := h.erase hne
      refine ih hok (fun c hc => hplain c ?_) ?_
      · rw [herase] at hc
        exact mem_of_mem_dropLast hc
      · rw [herase, length_dropLast]
        omega

end Cons

namespace Console

/-- The console shows what the editor has. -/
structure Shows (t : Tty) (ed : Editor) : Prop where
  ok : t.cons.Ok
  text : t.consumed ++ t.cons.lines ++ t.cons.edit = ed.text
  taken : t.consumed.length = ed.taken
  committed : (t.consumed ++ t.cons.lines).length = ed.committed
  /-- A newline is never in the line that is being edited. -/
  plain : ∀ c ∈ t.cons.edit, c ≠ 10

namespace Shows

variable {t : Tty} {ed : Editor} (h : Shows t ed)

include h

theorem pending : ed.pending = t.cons.pending := by
  rw [Editor.pending, ← h.text, ← h.taken, Cons.pending_eq h.ok, append_assoc,
    length_append, length_append]
  omega

theorem type (hlt : t.cons.pending < inputBuf) (c : UInt8) {s' : Cons} (hs : s' = { t.cons with
      buf := update t.cons.buf (t.cons.e % inputBuf) c, e := (t.cons.e + 1) % uintSize })
    (es : List Editor.Event) :
    Shows { t with
      cons := if c = 10 ∨ c = 4 ∨ s'.e = (s'.r + inputBuf) % uintSize then
        { s' with w := s'.e } else s'
      events := es } (ed.type c) := by
  obtain ⟨hok, hpend, hlines, hedit⟩ := h.ok.store hlt c
  rw [← hs] at hok hpend hlines hedit
  have htext : t.consumed ++ s'.lines ++ s'.edit = ed.text ++ [c] := by
    rw [hlines, hedit, ← append_assoc, h.text]
  have hfull : s'.e = (s'.r + inputBuf) % uintSize ↔
      (ed.text ++ [c]).length - ed.taken = inputBuf := by
    have hlen : (ed.text ++ [c]).length - ed.taken = s'.pending := by
      have := h.pending
      rw [Editor.pending] at this
      rw [hpend, ← this, length_append, length_singleton, ← h.text, ← h.taken,
        append_assoc, length_append]
      omega
    rw [hlen]
    refine Iff.trans ?_ (hok.ok_whole.isFull_iff inputBuf_lt)
    exact decide_eq_true_iff.symm
  rw [Editor.type]
  by_cases hc : c = 10 ∨ c = 4 ∨ s'.e = (s'.r + inputBuf) % uintSize
  · obtain ⟨hok', hlines', hedit'⟩ := hok.commit
    rw [if_pos hc, if_pos (by rwa [hfull] at hc)]
    refine ⟨hok', ?_, h.taken, ?_, fun b hb => ?_⟩
    · rw [hlines', hedit', append_nil, ← append_assoc]
      exact htext
    · rw [hlines', ← append_assoc]
      exact congrArg List.length htext
    · simp [hedit'] at hb
  · rw [if_neg hc, if_neg (by rwa [hfull] at hc)]
    refine ⟨hok, htext, h.taken, ?_, fun b hb => ?_⟩
    · rw [hlines]
      exact h.committed
    · rw [hedit] at hb
      obtain hb | hb := mem_append.mp hb
      · exact h.plain b hb
      · rw [mem_singleton.mp hb]
        exact fun h10 => hc (.inl h10)

theorem log (es : List Editor.Event) : Shows { t with events := es } ed :=
  ⟨h.ok, h.text, h.taken, h.committed, h.plain⟩

/-- Control-U -/
theorem kill (es : List Editor.Event) :
    Shows
      { t with
        cons := t.cons.killLine ((t.cons.e + (uintSize - t.cons.w)) % uintSize)
        events := es }
      { ed with text := ed.text.take ed.committed } := by
  have hfuel : t.cons.edit.length ≤ (t.cons.e + (uintSize - t.cons.w)) % uintSize :=
    Fifo.length_contents.le
  rw [Cons.killLine_eq h.ok h.plain hfuel]
  have hok : Cons.Ok { t.cons with e := t.cons.w } :=
    ⟨h.ok.r, h.ok.w, h.ok.w, le_refl _, le_trans h.ok.le h.ok.pending⟩
  have hedit := (Cons.edit_eq_nil hok).mpr rfl
  refine ⟨hok, ?_, h.taken, h.committed, fun b hb => ?_⟩
  · rw [hedit, append_nil, ← h.text, ← h.committed, take_left]
    rfl
  · simp [hedit] at hb

/-- Control-H and DEL -/
theorem erase (hne : t.cons.e ≠ t.cons.w) (es : List Editor.Event) : Shows { t with
      cons := { t.cons with e := (t.cons.e + (uintSize - 1)) % uintSize }
      events := es } { ed with text := ed.text.dropLast } := by
  obtain ⟨hok, hedit⟩ := h.ok.erase hne
  have hne' : t.cons.edit ≠ [] := fun hnil => hne ((Cons.edit_eq_nil h.ok).mp hnil)
  refine ⟨hok, ?_, h.taken, ?_, fun b hb => h.plain b ?_⟩
  · rw [hedit, ← h.text, dropLast_append_of_ne_nil hne', Cons.lines_of_edit]
  · rw [Cons.lines_of_edit]
    exact h.committed
  · rw [hedit] at hb
    exact mem_of_mem_dropLast hb

theorem committed_lt : ed.committed < ed.text.length ↔ t.cons.e ≠ t.cons.w := by
  rw [← h.text, ← h.committed, @length_append _ _ t.cons.edit, ne_eq, ← Cons.edit_eq_nil h.ok,
    ← length_eq_zero_iff]
  omega

/-- **Every input byte** has the same effect on the console and on the editor. -/
theorem intr (c : UInt8) : Shows (t.intr c) (ed.input [0, 16] c) := by
  have htoNat : ∀ b : UInt8, c.toNat = b.toNat ↔ c = b := fun _ => UInt8.toNat_inj
  have hP : c.toNat = ctrl 'P' ↔ c = 16 := htoNat 16
  have hU : c.toNat = ctrl 'U' ↔ c = 21 := htoNat 21
  have hH : c.toNat = ctrl 'H' ∨ c.toNat = 127 ↔ c = 8 ∨ c = 127 := or_congr (htoNat 8) (htoNat 127)
  have h0 : c.toNat ≠ 0 ↔ c ≠ 0 := not_congr (htoNat 0)
  rw [Tty.intr, Cons.intr, Editor.input]
  by_cases h16 : c = 16
  · rw [if_pos (hP.mpr h16), h16]
    exact h.log _
  rw [if_neg (mt hP.mp h16)]
  by_cases h21 : c = 21
  · rw [if_pos (hU.mpr h21), if_pos h21]
    exact h.kill _
  rw [if_neg (mt hU.mp h21), if_neg h21]
  by_cases h8 : c = 8 ∨ c = 127
  · rw [if_pos (hH.mpr h8), if_pos h8]
    by_cases he : t.cons.e ≠ t.cons.w
    · rw [if_pos he, if_pos (h.committed_lt.mpr he)]
      exact h.erase he _
    · rw [if_neg he, if_neg (mt h.committed_lt.mp he)]
      exact h.log _
  rw [if_neg (mt hH.mp h8), if_neg h8]
  by_cases hdrop : c ∈ [0, 16] ∨ inputBuf ≤ ed.pending
  · rw [if_neg ?_, if_pos hdrop]
    · exact h.log _
    · rw [h.pending] at hdrop
      rintro ⟨hc0, hlt⟩
      obtain hmem | hle := hdrop
      · simp only [mem_cons, not_mem_nil, or_false] at hmem
        exact hmem.elim (h0.mp hc0) h16
      · exact absurd hlt (not_lt.mpr hle)
  · rw [if_neg hdrop]
    rw [h.pending, not_or, not_le] at hdrop
    have hc0 : c ≠ 0 := fun he => hdrop.1 (by simp [he])
    rw [if_pos ⟨h0.mpr hc0, hdrop.2⟩]
    -- the byte that is stored
    generalize hd : (if c = 13 then 10 else c) = d
    have hd' : (if c.toNat = '\r'.toNat then '\n'.toNat else c.toNat) = d.toNat := by
      rw [← hd]
      have hcr : c.toNat = '\r'.toNat ↔ c = 13 := htoNat 13
      by_cases h13 : c = 13
      · rw [if_pos h13, if_pos (hcr.mpr h13)]
        rfl
      · rw [if_neg h13, if_neg (mt hcr.mp h13)]
    have h10 : d.toNat = '\n'.toNat ↔ d = 10 := UInt8.toNat_inj (b := 10)
    have h4 : d.toNat = ctrl 'D' ↔ d = 4 := UInt8.toNat_inj (b := 4)
    have htype := h.type hdrop.2 d rfl (t.events ++ [.input c])
    simp only [hd', h10, h4, toUInt8_eq, UInt8.ofNat_toNat] at htype ⊢
    rw [apply_ite Prod.fst]
    exact htype

theorem consume (hne : t.cons.r ≠ t.cons.w) :
    Shows (t.consume (t.cons.buf (t.cons.r % inputBuf))) ed.take := by
  obtain ⟨hok, hlines⟩ := h.ok.advance hne
  have htext := h.text
  have hcomm := h.committed
  rw [hlines] at htext hcomm
  refine ⟨hok, ?_, ?_, ?_, h.plain⟩
  · change t.consumed ++ [_] ++ t.cons.advance.lines ++ t.cons.edit = ed.text
    rw [append_assoc t.consumed]
    exact htext
  · rw [Tty.consume, length_append, h.taken]
    rfl
  · change (t.consumed ++ [_] ++ t.cons.advance.lines).length = ed.committed
    rw [append_assoc t.consumed]
    exact hcomm

end Shows

end Console

/-! ## All runs -/

theorem Editor.run_concat (dropped : List UInt8) (es : List Editor.Event) (e : Editor.Event) :
    Editor.run dropped (es ++ [e]) =
      match e with
      | .input c => (Editor.run dropped es).input dropped c
      | .taken => (Editor.run dropped es).take := by
  rw [Editor.run, foldl_append]
  rfl

/-- Nothing that is typed changes what has been committed. -/
theorem Editor.take_input (dropped : List UInt8) (ed : Editor) (c : UInt8)
    (h : ed.committed ≤ ed.text.length) : ed.committed ≤ (ed.input dropped c).committed ∧
      (ed.input dropped c).text.take ed.committed = ed.text.take ed.committed := by
  rw [Editor.input]
  split
  · exact ⟨le_refl _, by rw [take_take, min_self]⟩
  · split
    · split
      · rename_i hlt
        refine ⟨le_refl _, ?_⟩
        rw [dropLast_eq_take, take_take, min_eq_left (by omega)]
      · exact ⟨le_refl _, rfl⟩
    · split
      · exact ⟨le_refl _, rfl⟩
      · generalize (if c = 13 then 10 else c) = d
        rw [Editor.type]
        split
        · refine ⟨?_, take_append_of_le_length h⟩
          rw [length_append]
          exact le_trans h (le_add_right _ _)
        · exact ⟨le_refl _, take_append_of_le_length h⟩

namespace Console

/-- The console shows what a reference editor has after the same events.  It drops NUL and
control-P. -/
def Edits (t : Tty) : Prop := Shows t (Editor.run [0, 16] t.events)

namespace Edits

variable {t : Tty} (h : Edits t)

include h

theorem intr (c : UInt8) : Edits (t.intr c) := by
  have hs := Shows.intr h c
  rw [Edits, Tty.intr, Editor.run_concat]
  exact hs

theorem consume (hne : t.cons.r ≠ t.cons.w) :
    Edits (t.consume (t.cons.buf (t.cons.r % inputBuf))) := by
  have hs := Shows.consume h hne
  rw [Edits, Tty.consume, Editor.run_concat]
  exact hs

theorem consolereadFrom (m : UserMem) (killed : Bool) (dst target n : Nat) :
    Edits (consolereadFrom m killed dst target n t).1 := by
  induction n generalizing t with
  | zero => exact h
  | succ n ih =>
    rw [Console.consolereadFrom]
    split
    · split <;> exact h
    · rename_i hne
      have hc := h.consume hne
      dsimp only
      split
      · split
        · rw [Cons.advance_pushBack (Shows.ok h)]
          exact h
        · exact hc
      · split
        · split
          · exact hc
          · exact ih hc
        · exact hc

end Edits

variable {P : Type} [DecidableEq P] {s s' : State P}

theorem edits_of_init (h : (machine P).init s) : Edits s.tty := by
  obtain ⟨hr, hw, he, hc, hev, -⟩ := h
  have hpos : 0 < uintSize := by decide
  have hlen : (⟨s.tty.cons.buf, 0, 0⟩ : Fifo UInt8).len uintSize = 0 :=
    (Fifo.len_eq_zero_iff hpos hpos).mpr rfl
  have hempty : (⟨s.tty.cons.buf, 0, 0⟩ : Fifo UInt8).contents inputBuf uintSize = [] :=
    length_eq_zero_iff.mp (Fifo.length_contents.trans hlen)
  have hlines : s.tty.cons.lines = [] := by rw [Cons.lines, hr, hw, hempty]
  have hedit : s.tty.cons.edit = [] := by rw [Cons.edit, hw, he, hempty]
  refine ⟨⟨hr ▸ hpos, hw ▸ hpos, he ▸ hpos, ?_, ?_⟩, ?_, ?_, ?_, ?_⟩
  · rw [Cons.complete, Cons.pending, hw, he]
  · rw [Cons.pending, he, hr]
    exact hlen.trans_le (zero_le _)
  · rw [hc, hlines, hedit, hev]
    rfl
  · rw [hc, hev]
    rfl
  · rw [hc, hlines, hev]
    rfl
  · rw [hedit]
    exact nofun

theorem edits_step {a : Act P} (h : Edits s.tty) (hs : step s a = some s') : Edits s'.tty := by
  cases a with
  | input c =>
    cases hs
    exact h.intr c
  | read p m killed dst n =>
    rw [step] at hs
    split at hs
    · cases hs
      exact h.consolereadFrom m killed dst n n
    · nomatch hs
  | resume p m killed =>
    rw [step] at hs
    split at hs
    · nomatch hs
    · cases hs
      exact h.consolereadFrom m killed _ _ _

/-- **The line discipline.**  In every state of every run the indices are in order; no byte that can
be read is erased or overwritten by the next input; and the bytes that have been consumed, followed
by those that can be read and those that can be erased, are the text of the reference editor, which
agrees about how much has been committed and how much has been read. -/
theorem console_edits (h : System.Reach (machine P) System.Any s) :
    s.tty.cons.complete ≤ s.tty.cons.pending ∧ s.tty.cons.pending ≤ inputBuf ∧
    (∀ c, s.tty.cons.lines <+: (s.tty.intr c).cons.lines) ∧
    s.tty.consumed ++ s.tty.cons.lines ++ s.tty.cons.edit = (Editor.run [0, 16] s.tty.events).text ∧
    (s.tty.consumed ++ s.tty.cons.lines).length = (Editor.run [0, 16] s.tty.events).committed ∧
    s.tty.consumed.length = (Editor.run [0, 16] s.tty.events).taken := by
  have he : Edits s.tty := h.inv (I := fun s => Edits s.tty) (fun _ hs => edits_of_init hs)
    fun _ _ _ he _ hs => edits_step he hs
  refine ⟨he.ok.le, he.ok.pending, fun c => ?_, he.text, he.committed, he.taken⟩
  have hc : Shows (s.tty.intr c) _ := Shows.intr he c
  have hle : (Editor.run [0, 16] s.tty.events).committed ≤
      (Editor.run [0, 16] s.tty.events).text.length := by
    rw [← he.text, ← he.committed, @length_append _ _ s.tty.cons.edit]
    exact le_add_right _ _
  obtain ⟨hle', htake⟩ := Editor.take_input [0, 16] _ c hle
  rw [← hc.committed, ← he.committed] at hle'
  rw [← hc.text, ← he.text, ← he.committed, take_left, take_append_of_le_length hle'] at htake
  exact (prefix_append_right_inj s.tty.consumed).mp (prefix_iff_eq_take.mpr htake.symm)

/-- A process reads four bytes while somebody types `b`, control-H, `a`, return; a control-P before
that is ignored. -/
def typeLine : List (Act Unit) :=
  [.read () (fun _ => some fun _ => 0) false 0 4, .input 16, .input 98, .input 8, .input 97,
    .input 13,
    .resume () (fun _ => some fun _ => 0) false]

/-- A console at which nothing has happened. -/
def quiet : State Unit where
  tty := { cons := { buf := fun _ => 0, r := 0, w := 0, e := 0 }, consumed := [], events := [] }
  reader _ := none

theorem quiet_init : (machine Unit).init quiet := ⟨rfl, rfl, rfl, rfl, rfl, fun _ => rfl⟩

theorem console_edits_line : ∃ s, (machine Unit).exec quiet typeLine = some s ∧
    s.tty.consumed = [97, 10] ∧
    s.tty.consumed ++ s.tty.cons.lines ++ s.tty.cons.edit =
      (Editor.run [0, 16] s.tty.events).text := by
  have hrun : ((machine Unit).exec quiet typeLine).map (·.tty.consumed) = some [97, 10] := by
    decide +kernel
  obtain ⟨s, hs, ht⟩ := Option.map_eq_some_iff.mp hrun
  exact ⟨s, hs, ht, (console_edits (System.reach_of_exec (.init quiet_init) hs)).2.2.2.1⟩

/-- Control-P is not part of the text, unlike any other byte without a meaning of its own. -/
theorem console_ignores_ctrlP : ∃ s : State Unit, System.Reach (machine Unit) System.Any s ∧
    s.tty.events = [.input 16] ∧
    s.tty.consumed ++ s.tty.cons.lines ++ s.tty.cons.edit ≠ (Editor.run [0] s.tty.events).text := by
  have hs : (machine Unit).exec quiet [.input 16] =
    some { quiet with tty := quiet.tty.intr 16 } := rfl
  refine ⟨_, System.reach_of_exec (.init quiet_init) hs, rfl, ?_⟩
  decide +kernel

end Console

end Xv6.Kernel
