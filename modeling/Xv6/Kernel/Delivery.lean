import Xv6.Kernel.Console

/-!
# What a read removes and what it delivers: `piperead` and `consoleread`

Both functions move their read index before they call `copyout` for the byte, and leave their loop
when that fails.  `stores` collects the calls of `copyout` that succeed, so it is what the process
finds in its memory; what the read removes is what the buffer had before and has no longer.

`reads_lose_nothing_iff` says for which destinations the two agree.
-/

namespace Xv6

open List Nat

/-- `copyout` of one byte to `va` succeeds. -/
def Writable (m : UserMem) (va : Nat) : Prop := (copyin m (va % 2 ^ 64) 1).2 = true

instance (m : UserMem) (va : Nat) : Decidable (Writable m va) :=
  inferInstanceAs (Decidable (_ = true))

namespace PipeBuffer

/-- The addresses and the bytes of the calls of `copyout` in `copyBytes` that succeed. -/
def stores (m : UserMem) (addr : Nat) : (todo i : Nat) → Buffer → List (Nat × UInt8)
  | 0, _, _ => []
  | todo + 1, i, b =>
    if b.pipe.empty then []
    else if Writable m (addr + i) then
      ((addr + i) % 2 ^ 64, b.pipe.get.1) :: stores m addr todo (i + 1) b.get
    else []

variable (m : UserMem) (addr : Nat) {b : Buffer}

theorem unread_get (h : b.pipe.Ok pipesize uintSize) (he : b.pipe.empty = false) :
    b.pipe.unread = b.pipe.get.1 :: b.get.pipe.unread :=
  Fifo.pop_contents h pipesize_dvd he

theorem length_unread : b.pipe.unread.length = b.pipe.used := Fifo.length_contents

theorem used_get (h : b.pipe.Ok pipesize uintSize) (he : b.pipe.empty = false) :
    b.pipe.used = b.get.pipe.used + 1 := by
  rw [← length_unread, unread_get h he, length_cons, length_unread]

theorem used_empty (h : b.pipe.Ok pipesize uintSize) (he : b.pipe.empty = true) : b.pipe.used = 0 :=
  (Fifo.len_eq_zero_iff h.nread h.nwrite).mpr (of_decide_eq_true he)

/-- The loop stores what it counts, and loses a byte exactly if it comes to an address that it
cannot write. -/
theorem copyBytes_spec (todo i : Nat) (h : b.pipe.Ok pipesize uintSize) :
    (copyBytes m addr todo i b).2 = i + (stores m addr todo i b).length ∧
      (b.pipe.unread =
          (stores m addr todo i b).map Prod.snd ++ (copyBytes m addr todo i b).1.pipe.unread ↔
        ∀ k < min todo b.pipe.used, Writable m (addr + (i + k))) := by
  induction todo generalizing i b with
  | zero => simp [copyBytes, stores]
  | succ todo ih =>
    rw [copyBytes, stores]
    by_cases he : b.pipe.empty = true
    · simp [he, used_empty h he]
    rw [Bool.not_eq_true] at he
    rw [he, if_neg Bool.false_ne_true, if_neg Bool.false_ne_true, unread_get h he, used_get h he,
      succ_min_succ]
    by_cases hw : Writable m (addr + i)
    · have hget : b.get.pipe.Ok pipesize uintSize := h.pop he
      obtain ⟨hcount, hiff⟩ := ih (i + 1) hget
      have hw' : (copyin m ((addr + i) % 2 ^ 64) 1).2 = true := hw
      rw [if_pos hw, if_pos hw']
      refine ⟨by rw [hcount, length_cons]; omega, ?_⟩
      rw [map_cons, cons_append, cons_inj_right, hiff, forall_lt_succ_left]
      simp [hw, add_assoc, add_comm 1]
    · have hw' : ¬(copyin m ((addr + i) % 2 ^ 64) 1).2 = true := hw
      rw [if_neg hw, if_neg hw']
      refine ⟨rfl, iff_of_false (fun hc => ?_) fun hall => hw (hall 0 (succ_pos _))⟩
      exact cons_ne_self _ _ hc

theorem pipereadFrom_spec (killed : Bool) (n : Nat) (h : b.pipe.Ok pipesize uintSize) :
    let r := pipereadFrom m killed addr n b
    let out := stores m addr n 0 b
    (∀ i, r.2 = .returns (some i) → i = out.length) ∧
      (b.pipe.unread = out.map Prod.snd ++ r.1.pipe.unread ↔
        ∀ k < min n b.pipe.used, Writable m (addr + k)) := by
  obtain ⟨hcount, hiff⟩ := copyBytes_spec m addr n 0 h
  simp only [zero_add] at hcount hiff
  rw [pipereadFrom, ← hiff]
  split
  · rename_i he
    -- nothing is taken out of an empty pipe, by the loop neither
    cases n <;> cases killed <;> simp [he, stores, copyBytes]
  · exact ⟨fun i hi => (Option.some.inj (Outcome.returns.inj hi)).symm.trans hcount, Iff.rfl⟩

end PipeBuffer

namespace Kernel.Console

/-- The addresses and the bytes of the calls of `copyout` in `consolereadFrom` that succeed. -/
def stores (m : UserMem) (dst target : Nat) : (n : Nat) → Cons → List (Nat × UInt8)
  | 0, _ => []
  | n + 1, s =>
    let c := s.buf (s.r % inputBuf)
    if s.r = s.w ∨ c.toNat = ctrl 'D' then []
    else if Writable m (dst + (target - (n + 1))) then
      ((dst + (target - (n + 1))) % 2 ^ 64, c) ::
        if c.toNat = '\n'.toNat then [] else stores m dst target n s.advance
    else []

/-- What a reader that asks for `n` bytes is given: at most one line, up to a control-D. -/
def line : Nat → List UInt8 → List UInt8
  | n + 1, c :: cs => if c = 4 then [] else if c = 10 then [c] else c :: line n cs
  | _, _ => []

/-- From `before` to `after`, a reader has taken the ordinary bytes `kept` and no others. -/
def Kept (before after kept : List UInt8) : Prop :=
  ∃ taken, before = taken ++ after ∧ taken.filter (· ≠ 4) = kept

theorem kept_refl (l : List UInt8) : Kept l l [] := ⟨[], rfl, rfl⟩

theorem kept_cons {before after kept : List UInt8} {c : UInt8} (hc : c ≠ 4)
    (hle : after.length ≤ before.length) :
    Kept (c :: before) after (c :: kept) ↔ Kept before after kept := by
  constructor
  · rintro ⟨taken, heq, hk⟩
    cases taken with
    | nil =>
      have hlen := congrArg List.length heq
      simp at hlen
      omega
    | cons d taken =>
      rw [cons_append, cons_eq_cons] at heq
      rw [← heq.1] at hk
      exact ⟨taken, heq.2, by simpa [hc] using hk⟩
  · rintro ⟨taken, rfl, rfl⟩
    exact ⟨c :: taken, rfl, by simp [hc]⟩

theorem not_kept {l : List UInt8} {c : UInt8} (hc : c ≠ 4) : ¬Kept (c :: l) l [] := by
  rintro ⟨taken, heq, hk⟩
  obtain rfl : taken = [c] := append_cancel_right heq.symm
  simp [hc] at hk

variable (m : UserMem) (killed : Bool) (dst : Nat) {target : Nat} {t : Tty}

theorem lines_nil (h : t.cons.Ok) (he : t.cons.r = t.cons.w) : t.cons.lines = [] := by
  rw [← length_eq_zero_iff, Cons.lines, Fifo.length_contents, Fifo.len_eq_zero_iff h.r h.w]
  exact he

/-- A stretch stores what it counts, and loses an ordinary byte exactly if it comes to an address
that it cannot write. -/
theorem consolereadFrom_spec (n : Nat) (hn : n ≤ target) (h : t.cons.Ok) :
    let r := consolereadFrom m killed dst target n t
    let out := stores m dst target n t.cons
    r.1.cons.lines.length ≤ t.cons.lines.length ∧
      (∀ i, r.2 = .returns (some i) → i = target - n + out.length) ∧
      (Kept t.cons.lines r.1.cons.lines (out.map Prod.snd) ↔
        ∀ k < (line n t.cons.lines).length, Writable m (dst + (target - n + k))) := by
  induction n generalizing t with
  | zero => simp [consolereadFrom, stores, line, kept_refl]
  | succ n ih =>
    rw [consolereadFrom, stores]
    by_cases he : t.cons.r = t.cons.w
    · cases killed <;> simp [he, lines_nil h he, line, kept_refl]
    obtain ⟨hok, hlines⟩ := h.advance he
    generalize hc : t.cons.buf (t.cons.r % inputBuf) = c at hlines ⊢
    have h4 : c.toNat = ctrl 'D' ↔ c = 4 := UInt8.toNat_inj (b := 4)
    have h10 : c.toNat = '\n'.toNat ↔ c = 10 := UInt8.toNat_inj (b := 10)
    simp only [he, h4, h10, if_false, false_or]
    by_cases hD : c = 4
    · rw [hlines, hD]
      by_cases hlt : n + 1 < target
      · simp [hlt, line, Cons.advance_pushBack h, hlines, hD, kept_refl]
      · simp [hlt, line, Tty.consume]
        exact ⟨[4], rfl, rfl⟩
    simp only [hD, if_false]
    by_cases hw : Writable m (dst + (target - (n + 1)))
    · have hw' : (copyin m ((dst + (target - (n + 1))) % 2 ^ 64) 1).2 = true := hw
      rw [if_pos hw, if_pos hw', hlines]
      by_cases hnl : c = 10
      · have hlt : target - n = target - (n + 1) + 1 := by omega
        simp [hnl, line, Tty.consume, hw, hlt]
        exact ⟨[10], rfl, rfl⟩
      · obtain ⟨hle, hcount, hiff⟩ := ih (t := t.consume c) (by omega) hok
        rw [if_neg hnl, if_neg hnl]
        refine ⟨le_succ_of_le hle, fun i hi => ?_, ?_⟩
        · rw [hcount i hi, length_cons]
          change _ + (stores m dst target n t.cons.advance).length = _
          omega
        · refine (kept_cons hD hle).trans (hiff.trans ?_)
          have hnext : ∀ k, target - n + k = target - (n + 1) + (k + 1) := fun k => by omega
          simp only [hnext]
          rw [line, if_neg hD, if_neg hnl, length_cons, forall_lt_succ_left]
          exact ⟨fun hall => ⟨hw, hall⟩, And.right⟩
    · have hw' : ¬(copyin m ((dst + (target - (n + 1))) % 2 ^ 64) 1).2 = true := hw
      rw [if_neg hw, if_neg hw', hlines]
      refine ⟨le_succ _, by simp, iff_of_false (not_kept hD) fun hall => hw (hall 0 ?_)⟩
      rw [line, if_neg hD]
      split <;> simp

end Kernel.Console

open PipeBuffer (Buffer countingPage)
open Kernel.Console (Tty Kept line consolereadFrom consolereadFrom_spec)

/-- **A read loses no byte exactly if it can write every address it comes to.**  A pipe read of `n`
bytes comes to as many as there are in the pipe, a console read to the rest of a line.  Otherwise
the first byte that cannot be copied out is gone. -/
theorem reads_lose_nothing_iff (m : UserMem) (killed : Bool) (addr n : Nat) {b : Buffer}
    (hb : b.pipe.Ok pipesize uintSize) {t : Tty} (ht : t.cons.Ok) {target : Nat} (hn : n ≤ target) :
    (let r := PipeBuffer.pipereadFrom m killed addr n b
      let out := PipeBuffer.stores m addr n 0 b
      (b.pipe.unread = out.map Prod.snd ++ r.1.pipe.unread ∧
          ∀ i, r.2 = .returns (some i) → i = out.length) ↔
        ∀ k < min n b.pipe.used, Writable m (addr + k)) ∧
    let r := consolereadFrom m killed addr target n t
    let out := Kernel.Console.stores m addr target n t.cons
    (Kept t.cons.lines r.1.cons.lines (out.map Prod.snd) ∧
        ∀ i, r.2 = .returns (some i) → i = target - n + out.length) ↔
      ∀ k < (line n t.cons.lines).length, Writable m (addr + (target - n + k)) := by
  constructor
  · obtain ⟨hcount, hiff⟩ := PipeBuffer.pipereadFrom_spec m addr killed n hb
    exact ⟨fun h => hiff.mp h.1, fun h => ⟨hiff.mpr h, hcount⟩⟩
  · obtain ⟨-, hcount, hiff⟩ := consolereadFrom_spec m killed addr n hn ht
    exact ⟨fun h => hiff.mp h.1, fun h => ⟨hiff.mpr h, hcount⟩⟩

/-- A pipe with two bytes in it. -/
def twoBytes : Buffer where
  pipe := { Pipe.alloc fun j => j.toUInt8 + 65 with nwrite := 2 }
  written := [65, 66]
  taken := []
  overwritten := false

/-- A console at which two bytes and a newline have been typed. -/
def typedLine : Tty where
  cons := { buf := fun j => if j = 2 then 10 else j.toUInt8 + 65, r := 0, w := 3, e := 3 }
  consumed := []
  events := []

theorem twoBytes_ok : twoBytes.pipe.Ok pipesize uintSize := by constructor <;> decide

theorem typedLine_ok : typedLine.cons.Ok := by constructor <;> decide

theorem reads_lose_nothing_twoBytes :
    let r := PipeBuffer.pipereadFrom countingPage false 0 2 twoBytes
    r.2 = .returns (some 2) ∧ twoBytes.pipe.unread =
      (PipeBuffer.stores countingPage 0 2 0 twoBytes).map Prod.snd ++ r.1.pipe.unread :=
  ⟨by decide, ((reads_lose_nothing_iff countingPage false 0 2 twoBytes_ok typedLine_ok
    (le_refl 2)).1.mpr (by decide)).1⟩

/-- At the last address of a page, with no page after it, a read of two bytes returns 1; the second
byte has been removed, and the next read does not get it. -/
theorem second_byte_lost : let r := PipeBuffer.pipereadFrom countingPage false 4095 2 twoBytes
    let c := consolereadFrom countingPage false 4095 2 2 typedLine
    (twoBytes.pipe.unread = [65, 66] ∧ r.2 = .returns (some 1) ∧ r.1.pipe.unread = [] ∧
      PipeBuffer.stores countingPage 4095 2 0 twoBytes = [(4095, 65)]) ∧
    typedLine.cons.lines = [65, 66, 10] ∧ c.2 = .returns (some 1) ∧ c.1.cons.lines = [10] ∧
      Kernel.Console.stores countingPage 4095 2 2 typedLine.cons = [(4095, 65)] := by
  refine ⟨by decide, by decide, ?_, by decide, by decide⟩
  rfl

end Xv6
