import Xv6.Vm.Table

/-!
# Copies between the kernel and a user: `copyout`, `copyin`, `copyinstr`

`addr r pt va` is where user code finds the byte at a virtual address.  The three loops go page by
page; seen byte by byte, `copyin` reads the bytes of the range up to the first that the user has no
access to, and `copyout` writes them.
-/

namespace Xv6.Vm

open List Nat

variable {r r' r1 : Ram} {pt va n p i len max next : Nat} {bs cs : List UInt8} {x : Int}

/-! ## Addresses of the user -/

/-- The physical page of an address, as `walkaddr` gives it: it is not page 0. -/
def frame (r : Ram) (pt va : Nat) : Option Nat :=
  if va < maxva then (userPage r pt va).filter (· ≠ 0) else none

/-- The physical address of a byte that the user has access to. -/
def addr (r : Ram) (pt va : Nat) : Option Nat := (frame r pt va).map (· + va % pgsize)

theorem walkaddr_frame (va : Nat) : walkaddr pt va r = .ok ((frame r pt va).getD 0, r) := by
  rw [walkaddr_eq, frame]
  split
  · cases userPage r pt va with
    | none => rfl
    | some p => by_cases hp : p = 0 <;> simp [Option.filter, hp]
  · rfl

theorem frame_ne_zero (h : frame r pt va = some p) : va < maxva ∧ p ≠ 0 := by
  rw [frame] at h
  split at h
  · exact ⟨‹_›, by simpa using (Option.filter_eq_some_iff.mp h).2⟩
  · cases h

theorem frame_congr {va' : Nat} (h : va / pgsize = va' / pgsize) :
    frame r pt va = frame r pt va' := by
  have hm : va < maxva ↔ va' < maxva := by simp only [pgsize, maxva] at *; omega
  rw [frame, frame, userPage, userPage, lookup_congr h, if_congr hm rfl rfl]

/-- The bytes of a page are one after the other. -/
theorem addr_add (h : frame r pt (pgrounddown va) = some p) (hi : va % pgsize + i < pgsize) :
    addr r pt (va + i) = some (p + (va - pgrounddown va) + i) := by
  have hd : (va + i) / pgsize = pgrounddown va / pgsize := by
    simp only [pgrounddown, pgsize] at *; omega
  have ho : p + (va + i) % pgsize = p + (va - pgrounddown va) + i := by
    simp only [pgrounddown, pgsize] at *; omega
  rw [addr, frame_congr hd, h, Option.map_some, ho]

theorem addr_eq_none (h : frame r pt (pgrounddown va) = none) : addr r pt va = none := by
  have hd : va / pgsize = pgrounddown va / pgsize := by simp only [pgrounddown, pgsize]; omega
  rw [addr, frame_congr hd, h]
  rfl

/-- The user's bytes in a range. -/
def userBytes (r : Ram) (pt va n : Nat) : List (Option UInt8) :=
  (List.range n).map fun i => (addr r pt (va + i)).map r.byte

theorem userBytes_add (m n : Nat) :
    userBytes r pt va (m + n) = userBytes r pt va m ++ userBytes r pt (va + m) n := by
  simp [userBytes, range_add, add_assoc, Function.comp_def]

theorem length_userBytes (n : Nat) : (userBytes r pt va n).length = n := by simp [userBytes]

theorem map_load (h : frame r pt (pgrounddown va) = some p) (hn : va % pgsize + n ≤ pgsize) :
    (r.load (p + (va - pgrounddown va)) n).map some = userBytes r pt va n := by
  rw [Ram.load, userBytes, map_map]
  refine map_congr_left fun i hi => ?_
  rw [addr_add h (by have := mem_range.mp hi; omega)]
  rfl

theorem first_page (va : Nat) (h : len ≠ 0) : let n := min (pgsize - (va - pgrounddown va)) len
    va % pgsize + n ≤ pgsize ∧ 0 < n ∧ n ≤ len ∧ (n < len → va + n = pgrounddown va + pgsize) := by
  simp only [pgrounddown, pgsize]
  omega

theorem next_page (h : frame r pt (pgrounddown va) = some p) :
    (pgrounddown va + pgsize) % 2 ^ 64 = pgrounddown va + pgsize := by
  have := (frame_ne_zero h).1
  simp only [pgsize, maxva] at *
  omega

/-! ## Copying in -/

/-- The bytes read are those of a first part of the range, which ends where the user has no access,
at the latest at its end. -/
structure Read (r : Ram) (pt va len : Nat) (x : Int) (bs : List UInt8) : Prop where
  bytes : bs.map some = userBytes r pt va bs.length
  outcome : x = 0 ∧ bs.length = len ∨ x = -1 ∧ bs.length < len ∧ addr r pt (va + bs.length) = none ∧
    (bs = [] ∨ (va + bs.length) % pgsize = 0)

/-- A page is read, and then the rest of the range. -/
theorem Read.append (h : Read r pt next (len - cs.length) x bs)
    (hcs : cs.map some = userBytes r pt va cs.length) (hle : cs.length ≤ len)
    (hnext : cs.length < len → va + cs.length = next) (ha : next % pgsize = 0) :
    Read r pt va len x (cs ++ bs) := by
  obtain ⟨hb, ho⟩ := h
  obtain hlt | heq := lt_or_eq_of_le hle
  · obtain rfl := hnext hlt
    refine ⟨by rw [map_append, hcs, hb, length_append, userBytes_add], ?_⟩
    rw [length_append, ← add_assoc]
    refine ho.imp (fun h => ⟨h.1, by omega⟩) fun ⟨h1, h2, h3, h4⟩ => ⟨h1, by omega, h3, .inr ?_⟩
    obtain rfl | h4 := h4
    · exact ha
    · exact h4
  · obtain rfl : bs = [] := length_eq_zero_iff.mp (by omega)
    rw [append_nil]
    exact ⟨hcs, .inl ⟨ho.elim (·.1) fun h => absurd h.2.1 (by simp; omega), heq⟩⟩

theorem copyinLoop_spec (rounds : Nat) (h : len ≤ rounds) :
    Ensures (copyinLoop pt rounds va len) r fun y r' => r' = r ∧ Read r pt va len y.1 y.2 := by
  induction rounds generalizing va len with
  | zero => exact .pure ⟨rfl, rfl, .inl ⟨rfl, by simp; omega⟩⟩
  | succ rounds ih =>
    rw [copyinLoop]
    split
    next h0 => exact .pure ⟨rfl, rfl, .inl ⟨rfl, h0.symm⟩⟩
    next h0 =>
      refine .step (walkaddr_frame _) ?_
      cases hf : frame r pt (pgrounddown va) with
      | none =>
        exact .pure ⟨rfl, rfl, .inr ⟨rfl, Nat.pos_of_ne_zero h0, addr_eq_none hf, .inl rfl⟩⟩
      | some p =>
        dsimp only [Option.getD_some]
        rw [if_neg (frame_ne_zero hf).2, next_page hf]
        obtain ⟨hn, hpos, hle, hnext⟩ := first_page va h0
        generalize min (pgsize - (va - pgrounddown va)) len = n at hn hpos hle hnext ⊢
        refine .get ?_
        have hl : (r.load (p + (va - pgrounddown va)) n).length = n := by simp [Ram.load]
        have hb := map_load hf hn
        generalize r.load (p + (va - pgrounddown va)) n = cs at hl hb ⊢
        subst hl
        exact (ih (by omega)).bind fun y r' ⟨hr, hy⟩ =>
          .pure ⟨hr, hy.append hb hle hnext (by simp [pgrounddown])⟩

/-! ## Strings -/

/-- The bytes read are those up to the first null byte, or, if there is none in the first `max`
bytes that the user has access to, as far as that is so. -/
structure ReadStr (r : Ram) (pt va max : Nat) (x : Int) (bs : List UInt8) : Prop where
  bytes : bs.map some = userBytes r pt va bs.length
  le : bs.length ≤ max
  outcome : x = 0 ∧ (∃ cs, bs = cs ++ [0] ∧ 0 ∉ cs) ∨
    x = -1 ∧ 0 ∉ bs ∧ (bs.length = max ∨ addr r pt (va + bs.length) = none)

theorem ReadStr.append (h : ReadStr r pt next (max - cs.length) x bs)
    (hcs : cs.map some = userBytes r pt va cs.length) (h0 : 0 ∉ cs) (hle : cs.length ≤ max)
    (hnext : cs.length < max → va + cs.length = next) : ReadStr r pt va max x (cs ++ bs) := by
  obtain ⟨hb, hm, ho⟩ := h
  obtain hlt | heq := lt_or_eq_of_le hle
  · obtain rfl := hnext hlt
    refine ⟨by rw [map_append, hcs, hb, length_append, userBytes_add], by simp; omega, ?_⟩
    rw [length_append, ← add_assoc]
    refine ho.imp (fun ⟨hx, ds, hd, h0'⟩ => ⟨hx, cs ++ ds, by simp [hd], by simp [h0, h0']⟩) ?_
    exact fun ⟨hx, h0', hor⟩ => ⟨hx, by simp [h0, h0'], hor.imp_left (by omega)⟩
  · obtain rfl : bs = [] := length_eq_zero_iff.mp (by omega)
    rw [append_nil]
    refine ⟨hcs, hle, .inr ⟨?_, h0, .inl heq⟩⟩
    exact ho.elim (fun ⟨_, _, hd, _⟩ => by simp at hd) (·.1)

theorem upToNull_spec (cs : List UInt8) : (upToNull cs = (cs, false) ∧ 0 ∉ cs) ∨
      ∃ ds es, upToNull cs = (ds ++ [0], true) ∧ cs = ds ++ 0 :: es ∧ 0 ∉ ds := by
  induction cs with
  | nil => exact .inl ⟨rfl, by simp⟩
  | cons c cs ih =>
    rw [upToNull]
    by_cases hc : c = 0
    · exact .inr ⟨[], cs, by simp [hc], by simp [hc], by simp⟩
    · obtain ⟨he, hcs⟩ | ⟨ds, es, he, rfl, hds⟩ := ih
      · exact .inl ⟨by simp [hc, he], by simp [hcs, Ne.symm hc]⟩
      · exact .inr ⟨c :: ds, es, by simp [hc, he], by simp, by simp [hds, Ne.symm hc]⟩

theorem copyinstrLoop_spec (rounds : Nat) (h : max ≤ rounds) :
    Ensures (copyinstrLoop pt rounds va max) r fun y r' =>
      r' = r ∧ ReadStr r pt va max y.1 y.2 := by
  induction rounds generalizing va max with
  | zero => exact .pure ⟨rfl, rfl, by simp, .inr ⟨rfl, by simp, .inl (by simp; omega)⟩⟩
  | succ rounds ih =>
    rw [copyinstrLoop]
    split
    next h0 => exact .pure ⟨rfl, rfl, by simp, .inr ⟨rfl, by simp, .inl h0.symm⟩⟩
    next h0 =>
      refine .step (walkaddr_frame _) ?_
      cases hf : frame r pt (pgrounddown va) with
      | none =>
        exact .pure ⟨rfl, rfl, by simp, .inr ⟨rfl, by simp, .inr (addr_eq_none hf)⟩⟩
      | some p =>
        dsimp only [Option.getD_some]
        rw [if_neg (frame_ne_zero hf).2, next_page hf]
        obtain ⟨hn, hpos, hle, hnext⟩ := first_page va h0
        generalize min (pgsize - (va - pgrounddown va)) max = n at hn hpos hle hnext ⊢
        refine .get ?_
        have hl : (r.load (p + (va - pgrounddown va)) n).length = n := by simp [Ram.load]
        have hb := map_load hf hn
        generalize r.load (p + (va - pgrounddown va)) n = cs at hl hb ⊢
        subst hl
        obtain ⟨he, h0⟩ | ⟨ds, es, he, rfl, h0⟩ := upToNull_spec cs
        · rw [he]
          exact (ih (by omega)).bind fun y r' ⟨hr, hy⟩ => .pure ⟨hr, hy.append hb h0 hle hnext⟩
        · rw [he]
          have hsplit : ds ++ 0 :: es = (ds ++ [0]) ++ es := by simp
          rw [hsplit, map_append, length_append, userBytes_add] at hb
          refine .pure ⟨rfl, append_inj_left hb (by simp [length_userBytes]), ?_,
            .inl ⟨rfl, ds, rfl, h0⟩⟩
          simp at hle ⊢
          omega

/-- A string of `k` bytes and its null byte are in memory that the user has access to. -/
def StringAt (r : Ram) (pt va k : Nat) : Prop :=
  (∀ i < k, ∃ a, addr r pt (va + i) = some a ∧ r.byte a ≠ 0) ∧
    ∃ a, addr r pt (va + k) = some a ∧ r.byte a = 0

theorem exists_addr (h : bs.map some = userBytes r pt va bs.length) (hi : i < bs.length) :
    ∃ a, addr r pt (va + i) = some a ∧ r.byte a ∈ bs ∧ bs[i]? = some (r.byte a) := by
  have he := congrArg (·[i]?) h
  simp only [userBytes, getElem?_map, getElem?_range hi, Option.map_some,
    getElem?_eq_getElem hi, Option.some.injEq] at he
  obtain ⟨a, ha, hb⟩ := Option.map_eq_some_iff.mp he.symm
  exact ⟨a, ha, hb ▸ getElem_mem hi, by rw [getElem?_eq_getElem hi, hb]⟩

/-- What `copyinstr` stores is the string, if there is one. -/
theorem ReadStr.string (h : ReadStr r pt va max x bs) : bs.length ≤ max ∧
    (x = 0 ∧ (∃ k < max, StringAt r pt va k ∧ strlen bs = k ∧
        bs.map some = userBytes r pt va (k + 1)) ∨
      x = -1 ∧ ¬∃ k < max, StringAt r pt va k) := by
  obtain ⟨hb, hm, ⟨hx, cs, rfl, h0⟩ | ⟨hx, h0, hend⟩⟩ := h
  · have hcs {c : UInt8} (hc : c ∈ cs) : c ≠ 0 := fun e => h0 (e ▸ hc)
    refine ⟨hm, .inl ⟨hx, cs.length, lt_of_lt_of_le (by simp) hm,
      ⟨fun i hi => ?_, ?_⟩, ?_, by simpa using hb⟩⟩
    · obtain ⟨a, ha, -, he⟩ := exists_addr hb (show i < (cs ++ [0]).length by simp; omega)
      rw [getElem?_append_left hi] at he
      exact ⟨a, ha, hcs (mem_of_getElem? he)⟩
    · obtain ⟨a, ha, -, he⟩ := exists_addr hb (show cs.length < (cs ++ [0]).length by simp)
      exact ⟨a, ha, by simpa using he.symm⟩
    · have hall : ∀ c ∈ cs, decide (c ≠ 0) = true := fun c hc => decide_eq_true (hcs hc)
      rw [strlen, takeWhile_append_of_pos hall]
      simp
  · refine ⟨hm, .inr ⟨hx, fun ⟨k, hk, hlt, a, ha, hz⟩ => ?_⟩⟩
    by_cases hkb : k < bs.length
    · obtain ⟨a', ha', hmem, -⟩ := exists_addr hb hkb
      obtain rfl := Option.some.inj (ha.symm.trans ha')
      exact h0 (hz ▸ hmem)
    · obtain hend | hend := hend
      · omega
      · obtain heq | hgt := Nat.eq_or_lt_of_le (Nat.le_of_not_lt hkb)
        · rw [heq, ha] at hend
          cases hend
        · obtain ⟨a', ha', -⟩ := hlt _ hgt
          rw [ha'] at hend
          cases hend

/-- **String arguments**: `copyinstr` returns 0 exactly when a string of less than `max` bytes is in
memory that the user has access to, and has copied it then; it never stores more than `max` bytes.
`argstr` returns the length of the string, and the string with its null byte is in the buffer. -/
theorem string_arguments (r : Ram) (pt va max : Nat) (trapframe : Fin 6 → Nat) (n : Fin 6) :
    Ensures (copyinstr pt va max) r (fun y r' => r' = r ∧ y.2.length ≤ max ∧
      (y.1 = 0 ∧ (∃ k < max, StringAt r pt va k ∧ y.2.map some = userBytes r pt va (k + 1)) ∨
        y.1 = -1 ∧ ¬∃ k < max, StringAt r pt va k)) ∧
    Ensures (argstr pt trapframe n max) r (fun y r' => r' = r ∧ y.2.length ≤ max ∧
      ((∃ k < max, StringAt r pt (trapframe n) k ∧ y.1 = k ∧
          y.2.map some = userBytes r pt (trapframe n) (k + 1)) ∨
        y.1 = -1 ∧ ¬∃ k < max, StringAt r pt (trapframe n) k)) := by
  refine ⟨(copyinstrLoop_spec _ le_rfl).mono fun y r' ⟨hr, hy⟩ => ?_,
    (copyinstrLoop_spec _ le_rfl).bind fun y r' ⟨hr, hy⟩ => .pure ?_⟩
  · obtain ⟨hm, ⟨hx, k, hk, hs, -, hb⟩ | h⟩ := hy.string
    · exact ⟨hr, hm, .inl ⟨hx, k, hk, hs, hb⟩⟩
    · exact ⟨hr, hm, .inr h⟩
  · obtain ⟨hm, ⟨hx, k, hk, hs, hl, hb⟩ | ⟨hx, h⟩⟩ := hy.string
    · exact ⟨hr, hm, .inl ⟨k, hk, hs, by simp [hx, hl], hb⟩⟩
    · exact ⟨hr, hm, .inr ⟨by simp [hx], h⟩⟩

/-- A table with the root at 4096 that has a last-level page at 12288. -/
def tiny (leaf : Nat) : Ram where
  word p i := if p = 12288 then leaf else if i = 0 then pa2pte (p + 4096) ||| 1 else 0
  byte _ := 0
  free := []
  deny := []

/-- An empty string in physical page 0, which is mapped for the user, is not found. -/
theorem string_in_page_zero : userPage (tiny 17) 4096 0 = some 0 ∧ (tiny 17).byte 0 = 0 ∧
    (copyinstr 4096 0 1 (tiny 17)).toOption.map (·.1) = some (-1, []) := by
  decide +kernel

/-! ## Copying out -/

/-- `bs` is now in the memory of the user at `va`, if no two of its bytes are at one place. -/
structure Placed (r : Ram) (pt va : Nat) (bs : List UInt8) (r' : Ram) : Prop where
  frame : r' = { r with byte := r'.byte }
  other : ∀ b, (∀ i < bs.length, addr r pt (va + i) ≠ some b) → r'.byte b = r.byte b
  bytes : (∀ i < bs.length, ∀ j < bs.length, ∀ a, addr r pt (va + i) = some a →
      addr r pt (va + j) = some a → i = j) →
    ∀ i < bs.length, ∀ a, addr r pt (va + i) = some a → bs[i]? = some (r'.byte a)

theorem Placed.addr_eq (h : Placed r pt va bs r') (v : Nat) : addr r' pt v = addr r pt v := by
  rw [h.frame]
  rfl

theorem wrote_store (h : frame r pt (pgrounddown va) = some p)
    (hn : va % pgsize + bs.length ≤ pgsize) :
    Placed r pt va bs (r.store (p + (va - pgrounddown va)) bs) := by
  have hat (i : Nat) (hi : i < bs.length) := addr_add h (show va % pgsize + i < pgsize by omega)
  generalize p + (va - pgrounddown va) = a at hat
  refine ⟨rfl, fun b hb => ?_, fun _ i hi b hb => ?_⟩
  · refine if_neg fun ⟨h1, h2⟩ => hb (b - a) (by omega) ?_
    rw [hat _ (by omega), Nat.add_sub_cancel' h1]
  · obtain rfl := Option.some.inj ((hat i hi).symm.trans hb)
    have : a ≤ a + i ∧ a + i < a + bs.length := by omega
    simp [Ram.store, this, hi]

theorem Placed.append {r2 : Ram} (h : Placed r pt va cs r1)
    (h' : Placed r1 pt (va + cs.length) bs r2) : Placed r pt va (cs ++ bs) r2 := by
  have hadd (i : Nat) : addr r1 pt (va + cs.length + i) = addr r pt (va + (cs.length + i)) := by
    rw [h.addr_eq, add_assoc]
  refine ⟨by rw [h'.frame, h.frame], fun b hb => ?_, fun hinj i hi a ha => ?_⟩
  · rw [length_append] at hb
    rw [h'.other b fun i hi => hadd i ▸ hb _ (by omega), h.other b fun i hi => hb i (by omega)]
  · rw [length_append] at hinj hi
    by_cases hic : i < cs.length
    · -- no byte of the second part is at the same place
      have hne : r2.byte a = r1.byte a := h'.other a fun j hj hja => by
        have := hinj i hi _ (by omega) a ha (hadd j ▸ hja)
        omega
      rw [getElem?_append_left hic, hne]
      exact h.bytes (fun i hi j hj => hinj i (by omega) j (by omega)) i hic a ha
    · obtain ⟨j, rfl⟩ := Nat.exists_eq_add_of_le (Nat.le_of_not_lt hic)
      rw [getElem?_append_right (by omega), Nat.add_sub_cancel_left]
      refine h'.bytes (fun i hi j hj b hb hb' => ?_) j (by omega) a ((hadd j).trans ha)
      have := hinj _ (by omega) _ (by omega) b ((hadd i).symm.trans hb) ((hadd j).symm.trans hb')
      omega

/-- A first part of the range is written, which ends where the user has no access, at the latest at
its end. -/
def Written (r : Ram) (pt va : Nat) (src : List UInt8) (x : Int) (r' : Ram) : Prop :=
  ∃ k, Placed r pt va (src.take k) r' ∧ (∀ i < k, addr r pt (va + i) ≠ none) ∧
    (x = 0 ∧ k = src.length ∨ x = -1 ∧ k < src.length ∧ addr r pt (va + k) = none ∧
      (k = 0 ∨ (va + k) % pgsize = 0))

theorem written_nil : Written r pt va [] 0 r :=
  ⟨0, ⟨rfl, fun _ _ => rfl, fun _ i hi => absurd hi (by simp)⟩, by simp, .inl ⟨rfl, rfl⟩⟩

/-- A page is written, and then the rest of the range. -/
theorem Written.append (h : Written r1 pt next bs x r') (hw : Placed r pt va cs r1)
    (hcs : ∀ i < cs.length, addr r pt (va + i) ≠ none) (hnext : bs ≠ [] → va + cs.length = next)
    (ha : next % pgsize = 0) : Written r pt va (cs ++ bs) x r' := by
  obtain ⟨k, hk, hacc, ho⟩ := h
  by_cases hbs : bs = []
  · subst hbs
    obtain ⟨rfl, rfl⟩ : x = 0 ∧ k = 0 := by simpa using ho
    have hk' : Placed r1 pt (va + cs.length) [] r' :=
      ⟨hk.frame, fun b _ => hk.other b (by simp), fun _ i hi => absurd hi (by simp)⟩
    exact ⟨cs.length, by simpa using hw.append hk', hcs, .inl ⟨rfl, by simp⟩⟩
  · obtain rfl := hnext hbs
    have hadd (i : Nat) : addr r1 pt (va + cs.length + i) = addr r pt (va + (cs.length + i)) := by
      rw [hw.addr_eq, add_assoc]
    refine ⟨cs.length + k, by simpa [take_length_add_append] using hw.append hk,
      fun i hi => ?_, ?_⟩
    · by_cases hic : i < cs.length
      · exact hcs i hic
      · obtain ⟨j, rfl⟩ := Nat.exists_eq_add_of_le (Nat.le_of_not_lt hic)
        exact hadd j ▸ hacc j (by omega)
    · rw [length_append]
      refine ho.imp (fun h => ⟨h.1, by omega⟩) fun ⟨h1, h2, h3, h4⟩ =>
        ⟨h1, by omega, hadd k ▸ h3, .inr ?_⟩
      rw [← add_assoc]
      obtain rfl | h4 := h4
      · exact ha
      · exact h4

theorem copyoutLoop_spec (rounds : Nat) {src : List UInt8} (h : src.length ≤ rounds) :
    Ensures (copyoutLoop pt rounds va src) r (Written r pt va src) := by
  induction rounds generalizing va src r with
  | zero =>
    obtain rfl := length_eq_zero_iff.mp (le_zero.mp h)
    exact .pure written_nil
  | succ rounds ih =>
    rw [copyoutLoop]
    split
    next h0 =>
      obtain rfl := length_eq_zero_iff.mp h0
      exact .pure written_nil
    next h0 =>
      refine .step (walkaddr_frame _) ?_
      cases hf : frame r pt (pgrounddown va) with
      | none =>
        exact .pure ⟨0, ⟨rfl, fun _ _ => rfl, fun _ i hi => absurd hi (by simp)⟩, by simp,
          .inr ⟨rfl, Nat.pos_of_ne_zero h0, addr_eq_none hf, .inl rfl⟩⟩
      | some p =>
        dsimp only [Option.getD_some]
        rw [if_neg (frame_ne_zero hf).2, next_page hf]
        obtain ⟨hn, hpos, hle, hnext⟩ := first_page va h0
        generalize min (pgsize - (va - pgrounddown va)) src.length = n at hn hpos hle hnext ⊢
        have hl : (src.take n).length = n := by simp [hle]
        refine .modify ((ih (by simp; omega)).mono fun x r' hx => ?_)
        rw [← take_append_drop n src]
        refine hx.append (wrote_store hf (by rwa [hl])) (fun i hi => ?_) (fun hne => ?_)
          (by simp [pgrounddown])
        · rw [addr_add hf (by omega)]
          simp
        · rw [hl, hnext (by simpa using hne)]

/-- The pages of a range are mapped to different physical pages. -/
def Separate (r : Ram) (pt va n : Nat) : Prop :=
  ∀ i < n, ∀ j < n, ∀ p, frame r pt (va + i) = some p → frame r pt (va + j) = some p →
    (va + i) / pgsize = (va + j) / pgsize

theorem frame_aligned (h : frame r pt va = some p) : p % pgsize = 0 := by
  rw [frame] at h
  split at h
  · obtain ⟨h, -⟩ := Option.filter_eq_some_iff.mp h
    obtain ⟨⟨m, f⟩, hm, h⟩ := Option.bind_eq_some_iff.mp h
    split at h
    · obtain rfl := Option.some.inj h
      obtain ⟨q, -, -, rfl, -⟩ := lookup_eq_some.mp hm
      simp only [pte2pa, pgsize]
      omega
    · cases h
  · cases h

theorem Separate.inj (h : Separate r pt va n) {j a : Nat} (hi : i < n) (hj : j < n)
    (hia : addr r pt (va + i) = some a) (hja : addr r pt (va + j) = some a) : i = j := by
  obtain ⟨p, hp, rfl⟩ := Option.map_eq_some_iff.mp hia
  obtain ⟨q, hq, he⟩ := Option.map_eq_some_iff.mp hja
  have h1 := frame_aligned hp
  have h2 := frame_aligned hq
  obtain rfl : q = p := by simp only [pgsize] at *; omega
  have := h i hi j hj q hp hq
  simp only [pgsize] at *
  omega

theorem Read.access (h : Read r pt va len x bs) :
    x = 0 ∧ (∀ i < len, addr r pt (va + i) ≠ none) ∨
      x = -1 ∧ ∃ i < len, addr r pt (va + i) = none := by
  obtain ⟨hb, ⟨hx, rfl⟩ | ⟨hx, hlt, hnone, -⟩⟩ := h
  · refine .inl ⟨hx, fun i hi hnone => ?_⟩
    have := congrArg (·[i]?) hb
    simp [userBytes, hi, hnone] at this
  · exact .inr ⟨hx, _, hlt, hnone⟩

theorem copyin_of_access (h : ∀ i < len, addr r pt (va + i) ≠ none) :
    ∃ bs, copyin pt va len r = .ok ((0, bs), r) ∧ bs.map some = userBytes r pt va len := by
  obtain ⟨⟨x, bs⟩, r', he, rfl, hr⟩ :
      Ensures (copyin pt va len) r fun y r' => r' = r ∧ Read r pt va len y.1 y.2 :=
    copyinLoop_spec len le_rfl
  obtain ⟨hb, ⟨rfl, rfl⟩ | ⟨-, hlt, hnone, -⟩⟩ := hr
  · exact ⟨bs, he, hb⟩
  · exact absurd hnone (h _ hlt)

/-- **The user copies**: `copyout` and `copyin` return 0 exactly when the user has access to every
byte of the range, whose end may lie anywhere.  They copy the range then, and a first part of it
that ends with a page otherwise; and what one has written to different physical pages the other
reads. -/
theorem copies_exact (r : Ram) (pt va : Nat) (src : List UInt8) (len : Nat) :
    Ensures (copyout pt va src) r (fun x r' =>
      (x = 0 ∧ (∀ i < src.length, addr r pt (va + i) ≠ none) ∨
        x = -1 ∧ ∃ i < src.length, addr r pt (va + i) = none) ∧ Written r pt va src x r' ∧
      (x = 0 → Separate r pt va src.length → userBytes r' pt va src.length = src.map some ∧
        copyin pt va src.length r' = .ok ((0, src), r'))) ∧
    Ensures (copyin pt va len) r (fun y r' => r' = r ∧
      (y.1 = 0 ∧ (∀ i < len, addr r pt (va + i) ≠ none) ∨
        y.1 = -1 ∧ ∃ i < len, addr r pt (va + i) = none) ∧ Read r pt va len y.1 y.2) := by
  refine ⟨(copyoutLoop_spec _ le_rfl).mono fun x r' hx => ⟨?_, hx, fun h0 hsep => ?_⟩,
    (copyinLoop_spec _ le_rfl).mono fun y r' ⟨hr, hy⟩ => ⟨hr, hy.access, hy⟩⟩
  · obtain ⟨k, -, hacc, ⟨hx, rfl⟩ | ⟨hx, hlt, hnone, -⟩⟩ := hx
    · exact .inl ⟨hx, hacc⟩
    · exact .inr ⟨hx, k, hlt, hnone⟩
  · obtain ⟨k, hw, hacc, ⟨-, rfl⟩ | ⟨hx, -⟩⟩ := hx
    · rw [take_length] at hw
      have hbytes : userBytes r' pt va src.length = src.map some := by
        refine ext_getElem? fun i => ?_
        by_cases hi : i < src.length
        · obtain ⟨a, ha⟩ := Option.ne_none_iff_exists'.mp (hacc i hi)
          have := hw.bytes (fun i hi j hj a => hsep.inj hi hj) i hi a ha
          simp [userBytes, hi, hw.addr_eq, ha, ← this]
        · simp [userBytes, Nat.le_of_not_lt hi]
      obtain ⟨bs, he, hbs⟩ := copyin_of_access fun i hi => hw.addr_eq (va + i) ▸ hacc i hi
      obtain rfl : bs = src :=
        map_injective_iff.mpr (Option.some_injective _) (hbs.trans hbytes)
      exact ⟨hbytes, he⟩
    · exact absurd (h0.symm.trans hx) (by decide)

/-- Where all pages are one, the last byte of a longer range overwrites the first. -/
theorem copyout_aliased : (copyout 4096 0 (List.replicate 4096 1 ++ [2])
    (tiny (pa2pte 16384 ||| 23))).toOption.map (fun y => (y.1, userBytes y.2 4096 0 1)) =
      some (0, [some 2]) := by
  decide +kernel

end Xv6.Vm
