import Xv6.Fs.Code
import Xv6.Lib.Slots

/-!
# The code of `fs.c`, run alone

With nobody else around a system call sees the contents of the blocks change one store at a time.
`answer` is what the commands do then: `bread` shows the block, a store changes it, `log_write` and
`brelse` do nothing that the caller could see, and a panic ends the run.  A `struct buf *` is the
number of its block.

The second half is about the free map.  `allocated` and `freed` are what `balloc` and `bfree` do to
the blocks, and `Own` says that the free map agrees with a given set of references; the references
are those of the inodes, which follow in the next module.
-/

namespace Xv6.Fs

open Bio Code
open Function (update update_self update_of_ne)

/-! ## Running code -/

/-- The contents of the blocks, as the buffer cache shows them. -/
abbrev Disk := Nat → Block

/-- What the commands do; `m` is the memory of the process. -/
def answer (m : UserMem) : (c : Cmd Nat) → Disk → Except Panic (Ans c × Disk)
  | .bread b, s => .ok ((b, s b), s)
  | .store b v, s => .ok ((), update s b v)
  | .copyin b off va n, s =>
    let r := copyin m va n
    .ok (r.2, update s b ((s b).splice off r.1))
  | .copyout va bytes, s => .ok ((copyin m va bytes.length).2, s)
  | .bwrite _, s => .ok ((), s)
  | .bunpin _, s => .ok ((), s)
  | .brelse _, s => .ok ((), s)
  | .logWrite _, s => .ok ((), s)
  | .beginOp, s => .ok ((), s)
  | .endOp, s => .ok (false, s)
  | .endCommit, s => .ok ((), s)
  | .readLh, s => .ok ([], s)
  | .setLh _, s => .ok ((), s)
  | .panic e, _ => .error e

/-- The panics that say that something has run out, or that an inode is not there: all that code
started in a sound file system may end in. -/
def Tolerated (e : Panic) : Prop :=
  e = .ballocOutOfBlocks ∨ e = .iallocNoInodes ∨ e = .ilockNoType

section Rules

/-- The code `c`, run from `s`, returns with `Q` or ends in a panic that `E` allows. -/
abbrev Ends {α : Type} (m : UserMem) (E : Panic → Prop) (c : K Nat α) (s : Disk)
    (Q : α → Disk → Prop) : Prop :=
  wp (specOf (answer m) E) c s Q

/-- The code `c`, run from `s`, returns with `Q` or ends in a tolerated panic. -/
abbrev Runs {α : Type} (m : UserMem) (c : K Nat α) (s : Disk) (Q : α → Disk → Prop) : Prop :=
  Ends m Tolerated c s Q

variable {α β : Type} {m : UserMem} {E E' : Panic → Prop} {s : Disk} {Q R : α → Disk → Prop}
  {c : K Nat α} {b : Nat}

theorem Ends.mono (hc : Ends m E c s R) (h : ∀ a s', R a s' → Q a s') : Ends m E c s Q :=
  wp_mono (monotone_specOf _ _) h hc

theorem Ends.imp (hc : Ends m E c s R) (hE : ∀ e, E e → E' e) (h : ∀ a s', R a s' → Q a s') :
    Ends m E' c s Q := wp_specOf_mono hE (hc.mono h)

theorem Ends.bind {c : K Nat β} {f : β → K Nat α} {R : β → Disk → Prop} (hc : Ends m E c s R)
    (hf : ∀ a s', R a s' → Ends m E (f a) s' Q) : Ends m E (c >>= f) s Q :=
  wp_bind (monotone_specOf _ _) (hc.mono hf)

theorem Ends.and (hc : Ends m E c s Q) (hc' : Ends m E' c s R) :
    Ends m E c s fun a s' => Q a s' ∧ R a s' := wp_specOf_and hc hc'

theorem Ends.of_ok {a : α} {s' : Disk} (hc : Ends m E c s Q)
    (hx : c.exec (answer m) s = .ok (a, s')) : Q a s' := by
  rwa [Ends, wp_specOf_iff, hx] at hc

theorem ends_pure {a : α} (h : Q a s) : Ends m E (pure a) s Q := h

theorem ends_panic {e : Panic} (h : E e) : Ends m E (panic e) s Q := h

theorem ends_trivial (c : K Nat α) (s : Disk) : Ends m (fun _ => True) c s fun _ _ => True := by
  rw [Ends, wp_specOf_iff]
  split <;> trivial

theorem Runs.ends (hE : ∀ e, Tolerated e → E e) (hc : Runs m c s Q) : Ends m E c s Q :=
  wp_specOf_mono hE hc

theorem ends_bread {k : Nat × Block → K Nat α} :
    Ends m E (bread b >>= k) s Q ↔ Ends m E (k (b, s b)) s Q := Iff.rfl

section

variable {k : Unit → K Nat α}

theorem ends_store {v : Block} :
    Ends m E (store b v >>= k) s Q ↔ Ends m E (k ()) (update s b v) Q := Iff.rfl

theorem ends_logWrite : Ends m E (logWrite b >>= k) s Q ↔ Ends m E (k ()) s Q := Iff.rfl

theorem ends_brelse : Ends m E (brelse b >>= k) s Q ↔ Ends m E (k ()) s Q := Iff.rfl

end

theorem ends_eitherCopyin {off tot n : Nat} {d : Block} {src : Src} {k : Bool → K Nat α}
    (hk : ∀ v ok, Ends m E (k ok) (update s b v) Q) :
    Ends m E (eitherCopyin b d off src tot n >>= k) s Q := by
  cases src with
  | user va | kernel bytes => exact hk _ _

end Rules

/-! ## The regions of the disk -/

/-- The boot block, the super block and the blocks of the log, of the inodes and of the free map,
as `mkfs` lays them out. -/
def IsMeta (sb : Superblock) (b : Nat) : Prop :=
  b = 0 ∨ b = 1 ∨ (sb.logstart ≤ b ∧ b < sb.logstart + sb.nlog) ∨
    (sb.inodestart ≤ b ∧ b < sb.inodestart + (sb.ninodes / ipb + 1)) ∨
    (sb.bmapstart ≤ b ∧ b < sb.bmapstart + (sb.size / bpb + 1))

instance (sb : Superblock) (b : Nat) : Decidable (IsMeta sb b) :=
  inferInstanceAs (Decidable (_ ∨ _))

/-- A block that may belong to a file. -/
def IsData (sb : Superblock) (b : Nat) : Prop := b < sb.size ∧ ¬ IsMeta sb b

/-- What the code relies on: block numbers are `uint`s, and the inodes and the free map are kept
in different blocks. -/
structure Layout (sb : Superblock) : Prop where
  size : sb.size < 2 ^ 32
  apart : sb.inodestart + sb.ninodes / ipb < sb.bmapstart ∨
    sb.bmapstart + sb.size / bpb < sb.inodestart

section Regions

variable {sb : Superblock} {b c i : Nat}

theorem IsData.ne_zero (h : IsData sb b) : b ≠ 0 := fun h0 => h.2 (.inl h0)

theorem not_isData_zero : ¬ IsData sb 0 := fun h => h.ne_zero rfl

theorem bblock_isMeta (hb : b < sb.size) : IsMeta sb (bblock sb b) := by
  have : b / bpb ≤ sb.size / bpb := Nat.div_le_div_right (Nat.le_of_lt hb)
  rw [IsMeta, bblock]
  generalize b / bpb = q, sb.size / bpb = n at *
  omega

theorem iblock_isMeta (hi : i < sb.ninodes) : IsMeta sb (iblock sb i) := by
  have : i / ipb ≤ sb.ninodes / ipb := Nat.div_le_div_right (Nat.le_of_lt hi)
  rw [IsMeta, iblock]
  generalize i / ipb = q, sb.ninodes / ipb = n at *
  omega

theorem Layout.iblock_ne_bblock (hl : Layout sb) (hi : i < sb.ninodes) (hb : b < sb.size) :
    iblock sb i ≠ bblock sb b := by
  have h1 : i / ipb ≤ sb.ninodes / ipb := Nat.div_le_div_right (Nat.le_of_lt hi)
  have h2 : b / bpb ≤ sb.size / bpb := Nat.div_le_div_right (Nat.le_of_lt hb)
  have h3 := hl.apart
  rw [iblock, bblock]
  generalize i / ipb = q, sb.ninodes / ipb = n, b / bpb = r, sb.size / bpb = k at *
  omega

theorem IsData.ne_bblock (h : IsData sb c) (hb : b < sb.size) : bblock sb b ≠ c :=
  fun he => h.2 (he ▸ bblock_isMeta hb)

theorem IsData.ne_iblock (h : IsData sb c) (hi : i < sb.ninodes) : iblock sb i ≠ c :=
  fun he => h.2 (he ▸ iblock_isMeta hi)

end Regions

/-! ## The free map -/

/-- The bit of block `b` in the free map. -/
def used (sb : Superblock) (s : Disk) (b : Nat) : Bool := bit (s (bblock sb b)) (b % bpb)

/-- What `balloc` does to the blocks when it returns `b`. -/
def allocated (sb : Superblock) (s : Disk) (b : Nat) : Disk :=
  update (update s (bblock sb b) (setBit (s (bblock sb b)) (b % bpb))) b Block.zero

/-- What `bfree` does to the blocks. -/
def freed (sb : Superblock) (s : Disk) (b : Nat) : Disk :=
  update s (bblock sb b) (clearBit (s (bblock sb b)) (b % bpb))

section FreeMap

variable {sb : Superblock} {s : Disk} {b c : Nat} {v : Block}

theorem mod_bpb_lt (b : Nat) : b % bpb < bpb := Nat.mod_lt _ (by decide)

/-- Two blocks with their bits at the same place are the same. -/
theorem eq_of_bblock_eq (h1 : bblock sb c = bblock sb b) (h2 : c % bpb = b % bpb) : c = b := by
  have h : c / bpb = b / bpb := Nat.add_right_cancel h1
  rw [← Nat.div_add_mod c bpb, ← Nat.div_add_mod b bpb, h, h2]

theorem used_store {x : Bool}
    (hv : ∀ k, k < bpb → bit v k = if k = b % bpb then x else bit (s (bblock sb b)) k) :
    used sb (update s (bblock sb b) v) c = update (used sb s) b x c := by
  rw [used]
  by_cases hcb : c = b
  · subst hcb
    rw [update_self, update_self, hv _ (mod_bpb_lt c), if_pos rfl]
  · rw [update_of_ne hcb, used]
    by_cases hbl : bblock sb c = bblock sb b
    · have hne : c % bpb ≠ b % bpb := fun h => hcb (eq_of_bblock_eq hbl h)
      rw [hbl, update_self, hv _ (mod_bpb_lt c), if_neg hne]
    · rw [update_of_ne hbl]

theorem used_setBit : used sb (update s (bblock sb b) (setBit (s (bblock sb b)) (b % bpb))) c
    = update (used sb s) b true c := by
  refine used_store fun k _ => ?_
  rw [bit_setBit (mod_bpb_lt b)]
  split <;> simp [*]

theorem used_freed : used sb (freed sb s b) c = update (used sb s) b false c := by
  refine used_store fun k _ => ?_
  rw [bit_clearBit (mod_bpb_lt b)]
  split <;> simp [*]

/-- A store to a block outside of the free map is not seen in it. -/
theorem used_update (h : bblock sb c ≠ b) : used sb (update s b v) c = used sb s c := by
  rw [used, update_of_ne h, used]

theorem used_allocated (hb : IsData sb b) (hc : c < sb.size) :
    used sb (allocated sb s b) c = update (used sb s) b true c := by
  rw [allocated, used_update (hb.ne_bblock hc), used_setBit]

/-- Blocks outside of the free map, but for the one that is allocated, keep their contents. -/
theorem allocated_of_ne (hcb : c ≠ b) (hcm : c ≠ bblock sb b) : allocated sb s b c = s c := by
  rw [allocated, update_of_ne hcb, update_of_ne hcm]

theorem allocated_self : allocated sb s b b = Block.zero := update_self ..

theorem freed_of_ne (hcm : c ≠ bblock sb b) : freed sb s b c = s c := update_of_ne hcm ..

end FreeMap

/-! ## The free map agrees with the references -/

/-- Of the blocks of the image those of the metadata are marked in the free map, and of the others
exactly those that some `x : ι` refers to, each of them once. -/
structure Own {ι : Type} (sb : Superblock) (s : Disk) (ref : ι → Nat) : Prop where
  owned : Slots.Owned 0 (IsData sb) (used sb s) ref
  kept : ∀ b, b < sb.size → IsMeta sb b → used sb s b = true

section Own

variable {ι : Type} {sb : Superblock} {s : Disk} {ref : ι → Nat} {b c : Nat}

/-- A block that is not marked may be given to a file. -/
theorem Own.data_of_free (h : Own sb s ref) (hb : b < sb.size) (hf : used sb s b = false) :
    IsData sb b := by
  refine ⟨hb, fun hm => ?_⟩
  have := h.kept b hb hm
  simp [hf] at this

theorem Own.congr {s' : Disk} (h : Own sb s ref)
    (hu : ∀ c, c < sb.size → used sb s' c = used sb s c) : Own sb s' ref :=
  ⟨h.owned.congr_used fun c hc => hu c hc.1, fun c hc hm => (hu c hc).trans (h.kept c hc hm)⟩

variable [DecidableEq ι] {x : ι}

theorem Own.allocated (h : Own sb s ref) (hb : b < sb.size) (hf : used sb s b = false)
    (hx : ref x = 0) : Own sb (allocated sb s b) (update ref x b) := by
  have hd := h.data_of_free hb hf
  refine ⟨(h.owned.fill hd hf hx not_isData_zero).congr_used fun c hc => used_allocated hd hc.1,
    fun c hc hm => ?_⟩
  rw [used_allocated hd hc, update_of_ne fun (h : c = b) => hd.2 (h ▸ hm)]
  exact h.kept c hc hm

theorem Own.freed (h : Own sb s ref) (hx : ref x ≠ 0) :
    Own sb (freed sb s (ref x)) (update ref x 0) := by
  have hd := h.owned.managed x hx
  refine ⟨(h.owned.clear hx not_isData_zero).congr_used fun c _ => used_freed, fun c hc hm => ?_⟩
  rw [used_freed, update_of_ne fun (h : c = ref x) => hd.2 (h ▸ hm)]
  exact h.kept c hc hm

end Own

/-! ## `balloc` and `bfree` -/

section Code

variable {sb : Superblock} {m : UserMem} {s : Disk} {d : Block}

theorem freeBit_spec {b bi : Nat} (h : freeBit sb d b = some bi) :
    bi < bpb ∧ b + bi < sb.size ∧ bit d bi = false := by
  unfold freeBit at h
  have h1 := List.mem_range.mp (List.mem_of_find?_eq_some h)
  have h2 := List.find?_some h
  simp only [Bool.and_eq_true, decide_eq_true_eq, Bool.not_eq_true'] at h2
  exact ⟨h1, h2⟩

/-- The blocks of one round of `balloc` have their bits in the same block. -/
theorem bblock_add {k bi : Nat} (h : bi < bpb) :
    bblock sb (k * bpb + bi) = bblock sb (k * bpb) := by
  have hpos : 0 < bpb := by decide
  rw [bblock, bblock, Nat.mul_comm, Nat.mul_add_div hpos, Nat.mul_div_cancel_left _ hpos,
    Nat.div_eq_of_lt h, Nat.add_zero]

/-- The inner loop of `balloc` misses no free bit. -/
theorem used_of_freeBit_none {b : Nat}
    (h : freeBit sb (s (bblock sb (b / bpb * bpb))) (b / bpb * bpb) = none) (hb : b < sb.size) :
    used sb s b = true := by
  unfold freeBit at h
  have hbit := List.find?_eq_none.mp h (b % bpb) (List.mem_range.mpr (mod_bpb_lt b))
  have hdiv : b / bpb * bpb + b % bpb = b := Nat.div_add_mod' b bpb
  rw [hdiv] at hbit
  rw [used, ← hdiv, bblock_add (mod_bpb_lt b), Nat.mul_add_mod_self_right, Nat.mod_mod]
  simpa [hb] using hbit

/-- The rounds of `balloc` for some parts of the free map, which panic if nothing is free there. -/
theorem ends_ballocFrom (ks : List Nat) :
    Ends m (fun e => Tolerated e ∧ ∀ b < sb.size, b / bpb ∈ ks → used sb s b = true)
      (ballocFrom sb (ks.map (· * bpb))) s fun b s' =>
        b < sb.size ∧ used sb s b = false ∧ s' = allocated sb s b := by
  induction ks with
  | nil => exact ⟨.inl rfl, nofun⟩
  | cons k ks ih =>
    rw [List.map_cons, ballocFrom, ends_bread]
    dsimp only
    rw [ballocRound]
    cases hf : freeBit sb (s (bblock sb (k * bpb))) (k * bpb) with
    | none =>
      refine wp_specOf_mono (fun e he => ⟨he.1, fun b hb hk => ?_⟩) ih
      obtain rfl | hk := List.mem_cons.mp hk
      · exact used_of_freeBit_none hf hb
      · exact he.2 b hb hk
    | some bi =>
      obtain ⟨hbi, hlt, hbit⟩ := freeBit_spec hf
      have hmod : (k * bpb + bi) % bpb = bi := by
        rw [Nat.mul_add_mod_self_right, Nat.mod_eq_of_lt hbi]
      have hbl : bblock sb (k * bpb + bi) = bblock sb (k * bpb) := bblock_add hbi
      refine ⟨hlt, ?_, ?_⟩
      · rw [used, hbl, hmod, hbit]
      · rw [allocated, hbl, hmod]

/-- **What `balloc` does**: it returns a block that was free, marked and zeroed, and panics if there
is none. -/
theorem ends_balloc : Ends m (fun e => Tolerated e ∧ ∀ b < sb.size, used sb s b = true)
    (balloc sb) s
    fun b s' => b < sb.size ∧ used sb s b = false ∧ s' = allocated sb s b := by
  refine wp_specOf_mono (fun e he => ⟨he.1, fun b hb => he.2 b hb ?_⟩) (ends_ballocFrom _)
  rw [List.mem_range, Nat.div_lt_iff_lt_mul (by decide)]
  have h1 := Nat.div_add_mod' (sb.size + bpb - 1) bpb
  have h2 := mod_bpb_lt (sb.size + bpb - 1)
  omega

theorem runs_balloc : Runs m (balloc sb) s fun b s' =>
    b < sb.size ∧ used sb s b = false ∧ s' = allocated sb s b :=
  wp_specOf_mono (fun _ he => he.1) ends_balloc

/-- **What `bfree` does** to a block that is marked. -/
theorem runs_bfree {α : Type} {b : Nat} (hb : used sb s b = true) {k : Unit → K Nat α}
    {Q : α → Disk → Prop} (hk : Runs m (k ()) (freed sb s b) Q) :
    Runs m (bfree sb b >>= k) s Q := by
  refine Ends.bind (R := fun _ s' => s' = freed sb s b) ?_ (by rintro _ _ rfl; exact hk)
  rw [bfree, ends_bread]
  have hbit : ¬ bit (s (bblock sb b)) (b % bpb) = false := by
    rw [used] at hb
    simp [hb]
  dsimp only
  rw [if_neg hbit]
  rfl

end Code

end Xv6.Fs
