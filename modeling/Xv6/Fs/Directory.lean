import Xv6.Lib.SlotMap
import Xv6.Fs.Nodes

/-!
# Directories

`dirlookup`, `dirlink` and the removal of an entry in `sys_unlink` are three scans over the same
bytes, with `strncmp` in the first, `strncpy` in the second and neither in the third.  What they
agree on is `slots`: the entries of a directory as a list of slots, where an entry with inode number
0 is an empty one.  A key is a `cname`, the first `DIRSIZ` bytes of a name up to a zero byte.

* `yields_dirlookup_slots`: `dirlookup` is `SlotMap.lookup`;
* `Represents.ends_dirlink`: `dirlink` of a name that is not there is `SlotMap.insert`, or it
  panics;
* `Represents.runs_zero`: to write 16 zero bytes to an entry is `SlotMap.erase`.

None of this depends on the names of a directory being different, which is what makes the list of
slots a map; `directory_is_map` puts the two together.
-/

namespace Xv6.Fs

open Bio Code List Option Nat
open Function (update)

variable {k off : Nat}

/-! ## The code -/

/-- `strncpy(s, t, n)`: the `n` bytes at `s` afterwards. -/
def strncpy : (n : Nat) → (t : List UInt8) → List UInt8
  | 0, _ => []
  | n + 1, t => if t.headD 0 = 0 then List.replicate (n + 1) 0 else t.headD 0 :: strncpy n t.tail

/-- The bytes of the `struct dirent` with this inode number, an `ushort`, and this name. -/
def direntBytes (inum : Nat) (name : List UInt8) : List UInt8 :=
  UInt8.ofNat inum :: UInt8.ofNat (inum / 2 ^ 8) :: strncpy dirsiz name

section

variable {H : Type}

/-- The loop of `dirlink`: the offset of the first empty entry, or that of the end. -/
def dirlinkLoop (sb : Superblock) : (rounds : Nat) → Inode → (off : Nat) → K H (Nat × Inode)
  | 0, dp, off => pure (off, dp)
  | rounds + 1, dp, off =>
    if off < dp.size then do
      let (tot, de, dp) ← readi sb dp .kernel off direntSize
      if tot ≠ direntSize then panic .dirlinkRead
      else if direntInum de = 0 then pure (off, dp)
      else dirlinkLoop sb rounds dp (off + direntSize)
    else pure (off, dp)

/-- `dirlink(dp, name, inum)`; `false` is -1. -/
def dirlink (sb : Superblock) (dp : Inode) (name : List UInt8) (inum : Nat) :
    K H (Bool × Inode) := do
  match ← dirlookup sb dp name with
  -- the `iput` of an inode that has not been locked since its `iget` frees nothing
  | (some _, dp) => pure (false, dp)
  | (none, dp) =>
    let (off, dp) ← dirlinkLoop sb dp.size dp 0
    let (r, dp) ← writei sb dp (.kernel (direntBytes inum name)) off direntSize
    if r ≠ some direntSize then panic .dirlink else pure (true, dp)

end

/-! ## Names -/

/-- What `strncmp` and `strncpy` see of a name. -/
def cname (name : List UInt8) : List UInt8 := (name.take dirsiz).takeWhile (· ≠ 0)

theorem strncmpEq_iff (n : Nat) : ∀ {s t : List UInt8}, strncmpEq n s t = true ↔
    (s.take n).takeWhile (· ≠ 0) = (t.take n).takeWhile (· ≠ 0) := by
  induction n with
  | zero => intro s t; simp [strncmpEq]
  | succ n ih =>
    intro s t
    rw [strncmpEq]
    cases s with
    | nil =>
      cases t with
      | nil => simp
      | cons d t =>
        by_cases hd : d = 0
        · simp [hd]
        · simp [hd, Ne.symm hd]
    | cons c s =>
      cases t with
      | nil => by_cases hc : c = 0 <;> simp [hc]
      | cons d t =>
        by_cases hcd : c = d
        · subst hcd
          by_cases hc : c = 0 <;> simp [hc, ih]
        · by_cases hc : c = 0
          · subst hc
            simp [hcd, Ne.symm hcd]
          · by_cases hd : d = 0 <;> simp [hcd, hc, hd]

theorem namecmp_iff {s t : List UInt8} : strncmpEq dirsiz s t = true ↔ cname s = cname t :=
  strncmpEq_iff dirsiz

theorem length_strncpy (n : Nat) : ∀ t : List UInt8, (strncpy n t).length = n := by
  induction n with
  | zero => exact fun _ => rfl
  | succ n ih =>
    intro t
    rw [strncpy]
    split
    · rw [length_replicate]
    · rw [length_cons, ih]

theorem takeWhile_strncpy (n : Nat) : ∀ t : List UInt8,
    (strncpy n t).takeWhile (· ≠ 0) = (t.take n).takeWhile (· ≠ 0) := by
  induction n with
  | zero => intro t; rw [take_zero]; rfl
  | succ n ih =>
    intro t
    rw [strncpy]
    cases t with
    | nil => simp [replicate_succ]
    | cons c t =>
      by_cases hc : c = 0
      · simp [hc, replicate_succ]
      · simpa [hc] using ih t

theorem cname_strncpy (name : List UInt8) : cname (strncpy dirsiz name) = cname name := by
  rw [cname, take_of_length_le (length_strncpy _ _).le, takeWhile_strncpy, cname]

/-! ## Entries -/

/-- An entry as `dirlookup` sees it: empty, or a name and an inode number. -/
def direntSlot (de : List UInt8) : Option (List UInt8 × Nat) :=
  if direntInum de = 0 then none else some (cname (de.drop 2), direntInum de)

/-- The entries among the bytes of a directory. -/
def dirents (bytes : List UInt8) : List (List UInt8) :=
  (List.range (bytes.length / direntSize)).map fun k =>
    (bytes.drop (k * direntSize)).take direntSize

/-- The slots of a directory with these bytes. -/
def slots (bytes : List UInt8) : List (Option (List UInt8 × Nat)) := (dirents bytes).map direntSlot

@[simp] theorem length_direntBytes (inum : Nat) (name : List UInt8) :
    (direntBytes inum name).length = direntSize := by
  rw [direntBytes, length_cons, length_cons, length_strncpy]
  rfl

theorem direntInum_direntBytes (inum : Nat) (name : List UInt8) :
    direntInum (direntBytes inum name) = inum % 2 ^ 16 := by
  change (UInt8.ofNat inum).toNat + 2 ^ 8 * (UInt8.ofNat (inum / 2 ^ 8)).toNat = inum % 2 ^ 16
  rw [UInt8.toNat_ofNat', UInt8.toNat_ofNat']
  omega

theorem direntSlot_direntBytes (inum : Nat) (name : List UInt8) :
    direntSlot (direntBytes inum name) =
    if inum % 2 ^ 16 = 0 then none else some (cname name, inum % 2 ^ 16) := by
  rw [direntSlot, direntInum_direntBytes]
  split
  · rfl
  · congr 2
    exact cname_strncpy name

theorem direntSlot_zero : direntSlot (List.replicate direntSize 0) = none := rfl

section Bytes

variable {bytes de : List UInt8}

theorem length_dirents (bytes : List UInt8) :
    (dirents bytes).length = bytes.length / direntSize := by
  rw [dirents, length_map, length_range]

theorem length_slots (bytes : List UInt8) : (slots bytes).length = bytes.length / direntSize := by
  rw [slots, length_map, length_dirents]

theorem getElem?_dirents (bytes : List UInt8) (k : Nat) : (dirents bytes)[k]? =
    if k < bytes.length / direntSize then some ((bytes.drop (k * direntSize)).take direntSize)
    else none := by
  rw [dirents, getElem?_map]
  split
  · rename_i hk
    rw [getElem?_range hk]
    rfl
  · rename_i hk
    rw [getElem?_eq_none (by rw [length_range]; omega)]
    rfl

theorem dirents_flatten {ents : List (List UInt8)} (hw : ∀ de ∈ ents, de.length = direntSize) :
    dirents ents.flatten = ents := by
  refine ext_getElem? fun k => ?_
  rw [getElem?_dirents, length_flatten_of_forall hw, Nat.mul_div_cancel _ (by decide)]
  split
  · rename_i hk
    rw [take_drop_flatten hw hk, getElem?_eq_getElem hk]
  · rw [getElem?_eq_none (by omega)]

/-- A new entry in the place of an old one, or at the end. -/
theorem dirents_overwrite (hdvd : direntSize ∣ bytes.length) (hk : k ≤ bytes.length / direntSize)
    (hde : de.length = direntSize) :
    dirents (overwrite bytes (k * direntSize) de) = SlotMap.put (dirents bytes) k de := by
  obtain ⟨n, hn⟩ := hdvd
  have hpos : 0 < direntSize := by decide
  rw [hn, Nat.mul_div_cancel_left n hpos] at hk
  have hlen : (overwrite bytes (k * direntSize) de).length = max n (k + 1) * direntSize := by
    rw [overwrite, length_append, length_append, length_take, length_drop, hde, hn,
      direntSize]
    omega
  refine ext_getElem? fun j => ?_
  rw [SlotMap.getElem?_put (by rw [length_dirents, hn, Nat.mul_div_cancel_left n hpos]; exact hk),
    getElem?_dirents, hlen, Nat.mul_div_cancel _ hpos, getElem?_dirents, hn,
    Nat.mul_div_cancel_left n hpos]
  have htake : (bytes.take (k * direntSize)).length = k * direntSize := by
    rw [length_take, hn, direntSize]
    omega
  rw [direntSize] at *
  rcases Nat.lt_trichotomy j k with hj | rfl | hj
  · rw [if_pos (by omega), if_neg hj.ne, if_pos (by omega), overwrite, append_assoc,
      drop_append_of_le_length (by omega), take_append_of_le_length
        (by rw [length_drop]; omega), drop_take, take_take, Nat.min_eq_left (by omega)]
  · rw [if_pos (by omega), if_pos rfl, overwrite, append_assoc, drop_append, htake,
      drop_of_length_le htake.le, Nat.sub_self, drop_zero, nil_append,
      take_append_of_le_length hde.ge, take_of_length_le hde.le]
  · rw [if_neg hj.ne']
    by_cases hjn : j < n
    · rw [if_pos (by omega), if_pos hjn, overwrite, drop_append, length_append, htake, hde,
        drop_of_length_le (by rw [length_append]; omega), nil_append, drop_drop]
      congr 3
      omega
    · rw [if_neg (by omega), if_neg hjn]

theorem map_put {α β : Type} (f : α → β) (t : List α) (n : Nat) (e : α) :
    (SlotMap.put t n e).map f = SlotMap.put (t.map f) n (f e) := by
  rw [SlotMap.put, SlotMap.put, map_append, map_cons, map_take, map_drop]

theorem slots_overwrite (hdvd : direntSize ∣ bytes.length) (hk : k ≤ (slots bytes).length)
    (hde : de.length = direntSize) :
    slots (overwrite bytes (k * direntSize) de) = SlotMap.put (slots bytes) k (direntSlot de) := by
  rw [length_slots] at hk
  rw [slots, dirents_overwrite hdvd hk hde, map_put, slots]

end Bytes

/-! ## Reading a directory -/

section Reading

variable {sb : Superblock} {m : UserMem} {s : Disk} {dp : Inode} {bytes name : List UInt8}

theorem slots_le_size (hs : bytes.length ≤ dp.size) : (slots bytes).length ≤ dp.size := by
  rw [length_slots]
  exact (div_le_self ..).trans hs

section

variable (h : Holds s dp bytes) (hs : bytes.length ≤ dp.size) (h32 : dp.size < 2 ^ 32)

include h hs h32

theorem yields_scan_entry {γ : Type} {x : γ} {next : Nat × List UInt8 × Inode → K Nat γ}
    {stop : K Nat γ} (hk : k < (slots bytes).length)
    (hnext : ∀ de, (slots bytes)[k] = direntSlot de → Yields m (next (direntSize, de, dp)) s x) :
    Yields m (if k * direntSize < dp.size then
      readi sb dp .kernel (k * direntSize) direntSize >>= next else stop) s x := by
  have hlt := hk
  rw [length_slots] at hlt
  have hle : k * direntSize + direntSize ≤ bytes.length := by
    rw [direntSize] at *
    omega
  have hget : (slots bytes)[k]? =
      some (direntSlot ((bytes.drop (k * direntSize)).take direntSize)) := by
    rw [slots, getElem?_map, getElem?_dirents, if_pos hlt]
    rfl
  rw [if_pos (by rw [direntSize] at *; omega)]
  have hdst : Dst.kernel.Takes m direntSize := trivial
  exact (yields_readi_of_le h hs h32 hdst hle).bind
    (hnext _ (List.getElem?_eq_some_iff.mp hget).2)

/-- The loop of `dirlookup` looks at the slots from where it starts.  If the file has more bytes
than those that are known, it has to find the name among these. -/
theorem yields_dirlookupLoop_slots (rounds : Nat) : ∀ {l : Nat}, (slots bytes).length - l ≤ rounds →
      (dp.size ≤ (slots bytes).length * direntSize ∨
        SlotMap.lookup (cname name) ((slots bytes).drop l) ≠ none) →
      Yields m (dirlookupLoop sb name rounds dp (l * direntSize)) s
        ((SlotMap.lookup (cname name) ((slots bytes).drop l)).map
          (fun p => (p.1, (l + p.2) * direntSize)), dp) := by
  induction rounds with
  | zero =>
    intro l hr _
    rw [drop_of_length_le (by omega)]
    exact yields_pure
  | succ rounds ih =>
    intro l hr hend
    rw [dirlookupLoop]
    rcases lt_or_ge l (slots bytes).length with hlt | hge
    · refine yields_scan_entry h hs h32 hlt fun de hslot => ?_
      dsimp only
      rw [if_neg (by simp)]
      rw [drop_eq_getElem_cons hlt, hslot, direntSlot] at hend ⊢
      -- what the rest of the loop returns, seen from here
      have hmap : ((SlotMap.lookup (cname name) ((slots bytes).drop (l + 1))).map
          fun p => (p.1, p.2 + 1)).map (fun p => (p.1, (l + p.2) * direntSize)) =
          (SlotMap.lookup (cname name) ((slots bytes).drop (l + 1))).map
            fun p => (p.1, (l + 1 + p.2) * direntSize) := by
        rw [Option.map_map]
        congr 1
        funext p
        change (p.1, (l + (p.2 + 1)) * direntSize) = _
        rw [show l + (p.2 + 1) = l + 1 + p.2 by omega]
      have hnext := ih (l := l + 1) (by omega)
      rw [succ_mul, ← hmap] at hnext
      split
      · rename_i h0
        rw [if_pos h0, SlotMap.lookup, Ne, Option.map_eq_none_iff] at hend
        exact hnext hend
      · rename_i h0
        rw [if_neg h0, SlotMap.lookup] at hend
        rw [SlotMap.lookup]
        by_cases heq : cname (de.drop 2) = cname name
        · rw [if_pos (namecmp_iff.mpr heq.symm), if_pos heq]
          exact yields_pure
        · rw [if_neg heq, Ne, Option.map_eq_none_iff] at hend
          rw [if_neg fun hc => heq (namecmp_iff.mp hc).symm, if_neg heq]
          exact hnext hend
    · rw [drop_of_length_le hge] at hend ⊢
      have hle := Nat.mul_le_mul_right direntSize hge
      rw [if_neg (by have := hend.resolve_right (· rfl); omega)]
      exact yields_pure

/-- **`dirlookup` is `lookup`.** -/
theorem yields_dirlookup_slots (ht : dp.type = tDir)
    (hend : dp.size ≤ (slots bytes).length * direntSize ∨
      SlotMap.lookup (cname name) (slots bytes) ≠ none) : Yields m (dirlookup sb dp name) s
      ((SlotMap.lookup (cname name) (slots bytes)).map (fun p => (p.1, p.2 * direntSize)), dp) := by
  rw [dirlookup, if_neg (not_not.mpr ht)]
  have hle := slots_le_size hs
  have hloop : Yields m (dirlookupLoop sb name dp.size dp (0 * direntSize)) s _ :=
    yields_dirlookupLoop_slots h hs h32 dp.size (by omega) hend
  rw [zero_mul, drop_zero] at hloop
  simpa only [zero_add] using hloop

end

section

variable (h : Holds s dp bytes) (hs : bytes.length = dp.size) (h32 : dp.size < 2 ^ 32)
  (hdvd : direntSize ∣ dp.size)

include hs hdvd

theorem size_le_slots (hk : (slots bytes).length ≤ k) : dp.size ≤ k * direntSize := by
  rw [← Nat.div_mul_cancel hdvd, ← hs, ← length_slots]
  exact Nat.mul_le_mul_right _ hk

include h h32

theorem yields_dirlinkLoop (rounds : Nat) : ∀ {l : Nat}, (slots bytes).length - l ≤ rounds →
      Yields m (dirlinkLoop sb rounds dp (l * direntSize)) s
        ((l + SlotMap.firstFree ((slots bytes).drop l)) * direntSize, dp) := by
  induction rounds with
  | zero =>
    intro l hr
    rw [drop_of_length_le (by omega)]
    exact yields_pure
  | succ rounds ih =>
    intro l hr
    rw [dirlinkLoop]
    rcases lt_or_ge l (slots bytes).length with hlt | hge
    · refine yields_scan_entry h hs.le h32 hlt fun de hslot => ?_
      dsimp only
      rw [if_neg (by simp), drop_eq_getElem_cons hlt, hslot, direntSlot, SlotMap.firstFree,
        findIdx_cons]
      split
      · exact yields_pure
      · have hnext := ih (l := l + 1) (by omega)
        rw [succ_mul, SlotMap.firstFree, add_right_comm, add_assoc] at hnext
        exact hnext
    · rw [if_neg (size_le_slots hs hdvd hge).not_gt, drop_of_length_le hge]
      exact yields_pure

/-- The loop of `isdirempty` stops at the first slot that is not empty. -/
theorem yields_isdiremptyLoop (rounds : Nat) : ∀ {l : Nat}, (slots bytes).length - l ≤ rounds →
      Yields m (isdiremptyLoop sb rounds dp (l * direntSize)) s
        (((slots bytes).drop l).all (·.isNone), dp) := by
  induction rounds with
  | zero =>
    intro l hr
    rw [drop_of_length_le (by omega)]
    exact yields_pure
  | succ rounds ih =>
    intro l hr
    rw [isdiremptyLoop]
    rcases lt_or_ge l (slots bytes).length with hlt | hge
    · refine yields_scan_entry h hs.le h32 hlt fun de hslot => ?_
      dsimp only
      rw [if_neg (by simp), drop_eq_getElem_cons hlt, hslot, direntSlot, all_cons]
      split
      · exact yields_pure
      · rename_i h0
        have hnext := ih (l := l + 1) (by omega)
        rw [succ_mul] at hnext
        rw [if_pos (of_not_not h0)]
        exact hnext
    · rw [if_neg (size_le_slots hs hdvd hge).not_gt, drop_of_length_le hge]
      exact yields_pure

end

end Reading

/-! ## Directories among the nodes -/

/-- A directory: whole entries. -/
structure Node.IsDir (n : Node) : Prop where
  type : n.type = tDir
  aligned : direntSize ∣ n.bytes.length

/-- A directory after `dirlink`: the first empty slot has the new entry. -/
def Node.linked (n : Node) (name : List UInt8) (inum : Nat) : Node :=
  { n with
    bytes := overwrite n.bytes (SlotMap.firstFree (slots n.bytes) * direntSize)
      (direntBytes inum name) }

/-- A directory after the entry at `off` has been zeroed. -/
def Node.zeroed (n : Node) (off : Nat) : Node :=
  { n with bytes := overwrite n.bytes off (List.replicate direntSize 0) }

section Nodes

variable {n : Node} {name : List UInt8} {inum k : Nat}

theorem Node.IsDir.length_slots (h : n.IsDir) :
    (slots n.bytes).length * direntSize = n.bytes.length := by
  rw [Fs.length_slots, Nat.div_mul_cancel h.aligned]

theorem Node.IsDir.entry_le (h : n.IsDir) (hk : k < (slots n.bytes).length) :
    k * direntSize + direntSize ≤ n.bytes.length := by
  rw [← h.length_slots, ← succ_mul]
  exact mul_le_mul_right _ hk

/-- The entry that `dirlink` writes, whatever the inode number. -/
theorem Node.IsDir.slots_put (h : n.IsDir) (name : List UInt8) (inum : Nat) :
    slots (n.linked name inum).bytes =
      SlotMap.put (slots n.bytes) (SlotMap.firstFree (slots n.bytes))
      (if inum % 2 ^ 16 = 0 then none else some (cname name, inum % 2 ^ 16)) := by
  rw [linked, slots_overwrite h.aligned (SlotMap.firstFree_le _) (length_direntBytes ..),
    direntSlot_direntBytes]

theorem Node.IsDir.slots_linked (h : n.IsDir) (h1 : 1 ≤ inum) (h16 : inum < 2 ^ 16)
    (name : List UInt8) :
    slots (n.linked name inum).bytes = SlotMap.insert (slots n.bytes) (cname name) inum := by
  rw [h.slots_put, mod_eq_of_lt h16, if_neg (by omega), SlotMap.insert]

theorem Node.IsDir.slots_zeroed (h : n.IsDir) (hk : k ≤ (slots n.bytes).length) :
    slots (n.zeroed (k * direntSize)).bytes = SlotMap.erase (slots n.bytes) k := by
  rw [zeroed, slots_overwrite h.aligned hk length_replicate, direntSlot_zero, SlotMap.erase]

theorem length_overwrite {old data : List UInt8} (hoff : off ≤ old.length) :
    (overwrite old off data).length = max old.length (off + data.length) := by
  rw [overwrite, length_append, length_append, length_take, length_drop]
  omega

section

variable (h : n.IsDir)

include h

theorem Node.IsDir.firstFree_le :
    SlotMap.firstFree (slots n.bytes) * direntSize ≤ n.bytes.length := by
  rw [← h.length_slots]
  exact mul_le_mul_right _ (SlotMap.firstFree_le _)

theorem Node.IsDir.of_lt_firstFree (hf : none ∈ slots n.bytes) :
    SlotMap.firstFree (slots n.bytes) * direntSize + direntSize ≤ n.bytes.length :=
  h.entry_le (SlotMap.firstFree_lt_iff.mpr hf)

theorem Node.IsDir.firstFree_eq (hf : none ∉ slots n.bytes) :
    SlotMap.firstFree (slots n.bytes) * direntSize = n.bytes.length := by
  rw [← h.length_slots, (lt_or_eq_of_le (SlotMap.firstFree_le _)).resolve_left
    fun hlt => hf (SlotMap.firstFree_lt_iff.mp hlt)]

/-- **A directory grows** only when it has no empty slot. -/
theorem Node.IsDir.length_linked (name : List UInt8) (inum : Nat) :
    (n.linked name inum).bytes.length =
      if none ∈ slots n.bytes then n.bytes.length else n.bytes.length + direntSize := by
  rw [linked, length_overwrite h.firstFree_le, length_direntBytes]
  split
  · have := h.of_lt_firstFree ‹_›
    omega
  · rw [h.firstFree_eq ‹_›]
    omega

theorem Node.IsDir.linked (name : List UInt8) (inum : Nat) : (n.linked name inum).IsDir := by
  refine ⟨h.type, ?_⟩
  rw [h.length_linked]
  split
  · exact h.aligned
  · exact Nat.dvd_add h.aligned (Nat.dvd_refl _)

theorem Node.IsDir.length_zeroed (hk : k < (slots n.bytes).length) :
    (n.zeroed (k * direntSize)).bytes.length = n.bytes.length := by
  have hle := h.entry_le hk
  rw [zeroed, length_overwrite (by omega), length_replicate]
  omega

theorem Node.IsDir.zeroed (hk : k < (slots n.bytes).length) : (n.zeroed (k * direntSize)).IsDir :=
  ⟨h.type, by rw [h.length_zeroed hk]; exact h.aligned⟩

end

end Nodes

section Disk

variable {sb : Superblock} {m : UserMem} {E : Panic → Prop} {s : Disk} {ns : Nat → Option Node}
  {i inum k : Nat} {n : Node} {name : List UInt8}

/-- What `dirlookup` returns, up to the `iget`, in a directory with these bytes. -/
def found (bytes name : List UInt8) : Option (Nat × Nat) :=
  (SlotMap.lookup (cname name) (slots bytes)).map fun p => (p.1, p.2 * direntSize)

section

variable (h : Represents sb s ns) (hn : ns i = some n)

include h hn

theorem Represents.lt_two_pow : (dinode sb s i).size < 2 ^ 32 := by
  have hbig : maxfile * bsize < 2 ^ 32 := by decide
  have := h.size_le hn
  rw [h.size hn]
  omega

/-- **`dirlookup`** -/
theorem Represents.dirlookup (hd : n.IsDir) (m : UserMem) (name : List UInt8) :
    Yields m (dirlookup sb (dinode sb s i) name) s (found n.bytes name, dinode sb s i) :=
  yields_dirlookup_slots (h.holds hn) (h.size hn).ge (h.lt_two_pow hn) (by rw [h.type hn, hd.type])
    (.inl (size_le_slots (h.size hn).symm (by rw [h.size hn]; exact hd.aligned) le_rfl))

theorem Represents.dirlinkLoop (hd : n.IsDir) (m : UserMem) :
    Yields m (dirlinkLoop sb (dinode sb s i).size (dinode sb s i) 0) s
      (SlotMap.firstFree (slots n.bytes) * direntSize, dinode sb s i) := by
  have hle := slots_le_size (h.size hn).ge
  have hloop : Yields m (Fs.dirlinkLoop sb (dinode sb s i).size (dinode sb s i)
    (0 * direntSize)) s _ :=
    yields_dirlinkLoop (h.holds hn) (h.size hn).symm (h.lt_two_pow hn)
      (by rw [h.size hn]; exact hd.aligned) _ (by omega)
  rw [zero_mul, drop_zero, zero_add] at hloop
  exact hloop

/-- **`isdirempty`**: there is nothing after the first two entries. -/
theorem Represents.isdirempty (hd : n.IsDir) (m : UserMem) :
    Yields m (isdirempty sb (dinode sb s i)) s
      (((slots n.bytes).drop 2).all (·.isNone), dinode sb s i) := by
  have hle := slots_le_size (h.size hn).ge
  exact yields_isdiremptyLoop (h.holds hn) (h.size hn).symm (h.lt_two_pow hn)
    (by rw [h.size hn]; exact hd.aligned) _ (by omega)

theorem Represents.dirlink_present (hd : n.IsDir) (m : UserMem) (inum : Nat)
    (hp : found n.bytes name ≠ none) :
    Yields m (dirlink sb (dinode sb s i) name inum) s (false, dinode sb s i) := by
  obtain ⟨p, hp⟩ := ne_none_iff_exists'.mp hp
  have hlook := h.dirlookup hn hd m name
  rw [hp] at hlook
  rw [dirlink]
  exact hlook.bind yields_pure

/-- `dirlink` of a name that is not there comes down to the `writei`. -/
theorem Represents.exec_dirlink (hd : n.IsDir) (m : UserMem) (inum : Nat)
    (ha : found n.bytes name = none) :
    exec (answer m) (dirlink sb (dinode sb s i) name inum) s =
      exec (answer m) (do
        let (r, dp) ← writei sb (dinode sb s i) (.kernel (direntBytes inum name))
          (SlotMap.firstFree (slots n.bytes) * direntSize) direntSize
        if r ≠ some direntSize then panic .dirlink else pure (true, dp)) s := by
  have hlook := h.dirlookup hn hd m name
  rw [ha] at hlook
  rw [dirlink, exec_bind, hlook]
  change exec _ (Fs.dirlinkLoop sb (dinode sb s i).size (dinode sb s i) 0 >>= _) s = _
  rw [exec_bind, h.dirlinkLoop hn hd m]
  rfl

end

/-- There is room for one more entry: an empty slot, or a file that may get longer and the blocks
for that. -/
def RoomFor (sb : Superblock) (s : Disk) (i : Nat) (n : Node) : Prop :=
  none ∈ slots n.bytes ∨ n.bytes.length + direntSize ≤ maxfile * bsize ∧
    (missing s (dinode sb s i) n.bytes.length direntSize).card ≤ (freeBlocks sb s).card

theorem Represents.missing_eq_empty (h : Represents sb s ns) (hn : ns i = some n)
    (hle : off + k ≤ n.bytes.length) : missing s (dinode sb s i) off k = ∅ := by
  rw [missing, Finset.filter_eq_empty_iff]
  intro x hx
  obtain ⟨bn, hbn, hx⟩ := Finset.mem_biUnion.mp hx
  obtain ⟨j, hj, rfl⟩ := mem_blocksOf.mp hbn
  exact ref_ne_zero_of_slotsOf (h.holds hn (off + j) (by omega)).2.1 hx

section

variable (hl : Layout sb) (h : Represents sb s ns) (hn : ns i = some n)

include hl h hn

theorem Represents.runs_writei_dirent {de : List UInt8} (hde : de.length = direntSize)
    (hoff : off ≤ n.bytes.length) (hmax : off + direntSize ≤ maxfile * bsize) :
    Runs m (writei sb (dinode sb s i) (.kernel de) off direntSize) s fun r s' =>
      r = (some direntSize, dinode sb s' i) ∧ KeepsInodes sb s i s' ∧
        Represents sb s' (update ns i (some { n with bytes := overwrite n.bytes off de })) := by
  rw [← hde] at hmax ⊢
  exact runs_writei_node hl h hn rfl hoff hmax

theorem Represents.returns_writei {src : Src} (hle : off + k ≤ n.bytes.length) :
    Returns m (writei sb (dinode sb s i) src off k) s :=
  Fs.returns_writei hl (h.busy hn) (by rw [h.missing_eq_empty hn hle]; exact zero_le _)

/-- **`dirlink`** of a name that is not there, in a directory that may get longer. -/
theorem Represents.ends_dirlink (hd : n.IsDir) (inum : Nat) (ha : found n.bytes name = none)
    (hE : (∀ e, Tolerated e → E e) ∨ RoomFor sb s i n)
    (hfit : ¬ E .dirlink → none ∈ slots n.bytes ∨ n.bytes.length + direntSize ≤ maxfile * bsize) :
    Ends m E (dirlink sb (dinode sb s i) name inum) s fun r s' => r = (true, dinode sb s' i) ∧
      KeepsInodes sb s i s' ∧ Represents sb s' (update ns i (some (n.linked name inum))) := by
  rw [Ends, wp_specOf_iff, h.exec_dirlink hn hd m inum ha, ← wp_specOf_iff]
  by_cases hmax : SlotMap.firstFree (slots n.bytes) * direntSize + direntSize ≤ maxfile * bsize
  · have hrun := h.runs_writei_dirent (m := m) hl hn (length_direntBytes inum name)
      hd.firstFree_le hmax
    refine Ends.bind (hE.elim hrun.ends fun hroom => hrun.total ?_) ?_
    · by_cases hfree : none ∈ slots n.bytes
      · exact h.returns_writei hl hn (hd.of_lt_firstFree hfree)
      · rw [hd.firstFree_eq hfree]
        exact Fs.returns_writei hl (h.busy hn) (hroom.resolve_left hfree).2
    · rintro _ s' ⟨rfl, hkeep, hrep⟩
      dsimp only
      rw [if_neg (by simp)]
      exact ends_pure ⟨rfl, hkeep, hrep⟩
  · -- the directory is as long as a file can be
    have hpanic : E .dirlink := by
      by_contra hno
      have hmax' := h.size_le hn
      rcases hfit hno with hfree | hroom
      · have := hd.of_lt_firstFree hfree
        omega
      · have := hd.firstFree_le
        omega
    refine Yields.ends_bind (writei_out_of_range ?_) (ends_panic hpanic)
    rw [h.size hn]
    exact fun hc => hmax hc.2

theorem Represents.runs_zero (hd : n.IsDir) (hk : k < (slots n.bytes).length) :
    Runs m (writei sb (dinode sb s i) (.kernel (List.replicate direntSize 0)) (k * direntSize)
      direntSize) s fun r s' => r = (some direntSize, dinode sb s' i) ∧ KeepsInodes sb s i s' ∧
        Represents sb s' (update ns i (some (n.zeroed (k * direntSize)))) := by
  have hle := hd.entry_le hk
  have hmax := h.size_le hn
  exact h.runs_writei_dirent hl hn length_replicate (by omega) (by omega)

/-- **`dirlink` returns** if there is room. -/
theorem Represents.returns_dirlink (hd : n.IsDir) (inum : Nat) (ha : found n.bytes name = none)
    (hroom : RoomFor sb s i n) :
    ∃ s', exec (answer m) (dirlink sb (dinode sb s i) name inum) s =
      .ok ((true, dinode sb s' i), s') ∧
      Represents sb s' (update ns i (some (n.linked name inum))) := by
  obtain ⟨_, s', hexec, rfl, -, hrep⟩ := (h.ends_dirlink (m := m) hl hn hd inum ha (.inr hroom)
    fun _ => hroom.imp_right And.left).exists_ok
  exact ⟨s', hexec, hrep⟩

theorem Represents.returns_zero (hd : n.IsDir) (hk : k < (slots n.bytes).length) :
    ∃ s', exec (answer m) (writei sb (dinode sb s i) (.kernel (List.replicate direntSize 0))
        (k * direntSize) direntSize) s = .ok ((some direntSize, dinode sb s' i), s') ∧
      Represents sb s' (update ns i (some (n.zeroed (k * direntSize)))) := by
  obtain ⟨_, s', hexec, rfl, -, hrep⟩ := ((h.runs_zero hl hn hd hk).total
    (h.returns_writei hl hn (hd.entry_le hk))).exists_ok
  exact ⟨s', hexec, hrep⟩

end

end Disk

/-! ## A directory is a map -/

/-- The directory has an entry with this name, for the inode `inum`, at the offset `off`. -/
def HasEntry (bytes name : List UInt8) (inum off : Nat) : Prop :=
  ∃ k, off = k * direntSize ∧ (slots bytes)[k]? = some (some (cname name, inum))

section Map

variable {bytes name name' : List UInt8} {n : Node} {inum off : Nat}

theorem found_eq_some_iff (hu : SlotMap.Distinct (slots bytes)) :
    found bytes name = some (inum, off) ↔ HasEntry bytes name inum off := by
  rw [found, map_eq_some_iff]
  constructor
  · rintro ⟨⟨v, k⟩, hl, he⟩
    cases he
    exact ⟨k, rfl, SlotMap.getElem?_of_lookup hl⟩
  · rintro ⟨k, rfl, hk⟩
    exact ⟨(inum, k), hu.lookup_eq_some_iff.mpr hk, rfl⟩

theorem found_eq_none_iff :
    found bytes name = none ↔ SlotMap.lookup (cname name) (slots bytes) = none :=
  map_eq_none_iff

section

variable (hd : n.IsDir) (hu : SlotMap.Distinct (slots n.bytes)) (h1 : 1 ≤ inum)
  (h16 : inum < 2 ^ 16)

include hd hu h1 h16

theorem found_linked_self (ha : found n.bytes name = none) :
    found (n.linked name inum).bytes name =
      some (inum, SlotMap.firstFree (slots n.bytes) * direntSize) := by
  rw [found, hd.slots_linked h1 h16, SlotMap.lookup_insert_self hu (found_eq_none_iff.mp ha)]
  rfl

theorem found_linked_of_ne (ha : found n.bytes name = none) (hne : cname name' ≠ cname name) :
    found (n.linked name inum).bytes name' = found n.bytes name' := by
  rw [found, hd.slots_linked h1 h16, SlotMap.lookup_insert_of_ne hu (found_eq_none_iff.mp ha) _ hne,
    found]

end

/-- A name that is not there before is not there after another one has been entered. -/
theorem found_linked_eq_none (hd : n.IsDir) (inum : Nat) (ha : found n.bytes name' = none)
    (hne : cname name' ≠ cname name) : found (n.linked name inum).bytes name' = none := by
  rw [found_eq_none_iff, SlotMap.lookup_eq_none_iff] at ha ⊢
  intro k v hk
  rw [hd.slots_put, SlotMap.getElem?_put (SlotMap.firstFree_le _)] at hk
  split at hk
  · split at hk
    · nomatch hk
    · have heq := some.inj (some.inj hk)
      exact hne (congrArg Prod.fst heq).symm
  · exact ha k v hk

end Map

/-- **A directory is a finite map.**  On a sound disk without holes let `i` be a directory, with
bytes `n.bytes`, whose entries have different names.  Then for every name, and every inode number
that fits into an entry,

* `dirlookup` returns the inode number and the offset of the entry with the name, or nothing if
  there is none;
* if there is one, `dirlink` fails and changes nothing;
* if there is none, and there is room, `dirlink` succeeds: `dirlookup` then finds the inode number
  under the name and what it found before under every other name.  The directory is longer only if
  it had no empty slot;
* to zero the entry with the name at the offset `dirlookup` has returned takes away this name and no
  other.

All other inodes stay as they are, and the names stay different. -/
theorem directory_is_map {sb : Superblock} (hl : Layout sb) {s : Disk} {ns : Nat → Option Node}
    (h : Represents sb s ns) {i : Nat} {n : Node} (hn : ns i = some n) (hd : n.IsDir)
    (hu : SlotMap.Distinct (slots n.bytes)) (m : UserMem) (name : List UInt8) {inum : Nat}
    (h1 : 1 ≤ inum) (h16 : inum < 2 ^ 16) :
    (∃ r, Yields m (dirlookup sb (dinode sb s i) name) s (r, dinode sb s i) ∧
      ∀ e off, r = some (e, off) ↔ HasEntry n.bytes name e off) ∧
    ((∃ e off, HasEntry n.bytes name e off) →
      Yields m (dirlink sb (dinode sb s i) name inum) s (false, dinode sb s i)) ∧
    ((∀ e off, ¬ HasEntry n.bytes name e off) → RoomFor sb s i n → ∃ s' n',
      exec (answer m) (dirlink sb (dinode sb s i) name inum) s = .ok ((true, dinode sb s' i), s') ∧
      Represents sb s' (update ns i (some n')) ∧ n'.IsDir ∧
      SlotMap.Distinct (slots n'.bytes) ∧
      (∃ off, Yields m (dirlookup sb (dinode sb s' i) name) s' (some (inum, off), dinode sb s' i)) ∧
      (∀ name', cname name' ≠ cname name → ∀ r,
        Yields m (dirlookup sb (dinode sb s' i) name') s' (r, dinode sb s' i) ↔
          Yields m (dirlookup sb (dinode sb s i) name') s (r, dinode sb s i)) ∧
      n'.bytes.length = if none ∈ slots n.bytes then n.bytes.length else n.bytes.length +
        direntSize) ∧
    (∀ e off, Yields m (dirlookup sb (dinode sb s i) name) s (some (e, off), dinode sb s i) →
      ∃ s' n',
      exec (answer m) (writei sb (dinode sb s i) (.kernel (List.replicate direntSize 0)) off
        direntSize) s = .ok ((some direntSize, dinode sb s' i), s') ∧
      Represents sb s' (update ns i (some n')) ∧ n'.IsDir ∧
      SlotMap.Distinct (slots n'.bytes) ∧
      Yields m (dirlookup sb (dinode sb s' i) name) s' (none, dinode sb s' i) ∧
      (∀ name', cname name' ≠ cname name → ∀ r,
        Yields m (dirlookup sb (dinode sb s' i) name') s' (r, dinode sb s' i) ↔
          Yields m (dirlookup sb (dinode sb s i) name') s (r, dinode sb s i)) ∧
      n'.bytes.length = n.bytes.length) := by
  -- what `dirlookup` returns, in any state
  have hlook : ∀ {s ns n} (_ : Represents sb s ns) (_ : ns i = some n) (_ : n.IsDir) (name) (r),
      Yields m (dirlookup sb (dinode sb s i) name) s (r, dinode sb s i) ↔
        r = found n.bytes name := by
    intro s ns n h hn hd name r
    have hy := h.dirlookup hn hd m name
    refine ⟨fun hr => ?_, fun hr => hr ▸ hy⟩
    rw [Yields, hy] at hr
    cases hr
    rfl
  have hsame : ∀ {s' n'}, Represents sb s' (update ns i (some n')) → n'.IsDir →
      (∀ name', cname name' ≠ cname name → found n'.bytes name' = found n.bytes name') →
      ∀ name', cname name' ≠ cname name → ∀ r,
        Yields m (dirlookup sb (dinode sb s' i) name') s' (r, dinode sb s' i) ↔
          Yields m (dirlookup sb (dinode sb s i) name') s (r, dinode sb s i) := by
    intro s' n' h' hd' hf name' hne r
    rw [hlook h' (Function.update_self ..) hd', hlook h hn hd, hf name' hne]
  refine ⟨⟨_, h.dirlookup hn hd m name, fun e off => found_eq_some_iff hu⟩, ?_, ?_, ?_⟩
  · rintro ⟨e, off, he⟩
    exact h.dirlink_present hn hd m inum (by rw [(found_eq_some_iff hu).mpr he]; simp)
  · intro hno hroom
    have ha : found n.bytes name = none := by
      refine eq_none_iff_forall_ne_some.mpr fun p hp => hno p.1 p.2 ?_
      exact (found_eq_some_iff hu).mp hp
    obtain ⟨s', hexec, hrep⟩ := h.returns_dirlink (m := m) hl hn hd inum ha hroom
    refine ⟨s', n.linked name inum, hexec, hrep, hd.linked .., ?_,
      ⟨SlotMap.firstFree (slots n.bytes) * direntSize, ?_⟩, ?_, hd.length_linked ..⟩
    · rw [hd.slots_linked h1 h16]
      exact hu.insert (found_eq_none_iff.mp ha) _
    · exact (hlook hrep (Function.update_self ..) (hd.linked ..) name _).mpr
        (found_linked_self hd hu h1 h16 ha).symm
    · exact hsame hrep (hd.linked ..) fun name' hne => found_linked_of_ne hd hu h1 h16 ha hne
  · intro e off hyield
    obtain ⟨⟨v, k⟩, hk, he⟩ := map_eq_some_iff.mp ((hlook h hn hd name _).mp hyield).symm
    cases he
    have hlt := SlotMap.lt_length_of_lookup hk
    obtain ⟨s', hexec, hrep⟩ := h.returns_zero (m := m) hl hn hd hlt
    have hslots := hd.slots_zeroed hlt.le
    refine ⟨s', n.zeroed (k * direntSize), hexec, hrep, hd.zeroed hlt, ?_, ?_, ?_,
      hd.length_zeroed hlt⟩
    · rw [hslots]
      exact hu.erase hlt.le
    · rw [hlook hrep (Function.update_self ..) (hd.zeroed hlt), found, hslots,
        SlotMap.lookup_erase_self hu hk]
      rfl
    · refine hsame hrep (hd.zeroed hlt) fun name' hne => ?_
      rw [found, hslots, SlotMap.lookup_erase_of_ne hu hk hne, found]

/-- A disk with one directory, which is empty. -/
def withDir : Disk :=
  update noFiles (iblock mkfsSuper 1) (clearDinode (noFiles (iblock mkfsSuper 1)) 1 tDir)

theorem represents_noFiles : Represents mkfsSuper noFiles fun _ => none := by
  refine ⟨sound_noFiles, full_noFiles, ?_⟩
  funext i
  rw [nodes, if_neg fun h => h.2 (dinode_noFiles h.1)]

theorem represents_withDir :
    Represents mkfsSuper withDir (update (fun _ => none) 1 (some (freshNode tDir))) := by
  have hset : Settled mkfsSuper noFiles 1 withDir (freshInode 1 tDir) :=
    .ialloc mkfsSuper_layout sound_noFiles.own (by decide) (by decide) (dinode_noFiles (by decide))
  have hrep := represents_noFiles.settled hset
    (fun _ _ y hy => refs_iblock sound_noFiles (by decide) _ _ hy) (by decide)
  rwa [if_neg (by decide)] at hrep

theorem isDir_freshNode : (freshNode tDir).IsDir := ⟨rfl, dvd_zero _⟩

/-- The name of inode 7 is entered into an empty directory, and found there. -/
theorem directory_is_map_withDir : ∃ s, exec (answer noMem)
      (dirlink mkfsSuper (dinode mkfsSuper withDir 1) [97] 7) withDir =
        .ok ((true, dinode mkfsSuper s 1), s) ∧
    ∃ off, Yields noMem (dirlookup mkfsSuper (dinode mkfsSuper s 1) [97]) s
      (some (7, off), dinode mkfsSuper s 1) := by
  have hroom : RoomFor mkfsSuper withDir 1 (freshNode tDir) := .inr ⟨by decide, by decide +kernel⟩
  obtain ⟨s, _, hexec, -, -, -, hfound, -⟩ := (directory_is_map mkfsSuper_layout represents_withDir
    (Function.update_self ..) isDir_freshNode nofun noMem [97] (by decide : 1 ≤ 7)
      (by decide)).2.2.1
    (by rintro e off ⟨k, -, hk⟩; nomatch hk) hroom
  exact ⟨s, hexec, hfound⟩

end Xv6.Fs
