import Xv6.Fs.Holes
import Mathlib.Data.List.TakeWhile

/-!
# Path names, and reading without anybody else around

The rest of the read-only half of `kernel/fs.c`: `readsb`, `skipelem`, `namex` and `namei`.  The
file system is as `answer` has it, one disk and one call at a time, so that what a call returns is a
function of the disk.

`Yields` is code that runs to its end and leaves the disk alone.  `Holds` says which bytes are on
disk for an inode, at the addresses at which `bmap` looks for them.  Then

* `yields_readi`: `readi` returns these bytes, whatever the offset and the length;
* `yields_namei`: `namei` of a path with one element finds what `dirlookup` finds in the root.
-/

namespace Xv6.Fs

open Bio Code List Nat

variable {k n off i w : Nat} {dst : Dst} {l : List (List UInt8)}

/-! ## The code -/

/-- `ROOTINO` -/
def rootIno : Nat := 1

/-- `T_FILE` -/
def tFile : Nat := 2

/-- `skipelem(path, name)`: the next element, cut off after `DIRSIZ` bytes, and the rest of the path
without leading slashes.  A path is given by its bytes before the terminating 0. -/
def skipelem (path : List UInt8) : Option (List UInt8 × List UInt8) :=
  match path.dropWhile (· = 47) with
  | [] => none
  | s => some ((s.takeWhile (· ≠ 47)).take dirsiz, (s.dropWhile (· ≠ 47)).dropWhile (· = 47))

section

variable {H : Type}

/-- `readsb(dev, &sb)`: `sb.magic`, and what the kernel uses of the rest. -/
def readsb : K H (Nat × Superblock) := do
  let (bp, d) ← bread 1
  brelse bp
  pure (d.get 0 4, ⟨d.get 4 4, d.get 12 4, d.get 16 4, d.get 20 4, d.get 24 4, d.get 28 4⟩)

/-- References to inodes, with one more to the inode `i`. -/
def hold (others : Nat → Nat) (i : Nat) : Nat → Nat := Function.update others i (others i + 1)

theorem hold_self_ne_zero {others : Nat → Nat} : hold others i i ≠ 0 := by
  rw [hold, Function.update_self]
  exact succ_ne_zero _

/-- `iunlockput(ip)`, where `others` counts the references to an inode besides the one that is
dropped. -/
def iunlockput (sb : Superblock) (others : Nat → Nat) (ip : Inode) : K H Unit :=
  if others ip.inum = 0 ∧ ip.nlink = 0 then do
    let _ ← iputFree sb ip
    pure ()
  else pure ()

/-- The loop of `namex`, where `others` counts the references that it does not hold itself.  It
returns the number of the inode and the last element of the path. -/
def namexLoop (sb : Superblock) (others : Nat → Nat) (nameiparent : Bool) :
    (rounds inum : Nat) → (path name : List UInt8) → K H (Option (Nat × List UInt8))
  | 0, _, _, _ => pure none
  | rounds + 1, inum, path, name =>
    match skipelem path with
    -- the `iput` of an inode that has not been locked since its `iget` frees nothing
    | none => if nameiparent then pure none else pure (some (inum, name))
    | some (name, path) => do
      let ip ← ilockRead sb inum
      if ip.type ≠ tDir then
        iunlockput sb others ip
        pure none
      -- stop one level early
      else if nameiparent ∧ path = [] then pure (some (inum, name))
      else
        match ← dirlookup sb ip name with
        | (none, ip) =>
          iunlockput sb others ip
          pure none
        | (some (next, _), ip) =>
          -- the reference that `dirlookup` has taken may be to `ip` itself
          iunlockput sb (hold others next) ip
          namexLoop sb others nameiparent rounds next path name

/-- `namex(path, nameiparent, name)`; `cwd` is the number of `myproc()->cwd`. -/
def namex (sb : Superblock) (others : Nat → Nat) (cwd : Nat) (path : List UInt8)
    (nameiparent : Bool) : K H (Option (Nat × List UInt8)) :=
  let inum := if path.head? = some 47 then rootIno else cwd
  namexLoop sb others nameiparent (path.length + 1) inum path []

/-- `namei(path)` -/
def namei (sb : Superblock) (others : Nat → Nat) (cwd : Nat) (path : List UInt8) :
    K H (Option Nat) := do
  let r ← namex sb others cwd path false
  pure (r.map (·.1))

end

/-! ## Code that leaves the disk alone -/

/-- The code returns `a`, and the disk is as before. -/
def Yields {α : Type} (m : UserMem) (c : K Nat α) (s : Disk) (a : α) : Prop :=
  c.exec (answer m) s = .ok (a, s)

section Rules

variable {α β : Type} {m : UserMem} {s : Disk} {a : α} {b : β}

theorem yields_pure : Yields m (pure a) s a := rfl

theorem Yields.bind {c : K Nat β} {f : β → K Nat α} (hc : Yields m c s b)
    (hf : Yields m (f b) s a) : Yields m (c >>= f) s a := by
  rw [Yields, exec_bind, hc]
  exact hf

theorem yields_bread {k : Nat × Block → K Nat α} :
    Yields m (bread n >>= k) s a ↔ Yields m (k (n, s n)) s a := Iff.rfl

theorem yields_brelse {k : Unit → K Nat α} :
    Yields m (brelse n >>= k) s a ↔ Yields m (k ()) s a := Iff.rfl

end Rules

/-! ## Reading a file -/

/-- The bytes of the file are on disk, where `bmap` finds them without allocating anything. -/
def Holds (s : Disk) (ip : Inode) (bs : List UInt8) : Prop :=
  ∀ o (h : o < bs.length), o / bsize < maxfile ∧ ip.ref s (slotOf (o / bsize)) ≠ 0 ∧
    (s (ip.ref s (slotOf (o / bsize)))).byte (o % bsize) = bs[o].toNat

/-- The destination of `readi` takes `n` bytes: for a user address, all of them are mapped. -/
def Dst.Takes (m : UserMem) (n : Nat) : Dst → Prop
  | .kernel => True
  | .user va => ∀ tot k, tot + k ≤ n → (copyin m ((va + tot) % 2 ^ 64) k).2 = true

section Reading

variable {α : Type} {sb : Superblock} {m : UserMem} {s : Disk} {ip : Inode} {bs : List UInt8}

theorem Dst.Takes.mono {n' : Nat} (h : dst.Takes m n) (hn : n' ≤ n) : dst.Takes m n' := by
  cases dst with
  | kernel => trivial
  | user va => exact fun tot k hk => h tot k (hk.trans hn)

theorem yields_eitherCopyout {tot : Nat} (h : dst.Takes m n) (hk : tot + bs.length ≤ n) :
    Yields m (eitherCopyout dst tot bs) s true := by
  cases dst with
  | kernel => rfl
  | user va =>
    change Except.ok ((copyin m ((va + tot) % 2 ^ 64) bs.length).2, s) = _
    rw [h tot _ hk]

theorem yields_bmap {bn : Nat} (hbn : bn < maxfile) (h0 : ip.ref s (slotOf bn) ≠ 0) :
    Yields m (bmap sb ip bn) s (ip.ref s (slotOf bn), ip) := by
  rw [bmap]
  rw [slotOf] at h0 ⊢
  split
  · rename_i hd
    rw [if_pos hd, Inode.ref] at h0
    rw [Inode.ref, bmapDirect, if_neg h0]
    rfl
  · rename_i hd
    have hj : bn - ndirect < nindirect := by
      rw [maxfile] at hbn
      omega
    rw [if_neg hd, Inode.ref] at h0
    have hind : ip.addr ndirect ≠ 0 := fun hz => h0 (by simp [hz])
    rw [if_pos ⟨hind, hj⟩] at h0
    rw [if_pos hj, Inode.ref, if_pos ⟨hind, hj⟩, bmapDirect, if_neg hind, pure_eq, ret_bind,
      yields_bread]
    dsimp only
    rw [if_neg h0]
    rfl

theorem Holds.piece (h : Holds s ip bs) (hk : k ≤ bsize - off % bsize)
    (hoff : off + k ≤ bs.length) :
    (List.range k).map (fun j => UInt8.ofNat
      ((s (ip.ref s (slotOf (off / bsize)))).byte (off % bsize + j))) = (bs.drop off).take k := by
  refine ext_getElem (by simp; omega) fun j h1 _ => ?_
  rw [length_map, length_range] at h1
  have hmod : off % bsize < bsize := mod_lt _ (by decide)
  obtain ⟨-, -, hb⟩ := h (off + j) (by omega)
  have hdiv : (off + j) / bsize = off / bsize := by
    rw [bsize] at *
    omega
  have hmod' : (off + j) % bsize = off % bsize + j := by
    rw [bsize] at *
    omega
  rw [hdiv, hmod'] at hb
  rw [getElem_map, getElem_range, hb, UInt8.ofNat_toNat, getElem_take,
    getElem_drop]

theorem yields_readiLoop (h : Holds s ip bs) (hdst : dst.Takes m n) (rounds : Nat) :
    ∀ {tot off : Nat} {acc : List UInt8}, tot ≤ n → n - tot ≤ rounds →
      off + (n - tot) ≤ bs.length →
      Yields m (readiLoop sb dst n rounds ip tot off acc) s
        (n, acc ++ (bs.drop off).take (n - tot), ip) := by
  induction rounds with
  | zero =>
    intro tot off acc htot hr _
    obtain rfl : tot = n := by omega
    rw [readiLoop, Nat.sub_self, take_zero, append_nil]
    exact yields_pure
  | succ rounds ih =>
    intro tot off acc htot hr hlen
    rw [readiLoop]
    split
    · rename_i hlt
      have hmod : off % bsize < bsize := mod_lt _ (by decide)
      obtain ⟨hbn, h0, -⟩ := h off (by omega)
      refine (yields_bmap hbn h0).bind ?_
      rw [yields_bread]
      generalize hk : min (n - tot) (bsize - off % bsize) = k
      refine (yields_eitherCopyout hdst (by rw [length_map, length_range]; omega)).bind ?_
      rw [yields_brelse, if_pos rfl, h.piece (by omega) (by omega)]
      -- what this round has read, and what the other rounds read
      have hsplit : (bs.drop off).take (n - tot) =
          (bs.drop off).take k ++ (bs.drop (off + k)).take (n - (tot + k)) := by
        rw [show n - tot = k + (n - (tot + k)) by omega, take_add, drop_drop]
      rw [hsplit, ← append_assoc]
      exact ih (by omega) (by omega) (by omega)
    · obtain rfl : tot = n := by omega
      rw [Nat.sub_self, take_zero, append_nil]
      exact yields_pure

/-- `readi` within a part of the file whose bytes are known. -/
theorem yields_readi_of_le (h : Holds s ip bs) (hs : bs.length ≤ ip.size) (h32 : ip.size < 2 ^ 32)
    (hdst : dst.Takes m n) (hn : off + n ≤ bs.length) :
    Yields m (readi sb ip dst off n) s (n, (bs.drop off).take n, ip) := by
  have hmod : (off + n) % 2 ^ 32 = off + n := mod_eq_of_lt (by omega)
  rw [readi, if_neg (by omega), if_neg (by omega)]
  exact yields_readiLoop h hdst n (zero_le n) (sub_le n 0) hn

/-- **What `readi` returns**, for every offset and length: the bytes of the file from there on, as
many as there are.  Offset and length together are a `uint`; if their sum is not, it returns 0. -/
theorem yields_readi (h : Holds s ip bs) (hs : bs.length = ip.size) (h32 : ip.size < 2 ^ 32)
    (hoff : off < 2 ^ 32) (hn : n < 2 ^ 32) (hdst : dst.Takes m n) :
    Yields m (readi sb ip dst off n) s
      (if off + n < 2 ^ 32 then (((bs.drop off).take n).length, (bs.drop off).take n, ip)
        else (0, [], ip)) := by
  by_cases hsum : off + n < 2 ^ 32
  · rw [if_pos hsum]
    by_cases hin : off ≤ ip.size
    · have hlen : ((bs.drop off).take n).length = min n (ip.size - off) := by
        rw [length_take, length_drop, hs]
      rw [hlen]
      by_cases hle : off + n ≤ ip.size
      · rw [min_eq_left (by omega)]
        exact yields_readi_of_le h hs.le h32 hdst (by omega)
      · have hmod : (off + n) % 2 ^ 32 = off + n := mod_eq_of_lt hsum
        have htake : (bs.drop off).take n = (bs.drop off).take (ip.size - off) := by
          rw [take_of_length_le (by rw [length_drop]; omega),
            take_of_length_le (by rw [length_drop]; omega)]
        rw [min_eq_right (by omega), readi, if_neg (by omega), if_pos (by omega), htake]
        exact yields_readiLoop h (hdst.mono (by omega)) _ (zero_le _) (sub_le _ 0)
          (by omega)
    · rw [readi, if_pos (.inl (by omega)), drop_of_length_le (by omega), take_nil]
      exact yields_pure
  · rw [if_neg hsum, readi, if_pos (.inr (by omega))]
    exact yields_pure

end Reading

/-! ## Looking a name up -/

theorem take_drop_flatten (h : ∀ b ∈ l, b.length = w) :
    ∀ {k : Nat} (hk : k < l.length), (l.flatten.drop (k * w)).take w = l[k] := by
  induction l with
  | nil => nofun
  | cons b l ih =>
    intro k hk
    have hb : b.length = w := h b (by simp)
    rw [flatten_cons]
    cases k with
    | zero => rw [zero_mul, drop_zero, ← hb, take_left, getElem_cons_zero]
    | succ k =>
      rw [succ_mul, add_comm, ← drop_drop, ← hb, drop_left, hb,
        ih (fun b hb => h b (mem_cons_of_mem _ hb)) (by simpa using hk),
        getElem_cons_succ]

theorem length_flatten_of_forall (h : ∀ b ∈ l, b.length = w) : l.flatten.length = l.length * w := by
  induction l with
  | nil => simp
  | cons b l ih =>
    rw [flatten_cons, length_append, h b (by simp), ih fun b hb => h b (by simp [hb]),
      length_cons, succ_mul, add_comm]

section Lookup

variable {sb : Superblock} {m : UserMem} {s : Disk} {name : List UInt8} {others : Nat → Nat}

theorem yields_ilockRead (ht : (dinode sb s i).type ≠ 0) :
    Yields m (ilockRead sb i) s (dinode sb s i) := by
  rw [ilockRead, yields_bread]
  rw [yields_brelse, if_neg]
  · exact yields_pure
  · exact ht

/-- `iunlockput` of an inode that has links or that somebody else uses. -/
theorem yields_iunlockput {ip : Inode} (h : ip.nlink ≠ 0 ∨ others ip.inum ≠ 0) :
    Yields m (iunlockput sb others ip) s () := by
  rw [iunlockput, if_neg fun hf => h.elim (· hf.2) (· hf.1)]
  exact yields_pure

theorem skipelem_single (hne : name ≠ []) (hs : 47 ∉ name) :
    skipelem (47 :: name) = some (name.take dirsiz, []) := by
  have hall : ∀ c ∈ name, decide (c ≠ 47) = true := fun c hc =>
    decide_eq_true fun h0 => hs (h0 ▸ hc)
  have hdrop : (47 :: name).dropWhile (· = 47) = name := by
    rw [dropWhile_cons_of_pos (by simp)]
    cases name with
    | nil => rfl
    | cons c cs =>
      have hc := hall c (by simp)
      exact dropWhile_cons_of_neg (by simpa using hc)
  rw [skipelem, hdrop]
  split
  · exact absurd rfl hne
  · rw [takeWhile_eq_self_iff.mpr hall, dropWhile_eq_nil_iff.mpr hall]
    rfl

/-- **What `namei("/name")` finds**: what `dirlookup` finds in the root directory. -/
theorem yields_namei {cwd : Nat} (hne : name ≠ []) (hs : 47 ∉ name)
    (ht : (dinode sb s rootIno).type = tDir) (hl : (dinode sb s rootIno).nlink ≠ 0)
    (hd : Yields m (dirlookup sb (dinode sb s rootIno) (name.take dirsiz)) s
      (some (i, off), dinode sb s rootIno)) :
    Yields m (namei sb others cwd (47 :: name)) s (some i) := by
  have hloop : Yields m
      (namexLoop sb others false ((47 :: name).length + 1) rootIno (47 :: name) [])
      s (some (i, name.take dirsiz)) := by
    rw [namexLoop, skipelem_single hne hs]
    refine (yields_ilockRead (by rw [ht]; decide)).bind ?_
    rw [if_neg (not_not.mpr ht), if_neg (by simp)]
    refine hd.bind ?_
    refine (yields_iunlockput (.inl hl)).bind ?_
    rw [length_cons, namexLoop]
    exact yields_pure
  exact hloop.bind yields_pure

end Lookup

end Xv6.Fs
