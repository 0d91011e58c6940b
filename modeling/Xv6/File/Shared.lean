import Xv6.File.Write
import Mathlib.Algebra.BigOperators.Group.Finset.Piecewise
import Mathlib.Algebra.Order.BigOperators.Group.Finset

/-!
# Writers that share an offset lose nothing

Each round of `filewrite` writes one chunk, with the inode locked: it takes the offset, puts its
bytes there and moves the offset behind them.  So the chunks of all writers stand in the file one
after the other, in the order in which they got the lock.

A *history* is a list of chunks, each with its writer.  `Appended` relates the shared state to the
history so far, and the invariant of the lock says moreover that what a writer has written and what
it still has to write is all of its chunks.  One round is `correct_writeChunk`; the loops are
inductions over the chunks that are left.  `shared_writes` is the result for a whole run.
-/

namespace Xv6.File

open Bio Fs Code Monitor Lts Lts.System List Option Nat Function

variable {rest : List (List UInt8)} {c : List UInt8} {ip : Inode}

/-! ## Chunks -/

/-- The bytes of a call, cut up as `filewrite` writes them. -/
def chunks : List UInt8 → List (List UInt8)
  | [] => []
  | b :: l => (b :: l).take maxWrite :: chunks ((b :: l).drop maxWrite)
termination_by l => l.length
decreasing_by
  have : 0 < maxWrite := by decide
  rw [length_drop, length_cons]
  omega

theorem chunks_nil : chunks [] = [] := by rw [chunks]

theorem chunks_of_ne {l : List UInt8} (h : l ≠ []) :
    chunks l = l.take maxWrite :: chunks (l.drop maxWrite) := by
  cases l with
  | nil => exact absurd rfl h
  | cons b l => rw [chunks]

theorem flatten_chunks (l : List UInt8) : (chunks l).flatten = l := by
  induction l using chunks.induct with
  | case1 => rw [chunks_nil, flatten_nil]
  | case2 b l ih => rw [chunks, flatten_cons, ih, take_append_drop]

/-- The bytes that a call is to write. -/
def Call.data (c : Call) : List UInt8 :=
  (List.range c.n.toNat).map fun j => (userByte c.mem ((c.addr + j) % 2 ^ 64)).getD 0

/-- All of them are mapped. -/
def Call.Mapped (c : Call) : Prop :=
  ∀ j < c.n.toNat, (userByte c.mem ((c.addr + j) % 2 ^ 64)).isSome

theorem Call.length_data (c : Call) : c.data.length = c.n.toNat := by
  rw [Call.data, length_map, length_range]

theorem Call.Mapped.buffer {c : Call} (h : c.Mapped) : UserBuffer c.mem c.addr c.data := by
  intro j hj
  obtain ⟨b, hb⟩ := isSome_iff_exists.mp (h j (by rwa [c.length_data] at hj))
  simp only [Call.data, getElem_map, getElem_range, hb, getD_some]

/-- The chunks of calls that are made one after the other. -/
def chunksOf (cs : List Call) : List (List UInt8) := cs.flatMap fun c => chunks c.data

/-! ## Histories -/

section History

variable {P : Type} [DecidableEq P]

/-- The chunks of one writer. -/
def ofWriter (p : P) (hist : List (P × List UInt8)) : List (List UInt8) :=
  (hist.filter fun x => decide (x.1 = p)).map (·.2)

/-- All bytes. -/
def bytes (hist : List (P × List UInt8)) : List UInt8 := hist.flatMap (·.2)

theorem ofWriter_append (p q : P) (hist : List (P × List UInt8)) (c : List UInt8) :
    ofWriter p (hist ++ [(q, c)]) = ofWriter p hist ++ if q = p then [c] else [] := by
  rw [ofWriter, ofWriter, filter_append, map_append]
  congr 1
  by_cases h : q = p
  · rw [if_pos h, filter_cons_of_pos (by simpa using h)]
    rfl
  · rw [if_neg h, filter_cons_of_neg (by simpa using h)]
    rfl

omit [DecidableEq P] in
theorem bytes_append (hist : List (P × List UInt8)) (p : P) (c : List UInt8) :
    bytes (hist ++ [(p, c)]) = bytes hist ++ c := by
  rw [bytes, bytes, flatMap_append, flatMap_singleton]

theorem sum_ofWriter [Fintype P] (hist : List (P × List UInt8)) :
    ∑ p, (ofWriter p hist).flatten.length = (bytes hist).length := by
  induction hist using List.reverseRecOn with
  | nil => simp [ofWriter, bytes]
  | append_singleton hist x ih =>
    obtain ⟨q, c⟩ := x
    have hstep : ∀ p, (ofWriter p (hist ++ [(q, c)])).flatten.length =
        (ofWriter p hist).flatten.length + if q = p then c.length else 0 := by
      intro p
      rw [ofWriter_append, flatten_append, length_append]
      split <;> simp
    rw [Finset.sum_congr rfl fun p _ => hstep p, Finset.sum_add_distrib, ih, bytes_append,
      length_append, Finset.sum_ite_eq, if_pos (Finset.mem_univ q)]

/-- There is room for what a writer still has to write. -/
theorem room [Fintype P] {hist : List (P × List UInt8)} {g all : P → List (List UInt8)}
    (h : ∀ p, ofWriter p hist ++ g p = all p) (p : P) :
    (bytes hist).length + (g p).flatten.length ≤ ∑ q, (all q).flatten.length := by
  have hall : ∀ q, (all q).flatten.length =
      (ofWriter q hist).flatten.length + (g q).flatten.length := fun q => by
    rw [← h q, flatten_append, length_append]
  rw [Finset.sum_congr rfl fun q _ => hall q, Finset.sum_add_distrib, sum_ofWriter]
  refine Nat.add_le_add_left ?_ _
  exact Finset.single_le_sum (f := fun q => (g q).flatten.length) (fun _ _ => Nat.zero_le _)
    (Finset.mem_univ p)

end History

/-! ## What the lock protects -/

/-- The inode of the file, as it is on disk. -/
def Shared.inode (x : Shared) (sb : Superblock) : Inode := dinode sb x.disk x.ip.inum

/-- Between two rounds: the copy of the inode is that on disk, and the writers have written this
history since `x₀`. -/
structure Appended {P : Type} (sb : Superblock) (x₀ x : Shared) (hist : List (P × List UInt8)) :
    Prop where
  own : Own sb x.disk (refs sb x.disk)
  inum : x.ip.inum = x₀.ip.inum
  valid : x.valid = true → x.inode sb = x.ip ∧ x.ip.type ≠ 0
  off : x.off = x₀.off + (bytes hist).length
  size : (x.inode sb).size = max x.off (x₀.inode sb).size
  bytes : (x.inode sb).byteAt x.disk = written ((x₀.inode sb).byteAt x₀.disk) x₀.off (bytes hist)

/-- The invariant of the lock. -/
def Invariant {P : Type} [DecidableEq P] (sb : Superblock) (x₀ : Shared)
    (all : P → List (List UInt8)) (x : Shared) (g : P → List (List UInt8)) : Prop :=
  ∃ hist, Appended sb x₀ x hist ∧ ∀ p, ofWriter p hist ++ g p = all p

/-- `begin_op` and `end_op` are called without the lock. -/
def Outside : Op → Prop
  | .block _ .beginOp | .block _ .endOp => True
  | _ => False

theorem act_outside (c : Op) (x : Shared) (r : c.Res) (x' : Shared) (h : Outside c)
    (hact : c.act x = some (r, x')) : x' = x := by
  cases c with
  | block m c =>
    cases c with
    | beginOp | endOp => exact (Prod.mk.inj (some.inj hact)).2.symm
    | _ => exact h.elim
  | _ => exact h.elim

section Rounds

variable {P : Type} [DecidableEq P] {sb : Superblock} {x₀ x : Shared}
  {all g : P → List (List UInt8)} {p : P} {m : UserMem} {α : Type}

/-- The code of the process `p`, from a place to another. -/
abbrev Does (sb : Superblock) (x₀ : Shared) (all : P → List (List UInt8)) (p : P) (c : W α)
    (md : Mode P Shared (List (List UInt8)))
    (Q : α → Mode P Shared (List (List UInt8)) → Prop) : Prop :=
  wp (spec Op.act Outside (Invariant sb x₀ all) p) c md Q

theorem Does.bind {β : Type} {c : W β} {f : β → W α} {md : Mode P Shared (List (List UInt8))}
    {R : β → Mode P Shared (List (List UInt8)) → Prop}
    {Q : α → Mode P Shared (List (List UInt8)) → Prop} (hc : Does sb x₀ all p c md R)
    (hf : ∀ a md', R a md' → Does sb x₀ all p (f a) md' Q) : Does sb x₀ all p (c >>= f) md Q :=
  wp_bind (monotone_spec _ _ _ p) (wp_mono (monotone_spec _ _ _ p) hf hc)

section Commands

variable {l : List (List UInt8)} {Q : α → Mode P Shared (List (List UInt8)) → Prop}

theorem does_acquire {k : Unit → W α} : Does sb x₀ all p (acquire >>= k) (.out l) Q ↔
    ∀ g x, Invariant sb x₀ all x g → g p = l → Does sb x₀ all p (k ()) (.inside g x) Q := Iff.rfl

theorem does_op {o : Op} {r : o.Res} {x' : Shared} {k : o.Res → W α}
    (h : o.act x = some (r, x')) : Does sb x₀ all p (op o >>= k) (.inside g x) Q ↔
      Does sb x₀ all p (k r) (.inside g x') Q := by
  refine ⟨fun hk => hk r x' h, fun hk r' x'' hact => ?_⟩
  obtain ⟨rfl, rfl⟩ := Prod.mk.inj (some.inj (h.symm.trans hact))
  exact hk

theorem does_getInode {k : Bool × Inode → W α} : Does sb x₀ all p (getInode >>= k) (.inside g x) Q ↔
      Does sb x₀ all p (k (x.valid, x.ip)) (.inside g x) Q := does_op rfl

theorem does_setInode {k : Unit → W α} :
    Does sb x₀ all p (setInode ip >>= k) (.inside g x) Q ↔
      Does sb x₀ all p (k ()) (.inside g { x with valid := true, ip := ip }) Q := does_op rfl

theorem does_getOff {k : Nat → W α} : Does sb x₀ all p (getOff >>= k) (.inside g x) Q ↔
    Does sb x₀ all p (k x.off) (.inside g x) Q := does_op rfl

theorem does_setOff {off : Nat} {k : Unit → W α} :
    Does sb x₀ all p (setOff off >>= k) (.inside g x) Q ↔
      Does sb x₀ all p (k ()) (.inside g { x with off := off }) Q := does_op rfl

end Commands

/-- Code of the block layer is run by the process that has the lock as if it were alone. -/
theorem does_blocks {c : K Nat α} {Q : α → Disk → Prop} (h : Runs m c x.disk Q) :
    Does sb x₀ all p (blocks m c) (.inside g x) fun a md =>
      ∃ d, md = .inside g { x with disk := d } ∧ Q a d := by
  refine wp_interp (monotone_spec _ _ _ p)
    (r := fun d md => md = Mode.inside g { x with disk := d }) ?_ rfl h
  rintro c d _ Q rfl hq r x' hact
  rw [specOf] at hq
  rw [Op.act] at hact
  split at hact
  · rename_i r' d' hans
    rw [hans] at hq
    cases hact
    exact ⟨d', rfl, hq⟩
  · cases hact

theorem runs_ilockRead {s : Disk} {i : Nat} :
    Runs m (ilockRead sb i) s fun ip s' => s' = s ∧ ip = dinode sb s i ∧ ip.type ≠ 0 := by
  rw [ilockRead, Runs, ends_bread]
  dsimp only
  rw [ends_brelse]
  split
  · exact .inr (.inr rfl)
  · exact ⟨rfl, rfl, ‹_›⟩

/-- `ilock` finds the invariant, and an inode that has been read. -/
theorem does_ilock {l : List (List UInt8)} : Does sb x₀ all p (ilock sb) (.out l) fun ip md =>
    ∃ g x, md = .inside g x ∧ Invariant sb x₀ all x g ∧ g p = l ∧ x.valid = true ∧ x.ip = ip := by
  rw [ilock, does_acquire]
  intro g x hJ hg
  rw [does_getInode]
  dsimp only
  split
  · rename_i hv
    exact ⟨g, x, rfl, hJ, hg, hv, rfl⟩
  · refine Does.bind (does_blocks runs_ilockRead) ?_
    rintro ip _ ⟨d, rfl, rfl, rfl, ht⟩
    rw [does_setInode]
    refine ⟨g, _, rfl, ?_, hg, rfl, rfl⟩
    obtain ⟨hist, hw, hall⟩ := hJ
    exact ⟨hist, ⟨hw.own, hw.inum, fun _ => ⟨rfl, ht⟩, hw.off, hw.size, hw.bytes⟩, hall⟩

end Rounds

/-! ## One round -/

/-- The file is open, the file system is sound, and there is room for `n` bytes. -/
structure Ready (sb : Superblock) (x₀ : Shared) (n : Nat) : Prop where
  layout : Layout sb
  sound : Sound sb x₀.disk
  inum : x₀.ip.inum < sb.ninodes
  valid : x₀.valid = true → x₀.inode sb = x₀.ip ∧ x₀.ip.type ≠ 0
  off : x₀.off ≤ (x₀.inode sb).size
  room : x₀.off + n ≤ maxfile * bsize

section Writers

variable {P : Type} [DecidableEq P] [Fintype P] {sb : Superblock} {x₀ x : Shared}
  {all g : P → List (List UInt8)} {p : P} {m : UserMem} {addr : Nat} {hist : List (P × List UInt8)}

omit [DecidableEq P] [Fintype P] in
theorem Appended.chunk (hw : Appended sb x₀ x hist) {d : Disk}
    (hs : Settled sb x.disk x.ip.inum d ip) (hi : ip.inum = x.ip.inum) (ht : ip.type ≠ 0)
    (hx : x.inode sb = x.ip) (hsize : ip.size = max (x.off + c.length) x.ip.size)
    (hbytes : ip.byteAt d = written (x.ip.byteAt x.disk) x.off c) :
    Appended sb x₀ ⟨d, true, ip, x.off + c.length⟩ (hist ++ [(p, c)]) := by
  have hd : Shared.inode ⟨d, true, ip, x.off + c.length⟩ sb = ip := by
    rw [Shared.inode, hi]
    exact hs.mine
  have hold := hw.size
  have hoff := hw.off
  refine ⟨hs.own, hi.trans hw.inum, fun _ => ⟨hd, ht⟩, ?_, ?_, ?_⟩
  · rw [bytes_append, length_append]
    dsimp only
    omega
  · rw [hd, hsize, ← hx, hold]
    dsimp only
    omega
  · rw [hd, hbytes, ← hx, hw.bytes, hoff, written_append, bytes_append]

omit [Fintype P] in
theorem ofWriter_chunk (h : ∀ q, ofWriter q hist ++ g q = all q) (hg : g p = c :: rest) (q : P) :
    ofWriter q (hist ++ [(p, c)]) ++ update g p rest q = all q := by
  rw [ofWriter_append, ← h q]
  by_cases hq : p = q
  · subst hq
    rw [if_pos rfl, update_self, hg, append_assoc, singleton_append]
  · rw [if_neg hq, update_of_ne (Ne.symm hq), append_nil]

/-- **One round of `filewrite`** writes the next chunk. -/
theorem does_writeChunk (h : Ready sb x₀ (∑ q, (all q).flatten.length)) (hc : UserBuffer m addr c)
    (hne : c ≠ []) :
    Does sb x₀ all p (writeChunk sb m addr c.length) (.out (c :: rest)) fun r md =>
      r = some c.length ∧ md = .out rest := by
  rw [writeChunk]
  refine does_ilock.bind ?_
  rintro _ _ ⟨g, x, rfl, ⟨hist, hw, hall⟩, hg, hv, rfl⟩
  rw [does_getOff]
  obtain ⟨hd, ht⟩ := hw.valid hv
  have hn : x.ip.inum < sb.ninodes := hw.inum ▸ h.inum
  -- there is room for the chunk
  have hroom := room hall p
  rw [hg, flatten_cons, length_append] at hroom
  have hmax := h.room
  have hoff := hw.off
  have hsize := hw.size
  rw [hd] at hsize
  have hbig : maxfile * bsize < 2 ^ 32 := by decide
  refine (does_blocks (runs_writei h.layout hw.own hd hn ht)).bind ?_
  rintro ⟨r, ip⟩ _ ⟨d, rfl, hset, -, hip, -, harrive⟩
  obtain ⟨hr, hsz, hby⟩ := harrive c hc rfl (by omega) (by omega)
  dsimp only at hset hip hr hsz hby ⊢
  subst hr
  have hpos : 0 < c.length := length_pos_iff.mpr hne
  have hmod : (x.off + c.length) % 2 ^ 32 = x.off + c.length := mod_eq_of_lt (by omega)
  rw [does_setInode, getD_some, if_pos hpos, hmod, does_setOff]
  exact ⟨rest, ⟨hist ++ [(p, c)], hw.chunk hset (by rw [hip]) (by rw [hip]; exact ht) hd hsz hby,
    ofWriter_chunk hall hg⟩, rfl, rfl⟩

/-! ## Whole calls -/

/-- The loop of `filewrite`: the chunks of what is left are written. -/
theorem does_filewriteLoop (h : Ready sb x₀ (∑ q, (all q).flatten.length)) {data : List UInt8}
    (hdata : UserBuffer m addr data) (rounds : Nat) :
    ∀ {i : Nat}, i ≤ data.length → data.length - i ≤ rounds →
      Does sb x₀ all p (filewriteLoop sb m addr data.length rounds i)
        (.out (chunks (data.drop i) ++ rest)) fun a md => a = data.length ∧ md = .out rest := by
  induction rounds with
  | zero =>
    intro i hi hr
    rw [drop_of_length_le (by omega), chunks_nil]
    exact ⟨by omega, rfl⟩
  | succ rounds ih =>
    intro i hi hr
    rw [filewriteLoop]
    split
    · rename_i hlt
      have hne : data.drop i ≠ [] := by
        rw [ne_eq, drop_eq_nil_iff]
        omega
      have hlen : ((data.drop i).take maxWrite).length = min (data.length - i) maxWrite := by
        rw [length_take, length_drop, min_comm]
      have hpos : 0 < maxWrite := by decide
      have hne' : (data.drop i).take maxWrite ≠ [] := by
        rw [← length_pos_iff, hlen]
        omega
      refine ⟨trivial, fun _ => ?_⟩
      rw [chunks_of_ne hne, cons_append, ← hlen]
      refine (does_writeChunk h ((hdata.drop i).take maxWrite) hne').bind ?_
      rintro _ _ ⟨rfl, rfl⟩
      refine ⟨trivial, fun _ => ?_⟩
      dsimp only
      rw [if_neg (not_not.mpr rfl), drop_drop]
      -- a last chunk may be shorter than the others
      have hnext : chunks (data.drop (i + maxWrite)) =
          chunks (data.drop (i + ((data.drop i).take maxWrite).length)) := by
        rw [hlen]
        rcases le_total (data.length - i) maxWrite with hle | hle
        · rw [min_eq_left hle, drop_of_length_le (by omega),
            drop_of_length_le (by omega)]
        · rw [min_eq_right hle]
      rw [hnext]
      exact ih (by omega) (by omega)
    · rw [drop_of_length_le (by omega), chunks_nil]
      exact ⟨by omega, rfl⟩

/-- What `filewrite` returns when everything has been written. -/
def Call.result (c : Call) : Int := if 0 ≤ c.n then c.n else -1

theorem does_filewrite (h : Ready sb x₀ (∑ q, (all q).flatten.length)) {c : Call} (hc : c.Mapped) :
    Does sb x₀ all p (filewrite sb true c) (.out (chunks c.data ++ rest)) fun a md =>
      a = c.result ∧ md = .out rest := by
  have hloop : Does sb x₀ all p (filewriteLoop sb c.mem c.addr c.data.length c.data.length 0)
      (.out (chunks (c.data.drop 0) ++ rest)) _ :=
    does_filewriteLoop h hc.buffer _ (zero_le _) (sub_le ..)
  rw [drop_zero, c.length_data] at hloop
  rw [filewrite, if_neg nofun]
  refine hloop.bind ?_
  rintro _ _ ⟨rfl, rfl⟩
  refine ⟨?_, rfl⟩
  rw [Call.result]
  by_cases hn : 0 ≤ c.n
  · rw [if_pos hn, if_pos (Int.toNat_of_nonneg hn)]
  · rw [if_neg hn, if_neg (by omega)]

theorem does_writeAll (h : Ready sb x₀ (∑ q, (all q).flatten.length)) {cs : List Call} :
    (∀ c ∈ cs, c.Mapped) →
    Does sb x₀ all p (writeAll sb true cs) (.out (chunksOf cs))
      (returns fun rs l => rs = cs.map Call.result ∧ l = []) := by
  induction cs with
  | nil => exact fun _ => ⟨rfl, rfl⟩
  | cons c cs ih =>
    intro hc
    rw [writeAll, chunksOf, flatMap_cons]
    refine (does_filewrite h (hc c (by simp))).bind ?_
    rintro _ _ ⟨rfl, rfl⟩
    refine (ih fun c' hc' => hc c' (mem_cons_of_mem _ hc')).bind ?_
    rintro rs md hmd
    cases md with
    | out l =>
      obtain ⟨rfl, rfl⟩ := hmd
      exact ⟨rfl, rfl⟩
    | inside g x => exact hmd.elim

end Writers

/-! ## All calls -/

/-- The number of bytes that all calls are to write. -/
def total {P : Type} [Fintype P] (calls : P → List Call) : Nat :=
  ∑ p, ((calls p).map fun c => c.n.toNat).sum

theorem length_chunksOf (cs : List Call) :
    (chunksOf cs).flatten.length = (cs.map fun c => c.n.toNat).sum := by
  induction cs with
  | nil => rfl
  | cons c cs ih =>
    rw [chunksOf, flatMap_cons, flatten_append, length_append, flatten_chunks,
      c.length_data, map_cons, sum_cons, ← ih, chunksOf]

/-- **Writers sharing an offset lose nothing.**  When all calls have returned, each has returned the
number of bytes it was given; the file is as before, except that from the initial offset on it has
the chunks of all writers, one after the other, those of each writer in the order of its calls; and
the offset has moved by the number of all bytes. -/
theorem shared_writes {P : Type} [DecidableEq P] [Fintype P] {sb : Superblock} {x₀ : Shared}
    {calls : P → List Call} (h : Ready sb x₀ (total calls)) (hm : ∀ p, ∀ c ∈ calls p, c.Mapped)
    {s : State P Shared Op Op.Res (List Int)} (hr : (writers sb true x₀ calls).Reach Any s)
    {rs : P → List Int} (hret : ∀ p, s.code p = .ret (rs p)) :
    (∀ p, rs p = (calls p).map Call.result) ∧ s.shared.off = x₀.off + total calls ∧
    ∃ hist : List (P × List UInt8), (∀ p, ofWriter p hist = chunksOf (calls p)) ∧
      (s.shared.inode sb).bytes s.shared.disk =
        ((x₀.inode sb).bytes x₀.disk).take x₀.off ++ bytes hist ++
          ((x₀.inode sb).bytes x₀.disk).drop (x₀.off + (bytes hist).length) := by
  have htotal : ∑ p, (chunksOf (calls p)).flatten.length = total calls :=
    Finset.sum_congr rfl fun p _ => length_chunksOf (calls p)
  have h' : Ready sb x₀ (∑ p, (chunksOf (calls p)).flatten.length) := htotal ▸ h
  have hstart : Invariant sb x₀ (fun p => chunksOf (calls p)) x₀ fun p => chunksOf (calls p) := by
    refine ⟨[], ⟨h.sound.own, rfl, h.valid, rfl, (max_eq_right h.off).symm, ?_⟩, fun _ => rfl⟩
    exact (written_nil ..).symm
  obtain ⟨g, hg⟩ := Monitor.Holds.of_reach act_outside hstart
    (fun p => does_writeAll (p := p) h' (hm p)) hr
  obtain ⟨⟨hist, hw, hall⟩, hpost⟩ := hg.returned hret
  have hhist : ∀ p, ofWriter p hist = chunksOf (calls p) := fun p => by
    have := hall p
    rwa [(hpost p).2, append_nil] at this
  have hlen : (bytes hist).length = total calls := by
    rw [← sum_ofWriter, ← htotal]
    exact Finset.sum_congr rfl fun p _ => by rw [hhist p]
  refine ⟨fun p => (hpost p).1, hlen ▸ hw.off, hist, hhist, ?_⟩
  exact Inode.bytes_of_written h.off (hw.off ▸ hw.size) hw.bytes

/-- The file of an entry in the inode cache. -/
def openFile (fs : FsState) (e : Fin ninode) (off : Nat) : Shared :=
  ⟨fs.disk, (fs.icache e).valid, (fs.icache e).ip, off⟩

/-- Every file that is open is ready, if its offset does not lie beyond its end. -/
theorem ready_openFile {sb : Superblock} (hl : Layout sb) {fs : FsState}
    (hr : (inodeLayer sb fun d => Sound sb d ∧ Full sb d).Reach Any fs) {e : Fin ninode}
    (he : 0 < (fs.icache e).ref) {off n : Nat} (hoff : off ≤ ((openFile fs e off).inode sb).size)
    (hn : off + n ≤ maxfile * bsize) : Ready sb (openFile fs e off) n := by
  have hg := Good.of_full hl hr
  exact ⟨hl, hg.own.sound, hg.inum e he, fun hv => hg.cached e ⟨he, hv⟩, hoff, hn⟩

/-- Two processes write two bytes each. -/
def twoCalls (_ : Bool) : List Call := [⟨onePage, 0, 2⟩]

/-- The second waits for the first. -/
def twoWriters : List Bool := false :: List.replicate 24 true ++ List.replicate 15 false

/-- `open` with `O_CREATE`. -/
def createFile : List Fs.Op := [.ialloc 2, .ilock entry0, .iupdate entry0 0 0 1]

theorem twoCalls_mapped (p : Bool) (c : Call) (hc : c ∈ twoCalls p) : c.Mapped := by
  obtain rfl := mem_singleton.mp hc
  change ∀ j < 2, (userByte onePage ((0 + j) % 2 ^ 64)).isSome
  decide

theorem shared_writes_two : ∃ x₀, Ready mkfsSuper x₀ (total twoCalls) ∧
    ∃ s, (writers mkfsSuper true x₀ twoCalls).Reach Any s ∧ (∀ p, s.code p = .ret [2]) ∧
      s.shared.off = 4 ∧ ∃ hist, (∀ p, ofWriter p hist = chunksOf (twoCalls p)) ∧
        (s.shared.inode mkfsSuper).bytes s.shared.disk = bytes hist := by
  obtain ⟨fs, hreach, href, hsize, hex⟩ : ∃ fs : FsState,
      (inodeLayer mkfsSuper fun d => Sound mkfsSuper d ∧ Full mkfsSuper d).Reach Any fs ∧
        0 < (fs.icache entry0).ref ∧ ((openFile fs entry0 0).inode mkfsSuper).size = 0 ∧
        ((writers mkfsSuper true (openFile fs entry0 0) twoCalls).exec
          ⟨none, openFile fs entry0 0, fun p => writeAll mkfsSuper true (twoCalls p)⟩
          twoWriters).any fun s => decide (∀ p, (s.code p).value = some [2]) :=
    (Reach.init (init_booted ⟨sound_noFiles, full_noFiles⟩)).replay createFile (by decide +kernel)
  obtain ⟨s, hs, hval⟩ := (Option.any_eq_true ..).mp hex
  have hret : ∀ p, s.code p = .ret [2] := fun p => eq_ret_of_value (of_decide_eq_true hval p)
  have hready : Ready mkfsSuper (openFile fs entry0 0) (total twoCalls) :=
    ready_openFile mkfsSuper_layout hreach href (zero_le _) (by decide)
  have hwrites := reach_of_exec (M := writers mkfsSuper true (openFile fs entry0 0) twoCalls)
    (.init rfl) hs
  obtain ⟨-, hoff, hist, hhist, hbytes⟩ := shared_writes hready twoCalls_mapped hwrites hret
  refine ⟨_, hready, s, hwrites, hret, hoff, hist, hhist, ?_⟩
  have hempty : ((openFile fs entry0 0).inode mkfsSuper).bytes fs.disk = [] := by
    rw [Inode.bytes, hsize]
    rfl
  rw [hbytes]
  change (Inode.bytes _ fs.disk).take 0 ++ bytes hist ++ (Inode.bytes _ fs.disk).drop _ = _
  rw [hempty, take_nil, nil_append, drop_nil, append_nil]

/-- A byte has been written through one descriptor, and the file has been truncated through another
one. -/
def writeAndTruncate : List Fs.Op :=
  createFile ++ [.writei entry0 onePage (.user 0) 0 1, .itrunc entry0]

/-- The offset of the first descriptor lies beyond the end of the file then, and `filewrite` fails.
-/
theorem write_beyond_end : ∃ fs : FsState,
    (inodeLayer mkfsSuper fun d => Sound mkfsSuper d ∧ Full mkfsSuper d).Reach Any fs ∧
    0 < (fs.icache entry0).ref ∧
    ∃ s, (writers mkfsSuper true (openFile fs entry0 1) fun _ : Unit =>
      [⟨onePage, 0, 2⟩]).Reach Any s ∧
      (∀ p, s.code p = .ret [-1]) ∧ s.shared.off = 1 ∧
      (s.shared.inode mkfsSuper).bytes s.shared.disk = [] := by
  obtain ⟨fs, hreach, href, hex⟩ : ∃ fs : FsState,
      (inodeLayer mkfsSuper fun d => Sound mkfsSuper d ∧ Full mkfsSuper d).Reach Any fs ∧
        0 < (fs.icache entry0).ref ∧
        ((writers mkfsSuper true (openFile fs entry0 1) fun _ : Unit => [⟨onePage, 0, 2⟩]).exec
          ⟨none, openFile fs entry0 1, fun _ => writeAll mkfsSuper true [⟨onePage, 0, 2⟩]⟩
          (List.replicate 7 ())).any fun s => decide ((s.code ()).value = some [-1] ∧
            s.shared.off = 1 ∧ (s.shared.inode mkfsSuper).bytes s.shared.disk = []) :=
    (Reach.init (init_booted ⟨sound_noFiles, full_noFiles⟩)).replay writeAndTruncate
      (by decide +kernel)
  obtain ⟨s, hs, hval⟩ := (Option.any_eq_true ..).mp hex
  obtain ⟨hret, hoff, hbytes⟩ := of_decide_eq_true hval
  exact ⟨fs, hreach, href, s, reach_of_exec (.init rfl) hs, fun _ => eq_ret_of_value hret,
    hoff, hbytes⟩

end Xv6.File
