import Mathlib.Order.Interval.Finset.Nat
import Xv6.Fs.Room

/-!
# The blocks that a transaction logs

`logged` is the list of the blocks that code passes to `log_write`, up to where it returns or
panics.  A transaction may log `MAXOPBLOCKS` different ones.

`bmap` logs, for each slot that it fills, the new block and the block of the free map with its bit,
and it logs the indirect block if it stores to it.  A round of `writei` logs the block it writes to.
`exists_logged_writeiLoop` puts that together for the whole loop, in terms of the slots that the
write looks at; how many that are is a question about numbers.
-/

namespace Xv6.Fs

open Bio Code List
open Function (update)

/-! ## The trace -/

/-- The block that a command logs. -/
def Logs : Cmd Nat → List Nat
  | .logWrite b => [b]
  | _ => []

/-- The blocks that code logs when it is run from `s`. -/
def logged {α : Type} (m : UserMem) : K Nat α → Disk → List Nat
  | .ret _, _ => []
  | .cmd c k, s =>
    match answer m c s with
    | .ok (r, s') => Logs c ++ logged m (k r) s'
    | .error _ => Logs c

section Logged

variable {α β : Type} {m : UserMem} {s s' : Disk} {b : Nat} {c : K Nat β} {f : β → K Nat α}

@[simp] theorem logged_pure (a : α) : logged m (pure a) s = [] := rfl

theorem logged_bind_ok {a : β} :
    ∀ {s : Disk}, exec (answer m) c s = .ok (a, s') →
      logged m (c >>= f) s = logged m c s ++ logged m (f a) s' := by
  induction c with
  | ret x =>
    intro s h
    cases h
    rfl
  | cmd c k ih =>
    intro s h
    rw [exec] at h
    rw [cmd_bind, logged, logged]
    cases hc : answer m c s with
    | ok r =>
      rw [hc] at h
      dsimp only at h ⊢
      rw [ih r.1 h, append_assoc]
    | error e =>
      simp [hc] at h

theorem logged_bind_error {e : Panic} :
    ∀ {s : Disk}, exec (answer m) c s = .error e → logged m (c >>= f) s = logged m c s := by
  induction c with
  | ret x => exact fun h => nomatch h
  | cmd c k ih =>
    intro s h
    rw [exec] at h
    rw [cmd_bind, logged, logged]
    cases hc : answer m c s with
    | ok r =>
      rw [hc] at h
      dsimp only at h ⊢
      rw [ih r.1 h]
    | error e => rfl

theorem logged_bread {k : Nat × Block → K Nat α} :
    logged m (bread b >>= k) s = logged m (k (b, s b)) s := rfl

theorem logged_logWrite {k : Unit → K Nat α} :
    logged m (logWrite b >>= k) s = b :: logged m (k ()) s := rfl

theorem logged_brelse {k : Unit → K Nat α} : logged m (brelse b >>= k) s = logged m (k ()) s := rfl

/-- The copy stores to the buffer, whatever comes of it. -/
theorem logged_eitherCopyin {d : Block} {off tot n : Nat} {src : Src} {k : Bool → K Nat α}
    {P : List Nat → Prop} (h : ∀ v ok, P (logged m (k ok) (update s b v))) :
    P (logged m (eitherCopyin b d off src tot n >>= k) s) := by
  cases src with
  | user va | kernel bytes => exact h _ _

end Logged

/-! ## `balloc` and `bmap` -/

section Bmap

variable {sb : Superblock} {m : UserMem} {s s' : Disk} {ip : Inode} {b bn : Nat}

/-- **What `balloc` logs**: the block of the free map and the new block, if it finds one. -/
theorem logged_balloc : logged m (balloc sb) s = match exec (answer m) (balloc sb) s with
    | .ok (b, _) => [bblock sb b, b]
    | .error _ => [] := by
  rw [balloc]
  induction List.range ((sb.size + bpb - 1) / bpb) with
  | nil => rfl
  | cons k ks ih =>
    rw [map_cons, ballocFrom]
    change logged m (ballocRound sb (bblock sb (k * bpb)) (s (bblock sb (k * bpb))) (k * bpb) _) s =
      match exec (answer m)
        (ballocRound sb (bblock sb (k * bpb)) (s (bblock sb (k * bpb))) (k * bpb) _) s
        with
      | .ok (b, _) => [bblock sb b, b]
      | .error _ => []
    rw [ballocRound]
    split
    · rename_i bi hf
      change _ = [bblock sb (k * bpb + bi), k * bpb + bi]
      rw [bblock_add (freeBit_spec hf).1]
      rfl
    · exact ih

/-- `R` has the blocks of the file, and maybe more. -/
def Inode.Within (ip : Inode) (s : Disk) (R : Slot → Nat) : Prop :=
  ∀ x, ip.ref s x ≠ 0 → R x = ip.ref s x

/-- What `bmap` may log for the `bn`-th block: blocks of the file, and blocks of the free map for
the slots it has filled. -/
def BmapLogs (sb : Superblock) (s : Disk) (ip : Inode) (bn : Nat) (R : Slot → Nat) (c : Nat) :
    Prop :=
  ∃ x ∈ slotsOf bn, c = R x ∨ ip.ref s x = 0 ∧ c = bblock sb (R x)

theorem Inode.Within.refl (ip : Inode) (s : Disk) : ip.Within s (ip.ref s) := fun _ _ => rfl

/-- `bmapDirect` logs what `balloc` logs, if it calls it. -/
theorem exists_logged_bmapDirect (sb : Superblock) (m : UserMem) (s : Disk) (ip : Inode)
    (hbn : bn ≤ ndirect) : ∃ b,
    (∀ c ∈ logged m (bmapDirect sb ip bn) s, ip.addr bn = 0 ∧ (c = b ∨ c = bblock sb b)) ∧
    (ip.addr bn ≠ 0 → b = ip.addr bn) ∧
    ∀ r s', exec (answer m) (bmapDirect sb ip bn) s = .ok (r, s') → r.2.addr bn = b := by
  rw [bmapDirect]
  split
  · rename_i h0
    cases hb : exec (answer m) (balloc sb) s with
    | error e =>
      refine ⟨0, fun c hc => ?_, fun h => absurd h0 h, fun r s' hr => ?_⟩
      · rw [logged_bind_error hb, logged_balloc, hb] at hc
        cases hc
      · rw [exec_bind, hb] at hr
        cases hr
    | ok r =>
      refine ⟨r.1, fun c hc => ⟨h0, ?_⟩, fun h => absurd h0 h, fun r' s' hr => ?_⟩
      · rw [logged_bind_ok hb, logged_balloc, hb, logged_pure, append_nil] at hc
        simpa [or_comm] using hc
      · rw [exec_bind, hb] at hr
        cases hr
        exact (Inode.addr_setAddr hbn).trans (if_pos rfl)
  · refine ⟨ip.addr bn, by rintro _ ⟨⟩, fun _ => rfl, fun r s' hr => ?_⟩
    cases hr
    rfl

/-- The second half of `bmap` for a block that is found through the indirect block `ind`. -/
def bmapEntry (sb : Superblock) (j ind : Nat) (ip : Inode) : K Nat (Nat × Inode) := do
  let (bp, a) ← bread ind
  if entry a j = 0 then
    let addr ← balloc sb
    store bp (setEntry a j addr)
    logWrite bp
    brelse bp
    pure (addr, ip)
  else
    brelse bp
    pure (entry a j, ip)

theorem bmap_indirect (hd : ¬ bn < ndirect) (hbn : bn < maxfile) : bmap sb ip bn =
    bmapDirect sb ip ndirect >>= fun r => bmapEntry sb (bn - ndirect) r.1 r.2 := by
  rw [bmap, if_neg hd, if_pos (by rw [maxfile] at hbn; omega)]
  rfl

/-- It logs what `balloc` logs, and the indirect block. -/
theorem exists_logged_bmapEntry (hl : Layout sb) (h : Busy sb s ip) {j ind : Nat}
    (hj : j < nindirect)
    (hind : ind = ip.addr ndirect) (h0 : ind ≠ 0) : ∃ b,
    (∀ c ∈ logged m (bmapEntry sb j ind ip) s,
      ip.ref s (.ent j) = 0 ∧ (c = b ∨ c = bblock sb b) ∨ c = ind) ∧
    (ip.ref s (.ent j) ≠ 0 → b = ip.ref s (.ent j)) ∧
    ∀ r s', exec (answer m) (bmapEntry sb j ind ip) s = .ok (r, s') →
      r.2 = ip ∧ ip.ref s' (.ent j) = b := by
  have href : ip.ref s (.ent j) = entry (s ind) j := by
    rw [hind] at h0 ⊢
    exact if_pos ⟨h0, hj⟩
  rw [bmapEntry, logged_bread]
  change ∃ b, (∀ c ∈ logged m (if entry (s ind) j = 0 then _ else _) s, _) ∧ _ ∧
    ∀ r s', exec (answer m) (if entry (s ind) j = 0 then _ else _) s = _ → _
  split
  · rename_i he
    cases hb : exec (answer m) (balloc sb) s with
    | error e =>
      refine ⟨0, fun c hc => ?_, fun h => absurd (href.trans he) h, fun r s' hr => ?_⟩
      · rw [logged_bind_error hb, logged_balloc, hb] at hc
        nomatch hc
      · rw [exec_bind, hb] at hr
        nomatch hr
    | ok r =>
      obtain ⟨b, s1⟩ := r
      obtain ⟨hlt, hf, rfl⟩ := Ends.of_ok runs_balloc hb
      refine ⟨b, fun c hc => ?_, fun h => absurd (href.trans he) h, fun r' s' hr => ?_⟩
      · rw [logged_bind_ok hb, logged_balloc, hb] at hc
        change c ∈ [bblock sb b, b] ++ [ind] at hc
        simp only [cons_append, nil_append, mem_cons, not_mem_nil, or_false] at hc
        rcases hc with rfl | rfl | rfl
        · exact .inl ⟨href.trans he, .inr rfl⟩
        · exact .inl ⟨href.trans he, .inl rfl⟩
        · exact .inr rfl
      · rw [exec_bind, hb] at hr
        cases hr
        subst hind
        obtain ⟨hext, hset⟩ := Extends.setEntry hl h hlt hf hj h0 he
        rw [hext.busy.ref] at hset
        exact ⟨rfl, hset⟩
  · refine ⟨entry (s ind) j, nofun, fun _ => href.symm, ?_⟩
    intro r s' hr
    cases hr
    exact ⟨rfl, href⟩

theorem Inode.Within.update {R : Slot → Nat} {x : Slot} (h : ip.Within s R)
    (hb : ip.ref s x ≠ 0 → b = ip.ref s x) : ip.Within s (update R x b) := by
  intro y hy
  by_cases he : y = x
  · subst he
    rw [Function.update_self]
    exact hb hy
  · rw [Function.update_of_ne he]
    exact h y hy

/-- **What `bmap` logs.**  `R` are the blocks of the file when it returns; if it panics, those that
it has got so far. -/
theorem exists_logged_bmap (hl : Layout sb) (h : Busy sb s ip) (hbn : bn < maxfile) : ∃ R,
    ip.Within s R ∧ (∀ c ∈ logged m (bmap sb ip bn) s, BmapLogs sb s ip bn R c) ∧
    ∀ r s', exec (answer m) (bmap sb ip bn) s = .ok (r, s') →
      ∀ x ∈ slotsOf bn, R x = r.2.ref s' x := by
  by_cases hd : bn < ndirect
  · obtain ⟨b, hlog, hold, hres⟩ := exists_logged_bmapDirect sb m s ip hd.le
    have hslots : slotsOf bn = {.addr bn} := if_pos hd
    refine ⟨update (ip.ref s) (.addr bn) b, (Inode.Within.refl ip s).update hold, ?_, ?_⟩
    · rw [bmap, if_pos hd]
      intro c hc
      obtain ⟨h0, hcb⟩ := hlog c hc
      refine ⟨.addr bn, by rw [hslots]; exact Finset.mem_singleton_self _, ?_⟩
      rw [Function.update_self]
      exact hcb.imp id fun he => ⟨h0, he⟩
    · rw [bmap, if_pos hd, hslots]
      intro r s' hr x hx
      obtain rfl := Finset.mem_singleton.mp hx
      rw [Function.update_self]
      exact (hres r s' hr).symm
  · have hj : bn - ndirect < nindirect := by
      rw [maxfile] at hbn
      omega
    have hslots : slotsOf bn = {.addr ndirect, .ent (bn - ndirect)} := if_neg hd
    obtain ⟨i, hlog, hold, hres⟩ := exists_logged_bmapDirect sb m s ip (le_refl ndirect)
    have hin := (Inode.Within.refl ip s).update (x := .addr ndirect) hold
    -- what the first half logs
    have hfirst : ∀ {R : Slot → Nat}, R (.addr ndirect) = i →
        ∀ c ∈ logged m (bmapDirect sb ip ndirect) s, BmapLogs sb s ip bn R c := by
      intro R hR c hc
      obtain ⟨h0, hcb⟩ := hlog c hc
      refine ⟨.addr ndirect, by rw [hslots]; exact Finset.mem_insert_self .., ?_⟩
      rw [hR]
      exact hcb.imp id fun he => ⟨h0, he⟩
    rw [bmap_indirect hd hbn]
    cases hx : exec (answer m) (bmapDirect sb ip ndirect) s with
    | error e =>
      refine ⟨_, hin, ?_, fun r s' hr => ?_⟩
      · rw [logged_bind_error hx]
        exact hfirst (Function.update_self ..)
      · rw [exec_bind, hx] at hr
        cases hr
    | ok r =>
      obtain ⟨⟨ind, ip1⟩, s1⟩ := r
      obtain ⟨he, hind, h0, -⟩ := Ends.of_ok (runs_bmapDirect hl h le_rfl) hx
      dsimp only at he hind h0
      obtain ⟨b, hlog', hold', hres'⟩ := exists_logged_bmapEntry (m := m) hl he.busy hj hind h0
      have hi : ind = i := hind.trans (hres _ _ hx)
      have hne : (Slot.addr ndirect) ≠ .ent (bn - ndirect) := by simp
      have hRi : update (update (ip.ref s) (.addr ndirect) i)
          (.ent (bn - ndirect)) b (.addr ndirect) = i := by
        rw [Function.update_of_ne hne, Function.update_self]
      refine ⟨_, hin.update (x := .ent (bn - ndirect)) (b := b) fun hent => ?_, fun c hc => ?_,
        fun r s' hr x hxs => ?_⟩
      · have hk := he.ref_eq h hent
        rw [← hk]
        exact hold' (by rwa [hk])
      · rw [logged_bind_ok hx, mem_append] at hc
        rcases hc with hc | hc
        · exact hfirst hRi c hc
        · rcases hlog' c hc with ⟨hz, hcb⟩ | hc
          · refine ⟨.ent (bn - ndirect), by rw [hslots]; simp, ?_⟩
            rw [Function.update_self]
            exact hcb.imp id fun hb => ⟨he.ref_eq_zero h hz, hb⟩
          · refine ⟨.addr ndirect, by rw [hslots]; simp, .inl ?_⟩
            rw [hRi, hc, hi]
      · rw [exec_bind, hx] at hr
        obtain ⟨hr2, hrb⟩ := hres' r s' hr
        rw [hslots, Finset.mem_insert, Finset.mem_singleton] at hxs
        rw [hr2]
        rcases hxs with rfl | rfl
        · rw [hRi, ← hi, hind]
          rfl
        · rw [Function.update_self, hrb]

end Bmap

/-! ## `writei` -/

/-- What a write of `n` bytes at `off` may log but for the inode. -/
def WriteLogs (sb : Superblock) (s : Disk) (ip : Inode) (off n : Nat) (R : Slot → Nat) (c : Nat) :
    Prop :=
  (∃ bn ∈ blocksOf off n, ∃ x ∈ slotsOf bn, c = R x) ∨ ∃ x ∈ missing s ip off n, c = bblock sb (R x)

section Writei

variable {sb : Superblock} {m : UserMem} {s s' : Disk} {ip ip' : Inode} {src : Src}
  {off n k bn : Nat}
  {R R' : Slot → Nat}

theorem BmapLogs.write (hbn : bn ∈ blocksOf off n) {c : Nat} (h : BmapLogs sb s ip bn R c)
    (hR : ∀ x ∈ slotsOf bn, R x = R' x) : WriteLogs sb s ip off n R' c := by
  obtain ⟨x, hx, rfl | ⟨h0, rfl⟩⟩ := h
  · exact .inl ⟨bn, hbn, x, hx, hR x hx⟩
  · exact .inr ⟨x, filter_slotsOf_subset hbn (Finset.mem_filter.mpr ⟨hx, h0⟩), by rw [hR x hx]⟩

theorem WriteLogs.of_rest (hk : k ≤ n) (hkeep : ∀ x, ip'.ref s' x = 0 → ip.ref s x = 0) {c : Nat}
    (h : WriteLogs sb s' ip' (off + k) (n - k) R c) : WriteLogs sb s ip off n R c := by
  rcases h with ⟨bn, hbn, hx⟩ | ⟨x, hx, hc⟩
  · exact .inl ⟨bn, blocksOf_subset hk hbn, hx⟩
  · refine .inr ⟨x, ?_, hc⟩
    rw [missing, Finset.mem_filter, Finset.mem_biUnion] at hx ⊢
    obtain ⟨⟨bn, hbn, hxb⟩, h0⟩ := hx
    exact ⟨⟨bn, blocksOf_subset hk hbn, hxb⟩, hkeep x h0⟩

theorem slotOf_mem_slotsOf (bn : Nat) : slotOf bn ∈ slotsOf bn := by
  rw [slotOf, slotsOf]
  split
  · exact Finset.mem_singleton_self _
  · simp

theorem Inode.Within.of_extends (h : Busy sb s ip) (he : Extends sb s ip s' ip')
    (hR : ip'.Within s' R) :
    ip.Within s R := by
  intro x hx
  have hk := he.ref_eq h hx
  rw [← hk]
  exact hR x (by rwa [hk])

/-- **What the loop of `writei` logs**, whether or not it gets to the end. -/
theorem exists_logged_writeiLoop (hl : Layout sb) (rounds : Nat) :
    ∀ {s : Disk} {ip : Inode} {tot off : Nat}, Busy sb s ip → tot ≤ n →
      off + (n - tot) ≤ maxfile * bsize →
      ∃ R, ip.Within s R ∧ ∀ c ∈ logged m (writeiLoop sb src n rounds ip tot off) s,
        WriteLogs sb s ip off (n - tot) R c := by
  induction rounds with
  | zero => exact fun _ _ _ => ⟨_, .refl _ _, by rintro _ ⟨⟩⟩
  | succ rounds ih =>
    intro s ip tot off h htot hlen
    rw [writeiLoop]
    split
    · rename_i hlt
      have hbn : off / bsize < maxfile := Nat.div_lt_of_lt_mul (by rw [Nat.mul_comm]; omega)
      have hmem : off / bsize ∈ blocksOf off (n - tot) := div_mem_blocksOf (by omega)
      obtain ⟨R0, hin, hlog, hres⟩ := exists_logged_bmap (m := m) hl h hbn
      cases hx : exec (answer m) (bmap sb ip (off / bsize)) s with
      | error e =>
        refine ⟨R0, hin, fun c hc => ?_⟩
        rw [logged_bind_error hx] at hc
        exact (hlog c hc).write hmem fun _ _ => rfl
      | ok r =>
        obtain ⟨⟨addr, ip1⟩, s1⟩ := r
        obtain ⟨he, ha, h0, -⟩ := Ends.of_ok (runs_bmap hl h hbn) hx
        dsimp only at he ha h0
        rw [← he.same.inum] at ha
        have haddr : addr = ip1.ref s1 (slotOf (off / bsize)) := by rw [ha, he.busy.ref]
        rw [logged_bind_ok hx]
        rw [logged_bread]
        generalize hk : min (n - tot) (bsize - off % bsize) = k
        refine logged_eitherCopyin (P := fun l => ∃ R, ip.Within s R ∧ ∀ c ∈ _ ++ l,
          WriteLogs sb s ip off (n - tot) R c) fun v ok => ?_
        have hst := Extends.store he.busy (ha ▸ h0) (slotOf_ne _) v
        rw [← ha] at hst
        -- the blocks that `bmap` has looked at are there afterwards
        have hslots : ∀ x ∈ slotsOf (off / bsize), ip1.ref s1 x ≠ 0 := fun x hxs =>
          ref_ne_zero_of_slotsOf (haddr ▸ h0) hxs
        cases ok with
        | false =>
          refine ⟨ip1.ref s1, .of_extends h he (.refl _ _), fun c hc => ?_⟩
          rw [if_neg Bool.false_ne_true, logged_brelse, logged_pure, append_nil] at hc
          exact (hlog c hc).write hmem (hres _ _ hx)
        | true =>
          have hloop : ∃ R, _ ∧
              ∀ c ∈ logged m (writeiLoop sb src n rounds ip1 (tot + k) (off + k)) _, _ :=
            ih hst.busy (by omega) (by omega)
          obtain ⟨R, hR, hrest⟩ := hloop
          have hR1 : ip1.Within s1 R := .of_extends he.busy hst hR
          refine ⟨R, .of_extends h he hR1, fun c hc => ?_⟩
          rw [if_pos rfl, logged_logWrite, logged_brelse, mem_append, mem_cons] at hc
          rcases hc with hc | rfl | hc
          · refine (hlog c hc).write hmem fun x hxs => ?_
            rw [hres _ _ hx x hxs, hR1 x (hslots x hxs)]
          · refine .inl ⟨_, hmem, _, slotOf_mem_slotsOf _, ?_⟩
            rw [hR1 _ (haddr ▸ h0), ← haddr]
          · have hc' := hrest c hc
            rw [← Nat.sub_sub] at hc'
            exact hc'.of_rest (by omega) fun x h' => he.ref_eq_zero h (hst.ref_eq_zero he.busy h')
    · exact ⟨_, .refl _ _, by rintro _ ⟨⟩⟩

/-- **What `writei` logs**: what its loop does, and the inode. -/
theorem exists_logged_writei (hl : Layout sb) (h : Busy sb s ip) :
    ∃ R, ∀ c ∈ logged m (writei sb ip src off n) s,
      WriteLogs sb s ip off n R c ∨ c = iblock sb ip.inum := by
  rw [writei]
  split
  · exact ⟨ip.ref s, by rintro _ ⟨⟩⟩
  split
  · exact ⟨ip.ref s, by rintro _ ⟨⟩⟩
  · rename_i hmax
    have hlen : off + (n - 0) ≤ maxfile * bsize := Nat.not_lt.mp hmax
    have hloop : ∃ R, _ ∧ ∀ c ∈ logged m (writeiLoop sb src n n ip 0 off) s, _ :=
      exists_logged_writeiLoop hl n h (Nat.zero_le n) hlen
    obtain ⟨R, -, hlog⟩ := hloop
    refine ⟨R, fun c hc => ?_⟩
    cases hx : exec (answer m) (writeiLoop sb src n n ip 0 off) s with
    | error e =>
      rw [logged_bind_error hx] at hc
      exact .inl (hlog c hc)
    | ok r =>
      obtain ⟨⟨off', ip1⟩, s1⟩ := r
      obtain ⟨he, -⟩ := Ends.of_ok (runs_writeiLoop hl n h (Nat.zero_le n) hlen) hx
      have hinum : (ip1.grow off').inum = ip.inum := by rw [Inode.grow_inum, he.same.inum]
      rw [logged_bind_ok hx, mem_append] at hc
      rcases hc with hc | hc
      · exact .inl (hlog c hc)
      · dsimp only at hc
        split at hc
        · change c ∈ [iblock sb (ip1.grow off').inum] at hc
          rw [hinum] at hc
          exact .inr (mem_singleton.mp hc)
        · exact (not_mem_nil hc).elim

end Writei

/-! ## Counting -/

section Count

variable {sb : Superblock} {s : Disk} {ip : Inode} {off n : Nat} {R : Slot → Nat}

/-- The slots of a write are one for each block, and that of the indirect block. -/
theorem card_slots_le (off n : Nat) :
    ((blocksOf off n).biUnion slotsOf).card ≤ (blocksOf off n).card + 1 := by
  have hsub : (blocksOf off n).biUnion slotsOf ⊆
      insert (.addr ndirect) ((blocksOf off n).image slotOf) := by
    intro x hx
    obtain ⟨bn, hbn, hxb⟩ := Finset.mem_biUnion.mp hx
    rw [Finset.mem_insert, Finset.mem_image]
    rw [slotsOf] at hxb
    split at hxb
    · rename_i hd
      exact .inr ⟨bn, hbn, (if_pos hd).trans (Finset.mem_singleton.mp hxb).symm⟩
    · rename_i hd
      rcases Finset.mem_insert.mp hxb with rfl | hxb
      · exact .inl rfl
      · exact .inr ⟨bn, hbn, (if_neg hd).trans (Finset.mem_singleton.mp hxb).symm⟩
  exact (Finset.card_le_card hsub).trans
    ((Finset.card_insert_le ..).trans (Nat.succ_le_succ Finset.card_image_le))

/-- The blocks that `n` bytes are in follow one another. -/
theorem card_blocksOf_le (off : Nat) (hn : 0 < n) :
    (blocksOf off n).card ≤ (off + n - 1) / bsize + 1 - off / bsize := by
  have hsub : blocksOf off n ⊆ Finset.Icc (off / bsize) ((off + n - 1) / bsize) := by
    intro bn hbn
    obtain ⟨j, hj, rfl⟩ := mem_blocksOf.mp hbn
    rw [Finset.mem_Icc]
    exact ⟨Nat.div_le_div_right (by omega), Nat.div_le_div_right (by omega)⟩
  exact (Finset.card_le_card hsub).trans_eq (Nat.card_Icc ..)

theorem card_logged_le {l : List Nat} {b : Nat} (h : ∀ c ∈ l, WriteLogs sb s ip off n R c ∨ c = b) :
    l.toFinset.card ≤ ((blocksOf off n).biUnion slotsOf).card + (missing s ip off n).card + 1 := by
  have hsub : l.toFinset ⊆ insert b (((blocksOf off n).biUnion slotsOf).image R ∪
      (missing s ip off n).image fun x => bblock sb (R x)) := by
    intro c hc
    rw [Finset.mem_insert, Finset.mem_union, Finset.mem_image, Finset.mem_image]
    rcases h c (mem_toFinset.mp hc) with (⟨bn, hbn, x, hx, rfl⟩ | ⟨x, hx, rfl⟩) | rfl
    · exact .inr (.inl ⟨x, Finset.mem_biUnion.mpr ⟨bn, hbn, hx⟩, rfl⟩)
    · exact .inr (.inr ⟨x, hx, rfl⟩)
    · exact .inl rfl
  refine (Finset.card_le_card hsub).trans ((Finset.card_insert_le ..).trans (Nat.succ_le_succ ?_))
  exact (Finset.card_union_le ..).trans (Nat.add_le_add Finset.card_image_le Finset.card_image_le)

end Count

end Xv6.Fs
