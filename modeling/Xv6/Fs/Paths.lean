import Xv6.Fs.Directory

/-!
# Path names

`elems` are the elements of a path: what is between slashes and not empty, cut off after `DIRSIZ`
bytes.  `skipelem` takes them off one after the other (`skipelem_eq`), so that the loop of `namex`
is a recursion over `elems path`, and what it computes can be said without the path:

* `follow ns d es` is where one gets from the inode `d` by looking up `es` one after the other;
* `parentOf ns d es` is where one has to look the last of them up.

`namex` computes the one or the other, `walk`, depending on its mode (`yields_namexLoop`).  The two
modes agree, `follow_eq_parentOf`.

`namex` drops references as it goes, and a dropped reference may free an inode.  It does not in a
tree, where what has a name has a link (`Tree`); a directory that has been removed while it is
somebody's current directory has none, but is in use.
-/

namespace Xv6.Fs

open Bio Code List Option
open Function (update update_self update_of_ne update_idem update_apply)

variable {ns' ns₂ : Nat → Option Node} {t : List UInt8} {j i : Nat} {c : UInt8}

/-! ## Elements -/

/-- The elements of a path. -/
def elems (path : List UInt8) : List (List UInt8) :=
  ((path.splitOn 47).filter (· ≠ [])).map (·.take dirsiz)

/-- The elements that `skipelem` returns one after the other, if it gets to the end in so many
calls. -/
def skipelems : (calls : Nat) → (path : List UInt8) → Option (List (List UInt8))
  | 0, _ => none
  | calls + 1, path =>
    match skipelem path with
    | none => some []
    | some (name, path) => (skipelems calls path).map (name :: ·)

theorem elems_nil : elems [] = [] := rfl

theorem elems_slash (path : List UInt8) : elems (47 :: path) = elems path := by
  rw [elems, elems, List.splitOn, splitOnP_cons_eq_if_modifyHead, if_pos (by decide),
    filter_cons_of_neg (by decide), List.splitOn]

theorem elems_dropWhile (path : List UInt8) : elems (path.dropWhile (· = 47)) = elems path := by
  induction path with
  | nil => rfl
  | cons c path ih =>
    by_cases hc : c = 47
    · rw [dropWhile_cons_of_pos (by simpa using hc), ih, hc, elems_slash]
    · rw [dropWhile_cons_of_neg (by simpa using hc)]

theorem of_dropWhile_eq_cons {p : UInt8 → Bool} {l : List UInt8} (h : l.dropWhile p = c :: t) :
    p c = false := by
  have := head?_dropWhile_not p l
  rwa [h] at this

theorem elems_cons (hc : c ≠ 47) (path : List UInt8) :
    elems (c :: path) = ((c :: path).takeWhile (· ≠ 47)).take dirsiz ::
      elems ((c :: path).dropWhile (· ≠ 47)) := by
  have hno : ∀ x ∈ (c :: path).takeWhile (· ≠ 47), (x == (47 : UInt8)) = false := by
    intro x hx
    have := mem_takeWhile_imp hx
    simpa using this
  have hne : (c :: path).takeWhile (· ≠ 47) ≠ [] := by
    rw [takeWhile_cons_of_pos (by simpa using hc)]
    exact cons_ne_nil _ _
  conv_lhs => rw [← takeWhile_append_dropWhile (p := (· ≠ (47 : UInt8))) (l := c :: path)]
  cases hd : (c :: path).dropWhile (· ≠ 47) with
  | nil =>
    rw [append_nil, elems, List.splitOn, splitOnP_eq_singleton hno,
      filter_cons_of_pos (by simpa using hne), filter_nil, map_cons, map_nil,
      elems_nil]
  | cons e rest =>
    -- the slash at which the element ends
    have he : e = 47 := by simpa using of_dropWhile_eq_cons hd
    subst he
    rw [elems, List.splitOn, splitOnP_append_cons_of_forall_mem hno _ (by decide),
      filter_cons_of_pos (by simpa using hne), map_cons, elems_slash, elems, List.splitOn]

/-- **`skipelem`** takes the first element off. -/
theorem skipelem_eq (path : List UInt8) : match skipelem path with
    | none => elems path = []
    | some (name, rest) => elems path = name :: elems rest ∧ rest.length < path.length ∧
        (rest = [] ↔ elems rest = []) := by
  rw [skipelem, ← elems_dropWhile path]
  have hle : (path.dropWhile (· = 47)).length ≤ path.length := (dropWhile_suffix _).length_le
  cases hs : path.dropWhile (· = 47) with
  | nil => rfl
  | cons c t =>
    have hc : c ≠ 47 := by simpa using of_dropWhile_eq_cons hs
    rw [hs] at hle
    refine ⟨by rw [elems_cons hc, elems_dropWhile], ?_, ?_⟩
    · have h1 : ((c :: t).dropWhile (· ≠ 47)).length ≤ t.length := by
        rw [dropWhile_cons_of_pos (by simpa using hc)]
        exact (dropWhile_suffix _).length_le
      have h2 := (dropWhile_suffix (l := (c :: t).dropWhile (· ≠ 47)) (· = (47 : UInt8))).length_le
      rw [length_cons] at hle
      omega
    · refine ⟨fun h => by rw [h]; rfl, fun h => ?_⟩
      cases hr : ((c :: t).dropWhile (· ≠ 47)).dropWhile (· = 47) with
      | nil => rfl
      | cons e rest =>
        have he : e ≠ 47 := by simpa using of_dropWhile_eq_cons hr
        rw [hr, elems_cons he] at h
        cases h

/-- **Iterating `skipelem`** gives the elements of the path, and ends. -/
theorem skipelems_eq (path : List UInt8) : ∀ {calls : Nat}, (elems path).length < calls →
    skipelems calls path = some (elems path)
  | 0, h => absurd h (Nat.not_lt_zero _)
  | calls + 1, h => by
    have hs := skipelem_eq path
    rw [skipelems]
    cases hsk : skipelem path with
    | none =>
      rw [hsk] at hs
      rw [hs]
    | some p =>
      rw [hsk] at hs
      obtain ⟨h1, -, -⟩ := hs
      rw [h1, length_cons] at h
      dsimp only
      rw [skipelems_eq p.2 (by omega), h1]
      rfl

/-! ## Following a path -/

/-- What `dirlookup` finds in the inode `d`, if that is a directory. -/
def child (ns : Nat → Option Node) (d : Nat) (t : List UInt8) : Option Nat :=
  (ns d).bind fun n => if n.type = tDir then (found n.bytes t).map (·.1) else none

/-- Where one gets from `d`. -/
def follow (ns : Nat → Option Node) : Nat → List (List UInt8) → Option Nat
  | d, [] => some d
  | d, t :: es => (child ns d t).bind fun e => follow ns e es

/-- The directory in which the last element has to be looked up, and that element. -/
def parentOf (ns : Nat → Option Node) : Nat → List (List UInt8) → Option (Nat × List UInt8)
  | _, [] => none
  | d, [t] => (ns d).bind fun n => if n.type = tDir then some (d, t) else none
  | d, t :: e :: es => (child ns d t).bind fun d' => parentOf ns d' (e :: es)

/-- What `namex` computes in either mode: the inode, and the last element it has taken off. -/
def walk (ns : Nat → Option Node) (nameiparent : Bool) :
    (i : Nat) → (name : List UInt8) → List (List UInt8) → Option (Nat × List UInt8)
  | i, name, [] => if nameiparent then none else some (i, name)
  | i, _, t :: es => (ns i).bind fun n => if n.type = tDir then
      if nameiparent ∧ es = [] then some (i, t)
      else (found n.bytes t).bind fun p => walk ns nameiparent p.1 t es
    else none

/-- There is an inode, and it stays when a reference to it is dropped. -/
def Kept (ns : Nat → Option Node) (others : Nat → Nat) (i : Nat) : Prop :=
  ∃ n, ns i = some n ∧ (n.nlink ≠ 0 ∨ others i ≠ 0)

/-- A file system tree: directories consist of entries, and the entries are for inodes that exist
and have a link, or are in use. -/
structure Tree (ns : Nat → Option Node) (others : Nat → Nat) : Prop where
  dirs : ∀ {i n}, ns i = some n → n.type = tDir → n.IsDir
  named : ∀ {i n name e off}, ns i = some n → n.type = tDir → found n.bytes name = some (e, off) →
    Kept ns others e

section Follow

variable {ns : Nat → Option Node} {others : Nat → Nat} {i d e : Nat} {n : Node} {t : List UInt8}
  {es : List (List UInt8)}

theorem child_of_dir (hn : ns d = some n) (ht : n.type = tDir) :
    child ns d t = (found n.bytes t).map (·.1) := by
  rw [child, hn, bind_some, if_pos ht]

theorem child_of_not_dir (hn : ns d = some n) (ht : n.type ≠ tDir) : child ns d t = none := by
  rw [child, hn, bind_some, if_neg ht]

theorem Kept.hold (h : Kept ns others i) (j : Nat) : Kept ns (hold others j) i := by
  obtain ⟨n, hn, hk⟩ := h
  refine ⟨n, hn, hk.imp_right fun h0 => ?_⟩
  rw [Fs.hold, update_apply]
  split
  · omega
  · exact h0

theorem follow_append (es es' : List (List UInt8)) : ∀ d,
    follow ns d (es ++ es') = (follow ns d es).bind fun e => follow ns e es' := by
  induction es with
  | nil => exact fun d => rfl
  | cons t es ih =>
    intro d
    rw [cons_append, follow, follow, bind_assoc]
    simp only [ih]

/-- **A path leads nowhere** if an element is looked up in what is not a directory or does not have
it. -/
theorem follow_eq_none_iff : ∀ {es : List (List UInt8)} {d : Nat}, follow ns d es = none ↔
    ∃ es1 t es2, es = es1 ++ t :: es2 ∧ ∃ e, follow ns d es1 = some e ∧ child ns e t = none := by
  intro es
  induction es with
  | nil =>
    intro d
    refine iff_of_false nofun ?_
    rintro ⟨es1, t, es2, he, -⟩
    exact absurd he (by simp)
  | cons t es ih =>
    intro d
    rw [follow]
    cases hc : child ns d t with
    | none => exact iff_of_true rfl ⟨[], t, es, rfl, d, rfl, hc⟩
    | some e =>
      rw [bind_some, ih]
      constructor
      · rintro ⟨es1, t', es2, rfl, e', h1, h2⟩
        refine ⟨t :: es1, t', es2, rfl, e', ?_, h2⟩
        rw [follow, hc, bind_some, h1]
      · rintro ⟨es1, t', es2, heq, e', h1, h2⟩
        cases es1 with
        | nil =>
          cases h1
          cases heq
          simp [hc] at h2
        | cons t1 es1 =>
          cases heq
          rw [follow, hc, bind_some] at h1
          exact ⟨es1, t', es2, rfl, e', h1, h2⟩

theorem parentOf_concat (es : List (List UInt8)) : ∀ d, parentOf ns d (es ++ [t]) =
    (follow ns d es).bind fun e => (ns e).bind fun n =>
      if n.type = tDir then some (e, t) else none := by
  induction es with
  | nil => exact fun d => rfl
  | cons t' es ih =>
    intro d
    have hstep : parentOf ns d (t' :: (es ++ [t])) =
        (child ns d t').bind fun d' => parentOf ns d' (es ++ [t]) := by
      cases es with
      | nil | cons e es => rfl
    rw [cons_append, hstep, follow, bind_assoc]
    simp only [ih]

/-- **The two modes agree**: what a path leads to is what its last element leads to in the
directory. -/
theorem follow_eq_parentOf (hne : es ≠ []) :
    follow ns i es = (parentOf ns i es).bind fun p => child ns p.1 p.2 := by
  obtain ⟨es', t, rfl⟩ := eq_nil_or_concat es |>.resolve_left hne
  rw [concat_eq_append, follow_append, parentOf_concat, bind_assoc]
  congr 1
  funext e
  rw [follow]
  cases hn : ns e with
  | none =>
    rw [child, hn]
    rfl
  | some n =>
    rw [bind_some]
    by_cases ht : n.type = tDir
    · rw [if_pos ht, bind_some]
      cases child ns e t <;> rfl
    · rw [if_neg ht, child_of_not_dir hn ht]
      rfl

theorem parentOf_eq_some {p : Nat × List UInt8} (h : parentOf ns i es = some p) :
    es.getLast? = some p.2 ∧ follow ns i es.dropLast = some p.1 ∧ ∃ n, ns p.1 = some n ∧
    n.type = tDir := by
  rcases eq_nil_or_concat es with rfl | ⟨es', t, rfl⟩
  · nomatch h
  rw [concat_eq_append, parentOf_concat] at h
  obtain ⟨e, he, h⟩ := bind_eq_some_iff.mp h
  obtain ⟨n, hn, h⟩ := bind_eq_some_iff.mp h
  split at h
  · cases h
    exact ⟨by simp, by simpa using he, n, hn, ‹_›⟩
  · nomatch h

theorem walk_of_dir (b : Bool) (hn : ns i = some n) (ht : n.type = tDir) (name : List UInt8) :
    walk ns b i name (t :: es) = if b ∧ es = [] then some (i, t)
      else (found n.bytes t).bind fun p => walk ns b p.1 t es := by
  rw [walk, hn, bind_some, if_pos ht]

theorem walk_of_not_dir (b : Bool) (hn : ns i = some n) (ht : n.type ≠ tDir) (name : List UInt8) :
    walk ns b i name (t :: es) = none := by
  rw [walk, hn, bind_some, if_neg ht]

/-- A step that is not the last one of `nameiparent`. -/
theorem walk_cons (b : Bool) (h : ¬ (b = true ∧ es = [])) (i : Nat) (name : List UInt8) :
    walk ns b i name (t :: es) = (child ns i t).bind fun e => walk ns b e t es := by
  rw [walk, child]
  cases ns i with
  | none => rfl
  | some n =>
    rw [bind_some, bind_some, if_neg h]
    split
    · cases found n.bytes t <;> rfl
    · rfl

theorem walk_false (es : List (List UInt8)) : ∀ i name,
    (walk ns false i name es).map (·.1) = follow ns i es := by
  induction es with
  | nil => exact fun i name => rfl
  | cons t es ih =>
    intro i name
    rw [walk_cons false (by simp), follow, map_bind]
    congr 1
    funext e
    exact ih e t

theorem walk_true (es : List (List UInt8)) :
    ∀ i name, walk ns true i name es = parentOf ns i es := by
  induction es with
  | nil => exact fun i name => rfl
  | cons t es ih =>
    intro i name
    cases es with
    | nil =>
      rw [walk, parentOf]
      simp
    | cons e es =>
      rw [walk_cons true (by simp), parentOf]
      simp only [ih]

theorem Tree.kept_child (h : Tree ns others) (hc : child ns d t = some e) : Kept ns others e := by
  obtain ⟨n, hn, hc⟩ := bind_eq_some_iff.mp hc
  split at hc
  · obtain ⟨⟨e', off⟩, hf, rfl⟩ := map_eq_some_iff.mp hc
    exact h.named hn ‹_› hf
  · nomatch hc

theorem Tree.kept_follow (h : Tree ns others) :
    ∀ {es : List (List UInt8)} {d : Nat}, Kept ns others d →
    follow ns d es = some e → Kept ns others e
  | [], _, hd, he => by cases he; exact hd
  | _ :: _, _, _, he => by
    obtain ⟨d', hc, he⟩ := bind_eq_some_iff.mp he
    exact h.kept_follow (h.kept_child hc) he

end Follow

/-! ## `namex` -/

section

variable {H : Type}

/-- `nameiparent(path, name)` -/
def nameiparent (sb : Superblock) (others : Nat → Nat) (cwd : Nat) (path : List UInt8) :
    K H (Option (Nat × List UInt8)) := namex sb others cwd path true

end

/-- Where the lookup of a path begins. -/
def start (cwd : Nat) (path : List UInt8) : Nat := if path.head? = some 47 then rootIno else cwd

theorem start_eq (cwd : Nat) (path : List UInt8) :
    start cwd path = rootIno ∨ start cwd path = cwd := by
  rw [start]
  split
  · exact .inl rfl
  · exact .inr rfl

theorem start_lt {cwd n : Nat} (hroot : rootIno < n) (hcwd : cwd < n) (path : List UInt8) :
    start cwd path < n := by
  rcases start_eq cwd path with he | he <;> rw [he] <;> assumption

section Namex

variable {sb : Superblock} {m : UserMem} {s : Disk} {ns : Nat → Option Node} {others : Nat → Nat}
  {i cwd : Nat}

theorem Represents.yields_iunlockput (h : Represents sb s ns) (hk : Kept ns others i) :
    Yields m (iunlockput sb others (dinode sb s i)) s () := by
  obtain ⟨n, hn, hk⟩ := hk
  refine Fs.yields_iunlockput (hk.imp_left fun h0 => ?_)
  rwa [h.nlink hn]

theorem Represents.yields_ilockRead {n : Node} (h : Represents sb s ns) (hn : ns i = some n) :
    Yields m (ilockRead sb i) s (dinode sb s i) := Fs.yields_ilockRead (h.type_ne hn)

/-- **The loop of `namex`** in a tree. -/
theorem yields_namexLoop (h : Represents sb s ns) (ht : Tree ns others) (b : Bool) (rounds : Nat) :
    ∀ {i : Nat} {path name : List UInt8}, path.length < rounds → Kept ns others i →
      Yields m (namexLoop sb others b rounds i path name) s (walk ns b i name (elems path)) := by
  induction rounds with
  | zero => intro i path name hr; nomatch hr
  | succ rounds ih =>
    intro i path name hr hi
    have hs := skipelem_eq path
    rw [namexLoop]
    cases hsk : skipelem path with
    | none =>
      rw [hsk] at hs
      rw [hs, walk]
      cases b <;> exact yields_pure
    | some p =>
      obtain ⟨t, rest⟩ := p
      rw [hsk] at hs
      obtain ⟨hel, hlen, hrest⟩ := hs
      obtain ⟨n, hn, -⟩ := id hi
      rw [hel]
      refine (h.yields_ilockRead hn).bind ?_
      rw [h.type hn]
      by_cases hdir : n.type = tDir
      · rw [if_neg (not_not.mpr hdir), walk_of_dir b hn hdir]
        by_cases hstop : b = true ∧ elems rest = []
        · rw [if_pos ⟨hstop.1, hrest.mpr hstop.2⟩, if_pos hstop]
          exact yields_pure
        · rw [if_neg fun hc => hstop ⟨hc.1, hrest.mp hc.2⟩, if_neg hstop]
          have hlook := h.dirlookup hn (ht.dirs hn hdir) m t
          cases hf : found n.bytes t with
          | none =>
            rw [hf] at hlook
            exact hlook.bind ((h.yields_iunlockput hi).bind yields_pure)
          | some q =>
            rw [hf] at hlook
            have hnext : Yields m (namexLoop sb others b rounds q.1 rest t) s _ :=
              ih (by omega) (ht.named hn hdir hf)
            exact hlook.bind ((h.yields_iunlockput (hi.hold q.1)).bind hnext)
      · rw [if_pos hdir, walk_of_not_dir b hn hdir]
        exact (h.yields_iunlockput hi).bind yields_pure

theorem kept_start (hroot : Kept ns others rootIno) (hcwd : Kept ns others cwd)
    (path : List UInt8) :
    Kept ns others (start cwd path) := by
  rcases start_eq cwd path with he | he <;> rw [he] <;> assumption

section

variable (h : Represents sb s ns) (ht : Tree ns others) (hroot : Kept ns others rootIno)
  (hcwd : Kept ns others cwd)

include h ht hroot hcwd

/-- **`namei`** -/
theorem Represents.yields_namei (path : List UInt8) :
    Yields m (namei sb others cwd path) s (follow ns (start cwd path) (elems path)) := by
  have hloop : Yields m
      (namexLoop sb others false (path.length + 1) (start cwd path) path []) s _ :=
    yields_namexLoop h ht false _ (Nat.lt_succ_self _) (kept_start hroot hcwd path)
  rw [← walk_false _ _ []]
  exact hloop.bind yields_pure

/-- **`nameiparent`** -/
theorem Represents.yields_nameiparent (path : List UInt8) :
    Yields m (nameiparent sb others cwd path) s (parentOf ns (start cwd path) (elems path)) := by
  rw [← walk_true _ _ []]
  exact yields_namexLoop h ht true _ (Nat.lt_succ_self _) (kept_start hroot hcwd path)

end

end Namex

/-! ## Paths that leave the tree -/

/-- Directories consist of entries, and the entries are for inodes that the disk has. -/
structure Sane (sb : Superblock) (ns : Nat → Option Node) : Prop where
  dirs : ∀ {i n}, ns i = some n → n.type = tDir → n.IsDir
  range : ∀ {i n name e}, ns i = some n → n.type = tDir → some (name, e) ∈ slots n.bytes →
    e < sb.ninodes

/-- Some path leads from `i` to `j`. -/
def Met (ns : Nat → Option Node) (i j : Nat) : Prop := ∃ es, follow ns i es = some j

/-- Some of the nodes have gone away, and nothing else has happened. -/
def Sub (ns' ns : Nat → Option Node) : Prop := ∀ j n, ns' j = some n → ns j = some n

/-- Nodes may have gone away and other fields may have changed, but what is left has its type and
its bytes. -/
def Pruned (ns' ns : Nat → Option Node) : Prop :=
  ∀ j n', ns' j = some n' → ∃ n, ns j = some n ∧ n'.type = n.type ∧ n'.bytes = n.bytes

/-- Inodes have been freed that nobody else uses, and nothing else has happened. -/
structure Freed (sb : Superblock) (others : Nat → Nat) (s : Disk) (ns : Nat → Option Node)
    (s' : Disk)
    (ns' : Nat → Option Node) : Prop where
  rep : Represents sb s' ns'
  sub : Sub ns' ns
  used : ∀ j, j < sb.ninodes → others j ≠ 0 → ns' j = ns j ∧ dinode sb s' j = dinode sb s j

/-- A path from `i` may come to an inode that has neither a link nor a user. -/
def Orphaned (ns : Nat → Option Node) (others : Nat → Nat) (i : Nat) : Prop :=
  ∃ j n, Met ns i j ∧ ns j = some n ∧ n.nlink = 0 ∧ others j = 0

section Leave

variable {sb : Superblock} {m : UserMem} {E : Panic → Prop} {s s1 : Disk}
  {ns ns₁ : Nat → Option Node} {others : Nat → Nat} {i i₀ cwd : Nat} {n n' : Node}

theorem Sub.refl (ns : Nat → Option Node) : Sub ns ns := fun _ _ => id

theorem Sub.trans (h : Sub ns₂ ns₁) (h' : Sub ns₁ ns) : Sub ns₂ ns :=
  fun j n hj => h' j n (h j n hj)

theorem Sub.erase (ns : Nat → Option Node) (i : Nat) : Sub (update ns i none) ns := by
  intro j n hj
  rw [update_apply] at hj
  split at hj
  · nomatch hj
  · exact hj

theorem Freed.refl (h : Represents sb s ns) : Freed sb others s ns s ns :=
  ⟨h, .refl ns, fun _ _ _ => ⟨rfl, rfl⟩⟩

theorem Freed.trans {s2 : Disk} (h : Freed sb others s ns s1 ns₁)
    (h' : Freed sb others s1 ns₁ s2 ns₂) : Freed sb others s ns s2 ns₂ := by
  refine ⟨h'.rep, h'.sub.trans h.sub, fun j hj h0 => ?_⟩
  obtain ⟨h1, h2⟩ := h.used j hj h0
  obtain ⟨h1', h2'⟩ := h'.used j hj h0
  exact ⟨h1'.trans h1, h2'.trans h2⟩

theorem Freed.erase (h0 : others i = 0) (hk : KeepsInodes sb s i s1)
    (h : Represents sb s1 (update ns i none)) : Freed sb others s ns s1 (update ns i none) := by
  refine ⟨h, .erase ns i, fun j hj hj0 => ?_⟩
  have hji : j ≠ i := fun he => hj0 (he ▸ h0)
  exact ⟨update_of_ne hji .., hk j hj hji⟩

theorem mem_slots_of_found {bytes name : List UInt8} {e off : Nat}
    (h : found bytes name = some (e, off)) :
    some (cname name, e) ∈ slots bytes := by
  obtain ⟨⟨v, k⟩, hl, he⟩ := map_eq_some_iff.mp h
  cases he
  exact mem_of_getElem? (SlotMap.getElem?_of_lookup hl)

theorem Met.refl (ns : Nat → Option Node) (i : Nat) : Met ns i i := ⟨[], rfl⟩

theorem Met.child (h : Met ns i₀ i) (hc : Fs.child ns i t = some j) : Met ns i₀ j := by
  obtain ⟨es, hes⟩ := h
  refine ⟨es ++ [t], ?_⟩
  rw [follow_append, hes, bind_some, follow, hc, bind_some, follow]

theorem Sane.lt_of_child (hs : Sane sb ns) (hc : child ns i t = some j) : j < sb.ninodes := by
  obtain ⟨n, hn, hc⟩ := bind_eq_some_iff.mp hc
  split at hc
  · obtain ⟨q, hf, rfl⟩ := map_eq_some_iff.mp hc
    exact hs.range hn ‹_› (mem_slots_of_found hf)
  · nomatch hc

theorem Sane.lt_of_follow (hs : Sane sb ns) : ∀ {es : List (List UInt8)} {i : Nat},
    i < sb.ninodes → follow ns i es = some j → j < sb.ninodes
  | [], _, hi, hj => by cases hj; exact hi
  | _ :: _, _, _, hj => by
    obtain ⟨d, hc, hj⟩ := bind_eq_some_iff.mp hj
    exact hs.lt_of_follow (hs.lt_of_child hc) hj

/-- A path does not go through an inode that is not a directory. -/
theorem child_update (hn : ns i = some n) (ht : n.type ≠ tDir) (ht' : n'.type ≠ tDir) :
    child (update ns i (some n')) = child ns := by
  funext d t
  by_cases hd : d = i
  · rw [hd, child_of_not_dir hn ht, child_of_not_dir (update_self ..) ht']
  · rw [child, update_of_ne hd, ← child]

theorem follow_congr (h : child ns' = child ns) :
    ∀ (es : List (List UInt8)) (d : Nat), follow ns' d es = follow ns d es
  | [], _ => rfl
  | t :: es, d => by
    rw [follow, follow, h]
    congr 1
    funext e
    exact follow_congr h es e

theorem Represents.ends_ilockRead {α : Type} {f : Inode → K Nat α} {Q : α → Disk → Prop}
    (h : Represents sb s ns) (hi : i < sb.ninodes) (hE : ∀ e, Tolerated e → E e)
    (hf : ∀ n, ns i = some n → Ends m E (f (dinode sb s i)) s Q) :
    Ends m E (ilockRead sb i >>= f) s Q := by
  by_cases h0 : (dinode sb s i).type = 0
  · have hpanic : exec (answer m) (ilockRead sb i) s = .error .ilockNoType := by
      change exec (answer m) (if (dinode sb s i).type = 0 then _ else _) s = _
      rw [if_pos h0]
      rfl
    rw [Ends, wp_specOf_iff, exec_bind, hpanic]
    exact hE _ (.inr (.inr rfl))
  · refine (Fs.yields_ilockRead h0).ends_bind (hf ((dinode sb s i).node s) ?_)
    rw [← h.eq]
    exact nodes_eq_some_iff.mpr ⟨hi, h0, rfl⟩

/-- **The loop of `namex`**, wherever it gets to.  If it returns, then with what the nodes were when
it was called; inodes it came by may have been freed. -/
theorem ends_namexLoop (hl : Layout sb) (hs : Sane sb ns) (hE : ∀ e, Tolerated e → E e) (b : Bool)
    (rounds : Nat) : ∀ {s : Disk} {ns₁ : Nat → Option Node} {i : Nat} {path name : List UInt8},
      path.length < rounds → Represents sb s ns₁ → Sub ns₁ ns → i < sb.ninodes → Met ns i₀ i →
      Ends m E (namexLoop sb others b rounds i path name) s fun r s' =>
        r = walk ns b i name (elems path) ∧ (s' = s ∨ Orphaned ns others i₀) ∧ ∃ ns₂,
          Freed sb others s ns₁ s' ns₂ ∧ (b = true → ∀ p, r = some p → ∃ n, ns₂ p.1 = some n) := by
  induction rounds with
  | zero => intro s ns₁ i path name hr; cases hr
  | succ rounds ih =>
    intro s ns₁ i path name hr h hsub hi hmet
    have hsk := skipelem_eq path
    rw [namexLoop]
    cases hskip : skipelem path with
    | none =>
      rw [hskip] at hsk
      rw [hsk, walk]
      cases b with
      | true | false => exact ends_pure ⟨rfl, .inl rfl, ns₁, .refl h, by simp⟩
    | some p =>
      obtain ⟨t, rest⟩ := p
      rw [hskip] at hsk
      obtain ⟨hel, hlen, hrest⟩ := hsk
      rw [hel]
      refine h.ends_ilockRead hi hE fun n hn1 => ?_
      have hn := hsub i n hn1
      -- what is left of an inode when its reference is dropped
      have hput : ∀ others', (∀ j, others' j = 0 → others j = 0) →
          Ends m E (iunlockput sb others' (dinode sb s i)) s fun _ s' =>
            (s' = s ∨ Orphaned ns others i₀) ∧ ∃ ns₂, Freed sb others s ns₁ s' ns₂ := by
        intro others' hle
        refine ((runs_iunlockput hl h hn1 others' rfl).ends hE).mono ?_
        rintro _ s' (rfl | ⟨h0, h0', hk, h'⟩)
        · exact ⟨.inl rfl, ns₁, .refl h⟩
        · exact ⟨.inr ⟨i, n, hmet, hn, h0, hle i h0'⟩, _, .erase (hle i h0') hk h'⟩
      have hfail : Ends m E (do iunlockput sb others (dinode sb s i); pure none) s fun r s' =>
          r = (none : Option (Nat × List UInt8)) ∧ (s' = s ∨ Orphaned ns others i₀) ∧ ∃ ns₂,
            Freed sb others s ns₁ s' ns₂ ∧
              (b = true → ∀ p, r = some p → ∃ n, ns₂ p.1 = some n) := by
        refine (hput others fun _ => id).bind ?_
        rintro _ s' ⟨hch, ns₂, h2⟩
        exact ends_pure ⟨rfl, hch, ns₂, h2, by simp⟩
      rw [h.type hn1]
      by_cases hdir : n.type = tDir
      · rw [if_neg (not_not.mpr hdir), walk_of_dir b hn hdir]
        by_cases hstop : b = true ∧ elems rest = []
        · rw [if_pos ⟨hstop.1, hrest.mpr hstop.2⟩, if_pos hstop]
          refine ends_pure ⟨rfl, .inl rfl, ns₁, .refl h, fun _ p hp => ?_⟩
          cases hp
          exact ⟨n, hn1⟩
        · rw [if_neg fun hc => hstop ⟨hc.1, hrest.mp hc.2⟩, if_neg hstop]
          have hlook := h.dirlookup hn1 (hs.dirs hn hdir) m t
          cases hf : found n.bytes t with
          | none =>
            rw [hf] at hlook
            exact hlook.ends_bind hfail
          | some q =>
            rw [hf] at hlook
            have hmem := mem_slots_of_found hf
            refine hlook.ends_bind ?_
            refine (hput (hold others q.1) fun j h0 => ?_).bind ?_
            · rw [hold, update_apply] at h0
              split at h0
              · exact absurd h0 (Nat.succ_ne_zero _)
              · exact h0
            rintro _ s' ⟨hch, ns₂, h2⟩
            have hnext : Ends m E (namexLoop sb others b rounds q.1 rest t) s' _ :=
              ih (by omega) h2.rep (h2.sub.trans hsub) (hs.range hn hdir hmem)
                (hmet.child (by rw [child_of_dir hn hdir, hf]; rfl))
            refine hnext.mono ?_
            rintro r s'' ⟨hr', hch', ns3, h3, hp⟩
            refine ⟨hr', ?_, ns3, h2.trans h3, hp⟩
            rcases hch' with rfl | ho
            · exact hch
            · exact .inr ho
      · rw [if_pos hdir, walk_of_not_dir b hn hdir]
        exact hfail

section

variable (hl : Layout sb) (h : Represents sb s ns) (hs : Sane sb ns) (hE : ∀ e, Tolerated e → E e)

include hl h hs hE

/-- **`nameiparent`**, wherever the path leads. -/
theorem Represents.ends_nameiparent (path : List UInt8) (hi : start cwd path < sb.ninodes) :
    Ends m E (nameiparent sb others cwd path) s fun r s' =>
      r = parentOf ns (start cwd path) (elems path) ∧
      (s' = s ∨ Orphaned ns others (start cwd path)) ∧
        ∃ ns', Freed sb others s ns s' ns' ∧ ∀ p, r = some p → ∃ n, ns' p.1 = some n := by
  have hloop : Ends m E (namexLoop sb others true (path.length + 1) (start cwd path) path []) s _ :=
    ends_namexLoop hl hs hE true _ (Nat.lt_succ_self _) h (.refl _) hi (.refl ns _)
  refine hloop.mono ?_
  rintro r s' ⟨hr, hch, ns', h', hp⟩
  rw [walk_true] at hr
  exact ⟨hr, hch, ns', h', hp rfl⟩

/-- **`namei`**, wherever the path leads. -/
theorem Represents.ends_namei (path : List UInt8) (hi : start cwd path < sb.ninodes) :
    Ends m E (namei sb others cwd path) s fun r s' =>
      r = follow ns (start cwd path) (elems path) ∧ (s' = s ∨ Orphaned ns others (start cwd path)) ∧
        ∃ ns', Freed sb others s ns s' ns' := by
  have hloop : Ends m E
      (namexLoop sb others false (path.length + 1) (start cwd path) path []) s _ :=
    ends_namexLoop hl hs hE false _ (Nat.lt_succ_self _) h (.refl _) hi (.refl ns _)
  refine hloop.bind ?_
  rintro r s' ⟨rfl, hch, ns', h', -⟩
  exact ends_pure ⟨walk_false _ _ _, hch, ns', h'⟩

end

theorem Pruned.trans (h : Pruned ns₂ ns₁) (h' : Pruned ns₁ ns) : Pruned ns₂ ns := by
  intro j n2 hj
  obtain ⟨n1, hj1, ht1, hb1⟩ := h j n2 hj
  obtain ⟨n, hj, ht, hb⟩ := h' j n1 hj1
  exact ⟨n, hj, ht1.trans ht, hb1.trans hb⟩

theorem Pruned.of_sub (h : Sub ns' ns) : Pruned ns' ns :=
  fun j n' hj => ⟨n', h j n' hj, rfl, rfl⟩

theorem Pruned.set (hn : ns i = some n) (ht : n'.type = n.type) (hb : n'.bytes = n.bytes) :
    Pruned (update ns i (some n')) ns := by
  intro j nj hj
  rw [update_apply] at hj
  split at hj
  · rename_i hji
    cases hj
    exact ⟨n, hji ▸ hn, ht, hb⟩
  · exact ⟨nj, hj, rfl, rfl⟩

theorem Sane.pruned (hs : Sane sb ns) (hp : Pruned ns' ns) : Sane sb ns' := by
  constructor
  · intro i n' hn' ht
    obtain ⟨n, hn, ht', hb⟩ := hp i n' hn'
    exact ⟨ht, hb ▸ (hs.dirs hn (ht' ▸ ht)).aligned⟩
  · intro i n' name e hn' ht hm
    obtain ⟨n, hn, ht', hb⟩ := hp i n' hn'
    exact hs.range hn (ht' ▸ ht) (hb ▸ hm)

theorem Sane.set (hs : Sane sb ns) (hn : n.type = tDir → n.IsDir ∧
      ∀ name e, some (name, e) ∈ slots n.bytes → e < sb.ninodes) :
    Sane sb (update ns i (some n)) := by
  constructor
  · intro j n' hj ht
    rw [update_apply] at hj
    split at hj
    · cases hj
      exact (hn ht).1
    · exact hs.dirs hj ht
  · intro j n' name e hj ht hm
    rw [update_apply] at hj
    split at hj
    · cases hj
      exact (hn ht).2 name e hm
    · exact hs.range hj ht hm

theorem child_of_pruned {d e : Nat} (hp : Pruned ns' ns) (h : child ns' d t = some e) :
    child ns d t = some e := by
  obtain ⟨n', hn', hc⟩ := bind_eq_some_iff.mp h
  obtain ⟨n, hn, ht, hb⟩ := hp d n' hn'
  rw [child, hn, bind_some, ← ht, ← hb]
  exact hc

theorem parentOf_of_pruned (hp : Pruned ns' ns) {q : Nat × List UInt8} :
    ∀ {es : List (List UInt8)} {d : Nat}, parentOf ns' d es = some q → parentOf ns d es = some q
  | [], _, h => nomatch h
  | [t], d, h => by
    obtain ⟨n', hn', hq⟩ := bind_eq_some_iff.mp h
    obtain ⟨n, hn, ht, -⟩ := hp d n' hn'
    rw [parentOf, hn, bind_some, ← ht]
    exact hq
  | t :: e :: es, d, h => by
    obtain ⟨d', hc, hq⟩ := bind_eq_some_iff.mp h
    rw [parentOf, child_of_pruned hp hc, bind_some]
    exact parentOf_of_pruned hp hq

end Leave

/-- **Path lookup.**  In a file system tree, for every path and every current directory:

* `skipelem`, called again and again, returns the elements of the path and then fails;
* `namei` returns the inode that one gets to by following them, and fails if and only if one of them
  is looked up in an inode that is not a directory or does not have the name;
* `nameiparent` fails if and only if there are no elements or those before the last do not lead to a
  directory, and then `namei` fails as well, unless there are no elements.  Otherwise it returns a
  directory and the last element, and `namei` returns what `dirlookup` finds there.

The disk is the same afterwards. -/
theorem path_lookup {sb : Superblock} {s : Disk} {ns : Nat → Option Node} (h : Represents sb s ns)
    {others : Nat → Nat} (ht : Tree ns others) {cwd : Nat} (hroot : Kept ns others rootIno)
    (hcwd : Kept ns others cwd) (m : UserMem) (path : List UInt8) :
    (∀ calls, (elems path).length < calls → skipelems calls path = some (elems path)) ∧
    Yields m (namei sb others cwd path) s (follow ns (start cwd path) (elems path)) ∧
    (follow ns (start cwd path) (elems path) = none ↔
      ∃ es₁ t es₂ d n, elems path = es₁ ++ t :: es₂ ∧ follow ns (start cwd path) es₁ = some d ∧
        ns d = some n ∧ (n.type ≠ tDir ∨ found n.bytes t = none)) ∧
    ∃ r, Yields m (nameiparent sb others cwd path) s r ∧
      (r = none ↔ elems path = [] ∨
        ∀ d n, follow ns (start cwd path) (elems path).dropLast = some d →
        ns d = some n → n.type ≠ tDir) ∧
      (r = none → elems path ≠ [] → follow ns (start cwd path) (elems path) = none) ∧
      ∀ d t, r = some (d, t) → (elems path).getLast? = some t ∧ (dinode sb s d).type = tDir ∧
        ∃ q, Yields m (dirlookup sb (dinode sb s d) t) s (q, dinode sb s d) ∧
          follow ns (start cwd path) (elems path) = q.map (·.1) := by
  have hkept := kept_start hroot hcwd path
  refine ⟨fun calls => skipelems_eq path, h.yields_namei ht hroot hcwd path, ?_,
    _, h.yields_nameiparent ht hroot hcwd path, ?_, ?_, ?_⟩
  · rw [follow_eq_none_iff]
    constructor
    · rintro ⟨es₁, t, es₂, hes, d, hd, hc⟩
      obtain ⟨n, hn, -⟩ := ht.kept_follow hkept hd
      refine ⟨es₁, t, es₂, d, n, hes, hd, hn, ?_⟩
      by_cases hdir : n.type = tDir
      · rw [child_of_dir hn hdir] at hc
        exact .inr (map_eq_none_iff.mp hc)
      · exact .inl hdir
    · rintro ⟨es₁, t, es₂, d, n, hes, hd, hn, hno⟩
      refine ⟨es₁, t, es₂, hes, d, hd, ?_⟩
      rcases hno with hdir | hf
      · exact child_of_not_dir hn hdir
      · rw [child, hn, bind_some, hf]
        split <;> rfl
  · rcases eq_nil_or_concat (elems path) with hnil | ⟨es, t, hes⟩
    · rw [hnil]
      exact iff_of_true rfl (.inl rfl)
    rw [hes, concat_eq_append, parentOf_concat, dropLast_concat]
    constructor
    · intro hnone
      refine .inr fun d n hd hn hdir => ?_
      simp [hd, bind_some, hn, bind_some, if_pos hdir] at hnone
    · rintro (hnil | hno)
      · simp at hnil
      · refine bind_eq_none_iff.mpr fun d hd => bind_eq_none_iff.mpr fun n hn => ?_
        rw [if_neg (hno d n hd hn)]
  · intro hnone hne
    rw [follow_eq_parentOf hne, hnone, bind_none]
  · intro d t hp
    obtain ⟨hlast, -, n, hn, hdir⟩ := parentOf_eq_some hp
    have hne : elems path ≠ [] := fun h0 => by
      simp [h0] at hlast
    refine ⟨hlast, by rw [h.type hn, hdir], _, h.dirlookup hn (ht.dirs hn hdir) m t, ?_⟩
    rw [follow_eq_parentOf hne, hp, bind_some, child_of_dir hn hdir]

/-! ## A disk with a root directory -/

/-- A disk with an empty root directory. -/
def rootDisk : Disk := updated mkfsSuper withDir ((dinode mkfsSuper withDir 1).setMeta 0 0 1)

/-- Its nodes. -/
def rootNodes : Nat → Option Node :=
  update (fun _ => none) 1 (some { freshNode tDir with nlink := 1 })

theorem represents_rootDisk : Represents mkfsSuper rootDisk rootNodes := by
  have hrun : Runs noMem _ withDir _ :=
    runs_iupdate_node mkfsSuper_layout represents_withDir (update_self ..) 0 0 1
  have hrep := (wp_specOf_iff.mp hrun).2.2
  rwa [update_idem] at hrep

theorem rootNodes_eq_some {n : Node} (h : rootNodes i = some n) :
    i = 1 ∧ n = { freshNode tDir with nlink := 1 } := by
  rw [rootNodes, update_apply] at h
  split at h
  · cases h
    exact ⟨‹_›, rfl⟩
  · nomatch h

theorem tree_rootNodes (others : Nat → Nat) : Tree rootNodes others := by
  refine ⟨fun hn _ => ?_, fun hn _ hf => ?_⟩
  · obtain ⟨-, rfl⟩ := rootNodes_eq_some hn
    exact ⟨rfl, Nat.dvd_zero _⟩
  · obtain ⟨-, rfl⟩ := rootNodes_eq_some hn
    nomatch hf

theorem sane_rootNodes : Sane mkfsSuper rootNodes := by
  refine ⟨(tree_rootNodes fun _ => 0).dirs, fun hn _ hmem => ?_⟩
  obtain ⟨-, rfl⟩ := rootNodes_eq_some hn
  nomatch hmem

theorem kept_rootIno (others : Nat → Nat) : Kept rootNodes others rootIno :=
  ⟨_, update_self .., .inl Nat.one_ne_zero⟩

/-- The entries `.` and `a`. -/
def dotAndFile : List UInt8 := direntBytes 1 [46] ++ direntBytes 2 [97]

/-- The nodes of a root directory with these entries, and of the file `a`. -/
def treeNodes : Nat → Option Node :=
  update (update rootNodes 2 (some { freshNode tFile with nlink := 1 })) 1
    (some { freshNode tDir with nlink := 1, bytes := dotAndFile })

/-- The disk without the entries. -/
def fileDisk : Disk :=
  let s := update rootDisk (iblock mkfsSuper 2)
    (clearDinode (rootDisk (iblock mkfsSuper 2)) 2 tFile)
  updated mkfsSuper s ((dinode mkfsSuper s 2).setMeta 0 0 1)

/-- The disk. -/
def treeDisk : Disk :=
  match exec (answer noMem) (writei mkfsSuper (dinode mkfsSuper fileDisk 1) (.kernel dotAndFile) 0
      dotAndFile.length) fileDisk with
  | .ok (_, s) => s
  | .error _ => fileDisk

theorem represents_treeDisk : Represents mkfsSuper treeDisk treeNodes := by
  have hroot := represents_rootDisk
  have hset : Settled mkfsSuper rootDisk 2 _ (freshInode 2 tFile) :=
    .ialloc mkfsSuper_layout hroot.sound.own (by decide) (by decide)
      ((nodes_eq_none_iff (by decide)).mp (by rw [hroot.eq]; rfl))
  have hnew := hroot.settled hset (fun _ _ y hy => refs_iblock hroot.sound (by decide) _ _ hy)
    (by decide)
  rw [if_neg (by decide)] at hnew
  have hlink : Runs noMem _ _ _ :=
    runs_iupdate_node mkfsSuper_layout hnew (update_self ..) 0 0 1
  have hfile : Represents mkfsSuper fileDisk _ := (wp_specOf_iff.mp hlink).2.2
  have hsrc : (Src.kernel dotAndFile).Gives noMem dotAndFile := rfl
  have hrun := runs_writei_node mkfsSuper_layout hfile (i := 1) rfl hsrc (Nat.zero_le _) (by decide)
  obtain ⟨_, s, hexec, -, -, hrep⟩ := (hrun.total
    (returns_writei mkfsSuper_layout (hfile.busy rfl) (by decide +kernel))).exists_ok
  rw [update_idem] at hrep
  rw [treeDisk, hexec]
  exact hrep

theorem treeNodes_eq_some {n : Node} (h : treeNodes i = some n) :
    (i = 1 ∨ i = 2) ∧ n.nlink ≠ 0 ∧ (n.type = tDir → n.IsDir ∧
      slots n.bytes = [some ([46], 1), some ([97], 2)]) := by
  rw [treeNodes, update_apply] at h
  split at h
  · cases h
    exact ⟨.inl ‹_›, by decide, fun _ => ⟨⟨rfl, by decide⟩, by decide⟩⟩
  · rw [update_apply] at h
    split at h
    · cases h
      exact ⟨.inr ‹_›, by decide, fun h => absurd h (by decide)⟩
    · obtain ⟨rfl, -⟩ := rootNodes_eq_some h
      contradiction

theorem tree_treeNodes (others : Nat → Nat) : Tree treeNodes others := by
  refine ⟨fun hn ht => ((treeNodes_eq_some hn).2.2 ht).1, fun {i n name e off} hn ht hf => ?_⟩
  obtain ⟨p, hp, he⟩ := map_eq_some_iff.mp hf
  have hmem := mem_of_getElem? (SlotMap.getElem?_of_lookup hp)
  rw [((treeNodes_eq_some hn).2.2 ht).2] at hmem
  cases he
  have he : p.1 = 1 ∨ p.1 = 2 := by aesop
  rcases he with he | he <;> rw [he] <;> exact ⟨_, rfl, .inl (by decide)⟩

theorem sane_treeNodes : Sane mkfsSuper treeNodes := by
  refine ⟨(tree_treeNodes fun _ => 0).dirs, fun hn ht hmem => ?_⟩
  rw [((treeNodes_eq_some hn).2.2 ht).2] at hmem
  have : mkfsSuper.ninodes = 200 := rfl
  aesop

theorem kept_treeNodes (others : Nat → Nat) : Kept treeNodes others rootIno :=
  ⟨_, update_self .., .inl Nat.one_ne_zero⟩

/-- `namei("/./a")` finds inode 2, and `nameiparent("/./a")` a directory with the last element. -/
theorem path_lookup_found :
    Yields noMem (namei mkfsSuper (fun _ => 0) rootIno [47, 46, 47, 97]) treeDisk (some 2) ∧
    ∃ d, Yields noMem (nameiparent mkfsSuper (fun _ => 0) rootIno [47, 46, 47, 97]) treeDisk
      (some (d, [97])) ∧ (dinode mkfsSuper treeDisk d).type = tDir := by
  obtain ⟨-, hnamei, -, r, hp, hnone, -, hsome⟩ := path_lookup represents_treeDisk
    (tree_treeNodes _) (kept_treeNodes _) (kept_treeNodes _) noMem [47, 46, 47, 97]
  refine ⟨hnamei, ?_⟩
  rcases r with _ | ⟨d, t⟩
  · obtain hnil | hno := hnone.mp rfl
    · exact absurd hnil (by decide)
    · exact absurd rfl (hno 1 _ rfl rfl)
  · obtain ⟨hlast, htype, -⟩ := hsome d t rfl
    obtain rfl : [97] = t := some.inj hlast
    exact ⟨d, hp, htype⟩

/-- `nameiparent("/a/b")` fails in an empty root directory, and the path has two elements. -/
theorem nameiparent_fails : elems [47, 97, 47, 98] ≠ [] ∧ ∃ (s : Disk) (ns : Nat → Option Node),
    Represents mkfsSuper s ns ∧ Tree ns (fun _ => 0) ∧ Kept ns (fun _ => 0) rootIno ∧
    Yields noMem (nameiparent mkfsSuper (fun _ => 0) rootIno [47, 97, 47, 98]) s none :=
  ⟨by decide, rootDisk, rootNodes, represents_rootDisk, tree_rootNodes _, kept_rootIno _,
    represents_rootDisk.yields_nameiparent (tree_rootNodes _) (kept_rootIno _) (kept_rootIno _) _⟩

end Xv6.Fs
