import Xv6.Dir.Discipline
import Xv6.Lib.Multigraph

/-!
# The graph of the directories

The entries of the directories other than `.` and `..` are the edges of a multigraph on the inodes.
`Graph` says what that graph looks like while system calls are running: every directory has its two
entries `.` and `..`, every edge leads to an allocated inode, a directory has at most one edge and
its `..` goes back along it, and the link count of an inode is the number of edges to it, plus the
number of directories in it, plus what the running calls have counted in advance.

The last two fields hold only as long as nobody creates anything in a removed directory (`b` is
`true` then): a directory that no edge leads to is empty, and all others can be reached from the
root.

The second half is one lemma per command that changes an inode.  Nothing here is about locks and
references; what they guarantee appears as hypotheses of these lemmas.
-/

namespace Xv6.Dir

open Multigraph List
open Function (update update_self update_of_ne update_eq_self)

/-! ## Entries -/

/-- The entry is not empty, and is neither `.` nor `..`. -/
def Ent.isEdge (e : Ent) : Bool := decide (e.inum ≠ 0 ∧ e.name ≠ dot ∧ e.name ≠ dotdot)

/-- The inodes that the entries name, except for `.` and `..`. -/
def edges (es : List Ent) : List Nat := (es.filter Ent.isEdge).map Ent.inum

/-- What `..` names. -/
def up (es : List Ent) : Option Nat := (lookup es dotdot).map Prod.fst

/-- The entries of the directory `d` in the directory `q`. -/
def Shaped (d q : Nat) (es : List Ent) : Prop :=
  ∃ rest, es = ⟨d, dot⟩ :: ⟨q, dotdot⟩ :: rest ∧ d ≠ 0 ∧ q ≠ 0 ∧
    ∀ e ∈ rest, e.name ≠ dot ∧ e.name ≠ dotdot

section Entries

variable {d q i off : Nat} {es : List Ent} {e : Ent} {name : Name}

theorem edges_cons : edges (e :: es) = if e.isEdge then e.inum :: edges es else edges es := by
  rw [edges, filter_cons]
  split <;> rfl

theorem mem_edges : i ∈ edges es ↔ ∃ name, ⟨i, name⟩ ∈ es ∧ i ≠ 0 ∧ name ≠ dot ∧ name ≠ dotdot := by
  simp only [edges, mem_map, mem_filter, Ent.isEdge, decide_eq_true_eq]
  constructor
  · rintro ⟨⟨j, name⟩, ⟨he, h⟩, rfl⟩
    exact ⟨name, he, h⟩
  · rintro ⟨name, he, h⟩
    exact ⟨⟨i, name⟩, ⟨he, h⟩, rfl⟩

/-- Writing an entry adds an edge: the place it goes to was empty. -/
theorem edges_insert (he : e.isEdge = true) : (edges (insert es e)).Perm (e.inum :: edges es) := by
  induction es with
  | nil => simp [insert, edges, he]
  | cons a es ih =>
    rw [insert]
    split
    · rename_i ha
      have : a.isEdge = false := by simp [Ent.isEdge, ha]
      rw [edges_cons, edges_cons, if_pos he, if_neg (by simp [this])]
    · rw [edges_cons, edges_cons]
      split
      · exact (ih.cons _).trans (.swap ..)
      · exact ih

theorem edges_set (he : e.isEdge = true) (h : es[off]? = some e) :
    (e.inum :: edges (es.set off ⟨0, []⟩)).Perm (edges es) := by
  induction es generalizing off with
  | nil => nomatch h
  | cons a es ih =>
    cases off with
    | zero =>
      obtain rfl : a = e := by simpa using h
      rw [set_cons_zero, edges_cons, edges_cons, if_pos he, if_neg (by simp [Ent.isEdge])]
    | succ off =>
      rw [set_cons_succ, edges_cons, edges_cons (e := a)]
      split
      · exact (List.Perm.swap ..).trans ((ih (by simpa using h)).cons _)
      · exact ih (by simpa using h)

namespace Shaped

section

variable (h : Shaped d q es)

include h

theorem up_eq : up es = some q := by
  obtain ⟨rest, rfl, hd, hq, _⟩ := h
  simp [up, lookup, lookupFrom, hq, dot, dotdot]

theorem lookup_dot : lookup es dot = some (d, 0) := by
  obtain ⟨rest, rfl, hd, _⟩ := h
  simp [lookup, lookupFrom, hd]

theorem lookup (hl : lookup es name = some (i, off)) : i = d ∨ i = q ∨ i ∈ edges es := by
  obtain ⟨he, h0⟩ := lookup_some hl
  by_cases h1 : name = dot
  · rw [h1, h.lookup_dot] at hl
    exact .inl (by simp_all)
  by_cases h2 : name = dotdot
  · have := h.up_eq
    rw [up, ← h2, hl] at this
    exact .inr (.inl (by simpa using this))
  exact .inr (.inr (mem_edges.mpr ⟨name, mem_of_getElem? he, h0, h1, h2⟩))

theorem insert (hl : Dir.lookup es name = none) : Shaped d q (insert es ⟨i, name⟩) := by
  have h1 : name ≠ dot := by
    rintro rfl
    simp [h.lookup_dot] at hl
  have h2 : name ≠ dotdot := by
    rintro rfl
    have := h.up_eq
    simp [up, hl] at this
  obtain ⟨rest, rfl, hd, hq, hr⟩ := h
  refine ⟨Dir.insert rest ⟨i, name⟩, by simp [Dir.insert, hd, hq], hd, hq, ?_⟩
  clear hl
  induction rest with
  | nil => simpa [Dir.insert] using ⟨h1, h2⟩
  | cons a rest ih =>
    rw [Dir.insert]
    split
    · simpa [h1, h2] using fun e he => hr e (mem_cons_of_mem _ he)
    · intro e he
      rcases mem_cons.mp he with rfl | he
      · exact hr e (by simp)
      · exact ih (fun e he => hr e (mem_cons_of_mem _ he)) e he

theorem set (he : es[off]? = some ⟨i, name⟩) (h1 : name ≠ dot) (h2 : name ≠ dotdot) :
    Shaped d q (es.set off ⟨0, []⟩) := by
  obtain ⟨rest, rfl, hd, hq, hr⟩ := h
  match off with
  | 0 => exact absurd (by simpa using he.symm : _ ∧ name = dot).2 h1
  | 1 => exact absurd (by simpa using he.symm : _ ∧ name = dotdot).2 h2
  | off + 2 =>
    refine ⟨rest.set off ⟨0, []⟩, rfl, hd, hq, fun e he => ?_⟩
    rcases mem_or_eq_of_mem_set he with he | rfl
    · exact hr e he
    · exact ⟨nofun, nofun⟩

theorem edges_nil (he : isEmpty es = true) : edges es = [] := by
  obtain ⟨rest, rfl, hd, hq, hr⟩ := h
  simp only [isEmpty, drop_succ_cons, drop_zero, all_eq_true, decide_eq_true_eq] at he
  rw [edges_cons, edges_cons, if_neg (by simp [Ent.isEdge]), if_neg (by simp [Ent.isEdge])]
  simp only [edges, map_eq_nil_iff, filter_eq_nil_iff]
  intro e h
  simp [Ent.isEdge, he e h]

end

end Shaped

end Entries

/-! ## Inodes -/

/-- The edges that leave an inode. -/
def out (nd : Node) : List Nat := if nd.kind = .dir then edges nd.ents else []

/-- The edges of the whole graph. -/
def outs (N : Nat → Node) (d : Nat) : List Nat := out (N d)

/-- The inode is a directory. -/
def isDir (N : Nat → Node) (i : Nat) : Bool := decide ((N i).kind = .dir)

/-- How many directories are in the directory `d`. -/
def subdirs (N : Nat → Node) (d : Nat) : Nat := (outs N d).countP (isDir N)

/-- What the link count of `i` should be when the running calls have counted `owed` in advance. -/
def total (n : Nat) (N : Nat → Node) (owed : Nat → Nat) (i : Nat) : Nat :=
  (if i = rootIno then 1 else 0) + indeg n (outs N) i + subdirs N i + owed i

/-- The directory `d` is the root or in another directory. -/
def Linked (n : Nat) (N : Nat → Node) (d : Nat) : Prop := d = rootIno ∨ 0 < indeg n (outs N) d

section Nodes

variable {n a d i j k : Nat} {N : Nat → Node} {nd : Node} {owed : Nat → Nat}

theorem mem_outs : i ∈ outs N d ↔ (N d).kind = .dir ∧ i ∈ edges (N d).ents := by
  rw [outs, out]
  split <;> simp [*]

theorem outs_of_dir (h : (N d).kind = .dir) : outs N d = edges (N d).ents := if_pos h

theorem outs_of_not_dir (h : (N d).kind ≠ .dir) : outs N d = [] := if_neg h

theorem isDir_iff : isDir N i = true ↔ (N i).kind = .dir := decide_eq_true_iff

theorem outs_update : outs (update N a nd) = update (outs N) a (out nd) := by
  funext d
  rw [outs, Function.apply_update (fun _ => out)]
  rfl

/-- Only the contents of the inode `a` change. -/
structure Edit (N N' : Nat → Node) (a : Nat) : Prop where
  other : ∀ i, i ≠ a → N' i = N i
  same : (N' a).kind = (N a).kind

namespace Edit

variable {N' : Nat → Node}

theorem update (h : nd.kind = (N a).kind) : Edit N (update N a nd) a :=
  ⟨fun _ hi => update_of_ne hi .., by rw [update_self, h]⟩

section

variable (e : Edit N N' a)

include e

theorem symm : Edit N' N a := ⟨fun i hi => (e.other i hi).symm, e.same.symm⟩

/-- What the changed inode keeps, every inode keeps. -/
theorem keeps {β : Type} {f : Node → β} (h : f (N' a) = f (N a)) (i : Nat) :
    f (N' i) = f (N i) := by
  by_cases hi : i = a
  · rw [hi, h]
  · rw [e.other i hi]

theorem kind : ∀ i, (N' i).kind = (N i).kind := e.keeps e.same

theorem isDir : isDir N' = isDir N := by
  funext i
  rw [Dir.isDir, Dir.isDir, e.kind]

theorem outs : outs N' = Function.update (outs N) a (out (N' a)) := by
  rw [← outs_update]
  congr 1
  funext i
  by_cases hi : i = a
  · rw [hi, update_self]
  · rw [update_of_ne hi, e.other i hi]

theorem outs_of_ne (h : d ≠ a) : Dir.outs N' d = Dir.outs N d := by
  rw [Dir.outs, e.other d h, Dir.outs]

theorem outs_eq (h : out (N' a) = out (N a)) : Dir.outs N' = Dir.outs N := by
  rw [e.outs, h]
  exact update_eq_self a (Dir.outs N)

end

theorem indeg (e : Edit N N' d) (hd : d < n) (hp : (out (N' d)).Perm (i :: out (N d))) :
    indeg n (Dir.outs N') j = indeg n (Dir.outs N) j + if j = i then 1 else 0 := by
  have h : Multigraph.indeg n (Function.update (Dir.outs N) d (out (N' d))) j +
      (Dir.outs N d).count j = Multigraph.indeg n (Dir.outs N) j + (out (N' d)).count j :=
    indeg_update hd
  rw [hp.count_eq, count_cons, ← e.outs] at h
  have : (Dir.outs N d).count j = (out (N d)).count j := rfl
  simp only [beq_iff_eq, eq_comm (a := i)] at h
  omega

theorem mem_outs_iff (e : Edit N N' d) (hp : (out (N' d)).Perm (i :: out (N d))) :
    j ∈ Dir.outs N' k ↔ j ∈ Dir.outs N k ∨ k = d ∧ j = i := by
  by_cases hk : k = d
  · subst hk
    rw [Dir.outs, hp.mem_iff, mem_cons, or_comm]
    simp [Dir.outs]
  · rw [e.outs_of_ne hk]
    simp [hk]

theorem total (e : Edit N N' d) (hd : d < n) (hp : (out (N' d)).Perm (i :: out (N d))) :
    total n N' owed j = total n N owed j + (if j = i then 1 else 0) +
      if j = d ∧ (N i).kind = .dir then 1 else 0 := by
  have hsub : subdirs N' j = subdirs N j + if j = d ∧ (N i).kind = .dir then 1 else 0 := by
    rw [subdirs, e.isDir]
    by_cases hj : j = d
    · subst hj
      rw [Dir.outs, hp.countP_eq, countP_cons]
      simp [subdirs, Dir.outs, isDir_iff]
    · rw [e.outs_of_ne hj]
      simp [hj, subdirs]
  rw [Dir.total, Dir.total, e.indeg hd hp, hsub]
  omega

end Edit

theorem total_congr {N' : Nat → Node} (h1 : outs N' = outs N) (h2 : isDir N' = isDir N) :
    total n N' owed i = total n N owed i := by
  rw [total, total, subdirs, subdirs, h1, h2]

theorem total_owed {owed' : Nat → Nat} :
    total n N owed' i + owed i = total n N owed i + owed' i := by
  rw [total, total]
  omega

/-! ## The invariant of the graph -/

/-- How large a link count may get: it has 16 bits, and is a signed number. -/
def limit (b : Bool) : Nat := if b then 2 ^ 15 else 2 ^ 16

theorem limit_pos (b : Bool) : 0 < limit b := by cases b <;> decide

theorem limit_le (b : Bool) : limit b ≤ 2 ^ 16 := by cases b <;> decide

/-- The invariant of the graph.  `F i` says that somebody is making the inode `i`, and `owed i` is
what has been counted in advance in its link count. -/
structure Graph (n : Nat) (b : Bool) (N : Nat → Node) (F : Nat → Prop) (owed : Nat → Nat) :
    Prop where
  bound : ∀ i, (N i).kind ≠ .free → i ≠ 0 ∧ i < n
  root : (N rootIno).kind = .dir ∧ ¬ F rootIno
  short : ∀ i, (N i).kind ≠ .free → (N i).nlink < limit b
  shape : ∀ d, (N d).kind = .dir → ¬ F d → ∃ q, Shaped d q (N d).ents
  edge : ∀ d i, i ∈ outs N d → (N i).kind ≠ .free ∧ ¬ F i
  child : ∀ d i, i ∈ outs N d → (N i).kind = .dir → i ≠ rootIno ∧ up (N i).ents = some d
  fresh : ∀ d, F d → outs N d = []
  single : ∀ i, (N i).kind = .dir → indeg n (outs N) i ≤ 1
  counts : ∀ i, (N i).kind ≠ .free → total n N owed i ≤ (N i).nlink
  counts_eq : ∀ i, (N i).kind ≠ .free → (N i).kind = .dir ∨ b = true →
    (N i).nlink = total n N owed i
  /-- Removed directories are empty. -/
  empty : b = true → ∀ d, (N d).kind = .dir → ¬ Linked n N d → outs N d = []
  /-- All others can be reached from the root. -/
  path : b = true → ∀ d, (N d).kind = .dir → Linked n N d → Path (outs N) rootIno d

namespace Graph

variable {b : Bool} {N' : Nat → Node} {F F' : Nat → Prop} {owed' : Nat → Nat}

section

variable (g : Graph n b N F owed)

include g

/-- The edges stay, and the link counts follow what has been counted in advance. -/
theorem keep (e : Edit N N' a) (ho : outs N' = outs N) (he : ∀ i, ¬ F i → (N' i).ents = (N i).ents)
    (hv : ∀ i, (N' i).kind ≠ .free → (N' i).nlink < limit b)
    (hc : ∀ i, (N' i).nlink + owed i = (N i).nlink + owed' i) : Graph n b N' F owed' := by
  have ht : ∀ i, total n N' owed' i + owed i = total n N owed i + owed' i := fun i => by
    rw [total_congr ho e.isDir, total_owed]
  have hL : ∀ d, Linked n N' d ↔ Linked n N d := fun d => by rw [Linked, Linked, ho]
  exact {
    bound i hi := g.bound i (e.kind i ▸ hi)
    root := ⟨e.kind _ ▸ g.root.1, g.root.2⟩
    short := hv
    shape d hd hn := he d hn ▸ g.shape d (e.kind d ▸ hd) hn
    edge d i hi := e.kind i ▸ g.edge d i (ho ▸ hi)
    child d i hi hd := by
      rw [ho] at hi
      rw [he i (g.edge d i hi).2]
      exact g.child d i hi (e.kind i ▸ hd)
    fresh d hd := ho ▸ g.fresh d hd
    single i hi := ho ▸ g.single i (e.kind i ▸ hi)
    counts i hi := by
      have := g.counts i (e.kind i ▸ hi)
      have := ht i
      have := hc i
      omega
    counts_eq i hi hor := by
      have := g.counts_eq i (e.kind i ▸ hi) (e.kind i ▸ hor)
      have := ht i
      have := hc i
      omega
    empty hb d hd hl := ho ▸ g.empty hb d (e.kind d ▸ hd) (mt (hL d).mpr hl)
    path hb d hd hl := ho ▸ g.path hb d (e.kind d ▸ hd) ((hL d).mp hl) }

/-- **A link count is changed** together with what has been counted in advance. -/
theorem relink (e : Edit N N' a) (he : (N' a).ents = (N a).ents) (hv : (N' a).nlink < limit b)
    (hc : ∀ i, (N' i).nlink + owed i = (N i).nlink + owed' i) : Graph n b N' F owed' := by
  refine g.keep e (e.outs_eq (by rw [out, out, he, e.same])) (fun i _ => e.keeps he i)
    (fun i hi => ?_) hc
  by_cases hia : i = a
  · rw [hia]
    exact hv
  · rw [e.other i hia] at hi ⊢
    exact g.short i hi

section

variable (e : Edit N N' d) (hsh : ∀ q, Shaped d q (N d).ents → Shaped d q (N' d).ents)

include e hsh

theorem shape_kept (hk : (N k).kind = .dir) (hkF : ¬ F k) : ∃ q, Shaped k q (N' k).ents := by
  by_cases h : k = d
  · subst h
    exact (g.shape k hk hkF).imp hsh
  · rw [e.other k h]
    exact g.shape k hk hkF

/-- The links back of the directories stay what they are. -/
theorem up_kept (hd : (N d).kind = .dir) (hF : ¬ F d) : ∀ k, up (N' k).ents = up (N k).ents := by
  obtain ⟨q, hq⟩ := g.shape d hd hF
  exact e.keeps (f := fun nd => up nd.ents) (hq.up_eq ▸ (hsh q hq).up_eq)

end

section

variable (e : Edit N N' d) (hd : (N d).kind = .dir) (hF : ¬ F d)
  (hsh : ∀ q, Shaped d q (N d).ents → Shaped d q (N' d).ents)

include e hd hF hsh

/-- **An entry is written**, which finishes what has been counted in advance. -/
theorem link (hp : (out (N' d)).Perm (i :: out (N d))) (hn : (N' d).nlink = (N d).nlink)
    (hdi : d ≠ i) (hi : (N i).kind ≠ .free)
    (hdir : (N i).kind = .dir → i ≠ rootIno ∧ Shaped i d (N i).ents ∧ indeg n (outs N) i = 0)
    (hF' : ∀ k, F' k ↔ F k ∧ k ≠ i)
    (ho : ∀ k, owed k = owed' k + (if k = i then 1 else 0) +
      if k = d ∧ (N i).kind = .dir then 1 else 0)
    (hb : b = true → Linked n N d) : Graph n b N' F' owed' := by
  have hdn : d < n := (g.bound d (by simp [hd])).2
  have hin : ∀ k, indeg n (outs N') k = indeg n (outs N) k + if k = i then 1 else 0 :=
    fun k => e.indeg hdn hp
  have hmono : ∀ k j, j ∈ outs N k → j ∈ outs N' k := fun _ _ h => (e.mem_outs_iff hp).mpr (.inl h)
  have hnl : ∀ k, (N' k).nlink = (N k).nlink := e.keeps hn
  have ht : ∀ k, total n N' owed' k = total n N owed k := by
    intro k
    have h1 : total n N' owed' k = total n N owed' k + (if k = i then 1 else 0) +
      if k = d ∧ (N i).kind = .dir then 1 else 0 := e.total hdn hp
    have h2 : total n N owed' k + owed k = total n N owed k + owed' k := total_owed
    have h3 := ho k
    omega
  have hL : ∀ k, Linked n N k → Linked n N' k := fun k => Or.imp id fun h => by
    rw [hin]
    omega
  exact {
    bound k hk := g.bound k (e.kind k ▸ hk)
    root := ⟨e.kind _ ▸ g.root.1, fun h => g.root.2 ((hF' _).mp h).1⟩
    short k hk := hnl k ▸ g.short k (e.kind k ▸ hk)
    shape k hk hkF := by
      by_cases h1 : k = i
      · subst h1
        rw [e.other k hdi.symm]
        exact ⟨d, (hdir (e.kind k ▸ hk)).2.1⟩
      have hkF' : ¬ F k := fun h => hkF ((hF' k).mpr ⟨h, h1⟩)
      exact g.shape_kept e hsh (e.kind k ▸ hk) hkF'
    edge k j hj := by
      rw [e.kind, hF']
      rcases (e.mem_outs_iff hp).mp hj with hj | ⟨rfl, rfl⟩
      · exact ⟨(g.edge k j hj).1, fun h => (g.edge k j hj).2 h.1⟩
      · exact ⟨hi, fun h => h.2 rfl⟩
    child k j hj hk := by
      rw [e.kind] at hk
      rcases (e.mem_outs_iff hp).mp hj with hj | ⟨rfl, rfl⟩
      · rw [g.up_kept e hsh hd hF]
        exact g.child k j hj hk
      · rw [e.other j hdi.symm]
        exact ⟨(hdir hk).1, (hdir hk).2.1.up_eq⟩
    fresh k hk := by
      have hkd : k ≠ d := fun h => hF (h ▸ ((hF' k).mp hk).1)
      rw [e.outs_of_ne hkd]
      exact g.fresh k ((hF' k).mp hk).1
    single k hk := by
      rw [e.kind] at hk
      rw [hin]
      split
      · rename_i h
        subst h
        rw [(hdir hk).2.2]
      · exact g.single k hk
    counts k hk := by
      rw [ht, hnl]
      exact g.counts k (e.kind k ▸ hk)
    counts_eq k hk hor := by
      rw [ht, hnl]
      exact g.counts_eq k (e.kind k ▸ hk) (e.kind k ▸ hor)
    empty hb' k hk hl := by
      have hkd : k ≠ d := fun h => hl (h ▸ hL d (hb hb'))
      rw [e.outs_of_ne hkd]
      exact g.empty hb' k (e.kind k ▸ hk) fun h => hl (hL k h)
    path hb' k hk hl := by
      rw [e.kind] at hk
      by_cases hki : k = i
      · subst hki
        refine Path.tail (d := d) ((g.path hb' d hd (hb hb')).mono hmono) ?_
        exact (e.mem_outs_iff hp).mpr (.inr ⟨rfl, rfl⟩)
      · refine (g.path hb' k hk (hl.imp id fun h => ?_)).mono hmono
        rw [hin, if_neg hki] at h
        exact h }

/-- **An entry is erased**, and the link counts are still to be changed. -/
theorem erase (hp : (out (N d)).Perm (i :: out (N' d))) (hn : (N' d).nlink = (N d).nlink)
    (hdi : d ≠ i) (hi : outs N i = [])
    (ho : ∀ k, owed' k = owed k + (if k = i then 1 else 0) +
      if k = d ∧ (N i).kind = .dir then 1 else 0) :
    Graph n b N' F owed' := by
  have hdn : d < n := (g.bound d (by simp [hd])).2
  have hid : i ∈ outs N d := (e.symm.mem_outs_iff hp).mpr (.inr ⟨rfl, rfl⟩)
  have hin : ∀ k, indeg n (outs N) k = indeg n (outs N') k + if k = i then 1 else 0 :=
    fun k => e.symm.indeg hdn hp
  have hmem : ∀ k j, j ∈ outs N' k → j ∈ outs N k := fun _ _ h =>
    (e.symm.mem_outs_iff hp).mpr (.inl h)
  have hkeep : ∀ k j, j ∈ outs N k → j ≠ i → j ∈ outs N' k := fun _ _ h hji =>
    ((e.symm.mem_outs_iff hp).mp h).resolve_right fun h => hji h.2
  have hnl : ∀ k, (N' k).nlink = (N k).nlink := e.keeps hn
  have ht : ∀ k, total n N' owed' k = total n N owed k := by
    intro k
    have h1 : total n N owed k = total n N' owed k + (if k = i then 1 else 0) +
      if k = d ∧ (N' i).kind = .dir then 1 else 0 := e.symm.total hdn hp
    have h2 : total n N' owed' k + owed k = total n N' owed k + owed' k := total_owed
    have h3 := ho k
    rw [e.kind] at h1
    omega
  exact {
    bound k hk := g.bound k (e.kind k ▸ hk)
    root := ⟨e.kind _ ▸ g.root.1, g.root.2⟩
    short k hk := hnl k ▸ g.short k (e.kind k ▸ hk)
    shape k hk hkF := g.shape_kept e hsh (e.kind k ▸ hk) hkF
    edge k j hj := e.kind j ▸ g.edge k j (hmem k j hj)
    child k j hj hk := by
      rw [e.kind] at hk
      rw [g.up_kept e hsh hd hF]
      exact g.child k j (hmem k j hj) hk
    fresh k hk := by
      have hkd : k ≠ d := fun h => hF (h ▸ hk)
      rw [e.outs_of_ne hkd]
      exact g.fresh k hk
    single k hk := by
      have := g.single k (e.kind k ▸ hk)
      have := hin k
      omega
    counts k hk := by
      rw [ht, hnl]
      exact g.counts k (e.kind k ▸ hk)
    counts_eq k hk hor := by
      rw [ht, hnl]
      exact g.counts_eq k (e.kind k ▸ hk) (e.kind k ▸ hor)
    empty hb k hk hl := by
      rw [e.kind] at hk
      by_cases hki : k = i
      · subst hki
        rw [e.outs_of_ne hdi.symm, hi]
      have hl' : ¬ Linked n N k := fun h => hl (h.imp id fun h => by
        rw [hin, if_neg hki] at h
        exact h)
      have hkd : k ≠ d := by
        rintro rfl
        simp [g.empty hb k hk hl'] at hid
      rw [e.outs_of_ne hkd]
      exact g.empty hb k hk hl'
    path hb k hk hl := by
      rw [e.kind] at hk
      -- the only edge to a directory was the one that is gone
      have hki : k ≠ i := by
        rintro rfl
        have h1 := (g.child d k hid hk).1
        have h2 := g.single k hk
        rw [hin, if_pos rfl] at h2
        have h3 := hl.resolve_left h1
        omega
      refine (g.path hb k hk (hl.imp id fun h => ?_)).cut hi hkeep hki
      rw [hin]
      omega }

end

/-- **The entries `.` and `..` of a new directory are written.** -/
theorem dots (e : Edit N N' a) (ha : F a) (ho : out (N' a) = []) (hn : (N' a).nlink = (N a).nlink) :
    Graph n b N' F owed := by
  have hnl : ∀ k, (N' k).nlink = (N k).nlink := e.keeps hn
  refine g.keep e (e.outs_eq (by rw [ho]; exact (g.fresh a ha).symm)) (fun k hk => ?_)
    (fun k hk => hnl k ▸ g.short k (e.kind k ▸ hk)) fun k => by rw [hnl]
  rw [e.other k fun h => hk (h ▸ ha)]

theorem lt_of_mem (h : i ∈ outs N d) : d < n :=
  (g.bound d (by simp [(mem_outs.mp h).1])).2

theorem not_mem_of_indeg (h : indeg n (outs N) i = 0) (d : Nat) :
    i ∉ outs N d := fun hi => indeg_eq_zero.mp h d (g.lt_of_mem hi) hi

theorem of_nlink_zero (hk : (N i).kind ≠ .free) (hz : (N i).nlink = 0) :
    i ≠ rootIno ∧ indeg n (outs N) i = 0 ∧ subdirs N i = 0 ∧ owed i = 0 := by
  have h := g.counts i hk
  rw [hz, total] at h
  split at h
  · omega
  · exact ⟨‹_›, by omega, by omega, by omega⟩

theorem outs_nil (hb : b = true) (hk : (N i).kind ≠ .free) (hz : (N i).nlink = 0) :
    outs N i = [] := by
  obtain ⟨hr, hin, -, -⟩ := g.of_nlink_zero hk hz
  by_cases hd : (N i).kind = .dir
  · refine g.empty hb i hd fun h => ?_
    rcases h with h | h
    · exact hr h
    · omega
  · exact outs_of_not_dir hd

/-- **An inode that is not linked is freed.**  The entries of a directory go with it; they do not
name directories. -/
theorem free (hk : (N i).kind ≠ .free) (hz : (N i).nlink = 0) (hF : ¬ F i) :
    Graph n b (update N i ⟨.free, (N i).nlink, []⟩) F owed := by
  obtain ⟨hr, hin, hsub, how⟩ := g.of_nlink_zero hk hz
  have hno := g.not_mem_of_indeg hin
  generalize hN : update N i ⟨.free, (N i).nlink, []⟩ = N'
  have hother : ∀ k, k ≠ i → N' k = N k := fun k hk => hN ▸ update_of_ne hk ..
  have hself : (N' i).kind = .free := by rw [← hN, update_self]
  have halloc : ∀ k, (N' k).kind ≠ .free → k ≠ i := fun k hk h => hk (h ▸ hself)
  have ho : outs N' = update (outs N) i [] := by
    rw [← hN, outs_update]
    rfl
  have hmem : ∀ k j, j ∈ outs N' k → j ∈ outs N k ∧ k ≠ i ∧ j ≠ i := by
    intro k j hj
    rw [ho] at hj
    by_cases hki : k = i
    · simp [hki, update_self] at hj
    · rw [update_of_ne hki] at hj
      exact ⟨hj, hki, fun h => hno k (h ▸ hj)⟩
  have hin' : ∀ k, indeg n (outs N') k + (outs N i).count k = indeg n (outs N) k := by
    intro k
    have h : indeg n (update (outs N) i []) k + (outs N i).count k =
        indeg n (outs N) k + List.count k [] := indeg_update (g.bound i hk).2
    rw [← ho] at h
    simpa using h
  have hsub' : ∀ k, k ≠ i → subdirs N' k = subdirs N k := by
    intro k hki
    rw [subdirs, subdirs, ho, update_of_ne hki]
    refine countP_congr fun j hj => ?_
    rw [isDir_iff, isDir_iff, hother j fun h => hno k (h ▸ hj)]
  have ht : ∀ k, k ≠ i → total n N' owed k + (outs N i).count k = total n N owed k := by
    intro k hki
    have := hin' k
    rw [total, total, hsub' k hki]
    omega
  -- no directory is lost, and nothing at all if removed directories are empty
  have hdir : ∀ k, (N k).kind = .dir → (outs N i).count k = 0 := by
    intro k hk
    rw [count_eq_zero]
    intro hki
    exact absurd (isDir_iff.mpr hk) (by simpa using countP_eq_zero.mp hsub k hki)
  have hnil : b = true → outs N i = [] := fun hb => g.outs_nil hb hk hz
  have hsame : b = true → outs N' = outs N := by
    intro hb
    rw [ho, ← hnil hb, update_eq_self]
  exact {
    bound k hk := g.bound k (hother k (halloc k hk) ▸ hk)
    root := ⟨hother _ hr.symm ▸ g.root.1, g.root.2⟩
    short k hk := by
      have hki := halloc k hk
      rw [hother k hki] at hk ⊢
      exact g.short k hk
    shape k hk hkF := by
      have hki := halloc k (by simp [hk])
      rw [hother k hki] at hk ⊢
      exact g.shape k hk hkF
    edge k j hj := by
      obtain ⟨h1, _, h2⟩ := hmem k j hj
      rw [hother j h2]
      exact g.edge k j h1
    child k j hj hk := by
      obtain ⟨h1, _, h2⟩ := hmem k j hj
      rw [hother j h2] at hk ⊢
      exact g.child k j h1 hk
    fresh k hk := by
      have hki : k ≠ i := fun h => hF (h ▸ hk)
      rw [ho, update_of_ne hki]
      exact g.fresh k hk
    single k hk := by
      rw [hother k (halloc k (by simp [hk]))] at hk
      have := g.single k hk
      have := hin' k
      omega
    counts k hk := by
      have hki := halloc k hk
      rw [hother k hki] at hk ⊢
      have := g.counts k hk
      have := ht k hki
      omega
    counts_eq k hk hor := by
      have hki := halloc k hk
      rw [hother k hki] at hk hor ⊢
      have := g.counts_eq k hk hor
      have := ht k hki
      have : (outs N i).count k = 0 := by
        rcases hor with h | h
        · exact hdir k h
        · simp [hnil h]
      omega
    empty hb k hk hl := by
      rw [hother k (halloc k (by simp [hk]))] at hk
      rw [Linked, hsame hb] at hl
      exact hsame hb ▸ g.empty hb k hk hl
    path hb k hk hl := by
      rw [hother k (halloc k (by simp [hk]))] at hk
      rw [Linked, hsame hb] at hl
      exact hsame hb ▸ g.path hb k hk hl }

/-- **A free inode is allocated.** -/
theorem alloc {t : Kind} (hk : (N i).kind = .free) (h0 : i ≠ 0) (hn : i < n) (how : owed i = 0)
    (hF : ∀ k, F' k ↔ F k ∨ k = i) :
    Graph n b (update N i ⟨t, 0, []⟩) F' owed := by
  have hno : ∀ d, i ∉ outs N d := fun d hi => (g.edge d i hi).1 hk
  have hr : i ≠ rootIno := by
    rintro rfl
    simp [g.root.1] at hk
  generalize hN : update N i ⟨t, 0, []⟩ = N'
  have hother : ∀ k, k ≠ i → N' k = N k := fun k hk => hN ▸ update_of_ne hk ..
  have hself : N' i = ⟨t, 0, []⟩ := by rw [← hN, update_self]
  have hnil : outs N i = [] := outs_of_not_dir (by simp [hk])
  have ho : outs N' = outs N := by
    rw [← hN, outs_update, show out ⟨t, 0, []⟩ = outs N i by simp [hnil, out, edges],
      update_eq_self]
  have hmem : ∀ k j, j ∈ outs N' k → j ∈ outs N k ∧ j ≠ i := fun k j hj =>
    ⟨ho ▸ hj, fun h => hno k (h ▸ ho ▸ hj)⟩
  have hsub : ∀ k, subdirs N' k = subdirs N k := by
    intro k
    rw [subdirs, subdirs, ho]
    refine countP_congr fun j hj => ?_
    rw [isDir_iff, isDir_iff, hother j fun h => hno k (h ▸ hj)]
  have ht : ∀ k, total n N' owed k = total n N owed k := fun k => by rw [total, total, hsub, ho]
  have hi : total n N owed i = 0 := by
    have h : indeg n (outs N) i = 0 := indeg_eq_zero.mpr fun d _ => hno d
    simp [total, h, how, hr, subdirs, hnil]
  have hL : ∀ d, Linked n N' d ↔ Linked n N d := fun d => by rw [Linked, Linked, ho]
  exact {
    bound k hk := by
      by_cases hki : k = i
      · exact hki ▸ ⟨h0, hn⟩
      · exact g.bound k (hother k hki ▸ hk)
    root := ⟨hother _ hr.symm ▸ g.root.1, fun h => ((hF _).mp h).elim g.root.2 hr.symm⟩
    short k hk := by
      by_cases hki : k = i
      · rw [hki, hself]
        exact limit_pos b
      · rw [hother k hki] at hk ⊢
        exact g.short k hk
    shape k hk hkF := by
      have hki : k ≠ i := fun h => hkF ((hF k).mpr (.inr h))
      rw [hother k hki] at hk ⊢
      exact g.shape k hk fun h => hkF ((hF k).mpr (.inl h))
    edge k j hj := by
      obtain ⟨h1, h2⟩ := hmem k j hj
      rw [hother j h2, hF]
      exact ⟨(g.edge k j h1).1, fun h => h.elim (g.edge k j h1).2 h2⟩
    child k j hj hk := by
      obtain ⟨h1, h2⟩ := hmem k j hj
      rw [hother j h2] at hk ⊢
      exact g.child k j h1 hk
    fresh k hk := by
      rw [ho]
      rcases (hF k).mp hk with h | rfl
      · exact g.fresh k h
      · exact hnil
    single k hk := by
      rw [ho]
      by_cases hki : k = i
      · rw [hki, indeg_eq_zero.mpr fun d _ => hno d]
        exact Nat.zero_le _
      · exact g.single k (hother k hki ▸ hk)
    counts k hk := by
      rw [ht]
      by_cases hki : k = i
      · rw [hki, hi]
        exact Nat.zero_le _
      · rw [hother k hki] at hk ⊢
        exact g.counts k hk
    counts_eq k hk hor := by
      rw [ht]
      by_cases hki : k = i
      · rw [hki, hi, hself]
      · rw [hother k hki] at hk hor ⊢
        exact g.counts_eq k hk hor
    empty hb k hk hl := by
      rw [ho]
      by_cases hki : k = i
      · rw [hki, hnil]
      · exact g.empty hb k (hother k hki ▸ hk) (mt (hL k).mpr hl)
    path hb k hk hl := by
      rw [ho]
      rw [hL] at hl
      by_cases hki : k = i
      · have h : indeg n (outs N) i = 0 := indeg_eq_zero.mpr fun d _ => hno d
        subst hki
        rcases hl with h' | h'
        · exact absurd h' hr
        · omega
      · exact g.path hb k (hother k hki ▸ hk) hl }

end

end Graph

end Nodes

/-! ## What the calls have begun -/

section Jobs

variable {P : Type} {n : Nat} {b : Bool} {N N' : Nat → Node} {J : P → Job} {p : P} {j : Job}
  {i : Nat}

/-- A call is making the inode `i`. -/
def Fresh (J : P → Job) (i : Nat) : Prop := ∃ p, (J p).fresh = some i

/-- What the running calls have counted in advance. -/
def owed [Fintype P] (J : P → Job) (i : Nat) : Nat := ∑ p, (J p).owed i

theorem owed_pos [Fintype P] (h : 0 < (J p).owed i) : 0 < owed J i :=
  h.trans_le (Finset.single_le_sum (f := fun p => (J p).owed i) (fun _ _ => Nat.zero_le _)
    (Finset.mem_univ p))

theorem owed_update [Fintype P] [DecidableEq P] :
    owed (update J p j) i + (J p).owed i = owed J i + j.owed i :=
  Lts.sum_update (f := fun k : Job => k.owed i) (Finset.mem_univ p)

theorem fresh_update [DecidableEq P] : Fresh (update J p j) i ↔
    j.fresh = some i ∨ ∃ q, q ≠ p ∧ (J q).fresh = some i := by
  constructor
  · rintro ⟨q, hq⟩
    by_cases h : q = p
    · rw [h, update_self] at hq
      exact .inl hq
    · rw [update_of_ne h] at hq
      exact .inr ⟨q, h, hq⟩
  · rintro (h | ⟨q, hqp, hq⟩)
    · exact ⟨p, by rwa [update_self]⟩
    · exact ⟨q, by rwa [update_of_ne hqp]⟩

theorem fresh_update_same [DecidableEq P] (h : j.fresh = (J p).fresh) :
    Fresh (update J p j) = Fresh J := by
  funext i
  refine propext (exists_congr fun q => ?_)
  by_cases hq : q = p
  · rw [hq, update_self, h]
  · rw [update_of_ne hq]

theorem owed_update_same [Fintype P] [DecidableEq P] (h : ∀ i, j.owed i = (J p).owed i) :
    owed (update J p j) = owed J := by
  funext i
  have h1 : owed (update J p j) i + (J p).owed i = owed J i + j.owed i := owed_update
  have h2 := h i
  omega

theorem fresh_of_dying (h : j.dying = some i) : j.fresh = none := by
  rcases j with _ | _ | _ | _ | _ | _ <;> first | rfl | nomatch h

/-- What a call relies on for what it has begun. -/
def JobOk (n : Nat) (N : Nat → Node) : Job → Prop
  | .none => True
  | .link i => (N i).kind ≠ .free ∧ (N i).kind ≠ .dir
  | .alloc i k => N i = ⟨k, 0, []⟩ ∧ k ≠ .free
  | .made i up => (N i).kind ≠ .free ∧ ∀ d, up = some d → (N i).kind = .dir ∧ (N d).kind = .dir
  | .erased i up b => (N i).kind ≠ .free ∧ (∀ d, up = some d → (N d).kind = .dir) ∧
    if b then (N i).kind = .dir ∧ i ≠ rootIno ∧ indeg n (outs N) i = 0 else (N i).kind ≠ .dir
  | .gone i => (N i).kind = .dir ∧ i ≠ rootIno ∧ indeg n (outs N) i = 0

/-- The inodes that a job mentions. -/
def Job.about : Job → List Nat
  | .none => []
  | .link i | .alloc i _ | .gone i => [i]
  | .made i up | .erased i up _ => i :: up.toList

theorem JobOk.kind_ne_free (h : JobOk n N j) (hi : i ∈ j.about) : (N i).kind ≠ .free := by
  cases j with
  | none => nomatch hi
  | link k => exact mem_singleton.mp hi ▸ h.1
  | alloc k t =>
    obtain rfl := mem_singleton.mp hi
    rw [h.1]
    exact h.2
  | made k up =>
    rcases mem_cons.mp hi with rfl | hi
    · exact h.1
    · simp [(h.2 i (by simpa using hi)).2]
  | erased k up b =>
    rcases mem_cons.mp hi with rfl | hi
    · exact h.1
    · simp [h.2.1 i (by simpa using hi)]
  | gone k =>
    obtain rfl := mem_singleton.mp hi
    simp [h.1]

theorem JobOk.dying (h : JobOk n N j) (hd : j.dying = some i) :
    (N i).kind = .dir ∧ i ≠ rootIno ∧ indeg n (outs N) i = 0 := by
  cases j with
  | erased k up b =>
    cases b with
    | true =>
      cases hd
      exact h.2.2
    | false => nomatch hd
  | gone k =>
    cases hd
    exact h
  | none | link | alloc | made => nomatch hd

/-- Jobs look at the kinds of the inodes they mention, at the inode that has been allocated, and at
the number of edges to a directory that is being removed. -/
theorem JobOk.congr (h : JobOk n N j) (hk : ∀ i ∈ j.about, (N' i).kind = (N i).kind)
    (hf : ∀ i t, j = .alloc i t → N' i = N i)
    (hd : ∀ i, j.dying = some i → indeg n (outs N) i = 0 → indeg n (outs N') i = 0) :
    JobOk n N' j := by
  cases j with
  | none => trivial
  | link i =>
    rw [JobOk, hk i mem_cons_self]
    exact h
  | alloc i k => exact ⟨(hf i k rfl).trans h.1, h.2⟩
  | made i up =>
    rw [JobOk, hk i mem_cons_self]
    refine ⟨h.1, fun d hu => ?_⟩
    rw [hk d (by simp [Job.about, hu])]
    exact h.2 d hu
  | erased i up b =>
    rw [JobOk, hk i mem_cons_self]
    refine ⟨h.1, fun d hu => ?_, ?_⟩
    · rw [hk d (by simp [Job.about, hu])]
      exact h.2.1 d hu
    · have h3 := h.2.2
      cases b with
      | true => exact ⟨h3.1, h3.2.1, hd i rfl h3.2.2⟩
      | false => exact h3
  | gone i =>
    rw [JobOk, hk i mem_cons_self]
    exact ⟨h.1, h.2.1, hd i rfl h.2.2⟩

theorem about_cases (h : i ∈ j.about) : 0 < j.owed i ∨ j.fresh = some i ∨ j.dying = some i := by
  cases j with
  | none => nomatch h
  | link k => exact .inl (by simp [Job.owed, mem_singleton.mp h])
  | alloc k t => exact .inr (.inl (by simp [Job.fresh, mem_singleton.mp h]))
  | made k up | erased k up b =>
    refine .inl ?_
    rcases mem_cons.mp h with rfl | h
    · simp [Job.owed]
    · simp [Job.owed, Option.mem_toList.mp h]
  | gone k => exact .inr (.inr (by simp [Job.dying, mem_singleton.mp h]))

/-- What is counted in advance is locked, except by `sys_link`. -/
theorem pins_of_owed (h : 0 < j.owed i) : i ∈ j.pins ∨ j = .link i := by
  cases j with
  | link k => exact .inr (by grind [Job.owed])
  | made k up | erased k up b => exact .inl (by grind [Job.owed, Job.pins])
  | none | alloc | gone => cases h

theorem mem_about_of_fresh (h : j.fresh = some i) : i ∈ j.about := by
  cases j <;> simp_all [Job.fresh, Job.about]

theorem mem_about_of_dying (h : j.dying = some i) : i ∈ j.about := by
  rcases j with _ | _ | _ | _ | ⟨k, up, _ | _⟩ | _ <;> simp_all [Job.dying, Job.about]

theorem mem_about_of_owed (h : 0 < j.owed i) : i ∈ j.about := by
  cases j <;> grind [Job.owed, Job.about]

/-- The jobs that do not get in each other's way. -/
structure Jobs (n : Nat) (b : Bool) (N : Nat → Node) (J : P → Job) : Prop where
  ok : ∀ p, JobOk n N (J p)
  apart : ∀ p q i, (J p).fresh = some i → (J q).fresh = some i → p = q
  dying : ∀ p i, (J p).dying = some i → ¬ Fresh J i
  /-- Nothing is made in a removed directory. -/
  made : b = true → ∀ p i d, J p = .made i (some d) → Linked n N d

namespace Jobs

theorem fresh_ne_free (h : Jobs n b N J) (hf : Fresh J i) : (N i).kind ≠ .free := by
  obtain ⟨q, hq⟩ := hf
  exact (h.ok q).kind_ne_free (mem_about_of_fresh hq)

theorem owed_of_free [Fintype P] (h : Jobs n b N J) (hi : (N i).kind = .free) : owed J i = 0 := by
  rw [owed, Finset.sum_eq_zero_iff]
  intro q _
  by_contra hne
  exact (h.ok q).kind_ne_free (mem_about_of_owed (Nat.pos_of_ne_zero hne)) hi

/-- **One job goes on.** -/
theorem step [DecidableEq P] (h : Jobs n b N J) (hj : JobOk n N' j)
    (hq : ∀ q, q ≠ p → JobOk n N' (J q))
    (hf : ∀ i, j.fresh = some i → (J p).fresh = some i ∨ (N i).kind = .free)
    (hd : ∀ i, j.dying = some i → ¬ Fresh J i ∧ j.fresh = none)
    (hm : b = true → ∀ i d, j = .made i (some d) → Linked n N' d)
    (hL : b = true → ∀ q i d, q ≠ p → J q = .made i (some d) → Linked n N d → Linked n N' d) :
    Jobs n b N' (update J p j) := by
  have hJ : ∀ q, q ≠ p → update J p j q = J q := fun q hq => update_of_ne hq ..
  have hJp : update J p j p = j := update_self ..
  have hnew : ∀ q i, q ≠ p → j.fresh = some i → (J q).fresh ≠ some i := by
    intro q i hqp h1 h2
    rcases hf i h1 with h1 | h1
    · exact hqp (h.apart q p i h2 h1)
    · exact h.fresh_ne_free ⟨q, h2⟩ h1
  refine ⟨fun q => ?_, fun q r i h1 h2 => ?_, fun q i h1 => ?_, fun hb q i d h1 => ?_⟩
  · by_cases hqp : q = p
    · rw [hqp, hJp]
      exact hj
    · rw [hJ q hqp]
      exact hq q hqp
  · by_cases hqp : q = p <;> by_cases hrp : r = p
    · rw [hqp, hrp]
    · rw [hqp, hJp] at h1
      rw [hJ r hrp] at h2
      exact absurd h2 (hnew r i hrp h1)
    · rw [hrp, hJp] at h2
      rw [hJ q hqp] at h1
      exact absurd h1 (hnew q i hqp h2)
    · rw [hJ q hqp] at h1
      rw [hJ r hrp] at h2
      exact h.apart q r i h1 h2
  · rw [fresh_update]
    by_cases hqp : q = p
    · rw [hqp, hJp] at h1
      rintro (h2 | ⟨r, hr, h2⟩)
      · simp [(hd i h1).2] at h2
      · exact (hd i h1).1 ⟨r, h2⟩
    · rw [hJ q hqp] at h1
      rintro (h2 | ⟨r, hr, h2⟩)
      · rcases hf i h2 with h2 | h2
        · exact h.dying q i h1 ⟨p, h2⟩
        · exact (h.ok q).kind_ne_free (mem_about_of_dying h1) h2
      · exact h.dying q i h1 ⟨r, h2⟩
  · by_cases hqp : q = p
    · rw [hqp, hJp] at h1
      exact hm hb i d h1
    · rw [hJ q hqp] at h1
      exact hL hb q i d hqp h1 (h.made hb q i d h1)

end Jobs

end Jobs

end Xv6.Dir
