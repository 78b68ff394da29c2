import PointsTo.Proofs.DisjointSets.Find
import Mathlib.Logic.Relation

/-!
# Classes as an equivalence closure

A class table is used by creating nodes, looking up roots and joining classes. What
has been joined is remembered here beside the table, as a list of pairs (`Called`), and
the classes are those of the smallest equivalence that holds of the pairs. Look-ups
shorten paths in between and change nothing that can be asked for (`Halved`). So the
only call that has to be looked at is a join, and it changes the roots of two classes
to the one of them that stays.

Neither of the two look-ups needs the fuel that it is given: `Leads` and `Halves` are
their loops without it. The classes are counted by their roots, so a join of two
classes always has a class to give up.

Nodes are named by indices of 32 bits, of which there are `maxIndex + 1`, and this is
about tables of so many nodes at most. Up to there no call cuts anything that matters, so
the tables are those of calls that cut nothing (`Built`). A further entry would have its
link cut to the index `0`: it would count as a class of its own and yet be of the class of
the first node.
-/

namespace PointsTo

namespace DisjointSets

/-- The loop of `find`: from `n` on it ends at `r` and leaves the table `e`. -/
inductive Halves : DisjointSets → Nat → Nat → DisjointSets → Prop
  | root {d : DisjointSets} {n : Nat} : d.up n = n → Halves d n n d
  | skip {d e : DisjointSets} {n r : Nat} :
      d.up n ≠ n → Halves (d.skip n) (d.up (d.up n)) r e → Halves d n r e

/-- The table `e` is `d` with shorter paths. -/
structure Halved (d e : DisjointSets) : Prop extends d.Shortens e where
  rank_eq : e.rank = d.rank
  classes_eq : e.classes = d.classes

/-- The roots of the classes. -/
def roots (d : DisjointSets) : Finset Nat := (Finset.range d.size).image d.root

/-- Every node has a rank, and the classes have been counted. -/
structure Counted (d : DisjointSets) : Prop where
  rank_size : d.rank.size = d.size
  classes_eq : d.classes = d.roots.card

/-- What a join of the classes of `a` and `b` leads to: the root `r` and the table `e`. -/
structure Joins (d : DisjointSets) (a b r : Nat) (e : DisjointSets) : Prop where
  wellFormed : e.WellFormed
  size_eq : e.size = d.size
  /-- The root of the joined class is one of the two. -/
  root_cases : r = d.root a ∨ r = d.root b
  root_eq (n : Nat) : e.root n = if d.root n = d.root a ∨ d.root n = d.root b then r else d.root n

/-- The tables that come of single nodes by calls for nodes of the table, with the pairs
of nodes whose classes have been joined. No link is cut to 32 bits here. -/
inductive Built : List (Nat × Nat) → DisjointSets → Prop
  | singletons (n : Nat) : Built [] (singletons n)
  | push {pairs : List (Nat × Nat)} {d : DisjointSets} : Built pairs d → Built pairs d.push
  | find {pairs : List (Nat × Nat)} {d : DisjointSets} {n : Nat} (hn : n < d.size) :
      Built pairs d → Built pairs (d.find n).2
  | connected {pairs : List (Nat × Nat)} {d : DisjointSets} {a b : Nat} (ha : a < d.size)
      (hb : b < d.size) : Built pairs d → Built pairs (d.connected a b).2
  | representatives {pairs : List (Nat × Nat)} {d : DisjointSets} :
      Built pairs d → Built pairs d.representatives.2
  | union {pairs : List (Nat × Nat)} {d : DisjointSets} {a b : Nat} (ha : a < d.size)
      (hb : b < d.size) : Built pairs d → Built ((a, b) :: pairs) (d.union a b).2

section Lookups

variable {d e f : DisjointSets} {a b n r : Nat} {ns : List Nat}

/-- Where the walk with fuel has come to a root, it has not been cut off. -/
theorem halves_halve {fuel : Nat}
    (h : (d.halve fuel n).2.up (d.halve fuel n).1 = (d.halve fuel n).1) :
    d.Halves n (d.halve fuel n).1 (d.halve fuel n).2 := by
  induction fuel generalizing d n with
  | zero => exact .root h
  | succ fuel ih =>
      rw [halve] at h ⊢
      by_cases hn : d.up n = n
      · rw [if_pos hn]
        exact .root hn
      · rw [if_neg hn] at h ⊢
        exact .skip hn (ih h)

theorem halve_frame (d : DisjointSets) (fuel n : Nat) :
    (d.halve fuel n).2.rank = d.rank ∧ (d.halve fuel n).2.classes = d.classes := by
  induction fuel generalizing d n with
  | zero => exact ⟨rfl, rfl⟩
  | succ fuel ih =>
      rw [halve]
      split
      next => exact ⟨rfl, rfl⟩
      next => exact ih (d.skip n) (d.up (d.up n))

theorem WellFormed.halved_refl (hd : d.WellFormed) : d.Halved d := ⟨hd.shortens_refl, rfl, rfl⟩

theorem Halved.trans (h : d.Halved e) (h' : e.Halved f) : d.Halved f :=
  ⟨h.toShortens.trans h'.toShortens, h'.rank_eq.trans h.rank_eq,
    h'.classes_eq.trans h.classes_eq⟩

theorem WellFormed.find_fst (hd : d.WellFormed) (n : Nat) : (d.find n).1 = d.root n :=
  (hd.find_spec n).1

theorem WellFormed.find_halved (hd : d.WellFormed) (n : Nat) : d.Halved (d.find n).2 where
  toShortens := (hd.find_spec n).2
  rank_eq := (d.halve_frame d.size n).1
  classes_eq := (d.halve_frame d.size n).2

theorem WellFormed.halves_find (hd : d.WellFormed) (n : Nat) :
    d.Halves n (d.find n).1 (d.find n).2 := by
  have hshorter := (hd.find_halved n).toShortens
  refine halves_halve (hshorter.wellFormed.root_eq_self_iff.1 ?_)
  change (d.find n).2.root (d.find n).1 = (d.find n).1
  rw [hshorter.root_eq, hd.find_fst, hd.root_root]

theorem WellFormed.findAll_halved (hd : d.WellFormed) (ns : List Nat) :
    d.Halved (d.findAll ns).2 := by
  induction ns generalizing d with
  | nil => exact hd.halved_refl
  | cons n ns ih =>
      have hfirst := hd.find_halved n
      exact hfirst.trans (ih hfirst.wellFormed)

theorem WellFormed.connected_spec (hd : d.WellFormed) (a b : Nat) :
    (d.connected a b).1 = decide (d.root a = d.root b) ∧ d.Halved (d.connected a b).2 := by
  have hfirst := hd.find_halved a
  have hsecond := hfirst.wellFormed.find_halved b
  refine ⟨?_, hfirst.trans hsecond⟩
  change ((d.find a).1 == ((d.find a).2.find b).1) = decide (d.root a = d.root b)
  rw [hd.find_fst, hfirst.wellFormed.find_fst, hfirst.root_eq]
  rfl

/-- A look-up of a node of the table does not leave the table. -/
theorem WellFormed.find?_eq (hd : d.WellFormed) (hn : n < d.size) :
    d.find? n = some (d.find n) := by
  rw [find?, hd.find_fst, if_pos (hd.root_lt hn)]

theorem WellFormed.root?_eq (hd : d.WellFormed) (hn : n < d.size) :
    d.root? n = some (d.root n) :=
  if_pos (hd.root_lt hn)

end Lookups

/-! ## Joining two classes -/

section Union

variable {d e : DisjointSets} {a b : Nat}

theorem Halved.roots_eq (h : d.Halved e) : e.roots = d.roots := by
  rw [roots, roots, h.size_eq]
  exact Finset.image_congr fun n _ => h.root_eq n

theorem Halved.counted (h : d.Halved e) (hd : d.Counted) : e.Counted where
  rank_size := by rw [h.rank_eq, h.size_eq, hd.rank_size]
  classes_eq := by rw [h.classes_eq, h.roots_eq, hd.classes_eq]

theorem Halved.apart (h : d.Halved e) (hab : d.Apart a b) : e.Apart a b where
  ne := hab.ne
  left_lt := h.size_eq.symm ▸ hab.left_lt
  right_lt := h.size_eq.symm ▸ hab.right_lt
  left_root := (h.root_eq a).trans hab.left_root
  right_root := (h.root_eq b).trans hab.right_root

theorem mem_roots_root {n : Nat} (hn : n < d.size) : d.root n ∈ d.roots :=
  Finset.mem_image_of_mem d.root (Finset.mem_range.2 hn)

theorem WellFormed.mem_roots_iff (hd : d.WellFormed) {r : Nat} :
    r ∈ d.roots ↔ r < d.size ∧ d.root r = r := by
  constructor
  · intro hr
    obtain ⟨n, hn, rfl⟩ := Finset.mem_image.1 hr
    exact ⟨hd.root_lt (Finset.mem_range.1 hn), hd.root_root n⟩
  · rintro ⟨hlt, hr⟩
    rw [← hr]
    exact mem_roots_root hlt

theorem counted_empty : ({} : DisjointSets).Counted := ⟨rfl, rfl⟩

/-- A new node is a class of its own. -/
theorem Counted.push (hd : d.Counted) (hwf : d.WellFormed) : d.push.Counted where
  rank_size := by
    rw [size_push, ← hd.rank_size]
    exact Array.size_push _
  classes_eq := by
    have hroots : d.push.roots = insert d.size d.roots := by
      rw [roots, size_push, Finset.range_add_one, Finset.image_insert, hwf.root_push,
        root_of_size_le (Nat.le_refl d.size)]
      exact congrArg _ (Finset.image_congr fun n _ => hwf.root_push n)
    have hnew : d.size ∉ d.roots := fun hmem =>
      Nat.lt_irrefl _ (hwf.mem_roots_iff.1 hmem).1
    rw [hroots, Finset.card_insert_of_notMem hnew, ← hd.classes_eq]
    rfl

section Link

variable (hd : d.WellFormed) (h : d.Apart a b)

include hd h

theorem WellFormed.roots_link : (d.link a b).2.roots = d.roots.erase (d.absorbed a b) := by
  obtain ⟨_, hgone, hkeep, hne⟩ := h.link_roots
  ext r
  rw [(hd.link h).mem_roots_iff, Finset.mem_erase, hd.mem_roots_iff, size_link,
    hd.root_link h]
  split
  next hr =>
    constructor
    · rintro ⟨_, rfl⟩
      exact absurd (hkeep.symm.trans hr) hne
    · rintro ⟨hself, _, hroot⟩
      exact absurd (hroot.symm.trans hr) hself
  next hr =>
    refine ⟨fun ⟨hlt, hroot⟩ => ⟨?_, hlt, hroot⟩, And.right⟩
    rintro rfl
    exact hr hgone

/-- Two classes become one, so there is one to give up. -/
theorem WellFormed.counted_link (hc : d.Counted) :
    (d.link a b).2.Counted ∧ (d.link a b).2.classes + 1 = d.classes := by
  obtain ⟨hlt, hgone, _, _⟩ := h.link_roots
  have hmem : d.absorbed a b ∈ d.roots := hd.mem_roots_iff.2 ⟨hlt, hgone⟩
  have hcard := Finset.card_erase_add_one hmem
  have hclasses : (d.link a b).2.classes = d.classes - 1 := rfl
  refine ⟨⟨?_, ?_⟩, ?_⟩
  · rw [size_link, ← hc.rank_size]
    exact Array.size_setIfInBounds ..
  · rw [hd.roots_link h, hclasses, hc.classes_eq, Finset.card_erase_of_mem hmem]
  · rw [hclasses, hc.classes_eq, ← hcard, Nat.add_sub_cancel]

end Link

/-- A join looks up both roots and links them if they are different. -/
theorem WellFormed.union_eq (hd : d.WellFormed) (a b : Nat) :
    d.union a b = if d.root a = d.root b then (d.root a, (d.connected a b).2)
      else (d.connected a b).2.link (d.root a) (d.root b) := by
  have hfirst := hd.find_halved a
  rw [← hd.find_fst a, ← hfirst.root_eq b, ← hfirst.wellFormed.find_fst b]
  rfl

theorem WellFormed.union_cases (hd : d.WellFormed) (ha : a < d.size) (hb : b < d.size) :
    ∃ e, d.Halved e ∧
      ((d.root a = d.root b ∧ d.union a b = (d.root a, e)) ∨
        e.Apart (d.root a) (d.root b) ∧ d.union a b = e.link (d.root a) (d.root b)) := by
  have hboth := (hd.connected_spec a b).2
  refine ⟨_, hboth, ?_⟩
  rw [hd.union_eq]
  by_cases heq : d.root a = d.root b
  · exact .inl ⟨heq, if_pos heq⟩
  · exact .inr ⟨hboth.apart (hd.apart ha hb heq), if_neg heq⟩

theorem WellFormed.union_joins (hd : d.WellFormed) (ha : a < d.size) (hb : b < d.size) :
    d.Joins a b (d.union a b).1 (d.union a b).2 := by
  obtain ⟨e, he, ⟨heq, hunion⟩ | ⟨hapart, hunion⟩⟩ := hd.union_cases ha hb <;> rw [hunion]
  · refine ⟨he.wellFormed, he.size_eq, .inl rfl, fun n => ?_⟩
    rw [he.root_eq]
    split
    next hn => exact hn.elim id fun hn => hn.trans heq.symm
    next => rfl
  · refine ⟨he.wellFormed.link hapart, (size_link ..).trans he.size_eq,
      (link_cases e hapart.ne).imp And.left And.left, fun n => ?_⟩
    rw [he.wellFormed.root_link_eq hapart, he.root_eq]

/-- Joining two different classes leaves one class less. -/
theorem WellFormed.counted_union (hd : d.WellFormed) (hc : d.Counted) (ha : a < d.size)
    (hb : b < d.size) :
    (d.union a b).2.Counted ∧
      (d.union a b).2.classes + (if d.root a = d.root b then 0 else 1) = d.classes := by
  obtain ⟨e, he, ⟨heq, hunion⟩ | ⟨hapart, hunion⟩⟩ := hd.union_cases ha hb <;> rw [hunion]
  · rw [if_pos heq]
    exact ⟨he.counted hc, he.classes_eq⟩
  · rw [if_neg hapart.ne, ← he.classes_eq]
    exact he.wellFormed.counted_link hapart (he.counted hc)

/-- A join of two nodes of the table finds ranks for their roots and a class to give up. -/
theorem WellFormed.union?_eq (hd : d.WellFormed) (hc : d.Counted) (ha : a < d.size)
    (hb : b < d.size) : d.union? a b = some (d.union a b) := by
  have hfirst := hd.find_halved a
  have hsecond := hfirst.wellFormed.find_halved b
  have hboth := hfirst.trans hsecond
  have hroom : (d.find a).1 < ((d.find a).2.find b).2.rank.size ∧
      ((d.find a).2.find b).1 < ((d.find a).2.find b).2.rank.size ∧
      0 < ((d.find a).2.find b).2.classes := by
    rw [hboth.rank_eq, hc.rank_size, hboth.classes_eq, hc.classes_eq, hd.find_fst,
      hfirst.wellFormed.find_fst, hfirst.root_eq]
    exact ⟨hd.root_lt ha, hd.root_lt hb, Finset.card_pos.2 ⟨_, mem_roots_root ha⟩⟩
  rw [union?, hd.find?_eq ha, Option.bind_eq_bind, Option.bind_some]
  dsimp only
  rw [hfirst.wellFormed.find?_eq (hfirst.size_eq.symm ▸ hb), Option.bind_some, if_pos hroom]
  split
  next hsame => exact congrArg some (if_pos hsame).symm
  next hne => exact congrArg some (if_neg hne).symm

end Union

/-! ## What has been joined -/

/-- The smallest equivalence that holds of the pairs. -/
abbrev Joined (pairs : List (Nat × Nat)) : Nat → Nat → Prop :=
  Relation.EqvGen fun a b => (a, b) ∈ pairs

/-- The classes of `d` are those of the smallest equivalence that holds of the pairs. -/
structure Represents (d : DisjointSets) (pairs : List (Nat × Nat)) : Prop where
  wellFormed : d.WellFormed
  counted : d.Counted
  root_eq_iff (m n : Nat) : d.root m = d.root n ↔ Joined pairs m n

section Represents

variable {pairs : List (Nat × Nat)} {d e : DisjointSets} {a b m n r : Nat}

theorem joined_nil_iff : Joined [] m n ↔ m = n := by
  constructor
  · intro h
    induction h with
    | rel _ _ h => exact absurd h List.not_mem_nil
    | refl _ => rfl
    | symm _ _ _ ih => exact ih.symm
    | trans _ _ _ _ _ ih ih' => exact ih.trans ih'
  · rintro rfl
    exact .refl m

theorem Joined.cons (h : Joined pairs m n) (pair : Nat × Nat) : Joined (pair :: pairs) m n :=
  h.mono fun _ _ => List.mem_cons_of_mem pair

/-- A join relates its two nodes, and what follows from that, but nothing else. -/
theorem Joins.root_eq_iff (h : d.Joins a b r e)
    (hd : ∀ m n, d.root m = d.root n ↔ Joined pairs m n) (m n : Nat) :
    e.root m = e.root n ↔ Joined ((a, b) :: pairs) m n := by
  constructor
  · have hpair : Joined ((a, b) :: pairs) a b := .rel a b List.mem_cons_self
    have hside : ∀ n, d.root n = d.root a ∨ d.root n = d.root b →
        Joined ((a, b) :: pairs) n a := by
      rintro n (hn | hn)
      · exact ((hd n a).1 hn).cons _
      · exact (((hd n b).1 hn).cons _).trans _ _ _ (hpair.symm _ _)
    have hroot : r = d.root a ∨ r = d.root b := h.root_cases
    rw [h.root_eq, h.root_eq]
    intro heq
    -- a node that was in neither class has not got the root of the joined one
    split at heq <;> rename_i hm <;> split at heq <;> rename_i hn
    · exact (hside m hm).trans _ _ _ ((hside n hn).symm _ _)
    · exact absurd (heq ▸ hroot) hn
    · exact absurd (heq ▸ hroot) hm
    · exact ((hd m n).1 heq).cons _
  · intro hjoined
    induction hjoined with
    | rel x y hpair =>
        rcases List.mem_cons.1 hpair with heq | hmem
        · obtain ⟨rfl, rfl⟩ := Prod.mk.inj heq
          rw [h.root_eq, h.root_eq, if_pos (.inl rfl), if_pos (.inr rfl)]
        · rw [h.root_eq, h.root_eq, (hd x y).2 (.rel x y hmem)]
    | refl _ => rfl
    | symm _ _ _ ih => exact ih.symm
    | trans _ _ _ _ _ ih ih' => exact ih.trans ih'

theorem represents_empty : ({} : DisjointSets).Represents [] where
  wellFormed := wellFormed_empty
  counted := counted_empty
  root_eq_iff m n := by
    rw [joined_nil_iff, root_of_size_le (Nat.zero_le m), root_of_size_le (Nat.zero_le n)]

theorem Represents.push (h : d.Represents pairs) : d.push.Represents pairs where
  wellFormed := h.wellFormed.push
  counted := h.counted.push h.wellFormed
  root_eq_iff m n := by rw [h.wellFormed.root_push, h.wellFormed.root_push, h.root_eq_iff]

theorem Represents.halved (h : d.Represents pairs) (he : d.Halved e) : e.Represents pairs where
  wellFormed := he.wellFormed
  counted := he.counted h.counted
  root_eq_iff m n := by rw [he.root_eq, he.root_eq, h.root_eq_iff]

theorem Represents.union (h : d.Represents pairs) (ha : a < d.size) (hb : b < d.size) :
    (d.union a b).2.Represents ((a, b) :: pairs) where
  wellFormed := (h.wellFormed.union_joins ha hb).wellFormed
  counted := (h.wellFormed.counted_union h.counted ha hb).1
  root_eq_iff := (h.wellFormed.union_joins ha hb).root_eq_iff h.root_eq_iff

theorem represents_singletons (n : Nat) : (singletons n).Represents [] := by
  induction n with
  | zero => exact represents_empty
  | succ n ih => exact ih.push

theorem Built.represents (h : Built pairs d) : d.Represents pairs := by
  induction h with
  | singletons n => exact represents_singletons n
  | push _ ih => exact ih.push
  | find _ _ ih => exact ih.halved (ih.wellFormed.find_halved _)
  | connected _ _ _ ih => exact ih.halved (ih.wellFormed.connected_spec _ _).2
  | representatives _ ih => exact ih.halved (ih.wellFormed.findAll_halved _)
  | union ha hb _ ih => exact ih.union ha hb

end Represents

end DisjointSets

end PointsTo
