import PointsTo.NodeTable
import PointsTo.Proofs.DisjointSets
import Mathlib.Data.List.Perm.Subperm

/-!
# Well-formed node tables

A table that is built by creating nodes and merging classes is well formed: the
nodes, the classes and the facts about classes have the same indices, every node
knows its own index, and the nodes of an object lie side by side and agree on
the layout of the object. Two facts about a class are needed. To bound what can
flow into it, a class with a pointee is known to hold one. To tell which classes
may not be merged, the special node that a class is said to hold is in it.

While the fields of an object are appended one by one, the object is incomplete
and only its last field restores the layout. So what holds of any append,
`Coherent`, is kept apart from what holds of finished objects.
-/

namespace PointsTo

namespace NodeTable

/-- The layout of the object that `n` belongs to. -/
def layout? (t : NodeTable) (n : Nat) : Option Layout := (t.node? n).bind Node.layout?

/-- The node `m` is a special node of the kind `k`. -/
def IsSpecial (t : NodeTable) (k : Special) (m : Nat) : Prop :=
  ∃ node, t.node? m = some node ∧ node.kind = .special k

/-- The class of `n` holds a special node of the kind `k`. -/
def HoldsSpecial (t : NodeTable) (n : Nat) (k : Special) : Prop :=
  ∃ m, t.root m = t.root n ∧ t.IsSpecial k m

structure Coherent (t : NodeTable) : Prop where
  sets : t.sets.WellFormed
  sets_size : t.sets.size = t.size
  facts_size : t.facts.size = t.size
  index_eq (n : Nat) (node : Node) : t.node? n = some node → node.index = n
  hasPointee (n : Nat) : t.isPointee n = true → (t.factsOf n).hasPointee = true
  holdsSpecial (n : Nat) (k : Special) : (t.factsOf n).special = some k → t.HoldsSpecial n k

structure WellFormed (t : NodeTable) : Prop extends t.Coherent where
  layout_eq (n : Nat) (l : Layout) : t.layout? n = some l →
    n = l.base + l.offset ∧ l.offset < l.fieldCount
  field_eq (n : Nat) (l : Layout) : t.layout? n = some l →
    ∀ i < l.fieldCount, t.layout? (l.base + i) = some { l with offset := i }

theorem lt_size_of_node? {t : NodeTable} {n : Nat} {node : Node} (h : t.node? n = some node) :
    n < t.size :=
  (Array.getElem?_eq_some_iff.1 h).1

theorem contains_iff {t : NodeTable} {n : Nat} : t.contains n = true ↔ n < t.size :=
  decide_eq_true_iff

theorem layout?_eq_some_iff {t : NodeTable} {n : Nat} {l : Layout} :
    t.layout? n = some l ↔ ∃ node, t.node? n = some node ∧ node.kind = .object l := by
  rw [layout?, Option.bind_eq_some_iff]
  refine exists_congr fun node => and_congr_right fun _ => ?_
  rw [Node.layout?]
  split <;> simp_all

theorem lt_size_of_layout? {t : NodeTable} {n : Nat} {l : Layout} (h : t.layout? n = some l) :
    n < t.size := by
  obtain ⟨node, hnode, _⟩ := layout?_eq_some_iff.1 h
  exact lt_size_of_node? hnode

theorem isPointee_of_layout? {t : NodeTable} {n : Nat} {l : Layout} (h : t.layout? n = some l) :
    t.isPointee n = true := by
  obtain ⟨node, hnode, hkind⟩ := layout?_eq_some_iff.1 h
  simp [isPointee, hnode, Node.isPointee, hkind]

theorem lt_size_of_isPointee {t : NodeTable} {n : Nat} (h : t.isPointee n = true) :
    n < t.size := by
  cases hnode : t.node? n with
  | none => simp [isPointee, hnode] at h
  | some node => exact lt_size_of_node? hnode

/-! ## Classes -/

section Classes

variable {t : NodeTable}

theorem lt_size_of_isSpecial {k : Special} {m : Nat} (h : t.IsSpecial k m) : m < t.size := by
  obtain ⟨node, hnode, _⟩ := h
  exact lt_size_of_node? hnode

theorem special?_eq_some_iff {node : Node} {k : Special} :
    node.special? = some k ↔ node.kind = .special k := by
  rw [Node.special?]
  split <;> simp_all

theorem Coherent.root_root (ht : t.Coherent) (n : Nat) : t.root (t.root n) = t.root n :=
  ht.sets.root_root n

theorem Coherent.root_lt (ht : t.Coherent) {n : Nat} (hn : n < t.size) : t.root n < t.size := by
  rw [← ht.sets_size] at *
  exact ht.sets.root_lt hn

theorem Coherent.isRoot_iff (ht : t.Coherent) {n : Nat} : t.isRoot n = true ↔ t.root n = n :=
  ht.sets.isRoot_iff

theorem Coherent.root_of_size_le (ht : t.Coherent) {n : Nat} (hn : t.size ≤ n) :
    t.root n = n := by
  rw [← ht.sets_size] at hn
  exact DisjointSets.root_of_size_le hn

/-- What is known of a class does not depend on the node it is asked for. -/
theorem factsOf_congr {m n : Nat} (h : t.root m = t.root n) : t.factsOf m = t.factsOf n := by
  rw [factsOf, factsOf, h]

theorem Coherent.hasPointee_root (ht : t.Coherent) {n : Nat} (hn : t.isPointee n = true) :
    t.hasPointee (t.root n) = true := by
  have hfacts : t.factsOf (t.root n) = t.factsOf n := factsOf_congr (ht.root_root n)
  have hlt : t.root n < t.size := ht.root_lt (lt_size_of_isPointee hn)
  rw [NodeTable.hasPointee, hfacts, ht.hasPointee n hn]
  simpa [contains] using hlt

end Classes

/-! ## Creating nodes -/

section Create

variable {t : NodeTable}

theorem wellFormed_withLimits (maxNodes maxMerges : Option Nat) :
    (withLimits maxNodes maxMerges).WellFormed where
  sets := DisjointSets.wellFormed_empty
  sets_size := rfl
  facts_size := rfl
  index_eq n _ h := absurd (lt_size_of_node? h) (Nat.not_lt_zero n)
  hasPointee n h := absurd (lt_size_of_isPointee h) (Nat.not_lt_zero n)
  holdsSpecial n k h := by simp [factsOf, withLimits] at h
  layout_eq n _ h := absurd (lt_size_of_layout? h) (Nat.not_lt_zero n)
  field_eq n _ h := absurd (lt_size_of_layout? h) (Nat.not_lt_zero n)

@[simp] theorem size_append (t : NodeTable) (kind : NodeKind) :
    (t.append kind).size = t.size + 1 := by
  simp [append, size]

theorem node?_append (t : NodeTable) (kind : NodeKind) (n : Nat) :
    (t.append kind).node? n = if n = t.size then some ⟨t.size, kind⟩ else t.node? n := by
  simp only [append, node?, size, Array.getElem?_push]
  rfl

theorem Coherent.factsOf_append (ht : t.Coherent) (kind : NodeKind) (n : Nat) :
    (t.append kind).factsOf n =
      if n = t.size then .ofNode ⟨t.size, kind⟩ else t.factsOf n := by
  have hroot : (t.append kind).root n = t.root n := ht.sets.root_push n
  have hfacts : (t.append kind).factsOf n =
      (t.facts.push (.ofNode ⟨t.size, kind⟩)).getD (t.root n) {} := by
    rw [factsOf, hroot]
    rfl
  rw [hfacts, factsOf, Array.getD_eq_getD_getElem?, Array.getElem?_push, ht.facts_size,
    Array.getD_eq_getD_getElem?]
  by_cases hn : n = t.size
  · rw [if_pos hn, if_pos (by rw [hn, ht.root_of_size_le (Nat.le_refl _)])]
    rfl
  · rw [if_neg hn, if_neg fun heq => hn ?_]
    by_contra hne
    rcases Nat.lt_or_gt_of_ne hne with hlt | hgt
    · exact absurd (ht.root_lt hlt) (heq ▸ Nat.lt_irrefl _)
    · exact hne ((ht.root_of_size_le (Nat.le_of_lt hgt)).symm.trans heq)

theorem isSpecial_append {kind : NodeKind} {k : Special} {m : Nat} :
    (t.append kind).IsSpecial k m ↔ m = t.size ∧ kind = .special k ∨ t.IsSpecial k m := by
  rw [IsSpecial, node?_append]
  by_cases hm : m = t.size
  · have hnone : ¬t.IsSpecial k m := fun h => Nat.lt_irrefl _ (hm ▸ lt_size_of_isSpecial h)
    simp [hm ▸ hnone, hm]
  · simp [hm, IsSpecial]

theorem Coherent.holdsSpecial_append (ht : t.Coherent) {kind : NodeKind} {n : Nat} {k : Special} :
    (t.append kind).HoldsSpecial n k ↔
      n = t.size ∧ kind = .special k ∨ n ≠ t.size ∧ t.HoldsSpecial n k := by
  have hroot : ∀ m, (t.append kind).root m = t.root m := ht.sets.root_push
  have hsize : ∀ m, t.root m = t.root t.size ↔ m = t.size := by
    intro m
    rw [ht.root_of_size_le (Nat.le_refl t.size)]
    constructor
    · intro heq
      rcases Nat.lt_or_ge m t.size with hlt | hge
      · exact absurd (ht.root_lt hlt) (heq ▸ Nat.lt_irrefl _)
      · rwa [ht.root_of_size_le hge] at heq
    · rintro rfl
      exact ht.root_of_size_le (Nat.le_refl _)
  simp only [HoldsSpecial, hroot, isSpecial_append]
  by_cases hn : n = t.size
  · rw [hn]
    constructor
    · rintro ⟨m, hm, ⟨_, hkind⟩ | hspecial⟩
      · exact .inl ⟨rfl, hkind⟩
      · exact absurd ((hsize m).1 hm) (Nat.ne_of_lt (lt_size_of_isSpecial hspecial))
    · rintro (hm | hm)
      · exact ⟨_, rfl, .inl hm⟩
      · exact absurd rfl hm.1
  · constructor
    · rintro ⟨m, hm, ⟨rfl, _⟩ | hspecial⟩
      · exact absurd ((hsize n).1 hm.symm) hn
      · exact .inr ⟨hn, m, hm, hspecial⟩
    · rintro (hm | ⟨_, m, hm, hspecial⟩)
      · exact absurd hm.1 hn
      · exact ⟨m, hm, .inr hspecial⟩

theorem Coherent.append (ht : t.Coherent) (kind : NodeKind) : (t.append kind).Coherent where
  sets := ht.sets.push
  sets_size := by
    rw [size_append, ← ht.sets_size]
    exact DisjointSets.size_push t.sets
  facts_size := by
    rw [size_append, ← ht.facts_size]
    exact Array.size_push _
  index_eq n node h := by
    rw [node?_append] at h
    split at h
    next hn =>
      obtain rfl := Option.some.inj h
      exact hn.symm
    next => exact ht.index_eq n node h
  hasPointee n h := by
    rw [isPointee, node?_append] at h
    rw [ht.factsOf_append]
    split at h
    next hn =>
      rw [if_pos hn]
      exact h
    next hn =>
      rw [if_neg hn]
      exact ht.hasPointee n h
  holdsSpecial n k h := by
    rw [ht.factsOf_append] at h
    rw [ht.holdsSpecial_append]
    split at h
    next hn => exact .inl ⟨hn, special?_eq_some_iff.1 h⟩
    next hn => exact .inr ⟨hn, ht.holdsSpecial n k h⟩

theorem Coherent.appendFields {base fieldCount offset count : Nat} (ht : t.Coherent) :
    (t.appendFields base fieldCount offset count).Coherent := by
  induction count generalizing t offset with
  | zero => exact ht
  | succ count ih => exact ih (ht.append _)

/-- What every new node keeps the fields of a new object keep. -/
theorem Coherent.of_append {P : NodeTable → Prop} {base fieldCount offset count : Nat}
    (ht : t.Coherent) (happend : ∀ u kind, u.Coherent → P u → P (u.append kind)) (h : P t) :
    P (t.appendFields base fieldCount offset count) := by
  induction count generalizing t offset with
  | zero => exact h
  | succ count ih => exact ih (ht.append _) (happend t _ ht h)

theorem size_appendFields (t : NodeTable) (base fieldCount offset count : Nat) :
    (t.appendFields base fieldCount offset count).size = t.size + count := by
  induction count generalizing t offset with
  | zero => rfl
  | succ count ih =>
      rw [NodeTable.appendFields, ih, size_append]
      omega

theorem node?_appendFields (t : NodeTable) (base fieldCount offset count n : Nat) :
    (t.appendFields base fieldCount offset count).node? n =
      if t.size ≤ n ∧ n < t.size + count then
        some ⟨n, .object { base, offset := offset + (n - t.size), fieldCount }⟩
      else t.node? n := by
  induction count generalizing t offset with
  | zero =>
      rw [if_neg (by omega)]
      rfl
  | succ count ih =>
      rw [NodeTable.appendFields, ih, size_append, node?_append]
      by_cases hfirst : n = t.size
      · subst hfirst
        rw [if_neg (by omega), if_pos rfl, if_pos (by omega), Nat.sub_self, Nat.add_zero]
      · rw [if_neg hfirst]
        by_cases hlater : t.size + 1 ≤ n ∧ n < t.size + 1 + count
        · rw [if_pos hlater, if_pos (by omega)]
          congr 4
          omega
        · rw [if_neg hlater, if_neg (by omega)]

theorem layout?_append (t : NodeTable) {kind : NodeKind} (hkind : ∀ l, kind ≠ .object l)
    (n : Nat) : (t.append kind).layout? n = t.layout? n := by
  rw [layout?, layout?, node?_append]
  split
  next hn =>
    have hnone : t.node? n = none := by
      rw [node?, hn]
      exact Array.getElem?_eq_none (Nat.le_refl _)
    rw [hnone]
    cases kind with
    | value => rfl
    | special => rfl
    | object l => exact absurd rfl (hkind l)
  next => rfl

theorem WellFormed.append (ht : t.WellFormed) {kind : NodeKind} (hkind : ∀ l, kind ≠ .object l) :
    (t.append kind).WellFormed where
  toCoherent := ht.toCoherent.append kind
  layout_eq n l h := by
    rw [layout?_append t hkind] at h
    exact ht.layout_eq n l h
  field_eq n l h i hi := by
    rw [layout?_append t hkind] at *
    exact ht.field_eq n l h i hi

theorem layout?_appendFields (t : NodeTable) (fieldCount n : Nat) :
    (t.appendFields t.size fieldCount 0 fieldCount).layout? n =
      if t.size ≤ n ∧ n < t.size + fieldCount then some ⟨t.size, n - t.size, fieldCount⟩
      else t.layout? n := by
  rw [layout?, node?_appendFields]
  split
  next => simp [Node.layout?]
  next => rfl

/-- The fields of a new object complete each other. -/
theorem WellFormed.appendFields (ht : t.WellFormed) (fieldCount : Nat) :
    (t.appendFields t.size fieldCount 0 fieldCount).WellFormed where
  toCoherent := ht.toCoherent.appendFields
  layout_eq n l h := by
    rw [layout?_appendFields] at h
    split at h
    next hn =>
      obtain rfl := Option.some.inj h
      simp only
      omega
    next => exact ht.layout_eq n l h
  field_eq n l h i hi := by
    rw [layout?_appendFields] at *
    split at h
    next hn =>
      obtain rfl := Option.some.inj h
      simp only at hi ⊢
      rw [if_pos (by omega), Nat.add_sub_cancel_left]
    next =>
      have hfield := ht.field_eq n l h i hi
      have hlt := lt_size_of_layout? hfield
      rw [if_neg (by omega)]
      exact hfield

theorem size_appendObject (t : NodeTable) (fieldCount : Nat) :
    (t.appendObject fieldCount).size = t.size + fieldCount :=
  t.size_appendFields t.size fieldCount 0 fieldCount

theorem reserve_eq_ok_iff {count : Nat} :
    t.reserve count = .ok () ↔ t.size + count ≤ t.nodeLimit := by
  unfold reserve
  split <;> simp <;> omega

theorem le_maxIndex_of_room {count : Nat} (hroom : t.size + count ≤ t.nodeLimit) :
    t.size + count ≤ maxIndex :=
  Nat.le_trans hroom (Nat.min_le_right _ _)

/-- Nodes are created if there is room for all of them. -/
theorem create_of_room {count : Nat} (hroom : t.size + count ≤ t.nodeLimit)
    (grow : NodeTable → NodeTable) : create count grow t = .ok t.size (grow t) := by
  change EStateM.bind (Action.ofExcept (t.reserve count)) _ t = _
  rw [reserve_eq_ok_iff.2 hroom]
  rfl

/-- Otherwise the table is left as it is. -/
theorem create_of_full {count : Nat} (hfull : t.nodeLimit < t.size + count)
    (grow : NodeTable → NodeTable) :
    create count grow t = .error (.capacityExceeded t.nodeLimit) t := by
  change EStateM.bind (Action.ofExcept (t.reserve count)) _ t = _
  rw [reserve, if_pos hfull]
  rfl

/-- The table that a creation leaves, whether it succeeds or fails. -/
theorem state_create (t : NodeTable) (count : Nat) (grow : NodeTable → NodeTable) :
    Action.state (create count grow) t = if t.size + count ≤ t.nodeLimit then grow t else t := by
  by_cases hroom : t.size + count ≤ t.nodeLimit
  · rw [Action.state, create_of_room hroom, if_pos hroom]
  · rw [Action.state, create_of_full (Nat.lt_of_not_le hroom), if_neg hroom]

theorem create_eq_ok {count n : Nat} {grow : NodeTable → NodeTable} {u : NodeTable}
    (h : create count grow t = .ok n u) : t.size + count ≤ t.nodeLimit ∧ u = grow t := by
  by_cases hroom : t.size + count ≤ t.nodeLimit
  · rw [create_of_room hroom] at h
    cases h
    exact ⟨hroom, rfl⟩
  · rw [create_of_full (Nat.lt_of_not_le hroom)] at h
    cases h

theorem addValue_eq_ok {n : Nat} {u : NodeTable} (h : t.addValue = .ok (n, u)) :
    t.size + 1 ≤ t.nodeLimit ∧ u = t.append .value :=
  create_eq_ok (Action.result_eq_ok_iff.1 h)

theorem addSpecial_eq_ok {kind : Special} {n : Nat} {u : NodeTable}
    (h : t.addSpecial kind = .ok (n, u)) :
    t.size + 1 ≤ t.nodeLimit ∧ u = t.append (.special kind) :=
  create_eq_ok (Action.result_eq_ok_iff.1 h)

/-- An object of at least one field is appended as a whole. -/
theorem addObject_eq_ok {fieldCount n : Nat} {u : NodeTable}
    (h : t.addObject fieldCount = .ok (n, u)) :
    t.size + max fieldCount 1 ≤ t.nodeLimit ∧ u = t.appendObject (max fieldCount 1) :=
  create_eq_ok (Action.result_eq_ok_iff.1 h)

end Create

/-! ## Merging classes -/

/-- The table `u` is the table `t` after the class of the root `gone` went over
to the root `rep`. -/
structure Absorbs (t u : NodeTable) (rep gone : Nat) : Prop where
  rep_root : t.root rep = rep
  gone_root : t.root gone = gone
  ne : rep ≠ gone
  rep_lt : rep < t.size
  gone_lt : gone < t.size
  root_eq (n : Nat) : u.root n = if t.root n = gone then rep else t.root n
  nodes_eq : u.nodes = t.nodes
  limits_eq : u.maxNodes = t.maxNodes ∧ u.maxMerges = t.maxMerges
  merges_eq : u.merges = t.merges + 1
  maxFieldCount_eq : u.maxFieldCount = t.maxFieldCount
  coherent : u.Coherent

section Merge

variable {t u : NodeTable} {a b rep gone : Nat}

theorem size_congr (h : u.nodes = t.nodes) : u.size = t.size := by rw [size, size, h]

theorem node?_congr (h : u.nodes = t.nodes) (n : Nat) : u.node? n = t.node? n := by
  rw [node?, node?, h]

theorem isPointee_congr (h : u.nodes = t.nodes) (n : Nat) : u.isPointee n = t.isPointee n := by
  rw [isPointee, isPointee, node?_congr h]

theorem layout?_congr (h : u.nodes = t.nodes) (n : Nat) : u.layout? n = t.layout? n := by
  rw [layout?, layout?, node?_congr h]

/-- A layout is a matter of the nodes alone, so it survives any change of the
classes. -/
theorem WellFormed.of_nodes_eq (ht : t.WellFormed) (hu : u.Coherent) (h : u.nodes = t.nodes) :
    u.WellFormed where
  toCoherent := hu
  layout_eq n l hl := ht.layout_eq n l (layout?_congr h n ▸ hl)
  field_eq n l hl i hi := by
    rw [layout?_congr h] at *
    exact ht.field_eq n l hl i hi

theorem isSpecial_congr (h : u.nodes = t.nodes) (k : Special) (m : Nat) :
    u.IsSpecial k m ↔ t.IsSpecial k m := by
  rw [IsSpecial, IsSpecial, node?_congr h]

/-- When classes are joined they keep their special nodes. -/
theorem HoldsSpecial.mono {n : Nat} {k : Special} (h : t.HoldsSpecial n k)
    (hnodes : u.nodes = t.nodes) (hclasses : ∀ m n, t.root m = t.root n → u.root m = u.root n) :
    u.HoldsSpecial n k := by
  obtain ⟨m, hm, hspecial⟩ := h
  exact ⟨m, hclasses m n hm, (isSpecial_congr hnodes k m).2 hspecial⟩

/-- The roots of two different classes. -/
theorem Coherent.apart (ht : t.Coherent) (ha : a < t.size) (hb : b < t.size)
    (hne : t.root a ≠ t.root b) : t.sets.Apart (t.root a) (t.root b) :=
  ht.sets.apart (ht.sets_size.symm ▸ ha) (ht.sets_size.symm ▸ hb) hne

section Join

variable (ht : t.Coherent) (h : t.sets.Apart a b)

include ht h

theorem Coherent.root_join (n : Nat) :
    (t.join a b).2.root n =
      if t.root n = a ∨ t.root n = b then (t.join a b).1 else t.root n :=
  ht.sets.root_link_eq h n

theorem Coherent.factsOf_join (n : Nat) :
    (t.join a b).2.factsOf n =
      if t.root n = a ∨ t.root n = b then (t.factsOf a).join (t.factsOf b) else t.factsOf n := by
  have hset : (t.join a b).2.facts = t.facts.setIfInBounds (t.join a b).1
      ((t.facts.getD a {}).join (t.facts.getD b {})) := rfl
  have hrep : (t.join a b).1 = a ∨ (t.join a b).1 = b :=
    (t.sets.link_cases h.ne).imp And.left And.left
  have hlt : (t.join a b).1 < t.facts.size := by
    rw [ht.facts_size, ← ht.sets_size]
    exact h.link_fst_lt
  have hra : t.root a = a := h.left_root
  have hrb : t.root b = b := h.right_root
  rw [factsOf, ht.root_join h, hset, factsOf, factsOf, factsOf, hra, hrb]
  split
  next => simp [Array.getD_eq_getD_getElem?, hlt]
  next hn =>
    have hrep' : (t.join a b).1 ≠ t.root n :=
      fun heq => hn (hrep.imp (fun h => heq.symm.trans h) fun h => heq.symm.trans h)
    rw [Array.getD_eq_getD_getElem?, Array.getElem?_setIfInBounds, if_neg hrep',
      Array.getD_eq_getD_getElem?]

/-- Classes are only joined. -/
theorem Coherent.join_classes {m n : Nat} (hmn : t.root m = t.root n) :
    (t.join a b).2.root m = (t.join a b).2.root n := by
  rw [ht.root_join h, ht.root_join h, hmn]

theorem Coherent.join : (t.join a b).2.Coherent := by
  have hfacts := ht.factsOf_join h
  have hroot := ht.root_join h
  refine
    { sets := ht.sets.link h
      sets_size := (t.sets.size_link a b).trans ht.sets_size
      facts_size := (Array.size_setIfInBounds ..).trans ht.facts_size
      index_eq := ht.index_eq
      hasPointee := fun n hn => ?_
      holdsSpecial := fun n k hn => ?_ }
  · have hold : (t.factsOf n).hasPointee = true := ht.hasPointee n hn
    rw [hfacts]
    split
    next hab =>
      rw [ClassFacts.join, Bool.or_eq_true]
      refine hab.imp (fun hn => ?_) fun hn => ?_
      · rwa [factsOf_congr (hn.trans h.left_root.symm)] at hold
      · rwa [factsOf_congr (hn.trans h.right_root.symm)] at hold
    next => exact hold
  · have hjoined : ∀ c, t.root c = c → c = a ∨ c = b → t.HoldsSpecial c k →
        (t.root n = a ∨ t.root n = b) → (t.join a b).2.HoldsSpecial n k := by
      rintro c hc hab ⟨m, hm, hspecial⟩ hn
      refine ⟨m, ?_, hspecial⟩
      rw [hroot, hroot, if_pos hn, if_pos]
      rwa [hm, hc]
    rw [hfacts] at hn
    split at hn
    next hab =>
      rw [ClassFacts.join, Option.or_eq_some_iff] at hn
      rcases hn with hn | ⟨_, hn⟩
      · exact hjoined a h.left_root (.inl rfl) (ht.holdsSpecial a k hn) hab
      · exact hjoined b h.right_root (.inr rfl) (ht.holdsSpecial b k hn) hab
    next => exact (ht.holdsSpecial n k hn).mono rfl fun _ _ => ht.join_classes h

theorem Coherent.join_absorbs :
    Absorbs t (t.join a b).2 (t.join a b).1 (t.sets.absorbed a b) := by
  obtain ⟨hlt, hgone, hkeep, hne⟩ := h.link_roots
  exact
    { rep_root := hkeep
      gone_root := hgone
      ne := hne
      rep_lt := ht.sets_size ▸ h.link_fst_lt
      gone_lt := ht.sets_size ▸ hlt
      root_eq := ht.sets.root_link h
      nodes_eq := rfl
      limits_eq := ⟨rfl, rfl⟩
      merges_eq := rfl
      maxFieldCount_eq := rfl
      coherent := ht.join h }

end Join

/-- A merge that succeeds has found no clash, and the bound on merges not used up. -/
theorem merge_eq_ok (h : t.merge a b = .ok (rep, u)) :
    (t.root a = t.root b ∧ rep = t.root a ∧ u = t) ∨
      t.root a ≠ t.root b ∧ (t.factsOf a).clash? (t.factsOf b) = none ∧
        t.mergesUsedUp? = none ∧ t.join (t.root a) (t.root b) = (rep, u) := by
  unfold merge at h
  split at h
  next heq =>
    simp only [Except.ok.injEq, Prod.mk.injEq] at h
    exact .inl ⟨heq, h.1.symm, h.2.symm⟩
  next hne =>
    split at h
    next => cases h
    next hclash =>
      split at h
      next => cases h
      next hroom => exact .inr ⟨hne, hclash, hroom, by simpa using h⟩

/-- A merge that succeeds joins two classes or finds them joined already. -/
theorem Coherent.merge_cases (ht : t.Coherent) (ha : a < t.size) (hb : b < t.size)
    (h : t.merge a b = .ok (rep, u)) :
    (t.root a = t.root b ∧ rep = t.root a ∧ u = t) ∨
      t.root a ≠ t.root b ∧ ∃ gone, Absorbs t u rep gone ∧
        (rep = t.root a ∧ gone = t.root b ∨ rep = t.root b ∧ gone = t.root a) := by
  rcases merge_eq_ok h with hsame | ⟨hne, _, _, hjoin⟩
  · exact .inl hsame
  · have hfst : (t.join (t.root a) (t.root b)).1 = rep := by rw [hjoin]
    have hsnd : (t.join (t.root a) (t.root b)).2 = u := by rw [hjoin]
    have habs := ht.join_absorbs (ht.apart ha hb hne)
    rw [hfst, hsnd] at habs
    refine .inr ⟨hne, _, habs, ?_⟩
    rcases t.sets.link_cases hne with ⟨h', h''⟩ | ⟨h', h''⟩
    · exact .inl ⟨hfst.symm.trans h', h''⟩
    · exact .inr ⟨hfst.symm.trans h', h''⟩

theorem Absorbs.wellFormed (ht : t.WellFormed) (h : Absorbs t u rep gone) : u.WellFormed :=
  ht.of_nodes_eq h.coherent h.nodes_eq

theorem Absorbs.root_eq_iff (h : Absorbs t u rep gone) {n : Nat} :
    u.root n = n ↔ t.root n = n ∧ n ≠ gone := by
  rw [h.root_eq]
  split
  next hn =>
    constructor
    · intro heq
      exact absurd (h.rep_root.symm.trans (heq ▸ hn)) h.ne
    · rintro ⟨hself, hne⟩
      exact absurd (hself.symm.trans hn) hne
  next hn =>
    refine ⟨fun heq => ⟨heq, fun hgone => hn ?_⟩, And.left⟩
    rw [hgone, h.gone_root]

/-- Classes are only joined. -/
theorem Absorbs.root_eq_of_root_eq (h : Absorbs t u rep gone) {m n : Nat}
    (hmn : t.root m = t.root n) : u.root m = u.root n := by
  rw [h.root_eq, h.root_eq, hmn]

theorem Coherent.merge_wellFormed (ht : t.WellFormed) (ha : a < t.size) (hb : b < t.size)
    (h : t.merge a b = .ok (rep, u)) : u.WellFormed ∧ u.nodes = t.nodes := by
  rcases ht.merge_cases ha hb h with ⟨_, _, rfl⟩ | ⟨_, gone, habs, _⟩
  · exact ⟨ht, rfl⟩
  · exact ⟨habs.wellFormed ht, habs.nodes_eq⟩

end Merge

/-! ## Groups -/

theorem ascending_perm (ns : List Nat) : (ascending ns).Perm ns := sortBy_perm _ ns

/-- What is kept of a list of lists is part of what it lists. -/
theorem flatten_map_ascending_subperm (groups : List (List Nat)) (p : List Nat → Bool) :
    ((groups.filter p).map ascending).flatten.Subperm groups.flatten := by
  induction groups with
  | nil => exact List.Subperm.refl _
  | cons g gs ih =>
      rw [List.filter_cons]
      split
      next =>
        rw [List.map_cons, List.flatten_cons, List.flatten_cons]
        exact (ascending_perm g).subperm.append ih
      next =>
        rw [List.flatten_cons]
        exact ih.trans (List.sublist_append_right g gs.flatten).subperm

/-- The groups have no member in common, and none that was not there. -/
theorem mergeableGroups_subperm (t : NodeTable) (members : List Nat) :
    (t.mergeableGroups members).flatten.Subperm members := by
  rw [mergeableGroups]
  refine (flatten_map_ascending_subperm _ _).trans (List.Perm.subperm ?_)
  split
  next => rw [List.flatten_singleton]
  next first _ =>
    rw [List.flatten_cons, List.flatten_singleton]
    exact (List.perm_append_comm).trans
      (List.filter_append_perm (t.special? · == some first.other) members)

theorem mem_of_mem_mergeableGroups {t : NodeTable} {members g : List Nat}
    (hg : g ∈ t.mergeableGroups members) {m : Nat} (hm : m ∈ g) : m ∈ members :=
  (t.mergeableGroups_subperm members).subset (List.mem_flatten_of_mem hg hm)

/-! ## Reachable tables -/

/-- The tables that come of creating nodes and merging classes, with any limits
put in force on the way. -/
inductive Reachable : NodeTable → Prop
  | empty (maxNodes maxMerges : Option Nat) : Reachable (.withLimits maxNodes maxMerges)
  | applyLimits {t : NodeTable} (limits : Limits) : Reachable t → Reachable (t.applyLimits limits)
  | addValue {t u : NodeTable} {n : Nat} :
      Reachable t → t.addValue = .ok (n, u) → Reachable u
  | addObject {t u : NodeTable} {fieldCount n : Nat} :
      Reachable t → t.addObject fieldCount = .ok (n, u) → Reachable u
  | addSpecial {t u : NodeTable} {kind : Special} {n : Nat} :
      Reachable t → t.addSpecial kind = .ok (n, u) → Reachable u
  | merge {t u : NodeTable} {a b rep : Nat} :
      Reachable t → t.merge? a b = some (.ok (rep, u)) → Reachable u

theorem merge?_eq_some {t : NodeTable} {a b : Nat} {r : Except AnalysisError (Nat × NodeTable)}
    (h : t.merge? a b = some r) : a < t.size ∧ b < t.size ∧ t.merge a b = r := by
  simp only [merge?] at h
  split at h
  next hab =>
    rw [Bool.and_eq_true, contains_iff, contains_iff] at hab
    exact ⟨hab.1, hab.2, Option.some.inj h⟩
  next => cases h

theorem WellFormed.applyLimits {t : NodeTable} (ht : t.WellFormed) (limits : Limits) :
    (t.applyLimits limits).WellFormed := { ht with }

theorem Reachable.wellFormed {t : NodeTable} (ht : t.Reachable) : t.WellFormed := by
  induction ht with
  | empty maxNodes maxMerges => exact wellFormed_withLimits maxNodes maxMerges
  | applyLimits limits _ ih => exact ih.applyLimits limits
  | addValue _ h ih =>
      obtain ⟨_, rfl⟩ := addValue_eq_ok h
      exact ih.append fun l => NodeKind.noConfusion
  | addObject _ h ih =>
      obtain ⟨_, rfl⟩ := addObject_eq_ok h
      exact { ih.appendFields _ with }
  | addSpecial _ h ih =>
      obtain ⟨_, rfl⟩ := addSpecial_eq_ok h
      exact ih.append fun l => NodeKind.noConfusion
  | merge _ h ih =>
      obtain ⟨ha, hb, hmerge⟩ := merge?_eq_some h
      exact (Coherent.merge_wellFormed ih ha hb hmerge).1

theorem Reachable.of_merge {t u : NodeTable} {a b rep : Nat} (ht : t.Reachable) (ha : a < t.size)
    (hb : b < t.size) (h : t.merge a b = .ok (rep, u)) : u.Reachable := by
  have hmerge : t.merge? a b = some (.ok (rep, u)) := by
    rw [merge?, contains_iff.2 ha, contains_iff.2 hb, ← h]
    rfl
  exact .merge ht hmerge

/-- Every node of a reachable table has an index of 32 bits. -/
theorem Reachable.size_le {t : NodeTable} (ht : t.Reachable) : t.size ≤ maxIndex := by
  induction ht with
  | empty maxNodes maxMerges => exact Nat.zero_le _
  | applyLimits limits _ ih => exact ih
  | addValue _ h _ =>
      obtain ⟨hroom, rfl⟩ := addValue_eq_ok h
      rw [size_append]
      exact le_maxIndex_of_room hroom
  | addObject _ h _ =>
      obtain ⟨hroom, rfl⟩ := addObject_eq_ok h
      rw [size_appendObject]
      exact le_maxIndex_of_room hroom
  | addSpecial _ h _ =>
      obtain ⟨hroom, rfl⟩ := addSpecial_eq_ok h
      rw [size_append]
      exact le_maxIndex_of_room hroom
  | merge ht h ih =>
      obtain ⟨ha, hb, hmerge⟩ := merge?_eq_some h
      rw [size_congr (Coherent.merge_wellFormed ht.wellFormed ha hb hmerge).2]
      exact ih

/-- What new nodes and merges keep holds of every reachable table: an object is as many new
nodes as it has fields. -/
theorem Reachable.of_kept {P : NodeTable → Prop} {t : NodeTable} (ht : t.Reachable)
    (hempty : ∀ maxNodes maxMerges, P (.withLimits maxNodes maxMerges))
    (hlimits : ∀ t limits, P t → P (t.applyLimits limits))
    (hfields : ∀ t maxFieldCount, P t → P { t with maxFieldCount })
    (happend : ∀ t kind, t.Coherent → P t → P (t.append kind))
    (hmerge : ∀ t u a b rep, t.Coherent → a < t.size → b < t.size →
      t.merge a b = .ok (rep, u) → P t → P u) : P t := by
  induction ht with
  | empty maxNodes maxMerges => exact hempty maxNodes maxMerges
  | applyLimits limits _ ih => exact hlimits _ limits ih
  | addValue hreach h ih =>
      obtain ⟨_, rfl⟩ := addValue_eq_ok h
      exact happend _ _ hreach.wellFormed.toCoherent ih
  | addObject hreach h ih =>
      obtain ⟨_, rfl⟩ := addObject_eq_ok h
      exact hfields _ _ (hreach.wellFormed.toCoherent.of_append happend ih)
  | addSpecial hreach h ih =>
      obtain ⟨_, rfl⟩ := addSpecial_eq_ok h
      exact happend _ _ hreach.wellFormed.toCoherent ih
  | merge hreach h ih =>
      obtain ⟨ha, hb, hmerge'⟩ := merge?_eq_some h
      exact hmerge _ _ _ _ _ hreach.wellFormed.toCoherent ha hb hmerge' ih

/-- Two variables `0` and `1`, and an object with the fields `2` and `3`. -/
def sample : NodeTable :=
  { (((withLimits none none).append .value).append .value).appendFields 2 2 0 2 with
    maxFieldCount := 2 }

theorem reachable_sample : sample.Reachable := by
  have hfirst : (withLimits none none).addValue =
      .ok (0, (withLimits none none).append .value) := rfl
  have hsecond : ((withLimits none none).append .value).addValue =
      .ok (1, ((withLimits none none).append .value).append .value) := rfl
  have hobject : (((withLimits none none).append .value).append .value).addObject 2 =
      .ok (2, sample) := rfl
  exact .addObject (.addValue (.addValue (.empty none none) hfirst) hsecond) hobject

end NodeTable

end PointsTo
