import PointsTo.Solver.Propagation
import PointsTo.Proofs.Constraint
import Mathlib.Data.Set.Lattice
import Mathlib.Logic.Relation

/-!
# Solutions

A `Family` gives every node a set. It satisfies a list of constraints if each
of them holds of it and every node of unknown memory points to itself; it is a
solution over a node table if, besides, the nodes of one class have the same
set. An access through a pointer goes where `NodeTable.route` leads it.

Solutions are closed under intersection, so there is a least one. It is defined
here without any reference to how it might be computed, and it is what all
results about the reduction and the solver are measured by.

Constraints ask for copies between nodes, and accesses through pointers for those
that the sets say. So the sets of a family make a copy graph, along which those of a
solution grow.
-/

namespace PointsTo

namespace NodeTable

/-- The node `u` is a node of unknown memory. -/
def IsUniversal (t : NodeTable) (u : Nat) : Prop :=
  ∃ node, t.node? u = some node ∧ node.kind = .special .universal

theorem isPointee_of_isUniversal {t : NodeTable} {u : Nat} (h : t.IsUniversal u) :
    t.isPointee u = true := by
  obtain ⟨node, hnode, hkind⟩ := h
  simp [isPointee, hnode, Node.isPointee, hkind]

theorem isUniversal_congr {t u : NodeTable} (h : u.nodes = t.nodes) (n : Nat) :
    u.IsUniversal n ↔ t.IsUniversal n := by
  rw [IsUniversal, IsUniversal, node?_congr h]

theorem route_congr {t u : NodeTable} (h : u.nodes = t.nodes) (fieldSensitive : Bool)
    (o k : Nat) : u.route fieldSensitive o k = t.route fieldSensitive o k := by
  rw [route, route, node?_congr h]

/-- An access stays in the object that the pointer leads to. -/
theorem WellFormed.route_cases {t : NodeTable} (ht : t.WellFormed) (fieldSensitive : Bool)
    (o k : Nat) :
    t.route fieldSensitive o k = o ∨ ∃ l, t.layout? (t.route fieldSensitive o k) = some l := by
  have hlayout : (t.node? o).bind Node.layout? = t.layout? o := rfl
  rw [route, hlayout]
  cases hl : t.layout? o with
  | none => exact .inl rfl
  | some l =>
      have hoffset := (ht.layout_eq o l hl).2
      have hbase : t.layout? l.base = some { l with offset := 0 } :=
        ht.field_eq o l hl 0 (by omega)
      by_cases hfields : !fieldSensitive
      · exact .inr ⟨_, by simpa [hfields] using hbase⟩
      · by_cases hk : k = 0
        · exact .inl (by simp [hfields, hk])
        · cases hf : l.field? k with
          | none => exact .inr ⟨_, by simpa [hfields, hk, hf] using hbase⟩
          | some m =>
              obtain ⟨hlt, rfl⟩ := Layout.field?_eq_some_iff.1 hf
              exact .inr ⟨_, by simpa [hfields, hk, hf] using ht.field_eq o l hl _ hlt⟩

section Route

variable {t : NodeTable} {o : Nat}

theorem WellFormed.isPointee_route (ht : t.WellFormed) (ho : t.isPointee o = true)
    (fieldSensitive : Bool) (k : Nat) :
    t.isPointee (t.route fieldSensitive o k) = true := by
  rcases ht.route_cases fieldSensitive o k with h | ⟨l, hl⟩
  · rwa [h]
  · exact isPointee_of_layout? hl

theorem WellFormed.route_lt (ht : t.WellFormed) (ho : o < t.size) (fieldSensitive : Bool)
    (k : Nat) : t.route fieldSensitive o k < t.size := by
  rcases ht.route_cases fieldSensitive o k with h | ⟨l, hl⟩
  · rwa [h]
  · exact lt_size_of_layout? hl

end Route

end NodeTable

/-- A set for every node. -/
abbrev Family := Nat → Set Nat

/-- What a constraint says of the sets of its operands. -/
def Constraint.Holds (t : NodeTable) (fieldSensitive : Bool) (S : Family) (c : Constraint) :
    Prop :=
  match c.kind with
  | .addrOf => c.src ∈ S c.dest
  | .copy => S c.src ⊆ S c.dest
  | .load => ∀ o ∈ S c.src, S (t.route fieldSensitive o c.offset) ⊆ S c.dest
  | .store => ∀ o ∈ S c.dest, S c.src ⊆ S (t.route fieldSensitive o c.offset)

/-- Constraints depend on the nodes of a table, not on its classes. -/
theorem Constraint.holds_congr {t u : NodeTable} (h : u.nodes = t.nodes) (fieldSensitive : Bool)
    (S : Family) (c : Constraint) : c.Holds u fieldSensitive S ↔ c.Holds t fieldSensitive S := by
  simp only [Constraint.Holds, NodeTable.route_congr h]

/-- The copies between nodes that a constraint asks for if the pointees are those
of `S`. -/
def Constraint.Copies (t : NodeTable) (fieldSensitive : Bool) (S : Family) (c : Constraint)
    (a b : Nat) : Prop :=
  match c.kind with
  | .addrOf => False
  | .copy => a = c.src ∧ b = c.dest
  | .load => ∃ o ∈ S c.src, a = t.route fieldSensitive o c.offset ∧ b = c.dest
  | .store => ∃ o ∈ S c.dest, a = c.src ∧ b = t.route fieldSensitive o c.offset

theorem Constraint.copies_congr {t u : NodeTable} (h : u.nodes = t.nodes) (fieldSensitive : Bool)
    (S : Family) (c : Constraint) (a b : Nat) :
    c.Copies u fieldSensitive S a b ↔ c.Copies t fieldSensitive S a b := by
  simp only [Constraint.Copies, NodeTable.route_congr h]

/-- A constraint holds if the sets grow wherever it asks for a copy, and a pointee
that it gives outright is there. -/
theorem Constraint.holds_iff {t : NodeTable} {fieldSensitive : Bool} {S : Family}
    {c : Constraint} :
    c.Holds t fieldSensitive S ↔
      (c.kind = .addrOf → c.src ∈ S c.dest) ∧
        ∀ a b, c.Copies t fieldSensitive S a b → S a ⊆ S b := by
  unfold Constraint.Holds Constraint.Copies
  cases c.kind with
  | addrOf => simp
  | copy => simp
  | load =>
      simp only [reduceCtorEq, false_implies, true_and]
      constructor
      · rintro h a b ⟨o, ho, rfl, rfl⟩
        exact h o ho
      · exact fun h o ho => h _ _ ⟨o, ho, rfl, rfl⟩
  | store =>
      simp only [reduceCtorEq, false_implies, true_and]
      constructor
      · rintro h a b ⟨o, ho, rfl, rfl⟩
        exact h o ho
      · exact fun h o ho => h _ _ ⟨o, ho, rfl, rfl⟩

namespace Family

/-- A preorder on the nodes along which the sets of `S` grow. -/
structure GrowsAlong (S : Family) (flows : Nat → Nat → Prop) : Prop where
  refl (a : Nat) : flows a a
  trans {a b c : Nat} : flows a b → flows b c → flows a c
  subset {a b : Nat} : flows a b → S a ⊆ S b

/-- Every constraint holds, and unknown memory points to itself. -/
structure Satisfies (S : Family) (t : NodeTable) (fieldSensitive : Bool)
    (cs : List Constraint) : Prop where
  holds : ∀ c ∈ cs, c.Holds t fieldSensitive S
  universal (u : Nat) : t.IsUniversal u → u ∈ S u

/-- A solution also gives the nodes of one class the same set. -/
structure Solves (S : Family) (t : NodeTable) (fieldSensitive : Bool)
    (cs : List Constraint) : Prop extends S.Satisfies t fieldSensitive cs where
  classes (a b : Nat) : t.root a = t.root b → S a = S b

section Solves

variable {S : Family} {t u : NodeTable} {fieldSensitive : Bool} {cs : List Constraint}

theorem Satisfies.congr (hS : S.Satisfies t fieldSensitive cs) (h : u.nodes = t.nodes) :
    S.Satisfies u fieldSensitive cs where
  holds c hc := (c.holds_congr h fieldSensitive S).2 (hS.holds c hc)
  universal n hn := hS.universal n ((NodeTable.isUniversal_congr h n).1 hn)

/-- A solution over one table is one over any table with finer classes. -/
theorem Solves.congr (hS : S.Solves t fieldSensitive cs) (h : u.nodes = t.nodes)
    (hroot : ∀ a b, u.root a = u.root b → t.root a = t.root b) : S.Solves u fieldSensitive cs where
  toSatisfies := hS.toSatisfies.congr h
  classes a b hab := hS.classes a b (hroot a b hab)

/-- A solution of some constraints is one of any of them. -/
theorem Solves.anti {ds : List Constraint} (hS : S.Solves t fieldSensitive ds) (h : cs ⊆ ds) :
    S.Solves t fieldSensitive cs where
  holds c hc := hS.holds c (h hc)
  universal := hS.universal
  classes := hS.classes

theorem Solves.root_eq (hS : S.Solves t fieldSensitive cs) (ht : t.Coherent) (n : Nat) :
    S (t.root n) = S n :=
  hS.classes _ _ (ht.root_root n)

/-- Every set may hold all nodes that something can point to. -/
theorem pointees_solve (hcs : ∀ c ∈ cs, c.flaw? t fieldSensitive = none) :
    Solves (fun _ => {o | t.isPointee o = true}) t fieldSensitive cs where
  holds c hc := by
    unfold Constraint.Holds
    split
    next hkind => exact Constraint.isPointee_of_flaw? (hcs c hc) hkind
    next => exact fun _ ho => ho
    next => exact fun _ _ _ ho => ho
    next => exact fun _ _ _ ho => ho
  universal u hu := NodeTable.isPointee_of_isUniversal hu
  classes a b _ := rfl

end Solves

/-! ## The copy graph of a solution -/

/-- One of the constraints asks for a copy from `a` to `b`. -/
def Copies (S : Family) (t : NodeTable) (fieldSensitive : Bool) (cs : List Constraint)
    (a b : Nat) : Prop :=
  ∃ c ∈ cs, c.Copies t fieldSensitive S a b

/-- A path of copies leads from `a` to `b`, where the nodes of one class count as
one. -/
def Flows (S : Family) (t : NodeTable) (fieldSensitive : Bool) (cs : List Constraint) :
    Nat → Nat → Prop :=
  Relation.ReflTransGen fun a b => t.root a = t.root b ∨ S.Copies t fieldSensitive cs a b

/-- The nodes lie in one strongly connected component of the copy graph. -/
def SameComponent (S : Family) (t : NodeTable) (fieldSensitive : Bool) (cs : List Constraint)
    (a b : Nat) : Prop :=
  S.Flows t fieldSensitive cs a b ∧ S.Flows t fieldSensitive cs b a

/-- The component of `a` in the copy graph has a special node of kind `k`. -/
def Touches (S : Family) (t : NodeTable) (fieldSensitive : Bool) (cs : List Constraint) (a : Nat)
    (k : Special) : Prop :=
  ∃ x, S.SameComponent t fieldSensitive cs a x ∧ t.IsSpecial k x

section CopyGraph

variable {S : Family} {t u : NodeTable} {fieldSensitive : Bool} {cs : List Constraint}
  {a b c : Nat}

theorem SameComponent.symm (h : S.SameComponent t fieldSensitive cs a b) :
    S.SameComponent t fieldSensitive cs b a := ⟨h.2, h.1⟩

theorem SameComponent.trans (h : S.SameComponent t fieldSensitive cs a b)
    (h' : S.SameComponent t fieldSensitive cs b c) : S.SameComponent t fieldSensitive cs a c :=
  ⟨h.1.trans h'.1, h'.2.trans h.2⟩

/-- Classes that have been joined make for more paths. -/
theorem Flows.mono (h : u.nodes = t.nodes)
    (hclasses : ∀ a b, t.root a = t.root b → u.root a = u.root b)
    (hab : S.Flows t fieldSensitive cs a b) : S.Flows u fieldSensitive cs a b := by
  refine Relation.ReflTransGen.mono (fun a b => Or.imp (hclasses a b) ?_) _ _ hab
  rintro ⟨c, hc, hcopies⟩
  exact ⟨c, hc, (Constraint.copies_congr h fieldSensitive S c a b).2 hcopies⟩

/-- The sets of a solution grow along its copy graph. -/
theorem Solves.growsAlong_flows (hS : S.Solves t fieldSensitive cs) :
    S.GrowsAlong (S.Flows t fieldSensitive cs) where
  refl _ := .refl
  trans := Relation.ReflTransGen.trans
  subset hab := by
    induction hab with
    | refl => exact Set.Subset.rfl
    | tail _ hstep ih =>
        refine ih.trans ?_
        rcases hstep with hclass | ⟨c, hc, hcopies⟩
        · exact (hS.classes _ _ hclass).subset
        · exact (Constraint.holds_iff.1 (hS.holds c hc)).2 _ _ hcopies

end CopyGraph

end Family

/-- The nodes that every solution has in the set of `n`. -/
def leastSolution (t : NodeTable) (fieldSensitive : Bool) (cs : List Constraint) : Family :=
  fun n => {o | ∀ S : Family, S.Solves t fieldSensitive cs → o ∈ S n}

section Least

variable {t u : NodeTable} {fieldSensitive : Bool} {cs : List Constraint} {S : Family}

theorem leastSolution_subset (hS : S.Solves t fieldSensitive cs) (n : Nat) :
    leastSolution t fieldSensitive cs n ⊆ S n :=
  fun _ ho => ho S hS

theorem leastSolution_solves (t : NodeTable) (fieldSensitive : Bool) (cs : List Constraint) :
    (leastSolution t fieldSensitive cs).Solves t fieldSensitive cs where
  holds c hc := by
    have hall : ∀ S : Family, S.Solves t fieldSensitive cs → c.Holds t fieldSensitive S :=
      fun S hS => hS.holds c hc
    unfold Constraint.Holds at *
    split at hall
    next => exact fun S hS => hall S hS
    next => exact fun x hx S hS => hall S hS (hx S hS)
    next => exact fun o ho x hx S hS => hall S hS o (ho S hS) (hx S hS)
    next => exact fun o ho x hx S hS => hall S hS o (ho S hS) (hx S hS)
  universal u hu S hS := hS.universal u hu
  classes a b hab := by
    refine Set.ext fun o => forall₂_congr fun S hS => ?_
    rw [hS.classes a b hab]

theorem leastSolution_congr (h : u.nodes = t.nodes)
    (hroot : ∀ a b, u.root a = u.root b ↔ t.root a = t.root b) (n : Nat) :
    leastSolution u fieldSensitive cs n = leastSolution t fieldSensitive cs n :=
  Set.Subset.antisymm
    (leastSolution_subset ((leastSolution_solves t fieldSensitive cs).congr h
      fun a b => (hroot a b).1) n)
    (leastSolution_subset ((leastSolution_solves u fieldSensitive cs).congr h.symm
      fun a b => (hroot a b).2) n)

/-- More constraints make for larger sets. -/
theorem leastSolution_mono {ds : List Constraint} (h : cs ⊆ ds) (n : Nat) :
    leastSolution t fieldSensitive cs n ⊆ leastSolution t fieldSensitive ds n :=
  leastSolution_subset ((leastSolution_solves t fieldSensitive ds).anti h) n

/-- A solution that lies in every other one is the least. -/
theorem eq_leastSolution (hS : S.Solves t fieldSensitive cs)
    (hleast : ∀ S' : Family, S'.Solves t fieldSensitive cs → ∀ n, S n ⊆ S' n) (n : Nat) :
    S n = leastSolution t fieldSensitive cs n :=
  Set.Subset.antisymm (fun _ ho S' hS' => hleast S' hS' n ho) (leastSolution_subset hS n)

theorem isPointee_of_mem_leastSolution
    (hcs : ∀ c ∈ cs, c.flaw? t fieldSensitive = none) {n o : Nat}
    (ho : o ∈ leastSolution t fieldSensitive cs n) : t.isPointee o = true :=
  leastSolution_subset (Family.pointees_solve hcs) n ho

end Least

end PointsTo
