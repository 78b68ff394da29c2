import PointsTo.Solver.Collapse
import PointsTo.Proofs.NodeSet
import PointsTo.Proofs.Solution
import Mathlib.Logic.Relation

/-!
# What a solver does to its store

The store of a solver is its node table with the cells. Everything that a
solver does to it after the constraints are entered is a sequence of five kinds
of steps: a set grows, an edge is made, a set counts as passed on, the edges of
a cell are led to representatives, two classes are merged. `Store.Step` says
what each of them changes and what it needs. A pointee is only added for a
reason (`Derives`), and so is an edge (`Demands`); classes are only merged if
paths of edges lead from each to the other.

So what holds of every run is shown here once, by looking at the five kinds:
that the store stays well formed, that it only gains (`Extends`), and that it
never holds more than a given solution (`Justified`). The last is a special case:
what is shown is that edges and classes never lead beyond any relation that
holds of the constraints (`Grounded`), and the inclusion of the sets of a
solution is such a relation.
-/

namespace PointsTo

/-- What a cell may hold if the table has `size` nodes. -/
structure Cell.Proper (size : Nat) (c : Cell) : Prop where
  pts_ascending : c.pts.Ascending
  done_ascending : c.done.Ascending
  succs_ascending : c.succs.Ascending
  done_subset (o : Nat) : o ∈ c.done → o ∈ c.pts
  pts_lt (o : Nat) : o ∈ c.pts → o < size
  succs_lt (m : Nat) : m ∈ c.succs → m < size
  loads_lt (r : Nat × Nat) : r ∈ c.loads → r.1 < size
  stores_lt (r : Nat × Nat) : r ∈ c.stores → r.1 < size

theorem Cell.proper_empty (size : Nat) : Cell.Proper size {} where
  pts_ascending := NodeSet.ascending_empty
  done_ascending := NodeSet.ascending_empty
  succs_ascending := NodeSet.ascending_empty
  done_subset o h := absurd h (NodeSet.not_mem_default o)
  pts_lt o h := absurd h (NodeSet.not_mem_default o)
  succs_lt m h := absurd h (NodeSet.not_mem_default m)
  loads_lt _ h := absurd h List.not_mem_nil
  stores_lt _ h := absurd h List.not_mem_nil

structure Store where
  table : NodeTable
  cells : Array Cell
  membership : Nat

/-- The part of a solver that its sets, edges and rules live in. -/
def Solver.store (s : Solver) : Store := ⟨s.table, s.cells, s.membership⟩

namespace Store

def size (σ : Store) : Nat := σ.table.size

def root (σ : Store) (n : Nat) : Nat := σ.table.root n

def cell (σ : Store) (n : Nat) : Cell := σ.cells.getD n {}

/-- The set of the class of `n`. -/
def pts (σ : Store) (n : Nat) : NodeSet := (σ.cell (σ.root n)).pts

structure WellFormed (σ : Store) : Prop where
  table : σ.table.WellFormed
  cells_size : σ.cells.size = σ.size
  proper (n : Nat) : (σ.cell n).Proper σ.size
  /-- Only representatives hold anything. -/
  idle (n : Nat) : σ.root n ≠ n → σ.cell n = {}

structure IsRoot (σ : Store) (n : Nat) : Prop where
  lt : n < σ.size
  root_eq : σ.root n = n

/-- Every pointee of `a` is known to be one of `b`, because they are of one
class or an edge leads from the one class to the other. -/
def Linked (σ : Store) (a b : Nat) : Prop :=
  σ.root a = σ.root b ∨ ∃ m ∈ (σ.cell (σ.root a)).succs, σ.root m = σ.root b

def Connected (σ : Store) : Nat → Nat → Prop := Relation.ReflTransGen σ.Linked

/-- Why a pointee belongs to the set of a representative. -/
inductive Derives (cs : List Constraint) (σ : Store) : Nat → Nat → Prop
  | address {c : Constraint} (hc : c ∈ cs) (hkind : c.kind = .addrOf) :
      Derives cs σ (σ.root c.dest) c.src
  | universal {u : Nat} (hu : σ.table.IsUniversal u) : Derives cs σ (σ.root u) u
  | edge {n m o : Nat} (hm : m ∈ (σ.cell n).succs) (ho : o ∈ (σ.cell n).pts) :
      Derives cs σ (σ.root m) o

/-- Why a load or store asks for an edge between two representatives. -/
inductive Demands (fieldSensitive : Bool) (σ : Store) : Nat → Nat → Prop
  | load {n o d k : Nat} (ho : o ∈ (σ.cell n).pts) (hr : (d, k) ∈ (σ.cell n).loads) :
      Demands fieldSensitive σ (σ.root (σ.table.route fieldSensitive o k)) (σ.root d)
  | store {n o v k : Nat} (ho : o ∈ (σ.cell n).pts) (hr : (v, k) ∈ (σ.cell n).stores) :
      Demands fieldSensitive σ (σ.root v) (σ.root (σ.table.route fieldSensitive o k))

/-- The cell of `n` becomes `c`, and no class changes. -/
structure Updates (σ τ : Store) (n : Nat) (c : Cell) : Prop where
  table_eq : τ.table = σ.table
  cells_size : τ.cells.size = σ.cells.size
  cell_eq (m : Nat) : τ.cell m = if m = n then c else σ.cell m

/-- The cell of `gone` is moved into the cell of `rep`. -/
structure Moves (σ τ : Store) (rep gone : Nat) : Prop where
  absorbs : NodeTable.Absorbs σ.table τ.table rep gone
  cells_size : τ.cells.size = σ.cells.size
  cell_eq (m : Nat) : τ.cell m =
    if m = rep then Solver.absorb rep gone (σ.cell rep) (σ.cell gone)
    else if m = gone then {} else σ.cell m

inductive Step (fieldSensitive : Bool) (cs : List Constraint) (σ τ : Store) : Prop
  | grow {n : Nat} {pointees grown : NodeSet} {added : Nat} (hn : σ.IsRoot n)
      (hunites : NodeSet.Unites (σ.cell n).pts pointees (grown, added))
      (hlt : ∀ o ∈ pointees, o < σ.size) (hreason : ∀ o ∈ pointees, σ.Derives cs n o)
      (hcell : Updates σ τ n { σ.cell n with pts := grown })
      (hcount : τ.membership = σ.membership + added)
  | link {a b : Nat} (ha : σ.IsRoot a) (hb : σ.IsRoot b) (hne : a ≠ b)
      (hreason : σ.Demands fieldSensitive a b)
      (hcell : Updates σ τ a { σ.cell a with succs := (σ.cell a).succs.add b })
      (hcount : τ.membership = σ.membership)
  | settle {n : Nat} (hn : σ.IsRoot n)
      (hcell : Updates σ τ n { σ.cell n with done := (σ.cell n).pts })
      (hcount : τ.membership = σ.membership)
  | refresh {n : Nat} (hn : σ.IsRoot n)
      (hcell : Updates σ τ n { σ.cell n with
        succs := .ofList (((σ.cell n).succs.elements.map σ.root).filter (· != n)) })
      (hcount : τ.membership = σ.membership)
  | merge {a b rep gone : Nat} (ha : a < σ.size) (hb : b < σ.size)
      (hmerge : σ.table.merge a b = .ok (rep, τ.table)) (hmoves : Moves σ τ rep gone)
      (hto : σ.Connected rep gone) (hfrom : σ.Connected gone rep)
      (hcount : τ.membership = σ.membership +
        ((σ.cell rep).pts.union (σ.cell gone).pts).2 - (σ.cell gone).pts.size)

abbrev Steps (fieldSensitive : Bool) (cs : List Constraint) : Store → Store → Prop :=
  Relation.ReflTransGen (Step fieldSensitive cs)

/-! ## Reading a store -/

section Reading

variable {σ τ : Store} {n m : Nat}

theorem cell_of_size_le (hn : σ.cells.size ≤ n) : σ.cell n = {} := by
  rw [cell, Array.getD_eq_getD_getElem?, Array.getElem?_eq_none hn]
  rfl

theorem WellFormed.root_root (hσ : σ.WellFormed) (n : Nat) : σ.root (σ.root n) = σ.root n :=
  hσ.table.root_root n

theorem WellFormed.isRoot_root (hσ : σ.WellFormed) (hn : n < σ.size) : σ.IsRoot (σ.root n) :=
  ⟨hσ.table.root_lt hn, hσ.root_root n⟩

/-- A cell that holds anything is that of a representative. -/
theorem WellFormed.isRoot_of_ne (hσ : σ.WellFormed) (hn : σ.cell n ≠ {}) : σ.IsRoot n := by
  constructor
  · by_contra hlt
    exact hn (cell_of_size_le (by rw [hσ.cells_size]; omega))
  · by_contra hroot
    exact hn (hσ.idle n hroot)

theorem WellFormed.isRoot_of_mem_succs (hσ : σ.WellFormed) (hm : m ∈ (σ.cell n).succs) :
    σ.IsRoot n := by
  refine hσ.isRoot_of_ne fun hempty => ?_
  rw [hempty] at hm
  exact NodeSet.not_mem_default m hm

theorem WellFormed.isRoot_of_mem_pts (hσ : σ.WellFormed) (hm : m ∈ (σ.cell n).pts) :
    σ.IsRoot n := by
  refine hσ.isRoot_of_ne fun hempty => ?_
  rw [hempty] at hm
  exact NodeSet.not_mem_default m hm

theorem cell_modify {f : Cell → Cell} (hcells : τ.cells = σ.cells.modify n f) (m : Nat) :
    τ.cell m = if m = n ∧ n < σ.cells.size then f (σ.cell n) else σ.cell m := by
  rw [cell, cell, cell, hcells]
  simp only [Array.getD_eq_getD_getElem?, Array.getElem?_modify]
  by_cases hm : m = n
  · rw [if_pos hm.symm, hm]
    by_cases hn : n < σ.cells.size
    · rw [if_pos ⟨rfl, hn⟩, Array.getElem?_eq_getElem hn]
      rfl
    · rw [if_neg fun h => hn h.2, Array.getElem?_eq_none (Nat.le_of_not_lt hn)]
      rfl
  · rw [if_neg (Ne.symm hm), if_neg fun h => hm h.1]

theorem updates_of_lt (hn : n < σ.cells.size) (f : Cell → Cell) (htable : τ.table = σ.table)
    (hcells : τ.cells = σ.cells.modify n f) : Updates σ τ n (f (σ.cell n)) where
  table_eq := htable
  cells_size := by rw [hcells, Array.size_modify]
  cell_eq m := by
    rw [cell_modify hcells]
    exact if_congr (and_iff_left hn) rfl rfl

theorem WellFormed.updates (hσ : σ.WellFormed) (hn : σ.IsRoot n) (f : Cell → Cell)
    (htable : τ.table = σ.table) (hcells : τ.cells = σ.cells.modify n f) :
    Updates σ τ n (f (σ.cell n)) :=
  updates_of_lt (hn.lt.trans_eq hσ.cells_size.symm) f htable hcells

end Reading

/-! ## Well-formedness -/

section WellFormed

variable {fieldSensitive : Bool} {cs : List Constraint} {σ τ : Store} {n : Nat} {c : Cell}

/-- The cell `c` holds all that the cell of `n` does, though some edges may have
been led to representatives and those to `n` itself left out. -/
structure Keeps (σ : Store) (n : Nat) (c : Cell) : Prop where
  proper : c.Proper σ.size
  pts (o : Nat) : o ∈ (σ.cell n).pts → o ∈ c.pts
  succs (m : Nat) : m ∈ (σ.cell n).succs →
    σ.root m = n ∨ ∃ m' ∈ c.succs, σ.root m' = σ.root m
  loads (r : Nat × Nat) : r ∈ (σ.cell n).loads → r ∈ c.loads
  stores (r : Nat × Nat) : r ∈ (σ.cell n).stores → r ∈ c.stores

theorem mem_refreshed {m : Nat} :
    m ∈ NodeSet.ofList (((σ.cell n).succs.elements.map σ.root).filter (· != n)) ↔
      m ≠ n ∧ ∃ m' ∈ (σ.cell n).succs, σ.root m' = m := by
  rw [NodeSet.mem_ofList, List.mem_filter, List.mem_map, bne_iff_ne, and_comm]
  rfl

theorem WellFormed.keeps_grow (hσ : σ.WellFormed) {pointees grown : NodeSet} {added : Nat}
    (hunites : NodeSet.Unites (σ.cell n).pts pointees (grown, added))
    (hlt : ∀ o ∈ pointees, o < σ.size) : σ.Keeps n { σ.cell n with pts := grown } := by
  have hold := hσ.proper n
  refine ⟨?_, fun o ho => (hunites.mem o).2 (.inl ho), fun m hm => .inr ⟨m, hm, rfl⟩,
    fun _ hr => hr, fun _ hr => hr⟩
  refine
    { hold with
      pts_ascending := hunites.ascending
      done_subset := fun o ho => (hunites.mem o).2 (.inl (hold.done_subset o ho))
      pts_lt := fun o ho => ?_ }
  exact ((hunites.mem o).1 ho).elim (hold.pts_lt o) (hlt o)

theorem WellFormed.keeps_link (hσ : σ.WellFormed) {b : Nat} (hb : σ.IsRoot b) :
    σ.Keeps n { σ.cell n with succs := (σ.cell n).succs.add b } := by
  have hold := hσ.proper n
  have hmem : ∀ m, m ∈ (σ.cell n).succs.add b ↔ m = b ∨ m ∈ (σ.cell n).succs :=
    fun m => NodeSet.mem_add hold.succs_ascending
  refine ⟨?_, fun _ ho => ho, fun m hm => .inr ⟨m, (hmem m).2 (.inr hm), rfl⟩,
    fun _ hr => hr, fun _ hr => hr⟩
  refine
    { hold with
      succs_ascending := NodeSet.ascending_add hold.succs_ascending
      succs_lt := fun m hm => ?_ }
  rcases (hmem m).1 hm with rfl | hm
  · exact hb.lt
  · exact hold.succs_lt m hm

theorem WellFormed.keeps_settle (hσ : σ.WellFormed) (n : Nat) :
    σ.Keeps n { σ.cell n with done := (σ.cell n).pts } := by
  have hold := hσ.proper n
  exact ⟨{ hold with done_ascending := hold.pts_ascending, done_subset := fun _ ho => ho },
    fun _ ho => ho, fun m hm => .inr ⟨m, hm, rfl⟩,
    fun _ hr => hr, fun _ hr => hr⟩

theorem WellFormed.keeps_refresh (hσ : σ.WellFormed) (n : Nat) :
    σ.Keeps n { σ.cell n with
      succs := .ofList (((σ.cell n).succs.elements.map σ.root).filter (· != n)) } := by
  have hold := hσ.proper n
  refine ⟨?_, fun _ ho => ho, fun m hm => ?_, fun _ hr => hr, fun _ hr => hr⟩
  · refine
      { hold with
        succs_ascending := NodeSet.ascending_ofList _
        succs_lt := fun m hm => ?_ }
    obtain ⟨_, m', hm', rfl⟩ := mem_refreshed.1 hm
    exact hσ.table.root_lt (hold.succs_lt m' hm')
  · by_cases hself : σ.root m = n
    · exact .inl hself
    · exact .inr ⟨σ.root m, mem_refreshed.2 ⟨hself, m, hm, rfl⟩, hσ.root_root m⟩

/-- A step changes one cell without loss or merges two classes. -/
theorem Step.cases (hσ : σ.WellFormed) (h : Step fieldSensitive cs σ τ) :
    (∃ n c, σ.IsRoot n ∧ Updates σ τ n c ∧ σ.Keeps n c) ∨
      ∃ rep gone, Moves σ τ rep gone ∧ σ.Connected rep gone ∧ σ.Connected gone rep := by
  cases h with
  | grow hn hunites hlt _ hcell _ => exact .inl ⟨_, _, hn, hcell, hσ.keeps_grow hunites hlt⟩
  | link ha hb _ _ hcell _ => exact .inl ⟨_, _, ha, hcell, hσ.keeps_link hb⟩
  | settle hn hcell _ => exact .inl ⟨_, _, hn, hcell, hσ.keeps_settle _⟩
  | refresh hn hcell _ => exact .inl ⟨_, _, hn, hcell, hσ.keeps_refresh _⟩
  | merge _ _ _ hmoves hto hfrom _ => exact .inr ⟨_, _, hmoves, hto, hfrom⟩

theorem Updates.root_eq (h : Updates σ τ n c) (m : Nat) : τ.root m = σ.root m := by
  rw [root, root, h.table_eq]

theorem Updates.size_eq (h : Updates σ τ n c) : τ.size = σ.size := by
  rw [size, size, h.table_eq]

theorem Updates.cell_self (h : Updates σ τ n c) : τ.cell n = c := by
  rw [h.cell_eq, if_pos rfl]

theorem Updates.cell_of_ne (h : Updates σ τ n c) {m : Nat} (hm : m ≠ n) :
    τ.cell m = σ.cell m := by
  rw [h.cell_eq, if_neg hm]

/-- What the new cell has in common with the old one has not changed anywhere. -/
theorem Updates.field_eq {α : Type} (h : Updates σ τ n c) (f : Cell → α)
    (hf : f c = f (σ.cell n)) (m : Nat) : f (τ.cell m) = f (σ.cell m) := by
  by_cases hm : m = n
  · rw [hm, h.cell_self, hf]
  · rw [h.cell_of_ne hm]

theorem Updates.wellFormed (h : Updates σ τ n c) (hσ : σ.WellFormed) (hn : σ.IsRoot n)
    (hc : c.Proper σ.size) : τ.WellFormed where
  table := h.table_eq ▸ hσ.table
  cells_size := by rw [h.cells_size, h.size_eq, hσ.cells_size]
  proper m := by
    rw [h.size_eq, h.cell_eq]
    split
    next => exact hc
    next => exact hσ.proper m
  idle m hm := by
    rw [h.root_eq] at hm
    have hne : m ≠ n := by
      rintro rfl
      exact hm hn.root_eq
    rw [h.cell_of_ne hne]
    exact hσ.idle m hm

variable {rep gone : Nat}

theorem Moves.size_eq (h : Moves σ τ rep gone) : τ.size = σ.size :=
  NodeTable.size_congr h.absorbs.nodes_eq

theorem mem_succs_absorb {kept absorbed : Cell} {size m : Nat} (hk : kept.Proper size)
    (ha : absorbed.Proper size) :
    m ∈ (Solver.absorb rep gone kept absorbed).succs ↔
      m ≠ gone ∧ m ≠ rep ∧ (m ∈ kept.succs ∨ m ∈ absorbed.succs) := by
  have hunion := NodeSet.ascending_union hk.succs_ascending ha.succs_ascending
  rw [Solver.absorb, NodeSet.mem_erase (NodeSet.ascending_erase hunion), NodeSet.mem_erase hunion,
    NodeSet.mem_union hk.succs_ascending ha.succs_ascending]

theorem mem_pts_absorb {kept absorbed : Cell} {size o : Nat} (hk : kept.Proper size)
    (ha : absorbed.Proper size) :
    o ∈ (Solver.absorb rep gone kept absorbed).pts ↔ o ∈ kept.pts ∨ o ∈ absorbed.pts :=
  NodeSet.mem_union hk.pts_ascending ha.pts_ascending

theorem proper_absorb {kept absorbed : Cell} {size : Nat} (hk : kept.Proper size)
    (ha : absorbed.Proper size) : (Solver.absorb rep gone kept absorbed).Proper size where
  pts_ascending := NodeSet.ascending_union hk.pts_ascending ha.pts_ascending
  done_ascending := NodeSet.ascending_empty
  succs_ascending := NodeSet.ascending_erase (NodeSet.ascending_erase
    (NodeSet.ascending_union hk.succs_ascending ha.succs_ascending))
  done_subset o ho := absurd ho (NodeSet.not_mem_default o)
  pts_lt o ho := ((mem_pts_absorb hk ha).1 ho).elim (hk.pts_lt o) (ha.pts_lt o)
  succs_lt m hm := ((mem_succs_absorb hk ha).1 hm).2.2.elim (hk.succs_lt m) (ha.succs_lt m)
  loads_lt r hr := (List.mem_append.1 hr).elim (hk.loads_lt r) (ha.loads_lt r)
  stores_lt r hr := (List.mem_append.1 hr).elim (hk.stores_lt r) (ha.stores_lt r)

/-- What a merge makes of a cell. -/
theorem Moves.cell_cases (h : Moves σ τ rep gone) (n : Nat) :
    (n = rep ∧ τ.cell n = Solver.absorb rep gone (σ.cell rep) (σ.cell gone)) ∨
      (n = gone ∧ τ.cell n = {}) ∨ (n ≠ rep ∧ n ≠ gone) ∧ τ.cell n = σ.cell n := by
  rw [h.cell_eq]
  split
  next hrep => exact .inl ⟨hrep, rfl⟩
  next hrep =>
    split
    next hgone => exact .inr (.inl ⟨hgone, rfl⟩)
    next hgone => exact .inr (.inr ⟨⟨hrep, hgone⟩, rfl⟩)

theorem Moves.wellFormed (h : Moves σ τ rep gone) (hσ : σ.WellFormed) : τ.WellFormed where
  table := h.absorbs.wellFormed hσ.table
  cells_size := by rw [h.cells_size, h.size_eq, hσ.cells_size]
  proper m := by
    rw [h.size_eq]
    rcases h.cell_cases m with ⟨_, hc⟩ | ⟨_, hc⟩ | ⟨_, hc⟩ <;> rw [hc]
    · exact proper_absorb (hσ.proper rep) (hσ.proper gone)
    · exact Cell.proper_empty _
    · exact hσ.proper m
  idle m hm := by
    have hroot : ¬(σ.root m = m ∧ m ≠ gone) := fun hself => hm (h.absorbs.root_eq_iff.2 hself)
    rcases h.cell_cases m with ⟨hrep, _⟩ | ⟨_, hc⟩ | ⟨⟨_, hgone⟩, hc⟩
    · exact absurd (hrep ▸ ⟨h.absorbs.rep_root, h.absorbs.ne⟩) hroot
    · exact hc
    · rw [hc]
      exact hσ.idle m fun hself => hroot ⟨hself, hgone⟩

theorem Step.wellFormed (h : Step fieldSensitive cs σ τ) (hσ : σ.WellFormed) : τ.WellFormed := by
  rcases h.cases hσ with ⟨n, c, hn, hupdates, hkeeps⟩ | ⟨rep, gone, hmoves, _⟩
  · exact hupdates.wellFormed hσ hn hkeeps.proper
  · exact hmoves.wellFormed hσ

theorem Steps.wellFormed (h : Steps fieldSensitive cs σ τ) (hσ : σ.WellFormed) :
    τ.WellFormed := by
  induction h with
  | refl => exact hσ
  | tail _ hstep ih => exact hstep.wellFormed ih

/-- The table of a store changes by merges only. -/
theorem Step.reachable (h : Step fieldSensitive cs σ τ) (hσ : σ.table.Reachable) :
    τ.table.Reachable := by
  cases h with
  | grow _ _ _ _ hcell _ => exact hcell.table_eq ▸ hσ
  | link _ _ _ _ hcell _ => exact hcell.table_eq ▸ hσ
  | settle _ hcell _ => exact hcell.table_eq ▸ hσ
  | refresh _ hcell _ => exact hcell.table_eq ▸ hσ
  | merge ha hb hmerge _ _ _ _ => exact hσ.of_merge ha hb hmerge

theorem Steps.reachable (h : Steps fieldSensitive cs σ τ) (hσ : σ.table.Reachable) :
    τ.table.Reachable := by
  induction h with
  | refl => exact hσ
  | tail _ hstep ih => exact hstep.reachable ih

end WellFormed

/-! ## What a store gains -/

/-- The store `τ` holds all that `σ` does. -/
structure Extends (σ τ : Store) : Prop where
  nodes_eq : τ.table.nodes = σ.table.nodes
  classes (a b : Nat) : σ.root a = σ.root b → τ.root a = τ.root b
  pts (n o : Nat) : o ∈ σ.pts n → o ∈ τ.pts n
  linked (a b : Nat) : σ.Linked a b → τ.Linked a b
  loads (n : Nat) (r : Nat × Nat) :
    r ∈ (σ.cell (σ.root n)).loads → r ∈ (τ.cell (τ.root n)).loads
  stores (n : Nat) (r : Nat × Nat) :
    r ∈ (σ.cell (σ.root n)).stores → r ∈ (τ.cell (τ.root n)).stores

section Extends

variable {fieldSensitive : Bool} {cs : List Constraint} {σ τ υ : Store} {n : Nat} {c : Cell}
  {rep gone : Nat}

theorem Extends.refl (σ : Store) : σ.Extends σ where
  nodes_eq := rfl
  classes _ _ h := h
  pts _ _ h := h
  linked _ _ h := h
  loads _ _ h := h
  stores _ _ h := h

theorem Extends.trans (h : σ.Extends τ) (h' : τ.Extends υ) : σ.Extends υ where
  nodes_eq := h'.nodes_eq.trans h.nodes_eq
  classes a b hab := h'.classes a b (h.classes a b hab)
  pts n o ho := h'.pts n o (h.pts n o ho)
  linked a b hab := h'.linked a b (h.linked a b hab)
  loads n r hr := h'.loads n r (h.loads n r hr)
  stores n r hr := h'.stores n r (h.stores n r hr)

theorem Extends.size_eq (h : σ.Extends τ) : τ.size = σ.size := NodeTable.size_congr h.nodes_eq

theorem Extends.connected (h : σ.Extends τ) {a b : Nat} (hab : σ.Connected a b) :
    τ.Connected a b :=
  Relation.ReflTransGen.mono h.linked _ _ hab

theorem Updates.extends (h : Updates σ τ n c) (hkeeps : σ.Keeps n c) : σ.Extends τ where
  nodes_eq := by rw [h.table_eq]
  classes a b hab := by rwa [h.root_eq, h.root_eq]
  pts m o ho := by
    rw [Store.pts, h.root_eq, h.cell_eq]
    split
    next heq => exact hkeeps.pts o (heq ▸ ho)
    next => exact ho
  linked a b hab := by
    rw [Linked, h.root_eq, h.root_eq, h.cell_eq]
    rcases hab with hab | ⟨m, hm, hroot⟩
    · exact .inl hab
    · split
      next heq =>
        rw [heq] at hm
        rcases hkeeps.succs m hm with hself | ⟨m', hm', hroot'⟩
        · exact .inl (by rw [heq, ← hroot, hself])
        · exact .inr ⟨m', hm', by rw [h.root_eq, hroot', hroot]⟩
      next => exact .inr ⟨m, hm, by rw [h.root_eq, hroot]⟩
  loads m r hr := by
    rw [h.root_eq, h.cell_eq]
    split
    next heq => exact hkeeps.loads r (heq ▸ hr)
    next => exact hr
  stores m r hr := by
    rw [h.root_eq, h.cell_eq]
    split
    next heq => exact hkeeps.stores r (heq ▸ hr)
    next => exact hr

/-- Where the cell of a class is after a merge. -/
theorem Moves.cell_root (h : Moves σ τ rep gone) (n : Nat) :
    ((σ.root n = rep ∨ σ.root n = gone) ∧ τ.root n = rep ∧
        τ.cell (τ.root n) = Solver.absorb rep gone (σ.cell rep) (σ.cell gone)) ∨
      (σ.root n ≠ rep ∧ σ.root n ≠ gone) ∧ τ.root n = σ.root n ∧
        τ.cell (τ.root n) = σ.cell (σ.root n) := by
  have hroot : τ.root n = if σ.root n = gone then rep else σ.root n := h.absorbs.root_eq n
  by_cases hgone : σ.root n = gone
  · rw [if_pos hgone] at hroot
    exact .inl ⟨.inr hgone, hroot, by rw [hroot, h.cell_eq, if_pos rfl]⟩
  · rw [if_neg hgone] at hroot
    by_cases hrep : σ.root n = rep
    · exact .inl ⟨.inl hrep, hroot.trans hrep, by rw [hroot, h.cell_eq, if_pos hrep]⟩
    · exact .inr ⟨⟨hrep, hgone⟩, hroot, by rw [hroot, h.cell_eq, if_neg hrep, if_neg hgone]⟩

theorem Moves.extends (h : Moves σ τ rep gone) (hσ : σ.WellFormed) : σ.Extends τ where
  nodes_eq := h.absorbs.nodes_eq
  classes a b hab := h.absorbs.root_eq_of_root_eq hab
  pts n o ho := by
    rw [Store.pts] at *
    rcases h.cell_root n with ⟨hold, _, hcell⟩ | ⟨_, _, hcell⟩
    · rw [hcell, mem_pts_absorb (hσ.proper rep) (hσ.proper gone)]
      rcases hold with hold | hold <;> rw [hold] at ho
      · exact .inl ho
      · exact .inr ho
    · rwa [hcell]
  linked a b hab := by
    rcases hab with hab | ⟨m, hm, hroot⟩
    · exact .inl (h.absorbs.root_eq_of_root_eq hab)
    · have hroot' : τ.root m = τ.root b := h.absorbs.root_eq_of_root_eq hroot
      rcases h.cell_root a with ⟨hold, hrep, hcell⟩ | ⟨_, _, hcell⟩
      · by_cases hself : m = rep ∨ m = gone
        · -- the edge lies within the joined class
          refine .inl ?_
          have hm' : τ.root m = rep := by
            rcases h.cell_root m with ⟨_, hm', _⟩ | ⟨hne, _, _⟩
            · exact hm'
            · rcases hself with rfl | rfl
              · exact absurd h.absorbs.rep_root hne.1
              · exact absurd h.absorbs.gone_root hne.2
          rw [hrep, ← hroot', hm']
        · refine .inr ⟨m, ?_, hroot'⟩
          rw [hcell, mem_succs_absorb (hσ.proper rep) (hσ.proper gone)]
          refine ⟨fun heq => hself (.inr heq), fun heq => hself (.inl heq), ?_⟩
          rcases hold with hold | hold <;> rw [hold] at hm
          · exact .inl hm
          · exact .inr hm
      · exact .inr ⟨m, hcell ▸ hm, hroot'⟩
  loads n r hr := by
    rcases h.cell_root n with ⟨hold, _, hcell⟩ | ⟨_, _, hcell⟩
    · rw [hcell]
      refine List.mem_append.2 ?_
      rcases hold with hold | hold <;> rw [hold] at hr
      · exact .inl hr
      · exact .inr hr
    · rwa [hcell]
  stores n r hr := by
    rcases h.cell_root n with ⟨hold, _, hcell⟩ | ⟨_, _, hcell⟩
    · rw [hcell]
      refine List.mem_append.2 ?_
      rcases hold with hold | hold <;> rw [hold] at hr
      · exact .inl hr
      · exact .inr hr
    · rwa [hcell]

theorem Step.extends (h : Step fieldSensitive cs σ τ) (hσ : σ.WellFormed) : σ.Extends τ := by
  rcases h.cases hσ with ⟨n, c, _, hupdates, hkeeps⟩ | ⟨rep, gone, hmoves, _⟩
  · exact hupdates.extends hkeeps
  · exact hmoves.extends hσ

theorem Steps.extends (h : Steps fieldSensitive cs σ τ) (hσ : σ.WellFormed) : σ.Extends τ := by
  induction h with
  | refl => exact .refl σ
  | tail hsteps hstep ih => exact ih.trans (hstep.extends (Steps.wellFormed hsteps hσ))

end Extends

/-! ## What a store is bounded by -/

/-- The store holds no more than `S` does: neither its sets, nor its edges, rules
and classes lead beyond `S`. -/
structure Justified (fieldSensitive : Bool) (S : Family) (σ : Store) : Prop where
  classes (a b : Nat) : σ.root a = σ.root b → S a = S b
  pts (n o : Nat) : o ∈ (σ.cell n).pts → o ∈ S n
  succs (n m : Nat) : m ∈ (σ.cell n).succs → S n ⊆ S m
  loads (n : Nat) (r : Nat × Nat) : r ∈ (σ.cell n).loads →
    ∀ o ∈ S n, S (σ.table.route fieldSensitive o r.2) ⊆ S r.1
  stores (n : Nat) (r : Nat × Nat) : r ∈ (σ.cell n).stores →
    ∀ o ∈ S n, S r.1 ⊆ S (σ.table.route fieldSensitive o r.2)

/-- The sets lie in `S`, and edges, rules and classes lead where `flows` does. -/
structure Grounded (fieldSensitive : Bool) (S : Family) (flows : Nat → Nat → Prop) (σ : Store) :
    Prop where
  classes (a b : Nat) : σ.root a = σ.root b → flows a b
  pts (n o : Nat) : o ∈ (σ.cell n).pts → o ∈ S n
  succs (n m : Nat) : m ∈ (σ.cell n).succs → flows n m
  loads (n : Nat) (r : Nat × Nat) : r ∈ (σ.cell n).loads →
    ∀ o ∈ S n, flows (σ.table.route fieldSensitive o r.2) r.1
  stores (n : Nat) (r : Nat × Nat) : r ∈ (σ.cell n).stores →
    ∀ o ∈ S n, flows r.1 (σ.table.route fieldSensitive o r.2)

/-- To be justified is to be grounded in the inclusion of sets. -/
theorem Grounded.justified {fieldSensitive : Bool} {S : Family} {σ : Store}
    (h : σ.Grounded fieldSensitive S fun a b => S a ⊆ S b) : σ.Justified fieldSensitive S where
  classes a b hab := Set.Subset.antisymm (h.classes a b hab) (h.classes b a hab.symm)
  pts := h.pts
  succs := h.succs
  loads := h.loads
  stores := h.stores

theorem Justified.root_eq {fieldSensitive : Bool} {S : Family} {σ : Store}
    (h : σ.Justified fieldSensitive S) (hσ : σ.WellFormed) (n : Nat) : S (σ.root n) = S n :=
  h.classes _ _ (hσ.root_root n)

section Grounded

variable {fieldSensitive : Bool} {cs : List Constraint} {σ τ : Store} {S : Family}
  {flows : Nat → Nat → Prop}

theorem Grounded.to_root (h : σ.Grounded fieldSensitive S flows) (hσ : σ.WellFormed) (n : Nat) :
    flows n (σ.root n) :=
  h.classes _ _ (hσ.root_root n).symm

theorem Grounded.from_root (h : σ.Grounded fieldSensitive S flows) (hσ : σ.WellFormed) (n : Nat) :
    flows (σ.root n) n :=
  h.classes _ _ (hσ.root_root n)

variable (hflows : S.GrowsAlong flows)

include hflows

theorem Grounded.root_eq (h : σ.Grounded fieldSensitive S flows) (hσ : σ.WellFormed) (n : Nat) :
    S (σ.root n) = S n :=
  Set.Subset.antisymm (hflows.subset (h.from_root hσ n)) (hflows.subset (h.to_root hσ n))

theorem Grounded.flows_of_linked (h : σ.Grounded fieldSensitive S flows) (hσ : σ.WellFormed)
    {a b : Nat} (hab : σ.Linked a b) : flows a b := by
  rcases hab with hab | ⟨m, hm, hroot⟩
  · exact h.classes a b hab
  · exact hflows.trans (h.to_root hσ a)
      (hflows.trans (h.succs _ m hm) (h.classes m b hroot))

theorem Grounded.flows_of_connected (h : σ.Grounded fieldSensitive S flows) (hσ : σ.WellFormed)
    {a b : Nat} (hab : σ.Connected a b) : flows a b := by
  induction hab with
  | refl => exact hflows.refl a
  | tail _ hlinked ih => exact hflows.trans ih (h.flows_of_linked hflows hσ hlinked)

theorem Grounded.of_derives (h : σ.Grounded fieldSensitive S flows) (hσ : σ.WellFormed)
    (hS : S.Satisfies σ.table fieldSensitive cs) {n o : Nat} (hreason : σ.Derives cs n o) :
    o ∈ S n := by
  cases hreason with
  | @address c hc hkind =>
      have hholds := hS.holds c hc
      rw [Constraint.Holds, hkind] at hholds
      rwa [h.root_eq hflows hσ]
  | universal hu =>
      rw [h.root_eq hflows hσ]
      exact hS.universal o hu
  | @edge n m o hm ho =>
      rw [h.root_eq hflows hσ]
      exact hflows.subset (h.succs n m hm) (h.pts n o ho)

theorem Grounded.of_demands (h : σ.Grounded fieldSensitive S flows) (hσ : σ.WellFormed)
    {a b : Nat} (hreason : σ.Demands fieldSensitive a b) : flows a b := by
  cases hreason with
  | @load n o d k ho hr =>
      exact hflows.trans (h.from_root hσ _)
        (hflows.trans (h.loads n (d, k) hr o (h.pts n o ho)) (h.to_root hσ d))
  | @store n o v k ho hr =>
      exact hflows.trans (h.from_root hσ v)
        (hflows.trans (h.stores n (v, k) hr o (h.pts n o ho)) (h.to_root hσ _))

omit hflows in
/-- A cell may be changed as long as what it holds stays within the bounds. -/
theorem Grounded.updates {n : Nat} {c : Cell} (h : σ.Grounded fieldSensitive S flows)
    (hupdates : Updates σ τ n c) (hpts : ∀ o ∈ c.pts, o ∈ S n) (hsuccs : ∀ m ∈ c.succs, flows n m)
    (hloads : ∀ r ∈ c.loads, ∀ o ∈ S n, flows (σ.table.route fieldSensitive o r.2) r.1)
    (hstores : ∀ r ∈ c.stores, ∀ o ∈ S n, flows r.1 (σ.table.route fieldSensitive o r.2)) :
    τ.Grounded fieldSensitive S flows where
  classes a b hab := by
    rw [hupdates.root_eq, hupdates.root_eq] at hab
    exact h.classes a b hab
  pts m o ho := by
    rw [hupdates.cell_eq] at ho
    split at ho
    next heq => exact heq ▸ hpts o ho
    next => exact h.pts m o ho
  succs m m' hm' := by
    rw [hupdates.cell_eq] at hm'
    split at hm'
    next heq => exact heq ▸ hsuccs m' hm'
    next => exact h.succs m m' hm'
  loads m r hr := by
    rw [hupdates.table_eq]
    rw [hupdates.cell_eq] at hr
    split at hr
    next heq => exact heq ▸ hloads r hr
    next => exact h.loads m r hr
  stores m r hr := by
    rw [hupdates.table_eq]
    rw [hupdates.cell_eq] at hr
    split at hr
    next heq => exact heq ▸ hstores r hr
    next => exact h.stores m r hr

/-- Two classes may be merged if each flows into the other. -/
theorem Grounded.moves {rep gone : Nat} (h : σ.Grounded fieldSensitive S flows)
    (hσ : σ.WellFormed) (hmoves : Moves σ τ rep gone) (hto : flows rep gone)
    (hfrom : flows gone rep) : τ.Grounded fieldSensitive S flows := by
  have heq : S rep = S gone :=
    Set.Subset.antisymm (hflows.subset hto) (hflows.subset hfrom)
  have hroute : ∀ o k, τ.table.route fieldSensitive o k = σ.table.route fieldSensitive o k :=
    NodeTable.route_congr hmoves.absorbs.nodes_eq fieldSensitive
  have hroot : ∀ n, flows n (τ.root n) ∧ flows (τ.root n) n := by
    intro n
    have hn := And.intro (h.to_root hσ n) (h.from_root hσ n)
    rcases hmoves.cell_root n with ⟨hold, hrep, _⟩ | ⟨_, hsame, _⟩
    · rw [hrep]
      rcases hold with hold | hold <;> rw [hold] at hn
      · exact hn
      · exact ⟨hflows.trans hn.1 hfrom, hflows.trans hto hn.2⟩
    · rwa [hsame]
  refine
    { classes := fun a b hab => hflows.trans (hroot a).1 (hab ▸ (hroot b).2)
      pts := fun n o ho => ?_
      succs := fun n m hm => ?_
      loads := fun n r hr => ?_
      stores := fun n r hr => ?_ }
  · rcases hmoves.cell_cases n with ⟨rfl, hc⟩ | ⟨_, hc⟩ | ⟨_, hc⟩ <;> rw [hc] at ho
    · rcases (mem_pts_absorb (hσ.proper n) (hσ.proper gone)).1 ho with ho | ho
      · exact h.pts n o ho
      · exact heq ▸ h.pts gone o ho
    · exact absurd ho (NodeSet.not_mem_default o)
    · exact h.pts n o ho
  · rcases hmoves.cell_cases n with ⟨rfl, hc⟩ | ⟨_, hc⟩ | ⟨_, hc⟩ <;> rw [hc] at hm
    · rcases ((mem_succs_absorb (hσ.proper n) (hσ.proper gone)).1 hm).2.2 with hm | hm
      · exact h.succs n m hm
      · exact hflows.trans hto (h.succs gone m hm)
    · exact absurd hm (NodeSet.not_mem_default m)
    · exact h.succs n m hm
  · simp only [hroute]
    rcases hmoves.cell_cases n with ⟨rfl, hc⟩ | ⟨_, hc⟩ | ⟨_, hc⟩ <;> rw [hc] at hr
    · rcases List.mem_append.1 hr with hr | hr
      · exact h.loads n r hr
      · exact heq ▸ h.loads gone r hr
    · exact absurd hr List.not_mem_nil
    · exact h.loads n r hr
  · simp only [hroute]
    rcases hmoves.cell_cases n with ⟨rfl, hc⟩ | ⟨_, hc⟩ | ⟨_, hc⟩ <;> rw [hc] at hr
    · rcases List.mem_append.1 hr with hr | hr
      · exact h.stores n r hr
      · exact heq ▸ h.stores gone r hr
    · exact absurd hr List.not_mem_nil
    · exact h.stores n r hr

theorem Step.grounded (h : Step fieldSensitive cs σ τ) (hσ : σ.WellFormed)
    (hS : S.Satisfies σ.table fieldSensitive cs) (hg : σ.Grounded fieldSensitive S flows) :
    τ.Grounded fieldSensitive S flows := by
  cases h with
  | grow _ hunites hlt hreason hcell _ =>
      refine hg.updates hcell (fun o ho => ?_) (hg.succs _) (hg.loads _) (hg.stores _)
      exact ((hunites.mem o).1 ho).elim (hg.pts _ o)
        fun ho => hg.of_derives hflows hσ hS (hreason o ho)
  | @link a b _ _ _ hreason hcell _ =>
      refine hg.updates hcell (hg.pts a) (fun m hm => ?_) (hg.loads a) (hg.stores a)
      rcases (NodeSet.mem_add (hσ.proper a).succs_ascending).1 hm with rfl | hm
      · exact hg.of_demands hflows hσ hreason
      · exact hg.succs a m hm
  | @settle n _ hcell _ =>
      exact hg.updates hcell (hg.pts n) (hg.succs n) (hg.loads n) (hg.stores n)
  | @refresh n _ hcell _ =>
      refine hg.updates hcell (hg.pts n) (fun m hm => ?_) (hg.loads n) (hg.stores n)
      obtain ⟨_, m', hm', rfl⟩ := mem_refreshed.1 hm
      exact hflows.trans (hg.succs n m' hm') (hg.to_root hσ m')
  | merge _ _ _ hmoves hto hfrom _ =>
      exact hg.moves hflows hσ hmoves (hg.flows_of_connected hflows hσ hto)
        (hg.flows_of_connected hflows hσ hfrom)

theorem Steps.grounded (h : Steps fieldSensitive cs σ τ) (hσ : σ.WellFormed)
    (hS : S.Satisfies σ.table fieldSensitive cs) (hg : σ.Grounded fieldSensitive S flows) :
    τ.Grounded fieldSensitive S flows := by
  induction h with
  | refl => exact hg
  | tail hsteps hstep ih =>
      exact hstep.grounded hflows (Steps.wellFormed hsteps hσ)
        (hS.congr (Steps.extends hsteps hσ).nodes_eq) ih

end Grounded

end Store

end PointsTo
