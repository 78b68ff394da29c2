import PointsTo.Proofs.Action
import PointsTo.Proofs.Solver.Store

/-!
# Rules that are set aside

A loop over the rules of a node can take them out of its cell and put them back when it is
done, so that the cells may be written to while it goes over them (`materializeAside`). This
would lose the rules if what the loop does could leave in between, or read them, or if they
were not put back when it fails. None of this happens: whatever rules are in the cell of a
node while edges are made, the edges are the same, and so are all other changes and any
failure (`mirrors_materialize`). So processing a node with its rules set aside is processing
the node (`processAside_eq`), and a node may also be a target of the edges that are made for
it.
-/

namespace PointsTo

namespace Solver

/-- Puts rules into the cell of a node in place of those that are there. -/
def setRules (n : Nat) (loads stores : List (Nat × Nat)) (s : Solver) : Solver :=
  s.modifyCell n fun c => { c with loads, stores }

/-- Makes the edges for the rules of `n` with the rules taken out of its cell, and puts them
back, also if that fails. -/
def materializeAside (n : Nat) (fresh : List Nat) : Action Solver Unit := fun s =>
  let c := s.cell n
  if c.loads = [] ∧ c.stores = [] then .ok () s
  else
    match materialize fresh c.loads c.stores (s.setRules n [] []) with
    | .ok _ t => .ok () (t.setRules n c.loads c.stores)
    | .error e t => .error e (t.setRules n c.loads c.stores)

/-- As `process`, with the rules of the node set aside while they are gone over. -/
def processAside (popped : Nat) : Action Solver Unit := do
  modify fun s => s.notePop (s.table.root popped)
  let s ← get
  let n := s.table.root popped
  let c := s.cell n
  let delta := c.pts.difference c.done
  if !delta.isEmpty then
    modify (·.modifyCell n fun c => { c with done := (c.done.union delta).1 })
    materializeAside n delta.elements
    modify (·.refreshTargets n)
    let s ← get
    (s.served n).forM (send delta)

section SetRules

variable {s : Solver} {n m : Nat} {loads stores : List (Nat × Nat)}

/-- What the change of a cell leaves alone is the same in all cells. -/
theorem field_modifyCell {α : Type} (g : Cell → α) {f : Cell → Cell}
    (hf : ∀ c, g (f c) = g c) (s : Solver) (n m : Nat) :
    g ((s.modifyCell n f).cell m) = g (s.cell m) := by
  have hcell : (s.modifyCell n f).cell m =
      if m = n ∧ n < s.cells.size then f (s.cell n) else s.cell m :=
    Store.cell_modify (σ := s.store) (τ := (s.modifyCell n f).store) rfl m
  rw [hcell]
  split
  next h => rw [hf, h.1]
  next => rfl

theorem modifyCell_modifyCell (s : Solver) (n : Nat) (f g : Cell → Cell) :
    (s.modifyCell n f).modifyCell n g = s.modifyCell n (g ∘ f) := by
  have hcells : (s.cells.modify n f).modify n g = s.cells.modify n (g ∘ f) := by
    refine Array.ext_getElem? fun i => ?_
    rw [Array.getElem?_modify, Array.getElem?_modify, Array.getElem?_modify]
    split
    next => rw [Option.map_map]
    next => rfl
  exact congrArg (fun cells => { s with cells }) hcells

/-- It does not matter which of two cells is changed first, nor of two independent changes to
one cell. -/
theorem modifyCell_comm {f g : Cell → Cell} (hfg : ∀ c, g (f c) = f (g c)) (s : Solver)
    (m n : Nat) : (s.modifyCell m f).modifyCell n g = (s.modifyCell n g).modifyCell m f := by
  have hcells : (s.cells.modify m f).modify n g = (s.cells.modify n g).modify m f := by
    refine Array.ext_getElem? fun i => ?_
    simp only [Array.getElem?_modify]
    by_cases hn : n = i <;> by_cases hm : m = i
    · rw [if_pos hn, if_pos hm, if_pos hm, if_pos hn, Option.map_map, Option.map_map]
      exact congrArg (fun f => Option.map f s.cells[i]?) (funext hfg)
    · rw [if_pos hn, if_neg hm, if_neg hm, if_pos hn]
    · rw [if_neg hn, if_pos hm, if_pos hm, if_neg hn]
    · rw [if_neg hn, if_neg hm, if_neg hm, if_neg hn]
  exact congrArg (fun cells => { s with cells }) hcells

/-- Rules that are taken out and put back are where they were. -/
theorem setRules_setRules_self (s : Solver) (n : Nat) :
    (s.setRules n loads stores).setRules n (s.cell n).loads (s.cell n).stores = s := by
  have hcells : s.cells.modify n (fun c =>
      { c with loads := (s.cell n).loads, stores := (s.cell n).stores }) = s.cells := by
    refine Array.ext_getElem? fun i => ?_
    rw [Array.getElem?_modify]
    split
    next hi =>
      cases hget : s.cells[i]? with
      | none => rfl
      | some c =>
          have hcell : s.cell n = c := by
            rw [cell, Array.getD_eq_getD_getElem?, hi, hget]
            rfl
          rw [hcell]
          rfl
    next => rfl
  rw [setRules, setRules, modifyCell_modifyCell]
  exact congrArg (fun cells => { s with cells }) hcells

end SetRules

/-! ## What does not depend on rules -/

section Mirrors

open PointsTo.Action

variable (n : Nat) (loads stores : List (Nat × Nat))

theorem mirrors_charge (added : Nat) :
    Mirrors (setRules n loads stores) (charge added) (charge added) := by
  refine (mirrors_modify fun _ => by rfl).bind fun _ =>
    Mirrors.get_bind (fun _ => by rfl) fun s => ?_
  split
  next => exact .ite (mirrors_throw _) (mirrors_pure _)
  next => exact mirrors_pure _

theorem mirrors_send (pointees : NodeSet) (target : Nat) :
    Mirrors (setRules n loads stores) (send pointees target) (send pointees target) := by
  refine Mirrors.get_bind (fun s => ?_) fun s => ?_
  · have hpts : ((s.setRules n loads stores).cell target).pts = (s.cell target).pts :=
      field_modifyCell Cell.pts (fun _ => by rfl) s n target
    simp only [hpts]
  · generalize (s.cell target).pts.union pointees = result
    obtain ⟨grown, added⟩ := result
    refine (mirrors_modify fun t => ?_).bind fun _ => .ite ?_ (mirrors_pure _)
    · have hcomm := modifyCell_comm (f := fun c => { c with pts := grown })
        (g := fun c => { c with loads, stores }) (fun _ => rfl) t target n
      exact congrArg (fun u : Solver =>
        { u with stats.pointeesSent := t.stats.pointeesSent + pointees.size }) hcomm
    · refine (mirrors_modify fun _ => by rfl).bind fun _ => ?_
      exact (mirrors_charge n loads stores added).bind fun _ => mirrors_modify fun _ => by rfl

theorem mirrors_addEdge (source target : Nat) :
    Mirrors (setRules n loads stores) (addEdge source target) (addEdge source target) := by
  refine Mirrors.get_bind (fun s => ?_) fun s => ?_
  · have htable : (s.setRules n loads stores).table = s.table := rfl
    have hcell : ((s.setRules n loads stores).cell (s.table.root source)).succs =
          (s.cell (s.table.root source)).succs ∧
        ((s.setRules n loads stores).cell (s.table.root source)).pts =
          (s.cell (s.table.root source)).pts :=
      ⟨field_modifyCell Cell.succs (fun _ => by rfl) s n _,
        field_modifyCell Cell.pts (fun _ => by rfl) s n _⟩
    simp only [htable, hcell]
  · refine .ite (.bind (mirrors_modify fun t => ?_) fun _ => mirrors_send n loads stores _ _)
      (mirrors_pure _)
    have hcomm := modifyCell_comm
      (f := fun c => { c with
        succs := ((s.cell (s.table.root source)).succs.insert (s.table.root target)).1 })
      (g := fun c => { c with loads, stores }) (fun _ => rfl) t (s.table.root source) n
    exact congrArg (fun u : Solver =>
      { u.markRecent (s.table.root source) with
        stats.materializedEdges := t.stats.materializedEdges + 1 }) hcomm

theorem mirrors_access (o k : Nat) :
    Mirrors (setRules n loads stores) (access o k) (access o k) := by
  refine Mirrors.get_bind (fun _ => by rfl) fun s => ?_
  split
  next => exact (mirrors_modify fun _ => by rfl).bind fun _ => mirrors_pure _
  next => exact mirrors_pure _

/-- Edges are made in the same way whatever rules are in the cell of `n`. -/
theorem mirrors_materialize (fresh : List Nat) (rules rules' : List (Nat × Nat)) :
    Mirrors (setRules n loads stores) (materialize fresh rules rules')
      (materialize fresh rules rules') := by
  refine mirrors_forM (fun o => ?_) fresh
  refine (mirrors_forM (fun rule => ?_) rules).bind fun _ => mirrors_forM (fun rule => ?_) rules'
  · exact (mirrors_access n loads stores o rule.2).bind fun _ =>
      mirrors_addEdge n loads stores _ _
  · exact (mirrors_access n loads stores o rule.2).bind fun _ =>
      mirrors_addEdge n loads stores _ _

end Mirrors

/-! ## Processing with the rules set aside -/

/-- Without rules there are no edges to make. -/
theorem materialize_nil (fresh : List Nat) (s : Solver) :
    materialize fresh [] [] s = .ok () s := by
  induction fresh with
  | nil => rfl
  | cons o fresh ih => exact ih

theorem materializeAside_eq (n : Nat) (fresh : List Nat) (s : Solver) :
    materializeAside n fresh s = materialize fresh (s.cell n).loads (s.cell n).stores s := by
  have hsame := mirrors_materialize n (s.cell n).loads (s.cell n).stores fresh (s.cell n).loads
    (s.cell n).stores (s.setRules n [] [])
  rw [setRules_setRules_self] at hsame
  have haside : materializeAside n fresh s =
      if (s.cell n).loads = [] ∧ (s.cell n).stores = [] then .ok () s
      else
        match materialize fresh (s.cell n).loads (s.cell n).stores (s.setRules n [] []) with
        | .ok _ t => .ok () (t.setRules n (s.cell n).loads (s.cell n).stores)
        | .error e t => .error e (t.setRules n (s.cell n).loads (s.cell n).stores) := rfl
  rw [haside]
  by_cases hnone : (s.cell n).loads = [] ∧ (s.cell n).stores = []
  · rw [if_pos hnone, hnone.1, hnone.2, materialize_nil]
  · rw [if_neg hnone]
    unfold Action.Ends at hsame
    split <;> rename_i hrun <;> rw [hrun] at hsame <;> exact hsame.symm

/-- The rules are still those that were there before the delta was counted as done. -/
theorem materializeAside_settled (n : Nat) (fresh : List Nat) (delta : NodeSet) (s : Solver) :
    let settled := s.modifyCell n fun c => { c with done := (c.done.union delta).1 }
    materializeAside n fresh settled =
      materialize fresh (s.cell n).loads (s.cell n).stores settled := by
  intro settled
  have hloads : (settled.cell n).loads = (s.cell n).loads :=
    field_modifyCell Cell.loads (fun _ => by rfl) s n n
  have hstores : (settled.cell n).stores = (s.cell n).stores :=
    field_modifyCell Cell.stores (fun _ => by rfl) s n n
  rw [materializeAside_eq, hloads, hstores]

/-- Nothing comes of setting rules aside. -/
theorem processAside_eq (popped : Nat) : processAside popped = process popped := by
  funext s
  rw [processAside, process]
  refine Action.bind_congr_right (E := fun _ _ => True) (Action.ends_modify.2 ?_)
  refine Action.bind_congr_right (E := fun _ _ => True) (Action.ends_get.2 ?_)
  split
  next =>
    refine Action.bind_congr_right (E := fun _ _ => True) (Action.ends_modify.2 ?_)
    exact Action.bind_congr_left (materializeAside_settled _ _ _ _) _
  next => rfl

end Solver

end PointsTo
