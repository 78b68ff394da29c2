import PointsTo.Solver.Fixpoint
import PointsTo.Proofs.Solver.Propagation

/-!
# Entering the constraints

Before a solver runs, it enters each constraint into the cell that will act on
it, and then puts the pointees that are given outright into their sets. Entering
is done once. It moves no pointee, so it is no step of a run; what it
establishes, that every constraint is on record (`Store.Records`), no later step
undoes.

Seeding is done at each start of a run. It puts pointees into sets without
queueing anybody and queues all nodes with a set at the end, so during it every
class may be late.
-/

namespace PointsTo

namespace Store

/-- The constraint is on record in the cells. -/
def Records (σ : Store) (c : Constraint) : Prop :=
  match c.kind with
  | .addrOf => True
  | .copy => σ.Linked c.src c.dest
  | .load => (c.dest, c.offset) ∈ (σ.cell (σ.root c.src)).loads
  | .store => (c.src, c.offset) ∈ (σ.cell (σ.root c.dest)).stores

/-- The pointees that are given outright are in their sets. -/
structure Seeded (cs : List Constraint) (σ : Store) : Prop where
  address : ∀ c ∈ cs, c.kind = .addrOf → c.src ∈ σ.pts c.dest
  universal (u : Nat) : σ.table.IsUniversal u → u ∈ σ.pts u

/-- The constraints `cs` have been entered, and no pointee has moved. -/
structure Enters (fieldSensitive : Bool) (cs : List Constraint) (σ τ : Store) : Prop where
  wellFormed : τ.WellFormed
  table_eq : τ.table = σ.table
  sets_eq (n : Nat) : (τ.cell n).pts = (σ.cell n).pts ∧ (τ.cell n).done = (σ.cell n).done
  gains : σ.Extends τ
  records : ∀ c ∈ cs, τ.Records c
  grounded (S : Family) (flows : Nat → Nat → Prop) : S.GrowsAlong flows →
    (∀ c ∈ cs, ∀ a b, c.Copies σ.table fieldSensitive S a b → flows a b) →
    σ.Grounded fieldSensitive S flows → τ.Grounded fieldSensitive S flows

section Enters

variable {fieldSensitive : Bool} {cs : List Constraint} {σ τ υ : Store} {c : Constraint}

theorem Extends.records (h : σ.Extends τ) (hc : σ.Records c) : τ.Records c := by
  unfold Records at *
  split at hc
  next => trivial
  next => exact h.linked _ _ hc
  next => exact h.loads _ _ hc
  next => exact h.stores _ _ hc

theorem Extends.seeded (h : σ.Extends τ) (hseeded : σ.Seeded cs) : τ.Seeded cs where
  address c hc hkind := h.pts _ _ (hseeded.address c hc hkind)
  universal u hu :=
    h.pts _ _ (hseeded.universal u ((NodeTable.isUniversal_congr h.nodes_eq u).1 hu))

theorem Enters.refl (hσ : σ.WellFormed) : Enters fieldSensitive [] σ σ where
  wellFormed := hσ
  table_eq := rfl
  sets_eq _ := ⟨rfl, rfl⟩
  gains := .refl σ
  records _ hc := absurd hc List.not_mem_nil
  grounded _ _ _ _ h := h

theorem Enters.trans {cs' : List Constraint} (h : Enters fieldSensitive cs σ τ)
    (h' : Enters fieldSensitive cs' τ υ) : Enters fieldSensitive (cs ++ cs') σ υ where
  wellFormed := h'.wellFormed
  table_eq := h'.table_eq.trans h.table_eq
  sets_eq n := ⟨(h'.sets_eq n).1.trans (h.sets_eq n).1, (h'.sets_eq n).2.trans (h.sets_eq n).2⟩
  gains := h.gains.trans h'.gains
  records c hc := (List.mem_append.1 hc).elim (fun hc => h'.gains.records (h.records c hc))
    (h'.records c)
  grounded S flows hflows hS hg := by
    rw [List.forall_mem_append] at hS
    exact h'.grounded S flows hflows (h.table_eq ▸ hS.2) (h.grounded S flows hflows hS.1 hg)

/-- A constraint is entered by a change to one cell. -/
theorem Updates.enters {n : Nat} {c' : Cell} (h : Updates σ τ n c') (hσ : σ.WellFormed)
    (hn : σ.IsRoot n) (hkeeps : σ.Keeps n c')
    (hsets : c'.pts = (σ.cell n).pts ∧ c'.done = (σ.cell n).done) (hrecords : τ.Records c)
    (hcopies : ∀ (S : Family) (flows : Nat → Nat → Prop), S.GrowsAlong flows →
      (∀ a b, c.Copies σ.table fieldSensitive S a b → flows a b) →
      σ.Grounded fieldSensitive S flows →
      (∀ m ∈ c'.succs, flows n m) ∧
      (∀ r ∈ c'.loads, ∀ o ∈ S n, flows (σ.table.route fieldSensitive o r.2) r.1) ∧
      ∀ r ∈ c'.stores, ∀ o ∈ S n, flows r.1 (σ.table.route fieldSensitive o r.2)) :
    Enters fieldSensitive [c] σ τ where
  wellFormed := h.wellFormed hσ hn hkeeps.proper
  table_eq := h.table_eq
  sets_eq m := ⟨h.field_eq Cell.pts hsets.1 m, h.field_eq Cell.done hsets.2 m⟩
  gains := h.extends hkeeps
  records d hd := List.mem_singleton.1 hd ▸ hrecords
  grounded S flows hflows hS hg := by
    obtain ⟨hsuccs, hloads, hstores⟩ := hcopies S flows hflows (hS c List.mem_cons_self) hg
    exact hg.updates h (fun o ho => hg.pts n o (hsets.1 ▸ ho)) hsuccs hloads hstores

end Enters

end Store

namespace Solver

section Index

variable {s : Solver} {c : Constraint}

/-- Entering constraints changes nothing but cells, and where the next search for
cycles starts. -/
theorem indexConstraint_frame (s : Solver) (c : Constraint) :
    ∃ cells recent, s.indexConstraint c = { s with cells, recent } := by
  rw [indexConstraint]
  split
  next => exact ⟨s.cells, s.recent, rfl⟩
  next =>
    dsimp only
    split
    next => exact ⟨s.cells, s.recent, rfl⟩
    next => exact ⟨_, _, rfl⟩
  next => exact ⟨_, s.recent, rfl⟩
  next => exact ⟨_, s.recent, rfl⟩

theorem indexLoad_enters (hs : s.store.WellFormed) (hkind : c.kind = .load)
    (hdest : c.dest < s.store.size) (hsrc : c.src < s.store.size) (fieldSensitive : Bool) :
    Store.Enters fieldSensitive [c] s.store (s.modifyCell (s.table.root c.src) fun cell =>
      { cell with loads := cell.loads ++ [(c.dest, c.offset)] }).store := by
  have hroot := hs.isRoot_root hsrc
  have hold := hs.proper (s.store.root c.src)
  have hupdates := hs.updates hroot
    (fun cell => { cell with loads := cell.loads ++ [(c.dest, c.offset)] })
    (τ := (s.modifyCell (s.table.root c.src) fun cell =>
      { cell with loads := cell.loads ++ [(c.dest, c.offset)] }).store) rfl rfl
  have hmem : ∀ r, r ∈ (s.store.cell (s.store.root c.src)).loads ++ [(c.dest, c.offset)] ↔
      r ∈ (s.store.cell (s.store.root c.src)).loads ∨ r = (c.dest, c.offset) := by
    intro r
    rw [List.mem_append, List.mem_singleton]
  refine hupdates.enters hs hroot ⟨{ hold with loads_lt := fun r hr => ?_ }, fun _ ho => ho,
    fun m hm => .inr ⟨m, hm, rfl⟩, fun r hr => (hmem r).2 (.inl hr), fun _ hr => hr⟩
    ⟨rfl, rfl⟩ ?_ fun S flows hflows hS hg => ⟨hg.succs _, fun r hr => ?_, hg.stores _⟩
  · rcases (hmem r).1 hr with hr | rfl
    · exact hold.loads_lt r hr
    · exact hdest
  · simp only [Store.Records, hkind]
    rw [hupdates.root_eq, hupdates.cell_self]
    exact (hmem _).2 (.inr rfl)
  · rcases (hmem r).1 hr with hr | rfl
    · exact hg.loads _ r hr
    · simp only [Constraint.Copies, hkind] at hS
      rw [hg.root_eq hflows hs]
      exact fun o ho => hS _ _ ⟨o, ho, rfl, rfl⟩

theorem indexStore_enters (hs : s.store.WellFormed) (hkind : c.kind = .store)
    (hdest : c.dest < s.store.size) (hsrc : c.src < s.store.size) (fieldSensitive : Bool) :
    Store.Enters fieldSensitive [c] s.store (s.modifyCell (s.table.root c.dest) fun cell =>
      { cell with stores := cell.stores ++ [(c.src, c.offset)] }).store := by
  have hroot := hs.isRoot_root hdest
  have hold := hs.proper (s.store.root c.dest)
  have hupdates := hs.updates hroot
    (fun cell => { cell with stores := cell.stores ++ [(c.src, c.offset)] })
    (τ := (s.modifyCell (s.table.root c.dest) fun cell =>
      { cell with stores := cell.stores ++ [(c.src, c.offset)] }).store) rfl rfl
  have hmem : ∀ r, r ∈ (s.store.cell (s.store.root c.dest)).stores ++ [(c.src, c.offset)] ↔
      r ∈ (s.store.cell (s.store.root c.dest)).stores ∨ r = (c.src, c.offset) := by
    intro r
    rw [List.mem_append, List.mem_singleton]
  refine hupdates.enters hs hroot ⟨{ hold with stores_lt := fun r hr => ?_ }, fun _ ho => ho,
    fun m hm => .inr ⟨m, hm, rfl⟩, fun _ hr => hr, fun r hr => (hmem r).2 (.inl hr)⟩
    ⟨rfl, rfl⟩ ?_ fun S flows hflows hS hg => ⟨hg.succs _, hg.loads _, fun r hr => ?_⟩
  · rcases (hmem r).1 hr with hr | rfl
    · exact hold.stores_lt r hr
    · exact hsrc
  · simp only [Store.Records, hkind]
    rw [hupdates.root_eq, hupdates.cell_self]
    exact (hmem _).2 (.inr rfl)
  · rcases (hmem r).1 hr with hr | rfl
    · exact hg.stores _ r hr
    · simp only [Constraint.Copies, hkind] at hS
      rw [hg.root_eq hflows hs]
      exact fun o ho => hS _ _ ⟨o, ho, rfl, rfl⟩

theorem indexCopy_enters (hs : s.store.WellFormed) (hkind : c.kind = .copy)
    (hdest : c.dest < s.store.size) (hsrc : c.src < s.store.size) (fieldSensitive : Bool) :
    Store.Enters fieldSensitive [c] s.store (s.modifyCell (s.table.root c.src) fun cell =>
      { cell with succs := cell.succs.add (s.table.root c.dest) }).store := by
  have hroot := hs.isRoot_root hsrc
  have hupdates := hs.updates hroot
    (fun cell => { cell with succs := cell.succs.add (s.table.root c.dest) })
    (τ := (s.modifyCell (s.table.root c.src) fun cell =>
      { cell with succs := cell.succs.add (s.table.root c.dest) }).store) rfl rfl
  have hmem : ∀ m, m ∈ (s.store.cell (s.store.root c.src)).succs.add (s.store.root c.dest) ↔
      m = s.store.root c.dest ∨ m ∈ (s.store.cell (s.store.root c.src)).succs :=
    fun m => NodeSet.mem_add (hs.proper _).succs_ascending
  refine hupdates.enters hs hroot (hs.keeps_link (hs.isRoot_root hdest)) ⟨rfl, rfl⟩ ?_
    fun S flows hflows hS hg => ⟨fun m hm => ?_, hg.loads _, hg.stores _⟩
  · simp only [Store.Records, hkind]
    refine .inr ⟨s.store.root c.dest, ?_, ?_⟩
    · rw [hupdates.root_eq, hupdates.cell_self]
      exact (hmem _).2 (.inl rfl)
    · rw [hupdates.root_eq, hupdates.root_eq, hs.root_root]
  · rcases (hmem m).1 hm with rfl | hm
    · simp only [Constraint.Copies, hkind] at hS
      exact hflows.trans (hg.from_root hs _)
        (hflows.trans (hS _ _ ⟨rfl, rfl⟩) (hg.to_root hs _))
    · exact hg.succs _ m hm

theorem indexConstraint_enters (hs : s.store.WellFormed) (hdest : c.dest < s.store.size)
    (hsrc : c.src < s.store.size) (fieldSensitive : Bool) :
    Store.Enters fieldSensitive [c] s.store (s.indexConstraint c).store := by
  have hnone : s.store.Records c → Store.Enters fieldSensitive [c] s.store s.store := by
    intro hrecords
    have hrefl : Store.Enters fieldSensitive [] s.store s.store := .refl hs
    exact { hrefl with
      records := fun d hd => List.mem_singleton.1 hd ▸ hrecords
      grounded := fun _ _ _ _ hg => hg }
  rw [indexConstraint]
  split
  next hkind =>
    refine hnone ?_
    simp only [Store.Records, hkind]
  next hkind =>
    dsimp only
    split
    next heq =>
      refine hnone ?_
      simp only [Store.Records, hkind]
      exact .inl heq
    next => exact indexCopy_enters hs hkind hdest hsrc fieldSensitive
  next hkind => exact indexLoad_enters hs hkind hdest hsrc fieldSensitive
  next hkind => exact indexStore_enters hs hkind hdest hsrc fieldSensitive

/-- A copy that is entered is watched. -/
theorem indexConstraint_remembers (hs : s.store.WellFormed) (horderly : s.Orderly)
    (hdest : c.dest < s.store.size) (hsrc : c.src < s.store.size) :
    s.Remembers (s.indexConstraint c) ∧ (s.indexConstraint c).Orderly := by
  have hgains := (indexConstraint_enters hs hdest hsrc s.config.fieldSensitive).gains
  have hrule : ∀ (n : Nat) (f : Cell → Cell), n < s.store.size →
      (∀ cell, (f cell).succs = cell.succs) →
      s.store.Extends (s.modifyCell (s.store.root n) f).store →
      s.Remembers (s.modifyCell (s.store.root n) f) ∧
        (s.modifyCell (s.store.root n) f).Orderly := by
    intro n f hn hf hext
    have hupdates := hs.updates (τ := (s.modifyCell (s.store.root n) f).store)
      (hs.isRoot_root hn) f rfl rfl
    have hsuccs := hupdates.field_eq Cell.succs (hf _)
    exact ⟨.of_linked hext (fun _ => id) fun _ _ =>
      (Store.linked_congr hupdates.table_eq hsuccs).1, horderly.congr rfl rfl rfl⟩
  rw [indexConstraint] at hgains ⊢
  cases hkind : c.kind with
  | addrOf => exact ⟨.refl s, horderly⟩
  | copy =>
      simp only [hkind] at hgains ⊢
      by_cases heq : s.table.root c.src = s.table.root c.dest
      · rw [if_pos heq]
        exact ⟨.refl s, horderly⟩
      · rw [if_neg heq] at hgains ⊢
        have hroot := hs.isRoot_root hsrc
        have hupdates := hs.updates hroot
          (fun cell => { cell with succs := cell.succs.add (s.table.root c.dest) })
          (τ := (s.modifyCell (s.table.root c.src) fun cell =>
            { cell with succs := cell.succs.add (s.table.root c.dest) }).store) rfl rfl
        have hrecent : ∀ m, m ∈ s.recent.add (s.table.root c.src) ↔
            m = s.table.root c.src ∨ m ∈ s.recent :=
          fun m => NodeSet.mem_add horderly.recent_ascending
        exact ⟨.of_link hs hupdates hgains (fun m hm => (hrecent m).2 (.inr hm))
          ((hrecent _).2 (.inl rfl)), (horderly.markRecent hroot.lt).congr rfl rfl rfl⟩
  | load =>
      simp only [hkind] at hgains ⊢
      exact hrule c.src _ hsrc (fun _ => rfl) hgains
  | store =>
      simp only [hkind] at hgains ⊢
      exact hrule c.dest _ hdest (fun _ => rfl) hgains

theorem foldl_indexConstraint_frame (s : Solver) (cs : List Constraint) :
    ∃ cells recent, cs.foldl indexConstraint s = { s with cells, recent } := by
  induction cs generalizing s with
  | nil => exact ⟨s.cells, s.recent, rfl⟩
  | cons c cs ih =>
      obtain ⟨cells, recent, h⟩ := s.indexConstraint_frame c
      obtain ⟨cells', recent', h'⟩ := ih (s.indexConstraint c)
      rw [h] at h'
      exact ⟨cells', recent', by rw [List.foldl_cons, h, h']⟩

theorem foldl_indexConstraint_enters {cs : List Constraint} (hs : s.store.WellFormed)
    (hcs : ∀ c ∈ cs, c.dest < s.store.size ∧ c.src < s.store.size) (fieldSensitive : Bool) :
    Store.Enters fieldSensitive cs s.store (cs.foldl indexConstraint s).store := by
  induction cs generalizing s with
  | nil => exact .refl hs
  | cons c cs ih =>
      rw [List.forall_mem_cons] at hcs
      have hfirst := indexConstraint_enters hs hcs.1.1 hcs.1.2 fieldSensitive
      refine hfirst.trans (ih hfirst.wellFormed ?_)
      rw [hfirst.gains.size_eq]
      exact hcs.2

theorem foldl_indexConstraint_remembers {cs : List Constraint} (hs : s.store.WellFormed)
    (horderly : s.Orderly) (hcs : ∀ c ∈ cs, c.dest < s.store.size ∧ c.src < s.store.size) :
    s.Remembers (cs.foldl indexConstraint s) ∧ (cs.foldl indexConstraint s).Orderly := by
  induction cs generalizing s with
  | nil => exact ⟨.refl s, horderly⟩
  | cons c cs ih =>
      rw [List.forall_mem_cons] at hcs
      have hfirst := indexConstraint_enters hs hcs.1.1 hcs.1.2 s.config.fieldSensitive
      obtain ⟨hremembers, horderly'⟩ := indexConstraint_remembers hs horderly hcs.1.1 hcs.1.2
      obtain ⟨hremembers', horderly''⟩ := ih hfirst.wellFormed horderly' fun c hc => by
        rw [hfirst.gains.size_eq]
        exact hcs.2 c hc
      exact ⟨hremembers.trans hremembers', horderly''⟩

end Index

/-! ## Seeding -/

section Seed

variable {s t u : Solver} {n m : Nat}

theorem mem_universals (hs : s.store.WellFormed) {u : Nat} :
    u ∈ s.universals ↔ s.store.table.IsUniversal u := by
  rw [universals, List.mem_map]
  constructor
  · rintro ⟨node, hnode, rfl⟩
    obtain ⟨hmem, hkind⟩ := List.mem_filter.1 hnode
    obtain ⟨i, hi, hget⟩ := List.getElem_of_mem hmem
    have hnode' : s.table.node? i = some node := by
      rw [NodeTable.node?, Array.getElem?_eq_some_iff]
      exact ⟨hi, hget⟩
    exact ⟨node, hs.table.index_eq i node hnode' ▸ hnode', by simpa using hkind⟩
  · rintro ⟨node, hnode, hkind⟩
    obtain ⟨hi, hget⟩ := Array.getElem?_eq_some_iff.1 hnode
    refine ⟨node, List.mem_filter.2 ⟨?_, by simpa using hkind⟩, hs.table.index_eq u node hnode⟩
    exact Array.mem_toList_iff.2 (hget ▸ Array.getElem_mem hi)

/-- While a solver is seeded every class may be late. -/
abbrev Seeding (s : Solver) : Prop := s.Tracks s.store.Passed s.store.Passed fun _ => True

/-- From `s` to `t` pointees have been put into their sets. -/
structure Seeds (s t : Solver) : Prop extends Runs s t where
  seeding : t.Seeding
  table_eq : t.table = s.table
  remembers : s.Remembers t

theorem Seeds.refl (h : s.Seeding) : s.Seeds s := ⟨.refl s, h, rfl, .refl s⟩

theorem Seeds.trans (h : s.Seeds t) (h' : t.Seeds u) : s.Seeds u :=
  ⟨h.toRuns.trans h'.toRuns, h'.seeding, h'.table_eq.trans h.table_eq,
    h.remembers.trans h'.remembers⟩

/-- A set that grows need not be queued while all classes may be late. -/
theorem Seeds.of_grow {pointees grown : NodeSet} {added : Nat} (h : s.Seeding)
    (hn : s.store.IsRoot n) (hunites : NodeSet.Unites (s.store.cell n).pts pointees (grown, added))
    (hlt : ∀ o ∈ pointees, o < s.store.size) (hruns : s.Runs t)
    (hcell : Store.Updates s.store t.store n { s.store.cell n with pts := grown })
    (hrecent : t.recent = s.recent) (hworklist : t.worklist = s.worklist) : s.Seeds t := by
  have ht := h.grow hn hunites hlt hruns hcell hrecent (.inl hworklist) (.inr (.inr trivial))
  refine ⟨hruns, ?_, hcell.table_eq, ht.proceeds.toRemembers⟩
  rw [Seeding, ht.spreads.passed_eq]
  exact ht.tracks

theorem seedPointee_ends {dest src : Nat} (h : s.Seeding) (hdest : dest < s.store.size)
    (hsrc : src < s.store.size)
    (hreason : s.store.Derives s.constraints (s.store.root dest) src) :
    Action.Ends (seedPointee dest src) s (fun _ t => s.Seeds t ∧ src ∈ t.store.pts dest)
      (fun _ t => s.Runs t) := by
  have hroot := h.store.isRoot_root hdest
  have hunites : NodeSet.Unites (s.store.cell (s.store.root dest)).pts (.singleton src)
      (((s.cell (s.table.root dest)).pts.insert src).1,
        if ((s.cell (s.table.root dest)).pts.insert src).2 then 1 else 0) :=
    NodeSet.insert_unites (h.store.proper _).pts_ascending src
  have hmem : src ∈ ((s.cell (s.table.root dest)).pts.insert src).1 :=
    (hunites.mem src).2 (.inr List.mem_cons_self)
  have hlt : ∀ o ∈ NodeSet.singleton src, o < s.store.size :=
    fun o ho => List.mem_singleton.1 ho ▸ hsrc
  have hreasons : ∀ o ∈ NodeSet.singleton src,
      s.store.Derives s.constraints (s.store.root dest) o :=
    fun o ho => List.mem_singleton.1 ho ▸ hreason
  rw [seedPointee, Action.ends_bind, Action.ends_get]
  dsimp only
  rw [Action.ends_ite]
  constructor
  · intro hfresh
    rw [if_pos hfresh] at hunites
    rw [Action.ends_bind, Action.ends_set]
    let u := charged (s.modifyCell (s.table.root dest) fun c =>
      { c with pts := ((s.cell (s.table.root dest)).pts.insert src).1 }) 1
    have hcell := h.store.updates (τ := u.store) hroot (fun c =>
      { c with pts := ((s.cell (s.table.root dest)).pts.insert src).1 }) rfl rfl
    have hruns : s.Runs u :=
      .of_step (.grow hroot hunites hlt hreasons hcell rfl) ⟨rfl, rfl, rfl, rfl⟩
    refine (charge_ends _ 1).imp ?_ ?_
    · rintro _ t rfl
      refine ⟨.of_grow h hroot hunites hlt hruns hcell rfl rfl, ?_⟩
      rw [Store.pts, hcell.root_eq, hcell.cell_self]
      exact hmem
    · rintro _ t rfl
      exact hruns
  · intro hold
    rw [if_neg hold] at hunites
    rw [Action.ends_pure]
    refine ⟨.refl h, ?_⟩
    rw [Store.pts]
    have hsame := hunites.eq_of_eq_zero (h.store.proper _).pts_ascending rfl
    exact hsame ▸ hmem

/-- Pointees are put into their sets one by one. -/
theorem seedAll_ends {α : Type} (f : α → Nat × Nat) (xs : List α) (h : s.Seeding)
    (hlt : ∀ x ∈ xs, (f x).1 < s.store.size ∧ (f x).2 < s.store.size)
    (hreason : ∀ x ∈ xs, ∀ t : Solver, t.constraints = s.constraints → t.table = s.table →
      t.store.Derives s.constraints (t.store.root (f x).1) (f x).2) :
    Action.Ends (xs.forM fun x => seedPointee (f x).1 (f x).2) s
      (fun _ t => s.Seeds t ∧ ∀ x ∈ xs, (f x).2 ∈ t.store.pts (f x).1) (fun _ t => s.Runs t) := by
  refine Action.ends_forM_all (I := fun t => s.Seeds t)
    (P := fun x t => (f x).2 ∈ t.store.pts (f x).1) (.refl h) ?_
  rintro x hx t ht
  have hsize : t.store.size = s.store.size := congrArg NodeTable.size ht.table_eq
  refine (seedPointee_ends ht.seeding (hsize ▸ (hlt x hx).1) (hsize ▸ (hlt x hx).2) ?_).imp ?_
    fun _ u hu => ht.toRuns.trans hu
  · rw [ht.constraints_eq]
    exact hreason x hx t ht.constraints_eq ht.table_eq
  · rintro _ u ⟨hu, hmem⟩
    exact ⟨ht.trans hu, hmem, fun y hy => (hu.toRuns.extends ht.seeding.store).pts _ _ hy⟩

/-- The pointees that constraints give outright. -/
theorem seedAddresses_ends (h : s.Seeding)
    (hrange : ∀ c ∈ s.constraints, c.dest < s.store.size ∧ c.src < s.store.size) :
    Action.Ends ((Constraint.ofKind .addrOf s.constraints).forM fun c => seedPointee c.dest c.src) s
      (fun _ t => s.Seeds t ∧ ∀ c ∈ s.constraints, c.kind = .addrOf → c.src ∈ t.store.pts c.dest)
      (fun _ t => s.Runs t) := by
  have haddress : ∀ c, c ∈ Constraint.ofKind .addrOf s.constraints ↔
      c ∈ s.constraints ∧ c.kind = .addrOf := by
    intro c
    rw [Constraint.ofKind, List.mem_filter, beq_iff_eq]
  refine (seedAll_ends (fun c : Constraint => (c.dest, c.src))
    (Constraint.ofKind .addrOf s.constraints) h ?_ ?_).imp_ok ?_
  · exact fun c hc => hrange c ((haddress c).1 hc).1
  · intro c hc t _ _
    obtain ⟨hc, hkind⟩ := (haddress c).1 hc
    exact .address hc hkind
  · exact fun _ t ⟨ht, hall⟩ => ⟨ht, fun c hc hkind => hall c ((haddress c).2 ⟨hc, hkind⟩)⟩

/-- Unknown memory points to itself. -/
theorem seedUniversals_ends (h : s.Seeding) :
    Action.Ends (s.universals.forM fun u => seedPointee u u) s
      (fun _ t => s.Seeds t ∧ ∀ u, s.table.IsUniversal u → u ∈ t.store.pts u)
      (fun _ t => s.Runs t) := by
  refine (seedAll_ends (fun u : Nat => (u, u)) s.universals h ?_ ?_).imp_ok ?_
  · intro u hu
    have hlt := NodeTable.lt_size_of_isPointee
      (NodeTable.isPointee_of_isUniversal ((mem_universals h.store).1 hu))
    exact ⟨hlt, hlt⟩
  · intro u hu t _ htable
    have hnodes : t.store.table.nodes = s.store.table.nodes := congrArg NodeTable.nodes htable
    exact .universal ((NodeTable.isUniversal_congr hnodes u).2 ((mem_universals h.store).1 hu))
  · exact fun _ t ⟨ht, hall⟩ => ⟨ht, fun u hu => hall u ((mem_universals h.store).2 hu)⟩

theorem foldl_push_frame (s : Solver) (ns : List Nat) :
    ∃ worklist, ns.foldl push s = { s with worklist } := by
  induction ns generalizing s with
  | nil => exact ⟨s.worklist, rfl⟩
  | cons n ns ih =>
      obtain ⟨worklist, h⟩ := ih (s.push n)
      exact ⟨worklist, by rw [List.foldl_cons, h, push]⟩

theorem tracks_foldl_push {sent ruled : Nat → Nat → Prop} {late : Nat → Prop}
    (h : s.Tracks sent ruled late) (ns : List Nat) (hns : ∀ n ∈ ns, n < s.store.size) :
    (ns.foldl push s).Tracks sent ruled late ∧ (∀ n, s.Queued n → (ns.foldl push s).Queued n) ∧
      ∀ n ∈ ns, (ns.foldl push s).Queued (s.store.root n) := by
  induction ns generalizing s with
  | nil => exact ⟨h, fun _ hn => hn, fun n hn => absurd hn List.not_mem_nil⟩
  | cons n ns ih =>
      rw [List.forall_mem_cons] at hns
      obtain ⟨htracks, hkept, hqueued⟩ := ih (h.push hns.1) hns.2
      have hpush : ∀ m, (s.push n).Queued m ↔ s.store.root n = m ∨ s.Queued m :=
        fun m => queued_push h.worklist
      refine ⟨htracks, fun m hm => hkept m ((hpush m).2 (.inr hm)), fun m hm => ?_⟩
      rcases List.mem_cons.1 hm with rfl | hm
      · exact hkept _ ((hpush _).2 (.inl rfl))
      · exact hqueued m hm

theorem lt_of_mem_seeded (hs : s.store.WellFormed) (hn : n ∈ s.seeded) : n < s.store.size :=
  hs.cells_size ▸ List.mem_range.1 (List.mem_filter.1 hn).1

theorem mem_seeded (hs : s.store.WellFormed) {n o : Nat} (ho : o ∈ (s.store.cell n).pts) :
    n ∈ s.seeded := by
  have hn := hs.isRoot_of_mem_pts ho
  have hlt : n < s.cells.size := hs.cells_size ▸ hn.lt
  have hne : (s.cell n).pts.isEmpty = false := by
    by_contra hempty
    exact NodeSet.isEmpty_iff.1 (Bool.not_eq_false _ ▸ hempty) o ho
  have hroot : s.table.isRoot n = true := hs.table.isRoot_iff.2 hn.root_eq
  refine List.mem_filter.2 ⟨List.mem_range.2 hlt, ?_⟩
  rw [hne, hroot]
  rfl

/-- Once all classes with a set are queued, none is late. -/
theorem Seeding.steady (h : s.Seeding) : (s.seeded.foldl push s).Steady := by
  obtain ⟨worklist, hframe⟩ := s.foldl_push_frame s.seeded
  obtain ⟨htracks, _, hqueued⟩ :=
    tracks_foldl_push h s.seeded fun _ => lt_of_mem_seeded h.store
  have hstore : (s.seeded.foldl push s).store = s.store := by rw [hframe]; rfl
  rw [← hstore] at htracks
  refine { htracks with pending := fun n o ho _ => .inl ?_ }
  rw [hstore] at ho
  have hn := h.store.isRoot_of_mem_pts ho
  exact hn.root_eq ▸ hqueued n (mem_seeded h.store ho)

theorem prepare_ends (s : Solver) :
    Action.Ends prepare s
      (fun _ t => s.indexed = true ∧ t = s ∨ s.indexed = false ∧ t = s.indexConstraints ∧
        s.table.validate s.config.fieldSensitive s.constraints = .ok ())
      (fun _ t => t = s) := by
  rw [prepare, Action.ends_bind, Action.ends_get, Action.ends_ite]
  constructor
  · intro hindexed
    rw [Bool.not_eq_true'] at hindexed
    rw [Action.ends_bind, Action.ends_ofExcept]
    refine ⟨fun _ _ => ?_, fun _ _ => rfl⟩
    rw [Action.ends_bind, Action.ends_ofExcept]
    exact ⟨fun _ hvalid => .inr ⟨hindexed, rfl, hvalid⟩, fun _ _ => rfl⟩
  · intro hindexed
    rw [Bool.not_eq_true', Bool.not_eq_false] at hindexed
    exact .inl ⟨hindexed, rfl⟩

/-- What is left of seeding once the constraints are entered. -/
theorem seedRest_ends (h : s.Seeding)
    (hrange : ∀ c ∈ s.constraints, c.dest < s.store.size ∧ c.src < s.store.size) :
    Action.Ends (do
        modify fun s => { s with stats := s.stats.restart }
        let s ← get
        (Constraint.ofKind .addrOf s.constraints).forM fun c => seedPointee c.dest c.src
        s.universals.forM fun u => seedPointee u u
        modify fun s => { s.seeded.foldl push s with phase := .running }) s
      (fun _ t => s.Runs { t with phase := s.phase } ∧ t.phase = .running ∧ t.Steady ∧
        t.store.Seeded s.constraints ∧ s.Remembers t)
      (fun _ t => s.Runs t) := by
  rw [Action.ends_bind, Action.ends_modify, Action.ends_bind, Action.ends_get]
  have hrestart : s.Seeds { s with stats := s.stats.restart } :=
    ⟨⟨.refl, rfl, rfl, rfl, rfl⟩, h.congr rfl rfl rfl (h.orderly.congr rfl rfl rfl), rfl,
      .of_store_eq rfl fun _ => id⟩
  refine ((seedAddresses_ends hrestart.seeding hrange).imp_error
    fun _ t ht => hrestart.toRuns.trans ht).bind ?_
  rintro _ t ⟨ht, haddress⟩
  have ht := hrestart.trans ht
  have huniversals : universals { s with stats := s.stats.restart } = t.universals := by
    rw [universals, universals, ht.table_eq]
  rw [huniversals]
  refine ((seedUniversals_ends ht.seeding).imp_error fun _ u hu => ht.toRuns.trans hu).bind ?_
  rintro _ u ⟨hu, huniversal⟩
  have hext := hu.toRuns.extends ht.seeding.store
  have hall := ht.trans hu
  have hsteady := hall.seeding.steady
  obtain ⟨worklist, hframe⟩ := u.foldl_push_frame u.seeded
  rw [Action.ends_modify]
  rw [hframe] at hsteady ⊢
  refine ⟨⟨hall.steps, hall.config_eq, hall.constraints_eq, hall.indexed_eq, rfl⟩, rfl, ?_, ?_,
    hall.remembers.trans (.of_store_eq rfl fun _ => id)⟩
  · exact hsteady.congr rfl rfl rfl (hsteady.orderly.congr rfl rfl rfl)
  · refine ⟨fun c hc hkind => hext.pts _ _ (haddress c hc hkind), fun v hv => huniversal v ?_⟩
    have hnodes : u.store.table.nodes = t.store.table.nodes := congrArg NodeTable.nodes hu.table_eq
    exact (NodeTable.isUniversal_congr hnodes v).1 hv

end Seed

end Solver

end PointsTo
