import PointsTo.Proofs.NodeTable.Special
import PointsTo.Proofs.Solver.Store
import Mathlib.Data.Finset.Card
import Mathlib.Data.Finset.Prod
import Mathlib.Data.Prod.Lex

/-!
# What a run has left to do

Three numbers tell how far a run is from its end: the classes, the pointees that
the sets still lack, and the length of the queue. A node is queued when a set
has grown, so a new entry of the queue is paid for with a missing pointee, or
when classes have been merged, so it is paid for with a class. Merging leaves
less classes and no more missing pointees, and the processing of a node leaves
queue and missing pointees together with no more than they were
(`Solver.Proceeds`).

The other thing that is left to do is to collapse cycles. A search for them
starts from the recent nodes only, and then forgets them. So a cycle that could
be collapsed must be reachable from a recent node at all times
(`Solver.Watched`). That is so because a cycle can only be closed by a new edge
or by a merge, and then it passes through a node that has just become a recent
one (`Solver.Remembers`).
-/

namespace PointsTo

namespace Store

/-! ## Classes and missing pointees -/

def classes (σ : Store) : Nat := ((Finset.range σ.size).filter fun n => σ.root n = n).card

/-- The number of pointees that the sets of all nodes together lack. -/
def missing (σ : Store) : Nat :=
  ((Finset.range σ.size ×ˢ Finset.range σ.size).filter fun p =>
    p.2 ∉ (σ.pts p.1).elements).card

section Measure

variable {σ τ : Store} {rep gone n o : Nat}

theorem classes_le_size (σ : Store) : σ.classes ≤ σ.size :=
  (Finset.card_filter_le _ _).trans_eq (Finset.card_range _)

theorem missing_le_sq (σ : Store) : σ.missing ≤ σ.size * σ.size := by
  refine (Finset.card_filter_le _ _).trans_eq ?_
  rw [Finset.card_product, Finset.card_range]

theorem classes_congr (h : τ.table = σ.table) : τ.classes = σ.classes := by
  obtain ⟨_, _, _⟩ := σ
  obtain ⟨_, _, _⟩ := τ
  obtain rfl := h
  rfl

/-- A merge leaves one class less. -/
theorem Moves.classes_eq (h : Moves σ τ rep gone) : τ.classes + 1 = σ.classes := by
  have hroots : (Finset.range τ.size).filter (fun n => τ.root n = n) =
      ((Finset.range σ.size).filter fun n => σ.root n = n).erase gone := by
    ext n
    rw [Finset.mem_erase, Finset.mem_filter, Finset.mem_filter, h.size_eq]
    have hroot : τ.root n = n ↔ σ.root n = n ∧ n ≠ gone := h.absorbs.root_eq_iff
    tauto
  rw [classes, hroots, Finset.card_erase_add_one]
  · rfl
  · exact Finset.mem_filter.2 ⟨Finset.mem_range.2 h.absorbs.gone_lt, h.absorbs.gone_root⟩

theorem mem_missing {p : Nat × Nat} :
    p ∈ (Finset.range σ.size ×ˢ Finset.range σ.size).filter (fun p =>
        p.2 ∉ (σ.pts p.1).elements) ↔
      (p.1 < σ.size ∧ p.2 < σ.size) ∧ p.2 ∉ σ.pts p.1 := by
  rw [Finset.mem_filter, Finset.mem_product, Finset.mem_range, Finset.mem_range]
  rfl

theorem Extends.missing_le (h : σ.Extends τ) : τ.missing ≤ σ.missing := by
  refine Finset.card_le_card fun p hp => ?_
  rw [mem_missing, h.size_eq] at hp
  exact mem_missing.2 ⟨hp.1, fun hold => hp.2 (h.pts p.1 p.2 hold)⟩

/-- A new pointee is missing no more. -/
theorem Extends.missing_lt (h : σ.Extends τ) (hn : n < σ.size) (ho : o < σ.size)
    (hnew : o ∈ τ.pts n) (hold : o ∉ σ.pts n) : τ.missing < σ.missing := by
  refine Finset.card_lt_card (Finset.ssubset_iff_of_subset (fun p hp => ?_) |>.2
    ⟨(n, o), mem_missing.2 ⟨⟨hn, ho⟩, hold⟩, fun hmem => (mem_missing.1 hmem).2 hnew⟩)
  rw [mem_missing, h.size_eq] at hp
  exact mem_missing.2 ⟨hp.1, fun hold => hp.2 (h.pts p.1 p.2 hold)⟩

end Measure

/-! ## Links before and after a step -/

section Linked

variable {σ τ : Store} {rep gone a b n : Nat}

theorem connected_of_root_eq (h : σ.root a = σ.root b) : σ.Connected a b := .single (.inl h)

theorem linked_congr (htable : τ.table = σ.table)
    (hsuccs : ∀ n, (τ.cell n).succs = (σ.cell n).succs) : τ.Linked a b ↔ σ.Linked a b := by
  simp only [Linked, root, htable, hsuccs]

/-- Any new link leaves the class that has got a new edge. -/
theorem Updates.linked_cases {c : Cell} (h : Updates σ τ n c) (hab : τ.Linked a b) :
    σ.Linked a b ∨ σ.root a = n := by
  by_cases ha : σ.root a = n
  · exact .inr ha
  · rw [Linked, h.root_eq, h.root_eq, h.cell_of_ne ha] at hab
    refine .inl (hab.imp_right ?_)
    rintro ⟨m, hm, hroot⟩
    exact ⟨m, hm, (h.root_eq m).symm.trans hroot⟩

/-- A link from an edge that has been led to a representative is an old one. -/
theorem Updates.linked_of_refresh (hσ : σ.WellFormed)
    (h : Updates σ τ n { σ.cell n with
      succs := .ofList (((σ.cell n).succs.elements.map σ.root).filter (· != n)) })
    (hab : τ.Linked a b) : σ.Linked a b := by
  rcases h.linked_cases hab with hold | ha
  · exact hold
  · rw [Linked, h.root_eq, h.root_eq, ha, h.cell_self] at hab
    rw [Linked, ha]
    refine hab.imp_right ?_
    rintro ⟨m, hm, hroot⟩
    obtain ⟨_, m', hm', rfl⟩ := mem_refreshed.1 hm
    exact ⟨m', hm', by rw [← hroot, h.root_eq, hσ.root_root]⟩

/-- Any new link starts or ends in the class that came of the merge. -/
theorem Moves.linked_cases (h : Moves σ τ rep gone) (hab : τ.Linked a b) :
    σ.Linked a b ∨ τ.root a = rep ∨ τ.root b = rep := by
  rcases h.cell_root a with ⟨_, ha, _⟩ | ⟨_, ha, hcell⟩
  · exact .inr (.inl ha)
  rcases h.cell_root b with ⟨_, hb, _⟩ | ⟨hne, hb, _⟩
  · exact .inr (.inr hb)
  refine .inl ?_
  rw [Linked, hcell, ha, hb] at hab
  refine hab.imp_right ?_
  rintro ⟨m, hm, hroot⟩
  refine ⟨m, hm, ?_⟩
  rcases h.cell_root m with ⟨_, hm', _⟩ | ⟨_, hm', _⟩
  · exact absurd (hroot.symm.trans hm') hne.1
  · exact hm'.symm.trans hroot

/-- If new links pass through `n`, new paths do. -/
theorem connected_through
    (hlinked : ∀ x y, τ.Linked x y → σ.Linked x y ∨ τ.Connected x n ∧ τ.Connected n y)
    (hab : τ.Connected a b) : σ.Connected a b ∨ τ.Connected a n ∧ τ.Connected n b := by
  induction hab with
  | refl => exact .inl .refl
  | @tail x y hax hxy ih =>
      rcases hlinked x y hxy with hold | ⟨hxn, hny⟩
      · rcases ih with ih | ⟨han, hnx⟩
        · exact .inl (ih.tail hold)
        · exact .inr ⟨han, hnx.tail hxy⟩
      · exact .inr ⟨hax.trans hxn, hny⟩

end Linked

/-- Any two classes on a cycle may not be merged. -/
def Collapsed (σ : Store) : Prop :=
  ∀ a b, σ.Connected a b → σ.Connected b a → σ.root a ≠ σ.root b → σ.table.Opposed a b

end Store

namespace Solver

/-! ## Cycles under watch -/

/-- What is queued, and where the next search starts, are nodes of the table. -/
structure Orderly (s : Solver) : Prop where
  queue_lt : ∀ n ∈ s.worklist.queue, n < s.store.size
  recent_ascending : s.recent.Ascending
  recent_lt : ∀ n ∈ s.recent, n < s.store.size

/-- A search for cycles that starts now gets to the class of `a`. -/
def Watches (s : Solver) (a : Nat) : Prop := ∃ n ∈ s.recent, s.store.Connected n a

/-- Any two classes on a cycle are watched, or may not be merged. -/
def Watched (s : Solver) : Prop :=
  ∀ a b, s.store.Connected a b → s.store.Connected b a → s.store.root a ≠ s.store.root b →
    s.Watches a ∨ s.store.table.Opposed a b

/-- With no node to start from nothing is watched. -/
theorem Watched.collapsed {s : Solver} (h : s.Watched) (hrecent : s.recent = {}) :
    s.store.Collapsed := by
  intro a b hab hba hne
  refine (h a b hab hba hne).resolve_left ?_
  rintro ⟨n, hn, _⟩
  rw [hrecent] at hn
  exact NodeSet.not_mem_default n hn

/-- On the way from `s` to `t` no cycle has been closed without being watched. -/
structure Remembers (s t : Solver) : Prop where
  extends_store : s.store.Extends t.store
  recent : ∀ n ∈ s.recent, n ∈ t.recent
  cycles (a b : Nat) : t.store.Connected a b → t.store.Connected b a →
    t.Watches a ∨ s.store.Connected a b ∧ s.store.Connected b a

section Remembers

variable {s t u : Solver} {n a b : Nat}

theorem Remembers.refl (s : Solver) : s.Remembers s where
  extends_store := .refl _
  recent _ h := h
  cycles _ _ hab hba := .inr ⟨hab, hba⟩

theorem Remembers.watches (h : s.Remembers t) (ha : s.Watches a) : t.Watches a := by
  obtain ⟨n, hn, hna⟩ := ha
  exact ⟨n, h.recent n hn, h.extends_store.connected hna⟩

theorem Remembers.trans (h : s.Remembers t) (h' : t.Remembers u) : s.Remembers u where
  extends_store := h.extends_store.trans h'.extends_store
  recent n hn := h'.recent n (h.recent n hn)
  cycles a b hab hba := by
    rcases h'.cycles a b hab hba with ha | ⟨hab, hba⟩
    · exact .inl ha
    · exact (h.cycles a b hab hba).imp_left h'.watches

theorem Remembers.watched (h : s.Remembers t) (hs : s.Watched) : t.Watched := by
  intro a b hab hba hne
  rcases h.cycles a b hab hba with ha | ⟨hab, hba⟩
  · exact .inl ha
  · refine (hs a b hab hba fun heq => hne (h.extends_store.classes a b heq)).imp h.watches ?_
    exact fun hopposed => hopposed.mono h.extends_store.nodes_eq h.extends_store.classes

/-- Without new links there are no new cycles. -/
theorem Remembers.of_linked (hext : s.store.Extends t.store)
    (hrecent : ∀ n ∈ s.recent, n ∈ t.recent)
    (hlinked : ∀ x y, t.store.Linked x y → s.store.Linked x y) : s.Remembers t where
  extends_store := hext
  recent := hrecent
  cycles _ _ hab hba := .inr
    ⟨Relation.ReflTransGen.mono hlinked _ _ hab, Relation.ReflTransGen.mono hlinked _ _ hba⟩

/-- A change outside of the store. -/
theorem Remembers.of_store_eq (hstore : t.store = s.store)
    (hrecent : ∀ n ∈ s.recent, n ∈ t.recent) : s.Remembers t :=
  .of_linked (hstore ▸ .refl _) hrecent fun _ _ h => hstore ▸ h

/-- New links may be made through a recent node. -/
theorem Remembers.of_through (hext : s.store.Extends t.store)
    (hrecent : ∀ m ∈ s.recent, m ∈ t.recent) (hn : n ∈ t.recent)
    (hlinked : ∀ x y, t.store.Linked x y →
      s.store.Linked x y ∨ t.store.Connected x n ∧ t.store.Connected n y) : s.Remembers t where
  extends_store := hext
  recent := hrecent
  cycles a b hab hba := by
    rcases Store.connected_through hlinked hab with hold | ⟨_, hnb⟩
    · rcases Store.connected_through hlinked hba with hold' | ⟨_, hna⟩
      · exact .inr ⟨hold, hold'⟩
      · exact .inl ⟨n, hn, hna⟩
    · exact .inl ⟨n, hn, hnb.trans hba⟩

/-- A new edge is watched if its source is. -/
theorem Remembers.of_link {c : Cell} (hs : s.store.WellFormed)
    (hcell : Store.Updates s.store t.store n c) (hext : s.store.Extends t.store)
    (hrecent : ∀ m ∈ s.recent, m ∈ t.recent) (hn : n ∈ t.recent) : s.Remembers t := by
  refine .of_through hext hrecent hn fun x y hxy => ?_
  refine (hcell.linked_cases hxy).imp_right fun hx => ?_
  have hroot : s.store.root x = s.store.root n := by rw [← hx, hs.root_root]
  exact ⟨hext.connected (Store.connected_of_root_eq hroot),
    (hext.connected (Store.connected_of_root_eq hroot.symm)).tail hxy⟩

/-- A merge is watched if the joined class is. -/
theorem Remembers.of_moves {rep gone : Nat} (hs : s.store.WellFormed)
    (hmoves : Store.Moves s.store t.store rep gone)
    (hrecent : ∀ m ∈ s.recent, m ∈ t.recent) (hn : rep ∈ t.recent) : s.Remembers t := by
  have hrep : t.store.root rep = rep :=
    hmoves.absorbs.root_eq_iff.2 ⟨hmoves.absorbs.rep_root, hmoves.absorbs.ne⟩
  have hclass : ∀ x, t.store.root x = rep → t.store.Connected x rep ∧ t.store.Connected rep x :=
    fun x hx => ⟨Store.connected_of_root_eq (hx.trans hrep.symm),
      Store.connected_of_root_eq (hrep.trans hx.symm)⟩
  refine .of_through (hmoves.extends hs) hrecent hn fun x y hxy => ?_
  refine (hmoves.linked_cases hxy).imp_right ?_
  rintro (hx | hy)
  · exact ⟨(hclass x hx).1, (hclass x hx).2.tail hxy⟩
  · exact ⟨(hclass y hy).1.head hxy, (hclass y hy).2⟩

end Remembers

/-! ## Progress between merges -/

/-- From `s` to `t` no classes have been merged, and what has been queued is paid
for with missing pointees. -/
structure Proceeds (s t : Solver) : Prop extends Remembers s t where
  table_eq : t.table = s.table
  pays : t.worklist.queue.length + t.store.missing ≤ s.worklist.queue.length + s.store.missing

section Proceeds

variable {s t u : Solver} {n : Nat}

theorem Proceeds.refl (s : Solver) : s.Proceeds s := ⟨.refl s, rfl, Nat.le_refl _⟩

theorem Proceeds.trans (h : s.Proceeds t) (h' : t.Proceeds u) : s.Proceeds u :=
  ⟨h.toRemembers.trans h'.toRemembers, h'.table_eq.trans h.table_eq, h'.pays.trans h.pays⟩

/-- A change that makes no links and queues nobody. -/
theorem Proceeds.of_linked (htable : t.table = s.table) (hext : s.store.Extends t.store)
    (hworklist : t.worklist = s.worklist) (hrecent : ∀ n ∈ s.recent, n ∈ t.recent)
    (hlinked : ∀ x y, t.store.Linked x y → s.store.Linked x y) : s.Proceeds t where
  toRemembers := .of_linked hext hrecent hlinked
  table_eq := htable
  pays := by
    rw [hworklist]
    exact Nat.add_le_add_left hext.missing_le _

/-- A change outside of the store that queues nobody. -/
theorem Proceeds.of_store_eq (hstore : t.store = s.store) (hworklist : t.worklist = s.worklist)
    (hrecent : ∀ n ∈ s.recent, n ∈ t.recent) : s.Proceeds t :=
  ⟨.of_store_eq hstore hrecent, congrArg Store.table hstore, by rw [hworklist, hstore]⟩

end Proceeds

/-! ## The measure of a run -/

/-- What is left to do, in the order in which it counts. -/
def remaining (s : Solver) : ℕ ×ₗ ℕ ×ₗ ℕ :=
  toLex (s.store.classes, toLex (s.store.missing, s.worklist.queue.length))

/-- What is left to do, as one number. A class counts twice, for its merge and for
the entry of the queue that the merge may make. -/
def work (s : Solver) : Nat := 2 * s.store.classes + s.store.missing + s.worklist.queue.length

/-- The solver `t` has less left to do than `s`. -/
structure Nears (s t : Solver) : Prop where
  remaining_lt : t.remaining < s.remaining
  work_lt : t.work < s.work

section Nears

variable {s t u : Solver}

theorem Nears.of_classes_lt (h : t.store.classes < s.store.classes) (hwork : t.work < s.work) :
    s.Nears t :=
  ⟨Prod.Lex.toLex_lt_toLex.2 (.inl h), hwork⟩

/-- Progress may come after progress, or after nothing. -/
theorem Nears.of_left (h : s.Nears t ∨ t.store = s.store ∧ t.worklist = s.worklist)
    (h' : t.Nears u) : s.Nears u := by
  rcases h with h | ⟨hstore, hworklist⟩
  · exact ⟨h'.remaining_lt.trans h.remaining_lt, h'.work_lt.trans h.work_lt⟩
  · have hremaining := h'.remaining_lt
    have hwork := h'.work_lt
    rw [remaining, remaining, hstore, hworklist] at hremaining
    rw [work, work, hstore, hworklist] at hwork
    exact ⟨hremaining, hwork⟩

/-- To process a node that has been taken out of the queue is progress. -/
theorem Proceeds.nears (h : s.Proceeds t) {r : Solver} (hstore : s.store = r.store)
    (hqueue : r.worklist.queue.length = s.worklist.queue.length + 1) : r.Nears t := by
  have hclasses : t.store.classes = r.store.classes := by
    rw [← hstore]
    exact Store.classes_congr h.table_eq
  have hmissing : t.store.missing ≤ r.store.missing := hstore ▸ h.extends_store.missing_le
  have hpays := h.pays
  rw [hstore] at hpays
  constructor
  · refine Prod.Lex.toLex_lt_toLex.2 (.inr ⟨hclasses, Prod.Lex.toLex_lt_toLex.2 ?_⟩)
    rcases Nat.lt_or_eq_of_le hmissing with hlt | heq
    · exact .inl hlt
    · exact .inr ⟨heq, by dsimp only; omega⟩
  · rw [work, work]
    omega

end Nears

end Solver

end PointsTo
