import PointsTo.Proofs.Components.Complete
import PointsTo.Proofs.NodeTable.Groups
import PointsTo.Proofs.Solver.Propagation

/-!
# Collapsing cycles loses no pointee and no cycle

A search for cycles finds representatives that edges connect both ways. They
stay representatives, and connected, until it is their turn to be merged: a
merge takes nothing from the others, and the components of one search are
disjoint. This is `Store.Mergeable`, which is handed on from the search over the
groups of a component down to the single merges.

A merge forgets what the two cells had passed on, so afterwards the joined class
owes everything and is the only one that may be missing in the worklist. It is
queued when its group is done.

A search forgets from where it started. It may, because it finds every cycle
that it can get to, and of any two classes on such a cycle at least one is then
merged with others and watched again (`Solver.Touched`), unless the two may not
be merged.
-/

namespace PointsTo

namespace Store

/-- Disjoint groups of representatives, connected within each group. -/
structure Mergeable (σ : Store) (groups : List (List Nat)) : Prop where
  nodup : groups.flatten.Nodup
  roots : ∀ g ∈ groups, ∀ m ∈ g, σ.IsRoot m
  connected : ∀ g ∈ groups, ∀ a ∈ g, ∀ b ∈ g, σ.Connected a b

section Mergeable

variable {σ τ : Store} {rep gone : Nat}

theorem mergeable_iff {groups : List (List Nat)} :
    σ.Mergeable groups ↔ σ.table.Apart groups ∧
      ∀ g ∈ groups, ∀ a ∈ g, ∀ b ∈ g, σ.Connected a b := by
  constructor
  · refine fun h => ⟨⟨h.nodup, fun m hm => ?_⟩, h.connected⟩
    obtain ⟨g, hg, hm⟩ := List.mem_flatten.1 hm
    exact ⟨(h.roots g hg m hm).root_eq, (h.roots g hg m hm).lt⟩
  · rintro ⟨hapart, hconnected⟩
    refine ⟨hapart.nodup, fun g hg m hm => ?_, hconnected⟩
    obtain ⟨hroot, hlt⟩ := hapart.roots m (List.mem_flatten_of_mem hg hm)
    exact ⟨hlt, hroot⟩

theorem Mergeable.tail {g : List Nat} {groups : List (List Nat)} (h : σ.Mergeable (g :: groups)) :
    σ.Mergeable groups :=
  mergeable_iff.2 ⟨(mergeable_iff.1 h).1.tail,
    fun g' hg' => h.connected g' (List.mem_cons_of_mem g hg')⟩

/-- A component may be split into the groups that can be merged. -/
theorem Mergeable.split {members : List Nat} {groups : List (List Nat)}
    (h : σ.Mergeable (members :: groups)) :
    σ.Mergeable (σ.table.mergeableGroups members ++ groups) := by
  refine mergeable_iff.2 ⟨(mergeable_iff.1 h).1.split, fun g hg a ha b hb => ?_⟩
  rcases List.mem_append.1 hg with hg | hg
  · exact h.connected members List.mem_cons_self a
      (NodeTable.mem_of_mem_mergeableGroups hg ha) b
      (NodeTable.mem_of_mem_mergeableGroups hg hb)
  · exact h.connected g (List.mem_cons_of_mem members hg) a ha b hb

/-- The first two members of a group become one of them. -/
theorem Mergeable.moves (hσ : σ.WellFormed) {a b : Nat} {others : List Nat}
    {groups : List (List Nat)} (h : σ.Mergeable ((a :: b :: others) :: groups))
    (hmoves : Moves σ τ rep gone) (hab : rep = a ∧ gone = b ∨ rep = b ∧ gone = a) :
    τ.Mergeable ((rep :: others) :: groups) := by
  have hext := hmoves.extends hσ
  have hsub : ∀ m ∈ rep :: others, m ∈ a :: b :: others := by
    intro m hm
    rcases List.mem_cons.1 hm with rfl | hm
    · rcases hab with ⟨rfl, _⟩ | ⟨rfl, _⟩ <;> simp
    · exact List.mem_cons_of_mem a (List.mem_cons_of_mem b hm)
  refine mergeable_iff.2
    ⟨(mergeable_iff.1 h).1.absorbs hmoves.absorbs hab, fun g hg m hm n hn => ?_⟩
  rcases List.mem_cons.1 hg with rfl | hg
  · exact hext.connected (h.connected _ List.mem_cons_self m (hsub m hm) n (hsub n hn))
  · exact hext.connected (h.connected g (List.mem_cons_of_mem _ hg) m hm n hn)

end Mergeable

end Store

namespace Solver

/-- The class of `m` is one from which the next search starts. -/
def Touched (s : Solver) (m : Nat) : Prop := ∃ n ∈ s.recent, s.store.root n = s.store.root m

/-- Of any two members of the cycle one is in a class that has been merged, or
they may not be merged. -/
def Handled (s : Solver) (members : List Nat) : Prop :=
  ∀ a ∈ members, ∀ b ∈ members, a ≠ b →
    s.Touched a ∨ s.Touched b ∨ s.store.table.Opposed a b

/-- From `s` to `t` the classes of `a` and `b` have become the class of `rep`. -/
structure Joins (s t : Solver) (a b rep : Nat) : Prop extends Remembers s t where
  worklist_eq : t.worklist = s.worklist
  classes_eq : t.store.classes + 1 = s.store.classes
  rep_recent : rep ∈ t.recent
  root_left : t.store.root a = rep
  root_right : t.store.root b = rep

/-- From `s` to `t` there have been `merged` merges, which pay for what has been
queued. -/
structure Collapses (s : Solver) (merged : Nat) (t : Solver) : Prop extends Remembers s t where
  classes_eq : t.store.classes + merged = s.store.classes
  queue_le : t.worklist.queue.length ≤ s.worklist.queue.length + merged

section Collapse

variable {s t u : Solver} {rep gone a b : Nat} {merged merged' : Nat}

theorem Touched.watches (h : s.Touched a) : s.Watches a := by
  obtain ⟨n, hn, hroot⟩ := h
  exact ⟨n, hn, Store.connected_of_root_eq hroot⟩

theorem Remembers.touched (h : s.Remembers t) (ha : s.Touched a) : t.Touched a := by
  obtain ⟨n, hn, hroot⟩ := ha
  exact ⟨n, h.recent n hn, h.extends_store.classes n a hroot⟩

theorem Remembers.handled (h : s.Remembers t) {members : List Nat} (hs : s.Handled members) :
    t.Handled members := by
  intro a ha b hb hne
  refine (hs a ha b hb hne).imp h.touched (Or.imp h.touched fun hopposed => ?_)
  exact hopposed.mono h.extends_store.nodes_eq h.extends_store.classes

theorem Collapses.refl (s : Solver) : s.Collapses 0 s := ⟨.refl s, rfl, Nat.le_refl _⟩

theorem Collapses.trans (h : s.Collapses merged t) (h' : t.Collapses merged' u) :
    s.Collapses (merged + merged') u where
  toRemembers := h.toRemembers.trans h'.toRemembers
  classes_eq := by rw [← h.classes_eq, ← h'.classes_eq, Nat.add_comm merged, Nat.add_assoc]
  queue_le := by
    rw [Nat.add_comm merged, ← Nat.add_assoc, Nat.add_right_comm]
    exact h'.queue_le.trans (Nat.add_le_add_right h.queue_le _)

/-- The joined class owes everything that it holds. -/
theorem Tracks.moves (h : s.Tracks s.store.Passed s.store.Passed fun n => n = rep ∨ n = gone)
    (hruns : s.Runs t) (hmoves : Store.Moves s.store t.store rep gone)
    (hrecent : t.recent = s.recent.add rep) (hworklist : t.worklist = s.worklist) :
    t.Tracks t.store.Passed t.store.Passed fun n => n = rep := by
  have hext := hmoves.extends h.store
  have ht := hmoves.wellFormed h.store
  -- whatever is passed on after the merge is so in a cell that did not change
  have hold : ∀ n o, t.store.Passed n o →
      t.store.cell n = s.store.cell n ∧ s.store.Passed n o := by
    intro n o ho
    rcases hmoves.cell_cases n with ⟨_, hjoined⟩ | ⟨_, hempty⟩ | ⟨_, hsame⟩
    · rw [Store.Passed, hjoined] at ho
      exact absurd ho (NodeSet.not_mem_default o)
    · rw [Store.Passed, hempty] at ho
      exact absurd ho (NodeSet.not_mem_default o)
    · rw [Store.Passed, hsame] at ho
      exact ⟨hsame, ho⟩
  refine
    { store := ht
      worklist := hworklist ▸ h.worklist
      orderly := (h.orderly.markRecent hmoves.absorbs.rep_lt).congr hworklist hrecent hmoves.size_eq
      flow := ⟨fun n m o hm ho => ?_, fun n o r hr ho => ?_, fun n o r hr ho => ?_⟩
      sent_pts := fun n o ho => (ht.proper n).done_subset o ho
      pending := fun n o ho hdone => ?_ }
  · obtain ⟨hsame, ho⟩ := hold n o ho
    exact hext.pts m o (h.flow.edges n m o (hsame ▸ hm) ho)
  · obtain ⟨hsame, ho⟩ := hold n o ho
    rw [hruns.config_eq, NodeTable.route_congr hext.nodes_eq]
    exact hext.linked _ _ (h.flow.loads n o r (hsame ▸ hr) ho)
  · obtain ⟨hsame, ho⟩ := hold n o ho
    rw [hruns.config_eq, NodeTable.route_congr hext.nodes_eq]
    exact hext.linked _ _ (h.flow.stores n o r (hsame ▸ hr) ho)
  · rcases hmoves.cell_cases n with ⟨hrep, _⟩ | ⟨_, hempty⟩ | ⟨⟨hrep, hgone⟩, hsame⟩
    · exact .inr hrep
    · rw [hempty] at ho
      exact absurd ho (NodeSet.not_mem_default o)
    · rw [hsame] at ho hdone
      have hlate : ¬(n = rep ∨ n = gone) := fun hn => hn.elim hrep hgone
      obtain ⟨w, hw, hroot⟩ := (h.pending n o ho hdone).resolve_right hlate
      have hroot' : t.store.root w = if s.store.root w = gone then rep else s.store.root w :=
        hmoves.absorbs.root_eq w
      refine .inl ⟨w, hworklist ▸ hw, ?_⟩
      rw [hroot', hroot, if_neg hgone]

theorem moveCell_moves (hs : s.store.WellFormed) {table : NodeTable}
    (habs : NodeTable.Absorbs s.table table rep gone) :
    Store.Moves s.store (({ s with table }).moveCell rep gone).store rep gone := by
  have hcells : (({ s with table }).moveCell rep gone).store.cells =
      (s.cells.modify rep fun _ => absorb rep gone (s.cell rep) (s.cell gone)).modify gone
        fun _ => {} := rfl
  have hrep : rep < s.cells.size := hs.cells_size ▸ habs.rep_lt
  have hgone : gone < s.cells.size := hs.cells_size ▸ habs.gone_lt
  refine ⟨habs, ?_, fun m => ?_⟩
  · rw [hcells, Array.size_modify, Array.size_modify]
    rfl
  · rw [Store.cell, hcells]
    simp only [Array.getD_eq_getD_getElem?, Array.getElem?_modify]
    by_cases hm : m = gone
    · subst hm
      rw [if_pos rfl, if_neg habs.ne, if_neg (Ne.symm habs.ne), if_pos rfl,
        Array.getElem?_eq_getElem hgone]
      rfl
    · rw [if_neg (Ne.symm hm), if_neg hm]
      by_cases hm' : m = rep
      · subst hm'
        rw [if_pos rfl, if_pos rfl, Array.getElem?_eq_getElem hrep]
        rfl
      · rw [if_neg (Ne.symm hm'), if_neg hm', Store.cell, Array.getD_eq_getD_getElem?]
        rfl

theorem joins_of_moves (hs : s.store.WellFormed) (horderly : s.Orderly) (ha : s.store.IsRoot a)
    (hb : s.store.IsRoot b) (hmoves : Store.Moves s.store t.store rep gone)
    (hab : rep = a ∧ gone = b ∨ rep = b ∧ gone = a) (hrecent : t.recent = s.recent.add rep)
    (hworklist : t.worklist = s.worklist) : s.Joins t a b rep := by
  have hmem : ∀ m, m ∈ t.recent ↔ m = rep ∨ m ∈ s.recent := by
    rw [hrecent]
    exact fun m => NodeSet.mem_add horderly.recent_ascending
  have hrep : rep ∈ t.recent := (hmem rep).2 (.inl rfl)
  have hroot : ∀ m, t.store.root m = if s.store.root m = gone then rep else s.store.root m :=
    hmoves.absorbs.root_eq
  refine
    { toRemembers := .of_moves hs hmoves (fun m hm => (hmem m).2 (.inr hm)) hrep
      worklist_eq := hworklist
      classes_eq := hmoves.classes_eq
      rep_recent := hrep
      root_left := ?_
      root_right := ?_ }
  · rw [hroot, ha.root_eq]
    rcases hab with ⟨rfl, _⟩ | ⟨_, rfl⟩
    · exact ite_self _
    · exact if_pos rfl
  · rw [hroot, hb.root_eq]
    rcases hab with ⟨_, rfl⟩ | ⟨rfl, _⟩
    · exact if_pos rfl
    · exact ite_self _

/-- Of two different representatives one is absorbed by the other, unless the merge is
refused. -/
theorem collapse_moves (hs : s.store.WellFormed) (ha : s.store.IsRoot a) (hb : s.store.IsRoot b)
    (hne : a ≠ b) :
    Action.Ends (collapse a b) s
      (fun rep t => ∃ gone, (rep = a ∧ gone = b ∨ rep = b ∧ gone = a) ∧
        Store.Moves s.store t.store rep gone ∧
        ∃ table, s.table.merge a b = .ok (rep, table) ∧
          t = ({ s with table } : Solver).moveCell rep gone)
      (fun e t => t = s ∧ s.table.merge a b = .error e) := by
  rw [collapse, Action.ends_bind, Action.ends_get]
  split
  next e herror => exact ⟨rfl, herror⟩
  next rep table hmerge =>
    have hroots : s.store.table.root a = a ∧ s.store.table.root b = b := ⟨ha.root_eq, hb.root_eq⟩
    rcases hs.table.merge_cases ha.lt hb.lt hmerge with ⟨heq, _⟩ | ⟨_, gone, habs, hcases⟩
    · rw [hroots.1, hroots.2] at heq
      exact absurd heq hne
    · rw [hroots.1, hroots.2] at hcases
      have hgone : (if rep = a then b else a) = gone := by
        rcases hcases with ⟨rfl, rfl⟩ | ⟨rfl, rfl⟩
        · exact if_pos rfl
        · exact if_neg (Ne.symm hne)
      dsimp only
      rw [hgone, Action.ends_bind, Action.ends_set, Action.ends_pure]
      exact ⟨gone, hcases, moveCell_moves hs habs, table, hmerge, rfl⟩

/-- The accumulated representative `a` of a group and its next member become
one of them, which still has to be queued. -/
theorem collapse_ends {others : List Nat} {groups : List (List Nat)}
    (h : s.Tracks s.store.Passed s.store.Passed fun n => n = a)
    (hm : s.store.Mergeable ((a :: b :: others) :: groups)) :
    Action.Ends (collapse a b) s
      (fun rep t => s.Runs t ∧ (t.Tracks t.store.Passed t.store.Passed fun n => n = rep) ∧
        t.store.Mergeable ((rep :: others) :: groups) ∧ s.Joins t a b rep)
      (fun _ t => s.Runs t) := by
  have hgroup : a :: b :: others ∈ (a :: b :: others) :: groups := List.mem_cons_self
  have hmema : a ∈ a :: b :: others := List.mem_cons_self
  have hmemb : b ∈ a :: b :: others := List.mem_cons_of_mem a List.mem_cons_self
  have ha := hm.roots _ hgroup a hmema
  have hb := hm.roots _ hgroup b hmemb
  have hne : a ≠ b := (Store.mergeable_iff.1 hm).1.ne
  have hab := hm.connected _ hgroup a hmema b hmemb
  have hba := hm.connected _ hgroup b hmemb a hmema
  refine (collapse_moves h.store ha hb hne).imp ?_ ?_
  · rintro rep t ⟨gone, hcases, hmoves, table, hmerge, rfl⟩
    have hruns : s.Runs (({ s with table } : Solver).moveCell rep gone) := by
      refine .of_step (.merge ha.lt hb.lt hmerge hmoves ?_ ?_ rfl) ⟨rfl, rfl, rfl, rfl⟩
      · rcases hcases with ⟨rfl, rfl⟩ | ⟨rfl, rfl⟩
        · exact hab
        · exact hba
      · rcases hcases with ⟨rfl, rfl⟩ | ⟨rfl, rfl⟩
        · exact hba
        · exact hab
    refine ⟨hruns, Tracks.moves ?_ hruns hmoves rfl rfl, hm.moves h.store hmoves hcases, ?_⟩
    · refine { h with pending := fun n o ho hdone => (h.pending n o ho hdone).imp_right ?_ }
      rintro rfl
      exact hcases.imp (fun hc => hc.1.symm) fun hc => hc.2.symm
    · exact joins_of_moves h.store h.orderly ha hb hmoves hcases rfl rfl
  · rintro _ t ⟨rfl, _⟩
    exact .refl t

/-- What holds while a group is merged: the members so far are one class, and it is
watched after the first merge. -/
structure Joining (s : Solver) (g rest : List Nat) (rep : Nat) (t : Solver) : Prop
    extends Remembers s t where
  worklist_eq : t.worklist = s.worklist
  classes_eq : t.store.classes + g.length = s.store.classes + (rest.length + 1)
  joined : ∀ m ∈ g, m ∈ rest ∨ t.store.root m = rep
  rep_recent : rest.length + 1 < g.length → rep ∈ t.recent

theorem Joining.start {first : Nat} {others : List Nat} (hfirst : s.store.root first = first) :
    s.Joining (first :: others) others first s where
  toRemembers := .refl s
  worklist_eq := rfl
  classes_eq := rfl
  joined m hm := by
    rcases List.mem_cons.1 hm with rfl | hm
    · exact .inr hfirst
    · exact .inl hm
  rep_recent h := absurd h (Nat.lt_irrefl _)

theorem Joining.join {g rest : List Nat} (h : s.Joining g (b :: rest) a t)
    (ha : t.store.root a = a) (hj : t.Joins u a b rep) : s.Joining g rest rep u where
  toRemembers := h.toRemembers.trans hj.toRemembers
  worklist_eq := hj.worklist_eq.trans h.worklist_eq
  classes_eq := by
    have hold := h.classes_eq
    have hnew := hj.classes_eq
    rw [List.length_cons] at hold
    omega
  joined m hm := by
    rcases h.joined m hm with hrest | hroot
    · rcases List.mem_cons.1 hrest with rfl | hrest
      · exact .inr hj.root_right
      · exact .inl hrest
    · refine .inr ?_
      rw [hj.extends_store.classes m a (hroot.trans ha.symm), hj.root_left]
  rep_recent _ := hj.rep_recent

/-- A group is merged into one class, which is queued and watched. -/
theorem collapseGroup_ends {g : List Nat} {groups : List (List Nat)} (h : s.Steady)
    (hm : s.store.Mergeable (g :: groups)) (hlen : 1 < g.length) :
    Action.Ends (collapseGroup g) s
      (fun merged t => (s.Runs t ∧ t.Steady ∧ t.store.Mergeable groups) ∧
        s.Collapses merged t ∧ 0 < merged ∧ ∀ m ∈ g, t.Touched m) (fun _ t => s.Runs t) := by
  cases g with
  | nil => exact absurd hlen (Nat.not_lt_zero 1)
  | cons first others =>
      have hlate : s.Tracks s.store.Passed s.store.Passed fun n => n = first :=
        { h with pending := fun n o ho hdone => (h.pending n o ho hdone).imp_right False.elim }
      have hfirst := hm.roots _ List.mem_cons_self first List.mem_cons_self
      refine (Action.ends_foldlM (fun rest rep t => s.Runs t ∧
          (t.Tracks t.store.Passed t.store.Passed fun n => n = rep) ∧
          t.store.Mergeable ((rep :: rest) :: groups) ∧
          s.Joining (first :: others) rest rep t) ?_
        ⟨.refl s, hlate, hm, .start hfirst.root_eq⟩).bind ?_
      · rintro b rest rep t ⟨hruns, ht, hmt, hjoining⟩
        have hrep := hmt.roots _ List.mem_cons_self rep List.mem_cons_self
        refine (collapse_ends ht hmt).imp ?_ fun _ u hu => hruns.trans hu
        exact fun _ u hu =>
          ⟨hruns.trans hu.1, hu.2.1, hu.2.2.1, hjoining.join hrep.root_eq hu.2.2.2⟩
      · rintro rep t ⟨hruns, ht, hmt, hjoining⟩
        have hrep := hmt.roots _ List.mem_cons_self rep List.mem_cons_self
        rw [Action.ends_bind, Action.ends_modify, Action.ends_pure]
        refine ⟨⟨hruns.trans ⟨.refl, rfl, rfl, rfl, rfl⟩, ?_, hmt.tail⟩, ?_,
          Nat.lt_of_succ_lt_succ hlen, fun m hm => ?_⟩
        · refine ⟨ht.store, ht.worklist.push rep,
            (ht.orderly.push ht.worklist hrep.lt).congr rfl rfl rfl, ht.flow, ht.sent_pts,
            fun n o ho hdone => .inl ?_⟩
          refine (queued_push (n := rep) ht.worklist).2 ?_
          rcases ht.pending n o ho hdone with hq | rfl
          · exact .inr hq
          · exact .inl hrep.root_eq
        · refine ⟨hjoining.toRemembers.trans (.of_store_eq rfl fun _ => id),
            Nat.succ.inj hjoining.classes_eq, ?_⟩
          have hpush := Worklist.length_queue_push_le t.worklist rep
          rw [List.length_cons] at hlen
          rw [hjoining.worklist_eq] at hpush
          show (t.worklist.push rep).1.queue.length ≤ _
          rw [hjoining.worklist_eq]
          omega
        · refine ⟨rep, hjoining.rep_recent hlen, ?_⟩
          have hroot := (hjoining.joined m hm).resolve_left List.not_mem_nil
          exact hrep.root_eq.trans hroot.symm

theorem collapseComponent_ends {members : List Nat} {groups : List (List Nat)} (h : s.Steady)
    (hm : s.store.Mergeable (members :: groups)) :
    Action.Ends (collapseComponent members) s
      (fun merged t => (s.Runs t ∧ t.Steady ∧ t.store.Mergeable groups) ∧
        s.Collapses merged t ∧ (merged = 0 → t = s) ∧ t.Handled members)
      (fun _ t => s.Runs t) := by
  rw [collapseComponent, Action.ends_bind, Action.ends_get]
  refine (Action.ends_foldlM (fun rest merged t =>
    (s.Runs t ∧ t.Steady ∧ t.store.Mergeable (rest ++ groups)) ∧
      s.Collapses merged t ∧ (merged = 0 → t = s) ∧
      (∀ g ∈ rest, 1 < g.length) ∧
      ∀ g ∈ s.table.mergeableGroups members, g ∈ rest ∨ ∀ m ∈ g, t.Touched m) ?_
    ⟨⟨.refl s, h, hm.split⟩, .refl s, fun _ => rfl,
      fun _ => NodeTable.one_lt_length_of_mem_mergeableGroups, fun _ hg => .inl hg⟩).imp ?_
    fun _ _ hu => hu
  · rintro g rest merged t ⟨⟨hruns, ht, hmt⟩, hcollapses, _, hlens, htouched⟩
    rw [List.forall_mem_cons] at hlens
    refine Action.Ends.bind ((collapseGroup_ends ht hmt hlens.1).imp_error
      fun _ u hu => hruns.trans hu) ?_
    rintro merged' u ⟨⟨hu, husteady, hmu⟩, hcollapses', hpos, htouched'⟩
    refine ⟨⟨hruns.trans hu, husteady, hmu⟩, hcollapses.trans hcollapses',
      fun hzero => absurd hzero (Nat.ne_of_gt (Nat.add_pos_right _ hpos)), hlens.2,
      fun g' hg' => ?_⟩
    rcases htouched g' hg' with hmem | hall
    · rcases List.mem_cons.1 hmem with rfl | hmem
      · exact .inr htouched'
      · exact .inl hmem
    · exact .inr fun m hm => hcollapses'.touched (hall m hm)
  · rintro merged t ⟨hruns, hcollapses, hsame, _, htouched⟩
    refine ⟨hruns, hcollapses, hsame, fun a ha b hb hne => ?_⟩
    have hext := hcollapses.extends_store
    rcases s.table.mergeableGroups_cover ha hb hne with ⟨g, hg, hab⟩ | ⟨k, hak, hbk⟩
    · have hall := (htouched g hg).resolve_left List.not_mem_nil
      rcases hab with ha | hb
      · exact .inl (hall a ha)
      · exact .inr (.inl (hall b hb))
    · have hopposed : s.store.table.Opposed a b :=
        ⟨k, h.store.table.holdsSpecial_of_special? hak, h.store.table.holdsSpecial_of_special? hbk⟩
      exact .inr (.inr (hopposed.mono hext.nodes_eq hext.classes))

/-! ## Searching -/

theorem mem_successors_copyGraph :
    b ∈ s.copyGraph.successors a ↔ b ≠ a ∧ ∃ m ∈ (s.store.cell a).succs, s.store.root m = b := by
  have hmap : b ∈ s.copyGraph.successors a ↔
      b ∈ (s.store.cell a).succs.elements.map s.store.root ∧ (b != a) = true := List.mem_filter
  rw [hmap, List.mem_map, bne_iff_ne, and_comm]
  rfl

theorem reach_connected (hs : s.store.WellFormed) (h : s.copyGraph.Reach a b) :
    s.store.Connected a b := by
  refine Relation.ReflTransGen.mono (fun a b hab => .inr ?_) _ _ h
  obtain ⟨_, m, hm, rfl⟩ := mem_successors_copyGraph.1 hab
  have ha : s.store.IsRoot a := hs.isRoot_of_mem_succs hm
  exact ⟨m, ha.root_eq.symm ▸ hm, (hs.root_root m).symm⟩

/-- What edges connect, a search gets to. -/
theorem connected_reach (h : s.store.Connected a b) :
    s.copyGraph.Reach (s.store.root a) (s.store.root b) := by
  induction h with
  | refl => exact .refl
  | @tail b c _ hlinked ih =>
      by_cases hne : s.store.root c = s.store.root b
      · rwa [hne]
      · refine ih.tail (mem_successors_copyGraph.2 ⟨hne, ?_⟩)
        exact hlinked.resolve_left fun heq => hne heq.symm

theorem encloses_copyGraph (hs : s.store.WellFormed) :
    s.copyGraph.Encloses (Finset.range s.store.size) where
  successors a b _ hb := by
    obtain ⟨_, m, hm, rfl⟩ := mem_successors_copyGraph.1 hb
    exact Finset.mem_range.2 (hs.table.root_lt ((hs.proper a).succs_lt m hm))
  card_le := Nat.le_of_eq (Finset.card_range _)

theorem mem_searchRoots {n : Nat} :
    n ∈ s.searchRoots ↔ ∃ m ∈ s.recent, s.store.root m = n := by
  have hmem : n ∈ s.searchRoots ↔ n ∈ s.recent.elements.map s.store.root := NodeSet.mem_ofList
  rw [hmem, List.mem_map]
  rfl

/-- A search finds every watched cycle. -/
theorem exists_component_of_watches (h : s.Steady) (ha : s.Watches a)
    (hab : s.store.Connected a b) (hba : s.store.Connected b a)
    (hne : s.store.root a ≠ s.store.root b) :
    ∃ c ∈ (s.copyGraph.components s.searchRoots).members,
      s.store.root a ∈ c ∧ s.store.root b ∈ c := by
  obtain ⟨n, hn, hna⟩ := ha
  refine Digraph.components_complete ((encloses_copyGraph h.store).fathoms fun m hm => ?_)
    (mem_searchRoots.2 ⟨n, hn, rfl⟩) (connected_reach hna) (connected_reach hab)
    (connected_reach hba) hne
  obtain ⟨n', hn', rfl⟩ := mem_searchRoots.1 hm
  exact Finset.mem_range.2 (h.store.table.root_lt (h.orderly.recent_lt n' hn'))

/-- The search may forget from where it started once all that it has found has been
handled. -/
theorem watched_of_handled (h : s.Steady) (hs : s.Watched) (hstore : t.store = s.store)
    (htu : t.Remembers u)
    (hhandled : ∀ c ∈ (s.copyGraph.components s.searchRoots).members, u.Handled c) :
    u.Watched := by
  intro a b hab hba hne
  have hext : s.store.Extends u.store := hstore ▸ htu.extends_store
  have hroot : ∀ x, u.store.root (s.store.root x) = u.store.root x :=
    fun x => hext.classes _ _ (h.store.root_root x)
  rcases htu.cycles a b hab hba with ha | hold
  · exact .inl ha
  rw [hstore] at hold
  have hne' : s.store.root a ≠ s.store.root b := fun heq => hne (hext.classes a b heq)
  rcases hs a b hold.1 hold.2 hne' with ha | hopposed
  · obtain ⟨c, hc, hac, hbc⟩ := exists_component_of_watches h ha hold.1 hold.2 hne'
    rcases hhandled c hc _ hac _ hbc hne' with ha | hb | hopposed
    · obtain ⟨n, hn, hna⟩ := ha.watches
      exact .inl ⟨n, hn, hna.tail (.inl (hroot a))⟩
    · obtain ⟨n, hn, hnb⟩ := hb.watches
      exact .inl ⟨n, hn, (hnb.tail (.inl (hroot b))).trans hba⟩
    · exact .inr (hopposed.congr (hroot a) (hroot b))
  · exact .inr (hopposed.mono hext.nodes_eq hext.classes)

theorem components_mergeable (hs : s.store.WellFormed) (roots : List Nat) :
    s.store.Mergeable (s.copyGraph.components roots).members := by
  obtain ⟨hnodup, hcomponents⟩ := s.copyGraph.components_connected roots
  refine ⟨hnodup, fun c hc a ha => ?_, fun c hc a ha b hb => ?_⟩
  · -- only cells of representatives have edges
    obtain ⟨b, hb⟩ := Digraph.exists_successor_of_mem_components hc ha
    obtain ⟨_, m, hm, _⟩ := mem_successors_copyGraph.1 hb
    exact hs.isRoot_of_mem_succs hm
  · exact reach_connected hs ((hcomponents c hc).2 a ha b hb)

/-- From `s` to `t` there has been a search for cycles with `merged` merges. -/
structure Searches (s : Solver) (merged : Nat) (t : Solver) : Prop where
  extends_store : s.store.Extends t.store
  classes_eq : t.store.classes + merged = s.store.classes
  queue_le : t.worklist.queue.length ≤ s.worklist.queue.length + merged
  watched : s.Watched → t.Watched
  /-- Without merges the search has left everything as it was. -/
  unchanged : merged = 0 → t.store = s.store ∧ t.worklist = s.worklist ∧ t.recent = {}

/-- A search with merges is progress. -/
theorem Searches.nears (h : s.Searches merged t) (hpos : 0 < merged) : s.Nears t := by
  have hclasses := h.classes_eq
  have hqueue := h.queue_le
  have hmissing := h.extends_store.missing_le
  refine .of_classes_lt (by omega) ?_
  rw [work, work]
  omega

/-- A search is progress or leaves everything to do as it was. -/
theorem Searches.nears_or_eq (h : s.Searches merged t) :
    s.Nears t ∨ t.store = s.store ∧ t.worklist = s.worklist := by
  rcases Nat.eq_zero_or_pos merged with hzero | hpos
  · exact .inr ⟨(h.unchanged hzero).1, (h.unchanged hzero).2.1⟩
  · exact .inl (h.nears hpos)

/-- The components of a search are collapsed one after the other. -/
theorem collapseAll_ends {components : List (List Nat)} (h : s.Steady)
    (hm : s.store.Mergeable components) :
    Action.Ends (components.foldlM
        (fun merged members => do return merged + (← collapseComponent members)) 0) s
      (fun merged t => (s.Runs t ∧ t.Steady) ∧ s.Collapses merged t ∧ (merged = 0 → t = s) ∧
        ∀ c ∈ components, t.Handled c) (fun _ t => s.Runs t) := by
  refine (Action.ends_foldlM (fun rest merged t =>
      (s.Runs t ∧ t.Steady ∧ t.store.Mergeable rest) ∧ s.Collapses merged t ∧
        (merged = 0 → t = s) ∧ ∀ c ∈ components, c ∈ rest ∨ t.Handled c) ?_
    ⟨⟨.refl s, h, hm⟩, .refl s, fun _ => rfl, fun _ => .inl⟩).imp_ok ?_
  · rintro members rest merged t ⟨⟨hruns, ht, hmt⟩, hcollapses, hsame, hhandled⟩
    refine Action.Ends.bind ((collapseComponent_ends ht hmt).imp_error
      fun _ u hu => hruns.trans hu) ?_
    rintro merged' u ⟨⟨hu, husteady, hmu⟩, hcollapses', hsame', hhandled'⟩
    refine ⟨⟨hruns.trans hu, husteady, hmu⟩, hcollapses.trans hcollapses', fun hzero => ?_,
      fun c hc => ?_⟩
    · obtain ⟨hzero, hzero'⟩ := Nat.add_eq_zero_iff.1 hzero
      rw [hsame' hzero', hsame hzero]
    · rcases hhandled c hc with hmem | hold
      · rcases List.mem_cons.1 hmem with rfl | hmem
        · exact .inr hhandled'
        · exact .inl hmem
      · exact .inr (hcollapses'.handled hold)
  · rintro merged t ⟨⟨hruns, ht, _⟩, hcollapses, hunchanged, hhandled⟩
    exact ⟨⟨hruns, ht⟩, hcollapses, hunchanged,
      fun c hc => (hhandled c hc).resolve_left List.not_mem_nil⟩

theorem detectCycles_ends (h : s.Steady) :
    Action.Ends detectCycles s (fun merged t => s.Runs t ∧ t.Steady ∧ s.Searches merged t)
      (fun _ t => s.Runs t) := by
  rw [detectCycles, Action.ends_bind, Action.ends_modify, Action.ends_bind, Action.ends_get]
  dsimp only
  rw [Action.ends_bind, Action.ends_modify]
  have hforget : ∀ s' : Solver, s.Runs s' → s'.Steady → s'.store = s.store →
      s'.worklist = s.worklist → s'.recent = {} →
      Action.Ends (do
          let merged ← (s.copyGraph.components s.searchRoots).members.foldlM
            (fun merged members => do return merged + (← collapseComponent members)) 0
          modify fun s => { s with stats.nodesCollapsed := s.stats.nodesCollapsed + merged }
          return merged) s'
        (fun merged t => s.Runs t ∧ t.Steady ∧ s.Searches merged t) (fun _ t => s.Runs t) := by
    intro s' hruns' hs' hstore hworklist hrecent
    have hmergeable : s'.store.Mergeable (s.copyGraph.components s.searchRoots).members :=
      hstore ▸ components_mergeable h.store _
    refine Action.Ends.bind ((collapseAll_ends hs' hmergeable).imp_error
      fun _ t ht => hruns'.trans ht) ?_
    rintro merged t ⟨⟨hruns, ht⟩, hcollapses, hunchanged, hhandled⟩
    rw [Action.ends_bind, Action.ends_modify, Action.ends_pure]
    refine ⟨(hruns'.trans hruns).trans ⟨.refl, rfl, rfl, rfl, rfl⟩,
      ht.congr rfl rfl rfl (ht.orderly.congr rfl rfl rfl), ?_⟩
    have hcount : ∀ t' : Solver, t'.store = t.store → t'.recent = t.recent → t.Remembers t' :=
      fun t' hstore hrecent => .of_store_eq hstore fun _ hn => hrecent ▸ hn
    refine
      { extends_store := hstore ▸ hcollapses.extends_store
        classes_eq := hstore ▸ hcollapses.classes_eq
        queue_le := hworklist ▸ hcollapses.queue_le
        watched := fun hs => watched_of_handled h hs hstore
          (hcollapses.toRemembers.trans (hcount _ rfl rfl)) fun c hc =>
            (hcount _ rfl rfl).handled (hhandled c hc)
        unchanged := fun hzero => ?_ }
    obtain rfl := hunchanged hzero
    exact ⟨hstore, hworklist, hrecent⟩
  refine hforget _ ⟨.refl, rfl, rfl, rfl, rfl⟩ (h.congr rfl rfl rfl ?_) rfl rfl rfl
  exact ⟨h.orderly.queue_lt, NodeSet.ascending_empty,
    fun n hn => absurd hn (NodeSet.not_mem_default n)⟩

end Collapse

end Solver

end PointsTo
