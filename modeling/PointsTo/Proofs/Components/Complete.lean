import PointsTo.Proofs.Components
import Mathlib.Data.Finset.Card

/-!
# Every cycle is found

Two vertices that lie on a common cycle are put into one component, if the
search reaches them and may go as deep as it has to. What carries the argument
is that a vertex is settled only together with everything it leads to
(`Search.Complete`). A visit that is over has followed all successors of the
vertices that it leaves pending, and `low` is a bound for the pending ones among
them (`Search.Covers`). So if `low` is the number of the visited vertex, nothing
below it on the stack can be reached from what lies above it, and what comes off
the stack is closed under successors once more.

How deep a search goes is counted by the vertices that it has marked within a
set that it cannot leave (`Encloses`). There may be one such set for each root
(`Fathoms`).
-/

namespace PointsTo

namespace Digraph

/-- No edge leaves the set, and the graph has room for it. -/
structure Encloses (g : Digraph) (within : Finset Nat) : Prop where
  successors (a b : Nat) : a ∈ within → b ∈ g.successors a → b ∈ within
  card_le : within.card ≤ g.order

/-- From each of the roots the search may go as deep as it has to. -/
def Fathoms (g : Digraph) (roots : List Nat) : Prop :=
  ∀ v ∈ roots, ∃ within, g.Encloses within ∧ v ∈ within

theorem Encloses.fathoms {g : Digraph} {within : Finset Nat} (h : g.Encloses within)
    {roots : List Nat} (hroots : ∀ v ∈ roots, v ∈ within) : g.Fathoms roots :=
  fun v hv => ⟨within, h, hroots v hv⟩

namespace Search

/-- How many vertices of a set are marked. -/
def marked (s : Search) (within : Finset Nat) : Nat :=
  (within.filter fun v => (s.mark? v).isSome).card

/-- Every vertex of the list is marked, with a number of at least `low` if it is
pending. -/
def Covers (s : Search) (low : Nat) (vertices : List Nat) : Prop :=
  ∀ w ∈ vertices, ∃ m, s.mark? w = some m ∧ ∀ k, m = .pending k → low ≤ k

/-- What is settled leads to settled vertices only, and lies in one found
component with all vertices on a common cycle. -/
structure Complete (g : Digraph) (s : Search) : Prop where
  closed (v w : Nat) : s.mark? v = some .settled → w ∈ g.successors v →
    s.mark? w = some .settled
  found (v w : Nat) : s.mark? v = some .settled → g.Reach v w → g.Reach w v → v ≠ w →
    ∃ c ∈ s.found, v ∈ c ∧ w ∈ c

section Marked

variable {s s' : Search} {within : Finset Nat} {v : Nat}

theorem marked_le (hmark : ∀ w m, s.mark? w = some m → s'.mark? w = some m) :
    s.marked within ≤ s'.marked within := by
  refine Finset.card_le_card fun w hw => ?_
  rw [Finset.mem_filter] at hw ⊢
  obtain ⟨m, hm⟩ := Option.isSome_iff_exists.1 hw.2
  exact ⟨hw.1, Option.isSome_iff_exists.2 ⟨m, hmark w m hm⟩⟩

theorem marked_lt_card (hv : v ∈ within) (hmark : s.mark? v = none) :
    s.marked within < within.card := by
  refine Finset.card_lt_card (Finset.filter_ssubset.2 ⟨v, hv, ?_⟩)
  simp [hmark]

theorem marked_enter (hv : v ∈ within) (hmark : s.mark? v = none) (out : List Nat) :
    s.marked within < (s.enter v out).marked within := by
  refine Finset.card_lt_card ?_
  rw [Finset.ssubset_iff_of_subset fun w hw => ?_]
  · refine ⟨v, ?_, ?_⟩
    · rw [Finset.mem_filter, mark?_enter, if_pos rfl]
      exact ⟨hv, rfl⟩
    · simp [hmark]
  · rw [Finset.mem_filter] at hw ⊢
    rw [mark?_enter]
    split
    next => exact ⟨hw.1, rfl⟩
    next => exact hw

end Marked

section Complete

variable {g : Digraph} {s s' : Search} {v w low low' : Nat} {vertices : List Nat}

theorem Covers.mono (h : s.Covers low vertices) (hlow : low' ≤ low)
    (hmark : ∀ w m, s.mark? w = some m → s'.mark? w = some m) : s'.Covers low' vertices := by
  intro w hw
  obtain ⟨m, hm, hle⟩ := h w hw
  exact ⟨m, hmark w m hm, fun k hk => Nat.le_trans hlow (hle k hk)⟩

theorem complete_empty (g : Digraph) : Complete g {} where
  closed v _ h := by simp at h
  found v _ h := by simp at h

theorem Complete.reach (h : s.Complete g) (hv : s.mark? v = some .settled) (hvw : g.Reach v w) :
    s.mark? w = some .settled := by
  induction hvw with
  | refl => exact hv
  | tail _ hstep ih => exact h.closed _ _ ih hstep

theorem Complete.enter (h : s.Complete g) (hv : s.mark? v = none) (out : List Nat) :
    (s.enter v out).Complete g := by
  have hsettled : ∀ u, (s.enter v out).mark? u = some .settled ↔ s.mark? u = some .settled := by
    intro u
    rw [mark?_enter]
    split
    next hu => simp [hu, hv]
    next => rfl
  exact
    { closed := fun u w hu hw => (hsettled w).2 (h.closed u w ((hsettled u).1 hu) hw)
      found := fun u w hu => h.found u w ((hsettled u).1 hu) }

/-- The vertices down to `v` may come off the stack if none of them leads further
down. -/
theorem Complete.settle (h : s.Complete g) (hs : s.Proper g) {new rest : List Nat}
    (hstack : s.stack = new ++ v :: rest)
    (hcovers : ∀ u ∈ new ++ [v], s.Covers low (g.successors u))
    (hlow : ∀ u k, s.mark? u = some (.pending k) → low ≤ k → u ∈ new ++ [v]) :
    (s.settle v).Complete g := by
  have hmark := mark?_settle hstack hs.stack_nodup
  have hkeep : ∀ u, s.mark? u = some .settled → (s.settle v).mark? u = some .settled := by
    intro u hu
    rw [hmark, hu, ite_self]
  have hclosed : ∀ u w, (s.settle v).mark? u = some .settled → w ∈ g.successors u →
      (s.settle v).mark? w = some .settled := by
    intro u w hu hw
    rw [hmark] at hu
    split at hu
    next hmem =>
      obtain ⟨m, hm, hle⟩ := hcovers u hmem w hw
      cases m with
      | settled => exact hkeep w hm
      | pending k => rw [hmark, if_pos (hlow w k hm (hle k rfl))]
    next => exact hkeep w (h.closed u w hu hw)
  refine ⟨hclosed, fun u w hu huw hwu hne => ?_⟩
  have hfound := found_settle hstack hs.stack_nodup
  by_cases hold : s.mark? u = some .settled
  · obtain ⟨c, hc, hmem⟩ := h.found u w hold huw hwu hne
    refine ⟨c, ?_, hmem⟩
    rw [hfound]
    split
    next => exact List.mem_cons_of_mem _ hc
    next => exact hc
  · -- neither of the two was settled before, so both come off now
    have hmem : ∀ x, (s.settle v).mark? x = some .settled → s.mark? x ≠ some .settled →
        x ∈ new ++ [v] := by
      intro x hx hnot
      rw [hmark] at hx
      split at hx
      next hmem => exact hmem
      next => exact absurd hx hnot
    have hw : (s.settle v).mark? w = some .settled := by
      refine Relation.ReflTransGen.head_induction_on huw
        (motive := fun x _ => (s.settle v).mark? x = some .settled → _) id
        (fun hstep _ ih hx => ih (hclosed _ _ hx hstep)) hu
    have hu' := hmem u hu hold
    have hw' := hmem w hw fun hw => hold (h.reach hw hwu)
    have hlen : 1 < (new ++ [v]).length := by
      by_contra hle
      have hnew : new = [] := List.length_eq_zero_iff.1 (by simpa using hle)
      subst hnew
      exact hne ((List.mem_singleton.1 hu').trans (List.mem_singleton.1 hw').symm)
    rw [hfound, if_pos hlen]
    exact ⟨_, List.mem_cons_self, NodeSet.mem_ofList.2 hu', NodeSet.mem_ofList.2 hw'⟩

end Complete

/-- A visit of `v` that did not run out of depth: all successors of the vertices
that it leaves pending are marked, and `low` is a bound for their numbers. -/
structure Exhausted (g : Digraph) (s : Search) (v low : Nat) (s' : Search) : Prop where
  complete : s'.Complete g
  covers_self : s'.Covers low [v]
  covers (u k : Nat) : s.mark? u = none → s'.mark? u = some (.pending k) →
    s'.Covers low (g.successors u)

/-- The same in the middle of a visit, when the successors in `out` have been
followed. -/
structure Scanning (g : Digraph) (s : Search) (v : Nat) (out : List Nat) (low : Nat)
    (s' : Search) : Prop extends Following g s v low s' where
  complete : s'.Complete g
  covers_out : s'.Covers low out
  covers (u k : Nat) : s.mark? u = none → u ≠ v → s'.mark? u = some (.pending k) →
    s'.Covers low (g.successors u)

section Visit

variable {g : Digraph} {s s' : Search} {v w low : Nat} {out : List Nat}

theorem Scanning.enter (hs : s.Proper g) (hc : s.Complete g) (hv : s.mark? v = none)
    (successors : List Nat) : Scanning g s v [] s.entered (s.enter v successors) where
  toFollowing := .enter hs hv successors
  complete := hc.enter hv successors
  covers_out := fun _ hw => absurd hw List.not_mem_nil
  covers u k hu hne hk := by
    rw [mark?_enter, if_neg hne, hu] at hk
    cases hk

/-- Following one more successor. -/
theorem Scanning.follow (h : Scanning g s v out low s') (hs : s.Proper g)
    (hw : w ∈ g.successors v) {descend : Nat → Search → Nat × Search}
    (hvisited : ∀ w s, s.Proper g → s.mark? w = none →
      Visited g s w (descend w s).1 (descend w s).2)
    (hexhausted : s'.mark? w = none →
      Exhausted g s' w (descend w s').1 (descend w s').2) :
    Scanning g s v (out ++ [w]) (s'.follow descend low w).1 (s'.follow descend low w).2 := by
  have hfollowing := h.toFollowing.follow hs hw hvisited
  cases hmark : s'.mark? w with
  | none =>
      have hsub := hexhausted hmark
      have hkeep := (hvisited w s' h.proper hmark).mark?_eq
      have hfollow : s'.follow descend low w =
          (min low (descend w s').1, (descend w s').2) := by rw [Search.follow, hmark]
      rw [hfollow] at hfollowing ⊢
      refine ⟨hfollowing, hsub.complete, fun x hx => ?_, fun u k hu hne hk => ?_⟩
      · rcases List.mem_append.1 hx with hx | hx
        · exact h.covers_out.mono (Nat.min_le_left _ _) hkeep x hx
        · exact hsub.covers_self.mono (Nat.min_le_right _ _) (fun _ _ => id) x hx
      · cases hold : s'.mark? u with
        | none => exact (hsub.covers u k hold hk).mono (Nat.min_le_right _ _) fun _ _ => id
        | some m =>
            have heq : m = .pending k := Option.some.inj ((hkeep u m hold).symm.trans hk)
            exact (h.covers u k hu hne (heq ▸ hold)).mono (Nat.min_le_left _ _) hkeep
  | some m =>
      have hsame : ∀ low' ≤ low, (∀ k, m = .pending k → low' ≤ k) →
          Following g s v low' s' → Scanning g s v (out ++ [w]) low' s' := by
        intro low' hle hm hfollowing
        refine ⟨hfollowing, h.complete, fun x hx => ?_, fun u k hu hne hk => ?_⟩
        · rcases List.mem_append.1 hx with hx | hx
          · exact h.covers_out.mono hle (fun _ _ => id) x hx
          · rw [List.mem_singleton.1 hx]
            exact ⟨m, hmark, hm⟩
        · exact (h.covers u k hu hne hk).mono hle fun _ _ => id
      cases m with
      | settled =>
          have hfollow : s'.follow descend low w = (low, s') := by rw [Search.follow, hmark]
          rw [hfollow] at hfollowing ⊢
          exact hsame low (Nat.le_refl _) (fun k hk => Mark.noConfusion hk) hfollowing
      | pending number =>
          have hfollow : s'.follow descend low w = (min low number, s') := by
            rw [Search.follow, hmark]
          rw [hfollow] at hfollowing ⊢
          refine hsame _ (Nat.min_le_left _ _) (fun k hk => ?_) hfollowing
          rw [← Mark.pending.inj hk]
          exact Nat.min_le_right _ _

theorem Scanning.foldl (hs : s.Proper g) {descend : Nat → Search → Nat × Search}
    (hvisited : ∀ w s, s.Proper g → s.mark? w = none →
      Visited g s w (descend w s).1 (descend w s).2)
    (hexhausted : ∀ w ∈ g.successors v, ∀ low s', Following g s v low s' → s'.Complete g →
      s'.mark? w = none → Exhausted g s' w (descend w s').1 (descend w s').2)
    {rest : List Nat} (hrest : ∀ w ∈ rest, w ∈ g.successors v) (h : Scanning g s v out low s') :
    Scanning g s v (out ++ rest)
      (rest.foldl (fun (low, s) w => s.follow descend low w) (low, s')).1
      (rest.foldl (fun (low, s) w => s.follow descend low w) (low, s')).2 := by
  induction rest generalizing out low s' with
  | nil =>
      rw [List.append_nil]
      exact h
  | cons w rest ih =>
      rw [List.forall_mem_cons] at hrest
      have hnext := h.follow hs hrest.1 hvisited
        (hexhausted w hrest.1 low s' h.toFollowing h.complete)
      rw [List.append_cons]
      exact ih hrest.2 hnext

/-- The end of a visit that met nothing below `v`. -/
theorem Scanning.settle (h : Scanning g s v (g.successors v) s.entered s') (hs : s.Proper g)
    (hv : s.mark? v = none) : Exhausted g s v s.entered (s'.settle v) := by
  obtain ⟨new, hstack, _⟩ := h.stack
  have hnodup := h.proper.stack_nodup
  have hmark := mark?_settle hstack hnodup
  have hcovers : ∀ u ∈ new ++ [v], s'.Covers s.entered (g.successors u) := by
    intro u hu
    rcases List.mem_append.1 hu with hu | hu
    · obtain ⟨k, hk⟩ := (h.proper.mem_stack_iff u).1 (hstack ▸ List.mem_append_left _ hu)
      refine h.covers u k (h.toFollowing.mark?_eq_none_of_mem hs hstack hu) (fun heq => ?_) hk
      rw [hstack] at hnodup
      exact (List.nodup_append.1 hnodup).2.2 u hu v List.mem_cons_self heq
    · rw [List.mem_singleton.1 hu]
      exact h.covers_out
  have hlow : ∀ u k, s'.mark? u = some (.pending k) → s.entered ≤ k → u ∈ new ++ [v] := by
    intro u k hu hle
    have hmem : u ∈ s'.stack := (h.proper.mem_stack_iff u).2 ⟨k, hu⟩
    rw [hstack, List.mem_append, List.mem_cons] at hmem
    rcases hmem with hmem | rfl | hmem
    · exact List.mem_append_left _ hmem
    · exact List.mem_append_right _ List.mem_cons_self
    · obtain ⟨j, hj⟩ := (hs.mem_stack_iff u).1 hmem
      have heq := (h.mark?_eq u _ hj).symm.trans hu
      cases heq
      exact absurd (hs.lt_entered u k hj) (Nat.not_lt.2 hle)
  refine ⟨h.complete.settle h.proper hstack hcovers hlow, fun w hw => ?_, fun u k hu hk => ?_⟩
  · refine ⟨.settled, ?_, fun k hk => Mark.noConfusion hk⟩
    rw [List.mem_singleton.1 hw, hmark, if_pos (List.mem_append_right _ List.mem_cons_self)]
  · -- nothing that the visit entered is left pending
    rw [hmark] at hk
    split at hk
    next => cases hk
    next hnot => exact absurd (hlow u k hk (h.toFollowing.le_of_mark?_eq_none hs hu hk)) hnot

/-- The end of a visit that met a pending vertex below `v`. -/
theorem Scanning.exhausted (h : Scanning g s v (g.successors v) low s') :
    Exhausted g s v low s' where
  complete := h.complete
  covers_self w hw := by
    refine ⟨.pending s.entered, ?_, fun k hk => ?_⟩
    · rw [List.mem_singleton.1 hw]
      exact h.mark?_self
    · rw [← Mark.pending.inj hk]
      exact h.meets.le
  covers u k hu hk := by
    by_cases hne : u = v
    · rw [hne]
      exact h.covers_out
    · exact h.covers u k hu hne hk

end Visit

end Search

open Search in
theorem visit_exhausts {g : Digraph} {within : Finset Nat} (hg : g.Encloses within)
    (depth v : Nat) (s : Search) (hs : s.Proper g) (hc : s.Complete g) (hmem : v ∈ within)
    (hv : s.mark? v = none) (hdepth : within.card ≤ depth + s.marked within) :
    Exhausted g s v (g.visit depth v s).1 (g.visit depth v s).2 := by
  induction depth generalizing v s with
  | zero => exact absurd (marked_lt_card hmem hv) (by omega)
  | succ depth ih =>
      have hscan := Scanning.foldl hs (fun w s hs hw => g.visit_visited depth w s hs hw)
        (fun w hw low s' hfollowing hc' hw' => by
          refine ih w s' hfollowing.proper hc' (hg.successors v w hmem hw) hw' ?_
          have henter := marked_enter hmem hv (g.successors v)
          have hmore : (s.enter v (g.successors v)).marked within ≤ s'.marked within :=
            marked_le (hfollowing.mark?_of_enter _)
          omega)
        (fun _ => id) (Scanning.enter hs hc hv (g.successors v))
      rw [List.nil_append] at hscan
      rw [visit]
      dsimp only
      split
      next hlow =>
        rw [hlow] at hscan ⊢
        exact hscan.settle hs hv
      next => exact hscan.exhausted

section Search

variable {g : Digraph} {within : Finset Nat} {roots : List Nat} {s : Search} {v : Nat}

/-- A visit that starts on an empty stack leaves an empty stack. -/
theorem stack_visit_eq_nil (hs : s.Proper g) (hstack : s.stack = []) (hv : s.mark? v = none) :
    (g.visit g.order v s).2.stack = [] := by
  have hvisited := g.visit_visited g.order v s hs hv
  obtain ⟨new, heq, hnew, _⟩ := hvisited.stack
  have hlow : (g.visit g.order v s).1 = s.entered := by
    refine hvisited.meets.resolve_right ?_
    rintro ⟨_, w, hw, _⟩
    exact List.not_mem_nil (hstack ▸ (hs.mem_stack_iff w).2 ⟨_, hw⟩)
  rw [heq, hnew hlow, hstack, List.append_nil]

/-- Between two roots nothing is pending. -/
structure Search.Between (g : Digraph) (s : Search) : Prop where
  proper : s.Proper g
  complete : s.Complete g
  stack : s.stack = []

theorem Search.Between.settled {w : Nat} {m : Mark} (h : s.Between g)
    (hm : s.mark? w = some m) : m = .settled := by
  cases m with
  | settled => rfl
  | pending k => exact absurd ((h.proper.mem_stack_iff w).2 ⟨k, hm⟩) (by simp [h.stack])

theorem Search.Between.visitRoot (hg : g.Encloses within) (hv : v ∈ within) (h : s.Between g) :
    (g.visitRoot s v).Between g ∧ (g.visitRoot s v).mark? v = some .settled ∧
      ∀ w m, s.mark? w = some m → (g.visitRoot s v).mark? w = some m := by
  rw [Digraph.visitRoot]
  split
  next m hm => exact ⟨h, h.settled hm ▸ hm, fun _ _ => id⟩
  next hm =>
    have hvisited := g.visit_visited g.order v s h.proper hm
    have hexhausted := visit_exhausts hg g.order v s h.proper h.complete hv hm
      (Nat.le_trans hg.card_le (Nat.le_add_right _ _))
    have hbetween : (g.visit g.order v s).2.Between g :=
      ⟨hvisited.proper, hexhausted.complete, stack_visit_eq_nil h.proper h.stack hm⟩
    obtain ⟨m, hm', _⟩ := hexhausted.covers_self v List.mem_cons_self
    exact ⟨hbetween, hbetween.settled hm' ▸ hm', hvisited.mark?_eq⟩

theorem search_settles (hg : g.Fathoms roots) :
    (g.search roots).Between g ∧ ∀ v ∈ roots, (g.search roots).mark? v = some .settled := by
  have hfold : ∀ s : Search, s.Between g → (roots.foldl g.visitRoot s).Between g ∧
      (∀ v ∈ roots, (roots.foldl g.visitRoot s).mark? v = some .settled) ∧
      ∀ w m, s.mark? w = some m → (roots.foldl g.visitRoot s).mark? w = some m := by
    induction roots with
    | nil => exact fun s h => ⟨h, by simp, fun _ _ => id⟩
    | cons v roots ih =>
        intro s h
        obtain ⟨⟨within, hwithin, hmem⟩, hrest⟩ := List.forall_mem_cons.1 hg
        obtain ⟨hbetween, hv, hkeep⟩ := h.visitRoot hwithin hmem
        obtain ⟨hbetween', hsettled, hkeep'⟩ := ih hrest _ hbetween
        exact ⟨hbetween', List.forall_mem_cons.2 ⟨hkeep' v _ hv, hsettled⟩,
          fun w m hw => hkeep' w m (hkeep w m hw)⟩
  obtain ⟨hbetween, hsettled, _⟩ :=
    hfold {} ⟨Search.proper_empty g, Search.complete_empty g, rfl⟩
  exact ⟨hbetween, hsettled⟩

/-- Two vertices on a cycle that the roots lead to are in one component. -/
theorem components_complete (hg : g.Fathoms roots) {a b : Nat} (hv : v ∈ roots)
    (hva : g.Reach v a) (hab : g.Reach a b) (hba : g.Reach b a) (hne : a ≠ b) :
    ∃ c ∈ (g.components roots).members, a ∈ c ∧ b ∈ c := by
  obtain ⟨hbetween, hsettled⟩ := g.search_settles hg
  have hperm : (g.components roots).members.Perm (g.search roots).found := sortBy_perm _ _
  obtain ⟨c, hc, hmem⟩ := hbetween.complete.found a b
    (hbetween.complete.reach (hsettled v hv) hva) hab hba hne
  exact ⟨c, hperm.mem_iff.2 hc, hmem⟩

end Search

end Digraph

end PointsTo
