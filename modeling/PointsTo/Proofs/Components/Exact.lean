import PointsTo.Proofs.Components.Complete
import Mathlib.Algebra.BigOperators.Group.Finset.Basic
import Mathlib.Data.Finset.Dedup

/-!
# What a search answers

A search enters exactly the vertices that its roots lead to, and each of them
once, when it counts the edges that leave it. Together with what is known of the
components, that each is connected and that every cycle is in one, this settles
the answer of a search: it lists the strongly connected components of two or more
vertices, and nothing about it depends on the order in which roots and successors
are given, or on how far the search would have been allowed to go.
-/

namespace PointsTo

namespace Digraph

namespace Search

/-- The vertices that have been entered. -/
def vertices (s : Search) : Finset Nat := s.marks.keys.toFinset

section Vertices

variable {g : Digraph} {s : Search} {v w : Nat}

theorem mem_vertices : v ∈ s.vertices ↔ (s.mark? v).isSome = true := by
  rw [vertices, List.mem_toFinset, Std.TreeMap.mem_keys, mark?,
    Std.TreeMap.isSome_getElem?_iff_mem]

theorem card_vertices (s : Search) : s.vertices.card = s.entered := by
  rw [vertices, List.toFinset_card_of_nodup Std.TreeMap.nodup_keys, Std.TreeMap.length_keys]
  rfl

theorem vertices_enter (s : Search) (v : Nat) (out : List Nat) :
    (s.enter v out).vertices = insert v s.vertices := by
  ext w
  rw [Finset.mem_insert, mem_vertices, mem_vertices, mark?_enter]
  by_cases hw : w = v <;> simp [hw]

/-- What comes off the stack has been entered before. -/
theorem Proper.vertices_settle {new rest : List Nat} (hs : s.Proper g)
    (hstack : s.stack = new ++ v :: rest) : (s.settle v).vertices = s.vertices := by
  ext w
  rw [mem_vertices, mem_vertices, mark?_settle hstack hs.stack_nodup]
  split
  next hw =>
    have hmem : w ∈ s.stack := by
      rw [hstack, List.append_cons]
      exact List.mem_append_left rest hw
    obtain ⟨k, hk⟩ := (hs.mem_stack_iff w).1 hmem
    simp [hk]
  next => rfl

end Vertices

/-- Only vertices of a kind have been entered, each edge that leaves one of them has
been counted, and what has been found is ascending. -/
structure Accounts (g : Digraph) (Kind : Nat → Prop) (s : Search) : Prop where
  kind (v : Nat) : v ∈ s.vertices → Kind v
  edges_eq : s.edges = ∑ v ∈ s.vertices, (g.successors v).length
  ascending (c : List Nat) : c ∈ s.found → c.Pairwise (· < ·)

section Accounts

variable {g : Digraph} {Kind : Nat → Prop} {s s' : Search} {v low : Nat}

theorem accounts_empty (g : Digraph) (Kind : Nat → Prop) : Accounts g Kind {} where
  kind v h := by simp [mem_vertices] at h
  edges_eq := by
    have hnone : ({} : Search).vertices = ∅ := by
      ext v
      simp [mem_vertices]
    rw [hnone]
    rfl
  ascending c h := absurd h List.not_mem_nil

theorem Accounts.enter (h : s.Accounts g Kind) (hv : s.mark? v = none) (hkind : Kind v) :
    (s.enter v (g.successors v)).Accounts g Kind where
  kind w hw := by
    rw [vertices_enter, Finset.mem_insert] at hw
    rcases hw with rfl | hw
    · exact hkind
    · exact h.kind w hw
  edges_eq := by
    have hnew : v ∉ s.vertices := by simp [mem_vertices, hv]
    have hedges : (s.enter v (g.successors v)).edges = s.edges + (g.successors v).length := rfl
    rw [hedges, vertices_enter, Finset.sum_insert hnew, h.edges_eq, Nat.add_comm]
  ascending := h.ascending

theorem Accounts.settle (h : s.Accounts g Kind) (hs : s.Proper g) {new rest : List Nat}
    (hstack : s.stack = new ++ v :: rest) : (s.settle v).Accounts g Kind where
  kind w hw := h.kind w (hs.vertices_settle hstack ▸ hw)
  edges_eq := by
    rw [hs.vertices_settle hstack]
    exact h.edges_eq
  ascending c hc := by
    rw [found_settle hstack hs.stack_nodup] at hc
    split at hc
    next =>
      rcases List.mem_cons.1 hc with rfl | hc
      · exact NodeSet.ascending_ofList _
      · exact h.ascending c hc
    next => exact h.ascending c hc

/-- The accounts in the middle of a visit. -/
theorem Accounts.foldl (hs : s.Proper g) {descend : Nat → Search → Nat × Search}
    (hvisited : ∀ w s, s.Proper g → s.mark? w = none →
      Visited g s w (descend w s).1 (descend w s).2)
    (haccounts : ∀ w ∈ g.successors v, ∀ s, s.Proper g → s.mark? w = none → s.Accounts g Kind →
      (descend w s).2.Accounts g Kind)
    {out : List Nat} (hout : ∀ w ∈ out, w ∈ g.successors v) (h : Following g s v low s')
    (hs' : s'.Accounts g Kind) :
    (out.foldl (fun (low, s) w => s.follow descend low w) (low, s')).2.Accounts g Kind := by
  induction out generalizing low s' with
  | nil => exact hs'
  | cons w out ih =>
      rw [List.forall_mem_cons] at hout
      have hnext : (s'.follow descend low w).2.Accounts g Kind := by
        rw [Search.follow]
        split
        next => exact hs'
        next => exact hs'
        next hw => exact haccounts w hout.1 s' h.proper hw hs'
      exact ih hout.2 (h.follow hs hout.1 hvisited) hnext

end Accounts

end Search

/-- The edges of a list lead to its endpoints, and the graph has room for these and for one
vertex more. -/
theorem encloses_ofEdges (edges : List (Nat × Nat)) (v : Nat) :
    (ofEdges edges).Encloses (insert v (endpoints edges).toFinset) where
  successors a b _ hb := by
    obtain ⟨⟨a', b'⟩, hedge, rfl⟩ := List.mem_map.1 hb
    have hmem : b' ∈ edges.flatMap fun e => [e.1, e.2] :=
      List.mem_flatMap.2 ⟨(a', b'), (List.mem_filter.1 hedge).1, by simp⟩
    exact Finset.mem_insert_of_mem (List.mem_toFinset.2 (NodeSet.mem_ofList.2 hmem))
  card_le := by
    have hsub : (endpoints edges).toFinset ⊆ (edges.flatMap fun e => [e.1, e.2]).toFinset := by
      intro v hv
      exact List.mem_toFinset.2 (NodeSet.mem_ofList.1 (List.mem_toFinset.1 hv))
    have hlen : (edges.flatMap fun e => [e.1, e.2]).length = 2 * edges.length := by
      simp [List.length_flatMap, Nat.mul_comm]
    calc (insert v (endpoints edges).toFinset).card
        ≤ (endpoints edges).toFinset.card + 1 := Finset.card_insert_le _ _
      _ ≤ (edges.flatMap fun e => [e.1, e.2]).toFinset.card + 1 :=
          Nat.succ_le_succ (Finset.card_le_card hsub)
      _ ≤ (edges.flatMap fun e => [e.1, e.2]).length + 1 :=
          Nat.succ_le_succ (List.toFinset_card_le _)
      _ = 2 * edges.length + 1 := congrArg (· + 1) hlen

/-- A list of edges may be searched from any roots. -/
theorem fathoms_ofEdges (edges : List (Nat × Nat)) (roots : List Nat) :
    (ofEdges edges).Fathoms roots :=
  fun v _ => ⟨_, encloses_ofEdges edges v, Finset.mem_insert_self _ _⟩

section Search

open Search

variable {g : Digraph} {Kind : Nat → Prop} {roots c d : List Nat} {v : Nat}

theorem visit_accounts (hkind : ∀ a b, Kind a → b ∈ g.successors a → Kind b) (depth v : Nat)
    (s : Search) (hs : s.Proper g) (hv : s.mark? v = none) (hvkind : Kind v)
    (h : s.Accounts g Kind) : (g.visit depth v s).2.Accounts g Kind := by
  induction depth generalizing v s with
  | zero => exact h
  | succ depth ih =>
      have henter := Following.enter hs hv (g.successors v)
      have hvisited : ∀ w s, s.Proper g → s.mark? w = none → Visited g s w
          (g.visit depth w s).1 (g.visit depth w s).2 := fun w s => g.visit_visited depth w s
      have hfollow := henter.foldl hs hvisited fun _ => id
      have haccounts := Accounts.foldl hs hvisited
        (fun w hw s hs hmark => ih w s hs hmark (hkind v w hvkind hw)) (fun _ => id) henter
        (h.enter hv hvkind)
      rw [visit]
      dsimp only
      split
      next =>
        obtain ⟨new, hstack, _⟩ := hfollow.stack
        exact haccounts.settle hfollow.proper hstack
      next => exact haccounts

/-- A search enters only what its roots lead to. -/
theorem search_accounts (g : Digraph) (roots : List Nat) :
    (g.search roots).Accounts g fun v => ∃ r ∈ roots, g.Reach r v := by
  have hfold : ∀ starts ⊆ roots, ∀ s : Search, s.Proper g →
      s.Accounts g (fun v => ∃ r ∈ roots, g.Reach r v) →
      (starts.foldl g.visitRoot s).Accounts g fun v => ∃ r ∈ roots, g.Reach r v := by
    intro starts hstarts
    induction starts with
    | nil => exact fun _ _ h => h
    | cons v starts ih =>
        intro s hs h
        rw [List.cons_subset] at hstarts
        rw [List.foldl_cons, visitRoot]
        split
        next => exact ih hstarts.2 s hs h
        next hv =>
          refine ih hstarts.2 _ (g.visit_visited g.order v s hs hv).proper ?_
          refine visit_accounts (fun a b => ?_) g.order v s hs hv ⟨v, hstarts.1, .refl⟩ h
          rintro ⟨r, hr, hra⟩ hab
          exact ⟨r, hr, hra.tail hab⟩
  exact hfold roots (List.Subset.refl roots) {} (proper_empty g) (accounts_empty g _)

/-- A search that may go deep enough enters exactly what its roots lead to. -/
theorem mem_vertices_search (hg : g.Fathoms roots) :
    v ∈ (g.search roots).vertices ↔ ∃ r ∈ roots, g.Reach r v := by
  refine ⟨(g.search_accounts roots).kind v, ?_⟩
  rintro ⟨r, hr, hrv⟩
  obtain ⟨hbetween, hsettled⟩ := g.search_settles hg
  rw [mem_vertices, hbetween.complete.reach (hsettled r hr) hrv]
  rfl

/-! ## The components -/

/-- Two components that have a vertex in common are the same. -/
theorem eq_of_mem_components (hc : c ∈ (g.components roots).members)
    (hd : d ∈ (g.components roots).members) (hvc : v ∈ c) (hvd : v ∈ d) : c = d := by
  have hdisjoint := (List.nodup_flatten.1 (g.components_connected roots).1).2
  by_contra hne
  have : Std.Symm (@List.Disjoint Nat) := ⟨fun _ _ => List.Disjoint.symm⟩
  exact hdisjoint.forall hc hd hne hvc hvd

/-- A vertex of a component is one that the roots lead to, and the component is all that
lies on a common cycle with it. -/
theorem mem_component_iff (hg : g.Fathoms roots) (hc : c ∈ (g.components roots).members)
    (hv : v ∈ c) :
    (∃ r ∈ roots, g.Reach r v) ∧ ∀ w, w ∈ c ↔ g.Reach v w ∧ g.Reach w v := by
  have hperm : (g.components roots).members.Perm (g.search roots).found := sortBy_perm _ _
  have hbetween := (g.search_settles hg).1
  have hsettled := hbetween.proper.settled c (hperm.mem_iff.1 hc) v hv
  have hreached : ∃ r ∈ roots, g.Reach r v :=
    (mem_vertices_search hg).1 (mem_vertices.2 (by rw [hsettled]; rfl))
  have hconnected := ((g.components_connected roots).2 c hc).2
  refine ⟨hreached, fun w => ⟨fun hw => ⟨hconnected v hv w hw, hconnected w hw v hv⟩, ?_⟩⟩
  rintro ⟨hvw, hwv⟩
  by_cases hne : v = w
  · exact hne ▸ hv
  · obtain ⟨r, hr, hrv⟩ := hreached
    obtain ⟨d, hd, hvd, hwd⟩ := components_complete hg hr hrv hvw hwv hne
    rwa [eq_of_mem_components hc hd hv hvd]

theorem ascending_of_mem_components (hc : c ∈ (g.components roots).members) :
    c.Pairwise (· < ·) := by
  have hperm : (g.components roots).members.Perm (g.search roots).found := sortBy_perm _ _
  exact (g.search_accounts roots).ascending c (hperm.mem_iff.1 hc)

/-- What is listed are the strongly connected components of two or more vertices that
the roots lead to, each in ascending order. -/
theorem mem_components_iff (hg : g.Fathoms roots) :
    c ∈ (g.components roots).members ↔
      1 < c.length ∧ c.Pairwise (· < ·) ∧
        ∃ v, (∃ r ∈ roots, g.Reach r v) ∧ ∀ w, w ∈ c ↔ g.Reach v w ∧ g.Reach w v := by
  constructor
  · intro hc
    have hlen := ((g.components_connected roots).2 c hc).1
    obtain ⟨v, hv⟩ : ∃ v, v ∈ c := List.exists_mem_of_length_pos (Nat.lt_of_succ_lt hlen)
    exact ⟨hlen, ascending_of_mem_components hc, v, mem_component_iff hg hc hv⟩
  · rintro ⟨hlen, hascending, v, ⟨r, hr, hrv⟩, hmem⟩
    have hv : v ∈ c := (hmem v).2 ⟨.refl, .refl⟩
    obtain ⟨w, hw, hne⟩ := exists_ne_of_nodup (NodeSet.Ascending.nodup (s := ⟨c⟩) hascending) hlen v
    obtain ⟨hvw, hwv⟩ := (hmem w).1 hw
    obtain ⟨d, hd, hvd, _⟩ := components_complete hg hr hrv hvw hwv hne
    have hsame : ∀ x, x ∈ (⟨c⟩ : NodeSet) ↔ x ∈ (⟨d⟩ : NodeSet) := fun x =>
      (hmem x).trans ((mem_component_iff hg hd hvd).2 x).symm
    have heq := NodeSet.ext_of_ascending hascending (ascending_of_mem_components hd) hsame
    obtain rfl : c = d := congrArg NodeSet.elements heq
    exact hd

/-- Each component has a vertex below all those of the next. -/
theorem components_ordered (g : Digraph) (roots : List Nat) :
    (g.components roots).members.Pairwise fun c d => ∃ m ∈ c, ∀ n ∈ d, m < n := by
  have hsorted : (g.components roots).members.Pairwise
      fun c d => Components.precedes c d = true := by
    refine pairwise_sortBy (fun c d => ?_) (fun c d e => ?_) _
    · simp only [Components.precedes, decide_eq_true_eq]
      exact Nat.le_total _ _
    · simp only [Components.precedes, decide_eq_true_eq]
      exact Nat.le_trans
  have hdisjoint := (List.nodup_flatten.1 (g.components_connected roots).1).2
  refine (hsorted.and hdisjoint).imp_of_mem fun {c d} hc hd hcd => ?_
  obtain ⟨hle, hcd⟩ := hcd
  have hlen := ((g.components_connected roots).2 c hc).1
  match c, d, hle, hlen with
  | m :: _, [], _, _ => exact ⟨m, List.mem_cons_self, fun n hn => absurd hn List.not_mem_nil⟩
  | m :: _, k :: _, hle, _ =>
      have hmk : m ≤ k := of_decide_eq_true hle
      have hne : m ≠ k := fun heq => hcd List.mem_cons_self (heq ▸ List.mem_cons_self)
      have hlt : m < k := Nat.lt_of_le_of_ne hmk hne
      refine ⟨m, List.mem_cons_self, fun n hn => ?_⟩
      rcases List.mem_cons.1 hn with rfl | hn
      · exact hlt
      · exact Nat.lt_trans hlt ((List.pairwise_cons.1 (ascending_of_mem_components hd)).1 n hn)

theorem nodup_components (g : Digraph) (roots : List Nat) :
    (g.components roots).members.Nodup := by
  refine (g.components_ordered roots).imp fun {c d} => ?_
  rintro ⟨m, hm, hlt⟩ rfl
  exact Nat.lt_irrefl m (hlt m hm)

/-! ## What an answer depends on -/

section Congr

variable {h : Digraph} {roots' : List Nat}

theorem reach_congr (hsuccessors : ∀ a b, b ∈ h.successors a ↔ b ∈ g.successors a) (a b : Nat) :
    h.Reach a b ↔ g.Reach a b := by
  have hedge : (fun a b => b ∈ h.successors a) = fun a b => b ∈ g.successors a :=
    funext fun a => funext fun b => propext (hsuccessors a b)
  rw [Reach, Reach, hedge]

/-- Neither the order of roots and successors nor the bound on the depth has an effect, if
the bound is sufficient. -/
theorem components_congr (hg : g.Fathoms roots) (hh : h.Fathoms roots')
    (hsuccessors : ∀ v, (h.successors v).Perm (g.successors v))
    (hroots : ∀ v, v ∈ roots' ↔ v ∈ roots) : h.components roots' = g.components roots := by
  have hreach := reach_congr fun a b => (hsuccessors a).mem_iff (a := b)
  have hreached : ∀ v, (∃ r ∈ roots', h.Reach r v) ↔ ∃ r ∈ roots, g.Reach r v := fun v => by
    simp only [hroots, hreach]
  have hmembers : (h.components roots').members = (g.components roots).members := by
    refine List.Perm.eq_of_pairwise (fun c d _ _ hcd hdc => ?_) (h.components_ordered roots')
      (g.components_ordered roots) ?_
    · obtain ⟨m, hm, hlt⟩ := hcd
      obtain ⟨n, hn, hlt'⟩ := hdc
      exact absurd (hlt n hn) (Nat.lt_asymm (hlt' m hm))
    · refine (List.perm_ext_iff_of_nodup (h.nodup_components roots')
        (g.nodup_components roots)).2 fun c => ?_
      rw [mem_components_iff hh, mem_components_iff hg]
      simp only [hreach, hroots]
  have hvertices : (h.search roots').vertices = (g.search roots).vertices := by
    ext v
    rw [mem_vertices_search hh, mem_vertices_search hg, hreached]
  have hnodes : (h.components roots').visitedNodes = (g.components roots).visitedNodes := by
    change (h.search roots').entered = (g.search roots).entered
    rw [← card_vertices, ← card_vertices, hvertices]
  have hedges : (h.components roots').visitedEdges = (g.components roots).visitedEdges := by
    change (h.search roots').edges = (g.search roots).edges
    rw [(h.search_accounts roots').edges_eq, (g.search_accounts roots).edges_eq, hvertices]
    exact Finset.sum_congr rfl fun v _ => (hsuccessors v).length_eq
  cases hc : h.components roots' with
  | mk members nodes edges =>
      rw [hc] at hmembers hnodes hedges
      cases hmembers
      cases hnodes
      cases hedges
      rfl

end Congr

/-- A search that may go as deep as it has to lists the strongly connected components of two
or more vertices among those that the roots lead to, each ascending, in the order of their
smallest members. It counts the vertices and the edges that it has seen, and what would
disappear if each component became one vertex. How the roots and the successors are
ordered has no effect on the answer, nor how much deeper the search might have gone. -/
theorem components_exact (hg : g.Fathoms roots) :
    (∀ c, c ∈ (g.components roots).members ↔ 1 < c.length ∧ c.Pairwise (· < ·) ∧
      ∃ v, (∃ r ∈ roots, g.Reach r v) ∧ ∀ w, w ∈ c ↔ g.Reach v w ∧ g.Reach w v) ∧
    ((g.components roots).members.Pairwise fun c d => ∃ m ∈ c, ∀ n ∈ d, m < n) ∧
    (∃ reached : Finset Nat, (∀ v, v ∈ reached ↔ ∃ r ∈ roots, g.Reach r v) ∧
      (g.components roots).visitedNodes = reached.card ∧
      (g.components roots).visitedEdges = ∑ v ∈ reached, (g.successors v).length) ∧
    (g.components roots).collapsed =
      ∑ c ∈ (g.components roots).members.toFinset, (c.length - 1) ∧
    ∀ (h : Digraph) (roots' : List Nat), h.Fathoms roots' →
      (∀ v, (h.successors v).Perm (g.successors v)) → (∀ v, v ∈ roots' ↔ v ∈ roots) →
        h.components roots' = g.components roots := by
  refine ⟨fun _ => mem_components_iff hg, g.components_ordered roots,
    ⟨(g.search roots).vertices, fun _ => mem_vertices_search hg, ?_, ?_⟩, ?_, ?_⟩
  · exact (card_vertices _).symm
  · exact (g.search_accounts roots).edges_eq
  · rw [List.sum_toFinset _ (g.nodup_components roots)]
    rfl
  · exact fun h roots' => components_congr hg

end Search

/-- A cycle of `1`, `2` and `3` with an edge to a cycle of `4` and `5`, a loop and a double
edge, and a cycle of `6` and `7` that leads to all of this. -/
def bridge : List (Nat × Nat) :=
  [(5, 4), (4, 5), (1, 2), (2, 3), (3, 1), (3, 4), (3, 3), (1, 2), (6, 1), (7, 6), (6, 7)]

/-- From `3` the cycle of `6` and `7` is not seen, and neither is `9` on any. The answer is the
same if the edges are listed backwards and a root is given twice. -/
theorem components_exact_bridge :
    (ofEdges bridge).Fathoms [3, 9] ∧
    ((ofEdges bridge).components [3, 9]).members = [[1, 2, 3], [4, 5]] ∧
    (∃ v, (∃ r ∈ [3, 9], (ofEdges bridge).Reach r v) ∧
      ∀ w, w ∈ [1, 2, 3] ↔ (ofEdges bridge).Reach v w ∧ (ofEdges bridge).Reach w v) ∧
    (ofEdges bridge.reverse).components [9, 3, 3] = (ofEdges bridge).components [3, 9] := by
  have hfathoms := fathoms_ofEdges bridge [3, 9]
  have hmembers : ((ofEdges bridge).components [3, 9]).members = [[1, 2, 3], [4, 5]] := by
    decide +kernel
  obtain ⟨hmem, _, _, _, hcongr⟩ := components_exact hfathoms
  refine ⟨hfathoms, hmembers, ?_, ?_⟩
  · exact ((hmem [1, 2, 3]).1 (by rw [hmembers]; exact List.mem_cons_self)).2.2
  · exact hcongr (ofEdges bridge.reverse) [9, 3, 3] (fathoms_ofEdges _ _)
      (fun v => ((List.reverse_perm bridge).filter _).map _) (by simp [or_comm])

end Digraph

end PointsTo
