import PointsTo.Proofs.Action
import PointsTo.Proofs.NodeTable
import PointsTo.Proofs.DisjointSets.Closure

/-!
# Look-ups that shorten paths

The look-ups of a node table leave the links as they are. A table whose look-ups halve
paths, those that a merge begins with too, answers every call in the same way: at any
time it is a table without such look-ups whose paths have been shortened (`Shortened`).
So nothing that holds of the classes of a reachable table depends on how often nodes
have been looked up in between, or on whether a merge that was refused had looked up its
two nodes before.
-/

namespace PointsTo

namespace DisjointSets

section Halved

variable {d e : DisjointSets} {a b : Nat}

theorem Halved.push (h : d.Halved e) (hd : d.WellFormed) : d.push.Halved e.push where
  wellFormed := h.wellFormed.push
  size_eq := by rw [size_push, size_push, h.size_eq]
  root_eq n := by rw [h.wellFormed.root_push, hd.root_push, h.root_eq]
  rank_eq := congrArg (·.push 0) h.rank_eq
  classes_eq := congrArg (· + 1) h.classes_eq

theorem Halved.rankOf_eq (h : d.Halved e) (n : Nat) : e.rankOf n = d.rankOf n := by
  rw [rankOf, rankOf, h.rank_eq]

/-- Which root stays is a matter of the ranks, which a look-up does not change. -/
theorem Halved.link_fst_eq (h : d.Halved e) : (e.link a b).1 = (d.link a b).1 := by
  rw [link_fst, link_fst, h.rankOf_eq, h.rankOf_eq]

theorem Halved.link (h : d.Halved e) (hd : d.WellFormed) (hab : d.Apart a b) :
    (d.link a b).2.Halved (e.link a b).2 where
  wellFormed := h.wellFormed.link (h.apart hab)
  size_eq := by rw [size_link, size_link, h.size_eq]
  root_eq n := by
    rw [h.wellFormed.root_link_eq (h.apart hab), hd.root_link_eq hab, h.link_fst_eq, h.root_eq]
  rank_eq := by
    simp only [DisjointSets.link, h.rankOf_eq, h.rank_eq]
  classes_eq := congrArg (· - 1) h.classes_eq

end Halved

end DisjointSets

namespace NodeTable

inductive Call where
  | value
  | object (fieldCount : Nat)
  | special (kind : Special)
  | find (n : Nat)
  | representatives
  | merge (a b : Nat)

/-- The table that a call leaves, whether it succeeds or fails. -/
def after (t : NodeTable) : Call → NodeTable
  | .value => Action.state createValue t
  | .object fieldCount => Action.state (createObject fieldCount) t
  | .special kind => Action.state (createSpecial kind) t
  | .find n => t.halve n
  | .representatives => t.halveAll
  | .merge a b => Action.state (mergeHalving a b) t

/-- The nodes that the call is about are nodes of the table. -/
def Call.InRange (t : NodeTable) : Call → Prop
  | .find n => n < t.size
  | .merge a b => a < t.size ∧ b < t.size
  | _ => True

/-- The tables that come of calls for nodes of the table, with any limits put in force
on the way. -/
inductive Handled : NodeTable → Prop
  | empty (maxNodes maxMerges : Option Nat) : Handled (.withLimits maxNodes maxMerges)
  | applyLimits {t : NodeTable} (limits : Limits) : Handled t → Handled (t.applyLimits limits)
  | call {t : NodeTable} (c : Call) : Handled t → c.InRange t → Handled (t.after c)

/-- The table `t` is `u` with shorter paths to the roots. -/
def Shortened (u t : NodeTable) : Prop :=
  ∃ sets, u.sets.Halved sets ∧ t = { u with sets }

section Shortened

variable {t u v : NodeTable} {a b n : Nat}

theorem Shortened.root_eq (h : u.Shortened t) (n : Nat) : t.root n = u.root n := by
  obtain ⟨sets, hsets, rfl⟩ := h
  exact hsets.root_eq n

theorem Shortened.factsOf_eq (h : u.Shortened t) (n : Nat) : t.factsOf n = u.factsOf n := by
  have hroot := h.root_eq n
  obtain ⟨sets, hsets, rfl⟩ := h
  rw [factsOf, factsOf, hroot]

theorem Shortened.halve (h : u.Shortened t) (n : Nat) : u.Shortened (t.halve n) := by
  obtain ⟨sets, hsets, rfl⟩ := h
  exact ⟨_, hsets.trans (hsets.wellFormed.find_halved n), rfl⟩

theorem Shortened.halveAll (h : u.Shortened t) : u.Shortened t.halveAll := by
  obtain ⟨sets, hsets, rfl⟩ := h
  exact ⟨_, hsets.trans (hsets.wellFormed.findAll_halved _), rfl⟩

theorem Shortened.applyLimits (h : u.Shortened t) (limits : Limits) :
    (u.applyLimits limits).Shortened (t.applyLimits limits) := by
  obtain ⟨sets, hsets, rfl⟩ := h
  exact ⟨sets, hsets, rfl⟩

/-! ## Creating nodes -/

theorem Shortened.append (h : u.Shortened t) (hu : u.Coherent) (kind : NodeKind) :
    (u.append kind).Shortened (t.append kind) := by
  obtain ⟨sets, hsets, rfl⟩ := h
  exact ⟨sets.push, hsets.push hu.sets, rfl⟩

theorem Shortened.appendFields (h : u.Shortened t) (hu : u.Coherent)
    (base fieldCount offset count : Nat) :
    (u.appendFields base fieldCount offset count).Shortened
      (t.appendFields base fieldCount offset count) := by
  induction count generalizing t u offset with
  | zero => exact h
  | succ count ih => exact ih (h.append hu _) (hu.append _) (offset + 1)

theorem Shortened.appendObject (h : u.Shortened t) (hu : u.Coherent) (fieldCount : Nat) :
    (u.appendObject fieldCount).Shortened (t.appendObject fieldCount) := by
  obtain ⟨sets, hsets, hgrown⟩ := h.appendFields hu u.size fieldCount 0 fieldCount
  obtain ⟨_, _, rfl⟩ := h
  exact ⟨sets, hsets, congrArg (fun t : NodeTable => { t with
    maxFieldCount := max u.maxFieldCount fieldCount }) hgrown⟩

/-- Whether there is room for more nodes does not depend on the paths. -/
theorem Shortened.create {count : Nat} {grow : NodeTable → NodeTable} (h : u.Shortened t)
    (hgrown : (grow u).Shortened (grow t)) :
    (Action.state (create count grow) u).Shortened (Action.state (create count grow) t) := by
  have hsame : t.size = u.size ∧ t.nodeLimit = u.nodeLimit := by
    obtain ⟨sets, _, rfl⟩ := h
    exact ⟨rfl, rfl⟩
  rw [state_create, state_create, hsame.1, hsame.2]
  split
  next => exact hgrown
  next => exact h

/-! ## Merging classes -/

/-- A merge comes to the same whether paths have been shortened before or not. -/
theorem Shortened.merge (h : u.Shortened t) (hu : u.Coherent) (ha : a < u.size)
    (hb : b < u.size) :
    (∃ e, u.merge a b = .error e ∧ t.merge a b = .error e) ∨
      ∃ rep v w, u.merge a b = .ok (rep, v) ∧ t.merge a b = .ok (rep, w) ∧ v.Shortened w := by
  have hused : t.mergesUsedUp? = u.mergesUsedUp? := by
    obtain ⟨_, _, rfl⟩ := h
    rfl
  -- both read the same roots, facts and bound, so they take the same branch
  rw [NodeTable.merge, NodeTable.merge, h.root_eq, h.root_eq, h.factsOf_eq, h.factsOf_eq, hused]
  split
  next => exact .inr ⟨_, _, _, rfl, rfl, h⟩
  next hne =>
    split
    next => exact .inl ⟨_, rfl, rfl⟩
    next =>
      split
      next => exact .inl ⟨_, rfl, rfl⟩
      next =>
        have hapart := hu.apart ha hb hne
        obtain ⟨sets, hsets, rfl⟩ := h
        have hrep := hsets.link_fst_eq (a := u.root a) (b := u.root b)
        refine .inr ⟨_, _, (NodeTable.join { u with sets } (u.root a) (u.root b)).2, rfl, ?_, ?_⟩
        · exact congrArg (fun rep => Except.ok (rep, _)) hrep
        · refine ⟨_, hsets.link hu.sets hapart, ?_⟩
          simp only [NodeTable.join, hrep]
          rfl

/-- What a merge with look-ups answers is what a merge without them does, and it leaves the
same table with shorter paths. -/
theorem Shortened.mergeHalving (h : u.Shortened t) (hu : u.Coherent) (ha : a < u.size)
    (hb : b < u.size) :
    (∃ e, u.merge a b = .error e ∧
        ∃ w, NodeTable.mergeHalving a b t = .error e w ∧ u.Shortened w) ∨
      ∃ rep v, u.merge a b = .ok (rep, v) ∧
        ∃ w, NodeTable.mergeHalving a b t = .ok rep w ∧ v.Shortened w := by
  have hhalved := (h.halve a).halve b
  have hcall : NodeTable.mergeHalving a b t =
      Action.ofStep (·.merge a b) ((t.halve a).halve b) := rfl
  rw [hcall, Action.ofStep]
  rcases hhalved.merge hu ha hb with ⟨e, herror, herror'⟩ | ⟨rep, v, w, hok, hok', hvw⟩
  · exact .inl ⟨e, herror, _, by rw [herror'], hhalved⟩
  · exact .inr ⟨rep, v, hok, w, by rw [hok'], hvw⟩

/-! ## Sequences of calls -/

/-- A creation leads on from a reachable table, also if it fails. -/
theorem Reachable.create {count : Nat} {grow : NodeTable → NodeTable} (hu : u.Reachable)
    (h : ∀ n v, NodeTable.create count grow u = .ok n v → v.Reachable) :
    (Action.state (NodeTable.create count grow) u).Reachable := by
  rw [state_create]
  split
  next hroom => exact h _ _ (create_of_room hroom grow)
  next => exact hu

/-- Every call leads on from a reachable table, but for the paths. -/
theorem Shortened.after (h : u.Shortened t) (hu : u.Reachable) {c : Call} (hc : c.InRange t) :
    ∃ v : NodeTable, v.Reachable ∧ v.Shortened (t.after c) := by
  have hcoherent := hu.wellFormed.toCoherent
  cases c with
  | value =>
      exact ⟨_, hu.create fun _ _ hok => .addValue hu (Action.result_eq_ok_iff.2 hok),
        h.create (h.append hcoherent _)⟩
  | object fieldCount =>
      exact ⟨_, hu.create fun _ _ hok => .addObject hu (Action.result_eq_ok_iff.2 hok),
        h.create (h.appendObject hcoherent _)⟩
  | special kind =>
      exact ⟨_, hu.create fun _ _ hok => .addSpecial hu (Action.result_eq_ok_iff.2 hok),
        h.create (h.append hcoherent _)⟩
  | find n => exact ⟨u, hu, h.halve n⟩
  | representatives => exact ⟨u, hu, h.halveAll⟩
  | merge a b =>
      have hsize : t.size = u.size := by
        obtain ⟨_, _, rfl⟩ := h
        rfl
      obtain ⟨ha, hb⟩ : a < u.size ∧ b < u.size := hsize ▸ hc
      rw [NodeTable.after, Action.state]
      rcases h.mergeHalving hcoherent ha hb with ⟨_, _, w, hw, huw⟩ | ⟨_, v, hv, w, hw, hvw⟩
      · exact ⟨u, hu, by rwa [hw]⟩
      · exact ⟨v, hu.of_merge ha hb hv, by rwa [hw]⟩

theorem Handled.shortened (h : t.Handled) : ∃ u : NodeTable, u.Reachable ∧ u.Shortened t := by
  induction h with
  | empty maxNodes maxMerges =>
      exact ⟨_, .empty maxNodes maxMerges, _, DisjointSets.wellFormed_empty.halved_refl, rfl⟩
  | applyLimits limits _ ih =>
      obtain ⟨u, hu, h⟩ := ih
      exact ⟨_, .applyLimits limits hu, h.applyLimits limits⟩
  | call c _ hc ih =>
      obtain ⟨u, hu, h⟩ := ih
      exact h.after hu hc

end Shortened

end NodeTable

end PointsTo
