import PointsTo.Proofs.NodeTable.Classes
import PointsTo.Proofs.NodeTable.Groups
import PointsTo.Proofs.NodeTable.Lookups

/-!
# Facts follow merges

What a table says of a class is recorded at its root and read there, whichever root a
merge has kept. For a reachable table it is what holds of the nodes of the class: the
kind of its special nodes, and whether one of its nodes can be pointed to. So whether a
merge is refused can be told from the nodes of the two classes and the number of merges
made before.

Every table that calls come to is a reachable one with shorter paths, and these laws
speak of roots and nodes only. So they hold of all of them.
-/

namespace PointsTo

theorem ClassFacts.clash?_eq_some_iff {f g : ClassFacts} {k l : Special} :
    f.clash? g = some (k, l) ↔ f.special = some k ∧ g.special = some l ∧ l = k.other := by
  obtain ⟨f, _⟩ := f
  obtain ⟨g, _⟩ := g
  cases f with
  | none => simp [ClassFacts.clash?]
  | some i =>
      cases g with
      | none => simp [ClassFacts.clash?]
      | some j =>
          cases i <;> cases j <;> cases k <;> cases l <;> simp [ClassFacts.clash?, Special.other]

namespace NodeTable

/-- The class of `n` holds a node that can be pointed to. -/
def HoldsPointee (t : NodeTable) (n : Nat) : Prop :=
  ∃ m, t.root m = t.root n ∧ t.isPointee m = true

/-- The tables `t` and `u` agree on the classes, on what is known of them, and on the number
of merges and its bound. -/
structure Unchanged (t u : NodeTable) : Prop where
  nodes_eq : u.nodes = t.nodes
  root_eq (n : Nat) : u.root n = t.root n
  special?_eq (n : Nat) : u.special? n = t.special? n
  hasPointee_eq (n : Nat) : u.hasPointee n = t.hasPointee n
  merges_eq : u.merges = t.merges
  maxMerges_eq : u.maxMerges = t.maxMerges

/-- The classes of `a` and `b` are one in `u`, with the root `rep`, and all others are what they
are in `t`. -/
structure Unites (t u : NodeTable) (a b rep : Nat) : Prop where
  nodes_eq : u.nodes = t.nodes
  rep_cases : rep = t.root a ∨ rep = t.root b
  root_eq (n : Nat) : u.root n = if t.root n = t.root a ∨ t.root n = t.root b then rep else t.root n
  merges_eq : u.merges = t.merges + if t.root a = t.root b then 0 else 1

/-- Why a merge of `a` and `b` is refused. -/
inductive Refuses (t : NodeTable) (a b : Nat) : AnalysisError → Prop
  | clash {k : Special} (ha : t.HoldsSpecial a k) (hb : t.HoldsSpecial b k.other) :
      Refuses t a b (.invalidMerge a b (clashReason k k.other))
  | usedUp {limit : Nat} (hopposed : ¬t.Opposed a b) (hne : t.root a ≠ t.root b)
      (hlimit : t.maxMerges = some limit) (hle : limit ≤ t.merges) :
      Refuses t a b (.resourceExceeded .merges limit)

/-! ## Pointees -/

section Pointees

variable {t u : NodeTable} {a b n m rep : Nat} {kind : NodeKind}

/-- A class that is said to hold a pointee does. -/
def Attested (t : NodeTable) : Prop := ∀ n, (t.factsOf n).hasPointee = true → t.HoldsPointee n

theorem isPointee_append (t : NodeTable) (kind : NodeKind) (n : Nat) :
    (t.append kind).isPointee n =
      if n = t.size then Node.isPointee ⟨t.size, kind⟩ else t.isPointee n := by
  rw [isPointee, isPointee, node?_append]
  split
  next => rfl
  next => rfl

theorem HoldsPointee.append (h : t.HoldsPointee n) (ht : t.Coherent) (kind : NodeKind) :
    (t.append kind).HoldsPointee n := by
  obtain ⟨m, hroot, hpointee⟩ := h
  have hroots : ∀ n, (t.append kind).root n = t.root n := ht.sets.root_push
  refine ⟨m, by rw [hroots, hroots, hroot], ?_⟩
  rw [isPointee_append, if_neg (Nat.ne_of_lt (lt_size_of_isPointee hpointee))]
  exact hpointee

theorem Attested.append (h : t.Attested) (ht : t.Coherent) (kind : NodeKind) :
    (t.append kind).Attested := by
  intro n hn
  rw [ht.factsOf_append] at hn
  split at hn
  next hsize => exact ⟨n, rfl, by rwa [isPointee_append, if_pos hsize]⟩
  next => exact (h n hn).append ht kind

theorem HoldsPointee.mono (h : t.HoldsPointee n) (hnodes : u.nodes = t.nodes)
    (hclasses : ∀ m n, t.root m = t.root n → u.root m = u.root n) : u.HoldsPointee n := by
  obtain ⟨m, hroot, hpointee⟩ := h
  exact ⟨m, hclasses m n hroot, (isPointee_congr hnodes m).trans hpointee⟩

theorem HoldsPointee.congr (h : t.HoldsPointee n) (hnm : t.root n = t.root m) :
    t.HoldsPointee m := by
  obtain ⟨l, hroot, hpointee⟩ := h
  exact ⟨l, hroot.trans hnm, hpointee⟩

theorem Attested.merge (h : t.Attested) (ht : t.Coherent) (ha : a < t.size) (hb : b < t.size)
    (hmerge : t.merge a b = .ok (rep, u)) : u.Attested := by
  rcases merge_eq_ok hmerge with ⟨_, _, rfl⟩ | ⟨hne, _, _, hjoin⟩
  · exact h
  obtain rfl : (t.join (t.root a) (t.root b)).2 = u := by rw [hjoin]
  have hapart := ht.apart ha hb hne
  have hroot := ht.root_join hapart
  have hclasses : ∀ m n, t.root m = t.root n →
      (t.join (t.root a) (t.root b)).2.root m = (t.join (t.root a) (t.root b)).2.root n :=
    fun _ _ => ht.join_classes hapart
  intro n hn
  rw [ht.factsOf_join hapart, factsOf_congr hapart.left_root,
    factsOf_congr hapart.right_root] at hn
  split at hn
  next hab =>
    -- the pointee is in one of the two classes, and `n` has been joined with both
    have hjoined : ∀ c, t.root c = t.root a ∨ t.root c = t.root b →
        (t.factsOf c).hasPointee = true → (t.join (t.root a) (t.root b)).2.HoldsPointee n := by
      intro c hc hpointee
      have hmono : (t.join (t.root a) (t.root b)).2.HoldsPointee c :=
        (h c hpointee).mono rfl hclasses
      refine hmono.congr ?_
      rw [hroot, hroot, if_pos hc, if_pos hab]
    rcases Bool.or_eq_true_iff.1 hn with hn | hn
    · exact hjoined a (.inl rfl) hn
    · exact hjoined b (.inr rfl) hn
  next => exact (h n hn).mono rfl hclasses

theorem attested_withLimits (maxNodes maxMerges : Option Nat) :
    (withLimits maxNodes maxMerges).Attested := by
  intro n hn
  have hfacts : (withLimits maxNodes maxMerges).factsOf n = {} := by
    simp [factsOf, withLimits]
  rw [hfacts] at hn
  cases hn

theorem Reachable.attested (ht : t.Reachable) : t.Attested :=
  ht.of_kept attested_withLimits (fun _ _ h => h) (fun _ _ h => h)
    (fun _ kind ht h => h.append ht kind) fun _ _ _ _ _ ht ha hb hmerge h => h.merge ht ha hb hmerge

theorem Reachable.hasPointee_iff (ht : t.Reachable) : t.hasPointee n = true ↔ t.HoldsPointee n := by
  rw [NodeTable.hasPointee, Bool.and_eq_true, contains_iff]
  constructor
  · intro h
    exact ht.attested n h.2
  · rintro ⟨m, hroot, hpointee⟩
    constructor
    · by_contra hge
      have hlt := ht.wellFormed.root_lt (lt_size_of_isPointee hpointee)
      rw [hroot, ht.wellFormed.root_of_size_le (Nat.le_of_not_lt hge)] at hlt
      exact hge hlt
    · rw [← factsOf_congr hroot]
      exact ht.wellFormed.hasPointee m hpointee

end Pointees

/-! ## Merges that are refused -/

section Refuses

variable {t u v w : NodeTable} {a b n rep : Nat} {k l : Special} {e : AnalysisError}

/-- Two classes clash if they hold different kinds. -/
theorem Reachable.clash?_eq_some_iff (ht : t.Reachable) :
    (t.factsOf a).clash? (t.factsOf b) = some (k, l) ↔
      t.HoldsSpecial a k ∧ t.HoldsSpecial b l ∧ l = k.other := by
  have hspecial : ∀ n k, (t.factsOf n).special = some k ↔ t.HoldsSpecial n k :=
    fun n k => ⟨ht.wellFormed.holdsSpecial n k, ht.faithful n k⟩
  rw [ClassFacts.clash?_eq_some_iff, hspecial, hspecial]

theorem Reachable.clash?_eq_none_iff (ht : t.Reachable) :
    (t.factsOf a).clash? (t.factsOf b) = none ↔ ¬t.Opposed a b := by
  rw [Option.eq_none_iff_forall_not_mem]
  constructor
  · rintro hnone ⟨k, ha, hb⟩
    exact hnone (k, k.other) (ht.clash?_eq_some_iff.2 ⟨ha, hb, rfl⟩)
  · rintro hopposed ⟨k, _⟩ hclash
    obtain ⟨ha, hb, rfl⟩ := ht.clash?_eq_some_iff.1 hclash
    exact hopposed ⟨k, ha, hb⟩

theorem Reachable.merge_eq_error_iff (ht : t.Reachable) :
    t.merge a b = .error e ↔ t.Refuses a b e := by
  rw [NodeTable.merge]
  constructor
  · intro h
    split at h
    next => cases h
    next hne =>
      split at h
      next k l hclash =>
        obtain ⟨ha, hb, rfl⟩ := ht.clash?_eq_some_iff.1 hclash
        cases h
        exact .clash ha hb
      next hclash =>
        split at h
        next limit hused =>
          obtain ⟨hlimit, hle⟩ := mergesUsedUp?_eq_some_iff.1 hused
          cases h
          exact .usedUp (ht.clash?_eq_none_iff.1 hclash) hne hlimit hle
        next => cases h
  · rintro (⟨ha, hb⟩ | ⟨hopposed, hne, hlimit, hle⟩)
    · rw [if_neg (ht.root_ne_of_opposed ⟨_, ha, hb⟩), ht.clash?_eq_some_iff.2 ⟨ha, hb, rfl⟩]
    · rw [if_neg hne, ht.clash?_eq_none_iff.2 hopposed,
        mergesUsedUp?_eq_some_iff.2 ⟨hlimit, hle⟩]

/-- A merge that succeeds joins the two classes and no others. -/
theorem Coherent.unites (ht : t.Coherent) (ha : a < t.size) (hb : b < t.size)
    (h : t.merge a b = .ok (rep, u)) : t.Unites u a b rep := by
  rcases merge_eq_ok h with ⟨hab, rfl, rfl⟩ | ⟨hne, _, _, hjoin⟩
  · refine ⟨rfl, .inl rfl, fun n => ?_, by rw [if_pos hab, Nat.add_zero]⟩
    split
    next hn => exact hn.elim id fun hn => hn.trans hab.symm
    next => rfl
  · obtain rfl : (t.join (t.root a) (t.root b)).1 = rep := by rw [hjoin]
    obtain rfl : (t.join (t.root a) (t.root b)).2 = u := by rw [hjoin]
    exact
      { nodes_eq := rfl
        rep_cases := (t.sets.link_cases hne).imp And.left And.left
        root_eq := ht.root_join (ht.apart ha hb hne)
        merges_eq := by rw [if_neg hne]; rfl }

/-- As many classes are missing as there were merges. -/
theorem Reachable.merges_add_card_classes (ht : t.Reachable) :
    t.merges + ((Finset.range t.size).image t.root).card = t.size := by
  have hclasses : (Finset.range t.size).image t.root =
      (Finset.range t.size).filter fun n => t.root n = n := by
    ext n
    rw [Finset.mem_filter, Finset.mem_range, ← ht.wellFormed.sets_size]
    exact ht.wellFormed.sets.mem_roots_iff
  rw [hclasses, Nat.add_comm]
  exact ht.card_roots_add_merges

/-! ## Shorter paths -/

theorem Shortened.unchanged (h : u.Shortened t) : u.Unchanged t := by
  have hroot := h.root_eq
  have hfacts := h.factsOf_eq
  obtain ⟨sets, _, rfl⟩ := h
  refine ⟨rfl, hroot, fun n => ?_, fun n => ?_, rfl, rfl⟩
  · rw [special?, hfacts]
    rfl
  · rw [NodeTable.hasPointee, hfacts]
    rfl

theorem Unchanged.symm (h : t.Unchanged u) : u.Unchanged t where
  nodes_eq := h.nodes_eq.symm
  root_eq n := (h.root_eq n).symm
  special?_eq n := (h.special?_eq n).symm
  hasPointee_eq n := (h.hasPointee_eq n).symm
  merges_eq := h.merges_eq.symm
  maxMerges_eq := h.maxMerges_eq.symm

theorem Unchanged.trans (h : t.Unchanged u) (h' : u.Unchanged v) : t.Unchanged v where
  nodes_eq := h'.nodes_eq.trans h.nodes_eq
  root_eq n := (h'.root_eq n).trans (h.root_eq n)
  special?_eq n := (h'.special?_eq n).trans (h.special?_eq n)
  hasPointee_eq n := (h'.hasPointee_eq n).trans (h.hasPointee_eq n)
  merges_eq := h'.merges_eq.trans h.merges_eq
  maxMerges_eq := h'.maxMerges_eq.trans h.maxMerges_eq

theorem Unchanged.classes (h : t.Unchanged u) {m n : Nat} (hmn : t.root m = t.root n) :
    u.root m = u.root n := by
  rw [h.root_eq, h.root_eq, hmn]

theorem Unchanged.holdsSpecial_iff (h : t.Unchanged u) : u.HoldsSpecial n k ↔ t.HoldsSpecial n k :=
  ⟨fun hn => hn.mono h.symm.nodes_eq fun _ _ => h.symm.classes,
    fun hn => hn.mono h.nodes_eq fun _ _ => h.classes⟩

theorem Unchanged.holdsPointee_iff (h : t.Unchanged u) : u.HoldsPointee n ↔ t.HoldsPointee n :=
  ⟨fun hn => hn.mono h.symm.nodes_eq fun _ _ => h.symm.classes,
    fun hn => hn.mono h.nodes_eq fun _ _ => h.classes⟩

theorem Unchanged.refuses (h : t.Unchanged u) (he : t.Refuses a b e) : u.Refuses a b e := by
  cases he with
  | clash ha hb => exact .clash (h.holdsSpecial_iff.2 ha) (h.holdsSpecial_iff.2 hb)
  | usedUp hopposed hne hlimit hle =>
      refine .usedUp ?_ ?_ (h.maxMerges_eq.trans hlimit) (h.merges_eq.symm ▸ hle)
      · exact fun hab => hopposed (hab.mono h.symm.nodes_eq fun _ _ => h.symm.classes)
      · exact fun hab => hne (h.symm.classes hab)

theorem Unites.congr (h : t.Unites u a b rep) (ht : t.Unchanged v) (hu : u.Unchanged w) :
    v.Unites w a b rep where
  nodes_eq := by rw [hu.nodes_eq, h.nodes_eq, ht.nodes_eq]
  rep_cases := by rw [ht.root_eq, ht.root_eq]; exact h.rep_cases
  root_eq n := by rw [hu.root_eq, h.root_eq, ht.root_eq, ht.root_eq, ht.root_eq]
  merges_eq := by rw [hu.merges_eq, h.merges_eq, ht.merges_eq, ht.root_eq, ht.root_eq]

theorem Handled.merge_eq_error_iff (h : t.Handled) (ha : a < t.size) (hb : b < t.size) :
    t.merge a b = .error e ↔ t.Refuses a b e := by
  obtain ⟨u, hu, hut⟩ := h.shortened
  have hsame := hut.unchanged
  rw [size_congr hsame.nodes_eq] at ha hb
  have hmerge : t.merge a b = .error e ↔ u.merge a b = .error e := by
    rcases hut.merge hu.wellFormed.toCoherent ha hb with ⟨_, he, he'⟩ | ⟨_, _, _, hv, hw, _⟩
    · rw [he, he']
    · rw [hv, hw]
      simp
  exact hmerge.trans (hu.merge_eq_error_iff.trans ⟨hsame.refuses, hsame.symm.refuses⟩)

/-- A merge with look-ups fails as one without them does, and then nothing but paths has
changed, or both succeed and the two classes are joined. -/
theorem Handled.merge_cases (h : t.Handled) (ha : a < t.size) (hb : b < t.size) :
    (∃ e w, t.merge a b = .error e ∧ mergeHalving a b t = .error e w ∧ t.Unchanged w) ∨
      ∃ rep v w, t.merge a b = .ok (rep, v) ∧ mergeHalving a b t = .ok rep w ∧
        t.Unites w a b rep := by
  obtain ⟨u, hu, hut⟩ := h.shortened
  have hsame := hut.unchanged
  have hcoherent := hu.wellFormed.toCoherent
  rw [size_congr hsame.nodes_eq] at ha hb
  rcases hut.mergeHalving hcoherent ha hb with ⟨e, he, w, hw, huw⟩ | ⟨rep, v, hv, w, hw, hvw⟩
  · refine .inl ⟨e, w, ?_, hw, hsame.symm.trans huw.unchanged⟩
    rcases hut.merge hcoherent ha hb with ⟨_, he', ht⟩ | ⟨_, _, _, hok, _, _⟩
    · rw [ht, ← he', he]
    · cases he.symm.trans hok
  · have hunites := (hcoherent.unites ha hb hv).congr hsame hvw.unchanged
    rcases hut.merge hcoherent ha hb with ⟨_, he, _⟩ | ⟨_, _, v', hok, ht, _⟩
    · cases hv.symm.trans he
    · cases hv.symm.trans hok
      exact .inr ⟨rep, v', w, ht, hw, hunites⟩

end Refuses

/-! ## Any sequence of calls -/

/-- However nodes are created, looked up and merged: the kind recorded for a class is that of
its special nodes, which are of one kind; a class is known to hold a pointee if it does; and
with every merge there is one class less than nodes. A merge fails if the two classes hold
different kinds, else if they are different and the bound is used up, and for no other reason.
If it fails nothing has changed but the paths, otherwise these two classes are one. -/
theorem Handled.facts_follow_merges {t : NodeTable} (h : t.Handled) :
    (∀ n k, t.special? n = some k ↔ t.HoldsSpecial n k) ∧
    (∀ n, t.hasPointee n = true ↔ t.HoldsPointee n) ∧
    (∀ n, ¬(t.HoldsSpecial n .null ∧ t.HoldsSpecial n .universal)) ∧
    t.merges + ((Finset.range t.size).image t.root).card = t.size ∧
    ∀ a < t.size, ∀ b < t.size,
      Action.value (mergeHalving a b) t = (t.merge a b).map Prod.fst ∧
      (∀ e, Action.value (mergeHalving a b) t = .error e ↔ t.Refuses a b e) ∧
      (∀ e, Action.value (mergeHalving a b) t = .error e →
        t.Unchanged (Action.state (mergeHalving a b) t)) ∧
      ∀ rep, Action.value (mergeHalving a b) t = .ok rep →
        t.Unites (Action.state (mergeHalving a b) t) a b rep := by
  obtain ⟨u, hu, hut⟩ := h.shortened
  have hsame := hut.unchanged
  refine ⟨fun n k => ?_, fun n => ?_, fun n hn => ?_, ?_, fun a ha b hb => ?_⟩
  · rw [hsame.special?_eq, hsame.holdsSpecial_iff, hu.special?_eq_some_iff]
  · rw [hsame.hasPointee_eq, hsame.holdsPointee_iff, hu.hasPointee_iff]
  · rw [hsame.holdsSpecial_iff, hsame.holdsSpecial_iff] at hn
    exact hu.not_holdsSpecial_other hn.1 hn.2
  · rw [size_congr hsame.nodes_eq, hsame.merges_eq, funext hsame.root_eq]
    exact hu.merges_add_card_classes
  · simp only [← h.merge_eq_error_iff ha hb]
    rcases h.merge_cases ha hb with ⟨e, w, he, hw, hsame⟩ | ⟨rep, v, w, hv, hw, hunites⟩
    · have hvalue : Action.value (mergeHalving a b) t = .error e := by rw [Action.value, hw]
      have hstate : Action.state (mergeHalving a b) t = w := by rw [Action.state, hw]
      rw [hvalue, hstate, he]
      refine ⟨rfl, fun _ => by simp, fun _ _ => hsame, fun _ hok => ?_⟩
      cases hok
    · have hvalue : Action.value (mergeHalving a b) t = .ok rep := by rw [Action.value, hw]
      have hstate : Action.state (mergeHalving a b) t = w := by rw [Action.state, hw]
      rw [hvalue, hstate, hv]
      refine ⟨rfl, fun _ => by simp, fun _ herror => ?_, fun _ hok => ?_⟩
      · cases herror
      · cases hok
        exact hunites

/-- Two variables, a null node and a node of unknown memory. The only merge that the bound
allows has been made, and another one was refused. -/
def usedUp : NodeTable :=
  [Call.value, .value, .special .null, .special .universal, .merge 0 2, .find 2, .merge 0 3,
    .representatives].foldl after (withLimits none (some 1))

theorem handled_usedUp : usedUp.Handled := by
  have hempty : (withLimits none (some 1)).Handled := .empty none (some 1)
  have hnodes := (((hempty.call .value trivial).call .value trivial).call (.special .null)
    trivial).call (.special .universal) trivial
  have hmerge := hnodes.call (.merge 0 2) ⟨by decide, by decide⟩
  have hfind := hmerge.call (.find 2) (by decide +kernel : 2 < _)
  exact (hfind.call (.merge 0 3) ⟨by decide +kernel, by decide +kernel⟩).call .representatives
    trivial

/-- The one merge that is left to be made is refused since the bound is used up; the class
of `0` is refused the other kind before. -/
theorem facts_follow_merges_usedUp :
    usedUp.HoldsSpecial 0 .null ∧ ¬usedUp.HoldsPointee 1 ∧
      1 + ((Finset.range 4).image usedUp.root).card = 4 ∧
      usedUp.Refuses 0 3 (.invalidMerge 0 3 (clashReason .null .universal)) ∧
      usedUp.Unchanged (Action.state (mergeHalving 0 3) usedUp) ∧
      usedUp.Refuses 1 3 (.resourceExceeded .merges 1) ∧
      usedUp.Unites (Action.state (mergeHalving 0 2) usedUp) 0 2 0 := by
  obtain ⟨hspecial, hpointee, _, hclasses, hmerge⟩ := Handled.facts_follow_merges handled_usedUp
  have hsize : usedUp.size = 4 := by decide +kernel
  obtain ⟨_, hrefused, hkept, _⟩ := hmerge 0 (by decide +kernel) 3 (by decide +kernel)
  obtain ⟨_, hrefused', _⟩ := hmerge 1 (by decide +kernel) 3 (by decide +kernel)
  obtain ⟨_, _, _, hunited⟩ := hmerge 0 (by decide +kernel) 2 (by decide +kernel)
  have hclash : Action.value (mergeHalving 0 3) usedUp =
      .error (.invalidMerge 0 3 (clashReason .null .universal)) := by decide +kernel
  refine ⟨(hspecial 0 .null).1 (by decide +kernel), fun h => ?_, ?_, (hrefused _).1 hclash,
    hkept _ hclash, (hrefused' _).1 (by decide +kernel), hunited 0 (by decide +kernel)⟩
  · exact absurd ((hpointee 1).2 h) (by decide +kernel)
  · rwa [hsize] at hclasses

end NodeTable

end PointsTo
