import PointsTo.Proofs.Action
import PointsTo.Proofs.NodeTable.Special

/-!
# Merging groups without a clash

A group is merged from left to right, so what is merged next is the class merged
so far and the next member. These are two different roots, since the groups at
hand have no member in common and only members of this one have been joined. And
they do not clash: there is a kind of special node that no class of the group
holds, and the classes joined of it do not hold it either. So nothing but the
bound on merges can stop the merging of a group.

The reduction and the solver both merge like this, each in a state of its own.
The loops are followed here for any action that merges two classes in the table
of a state (`Joins`).
-/

namespace PointsTo

/-- Two classes that lack the same kind of special node do not clash. -/
theorem ClassFacts.clash?_eq_none {f g : ClassFacts} {k : Special} (hf : f.special ≠ some k)
    (hg : g.special ≠ some k) : f.clash? g = none := by
  obtain ⟨f, _⟩ := f
  obtain ⟨g, _⟩ := g
  cases f with
  | none => rfl
  | some i =>
      cases g with
      | none => rfl
      | some j => cases i <;> cases j <;> cases k <;> simp_all [ClassFacts.clash?]

namespace NodeTable

/-- The table `u` comes of `t` by `count` merges. -/
structure Merges (t : NodeTable) (count : Nat) (u : NodeTable) : Prop where
  nodes_eq : u.nodes = t.nodes
  maxNodes_eq : u.maxNodes = t.maxNodes
  maxMerges_eq : u.maxMerges = t.maxMerges
  maxFieldCount_eq : u.maxFieldCount = t.maxFieldCount
  merges_eq : u.merges = t.merges + count

/-- The error says that the bound on merges is used up. -/
def RunsOut (t : NodeTable) (e : AnalysisError) : Prop :=
  ∃ limit, t.maxMerges = some limit ∧ e = .resourceExceeded .merges limit

/-- Groups of roots without a member in common. -/
structure Apart (t : NodeTable) (groups : List (List Nat)) : Prop where
  nodup : groups.flatten.Nodup
  roots (m : Nat) : m ∈ groups.flatten → t.root m = m ∧ m < t.size

/-- There is a kind of special node that no class of the group holds. -/
def ClashFree (t : NodeTable) (g : List Nat) : Prop :=
  ∃ k, ∀ m ∈ g, (t.factsOf m).special ≠ some k

/-- The `groups` can be merged; the `later` ones may have to be split before. -/
structure Joinable (t : NodeTable) (groups later : List (List Nat)) : Prop where
  coherent : t.Coherent
  apart : t.Apart (groups ++ later)
  clashFree : ∀ g ∈ groups, t.ClashFree g

section Merges

variable {t u v : NodeTable} {m n : Nat}

theorem Merges.refl (t : NodeTable) : t.Merges 0 t := ⟨rfl, rfl, rfl, rfl, rfl⟩

theorem Merges.trans (h : t.Merges m u) (h' : u.Merges n v) : t.Merges (m + n) v where
  nodes_eq := h'.nodes_eq.trans h.nodes_eq
  maxNodes_eq := h'.maxNodes_eq.trans h.maxNodes_eq
  maxMerges_eq := h'.maxMerges_eq.trans h.maxMerges_eq
  maxFieldCount_eq := h'.maxFieldCount_eq.trans h.maxFieldCount_eq
  merges_eq := by rw [h'.merges_eq, h.merges_eq, Nat.add_assoc]

theorem Merges.runsOut {e : AnalysisError} (h : t.Merges n u) (he : u.RunsOut e) :
    t.RunsOut e := by
  obtain ⟨limit, hlimit, rfl⟩ := he
  exact ⟨limit, h.maxMerges_eq ▸ hlimit, rfl⟩

theorem Absorbs.merges {rep gone : Nat} (h : Absorbs t u rep gone) : t.Merges 1 u :=
  ⟨h.nodes_eq, h.limits_eq.1, h.limits_eq.2, h.maxFieldCount_eq, h.merges_eq⟩

theorem mergesUsedUp?_eq_some_iff {limit : Nat} :
    t.mergesUsedUp? = some limit ↔ t.maxMerges = some limit ∧ limit ≤ t.merges := by
  unfold mergesUsedUp?
  cases t.maxMerges with
  | none => simp
  | some bound =>
      simp only [Option.ite_none_right_eq_some, Option.some.injEq]
      exact ⟨fun ⟨hle, heq⟩ => ⟨heq, heq ▸ hle⟩, fun ⟨heq, hle⟩ => ⟨heq ▸ hle, heq⟩⟩

theorem runsOut_of_mergesUsedUp? {limit : Nat} (h : t.mergesUsedUp? = some limit) :
    t.RunsOut (.resourceExceeded .merges limit) :=
  ⟨limit, (mergesUsedUp?_eq_some_iff.1 h).1, rfl⟩

end Merges

/-! ## Groups that are apart -/

section Apart

variable {t u : NodeTable} {members others : List Nat} {groups : List (List Nat)}
  {a b rep gone : Nat}

theorem Apart.tail (h : t.Apart (members :: groups)) : t.Apart groups where
  nodup := (List.nodup_append.1 (List.flatten_cons ▸ h.nodup)).2.1
  roots m hm := h.roots m (List.mem_append_right members hm)

/-- A component may be split into the groups that can be merged. -/
theorem Apart.split (h : t.Apart (members :: groups)) :
    t.Apart (t.mergeableGroups members ++ groups) where
  nodup := by
    have hnodup := h.nodup
    rw [List.flatten_cons] at hnodup
    rw [List.flatten_append]
    obtain ⟨kept, hperm, hsublist⟩ :=
      (List.subperm_append_right groups.flatten).2 (t.mergeableGroups_subperm members)
    exact hperm.nodup_iff.1 (hnodup.sublist hsublist)
  roots m hm := by
    rw [List.flatten_append, List.mem_append] at hm
    exact h.roots m (List.mem_append.2
      (hm.imp_left fun hm => (t.mergeableGroups_subperm members).subset hm))

theorem Apart.ne (h : t.Apart ((a :: b :: others) :: groups)) : a ≠ b := by
  have hflat : (a :: b :: (others ++ groups.flatten)).Nodup := h.nodup
  rintro rfl
  exact (List.nodup_cons.1 hflat).1 List.mem_cons_self

/-- The first two members of a group become one of them. -/
theorem Apart.absorbs (h : t.Apart ((a :: b :: others) :: groups)) (habs : Absorbs t u rep gone)
    (hab : rep = a ∧ gone = b ∨ rep = b ∧ gone = a) : u.Apart ((rep :: others) :: groups) := by
  have hflat : (a :: b :: (others ++ groups.flatten)).Nodup := h.nodup
  have hnodup : (rep :: (others ++ groups.flatten)).Nodup ∧
      gone ∉ rep :: (others ++ groups.flatten) := by
    simp only [List.nodup_cons, List.mem_cons, not_or] at hflat ⊢
    rcases hab with ⟨rfl, rfl⟩ | ⟨rfl, rfl⟩
    · exact ⟨⟨hflat.1.2, hflat.2.2⟩, Ne.symm hflat.1.1, hflat.2.1⟩
    · exact ⟨hflat.2, hflat.1⟩
  refine ⟨hnodup.1, fun m hm => ?_⟩
  have hold : t.root m = m ∧ m < t.size := by
    rcases List.mem_cons.1 hm with rfl | hm
    · exact ⟨habs.rep_root, habs.rep_lt⟩
    · exact h.roots m (List.mem_cons_of_mem a (List.mem_cons_of_mem b hm))
  refine ⟨habs.root_eq_iff.2 ⟨hold.1, ?_⟩, size_congr habs.nodes_eq ▸ hold.2⟩
  rintro rfl
  exact hnodup.2 hm

end Apart

/-! ## Groups that can be merged -/

section Joinable

variable {t : NodeTable} {members others : List Nat} {groups later : List (List Nat)} {a b : Nat}

/-- The groups of a component lack a kind of special node each. -/
theorem clashFree_of_mem_mergeableGroups (hlt : ∀ m ∈ members, m < t.size) {g : List Nat}
    (hg : g ∈ t.mergeableGroups members) : t.ClashFree g := by
  have hspecial : ∀ m ∈ g, t.special? m = (t.factsOf m).special := fun m hm =>
    if_pos (contains_iff.2 (hlt m (mem_of_mem_mergeableGroups hg hm)))
  obtain ⟨piece, hpiece, _, rfl⟩ := mem_mergeableGroups.1 hg
  have hmem : ∀ m, m ∈ ascending piece → m ∈ piece := fun m => (ascending_perm piece).mem_iff.1
  by_cases hnull : ∃ a ∈ piece, t.special? a = some .null
  · obtain ⟨a, ha, hak⟩ := hnull
    refine ⟨.universal, fun m hm => ?_⟩
    rw [← hspecial m hm]
    exact not_special?_of_mem_piece hpiece ha (hmem m hm) hak
  · refine ⟨.null, fun m hm hk => hnull ⟨m, hmem m hm, ?_⟩⟩
    rw [hspecial m hm, hk]

/-- Classes that nothing can point to hold no special node. -/
theorem Coherent.clashFree (ht : t.Coherent) {g : List Nat}
    (hg : ∀ m ∈ g, m < t.size ∧ t.hasPointee m = false) : t.ClashFree g := by
  refine ⟨.null, fun m hm hk => ?_⟩
  obtain ⟨hlt, hclosed⟩ := hg m hm
  obtain ⟨n, hroot, node, hnode, hkind⟩ := ht.holdsSpecial m _ hk
  have hpointee : t.isPointee n = true := by simp [isPointee, hnode, Node.isPointee, hkind]
  have hfacts := ht.hasPointee n hpointee
  rw [factsOf_congr hroot] at hfacts
  rw [NodeTable.hasPointee, hfacts, contains_iff.2 hlt] at hclosed
  cases hclosed

/-- The next component is split into groups that can be merged. -/
theorem Joinable.split (h : t.Joinable [] (members :: later)) :
    t.Joinable (t.mergeableGroups members) later where
  coherent := h.coherent
  apart := h.apart.split
  clashFree _ := clashFree_of_mem_mergeableGroups fun m hm =>
    (h.apart.roots m (List.mem_append_left later.flatten hm)).2

theorem Joinable.tail {g : List Nat} (h : t.Joinable (g :: groups) later) :
    t.Joinable groups later where
  coherent := h.coherent
  apart := h.apart.tail
  clashFree g' hg' := h.clashFree g' (List.mem_cons_of_mem g hg')

/-- The class that two members have become lacks what both of them did. -/
theorem Joinable.absorbs {u : NodeTable} {rep gone : Nat}
    (h : t.Joinable ((a :: b :: others) :: groups) later) (habs : Absorbs t u rep gone)
    (hab : rep = a ∧ gone = b ∨ rep = b ∧ gone = a)
    (hclash : (t.factsOf a).clash? (t.factsOf b) = none)
    (hfacts : ∀ n, u.factsOf n =
      if t.root n = a ∨ t.root n = b then (t.factsOf a).join (t.factsOf b) else t.factsOf n) :
    u.Joinable ((rep :: others) :: groups) later where
  coherent := habs.coherent
  apart := by
    have hapart : t.Apart ((a :: b :: others) :: (groups ++ later)) := h.apart
    exact hapart.absorbs habs hab
  clashFree g hg := by
    rcases List.mem_cons.1 hg with rfl | hg
    · obtain ⟨k, hk⟩ := h.clashFree _ List.mem_cons_self
      have ha := hk a List.mem_cons_self
      have hb := hk b (List.mem_cons_of_mem a List.mem_cons_self)
      refine ⟨k, fun m hm => ?_⟩
      rw [hfacts]
      split
      next => exact fun heq => ((ClassFacts.special_join hclash).1 heq).elim ha hb
      next =>
        rcases List.mem_cons.1 hm with rfl | hm
        · rcases hab with ⟨rfl, _⟩ | ⟨rfl, _⟩
          · exact ha
          · exact hb
        · exact hk m (List.mem_cons_of_mem a (List.mem_cons_of_mem b hm))
    · have hflat : (a :: b :: (others ++ (groups ++ later).flatten)).Nodup := h.apart.nodup
      obtain ⟨k, hk⟩ := h.clashFree g (List.mem_cons_of_mem _ hg)
      refine ⟨k, fun m hm => ?_⟩
      have hmem : m ∈ others ++ (groups ++ later).flatten :=
        List.mem_append_right others (List.mem_flatten_of_mem (List.mem_append_left later hg) hm)
      have hroot := (h.apart.roots m (List.mem_cons_of_mem a (List.mem_cons_of_mem b hmem))).1
      rw [hfacts, hroot, if_neg]
      · exact hk m hm
      · simp only [List.nodup_cons, List.mem_cons, not_or] at hflat
        rintro (rfl | rfl)
        · exact hflat.1.2 hmem
        · exact hflat.2.1 hmem

/-- The first two members of a group are joined unless the bound is used up. -/
theorem Joinable.merge (h : t.Joinable ((a :: b :: others) :: groups) later) :
    (∃ rep u, t.merge a b = .ok (rep, u) ∧ u.Joinable ((rep :: others) :: groups) later ∧
        t.Merges 1 u) ∨
      ∃ limit, t.mergesUsedUp? = some limit ∧
        t.merge a b = .error (.resourceExceeded .merges limit) := by
  have hapart : t.Apart ((a :: b :: others) :: (groups ++ later)) := h.apart
  have hne := hapart.ne
  obtain ⟨hra, ha⟩ := h.apart.roots a List.mem_cons_self
  obtain ⟨hrb, hb⟩ := h.apart.roots b (List.mem_cons_of_mem a List.mem_cons_self)
  have hclash : (t.factsOf a).clash? (t.factsOf b) = none := by
    obtain ⟨k, hk⟩ := h.clashFree _ List.mem_cons_self
    exact ClassFacts.clash?_eq_none (hk a List.mem_cons_self)
      (hk b (List.mem_cons_of_mem a List.mem_cons_self))
  rw [NodeTable.merge, hra, hrb, if_neg hne, hclash]
  dsimp only
  cases hused : t.mergesUsedUp? with
  | some limit => exact .inr ⟨limit, rfl, rfl⟩
  | none =>
      have hroots : t.sets.Apart a b := ⟨hne, h.coherent.sets_size.symm ▸ ha,
        h.coherent.sets_size.symm ▸ hb, hra, hrb⟩
      have habs := h.coherent.join_absorbs hroots
      exact .inl ⟨_, _, rfl, h.absorbs habs (t.sets.link_cases hne) hclash
        (h.coherent.factsOf_join hroots), habs.merges⟩

end Joinable

/-! ## Loops -/

section Loops

variable {σ α : Type} {table : σ → NodeTable} {join : Nat → Nat → Action σ Nat} {s : σ}

/-- The action merges two classes in the table of its state. -/
def Joins (table : σ → NodeTable) (join : Nat → Nat → Action σ Nat) : Prop :=
  ∀ a b s, Action.Ends (join a b) s (fun rep t => (table s).merge a b = .ok (rep, table t))
    (fun e _ => (table s).merge a b = .error e)

/-- The class merged so far and the next member are joined unless the bound is used up. -/
theorem Joins.merge (hjoin : Joins table join) {a b : Nat} {others : List Nat}
    {groups later : List (List Nat)}
    (h : (table s).Joinable ((a :: b :: others) :: groups) later) :
    Action.Ends (join a b) s
      (fun rep t => (table t).Joinable ((rep :: others) :: groups) later ∧
        (table s).Merges 1 (table t))
      (fun e _ => ∃ limit, (table s).mergesUsedUp? = some limit ∧
        e = .resourceExceeded .merges limit) := by
  refine (hjoin a b s).imp (fun rep t hok => ?_) fun e _ herror => ?_
  · rcases h.merge with ⟨_, _, hmerge, ht, hone⟩ | ⟨_, _, hmerge⟩
    · cases hmerge.symm.trans hok
      exact ⟨ht, hone⟩
    · cases hmerge.symm.trans hok
  · rcases h.merge with ⟨_, _, hmerge, _⟩ | ⟨limit, hused, hmerge⟩
    · cases hmerge.symm.trans herror
    · cases hmerge.symm.trans herror
      exact ⟨limit, hused, rfl⟩

/-- A group is merged completely unless the bound is used up on the way. -/
theorem Joins.foldlM (hjoin : Joins table join) {first : Nat} {others : List Nat}
    {groups later : List (List Nat)}
    (h : (table s).Joinable ((first :: others) :: groups) later) :
    Action.Ends (others.foldlM join first) s
      (fun _ t => (table t).Joinable groups later ∧ (table s).Merges others.length (table t))
      (fun e _ => (table s).RunsOut e) := by
  refine (Action.ends_foldlM (fun rest rep t =>
      (table t).Joinable ((rep :: rest) :: groups) later ∧
        ∃ count, count + rest.length = others.length ∧ (table s).Merges count (table t)) ?_
    ⟨h, 0, Nat.zero_add _, .refl _⟩).imp_ok ?_
  · rintro b rest rep t ⟨ht, count, hcount, hmerges⟩
    refine (hjoin.merge ht).imp ?_ ?_
    · rintro rep' u ⟨hu, hone⟩
      refine ⟨hu, count + 1, ?_, hmerges.trans hone⟩
      rw [← hcount, List.length_cons]
      omega
    · rintro e _ ⟨limit, hused, rfl⟩
      exact hmerges.runsOut (runsOut_of_mergesUsedUp? hused)
  · rintro rep t ⟨ht, count, hcount, hmerges⟩
    obtain rfl : count = others.length := hcount
    exact ⟨ht.tail, hmerges⟩

/-- A loop that adds up what its body has merged for each element. -/
theorem foldlM_merges (table : σ → NodeTable) {body : α → Action σ Nat}
    (I : List α → NodeTable → Prop)
    (hbody : ∀ x rest t, I (x :: rest) (table t) →
      Action.Ends (body x) t (fun n u => I rest (table u) ∧ (table t).Merges n (table u))
        fun e _ => (table t).RunsOut e) {xs : List α} (h : I xs (table s)) :
    Action.Ends (xs.foldlM (fun count x => do return count + (← body x)) 0) s
      (fun n t => I [] (table t) ∧ (table s).Merges n (table t))
      fun e _ => (table s).RunsOut e := by
  refine Action.ends_foldlM
    (fun rest count t => I rest (table t) ∧ (table s).Merges count (table t)) ?_ ⟨h, .refl _⟩
  rintro x rest count t ⟨ht, hmerges⟩
  refine Action.Ends.bind ((hbody x rest t ht).imp_error fun _ _ => hmerges.runsOut) ?_
  exact fun n u ⟨hu, hmerges'⟩ => ⟨hu, hmerges.trans hmerges'⟩

end Loops

end NodeTable

end PointsTo
