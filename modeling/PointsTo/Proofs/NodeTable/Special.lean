import PointsTo.Proofs.Components
import PointsTo.Proofs.Grouping
import PointsTo.Proofs.NodeTable

/-!
# Special nodes keep classes apart

A class of a reachable table holds special nodes of one kind at most, since
every merge has looked for a clash. So the kind that is recorded for a class is
the kind it holds, and two classes of a cycle that end up in different groups
are, or are merged with, a class with a null node and one with a node of unknown
memory.
-/

namespace PointsTo

namespace Special

@[simp] theorem other_other (k : Special) : k.other.other = k := by cases k <;> rfl

theorem other_ne (k : Special) : k.other ≠ k := by cases k <;> decide

theorem eq_or_eq_other (k l : Special) : k = l ∨ k = l.other := by cases k <;> cases l <;> decide

end Special

/-- Without a clash a joined class is known to hold what either of the two was. -/
theorem ClassFacts.special_join {f g : ClassFacts} {k : Special} (h : f.clash? g = none) :
    (f.join g).special = some k ↔ f.special = some k ∨ g.special = some k := by
  obtain ⟨f, _⟩ := f
  obtain ⟨g, _⟩ := g
  cases f <;> cases g <;> simp_all [ClassFacts.join, ClassFacts.clash?]

namespace NodeTable

/-- The classes of `a` and `b` hold special nodes of different kinds. -/
def Opposed (t : NodeTable) (a b : Nat) : Prop :=
  ∃ k, t.HoldsSpecial a k ∧ t.HoldsSpecial b k.other

section Opposed

variable {t u : NodeTable} {a b : Nat} {k : Special}

theorem Opposed.mono (h : t.Opposed a b) (hnodes : u.nodes = t.nodes)
    (hclasses : ∀ m n, t.root m = t.root n → u.root m = u.root n) : u.Opposed a b := by
  obtain ⟨k, ha, hb⟩ := h
  exact ⟨k, ha.mono hnodes hclasses, hb.mono hnodes hclasses⟩

theorem HoldsSpecial.congr (h : t.HoldsSpecial a k) (hab : t.root a = t.root b) :
    t.HoldsSpecial b k := by
  obtain ⟨m, hm, hspecial⟩ := h
  exact ⟨m, hm.trans hab, hspecial⟩

theorem Opposed.congr {c d : Nat} (h : t.Opposed a b) (hac : t.root a = t.root c)
    (hbd : t.root b = t.root d) : t.Opposed c d := by
  obtain ⟨k, ha, hb⟩ := h
  exact ⟨k, ha.congr hac, hb.congr hbd⟩

theorem Coherent.holdsSpecial_of_special? (ht : t.Coherent) (h : t.special? a = some k) :
    t.HoldsSpecial a k := by
  rw [special?] at h
  split at h
  next => exact ht.holdsSpecial a k h
  next => cases h

end Opposed

/-! ## The recorded kind -/

section Reachable

variable {t : NodeTable} {n : Nat} {k l : Special}

/-- Every kind that a class holds is recorded for it. -/
def Faithful (t : NodeTable) : Prop := ∀ n k, t.HoldsSpecial n k → (t.factsOf n).special = some k

theorem Faithful.append (h : t.Faithful) (ht : t.Coherent) (kind : NodeKind) :
    (t.append kind).Faithful := by
  intro n k hn
  rw [ht.factsOf_append]
  rcases ht.holdsSpecial_append.1 hn with ⟨hsize, hkind⟩ | ⟨hsize, hn⟩
  · rw [if_pos hsize]
    exact special?_eq_some_iff.2 hkind
  · rw [if_neg hsize]
    exact h n k hn

theorem Faithful.merge {u : NodeTable} {a b rep : Nat} (h : t.Faithful) (ht : t.Coherent)
    (ha : a < t.size) (hb : b < t.size) (hmerge : t.merge a b = .ok (rep, u)) : u.Faithful := by
  rcases merge_eq_ok hmerge with ⟨_, _, rfl⟩ | ⟨hne, hclash, _, hjoin⟩
  · exact h
  obtain rfl : (t.join (t.root a) (t.root b)).2 = u := by rw [hjoin]
  have hra := ht.root_root a
  have hrb := ht.root_root b
  have hfacts := ht.factsOf_join (ht.apart ha hb hne)
  rintro n k ⟨m, hm, hspecial⟩
  have hold : (t.factsOf m).special = some k := h m k ⟨m, rfl, hspecial⟩
  have hfacts' : ((t.join (t.root a) (t.root b)).2.factsOf m).special = some k := by
    rw [hfacts, factsOf_congr hra, factsOf_congr hrb]
    split
    next hab =>
      refine (ClassFacts.special_join hclash).2 (hab.imp (fun h => ?_) fun h => ?_)
      · rwa [← factsOf_congr h]
      · rwa [← factsOf_congr h]
    next => exact hold
  rwa [← factsOf_congr hm]

theorem faithful_withLimits (maxNodes maxMerges : Option Nat) :
    (withLimits maxNodes maxMerges).Faithful := by
  rintro n k ⟨m, _, hspecial⟩
  exact absurd (lt_size_of_isSpecial hspecial) (Nat.not_lt_zero m)

theorem Reachable.faithful (ht : t.Reachable) : t.Faithful :=
  ht.of_kept faithful_withLimits (fun _ _ h => h) (fun _ _ h => h)
    (fun _ kind ht h => h.append ht kind) fun _ _ _ _ _ ht ha hb hmerge h => h.merge ht ha hb hmerge

theorem Reachable.special?_eq_some_iff (ht : t.Reachable) :
    t.special? n = some k ↔ t.HoldsSpecial n k := by
  refine ⟨ht.wellFormed.toCoherent.holdsSpecial_of_special?, fun h => ?_⟩
  have hn : t.contains n = true := by
    obtain ⟨m, hm, hspecial⟩ := h
    rw [contains_iff]
    by_contra hge
    have hlt := ht.wellFormed.root_lt (lt_size_of_isSpecial hspecial)
    rw [hm, ht.wellFormed.root_of_size_le (Nat.le_of_not_lt hge)] at hlt
    exact hge hlt
  rw [special?, if_pos hn]
  exact ht.faithful n k h

/-- No class holds special nodes of different kinds. -/
theorem Reachable.special_unique (ht : t.Reachable) (h : t.HoldsSpecial n k)
    (h' : t.HoldsSpecial n l) : k = l :=
  Option.some.inj ((ht.faithful n k h).symm.trans (ht.faithful n l h'))

theorem Reachable.not_holdsSpecial_other (ht : t.Reachable) (h : t.HoldsSpecial n k) :
    ¬t.HoldsSpecial n k.other :=
  fun h' => k.other_ne (ht.special_unique h' h)

/-- No class is opposed to itself. -/
theorem Reachable.root_ne_of_opposed (ht : t.Reachable) {a b : Nat} (h : t.Opposed a b) :
    t.root a ≠ t.root b := by
  obtain ⟨k, ha, hb⟩ := h
  exact fun hab => ht.not_holdsSpecial_other (ha.congr hab) hb

/-- There are but two kinds, so no three classes are opposed to each other. -/
theorem Reachable.not_opposed (ht : t.Reachable) {a b c : Nat} (hab : t.Opposed a b)
    (hac : t.Opposed a c) : ¬t.Opposed b c := by
  obtain ⟨k, ha, hb⟩ := hab
  obtain ⟨l, ha', hc⟩ := hac
  rintro ⟨m, hb', hc'⟩
  obtain rfl := ht.special_unique ha' ha
  obtain rfl := ht.special_unique hb' hb
  exact ht.not_holdsSpecial_other hc hc'

end Reachable

/-! ## Groups -/

section Groups

variable {t : NodeTable} {members piece g : List Nat} {a b : Nat} {k : Special}

/-- The parts into which a cycle is split, before those of a single member are
left out. -/
def pieces (t : NodeTable) (members : List Nat) : List (List Nat) :=
  match members.findSome? t.special? with
  | none => [members]
  | some first =>
    [members.filter (t.special? · != some first.other),
      members.filter (t.special? · == some first.other)]

theorem mem_mergeableGroups :
    g ∈ t.mergeableGroups members ↔
      ∃ piece ∈ t.pieces members, 1 < piece.length ∧ ascending piece = g := by
  have heq : t.mergeableGroups members =
      ((t.pieces members).filter (1 < ·.length)).map ascending := rfl
  simp only [heq, List.mem_map, List.mem_filter, decide_eq_true_eq, and_assoc]

theorem one_lt_length_of_mem_mergeableGroups (hg : g ∈ t.mergeableGroups members) :
    1 < g.length := by
  obtain ⟨piece, _, hlen, rfl⟩ := mem_mergeableGroups.1 hg
  rwa [(ascending_perm piece).length_eq]

/-- The two are the same, or one group holds them both. -/
def Linked (t : NodeTable) (members : List Nat) (a b : Nat) : Prop :=
  a = b ∨ ∃ g ∈ t.mergeableGroups members, a ∈ g ∧ b ∈ g

theorem linked_of_mem_piece (hpiece : piece ∈ t.pieces members) (ha : a ∈ piece)
    (hb : b ∈ piece) : t.Linked members a b := by
  by_cases hne : a = b
  · exact .inl hne
  · have hperm := ascending_perm piece
    exact .inr ⟨_, mem_mergeableGroups.2 ⟨piece, hpiece, one_lt_length_of_ne ha hb hne, rfl⟩,
      hperm.mem_iff.2 ha, hperm.mem_iff.2 hb⟩

/-- Two members of a cycle are linked, or they are linked to members whose classes hold
different kinds of special nodes. -/
theorem linked_or_opposed (ha : a ∈ members) (hb : b ∈ members) :
    t.Linked members a b ∨ ∃ c d k, t.Linked members a c ∧ t.Linked members b d ∧
      t.special? c = some k ∧ t.special? d = some k.other := by
  cases hfirst : members.findSome? t.special? with
  | none =>
      have hpiece : members ∈ t.pieces members := by simp [pieces, hfirst]
      exact .inl (linked_of_mem_piece hpiece ha hb)
  | some first =>
      obtain ⟨c, hc, hspecial⟩ := List.exists_of_findSome?_eq_some hfirst
      have hfront : members.filter (t.special? · != some first.other) ∈ t.pieces members := by
        simp [pieces, hfirst]
      have hback : members.filter (t.special? · == some first.other) ∈ t.pieces members := by
        simp [pieces, hfirst]
      have hmem : ∀ x ∈ members, t.special? x ≠ some first.other →
          x ∈ members.filter (t.special? · != some first.other) :=
        fun x hx hother => List.mem_filter.2 ⟨hx, bne_iff_ne.2 hother⟩
      have hmem' : ∀ x ∈ members, t.special? x = some first.other →
          x ∈ members.filter (t.special? · == some first.other) :=
        fun x hx hother => List.mem_filter.2 ⟨hx, beq_iff_eq.2 hother⟩
      have hco : t.special? c ≠ some first.other := by
        rw [hspecial]
        exact fun heq => first.other_ne (Option.some.inj heq).symm
      -- the first part holds `c` besides
      have hplain : ∀ x ∈ members, t.special? x ≠ some first.other → t.Linked members x c :=
        fun x hx hother => linked_of_mem_piece hfront (hmem x hx hother) (hmem c hc hco)
      by_cases hao : t.special? a = some first.other <;>
        by_cases hbo : t.special? b = some first.other
      · exact .inl (linked_of_mem_piece hback (hmem' a ha hao) (hmem' b hb hbo))
      · refine .inr ⟨a, c, first.other, .inl rfl, hplain b hb hbo, hao, ?_⟩
        rw [hspecial, Special.other_other]
      · exact .inr ⟨c, b, first, hplain a ha hao, .inl rfl, hspecial, hbo⟩
      · exact .inl (linked_of_mem_piece hfront (hmem a ha hao) (hmem b hb hbo))

/-- Of two members of a cycle one is in a group, or their classes hold different
kinds of special nodes. -/
theorem mergeableGroups_cover (ha : a ∈ members) (hb : b ∈ members) (hne : a ≠ b) :
    (∃ g ∈ t.mergeableGroups members, a ∈ g ∨ b ∈ g) ∨
      ∃ k, t.special? a = some k ∧ t.special? b = some k.other := by
  rcases linked_or_opposed ha hb (t := t) with hab | ⟨c, d, k, hac, hbd, hc, hd⟩
  · obtain ⟨g, hg, hag, _⟩ := hab.resolve_left hne
    exact .inl ⟨g, hg, .inl hag⟩
  · rcases hac with rfl | ⟨g, hg, hag, _⟩
    · rcases hbd with rfl | ⟨g, hg, hbg, _⟩
      · exact .inr ⟨k, hc, hd⟩
      · exact .inl ⟨g, hg, .inr hbg⟩
    · exact .inl ⟨g, hg, .inl hag⟩

/-- No two members of one part hold different kinds. -/
theorem not_special?_of_mem_piece (hpiece : piece ∈ t.pieces members) (ha : a ∈ piece)
    (hb : b ∈ piece) (hak : t.special? a = some k) : t.special? b ≠ some k.other := by
  intro hbk
  rw [pieces] at hpiece
  split at hpiece
  next hnone =>
    rw [List.mem_singleton.1 hpiece] at ha
    rw [List.findSome?_eq_none_iff.1 hnone a ha] at hak
    cases hak
  next first _ =>
    simp only [List.mem_cons, List.not_mem_nil, or_false] at hpiece
    rcases hpiece with rfl | rfl <;>
      simp only [List.mem_filter, bne_iff_ne, beq_iff_eq, hak, hbk, ne_eq, Option.some.injEq]
        at ha hb
    · rcases first.eq_or_eq_other k with rfl | rfl
      · exact hb.2 rfl
      · exact ha.2 (Special.other_other k).symm
    · exact k.other_ne (hb.2.trans ha.2.symm)

/-- Nothing is merged of a cycle if any two of its members hold different kinds. -/
theorem mergeableGroups_eq_nil (hnodup : members.Nodup)
    (hspecial : ∀ a ∈ members, ∀ b ∈ members, a ≠ b →
      ∃ k, t.special? a = some k ∧ t.special? b = some k.other) :
    t.mergeableGroups members = [] := by
  refine List.eq_nil_iff_forall_not_mem.2 fun g hg => ?_
  have hsub := fun m => mem_of_mem_mergeableGroups hg (m := m)
  obtain ⟨piece, hpiece, hlen, rfl⟩ := mem_mergeableGroups.1 hg
  have hperm := ascending_perm piece
  have hpieceNodup : piece.Nodup := by
    rw [pieces] at hpiece
    split at hpiece
    next => rwa [List.mem_singleton.1 hpiece]
    next =>
      simp only [List.mem_cons, List.not_mem_nil, or_false] at hpiece
      rcases hpiece with rfl | rfl <;> exact hnodup.filter _
  obtain ⟨a, ha⟩ : ∃ a, a ∈ piece := List.exists_mem_of_length_pos (Nat.lt_of_succ_lt hlen)
  obtain ⟨b, hb, hne⟩ := Digraph.exists_ne_of_nodup hpieceNodup hlen a
  obtain ⟨k, hak, hbk⟩ :=
    hspecial a (hsub a (hperm.mem_iff.2 ha)) b (hsub b (hperm.mem_iff.2 hb)) hne
  exact not_special?_of_mem_piece hpiece ha hb hak hbk

end Groups

/-- Two variables `0` and `1`, a null node `2` and a node `3` of unknown memory. -/
def mixed : NodeTable :=
  ((((withLimits none none).append .value).append .value).append (.special .null)).append
    (.special .universal)

theorem reachable_mixed : mixed.Reachable := by
  have hfirst : (withLimits none none).addValue =
      .ok (0, (withLimits none none).append .value) := rfl
  have hsecond : ((withLimits none none).append .value).addValue =
      .ok (1, ((withLimits none none).append .value).append .value) := rfl
  have hnull : (((withLimits none none).append .value).append .value).addSpecial .null =
      .ok (2, (((withLimits none none).append .value).append .value).append (.special .null)) :=
    rfl
  have huniversal : ((((withLimits none none).append .value).append .value).append
      (.special .null)).addSpecial .universal = .ok (3, mixed) := rfl
  exact .addSpecial (.addSpecial (.addValue (.addValue (.empty none none) hfirst) hsecond) hnull)
    huniversal

end NodeTable

end PointsTo
