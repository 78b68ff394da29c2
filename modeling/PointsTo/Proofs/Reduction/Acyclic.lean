import PointsTo.Config.Preset
import PointsTo.Proofs.Components.Exact
import PointsTo.Proofs.Reduction.Passes

/-!
# No copy cycles are left

The cycle pass runs once, before the rounds that join classes with equal inputs, and
still no cycle of copies is left in the end but those between a class with a null
node and one with a node of unknown memory, which cannot be joined.

The pass itself joins only classes that lead to each other. So whatever leads to each
other afterwards did so before, was on a common cycle, and has been joined unless it
could not be. As for a round, a copy into one of the classes that it joins has a
counterpart into each of them, because their inputs are equal. A path between joined
classes therefore comes from one member of the class where it starts and leads to
every member of the class where it ends. Two classes that lead to each other after
the round have members that did so before it.
-/

namespace PointsTo

namespace Reduction

open NodeTable Relation

/-- Copies lead from the class of `a` to the class of `b`. -/
def Reaches (t : NodeTable) (cs : List Constraint) (a b : Nat) : Prop :=
  ReflTransGen (CopiesTo (resolveAll t cs)) (t.root a) (t.root b)

/-- Classes that lead to each other are the same, or they hold different kinds of special
nodes. -/
def Untangled (t : NodeTable) (cs : List Constraint) : Prop :=
  ∀ a b, Reaches t cs a b → Reaches t cs b a → t.root a = t.root b ∨ t.Opposed a b

/-- The classes on a common cycle with that of `a`. -/
def cycleOf (t : NodeTable) (cs : List Constraint) (a : Nat) : Set Nat :=
  {b | Reaches t cs a b ∧ Reaches t cs b a}

/-- The classes that are copied into that of `a`. -/
def sourcesOf (t : NodeTable) (cs : List Constraint) (a : Nat) : Set Nat :=
  {p | CopiesTo (resolveAll t cs) p (t.root a)}

section Reaches

variable {t u : NodeTable} {cs : List Constraint} {a b c : Nat}

theorem Reaches.of_root_eq (h : t.root a = t.root b) : Reaches t cs a b := by
  rw [Reaches, h]

theorem Reaches.trans (h : Reaches t cs a b) (h' : Reaches t cs b c) : Reaches t cs a c :=
  ReflTransGen.trans h h'

theorem copiesTo_resolveAll :
    CopiesTo (resolveAll t cs) a b ↔
      ∃ c ∈ cs, c.kind = .copy ∧ t.root c.dest = b ∧ t.root c.src = a := by
  simp only [CopiesTo, resolveAll, List.mem_map]
  constructor
  · rintro ⟨_, ⟨c, hc, rfl⟩, hkind, rfl, rfl⟩
    have hkind' : c.kind = .copy := hkind
    exact ⟨c, hc, hkind', rfl, by simp [resolve, hkind']⟩
  · rintro ⟨c, hc, hkind, rfl, rfl⟩
    exact ⟨_, ⟨c, hc, rfl⟩, hkind, rfl, by simp [resolve, hkind]⟩

theorem cycleOf_eq_iff :
    cycleOf t cs a = cycleOf t cs b ↔ Reaches t cs a b ∧ Reaches t cs b a := by
  constructor
  · intro h
    have hmem : b ∈ cycleOf t cs a := by
      rw [h]
      exact ⟨.of_root_eq rfl, .of_root_eq rfl⟩
    exact hmem
  · rintro ⟨hab, hba⟩
    ext m
    exact ⟨fun hm => ⟨hba.trans hm.1, hm.2.trans hab⟩, fun hm => ⟨hab.trans hm.1, hm.2.trans hba⟩⟩

/-- What leads to each other in the end did so before if joined classes did. -/
theorem Reaches.of_joined (hjoined : ∀ a b, u.root a = u.root b → Reaches t cs a b)
    (h : Reaches u cs a b) : Reaches t cs a b := by
  have hpath : ∀ y, ReflTransGen (CopiesTo (resolveAll u cs)) (u.root a) y →
      ∀ b, u.root b = y → Reaches t cs a b := by
    intro y hy
    induction hy with
    | refl => exact fun b hb => hjoined a b hb.symm
    | tail _ hstep ih =>
        obtain ⟨c, hc, hkind, rfl, rfl⟩ := copiesTo_resolveAll.1 hstep
        intro b hb
        have hcopy : Reaches t cs c.src c.dest :=
          .single (copiesTo_resolveAll.2 ⟨c, hc, hkind, rfl, rfl⟩)
        exact ((ih c.src rfl).trans hcopy).trans (hjoined c.dest b hb.symm)
  exact hpath _ h b rfl

/-- If joined classes have the same copies into them, a path between two classes comes from
a member of the first and leads to every member of the second. -/
theorem Reaches.exists_start
    (hjoined : ∀ a b, u.root a = u.root b → sourcesOf t cs a = sourcesOf t cs b)
    (h : Reaches u cs a b) :
    u.root a = u.root b ∨
      ∃ p, u.root p = u.root a ∧ ∀ q, u.root q = u.root b → Reaches t cs p q := by
  have hpath : ∀ y, ReflTransGen (CopiesTo (resolveAll u cs)) (u.root a) y →
      u.root a = y ∨ ∃ p, u.root p = u.root a ∧ ∀ q, u.root q = y → Reaches t cs p q := by
    intro y hy
    induction hy with
    | refl => exact .inl rfl
    | tail _ hstep ih =>
        obtain ⟨c, hc, hkind, rfl, rfl⟩ := copiesTo_resolveAll.1 hstep
        have hcopy : ∀ q, u.root q = u.root c.dest → Reaches t cs c.src q := by
          intro q hq
          have hmem : t.root c.src ∈ sourcesOf t cs q := by
            rw [hjoined q c.dest hq]
            exact copiesTo_resolveAll.2 ⟨c, hc, hkind, rfl, rfl⟩
          exact .single hmem
        rcases ih with hstart | ⟨p, hp, hall⟩
        · exact .inr ⟨c.src, hstart.symm, hcopy⟩
        · exact .inr ⟨p, hp, fun q hq => (hall c.src rfl).trans (hcopy q hq)⟩
  exact hpath _ h

end Reaches

/-! ## Passes -/

section Passes

variable {t u : NodeTable} {cs ds : List Constraint} {a b : Nat}

/-- The search for cycles finds all of them. -/
theorem exists_copyCycle (hab : ReflTransGen (CopiesTo ds) a b)
    (hba : ReflTransGen (CopiesTo ds) b a) (hne : a ≠ b) :
    ∃ cycle ∈ copyCycles ds, a ∈ cycle ∧ b ∈ cycle := by
  rw [← reach_copyEdges_iff] at hab hba
  have hstart : a ∈ (NodeSet.ofList ((copyEdges ds).map (·.1))).elements := by
    rcases ReflTransGen.cases_head hab with heq | ⟨c, hac, _⟩
    · exact absurd heq hne
    · exact NodeSet.mem_ofList.2
        (List.mem_map.2 ⟨(a, c), Digraph.mem_successors_ofEdges.1 hac, rfl⟩)
  exact Digraph.components_complete (Digraph.fathoms_ofEdges _ _) hstart .refl hab hba hne

theorem collapseCycles_untangles (ht : t.WellFormed)
    (hcs : ∀ c ∈ resolveAll t cs, c.src < t.size) :
    Action.Ends (collapseCycles (resolveAll t cs)) t (fun _ u => Untangled u cs)
      (fun _ _ => True) := by
  have hstart : t.Fuses (cycleOf t cs) t := .refl ht fun a b hab =>
    cycleOf_eq_iff.2 ⟨.of_root_eq hab, .of_root_eq hab.symm⟩
  have hcycles : ∀ cycle ∈ copyCycles (resolveAll t cs), Alike (cycleOf t cs) t cycle := by
    intro cycle hcycle
    have hnode : ∀ a ∈ cycle, a < t.size ∧ t.root a = a := by
      intro a ha
      obtain ⟨b, c, hc, hkind, _, rfl⟩ := exists_copiesTo_of_mem_copyCycles hcycle ha
      exact ⟨hcs c hc, (root_of_mem_resolveAll ht.toCoherent hc).2 (by simp [hkind])⟩
    have hleads : ∀ a ∈ cycle, ∀ b ∈ cycle, Reaches t cs a b := by
      intro a ha b hb
      rw [Reaches, (hnode a ha).2, (hnode b hb).2]
      exact copyCycles_connected hcycle ha hb
    exact fun a ha => ⟨(hnode a ha).1, fun b hb =>
      cycleOf_eq_iff.2 ⟨hleads a ha b hb, hleads b hb a ha⟩⟩
  refine (collapseCycles_fuses hstart hcycles).imp (fun _ u hu a b hab hba => ?_)
    fun _ _ _ => trivial
  obtain ⟨hu, hunited, _⟩ := hu
  have hjoined : ∀ a b, u.root a = u.root b → Reaches t cs a b := fun a b heq =>
    (cycleOf_eq_iff.1 (hu.agrees a b heq)).1
  by_cases heq : t.root a = t.root b
  · exact .inl (hu.coarsens.classes a b heq)
  · obtain ⟨cycle, hcycle, ha, hb⟩ :=
      exists_copyCycle (hab.of_joined hjoined) (hba.of_joined hjoined) heq
    have hroot := hu.coarsens.root_root ht.toCoherent
    refine (hunited cycle hcycle _ ha _ hb).imp (fun heq => ?_) fun hopposed => ?_
    · rwa [hroot, hroot] at heq
    · exact hopposed.congr (hroot a) (hroot b)

/-- A round makes no new cycles. -/
theorem mergeEqual_untangles (ht : t.WellFormed) (hcs : ∀ c ∈ resolveAll t cs, c.dest < t.size)
    (h : Untangled t cs) :
    Action.Ends (mergeEqual (resolveAll t cs)) t (fun _ u => Untangled u cs)
      (fun _ _ => True) := by
  have hstart : t.Fuses (sourcesOf t cs) t := .refl ht fun a b hab => by
    rw [sourcesOf, sourcesOf, hab]
  have hgroups : ∀ g ∈ equalGroups t (resolveAll t cs), Alike (sourcesOf t cs) t g := by
    intro g hg
    obtain ⟨key, hkey⟩ := exists_inputs_of_mem_equalGroups hg
    have hnode : ∀ a ∈ g, a < t.size ∧ t.root a = a := by
      intro a ha
      obtain ⟨c, hc, rfl⟩ := exists_dest_of_mem_equalGroups hg ha
      exact ⟨hcs c hc, (root_of_mem_resolveAll ht.toCoherent hc).1⟩
    refine fun a ha => ⟨(hnode a ha).1, fun b hb => ?_⟩
    ext p
    simp only [sourcesOf, Set.mem_ofPred_eq, (hnode a ha).2, (hnode b hb).2,
      ← mem_copies_inputsOf, (hkey a ha).2, (hkey b hb).2]
  rw [mergeEqual, Action.ends_bind, Action.ends_get]
  refine (mergeGroups_fuses hstart hgroups).imp (fun _ u hu a b hab hba => ?_)
    fun _ _ _ => trivial
  obtain ⟨hu, _⟩ := hu
  rcases hab.exists_start hu.agrees with heq | ⟨p, hp, hfrom⟩
  · exact .inl heq
  rcases hba.exists_start hu.agrees with heq | ⟨q, hq, hfrom'⟩
  · exact .inl heq.symm
  · refine (h p q (hfrom q hq) (hfrom' p hp)).imp (fun heq => ?_) fun hopposed => ?_
    · exact hp.symm.trans ((hu.coarsens.classes p q heq).trans hq)
    · exact (hu.coarsens.opposed hopposed).congr hp hq

end Passes

/-! ## What is left -/

section Acyclic

variable {t u : NodeTable} {config : Config} {cs ds : List Constraint} {stats : ReductionStats}
  {a b : Nat}

theorem copiesTo_tidy :
    CopiesTo (tidy cs).kept a b ↔ CopiesTo cs a b ∧ a ≠ b := by
  simp only [CopiesTo, mem_kept_tidy]
  constructor
  · rintro ⟨c, ⟨hc, hself⟩, hkind, rfl, rfl⟩
    refine ⟨⟨c, hc, hkind, rfl, rfl⟩, fun heq => ?_⟩
    simp [Constraint.isSelfCopy, hkind, heq] at hself
  · rintro ⟨⟨c, hc, hkind, rfl, rfl⟩, hne⟩
    exact ⟨c, ⟨hc, by simp [Constraint.isSelfCopy, Ne.symm hne]⟩, hkind, rfl, rfl⟩

theorem Untangled.opposed (h : Untangled u cs) (hu : u.Coherent) (hne : a ≠ b)
    (hab : ReflTransGen (CopiesTo (resolveAll u cs)) a b)
    (hba : ReflTransGen (CopiesTo (resolveAll u cs)) b a) : u.Opposed a b := by
  have hroot : ∀ m n, m ≠ n → ReflTransGen (CopiesTo (resolveAll u cs)) m n → u.root m = m := by
    intro m n hne hmn
    rcases hmn.cases_head with heq | ⟨_, hstep, _⟩
    · exact absurd heq hne
    · obtain ⟨c, _, _, _, rfl⟩ := copiesTo_resolveAll.1 hstep
      exact hu.root_root c.src
  have ha := hroot a b hne hab
  have hb := hroot b a hne.symm hba
  have hboth := h a b
  rw [Reaches, Reaches, ha, hb] at hboth
  exact (hboth hab hba).resolve_left hne

/-- A reduction that has passed over the copy cycles leaves none, as far as classes could be
joined. -/
theorem reduce_untangles (ht : t.WellFormed) (hpass : config.cyclePass = true)
    (h : reduce config cs t = .ok (ds, stats) u) :
    Untangled u cs ∧ Evolves t u ∧
      ∀ a b, CopiesTo ds a b ↔ CopiesTo (resolveAll u cs) a b ∧ a ≠ b := by
  have hends : Action.Ends (reduce config cs) t
      (fun r u => Untangled u cs ∧ Evolves t u ∧
        (∀ c ∈ cs, c.flaw? t config.fieldSensitive = none) ∧ Normal cs u r) fun _ _ => True := by
    refine reduce_induct (I := fun _ u => Untangled u cs) ht (fun _ _ => trivial)
      (fun hoff => ?_) (fun hcs _ => ?_) fun hcs _ u htu hu => ?_
    · rw [hpass] at hoff
      cases hoff
    · exact collapseCycles_untangles ht fun c hc =>
        (lt_size_of_mem_resolveAll ht.toCoherent rfl hcs hc).2
    · refine mergeEqual_untangles htu.wellFormed (fun c hc => ?_) hu
      rw [size_congr htu.coarsens.nodes_eq]
      exact (lt_size_of_mem_resolveAll htu.wellFormed.toCoherent htu.coarsens.nodes_eq hcs hc).1
  obtain ⟨huntangled, htu, _, hnormal⟩ := hends.of_eq_ok h
  obtain rfl : ds = (tidy (resolveAll u cs)).kept := hnormal.output_eq
  exact ⟨huntangled, htu, fun _ _ => copiesTo_tidy⟩

/-- The copies that a reduction gives form no cycle if it has passed over the copy cycles,
with one exception: a class that holds a null node and one that holds a node of unknown
memory may be copied to each other. Nothing else is on a cycle with these two. -/
theorem reduce_acyclic (ht : t.Reachable) (hpass : config.cyclePass = true)
    (h : reduce config cs t = .ok (ds, stats) u) :
    (∀ a b, a ≠ b → ReflTransGen (CopiesTo ds) a b → ReflTransGen (CopiesTo ds) b a →
      u.Opposed a b) ∧
    ∀ a, TransGen (CopiesTo ds) a a → ∃ b, a ≠ b ∧ CopiesTo ds a b ∧ CopiesTo ds b a ∧
      ∀ c, ReflTransGen (CopiesTo ds) a c → ReflTransGen (CopiesTo ds) c a → c = a ∨ c = b := by
  obtain ⟨huntangled, htu, hcopies⟩ := reduce_untangles ht.wellFormed hpass h
  have hopposed : ∀ a b, a ≠ b → ReflTransGen (CopiesTo ds) a b →
      ReflTransGen (CopiesTo ds) b a → u.Opposed a b := by
    have hpath := ReflTransGen.mono fun a b (hab : CopiesTo ds a b) => ((hcopies a b).1 hab).1
    exact fun a b hne hab hba =>
      huntangled.opposed htu.wellFormed.toCoherent hne (hpath a b hab) (hpath b a hba)
  refine ⟨hopposed, fun a hcycle => ?_⟩
  obtain ⟨b, hab, hba⟩ := TransGen.head'_iff.1 hcycle
  have hne : a ≠ b := ((hcopies a b).1 hab).2
  -- a third class on the cycle would have a third kind of special node
  have hthird : ∀ c, ReflTransGen (CopiesTo ds) a c → ReflTransGen (CopiesTo ds) c a →
      c = a ∨ c = b := by
    intro c hac hca
    by_contra hother
    obtain ⟨hne', hne''⟩ := not_or.1 hother
    exact (htu.reachable ht).not_opposed (hopposed a b hne (.single hab) hba)
      (hopposed a c (Ne.symm hne') hac hca)
      (hopposed b c (Ne.symm hne'') (hba.trans hac) (hca.trans (.single hab)))
  rcases hba.cases_tail with heq | ⟨c, hbc, hca⟩
  · exact absurd heq hne
  · refine ⟨b, hne, hab, ?_, hthird⟩
    rcases hthird c (.head hab hbc) (.single hca) with rfl | rfl
    · exact absurd rfl ((hcopies c c).1 hca).2
    · exact hca

/-- A round joins the variables, and null and unknown memory stay on a cycle. -/
theorem reduce_acyclic_exchange :
    NodeTable.mixed.Reachable ∧ (Preset.config .balanced).cyclePass = true ∧
      ∃ ds stats u, reduce (Preset.config .balanced) Constraint.exchange .mixed =
          .ok (ds, stats) u ∧
        ds = [.addrOf 0 2, .copy 2 3, .copy 3 2, .copy 2 0] ∧ u.Opposed 2 3 ∧
        ∃ b, 2 ≠ b ∧ CopiesTo ds 2 b ∧ CopiesTo ds b 2 := by
  have hpass : (Preset.config .balanced).cyclePass = true := by decide
  have hreduces : ∃ r u, reduce (Preset.config .balanced) Constraint.exchange .mixed =
      .ok r u ∧ r.1 = [.addrOf 0 2, .copy 2 3, .copy 3 2, .copy 2 0] :=
    Action.Ends.exists_ok (by decide +kernel)
  obtain ⟨⟨ds, stats⟩, u, hreduce, hds⟩ := hreduces
  obtain rfl : ds = [.addrOf 0 2, .copy 2 3, .copy 3 2, .copy 2 0] := hds
  obtain ⟨hopposed, hcycles⟩ := reduce_acyclic NodeTable.reachable_mixed hpass hreduce
  have hto : CopiesTo [.addrOf 0 2, .copy 2 3, .copy 3 2, .copy 2 0] 2 3 := by decide
  have hfrom : CopiesTo [.addrOf 0 2, .copy 2 3, .copy 3 2, .copy 2 0] 3 2 := by decide
  obtain ⟨b, hne, hb, hb', _⟩ := hcycles 2 (.tail (.single hto) hfrom)
  exact ⟨NodeTable.reachable_mixed, hpass, _, stats, u, hreduce, rfl,
    hopposed 2 3 (by decide) (.single hto) (.single hfrom), b, hne, hb, hb'⟩

end Acyclic

end Reduction

end PointsTo
