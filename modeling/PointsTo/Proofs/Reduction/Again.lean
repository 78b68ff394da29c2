import PointsTo.Proofs.Reduction.Acyclic
import PointsTo.Proofs.Reduction.NormalForm

/-!
# Reducing what has been reduced

A reduction leaves nothing for the cycle pass of another one, and nothing to drop. Nor
do its rounds leave closed classes with equal inputs. But these inputs are those of the
constraints before they are tidied up: a copy of a class to itself makes the class an
input of its own. It says nothing and is dropped after the rounds, and then the class may
turn out to have the same inputs as another (`Masked`). In this case, and in no other, a
second reduction merges something.
-/

namespace PointsTo

namespace Reduction

open NodeTable

section Groups

variable {t : NodeTable} {cs : List Constraint} {a b : Nat}

/-- A round joins two closed classes exactly if they have equal inputs. -/
theorem exists_group_iff (hne : a ≠ b) :
    (∃ g ∈ equalGroups t cs, a ∈ g ∧ b ∈ g) ↔
      a ∈ closedClasses t cs ∧ b ∈ closedClasses t cs ∧ inputsOf cs a = inputsOf cs b := by
  constructor
  · rintro ⟨g, hg, ha, hb⟩
    obtain ⟨key, hkey⟩ := exists_inputs_of_mem_equalGroups hg
    exact ⟨(hkey a ha).1, (hkey b hb).1, (hkey a ha).2.trans (hkey b hb).2.symm⟩
  · rintro ⟨ha, hb, hinputs⟩
    have hmem : a ∈ (closedClasses t cs).filter (inputsOf cs · == inputsOf cs a) :=
      List.mem_filter.2 ⟨ha, beq_iff_eq.2 rfl⟩
    have hmem' : b ∈ (closedClasses t cs).filter (inputsOf cs · == inputsOf cs a) :=
      List.mem_filter.2 ⟨hb, beq_iff_eq.2 hinputs.symm⟩
    exact ⟨_, mem_equalGroups.2 ⟨⟨a, ha, rfl⟩, one_lt_length_of_ne hmem hmem' hne⟩, hmem, hmem'⟩

theorem equalGroups_ne_nil_iff :
    equalGroups t cs ≠ [] ↔ ∃ a b, a ≠ b ∧ ∃ g ∈ equalGroups t cs, a ∈ g ∧ b ∈ g := by
  constructor
  · intro hne
    obtain ⟨g, hg⟩ := List.exists_mem_of_ne_nil _ hne
    have hnodup := (List.nodup_flatten.1 nodup_equalGroups).1 g hg
    have hlen := (mem_equalGroups.1 hg).2
    obtain ⟨a, ha⟩ := List.exists_mem_of_length_pos (Nat.lt_of_succ_lt hlen)
    obtain ⟨b, hb, hne⟩ := Digraph.exists_ne_of_nodup hnodup hlen a
    exact ⟨a, b, hne, g, hg, ha, hb⟩
  · rintro ⟨_, _, _, g, hg, _⟩
    exact List.ne_nil_of_mem hg

/-- A round merges nothing exactly if there is no group. -/
theorem mergeEqual_eq_zero_iff (ht : t.WellFormed) (hcs : Led t cs) :
    Action.Ends (mergeEqual cs) t (fun n _ => n = 0 ↔ equalGroups t cs = [])
      fun _ _ => True := by
  rw [mergeEqual, Action.ends_bind, Action.ends_get]
  by_cases hnil : equalGroups t cs = []
  · rw [hnil]
    exact iff_of_true rfl rfl
  · have hgroups : ∀ g ∈ equalGroups t cs, Alike (fun _ => ()) t g := fun g hg a ha => by
      obtain ⟨c, hc, rfl⟩ := exists_dest_of_mem_equalGroups hg ha
      exact ⟨(hcs.dest c hc).2, fun _ _ => rfl⟩
    refine (mergeGroups_fuses (Evolves.refl ht) hgroups).imp (fun n u hu => ?_)
      fun _ _ _ => trivial
    refine iff_of_false (fun hn => ?_) hnil
    -- two members of a group are different roots, so there was something to merge
    obtain ⟨_, hjoined, hnone⟩ := hu
    obtain rfl : u = t := hnone hn
    obtain ⟨a, b, hne, g, hg, ha, hb⟩ := equalGroups_ne_nil_iff.1 hnil
    have hroots := (equalGroups_joinable ht.toCoherent hcs).apart.roots
    have hroot : ∀ n ∈ g, u.root n = n := fun n hn =>
      (hroots n (List.mem_flatten.2 ⟨g, List.mem_append_left _ hg, hn⟩)).1
    have heq := hjoined g hg a ha b hb
    rw [hroot a ha, hroot b hb] at heq
    exact hne heq

end Groups

/-! ## What a reduction leaves undone -/

section Left

variable {t u : NodeTable} {config : Config} {cs ds : List Constraint} {stats : ReductionStats}
  {a b : Nat}

/-- The rounds end with one that finds no group, if there may be enough of them. -/
theorem equalize_settles (ht : t.Reachable) {fieldSensitive : Bool}
    (hcs : ∀ c ∈ cs, c.flaw? t fieldSensitive = none) {fuel : Nat}
    (hfuel : t.size < t.merges + fuel) :
    Action.Ends (equalize fuel (resolveAll t cs)) t
      (fun _ u => equalGroups u (resolveAll u cs) = []) fun _ _ => True := by
  induction fuel generalizing t with
  | zero =>
      have hcount := ht.card_roots_add_merges
      omega
  | succ fuel ih =>
      have hwf := ht.wellFormed
      have hled := led_of_flawless hwf.toCoherent rfl hcs
      refine Action.Ends.bind (((mergeEqual_merges hwf hled).and
        (mergeEqual_eq_zero_iff hwf hled)).imp_error fun _ _ _ => trivial) ?_
      rintro n u ⟨⟨⟨htu, hnone⟩, hmerges⟩, hzero⟩
      rw [Action.ends_ite]
      constructor
      · intro hn
        obtain rfl : u = t := hnone hn
        exact hzero.1 hn
      · intro hn
        have hfuel' : u.size < u.merges + fuel := by
          rw [size_congr hmerges.nodes_eq, hmerges.merges_eq]
          omega
        rw [Action.ends_bind, Action.ends_get,
          resolveAll_resolveAll hwf.toCoherent htu.coarsens]
        exact (ih (htu.reachable ht) (flawless_of_merges hmerges hcs) hfuel').bind
          fun _ _ hv => hv

/-- No two closed classes have equal inputs after the rounds, until the constraints are tidied
up. -/
theorem reduce_settles (ht : t.Reachable) (hpass : config.equivalencePass = true)
    (h : reduce config cs t = .ok (ds, stats) u) : equalGroups u (resolveAll u cs) = [] := by
  have hends : Action.Ends (reduce config cs) t
      (fun _ u => equalGroups u (resolveAll u cs) = []) fun _ _ => True := by
    rw [reduce, Action.ends_bind, Action.ends_get, Action.ends_bind, Action.ends_ofExcept]
    refine ⟨fun _ hvalid => ?_, fun _ _ => trivial⟩
    have hcs := validate_eq_ok_iff.1 hvalid
    have hled := led_of_flawless ht.wellFormed.toCoherent rfl hcs
    have hcycles : Action.Ends (collapseCycles (resolveAll t cs)) t (fun n u => t.Merges n u)
        fun _ _ => True :=
      (collapseCycles_merges ht.wellFormed.toCoherent hled).imp (fun _ _ hu => hu.2)
        fun _ _ _ => trivial
    refine (cyclePass_induct (I := fun n u => t.Merges n u) ht.wellFormed hcs
      (fun _ => .refl t) fun _ => hcycles).ite_bind fun r u hu => ?_
    obtain ⟨working, n⟩ := r
    obtain ⟨hmerges, htu, hworking⟩ := hu
    obtain rfl : working = resolveAll u cs := hworking
    have hfuel : u.size < u.merges + (t.size + 1) := by
      rw [size_congr hmerges.nodes_eq]
      omega
    have hrounds : Action.Ends
        (if config.equivalencePass then equalize (t.size + 1) (resolveAll u cs)
          else pure (resolveAll u cs, 0, 0)) u
        (fun _ v => equalGroups v (resolveAll v cs) = []) fun _ _ => True := by
      rw [if_pos hpass]
      exact equalize_settles (htu.reachable ht) (flawless_of_merges hmerges hcs) hfuel
    exact hrounds.ite_bind fun _ _ hv => hv
  exact hends.of_eq_ok h

/-- Of the cycles of copies that are left nothing can be merged. -/
theorem mergeableGroups_of_reduced (ht : t.Reachable) (hpass : config.cyclePass = true)
    (h : reduce config cs t = .ok (ds, stats) u) {cycle : List Nat}
    (hcycle : cycle ∈ copyCycles ds) : u.mergeableGroups cycle = [] := by
  obtain ⟨huntangled, htu, hcopies⟩ := reduce_untangles ht.wellFormed hpass h
  have hu := htu.reachable ht
  have hpath := Relation.ReflTransGen.mono fun a b (hab : CopiesTo ds a b) =>
    ((hcopies a b).1 hab).1
  have hnodup := (List.nodup_flatten.1 (Digraph.components_connected _ _).1).1 cycle hcycle
  refine mergeableGroups_eq_nil hnodup fun a ha b hb hne => ?_
  have hopposed : u.Opposed a b := huntangled.opposed hu.wellFormed.toCoherent hne
    (hpath a b (copyCycles_connected hcycle ha hb))
    (hpath b a (copyCycles_connected hcycle hb ha))
  obtain ⟨k, hak, hbk⟩ := hopposed
  exact ⟨k, hu.special?_eq_some_iff.2 hak, hu.special?_eq_some_iff.2 hbk⟩

/-- Closed classes have equal inputs when the constraints are tidied up, and the reason that
they had not before is a copy of one of them to itself. -/
structure Masked (t : NodeTable) (cs : List Constraint) (a b : Nat) : Prop where
  ne : a ≠ b
  left : a ∈ closedClasses t (tidy cs).kept
  right : b ∈ closedClasses t (tidy cs).kept
  inputs_eq : inputsOf (tidy cs).kept a = inputsOf (tidy cs).kept b
  selfCopy : CopiesTo cs a a ∨ CopiesTo cs b b

/-- Tidying up opens no class. -/
theorem closedClasses_tidy (h : a ∈ closedClasses t (tidy cs).kept) : a ∈ closedClasses t cs := by
  obtain ⟨⟨c, hc, hplain, hdest⟩, hload, hpointee⟩ := mem_closedClasses.1 h
  refine mem_closedClasses.2 ⟨⟨c, (mem_kept_tidy.1 hc).1, hplain, hdest⟩, fun d hd hkind => ?_,
    hpointee⟩
  exact hload d (mem_kept_tidy.2 ⟨hd, by simp [Constraint.isSelfCopy, hkind]⟩) hkind

/-- Tidying up takes nothing from the inputs of a class that is not copied to itself. -/
theorem inputsOf_tidy (h : ¬CopiesTo cs a a) : inputsOf (tidy cs).kept a = inputsOf cs a := by
  have hpointees : (inputsOf (tidy cs).kept a).pointees = (inputsOf cs a).pointees := by
    refine NodeSet.ext_of_ascending (NodeSet.ascending_ofList _) (NodeSet.ascending_ofList _)
      fun o => ?_
    rw [mem_pointees_inputsOf, mem_pointees_inputsOf]
    refine exists_congr fun c => ?_
    rw [mem_kept_tidy, and_assoc]
    refine and_congr_right fun _ => and_iff_right_of_imp fun hc => ?_
    simp [Constraint.isSelfCopy, hc.1]
  have hcopies : (inputsOf (tidy cs).kept a).copies = (inputsOf cs a).copies := by
    refine NodeSet.ext_of_ascending (NodeSet.ascending_ofList _) (NodeSet.ascending_ofList _)
      fun m => ?_
    rw [mem_copies_inputsOf, mem_copies_inputsOf, copiesTo_tidy]
    refine and_iff_left_of_imp fun hm heq => h ?_
    rwa [heq] at hm
  exact congrArg₂ Inputs.mk hpointees hcopies

/-- If a round has nothing to merge, what there is to merge when the constraints are tidied up
was masked. -/
theorem exists_masked_iff (hsettled : equalGroups t cs = []) :
    equalGroups t (tidy cs).kept ≠ [] ↔ ∃ a b, Masked t cs a b := by
  rw [equalGroups_ne_nil_iff]
  constructor
  · rintro ⟨a, b, hne, hgroup⟩
    obtain ⟨ha, hb, hinputs⟩ := (exists_group_iff hne).1 hgroup
    refine ⟨a, b, hne, ha, hb, hinputs, ?_⟩
    by_contra hself
    obtain ⟨hself, hself'⟩ := not_or.1 hself
    rw [inputsOf_tidy hself, inputsOf_tidy hself'] at hinputs
    obtain ⟨g, hg, _⟩ := (exists_group_iff hne).2
      ⟨closedClasses_tidy ha, closedClasses_tidy hb, hinputs⟩
    rw [hsettled] at hg
    exact List.not_mem_nil hg
  · rintro ⟨a, b, h⟩
    exact ⟨a, b, h.ne, (exists_group_iff h.ne).2 ⟨h.left, h.right, h.inputs_eq⟩⟩

end Left

/-! ## What another reduction does -/

section Again

variable {t u : NodeTable} {config : Config} {cs ds : List Constraint} {stats : ReductionStats}

theorem resolveAll_kept_tidy (hu : u.Coherent) (cs : List Constraint) :
    resolveAll u (tidy (resolveAll u cs)).kept = (tidy (resolveAll u cs)).kept := by
  refine (List.map_congr_left fun c hc => ?_).trans (List.map_id _)
  obtain ⟨d, _, rfl⟩ := List.mem_map.1 (mem_kept_tidy.1 hc).1
  exact resolve_resolve hu (.refl u) d

theorem tidy_of_nodup (hnodup : ds.Nodup) (hself : ∀ c ∈ ds, c.isSelfCopy = false) :
    tidy ds = { kept := ds } := by
  induction ds using List.reverseRecOn with
  | nil => rfl
  | append_singleton ds c ih =>
      obtain ⟨hnodup, _, hnew⟩ := List.nodup_append.1 hnodup
      have hc : c ∉ ds := fun hc => hnew c hc c List.mem_cons_self rfl
      rw [tidy_concat, ih hnodup fun d hd => hself d (List.mem_append_left _ hd), Tidied.add,
        hself c (List.mem_append_right _ List.mem_cons_self)]
      simp [hc]

theorem tidy_kept_tidy (cs : List Constraint) :
    tidy (tidy cs).kept = { kept := (tidy cs).kept } := by
  refine tidy_of_nodup ?_ fun c hc => (mem_kept_tidy.1 hc).2
  rw [kept_tidy]
  exact nodup_eraseDups _

theorem collapse_idles (h : ∀ cycle ∈ copyCycles ds, u.mergeableGroups cycle = []) :
    Action.Ends (collapse ds) u (fun r v => r = (ds, 0) ∧ v = u) fun _ _ => True := by
  refine Action.Ends.bind (Action.ends_foldlM (fun rest count v => (count = 0 ∧ v = u) ∧
    ∀ cycle ∈ rest, u.mergeableGroups cycle = []) ?_ ⟨⟨rfl, rfl⟩, h⟩) ?_
  · rintro cycle rest _ _ ⟨⟨rfl, rfl⟩, hrest⟩
    rw [List.forall_mem_cons] at hrest
    rw [Action.ends_bind, Action.ends_get, hrest.1]
    exact ⟨⟨rfl, rfl⟩, hrest.2⟩
  · rintro _ _ ⟨⟨rfl, rfl⟩, _⟩
    exact ⟨rfl, rfl⟩

/-- Rounds make a difference exactly if the first of them does. -/
theorem equalize_begins (ht : t.WellFormed) (hcs : Led t cs) (fuel : Nat) :
    Action.Ends (equalize (fuel + 1) cs) t
      (fun r u => (0 < r.2.2 ↔ equalGroups t cs ≠ []) ∧ (r.2.2 = 0 → r.1 = cs ∧ u = t))
      fun _ _ => True := by
  refine Action.Ends.bind (((mergeEqual_merges ht hcs).and
    (mergeEqual_eq_zero_iff ht hcs)).imp_error fun _ _ _ => trivial) ?_
  rintro n u ⟨⟨⟨_, hnone⟩, _⟩, hzero⟩
  rw [Action.ends_ite]
  constructor
  · intro hn
    exact ⟨iff_of_false (Nat.lt_irrefl 0) (not_not_intro (hzero.1 hn)), fun _ => ⟨rfl, hnone hn⟩⟩
  · intro hn
    have hpos : ∀ merges, 0 < merges + n := fun _ => Nat.add_pos_right _ (Nat.pos_of_ne_zero hn)
    rw [Action.ends_bind, Action.ends_get]
    refine (Action.ends_trivial _ _).bind fun r v _ => ?_
    exact ⟨iff_of_true (hpos r.2.2) (mt hzero.2 hn), fun h => absurd h (hpos r.2.2).ne'⟩

/-- A reduction of tidied constraints without cycles that can be merged is a matter of the
rounds alone. -/
theorem reduce_begins (hu : u.WellFormed) (hds : Led u ds) (hresolved : resolveAll u ds = ds)
    (htidy : tidy ds = { kept := ds })
    (hcycles : config.cyclePass = true → ∀ cycle ∈ copyCycles ds, u.mergeableGroups cycle = []) :
    Action.Ends (reduce config ds) u
      (fun r v => r.2.cycleMerges = 0 ∧
        (0 < r.2.equivalenceMerges ↔ config.equivalencePass = true ∧ equalGroups u ds ≠ []) ∧
        (r.2.equivalenceMerges = 0 → r.1 = ds ∧ v = u ∧ r.2.selfCopiesRemoved = 0 ∧
          r.2.duplicatesRemoved = 0))
      fun _ _ => True := by
  rw [reduce, Action.ends_bind, Action.ends_get, Action.ends_bind, Action.ends_ofExcept]
  refine ⟨fun _ _ => ?_, fun _ _ => trivial⟩
  rw [hresolved]
  have hfirst : Action.Ends (if config.cyclePass then collapse ds else pure (ds, 0)) u
      (fun r v => r = (ds, 0) ∧ v = u) fun _ _ => True := by
    rw [Action.ends_ite]
    exact ⟨fun hpass => collapse_idles (hcycles hpass), fun _ => ⟨rfl, rfl⟩⟩
  refine hfirst.ite_bind ?_
  rintro _ u ⟨rfl, rfl⟩
  have hsecond : Action.Ends
      (if config.equivalencePass then equalize (u.size + 1) ds else pure (ds, 0, 0)) u
      (fun r v => (0 < r.2.2 ↔ config.equivalencePass = true ∧ equalGroups u ds ≠ []) ∧
        (r.2.2 = 0 → r.1 = ds ∧ v = u))
      fun _ _ => True := by
    rw [Action.ends_ite]
    refine ⟨fun hpass => ?_, fun hpass => ?_⟩
    · exact (equalize_begins hu hds u.size).imp_ok fun r v hr =>
        ⟨hr.1.trans (and_iff_right hpass).symm, hr.2⟩
    · exact ⟨iff_of_false (Nat.lt_irrefl 0) fun h => hpass h.1, fun _ => ⟨rfl, rfl⟩⟩
  refine hsecond.ite_bind ?_
  rintro ⟨working, rounds, merges⟩ v ⟨hmerges, hnone⟩
  refine ⟨rfl, hmerges, fun hzero => ?_⟩
  obtain ⟨rfl, rfl⟩ := hnone hzero
  dsimp only
  rw [htidy]
  exact ⟨rfl, rfl, rfl, rfl⟩

/-- Without a bound on merges, constraints without flaws can be reduced. -/
theorem exists_reduce_eq_ok (ht : t.WellFormed) (hunlimited : t.maxMerges = none)
    (hcs : ∀ c ∈ cs, c.flaw? t config.fieldSensitive = none) :
    ∃ r u, reduce config cs t = .ok r u := by
  cases hreduce : reduce config cs t with
  | ok r u => exact ⟨r, u, rfl⟩
  | error e u =>
      rcases (reduce_merges ht config cs).of_eq_error hreduce with hinvalid | ⟨limit, hlimit, _⟩
      · rw [validate_eq_ok_iff.2 hcs] at hinvalid
        cases hinvalid
      · rw [hunlimited] at hlimit
        cases hlimit

/-- Once a reduction without a bound on merges has succeeded, another one of what it gives, with
the table that it leaves, succeeds too. It merges no copy cycle. It merges closed classes
exactly if it looks for them and a copy of one to itself had kept them apart. Unless it does,
it drops no constraint, gives back what it was given, and leaves the table as it is. -/
theorem reduce_again (ht : t.Reachable) (hunlimited : t.maxMerges = none)
    (h : reduce config cs t = .ok (ds, stats) u) :
    ∃ ds' stats' v, reduce config ds u = .ok (ds', stats') v ∧ stats'.cycleMerges = 0 ∧
      (0 < stats'.equivalenceMerges ↔
        config.equivalencePass = true ∧ ∃ a b, Masked u (resolveAll u cs) a b) ∧
      (stats'.equivalenceMerges = 0 → ds' = ds ∧ v = u ∧ stats'.selfCopiesRemoved = 0 ∧
        stats'.duplicatesRemoved = 0) := by
  obtain ⟨hreduces, hnormal⟩ := (reduce_ends ht.wellFormed config cs).of_eq_ok h
  obtain ⟨hmerges, _, hflawless⟩ := (reduce_merges ht.wellFormed config cs).of_eq_ok h
  have hu := hreduces.wellFormed
  obtain rfl : ds = (tidy (resolveAll u cs)).kept := hnormal.output_eq
  have hresolved := resolveAll_kept_tidy hu.toCoherent cs
  have hled := led_of_flawless hu.toCoherent rfl hflawless
  rw [hresolved] at hled
  obtain ⟨⟨ds', stats'⟩, v, hreduce⟩ :=
    exists_reduce_eq_ok hu (hmerges.maxMerges_eq.trans hunlimited) hflawless
  have hagain := reduce_begins hu hled hresolved (tidy_kept_tidy _) fun hpass _ =>
    mergeableGroups_of_reduced ht hpass h
  obtain ⟨hcycles, hrounds, hnone⟩ := hagain.of_eq_ok hreduce
  refine ⟨ds', stats', v, hreduce, hcycles, hrounds.trans (and_congr_right fun hpass => ?_), hnone⟩
  exact exists_masked_iff (reduce_settles ht hpass h)

/-- Nothing more can be done about `redundant`. Of `selfCopied` a second reduction joins the
variables. -/
theorem reduce_again_redundant :
    (∃ ds stats u, reduce (Preset.config .balanced) Constraint.redundant .sample =
        .ok (ds, stats) u ∧ ds = [.addrOf 0 2, .store 0 0 1] ∧
      ∃ stats', reduce (Preset.config .balanced) ds u = .ok (ds, stats') u ∧
        stats'.cycleMerges = 0 ∧ stats'.selfCopiesRemoved = 0 ∧ stats'.duplicatesRemoved = 0) ∧
    ∃ ds stats u, reduce (Preset.config .balanced) Constraint.selfCopied .sample =
        .ok (ds, stats) u ∧
      ∃ a b, Masked u (resolveAll u Constraint.selfCopied) a b := by
  constructor
  · have hreduces : ∃ r u, reduce (Preset.config .balanced) Constraint.redundant .sample =
        .ok r u ∧ r.1 = [.addrOf 0 2, .store 0 0 1] ∧
        Action.Ends (reduce (Preset.config .balanced) r.1) u
          (fun r' _ => r'.2.equivalenceMerges = 0) fun _ _ => False :=
      Action.Ends.exists_ok (by decide +kernel)
    obtain ⟨⟨ds, stats⟩, u, hreduce, hds, hrounds⟩ := hreduces
    obtain ⟨ds', stats', v, hagain, hcycles, _, hnone⟩ :=
      reduce_again NodeTable.reachable_sample rfl hreduce
    obtain ⟨rfl, rfl, hself, hduplicates⟩ := hnone (hrounds.of_eq_ok hagain)
    exact ⟨_, stats, _, hreduce, hds, stats', hagain, hcycles, hself, hduplicates⟩
  · have hreduces : ∃ r u, reduce (Preset.config .balanced) Constraint.selfCopied .sample =
        .ok r u ∧ Action.Ends (reduce (Preset.config .balanced) r.1) u
          (fun r' _ => 0 < r'.2.equivalenceMerges) fun _ _ => False :=
      Action.Ends.exists_ok (by decide +kernel)
    obtain ⟨⟨ds, stats⟩, u, hreduce, hrounds⟩ := hreduces
    obtain ⟨ds', stats', v, hagain, _, hmasked, _⟩ :=
      reduce_again NodeTable.reachable_sample rfl hreduce
    exact ⟨ds, stats, u, hreduce, (hmasked.1 (hrounds.of_eq_ok hagain)).2⟩

/-- What a reduction gives need not stay the same: here the second one joins the variables and
drops an address constraint. -/
theorem reduce_not_idempotent :
    NodeTable.sample.Reachable ∧ NodeTable.sample.maxMerges = none ∧
    ∃ ds stats u, reduce (Preset.config .balanced) Constraint.selfCopied .sample =
        .ok (ds, stats) u ∧ ds = [.addrOf 0 2, .addrOf 1 2] ∧
      ∃ ds' stats' v, reduce (Preset.config .balanced) ds u = .ok (ds', stats') v ∧
        ds' = [.addrOf 0 2] ∧ stats'.equivalenceMerges = 1 ∧ stats'.duplicatesRemoved = 1 ∧
        u.root 0 ≠ u.root 1 ∧ v.root 0 = v.root 1 := by
  have hreduces : ∃ r u, reduce (Preset.config .balanced) Constraint.selfCopied .sample =
      .ok r u ∧ r.1 = [.addrOf 0 2, .addrOf 1 2] ∧
      Action.Ends (reduce (Preset.config .balanced) r.1) u
        (fun r' v => r'.1 = [.addrOf 0 2] ∧ r'.2.equivalenceMerges = 1 ∧
          r'.2.duplicatesRemoved = 1 ∧ u.root 0 ≠ u.root 1 ∧ v.root 0 = v.root 1)
        fun _ _ => False :=
    Action.Ends.exists_ok (by decide +kernel)
  obtain ⟨⟨ds, stats⟩, u, hreduce, hds, hagain⟩ := hreduces
  obtain ⟨⟨ds', stats'⟩, v, hreduce', hresult⟩ := hagain.exists_ok
  exact ⟨NodeTable.reachable_sample, rfl, ds, stats, u, hreduce, hds, ds', stats', v, hreduce',
    hresult⟩

end Again

end Reduction

end PointsTo
