import PointsTo.Proofs.Run.Building

/-!
# Fields and what covers them

If fields are not told apart, every access to an object goes to its base. So what
is found then for the bases is also a solution with fields, if every node is given
the set of its base: an access with fields stays within its object (`base_route`),
and the constraints say the same of bases, as long as they name other fields only
to take their addresses (`SparesFields`). The least solution with fields is smaller
than that.

The members of the sets are not led to their bases in either mode. A set is covered
pointee by pointee, whatever the copies and merges were that brought it about.
-/

namespace PointsTo

namespace NodeTable

/-- The base of the object that `n` is a node of; any other node is its own. -/
def base (t : NodeTable) (n : Nat) : Nat := (t.layout? n).elim n Layout.base

/-- Whether `n` is a node of an object and not its base. -/
def isField (t : NodeTable) (n : Nat) : Bool := (t.layout? n).any Layout.isField

section Base

variable {t : NodeTable} {n : Nat}

theorem base_of_layout? {l : Layout} (h : t.layout? n = some l) : t.base n = l.base := by
  rw [base, h]
  rfl

theorem base_of_layout?_eq_none (h : t.layout? n = none) : t.base n = n := by
  rw [base, h]
  rfl

theorem WellFormed.base_eq_self (ht : t.WellFormed) (h : t.isField n = false) : t.base n = n := by
  cases hl : t.layout? n with
  | none => exact base_of_layout?_eq_none hl
  | some l =>
      rw [isField, hl] at h
      have hoffset : l.offset = 0 := by simpa [Layout.isField] using h
      rw [base_of_layout? hl, (ht.layout_eq n l hl).1, hoffset, Nat.add_zero]

/-- With fields an access goes to a node of the object at whose base it ends without. -/
theorem WellFormed.base_route (ht : t.WellFormed) (o k : Nat) :
    t.base (t.route true o k) = t.route false o k := by
  have hlayout : (t.node? o).bind Node.layout? = t.layout? o := rfl
  rw [route, route, hlayout]
  cases hl : t.layout? o with
  | none => exact base_of_layout?_eq_none hl
  | some l =>
      have hnode : ∀ i < l.fieldCount, t.base (l.base + i) = l.base := fun i hi =>
        base_of_layout? (l := { l with offset := i }) (ht.field_eq o l hl i hi)
      have hcount := (ht.layout_eq o l hl).2
      have hbase : t.base l.base = l.base := hnode 0 (Nat.zero_lt_of_lt hcount)
      simp only [Bool.not_true, Bool.not_false, Bool.false_eq_true, if_false, if_true]
      split
      next => exact base_of_layout? hl
      next =>
        cases hfield : l.field? k with
        | none => exact hbase
        | some m =>
            obtain ⟨hlt, rfl⟩ := Layout.field?_eq_some_iff.1 hfield
            exact hnode _ hlt

theorem base_of_isUniversal (h : t.IsUniversal n) : t.base n = n := by
  obtain ⟨node, hnode, hkind⟩ := h
  refine base_of_layout?_eq_none ?_
  rw [layout?, hnode, Option.bind_some, Node.layout?, hkind]

end Base

end NodeTable

/-- The constraint names a field, other than the base of its object, only to take its
address. -/
def Constraint.SparesFields (t : NodeTable) (c : Constraint) : Prop :=
  t.isField c.dest = false ∧ (c.kind = .addrOf ∨ t.isField c.src = false)

instance (t : NodeTable) (c : Constraint) : Decidable (c.SparesFields t) :=
  inferInstanceAs (Decidable (_ ∧ _))

section Covers

variable {t : NodeTable} {S : Family} {cs : List Constraint} {c : Constraint}

/-- What holds of the bases holds with fields, if every node has the set of its base. -/
theorem Constraint.Holds.atBases (ht : t.WellFormed) (hfields : c.SparesFields t)
    (h : c.Holds t false S) : c.Holds t true fun n => S (t.base n) := by
  have hdest : t.base c.dest = c.dest := ht.base_eq_self hfields.1
  have hsrc : c.kind ≠ .addrOf → t.base c.src = c.src := fun hkind =>
    ht.base_eq_self (hfields.2.resolve_left hkind)
  rw [Constraint.Holds] at h ⊢
  simp only [ht.base_route, hdest]
  cases hkind : c.kind with
  | addrOf => rwa [hkind] at h
  | copy =>
      rw [hkind] at h
      rwa [hsrc (by simp [hkind])]
  | load =>
      rw [hkind] at h
      rwa [hsrc (by simp [hkind])]
  | store =>
      rw [hkind] at h
      rwa [hsrc (by simp [hkind])]

theorem Family.Solves.atBases (hS : S.Solves t false cs) (ht : t.WellFormed)
    (hroot : ∀ n, t.root n = n) (hfields : ∀ c ∈ cs, c.SparesFields t) :
    Family.Solves (fun n => S (t.base n)) t true cs where
  holds c hc := (hS.holds c hc).atBases ht (hfields c hc)
  universal u hu := by
    rw [NodeTable.base_of_isUniversal hu]
    exact hS.universal u hu
  classes a b hab := by
    rw [hroot, hroot] at hab
    rw [hab]

/-- The least solution without fields covers the one with fields. -/
theorem leastSolution_subset_base (ht : t.WellFormed) (hroot : ∀ n, t.root n = n)
    (hfields : ∀ c ∈ cs, c.SparesFields t) (n : Nat) :
    leastSolution t true cs n ⊆ leastSolution t false cs (t.base n) :=
  leastSolution_subset ((leastSolution_solves t false cs).atBases ht hroot hfields) n

end Covers

namespace Run

section Modes

variable {r s r' s' : Run} {t : NodeTable} {cs : List Constraint}

/-- Of two runs that get the same requests, one with and one without fields, the latter
covers the former: what a node points to with fields, its base points to without. So
nothing but fields can lose a pointee if fields are not told apart. -/
theorem solve_covers_fields {c d : Config} (hc : c.fieldSensitive = true)
    (hd : d.fieldSensitive = false) (hr : new c = .ok r) (hs : new d = .ok s)
    (choices choices' : Choices) (requests : List Request)
    (hbuilding : (afterAll { r with choices } requests).state = .building t cs)
    (hfields : ∀ c ∈ cs, c.SparesFields t) {g g' : Graph}
    (hg : solve (afterAll { r with choices } requests) = .ok g r')
    (hg' : solve (afterAll { s with choices := choices' } requests) = .ok g' s') :
    (∀ n, ∀ o ∈ g.pointsTo n, o ∈ g'.pointsTo (t.base n)) ∧
      ∀ n, t.isField n = false → ∀ o ∈ g.pointsTo n, o ∈ g'.pointsTo n := by
  obtain ⟨_, rfl⟩ := new_eq_ok_iff.1 hr
  obtain ⟨_, rfl⟩ := new_eq_ok_iff.1 hs
  have hbuilt : Built c.limits t := built_afterAll rfl hbuilding
  have ht := hbuilt.reachable.wellFormed
  obtain ⟨u, ds, hbuilding'⟩ := building_of_solve_eq_ok
    (not_frozen_afterAll (fun _ ho => by cases ho) hbuilding) hg'
  have hbuilt' : Built d.limits u := built_afterAll rfl hbuilding'
  have hempty : (NodeTable.withLimits c.limits.maxNodes c.limits.maxMerges).Twin
      (.withLimits d.limits.maxNodes d.limits.maxMerges) := ⟨rfl, rfl⟩
  obtain ⟨htwin, rfl⟩ := twin_afterAll rfl rfl hempty hbuilding hbuilding'
  have hgraph := represents_of_solve_eq_ok ht hbuilding hg
  have hgraph' := represents_of_solve_eq_ok hbuilt'.reachable.wellFormed hbuilding' hg'
  rw [config_afterAll] at hgraph hgraph'
  have hcovers : ∀ n, ∀ o ∈ g.pointsTo n, o ∈ g'.pointsTo (t.base n) := by
    intro n o ho
    have hsensitive : o ∈ leastSolution t c.fieldSensitive cs n := hgraph.sets_eq n ▸ ho
    rw [hc] at hsensitive
    have hcovered := leastSolution_subset_base ht hbuilt.root_eq hfields n hsensitive
    have hset : {o | o ∈ g'.pointsTo (t.base n)} =
        leastSolution u d.fieldSensitive cs (t.base n) := hgraph'.sets_eq _
    rw [hd, htwin.leastSolution_eq] at hset
    exact hset.symm.subset hcovered
  refine ⟨hcovers, fun n hn o ho => ?_⟩
  rw [← ht.base_eq_self hn]
  exact hcovers n o ho

/-- The requests that make up the sample table and `Constraint.sample`. -/
def Request.sample : List Request :=
  [.value, .value, .object 2, .constraints Constraint.sample]

/-- In the sample program a pointer is stored in the second field, `3`. Without fields it is
stored in the base, and the field itself stays empty. -/
theorem solve_covers_fields_sample :
    ∃ g g' r s,
      solve ((ofPreset .balanced).afterAll Request.sample) = .ok g r ∧
      solve ((ofPreset .fast).afterAll Request.sample) = .ok g' s ∧
      (g.pointsTo 3).elements = [2, 3] ∧ (g'.pointsTo 3).elements = [] ∧
      NodeTable.sample.base 3 = 2 ∧ (∀ o ∈ g.pointsTo 3, o ∈ g'.pointsTo 2) ∧
      ∀ o ∈ g.pointsTo 1, o ∈ g'.pointsTo 1 := by
  have hrun : ∃ g r, solve ((ofPreset .balanced).afterAll Request.sample) = .ok g r ∧
      (g.pointsTo 3).elements = [2, 3] := Action.Ends.exists_ok (by decide +kernel)
  have hrun' : ∃ g s, solve ((ofPreset .fast).afterAll Request.sample) = .ok g s ∧
      (g.pointsTo 3).elements = [] := Action.Ends.exists_ok (by decide +kernel)
  obtain ⟨g, r, hg, hstored⟩ := hrun
  obtain ⟨g', s, hg', hempty⟩ := hrun'
  have hnew : ∀ p : Preset, (Preset.config p).validate = .ok () → new p.config = .ok (ofPreset p) :=
    fun p hp => new_eq_ok_iff.2 ⟨hp, rfl⟩
  have hbuilding : ((ofPreset .balanced).afterAll Request.sample).state =
      .building .sample Constraint.sample := rfl
  have hcovers := solve_covers_fields rfl rfl (hnew .balanced rfl) (hnew .fast rfl)
    {} {} Request.sample hbuilding (by decide) hg hg'
  exact ⟨g, g', r, s, hg, hg', hstored, hempty, rfl, hcovers.1 3, hcovers.2 1 rfl⟩

end Modes

end Run

end PointsTo
