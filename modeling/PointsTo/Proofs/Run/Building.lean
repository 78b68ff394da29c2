import PointsTo.Proofs.Run

/-!
# Runs that are being built

As long as a run is being built, every request to it has been granted: it has
created a node or collected constraints (`Gathers`). So the table of such a run
is within the bounds of its configuration, and no classes have been joined in it
(`Built`). What two runs collect on the same requests is the same up to their
bounds, whatever their configurations say.
-/

namespace PointsTo

namespace NodeTable

/-- The table `u` comes of `t` by creating nodes within the bound. -/
structure Grows (t u : NodeTable) : Prop where
  size_le : u.size ≤ u.nodeLimit
  maxNodes_eq : u.maxNodes = t.maxNodes
  maxMerges_eq : u.maxMerges = t.maxMerges
  root_eq (n : Nat) : u.root n = t.root n

section Grows

variable {t u : NodeTable} {n : Nat}

theorem nodeLimit_congr (h : u.maxNodes = t.maxNodes) : u.nodeLimit = t.nodeLimit := by
  rw [nodeLimit, nodeLimit, h]

theorem appendFields_frame (t : NodeTable) (base fieldCount offset count : Nat) :
    ∃ nodes sets facts, t.appendFields base fieldCount offset count =
      { t with nodes, sets, facts } := by
  induction count generalizing t offset with
  | zero => exact ⟨t.nodes, t.sets, t.facts, rfl⟩
  | succ count ih =>
      obtain ⟨nodes, sets, facts, h⟩ :=
        ih (t.append (.object { base, offset, fieldCount })) (offset + 1)
      exact ⟨nodes, sets, facts, by rw [appendFields, h, append]⟩

theorem Coherent.root_appendFields (ht : t.Coherent) (base fieldCount offset count n : Nat) :
    (t.appendFields base fieldCount offset count).root n = t.root n :=
  ht.of_append (P := fun u => u.root n = t.root n)
    (fun _ _ hu h => (hu.sets.root_push n).trans h) rfl

theorem Coherent.grows_append (ht : t.Coherent) (hsize : t.size + 1 ≤ t.nodeLimit)
    (kind : NodeKind) : t.Grows (t.append kind) where
  size_le := by
    rw [size_append]
    exact hsize
  maxNodes_eq := rfl
  maxMerges_eq := rfl
  root_eq := ht.sets.root_push

theorem Coherent.grows_addValue (ht : t.Coherent) (h : t.addValue = .ok (n, u)) : t.Grows u := by
  obtain ⟨hroom, rfl⟩ := addValue_eq_ok h
  exact ht.grows_append hroom _

theorem Coherent.grows_addSpecial (ht : t.Coherent) {kind : Special}
    (h : t.addSpecial kind = .ok (n, u)) : t.Grows u := by
  obtain ⟨hroom, rfl⟩ := addSpecial_eq_ok h
  exact ht.grows_append hroom _

theorem Coherent.grows_addObject (ht : t.Coherent) {fieldCount : Nat}
    (h : t.addObject fieldCount = .ok (n, u)) : t.Grows u := by
  have hsize := t.size_appendFields t.size (max fieldCount 1) 0 (max fieldCount 1)
  have hroot := ht.root_appendFields t.size (max fieldCount 1) 0 (max fieldCount 1)
  obtain ⟨nodes, sets, facts, hframe⟩ :=
    t.appendFields_frame t.size (max fieldCount 1) 0 (max fieldCount 1)
  obtain ⟨hroom, rfl⟩ := addObject_eq_ok h
  rw [← hsize] at hroom
  rw [appendObject]
  rw [hframe] at hroot hroom ⊢
  exact ⟨hroom, rfl, rfl, hroot⟩

end Grows

end NodeTable

namespace Run

/-- What a request makes of the table and the constraints of a run if it is granted
and the run is still being built. -/
inductive Gathers (t : NodeTable) (cs : List Constraint) :
    Request → NodeTable → List Constraint → Prop
  | value {n : Nat} {u : NodeTable} (h : t.addValue = .ok (n, u)) : Gathers t cs .value u cs
  | object {fieldCount n : Nat} {u : NodeTable} (h : t.addObject fieldCount = .ok (n, u)) :
      Gathers t cs (.object fieldCount) u cs
  | special {kind : Special} {n : Nat} {u : NodeTable} (h : t.addSpecial kind = .ok (n, u)) :
      Gathers t cs (.special kind) u cs
  | constraints (ds : List Constraint) : Gathers t cs (.constraints ds) t (cs ++ ds)

/-- The table of a run that is being built: within the bounds, and every node a class
of its own. -/
structure Built (limits : Limits) (t : NodeTable) : Prop where
  reachable : t.Reachable
  size_le : t.size ≤ t.nodeLimit
  maxNodes_eq : t.maxNodes = limits.maxNodes
  maxMerges_eq : t.maxMerges = limits.maxMerges
  root_eq (n : Nat) : t.root n = n

section Building

variable {r s : Run} {t u v w : NodeTable} {cs ds es : List Constraint} {q : Request}
  {limits : Limits}

/-- A run that is being built was so before the last request. -/
theorem gathers_of_building (h : (r.after q).state = .building u ds) :
    ∃ t cs, r.state = .building t cs ∧ Gathers t cs q u ds := by
  cases hr : r.state with
  | frozen o =>
      rw [after_of_frozen hr, hr] at h
      cases h
  | aborted =>
      rw [after_of_aborted hr, hr] at h
      cases h
  | building t cs =>
      refine ⟨t, cs, rfl, ?_⟩
      have hcreate : ∀ make : NodeTable → Except AnalysisError (Nat × NodeTable),
          (Action.state (create make) r).state = .building u ds →
            ∃ n, make t = .ok (n, u) ∧ ds = cs := by
        intro make hmake
        rw [state_create hr] at hmake
        split at hmake
        next n u' hok =>
          cases hmake
          exact ⟨n, hok, rfl⟩
        next => cases hmake
      cases q with
      | value =>
          obtain ⟨n, hok, rfl⟩ := hcreate _ h
          exact .value hok
      | object fieldCount =>
          obtain ⟨n, hok, rfl⟩ := hcreate _ h
          exact .object hok
      | special kind =>
          obtain ⟨n, hok, rfl⟩ := hcreate _ h
          exact .special hok
      | constraints es =>
          rw [after, state_addConstraints hr] at h
          cases h
          exact .constraints es
      | solve =>
          rw [after, state_solve hr] at h
          split at h <;> cases h

theorem built_withLimits (limits : Limits) :
    Built limits (.withLimits limits.maxNodes limits.maxMerges) where
  reachable := .empty _ _
  size_le := Nat.zero_le _
  maxNodes_eq := rfl
  maxMerges_eq := rfl
  root_eq n := (NodeTable.wellFormed_withLimits _ _).root_of_size_le (Nat.zero_le n)

theorem Built.grows (h : Built limits t) (hu : u.Reachable) (hgrows : t.Grows u) :
    Built limits u where
  reachable := hu
  size_le := hgrows.size_le
  maxNodes_eq := hgrows.maxNodes_eq.trans h.maxNodes_eq
  maxMerges_eq := hgrows.maxMerges_eq.trans h.maxMerges_eq
  root_eq n := (hgrows.root_eq n).trans (h.root_eq n)

theorem Built.gathers (h : Built limits t) (hq : Gathers t cs q u ds) : Built limits u := by
  have ht := h.reachable.wellFormed.toCoherent
  cases hq with
  | value hok => exact h.grows (.addValue h.reachable hok) (ht.grows_addValue hok)
  | object hok => exact h.grows (.addObject h.reachable hok) (ht.grows_addObject hok)
  | special hok => exact h.grows (.addSpecial h.reachable hok) (ht.grows_addSpecial hok)
  | constraints => exact h

/-- The same request makes twins of twins. -/
theorem Gathers.twin (h : Gathers t cs q u ds) (h' : Gathers v cs q w es) (htwin : t.Twin v) :
    u.Twin w ∧ ds = es := by
  cases h with
  | value hok =>
      cases h' with
      | value hok' => exact ⟨NodeTable.creates_addValue.twin htwin hok hok', rfl⟩
  | object hok =>
      cases h' with
      | object hok' => exact ⟨(NodeTable.creates_addObject _).twin htwin hok hok', rfl⟩
  | special hok =>
      cases h' with
      | special hok' => exact ⟨(NodeTable.creates_addSpecial _).twin htwin hok hok', rfl⟩
  | constraints => cases h' with | constraints => exact ⟨htwin, rfl⟩

/-! ## From the first request on -/

theorem afterAll_concat (r : Run) (requests : List Request) (q : Request) :
    r.afterAll (requests ++ [q]) = (r.afterAll requests).after q := by
  rw [afterAll, List.foldl_concat]
  rfl

theorem config_afterAll (r : Run) (requests : List Request) :
    (r.afterAll requests).config = r.config := by
  induction requests generalizing r with
  | nil => rfl
  | cons q requests ih => exact (ih (r.after q)).trans (r.config_after q)

theorem built_afterAll
    (hr : r.state = .building (.withLimits limits.maxNodes limits.maxMerges) [])
    {requests : List Request} (h : (r.afterAll requests).state = .building t cs) :
    Built limits t := by
  induction requests using List.reverseRecOn generalizing t cs with
  | nil =>
      cases hr.symm.trans h
      exact built_withLimits limits
  | append_singleton requests q ih =>
      rw [afterAll_concat] at h
      obtain ⟨u, ds, hbuilding, hgathers⟩ := gathers_of_building h
      exact (ih hbuilding).gathers hgathers

/-- Runs that are still being built have collected the same, if they got the same
requests. -/
theorem twin_afterAll (hr : r.state = .building t cs) (hs : s.state = .building u cs)
    (htwin : t.Twin u) {requests : List Request}
    (hbuilding : (r.afterAll requests).state = .building v ds)
    (hbuilding' : (s.afterAll requests).state = .building w es) : v.Twin w ∧ ds = es := by
  induction requests using List.reverseRecOn generalizing v w ds es with
  | nil =>
      cases hr.symm.trans hbuilding
      cases hs.symm.trans hbuilding'
      exact ⟨htwin, rfl⟩
  | append_singleton requests q ih =>
      rw [afterAll_concat] at hbuilding hbuilding'
      obtain ⟨v', ds', hv, hgathers⟩ := gathers_of_building hbuilding
      obtain ⟨w', es', hw, hgathers'⟩ := gathers_of_building hbuilding'
      obtain ⟨htwin', rfl⟩ := ih hv hw
      exact hgathers.twin hgathers' htwin'

/-- No run is frozen by a request that collects something. -/
theorem Gathers.not_frozen (h : Gathers t cs q u ds) (hs : ∀ o, s.state ≠ .frozen o) (o : Outcome) :
    (s.after q).state ≠ .frozen o := by
  intro ho
  cases hstate : s.state with
  | frozen p => exact hs p hstate
  | aborted =>
      rw [after_of_aborted hstate, hstate] at ho
      cases ho
  | building v es =>
      have hcreate : ∀ make : NodeTable → Except AnalysisError (Nat × NodeTable),
          (Action.state (create make) s).state ≠ .frozen o := by
        intro make hmake
        rw [state_create hstate] at hmake
        split at hmake <;> cases hmake
      cases h with
      | value => exact hcreate _ ho
      | object => exact hcreate _ ho
      | special => exact hcreate _ ho
      | constraints ds =>
          rw [after, state_addConstraints hstate] at ho
          cases ho

theorem not_frozen_afterAll (hs : ∀ o, s.state ≠ .frozen o) {requests : List Request}
    (h : (r.afterAll requests).state = .building t cs) (o : Outcome) :
    (s.afterAll requests).state ≠ .frozen o := by
  induction requests using List.reverseRecOn generalizing t cs o with
  | nil => exact hs o
  | append_singleton requests q ih =>
      rw [afterAll_concat] at h ⊢
      obtain ⟨u, ds, hbuilding, hgathers⟩ := gathers_of_building h
      exact hgathers.not_frozen (ih hbuilding) o

/-! ## Solving -/

/-- A run that can be solved and is not frozen is being built. -/
theorem building_of_solve_eq_ok {g : Graph} (hs : ∀ o, r.state ≠ .frozen o)
    (h : solve r = .ok g s) : ∃ t cs, r.state = .building t cs := by
  unfold solve at h
  split at h
  next o hstate => exact absurd hstate (hs o)
  next => cases h
  next t cs hstate => exact ⟨t, cs, hstate⟩

/-- A run that is solved gives the least solution of what it has collected. -/
theorem represents_of_solve_eq_ok {g : Graph} (ht : t.WellFormed) (hr : r.state = .building t cs)
    (h : solve r = .ok g s) : g.Represents t (leastSolution t r.config.fieldSensitive cs) := by
  have hends := analyze_ends ht r.config r.schedule cs r.log
  unfold Action.Ends at hends
  unfold solve at h
  rw [hr] at h
  dsimp only at h
  split at h
  next o log ho =>
    cases h
    rwa [ho] at hends
  next => cases h

end Building

end Run

end PointsTo
