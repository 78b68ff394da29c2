import PointsTo.Proofs.Constraint

/-!
# Ill-formed constraints

Whether a constraint has a flaw is decided by a chain of checks, and a bound on
offsets that a table keeps count of. What they come to can be said without
either: an operand is not in the table, an offset is given where none is taken or
is beyond every object, or the address of a variable is taken (`IllFormed`). The
flaw that is found in a list is that of the first such constraint.
-/

namespace PointsTo

namespace NodeTable

variable {t : NodeTable}

/-- The largest number of fields on record is that of the largest object. -/
theorem Reachable.maxFieldCount_le_iff (ht : t.Reachable) {k : Nat} :
    t.maxFieldCount ≤ k ↔ ∀ n l, t.layout? n = some l → l.fieldCount ≤ k := by
  induction ht with
  | empty maxNodes maxMerges =>
      refine ⟨fun _ n l h => ?_, fun _ => Nat.zero_le k⟩
      exact absurd (lt_size_of_layout? h) (Nat.not_lt_zero n)
  | applyLimits limits _ ih => exact ih
  | @addValue t _ _ _ h ih =>
      have hlayout := t.layout?_append fun l => (nofun : NodeKind.value ≠ .object l)
      obtain ⟨_, rfl⟩ := addValue_eq_ok h
      simp only [hlayout]
      exact ih
  | @addObject t _ fieldCount _ _ h ih =>
      have hlayout := t.layout?_appendFields (max fieldCount 1)
      obtain ⟨_, rfl⟩ := addObject_eq_ok h
      change max t.maxFieldCount (max fieldCount 1) ≤ k ↔ ∀ n l,
        (t.appendFields t.size (max fieldCount 1) 0 (max fieldCount 1)).layout? n = some l →
          l.fieldCount ≤ k
      rw [Nat.max_le, ih]
      constructor
      · rintro ⟨hold, hnew⟩ n l hl
        rw [hlayout] at hl
        split at hl
        next =>
          cases hl
          exact hnew
        next => exact hold n l hl
      · refine fun hall => ⟨fun n l hl => hall n l ?_, ?_⟩
        · have hlt := lt_size_of_layout? hl
          rw [hlayout, if_neg (by omega), hl]
        · have hfirst := hlayout t.size
          rw [if_pos (by omega)] at hfirst
          exact hall t.size _ hfirst
  | @addSpecial t _ kind _ _ h ih =>
      have hlayout := t.layout?_append fun l => (nofun : NodeKind.special kind ≠ .object l)
      obtain ⟨_, rfl⟩ := addSpecial_eq_ok h
      simp only [hlayout]
      exact ih
  | merge ht h ih =>
      obtain ⟨ha, hb, hmerge⟩ := merge?_eq_some h
      rcases ht.wellFormed.merge_cases ha hb hmerge with ⟨_, _, rfl⟩ | ⟨_, gone, habs, _⟩
      · exact ih
      · simp only [habs.maxFieldCount_eq, layout?_congr habs.nodes_eq]
        exact ih

theorem Reachable.maxFieldCount_congr {u : NodeTable} (ht : t.Reachable) (hu : u.Reachable)
    (h : u.nodes = t.nodes) : u.maxFieldCount = t.maxFieldCount := by
  have hle : ∀ k, u.maxFieldCount ≤ k ↔ t.maxFieldCount ≤ k := fun k => by
    simp only [hu.maxFieldCount_le_iff, ht.maxFieldCount_le_iff, layout?_congr h]
  exact Nat.le_antisymm ((hle _).2 (Nat.le_refl _)) ((hle _).1 (Nat.le_refl _))

end NodeTable

namespace Constraint

/-- What makes a constraint ill formed for a table. -/
inductive IllFormed (t : NodeTable) (fieldSensitive : Bool) (c : Constraint) : Prop
  | unknownNode (h : t.size ≤ c.dest ∨ t.size ≤ c.src)
  | offsetTaken (hkind : c.kind = .addrOf ∨ c.kind = .copy) (h : c.offset ≠ 0)
  | addressOfValue (hkind : c.kind = .addrOf) (h : ∃ node, t.node? c.src = some node ∧
      node.kind = .value)
  | offsetTooLarge (hfields : fieldSensitive = true) (hkind : c.kind = .load ∨ c.kind = .store)
      (hpos : 0 < c.offset) (h : ∀ n l, t.layout? n = some l → l.fieldCount ≤ c.offset)

section IllFormed

variable {t : NodeTable} {fieldSensitive : Bool} {c : Constraint}

theorem isPointee_eq_false_iff {n : Nat} (hn : n < t.size) :
    t.isPointee n = false ↔ ∃ node, t.node? n = some node ∧ node.kind = .value := by
  obtain ⟨node, hnode⟩ : ∃ node, t.node? n = some node := ⟨_, Array.getElem?_eq_getElem hn⟩
  rw [NodeTable.isPointee, hnode, Option.any_some, Node.isPointee]
  cases hkind : node.kind <;> simp [hkind]

theorem illFormed_of_flaw? (ht : t.Reachable) {flaw : Flaw}
    (h : c.flaw? t fieldSensitive = some flaw) : c.IllFormed t fieldSensitive := by
  unfold flaw? at h
  split at h
  next hdest => exact .unknownNode (.inl hdest)
  next =>
    split at h
    next hsrc => exact .unknownNode (.inr hsrc)
    next hsrc =>
      split at h
      next hkind =>
        split at h
        next hoffset => exact .offsetTaken (.inl hkind) hoffset
        next =>
          split at h
          next => cases h
          next hpointee =>
            exact .addressOfValue hkind
              ((isPointee_eq_false_iff (Nat.lt_of_not_le hsrc)).1 (eq_false_of_ne_true hpointee))
      next hkind =>
        split at h
        next hoffset => exact .offsetTaken (.inr hkind) hoffset
        next => cases h
      next hkind =>
        split at h
        next hlarge =>
          exact .offsetTooLarge hlarge.1 (.inl hkind) hlarge.2.1
            (ht.maxFieldCount_le_iff.1 hlarge.2.2)
        next => cases h
      next hkind =>
        split at h
        next hlarge =>
          exact .offsetTooLarge hlarge.1 (.inr hkind) hlarge.2.1
            (ht.maxFieldCount_le_iff.1 hlarge.2.2)
        next => cases h

/-- No flaw is found exactly in constraints that are not ill formed. -/
theorem flaw?_eq_none_iff (ht : t.Reachable) :
    c.flaw? t fieldSensitive = none ↔ ¬c.IllFormed t fieldSensitive := by
  constructor
  · intro hnone hill
    obtain ⟨hdest, hsrc⟩ := lt_size_of_flaw? hnone
    cases hill with
    | unknownNode h =>
        rcases h with h | h
        · exact Nat.not_le.2 hdest h
        · exact Nat.not_le.2 hsrc h
    | offsetTaken hkind h =>
        rcases hkind with hkind | hkind <;>
          simp [flaw?, Nat.not_le.2 hdest, Nat.not_le.2 hsrc, hkind, h] at hnone
    | addressOfValue hkind h =>
        rw [← isPointee_eq_false_iff hsrc, isPointee_of_flaw? hnone hkind] at h
        cases h
    | offsetTooLarge hfields hkind hpos h =>
        have hlarge := ht.maxFieldCount_le_iff.2 h
        rcases hkind with hkind | hkind <;>
          simp [flaw?, Nat.not_le.2 hdest, Nat.not_le.2 hsrc, hkind, hfields, hpos, hlarge]
            at hnone
  · intro hwell
    by_contra hflaw
    obtain ⟨flaw, hflaw⟩ := Option.ne_none_iff_exists'.1 hflaw
    exact hwell (illFormed_of_flaw? ht hflaw)

end IllFormed

/-- The flaw of a list is that of its first flawed element. -/
theorem firstFlaw?_eq_some_iff {t : NodeTable} {fieldSensitive : Bool} {index k : Nat}
    {flaw : Flaw} {cs : List Constraint} :
    firstFlaw? t fieldSensitive index cs = some (k, flaw) ↔
      ∃ i c, k = index + i ∧ cs[i]? = some c ∧ c.flaw? t fieldSensitive = some flaw ∧
        ∀ d ∈ cs.take i, d.flaw? t fieldSensitive = none := by
  induction cs generalizing index with
  | nil => simp [firstFlaw?]
  | cons c cs ih =>
      rw [firstFlaw?]
      cases hc : c.flaw? t fieldSensitive with
      | some first =>
          constructor
          · intro h
            cases h
            exact ⟨0, c, rfl, rfl, hc, by simp⟩
          · rintro ⟨i, d, rfl, hd, hflaw, hbefore⟩
            cases i with
            | zero =>
                cases hd
                rw [← hc, hflaw]
                rfl
            | succ i =>
                rw [hbefore c (by simp)] at hc
                cases hc
      | none =>
          refine ih.trans ⟨?_, ?_⟩
          · rintro ⟨i, d, rfl, hd, hflaw, hbefore⟩
            exact ⟨i + 1, d, by omega, hd, hflaw, List.forall_mem_cons.2 ⟨hc, hbefore⟩⟩
          · rintro ⟨i, d, rfl, hd, hflaw, hbefore⟩
            cases i with
            | zero =>
                cases hd
                rw [hc] at hflaw
                cases hflaw
            | succ i =>
                exact ⟨i, d, by omega, hd, hflaw, (List.forall_mem_cons.1 hbefore).2⟩

/-- The first ill-formed constraint of a list has the number `i`. -/
def FirstIllFormed (t : NodeTable) (fieldSensitive : Bool) (cs : List Constraint) (i : Nat) :
    Prop :=
  ∃ c, cs[i]? = some c ∧ c.IllFormed t fieldSensitive ∧
    ∀ d ∈ cs.take i, ¬d.IllFormed t fieldSensitive

theorem firstIllFormed_iff {t : NodeTable} (ht : t.Reachable) {fieldSensitive : Bool}
    {cs : List Constraint} {i : Nat} :
    FirstIllFormed t fieldSensitive cs i ↔
      ∃ flaw, firstFlaw? t fieldSensitive 0 cs = some (i, flaw) := by
  constructor
  · rintro ⟨c, hc, hill, hbefore⟩
    have hflaw : c.flaw? t fieldSensitive ≠ none := fun h => (flaw?_eq_none_iff ht).1 h hill
    obtain ⟨flaw, hflaw⟩ := Option.ne_none_iff_exists'.1 hflaw
    refine ⟨flaw, firstFlaw?_eq_some_iff.2 ⟨i, c, i.zero_add.symm, hc, hflaw, fun d hd => ?_⟩⟩
    exact (flaw?_eq_none_iff ht).2 (hbefore d hd)
  · rintro ⟨flaw, h⟩
    obtain ⟨_, c, rfl, hc, hflaw, hbefore⟩ := firstFlaw?_eq_some_iff.1 h
    rw [Nat.zero_add]
    exact ⟨c, hc, illFormed_of_flaw? ht hflaw,
      fun d hd => (flaw?_eq_none_iff ht).1 (hbefore d hd)⟩

end Constraint

end PointsTo
