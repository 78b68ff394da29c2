import PointsTo.Constraint.Flaw
import PointsTo.Proofs.NodeTable

/-!
# Constraints without flaws

A list of constraints is valid exactly if none of them has a flaw. What the
solver takes from this is small: the operands are nodes of the table, and an
address is only taken of a node that something can point to.
-/

namespace PointsTo

namespace Constraint

theorem firstFlaw?_eq_none_iff {t : NodeTable} {fieldSensitive : Bool} {index : Nat}
    {cs : List Constraint} :
    firstFlaw? t fieldSensitive index cs = none ↔ ∀ c ∈ cs, c.flaw? t fieldSensitive = none := by
  induction cs generalizing index with
  | nil => simp [firstFlaw?]
  | cons c cs ih =>
      rw [firstFlaw?, List.forall_mem_cons]
      cases c.flaw? t fieldSensitive with
      | some flaw => simp
      | none => simp [ih]

section Flawless

variable {t : NodeTable} {fieldSensitive : Bool} {c : Constraint}

theorem lt_size_of_flaw? (h : c.flaw? t fieldSensitive = none) :
    c.dest < t.size ∧ c.src < t.size := by
  unfold flaw? at h
  split at h
  next => cases h
  next hdest =>
    split at h
    next => cases h
    next hsrc => exact ⟨Nat.lt_of_not_le hdest, Nat.lt_of_not_le hsrc⟩

theorem isPointee_of_flaw? (h : c.flaw? t fieldSensitive = none) (hkind : c.kind = .addrOf) :
    t.isPointee c.src = true := by
  obtain ⟨hdest, hsrc⟩ := lt_size_of_flaw? h
  rw [flaw?, if_neg (Nat.not_le.2 hdest), if_neg (Nat.not_le.2 hsrc), hkind] at h
  by_contra hpointee
  by_cases hoffset : c.offset = 0 <;> simp [hpointee, hoffset] at h

end Flawless

/-- With `p` and `q` for the variables and `o` for the object of `NodeTable.sample`:
`p = &o`, `q = &(o + 1)`, `*(p + 1) = q`, `q = *(p + 1)`, `q = p`. -/
def sample : List Constraint := [addrOf 0 2, addrOf 1 3, store 0 1 1, load 1 0 1, copy 1 0]

/-- Over the same table `p = &o`, `q = &o`, copies between the fields of `o` in both
directions, and `*(p + 1) = q`: the variables have the same input, and the fields
are a cycle. -/
def redundant : List Constraint := [addrOf 0 2, addrOf 1 2, copy 2 3, copy 3 2, store 0 1 1]

/-- Over `NodeTable.mixed`, with the variables `p` and `q`, null and unknown memory
`u`: `p = null`, `u = q`, `q = u`, `q = null`, `*p = q`. The copies and the store
make a cycle of `q`, null and `u`. -/
def mixed : List Constraint := [addrOf 0 2, copy 3 1, copy 1 3, copy 1 2, store 0 1 0]

/-- Over `NodeTable.mixed` `p = null`, `q = null`, copies between null and unknown memory in
both directions, and `null = q`: the variables have the same input, and the cycle cannot be
joined. -/
def exchange : List Constraint := [addrOf 0 2, addrOf 1 2, copy 2 3, copy 3 2, copy 2 1]

/-- Over the table of `sample` `p = &o`, `p = p`, `q = &o`: the copy makes the variable `p` an
input of its own. -/
def selfCopied : List Constraint := [addrOf 0 2, copy 0 0, addrOf 1 2]

end Constraint

theorem NodeTable.validate_eq_ok_iff {t : NodeTable} {fieldSensitive : Bool}
    {cs : List Constraint} :
    t.validate fieldSensitive cs = .ok () ↔ ∀ c ∈ cs, c.flaw? t fieldSensitive = none := by
  have hfirst : Constraint.firstFlaw? t fieldSensitive 0 cs = none ↔
      ∀ c ∈ cs, c.flaw? t fieldSensitive = none := Constraint.firstFlaw?_eq_none_iff
  rw [← hfirst, validate]
  split <;> simp [*]

theorem NodeTable.exists_invalidConstraint_of_validate {t : NodeTable} {fieldSensitive : Bool}
    {cs : List Constraint} {e : AnalysisError} (h : t.validate fieldSensitive cs = .error e) :
    ∃ index reason, e = .invalidConstraint index reason := by
  unfold validate at h
  split at h
  next index flaw _ => exact ⟨index, flaw.message, (Except.error.inj h).symm⟩
  next => cases h

end PointsTo
