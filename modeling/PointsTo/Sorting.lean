/-!
# Sorting

Insertion sort by a relation `before`. Elements that are equal for the relation
keep their order, and none is dropped.
-/

namespace PointsTo

variable {α : Type}

/-- Puts `a` in front of the first element that it may precede. -/
def insertBy (before : α → α → Bool) (a : α) : List α → List α
  | [] => [a]
  | b :: bs => if before a b then a :: b :: bs else b :: insertBy before a bs

def sortBy (before : α → α → Bool) (as : List α) : List α := as.foldr (insertBy before) []

@[simp] theorem sortBy_nil (before : α → α → Bool) : sortBy before [] = [] := rfl

theorem sortBy_cons (before : α → α → Bool) (a : α) (as : List α) :
    sortBy before (a :: as) = insertBy before a (sortBy before as) := rfl

theorem insertBy_perm (before : α → α → Bool) (a : α) (as : List α) :
    (insertBy before a as).Perm (a :: as) := by
  induction as with
  | nil => exact .refl _
  | cons b bs ih =>
    rw [insertBy]
    split
    · exact .refl _
    · exact (ih.cons b).trans (.swap a b bs)

theorem sortBy_perm (before : α → α → Bool) (as : List α) : (sortBy before as).Perm as := by
  induction as with
  | nil => exact .refl _
  | cons a as ih => exact (insertBy_perm before a _).trans (ih.cons a)

section Pairwise

variable {before : α → α → Bool} (htotal : ∀ a b, before a b = true ∨ before b a = true)
  (htrans : ∀ a b c, before a b = true → before b c = true → before a c = true)

include htotal htrans

theorem pairwise_insertBy (a : α) {as : List α} (has : as.Pairwise fun b c => before b c = true) :
    (insertBy before a as).Pairwise fun b c => before b c = true := by
  induction as with
  | nil => exact List.pairwise_singleton _ a
  | cons b bs ih =>
    have hbs := List.pairwise_cons.1 has
    rw [insertBy]
    split
    next hab =>
      refine List.pairwise_cons.2 ⟨fun c hc => ?_, has⟩
      rcases List.mem_cons.1 hc with rfl | hc
      · exact hab
      · exact htrans a b c hab (hbs.1 c hc)
    next hab =>
      refine List.pairwise_cons.2 ⟨fun c hc => ?_, ih hbs.2⟩
      rcases List.mem_cons.1 ((insertBy_perm before a bs).mem_iff.1 hc) with rfl | hc
      · exact (htotal c b).resolve_left hab
      · exact hbs.1 c hc

/-- A list that is sorted by a total preorder is in order. -/
theorem pairwise_sortBy (as : List α) :
    (sortBy before as).Pairwise fun a b => before a b = true := by
  induction as with
  | nil => exact List.Pairwise.nil
  | cons a as ih => exact pairwise_insertBy htotal htrans a ih

end Pairwise

/-- Numbers in ascending order, repeated ones kept. -/
def ascending (ns : List Nat) : List Nat := sortBy (fun a b => decide (a ≤ b)) ns

/-- Lists in the order of the first numbers in which they differ. -/
def lexicographic : List Nat → List Nat → Bool
  | [], _ => true
  | _ :: _, [] => false
  | a :: as, b :: bs => decide (a < b) || (a == b && lexicographic as bs)

end PointsTo
