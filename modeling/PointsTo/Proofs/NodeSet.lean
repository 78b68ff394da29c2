import PointsTo.NodeSet
import Mathlib.Data.List.Perm.Subperm

/-!
# The elements of a node set

Every operation on sets of nodes is described by the nodes it leaves in the set,
under the assumption that the sets it starts from are ascending; the result is
then ascending again. Two ascending sets with the same nodes are equal, so the
three ways in which `union` may go need not be told apart afterwards.

The number that `union` reports is what the set gains in size. In particular it
is zero exactly if nothing was added, which is how a solver decides whether a
node has to be looked at again.
-/

namespace PointsTo

namespace NodeSet

theorem Ascending.nodup {s : NodeSet} (hs : s.Ascending) : s.elements.Nodup :=
  hs.imp fun hlt => Nat.ne_of_lt hlt

theorem ext_of_ascending {s t : NodeSet} (hs : s.Ascending) (ht : t.Ascending)
    (h : ∀ x, x ∈ s ↔ x ∈ t) : s = t := by
  have hperm : s.elements.Perm t.elements :=
    (List.perm_ext_iff_of_nodup hs.nodup ht.nodup).2 h
  have heq : s.elements = t.elements :=
    hperm.eq_of_pairwise (fun a b _ _ hab hba => absurd hab (Nat.lt_asymm hba)) hs ht
  cases s
  cases t
  exact congrArg NodeSet.mk heq

@[simp] theorem not_mem_empty (x : Nat) : x ∉ empty := List.not_mem_nil

@[simp] theorem not_mem_default (x : Nat) : x ∉ ({} : NodeSet) := List.not_mem_nil

theorem ascending_empty : empty.Ascending := List.Pairwise.nil

theorem isEmpty_iff {s : NodeSet} : s.isEmpty = true ↔ ∀ x, x ∉ s := by
  rw [isEmpty, List.isEmpty_iff, List.eq_nil_iff_forall_not_mem]
  rfl

/-! ## Searching -/

theorem mem_of_locate_found {x start i : Nat} {window : List Nat}
    (h : locate x start window = .found i) : x ∈ window := by
  fun_induction locate x start window with
  | case1 start window _ half _ ih => exact List.mem_of_mem_take (ih h)
  | case2 start window _ half _ ih => exact List.mem_of_mem_drop (ih h)
  | case3 => simp at h
  | case4 => simp
  | case5 => simp at h
  | case6 => simp at h

/-- The place for a missing node parts an ascending window into the nodes below
and the nodes above it. -/
theorem locate_missing {x start i : Nat} {window : List Nat}
    (hw : window.Pairwise (· < ·)) (h : locate x start window = .missing i) :
    start ≤ i ∧ i ≤ start + window.length ∧ ∀ (j : Nat) (hj : j < window.length),
      (start + j < i → window[j] < x) ∧ (i ≤ start + j → x < window[j]) := by
  fun_induction locate x start window with
  | case1 start window hlen half hlt ih =>
      obtain ⟨hstart, hend, hparts⟩ := ih (hw.sublist (List.take_sublist _ _)) h
      simp only [List.length_take, List.getElem_take] at hend hparts
      refine ⟨hstart, by omega, fun j hj => ?_⟩
      by_cases hcut : j < window.length - half
      · exact hparts j (by omega)
      · -- what the shortened window leaves out lies at or after `half`
        have hle : window[half] ≤ window[j] := by
          rcases Nat.lt_or_eq_of_le (show half ≤ j by omega) with hhalf | hhalf
          · exact Nat.le_of_lt (List.pairwise_iff_getElem.1 hw _ _ _ _ hhalf)
          · simp only [hhalf, Nat.le_refl]
        exact ⟨by omega, by omega⟩
  | case2 start window hlen half hge ih =>
      obtain ⟨hstart, hend, hparts⟩ := ih (hw.sublist (List.drop_sublist _ _)) h
      simp only [List.length_drop, List.getElem_drop] at hend hparts
      refine ⟨by omega, by omega, fun j hj => ?_⟩
      by_cases hcut : j < half
      · have hlt : window[j] < window[half] := List.pairwise_iff_getElem.1 hw _ _ _ _ hcut
        exact ⟨by omega, by omega⟩
      · have hj' := hparts (j - half) (by omega)
        simp only [show half + (j - half) = j by omega] at hj'
        exact ⟨fun hlt => hj'.1 (by omega), fun hle => hj'.2 (by omega)⟩
  | case3 => simp_all
  | case4 => simp at h
  | case5 start y tail hlen hne hlt =>
      cases h
      refine ⟨by omega, by simp, fun j hj => ?_⟩
      obtain rfl : j = 0 := by omega
      exact ⟨fun _ => hlt, by omega⟩
  | case6 start y tail hlen hne hge =>
      cases h
      refine ⟨by omega, by simp, fun j hj => ?_⟩
      obtain rfl : j = 0 := by omega
      exact ⟨by omega, fun _ => by simp only [List.getElem_cons_zero]; omega⟩

/-- An ascending set falls into two parts around the place of a missing node. -/
theorem Ascending.split_of_missing {s : NodeSet} {x i : Nat} (hs : s.Ascending)
    (h : locate x 0 s.elements = .missing i) :
    (∀ y ∈ s.elements.take i, y < x) ∧ ∀ y ∈ s.elements.drop i, x < y := by
  obtain ⟨_, _, hparts⟩ := locate_missing hs h
  constructor
  · intro y hy
    obtain ⟨j, hj, rfl⟩ := List.mem_take_iff_getElem.1 hy
    exact (hparts j (by omega)).1 (by omega)
  · intro y hy
    obtain ⟨j, hj, rfl⟩ := List.mem_drop_iff_getElem.1 hy
    exact (hparts (i + j) (by omega)).2 (by omega)

theorem not_mem_of_locate_missing {s : NodeSet} {x i : Nat} (hs : s.Ascending)
    (h : locate x 0 s.elements = .missing i) : x ∉ s := by
  intro hx
  obtain ⟨hbelow, habove⟩ := hs.split_of_missing h
  rw [mem_def, ← List.take_append_drop i s.elements, List.mem_append] at hx
  rcases hx with hx | hx
  · exact Nat.lt_irrefl _ (hbelow x hx)
  · exact Nat.lt_irrefl _ (habove x hx)

theorem contains_iff {s : NodeSet} {x : Nat} (hs : s.Ascending) :
    s.contains x = true ↔ x ∈ s := by
  rw [contains]
  cases h : locate x 0 s.elements with
  | found i => exact iff_of_true rfl (mem_of_locate_found h)
  | missing i => exact iff_of_false Bool.false_ne_true (not_mem_of_locate_missing hs h)

/-! ## Inserting and erasing -/

/-- What an insertion does: a node that is there leaves the set as it is, and any
other is put between the nodes below and above it. -/
theorem insert_eq {s : NodeSet} {x : Nat} (hs : s.Ascending) :
    (x ∈ s ∧ s.insert x = (s, false)) ∨
      x ∉ s ∧ ∃ i, s.insert x = (⟨s.elements.take i ++ x :: s.elements.drop i⟩, true) ∧
        (∀ y ∈ s.elements.take i, y < x) ∧ ∀ y ∈ s.elements.drop i, x < y := by
  cases h : locate x 0 s.elements with
  | found i => exact .inl ⟨mem_of_locate_found h, by simp [insert, h]⟩
  | missing i =>
      exact .inr ⟨not_mem_of_locate_missing hs h, i, by simp [insert, h], hs.split_of_missing h⟩

theorem insert_fresh_iff {s : NodeSet} {x : Nat} (hs : s.Ascending) :
    (s.insert x).2 = true ↔ x ∉ s := by
  rcases insert_eq (x := x) hs with ⟨hx, h⟩ | ⟨hx, i, h, _⟩ <;> simp [h, hx]

theorem mem_insert {s : NodeSet} {x y : Nat} (hs : s.Ascending) :
    y ∈ (s.insert x).1 ↔ y = x ∨ y ∈ s := by
  rcases insert_eq (x := x) hs with ⟨hx, h⟩ | ⟨_, i, h, _⟩
  · rw [h]
    exact ⟨.inr, fun hy => hy.elim (fun heq => heq ▸ hx) id⟩
  · have hparts : y ∈ s.elements ↔ y ∈ s.elements.take i ∨ y ∈ s.elements.drop i := by
      rw [← List.mem_append, List.take_append_drop]
    rw [h, mem_def, mem_def, hparts, List.mem_append, List.mem_cons]
    tauto

theorem ascending_insert {s : NodeSet} {x : Nat} (hs : s.Ascending) :
    (s.insert x).1.Ascending := by
  rcases insert_eq (x := x) hs with ⟨_, h⟩ | ⟨_, i, h, hbelow, habove⟩
  · rwa [h]
  · rw [h]
    refine List.pairwise_append.2 ⟨hs.sublist (List.take_sublist _ _),
      List.pairwise_cons.2 ⟨habove, hs.sublist (List.drop_sublist _ _)⟩, ?_⟩
    intro y hy z hz
    rcases List.mem_cons.1 hz with rfl | hz
    · exact hbelow y hy
    · exact Nat.lt_trans (hbelow y hy) (habove z hz)

theorem size_insert (s : NodeSet) (x : Nat) :
    (s.insert x).1.size = s.size + if (s.insert x).2 then 1 else 0 := by
  unfold insert
  cases locate x 0 s.elements with
  | found i => simp
  | missing i =>
      have hparts := congrArg List.length (List.take_append_drop i s.elements)
      rw [List.length_append] at hparts
      simp only [size, List.length_append, List.length_cons, if_true]
      omega

theorem mem_add {s : NodeSet} {x y : Nat} (hs : s.Ascending) : y ∈ s.add x ↔ y = x ∨ y ∈ s :=
  mem_insert hs

theorem ascending_add {s : NodeSet} {x : Nat} (hs : s.Ascending) : (s.add x).Ascending :=
  ascending_insert hs

theorem mem_erase {s : NodeSet} {x y : Nat} (hs : s.Ascending) :
    y ∈ s.erase x ↔ y ≠ x ∧ y ∈ s :=
  hs.nodup.mem_erase_iff

theorem ascending_erase {s : NodeSet} {x : Nat} (hs : s.Ascending) : (s.erase x).Ascending :=
  hs.sublist List.erase_sublist

theorem mem_place {x y : Nat} {ys : List Nat} : y ∈ place x ys ↔ y = x ∨ y ∈ ys := by
  fun_induction place x ys with
  | case1 => simp
  | case2 => simp
  | case3 => simp
  | case4 z zs _ _ ih => simp only [List.mem_cons, ih]; tauto

theorem pairwise_place {x : Nat} {ys : List Nat} (hys : ys.Pairwise (· < ·)) :
    (place x ys).Pairwise (· < ·) := by
  fun_induction place x ys with
  | case1 => simp
  | case2 y ys hlt =>
      refine List.pairwise_cons.2 ⟨fun z hz => ?_, hys⟩
      rcases List.mem_cons.1 hz with rfl | hz
      · exact hlt
      · exact Nat.lt_trans hlt (List.rel_of_pairwise_cons hys hz)
  | case3 => exact hys
  | case4 y ys hge hne ih =>
      refine List.pairwise_cons.2 ⟨fun z hz => ?_, ih hys.of_cons⟩
      rcases mem_place.1 hz with rfl | hz
      · omega
      · exact List.rel_of_pairwise_cons hys hz

@[simp] theorem mem_ofList {y : Nat} {xs : List Nat} : y ∈ ofList xs ↔ y ∈ xs := by
  induction xs with
  | nil => simp
  | cons x xs ih => rw [ofList_cons, mem_def, mem_place, ← mem_def, ih, List.mem_cons]

theorem ascending_ofList (xs : List Nat) : (ofList xs).Ascending := by
  induction xs with
  | nil => exact ascending_empty
  | cons x xs ih => exact pairwise_place ih

/-! ## Joining -/

theorem mem_merge {y : Nat} {xs ys : List Nat} : y ∈ merge xs ys ↔ y ∈ xs ∨ y ∈ ys := by
  fun_induction merge xs ys with
  | case1 => simp
  | case2 => simp
  | case3 x xs z ys _ ih => simp only [List.mem_cons, ih]; tauto
  | case4 x xs z ys _ _ ih => simp only [List.mem_cons, ih]; tauto
  | case5 x xs z ys _ _ ih =>
      obtain rfl : x = z := by omega
      simp only [List.mem_cons, ih]
      tauto

theorem pairwise_merge {xs ys : List Nat} (hxs : xs.Pairwise (· < ·))
    (hys : ys.Pairwise (· < ·)) : (merge xs ys).Pairwise (· < ·) := by
  fun_induction merge xs ys with
  | case1 => exact hys
  | case2 => exact hxs
  | case3 x xs y ys hlt ih =>
      refine List.pairwise_cons.2 ⟨fun z hz => ?_, ih hxs.of_cons hys⟩
      rcases mem_merge.1 hz with hz | hz
      · exact List.rel_of_pairwise_cons hxs hz
      · rcases List.mem_cons.1 hz with rfl | hz
        · exact hlt
        · exact Nat.lt_trans hlt (List.rel_of_pairwise_cons hys hz)
  | case4 x xs y ys _ hlt ih =>
      refine List.pairwise_cons.2 ⟨fun z hz => ?_, ih hxs hys.of_cons⟩
      rcases mem_merge.1 hz with hz | hz
      · rcases List.mem_cons.1 hz with rfl | hz
        · exact hlt
        · exact Nat.lt_trans hlt (List.rel_of_pairwise_cons hxs hz)
      · exact List.rel_of_pairwise_cons hys hz
  | case5 x xs y ys _ _ ih =>
      obtain rfl : x = y := by omega
      refine List.pairwise_cons.2 ⟨fun z hz => ?_, ih hxs.of_cons hys.of_cons⟩
      rcases mem_merge.1 hz with hz | hz
      · exact List.rel_of_pairwise_cons hxs hz
      · exact List.rel_of_pairwise_cons hys hz

theorem length_le_length_merge (xs ys : List Nat) : xs.length ≤ (merge xs ys).length := by
  fun_induction merge xs ys with
  | case1 => simp
  | case2 => simp
  | case3 x xs y ys _ ih => simpa using ih
  | case4 x xs y ys _ _ ih => simp only [List.length_cons] at ih ⊢; omega
  | case5 x xs y ys _ _ ih => simpa using ih

theorem length_merge_le (xs ys : List Nat) : (merge xs ys).length ≤ xs.length + ys.length := by
  fun_induction merge xs ys with
  | case1 => simp
  | case2 => simp
  | case3 x xs y ys _ ih => simp only [List.length_cons] at ih ⊢; omega
  | case4 x xs y ys _ _ ih => simp only [List.length_cons] at ih ⊢; omega
  | case5 x xs y ys _ _ ih => simp only [List.length_cons] at ih ⊢; omega

theorem size_insertAll (s : NodeSet) (xs : List Nat) :
    (s.insertAll xs).1.size = s.size + (s.insertAll xs).2 := by
  induction xs generalizing s with
  | nil => rfl
  | cons x xs ih =>
      have hsize := ih (s.insert x).1
      rw [size_insert] at hsize
      simp only [insertAll, hsize]
      split <;> omega

theorem insertAll_snd_le (s : NodeSet) (xs : List Nat) : (s.insertAll xs).2 ≤ xs.length := by
  induction xs generalizing s with
  | nil => exact Nat.le_refl 0
  | cons x xs ih =>
      have hle := ih (s.insert x).1
      simp only [insertAll, List.length_cons]
      split <;> omega

/-- What a union reports as new is what its result has more, whatever the lists are. -/
theorem size_union (s t : NodeSet) : (s.union t).1.size = s.size + (s.union t).2 := by
  have hle := length_le_length_merge s.elements t.elements
  unfold union
  split
  next => rfl
  next =>
    split
    next hempty =>
      rw [List.isEmpty_iff] at hempty
      simp [size, hempty]
    next =>
      split
      next => exact size_insertAll s t.elements
      next =>
        dsimp only
        split
        next => simp only [size] at hle ⊢; omega
        next => simp only [size] at *; omega

theorem union_snd_le (s t : NodeSet) : (s.union t).2 ≤ t.size := by
  have hle := length_merge_le s.elements t.elements
  unfold union
  split
  next => exact Nat.zero_le _
  next =>
    split
    next => exact Nat.le_refl _
    next =>
      split
      next => exact insertAll_snd_le s t.elements
      next =>
        simp only [size] at hle ⊢
        omega

/-- What a union is: the result, described by its nodes and by its size. -/
structure Unites (s t : NodeSet) (result : NodeSet × Nat) : Prop where
  ascending : result.1.Ascending
  mem (y : Nat) : y ∈ result.1 ↔ y ∈ s ∨ y ∈ t
  size : result.1.size = s.size + result.2

theorem insertAll_unites {s : NodeSet} (hs : s.Ascending) (xs : List Nat) :
    Unites s ⟨xs⟩ (s.insertAll xs) := by
  induction xs generalizing s with
  | nil =>
      refine ⟨hs, fun y => ?_, rfl⟩
      simp [insertAll, mem_def]
  | cons x xs ih =>
      have hrest := ih (ascending_insert (x := x) hs)
      refine ⟨hrest.ascending, fun y => ?_, size_insertAll s (x :: xs)⟩
      have hmem := hrest.mem y
      rw [mem_insert hs] at hmem
      simp only [mem_def, List.mem_cons] at hmem ⊢
      rw [insertAll, hmem]
      tauto

/-- All three ways of a union lead to the same result. -/
theorem union_unites {s t : NodeSet} (hs : s.Ascending) (ht : t.Ascending) :
    Unites s t (s.union t) := by
  have hsets : (s.union t).1.Ascending ∧ ∀ y, y ∈ (s.union t).1 ↔ y ∈ s ∨ y ∈ t := by
    unfold union
    split
    next hempty =>
      have hnone : ∀ y, y ∉ t := isEmpty_iff.1 hempty
      exact ⟨hs, fun y => by simp [hnone]⟩
    next =>
      split
      next hempty =>
        have hnone : ∀ y, y ∉ s := isEmpty_iff.1 hempty
        exact ⟨ht, fun y => by simp [hnone]⟩
      next =>
        split
        next => exact ⟨(insertAll_unites hs _).ascending, (insertAll_unites hs t.elements).mem⟩
        next =>
          dsimp only
          split
          next => exact ⟨pairwise_merge hs ht, fun y => mem_merge⟩
          next hadded =>
            -- nothing was added, so the two lists have the same nodes
            have hperm : s.elements.Perm (merge s.elements t.elements) := by
              refine (hs.nodup.subperm fun y hy => mem_merge.2 (.inl hy)).perm_of_length_le ?_
              simp only [size] at hadded
              omega
            exact ⟨hs, fun y => hperm.mem_iff.trans mem_merge⟩
  exact ⟨hsets.1, hsets.2, size_union s t⟩

theorem mem_union {s t : NodeSet} {y : Nat} (hs : s.Ascending) (ht : t.Ascending) :
    y ∈ (s.union t).1 ↔ y ∈ s ∨ y ∈ t :=
  (union_unites hs ht).mem y

theorem ascending_union {s t : NodeSet} (hs : s.Ascending) (ht : t.Ascending) :
    (s.union t).1.Ascending :=
  (union_unites hs ht).ascending

/-- A union that adds nothing leaves the set as it is. -/
theorem Unites.eq_of_eq_zero {s t : NodeSet} {result : NodeSet × Nat} (h : Unites s t result)
    (hs : s.Ascending) (hzero : result.2 = 0) : result.1 = s := by
  have hsize := h.size
  rw [hzero, Nat.add_zero] at hsize
  have hperm : s.elements.Perm result.1.elements :=
    (hs.nodup.subperm fun z hz => (h.mem z).2 (.inl hz)).perm_of_length_le (Nat.le_of_eq hsize)
  exact ext_of_ascending h.ascending hs fun y => hperm.mem_iff.symm

/-- What has been counted as added was not there before. -/
theorem Unites.exists_of_pos {s t : NodeSet} {result : NodeSet × Nat} (h : Unites s t result)
    (hpos : 0 < result.2) : ∃ x ∈ result.1, x ∉ s := by
  by_contra hnone
  have hsub : result.1.elements ⊆ s.elements := fun x hx =>
    by_contra fun hnot => hnone ⟨x, hx, hnot⟩
  have hle : result.1.size ≤ s.size := (h.ascending.nodup.subperm hsub).length_le
  have hsize := h.size
  omega

/-- To insert a node is to unite with the set of that node alone. -/
theorem insert_unites {s : NodeSet} (hs : s.Ascending) (x : Nat) :
    Unites s (singleton x) ((s.insert x).1, if (s.insert x).2 then 1 else 0) where
  ascending := ascending_insert hs
  mem y := by
    rw [mem_insert hs, or_comm]
    exact or_congr_right List.mem_singleton.symm
  size := size_insert s x

/-! ## Taking away -/

theorem subtract_sublist (xs ys : List Nat) : (subtract xs ys).Sublist xs := by
  fun_induction subtract xs ys with
  | case1 => simp
  | case2 x xs ys rest _ ih => exact ih.cons x
  | case3 x xs ys rest _ ih => exact ih.cons_cons x

theorem mem_dropWhile_iff {x y : Nat} {ys : List Nat} (hys : ys.Pairwise (· < ·)) :
    y ∈ ys.dropWhile (· < x) ↔ x ≤ y ∧ y ∈ ys := by
  induction ys with
  | nil => simp
  | cons z zs ih =>
      have hzs : ∀ w ∈ zs, z < w := fun w hw => List.rel_of_pairwise_cons hys hw
      by_cases hz : z < x
      · rw [List.dropWhile_cons_of_pos (by simpa using hz), ih hys.of_cons, List.mem_cons]
        constructor
        · exact fun ⟨hle, hy⟩ => ⟨hle, .inr hy⟩
        · rintro ⟨hle, rfl | hy⟩
          · omega
          · exact ⟨hle, hy⟩
      · rw [List.dropWhile_cons_of_neg (by simpa using hz)]
        refine ⟨fun hy => ⟨?_, hy⟩, And.right⟩
        rcases List.mem_cons.1 hy with rfl | hy
        · omega
        · have hlt := hzs y hy
          omega

theorem mem_subtract {y : Nat} {xs ys : List Nat} (hxs : xs.Pairwise (· < ·))
    (hys : ys.Pairwise (· < ·)) : y ∈ subtract xs ys ↔ y ∈ xs ∧ y ∉ ys := by
  fun_induction subtract xs ys with
  | case1 => simp
  | case2 x xs ys rest hhead ih =>
      have hrest : ∀ z, z ∈ rest ↔ x ≤ z ∧ z ∈ ys := fun z => mem_dropWhile_iff hys
      have hx : x ∈ ys := ((hrest x).1 (List.mem_of_mem_head? hhead)).2
      rw [ih hxs.of_cons (hys.sublist (List.dropWhile_sublist _)), hrest, List.mem_cons]
      constructor
      · rintro ⟨hy, hnot⟩
        have hlt := List.rel_of_pairwise_cons hxs hy
        exact ⟨.inr hy, fun h => hnot ⟨Nat.le_of_lt hlt, h⟩⟩
      · rintro ⟨rfl | hy, hnot⟩
        · exact absurd hx hnot
        · exact ⟨hy, fun h => hnot h.2⟩
  | case3 x xs ys rest hhead ih =>
      have hrest : ∀ z, z ∈ rest ↔ x ≤ z ∧ z ∈ ys := fun z => mem_dropWhile_iff hys
      have hx : x ∉ ys := by
        -- in an ascending list of nodes from `x` on, `x` can only be the first
        intro hx
        apply hhead
        have hmem : x ∈ rest := (hrest x).2 ⟨Nat.le_refl x, hx⟩
        have hasc : rest.Pairwise (· < ·) := hys.sublist (List.dropWhile_sublist _)
        cases hcase : rest with
        | nil => simp [hcase] at hmem
        | cons z zs =>
            have hz : x ≤ z := ((hrest z).1 (by simp [hcase])).1
            rw [hcase] at hmem hasc
            rcases List.mem_cons.1 hmem with rfl | hmem
            · rfl
            · have hlt := List.rel_of_pairwise_cons hasc hmem
              omega
      rw [List.mem_cons, ih hxs.of_cons (hys.sublist (List.dropWhile_sublist _)), hrest,
        List.mem_cons]
      constructor
      · rintro (rfl | ⟨hy, hnot⟩)
        · exact ⟨.inl rfl, hx⟩
        · have hlt := List.rel_of_pairwise_cons hxs hy
          exact ⟨.inr hy, fun h => hnot ⟨Nat.le_of_lt hlt, h⟩⟩
      · rintro ⟨rfl | hy, hnot⟩
        · exact .inl rfl
        · exact .inr ⟨hy, fun h => hnot h.2⟩

theorem mem_difference {s t : NodeSet} {y : Nat} (hs : s.Ascending) (ht : t.Ascending) :
    y ∈ s.difference t ↔ y ∈ s ∧ y ∉ t :=
  mem_subtract hs ht

theorem ascending_difference {s : NodeSet} (t : NodeSet) (hs : s.Ascending) :
    (s.difference t).Ascending :=
  hs.sublist (subtract_sublist s.elements t.elements)

/-- What has been taken away may be put back. -/
theorem union_difference {s t : NodeSet} (hs : s.Ascending) (ht : t.Ascending)
    (hsub : ∀ x ∈ t, x ∈ s) : (t.union (s.difference t)).1 = s := by
  have hdifference := ascending_difference t hs
  refine ext_of_ascending (ascending_union ht hdifference) hs fun x => ?_
  rw [mem_union ht hdifference, mem_difference hs ht]
  have hx := hsub x
  tauto

end NodeSet

end PointsTo
