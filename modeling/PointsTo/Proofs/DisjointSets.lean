import PointsTo.DisjointSets
import Mathlib.Data.List.Perm.Subperm
import Mathlib.Data.List.Nodup

/-!
# Roots of a class table

A look-up follows parent links with as much fuel as the table has nodes. `Leads`
is the same walk without fuel: it ends at the first node that links to itself.
In a well-formed table no link leaves the table and no walk comes back to where
it was, so a walk meets each node at most once, the fuel lasts, and `root` is
where the walk leads.

What an operation does to the classes can then be read off the links alone. A
new node changes no link. Linking two roots changes one, and the classes of both
get the same root.
-/

namespace PointsTo

namespace DisjointSets

structure WellFormed (d : DisjointSets) : Prop where
  up_lt (n : Nat) : n < d.size → d.up n < d.size
  /-- Along a link some height grows, so links never close a cycle. -/
  acyclic : ∃ height : Nat → Nat, ∀ n, d.up n ≠ n → height n < height (d.up n)

/-- The walk along the links from `n` ends at `r`. -/
inductive Leads (d : DisjointSets) : Nat → Nat → Prop
  | root {n : Nat} : d.up n = n → Leads d n n
  | up {n r : Nat} : d.up n ≠ n → Leads d (d.up n) r → Leads d n r

theorem up_of_size_le {d : DisjointSets} {n : Nat} (h : d.size ≤ n) : d.up n = n := by
  rw [size] at h
  rw [up, Array.getD_eq_getD_getElem?, Array.getElem?_eq_none h, Option.getD_none]

theorem lt_size_of_up_ne {d : DisjointSets} {n : Nat} (h : d.up n ≠ n) : n < d.size := by
  by_contra hge
  exact h (up_of_size_le (Nat.le_of_not_lt hge))

theorem Leads.unique {d : DisjointSets} {n r r' : Nat} (h : d.Leads n r) (h' : d.Leads n r') :
    r = r' := by
  induction h with
  | root hroot =>
      cases h' with
      | root => rfl
      | up hne => exact absurd hroot hne
  | up hne _ ih =>
      cases h' with
      | root hroot => exact absurd hroot hne
      | up _ hrest => exact ih hrest

theorem leads_climb {d : DisjointSets} {fuel n : Nat}
    (h : d.up (d.climb fuel n) = d.climb fuel n) : d.Leads n (d.climb fuel n) := by
  induction fuel generalizing n with
  | zero => exact .root h
  | succ fuel ih =>
      rw [climb] at h ⊢
      by_cases hn : d.up n = n
      · rw [if_pos hn]
        exact .root hn
      · rw [if_neg hn] at h ⊢
        exact .up hn (ih h)

/-- A walk that has not ended yet has met a new node with every unit of fuel. -/
theorem exists_path_of_climb {d : DisjointSets} {height : Nat → Nat}
    (hheight : ∀ n, d.up n ≠ n → height n < height (d.up n)) {fuel n : Nat}
    (h : d.up (d.climb fuel n) ≠ d.climb fuel n) :
    ∃ path : List Nat, path.length = fuel + 1 ∧ path.Nodup ∧
      ∀ m ∈ path, m < d.size ∧ height n ≤ height m := by
  induction fuel generalizing n with
  | zero =>
      refine ⟨[n], rfl, List.nodup_singleton n, fun m hm => ?_⟩
      obtain rfl := List.mem_singleton.1 hm
      exact ⟨lt_size_of_up_ne h, Nat.le_refl _⟩
  | succ fuel ih =>
      rw [climb] at h
      by_cases hn : d.up n = n
      · rw [if_pos hn] at h
        exact absurd hn h
      · rw [if_neg hn] at h
        obtain ⟨path, hlen, hnodup, hpath⟩ := ih h
        have hlt := hheight n hn
        refine ⟨n :: path, by simp [hlen], List.nodup_cons.2 ⟨fun hmem => ?_, hnodup⟩, ?_⟩
        · have hle := (hpath n hmem).2
          omega
        · intro m hm
          rcases List.mem_cons.1 hm with rfl | hm
          · exact ⟨lt_size_of_up_ne hn, Nat.le_refl _⟩
          · have hle := (hpath m hm).2
            exact ⟨(hpath m hm).1, by omega⟩

theorem WellFormed.up_root {d : DisjointSets} (hd : d.WellFormed) (n : Nat) :
    d.up (d.root n) = d.root n := by
  obtain ⟨height, hheight⟩ := hd.acyclic
  by_contra h
  obtain ⟨path, hlen, hnodup, hpath⟩ := exists_path_of_climb hheight h
  have hsub : path ⊆ List.range d.size := fun m hm => List.mem_range.2 (hpath m hm).1
  have hle := (hnodup.subperm hsub).length_le
  rw [List.length_range, hlen] at hle
  omega

theorem WellFormed.leads_root {d : DisjointSets} (hd : d.WellFormed) (n : Nat) :
    d.Leads n (d.root n) :=
  leads_climb (hd.up_root n)

theorem WellFormed.root_eq_of_leads {d : DisjointSets} (hd : d.WellFormed) {n r : Nat}
    (h : d.Leads n r) : d.root n = r :=
  (hd.leads_root n).unique h

theorem WellFormed.root_eq_self_iff {d : DisjointSets} (hd : d.WellFormed) {n : Nat} :
    d.root n = n ↔ d.up n = n := by
  constructor
  · intro h
    rw [← h]
    exact hd.up_root n
  · intro h
    exact hd.root_eq_of_leads (.root h)

theorem WellFormed.root_root {d : DisjointSets} (hd : d.WellFormed) (n : Nat) :
    d.root (d.root n) = d.root n :=
  hd.root_eq_self_iff.2 (hd.up_root n)

theorem WellFormed.isRoot_iff {d : DisjointSets} (hd : d.WellFormed) {n : Nat} :
    d.isRoot n = true ↔ d.root n = n := by
  rw [hd.root_eq_self_iff, isRoot, beq_iff_eq]

theorem Leads.lt_size {d : DisjointSets} (hd : d.WellFormed) {n r : Nat} (h : d.Leads n r)
    (hn : n < d.size) : r < d.size := by
  induction h with
  | root => exact hn
  | up _ _ ih => exact ih (hd.up_lt _ hn)

theorem WellFormed.root_lt {d : DisjointSets} (hd : d.WellFormed) {n : Nat} (hn : n < d.size) :
    d.root n < d.size :=
  (hd.leads_root n).lt_size hd hn

theorem root_of_size_le {d : DisjointSets} {n : Nat} (h : d.size ≤ n) : d.root n = n := by
  have hup := up_of_size_le h
  rw [root]
  cases d.size with
  | zero => rfl
  | succ fuel => rw [climb, if_pos hup]

/-! ## New nodes -/

theorem wellFormed_empty : ({} : DisjointSets).WellFormed where
  up_lt n h := absurd h (Nat.not_lt_zero n)
  acyclic := ⟨id, fun n h => absurd (up_of_size_le (Nat.zero_le n)) h⟩

@[simp] theorem size_push (d : DisjointSets) : d.push.size = d.size + 1 := by
  simp [push, size]

@[simp] theorem up_push (d : DisjointSets) (n : Nat) : d.push.up n = d.up n := by
  simp only [up, push, size, Array.getD_eq_getD_getElem?, Array.getElem?_push]
  split
  next h => simp [h]
  next => rfl

theorem WellFormed.push {d : DisjointSets} (hd : d.WellFormed) : d.push.WellFormed where
  up_lt n hn := by
    rw [up_push, size_push] at *
    rcases Nat.lt_succ_iff_lt_or_eq.1 hn with hlt | rfl
    · exact Nat.lt_succ_of_lt (hd.up_lt n hlt)
    · rw [up_of_size_le (Nat.le_refl _)]
      exact Nat.lt_succ_self _
  acyclic := by
    obtain ⟨height, hheight⟩ := hd.acyclic
    exact ⟨height, fun n h => by rw [up_push] at *; exact hheight n h⟩

theorem Leads.push {d : DisjointSets} {n r : Nat} (h : d.Leads n r) : d.push.Leads n r := by
  induction h with
  | root hroot => exact .root (by rwa [up_push])
  | up hne _ ih => exact .up (by rwa [up_push]) (by rwa [up_push])

theorem WellFormed.root_push {d : DisjointSets} (hd : d.WellFormed) (n : Nat) :
    d.push.root n = d.root n :=
  hd.push.root_eq_of_leads (hd.leads_root n).push

/-! ## Joining two classes -/

/-- The root that stays when two roots are linked. -/
theorem link_fst (d : DisjointSets) (a b : Nat) :
    (d.link a b).1 = if d.rankOf a < d.rankOf b then b else a := rfl

@[simp] theorem size_link (d : DisjointSets) (a b : Nat) : (d.link a b).2.size = d.size := by
  simp [link, size]

/-- The root that is absorbed when two roots are linked. -/
def absorbed (d : DisjointSets) (a b : Nat) : Nat := if (d.link a b).1 = a then b else a

theorem link_cases (d : DisjointSets) {a b : Nat} (hne : a ≠ b) :
    ((d.link a b).1 = a ∧ d.absorbed a b = b) ∨ (d.link a b).1 = b ∧ d.absorbed a b = a := by
  rw [absorbed, link_fst]
  split
  next => simp [hne.symm]
  next => simp

/-- Two different roots of the table. -/
structure Apart (d : DisjointSets) (a b : Nat) : Prop where
  ne : a ≠ b
  left_lt : a < d.size
  right_lt : b < d.size
  left_root : d.root a = a
  right_root : d.root b = b

section Link

variable {d : DisjointSets} {a b : Nat}

/-- The roots of two different classes. -/
theorem WellFormed.apart (hd : d.WellFormed) (ha : a < d.size) (hb : b < d.size)
    (hne : d.root a ≠ d.root b) : d.Apart (d.root a) (d.root b) where
  ne := hne
  left_lt := hd.root_lt ha
  right_lt := hd.root_lt hb
  left_root := hd.root_root a
  right_root := hd.root_root b

/-- The root that is absorbed is a root, and not the one that stays. -/
theorem Apart.link_roots (h : d.Apart a b) :
    d.absorbed a b < d.size ∧ d.root (d.absorbed a b) = d.absorbed a b ∧
      d.root (d.link a b).1 = (d.link a b).1 ∧ (d.link a b).1 ≠ d.absorbed a b := by
  rcases link_cases d h.ne with ⟨hkeep, hgone⟩ | ⟨hkeep, hgone⟩ <;> rw [hkeep, hgone]
  · exact ⟨h.right_lt, h.right_root, h.left_root, h.ne⟩
  · exact ⟨h.left_lt, h.left_root, h.right_root, h.ne.symm⟩

theorem Apart.link_fst_lt (h : d.Apart a b) : (d.link a b).1 < d.size := by
  rcases link_cases d h.ne with ⟨hkeep, _⟩ | ⟨hkeep, _⟩ <;> rw [hkeep]
  · exact h.left_lt
  · exact h.right_lt

theorem Apart.absorbed_eq (h : d.Apart a b) :
    d.absorbed a b = if d.rankOf a < d.rankOf b then a else b := by
  rw [absorbed, link_fst]
  split
  next => simp [h.ne.symm]
  next => simp

theorem up_link (h : d.Apart a b) (n : Nat) :
    (d.link a b).2.up n = if n = d.absorbed a b then (d.link a b).1 else d.up n := by
  have hlt : d.absorbed a b < d.parent.size := h.link_roots.1
  have hparent : (d.link a b).2.parent =
      d.parent.setIfInBounds (d.absorbed a b) (d.link a b).1 := by
    rw [h.absorbed_eq]
    rfl
  rw [up, hparent, Array.getD_eq_getD_getElem?, Array.getElem?_setIfInBounds]
  by_cases hn : n = d.absorbed a b
  · simp [hn, hlt]
  · rw [if_neg (Ne.symm hn), if_neg hn, up, Array.getD_eq_getD_getElem?]

section Roots

variable (hd : d.WellFormed) (h : d.Apart a b)

include hd h

/-- Neither of the two has a link that leads on. -/
theorem WellFormed.up_link_roots :
    d.up (d.absorbed a b) = d.absorbed a b ∧ d.up (d.link a b).1 = (d.link a b).1 := by
  obtain ⟨_, hgone, hkeep, _⟩ := h.link_roots
  exact ⟨hd.root_eq_self_iff.1 hgone, hd.root_eq_self_iff.1 hkeep⟩

theorem WellFormed.link : (d.link a b).2.WellFormed where
  up_lt n hn := by
    rw [size_link] at *
    rw [up_link h]
    split
    next => exact h.link_fst_lt
    next => exact hd.up_lt n hn
  acyclic := by
    obtain ⟨height, hheight⟩ := hd.acyclic
    -- only the root that stays has to rise above the one it absorbs
    refine ⟨fun n => if n = (d.link a b).1 then height n + height (d.absorbed a b) + 1
      else height n, fun n hn => ?_⟩
    rw [up_link h] at hn ⊢
    dsimp only
    obtain ⟨_, hkeep⟩ := hd.up_link_roots h
    by_cases hgone : n = d.absorbed a b
    · rw [if_pos hgone] at hn ⊢
      simp only [if_neg hn.symm, if_true]
      rw [hgone]
      omega
    · rw [if_neg hgone] at hn ⊢
      have hlt := hheight n hn
      have hn' : n ≠ (d.link a b).1 := fun heq => hn (heq ▸ hkeep)
      rw [if_neg hn']
      split
      next => omega
      next => exact hlt

theorem Leads.link {n r : Nat} (hleads : d.Leads n r) :
    (d.link a b).2.Leads n (if r = d.absorbed a b then (d.link a b).1 else r) := by
  obtain ⟨_, _, _, hne⟩ := h.link_roots
  obtain ⟨hgone, hkeep⟩ := hd.up_link_roots h
  induction hleads with
  | @root n hroot =>
      by_cases hn : n = d.absorbed a b
      · have hup : (d.link a b).2.up n = (d.link a b).1 := by rw [up_link h, if_pos hn]
        rw [if_pos hn]
        refine .up ?_ (hup.symm ▸ .root (by rw [up_link h, if_neg hne, hkeep]))
        rwa [hup, hn]
      · rw [if_neg hn]
        exact .root (by rw [up_link h, if_neg hn, hroot])
  | @up n r hn _ ih =>
      have hup : (d.link a b).2.up n = d.up n := by
        rw [up_link h, if_neg]
        rintro rfl
        exact hn hgone
      exact .up (hup.symm ▸ hn) (hup.symm ▸ ih)

theorem WellFormed.root_link (n : Nat) :
    (d.link a b).2.root n = if d.root n = d.absorbed a b then (d.link a b).1 else d.root n :=
  (hd.link h).root_eq_of_leads ((hd.leads_root n).link hd h)

/-- The nodes of both classes get the root that stays. -/
theorem WellFormed.root_link_eq (n : Nat) :
    (d.link a b).2.root n =
      if d.root n = a ∨ d.root n = b then (d.link a b).1 else d.root n := by
  rw [hd.root_link h]
  rcases link_cases d h.ne with ⟨hkeep, hgone⟩ | ⟨hkeep, hgone⟩ <;> rw [hgone, hkeep]
  · by_cases hn : d.root n = a <;> simp [hn]
  · by_cases hn : d.root n = b <;> simp [hn]

end Roots

end Link

end DisjointSets

end PointsTo
