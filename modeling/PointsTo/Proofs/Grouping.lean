import Mathlib.Data.List.Nodup
import Mathlib.Data.List.Induction

/-!
# Lists in groups

Nodes are sorted into groups in the same way by a reduction and by a graph: the keys
are taken as they first occur, and each of them gives the members that have it. So
every member is in one group, and the groups of an ascending list are ascending and
come in the order of their smallest members.
-/

namespace PointsTo

section Grouping

variable {α κ : Type} [BEq κ] [LawfulBEq κ]

theorem one_lt_length_of_ne {xs : List α} {a b : α} (ha : a ∈ xs) (hb : b ∈ xs) (hne : a ≠ b) :
    1 < xs.length := by
  match xs, ha, hb with
  | [_], ha, hb =>
      exact absurd ((List.mem_singleton.1 ha).trans (List.mem_singleton.1 hb).symm) hne
  | _ :: _ :: _, _, _ => simp

theorem nodup_eraseDups (xs : List κ) : xs.eraseDups.Nodup := by
  cases xs with
  | nil => exact List.nodup_nil
  | cons x xs =>
      rw [List.eraseDups_cons, List.nodup_cons]
      refine ⟨fun hx => ?_, nodup_eraseDups _⟩
      simp [List.mem_eraseDups] at hx
termination_by xs.length
decreasing_by exact Nat.lt_succ_of_le (List.length_filter_le _ _)

/-- A list without repetitions falls into parts with nothing in common, one for each key. -/
theorem nodup_flatten_filter {xs : List α} (hxs : xs.Nodup)
    {keys : List κ} (hkeys : keys.Nodup) (f : α → κ) :
    (keys.map fun key => xs.filter (f · == key)).flatten.Nodup := by
  refine List.nodup_flatten.2 ⟨fun part hpart => ?_, ?_⟩
  · obtain ⟨key, _, rfl⟩ := List.mem_map.1 hpart
    exact hxs.filter _
  · refine List.Pairwise.map _ (fun key key' hne x hx hx' => hne ?_) hkeys
    rw [List.mem_filter, beq_iff_eq] at hx hx'
    exact hx.2.symm.trans hx'.2

/-- The parts of a list whose members have the same key. -/
def groupsBy (f : α → κ) (xs : List α) : List (List α) :=
  (xs.map f).eraseDups.map fun key => xs.filter (f · == key)

theorem mem_groupsBy {f : α → κ} {xs g : List α} :
    g ∈ groupsBy f xs ↔ ∃ x ∈ xs, g = xs.filter (f · == f x) := by
  rw [groupsBy, List.mem_map]
  constructor
  · rintro ⟨key, hkey, rfl⟩
    obtain ⟨x, hx, rfl⟩ := List.mem_map.1 (List.mem_eraseDups.1 hkey)
    exact ⟨x, hx, rfl⟩
  · rintro ⟨x, hx, rfl⟩
    exact ⟨f x, List.mem_eraseDups.2 (List.mem_map_of_mem hx), rfl⟩

/-- Every member is in one group. -/
theorem flatten_groupsBy_perm (f : α → κ) {xs : List α} (hxs : xs.Nodup) :
    (groupsBy f xs).flatten.Perm xs := by
  refine (List.perm_ext_iff_of_nodup
    (nodup_flatten_filter hxs (nodup_eraseDups _) f) hxs).2 fun x => ?_
  rw [List.mem_flatten]
  constructor
  · rintro ⟨g, hg, hx⟩
    obtain ⟨_, _, rfl⟩ := mem_groupsBy.1 hg
    exact (List.mem_filter.1 hx).1
  · intro hx
    exact ⟨_, mem_groupsBy.2 ⟨x, hx, rfl⟩, List.mem_filter.2 ⟨hx, beq_self_eq_true _⟩⟩

theorem eraseDups_concat (xs : List κ) (x : κ) :
    (xs ++ [x]).eraseDups = if xs.contains x then xs.eraseDups else xs.eraseDups ++ [x] := by
  rw [List.eraseDups_append]
  split
  next hx => simp [List.removeAll, List.contains_iff_mem.1 hx]
  next hx =>
    have hx' : x ∉ xs := fun hmem => hx (List.contains_iff_mem.2 hmem)
    simp [List.removeAll, hx', List.eraseDups_cons]

/-- Of two keys the first has a member below all members of the second. -/
theorem pairwise_eraseDups_map (f : Nat → κ) {xs : List Nat} (hxs : xs.Pairwise (· < ·)) :
    (xs.map f).eraseDups.Pairwise fun a b =>
      ∀ m ∈ xs, f m = b → ∃ l ∈ xs, f l = a ∧ l < m := by
  induction xs using List.reverseRecOn with
  | nil => exact List.Pairwise.nil
  | append_singleton xs x ih =>
      rw [List.pairwise_append] at hxs
      obtain ⟨hxs, _, hlt⟩ := hxs
      -- a key that has occurred before has a member below the new one
      have hbelow : ∀ a ∈ (xs.map f).eraseDups, ∃ l ∈ xs ++ [x], f l = a ∧ l < x := by
        intro a ha
        obtain ⟨l, hl, rfl⟩ := List.mem_map.1 (List.mem_eraseDups.1 ha)
        exact ⟨l, List.mem_append_left _ hl, rfl, hlt l hl x List.mem_cons_self⟩
      have hold : (xs.map f).eraseDups.Pairwise fun a b =>
          ∀ m ∈ xs ++ [x], f m = b → ∃ l ∈ xs ++ [x], f l = a ∧ l < m := by
        refine (ih hxs).imp_of_mem fun {a b} ha _ hab m hm hb => ?_
        rcases List.mem_append.1 hm with hm | hm
        · obtain ⟨l, hl, hla, hlm⟩ := hab m hm hb
          exact ⟨l, List.mem_append_left _ hl, hla, hlm⟩
        · rw [List.mem_singleton.1 hm]
          exact hbelow a ha
      rw [List.map_append, List.map_singleton, eraseDups_concat]
      split
      next => exact hold
      next hnew =>
        refine List.pairwise_append.2 ⟨hold, List.pairwise_singleton _ _, ?_⟩
        intro a ha b hb m hm hmb
        rw [List.mem_singleton.1 hb] at hmb
        rcases List.mem_append.1 hm with hm | hm
        · exact absurd (List.contains_iff_mem.2 (hmb ▸ List.mem_map_of_mem hm)) hnew
        · rw [List.mem_singleton.1 hm]
          exact hbelow a ha

theorem groupsBy_ordered (f : Nat → κ) {xs : List Nat} (hxs : xs.Pairwise (· < ·)) :
    (groupsBy f xs).Pairwise fun g h => ∀ m ∈ h, ∃ l ∈ g, l < m := by
  refine List.Pairwise.map _ (fun a b hab m hm => ?_) (pairwise_eraseDups_map f hxs)
  rw [List.mem_filter, beq_iff_eq] at hm
  obtain ⟨l, hl, hla, hlt⟩ := hab m hm.1 hm.2
  exact ⟨l, List.mem_filter.2 ⟨hl, beq_iff_eq.2 hla⟩, hlt⟩

end Grouping

end PointsTo
