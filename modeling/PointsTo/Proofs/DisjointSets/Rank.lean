import PointsTo.Proofs.DisjointSets.Closure
import Mathlib.Algebra.Group.Nat.Defs

/-!
# Ranks and the lengths of look-ups

A rank is only looked at when two classes are joined, and it only grows then, if both
roots have the same one. Two things follow, and together they bound how far a look-up
has to climb (`Ranked`). A class is heavy for the rank of its root: a root gets a higher
rank only by absorbing a class that is as heavy as its own. And ranks rise along the
links: a root is hung below one of higher rank. Shortening a path keeps both, since a
link that skips a parent goes up by two ranks where the old one went up by one.

A rank that has reached the largest one does not grow any more, and ranks could stop
rising there. It would take a class of `2 ^ 255` nodes, and such tables are out of reach
by far: a node is a number of 32 bits.

`LeadsIn` and `HalvesIn` are the loops of the two look-ups with the links counted that
they follow. A root's link to itself is not followed anywhere.

The tables are those of calls that cut nothing (`Built`). As long as nodes have indices of
32 bits, that is up to `2 ^ 32` of them, these are all tables that calls lead to
(`Called.built`).
-/

namespace PointsTo

namespace DisjointSets

/-- The walk along the links from `n` ends at `r`, by so many links. -/
inductive LeadsIn (d : DisjointSets) : (n links r : Nat) → Prop
  | root {n : Nat} : d.up n = n → LeadsIn d n 0 n
  | up {n k r : Nat} : d.up n ≠ n → LeadsIn d (d.up n) k r → LeadsIn d n (k + 1) r

/-- The loop of `find`: from `n` on it ends at `r` and leaves the table `e`, and it follows
so many links. A round follows one link if that leads to a root, and else two. -/
inductive HalvesIn : DisjointSets → (n links r : Nat) → DisjointSets → Prop
  | root {d : DisjointSets} {n : Nat} : d.up n = n → HalvesIn d n 0 n d
  | one {d e : DisjointSets} {n k r : Nat} : d.up n ≠ n → d.up (d.up n) = d.up n →
      HalvesIn (d.skip n) (d.up (d.up n)) k r e → HalvesIn d n (k + 1) r e
  | two {d e : DisjointSets} {n k r : Nat} : d.up n ≠ n → d.up (d.up n) ≠ d.up n →
      HalvesIn (d.skip n) (d.up (d.up n)) k r e → HalvesIn d n (k + 2) r e

/-- The nodes of the class with the root `r`. -/
def members (d : DisjointSets) (r : Nat) : Finset Nat :=
  (Finset.range d.size).filter fun n => d.root n = r

structure Ranked (d : DisjointSets) : Prop where
  heavy (r : Nat) : r < d.size → d.root r = r → 2 ^ d.rankOf r ≤ (d.members r).card
  rises : d.size < 2 ^ (maxRank + 1) → ∀ n, d.up n ≠ n → d.rankOf n < d.rankOf (d.up n)

/-! ## Lengths of walks -/

section Walks

variable {d e : DisjointSets} {k n r : Nat}

theorem Leads.exists_leadsIn (h : d.Leads n r) : ∃ k, d.LeadsIn n k r := by
  induction h with
  | root hroot => exact ⟨0, .root hroot⟩
  | up hne _ ih =>
      obtain ⟨k, hk⟩ := ih
      exact ⟨k + 1, .up hne hk⟩

theorem Halves.exists_halvesIn (h : d.Halves n r e) : ∃ k, d.HalvesIn n k r e := by
  induction h with
  | root hroot => exact ⟨0, .root hroot⟩
  | @skip d e n r hne _ ih =>
      obtain ⟨k, hk⟩ := ih
      by_cases htop : d.up (d.up n) = d.up n
      · exact ⟨k + 1, .one hne htop hk⟩
      · exact ⟨k + 2, .two hne htop hk⟩

/-- Every link goes up by a rank. -/
theorem LeadsIn.add_rankOf_le (h : d.LeadsIn n k r)
    (hrises : ∀ n, d.up n ≠ n → d.rankOf n < d.rankOf (d.up n)) :
    k + d.rankOf n ≤ d.rankOf r := by
  induction h with
  | root => exact (Nat.zero_add _).le
  | up hne _ ih =>
      have hlt := hrises _ hne
      omega

theorem HalvesIn.add_rankOf_le (h : d.HalvesIn n k r e)
    (hrises : ∀ n, d.up n ≠ n → d.rankOf n < d.rankOf (d.up n)) :
    k + d.rankOf n ≤ d.rankOf r := by
  induction h with
  | root => exact (Nat.zero_add _).le
  | @one d _ n _ _ hne htop _ ih =>
      have hlt := hrises n hne
      have hrest : _ + d.rankOf (d.up (d.up n)) ≤ d.rankOf _ :=
        ih fun _ => height_lt_up_skip hrises
      rw [htop] at hrest
      omega
  | @two d _ n _ _ hne hne' _ ih =>
      have hlt := hrises n hne
      have hlt' := hrises _ hne'
      have hrest : _ + d.rankOf (d.up (d.up n)) ≤ d.rankOf _ :=
        ih fun _ => height_lt_up_skip hrises
      omega

end Walks

/-! ## Ranks through the calls -/

section Ranked

variable {d e : DisjointSets} {a b m n r : Nat}

theorem mem_members : n ∈ d.members r ↔ n < d.size ∧ d.root n = r := by
  rw [members, Finset.mem_filter, Finset.mem_range]

theorem Shortens.members_eq (h : d.Shortens e) (r : Nat) : e.members r = d.members r := by
  ext n
  rw [mem_members, mem_members, h.size_eq, h.root_eq]

theorem card_members_le (d : DisjointSets) (r : Nat) : (d.members r).card ≤ d.size :=
  (Finset.card_filter_le _ _).trans_eq (Finset.card_range d.size)

theorem ranked_empty : ({} : DisjointSets).Ranked where
  heavy r hr := absurd hr (Nat.not_lt_zero r)
  rises _ n hn := absurd (up_of_size_le (Nat.zero_le n)) hn

theorem rankOf_push (d : DisjointSets) (n : Nat) : d.push.rankOf n = d.rankOf n := by
  rw [rankOf, rankOf, push, Array.getD_eq_getD_getElem?, Array.getD_eq_getD_getElem?,
    Array.getElem?_push]
  split
  next h => rw [h, Array.getElem?_eq_none (Nat.le_refl _)]; rfl
  next => rfl

/-- A new node is as heavy as its rank asks for. -/
theorem Ranked.push (h : d.Ranked) (hd : d.WellFormed) (hc : d.Counted) : d.push.Ranked where
  heavy r hr hroot := by
    rw [hd.root_push] at hroot
    rw [rankOf_push]
    rw [size_push] at hr
    rcases Nat.lt_succ_iff_lt_or_eq.1 hr with hlt | rfl
    · refine (h.heavy r hlt hroot).trans (Finset.card_le_card fun n hn => ?_)
      rw [mem_members] at hn ⊢
      rw [size_push, hd.root_push]
      exact ⟨Nat.lt_succ_of_lt hn.1, hn.2⟩
    · have hrank : d.rankOf d.size = 0 := by
        rw [rankOf, Array.getD_eq_getD_getElem?, Array.getElem?_eq_none hc.rank_size.le]
        rfl
      have hmem : d.size ∈ d.push.members d.size := by
        rw [mem_members, size_push, hd.root_push]
        exact ⟨Nat.lt_succ_self _, hroot⟩
      rw [hrank]
      exact Finset.card_pos.2 ⟨_, hmem⟩
  rises hsize n hn := by
    rw [size_push] at hsize
    rw [up_push] at hn ⊢
    rw [rankOf_push, rankOf_push]
    exact h.rises (Nat.lt_of_succ_lt hsize) n hn

theorem Ranked.skip (h : d.Ranked) (hd : d.WellFormed) (n : Nat) : (d.skip n).Ranked where
  heavy r hr hroot := by
    have hskip := hd.shortens_skip n
    rw [hskip.size_eq] at hr
    rw [hskip.root_eq] at hroot
    rw [hskip.members_eq]
    exact h.heavy r hr hroot
  rises hsize _ := height_lt_up_skip (h.rises (d.size_skip n ▸ hsize))

theorem Ranked.halve (h : d.Ranked) (hd : d.WellFormed) (fuel n : Nat) :
    (d.halve fuel n).2.Ranked := by
  induction fuel generalizing d n with
  | zero => exact h
  | succ fuel ih =>
      rw [DisjointSets.halve]
      split
      next => exact h
      next => exact ih (h.skip hd n) (hd.shortens_skip n).wellFormed _

theorem Ranked.find (h : d.Ranked) (hd : d.WellFormed) (n : Nat) : (d.find n).2.Ranked :=
  h.halve hd d.size n

theorem Ranked.findAll (h : d.Ranked) (hd : d.WellFormed) (ns : List Nat) :
    (d.findAll ns).2.Ranked := by
  induction ns generalizing d with
  | nil => exact h
  | cons n ns ih => exact ih (h.find hd n) (hd.find_halved n).wellFormed

theorem Ranked.connected (h : d.Ranked) (hd : d.WellFormed) (a b : Nat) :
    (d.connected a b).2.Ranked :=
  (h.find hd a).find (hd.find_halved a).wellFormed b

section Link

variable (hd : d.WellFormed) (hc : d.Counted) (h : d.Apart a b)

theorem rankOf_absorbed_le (hapart : d.Apart a b) :
    d.rankOf (d.absorbed a b) ≤ d.rankOf (d.link a b).1 := by
  rw [hapart.absorbed_eq, link_fst]
  split
  next hlt => exact hlt.le
  next hge => exact Nat.le_of_not_lt hge

include hc h in
theorem Counted.rankOf_link (n : Nat) :
    (d.link a b).2.rankOf n =
      if n = (d.link a b).1 ∧ d.rankOf (d.link a b).1 = d.rankOf (d.absorbed a b) then
        min (d.rankOf n + 1) maxRank
      else d.rankOf n := by
  have hlt : (d.link a b).1 < d.rank.size := hc.rank_size.symm ▸ h.link_fst_lt
  have hrank : (d.link a b).2.rank = d.rank.setIfInBounds (d.link a b).1
      (if d.rankOf (d.link a b).1 = d.rankOf (d.absorbed a b) then
        min (d.rankOf (d.link a b).1 + 1) maxRank
      else d.rankOf (d.link a b).1) := by
    rw [h.absorbed_eq]
    rfl
  rw [rankOf, hrank, Array.getD_eq_getD_getElem?, Array.getElem?_setIfInBounds]
  by_cases hn : n = (d.link a b).1
  · subst hn
    simp [hlt]
  · rw [if_neg (Ne.symm hn), if_neg fun hboth => hn hboth.1, rankOf, Array.getD_eq_getD_getElem?]

include hd h

/-- The class that stays takes in the one that is absorbed. -/
theorem WellFormed.card_members_link :
    ((d.link a b).2.members (d.link a b).1).card =
      (d.members (d.link a b).1).card + (d.members (d.absorbed a b)).card := by
  obtain ⟨_, _, _, hne⟩ := h.link_roots
  have hdisjoint : Disjoint (d.members (d.link a b).1) (d.members (d.absorbed a b)) := by
    refine Finset.disjoint_left.2 fun n hkeep hgone => hne ?_
    rw [← (mem_members.1 hkeep).2, (mem_members.1 hgone).2]
  rw [← Finset.card_union_of_disjoint hdisjoint]
  congr 1
  ext n
  rw [Finset.mem_union, mem_members, mem_members, mem_members, size_link, hd.root_link h,
    ← and_or_left]
  refine and_congr_right fun _ => ?_
  split
  next hn => simp [hn]
  next hn => simp [hn]

/-- The other classes stay what they are. -/
theorem WellFormed.members_link (hr : r ≠ (d.link a b).1) (hgone : r ≠ d.absorbed a b) :
    (d.link a b).2.members r = d.members r := by
  ext n
  rw [mem_members, mem_members, size_link, hd.root_link h]
  refine and_congr_right fun _ => ?_
  split
  next hn => rw [hn]; exact iff_of_false hr.symm hgone.symm
  next => exact Iff.rfl

/-- The two classes are as heavy together as both of their ranks ask for. -/
theorem Ranked.heavy_link (hranked : d.Ranked) :
    2 ^ d.rankOf (d.link a b).1 + 2 ^ d.rankOf (d.absorbed a b) ≤
      ((d.link a b).2.members (d.link a b).1).card := by
  obtain ⟨hlt, hgone, hkeep, _⟩ := h.link_roots
  rw [hd.card_members_link h]
  exact Nat.add_le_add (hranked.heavy _ h.link_fst_lt hkeep) (hranked.heavy _ hlt hgone)

/-- There is a higher rank to give to a root that absorbs one of its own rank. -/
theorem Ranked.rankOf_lt_maxRank (hranked : d.Ranked) (hsize : d.size < 2 ^ (maxRank + 1))
    (heq : d.rankOf (d.link a b).1 = d.rankOf (d.absorbed a b)) :
    d.rankOf (d.link a b).1 < maxRank := by
  have hheavy := hranked.heavy_link hd h
  have hcard := (d.link a b).2.card_members_le (d.link a b).1
  rw [size_link] at hcard
  rw [← heq, ← Nat.two_mul, ← Nat.pow_succ'] at hheavy
  exact Nat.succ_lt_succ_iff.1
    ((Nat.pow_lt_pow_iff_right (by decide)).1 ((hheavy.trans hcard).trans_lt hsize))

include hc in
theorem Ranked.link (hranked : d.Ranked) : (d.link a b).2.Ranked where
  heavy r hr hroot := by
    rw [size_link] at hr
    rw [hc.rankOf_link h]
    by_cases hkeep : r = (d.link a b).1
    · subst hkeep
      have hheavy := hranked.heavy_link hd h
      split
      next heq =>
        rw [← heq.2, ← Nat.two_mul, ← Nat.pow_succ'] at hheavy
        exact (Nat.pow_le_pow_right (by decide) (Nat.min_le_left ..)).trans hheavy
      next => exact (Nat.le_add_right ..).trans hheavy
    · rw [hd.root_link h] at hroot
      rw [if_neg fun hboth => hkeep hboth.1]
      split at hroot
      next => exact absurd hroot.symm hkeep
      next hgone =>
        rw [hd.members_link h hkeep (hroot ▸ hgone)]
        exact hranked.heavy r hr hroot
  rises hsize n hn := by
    rw [size_link] at hsize
    rw [up_link h] at hn ⊢
    obtain ⟨_, hkeep⟩ := hd.up_link_roots h
    obtain ⟨_, _, _, hne⟩ := h.link_roots
    have hlower := rankOf_absorbed_le h
    have hroom := hranked.rankOf_lt_maxRank hd h hsize
    by_cases hgone : n = d.absorbed a b
    · rw [if_pos hgone, hc.rankOf_link h, hc.rankOf_link h, hgone]
      rw [if_neg fun hboth => hne hboth.1.symm]
      split
      next heq =>
        have hlt := hroom heq.2
        omega
      next hdiff => exact lt_of_le_of_ne hlower fun heq => hdiff ⟨rfl, heq.symm⟩
    · rw [if_neg hgone] at hn ⊢
      have hlt := hranked.rises hsize n hn
      have hother : n ≠ (d.link a b).1 := fun heq => hn (heq ▸ hkeep)
      rw [hc.rankOf_link h, hc.rankOf_link h, if_neg fun hboth => hother hboth.1]
      split
      next hboth =>
        have hlt' := hroom hboth.2
        rw [hboth.1] at hlt ⊢
        omega
      next => exact hlt

end Link

theorem rankOf_congr (heq : e.rank = d.rank) (n : Nat) : e.rankOf n = d.rankOf n :=
  congrArg (fun rank => rank.getD n 0) heq

theorem Ranked.union (h : d.Ranked) (hd : d.WellFormed) (hc : d.Counted) (ha : a < d.size)
    (hb : b < d.size) : (d.union a b).2.Ranked := by
  have hhalved := (hd.connected_spec a b).2
  have hranked := h.connected hd a b
  rw [hd.union_eq]
  split
  next => exact hranked
  next hne =>
    exact hranked.link hhalved.wellFormed (hhalved.counted hc)
      (hhalved.apart (hd.apart ha hb hne))

/-- A join raises the root that stays by one rank if it absorbs one of its own rank, and no
other rank changes. -/
theorem Ranked.rankOf_union (h : d.Ranked) (hd : d.WellFormed) (hc : d.Counted)
    (hsize : d.size < 2 ^ (maxRank + 1)) (ha : a < d.size) (hb : b < d.size)
    (hne : d.root a ≠ d.root b) (n : Nat) :
    (d.union a b).2.rankOf n =
      if n = (d.union a b).1 ∧ d.rankOf (d.root a) = d.rankOf (d.root b) then d.rankOf n + 1
      else d.rankOf n := by
  have hhalved := (hd.connected_spec a b).2
  have hapart := hhalved.apart (hd.apart ha hb hne)
  have hrank := rankOf_congr hhalved.rank_eq
  have hroom := (h.connected hd a b).rankOf_lt_maxRank hhalved.wellFormed hapart
    (hhalved.size_eq.symm ▸ hsize)
  have hsame : (d.connected a b).2.rankOf ((d.connected a b).2.link (d.root a) (d.root b)).1 =
      (d.connected a b).2.rankOf ((d.connected a b).2.absorbed (d.root a) (d.root b)) ↔
        d.rankOf (d.root a) = d.rankOf (d.root b) := by
    rw [hrank, hrank]
    rcases link_cases (d.connected a b).2 hne with ⟨hkeep, hgone⟩ | ⟨hkeep, hgone⟩ <;>
      rw [hkeep, hgone]
    exact eq_comm
  rw [hd.union_eq, if_neg hne, (hhalved.counted hc).rankOf_link hapart]
  simp only [hsame]
  split
  next hboth =>
    have hlt := hroom (hsame.2 hboth.2)
    rw [← hboth.1] at hlt
    rw [Nat.min_eq_left hlt, hrank]
  next => exact hrank n

theorem Ranked.rankOf_le_root (h : d.Ranked) (hd : d.WellFormed)
    (hsize : d.size < 2 ^ (maxRank + 1)) (n : Nat) : d.rankOf n ≤ d.rankOf (d.root n) := by
  obtain ⟨k, hk⟩ := (hd.leads_root n).exists_leadsIn
  exact (Nat.le_add_left ..).trans (hk.add_rankOf_le (h.rises hsize))

theorem Ranked.two_pow_rankOf_root_le (h : d.Ranked) (hd : d.WellFormed) (hn : n < d.size) :
    2 ^ d.rankOf (d.root n) ≤ d.size :=
  (h.heavy _ (hd.root_lt hn) (hd.root_root n)).trans (d.card_members_le _)

/-- Where a climb by so many ranks ends at a root, there are enough nodes for it. -/
theorem Ranked.le_log2 (h : d.Ranked) (hd : d.WellFormed) (hn : n < d.size) {k : Nat}
    (hk : k + d.rankOf n ≤ d.rankOf (d.root n)) : k ≤ Nat.log2 d.size := by
  have hpos : d.size ≠ 0 := (Nat.zero_lt_of_lt hn).ne'
  exact ((Nat.le_add_right ..).trans hk).trans
    ((Nat.le_log2 hpos).2 (h.two_pow_rankOf_root_le hd hn))

end Ranked

/-! ## Tables that calls have built -/

section Built

variable {pairs : List (Nat × Nat)} {d : DisjointSets}

theorem ranked_singletons (n : Nat) : (singletons n).Ranked := by
  induction n with
  | zero => exact ranked_empty
  | succ n ih =>
      have hrep := represents_singletons n
      exact ih.push hrep.wellFormed hrep.counted

theorem Built.ranked (h : Built pairs d) : d.Ranked := by
  induction h with
  | singletons n => exact ranked_singletons n
  | push hd ih => exact ih.push hd.represents.wellFormed hd.represents.counted
  | find _ hd ih => exact ih.find hd.represents.wellFormed _
  | connected _ _ hd ih => exact ih.connected hd.represents.wellFormed _ _
  | representatives hd ih => exact ih.findAll hd.represents.wellFormed _
  | union ha hb hd ih => exact ih.union hd.represents.wellFormed hd.represents.counted ha hb

/-- In a table that calls have built a root of rank `r` has a class of at least `2 ^ r` nodes.
Short of `2 ^ 256` nodes every node below another one has a smaller rank than that one, and
either look-up of a node ends at its root after no more links than the binary logarithm of
the number of nodes. As long as nodes have numbers of 32 bits no rank exceeds 32, and a join
of two classes whose roots have the same rank raises the rank of the root that stays by one. -/
theorem Built.rank_bounds (h : Built pairs d) :
    (d.size < 2 ^ (maxRank + 1) → ∀ n, d.up n ≠ n → d.rankOf n < d.rankOf (d.up n)) ∧
    (∀ r < d.size, d.root r = r →
      2 ^ d.rankOf r ≤ ((Finset.range d.size).filter fun n => d.root n = r).card) ∧
    (d.size ≤ 2 ^ 32 →
      (∀ n, d.rankOf n ≤ 32) ∧
      ∀ a < d.size, ∀ b < d.size, d.root a ≠ d.root b →
        ∃ r e, d.union? a b = some (r, e) ∧ ∀ n, e.rankOf n =
          if n = r ∧ d.rankOf (d.root a) = d.rankOf (d.root b) then d.rankOf n + 1
          else d.rankOf n) ∧
    (d.size < 2 ^ (maxRank + 1) → ∀ n < d.size,
      (∃ k ≤ Nat.log2 d.size, d.LeadsIn n k (d.root n) ∧ d.root? n = some (d.root n)) ∧
      ∃ k ≤ Nat.log2 d.size, ∃ e, d.HalvesIn n k (d.root n) e ∧
        d.find? n = some (d.root n, e)) := by
  have hranked := h.ranked
  have hwf := h.represents.wellFormed
  have hcounted := h.represents.counted
  refine ⟨hranked.rises, hranked.heavy, fun hsize => ?_, fun hsize n hn => ⟨?_, ?_⟩⟩
  · have hsmall : d.size < 2 ^ (maxRank + 1) := hsize.trans_lt (by decide)
    refine ⟨fun n => ?_, fun a ha b hb hne => ?_⟩
    · by_cases hn : n < d.size
      · have hpow := (hranked.two_pow_rankOf_root_le hwf hn).trans hsize
        exact (hranked.rankOf_le_root hwf hsmall n).trans
          ((Nat.pow_le_pow_iff_right (by decide)).1 hpow)
      · have hnone : d.rank[n]? = none := by
          rw [Array.getElem?_eq_none_iff, hcounted.rank_size]
          exact Nat.le_of_not_lt hn
        rw [rankOf, Array.getD_eq_getD_getElem?, hnone]
        exact Nat.zero_le _
    · exact ⟨(d.union a b).1, (d.union a b).2, hwf.union?_eq hcounted ha hb,
        hranked.rankOf_union hwf hcounted hsmall ha hb hne⟩
  · obtain ⟨k, hk⟩ := (hwf.leads_root n).exists_leadsIn
    exact ⟨k, hranked.le_log2 hwf hn (hk.add_rankOf_le (hranked.rises hsize)), hk,
      hwf.root?_eq hn⟩
  · have hhalves := hwf.halves_find n
    rw [hwf.find_fst] at hhalves
    obtain ⟨k, hk⟩ := hhalves.exists_halvesIn
    refine ⟨k, hranked.le_log2 hwf hn (hk.add_rankOf_le (hranked.rises hsize)), _, hk, ?_⟩
    rw [hwf.find?_eq hn, ← hwf.find_fst]

/-- Two classes of two nodes are joined: the root of the joined class has rank two and a class
of four nodes, and it keeps its rank when it absorbs a fifth one. The path from `3` leads over
a node of rank one, and neither look-up follows more than its two links. -/
theorem rank_bounds_two_links :
    let d := ((((singletons 5).union 0 1).2.union 2 3).2.union 1 3).2
    Built [(1, 3), (2, 3), (0, 1)] d ∧ (List.range 5).map d.rankOf = [2, 0, 1, 0, 0] ∧
      d.rankOf 3 < d.rankOf (d.up 3) ∧
      2 ^ 2 ≤ ((Finset.range d.size).filter fun n => d.root n = 0).card ∧
      (∃ r e, d.union? 3 4 = some (r, e) ∧ e.rankOf 0 = 2) ∧
      (∃ k ≤ 2, d.LeadsIn 3 k 0) ∧
      ∃ k ≤ 2, ∃ e, d.HalvesIn 3 k 0 e ∧ d.find? 3 = some (0, e) := by
  intro d
  have hbuilt : Built [(1, 3), (2, 3), (0, 1)] d :=
    .union (by decide) (by decide)
      (.union (by decide) (by decide) (.union (by decide) (by decide) (.singletons 5)))
  have hsize : d.size = 5 := by decide +kernel
  have hroot : d.root 3 = 0 := by decide +kernel
  have hlog : Nat.log2 d.size = 2 := by decide +kernel
  obtain ⟨hrises, hheavy, hsmall, hlinks⟩ := hbuilt.rank_bounds
  obtain ⟨⟨k, hk, hleads, _⟩, k', hk', e, hhalves, hfind⟩ :=
    hlinks (hsize ▸ by decide) 3 (by decide +kernel)
  obtain ⟨r, f, hunion, hrank⟩ := (hsmall (hsize ▸ by decide)).2 3 (by decide +kernel) 4
    (by decide +kernel) (by decide +kernel)
  rw [hlog] at hk hk'
  rw [hroot] at hleads hhalves hfind
  refine ⟨hbuilt, by decide +kernel, hrises (hsize ▸ by decide) 3 (by decide +kernel),
    hheavy 0 (by decide +kernel) (by decide +kernel), ⟨r, f, hunion, ?_⟩, ⟨k, hk, hleads⟩,
    k', hk', e, hhalves, hfind⟩
  rw [hrank, if_neg fun hboth => absurd hboth.2 (by decide +kernel)]
  decide +kernel

end Built

end DisjointSets

end PointsTo
