import PointsTo.Proofs.DisjointSets
import Mathlib.Data.Finset.Card

/-!
# Look-ups that halve paths

`find` lets every other node on its way skip a link. A node that skips its parent
is still led to the same root, and what grows along the links grows along the new
one as well. So the classes stay what they are (`Shortens`), a walk of `find` ends
for the same reason as one of `root`, and it ends there: what is looked up, and the
list of all representatives, may be read off the links as they were.
-/

namespace PointsTo

namespace DisjointSets

/-- The links of `e` lead to the same roots as those of `d`. -/
structure Shortens (d e : DisjointSets) : Prop where
  wellFormed : e.WellFormed
  size_eq : e.size = d.size
  root_eq (n : Nat) : e.root n = d.root n

/-- The nodes above `n`, as far as heights go. -/
def above (d : DisjointSets) (height : Nat → Nat) (n : Nat) : Finset Nat :=
  (Finset.range d.size).filter fun m => height n < height m

section Find

variable {d e f : DisjointSets} {height : Nat → Nat} {n m r : Nat}

theorem WellFormed.shortens_refl (hd : d.WellFormed) : d.Shortens d := ⟨hd, rfl, fun _ => rfl⟩

theorem Shortens.trans (h : d.Shortens e) (h' : e.Shortens f) : d.Shortens f where
  wellFormed := h'.wellFormed
  size_eq := h'.size_eq.trans h.size_eq
  root_eq n := (h'.root_eq n).trans (h.root_eq n)

theorem size_skip (d : DisjointSets) (n : Nat) : (d.skip n).size = d.size :=
  Array.size_setIfInBounds ..

theorem up_skip (d : DisjointSets) (n m : Nat) :
    (d.skip n).up m = if m = n then d.up (d.up n) else d.up m := by
  rw [up, skip, Array.getD_eq_getD_getElem?, Array.getElem?_setIfInBounds]
  by_cases hm : m = n
  · subst hm
    rw [if_pos rfl, if_pos rfl]
    by_cases hlt : m < d.parent.size
    · rw [if_pos hlt, Option.getD_some]
    · have hup : d.up m = m := up_of_size_le (Nat.le_of_not_lt hlt)
      rw [if_neg hlt, Option.getD_none, hup, hup]
  · rw [if_neg (Ne.symm hm), if_neg hm, up, Array.getD_eq_getD_getElem?]

theorem height_lt_up_skip (hheight : ∀ n, d.up n ≠ n → height n < height (d.up n))
    (hm : (d.skip n).up m ≠ m) : height m < height ((d.skip n).up m) := by
  rw [up_skip] at hm ⊢
  split at hm
  next heq =>
    subst heq
    rw [if_pos rfl]
    by_cases hparent : d.up m = m
    · rw [hparent, hparent] at hm
      exact absurd rfl hm
    · by_cases htop : d.up (d.up m) = d.up m
      · rw [htop]
        exact hheight m hparent
      · exact (hheight m hparent).trans (hheight (d.up m) htop)
  next hne =>
    rw [if_neg hne]
    exact hheight m hm

/-- A node that skips its parent is led where its parent is. -/
theorem Leads.skip (hheight : ∀ n, d.up n ≠ n → height n < height (d.up n)) (h : d.Leads m r) :
    (d.skip n).Leads m r := by
  induction h with
  | @root m hm =>
      refine .root ?_
      rw [up_skip]
      split
      next heq => rw [← heq, hm, hm]
      next => exact hm
  | @up m r hm _ ih =>
      by_cases hmn : m = n
      · subst hmn
        have hup : (d.skip m).up m = d.up (d.up m) := by rw [up_skip, if_pos rfl]
        have hparent : (d.skip m).up (d.up m) = d.up (d.up m) := by rw [up_skip, if_neg hm]
        have hne : (d.skip m).up m ≠ m := by
          intro heq
          have hlt := hheight m hm
          by_cases htop : d.up (d.up m) = d.up m
          · exact hm (htop.symm.trans (hup.symm.trans heq))
          · have hlt' := hheight (d.up m) htop
            rw [← hup, heq] at hlt'
            omega
        refine .up hne ?_
        cases ih with
        | root htop =>
            rw [hup, ← hparent, htop]
            exact .root htop
        | up _ hrest => rwa [hup, ← hparent]
      · have hup : (d.skip n).up m = d.up m := by rw [up_skip, if_neg hmn]
        exact .up (hup ▸ hm) (hup ▸ ih)

theorem WellFormed.shortens_skip (hd : d.WellFormed) (n : Nat) : d.Shortens (d.skip n) := by
  obtain ⟨height, hheight⟩ := hd.acyclic
  have hskip : (d.skip n).WellFormed := by
    refine ⟨fun m hm => ?_, height, fun m => height_lt_up_skip hheight⟩
    rw [size_skip] at hm ⊢
    rw [up_skip]
    split
    next heq => exact hd.up_lt _ (hd.up_lt n (heq ▸ hm))
    next => exact hd.up_lt m hm
  exact ⟨hskip, d.size_skip n, fun m => hskip.root_eq_of_leads ((hd.leads_root m).skip hheight)⟩

theorem WellFormed.root_up (hd : d.WellFormed) (n : Nat) : d.root (d.up n) = d.root n := by
  by_cases hn : d.up n = n
  · rw [hn]
  · exact (hd.root_eq_of_leads (.up hn (hd.leads_root (d.up n)))).symm

theorem card_above_up_lt (hd : d.WellFormed)
    (hheight : ∀ n, d.up n ≠ n → height n < height (d.up n)) (hn : d.up n ≠ n) :
    (d.above height (d.up n)).card < (d.above height n).card := by
  have hlt := hheight n hn
  refine Finset.card_lt_card (Finset.ssubset_iff_of_subset ?_ |>.2 ⟨d.up n, ?_, ?_⟩)
  · exact Finset.monotone_filter_right _ fun m _ hm => hlt.trans hm
  · exact Finset.mem_filter.2 ⟨Finset.mem_range.2 (hd.up_lt n (lt_size_of_up_ne hn)), hlt⟩
  · exact fun hself => Nat.lt_irrefl _ (Finset.mem_filter.1 hself).2

/-- Every two links climbed leave fewer nodes above, so the walk ends at the root. -/
theorem WellFormed.halve_eq_root (hd : d.WellFormed)
    (hheight : ∀ n, d.up n ≠ n → height n < height (d.up n)) {fuel : Nat}
    (hfuel : (d.above height n).card ≤ fuel) :
    (d.halve fuel n).1 = d.root n ∧ d.Shortens (d.halve fuel n).2 := by
  induction fuel generalizing d n with
  | zero =>
      have hn : d.up n = n := by
        by_contra hn
        have hlt := card_above_up_lt hd hheight hn
        omega
      exact ⟨(hd.root_eq_self_iff.2 hn).symm, hd.shortens_refl⟩
  | succ fuel ih =>
      rw [halve]
      split
      next hn => exact ⟨(hd.root_eq_self_iff.2 hn).symm, hd.shortens_refl⟩
      next hn =>
        have hskip := hd.shortens_skip n
        have hcard : ((d.skip n).above height (d.up (d.up n))).card ≤ fuel := by
          have hlt := card_above_up_lt hd hheight hn
          rw [above, size_skip, ← above]
          by_cases htop : d.up (d.up n) = d.up n
          · rw [htop]
            omega
          · have hlt' := card_above_up_lt hd hheight htop
            omega
        obtain ⟨hroot, hshorter⟩ := ih hskip.wellFormed (fun _ => height_lt_up_skip hheight) hcard
        refine ⟨?_, hskip.trans hshorter⟩
        rw [hroot, hskip.root_eq, hd.root_up, hd.root_up]

theorem WellFormed.find_spec (hd : d.WellFormed) (n : Nat) :
    (d.find n).1 = d.root n ∧ d.Shortens (d.find n).2 := by
  obtain ⟨height, hheight⟩ := hd.acyclic
  refine hd.halve_eq_root hheight ((Finset.card_filter_le _ _).trans_eq ?_)
  exact Finset.card_range d.size

theorem WellFormed.findAll_spec (hd : d.WellFormed) (ns : List Nat) :
    (d.findAll ns).1 = ns.map d.root ∧ d.Shortens (d.findAll ns).2 := by
  induction ns generalizing d with
  | nil => exact ⟨rfl, hd.shortens_refl⟩
  | cons n ns ih =>
      obtain ⟨hroot, hshorter⟩ := hd.find_spec n
      obtain ⟨hroots, hshorter'⟩ := ih hshorter.wellFormed
      refine ⟨?_, hshorter.trans hshorter'⟩
      rw [findAll, List.map_cons, ← hroot]
      refine congrArg _ (hroots.trans (List.map_congr_left fun m _ => hshorter.root_eq m))

theorem wordSize_eq (hsize : d.size ≤ maxIndex) : d.wordSize = d.size :=
  Nat.mod_eq_of_lt (Nat.lt_succ_of_le hsize)

/-- Looking up all nodes gives the root of each, as long as their number fits 32 bits. -/
theorem WellFormed.representatives_eq (hd : d.WellFormed) (hsize : d.size ≤ maxIndex) :
    d.representatives.1 = (List.range d.size).map d.root := by
  rw [representatives, wordSize_eq hsize]
  exact (hd.findAll_spec (List.range d.size)).1

end Find

end DisjointSets

end PointsTo
