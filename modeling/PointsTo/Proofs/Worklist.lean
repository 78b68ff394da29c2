import PointsTo.Worklist
import PointsTo.Proofs.NodeSet
import Mathlib.Data.List.Nodup
import Mathlib.Data.List.Perm.Basic

/-!
# The queued nodes

Queue and pending set of a worklist are two views of the same nodes. Whatever
the order of leaving, a pop takes one entry out of the queue and leaves the
others, which is said once for all orders as a permutation (`perm_of_next?`). Where the
position is not drawn, it is an end of the queue, and the others keep their places.
-/

namespace PointsTo

namespace Worklist

structure WellFormed (w : Worklist) : Prop where
  nodup : w.queue.Nodup
  ascending : w.pending.Ascending
  mem_pending_iff (n : Nat) : n ∈ w.pending ↔ n ∈ w.queue

theorem wellFormed_new (order : PopOrder) : (new order).WellFormed where
  nodup := List.nodup_nil
  ascending := NodeSet.ascending_empty
  mem_pending_iff _ := Iff.rfl

theorem push_eq {w : Worklist} (hw : w.WellFormed) (n : Nat) :
    (n ∈ w.queue ∧ w.push n = (w, false)) ∨
      n ∉ w.queue ∧
        w.push n = ({ w with queue := w.queue ++ [n], pending := w.pending.add n }, true) := by
  have hmem : w.pending.contains n = true ↔ n ∈ w.queue :=
    (NodeSet.contains_iff hw.ascending).trans (hw.mem_pending_iff n)
  rw [push]
  split
  next h => exact .inl ⟨hmem.1 h, rfl⟩
  next h => exact .inr ⟨fun hn => h (hmem.2 hn), rfl⟩

theorem WellFormed.contains_iff {w : Worklist} (hw : w.WellFormed) (n : Nat) :
    w.contains n = true ↔ n ∈ w.queue :=
  (NodeSet.contains_iff hw.ascending).trans (hw.mem_pending_iff n)

theorem WellFormed.push_snd_iff {w : Worklist} (hw : w.WellFormed) (n : Nat) :
    (w.push n).2 = true ↔ n ∉ w.queue := by
  rcases push_eq hw n with ⟨hn, heq⟩ | ⟨hn, heq⟩
  · simp [heq, hn]
  · simp [heq, hn]

theorem order_push (w : Worklist) (n : Nat) : (w.push n).1.order = w.order := by
  rw [push]
  split
  next => rfl
  next => rfl

theorem mem_queue_push {w : Worklist} (hw : w.WellFormed) {n m : Nat} :
    m ∈ (w.push n).1.queue ↔ m = n ∨ m ∈ w.queue := by
  rcases push_eq hw n with ⟨hn, h⟩ | ⟨_, h⟩
  · rw [h]
    exact ⟨.inr, fun hm => hm.elim (fun heq => heq ▸ hn) id⟩
  · rw [h, List.mem_append, List.mem_singleton, or_comm]

theorem length_queue_push_le (w : Worklist) (n : Nat) :
    (w.push n).1.queue.length ≤ w.queue.length + 1 := by
  rw [push]
  split
  next => exact Nat.le_succ _
  next => exact Nat.le_of_eq List.length_append

theorem WellFormed.push {w : Worklist} (hw : w.WellFormed) (n : Nat) : (w.push n).1.WellFormed := by
  rcases push_eq hw n with ⟨_, h⟩ | ⟨hn, h⟩
  · rwa [h]
  · rw [h]
    refine ⟨?_, NodeSet.ascending_add hw.ascending, fun m => ?_⟩
    · refine List.nodup_append.2 ⟨hw.nodup, List.nodup_singleton n, fun a ha b hb heq => hn ?_⟩
      rwa [← List.mem_singleton.1 hb, ← heq]
    · rw [NodeSet.mem_add hw.ascending, hw.mem_pending_iff, List.mem_append, List.mem_singleton,
        or_comm]

/-- The gap that the drawn entry leaves is filled with the newest one. -/
theorem perm_cons_swapRemove {queue : List Nat} {i n : Nat} (h : queue[i]? = some n) :
    queue.Perm (n :: swapRemove queue i) := by
  obtain ⟨hi, rfl⟩ := List.getElem?_eq_some_iff.1 h
  have hne : queue ≠ [] := List.ne_nil_of_length_pos (by omega)
  have hset : queue.set i (queue.getLast hne) ≠ [] :=
    List.ne_nil_of_length_pos (by rw [List.length_set]; omega)
  have hlast : (queue.set i (queue.getLast hne)).getLast hset = queue.getLast hne := by
    rw [List.getLast_eq_getElem, List.getElem_set]
    split
    next => rfl
    next => simp only [List.length_set, List.getLast_eq_getElem]
  have hswap : swapRemove queue i = (queue.set i (queue.getLast hne)).dropLast := by
    rw [swapRemove, List.getLast?_eq_some_getLast hne]
  have hleft : (swapRemove queue i).Perm (queue.eraseIdx i) := by
    refine List.Perm.cons_inv (a := queue.getLast hne) ?_
    refine List.Perm.trans ?_ (List.set_perm_cons_eraseIdx hi (queue.getLast hne))
    have happend := List.dropLast_append_getLast hset
    rw [hlast, ← hswap] at happend
    rw [← happend]
    exact List.perm_append_singleton _ _ |>.symm
  exact (List.getElem_cons_eraseIdx_perm hi).symm.trans (hleft.symm.cons _)

theorem perm_of_next? {w : Worklist} {n : Nat} {queue : List Nat}
    (h : w.next? = some (n, queue)) : w.queue.Perm (n :: queue) := by
  unfold next? at h
  split at h
  next =>
    obtain ⟨m, hm, heq⟩ := Option.map_eq_some_iff.1 h
    cases heq
    rw [List.cons_head?_tail hm]
  next =>
    obtain ⟨m, hm, heq⟩ := Option.map_eq_some_iff.1 h
    cases heq
    refine List.Perm.trans ?_ (List.perm_append_singleton n _)
    rw [List.dropLast_append_getLast? n hm]
  next =>
    obtain ⟨m, hm, heq⟩ := Option.map_eq_some_iff.1 h
    cases heq
    exact perm_cons_swapRemove hm

section Pop

variable {w w' : Worklist} {n : Nat}

theorem perm_of_pop? (h : w.pop? = some (n, w')) : w.queue.Perm (n :: w'.queue) := by
  obtain ⟨⟨m, queue⟩, hnext, heq⟩ := Option.map_eq_some_iff.1 h
  cases heq
  exact perm_of_next? hnext

theorem WellFormed.pop? (hw : w.WellFormed) (h : w.pop? = some (n, w')) : w'.WellFormed := by
  have hperm := perm_of_pop? h
  have hnodup : (n :: w'.queue).Nodup := hperm.nodup_iff.1 hw.nodup
  obtain ⟨⟨m, queue⟩, hnext, heq⟩ := Option.map_eq_some_iff.1 h
  cases heq
  refine ⟨hnodup.of_cons, NodeSet.ascending_erase hw.ascending, fun k => ?_⟩
  rw [NodeSet.mem_erase hw.ascending, hw.mem_pending_iff, hperm.mem_iff, List.mem_cons]
  constructor
  · rintro ⟨hne, rfl | hk⟩
    · exact absurd rfl hne
    · exact hk
  · intro hk
    exact ⟨fun heq => (List.nodup_cons.1 hnodup).1 (heq ▸ hk), .inr hk⟩

theorem length_queue_of_pop? (h : w.pop? = some (n, w')) :
    w.queue.length = w'.queue.length + 1 := by
  rw [(perm_of_pop? h).length_eq, List.length_cons]

/-- Something leaves as long as something is queued. -/
theorem pop?_eq_none_iff : w.pop? = none ↔ w.queue = [] := by
  rw [pop?, Option.map_eq_none_iff, next?]
  split
  next => rw [Option.map_eq_none_iff, List.head?_eq_none_iff]
  next => rw [Option.map_eq_none_iff, List.getLast?_eq_none_iff]
  next draw _ =>
    rw [Option.map_eq_none_iff, List.getElem?_eq_none_iff]
    refine ⟨fun hle => ?_, fun hnil => by simp [hnil]⟩
    by_contra hne
    exact absurd hle (Nat.not_le.2 (Nat.mod_lt _ (List.length_pos_iff.2 hne)))

theorem order_of_pop? (h : w.pop? = some (n, w')) : w'.order = w.order := by
  obtain ⟨_, _, heq⟩ := Option.map_eq_some_iff.1 h
  cases heq
  rfl

theorem queue_of_pop?_oldest (h : w.pop? = some (n, w')) (horder : w.order = .oldest) :
    w.queue = n :: w'.queue := by
  simp only [pop?, next?, horder, Option.map_map, Option.map_eq_some_iff] at h
  obtain ⟨m, hm, heq⟩ := h
  cases heq
  exact (List.cons_head?_tail hm).symm

theorem queue_of_pop?_newest (h : w.pop? = some (n, w')) (horder : w.order = .newest) :
    w.queue = w'.queue ++ [n] := by
  simp only [pop?, next?, horder, Option.map_map, Option.map_eq_some_iff] at h
  obtain ⟨m, hm, heq⟩ := h
  cases heq
  exact (List.dropLast_append_getLast? _ hm).symm

/-- Unless the position is drawn, the nodes that stay queued keep their places. -/
theorem sublist_of_pop? (h : w.pop? = some (n, w'))
    (horder : w.order = .oldest ∨ w.order = .newest) : w'.queue.Sublist w.queue := by
  rcases horder with horder | horder
  · rw [queue_of_pop?_oldest h horder]
    exact List.sublist_cons_self n w'.queue
  · rw [queue_of_pop?_newest h horder]
    exact List.sublist_append_left w'.queue [n]

theorem mem_queue_of_pop? (h : w.pop? = some (n, w')) {m : Nat} (hm : m ∈ w.queue) :
    m = n ∨ m ∈ w'.queue :=
  List.mem_cons.1 ((perm_of_pop? h).mem_iff.1 hm)

end Pop

end Worklist

end PointsTo
