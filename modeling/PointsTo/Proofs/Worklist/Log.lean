import PointsTo.Proofs.NodeSet.Finite
import PointsTo.Proofs.Worklist
import Mathlib.Data.List.Induction

/-!
# What has been pushed and not popped

What a worklist holds is told by the log of its calls and their answers. A push that was
accepted is outstanding until its node is popped (`Outstanding`), and its position in the
log is its age. The queue has the nodes of the outstanding pushes, each of them once, in
whatever order they leave. This is the first part of `Follows`, which every call keeps.

The other part is about age. A drawn pop moves the last node into the gap and so mixes up
the queue. The other two orders take from an end and leave the rest as it stands: their
queues stay sorted by age, and the two ends are the oldest and the newest outstanding push.
-/

namespace PointsTo

namespace Worklist

inductive Call where
  | push (n : Nat)
  | pop

/-- A call with its answer. -/
inductive Entry where
  | pushed (n : Nat) (fresh : Bool)
  | popped (n? : Option Nat)
deriving DecidableEq

def after (w : Worklist) : Call → Worklist
  | .push n => (w.push n).1
  | .pop => (w.pop?.map Prod.snd).getD w

def entry (w : Worklist) : Call → Entry
  | .push n => .pushed n (w.push n).2
  | .pop => .popped (w.pop?.map Prod.fst)

def afterAll (w : Worklist) (calls : List Call) : Worklist := calls.foldl after w

/-- One call after the other, each with its answer. -/
def log (w : Worklist) : List Call → List Entry
  | [] => []
  | call :: calls => w.entry call :: (w.after call).log calls

/-- The push at position `i` was accepted, and its node `n` has not been popped since. -/
def Outstanding (log : List Entry) (i n : Nat) : Prop :=
  log[i]? = some (.pushed n true) ∧ .popped (some n) ∉ log.drop (i + 1)

/-- The outstanding push of `n` came before that of `m`. -/
def Older (log : List Entry) (n m : Nat) : Prop :=
  ∀ i j, Outstanding log i n → Outstanding log j m → i < j

/-- The worklist holds what the log has left outstanding. -/
structure Follows (w : Worklist) (log : List Entry) : Prop where
  wellFormed : w.WellFormed
  mem_queue_iff (n : Nat) : n ∈ w.queue ↔ ∃ i, Outstanding log i n
  /-- A node has one outstanding push at most. -/
  unique {i j n : Nat} : Outstanding log i n → Outstanding log j n → i = j
  /-- Every accepted push has been popped or is queued. -/
  count_eq (n : Nat) :
    log.count (.pushed n true) = log.count (.popped (some n)) + w.queue.count n
  sorted : w.order = .oldest ∨ w.order = .newest → w.queue.Pairwise (Older log)

/-! ## Sequences of calls -/

section Calls

variable {w : Worklist} {calls : List Call} {earlier later : List Entry} {e : Entry}

theorem afterAll_concat (w : Worklist) (calls : List Call) (call : Call) :
    w.afterAll (calls ++ [call]) = (w.afterAll calls).after call := by
  simp [afterAll]

theorem log_concat (w : Worklist) (calls : List Call) (call : Call) :
    w.log (calls ++ [call]) = w.log calls ++ [(w.afterAll calls).entry call] := by
  induction calls generalizing w with
  | nil => rfl
  | cons first calls ih =>
      rw [List.cons_append, log, ih, log, List.cons_append]
      rfl

/-- A log that is cut before an entry is the log of the calls before that one. -/
theorem exists_call_of_log_eq (h : w.log calls = earlier ++ e :: later) :
    ∃ before call, w.log before = earlier ∧ (w.afterAll before).entry call = e := by
  induction earlier generalizing w calls with
  | nil =>
      cases calls with
      | nil => simp [log] at h
      | cons call calls =>
          simp only [log, List.nil_append, List.cons.injEq] at h
          exact ⟨[], call, rfl, h.1⟩
  | cons first earlier ih =>
      cases calls with
      | nil => simp [log] at h
      | cons call calls =>
          simp only [log, List.cons_append, List.cons.injEq] at h
          obtain ⟨hfirst, hrest⟩ := h
          obtain ⟨before, last, hbefore, hlast⟩ := ih hrest
          refine ⟨call :: before, last, ?_, hlast⟩
          rw [log, hfirst, hbefore]

theorem order_after (w : Worklist) (call : Call) : (w.after call).order = w.order := by
  cases call with
  | push n => exact w.order_push n
  | pop =>
      cases hpop : w.pop? with
      | none => simp [after, hpop]
      | some result => simpa [after, hpop] using order_of_pop? hpop

theorem order_afterAll (w : Worklist) (calls : List Call) :
    (w.afterAll calls).order = w.order := by
  induction calls generalizing w with
  | nil => rfl
  | cons call calls ih => exact (ih (w.after call)).trans (w.order_after call)

end Calls

/-! ## Outstanding pushes -/

section Outstanding

variable {log : List Entry} {e : Entry} {i m n : Nat}

theorem Outstanding.lt_length (h : Outstanding log i n) : i < log.length :=
  (List.getElem?_eq_some_iff.1 h.1).1

theorem outstanding_concat : Outstanding (log ++ [e]) i n ↔
    Outstanding log i n ∧ e ≠ .popped (some n) ∨ i = log.length ∧ e = .pushed n true := by
  rcases Nat.lt_trichotomy i log.length with hlt | rfl | hgt
  · have hdrop : (log ++ [e]).drop (i + 1) = log.drop (i + 1) ++ [e] :=
      List.drop_append_of_le_length hlt
    simp [Outstanding, hdrop, List.getElem?_append_left hlt, hlt.ne, and_assoc, eq_comm]
  · simp [Outstanding]
  · have hnot : ¬Outstanding log i n := fun h => absurd h.lt_length hgt.not_gt
    have hnone : (log ++ [e])[i]? = none := by
      rw [List.getElem?_eq_none_iff, List.length_append]
      exact hgt
    rw [Outstanding, hnone]
    simp [hnot, hgt.ne']

theorem outstanding_concat_pushed : Outstanding (log ++ [.pushed m true]) i n ↔
    Outstanding log i n ∨ i = log.length ∧ m = n := by
  simp [outstanding_concat]

theorem outstanding_concat_popped :
    Outstanding (log ++ [.popped (some m)]) i n ↔ Outstanding log i n ∧ m ≠ n := by
  simp [outstanding_concat]

end Outstanding

/-! ## Every call keeps to the log -/

section Follows

variable {w w' : Worklist} {log : List Entry} {e : Entry} {i j m n : Nat}

theorem follows_new (order : PopOrder) : (new order).Follows [] where
  wellFormed := wellFormed_new order
  mem_queue_iff n := by simp [new, Outstanding]
  unique h := absurd h.lt_length (Nat.not_lt_zero _)
  count_eq n := by simp [new]
  sorted _ := List.Pairwise.nil

/-- An entry that neither brings a node nor takes one away leaves everything outstanding. -/
theorem Follows.idle (h : w.Follows log) (hpush : ∀ n, e ≠ .pushed n true)
    (hpop : ∀ n, e ≠ .popped (some n)) : w.Follows (log ++ [e]) := by
  have hsame : Outstanding (log ++ [e]) = Outstanding log := by
    funext i n
    simp [outstanding_concat, hpush, hpop]
  have holder : Older (log ++ [e]) = Older log := by
    funext n m
    simp only [Older, hsame]
  refine ⟨h.wellFormed, ?_, ?_, ?_, ?_⟩
  · rw [hsame]
    exact h.mem_queue_iff
  · rw [hsame]
    exact h.unique
  · intro n
    simp [hpush, hpop, h.count_eq]
  · rw [holder]
    exact h.sorted

theorem Follows.not_outstanding (h : w.Follows log) (hn : n ∉ w.queue) (i : Nat) :
    ¬Outstanding log i n :=
  fun hi => hn ((h.mem_queue_iff n).2 ⟨i, hi⟩)

/-- The push of a node that is not queued is newer than all that are outstanding. -/
theorem Follows.sorted_append (h : w.Follows log) (hn : n ∉ w.queue)
    (hsorted : w.queue.Pairwise (Older log)) :
    (w.queue ++ [n]).Pairwise (Older (log ++ [.pushed n true])) := by
  -- only `n` gets another outstanding push, and it is none of the nodes in front of it
  have hold : ∀ m ∈ w.queue, ∀ i, Outstanding (log ++ [.pushed n true]) i m →
      Outstanding log i m := by
    intro m hm i hi
    refine (outstanding_concat_pushed.1 hi).resolve_right ?_
    rintro ⟨-, rfl⟩
    exact hn hm
  refine List.pairwise_append.2 ⟨?_, List.pairwise_singleton _ _, ?_⟩
  · refine hsorted.imp_of_mem fun hk hm holder i j hi hj => ?_
    exact holder i j (hold _ hk i hi) (hold _ hm j hj)
  · intro m hm k hk i j hi hj
    obtain rfl := List.mem_singleton.1 hk
    rcases outstanding_concat_pushed.1 hj with hj | ⟨rfl, -⟩
    · exact absurd hj (h.not_outstanding hn j)
    · exact (hold m hm i hi).lt_length

theorem Follows.push (h : w.Follows log) (n : Nat) :
    (w.push n).1.Follows (log ++ [.pushed n (w.push n).2]) := by
  have hwf := h.wellFormed.push n
  rcases push_eq h.wellFormed n with ⟨_, heq⟩ | ⟨hn, heq⟩
  · rw [heq]
    exact h.idle (by simp) (by simp)
  · rw [heq] at hwf ⊢
    have hnone := h.not_outstanding hn
    refine ⟨hwf, fun m => ?_, fun {i j m} hi hj => ?_, fun m => ?_, fun horder => ?_⟩
    · simp [outstanding_concat_pushed, exists_or, h.mem_queue_iff, eq_comm]
    · rw [outstanding_concat_pushed] at hi hj
      rcases hi with hi | ⟨rfl, rfl⟩
      · rcases hj with hj | ⟨rfl, rfl⟩
        · exact h.unique hi hj
        · exact absurd hi (hnone i)
      · rcases hj with hj | ⟨rfl, -⟩
        · exact absurd hj (hnone j)
        · rfl
    · have hcount := h.count_eq m
      simp only [List.count_append, List.count_singleton, beq_iff_eq, Entry.pushed.injEq, and_true,
        reduceCtorEq, if_false, Nat.add_zero]
      omega
    · exact h.sorted_append hn (h.sorted horder)

theorem Follows.pop? (h : w.Follows log) (hpop : w.pop? = some (n, w')) :
    w'.Follows (log ++ [.popped (some n)]) := by
  have hperm := perm_of_pop? hpop
  have hnodup : (n :: w'.queue).Nodup := hperm.nodup_iff.1 h.wellFormed.nodup
  refine ⟨h.wellFormed.pop? hpop, fun m => ?_, fun {i j m} hi hj => ?_, fun m => ?_,
    fun horder => ?_⟩
  · simp only [outstanding_concat_popped, exists_and_right, ← h.mem_queue_iff, hperm.mem_iff,
      List.mem_cons]
    constructor
    · intro hm
      refine ⟨.inr hm, ?_⟩
      rintro rfl
      exact (List.nodup_cons.1 hnodup).1 hm
    · rintro ⟨rfl | hm, hne⟩
      · exact absurd rfl hne
      · exact hm
  · exact h.unique (outstanding_concat_popped.1 hi).1 (outstanding_concat_popped.1 hj).1
  · have hcount := h.count_eq m
    rw [hperm.count_eq] at hcount
    simp only [List.count_cons, List.count_append, List.count_nil, beq_iff_eq,
      Entry.popped.injEq, Option.some.injEq, reduceCtorEq, if_false] at hcount ⊢
    omega
  · rw [order_of_pop? hpop] at horder
    refine ((h.sorted horder).sublist (sublist_of_pop? hpop horder)).imp ?_
    intro k m holder i j hi hj
    exact holder i j (outstanding_concat_popped.1 hi).1 (outstanding_concat_popped.1 hj).1

theorem Follows.after (h : w.Follows log) (call : Call) :
    (w.after call).Follows (log ++ [w.entry call]) := by
  cases call with
  | push n => exact h.push n
  | pop =>
      cases hpop : w.pop? with
      | none =>
          simp only [Worklist.after, entry, hpop, Option.map_none, Option.getD_none]
          exact h.idle (by simp) (by simp)
      | some result =>
          simp only [Worklist.after, entry, hpop, Option.map_some, Option.getD_some]
          exact h.pop? hpop

theorem follows_afterAll (order : PopOrder) (calls : List Call) :
    ((new order).afterAll calls).Follows ((new order).log calls) := by
  induction calls using List.reverseRecOn with
  | nil => exact follows_new order
  | append_singleton calls call ih =>
      rw [afterAll_concat, log_concat]
      exact ih.after call

end Follows

/-! ## What leaves, and when it comes back -/

section Discipline

variable {w w' : Worklist} {log : List Entry} {order : PopOrder} {calls : List Call}
  {earlier between later : List Entry} {i j m n : Nat}

theorem Follows.exists_outstanding (h : w.Follows log) (hpop : w.pop? = some (n, w')) :
    ∃ i, Outstanding log i n :=
  (h.mem_queue_iff n).1 ((perm_of_pop? hpop).mem_iff.2 List.mem_cons_self)

theorem Follows.oldest_le (h : w.Follows log) (horder : w.order = .oldest)
    (hpop : w.pop? = some (n, w')) (hi : Outstanding log i n) (hj : Outstanding log j m) :
    i ≤ j := by
  have hsorted := h.sorted (.inl horder)
  have hm := (h.mem_queue_iff m).2 ⟨j, hj⟩
  rw [queue_of_pop?_oldest hpop horder] at hsorted hm
  rcases List.mem_cons.1 hm with rfl | hm
  · exact (h.unique hi hj).le
  · exact (List.rel_of_pairwise_cons hsorted hm i j hi hj).le

theorem Follows.le_newest (h : w.Follows log) (horder : w.order = .newest)
    (hpop : w.pop? = some (n, w')) (hi : Outstanding log i n) (hj : Outstanding log j m) :
    j ≤ i := by
  have hsorted := h.sorted (.inr horder)
  have hm := (h.mem_queue_iff m).2 ⟨j, hj⟩
  rw [queue_of_pop?_newest hpop horder] at hsorted hm
  rw [List.mem_append, List.mem_singleton] at hm
  rcases hm with hm | rfl
  · have hlast := (List.pairwise_append.1 hsorted).2.2 m hm n List.mem_cons_self
    exact (hlast j i hj hi).le
  · exact (h.unique hj hi).le

/-- When a push is accepted, the earlier accepted pushes of its node have been popped. -/
theorem count_eq_of_accepted (h : (new order).log calls = earlier ++ .pushed n true :: later) :
    earlier.count (.pushed n true) = earlier.count (.popped (some n)) := by
  obtain ⟨before, call, rfl, hcall⟩ := exists_call_of_log_eq h
  have hfollows := follows_afterAll order before
  cases call with
  | pop => simp [entry] at hcall
  | push m =>
      simp only [entry, Entry.pushed.injEq] at hcall
      obtain ⟨rfl, hfresh⟩ := hcall
      have hm := (hfollows.wellFormed.push_snd_iff m).1 hfresh
      rw [hfollows.count_eq, List.count_eq_zero.2 hm, Nat.add_zero]

theorem count_popped_between
    (h : (new order).log calls =
      earlier ++ .pushed n true :: between ++ .pushed n true :: later) :
    between.count (.popped (some n)) = between.count (.pushed n true) + 1 := by
  -- before either push of the two, `n` has been popped as often as it has been accepted
  have hsecond := count_eq_of_accepted h
  rw [List.append_assoc, List.cons_append] at h
  have hfirst := count_eq_of_accepted h
  rw [List.count_append, List.count_append, List.count_cons_self,
    List.count_cons_of_ne (by simp)] at hsecond
  omega

/-- Whatever calls a worklist has answered, and in whatever order it gives up its nodes: its
queue holds no node twice, its pending set and its queries tell of the same nodes as the
queue, and these are the nodes with an outstanding push. The next push is accepted if its
node is not queued. The next pop takes a node with an outstanding push, the oldest or the
newest one if that is the order, unless nothing is queued. Between two accepted pushes of a
node it is popped once more than it is accepted, so that it is popped exactly once between
two that follow each other. -/
theorem queue_follows_log (order : PopOrder) (calls : List Call) :
    let w := (new order).afterAll calls
    let log := (new order).log calls
    (w.queue.Nodup ∧ w.pending.toFinset = w.queue.toFinset ∧
      (∀ n, w.contains n = true ↔ n ∈ w.queue) ∧ w.size = w.queue.toFinset.card ∧
      (w.isEmpty = true ↔ w.queue.toFinset = ∅)) ∧
    (∀ n, n ∈ w.queue ↔ ∃ i, Outstanding log i n) ∧
    (∀ n, (w.push n).2 = true ↔ n ∉ w.queue) ∧
    (w.pop? = none ↔ w.queue = []) ∧
    (∀ n w', w.pop? = some (n, w') → ∃ i, Outstanding log i n ∧
      (order = .oldest → ∀ j m, Outstanding log j m → i ≤ j) ∧
      (order = .newest → ∀ j m, Outstanding log j m → j ≤ i)) ∧
    ∀ n earlier between later,
      log = earlier ++ .pushed n true :: between ++ .pushed n true :: later →
        between.count (.popped (some n)) = between.count (.pushed n true) + 1 := by
  intro w log
  have hfollows : w.Follows log := follows_afterAll order calls
  have hw := hfollows.wellFormed
  have horder : w.order = order := order_afterAll (new order) calls
  refine ⟨⟨hw.nodup, ?_, hw.contains_iff, ?_, ?_⟩, hfollows.mem_queue_iff, hw.push_snd_iff,
    pop?_eq_none_iff, fun n w' hpop => ?_, fun n earlier between later => count_popped_between⟩
  · ext n
    rw [NodeSet.mem_toFinset, List.mem_toFinset, hw.mem_pending_iff]
  · exact (List.toFinset_card_of_nodup hw.nodup).symm
  · rw [isEmpty, List.isEmpty_iff, List.toFinset_eq_empty_iff]
  · obtain ⟨i, hi⟩ := hfollows.exists_outstanding hpop
    refine ⟨i, hi, fun ho j m hj => ?_, fun ho j m hj => ?_⟩
    · exact hfollows.oldest_le (horder.trans ho) hpop hi hj
    · exact hfollows.le_newest (horder.trans ho) hpop hi hj

/-- Of three pushes of a node the second one is refused while the first one waits. The third
one is accepted after a pop of the oldest node, which is this one, and refused after a pop of
the newest one. The next pops take the node that has waited longest and the one that came
last. -/
theorem queue_follows_log_pushed_again :
    let calls : List Call := [.push 3, .push 1, .push 3, .pop, .push 3, .push 2]
    let between : List Entry := [.pushed 1 true, .pushed 3 false, .popped (some 3)]
    (new .oldest).log calls =
      Entry.pushed 3 true :: between ++ [Entry.pushed 3 true, Entry.pushed 2 true] ∧
    between.count (.popped (some 3)) = 1 ∧
    (new .newest).log calls = [.pushed 3 true, .pushed 1 true, .pushed 3 false,
      .popped (some 1), .pushed 3 false, .pushed 2 true] ∧
    (∃ w, ((new .oldest).afterAll calls).pop? = some (1, w) ∧
      ∃ i, Outstanding ((new .oldest).log calls) i 1 ∧
        ∀ j m, Outstanding ((new .oldest).log calls) j m → i ≤ j) ∧
    ∃ w, ((new .newest).afterAll calls).pop? = some (2, w) ∧
      ∃ i, Outstanding ((new .newest).log calls) i 2 ∧
        ∀ j m, Outstanding ((new .newest).log calls) j m → j ≤ i := by
  intro calls between
  obtain ⟨_, _, _, _, hleaves, hbetween⟩ := queue_follows_log .oldest calls
  obtain ⟨_, _, _, _, hleaves', _⟩ := queue_follows_log .newest calls
  have hlog : (new .oldest).log calls =
      Entry.pushed 3 true :: between ++ [Entry.pushed 3 true, Entry.pushed 2 true] := by
    decide +kernel
  have hfirst : ((new .oldest).afterAll calls).pop?.map Prod.fst = some 1 := by decide +kernel
  have hlast : ((new .newest).afterAll calls).pop?.map Prod.fst = some 2 := by decide +kernel
  obtain ⟨⟨_, w⟩, hpop, rfl⟩ := Option.map_eq_some_iff.1 hfirst
  obtain ⟨⟨_, w'⟩, hpop', rfl⟩ := Option.map_eq_some_iff.1 hlast
  obtain ⟨i, hi, holdest, _⟩ := hleaves 1 w hpop
  obtain ⟨i', hi', _, hnewest⟩ := hleaves' 2 w' hpop'
  exact ⟨hlog, hbetween 3 [] between [.pushed 2 true] hlog, by decide +kernel,
    ⟨w, hpop, i, hi, holdest rfl⟩, w', hpop', i', hi', hnewest rfl⟩

end Discipline

end Worklist

end PointsTo
