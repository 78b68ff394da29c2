import PointsTo.Components
import PointsTo.Proofs.NodeSet
import Mathlib.Data.List.Nodup
import Mathlib.Logic.Relation

/-!
# Components are cycles

What a depth-first search puts into one component lies on common cycles, however
far the search was allowed to go. The stack carries the argument. Its vertices
are numbered in the order in which they were entered, and each vertex that a
finished visit leaves on the stack reaches one with a smaller number
(`Search.Falls`). If a visit met no number below its own, going down in this way
from a vertex above the visited one can only end at the visited one. So when the
search takes these vertices off the stack, each of them reaches the visited
vertex and is reached from it.
-/

namespace PointsTo

namespace Digraph

/-- There is a path from one vertex to the other. -/
def Reach (g : Digraph) : Nat → Nat → Prop :=
  Relation.ReflTransGen fun a b => b ∈ g.successors a

/-- Every vertex of the list reaches every other. -/
def StronglyConnected (g : Digraph) (vertices : List Nat) : Prop :=
  ∀ a ∈ vertices, ∀ b ∈ vertices, g.Reach a b

namespace Search

/-! ## Marks -/

@[simp] theorem mark?_empty (v : Nat) : ({} : Search).mark? v = none :=
  Std.TreeMap.getElem?_emptyc

theorem mark?_enter (s : Search) (v w : Nat) (out : List Nat) :
    (s.enter v out).mark? w = if w = v then some (.pending s.entered) else s.mark? w := by
  simp only [mark?, enter, Std.TreeMap.getElem?_insert, Std.compare_eq_iff_eq, eq_comm (a := w)]

theorem entered_enter {s : Search} {v : Nat} (h : s.mark? v = none) (out : List Nat) :
    (s.enter v out).entered = s.entered + 1 := by
  have hnot : s.marks.contains v = false := by
    rw [Std.TreeMap.contains_eq_isSome_getElem?]
    exact congrArg Option.isSome h
  simp only [entered, enter, Std.TreeMap.size_insert, hnot]
  rfl

theorem getElem?_foldl_settled (marks : Std.TreeMap Nat Mark) (vertices : List Nat) (w : Nat) :
    (vertices.foldl (fun marks u => marks.insert u .settled) marks)[w]? =
      if w ∈ vertices then some .settled else marks[w]? := by
  induction vertices generalizing marks with
  | nil => simp
  | cons u us ih =>
      rw [List.foldl_cons, ih, Std.TreeMap.getElem?_insert]
      by_cases hw : w = u
      · simp [hw]
      · simp [hw, Ne.symm hw]

theorem size_le_foldl_settled (marks : Std.TreeMap Nat Mark) (vertices : List Nat) :
    marks.size ≤ (vertices.foldl (fun marks u => marks.insert u .settled) marks).size := by
  induction vertices generalizing marks with
  | nil => exact Nat.le_refl _
  | cons u us ih => exact Nat.le_trans Std.TreeMap.size_le_size_insert (ih _)

/-! ## What holds of every search -/

/-- The stack holds the pending vertices, newest first, and what has been found
are components of settled vertices. -/
structure Proper (g : Digraph) (s : Search) : Prop where
  mem_stack_iff (v : Nat) : v ∈ s.stack ↔ ∃ k, s.mark? v = some (.pending k)
  sorted : s.stack.Pairwise fun v w => ∀ i j,
    s.mark? v = some (.pending i) → s.mark? w = some (.pending j) → j < i
  lt_entered (v k : Nat) : s.mark? v = some (.pending k) → k < s.entered
  settled (c : List Nat) : c ∈ s.found → ∀ v ∈ c, s.mark? v = some .settled
  connected (c : List Nat) : c ∈ s.found → 1 < c.length ∧ g.StronglyConnected c
  nodup : s.found.flatten.Nodup

/-- From `u` on the stack a vertex of a smaller number can be reached, and that
number is at least `low`. -/
def Falls (g : Digraph) (s : Search) (low u : Nat) : Prop :=
  ∃ w i j, s.mark? u = some (.pending i) ∧ s.mark? w = some (.pending j) ∧
    g.Reach u w ∧ j < i ∧ low ≤ j

/-- The number `low` is `bound`, or belongs to a pending vertex that `v` reaches. -/
def Meets (g : Digraph) (s : Search) (bound v low : Nat) : Prop :=
  low = bound ∨ low < bound ∧ ∃ w, s.mark? w = some (.pending low) ∧ g.Reach v w

theorem Meets.le {g : Digraph} {s : Search} {bound v low : Nat} (h : s.Meets g bound v low) :
    low ≤ bound := by
  rcases h with h | h <;> omega

theorem proper_empty (g : Digraph) : Proper g {} where
  mem_stack_iff v := by simp
  sorted := List.Pairwise.nil
  lt_entered v k h := by simp at h
  settled c h := absurd h List.not_mem_nil
  connected c h := absurd h List.not_mem_nil
  nodup := List.nodup_nil

section Proper

variable {g : Digraph} {s : Search} {v : Nat}

theorem Proper.stack_nodup (hs : s.Proper g) : s.stack.Nodup := by
  refine hs.sorted.imp_of_mem fun {a b} ha _ hlt heq => ?_
  obtain ⟨k, hk⟩ := (hs.mem_stack_iff a).1 ha
  exact Nat.lt_irrefl k (hlt k k hk (heq ▸ hk))

theorem Proper.enter (hs : s.Proper g) (hv : s.mark? v = none) (out : List Nat) :
    (s.enter v out).Proper g := by
  have hne : ∀ w m, s.mark? w = some m → w ≠ v := by
    rintro w m hw rfl
    rw [hv] at hw
    cases hw
  have hold : ∀ w m, s.mark? w = some m → (s.enter v out).mark? w = some m := by
    intro w m hw
    rw [mark?_enter, if_neg (hne w m hw), hw]
  refine
    { mem_stack_iff := fun w => ?_
      sorted := ?_
      lt_entered := fun w k hw => ?_
      settled := fun c hc w hw => hold w _ (hs.settled c hc w hw)
      connected := hs.connected
      nodup := hs.nodup }
  · rw [mark?_enter]
    by_cases hw : w = v
    · simp [hw, Search.enter]
    · rw [if_neg hw, ← hs.mem_stack_iff]
      simp [hw, Search.enter]
  · refine List.pairwise_cons.2 ⟨fun w hw i j hi hj => ?_, ?_⟩
    · obtain ⟨k, hk⟩ := (hs.mem_stack_iff w).1 hw
      rw [mark?_enter, if_pos rfl] at hi
      rw [hold w _ hk] at hj
      cases hi
      cases hj
      exact hs.lt_entered w _ hk
    · refine hs.sorted.imp_of_mem fun {a b} ha hb hlt i j hi hj => ?_
      obtain ⟨ka, hka⟩ := (hs.mem_stack_iff a).1 ha
      obtain ⟨kb, hkb⟩ := (hs.mem_stack_iff b).1 hb
      rw [hold a _ hka] at hi
      rw [hold b _ hkb] at hj
      exact hlt i j (hka.trans hi) (hkb.trans hj)
  · rw [entered_enter hv]
    rw [mark?_enter] at hw
    split at hw
    next =>
      cases hw
      exact Nat.lt_succ_self _
    next => exact Nat.lt_succ_of_lt (hs.lt_entered w k hw)

/-- What lies above a vertex on the stack. -/
theorem takeWhile_of_stack {new rest : List Nat} (h : s.stack = new ++ v :: rest)
    (hnodup : s.stack.Nodup) :
    s.stack.takeWhile (· != v) = new ∧ (s.stack.dropWhile (· != v)).tail = rest := by
  have hnew : ∀ w ∈ new, (w != v) = true := by
    intro w hw
    rw [h] at hnodup
    rw [bne_iff_ne]
    rintro rfl
    exact (List.nodup_append.1 hnodup).2.2 w hw w List.mem_cons_self rfl
  rw [h, List.takeWhile_append_of_pos hnew, List.dropWhile_append_of_pos hnew]
  simp

theorem mark?_settle {new rest : List Nat} (h : s.stack = new ++ v :: rest)
    (hnodup : s.stack.Nodup) (w : Nat) :
    (s.settle v).mark? w = if w ∈ new ++ [v] then some .settled else s.mark? w := by
  rw [settle, (takeWhile_of_stack h hnodup).1]
  exact getElem?_foldl_settled s.marks (new ++ [v]) w

theorem stack_settle {new rest : List Nat} (h : s.stack = new ++ v :: rest)
    (hnodup : s.stack.Nodup) : (s.settle v).stack = rest :=
  (takeWhile_of_stack h hnodup).2

theorem found_settle {new rest : List Nat} (h : s.stack = new ++ v :: rest)
    (hnodup : s.stack.Nodup) :
    (s.settle v).found =
      if 1 < (new ++ [v]).length then (NodeSet.ofList (new ++ [v])).elements :: s.found
      else s.found := by
  rw [settle, (takeWhile_of_stack h hnodup).1]

theorem entered_le_settle (s : Search) (v : Nat) : s.entered ≤ (s.settle v).entered :=
  size_le_foldl_settled s.marks _

theorem Proper.not_mem_stack (hs : s.Proper g) {c : List Nat} {w : Nat} (hc : c ∈ s.found)
    (hw : w ∈ c) : w ∉ s.stack := by
  intro hmem
  obtain ⟨k, hk⟩ := (hs.mem_stack_iff w).1 hmem
  rw [hs.settled c hc w hw] at hk
  cases hk

/-- The vertices down to `v` may come off the stack if they are connected. -/
theorem Proper.settle {new rest : List Nat} (hs : s.Proper g)
    (h : s.stack = new ++ v :: rest) (hconn : g.StronglyConnected (new ++ [v])) :
    (s.settle v).Proper g := by
  have hnodup := hs.stack_nodup
  have hmark := mark?_settle h hnodup
  have hstack := stack_settle h hnodup
  have hfound := found_settle h hnodup
  have hsplit : s.stack = (new ++ [v]) ++ rest := by simp [h]
  have hdisjoint : ∀ w ∈ rest, w ∉ new ++ [v] := by
    intro w hw hw'
    rw [hsplit] at hnodup
    exact (List.nodup_append.1 hnodup).2.2 w hw' w hw rfl
  have hsettled : ∀ c ∈ s.found, ∀ w ∈ c, w ∉ new ++ [v] := by
    intro c hc w hw hw'
    exact hs.not_mem_stack hc hw (hsplit ▸ List.mem_append_left _ hw')
  have hcons : ∀ c ∈ (s.settle v).found, c ∈ s.found ∨
      1 < (new ++ [v]).length ∧ c = (NodeSet.ofList (new ++ [v])).elements := by
    intro c hc
    rw [hfound] at hc
    split at hc
    next hlen => exact (List.mem_cons.1 hc).elim (fun heq => .inr ⟨hlen, heq⟩) .inl
    next => exact .inl hc
  refine
    { mem_stack_iff := fun w => ?_
      sorted := ?_
      lt_entered := fun w k hw => ?_
      settled := fun c hc w hw => ?_
      connected := fun c hc => ?_
      nodup := ?_ }
  · rw [hstack, hmark]
    by_cases hw : w ∈ new ++ [v]
    · rw [if_pos hw]
      refine iff_of_false (fun hrest => hdisjoint w hrest hw) ?_
      rintro ⟨k, hk⟩
      cases hk
    · rw [if_neg hw, ← hs.mem_stack_iff, hsplit, List.mem_append]
      exact ⟨.inr, fun hor => hor.resolve_left hw⟩
  · rw [hstack]
    have hrest : rest.Pairwise fun v w => ∀ i j,
        s.mark? v = some (.pending i) → s.mark? w = some (.pending j) → j < i :=
      hs.sorted.sublist (hsplit ▸ List.sublist_append_right _ _)
    refine hrest.imp_of_mem fun {a b} ha hb hlt i j hi hj => ?_
    rw [hmark, if_neg (hdisjoint a ha)] at hi
    rw [hmark, if_neg (hdisjoint b hb)] at hj
    exact hlt i j hi hj
  · rw [hmark] at hw
    split at hw
    next => cases hw
    next => exact Nat.lt_of_lt_of_le (hs.lt_entered w k hw) (entered_le_settle s v)
  · rw [hmark]
    rcases hcons c hc with hc | ⟨_, rfl⟩
    · rw [if_neg (hsettled c hc w hw), hs.settled c hc w hw]
    · rw [if_pos (NodeSet.mem_ofList.1 hw)]
  · rcases hcons c hc with hc | ⟨hlen, rfl⟩
    · exact hs.connected c hc
    · refine ⟨?_, fun a ha b hb => hconn a (NodeSet.mem_ofList.1 ha) b (NodeSet.mem_ofList.1 hb)⟩
      have hsub : new ++ [v] ⊆ (NodeSet.ofList (new ++ [v])).elements :=
        fun w hw => NodeSet.mem_ofList.2 hw
      have hnd : (new ++ [v]).Nodup := (List.nodup_append.1 (hsplit ▸ hnodup)).1
      exact Nat.lt_of_lt_of_le hlen (hnd.subperm hsub).length_le
  · rw [hfound]
    split
    next =>
      rw [List.flatten_cons, List.nodup_append]
      refine ⟨(NodeSet.ascending_ofList _).nodup, hs.nodup, fun a ha b hb heq => ?_⟩
      obtain ⟨c, hc, hbc⟩ := List.mem_flatten.1 hb
      exact hsettled c hc b hbc (heq ▸ NodeSet.mem_ofList.1 ha)
    next => exact hs.nodup

end Proper

/-- What a visit of `v` from the search `s` leaves: marks are kept, the vertices
left on the stack are reached from `v` and fall, and `low` is what was met. -/
structure Visited (g : Digraph) (s : Search) (v low : Nat) (s' : Search) : Prop where
  proper : s'.Proper g
  mark?_eq (w : Nat) (m : Mark) : s.mark? w = some m → s'.mark? w = some m
  entered_le : s.entered ≤ s'.entered
  stack : ∃ new, s'.stack = new ++ s.stack ∧ (low = s.entered → new = []) ∧
    ∀ u ∈ new, g.Reach v u ∧ s'.Falls g low u
  meets : s.Meets g s.entered v low

/-- The same in the middle of a visit, when some successors of `v` have been
followed: `v` is on the stack, and only what lies above it has to fall. -/
structure Following (g : Digraph) (s : Search) (v low : Nat) (s' : Search) : Prop where
  proper : s'.Proper g
  mark?_eq (w : Nat) (m : Mark) : s.mark? w = some m → s'.mark? w = some m
  mark?_self : s'.mark? v = some (.pending s.entered)
  entered_lt : s.entered < s'.entered
  stack : ∃ new, s'.stack = new ++ v :: s.stack ∧ ∀ u ∈ new, g.Reach v u ∧ s'.Falls g low u
  meets : s.Meets g s.entered v low

section Visit

variable {g : Digraph} {s s' s'' : Search} {v w low low' : Nat}

theorem Falls.mono (h : s.Falls g low v) (hlow : low' ≤ low)
    (hmark : ∀ w m, s.mark? w = some m → s'.mark? w = some m) : s'.Falls g low' v := by
  obtain ⟨w, i, j, hi, hj, hreach, hlt, hle⟩ := h
  exact ⟨w, i, j, hmark v _ hi, hmark w _ hj, hreach, hlt, Nat.le_trans hlow hle⟩

/-- What lies above `v` has been entered after it. -/
theorem Following.lt_of_mem {new : List Nat} (h : Following g s v low s')
    (hstack : s'.stack = new ++ v :: s.stack) {u k : Nat} (hu : u ∈ new)
    (hk : s'.mark? u = some (.pending k)) : s.entered < k := by
  have hsorted := h.proper.sorted
  rw [hstack] at hsorted
  exact (List.pairwise_append.1 hsorted).2.2 u hu v List.mem_cons_self k s.entered hk h.mark?_self

/-- A vertex with a number below that of `v` was pending before the visit. -/
theorem Following.mark?_of_lt (h : Following g s v low s') (hs : s.Proper g) {k : Nat}
    (hw : s'.mark? w = some (.pending k)) (hk : k < s.entered) :
    s.mark? w = some (.pending k) := by
  obtain ⟨new, hstack, _⟩ := h.stack
  have hmem : w ∈ s'.stack := (h.proper.mem_stack_iff w).2 ⟨k, hw⟩
  rw [hstack, List.mem_append, List.mem_cons] at hmem
  rcases hmem with hnew | rfl | hold
  · exact absurd (h.lt_of_mem hstack hnew hw) (Nat.lt_asymm hk)
  · rw [h.mark?_self] at hw
    cases hw
    exact absurd hk (Nat.lt_irrefl _)
  · obtain ⟨k', hk'⟩ := (hs.mem_stack_iff w).1 hold
    have heq := (h.mark?_eq w _ hk').symm.trans hw
    rw [hk', heq]

/-- What lies above `v` has not been met before the visit. -/
theorem Following.mark?_eq_none_of_mem {new : List Nat} (h : Following g s v low s')
    (hs : s.Proper g) (hstack : s'.stack = new ++ v :: s.stack) {u : Nat} (hu : u ∈ new) :
    s.mark? u = none := by
  cases hm : s.mark? u with
  | none => rfl
  | some m =>
      obtain ⟨k, hk⟩ := (h.proper.mem_stack_iff u).1 (hstack ▸ List.mem_append_left _ hu)
      have heq := (h.mark?_eq u m hm).symm.trans hk
      cases heq
      exact absurd (hs.lt_entered u k hm) (Nat.lt_asymm (h.lt_of_mem hstack hu hk))

/-- A vertex that the visit has entered has no smaller number than `v`. -/
theorem Following.le_of_mark?_eq_none (h : Following g s v low s') (hs : s.Proper g) {u k : Nat}
    (hu : s.mark? u = none) (hk : s'.mark? u = some (.pending k)) : s.entered ≤ k := by
  by_contra hlt
  rw [h.mark?_of_lt hs hk (Nat.lt_of_not_le hlt)] at hu
  cases hu

theorem Following.enter (hs : s.Proper g) (hv : s.mark? v = none) (out : List Nat) :
    Following g s v s.entered (s.enter v out) where
  proper := hs.enter hv out
  mark?_eq w m hw := by
    rw [mark?_enter, if_neg, hw]
    rintro rfl
    rw [hv] at hw
    cases hw
  mark?_self := by rw [mark?_enter, if_pos rfl]
  entered_lt := by
    rw [entered_enter hv]
    exact Nat.lt_succ_self _
  stack := ⟨[], rfl, fun u hu => absurd hu List.not_mem_nil⟩
  meets := .inl rfl

theorem Following.mark?_of_enter (h : Following g s v low s') (out : List Nat) (w : Nat)
    (m : Mark) (hw : (s.enter v out).mark? w = some m) : s'.mark? w = some m := by
  rw [mark?_enter] at hw
  split at hw
  next heq => rw [heq, h.mark?_self, hw]
  next => exact h.mark?_eq w m hw

/-- Following one more successor. -/
theorem Following.follow (h : Following g s v low s') (hs : s.Proper g)
    (hw : w ∈ g.successors v) {descend : Nat → Search → Nat × Search}
    (hdescend : ∀ w s, s.Proper g → s.mark? w = none →
      Visited g s w (descend w s).1 (descend w s).2) :
    Following g s v (s'.follow descend low w).1 (s'.follow descend low w).2 := by
  have hvw : g.Reach v w := .single hw
  cases hmark : s'.mark? w with
  | none =>
      have hsub := hdescend w s' h.proper hmark
      have hfollow : s'.follow descend low w =
          (min low (descend w s').1, (descend w s').2) := by rw [Search.follow, hmark]
      rw [hfollow]
      obtain ⟨new, hstack, hnew⟩ := h.stack
      obtain ⟨more, hstack', _, hmore⟩ := hsub.stack
      refine
        { proper := hsub.proper
          mark?_eq := fun u m hu => hsub.mark?_eq u m (h.mark?_eq u m hu)
          mark?_self := hsub.mark?_eq v _ h.mark?_self
          entered_lt := Nat.lt_of_lt_of_le h.entered_lt hsub.entered_le
          stack := ⟨more ++ new, by rw [hstack', hstack, List.append_assoc], fun u hu => ?_⟩
          meets := ?_ }
      · rcases List.mem_append.1 hu with hu | hu
        · obtain ⟨hreach, hfalls⟩ := hmore u hu
          exact ⟨hvw.trans hreach, hfalls.mono (Nat.min_le_right _ _) fun _ _ => id⟩
        · obtain ⟨hreach, hfalls⟩ := hnew u hu
          exact ⟨hreach, hfalls.mono (Nat.min_le_left _ _) hsub.mark?_eq⟩
      · by_cases hlt : (descend w s').1 < low
        · have hbound : (descend w s').1 < s.entered := Nat.lt_of_lt_of_le hlt h.meets.le
          simp only [Nat.min_eq_right (Nat.le_of_lt hlt)]
          rcases hsub.meets with heq | ⟨_, x, hx, hreach⟩
          · exact absurd h.entered_lt (by omega)
          · exact .inr ⟨hbound, x, h.mark?_of_lt hs hx hbound, hvw.trans hreach⟩
        · simp only [Nat.min_eq_left (Nat.le_of_not_lt hlt)]
          exact h.meets
  | some m =>
      cases m with
      | settled =>
          have hfollow : s'.follow descend low w = (low, s') := by rw [Search.follow, hmark]
          rw [hfollow]
          exact h
      | pending k =>
          have hfollow : s'.follow descend low w = (min low k, s') := by
            rw [Search.follow, hmark]
          rw [hfollow]
          obtain ⟨new, hstack, hnew⟩ := h.stack
          refine
            { h with
              stack := ⟨new, hstack, fun u hu => ⟨(hnew u hu).1,
                (hnew u hu).2.mono (Nat.min_le_left _ _) fun _ _ => id⟩⟩
              meets := ?_ }
          by_cases hlt : k < low
          · have hbound : k < s.entered := Nat.lt_of_lt_of_le hlt h.meets.le
            simp only [Nat.min_eq_right (Nat.le_of_lt hlt)]
            exact .inr ⟨hbound, w, h.mark?_of_lt hs hmark hbound, hvw⟩
          · simp only [Nat.min_eq_left (Nat.le_of_not_lt hlt)]
            exact h.meets

theorem Following.foldl (hs : s.Proper g) {descend : Nat → Search → Nat × Search}
    (hdescend : ∀ w s, s.Proper g → s.mark? w = none →
      Visited g s w (descend w s).1 (descend w s).2)
    {out : List Nat} (hout : ∀ w ∈ out, w ∈ g.successors v) (h : Following g s v low s') :
    Following g s v
      (out.foldl (fun (low, s) w => s.follow descend low w) (low, s')).1
      (out.foldl (fun (low, s) w => s.follow descend low w) (low, s')).2 := by
  induction out generalizing low s' with
  | nil => exact h
  | cons w out ih =>
      exact ih (fun u hu => hout u (List.mem_cons_of_mem w hu))
        (h.follow hs (hout w List.mem_cons_self) hdescend)

/-- If the visit met nothing below `v`, each vertex above `v` reaches `v`. -/
theorem Following.reach_self {new : List Nat} (h : Following g s v s.entered s')
    (hs : s.Proper g) (hstack : s'.stack = new ++ v :: s.stack)
    (hnew : ∀ u ∈ new, s'.Falls g s.entered u) {u k : Nat} (hu : u ∈ new)
    (hk : s'.mark? u = some (.pending k)) : g.Reach u v := by
  induction k using Nat.strongRecOn generalizing u with
  | ind k ih =>
      obtain ⟨w, i, j, hi, hj, hreach, hlt, hle⟩ := hnew u hu
      obtain rfl : i = k := by
        rw [hk] at hi
        cases hi
        rfl
      have hmem : w ∈ s'.stack := (h.proper.mem_stack_iff w).2 ⟨j, hj⟩
      rw [hstack, List.mem_append, List.mem_cons] at hmem
      rcases hmem with hmem | rfl | hmem
      · exact hreach.trans (ih j hlt hmem hj)
      · exact hreach
      · -- below `v` all numbers are smaller than `low`
        obtain ⟨j', hj'⟩ := (hs.mem_stack_iff w).1 hmem
        have heq := (h.mark?_eq w _ hj').symm.trans hj
        cases heq
        exact absurd (hs.lt_entered w j hj') (Nat.not_lt.2 hle)

/-- The end of a visit that met nothing below `v`: its component comes off. -/
theorem Following.settle (h : Following g s v s.entered s') (hs : s.Proper g)
    (hv : s.mark? v = none) : Visited g s v s.entered (s'.settle v) := by
  obtain ⟨new, hstack, hnew⟩ := h.stack
  have hto : ∀ u ∈ new ++ [v], g.Reach u v := by
    intro u hu
    rcases List.mem_append.1 hu with hu | hu
    · obtain ⟨k, hk⟩ := (h.proper.mem_stack_iff u).1 (hstack ▸ List.mem_append_left _ hu)
      exact h.reach_self hs hstack (fun u hu => (hnew u hu).2) hu hk
    · rw [List.mem_singleton.1 hu]
      exact .refl
  have hfrom : ∀ u ∈ new ++ [v], g.Reach v u := by
    intro u hu
    rcases List.mem_append.1 hu with hu | hu
    · exact (hnew u hu).1
    · rw [List.mem_singleton.1 hu]
      exact .refl
  have hfresh : ∀ u ∈ new ++ [v], s.mark? u = none := by
    intro u hu
    rcases List.mem_append.1 hu with hu | hu
    · exact h.mark?_eq_none_of_mem hs hstack hu
    · rw [List.mem_singleton.1 hu]
      exact hv
  refine
    { proper := h.proper.settle hstack fun a ha b hb => (hto a ha).trans (hfrom b hb)
      mark?_eq := fun u m hu => ?_
      entered_le := Nat.le_trans (Nat.le_of_lt h.entered_lt) (entered_le_settle s' v)
      stack := ⟨[], stack_settle hstack h.proper.stack_nodup, fun _ => rfl,
        fun u hu => absurd hu List.not_mem_nil⟩
      meets := .inl rfl }
  rw [mark?_settle hstack h.proper.stack_nodup, if_neg, h.mark?_eq u m hu]
  intro hmem
  rw [hfresh u hmem] at hu
  cases hu

/-- The end of a visit that met a pending vertex below `v`. -/
theorem Following.visited (h : Following g s v low s') (hlow : low ≠ s.entered) :
    Visited g s v low s' := by
  obtain ⟨new, hstack, hnew⟩ := h.stack
  refine
    { proper := h.proper
      mark?_eq := h.mark?_eq
      entered_le := Nat.le_of_lt h.entered_lt
      stack := ⟨new ++ [v], by simp [hstack], fun heq => absurd heq hlow, fun u hu => ?_⟩
      meets := h.meets }
  rcases List.mem_append.1 hu with hu | hu
  · exact hnew u hu
  · rw [List.mem_singleton.1 hu]
    rcases h.meets with heq | ⟨hlt, w, hw, hreach⟩
    · exact absurd heq hlow
    · exact ⟨.refl, w, s.entered, low, h.mark?_self, h.mark?_eq w _ hw, hreach, hlt, Nat.le_refl _⟩

end Visit

end Search

open Search in
theorem visit_visited (g : Digraph) (depth v : Nat) (s : Search) (hs : s.Proper g)
    (hv : s.mark? v = none) : Visited g s v (g.visit depth v s).1 (g.visit depth v s).2 := by
  induction depth generalizing v s with
  | zero =>
      exact
        { proper := hs
          mark?_eq := fun _ _ => id
          entered_le := Nat.le_refl _
          stack := ⟨[], rfl, fun _ => rfl, fun u hu => absurd hu List.not_mem_nil⟩
          meets := .inl rfl }
  | succ depth ih =>
      have hfollow := Following.foldl hs (fun w s hs hw => ih w s hs hw) (fun _ => id)
        (Following.enter hs hv (g.successors v))
      rw [visit]
      dsimp only
      split
      next hlow =>
        rw [hlow] at hfollow ⊢
        exact hfollow.settle hs hv
      next hlow => exact hfollow.visited hlow

theorem proper_search (g : Digraph) (roots : List Nat) : (g.search roots).Proper g := by
  have hroots : ∀ s : Search, s.Proper g → (roots.foldl g.visitRoot s).Proper g := by
    induction roots with
    | nil => exact fun s hs => hs
    | cons v roots ih =>
        intro s hs
        refine ih _ ?_
        rw [visitRoot]
        split
        next => exact hs
        next hv => exact (g.visit_visited g.order v s hs hv).proper
  exact hroots {} (Search.proper_empty g)

/-- The components that a search finds are disjoint, and each is connected. -/
theorem components_connected (g : Digraph) (roots : List Nat) :
    (g.components roots).members.flatten.Nodup ∧ ∀ c ∈ (g.components roots).members,
      1 < c.length ∧ g.StronglyConnected c := by
  have hs := g.proper_search roots
  have hperm : (g.components roots).members.Perm (g.search roots).found := sortBy_perm _ _
  exact ⟨hperm.flatten.nodup_iff.2 hs.nodup, fun c hc => hs.connected c (hperm.mem_iff.1 hc)⟩

/-- A list of two or more distinct vertices holds another one than `a`. -/
theorem exists_ne_of_nodup {c : List Nat} (hnodup : c.Nodup) (hlen : 1 < c.length) (a : Nat) :
    ∃ b ∈ c, a ≠ b := by
  match c with
  | [] => exact absurd hlen (Nat.not_lt_zero 1)
  | [_] => exact absurd hlen (Nat.lt_irrefl 1)
  | x :: y :: rest =>
      have hxy : x ≠ y := fun heq => (List.nodup_cons.1 hnodup).1 (heq ▸ List.mem_cons_self)
      by_cases hx : a = x
      · exact ⟨y, List.mem_cons_of_mem x List.mem_cons_self, hx ▸ hxy⟩
      · exact ⟨x, List.mem_cons_self, hx⟩

/-- An edge leaves every vertex of a component. -/
theorem exists_successor_of_mem_components {g : Digraph} {roots c : List Nat}
    (hc : c ∈ (g.components roots).members) {a : Nat} (ha : a ∈ c) : ∃ b, b ∈ g.successors a := by
  obtain ⟨hnodup, hcomponents⟩ := g.components_connected roots
  obtain ⟨hlen, hconnected⟩ := hcomponents c hc
  obtain ⟨b, hb, hne⟩ := exists_ne_of_nodup ((List.nodup_flatten.1 hnodup).1 c hc) hlen a
  rcases Relation.ReflTransGen.cases_head (hconnected a ha b hb) with heq | ⟨d, hd, _⟩
  · exact absurd heq hne
  · exact ⟨d, hd⟩

theorem mem_successors_ofEdges {edges : List (Nat × Nat)} {a b : Nat} :
    b ∈ (ofEdges edges).successors a ↔ (a, b) ∈ edges := by
  simp [ofEdges]

end Digraph

end PointsTo
