import PointsTo.Proofs.NodeTable.Lookups

/-!
# The layout of objects

Objects are created one after the other, each of them at once or not at all, and no
other call touches a node that is there. So it can be said beside a table which objects
there are: `Placed` lists them in the order of their creation, each by its `Extent`. The
nodes with a layout are the nodes of these objects, and the objects lie one behind the
other (`LaidOut`). What a step of some fields answers follows from that, and so does that
no sum in it leaves 32 bits.
-/

namespace PointsTo

namespace NodeTable

/-- The nodes that the creation of an object takes: so many from the base on. -/
structure Extent where
  base : Nat
  fieldCount : Nat
deriving DecidableEq

def Extent.layout (o : Extent) (i : Nat) : Layout := ⟨o.base, i, o.fieldCount⟩

/-- The object that a call creates, if it does create one. -/
def placed (t : NodeTable) : Call → List Extent
  | .object fieldCount =>
    match createObject fieldCount t with
    | .ok base _ => [⟨base, max fieldCount 1⟩]
    | .error _ _ => []
  | .value | .special _ | .find _ | .representatives | .merge _ _ => []

/-- The tables that come of calls, with the objects that have been created on the way. -/
inductive Placed : List Extent → NodeTable → Prop
  | empty (maxNodes maxMerges : Option Nat) : Placed [] (.withLimits maxNodes maxMerges)
  | applyLimits {os : List Extent} {t : NodeTable} (limits : Limits) :
      Placed os t → Placed os (t.applyLimits limits)
  | call {os : List Extent} {t : NodeTable} (c : Call) :
      Placed os t → c.InRange t → Placed (os ++ t.placed c) (t.after c)

/-- Exactly these objects are in the table, one behind the other. -/
structure LaidOut (os : List Extent) (t : NodeTable) : Prop where
  layout?_iff (n : Nat) (l : Layout) :
    t.layout? n = some l ↔ ∃ o ∈ os, ∃ i < o.fieldCount, n = o.base + i ∧ l = o.layout i
  ordered : os.Pairwise fun o p => o.base + o.fieldCount ≤ p.base
  le_size (o : Extent) : o ∈ os → o.base + o.fieldCount ≤ t.size
  pos (o : Extent) : o ∈ os → 0 < o.fieldCount
  maxFieldCount_le_iff (k : Nat) : t.maxFieldCount ≤ k ↔ ∀ o ∈ os, o.fieldCount ≤ k
  size_le : t.size ≤ maxIndex

/-- A creation of `count` nodes is run on the table: beyond a bound it fails and leaves the
table as it is, and otherwise the nodes come next in the table. -/
structure AllOrNothing (t : NodeTable) (count : Nat) (make : Action NodeTable Nat) : Prop where
  refused :
    (maxIndex < t.size + count ∨ ∃ limit, t.maxNodes = some limit ∧ limit < t.size + count) →
    make t = .error (.capacityExceeded t.nodeLimit) t
  granted : t.size + count ≤ maxIndex →
    (∀ limit, t.maxNodes = some limit → t.size + count ≤ limit) →
    ∃ u, make t = .ok t.size u ∧ u.size = t.size + count

section Layouts

variable {os : List Extent} {t u : NodeTable} {n : Nat} {l : Layout}

theorem Placed.handled (h : Placed os t) : t.Handled := by
  induction h with
  | empty maxNodes maxMerges => exact .empty maxNodes maxMerges
  | applyLimits limits _ ih => exact .applyLimits limits ih
  | call c _ hc ih => exact .call c ih hc

/-- The objects can be told of every table that comes of calls. -/
theorem Handled.exists_placed (h : t.Handled) : ∃ os, Placed os t := by
  induction h with
  | empty maxNodes maxMerges => exact ⟨[], .empty maxNodes maxMerges⟩
  | applyLimits limits _ ih =>
      obtain ⟨os, hos⟩ := ih
      exact ⟨os, .applyLimits limits hos⟩
  | @call t c _ hc ih =>
      obtain ⟨os, hos⟩ := ih
      exact ⟨os ++ t.placed c, .call c hos hc⟩

/-! ## Room for more nodes -/

theorem nodeLimit_lt_iff {count : Nat} :
    t.nodeLimit < t.size + count ↔
      maxIndex < t.size + count ∨ ∃ limit, t.maxNodes = some limit ∧ limit < t.size + count := by
  rw [nodeLimit]
  cases h : t.maxNodes with
  | none => simp
  | some limit =>
      simp only [Option.getD_some, Option.some.injEq, exists_eq_left']
      omega

/-- Whatever is put into a table, there is room for it or nothing happens. -/
theorem allOrNothing_create {count : Nat} {grow : NodeTable → NodeTable}
    (hsize : (grow t).size = t.size + count) : t.AllOrNothing count (create count grow) where
  refused hfull := create_of_full (nodeLimit_lt_iff.2 hfull) grow
  granted hindex hlimit := by
    refine ⟨grow t, create_of_room ?_ grow, hsize⟩
    rw [← Nat.not_lt, nodeLimit_lt_iff]
    rintro (hfull | ⟨limit, hmax, hfull⟩)
    · omega
    · exact absurd (hlimit limit hmax) (by omega)

/-! ## What a call does to the objects -/

theorem laidOut_withLimits (maxNodes maxMerges : Option Nat) :
    LaidOut [] (.withLimits maxNodes maxMerges) where
  layout?_iff n l := by
    refine iff_of_false (fun h => ?_) (by simp)
    exact absurd (lt_size_of_layout? h) (Nat.not_lt_zero n)
  ordered := .nil
  le_size o ho := absurd ho List.not_mem_nil
  pos o ho := absurd ho List.not_mem_nil
  maxFieldCount_le_iff k := by simp [withLimits]
  size_le := Nat.zero_le _

/-- Layouts are a matter of the nodes alone. -/
theorem LaidOut.congr (h : LaidOut os t) (hnodes : u.nodes = t.nodes)
    (hcount : u.maxFieldCount = t.maxFieldCount) : LaidOut os u where
  layout?_iff n l := by rw [layout?_congr hnodes, h.layout?_iff]
  ordered := h.ordered
  le_size o ho := by
    rw [size_congr hnodes]
    exact h.le_size o ho
  pos := h.pos
  maxFieldCount_le_iff k := by rw [hcount, h.maxFieldCount_le_iff]
  size_le := by
    rw [size_congr hnodes]
    exact h.size_le

/-- A node that is no part of an object. -/
theorem LaidOut.append (h : LaidOut os t) {kind : NodeKind} (hkind : ∀ l, kind ≠ .object l)
    (hroom : t.size + 1 ≤ t.nodeLimit) : LaidOut os (t.append kind) where
  layout?_iff n l := by rw [layout?_append t hkind, h.layout?_iff]
  ordered := h.ordered
  le_size o ho := by
    rw [size_append]
    exact Nat.le_succ_of_le (h.le_size o ho)
  pos := h.pos
  maxFieldCount_le_iff := h.maxFieldCount_le_iff
  size_le := by
    rw [size_append]
    exact le_maxIndex_of_room hroom

/-- The fields of a new object are put behind everything that is there. -/
theorem LaidOut.appendObject (h : LaidOut os t) {k : Nat} (hk : 0 < k)
    (hroom : t.size + k ≤ t.nodeLimit) : LaidOut (os ++ [⟨t.size, k⟩]) (t.appendObject k) := by
  have hnodes : (t.appendObject k).nodes = (t.appendFields t.size k 0 k).nodes := rfl
  have hcount : (t.appendObject k).maxFieldCount = max t.maxFieldCount k := rfl
  have hsize := t.size_appendObject k
  refine
    { layout?_iff := fun n l => ?_
      ordered := ?_
      le_size := fun o ho => ?_
      pos := fun o ho => ?_
      maxFieldCount_le_iff := fun bound => ?_
      size_le := hsize ▸ le_maxIndex_of_room hroom }
  · have hnew : (∃ i < k, n = t.size + i ∧ l = ⟨t.size, i, k⟩) ↔
        (t.size ≤ n ∧ n < t.size + k) ∧ l = ⟨t.size, n - t.size, k⟩ := by
      constructor
      · rintro ⟨i, hi, rfl, rfl⟩
        exact ⟨by omega, by rw [Nat.add_sub_cancel_left]⟩
      · rintro ⟨hn, rfl⟩
        exact ⟨n - t.size, by omega, by omega, rfl⟩
    rw [layout?_congr hnodes, t.layout?_appendFields]
    simp only [List.mem_append, List.mem_singleton, or_and_right, exists_or, exists_eq_left]
    rw [← h.layout?_iff]
    simp only [Extent.layout, hnew]
    split
    next hn =>
      have hold : t.layout? n ≠ some l := fun hl => by
        have hlt := lt_size_of_layout? hl
        omega
      simp [hn, hold, eq_comm]
    next hn => simp [hn]
  · refine List.pairwise_append.2 ⟨h.ordered, List.pairwise_singleton _ _, fun o ho p hp => ?_⟩
    obtain rfl := List.mem_singleton.1 hp
    exact h.le_size o ho
  · rw [hsize]
    rcases List.mem_append.1 ho with ho | ho
    · exact Nat.le_add_right_of_le (h.le_size o ho)
    · obtain rfl := List.mem_singleton.1 ho
      exact Nat.le_refl _
  · rcases List.mem_append.1 ho with ho | ho
    · exact h.pos o ho
    · obtain rfl := List.mem_singleton.1 ho
      exact hk
  · rw [hcount, Nat.max_le, h.maxFieldCount_le_iff, List.forall_mem_append,
      List.forall_mem_singleton]

/-- A merge keeps to the classes, whether it is granted or not. -/
theorem after_merge_frame (t : NodeTable) (a b : Nat) :
    (t.after (.merge a b)).nodes = t.nodes ∧
      (t.after (.merge a b)).maxFieldCount = t.maxFieldCount := by
  have hcall : t.after (.merge a b) =
      Action.state (Action.ofStep (·.merge a b)) ((t.halve a).halve b) := rfl
  rw [hcall, Action.state, Action.ofStep]
  cases hmerge : ((t.halve a).halve b).merge a b with
  | error e => exact ⟨rfl, rfl⟩
  | ok result =>
      obtain ⟨rep, u⟩ := result
      rcases merge_eq_ok hmerge with ⟨_, _, rfl⟩ | ⟨_, _, _, hjoin⟩
      · exact ⟨rfl, rfl⟩
      · have hu := congrArg Prod.snd hjoin
        subst hu
        exact ⟨rfl, rfl⟩

/-- A new node that is no part of an object leaves the objects where they are. -/
theorem LaidOut.create (h : LaidOut os t) {kind : NodeKind} (hkind : ∀ l, kind ≠ .object l) :
    LaidOut os (Action.state (create 1 (·.append kind)) t) := by
  rw [state_create]
  split
  next hroom => exact h.append hkind hroom
  next => exact h

theorem LaidOut.createObject (h : LaidOut os t) (fieldCount : Nat) :
    LaidOut (os ++ t.placed (.object fieldCount)) (t.after (.object fieldCount)) := by
  rw [placed, NodeTable.after, Action.state, NodeTable.createObject]
  by_cases hroom : t.size + max fieldCount 1 ≤ t.nodeLimit
  · rw [create_of_room hroom]
    exact h.appendObject (by omega) hroom
  · rw [create_of_full (Nat.lt_of_not_le hroom)]
    dsimp only
    rw [List.append_nil]
    exact h

/-- Every call leaves the objects where they are, and puts the one that it creates behind
them. -/
theorem LaidOut.after (h : LaidOut os t) (c : Call) : LaidOut (os ++ t.placed c) (t.after c) := by
  cases c with
  | value =>
      rw [placed, List.append_nil]
      exact h.create fun l => NodeKind.noConfusion
  | object fieldCount => exact h.createObject fieldCount
  | special kind =>
      rw [placed, List.append_nil]
      exact h.create fun l => NodeKind.noConfusion
  | find n =>
      rw [placed, List.append_nil]
      exact h.congr rfl rfl
  | representatives =>
      rw [placed, List.append_nil]
      exact h.congr rfl rfl
  | merge a b =>
      rw [placed, List.append_nil]
      exact h.congr (t.after_merge_frame a b).1 (t.after_merge_frame a b).2

theorem Placed.laidOut (h : Placed os t) : LaidOut os t := by
  induction h with
  | empty maxNodes maxMerges => exact laidOut_withLimits maxNodes maxMerges
  | applyLimits limits _ ih => exact ih.congr rfl rfl
  | call c _ _ ih => exact ih.after c

/-! ## Steps of some fields -/

theorem field?_eq (t : NodeTable) (n d : Nat) :
    t.field? n d = (t.layout? n).bind (·.field? d) := by
  rw [layout?, Option.bind_assoc]
  rfl

namespace LaidOut

variable {o p : Extent}

theorem layout?_field (h : LaidOut os t) (ho : o ∈ os) {i : Nat} (hi : i < o.fieldCount) :
    t.layout? (o.base + i) = some (o.layout i) :=
  (h.layout?_iff _ _).2 ⟨o, ho, i, hi, rfl, rfl⟩

/-- Objects with a common base are the same. -/
theorem eq_of_base_eq (h : LaidOut os t) (ho : o ∈ os) (hp : p ∈ os) (hbase : o.base = p.base) :
    o = p := by
  have hlayout := h.layout?_field ho (h.pos o ho)
  rw [hbase, h.layout?_field hp (h.pos p hp)] at hlayout
  cases o
  cases p
  simp_all [Extent.layout]

/-- The nodes that take `o` for their object are its nodes. -/
theorem belongs_iff (h : LaidOut os t) (ho : o ∈ os) :
    t.layout? n = some l ∧ l.base = o.base ↔
      ∃ i < o.fieldCount, n = o.base + i ∧ l = o.layout i := by
  constructor
  · rintro ⟨hl, hbase⟩
    obtain ⟨p, hp, i, hi, rfl, rfl⟩ := (h.layout?_iff n l).1 hl
    obtain rfl := h.eq_of_base_eq hp ho hbase
    exact ⟨i, hi, rfl, rfl⟩
  · rintro ⟨i, hi, rfl, rfl⟩
    exact ⟨h.layout?_field ho hi, rfl⟩

/-- A step within an object leads to the node so many fields further on. -/
theorem field?_layout (h : LaidOut os t) (ho : o ∈ os) {i : Nat} (hi : i < o.fieldCount) (d : Nat) :
    t.field? (o.base + i) d = if i + d < o.fieldCount then some (o.base + (i + d)) else none := by
  rw [field?_eq, h.layout?_field ho hi]
  rfl

/-- Nothing in a step of some fields leaves 32 bits. -/
theorem wordField?_eq (h : LaidOut os t) (hl : t.layout? n = some l) (d : Nat) :
    l.wordField? d = t.field? n d := by
  obtain ⟨o, ho, i, hi, rfl, rfl⟩ := (h.layout?_iff n l).1 hl
  have hsize := h.le_size o ho
  have hmax := h.size_le
  rw [h.field?_layout ho hi, Layout.wordField?, Extent.layout]
  dsimp only
  by_cases hin : i + d < o.fieldCount
  · rw [if_neg (by omega), if_pos hin, if_pos hin, Nat.mod_eq_of_lt (by omega)]
  · rw [if_neg hin, if_neg hin, ite_self]

/-- A step that leads somewhere stays within an object. -/
theorem exists_of_field? (h : LaidOut os t) {d m : Nat} (hm : t.field? n d = some m) :
    ∃ o ∈ os, ∃ i, n = o.base + i ∧ i + d < o.fieldCount ∧ m = o.base + (i + d) := by
  have hlayout := hm
  rw [field?_eq, Option.bind_eq_some_iff] at hlayout
  obtain ⟨l, hl, _⟩ := hlayout
  obtain ⟨o, ho, i, hi, rfl, rfl⟩ := (h.layout?_iff n l).1 hl
  rw [h.field?_layout ho hi] at hm
  split at hm
  next hin => exact ⟨o, ho, i, rfl, hin, (Option.some.inj hm).symm⟩
  next => cases hm

theorem lt_size_of_field? (h : LaidOut os t) {d m : Nat} (hm : t.field? n d = some m) :
    m < t.size := by
  obtain ⟨o, ho, i, _, hin, rfl⟩ := h.exists_of_field? hm
  have hle := h.le_size o ho
  omega

/-- Two steps are one. -/
theorem field?_field? (h : LaidOut os t) {d m : Nat} (hm : t.field? n d = some m) (e : Nat) :
    t.field? m e = t.field? n (d + e) := by
  obtain ⟨o, ho, i, rfl, hin, rfl⟩ := h.exists_of_field? hm
  rw [h.field?_layout ho hin, h.field?_layout ho (by omega), Nat.add_assoc]

end LaidOut

/-- However nodes are created and merged, also where creations fail: a node at offset `i` of an
object with `k` fields is `i` behind its base, the `k` nodes from the base on are those of the
object, each with its offset, and no two objects have a node in common. A step of `d` fields
leads from there to the node `i + d` behind the base if the object reaches that far, and
nowhere if it does not; it is the same in words of 32 bits, and two steps are one. A creation
that would pass the bound on nodes, or the last index, leaves the table as it is. The largest
field count on record is that of the largest object. -/
theorem Placed.object_layout {os : List Extent} {t : NodeTable} (h : Placed os t) :
    (t.sets.size = t.size ∧ t.size ≤ maxIndex) ∧
    (∀ n l, t.layout? n = some l →
      l.offset ≤ n ∧ l.base = n - l.offset ∧ ⟨l.base, l.fieldCount⟩ ∈ os) ∧
    (∀ o ∈ os, ∀ n l, t.layout? n = some l ∧ l.base = o.base ↔
      ∃ i < o.fieldCount, n = o.base + i ∧ l = ⟨o.base, i, o.fieldCount⟩) ∧
    (os.Pairwise fun o p => ∀ n, ¬((o.base ≤ n ∧ n < o.base + o.fieldCount) ∧
      (p.base ≤ n ∧ n < p.base + p.fieldCount))) ∧
    (∀ n l, t.layout? n = some l → ∀ d,
      t.field? n d = (if l.offset + d < l.fieldCount then some (l.base + l.offset + d) else none) ∧
      t.field? n d = l.wordField? d) ∧
    (∀ n d, t.layout? n = none → t.field? n d = none) ∧
    (∀ n d m, t.field? n d = some m → m < t.size ∧ ∀ e, t.field? m e = t.field? n (d + e)) ∧
    ((∀ fieldCount, t.AllOrNothing (max fieldCount 1) (createObject fieldCount)) ∧
      t.AllOrNothing 1 createValue ∧ ∀ kind, t.AllOrNothing 1 (createSpecial kind)) ∧
    ∀ k, t.maxFieldCount ≤ k ↔ ∀ o ∈ os, o.fieldCount ≤ k := by
  have hlaid := h.laidOut
  obtain ⟨v, hv, hvt⟩ := h.handled.shortened
  refine ⟨⟨?_, hlaid.size_le⟩, fun n l hl => ?_, fun o ho n l => hlaid.belongs_iff ho,
    hlaid.ordered.imp fun hle n hn => ?_, fun n l hl d => ⟨?_, (hlaid.wordField?_eq hl d).symm⟩,
    fun n d hnone => ?_, fun n d m hm => ⟨?_, hlaid.field?_field? hm⟩,
    ⟨fun _ => allOrNothing_create (t.size_appendObject _),
      allOrNothing_create (t.size_append _), fun _ => allOrNothing_create (t.size_append _)⟩,
    hlaid.maxFieldCount_le_iff⟩
  · obtain ⟨sets, hsets, rfl⟩ := hvt
    exact hsets.size_eq.trans hv.wellFormed.sets_size
  · obtain ⟨o, ho, i, hi, rfl, rfl⟩ := (hlaid.layout?_iff n l).1 hl
    exact ⟨Nat.le_add_left _ _, (Nat.add_sub_cancel _ _).symm, ho⟩
  · omega
  · rw [field?_eq, hl, Nat.add_assoc]
    rfl
  · rw [field?_eq, hnone]
    rfl
  · exact hlaid.lt_size_of_field? hm

end Layouts

/-- Two objects, the second of which was asked for without a field. There is no room for a
third, and the variable before them has been merged with the base of the first. -/
def crowded : NodeTable :=
  [Call.value, .object 3, .object 0, .object 2, .merge 0 1].foldl after (withLimits (some 6) none)

theorem placed_crowded : Placed [⟨1, 3⟩, ⟨4, 1⟩] crowded := by
  have hempty : Placed [] (withLimits (some 6) none) := .empty (some 6) none
  have hobjects := ((hempty.call .value trivial).call (.object 3) trivial).call (.object 0) trivial
  exact (hobjects.call (.object 2) trivial).call (.merge 0 1) ⟨by decide, by decide⟩

theorem object_layout_crowded :
    Placed [⟨1, 3⟩, ⟨4, 1⟩] crowded ∧ crowded.layout? 2 = some ⟨1, 1, 3⟩ ∧
      crowded.field? 2 1 = some 3 ∧ crowded.field? 2 2 = none ∧
      crowded.field? 2 maxIndex = (⟨1, 1, 3⟩ : Layout).wordField? maxIndex ∧
      crowded.field? 3 0 = crowded.field? 2 (1 + 0) ∧
      createObject 2 crowded = .error (.capacityExceeded 6) crowded ∧
      (crowded.maxFieldCount ≤ 3 ∧ ¬crowded.maxFieldCount ≤ 2) := by
  obtain ⟨_, _, hnodes, _, hstep, _, htwo, ⟨hobject, _⟩, hcount⟩ :=
    Placed.object_layout placed_crowded
  have hlayout : crowded.layout? 2 = some ⟨1, 1, 3⟩ :=
    ((hnodes ⟨1, 3⟩ (by decide) 2 ⟨1, 1, 3⟩).2 ⟨1, by decide, rfl, rfl⟩).1
  have hfield : crowded.field? 2 1 = some 3 := (hstep 2 _ hlayout 1).1
  refine ⟨placed_crowded, hlayout, hfield, (hstep 2 _ hlayout 2).1, (hstep 2 _ hlayout _).2,
    (htwo 2 1 3 hfield).2 0, (hobject 2).refused (.inr ⟨6, rfl, by decide +kernel⟩), ?_, ?_⟩
  · exact (hcount 3).2 (by decide)
  · exact fun hle => absurd ((hcount 2).1 hle ⟨1, 3⟩ (by decide)) (by decide)

end NodeTable

end PointsTo
