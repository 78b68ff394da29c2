import PointsTo.Proofs.Run.Building

/-!
# The life of a run

A run turns once. Until then every request to it is granted, and none of them was
to solve it. The request that turns it either solves it, and then it is frozen, or
fails to create a node or to solve it, and then it is aborted; collecting
constraints never fails. `State.Turn` lists what one request can do to the state
of a run, and `Course` what becomes of a whole sequence of requests: from the turn
on the answers are known beforehand, and the run stays as it is.
-/

namespace PointsTo

namespace Run

/-- What a request gives if it is granted. -/
inductive Reply where
  | node (n : Nat)
  | collected
  | graph (g : Graph)
deriving DecidableEq

/-- The answer to a request. -/
def answer (r : Run) : Request → Except AnalysisError Reply
  | .value => (Action.value createValue r).map .node
  | .object fieldCount => (Action.value (createObject fieldCount) r).map .node
  | .special kind => (Action.value (createSpecial kind) r).map .node
  | .constraints cs => (Action.value (addConstraints cs) r).map fun _ => .collected
  | .solve => (Action.value solve r).map .graph

/-- The answers to one request after the other. -/
def answers (r : Run) : List Request → List (Except AnalysisError Reply)
  | [] => []
  | q :: requests => r.answer q :: (r.after q).answers requests

/-- Whether the request can fail although the run is being built. -/
def Request.mayFail : Request → Bool
  | .constraints _ => false
  | .value | .object _ | .special _ | .solve => true

/-- What a frozen run answers. -/
def Request.answerFrozen (o : Outcome) : Request → Except AnalysisError Reply
  | .solve => .ok (.graph o.graph)
  | .value | .object _ | .special _ | .constraints _ => .error .graphFrozen

/-- What a request and its answer make of the state of a run. -/
inductive State.Turn : State → Request → Except AnalysisError Reply → State → Prop
  | collect {t u : NodeTable} {cs ds : List Constraint} {q : Request} {reply : Reply}
      (h : Gathers t cs q u ds) : Turn (.building t cs) q (.ok reply) (.building u ds)
  | freeze {t : NodeTable} {cs : List Constraint} (o : Outcome) :
      Turn (.building t cs) .solve (.ok (.graph o.graph)) (.frozen o)
  | abort {t : NodeTable} {cs : List Constraint} {q : Request} (hq : q.mayFail = true)
      (e : AnalysisError) : Turn (.building t cs) q (.error e) .aborted
  | frozen (o : Outcome) (q : Request) : Turn (.frozen o) q (q.answerFrozen o) (.frozen o)
  | aborted (q : Request) : Turn .aborted q (.error .aborted) .aborted

/-- What has become of a sequence of requests to a run that was being built: the answers
and the state it is left in. -/
inductive Course : List Request → List (Except AnalysisError Reply) → State → Prop
  | building (requests : List Request) (replies : List Reply) (hsolve : .solve ∉ requests)
      (hlength : replies.length = requests.length) (t : NodeTable) (cs : List Constraint) :
      Course requests (replies.map .ok) (.building t cs)
  | frozen (requests : List Request) (replies : List Reply) (hsolve : .solve ∉ requests)
      (hlength : replies.length = requests.length) (o : Outcome) (later : List Request) :
      Course (requests ++ .solve :: later)
        (replies.map .ok ++ .ok (.graph o.graph) :: later.map (·.answerFrozen o)) (.frozen o)
  | aborted (requests : List Request) (replies : List Reply) (hsolve : .solve ∉ requests)
      (hlength : replies.length = requests.length) {q : Request} (hq : q.mayFail = true)
      (e : AnalysisError) (later : List Request) :
      Course (requests ++ q :: later)
        (replies.map .ok ++ .error e :: later.map fun _ => .error .aborted) .aborted

section Lifecycle

variable {r s : Run} {t : NodeTable} {cs : List Constraint} {q : Request} {o : Outcome}

theorem value_create {make : NodeTable → Except AnalysisError (Nat × NodeTable)}
    (h : r.state = .building t cs) :
    Action.value (create make) r = (make t).map Prod.fst := by
  rw [Action.value, create, h]
  dsimp only
  cases make t <;> rfl

theorem value_solve (h : r.state = .building t cs) :
    Action.value solve r =
      match analyze r.config r.schedule t cs r.log with
      | .ok o _ => .ok o.graph
      | .error e _ => .error e := by
  rw [Action.value, solve, h]
  dsimp only
  cases analyze r.config r.schedule t cs r.log <;> rfl

theorem answer_of_frozen (h : r.state = .frozen o) (q : Request) :
    r.answer q = q.answerFrozen o := by
  cases q <;> simp [answer, Request.answerFrozen, Action.value, createValue, createObject,
    createSpecial, create, addConstraints, solve, h, Except.map]

theorem answer_of_aborted (h : r.state = .aborted) (q : Request) :
    r.answer q = .error .aborted := by
  cases q <;> simp [answer, Action.value, createValue, createObject, createSpecial, create,
    addConstraints, solve, h, Except.map]

/-! ## One request -/

theorem State.turn_create {make : NodeTable → Except AnalysisError (Nat × NodeTable)}
    (hr : r.state = .building t cs) (hq : q.mayFail = true)
    (hgathers : ∀ n u, make t = .ok (n, u) → Gathers t cs q u cs) :
    Turn r.state q ((Action.value (create make) r).map .node)
      (Action.state (create make) r).state := by
  rw [value_create hr, state_create hr, hr]
  cases hmake : make t with
  | ok result => exact .collect (hgathers result.1 result.2 hmake)
  | error e => exact .abort hq e

/-- Every request moves a run in one of these ways. -/
theorem turn_after (r : Run) (q : Request) :
    State.Turn r.state q (r.answer q) (r.after q).state := by
  cases hr : r.state with
  | frozen o =>
      rw [answer_of_frozen hr, after_of_frozen hr, hr]
      exact .frozen o q
  | aborted =>
      rw [answer_of_aborted hr, after_of_aborted hr, hr]
      exact .aborted q
  | building t cs =>
      rw [← hr]
      cases q with
      | value => exact State.turn_create hr rfl fun _ _ => .value
      | object fieldCount => exact State.turn_create hr rfl fun _ _ => .object
      | special kind => exact State.turn_create hr rfl fun _ _ => .special
      | constraints ds =>
          rw [after, state_addConstraints hr, answer, Action.value, addConstraints, hr]
          exact .collect (.constraints ds)
      | solve =>
          rw [after, state_solve hr, answer, value_solve hr, hr]
          cases analyze r.config r.schedule t cs r.log with
          | ok o log => exact .freeze o
          | error e log => exact .abort rfl e

/-! ## One request after the other -/

theorem afterAll_of_settled (h : ∀ q, r.after q = r) (requests : List Request) :
    r.afterAll requests = r := by
  induction requests with
  | nil => rfl
  | cons q requests ih => exact (congrArg (afterAll · requests) (h q)).trans ih

theorem answers_of_settled (h : ∀ q, r.after q = r) {reply : Request → Except AnalysisError Reply}
    (hanswer : ∀ q, r.answer q = reply q) (requests : List Request) :
    r.answers requests = requests.map reply := by
  induction requests with
  | nil => rfl
  | cons q requests ih => rw [answers, h q, ih, hanswer q, List.map_cons]

/-- A request that has been granted while the run is being built comes first. -/
theorem Course.cons {requests : List Request} {as : List (Except AnalysisError Reply)}
    {state : State} (h : Course requests as state) (hq : q ≠ .solve) (reply : Reply) :
    Course (q :: requests) (.ok reply :: as) state := by
  have hnotin : ∀ {qs : List Request}, .solve ∉ qs → .solve ∉ q :: qs := fun hqs hmem =>
    (List.mem_cons.1 hmem).elim (fun heq => hq heq.symm) hqs
  cases h with
  | building requests replies hsolve hlength t cs =>
      exact .building (q :: requests) (reply :: replies) (hnotin hsolve)
        (congrArg (· + 1) hlength) t cs
  | frozen requests replies hsolve hlength o later =>
      exact .frozen (q :: requests) (reply :: replies) (hnotin hsolve)
        (congrArg (· + 1) hlength) o later
  | aborted requests replies hsolve hlength hfail e later =>
      exact .aborted (q :: requests) (reply :: replies) (hnotin hsolve)
        (congrArg (· + 1) hlength) hfail e later

theorem course_of_building (hr : r.state = .building t cs) (requests : List Request) :
    Course requests (r.answers requests) (r.afterAll requests).state := by
  induction requests generalizing r t cs with
  | nil =>
      rw [afterAll, List.foldl_nil, hr]
      exact .building [] [] List.not_mem_nil rfl t cs
  | cons q requests ih =>
      have hturn := r.turn_after q
      have hstate : (r.afterAll (q :: requests)) = (r.after q).afterAll requests := rfl
      rw [hr] at hturn
      rw [answers, hstate]
      generalize ha : r.answer q = a at hturn
      generalize hs : (r.after q).state = state at hturn
      cases hturn with
      | collect hgathers =>
          refine (ih hs).cons (fun hq => ?_) _
          rw [hq] at hgathers
          cases hgathers
      | freeze o =>
          have hsettled := after_of_frozen hs
          rw [afterAll_of_settled hsettled, answers_of_settled hsettled (answer_of_frozen hs), hs]
          exact .frozen [] [] List.not_mem_nil rfl o requests
      | abort hq e =>
          have hsettled := after_of_aborted hs
          rw [afterAll_of_settled hsettled, answers_of_settled hsettled (answer_of_aborted hs), hs]
          exact .aborted [] [] List.not_mem_nil rfl hq e requests

/-! ## What a run shows of itself -/

theorem graph?_of_frozen (h : r.state = .frozen o) : r.graph? = some o.graph := by
  rw [graph?, outcome?, h]
  rfl

theorem exists_graph?_iff : (∃ g, r.graph? = some g) ↔ ∃ o, r.state = .frozen o := by
  refine ⟨fun ⟨g, hg⟩ => ?_, fun ⟨o, ho⟩ => ⟨o.graph, graph?_of_frozen ho⟩⟩
  cases hr : r.state with
  | frozen o => exact ⟨o, rfl⟩
  | building t cs =>
      rw [graph?, outcome?, hr] at hg
      cases hg
  | aborted =>
      rw [graph?, outcome?, hr] at hg
      cases hg

/-- From the first request on a run takes one of the three courses, and each request moves
it as `State.Turn` says. There is a graph just when the run is frozen; then the run keeps
its outcome whatever is requested. An aborted run has nothing to give. -/
theorem lifecycle {c : Config} (hr : new c = .ok r) (choices : Choices)
    (requests : List Request) (hs : afterAll { r with choices } requests = s) :
    Course requests (answers { r with choices } requests) s.state ∧
    (∀ q, s.state.Turn q (s.answer q) (s.after q).state) ∧
    ((∃ g, s.graph? = some g) ↔ ∃ o, s.state = .frozen o) ∧
    (∀ o, s.state = .frozen o →
      (s.graph? = some o.graph ∧ s.outcome? = some o ∧ s.takeOutcome = .ok o) ∧
        ∀ later, afterAll { r with choices } (requests ++ later) = s) ∧
    (s.state = .aborted →
      (s.graph? = none ∧ s.outcome? = none ∧ s.takeOutcome = .error .aborted) ∧
        ∀ later, afterAll { r with choices } (requests ++ later) = s) := by
  obtain ⟨_, rfl⟩ := new_eq_ok_iff.1 hr
  subst hs
  have hlater : ∀ later, afterAll { ofConfig c with choices } (requests ++ later) =
      (afterAll { ofConfig c with choices } requests).afterAll later := fun later =>
    List.foldl_append
  refine ⟨course_of_building rfl requests, turn_after _, exists_graph?_iff, fun o ho => ?_,
    fun haborted => ?_⟩
  · refine ⟨⟨graph?_of_frozen ho, by rw [outcome?, ho], by rw [takeOutcome, ho]⟩, fun later => ?_⟩
    rw [hlater, afterAll_of_settled (after_of_frozen ho)]
  · have hnone : outcome? (afterAll { ofConfig c with choices } requests) = none := by
      rw [outcome?, haborted]
    refine ⟨⟨by rw [graph?, hnone]; rfl, hnone, by rw [takeOutcome, haborted]⟩, fun later => ?_⟩
    rw [hlater, afterAll_of_settled (after_of_aborted haborted)]

/-- The sample run is frozen by its first request to be solved. If it may have one node
only, the second node aborts it. -/
theorem lifecycle_redundant :
    (∃ o, ((ofPreset .balanced).afterAll (Request.redundant ++ [.solve])).state = .frozen o ∧
      ((ofPreset .balanced).afterAll (Request.redundant ++ [.solve])).graph? = some o.graph ∧
      ∀ later, (ofPreset .balanced).afterAll (Request.redundant ++ [.solve] ++ later) =
        (ofPreset .balanced).afterAll (Request.redundant ++ [.solve])) ∧
    (ofConfig ((Preset.config .balanced).set (.maxNodes (some 1)))).answers
        [.value, .value, .solve] =
      [.ok (.node 0), .error (.capacityExceeded 1), .error .aborted] ∧
    ((ofConfig ((Preset.config .balanced).set (.maxNodes (some 1)))).afterAll
        [.value, .value, .solve]).graph? = none := by
  obtain ⟨o, ho⟩ : ∃ o, ((ofPreset .balanced).afterAll (Request.redundant ++ [.solve])).state =
      .frozen o := exists_graph?_iff.1 (Option.isSome_iff_exists.1 (by decide +kernel))
  have hlife := lifecycle (new_eq_ok_iff.2 ⟨rfl, rfl⟩) {}
    (Request.redundant ++ [.solve]) (s := (ofPreset .balanced).afterAll _) rfl
  have hfrozen := hlife.2.2.2.1 o ho
  have hsmall := lifecycle (c := (Preset.config .balanced).set (.maxNodes (some 1)))
    (new_eq_ok_iff.2 ⟨rfl, rfl⟩) {} [.value, .value, .solve] rfl
  exact ⟨⟨o, ho, hfrozen.1.1, hfrozen.2⟩, by decide +kernel, (hsmall.2.2.2.2 rfl).1.1⟩

end Lifecycle

end Run

end PointsTo
