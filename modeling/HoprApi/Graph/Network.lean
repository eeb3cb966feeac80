import HoprApi.Graph.Health
import HoprApi.Lib.LastWrite

/-!
# Verdicts recorded in a graph

The owner of a graph records in it how usable the nodes are as relayers, one at a time or several at
once, and pushes the face value of a ticket whenever it changes.  The graph is a parameter:
`LawfulGraph` is what `graph/traits.rs` documents of these updates.  After any history of them a
route is worth what it was worth before any verdict, times the last verdicts on its relayers, and
it is rejected exactly while one of these is `0` (`last_verdict_decides`).
-/

namespace HoprApi.Graph

open HoprApi.Rust HoprApi.Lib EdgeObservableRead

/-! ### The graph -/

/-- The part of `NetworkGraphView` that the value of a route depends on. -/
class NetworkGraphView (G : Type) (Node W : outParam Type) where
  ticketFaceValue : G → Option Balance
  edge : G → Node → Node → Option W

/-- The updates of `NetworkGraphUpdate` on health and price, as the graph they leave. -/
class NetworkGraphUpdate (G : Type) (Node : outParam Type) where
  setTicketFaceValue : G → Balance → G
  recordNodeHealth : G → Node → F64 → G := fun graph _ _ => graph
  recordNodesHealth : G → List (Node × F64) → G := fun graph healths =>
    healths.foldl (fun graph entry => recordNodeHealth graph entry.1 entry.2) graph

open NetworkGraphView NetworkGraphUpdate

/-- The two observations differ in health at most, which is `health?` in the second if that is
known. -/
structure Judged {W Imm Inter : Type} [ImmediateMeasurement Imm] [IntermediateMeasurement Inter]
    [EdgeObservableRead W Imm Inter] (health? : Option F64) (o o' : W) : Prop where
  same : EqExceptHealth o o'
  health : EdgeObservableRead.health o' = health?.or (EdgeObservableRead.health o)

/-- What is documented of the updates: every edge into a node reports the health recorded for it,
no edge stores the face value, and several healths at once are the same as one after the other. -/
class LawfulGraph (G : Type) (Node W Imm Inter : outParam Type) [DecidableEq Node]
    [ImmediateMeasurement Imm] [IntermediateMeasurement Inter] [EdgeObservableRead W Imm Inter]
    [NetworkGraphView G Node W] [NetworkGraphUpdate G Node] : Prop where
  ticketFaceValue_set : ∀ (graph : G) (value : Balance),
    ticketFaceValue (setTicketFaceValue graph value) = some value
  edge_set : ∀ (graph : G) (value : Balance) (src dest : Node),
    edge (setTicketFaceValue graph value) src dest = edge graph src dest
  ticketFaceValue_record : ∀ (graph : G) (node : Node) (health : F64),
    ticketFaceValue (recordNodeHealth graph node health) = ticketFaceValue graph
  edge_record : ∀ (graph : G) (node : Node) (health : F64) (src dest : Node),
    Option.Rel (Judged (if dest = node then some health else none)) (edge graph src dest)
      (edge (recordNodeHealth graph node health) src dest)
  recordNodesHealth_eq : ∀ (graph : G) (healths : List (Node × F64)),
    recordNodesHealth graph healths =
      healths.foldl (fun graph entry => recordNodeHealth graph entry.1 entry.2) graph

variable {t : Target} {G Node W Imm Inter : Type} [DecidableEq Node] [ImmediateMeasurement Imm]
  [IntermediateMeasurement Inter] [EdgeObservableRead W Imm Inter] [NetworkGraphView G Node W]
  [NetworkGraphUpdate G Node]

/-- The observations along a route; `none` where an edge does not exist. -/
def routeEdges (graph : G) : List Node → Option (List W)
  | src :: dest :: nodes => do
    let observation ← edge graph src dest
    let path ← routeEdges graph (dest :: nodes)
    return observation :: path
  | _ => some []

/-! ### Histories of updates -/

inductive GraphUpdate (Node : Type) where
  | setTicketFaceValue (ticketFaceValue : Balance)
  | recordNodeHealth (node : Node) (health : F64)
  | recordNodesHealth (healths : List (Node × F64))

def GraphUpdate.apply (graph : G) : GraphUpdate Node → G
  | .setTicketFaceValue value => NetworkGraphUpdate.setTicketFaceValue graph value
  | .recordNodeHealth node health => NetworkGraphUpdate.recordNodeHealth graph node health
  | .recordNodesHealth healths => NetworkGraphUpdate.recordNodesHealth graph healths

def runUpdates (graph : G) (history : List (GraphUpdate Node)) : G :=
  history.foldl GraphUpdate.apply graph

/-- The face value that an update pushes. -/
def GraphUpdate.faceValue? : GraphUpdate Node → Option Balance
  | .setTicketFaceValue value => some value
  | _ => none

/-- The health that a pair of a batch records for the node. -/
def entryHealth? (node : Node) (entry : Node × F64) : Option F64 :=
  if node = entry.1 then some entry.2 else none

def GraphUpdate.health? (node : Node) : GraphUpdate Node → Option F64
  | .setTicketFaceValue _ => none
  | .recordNodeHealth node' health => entryHealth? node (node', health)
  | .recordNodesHealth healths => lastWrite (entryHealth? node) healths

/-- The last judged health that a history records for the node; a NaN is no verdict. -/
def lastVerdict (history : List (GraphUpdate Node)) (node : Node) : Option ℚ :=
  (lastWrite (GraphUpdate.health? node) history).bind F64.notNan?

def lastFaceValue (graph : G) (history : List (GraphUpdate Node)) : Option Balance :=
  (lastWrite GraphUpdate.faceValue? history).or (ticketFaceValue graph)

/-! ### What a history does to an edge -/

section Judged

theorem Judged.refl (o : W) : Judged none o o := ⟨⟨rfl, rfl, rfl⟩, rfl⟩

theorem Judged.trans {h h' : Option F64} {o o' o'' : W} (hfst : Judged h o o')
    (hsnd : Judged h' o' o'') : Judged (h'.or h) o o'' where
  same := ⟨hfst.same.immediate.trans hsnd.same.immediate,
    hfst.same.intermediate.trans hsnd.same.intermediate, hfst.same.score.trans hsnd.same.score⟩
  health := by rw [hsnd.health, hfst.health, Option.or_assoc]

theorem rel_judged_refl (x : Option W) : Option.Rel (Judged none) x x := by
  rcases x with _ | o
  · exact .none
  · exact .some (Judged.refl o)

theorem rel_judged_trans {h h' : Option F64} {x y z : Option W} (hfst : Option.Rel (Judged h) x y)
    (hsnd : Option.Rel (Judged h') y z) : Option.Rel (Judged (h'.or h)) x z := by
  cases hfst with
  | none =>
    cases hsnd
    exact .none
  | some hfst =>
    cases hsnd with
    | some hsnd => exact .some (hfst.trans hsnd)

/-- The verdict on an edge that had none is the one recorded. -/
theorem Judged.verdict_eq {h : Option F64} {o o' : W} (hj : Judged h o o')
    (hunjudged : verdict o = none) : verdict o' = h.bind F64.notNan? := by
  unfold verdict at hunjudged ⊢
  rw [hj.health]
  rcases h with _ | q
  · exact hunjudged
  · rfl

end Judged

/-! ### What a history does to a graph -/

section Lawful

variable [lawful : LawfulGraph G Node W Imm Inter] (graph : G) (history : List (GraphUpdate Node))
include lawful

theorem edge_recordNodesHealth (healths : List (Node × F64)) (src dest : Node) :
    Option.Rel (Judged (lastWrite (entryHealth? dest) healths)) (edge graph src dest)
      (edge (recordNodesHealth graph healths) src dest) := by
  rw [lawful.recordNodesHealth_eq]
  refine foldl_rel (R := fun h g g' => Option.Rel (Judged h) (edge g src dest) (edge g' src dest))
    (fun g => rel_judged_refl _) (fun h g g' entry hR => ?_) graph healths
  exact rel_judged_trans hR (lawful.edge_record g' entry.1 entry.2 src dest)

theorem edge_apply (update : GraphUpdate Node) (src dest : Node) :
    Option.Rel (Judged (update.health? dest)) (edge graph src dest)
      (edge (update.apply graph) src dest) := by
  rcases update with value | ⟨node, health⟩ | healths
  · show Option.Rel _ _ (edge (setTicketFaceValue graph value) src dest)
    rw [lawful.edge_set]
    exact rel_judged_refl _
  · exact lawful.edge_record graph node health src dest
  · exact edge_recordNodesHealth graph healths src dest

/-- **An edge reports the last health recorded for its destination**, and nothing else of it
changes. -/
theorem edge_runUpdates (src dest : Node) :
    Option.Rel (Judged (lastWrite (GraphUpdate.health? dest) history)) (edge graph src dest)
      (edge (runUpdates graph history) src dest) :=
  foldl_rel (R := fun h g g' => Option.Rel (Judged h) (edge g src dest) (edge g' src dest))
    (fun _ => rel_judged_refl _) (fun _ _ g' update hR =>
      rel_judged_trans hR (edge_apply g' update src dest)) graph history

theorem ticketFaceValue_apply (update : GraphUpdate Node) :
    ticketFaceValue (update.apply graph) = update.faceValue?.or (ticketFaceValue graph) := by
  rcases update with value | ⟨node, health⟩ | healths
  · exact lawful.ticketFaceValue_set graph value
  · exact lawful.ticketFaceValue_record graph node health
  · show ticketFaceValue (recordNodesHealth graph healths) = ticketFaceValue graph
    rw [lawful.recordNodesHealth_eq]
    induction healths generalizing graph with
    | nil => rfl
    | cons entry healths ih => rw [List.foldl_cons, ih, lawful.ticketFaceValue_record]

theorem ticketFaceValue_runUpdates :
    ticketFaceValue (runUpdates graph history) = lastFaceValue graph history :=
  foldl_rel (R := fun v g g' => ticketFaceValue g' = v.or (ticketFaceValue g)) (fun _ => rfl)
    (fun v g g' update hR => by rw [ticketFaceValue_apply, hR, Option.or_assoc]) graph history

/-- The edges of an unjudged route after a history: the same up to health, which is the last
verdict on the node that each edge leads into. -/
theorem routeEdges_runUpdates {nodes : List Node} {path : List W}
    (hroute : routeEdges graph nodes = some path) (hunjudged : ∀ o ∈ path, verdict o = none) :
    ∃ path', routeEdges (runUpdates graph history) nodes = some path' ∧
      List.Forall₂ EqExceptHealth path path' ∧
      path'.map verdict = nodes.tail.map (lastVerdict history) := by
  induction nodes generalizing path with
  | nil =>
    cases hroute
    exact ⟨[], rfl, .nil, rfl⟩
  | cons src nodes ih =>
    rcases nodes with _ | ⟨dest, nodes⟩
    · cases hroute
      exact ⟨[], rfl, .nil, rfl⟩
    · simp only [routeEdges, Option.bind_eq_bind, Option.bind_eq_some_iff] at hroute
      obtain ⟨o, ho, rest, hrest, hpath⟩ := hroute
      cases hpath
      obtain ⟨path', hpath', hsame, hverdicts⟩ := ih hrest fun o' ho' =>
        hunjudged o' (List.mem_cons_of_mem _ ho')
      have hedge := edge_runUpdates graph history src dest
      rw [ho] at hedge
      rcases hafter : edge (runUpdates graph history) src dest with _ | o'
      · rw [hafter] at hedge
        cases hedge
      · rw [hafter] at hedge
        cases hedge with
        | some hj =>
          refine ⟨o' :: path', ?_, .cons hj.same hsame, ?_⟩
          · simp only [routeEdges, hafter, hpath']
            rfl
          · rw [List.map_cons, hverdicts, hj.verdict_eq (hunjudged o List.mem_cons_self)]
            rfl

end Lawful

/-! ### Routes -/

section Routes

variable (d : Direction) (n : NonZeroUsize t)

/-- The nodes of a route that are valued as relayers: those that an edge into a relayer leads
into. -/
def routeRelayers (nodes : List Node) : List Node := relayerEdges d n nodes.tail

theorem map_relayerEdges {α β : Type} (f : α → β) (es : List α) :
    (relayerEdges d n es).map f = relayerEdges d n (es.map f) := by
  unfold relayerEdges
  rw [List.zipIdx_map, List.filter_map, List.map_map, List.map_map]
  rfl

variable (penalty minAckRate : ℚ)

/-- **The last verdict decides.** -/
theorem last_verdict_decides [LawfulGraph G Node W Imm Inter] (graph : G) (nodes : List Node)
    (path : List W) (hroute : routeEdges graph nodes = some path)
    (hunjudged : ∀ o ∈ path, verdict o = none) (history : List (GraphUpdate Node)) :
    let graph' := runUpdates graph history
    let before : EdgeValueFn t ℚ W := d.build n penalty minAckRate (lastFaceValue graph history)
    let after : EdgeValueFn t ℚ W := d.build n penalty minAckRate (ticketFaceValue graph')
    ∃ path', routeEdges graph' nodes = some path' ∧
      (after.Accepts path' ↔ before.Accepts path ∧
        ∀ node ∈ routeRelayers d n nodes, ∀ q, lastVerdict history node = some q → 0 < q) ∧
      (after.Accepts path' → ∀ value, before.fold 1 path = some value →
        after.fold 1 path' = some (value *
          ((routeRelayers d n nodes).map fun node =>
            min 1 ((lastVerdict history node).getD 1)).prod)) := by
  intro graph' before after
  obtain ⟨path', hpath', hsame, hverdicts⟩ :=
    routeEdges_runUpdates graph history hroute hunjudged
  have hfns : after = before := by
    show d.build n penalty minAckRate _ = d.build n penalty minAckRate _
    rw [ticketFaceValue_runUpdates]
  have hrelayers : (relayerEdges d n path').map verdict =
      (routeRelayers d n nodes).map (lastVerdict history) := by
    rw [routeRelayers, map_relayerEdges, map_relayerEdges, hverdicts]
  have husable : (∀ o ∈ relayerEdges d n path', HealthUsable o) ↔
      ∀ node ∈ routeRelayers d n nodes, ∀ q, lastVerdict history node = some q → 0 < q := by
    have hiff : (∀ v ∈ (relayerEdges d n path').map verdict, ∀ q, v = some q → 0 < q) ↔
        ∀ v ∈ (routeRelayers d n nodes).map (lastVerdict history), ∀ q, v = some q → 0 < q := by
      rw [hrelayers]
    simp only [List.forall_mem_map] at hiff
    exact hiff
  have hhealth : relayerHealth d n path' = ((routeRelayers d n nodes).map fun node =>
      min 1 ((lastVerdict history node).getD 1)).prod := by
    have hmap := congrArg (fun l => (l.map fun v : Option ℚ => min 1 (v.getD 1)).prod) hrelayers
    simp only [List.map_map] at hmap
    exact hmap
  rw [hfns]
  have hiff := accepts_judged_iff d n penalty minAckRate (lastFaceValue graph history) hsame
    hunjudged
  refine ⟨path', hpath', hiff.trans (and_congr_right' husable), fun hacc value hvalue => ?_⟩
  obtain ⟨hbefore, hrelayers'⟩ := hiff.1 hacc
  rw [← hhealth]
  exact fold_judged d n penalty minAckRate _ hsame hunjudged hbefore hrelayers' hvalue

end Routes

/-! ### A graph in memory -/

/-- The edges as a table, with the face value beside it. -/
structure StubGraph (Node : Type) where
  faceValue : Option Balance
  edges : Node → Node → Option Observations

instance : NetworkGraphView (StubGraph Node) Node Observations where
  ticketFaceValue := StubGraph.faceValue
  edge := StubGraph.edges

instance : NetworkGraphUpdate (StubGraph Node) Node where
  setTicketFaceValue graph value := { graph with faceValue := some value }
  recordNodeHealth graph node health :=
    { graph with
      edges := fun src dest => (graph.edges src dest).map fun o =>
        if dest = node then { o with health := some health } else o }

instance : LawfulGraph (StubGraph Node) Node Observations StubImmediate StubIntermediate where
  ticketFaceValue_set _ _ := rfl
  edge_set _ _ _ _ := rfl
  ticketFaceValue_record _ _ _ := rfl
  edge_record graph node health src dest := by
    show Option.Rel _ (graph.edges src dest) ((graph.edges src dest).map _)
    rcases graph.edges src dest with _ | o
    · exact .none
    · refine .some ?_
      split
      · exact ⟨⟨rfl, rfl, rfl⟩, rfl⟩
      · exact ⟨⟨rfl, rfl, rfl⟩, rfl⟩
  recordNodesHealth_eq _ _ := rfl

def healthyGraph : StubGraph ℕ := ⟨none, fun _ _ => some healthy⟩

/-- A relayer rejected together with the endpoint, and then judged again. -/
def lifted : List (GraphUpdate ℕ) :=
  [.recordNodesHealth [(1, .rat 0), (2, .rat 0)], .recordNodeHealth 1 (.rat (1 / 2))]

/-- The route is open again, at half its value. -/
theorem last_verdict_decides_lifted : ∃ path', routeEdges (runUpdates healthyGraph lifted)
    [0, 1, 2] = some path' ∧
    (Direction.forward.build (.wide 2 (by decide)) (1 / 2) (1 / 10) none).fold 1 path' =
      some (3249 / 4000 * (1 / 2)) := by
  obtain ⟨path', hpath', hiff, hvalue⟩ := last_verdict_decides .forward (.wide 2 (by decide))
    (1 / 2) (1 / 10) healthyGraph [0, 1, 2] [healthy, healthy] rfl
    (by
      intro o ho
      obtain rfl : o = healthy := by simpa using ho
      rfl) lifted
  have hrelayers : routeRelayers .forward (.wide 2 (by decide)) [0, 1, 2] = [1] := rfl
  have hlast : lastVerdict lifted 1 = some (1 / 2) := rfl
  rw [hrelayers, List.map_singleton, List.prod_singleton, hlast] at hvalue
  have hacc := hiff.2 ⟨Fold.accepted_iff_prune.2 ⟨by decide, 3249 / 4000, by decide +kernel⟩, by
    rw [hrelayers]
    intro node hnode q hq
    rw [List.mem_singleton.1 hnode, hlast] at hq
    cases hq
    norm_num⟩
  refine ⟨path', hpath', (hvalue hacc (3249 / 4000) (by decide +kernel)).trans ?_⟩
  norm_num

end HoprApi.Graph
