import HoprApi.Graph.Traits

/-!
# The edge value functions

`graph/function.rs`: the helpers, the three closures `edge_value` and the constructors `forward`,
`returning` and `forward_without_self_loopback`.  A closure is evaluated in `Option`: `none` is an
overflow of its `usize` arithmetic, everything else returns a value.

A let chain `if let Some(x) = e && p(x)` of the source is a match on `e.filter p`.
-/

namespace HoprApi.Graph

open HoprApi.Rust EdgeObservableRead EdgeNetworkObservableRead EdgeProtocolObservable
  EdgeImmediateProtocolObservable

variable {t : Target} {W Imm Inter : Type} [ImmediateMeasurement Imm]
  [IntermediateMeasurement Inter] [EdgeObservableRead W Imm Inter]

/-! ### The helpers -/

/-- Floor applied to a measured-dead stream; strictly positive, so that the edge is not pruned. -/
def measuredDeadFloor : ℚ := 1 / 10 ^ 9

def defaultTicketFaceValue : Balance := U256.one

/-- Scales `cost` by the score, or by `penalty` where unobserved, floored in both cases. -/
def scoreOrPenalize (cost : ℚ) (score : Option ℚ) (penalty : ℚ) : ℚ :=
  let multiplier := match score with
    | none => penalty
    | some score => score
  cost * max multiplier measuredDeadFloor

/-- Scales the value of an edge into a relayer by its health. -/
def scaleByHealth (value : ℚ) (health : Option F64) : ℚ :=
  -- the first arm `_ if value <= 0.0` is tried whatever the health is
  if value ≤ 0 then value
  else match health.bind F64.notNan? with
    | some health => if health ≤ 0 then -value else value * min health 1
    | none => value

def applyAckRate (ackRate : Option ℚ) (cost minAckRate penalty : ℚ) : ℚ :=
  match ackRate with
  | some rate => if rate < minAckRate then -cost else cost * rate
  | none => cost * penalty

/-- Whether a channel's balance can fund the ticket that an edge at this position must issue. -/
def balanceSuffices (balance : Option Balance) (remainingHops : Usize t)
    (ticketFaceValue : Balance) : Bool :=
  if remainingHops = Usize.zero t then true
  else if ticketFaceValue = 0 then balance.isSome
  else balance.any fun balance =>
    (U256.checkedMul (U256.fromU64 remainingHops.asU64) ticketFaceValue).any fun required =>
      decide (balance ≥ required)

/-- Rejects the edge unless its channel can fund this hop. -/
def requireFunding (observation : W) (cost penalty : ℚ) (remainingHops : Usize t)
    (ticketFaceValue : Balance) : ℚ :=
  match (intermediateQos observation).filter fun intermediate =>
      balanceSuffices (balance intermediate) remainingHops ticketFaceValue with
  | some intermediate => scoreOrPenalize cost (EdgeLinkObservable.score intermediate) penalty
  | none => -cost

/-- `immediate.is_connected() != Some(false)`. -/
def notDisconnected (immediate : Imm) : Bool := isConnected immediate != some false

/-! ### Configuration -/

/-- What the three constructors resolve from their arguments before any edge is valued. -/
structure Config where
  penalty : ℚ
  minAckRate : ℚ
  ticketFaceValue : Balance
  penalty_mem : 0 ≤ penalty ∧ penalty ≤ 1
  minAckRate_mem : 0 ≤ minAckRate ∧ minAckRate ≤ 1

def Config.resolve (penalty minAckRate : ℚ) (ticketFaceValue : Option Balance) : Config where
  penalty := clamp penalty 0 1
  minAckRate := clamp minAckRate 0 1
  ticketFaceValue := ticketFaceValue.getD defaultTicketFaceValue
  penalty_mem := ⟨le_clamp _ zero_le_one, clamp_le _ zero_le_one⟩
  minAckRate_mem := ⟨le_clamp _ zero_le_one, clamp_le _ zero_le_one⟩

/-! ### The arms of the closures -/

/-- The arm for a connected peer whose channel can fund the rest of the path, which `forward` and
`forward_without_self_loopback` share. -/
def firstEdge (cfg : Config) (remainingHops : Usize t) (cost : ℚ) (observation : W) : ℚ :=
  match (immediateQos observation).filter notDisconnected,
      (intermediateQos observation).filter fun intermediate =>
        balanceSuffices (balance intermediate) remainingHops cfg.ticketFaceValue with
  | some immediate, some _ =>
    let base := scoreOrPenalize cost (score observation) cfg.penalty
    applyAckRate (ackRate immediate) base cfg.minAckRate cfg.penalty
  | _, _ => -cost

/-- The last arm of `forward`: the final hop is not monetized, the balance only selects which
stream to score by. -/
def forwardLastEdge (cfg : Config) (length : Usize t) (cost : ℚ) (observation : W) : ℚ :=
  match (intermediateQos observation).filter fun intermediate => (balance intermediate).isSome with
  | some intermediate =>
    let base := scoreOrPenalize cost (EdgeLinkObservable.score intermediate) cfg.penalty
    if length = Usize.one t then
      match immediateQos observation with
      | some immediate => applyAckRate (ackRate immediate) base cfg.minAckRate cfg.penalty
      | none => base
    else base
  | none =>
    match (immediateQos observation).filter notDisconnected with
    | some immediate =>
      let base := scoreOrPenalize cost (EdgeLinkObservable.score immediate) cfg.penalty
      if length = Usize.one t then
        applyAckRate (ackRate immediate) base cfg.minAckRate cfg.penalty
      else base
    | none => cost * cfg.penalty

def returningLastEdge (cfg : Config) (cost : ℚ) (observation : W) : ℚ :=
  match (immediateQos observation).filter notDisconnected with
  | some immediate =>
    let base := scoreOrPenalize cost (EdgeLinkObservable.score immediate) cfg.penalty
    applyAckRate (ackRate immediate) base cfg.minAckRate cfg.penalty
  | none => -cost

/-! ### The closures `edge_value` -/

def forwardEdgeValue (cfg : Config) (length : Usize t) (cost : ℚ) (observation : W)
    (pathIndex : Usize t) : Option ℚ := do
  if pathIndex = (← length.sub (Usize.one t)) then
    return forwardLastEdge cfg length cost observation
  else if pathIndex = Usize.zero t then
    return firstEdge cfg (← length.sub (Usize.one t)) cost observation
  else if length.toNat ≤ pathIndex.toNat then
    return -cost
  else
    let remainingHops ← (← length.sub pathIndex).sub (Usize.one t)
    return requireFunding observation cost cfg.penalty remainingHops cfg.ticketFaceValue

def returningEdgeValue (cfg : Config) (length : Usize t) (cost : ℚ) (observation : W)
    (pathIndex : Usize t) : Option ℚ := do
  if pathIndex = (← length.sub (Usize.one t)) then
    return returningLastEdge cfg cost observation
  else if length.toNat ≤ pathIndex.toNat then
    return -cost
  else
    let remainingHops ← (← length.sub pathIndex).sub (Usize.one t)
    return requireFunding observation cost cfg.penalty remainingHops cfg.ticketFaceValue

def loopbackEdgeValue (cfg : Config) (length : Usize t) (cost : ℚ) (observation : W)
    (pathIndex : Usize t) : Option ℚ := do
  if pathIndex = Usize.zero t then
    return firstEdge cfg (← length.sub (Usize.one t)) cost observation
  else if length.toNat ≤ pathIndex.toNat then
    return -cost
  else
    let remainingHops ← (← length.sub pathIndex).sub (Usize.one t)
    return requireFunding observation cost cfg.penalty remainingHops cfg.ticketFaceValue

/-! ### The constructors -/

/-- A value function accepting `(current_value, edge_weight, path_index)`. -/
abbrev BasicValueFn (t : Target) (C W : Type) := C → W → Usize t → Option C

/-- A graph edge value function implementing a fold over path edges. -/
structure EdgeValueFn (t : Target) (C W : Type) where
  initial : C
  min : Option C
  valueFn : BasicValueFn t C W

namespace EdgeValueFn

/-- Full graph traversals: every edge but the last is scaled by the relayer's health. -/
def forward (length : NonZeroUsize t) (penalty minAckRate : ℚ)
    (ticketFaceValue : Option Balance) : EdgeValueFn t ℚ W where
  initial := 1
  min := some 0
  valueFn cost observation pathIndex := do
    let cfg := Config.resolve penalty minAckRate ticketFaceValue
    let value ← forwardEdgeValue cfg length.get cost observation pathIndex
    let next ← pathIndex.add (Usize.one t)
    return if next.toNat < length.get.toNat then scaleByHealth value (health observation) else value

/-- Full graph traversals in the return direction. -/
def returning (length : NonZeroUsize t) (penalty minAckRate : ℚ)
    (ticketFaceValue : Option Balance) : EdgeValueFn t ℚ W where
  initial := 1
  min := some 0
  valueFn cost observation pathIndex := do
    let cfg := Config.resolve penalty minAckRate ticketFaceValue
    let value ← returningEdgeValue cfg length.get cost observation pathIndex
    let next ← pathIndex.add (Usize.one t)
    return if next.toNat < length.get.toNat then scaleByHealth value (health observation) else value

/-- Simple forward paths without the final loopback: every edge leads into a relayer. -/
def forwardWithoutSelfLoopback (length : NonZeroUsize t) (penalty minAckRate : ℚ)
    (ticketFaceValue : Option Balance) : EdgeValueFn t ℚ W where
  initial := 1
  min := some 0
  valueFn cost observation pathIndex := do
    let cfg := Config.resolve penalty minAckRate ticketFaceValue
    let value ← loopbackEdgeValue cfg length.get cost observation pathIndex
    return scaleByHealth value (health observation)

end EdgeValueFn

/-- The three constructors, as the tests enumerate them. -/
inductive Direction where
  | forward
  | returning
  | forwardWithoutSelfLoopback
  deriving DecidableEq

def Direction.build (d : Direction) (length : NonZeroUsize t) (penalty minAckRate : ℚ)
    (ticketFaceValue : Option Balance) : EdgeValueFn t ℚ W :=
  match d with
  | .forward => .forward length penalty minAckRate ticketFaceValue
  | .returning => .returning length penalty minAckRate ticketFaceValue
  | .forwardWithoutSelfLoopback =>
    .forwardWithoutSelfLoopback length penalty minAckRate ticketFaceValue

end HoprApi.Graph
