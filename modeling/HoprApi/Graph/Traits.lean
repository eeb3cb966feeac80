import HoprApi.Rust.Num

/-!
# What a value function reads from an edge

The observation traits of `graph/traits.rs`, with the accessors that the value functions call.  The
documented ranges (scores and rates in `[0, 1]`) are no part of the types: nothing in the code
enforces them.
-/

namespace HoprApi.Graph

open HoprApi.Rust

abbrev Balance := U256

class EdgeNetworkObservableRead (M : Type) where
  /-- `none` when never observed, which is not the same as observed to be down. -/
  isConnected : M → Option Bool

class EdgeProtocolObservable (M : Type) where
  balance : M → Option Balance

class EdgeImmediateProtocolObservable (M : Type) where
  ackRate : M → Option ℚ

class EdgeLinkObservable (M : Type) where
  score : M → Option ℚ

/-- The bounds of `EdgeObservableRead::ImmediateMeasurement`. -/
class ImmediateMeasurement (M : Type) extends
  EdgeLinkObservable M, EdgeNetworkObservableRead M, EdgeImmediateProtocolObservable M

/-- The bounds of `EdgeObservableRead::IntermediateMeasurement`. -/
class IntermediateMeasurement (M : Type) extends EdgeLinkObservable M, EdgeProtocolObservable M

class EdgeObservableRead (W : Type) (Imm Inter : outParam Type) where
  immediateQos : W → Option Imm
  intermediateQos : W → Option Inter
  /-- The aggregate of the two streams. -/
  score : W → Option ℚ
  health : W → Option F64 := fun _ => none

/-! ### The observations of the tests -/

/-- Immediate (1-hop) probe measurement. -/
structure StubImmediate where
  connected : Option Bool
  score : Option ℚ
  ackRate : Option ℚ

/-- Intermediate (relayed) probe measurement with channel balance. -/
structure StubIntermediate where
  balance : Option Balance
  score : Option ℚ

structure Observations where
  immediate : Option StubImmediate
  intermediate : Option StubIntermediate
  health : Option F64

instance : ImmediateMeasurement StubImmediate where
  score := StubImmediate.score
  isConnected := StubImmediate.connected
  ackRate := StubImmediate.ackRate

instance : IntermediateMeasurement StubIntermediate where
  score := StubIntermediate.score
  balance := StubIntermediate.balance

/-- The average of the two streams where both have observations, else the single present one. -/
def Observations.score (o : Observations) : Option ℚ :=
  match o.immediate.bind StubImmediate.score, o.intermediate.bind StubIntermediate.score with
  | some immediate, some intermediate => some ((immediate + intermediate) / 2)
  | some only, none => some only
  | none, some only => some only
  | none, none => none

instance : EdgeObservableRead Observations StubImmediate StubIntermediate where
  immediateQos := Observations.immediate
  intermediateQos := Observations.intermediate
  score := Observations.score
  health := Observations.health

/-- Connected, healthy on both streams, channel funded. -/
def healthy : Observations where
  immediate := some { connected := some true, score := some (19 / 20), ackRate := some (9 / 10) }
  intermediate := some { balance := some 1000, score := some (19 / 20) }
  health := none

/-- A healthy edge acknowledging at the given rate. -/
def acking (ackRate : Option ℚ) : Observations :=
  { healthy with
    immediate := some { connected := some true, score := some (19 / 20), ackRate := ackRate } }

/-- A funded channel whose immediate stream exists but never observed connectivity. -/
def connectivityUnknown : Observations where
  immediate := some { connected := none, score := none, ackRate := none }
  intermediate := some { balance := some 1000, score := none }
  health := none

def unobserved : Observations where
  immediate := none
  intermediate := none
  health := none

end HoprApi.Graph
