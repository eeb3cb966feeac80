import HoprApi.Rust.Num
import HoprApi.Rust.Time

/-!
# Channels and channel selectors

A selector is built by a chain of calls that set, clear and append to its fields; `satisfies` then
decides which channels it selects.
-/

namespace HoprApi.Chain

open HoprApi.Rust

/-! ### Channels -/

/-- A 20-byte on-chain address. -/
abbrev Address := BitVec 160

/-- A 32-byte hash. -/
abbrev ChannelId := BitVec 256

/-- An amount of the network's token. -/
abbrev HoprBalance := U256

/-- The hash that identifies the channel between two parties. -/
class GenerateChannelId where
  generateChannelId : Address → Address → ChannelId

export GenerateChannelId (generateChannelId)

inductive ChannelStatus where
  | closed
  | «open»
  /-- The channel can be closed from the given time on. -/
  | pendingToClose (closureTime : DateTime)
  deriving DecidableEq

inductive ChannelStatusDiscriminants where
  | closed
  | «open»
  | pendingToClose
  deriving DecidableEq

def ChannelStatus.discriminant : ChannelStatus → ChannelStatusDiscriminants
  | .closed => .closed
  | .open => .open
  | .pendingToClose _ => .pendingToClose

structure ChannelEntry where
  source : Address
  destination : Address
  status : ChannelStatus
  id : ChannelId
  deriving DecidableEq

/-- The id of the channel is the one of its parties. -/
def ChannelEntry.IdOfParties [GenerateChannelId] (channel : ChannelEntry) : Prop :=
  channel.id = generateChannelId channel.source channel.destination

/-! ### Selectors -/

structure ChannelSelector where
  source : Option Address
  destination : Option Address
  id : Option ChannelId
  /-- Possible channel states; no states allow every state. -/
  allowedStates : List ChannelStatusDiscriminants
  /-- Range of closure times, if `pendingToClose` is among the allowed states. -/
  closureTimeRange : BoundPair DateTime
  deriving DecidableEq

namespace ChannelSelector

def default : ChannelSelector where
  source := none
  destination := none
  id := none
  allowedStates := []
  closureTimeRange := (.unbounded, .unbounded)

def withSource (s : ChannelSelector) (address : Address) : ChannelSelector :=
  { s with source := some address, id := none }

def withDestination (s : ChannelSelector) (address : Address) : ChannelSelector :=
  { s with destination := some address, id := none }

def withId (s : ChannelSelector) (id : ChannelId) : ChannelSelector :=
  { s with id := some id, source := none, destination := none }

/-- Appends to the allowed states. -/
def withAllowedStates (s : ChannelSelector) (allowedStates : List ChannelStatusDiscriminants) :
    ChannelSelector :=
  { s with allowedStates := s.allowedStates ++ allowedStates }

def withClosureTimeRange (s : ChannelSelector) (range : BoundPair DateTime) : ChannelSelector :=
  { s with closureTimeRange := range }

/-- Includes the channels that are open, or pending to close with a closure time at least
`minGracePeriod` after `now`. -/
def withRedeemableChannels (s : ChannelSelector) (now : DateTime)
    (minGracePeriod : Option Duration) : ChannelSelector :=
  (s.withAllowedStates [.open, .pendingToClose]).withClosureTimeRange
    (.startingAt (now + (minGracePeriod.getD 0 : ℕ)))

/-- The checks of the state and the closure time. -/
def allowsStatus (s : ChannelSelector) (status : ChannelStatus) : Bool :=
  (s.allowedStates.isEmpty || decide (status.discriminant ∈ s.allowedStates)) &&
  (match status with
    | .pendingToClose time =>
      !decide (.pendingToClose ∈ s.allowedStates) || s.closureTimeRange.contains time
    | _ => true)

theorem allowsStatus_iff {s : ChannelSelector} {status : ChannelStatus} :
    s.allowsStatus status = true ↔
      (s.allowedStates = [] ∨ status.discriminant ∈ s.allowedStates) ∧
        (.pendingToClose ∈ s.allowedStates → ∀ time, status = .pendingToClose time →
          s.closureTimeRange.contains time = true) := by
  unfold allowsStatus
  rw [Bool.and_eq_true, Bool.or_eq_true, List.isEmpty_iff, decide_eq_true_eq]
  refine and_congr_right fun _ => ?_
  rcases status with _ | _ | time
  · simp
  · simp
  · simp only [Bool.or_eq_true, Bool.not_eq_true', decide_eq_false_iff_not,
      ← imp_iff_not_or, ChannelStatus.pendingToClose.injEq, forall_eq']

section Parties

/-- The check of the parties; they only count for a selector without an id. -/
def matchesParties (s : ChannelSelector) (channel : ChannelEntry) : Bool :=
  match s.id with
  | some id => decide (channel.id = id)
  | none =>
    (match s.source with
      | some source => decide (channel.source = source)
      | none => true) &&
    (match s.destination with
      | some dst => decide (channel.destination = dst)
      | none => true)

def satisfies (s : ChannelSelector) (channel : ChannelEntry) : Bool :=
  s.matchesParties channel && s.allowsStatus channel.status

variable {s : ChannelSelector} {channel : ChannelEntry}

theorem matchesParties_of_id {id : ChannelId} (h : s.id = some id) :
    s.matchesParties channel = true ↔ channel.id = id := by
  unfold matchesParties
  rw [h, decide_eq_true_eq]

theorem matchesParties_of_no_id (h : s.id = none) :
    s.matchesParties channel = true ↔
      (∀ source, s.source = some source → channel.source = source) ∧
        ∀ dst, s.destination = some dst → channel.destination = dst := by
  unfold matchesParties
  rw [h, Bool.and_eq_true]
  refine and_congr ?_ ?_
  · rcases s.source with _ | source
    · simp
    · simp
  · rcases s.destination with _ | dst
    · simp
    · simp

theorem satisfies_iff :
    s.satisfies channel = true ↔
      s.matchesParties channel = true ∧ s.allowsStatus channel.status = true :=
  Bool.and_eq_true_iff

end Parties

end ChannelSelector

/-! ### The read operations of the chain -/

/-- On-chain read operations regarding channels, with errors `η`. -/
structure ChainReadChannelOperations (η : Type) where
  /-- The address of the current node. -/
  me : Address
  /-- The channels that a selector selects, in the order in which they are streamed. -/
  streamChannels : ChannelSelector → Except η (List ChannelEntry)

/-- Whenever a listing succeeds, it is of exactly those of the given channels that satisfy the
selector. -/
def ChainReadChannelOperations.Lists {η : Type}
    (client : ChainReadChannelOperations η) (channels : List ChannelEntry) : Prop :=
  ∀ s listed, client.streamChannels s = .ok listed →
    ∀ channel, channel ∈ listed ↔ channel ∈ channels ∧ s.satisfies channel = true

/-- The client of the node `me` on a chain with the given channels. -/
def ChainReadChannelOperations.ofChannels (η : Type) (me : Address)
    (channels : List ChannelEntry) : ChainReadChannelOperations η where
  me := me
  streamChannels s := .ok (channels.filter s.satisfies)

theorem ChainReadChannelOperations.lists_ofChannels (η : Type) (me : Address)
    (channels : List ChannelEntry) : (ofChannels η me channels).Lists channels := by
  intro s listed h channel
  cases h
  exact List.mem_filter

end HoprApi.Chain
