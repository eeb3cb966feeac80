import HoprApi.Lib.Collect
import HoprApi.Tickets.Management

/-!
# Redeeming tickets on a node

`redeem_all_tickets` and `redeem_tickets_with_counterparty` merge the redeem streams of the channels
they select and collect the merged stream.  The collection resolves to the first error, so a failing
channel takes with it what the others still hold and what all of them have yielded; the channels are
isolated from each other exactly where there is nothing to lose (`redeem_isolated_iff`).
-/

namespace HoprApi.Node

open HoprApi.Rust HoprApi.Chain HoprApi.Tickets HoprApi.Lib.Schedule HoprApi.Lib.Merge
  HoprApi.Lib.Collect

variable {σ η ε V : Type}

/-! ### The operations -/

inductive EitherErr (L R : Type) where
  | left (err : L)
  | right (err : R)
  deriving DecidableEq

structure RedeemNode (σ η ε V : Type) where
  nodeAddress : Address
  chainApi : ChainReadChannelOperations η
  ticketManagement : TicketManagement σ (ChainReadChannelOperations η) ε V

/-- How long before the closure of a pending channel tickets are still redeemed in it. -/
def pendingToCloseRedemptionTolerance : Duration := .fromSecs 30

/-- A redemption in progress: what `redeem_in_channels` has requested and opened, and the error of
the listing or the collection of the merged stream. -/
structure Redemption (η ε V : Type) where
  requests : List (RedeemRequest (ChainReadChannelOperations η))
  opened : List (ChannelEntry × RedeemStream ε V)
  state : Except η (Collecting ε (RedemptionResult V))

namespace Redemption

variable (r : Redemption η ε V)

def output : Option (Except (EitherErr η ε) (List (RedemptionResult V))) :=
  match r.state with
  | .error e => some (.error (.left e))
  | .ok c => c.output.map (Except.mapError .right)

/-- What the redeem streams have yielded, each item under the key of its stream. -/
def yielded : List (ℕ × Except ε (RedemptionResult V)) :=
  match r.state with
  | .error _ => []
  | .ok c => c.merged.yielded

def remaining (k : ℕ) : Option (RedeemStream ε V) :=
  match r.state with
  | .error _ => none
  | .ok c => c.merged.group.stream k

def received : List (RedemptionResult V) :=
  match r.output with
  | some (.ok rs) => rs
  | _ => []

/-- Once the call has returned, every result that a stream has yielded has reached the caller, and
where a stream has failed every other one was driven to its end. -/
def Isolated : Prop :=
  r.output.isSome → r.received = results r.yielded ∧
    ∀ k e, (k, .error e) ∈ r.yielded → ∀ j, j ≠ k → r.remaining j = none

end Redemption

/-- Collect the merged stream of a call of `redeem_in_channels`, polled in the order `sched`. -/
def collectRedemptions (call : RedeemInChannels σ η ε V) (sched : List ℕ) : Redemption η ε V where
  requests := call.requests
  opened := call.opened
  state := call.result.map fun streamGroup => Collecting.runFrom streamGroup sched

def counterpartySelector (node : RedeemNode σ η ε V) (issuer : Address) : ChannelSelector :=
  (ChannelSelector.default.withSource issuer).withDestination node.nodeAddress

section Redeem

variable (node : RedeemNode σ η ε V) (issuer : Address) (minValue : HoprBalance)
  (now : DateTime) (m : σ)

def redeemSelected (selector : Option ChannelSelector) : RedeemInChannels σ η ε V :=
  redeemInChannels node.ticketManagement node.chainApi (some minValue) selector
    (some pendingToCloseRedemptionTolerance) now m

/-- Redeems all redeemable tickets in all incoming channels. -/
def redeemAllTickets (sched : List ℕ) : Redemption η ε V :=
  collectRedemptions (redeemSelected node minValue now m none) sched

/-- Redeems all incoming tickets from the given issuer. -/
def redeemTicketsWithCounterparty (sched : List ℕ) : Redemption η ε V :=
  collectRedemptions (redeemSelected node minValue now m (some (counterpartySelector node issuer)))
    sched

/-- The streams that the ticket manager offers in the channels that the given selector selects. -/
def offeredStreams (selector : Option ChannelSelector) : List (RedeemStream ε V) :=
  match node.chainApi.streamChannels (redeemSelector selector node.chainApi.me now
      (some pendingToCloseRedemptionTolerance)) with
  | .error _ => []
  | .ok channels =>
    (offered channels
      (answers node.ticketManagement node.chainApi (some minValue) channels m)).map Prod.snd

end Redeem

/-! ### Isolation -/

/-- No stream fails, or there is only one and it fails before it yields anything. -/
def NothingToLose (streams : List (RedeemStream ε V)) : Prop :=
  (∀ s ∈ streams, ∀ x ∈ s, ∃ r, x = .ok r) ∨ ∃ e rest, streams = [.error e :: rest]

theorem output_of_ok {r : Redemption η ε V} {c : Collecting ε (RedemptionResult V)}
    (h : r.state = .ok c) : r.output = c.output.map (Except.mapError .right) := by
  unfold Redemption.output
  rw [h]

theorem received_of_ok {r : Redemption η ε V} {c : Collecting ε (RedemptionResult V)}
    (h : r.state = .ok c) : r.received = c.delivered := by
  unfold Redemption.received Collecting.delivered
  rw [output_of_ok h]
  rcases c.output with _ | _ | rs
  · rfl
  · rfl
  · rfl

theorem isolated_of_ok {r : Redemption η ε V} {c : Collecting ε (RedemptionResult V)}
    (h : r.state = .ok c) : r.Isolated ↔ c.Isolated := by
  unfold Redemption.Isolated Collecting.Isolated
  rw [received_of_ok h, output_of_ok h, Option.isSome_map]
  simp only [Redemption.yielded, Redemption.remaining, h]

theorem isolated_of_error {r : Redemption η ε V} {e : η} (h : r.state = .error e) :
    r.Isolated := by
  obtain ⟨requests, opened, state⟩ := r
  cases h
  exact fun _ => ⟨rfl, fun _ _ _ _ _ => rfl⟩

section Isolation

variable (node : RedeemNode σ η ε V) (issuer : Address) (minValue : HoprBalance)
  (now : DateTime) (m : σ)

theorem redeemSelected_result (selector : Option ChannelSelector) :
    (∃ e, (redeemSelected node minValue now m selector).result = .error e ∧
      offeredStreams node minValue now m selector = []) ∨
    (redeemSelected node minValue now m selector).result =
      .ok (.ofStreams (offeredStreams node minValue now m selector)) := by
  unfold redeemSelected offeredStreams
  rcases h : node.chainApi.streamChannels (redeemSelector selector node.chainApi.me now
      (some pendingToCloseRedemptionTolerance)) with e | channels
  · left
    refine ⟨e, ?_, rfl⟩
    simp only [redeemInChannels, h]
  · right
    obtain ⟨-, hopened, hresult⟩ := redeemInChannels_of_ok node.ticketManagement node.chainApi
      (some minValue) selector (some pendingToCloseRedemptionTolerance) now m h
    rw [hresult, hopened]

theorem isolated_selected_iff (selector : Option ChannelSelector) :
    (∀ sched, (collectRedemptions (redeemSelected node minValue now m selector) sched).Isolated) ↔
      NothingToLose (offeredStreams node minValue now m selector) := by
  rcases redeemSelected_result node minValue now m selector with ⟨e, he, hnone⟩ | hok
  · rw [hnone]
    refine iff_of_true (fun sched => isolated_of_error (e := e) ?_) (Or.inl fun s hs => ?_)
    · rw [collectRedemptions, he]
      rfl
    · cases hs
  · refine Iff.trans (forall_congr' fun sched => ?_) (Collecting.isolated_iff _)
    refine isolated_of_ok ?_
    rw [collectRedemptions, hok]
    rfl

theorem selected_returns (selector : Option ChannelSelector) {sched : ℕ → ℕ}
    (hfair : ∀ n, Fair n sched) :
    ∃ N, ∀ M, N ≤ M →
      (collectRedemptions (redeemSelected node minValue now m selector)
        (upTo sched M)).output.isSome := by
  unfold collectRedemptions Redemption.output
  rcases redeemSelected_result node minValue now m selector with ⟨e, he, -⟩ | hok
  · rw [he]
    exact ⟨0, fun _ _ => rfl⟩
  · rw [hok]
    obtain ⟨N, hN⟩ := Collecting.resolves
      (.ofStreams (offeredStreams node minValue now m selector)) (hfair _)
    refine ⟨N, fun M hM => ?_⟩
    exact Option.isSome_map.trans (hN M hM)

/-- **When a failing channel is isolated from the others.** -/
theorem redeem_isolated_iff :
    ((∀ sched, (redeemAllTickets node minValue now m sched).Isolated) ↔
      NothingToLose (offeredStreams node minValue now m none)) ∧
    ((∀ sched, (redeemTicketsWithCounterparty node issuer minValue now m sched).Isolated) ↔
      NothingToLose
        (offeredStreams node minValue now m (some (counterpartySelector node issuer)))) ∧
    -- and both calls return, whatever the fair order of polls
    ∀ sched, (∀ n, Fair n sched) → ∃ N, ∀ M, N ≤ M →
      (redeemAllTickets node minValue now m (upTo sched M)).output.isSome ∧
      (redeemTicketsWithCounterparty node issuer minValue now m (upTo sched M)).output.isSome := by
  refine ⟨isolated_selected_iff node minValue now m _, isolated_selected_iff node minValue now m _,
    fun sched hfair => ?_⟩
  obtain ⟨N, hN⟩ := selected_returns node minValue now m none hfair
  obtain ⟨N', hN'⟩ :=
    selected_returns node minValue now m (some (counterpartySelector node issuer)) hfair
  refine ⟨max N N', fun M hM => ⟨hN M ?_, hN' M ?_⟩⟩
  · exact (le_max_left N N').trans hM
  · exact (le_max_right N N').trans hM

end Isolation

/-! ### A failing channel -/

/-- A node with two open incoming channels: in the first a ticket is redeemed before its stream
fails, in the second one ticket is redeemed. -/
def failingNode : RedeemNode Unit Unit Unit ℕ where
  nodeAddress := 2
  chainApi := .ofChannels Unit 2 [⟨1, 2, .open, 1⟩, ⟨3, 2, .open, 3⟩]
  ticketManagement :=
    { redeemStream := fun _ channelId _ m =>
        (.ok (if channelId = 1 then [.ok (.redeemed 10), .error ()] else [.ok (.redeemed 30)]), m) }

/-- The first channel's error drops its redeemed ticket and leaves the second channel undriven. -/
theorem failing_channel_not_isolated :
    (redeemAllTickets failingNode 0 0 () [0, 0]).output = some (.error (.right ())) ∧
    results (redeemAllTickets failingNode 0 0 () [0, 0]).yielded = [.redeemed 10] ∧
    (redeemAllTickets failingNode 0 0 () [0, 0]).remaining 1 = some [.ok (.redeemed 30)] ∧
    (redeemTicketsWithCounterparty failingNode 1 0 0 () [0, 0]).output =
      some (.error (.right ())) ∧
    ¬ (redeemAllTickets failingNode 0 0 () [0, 0]).Isolated ∧
    ¬ (redeemTicketsWithCounterparty failingNode 1 0 0 () [0, 0]).Isolated := by
  have hall : (redeemAllTickets failingNode 0 0 () [0, 0]).output = some (.error (.right ())) := by
    decide
  have hone : (redeemTicketsWithCounterparty failingNode 1 0 0 () [0, 0]).output =
      some (.error (.right ())) := by decide
  refine ⟨hall, by decide, by decide, hone, fun h => ?_, fun h => ?_⟩
  · have hreach := (h (by rw [hall]; rfl)).1
    revert hreach
    decide
  · have hreach := (h (by rw [hone]; rfl)).1
    revert hreach
    decide

end HoprApi.Node
