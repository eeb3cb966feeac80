import HoprApi.Chain.Selectors
import HoprApi.Node.Redeem
import HoprApi.Tickets.Selection

/-!
# The channel queries of a node

`channels_to` and `channels_from` list every channel of a party, whatever its status; the two
redemptions open redeem streams in the redeemable incoming channels.  `queries_select` says which
channels each of them is about.
-/

namespace HoprApi.Node

open HoprApi.Rust HoprApi.Chain HoprApi.Tickets HoprApi.Lib.Collect

variable {σ η ε V : Type}

/-! ### The queries -/

/-- Returns all channels to the given destination. -/
def channelsTo (chainApi : ChainReadChannelOperations η) (destination : Address) :
    Except η (List ChannelEntry) :=
  chainApi.streamChannels ((ChannelSelector.default.withDestination destination).withAllowedStates
    [.closed, .open, .pendingToClose])

/-- Returns all channels from the given source. -/
def channelsFrom (chainApi : ChainReadChannelOperations η) (source : Address) :
    Except η (List ChannelEntry) :=
  chainApi.streamChannels ((ChannelSelector.default.withSource source).withAllowedStates
    [.closed, .open, .pendingToClose])

/-- Returns all peers that have been publicly announced. -/
def announcedPeers (chainApi : ChainReadAccountOperations η) : Except η (List AccountEntry) :=
  chainApi.streamAccounts { AccountSelector.default with publicOnly := true }

theorem mem_announcedPeers {chainApi : ChainReadAccountOperations η} {accounts : List AccountEntry}
    (hlists : chainApi.Lists accounts) {listed : List AccountEntry}
    (h : announcedPeers chainApi = .ok listed) (account : AccountEntry) :
    account ∈ listed ↔ account ∈ accounts ∧ account.hasAnnouncedWithRoutingInfo = true := by
  have hmeaning := AccountCall.satisfies_build_iff [.withPublicOnly true] account
  rw [hlists _ listed h]
  refine and_congr_right fun _ => hmeaning.trans ?_
  constructor
  · intro hm
    exact hm.routable rfl
  · intro hannounced
    exact ⟨fun _ => hannounced, fun _ h => (by cases h), fun _ h => (by cases h)⟩

theorem allowsStatus_all {s : ChannelSelector}
    (hstates : s.allowedStates = [.closed, .open, .pendingToClose])
    (hrange : s.closureTimeRange = (.unbounded, .unbounded)) (status : ChannelStatus) :
    s.allowsStatus status = true := by
  rw [ChannelSelector.allowsStatus_iff, hstates, hrange]
  refine ⟨Or.inr ?_, fun _ _ _ => rfl⟩
  rcases status with _ | _ | time <;> simp [ChannelStatus.discriminant]

theorem satisfies_to (destination : Address) (channel : ChannelEntry) :
    ((ChannelSelector.default.withDestination destination).withAllowedStates
      [.closed, .open, .pendingToClose]).satisfies channel = true ↔
      channel.destination = destination := by
  rw [ChannelSelector.satisfies_iff, ChannelSelector.matchesParties_of_no_id rfl,
    and_iff_left (allowsStatus_all rfl rfl _)]
  constructor
  · intro h
    exact h.2 destination rfl
  · rintro rfl
    exact ⟨fun _ h => (by cases h), fun _ h => (by cases h; rfl)⟩

theorem satisfies_from (source : Address) (channel : ChannelEntry) :
    ((ChannelSelector.default.withSource source).withAllowedStates
      [.closed, .open, .pendingToClose]).satisfies channel = true ↔ channel.source = source := by
  rw [ChannelSelector.satisfies_iff, ChannelSelector.matchesParties_of_no_id rfl,
    and_iff_left (allowsStatus_all rfl rfl _)]
  constructor
  · intro h
    exact h.1 source rfl
  · rintro rfl
    exact ⟨fun _ h => (by cases h; rfl), fun _ h => (by cases h)⟩

/-! ### The redemptions -/

theorem redeemable_iff {T : DateTime} {status : ChannelStatus} :
    ((status.discriminant = .open ∨ status.discriminant = .pendingToClose) ∧
      ∀ time, status = .pendingToClose time → T ≤ time) ↔ Redeemable T status := by
  unfold Redeemable
  rcases status with _ | _ | time
  · simp [ChannelStatus.discriminant]
  · simp [ChannelStatus.discriminant]
  · simp [ChannelStatus.discriminant]

/-- A caller's selector without allowed states is narrowed to the redeemable incoming channels of
its source. -/
theorem redeemSelector_satisfies_of_default (selector : Option ChannelSelector) (me : Address)
    (now : DateTime) (hstates : (selector.getD .default).allowedStates = [])
    (channel : ChannelEntry) :
    (redeemSelector selector me now (some pendingToCloseRedemptionTolerance)).satisfies channel =
        true ↔
      (∀ source, (selector.getD .default).source = some source → channel.source = source) ∧
        channel.destination = me ∧
        Redeemable (now + (pendingToCloseRedemptionTolerance : ℕ)) channel.status := by
  rw [redeemSelector_satisfies, hstates, ← redeemable_iff]
  simp only [List.not_mem_nil, false_or, Option.getD_some]

/-- However it is polled, a redemption opens redeem streams in exactly the channels with the property
`P`: the manager is asked for a stream in each of them, and what it offers is opened and collected,
which is a stream in all of them if it always offers one. -/
def OpensExactly (node : RedeemNode σ η ε V) (minValue : HoprBalance) (m : σ)
    (redemption : List ℕ → Redemption η ε V) (P : ChannelEntry → Prop) : Prop :=
  ∃ selected : List ChannelEntry, (∀ channel, channel ∈ selected ↔ P channel) ∧
    ∀ sched, let r := redemption sched
      r.requests = selected.map (fun c => ⟨node.chainApi, c.id, some minValue⟩) ∧
      r.opened = offered selected
        (answers node.ticketManagement node.chainApi (some minValue) selected m) ∧
      r.state = .ok (Collecting.runFrom (.ofStreams (r.opened.map Prod.snd)) sched) ∧
      ((∀ channelId m, ∃ stream, (node.ticketManagement.redeemStream node.chainApi channelId
        (some minValue) m).1 = .ok stream) → r.opened.map Prod.fst = selected)

theorem offered_all (tm : TicketManagement σ (ChainReadChannelOperations η) ε V)
    (client : ChainReadChannelOperations η) (minAmount : Option HoprBalance)
    (hoffers : ∀ channelId m, ∃ stream,
      (tm.redeemStream client channelId minAmount m).1 = .ok stream)
    (channels : List ChannelEntry) (m : σ) :
    (offered channels (answers tm client minAmount channels m)).map Prod.fst = channels := by
  induction channels generalizing m with
  | nil => rfl
  | cons channel channels ih =>
    obtain ⟨stream, hstream⟩ := hoffers channel.id m
    simp only [answers, offered, List.zip_cons_cons, List.filterMap_cons, hstream, Except.toOption,
      Option.map_some, List.map_cons]
    exact congrArg _ (ih _)

/-- Whatever the selector, a listing succeeds and is of exactly the channels that satisfy it. -/
def Streams (client : ChainReadChannelOperations η) (channels : List ChannelEntry) : Prop :=
  ∀ s, ∃ listed, client.streamChannels s = .ok listed ∧
    ∀ channel, channel ∈ listed ↔ channel ∈ channels ∧ s.satisfies channel = true

theorem opensExactly_selected {node : RedeemNode σ η ε V} {channels : List ChannelEntry}
    (hlists : Streams node.chainApi channels) (minValue : HoprBalance) (now : DateTime) (m : σ)
    (selector : Option ChannelSelector) :
    OpensExactly node minValue m
      (collectRedemptions (redeemSelected node minValue now m selector)) fun channel =>
        channel ∈ channels ∧ (redeemSelector selector node.chainApi.me now
          (some pendingToCloseRedemptionTolerance)).satisfies channel = true := by
  obtain ⟨selected, hselected, hmem⟩ := hlists (redeemSelector selector node.chainApi.me now
    (some pendingToCloseRedemptionTolerance))
  obtain ⟨hrequests, hopened, hresult⟩ := redeemInChannels_of_ok node.ticketManagement node.chainApi
    (some minValue) selector (some pendingToCloseRedemptionTolerance) now m hselected
  refine ⟨selected, hmem, fun sched => ⟨hrequests, hopened, ?_, fun hoffers => ?_⟩⟩
  · show (redeemInChannels _ _ _ _ _ _ _).result.map _ = _
    rw [hresult]
    rfl
  · show (redeemInChannels _ _ _ _ _ _ _).opened.map Prod.fst = selected
    rw [hopened, offered_all _ _ _ hoffers]

theorem OpensExactly.congr {node : RedeemNode σ η ε V} {minValue : HoprBalance} {m : σ}
    {redemption : List ℕ → Redemption η ε V} {P Q : ChannelEntry → Prop}
    (h : OpensExactly node minValue m redemption P) (hPQ : ∀ channel, P channel ↔ Q channel) :
    OpensExactly node minValue m redemption Q := by
  obtain ⟨selected, hmem, hopens⟩ := h
  exact ⟨selected, fun channel => (hmem channel).trans (hPQ channel), hopens⟩

/-- **Which channels the queries of a node are about.** -/
theorem queries_select (node : RedeemNode σ η ε V) (channels : List ChannelEntry)
    (hlists : Streams node.chainApi channels) (hme : node.chainApi.me = node.nodeAddress)
    (minValue : HoprBalance) (now : DateTime) (m : σ) :
    let T := now + (pendingToCloseRedemptionTolerance : ℕ)
    (∀ destination, ∃ listed, channelsTo node.chainApi destination = .ok listed ∧
      ∀ channel, channel ∈ listed ↔ channel ∈ channels ∧ channel.destination = destination) ∧
    (∀ source, ∃ listed, channelsFrom node.chainApi source = .ok listed ∧
      ∀ channel, channel ∈ listed ↔ channel ∈ channels ∧ channel.source = source) ∧
    OpensExactly node minValue m (redeemAllTickets node minValue now m) (fun channel =>
      channel ∈ channels ∧ channel.destination = node.nodeAddress ∧ Redeemable T channel.status) ∧
    ∀ issuer, OpensExactly node minValue m
      (redeemTicketsWithCounterparty node issuer minValue now m) fun channel =>
        channel ∈ channels ∧ channel.source = issuer ∧ channel.destination = node.nodeAddress ∧
          Redeemable T channel.status := by
  intro T
  refine ⟨fun destination => ?_, fun source => ?_, ?_, fun issuer => ?_⟩
  · obtain ⟨listed, hlisted, hmem⟩ := hlists _
    refine ⟨listed, hlisted, fun channel => (hmem channel).trans ?_⟩
    rw [satisfies_to]
  · obtain ⟨listed, hlisted, hmem⟩ := hlists _
    refine ⟨listed, hlisted, fun channel => (hmem channel).trans ?_⟩
    rw [satisfies_from]
  · refine (opensExactly_selected hlists minValue now m none).congr fun channel => ?_
    rw [redeemSelector_satisfies_of_default none _ now rfl, hme]
    refine and_congr_right fun _ => and_iff_right ?_
    intro source h
    cases h
  · refine (opensExactly_selected hlists minValue now m _).congr fun channel => ?_
    rw [redeemSelector_satisfies_of_default (some (counterpartySelector node issuer)) _ now rfl,
      hme]
    refine and_congr_right fun _ => and_congr_left fun _ => ?_
    exact ⟨fun h => h issuer rfl, fun h source hs => (by cases hs; exact h)⟩

theorem streams_ofChannels (η : Type) (me : Address) (channels : List ChannelEntry) :
    Streams (.ofChannels η me channels) channels :=
  fun _ => ⟨_, rfl, fun _ => List.mem_filter⟩

/-- A node with two open incoming channels redeems in both, and in one of them for its source. -/
theorem queries_select_failingNode :
    OpensExactly failingNode 0 () (redeemAllTickets failingNode 0 0 ()) (fun channel =>
      channel ∈ [⟨1, 2, .open, 1⟩, ⟨3, 2, .open, 3⟩] ∧ channel.destination = 2 ∧
        Redeemable (0 + (pendingToCloseRedemptionTolerance : ℕ)) channel.status) ∧
    OpensExactly failingNode 0 () (redeemTicketsWithCounterparty failingNode 3 0 0 ()) fun channel =>
      channel ∈ [⟨1, 2, .open, 1⟩, ⟨3, 2, .open, 3⟩] ∧ channel.source = 3 ∧
        channel.destination = 2 ∧
        Redeemable (0 + (pendingToCloseRedemptionTolerance : ℕ)) channel.status := by
  obtain ⟨-, -, hall, hone⟩ := queries_select failingNode [⟨1, 2, .open, 1⟩, ⟨3, 2, .open, 3⟩]
    (streams_ofChannels Unit 2 _) rfl 0 0 ()
  exact ⟨hall, hone 3⟩

end HoprApi.Node
