import HoprApi.Chain.Channels
import HoprApi.Lib.Merge

/-!
# Redeeming tickets in several channels

`redeemInChannels` lists the channels that the rewritten selector selects, asks the ticket manager
for a redeem stream in each of them and merges the streams that it gets.  The manager keeps state of
its own, so a request may change what the next one is answered.

What the loop over the listing has done is stated by `visitAll_spec`, and
`redeemInChannels_merges` adds what the merged stream then yields.
-/

namespace HoprApi.Tickets

open HoprApi.Rust HoprApi.Chain HoprApi.Lib.Schedule HoprApi.Lib.Merge

/-! ### The ticket manager -/

inductive RedemptionResult (V : Type) where
  | redeemed (ticket : V)
  /-- Neglected because its value was lower than the threshold. -/
  | valueTooLow (ticket : V)
  | rejectedOnChain (ticket : V) (reason : String)
  deriving DecidableEq

abbrev RedeemStream (ε V : Type) := List (Except ε (RedemptionResult V))

/-- API for managing winning tickets in incoming channels: with a client of the type `C`, a manager
in the state `σ` opens a redeem stream in a channel, or fails with an error `ε`. -/
structure TicketManagement (σ C ε V : Type) where
  redeemStream : C → ChannelId → Option HoprBalance → σ → Except ε (RedeemStream ε V) × σ

structure RedeemRequest (C : Type) where
  client : C
  channelId : ChannelId
  minAmount : Option HoprBalance

/-! ### The calls of `redeem_in_channels` -/

variable {σ η ε V : Type}

/-- The selector that the channels are listed with, where `now` is the time of the call. -/
def redeemSelector (selector : Option ChannelSelector) (me : Address) (now : DateTime)
    (minGracePeriod : Option Duration) : ChannelSelector :=
  ((selector.getD .default).withDestination me).withRedeemableChannels now minGracePeriod

/-- The state of the loop over the listed channels: the manager, the requests made, the streams
opened, and the group that they were inserted into. -/
structure Opening (σ η ε V : Type) where
  manager : σ
  requests : List (RedeemRequest (ChainReadChannelOperations η))
  opened : List (ChannelEntry × RedeemStream ε V)
  streamGroup : StreamGroup (Except ε (RedemptionResult V))

def Opening.start (m : σ) : Opening σ η ε V := ⟨m, [], [], .empty⟩

structure RedeemInChannels (σ η ε V : Type) where
  manager : σ
  requests : List (RedeemRequest (ChainReadChannelOperations η))
  opened : List (ChannelEntry × RedeemStream ε V)
  result : Except η (StreamGroup (Except ε (RedemptionResult V)))

section Redeem

variable (tm : TicketManagement σ (ChainReadChannelOperations η) ε V)
  (client : ChainReadChannelOperations η) (minAmount : Option HoprBalance)

/-- One pass of the loop; a stream that could not be opened is skipped. -/
def Opening.visit (o : Opening σ η ε V) (channel : ChannelEntry) : Opening σ η ε V :=
  let requests := o.requests ++ [⟨client, channel.id, minAmount⟩]
  match tm.redeemStream client channel.id minAmount o.manager with
  | (.ok stream, m) => ⟨m, requests, o.opened ++ [(channel, stream)], o.streamGroup.insert stream⟩
  | (.error _, m) => ⟨m, requests, o.opened, o.streamGroup⟩

def redeemInChannels (selector : Option ChannelSelector) (minGracePeriod : Option Duration)
    (now : DateTime) (m : σ) : RedeemInChannels σ η ε V :=
  match client.streamChannels (redeemSelector selector client.me now minGracePeriod) with
  | .error e => ⟨m, [], [], .error e⟩
  | .ok channels =>
    let o := channels.foldl (Opening.visit tm client minAmount) (.start m)
    ⟨o.manager, o.requests, o.opened, .ok o.streamGroup⟩

/-! ### What the loop has done -/

/-- The manager's answers to requests in the given channels, one after the other. -/
def answers : List ChannelEntry → σ → List (Except ε (RedeemStream ε V))
  | [], _ => []
  | channel :: channels, m =>
    let answer := tm.redeemStream client channel.id minAmount m
    answer.1 :: answers channels answer.2

def offered (channels : List ChannelEntry) (answers : List (Except ε (RedeemStream ε V))) :
    List (ChannelEntry × RedeemStream ε V) :=
  (channels.zip answers).filterMap fun a => a.2.toOption.map (a.1, ·)

theorem offered_sublist (channels : List ChannelEntry)
    (answers : List (Except ε (RedeemStream ε V))) :
    ((offered channels answers).map Prod.fst).Sublist channels := by
  induction channels generalizing answers with
  | nil => exact List.Sublist.slnil
  | cons channel channels ih =>
    rcases answers with _ | ⟨_ | stream, answers⟩
    · exact List.nil_sublist _
    · exact (ih answers).cons channel
    · exact (ih answers).cons_cons channel

/-- **The loop over the listing**: one request for each channel, and the streams of the answers that
are not errors. -/
theorem visitAll_spec (channels : List ChannelEntry) (o : Opening σ η ε V) :
    let o' := channels.foldl (Opening.visit tm client minAmount) o
    o'.requests = o.requests ++ channels.map (fun c => ⟨client, c.id, minAmount⟩) ∧
    o'.opened = o.opened ++ offered channels (answers tm client minAmount channels o.manager) ∧
    (o.streamGroup = .ofStreams (o.opened.map Prod.snd) →
      o'.streamGroup = .ofStreams (o'.opened.map Prod.snd)) := by
  induction channels generalizing o with
  | nil => simp [offered]
  | cons channel channels ih =>
    obtain ⟨hreq, hopen, hgroup⟩ := ih (o.visit tm client minAmount channel)
    rw [List.foldl_cons]
    refine ⟨?_, ?_, fun hg => hgroup ?_⟩
    · rw [hreq]
      unfold Opening.visit
      rcases tm.redeemStream client channel.id minAmount o.manager with ⟨_ | stream, m⟩
      · simp
      · simp
    · rw [hopen]
      unfold Opening.visit
      rcases hans : tm.redeemStream client channel.id minAmount o.manager with ⟨_ | stream, m⟩
      · simp [answers, offered, hans, Except.toOption]
      · simp [answers, offered, hans, Except.toOption]
    · unfold Opening.visit
      rcases tm.redeemStream client channel.id minAmount o.manager with ⟨_ | stream, m⟩
      · exact hg
      · simp only [hg, StreamGroup.insert_ofStreams, List.map_append, List.map_cons, List.map_nil]

/-- The group of a successful call holds the opened streams, in the order of the listing. -/
theorem redeemInChannels_of_ok (selector : Option ChannelSelector)
    (minGracePeriod : Option Duration) (now : DateTime) (m : σ) {channels : List ChannelEntry}
    (h : client.streamChannels (redeemSelector selector client.me now minGracePeriod) =
      .ok channels) :
    let call := redeemInChannels tm client minAmount selector minGracePeriod now m
    call.requests = channels.map (fun c => ⟨client, c.id, minAmount⟩) ∧
    call.opened = offered channels (answers tm client minAmount channels m) ∧
    call.result = .ok (.ofStreams (call.opened.map Prod.snd)) := by
  obtain ⟨hreq, hopen, hgroup⟩ :=
    visitAll_spec tm client minAmount channels (.start m)
  simp only [redeemInChannels, h]
  exact ⟨hreq, hopen, congrArg _ (hgroup rfl)⟩

/-- **The per-channel streams are merged without loss, duplication or reordering.** -/
theorem redeemInChannels_merges (selector : Option ChannelSelector)
    (minGracePeriod : Option Duration) (now : DateTime) (m : σ) :
    let call := redeemInChannels tm client minAmount selector minGracePeriod now m
    match client.streamChannels (redeemSelector selector client.me now minGracePeriod) with
    | .error e =>
      call.result = .error e ∧ call.requests = [] ∧ call.opened = [] ∧ call.manager = m
    | .ok channels =>
      call.requests = channels.map (fun c => ⟨client, c.id, minAmount⟩) ∧
      call.opened = offered channels (answers tm client minAmount channels m) ∧
      (call.opened.map Prod.fst).Sublist channels ∧
      ∃ streamGroup, call.result = .ok streamGroup ∧
        -- under any order of polls a channel's items come in its own order, and no others
        (∀ (sched : List ℕ) (k : ℕ) (hk : k < call.opened.length),
          eventsOf k (Merged.runFrom streamGroup sched).yielded <+: call.opened[k].2) ∧
        (∀ sched, ∀ e ∈ (Merged.runFrom streamGroup sched).yielded, e.1 < call.opened.length) ∧
        -- and every such interleaving comes under some order of polls
        (∀ trace, (∀ k, eventsOf k trace <+: (call.opened[k]?.map Prod.snd).getD []) →
          ∃ sched, (Merged.runFrom streamGroup sched).yielded = trace) ∧
        -- all of them, once the group has ended, as it does under a fair order
        (∀ sched, (Merged.runFrom streamGroup sched).group.Ended →
          ∀ (k : ℕ) (hk : k < call.opened.length),
            eventsOf k (Merged.runFrom streamGroup sched).yielded = call.opened[k].2) ∧
        (∀ sched, Fair call.opened.length sched →
          ∃ N, ∀ M, N ≤ M → (Merged.runFrom streamGroup (upTo sched M)).group.Ended) := by
  intro call
  rcases h : client.streamChannels (redeemSelector selector client.me now minGracePeriod) with
    e | channels
  · simp only [call, redeemInChannels, h]
    exact ⟨trivial, trivial, trivial, trivial⟩
  · obtain ⟨hreq, hopen, hresult⟩ :=
      redeemInChannels_of_ok tm client minAmount selector minGracePeriod now m h
    set streamGroup := StreamGroup.ofStreams (call.opened.map Prod.snd) with hgroup
    have hlen : streamGroup.slots.length = call.opened.length := by
      rw [hgroup, StreamGroup.length_ofStreams, List.length_map]
    have hstream : ∀ (k : ℕ) (hk : k < call.opened.length),
        (streamGroup.stream k).getD [] = call.opened[k].2 := by
      intro k hk
      rw [StreamGroup.stream_ofStreams, List.getElem?_map, List.getElem?_eq_getElem hk]
      rfl
    refine ⟨hreq, hopen, hopen ▸ offered_sublist _ _, _, hresult, ?_, ?_, ?_, ?_, ?_⟩
    · intro sched k hk
      rw [← hstream k hk]
      exact Merged.yielded_le _ sched k
    · intro sched e he
      exact hlen ▸ Merged.key_lt _ sched he
    · intro trace htrace
      refine (Merged.exists_yielded_iff _ trace).2 fun k => ?_
      rw [StreamGroup.stream_ofStreams, List.getElem?_map]
      exact htrace k
    · intro sched hend k hk
      rw [← hstream k hk]
      exact Merged.eventsOf_of_ended hend k
    · intro sched hfair
      exact Merged.ends _ (hlen.symm ▸ hfair)

end Redeem

/-- A manager that offers a stream with a redeemed ticket and an error, but none in one channel. -/
def skippingManager : TicketManagement Unit (ChainReadChannelOperations Unit) Unit ℕ where
  redeemStream _ channelId _ m :=
    (if channelId = 3 then .error () else .ok [.ok (.redeemed 10), .error ()], m)

/-- The second of three channels is skipped, the others are merged in their own order. -/
theorem redeemInChannels_merges_skipping :
    let call := redeemInChannels skippingManager
      (.ofChannels Unit 2 [⟨1, 2, .open, 1⟩, ⟨3, 2, .open, 3⟩, ⟨5, 2, .open, 5⟩]) (some 5) none none
      0 ()
    call.requests.map (·.channelId) = [1, 3, 5] ∧ call.opened.map (·.1.id) = [1, 5] ∧
    ∃ streamGroup, call.result = .ok streamGroup ∧
      (∀ sched, eventsOf 1 (Merged.runFrom streamGroup sched).yielded <+:
        [.ok (.redeemed 10), .error ()]) ∧
      ∃ N, ∀ M, N ≤ M → (Merged.runFrom streamGroup (upTo (· % 2) M)).group.Ended := by
  intro call
  have hmerges := redeemInChannels_merges skippingManager
    (.ofChannels Unit 2 [⟨1, 2, .open, 1⟩, ⟨3, 2, .open, 3⟩, ⟨5, 2, .open, 5⟩]) (some 5) none none
    0 ()
  obtain ⟨-, -, -, streamGroup, hgroup, hprefix, -, -, -, hends⟩ := hmerges
  refine ⟨by decide, by decide, streamGroup, hgroup, fun sched => hprefix sched 1 (by decide), ?_⟩
  exact hends _ (fair_roundRobin 2)

end HoprApi.Tickets
