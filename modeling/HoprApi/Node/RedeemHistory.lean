import HoprApi.Node.Redeem
import HoprApi.Tickets.Queues
import Mathlib.Data.List.Nodup

/-!
# Histories of redemptions

A redemption whose queues nothing else changes extracts the first tickets of each queue, as many as
its streams have yielded, and reports them where it returns its results (`redemption_spec`).  A node
redeems tickets again and again, while the channels of the chain change; together its calls take the
tickets of a channel once and in their order (`redemptions_in_order`).
-/

namespace HoprApi.Node

open HoprApi.Rust HoprApi.Chain HoprApi.Tickets HoprApi.Lib.Schedule HoprApi.Lib.Merge
  HoprApi.Lib.Collect

variable {σ η ε V : Type}

/-! ### Calls -/

/-- A call of `redeem_tickets_with_counterparty`, or without an issuer of `redeem_all_tickets`, on the
chain as it is at the time of the call.  It makes the polls of `sched`, and is then dropped. -/
structure RedeemCall (η : Type) where
  chainApi : ChainReadChannelOperations η
  issuer : Option Address
  minValue : HoprBalance
  now : DateTime
  sched : List ℕ

namespace RedeemCall

variable (nodeAddress : Address)
  (tm : TicketManagement σ (ChainReadChannelOperations η) ε V) (call : RedeemCall η) (m : σ)

def node : RedeemNode σ η ε V := ⟨nodeAddress, call.chainApi, tm⟩

def selector : Option ChannelSelector :=
  call.issuer.map (counterpartySelector (call.node nodeAddress tm))

def redemption : Redemption η ε V :=
  match call.issuer with
  | none => redeemAllTickets (call.node nodeAddress tm) call.minValue call.now m call.sched
  | some issuer => redeemTicketsWithCounterparty (call.node nodeAddress tm) issuer call.minValue
      call.now m call.sched

theorem redemption_eq : call.redemption nodeAddress tm m =
    collectRedemptions (redeemSelected (call.node nodeAddress tm) call.minValue call.now m
      (call.selector nodeAddress tm)) call.sched := by
  unfold redemption selector
  rcases call.issuer with _ | issuer
  · rfl
  · rfl

/-- The call has failed to list the channels, or collects the streams that it has opened. -/
theorem redemption_cases :
    (∃ err, (call.redemption nodeAddress tm m).opened = [] ∧
      (call.redemption nodeAddress tm m).state = .error err) ∨
    ∃ s channels, call.chainApi.streamChannels s = .ok channels ∧
      (call.redemption nodeAddress tm m).opened =
        offered channels (answers tm call.chainApi (some call.minValue) channels m) ∧
      (call.redemption nodeAddress tm m).state = .ok (Collecting.runFrom
        (.ofStreams ((call.redemption nodeAddress tm m).opened.map Prod.snd)) call.sched) := by
  rw [redemption_eq]
  unfold collectRedemptions
  rcases hlist : call.chainApi.streamChannels (redeemSelector (call.selector nodeAddress tm)
      call.chainApi.me call.now (some pendingToCloseRedemptionTolerance)) with err | channels
  · left
    simp only [redeemSelected, redeemInChannels, node, hlist]
    exact ⟨err, trivial, rfl⟩
  · right
    obtain ⟨-, hopened, hresult⟩ := redeemInChannels_of_ok tm call.chainApi (some call.minValue)
      (call.selector nodeAddress tm) (some pendingToCloseRedemptionTolerance) call.now m hlist
    exact ⟨_, channels, hlist, hopened, congrArg (Except.map _) hresult⟩

end RedeemCall

/-! ### What a call extracts -/

namespace Redemption

variable (channelOf : V → ChannelId) (r : Redemption η ε V) (channelId : ChannelId)

def ticketsIn (rs : List (RedemptionResult V)) : List V :=
  (rs.map RedemptionResult.asRef).filter (channelOf · = channelId)

/-- The tickets that the call has extracted from the queue of the channel. -/
def extractedIn : List V := ticketsIn channelOf channelId (results r.yielded)

/-- Those that have reached the caller. -/
def reportedIn : List V := ticketsIn channelOf channelId r.received

/-- Those that have not. -/
def lostIn : List V :=
  match r.output with
  | some (.ok _) => []
  | _ => r.extractedIn channelOf channelId

variable {r} {c : Collecting ε (RedemptionResult V)}

theorem ended_of_ok {rs : List (RedemptionResult V)} (hstate : r.state = .ok c)
    (hok : r.output = some (.ok rs)) : c.failed = none ∧ c.merged.group.Ended := by
  rw [output_of_ok hstate] at hok
  obtain ⟨result, hout, hresult⟩ := Option.map_eq_some_iff.1 hok
  have hf : c.failed = none := by
    by_contra hf
    obtain ⟨e, he⟩ := Option.ne_none_iff_exists'.1 hf
    unfold Collecting.output at hout
    rw [he] at hout
    cases hout
    cases hresult
  exact ⟨hf, Collecting.ended_of_output (by rw [hout]; rfl) hf⟩

theorem failed_of_error {err : ε} (hstate : r.state = .ok c)
    (herr : r.output = some (.error (.right err))) : c.failed = some err := by
  rw [output_of_ok hstate] at herr
  unfold Collecting.output at herr
  split at herr
  · next e hf =>
    cases herr
    exact hf
  · split at herr
    · cases herr
    · cases herr

theorem yielded_of_ok (hstate : r.state = .ok c) : r.yielded = c.merged.yielded := by
  unfold Redemption.yielded
  rw [hstate]

theorem yielded_of_error {err : η} (hstate : r.state = .error err) : r.yielded = [] := by
  unfold Redemption.yielded
  rw [hstate]

theorem output_of_error {err : η} (hstate : r.state = .error err) :
    r.output = some (.error (.left err)) := by
  unfold Redemption.output
  rw [hstate]

end Redemption

theorem ticketsIn_results {q : TicketQueues σ V} {channelId : ChannelId} {k : ℕ}
    {trace : List (ℕ × Except ε (RedemptionResult V))}
    (h : ∀ j result, (j, .ok result) ∈ trace →
      (q.channelId result.asRef = channelId ↔ j = k)) :
    Redemption.ticketsIn q.channelId channelId (results trace) = extracted (eventsOf k trace) := by
  induction trace with
  | nil => rfl
  | cons e trace ih =>
    have htail := ih fun j result hmem => h j result (List.mem_cons_of_mem _ hmem)
    obtain ⟨j, err | result⟩ := e
    · by_cases hj : j = k
      · subst hj
        rw [eventsOf_cons_self, extracted_error, ← htail]
        rfl
      · rw [eventsOf_cons_of_ne hj, ← htail]
        rfl
    · have hiff := h j result List.mem_cons_self
      have hcons : results ((j, .ok result) :: trace) = result :: results trace := rfl
      rw [hcons]
      unfold Redemption.ticketsIn at htail ⊢
      by_cases hj : j = k
      · subst hj
        rw [List.map_cons, List.filter_cons_of_pos (by simpa using hiff), htail, eventsOf_cons_self,
          extracted_ok]
      · rw [List.map_cons, List.filter_cons_of_neg (by simpa using fun h => hj (hiff.1 h)), htail,
          eventsOf_cons_of_ne hj]

def ListsOnce (client : ChainReadChannelOperations η) : Prop :=
  ∀ s channels, client.streamChannels s = .ok channels →
    (channels.map ChannelEntry.id).Nodup

theorem listsOnce_ofChannels (me : Address) {channels : List ChannelEntry}
    (h : (channels.map ChannelEntry.id).Nodup) :
    ListsOnce (.ofChannels η me channels) := by
  intro s listed hlisted
  cases hlisted
  exact h.sublist (List.filter_sublist.map _)

section Call

variable (nodeAddress : Address) {q : TicketQueues σ V}
  {tm : TicketManagement σ (ChainReadChannelOperations η) ε V} {call : RedeemCall η} (m : σ)

variable (tm) in
theorem nodup_opened (honce : ListsOnce call.chainApi) :
    ((call.redemption nodeAddress tm m).opened.map fun o => o.1.id).Nodup := by
  rcases call.redemption_cases nodeAddress tm m with ⟨err, hnone, -⟩ | ⟨s, channels, hlist, hopened, -⟩
  · rw [hnone]
    exact List.nodup_nil
  · have hsub := (offered_sublist channels (answers tm call.chainApi (some call.minValue) channels m)).map
      ChannelEntry.id
    rw [← hopened, List.map_map] at hsub
    exact (honce s channels hlist).sublist hsub

variable (tm) in
theorem index_eq (honce : ListsOnce call.chainApi) {i k : ℕ}
    (hi : i < (call.redemption nodeAddress tm m).opened.length)
    (hk : k < (call.redemption nodeAddress tm m).opened.length)
    (hid : (call.redemption nodeAddress tm m).opened[i].1.id =
      (call.redemption nodeAddress tm m).opened[k].1.id) : i = k := by
  have hnodup := nodup_opened nodeAddress tm m honce
  generalize (call.redemption nodeAddress tm m).opened = opened at *
  have hi' : i < (opened.map fun o => o.1.id).length := by rwa [List.length_map]
  have hk' : k < (opened.map fun o => o.1.id).length := by rwa [List.length_map]
  have hget : (opened.map fun o => o.1.id)[i] = (opened.map fun o => o.1.id)[k] := by
    rw [List.getElem_map, List.getElem_map, hid]
  exact hnodup.getElem_inj_iff.1 hget

variable (call) in
theorem streamOf_opened (hmanaged : q.Managed tm) :
    ∀ o ∈ (call.redemption nodeAddress tm m).opened,
      StreamOf q.value (some call.minValue) (q.queue m o.1.id) o.2 := by
  rcases call.redemption_cases nodeAddress tm m with ⟨err, hnone, -⟩ | ⟨s, channels, -, hopened, -⟩
  · rw [hnone]
    intro o ho
    cases ho
  · rw [hopened]
    exact hmanaged.streamOf_offered call.chainApi (some call.minValue) channels m

variable (tm call) in
theorem eventsOf_yielded_le (k : ℕ) :
    eventsOf k (call.redemption nodeAddress tm m).yielded <+:
      ((call.redemption nodeAddress tm m).opened[k]?.map Prod.snd).getD [] := by
  rcases call.redemption_cases nodeAddress tm m with ⟨err, -, hr⟩ | ⟨s, channels, -, -, hr⟩
  · rw [Redemption.yielded_of_error hr]
    exact List.nil_prefix
  · rw [Redemption.yielded_of_ok hr, ← List.getElem?_map, ← StreamGroup.stream_ofStreams]
    have htotal := (Collecting.sound_run
      (.ofStreams ((call.redemption nodeAddress tm m).opened.map Prod.snd)) call.sched).total k
    exact ⟨_, htotal⟩

variable {nodeAddress m}

/-- A call that has returned its results has driven every stream to its end, without an error. -/
theorem of_output_ok {rs : List (RedemptionResult V)}
    (hok : (call.redemption nodeAddress tm m).output = some (.ok rs)) :
    (call.redemption nodeAddress tm m).received = results (call.redemption nodeAddress tm m).yielded ∧
    ∀ (k : ℕ) (hk : k < (call.redemption nodeAddress tm m).opened.length),
      eventsOf k (call.redemption nodeAddress tm m).yielded =
        (call.redemption nodeAddress tm m).opened[k].2 ∧
      ∀ item ∈ (call.redemption nodeAddress tm m).opened[k].2, ∃ result, item = .ok result := by
  rcases call.redemption_cases nodeAddress tm m with ⟨err, -, hr⟩ | ⟨s, channels, -, -, hr⟩
  · rw [Redemption.output_of_error hr] at hok
    cases hok
  · set streams := (call.redemption nodeAddress tm m).opened.map Prod.snd with hstreams
    set c := Collecting.runFrom (.ofStreams streams) call.sched
    have hsound : Collecting.Sound (.ofStreams streams) c := Collecting.sound_run _ call.sched
    obtain ⟨hf, hend⟩ := Redemption.ended_of_ok hr hok
    rw [Redemption.yielded_of_ok hr]
    refine ⟨?_, fun k hk => ?_⟩
    · rw [received_of_ok hr, Collecting.delivered_of_ended hf hend, hsound.collected]
    · have hlength : c.merged.group.slots.length = streams.length := by
        rw [hsound.length, StreamGroup.length_ofStreams]
      have hgone : c.merged.group.stream k = none :=
        StreamGroup.ended_iff.1 hend k (by rwa [hlength, hstreams, List.length_map])
      have htotal := hsound.total k
      rw [Merged.total, hgone, Option.getD_none, List.append_nil, StreamGroup.stream_ofStreams,
        hstreams, List.getElem?_map, List.getElem?_eq_getElem hk, Option.map_some,
        Option.getD_some] at htotal
      refine ⟨htotal, fun item hitem => ?_⟩
      rw [← htotal] at hitem
      exact hsound.running hf _ (mem_eventsOf.1 hitem)

theorem received_of_not_ok {r : Redemption η ε V} (h : ∀ rs, r.output ≠ some (.ok rs)) :
    r.received = [] := by
  unfold Redemption.received
  split
  · next rs hout => exact absurd hout (h rs)
  · rfl

/-- **What a call has done in a channel**: nothing where no stream was opened, and else it has
extracted what a part of the stream, or the whole of it, extracts from the queue. -/
theorem channel_spec (hmanaged : q.Managed tm) (honce : ListsOnce call.chainApi)
    (channelId : ChannelId) :
    (∀ o ∈ (call.redemption nodeAddress tm m).opened, o.1.id ≠ channelId) ∧
      (call.redemption nodeAddress tm m).extractedIn q.channelId channelId = [] ∨
    ∃ (k : ℕ) (hk : k < (call.redemption nodeAddress tm m).opened.length),
      (call.redemption nodeAddress tm m).opened[k].1.id = channelId ∧
      StreamOf q.value (some call.minValue) (q.queue m channelId)
        (call.redemption nodeAddress tm m).opened[k].2 ∧
      (call.redemption nodeAddress tm m).extractedIn q.channelId channelId =
        extracted (eventsOf k (call.redemption nodeAddress tm m).yielded) := by
  have hstreams := streamOf_opened nodeAddress call m hmanaged
  have hyielded := eventsOf_yielded_le nodeAddress tm call m
  unfold Redemption.extractedIn
  set opened := (call.redemption nodeAddress tm m).opened
  set r := call.redemption nodeAddress tm m
  -- a result of the stream `j` is about the channel of that stream
  have hown : ∀ j result, (j, .ok result) ∈ r.yielded →
      ∃ hj : j < opened.length, q.channelId result.asRef = opened[j].1.id := by
    intro j result hmem
    have hmem' := (hyielded j).subset (mem_eventsOf.2 hmem)
    rcases Nat.lt_or_ge j opened.length with hj | hj
    · rw [List.getElem?_eq_getElem hj, Option.map_some, Option.getD_some] at hmem'
      exact ⟨hj, hmanaged.own m _ _ ((hstreams _ (List.getElem_mem hj)).mem_queue hmem')⟩
    · rw [List.getElem?_eq_none hj] at hmem'
      cases hmem'
  by_cases hex : ∃ (k : ℕ) (hk : k < opened.length), opened[k].1.id = channelId
  · right
    obtain ⟨k, hk, rfl⟩ := hex
    refine ⟨k, hk, rfl, hstreams _ (List.getElem_mem hk), ticketsIn_results fun j result hmem => ?_⟩
    obtain ⟨hj, hid⟩ := hown j result hmem
    rw [hid]
    constructor
    · exact fun heq => index_eq nodeAddress tm m honce hj hk heq
    · rintro rfl
      rfl
  · left
    refine ⟨fun o ho heq => ?_, ?_⟩
    · obtain ⟨k, hk, rfl⟩ := List.getElem_of_mem ho
      exact hex ⟨k, hk, heq⟩
    · rw [ticketsIn_results (k := opened.length)]
      · have hnone := hyielded opened.length
        rw [List.getElem?_eq_none le_rfl] at hnone
        rw [List.prefix_nil.1 hnone]
        rfl
      · intro j result hmem
        obtain ⟨hj, hid⟩ := hown j result hmem
        rw [hid]
        exact ⟨fun heq => absurd ⟨j, hj, heq⟩ hex, fun heq => by omega⟩

theorem extractedIn_le (hmanaged : q.Managed tm) (honce : ListsOnce call.chainApi)
    (channelId : ChannelId) :
    (call.redemption nodeAddress tm m).extractedIn q.channelId channelId <+: q.queue m channelId := by
  rcases channel_spec hmanaged honce channelId with ⟨-, hnone⟩ | ⟨k, hk, -, hstream, hextracted⟩
  · rw [hnone]
    exact List.nil_prefix
  · rw [hextracted]
    refine hstream.extracted_le ?_
    have hle := eventsOf_yielded_le nodeAddress tm call m k
    rwa [List.getElem?_eq_getElem hk, Option.map_some, Option.getD_some] at hle

theorem extractedIn_eq (channelOf : V → ChannelId) (channelId : ChannelId) :
    (call.redemption nodeAddress tm m).extractedIn channelOf channelId =
      (call.redemption nodeAddress tm m).reportedIn channelOf channelId ++
        (call.redemption nodeAddress tm m).lostIn channelOf channelId := by
  unfold Redemption.reportedIn Redemption.lostIn
  split
  · next rs hok =>
    rw [(of_output_ok hok).1, List.append_nil]
    rfl
  · next hnot =>
    rw [received_of_not_ok hnot]
    rfl

end Call

/-! ### The outcome of a call -/

/-- The tickets that the call has extracted have left the queues, and nothing else has happened to
them. -/
def Extracts (q : TicketQueues σ V) (r : Redemption η ε V) (m m' : σ) : Prop :=
  ∀ channelId, q.queue m' channelId =
    (q.queue m channelId).drop (r.extractedIn q.channelId channelId).length

section Outcome

variable {nodeAddress : Address} {q : TicketQueues σ V}
  {tm : TicketManagement σ (ChainReadChannelOperations η) ε V} {call : RedeemCall η} {m m' : σ}

/-- **A call takes the first tickets of a queue.** -/
theorem queue_eq_append (hmanaged : q.Managed tm) (honce : ListsOnce call.chainApi)
    (h : Extracts q (call.redemption nodeAddress tm m) m m') (channelId : ChannelId) :
    q.queue m channelId =
      (call.redemption nodeAddress tm m).extractedIn q.channelId channelId ++ q.queue m' channelId := by
  rw [h]
  exact (List.prefix_iff_eq_append.1 (extractedIn_le hmanaged honce channelId)).symm

theorem respects_of_yielded (hmanaged : q.Managed tm) {result : RedemptionResult V}
    (hresult : result ∈ results (call.redemption nodeAddress tm m).yielded) :
    result.Respects q.value (some call.minValue) := by
  obtain ⟨⟨k, item⟩, hmem, hitem⟩ := List.mem_filterMap.1 hresult
  rcases item with err | result'
  · cases hitem
  · cases hitem
    have hle := eventsOf_yielded_le nodeAddress tm call m k
    have hstream := hle.subset (mem_eventsOf.2 hmem)
    rcases Nat.lt_or_ge k (call.redemption nodeAddress tm m).opened.length with hk | hk
    · rw [List.getElem?_eq_getElem hk, Option.map_some, Option.getD_some] at hstream
      exact (streamOf_opened nodeAddress call m hmanaged _ (List.getElem_mem hk)).respects hstream
    · rw [List.getElem?_eq_none hk] at hstream
      cases hstream

theorem drained_of_ok (hmanaged : q.Managed tm) (honce : ListsOnce call.chainApi)
    {rs : List (RedemptionResult V)}
    (hok : (call.redemption nodeAddress tm m).output = some (.ok rs)) :
    ∀ o ∈ (call.redemption nodeAddress tm m).opened,
      Redemption.ticketsIn q.channelId o.1.id rs = q.queue m o.1.id ∧
      (call.redemption nodeAddress tm m).extractedIn q.channelId o.1.id = q.queue m o.1.id := by
  intro o ho
  have hrs : (call.redemption nodeAddress tm m).received = rs := by
    unfold Redemption.received
    rw [hok]
  obtain ⟨hreceived, hstreams⟩ := of_output_ok hok
  have hextracted : (call.redemption nodeAddress tm m).extractedIn q.channelId o.1.id =
      q.queue m o.1.id := by
    rcases channel_spec hmanaged honce o.1.id with ⟨hnone, -⟩ | ⟨k, hk, -, hstream, heq⟩
    · exact absurd rfl (hnone o ho)
    · obtain ⟨hevents, hclean⟩ := hstreams k hk
      rw [heq, hevents, hstream.extracted_eq hclean]
  refine ⟨?_, hextracted⟩
  rw [← hrs, hreceived]
  exact hextracted

/-- The ticket that has triggered the error of a call is still in its queue. -/
theorem left_of_error (hmanaged : q.Managed tm) (honce : ListsOnce call.chainApi) {err : ε}
    (herr : (call.redemption nodeAddress tm m).output = some (.error (.right err))) :
    ∃ o ∈ (call.redemption nodeAddress tm m).opened, .error err ∈ o.2 ∧
      ((call.redemption nodeAddress tm m).extractedIn q.channelId o.1.id).length <
        (q.queue m o.1.id).length := by
  -- the error is the last item that the call has met
  obtain ⟨k, hyielded⟩ : ∃ k, (k, .error err) ∈ (call.redemption nodeAddress tm m).yielded := by
    rcases call.redemption_cases nodeAddress tm m with ⟨e, -, hr⟩ | ⟨s, channels, -, -, hr⟩
    · rw [Redemption.output_of_error hr] at herr
      cases herr
    · set streams := (call.redemption nodeAddress tm m).opened.map Prod.snd
      set c := Collecting.runFrom (.ofStreams streams) call.sched
      have hsound : Collecting.Sound (.ofStreams streams) c := Collecting.sound_run _ call.sched
      obtain ⟨pre, k, hy, -⟩ := hsound.failed err (Redemption.failed_of_error hr herr)
      refine ⟨k, ?_⟩
      rw [Redemption.yielded_of_ok hr, hy]
      exact List.mem_append_right _ (List.mem_singleton_self _)
  have hle := eventsOf_yielded_le nodeAddress tm call m k
  have hmem := mem_eventsOf.2 hyielded
  have hstream := hle.subset hmem
  rcases Nat.lt_or_ge k (call.redemption nodeAddress tm m).opened.length with hk | hk
  · rw [List.getElem?_eq_getElem hk, Option.map_some, Option.getD_some] at hle hstream
    refine ⟨_, List.getElem_mem hk, hstream, ?_⟩
    rcases channel_spec hmanaged honce (call.redemption nodeAddress tm m).opened[k].1.id with
      ⟨hnone, -⟩ | ⟨i, hi, hid, hstreamOf, heq⟩
    · exact absurd rfl (hnone _ (List.getElem_mem hk))
    · obtain rfl : i = k := index_eq nodeAddress tm m honce hi hk hid
      rw [heq]
      exact hstreamOf.lt_of_error hle hmem
  · rw [List.getElem?_eq_none hk] at hstream
    cases hstream

/-- **The outcome of a redemption.** -/
theorem redemption_spec (hmanaged : q.Managed tm) (honce : ListsOnce call.chainApi)
    (h : Extracts q (call.redemption nodeAddress tm m) m m') :
    let r := call.redemption nodeAddress tm m
    -- it takes the first tickets of the queues in which it has opened a stream
    (∀ channelId, q.queue m channelId = r.extractedIn q.channelId channelId ++ q.queue m' channelId) ∧
    (∀ channelId, (∀ o ∈ r.opened, o.1.id ≠ channelId) →
      q.queue m' channelId = q.queue m channelId) ∧
    -- it neglects the tickets below the threshold, and redeems no such ticket
    (∀ result ∈ results r.yielded, result.Respects q.value (some call.minValue)) ∧
    -- it reports all tickets of the queues, and nothing is left of them, or a ticket has failed and
    -- is left
    (∀ rs, r.output = some (.ok rs) → ∀ o ∈ r.opened,
      Redemption.ticketsIn q.channelId o.1.id rs = q.queue m o.1.id ∧ q.queue m' o.1.id = []) ∧
    ∀ err, r.output = some (.error (.right err)) →
      ∃ o ∈ r.opened, .error err ∈ o.2 ∧ q.queue m' o.1.id ≠ [] := by
  refine ⟨fun channelId => queue_eq_append hmanaged honce h channelId, fun channelId hnone => ?_,
    fun result hresult => respects_of_yielded hmanaged hresult, fun rs hok o ho => ?_,
    fun err herr => ?_⟩
  · rcases channel_spec hmanaged honce channelId with ⟨-, hextracted⟩ | ⟨k, hk, hid, -⟩
    · rw [h, hextracted]
      rfl
    · exact absurd hid (hnone _ (List.getElem_mem hk))
  · obtain ⟨hreported, hextracted⟩ := drained_of_ok hmanaged honce hok o ho
    refine ⟨hreported, ?_⟩
    rw [h, hextracted, List.drop_length]
  · obtain ⟨o, ho, hmem, hlt⟩ := left_of_error hmanaged honce herr
    refine ⟨o, ho, hmem, fun hnil => ?_⟩
    rw [h, List.drop_eq_nil_iff] at hnil
    omega

/-- A call on a chain with one open incoming channel, of tickets that are worth 5. -/
def relayCall (sched : List ℕ) : RedeemCall Unit where
  chainApi :=
    .ofChannels Unit 2 [⟨1, 2, .open, 1⟩]
  issuer := none
  minValue := 5
  now := 0
  sched := sched

/-- A ticket that is worth 20 fails, as long as there are other ones. -/
abbrev relayManager : TicketManagement (List (ChannelId × HoprBalance))
    (ChainReadChannelOperations Unit) Unit (ChannelId × HoprBalance) :=
  queueManager _ fun m ticket => ticket.2 = 20 && 1 < m.length

theorem listsOnce_relayCall (sched : List ℕ) :
    ListsOnce (relayCall sched).chainApi := by
  exact listsOnce_ofChannels 2 (List.nodup_singleton _)

theorem extracts_relayCall :
    Extracts ticketList ((relayCall [0, 0, 0]).redemption 2 relayManager
      [(1, 10), (1, 3), (1, 20)]) [(1, 10), (1, 3), (1, 20)] [(1, 20)] := by
  intro channelId
  have hresults : results ((relayCall [0, 0, 0]).redemption 2 relayManager
      [(1, 10), (1, 3), (1, 20)]).yielded = [.redeemed (1, 10), .valueTooLow (1, 3)] := by decide
  unfold Redemption.extractedIn
  rw [hresults]
  by_cases hid : (1 : ChannelId) = channelId
  · subst hid
    decide
  · rw [queue_eq_nil (by simp) hid, queue_eq_nil (by simp) hid, List.drop_nil]

theorem redemption_spec_failing :
    let r := (relayCall [0, 0, 0]).redemption 2 relayManager [(1, 10), (1, 3), (1, 20)]
    r.output = some (.error (.right ())) ∧
    r.extractedIn Prod.fst 1 ++ [(1, 20)] = [(1, 10), (1, 3), (1, 20)] ∧
    ∃ o ∈ r.opened,
      .error () ∈ o.2 ∧ ticketList.queue [(1, 20)] o.1.id ≠ [] := by
  have hspec := redemption_spec (managed_queueManager _) (listsOnce_relayCall [0, 0, 0])
    extracts_relayCall
  have hout : ((relayCall [0, 0, 0]).redemption 2 relayManager [(1, 10), (1, 3), (1, 20)]).output =
      some (.error (.right ())) := by decide
  exact ⟨hout, (hspec.1 1).symm, hspec.2.2.2.2 () hout⟩

end Outcome

/-! ### Histories -/

section History

variable (nodeAddress : Address) (q : TicketQueues σ V)
  (tm : TicketManagement σ (ChainReadChannelOperations η) ε V)

/-- Redemptions one after the other, from one state of the ticket manager to another. -/
inductive History : σ → List (Redemption η ε V) → σ → Prop
  | nil (m : σ) : History m [] m
  | cons {m m' m'' : σ} {rs : List (Redemption η ε V)} (call : RedeemCall η)
      (honce : ListsOnce call.chainApi)
      (hcall : Extracts q (call.redemption nodeAddress tm m) m m') (h : History m' rs m'') :
      History m (call.redemption nodeAddress tm m :: rs) m''

variable {nodeAddress q tm} {m m' : σ}

theorem History.queue_eq_append (hmanaged : q.Managed tm) {rs : List (Redemption η ε V)}
    (h : History nodeAddress q tm m rs m') (channelId : ChannelId) :
    q.queue m channelId =
      rs.flatMap (·.extractedIn q.channelId channelId) ++ q.queue m' channelId := by
  induction h with
  | nil m => rfl
  | cons call honce hcall h ih =>
    rw [List.flatMap_cons, List.append_assoc, ← ih]
    exact Node.queue_eq_append hmanaged honce hcall channelId

/-- **Redemptions may fail and be repeated**: whatever the calls, together they take the tickets of a
channel once and in their order, and when a call with a stream in the channel has returned its
results, they have taken all of them. -/
theorem redemptions_in_order (hmanaged : q.Managed tm) {rs : List (Redemption η ε V)}
    (h : History nodeAddress q tm m rs m') (channelId : ChannelId) :
    q.queue m channelId =
      rs.flatMap (·.extractedIn q.channelId channelId) ++ q.queue m' channelId ∧
    ∀ (call : RedeemCall η) results, ListsOnce call.chainApi →
      (call.redemption nodeAddress tm m').output = some (.ok results) →
      (∃ o ∈ (call.redemption nodeAddress tm m').opened, o.1.id = channelId) →
      q.queue m channelId = rs.flatMap (·.extractedIn q.channelId channelId) ++
        Redemption.ticketsIn q.channelId channelId results := by
  have hqueue := h.queue_eq_append hmanaged channelId
  refine ⟨hqueue, ?_⟩
  rintro call results honce hok ⟨o, ho, rfl⟩
  rw [hqueue, (drained_of_ok hmanaged honce hok o ho).1]

/-- The first call fails at the third ticket, and the second one takes it. -/
theorem redemptions_in_order_failing :
    let r := (relayCall [0, 0, 0]).redemption 2 relayManager [(1, 10), (1, 3), (1, 20)]
    let r' := (relayCall [0, 0]).redemption 2 relayManager [(1, 20)]
    r.output = some (.error (.right ())) ∧ r'.output = some (.ok [.redeemed (1, 20)]) ∧
    ticketList.queue [(1, 10), (1, 3), (1, 20)] 1 = r.extractedIn Prod.fst 1 ++ [(1, 20)] ∧
    ticketList.queue [(1, 10), (1, 3), (1, 20)] 1 =
      r.extractedIn Prod.fst 1 ++ Redemption.ticketsIn Prod.fst 1 [.redeemed (1, 20)] := by
  intro r r'
  have hfailed : r.output = some (.error (.right ())) := by decide
  have hok : r'.output = some (.ok [.redeemed (1, 20)]) := by decide
  have hhistory : History 2 ticketList relayManager [(1, 10), (1, 3), (1, 20)] [r] [(1, 20)] :=
    .cons (relayCall [0, 0, 0]) (listsOnce_relayCall _) extracts_relayCall (.nil _)
  obtain ⟨hleft, hnext⟩ := redemptions_in_order (managed_queueManager _) hhistory 1
  rw [List.flatMap_singleton] at hleft hnext
  refine ⟨hfailed, hok, hleft, hnext (relayCall [0, 0]) _ (listsOnce_relayCall _) hok ?_⟩
  decide

end History

end HoprApi.Node
