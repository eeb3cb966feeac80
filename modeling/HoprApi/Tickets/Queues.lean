import HoprApi.Tickets.Management

/-!
# The queues of redeemable tickets

A ticket manager keeps the redeemable tickets of each channel in a queue.  A redeem stream extracts
the tickets of its channel in the order of the queue, until the queue is drained or an error ends
the stream; the ticket of the error stays in the queue (`StreamOf`).  A part of a stream has
therefore extracted the first tickets of the queue, and the whole of one without an error has
extracted them all.
-/

namespace HoprApi.Tickets

open HoprApi.Rust HoprApi.Chain

variable {σ η ε V C : Type}

/-! ### Streams of a queue -/

def RedemptionResult.asRef : RedemptionResult V → V
  | redeemed ticket => ticket
  | valueTooLow ticket => ticket
  | rejectedOnChain ticket _ => ticket

def extracted (items : List (Except ε (RedemptionResult V))) : List V :=
  items.filterMap fun item => item.toOption.map RedemptionResult.asRef

/-- A ticket is redeemed only if it is worth the threshold, and neglected for its value only if it is
not. -/
def RedemptionResult.Respects (value : V → HoprBalance) (minAmount : Option HoprBalance) :
    RedemptionResult V → Prop
  | redeemed ticket => ∀ amount, minAmount = some amount → amount ≤ value ticket
  | valueTooLow ticket => ∃ amount, minAmount = some amount ∧ value ticket < amount
  | rejectedOnChain _ _ => True

/-- What a redeem stream yields for a queue. -/
inductive StreamOf (value : V → HoprBalance) (minAmount : Option HoprBalance) :
    List V → RedeemStream ε V → Prop
  | drained : StreamOf value minAmount [] []
  /-- The first ticket is extracted, and the stream goes on with the next one. -/
  | extracts (result : RedemptionResult V) {queue : List V} {stream : RedeemStream ε V}
      (hresult : result.Respects value minAmount) (h : StreamOf value minAmount queue stream) :
      StreamOf value minAmount (result.asRef :: queue) (.ok result :: stream)
  /-- A processing error ends the stream; the ticket that triggered it remains. -/
  | fails (err : ε) (ticket : V) (queue : List V) :
      StreamOf value minAmount (ticket :: queue) [.error err]

section Streams

variable {value : V → HoprBalance} {minAmount : Option HoprBalance} {queue : List V}
  {items stream : RedeemStream ε V}

@[simp] theorem extracted_nil : extracted ([] : RedeemStream ε V) = [] := rfl

@[simp] theorem extracted_ok (result : RedemptionResult V) (items : RedeemStream ε V) :
    extracted (.ok result :: items) = result.asRef :: extracted items := rfl

@[simp] theorem extracted_error (err : ε) (items : RedeemStream ε V) :
    extracted (.error err :: items) = extracted items := rfl

namespace StreamOf

/-- **A part of a stream has extracted the first tickets of the queue.** -/
theorem extracted_le (h : StreamOf value minAmount queue stream) (hitems : items <+: stream) :
    extracted items <+: queue := by
  induction h generalizing items with
  | drained =>
    rw [List.prefix_nil.1 hitems]
    exact List.nil_prefix
  | extracts result hresult h ih =>
    rcases items with _ | ⟨item, items⟩
    · exact List.nil_prefix
    · obtain ⟨rfl, hrest⟩ := List.cons_prefix_cons.1 hitems
      exact List.cons_prefix_cons.2 ⟨rfl, ih hrest⟩
  | fails err ticket queue =>
    rcases items with _ | ⟨item, items⟩
    · exact List.nil_prefix
    · obtain ⟨rfl, hrest⟩ := List.cons_prefix_cons.1 hitems
      rw [List.prefix_nil.1 hrest]
      exact List.nil_prefix

theorem extracted_eq (h : StreamOf value minAmount queue stream)
    (hok : ∀ item ∈ stream, ∃ result, item = .ok result) : extracted stream = queue := by
  induction h with
  | drained => rfl
  | extracts result hresult h ih =>
    rw [extracted_ok, ih fun item hitem => hok item (List.mem_cons_of_mem _ hitem)]
  | fails err ticket queue =>
    obtain ⟨result, hresult⟩ := hok _ (List.mem_singleton_self _)
    cases hresult

/-- A part of a stream that has met an error has left a ticket in the queue. -/
theorem lt_of_error (h : StreamOf value minAmount queue stream) (hitems : items <+: stream)
    {err : ε} (herr : .error err ∈ items) : (extracted items).length < queue.length := by
  induction h generalizing items with
  | drained =>
    rw [List.prefix_nil.1 hitems] at herr
    cases herr
  | extracts result hresult h ih =>
    rcases items with _ | ⟨item, items⟩
    · cases herr
    · obtain ⟨rfl, hrest⟩ := List.cons_prefix_cons.1 hitems
      have hlt := ih hrest ((List.mem_cons.1 herr).resolve_left fun h => by cases h)
      rw [extracted_ok, List.length_cons, List.length_cons]
      omega
  | fails err' ticket queue =>
    rcases items with _ | ⟨item, items⟩
    · cases herr
    · obtain ⟨rfl, hrest⟩ := List.cons_prefix_cons.1 hitems
      rw [List.prefix_nil.1 hrest, extracted_error, extracted_nil, List.length_nil,
        List.length_cons]
      omega

theorem respects (h : StreamOf value minAmount queue stream) {result : RedemptionResult V}
    (hresult : .ok result ∈ stream) : result.Respects value minAmount := by
  induction h with
  | drained => cases hresult
  | extracts result' hresult' h ih =>
    rcases List.mem_cons.1 hresult with heq | hmem
    · cases heq
      exact hresult'
    · exact ih hmem
  | fails err ticket queue =>
    cases List.mem_singleton.1 hresult

theorem mem_queue (h : StreamOf value minAmount queue stream) {result : RedemptionResult V}
    (hresult : .ok result ∈ stream) : result.asRef ∈ queue :=
  (h.extracted_le List.prefix_rfl).subset
    (List.mem_filterMap.2 ⟨.ok result, hresult, rfl⟩)

end StreamOf

end Streams

/-! ### Managers with queues -/

/-- The redeemable tickets of the channels, in a state of the manager; a ticket knows its channel and
its value. -/
structure TicketQueues (σ V : Type) where
  queue : σ → ChannelId → List V
  channelId : V → ChannelId
  value : V → HoprBalance

/-- What `TicketManagement` asks of an implementation: the tickets of a queue are those of its
channel, a redeem stream is one of the queue, and opening it extracts nothing. -/
structure TicketQueues.Managed (q : TicketQueues σ V) (tm : TicketManagement σ C ε V) : Prop where
  own : ∀ m channelId, ∀ ticket ∈ q.queue m channelId, q.channelId ticket = channelId
  stream : ∀ client channelId minAmount m stream m',
    tm.redeemStream client channelId minAmount m = (.ok stream, m') →
      StreamOf q.value minAmount (q.queue m channelId) stream
  opening : ∀ client channelId minAmount m channelId',
    q.queue (tm.redeemStream client channelId minAmount m).2 channelId' = q.queue m channelId'

section Managed

variable {q : TicketQueues σ V}
  {tm : TicketManagement σ (ChainReadChannelOperations η) ε V}

/-- **Each of the streams that were offered is one of the queue of its channel.** -/
theorem TicketQueues.Managed.streamOf_offered (h : q.Managed tm)
    (client : ChainReadChannelOperations η) (minAmount : Option HoprBalance)
    (channels : List ChannelEntry) (m : σ) :
    ∀ opened ∈ offered channels (answers tm client minAmount channels m),
      StreamOf q.value minAmount (q.queue m opened.1.id) opened.2 := by
  induction channels generalizing m with
  | nil =>
    intro opened hopened
    cases hopened
  | cons channel channels ih =>
    intro opened hopened
    have htail := ih (tm.redeemStream client channel.id minAmount m).2
    simp only [h.opening] at htail
    rcases hans : tm.redeemStream client channel.id minAmount m with ⟨err | stream, m'⟩
    · simp only [answers, offered, hans, List.zip_cons_cons, List.filterMap_cons, Except.toOption,
        Option.map_none] at hopened htail
      exact htail opened hopened
    · simp only [answers, offered, hans, List.zip_cons_cons, List.filterMap_cons, Except.toOption,
        Option.map_some, List.mem_cons] at hopened htail
      rcases hopened with rfl | hopened
      · exact h.stream _ _ _ _ _ _ hans
      · exact htail opened hopened

end Managed

/-! ### A manager -/

/-- A redeem stream of the queue, with errors for the tickets that fail. -/
def processQueue (value : V → HoprBalance) (fails : V → Bool) (minAmount : Option HoprBalance) :
    List V → RedeemStream Unit V
  | [] => []
  | ticket :: queue =>
    if fails ticket then [.error ()]
    else if value ticket < minAmount.getD 0 then
      .ok (.valueTooLow ticket) :: processQueue value fails minAmount queue
    else .ok (.redeemed ticket) :: processQueue value fails minAmount queue

theorem streamOf_processQueue (value : V → HoprBalance) (fails : V → Bool)
    (minAmount : Option HoprBalance) (queue : List V) :
    StreamOf value minAmount queue (processQueue value fails minAmount queue) := by
  induction queue with
  | nil => exact .drained
  | cons ticket queue ih =>
    unfold processQueue
    split
    · exact .fails () ticket queue
    · split
      · next hlow =>
        refine .extracts (.valueTooLow ticket) ?_ ih
        rcases minAmount with _ | amount
        · exact absurd hlow (by simp)
        · exact ⟨amount, rfl, hlow⟩
      · next hlow =>
        refine .extracts (.redeemed ticket) ?_ ih
        rintro amount rfl
        exact BitVec.not_lt.1 hlow

/-- Tickets that are pairs of their channel and their value, in one list. -/
def ticketList : TicketQueues (List (ChannelId × HoprBalance)) (ChannelId × HoprBalance) where
  queue m channelId := m.filter fun ticket => ticket.1 = channelId
  channelId := Prod.fst
  value := Prod.snd

theorem queue_eq_nil {m : List (ChannelId × HoprBalance)} {channelId channelId' : ChannelId}
    (h : ∀ ticket ∈ m, ticket.1 = channelId) (hne : channelId ≠ channelId') :
    ticketList.queue m channelId' = [] :=
  List.filter_eq_nil_iff.2 fun ticket hticket => by simpa [h ticket hticket] using hne

/-- The manager of a list of tickets, some of which fail. -/
def queueManager (C : Type)
    (fails : List (ChannelId × HoprBalance) → ChannelId × HoprBalance → Bool) :
    TicketManagement (List (ChannelId × HoprBalance)) C Unit (ChannelId × HoprBalance) where
  redeemStream _ channelId minAmount m :=
    (.ok (processQueue Prod.snd (fails m) minAmount (ticketList.queue m channelId)), m)

theorem managed_queueManager
    (fails : List (ChannelId × HoprBalance) → ChannelId × HoprBalance → Bool) :
    ticketList.Managed (queueManager C fails) where
  own m channelId ticket hticket := of_decide_eq_true (List.mem_filter.1 hticket).2
  stream client channelId minAmount m stream m' h := by
    cases h
    exact streamOf_processQueue _ _ _ _
  opening _ _ _ _ _ := rfl

end HoprApi.Tickets
