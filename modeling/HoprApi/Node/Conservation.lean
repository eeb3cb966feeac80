import HoprApi.Node.RedeemHistory
import HoprApi.Tickets.Ledger
import Mathlib.Algebra.BigOperators.Fin

/-!
# Redemptions among other changes of the queues

Any number of redemptions may run at the same time, while tickets are inserted and neglected.  Each
call gets the items that its streams yield in the history of the queues.  What has left a queue was
neglected, is reported to the caller of a redemption, or is lost with a call that has not returned
its results (`redemptions_conserve`).  The history of a single call is what the manager promises for
it alone (`extracts_iff_history`).
-/

namespace HoprApi.Node

open HoprApi.Rust HoprApi.Chain HoprApi.Tickets HoprApi.Lib.Schedule HoprApi.Lib.Merge
  HoprApi.Lib.Collect

variable {ι σ η ε V : Type}

/-! ### The tickets of a channel -/

section Tickets

variable {channelOf : V → ChannelId}

theorem ticketsIn_cons_self (result : RedemptionResult V) (rs : List (RedemptionResult V)) :
    Redemption.ticketsIn channelOf (channelOf result.asRef) (result :: rs) =
      result.asRef :: Redemption.ticketsIn channelOf (channelOf result.asRef) rs := by
  unfold Redemption.ticketsIn
  rw [List.map_cons, List.filter_cons_of_pos (by simp)]

theorem ticketsIn_cons_of_ne {result : RedemptionResult V} {channelId : ChannelId}
    (hid : channelOf result.asRef ≠ channelId) (rs : List (RedemptionResult V)) :
    Redemption.ticketsIn channelOf channelId (result :: rs) =
      Redemption.ticketsIn channelOf channelId rs := by
  unfold Redemption.ticketsIn
  rw [List.map_cons, List.filter_cons_of_neg (by simpa using hid)]

theorem coe_ticketsIn_cons (channelId : ChannelId) (result : RedemptionResult V)
    (rs : List (RedemptionResult V)) :
    (Redemption.ticketsIn channelOf channelId (result :: rs) : Multiset V) =
      (if channelOf result.asRef = channelId then {result.asRef} else 0) +
        Redemption.ticketsIn channelOf channelId rs := by
  by_cases hid : channelOf result.asRef = channelId
  · subst hid
    rw [ticketsIn_cons_self, if_pos rfl, Multiset.singleton_add]
    rfl
  · rw [ticketsIn_cons_of_ne hid, if_neg hid, zero_add]

end Tickets

/-! ### The items of a call -/

section Items

variable [DecidableEq ι]

def itemOf? (i : ι) : QueueEvent ι ε V → Option (ℕ × Except ε (RedemptionResult V))
  | .yielded j item => if j = i then some item else none
  | _ => none

/-- The items that the call `i` gets in a history. -/
def itemsOf (i : ι) (es : List (QueueEvent ι ε V)) : List (ℕ × Except ε (RedemptionResult V)) :=
  es.filterMap (itemOf? i)

variable {channelOf : V → ChannelId} {channelId : ChannelId}

theorem ticketsIn_itemsOf_ok (i j : ι) (k : ℕ) (result : RedemptionResult V)
    (es : List (QueueEvent ι ε V)) :
    (Redemption.ticketsIn channelOf channelId
      (results (itemsOf i (.yielded j (k, .ok result) :: es))) : Multiset V) =
      (if i = j then if channelOf result.asRef = channelId then {result.asRef} else 0 else 0) +
        Redemption.ticketsIn channelOf channelId (results (itemsOf i es)) := by
  by_cases hi : i = j
  · subst hi
    have hitems : results (itemsOf i (.yielded i (k, .ok result) :: es)) =
        result :: results (itemsOf i es) := by
      simp only [itemsOf, itemOf?, List.filterMap_cons, if_true, results, Except.toOption]
    rw [hitems, coe_ticketsIn_cons, if_pos rfl]
  · have hitems : itemsOf i (.yielded j (k, .ok result) :: es) = itemsOf i es := by
      simp only [itemsOf, itemOf?, List.filterMap_cons, if_neg (Ne.symm hi)]
    rw [hitems, if_neg hi, zero_add]

theorem results_itemsOf_error (i j : ι) (k : ℕ) (err : ε) (es : List (QueueEvent ι ε V)) :
    results (itemsOf i (.yielded j (k, .error err) :: es)) = results (itemsOf i es) := by
  by_cases hi : j = i
  · simp only [itemsOf, itemOf?, List.filterMap_cons, if_pos hi, results, Except.toOption]
  · simp only [itemsOf, itemOf?, List.filterMap_cons, if_neg hi]

/-- **What the streams extract is what the calls get.** -/
theorem sum_extractedIn [Fintype ι] (es : List (QueueEvent ι ε V)) :
    (es.map (·.extractedIn channelOf channelId)).sum =
      ∑ i, (Redemption.ticketsIn channelOf channelId (results (itemsOf i es)) : Multiset V) := by
  induction es with
  | nil => exact (Finset.sum_const_zero).symm
  | cons e es ih =>
    rw [List.map_cons, List.sum_cons, ih]
    cases e with
    | inserted ticket tickets => exact zero_add _
    | neglected channelId' tickets => exact zero_add _
    | yielded j item =>
      obtain ⟨k, err | result⟩ := item
      · simp only [results_itemsOf_error]
        exact zero_add _
      · simp only [ticketsIn_itemsOf_ok]
        rw [Finset.sum_add_distrib, Fintype.sum_ite_eq' j]
        rfl

end Items

/-! ### The history of one call -/

section Single

variable {channelOf : V → ChannelId} {indexOf : V → BitVec 64}
  {queues queues' : ChannelId → List V}

/-- The first of some results takes the first ticket of its queue, and the others go on with the
rest. -/
theorem exists_front {result : RedemptionResult V} {rs : List (RedemptionResult V)}
    (hle : ∀ channelId,
      Redemption.ticketsIn channelOf channelId (result :: rs) <+: queues channelId) :
    ∃ rest, queues (channelOf result.asRef) = result.asRef :: rest ∧
      ∀ channelId, Redemption.ticketsIn channelOf channelId rs <+:
        Function.update queues (channelOf result.asRef) rest channelId := by
  have hfront := hle (channelOf result.asRef)
  rw [ticketsIn_cons_self] at hfront
  rcases hqueue : queues (channelOf result.asRef) with _ | ⟨ticket, rest⟩
  · rw [hqueue] at hfront
    cases List.prefix_nil.1 hfront
  · rw [hqueue] at hfront
    obtain ⟨rfl, hrest⟩ := List.cons_prefix_cons.1 hfront
    refine ⟨rest, rfl, fun channelId => ?_⟩
    by_cases hid : channelOf result.asRef = channelId
    · subst hid
      rwa [Function.update_self]
    · rw [Function.update_of_ne (Ne.symm hid), ← ticketsIn_cons_of_ne hid]
      exact hle channelId

/-- Dropping the tickets of the others from the rest drops those of all of them. -/
theorem drop_update {result : RedemptionResult V} {rs : List (RedemptionResult V)} {rest : List V}
    (hqueue : queues (channelOf result.asRef) = result.asRef :: rest) (channelId : ChannelId) :
    (Function.update queues (channelOf result.asRef) rest channelId).drop
        (Redemption.ticketsIn channelOf channelId rs).length =
      (queues channelId).drop
        (Redemption.ticketsIn channelOf channelId (result :: rs)).length := by
  by_cases hid : channelOf result.asRef = channelId
  · subst hid
    rw [Function.update_self, ticketsIn_cons_self, hqueue]
    rfl
  · rw [Function.update_of_ne (Ne.symm hid), ticketsIn_cons_of_ne hid]

variable [DecidableEq V]

/-- Items that have their tickets from the fronts of the queues extract these. -/
theorem history_yielded_iff (i : ι) {items : List (ℕ × Except ε (RedemptionResult V))}
    (hle : ∀ channelId,
      Redemption.ticketsIn channelOf channelId (results items) <+: queues channelId) :
    QueueHistory channelOf indexOf queues (items.map (.yielded i)) queues' ↔
      ∀ channelId, queues' channelId = (queues channelId).drop
        (Redemption.ticketsIn channelOf channelId (results items)).length := by
  induction items generalizing queues with
  | nil =>
    constructor
    · rintro ⟨⟩ channelId
      rfl
    · intro h
      obtain rfl : queues = queues' := funext fun channelId => (h channelId).symm
      exact .nil queues
  | cons item items ih =>
    obtain ⟨k, err | result⟩ := item
    · have hresults : results ((k, .error err) :: items) = results items := rfl
      rw [hresults] at hle ⊢
      rw [← ih hle, List.map_cons]
      constructor
      · rintro (_ | ⟨⟨⟩, h⟩)
        exact h
      · exact .cons (.fail queues i k err)
    · have hresults : results ((k, .ok result) :: items) = result :: results items := rfl
      rw [hresults] at hle ⊢
      obtain ⟨rest, hqueue, hrest⟩ := exists_front hle
      have hmem : result.asRef ∈ queues (channelOf result.asRef) := by
        rw [hqueue]
        exact List.mem_cons_self
      have herase : (queues (channelOf result.asRef)).erase result.asRef = rest := by
        rw [hqueue, List.erase_cons_head]
      have hnext := ih hrest
      simp only [drop_update hqueue] at hnext
      rw [← hnext, List.map_cons]
      constructor
      · rintro (_ | ⟨⟨⟩, h⟩)
        rwa [herase] at h
      · intro h
        refine .cons (.extract queues i k result hmem) ?_
        rwa [herase]

/-- **A redemption that runs alone** is a history of its own items: it extracts what the manager
promises. -/
theorem extracts_iff_history {q : TicketQueues σ V}
    {tm : TicketManagement σ (ChainReadChannelOperations η) ε V} {nodeAddress : Address}
    {call : RedeemCall η} {m m' : σ} (hmanaged : q.Managed tm) (honce : ListsOnce call.chainApi)
    (indexOf : V → BitVec 64) (i : ι) :
    Extracts q (call.redemption nodeAddress tm m) m m' ↔
      QueueHistory q.channelId indexOf (q.queue m)
        ((call.redemption nodeAddress tm m).yielded.map (.yielded i)) (q.queue m') :=
  (history_yielded_iff i (extractedIn_le hmanaged honce)).symm

end Single

/-! ### Conservation -/

/-- **No ticket is lost or doubled among redemptions that run at the same time**, unless with a call
that has not returned its results: tickets that were different at first are reported at most once,
and those that are reported are in the queue no more. -/
theorem redemptions_conserve [Fintype ι] [DecidableEq ι] [DecidableEq V] (nodeAddress : Address)
    (tm : TicketManagement σ (ChainReadChannelOperations η) ε V) (calls : ι → RedeemCall η)
    (found : ι → σ) {channelOf : V → ChannelId} {indexOf : V → BitVec 64}
    {queues queues' : ChannelId → List V} {es : List (QueueEvent ι ε V)}
    (h : QueueHistory channelOf indexOf queues es queues')
    (hyields : ∀ i, itemsOf i es = ((calls i).redemption nodeAddress tm (found i)).yielded)
    (channelId : ChannelId) :
    let r := fun i => (calls i).redemption nodeAddress tm (found i)
    let inserted := (es.map (·.insertedIn channelOf channelId)).sum
    let reported := ∑ i, ((r i).reportedIn channelOf channelId : Multiset V)
    let lost := ∑ i, ((r i).lostIn channelOf channelId : Multiset V)
    let neglected := (es.map (·.neglectedIn channelOf channelId)).sum
    (queues channelId : Multiset V) + inserted =
      queues' channelId + (reported + lost + neglected) ∧
    ((∀ i, ∃ rs, (r i).output = some (.ok rs)) → lost = 0) ∧
    (((queues channelId : Multiset V) + inserted).Nodup →
      (reported + lost + neglected).Nodup ∧
      ∀ ticket ∈ reported, ticket ∉ queues' channelId ∧ ticket ∉ lost ∧ ticket ∉ neglected) := by
  intro r inserted reported lost neglected
  have hextracted : (es.map (·.extractedIn channelOf channelId)).sum = reported + lost := by
    rw [sum_extractedIn, ← Finset.sum_add_distrib]
    refine Finset.sum_congr rfl fun i _ => ?_
    rw [hyields, Multiset.coe_add, ← extractedIn_eq]
    rfl
  have hbalance : (queues channelId : Multiset V) + inserted =
      queues' channelId + (reported + lost + neglected) := by
    rw [← hextracted]
    exact h.balance channelId
  refine ⟨hbalance, fun hok => Finset.sum_eq_zero fun i _ => ?_, fun hnodup => ?_⟩
  · obtain ⟨rs, hout⟩ := hok i
    unfold Redemption.lostIn
    rw [hout]
    rfl
  · rw [hbalance, Multiset.nodup_add] at hnodup
    obtain ⟨-, hrest, hdisjoint⟩ := hnodup
    refine ⟨hrest, fun ticket hticket => ⟨?_, ?_, ?_⟩⟩
    · intro hqueue
      have hmem : ticket ∈ reported + lost + neglected :=
        Multiset.mem_add.2 (Or.inl (Multiset.mem_add.2 (Or.inl hticket)))
      exact Multiset.disjoint_left.1 hdisjoint (Multiset.mem_coe.2 hqueue) hmem
    · have hlost := (Multiset.nodup_add.1 (Multiset.nodup_add.1 hrest).1).2.2
      exact Multiset.disjoint_left.1 hlost hticket
    · have hneglected := (Multiset.nodup_add.1 hrest).2.2
      exact Multiset.disjoint_left.1 hneglected (Multiset.mem_add.2 (Or.inl hticket))

/-- The index of a ticket is its value. -/
abbrev ticketIndex (ticket : ChannelId × HoprBalance) : BitVec 64 := ticket.2.setWidth 64

/-- Two calls that run at the same time.  While the first one is at its second ticket, a ticket is
inserted that the second call redeems; the third ticket is neglected and fails for the first call. -/
def interleaved : List (QueueEvent Bool Unit (ChannelId × HoprBalance)) :=
  [.yielded true (0, .ok (.redeemed (1, 10))), .inserted (1, 40) [],
    .yielded true (0, .ok (.valueTooLow (1, 3))), .yielded false (0, .ok (.redeemed (1, 40))),
    .neglected 1 [(1, 20)], .yielded true (0, .error ())]

theorem history_interleaved : ∃ queues',
    QueueHistory Prod.fst ticketIndex (ticketList.queue [(1, 10), (1, 3), (1, 20)]) interleaved
      queues' ∧ queues' 1 = [] :=
  ⟨_, .cons (.extract _ _ _ _ (by decide))
    (.cons (.insert _ _ 3 (fun _ => false) (show _ = ([], [(1, 3), (1, 20), (1, 40)]) by decide))
    (.cons (.extract _ _ _ _ (by decide))
    (.cons (.extract _ _ _ _ (by decide))
    (.cons (.neglect _ _ (some 20) (show _ = ([(1, 20)], []) by decide))
    (.cons (.fail _ _ _ _) (.nil _)))))), by decide⟩

/-- The first call loses what it has extracted, and the second one reports its ticket. -/
theorem redemptions_conserve_interleaved :
    let r := fun first : Bool => (relayCall [0, 0, 0]).redemption 2 relayManager
      (if first then [(1, 10), (1, 3), (1, 20)] else [(1, 40)])
    let reported : Multiset (ChannelId × HoprBalance) := ∑ i, (r i).reportedIn Prod.fst 1
    let lost : Multiset (ChannelId × HoprBalance) := ∑ i, (r i).lostIn Prod.fst 1
    {(1, 10), (1, 3), (1, 20)} + {(1, 40)} = 0 + (reported + lost + {(1, 20)}) ∧
    reported = {(1, 40)} ∧ (1, 40) ∉ lost := by
  intro r reported lost
  obtain ⟨queues', hhistory, hnil⟩ := history_interleaved
  have hyields : ∀ i, itemsOf i interleaved = (r i).yielded := by decide
  obtain ⟨hbalance, -, hdistinct⟩ := redemptions_conserve 2 relayManager
    (fun _ => relayCall [0, 0, 0])
    (fun first : Bool => if first then [(1, 10), (1, 3), (1, 20)] else [(1, 40)]) hhistory hyields 1
  have hreported : reported = {(1, 40)} := by decide
  rw [hnil] at hbalance
  refine ⟨hbalance, hreported, ?_⟩
  have hmem : (1, 40) ∈ reported := by
    rw [hreported]
    exact Multiset.mem_singleton_self _
  exact ((hdistinct (by decide)).2 (1, 40) hmem).2.1

end HoprApi.Node
