import HoprApi.Tickets.Queues
import Mathlib.Algebra.BigOperators.Group.Multiset.Basic
import Mathlib.Logic.Function.Basic

/-!
# What comes into the queues and what leaves them

Redeem streams, insertions and neglections change the queues of a ticket manager one after the other,
and nothing else does.  They may come in any order, so a queue may change while a stream of it is
active; what has been neglected is then extracted no more.  Every change keeps the balance of a queue
(`QueueStep.balance`), and so does a history of them (`QueueHistory.balance`).
-/

namespace HoprApi.Tickets

open HoprApi.Rust HoprApi.Chain

variable {ι ε V : Type}

/-! ### Changes of a queue -/

/-- Inserts an incoming ticket at its place in the queue.  The tickets that it supersedes are
neglected, and returned before the queue. -/
def insertIncomingTicket (ticket : V) (place : ℕ) (superseded : V → Bool) (queue : List V) :
    List V × List V :=
  (queue.take place ++ ticket :: queue.drop place).partition superseded

/-- Neglects the tickets up to an index, or all of them, and returns them before the queue. -/
def neglectTickets (indexOf : V → BitVec 64) (maxTicketIndex : Option (BitVec 64))
    (queue : List V) : List V × List V :=
  queue.partition fun ticket => maxTicketIndex.all (indexOf ticket ≤ ·)

theorem coe_partition (p : V → Bool) (queue : List V) :
    ((queue.partition p).2 : Multiset V) + (queue.partition p).1 = queue := by
  rw [List.partition_eq_filter_filter, add_comm, Multiset.coe_add, Multiset.coe_eq_coe]
  exact List.filter_append_perm p queue

theorem insertIncomingTicket_balance (ticket : V) (place : ℕ) (superseded : V → Bool)
    (queue : List V) :
    let r := insertIncomingTicket ticket place superseded queue
    (r.2 : Multiset V) + r.1 = queue + {ticket} := by
  intro r
  have hplaced : ((queue.take place ++ ticket :: queue.drop place : List V) : Multiset V) =
      queue + {ticket} := by
    rw [← Multiset.coe_singleton, Multiset.coe_add, Multiset.coe_eq_coe]
    refine List.perm_middle.trans ?_
    rw [List.take_append_drop]
    exact (List.perm_append_singleton ticket queue).symm
  rw [← hplaced]
  exact coe_partition superseded _

theorem neglectTickets_balance (indexOf : V → BitVec 64) (maxTicketIndex : Option (BitVec 64))
    (queue : List V) :
    let r := neglectTickets indexOf maxTicketIndex queue
    (r.2 : Multiset V) + r.1 = queue :=
  coe_partition _ queue

/-! ### Changes of the queues -/

/-- A change of the queues, with what its caller gets: the tickets that were neglected, or the next
item of a redeem stream of the call `i`. -/
inductive QueueEvent (ι ε V : Type) where
  | inserted (ticket : V) (neglected : List V)
  | neglected (channelId : ChannelId) (tickets : List V)
  | yielded (i : ι) (item : ℕ × Except ε (RedemptionResult V))

namespace QueueEvent

variable (channelOf : V → ChannelId) (channelId : ChannelId)

def insertedIn : QueueEvent ι ε V → Multiset V
  | inserted ticket _ => if channelOf ticket = channelId then {ticket} else 0
  | _ => 0

def neglectedIn : QueueEvent ι ε V → Multiset V
  | inserted ticket tickets => if channelOf ticket = channelId then tickets else 0
  | neglected channelId' tickets => if channelId' = channelId then tickets else 0
  | yielded _ _ => 0

def extractedIn : QueueEvent ι ε V → Multiset V
  | yielded _ (_, .ok result) => if channelOf result.asRef = channelId then {result.asRef} else 0
  | _ => 0

end QueueEvent

theorem balance_update {queues : ChannelId → List V} {channelId : ChannelId} {queue : List V}
    {came left : Multiset V} (h : (queue : Multiset V) + left = queues channelId + came)
    (channelId' : ChannelId) :
    (queues channelId' : Multiset V) + (if channelId = channelId' then came else 0) =
      (Function.update queues channelId queue channelId' : Multiset V) +
        (if channelId = channelId' then left else 0) := by
  by_cases hid : channelId = channelId'
  · subst hid
    rw [if_pos rfl, if_pos rfl, Function.update_self, h]
  · rw [if_neg hid, if_neg hid, Function.update_of_ne (Ne.symm hid)]

section Ledger

variable [DecidableEq V] (channelOf : V → ChannelId) (indexOf : V → BitVec 64)

/-- What the ticket manager does to the queues. -/
inductive QueueStep :
    (ChannelId → List V) → QueueEvent ι ε V → (ChannelId → List V) → Prop
  | insert (queues : ChannelId → List V) (ticket : V) (place : ℕ) (superseded : V → Bool)
      {tickets queue : List V}
      (h : insertIncomingTicket ticket place superseded (queues (channelOf ticket)) =
        (tickets, queue)) :
      QueueStep queues (.inserted ticket tickets) (Function.update queues (channelOf ticket) queue)
  | neglect (queues : ChannelId → List V) (channelId : ChannelId)
      (maxTicketIndex : Option (BitVec 64)) {tickets queue : List V}
      (h : neglectTickets indexOf maxTicketIndex (queues channelId) = (tickets, queue)) :
      QueueStep queues (.neglected channelId tickets) (Function.update queues channelId queue)
  /-- A stream extracts a ticket that is still in its queue. -/
  | extract (queues : ChannelId → List V) (i : ι) (k : ℕ) (result : RedemptionResult V)
      (hmem : result.asRef ∈ queues (channelOf result.asRef)) :
      QueueStep queues (.yielded i (k, .ok result)) (Function.update queues
        (channelOf result.asRef) ((queues (channelOf result.asRef)).erase result.asRef))
  /-- The ticket that has triggered an error remains. -/
  | fail (queues : ChannelId → List V) (i : ι) (k : ℕ) (err : ε) :
      QueueStep queues (.yielded i (k, .error err)) queues

inductive QueueHistory :
    (ChannelId → List V) → List (QueueEvent ι ε V) → (ChannelId → List V) → Prop
  | nil (queues : ChannelId → List V) : QueueHistory queues [] queues
  | cons {queues queues' queues'' : ChannelId → List V} {e : QueueEvent ι ε V}
      {es : List (QueueEvent ι ε V)} (hstep : QueueStep channelOf indexOf queues e queues')
      (h : QueueHistory queues' es queues'') : QueueHistory queues (e :: es) queues''

variable {channelOf indexOf} {queues queues' : ChannelId → List V} {e : QueueEvent ι ε V}
  {es : List (QueueEvent ι ε V)}

/-- **A change of the queues balances**: what was in a queue or comes into it is still there, or is
extracted or neglected. -/
theorem QueueStep.balance (h : QueueStep channelOf indexOf queues e queues')
    (channelId : ChannelId) :
    (queues channelId : Multiset V) + e.insertedIn channelOf channelId =
      queues' channelId + (e.extractedIn channelOf channelId +
        e.neglectedIn channelOf channelId) := by
  cases h with
  | insert ticket place superseded h =>
    have hqueue := insertIncomingTicket_balance ticket place superseded (queues (channelOf ticket))
    rw [h] at hqueue
    exact (balance_update hqueue channelId).trans (congrArg _ (zero_add _).symm)
  | neglect channelId' maxTicketIndex h =>
    have hqueue := neglectTickets_balance indexOf maxTicketIndex (queues channelId')
    rw [h, ← add_zero (queues channelId' : Multiset V)] at hqueue
    have hbalance := balance_update hqueue channelId
    rw [ite_self] at hbalance
    exact hbalance.trans (congrArg _ (zero_add _).symm)
  | extract i k result hmem =>
    have hqueue : ((queues (channelOf result.asRef)).erase result.asRef : Multiset V) +
        {result.asRef} = queues (channelOf result.asRef) + 0 := by
      rw [add_zero, ← Multiset.coe_erase, add_comm, Multiset.singleton_add]
      exact Multiset.cons_erase hmem
    have hbalance := balance_update hqueue channelId
    rw [ite_self] at hbalance
    exact hbalance.trans (congrArg _ (add_zero _).symm)
  | fail i k err => rfl

/-- **A history of changes balances.** -/
theorem QueueHistory.balance (h : QueueHistory channelOf indexOf queues es queues')
    (channelId : ChannelId) :
    (queues channelId : Multiset V) + (es.map (·.insertedIn channelOf channelId)).sum =
      queues' channelId + ((es.map (·.extractedIn channelOf channelId)).sum +
        (es.map (·.neglectedIn channelOf channelId)).sum) := by
  induction h with
  | nil queues => rfl
  | cons hstep h ih =>
    have hbalance := hstep.balance channelId
    simp only [List.map_cons, List.sum_cons]
    rw [← add_assoc, hbalance, add_right_comm, ih]
    ac_rfl

end Ledger

end HoprApi.Tickets
