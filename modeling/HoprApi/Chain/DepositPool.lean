import HoprApi.Chain.Channels
import HoprApi.Lib.Join

/-!
# Batch operations of a deposit pool

The batch operations make one single-item call for each input and join the calls.  The calls run
concurrently against the state of the pool; `batches_report_every_item` says that, in whatever order
they take effect, every input gets the outcome of its own single call, in its own place.
-/

namespace HoprApi.Chain

open HoprApi.Lib.Schedule HoprApi.Lib.Join

/-! ### The single-item operations -/

/-- The arguments of `deposit_funds_to`. -/
structure DepositCall (I P D : Type) where
  id : I
  dst : P
  amount : HoprBalance
  additionalData : D

/-- The arguments of `withdraw_deposit`; no amount stands for the entire deposit. -/
structure WithdrawCall (I K : Type) where
  id : I
  key : K
  dst : Address
  amount : Option HoprBalance

/-- The arguments of `pool_transfer`; no amount stands for the entire deposit. -/
structure TransferCall (I K P D : Type) where
  srcId : I
  key : K
  dstId : I
  dst : P
  additionalDstData : D
  amount : Option HoprBalance

/-- The single-item operations of a pool with states `σ`, for deposits with ids `I`, keys `K`,
public keys `P` and pool-specific data `D`; they resolve to receipts `R` or errors `ε`. -/
structure DepositPool (σ I K P D ε R : Type) where
  depositFundsTo : DepositCall I P D → Fut σ (Except ε R)
  withdrawDeposit : WithdrawCall I K → Fut σ (Except ε R)
  poolTransfer : TransferCall I K P D → Fut σ (Except ε R)

/-! ### The batch operations -/

variable {σ κ I K P D ε R : Type}

abbrev BatchOutcomes (I ε R : Type) := List (Except ε (I × R))

/-- A batch in progress. -/
abbrev Batch (σ κ I ε R : Type) := JoinAll σ κ (Except ε R) (Except ε (I × R))

def Batch.returned (b : Batch σ κ I ε R) : Option (Except ε (BatchOutcomes I ε R)) :=
  b.output.map .ok

/-- `self.op(args).await.map(|receipt| (*id, receipt))` -/
def itemTask (id : I) (call : κ) : Task κ (Except ε R) (Except ε (I × R)) where
  call := call
  finish result := result.map fun receipt => (id, receipt)

section Batches

variable (pool : DepositPool σ I K P D ε R)

/-- Deposits to multiple deposit addresses: the batch that starts with the pool in the state `s`,
after the polls of `sched`. -/
def depositFundsToMultiple (deposits : List (I × P × HoprBalance × D)) (s : σ) (sched : List ℕ) :
    Batch σ (DepositCall I P D) I ε R :=
  JoinAll.runFrom pool.depositFundsTo
    (deposits.map fun (id, dst, amount, data) => itemTask id ⟨id, dst, amount, data⟩) s sched

/-- Full withdrawal of multiple deposits into a single address. -/
def withdrawMultipleDeposits (keys : List (I × K)) (dst : Address) (s : σ) (sched : List ℕ) :
    Batch σ (WithdrawCall I K) I ε R :=
  JoinAll.runFrom pool.withdrawDeposit
    (keys.map fun (id, key) => itemTask id ⟨id, key, dst, none⟩) s sched

/-- Full transfer of multiple deposits into a single deposit address; the outcomes are identified by
their source. -/
def poolTransferMultiple (keys : List (I × K)) (dstId : I) (dst : P) (additionalDstData : D) (s : σ)
    (sched : List ℕ) : Batch σ (TransferCall I K P D) I ε R :=
  JoinAll.runFrom pool.poolTransfer
    (keys.map fun (id, key) => itemTask id ⟨id, key, dstId, dst, additionalDstData, none⟩) s sched

end Batches

/-! ### What a batch reports -/

/-- The batch makes the calls of `items`, each with the id that its outcome names, through `op`, and
reports every one of them, once, in its own place. -/
structure ReportsEveryItem (batch : σ → List ℕ → Batch σ κ I ε R) (op : κ → Fut σ (Except ε R))
    (items : List (I × κ)) : Prop where
  /-- An item makes at most its own call. -/
  calls_le : ∀ s sched (k : ℕ) (hk : k < items.length),
    eventsOf k (batch s sched).calls <+: [items[k].2]
  /-- Nothing else makes a call. -/
  calls_only : ∀ s sched, ∀ e ∈ (batch s sched).calls, e.1 < items.length
  /-- A batch that has returned has `Ok` outcomes, one for each item. -/
  outcomes_ok : ∀ s sched r, (batch s sched).returned = some r →
    ∃ outcomes, r = .ok outcomes ∧ outcomes.length = items.length
  /-- The outcome of an item is the result of its single call, under its own id. -/
  outcome_own : ∀ s sched outcomes, (batch s sched).returned = some (.ok outcomes) →
    ∀ (k : ℕ) (hk : k < items.length) (ho : k < outcomes.length),
      eventsOf k (batch s sched).calls = [items[k].2] ∧
      ∃ result, (op items[k].2).feed (eventsOf k (batch s sched).seen) = .ready result ∧
        outcomes[k] = result.map fun receipt => (items[k].1, receipt)
  /-- The batch returns under every fair order of polls. -/
  returns : ∀ s sched, Fair items.length sched →
    ∃ N, ∀ M, N ≤ M → ∃ outcomes, (batch s (upTo sched M)).returned = some (.ok outcomes)

def itemTasks (items : List (I × κ)) : List (Task κ (Except ε R) (Except ε (I × R))) :=
  items.map fun i => itemTask i.1 i.2

theorem reportsEveryItem_joinAll (op : κ → Fut σ (Except ε R)) (items : List (I × κ)) :
    ReportsEveryItem (JoinAll.runFrom op (itemTasks items)) op items where
  calls_le s sched k hk := by
    have h := JoinAll.calls_le op s sched
      (show k < (itemTasks items).length by rwa [itemTasks, List.length_map])
    simp only [itemTasks, List.getElem_map] at h
    exact h
  calls_only s sched e he := by
    have h := JoinAll.call_index_lt op s sched he
    rwa [itemTasks, List.length_map] at h
  outcomes_ok s sched r h := by
    obtain ⟨outcomes, hout, rfl⟩ := Option.map_eq_some_iff.1 h
    refine ⟨outcomes, rfl, ?_⟩
    rw [(JoinAll.output_sound op s sched hout).1, itemTasks, List.length_map]
  outcome_own s sched outcomes h k hk ho := by
    obtain ⟨_, hout, heq⟩ := Option.map_eq_some_iff.1 h
    cases heq
    have hown := (JoinAll.output_sound op s sched hout).2 k
      (by rwa [itemTasks, List.length_map]) ho
    simp only [itemTasks, List.getElem_map] at hown
    exact hown
  returns s sched hfair := by
    obtain ⟨N, hN⟩ := JoinAll.resolves op (itemTasks items) s
      (by rwa [itemTasks, List.length_map])
    refine ⟨N, fun M hM => ?_⟩
    obtain ⟨outcomes, hout⟩ := hN M hM
    exact ⟨outcomes, by rw [Batch.returned, hout, Option.map_some]⟩

/-- **Batch operations report every item, once, in its own place.** -/
theorem batches_report_every_item (pool : DepositPool σ I K P D ε R)
    (deposits : List (I × P × HoprBalance × D)) (keys : List (I × K)) (dst : Address) (dstId : I)
    (dstKey : P) (data : D) :
    ReportsEveryItem (depositFundsToMultiple pool deposits) pool.depositFundsTo
      (deposits.map fun (id, dst, amount, data) => (id, ⟨id, dst, amount, data⟩)) ∧
    ReportsEveryItem (withdrawMultipleDeposits pool keys dst) pool.withdrawDeposit
      (keys.map fun (id, key) => (id, ⟨id, key, dst, none⟩)) ∧
    ReportsEveryItem (poolTransferMultiple pool keys dstId dstKey data) pool.poolTransfer
      (keys.map fun (id, key) => (id, ⟨id, key, dstId, dstKey, data, none⟩)) := by
  refine ⟨?_, ?_, ?_⟩
  · have h := reportsEveryItem_joinAll pool.depositFundsTo
      (deposits.map fun (id, dst, amount, data) => (id, ⟨id, dst, amount, data⟩))
    simp only [itemTasks, List.map_map] at h
    exact h
  · have h := reportsEveryItem_joinAll pool.withdrawDeposit
      (keys.map fun (id, key) => (id, ⟨id, key, dst, none⟩))
    simp only [itemTasks, List.map_map] at h
    exact h
  · have h := reportsEveryItem_joinAll pool.poolTransfer
      (keys.map fun (id, key) => (id, ⟨id, key, dstId, dstKey, data, none⟩))
    simp only [itemTasks, List.map_map] at h
    exact h

/-- A pool that fails for one destination and remembers the ids it has seen; the receipt of a
deposit is its amount. -/
def mockPool (failFor : ℕ) : DepositPool (List ℕ) ℕ ℕ ℕ Unit Unit HoprBalance where
  depositFundsTo call := .pending
    (fun _ => .ready (if call.dst = failFor then .error () else .ok call.amount))
    (fun seen => seen ++ [call.id])
  withdrawDeposit call := .pending
    (fun _ => .ready (if call.key = failFor then .error () else .ok 1))
    (fun seen => seen ++ [call.id])
  poolTransfer call := .pending
    (fun _ => .ready (if call.key = failFor then .error () else .ok 1))
    (fun seen => seen ++ [call.srcId])

/-- A failed deposit keeps the receipts of the others, whatever the order of completion; the batch
returns when its deposits are polled in turn. -/
theorem batches_report_every_item_failing :
    let batch := depositFundsToMultiple (mockPool 2) [(1, 1, 10, ()), (2, 2, 20, ()), (3, 3, 30, ())]
    (batch [] [2, 1, 0]).returned = some (.ok [.ok (1, 10), .error (), .ok (3, 30)]) ∧
    eventsOf 1 (batch [] [2, 1, 0]).calls = [⟨2, 2, 20, ()⟩] ∧
    ∃ N, ∀ M, N ≤ M → ∃ outcomes, (batch [] (upTo (· % 3) M)).returned = some (.ok outcomes) := by
  intro batch
  have hreturned : (batch [] [2, 1, 0]).returned =
      some (.ok [.ok (1, 10), .error (), .ok (3, 30)]) := by decide
  have hreports := (batches_report_every_item (mockPool 2)
    [(1, 1, 10, ()), (2, 2, 20, ()), (3, 3, 30, ())] [] 0 0 0 ()).1
  refine ⟨hreturned, ?_, hreports.returns [] _ (fair_roundRobin 3)⟩
  exact (hreports.outcome_own [] [2, 1, 0] _ hreturned 1 (by decide) (by decide)).1

end HoprApi.Chain
