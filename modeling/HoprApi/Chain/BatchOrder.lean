import HoprApi.Chain.DepositPool
import HoprApi.Lib.Linearize

/-!
# The order of the calls of a batch

A pool whose single-item operations are atomic runs a batch as if its calls were made one after
another, in the order in which they take effect; a batch that is dropped has made a part of them
(`batches_serializable`).  So the concurrent batch agrees with the plain loop over its items where
their calls commute.
-/

namespace HoprApi.Chain

open HoprApi.Lib.Schedule HoprApi.Lib.Join

variable {σ κ I K P D ε R : Type}

/-- Each single-item operation takes effect at one moment: it resolves to the result, and leaves the
state of the pool, that the function gives for the state at that moment. -/
structure DepositPool.Atomic (pool : DepositPool σ I K P D ε R)
    (deposit : DepositCall I P D → σ → Except ε R × σ)
    (withdraw : WithdrawCall I K → σ → Except ε R × σ)
    (transfer : TransferCall I K P D → σ → Except ε R × σ) : Prop where
  deposit : ∀ call, (pool.depositFundsTo call).Atomic (deposit call)
  withdraw : ∀ call, (pool.withdrawDeposit call).Atomic (withdraw call)
  transfer : ∀ call, (pool.poolTransfer call).Atomic (transfer call)

/-- The batch of `items` is as good as their calls made one after another. -/
structure Serializable (batch : σ → List ℕ → Batch σ κ I ε R) (apply : κ → σ → Except ε R × σ)
    (items : List (I × κ)) : Prop where
  /-- At any time, also when the batch is dropped, some of the calls have been made. -/
  shared : ∀ s sched, ∃ order, Selects (items.map Prod.snd) order ∧
    (batch s sched).shared = (inTurn apply order s).2
  /-- A batch that has returned has made all of them, and reports their results. -/
  outcomes : ∀ s sched outcomes, (batch s sched).returned = some (.ok outcomes) →
    ∃ order, order.Perm (indexed (items.map Prod.snd)) ∧
      (batch s sched).shared = (inTurn apply order s).2 ∧
      ∀ (k : ℕ) outcome item, outcomes[k]? = some outcome → items[k]? = some item →
        ∃ result, (k, result) ∈ (inTurn apply order s).1 ∧
          outcome = result.map fun receipt => (item.1, receipt)
  /-- Calls that commute are made as the loop over the items makes them. -/
  loop : (items.map Prod.snd).Pairwise (fun call call' => Commute (apply call) (apply call')) →
    ∀ s sched outcomes, (batch s sched).returned = some (.ok outcomes) →
      (batch s sched).shared = (loop apply (items.map Prod.snd) s).2 ∧
      outcomes = List.zipWith (fun item result => result.map fun receipt => (item.1, receipt)) items
        (loop apply (items.map Prod.snd) s).1

theorem call_itemTasks (ε R : Type) (items : List (I × κ)) :
    (itemTasks items : List (Task κ (Except ε R) _)).map (·.call) = items.map Prod.snd := by
  rw [itemTasks, List.map_map]
  rfl

theorem serializable_joinAll {op : κ → Fut σ (Except ε R)} {apply : κ → σ → Except ε R × σ}
    (hatomic : ∀ call, (op call).Atomic (apply call)) (items : List (I × κ)) :
    Serializable (JoinAll.runFrom op (itemTasks items)) apply items where
  shared s sched := by
    obtain ⟨order, hserial⟩ := JoinAll.serial_run hatomic (itemTasks items) s sched
    have hselects := hserial.selects
    rw [call_itemTasks] at hselects
    exact ⟨order, hselects, hserial.shared⟩
  outcomes s sched outcomes h := by
    obtain ⟨_, hout, heq⟩ := Option.map_eq_some_iff.1 h
    cases heq
    obtain ⟨order, hperm, hshared, hresults⟩ := JoinAll.serial_of_output hatomic sched hout
    rw [call_itemTasks] at hperm
    refine ⟨order, hperm, hshared, fun k outcome item ho hi => ?_⟩
    refine hresults k outcome (itemTask item.1 item.2) ho ?_
    rw [itemTasks, List.getElem?_map, hi, Option.map_some]
  loop hcommute s sched outcomes h := by
    obtain ⟨_, hout, heq⟩ := Option.map_eq_some_iff.1 h
    cases heq
    rw [← call_itemTasks ε R] at hcommute
    obtain ⟨hshared, houtcomes⟩ := JoinAll.loop_of_output hatomic hcommute sched hout
    rw [call_itemTasks] at hshared houtcomes
    rw [itemTasks, List.zipWith_map_left] at houtcomes
    exact ⟨hshared, houtcomes⟩

/-- **A batch operation is as good as its single calls in some order**, and as good as the loop over
its items where the order does not matter. -/
theorem batches_serializable (pool : DepositPool σ I K P D ε R)
    (deposit : DepositCall I P D → σ → Except ε R × σ)
    (withdraw : WithdrawCall I K → σ → Except ε R × σ)
    (transfer : TransferCall I K P D → σ → Except ε R × σ)
    (hatomic : pool.Atomic deposit withdraw transfer)
    (deposits : List (I × P × HoprBalance × D)) (keys : List (I × K)) (dst : Address) (dstId : I)
    (dstKey : P) (data : D) :
    Serializable (depositFundsToMultiple pool deposits) deposit
      (deposits.map fun (id, dst, amount, data) => (id, ⟨id, dst, amount, data⟩)) ∧
    Serializable (withdrawMultipleDeposits pool keys dst) withdraw
      (keys.map fun (id, key) => (id, ⟨id, key, dst, none⟩)) ∧
    Serializable (poolTransferMultiple pool keys dstId dstKey data) transfer
      (keys.map fun (id, key) => (id, ⟨id, key, dstId, dstKey, data, none⟩)) := by
  refine ⟨?_, ?_, ?_⟩
  · have h := serializable_joinAll hatomic.deposit
      (deposits.map fun (id, dst, amount, data) => (id, ⟨id, dst, amount, data⟩))
    simp only [itemTasks, List.map_map] at h
    exact h
  · have h := serializable_joinAll hatomic.withdraw
      (keys.map fun (id, key) => (id, ⟨id, key, dst, none⟩))
    simp only [itemTasks, List.map_map] at h
    exact h
  · have h := serializable_joinAll hatomic.transfer
      (keys.map fun (id, key) => (id, ⟨id, key, dstId, dstKey, data, none⟩))
    simp only [itemTasks, List.map_map] at h
    exact h

def mockApply (fails : Bool) (receipt : HoprBalance) (id : ℕ) (seen : List ℕ) :
    Except Unit HoprBalance × List ℕ :=
  (if fails then .error () else .ok receipt, seen ++ [id])

theorem mockPool_atomic (failFor : ℕ) :
    (mockPool failFor).Atomic (fun call => mockApply (call.dst = failFor) call.amount call.id)
      (fun call => mockApply (call.key = failFor) 1 call.id)
      (fun call => mockApply (call.key = failFor) 1 call.srcId) where
  deposit call seen := Or.inr ⟨rfl, by simp [Fut.Settled, mockApply]⟩
  withdraw call seen := Or.inr ⟨rfl, by simp [Fut.Settled, mockApply]⟩
  transfer call seen := Or.inr ⟨rfl, by simp [Fut.Settled, mockApply]⟩

/-- The order in which a batch of the mock pool takes effect is seen in its state. -/
theorem batches_serializable_mockPool :
    (depositFundsToMultiple (mockPool 2) [(1, 1, 10, ()), (2, 2, 20, ())] [] [1, 0]).shared =
      [2, 1] ∧
    Serializable (depositFundsToMultiple (mockPool 2) [(1, 1, 10, ()), (2, 2, 20, ())])
      (fun call => mockApply (call.dst = 2) call.amount call.id)
      [(1, ⟨1, 1, 10, ()⟩), (2, ⟨2, 2, 20, ()⟩)] :=
  ⟨by decide, (batches_serializable (mockPool 2) _ _ _ (mockPool_atomic 2)
    [(1, 1, 10, ()), (2, 2, 20, ())] [] 0 0 0 ()).1⟩

end HoprApi.Chain
