import HoprApi.Lib.Join
import Mathlib.Data.List.Nodup

/-!
# Joins of atomic calls

A call is atomic if its future takes effect at one of its polls and leaves the shared state alone at
the others.  Whatever the order of polls, a join of atomic calls leaves the state that the calls
leave when they are made one after another, in the order in which they took effect, and resolves to
their results (`JoinAll.serial_run`, `JoinAll.serial_of_output`).  Where the calls commute, that is
what the plain loop over the tasks does (`JoinAll.loop_of_output`).
-/

namespace HoprApi.Lib.Join

open HoprApi.Lib.Schedule

variable {σ κ α β : Type*}

/-! ### Atomic futures -/

namespace Fut

/-- Resolves to `a`, and leaves the shared state alone. -/
def Settled (a : α) : Fut σ α → Prop
  | .ready b => b = a
  | .pending next effect => ∀ s, effect s = s ∧ Settled a (next s)

/-- Takes effect at one poll, as `apply` has it, and leaves the shared state alone at the others. -/
def Atomic (apply : σ → α × σ) : Fut σ α → Prop
  | .ready _ => False
  | .pending next effect => ∀ s,
    effect s = s ∧ Atomic apply (next s) ∨ effect s = (apply s).2 ∧ Settled (apply s).1 (next s)

theorem Settled.poll {a : α} {f : Fut σ α} (h : f.Settled a) (s : σ) :
    (f.poll s).1.Settled a ∧ (f.poll s).2 = s := by
  cases f with
  | ready b => exact ⟨h, rfl⟩
  | pending next effect =>
    obtain ⟨heffect, hnext⟩ := h s
    exact ⟨hnext, heffect⟩

theorem Atomic.poll {apply : σ → α × σ} {f : Fut σ α} (h : f.Atomic apply) (s : σ) :
    (f.poll s).1.Atomic apply ∧ (f.poll s).2 = s ∨
    (f.poll s).1.Settled (apply s).1 ∧ (f.poll s).2 = (apply s).2 := by
  cases f with
  | ready b => exact h.elim
  | pending next effect =>
    rcases h s with ⟨heffect, hnext⟩ | ⟨heffect, hnext⟩
    · exact Or.inl ⟨hnext, heffect⟩
    · exact Or.inr ⟨hnext, heffect⟩

end Fut

/-! ### Calls made one after another -/

section InTurn

variable (apply : κ → σ → α × σ)

/-- The calls made one after another: the results and the state they leave. -/
def loop : List κ → σ → List α × σ
  | [], s => ([], s)
  | call :: calls, s =>
    let r := loop calls (apply call s).2
    ((apply call s).1 :: r.1, r.2)

def inTurn (order : List (ℕ × κ)) (s : σ) : List (ℕ × α) × σ :=
  let r := loop apply (order.map Prod.snd) s
  ((order.map Prod.fst).zip r.1, r.2)

/-- Either call gives what it gives without the other, and together they leave one state. -/
structure Commute (f g : σ → α × σ) : Prop where
  state : ∀ s, (f (g s).2).2 = (g (f s).2).2
  left : ∀ s, (f (g s).2).1 = (f s).1
  right : ∀ s, (g (f s).2).1 = (g s).1

variable {apply} {order order' : List (ℕ × κ)} {s : σ} {k : ℕ} {call : κ} {a : α}

theorem length_loop (calls : List κ) (s : σ) : (loop apply calls s).1.length = calls.length := by
  induction calls generalizing s with
  | nil => rfl
  | cons call calls ih => exact congrArg (· + 1) (ih _)

theorem loop_snoc (calls : List κ) (call : κ) (s : σ) :
    loop apply (calls ++ [call]) s =
      ((loop apply calls s).1 ++ [(apply call (loop apply calls s).2).1],
        (apply call (loop apply calls s).2).2) := by
  induction calls generalizing s with
  | nil => rfl
  | cons c calls ih => simp only [List.cons_append, loop, ih]

theorem inTurn_cons (e : ℕ × κ) : inTurn apply (e :: order) s =
    ((e.1, (apply e.2 s).1) :: (inTurn apply order (apply e.2 s).2).1,
      (inTurn apply order (apply e.2 s).2).2) := rfl

theorem inTurn_snoc : inTurn apply (order ++ [(k, call)]) s =
    ((inTurn apply order s).1 ++ [(k, (apply call (inTurn apply order s).2).1)],
      (apply call (inTurn apply order s).2).2) := by
  have hlength : (order.map Prod.fst).length = (loop apply (order.map Prod.snd) s).1.length := by
    rw [length_loop, List.length_map, List.length_map]
  simp only [inTurn, List.map_append, List.map_cons, List.map_nil, loop_snoc]
  rw [List.zip_append hlength]
  rfl

theorem Commute.symm {f g : σ → α × σ} (h : Commute f g) : Commute g f :=
  ⟨fun s => (h.state s).symm, h.right, h.left⟩

/-- **Calls that commute may be made in any order.** -/
theorem inTurn_perm (hperm : order.Perm order')
    (hcommute : order.Pairwise fun e e' => Commute (apply e.2) (apply e'.2)) (s : σ) :
    (inTurn apply order s).1.Perm (inTurn apply order' s).1 ∧
      (inTurn apply order s).2 = (inTurn apply order' s).2 := by
  induction hperm generalizing s with
  | nil => exact ⟨.nil, rfl⟩
  | cons e _ ih =>
    obtain ⟨hresults, hstate⟩ := ih (List.pairwise_cons.1 hcommute).2 (apply e.2 s).2
    rw [inTurn_cons, inTurn_cons]
    exact ⟨hresults.cons _, hstate⟩
  | swap e e' order =>
    obtain ⟨hstate, hleft, hright⟩ :=
      (List.pairwise_cons.1 hcommute).1 e List.mem_cons_self
    simp only [inTurn_cons, hstate, hleft, hright]
    exact ⟨.swap _ _ _, trivial⟩
  | trans hperm _ ih ih' =>
    obtain ⟨hresults, hstate⟩ := ih hcommute s
    obtain ⟨hresults', hstate'⟩ := ih' (hcommute.perm hperm fun h => h.symm) s
    exact ⟨hresults.trans hresults', hstate.trans hstate'⟩

end InTurn

/-! ### The order of the effects -/

def indexed (calls : List κ) : List (ℕ × κ) := calls.zipIdx.map Prod.swap

theorem mem_indexed {calls : List κ} {e : ℕ × κ} :
    e ∈ indexed calls ↔ calls[e.1]? = some e.2 := by
  rw [indexed, List.mem_map]
  constructor
  · rintro ⟨e, he, rfl⟩
    exact List.mem_zipIdx_iff_getElem?.1 he
  · intro h
    exact ⟨(e.2, e.1), List.mem_zipIdx_iff_getElem?.2 h, rfl⟩

theorem map_fst_indexed (calls : List κ) : (indexed calls).map Prod.fst = List.range calls.length := by
  rw [indexed, List.map_map, List.range_eq_range']
  exact List.zipIdx_map_snd 0 calls

theorem map_snd_indexed (calls : List κ) : (indexed calls).map Prod.snd = calls := by
  rw [indexed, List.map_map]
  exact List.zipIdx_map_fst 0 calls

structure Selects (calls : List κ) (order : List (ℕ × κ)) : Prop where
  nodup : (order.map Prod.fst).Nodup
  own : ∀ e ∈ order, calls[e.1]? = some e.2

theorem Selects.perm {calls : List κ} {order : List (ℕ × κ)} (h : Selects calls order)
    (hall : ∀ k < calls.length, k ∈ order.map Prod.fst) : order.Perm (indexed calls) := by
  have hnodup : ((indexed calls).map Prod.fst).Nodup := by
    rw [map_fst_indexed]
    exact List.nodup_range
  refine (List.perm_ext_iff_of_nodup (List.Nodup.of_map _ h.nodup)
    (List.Nodup.of_map _ hnodup)).2 fun e => ?_
  rw [mem_indexed]
  refine ⟨h.own e, fun he => ?_⟩
  obtain ⟨e', he', hfst⟩ := List.mem_map.1 (hall e.1 (List.getElem?_eq_some_iff.1 he).1)
  -- a call is determined by its key
  have hown := h.own e' he'
  rw [hfst, he] at hown
  rwa [Prod.ext hfst (Option.some.inj hown).symm] at he'

section Stands

variable {apply : κ → σ → α × σ} {s : σ} {order order' : List (ℕ × κ)} {k : ℕ} {call : κ}
  {f : Fut σ α}

/-- The future of the call `k` is to take effect, or has done so in its place of the order. -/
def Stands (apply : κ → σ → α × σ) (s : σ) (order : List (ℕ × κ)) (k : ℕ) (call : κ)
    (f : Fut σ α) : Prop :=
  k ∉ order.map Prod.fst ∧ f.Atomic (apply call) ∨
    ∃ a, (k, a) ∈ (inTurn apply order s).1 ∧ f.Settled a

/-- The order after a poll of the call `k`. -/
inductive Extends (order : List (ℕ × κ)) (k : ℕ) (call : κ) : List (ℕ × κ) → Prop
  | same : Extends order k call order
  | snoc (h : k ∉ order.map Prod.fst) : Extends order k call (order ++ [(k, call)])

theorem Stands.poll (h : Stands apply s order k call f) :
    ∃ order', Extends order k call order' ∧
      (f.poll (inTurn apply order s).2).2 = (inTurn apply order' s).2 ∧
      Stands apply s order' k call (f.poll (inTurn apply order s).2).1 := by
  rcases h with ⟨hk, hatomic⟩ | ⟨a, ha, hsettled⟩
  · rcases hatomic.poll (inTurn apply order s).2 with ⟨hnext, hshared⟩ | ⟨hnext, hshared⟩
    · exact ⟨order, .same, hshared, Or.inl ⟨hk, hnext⟩⟩
    · refine ⟨order ++ [(k, call)], .snoc hk, ?_, Or.inr ⟨_, ?_, hnext⟩⟩
      · rw [inTurn_snoc, hshared]
      · rw [inTurn_snoc]
        exact List.mem_append_right _ (List.mem_singleton_self _)
  · obtain ⟨hnext, hshared⟩ := hsettled.poll (inTurn apply order s).2
    exact ⟨order, .same, hshared, Or.inr ⟨a, ha, hnext⟩⟩

theorem Extends.selects {calls : List κ} (h : Extends order k call order')
    (hselects : Selects calls order) (hcall : calls[k]? = some call) : Selects calls order' := by
  cases h with
  | same => exact hselects
  | snoc hk =>
    refine ⟨?_, fun e he => ?_⟩
    · rw [List.map_append, List.nodup_append]
      refine ⟨hselects.nodup, List.nodup_singleton _, fun i hi i' hi' => ?_⟩
      rw [List.mem_singleton.1 hi']
      exact ne_of_mem_of_not_mem hi hk
    · rcases List.mem_append.1 he with he | he
      · exact hselects.own e he
      · rw [List.mem_singleton.1 he]
        exact hcall

theorem Extends.mem_results {e : ℕ × α} (h : Extends order k call order')
    (he : e ∈ (inTurn apply order s).1) : e ∈ (inTurn apply order' s).1 := by
  cases h with
  | same => exact he
  | snoc _ =>
    rw [inTurn_snoc]
    exact List.mem_append_left _ he

theorem Extends.not_mem {i : ℕ} (h : Extends order k call order') (hne : k ≠ i)
    (hi : i ∉ order.map Prod.fst) : i ∉ order'.map Prod.fst := by
  cases h with
  | same => exact hi
  | snoc _ =>
    rw [List.map_append, List.mem_append]
    rintro (hmem | hmem)
    · exact hi hmem
    · exact hne (List.mem_singleton.1 hmem).symm

end Stands

namespace JoinAll

variable {op : κ → Fut σ α} {apply : κ → σ → α × σ} {tasks : List (Task κ α β)} {s : σ}
  {order order' : List (ℕ × κ)} {j : JoinAll σ κ α β} {k : ℕ}

/-- The slot of the task `k` is as the order of the effects says. -/
def Placed (apply : κ → σ → α × σ) (s : σ) (order : List (ℕ × κ)) (k : ℕ) (task : Task κ α β) :
    Slot σ κ α β → Prop
  | .waiting task' => task' = task ∧ k ∉ order.map Prod.fst
  | .running finish f => finish = task.finish ∧ Stands apply s order k task.call f
  | .done b => ∃ a, (k, a) ∈ (inTurn apply order s).1 ∧ b = task.finish a

theorem placed_settle {task : Task κ α β} {f : Fut σ α}
    (h : Stands apply s order k task.call f) :
    Placed apply s order k task (.settle task.finish f) := by
  cases f with
  | ready a =>
    obtain ⟨-, hatomic⟩ | ⟨a', ha', hsettled⟩ := h
    · exact hatomic.elim
    · exact ⟨a', ha', congrArg task.finish hsettled⟩
  | pending next effect => exact ⟨rfl, h⟩

theorem Placed.extends {i : ℕ} {call : κ} {task : Task κ α β} {slot : Slot σ κ α β}
    (h : Placed apply s order i task slot) (hext : Extends order k call order') (hne : k ≠ i) :
    Placed apply s order' i task slot := by
  cases slot with
  | waiting task' => exact ⟨h.1, hext.not_mem hne h.2⟩
  | running finish f =>
    obtain ⟨hfinish, ⟨hi, hatomic⟩ | ⟨a, ha, hsettled⟩⟩ := h
    · exact ⟨hfinish, Or.inl ⟨hext.not_mem hne hi, hatomic⟩⟩
    · exact ⟨hfinish, Or.inr ⟨a, hext.mem_results ha, hsettled⟩⟩
  | done b =>
    obtain ⟨a, ha, hb⟩ := h
    exact ⟨a, hext.mem_results ha, hb⟩

/-- The join stands where the calls stand that were made in the given order. -/
structure Serial (apply : κ → σ → α × σ) (tasks : List (Task κ α β)) (s : σ)
    (order : List (ℕ × κ)) (j : JoinAll σ κ α β) : Prop where
  selects : Selects (tasks.map (·.call)) order
  shared : j.shared = (inTurn apply order s).2
  length : j.slots.length = tasks.length
  placed : ∀ k task slot, tasks[k]? = some task → j.slots[k]? = some slot →
    Placed apply s order k task slot

theorem serial_start : Serial apply tasks s [] (start tasks s) where
  selects := ⟨List.nodup_nil, fun e he => by cases he⟩
  shared := rfl
  length := List.length_map _
  placed k task slot htask hslot := by
    simp only [start, List.getElem?_map, htask, Option.map_some, Option.some.injEq] at hslot
    subst hslot
    exact ⟨rfl, List.not_mem_nil⟩

theorem Serial.advance (h : Serial apply tasks s order j) {task : Task κ α β} {f : Fut σ α}
    (htask : tasks[k]? = some task) (hstands : Stands apply s order k task.call f) :
    ∃ order', Serial apply tasks s order' (j.advance k task.finish f) := by
  obtain ⟨order', hext, hshared, hstands'⟩ := hstands.poll
  rw [← h.shared] at hshared hstands'
  refine ⟨order', hext.selects h.selects ?_, hshared, ?_, fun i task' slot htask' hslot => ?_⟩
  · rw [List.getElem?_map, htask, Option.map_some]
  · exact List.length_set.trans h.length
  · by_cases hki : k = i
    · subst hki
      have hk : k < j.slots.length := h.length ▸ (List.getElem?_eq_some_iff.1 htask).1
      simp only [JoinAll.advance, List.getElem?_set_self hk, Option.some.injEq] at hslot
      cases htask.symm.trans htask'
      subst hslot
      exact placed_settle hstands'
    · simp only [JoinAll.advance, List.getElem?_set_ne hki] at hslot
      exact (h.placed i task' slot htask' hslot).extends hext hki

/-- **A poll makes no call or one call take effect.** -/
theorem Serial.poll (hatomic : ∀ call, (op call).Atomic (apply call))
    (h : Serial apply tasks s order j) (k : ℕ) :
    ∃ order', Serial apply tasks s order' (j.poll op k) := by
  unfold JoinAll.poll
  split
  · next task hslot =>
    have hk : k < tasks.length := h.length ▸ (List.getElem?_eq_some_iff.1 hslot).1
    have htask : tasks[k]? = some tasks[k] := List.getElem?_eq_getElem hk
    obtain ⟨rfl, hnot⟩ := h.placed k _ _ htask hslot
    have h' : Serial apply tasks s order { j with calls := j.calls ++ [(k, tasks[k].call)] } :=
      ⟨h.selects, h.shared, h.length, h.placed⟩
    exact h'.advance htask (Or.inl ⟨hnot, hatomic _⟩)
  · next finish f hslot =>
    have hk : k < tasks.length := h.length ▸ (List.getElem?_eq_some_iff.1 hslot).1
    have htask : tasks[k]? = some tasks[k] := List.getElem?_eq_getElem hk
    obtain ⟨rfl, hstands⟩ := h.placed k _ _ htask hslot
    exact h.advance htask hstands
  · exact ⟨order, h⟩

/-- **A run of atomic calls leaves what they leave one after another**, in the order of their
effects. -/
theorem serial_run (hatomic : ∀ call, (op call).Atomic (apply call)) (tasks : List (Task κ α β))
    (s : σ) (sched : List ℕ) :
    ∃ order, Serial apply tasks s order (runFrom op tasks s sched) :=
  run_invariant (P := fun j => ∃ order, Serial apply tasks s order j)
    (fun _ k h => h.elim fun _ h => h.poll hatomic k) ⟨[], serial_start⟩ sched

/-- A resolved join has the results of all its calls, made one after another. -/
theorem serial_of_output (hatomic : ∀ call, (op call).Atomic (apply call)) (sched : List ℕ)
    {bs : List β} (h : (runFrom op tasks s sched).output = some bs) :
    ∃ order, order.Perm (indexed (tasks.map (·.call))) ∧
      (runFrom op tasks s sched).shared = (inTurn apply order s).2 ∧
      ∀ k b task, bs[k]? = some b → tasks[k]? = some task →
        ∃ a, (k, a) ∈ (inTurn apply order s).1 ∧ b = task.finish a := by
  obtain ⟨order, hserial⟩ := serial_run hatomic tasks s sched
  have hslots := outputs_eq_some.1 h
  have hlength : bs.length = tasks.length := by
    rw [← hserial.length, hslots, List.length_map]
  have hplaced : ∀ k b task, bs[k]? = some b → tasks[k]? = some task →
      ∃ a, (k, a) ∈ (inTurn apply order s).1 ∧ b = task.finish a := by
    intro k b task hb htask
    refine hserial.placed k task (.done b) htask ?_
    rw [hslots, List.getElem?_map, hb, Option.map_some]
  refine ⟨order, hserial.selects.perm fun k hk => ?_, hserial.shared, hplaced⟩
  rw [List.length_map] at hk
  obtain ⟨a, ha, -⟩ := hplaced k _ _ (List.getElem?_eq_getElem (hlength ▸ hk))
    (List.getElem?_eq_getElem hk)
  exact (List.of_mem_zip ha).1

/-- **Where the calls commute, the join does what the plain loop over the tasks does.** -/
theorem loop_of_output (hatomic : ∀ call, (op call).Atomic (apply call))
    (hcommute : (tasks.map (·.call)).Pairwise fun c c' => Commute (apply c) (apply c'))
    (sched : List ℕ) {bs : List β} (h : (runFrom op tasks s sched).output = some bs) :
    (runFrom op tasks s sched).shared = (loop apply (tasks.map (·.call)) s).2 ∧
    bs = List.zipWith (·.finish ·) tasks (loop apply (tasks.map (·.call)) s).1 := by
  obtain ⟨order, hperm, hshared, hplaced⟩ := serial_of_output hatomic sched h
  have hcommute' : order.Pairwise fun e e' => Commute (apply e.2) (apply e'.2) := by
    rw [← map_snd_indexed (tasks.map (·.call))] at hcommute
    exact (List.pairwise_map.1 hcommute).perm hperm.symm fun h => h.symm
  obtain ⟨hresults, hstate⟩ := inTurn_perm hperm hcommute' s
  have hlength : bs.length = tasks.length := (output_sound op s sched h).1
  refine ⟨?_, List.ext_getElem? fun k => ?_⟩
  · rw [hshared, hstate]
    simp only [inTurn, map_snd_indexed]
  · rcases Nat.lt_or_ge k tasks.length with hk | hk
    · have hloop : k < (loop apply (tasks.map (·.call)) s).1.length := by
        rwa [length_loop, List.length_map]
      obtain ⟨a, ha, hb⟩ := hplaced k _ _ (List.getElem?_eq_getElem (hlength ▸ hk))
        (List.getElem?_eq_getElem hk)
      -- the result with the key `k` is the one at the position `k`
      have hmem : (k, a) ∈ (inTurn apply (indexed (tasks.map (·.call))) s).1 := hresults.subset ha
      simp only [inTurn, map_snd_indexed, map_fst_indexed] at hmem
      obtain ⟨i, hi, hget⟩ := List.mem_iff_getElem.1 hmem
      rw [List.getElem_zip, List.getElem_range, Prod.mk.injEq] at hget
      obtain ⟨rfl, rfl⟩ := hget
      rw [List.getElem?_zipWith, List.getElem?_eq_getElem (hlength ▸ hk),
        List.getElem?_eq_getElem hk, List.getElem?_eq_getElem hloop, hb]
    · rw [List.getElem?_eq_none (hlength ▸ hk), List.getElem?_eq_none]
      rw [List.length_zipWith]
      exact (min_le_left _ _).trans hk

end JoinAll

end HoprApi.Lib.Join
