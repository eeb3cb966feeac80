import HoprApi.Lib.Schedule

/-!
# Joining calls that run concurrently

A future `Fut` acts on a shared state, one poll at a time.  A join runs a list of tasks; a task is
lazy, it makes its call when it is polled for the first time and from then on polls the future that
the call returned.  The join resolves, in the order of the tasks, once every call has.

`JoinAll.output_sound`: whatever the order of polls, each task has made its own call once, and its
output comes from what the future of that call resolved to in the states it was polled in.
`JoinAll.resolves`: a fair order of polls makes the join resolve.
-/

namespace HoprApi.Lib.Join

open HoprApi.Lib.Schedule

variable {σ κ α β : Type*}

/-! ### Futures -/

/-- A future over a shared state: resolved, or pending with what its next poll turns it and the
state into. -/
inductive Fut (σ α : Type*) where
  | ready (a : α)
  | pending (next : σ → Fut σ α) (effect : σ → σ)

namespace Fut

def poll (f : Fut σ α) (s : σ) : Fut σ α × σ :=
  match f with
  | .ready a => (.ready a, s)
  | .pending next effect => (next s, effect s)

def feed (f : Fut σ α) (seen : List σ) : Fut σ α := seen.foldl (fun f s => (f.poll s).1) f

theorem feed_snoc (f : Fut σ α) (seen : List σ) (s : σ) :
    f.feed (seen ++ [s]) = ((f.feed seen).poll s).1 := by
  simp only [feed, List.foldl_append, List.foldl_cons, List.foldl_nil]

end Fut

/-! ### The join -/

/-- A lazy block: the call it makes, and what it makes of the call's result. -/
structure Task (κ α β : Type*) where
  call : κ
  finish : α → β

/-- A task that waits for its first poll, runs the future of its call, or is done. -/
inductive Slot (σ κ α β : Type*) where
  | waiting (task : Task κ α β)
  | running (finish : α → β) (f : Fut σ α)
  | done (b : β)

def Slot.settle (finish : α → β) : Fut σ α → Slot σ κ α β
  | .ready a => .done (finish a)
  | f => .running finish f

/-- A join in progress: its slots and the shared state, with a record of the calls that were made
and of the states that futures were polled in, each under the index of its task. -/
structure JoinAll (σ κ α β : Type*) where
  slots : List (Slot σ κ α β)
  shared : σ
  calls : List (ℕ × κ)
  seen : List (ℕ × σ)

namespace JoinAll

def start (tasks : List (Task κ α β)) (s : σ) : JoinAll σ κ α β := ⟨tasks.map .waiting, s, [], []⟩

def advance (j : JoinAll σ κ α β) (k : ℕ) (finish : α → β) (f : Fut σ α) : JoinAll σ κ α β :=
  { j with
    slots := j.slots.set k (.settle finish (f.poll j.shared).1)
    shared := (f.poll j.shared).2
    seen := j.seen ++ [(k, j.shared)] }

/-- Poll the task `k`; its first poll makes its call. -/
def poll (op : κ → Fut σ α) (j : JoinAll σ κ α β) (k : ℕ) : JoinAll σ κ α β :=
  match j.slots[k]? with
  | some (.waiting task) =>
    { j with calls := j.calls ++ [(k, task.call)] }.advance k task.finish (op task.call)
  | some (.running finish f) => j.advance k finish f
  | _ => j

def outputs : List (Slot σ κ α β) → Option (List β)
  | [] => some []
  | .done b :: slots => (outputs slots).map (b :: ·)
  | _ :: _ => none

def output (j : JoinAll σ κ α β) : Option (List β) := outputs j.slots

abbrev runFrom (op : κ → Fut σ α) (tasks : List (Task κ α β)) (s : σ) (sched : List ℕ) :
    JoinAll σ κ α β :=
  run (poll op) (start tasks s) sched

variable {op : κ → Fut σ α} {j : JoinAll σ κ α β} {tasks : List (Task κ α β)} {i k : ℕ}

theorem outputs_eq_some {slots : List (Slot σ κ α β)} {bs : List β} :
    outputs slots = some bs ↔ slots = bs.map .done := by
  induction slots generalizing bs with
  | nil =>
    simp only [outputs, Option.some.injEq]
    constructor
    · rintro rfl
      rfl
    · intro h
      exact (List.map_eq_nil_iff.1 h.symm).symm
  | cons slot slots ih =>
    rcases bs with _ | ⟨b, bs⟩
    · rcases slot with task | ⟨finish, f⟩ | b
      · simp [outputs]
      · simp [outputs]
      · simp [outputs]
    · rcases slot with task | ⟨finish, f⟩ | b'
      · simp [outputs]
      · simp [outputs]
      · simp [outputs, ih, and_comm]

/-! ### What one poll does -/

theorem length_poll (j : JoinAll σ κ α β) (k : ℕ) :
    (j.poll op k).slots.length = j.slots.length := by
  unfold poll
  split
  · exact List.length_set
  · exact List.length_set
  · rfl

def record (j : JoinAll σ κ α β) (i : ℕ) : Option (Slot σ κ α β) × List κ × List σ :=
  (j.slots[i]?, eventsOf i j.calls, eventsOf i j.seen)

theorem record_poll_of_ne (h : k ≠ i) : (j.poll op k).record i = j.record i := by
  unfold poll
  split
  · simp only [record, advance, List.getElem?_set_ne h, eventsOf_snoc_of_ne h]
  · simp only [record, advance, List.getElem?_set_ne h, eventsOf_snoc_of_ne h]
  · rfl

/-- **What a poll does to the record of its own task.** -/
theorem record_poll_self (op : κ → Fut σ α) (j : JoinAll σ κ α β) (k : ℕ) :
    (∃ task, j.slots[k]? = some (.waiting task) ∧ (j.poll op k).record k =
      (some (.settle task.finish ((op task.call).poll j.shared).1),
        eventsOf k j.calls ++ [task.call], eventsOf k j.seen ++ [j.shared])) ∨
    (∃ finish f, j.slots[k]? = some (.running finish f) ∧ (j.poll op k).record k =
      (some (.settle finish (f.poll j.shared).1),
        eventsOf k j.calls, eventsOf k j.seen ++ [j.shared])) ∨
    ((∀ slot, j.slots[k]? = some slot → ∃ b, slot = .done b) ∧
      (j.poll op k).record k = j.record k) := by
  rcases hs : j.slots[k]? with _ | task | ⟨finish, f⟩ | b
  · right; right
    refine ⟨fun slot h => (by cases h), ?_⟩
    simp only [poll, hs]
  · left
    have hk := (List.getElem?_eq_some_iff.1 hs).1
    refine ⟨task, rfl, ?_⟩
    simp only [poll, hs, record, advance, List.getElem?_set_self hk, eventsOf_snoc_self]
  · right; left
    have hk := (List.getElem?_eq_some_iff.1 hs).1
    refine ⟨finish, f, rfl, ?_⟩
    simp only [poll, hs, record, advance, List.getElem?_set_self hk, eventsOf_snoc_self]
  · right; right
    refine ⟨fun slot h => ⟨b, (Option.some.inj h).symm⟩, ?_⟩
    simp only [poll, hs]

/-! ### The calls and the results of a task -/

/-- The record of a task is explained by its own call: not made yet, or made once, and then the
slot holds what the polls have made of the future it returned. -/
def Explained (op : κ → Fut σ α) (task : Task κ α β) :
    Option (Slot σ κ α β) × List κ × List σ → Prop
  | (some (.waiting task'), calls, seen) => task' = task ∧ calls = [] ∧ seen = []
  | (some (.running finish f), calls, seen) =>
    finish = task.finish ∧ calls = [task.call] ∧ (op task.call).feed seen = f
  | (some (.done b), calls, seen) =>
    calls = [task.call] ∧ ∃ a, (op task.call).feed seen = .ready a ∧ b = task.finish a
  | (none, _, _) => False

theorem explained_settle {task : Task κ α β} {f : Fut σ α} {seen : List σ}
    (h : (op task.call).feed seen = f) :
    Explained op task (some (.settle task.finish f), [task.call], seen) := by
  rcases f with a | ⟨next, effect⟩
  · exact ⟨rfl, a, h, rfl⟩
  · exact ⟨rfl, rfl, h⟩

theorem explained_start {s : σ} (hk : k < tasks.length) :
    Explained op tasks[k] ((start tasks s).record k) := by
  have hslot : (start tasks s).slots[k]? = some (.waiting tasks[k]) := by
    simp only [start, List.getElem?_map, List.getElem?_eq_getElem hk, Option.map_some]
  simp only [record, hslot]
  exact ⟨rfl, rfl, rfl⟩

theorem explained_poll {task : Task κ α β} (h : Explained op task (j.record i)) (k : ℕ) :
    Explained op task ((j.poll op k).record i) := by
  by_cases hki : k = i
  · subst hki
    rcases record_poll_self op j k with ⟨task', hs, hr⟩ | ⟨finish, f, hs, hr⟩ | ⟨-, hr⟩
    · simp only [record, hs] at h
      obtain ⟨rfl, hcalls, hseen⟩ := h
      rw [hr, hcalls, hseen]
      exact explained_settle rfl
    · simp only [record, hs] at h
      obtain ⟨rfl, hcalls, hfeed⟩ := h
      rw [hr, hcalls]
      exact explained_settle (by rw [Fut.feed_snoc, hfeed])
    · rw [hr]
      exact h
  · rw [record_poll_of_ne hki]
    exact h

theorem explained_run (op : κ → Fut σ α) (s : σ) (sched : List ℕ) (hk : k < tasks.length) :
    Explained op tasks[k] ((runFrom op tasks s sched).record k) :=
  run_invariant (P := fun j => Explained op tasks[k] (record j k))
    (fun _ i h => explained_poll h i) (explained_start hk) sched

theorem length_run (op : κ → Fut σ α) (s : σ) (sched : List ℕ) :
    (runFrom op tasks s sched).slots.length = tasks.length :=
  run_invariant (P := fun j : JoinAll σ κ α β => j.slots.length = tasks.length)
    (fun j k h => (length_poll j k).trans h) (List.length_map _) sched

/-- **A task makes no call but its own, and that at most once.** -/
theorem calls_le (op : κ → Fut σ α) (s : σ) (sched : List ℕ) (hk : k < tasks.length) :
    eventsOf k (runFrom op tasks s sched).calls <+: [tasks[k].call] := by
  have h := explained_run op s sched hk
  unfold record at h
  rcases hs : (runFrom op tasks s sched).slots[k]? with _ | task | ⟨finish, f⟩ | b
  · rw [hs] at h
    exact h.elim
  · rw [hs] at h
    rw [h.2.1]
    exact List.nil_prefix
  · rw [hs] at h
    exact h.2.1 ▸ List.prefix_rfl
  · rw [hs] at h
    exact h.1 ▸ List.prefix_rfl

theorem call_index_lt (op : κ → Fut σ α) (s : σ) (sched : List ℕ) {e : ℕ × κ}
    (he : e ∈ (runFrom op tasks s sched).calls) : e.1 < tasks.length := by
  have hinv : (runFrom op tasks s sched).slots.length = tasks.length ∧
      ∀ e ∈ (runFrom op tasks s sched).calls, e.1 < tasks.length := by
    refine run_invariant
      (P := fun j : JoinAll σ κ α β =>
        j.slots.length = tasks.length ∧ ∀ e ∈ j.calls, e.1 < tasks.length)
      ?_ ⟨List.length_map _, fun e he => by cases he⟩ sched
    rintro j k ⟨hlen, hcalls⟩
    refine ⟨(length_poll j k).trans hlen, fun e he => ?_⟩
    unfold poll at he
    split at he
    · next task hs =>
      have hk := (List.getElem?_eq_some_iff.1 hs).1
      rcases List.mem_append.1 he with he | he
      · exact hcalls e he
      · rw [List.mem_singleton.1 he]
        exact hlen ▸ hk
    · exact hcalls e he
    · exact hcalls e he
  exact hinv.2 e he

/-- **A resolved join has one output for each task, from that task's own single call.** -/
theorem output_sound (op : κ → Fut σ α) (s : σ) (sched : List ℕ) {bs : List β}
    (h : (runFrom op tasks s sched).output = some bs) :
    bs.length = tasks.length ∧ ∀ (k : ℕ) (hk : k < tasks.length) (hb : k < bs.length),
      eventsOf k (runFrom op tasks s sched).calls = [tasks[k].call] ∧
      ∃ a, (op tasks[k].call).feed (eventsOf k (runFrom op tasks s sched).seen) = .ready a ∧
        bs[k] = tasks[k].finish a := by
  have hslots := outputs_eq_some.1 h
  have hlen : bs.length = tasks.length := by
    have hrun : (runFrom op tasks s sched).slots.length = tasks.length := length_run op s sched
    rwa [hslots, List.length_map] at hrun
  refine ⟨hlen, fun k hk hb => ?_⟩
  have hexp := explained_run op s sched hk
  have hslot : (runFrom op tasks s sched).slots[k]? = some (.done bs[k]) := by
    rw [hslots, List.getElem?_map, List.getElem?_eq_getElem hb, Option.map_some]
  unfold record at hexp
  rw [hslot] at hexp
  exact hexp

/-! ### Progress -/

/-- What the next poll of a slot may make of it. -/
inductive Later : Option (Slot σ κ α β) → Option (Slot σ κ α β) → Prop
  | start (task finish f) : Later (some (.running finish f)) (some (.waiting task))
  | startDone (task b) : Later (some (.done b)) (some (.waiting task))
  | next (finish finish' next effect s) :
    Later (some (.running finish' (next s))) (some (.running finish (.pending next effect)))
  | finish (finish f b) : Later (some (.done b)) (some (.running finish f))

theorem acc_done (b : β) : Acc (Later (σ := σ) (κ := κ) (α := α)) (some (.done b)) :=
  ⟨_, fun _ h => by cases h⟩

theorem acc_running (finish : α → β) (f : Fut σ α) :
    Acc (Later (κ := κ)) (some (.running finish f)) := by
  induction f generalizing finish with
  | ready a =>
    refine ⟨_, fun y h => ?_⟩
    cases h
    exact acc_done _
  | pending next effect ih =>
    refine ⟨_, fun y h => ?_⟩
    cases h with
    | next _ finish' _ _ s => exact ih s finish'
    | finish => exact acc_done _

theorem later_wf : WellFounded (Later (σ := σ) (κ := κ) (α := α) (β := β)) := by
  refine ⟨fun slot => ?_⟩
  rcases slot with _ | task | ⟨finish, f⟩ | b
  · exact ⟨_, fun _ h => by cases h⟩
  · refine ⟨_, fun y h => ?_⟩
    cases h with
    | start _ finish f => exact acc_running finish f
    | startDone _ b => exact acc_done b
  · exact acc_running finish f
  · exact acc_done b

theorem later_settle_waiting (task task' : Task κ α β) (f : Fut σ α) :
    Later (some (.settle task'.finish f)) (some (.waiting task)) := by
  rcases f with a | ⟨next, effect⟩
  · exact .startDone task _
  · exact .start task _ _

theorem later_settle_running (finish : α → β) (f : Fut σ α) (s : σ) :
    Later (κ := κ) (some (.settle finish (f.poll s).1)) (some (.running finish f)) := by
  rcases f with a | ⟨next, effect⟩
  · exact .finish finish _ _
  · simp only [Fut.poll]
    rcases hn : next s with a | ⟨next', effect'⟩
    · exact .finish finish _ _
    · simp only [Slot.settle]
      rw [← hn]
      exact .next finish finish next effect s

/-- The slots of a join as polled components, final when they are done. -/
def components (op : κ → Fut σ α) : Components (JoinAll σ κ α β) (Option (Slot σ κ α β)) where
  step := poll op
  view j k := j.slots[k]?
  final slot := ∀ s, slot = some s → ∃ b, s = .done b
  lt := Later
  wf := later_wf
  view_other j i k h := by
    have hrecord : (j.poll op i).record k = j.record k := record_poll_of_ne h
    exact congrArg Prod.fst hrecord
  view_final j k h := by
    rcases record_poll_self op j k with ⟨task, hs, -⟩ | ⟨finish, f, hs, -⟩ | ⟨-, hr⟩
    · obtain ⟨b, hb⟩ := h _ hs
      cases hb
    · obtain ⟨b, hb⟩ := h _ hs
      cases hb
    · exact congrArg Prod.fst hr
  view_lt j k h := by
    rcases record_poll_self op j k with ⟨task, hs, hr⟩ | ⟨finish, f, hs, hr⟩ | ⟨hdone, -⟩
    · have hslot : (j.poll op k).slots[k]? = _ := congrArg Prod.fst hr
      rw [hslot, hs]
      exact later_settle_waiting task task _
    · have hslot : (j.poll op k).slots[k]? = _ := congrArg Prod.fst hr
      rw [hslot, hs]
      exact later_settle_running finish f _
    · exact absurd hdone h

/-- **A fair order of polls makes the join resolve.** -/
theorem resolves (op : κ → Fut σ α) (tasks : List (Task κ α β)) (s : σ) {sched : ℕ → ℕ}
    (hfair : Fair tasks.length sched) :
    ∃ N, ∀ M, N ≤ M → ∃ bs, (runFrom op tasks s (upTo sched M)).output = some bs := by
  obtain ⟨N, hN⟩ := (components op).settle (s := start tasks s) hfair
  refine ⟨N, fun M hM => ?_⟩
  have hdone : ∀ slot ∈ (runFrom op tasks s (upTo sched M)).slots, ∃ b, slot = .done b := by
    intro slot hslot
    obtain ⟨k, hk, rfl⟩ := List.getElem_of_mem hslot
    have hk' : k < tasks.length := by rwa [length_run] at hk
    exact hN M hM k hk' _ (List.getElem?_eq_getElem hk)
  generalize runFrom op tasks s (upTo sched M) = j at hdone
  unfold output
  generalize j.slots = slots at hdone
  induction slots with
  | nil => exact ⟨[], rfl⟩
  | cons slot slots ih =>
    obtain ⟨bs, hbs⟩ := ih fun s hs => hdone s (List.mem_cons_of_mem _ hs)
    obtain ⟨b, rfl⟩ := hdone _ List.mem_cons_self
    exact ⟨b :: bs, by rw [outputs, hbs, Option.map_some]⟩

end JoinAll

end HoprApi.Lib.Join
