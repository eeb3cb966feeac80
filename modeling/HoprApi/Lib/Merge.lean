import HoprApi.Lib.Schedule
import Mathlib.Data.List.Infix

/-!
# Merging streams

A `StreamGroup` holds streams by key and yields the next item of whichever stream makes progress,
until all have ended.  Whatever the order of polls, the items of a stream come out in its own order
and what has not come out is still in the group (`Merged.run_inv`), and every interleaving of the
streams comes out under some order (`Merged.exists_yielded_iff`).  A fair order ends every stream
(`Merged.ends`).
-/

namespace HoprApi.Lib.Merge

open HoprApi.Lib.Schedule

variable {α : Type*}

/-! ### The group -/

/-- A group of streams by key: the items a stream still holds, or nothing once it has ended. -/
structure StreamGroup (α : Type*) where
  slots : List (Option (List α))
  deriving DecidableEq

namespace StreamGroup

def empty : StreamGroup α := ⟨[]⟩

def insert (g : StreamGroup α) (items : List α) : StreamGroup α := ⟨g.slots ++ [some items]⟩

/-- The items the stream `k` still holds, if it has not ended. -/
def stream (g : StreamGroup α) (k : ℕ) : Option (List α) := g.slots[k]?.join

def set (g : StreamGroup α) (k : ℕ) (rest : Option (List α)) : StreamGroup α := ⟨g.slots.set k rest⟩

/-- Let the stream `k` make progress: it yields its next item, or ends. -/
def poll (g : StreamGroup α) (k : ℕ) : Option (ℕ × α) × StreamGroup α :=
  match g.stream k with
  | none => (none, g)
  | some [] => (none, g.set k none)
  | some (x :: xs) => (some (k, x), g.set k (some xs))

def Ended (g : StreamGroup α) : Prop := ∀ s ∈ g.slots, s.isNone

instance (g : StreamGroup α) : Decidable g.Ended := by
  unfold Ended
  infer_instance

def ofStreams (streams : List (List α)) : StreamGroup α := ⟨streams.map some⟩

variable {g : StreamGroup α} {j k : ℕ}

theorem lt_length_of_stream {s : List α} (h : g.stream k = some s) : k < g.slots.length := by
  rw [stream, Option.join_eq_some_iff] at h
  exact (List.getElem?_eq_some_iff.1 h).1

theorem stream_set_self {rest : Option (List α)} (hk : k < g.slots.length) :
    (g.set k rest).stream k = rest := by
  rw [stream, set, List.getElem?_set_self hk]
  rfl

theorem stream_set_of_ne {rest : Option (List α)} (h : j ≠ k) :
    (g.set j rest).stream k = g.stream k := by
  rw [stream, set, List.getElem?_set_ne h]
  rfl

@[simp] theorem length_set {rest : Option (List α)} :
    (g.set k rest).slots.length = g.slots.length :=
  List.length_set

theorem ended_iff : g.Ended ↔ ∀ k < g.slots.length, g.stream k = none := by
  constructor
  · intro h k hk
    rw [stream, List.getElem?_eq_getElem hk]
    exact Option.isNone_iff_eq_none.1 (h _ (List.getElem_mem hk))
  · intro h s hs
    obtain ⟨k, hk, rfl⟩ := List.getElem_of_mem hs
    have hstream := h k hk
    rw [stream, List.getElem?_eq_getElem hk] at hstream
    exact Option.isNone_iff_eq_none.2 hstream

theorem stream_ofStreams (streams : List (List α)) (k : ℕ) :
    (ofStreams streams).stream k = streams[k]? := by
  rw [stream, ofStreams, List.getElem?_map]
  rcases streams[k]? with _ | s
  · rfl
  · rfl

@[simp] theorem length_ofStreams (streams : List (List α)) :
    (ofStreams streams).slots.length = streams.length :=
  List.length_map _

theorem insert_ofStreams (streams : List (List α)) (items : List α) :
    (ofStreams streams).insert items = ofStreams (streams ++ [items]) := by
  simp only [insert, ofStreams, List.map_append, List.map_cons, List.map_nil]

theorem poll_of_cons {x : α} {xs : List α} (h : g.stream k = some (x :: xs)) :
    g.poll k = (some (k, x), g.set k (some xs)) := by
  unfold poll
  rw [h]

/-- **What one poll does.** -/
theorem poll_cases (g : StreamGroup α) (k : ℕ) :
    (g.stream k = none ∧ g.poll k = (none, g)) ∨
    (g.stream k = some [] ∧ g.poll k = (none, g.set k none)) ∨
    ∃ x xs, g.stream k = some (x :: xs) ∧ g.poll k = (some (k, x), g.set k (some xs)) := by
  rcases hs : g.stream k with _ | _ | ⟨x, xs⟩
  · exact Or.inl ⟨rfl, by rw [poll, hs]⟩
  · exact Or.inr (Or.inl ⟨rfl, by rw [poll, hs]⟩)
  · exact Or.inr (Or.inr ⟨x, xs, rfl, poll_of_cons hs⟩)

end StreamGroup

/-! ### The merged stream -/

/-- A group together with what it has yielded, each item under the key of its stream. -/
structure Merged (α : Type*) where
  group : StreamGroup α
  yielded : List (ℕ × α)
  deriving DecidableEq

namespace Merged

def start (g : StreamGroup α) : Merged α := ⟨g, []⟩

def poll (m : Merged α) (k : ℕ) : Merged α :=
  ⟨(m.group.poll k).2, m.yielded ++ (m.group.poll k).1.toList⟩

abbrev runFrom (g : StreamGroup α) (sched : List ℕ) : Merged α := run poll (start g) sched

variable {m : Merged α} {g : StreamGroup α} {j k : ℕ}

theorem length_poll (m : Merged α) (k : ℕ) :
    (m.poll k).group.slots.length = m.group.slots.length := by
  rcases m.group.poll_cases k with ⟨-, h⟩ | ⟨-, h⟩ | ⟨x, xs, -, h⟩
  · simp only [poll, h]
  · simp only [poll, h, StreamGroup.length_set]
  · simp only [poll, h, StreamGroup.length_set]

theorem length_run (g : StreamGroup α) (sched : List ℕ) :
    (runFrom g sched).group.slots.length = g.slots.length :=
  run_invariant (P := fun m : Merged α => m.group.slots.length = g.slots.length)
    (fun m k h => (length_poll m k).trans h) rfl sched

theorem stream_poll_of_ne (h : j ≠ k) : (m.poll j).group.stream k = m.group.stream k := by
  rcases m.group.poll_cases j with ⟨-, hp⟩ | ⟨-, hp⟩ | ⟨x, xs, -, hp⟩
  · simp only [poll, hp]
  · simp only [poll, hp, StreamGroup.stream_set_of_ne h]
  · simp only [poll, hp, StreamGroup.stream_set_of_ne h]

theorem eventsOf_poll_of_ne (h : j ≠ k) :
    eventsOf k (m.poll j).yielded = eventsOf k m.yielded := by
  rcases m.group.poll_cases j with ⟨-, hp⟩ | ⟨-, hp⟩ | ⟨x, xs, -, hp⟩
  · simp only [poll, hp, Option.toList_none, List.append_nil]
  · simp only [poll, hp, Option.toList_none, List.append_nil]
  · simp only [poll, hp, Option.toList_some, eventsOf_snoc_of_ne h]

/-- What the stream `k` has yielded and what it still holds. -/
def total (m : Merged α) (k : ℕ) : List α :=
  eventsOf k m.yielded ++ (m.group.stream k).getD []

theorem total_start (g : StreamGroup α) (k : ℕ) : (start g).total k = (g.stream k).getD [] := rfl

/-- A poll only moves items of a stream from the group to what was yielded. -/
theorem total_poll (m : Merged α) (j k : ℕ) : (m.poll j).total k = m.total k := by
  by_cases hjk : j = k
  · subst hjk
    rcases m.group.poll_cases j with ⟨hs, hp⟩ | ⟨hs, hp⟩ | ⟨x, xs, hs, hp⟩
    · simp only [total, poll, hp, Option.toList_none, List.append_nil]
    · have hj := StreamGroup.lt_length_of_stream hs
      simp only [total, poll, hp, hs, Option.toList_none, List.append_nil,
        StreamGroup.stream_set_self hj, Option.getD_some, Option.getD_none]
    · have hj := StreamGroup.lt_length_of_stream hs
      simp only [total, poll, hp, hs, Option.toList_some, eventsOf_snoc_self,
        StreamGroup.stream_set_self hj, Option.getD_some, List.append_assoc, List.cons_append,
        List.nil_append]
  · simp only [total, stream_poll_of_ne hjk, eventsOf_poll_of_ne hjk]

/-- **No item is lost, doubled or reordered**: what a stream has yielded, and then what it still
holds, is what it held at the start. -/
theorem run_inv (g : StreamGroup α) (sched : List ℕ) (k : ℕ) :
    eventsOf k (runFrom g sched).yielded ++ ((runFrom g sched).group.stream k).getD [] =
      (g.stream k).getD [] :=
  run_invariant (P := fun m : Merged α => m.total k = (g.stream k).getD [])
    (fun m j h => (total_poll m j k).trans h) (total_start g k) sched

theorem yielded_le (g : StreamGroup α) (sched : List ℕ) (k : ℕ) :
    eventsOf k (runFrom g sched).yielded <+: (g.stream k).getD [] :=
  ⟨_, run_inv g sched k⟩

/-- Polling the streams in the order of the keys of an interleaving yields the interleaving. -/
theorem run_keys (trace : List (ℕ × α)) (m : Merged α)
    (h : ∀ k, eventsOf k trace <+: (m.group.stream k).getD []) :
    (run poll m (trace.map Prod.fst)).yielded = m.yielded ++ trace := by
  induction trace generalizing m with
  | nil => simp
  | cons e trace ih =>
    obtain ⟨k, x⟩ := e
    -- the first item is the next one of its stream
    obtain ⟨xs, hs⟩ : ∃ xs, m.group.stream k = some (x :: xs) := by
      obtain ⟨rest, hrest⟩ := h k
      rw [eventsOf_cons_self] at hrest
      rcases hs : m.group.stream k with _ | items
      · rw [hs] at hrest
        cases hrest
      · rw [hs] at hrest
        exact ⟨_, congrArg some hrest.symm⟩
    have hp := StreamGroup.poll_of_cons hs
    have htail : ∀ i, eventsOf i trace <+: ((m.poll k).group.stream i).getD [] := by
      intro i
      by_cases hki : k = i
      · subst hki
        have hk := h k
        rw [eventsOf_cons_self, hs, Option.getD_some, List.cons_prefix_cons] at hk
        simp only [poll, hp, StreamGroup.stream_set_self (StreamGroup.lt_length_of_stream hs),
          Option.getD_some]
        exact hk.2
      · have hi := h i
        rw [eventsOf_cons_of_ne hki] at hi
        rwa [stream_poll_of_ne hki]
    rw [List.map_cons, run_cons, ih _ htail]
    simp only [poll, hp, Option.toList_some, List.append_assoc, List.cons_append, List.nil_append]

/-- **What a group may yield**: the interleavings of prefixes of its streams, each of them under
some order of polls. -/
theorem exists_yielded_iff (g : StreamGroup α) (trace : List (ℕ × α)) :
    (∃ sched, (runFrom g sched).yielded = trace) ↔
      ∀ k, eventsOf k trace <+: (g.stream k).getD [] := by
  constructor
  · rintro ⟨sched, rfl⟩ k
    exact yielded_le g sched k
  · intro h
    exact ⟨trace.map Prod.fst, run_keys trace (start g) h⟩

theorem key_lt (g : StreamGroup α) (sched : List ℕ) {e : ℕ × α}
    (he : e ∈ (runFrom g sched).yielded) : e.1 < g.slots.length := by
  have hmem : e.2 ∈ eventsOf e.1 (runFrom g sched).yielded := mem_eventsOf.2 he
  have hpre := (yielded_le g sched e.1).subset hmem
  rcases hs : g.stream e.1 with _ | items
  · simp [hs] at hpre
  · exact StreamGroup.lt_length_of_stream hs

/-- Once every stream has ended, each has yielded all of its items. -/
theorem eventsOf_of_ended {sched : List ℕ} (h : (runFrom g sched).group.Ended) (k : ℕ) :
    eventsOf k (runFrom g sched).yielded = (g.stream k).getD [] := by
  have hnone : (runFrom g sched).group.stream k = none := by
    rcases Nat.lt_or_ge k (runFrom g sched).group.slots.length with hk | hk
    · exact StreamGroup.ended_iff.1 h k hk
    · rw [StreamGroup.stream, List.getElem?_eq_none hk]
      rfl
  have hinv := run_inv g sched k
  rwa [hnone, Option.getD_none, List.append_nil] at hinv

/-- The streams of a group as polled components, final when they have ended. -/
def components : Components (Merged α) (Option (List α)) where
  step := poll
  view m k := m.group.stream k
  final s := s = none
  lt := InvImage (· < ·) fun s => (s.map List.length).elim 0 (· + 1)
  wf := InvImage.wf _ Nat.lt_wfRel.wf
  view_other _ _ _ h := stream_poll_of_ne h
  view_final m k h := by
    rcases m.group.poll_cases k with ⟨-, hp⟩ | ⟨hs, -⟩ | ⟨x, xs, hs, -⟩
    · simp only [poll, hp]
    · rw [hs] at h
      cases h
    · rw [hs] at h
      cases h
  view_lt m k h := by
    rcases m.group.poll_cases k with ⟨hs, -⟩ | ⟨hs, hp⟩ | ⟨x, xs, hs, hp⟩
    · exact absurd hs h
    · have hk := StreamGroup.lt_length_of_stream hs
      simp [InvImage, poll, hp, hs, StreamGroup.stream_set_self hk]
    · have hk := StreamGroup.lt_length_of_stream hs
      simp [InvImage, poll, hp, hs, StreamGroup.stream_set_self hk]

/-- **A fair order of polls ends every stream.** -/
theorem ends (g : StreamGroup α) {sched : ℕ → ℕ} (hfair : Fair g.slots.length sched) :
    ∃ N, ∀ M, N ≤ M → (runFrom g (upTo sched M)).group.Ended := by
  obtain ⟨N, hN⟩ := components.settle (s := start g) hfair
  refine ⟨N, fun M hM => StreamGroup.ended_iff.2 fun k hk => ?_⟩
  rw [length_run] at hk
  exact hN M hM k hk

end Merged

end HoprApi.Lib.Merge
