import Mathlib.Data.List.Induction

/-!
# The last write wins

A run of updates, some of which write a value to one place.  `lastWrite` is the value that is there
afterwards.  `foldl_eq_lastWrite` reads it off a state; `foldl_rel` is the same for what relates
the state before the run to the state after it.
-/

namespace HoprApi.Lib

variable {U V S : Type*}

/-- The value of the last update that writes one, where `w` says what an update writes. -/
def lastWrite (w : U → Option V) (us : List U) : Option V := (us.filterMap w).getLast?

section LastWrite

variable (w : U → Option V)

theorem lastWrite_append (us vs : List U) :
    lastWrite w (us ++ vs) = (lastWrite w vs).or (lastWrite w us) := by
  unfold lastWrite
  rw [List.filterMap_append, List.getLast?_append]

theorem lastWrite_singleton (u : U) : lastWrite w [u] = w u := by
  unfold lastWrite
  rcases h : w u with _ | v <;> simp [h]

theorem lastWrite_snoc (us : List U) (u : U) :
    lastWrite w (us ++ [u]) = (w u).or (lastWrite w us) := by
  rw [lastWrite_append, lastWrite_singleton]

theorem lastWrite_cons (u : U) (us : List U) :
    lastWrite w (u :: us) = (lastWrite w us).or (w u) := by
  rw [← List.singleton_append, lastWrite_append, lastWrite_singleton]

def AtMostOneWrite (us : List U) : Prop := (us.filterMap w).length ≤ 1

/-- Where at most one update writes, the order of the updates does not matter. -/
theorem lastWrite_perm {us vs : List U} (h : us.Perm vs) (hone : AtMostOneWrite w us) :
    lastWrite w us = lastWrite w vs := by
  have hperm : (us.filterMap w).Perm (vs.filterMap w) := h.filterMap w
  unfold AtMostOneWrite at hone
  unfold lastWrite
  rcases hl : us.filterMap w with _ | ⟨v, _ | ⟨v', l⟩⟩
  · rw [hl, List.nil_perm] at hperm
    rw [hperm]
  · rw [hl, List.singleton_perm] at hperm
    rw [hperm]
  · rw [hl] at hone
    simp at hone

variable {w} in
theorem AtMostOneWrite.eq {us : List U} (h : AtMostOneWrite w us) {u u' : U} (hu : u ∈ us)
    (hu' : u' ∈ us) {v v' : V} (hv : w u = some v) (hv' : w u' = some v') : v = v' := by
  have hmem : v ∈ us.filterMap w := List.mem_filterMap.2 ⟨u, hu, hv⟩
  have hmem' : v' ∈ us.filterMap w := List.mem_filterMap.2 ⟨u', hu', hv'⟩
  unfold AtMostOneWrite at h
  rcases hl : us.filterMap w with _ | ⟨x, _ | ⟨y, l⟩⟩
  · rw [hl] at hmem
    cases hmem
  · rw [hl, List.mem_singleton] at hmem hmem'
    rw [hmem, hmem']
  · rw [hl] at h
    simp at h

end LastWrite

/-! ### Runs -/

variable {step : S → U → S} {w : U → Option V}

/-- A part of the state that every update overwrites or leaves alone holds the last write. -/
theorem foldl_eq_lastWrite (view : S → V) (hstep : ∀ s u, view (step s u) = (w u).getD (view s))
    (s : S) (us : List U) : view (us.foldl step s) = (lastWrite w us).getD (view s) := by
  induction us generalizing s with
  | nil => rfl
  | cons u us ih =>
    rw [List.foldl_cons, ih, hstep, lastWrite_cons]
    rcases lastWrite w us with _ | v <;> simp

theorem foldl_or_lastWrite (view : S → Option V)
    (hstep : ∀ s u, view (step s u) = (w u).or (view s)) (s : S) (us : List U) :
    view (us.foldl step s) = (lastWrite w us).or (view s) := by
  induction us generalizing s with
  | nil => rfl
  | cons u us ih => rw [List.foldl_cons, ih, hstep, lastWrite_cons, Option.or_assoc]

/-- What each update adds to a relation between the state before and after, a run adds with its
last write. -/
theorem foldl_rel {R : Option V → S → S → Prop} (hrefl : ∀ s, R none s s)
    (hstep : ∀ o s s' u, R o s s' → R ((w u).or o) s (step s' u)) (s : S) (us : List U) :
    R (lastWrite w us) s (us.foldl step s) := by
  induction us using List.reverseRecOn with
  | nil => exact hrefl s
  | append_singleton us u ih =>
    rw [List.foldl_append, lastWrite_snoc]
    exact hstep _ _ _ u ih

end HoprApi.Lib
