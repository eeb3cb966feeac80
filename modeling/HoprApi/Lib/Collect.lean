import HoprApi.Lib.Merge

/-!
# Collecting a merged stream of fallible items

`Collecting` gathers the results of a group whose items may be errors.  It resolves to the results
once every stream has ended, and to the first error it meets; the group is then dropped with all
that its streams still hold, and so are the results gathered so far.  A failing stream is therefore
isolated from the others only where there is nothing to drop (`Collecting.isolated_iff`).
-/

namespace HoprApi.Lib.Collect

open HoprApi.Lib.Schedule HoprApi.Lib.Merge

variable {ε ρ : Type*}

/-! ### Results and errors of a trace -/

def results (trace : List (ℕ × Except ε ρ)) : List ρ := trace.filterMap fun e => e.2.toOption

/-- No item of the trace is an error. -/
def Clean (trace : List (ℕ × Except ε ρ)) : Prop := ∀ e ∈ trace, ∃ r, e.2 = .ok r

theorem results_append (xs ys : List (ℕ × Except ε ρ)) :
    results (xs ++ ys) = results xs ++ results ys :=
  List.filterMap_append

theorem results_snoc_ok (xs : List (ℕ × Except ε ρ)) (k : ℕ) (r : ρ) :
    results (xs ++ [(k, .ok r)]) = results xs ++ [r] := results_append xs _

theorem results_snoc_error (xs : List (ℕ × Except ε ρ)) (k : ℕ) (e : ε) :
    results (xs ++ [(k, .error e)]) = results xs := by
  rw [results_append]
  exact List.append_nil _

theorem results_map_ok (k : ℕ) (rs : List ρ) :
    results (rs.map fun r => (k, (.ok r : Except ε ρ))) = rs := by
  induction rs with
  | nil => rfl
  | cons r rs ih => exact congrArg (r :: ·) ih

theorem clean_nil : Clean ([] : List (ℕ × Except ε ρ)) := by
  intro e he
  cases he

theorem Clean.snoc {xs : List (ℕ × Except ε ρ)} (h : Clean xs) (k : ℕ) (r : ρ) :
    Clean (xs ++ [(k, .ok r)]) := by
  intro e he
  rcases List.mem_append.1 he with he | he
  · exact h e he
  · rw [List.mem_singleton.1 he]
    exact ⟨r, rfl⟩

theorem exists_first_error {s : List (Except ε ρ)} (h : ¬ ∀ x ∈ s, ∃ r, x = .ok r) :
    ∃ (rs : List ρ) (e : ε) (rest : List (Except ε ρ)), s = rs.map .ok ++ .error e :: rest := by
  induction s with
  | nil => exact absurd (fun x hx => absurd hx List.not_mem_nil) h
  | cons x s ih =>
    rcases x with e | r
    · exact ⟨[], e, s, rfl⟩
    · have hs : ¬ ∀ x ∈ s, ∃ r, x = .ok r := by
        intro hs
        refine h fun x hx => ?_
        rcases List.mem_cons.1 hx with rfl | hx
        · exact ⟨r, rfl⟩
        · exact hs x hx
      obtain ⟨rs, e, rest, rfl⟩ := ih hs
      exact ⟨r :: rs, e, rest, rfl⟩

/-! ### The collection -/

/-- A collection in progress: the group it polls, the results so far, and the error it resolved
to. -/
structure Collecting (ε ρ : Type*) where
  merged : Merged (Except ε ρ)
  collected : List ρ
  failed : Option ε

namespace Collecting

def start (g : StreamGroup (Except ε ρ)) : Collecting ε ρ := ⟨.start g, [], none⟩

/-- Let the stream `k` make progress; a collection that has resolved to an error stays as it is. -/
def poll (c : Collecting ε ρ) (k : ℕ) : Collecting ε ρ :=
  match c.failed with
  | some _ => c
  | none =>
    match (c.merged.group.poll k).1 with
    | some (_, .ok r) => ⟨c.merged.poll k, c.collected ++ [r], none⟩
    | some (_, .error e) => ⟨c.merged.poll k, c.collected, some e⟩
    | none => ⟨c.merged.poll k, c.collected, none⟩

/-- What the collection has resolved to, if it has. -/
def output (c : Collecting ε ρ) : Option (Except ε (List ρ)) :=
  match c.failed with
  | some e => some (.error e)
  | none => if c.merged.group.Ended then some (.ok c.collected) else none

abbrev runFrom (g : StreamGroup (Except ε ρ)) (sched : List ℕ) : Collecting ε ρ :=
  run poll (start g) sched

variable {c : Collecting ε ρ} {g : StreamGroup (Except ε ρ)} {j k : ℕ}

theorem poll_of_failed {e : ε} (h : c.failed = some e) : c.poll k = c := by
  unfold poll
  rw [h]

/-- **What one poll of a running collection does.** -/
theorem poll_cases (h : c.failed = none) (k : ℕ) :
    ((c.merged.poll k).yielded = c.merged.yielded ∧
      c.poll k = ⟨c.merged.poll k, c.collected, none⟩) ∨
    (∃ r, (c.merged.poll k).yielded = c.merged.yielded ++ [(k, .ok r)] ∧
      c.poll k = ⟨c.merged.poll k, c.collected ++ [r], none⟩) ∨
    ∃ e, (c.merged.poll k).yielded = c.merged.yielded ++ [(k, .error e)] ∧
      c.poll k = ⟨c.merged.poll k, c.collected, some e⟩ := by
  unfold poll
  rw [h]
  rcases c.merged.group.poll_cases k with ⟨-, hp⟩ | ⟨-, hp⟩ | ⟨x, xs, -, hp⟩
  · left
    simp [Merged.poll, hp]
  · left
    simp [Merged.poll, hp]
  · right
    rcases x with e | r
    · right
      exact ⟨e, by simp [Merged.poll, hp]⟩
    · left
      exact ⟨r, by simp [Merged.poll, hp]⟩

structure Sound (g : StreamGroup (Except ε ρ)) (c : Collecting ε ρ) : Prop where
  length : c.merged.group.slots.length = g.slots.length
  total : ∀ k, c.merged.total k = (g.stream k).getD []
  collected : c.collected = results c.merged.yielded
  running : c.failed = none → Clean c.merged.yielded
  failed : ∀ e, c.failed = some e →
    ∃ pre k, c.merged.yielded = pre ++ [(k, .error e)] ∧ Clean pre

theorem sound_start (g : StreamGroup (Except ε ρ)) : Sound g (start g) where
  length := rfl
  total k := Merged.total_start g k
  collected := rfl
  running _ := clean_nil
  failed e h := by cases h

theorem Sound.poll (hc : Sound g c) (k : ℕ) : Sound g (c.poll k) := by
  rcases hf : c.failed with _ | e
  · have hlength : (c.merged.poll k).group.slots.length = g.slots.length :=
      (Merged.length_poll c.merged k).trans hc.length
    have htotal : ∀ i, (c.merged.poll k).total i = (g.stream i).getD [] :=
      fun i => (Merged.total_poll c.merged k i).trans (hc.total i)
    rcases poll_cases hf k with ⟨hy, hp⟩ | ⟨r, hy, hp⟩ | ⟨e, hy, hp⟩
    · rw [hp]
      refine ⟨hlength, htotal, ?_, fun _ => ?_, fun e h => (by cases h)⟩
      · rw [hy, hc.collected]
      · rw [hy]
        exact hc.running hf
    · rw [hp]
      refine ⟨hlength, htotal, ?_, fun _ => ?_, fun e h => (by cases h)⟩
      · rw [hy, results_snoc_ok, hc.collected]
      · rw [hy]
        exact (hc.running hf).snoc k r
    · rw [hp]
      refine ⟨hlength, htotal, ?_, fun h => (by cases h), fun e' h => ?_⟩
      · rw [hy, results_snoc_error, hc.collected]
      · cases h
        exact ⟨_, k, hy, hc.running hf⟩
  · rw [poll_of_failed hf]
    exact hc

theorem sound_run (g : StreamGroup (Except ε ρ)) (sched : List ℕ) : Sound g (runFrom g sched) :=
  run_invariant (P := Sound g) (fun _ k h => h.poll k) (sound_start g) sched

theorem merged_of_running (g : StreamGroup (Except ε ρ)) (sched : List ℕ)
    (h : (runFrom g sched).failed = none) :
    (runFrom g sched).merged = Merged.runFrom g sched := by
  induction sched using List.reverseRecOn with
  | nil => rfl
  | append_singleton sched k ih =>
    simp only [runFrom, Merged.runFrom, run_snoc] at h ih ⊢
    rcases hf : (run poll (start g) sched).failed with _ | e
    · rw [← ih hf]
      rcases poll_cases hf k with ⟨-, hp⟩ | ⟨r, -, hp⟩ | ⟨e, -, hp⟩
      · rw [hp]
      · rw [hp]
      · rw [hp]
    · rw [poll_of_failed hf, hf] at h
      cases h

/-- **Under a fair order of polls the collection resolves.** -/
theorem resolves (g : StreamGroup (Except ε ρ)) {sched : ℕ → ℕ}
    (hfair : Fair g.slots.length sched) :
    ∃ N, ∀ M, N ≤ M → (runFrom g (upTo sched M)).output.isSome := by
  obtain ⟨N, hN⟩ := Merged.ends g hfair
  refine ⟨N, fun M hM => ?_⟩
  unfold output
  rcases hf : (runFrom g (upTo sched M)).failed with _ | e
  · rw [merged_of_running g _ hf]
    simp only [if_pos (hN M hM), Option.isSome_some]
  · rfl

/-! ### Isolation -/

/-- The results that the caller of a resolved collection receives. -/
def delivered (c : Collecting ε ρ) : List ρ :=
  match c.output with
  | some (.ok rs) => rs
  | _ => []

/-- Once resolved, the collection has delivered every result that a stream has yielded, and where a
stream has failed it has driven the others to their end. -/
def Isolated (c : Collecting ε ρ) : Prop :=
  c.output.isSome → c.delivered = results c.merged.yielded ∧
    ∀ k e, (k, .error e) ∈ c.merged.yielded → ∀ j, j ≠ k → c.merged.group.stream j = none

/-- Polling one stream up to its first error resolves the collection to it. -/
theorem run_to_error (k : ℕ) (rs : List ρ) {e : ε} {rest : List (Except ε ρ)}
    (hf : c.failed = none) (hs : c.merged.group.stream k = some (rs.map .ok ++ .error e :: rest)) :
    (run poll c (List.replicate (rs.length + 1) k)).failed = some e ∧
    (run poll c (List.replicate (rs.length + 1) k)).merged.yielded =
      c.merged.yielded ++ (rs.map fun r => (k, .ok r)) ++ [(k, .error e)] ∧
    ∀ j, j ≠ k → (run poll c (List.replicate (rs.length + 1) k)).merged.group.stream j =
      c.merged.group.stream j := by
  induction rs generalizing c with
  | nil =>
    have hp := StreamGroup.poll_of_cons hs
    have hpoll : c.poll k = ⟨c.merged.poll k, c.collected, some e⟩ := by
      unfold poll
      rw [hf, hp]
    have hrun : run poll c (List.replicate (([] : List ρ).length + 1) k) = c.poll k := rfl
    rw [hrun, hpoll]
    refine ⟨rfl, ?_, fun j hj => Merged.stream_poll_of_ne hj.symm⟩
    simp [Merged.poll, hp]
  | cons r rs ih =>
    have hp := StreamGroup.poll_of_cons hs
    have hpoll : c.poll k = ⟨c.merged.poll k, c.collected ++ [r], none⟩ := by
      unfold poll
      rw [hf, hp]
    have hstream : (c.poll k).merged.group.stream k = some (rs.map .ok ++ .error e :: rest) := by
      rw [hpoll]
      simp only [Merged.poll, hp]
      exact StreamGroup.stream_set_self (StreamGroup.lt_length_of_stream hs)
    obtain ⟨hfail, hyield, hother⟩ := ih (c := c.poll k) (by rw [hpoll]) hstream
    have hrun : run poll c (List.replicate ((r :: rs).length + 1) k) =
        run poll (c.poll k) (List.replicate (rs.length + 1) k) := rfl
    rw [hrun]
    refine ⟨hfail, ?_, fun j hj => ?_⟩
    · rw [hyield, hpoll]
      simp [Merged.poll, hp]
    · rw [hother j hj, hpoll]
      exact Merged.stream_poll_of_ne hj.symm

theorem mem_of_yielded {streams : List (List (Except ε ρ))} {sched : List ℕ} {x : Except ε ρ}
    (h : (k, x) ∈ (runFrom (.ofStreams streams) sched).merged.yielded) :
    ∃ s, streams[k]? = some s ∧ x ∈ s := by
  have htotal := (sound_run (.ofStreams streams) sched).total k
  have hx : x ∈ (StreamGroup.stream (.ofStreams streams) k).getD [] :=
    htotal ▸ List.mem_append_left _ (mem_eventsOf.2 h)
  rw [StreamGroup.stream_ofStreams] at hx
  rcases hs : streams[k]? with _ | s
  · simp [hs] at hx
  · rw [hs] at hx
    exact ⟨s, rfl, hx⟩

theorem ended_of_output (hout : c.output.isSome) (hf : c.failed = none) :
    c.merged.group.Ended := by
  unfold output at hout
  rw [hf] at hout
  by_contra hend
  simp [hend] at hout

theorem delivered_of_ended (hf : c.failed = none) (hend : c.merged.group.Ended) :
    c.delivered = c.collected := by
  unfold delivered output
  rw [hf]
  simp only [if_pos hend]

theorem delivered_of_failed {e : ε} (hf : c.failed = some e) : c.delivered = [] := by
  unfold delivered output
  rw [hf]

/-- Without errors the collection delivers everything. -/
theorem isolated_of_clean {streams : List (List (Except ε ρ))}
    (h : ∀ s ∈ streams, ∀ x ∈ s, ∃ r, x = .ok r) (sched : List ℕ) :
    Isolated (runFrom (.ofStreams streams) sched) := by
  intro hout
  set c := runFrom (.ofStreams streams) sched with hc
  have hsound : Sound (.ofStreams streams) c := sound_run _ sched
  have hno : ∀ k e, (k, .error e) ∉ c.merged.yielded := by
    intro k e hmem
    obtain ⟨s, hs, hx⟩ := mem_of_yielded hmem
    obtain ⟨r, hr⟩ := h s (List.mem_of_getElem? hs) _ hx
    cases hr
  have hf : c.failed = none := by
    by_contra hf
    obtain ⟨e, he⟩ := Option.ne_none_iff_exists'.1 hf
    obtain ⟨pre, k, hy, -⟩ := hsound.failed e he
    exact hno k e (by rw [hy]; simp)
  refine ⟨?_, fun k e hmem => absurd hmem (hno k e)⟩
  rw [delivered_of_ended hf (ended_of_output hout hf), hsound.collected]

theorem isolated_single_error (e : ε) (rest : List (Except ε ρ)) (sched : List ℕ) :
    Isolated (runFrom (.ofStreams [.error e :: rest]) sched) := by
  intro hout
  set c := runFrom (.ofStreams [.error e :: rest]) sched with hc
  have hsound : Sound (.ofStreams [.error e :: rest]) c := sound_run _ sched
  have hlen : c.merged.group.slots.length = 1 := hsound.length
  have hkey : ∀ x ∈ c.merged.yielded, x.1 = 0 := by
    intro x hx
    obtain ⟨s, hs, -⟩ := mem_of_yielded (k := x.1) (x := x.2) hx
    have hlt := (List.getElem?_eq_some_iff.1 hs).1
    simpa using hlt
  have htotal : c.merged.total 0 = .error e :: rest := hsound.total 0
  refine ⟨?_, ?_⟩
  · rcases hf : c.failed with _ | e'
    · -- resolved without an error: the stream has ended, so it has yielded its error
      have hend := ended_of_output hout hf
      have hgone : c.merged.group.stream 0 = none := StreamGroup.ended_iff.1 hend 0 (by omega)
      rw [Merged.total, hgone, Option.getD_none, List.append_nil] at htotal
      have hmem : (0, .error e) ∈ c.merged.yielded := by
        rw [← mem_eventsOf, htotal]
        exact List.mem_cons_self
      obtain ⟨r, hr⟩ := hsound.running hf _ hmem
      cases hr
    · obtain ⟨pre, k, hy, hclean⟩ := hsound.failed e' hf
      rw [delivered_of_failed hf, hy, results_snoc_error]
      -- the first item of the only stream is its error, so nothing came before it
      rcases pre with _ | ⟨x, pre⟩
      · rfl
      · have hx0 : x.1 = 0 := hkey x (by rw [hy]; simp)
        obtain ⟨r, hr⟩ := hclean x List.mem_cons_self
        have hx : x = (0, .ok r) := Prod.ext hx0 hr
        rw [Merged.total, hy, hx] at htotal
        simp [eventsOf] at htotal
  · intro k e' hmem j hj
    have hk : k = 0 := hkey _ hmem
    rw [StreamGroup.stream, List.getElem?_eq_none (by omega)]
    rfl

/-- A collection isolates a failing stream only if it fails at once and there is no other stream:
polling it alone up to its error drops its results and what the others hold. -/
theorem single_of_isolated {streams : List (List (Except ε ρ))} {rs : List ρ} {e : ε}
    {rest : List (Except ε ρ)} (h : ∀ sched, Isolated (runFrom (.ofStreams streams) sched))
    (hk : k < streams.length) (hs : streams[k] = rs.map .ok ++ .error e :: rest) :
    rs = [] ∧ streams.length = 1 := by
  have hstream : ∀ (i : ℕ) (hi : i < streams.length),
      (start (.ofStreams streams)).merged.group.stream i = some streams[i] :=
    fun i hi => (StreamGroup.stream_ofStreams streams i).trans (List.getElem?_eq_getElem hi)
  obtain ⟨hf, hy, hother⟩ :=
    run_to_error (c := start (.ofStreams streams)) k rs rfl (hs ▸ hstream k hk)
  obtain ⟨hdel, hend⟩ := h (List.replicate (rs.length + 1) k) (by unfold output; rw [hf]; rfl)
  refine ⟨?_, ?_⟩
  · rw [delivered_of_failed hf, hy, results_snoc_error, results_append, results_map_ok] at hdel
    simpa [start, Merged.start, results] using hdel.symm
  · have hgone : ∀ i < streams.length, i = k := by
      intro i hi
      by_contra hik
      have hnone := hend k e (by rw [hy]; simp) i hik
      rw [hother i hik, hstream i hi] at hnone
      cases hnone
    have h0 := hgone 0 (by omega)
    have h1 := mt (hgone 1) (by omega)
    omega

/-- **Which streams a collection isolates from each other**, whatever the order of polls: those
without errors, or a single one that fails before it yields anything. -/
theorem isolated_iff (streams : List (List (Except ε ρ))) :
    (∀ sched, Isolated (runFrom (.ofStreams streams) sched)) ↔
      (∀ s ∈ streams, ∀ x ∈ s, ∃ r, x = .ok r) ∨ ∃ e rest, streams = [.error e :: rest] := by
  constructor
  · intro h
    by_cases hclean : ∀ s ∈ streams, ∀ x ∈ s, ∃ r, x = .ok r
    · exact Or.inl hclean
    · right
      push Not at hclean
      obtain ⟨s, hs, hbad⟩ := hclean
      obtain ⟨rs, e, rest, rfl⟩ := exists_first_error (by push Not; exact hbad)
      obtain ⟨k, hk, hget⟩ := List.getElem_of_mem hs
      obtain ⟨rfl, hlen⟩ := single_of_isolated h hk hget
      obtain ⟨s, rfl⟩ := List.length_eq_one_iff.1 hlen
      obtain rfl : k = 0 := by omega
      exact ⟨e, rest, congrArg (fun s => [s]) hget⟩
  · rintro (hclean | ⟨e, rest, rfl⟩) sched
    · exact isolated_of_clean hclean sched
    · exact isolated_single_error e rest sched

end Collecting

end HoprApi.Lib.Collect
