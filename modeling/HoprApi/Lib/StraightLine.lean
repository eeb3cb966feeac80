import HoprApi.Lib.Waiters
import Mathlib.Data.List.Induction

/-!
# A process read from top to bottom

Read without its environment, a process makes its calls, spawns its waiters and awaits them, and has
a result; where it awaits a waiter the reading is given what the wait gives.  Whatever other parties
do in between, a run of the process does what the reading with the results of its own waiters says,
as far as it has come (`read_run`).
-/

namespace HoprApi.Lib.Waiters

variable {Q : Type*} {A : Q → Type*} {E T φ ε R : Type*}

/-! ### The reading -/

/-- The result of a process, with the calls that it makes and the waiters that it spawns. -/
structure Reading (Q E T R : Type*) where
  result : R
  calls : List Q
  spawns : List ((E → Bool) × T)

/-- What a process does after `n` waiters were spawned, where awaiting the waiter `h` gives
`wait h`. -/
def Proc.read (env : Env Q A T φ ε) (wait : ℕ → Except ε E) :
    Proc Q A E T φ ε R → ℕ → Reading Q E T R
  | .call q next, n =>
    let r := (next (env.answer q)).read env wait n
    { r with calls := q :: r.calls }
  | .spawn predicate timeout next, n =>
    match env.admits timeout with
    | .error err => (next (.error err)).read env wait n
    | .ok () =>
      let r := (next (.ok n)).read env wait (n + 1)
      { r with spawns := (predicate, timeout) :: r.spawns }
  | .abort _ next, n => next.read env wait n
  | .await handle next, n => (next (wait handle)).read env wait n
  | .done r, _ => ⟨r, [], []⟩

def Waiter.key (w : Waiter E T ε) : (E → Bool) × T := (w.predicate, w.timeout)

/-- The waiters of a state that have stopped give what `wait` says. -/
def Agrees (env : Env Q A T φ ε) (wait : ℕ → Except ε E) (s : System Q A E T φ ε R) : Prop :=
  ∀ h w, s.waiters[h]? = some w → ∀ result, w.output env.aborted = some result → wait h = result

/-- What the waiters of a state give; for one that is running, the error of an aborted one. -/
def System.wait (env : Env Q A T φ ε) (s : System Q A E T φ ε R) (h : ℕ) : Except ε E :=
  ((s.waiters[h]?).bind (·.output env.aborted)).getD (.error env.aborted)

theorem agrees_wait (env : Env Q A T φ ε) (s : System Q A E T φ ε R) :
    Agrees env (s.wait env) s := by
  intro h w hw result hout
  unfold System.wait
  rw [hw, Option.bind_some, hout, Option.getD_some]

/-! ### Stopped waiters stay as they are -/

section Stay

variable {w w' : Waiter E T ε} {aborted : ε} {result : Except ε E}

theorem stopped_of_output (h : w.output aborted = some result) : w.Stopped := by
  intro hrun
  unfold Waiter.output at h
  rw [hrun] at h
  cases h

theorem key_see (e : E) : (w.see e).key = w.key := by
  unfold Waiter.see
  split
  · split <;> rfl
  · rfl

theorem key_expire (err : ε) : (w.expire err).key = w.key := by
  unfold Waiter.expire
  split <;> rfl

theorem key_abort : w.abort.key = w.key := by
  unfold Waiter.abort
  split <;> rfl

theorem map_key_modify (ws : List (Waiter E T ε)) (handle : ℕ) {f : Waiter E T ε → Waiter E T ε}
    (hf : ∀ w : Waiter E T ε, (f w).key = w.key) :
    (ws.modify handle f).map (·.key) = ws.map (·.key) := by
  apply List.ext_getElem
  · simp only [List.length_map, List.length_modify]
  · intro i hi hi'
    rw [List.getElem_map, List.getElem_map, List.getElem_modify]
    split
    · exact hf _
    · rfl

end Stay

section Agrees

variable {env : Env Q A T φ ε} {wait : ℕ → Except ε E} {s : System Q A E T φ ε R}

/-- What agrees with a state after a change of its waiters agrees with it before, if the change
leaves the stopped ones as they are. -/
theorem Agrees.of_map {s' : System Q A E T φ ε R} (h : Agrees env wait s')
    (hkeep : ∀ (i : ℕ) w, s.waiters[i]? = some w → w.Stopped → s'.waiters[i]? = some w) :
    Agrees env wait s := fun i w hw result hout =>
  h i w (hkeep i w hw (stopped_of_output hout)) result hout

theorem getElem?_modify_of_stopped {ws : List (Waiter E T ε)}
    {f : Waiter E T ε → Waiter E T ε} (hf : ∀ w : Waiter E T ε, w.Stopped → f w = w) (handle : ℕ)
    {i : ℕ} {w : Waiter E T ε} (hw : ws[i]? = some w) (hstopped : w.Stopped) :
    (ws.modify handle f)[i]? = some w := by
  rw [List.getElem?_modify, hw]
  split
  · exact congrArg some (hf w hstopped)
  · rfl

theorem Agrees.of_step (m : Move E ε) (h : Agrees env wait (s.step env m)) :
    Agrees env wait s := by
  cases m with
  | append e =>
    refine h.of_map fun i w hw hstopped => ?_
    show (s.waiters.map (·.see e))[i]? = some w
    rw [List.getElem?_map, hw, Option.map_some, see_of_stopped hstopped]
  | expire handle err =>
    exact h.of_map fun i w hw hstopped =>
      getElem?_modify_of_stopped (fun w hw => expire_of_stopped hw) handle hw hstopped
  | poll =>
    change Agrees env wait (s.poll env) at h
    unfold System.poll at h
    split at h
    · split at h
      · exact h
      · exact h
    · split at h
      · exact h
      · refine h.of_map fun i w hw _ => ?_
        exact (List.getElem?_append_left (List.getElem?_eq_some_iff.1 hw).1).trans hw
    · exact h.of_map fun i w hw hstopped =>
        getElem?_modify_of_stopped (fun w hw => abort_of_stopped hw) _ hw hstopped
    · split at h
      · exact h
      · exact h
    · exact h

end Agrees

/-! ### Runs -/

/-- A state is where the reading of the process `p` has come: it has made the first calls of it and
spawned its first waiters, and what it still does is the rest. -/
structure Reached (env : Env Q A T φ ε) (wait : ℕ → Except ε E) (p : Proc Q A E T φ ε R)
    (s : System Q A E T φ ε R) : Prop where
  result : (p.read env wait 0).result = (s.proc.read env wait s.waiters.length).result
  calls : ∃ made, s.calls = made ++ s.proc.pending ∧
    (p.read env wait 0).calls = made ++ (s.proc.read env wait s.waiters.length).calls
  spawns : (p.read env wait 0).spawns =
    s.waiters.map (·.key) ++ (s.proc.read env wait s.waiters.length).spawns

section Reach

variable {env : Env Q A T φ ε} {wait : ℕ → Except ε E} {p : Proc Q A E T φ ε R}
  {s : System Q A E T φ ε R}

theorem reached_start (log : List E) : Reached env wait p (System.start log p) where
  result := rfl
  calls := ⟨[], rfl, rfl⟩
  spawns := rfl

theorem Reached.resume (h : Reached env wait p s) {waiters : List (Waiter E T ε)}
    {next : Proc Q A E T φ ε R} (called : List Q) (spawned : List ((E → Bool) × T))
    (hpending : s.proc.pending = called)
    (hkeys : waiters.map (·.key) = s.waiters.map (·.key) ++ spawned)
    (hread : s.proc.read env wait s.waiters.length =
      ⟨(next.read env wait waiters.length).result,
        called ++ (next.read env wait waiters.length).calls,
        spawned ++ (next.read env wait waiters.length).spawns⟩) :
    Reached env wait p (System.resume { s with waiters := waiters } next) := by
  obtain ⟨hresult, ⟨made, hmade, hcalls⟩, hspawns⟩ := h
  rw [hread] at hresult hcalls hspawns
  refine ⟨hresult, ⟨s.calls, rfl, ?_⟩, ?_⟩
  · show (p.read env wait 0).calls = s.calls ++ (next.read env wait waiters.length).calls
    rw [hcalls, hmade, hpending, List.append_assoc]
  · show (p.read env wait 0).spawns = waiters.map (·.key) ++
      (next.read env wait waiters.length).spawns
    rw [hspawns, hkeys, List.append_assoc]

theorem Reached.poll (h : Reached env wait p s) (hagrees : Agrees env wait s) :
    Reached env wait p (s.poll env) := by
  unfold System.poll
  split
  · next q next hproc =>
    split
    · refine h.resume [q] [] (by rw [hproc]; rfl) ?_ ?_
      · rw [List.append_nil]
      · rw [hproc]
        rfl
    · exact h
  · next predicate timeout next hproc =>
    split
    · next err hadmits =>
      refine h.resume [] [] (by rw [hproc]; rfl) ?_ ?_
      · rw [List.append_nil]
      · rw [hproc, Proc.read]
        simp only [hadmits, List.nil_append]
    · next hadmits =>
      refine h.resume [] [(predicate, timeout)] (by rw [hproc]; rfl) ?_ ?_
      · rw [List.map_append]
        rfl
      · rw [hproc, Proc.read, List.length_append]
        simp only [hadmits]
        rfl
  · next handle next hproc =>
    refine h.resume [] [] (by rw [hproc]; rfl) ?_ ?_
    · rw [map_key_modify _ _ fun w => key_abort, List.append_nil]
    · rw [hproc, Proc.read, List.length_modify]
      rfl
  · next handle next hproc =>
    split
    · next result hresult =>
      obtain ⟨w, hw, hout⟩ := Option.bind_eq_some_iff.1 hresult
      refine h.resume [] [] (by rw [hproc]; rfl) ?_ ?_
      · rw [List.append_nil]
      · rw [hproc, Proc.read, hagrees handle w hw result hout]
        rfl
    · exact h
  · exact h

theorem Reached.interfere {s' : System Q A E T φ ε R} (h : Reached env wait p s)
    (hcalls : s'.calls = s.calls) (hproc : s'.proc = s.proc)
    (hkeys : s'.waiters.map (·.key) = s.waiters.map (·.key)) : Reached env wait p s' := by
  have hlength : s'.waiters.length = s.waiters.length := by
    rw [← List.length_map (·.key), hkeys, List.length_map]
  obtain ⟨hresult, hmade, hspawns⟩ := h
  refine ⟨?_, ?_, ?_⟩
  · rw [hproc, hlength, hresult]
  · rw [hproc, hcalls, hlength]
    exact hmade
  · rw [hproc, hkeys, hlength, hspawns]

theorem Reached.step (h : Reached env wait p s) (hagrees : Agrees env wait s) (m : Move E ε) :
    Reached env wait p (s.step env m) := by
  cases m with
  | poll => exact h.poll hagrees
  | append e =>
    refine h.interfere rfl rfl ?_
    show (s.waiters.map (·.see e)).map (·.key) = _
    rw [List.map_map]
    exact List.map_congr_left fun w _ => key_see e
  | expire handle err =>
    exact h.interfere rfl rfl (map_key_modify _ _ fun w => key_expire err)

/-- **A run is as far as it has come in the reading** that is given what its waiters gave. -/
theorem reached_run (log : List E) (p : Proc Q A E T φ ε R) (moves : List (Move E ε))
    (hagrees : Agrees env wait ((System.start log p).run env moves)) :
    Reached env wait p ((System.start log p).run env moves) := by
  -- what agrees with the last state agrees with those before it
  induction moves using List.reverseRecOn with
  | nil => exact reached_start log
  | append_singleton moves m ih =>
    rw [run_append, run_cons, run_nil] at hagrees ⊢
    exact (ih (hagrees.of_step m)).step (hagrees.of_step m) m

/-- **What a finished run has done**: the result, the calls and the waiters of the reading. -/
theorem read_run {log : List E} {p : Proc Q A E T φ ε R} {moves : List (Move E ε)} {r : R}
    (hdone : ((System.start log p).run env moves).proc = .done r)
    (hagrees : Agrees env wait ((System.start log p).run env moves)) :
    p.read env wait 0 = ⟨r, ((System.start log p).run env moves).calls,
      ((System.start log p).run env moves).waiters.map (·.key)⟩ := by
  obtain ⟨hresult, ⟨made, hmade, hcalls⟩, hspawns⟩ := reached_run log p moves hagrees
  rw [hdone] at hresult hmade hcalls hspawns
  rw [hmade]
  generalize p.read env wait 0 = reading at hresult hcalls hspawns ⊢
  obtain ⟨result, calls, spawns⟩ := reading
  simp only [Proc.read, Proc.pending, List.append_nil] at hresult hcalls hspawns ⊢
  rw [hresult, hcalls, hspawns]

theorem calls_prefix (log : List E) (p : Proc Q A E T φ ε R) (moves : List (Move E ε))
    (hagrees : Agrees env wait ((System.start log p).run env moves)) :
    ((System.start log p).run env moves).calls <+: (p.read env wait 0).calls := by
  obtain ⟨-, ⟨made, hmade, hcalls⟩, -⟩ := reached_run log p moves hagrees
  rw [hmade, hcalls]
  refine (List.prefix_append_right_inj made).2 ?_
  rcases ((System.start log p).run env moves).proc with ⟨q, next⟩ | _ | _ | _ | _
  · exact (List.cons_prefix_cons).2 ⟨rfl, List.nil_prefix⟩
  · exact List.nil_prefix
  · exact List.nil_prefix
  · exact List.nil_prefix
  · exact List.nil_prefix

end Reach

end HoprApi.Lib.Waiters
