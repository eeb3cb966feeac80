import HoprApi.Chain.Channels
import HoprApi.Lib.LastWrite
import Mathlib.Data.List.DropRight
import Mathlib.Data.Set.Basic

/-!
# What a sequence of builder calls selects

The setters of a selector overwrite, append, or clear what excludes them.  `build_meaning` reads the
selected channels off the sequence of calls: the last id or the parties set since, the union of the
states, the last closure range.
-/

namespace HoprApi.Chain

open HoprApi.Rust HoprApi.Lib

/-! ### Calls -/

/-- A builder call with its argument. -/
inductive BuilderCall where
  | withSource (address : Address)
  | withDestination (address : Address)
  | withId (id : ChannelId)
  | withAllowedStates (states : List ChannelStatusDiscriminants)
  | withClosureTimeRange (range : BoundPair DateTime)
  deriving DecidableEq

namespace BuilderCall

def apply (s : ChannelSelector) : BuilderCall → ChannelSelector
  | withSource address => s.withSource address
  | withDestination address => s.withDestination address
  | withId id => s.withId id
  | withAllowedStates states => s.withAllowedStates states
  | withClosureTimeRange range => s.withClosureTimeRange range

def source? : BuilderCall → Option Address
  | withSource address => some address
  | _ => none

def destination? : BuilderCall → Option Address
  | withDestination address => some address
  | _ => none

def id? : BuilderCall → Option ChannelId
  | withId id => some id
  | _ => none

def states : BuilderCall → List ChannelStatusDiscriminants
  | withAllowedStates states => states
  | _ => []

def range? : BuilderCall → Option (BoundPair DateTime)
  | withClosureTimeRange range => some range
  | _ => none

/-- The call is one of `with_id`, `with_source` and `with_destination`. -/
def identifies (c : BuilderCall) : Bool := c.id?.isSome || c.source?.isSome || c.destination?.isSome

end BuilderCall

def build (calls : List BuilderCall) : ChannelSelector := calls.foldl BuilderCall.apply .default

/-! ### What a sequence says -/

section Sequence

variable {β : Type}

/-- The calls after the last `with_id`. -/
def sinceId (calls : List BuilderCall) : List BuilderCall :=
  calls.rtakeWhile fun c => c.id?.isNone

/-- The id, if the last call that identifies channels is a `with_id`. -/
def lastId (calls : List BuilderCall) : Option ChannelId :=
  ((calls.filter BuilderCall.identifies).getLast?).bind BuilderCall.id?

def allStates (calls : List BuilderCall) : List ChannelStatusDiscriminants :=
  calls.flatMap BuilderCall.states

theorem lastWrite_sinceId_snoc (f : BuilderCall → Option β) (calls : List BuilderCall)
    (c : BuilderCall) :
    lastWrite f (sinceId (calls ++ [c])) =
      if c.id?.isNone then (f c).or (lastWrite f (sinceId calls)) else none := by
  unfold sinceId
  rw [List.rtakeWhile_concat]
  split
  · exact lastWrite_snoc f _ c
  · rfl

theorem lastId_snoc (calls : List BuilderCall) (c : BuilderCall) :
    lastId (calls ++ [c]) = if c.identifies then c.id? else lastId calls := by
  unfold lastId
  rw [List.filter_append, List.getLast?_append]
  split
  · next h => simp [h]
  · next h => simp [h]

end Sequence

/-- The channels that a sequence of calls is meant to select. -/
structure Meaning (calls : List BuilderCall) (channel : ChannelEntry) : Prop where
  parties : match lastId calls with
    | some id => channel.id = id
    | none =>
      (∀ source, lastWrite BuilderCall.source? (sinceId calls) = some source →
        channel.source = source) ∧
      ∀ dst, lastWrite BuilderCall.destination? (sinceId calls) = some dst →
        channel.destination = dst
  state : allStates calls = [] ∨ channel.status.discriminant ∈ allStates calls
  closure : .pendingToClose ∈ allStates calls → ∀ time, channel.status = .pendingToClose time →
    ((lastWrite BuilderCall.range? calls).getD (.unbounded, .unbounded)).contains time = true

/-! ### What the calls build -/

theorem build_snoc (calls : List BuilderCall) (c : BuilderCall) :
    build (calls ++ [c]) = c.apply (build calls) :=
  List.foldl_concat _ _ _ _

/-- **The fields of the built selector.** -/
theorem build_fields (calls : List BuilderCall) :
    (build calls).id = lastId calls ∧
    (build calls).source = lastWrite BuilderCall.source? (sinceId calls) ∧
    (build calls).destination = lastWrite BuilderCall.destination? (sinceId calls) ∧
    (build calls).allowedStates = allStates calls ∧
    (build calls).closureTimeRange =
      (lastWrite BuilderCall.range? calls).getD (.unbounded, .unbounded) := by
  induction calls using List.reverseRecOn with
  | nil => exact ⟨rfl, rfl, rfl, rfl, rfl⟩
  | append_singleton calls c ih =>
    obtain ⟨hid, hsource, hdst, hstates, hrange⟩ := ih
    have hall : allStates (calls ++ [c]) = allStates calls ++ c.states := by
      simp [allStates]
    rw [build_snoc, lastId_snoc, lastWrite_sinceId_snoc, lastWrite_sinceId_snoc, hall, lastWrite_snoc]
    rcases c with address | address | id | states | range
    · exact ⟨rfl, rfl, hdst, hstates.trans (List.append_nil _).symm, hrange⟩
    · exact ⟨rfl, hsource, rfl, hstates.trans (List.append_nil _).symm, hrange⟩
    · exact ⟨rfl, rfl, rfl, hstates.trans (List.append_nil _).symm, hrange⟩
    · exact ⟨hid, hsource, hdst, congrArg (· ++ states) hstates, hrange⟩
    · exact ⟨hid, hsource, hdst, hstates.trans (List.append_nil _).symm, rfl⟩

/-- An id excludes the parties, and the parties an id. -/
def ChannelSelector.Exclusive (s : ChannelSelector) : Prop :=
  s.id ≠ none → s.source = none ∧ s.destination = none

theorem BuilderCall.exclusive_apply {s : ChannelSelector} (h : s.Exclusive) (c : BuilderCall) :
    (c.apply s).Exclusive := by
  rcases c with address | address | id | states | range
  · exact fun hid => absurd rfl hid
  · exact fun hid => absurd rfl hid
  · exact fun _ => ⟨rfl, rfl⟩
  · exact h
  · exact h

theorem exclusive_build (calls : List BuilderCall) : (build calls).Exclusive := by
  induction calls using List.reverseRecOn with
  | nil => exact fun hid => absurd rfl hid
  | append_singleton calls c ih =>
    rw [build_snoc]
    exact c.exclusive_apply ih

theorem satisfies_build_iff (calls : List BuilderCall) (channel : ChannelEntry) :
    (build calls).satisfies channel = true ↔ Meaning calls channel := by
  obtain ⟨hid, hsource, hdst, hstates, hrange⟩ := build_fields calls
  have hparties : (build calls).matchesParties channel = true ↔
      match lastId calls with
      | some id => channel.id = id
      | none =>
        (∀ source, lastWrite BuilderCall.source? (sinceId calls) = some source →
          channel.source = source) ∧
        ∀ dst, lastWrite BuilderCall.destination? (sinceId calls) = some dst →
          channel.destination = dst := by
    rcases h : lastId calls with _ | id
    · rw [ChannelSelector.matchesParties_of_no_id (hid.trans h), hsource, hdst]
    · exact ChannelSelector.matchesParties_of_id (hid.trans h)
  rw [ChannelSelector.satisfies_iff, ChannelSelector.allowsStatus_iff, hparties, hstates, hrange]
  exact ⟨fun h => ⟨h.1, h.2.1, h.2.2⟩, fun h => ⟨h.parties, h.state, h.closure⟩⟩

/-! ### Reordering calls -/

/-- What a selector selects by, with the allowed states as a set. -/
structure Selection where
  source : Option Address
  destination : Option Address
  id : Option ChannelId
  states : Set ChannelStatusDiscriminants
  range : BoundPair DateTime

def ChannelSelector.selection (s : ChannelSelector) : Selection where
  source := s.source
  destination := s.destination
  id := s.id
  states := { d | d ∈ s.allowedStates }
  range := s.closureTimeRange

def Selection.apply (x : Selection) : BuilderCall → Selection
  | .withSource address => { x with source := some address, id := none }
  | .withDestination address => { x with destination := some address, id := none }
  | .withId id => { x with id := some id, source := none, destination := none }
  | .withAllowedStates states => { x with states := x.states ∪ { d | d ∈ states } }
  | .withClosureTimeRange range => { x with range := range }

theorem selection_apply (s : ChannelSelector) (c : BuilderCall) :
    s.selection.apply c = (c.apply s).selection := by
  rcases c with address | address | id | states | range
  · rfl
  · rfl
  · rfl
  · have hunion : { d | d ∈ s.allowedStates } ∪ { d | d ∈ states } =
        { d | d ∈ s.allowedStates ++ states } := by
      ext d
      exact List.mem_append.symm
    simp only [BuilderCall.apply, ChannelSelector.withAllowedStates, ChannelSelector.selection,
      Selection.apply, hunion]
  · rfl

theorem selection_foldl (s : ChannelSelector) (calls : List BuilderCall) :
    (calls.foldl BuilderCall.apply s).selection = calls.foldl Selection.apply s.selection :=
  (List.foldl_hom ChannelSelector.selection selection_apply).symm

/-- Selectors with the same selection select the same channels. -/
theorem satisfies_congr {s s' : ChannelSelector} (h : s.selection = s'.selection)
    (channel : ChannelEntry) : s.satisfies channel = s'.satisfies channel := by
  simp only [ChannelSelector.selection, Selection.mk.injEq] at h
  obtain ⟨hsource, hdst, hid, hstates, hrange⟩ := h
  have hmem : ∀ d, d ∈ s.allowedStates ↔ d ∈ s'.allowedStates := fun d => Set.ext_iff.1 hstates d
  have hempty : s.allowedStates = [] ↔ s'.allowedStates = [] := by
    simp only [List.eq_nil_iff_forall_not_mem, hmem]
  have hparties : s.matchesParties channel = s'.matchesParties channel := by
    simp only [ChannelSelector.matchesParties, hsource, hdst, hid]
  rw [Bool.eq_iff_iff, ChannelSelector.satisfies_iff, ChannelSelector.satisfies_iff, hparties,
    ChannelSelector.allowsStatus_iff, ChannelSelector.allowsStatus_iff, hempty, hmem, hmem, hrange]

/-- Calls other than `with_id` commute, unless they set the same field to different values. -/
theorem Selection.apply_comm {c c' : BuilderCall} (hid : c.id? = none) (hid' : c'.id? = none)
    (hsource : ∀ a a', c.source? = some a → c'.source? = some a' → a = a')
    (hdst : ∀ a a', c.destination? = some a → c'.destination? = some a' → a = a')
    (hrange : ∀ r r', c.range? = some r → c'.range? = some r' → r = r') (x : Selection) :
    (x.apply c).apply c' = (x.apply c').apply c := by
  rcases c with a | a | id | states | range
  · rcases c' with a' | a' | id' | states' | range'
    · rw [hsource a a' rfl rfl]
    · rfl
    · cases hid'
    · rfl
    · rfl
  · rcases c' with a' | a' | id' | states' | range'
    · rfl
    · rw [hdst a a' rfl rfl]
    · cases hid'
    · rfl
    · rfl
  · cases hid
  · rcases c' with a' | a' | id' | states' | range'
    · rfl
    · rfl
    · cases hid'
    · simp only [Selection.apply, Set.union_right_comm]
    · rfl
  · rcases c' with a' | a' | id' | states' | range'
    · rfl
    · rfl
    · cases hid'
    · rfl
    · rw [hrange range range' rfl rfl]

/-- **The meaning of any sequence of builder calls.** -/
theorem build_meaning (calls : List BuilderCall) :
    ((build calls).id ≠ none → (build calls).source = none ∧ (build calls).destination = none) ∧
    (∀ channel, (build calls).satisfies channel = true ↔ Meaning calls channel) ∧
    -- reordering calls of a sequence that contains them
    ∀ calls' before after, calls.Perm calls' → (∀ id, .withId id ∉ calls) →
      AtMostOneWrite BuilderCall.source? calls → AtMostOneWrite BuilderCall.destination? calls →
      AtMostOneWrite BuilderCall.range? calls → ∀ channel,
        (build (before ++ calls' ++ after)).satisfies channel =
          (build (before ++ calls ++ after)).satisfies channel := by
  refine ⟨exclusive_build calls, satisfies_build_iff calls, ?_⟩
  intro calls' before after hperm hid hsource hdst hrange channel
  have hnoid : ∀ c ∈ calls, c.id? = none := by
    intro c hc
    rcases c with a | a | id | states | range
    · rfl
    · rfl
    · exact absurd hc (hid id)
    · rfl
    · rfl
  have hcomm : ∀ x : Selection, calls.foldl Selection.apply x = calls'.foldl Selection.apply x :=
    hperm.foldl_eq' fun c hc c' hc' x => Selection.apply_comm (hnoid c hc) (hnoid c' hc')
      (fun _ _ => hsource.eq hc hc') (fun _ _ => hdst.eq hc hc') (fun _ _ => hrange.eq hc hc') x
  refine satisfies_congr ?_ channel
  unfold build
  rw [selection_foldl, selection_foldl]
  simp only [List.foldl_append, hcomm]

end HoprApi.Chain
