import HoprApi.Tickets.Management

/-!
# Which channels tickets are redeemed in

The rewritten selector keeps the caller's source and allowed states, drops the id and replaces
destination and closure range (`redeemSelector_satisfies`).  Whether the channels it selects are
channels of the caller's selector (`opens_only_selected_iff`), and whether they are redeemable
(`opens_only_redeemable_iff`), depends on what the caller's selector asks for.
-/

namespace HoprApi.Tickets

open HoprApi.Rust HoprApi.Chain

/-- Whatever the channels, the client of the node `me` and the ticket manager, the call opens redeem
streams in channels with the property `P` only. -/
def OpensOnly (selector : Option ChannelSelector) (me : Address) (minGracePeriod : Option Duration)
    (now : DateTime) (P : ChannelEntry → Prop) : Prop :=
  ∀ (σ η ε V : Type) (tm : TicketManagement σ (ChainReadChannelOperations η) ε V)
    (client : ChainReadChannelOperations η) (minAmount : Option HoprBalance) (m : σ)
    (channels : List ChannelEntry), client.me = me → client.Lists channels →
    ∀ opened ∈ (redeemInChannels tm client minAmount selector minGracePeriod now m).opened,
      P opened.1

def openAll (C : Type) : TicketManagement Unit C Unit Unit where
  redeemStream _ _ _ m := (.ok [], m)

theorem exists_admitted_source (s : ChannelSelector) (me : Address) :
    ∃ source, ∀ admitted, s.source = some admitted → source = admitted := by
  rcases hs : s.source with _ | source
  · exact ⟨me, fun admitted h => by cases h⟩
  · exact ⟨source, fun admitted h => Option.some.inj h⟩

/-! ### The rewritten selector -/

section Rewritten

variable (selector : Option ChannelSelector) (me : Address) (minGracePeriod : Option Duration)
  (now : DateTime)

theorem redeemSelector_satisfies (c : ChannelEntry) :
    (redeemSelector selector me now minGracePeriod).satisfies c = true ↔
      (∀ source, (selector.getD .default).source = some source → c.source = source) ∧
      c.destination = me ∧
      (c.status.discriminant ∈ (selector.getD .default).allowedStates ∨
        c.status.discriminant = .open ∨ c.status.discriminant = .pendingToClose) ∧
      ∀ time, c.status = .pendingToClose time → now + (minGracePeriod.getD 0 : ℕ) ≤ time := by
  have hpending : ChannelStatusDiscriminants.pendingToClose ∈
      (redeemSelector selector me now minGracePeriod).allowedStates := by
    simp [redeemSelector, ChannelSelector.withRedeemableChannels,
      ChannelSelector.withAllowedStates, ChannelSelector.withClosureTimeRange]
  have hid : (redeemSelector selector me now minGracePeriod).id = none := rfl
  rw [ChannelSelector.satisfies_iff, ChannelSelector.matchesParties_of_no_id hid,
    ChannelSelector.allowsStatus_iff, and_assoc]
  refine and_congr_right fun _ => and_congr ?_ (and_congr ?_ ?_)
  · exact ⟨fun h => h me rfl, fun h dst hdst => by cases hdst; exact h⟩
  · constructor
    · rintro (h | h)
      · rw [h] at hpending
        cases hpending
      · simpa [redeemSelector, ChannelSelector.withRedeemableChannels,
          ChannelSelector.withAllowedStates, ChannelSelector.withClosureTimeRange,
          ChannelSelector.withDestination] using h
    · intro h
      right
      simpa [redeemSelector, ChannelSelector.withRedeemableChannels,
        ChannelSelector.withAllowedStates, ChannelSelector.withClosureTimeRange,
        ChannelSelector.withDestination] using h
  · constructor
    · intro h time htime
      exact BoundPair.contains_startingAt.1 (h hpending time htime)
    · intro h _ time htime
      exact BoundPair.contains_startingAt.2 (h time htime)

theorem opensOnly_iff (P : ChannelEntry → Prop) :
    OpensOnly selector me minGracePeriod now P ↔
      ∀ c, (redeemSelector selector me now minGracePeriod).satisfies c = true → P c := by
  constructor
  · intro h c hc
    refine h Unit Unit Unit Unit (openAll _) (.ofChannels Unit me [c]) none () [c] rfl
      (ChainReadChannelOperations.lists_ofChannels Unit me [c]) (c, []) ?_
    have hlist : (ChainReadChannelOperations.ofChannels Unit me [c]).streamChannels
        (redeemSelector selector me now minGracePeriod) = .ok [c] := by
      simp [ChainReadChannelOperations.ofChannels, hc]
    rw [(redeemInChannels_of_ok _ _ _ _ _ _ _ hlist).2.1]
    exact List.mem_singleton.2 rfl
  · intro h σ η ε V tm client minAmount m channels hme hlists opened hopened
    subst hme
    rcases hlist : client.streamChannels (redeemSelector selector client.me now minGracePeriod) with
      e | listed
    · simp [redeemInChannels, hlist] at hopened
    · rw [(redeemInChannels_of_ok tm client minAmount selector minGracePeriod now m hlist).2.1]
        at hopened
      have hmem : opened.1 ∈ listed :=
        (offered_sublist _ _).subset (List.mem_map_of_mem hopened)
      exact h _ ((hlists _ _ hlist opened.1).1 hmem).2

end Rewritten

/-! ### Redeemable channels -/

/-- Tickets of a channel with this status can be redeemed, with a closure time not before `T`. -/
def Redeemable (T : DateTime) (status : ChannelStatus) : Prop :=
  status = .open ∨ ∃ time, status = .pendingToClose time ∧ T ≤ time

/-- **When only redeemable incoming channels are touched**: unless the caller's selector allows
closed channels. -/
theorem opens_only_redeemable_iff (selector : Option ChannelSelector) (me : Address)
    (minGracePeriod : Option Duration) (now : DateTime) :
    OpensOnly selector me minGracePeriod now (fun c =>
      c.destination = me ∧ Redeemable (now + (minGracePeriod.getD 0 : ℕ)) c.status) ↔
    .closed ∉ (selector.getD .default).allowedStates := by
  rw [opensOnly_iff]
  simp only [redeemSelector_satisfies]
  constructor
  · intro h hclosed
    -- a closed channel of an allowed source is selected
    obtain ⟨source, hsource⟩ := exists_admitted_source (selector.getD .default) me
    obtain ⟨-, hopen | ⟨time, htime, -⟩⟩ := h ⟨source, me, .closed, 0⟩
      ⟨hsource, rfl, Or.inl hclosed, fun time htime => by cases htime⟩
    · cases hopen
    · cases htime
  · rintro hclosed ⟨source, dst, status, id⟩ ⟨-, hdst, hstate, htime⟩
    refine ⟨hdst, ?_⟩
    rcases status with _ | _ | time
    · rcases hstate with h | h | h
      · exact absurd h hclosed
      · cases h
      · cases h
    · exact Or.inl rfl
    · exact Or.inr ⟨time, rfl, htime time rfl⟩

theorem opens_closed_channel :
    (redeemInChannels (openAll _) (.ofChannels Unit 2 [⟨1, 2, .closed, 1⟩]) none
      (some (ChannelSelector.default.withAllowedStates [.closed])) none 0 ()).opened =
      [(⟨1, 2, .closed, 1⟩, [])] ∧
    ¬ OpensOnly (some (ChannelSelector.default.withAllowedStates [.closed])) 2 none 0 (fun c =>
      c.destination = 2 ∧ Redeemable (0 + ((none : Option Duration).getD 0 : ℕ)) c.status) := by
  have hopened : (redeemInChannels (openAll _) (.ofChannels Unit 2 [⟨1, 2, .closed, 1⟩]) none
      (some (ChannelSelector.default.withAllowedStates [.closed])) none 0 ()).opened =
      [(⟨1, 2, .closed, 1⟩, [])] := by decide
  refine ⟨hopened, fun h => ?_⟩
  have hlists := ChainReadChannelOperations.lists_ofChannels Unit 2 [⟨1, 2, .closed, 1⟩]
  obtain ⟨-, hopen | ⟨time, htime, -⟩⟩ :=
    h _ _ _ _ (openAll _) _ none () _ rfl hlists _ (hopened ▸ List.mem_singleton_self _)
  · cases hopen
  · cases htime

/-! ### The caller's selection -/

variable [GenerateChannelId]

/-- What a selector must ask for so that its rewriting selects none but its own channels, where `T`
is the earliest closure time: an id only if it is the id of every channel to `me` from a source that
the selector admits; no destination but `me`; all states, or both redeemable ones; and, if it allows
pending channels, every closure time from `T` on. -/
def ClosedUnderRewriting (s : ChannelSelector) (me : Address) (T : DateTime) : Prop :=
  (match s.id with
    | some id => ∀ source, (∀ admitted, s.source = some admitted → source = admitted) →
        generateChannelId source me = id
    | none => ∀ dst, s.destination = some dst → dst = me) ∧
  (s.allowedStates = [] ∨ .open ∈ s.allowedStates ∧ .pendingToClose ∈ s.allowedStates) ∧
  (.pendingToClose ∈ s.allowedStates →
    ∀ time, T ≤ time → s.closureTimeRange.contains time = true)

/-- A selector that is closed under the rewriting accepts every channel the rewritten one selects. -/
theorem ClosedUnderRewriting.satisfies {s : ChannelSelector} {me : Address}
    {minGracePeriod : Option Duration} {now : DateTime} {c : ChannelEntry}
    (hs : ClosedUnderRewriting s me (now + (minGracePeriod.getD 0 : ℕ))) (hparties : c.IdOfParties)
    (hc : (redeemSelector (some s) me now minGracePeriod).satisfies c = true) :
    s.satisfies c = true := by
  obtain ⟨hids, hstates, hrange⟩ := hs
  obtain ⟨hsource, hdst, hstate, htime⟩ := (redeemSelector_satisfies _ _ _ _ c).1 hc
  obtain ⟨source, dst, status, channelId⟩ := c
  simp only [Option.getD_some] at hsource hdst hstate htime
  subst hdst
  rw [ChannelSelector.satisfies_iff, ChannelSelector.allowsStatus_iff]
  refine ⟨?_, ?_, fun hp time ht => ?_⟩
  · rcases hid : s.id with _ | id
    · rw [hid] at hids
      rw [ChannelSelector.matchesParties_of_no_id hid]
      exact ⟨hsource, fun d hd => (hids d hd).symm⟩
    · rw [hid] at hids
      rw [ChannelSelector.matchesParties_of_id hid]
      exact hparties.trans (hids source hsource)
  · rcases hstates with hall | ⟨hopen, hpending⟩
    · exact Or.inl hall
    · right
      rcases hstate with h | h | h
      · exact h
      · exact h ▸ hopen
      · exact h ▸ hpending
  · exact hrange hp time (htime time ht)

/-- A selector that accepts the open channels to `me` of the sources that it admits, and those that
close at `T` or later, is closed under the rewriting. -/
theorem closedUnderRewriting_of_satisfies {s : ChannelSelector} {me : Address} {T : DateTime}
    (hopen : ∀ source, (∀ admitted, s.source = some admitted → source = admitted) →
      s.satisfies ⟨source, me, .open, generateChannelId source me⟩ = true)
    (hpending : ∀ source, (∀ admitted, s.source = some admitted → source = admitted) →
      ∀ time, T ≤ time →
        s.satisfies ⟨source, me, .pendingToClose time, generateChannelId source me⟩ = true) :
    ClosedUnderRewriting s me T := by
  obtain ⟨source, hsource⟩ := exists_admitted_source s me
  simp only [ChannelSelector.satisfies_iff, ChannelSelector.allowsStatus_iff] at hopen hpending
  refine ⟨?_, ?_, fun hp => ?_⟩
  · rcases hid : s.id with _ | id
    · intro dst hdst
      have hparties := (hopen source hsource).1
      rw [ChannelSelector.matchesParties_of_no_id hid] at hparties
      exact (hparties.2 dst hdst).symm
    · intro source hsource
      exact (ChannelSelector.matchesParties_of_id hid).1 (hopen source hsource).1
  · rcases (hopen source hsource).2.1 with hall | hopen'
    · exact Or.inl hall
    · rcases (hpending source hsource T le_rfl).2.1 with hall | hpending'
      · exact Or.inl hall
      · exact Or.inr ⟨hopen', hpending'⟩
  · intro time hle
    exact (hpending source hsource time hle).2.2 hp time rfl

/-- **When the caller's selection is not widened**, on a chain where the id of a channel is the one
of its parties. -/
theorem opens_only_selected_iff (s : ChannelSelector) (me : Address)
    (minGracePeriod : Option Duration) (now : DateTime) :
    OpensOnly (some s) me minGracePeriod now (fun c => c.IdOfParties → s.satisfies c = true) ↔
      ClosedUnderRewriting s me (now + (minGracePeriod.getD 0 : ℕ)) := by
  rw [opensOnly_iff]
  constructor
  · intro h
    refine closedUnderRewriting_of_satisfies (fun source hsource => h _ ?_ rfl)
      (fun source hsource time hle => h _ ?_ rfl)
    · rw [redeemSelector_satisfies]
      exact ⟨hsource, rfl, Or.inr (Or.inl rfl), fun time ht => by cases ht⟩
    · rw [redeemSelector_satisfies]
      refine ⟨hsource, rfl, Or.inr (Or.inr rfl), ?_⟩
      rintro _ ⟨⟩
      exact hle
  · intro hs c hc hparties
    exact hs.satisfies hparties hc

omit [GenerateChannelId] in
/-- A selector for open channels is widened to those that are pending to close. -/
theorem opens_unselected_channel :
    letI : GenerateChannelId := ⟨fun source _ => source.setWidth 256⟩
    (redeemInChannels (openAll _) (.ofChannels Unit 2 [⟨1, 2, .pendingToClose 5, 1⟩]) none
      (some (ChannelSelector.default.withAllowedStates [.open])) none 0 ()).opened =
      [(⟨1, 2, .pendingToClose 5, 1⟩, [])] ∧
    ¬ OpensOnly (some (ChannelSelector.default.withAllowedStates [.open])) 2 none 0 (fun c =>
      c.IdOfParties → (ChannelSelector.default.withAllowedStates [.open]).satisfies c = true) := by
  let : GenerateChannelId := ⟨fun source _ => source.setWidth 256⟩
  have hopened : (redeemInChannels (openAll _)
      (.ofChannels Unit 2 [⟨1, 2, .pendingToClose 5, 1⟩]) none
      (some (ChannelSelector.default.withAllowedStates [.open])) none 0 ()).opened =
      [(⟨1, 2, .pendingToClose 5, 1⟩, [])] := by decide
  refine ⟨hopened, fun h => ?_⟩
  have hlists := ChainReadChannelOperations.lists_ofChannels Unit 2 [⟨1, 2, .pendingToClose 5, 1⟩]
  have hsat := h _ _ _ _ (openAll _) _ none () _ rfl hlists (⟨1, 2, .pendingToClose 5, 1⟩, [])
    (hopened ▸ List.mem_singleton_self _) rfl
  revert hsat
  decide

end HoprApi.Tickets
