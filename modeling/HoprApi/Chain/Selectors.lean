import HoprApi.Chain.Channels
import HoprApi.Lib.LastWrite

/-!
# Account and service selectors

Every builder call of these selectors overwrites one field, so a sequence of calls selects by the
last call of each kind, whatever the order between the kinds (`selectors_meaning`).
-/

namespace HoprApi.Chain

open HoprApi.Lib

/-! ### Accounts -/

/-- A 32-byte public key. -/
abbrev OffchainPublicKey := BitVec 256

/-- An on-chain account, as far as a selector looks at it. -/
structure AccountEntry where
  publicKey : OffchainPublicKey
  chainAddr : Address
  hasAnnouncedWithRoutingInfo : Bool
  deriving DecidableEq

@[ext] structure AccountSelector where
  /-- Only accounts that announced with publicly routable addresses. -/
  publicOnly : Bool
  chainKey : Option Address
  offchainKey : Option OffchainPublicKey
  deriving DecidableEq

namespace AccountSelector

def default : AccountSelector := ⟨false, none, none⟩

def withPublicOnly (s : AccountSelector) (publicOnly : Bool) : AccountSelector :=
  { s with publicOnly := publicOnly }

def withChainKey (s : AccountSelector) (chainKey : Address) : AccountSelector :=
  { s with chainKey := some chainKey }

def withOffchainKey (s : AccountSelector) (offchainKey : OffchainPublicKey) : AccountSelector :=
  { s with offchainKey := some offchainKey }

def satisfies (s : AccountSelector) (account : AccountEntry) : Bool :=
  if s.publicOnly && !account.hasAnnouncedWithRoutingInfo then false
  else if s.chainKey.any fun chainKey => account.chainAddr != chainKey then false
  else if s.offchainKey.any fun packetKey => account.publicKey != packetKey then false
  else true

end AccountSelector

/-! ### Services -/

/-- An entry of the service registry, as far as a selector looks at it. -/
structure ServiceEntry (ServiceType : Type) where
  serviceType : ServiceType
  node : Address

@[ext] structure ServiceSelector (ServiceType : Type) where
  serviceType : Option ServiceType
  node : Option Address
  /-- Only entries whose node still has a Safe binding. -/
  liveOnly : Bool

namespace ServiceSelector

variable {ServiceType : Type}

def default : ServiceSelector ServiceType := ⟨none, none, false⟩

def withServiceType (s : ServiceSelector ServiceType) (serviceType : ServiceType) :
    ServiceSelector ServiceType :=
  { s with serviceType := some serviceType }

def withNode (s : ServiceSelector ServiceType) (node : Address) : ServiceSelector ServiceType :=
  { s with node := some node }

def withLiveOnly (s : ServiceSelector ServiceType) (liveOnly : Bool) :
    ServiceSelector ServiceType :=
  { s with liveOnly := liveOnly }

/-- Checks if the given entry satisfies the selector; the liveness of its node is supplied. -/
def satisfies [DecidableEq ServiceType] (s : ServiceSelector ServiceType)
    (entry : ServiceEntry ServiceType) (nodeIsLive : Bool) : Bool :=
  if s.liveOnly && !nodeIsLive then false
  else if s.serviceType.any fun serviceType => entry.serviceType != serviceType then false
  else if s.node.any fun node => entry.node != node then false
  else true

end ServiceSelector

/-! ### The checks -/

/-- The chain of checks that both selectors go through: a flag and two optional keys. -/
theorem checks_iff {α β : Type} [DecidableEq α] [DecidableEq β] {flag ok : Bool} {x? : Option α}
    {y? : Option β} {x : α} {y : β} :
    (if flag && !ok then false
      else if x?.any fun x' => x != x' then false
      else if y?.any fun y' => y != y' then false
      else true) = true ↔
      (flag = true → ok = true) ∧ (∀ x', x? = some x' → x = x') ∧ ∀ y', y? = some y' → y = y' := by
  have hflag : (flag && !ok) = true ↔ ¬ (flag = true → ok = true) := by
    rcases flag with _ | _
    · simp
    · simp
  have hkey : ∀ {γ : Type} [DecidableEq γ] (z? : Option γ) (z : γ),
      (z?.any fun z' => z != z') = true ↔ ¬ ∀ z', z? = some z' → z = z' := by
    intro γ _ z? z
    rcases z? with _ | z'
    · simp
    · simp
  split_ifs with h₁ h₂ h₃
  · exact iff_of_false not_false fun h => hflag.1 h₁ h.1
  · exact iff_of_false not_false fun h => (hkey x? x).1 h₂ h.2.1
  · exact iff_of_false not_false fun h => (hkey y? y).1 h₃ h.2.2
  · rw [hflag, not_not] at h₁
    rw [hkey, not_not] at h₂ h₃
    exact iff_of_true rfl ⟨h₁, h₂, h₃⟩

/-! ### Builder calls -/

/-- A builder call on an account selector. -/
inductive AccountCall where
  | withPublicOnly (publicOnly : Bool)
  | withChainKey (chainKey : Address)
  | withOffchainKey (offchainKey : OffchainPublicKey)

namespace AccountCall

def apply (s : AccountSelector) : AccountCall → AccountSelector
  | withPublicOnly publicOnly => s.withPublicOnly publicOnly
  | withChainKey chainKey => s.withChainKey chainKey
  | withOffchainKey offchainKey => s.withOffchainKey offchainKey

def publicOnly? : AccountCall → Option Bool
  | withPublicOnly publicOnly => some publicOnly
  | _ => none

def chainKey? : AccountCall → Option Address
  | withChainKey chainKey => some chainKey
  | _ => none

def offchainKey? : AccountCall → Option OffchainPublicKey
  | withOffchainKey offchainKey => some offchainKey
  | _ => none

/-- The selector that a sequence of calls builds from the default one. -/
def build (calls : List AccountCall) : AccountSelector := calls.foldl apply .default

/-- **The fields of the built selector**: the last call of each kind. -/
theorem build_eq (calls : List AccountCall) :
    build calls = ⟨(lastWrite publicOnly? calls).getD false, lastWrite chainKey? calls,
      lastWrite offchainKey? calls⟩ := by
  ext1
  · refine foldl_eq_lastWrite AccountSelector.publicOnly (fun s c => ?_) _ calls
    rcases c with _ | _ | _ <;> rfl
  · refine (foldl_or_lastWrite AccountSelector.chainKey (fun s c => ?_) _ calls).trans
      Option.or_none
    rcases c with _ | _ | _ <;> rfl
  · refine (foldl_or_lastWrite AccountSelector.offchainKey (fun s c => ?_) _ calls).trans
      Option.or_none
    rcases c with _ | _ | _ <;> rfl

/-- What a sequence of calls is meant to select. -/
structure Meaning (calls : List AccountCall) (account : AccountEntry) : Prop where
  routable : lastWrite publicOnly? calls = some true → account.hasAnnouncedWithRoutingInfo = true
  chainKey : ∀ key, lastWrite chainKey? calls = some key → account.chainAddr = key
  offchainKey : ∀ key, lastWrite offchainKey? calls = some key → account.publicKey = key

theorem satisfies_build_iff (calls : List AccountCall) (account : AccountEntry) :
    (build calls).satisfies account = true ↔ Meaning calls account := by
  have hflag : (lastWrite publicOnly? calls).getD false = true ↔
      lastWrite publicOnly? calls = some true := by
    rcases lastWrite publicOnly? calls with _ | _ | _ <;> simp
  rw [build_eq]
  refine checks_iff.trans ?_
  rw [hflag]
  exact ⟨fun h => ⟨h.1, h.2.1, h.2.2⟩, fun h => ⟨h.routable, h.chainKey, h.offchainKey⟩⟩

end AccountCall

/-- A builder call on a service selector. -/
inductive ServiceCall (ServiceType : Type) where
  | withServiceType (serviceType : ServiceType)
  | withNode (node : Address)
  | withLiveOnly (liveOnly : Bool)

namespace ServiceCall

variable {ServiceType : Type}

def apply (s : ServiceSelector ServiceType) : ServiceCall ServiceType → ServiceSelector ServiceType
  | withServiceType serviceType => s.withServiceType serviceType
  | withNode node => s.withNode node
  | withLiveOnly liveOnly => s.withLiveOnly liveOnly

def serviceType? : ServiceCall ServiceType → Option ServiceType
  | withServiceType serviceType => some serviceType
  | _ => none

def node? : ServiceCall ServiceType → Option Address
  | withNode node => some node
  | _ => none

def liveOnly? : ServiceCall ServiceType → Option Bool
  | withLiveOnly liveOnly => some liveOnly
  | _ => none

def build (calls : List (ServiceCall ServiceType)) : ServiceSelector ServiceType :=
  calls.foldl apply .default

theorem build_eq (calls : List (ServiceCall ServiceType)) :
    build calls = ⟨lastWrite serviceType? calls, lastWrite node? calls,
      (lastWrite liveOnly? calls).getD false⟩ := by
  ext1
  · refine (foldl_or_lastWrite ServiceSelector.serviceType (fun s c => ?_) _ calls).trans
      Option.or_none
    rcases c with _ | _ | _ <;> rfl
  · refine (foldl_or_lastWrite ServiceSelector.node (fun s c => ?_) _ calls).trans Option.or_none
    rcases c with _ | _ | _ <;> rfl
  · refine foldl_eq_lastWrite ServiceSelector.liveOnly (fun s c => ?_) _ calls
    rcases c with _ | _ | _ <;> rfl

structure Meaning (calls : List (ServiceCall ServiceType)) (entry : ServiceEntry ServiceType)
    (nodeIsLive : Bool) : Prop where
  live : lastWrite liveOnly? calls = some true → nodeIsLive = true
  serviceType : ∀ type, lastWrite serviceType? calls = some type → entry.serviceType = type
  node : ∀ node, lastWrite node? calls = some node → entry.node = node

theorem satisfies_build_iff [DecidableEq ServiceType] (calls : List (ServiceCall ServiceType))
    (entry : ServiceEntry ServiceType) (nodeIsLive : Bool) :
    (build calls).satisfies entry nodeIsLive = true ↔ Meaning calls entry nodeIsLive := by
  have hflag : (lastWrite liveOnly? calls).getD false = true ↔
      lastWrite liveOnly? calls = some true := by
    rcases lastWrite liveOnly? calls with _ | _ | _ <;> simp
  rw [build_eq]
  refine checks_iff.trans ?_
  rw [hflag]
  exact ⟨fun h => ⟨h.1, h.2.1, h.2.2⟩, fun h => ⟨h.live, h.serviceType, h.node⟩⟩

end ServiceCall

/-- **What any sequence of builder calls selects.** -/
theorem selectors_meaning {ServiceType : Type} [DecidableEq ServiceType] :
    (∀ calls : List AccountCall,
      (∀ account, (AccountCall.build calls).satisfies account = true ↔
        AccountCall.Meaning calls account) ∧
      -- calls of different kinds may be reordered
      ∀ calls', calls.Perm calls' → AtMostOneWrite AccountCall.publicOnly? calls →
        AtMostOneWrite AccountCall.chainKey? calls →
        AtMostOneWrite AccountCall.offchainKey? calls →
        AccountCall.build calls' = AccountCall.build calls) ∧
    ∀ calls : List (ServiceCall ServiceType),
      (∀ entry nodeIsLive, (ServiceCall.build calls).satisfies entry nodeIsLive = true ↔
        ServiceCall.Meaning calls entry nodeIsLive) ∧
      ∀ calls', calls.Perm calls' → AtMostOneWrite ServiceCall.serviceType? calls →
        AtMostOneWrite ServiceCall.node? calls → AtMostOneWrite ServiceCall.liveOnly? calls →
        ServiceCall.build calls' = ServiceCall.build calls := by
  refine ⟨fun calls => ⟨AccountCall.satisfies_build_iff calls, ?_⟩,
    fun calls => ⟨ServiceCall.satisfies_build_iff calls, ?_⟩⟩
  · intro calls' hperm hpublic hchain hoffchain
    rw [AccountCall.build_eq, AccountCall.build_eq, lastWrite_perm _ hperm hpublic,
      lastWrite_perm _ hperm hchain, lastWrite_perm _ hperm hoffchain]
  · intro calls' hperm htype hnode hlive
    rw [ServiceCall.build_eq, ServiceCall.build_eq, lastWrite_perm _ hperm htype,
      lastWrite_perm _ hperm hnode, lastWrite_perm _ hperm hlive]

/-! ### The read operations of the chain -/

/-- On-chain read operations regarding accounts, with errors `η`. -/
structure ChainReadAccountOperations (η : Type) where
  /-- The accounts that a selector selects, in the order in which they are streamed. -/
  streamAccounts : AccountSelector → Except η (List AccountEntry)

/-- Whenever a listing succeeds, it is of exactly those of the given accounts that satisfy the
selector. -/
def ChainReadAccountOperations.Lists {η : Type} (client : ChainReadAccountOperations η)
    (accounts : List AccountEntry) : Prop :=
  ∀ s listed, client.streamAccounts s = .ok listed →
    ∀ account, account ∈ listed ↔ account ∈ accounts ∧ s.satisfies account = true

end HoprApi.Chain
