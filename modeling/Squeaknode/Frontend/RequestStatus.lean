/-
The statuses of the store: each of the slices `squeaks`, `profiles` and `peers` shows for a thunk whether one of
its requests is in flight, and the pages show a spinner for it. The reducers set `loading` and `idle` without
counting: of two requests that overlap the first answer says `idle`, and but for making, buying and
downloading a squeak nothing says it after a rejection.

So the statuses track the requests throughout a run exactly when every answer and every handled rejection is
that of the last request of its thunk, every other end leaves one in flight, and nothing is cleared that is in
flight (`status_tracks_requests_iff`).
-/
import Squeaknode.Frontend.ProfilesSlice
import Squeaknode.Frontend.PeersSlice

namespace Squeaknode

open Interleave

namespace SqueaksSlice

open SqueakAdminPb2 (SqueakDisplayEntry)

/-! ## The slice `squeaks` -/

/-- The whole state of the slice. -/
structure FullState extends State where
  makeSqueakStatus : RequestStatus

def fullInitialState : FullState := { initialState with makeSqueakStatus := .idle }

def onState (f : State → State) (s : FullState) : FullState := { s with toState := f s.toState }

def clearAll (s : State) : State := { s with currentSqueakStatus := .idle, currentSqueak := none }
def clearAncestors (s : State) : State := { s with ancestorSqueaksStatus := .idle, ancestorSqueaks := [] }
def clearReplies (s : State) : State := { s with replySqueaksStatus := .idle, replySqueaks := [] }

def setMakeSqueakPending (s : FullState) : FullState := { s with makeSqueakStatus := .loading }
def setMakeSqueakRejected (s : FullState) : FullState := { s with makeSqueakStatus := .idle }
def setMakeSqueakFulfilled (s : FullState) : FullState := { s with makeSqueakStatus := .idle }

/-- The thunks of the slice. -/
inductive Thunk where
  | fetchSqueak
  | setLikeSqueak
  | setUnlikeSqueak
  | setDeleteSqueak
  | fetchAncestorSqueaks
  | fetchReplySqueaks
  | fetchTimeline
  | fetchSearch
  | fetchProfileSqueaks
  | setMakeSqueak
  | fetchSqueakOffers
  | setBuySqueak
  | setDownloadSqueak
  deriving DecidableEq

/-- A fulfilled action, as far as its reducer reads its payload and its argument. -/
inductive Fulfilled where
  | fetchSqueak (newSqueak : Option SqueakDisplayEntry)
  | setLikeSqueak (newSqueak : Option SqueakDisplayEntry)
  | setUnlikeSqueak (newSqueak : Option SqueakDisplayEntry)
  | setDeleteSqueak (deletedSqueakHash : String)
  | fetchAncestorSqueaks (ancestorSqueaks : List SqueakDisplayEntry)
  | fetchReplySqueaks (replySqueaks : List SqueakDisplayEntry)
  | fetchTimeline (newEntities : List SqueakDisplayEntry)
  | fetchSearch (newEntities : List SqueakDisplayEntry)
  | fetchProfileSqueaks (newEntities : List SqueakDisplayEntry)
  | setMakeSqueak
  | fetchSqueakOffers (squeakOffers : List OfferDisplayEntry)
  | setBuySqueak (newSqueak : Option SqueakDisplayEntry)
  | setDownloadSqueak (newSqueak : Option SqueakDisplayEntry)

/-- The thunk of a fulfilled action. -/
def Fulfilled.thunk : Fulfilled → Thunk
  | .fetchSqueak _ => .fetchSqueak
  | .setLikeSqueak _ => .setLikeSqueak
  | .setUnlikeSqueak _ => .setUnlikeSqueak
  | .setDeleteSqueak _ => .setDeleteSqueak
  | .fetchAncestorSqueaks _ => .fetchAncestorSqueaks
  | .fetchReplySqueaks _ => .fetchReplySqueaks
  | .fetchTimeline _ => .fetchTimeline
  | .fetchSearch _ => .fetchSearch
  | .fetchProfileSqueaks _ => .fetchProfileSqueaks
  | .setMakeSqueak => .setMakeSqueak
  | .fetchSqueakOffers _ => .fetchSqueakOffers
  | .setBuySqueak _ => .setBuySqueak
  | .setDownloadSqueak _ => .setDownloadSqueak

/-- The thunk of an action on a squeak that no status is kept for does nothing until it is fulfilled. -/
def pending : Thunk → FullState → FullState
  | .fetchSqueak => onState fetchSqueakPending
  | .fetchAncestorSqueaks => onState fetchAncestorSqueaksPending
  | .fetchReplySqueaks => onState fetchReplySqueaksPending
  | .fetchTimeline => onState fetchTimelinePending
  | .fetchSearch => onState fetchSearchPending
  | .fetchProfileSqueaks => onState fetchProfileSqueaksPending
  | .setMakeSqueak => setMakeSqueakPending
  | .fetchSqueakOffers => onState fetchSqueakOffersPending
  | .setBuySqueak => onState setBuySqueakPending
  | .setDownloadSqueak => onState setDownloadSqueakPending
  | _ => id

/-- The reducers of the fulfilled actions. -/
def fulfilled : Fulfilled → FullState → FullState
  | .fetchSqueak newSqueak => onState (fetchSqueakFulfilled newSqueak)
  | .setLikeSqueak newSqueak => onState (setLikeSqueakFulfilled newSqueak)
  | .setUnlikeSqueak newSqueak => onState (setUnlikeSqueakFulfilled newSqueak)
  | .setDeleteSqueak deletedSqueakHash => onState (setDeleteSqueakFulfilled deletedSqueakHash)
  | .fetchAncestorSqueaks ancestorSqueaks => onState (fetchAncestorSqueaksFulfilled ancestorSqueaks)
  | .fetchReplySqueaks replySqueaks => onState (fetchReplySqueaksFulfilled replySqueaks)
  | .fetchTimeline newEntities => onState (fetchTimelineFulfilled newEntities)
  | .fetchSearch newEntities => onState (fetchSearchFulfilled newEntities)
  | .fetchProfileSqueaks newEntities => onState (fetchProfileSqueaksFulfilled newEntities)
  | .setMakeSqueak => setMakeSqueakFulfilled
  | .fetchSqueakOffers squeakOffers => onState (fetchSqueakOffersFulfilled squeakOffers)
  | .setBuySqueak newSqueak => onState (setBuySqueakFulfilled newSqueak)
  | .setDownloadSqueak newSqueak => onState (setDownloadSqueakFulfilled newSqueak)

/-- The reducers of the rejected actions. -/
def rejected : Thunk → FullState → FullState
  | .setMakeSqueak => setMakeSqueakRejected
  | .setBuySqueak => onState setBuySqueakRejected
  | .setDownloadSqueak => onState setDownloadSqueakRejected
  | _ => id

/-- The clearing actions of the slice. -/
inductive Clear where
  | clearAll
  | clearAncestors
  | clearReplies
  | clearTimeline
  | clearSearch
  | clearProfileSqueaks

/-- The reducers of the clearing actions. -/
def clear : Clear → FullState → FullState
  | .clearAll => onState clearAll
  | .clearAncestors => onState clearAncestors
  | .clearReplies => onState clearReplies
  | .clearTimeline => onState clearTimeline
  | .clearSearch => onState clearSearch
  | .clearProfileSqueaks => onState clearProfileSqueaks

/-- The status fields of the slice. -/
inductive Status where
  | currentSqueak
  | ancestorSqueaks
  | replySqueaks
  | timelineSqueaks
  | searchSqueaks
  | profileSqueaks
  | makeSqueak
  | squeakOffers
  | buySqueak
  | downloadSqueak
  deriving DecidableEq

/-- The value of a status field. -/
def FullState.status (s : FullState) : Status → RequestStatus
  | .currentSqueak => s.currentSqueakStatus
  | .ancestorSqueaks => s.ancestorSqueaksStatus
  | .replySqueaks => s.replySqueaksStatus
  | .timelineSqueaks => s.timelineSqueaks.status
  | .searchSqueaks => s.searchSqueaks.status
  | .profileSqueaks => s.profileSqueaks.status
  | .makeSqueak => s.makeSqueakStatus
  | .squeakOffers => s.squeakOffersStatus
  | .buySqueak => s.buySqueakStatus
  | .downloadSqueak => s.downloadSqueakStatus

/-- The status that is set for the thunk. -/
def Thunk.status : Thunk → Option Status
  | .fetchSqueak => some .currentSqueak
  | .fetchAncestorSqueaks => some .ancestorSqueaks
  | .fetchReplySqueaks => some .replySqueaks
  | .fetchTimeline => some .timelineSqueaks
  | .fetchSearch => some .searchSqueaks
  | .fetchProfileSqueaks => some .profileSqueaks
  | .setMakeSqueak => some .makeSqueak
  | .fetchSqueakOffers => some .squeakOffers
  | .setBuySqueak => some .buySqueak
  | .setDownloadSqueak => some .downloadSqueak
  | _ => none

/-- The thunk whose requests the status tracks. -/
def Status.thunk : Status → Thunk
  | .currentSqueak => .fetchSqueak
  | .ancestorSqueaks => .fetchAncestorSqueaks
  | .replySqueaks => .fetchReplySqueaks
  | .timelineSqueaks => .fetchTimeline
  | .searchSqueaks => .fetchSearch
  | .profileSqueaks => .fetchProfileSqueaks
  | .makeSqueak => .setMakeSqueak
  | .squeakOffers => .fetchSqueakOffers
  | .buySqueak => .setBuySqueak
  | .downloadSqueak => .setDownloadSqueak

/-- Clearing a list leaves its status alone. -/
def Clear.status : Clear → Option Status
  | .clearAll => some .currentSqueak
  | .clearAncestors => some .ancestorSqueaks
  | .clearReplies => some .replySqueaks
  | _ => none

/-- The reducer has a case for the rejection. -/
def Thunk.resets : Thunk → Bool
  | .setMakeSqueak | .setBuySqueak | .setDownloadSqueak => true
  | _ => false

/-- The reducer of a squeak that was bought raises if the server has no entry for it any more and there is a squeak
to compare it with. -/
def Fulfilled.settles : Fulfilled → FullState → Bool
  | .setBuySqueak none, s => !s.comparesHashes
  | _, _ => true

theorem status_pending (f : Status) (t : Thunk) (s : FullState) :
    (pending t s).status f = if t.status = some f then .loading else s.status f := by
  cases t <;> cases f <;> rfl

theorem status_setLikeSqueak (f : Status) (newSqueak : Option SqueakDisplayEntry) (s : FullState) :
    (onState (setLikeSqueakFulfilled newSqueak) s).status f = s.status f := by
  cases newSqueak <;> cases f <;> rfl

/-- The reducer that raises leaves the store as it was. -/
theorem fulfilled_setBuySqueak_none (s : FullState) :
    fulfilled (.setBuySqueak none) s = if s.comparesHashes then s else onState setBuySqueakRejected s := by
  show onState (fun s => if s.comparesHashes then s else { s with buySqueakStatus := .idle }) s = _
  rw [onState]
  split <;> rfl

theorem status_fulfilled (f : Status) (x : Fulfilled) (s : FullState) :
    (fulfilled x s).status f = if x.thunk.status = some f ∧ x.settles s = true then .idle else s.status f := by
  cases x with
  | setLikeSqueak newSqueak => exact status_setLikeSqueak f newSqueak s
  | setUnlikeSqueak newSqueak => exact status_setLikeSqueak f newSqueak s
  | setBuySqueak newSqueak =>
    cases newSqueak with
    | some newSqueak => cases f <;> rfl
    | none =>
      have hsettles : Fulfilled.settles (.setBuySqueak none) s = !s.comparesHashes := rfl
      rw [fulfilled_setBuySqueak_none, hsettles]
      cases s.comparesHashes <;> cases f <;> rfl
  | _ => cases f <;> rfl

theorem status_rejected (f : Status) (t : Thunk) (s : FullState) :
    (rejected t s).status f = if t.status = some f ∧ t.resets = true then .idle else s.status f := by
  cases t <;> cases f <;> rfl

theorem status_clear (f : Status) (c : Clear) (s : FullState) :
    (clear c s).status f = if c.status = some f then .idle else s.status f := by
  cases c <;> cases f <;> rfl

theorem status_thunk (f : Status) : f.thunk.status = some f := by
  cases f <;> rfl

theorem status_eq_some {t : Thunk} {f : Status} (h : t.status = some f) : t = f.thunk := by
  cases t <;> cases h <;> rfl

def table : InFlight.Table where
  State := FullState
  Thunk := Thunk
  Answer := Fulfilled
  Clear := Clear
  Flag := Status
  initialState := fullInitialState
  thunk := Fulfilled.thunk
  pending := pending
  fulfilled := fulfilled
  rejected := rejected
  clear := clear
  isLoading f s := (s.status f).isLoading
  tracks := Thunk.status
  settles := Fulfilled.settles
  resets := Thunk.resets
  clears := Clear.status
  tracks_inj _ _ _ h h' := (status_eq_some h).trans (status_eq_some h').symm
  isLoading_initial f := by cases f <;> rfl
  isLoading_pending f t s := RequestStatus.isLoading_ite (status_pending f t s)
  isLoading_fulfilled f x s := RequestStatus.isLoading_ite (status_fulfilled f x s)
  isLoading_rejected f t s := RequestStatus.isLoading_ite (status_rejected f t s)
  isLoading_clear f c s := RequestStatus.isLoading_ite (status_clear f c s)

end SqueaksSlice

/-! ## The store -/

namespace RequestStatuses

open InFlight

/-- The three slices side by side. -/
def store : Table := SqueaksSlice.table.prod (ProfilesSlice.table.prod PeersSlice.table)

/-- Every status is `loading` exactly while a request of its thunk is in flight. -/
structure Tracks (s : Store store) : Prop where
  squeaks : ∀ f : SqueaksSlice.Status, s.state.1.status f = .loading ↔ 0 < s.inFlight (.inl f.thunk)
  profiles : ∀ f : ProfilesSlice.Status, s.state.2.1.status f = .loading ↔ 0 < s.inFlight (.inr (.inl f.thunk))
  peers : ∀ f : PeersSlice.Status, s.state.2.2.status f = .loading ↔ 0 < s.inFlight (.inr (.inr f.thunk))

theorem isLoading_iff {status : SqueaksSlice.RequestStatus} : status.isLoading = true ↔ status = .loading := by
  cases status <;> simp [SqueaksSlice.RequestStatus.isLoading]

theorem busy_squeaks (s : Store store) (f : SqueaksSlice.Status) : s.Busy (.inl f) ↔ 0 < s.inFlight (.inl f.thunk) :=
  busy_iff (map_inl_eq.2 (SqueaksSlice.status_thunk f))

theorem busy_profiles (s : Store store) (f : ProfilesSlice.Status) :
    s.Busy (.inr (.inl f)) ↔ 0 < s.inFlight (.inr (.inl f.thunk)) :=
  busy_iff (map_inr_eq.2 (map_inl_eq.2 (ProfilesSlice.status_thunk f)))

theorem busy_peers (s : Store store) (f : PeersSlice.Status) :
    s.Busy (.inr (.inr f)) ↔ 0 < s.inFlight (.inr (.inr f.thunk)) :=
  busy_iff (map_inr_eq.2 (map_inr_eq.2 (PeersSlice.status_thunk f)))

theorem tracks_iff {s : Store store} : Tracks s ↔ s.TracksRequests := by
  constructor
  · rintro ⟨hsqueaks, hprofiles, hpeers⟩ (f | f | f)
    · exact isLoading_iff.trans ((hsqueaks f).trans (busy_squeaks s f).symm)
    · exact isLoading_iff.trans ((hprofiles f).trans (busy_profiles s f).symm)
    · exact isLoading_iff.trans ((hpeers f).trans (busy_peers s f).symm)
  · intro h
    refine ⟨fun f => ?_, fun f => ?_, fun f => ?_⟩
    · exact isLoading_iff.symm.trans ((h (.inl f)).trans (busy_squeaks s f))
    · exact isLoading_iff.symm.trans ((h (.inr (.inl f))).trans (busy_profiles s f))
    · exact isLoading_iff.symm.trans ((h (.inr (.inr f))).trans (busy_peers s f))

/-- For any number of requests that overlap, in any order of their actions: the statuses track the requests in every
state if and only if every action is orderly. -/
theorem status_tracks_requests_iff {history : List (Store store × Action store)} {s : Store store}
    (hr : Machine.Run step (start store) history s) :
    (∀ t ∈ Machine.states history s, Tracks t) ↔ ∀ x ∈ history, Orderly x.1 x.2 := by
  rw [← tracksRequests_iff hr]
  exact forall₂_congr fun t _ => tracks_iff

/-- A squeak is fetched, and buying another fails. -/
theorem status_tracks_requests_sample : ∃ (history : List (Store store × Action store)) (s : Store store),
    Machine.Run step (start store) history s ∧ history.length = 4 ∧ ∀ t ∈ Machine.states history s, Tracks t := by
  have h₀ : Machine.Run step (start store) [] (start store) := .init
  have h₁ := h₀.next (a := .pending (.inl .fetchSqueak)) rfl
  have h₂ := h₁.next (a := .fulfilled (.inl (.fetchSqueak none))) rfl
  have h₃ := h₂.next (a := .pending (.inl .setBuySqueak)) rfl
  have h₄ := h₃.next (a := .rejected (.inl .setBuySqueak)) rfl
  refine ⟨_, _, h₄, rfl, (status_tracks_requests_iff h₄).2 fun x hx => ?_⟩
  simp only [List.nil_append, List.cons_append, List.mem_cons, List.not_mem_nil, or_false] at hx
  rcases hx with rfl | rfl | rfl | rfl
  · trivial
  · exact fun _ => ⟨fun _ => rfl, fun _ => rfl⟩
  · trivial
  · exact fun _ => ⟨fun _ => rfl, fun _ => rfl⟩

/-- After a squeak could not be fetched its status stays `loading` with no request in flight; and of two pages of
a search the answer to the first makes the status `idle` while the second is in flight. -/
theorem status_out_of_step :
    (∃ (history : List (Store store × Action store)) (s : Store store), Machine.Run step (start store) history s ∧
      s.state.1.currentSqueakStatus = .loading ∧ s.inFlight (.inl .fetchSqueak) = 0 ∧ ¬ Tracks s) ∧
    ∃ (history : List (Store store × Action store)) (s : Store store), Machine.Run step (start store) history s ∧
      s.state.1.searchSqueaks.status = .idle ∧ s.inFlight (.inl .fetchSearch) = 1 ∧ ¬ Tracks s := by
  have h₀ : Machine.Run step (start store) [] (start store) := .init
  constructor
  · have h₁ := h₀.next (a := .pending (.inl .fetchSqueak)) rfl
    have h₂ := h₁.next (a := .rejected (.inl .fetchSqueak)) rfl
    refine ⟨_, _, h₂, rfl, rfl, fun h => ?_⟩
    exact absurd ((h.squeaks .currentSqueak).1 rfl) (Nat.lt_irrefl 0)
  · have h₁ := h₀.next (a := .pending (.inl .fetchSearch)) rfl
    have h₂ := h₁.next (a := .pending (.inl .fetchSearch)) rfl
    have h₃ := h₂.next (a := .fulfilled (.inl (.fetchSearch []))) rfl
    refine ⟨_, _, h₃, rfl, rfl, fun h => ?_⟩
    have hloading := (h.squeaks .searchSqueaks).2 Nat.zero_lt_one
    cases hloading

end RequestStatuses

end Squeaknode
