/-
The slice `squeaks` of the frontend's store: what the squeak page shows, and the lists of the
timeline, the search and the profile page. The reducers are told the answer of the server; only the
one of a deletion is told the request as well.
-/
import Squeaknode.Admin.Messages

namespace Squeaknode

namespace SqueaksSlice

open SqueakAdminPb2 (SqueakDisplayEntry)

structure OfferDisplayEntry where
  offerId : Int
  squeakHash : String
  deriving DecidableEq, Repr

inductive RequestStatus where
  | idle
  | loading
  deriving DecidableEq, Repr

def RequestStatus.isLoading : RequestStatus → Bool
  | idle => false
  | loading => true

theorem RequestStatus.isLoading_ite {p : Prop} [Decidable p] {status status₁ status₂ : RequestStatus}
    (h : status = if p then status₁ else status₂) :
    status.isLoading = if p then status₁.isLoading else status₂.isLoading := by
  rw [h, apply_ite isLoading]

/-- A list that grows page by page. -/
structure SqueakList where
  status : RequestStatus
  squeaks : List SqueakDisplayEntry

inductive ListName where
  | timeline
  | search
  | profile
  deriving DecidableEq, Repr

structure State where
  currentSqueakStatus : RequestStatus
  currentSqueak : Option SqueakDisplayEntry
  ancestorSqueaksStatus : RequestStatus
  ancestorSqueaks : List SqueakDisplayEntry
  replySqueaksStatus : RequestStatus
  replySqueaks : List SqueakDisplayEntry
  timelineSqueaks : SqueakList
  searchSqueaks : SqueakList
  profileSqueaks : SqueakList
  squeakOffersStatus : RequestStatus
  squeakOffers : List OfferDisplayEntry
  buySqueakStatus : RequestStatus
  downloadSqueakStatus : RequestStatus

def initialState : State where
  currentSqueakStatus := .idle
  currentSqueak := none
  ancestorSqueaksStatus := .idle
  ancestorSqueaks := []
  replySqueaksStatus := .idle
  replySqueaks := []
  timelineSqueaks := ⟨.idle, []⟩
  searchSqueaks := ⟨.idle, []⟩
  profileSqueaks := ⟨.idle, []⟩
  squeakOffersStatus := .idle
  squeakOffers := []
  buySqueakStatus := .idle
  downloadSqueakStatus := .idle

/-! ## The lists -/

def State.list (s : State) : ListName → SqueakList
  | .timeline => s.timelineSqueaks
  | .search => s.searchSqueaks
  | .profile => s.profileSqueaks

def State.modifyList (s : State) (f : SqueakList → SqueakList) : ListName → State
  | .timeline => { s with timelineSqueaks := f s.timelineSqueaks }
  | .search => { s with searchSqueaks := f s.searchSqueaks }
  | .profile => { s with profileSqueaks := f s.profileSqueaks }

@[simp] theorem list_modifyList (s : State) (f : SqueakList → SqueakList) (n m : ListName) :
    (s.modifyList f n).list m = if m = n then f (s.list m) else s.list m := by
  cases n <;> cases m <;> rfl

def clearList (n : ListName) (s : State) : State := s.modifyList (fun l => { l with squeaks := [] }) n

def clearTimeline : State → State := clearList .timeline
def clearSearch : State → State := clearList .search
def clearProfileSqueaks : State → State := clearList .profile

def listPending (n : ListName) (s : State) : State := s.modifyList (fun l => { l with status := .loading }) n

def fetchTimelinePending : State → State := listPending .timeline
def fetchSearchPending : State → State := listPending .search
def fetchProfileSqueaksPending : State → State := listPending .profile

def listFulfilled (n : ListName) (newEntities : List SqueakDisplayEntry) (s : State) : State :=
  s.modifyList (fun l => ⟨.idle, l.squeaks ++ newEntities⟩) n

def fetchTimelineFulfilled : List SqueakDisplayEntry → State → State := listFulfilled .timeline
def fetchSearchFulfilled : List SqueakDisplayEntry → State → State := listFulfilled .search
def fetchProfileSqueaksFulfilled : List SqueakDisplayEntry → State → State := listFulfilled .profile

/-! ## The squeak page -/

def fetchSqueakPending (s : State) : State := { s with currentSqueakStatus := .loading }

/-- The server has no entry for a squeak that it does not hold. -/
def fetchSqueakFulfilled (newSqueak : Option SqueakDisplayEntry) (s : State) : State :=
  { s with currentSqueak := newSqueak, currentSqueakStatus := .idle }

def fetchAncestorSqueaksPending (s : State) : State := { s with ancestorSqueaksStatus := .loading }

def fetchAncestorSqueaksFulfilled (ancestorSqueaks : List SqueakDisplayEntry) (s : State) : State :=
  { s with ancestorSqueaks := ancestorSqueaks, ancestorSqueaksStatus := .idle }

def fetchReplySqueaksPending (s : State) : State := { s with replySqueaksStatus := .loading }

def fetchReplySqueaksFulfilled (replySqueaks : List SqueakDisplayEntry) (s : State) : State :=
  { s with replySqueaks := replySqueaks, replySqueaksStatus := .idle }

def fetchSqueakOffersPending (s : State) : State := { s with squeakOffersStatus := .loading }

def fetchSqueakOffersFulfilled (squeakOffers : List OfferDisplayEntry) (s : State) : State :=
  { s with squeakOffers := squeakOffers, squeakOffersStatus := .idle }

/-! ## Actions on a squeak -/

/-- The first squeak with the hash is replaced. -/
def updatedSqueakInArray (newSqueak : SqueakDisplayEntry) : List SqueakDisplayEntry → List SqueakDisplayEntry
  | [] => []
  | squeak :: rest =>
    if squeak.squeakHash = newSqueak.squeakHash then newSqueak :: rest
    else squeak :: updatedSqueakInArray newSqueak rest

def removeSqueakInArray (squeakArr : List SqueakDisplayEntry) (squeakHash : String) : List SqueakDisplayEntry :=
  squeakArr.filter fun squeak => squeak.squeakHash != squeakHash

def SqueakList.update (newSqueak : SqueakDisplayEntry) (l : SqueakList) : SqueakList :=
  { l with squeaks := updatedSqueakInArray newSqueak l.squeaks }

def SqueakList.remove (squeakHash : String) (l : SqueakList) : SqueakList :=
  { l with squeaks := removeSqueakInArray l.squeaks squeakHash }

/-- The squeak takes the place of the one with its hash, wherever that is shown. -/
def replaceSqueak (newSqueak : SqueakDisplayEntry) (s : State) : State :=
  { s with
    currentSqueak := s.currentSqueak.map fun squeak =>
      if squeak.squeakHash = newSqueak.squeakHash then newSqueak else squeak
    timelineSqueaks := s.timelineSqueaks.update newSqueak
    searchSqueaks := s.searchSqueaks.update newSqueak
    ancestorSqueaks := updatedSqueakInArray newSqueak s.ancestorSqueaks
    replySqueaks := updatedSqueakInArray newSqueak s.replySqueaks
    profileSqueaks := s.profileSqueaks.update newSqueak }

/-- The reducer asks the answer for its hash. -/
def State.comparesHashes (s : State) : Bool :=
  s.currentSqueak.isSome || !s.timelineSqueaks.squeaks.isEmpty || !s.searchSqueaks.squeaks.isEmpty ||
    !s.ancestorSqueaks.isEmpty || !s.replySqueaks.isEmpty || !s.profileSqueaks.squeaks.isEmpty

/-- Without an entry in the answer there is nothing to replace, and a reducer that asks for its hash
raises, which leaves the store as it was. -/
def setLikeSqueakFulfilled : Option SqueakDisplayEntry → State → State
  | some newSqueak, s => replaceSqueak newSqueak s
  | none, s => s

def setUnlikeSqueakFulfilled : Option SqueakDisplayEntry → State → State := setLikeSqueakFulfilled

def setDeleteSqueakFulfilled (deletedSqueakHash : String) (s : State) : State :=
  { s with
    currentSqueak := s.currentSqueak.filter fun squeak => squeak.squeakHash != deletedSqueakHash
    timelineSqueaks := s.timelineSqueaks.remove deletedSqueakHash
    searchSqueaks := s.searchSqueaks.remove deletedSqueakHash
    ancestorSqueaks := removeSqueakInArray s.ancestorSqueaks deletedSqueakHash
    replySqueaks := removeSqueakInArray s.replySqueaks deletedSqueakHash
    profileSqueaks := s.profileSqueaks.remove deletedSqueakHash }

def setBuySqueakPending (s : State) : State := { s with buySqueakStatus := .loading }
def setBuySqueakRejected (s : State) : State := { s with buySqueakStatus := .idle }

def setBuySqueakFulfilled : Option SqueakDisplayEntry → State → State
  | some newSqueak, s => replaceSqueak newSqueak { s with buySqueakStatus := .idle }
  | none, s => if s.comparesHashes then s else { s with buySqueakStatus := .idle }

def setDownloadSqueakPending (s : State) : State := { s with downloadSqueakStatus := .loading }
def setDownloadSqueakRejected (s : State) : State := { s with downloadSqueakStatus := .idle }

/-- The squeak that was downloaded becomes the current one, whichever the page shows. -/
def setDownloadSqueakFulfilled (newSqueak : Option SqueakDisplayEntry) (s : State) : State :=
  { s with downloadSqueakStatus := .idle, currentSqueak := newSqueak }

end SqueaksSlice

end Squeaknode
