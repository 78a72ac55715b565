/-
The slice `peers` of the frontend's store: the peer that is shown, and the lists of the connected and of the
saved peers. Every change of a peer is answered with a whole list. As in `profiles`, each status tracks the
requests of one thunk, and no rejection is handled (`table`).
-/
import Squeaknode.Frontend.SqueaksSlice
import Squeaknode.Interleave.InFlight

namespace Squeaknode

namespace PeersSlice

open Interleave
open SqueaksSlice (RequestStatus)
open SqueakAdminPb2 (PeerAddress)

/-- A saved peer as the server lists it, always with its address. -/
structure SqueakPeer where
  peerId : Int
  peerName : String
  peerAddress : PeerAddress
  autoconnect : Bool
  shareForFree : Bool

structure ConnectedPeer where
  peerAddress : PeerAddress
  connectTimeS : Int
  lastMessageReceivedTimeS : Int
  numberMessagesReceived : Int
  numberBytesReceived : Int
  numberMessagesSent : Int
  numberBytesSent : Int

structure State where
  currentPeerStatus : RequestStatus
  currentPeer : Option SqueakPeer
  connectedPeersStatus : RequestStatus
  connectedPeers : List ConnectedPeer
  savedPeersStatus : RequestStatus
  savedPeers : List SqueakPeer
  connectPeerStatus : RequestStatus
  disconnectPeerStatus : RequestStatus
  savePeerStatus : RequestStatus
  deletePeerStatus : RequestStatus

def initialState : State where
  currentPeerStatus := .idle
  currentPeer := none
  connectedPeersStatus := .idle
  connectedPeers := []
  savedPeersStatus := .idle
  savedPeers := []
  connectPeerStatus := .idle
  disconnectPeerStatus := .idle
  savePeerStatus := .idle
  deletePeerStatus := .idle

/-! ## Reducers -/

def clearAll (s : State) : State := { s with currentPeerStatus := .idle, currentPeer := none }
def clearSavedPeers (s : State) : State := { s with savedPeersStatus := .idle, savedPeers := [] }

def fetchPeerPending (s : State) : State := { s with currentPeerStatus := .loading }

/-- The server has no peer for an address that is not saved. -/
def fetchPeerFulfilled (newPeer : Option SqueakPeer) (s : State) : State :=
  { s with currentPeer := newPeer, currentPeerStatus := .idle }

def fetchConnectedPeersPending (s : State) : State := { s with connectedPeersStatus := .loading }

def fetchConnectedPeersFulfilled (newConnectedPeers : List ConnectedPeer) (s : State) : State :=
  { s with connectedPeers := newConnectedPeers, connectedPeersStatus := .idle }

def fetchSavedPeersPending (s : State) : State := { s with savedPeersStatus := .loading }

def fetchSavedPeersFulfilled (newSavedPeers : List SqueakPeer) (s : State) : State :=
  { s with savedPeers := newSavedPeers, savedPeersStatus := .idle }

def setConnectPeerPending (s : State) : State := { s with connectPeerStatus := .loading }

def setConnectPeerFulfilled (newConnectedPeers : List ConnectedPeer) (s : State) : State :=
  { s with connectedPeers := newConnectedPeers, connectPeerStatus := .idle }

def setDisconnectPeerPending (s : State) : State := { s with disconnectPeerStatus := .loading }

def setDisconnectPeerFulfilled (newConnectedPeers : List ConnectedPeer) (s : State) : State :=
  { s with connectedPeers := newConnectedPeers, disconnectPeerStatus := .idle }

def setSavePeerPending (s : State) : State := { s with savePeerStatus := .loading }

/-- The peer that was saved becomes the current one. Its port is compared as a number, whether it was typed or
not. -/
def setSavePeerFulfilled (savedAddress : PeerAddress) (newSavedPeers : List SqueakPeer) (s : State) : State :=
  { s with
    currentPeer := newSavedPeers.find? fun savedPeer => savedPeer.peerAddress = savedAddress
    savedPeers := newSavedPeers
    savePeerStatus := .idle }

def setDeletePeerPending (s : State) : State := { s with deletePeerStatus := .loading }

def setDeletePeerFulfilled (newSavedPeers : List SqueakPeer) (s : State) : State :=
  { s with currentPeer := none, savedPeers := newSavedPeers, deletePeerStatus := .idle }

/-- The peer that was changed becomes the current one. -/
def autoconnectFulfilled (peerId : Int) (newSavedPeers : List SqueakPeer) (s : State) : State :=
  { s with
    currentPeer := newSavedPeers.find? fun savedPeer => savedPeer.peerId = peerId
    savedPeers := newSavedPeers }

def setPeerAutoconnectEnabledFulfilled : Int → List SqueakPeer → State → State := autoconnectFulfilled
def setPeerAutoconnectDisabledFulfilled : Int → List SqueakPeer → State → State := autoconnectFulfilled

/-! ## The thunks -/

/-- The thunks of the slice. -/
inductive Thunk where
  | fetchPeer
  | fetchConnectedPeers
  | fetchSavedPeers
  | setConnectPeer
  | setDisconnectPeer
  | setSavePeer
  | setDeletePeer
  | setPeerAutoconnectEnabled
  | setPeerAutoconnectDisabled
  deriving DecidableEq

/-- A fulfilled action, as far as its reducer reads its payload and its argument. -/
inductive Fulfilled where
  | fetchPeer (newPeer : Option SqueakPeer)
  | fetchConnectedPeers (newConnectedPeers : List ConnectedPeer)
  | fetchSavedPeers (newSavedPeers : List SqueakPeer)
  | setConnectPeer (newConnectedPeers : List ConnectedPeer)
  | setDisconnectPeer (newConnectedPeers : List ConnectedPeer)
  | setSavePeer (savedAddress : PeerAddress) (newSavedPeers : List SqueakPeer)
  | setDeletePeer (newSavedPeers : List SqueakPeer)
  | setPeerAutoconnectEnabled (peerId : Int) (newSavedPeers : List SqueakPeer)
  | setPeerAutoconnectDisabled (peerId : Int) (newSavedPeers : List SqueakPeer)

/-- The thunk of a fulfilled action. -/
def Fulfilled.thunk : Fulfilled → Thunk
  | .fetchPeer _ => .fetchPeer
  | .fetchConnectedPeers _ => .fetchConnectedPeers
  | .fetchSavedPeers _ => .fetchSavedPeers
  | .setConnectPeer _ => .setConnectPeer
  | .setDisconnectPeer _ => .setDisconnectPeer
  | .setSavePeer _ _ => .setSavePeer
  | .setDeletePeer _ => .setDeletePeer
  | .setPeerAutoconnectEnabled _ _ => .setPeerAutoconnectEnabled
  | .setPeerAutoconnectDisabled _ _ => .setPeerAutoconnectDisabled

/-- The reducers of the pending actions. -/
def pending : Thunk → State → State
  | .fetchPeer => fetchPeerPending
  | .fetchConnectedPeers => fetchConnectedPeersPending
  | .fetchSavedPeers => fetchSavedPeersPending
  | .setConnectPeer => setConnectPeerPending
  | .setDisconnectPeer => setDisconnectPeerPending
  | .setSavePeer => setSavePeerPending
  | .setDeletePeer => setDeletePeerPending
  | _ => id

/-- The reducers of the fulfilled actions. -/
def fulfilled : Fulfilled → State → State
  | .fetchPeer newPeer => fetchPeerFulfilled newPeer
  | .fetchConnectedPeers newConnectedPeers => fetchConnectedPeersFulfilled newConnectedPeers
  | .fetchSavedPeers newSavedPeers => fetchSavedPeersFulfilled newSavedPeers
  | .setConnectPeer newConnectedPeers => setConnectPeerFulfilled newConnectedPeers
  | .setDisconnectPeer newConnectedPeers => setDisconnectPeerFulfilled newConnectedPeers
  | .setSavePeer savedAddress newSavedPeers => setSavePeerFulfilled savedAddress newSavedPeers
  | .setDeletePeer newSavedPeers => setDeletePeerFulfilled newSavedPeers
  | .setPeerAutoconnectEnabled peerId newSavedPeers => setPeerAutoconnectEnabledFulfilled peerId newSavedPeers
  | .setPeerAutoconnectDisabled peerId newSavedPeers => setPeerAutoconnectDisabledFulfilled peerId newSavedPeers

/-- The slice has no case for a rejected action. -/
def rejected (_ : Thunk) : State → State := id

/-- The clearing actions of the slice. -/
inductive Clear where
  | clearAll
  | clearSavedPeers

/-- The reducers of the clearing actions. -/
def clear : Clear → State → State
  | .clearAll => clearAll
  | .clearSavedPeers => clearSavedPeers

/-! ## The statuses -/

/-- The status fields of the slice. -/
inductive Status where
  | currentPeer
  | connectedPeers
  | savedPeers
  | connectPeer
  | disconnectPeer
  | savePeer
  | deletePeer
  deriving DecidableEq

/-- The value of a status field. -/
def State.status (s : State) : Status → RequestStatus
  | .currentPeer => s.currentPeerStatus
  | .connectedPeers => s.connectedPeersStatus
  | .savedPeers => s.savedPeersStatus
  | .connectPeer => s.connectPeerStatus
  | .disconnectPeer => s.disconnectPeerStatus
  | .savePeer => s.savePeerStatus
  | .deletePeer => s.deletePeerStatus

/-- The status that is set for the thunk. -/
def Thunk.status : Thunk → Option Status
  | .fetchPeer => some .currentPeer
  | .fetchConnectedPeers => some .connectedPeers
  | .fetchSavedPeers => some .savedPeers
  | .setConnectPeer => some .connectPeer
  | .setDisconnectPeer => some .disconnectPeer
  | .setSavePeer => some .savePeer
  | .setDeletePeer => some .deletePeer
  | _ => none

/-- The thunk whose requests the status tracks. -/
def Status.thunk : Status → Thunk
  | .currentPeer => .fetchPeer
  | .connectedPeers => .fetchConnectedPeers
  | .savedPeers => .fetchSavedPeers
  | .connectPeer => .setConnectPeer
  | .disconnectPeer => .setDisconnectPeer
  | .savePeer => .setSavePeer
  | .deletePeer => .setDeletePeer

/-- The status field that a clearing action resets. -/
def Clear.status : Clear → Status
  | .clearAll => .currentPeer
  | .clearSavedPeers => .savedPeers

theorem status_pending (f : Status) (t : Thunk) (s : State) :
    (pending t s).status f = if t.status = some f then .loading else s.status f := by
  cases t <;> cases f <;> rfl

theorem status_fulfilled (f : Status) (x : Fulfilled) (s : State) :
    (fulfilled x s).status f = if x.thunk.status = some f then .idle else s.status f := by
  cases x <;> cases f <;> rfl

theorem status_clear (f : Status) (c : Clear) (s : State) :
    (clear c s).status f = if c.status = f then .idle else s.status f := by
  cases c <;> cases f <;> rfl

theorem status_thunk (f : Status) : f.thunk.status = some f := by
  cases f <;> rfl

theorem status_eq_some {t : Thunk} {f : Status} (h : t.status = some f) : t = f.thunk := by
  cases t <;> cases h <;> rfl

def table : InFlight.Table where
  State := State
  Thunk := Thunk
  Answer := Fulfilled
  Clear := Clear
  Flag := Status
  initialState := initialState
  thunk := Fulfilled.thunk
  pending := pending
  fulfilled := fulfilled
  rejected := rejected
  clear := clear
  isLoading f s := (s.status f).isLoading
  tracks := Thunk.status
  settles _ _ := true
  resets _ := false
  clears c := some c.status
  tracks_inj _ _ _ h h' := (status_eq_some h).trans (status_eq_some h').symm
  isLoading_initial f := by cases f <;> rfl
  isLoading_pending f t s := RequestStatus.isLoading_ite (status_pending f t s)
  isLoading_fulfilled f x s := by
    simp only [and_true]
    exact RequestStatus.isLoading_ite (status_fulfilled f x s)
  isLoading_rejected f t s := by
    simp only [Bool.false_eq_true, and_false, if_false]
    rfl
  isLoading_clear f c s := by
    simp only [Option.some.injEq]
    exact RequestStatus.isLoading_ite (status_clear f c s)

end PeersSlice

end Squeaknode
