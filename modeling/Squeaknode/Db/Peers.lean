/-
The table of saved peers. The host and the port of a peer are UNIQUE together, whatever its network.
-/
import Squeaknode.Core.Types
import Squeaknode.Relational.Table

namespace Squeaknode

open Relational

/-- `create_saved_peer`; any name is valid. -/
def createSavedPeer (peerName : String) (peerAddress : PeerAddress) : SqueakPeer where
  peerId := none
  peerName := peerName
  address := peerAddress
  autoconnect := true
  shareForFree := false

/-- A row of the table `peer`. -/
structure PeerRow where
  peerId : Nat
  createdTimeMs : Int
  peerName : String
  network : Network
  host : String
  port : Int
  autoconnect : Bool
  shareForFree : Bool
  deriving DecidableEq

namespace PeerRow

/-- The columns of `uq_peer_host_port`. -/
def hostPort (r : PeerRow) : String × Int := (r.host, r.port)

/-- `_parse_squeak_peer` -/
def toPeer (r : PeerRow) : SqueakPeer where
  peerId := some r.peerId
  peerName := r.peerName
  address := ⟨r.network, r.host, r.port⟩
  autoconnect := r.autoconnect
  shareForFree := r.shareForFree

end PeerRow

structure Peers where
  table : Table PeerRow
  numbered : table.Numbered PeerRow.peerId
  hostPorts : UniqueOn PeerRow.hostPort table.rows

namespace Peers

/-- The row that `insert_peer` writes. -/
def peerRow (now : Int) (p : SqueakPeer) (id : Nat) : PeerRow where
  peerId := id
  createdTimeMs := now
  peerName := p.peerName
  network := p.address.network
  host := p.address.host
  port := p.address.port
  autoconnect := p.autoconnect
  shareForFree := p.shareForFree

/-- The method does not catch the violation of the constraint. -/
def insertPeer (now : Int) (p : SqueakPeer) (peers : Peers) : Except Err Nat × Peers :=
  let inserted := peers.table.insert PeerRow.hostPort (peerRow now p)
  (inserted.1.elim (.error .integrityError) .ok,
    ⟨inserted.2, peers.numbered.insert fun _ => rfl, Table.uniqueOn_insert peers.hostPorts⟩)

def getPeer (peerId : Nat) (peers : Peers) : Option SqueakPeer :=
  (findBy PeerRow.peerId peerId peers.table.rows).map PeerRow.toPeer

/-- The network of the address does not count. -/
def getPeerByAddress (peerAddress : PeerAddress) (peers : Peers) : Option SqueakPeer :=
  (findBy PeerRow.hostPort (peerAddress.host, peerAddress.port) peers.table.rows).map PeerRow.toPeer

def getPeers (peers : Peers) : List SqueakPeer := peers.table.rows.map PeerRow.toPeer

def getAutoconnectPeers (peers : Peers) : List SqueakPeer :=
  (peers.table.rows.filter PeerRow.autoconnect).map PeerRow.toPeer

/-- UPDATE of the row with an id, in columns that are no keys. -/
def updatePeer (peerId : Nat) (f : PeerRow → PeerRow) (hid : ∀ r, (f r).peerId = r.peerId)
    (hf : ∀ r, (f r).hostPort = r.hostPort) (peers : Peers) : Peers :=
  ⟨peers.table.update (fun r => r.peerId == peerId) f, peers.numbered.update hid,
    uniqueOn_updateWhere hf peers.hostPorts⟩

def setPeerAutoconnect (peerId : Nat) (autoconnect : Bool) : Peers → Peers :=
  updatePeer peerId (fun r => { r with autoconnect := autoconnect }) (fun _ => rfl) fun _ => rfl

def setPeerShareForFree (peerId : Nat) (shareForFree : Bool) : Peers → Peers :=
  updatePeer peerId (fun r => { r with shareForFree := shareForFree }) (fun _ => rfl) fun _ => rfl

def setPeerName (peerId : Nat) (peerName : String) : Peers → Peers :=
  updatePeer peerId (fun r => { r with peerName := peerName }) (fun _ => rfl) fun _ => rfl

def deletePeer (peerId : Nat) (peers : Peers) : Peers :=
  ⟨peers.table.delete fun r => r.peerId == peerId, peers.numbered.delete _, uniqueOn_deleteWhere peers.hostPorts⟩

end Peers

end Squeaknode
