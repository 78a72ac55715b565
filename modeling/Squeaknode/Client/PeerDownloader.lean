/-
The client side of a peer connection: `PeerClient` asks a peer over HTTP and decodes its answers,
`PeerDownloader` saves the squeaks, keys and offers it gets.
-/
import Squeaknode.Node.SqueakStore

namespace Squeaknode

open Interleave SqueakDb

variable {L : Squeaklib} {ρ : Type}

/-! ## The client -/

namespace PeerClient

variable (N : Node L ρ) (peer : SqueakPeer)

/-- The parameters of the lookup URL; an empty list of public keys leaves none. -/
def lookupArgs (minBlock maxBlock : Int) (pubkeys : List L.PublicKey) : List (String × String) :=
  ("minblock", toString minBlock) :: ("maxblock", toString maxBlock) ::
    pubkeys.map fun pubkey => ("pubkeys", hex (L.publicKeyToBytes pubkey))

/-- Whatever its status, the answer must be JSON that is iterated over as hex texts. -/
def parseLookup (J : JsonCodec) (content : Bytes) : Except Err (List Bytes) := do
  let json ← J.loads content
  let items ← json.iter
  items.mapM fun item => do
    let text ← item.asStr
    fromHex text

def lookup (minBlock maxBlock : Int) (pubkeys : List L.PublicKey) : NodeM ρ (List Bytes) := do
  let r ← call (N.requestsGet peer.address (.lookup (lookupArgs minBlock maxBlock pubkeys)))
  Prog.ofExcept (parseLookup N.json r.content)

def getSqueak (squeakHash : Bytes) : NodeM ρ (Option L.CSqueak) := do
  let r ← call (N.requestsGet peer.address (.squeak (hex squeakHash)))
  if r.statusCode ≠ 200 then
    return none
  else
    let squeak ← Prog.ofExcept (L.deserialize r.content)
    return some squeak

def getSecretKey (squeakHash : Bytes) : NodeM ρ (Option Bytes) := do
  let r ← call (N.requestsGet peer.address (.secretKey (hex squeakHash)))
  if r.statusCode ≠ 200 then
    return none
  else
    return some r.content

def parseOffer (J : JsonCodec) (content : Bytes) : Except Err Offer := do
  let json ← J.loads content
  let squeakHash ← fromHex (← (← json.get "squeak_hash").asStr)
  let nonce ← fromHex (← (← json.get "nonce").asStr)
  let paymentRequest ← (← json.get "payment_request").asStr
  let host ← json.get "host"
  let port ← (← json.get "port").toInt
  return ⟨squeakHash, nonce, paymentRequest, host, port⟩

def getOffer (squeakHash : Bytes) : NodeM ρ (Option Offer) := do
  let r ← call (N.requestsGet peer.address (.offer (hex squeakHash)))
  if r.statusCode ≠ 200 then
    return none
  else
    let offer ← Prog.ofExcept (parseOffer N.json r.content)
    return some offer

end PeerClient

/-! ## The downloader -/

namespace PeerDownloader

variable (N : Node L ρ) (peer : SqueakPeer)

/-- What `download_squeak` requires of a squeak: a bound that is `None` or 0, and a list of public
keys that is `None` or empty, exclude nothing. -/
def wanted (squeakHash : Bytes) (minBlock maxBlock : Option Int) (pubkeys : Option (List L.PublicKey))
    (squeak : L.CSqueak) : Bool :=
  getHash L squeak == squeakHash &&
  whenTruthy minBlock (· != 0) (fun b => !(L.nBlockHeight squeak < b)) &&
  whenTruthy maxBlock (· != 0) (fun b => !(L.nBlockHeight squeak > b)) &&
  whenTruthy pubkeys (fun ps => !ps.isEmpty) (fun ps => ps.contains (L.getPubKey squeak))

/-- The signature of a squeak does not matter. -/
theorem wanted_congr {squeak squeak' : L.CSqueak} (hhash : getHash L squeak = getHash L squeak')
    (hheight : L.nBlockHeight squeak = L.nBlockHeight squeak') (hauthor : L.getPubKey squeak = L.getPubKey squeak')
    (squeakHash : Bytes) (minBlock maxBlock : Option Int) (pubkeys : Option (List L.PublicKey)) :
    wanted squeakHash minBlock maxBlock pubkeys squeak = wanted squeakHash minBlock maxBlock pubkeys squeak' := by
  simp only [wanted, hhash, hheight, hauthor]

/-- `download_squeak`, with the program that saves a squeak. -/
def downloadSqueakWith (saveSqueak : L.CSqueak → NodeM ρ (Option Bytes)) (squeakHash : Bytes)
    (minBlock maxBlock : Option Int) (pubkeys : Option (List L.PublicKey)) : NodeM ρ Unit := do
  match ← SqueakStore.getSqueak L squeakHash with
  | some _ => return ()
  | none =>
    match ← PeerClient.getSqueak N peer squeakHash with
    | none => return ()
    | some squeak =>
      if wanted squeakHash minBlock maxBlock pubkeys squeak then
        let _ ← saveSqueak squeak
        return ()
      else
        return ()

/-- `download_secret_key`, with the programs that save a key and an offer; an empty secret key counts as none, on both
sides. -/
def downloadSecretKeyWith (saveSecretKey : Bytes → Bytes → NodeM ρ Unit)
    (handleOffer : L.CSqueak → Offer → PeerAddress → NodeM ρ Unit) (squeakHash : Bytes) : NodeM ρ Unit := do
  match ← SqueakStore.getSqueak L squeakHash with
  | none => return ()
  | some squeak =>
    let owned ← SqueakStore.getSqueakSecretKey squeakHash
    if owned.any fun k => !k.isEmpty then
      return ()
    else
      let secretKey ← PeerClient.getSecretKey N peer squeakHash
      match secretKey.filter fun k => !k.isEmpty with
      | some secretKey => saveSecretKey squeakHash secretKey
      | none =>
        let receivedOffers ← SqueakStore.getReceivedOffers N squeakHash
        if receivedOffers.any fun o => o.peerAddress == peer.address then
          return ()
        else
          match ← PeerClient.getOffer N peer squeakHash with
          | none => return ()
          | some offer => handleOffer squeak offer peer.address

def downloadInterestRangeWith (saveSqueak : L.CSqueak → NodeM ρ (Option Bytes))
    (saveSecretKey : Bytes → Bytes → NodeM ρ Unit) (handleOffer : L.CSqueak → Offer → PeerAddress → NodeM ρ Unit)
    (minBlock maxBlock : Int) (pubkeys : List L.PublicKey) : NodeM ρ Unit := do
  let squeakHashes ← PeerClient.lookup N peer minBlock maxBlock pubkeys
  squeakHashes.forM fun squeakHash =>
    downloadSqueakWith N peer saveSqueak squeakHash (some minBlock) (some maxBlock) (some pubkeys)
  squeakHashes.forM fun squeakHash => downloadSecretKeyWith N peer saveSecretKey handleOffer squeakHash

def downloadSingleSqueakWith (saveSqueak : L.CSqueak → NodeM ρ (Option Bytes))
    (saveSecretKey : Bytes → Bytes → NodeM ρ Unit) (handleOffer : L.CSqueak → Offer → PeerAddress → NodeM ρ Unit)
    (squeakHash : Bytes) : NodeM ρ Unit := do
  downloadSqueakWith N peer saveSqueak squeakHash none none none
  downloadSecretKeyWith N peer saveSecretKey handleOffer squeakHash

def downloadSqueak (squeakHash : Bytes) (minBlock maxBlock : Option Int)
    (pubkeys : Option (List L.PublicKey)) : NodeM ρ Unit :=
  downloadSqueakWith N peer (SqueakStore.saveSqueak N) squeakHash minBlock maxBlock pubkeys

def downloadSecretKey (squeakHash : Bytes) : NodeM ρ Unit :=
  downloadSecretKeyWith N peer (SqueakStore.saveSecretKey L) (SqueakStore.handleOffer N) squeakHash

def downloadInterestRange (minBlock maxBlock : Int) (pubkeys : List L.PublicKey) : NodeM ρ Unit :=
  downloadInterestRangeWith N peer (SqueakStore.saveSqueak N) (SqueakStore.saveSecretKey L) (SqueakStore.handleOffer N)
    minBlock maxBlock pubkeys

theorem downloadInterestRange_eq (minBlock maxBlock : Int) (pubkeys : List L.PublicKey) :
    downloadInterestRange N peer minBlock maxBlock pubkeys = (do
      let squeakHashes ← PeerClient.lookup N peer minBlock maxBlock pubkeys
      squeakHashes.forM fun squeakHash =>
        downloadSqueak N peer squeakHash (some minBlock) (some maxBlock) (some pubkeys)
      squeakHashes.forM (downloadSecretKey N peer)) := rfl

def downloadSingleSqueak (squeakHash : Bytes) : NodeM ρ Unit :=
  downloadSingleSqueakWith N peer (SqueakStore.saveSqueak N) (SqueakStore.saveSecretKey L) (SqueakStore.handleOffer N)
    squeakHash

end PeerDownloader

end Squeaknode
