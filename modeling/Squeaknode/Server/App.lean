/-
The server side of a peer connection: the sell price, `SqueakPeerServerHandler`, and the routes of
the Flask app. A route answers every request: what its handler raises becomes a status.
-/
import Squeaknode.Node.SqueakStore

namespace Squeaknode

open Interleave SqueakDb

variable {L : Squeaklib} {ρ : Type} (N : Node L ρ)

/-! ## Settings and controller -/

namespace NodeSettings

def username : String := "default"

def getSellPriceMsat : NodeM ρ (Option Int) := query (getConfigSellPriceMsat username)

end NodeSettings

namespace SqueakController

def getSellPriceMsat : NodeM ρ Int := do
  match ← NodeSettings.getSellPriceMsat with
  | none => return N.priceMsat
  | some configuredPrice => return configuredPrice

/-- The address in the configuration, when its host is not empty. -/
def lndExternalAddress : Option LightningAddressHostPort :=
  if N.lndExternalHost = "" then none else some ⟨N.lndExternalHost, N.lndPort⟩

def getPackagedOffer (squeakHash : Bytes) (peerAddress : PeerAddress) : NodeM ρ (Option Offer) := do
  let priceMsat ← getSellPriceMsat N
  if priceMsat = 0 then
    return none
  else
    SqueakStore.getPackagedOffer N squeakHash peerAddress priceMsat (lndExternalAddress N)

end SqueakController

/-! ## The handler -/

namespace SqueakPeerServerHandler

def handleGetSqueakBytes (squeakHashStr : String) : NodeM ρ Bytes := do
  let squeakHash ← Prog.ofExcept (fromHex squeakHashStr)
  match ← SqueakStore.getSqueak L squeakHash with
  | none => throw .notFoundError
  | some squeak => return L.serialize squeak

/-- An empty secret key counts as none. -/
def handleGetSecretKey (squeakHashStr : String) : NodeM ρ Bytes := do
  let squeakHash ← Prog.ofExcept (fromHex squeakHashStr)
  let priceMsat ← SqueakController.getSellPriceMsat N
  if priceMsat > 0 then
    throw .paymentRequiredError
  else
    let secretKey ← SqueakStore.getSqueakSecretKey squeakHash
    match secretKey.filter fun k => !k.isEmpty with
    | none => throw .notFoundError
    | some secretKey => return secretKey

def handleGetOffer (squeakHashStr clientHost : String) : NodeM ρ Offer := do
  let squeakHash ← Prog.ofExcept (fromHex squeakHashStr)
  match ← SqueakController.getPackagedOffer N squeakHash ⟨.IPV4, clientHost, 0⟩ with
  | none => throw .notFoundError
  | some offer => return offer

def parsePubkeys (L : Squeaklib) (pubkeyStrs : List String) : Except Err (List L.PublicKey) :=
  pubkeyStrs.mapM fun pubkeyStr => do
    let bytes ← fromHex pubkeyStr
    L.publicKeyFromBytes bytes

/-- The bounds stay the texts of the URL. -/
def handleLookupSqueaks (pubkeyStrs : List String) (minBlock maxBlock : Option String) : NodeM ρ (List Bytes) := do
  let pubkeys ← Prog.ofExcept (parsePubkeys L pubkeyStrs)
  SqueakStore.lookupSqueaks N pubkeys (minBlock.map Bound.text) (maxBlock.map Bound.text) none

end SqueakPeerServerHandler

/-! ## The routes -/

namespace App

open SqueakPeerServerHandler

def text (s : String) : Bytes := s.toUTF8.data.toList

/-- The status that a route gives to an exception it handles. -/
def statusOf : Err → Option Response
  | .notFoundError => some ⟨404, text "Not found"⟩
  | .paymentRequiredError => some ⟨402, text "Payment required"⟩
  | _ => none

/-- What a route that handles the exceptions `handled` sends. For all others Flask sends a page of
its own: `page` is the one for each status. -/
def respond (page : Nat → Bytes) (handled : List Err) : Except Err Bytes → Response
  | .ok content => ⟨200, content⟩
  | .error e => (if e ∈ handled then statusOf e else none).getD ⟨500, page 500⟩

def answer (page : Nat → Bytes) (handled : List Err) (p : NodeM ρ Bytes) : NodeM ρ Response :=
  ((fun content => respond page handled (.ok content)) <$> p).catchWith fun e => return respond page handled (.error e)

def offerJson (offer : Offer) : Json := .obj [
  ("squeak_hash", .str (hex offer.squeakHash)),
  ("nonce", .str (hex offer.nonce)),
  ("payment_request", .str offer.paymentRequest),
  ("host", offer.host),
  ("port", .int offer.port)]

def lookupJson (squeakHashes : List Bytes) : Json := .arr (squeakHashes.map fun h => .str (hex h))

def squeak (hash : String) : NodeM ρ Bytes := handleGetSqueakBytes (L := L) hash

def secretKey (hash : String) : NodeM ρ Bytes := handleGetSecretKey N hash

def offer (hash clientHost : String) : NodeM ρ Bytes := do
  let offer ← handleGetOffer N hash clientHost
  return N.json.jsonify (offerJson offer)

/-- `request.args.get`: the first value of a parameter. -/
def arg (name : String) (args : List (String × String)) : Option String :=
  (args.find? fun a => a.1 == name).map Prod.snd

/-- `request.args.getlist`: all values of a parameter. -/
def argList (name : String) (args : List (String × String)) : List String :=
  (args.filter fun a => a.1 == name).map Prod.snd

/-- Without public keys nothing is looked up. -/
def lookup (args : List (String × String)) : NodeM ρ Bytes := do
  let squeakHashes ← if (argList "pubkeys" args).isEmpty then pure []
    else handleLookupSqueaks N (argList "pubkeys" args) (arg "minblock" args) (arg "maxblock" args)
  return N.json.jsonify (lookupJson squeakHashes)

/-- A text that can stand for `<hash>` in a path. -/
def isSegment (hash : String) : Bool := hash != "" && !hash.toList.contains '/'

/-- The answer to one request from `clientHost`. -/
def serve (page : Nat → Bytes) (clientHost : String) : Request → NodeM ρ Response
  | .squeak hash =>
    if isSegment hash then answer page [.notFoundError] (squeak (L := L) hash) else return ⟨404, page 404⟩
  | .secretKey hash =>
    if isSegment hash then answer page [.notFoundError, .paymentRequiredError] (secretKey N hash)
    else return ⟨404, page 404⟩
  | .offer hash =>
    if isSegment hash then answer page [.notFoundError] (offer N hash clientHost) else return ⟨404, page 404⟩
  | .lookup args => answer page [] (lookup N args)

/-- The answers to a sequence of requests, one after the other. -/
def serveAll (page : Nat → Bytes) : List (String × Request) → NodeM ρ (List Response)
  | [] => return []
  | (clientHost, request) :: requests => do
    let response ← serve N page clientHost request
    let responses ← serveAll page requests
    return response :: responses

end App

end Squeaknode
