/-
`SqueakCore`: making squeaks, looking up their block, decrypting them, and the two sides of an
offer, with the arithmetic of the tweak that hides a secret key in the preimage of an invoice.
-/
import Squeaknode.Node.World

namespace Squeaknode

open Interleave SqueakDb

/-! ## Secret keys -/

namespace SecretKeys

variable (L : Squeaklib)

/-- The sum of two scalars, in bytes. -/
def addTweak (n tweak : Bytes) : Except Err Bytes := do
  let nInt ← L.scalarFromBytes n
  let tweakInt ← L.scalarFromBytes tweak
  return L.scalarToBytes (L.scalarSum nInt tweakInt)

/-- The difference of two scalars, in bytes. -/
def subtractTweak (n tweak : Bytes) : Except Err Bytes := do
  let nInt ← L.scalarFromBytes n
  let tweakInt ← L.scalarFromBytes tweak
  return L.scalarToBytes (L.scalarDifference nInt tweakInt)

variable {L}

theorem addTweak_scalarToBytes (hS : L.ScalarLaws) {x y : Nat} (hx : x < L.order) (hy : y < L.order) :
    addTweak L (L.scalarToBytes x) (L.scalarToBytes y) = .ok (L.scalarToBytes ((x + y) % L.order)) := by
  rw [← hS.sum x hx y hy]
  simp only [addTweak, hS.fromBytes x hx, hS.fromBytes y hy]
  rfl

/-- Subtracting the tweak that was added gives the secret key back, also where the sum wraps around. -/
theorem subtractTweak_add (hS : L.ScalarLaws) {x y : Nat} (hx : x < L.order) (hy : y < L.order) :
    subtractTweak L (L.scalarToBytes ((x + y) % L.order)) (L.scalarToBytes y) = .ok (L.scalarToBytes x) := by
  have hsum : (x + y) % L.order < L.order := Nat.mod_lt _ (by omega)
  have hback : ((x + y) % L.order + L.order - y) % L.order = x := by
    rcases Nat.lt_or_ge (x + y) L.order with h | h
    · rw [Nat.mod_eq_of_lt h, show x + y + L.order - y = x + L.order by omega, Nat.add_mod_right, Nat.mod_eq_of_lt hx]
    · have hwrap : (x + y) % L.order = x + y - L.order := by
        rw [Nat.mod_eq_sub_mod h, Nat.mod_eq_of_lt (by omega)]
      rw [hwrap, show x + y - L.order + L.order - y = x by omega, Nat.mod_eq_of_lt hx]
  have hdifference : L.scalarDifference ((x + y) % L.order) y = x := by
    rw [hS.difference _ hsum y hy, hback]
  simp only [subtractTweak, hS.fromBytes _ hsum, hS.fromBytes y hy]
  show Except.ok (L.scalarToBytes (L.scalarDifference ((x + y) % L.order) y)) = _
  rw [hdifference]

end SecretKeys

/-- The hash of a squeak, in the byte order opposite to the one of squeaklib. -/
def getHash (L : Squeaklib) (squeak : L.CSqueak) : Bytes := (L.getHash squeak).reverse

namespace SqueakCore

variable {L : Squeaklib} {ρ : Type} (N : Node L ρ)

/-! ## Squeaks -/

def makeSqueak (signingProfile : SqueakProfile L) (contentStr : String) (replytoHash : Option Bytes)
    (recipientProfile : Option (SqueakProfile L)) : NodeM ρ (L.CSqueak × Bytes) := do
  match signingProfile.privateKey with
  | none => throw (.exception "Can't make squeak with a contact profile.")
  | some privateKey =>
    let blockInfo ← call N.bitcoinClient.getBestBlockInfo
    let timeMs ← ask N.timestampNowMs
    call (N.makeSqueakFromStr privateKey contentStr blockInfo.blockHeight blockInfo.blockHash
      (timeMs / 1000) replytoHash (recipientProfile.map SqueakProfile.publicKey))

/-- The question for a block, with a successful answer left on the trace. -/
def getBlockInfoByHeight (blockHeight : Int) : NodeM ρ BlockInfo :=
  Prog.observed (fun w : World ρ =>
      ((N.bitcoinClient.getBlockInfoByHeight blockHeight w.env).1,
        { w with env := (N.bitcoinClient.getBlockInfoByHeight blockHeight w.env).2 }))
    (fun w => match (N.bitcoinClient.getBlockInfoByHeight blockHeight w.env).1 with
      | .ok blockInfo => [Obs.blockInfo blockHeight blockInfo]
      | .error _ => []) >>= Prog.ofExcept

def getBlockHeader (squeak : L.CSqueak) : NodeM ρ BlockHeader := do
  let blockInfo ← getBlockInfoByHeight N (L.nBlockHeight squeak)
  if L.hashBlock squeak ≠ blockInfo.blockHash then
    throw (.exception "Block hash incorrect.")
  else
    return blockInfo.blockHeader

def getDecryptedContent (squeak : L.CSqueak) (secretKey : Bytes)
    (authorProfile recipientProfile : Option (SqueakProfile L)) : Except Err String :=
  if authorProfile.any fun p => p.privateKey.isNone then
    .error (.exception "Author profile does not have private key.")
  else if recipientProfile.any fun p => p.privateKey.isNone then
    .error (.exception "Recipient profile does not have private key.")
  else
    L.getDecryptedContentStr squeak secretKey (authorProfile.bind SqueakProfile.privateKey)
      (recipientProfile.bind SqueakProfile.privateKey)

/-! ## Offers -/

def createOffer (squeak : L.CSqueak) (secretKey : Bytes) (peerAddress : PeerAddress) (priceMsat : Int) :
    NodeM ρ SentOffer := do
  let nonce ← ask N.generateTweak
  let preimage ← Prog.ofExcept (SecretKeys.addTweak L secretKey nonce)
  let invoice ← call (N.lightningClient.createInvoice preimage priceMsat)
  return {
    sentOfferId := none
    squeakHash := getHash L squeak
    paymentHash := invoice.rHash
    nonce := nonce
    priceMsat := priceMsat
    paymentRequest := invoice.paymentRequest
    invoiceTime := invoice.creationDate
    invoiceExpiry := invoice.expiry
    peerAddress := peerAddress
    paid := false }

/-- The assignment of a list to two names. -/
def unpackTwo {α : Type} : List α → Except Err (α × α)
  | [] => .error (.valueError "not enough values to unpack (expected 2, got 0)")
  | [_] => .error (.valueError "not enough values to unpack (expected 2, got 1)")
  | [a, b] => .ok (a, b)
  | _ => .error (.valueError "too many values to unpack (expected 2)")

theorem unpackTwo_long {α : Type} {parts : List α} (h : 3 ≤ parts.length) :
    unpackTwo parts = .error (.valueError "too many values to unpack (expected 2)") := by
  match parts, h with
  | _ :: _ :: _ :: _, _ => rfl

/-- `uri.split("@")` and `address.split(":")` must give two parts each. -/
def parseLndUri (uri : String) : Except Err LightningAddressHostPort := do
  let (_, address) ← unpackTwo (uri.toList.splitOn '@')
  let (host, portStr) ← unpackTwo (address.splitOn ':')
  let port ← pythonInt (String.ofList portStr)
  return ⟨.str (String.ofList host), port⟩

theorem parseLndUri_parts {uri : String} {pubkey address host portStr : List Char}
    (huri : uri.toList.splitOn '@' = [pubkey, address]) (haddress : address.splitOn ':' = [host, portStr]) :
    parseLndUri uri = (fun port => ⟨.str (String.ofList host), port⟩) <$> pythonInt (String.ofList portStr) := by
  unfold parseLndUri
  rw [huri]
  change (unpackTwo (address.splitOn ':') >>= fun parts => _) = _
  rw [haddress]
  rfl

theorem parseLndUri_manyParts {uri : String} {pubkey address : List Char}
    (huri : uri.toList.splitOn '@' = [pubkey, address]) (haddress : 3 ≤ (address.splitOn ':').length) :
    parseLndUri uri = .error (.valueError "too many values to unpack (expected 2)") := by
  unfold parseLndUri
  rw [huri]
  change (unpackTwo (address.splitOn ':') >>= fun parts => _) = _
  rw [unpackTwo_long haddress]
  rfl

/-- The external address of the lightning node: its first URI counts. -/
def getLndExternalAddress : NodeM ρ (Option LightningAddressHostPort) := do
  let info ← call N.lightningClient.getInfo
  match info.uris with
  | [] => return none
  | uri :: _ =>
    let address ← Prog.ofExcept (parseLndUri uri)
    return some address

def packageOffer (sentOffer : SentOffer) (lndExternalAddress : Option LightningAddressHostPort) :
    NodeM ρ Offer := do
  let address ← match lndExternalAddress with
    | none => getLndExternalAddress N
    | some address => pure (some address)
  return {
    squeakHash := sentOffer.squeakHash
    nonce := sentOffer.nonce
    paymentRequest := sentOffer.paymentRequest
    host := address.elim (.str "") LightningAddressHostPort.host
    port := address.elim 0 LightningAddressHostPort.port }

/-- The payment point of the squeak is stored with the offer; the one of the invoice is not checked. -/
def unpackOffer (squeak : L.CSqueak) (offer : Offer) (peerAddress : PeerAddress) : NodeM ρ ReceivedOffer := do
  if getHash L squeak ≠ offer.squeakHash then
    throw (.exception ("Squeak hash in offer " ++ reprBytes offer.squeakHash ++
      " does not match squeak hash " ++ reprBytes (getHash L squeak) ++ "."))
  else
    let payReq ← call (N.lightningClient.decodePayReq offer.paymentRequest)
    return {
      receivedOfferId := none
      squeakHash := getHash L squeak
      priceMsat := payReq.numMsat
      paymentHash := payReq.paymentHash
      nonce := offer.nonce
      paymentPoint := L.paymentPoint squeak
      invoiceTimestamp := payReq.timestamp
      invoiceExpiry := payReq.expiry
      paymentRequest := offer.paymentRequest
      destination := payReq.destination
      lightningAddress := ⟨if offer.host.truthy then offer.host else peerAddress.host, offer.port⟩
      peerAddress := peerAddress
      paid := false }

/-- What is recorded of a payment whose preimage is known. -/
def sentPaymentOf (receivedOffer : ReceivedOffer) (preimage : Bytes) : Except Err SentPayment := do
  let secretKey ← SecretKeys.subtractTweak L preimage receivedOffer.nonce
  let point ← L.paymentPointBytesFromScalarBytes secretKey
  return {
    sentPaymentId := none
    createdTimeMs := none
    peerAddress := receivedOffer.peerAddress
    squeakHash := receivedOffer.squeakHash
    paymentHash := receivedOffer.paymentHash
    secretKey := secretKey
    priceMsat := receivedOffer.priceMsat
    nodePubkey := receivedOffer.destination
    valid := point == receivedOffer.paymentPoint }

def payOffer (receivedOffer : ReceivedOffer) : NodeM ρ SentPayment := do
  let payment ← call (N.lightningClient.payInvoice receivedOffer.paymentRequest)
  if payment.paymentPreimage = [] then
    throw (.exception ("Payment failed with error: " ++ payment.paymentError))
  else
    Prog.ofExcept (sentPaymentOf (L := L) receivedOffer payment.paymentPreimage)

end SqueakCore

end Squeaknode
