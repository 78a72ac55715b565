/-
`SqueakStore`: the operations on squeaks, secret keys and offers as programs of single SQL
statements. The notification of listeners after a write touches no table and is left to `NotifyingStore`.
-/
import Squeaknode.Core.SqueakCore

namespace Squeaknode

open Interleave Relational SqueakDb

namespace SqueakStore

variable {L : Squeaklib} {ρ : Type}

/-! ## Reading and counting squeaks -/

/-- `get_squeak`: the row of the squeak, deserialized. -/
def getSqueak (L : Squeaklib) (squeakHash : Bytes) : NodeM ρ (Option L.CSqueak) := do
  match ← query (findSqueak squeakHash) with
  | none => return none
  | some row =>
    let squeak ← Prog.ofExcept (L.deserialize row.squeak)
    return some squeak

def getSqueakSecretKey (squeakHash : Bytes) : NodeM ρ (Option Bytes) :=
  query (SqueakDb.getSqueakSecretKey squeakHash)

def getNumberOfSqueaks : NodeM ρ Nat :=
  Prog.observed (fun w : World ρ => (SqueakDb.getNumberOfSqueaks w.db, w))
    fun w => [.countedSqueaks (SqueakDb.getNumberOfSqueaks w.db)]

def numberOfSqueaksWithPublicKeyWithBlockHeight (publicKey : Bytes) (blockHeight : Int) : NodeM ρ Nat :=
  Prog.observed
    (fun w : World ρ => (SqueakDb.numberOfSqueaksWithPublicKeyWithBlockHeight publicKey blockHeight w.db, w))
    fun w => [.countedPublicKeyBlock publicKey blockHeight
      (SqueakDb.numberOfSqueaksWithPublicKeyWithBlockHeight publicKey blockHeight w.db)]

/-- What the INSERT of a squeak leaves on the trace: the row, and the counts it was added to. -/
def insertedObs (row : SqueakRow) (db : Db) : List Obs :=
  if taken SqueakRow.hash row.hash db.squeaks then []
  else [.inserted row (SqueakDb.getNumberOfSqueaks db)
    (SqueakDb.numberOfSqueaksWithPublicKeyWithBlockHeight row.authorPublicKey row.blockHeight db)]

theorem insertedObs_of_taken {row : SqueakRow} {db : Db} (h : taken SqueakRow.hash row.hash db.squeaks = true) :
    insertedObs row db = [] := by
  simp [insertedObs, h]

theorem insertedObs_of_free {row : SqueakRow} {db : Db} (h : taken SqueakRow.hash row.hash db.squeaks = false) :
    insertedObs row db = [.inserted row (SqueakDb.getNumberOfSqueaks db)
      (SqueakDb.numberOfSqueaksWithPublicKeyWithBlockHeight row.authorPublicKey row.blockHeight db)] := by
  simp [insertedObs, h]

def insertSqueak (row : SqueakRow) : NodeM ρ (Option Bytes) :=
  Prog.observed
    (fun w : World ρ => ((SqueakDb.insertSqueak row w.db).1, { w with db := (SqueakDb.insertSqueak row w.db).2 }))
    fun w => insertedObs row w.db

variable (N : Node L ρ)

/-! ## Saving squeaks and keys -/

def saveSqueak (squeak : L.CSqueak) : NodeM ρ (Option Bytes) := do
  Prog.ofExcept (L.checkSqueak squeak)
  let blockHeader ← SqueakCore.getBlockHeader N squeak
  let numSqueaks ← getNumberOfSqueaks
  if N.maxSqueaks ≤ numSqueaks then
    throw (.exception "Exceeded max number of squeaks.")
  else
    let num ← numberOfSqueaksWithPublicKeyWithBlockHeight (L.publicKeyToBytes (L.getPubKey squeak))
      (L.nBlockHeight squeak)
    if N.maxSqueaksPerPublicKeyPerBlock ≤ num then
      throw (.exception "Exceeded max number of squeaks per public key per block.")
    else
      let now ← ask N.timestampNowMs
      insertSqueak (squeakRow L now (getHash L squeak) squeak blockHeader)

def getSqueakProfile (L : Squeaklib) (profileId : Nat) : NodeM ρ (Option (SqueakProfile L)) := do
  match ← query (findProfile profileId) with
  | none => return none
  | some row =>
    let profile ← Prog.ofExcept (parseSqueakProfile L row)
    return some profile

/-- A profile id counts as given unless it is `None` or 0. -/
def givenProfile : Option Nat → Option Nat
  | some 0 => none
  | id => id

/-- The profile with a given id, or the exception for an id without one. -/
def requireProfile (L : Squeaklib) (error : Nat → Err) :
    Option Nat → NodeM ρ (Option (SqueakProfile L))
  | none => return none
  | some id => do
    match ← getSqueakProfile L id with
    | none => throw (error id)
    | some profile => return some profile

/-- The recipient's profile is used when both ids are given. -/
def unlockSqueak (L : Squeaklib) (squeakHash : Bytes) (authorProfileId recipientProfileId : Option Nat) :
    NodeM ρ Unit := do
  let squeak ← getSqueak L squeakHash
  let secretKey ← getSqueakSecretKey squeakHash
  match squeak, secretKey with
  | none, _ => throw (.exception "Squeakdoes not exist.")
  | some _, none => throw (.exception "Secret key does not exist.")
  | some squeak, some secretKey =>
    let recipientProfile ← requireProfile L (fun _ => .exception "Recipient profile does not exist.")
      (givenProfile recipientProfileId)
    let authorProfile ← requireProfile L (fun _ => .exception "Author profile does not exist.")
      (if recipientProfile.isSome then none else givenProfile authorProfileId)
    let content ← Prog.ofExcept
      (SqueakCore.getDecryptedContent squeak secretKey authorProfile recipientProfile)
    update (setSqueakDecryptedContent squeakHash content)

/-- `save_secret_key`, with the notification of the listeners. -/
def saveSecretKeyWith (handleNewItem : L.CSqueak → NodeM ρ Unit) (squeakHash secretKey : Bytes) : NodeM ρ Unit := do
  match ← getSqueak L squeakHash with
  | none => throw (.exception "Squeakdoes not exist.")
  | some squeak =>
    Prog.ofExcept (L.checkSqueakSecretKey squeak secretKey)
    update (setSqueakSecretKey squeakHash secretKey)
    handleNewItem squeak
    if L.isPrivateMessage squeak then return ()
    else unlockSqueak L squeakHash none none

def saveSecretKey (L : Squeaklib) (squeakHash secretKey : Bytes) : NodeM ρ Unit :=
  saveSecretKeyWith (fun _ : L.CSqueak => return ()) squeakHash secretKey

/-- `make_squeak`, which saves the squeak and its key with the programs for both. -/
def makeSqueakWith (saveSqueak : L.CSqueak → NodeM ρ (Option Bytes)) (saveSecretKey : Bytes → Bytes → NodeM ρ Unit)
    (profileId : Nat) (contentStr : String) (replytoHash : Option Bytes) (recipientProfileId : Option Nat) :
    NodeM ρ Bytes := do
  match ← getSqueakProfile L profileId with
  | none => throw (.exception s!"Profile with id {profileId} not found.")
  | some squeakProfile =>
    let recipientProfile ← requireProfile L (fun id => .exception s!"Recipient profile with id {id} not found.")
      (givenProfile recipientProfileId)
    let (squeak, secretKey) ← SqueakCore.makeSqueak N squeakProfile contentStr replytoHash recipientProfile
    match ← saveSqueak squeak with
    | none => throw (.exception "Failed to save squeak.")
    | some insertedSqueakHash =>
      saveSecretKey insertedSqueakHash secretKey
      if L.isPrivateMessage squeak then unlockSqueak L insertedSqueakHash (some profileId) none
      else pure ()
      return insertedSqueakHash

def makeSqueak (profileId : Nat) (contentStr : String) (replytoHash : Option Bytes)
    (recipientProfileId : Option Nat) : NodeM ρ Bytes :=
  makeSqueakWith N (saveSqueak N) (saveSecretKey L) profileId contentStr replytoHash recipientProfileId

/-! ## Liking and deleting squeaks -/

def likeSqueak (squeakHash : Bytes) : NodeM ρ Unit := do
  let now ← ask N.timestampNowMs
  update (setSqueakLiked squeakHash now)

def unlikeSqueak (squeakHash : Bytes) : NodeM ρ Unit := update (setSqueakUnliked squeakHash)

def deleteSqueak (squeakHash : Bytes) : NodeM ρ Unit := update (SqueakDb.deleteSqueak squeakHash)

def deleteOldSqueaks : NodeM ρ Unit := do
  let now ← ask N.timestampNowMs
  let squeaksToDelete ← query (getOldSqueaksToDelete now N.squeakRetentionS)
  squeaksToDelete.forM deleteSqueak

/-! ## Buying keys -/

def saveSentPayment (sentPayment : SentPayment) : NodeM ρ Nat := do
  let now ← ask N.timestampNowMs
  let id ← sql (insertSentPayment now sentPayment)
  Prog.ofExcept id

def payOfferWith (saveSecretKey : Bytes → Bytes → NodeM ρ Unit) (receivedOfferId : Nat) : NodeM ρ Nat := do
  match ← query (getReceivedOffer receivedOfferId) with
  | none => throw (.exception s!"Received offer with id {receivedOfferId} not found.")
  | some receivedOffer =>
    let sentPayment ← SqueakCore.payOffer N receivedOffer
    let sentPaymentId ← saveSentPayment N sentPayment
    update (setReceivedOfferPaid sentPayment.paymentHash true)
    saveSecretKey receivedOffer.squeakHash sentPayment.secretKey
    return sentPaymentId

def payOffer (receivedOfferId : Nat) : NodeM ρ Nat := payOfferWith N (saveSecretKey L) receivedOfferId

def saveReceivedOffer (receivedOffer : ReceivedOffer) : NodeM ρ (Option Nat) := do
  let now ← ask N.timestampNowMs
  let id ← sql (insertReceivedOffer now receivedOffer)
  Prog.ofExcept id

/-- `handle_offer`, with the program that saves the offer. -/
def handleOfferWith (saveReceivedOffer : ReceivedOffer → NodeM ρ (Option Nat)) (squeak : L.CSqueak) (offer : Offer)
    (peerAddress : PeerAddress) : NodeM ρ Unit := do
  let receivedOffer ← SqueakCore.unpackOffer N squeak offer peerAddress
  let _ ← saveReceivedOffer receivedOffer
  return ()

def handleOffer (squeak : L.CSqueak) (offer : Offer) (peerAddress : PeerAddress) : NodeM ρ Unit :=
  handleOfferWith N (saveReceivedOffer N) squeak offer peerAddress

def getReceivedOffers (squeakHash : Bytes) : NodeM ρ (List ReceivedOffer) := do
  let now ← ask N.timestampNowMs
  query (SqueakDb.getReceivedOffers squeakHash now)

/-! ## Selling keys -/

def saveSentOffer (sentOffer : SentOffer) : NodeM ρ Nat := do
  let now ← ask N.timestampNowMs
  let id ← sql (insertSentOffer now sentOffer)
  Prog.ofExcept id

/-- An exception while the offer is created is logged and makes the method return `None`. -/
def getSentOfferForPeer (squeakHash : Bytes) (peerAddress : PeerAddress) (priceMsat : Int) :
    NodeM ρ (Option SentOffer) := do
  let squeak ← getSqueak L squeakHash
  let secretKey ← getSqueakSecretKey squeakHash
  match squeak, secretKey with
  | some squeak, some secretKey =>
    let created ← (some <$> SqueakCore.createOffer N squeak secretKey peerAddress priceMsat).catchWith
      fun _ => return none
    match created with
    | none => return none
    | some sentOffer =>
      let _ ← saveSentOffer N sentOffer
      return some sentOffer
  | _, _ => return none

def getPackagedOffer (squeakHash : Bytes) (peerAddress : PeerAddress) (priceMsat : Int)
    (lndExternalAddress : Option LightningAddressHostPort) : NodeM ρ (Option Offer) := do
  match ← getSentOfferForPeer N squeakHash peerAddress priceMsat with
  | none => return none
  | some sentOffer =>
    let offer ← SqueakCore.packageOffer N sentOffer lndExternalAddress
    return some offer

def deleteAllExpiredSentOffers : NodeM ρ Nat := do
  let now ← ask N.timestampNowMs
  sql (deleteExpiredSentOffers now N.sentOfferRetentionS)

/-- The lookup for peers, which lists locked squeaks too. -/
def lookupSqueaks (publicKeys : List L.PublicKey) (minBlock maxBlock : Option Bound)
    (replyToHash : Option Bytes) : NodeM ρ (List Bytes) :=
  query (SqueakDb.lookupSqueaks N.sqlite (publicKeys.map L.publicKeyToBytes) minBlock maxBlock replyToHash true) >>=
    Prog.ofExcept

end SqueakStore

end Squeaknode
