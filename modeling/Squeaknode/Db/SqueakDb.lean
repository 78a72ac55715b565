/-
The SQL statements of `SqueakDb`, each one atomic function of the database: a query is a `Db → β`,
an INSERT, UPDATE or DELETE a `Db → β × Db` or a `Db → Db`. Values that a method computes in Python
before it runs its statement (the hash of a squeak, the time) are arguments here.
-/
import Squeaknode.Core.Squeaklib
import Squeaknode.Db.Models
import Mathlib.Algebra.Ring.Int.Defs
import Mathlib.Data.List.Sort

namespace Squeaknode

open Relational

/-- SQLite, as far as it is not the same everywhere. -/
structure Sqlite where
  /-- the number that it reads in a text that it compares with an integer column -/
  numeric : String → Option Rat
  /-- `SQLITE_MAX_VARIABLE_NUMBER` -/
  maxVariableNumber : Nat

namespace SqueakDb

/-- The integers that the driver binds. -/
def isBindable (n : Int) : Bool := -(2 : Int) ^ 63 ≤ n && n < (2 : Int) ^ 63

/-! ## Squeaks -/

/-- The row that `insert_squeak` writes for a squeak with hash `hash`. -/
def squeakRow (L : Squeaklib) (now : Int) (hash : Bytes) (squeak : L.CSqueak) (header : BlockHeader) :
    SqueakRow where
  hash := hash
  createdTimeMs := now
  squeak := L.serialize squeak
  replyHash := if L.isReply squeak then some (L.hashReplySqk squeak) else none
  blockHash := L.hashBlock squeak
  blockHeight := L.nBlockHeight squeak
  timeS := L.nTime squeak
  authorPublicKey := L.publicKeyToBytes (L.getPubKey squeak)
  recipientPublicKey :=
    if L.isPrivateMessage squeak then some (L.publicKeyToBytes (L.getRecipientPubKey squeak)) else none
  secretKey := none
  blockTimeS := header.nTime
  likedTimeMs := none
  content := none

/-- INSERT INTO squeak; the hash is the primary key, and a row that has it already makes the method
return `None`. -/
def insertSqueak (row : SqueakRow) (db : Db) : Option Bytes × Db :=
  let (inserted, rows) := insertUnique SqueakRow.hash row db.squeaks
  (if inserted then some row.hash else none, { db with squeaks := rows })

theorem insertSqueak_of_taken {row : SqueakRow} {db : Db} (h : taken SqueakRow.hash row.hash db.squeaks = true) :
    insertSqueak row db = (none, db) := by
  simp [insertSqueak, insertUnique_of_taken h]

theorem insertSqueak_of_free (row : SqueakRow) {db : Db} (h : taken SqueakRow.hash row.hash db.squeaks = false) :
    insertSqueak row db = (some row.hash, { db with squeaks := db.squeaks ++ [row] }) := by
  simp [insertSqueak, insertUnique_of_free h]

def findSqueak (squeakHash : Bytes) (db : Db) : Option SqueakRow :=
  findBy SqueakRow.hash squeakHash db.squeaks

def getSqueakSecretKey (squeakHash : Bytes) (db : Db) : Option Bytes :=
  (findSqueak squeakHash db).bind SqueakRow.secretKey

def getNumberOfSqueaks (db : Db) : Nat := db.squeaks.length

def numberOfSqueaksWithPublicKeyWithBlockHeight (publicKey : Bytes) (blockHeight : Int) (db : Db) : Nat :=
  (db.squeaks.filter fun r => r.authorPublicKey == publicKey && r.blockHeight == blockHeight).length

def updateSqueak (squeakHash : Bytes) (f : SqueakRow → SqueakRow) (db : Db) : Db :=
  { db with squeaks := updateWhere (fun r => r.hash == squeakHash) f db.squeaks }

def setSqueakSecretKey (squeakHash secretKey : Bytes) : Db → Db :=
  updateSqueak squeakHash fun r => { r with secretKey := some secretKey }

def setSqueakDecryptedContent (squeakHash : Bytes) (content : String) : Db → Db :=
  updateSqueak squeakHash fun r => { r with content := some content }

def setSqueakLiked (squeakHash : Bytes) (now : Int) : Db → Db :=
  updateSqueak squeakHash fun r => { r with likedTimeMs := some now }

def setSqueakUnliked (squeakHash : Bytes) : Db → Db :=
  updateSqueak squeakHash fun r => { r with likedTimeMs := none }

def deleteSqueak (squeakHash : Bytes) (db : Db) : Db :=
  { db with squeaks := deleteWhere (fun r => r.hash == squeakHash) db.squeaks }

/-- The hashes of the squeaks older than the retention that are not liked and whose author has no
profile with a private key. -/
def getOldSqueaksToDelete (now intervalS : Int) (db : Db) : List Bytes :=
  (db.squeaks.filter fun r =>
    now > r.createdTimeMs + intervalS * 1000 &&
    (findBy ProfileRow.publicKey r.authorPublicKey db.profiles.rows).all (fun p => p.privateKey.isNone) &&
    r.likedTimeMs.isNone).map SqueakRow.hash

/-- A bound as a caller of `lookup_squeaks` passes it: an integer, or the text of a URL parameter. -/
inductive Bound where
  | int (n : Int)
  | text (s : String)
  deriving DecidableEq, Repr

/-- Python truth: the integer 0 and the empty text are false. -/
def Bound.truthy : Bound → Bool
  | int n => n != 0
  | text s => s != ""

/-- The bound filters: `height ≤ b` and `b ≤ height` in SQL. A text without a number is greater than every
integer. -/
def heightLe (sqlite : Sqlite) (height : Int) : Bound → Bool
  | .int n => height ≤ n
  | .text s => match sqlite.numeric s with
    | some n => (height : Rat) ≤ n
    | none => true

def heightGe (sqlite : Sqlite) (height : Int) : Bound → Bool
  | .int n => n ≤ height
  | .text s => match sqlite.numeric s with
    | some n => n ≤ (height : Rat)
    | none => false

/-- The driver does not take an integer of more than 64 bits. -/
def Bound.isBindable : Bound → Bool
  | int n => SqueakDb.isBindable n
  | text _ => true

/-- ORDER BY block_height DESC, time_s DESC, hash DESC: `a` does not come after `b`. -/
def newerOrSame (a b : SqueakRow) : Prop :=
  a.blockHeight > b.blockHeight ∨ (a.blockHeight = b.blockHeight ∧
    (a.timeS > b.timeS ∨ (a.timeS = b.timeS ∧ ¬ a.hash < b.hash)))

instance : DecidableRel newerOrSame := fun _ _ => inferInstanceAs (Decidable (_ ∨ _))

/-- A filter that is only added when its argument is truthy. -/
def whenTruthy (x : Option α) (truthy : α → Bool) (p : α → Bool) : Bool :=
  match x with
  | some a => !truthy a || p a
  | none => true

/-- The squeaks that a lookup selects, newest first. -/
def lookupRows (sqlite : Sqlite) (publicKeys : List Bytes) (minBlock maxBlock : Option Bound)
    (replyToHash : Option Bytes) (includeLocked : Bool) (db : Db) : List SqueakRow :=
  (db.squeaks.filter fun r =>
    (publicKeys.isEmpty || publicKeys.contains r.authorPublicKey) &&
    whenTruthy minBlock Bound.truthy (heightGe sqlite r.blockHeight) &&
    whenTruthy maxBlock Bound.truthy (heightLe sqlite r.blockHeight) &&
    whenTruthy replyToHash (fun h => !h.isEmpty) (fun h => r.replyHash == some h) &&
    (includeLocked || r.secretKey.isSome)).insertionSort newerOrSame

/-- The variables of a lookup: one for each public key and for each other filter. -/
def lookupVariables (publicKeys : List Bytes) (minBlock maxBlock : Option Bound) (replyToHash : Option Bytes) : Nat :=
  publicKeys.length + (minBlock.filter Bound.truthy).toList.length + (maxBlock.filter Bound.truthy).toList.length +
    (replyToHash.filter fun h => !h.isEmpty).toList.length

def lookupSqueaks (sqlite : Sqlite) (publicKeys : List Bytes) (minBlock maxBlock : Option Bound)
    (replyToHash : Option Bytes) (includeLocked : Bool) (db : Db) : Except Err (List Bytes) :=
  if sqlite.maxVariableNumber < lookupVariables publicKeys minBlock maxBlock replyToHash then
    .error (.operationalError "too many SQL variables")
  else if whenTruthy minBlock Bound.truthy Bound.isBindable && whenTruthy maxBlock Bound.truthy Bound.isBindable then
    .ok ((lookupRows sqlite publicKeys minBlock maxBlock replyToHash includeLocked db).map SqueakRow.hash)
  else .error (.bindingError "Python int too large to convert to SQLite INTEGER")

/-! ## Profiles -/

/-- A user who can author squeaks. -/
structure SqueakProfile (L : Squeaklib) where
  profileName : String
  publicKey : L.PublicKey
  profileId : Option Nat
  privateKey : Option L.PrivateKey
  following : Bool
  profileImage : Option Bytes

def findProfile (profileId : Nat) (db : Db) : Option ProfileRow :=
  findBy ProfileRow.profileId profileId db.profiles.rows

/-- A NULL or empty private key column is no private key. -/
def parseSqueakProfile (L : Squeaklib) (r : ProfileRow) : Except Err (SqueakProfile L) := do
  let privateKey ← match r.privateKey with
    | none | some [] => pure none
    | some bytes => some <$> L.privateKeyFromBytes bytes
  let publicKey ← L.publicKeyFromBytes r.publicKey
  return ⟨r.profileName, publicKey, some r.profileId, privateKey, r.following, r.profileImage⟩

/-- The row that `insert_profile` writes: a new profile has no image. -/
def profileRow (L : Squeaklib) (now : Int) (p : SqueakProfile L) (id : Nat) : ProfileRow where
  profileId := id
  createdTimeMs := now
  profileName := p.profileName
  privateKey := p.privateKey.map L.privateKeyToBytes
  publicKey := L.publicKeyToBytes p.publicKey
  following := p.following
  profileImage := none

/-- INSERT INTO profile; the name and the public key are UNIQUE, and the method does not catch the
violation. -/
def insertProfile (L : Squeaklib) (now : Int) (p : SqueakProfile L) (db : Db) : Except Err Nat × Db :=
  if taken ProfileRow.profileName p.profileName db.profiles.rows then (.error .integrityError, db)
  else
    let (id, t) := db.profiles.insert ProfileRow.publicKey (profileRow L now p)
    (id.elim (.error .integrityError) .ok, { db with profiles := t })

def updateProfile (profileId : Nat) (f : ProfileRow → ProfileRow) (db : Db) : Db :=
  { db with profiles := db.profiles.update (fun r => r.profileId == profileId) f }

def setProfileFollowing (profileId : Nat) (following : Bool) : Db → Db :=
  updateProfile profileId fun r => { r with following := following }

/-- The name stays UNIQUE. -/
def setProfileName (profileId : Nat) (profileName : String) (db : Db) : Except Err Unit × Db :=
  if taken ProfileRow.profileId profileId db.profiles.rows &&
      db.profiles.rows.any fun r => r.profileId != profileId && r.profileName == profileName then
    (.error .integrityError, db)
  else (.ok (), updateProfile profileId (fun r => { r with profileName := profileName }) db)

def setProfileImage (profileId : Nat) (profileImage : Option Bytes) : Db → Db :=
  updateProfile profileId fun r => { r with profileImage := profileImage }

def deleteProfile (profileId : Nat) (db : Db) : Db :=
  { db with profiles := db.profiles.delete fun r => r.profileId == profileId }

/-! ## Received offers and sent payments -/

/-- `received_offer_invoice_is_expired`: the current time in seconds has reached the end of the
invoice. -/
def receivedOfferInvoiceIsExpired (now : Int) (r : ReceivedOfferRow) : Bool :=
  now ≥ 1000 * (r.invoiceTimestamp + r.invoiceExpiry)

/-- What a column of texts is given: a text, or `none` for NULL. -/
def bindText : Json → Except Err (Option String)
  | .null => .ok none
  | .bool b => .ok (some (if b then "1" else "0"))
  | .int n => if isBindable n then .ok (some (toString n))
    else .error (.bindingError "Python int too large to convert to SQLite INTEGER")
  | .float x => .ok x.text
  | .str s => .ok (some s)
  | .surrogates => .error (.bindingError "surrogates not allowed")
  | .arr _ => .error (.bindingError "type 'list' is not supported")
  | .obj _ => .error (.bindingError "type 'dict' is not supported")

/-- The lightning address as the driver takes it; the peer that sent it may have sent anything. -/
def bindAddress (a : LightningAddressHostPort) : Except Err (Option String) := do
  let host ← bindText a.host
  if isBindable a.port then return host
  else throw (.bindingError "Python int too large to convert to SQLite INTEGER")

def receivedOfferRow (now : Int) (o : ReceivedOffer) (host : String) (id : Nat) : ReceivedOfferRow where
  receivedOfferId := id
  createdTimeMs := now
  squeakHash := o.squeakHash
  paymentHash := o.paymentHash
  nonce := o.nonce
  paymentPoint := o.paymentPoint
  invoiceTimestamp := o.invoiceTimestamp
  invoiceExpiry := o.invoiceExpiry
  priceMsat := o.priceMsat
  paymentRequest := o.paymentRequest
  destination := o.destination
  lightningHost := host
  lightningPort := o.lightningAddress.port
  peerNetwork := o.peerAddress.network
  peerHost := o.peerAddress.host
  peerPort := o.peerAddress.port
  paid := false

def parseReceivedOffer (r : ReceivedOfferRow) : ReceivedOffer where
  receivedOfferId := some r.receivedOfferId
  squeakHash := r.squeakHash
  priceMsat := r.priceMsat
  paymentHash := r.paymentHash
  nonce := r.nonce
  paymentPoint := r.paymentPoint
  invoiceTimestamp := r.invoiceTimestamp
  invoiceExpiry := r.invoiceExpiry
  paymentRequest := r.paymentRequest
  destination := r.destination
  lightningAddress := ⟨r.lightningHost, r.lightningPort⟩
  peerAddress := ⟨r.peerNetwork, r.peerHost, r.peerPort⟩
  paid := r.paid

/-- INSERT INTO received_offer; `None` when the host is NULL or the payment hash is there already. -/
def insertReceivedOffer (now : Int) (o : ReceivedOffer) (db : Db) : Except Err (Option Nat) × Db :=
  match bindAddress o.lightningAddress with
  | .error err => (.error err, db)
  | .ok none => (.ok none, db)
  | .ok (some host) =>
    let (id, t) := db.receivedOffers.insert ReceivedOfferRow.paymentHash (receivedOfferRow now o host)
    (.ok id, { db with receivedOffers := t })

/-- Nothing is stored, or a row with the host as a text. -/
theorem insertReceivedOffer_cases (now : Int) (o : ReceivedOffer) (db : Db) :
    (insertReceivedOffer now o db).2 = db ∨ ∃ host, bindAddress o.lightningAddress = .ok (some host) ∧
      insertReceivedOffer now o db =
        (.ok (db.receivedOffers.insert ReceivedOfferRow.paymentHash (receivedOfferRow now o host)).1,
          { db with receivedOffers :=
              (db.receivedOffers.insert ReceivedOfferRow.paymentHash (receivedOfferRow now o host)).2 }) := by
  unfold insertReceivedOffer
  rcases bindAddress o.lightningAddress with err | _ | host
  · exact .inl rfl
  · exact .inl rfl
  · exact .inr ⟨host, rfl, rfl⟩

theorem mem_insertReceivedOffer {now : Int} {o : ReceivedOffer} {db : Db} {r : ReceivedOfferRow}
    (h : r ∈ (insertReceivedOffer now o db).2.receivedOffers.rows) :
    r ∈ db.receivedOffers.rows ∨ ∃ host id, r = receivedOfferRow now o host id := by
  obtain heq | ⟨host, -, heq⟩ := insertReceivedOffer_cases now o db
  · exact .inl (heq ▸ h)
  · rw [heq] at h
    rcases Table.mem_insert h with h | ⟨id, rfl⟩
    · exact .inl h
    · exact .inr ⟨host, id, rfl⟩

/-- The other tables stay as they are. -/
theorem insertReceivedOffer_others (now : Int) (o : ReceivedOffer) (db : Db) :
    ∃ receivedOffers, (insertReceivedOffer now o db).2 = { db with receivedOffers := receivedOffers } := by
  obtain h | ⟨host, -, h⟩ := insertReceivedOffer_cases now o db
  · exact ⟨db.receivedOffers, h⟩
  · exact ⟨_, congrArg Prod.snd h⟩

theorem insertReceivedOffer_squeaks (now : Int) (o : ReceivedOffer) (db : Db) :
    (insertReceivedOffer now o db).2.squeaks = db.squeaks := by
  obtain ⟨receivedOffers, h⟩ := insertReceivedOffer_others now o db
  rw [h]

/-- The unpaid and unexpired offers for a squeak. -/
def getReceivedOffers (squeakHash : Bytes) (now : Int) (db : Db) : List ReceivedOffer :=
  (db.receivedOffers.rows.filter fun r =>
    r.squeakHash == squeakHash && !r.paid && !receivedOfferInvoiceIsExpired now r).map parseReceivedOffer

def getReceivedOffer (receivedOfferId : Nat) (db : Db) : Option ReceivedOffer :=
  (findBy ReceivedOfferRow.receivedOfferId receivedOfferId db.receivedOffers.rows).map parseReceivedOffer

def setReceivedOfferPaid (paymentHash : Bytes) (paid : Bool) (db : Db) : Db :=
  { db with receivedOffers :=
      db.receivedOffers.update (fun r => r.paymentHash == paymentHash) fun r => { r with paid := paid } }

/-- `received_offer_is_out_of_retention`: the database divides integers, toward zero. -/
def receivedOfferIsOutOfRetention (now intervalS : Int) (r : ReceivedOfferRow) : Bool :=
  now ≥ 1000 * (r.createdTimeMs.tdiv 1000 + intervalS)

def deleteExpiredReceivedOffers (now intervalS : Int) (db : Db) : Nat × Db :=
  ((db.receivedOffers.rows.filter fun r =>
      receivedOfferInvoiceIsExpired now r || receivedOfferIsOutOfRetention now intervalS r).length,
    { db with receivedOffers := db.receivedOffers.delete fun r =>
        receivedOfferInvoiceIsExpired now r || receivedOfferIsOutOfRetention now intervalS r })

def sentPaymentRow (now : Int) (p : SentPayment) (id : Nat) : SentPaymentRow where
  sentPaymentId := id
  createdTimeMs := now
  peerNetwork := p.peerAddress.network
  peerHost := p.peerAddress.host
  peerPort := p.peerAddress.port
  squeakHash := p.squeakHash
  paymentHash := p.paymentHash
  secretKey := p.secretKey
  priceMsat := p.priceMsat
  nodePubkey := p.nodePubkey
  valid := p.valid

/-- INSERT INTO sent_payment; the method does not catch the violation of the UNIQUE constraint. -/
def insertSentPayment (now : Int) (p : SentPayment) (db : Db) : Except Err Nat × Db :=
  let (id, t) := db.sentPayments.insert SentPaymentRow.paymentHash (sentPaymentRow now p)
  (id.elim (.error .integrityError) .ok, { db with sentPayments := t })

/-! ## Sent offers and received payments -/

def sentOfferRow (now : Int) (o : SentOffer) (id : Nat) : SentOfferRow where
  sentOfferId := id
  createdTimeMs := now
  squeakHash := o.squeakHash
  paymentHash := o.paymentHash
  nonce := o.nonce
  priceMsat := o.priceMsat
  paymentRequest := o.paymentRequest
  invoiceTimestamp := o.invoiceTime
  invoiceExpiry := o.invoiceExpiry
  peerNetwork := o.peerAddress.network
  peerHost := o.peerAddress.host
  peerPort := o.peerAddress.port
  paid := false

def parseSentOffer (r : SentOfferRow) : SentOffer where
  sentOfferId := some r.sentOfferId
  squeakHash := r.squeakHash
  paymentHash := r.paymentHash
  nonce := r.nonce
  priceMsat := r.priceMsat
  paymentRequest := r.paymentRequest
  invoiceTime := r.invoiceTimestamp
  invoiceExpiry := r.invoiceExpiry
  peerAddress := ⟨r.peerNetwork, r.peerHost, r.peerPort⟩
  paid := r.paid

/-- INSERT INTO sent_offer; the method does not catch the violation of the UNIQUE constraint. -/
def insertSentOffer (now : Int) (o : SentOffer) (db : Db) : Except Err Nat × Db :=
  let (id, t) := db.sentOffers.insert SentOfferRow.paymentHash (sentOfferRow now o)
  (id.elim (.error .integrityError) .ok, { db with sentOffers := t })

def getSentOfferByPaymentHash (paymentHash : Bytes) (db : Db) : Option SentOffer :=
  (findBy SentOfferRow.paymentHash paymentHash db.sentOffers.rows).map parseSentOffer

def setSentOfferPaid (paymentHash : Bytes) (paid : Bool) (db : Db) : Db :=
  { db with sentOffers :=
      db.sentOffers.update (fun r => r.paymentHash == paymentHash) fun r => { r with paid := paid } }

/-- `sent_offer_out_of_retention`: the invoice expired more than `intervalS` seconds ago. -/
def sentOfferOutOfRetention (now intervalS : Int) (r : SentOfferRow) : Bool :=
  now ≥ 1000 * (r.invoiceTimestamp + r.invoiceExpiry + intervalS)

def deleteExpiredSentOffers (now intervalS : Int) (db : Db) : Nat × Db :=
  ((db.sentOffers.rows.filter (sentOfferOutOfRetention now intervalS)).length,
    { db with sentOffers := db.sentOffers.delete (sentOfferOutOfRetention now intervalS) })

def receivedPaymentRow (now : Int) (p : ReceivedPayment) (id : Nat) : ReceivedPaymentRow where
  receivedPaymentId := id
  createdTimeMs := now
  squeakHash := p.squeakHash
  paymentHash := p.paymentHash
  priceMsat := p.priceMsat
  settleIndex := p.settleIndex
  peerNetwork := p.peerAddress.network
  peerHost := p.peerAddress.host
  peerPort := p.peerAddress.port

/-- INSERT INTO received_payment; `None` when the payment hash is there already. -/
def insertReceivedPayment (now : Int) (p : ReceivedPayment) (db : Db) : Option Nat × Db :=
  let (id, t) := db.receivedPayments.insert ReceivedPaymentRow.paymentHash (receivedPaymentRow now p)
  (id, { db with receivedPayments := t })

/-- SELECT max(settle_index): NULL over no rows. -/
def getLatestSettleIndex (db : Db) : Option Int :=
  (db.receivedPayments.rows.map ReceivedPaymentRow.settleIndex).max?

def clearReceivedPaymentSettleIndices (db : Db) : Db :=
  { db with receivedPayments := db.receivedPayments.update (fun _ => true) fun r => { r with settleIndex := 0 } }

/-- SELECT count(*), sum(price_msat): the sum of no rows is NULL. -/
def getReceivedPaymentSummary (db : Db) : ReceivedPaymentSummary where
  numReceivedPayments := db.receivedPayments.rows.length
  totalAmountReceivedMsat := match db.receivedPayments.rows with
    | [] => none
    | rows => some (rows.map ReceivedPaymentRow.priceMsat).sum

/-! ## Configuration -/

def getConfigSellPriceMsat (username : String) (db : Db) : Option Int :=
  (findBy ConfigRow.username username db.configs).bind ConfigRow.sellPriceMsat

end SqueakDb

end Squeaknode
