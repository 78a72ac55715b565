/-
The messages of the admin page, as far as the lists of squeaks and payments use them, and their
conversions. A message keeps less than the entry it was made of; what it does keep comes back when
it is decoded.
-/
import Squeaknode.Db.Entries
import Squeaknode.Wire.Hex

namespace Squeaknode

open Relational SqueakDb

/-! ## The messages of `squeak_admin.proto` -/

namespace SqueakAdminPb2

structure PeerAddress where
  network : String
  host : String
  port : Int
  deriving DecidableEq, Repr

structure SqueakProfile where
  profileId : Int
  profileName : String
  hasPrivateKey : Bool
  pubkey : String
  following : Bool
  profileImage : String
  hasCustomProfileImage : Bool
  deriving DecidableEq, Repr

structure SqueakDisplayEntry where
  squeakHash : String
  isUnlocked : Bool
  contentStr : String
  isReply : Bool
  replyTo : String
  blockHeight : Int
  blockHash : String
  blockTime : Int
  squeakTime : Int
  authorPubkey : String
  isAuthorKnown : Bool
  author : Option SqueakProfile
  likedTimeMs : Int
  serializedSqueakHex : String
  secretKeyHex : String
  isPrivate : Bool
  recipientPubkey : String
  isRecipientKnown : Bool
  recipient : Option SqueakProfile
  deriving DecidableEq, Repr

structure SentPayment where
  sentPaymentId : Int
  squeakHash : String
  paymentHash : String
  priceMsat : Int
  nodePubkey : String
  valid : Bool
  timeMs : Int
  peerAddress : PeerAddress
  deriving DecidableEq, Repr

structure ReceivedPayment where
  receivedPaymentId : Int
  squeakHash : String
  paymentHash : String
  priceMsat : Int
  timeMs : Int
  peerAddress : PeerAddress
  deriving DecidableEq, Repr

/-- The integers of a field with `bits` bits. -/
def fits (bits : Nat) (n : Int) : Bool := -(2 : Int) ^ (bits - 1) ≤ n && n < (2 : Int) ^ (bits - 1)

/-- A field takes no integer out of its range. -/
def ranged (bits : Nat) (n : Int) : Except Err Int :=
  if fits bits n then .ok n else .error (.valueError s!"Value out of range: {n}")

def int32 : Int → Except Err Int := ranged 32

def int64 : Int → Except Err Int := ranged 64

theorem ranged_ok {bits : Nat} {n m : Int} (h : ranged bits n = .ok m) : m = n := by
  unfold ranged at h
  split at h <;> cases h
  rfl

theorem ranged_of_fits {bits : Nat} {n : Int} (h : fits bits n = true) : ranged bits n = .ok n := by
  simp [ranged, h]

end SqueakAdminPb2

open SqueakAdminPb2

/-! ## Squeak entries -/

/-- The text of the standard base64 alphabet. -/
def base64Char (n : Nat) : Char :=
  if n < 26 then Char.ofNat (65 + n) else if n < 52 then Char.ofNat (71 + n) else if n < 62 then Char.ofNat (n - 4)
  else if n = 62 then '+' else '/'

/-- Three bytes are four digits; a last group that is shorter is filled up. -/
def base64Digits : List UInt8 → List Char
  | [] => []
  | [a] => [base64Char (a.toNat / 4), base64Char (a.toNat % 4 * 16), '=', '=']
  | [a, b] =>
    [base64Char (a.toNat / 4), base64Char (a.toNat % 4 * 16 + b.toNat / 16), base64Char (b.toNat % 16 * 4), '=']
  | a :: b :: c :: rest =>
    base64Char (a.toNat / 4) :: base64Char (a.toNat % 4 * 16 + b.toNat / 16) ::
      base64Char (b.toNat % 16 * 4 + c.toNat / 64) :: base64Char (c.toNat % 64) :: base64Digits rest

def bytesToBase64String (data : Bytes) : String := String.ofList (base64Digits data)

section Entries

variable {L : Squeaklib} (defaultProfileImage : Bytes)

/-- An empty image is replaced by the default one, but counts as a custom one. -/
def squeakProfileToMessage (squeakProfile : SqueakDb.SqueakProfile L) : Except Err SqueakAdminPb2.SqueakProfile := do
  let profileId ← int32 (squeakProfile.profileId.getD 0)
  return {
    profileId := profileId
    profileName := squeakProfile.profileName
    hasPrivateKey := squeakProfile.privateKey.isSome
    pubkey := hex (L.publicKeyToBytes squeakProfile.publicKey)
    following := squeakProfile.following
    profileImage := bytesToBase64String ((nonEmpty squeakProfile.profileImage).getD defaultProfileImage)
    hasCustomProfileImage := squeakProfile.profileImage.isSome }

def optionalSqueakProfileToMessage : Option (SqueakDb.SqueakProfile L) → Except Err (Option SqueakAdminPb2.SqueakProfile)
  | none => .ok none
  | some squeakProfile => some <$> squeakProfileToMessage defaultProfileImage squeakProfile

/-- A field that is not set has its default, which is empty or 0. -/
def squeakEntryToMessage (squeakEntry : SqueakEntry L) : Except Err SqueakDisplayEntry := do
  let author ← optionalSqueakProfileToMessage defaultProfileImage squeakEntry.squeakProfile
  let recipient ← optionalSqueakProfileToMessage defaultProfileImage squeakEntry.recipientSqueakProfile
  let blockHeight ← int32 squeakEntry.blockHeight
  let blockTime ← int64 squeakEntry.blockTime
  let squeakTime ← int64 squeakEntry.squeakTime
  let likedTimeMs ← int64 (squeakEntry.likedTimeMs.getD 0)
  return {
    squeakHash := hex squeakEntry.squeakHash
    isUnlocked := squeakEntry.isUnlocked
    contentStr := squeakEntry.content.getD ""
    isReply := squeakEntry.replyTo.isSome
    replyTo := ((nonEmpty squeakEntry.replyTo).map hex).getD ""
    blockHeight := blockHeight
    blockHash := hex squeakEntry.blockHash
    blockTime := blockTime
    squeakTime := squeakTime
    authorPubkey := hex (L.publicKeyToBytes squeakEntry.publicKey)
    isAuthorKnown := squeakEntry.squeakProfile.isSome
    author := author
    likedTimeMs := likedTimeMs
    serializedSqueakHex := hex squeakEntry.serializedSqueak
    secretKeyHex := ((nonEmpty squeakEntry.secretKey).map hex).getD ""
    isPrivate := squeakEntry.recipientPublicKey.isSome
    recipientPubkey := (squeakEntry.recipientPublicKey.map fun p => hex (L.publicKeyToBytes p)).getD ""
    isRecipientKnown := squeakEntry.recipientSqueakProfile.isSome
    recipient := recipient }

/-- `bytes.fromhex` of a text field, or `None` when the field is empty. -/
def fromHexOrNone (text : String) : Except Err (Option Bytes) :=
  if text = "" then .ok none else some <$> fromHex text

variable (L) in
/-- The profiles and the recipient of the entry are not decoded. -/
def messageToSqueakEntry (msg : SqueakDisplayEntry) : Except Err (SqueakEntry L) := do
  let squeakHash ← fromHex msg.squeakHash
  let serializedSqueak ← fromHex msg.serializedSqueakHex
  let publicKey ← fromHex msg.authorPubkey >>= L.publicKeyFromBytes
  let blockHash ← fromHex msg.blockHash
  let replyTo ← fromHexOrNone msg.replyTo
  let secretKey ← fromHexOrNone msg.secretKeyHex
  return {
    squeakHash := squeakHash
    serializedSqueak := serializedSqueak
    publicKey := publicKey
    recipientPublicKey := none
    blockHeight := msg.blockHeight
    blockHash := blockHash
    blockTime := msg.blockTime
    squeakTime := msg.squeakTime
    replyTo := replyTo
    isUnlocked := msg.isUnlocked
    secretKey := secretKey
    squeakProfile := none
    recipientSqueakProfile := none
    likedTimeMs := if msg.likedTimeMs > 0 then some msg.likedTimeMs else none
    content := if msg.contentStr.length > 0 then some msg.contentStr else none }

/-- What is left of an entry that was sent and decoded. -/
def SqueakDb.SqueakEntry.sent (e : SqueakEntry L) : SqueakEntry L :=
  { e with
    recipientPublicKey := none
    replyTo := nonEmpty e.replyTo
    secretKey := nonEmpty e.secretKey
    squeakProfile := none
    recipientSqueakProfile := none
    likedTimeMs := e.likedTimeMs.filter (0 < ·)
    content := e.content.filter (0 < ·.length) }

theorem hex_ne_empty {bytes : Bytes} (h : bytes ≠ []) : hex bytes ≠ "" := by
  obtain ⟨b, rest, rfl⟩ := List.exists_cons_of_ne_nil h
  intro hempty
  have hlist := congrArg String.toList hempty
  simp [hex, hexDigits] at hlist

theorem fromHexOrNone_hex (bytes : Option Bytes) :
    fromHexOrNone (((nonEmpty bytes).map hex).getD "") = .ok (nonEmpty bytes) := by
  match bytes with
  | none => rfl
  | some [] => rfl
  | some (b :: rest) =>
    show fromHexOrNone (hex (b :: rest)) = .ok (some (b :: rest))
    rw [fromHexOrNone, if_neg (hex_ne_empty (List.cons_ne_nil b rest)), fromHex_hex]
    rfl

/-- An integer that is sent with 0 for `None`, and read back with `None` for what is not positive. -/
theorem positive_getD (n : Option Int) : (if n.getD 0 > 0 then some (n.getD 0) else none) = n.filter (0 < ·) := by
  cases n <;> simp [Option.filter]

/-- The fields of a message that its decoding reads. -/
theorem squeakEntryToMessage_ok {e : SqueakEntry L} {msg : SqueakDisplayEntry}
    (h : squeakEntryToMessage defaultProfileImage e = .ok msg) :
    msg.squeakHash = hex e.squeakHash ∧ msg.serializedSqueakHex = hex e.serializedSqueak ∧
      msg.authorPubkey = hex (L.publicKeyToBytes e.publicKey) ∧ msg.blockHash = hex e.blockHash ∧
      msg.replyTo = ((nonEmpty e.replyTo).map hex).getD "" ∧
        msg.secretKeyHex = ((nonEmpty e.secretKey).map hex).getD "" ∧
      msg.blockHeight = e.blockHeight ∧ msg.blockTime = e.blockTime ∧ msg.squeakTime = e.squeakTime ∧
      msg.isUnlocked = e.isUnlocked ∧ msg.likedTimeMs = e.likedTimeMs.getD 0 ∧ msg.contentStr = e.content.getD "" := by
  -- the profiles come first, then the integers in the order of the fields
  obtain ⟨author, -, h⟩ := ok_of_bind h
  obtain ⟨recipient, -, h⟩ := ok_of_bind h
  obtain ⟨blockHeight, hheight, h⟩ := ok_of_bind h
  obtain ⟨blockTime, hblockTime, h⟩ := ok_of_bind h
  obtain ⟨squeakTime, hsqueakTime, h⟩ := ok_of_bind h
  obtain ⟨likedTimeMs, hliked, h⟩ := ok_of_bind h
  cases h
  exact ⟨rfl, rfl, rfl, rfl, rfl, rfl, ranged_ok hheight, ranged_ok hblockTime, ranged_ok hsqueakTime, rfl,
    ranged_ok hliked, rfl⟩

/-- Decoding undoes encoding, up to what a message does not keep. -/
theorem messageToSqueakEntry_sent (hL : L.CodecLaws) {e : SqueakEntry L} {msg : SqueakDisplayEntry}
    (h : squeakEntryToMessage defaultProfileImage e = .ok msg) : messageToSqueakEntry L msg = .ok e.sent := by
  obtain ⟨hhash, hsqueak, hauthor, hblock, hreply, hkey, hheight, hblockTime, htime, hunlocked, hliked, hcontent⟩ :=
    squeakEntryToMessage_ok defaultProfileImage h
  have htimeMs : (if msg.likedTimeMs > 0 then some msg.likedTimeMs else none) = e.likedTimeMs.filter (0 < ·) := by
    rw [hliked, positive_getD]
  have hstr : (if msg.contentStr.length > 0 then some msg.contentStr else none) = e.content.filter (0 < ·.length) := by
    rw [hcontent]
    cases e.content <;> simp [Option.filter]
  unfold messageToSqueakEntry
  rw [htimeMs, hstr, hhash, hsqueak, hauthor, hblock, hreply, hkey, hheight, hblockTime, htime, hunlocked]
  simp only [fromHex_hex, fromHexOrNone_hex, bind, Except.bind, hL.publicKey, pure, Except.pure]
  rfl

/-- The integers of a profile are in range. -/
def SqueakDb.SqueakProfile.Fits (p : SqueakDb.SqueakProfile L) : Prop := fits 32 (p.profileId.getD 0) = true

/-- The integers of an entry are in range. -/
structure SqueakDb.SqueakEntry.Fits (e : SqueakEntry L) : Prop where
  author : ∀ p, e.squeakProfile = some p → p.Fits
  recipient : ∀ p, e.recipientSqueakProfile = some p → p.Fits
  blockHeight : fits 32 e.blockHeight = true
  blockTime : fits 64 e.blockTime = true
  squeakTime : fits 64 e.squeakTime = true
  likedTimeMs : fits 64 (e.likedTimeMs.getD 0) = true

theorem optionalSqueakProfileToMessage_fits {p : Option (SqueakDb.SqueakProfile L)} (h : ∀ q, p = some q → q.Fits) :
    ∃ msg, optionalSqueakProfileToMessage defaultProfileImage p = .ok msg := by
  cases p with
  | none => exact ⟨none, rfl⟩
  | some q =>
    have hid : int32 (q.profileId.getD 0) = .ok _ := ranged_of_fits (h q rfl)
    simp only [optionalSqueakProfileToMessage, squeakProfileToMessage, hid]
    exact ⟨_, rfl⟩

theorem squeakEntryToMessage_fits {e : SqueakEntry L} (h : e.Fits) :
    ∃ msg, squeakEntryToMessage defaultProfileImage e = .ok msg := by
  obtain ⟨author, hauthor⟩ := optionalSqueakProfileToMessage_fits defaultProfileImage h.author
  obtain ⟨recipient, hrecipient⟩ := optionalSqueakProfileToMessage_fits defaultProfileImage h.recipient
  have hheight : int32 e.blockHeight = .ok _ := ranged_of_fits h.blockHeight
  have hblockTime : int64 e.blockTime = .ok _ := ranged_of_fits h.blockTime
  have hsqueakTime : int64 e.squeakTime = .ok _ := ranged_of_fits h.squeakTime
  have hliked : int64 (e.likedTimeMs.getD 0) = .ok _ := ranged_of_fits h.likedTimeMs
  simp only [squeakEntryToMessage, hauthor, hrecipient, hheight, hblockTime, hsqueakTime, hliked]
  exact ⟨_, rfl⟩

end Entries

/-! ## Payments -/

def Network.name : Network → String
  | .IPV4 => "IPV4"
  | .IPV6 => "IPV6"
  | .TORV2 => "TORV2"
  | .TORV3 => "TORV3"
  | .I2P => "I2P"
  | .CJDNS => "CJDNS"

/-- `Network[name]`, which raises a `KeyError` for any other name. -/
def Network.ofName (name : String) : Except Err Network :=
  match [Network.IPV4, .IPV6, .TORV2, .TORV3, .I2P, .CJDNS].find? fun n => n.name == name with
  | some network => .ok network
  | none => .error (.valueError name)

theorem Network.ofName_name (network : Network) : Network.ofName network.name = .ok network := by
  cases network <;> decide +kernel

def peerAddressToMessage (peerAddress : PeerAddress) : Except Err SqueakAdminPb2.PeerAddress := do
  let port ← int32 peerAddress.port
  return ⟨peerAddress.network.name, peerAddress.host, port⟩

def messageToPeerAddress (msg : SqueakAdminPb2.PeerAddress) : Except Err PeerAddress := do
  let network ← Network.ofName msg.network
  return ⟨network, msg.host, msg.port⟩

def sentPaymentToMessage (sentPayment : SentPayment) : Except Err SqueakAdminPb2.SentPayment := do
  let peerAddress ← peerAddressToMessage sentPayment.peerAddress
  let sentPaymentId ← int32 (sentPayment.sentPaymentId.getD 0)
  let priceMsat ← int64 sentPayment.priceMsat
  let timeMs ← int64 (sentPayment.createdTimeMs.getD 0)
  return {
    sentPaymentId := sentPaymentId
    squeakHash := hex sentPayment.squeakHash
    paymentHash := hex sentPayment.paymentHash
    priceMsat := priceMsat
    nodePubkey := sentPayment.nodePubkey
    valid := sentPayment.valid
    timeMs := timeMs
    peerAddress := peerAddress }

def receivedPaymentToMessage (receivedPayment : ReceivedPayment) : Except Err SqueakAdminPb2.ReceivedPayment := do
  let peerAddress ← peerAddressToMessage receivedPayment.peerAddress
  let receivedPaymentId ← int32 (receivedPayment.receivedPaymentId.getD 0)
  let priceMsat ← int64 receivedPayment.priceMsat
  let timeMs ← int64 (receivedPayment.createdTimeMs.getD 0)
  return {
    receivedPaymentId := receivedPaymentId
    squeakHash := hex receivedPayment.squeakHash
    paymentHash := hex receivedPayment.paymentHash
    priceMsat := priceMsat
    timeMs := timeMs
    peerAddress := peerAddress }

/-- The secret key is not sent. -/
def messageToSentPayment (msg : SqueakAdminPb2.SentPayment) : Except Err SentPayment := do
  let peerAddress ← messageToPeerAddress msg.peerAddress
  let squeakHash ← fromHex msg.squeakHash
  let paymentHash ← fromHex msg.paymentHash
  return {
    sentPaymentId := if msg.sentPaymentId > 0 then some msg.sentPaymentId.toNat else none
    createdTimeMs := if msg.timeMs > 0 then some msg.timeMs else none
    peerAddress := peerAddress
    squeakHash := squeakHash
    paymentHash := paymentHash
    secretKey := []
    priceMsat := msg.priceMsat
    nodePubkey := msg.nodePubkey
    valid := msg.valid }

/-- The settle index is not sent. -/
def messageToReceivedPayment (msg : SqueakAdminPb2.ReceivedPayment) : Except Err ReceivedPayment := do
  let squeakHash ← fromHex msg.squeakHash
  let paymentHash ← fromHex msg.paymentHash
  let peerAddress ← messageToPeerAddress msg.peerAddress
  return {
    receivedPaymentId := if msg.receivedPaymentId > 0 then some msg.receivedPaymentId.toNat else none
    createdTimeMs := if msg.timeMs > 0 then some msg.timeMs else none
    squeakHash := squeakHash
    paymentHash := paymentHash
    priceMsat := msg.priceMsat
    settleIndex := 0
    peerAddress := peerAddress }

theorem positive_id (id : Option Nat) :
    (if ((id.getD 0 : Nat) : Int) > 0 then some ((id.getD 0 : Nat) : Int).toNat else none) = id.filter (0 < ·) := by
  cases id <;> simp [Option.filter]

theorem messageToPeerAddress_sent {peerAddress : PeerAddress} {msg : SqueakAdminPb2.PeerAddress}
    (h : peerAddressToMessage peerAddress = .ok msg) : messageToPeerAddress msg = .ok peerAddress := by
  obtain ⟨port, hport, h⟩ := ok_of_bind h
  cases h
  rw [ranged_ok hport]
  simp only [messageToPeerAddress, Network.ofName_name]
  rfl

theorem messageToSentPayment_sent {p : SentPayment} {msg : SqueakAdminPb2.SentPayment}
    (h : sentPaymentToMessage p = .ok msg) :
    messageToSentPayment msg = .ok { p with
      sentPaymentId := p.sentPaymentId.filter (0 < ·)
      createdTimeMs := p.createdTimeMs.filter (0 < ·)
      secretKey := [] } := by
  obtain ⟨peerAddress, haddress, h⟩ := ok_of_bind h
  obtain ⟨sentPaymentId, hid, h⟩ := ok_of_bind h
  obtain ⟨priceMsat, hprice, h⟩ := ok_of_bind h
  obtain ⟨timeMs, htime, h⟩ := ok_of_bind h
  cases h
  unfold messageToSentPayment
  rw [ranged_ok hid, ranged_ok hprice, ranged_ok htime]
  simp only [messageToPeerAddress_sent haddress, fromHex_hex, positive_getD, positive_id, bind, Except.bind, pure,
    Except.pure]

theorem messageToReceivedPayment_sent {p : ReceivedPayment} {msg : SqueakAdminPb2.ReceivedPayment}
    (h : receivedPaymentToMessage p = .ok msg) :
    messageToReceivedPayment msg = .ok { p with
      receivedPaymentId := p.receivedPaymentId.filter (0 < ·)
      createdTimeMs := p.createdTimeMs.filter (0 < ·)
      settleIndex := 0 } := by
  obtain ⟨peerAddress, haddress, h⟩ := ok_of_bind h
  obtain ⟨receivedPaymentId, hid, h⟩ := ok_of_bind h
  obtain ⟨priceMsat, hprice, h⟩ := ok_of_bind h
  obtain ⟨timeMs, htime, h⟩ := ok_of_bind h
  cases h
  unfold messageToReceivedPayment
  rw [ranged_ok hid, ranged_ok hprice, ranged_ok htime]
  simp only [messageToPeerAddress_sent haddress, fromHex_hex, positive_getD, positive_id, bind, Except.bind, pure,
    Except.pure]

theorem peerAddressToMessage_fits {peerAddress : PeerAddress} (h : fits 32 peerAddress.port = true) :
    ∃ msg, peerAddressToMessage peerAddress = .ok msg := by
  have hport : int32 peerAddress.port = .ok _ := ranged_of_fits h
  simp only [peerAddressToMessage, hport]
  exact ⟨_, rfl⟩

theorem sentPaymentToMessage_fits {p : SentPayment} (hport : fits 32 p.peerAddress.port = true)
    (hid : fits 32 (p.sentPaymentId.getD 0 : Nat) = true) (hprice : fits 64 p.priceMsat = true)
    (htime : fits 64 (p.createdTimeMs.getD 0) = true) : ∃ msg, sentPaymentToMessage p = .ok msg := by
  obtain ⟨peerAddress, haddress⟩ := peerAddressToMessage_fits hport
  have hid : int32 (p.sentPaymentId.getD 0 : Nat) = .ok _ := ranged_of_fits hid
  have hprice : int64 p.priceMsat = .ok _ := ranged_of_fits hprice
  have htime : int64 (p.createdTimeMs.getD 0) = .ok _ := ranged_of_fits htime
  simp only [sentPaymentToMessage, haddress, hid, hprice, htime]
  exact ⟨_, rfl⟩

theorem receivedPaymentToMessage_fits {p : ReceivedPayment} (hport : fits 32 p.peerAddress.port = true)
    (hid : fits 32 (p.receivedPaymentId.getD 0 : Nat) = true) (hprice : fits 64 p.priceMsat = true)
    (htime : fits 64 (p.createdTimeMs.getD 0) = true) : ∃ msg, receivedPaymentToMessage p = .ok msg := by
  obtain ⟨peerAddress, haddress⟩ := peerAddressToMessage_fits hport
  have hid : int32 (p.receivedPaymentId.getD 0 : Nat) = .ok _ := ranged_of_fits hid
  have hprice : int64 p.priceMsat = .ok _ := ranged_of_fits hprice
  have htime : int64 (p.createdTimeMs.getD 0) = .ok _ := ranged_of_fits htime
  simp only [receivedPaymentToMessage, haddress, hid, hprice, htime]
  exact ⟨_, rfl⟩

end Squeaknode
