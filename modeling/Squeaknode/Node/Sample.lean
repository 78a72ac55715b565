/-
A squeaklib small enough to compute with, and a node over it: squeaks of eight bytes, scalars
modulo 251, a chain whose block at height `h` has the hash `[h]`, and a lightning network that
keeps its invoices in a list. It satisfies the laws that results about any squeaklib assume.
-/
import Squeaknode.Node.World
import Squeaknode.Wire.JsonText

namespace Squeaknode

namespace Sample

/-! ## Scalars -/

/-- The order of a small group. -/
def order : Nat := 251

/-- The 32 bytes of a scalar. -/
def scalarToBytes (x : Nat) : Bytes := List.replicate 31 0 ++ [UInt8.ofNat x]

/-- The scalar of 32 bytes, below the order. -/
def scalarFromBytes (bytes : Bytes) : Except Err Nat :=
  let x := bytes.foldl (fun acc b => 256 * acc + b.toNat) 0
  if bytes.length = 32 ∧ x < order then .ok x else .error (.squeaklib "invalid scalar")

/-- The zero scalar has no point. -/
def paymentPointBytesFromScalarBytes (bytes : Bytes) : Except Err Bytes := do
  let x ← scalarFromBytes bytes
  if x = 0 then .error (.squeaklib "point at infinity") else .ok [2, UInt8.ofNat x]

theorem scalarFromBytes_scalarToBytes {x : Nat} (hx : x < order) : scalarFromBytes (scalarToBytes x) = .ok x := by
  have hbyte : (UInt8.ofNat x).toNat = x := by
    rw [UInt8.toNat_ofNat']; exact Nat.mod_eq_of_lt (by unfold order at hx; omega)
  have hfold : (scalarToBytes x).foldl (fun acc b => 256 * acc + b.toNat) 0 = x := by
    rw [scalarToBytes, List.foldl_append]
    simp only [List.replicate, List.foldl_cons, List.foldl_nil, hbyte]
    simp
  unfold scalarFromBytes
  rw [hfold]
  exact if_pos ⟨rfl, hx⟩

/-! ## Squeaks -/

/-- Author, recipient (0 for none), height, time, payment point, block, replied squeak (0 for none)
and content, one byte each. -/
abbrev Squeak := { bytes : Bytes // bytes.length = 8 }

def Squeak.byte (s : Squeak) (i : Nat) : UInt8 := s.val.getD i 0

/-- A squeak is its eight bytes. -/
def deserialize (bytes : Bytes) : Except Err Squeak :=
  if h : bytes.length = 8 then .ok ⟨bytes, h⟩ else .error (.squeaklib "not a squeak")

/-- The key of a squeak is the scalar of its payment point. -/
def checkSqueakSecretKey (s : Squeak) (secretKey : Bytes) : Except Err Unit := do
  let point ← paymentPointBytesFromScalarBytes secretKey
  if point = [2, s.byte 4] then .ok () else .error (.squeaklib "invalid secret key")

/-- The content of a private squeak needs the key of its author or of its recipient. -/
def getDecryptedContentStr (s : Squeak) (secretKey : Bytes) (author recipient : Option UInt8) : Except Err String := do
  checkSqueakSecretKey s secretKey
  if s.byte 1 = 0 ∨ author = some (s.byte 0) ∨ recipient = some (s.byte 1) then
    .ok (String.singleton (Char.ofNat (s.byte 7).toNat))
  else .error (.squeaklib "cannot decrypt")

/-- A key is one byte. -/
def singleByte : Bytes → Except Err UInt8
  | [b] => .ok b
  | _ => .error (.squeaklib "invalid key")

/-- A small `squeaklib`. -/
def squeaklib : Squeaklib where
  CSqueak := Squeak
  PublicKey := UInt8
  PrivateKey := UInt8
  publicKeyDecEq := inferInstance
  serialize := Subtype.val
  deserialize := deserialize
  getHash := fun s => s.val
  checkSqueak := fun s => if s.byte 0 = 0 then .error (.squeaklib "invalid signature") else .ok ()
  checkSqueakSecretKey := checkSqueakSecretKey
  getPubKey := fun s => s.byte 0
  getRecipientPubKey := fun s => s.byte 1
  isReply := fun s => s.byte 6 != 0
  isPrivateMessage := fun s => s.byte 1 != 0
  hashReplySqk := fun s => [s.byte 6]
  hashBlock := fun s => [s.byte 5]
  nBlockHeight := fun s => (s.byte 2).toNat
  nTime := fun s => (s.byte 3).toNat
  paymentPoint := fun s => [2, s.byte 4]
  getDecryptedContentStr := getDecryptedContentStr
  publicKeyToBytes := fun p => [p]
  publicKeyFromBytes := singleByte
  privateKeyToBytes := fun k => [k]
  privateKeyFromBytes := singleByte
  getPublicKey := id
  order := order
  scalarFromBytes := scalarFromBytes
  scalarToBytes := scalarToBytes
  scalarSum := fun x y => (x + y) % order
  scalarDifference := fun x y => (x + order - y) % order
  paymentPointBytesFromScalarBytes := paymentPointBytesFromScalarBytes

theorem codecLaws : squeaklib.CodecLaws where
  squeak s := dif_pos s.property
  publicKey _ := rfl
  privateKey _ := rfl

theorem keyLaws : squeaklib.KeyLaws where
  hash s s' h := by rw [show s = s' from Subtype.ext h]
  valid s s' k hpoint hk := by
    have hbyte : Squeak.byte s 4 = Squeak.byte s' 4 := by simpa [squeaklib] using hpoint
    simpa [squeaklib, checkSqueakSecretKey, hbyte] using hk

theorem decryptLaws : squeaklib.DecryptLaws where
  valid s k k' author recipient hk hk' := by
    show getDecryptedContentStr s k author recipient = getDecryptedContentStr s k' author recipient
    unfold getDecryptedContentStr
    rw [show checkSqueakSecretKey s k = .ok () from hk, show checkSqueakSecretKey s k' = .ok () from hk']
  isPublic s k author recipient hpublic := by
    have hbyte : s.byte 1 = 0 := by simpa [squeaklib] using hpublic
    show getDecryptedContentStr s k author recipient = getDecryptedContentStr s k none none
    simp [getDecryptedContentStr, hbyte]

theorem headerLaws : squeaklib.HeaderLaws where
  header s s' h := by
    rw [show s = s' from Subtype.ext h]
    constructor <;> rfl
  decrypts s s' k author recipient _ _ h := by rw [show s = s' from Subtype.ext h]

theorem scalarLaws : squeaklib.ScalarLaws where
  fromBytes _ hx := scalarFromBytes_scalarToBytes hx
  length _ _ := rfl
  sum _ _ _ _ := rfl
  difference _ _ _ _ := rfl

/-! ## A node -/

/-- The clock and the invoices of the lightning network, each with its preimage. -/
structure Outside where
  nowMs : Int
  invoices : List (Invoice × Bytes)

/-- The invoice of a payment request, and its preimage. -/
def Outside.find (paymentRequest : String) (o : Outside) : Option (Invoice × Bytes) :=
  o.invoices.find? fun i => i.1.paymentRequest == paymentRequest

/-- A chain with a block for each height of one byte. -/
def bitcoinClient : BitcoinClient Outside where
  getBlockInfoByHeight h o :=
    (if 0 ≤ h ∧ h < 256 then .ok ⟨h, [UInt8.ofNat h.toNat], ⟨600 * h⟩⟩ else .error (.client "no such block"), o)
  getBestBlockInfo o := (.ok ⟨100, [100], ⟨60000⟩⟩, o)

/-- A lightning node with its invoices. -/
def lightningClient : LightningClient Outside where
  createInvoice preimage amountMsat o :=
    let invoice : Invoice :=
      ⟨0 :: preimage, String.ofList (List.replicate (o.invoices.length + 1) 'i'), amountMsat, false, 0,
        o.nowMs / 1000, 3600⟩
    if o.invoices.any fun i => i.1.rHash == 0 :: preimage then
      (.error (.client "invoice with payment hash already exists"), o)
    else (.ok invoice, { o with invoices := o.invoices ++ [(invoice, preimage)] })
  decodePayReq paymentRequest o :=
    (match o.find paymentRequest with
      | some (i, _) => .ok ⟨i.rHash, [], i.valueMsat, "seller", i.creationDate, i.expiry⟩
      | none => .error (.client "invalid payment request"), o)
  payInvoice paymentRequest o :=
    (match o.find paymentRequest with
      | some (_, preimage) => .ok ⟨preimage, ""⟩
      | none => .ok ⟨[], "no route"⟩, o)
  getInfo o := (.ok ⟨["seller@lnd:9735"]⟩, o)

/-- A database with the default limits. -/
def sqlite : Sqlite where
  numeric text := (pythonInt text).toOption.map fun n => (n : Rat)
  maxVariableNumber := 32766

/-- A node with room for `maxSqueaks` squeaks, one for each author and height. -/
def node (maxSqueaks : Int) : Node squeaklib Outside where
  maxSqueaks := maxSqueaks
  maxSqueaksPerPublicKeyPerBlock := 1
  squeakRetentionS := 60
  sentOfferRetentionS := 60
  priceMsat := 1000
  lndExternalHost := ""
  lndPort := 9735
  timestampNowMs o := (o.nowMs, o)
  generateTweak o := (scalarToBytes 250, o)
  makeSqueakFromStr privateKey content blockHeight blockHash timestamp replyTo recipient o :=
    (.ok (⟨[privateKey, (show Option UInt8 from recipient).getD 0, UInt8.ofNat blockHeight.toNat,
      UInt8.ofNat timestamp.toNat, 5,
      blockHash.headD 0, (replyTo.getD []).headD 0, UInt8.ofNat (content.toList.headD 'a').toNat], rfl⟩,
      scalarToBytes 5), o)
  bitcoinClient := bitcoinClient
  lightningClient := lightningClient
  requestsGet _ _ o := (.error (.client "connection refused"), o)
  json := jsonText
  sqlite := sqlite

/-- A world with an empty database. -/
def world : World Outside := ⟨.empty, ⟨1000000, []⟩⟩

/-- The public squeak `x` of author 1 with secret key 5 at height 7. -/
def squeak : Squeak := ⟨[1, 0, 7, 9, 5, 7, 0, 120], rfl⟩

/-- A public squeak of author 2 at the same height. -/
def squeak₂ : Squeak := ⟨[2, 0, 7, 9, 5, 7, 0, 121], rfl⟩

/-- An offer of the key 5 with the invoice `i`. -/
def offerRow (nonce : Bytes) : ReceivedOfferRow where
  receivedOfferId := 1
  createdTimeMs := 1000000
  squeakHash := squeak.val.reverse
  paymentHash := 0 :: scalarToBytes 7
  nonce := nonce
  paymentPoint := [2, 5]
  invoiceTimestamp := 1000
  invoiceExpiry := 3600
  priceMsat := 1000
  paymentRequest := "i"
  destination := "seller"
  lightningHost := "lnd"
  lightningPort := 9735
  peerNetwork := .IPV4
  peerHost := "seller"
  peerPort := 8555
  paid := false

/-- A buyer with that offer, on a lightning network where the invoice's preimage is the scalar 7. -/
def buyer (nonce : Bytes) : World Outside :=
  ⟨{ Db.empty with receivedOffers := ⟨[offerRow nonce], 1⟩ },
    ⟨1000000, [(⟨0 :: scalarToBytes 7, "i", 1000, false, 0, 1000, 3600⟩, scalarToBytes 7)]⟩⟩

/-- A sent offer of the key 5 with the nonce 2, so that the preimage is the scalar 7. -/
def sentOfferRow : SentOfferRow where
  sentOfferId := 1
  createdTimeMs := 1000000
  squeakHash := squeak.val.reverse
  paymentHash := 0 :: scalarToBytes 7
  nonce := scalarToBytes 2
  priceMsat := 1000
  paymentRequest := "i"
  invoiceTimestamp := 1000
  invoiceExpiry := 3600
  peerNetwork := .IPV4
  peerHost := "buyer"
  peerPort := 0
  paid := false

/-- A seller with that offer. -/
def seller : World Outside := ⟨{ Db.empty with sentOffers := ⟨[sentOfferRow], 1⟩ }, ⟨1000000, []⟩⟩

/-- A notification for the invoice of that offer. -/
def notification (settled : Bool) : Invoice := ⟨0 :: scalarToBytes 7, "i", 1000, settled, 1, 1000, 3600⟩

/-- The row of that squeak, unlocked. -/
def unlockedRow (secretKey : Bytes) (content : String) : SqueakRow :=
  { SqueakDb.squeakRow squeaklib 1000000 squeak.val.reverse squeak ⟨4200⟩ with
    secretKey := some secretKey, content := some content }

/-- A node that holds it. -/
def owner (secretKey : Bytes) (content : String) : World Outside :=
  ⟨{ Db.empty with squeaks := [unlockedRow secretKey content] }, ⟨1000000, []⟩⟩

end Sample

end Squeaknode
