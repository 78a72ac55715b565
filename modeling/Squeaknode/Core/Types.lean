/-
The records the node passes around: addresses, offers, payments, invoices and block headers, and
what its operations can raise.
-/
import Mathlib.Tactic.Common

namespace Squeaknode

abbrev Bytes := List UInt8

/-- What a call of the node can raise. -/
inductive Err where
  /-- `Exception(msg)` raised by the node itself -/
  | exception (msg : String)
  /-- `sqlalchemy.exc.IntegrityError`: a statement would violate a constraint of the schema -/
  | integrityError
  /-- `sqlalchemy.exc.OperationalError`: the database does not run the statement -/
  | operationalError (msg : String)
  /-- `sqlalchemy.exc.InterfaceError`, `OverflowError` or `UnicodeEncodeError`: the driver of the database does not
  take a value -/
  | bindingError (msg : String)
  /-- raised inside squeaklib -/
  | squeaklib (msg : String)
  /-- raised by the bitcoin, lightning or HTTP client -/
  | client (msg : String)
  /-- `ValueError`, `TypeError`, `KeyError` or `RuntimeError` of the standard library -/
  | valueError (msg : String)
  | notFoundError
  | paymentRequiredError
  deriving DecidableEq, Repr

/-! ## JSON values -/

/-- A number with a fraction or an exponent, or one of the constants `NaN` and `Infinity`. -/
structure JsonFloat where
  isZero : Bool
  /-- what `int()` makes of it -/
  truncated : Option Int
  /-- what a column of texts makes of it; `NaN` becomes NULL -/
  text : Option String
  deriving DecidableEq, Repr

inductive Json where
  | null
  | bool (b : Bool)
  | int (n : Int)
  | float (x : JsonFloat)
  | str (s : String)
  /-- a text with an unpaired surrogate, which has no UTF-8 form -/
  | surrogates
  | arr (items : List Json)
  | obj (fields : List (String × Json))

instance : Coe String Json := ⟨.str⟩

/-! ## Addresses -/

inductive Network where
  | IPV4 | IPV6 | TORV2 | TORV3 | I2P | CJDNS
  deriving DecidableEq, Repr

structure PeerAddress where
  network : Network
  host : String
  port : Int
  deriving DecidableEq, Repr

/-- The host is a text, or what a peer sent in its place. -/
structure LightningAddressHostPort where
  host : Json
  port : Int

/-! ## Offers and payments -/

/-- The offer details that are sent from seller to buyer. -/
structure Offer where
  squeakHash : Bytes
  nonce : Bytes
  paymentRequest : String
  host : Json
  port : Int

/-- An offer generated by a seller to be sent. -/
structure SentOffer where
  sentOfferId : Option Nat
  squeakHash : Bytes
  paymentHash : Bytes
  nonce : Bytes
  priceMsat : Int
  paymentRequest : String
  invoiceTime : Int
  invoiceExpiry : Int
  peerAddress : PeerAddress
  paid : Bool
  deriving DecidableEq, Repr

/-- An offer received by a buyer. -/
structure ReceivedOffer where
  receivedOfferId : Option Nat
  squeakHash : Bytes
  priceMsat : Int
  paymentHash : Bytes
  nonce : Bytes
  paymentPoint : Bytes
  invoiceTimestamp : Int
  invoiceExpiry : Int
  paymentRequest : String
  destination : String
  lightningAddress : LightningAddressHostPort
  peerAddress : PeerAddress
  paid : Bool

/-- A payment made by a buyer. -/
structure SentPayment where
  sentPaymentId : Option Nat
  createdTimeMs : Option Int
  peerAddress : PeerAddress
  squeakHash : Bytes
  paymentHash : Bytes
  secretKey : Bytes
  priceMsat : Int
  nodePubkey : String
  valid : Bool
  deriving DecidableEq, Repr

/-- A payment received by a seller. -/
structure ReceivedPayment where
  receivedPaymentId : Option Nat
  createdTimeMs : Option Int
  squeakHash : Bytes
  paymentHash : Bytes
  priceMsat : Int
  settleIndex : Int
  peerAddress : PeerAddress
  deriving DecidableEq, Repr

/-- The number of received payments and SQL's SUM of their prices, which is NULL over no rows. -/
structure ReceivedPaymentSummary where
  numReceivedPayments : Nat
  totalAmountReceivedMsat : Option Int
  deriving DecidableEq, Repr

/-- The same for the sent payments. -/
structure SentPaymentSummary where
  numSentPayments : Nat
  totalAmountSentMsat : Option Int
  deriving DecidableEq, Repr

/-- A remote peer that is saved in the database. -/
structure SqueakPeer where
  peerId : Option Nat
  peerName : String
  address : PeerAddress
  autoconnect : Bool
  shareForFree : Bool
  deriving DecidableEq, Repr

/-! ## The lightning client -/

structure Invoice where
  rHash : Bytes
  paymentRequest : String
  valueMsat : Int
  settled : Bool
  settleIndex : Int
  creationDate : Int
  expiry : Int
  deriving DecidableEq, Repr

structure PayReq where
  paymentHash : Bytes
  paymentPoint : Bytes
  numMsat : Int
  destination : String
  timestamp : Int
  expiry : Int
  deriving DecidableEq, Repr

structure Payment where
  paymentPreimage : Bytes
  paymentError : String
  deriving DecidableEq, Repr

/-- What the node reads of the info of its lightning node. -/
structure Info where
  uris : List String
  deriving DecidableEq, Repr

/-! ## The bitcoin client -/

/-- What the node reads of a block header. -/
structure BlockHeader where
  nTime : Int
  deriving DecidableEq, Repr

structure BlockInfo where
  blockHeight : Int
  blockHash : Bytes
  blockHeader : BlockHeader
  deriving DecidableEq, Repr

end Squeaknode
