/-
The tables of the node's database, one structure per row with the columns of the schema. Enumerated
columns (the network of an address) hold the enumeration itself.
-/
import Squeaknode.Core.Types
import Squeaknode.Relational.Table

namespace Squeaknode

open Relational

structure SqueakRow where
  hash : Bytes
  createdTimeMs : Int
  squeak : Bytes
  replyHash : Option Bytes
  blockHash : Bytes
  blockHeight : Int
  timeS : Int
  authorPublicKey : Bytes
  recipientPublicKey : Option Bytes
  secretKey : Option Bytes
  blockTimeS : Int
  likedTimeMs : Option Int
  content : Option String
  deriving DecidableEq, Repr

structure ProfileRow where
  profileId : Nat
  createdTimeMs : Int
  profileName : String
  privateKey : Option Bytes
  publicKey : Bytes
  following : Bool
  profileImage : Option Bytes
  deriving DecidableEq, Repr

structure ReceivedOfferRow where
  receivedOfferId : Nat
  createdTimeMs : Int
  squeakHash : Bytes
  paymentHash : Bytes
  nonce : Bytes
  paymentPoint : Bytes
  invoiceTimestamp : Int
  invoiceExpiry : Int
  priceMsat : Int
  paymentRequest : String
  destination : String
  lightningHost : String
  lightningPort : Int
  peerNetwork : Network
  peerHost : String
  peerPort : Int
  paid : Bool
  deriving DecidableEq, Repr

structure SentPaymentRow where
  sentPaymentId : Nat
  createdTimeMs : Int
  peerNetwork : Network
  peerHost : String
  peerPort : Int
  squeakHash : Bytes
  paymentHash : Bytes
  secretKey : Bytes
  priceMsat : Int
  nodePubkey : String
  valid : Bool
  deriving DecidableEq, Repr

structure SentOfferRow where
  sentOfferId : Nat
  createdTimeMs : Int
  squeakHash : Bytes
  paymentHash : Bytes
  nonce : Bytes
  priceMsat : Int
  paymentRequest : String
  invoiceTimestamp : Int
  invoiceExpiry : Int
  peerNetwork : Network
  peerHost : String
  peerPort : Int
  paid : Bool
  deriving DecidableEq, Repr

structure ReceivedPaymentRow where
  receivedPaymentId : Nat
  createdTimeMs : Int
  squeakHash : Bytes
  paymentHash : Bytes
  priceMsat : Int
  settleIndex : Int
  peerNetwork : Network
  peerHost : String
  peerPort : Int
  deriving DecidableEq, Repr

structure ConfigRow where
  username : String
  sellPriceMsat : Option Int
  deriving DecidableEq, Repr

structure Db where
  squeaks : List SqueakRow
  profiles : Table ProfileRow
  receivedOffers : Table ReceivedOfferRow
  sentPayments : Table SentPaymentRow
  sentOffers : Table SentOfferRow
  receivedPayments : Table ReceivedPaymentRow
  configs : List ConfigRow

/-- The database right after its migrations. -/
def Db.empty : Db := ⟨[], .empty, .empty, .empty, .empty, .empty, []⟩

end Squeaknode
