/-
squeaklib, the library of squeaks, keys and scalars the node is built on. It is not part of the
repository: its types and functions are parameters, and what the node relies on is stated as laws
that results take as hypotheses.
-/
import Squeaknode.Core.Types

namespace Squeaknode

/-- The part of squeaklib the node calls. -/
structure Squeaklib where
  CSqueak : Type
  PublicKey : Type
  PrivateKey : Type
  publicKeyDecEq : DecidableEq PublicKey
  serialize : CSqueak → Bytes
  deserialize : Bytes → Except Err CSqueak
  /-- `squeak.GetHash()` -/
  getHash : CSqueak → Bytes
  checkSqueak : CSqueak → Except Err Unit
  checkSqueakSecretKey : CSqueak → Bytes → Except Err Unit
  getPubKey : CSqueak → PublicKey
  getRecipientPubKey : CSqueak → PublicKey
  isReply : CSqueak → Bool
  isPrivateMessage : CSqueak → Bool
  hashReplySqk : CSqueak → Bytes
  hashBlock : CSqueak → Bytes
  nBlockHeight : CSqueak → Int
  nTime : CSqueak → Int
  paymentPoint : CSqueak → Bytes
  /-- `squeak.GetDecryptedContentStr(secret_key, authorPrivKey, recipientPrivKey)` -/
  getDecryptedContentStr : CSqueak → Bytes → Option PrivateKey → Option PrivateKey → Except Err String
  publicKeyToBytes : PublicKey → Bytes
  publicKeyFromBytes : Bytes → Except Err PublicKey
  privateKeyToBytes : PrivateKey → Bytes
  privateKeyFromBytes : Bytes → Except Err PrivateKey
  getPublicKey : PrivateKey → PublicKey
  /-- the order of the group the scalars act on -/
  order : Nat
  scalarFromBytes : Bytes → Except Err Nat
  scalarToBytes : Nat → Bytes
  scalarSum : Nat → Nat → Nat
  scalarDifference : Nat → Nat → Nat
  paymentPointBytesFromScalarBytes : Bytes → Except Err Bytes

namespace Squeaklib

variable (L : Squeaklib)

instance : DecidableEq L.PublicKey := L.publicKeyDecEq

/-- Deserializing undoes serializing, for squeaks and for keys. -/
structure CodecLaws : Prop where
  squeak : ∀ s, L.deserialize (L.serialize s) = .ok s
  publicKey : ∀ p, L.publicKeyFromBytes (L.publicKeyToBytes p) = .ok p
  privateKey : ∀ p, L.privateKeyFromBytes (L.privateKeyToBytes p) = .ok p

/-- The hash of a squeak commits to its payment point, and the payment point alone decides which
secret keys are valid. -/
structure KeyLaws : Prop where
  hash : ∀ s s', L.getHash s = L.getHash s' → L.paymentPoint s = L.paymentPoint s'
  valid : ∀ s s' k, L.paymentPoint s = L.paymentPoint s' → L.checkSqueakSecretKey s k = .ok () →
    L.checkSqueakSecretKey s' k = .ok ()

/-- The hash of a squeak commits to its block height and its time. -/
def HashLaw : Prop :=
  ∀ s s', L.getHash s = L.getHash s' → L.nBlockHeight s = L.nBlockHeight s' ∧ L.nTime s = L.nTime s'

/-- The secret key of the payment point that a squeak commits to is valid for the squeak. -/
def PointLaw : Prop :=
  ∀ s k, L.paymentPointBytesFromScalarBytes k = .ok (L.paymentPoint s) → L.checkSqueakSecretKey s k = .ok ()

/-- Keys that pass the check of a squeak decrypt it to the same content, and no private key is used on a public one. -/
structure DecryptLaws : Prop where
  valid : ∀ s k k' author recipient, L.checkSqueakSecretKey s k = .ok () → L.checkSqueakSecretKey s k' = .ok () →
    L.getDecryptedContentStr s k author recipient = L.getDecryptedContentStr s k' author recipient
  isPublic : ∀ s k author recipient, L.isPrivateMessage s = false →
    L.getDecryptedContentStr s k author recipient = L.getDecryptedContentStr s k none none

/-- The squeaks have the same header. -/
structure SameHeader (s s' : L.CSqueak) : Prop where
  author : L.getPubKey s = L.getPubKey s'
  recipient : L.getRecipientPubKey s = L.getRecipientPubKey s'
  isReply : L.isReply s = L.isReply s'
  isPrivate : L.isPrivateMessage s = L.isPrivateMessage s'
  replyHash : L.hashReplySqk s = L.hashReplySqk s'
  blockHash : L.hashBlock s = L.hashBlock s'
  blockHeight : L.nBlockHeight s = L.nBlockHeight s'
  time : L.nTime s = L.nTime s'
  paymentPoint : L.paymentPoint s = L.paymentPoint s'

/-- The hash of a squeak is that of its header, in which the encrypted content has a hash of its own. The signature
is no part of it: squeaks of one hash can have several. -/
structure HeaderLaws : Prop where
  header : ∀ s s', L.getHash s = L.getHash s' → L.SameHeader s s'
  decrypts : ∀ s s' k author recipient, L.checkSqueak s = .ok () → L.checkSqueak s' = .ok () →
    L.getHash s = L.getHash s' →
    L.getDecryptedContentStr s k author recipient = L.getDecryptedContentStr s' k author recipient

/-- `k` encodes a scalar. -/
def IsScalar (k : Bytes) : Prop := ∃ x < L.order, L.scalarToBytes x = k

/-- Scalars are the integers below the group order, encoded in 32 bytes; the sum and the difference
are taken modulo the order. -/
structure ScalarLaws : Prop where
  fromBytes : ∀ x < L.order, L.scalarFromBytes (L.scalarToBytes x) = .ok x
  length : ∀ x < L.order, (L.scalarToBytes x).length = 32
  sum : ∀ x < L.order, ∀ y < L.order, L.scalarSum x y = (x + y) % L.order
  difference : ∀ x < L.order, ∀ y < L.order, L.scalarDifference x y = (x + L.order - y) % L.order

end Squeaklib

end Squeaknode
