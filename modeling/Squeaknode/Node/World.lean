/-
The world a node runs in: its database, and everything outside it (clock, random numbers, bitcoin
node, lightning node, peers), which is a state of any type that answers the calls of the node. The
node's operations are programs over this world; each SQL statement is one atomic step of them.
-/
import Squeaknode.Db.SqueakDb
import Squeaknode.Interleave.Pool
import Squeaknode.Wire.Json

namespace Squeaknode

open Interleave

/-! ## What the node talks to -/

/-- `BitcoinClient`. -/
structure BitcoinClient (ρ : Type) where
  getBlockInfoByHeight : Int → ρ → Except Err BlockInfo × ρ
  getBestBlockInfo : ρ → Except Err BlockInfo × ρ

/-- `LightningClient`, without the subscription to invoices. -/
structure LightningClient (ρ : Type) where
  createInvoice : (preimage : Bytes) → (amountMsat : Int) → ρ → Except Err Invoice × ρ
  decodePayReq : (paymentRequest : String) → ρ → Except Err PayReq × ρ
  payInvoice : (paymentRequest : String) → ρ → Except Err Payment × ρ
  getInfo : ρ → Except Err Info × ρ

/-- A request to a peer server, with the text of its URL parameters. -/
inductive Request where
  | squeak (hash : String)
  | secretKey (hash : String)
  | offer (hash : String)
  | lookup (args : List (String × String))
  deriving DecidableEq, Repr

/-- The answer to an HTTP request. -/
structure Response where
  statusCode : Nat
  content : Bytes
  deriving DecidableEq, Repr

/-- A node: its configuration, and how the world outside answers its calls. -/
structure Node (L : Squeaklib) (ρ : Type) where
  maxSqueaks : Int
  maxSqueaksPerPublicKeyPerBlock : Int
  squeakRetentionS : Int
  sentOfferRetentionS : Int
  priceMsat : Int
  lndExternalHost : String
  lndPort : Int
  timestampNowMs : ρ → Int × ρ
  generateTweak : ρ → Bytes × ρ
  /-- `MakeSqueakFromStr`, with the time it is given -/
  makeSqueakFromStr : (privateKey : L.PrivateKey) → (content : String) → (blockHeight : Int) →
    (blockHash : Bytes) → (timestamp : Int) → (replyTo : Option Bytes) → (recipient : Option L.PublicKey) →
    ρ → Except Err (L.CSqueak × Bytes) × ρ
  bitcoinClient : BitcoinClient ρ
  lightningClient : LightningClient ρ
  /-- `requests.get` from a peer -/
  requestsGet : PeerAddress → Request → ρ → Except Err Response × ρ
  json : JsonCodec
  sqlite : Sqlite

/-- The database of a node, and everything around it. -/
structure World (ρ : Type) where
  db : Db
  env : ρ

/-- The time that the node reads next. -/
def clock {L : Squeaklib} {ρ : Type} (N : Node L ρ) (w : World ρ) : Int := (N.timestampNowMs w.env).1

/-- What programs of the node leave on the trace. -/
inductive Obs where
  /-- the bitcoin client answered a question for the block at `height` -/
  | blockInfo (height : Int) (info : BlockInfo)
  /-- a save counted the squeaks -/
  | countedSqueaks (num : Nat)
  /-- a save counted the squeaks with this author and height -/
  | countedPublicKeyBlock (publicKey : Bytes) (blockHeight : Int) (num : Nat)
  /-- a save inserted `row` when there were so many squeaks, and so many with its author and height -/
  | inserted (row : SqueakRow) (numSqueaks numPublicKeyBlock : Nat)
  /-- a listener's notification raised -/
  | notificationRaised
  deriving DecidableEq, Repr

/-- The programs of a node. -/
abbrev NodeM (ρ : Type) := Prog (World ρ) Obs Err

/-! ## The steps of the node's programs -/

variable {ρ β : Type}

/-- A SELECT. -/
def query (f : Db → β) : NodeM ρ β := Prog.atomic fun w => (f w.db, w)

/-- An INSERT or a DELETE that returns something. -/
def sql (f : Db → β × Db) : NodeM ρ β := Prog.atomic fun w => ((f w.db).1, { w with db := (f w.db).2 })

/-- An UPDATE or a DELETE. -/
def update (f : Db → Db) : NodeM ρ Unit := Prog.atomic fun w => ((), { w with db := f w.db })

/-- A question to the world outside. -/
def ask (f : ρ → β × ρ) : NodeM ρ β := Prog.atomic fun w => ((f w.env).1, { w with env := (f w.env).2 })

/-- A call of the world outside that may fail. -/
def call (f : ρ → Except Err β × ρ) : NodeM ρ β := ask f >>= Prog.ofExcept

section Run

variable (w : World ρ)

@[simp] theorem run_query (f : Db → β) : (query f : NodeM ρ β).run w = (.ok (f w.db), w) := rfl
@[simp] theorem run_sql (f : Db → β × Db) :
    (sql f : NodeM ρ β).run w = (.ok (f w.db).1, { w with db := (f w.db).2 }) := rfl
@[simp] theorem run_update (f : Db → Db) : (update f : NodeM ρ Unit).run w = (.ok (), { w with db := f w.db }) := rfl
@[simp] theorem run_ask (f : ρ → β × ρ) :
    (ask f : NodeM ρ β).run w = (.ok (f w.env).1, { w with env := (f w.env).2 }) := rfl
@[simp] theorem run_call (f : ρ → Except Err β × ρ) :
    (call f : NodeM ρ β).run w = ((f w.env).1, { w with env := (f w.env).2 }) := by
  unfold call
  rw [Prog.run_bind, run_ask]
  exact Prog.run_ofExcept _ _

end Run

section Within

variable {R : World ρ → List Obs → World ρ → Prop}

theorem within_query (h : ∀ w, R w [] w) (f : Db → β) : (query f : NodeM ρ β).Within R :=
  Prog.within_atomic h

theorem within_sql {f : Db → β × Db} (h : ∀ w : World ρ, R w [] { w with db := (f w.db).2 }) :
    (sql f : NodeM ρ β).Within R := Prog.within_atomic h

theorem within_update {f : Db → Db} (h : ∀ w : World ρ, R w [] { w with db := f w.db }) :
    (update f : NodeM ρ Unit).Within R := Prog.within_atomic h

theorem within_ask {f : ρ → β × ρ} (h : ∀ w : World ρ, R w [] { w with env := (f w.env).2 }) :
    (ask f : NodeM ρ β).Within R := Prog.within_atomic h

theorem within_call {f : ρ → Except Err β × ρ} (h : ∀ w : World ρ, R w [] { w with env := (f w.env).2 }) :
    (call f : NodeM ρ β).Within R :=
  Prog.within_bind (within_ask h) fun _ => Prog.within_ofExcept _

end Within

end Squeaknode
