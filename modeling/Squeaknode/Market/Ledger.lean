/-
What the nodes of a market know of the world between them: the invoices that their lightning nodes made,
and the answers that their servers sent. An offer is honest if its invoice hides a valid key of the squeak
behind the nonce of the offer; a database is sound if every offer it sells is honest, every offer it
received from a node of the market is, and every payment it made to one bought a valid key.
-/
import Squeaknode.Client.PeerRuns
import Squeaknode.Market.Operations
import Squeaknode.Node.Integrity
import Squeaknode.Node.PaymentProcessor
import Squeaknode.Node.ValidFlag

namespace Squeaknode

open Interleave Relational SqueakDb SqueakStore

variable {L : Squeaklib} {ρ : Type}

/-! ## The world outside -/

namespace Ledger

variable (M : Ledger ρ)

/-- The world outside keeps its invoices, and no server answers. -/
structure Calm (o o' : ρ) : Prop where
  made : ∀ preimage invoice, M.made o preimage invoice → M.made o' preimage invoice
  answered : ∀ address request response, M.answered o' address request response → M.answered o address request response

end Ledger

/-- Whatever the node asks the world outside moves it within `R`. -/
structure Node.Moves (N : Node L ρ) (R : ρ → ρ → Prop) : Prop where
  clock : ∀ o, R o (N.timestampNowMs o).2
  nonce : ∀ o, R o (N.generateTweak o).2
  squeak : ∀ privateKey content blockHeight blockHash timestamp replyTo recipient o,
    R o (N.makeSqueakFromStr privateKey content blockHeight blockHash timestamp replyTo recipient o).2
  block : ∀ height o, R o (N.bitcoinClient.getBlockInfoByHeight height o).2
  bestBlock : ∀ o, R o (N.bitcoinClient.getBestBlockInfo o).2
  createInvoice : ∀ preimage amountMsat o, R o (N.lightningClient.createInvoice preimage amountMsat o).2
  decodePayReq : ∀ paymentRequest o, R o (N.lightningClient.decodePayReq paymentRequest o).2
  payInvoice : ∀ paymentRequest o, R o (N.lightningClient.payInvoice paymentRequest o).2
  getInfo : ∀ o, R o (N.lightningClient.getInfo o).2
  requestsGet : ∀ address request o, R o (N.requestsGet address request o).2

/-- A valid secret key encodes a scalar. -/
def Squeaklib.ScalarKeys (L : Squeaklib) : Prop :=
  ∀ s k, L.checkSqueakSecretKey s k = .ok () → L.IsScalar k

/-- What a node of the market relies on: its lightning node makes the invoice it is asked for, decodes the
payment request of an invoice as that invoice, and pays it only for its preimage; what it gets from an honest
address is an answer that was sent there; and its nonces are scalars. -/
structure Ledger.Laws (M : Ledger ρ) (N : Node L ρ) (honest : PeerAddress → Prop) : Prop where
  calm : N.Moves M.Calm
  created : ∀ preimage amountMsat o invoice o',
    N.lightningClient.createInvoice preimage amountMsat o = (.ok invoice, o') →
      M.made o' preimage invoice ∧ invoice.valueMsat = amountMsat
  decoded : ∀ o preimage invoice payReq, M.made o preimage invoice →
    (N.lightningClient.decodePayReq invoice.paymentRequest o).1 = .ok payReq →
      payReq.paymentHash = invoice.rHash ∧ payReq.numMsat = invoice.valueMsat
  paid : ∀ o preimage invoice payment, M.made o preimage invoice →
    (N.lightningClient.payInvoice invoice.paymentRequest o).1 = .ok payment → payment.paymentPreimage ≠ [] →
      payment.paymentPreimage = preimage
  got : ∀ address request o response, honest address → (N.requestsGet address request o).1 = .ok response →
    M.answered o address request response
  nonce : ∀ o, L.IsScalar (N.generateTweak o).1

/-- Sending an answer adds it to the answers, and changes nothing else. -/
structure Ledger.SendLaws (M : Ledger ρ) : Prop where
  made : ∀ address request response o preimage invoice, M.made o preimage invoice →
    M.made (M.send address request response o) preimage invoice
  answered : ∀ address request response o address' request' response',
    M.answered (M.send address request response o) address' request' response' →
      M.answered o address' request' response' ∨ (address' = address ∧ request' = request ∧ response' = response)

/-! ## Honest offers -/

/-- The preimage of the invoice is the sum of a valid key of the squeak and the nonce. -/
def Ledger.Hides (M : Ledger ρ) (L : Squeaklib) (o : ρ) (squeakHash nonce : Bytes) (invoice : Invoice) : Prop :=
  ∃ x y, x < L.order ∧ y < L.order ∧ M.made o (L.scalarToBytes ((x + y) % L.order)) invoice ∧
    nonce = L.scalarToBytes y ∧ KeyFor L squeakHash (L.scalarToBytes x)

/-- An offer with its payment hash and price is the one of an honest invoice. -/
def Ledger.Backed (M : Ledger ρ) (L : Squeaklib) (o : ρ) (squeakHash nonce : Bytes) (paymentRequest : String)
    (paymentHash : Bytes) (priceMsat : Int) : Prop :=
  ∃ invoice, M.Hides L o squeakHash nonce invoice ∧ paymentRequest = invoice.paymentRequest ∧
    paymentHash = invoice.rHash ∧ priceMsat = invoice.valueMsat

/-- There is an invoice with this payment hash and price. -/
def Ledger.Priced (M : Ledger ρ) (o : ρ) (paymentHash : Bytes) (priceMsat : Int) : Prop :=
  ∃ preimage invoice, M.made o preimage invoice ∧ paymentHash = invoice.rHash ∧ priceMsat = invoice.valueMsat

/-- The answer is an honest offer. -/
def Ledger.Offers (M : Ledger ρ) (L : Squeaklib) (J : JsonCodec) (o : ρ) (content : Bytes) : Prop :=
  ∃ offer invoice, content = J.jsonify (App.offerJson offer) ∧ offer.HasText ∧
    M.Hides L o offer.squeakHash offer.nonce invoice ∧
    offer.paymentRequest = invoice.paymentRequest

section Later

variable {M : Ledger ρ} {o o' : ρ} (h : ∀ preimage invoice, M.made o preimage invoice → M.made o' preimage invoice)

include h

theorem Ledger.Hides.later {squeakHash nonce : Bytes} {invoice : Invoice} (hi : M.Hides L o squeakHash nonce invoice) :
    M.Hides L o' squeakHash nonce invoice := by
  obtain ⟨x, y, hx, hy, hmade, hnonce, hkey⟩ := hi
  exact ⟨x, y, hx, hy, h _ _ hmade, hnonce, hkey⟩

theorem Ledger.Backed.later {squeakHash nonce paymentHash : Bytes} {paymentRequest : String} {priceMsat : Int}
    (hb : M.Backed L o squeakHash nonce paymentRequest paymentHash priceMsat) :
    M.Backed L o' squeakHash nonce paymentRequest paymentHash priceMsat := by
  obtain ⟨invoice, hi, hrest⟩ := hb
  exact ⟨invoice, hi.later h, hrest⟩

theorem Ledger.Priced.later {paymentHash : Bytes} {priceMsat : Int} (hp : M.Priced o paymentHash priceMsat) :
    M.Priced o' paymentHash priceMsat := by
  obtain ⟨preimage, invoice, hmade, hrest⟩ := hp
  exact ⟨preimage, invoice, h _ _ hmade, hrest⟩

theorem Ledger.Offers.later {J : JsonCodec} {content : Bytes} (ho : M.Offers L J o content) :
    M.Offers L J o' content := by
  obtain ⟨offer, invoice, hcontent, htext, hi, hrequest⟩ := ho
  exact ⟨offer, invoice, hcontent, htext, hi.later h, hrequest⟩

end Later

theorem Ledger.Backed.priced {M : Ledger ρ} {o : ρ} {squeakHash nonce paymentHash : Bytes} {paymentRequest : String}
    {priceMsat : Int} (h : M.Backed L o squeakHash nonce paymentRequest paymentHash priceMsat) :
    M.Priced o paymentHash priceMsat := by
  obtain ⟨invoice, ⟨x, y, -, -, hmade, -, -⟩, -, hhash, hprice⟩ := h
  exact ⟨_, invoice, hmade, hhash, hprice⟩

/-! ## Sound databases -/

/-- The peer that an offer came from. -/
def ReceivedOfferRow.peerAddress (r : ReceivedOfferRow) : PeerAddress := ⟨r.peerNetwork, r.peerHost, r.peerPort⟩

/-- The peer that a payment went to. -/
def SentPaymentRow.peerAddress (r : SentPaymentRow) : PeerAddress := ⟨r.peerNetwork, r.peerHost, r.peerPort⟩

/-- What the row of a squeak says of its bytes and its key. -/
def KeyedRow (L : Squeaklib) (r : SqueakRow) : Prop :=
  ∃ squeak, L.deserialize r.squeak = .ok squeak ∧ r.hash = getHash L squeak ∧
    ∀ k, r.secretKey = some k → L.checkSqueakSecretKey squeak k = .ok ()

/-- Every answer to a request for an offer from an honest address is an honest offer. -/
def Ledger.AnswersHonestly (M : Ledger ρ) (L : Squeaklib) (J : JsonCodec) (honest : PeerAddress → Prop) (o : ρ) : Prop :=
  ∀ address hash response, honest address → M.answered o address (.offer hash) response → response.statusCode = 200 →
    M.Offers L J o response.content

/-- The database of a node of the market, with what was sent between the nodes. -/
structure MarketSound (M : Ledger ρ) (L : Squeaklib) (J : JsonCodec) (honest : PeerAddress → Prop) (w : World ρ) :
    Prop where
  squeaks : ∀ r ∈ w.db.squeaks, KeyedRow L r
  sold : ∀ r ∈ w.db.sentOffers.rows, M.Backed L w.env r.squeakHash r.nonce r.paymentRequest r.paymentHash r.priceMsat
  received : ∀ r ∈ w.db.receivedPayments.rows, M.Priced w.env r.paymentHash r.priceMsat
  answers : M.AnswersHonestly L J honest w.env
  offered : ∀ r ∈ w.db.receivedOffers.rows, honest r.peerAddress →
    M.Backed L w.env r.squeakHash r.nonce r.paymentRequest r.paymentHash r.priceMsat ∧
      ∃ squeak, r.squeakHash = getHash L squeak ∧ r.paymentPoint = L.paymentPoint squeak
  bought : ∀ r ∈ w.db.sentPayments.rows, honest r.peerAddress →
    r.valid = true ∧ KeyFor L r.squeakHash r.secretKey ∧ M.Priced w.env r.paymentHash r.priceMsat

/-- A step that brings no keys, offers, payments or answers: rows of squeaks keep their key or are new without one,
other rows change in a flag or an index at most, or disappear. -/
structure Quietly (M : Ledger ρ) (L : Squeaklib) (w w' : World ρ) : Prop where
  env : M.Calm w.env w'.env
  squeaks : ∀ r' ∈ w'.db.squeaks, (∃ r ∈ w.db.squeaks, r'.squeak = r.squeak ∧ r'.hash = r.hash ∧
    r'.secretKey = r.secretKey) ∨ ∃ now squeak header, r' = squeakRow L now (getHash L squeak) squeak header
  sentOffers : ∀ r' ∈ w'.db.sentOffers.rows, ∃ r ∈ w.db.sentOffers.rows, r' = { r with paid := r'.paid }
  receivedPayments : ∀ r' ∈ w'.db.receivedPayments.rows, ∃ r ∈ w.db.receivedPayments.rows,
    r' = { r with settleIndex := r'.settleIndex }
  receivedOffers : ∀ r' ∈ w'.db.receivedOffers.rows, ∃ r ∈ w.db.receivedOffers.rows, r' = { r with paid := r'.paid }
  sentPayments : ∀ r' ∈ w'.db.sentPayments.rows, r' ∈ w.db.sentPayments.rows

section Sound

variable {M : Ledger ρ} {J : JsonCodec} {honest : PeerAddress → Prop} {w w' : World ρ}

/-- Another node's step keeps a database sound if it keeps the invoices and its answers are honest. -/
theorem MarketSound.other (h : MarketSound M L J honest w) {o : ρ}
    (hmade : ∀ preimage invoice, M.made w.env preimage invoice → M.made o preimage invoice)
    (hanswers : M.AnswersHonestly L J honest o) : MarketSound M L J honest ⟨w.db, o⟩ where
  squeaks := h.squeaks
  sold r hr := (h.sold r hr).later hmade
  received r hr := (h.received r hr).later hmade
  answers := hanswers
  offered r hr hhonest := ⟨(h.offered r hr hhonest).1.later hmade, (h.offered r hr hhonest).2⟩
  bought r hr hhonest := ⟨(h.bought r hr hhonest).1, (h.bought r hr hhonest).2.1,
    (h.bought r hr hhonest).2.2.later hmade⟩

theorem Ledger.Calm.answersHonestly {o o' : ρ} (h : M.Calm o o') (hanswers : M.AnswersHonestly L J honest o) :
    M.AnswersHonestly L J honest o' :=
  fun address hash response hhonest hanswer hstatus =>
    (hanswers address hash response hhonest (h.answered _ _ _ hanswer) hstatus).later h.made

theorem KeyedRow.of_eq {r r' : SqueakRow} (h : KeyedRow L r) (hsqueak : r'.squeak = r.squeak) (hhash : r'.hash = r.hash)
    (hkey : r'.secretKey = r.secretKey) : KeyedRow L r' := by
  obtain ⟨squeak, hs, hh, hk⟩ := h
  exact ⟨squeak, hsqueak ▸ hs, hhash.trans hh, hkey ▸ hk⟩

theorem keyedRow_squeakRow (hC : L.CodecLaws) (now : Int) (squeak : L.CSqueak) (header : BlockHeader) :
    KeyedRow L (squeakRow L now (getHash L squeak) squeak header) :=
  ⟨squeak, hC.squeak squeak, rfl, fun _ hk => by cases hk⟩

theorem MarketSound.quietly (hC : L.CodecLaws) (h : MarketSound M L J honest w) (hq : Quietly M L w w') :
    MarketSound M L J honest w' where
  squeaks r' hr' := by
    rcases hq.squeaks r' hr' with ⟨r, hr, hsqueak, hhash, hkey⟩ | ⟨now, squeak, header, rfl⟩
    · exact (h.squeaks r hr).of_eq hsqueak hhash hkey
    · exact keyedRow_squeakRow hC now squeak header
  sold r' hr' := by
    obtain ⟨r, hr, heq⟩ := hq.sentOffers r' hr'
    rw [heq]
    exact (h.sold r hr).later hq.env.made
  received r' hr' := by
    obtain ⟨r, hr, heq⟩ := hq.receivedPayments r' hr'
    rw [heq]
    exact (h.received r hr).later hq.env.made
  answers := hq.env.answersHonestly h.answers
  offered r' hr' hhonest := by
    obtain ⟨r, hr, heq⟩ := hq.receivedOffers r' hr'
    rw [heq] at hhonest ⊢
    exact ⟨(h.offered r hr hhonest).1.later hq.env.made, (h.offered r hr hhonest).2⟩
  bought r hr hhonest := by
    obtain ⟨hvalid, hkey, hpriced⟩ := h.bought r (hq.sentPayments r hr) hhonest
    exact ⟨hvalid, hkey, hpriced.later hq.env.made⟩

/-! ## Quiet statements -/

theorem Ledger.Calm.refl (o : ρ) : M.Calm o o := ⟨fun _ _ h => h, fun _ _ _ h => h⟩

theorem Quietly.of_calm {db : Db} {o o' : ρ} (h : M.Calm o o') : Quietly M L ⟨db, o⟩ ⟨db, o'⟩ where
  env := h
  squeaks r hr := .inl ⟨r, hr, rfl, rfl, rfl⟩
  sentOffers r hr := ⟨r, hr, rfl⟩
  receivedPayments r hr := ⟨r, hr, rfl⟩
  receivedOffers r hr := ⟨r, hr, rfl⟩
  sentPayments _ hr := hr

theorem Quietly.refl (w : World ρ) : Quietly M L w w := .of_calm (Ledger.Calm.refl w.env)

/-- A statement that writes the squeaks alone. -/
theorem Quietly.of_squeaks {db : Db} {o : ρ} {rows : List SqueakRow}
    (h : ∀ r' ∈ rows, (∃ r ∈ db.squeaks, r'.squeak = r.squeak ∧ r'.hash = r.hash ∧ r'.secretKey = r.secretKey) ∨
      ∃ now squeak header, r' = squeakRow L now (getHash L squeak) squeak header) :
    Quietly M L ⟨db, o⟩ ⟨{ db with squeaks := rows }, o⟩ :=
  { Quietly.refl (M := M) (L := L) (⟨db, o⟩ : World ρ) with squeaks := h }

theorem quietly_updateSqueak (squeakHash : Bytes) {f : SqueakRow → SqueakRow}
    (hf : ∀ r, (f r).squeak = r.squeak ∧ (f r).hash = r.hash ∧ (f r).secretKey = r.secretKey) (w : World ρ) :
    Quietly M L w { w with db := updateSqueak squeakHash f w.db } := by
  refine Quietly.of_squeaks fun r' hr' => .inl ?_
  obtain ⟨r, hr, rfl⟩ := mem_updateWhere.1 hr'
  refine ⟨r, hr, ?_⟩
  split
  · exact hf r
  · exact ⟨rfl, rfl, rfl⟩

theorem quietly_deleteSqueak (squeakHash : Bytes) (w : World ρ) :
    Quietly M L w { w with db := SqueakDb.deleteSqueak squeakHash w.db } :=
  Quietly.of_squeaks fun r hr => .inl ⟨r, (mem_deleteWhere.1 hr).1, rfl, rfl, rfl⟩

theorem quietly_insertSqueak (now : Int) (squeak : L.CSqueak) (header : BlockHeader) (w : World ρ) :
    Quietly M L w { w with db := (SqueakDb.insertSqueak (squeakRow L now (getHash L squeak) squeak header) w.db).2 } := by
  refine Quietly.of_squeaks fun r hr => ?_
  rcases mem_insertUnique hr with hr | ⟨rfl, -⟩
  · exact .inl ⟨r, hr, rfl, rfl, rfl⟩
  · exact .inr ⟨now, squeak, header, rfl⟩

theorem quietly_setSentOfferPaid (paymentHash : Bytes) (paid : Bool) (w : World ρ) :
    Quietly M L w { w with db := setSentOfferPaid paymentHash paid w.db } :=
  { Quietly.refl (M := M) (L := L) w with
    sentOffers := by
      intro r' hr'
      obtain ⟨r, hr, rfl⟩ := mem_updateWhere.1 hr'
      exact ⟨r, hr, by split <;> rfl⟩ }

theorem quietly_deleteExpiredSentOffers (now intervalS : Int) (w : World ρ) :
    Quietly M L w { w with db := (deleteExpiredSentOffers now intervalS w.db).2 } :=
  { Quietly.refl (M := M) (L := L) w with sentOffers := fun r hr => ⟨r, (mem_deleteWhere.1 hr).1, rfl⟩ }

theorem quietly_setReceivedOfferPaid (paymentHash : Bytes) (paid : Bool) (w : World ρ) :
    Quietly M L w { w with db := setReceivedOfferPaid paymentHash paid w.db } :=
  { Quietly.refl (M := M) (L := L) w with
    receivedOffers := by
      intro r' hr'
      obtain ⟨r, hr, rfl⟩ := mem_updateWhere.1 hr'
      exact ⟨r, hr, by split <;> rfl⟩ }

theorem quietly_clearSettleIndices (w : World ρ) :
    Quietly M L w { w with db := clearReceivedPaymentSettleIndices w.db } :=
  { Quietly.refl (M := M) (L := L) w with
    receivedPayments := by
      intro r' hr'
      obtain ⟨r, hr, rfl⟩ := mem_updateWhere.1 hr'
      exact ⟨r, hr, rfl⟩ }

/-! ## Statements that bring something -/

theorem MarketSound.setSqueakSecretKey (h : MarketSound M L J honest w) {squeakHash secretKey : Bytes}
    (hk : KeyFor L squeakHash secretKey) :
    MarketSound M L J honest { w with db := SqueakDb.setSqueakSecretKey squeakHash secretKey w.db } :=
  { h with
    squeaks := by
      intro r hr
      obtain ⟨r₀, hr₀, rfl⟩ := mem_updateWhere.1 hr
      obtain ⟨squeak, hs, hhash, hkey⟩ := h.squeaks r₀ hr₀
      split
      · rename_i heq
        refine ⟨squeak, hs, hhash, ?_⟩
        rintro k ⟨⟩
        exact hk squeak (hhash.symm.trans (by simpa using heq))
      · exact ⟨squeak, hs, hhash, hkey⟩ }

theorem MarketSound.insertSentOffer (h : MarketSound M L J honest w) (now : Int) {o : SentOffer}
    (ho : M.Backed L w.env o.squeakHash o.nonce o.paymentRequest o.paymentHash o.priceMsat) :
    MarketSound M L J honest { w with db := (SqueakDb.insertSentOffer now o w.db).2 } :=
  { h with
    sold := by
      intro r hr
      rcases Table.mem_insert hr with hr | ⟨id, rfl⟩
      · exact h.sold r hr
      · exact ho }

theorem MarketSound.insertReceivedPayment (h : MarketSound M L J honest w) (now : Int) {p : ReceivedPayment}
    (hp : M.Priced w.env p.paymentHash p.priceMsat) :
    MarketSound M L J honest { w with db := (SqueakDb.insertReceivedPayment now p w.db).2 } :=
  { h with
    received := by
      intro r hr
      rcases Table.mem_insert hr with hr | ⟨id, rfl⟩
      · exact h.received r hr
      · exact hp }

theorem MarketSound.insertReceivedOffer (h : MarketSound M L J honest w) (now : Int) {o : ReceivedOffer}
    (ho : honest o.peerAddress →
      M.Backed L w.env o.squeakHash o.nonce o.paymentRequest o.paymentHash o.priceMsat ∧
        ∃ squeak, o.squeakHash = getHash L squeak ∧ o.paymentPoint = L.paymentPoint squeak) :
    MarketSound M L J honest { w with db := (SqueakDb.insertReceivedOffer now o w.db).2 } := by
  have hrows : ∀ r ∈ (SqueakDb.insertReceivedOffer now o w.db).2.receivedOffers.rows,
      r ∈ w.db.receivedOffers.rows ∨ ∃ host id, r = receivedOfferRow now o host id := fun _ => mem_insertReceivedOffer
  obtain ⟨receivedOffers, heq⟩ := SqueakDb.insertReceivedOffer_others now o w.db
  rw [heq] at hrows ⊢
  exact
    { h with
      offered := by
        intro r hr hhonest
        rcases hrows r hr with hr | ⟨host, id, rfl⟩
        · exact h.offered r hr hhonest
        · exact ho hhonest }

theorem MarketSound.insertSentPayment (h : MarketSound M L J honest w) (now : Int) {p : SentPayment}
    (hp : honest p.peerAddress →
      p.valid = true ∧ KeyFor L p.squeakHash p.secretKey ∧ M.Priced w.env p.paymentHash p.priceMsat) :
    MarketSound M L J honest { w with db := (SqueakDb.insertSentPayment now p w.db).2 } :=
  { h with
    bought := by
      intro r hr hhonest
      rcases Table.mem_insert hr with hr | ⟨id, rfl⟩
      · exact h.bought r hr hhonest
      · exact hp hhonest }

/-- An answer is sent: if it is one to a request for an offer, it must be honest. -/
theorem MarketSound.send (hM : M.SendLaws) (h : MarketSound M L J honest w) {address : PeerAddress} {request : Request}
    {response : Response} (hresponse : ∀ hash, request = .offer hash → response.statusCode = 200 →
      M.Offers L J w.env response.content) :
    MarketSound M L J honest { w with env := M.send address request response w.env } := by
  have hmade := hM.made address request response w.env
  refine h.other hmade fun address' hash response' hhonest hanswer hstatus => ?_
  rcases hM.answered _ _ _ _ _ _ _ hanswer with hold | ⟨-, hrequest, rfl⟩
  · exact (h.answers address' hash response' hhonest hold hstatus).later hmade
  · exact (hresponse hash hrequest.symm hstatus).later hmade

end Sound

/-! ## From an honest offer to a valid key -/

/-- The buyer of an honest offer computes a valid key, and its flag says so. -/
theorem sentPaymentOf_honest (hS : L.ScalarLaws) (hL : L.CheckLaw) {x y : Nat} (hx : x < L.order) (hy : y < L.order)
    {squeakHash : Bytes} (hkey : KeyFor L squeakHash (L.scalarToBytes x)) {o : ReceivedOffer}
    (hhash : o.squeakHash = squeakHash) (hnonce : o.nonce = L.scalarToBytes y) {squeak : L.CSqueak}
    (hsqueak : squeakHash = getHash L squeak) (hpoint : o.paymentPoint = L.paymentPoint squeak) {p : SentPayment}
    (hp : SqueakCore.sentPaymentOf (L := L) o (L.scalarToBytes ((x + y) % L.order)) = .ok p) :
    p.valid = true ∧ KeyFor L p.squeakHash p.secretKey := by
  obtain ⟨hsub, hvalid⟩ := keyOf_sentPaymentOf hp
  rw [hnonce, SecretKeys.subtractTweak_add hS hx hy] at hsub
  have hsecret : p.secretKey = L.scalarToBytes x := (Except.ok.inj hsub).symm
  have hpsqueak : p.squeakHash = squeakHash := (sentPaymentOf_ok hp).1.trans hhash
  refine ⟨hvalid.2 ?_, ?_⟩
  · rw [hsecret, hpoint]
    exact (hL squeak _).1 (hkey squeak hsqueak.symm)
  · rw [hpsqueak, hsecret]
    exact hkey

end Squeaknode
