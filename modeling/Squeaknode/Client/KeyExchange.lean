/-
A key is bought: the seller's node creates an offer and serves it, the buyer's node reads it, pays
the invoice and computes the key. Whatever the key and the nonce are, also where their sum wraps
around the group order, the buyer ends with the seller's key, byte for byte.
-/
import Squeaknode.Client.PeerRuns
import Squeaknode.Node.PayOffer
import Squeaknode.Node.PaymentProcessor
import Squeaknode.Server.AppRuns

namespace Squeaknode

open Interleave Relational SqueakDb SqueakStore

variable {L : Squeaklib} {ρ ρ' : Type}

/-! ## The two sides and the network between them -/

/-- `content` is what anybody decrypts of a public squeak with its secret key, and what the recipient
decrypts of a private one. -/
structure HasContent (L : Squeaklib) (squeak : L.CSqueak) (secretKey : Bytes) (content : String) : Prop where
  toAll : L.isPrivateMessage squeak = false → L.getDecryptedContentStr squeak secretKey none none = .ok content
  toRecipient : L.isPrivateMessage squeak = true → ∀ k, L.getPublicKey k = L.getRecipientPubKey squeak →
    L.getDecryptedContentStr squeak secretKey none (some k) = .ok content

/-- The seller holds the squeak with its key and asks a price; its nonce is the scalar `y`, its
lightning node makes a new invoice for the preimage, and it knows its lightning address. -/
structure CanSell (S : Node L ρ) (squeak : L.CSqueak) (x y : Nat) (invoice : Invoice) (w : World ρ) : Prop where
  row : ∃ r, findSqueak (getHash L squeak) w.db = some r ∧ L.deserialize r.squeak = .ok squeak ∧
    r.secretKey = some (L.scalarToBytes x)
  price : 0 < sellPriceMsat S w.db
  nonce : (S.generateTweak w.env).1 = L.scalarToBytes y
  created : (S.lightningClient.createInvoice (L.scalarToBytes ((x + y) % L.order)) (sellPriceMsat S w.db)
    (S.generateTweak w.env).2).1 = .ok invoice
  unsent : ∀ r ∈ w.db.sentOffers.rows, r.paymentHash ≠ invoice.rHash
  unreceived : ∀ r ∈ w.db.receivedPayments.rows, r.paymentHash ≠ invoice.rHash
  address : KnowsAddress S

/-- The buyer holds the squeak and has never seen the payment hash. -/
structure CanBuy (B : Node L ρ') (squeak : L.CSqueak) (invoice : Invoice) (w : World ρ') : Prop where
  row : ∃ r, findSqueak (getHash L squeak) w.db = some r ∧ L.deserialize r.squeak = .ok squeak
  unseen : ∀ r ∈ w.db.receivedOffers.rows, r.paymentHash ≠ invoice.rHash
  unpaid : ∀ r ∈ w.db.sentPayments.rows, r.paymentHash ≠ invoice.rHash
  ids : w.db.receivedOffers.Issued ReceivedOfferRow.receivedOfferId

/-- While `K` holds of the world outside, the buyer's lightning node decodes the payment request of
the invoice, and reveals the preimage of the invoice when it pays. -/
structure PaysHonestly (B : Node L ρ') (K : ρ' → Prop) (invoice : Invoice) (priceMsat : Int) (preimage : Bytes) :
    Prop where
  decode : ∀ o, K o → ∃ payReq, (B.lightningClient.decodePayReq invoice.paymentRequest o).1 = .ok payReq ∧
    payReq.paymentHash = invoice.rHash ∧ payReq.numMsat = priceMsat
  pay : ∀ o, K o → ∃ payment, (B.lightningClient.payInvoice invoice.paymentRequest o).1 = .ok payment ∧
    payment.paymentPreimage = preimage
  afterRequest : ∀ o address request, K o → K (B.requestsGet address request o).2
  afterDecode : ∀ o paymentRequest, K o → K (B.lightningClient.decodePayReq paymentRequest o).2
  afterClock : ∀ o, K o → K (B.timestampNowMs o).2

/-! ## The seller -/

/-- The seller recorded an offer of the squeak with this payment hash and price. -/
def OfferSent (squeakHash paymentHash : Bytes) (priceMsat : Int) (db : Db) : Prop :=
  ∃ r ∈ db.sentOffers.rows, r.squeakHash = squeakHash ∧ r.paymentHash = paymentHash ∧ r.priceMsat = priceMsat

/-- The world of the seller after it recorded `o` at the time `now`. -/
def soldWorld (o : SentOffer) (now : Int) (env : ρ) (w : World ρ) : World ρ where
  db := { w.db with sentOffers :=
    ⟨w.db.sentOffers.rows ++ [sentOfferRow now o (w.db.sentOffers.lastId + 1)], w.db.sentOffers.lastId + 1⟩ }
  env := env

section Exchange

variable {S : Node L ρ} {B : Node L ρ'} {squeak : L.CSqueak} {x y : Nat} {invoice : Invoice} {ws : World ρ}
  {wb : World ρ'} {K : ρ' → Prop}

/-- The seller's node serves the offer and records it. -/
theorem serve_offer (hS : L.ScalarLaws) (hx : x < L.order) (hy : y < L.order) (hhash : getHash L squeak ≠ [])
    (hsell : CanSell S squeak x y invoice ws) (page : Nat → Bytes) (clientHost : String) :
    let o := sentOfferOf L squeak (L.scalarToBytes y) (sellPriceMsat S ws.db) (App.clientAddr clientHost) invoice
    ∃ (a : Option LightningAddressHostPort) (now : Int) (env : ρ),
      (offerOf o a).HasText ∧
      (∀ peerAddress, ∃ host, bindAddress (offeredAddress (offerOf o a) peerAddress) = .ok (some host)) ∧
      (App.serve S page clientHost (.offer (hex (getHash L squeak)))).run ws =
        (.ok ⟨200, S.json.jsonify (App.offerJson (offerOf o a))⟩, soldWorld o now env ws) := by
  intro o
  obtain ⟨r, hr, hs, hk⟩ := hsell.row
  have hprice : sellPriceMsat S ws.db ≠ 0 := by
    have hpos := hsell.price
    omega
  rcases hi : S.lightningClient.createInvoice (L.scalarToBytes ((x + y) % L.order)) (sellPriceMsat S ws.db)
    (S.generateTweak ws.env).2 with ⟨i, env⟩
  have hcreated := hsell.created
  rw [hi] at hcreated
  obtain rfl : i = .ok invoice := hcreated
  have ho : (SqueakCore.createOffer S squeak (L.scalarToBytes x) (App.clientAddr clientHost)
      (sellPriceMsat S ws.db)).run ws =
      (.ok o, { ws with env := env }) := by
    refine run_createOffer_iff.2 ⟨_, invoice, env, ?_, hi, ?_, rfl⟩
    · rw [hsell.nonce]
      exact SecretKeys.addTweak_scalarToBytes hS hx hy
    · rw [hsell.nonce]
  obtain ⟨a, ha, hport⟩ := hsell.address (S.timestampNowMs env).2
  obtain ⟨htext, haddress⟩ := offerOf_sendable ha hport o
  refine ⟨a, (S.timestampNowMs env).1,
    (packageAddress S (SqueakController.lndExternalAddress S) (S.timestampNowMs env).2).2, htext, haddress, ?_⟩
  rw [App.run_serve_offer S page (isSegment_hex hhash),
    App.run_offer_created S (fromHex_hex _) hprice hr hs hk ho hsell.unsent]
  simp only [withSentOffer, ha]
  rfl

/-! ## The buyer -/

/-- The buyer's node reads the offer that the seller's node sent. -/
theorem run_getOffer_served {J : JsonCodec} (hJ : J.Laws) (hB : B.json = J) (seller : SqueakPeer) (squeakHash : Bytes)
    {o : Offer} (htext : o.HasText)
    (hhttp : (B.requestsGet seller.address (.offer (hex squeakHash)) wb.env).1 =
      .ok ⟨200, J.jsonify (App.offerJson o)⟩) :
    (PeerClient.getOffer B seller squeakHash).run wb =
      (.ok (some o), afterRequest B seller (.offer (hex squeakHash)) wb) := by
  rw [run_clientGetOffer, hhttp, hB]
  simp only [gotOffer, ne_eq, not_true_eq_false, if_false, parseOffer_offerJson hJ htext]
  rfl

/-- The secret key that the buyer computes is the seller's, and it is valid for the squeak. -/
theorem sentPaymentOf_key (hS : L.ScalarLaws) (hx : x < L.order) (hy : y < L.order)
    (hpoint : L.paymentPointBytesFromScalarBytes (L.scalarToBytes x) = .ok (L.paymentPoint squeak)) {o : ReceivedOffer}
    (hnonce : o.nonce = L.scalarToBytes y) (hpp : o.paymentPoint = L.paymentPoint squeak) :
    ∃ p, SqueakCore.sentPaymentOf (L := L) o (L.scalarToBytes ((x + y) % L.order)) = .ok p ∧
      p.squeakHash = o.squeakHash ∧ p.paymentHash = o.paymentHash ∧ p.priceMsat = o.priceMsat ∧
      p.secretKey = L.scalarToBytes x ∧ p.valid = true := by
  unfold SqueakCore.sentPaymentOf
  rw [hnonce, SecretKeys.subtractTweak_add hS hx hy]
  simp only [bind, Except.bind, hpoint]
  exact ⟨_, rfl, rfl, rfl, rfl, rfl, by simp [hpp]⟩

/-- The buyer's world after the offer was saved, at the time `now`. -/
def offeredWorld (o : ReceivedOffer) (host : String) (now : Int) (env : ρ') (w : World ρ') : World ρ' where
  db := { w.db with receivedOffers :=
    ⟨w.db.receivedOffers.rows ++ [receivedOfferRow now o host (w.db.receivedOffers.lastId + 1)],
      w.db.receivedOffers.lastId + 1⟩ }
  env := env

/-- The buyer's node saves the offer. -/
theorem run_handleOffer_served (wb : World ρ') (squeak : L.CSqueak) {offer : Offer}
    (hhash : offer.squeakHash = getHash L squeak) (hrequest : offer.paymentRequest = invoice.paymentRequest)
    {priceMsat : Int} {preimage : Bytes} (hpay : PaysHonestly B K invoice priceMsat preimage) (hK : K wb.env)
    {peerAddress : PeerAddress} {host : String}
    (haddress : bindAddress (offeredAddress offer peerAddress) = .ok (some host))
    (hunseen : ∀ r ∈ wb.db.receivedOffers.rows, r.paymentHash ≠ invoice.rHash) :
    ∃ payReq now env, payReq.paymentHash = invoice.rHash ∧ payReq.numMsat = priceMsat ∧ K env ∧
      (handleOffer B squeak offer peerAddress).run wb =
        (.ok (), offeredWorld (receivedOfferOf L squeak offer peerAddress payReq) host now env wb) := by
  obtain ⟨payReq, hdecode, hpayHash, hprice⟩ := hpay.decode wb.env hK
  have hK' := hpay.afterDecode wb.env invoice.paymentRequest hK
  rcases hd : B.lightningClient.decodePayReq offer.paymentRequest wb.env with ⟨d, env⟩
  rw [hrequest] at hd
  rw [hd] at hdecode hK'
  obtain rfl : d = .ok payReq := hdecode
  rw [← hrequest] at hd
  refine ⟨payReq, (B.timestampNowMs env).1, (B.timestampNowMs env).2, hpayHash, hprice, hpay.afterClock env hK', ?_⟩
  have hfree : ∀ r ∈ wb.db.receivedOffers.rows,
      r.paymentHash ≠ (receivedOfferOf L squeak offer peerAddress payReq).paymentHash := by
    intro r hr
    rw [show (receivedOfferOf L squeak offer peerAddress payReq).paymentHash = invoice.rHash from hpayHash]
    exact hunseen r hr
  rw [run_handleOffer_ok hhash.symm hd haddress]
  have hdb := afterReceivedOffer_free (N := B) (o := receivedOfferOf L squeak offer peerAddress payReq)
    (w := { wb with env := env }) haddress hfree
  exact congrArg (Prod.mk _) (congrArg (World.mk · _) hdb)

/-- The saved offer is found by its new id. -/
theorem getReceivedOffer_offeredWorld {o : ReceivedOffer} {host : String} {now : Int} {env : ρ'}
    (hids : wb.db.receivedOffers.Issued ReceivedOfferRow.receivedOfferId)
    (hfree : ∀ r ∈ wb.db.receivedOffers.rows, r.paymentHash ≠ o.paymentHash) :
    getReceivedOffer (wb.db.receivedOffers.lastId + 1) (offeredWorld o host now env wb).db =
      some (parseReceivedOffer (receivedOfferRow now o host (wb.db.receivedOffers.lastId + 1))) := by
  have ht : taken ReceivedOfferRow.paymentHash (receivedOfferRow now o host (wb.db.receivedOffers.lastId + 1)).paymentHash
      wb.db.receivedOffers.rows = false := taken_eq_false.2 hfree
  have hfind := Table.findBy_insert (receivedOfferRow now o host) hids (fun _ => rfl) ht
  rw [Table.insert_of_free ht] at hfind
  show (findBy _ _ _).map _ = _
  rw [show (offeredWorld o host now env wb).db.receivedOffers.rows = wb.db.receivedOffers.rows ++ [_] from rfl, hfind]
  rfl

/-- What the buyer holds after the purchase: the seller's key, with the content of a public squeak,
a valid payment of the price, and the offer marked paid. -/
structure Bought (squeak : L.CSqueak) (secretKey paymentHash : Bytes) (priceMsat : Int) (content : String)
    (offerId : Nat) (db db' : Db) : Prop where
  key : ∃ r, findSqueak (getHash L squeak) db' = some r ∧ L.deserialize r.squeak = .ok squeak ∧
    r.secretKey = some secretKey
  publicContent : L.isPrivateMessage squeak = false →
    (findSqueak (getHash L squeak) db').bind SqueakRow.content = some content
  privateContent : L.isPrivateMessage squeak = true →
    (findSqueak (getHash L squeak) db').bind SqueakRow.content =
      (findSqueak (getHash L squeak) db).bind SqueakRow.content
  payment : ∃ p ∈ db'.sentPayments.rows, p.squeakHash = getHash L squeak ∧ p.paymentHash = paymentHash ∧
    p.priceMsat = priceMsat ∧ p.secretKey = secretKey ∧ p.valid = true
  paid : ∃ o, getReceivedOffer offerId db' = some o ∧ o.paymentHash = paymentHash ∧ o.paid = true

/-- Paying a saved offer of the squeak buys its key. -/
theorem run_payOffer_bought (hS : L.ScalarLaws) (hP : L.PointLaw) (hx : x < L.order) (hy : y < L.order)
    (hpoint : L.paymentPointBytesFromScalarBytes (L.scalarToBytes x) = .ok (L.paymentPoint squeak)) {content : String}
    (hcontent : HasContent L squeak (L.scalarToBytes x) content) {priceMsat : Int}
    (hpay : PaysHonestly B K invoice priceMsat (L.scalarToBytes ((x + y) % L.order))) (hK : K wb.env) {offerId : Nat}
    {o : ReceivedOffer} (ho : getReceivedOffer offerId wb.db = some o) (hhash : o.squeakHash = getHash L squeak)
    (hpayHash : o.paymentHash = invoice.rHash) (hprice : o.priceMsat = priceMsat)
    (hnonce : o.nonce = L.scalarToBytes y) (hpp : o.paymentPoint = L.paymentPoint squeak)
    (hrequest : o.paymentRequest = invoice.paymentRequest) {r : SqueakRow}
    (hr : findSqueak (getHash L squeak) wb.db = some r) (hs : L.deserialize r.squeak = .ok squeak)
    (hunpaid : ∀ r ∈ wb.db.sentPayments.rows, r.paymentHash ≠ invoice.rHash) :
    ∃ id w', (payOffer B offerId).run wb = (.ok id, w') ∧
      Bought squeak (L.scalarToBytes x) invoice.rHash priceMsat content offerId wb.db w'.db := by
  have hsum : (x + y) % L.order < L.order := Nat.mod_lt _ (by omega)
  have hpre : preimageOf B o wb = some (L.scalarToBytes ((x + y) % L.order)) := by
    obtain ⟨payment, hp, hpreimage⟩ := hpay.pay wb.env hK
    have hne : L.scalarToBytes ((x + y) % L.order) ≠ [] := by
      intro hnil
      have hlen := hS.length _ hsum
      rw [hnil] at hlen
      cases hlen
    unfold preimageOf
    rw [hrequest, hp]
    simp only [hpreimage, hne, if_false]
  obtain ⟨p, hsent, hpsqueak, hphash, hpprice, hpkey, hpvalid⟩ := sentPaymentOf_key hS hx hy hpoint hnonce hpp
  have hfree : ∀ r ∈ (afterPay B o wb).db.sentPayments.rows, r.paymentHash ≠ p.paymentHash := by
    rw [hphash, hpayHash]
    exact hunpaid
  -- recording the payment does not touch the squeaks, so the key is saved to the row found before
  have hr' : findSqueak o.squeakHash (afterRecord B p (afterPay B o wb)).db = some r := by
    unfold afterRecord
    rw [insertSentPayment_of_free hfree, hhash]
    exact hr
  have hsave := run_saveSecretKey_valid hr' hs (hpkey ▸ hP squeak _ hpoint)
  have hout : keyOutcome L p.secretKey squeak = .ok () := by
    unfold keyOutcome
    split
    · rfl
    · rename_i hpublic
      rw [hpkey, hcontent.toAll (by simpa using hpublic)]
      rfl
  have hrec : Recorded offerId o (afterPay B o wb).db ((recordPayment B o p).run (afterPay B o wb)).2.db :=
    recordPayment_free B (sentPaymentOf_ok hsent) ho hfree
  have hrow := findSqueak_withKey hr' p.secretKey squeak
  rw [run_payOffer B ho, Prog.run_bind, run_corePayOffer_paid hpre, hsent]
  simp only
  rw [run_recordPayment_free B o hfree, hsave, hout] at hrec ⊢
  refine ⟨_, _, rfl, ?_, ?_, ?_, ?_, ?_⟩
  · rw [← hhash, hpkey] at *
    exact ⟨_, hrow, hs, rfl⟩
  · intro hpublic
    rw [← hhash, hrow, hpkey]
    simp [rowWithKey, keyContent, hpublic, hcontent.toAll hpublic]
  · intro hprivate
    rw [← hhash, hrow, hhash, hr]
    simp [rowWithKey, keyContent, hprivate]
  · refine ⟨sentPaymentRow (B.timestampNowMs (afterPay B o wb).env).1 p (wb.db.sentPayments.lastId + 1), ?_,
      hpsqueak.trans hhash, hphash.trans hpayHash, hpprice.trans hprice, hpkey, hpvalid⟩
    rw [withKey_eq]
    unfold afterRecord
    rw [insertSentPayment_of_free hfree]
    exact List.mem_append_right _ List.mem_cons_self
  · exact ⟨_, hrec.paid, hpayHash, rfl⟩

/-- The recipient of a private squeak decrypts its content with a signing profile. -/
theorem run_unlock_bought {content : String} (hcontent : HasContent L squeak (L.scalarToBytes x) content)
    (hprivate : L.isPrivateMessage squeak = true) {id : Nat} {row : ProfileRow} {profile : SqueakProfile L}
    {k : L.PrivateKey} (hid : id ≠ 0) (hrow : findProfile id wb.db = some row)
    (hprofile : parseSqueakProfile L row = .ok profile) (hkey : profile.privateKey = some k)
    (hrecipient : L.getPublicKey k = L.getRecipientPubKey squeak) {r : SqueakRow}
    (hr : findSqueak (getHash L squeak) wb.db = some r) (hs : L.deserialize r.squeak = .ok squeak)
    (hk : r.secretKey = some (L.scalarToBytes x)) :
    ∃ w', (unlockSqueak L (getHash L squeak) none (some id)).run wb = (.ok (), w') ∧
      (findSqueak (getHash L squeak) w'.db).bind SqueakRow.content = some content := by
  have hopened := hcontent.toRecipient hprivate k hrecipient
  refine ⟨_, run_unlockSqueak_recipient hr hs hk hid hrow hprofile hkey hopened, ?_⟩
  simp only [setSqueakDecryptedContent]
  rw [findSqueak_updateSqueak (f := fun r => { r with content := some content }) (fun _ => rfl), hr]
  rfl

/-- The seller's record of a settled offer. -/
def PaymentReceived (squeakHash paymentHash : Bytes) (priceMsat : Int) (db : Db) : Prop :=
  ∃ r ∈ db.receivedPayments.rows, r.squeakHash = squeakHash ∧ r.paymentHash = paymentHash ∧ r.priceMsat = priceMsat

/-- A notification that the invoice is settled makes the seller record the payment. -/
theorem run_processInvoice_sold {o : SentOffer} {now : Int} {env : ρ} {notification : Invoice}
    (hsettled : notification.settled = true) (hhash : notification.rHash = o.paymentHash)
    (hunsent : ∀ r ∈ ws.db.sentOffers.rows, r.paymentHash ≠ o.paymentHash)
    (hunreceived : ∀ r ∈ ws.db.receivedPayments.rows, r.paymentHash ≠ o.paymentHash) :
    PaymentReceived o.squeakHash o.paymentHash o.priceMsat
      ((PaymentProcessor.processInvoice S notification).run (soldWorld o now env ws)).2.db := by
  have hfind : getSentOfferByPaymentHash notification.rHash (soldWorld o now env ws).db =
      some (parseSentOffer (sentOfferRow now o (ws.db.sentOffers.lastId + 1))) := by
    have hnone : findBy SentOfferRow.paymentHash o.paymentHash ws.db.sentOffers.rows = none := findBy_none.2 hunsent
    unfold findBy at hnone
    unfold getSentOfferByPaymentHash findBy soldWorld
    rw [hhash, List.find?_append, hnone]
    simp [sentOfferRow]
  have ht : taken ReceivedPaymentRow.paymentHash (receivedPaymentRow (S.timestampNowMs env).1
      (PaymentProcessor.receivedPaymentOf (parseSentOffer (sentOfferRow now o (ws.db.sentOffers.lastId + 1)))
        notification.settleIndex) (ws.db.receivedPayments.lastId + 1)).paymentHash ws.db.receivedPayments.rows =
        false :=
    taken_eq_false.2 hunreceived
  unfold PaymentProcessor.processInvoice PaymentProcessor.handleReceivedPayment
  rw [if_pos hsettled, Prog.run_bind, run_query, hfind]
  simp only [Prog.run_bind, run_ask, run_sql, run_update]
  unfold soldWorld insertReceivedPayment
  simp only [Table.insert_of_free ht]
  exact ⟨_, List.mem_append_right _ List.mem_cons_self, rfl, rfl, rfl⟩

/-- The purchase of a key from a peer, from the request for an offer to the settled invoice. -/
theorem key_exchange (hS : L.ScalarLaws) (hP : L.PointLaw) (hJ : S.json.Laws) (hjson : B.json = S.json)
    (hx : x < L.order) (hy : y < L.order) (hhash : getHash L squeak ≠ [])
    (hpoint : L.paymentPointBytesFromScalarBytes (L.scalarToBytes x) = .ok (L.paymentPoint squeak)) {content : String}
    (hcontent : HasContent L squeak (L.scalarToBytes x) content) (hsell : CanSell S squeak x y invoice ws)
    (hbuy : CanBuy B squeak invoice wb)
    (hpay : PaysHonestly B K invoice (sellPriceMsat S ws.db) (L.scalarToBytes ((x + y) % L.order))) (hK : K wb.env)
    (seller : SqueakPeer) (page : Nat → Bytes) (clientHost : String)
    (hhttp : (B.requestsGet seller.address (.offer (hex (getHash L squeak))) wb.env).1 =
      ((App.serve S page clientHost (.offer (hex (getHash L squeak)))).run ws).1) :
    let ws' := ((App.serve S page clientHost (.offer (hex (getHash L squeak)))).run ws).2
    let offerId := wb.db.receivedOffers.lastId + 1
    ∃ offer wb₁ wb₂ wb₃ paymentId,
      (PeerClient.getOffer B seller (getHash L squeak)).run wb = (.ok (some offer), wb₁) ∧
      (handleOffer B squeak offer seller.address).run wb₁ = (.ok (), wb₂) ∧
      (payOffer B offerId).run wb₂ = (.ok paymentId, wb₃) ∧
      Bought squeak (L.scalarToBytes x) invoice.rHash (sellPriceMsat S ws.db) content offerId wb.db wb₃.db ∧
      (L.isPrivateMessage squeak = true → ∀ id row profile k, id ≠ 0 → findProfile id wb₃.db = some row →
        parseSqueakProfile L row = .ok profile → profile.privateKey = some k →
        L.getPublicKey k = L.getRecipientPubKey squeak →
        ∃ wb₄, (unlockSqueak L (getHash L squeak) none (some id)).run wb₃ = (.ok (), wb₄) ∧
          (findSqueak (getHash L squeak) wb₄.db).bind SqueakRow.content = some content) ∧
      OfferSent (getHash L squeak) invoice.rHash (sellPriceMsat S ws.db) ws'.db ∧
      ∀ notification : Invoice, notification.settled = true → notification.rHash = invoice.rHash →
        PaymentReceived (getHash L squeak) invoice.rHash (sellPriceMsat S ws.db)
          ((PaymentProcessor.processInvoice S notification).run ws').2.db := by
  intro ws' offerId
  -- the seller answers with an offer
  obtain ⟨a, now, env, htext, hstored, hserve⟩ := serve_offer hS hx hy hhash hsell page clientHost
  obtain ⟨host, haddress⟩ := hstored seller.address
  have hws' : ws' = soldWorld _ now env ws := congrArg Prod.snd hserve
  rw [hserve] at hhttp
  -- the buyer reads it and unpacks it
  have hget := run_getOffer_served hJ hjson seller (getHash L squeak) htext hhttp
  obtain ⟨r, hr, hs⟩ := hbuy.row
  let offer := offerOf (sentOfferOf L squeak (L.scalarToBytes y) (sellPriceMsat S ws.db) (App.clientAddr clientHost)
    invoice) a
  obtain ⟨payReq, now', env', hpayHash, hprice, hK', hhandle⟩ := run_handleOffer_served
    (afterRequest B seller (.offer (hex (getHash L squeak))) wb) squeak (rfl : offer.squeakHash = _) rfl hpay
    (hpay.afterRequest _ _ _ hK) haddress hbuy.unseen
  have hfree : ∀ r ∈ wb.db.receivedOffers.rows, r.paymentHash ≠ payReq.paymentHash := by
    rw [hpayHash]
    exact hbuy.unseen
  have ho : getReceivedOffer offerId
      (offeredWorld (receivedOfferOf L squeak offer seller.address payReq) host now' env' wb).db = some _ :=
    getReceivedOffer_offeredWorld hbuy.ids hfree
  -- the buyer pays
  obtain ⟨paymentId, wb₃, hpaid, hbought⟩ :=
    run_payOffer_bought hS hP hx hy hpoint hcontent hpay hK' ho rfl hpayHash hprice rfl rfl rfl hr hs hbuy.unpaid
  refine ⟨_, _, _, wb₃, paymentId, hget, hhandle, hpaid,
    ⟨hbought.key, hbought.publicContent, hbought.privateContent, hbought.payment, hbought.paid⟩, ?_, ?_, ?_⟩
  · -- the private squeak opens with the key that was bought
    intro hprivate id row profile k hid hrow hprofile hkey hrecipient
    obtain ⟨r', hr', hs', hk'⟩ := hbought.key
    exact run_unlock_bought hcontent hprivate hid hrow hprofile hkey hrecipient hr' hs' hk'
  · -- the seller has the offer
    rw [hws']
    exact ⟨_, List.mem_append_right _ List.mem_cons_self, rfl, rfl, rfl⟩
  · -- the seller records the payment when it is told of it
    intro notification hsettled hrhash
    rw [hws']
    exact run_processInvoice_sold hsettled hrhash hsell.unsent hsell.unreceived

end Exchange

namespace Sample

theorem pointLaw : squeaklib.PointLaw := by
  intro s k h
  show checkSqueakSecretKey s k = .ok ()
  unfold checkSqueakSecretKey
  rw [show paymentPointBytesFromScalarBytes k = .ok [2, s.byte 4] from h]
  exact if_pos rfl

/-- The invoice for the key 5 with the nonce 250, whose sum wraps around the order. -/
def soldInvoice : Invoice := ⟨0 :: scalarToBytes 4, "i", 1000, false, 0, 1000, 3600⟩

/-- A buyer's node whose peer is a seller that holds the key 5. -/
def buyerNode : Node squeaklib Outside :=
  { node 1 with requestsGet := fun _ request o =>
      (((App.serve (node 1) (fun _ => []) "buyer" request).run (owner (scalarToBytes 5) "x")).1, o) }

/-- A buyer that holds the squeak without its key. -/
def buyerWorld : World Outside :=
  ⟨{ Db.empty with squeaks := [SqueakDb.squeakRow squeaklib 1000000 squeak.val.reverse squeak ⟨4200⟩] },
    ⟨1000000, [(soldInvoice, scalarToBytes 4)]⟩⟩

theorem canSell : CanSell (node 1) squeak 5 250 soldInvoice (owner (scalarToBytes 5) "x") where
  row := ⟨unlockedRow (scalarToBytes 5) "x", rfl, rfl, rfl⟩
  price := by decide
  nonce := rfl
  created := rfl
  unsent r hr := by cases hr
  unreceived r hr := by cases hr
  address env := by
    have hparse : SqueakCore.parseLndUri "seller@lnd:9735" = .ok ⟨"lnd", 9735⟩ := rfl
    refine ⟨some ⟨"lnd", 9735⟩, congrArg (some <$> ·) hparse, fun address h => ?_⟩
    cases h
    rfl

theorem canBuy : CanBuy buyerNode squeak soldInvoice buyerWorld where
  row := ⟨_, rfl, rfl⟩
  unseen r hr := by cases hr
  unpaid r hr := by cases hr
  ids r hr := by cases hr

theorem paysHonestly :
    PaysHonestly buyerNode (fun o => o.find "i" = some (soldInvoice, scalarToBytes 4)) soldInvoice 1000
    (scalarToBytes 4) where
  decode o h := by
    show ∃ payReq, (lightningClient.decodePayReq "i" o).1 = _ ∧ _
    simp only [lightningClient, h]
    exact ⟨_, rfl, rfl, rfl⟩
  pay o h := by
    show ∃ payment, (lightningClient.payInvoice "i" o).1 = _ ∧ _
    simp only [lightningClient, h]
    exact ⟨_, rfl, rfl⟩
  afterRequest _ _ _ h := h
  afterDecode _ _ h := h
  afterClock _ h := h

theorem hasContent : HasContent squeaklib squeak (scalarToBytes 5) "x" where
  toAll _ := by decide +kernel
  toRecipient h := by exact absurd h (by decide)

end Sample

/-- The sum of the key and the nonce wraps around the order, and the buyer still gets the key. -/
theorem key_exchange_sample : ∃ wb₂ wb₃ paymentId,
    (payOffer Sample.buyerNode 1).run wb₂ = (.ok paymentId, wb₃) ∧
      Bought (L := Sample.squeaklib) Sample.squeak (Sample.scalarToBytes 5) Sample.soldInvoice.rHash 1000 "x" 1
        Sample.buyerWorld.db wb₃.db := by
  have hprice : sellPriceMsat (Sample.node 1) (Sample.owner (Sample.scalarToBytes 5) "x").db = 1000 := by decide
  have hexchange := key_exchange (S := Sample.node 1) (B := Sample.buyerNode) (x := 5) (y := 250)
    Sample.scalarLaws Sample.pointLaw jsonText_laws rfl (by decide) (by decide) (by decide) rfl Sample.hasContent
    Sample.canSell Sample.canBuy Sample.paysHonestly rfl ⟨none, "seller", ⟨.IPV4, "seller", 8555⟩, false, false⟩
    (fun _ => []) "buyer" rfl
  obtain ⟨_, _, wb₂, wb₃, paymentId, -, -, hpaid, hbought, -⟩ := hexchange
  exact ⟨wb₂, wb₃, paymentId, hpaid, hbought⟩

end Squeaknode
