/-
The page of the offers that a squeak can be bought with. A peer's offer comes in as JSON, is stored with
the numbers of its decoded invoice, and is sent to the page in a message whose fields are narrower than
the columns it was stored in.
-/
import Squeaknode.Admin.Messages
import Squeaknode.Client.KeyExchange
import Squeaknode.Client.OfferRuns
import Squeaknode.Relational.Keyset

namespace Squeaknode

open Interleave Relational SqueakDb SqueakAdminPb2

/-! ## The messages -/

namespace SqueakAdminPb2

structure OfferDisplayEntry where
  offerId : Int
  squeakHash : String
  priceMsat : Int
  nodePubkey : String
  nodeHost : String
  nodePort : Int
  invoiceTimestamp : Int
  invoiceExpiry : Int
  peerAddress : PeerAddress
  deriving DecidableEq, Repr

structure GetBuyOffersRequest where
  squeakHash : String
  deriving DecidableEq, Repr

structure GetBuyOffersReply where
  offers : List OfferDisplayEntry
  deriving DecidableEq, Repr

end SqueakAdminPb2

def receivedOfferToMessage (receivedOffer : ReceivedOffer) : Except Err OfferDisplayEntry := do
  let peerAddress ← peerAddressToMessage receivedOffer.peerAddress
  let offerId ← int32 (receivedOffer.receivedOfferId.getD 0)
  let priceMsat ← int64 receivedOffer.priceMsat
  let nodeHost ← receivedOffer.lightningAddress.host.asStr
  let nodePort ← int32 receivedOffer.lightningAddress.port
  let invoiceTimestamp ← int32 receivedOffer.invoiceTimestamp
  let invoiceExpiry ← int32 receivedOffer.invoiceExpiry
  return {
    offerId := offerId
    squeakHash := hex receivedOffer.squeakHash
    priceMsat := priceMsat
    nodePubkey := receivedOffer.destination
    nodeHost := nodeHost
    nodePort := nodePort
    invoiceTimestamp := invoiceTimestamp
    invoiceExpiry := invoiceExpiry
    peerAddress := peerAddress }

/-- One offer that cannot be converted makes the whole page fail. -/
def handleGetBuyOffers {L : Squeaklib} {ρ : Type} (N : Node L ρ) (request : GetBuyOffersRequest) :
    NodeM ρ GetBuyOffersReply := do
  let squeakHash ← Prog.ofExcept (fromHex request.squeakHash)
  let offers ← SqueakStore.getReceivedOffers N squeakHash
  let offerMsgs ← Prog.ofExcept (offers.mapM receivedOfferToMessage)
  return ⟨offerMsgs⟩

/-! ## One offer -/

/-- The message shows the offer. -/
structure SqueakAdminPb2.OfferDisplayEntry.Shows (msg : OfferDisplayEntry) (o : ReceivedOffer) : Prop where
  offerId : msg.offerId = (o.receivedOfferId.getD 0 : Nat)
  squeakHash : fromHex msg.squeakHash = .ok o.squeakHash
  priceMsat : msg.priceMsat = o.priceMsat
  nodePubkey : msg.nodePubkey = o.destination
  nodeAddress : (⟨msg.nodeHost, msg.nodePort⟩ : LightningAddressHostPort) = o.lightningAddress
  invoiceTimestamp : msg.invoiceTimestamp = o.invoiceTimestamp
  invoiceExpiry : msg.invoiceExpiry = o.invoiceExpiry
  peerAddress : messageToPeerAddress msg.peerAddress = .ok o.peerAddress

/-- The database takes the lightning address and the integers of the offer. -/
structure ReceivedOffer.Storable (o : ReceivedOffer) : Prop where
  priceMsat : fits 64 o.priceMsat = true
  address : ∃ host, bindAddress o.lightningAddress = .ok (some host)
  invoiceTimestamp : fits 64 o.invoiceTimestamp = true
  invoiceExpiry : fits 64 o.invoiceExpiry = true
  peerPort : fits 64 o.peerAddress.port = true

/-- The host of the offer is a text, as that of every offer in the table, and the integers that have 32 bits in the
message fit. -/
structure ReceivedOffer.Narrow (o : ReceivedOffer) : Prop where
  nodeHost : ∃ host, o.lightningAddress.host = .str host
  offerId : fits 32 (o.receivedOfferId.getD 0 : Nat) = true
  nodePort : fits 32 o.lightningAddress.port = true
  invoiceTimestamp : fits 32 o.invoiceTimestamp = true
  invoiceExpiry : fits 32 o.invoiceExpiry = true
  peerPort : fits 32 o.peerAddress.port = true

theorem SqueakAdminPb2.fits_of_ranged {bits : Nat} {n m : Int} (h : ranged bits n = .ok m) : fits bits n = true := by
  unfold ranged at h
  split at h
  · assumption
  · cases h

theorem receivedOfferToMessage_shows {o : ReceivedOffer} {msg : OfferDisplayEntry}
    (h : receivedOfferToMessage o = .ok msg) : msg.Shows o ∧ o.Narrow := by
  obtain ⟨peerAddress, haddress, h⟩ := ok_of_bind h
  obtain ⟨offerId, hid, h⟩ := ok_of_bind h
  obtain ⟨priceMsat, hprice, h⟩ := ok_of_bind h
  obtain ⟨nodeHost, hhost, h⟩ := ok_of_bind h
  obtain ⟨nodePort, hport, h⟩ := ok_of_bind h
  obtain ⟨invoiceTimestamp, htimestamp, h⟩ := ok_of_bind h
  obtain ⟨invoiceExpiry, hexpiry, h⟩ := ok_of_bind h
  cases h
  have hpeer : fits 32 o.peerAddress.port = true := by
    obtain ⟨port, hpeerPort, -⟩ := ok_of_bind haddress
    exact fits_of_ranged hpeerPort
  constructor
  · constructor
    case offerId => exact ranged_ok hid
    case squeakHash => exact fromHex_hex _
    case priceMsat => exact ranged_ok hprice
    case nodePubkey => rfl
    case nodeAddress => rw [ranged_ok hport, ← Json.asStr_ok hhost]
    case invoiceTimestamp => exact ranged_ok htimestamp
    case invoiceExpiry => exact ranged_ok hexpiry
    case peerAddress => exact messageToPeerAddress_sent haddress
  · exact ⟨⟨nodeHost, Json.asStr_ok hhost⟩, fits_of_ranged hid, fits_of_ranged hport, fits_of_ranged htimestamp,
      fits_of_ranged hexpiry, hpeer⟩

theorem receivedOfferToMessage_narrow {o : ReceivedOffer} (hprice : fits 64 o.priceMsat = true) (h : o.Narrow) :
    ∃ msg, receivedOfferToMessage o = .ok msg := by
  obtain ⟨peerAddress, haddress⟩ := peerAddressToMessage_fits h.peerPort
  have hid : int32 (o.receivedOfferId.getD 0 : Nat) = .ok _ := ranged_of_fits h.offerId
  have hprice : int64 o.priceMsat = .ok _ := ranged_of_fits hprice
  obtain ⟨host, hhost⟩ := h.nodeHost
  have hport : int32 o.lightningAddress.port = .ok _ := ranged_of_fits h.nodePort
  have htimestamp : int32 o.invoiceTimestamp = .ok _ := ranged_of_fits h.invoiceTimestamp
  have hexpiry : int32 o.invoiceExpiry = .ok _ := ranged_of_fits h.invoiceExpiry
  simp only [receivedOfferToMessage, haddress, hid, hprice, hhost, Json.asStr, hport, htimestamp, hexpiry]
  exact ⟨_, rfl⟩

/-- An offer that could be stored can be shown when its integers fit into the narrower fields. -/
theorem receivedOfferToMessage_iff {o : ReceivedOffer} (hprice : fits 64 o.priceMsat = true) :
    (∃ msg, receivedOfferToMessage o = .ok msg ∧ msg.Shows o) ↔ o.Narrow := by
  constructor
  · rintro ⟨msg, hmsg, -⟩
    exact (receivedOfferToMessage_shows hmsg).2
  · intro h
    obtain ⟨msg, hmsg⟩ := receivedOfferToMessage_narrow hprice h
    exact ⟨msg, hmsg, (receivedOfferToMessage_shows hmsg).1⟩

/-! ## The page -/

section Page

variable {L : Squeaklib} {ρ : Type} (N : Node L ρ)

theorem run_handleGetBuyOffers (squeakHash : Bytes) (w : World ρ) :
    (handleGetBuyOffers N ⟨hex squeakHash⟩).run w =
      (GetBuyOffersReply.mk <$> (SqueakDb.getReceivedOffers squeakHash (clock N w) w.db).mapM receivedOfferToMessage,
        { w with env := (N.timestampNowMs w.env).2 }) := by
  unfold handleGetBuyOffers SqueakStore.getReceivedOffers clock
  simp only [fromHex_hex, Prog.ofExcept_ok, Prog.ret_bind, Prog.run_bind, run_ask, run_query, Prog.run_ofExcept]
  cases (SqueakDb.getReceivedOffers squeakHash (N.timestampNowMs w.env).1 w.db).mapM receivedOfferToMessage <;> rfl

/-- The page is shown when each of its offers can be shown, and shows each of them. -/
theorem handleGetBuyOffers_iff (squeakHash : Bytes) (w : World ρ) :
    (∃ reply w', (handleGetBuyOffers N ⟨hex squeakHash⟩).run w = (.ok reply, w') ∧
      ∀ o ∈ SqueakDb.getReceivedOffers squeakHash (clock N w) w.db, ∃ msg ∈ reply.offers, msg.Shows o) ↔
    ∀ o ∈ SqueakDb.getReceivedOffers squeakHash (clock N w) w.db, ∃ msg, receivedOfferToMessage o = .ok msg := by
  rw [run_handleGetBuyOffers]
  constructor
  · rintro ⟨reply, w', h, -⟩ o ho
    rcases hmapM : (SqueakDb.getReceivedOffers squeakHash (clock N w) w.db).mapM receivedOfferToMessage with e | msgs
    · rw [hmapM] at h
      cases h
    · obtain ⟨msg, -, hmsg⟩ := exists_of_mapM_mem hmapM ho
      exact ⟨msg, hmsg⟩
  · intro h
    obtain ⟨msgs, hmsgs⟩ := mapM_total h
    refine ⟨⟨msgs⟩, _, by rw [hmsgs]; rfl, fun o ho => ?_⟩
    obtain ⟨msg, hmem, hmsg⟩ := exists_of_mapM_mem hmsgs ho
    exact ⟨msg, hmem, (receivedOfferToMessage_shows hmsg).1⟩

end Page

/-! ## An offer of a peer on the page -/

section Ingest

variable {L : Squeaklib} {ρ : Type} {N : Node L ρ} {peer : SqueakPeer} {squeak : L.CSqueak} {offer : Offer}
  {payReq : PayReq}

/-- The offer as it is stored under an id, with its host as a text. -/
def storedOffer (id : Nat) (host : String) (o : ReceivedOffer) : ReceivedOffer :=
  { o with receivedOfferId := some id, lightningAddress := ⟨host, o.lightningAddress.port⟩, paid := false }

theorem parseReceivedOffer_receivedOfferRow (now : Int) (o : ReceivedOffer) (host : String) (id : Nat) :
    parseReceivedOffer (receivedOfferRow now o host id) = storedOffer id host o := rfl

/-- The integers of an offer that have 32 bits on the page: the port that the peer sent, the times of the
invoice, the port of the peer itself and the number of the row. -/
structure NarrowOffer (peer : SqueakPeer) (offer : Offer) (payReq : PayReq) (id : Nat) : Prop where
  port : fits 32 offer.port = true
  timestamp : fits 32 payReq.timestamp = true
  expiry : fits 32 payReq.expiry = true
  peerPort : fits 32 peer.address.port = true
  id : fits 32 (id : Int) = true

theorem narrow_storedOffer_iff {id : Nat} {host : String} :
    (storedOffer id host (receivedOfferOf L squeak offer peer.address payReq)).Narrow ↔
      NarrowOffer peer offer payReq id := by
  constructor
  · intro h
    exact ⟨h.nodePort, h.invoiceTimestamp, h.invoiceExpiry, h.peerPort, h.offerId⟩
  · intro h
    exact ⟨⟨host, rfl⟩, h.id, h.port, h.timestamp, h.expiry, h.peerPort⟩

/-- A peer's offer that is accepted is stored with its own numbers. It can be shown when they fit, and a
page that lists it, with offers that can be shown besides, is shown when they fit. -/
theorem peers_offer_shown_iff {w w₁ : World ρ} {env : ρ}
    (hgot : (PeerClient.getOffer N peer (getHash L squeak)).run w = (.ok (some offer), w₁))
    (hhash : getHash L squeak = offer.squeakHash)
    (hdecode : N.lightningClient.decodePayReq offer.paymentRequest w₁.env = (.ok payReq, env))
    (hstorable : (receivedOfferOf L squeak offer peer.address payReq).Storable)
    (hfree : ∀ r ∈ w.db.receivedOffers.rows, r.paymentHash ≠ payReq.paymentHash) :
    ∃ w₂ host stored, (SqueakStore.handleOffer N squeak offer peer.address).run w₁ = (.ok (), w₂) ∧
      bindAddress (offeredAddress offer peer.address) = .ok (some host) ∧
      stored = storedOffer (w.db.receivedOffers.lastId + 1) host (receivedOfferOf L squeak offer peer.address payReq) ∧
      w₂.db.receivedOffers.rows.map parseReceivedOffer = w.db.receivedOffers.rows.map parseReceivedOffer ++ [stored] ∧
      ((∃ msg, receivedOfferToMessage stored = .ok msg ∧ msg.Shows stored) ↔
        NarrowOffer peer offer payReq (w.db.receivedOffers.lastId + 1)) ∧
      ∀ w₃ : World ρ, stored ∈ SqueakDb.getReceivedOffers (getHash L squeak) (clock N w₃) w₃.db →
        (∀ o ∈ SqueakDb.getReceivedOffers (getHash L squeak) (clock N w₃) w₃.db, o ≠ stored →
          ∃ msg, receivedOfferToMessage o = .ok msg) →
        ((∃ reply w₄, (handleGetBuyOffers N ⟨hex (getHash L squeak)⟩).run w₃ = (.ok reply, w₄) ∧
          ∀ o ∈ SqueakDb.getReceivedOffers (getHash L squeak) (clock N w₃) w₃.db, ∃ msg ∈ reply.offers, msg.Shows o) ↔
            NarrowOffer peer offer payReq (w.db.receivedOffers.lastId + 1)) := by
  -- asking the peer leaves the database alone
  have hdb : w₁.db = w.db := by
    rw [run_clientGetOffer] at hgot
    exact (congrArg (fun x => x.2.db) hgot).symm
  obtain ⟨host, haddress⟩ := hstorable.address
  have hshown : ∀ id, (∃ msg, receivedOfferToMessage
      (storedOffer id host (receivedOfferOf L squeak offer peer.address payReq)) = .ok msg ∧
        msg.Shows (storedOffer id host (receivedOfferOf L squeak offer peer.address payReq))) ↔
      NarrowOffer peer offer payReq id := by
    intro id
    have hprice : fits 64 (storedOffer id host (receivedOfferOf L squeak offer peer.address payReq)).priceMsat = true :=
      hstorable.priceMsat
    rw [receivedOfferToMessage_iff hprice, narrow_storedOffer_iff]
  refine ⟨_, host, _, run_handleOffer_ok hhash hdecode haddress, haddress, rfl, ?_, hshown _, ?_⟩
  · rw [afterReceivedOffer_free haddress (by rw [hdb]; exact hfree), hdb]
    simp only [List.map_append, List.map_cons, List.map_nil, parseReceivedOffer_receivedOfferRow]
  · intro w₃ hlisted hothers
    rw [handleGetBuyOffers_iff]
    constructor
    · intro h
      obtain ⟨msg, hmsg⟩ := h _ hlisted
      exact (hshown _).1 ⟨msg, hmsg, (receivedOfferToMessage_shows hmsg).1⟩
    · intro h o ho
      by_cases hstored : o = storedOffer (w.db.receivedOffers.lastId + 1) host
          (receivedOfferOf L squeak offer peer.address payReq)
      · obtain ⟨msg, hmsg, -⟩ := (hshown _).2 h
        exact ⟨msg, by rw [hstored, hmsg]⟩
      · exact hothers o ho hstored

end Ingest

namespace Sample

/-- A peer that sells the key of the squeak at a given port. -/
def portNode (port : Int) : Node squeaklib Outside :=
  { node 1 with requestsGet := fun _ _ o =>
      (.ok ⟨200, jsonText.jsonify (App.offerJson ⟨squeak.val.reverse, scalarToBytes 250, "i", "lnd", port⟩)⟩, o) }

theorem portNode_answers (port : Int) :
    (PeerClient.getOffer (portNode port) sellerPeer (getHash squeaklib squeak)).run buyerWorld =
      (.ok (some ⟨squeak.val.reverse, scalarToBytes 250, "i", "lnd", port⟩), buyerWorld) := by
  rw [run_clientGetOffer]
  show (some <$> PeerClient.parseOffer jsonText _, buyerWorld) = _
  rw [parseOffer_offerJson jsonText_laws ⟨"lnd", rfl⟩]
  rfl

/-- The offer of that peer, as it is stored. -/
def portOffer (port : Int) : ReceivedOffer :=
  storedOffer 1 "lnd" (receivedOfferOf squeaklib squeak ⟨squeak.val.reverse, scalarToBytes 250, "i", "lnd", port⟩
    sellerPeer.address ⟨soldInvoice.rHash, [], 1000, "seller", 1000, 3600⟩)

end Sample

open Sample in
theorem peers_offer_shown_lnd : ∃ w₂ stored,
    (SqueakStore.handleOffer (portNode 9735) squeak ⟨squeak.val.reverse, scalarToBytes 250, "i", "lnd", 9735⟩
      sellerPeer.address).run buyerWorld = (.ok (), w₂) ∧ stored = portOffer 9735 ∧
      ∃ msg, receivedOfferToMessage stored = .ok msg ∧ msg.Shows stored := by
  have hdecode : (portNode 9735).lightningClient.decodePayReq "i" buyerWorld.env =
      (.ok ⟨soldInvoice.rHash, [], 1000, "seller", 1000, 3600⟩, buyerWorld.env) := rfl
  obtain ⟨w₂, host, stored, hrun, haddress, hstored, -, hmsg, -⟩ :=
    peers_offer_shown_iff (portNode_answers 9735) rfl hdecode ⟨rfl, ⟨"lnd", rfl⟩, rfl, rfl, rfl⟩ (fun r hr => by cases hr)
  cases haddress
  exact ⟨w₂, stored, hrun, hstored, hmsg.2 ⟨by decide, by decide, by decide, by decide, by decide⟩⟩

open Sample in
/-- The port 2147483648 is accepted and stored, and no page of offers for the squeak is shown any more. -/
theorem port_breaks_page : ∃ w₂,
    (PeerClient.getOffer (portNode 2147483648) sellerPeer (getHash squeaklib squeak)).run buyerWorld =
      (.ok (some ⟨squeak.val.reverse, scalarToBytes 250, "i", "lnd", 2147483648⟩), buyerWorld) ∧
    (SqueakStore.handleOffer (portNode 2147483648) squeak
      ⟨squeak.val.reverse, scalarToBytes 250, "i", "lnd", 2147483648⟩ sellerPeer.address).run buyerWorld =
        (.ok (), w₂) ∧
    SqueakDb.getReceivedOffers squeak.val.reverse (clock (portNode 2147483648) w₂) w₂.db = [portOffer 2147483648] ∧
    (handleGetBuyOffers (portNode 2147483648) ⟨hex squeak.val.reverse⟩).run w₂ =
      (.error (.valueError "Value out of range: 2147483648"), w₂) := by
  have hdecode : (portNode 2147483648).lightningClient.decodePayReq "i" buyerWorld.env =
      (.ok ⟨soldInvoice.rHash, [], 1000, "seller", 1000, 3600⟩, buyerWorld.env) := rfl
  refine ⟨_, portNode_answers 2147483648, run_handleOffer_ok rfl hdecode rfl, rfl, ?_⟩
  rw [run_handleGetBuyOffers]
  rfl

end Squeaknode
