/-
What the server answers to one request when nothing else runs, route by route, and what answering
changes: only an offer writes anything, a row of the sent offers.
-/
import Squeaknode.Node.StoreRuns
import Squeaknode.Server.App

namespace Squeaknode

open Interleave Relational SqueakDb SqueakStore

variable {L : Squeaklib} {ρ : Type}

/-! ## The sell price -/

/-- The sell price in effect: the one in the database, or else the configured one. -/
def sellPriceMsat (N : Node L ρ) (db : Db) : Int :=
  (getConfigSellPriceMsat NodeSettings.username db).getD N.priceMsat

theorem run_getSellPriceMsat (N : Node L ρ) (w : World ρ) :
    (SqueakController.getSellPriceMsat N).run w = (.ok (sellPriceMsat N w.db), w) := by
  unfold SqueakController.getSellPriceMsat NodeSettings.getSellPriceMsat sellPriceMsat
  rw [Prog.run_bind, run_query]
  cases getConfigSellPriceMsat NodeSettings.username w.db <;> rfl

namespace App

variable (N : Node L ρ) (page : Nat → Bytes)

/-- A route answers whatever its handler does. -/
theorem run_answer (handled : List Err) (p : NodeM ρ Bytes) (w : World ρ) :
    (answer page handled p).run w = (.ok (respond page handled (p.run w).1), (p.run w).2) := by
  unfold answer
  rw [Prog.run_catchWith, Prog.run_map]
  rcases p.run w with ⟨e | content, w'⟩ <;> rfl

/-! ## Routes that only read -/

/-- The bytes served for a row that was looked up. -/
def servedSqueak (L : Squeaklib) : Option SqueakRow → Except Err Bytes
  | none => .error .notFoundError
  | some row => L.serialize <$> L.deserialize row.squeak

theorem run_squeak (hash : String) (w : World ρ) :
    (squeak (L := L) hash).run w = (fromHex hash >>= fun h => servedSqueak L (findSqueak h w.db), w) := by
  unfold squeak SqueakPeerServerHandler.handleGetSqueakBytes
  rw [Prog.run_bind, Prog.run_ofExcept]
  rcases fromHex hash with e | h
  · rfl
  · simp only [Prog.run_bind, run_getSqueak]
    rcases hr : findSqueak h w.db with _ | row
    · simp [squeakOfRow, servedSqueak, hr, bind, Except.bind]
    · cases hs : L.deserialize row.squeak <;> simp [squeakOfRow, servedSqueak, hr, hs, bind, Except.bind]

/-- The secret key served for a squeak. -/
def servedSecretKey (N : Node L ρ) (squeakHash : Bytes) (db : Db) : Except Err Bytes :=
  if sellPriceMsat N db > 0 then .error .paymentRequiredError
  else match (SqueakDb.getSqueakSecretKey squeakHash db).filter fun k => !k.isEmpty with
    | none => .error .notFoundError
    | some secretKey => .ok secretKey

theorem run_secretKey (hash : String) (w : World ρ) :
    (secretKey N hash).run w = (fromHex hash >>= fun h => servedSecretKey N h w.db, w) := by
  unfold secretKey SqueakPeerServerHandler.handleGetSecretKey
  rw [Prog.run_bind, Prog.run_ofExcept]
  rcases fromHex hash with e | h
  · rfl
  · simp only [Prog.run_bind, run_getSellPriceMsat]
    show Prog.run (if _ then _ else _) w = (servedSecretKey N h w.db, w)
    unfold servedSecretKey
    split
    · rfl
    · simp only [SqueakStore.getSqueakSecretKey, Prog.run_bind, run_query]
      cases (SqueakDb.getSqueakSecretKey h w.db).filter fun k => !k.isEmpty <;> rfl

/-- The hashes served for the parameters of a lookup. -/
def servedLookup (N : Node L ρ) (args : List (String × String)) (db : Db) : Except Err (List Bytes) :=
  if (argList "pubkeys" args).isEmpty then .ok []
  else do
    let pubkeys ← SqueakPeerServerHandler.parsePubkeys L (argList "pubkeys" args)
    SqueakDb.lookupSqueaks N.sqlite (pubkeys.map L.publicKeyToBytes) ((arg "minblock" args).map Bound.text)
      ((arg "maxblock" args).map Bound.text) none true db

theorem run_lookup (args : List (String × String)) (w : World ρ) :
    (lookup N args).run w = ((fun hs => N.json.jsonify (lookupJson hs)) <$> servedLookup N args w.db, w) := by
  unfold lookup servedLookup SqueakPeerServerHandler.handleLookupSqueaks SqueakStore.lookupSqueaks
  cases hargs : (argList "pubkeys" args).isEmpty with
  | true => rfl
  | false =>
    simp only [Bool.false_eq_true, if_false, Prog.run_bind, Prog.run_ofExcept]
    rcases SqueakPeerServerHandler.parsePubkeys L (argList "pubkeys" args) with e | pubkeys
    · rfl
    · simp only [run_query, bind, Except.bind]
      cases SqueakDb.lookupSqueaks N.sqlite _ _ _ none true w.db <;> rfl

/-! ## Offers -/

/-- The address that a seller records for its buyer. -/
def clientAddr (clientHost : String) : PeerAddress := ⟨.IPV4, clientHost, 0⟩

theorem run_offer_invalid {hash : String} {e : Err} (he : fromHex hash = .error e) (clientHost : String) (w : World ρ) :
    (offer N hash clientHost).run w = (.error e, w) := by
  unfold offer SqueakPeerServerHandler.handleGetOffer
  rw [he]
  rfl

theorem run_offer (N : Node L ρ) {hash : String} {squeakHash : Bytes} (hh : fromHex hash = .ok squeakHash)
    (clientHost : String) (w : World ρ) : (offer N hash clientHost).run w =
      match (SqueakController.getPackagedOffer N squeakHash (clientAddr clientHost)).run w with
      | (.error e, w') => (.error e, w')
      | (.ok none, w') => (.error .notFoundError, w')
      | (.ok (some o), w') => (.ok (N.json.jsonify (offerJson o)), w') := by
  unfold offer SqueakPeerServerHandler.handleGetOffer
  rw [hh]
  simp only [Prog.ofExcept_ok, Prog.ret_bind, Prog.run_bind, clientAddr]
  rcases (SqueakController.getPackagedOffer N squeakHash ⟨.IPV4, clientHost, 0⟩).run w with ⟨e | _ | o, w'⟩ <;> rfl

theorem run_getPackagedOffer (N : Node L ρ) {w : World ρ} (hprice : sellPriceMsat N w.db ≠ 0) (squeakHash : Bytes)
    (peerAddress : PeerAddress) : (SqueakController.getPackagedOffer N squeakHash peerAddress).run w =
      match (getSentOfferForPeer N squeakHash peerAddress (sellPriceMsat N w.db)).run w with
      | (.error e, w') => (.error e, w')
      | (.ok none, w') => (.ok none, w')
      | (.ok (some o), w') => (some <$> offerOf o <$>
          (packageAddress N (SqueakController.lndExternalAddress N) w'.env).1,
          { w' with env := (packageAddress N (SqueakController.lndExternalAddress N) w'.env).2 }) := by
  unfold SqueakController.getPackagedOffer SqueakStore.getPackagedOffer
  simp only [Prog.run_bind, run_getSellPriceMsat, if_neg hprice]
  rcases (getSentOfferForPeer N squeakHash peerAddress (sellPriceMsat N w.db)).run w with ⟨e | _ | o, w'⟩
  · rfl
  · rfl
  · simp only [Prog.run_bind, run_packageOffer]
    cases (packageAddress N (SqueakController.lndExternalAddress N) w'.env).1 <;> rfl

/-- Nothing is offered at the price 0. -/
theorem run_offer_free {hash : String} {squeakHash : Bytes} (hh : fromHex hash = .ok squeakHash) (clientHost : String)
    {w : World ρ} (hprice : sellPriceMsat N w.db = 0) :
    (offer N hash clientHost).run w = (.error .notFoundError, w) := by
  rw [run_offer N hh]
  unfold SqueakController.getPackagedOffer
  simp only [Prog.run_bind, run_getSellPriceMsat, if_pos hprice]
  rfl

/-- Without a squeak that can be read, or without its key, no offer is made. -/
theorem run_offer_unsold {hash : String} {squeakHash : Bytes} (hh : fromHex hash = .ok squeakHash)
    (clientHost : String) {w : World ρ} (hprice : sellPriceMsat N w.db ≠ 0)
    (h : ∀ r squeak, findSqueak squeakHash w.db = some r → L.deserialize r.squeak = .ok squeak → r.secretKey = none) :
    (offer N hash clientHost).run w =
      (squeakOfRow L (findSqueak squeakHash w.db) >>= fun _ => .error .notFoundError, w) := by
  rw [run_offer N hh, run_getPackagedOffer N hprice, run_getSentOfferForPeer_none h]
  cases squeakOfRow L (findSqueak squeakHash w.db) <;> rfl

/-- A created offer is recorded, packaged and served. -/
theorem run_offer_created {hash : String} {squeakHash secretKey : Bytes} (hh : fromHex hash = .ok squeakHash)
    {clientHost : String} {w w' : World ρ} (hprice : sellPriceMsat N w.db ≠ 0) {r : SqueakRow} {squeak : L.CSqueak}
    {o : SentOffer} (hr : findSqueak squeakHash w.db = some r) (hs : L.deserialize r.squeak = .ok squeak)
    (hk : r.secretKey = some secretKey)
    (ho : (SqueakCore.createOffer N squeak secretKey (clientAddr clientHost) (sellPriceMsat N w.db)).run w =
      (.ok o, w'))
    (hfree : ∀ r ∈ w'.db.sentOffers.rows, r.paymentHash ≠ o.paymentHash) :
    let address := packageAddress N (SqueakController.lndExternalAddress N) (withSentOffer N o w').env
    (offer N hash clientHost).run w = ((fun a => N.json.jsonify (offerJson (offerOf o a))) <$> address.1,
      { withSentOffer N o w' with env := address.2 }) := by
  intro address
  rw [run_offer N hh, run_getPackagedOffer N hprice, run_getSentOfferForPeer_created hr hs hk ho hfree]
  rcases ha : address with ⟨e | a, env⟩
  · simp only [address] at ha
    simp [ha]
  · simp only [address] at ha
    simp [ha]

/-! ## Requests -/

theorem run_serve_squeak {hash : String} (h : isSegment hash = true) (clientHost : String) (w : World ρ) :
    (serve N page clientHost (.squeak hash)).run w =
      (.ok (respond page [.notFoundError] (fromHex hash >>= fun h => servedSqueak L (findSqueak h w.db))), w) := by
  simp only [serve, h, if_true, run_answer, run_squeak]

theorem run_serve_secretKey {hash : String} (h : isSegment hash = true) (clientHost : String) (w : World ρ) :
    (serve N page clientHost (.secretKey hash)).run w = (.ok (respond page [.notFoundError, .paymentRequiredError]
      (fromHex hash >>= fun h => servedSecretKey N h w.db)), w) := by
  simp only [serve, h, if_true, run_answer, run_secretKey]

theorem run_serve_offer {hash : String} (h : isSegment hash = true) (clientHost : String) (w : World ρ) :
    (serve N page clientHost (.offer hash)).run w =
      (.ok (respond page [.notFoundError] ((offer N hash clientHost).run w).1),
      ((offer N hash clientHost).run w).2) := by
  simp only [serve, h, if_true, run_answer]

theorem run_serve_lookup (clientHost : String) (args : List (String × String)) (w : World ρ) :
    (serve N page clientHost (.lookup args)).run w =
      (.ok (respond page [] ((fun hs => N.json.jsonify (lookupJson hs)) <$> servedLookup N args w.db)), w) := by
  simp only [serve, run_answer, run_lookup]

/-- The text of a request that names a squeak. -/
def hashText : Request → Option String
  | .squeak hash | .secretKey hash | .offer hash => some hash
  | .lookup _ => none

theorem run_serve_notFound {request : Request} {hash : String} (hr : hashText request = some hash)
    (h : isSegment hash = false) (clientHost : String) (w : World ρ) :
    (serve N page clientHost request).run w = (.ok ⟨404, page 404⟩, w) := by
  cases request <;> cases hr <;> simp [serve, h]

theorem run_serveAll_cons {clientHost : String} {request : Request} {response : Response} {w w' : World ρ}
    (h : (serve N page clientHost request).run w = (.ok response, w')) (requests : List (String × Request)) :
    ((serveAll N page ((clientHost, request) :: requests)).run w).1 =
      (response :: ·) <$> ((serveAll N page requests).run w').1 := by
  conv_lhs => unfold serveAll
  rw [Prog.run_bind_of_ok h, Prog.run_bind]
  rcases (serveAll N page requests).run w' with ⟨e | responses, w''⟩ <;> rfl

end App

end Squeaknode
