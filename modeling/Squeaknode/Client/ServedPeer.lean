/-
A peer that is an honest node: what a client gets from it is what the routes of the server answer on
the server's own database, and nothing else touches that database meanwhile.
-/
import Squeaknode.Client.SyncIsolation
import Squeaknode.Server.AppRuns
import Squeaknode.Node.Integrity

namespace Squeaknode

open Interleave Relational SqueakDb

variable {L : Squeaklib} {σ ρ : Type}

/-! ## Two nodes -/

/-- The peer of `N` is the node `S`, whose world is a part of the world outside of `N`. -/
structure Serves (S : Node L σ) (N : Node L ρ) (peer : SqueakPeer) (page : Nat → Bytes) (clientHost : String)
    (server : ρ → World σ) : Prop where
  answer : ∀ request env, (N.requestsGet peer.address request env).1 =
    ((App.serve S page clientHost request).run (server env)).1
  change : ∀ request env, server (N.requestsGet peer.address request env).2 =
    ((App.serve S page clientHost request).run (server env)).2
  clock : ∀ env, server (N.timestampNowMs env).2 = server env
  chain : ∀ height env, server (N.bitcoinClient.getBlockInfoByHeight height env).2 = server env
  decode : ∀ paymentRequest env, server (N.lightningClient.decodePayReq paymentRequest env).2 = server env

/-- The books of a lightning node. -/
structure Invoicing (σ : Type) where
  /-- the hash of a preimage -/
  paymentHash : Bytes → Bytes
  /-- the node has made an invoice with this payment hash -/
  issued : σ → Bytes → Prop
  /-- an invoice of another node has this payment hash -/
  foreign : Bytes → Prop
  /-- an invoice was made for this amount -/
  invoiced : σ → Invoice → Int → Prop
  /-- so many of the nonces that are drawn next are good: with the keys of the server they make new payment hashes -/
  fresh : Nat → σ → Prop

/-- The seller's lightning node makes an invoice of the price for every preimage whose payment hash it has not used,
never two with one payment hash, and knows an address of its own. `D` is the database of the seller. -/
structure Sells (S : Node L σ) (I : Invoicing σ) (D : Db) : Prop where
  once : IssuesOnce S I.issued
  makes : ∀ o preimage, preimage.length = 32 → ¬ I.issued o (I.paymentHash preimage) →
    ∃ invoice, (S.lightningClient.createInvoice preimage (sellPriceMsat S D) o).1 = .ok invoice
  made : ∀ o preimage amountMsat i o', S.lightningClient.createInvoice preimage amountMsat o = (.ok i, o') →
    i.rHash = I.paymentHash preimage ∧ I.invoiced o' i amountMsat
  draws : ∀ n o, I.fresh (n + 1) o → ∀ r ∈ D.squeaks, ∀ k, r.secretKey = some k →
    ∃ preimage, SecretKeys.addTweak L k (S.generateTweak o).1 = .ok preimage ∧ preimage.length = 32 ∧
      ¬ I.issued (S.generateTweak o).2 (I.paymentHash preimage) ∧ ¬ I.foreign (I.paymentHash preimage) ∧
      ∀ i o', S.lightningClient.createInvoice preimage (sellPriceMsat S D) (S.generateTweak o).2 = (.ok i, o') →
        I.fresh n o'
  clock : ∀ o i amountMsat, I.invoiced o i amountMsat → I.invoiced (S.timestampNowMs o).2 i amountMsat
  info : ∀ o i amountMsat, I.invoiced o i amountMsat → I.invoiced (S.lightningClient.getInfo o).2 i amountMsat
  clockFresh : ∀ n o, I.fresh n o → I.fresh n (S.timestampNowMs o).2
  infoFresh : ∀ n o, I.fresh n o → I.fresh n (S.lightningClient.getInfo o).2
  address : KnowsAddress S

/-- The buyer's lightning node decodes the payment requests of the seller's invoices, none of which
expires at a time in `during`. -/
def Decodes (N : Node L ρ) (server : ρ → World σ) (I : Invoicing σ) (during : Int → Prop) : Prop :=
  ∀ env i amountMsat, I.invoiced (server env).env i amountMsat →
    ∃ payReq, (N.lightningClient.decodePayReq i.paymentRequest env).1 = .ok payReq ∧ payReq.paymentHash = i.rHash ∧
      payReq.numMsat = amountMsat ∧ ∀ t, during t → t < 1000 * (payReq.timestamp + payReq.expiry)

/-! ## The answers of the server -/

section Answers

variable {S : Node L σ} {N : Node L ρ} {peer : SqueakPeer} {page : Nat → Bytes} {clientHost : String}
  {server : ρ → World σ}

theorem gotSqueak_served (hC : L.CodecLaws) (hS : Serves S N peer page clientHost server) {squeakHash : Bytes}
    {r : SqueakRow} {squeak : L.CSqueak} {env : ρ} (hne : squeakHash ≠ [])
    (hr : findSqueak squeakHash (server env).db = some r) (hs : L.deserialize r.squeak = .ok squeak) :
    gotSqueak L (N.requestsGet peer.address (.squeak (hex squeakHash)) env).1 = .ok (some squeak) ∧
      server (N.requestsGet peer.address (.squeak (hex squeakHash)) env).2 = server env := by
  have hserve := App.run_serve_squeak S page (isSegment_hex hne) clientHost (server env)
  rw [fromHex_hex] at hserve
  constructor
  · rw [hS.answer, hserve]
    simp [App.servedSqueak, hr, hs, bind, Except.bind, App.respond, gotSqueak, hC.squeak]
  · rw [hS.change, hserve]

/-- The answer to a request for a secret key. -/
def keyAnswer (S : Node L σ) (squeakHash : Bytes) (db : Db) : Option Bytes :=
  if sellPriceMsat S db > 0 then none
  else (SqueakDb.getSqueakSecretKey squeakHash db).filter fun k => !k.isEmpty

theorem gotSecretKey_served (hS : Serves S N peer page clientHost server) {squeakHash : Bytes} (hne : squeakHash ≠ [])
    (env : ρ) : gotSecretKey (N.requestsGet peer.address (.secretKey (hex squeakHash)) env).1 =
        .ok (keyAnswer S squeakHash (server env).db) ∧
      server (N.requestsGet peer.address (.secretKey (hex squeakHash)) env).2 = server env := by
  have hserve := App.run_serve_secretKey S page (isSegment_hex hne) clientHost (server env)
  rw [fromHex_hex] at hserve
  constructor
  · rw [hS.answer, hserve]
    unfold keyAnswer
    simp only [bind, Except.bind, App.servedSecretKey]
    split
    · simp [App.respond, App.statusOf, gotSecretKey]
    · cases (SqueakDb.getSqueakSecretKey squeakHash (server env).db).filter fun k => !k.isEmpty <;>
        simp [App.respond, App.statusOf, gotSecretKey]
  · rw [hS.change, hserve]

/-- Without a price or without a key the server has no offer. -/
theorem gotOffer_unsold (hS : Serves S N peer page clientHost server) {squeakHash : Bytes} {r : SqueakRow}
    {squeak : L.CSqueak} {env : ρ} (hne : squeakHash ≠ []) (hr : findSqueak squeakHash (server env).db = some r)
    (hs : L.deserialize r.squeak = .ok squeak) (h : sellPriceMsat S (server env).db = 0 ∨ r.secretKey = none) :
    gotOffer N.json (N.requestsGet peer.address (.offer (hex squeakHash)) env).1 = .ok none ∧
      server (N.requestsGet peer.address (.offer (hex squeakHash)) env).2 = server env := by
  have hserve := App.run_serve_offer S page (isSegment_hex hne) clientHost (server env)
  have hnone : (App.offer S (hex squeakHash) clientHost).run (server env) = (.error .notFoundError, server env) := by
    by_cases hprice : sellPriceMsat S (server env).db = 0
    · exact App.run_offer_free S (fromHex_hex _) clientHost hprice
    · rw [App.run_offer_unsold S (fromHex_hex _) clientHost hprice, hr]
      · simp [squeakOfRow, hs, bind, Except.bind]
      · intro r' squeak' hr' _
        rw [hr] at hr'
        cases hr'
        exact h.resolve_left hprice
  rw [hnone] at hserve
  constructor
  · rw [hS.answer, hserve]
    simp [App.respond, App.statusOf, gotOffer]
  · rw [hS.change, hserve]

variable {I : Invoicing σ}

/-- A new offer of the server: its invoice, and the world of the server after it, where `n` good nonces are left. -/
structure NewOffer (I : Invoicing σ) (n : Nat) (squeakHash : Bytes) (priceMsat : Int) (o : Offer) (invoice : Invoice)
    (w w' : World σ) : Prop where
  squeakHash : o.squeakHash = squeakHash
  address : ∀ peerAddress, ∃ host, bindAddress (offeredAddress o peerAddress) = .ok (some host)
  request : o.paymentRequest = invoice.paymentRequest
  amount : I.invoiced w'.env invoice priceMsat
  new : ¬ I.issued w.env invoice.rHash
  notForeign : ¬ I.foreign invoice.rHash
  made : I.issued w'.env invoice.rHash
  kept : ∀ h, I.issued w.env h → I.issued w'.env h
  fresh : I.fresh n w'.env
  sent : OffersIssued I.issued w'
  squeaks : w'.db.squeaks = w.db.squeaks
  configs : w'.db.configs = w.db.configs

/-- The server makes an offer for a squeak with a valid key. -/
theorem gotOffer_sold (hJ : S.json.Laws) (hjson : N.json = S.json) (hS : Serves S N peer page clientHost server)
    {D : Db} (hsells : Sells S I D) {squeakHash k : Bytes} {r : SqueakRow} {squeak : L.CSqueak} {env : ρ} {n : Nat}
    (hne : squeakHash ≠ []) (hr : findSqueak squeakHash (server env).db = some r) (hmem : r ∈ D.squeaks)
    (hrow : RowOf L squeak r) (hk : r.secretKey = some k)
    (hposted : sellPriceMsat S (server env).db = sellPriceMsat S D) (hprice : sellPriceMsat S D ≠ 0)
    (hw : OffersIssued I.issued (server env)) (hfresh : I.fresh (n + 1) (server env).env) :
    ∃ o invoice, gotOffer N.json (N.requestsGet peer.address (.offer (hex squeakHash)) env).1 = .ok (some o) ∧
      NewOffer I n squeakHash (sellPriceMsat S D) o invoice (server env)
        (server (N.requestsGet peer.address (.offer (hex squeakHash)) env).2) := by
  have hhash : getHash L squeak = squeakHash := hrow.hash.symm.trans (findSqueak_some hr).2
  obtain ⟨preimage, htweak, hlength, hunused, hours, hleft⟩ := hsells.draws n (server env).env hfresh r hmem k hk
  obtain ⟨invoice, hmakes⟩ := hsells.makes _ preimage hlength hunused
  rw [← hposted] at hmakes hleft hprice ⊢
  rcases hcreate : S.lightningClient.createInvoice preimage (sellPriceMsat S (server env).db)
    (S.generateTweak (server env).env).2 with ⟨i, env₁⟩
  rw [hcreate] at hmakes
  obtain rfl : i = .ok invoice := hmakes
  have ho : (SqueakCore.createOffer S squeak k (App.clientAddr clientHost) (sellPriceMsat S (server env).db)).run
      (server env) = _ := run_createOffer_iff.2 ⟨preimage, invoice, env₁, htweak, hcreate, rfl, rfl⟩
  obtain ⟨hfree, hsent⟩ := hsells.once.createOffer hw ho
  obtain ⟨hnew, hnow, hkept⟩ := hsells.once.invoice _ _ _ _ _ hcreate
  obtain ⟨hpaymentHash, hinvoiced⟩ := hsells.made _ _ _ _ _ hcreate
  have hserve := App.run_serve_offer S page (isSegment_hex hne) clientHost (server env)
  rw [App.run_offer_created S (fromHex_hex _) hprice hr hrow.bytes hk ho hfree] at hserve
  have hissued := OffersIssued.packageAddress hsells.once hsent (SqueakController.lndExternalAddress S)
  obtain ⟨a, ha, hport⟩ := hsells.address (S.timestampNowMs env₁).2
  obtain ⟨htext, haddress⟩ := offerOf_sendable ha hport (sentOfferOf L squeak (S.generateTweak (server env).env).1
    (sellPriceMsat S (server env).db) (App.clientAddr clientHost) invoice)
  simp only [withSentOffer, ha] at hserve
  refine ⟨offerOf (sentOfferOf L squeak (S.generateTweak (server env).env).1 (sellPriceMsat S (server env).db)
    (App.clientAddr clientHost) invoice) a, invoice, ?_, ?_⟩
  · rw [hS.answer, hserve, hjson]
    show some <$> PeerClient.parseOffer S.json (S.json.jsonify (App.offerJson _)) = _
    rw [parseOffer_offerJson hJ htext]
    rfl
  · rw [hS.change, hserve]
    constructor
    · exact hhash
    · exact haddress
    · rfl
    · exact packageAddress_keeps (K := fun o => I.invoiced o invoice _) (fun o => hsells.info o _ _)
        (hsells.clock _ _ _ hinvoiced) _
    · exact fun hold => hnew (hsells.once.nonce _ _ hold)
    · rwa [hpaymentHash]
    · exact packageAddress_keeps (K := fun o => I.issued o invoice.rHash) (fun o => hsells.once.info o _)
        (hsells.once.clock _ _ hnow) _
    · intro h hold
      exact packageAddress_keeps (K := fun o => I.issued o h) (fun o => hsells.once.info o _)
        (hsells.once.clock _ _ (hkept h (hsells.once.nonce _ _ hold))) _
    · exact packageAddress_keeps (K := I.fresh n) (hsells.infoFresh n) (hsells.clockFresh n _ (hleft _ _ hcreate)) _
    · exact hissued
    · rfl
    · rfl

/-- The squeaks of the interval by one of the authors. -/
def matching (minBlock maxBlock : Int) (pubkeys : List L.PublicKey) (db : Db) : List SqueakRow :=
  db.squeaks.filter fun r =>
    r.authorPublicKey ∈ pubkeys.map L.publicKeyToBytes ∧ minBlock ≤ r.blockHeight ∧ r.blockHeight ≤ maxBlock

theorem argList_pubkeys (minBlock maxBlock : Int) (pubkeys : List L.PublicKey) :
    App.argList "pubkeys" (PeerClient.lookupArgs minBlock maxBlock pubkeys) =
      pubkeys.map fun p => hex (L.publicKeyToBytes p) := by
  unfold App.argList PeerClient.lookupArgs
  simp [List.filter_map, Function.comp_def]

theorem parsePubkeys_hex (hC : L.CodecLaws) (pubkeys : List L.PublicKey) :
    SqueakPeerServerHandler.parsePubkeys L (pubkeys.map fun p => hex (L.publicKeyToBytes p)) = .ok pubkeys := by
  unfold SqueakPeerServerHandler.parsePubkeys
  induction pubkeys with
  | nil => rfl
  | cons p pubkeys ih =>
    rw [List.map_cons, List.mapM_cons, ih]
    simp [fromHex_hex, hC.publicKey, bind, Except.bind, pure, Except.pure]

/-- The heights that a squeak can have. -/
def IsHeight (height : Int) : Prop := -(2 : Int) ^ 63 < height ∧ height < (2 : Int) ^ 63

/-- The database compares a height with the text of a number as with the number; what it reads of a number of more than
64 bits is rounded. -/
def Sqlite.ReadsNumbers (sqlite : Sqlite) : Prop :=
  ∀ n : Int, ∃ x, sqlite.numeric (toString n) = some x ∧ ∀ height, IsHeight height →
    (x ≤ (height : Rat) ↔ n ≤ height) ∧ ((height : Rat) ≤ x ↔ height ≤ n)

/-- The database reads the numbers in texts, and has a variable for each public key and for the two bounds. -/
structure Sqlite.Reads (sqlite : Sqlite) (numKeys : Nat) : Prop where
  numeric : sqlite.ReadsNumbers
  enough : numKeys + 2 ≤ sqlite.maxVariableNumber

theorem height_text {sqlite : Sqlite} (hsqlite : sqlite.ReadsNumbers) {height : Int} (hheight : IsHeight height)
    (n : Int) : heightGe sqlite height (.text (toString n)) = decide (n ≤ height) ∧
      heightLe sqlite height (.text (toString n)) = decide (height ≤ n) := by
  obtain ⟨x, hx, hcompare⟩ := hsqlite n
  obtain ⟨hge, hle⟩ := hcompare height hheight
  simp only [heightGe, heightLe, hx]
  exact ⟨decide_eq_decide.2 hge, decide_eq_decide.2 hle⟩

theorem truthy_text (n : Int) : Bound.truthy (.text (toString n)) = true := by
  have hne : toString n ≠ "" := by
    intro hempty
    have hparse := pythonInt_toString n
    have hnone : (pythonInt "").toOption = none := by decide
    rw [← hempty, hparse] at hnone
    cases hnone
  simpa [Bound.truthy] using hne

/-- A lookup with both bounds as texts has a variable for each public key and one for each bound. -/
theorem lookupVariables_text (publicKeys : List Bytes) (minBlock maxBlock : Int) :
    lookupVariables publicKeys (some (.text (toString minBlock))) (some (.text (toString maxBlock))) none =
      publicKeys.length + 2 := by
  simp only [lookupVariables, Option.filter, truthy_text, if_true, Option.toList_some, Option.toList_none,
    List.length_cons, List.length_nil]

/-- A lookup with the bounds as texts selects the squeaks of the interval. -/
theorem lookupSqueaks_text {sqlite : Sqlite} (minBlock maxBlock : Int) {pubkeys : List L.PublicKey}
    (hsqlite : sqlite.Reads pubkeys.length) (hne : pubkeys ≠ []) {db : Db}
    (hheights : ∀ r ∈ db.squeaks, IsHeight r.blockHeight) :
    ∃ rows : List SqueakRow, rows.Perm (matching minBlock maxBlock pubkeys db) ∧
      SqueakDb.lookupSqueaks sqlite (pubkeys.map L.publicKeyToBytes) (some (.text (toString minBlock)))
        (some (.text (toString maxBlock))) none true db = .ok (rows.map SqueakRow.hash) := by
  have hkeys : (pubkeys.map L.publicKeyToBytes).isEmpty = false := by simpa using hne
  have hvariables : ¬ sqlite.maxVariableNumber < lookupVariables (pubkeys.map L.publicKeyToBytes)
      (some (.text (toString minBlock))) (some (.text (toString maxBlock))) none := by
    have hfew := hsqlite.enough
    rw [lookupVariables_text, List.length_map]
    omega
  have hrows : lookupRows sqlite (pubkeys.map L.publicKeyToBytes) (some (.text (toString minBlock)))
      (some (.text (toString maxBlock))) none true db =
        (matching minBlock maxBlock pubkeys db).insertionSort newerOrSame := by
    unfold lookupRows matching
    congr 1
    refine List.filter_congr fun r hr => ?_
    have hmin := (height_text hsqlite.numeric (hheights r hr) minBlock).1
    have hmax := (height_text hsqlite.numeric (hheights r hr) maxBlock).2
    simp only [whenTruthy, truthy_text, hmin, hmax, hkeys]
    simp [Bool.and_assoc]
  refine ⟨_, List.perm_insertionSort newerOrSame _, ?_⟩
  unfold SqueakDb.lookupSqueaks
  rw [if_neg hvariables, hrows]
  simp [whenTruthy, Bound.isBindable]

/-- The database does not take a lookup for more authors than it has variables. -/
theorem lookupSqueaks_many {sqlite : Sqlite} (minBlock maxBlock : Int) {pubkeys : List L.PublicKey}
    (hmany : sqlite.maxVariableNumber < pubkeys.length + 2) (db : Db) :
    SqueakDb.lookupSqueaks sqlite (pubkeys.map L.publicKeyToBytes) (some (.text (toString minBlock)))
      (some (.text (toString maxBlock))) none true db = .error (.operationalError "too many SQL variables") := by
  unfold SqueakDb.lookupSqueaks
  rw [if_pos]
  rwa [lookupVariables_text, List.length_map]

/-- The server reads the parameters of a client's lookup as the client's authors and bounds. -/
theorem servedLookup_lookupArgs (S : Node L σ) (hC : L.CodecLaws) (minBlock maxBlock : Int)
    {pubkeys : List L.PublicKey} (hne : pubkeys ≠ []) (db : Db) :
    App.servedLookup S (PeerClient.lookupArgs minBlock maxBlock pubkeys) db =
      SqueakDb.lookupSqueaks S.sqlite (pubkeys.map L.publicKeyToBytes) (some (.text (toString minBlock)))
        (some (.text (toString maxBlock))) none true db := by
  have hargs : (App.argList "pubkeys" (PeerClient.lookupArgs minBlock maxBlock pubkeys)).isEmpty = false := by
    rw [argList_pubkeys]
    simpa using hne
  unfold App.servedLookup
  rw [hargs, argList_pubkeys, parsePubkeys_hex hC]
  rfl

theorem gotLookup_served (hC : L.CodecLaws) (hJ : S.json.Laws) (hjson : N.json = S.json)
    (hS : Serves S N peer page clientHost server) (minBlock maxBlock : Int) {pubkeys : List L.PublicKey}
    (hsqlite : S.sqlite.Reads pubkeys.length) (hne : pubkeys ≠ []) {env : ρ}
    (hheights : ∀ r ∈ (server env).db.squeaks, IsHeight r.blockHeight) :
    ∃ rows : List SqueakRow, rows.Perm (matching minBlock maxBlock pubkeys (server env).db) ∧
      gotLookup N.json (N.requestsGet peer.address (.lookup (PeerClient.lookupArgs minBlock maxBlock pubkeys)) env).1 =
        .ok (rows.map SqueakRow.hash) ∧
      server (N.requestsGet peer.address (.lookup (PeerClient.lookupArgs minBlock maxBlock pubkeys)) env).2 =
        server env := by
  obtain ⟨rows, hperm, hlookup⟩ := lookupSqueaks_text minBlock maxBlock hsqlite hne hheights
  have hserve := App.run_serve_lookup S page clientHost (PeerClient.lookupArgs minBlock maxBlock pubkeys) (server env)
  rw [servedLookup_lookupArgs S hC minBlock maxBlock hne, hlookup] at hserve
  refine ⟨rows, hperm, ?_, ?_⟩
  · rw [hS.answer, hserve, hjson]
    exact parseLookup_lookupJson hJ _
  · rw [hS.change, hserve]

/-- An answer with the server's page for an error lists no hashes, as that page is no JSON text. -/
theorem gotLookup_refused (hC : L.CodecLaws) (hS : Serves S N peer page clientHost server)
    (hpage : ∀ squeakHashes, PeerClient.parseLookup N.json (page 500) ≠ .ok squeakHashes) (minBlock maxBlock : Int)
    {pubkeys : List L.PublicKey} (hmany : S.sqlite.maxVariableNumber < pubkeys.length + 2) (hne : pubkeys ≠ [])
    (env : ρ) : ∃ e,
      gotLookup N.json (N.requestsGet peer.address (.lookup (PeerClient.lookupArgs minBlock maxBlock pubkeys)) env).1 =
        .error e := by
  have hserve := App.run_serve_lookup S page clientHost (PeerClient.lookupArgs minBlock maxBlock pubkeys) (server env)
  rw [servedLookup_lookupArgs S hC minBlock maxBlock hne, lookupSqueaks_many minBlock maxBlock hmany] at hserve
  rw [hS.answer, hserve]
  rcases hparse : PeerClient.parseLookup N.json (page 500) with e | squeakHashes
  · exact ⟨e, hparse⟩
  · exact absurd hparse (hpage squeakHashes)

end Answers

end Squeaknode
