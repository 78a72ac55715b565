/-
Locked content is not given away: what peers are answered does not depend on the secret keys and
the decrypted contents that the node holds, except through the invoices of its offers. This is a
statement about two runs over stores that differ in these columns only; answering one request keeps
the two stores related, and gives related answers.
-/
import Squeaknode.Server.AppRuns
import Squeaknode.Node.Sample

namespace Squeaknode

open Interleave Relational SqueakDb SqueakStore App

variable {L : Squeaklib} {ρ : Type}

/-! ## Rows and stores -/

/-- A row without its secret key and its decrypted content. -/
def withoutSecrets (r : SqueakRow) : SqueakRow := { r with secretKey := none, content := none }

/-- The same row, or one unlocked on both sides with the same other columns. -/
def SameButSecrets (r r' : SqueakRow) : Prop :=
  r' = r ∨ (r.secretKey.isSome ∧ r'.secretKey.isSome ∧ withoutSecrets r' = withoutSecrets r)

theorem SameButSecrets.withoutSecrets {r r' : SqueakRow} (h : SameButSecrets r r') :
    withoutSecrets r' = withoutSecrets r := by
  rcases h with rfl | ⟨-, -, h⟩
  · rfl
  · exact h

theorem SameButSecrets.hash {r r' : SqueakRow} (h : SameButSecrets r r') : r'.hash = r.hash := by
  have hhash := congrArg SqueakRow.hash h.withoutSecrets
  exact hhash

theorem SameButSecrets.squeak {r r' : SqueakRow} (h : SameButSecrets r r') : r'.squeak = r.squeak := by
  have hsqueak := congrArg SqueakRow.squeak h.withoutSecrets
  exact hsqueak

theorem SameButSecrets.locked {r r' : SqueakRow} (h : SameButSecrets r r') :
    r'.secretKey = none ↔ r.secretKey = none := by
  rcases h with rfl | ⟨hr, hr', -⟩
  · rfl
  · obtain ⟨k, hk⟩ := Option.isSome_iff_exists.1 hr
    obtain ⟨k', hk'⟩ := Option.isSome_iff_exists.1 hr'
    simp [hk, hk']

/-- The stores differ in the secret keys and contents of squeaks unlocked in both, and nothing else. -/
def DifferInSecrets (db db' : Db) : Prop :=
  List.Forall₂ SameButSecrets db.squeaks db'.squeaks ∧ db' = { db with squeaks := db'.squeaks }

theorem map_withoutSecrets {rows rows' : List SqueakRow} (h : List.Forall₂ SameButSecrets rows rows') :
    rows'.map withoutSecrets = rows.map withoutSecrets := by
  induction h with
  | nil => rfl
  | cons hr _ ih => rw [List.map_cons, List.map_cons, hr.withoutSecrets, ih]

/-- A lookup for peers lists locked and unlocked squeaks alike. -/
theorem lookupSqueaks_withoutSecrets (sqlite : Sqlite) (publicKeys : List Bytes)
    (minBlock maxBlock : Option Bound) (replyToHash : Option Bytes) (db : Db) :
    SqueakDb.lookupSqueaks sqlite publicKeys minBlock maxBlock replyToHash true db =
      SqueakDb.lookupSqueaks sqlite publicKeys minBlock maxBlock replyToHash true
        { db with squeaks := db.squeaks.map withoutSecrets } := by
  have hrows : (lookupRows sqlite publicKeys minBlock maxBlock replyToHash true db).map SqueakRow.hash =
      (lookupRows sqlite publicKeys minBlock maxBlock replyToHash true
        { db with squeaks := db.squeaks.map withoutSecrets }).map SqueakRow.hash := by
    unfold lookupRows
    have hhash : (SqueakRow.hash : SqueakRow → Bytes) = SqueakRow.hash ∘ withoutSecrets := rfl
    conv_lhs => rw [hhash, ← List.map_map]
    rw [List.map_insertionSort newerOrSame newerOrSame withoutSecrets _ (fun _ _ _ _ => Iff.rfl), List.filter_map]
    rfl
  unfold SqueakDb.lookupSqueaks
  rw [hrows]

theorem servedLookup_secret {N : Node L ρ} {db db' : Db} (h : List.Forall₂ SameButSecrets db.squeaks db'.squeaks)
    (args : List (String × String)) : servedLookup N args db' = servedLookup N args db := by
  have hlookup : ∀ publicKeys minBlock maxBlock replyToHash,
      SqueakDb.lookupSqueaks N.sqlite publicKeys minBlock maxBlock replyToHash true db' =
        SqueakDb.lookupSqueaks N.sqlite publicKeys minBlock maxBlock replyToHash true db := by
    intro publicKeys minBlock maxBlock replyToHash
    rw [lookupSqueaks_withoutSecrets, lookupSqueaks_withoutSecrets N.sqlite _ _ _ _ db, map_withoutSecrets h]
    rfl
  unfold servedLookup
  simp only [hlookup]

/-! ## The world outside -/

/-- Environments related by `R` show the same clock, nonces and lightning node, whatever the
preimages of the invoices made in them. -/
structure Alike (N : Node L ρ) (R : ρ → ρ → Prop) : Prop where
  clock : ∀ o o', R o o' → (N.timestampNowMs o).1 = (N.timestampNowMs o').1 ∧
    R (N.timestampNowMs o).2 (N.timestampNowMs o').2
  nonce : ∀ o o', R o o' → (N.generateTweak o).1 = (N.generateTweak o').1 ∧
    R (N.generateTweak o).2 (N.generateTweak o').2
  invoice : ∀ o o', R o o' → ∀ preimage preimage' amountMsat,
    R (N.lightningClient.createInvoice preimage amountMsat o).2
      (N.lightningClient.createInvoice preimage' amountMsat o').2
  info : ∀ o o', R o o' → (N.lightningClient.getInfo o).1 = (N.lightningClient.getInfo o').1 ∧
    R (N.lightningClient.getInfo o).2 (N.lightningClient.getInfo o').2

theorem packageAddress_alike {N : Node L ρ} {R : ρ → ρ → Prop} (hA : Alike N R) {env env' : ρ} (he : R env env')
    (address : Option LightningAddressHostPort) : (packageAddress N address env').1 = (packageAddress N address env).1 ∧
      R (packageAddress N address env).2 (packageAddress N address env').2 := by
  obtain ⟨hinfo, hnext⟩ := hA.info _ _ he
  unfold packageAddress
  rcases address with _ | address
  · rcases hi : N.lightningClient.getInfo env with ⟨x, env₁⟩
    rcases hi' : N.lightningClient.getInfo env' with ⟨x', env₁'⟩
    rw [hi, hi'] at hinfo hnext
    obtain rfl : x = x' := hinfo
    rcases x with e | info
    · exact ⟨rfl, hnext⟩
    · rcases huris : info.uris with _ | ⟨uri, uris⟩
      · simpa only [huris, true_and] using hnext
      · simpa only [huris, true_and] using hnext
  · exact ⟨rfl, he⟩

/-! ## One request -/

/-- The two worlds of the two runs. -/
structure Related (R : ρ → ρ → Prop) (issued : ρ → Bytes → Prop) (w w' : World ρ) : Prop where
  squeaks : List.Forall₂ SameButSecrets w.db.squeaks w'.db.squeaks
  configs : w'.db.configs = w.db.configs
  env : R w.env w'.env
  offers : OffersIssued issued w
  offers' : OffersIssued issued w'

theorem Related.findSqueak {R : ρ → ρ → Prop} {issued : ρ → Bytes → Prop} {w w' : World ρ} (h : Related R issued w w')
    (squeakHash : Bytes) :
    Option.Rel SameButSecrets (SqueakDb.findSqueak squeakHash w.db) (SqueakDb.findSqueak squeakHash w'.db) :=
  findBy_forall₂ (fun _ _ hr => hr.hash) h.squeaks squeakHash

theorem Related.sellPriceMsat {R : ρ → ρ → Prop} {issued : ρ → Bytes → Prop} {w w' : World ρ}
    (h : Related R issued w w') (N : Node L ρ) : sellPriceMsat N w'.db = sellPriceMsat N w.db := by
  unfold Squeaknode.sellPriceMsat getConfigSellPriceMsat
  rw [h.configs]

/-- Creating an offer succeeds if the request asks for an offer of an unlocked squeak. -/
def OfferCreated (N : Node L ρ) (clientHost : String) : Request → World ρ → Prop
  | .offer hash, w => isSegment hash → ∀ squeakHash r squeak secretKey, fromHex hash = .ok squeakHash →
      SqueakDb.findSqueak squeakHash w.db = some r → L.deserialize r.squeak = .ok squeak →
      r.secretKey = some secretKey →
      ∃ o w', (SqueakCore.createOffer N squeak secretKey (clientAddr clientHost) (sellPriceMsat N w.db)).run w =
        (.ok o, w')
  | _, _ => True

/-- The same response, or two offers that differ in the payment request. -/
def SameButInvoice (J : JsonCodec) (response response' : Response) : Prop :=
  response' = response ∨ ∃ (o : Offer) (paymentRequest : String), response = ⟨200, J.jsonify (offerJson o)⟩ ∧
    response' = ⟨200, J.jsonify (offerJson { o with paymentRequest := paymentRequest })⟩

section Secrecy

variable {N : Node L ρ} {R : ρ → ρ → Prop} {issued : ρ → Bytes → Prop}

theorem servedSqueak_secret {row row' : Option SqueakRow} (h : Option.Rel SameButSecrets row row') :
    servedSqueak L row' = servedSqueak L row := by
  cases h with
  | none => rfl
  | some h => simp only [servedSqueak, h.squeak]

/-- With a price no secret key is served. -/
theorem servedSecretKey_priced {db : Db} (h : 0 < sellPriceMsat N db) (squeakHash : Bytes) :
    servedSecretKey N squeakHash db = .error .paymentRequiredError := if_pos h

theorem SameButInvoice.respond (page : Nat → Bytes) (handled : List Err) {x x' : Except Err Bytes} (h : x' = x) :
    SameButInvoice N.json (respond page handled x) (respond page handled x') := .inl (by rw [h])

theorem squeakOfRow_secret {row row' : Option SqueakRow} (h : Option.Rel SameButSecrets row row') :
    squeakOfRow L row' = squeakOfRow L row := by
  cases h with
  | none => rfl
  | some h => simp only [squeakOfRow, h.squeak]

/-- Offers of the same squeak with the same nonce look the same but for the payment request. -/
theorem SameButInvoice.offers (page : Nat → Bytes) (handled : List Err) {o o' : SentOffer}
    (hhash : o'.squeakHash = o.squeakHash) (hnonce : o'.nonce = o.nonce)
    (address : Except Err (Option LightningAddressHostPort)) :
    SameButInvoice N.json (App.respond page handled ((fun a => N.json.jsonify (offerJson (offerOf o a))) <$> address))
      (App.respond page handled ((fun a => N.json.jsonify (offerJson (offerOf o' a))) <$> address)) := by
  rcases address with e | a
  · exact .inl rfl
  · refine .inr ⟨offerOf o a, o'.paymentRequest, rfl, ?_⟩
    have hoffer : offerOf o' a = { offerOf o a with paymentRequest := o'.paymentRequest } := by
      simp only [offerOf, hhash, hnonce]
    rw [← hoffer]
    rfl

/-- The answers in the two runs, and what the answering leaves. -/
def AnswersAlike (N : Node L ρ) (R : ρ → ρ → Prop) (issued : ρ → Bytes → Prop) (w w₁ w₁' : World ρ)
    (response response' : Response) : Prop :=
  SameButInvoice N.json response response' ∧ Related R issued w₁ w₁' ∧ w₁.db.configs = w.db.configs

theorem Related.answersAlike {w w' : World ρ} (h : Related R issued w w') {response response' : Response}
    (hr : response' = response) : AnswersAlike N R issued w w w' response response' := ⟨.inl hr, h, rfl⟩

theorem offer_secret (hA : Alike N R) (hI : IssuesOnce N issued) (page : Nat → Bytes) {clientHost hash : String}
    (hseg : isSegment hash = true) {w w' : World ρ} (hrel : Related R issued w w') (hprice : 0 < sellPriceMsat N w.db)
    (hc : OfferCreated N clientHost (.offer hash) w) (hc' : OfferCreated N clientHost (.offer hash) w') :
    AnswersAlike N R issued w ((offer N hash clientHost).run w).2 ((offer N hash clientHost).run w').2
      (respond page [.notFoundError] ((offer N hash clientHost).run w).1)
      (respond page [.notFoundError] ((offer N hash clientHost).run w').1) := by
  have hprice' := hrel.sellPriceMsat N
  have hne : sellPriceMsat N w.db ≠ 0 := by omega
  have hne' : sellPriceMsat N w'.db ≠ 0 := by omega
  rcases hh : fromHex hash with e | squeakHash
  · rw [run_offer_invalid N hh, run_offer_invalid N hh]
    exact hrel.answersAlike rfl
  have hrow := hrel.findSqueak squeakHash
  -- the rows agree on whether there is a squeak with a key, which is what is sold
  by_cases hsold : ∃ r squeak, SqueakDb.findSqueak squeakHash w.db = some r ∧ L.deserialize r.squeak = .ok squeak ∧
      r.secretKey ≠ none
  · obtain ⟨r, squeak, hr, hs, hk⟩ := hsold
    obtain ⟨k, hk⟩ := Option.ne_none_iff_exists'.1 hk
    rw [hr] at hrow
    rcases hr' : SqueakDb.findSqueak squeakHash w'.db with _ | r'
    · rw [hr'] at hrow; cases hrow
    rw [hr'] at hrow
    obtain ⟨hsame⟩ := hrow
    have hs' : L.deserialize r'.squeak = .ok squeak := by rw [hsame.squeak, hs]
    obtain ⟨k', hk'⟩ : ∃ k', r'.secretKey = some k' :=
      Option.ne_none_iff_exists'.1 fun hnone => by simp [hsame.locked.1 hnone] at hk
    obtain ⟨o, w₁, ho⟩ := hc hseg _ _ _ _ hh hr hs hk
    obtain ⟨o', w₁', ho'⟩ := hc' hseg _ _ _ _ hh hr' hs' hk'
    obtain ⟨hfree, hissued⟩ := hI.createOffer hrel.offers ho
    obtain ⟨hfree', hissued'⟩ := hI.createOffer hrel.offers' ho'
    rw [run_offer_created N hh hne hr hs hk ho hfree, run_offer_created N hh hne' hr' hs' hk' ho' hfree']
    obtain ⟨preimage, invoice, env, -, hinvoice, rfl, rfl⟩ := run_createOffer_iff.1 ho
    obtain ⟨preimage', invoice', env', -, hinvoice', rfl, rfl⟩ := run_createOffer_iff.1 ho'
    -- the two runs draw the same nonce, so that only their invoices differ
    obtain ⟨hnonce, hR⟩ := hA.nonce _ _ hrel.env
    have hR₁ := hA.invoice _ _ hR preimage preimage' (sellPriceMsat N w.db)
    rw [hinvoice, ← hprice', hinvoice'] at hR₁
    obtain ⟨haddress, hR₂⟩ := packageAddress_alike hA (hA.clock _ _ hR₁).2 (SqueakController.lndExternalAddress N)
    refine ⟨?_, ⟨hrel.squeaks, hrel.configs, hR₂, hissued.packageAddress hI _, hissued'.packageAddress hI _⟩, rfl⟩
    simp only [withSentOffer, haddress]
    apply SameButInvoice.offers
    · rfl
    · exact hnonce.symm
  · -- nothing is sold in either run
    have hnone : ∀ r squeak, SqueakDb.findSqueak squeakHash w.db = some r → L.deserialize r.squeak = .ok squeak →
        r.secretKey = none := by
      intro r squeak hr hs
      by_contra hk
      exact hsold ⟨r, squeak, hr, hs, hk⟩
    have hnone' : ∀ r' squeak, SqueakDb.findSqueak squeakHash w'.db = some r' → L.deserialize r'.squeak = .ok squeak →
        r'.secretKey = none := by
      intro r' squeak hr' hs'
      rw [hr'] at hrow
      rcases hr : SqueakDb.findSqueak squeakHash w.db with _ | r
      · rw [hr] at hrow; cases hrow
      rw [hr] at hrow
      obtain ⟨hsame⟩ := hrow
      exact hsame.locked.2 (hnone r squeak hr (by rw [← hsame.squeak, hs']))
    rw [run_offer_unsold N hh clientHost hne hnone, run_offer_unsold N hh clientHost hne' hnone',
      squeakOfRow_secret hrow]
    exact hrel.answersAlike rfl

/-- The request is answered in both runs, and alike. -/
def ServedAlike (N : Node L ρ) (R : ρ → ρ → Prop) (issued : ρ → Bytes → Prop) (page : Nat → Bytes) (clientHost : String)
    (request : Request) (w w' : World ρ) : Prop :=
  ∃ response response' w₁ w₁', (serve N page clientHost request).run w = (.ok response, w₁) ∧
    (serve N page clientHost request).run w' = (.ok response', w₁') ∧
      AnswersAlike N R issued w w₁ w₁' response response'

theorem serve_secret (hA : Alike N R) (hI : IssuesOnce N issued) (page : Nat → Bytes) (clientHost : String)
    (request : Request) {w w' : World ρ} (hrel : Related R issued w w') (hprice : 0 < sellPriceMsat N w.db)
    (hc : OfferCreated N clientHost request w) (hc' : OfferCreated N clientHost request w') :
    ServedAlike N R issued page clientHost request w w' := by
  have hprice' := hrel.sellPriceMsat N
  -- a text that is no path segment is not found in either run
  have hnotFound : ∀ hash, hashText request = some hash → isSegment hash = false →
      ServedAlike N R issued page clientHost request w w' := fun hash hr hseg =>
    ⟨_, _, _, _, run_serve_notFound N page hr hseg clientHost w, run_serve_notFound N page hr hseg clientHost w',
      hrel.answersAlike rfl⟩
  cases request with
  | squeak hash =>
    rcases hseg : isSegment hash
    · exact hnotFound hash rfl hseg
    · refine ⟨_, _, _, _, run_serve_squeak N page hseg _ _, run_serve_squeak N page hseg _ _, hrel.answersAlike ?_⟩
      rcases fromHex hash with e | h
      · rfl
      · exact congrArg (respond page _) (servedSqueak_secret (hrel.findSqueak h))
  | secretKey hash =>
    rcases hseg : isSegment hash
    · exact hnotFound hash rfl hseg
    · refine ⟨_, _, _, _, run_serve_secretKey N page hseg _ _, run_serve_secretKey N page hseg _ _,
        hrel.answersAlike ?_⟩
      rcases fromHex hash with e | h
      · rfl
      · show respond page _ (servedSecretKey N h w'.db) = respond page _ (servedSecretKey N h w.db)
        rw [servedSecretKey_priced hprice, servedSecretKey_priced (by omega)]
  | offer hash =>
    rcases hseg : isSegment hash
    · exact hnotFound hash rfl hseg
    · exact ⟨_, _, _, _, run_serve_offer N page hseg _ _, run_serve_offer N page hseg _ _,
        offer_secret hA hI page hseg hrel hprice hc hc'⟩
  | lookup args =>
    refine ⟨_, _, _, _, run_serve_lookup N page _ _ _, run_serve_lookup N page _ _ _, hrel.answersAlike ?_⟩
    rw [servedLookup_secret hrel.squeaks]

/-! ## Sequences of requests -/

/-- Every offer that a sequence of requests asks for is created. -/
def OffersCreated (N : Node L ρ) (page : Nat → Bytes) : List (String × Request) → World ρ → Prop
  | [], _ => True
  | (clientHost, request) :: requests, w => OfferCreated N clientHost request w ∧
      OffersCreated N page requests ((serve N page clientHost request).run w).2

/-- Peers are answered the same over two stores that differ in secret keys and decrypted contents of
unlocked squeaks, but for the payment requests of offers. -/
theorem answers_secret (hA : Alike N R) (hI : IssuesOnce N issued) (page : Nat → Bytes)
    (requests : List (String × Request)) {w w' : World ρ} (hdb : DifferInSecrets w.db w'.db) (henv : R w.env w'.env)
    (hissued : OffersIssued issued w) (hissued' : OffersIssued issued w') (hprice : 0 < sellPriceMsat N w.db)
    (hc : OffersCreated N page requests w) (hc' : OffersCreated N page requests w') :
    ∃ responses responses', ((serveAll N page requests).run w).1 = .ok responses ∧
      ((serveAll N page requests).run w').1 = .ok responses' ∧
      List.Forall₂ (SameButInvoice N.json) responses responses' := by
  have hrel : Related R issued w w' := ⟨hdb.1, by rw [hdb.2], henv, hissued, hissued'⟩
  clear hdb henv hissued hissued'
  induction requests generalizing w w' with
  | nil => exact ⟨[], [], rfl, rfl, .nil⟩
  | cons r requests ih =>
    obtain ⟨clientHost, request⟩ := r
    obtain ⟨response, response', w₁, w₁', hrun, hrun', hsame, hrel₁, hconfigs⟩ :=
      serve_secret hA hI page clientHost request hrel hprice hc.1 hc'.1
    have hprice₁ : sellPriceMsat N w₁.db = sellPriceMsat N w.db := by
      unfold sellPriceMsat getConfigSellPriceMsat
      rw [hconfigs]
    have hc₁ : OffersCreated N page requests w₁ := by simpa only [hrun] using hc.2
    have hc₁' : OffersCreated N page requests w₁' := by simpa only [hrun'] using hc'.2
    obtain ⟨rs, rs', hrs, hrs', hall⟩ := ih (by omega) hc₁ hc₁' hrel₁
    refine ⟨response :: rs, response' :: rs', ?_, ?_, .cons hsame hall⟩
    · rw [run_serveAll_cons N page hrun, hrs]
      rfl
    · rw [run_serveAll_cons N page hrun', hrs']
      rfl

end Secrecy

namespace Sample

theorem alike (maxSqueaks : Int) : Alike (node maxSqueaks) fun o o' => o.nowMs = o'.nowMs where
  clock _ _ h := ⟨h, h⟩
  nonce _ _ h := ⟨rfl, h⟩
  invoice o o' h preimage preimage' amountMsat := by
    simp only [node, lightningClient]
    split <;> split <;> exact h
  info _ _ h := ⟨rfl, h⟩

theorem issuesOnce (maxSqueaks : Int) : IssuesOnce (node maxSqueaks) fun o h => ∃ i ∈ o.invoices, i.1.rHash = h where
  clock _ _ h := h
  nonce _ _ h := h
  info _ _ h := h
  invoice o preimage amountMsat i o' h := by
    simp only [node, lightningClient] at h
    split at h
    · cases h
    · rename_i hnew
      cases h
      refine ⟨?_, ⟨_, List.mem_append_right _ List.mem_cons_self, rfl⟩, ?_⟩
      · rintro ⟨j, hj, heq⟩
        exact hnew (List.any_eq_true.2 ⟨j, hj, by simpa using heq⟩)
      · rintro k ⟨j, hj, hk⟩
        exact ⟨j, List.mem_append_left _ hj, hk⟩

/-- An offer of the key `x` is created. -/
theorem offerCreated {x : Nat} (hx : x < order) (content clientHost : String) :
    OfferCreated (node 1) clientHost (.offer (hex squeak.val.reverse)) (owner (scalarToBytes x) content) := by
  rintro - squeakHash r s secretKey hh hr hs hk
  rw [fromHex_hex] at hh
  cases hh
  obtain rfl : unlockedRow (scalarToBytes x) content = r := by
    simpa [SqueakDb.findSqueak, findBy, owner, unlockedRow, SqueakDb.squeakRow] using hr
  cases hk
  exact ⟨_, _, run_createOffer_iff.2 ⟨_, _, _,
    SecretKeys.addTweak_scalarToBytes scalarLaws hx (by decide : 250 < order),
    rfl, rfl, rfl⟩⟩

end Sample

/-- The keys and the contents differ; a key and an offer are asked for. -/
theorem answers_secret_sample :
    ∃ responses responses', ((serveAll (Sample.node 1) (fun _ => []) [("buyer", .secretKey "00"),
        ("buyer", .offer (hex Sample.squeak.val.reverse))]).run (Sample.owner (Sample.scalarToBytes 5) "x")).1 =
          .ok responses ∧
      ((serveAll (Sample.node 1) (fun _ => []) [("buyer", .secretKey "00"),
        ("buyer", .offer (hex Sample.squeak.val.reverse))]).run (Sample.owner (Sample.scalarToBytes 6) "y")).1 =
          .ok responses' ∧
      List.Forall₂ (SameButInvoice (Sample.node 1).json) responses responses' := by
  refine answers_secret (Sample.alike 1) (Sample.issuesOnce 1) (fun _ => []) _ ?_ rfl ?_ ?_ (by decide) ?_ ?_
  · exact ⟨.cons (.inr ⟨rfl, rfl, rfl⟩) .nil, rfl⟩
  · rintro r ⟨⟩
  · rintro r ⟨⟩
  · exact ⟨trivial, Sample.offerCreated (by decide) "x" "buyer", trivial⟩
  · exact ⟨trivial, Sample.offerCreated (by decide) "y" "buyer", trivial⟩

end Squeaknode
