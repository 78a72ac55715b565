/-
Every operation of a node of the market keeps the databases sound, whatever runs beside it: saving squeaks
and keys, selling keys through the server, recording what was sold, downloading from peers, and paying.
-/
import Squeaknode.Market.Ledger
import Squeaknode.Market.Operations

namespace Squeaknode

open Interleave Relational SqueakDb SqueakStore

variable {L : Squeaklib} {ρ : Type}

/-- The databases stay sound, and nobody forgets an invoice. -/
def trade (M : Ledger ρ) (L : Squeaklib) (J : JsonCodec) (honest : PeerAddress → Prop) : Protocol (World ρ) Obs where
  inv v := MarketSound M L J honest v.2
  moves v w := ∀ preimage invoice, M.made v.2.env preimage invoice → M.made w.2.env preimage invoice
  refl _ _ _ h := h
  trans h h' _ _ hmade := h' _ _ (h _ _ hmade)

section Trade

variable {M : Ledger ρ} {J : JsonCodec} {honest : PeerAddress → Prop} {t : Nat}

theorem trade_allows (hC : L.CodecLaws) : (trade M L J honest).Allows fun w _ w' => Quietly M L w w' :=
  fun _ _ _ _ hi hq => ⟨MarketSound.quietly hC hi hq, hq.env.made⟩

/-- A program that brings nothing is safe. -/
theorem Prog.Within.trade {α : Type} {p : NodeM ρ α} (hp : p.Within fun w _ w' => Quietly M L w w') (hC : L.CodecLaws) :
    p.Sure (trade M L J honest) t :=
  Prog.Within.sure hp (trade_allows hC)

/-! ## Quiet programs -/

section Quiet

variable {N : Node L ρ}

theorem quiet_refl' (w : World ρ) : Quietly M L w w := Quietly.refl w

variable (hN : N.Moves M.Calm)

include hN

theorem quiet_now : (ask N.timestampNowMs : NodeM ρ Int).Within fun w _ w' => Quietly M L w w' :=
  within_ask fun w => Quietly.of_calm (hN.clock w.env)

theorem quietly_coreMakeSqueak (signingProfile : SqueakProfile L) (contentStr : String) (replytoHash : Option Bytes)
    (recipientProfile : Option (SqueakProfile L)) :
    (SqueakCore.makeSqueak N signingProfile contentStr replytoHash recipientProfile).Within
      fun w _ w' => Quietly M L w w' := by
  unfold SqueakCore.makeSqueak
  cases signingProfile.privateKey with
  | none => trivial
  | some privateKey =>
    exact Prog.within_bind (within_call fun w => Quietly.of_calm (hN.bestBlock w.env)) fun _ =>
      Prog.within_bind (quiet_now hN) fun _ =>
        within_call fun w => Quietly.of_calm (hN.squeak _ _ _ _ _ _ _ w.env)

theorem quietly_saveSqueak (squeak : L.CSqueak) : (saveSqueak N squeak).Within fun w _ w' => Quietly M L w w' := by
  have hheader : (SqueakCore.getBlockHeader N squeak).Within fun w _ w' => Quietly M L w w' := by
    refine Prog.within_bind (Prog.within_bind (Prog.within_observed fun w => Quietly.of_calm (hN.block _ w.env))
      fun _ => Prog.within_ofExcept _) fun blockInfo => ?_
    split <;> trivial
  refine Prog.within_bind (Prog.within_ofExcept _) fun _ => Prog.within_bind hheader fun blockHeader =>
    Prog.within_bind (Prog.within_observed quiet_refl') fun numSqueaks => ?_
  split
  · trivial
  · refine Prog.within_bind (Prog.within_observed quiet_refl') fun num => ?_
    split
    · trivial
    · exact Prog.within_bind (quiet_now hN) fun now =>
        Prog.within_observed fun w => quietly_insertSqueak now squeak blockHeader w

theorem quietly_downloadSqueak (peer : SqueakPeer) (squeakHash : Bytes) (minBlock maxBlock : Option Int)
    (pubkeys : Option (List L.PublicKey)) :
    (PeerDownloader.downloadSqueak N peer squeakHash minBlock maxBlock pubkeys).Within
      fun w _ w' => Quietly M L w w' := by
  refine Prog.within_bind (within_getSqueak quiet_refl' squeakHash) fun owned => ?_
  cases owned with
  | some _ => trivial
  | none =>
    have hrequest : (PeerClient.getSqueak N peer squeakHash).Within fun w _ w' => Quietly M L w w' := by
      refine Prog.within_bind (within_call fun w => Quietly.of_calm (hN.requestsGet _ _ w.env)) fun r => ?_
      split
      · trivial
      · exact Prog.within_bind (Prog.within_ofExcept _) fun _ => trivial
    refine Prog.within_bind hrequest fun got => ?_
    cases got with
    | none => trivial
    | some squeak =>
      dsimp only
      split
      · exact Prog.within_bind (quietly_saveSqueak hN squeak) fun _ => trivial
      · trivial

theorem quietly_getReceivedOffers (squeakHash : Bytes) :
    (SqueakStore.getReceivedOffers N squeakHash).Within fun w _ w' => Quietly M L w w' :=
  Prog.within_bind (quiet_now hN) fun _ => within_query quiet_refl' _

end Quiet

/-! ## Routes that only read -/

section Routes

variable (M) (N : Node L ρ)

theorem quietly_getSellPriceMsat : (SqueakController.getSellPriceMsat N).Within fun w _ w' => Quietly M L w w' := by
  refine Prog.within_bind (within_query quiet_refl' _) fun configured => ?_
  cases configured <;> trivial

theorem quietly_secretKey (hash : String) : (App.secretKey N hash).Within fun w _ w' => Quietly M L w w' := by
  refine Prog.within_bind (Prog.within_ofExcept _) fun squeakHash =>
    Prog.within_bind (quietly_getSellPriceMsat M N) fun priceMsat => ?_
  split
  · trivial
  · refine Prog.within_bind (within_query quiet_refl' _) fun secretKey => ?_
    split <;> trivial

theorem quietly_lookup (args : List (String × String)) :
    (App.lookup N args).Within fun w _ w' => Quietly M L w w' := by
  unfold App.lookup
  dsimp only
  split
  · trivial
  · exact Prog.within_bind (Prog.within_bind (Prog.within_ofExcept _) fun pubkeys =>
      Prog.within_bind (within_query quiet_refl' _) fun _ => Prog.within_ofExcept _) fun _ => trivial

end Routes

theorem quietly_squeak (hash : String) :
    (App.squeak (L := L) hash : NodeM ρ Bytes).Within fun w _ w' => Quietly M L w w' := by
  refine Prog.within_bind (Prog.within_ofExcept _) fun squeakHash =>
    Prog.within_bind (within_getSqueak quiet_refl' squeakHash) fun squeak => ?_
  cases squeak <;> trivial

theorem quietly_answer (page : Nat → Bytes) (handled : List Err) {p : NodeM ρ Bytes}
    (hp : p.Within fun w _ w' => Quietly M L w w') :
    (App.answer page handled p).Within fun w _ w' => Quietly M L w w' :=
  Prog.within_catchWith (Prog.within_bind hp fun _ => trivial) fun _ => trivial

/-- The status of an exception is not the one of success. -/
theorem statusCode_respond_error (page : Nat → Bytes) (handled : List Err) (e : Err) :
    (App.respond page handled (.error e)).statusCode ≠ 200 := by
  unfold App.respond App.statusOf
  dsimp only
  split_ifs
  · cases e <;> simp
  · simp

theorem quietly_unlockSqueak (squeakHash : Bytes) (authorProfileId recipientProfileId : Option Nat) :
    (unlockSqueak L squeakHash authorProfileId recipientProfileId : NodeM ρ _).Within
      fun w _ w' => Quietly M L w w' :=
  within_unlockSqueak quiet_refl' (fun w h c =>
    quietly_updateSqueak h (f := fun r => { r with content := some c }) (fun _ => ⟨rfl, rfl, rfl⟩) w) _ _ _

/-! ## Squeaks and keys -/

/-- A squeak that is read has the hash it was looked up by. -/
theorem trade_getSqueak (squeakHash : Bytes) (v : View (World ρ) Obs) :
    (getSqueak L squeakHash).Safe (trade M L J honest) t
      (fun x _ => ∀ squeak, x = .ok (some squeak) → getHash L squeak = squeakHash) v := by
  refine Prog.safe_bind (Prog.safe_atomic fun v' _ hi => ⟨hi, fun _ _ h => h, ?_⟩)
  dsimp only
  cases hrow : findSqueak squeakHash v'.2.db with
  | none => rintro squeak ⟨⟩
  | some row =>
    obtain ⟨hmem, hhash⟩ := findBy_some hrow
    obtain ⟨s, hs, hrowHash, -⟩ := MarketSound.squeaks hi row hmem
    simp only [hs, Prog.ofExcept_ok, Prog.ret_bind]
    rintro squeak ⟨⟩
    exact hrowHash.symm.trans hhash

/-- A key that is read is valid for the squeak. -/
theorem trade_getSqueakSecretKey (hK : L.KeyLaws) (squeakHash : Bytes) (v : View (World ρ) Obs) :
    (SqueakStore.getSqueakSecretKey squeakHash).Safe (trade M L J honest) t
      (fun x _ => ∀ k, x = .ok (some k) → KeyFor L squeakHash k) v := by
  refine Prog.safe_atomic fun v' _ hi => ⟨hi, fun _ _ h => h, ?_⟩
  rintro k heq
  obtain ⟨row, hrow, hkey⟩ := Option.bind_eq_some_iff.1 (Except.ok.inj heq)
  obtain ⟨hmem, hhash⟩ := findBy_some hrow
  obtain ⟨s, -, hrowHash, hvalid⟩ := MarketSound.squeaks hi row hmem
  rw [← hhash, hrowHash]
  exact keyFor_of_check hK (hvalid k hkey)

theorem trade_saveSecretKey (hC : L.CodecLaws) (hK : L.KeyLaws) (squeakHash secretKey : Bytes) :
    (saveSecretKey L squeakHash secretKey : NodeM ρ Unit).Sure (trade M L J honest) t := by
  intro v
  refine Prog.safe_bind (Prog.safe_mono ?_ (trade_getSqueak squeakHash v))
  rintro (e | squeak) v₁ hx
  · trivial
  · cases squeak with
    | none => trivial
    | some squeak =>
      have hhash : getHash L squeak = squeakHash := hx squeak rfl
      cases hcheck : L.checkSqueakSecretKey squeak secretKey with
      | error e => simp only [hcheck]; trivial
      | ok _ =>
        simp only [hcheck, Prog.ofExcept_ok, Prog.ret_bind]
        have hkey : KeyFor L squeakHash secretKey := hhash ▸ keyFor_of_check hK hcheck
        refine Prog.safe_bind (Prog.safe_atomic fun v' _ hi =>
          ⟨MarketSound.setSqueakSecretKey hi hkey, fun _ _ h => h, ?_⟩)
        show Prog.Safe _ _ _ (if L.isPrivateMessage squeak then _ else _) _
        split
        · trivial
        · exact Prog.Within.trade (quietly_unlockSqueak _ _ _) hC _

section Node

variable {N : Node L ρ} (hC : L.CodecLaws) (hM : M.Laws N honest)

include hC hM

theorem trade_makeSqueak (hK : L.KeyLaws) (profileId : Nat) (contentStr : String) (replytoHash : Option Bytes)
    (recipientProfileId : Option Nat) :
    (makeSqueak N profileId contentStr replytoHash recipientProfileId).Sure (trade M L J honest) t := by
  have hB := Prog.closed_sure (Γ := trade M L J honest) (t := t) (ε := Err)
  refine hB.bind (Prog.Within.trade (within_getSqueakProfile quiet_refl' _) hC) fun profile => ?_
  cases profile with
  | none => exact hB.raise _
  | some profile =>
    refine hB.bind (Prog.Within.trade (within_requireProfile quiet_refl' _ _) hC) fun recipient => ?_
    refine hB.bind (Prog.Within.trade (quietly_coreMakeSqueak hM.calm _ _ _ _) hC) fun made => ?_
    refine hB.bind (Prog.Within.trade (quietly_saveSqueak hM.calm made.1) hC) fun inserted => ?_
    cases inserted with
    | none => exact hB.raise _
    | some insertedSqueakHash =>
      refine hB.bind (trade_saveSecretKey hC hK insertedSqueakHash made.2) fun _ => ?_
      dsimp only
      split
      · exact hB.bind (Prog.Within.trade (quietly_unlockSqueak _ _ _) hC) fun _ => hB.ret _
      · exact hB.ret _

/-! ## Buying -/

/-- What the buyer of an offer records of a payment to an honest node. -/
theorem trade_corePayOffer (hS : L.ScalarLaws) (hL : L.CheckLaw) {receivedOffer : ReceivedOffer}
    {v : View (World ρ) Obs} (ho : honest receivedOffer.peerAddress →
      M.Backed L v.2.env receivedOffer.squeakHash receivedOffer.nonce receivedOffer.paymentRequest
        receivedOffer.paymentHash receivedOffer.priceMsat ∧
      ∃ squeak, receivedOffer.squeakHash = getHash L squeak ∧ receivedOffer.paymentPoint = L.paymentPoint squeak) :
    (SqueakCore.payOffer N receivedOffer).Safe (trade M L J honest) t
      (fun x w => ∀ p, x = .ok p → honest p.peerAddress →
        p.valid = true ∧ KeyFor L p.squeakHash p.secretKey ∧ M.Priced w.2.env p.paymentHash p.priceMsat) v := by
  refine Prog.safe_bind (Prog.safe_bind (Prog.safe_atomic fun v' hm hi => ?_))
  have hcalm := hM.calm.payInvoice receivedOffer.paymentRequest v'.2.env
  refine ⟨(MarketSound.quietly hC hi (Quietly.of_calm hcalm)), hcalm.made, ?_⟩
  dsimp only
  cases hanswer : (N.lightningClient.payInvoice receivedOffer.paymentRequest v'.2.env).1 with
  | error e => rintro p ⟨⟩
  | ok payment =>
    show Prog.Safe _ _ _ (if payment.paymentPreimage = [] then _ else _) _
    split
    · rintro p ⟨⟩
    · rename_i hpreimage
      cases hsent : SqueakCore.sentPaymentOf (L := L) receivedOffer payment.paymentPreimage with
      | error e => rintro p ⟨⟩
      | ok p' =>
        rintro p heq hhonest
        cases heq
        obtain ⟨hpsqueak, hphash, hpprice, hppeer⟩ := sentPaymentOf_ok hsent
        obtain ⟨⟨invoice, ⟨x, y, hx, hy, hmade, hnonce, hkey⟩, hrequest, hhash, hprice⟩, squeak, hsqueak, hpoint⟩ :=
          ho (hppeer ▸ hhonest)
        have hpaid := hM.paid _ _ _ _ (hm _ _ hmade) (hrequest ▸ hanswer) hpreimage
        rw [hpaid] at hsent
        obtain ⟨hvalid, hpkey⟩ := sentPaymentOf_honest hS hL hx hy hkey rfl hnonce hsqueak hpoint hsent
        exact ⟨hvalid, hpkey, _, invoice, hcalm.made _ _ (hm _ _ hmade), hphash.trans hhash, hpprice.trans hprice⟩

theorem trade_payOffer (hK : L.KeyLaws) (hS : L.ScalarLaws) (hL : L.CheckLaw) (receivedOfferId : Nat) :
    (payOffer N receivedOfferId).Sure (trade M L J honest) t := by
  intro v
  refine Prog.safe_bind (Prog.safe_atomic fun v' _ hi => ⟨hi, fun _ _ h => h, ?_⟩)
  dsimp only
  cases hrow : getReceivedOffer receivedOfferId v'.2.db with
  | none => trivial
  | some receivedOffer =>
    obtain ⟨row, hfind, hparse⟩ := Option.map_eq_some_iff.1 hrow
    have hoffered := MarketSound.offered hi row (findBy_some hfind).1
    rw [← hparse]
    refine Prog.safe_bind (Prog.safe_mono ?_ (trade_corePayOffer hC hM hS hL hoffered))
    rintro (e | sentPayment) v₁ hx
    · trivial
    · have hsound := hx sentPayment rfl
      have hsave : (saveSentPayment N sentPayment).Safe (trade M L J honest) t (fun _ _ => True) v₁ := by
        refine Prog.safe_bind (Prog.safe_atomic fun v₂ h₂ hi₂ =>
          ⟨MarketSound.quietly hC hi₂ (Quietly.of_calm (hM.calm.clock v₂.2.env)), (hM.calm.clock v₂.2.env).made, ?_⟩)
        refine Prog.safe_bind (Prog.safe_atomic fun v₃ h₃ hi₃ => ⟨?_, fun _ _ h => h, ?_⟩)
        · refine MarketSound.insertSentPayment hi₃ _ fun hhonest => ?_
          obtain ⟨hvalid, hkey, hpriced⟩ := hsound hhonest
          exact ⟨hvalid, hkey, hpriced.later fun p i h => h₃ p i ((hM.calm.clock v₂.2.env).made p i (h₂ p i h))⟩
        · dsimp only
          cases (insertSentPayment (N.timestampNowMs v₂.2.env).1 sentPayment v₃.2.db).1 <;> trivial
      refine Prog.safe_bind (Prog.safe_mono ?_ hsave)
      rintro (e | id) v₂ -
      · trivial
      · have hB := Prog.closed_sure (Γ := trade M L J honest) (t := t) (ε := Err)
        exact hB.bind (Prog.Within.trade (within_update fun w => quietly_setReceivedOfferPaid _ true w) hC)
          (fun _ => hB.bind (trade_saveSecretKey hC hK _ _) fun _ => hB.ret _) v₂

/-! ## Selling -/

/-- A created offer is honest. -/
theorem trade_createOffer (hS : L.ScalarLaws) (hkeys : L.ScalarKeys) {squeak : L.CSqueak} {secretKey : Bytes}
    (hkey : KeyFor L (getHash L squeak) secretKey) (peerAddress : PeerAddress) (priceMsat : Int)
    (v : View (World ρ) Obs) :
    (SqueakCore.createOffer N squeak secretKey peerAddress priceMsat).Safe (trade M L J honest) t
      (fun x w => ∀ o, x = .ok o →
        M.Backed L w.2.env o.squeakHash o.nonce o.paymentRequest o.paymentHash o.priceMsat) v := by
  obtain ⟨x, hx, rfl⟩ := hkeys squeak secretKey (hkey squeak rfl)
  refine Prog.safe_bind (Prog.safe_atomic fun v' _ hi =>
    ⟨MarketSound.quietly hC hi (Quietly.of_calm (hM.calm.nonce v'.2.env)), (hM.calm.nonce v'.2.env).made, ?_⟩)
  obtain ⟨y, hy, hnonce⟩ := hM.nonce v'.2.env
  dsimp only
  rw [← hnonce, SecretKeys.addTweak_scalarToBytes hS hx hy, Prog.ofExcept_ok, Prog.ret_bind]
  refine Prog.safe_bind (Prog.safe_bind (Prog.safe_atomic fun v₁ _ hi₁ => ?_))
  have hcalm := hM.calm.createInvoice (L.scalarToBytes ((x + y) % L.order)) priceMsat v₁.2.env
  refine ⟨MarketSound.quietly hC hi₁ (Quietly.of_calm hcalm), hcalm.made, ?_⟩
  dsimp only
  rcases hinvoice : N.lightningClient.createInvoice (L.scalarToBytes ((x + y) % L.order)) priceMsat v₁.2.env with
    ⟨e | invoice, o⟩
  · rintro o ⟨⟩
  · obtain ⟨hmade, hvalue⟩ := hM.created _ _ _ _ _ hinvoice
    rintro o ⟨⟩
    exact ⟨invoice, ⟨x, y, hx, hy, hmade, rfl, hkey⟩, rfl, rfl, hvalue.symm⟩

/-- An offer for a peer is honest, and recorded as such. -/
theorem trade_getSentOfferForPeer (hK : L.KeyLaws) (hS : L.ScalarLaws) (hkeys : L.ScalarKeys) (squeakHash : Bytes)
    (peerAddress : PeerAddress) (priceMsat : Int) (v : View (World ρ) Obs) :
    (getSentOfferForPeer N squeakHash peerAddress priceMsat).Safe (trade M L J honest) t
      (fun x w => ∀ o, x = .ok (some o) →
        M.Backed L w.2.env o.squeakHash o.nonce o.paymentRequest o.paymentHash o.priceMsat) v := by
  refine Prog.safe_bind (Prog.safe_mono ?_ (trade_getSqueak squeakHash v))
  rintro (e | squeak) v₁ hsqueak
  · rintro o ⟨⟩
  refine Prog.safe_bind (Prog.safe_mono ?_ (trade_getSqueakSecretKey hK squeakHash v₁))
  rintro (e | secretKey) v₂ hkey
  · rintro o ⟨⟩
  rcases squeak with _ | squeak
  · rintro o ⟨⟩
  rcases secretKey with _ | secretKey
  · rintro o ⟨⟩
  have hvalid : KeyFor L (getHash L squeak) secretKey := by
    rw [hsqueak squeak rfl]
    exact hkey secretKey rfl
  -- an exception while the offer is created leaves none
  have hcreated : ((some <$> SqueakCore.createOffer N squeak secretKey peerAddress priceMsat).catchWith
      fun _ => return none).Safe (trade M L J honest) t (fun x w => ∀ o, x = .ok (some o) →
        M.Backed L w.2.env o.squeakHash o.nonce o.paymentRequest o.paymentHash o.priceMsat) v₂ := by
    refine Prog.safe_catchWith (Prog.safe_bind (Prog.safe_mono ?_
      (trade_createOffer hC hM hS hkeys hvalid peerAddress priceMsat v₂)))
    rintro (e | o) w ho
    · rintro o ⟨⟩
    · rintro o' ⟨⟩
      exact ho o rfl
  refine Prog.safe_bind (Prog.safe_mono ?_ hcreated)
  rintro (e | sentOffer) v₃ ho
  · rintro o ⟨⟩
  rcases sentOffer with _ | sentOffer
  · rintro o ⟨⟩
  have hbacked := ho sentOffer rfl
  refine Prog.safe_bind (Prog.safe_bind (Prog.safe_atomic fun v₄ h₄ hi₄ =>
    ⟨MarketSound.quietly hC hi₄ (Quietly.of_calm (hM.calm.clock v₄.2.env)), (hM.calm.clock v₄.2.env).made, ?_⟩))
  refine Prog.safe_bind (Prog.safe_atomic fun v₅ h₅ hi₅ => ?_)
  have hbacked₅ : M.Backed L v₅.2.env sentOffer.squeakHash sentOffer.nonce sentOffer.paymentRequest
      sentOffer.paymentHash sentOffer.priceMsat :=
    hbacked.later fun p i h => h₅ p i ((hM.calm.clock v₄.2.env).made p i (h₄ p i h))
  refine ⟨MarketSound.insertSentOffer hi₅ _ hbacked₅, fun _ _ h => h, ?_⟩
  dsimp only
  cases (insertSentOffer (N.timestampNowMs v₄.2.env).1 sentOffer v₅.2.db).1 with
  | error e => rintro o ⟨⟩
  | ok id =>
    rintro o ⟨⟩
    exact hbacked₅

/-- Packaging keeps the nonce and the payment request, and adds a host that is a text. -/
theorem trade_packageOffer {sentOffer : SentOffer} {invoice : Invoice} {v : View (World ρ) Obs}
    (hi : M.Hides L v.2.env sentOffer.squeakHash sentOffer.nonce invoice)
    (hrequest : sentOffer.paymentRequest = invoice.paymentRequest) :
    (SqueakCore.packageOffer N sentOffer (SqueakController.lndExternalAddress N)).Safe (trade M L J honest) t
      (fun x w => ∀ offer, x = .ok offer → offer.HasText ∧ M.Hides L w.2.env offer.squeakHash offer.nonce invoice ∧
        offer.paymentRequest = invoice.paymentRequest) v := by
  unfold SqueakCore.packageOffer
  cases hconfigured : SqueakController.lndExternalAddress N with
  | some address =>
    rintro offer ⟨⟩
    unfold SqueakController.lndExternalAddress at hconfigured
    split at hconfigured
    · cases hconfigured
    · cases hconfigured
      exact ⟨⟨N.lndExternalHost, rfl⟩, hi, hrequest⟩
  | none =>
    refine Prog.safe_bind (Prog.safe_bind (Prog.safe_bind (Prog.safe_atomic fun v₁ h₁ hi₁ => ?_)))
    have hcalm := hM.calm.getInfo v₁.2.env
    have hlater := (hi.later h₁).later hcalm.made
    refine ⟨MarketSound.quietly hC hi₁ (Quietly.of_calm hcalm), hcalm.made, ?_⟩
    dsimp only
    rcases (N.lightningClient.getInfo v₁.2.env).1 with e | ⟨uris⟩
    · rintro offer ⟨⟩
    rcases uris with _ | ⟨uri, uris⟩
    · rintro offer ⟨⟩
      exact ⟨⟨"", rfl⟩, hlater, hrequest⟩
    · show Prog.Safe _ _ _ (Prog.ofExcept (SqueakCore.parseLndUri uri) >>= fun address => .ret (some address)) _
      cases hparse : SqueakCore.parseLndUri uri with
      | error e => rintro offer ⟨⟩
      | ok address =>
        rintro offer ⟨⟩
        exact ⟨text_of_parseLndUri hparse, hlater, hrequest⟩

/-- The route for offers answers with honest offers. -/
theorem trade_offer (hK : L.KeyLaws) (hS : L.ScalarLaws) (hkeys : L.ScalarKeys) (hJ : N.json = J) (hash clientHost : String)
    (v : View (World ρ) Obs) :
    (App.offer N hash clientHost).Safe (trade M L J honest) t
      (fun x w => ∀ content, x = .ok content → M.Offers L J w.2.env content) v := by
  unfold App.offer SqueakPeerServerHandler.handleGetOffer
  cases fromHex hash with
  | error e => rintro content ⟨⟩
  | ok squeakHash =>
    have hpackaged : (SqueakController.getPackagedOffer N squeakHash ⟨.IPV4, clientHost, 0⟩).Safe (trade M L J honest) t
        (fun x w => ∀ offer, x = .ok (some offer) → offer.HasText ∧ ∃ invoice,
          M.Hides L w.2.env offer.squeakHash offer.nonce invoice ∧ offer.paymentRequest = invoice.paymentRequest) v := by
      refine Prog.safe_bind (Prog.safe_mono ?_ (Prog.Within.trade (quietly_getSellPriceMsat M N) hC v))
      rintro (e | priceMsat) v₁ -
      · rintro offer ⟨⟩
      dsimp only
      split
      · rintro offer ⟨⟩
      refine Prog.safe_bind (Prog.safe_mono ?_
        (trade_getSentOfferForPeer hC hM hK hS hkeys squeakHash ⟨.IPV4, clientHost, 0⟩ priceMsat v₁))
      rintro (e | sentOffer) v₂ ho
      · rintro offer ⟨⟩
      rcases sentOffer with _ | sentOffer
      · rintro offer ⟨⟩
      obtain ⟨invoice, hi, hrequest, -, -⟩ := ho sentOffer rfl
      refine Prog.safe_bind (Prog.safe_mono ?_ (trade_packageOffer hC hM hi hrequest))
      rintro (e | offer) v₃ hoffer
      · rintro offer ⟨⟩
      · rintro offer ⟨⟩
        exact ⟨(hoffer offer rfl).1, invoice, (hoffer offer rfl).2⟩
    rw [Prog.ofExcept_ok, Prog.ret_bind]
    refine Prog.safe_bind (Prog.safe_bind (Prog.safe_mono ?_ hpackaged))
    rintro (e | offer) v₁ ho
    · rintro content ⟨⟩
    rcases offer with _ | offer
    · rintro content ⟨⟩
    obtain ⟨htext, invoice, hi, hrequest⟩ := ho offer rfl
    rintro content ⟨⟩
    exact ⟨offer, invoice, by rw [hJ], htext, hi, hrequest⟩

/-- Whatever a route answers with status 200 is what its handler returned. -/
theorem trade_serve (hK : L.KeyLaws) (hS : L.ScalarLaws) (hkeys : L.ScalarKeys) (hJ : N.json = J)
    (page : Nat → Bytes) (clientHost : String) (request : Request) (v : View (World ρ) Obs) :
    (App.serve N page clientHost request).Safe (trade M L J honest) t
      (fun x w => ∀ response, x = .ok response → ∀ hash, request = .offer hash → response.statusCode = 200 →
        M.Offers L J w.2.env response.content) v := by
  have hquiet : ∀ (p : NodeM ρ Response), p.Within (fun w _ w' => Quietly M L w w') → (∀ hash, request ≠ .offer hash) →
      p.Safe (trade M L J honest) t (fun x w => ∀ response, x = .ok response → ∀ hash, request = .offer hash →
        response.statusCode = 200 → M.Offers L J w.2.env response.content) v := by
    intro p hp hne
    refine Prog.safe_mono ?_ (Prog.Within.trade hp hC v)
    rintro x w - response - hash heq
    exact absurd heq (hne hash)
  cases request with
  | squeak hash =>
    refine hquiet _ ?_ fun _ h => by cases h
    simp only [App.serve]
    split
    · exact quietly_answer page _ (quietly_squeak hash)
    · trivial
  | secretKey hash =>
    refine hquiet _ ?_ fun _ h => by cases h
    simp only [App.serve]
    split
    · exact quietly_answer page _ (quietly_secretKey M N hash)
    · trivial
  | lookup args =>
    exact hquiet _ (quietly_answer page _ (quietly_lookup M N args)) fun _ h => by cases h
  | offer hash =>
    simp only [App.serve]
    split
    · refine Prog.safe_catchWith (Prog.safe_bind (Prog.safe_mono ?_
        (trade_offer hC hM hK hS hkeys hJ hash clientHost v)))
      rintro (e | content) w ho
      · rintro response ⟨⟩ hash' - hstatus
        exact absurd hstatus (statusCode_respond_error page _ e)
      · rintro response ⟨⟩ hash' - -
        exact ho content rfl
    · rintro response ⟨⟩ hash' - hstatus
      cases hstatus

/-! ## Downloading -/

/-- An offer that a peer answers with is honest if the peer is. -/
theorem trade_getOffer (hJ : J.Laws) (hjson : N.json = J) (peer : SqueakPeer) (squeakHash : Bytes)
    (v : View (World ρ) Obs) :
    (PeerClient.getOffer N peer squeakHash).Safe (trade M L J honest) t
      (fun x w => ∀ offer, x = .ok (some offer) → honest peer.address → ∃ invoice,
        M.Hides L w.2.env offer.squeakHash offer.nonce invoice ∧ offer.paymentRequest = invoice.paymentRequest) v := by
  refine Prog.safe_bind (Prog.safe_bind (Prog.safe_atomic fun v' _ hi => ?_))
  have hcalm := hM.calm.requestsGet peer.address (.offer (hex squeakHash)) v'.2.env
  refine ⟨MarketSound.quietly hC hi (Quietly.of_calm hcalm), hcalm.made, ?_⟩
  dsimp only
  cases hanswer : (N.requestsGet peer.address (.offer (hex squeakHash)) v'.2.env).1 with
  | error e => rintro offer ⟨⟩
  | ok r =>
    show Prog.Safe _ _ _ (if r.statusCode ≠ 200 then _ else _) _
    split
    · rintro offer ⟨⟩
    · rename_i hstatus
      cases hparse : PeerClient.parseOffer N.json r.content with
      | error e => rintro offer ⟨⟩
      | ok offer =>
        rintro offer' heq hhonest
        cases heq
        obtain ⟨sent, invoice, hcontent, htext, hhides, hrequest⟩ :=
          MarketSound.answers hi _ _ _ hhonest (hM.got _ _ _ _ hhonest hanswer) (not_not.1 hstatus)
        rw [hjson, hcontent, parseOffer_offerJson hJ htext] at hparse
        cases hparse
        exact ⟨invoice, hhides.later hcalm.made, hrequest⟩

theorem trade_handleOffer (squeak : L.CSqueak) {offer : Offer} {peerAddress : PeerAddress} {v : View (World ρ) Obs}
    (ho : honest peerAddress → ∃ invoice, M.Hides L v.2.env offer.squeakHash offer.nonce invoice ∧
      offer.paymentRequest = invoice.paymentRequest) :
    (handleOffer N squeak offer peerAddress).Safe (trade M L J honest) t (fun _ _ => True) v := by
  have hunpacked : (SqueakCore.unpackOffer N squeak offer peerAddress).Safe (trade M L J honest) t
      (fun x w => ∀ o, x = .ok o → honest o.peerAddress →
        M.Backed L w.2.env o.squeakHash o.nonce o.paymentRequest o.paymentHash o.priceMsat ∧
          ∃ squeak, o.squeakHash = getHash L squeak ∧ o.paymentPoint = L.paymentPoint squeak) v := by
    unfold SqueakCore.unpackOffer
    split
    · rintro o ⟨⟩
    · rename_i hhash
      refine Prog.safe_bind (Prog.safe_bind (Prog.safe_atomic fun v' hm hi => ?_))
      have hcalm := hM.calm.decodePayReq offer.paymentRequest v'.2.env
      refine ⟨MarketSound.quietly hC hi (Quietly.of_calm hcalm), hcalm.made, ?_⟩
      dsimp only
      cases hdecode : (N.lightningClient.decodePayReq offer.paymentRequest v'.2.env).1 with
      | error e => rintro o ⟨⟩
      | ok payReq =>
        rintro o heq hhonest
        cases heq
        obtain ⟨invoice, hhides, hrequest⟩ := ho hhonest
        obtain ⟨x, y, -, -, hmade, -⟩ := id hhides
        obtain ⟨hphash, hprice⟩ := hM.decoded _ _ _ _ (hm _ _ hmade) (hrequest ▸ hdecode)
        refine ⟨⟨invoice, ?_, hrequest, hphash, hprice⟩, squeak, rfl, rfl⟩
        show M.Hides L _ (getHash L squeak) offer.nonce invoice
        rw [not_not.1 hhash]
        exact (hhides.later hm).later hcalm.made
  refine Prog.safe_bind (Prog.safe_mono ?_ hunpacked)
  rintro (e | receivedOffer) v₁ hreceived
  · trivial
  refine Prog.safe_bind (Prog.safe_bind (Prog.safe_atomic fun v₂ h₂ hi₂ =>
    ⟨MarketSound.quietly hC hi₂ (Quietly.of_calm (hM.calm.clock v₂.2.env)), (hM.calm.clock v₂.2.env).made, ?_⟩))
  refine Prog.safe_bind (Prog.safe_atomic fun v₃ h₃ hi₃ => ⟨?_, fun _ _ h => h, ?_⟩)
  · refine MarketSound.insertReceivedOffer hi₃ _ fun hhonest => ?_
    obtain ⟨hbacked, hsqueak⟩ := hreceived receivedOffer rfl hhonest
    exact ⟨hbacked.later fun p i h => h₃ p i ((hM.calm.clock v₂.2.env).made p i (h₂ p i h)), hsqueak⟩
  · cases (insertReceivedOffer (N.timestampNowMs v₂.2.env).1 receivedOffer v₃.2.db).1 <;> trivial

theorem trade_downloadSecretKey (hK : L.KeyLaws) (hJ : J.Laws) (hjson : N.json = J) (peer : SqueakPeer)
    (squeakHash : Bytes) : (PeerDownloader.downloadSecretKey N peer squeakHash).Sure (trade M L J honest) t := by
  have hB := Prog.closed_sure (Γ := trade M L J honest) (t := t) (ε := Err)
  refine hB.bind (Prog.Within.trade (within_getSqueak quiet_refl' squeakHash) hC) fun squeak => ?_
  cases squeak with
  | none => exact hB.ret _
  | some squeak =>
    refine hB.bind (Prog.Within.trade (within_query quiet_refl' _) hC) fun owned => ?_
    split
    · exact hB.ret _
    · have hrequest : (PeerClient.getSecretKey N peer squeakHash).Within fun w _ w' => Quietly M L w w' := by
        refine Prog.within_bind (within_call fun w => Quietly.of_calm (hM.calm.requestsGet _ _ w.env)) fun r => ?_
        split <;> trivial
      refine hB.bind (Prog.Within.trade hrequest hC) fun secretKey => ?_
      split
      · exact trade_saveSecretKey hC hK squeakHash _
      · refine hB.bind (Prog.Within.trade (quietly_getReceivedOffers hM.calm squeakHash) hC) fun receivedOffers => ?_
        split
        · exact hB.ret _
        · intro v
          refine Prog.safe_bind (Prog.safe_mono ?_ (trade_getOffer hC hM hJ hjson peer squeakHash v))
          rintro (e | offer) v₁ ho
          · trivial
          · cases offer with
            | none => trivial
            | some offer => exact trade_handleOffer hC hM squeak (ho offer rfl)

/-! ## Recording what was sold -/

theorem trade_processInvoice (invoice : Invoice) :
    (PaymentProcessor.processInvoice N invoice).Sure (trade M L J honest) t := by
  intro v
  unfold PaymentProcessor.processInvoice
  split
  · refine Prog.safe_bind (Prog.safe_atomic fun v' _ hi => ⟨hi, fun _ _ h => h, ?_⟩)
    dsimp only
    cases hrow : getSentOfferByPaymentHash invoice.rHash v'.2.db with
    | none => trivial
    | some sentOffer =>
      obtain ⟨row, hfind, hparse⟩ := Option.map_eq_some_iff.1 hrow
      have hpriced := (MarketSound.sold hi row (findBy_some hfind).1).priced
      rw [← hparse]
      refine Prog.safe_bind (Prog.safe_atomic fun v₁ h₁ hi₁ =>
        ⟨MarketSound.quietly hC hi₁ (Quietly.of_calm (hM.calm.clock v₁.2.env)), (hM.calm.clock v₁.2.env).made, ?_⟩)
      refine Prog.safe_bind (Prog.safe_atomic fun v₂ h₂ hi₂ => ⟨?_, fun _ _ h => h, ?_⟩)
      · exact MarketSound.insertReceivedPayment hi₂ _
          (hpriced.later fun p i h => h₂ p i ((hM.calm.clock v₁.2.env).made p i (h₁ p i h)))
      · exact Prog.Within.trade (within_update fun w => quietly_setSentOfferPaid _ true w) hC _
  · trivial

/-! ## Every operation -/

theorem trade_storeOp (hK : L.KeyLaws) (hS : L.ScalarLaws) (hL : L.CheckLaw) (op : StoreOp L) :
    (op.program N).Sure (trade M L J honest) t := by
  have hB := Prog.closed_sure (Γ := trade M L J honest) (t := t) (ε := Err)
  have hdelete : ∀ h, (SqueakStore.deleteSqueak h : NodeM ρ Unit).Within fun w _ w' => Quietly M L w w' :=
    fun h => within_update (quietly_deleteSqueak h)
  cases op with
  | saveSqueak squeak =>
    exact hB.bind (Prog.Within.trade (quietly_saveSqueak hM.calm squeak) hC) fun _ => hB.ret _
  | makeSqueak id content reply recipient =>
    exact hB.bind (trade_makeSqueak hC hM hK id content reply recipient) fun _ => hB.ret _
  | saveSecretKey h k => exact trade_saveSecretKey hC hK h k
  | unlockSqueak h a r => exact Prog.Within.trade (quietly_unlockSqueak h a r) hC
  | payOffer id => exact hB.bind (trade_payOffer hC hM hK hS hL id) fun _ => hB.ret _
  | likeSqueak h =>
    refine Prog.Within.trade (Prog.within_bind (quiet_now hM.calm) fun now => within_update fun w => ?_) hC
    exact quietly_updateSqueak h (f := fun r => { r with likedTimeMs := some now }) (fun _ => ⟨rfl, rfl, rfl⟩) w
  | unlikeSqueak h =>
    refine Prog.Within.trade (within_update fun w => ?_) hC
    exact quietly_updateSqueak h (f := fun r => { r with likedTimeMs := none }) (fun _ => ⟨rfl, rfl, rfl⟩) w
  | deleteSqueak h => exact Prog.Within.trade (hdelete h) hC
  | deleteOldSqueaks =>
    exact Prog.Within.trade (Prog.within_bind (quiet_now hM.calm) fun _ =>
      Prog.within_bind (within_query quiet_refl' _) fun _ => Prog.within_forM hdelete _) hC

/-- Whatever a node of the market does is safe. -/
theorem trade_program (hK : L.KeyLaws) (hS : L.ScalarLaws) (hL : L.CheckLaw) (hkeys : L.ScalarKeys) (hJ : J.Laws)
    (hjson : N.json = J) (hsend : M.SendLaws) (address : PeerAddress) (op : TradeOp L) :
    (op.program N M address).Sure (trade M L J honest) t := by
  have hB := Prog.closed_sure (Γ := trade M L J honest) (t := t) (ε := Err)
  have hsqueak : ∀ peer h a b ps, (PeerDownloader.downloadSqueak N peer h a b ps).Sure (trade M L J honest) t :=
    fun peer h a b ps => Prog.Within.trade (quietly_downloadSqueak hM.calm peer h a b ps) hC
  have hkey : ∀ peer h, (PeerDownloader.downloadSecretKey N peer h).Sure (trade M L J honest) t :=
    trade_downloadSecretKey hC hM hK hJ hjson
  cases op with
  | store op => exact trade_storeOp hC hM hK hS hL op
  | answer page clientHost request =>
    intro v
    refine Prog.safe_bind (Prog.safe_mono ?_ (trade_serve hC hM hK hS hkeys hjson page clientHost request v))
    rintro (e | response) v₁ hresponse
    · trivial
    · refine Prog.safe_atomic fun v₂ h₂ hi₂ => ⟨?_, hsend.made address request response v₂.2.env, trivial⟩
      exact MarketSound.send hsend hi₂ fun hash heq hstatus => (hresponse response rfl hash heq hstatus).later h₂
  | downloadInterestRange peer minBlock maxBlock pubkeys =>
    have hlookup : (PeerClient.lookup N peer minBlock maxBlock pubkeys).Within fun w _ w' => Quietly M L w w' :=
      Prog.within_bind (within_call fun w => Quietly.of_calm (hM.calm.requestsGet _ _ w.env)) fun _ =>
        Prog.within_ofExcept _
    exact hB.bind (Prog.Within.trade hlookup hC) fun squeakHashes =>
      hB.bind (closed_forM hB (fun h => hsqueak peer h _ _ _) squeakHashes) fun _ => closed_forM hB (hkey peer) squeakHashes
  | downloadSingleSqueak peer squeakHash => exact hB.bind (hsqueak peer squeakHash _ _ _) fun _ => hkey peer squeakHash
  | payments activity =>
    cases activity with
    | task subscriptions =>
      exact closed_forM hB (fun notifications => hB.bind (Prog.Within.trade (within_query quiet_refl' _) hC) fun _ =>
        closed_forM hB (trade_processInvoice hC hM) notifications) subscriptions
    | clearReceivedPaymentSettleIndices => exact Prog.Within.trade (within_update quietly_clearSettleIndices) hC
  | deleteAllExpiredSentOffers =>
    exact hB.bind (Prog.Within.trade (Prog.within_bind (quiet_now hM.calm) fun now =>
      within_sql (quietly_deleteExpiredSentOffers now N.sentOfferRetentionS)) hC) fun _ => hB.ret _

end Node

end Trade

end Squeaknode
