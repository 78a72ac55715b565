/-
The `valid` flag of a payment. `pay_offer` computes the key from the preimage and the nonce, compares
its payment point with the one that was stored with the offer when it was unpacked, and records the
result; `save_secret_key` then checks the key against the row that the squeak has by that time.
-/
import Squeaknode.Db.Statements
import Squeaknode.Interleave.Machine
import Squeaknode.Node.PayOffer
import Squeaknode.Node.StoreRuns
import Squeaknode.Relational.Keyset

namespace Squeaknode

open Interleave Relational SqueakDb SqueakStore

variable {L : Squeaklib} {ρ : Type}

/-- `CheckSqueakSecretKey` accepts a key exactly when its payment point is the one of the squeak. -/
def Squeaklib.CheckLaw (L : Squeaklib) : Prop :=
  ∀ s k, L.checkSqueakSecretKey s k = .ok () ↔ L.paymentPointBytesFromScalarBytes k = .ok (L.paymentPoint s)

/-! ## From the offer of a peer to the table -/

/-- A statement as a step of the database. -/
def Statement.step (s : Statement L) (db : Db) : Option Db := some (s.commit db)

/-- The offers that a statement inserts were unpacked from offers of peers. -/
def Statement.Unpacks (N : Node L ρ) (s : Statement L) : Prop :=
  ∀ now receivedOffer, s = .insertReceivedOffer now receivedOffer → ∃ squeak offer peerAddress w,
    ((SqueakCore.unpackOffer N squeak offer peerAddress).run w).1 = .ok receivedOffer

/-- Offers are of a squeak and have its payment point, and squeaks are stored under their hashes. -/
structure Pointed (L : Squeaklib) (db : Db) : Prop where
  offers : ∀ r ∈ db.receivedOffers.rows, ∃ squeak, r.squeakHash = getHash L squeak ∧ r.paymentPoint = L.paymentPoint squeak
  squeaks : ∀ r ∈ db.squeaks, ∃ squeak, r.hash = getHash L squeak ∧ r.squeak = L.serialize squeak

/-- The payment point of an unpacked offer is the one of its squeak, whatever the invoice says. -/
theorem unpackOffer_point {N : Node L ρ} {squeak : L.CSqueak} {offer : Offer} {peerAddress : PeerAddress} {w : World ρ}
    {o : ReceivedOffer} (h : ((SqueakCore.unpackOffer N squeak offer peerAddress).run w).1 = .ok o) :
    o.squeakHash = getHash L squeak ∧ o.paymentPoint = L.paymentPoint squeak := by
  unfold SqueakCore.unpackOffer at h
  by_cases hhash : getHash L squeak = offer.squeakHash
  · rw [if_neg (not_not.2 hhash), Prog.run_bind, run_call] at h
    cases hdecode : (N.lightningClient.decodePayReq offer.paymentRequest w.env).1 with
    | error e =>
      rw [hdecode] at h
      cases h
    | ok payReq =>
      rw [hdecode] at h
      cases h
      exact ⟨rfl, rfl⟩
  · rw [if_pos hhash] at h
    cases h

theorem Pointed.commit {N : Node L ρ} {db : Db} (h : Pointed L db) {s : Statement L} (hs : s.Unpacks N) :
    Pointed L (s.commit db) where
  offers := by
    have hsame : ∀ db' : Db, db'.receivedOffers = db.receivedOffers → ∀ r ∈ db'.receivedOffers.rows,
        ∃ squeak, r.squeakHash = getHash L squeak ∧ r.paymentPoint = L.paymentPoint squeak := by
      intro db' heq r hr
      exact h.offers r (heq ▸ hr)
    cases s with
    | insertReceivedOffer now receivedOffer =>
      intro r hr
      rcases mem_insertReceivedOffer hr with hr | ⟨host, id, rfl⟩
      · exact h.offers r hr
      · obtain ⟨squeak, offer, peerAddress, w, hunpack⟩ := hs now receivedOffer rfl
        exact ⟨squeak, unpackOffer_point hunpack⟩
    | setReceivedOfferPaid paymentHash paid =>
      intro r hr
      obtain ⟨r₀, hr₀, rfl⟩ := mem_updateWhere.1 hr
      have hpointed := h.offers r₀ hr₀
      split <;> exact hpointed
    | deleteExpiredReceivedOffers now intervalS => exact fun r hr => h.offers r (mem_deleteWhere.1 hr).1
    | insertProfile now profile =>
      refine hsame _ ?_
      show (SqueakDb.insertProfile L now profile db).2.receivedOffers = _
      unfold SqueakDb.insertProfile
      split <;> rfl
    | setProfileName profileId profileName =>
      refine hsame _ ?_
      show (SqueakDb.setProfileName profileId profileName db).2.receivedOffers = _
      unfold SqueakDb.setProfileName
      split <;> rfl
    | _ => exact hsame _ rfl
  squeaks := (s.squeakEffect db).forall (fun _ squeak _ => ⟨squeak, rfl, rfl⟩) (fun _ _ _ _ hr => hr) h.squeaks

theorem pointed_of_run {N : Node L ρ} {db : Db} {history : List (Db × Statement L)}
    (hr : Machine.Run Statement.step .empty history db) (hunpacks : ∀ x ∈ history, x.2.Unpacks N) : Pointed L db := by
  have hempty : Pointed L Db.empty := ⟨fun r hr => (by cases hr), fun r hr => (by cases hr)⟩
  have hstep : ∀ (db : Db) (s : Statement L) (db' : Db), Pointed L db → s.Unpacks N → s.step db = some db' →
    Pointed L db' := by
    rintro db s _ h hs ⟨⟩
    exact h.commit hs
  exact hr.invariant hstep hempty hunpacks db (List.mem_append_right _ List.mem_cons_self)

/-- The squeak that is stored under the hash of an offer has the payment point of the offer. -/
theorem Pointed.squeak (hC : L.CodecLaws) (hK : L.KeyLaws) {db : Db} (h : Pointed L db) {id : Nat} {o : ReceivedOffer}
    (ho : getReceivedOffer id db = some o) {r : SqueakRow} (hr : findSqueak o.squeakHash db = some r) :
    ∃ squeak, L.deserialize r.squeak = .ok squeak ∧ o.paymentPoint = L.paymentPoint squeak := by
  obtain ⟨row, hrow, rfl⟩ := Option.map_eq_some_iff.1 ho
  obtain ⟨offered, hoffered, hpoint⟩ := h.offers row (findBy_some hrow).1
  obtain ⟨hmem, hhash⟩ := findBy_some hr
  obtain ⟨squeak, hstored, hbytes⟩ := h.squeaks r hmem
  refine ⟨squeak, by rw [hbytes, hC.squeak], ?_⟩
  have hsame : getHash L offered = getHash L squeak := hoffered.symm.trans (hhash.symm.trans hstored)
  exact hpoint.trans (hK.hash _ _ (List.reverse_injective hsame))

/-! ## The two checks of the key -/

/-- The flag and the key of what is recorded of a payment. -/
theorem keyOf_sentPaymentOf {o : ReceivedOffer} {preimage : Bytes} {p : SentPayment}
    (h : SqueakCore.sentPaymentOf (L := L) o preimage = .ok p) :
    SecretKeys.subtractTweak L preimage o.nonce = .ok p.secretKey ∧
      (p.valid = true ↔ L.paymentPointBytesFromScalarBytes p.secretKey = .ok o.paymentPoint) := by
  unfold SqueakCore.sentPaymentOf at h
  obtain ⟨secretKey, hkey, h⟩ := ok_of_bind h
  obtain ⟨point, hpoint, h⟩ := ok_of_bind h
  cases h
  refine ⟨hkey, ?_⟩
  show (point == o.paymentPoint) = true ↔ L.paymentPointBytesFromScalarBytes secretKey = _
  rw [hpoint, beq_iff_eq, Except.ok.injEq]

/-- What a payment leaves: its row, whose flag says whether the key was stored, and the offer marked. -/
structure FlagTruthful (L : Squeaklib) (id : Nat) (o : ReceivedOffer) (preimage : Bytes) (squeak : L.CSqueak) (db : Db)
    (x : Except Err Nat) (db' : Db) (sent : SentPaymentRow) : Prop where
  recorded : db'.sentPayments.rows = db.sentPayments.rows ++ [sent]
  marked : getReceivedOffer id db' = some { o with paid := true }
  key : SecretKeys.subtractTweak L preimage o.nonce = .ok sent.secretKey
  valid : sent.valid = true ↔ L.checkSqueakSecretKey squeak sent.secretKey = .ok ()
  stored : sent.valid = true →
    db'.squeaks = updateWhere (fun r => r.hash == o.squeakHash) (rowWithKey L sent.secretKey squeak) db.squeaks ∧
      (findSqueak o.squeakHash db').bind SqueakRow.secretKey = some sent.secretKey
  refused : sent.valid = false → db'.squeaks = db.squeaks ∧ ∃ e, x = .error e

/-- The record of a payment of an offer whose payment point is the one of the stored squeak. -/
theorem flag_recordPayment (hL : L.CheckLaw) (N : Node L ρ) {id : Nat} {o : ReceivedOffer} {preimage : Bytes}
    {p : SentPayment} (hp : SqueakCore.sentPaymentOf (L := L) o preimage = .ok p) {w : World ρ}
    (ho : getReceivedOffer id w.db = some o) (hfree : ∀ r ∈ w.db.sentPayments.rows, r.paymentHash ≠ p.paymentHash)
    {r : SqueakRow} (hr : findSqueak o.squeakHash w.db = some r) {squeak : L.CSqueak}
    (hs : L.deserialize r.squeak = .ok squeak) (hpoint : o.paymentPoint = L.paymentPoint squeak) :
    FlagTruthful L id o preimage squeak w.db ((recordPayment N o p).run w).1 ((recordPayment N o p).run w).2.db
      (sentPaymentRow (N.timestampNowMs w.env).1 p (w.db.sentPayments.lastId + 1)) := by
  obtain ⟨hkey, hflag⟩ := keyOf_sentPaymentOf hp
  rw [hpoint, ← hL squeak] at hflag
  have hafter : (afterRecord N p w).db.sentPayments.rows =
      w.db.sentPayments.rows ++ [sentPaymentRow (N.timestampNowMs w.env).1 p (w.db.sentPayments.lastId + 1)] := by
    unfold afterRecord
    rw [insertSentPayment_of_free hfree]
    rfl
  have hsqueaks : (afterRecord N p w).db.squeaks = w.db.squeaks := by
    unfold afterRecord
    rw [insertSentPayment_of_free hfree]
    rfl
  -- the payment and the paid mark leave the squeak as it was found
  have hrow : findSqueak o.squeakHash (afterRecord N p w).db = some r := by
    unfold findSqueak at hr ⊢
    rwa [hsqueaks]
  have hmarked : getReceivedOffer id (afterRecord N p w).db = some { o with paid := true } := by
    unfold afterRecord
    rw [insertSentPayment_of_free hfree, (sentPaymentOf_ok hp).2.1]
    exact getReceivedOffer_setReceivedOfferPaid ho
  rw [run_recordPayment_free N o hfree]
  cases hcheck : L.checkSqueakSecretKey squeak p.secretKey with
  | ok _ =>
    -- the key opens the squeak, and it is saved to the row
    have hvalid : p.valid = true := hflag.2 hcheck
    rw [run_saveSecretKey_valid hrow hs hcheck]
    have hothers := withKey_eq (L := L) o.squeakHash p.secretKey squeak (afterRecord N p w).db
    refine ⟨?_, ?_, hkey, iff_of_true hvalid hcheck, fun _ => ⟨?_, ?_⟩, fun hinvalid => ?_⟩
    · show (withKey L o.squeakHash p.secretKey squeak (afterRecord N p w).db).sentPayments.rows = _
      rw [hothers]
      exact hafter
    · show getReceivedOffer id (withKey L o.squeakHash p.secretKey squeak (afterRecord N p w).db) = _
      rw [hothers]
      exact hmarked
    · show (withKey L o.squeakHash p.secretKey squeak (afterRecord N p w).db).squeaks = _
      rw [withKey_squeaks, hsqueaks]
      rfl
    · show (findSqueak o.squeakHash (withKey L o.squeakHash p.secretKey squeak (afterRecord N p w).db)).bind _ = _
      rw [findSqueak_withKey hrow]
      rfl
    · have hinvalid' : p.valid = false := hinvalid
      rw [hvalid] at hinvalid'
      cases hinvalid'
  | error e =>
    -- the key opens no squeak of this row, and the save raises
    have hbad : ∀ s, L.deserialize r.squeak = .ok s → L.checkSqueakSecretKey s p.secretKey ≠ .ok () := by
      intro s hs'
      rw [hs] at hs'
      cases hs'
      rw [hcheck]
      exact fun h => by cases h
    have hnot : ¬ L.checkSqueakSecretKey squeak p.secretKey = .ok () := hbad squeak hs
    obtain ⟨e', hrun⟩ := run_saveSecretKey_invalid (L := L) p.secretKey hrow hbad
    rw [hrun]
    exact ⟨hafter, hmarked, hkey, iff_of_false (fun h => hnot (hflag.1 h)) hnot,
      fun h => absurd (hflag.1 h) hnot, fun _ => ⟨hsqueaks, e', rfl⟩⟩

/-- At a node whose offers were unpacked from offers of peers, whatever else was written meanwhile: the
flag of a payment that is recorded is true if and only if the key that the preimage and the nonce give
is stored on the squeak; a key that is refused changes nothing but the record of the payment. -/
theorem valid_flag_truthful (hC : L.CodecLaws) (hK : L.KeyLaws) (hL : L.CheckLaw) (N : Node L ρ) {w : World ρ}
    {history : List (Db × Statement L)} (hr : Machine.Run Statement.step .empty history w.db)
    (hunpacks : ∀ x ∈ history, x.2.Unpacks N) {id : Nat} {o : ReceivedOffer} (ho : getReceivedOffer id w.db = some o)
    {preimage : Bytes} (hpaid : preimageOf N o w = some preimage) (hrec : Recordable L w.db o preimage)
    {r : SqueakRow} (hrow : findSqueak o.squeakHash w.db = some r) :
    ∃ squeak sent, L.deserialize r.squeak = .ok squeak ∧ o.paymentPoint = L.paymentPoint squeak ∧
      FlagTruthful L id o preimage squeak w.db ((payOffer N id).run w).1 ((payOffer N id).run w).2.db sent := by
  obtain ⟨squeak, hs, hpoint⟩ := (pointed_of_run hr hunpacks).squeak hC hK ho hrow
  obtain ⟨p, hp⟩ := sentPaymentOf_isOk.2 hrec.key
  have hfree : ∀ r ∈ w.db.sentPayments.rows, r.paymentHash ≠ p.paymentHash := by
    rw [(sentPaymentOf_ok hp).2.1]
    exact hrec.fresh
  refine ⟨squeak, sentPaymentRow (N.timestampNowMs (afterPay N o w).env).1 p (w.db.sentPayments.lastId + 1),
    hs, hpoint, ?_⟩
  rw [run_payOffer N ho, Prog.run_bind, run_corePayOffer_paid hpaid, hp]
  exact flag_recordPayment hL N (w := afterPay N o w) hp ho hfree hrow hs hpoint

namespace Sample

theorem checkLaw : squeaklib.CheckLaw := by
  intro s k
  show checkSqueakSecretKey s k = _ ↔ paymentPointBytesFromScalarBytes k = .ok [2, s.byte 4]
  unfold checkSqueakSecretKey
  cases hpoint : paymentPointBytesFromScalarBytes k with
  | error e => exact iff_of_false (fun h => by cases h) fun h => by cases h
  | ok point =>
    by_cases heq : point = [2, s.byte 4]
    · exact iff_of_true (if_pos heq) (congrArg Except.ok heq)
    · refine iff_of_false (fun h => ?_) fun h => heq (Except.ok.inj h)
      have hraised : (if point = [2, s.byte 4] then .ok () else .error (.squeaklib "invalid secret key")) =
        (.ok () : Except Err Unit) := h
      rw [if_neg heq] at hraised
      cases hraised

/-- An offer of a key for the squeak: the preimage of its invoice is the scalar 7. -/
def peerOffer (nonce : Nat) : Offer := ⟨squeak.val.reverse, scalarToBytes nonce, "i", "lnd", 9735⟩

/-- The seller. -/
def peer : PeerAddress := ⟨.IPV4, "seller", 8555⟩

/-- That offer, as the node unpacks it. -/
def unpacked (nonce : Nat) : ReceivedOffer :=
  receivedOfferOf squeaklib squeak (peerOffer nonce) peer ⟨0 :: scalarToBytes 7, [], 1000, "seller", 1000, 3600⟩

/-- A node with the squeak and the offer, on the lightning network with the invoice. -/
def offered (nonce : Nat) : World Outside where
  db := (Statement.insertReceivedOffer (L := squeaklib) 1000000 (unpacked nonce)).commit
    ((Statement.insertSqueak (L := squeaklib) 1000000 squeak ⟨4200⟩).commit .empty)
  env := (buyer []).env

/-- The key that the preimage and the nonce give, and whether it is the one of the squeak. -/
theorem keyFrom {nonce : Nat} {valid : Bool} (h : (nonce, valid) ∈ [(2, true), (3, false)]) :
    nonce < order ∧ squeaklib.scalarDifference 7 nonce = 7 - nonce ∧
      squeaklib.paymentPointBytesFromScalarBytes (squeaklib.scalarToBytes (7 - nonce)) =
        .ok [2, UInt8.ofNat (7 - nonce)] ∧
      (squeaklib.checkSqueakSecretKey squeak (scalarToBytes (7 - nonce)) = .ok () ↔ valid = true) := by
  rcases List.mem_pair.1 h with h | h <;> cases h
  · exact ⟨by decide, rfl, rfl, (checkLaw _ _).trans (iff_of_true rfl rfl)⟩
  · have hpoint : ¬ (.ok [2, 4] : Except Err Bytes) = .ok [2, 5] := fun h => absurd (Except.ok.inj h) (by decide)
    exact ⟨by decide, rfl, rfl, (checkLaw _ _).trans (iff_of_false hpoint (by decide))⟩

/-- The payment of the offer with this nonce is stored with this flag, and truthfully. -/
def PaidTruthfully (nonce : Nat) (valid : Bool) : Prop :=
  ∃ o sent, getReceivedOffer 1 (offered nonce).db = some o ∧
    FlagTruthful squeaklib 1 o (scalarToBytes 7) squeak (offered nonce).db ((payOffer (node 1) 1).run (offered nonce)).1
      ((payOffer (node 1) 1).run (offered nonce)).2.db sent ∧
    sent.valid = valid

end Sample

/-- With the nonce 2 the key is right and stored, with the nonce 3 it is wrong. -/
theorem valid_flag_truthful_sample : Sample.PaidTruthfully 2 true ∧ Sample.PaidTruthfully 3 false := by
  have hpaid : ∀ x ∈ [(2, true), (3, false)], Sample.PaidTruthfully x.1 x.2 := by
    rintro ⟨nonce, valid⟩ hx
    have ho : getReceivedOffer 1 (Sample.offered nonce).db =
      some { Sample.unpacked nonce with receivedOfferId := some 1 } := rfl
    have hpaid : preimageOf (Sample.node 1) { Sample.unpacked nonce with receivedOfferId := some 1 }
      (Sample.offered nonce) =
        some (Sample.scalarToBytes 7) := rfl
    have hrun : Machine.Run (Statement.step (L := Sample.squeaklib)) .empty
        ([] ++ [(Db.empty, .insertSqueak 1000000 Sample.squeak ⟨4200⟩)] ++
          [((Statement.insertSqueak (L := Sample.squeaklib) 1000000 Sample.squeak ⟨4200⟩).commit .empty,
            .insertReceivedOffer 1000000 (Sample.unpacked nonce))]) (Sample.offered nonce).db :=
      (Machine.Run.init.next rfl).next rfl
    have hunpacks : ∀ x ∈ ([] ++ [(Db.empty, .insertSqueak 1000000 Sample.squeak ⟨4200⟩)] ++
        [((Statement.insertSqueak (L := Sample.squeaklib) 1000000 Sample.squeak ⟨4200⟩).commit .empty,
          .insertReceivedOffer 1000000 (Sample.unpacked nonce))] : List (Db × Statement Sample.squeaklib)),
        x.2.Unpacks (Sample.node 1) := by
      intro y hy now o heq
      rcases List.mem_append.1 hy with hy | hy <;> cases List.mem_singleton.1 hy <;> cases heq
      exact ⟨Sample.squeak, Sample.peerOffer nonce, Sample.peer, Sample.buyer [], rfl⟩
    -- the key is the difference of the scalars
    obtain ⟨hlt, hkey, hpoint, hcheck⟩ := Sample.keyFrom hx
    have hseven : Sample.squeaklib.scalarFromBytes (Sample.scalarToBytes 7) = .ok 7 :=
      Sample.scalarLaws.fromBytes 7 (by decide)
    have hnonce : Sample.squeaklib.scalarFromBytes (Sample.scalarToBytes nonce) = .ok nonce :=
      Sample.scalarLaws.fromBytes nonce hlt
    have hrec : Recordable Sample.squeaklib (Sample.offered nonce).db
        { Sample.unpacked nonce with receivedOfferId := some 1 } (Sample.scalarToBytes 7) := by
      refine ⟨⟨7, nonce, [2, UInt8.ofNat (7 - nonce)], hseven, hnonce, ?_⟩, fun r hr => by cases hr⟩
      rw [hkey]
      exact hpoint
    obtain ⟨squeak, sent, hs, -, hflag⟩ := valid_flag_truthful Sample.codecLaws Sample.keyLaws Sample.checkLaw
      (Sample.node 1) hrun hunpacks ho hpaid hrec rfl
    obtain rfl : Sample.squeak = squeak := Except.ok.inj ((Sample.codecLaws.squeak Sample.squeak).symm.trans hs)
    refine ⟨_, sent, ho, hflag, ?_⟩
    have hsent : sent.secretKey = Sample.scalarToBytes (7 - nonce) := by
      have hsub : SecretKeys.subtractTweak Sample.squeaklib (Sample.scalarToBytes 7) (Sample.scalarToBytes nonce) =
          .ok (Sample.scalarToBytes (7 - nonce)) := by
        unfold SecretKeys.subtractTweak
        rw [hseven, hnonce, ← hkey]
        rfl
      exact Except.ok.inj (hflag.key.symm.trans hsub)
    rw [Bool.eq_iff_iff, hflag.valid, hsent]
    exact hcheck
  exact ⟨hpaid (2, true) (List.mem_cons_self ..), hpaid (3, false) (List.mem_cons_of_mem _ (List.mem_cons_self ..))⟩

end Squeaknode
