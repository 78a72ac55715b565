/-
What is recorded of an outgoing payment. Once the lightning client has returned a preimage the
money is spent; the record of it is only written after the key has been computed from the preimage
and the nonce, and into a table with one row for each payment hash.
-/
import Squeaknode.Node.SqueakTable
import Squeaknode.Node.Sample

namespace Squeaknode

open Interleave Relational SqueakDb SqueakStore

variable {L : Squeaklib} {ρ : Type}

/-! ## Statements about payments -/

namespace SqueakDb

theorem insertSentPayment_of_taken {now : Int} {p : SentPayment} {db : Db}
    (h : ∃ r ∈ db.sentPayments.rows, r.paymentHash = p.paymentHash) :
    insertSentPayment now p db = (.error .integrityError, db) := by
  have ht : taken SentPaymentRow.paymentHash
      (sentPaymentRow now p (db.sentPayments.lastId + 1)).paymentHash db.sentPayments.rows = true := taken_iff.2 h
  simp [insertSentPayment, Table.insert_of_taken ht]

theorem insertSentPayment_of_free {now : Int} {p : SentPayment} {db : Db}
    (h : ∀ r ∈ db.sentPayments.rows, r.paymentHash ≠ p.paymentHash) :
    insertSentPayment now p db = (.ok (db.sentPayments.lastId + 1), { db with sentPayments :=
      ⟨db.sentPayments.rows ++ [sentPaymentRow now p (db.sentPayments.lastId + 1)],
        db.sentPayments.lastId + 1⟩ }) := by
  have ht : taken SentPaymentRow.paymentHash
      (sentPaymentRow now p (db.sentPayments.lastId + 1)).paymentHash db.sentPayments.rows = false :=
    taken_eq_false.2 h
  simp [insertSentPayment, Table.insert_of_free ht]

/-- An offer looked up by its id is found paid after its payment hash was marked. -/
theorem getReceivedOffer_setReceivedOfferPaid {id : Nat} {o : ReceivedOffer} {db : Db}
    (h : getReceivedOffer id db = some o) :
    getReceivedOffer id (setReceivedOfferPaid o.paymentHash true db) = some { o with paid := true } := by
  obtain ⟨r, hr, rfl⟩ := Option.map_eq_some_iff.1 h
  have hfind : findBy ReceivedOfferRow.receivedOfferId id
      (setReceivedOfferPaid r.paymentHash true db).receivedOffers.rows = some { r with paid := true } := by
    have hid : ∀ s : ReceivedOfferRow, { s with paid := true }.receivedOfferId = s.receivedOfferId := fun _ => rfl
    unfold setReceivedOfferPaid
    rw [Table.update_rows, findBy_updateWhere hid, hr]
    simp
  show (findBy _ _ _).map _ = _
  rw [show (parseReceivedOffer r).paymentHash = r.paymentHash from rfl, hfind]
  rfl

end SqueakDb

/-! ## Running the program -/

/-- Nothing but the squeak table differs. -/
def OnlySqueaks (w w' : World ρ) : Prop :=
  w'.db = { w.db with squeaks := w'.db.squeaks }

theorem onlySqueaks_saveSecretKey (squeakHash secretKey : Bytes) (w : World ρ) :
    OnlySqueaks w ((saveSecretKey L squeakHash secretKey).run w).2 := by
  have hw : (saveSecretKey L squeakHash secretKey : NodeM ρ _).Respects OnlySqueaks :=
    within_saveSecretKey (fun _ => rfl) (fun _ _ _ => rfl) (fun _ _ _ => rfl) squeakHash secretKey
  refine Prog.Respects.run hw (fun _ => rfl) (fun h₁ h₂ => ?_) w
  unfold OnlySqueaks at *
  rw [h₂, h₁]

/-- The steps of `pay_offer` after the payment: record it, mark the offer, save the key. -/
def recordPayment (N : Node L ρ) (o : ReceivedOffer) (sentPayment : SentPayment) : NodeM ρ Nat := do
  let sentPaymentId ← saveSentPayment N sentPayment
  update (setReceivedOfferPaid sentPayment.paymentHash true)
  saveSecretKey L o.squeakHash sentPayment.secretKey
  return sentPaymentId

/-- The preimage that the lightning client returns for the offer, if it returns one. -/
def preimageOf (N : Node L ρ) (o : ReceivedOffer) (w : World ρ) : Option Bytes :=
  match (N.lightningClient.payInvoice o.paymentRequest w.env).1 with
  | .error _ => none
  | .ok payment => if payment.paymentPreimage = [] then none else some payment.paymentPreimage

/-- The world after the lightning client was asked to pay. -/
def afterPay (N : Node L ρ) (o : ReceivedOffer) (w : World ρ) : World ρ :=
  { w with env := (N.lightningClient.payInvoice o.paymentRequest w.env).2 }

theorem run_corePayOffer_unpaid {N : Node L ρ} {o : ReceivedOffer} {w : World ρ} (h : preimageOf N o w = none) :
    ∃ e, (SqueakCore.payOffer N o).run w = (.error e, afterPay N o w) := by
  unfold SqueakCore.payOffer afterPay
  unfold preimageOf at h
  rw [Prog.run_bind, run_call]
  cases hanswer : (N.lightningClient.payInvoice o.paymentRequest w.env).1 with
  | error e => exact ⟨e, rfl⟩
  | ok payment =>
    simp only [hanswer, ite_eq_left_iff, reduceCtorEq, imp_false, not_not] at h
    exact ⟨_, by simp only [h, if_true]; rfl⟩

theorem run_corePayOffer_paid {N : Node L ρ} {o : ReceivedOffer} {w : World ρ} {preimage : Bytes}
    (h : preimageOf N o w = some preimage) :
    (SqueakCore.payOffer N o).run w = (SqueakCore.sentPaymentOf (L := L) o preimage, afterPay N o w) := by
  unfold SqueakCore.payOffer afterPay
  unfold preimageOf at h
  rw [Prog.run_bind, run_call]
  cases hanswer : (N.lightningClient.payInvoice o.paymentRequest w.env).1 with
  | error e => rw [hanswer] at h; cases h
  | ok payment =>
    rw [hanswer] at h
    by_cases hempty : payment.paymentPreimage = []
    · simp [hempty] at h
    · simp only [hempty, if_false, Option.some.injEq] at h
      subst h
      simp only [hempty, if_false, Prog.run_ofExcept]

theorem run_payOffer (N : Node L ρ) {id : Nat} {o : ReceivedOffer} {w : World ρ}
    (ho : getReceivedOffer id w.db = some o) :
    (payOffer N id).run w = (SqueakCore.payOffer N o >>= recordPayment N o).run w := by
  unfold payOffer payOfferWith
  rw [Prog.run_bind, run_query, ho]
  rfl

/-! ## Accounting for a payment -/

/-- A row about this payment of `o` was added to the sent payments, and the offer is marked paid. -/
structure Recorded (id : Nat) (o : ReceivedOffer) (db db' : Db) : Prop where
  row : ∃ r, db'.sentPayments.rows = db.sentPayments.rows ++ [r] ∧ r.squeakHash = o.squeakHash ∧
    r.paymentHash = o.paymentHash ∧ r.priceMsat = o.priceMsat ∧
    (⟨r.peerNetwork, r.peerHost, r.peerPort⟩ : PeerAddress) = o.peerAddress
  paid : getReceivedOffer id db' = some { o with paid := true }

/-- Without a preimage the call raises and changes no table; with one, the payment is recorded
whether the call returns or raises. -/
structure PaymentAccounted (N : Node L ρ) (id : Nat) (o : ReceivedOffer) (w : World ρ) : Prop where
  unpaid : preimageOf N o w = none →
    (∃ e, ((payOffer N id).run w).1 = .error e) ∧ ((payOffer N id).run w).2.db = w.db
  paid : ∀ preimage, preimageOf N o w = some preimage → Recorded id o w.db ((payOffer N id).run w).2.db

/-- The preimage and the nonce are scalars, their difference has a payment point, and no sent
payment has the offer's payment hash. -/
structure Recordable (L : Squeaklib) (db : Db) (o : ReceivedOffer) (preimage : Bytes) : Prop where
  key : ∃ x y point, L.scalarFromBytes preimage = .ok x ∧ L.scalarFromBytes o.nonce = .ok y ∧
    L.paymentPointBytesFromScalarBytes (L.scalarToBytes (L.scalarDifference x y)) = .ok point
  fresh : ∀ r ∈ db.sentPayments.rows, r.paymentHash ≠ o.paymentHash

theorem sentPaymentOf_ok {o : ReceivedOffer} {preimage : Bytes} {p : SentPayment}
    (h : SqueakCore.sentPaymentOf (L := L) o preimage = .ok p) : p.squeakHash = o.squeakHash ∧
      p.paymentHash = o.paymentHash ∧ p.priceMsat = o.priceMsat ∧ p.peerAddress = o.peerAddress := by
  unfold SqueakCore.sentPaymentOf at h
  cases hs : SecretKeys.subtractTweak L preimage o.nonce with
  | error e => rw [hs] at h; cases h
  | ok secretKey =>
    rw [hs] at h
    change (L.paymentPointBytesFromScalarBytes secretKey >>= _) = _ at h
    cases hp : L.paymentPointBytesFromScalarBytes secretKey with
    | error e => rw [hp] at h; cases h
    | ok point => rw [hp] at h; cases h; exact ⟨rfl, rfl, rfl, rfl⟩

theorem sentPaymentOf_isOk {o : ReceivedOffer} {preimage : Bytes} :
    (∃ p, SqueakCore.sentPaymentOf (L := L) o preimage = .ok p) ↔
      ∃ x y point, L.scalarFromBytes preimage = .ok x ∧ L.scalarFromBytes o.nonce = .ok y ∧
        L.paymentPointBytesFromScalarBytes (L.scalarToBytes (L.scalarDifference x y)) = .ok point := by
  unfold SqueakCore.sentPaymentOf SecretKeys.subtractTweak
  cases L.scalarFromBytes preimage with
  | error e => simp [bind, Except.bind]
  | ok x =>
    cases L.scalarFromBytes o.nonce with
    | error e => simp [bind, Except.bind]
    | ok y =>
      cases hp : L.paymentPointBytesFromScalarBytes (L.scalarToBytes (L.scalarDifference x y)) <;>
        simp [bind, Except.bind, pure, Except.pure, hp]

/-- The world after a payment was recorded and its offer marked. -/
def afterRecord (N : Node L ρ) (p : SentPayment) (w : World ρ) : World ρ where
  db := setReceivedOfferPaid p.paymentHash true (insertSentPayment (N.timestampNowMs w.env).1 p w.db).2
  env := (N.timestampNowMs w.env).2

theorem run_recordPayment_free (N : Node L ρ) (o : ReceivedOffer) {p : SentPayment} {w : World ρ}
    (hfree : ∀ r ∈ w.db.sentPayments.rows, r.paymentHash ≠ p.paymentHash) :
    (recordPayment N o p).run w =
      ((fun _ => w.db.sentPayments.lastId + 1) <$>
        ((saveSecretKey L o.squeakHash p.secretKey).run (afterRecord N p w)).1,
        ((saveSecretKey L o.squeakHash p.secretKey).run (afterRecord N p w)).2) := by
  have hsave : (saveSentPayment N p).run w = (.ok (w.db.sentPayments.lastId + 1),
      ⟨(insertSentPayment (N.timestampNowMs w.env).1 p w.db).2, (N.timestampNowMs w.env).2⟩) := by
    unfold saveSentPayment
    rw [Prog.run_bind, run_ask]
    simp only [Prog.run_bind, run_sql, Prog.run_ofExcept]
    rw [insertSentPayment_of_free hfree]
  unfold recordPayment
  rw [Prog.run_bind_of_ok hsave, Prog.run_bind, run_update]
  show ((saveSecretKey L o.squeakHash p.secretKey >>= fun _ => _).run (afterRecord N p w)) = _
  rw [Prog.run_bind]
  rcases (saveSecretKey L o.squeakHash p.secretKey).run (afterRecord N p w) with ⟨e | _, w'⟩ <;> rfl

/-- A payment with a free payment hash is recorded, whatever becomes of the key. -/
theorem recordPayment_free (N : Node L ρ) {id : Nat} {o : ReceivedOffer} {p : SentPayment}
    (hp : p.squeakHash = o.squeakHash ∧ p.paymentHash = o.paymentHash ∧ p.priceMsat = o.priceMsat ∧
      p.peerAddress = o.peerAddress) {w : World ρ} (ho : getReceivedOffer id w.db = some o)
    (hfree : ∀ r ∈ w.db.sentPayments.rows, r.paymentHash ≠ p.paymentHash) :
    Recorded id o w.db ((recordPayment N o p).run w).2.db := by
  obtain ⟨hsqueak, hhash, hprice, hpeer⟩ := hp
  have hend : Recorded id o w.db (afterRecord N p w).db := by
    unfold afterRecord
    rw [insertSentPayment_of_free hfree]
    refine ⟨⟨sentPaymentRow (N.timestampNowMs w.env).1 p (w.db.sentPayments.lastId + 1), rfl, hsqueak, hhash,
      hprice, hpeer⟩, ?_⟩
    rw [hhash]
    exact getReceivedOffer_setReceivedOfferPaid ho
  rw [run_recordPayment_free N o hfree]
  -- whatever the save of the key does, it leaves the payments and the offers alone
  rw [onlySqueaks_saveSecretKey (L := L) o.squeakHash p.secretKey (afterRecord N p w)]
  exact ⟨hend.row, hend.paid⟩

theorem recordPayment_taken (N : Node L ρ) {o : ReceivedOffer} {p : SentPayment} {w : World ρ}
    (htaken : ∃ r ∈ w.db.sentPayments.rows, r.paymentHash = p.paymentHash) :
    ((recordPayment N o p).run w).2.db = w.db := by
  unfold recordPayment saveSentPayment
  simp only [Prog.run_bind, run_ask, run_sql, insertSentPayment_of_taken htaken, Prog.run_ofExcept]

theorem not_recorded_self {id : Nat} {o : ReceivedOffer} {db : Db} : ¬ Recorded id o db db := by
  rintro ⟨⟨r, hr, -⟩, -⟩
  have hlen := congrArg List.length hr
  simp at hlen

/-- With a preimage, the payment is recorded exactly when it is recordable. -/
theorem recorded_iff (N : Node L ρ) {id : Nat} {o : ReceivedOffer} {w : World ρ} {preimage : Bytes}
    (ho : getReceivedOffer id w.db = some o) (hpre : preimageOf N o w = some preimage) :
    Recorded id o w.db ((payOffer N id).run w).2.db ↔ Recordable L w.db o preimage := by
  rw [run_payOffer N ho, Prog.run_bind, run_corePayOffer_paid hpre]
  cases hsent : SqueakCore.sentPaymentOf (L := L) o preimage with
  | error e =>
    refine ⟨fun h => absurd h not_recorded_self, fun h => ?_⟩
    obtain ⟨p, hp⟩ := sentPaymentOf_isOk.2 h.key
    rw [hsent] at hp; cases hp
  | ok p =>
    have hfields := sentPaymentOf_ok hsent
    by_cases hfree : ∀ r ∈ w.db.sentPayments.rows, r.paymentHash ≠ p.paymentHash
    · refine ⟨fun _ => ⟨sentPaymentOf_isOk.1 ⟨p, hsent⟩, ?_⟩, fun _ => ?_⟩
      · rw [← hfields.2.1]; exact hfree
      · exact recordPayment_free N (w := afterPay N o w) hfields ho hfree
    · refine ⟨fun h => ?_, fun h => absurd ?_ hfree⟩
      · push Not at hfree
        simp only [recordPayment_taken N (w := afterPay N o w) hfree] at h
        exact absurd h not_recorded_self
      · rw [hfields.2.1]; exact h.fresh

/-- Paying an offer of the database is accounted for if and only if a returned preimage and the
nonce give a key with a payment point and the payment hash is new among the sent payments. -/
theorem payOffer_accounted_iff (N : Node L ρ) {id : Nat} {o : ReceivedOffer} {w : World ρ}
    (ho : getReceivedOffer id w.db = some o) :
    PaymentAccounted N id o w ↔ ∀ preimage, preimageOf N o w = some preimage → Recordable L w.db o preimage := by
  constructor
  · intro h preimage hpre
    exact (recorded_iff N ho hpre).1 (h.paid preimage hpre)
  · intro h
    refine ⟨fun hnone => ?_, fun preimage hpre => (recorded_iff N ho hpre).2 (h preimage hpre)⟩
    obtain ⟨e, he⟩ := run_corePayOffer_unpaid hnone
    rw [run_payOffer N ho, Prog.run_bind_of_error he]
    exact ⟨⟨e, rfl⟩, rfl⟩

/-- A nonce other than the preimage: the payment is recorded. -/
theorem payOffer_accounted_sample :
    PaymentAccounted (Sample.node 1) 1 (parseReceivedOffer (Sample.offerRow (Sample.scalarToBytes 250)))
      (Sample.buyer (Sample.scalarToBytes 250)) := by
  refine (payOffer_accounted_iff (Sample.node 1) rfl).2 fun preimage hpre => ?_
  have hseven : preimageOf (Sample.node 1) (parseReceivedOffer (Sample.offerRow (Sample.scalarToBytes 250)))
      (Sample.buyer (Sample.scalarToBytes 250)) = some (Sample.scalarToBytes 7) := by decide +kernel
  rw [hseven] at hpre
  cases hpre
  have hx := Sample.scalarLaws.fromBytes 7 (by decide)
  have hy := Sample.scalarLaws.fromBytes 250 (by decide)
  exact ⟨⟨7, 250, [2, 8], hx, hy, rfl⟩, fun r hr => by cases hr⟩

/-- A seller whose nonce is the preimage: the buyer pays, and nothing is recorded. -/
theorem payOffer_unaccounted :
    getReceivedOffer 1 (Sample.buyer (Sample.scalarToBytes 7)).db =
      some (parseReceivedOffer (Sample.offerRow (Sample.scalarToBytes 7))) ∧
    preimageOf (Sample.node 1) (parseReceivedOffer (Sample.offerRow (Sample.scalarToBytes 7)))
      (Sample.buyer (Sample.scalarToBytes 7)) = some (Sample.scalarToBytes 7) ∧
    ¬ PaymentAccounted (Sample.node 1) 1 (parseReceivedOffer (Sample.offerRow (Sample.scalarToBytes 7)))
      (Sample.buyer (Sample.scalarToBytes 7)) := by
  have hpre : preimageOf (Sample.node 1) (parseReceivedOffer (Sample.offerRow (Sample.scalarToBytes 7)))
      (Sample.buyer (Sample.scalarToBytes 7)) = some (Sample.scalarToBytes 7) := by decide +kernel
  refine ⟨rfl, hpre, fun h => ?_⟩
  obtain ⟨⟨r, hr, -⟩, -⟩ := h.paid _ hpre
  have hnone :
      ((payOffer (Sample.node 1) 1).run (Sample.buyer (Sample.scalarToBytes 7))).2.db.sentPayments.rows = [] := by
    decide +kernel
  rw [hnone] at hr
  cases hr

end Squeaknode
