/-
`PaymentProcessor`: tasks that turn notifications of settled invoices into received payments. The
notifications are what the lightning client delivers to the successive subscriptions of a task:
any lists of invoices. However the statements of several tasks interleave, a payment is recorded
once and only once (`ExactlyRecorded`).
-/
import Squeaknode.Node.World
import Squeaknode.Node.Sample
import Mathlib.Algebra.BigOperators.Group.List.Basic

namespace Squeaknode

open Interleave Relational SqueakDb

namespace PaymentProcessor

variable {L : Squeaklib} {ρ : Type} (N : Node L ρ)

/-- The received payment for a settled invoice of a sent offer. -/
def receivedPaymentOf (sentOffer : SentOffer) (settleIndex : Int) : ReceivedPayment where
  receivedPaymentId := none
  createdTimeMs := none
  squeakHash := sentOffer.squeakHash
  paymentHash := sentOffer.paymentHash
  priceMsat := sentOffer.priceMsat
  settleIndex := settleIndex
  peerAddress := sentOffer.peerAddress

def handleReceivedPayment (receivedPayment : ReceivedPayment) : NodeM ρ Unit := do
  let now ← ask N.timestampNowMs
  let _ ← sql (insertReceivedPayment now receivedPayment)
  update (setSentOfferPaid receivedPayment.paymentHash true)

/-- One notification: the stream yields a payment if the invoice is settled and of a sent offer. -/
def processInvoice (invoice : Invoice) : NodeM ρ Unit :=
  if invoice.settled then do
    match ← query (getSentOfferByPaymentHash invoice.rHash) with
    | none => return ()
    | some sentOffer => handleReceivedPayment N (receivedPaymentOf sentOffer invoice.settleIndex)
  else return ()

/-- A task with the notifications that its successive subscriptions deliver. -/
def processSubscribedInvoices (subscriptions : List (List Invoice)) : NodeM ρ Unit :=
  subscriptions.forM fun notifications => do
    let _ ← query getLatestSettleIndex
    notifications.forM (processInvoice N)

/-- What runs on the payment tables: tasks, and the first statement of a reprocessing. -/
inductive Activity where
  | task (subscriptions : List (List Invoice))
  | clearReceivedPaymentSettleIndices

/-- The program of an activity. -/
def Activity.program : Activity → NodeM ρ Unit
  | task subscriptions => processSubscribedInvoices N subscriptions
  | clearReceivedPaymentSettleIndices => update SqueakDb.clearReceivedPaymentSettleIndices

/-- A notification of the activity says that the invoice with this payment hash is settled. -/
def Activity.settles (paymentHash : Bytes) : Activity → Bool
  | task subscriptions => subscriptions.any fun notifications =>
    notifications.any fun invoice => invoice.settled && invoice.rHash == paymentHash
  | clearReceivedPaymentSettleIndices => false

/-- The payment hashes that the activities are told to be settled. -/
def settledBy (activities : List Activity) (paymentHash : Bytes) : Bool :=
  activities.any (Activity.settles paymentHash)

/-! ## What is recorded of a sale -/

/-- A row of the received payments without its id, its creation time and its settle index. -/
structure Sale where
  squeakHash : Bytes
  paymentHash : Bytes
  priceMsat : Int
  peerAddress : PeerAddress
  deriving DecidableEq, Repr

/-- What a received payment records. -/
def saleOfPayment (r : ReceivedPaymentRow) : Sale :=
  ⟨r.squeakHash, r.paymentHash, r.priceMsat, r.peerNetwork, r.peerHost, r.peerPort⟩

/-- What a sent offer is sold for. -/
def saleOfOffer (o : SentOfferRow) : Sale :=
  ⟨o.squeakHash, o.paymentHash, o.priceMsat, o.peerNetwork, o.peerHost, o.peerPort⟩

/-- The sent offers after all settled ones were marked paid. -/
def markPaid (settled : Bytes → Bool) (offers : List SentOfferRow) : List SentOfferRow :=
  updateWhere (fun o => settled o.paymentHash) (fun o => { o with paid := true }) offers

/-- The offers of `offers` whose payment hash is settled. -/
def sold (settled : Bytes → Bool) (offers : List SentOfferRow) : List SentOfferRow :=
  offers.filter fun o => settled o.paymentHash

/-- The received payments are the sales of the settled offers, one row each; exactly these offers
were marked paid; the summary counts them and adds their prices. -/
structure ExactlyRecorded (settled : Bytes → Bool) (offers : List SentOfferRow) (db : Db) : Prop where
  payments : (db.receivedPayments.rows.map saleOfPayment).Perm ((sold settled offers).map saleOfOffer)
  sentOffers : db.sentOffers.rows = markPaid settled offers
  number : (getReceivedPaymentSummary db).numReceivedPayments = (sold settled offers).length
  total : (getReceivedPaymentSummary db).totalAmountReceivedMsat =
    if sold settled offers = [] then none else some ((sold settled offers).map SentOfferRow.priceMsat).sum

/-! ## The protocol of the payment tables -/

/-- A payment with this hash is recorded. -/
def RecordedHash (paymentHash : Bytes) (db : Db) : Prop :=
  ∃ r ∈ db.receivedPayments.rows, r.paymentHash = paymentHash

/-- Every offer with this payment hash is marked paid. -/
def MarkedPaid (paymentHash : Bytes) (db : Db) : Prop :=
  ∀ o ∈ db.sentOffers.rows, o.paymentHash = paymentHash → o.paid = true

/-- Only sales of settled offers are recorded, no payment hash twice, and only settled offers were
marked paid. -/
structure OnlySales (settled : Bytes → Bool) (offers : List SentOfferRow) (db : Db) : Prop where
  unique : UniqueOn ReceivedPaymentRow.paymentHash db.receivedPayments.rows
  sales : ∀ r ∈ db.receivedPayments.rows, ∃ o ∈ sold settled offers, saleOfPayment r = saleOfOffer o
  marked : ∃ marked : Bytes → Bool, (∀ h, marked h = true → settled h = true) ∧
    db.sentOffers.rows = markPaid marked offers

/-- What was recorded or marked stays so. -/
def KeepsRecords (db db' : Db) : Prop :=
  ∀ h, (RecordedHash h db → RecordedHash h db') ∧ (MarkedPaid h db → MarkedPaid h db')

/-- Nothing but settled offers is sold, and what is recorded stays. -/
def sales (settled : Bytes → Bool) (offers : List SentOfferRow) : Protocol (World ρ) Obs where
  inv v := OnlySales settled offers v.2.db
  moves v w := KeepsRecords v.2.db w.2.db
  refl _ _ := ⟨id, id⟩
  trans h₁ h₂ h := ⟨(h₂ h).1 ∘ (h₁ h).1, (h₂ h).2 ∘ (h₁ h).2⟩

/-- The payment tables stay as they are. -/
def SamePayments (w w' : World ρ) : Prop :=
  w'.db.sentOffers = w.db.sentOffers ∧ w'.db.receivedPayments = w.db.receivedPayments

section Statements

variable {settled : Bytes → Bool} {offers : List SentOfferRow} {db : Db}

theorem markPaid_insert (marked : Bytes → Bool) (h : Bytes) (offers : List SentOfferRow) :
    updateWhere (fun o => o.paymentHash == h) (fun o => { o with paid := true }) (markPaid marked offers) =
      markPaid (fun h' => marked h' || h' == h) offers := by
  unfold markPaid updateWhere
  rw [List.map_map]
  refine List.map_congr_left fun o _ => ?_
  simp only [Function.comp]
  cases hm : marked o.paymentHash <;> cases hh : o.paymentHash == h <;> simp [hh]

theorem onlySales_insertReceivedPayment (hi : OnlySales settled offers db) {o : SentOfferRow}
    (ho : o ∈ sold settled offers) {p : ReceivedPayment} (now : Int)
    (hp : ∀ id, saleOfPayment (receivedPaymentRow now p id) = saleOfOffer o) :
    OnlySales settled offers (insertReceivedPayment now p db).2 := by
  refine ⟨Table.uniqueOn_insert hi.unique, fun r hr => ?_, hi.marked⟩
  change r ∈ (db.receivedPayments.insert _ _).2.rows at hr
  rcases Table.mem_insert hr with hr | ⟨id, rfl⟩
  · exact hi.sales r hr
  · exact ⟨o, ho, hp id⟩

theorem recordedHash_insertReceivedPayment (now : Int) (p : ReceivedPayment) (db : Db) :
    RecordedHash p.paymentHash (insertReceivedPayment now p db).2 := by
  show ∃ r ∈ (db.receivedPayments.insert _ _).2.rows, _
  cases hfree : taken ReceivedPaymentRow.paymentHash
      (receivedPaymentRow now p (db.receivedPayments.lastId + 1)).paymentHash db.receivedPayments.rows with
  | true => rw [Table.insert_of_taken hfree]; exact taken_iff.1 hfree
  | false => rw [Table.insert_of_free hfree]; exact ⟨_, List.mem_append_right _ (List.mem_singleton.2 rfl), rfl⟩

theorem keepsRecords_insertReceivedPayment (now : Int) (p : ReceivedPayment) (db : Db) :
    KeepsRecords db (insertReceivedPayment now p db).2 := by
  refine fun h => ⟨?_, id⟩
  rintro ⟨r, hr, hh⟩
  exact ⟨r, (Table.prefix_insert _ _ _).subset hr, hh⟩

theorem onlySales_setSentOfferPaid (hi : OnlySales settled offers db) {h : Bytes} (hs : settled h = true) :
    OnlySales settled offers (setSentOfferPaid h true db) := by
  obtain ⟨marked, hm, hrows⟩ := hi.marked
  refine ⟨hi.unique, hi.sales, fun h' => marked h' || h' == h, fun h' hh => ?_, ?_⟩
  · rcases Bool.or_eq_true_iff.1 hh with hh | hh
    · exact hm h' hh
    · rw [beq_iff_eq.1 hh]; exact hs
  · show updateWhere _ _ db.sentOffers.rows = _
    rw [hrows]
    exact markPaid_insert marked h offers

theorem markedPaid_setSentOfferPaid (h : Bytes) (db : Db) : MarkedPaid h (setSentOfferPaid h true db) := by
  intro o ho hh
  obtain ⟨o', -, rfl⟩ := mem_updateWhere.1 ho
  split at hh
  · rename_i heq; rw [if_pos heq]
  · rename_i hne; exact absurd (by simpa using hh) (by simpa using hne)

theorem keepsRecords_setSentOfferPaid (h : Bytes) (db : Db) : KeepsRecords db (setSentOfferPaid h true db) := by
  refine fun h' => ⟨id, fun hmarked o ho hh => ?_⟩
  obtain ⟨o', ho', rfl⟩ := mem_updateWhere.1 ho
  split
  · rfl
  · rename_i hne
    rw [if_neg hne] at hh
    exact hmarked o' ho' hh

theorem onlySales_clear (hi : OnlySales settled offers db) :
    OnlySales settled offers (SqueakDb.clearReceivedPaymentSettleIndices db) := by
  refine ⟨uniqueOn_updateWhere (fun _ => rfl) hi.unique, fun r hr => ?_, hi.marked⟩
  obtain ⟨r', hr', rfl⟩ := mem_updateWhere.1 hr
  exact hi.sales r' hr'

theorem keepsRecords_clear (db : Db) : KeepsRecords db (SqueakDb.clearReceivedPaymentSettleIndices db) := by
  refine fun h => ⟨?_, id⟩
  rintro ⟨r, hr, hh⟩
  exact ⟨{ r with settleIndex := 0 }, mem_updateWhere.2 ⟨r, hr, rfl⟩, hh⟩

/-- A sent offer found by a settled payment hash is one of the sold offers. -/
theorem sold_of_getSentOffer (hi : OnlySales settled offers db) {h : Bytes} (hs : settled h = true) {so : SentOffer}
    (hget : getSentOfferByPaymentHash h db = some so) : so.paymentHash = h ∧ ∃ o ∈ sold settled offers,
      ∀ now index id, saleOfPayment (receivedPaymentRow now (receivedPaymentOf so index) id) = saleOfOffer o := by
  obtain ⟨o', hfind, rfl⟩ := Option.map_eq_some_iff.1 hget
  obtain ⟨hmem, hhash⟩ := findBy_some hfind
  obtain ⟨marked, -, hrows⟩ := hi.marked
  rw [hrows] at hmem
  obtain ⟨o, ho, rfl⟩ := mem_updateWhere.1 hmem
  have hhash' : o.paymentHash = h := by
    rw [← hhash]; split <;> rfl
  refine ⟨hhash, o, List.mem_filter.2 ⟨ho, by rw [hhash']; exact hs⟩, fun now index id => ?_⟩
  split <;> rfl

/-- A settled offer is found by its payment hash. -/
theorem getSentOffer_isSome (hi : OnlySales settled offers db) {o : SentOfferRow} (ho : o ∈ offers) :
    getSentOfferByPaymentHash o.paymentHash db ≠ none := by
  obtain ⟨marked, -, hrows⟩ := hi.marked
  intro hnone
  have hnone' := findBy_none.1 (Option.map_eq_none_iff.1 hnone)
  rw [hrows] at hnone'
  refine hnone' _ (mem_updateWhere.2 ⟨o, ho, rfl⟩) ?_
  split <;> rfl

end Statements

/-! ## Handling notifications -/

section Safe

variable {L : Squeaklib} {ρ : Type} {settled : Bytes → Bool} {offers : List SentOfferRow} {t : Nat}

/-- The sales of all offers that `told` selects are recorded and marked. -/
def Handled (told : Bytes → Bool) (offers : List SentOfferRow) (v : View (World ρ) Obs) : Prop :=
  ∀ o ∈ offers, told o.paymentHash = true → RecordedHash o.paymentHash v.2.db ∧ MarkedPaid o.paymentHash v.2.db

theorem Handled.moved {told : Bytes → Bool} (v w : View (World ρ) Obs) (hm : (sales settled offers).moves v w)
    (h : Handled told offers v) : Handled told offers w :=
  fun o ho ht => ⟨(hm _).1 (h o ho ht).1, (hm _).2 (h o ho ht).2⟩

theorem sales_allows : (sales settled offers : Protocol (World ρ) Obs).Allows fun w _ w' => SamePayments w w' := by
  rintro v t o w hi ⟨hoffers, hpayments⟩
  refine ⟨?_, fun h => ?_⟩
  · obtain ⟨hu, hs, hm⟩ := hi
    exact ⟨by rw [hpayments]; exact hu, by rw [hpayments]; exact hs, by rw [hoffers]; exact hm⟩
  · unfold RecordedHash MarkedPaid
    rw [hoffers, hpayments]
    exact ⟨id, id⟩

/-- Handling the payment of a sold offer records it and marks the offer. -/
theorem safe_handleReceivedPayment (N : Node L ρ) {p : ReceivedPayment} {o : SentOfferRow}
    (hsettled : settled p.paymentHash = true) (ho : o ∈ sold settled offers)
    (hp : ∀ now id, saleOfPayment (receivedPaymentRow now p id) = saleOfOffer o) (v : View (World ρ) Obs) :
    (handleReceivedPayment N p).Safe (sales settled offers) t
      (fun x w => x = .ok () ∧ RecordedHash p.paymentHash w.2.db ∧ MarkedPaid p.paymentHash w.2.db) v := by
  have hask : (ask N.timestampNowMs : NodeM ρ Int).Within fun w _ w' => SamePayments w w' :=
    within_ask fun w => ⟨rfl, rfl⟩
  have hsafe : (ask N.timestampNowMs).Safe (sales settled offers) t (fun x _ => ∃ now, x = .ok now) v := by
    intro v' _ hi
    obtain ⟨h₁, h₂⟩ := sales_allows v' t _ _ hi (hask.1 v'.2)
    exact ⟨h₁, h₂, _, rfl⟩
  refine Prog.safe_bind (Prog.safe_mono ?_ hsafe)
  rintro x v₁ ⟨now, rfl⟩
  refine Prog.safe_bind (Prog.safe_atomic fun v₂ _ hi => ⟨onlySales_insertReceivedPayment hi ho now (hp now),
    keepsRecords_insertReceivedPayment now p _, ?_⟩)
  have hrec := recordedHash_insertReceivedPayment now p v₂.2.db
  refine Prog.safe_atomic fun v₃ hm hi => ⟨onlySales_setSentOfferPaid hi hsettled,
    keepsRecords_setSentOfferPaid _ _, rfl, ?_, markedPaid_setSentOfferPaid _ _⟩
  exact ((keepsRecords_setSentOfferPaid p.paymentHash v₃.2.db) p.paymentHash).1 ((hm p.paymentHash).1 hrec)

theorem safe_processInvoice (N : Node L ρ) {invoice : Invoice}
    (hsettled : invoice.settled = true → settled invoice.rHash = true) (v : View (World ρ) Obs) :
    (processInvoice N invoice).Safe (sales settled offers) t
      (fun x w => x = .ok () ∧ Handled (fun h => invoice.settled && invoice.rHash == h) offers w) v := by
  unfold processInvoice
  cases hinv : invoice.settled with
  | false => exact ⟨rfl, fun o _ ht => by cases ht⟩
  | true =>
    have hs := hsettled hinv
    refine Prog.safe_bind (Prog.safe_atomic fun v₁ _ hi => ⟨hi, (sales settled offers).refl v₁, ?_⟩)
    show Prog.Safe _ _ _ (match getSentOfferByPaymentHash invoice.rHash v₁.2.db with
      | none => _
      | some sentOffer => _) _
    cases hget : getSentOfferByPaymentHash invoice.rHash v₁.2.db with
    | none =>
      refine ⟨rfl, fun o ho ht => ?_⟩
      have hhash : invoice.rHash = o.paymentHash := by simpa using ht
      exact absurd (hhash ▸ hget) (getSentOffer_isSome hi ho)
    | some so =>
      obtain ⟨hhash, o, ho, hsale⟩ := sold_of_getSentOffer hi hs hget
      have hs' : settled (receivedPaymentOf so invoice.settleIndex).paymentHash = true := by
        rw [show (receivedPaymentOf so invoice.settleIndex).paymentHash = so.paymentHash from rfl, hhash]; exact hs
      refine Prog.safe_mono ?_ (safe_handleReceivedPayment N hs' ho
        (fun now id => hsale now invoice.settleIndex id) _)
      rintro x w ⟨rfl, hrec⟩
      refine ⟨rfl, fun o' _ ht => ?_⟩
      have heq : so.paymentHash = o'.paymentHash := by simpa [hhash] using ht
      exact heq ▸ hrec

theorem safe_task (N : Node L ρ) {subscriptions : List (List Invoice)}
    (hsettled : ∀ h, (Activity.task subscriptions).settles h = true → settled h = true) (v : View (World ρ) Obs) :
    (processSubscribedInvoices N subscriptions).Safe (sales settled offers) t
      (fun x w => x = .ok () ∧ Handled (fun h => (Activity.task subscriptions).settles h) offers w) v := by
  let F (invoice : Invoice) : View (World ρ) Obs → Prop :=
    Handled (fun h => invoice.settled && invoice.rHash == h) offers
  have hinvoice : ∀ notifications ∈ subscriptions, ∀ invoice ∈ notifications, invoice.settled = true →
      settled invoice.rHash = true := by
    intro notifications hn invoice hi hs
    refine hsettled _ (List.any_eq_true.2 ⟨notifications, hn, List.any_eq_true.2 ⟨invoice, hi, ?_⟩⟩)
    simp [hs]
  have hall : (processSubscribedInvoices N subscriptions).Safe (sales settled offers) t
      (fun x w => x = .ok () ∧ ∀ notifications ∈ subscriptions, ∀ invoice ∈ notifications, F invoice w) v := by
    refine Prog.safe_forM (fun notifications v w hm h invoice hi => Handled.moved v w hm (h invoice hi))
      (fun notifications hn v => ?_) v
    refine Prog.safe_bind (Prog.safe_atomic fun v₁ _ hi => ⟨hi, (sales settled offers).refl v₁, ?_⟩)
    exact Prog.safe_forM (F := F) (fun invoice v w hm => Handled.moved v w hm)
      (fun invoice hi v => safe_processInvoice N (hinvoice notifications hn invoice hi) v) _
  refine Prog.safe_mono ?_ hall
  rintro x w ⟨rfl, h⟩
  refine ⟨rfl, fun o ho ht => ?_⟩
  obtain ⟨notifications, hn, hany⟩ := List.any_eq_true.1 ht
  obtain ⟨invoice, hi, hone⟩ := List.any_eq_true.1 hany
  exact h notifications hn invoice hi o ho hone

theorem safe_activity (N : Node L ρ) {a : Activity} (hsettled : ∀ h, a.settles h = true → settled h = true)
    (v : View (World ρ) Obs) : (a.program N).Safe (sales settled offers) t
      (fun _ w => Handled (fun h => a.settles h) offers w) v := by
  cases a with
  | task subscriptions =>
    refine Prog.safe_mono ?_ (safe_task N hsettled v)
    rintro x w ⟨-, h⟩
    exact h
  | clearReceivedPaymentSettleIndices =>
    exact Prog.safe_atomic fun v₁ _ hi => ⟨onlySales_clear hi, keepsRecords_clear _, fun o _ ht => by cases ht⟩

end Safe

/-! ## Exactly once -/

theorem markPaid_none (offers : List SentOfferRow) : markPaid (fun _ => false) offers = offers := by
  simp [markPaid, updateWhere]

/-- Where only sales are recorded and all of them are, they are exactly recorded. -/
theorem OnlySales.exactly {settled : Bytes → Bool} {offers : List SentOfferRow} {v : View (World ρ) Obs}
    (hi : OnlySales settled offers v.2.db) (hu : UniqueOn SentOfferRow.paymentHash offers)
    (hh : Handled settled offers v) : ExactlyRecorded settled offers v.2.db := by
  have hsold : ∀ o ∈ sold settled offers, o ∈ offers ∧ settled o.paymentHash = true :=
    fun o ho => List.mem_filter.1 ho
  have hperm : (v.2.db.receivedPayments.rows.map saleOfPayment).Perm ((sold settled offers).map saleOfOffer) := by
    refine (List.perm_ext_iff_of_nodup ?_ ?_).2 fun s => ?_
    · exact List.Nodup.of_map Sale.paymentHash (by rw [List.map_map]; exact hi.unique)
    · refine List.Nodup.of_map Sale.paymentHash ?_
      rw [List.map_map]
      exact List.Nodup.sublist (List.Sublist.map _ List.filter_sublist) hu
    · constructor
      · intro hs
        obtain ⟨r, hr, rfl⟩ := List.mem_map.1 hs
        obtain ⟨o, ho, heq⟩ := hi.sales r hr
        exact heq ▸ List.mem_map_of_mem ho
      · intro hs
        obtain ⟨o, ho, rfl⟩ := List.mem_map.1 hs
        obtain ⟨r, hr, hhash⟩ := (hh o (hsold o ho).1 (hsold o ho).2).1
        -- the row with this hash is the sale of an offer with this hash, which can only be `o`
        obtain ⟨o', ho', heq⟩ := hi.sales r hr
        have hhash' : o'.paymentHash = o.paymentHash :=
          (congrArg Sale.paymentHash heq).symm.trans hhash
        rw [← hu.eq (hsold o' ho').1 (hsold o ho).1 hhash', ← heq]
        exact List.mem_map_of_mem hr
  have hlen : v.2.db.receivedPayments.rows.length = (sold settled offers).length := by
    have h := hperm.length_eq
    rwa [List.length_map, List.length_map] at h
  refine ⟨hperm, ?_, hlen, ?_⟩
  · obtain ⟨marked, hm, hrows⟩ := hi.marked
    rw [hrows]
    refine List.map_congr_left fun o ho => ?_
    show (if marked o.paymentHash then _ else _) = if settled o.paymentHash then _ else _
    cases hs : settled o.paymentHash with
    | false =>
      cases hmo : marked o.paymentHash with
      | false => rfl
      | true => rw [hm _ hmo] at hs; cases hs
    | true =>
      cases hmo : marked o.paymentHash with
      | true => rfl
      | false =>
        -- an offer that was not marked was paid already
        have hin : o ∈ v.2.db.sentOffers.rows := by
          rw [hrows]
          exact mem_updateWhere.2 ⟨o, ho, by simp [hmo]⟩
        have hpaid : true = o.paid := ((hh o ho hs).2 o hin rfl).symm
        show o = { o with paid := true }
        rw [hpaid]
  · have hsum : (v.2.db.receivedPayments.rows.map ReceivedPaymentRow.priceMsat).sum =
        ((sold settled offers).map SentOfferRow.priceMsat).sum := by
      have h := (hperm.map Sale.priceMsat).sum_eq
      rwa [List.map_map, List.map_map] at h
    unfold getReceivedPaymentSummary
    cases hrows : v.2.db.receivedPayments.rows with
    | nil =>
      rw [hrows] at hlen
      rw [if_pos (List.length_eq_zero_iff.1 hlen.symm)]
    | cons r rs =>
      rw [hrows] at hlen hsum
      rw [if_neg (List.ne_nil_of_length_pos (by rw [← hlen]; simp)), ← hsum]

/-- What two outcomes have in common when they differ only in row ids, times and settle indices. -/
structure SameOutcome (db db' : Db) : Prop where
  payments : (db.receivedPayments.rows.map saleOfPayment).Perm (db'.receivedPayments.rows.map saleOfPayment)
  sentOffers : db.sentOffers.rows = db'.sentOffers.rows
  summary : getReceivedPaymentSummary db = getReceivedPaymentSummary db'

theorem ExactlyRecorded.sameOutcome {settled : Bytes → Bool} {offers : List SentOfferRow} {db db' : Db}
    (h : ExactlyRecorded settled offers db) (h' : ExactlyRecorded settled offers db') : SameOutcome db db' := by
  refine ⟨h.payments.trans h'.payments.symm, h.sentOffers.trans h'.sentOffers.symm, ?_⟩
  have hn := h.number.trans h'.number.symm
  have ht := h.total.trans h'.total.symm
  cases hs : getReceivedPaymentSummary db
  cases hs' : getReceivedPaymentSummary db'
  simp_all

/-- When all activities of a run have ended, what they were told to be settled is exactly recorded. -/
theorem exactlyRecorded_of_run (N : Node L ρ) (activities : List Activity) {w₀ : World ρ}
    (hempty : w₀.db.receivedPayments.rows = []) (hunique : UniqueOn SentOfferRow.paymentHash w₀.db.sentOffers.rows)
    {history : List (Pool (World ρ) Obs Err)} {P : Pool (World ρ) Obs Err}
    (hr : Pool.Run SamePayments (.start w₀ (activities.map (Activity.program N))) history P) (hdone : P.Done) :
    ExactlyRecorded (settledBy activities) w₀.db.sentOffers.rows P.shared.db := by
  let offers := w₀.db.sentOffers.rows
  let told (i : Nat) (h : Bytes) : Bool := (activities[i]?).any fun a => a.settles h
  have hstart : (Pool.start w₀ (activities.map (Activity.program N))).AllSafe
      (sales (settledBy activities) offers) fun i _ w => Handled (told i) offers w := by
    refine ⟨⟨?_, ?_, fun _ => false, fun h hf => by (cases hf), (markPaid_none _).symm⟩, fun i p hp => ?_⟩
    · show UniqueOn _ w₀.db.receivedPayments.rows
      rw [hempty]; exact List.nodup_nil
    · show ∀ r ∈ w₀.db.receivedPayments.rows, _
      rw [hempty]; intro r hr; cases hr
    · change (activities.map (Activity.program N))[i]? = some p at hp
      rw [List.getElem?_map] at hp
      obtain ⟨a, ha, rfl⟩ := Option.map_eq_some_iff.1 hp
      have hsettled : ∀ h, a.settles h = true → settledBy activities h = true := fun h hs =>
        List.any_eq_true.2 ⟨a, List.mem_of_getElem? ha, hs⟩
      have htold : told i = fun h => a.settles h := by
        funext h; simp [told, ha]
      rw [htold]
      exact safe_activity N hsettled _
  have henv : (sales (settledBy activities) offers : Protocol (World ρ) Obs).Ignores SamePayments :=
    sales_allows.ignores fun _ _ h => h
  have hstable : ∀ i (_ : Except Err Unit) (v w : View (World ρ) Obs),
      (sales (settledBy activities) offers).moves v w → Handled (told i) offers v → Handled (told i) offers w :=
    fun _ _ v w => Handled.moved v w
  have hall := (hr.allSafe henv hstable hstart).1
  refine OnlySales.exactly hall.inv hunique fun o ho hs => ?_
  obtain ⟨a, ha, has⟩ := List.any_eq_true.1 hs
  obtain ⟨i, hi, rfl⟩ := List.getElem_of_mem ha
  have hlt : i < P.threads.length := by
    rw [hr.length_threads]
    simpa [Pool.start] using hi
  obtain ⟨_, hh⟩ := hall.ended hdone hlt
  exact hh o ho (by simp [told, hi, has])

/-- Exactly-once recording: whatever the notifications, their order and multiplicity and the
interleaving, the payments of the settled invoices of sent offers are exactly recorded, and runs
that are told the same hashes end alike. -/
theorem payments_exactly_once (N : Node L ρ) (activities : List Activity) {w₀ : World ρ}
    (hempty : w₀.db.receivedPayments.rows = []) (hunique : UniqueOn SentOfferRow.paymentHash w₀.db.sentOffers.rows)
    {history : List (Pool (World ρ) Obs Err)} {P : Pool (World ρ) Obs Err}
    (hr : Pool.Run SamePayments (.start w₀ (activities.map (Activity.program N))) history P) (hdone : P.Done) :
    ExactlyRecorded (settledBy activities) w₀.db.sentOffers.rows P.shared.db ∧
      ∀ (activities' : List Activity) (history' : List (Pool (World ρ) Obs Err)) (P' : Pool (World ρ) Obs Err),
        settledBy activities' = settledBy activities →
        Pool.Run SamePayments (.start w₀ (activities'.map (Activity.program N))) history' P' → P'.Done →
        SameOutcome P.shared.db P'.shared.db := by
  have h := exactlyRecorded_of_run N activities hempty hunique hr hdone
  refine ⟨h, fun activities' history' P' hsettled hr' hdone' => h.sameOutcome ?_⟩
  have h' := exactlyRecorded_of_run N activities' hempty hunique hr' hdone'
  rwa [hsettled] at h'

/-- Two tasks and a reprocessing, with the same payment delivered three times. -/
theorem payments_exactly_once_sample : ∃ (history : List (Pool (World Sample.Outside) Obs Err))
    (P : Pool (World Sample.Outside) Obs Err), P.shared.db.receivedPayments.rows.length = 1 ∧
    ExactlyRecorded (settledBy [.task [[Sample.notification true]], .clearReceivedPaymentSettleIndices,
      .task [[Sample.notification false, Sample.notification true], [Sample.notification true]]])
      [Sample.sentOfferRow] P.shared.db ∧ Pool.Run SamePayments (.start Sample.seller
        ([.task [[Sample.notification true]], .clearReceivedPaymentSettleIndices,
          .task [[Sample.notification false, Sample.notification true], [Sample.notification true]]].map
          (Activity.program (Sample.node 1)))) history P := by
  let activities : List Activity := [.task [[Sample.notification true]], .clearReceivedPaymentSettleIndices,
    .task [[Sample.notification false, Sample.notification true], [Sample.notification true]]]
  obtain ⟨history, hr⟩ := Pool.Run.exec [0, 2, 0, 2, 0, 2, 1, 0, 2, 2, 0, 2, 2, 2, 2, 2]
    (.init : Pool.Run SamePayments (.start Sample.seller (activities.map (Activity.program (Sample.node 1)))) _ _)
  have hunique : UniqueOn SentOfferRow.paymentHash Sample.seller.db.sentOffers.rows := List.nodup_singleton _
  have hdone := Pool.done_of_ended (P := Pool.exec [0, 2, 0, 2, 0, 2, 1, 0, 2, 2, 0, 2, 2, 2, 2, 2]
    (.start Sample.seller (activities.map (Activity.program (Sample.node 1))))) (by decide +kernel)
  exact ⟨history, _, by decide +kernel,
    (payments_exactly_once (Sample.node 1) activities rfl hunique hr hdone).1, hr⟩

/-- With no payment the total is no number, so it is not the sum 0. -/
theorem no_payment_no_total : ∃ (history : List (Pool (World Sample.Outside) Obs Err))
    (P : Pool (World Sample.Outside) Obs Err),
    Pool.Run SamePayments (.start Sample.seller
      ([Activity.task [[Sample.notification false]]].map (Activity.program (Sample.node 1)))) history P ∧ P.Done ∧
    (getReceivedPaymentSummary P.shared.db).totalAmountReceivedMsat ≠
      some ((sold (settledBy [.task [[Sample.notification false]]]) [Sample.sentOfferRow]).map
        SentOfferRow.priceMsat).sum := by
  let activities : List Activity := [.task [[Sample.notification false]]]
  obtain ⟨history, hr⟩ := Pool.Run.exec [0]
    (.init : Pool.Run SamePayments (.start Sample.seller (activities.map (Activity.program (Sample.node 1)))) _ _)
  exact ⟨history, _, hr, Pool.done_of_ended (by decide +kernel), by decide +kernel⟩

end PaymentProcessor

end Squeaknode
