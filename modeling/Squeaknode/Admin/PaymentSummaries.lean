/-
The summaries of the payments, of all of them, of those for a squeak, and of those for the squeaks of a
public key. Each is an aggregate query with its own joins and filters; the lists of the payments are other
queries.
-/
import Squeaknode.Admin.Messages
import Squeaknode.Db.TimeQueries
import Squeaknode.Node.Sample
import Mathlib.Algebra.BigOperators.Group.List.Basic

namespace Squeaknode

open Relational

namespace SqueakDb

/-! ## The queries -/

/-- SELECT sum(price_msat): NULL over no rows. -/
def sumPrice {α : Type} (priceMsat : α → Int) : List α → Option Int
  | [] => none
  | rows => some (rows.map priceMsat).sum

/-- The rows of payments LEFT OUTER JOIN squeaks WHERE squeak.author_public_key = publicKey. -/
def joinForPubkey {α : Type} (squeakHash : α → Bytes) (publicKey : Bytes) (payments : List α) (squeaks : List SqueakRow) :
    List (α × Option SqueakRow) :=
  (leftOuterJoin (fun p s => s.hash == squeakHash p) payments squeaks).filter fun x =>
    x.2.any fun s => s.authorPublicKey == publicKey

def getReceivedPaymentSummaryForSqueak (squeakHash : Bytes) (db : Db) : ReceivedPaymentSummary :=
  let rows := db.receivedPayments.rows.filter fun r => r.squeakHash == squeakHash
  ⟨rows.length, sumPrice ReceivedPaymentRow.priceMsat rows⟩

def getReceivedPaymentSummaryForPubkey {L : Squeaklib} (publicKey : L.PublicKey) (db : Db) : ReceivedPaymentSummary :=
  let rows := joinForPubkey ReceivedPaymentRow.squeakHash (L.publicKeyToBytes publicKey) db.receivedPayments.rows db.squeaks
  ⟨rows.length, sumPrice (fun x => x.1.priceMsat) rows⟩

def getSentPaymentSummary (db : Db) : SentPaymentSummary :=
  ⟨db.sentPayments.rows.length, sumPrice SentPaymentRow.priceMsat db.sentPayments.rows⟩

def getSentPaymentSummaryForSqueak (squeakHash : Bytes) (db : Db) : SentPaymentSummary :=
  let rows := db.sentPayments.rows.filter fun r => r.squeakHash == squeakHash
  ⟨rows.length, sumPrice SentPaymentRow.priceMsat rows⟩

def getSentPaymentSummaryForPubkey {L : Squeaklib} (publicKey : L.PublicKey) (db : Db) : SentPaymentSummary :=
  let rows := joinForPubkey SentPaymentRow.squeakHash (L.publicKeyToBytes publicKey) db.sentPayments.rows db.squeaks
  ⟨rows.length, sumPrice (fun x => x.1.priceMsat) rows⟩

end SqueakDb

namespace SqueakAdminPb2

structure PaymentSummary where
  numReceivedPayments : Int
  numSentPayments : Int
  amountEarnedMsat : Int
  amountSpentMsat : Int
  deriving DecidableEq, Repr

/-- A field that is given `None` keeps its default. -/
def optional (field : Int → Except Err Int) : Option Int → Except Err Int
  | none => .ok 0
  | some n => field n

end SqueakAdminPb2

open SqueakAdminPb2 (int32 int64 optional ranged_ok)
open SqueakDb

def paymentSummaryToMessage (receivedPaymentSummary : ReceivedPaymentSummary) (sentPaymentSummary : SentPaymentSummary) :
    Except Err SqueakAdminPb2.PaymentSummary := do
  let numReceivedPayments ← int32 receivedPaymentSummary.numReceivedPayments
  let numSentPayments ← int32 sentPaymentSummary.numSentPayments
  let amountEarnedMsat ← optional int64 receivedPaymentSummary.totalAmountReceivedMsat
  let amountSpentMsat ← optional int64 sentPaymentSummary.totalAmountSentMsat
  return ⟨numReceivedPayments, numSentPayments, amountEarnedMsat, amountSpentMsat⟩

/-! ## Which payments -/

/-- What the lists and the summaries are restricted to. -/
inductive PaymentScope (L : Squeaklib) where
  | all
  | forSqueak (squeakHash : Bytes)
  | forPubkey (publicKey : L.PublicKey)

namespace PaymentScope

variable {L : Squeaklib}

def getSentPayments : PaymentScope L → Nat → Int → Option SentPayment → Db → List SentPayment
  | all => SqueakDb.getSentPayments
  | forSqueak squeakHash => getSentPaymentsForSqueak squeakHash
  | forPubkey publicKey => getSentPaymentsForPubkey publicKey

def getReceivedPayments : PaymentScope L → Nat → Int → Option ReceivedPayment → Db → List ReceivedPayment
  | all => SqueakDb.getReceivedPayments
  | forSqueak squeakHash => getReceivedPaymentsForSqueak squeakHash
  | forPubkey publicKey => getReceivedPaymentsForPubkey publicKey

def getSentPaymentSummary : PaymentScope L → Db → SentPaymentSummary
  | all => SqueakDb.getSentPaymentSummary
  | forSqueak squeakHash => getSentPaymentSummaryForSqueak squeakHash
  | forPubkey publicKey => getSentPaymentSummaryForPubkey publicKey

def getReceivedPaymentSummary : PaymentScope L → Db → ReceivedPaymentSummary
  | all => SqueakDb.getReceivedPaymentSummary
  | forSqueak squeakHash => getReceivedPaymentSummaryForSqueak squeakHash
  | forPubkey publicKey => getReceivedPaymentSummaryForPubkey publicKey

/-- The rows that a list of the scope selects from. -/
def sentRows : PaymentScope L → Db → List SentPaymentRow
  | all => sentPayments
  | forSqueak squeakHash => sentPaymentsForSqueak squeakHash
  | forPubkey publicKey => sentPaymentsForPubkey publicKey

/-- The rows that a summary is about. -/
def receivedRows : PaymentScope L → Db → List ReceivedPaymentRow
  | all => receivedPayments
  | forSqueak squeakHash => receivedPaymentsForSqueak squeakHash
  | forPubkey publicKey => receivedPaymentsForPubkey publicKey

theorem getSentPayments_eq (scope : PaymentScope L) : scope.getSentPayments = selectSentPayments scope.sentRows := by
  cases scope <;> rfl

theorem getReceivedPayments_eq (scope : PaymentScope L) :
    scope.getReceivedPayments = selectReceivedPayments scope.receivedRows := by
  cases scope <;> rfl

/-- The prices of the join are those of its payments. -/
theorem sumPrice_map {α β : Type} (f : β → α) (priceMsat : α → Int) (rows : List β) :
    sumPrice (fun x => priceMsat (f x)) rows = sumPrice priceMsat (rows.map f) := by
  cases rows with
  | nil => rfl
  | cons x rows =>
    show some (List.map _ (x :: rows)).sum = some (((x :: rows).map f).map priceMsat).sum
    rw [List.map_map]
    rfl

/-- A summary is the aggregate over the rows of its list. -/
theorem getSentPaymentSummary_eq (scope : PaymentScope L) (db : Db) :
    scope.getSentPaymentSummary db =
      ⟨(scope.sentRows db).length, sumPrice SentPaymentRow.priceMsat (scope.sentRows db)⟩ := by
  cases scope with
  | all => rfl
  | forSqueak squeakHash => rfl
  | forPubkey publicKey =>
    have hrows : sentPaymentsForPubkey publicKey db =
        (joinForPubkey SentPaymentRow.squeakHash (L.publicKeyToBytes publicKey)
        db.sentPayments.rows db.squeaks).map Prod.fst := rfl
    show getSentPaymentSummaryForPubkey publicKey db =
      ⟨(sentPaymentsForPubkey publicKey db).length, sumPrice _ (sentPaymentsForPubkey publicKey db)⟩
    rw [hrows, List.length_map, ← sumPrice_map]
    rfl

theorem getReceivedPaymentSummary_eq (scope : PaymentScope L) (db : Db) :
    scope.getReceivedPaymentSummary db =
      ⟨(scope.receivedRows db).length, sumPrice ReceivedPaymentRow.priceMsat (scope.receivedRows db)⟩ := by
  cases scope with
  | all =>
    show SqueakDb.getReceivedPaymentSummary db = ⟨db.receivedPayments.rows.length, sumPrice _ db.receivedPayments.rows⟩
    unfold SqueakDb.getReceivedPaymentSummary
    cases db.receivedPayments.rows <;> rfl
  | forSqueak squeakHash => rfl
  | forPubkey publicKey =>
    have hrows : receivedPaymentsForPubkey publicKey db =
        (joinForPubkey ReceivedPaymentRow.squeakHash (L.publicKeyToBytes publicKey) db.receivedPayments.rows
          db.squeaks).map Prod.fst := rfl
    show getReceivedPaymentSummaryForPubkey publicKey db =
      ⟨(receivedPaymentsForPubkey publicKey db).length, sumPrice _ (receivedPaymentsForPubkey publicKey db)⟩
    rw [hrows, List.length_map, ← sumPrice_map]
    rfl

/-! ## The lists, read to the end -/

/-- Payments whose hashes are unique, of at most 32 bytes, and not `MAX_HASH`, and whose dates are not later
than `now`. -/
structure Dated {α : Type} (createdTimeMs : α → Int) (paymentHash : α → Bytes) (now : Int) (rows : List α) : Prop where
  unique : UniqueOn paymentHash rows
  past : ∀ r ∈ rows, createdTimeMs r ≤ now
  length : ∀ r ∈ rows, (paymentHash r).length ≤ 32
  proper : ∀ r ∈ rows, paymentHash r ≠ maxHash

theorem Dated.sublist {α : Type} {createdTimeMs : α → Int} {paymentHash : α → Bytes} {now : Int} {rows part : List α}
    (h : Dated createdTimeMs paymentHash now rows) (hsub : part.Sublist rows) :
    Dated createdTimeMs paymentHash now part where
  unique := h.unique.sublist (hsub.map paymentHash)
  past r hr := h.past r (hsub.subset hr)
  length r hr := h.length r (hsub.subset hr)
  proper r hr := h.proper r (hsub.subset hr)

/-- What the list of such payments has on its pages. -/
theorem Dated.pages {α ι : Type} {createdTimeMs : α → Int} {paymentHash : α → Bytes} {now : Int} {rows : List α}
    (h : Dated createdTimeMs paymentHash now rows) {parse : α → ι} {timeAndHash : ι → Option Int × Bytes}
    (hparse : ∀ r, timeAndHash (parse r) = (some (createdTimeMs r), paymentHash r)) {limit : Nat} (hlimit : 0 < limit) :
    ∃ items, items.Perm (rows.map parse) ∧ ∀ items', PagesThrough (fun last => (.ok ((selectPage
      (fun r => timeKey (some (createdTimeMs r)) (paymentHash r)) limit
        (timeCursor now (last.map timeAndHash)) rows).map parse) :
        Except Err (List ι))) limit none items' ↔ items' = items := by
  let key : α → TimeKey := fun r => timeKey (some (createdTimeMs r)) (paymentHash r)
  let cursor : Option ι → TimeKey := fun last => timeCursor now (last.map timeAndHash)
  let parsed : α → Except Err ι := fun r => .ok (parse r)
  let page : Option ι → Except Err (List ι) := fun last => .ok ((selectPage key limit (cursor last) rows).map parse)
  have hkeys : (rows.map key).Nodup :=
    List.pairwise_map.2 ((List.pairwise_map.1 h.unique).imp fun hne heq => hne (timeKey_inj heq).2)
  have hbelow : ∀ r ∈ rows, key r < cursor none := fun r hr =>
    timeKey_lt (h.past r hr) (lt_maxHash (h.length r hr) (h.proper r hr))
  have hparsed : ∀ r, parsed r = .ok (parse r) := fun _ => rfl
  have hcursor : ∀ r, cursor (some (parse r)) = key r := by
    intro r
    show timeKey (timeAndHash (parse r)).1 (timeAndHash (parse r)).2 = _
    rw [hparse]
  have hpage : ∀ last, page last = (selectPage key limit (cursor last) rows).mapM parsed :=
    fun last => (mapM_ok parse _).symm
  exact pagesThrough_all hlimit hkeys hbelow hparsed hcursor hpage

variable {scope : PaymentScope L} {db : Db}

/-- Hashes of squeaks are unique, so that the join with them repeats no payment. -/
theorem sentRows_sublist (h : UniqueOn SqueakRow.hash db.squeaks) :
    (scope.sentRows db).Sublist db.sentPayments.rows := by
  cases scope with
  | all => exact List.Sublist.refl _
  | forSqueak squeakHash => exact List.filter_sublist
  | forPubkey publicKey => exact forPubkey_sublist h

theorem receivedRows_sublist (h : UniqueOn SqueakRow.hash db.squeaks) :
    (scope.receivedRows db).Sublist db.receivedPayments.rows := by
  cases scope with
  | all => exact List.Sublist.refl _
  | forSqueak squeakHash => exact List.filter_sublist
  | forPubkey publicKey => exact forPubkey_sublist h

theorem sumPrice_perm {α ι : Type} {rows : List α} {items : List ι} {parse : α → ι} {ofRow : α → Int} {ofItem : ι → Int}
    (hprice : ∀ r, ofItem (parse r) = ofRow r) (hperm : items.Perm (rows.map parse)) :
    sumPrice ofRow rows = if items = [] then none else some (items.map ofItem).sum := by
  have hsum : (items.map ofItem).sum = (rows.map ofRow).sum := by
    rw [(hperm.map ofItem).sum_eq, List.map_map]
    exact congrArg List.sum (List.map_congr_left fun r _ => hprice r)
  cases rows with
  | nil =>
    rw [if_pos hperm.eq_nil]
    rfl
  | cons r rows =>
    have hne : items ≠ [] := fun hnil => by
      rw [hnil] at hperm
      exact absurd hperm.length_eq (by simp)
    rw [if_neg hne, hsum]
    rfl

/-- A summary is that of the payments that were listed. -/
structure Summarizes (sent : List SentPayment) (received : List ReceivedPayment) (sentSummary : SentPaymentSummary)
    (receivedSummary : ReceivedPaymentSummary) : Prop where
  numSent : sentSummary.numSentPayments = sent.length
  totalSent : sentSummary.totalAmountSentMsat = if sent = [] then none else some (sent.map SentPayment.priceMsat).sum
  numReceived : receivedSummary.numReceivedPayments = received.length
  totalReceived : receivedSummary.totalAmountReceivedMsat =
    if received = [] then none else some (received.map ReceivedPayment.priceMsat).sum
  /-- the message has the sums, which are 0 for empty lists -/
  message : ∀ msg, paymentSummaryToMessage receivedSummary sentSummary = .ok msg →
    msg = ⟨received.length, sent.length, (received.map ReceivedPayment.priceMsat).sum, (sent.map SentPayment.priceMsat).sum⟩
  empty : sent = [] → received = [] → paymentSummaryToMessage receivedSummary sentSummary = .ok ⟨0, 0, 0, 0⟩

theorem optional_ok {ι : Type} {priceMsat : ι → Int} {items : List ι} {total : Option Int} {n : Int}
    (htotal : total = if items = [] then none else some (items.map priceMsat).sum) (h : optional int64 total = .ok n) :
    n = (items.map priceMsat).sum := by
  by_cases hempty : items = []
  · rw [htotal, if_pos hempty] at h
    cases h
    rw [hempty]
    rfl
  · rw [htotal, if_neg hempty] at h
    exact ranged_ok h

/-- The message of summaries with the counts and the sums of two lists. -/
theorem summarizes_of {sent : List SentPayment} {received : List ReceivedPayment} {sentSummary : SentPaymentSummary}
    {receivedSummary : ReceivedPaymentSummary} (hnumSent : sentSummary.numSentPayments = sent.length)
    (htotalSent : sentSummary.totalAmountSentMsat = if sent = [] then none else some (sent.map SentPayment.priceMsat).sum)
    (hnumReceived : receivedSummary.numReceivedPayments = received.length)
    (htotalReceived : receivedSummary.totalAmountReceivedMsat =
      if received = [] then none else some (received.map ReceivedPayment.priceMsat).sum) :
    Summarizes sent received sentSummary receivedSummary := by
  refine ⟨hnumSent, htotalSent, hnumReceived, htotalReceived, fun msg hmsg => ?_, fun hsent hreceived => ?_⟩
  · obtain ⟨numReceived, hr, hmsg⟩ := ok_of_bind hmsg
    obtain ⟨numSent, hs, hmsg⟩ := ok_of_bind hmsg
    obtain ⟨earned, he, hmsg⟩ := ok_of_bind hmsg
    obtain ⟨spent, hp, hmsg⟩ := ok_of_bind hmsg
    cases hmsg
    rw [ranged_ok hr, ranged_ok hs, hnumReceived, hnumSent, optional_ok htotalReceived he, optional_ok htotalSent hp]
  · rw [hsent] at hnumSent htotalSent
    rw [hreceived] at hnumReceived htotalReceived
    unfold paymentSummaryToMessage
    rw [hnumSent, htotalSent, hnumReceived, htotalReceived]
    rfl

end PaymentScope

namespace Sample

/-- A payment of `n` thousand msats for a squeak. -/
def paymentFor (squeakHash : Bytes) (n : Nat) : SentPaymentRow where
  sentPaymentId := n
  createdTimeMs := 1000000 + n
  peerNetwork := .IPV4
  peerHost := "seller"
  peerPort := 8555
  squeakHash := squeakHash
  paymentHash := [n.toUInt8]
  secretKey := scalarToBytes 5
  priceMsat := 1000 * n
  nodePubkey := "seller"
  valid := true

/-- The node holds the squeak of the payments 1 and 2; that of the payment 3 has been deleted. -/
def ledger : Db :=
  { (owner (scalarToBytes 5) "x").db with
    sentPayments := ⟨[paymentFor squeak.val.reverse 1, paymentFor squeak.val.reverse 2, paymentFor [9] 3], 3⟩ }

/-- The author of the squeak that the node holds. -/
def authorScope : PaymentScope squeaklib := .forPubkey (1 : UInt8)

theorem dated_sent : PaymentScope.Dated SentPaymentRow.createdTimeMs SentPaymentRow.paymentHash 2000000
    ledger.sentPayments.rows := by
  refine ⟨by unfold UniqueOn; decide, by decide, by decide, by decide⟩

theorem dated_received : PaymentScope.Dated ReceivedPaymentRow.createdTimeMs ReceivedPaymentRow.paymentHash 2000000
    ledger.receivedPayments.rows := by
  refine ⟨List.nodup_nil, by decide, by decide, by decide⟩

end Sample

end Squeaknode
