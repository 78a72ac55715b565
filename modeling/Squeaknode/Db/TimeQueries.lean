/-
The lists that are ordered by time, latest first: the liked squeaks, and the sent and the received
payments, all of them, those for a squeak, or those for the squeaks of a public key. The first page
of such a list starts at the current time.
-/
import Squeaknode.Db.Entries
import Mathlib.Data.Int.ConditionallyCompleteOrder
import Mathlib.Order.WithBot

namespace Squeaknode

open Relational

namespace SqueakDb

/-! ## Keys and cursors -/

/-- (time, hash), compared from left to right. -/
abbrev TimeKey := WithBot Int ×ₗ Bytes

/-- Nothing is less than NULL: as the time of a cursor it is below every time. -/
def sqlTime (timeMs : Option Int) : WithBot Int := timeMs

def timeKey (timeMs : Option Int) (hash : Bytes) : TimeKey := toLex (sqlTime timeMs, hash)

theorem timeKey_inj {t t' : Option Int} {hash hash' : Bytes} (h : timeKey t hash = timeKey t' hash') :
    t = t' ∧ hash = hash' := by
  have hpair : (t, hash) = (t', hash') := h
  exact Prod.mk.inj hpair

theorem timeKey_le {t t' : Int} (h : t ≤ t') (hash : Bytes) : timeKey (some t) hash ≤ timeKey (some t') hash := by
  rcases h.lt_or_eq with hlt | rfl
  · exact (Prod.Lex.toLex_lt_toLex.2 (.inl (WithBot.coe_lt_coe.2 hlt))).le
  · exact le_rfl

/-- The cursor after the item with the time and the hash of `last`. -/
def timeCursor (now : Int) (last : Option (Option Int × Bytes)) : TimeKey :=
  last.elim (timeKey (some now) maxHash) fun x => timeKey x.1 x.2

theorem timeKey_lt {t t' : Int} {hash hash' : Bytes} (h : t ≤ t') (hhash : hash < hash') :
    timeKey (some t) hash < timeKey (some t') hash' := by
  rcases h.lt_or_eq with hlt | rfl
  · exact Prod.Lex.toLex_lt_toLex.2 (.inl (WithBot.coe_lt_coe.2 hlt))
  · exact Prod.Lex.toLex_lt_toLex.2 (.inr ⟨rfl, hhash⟩)

/-- A hash of at most 32 bytes other than `MAX_HASH` is below it. -/
theorem lt_maxHash {hash : Bytes} (hlength : hash.length ≤ 32) (hne : hash ≠ maxHash) : hash < maxHash := by
  have hbelow : ∀ (n : Nat) (bytes : Bytes), bytes.length ≤ n → bytes ≠ List.replicate n 0xff →
      bytes < List.replicate n (0xff : UInt8) := by
    intro n
    induction n with
    | zero =>
      intro bytes hle hne
      exact absurd (List.eq_nil_of_length_eq_zero (by omega)) hne
    | succ n ih =>
      intro bytes hle hne
      cases bytes with
      | nil => exact List.nil_lt_cons _ _
      | cons b bytes =>
        rw [List.replicate_succ] at hne ⊢
        rw [List.length_cons] at hle
        by_cases hb : b = 0xff
        · subst hb
          refine List.cons_lt_cons_iff.2 (.inr ⟨rfl, ih bytes (by omega) fun heq => hne ?_⟩)
          rw [heq]
        · refine List.cons_lt_cons_iff.2 (.inl ?_)
          have hle : b ≤ 0xff := by
            rw [UInt8.le_iff_toNat_le]
            have := b.toNat_lt
            exact Nat.le_of_lt_succ this
          exact lt_of_le_of_ne hle hb
  exact hbelow 32 hash hlength hne

/-! ## Liked squeaks -/

def likedKey (row : JoinedRow) : TimeKey := timeKey row.squeak.likedTimeMs row.squeak.hash

def squeakIsLiked (row : JoinedRow) : Bool := row.squeak.likedTimeMs.isSome

section Liked

variable (L : Squeaklib)

def SqueakEntry.likedTimeAndHash {L : Squeaklib} (e : SqueakEntry L) : Option Int × Bytes := (e.likedTimeMs, e.squeakHash)

def getLikedSqueakEntries (limit : Nat) (now : Int) (lastEntry : Option (SqueakEntry L)) (db : Db) :
    Except Err (List (SqueakEntry L)) :=
  (selectPage likedKey limit (timeCursor now (lastEntry.map SqueakEntry.likedTimeAndHash))
    ((joinProfiles db).filter squeakIsLiked)).mapM (parseSqueakEntry L)

end Liked

/-! ## Payments -/

def parseSentPayment (r : SentPaymentRow) : SentPayment where
  sentPaymentId := some r.sentPaymentId
  createdTimeMs := some r.createdTimeMs
  peerAddress := ⟨r.peerNetwork, r.peerHost, r.peerPort⟩
  squeakHash := r.squeakHash
  paymentHash := r.paymentHash
  secretKey := r.secretKey
  priceMsat := r.priceMsat
  nodePubkey := r.nodePubkey
  valid := r.valid

def parseReceivedPayment (r : ReceivedPaymentRow) : ReceivedPayment where
  receivedPaymentId := some r.receivedPaymentId
  createdTimeMs := some r.createdTimeMs
  squeakHash := r.squeakHash
  paymentHash := r.paymentHash
  priceMsat := r.priceMsat
  settleIndex := r.settleIndex
  peerAddress := ⟨r.peerNetwork, r.peerHost, r.peerPort⟩

def sentPaymentKey (r : SentPaymentRow) : TimeKey := timeKey (some r.createdTimeMs) r.paymentHash

def receivedPaymentKey (r : ReceivedPaymentRow) : TimeKey := timeKey (some r.createdTimeMs) r.paymentHash

/-- payments LEFT OUTER JOIN squeaks WHERE squeak.author_public_key = publicKey. -/
def forPubkey {α : Type} (squeakHash : α → Bytes) (publicKey : Bytes) (payments : List α) (squeaks : List SqueakRow) :
    List α :=
  ((leftOuterJoin (fun p s => s.hash == squeakHash p) payments squeaks).filter fun x =>
    x.2.any fun s => s.authorPublicKey == publicKey).map Prod.fst

/-- The hashes of squeaks are unique, so that the join repeats no payment. -/
theorem forPubkey_sublist {α : Type} {squeakHash : α → Bytes} {publicKey : Bytes} {payments : List α}
    {squeaks : List SqueakRow} (h : UniqueOn SqueakRow.hash squeaks) :
    (forPubkey squeakHash publicKey payments squeaks).Sublist payments := by
  have hjoin : leftOuterJoin (fun p s => s.hash == squeakHash p) payments squeaks =
      payments.map fun p => (p, squeaks.find? fun s => s.hash == squeakHash p) :=
    leftOuterJoin_eq_map fun p _ => length_filter_le_one h fun _ => eq_of_beq
  unfold forPubkey
  rw [hjoin]
  have hsub :=
    (List.filter_sublist (p := fun x : α × Option SqueakRow => x.2.any fun s => s.authorPublicKey == publicKey)
    (l := payments.map fun p => (p, squeaks.find? fun s => s.hash == squeakHash p))).map Prod.fst
  simpa [List.map_map, Function.comp_def] using hsub

theorem mem_forPubkey {α : Type} {squeakHash : α → Bytes} {publicKey : Bytes} {payments : List α}
    {squeaks : List SqueakRow} (h : UniqueOn SqueakRow.hash squeaks) {p : α} :
    p ∈ forPubkey squeakHash publicKey payments squeaks ↔
      p ∈ payments ∧ ∃ s ∈ squeaks, s.hash = squeakHash p ∧ s.authorPublicKey = publicKey := by
  have hjoin : leftOuterJoin (fun p s => s.hash == squeakHash p) payments squeaks =
      payments.map fun p => (p, squeaks.find? fun s => s.hash == squeakHash p) :=
    leftOuterJoin_eq_map fun p _ => length_filter_le_one h fun _ => eq_of_beq
  unfold forPubkey
  rw [hjoin, List.mem_map]
  constructor
  · rintro ⟨x, hx, rfl⟩
    obtain ⟨hx, hauthor⟩ := List.mem_filter.1 hx
    obtain ⟨p, hp, rfl⟩ := List.mem_map.1 hx
    obtain ⟨s, hs, hkey⟩ := (Option.any_eq_true _ _).1 hauthor
    have hs : squeaks.find? (fun s => s.hash == squeakHash p) = some s := hs
    have hhash := List.find?_some hs
    exact ⟨hp, s, List.mem_of_find?_eq_some hs, beq_iff_eq.1 hhash, beq_iff_eq.1 hkey⟩
  · rintro ⟨hp, s, hs, hhash, hkey⟩
    refine ⟨_, List.mem_filter.2 ⟨List.mem_map_of_mem hp, ?_⟩, rfl⟩
    show (squeaks.find? fun s => s.hash == squeakHash p).any (fun s => s.authorPublicKey == publicKey) = true
    rcases hfind : squeaks.find? (fun s => s.hash == squeakHash p) with _ | s'
    · exact absurd (beq_iff_eq.2 hhash) (List.find?_eq_none.1 hfind s hs)
    · have hhash' := List.find?_some hfind
      obtain rfl := h.eq (List.mem_of_find?_eq_some hfind) hs ((beq_iff_eq.1 hhash').trans hhash.symm)
      rw [hfind]
      exact beq_iff_eq.2 hkey

section Payments

def sentTimeAndHash (p : SentPayment) : Option Int × Bytes := (p.createdTimeMs, p.paymentHash)

def receivedTimeAndHash (p : ReceivedPayment) : Option Int × Bytes := (p.createdTimeMs, p.paymentHash)

/-- A page of the sent payments in `rows`. -/
def selectSentPayments (rows : Db → List SentPaymentRow) (limit : Nat) (now : Int) (lastSentPayment : Option SentPayment)
    (db : Db) : List SentPayment :=
  (selectPage sentPaymentKey limit (timeCursor now (lastSentPayment.map sentTimeAndHash)) (rows db)).map parseSentPayment

/-- A page of the received payments in `rows`. -/
def selectReceivedPayments (rows : Db → List ReceivedPaymentRow) (limit : Nat) (now : Int)
    (lastReceivedPayment : Option ReceivedPayment) (db : Db) : List ReceivedPayment :=
  (selectPage receivedPaymentKey limit (timeCursor now (lastReceivedPayment.map receivedTimeAndHash)) (rows db)).map
    parseReceivedPayment

def sentPayments (db : Db) : List SentPaymentRow := db.sentPayments.rows

def sentPaymentsForSqueak (squeakHash : Bytes) (db : Db) : List SentPaymentRow :=
  db.sentPayments.rows.filter fun r => r.squeakHash == squeakHash

def sentPaymentsForPubkey {L : Squeaklib} (publicKey : L.PublicKey) (db : Db) : List SentPaymentRow :=
  forPubkey SentPaymentRow.squeakHash (L.publicKeyToBytes publicKey) db.sentPayments.rows db.squeaks

def receivedPayments (db : Db) : List ReceivedPaymentRow := db.receivedPayments.rows

def receivedPaymentsForSqueak (squeakHash : Bytes) (db : Db) : List ReceivedPaymentRow :=
  db.receivedPayments.rows.filter fun r => r.squeakHash == squeakHash

def receivedPaymentsForPubkey {L : Squeaklib} (publicKey : L.PublicKey) (db : Db) : List ReceivedPaymentRow :=
  forPubkey ReceivedPaymentRow.squeakHash (L.publicKeyToBytes publicKey) db.receivedPayments.rows db.squeaks

def getSentPayments : Nat → Int → Option SentPayment → Db → List SentPayment := selectSentPayments sentPayments

def getSentPaymentsForSqueak (squeakHash : Bytes) : Nat → Int → Option SentPayment → Db → List SentPayment :=
  selectSentPayments (sentPaymentsForSqueak squeakHash)

def getSentPaymentsForPubkey {L : Squeaklib} (publicKey : L.PublicKey) :
    Nat → Int → Option SentPayment → Db → List SentPayment :=
  selectSentPayments (sentPaymentsForPubkey publicKey)

def getReceivedPayments : Nat → Int → Option ReceivedPayment → Db → List ReceivedPayment :=
  selectReceivedPayments receivedPayments

def getReceivedPaymentsForSqueak (squeakHash : Bytes) :
    Nat → Int → Option ReceivedPayment → Db → List ReceivedPayment :=
  selectReceivedPayments (receivedPaymentsForSqueak squeakHash)

def getReceivedPaymentsForPubkey {L : Squeaklib} (publicKey : L.PublicKey) :
    Nat → Int → Option ReceivedPayment → Db → List ReceivedPayment :=
  selectReceivedPayments (receivedPaymentsForPubkey publicKey)

end Payments

end SqueakDb

end Squeaknode
