/-
The lists of the admin page that are ordered by time: the liked squeaks and the payments. The first
page starts at the current time, and the time of an item can change: a squeak that is unliked and
liked again comes back with a later one.

A statement is run with the time that its method read before. A like that read its time before the
last page was read would put its squeak below the cursor a second time; between the pages means that
it read it after.
-/
import Squeaknode.Admin.Feeds
import Squeaknode.Db.TimeQueries

namespace Squeaknode

open Interleave Relational SqueakDb
open SqueakAdminPb2 (SqueakDisplayEntry fits)

variable {L : Squeaklib} {ρ : Type}

/-! ## The handlers -/

section Handlers

variable (N : Node L ρ)

/-- The reply to a request: the clock is only read for the first page. -/
def sendList {ι μ : Type} (get : (now : Int) → Option ι → Db → Except Err (List ι)) (encode : ι → Except Err μ)
    (last : Option ι) : NodeM ρ (List μ) := do
  let now ← match last with
    | none => ask N.timestampNowMs
    | some _ => pure 0
  let items ← query (get now last) >>= Prog.ofExcept
  Prog.ofExcept (items.mapM encode)

def handleGetLikedSqueakDisplayEntries (defaultProfileImage : Bytes) (limit : Nat)
    (lastEntry : Option SqueakDisplayEntry) : NodeM ρ (List SqueakDisplayEntry) := do
  let lastEntry ← Prog.ofExcept (decodeLastEntry L lastEntry)
  sendList N (getLikedSqueakEntries L limit) (squeakEntryToMessage defaultProfileImage) lastEntry

def handleGetSentPayments (limit : Nat) (lastSentPayment : Option SqueakAdminPb2.SentPayment) :
    NodeM ρ (List SqueakAdminPb2.SentPayment) := do
  let lastSentPayment ← Prog.ofExcept (decodeLast messageToSentPayment lastSentPayment)
  sendList N (fun now last db => .ok (getSentPayments limit now last db)) sentPaymentToMessage lastSentPayment

def handleGetSentPaymentsForSqueak (squeakHash : String) (limit : Nat)
    (lastSentPayment : Option SqueakAdminPb2.SentPayment) : NodeM ρ (List SqueakAdminPb2.SentPayment) := do
  let squeakHash ← Prog.ofExcept (fromHex squeakHash)
  let lastSentPayment ← Prog.ofExcept (decodeLast messageToSentPayment lastSentPayment)
  sendList N (fun now last db => .ok (getSentPaymentsForSqueak squeakHash limit now last db)) sentPaymentToMessage
    lastSentPayment

def handleGetSentPaymentsForPubkey (pubkey : String) (limit : Nat)
    (lastSentPayment : Option SqueakAdminPb2.SentPayment) : NodeM ρ (List SqueakAdminPb2.SentPayment) := do
  let lastSentPayment ← Prog.ofExcept (decodeLast messageToSentPayment lastSentPayment)
  let publicKey ← Prog.ofExcept (fromHex pubkey >>= L.publicKeyFromBytes)
  sendList N (fun now last db => .ok (getSentPaymentsForPubkey publicKey limit now last db)) sentPaymentToMessage
    lastSentPayment

def handleGetReceivedPayments (limit : Nat) (lastReceivedPayment : Option SqueakAdminPb2.ReceivedPayment) :
    NodeM ρ (List SqueakAdminPb2.ReceivedPayment) := do
  let lastReceivedPayment ← Prog.ofExcept (decodeLast messageToReceivedPayment lastReceivedPayment)
  sendList N (fun now last db => .ok (getReceivedPayments limit now last db)) receivedPaymentToMessage
    lastReceivedPayment

def handleGetReceivedPaymentsForSqueak (squeakHash : String) (limit : Nat)
    (lastReceivedPayment : Option SqueakAdminPb2.ReceivedPayment) : NodeM ρ (List SqueakAdminPb2.ReceivedPayment) := do
  let squeakHash ← Prog.ofExcept (fromHex squeakHash)
  let lastReceivedPayment ← Prog.ofExcept (decodeLast messageToReceivedPayment lastReceivedPayment)
  sendList N (fun now last db => .ok (getReceivedPaymentsForSqueak squeakHash limit now last db))
    receivedPaymentToMessage lastReceivedPayment

def handleGetReceivedPaymentsForPubkey (pubkey : String) (limit : Nat)
    (lastReceivedPayment : Option SqueakAdminPb2.ReceivedPayment) : NodeM ρ (List SqueakAdminPb2.ReceivedPayment) := do
  let lastReceivedPayment ← Prog.ofExcept (decodeLast messageToReceivedPayment lastReceivedPayment)
  let publicKey ← Prog.ofExcept (fromHex pubkey >>= L.publicKeyFromBytes)
  sendList N (fun now last db => .ok (getReceivedPaymentsForPubkey publicKey limit now last db))
    receivedPaymentToMessage lastReceivedPayment

end Handlers

/-! ## The store and its clock -/

/-- The database with the clock that its time columns are read from. -/
structure TimedStore where
  db : Db
  nowMs : Int
  /-- the time at which the last page was read -/
  readMs : Option Int

namespace TimedStore

/-- What happens between two pages. -/
inductive Change (L : Squeaklib) where
  /-- time passes -/
  | tick (nowMs : Int)
  | run (statement : Statement L)

/-- The time of a statement was read from the clock, and that of a like after the last page was read. -/
def inTime (s : Statement L) (d : TimedStore) : Bool :=
  s.now.all (fun t => 0 < t && t ≤ d.nowMs) && s.likedAt.all fun t => d.readMs.all fun read => read ≤ t

/-- The clock never goes back. -/
def change : Change L → TimedStore → Option TimedStore
  | .tick nowMs, d => if d.nowMs ≤ nowMs then some { d with nowMs := nowMs } else none
  | .run s, d => if inTime s d then some { d with db := s.commit d.db } else none

/-- What a change can do to the store. -/
theorem change_cases {a : Change L} {d d' : TimedStore} (h : change a d = some d') :
    (∃ nowMs, d.nowMs ≤ nowMs ∧ d' = { d with nowMs := nowMs }) ∨
      ∃ s : Statement L, (∀ t, s.now = some t → 0 < t ∧ t ≤ d.nowMs) ∧
        (∀ t read, s.likedAt = some t → d.readMs = some read → read ≤ t) ∧ d' = { d with db := s.commit d.db } := by
  cases a with
  | tick nowMs =>
    simp only [change] at h
    split at h
    · rename_i hle
      exact .inl ⟨nowMs, hle, (Option.some.inj h).symm⟩
    · cases h
  | run s =>
    simp only [change] at h
    split at h
    · rename_i hin
      obtain ⟨hnow, hliked⟩ := (Bool.and_eq_true _ _).mp hin
      refine .inr ⟨s, fun t ht => ?_, fun t read ht hread => ?_, (Option.some.inj h).symm⟩
      · simpa [ht] using hnow
      · simpa [ht, hread] using hliked
    · cases h

end TimedStore

/-- What the lists rely on, with times that were read from the clock. -/
structure Timed (L : Squeaklib) (d : TimedStore) : Prop where
  listed : Listed L d.db
  clock : 0 < d.nowMs
  read : ∀ t, d.readMs = some t → t ≤ d.nowMs
  liked : ∀ r ∈ d.db.squeaks, ∀ t, r.likedTimeMs = some t → 0 < t ∧ t ≤ d.nowMs
  sentUnique : UniqueOn SentPaymentRow.paymentHash d.db.sentPayments.rows
  sent : ∀ r ∈ d.db.sentPayments.rows, 0 < r.createdTimeMs ∧ r.createdTimeMs ≤ d.nowMs
  receivedUnique : UniqueOn ReceivedPaymentRow.paymentHash d.db.receivedPayments.rows
  received : ∀ r ∈ d.db.receivedPayments.rows, 0 < r.createdTimeMs ∧ r.createdTimeMs ≤ d.nowMs

theorem timed_empty (L : Squeaklib) {nowMs : Int} (h : 0 < nowMs) : Timed L ⟨.empty, nowMs, none⟩ where
  listed := listed_empty L
  clock := h
  read t ht := by cases ht
  liked r hr := by cases hr
  sentUnique := List.nodup_nil
  sent r hr := by cases hr
  receivedUnique := List.nodup_nil
  received r hr := by cases hr

theorem timed_change {d d' : TimedStore} (h : Timed L d) {a : TimedStore.Change L}
    (ha : TimedStore.change a d = some d') : Timed L d' := by
  obtain ⟨nowMs, hle, rfl⟩ | ⟨s, hnow, -, rfl⟩ := TimedStore.change_cases ha
  · exact ⟨h.listed, h.clock.trans_le hle, fun t ht => (h.read t ht).trans hle,
      fun r hr t ht => (h.liked r hr t ht).imp id fun hnow => hnow.trans hle, h.sentUnique,
      fun r hr => (h.sent r hr).imp id fun hnow => hnow.trans hle, h.receivedUnique,
      fun r hr => (h.received r hr).imp id fun hnow => hnow.trans hle⟩
  · refine ⟨listed_commit s h.listed, h.clock, h.read, ?_, (s.sentPaymentEffect d.db).unique h.sentUnique,
      (s.sentPaymentEffect d.db).forall hnow h.sent, (s.receivedPaymentEffect d.db).unique h.receivedUnique,
      (s.receivedPaymentEffect d.db).forall hnow h.received⟩
    intro r hr t ht
    obtain ⟨r₀, hr₀, heq⟩ | hnew := (s.squeakEffect d.db).like hr ht
    · exact h.liked r₀ hr₀ t heq.2
    · exact hnow t (Statement.now_of_likedAt hnew)

/-! ## A list as a pager -/

/-- What a list selects, and how its items are sent and read back. -/
structure TimeList where
  Row : Type
  Item : Type
  Message : Type
  rows : Db → List Row
  key : Row → TimeKey
  parse : Row → Except Err Item
  timeAndHash : Item → Option Int × Bytes
  encode : Item → Except Err Message
  decode : Message → Except Err Item

namespace TimeList

/-- The first cursor is the current time. -/
def pager (list : TimeList) : Pager TimedStore list.Item list.Message TimeKey Err where
  cursor last d := (fun item => timeCursor d.nowMs (item.map list.timeAndHash)) <$> decodeLast list.decode last
  select limit cursor d := sendRows list.parse list.encode (selectPage list.key limit cursor (list.rows d.db))
  mark d := { d with readMs := some d.nowMs }

/-- The key of an item, as the next page of its list starts below it. -/
def itemKey (list : TimeList) (item : list.Item) : TimeKey :=
  timeKey (list.timeAndHash item).1 (list.timeAndHash item).2

/-- The keys of the rows that belong to a list. -/
def keys (list : TimeList) (d : TimedStore) : List TimeKey := (list.rows d.db).map list.key

/-- The hash of an item, read off its key. -/
def keyHash (k : TimeKey) : Bytes := (ofLex k).2

/-- The numbers of the payments are in the range of the messages. -/
structure SendablePayments (db : Db) : Prop where
  sent : ∀ r ∈ db.sentPayments.rows, fits 32 r.peerPort = true ∧ fits 32 r.sentPaymentId = true ∧
    fits 64 r.priceMsat = true ∧ fits 64 r.createdTimeMs = true
  received : ∀ r ∈ db.receivedPayments.rows, fits 32 r.peerPort = true ∧ fits 32 r.receivedPaymentId = true ∧
    fits 64 r.priceMsat = true ∧ fits 64 r.createdTimeMs = true

/-- What makes the traversals of a list exact; `old` are the keys a reader may have seen. -/
structure Proper (L : Squeaklib) (list : TimeList) (old : TimedStore → TimeKey → Prop) : Prop where
  key : ∀ {row item}, list.parse row = .ok item → list.itemKey item = list.key row
  sent : ∀ {item msg}, list.encode item = .ok msg → ∃ item', list.decode msg = .ok item' ∧
    list.timeAndHash item' = ((list.timeAndHash item).1.filter (0 < ·), (list.timeAndHash item).2)
  stamped : ∀ {d row}, Timed L d → row ∈ list.rows d.db →
    ∃ t hash, 0 < t ∧ t ≤ d.nowMs ∧ list.key row = timeKey (some t) hash
  distinct : ∀ {d}, Timed L d → ((list.keys d).map keyHash).Nodup
  mark_old : ∀ {d k}, Timed L d → k ∈ list.keys d ∨ old d k → old (list.pager.mark d) k
  old_change : ∀ {a : TimedStore.Change L} {d d' k}, Timed L d → TimedStore.change a d = some d' → old d k → old d' k
  fresh : ∀ {a : TimedStore.Change L} {d d' k k'}, Timed L d → TimedStore.change a d = some d' → old d k →
    k' ∈ list.keys d' → k' ∉ list.keys d → keyHash k = keyHash k' → k ≤ k'
  sendable : ∀ {d row}, Timed L d → Sendable d.db → SendablePayments d.db → row ∈ list.rows d.db →
    ∃ item msg, list.parse row = .ok item ∧ list.encode item = .ok msg

section Proper

variable {list : TimeList} {old : TimedStore → TimeKey → Prop}

/-- A row that was sent comes back with its key: its time is positive, so that the message keeps it. -/
theorem Proper.cursor (h : list.Proper L old) {d d' : TimedStore} (hd : Timed L d) {limit : Nat} {c : TimeKey}
    {items : List (list.Item × list.Message)} (hitems : list.pager.select limit c d = .ok items)
    {x : list.Item × list.Message} (hx : x ∈ items) :
    list.pager.cursor (some x.2) d' = .ok (list.itemKey x.1) := by
  obtain ⟨hencode, row, hrow, hparse⟩ := mem_sendRows hitems hx
  obtain ⟨item', hdecode, hsent⟩ := h.sent hencode
  obtain ⟨t, hash, hpos, -, hkey⟩ := h.stamped hd (mem_selectPage hrow).1
  have htime : (list.timeAndHash x.1).1 = some t := (timeKey_inj ((h.key hparse).trans hkey)).1
  have hkept : (list.timeAndHash x.1).1.filter (0 < ·) = (list.timeAndHash x.1).1 := by
    rw [htime]
    simpa [Option.filter] using hpos
  show (fun item => timeCursor d'.nowMs (item.map list.timeAndHash)) <$> decodeLast list.decode (some x.2) = _
  simp only [decodeLast, hdecode]
  show Except.ok (timeKey (list.timeAndHash item').1 (list.timeAndHash item').2) = _
  rw [hsent, hkept]
  rfl

theorem Proper.lawful (h : list.Proper L old) :
    list.pager.Lawful (TimedStore.change (L := L)) (Timed L) list.itemKey list.keys keyHash old where
  keeps hinv ha := timed_change hinv ha
  distinct hinv := h.distinct hinv
  page _ hitems := by
    rw [map_sendRows (fun _ _ => h.key) hitems]
    exact map_selectPage
  cursor hinv hitems hx hc := by
    rw [h.cursor hinv hitems hx] at hc
    exact (Except.ok.inj hc).symm
  mark_inv hinv := ⟨hinv.listed, hinv.clock, fun t ht => (Option.some.inj ht).symm.le, hinv.liked, hinv.sentUnique,
    hinv.sent, hinv.receivedUnique, hinv.received⟩
  mark_keys _ := rfl
  mark_old hinv hk := h.mark_old hinv hk
  old_change hinv ha hk := h.old_change hinv ha hk
  fresh hinv ha hk hk' hout heq := h.fresh hinv ha hk hk' hout heq

theorem Proper.total (h : list.Proper L old) :
    list.pager.Total (Timed L) fun d => Sendable d.db ∧ SendablePayments d.db where
  first d := ⟨timeCursor d.nowMs none, rfl⟩
  cursor _ hinv hitems hx := ⟨_, h.cursor hinv hitems hx⟩
  select _ _ _ hinv hready :=
    sendRows_total fun _ hrow => h.sendable hinv hready.1 hready.2 (mem_selectPage hrow).1

end Proper

/-! ## Liked squeaks -/

/-- The list of the liked squeaks. -/
def liked (L : Squeaklib) (defaultProfileImage : Bytes) : TimeList where
  Row := JoinedRow
  Item := SqueakEntry L
  Message := SqueakDisplayEntry
  rows db := (joinProfiles db).filter squeakIsLiked
  key := likedKey
  parse := parseSqueakEntry L
  timeAndHash := SqueakEntry.likedTimeAndHash
  encode := squeakEntryToMessage defaultProfileImage
  decode := messageToSqueakEntry L

/-- A key with a time up to the one at which the last page was read. -/
def LikedBefore (d : TimedStore) (k : TimeKey) : Prop :=
  ∃ t read hash, k = timeKey (some t) hash ∧ d.readMs = some read ∧ t ≤ read

/-- The rows of the list are the liked rows of the squeaks. -/
theorem mem_keys_liked {defaultProfileImage : Bytes} {d : TimedStore} (h : Listed L d.db) {k : TimeKey} :
    k ∈ (liked L defaultProfileImage).keys d ↔
      ∃ r ∈ d.db.squeaks, ∃ t, r.likedTimeMs = some t ∧ k = timeKey (some t) r.hash := by
  show k ∈ ((joinProfiles d.db).filter squeakIsLiked).map likedKey ↔ _
  rw [joinProfiles_eq h.publicKeys, List.mem_map]
  constructor
  · rintro ⟨row, hrow, rfl⟩
    obtain ⟨hrow, hliked⟩ := List.mem_filter.1 hrow
    obtain ⟨r, hr, rfl⟩ := List.mem_map.1 hrow
    obtain ⟨t, ht⟩ := Option.isSome_iff_exists.1 hliked
    exact ⟨r, hr, t, ht, congrArg (fun x => timeKey x r.hash) ht⟩
  · rintro ⟨r, hr, t, ht, rfl⟩
    refine ⟨joined d.db.profiles.rows r, List.mem_filter.2 ⟨List.mem_map_of_mem hr, ?_⟩, ?_⟩
    · exact Option.isSome_iff_exists.2 ⟨t, ht⟩
    · exact congrArg (fun x => timeKey x r.hash) ht

theorem proper_liked (hL : L.CodecLaws) (defaultProfileImage : Bytes) :
    (liked L defaultProfileImage).Proper L LikedBefore where
  key {row item} hparse := by
    obtain ⟨-, -, hhash, -, -, -, hliked⟩ := parseSqueakEntry_ok hparse
    show timeKey item.likedTimeMs item.squeakHash = timeKey row.squeak.likedTimeMs row.squeak.hash
    rw [hhash, hliked]
  sent {item msg} hmsg := ⟨item.sent, messageToSqueakEntry_sent defaultProfileImage hL hmsg, rfl⟩
  stamped {d row} hd hrow := by
    have hmem : likedKey row ∈ (liked L defaultProfileImage).keys d := List.mem_map_of_mem hrow
    obtain ⟨r, hr, t, ht, hkey⟩ := (mem_keys_liked hd.listed).1 hmem
    exact ⟨t, r.hash, (hd.liked r hr t ht).1, (hd.liked r hr t ht).2, hkey⟩
  distinct {d} hd := by
    have hsub : (((joinProfiles d.db).filter squeakIsLiked).map fun row => row.squeak.hash).Sublist
        ((joinProfiles d.db).map fun row => row.squeak.hash) := List.filter_sublist.map _
    have hall : (joinProfiles d.db).map (fun row => row.squeak.hash) = d.db.squeaks.map SqueakRow.hash := by
      rw [joinProfiles_eq hd.listed.publicKeys, List.map_map]
      rfl
    rw [hall] at hsub
    unfold keys
    rw [List.map_map]
    exact hd.listed.hashes.sublist hsub
  mark_old {d k} hd hk := by
    rcases hk with hk | ⟨t, read, hash, rfl, hread, hle⟩
    · obtain ⟨r, hr, t, ht, rfl⟩ := (mem_keys_liked hd.listed).1 hk
      exact ⟨t, d.nowMs, r.hash, rfl, rfl, (hd.liked r hr t ht).2⟩
    · exact ⟨t, d.nowMs, hash, rfl, rfl, hle.trans (hd.read read hread)⟩
  old_change {a d d' k} _ ha hk := by
    obtain ⟨nowMs, -, rfl⟩ | ⟨s, -, -, rfl⟩ := TimedStore.change_cases ha <;> exact hk
  fresh {a d d' k k'} hd ha hk hk' hout heq := by
    obtain ⟨t, read, hash, rfl, hread, hle⟩ := hk
    obtain ⟨r, hr, t', ht', rfl⟩ := (mem_keys_liked (timed_change hd ha).listed).1 hk'
    cases heq
    obtain ⟨nowMs, -, rfl⟩ | ⟨s, -, hlikedAt, rfl⟩ := TimedStore.change_cases ha
    · exact absurd hk' hout
    · obtain ⟨r₀, hr₀, hhash, hold⟩ | hnew := (s.squeakEffect d.db).like hr ht'
      · refine absurd ((mem_keys_liked hd.listed).2 ⟨r₀, hr₀, t', hold, ?_⟩) hout
        rw [hhash]
      · -- the squeak was liked after the last page was read
        exact timeKey_le (hle.trans (hlikedAt t' read hnew hread)) r.hash
  sendable {d row} hd hsend _ hrow := by
    obtain ⟨e, he, hfits⟩ := parseSqueakEntry_total hL hd.listed (List.mem_filter.1 hrow).1
    obtain ⟨msg, hmsg⟩ := squeakEntryToMessage_fits defaultProfileImage (hfits hsend)
    exact ⟨e, msg, he, hmsg⟩

/-! ## Payments -/

/-- A list of sent payments. -/
def sent (rows : Db → List SentPaymentRow) : TimeList where
  Row := SentPaymentRow
  Item := SentPayment
  Message := SqueakAdminPb2.SentPayment
  rows := rows
  key := sentPaymentKey
  parse r := .ok (parseSentPayment r)
  timeAndHash := sentTimeAndHash
  encode := sentPaymentToMessage
  decode := messageToSentPayment

/-- A list of received payments. -/
def received (rows : Db → List ReceivedPaymentRow) : TimeList where
  Row := ReceivedPaymentRow
  Item := ReceivedPayment
  Message := SqueakAdminPb2.ReceivedPayment
  rows := rows
  key := receivedPaymentKey
  parse r := .ok (parseReceivedPayment r)
  timeAndHash := receivedTimeAndHash
  encode := receivedPaymentToMessage
  decode := messageToReceivedPayment

/-- A table of payments: its rows, with unique hashes and times read from the clock, are never
deleted and never change their key. -/
structure PaymentTable (L : Squeaklib) (list : TimeList) where
  table : Db → List list.Row
  time : list.Row → Int
  hash : list.Row → Bytes
  key : ∀ r, list.key r = timeKey (some (time r)) (hash r)
  unique : ∀ {d}, Timed L d → UniqueOn hash (table d.db)
  times : ∀ {d}, Timed L d → ∀ r ∈ table d.db, 0 < time r ∧ time r ≤ d.nowMs
  effect : ∀ (s : Statement L) db, Statement.PaymentEffect (fun r => (time r, hash r)) s.now (table db)
    (table (s.commit db))

/-- The key of a payment that is in the table. -/
def PaymentTable.Has {list : TimeList} (T : PaymentTable L list) (d : TimedStore) (k : TimeKey) : Prop :=
  ∃ r ∈ T.table d.db, k = list.key r

theorem PaymentTable.has_change {list : TimeList} (T : PaymentTable L list) {a : TimedStore.Change L}
    {d d' : TimedStore} {k : TimeKey} (ha : TimedStore.change a d = some d') (hk : T.Has d k) : T.Has d' k := by
  obtain ⟨r, hr, rfl⟩ := hk
  obtain ⟨nowMs, -, rfl⟩ | ⟨s, -, -, rfl⟩ := TimedStore.change_cases ha
  · exact ⟨r, hr, rfl⟩
  · have hkept := (T.effect s d.db).keeps (List.mem_map_of_mem hr)
    obtain ⟨r', hr', heq⟩ := List.mem_map.1 hkept
    obtain ⟨htime, hhash⟩ := Prod.mk.inj heq
    exact ⟨r', hr', by rw [T.key, T.key, htime, hhash]⟩

theorem proper_payments {list : TimeList} (T : PaymentTable L list)
    (hrows : ∀ d, Timed L d → (list.rows d.db).Sublist (T.table d.db))
    (hparse : ∀ {row item}, list.parse row = .ok item → list.itemKey item = list.key row)
    (hsent : ∀ {item msg}, list.encode item = .ok msg → ∃ item', list.decode msg = .ok item' ∧
      list.timeAndHash item' = ((list.timeAndHash item).1.filter (0 < ·), (list.timeAndHash item).2))
    (hsendable : ∀ {d : TimedStore} {row}, SendablePayments d.db → row ∈ T.table d.db →
      ∃ item msg, list.parse row = .ok item ∧ list.encode item = .ok msg) :
    list.Proper L T.Has where
  key := hparse
  sent := hsent
  stamped {d row} hd hrow := by
    have hrow := (hrows d hd).subset hrow
    exact ⟨T.time row, T.hash row, (T.times hd row hrow).1, (T.times hd row hrow).2, T.key row⟩
  distinct {d} hd := by
    have hsame : (list.keys d).map keyHash = (list.rows d.db).map T.hash := by
      unfold keys
      rw [List.map_map]
      exact List.map_congr_left fun r _ => congrArg keyHash (T.key r)
    rw [hsame]
    exact (T.unique hd).sublist ((hrows d hd).map _)
  mark_old {d k} hd hk := by
    refine hk.elim (fun hk => ?_) id
    obtain ⟨r, hr, rfl⟩ := List.mem_map.1 hk
    exact ⟨r, (hrows d hd).subset hr, rfl⟩
  old_change _ ha hk := T.has_change ha hk
  fresh {a d d' k k'} hd ha hk hk' _ heq := by
    -- the payment is still in the table, with the same key
    obtain ⟨r, hr, rfl⟩ := T.has_change ha hk
    obtain ⟨r', hr', rfl⟩ := List.mem_map.1 hk'
    rw [T.key, T.key] at heq
    have hsame := (T.unique (timed_change hd ha)).eq hr ((hrows d' (timed_change hd ha)).subset hr') heq
    rw [hsame]
  sendable hd _ hsend hrow := hsendable hsend ((hrows _ hd).subset hrow)

/-- The lists of sent payments read the table of sent payments. -/
def sentTable (L : Squeaklib) (rows : Db → List SentPaymentRow) : PaymentTable L (sent rows) where
  table db := db.sentPayments.rows
  time := SentPaymentRow.createdTimeMs
  hash := SentPaymentRow.paymentHash
  key _ := rfl
  unique hd := hd.sentUnique
  times hd := hd.sent
  effect := Statement.sentPaymentEffect

/-- The lists of received payments read the table of received payments. -/
def receivedTable (L : Squeaklib) (rows : Db → List ReceivedPaymentRow) : PaymentTable L (received rows) where
  table db := db.receivedPayments.rows
  time := ReceivedPaymentRow.createdTimeMs
  hash := ReceivedPaymentRow.paymentHash
  key _ := rfl
  unique hd := hd.receivedUnique
  times hd := hd.received
  effect := Statement.receivedPaymentEffect

theorem proper_sent {rows : Db → List SentPaymentRow}
    (hrows : ∀ d : TimedStore, Timed L d → (rows d.db).Sublist d.db.sentPayments.rows) :
    (sent rows).Proper L (sentTable L rows).Has := by
  refine proper_payments (sentTable L rows) hrows ?_ ?_ ?_
  · intro row item hparse
    cases hparse
    rfl
  · intro item msg hmsg
    exact ⟨_, messageToSentPayment_sent hmsg, rfl⟩
  · intro d row hsend hrow
    obtain ⟨hport, hid, hprice, htime⟩ := hsend.sent row hrow
    obtain ⟨msg, hmsg⟩ := sentPaymentToMessage_fits (p := parseSentPayment row) hport hid hprice htime
    exact ⟨_, msg, rfl, hmsg⟩

theorem proper_received {rows : Db → List ReceivedPaymentRow}
    (hrows : ∀ d : TimedStore, Timed L d → (rows d.db).Sublist d.db.receivedPayments.rows) :
    (received rows).Proper L (receivedTable L rows).Has := by
  refine proper_payments (receivedTable L rows) hrows ?_ ?_ ?_
  · intro row item hparse
    cases hparse
    rfl
  · intro item msg hmsg
    exact ⟨_, messageToReceivedPayment_sent hmsg, rfl⟩
  · intro d row hsend hrow
    obtain ⟨hport, hid, hprice, htime⟩ := hsend.received row hrow
    obtain ⟨msg, hmsg⟩ := receivedPaymentToMessage_fits (p := parseReceivedPayment row) hport hid hprice htime
    exact ⟨_, msg, rfl, hmsg⟩

end TimeList

/-! ## The seven lists -/

/-- The lists of the admin interface that are ordered by time. -/
inductive AdminList (L : Squeaklib) where
  | likedSqueaks
  | sentPayments
  | sentPaymentsForSqueak (squeakHash : Bytes)
  | sentPaymentsForPubkey (publicKey : L.PublicKey)
  | receivedPayments
  | receivedPaymentsForSqueak (squeakHash : Bytes)
  | receivedPaymentsForPubkey (publicKey : L.PublicKey)

namespace AdminList

variable (defaultProfileImage : Bytes)

/-- What is on a list, and in which order. -/
def list : AdminList L → TimeList
  | likedSqueaks => .liked L defaultProfileImage
  | sentPayments => .sent SqueakDb.sentPayments
  | sentPaymentsForSqueak squeakHash => .sent (SqueakDb.sentPaymentsForSqueak squeakHash)
  | sentPaymentsForPubkey publicKey => .sent (SqueakDb.sentPaymentsForPubkey publicKey)
  | receivedPayments => .received SqueakDb.receivedPayments
  | receivedPaymentsForSqueak squeakHash => .received (SqueakDb.receivedPaymentsForSqueak squeakHash)
  | receivedPaymentsForPubkey publicKey => .received (SqueakDb.receivedPaymentsForPubkey publicKey)

/-- The request for a page of a list, as a client sends it. -/
def handle (N : Node L ρ) : (list : AdminList L) → Nat → Option (list.list defaultProfileImage).Message →
    NodeM ρ (List (list.list defaultProfileImage).Message)
  | likedSqueaks => handleGetLikedSqueakDisplayEntries N defaultProfileImage
  | sentPayments => handleGetSentPayments N
  | sentPaymentsForSqueak squeakHash => handleGetSentPaymentsForSqueak N (hex squeakHash)
  | sentPaymentsForPubkey publicKey => handleGetSentPaymentsForPubkey N (hex (L.publicKeyToBytes publicKey))
  | receivedPayments => handleGetReceivedPayments N
  | receivedPaymentsForSqueak squeakHash => handleGetReceivedPaymentsForSqueak N (hex squeakHash)
  | receivedPaymentsForPubkey publicKey => handleGetReceivedPaymentsForPubkey N (hex (L.publicKeyToBytes publicKey))

theorem proper (hL : L.CodecLaws) (list : AdminList L) : ∃ old, (list.list defaultProfileImage).Proper L old := by
  cases list with
  | likedSqueaks => exact ⟨_, TimeList.proper_liked hL defaultProfileImage⟩
  | sentPayments => exact ⟨_, TimeList.proper_sent fun d _ => List.Sublist.refl _⟩
  | sentPaymentsForSqueak squeakHash => exact ⟨_, TimeList.proper_sent fun d _ => List.filter_sublist⟩
  | sentPaymentsForPubkey publicKey => exact ⟨_, TimeList.proper_sent fun d hd => forPubkey_sublist hd.listed.hashes⟩
  | receivedPayments => exact ⟨_, TimeList.proper_received fun d _ => List.Sublist.refl _⟩
  | receivedPaymentsForSqueak squeakHash => exact ⟨_, TimeList.proper_received fun d _ => List.filter_sublist⟩
  | receivedPaymentsForPubkey publicKey =>
    exact ⟨_, TimeList.proper_received fun d hd => forPubkey_sublist hd.listed.hashes⟩

/-- The list has an item with this time and this hash. -/
def Has : AdminList L → Db → (timeMs : Int) → (hash : Bytes) → Prop
  | likedSqueaks, db, timeMs, hash => ∃ r ∈ db.squeaks, r.hash = hash ∧ r.likedTimeMs = some timeMs
  | sentPayments, db, timeMs, hash => ∃ r ∈ db.sentPayments.rows, r.paymentHash = hash ∧ r.createdTimeMs = timeMs
  | sentPaymentsForSqueak squeakHash, db, timeMs, hash =>
    ∃ r ∈ db.sentPayments.rows, r.paymentHash = hash ∧ r.createdTimeMs = timeMs ∧ r.squeakHash = squeakHash
  | sentPaymentsForPubkey publicKey, db, timeMs, hash =>
    ∃ r ∈ db.sentPayments.rows, r.paymentHash = hash ∧ r.createdTimeMs = timeMs ∧
      ∃ s ∈ db.squeaks, s.hash = r.squeakHash ∧ s.authorPublicKey = L.publicKeyToBytes publicKey
  | receivedPayments, db, timeMs, hash =>
    ∃ r ∈ db.receivedPayments.rows, r.paymentHash = hash ∧ r.createdTimeMs = timeMs
  | receivedPaymentsForSqueak squeakHash, db, timeMs, hash =>
    ∃ r ∈ db.receivedPayments.rows, r.paymentHash = hash ∧ r.createdTimeMs = timeMs ∧ r.squeakHash = squeakHash
  | receivedPaymentsForPubkey publicKey, db, timeMs, hash =>
    ∃ r ∈ db.receivedPayments.rows, r.paymentHash = hash ∧ r.createdTimeMs = timeMs ∧
      ∃ s ∈ db.squeaks, s.hash = r.squeakHash ∧ s.authorPublicKey = L.publicKeyToBytes publicKey

theorem mem_keys_payments {α : Type} {rows table : List α} {time : α → Int} {hash : α → Bytes} {Q : α → Prop}
    (hrows : ∀ r, r ∈ rows ↔ r ∈ table ∧ Q r) {timeMs : Int} {paymentHash : Bytes} :
    timeKey (some timeMs) paymentHash ∈ rows.map (fun r => timeKey (some (time r)) (hash r)) ↔
      ∃ r ∈ table, hash r = paymentHash ∧ time r = timeMs ∧ Q r := by
  rw [List.mem_map]
  constructor
  · rintro ⟨r, hr, hkey⟩
    obtain ⟨htime, hhash⟩ := timeKey_inj hkey
    exact ⟨r, ((hrows r).1 hr).1, hhash, Option.some.inj htime, ((hrows r).1 hr).2⟩
  · rintro ⟨r, hr, rfl, rfl, hQ⟩
    exact ⟨r, (hrows r).2 ⟨hr, hQ⟩, rfl⟩

/-- What a list selects are the rows of its table that it is about. -/
theorem mem_keys (adminList : AdminList L) {d : TimedStore} (hd : Timed L d) {timeMs : Int} {hash : Bytes} :
    timeKey (some timeMs) hash ∈ (adminList.list defaultProfileImage).keys d ↔ adminList.Has d.db timeMs hash := by
  cases adminList with
  | likedSqueaks =>
    refine (TimeList.mem_keys_liked hd.listed).trans ?_
    constructor
    · rintro ⟨r, hr, t, ht, hkey⟩
      obtain ⟨htime, rfl⟩ := timeKey_inj hkey
      obtain rfl := Option.some.inj htime
      exact ⟨r, hr, rfl, ht⟩
    · rintro ⟨r, hr, rfl, ht⟩
      exact ⟨r, hr, timeMs, ht, rfl⟩
  | sentPayments =>
    refine (mem_keys_payments (Q := fun _ => True) fun r => (and_iff_left trivial).symm).trans ?_
    simp only [and_true]
    rfl
  | sentPaymentsForSqueak squeakHash =>
    refine mem_keys_payments (Q := fun r : SentPaymentRow => r.squeakHash = squeakHash) fun r => ?_
    exact List.mem_filter.trans (and_congr_right fun _ => beq_iff_eq)
  | sentPaymentsForPubkey publicKey =>
    exact mem_keys_payments fun r => mem_forPubkey hd.listed.hashes
  | receivedPayments =>
    refine (mem_keys_payments (Q := fun _ => True) fun r => (and_iff_left trivial).symm).trans ?_
    simp only [and_true]
    rfl
  | receivedPaymentsForSqueak squeakHash =>
    refine mem_keys_payments (Q := fun r : ReceivedPaymentRow => r.squeakHash = squeakHash) fun r => ?_
    exact List.mem_filter.trans (and_congr_right fun _ => beq_iff_eq)
  | receivedPaymentsForPubkey publicKey =>
    exact mem_keys_payments fun r => mem_forPubkey hd.listed.hashes

/-- The reply of a list whose items are `get` is the page of its cursor. -/
theorem run_sendList (N : Node L ρ) (list : TimeList) {limit : Nat}
    {get : (now : Int) → Option list.Item → Db → Except Err (List list.Item)}
    (hget : ∀ now last db, get now last db =
      (selectPage list.key limit (timeCursor now (last.map list.timeAndHash)) (list.rows db)).mapM list.parse)
    (last : Option list.Item) {w : World ρ} {d : TimedStore} (hdb : d.db = w.db)
    (hclock : (N.timestampNowMs w.env).1 = d.nowMs) :
    ((sendList N get list.encode last).run w).1 =
      List.map Prod.snd <$> list.pager.select limit (timeCursor d.nowMs (last.map list.timeAndHash)) d := by
  have hquery : ∀ now (w' : World ρ), w'.db = w.db →
      ((query (get now last) >>= Prog.ofExcept >>= fun items => Prog.ofExcept (items.mapM list.encode)).run w').1 =
        List.map Prod.snd <$> sendRows list.parse list.encode
          (selectPage list.key limit (timeCursor now (last.map list.timeAndHash)) (list.rows w.db)) := by
    intro now w' hw'
    have hrun : (query (get now last) >>= Prog.ofExcept).run w' = (get now last w'.db, w') := by
      rw [Prog.run_bind, run_query]
      exact Prog.run_ofExcept _ _
    rw [Prog.run_bind, hrun, sendRows_messages, hget, hw']
    cases (selectPage list.key limit (timeCursor now (last.map list.timeAndHash)) (list.rows w.db)).mapM list.parse with
    | error err => rfl
    | ok items => exact congrArg Prod.fst (Prog.run_ofExcept _ _)
  have hselect : list.pager.select limit (timeCursor d.nowMs (last.map list.timeAndHash)) d =
      sendRows list.parse list.encode
        (selectPage list.key limit (timeCursor d.nowMs (last.map list.timeAndHash)) (list.rows w.db)) := by
    rw [← hdb]
    rfl
  rw [hselect]
  cases last with
  | none =>
    have hfirst := hquery (N.timestampNowMs w.env).1 { w with env := (N.timestampNowMs w.env).2 } rfl
    rw [hclock] at hfirst
    rw [← hfirst, ← hclock]
    rfl
  | some item => exact hquery 0 w rfl

/-- A request that nobody interrupts is answered with the page of its cursor. -/
theorem run_handle (hL : L.CodecLaws) (N : Node L ρ) (list : AdminList L) (limit : Nat)
    (last : Option (list.list defaultProfileImage).Message) {w : World ρ} {d : TimedStore} (hdb : d.db = w.db)
    (hclock : (N.timestampNowMs w.env).1 = d.nowMs) :
    ((list.handle defaultProfileImage N limit last).run w).1 =
      (list.list defaultProfileImage).pager.answer limit last d := by
  have hpage : ∀ item, decodeLast (list.list defaultProfileImage).decode last = .ok item →
      (list.list defaultProfileImage).pager.answer limit last d = List.map Prod.snd <$>
        (list.list defaultProfileImage).pager.select limit
          (timeCursor d.nowMs (item.map (list.list defaultProfileImage).timeAndHash)) d := by
    intro item hitem
    simp only [Pager.answer, TimeList.pager, hitem]
    rfl
  have herror : ∀ err, decodeLast (list.list defaultProfileImage).decode last = .error err →
      (list.list defaultProfileImage).pager.answer limit last d = .error err := by
    intro err hitem
    simp only [Pager.answer, TimeList.pager, hitem]
    rfl
  cases hdecode : decodeLast (list.list defaultProfileImage).decode last with
  -- a request that cannot be read gets no page
  | error err =>
    rw [herror err hdecode]
    cases list with
    | likedSqueaks =>
      have hdecode : decodeLastEntry L last = .error err := hdecode
      simp only [handle, handleGetLikedSqueakDisplayEntries, hdecode]
      rfl
    | sentPayments =>
      have hdecode : decodeLast messageToSentPayment last = .error err := hdecode
      simp only [handle, handleGetSentPayments, hdecode]
      rfl
    | sentPaymentsForSqueak squeakHash =>
      have hdecode : decodeLast messageToSentPayment last = .error err := hdecode
      simp only [handle, handleGetSentPaymentsForSqueak, hdecode, fromHex_hex]
      rfl
    | sentPaymentsForPubkey publicKey =>
      have hdecode : decodeLast messageToSentPayment last = .error err := hdecode
      simp only [handle, handleGetSentPaymentsForPubkey, hdecode]
      rfl
    | receivedPayments =>
      have hdecode : decodeLast messageToReceivedPayment last = .error err := hdecode
      simp only [handle, handleGetReceivedPayments, hdecode]
      rfl
    | receivedPaymentsForSqueak squeakHash =>
      have hdecode : decodeLast messageToReceivedPayment last = .error err := hdecode
      simp only [handle, handleGetReceivedPaymentsForSqueak, hdecode, fromHex_hex]
      rfl
    | receivedPaymentsForPubkey publicKey =>
      have hdecode : decodeLast messageToReceivedPayment last = .error err := hdecode
      simp only [handle, handleGetReceivedPaymentsForPubkey, hdecode]
      rfl
  -- the page of the list, from the cursor of the item that was sent back
  | ok item =>
    rw [hpage item hdecode]
    cases list with
    | likedSqueaks =>
      have hdecode : decodeLastEntry L last = .ok item := hdecode
      rw [← run_sendList N _ (fun _ _ _ => rfl) item hdb hclock]
      simp only [handle, handleGetLikedSqueakDisplayEntries, hdecode]
      rfl
    | sentPayments =>
      have hdecode : decodeLast messageToSentPayment last = .ok item := hdecode
      rw [← run_sendList N _ (fun _ _ _ => (mapM_ok parseSentPayment _).symm) item hdb hclock]
      simp only [handle, handleGetSentPayments, hdecode]
      rfl
    | sentPaymentsForSqueak squeakHash =>
      have hdecode : decodeLast messageToSentPayment last = .ok item := hdecode
      rw [← run_sendList N _ (fun _ _ _ => (mapM_ok parseSentPayment _).symm) item hdb hclock]
      simp only [handle, handleGetSentPaymentsForSqueak, hdecode, fromHex_hex]
      rfl
    | sentPaymentsForPubkey publicKey =>
      have hdecode : decodeLast messageToSentPayment last = .ok item := hdecode
      rw [← run_sendList N _ (fun _ _ _ => (mapM_ok parseSentPayment _).symm) item hdb hclock]
      simp only [handle, handleGetSentPaymentsForPubkey, hdecode, fromHex_hex]
      show ((Prog.ofExcept (L.publicKeyFromBytes (L.publicKeyToBytes publicKey)) >>= _).run w).1 = _
      rw [hL.publicKey]
      rfl
    | receivedPayments =>
      have hdecode : decodeLast messageToReceivedPayment last = .ok item := hdecode
      rw [← run_sendList N _ (fun _ _ _ => (mapM_ok parseReceivedPayment _).symm) item hdb hclock]
      simp only [handle, handleGetReceivedPayments, hdecode]
      rfl
    | receivedPaymentsForSqueak squeakHash =>
      have hdecode : decodeLast messageToReceivedPayment last = .ok item := hdecode
      rw [← run_sendList N _ (fun _ _ _ => (mapM_ok parseReceivedPayment _).symm) item hdb hclock]
      simp only [handle, handleGetReceivedPaymentsForSqueak, hdecode, fromHex_hex]
      rfl
    | receivedPaymentsForPubkey publicKey =>
      have hdecode : decodeLast messageToReceivedPayment last = .ok item := hdecode
      rw [← run_sendList N _ (fun _ _ _ => (mapM_ok parseReceivedPayment _).symm) item hdb hclock]
      simp only [handle, handleGetReceivedPaymentsForPubkey, hdecode, fromHex_hex]
      show ((Prog.ofExcept (L.publicKeyFromBytes (L.publicKeyToBytes publicKey)) >>= _).run w).1 = _
      rw [hL.publicKey]
      rfl

/-- The items are sent in reply to the message `last`: the handler reads the clock when the request arrives, and then
the tables of `d`. -/
def Replies (adminList : AdminList L) (limit : Nat) (last : Option (adminList.list defaultProfileImage).Message)
    (d : TimedStore)
    (items : List ((adminList.list defaultProfileImage).Item × (adminList.list defaultProfileImage).Message)) : Prop :=
  (∀ x ∈ items, (adminList.list defaultProfileImage).encode x.1 = .ok x.2) ∧ ∃ askedMs ≤ d.nowMs,
    ∀ {ρ : Type} (N : Node L ρ) (w : World ρ), w.db = d.db → clock N w = askedMs →
      ((adminList.handle defaultProfileImage N limit last).run w).1 = .ok (items.map Prod.snd)

theorem replies_of_pager (hL : L.CodecLaws) (adminList : AdminList L) {limit : Nat}
    {last : Option (adminList.list defaultProfileImage).Message} {d : TimedStore}
    {items : List ((adminList.list defaultProfileImage).Item × (adminList.list defaultProfileImage).Message)}
    (h : (adminList.list defaultProfileImage).pager.Replies (fun d d' => d.nowMs ≤ d'.nowMs) limit last d items) :
    adminList.Replies defaultProfileImage limit last d items := by
  obtain ⟨asked, c, hle, hcursor, hselect⟩ := h
  refine ⟨fun x hx => (mem_sendRows hselect hx).1, asked.nowMs, hle, fun N w hdb hclock => ?_⟩
  have hrun := run_handle defaultProfileImage hL N adminList limit last (d := { d with nowMs := asked.nowMs }) hdb.symm
    hclock
  have hcursor' : (adminList.list defaultProfileImage).pager.cursor last { d with nowMs := asked.nowMs } = .ok c :=
    hcursor
  have hselect' : (adminList.list defaultProfileImage).pager.select limit c { d with nowMs := asked.nowMs } =
    .ok items := hselect
  rw [hrun]
  unfold Pager.answer
  rw [hcursor']
  show (adminList.list defaultProfileImage).pager.select limit c _ >>= _ = _
  rw [hselect']
  rfl

end AdminList

/-! ## Traversals of a list -/

/-- All items that a client received, in order. -/
def TimeList.items {list : TimeList} (t : Traversal TimedStore list.Item list.Message TimeKey) : List list.Item :=
  t.pages.flatMap Prod.snd

/-- Whatever happens between the pages of a list: each page is the reply of the list's handler to the last message of
the page before; the items received descend strictly in time and hash, none comes twice, and the list had an item when
its page was read. After a short page every item that the list had at the first request and at each of the pages, with
the same time, was received exactly once; before that page, the traversal goes on. -/
theorem time_lists_exact (hL : L.CodecLaws) (defaultProfileImage : Bytes) (adminList : AdminList L) {limit : Nat}
    (hlimit : 0 < limit) {d : TimedStore} (hd : Timed L d)
    {t : Traversal TimedStore (adminList.list defaultProfileImage).Item (adminList.list defaultProfileImage).Message
      TimeKey}
    {history : List (Traversal TimedStore _ _ TimeKey × Traversal.Act (TimedStore.Change L))}
    (hr : Machine.Run (Traversal.step TimedStore.change (adminList.list defaultProfileImage).pager limit) (.start d)
      history t) :
    let timeAndHash := (adminList.list defaultProfileImage).timeAndHash
    Conversation (adminList.Replies defaultProfileImage limit) t.pages t.last ∧
      (TimeList.items t).Pairwise (fun a b => timeKey (timeAndHash b).1 (timeAndHash b).2 <
        timeKey (timeAndHash a).1 (timeAndHash a).2) ∧
      ((TimeList.items t).map fun item => (timeAndHash item).2).Nodup ∧
      (∀ p ∈ t.pages, ∀ item ∈ p.2, ∃ timeMs, (timeAndHash item).1 = some timeMs ∧
        adminList.Has p.1.db timeMs (timeAndHash item).2) ∧
      (t.finished limit = true → ∀ d₀ cursor, t.began = some (d₀, cursor) → ∀ timeMs hash,
        adminList.Has d₀.db timeMs hash → hash.length ≤ 32 → hash ≠ maxHash →
        (∀ p ∈ t.pages, adminList.Has p.1.db timeMs hash) →
        ((TimeList.items t).map fun item => (timeAndHash item).2).count hash = 1) ∧
      (t.finished limit = false → Sendable t.store.db → TimeList.SendablePayments t.store.db →
        ∃ a ∈ [Traversal.Act.request, .answer], ∃ t', Traversal.step (TimedStore.change (L := L))
          (adminList.list defaultProfileImage).pager limit a t = some t') := by
  intro timeAndHash
  obtain ⟨old, hproper⟩ := adminList.proper defaultProfileImage hL
  have hwalk := walk_of_run hproper.lawful hlimit hd hr
  have hexact := hwalk.exact hproper.lawful hlimit
  have hreceived : t.received (adminList.list defaultProfileImage).itemKey =
      (TimeList.items t).map (adminList.list defaultProfileImage).itemKey := by
    unfold Traversal.received TimeList.items
    rw [List.map_flatMap]
  have hhashes : (t.received (adminList.list defaultProfileImage).itemKey).map TimeList.keyHash =
      (TimeList.items t).map fun item => (timeAndHash item).2 := by
    rw [hreceived, List.map_map]
    rfl
  refine ⟨?_, ?_, ?_, ?_, ?_, ?_⟩
  · have hclock : ∀ {a : TimedStore.Change L} {d d' d'' : TimedStore}, d.nowMs ≤ d'.nowMs →
        TimedStore.change a d' = some d'' → d.nowMs ≤ d''.nowMs := by
      intro a d d' d'' hle ha
      obtain ⟨nowMs, hlater, rfl⟩ | ⟨s, -, -, rfl⟩ := TimedStore.change_cases ha
      · exact hle.trans hlater
      · exact hle
    have hpages := conversation_of_run (R := fun d d' : TimedStore => d.nowMs ≤ d'.nowMs) (fun _ => le_rfl) hclock hr
    exact hpages.imp fun _ _ _ _ h => adminList.replies_of_pager defaultProfileImage hL h
  · exact List.pairwise_map.1 (hreceived ▸ hexact.descending)
  · exact hhashes ▸ hexact.once
  · intro p hp item hitem
    have hmem := hexact.matched p hp item hitem
    obtain ⟨row, hrow, hkey⟩ := List.mem_map.1 hmem
    obtain ⟨timeMs, hash, -, -, hstamp⟩ := hproper.stamped (hwalk.stores p hp) hrow
    obtain ⟨htime, hhash⟩ := timeKey_inj (hkey.symm.trans hstamp)
    refine ⟨timeMs, htime, (adminList.mem_keys defaultProfileImage (hwalk.stores p hp)).1 ?_⟩
    rw [show (timeAndHash item).2 = hash from hhash, ← hstamp, hkey]
    exact hmem
  · intro hfinished d₀ cursor hbegan timeMs hash hhas hlength hne hall
    obtain ⟨hd₀, hcursor, -⟩ := hwalk.began d₀ cursor hbegan
    obtain ⟨row₀, hrow₀, hkey⟩ := List.mem_map.1 ((adminList.mem_keys defaultProfileImage hd₀).2 hhas)
    obtain ⟨time, hash', -, hle, hkey'⟩ := hproper.stamped hd₀ hrow₀
    obtain ⟨htime, rfl⟩ := timeKey_inj (hkey.symm.trans hkey')
    obtain rfl := Option.some.inj htime
    have htop : timeKey (some d₀.nowMs) maxHash = cursor := Except.ok.inj hcursor
    have hlt : timeKey (some timeMs) hash < cursor := by
      rw [← htop]
      exact timeKey_lt hle (lt_maxHash hlength hne)
    have hin := hexact.complete hfinished d₀ cursor hbegan _ hlt fun p hp =>
      (adminList.mem_keys defaultProfileImage (hwalk.stores p hp)).2 (hall p hp)
    have hmem : hash ∈ (TimeList.items t).map fun item => (timeAndHash item).2 := by
      rw [← hhashes]
      exact List.mem_map.2 ⟨_, hin, rfl⟩
    exact List.count_eq_one_of_mem (hhashes ▸ hexact.once) hmem
  · exact fun hfinished hsend hpay => hwalk.goes_on _ hproper.total ⟨hsend, hpay⟩ hfinished

namespace Sample

/-- The list of the liked squeaks. -/
def likedList : TimeList := (AdminList.likedSqueaks (L := squeaklib)).list []

/-- Two squeaks are liked; the one on the first page is unliked and liked again before the second page. -/
def liking : List (Traversal.Act (TimedStore.Change squeaklib)) :=
  [.change (.run (.insertSqueak 1000 squeak ⟨4200⟩)), .change (.run (.insertSqueak 1000 newerSqueak ⟨4800⟩)),
    .change (.run (.setSqueakLiked squeak.val.reverse 1000)), .change (.tick 2000),
    .change (.run (.setSqueakLiked newerSqueak.val.reverse 2000)), .request, .answer,
    .change (.run (.setSqueakUnliked newerSqueak.val.reverse)), .change (.tick 3000),
    .change (.run (.setSqueakLiked newerSqueak.val.reverse 3000)), .request, .answer, .request, .answer]

end Sample

theorem time_lists_exact_sample : ∃ (history : List _) (t : Traversal TimedStore Sample.likedList.Item _ _),
    Machine.Run (Traversal.step (TimedStore.change (L := Sample.squeaklib)) Sample.likedList.pager 1)
      (.start ⟨.empty, 1000, none⟩) history t ∧
    t.finished 1 = true ∧
    (TimeList.items t).map (fun item => (Sample.likedList.timeAndHash item).2) =
      [Sample.newerSqueak.val.reverse, Sample.squeak.val.reverse] ∧
    ((TimeList.items t).map fun item => (Sample.likedList.timeAndHash item).2).Nodup := by
  have hexec : (Machine.exec (Traversal.step TimedStore.change Sample.likedList.pager 1) Sample.liking
      (.start ⟨.empty, 1000, none⟩)).map (fun r => (r.2.finished 1,
        (TimeList.items r.2).map fun item => (Sample.likedList.timeAndHash item).2)) =
      some (true, [Sample.newerSqueak.val.reverse, Sample.squeak.val.reverse]) := by decide +kernel
  obtain ⟨⟨history, t⟩, hrun, hstate⟩ := Option.map_eq_some_iff.1 hexec
  obtain ⟨hfinished, hhashes⟩ := Prod.mk.inj hstate
  have hr := Machine.run_exec hrun
  exact ⟨history, t, hr, hfinished, hhashes, (time_lists_exact Sample.codecLaws [] .likedSqueaks (by decide)
    (timed_empty _ (by decide)) hr).2.2.1⟩

end Squeaknode
