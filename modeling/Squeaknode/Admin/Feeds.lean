/-
The four feeds of the admin page: the timeline, the squeaks of a public key, the text search and the
replies to a squeak. A client walks through a feed by passing the last entry of a page back with the
next request, while the node goes on writing to its tables.

The key of a squeak is its block height, its time and its hash; the hash commits to the other two,
so that a squeak that is deleted and downloaded again comes back with the same key.
-/
import Squeaknode.Admin.Messages
import Squeaknode.Db.Statements
import Squeaknode.Node.Sample

namespace Squeaknode

open Interleave Relational SqueakDb
open SqueakAdminPb2 (SqueakDisplayEntry fits)

variable {L : Squeaklib} {ρ : Type}

/-! ## The stores of a node -/

/-- A row of `squeak`, as far as its place in a feed and its public keys go. -/
structure PlacedBy (L : Squeaklib) (squeak : L.CSqueak) (r : SqueakRow) : Prop where
  hash : r.hash = getHash L squeak
  blockHeight : r.blockHeight = L.nBlockHeight squeak
  timeS : r.timeS = L.nTime squeak
  author : r.authorPublicKey = L.publicKeyToBytes (L.getPubKey squeak)
  recipient : r.recipientPublicKey =
    if L.isPrivateMessage squeak then some (L.publicKeyToBytes (L.getRecipientPubKey squeak)) else none

/-- What the feeds rely on: the unique columns, rows of squeaks, and profiles with proper keys. -/
structure Listed (L : Squeaklib) (db : Db) : Prop where
  hashes : UniqueOn SqueakRow.hash db.squeaks
  publicKeys : UniqueOn ProfileRow.publicKey db.profiles.rows
  squeaks : ∀ r ∈ db.squeaks, ∃ squeak, PlacedBy L squeak r
  profiles : ∀ r ∈ db.profiles.rows, ∃ p : SqueakProfile L,
    r.publicKey = L.publicKeyToBytes p.publicKey ∧ r.privateKey = p.privateKey.map L.privateKeyToBytes

theorem listed_empty (L : Squeaklib) : Listed L .empty where
  hashes := List.nodup_nil
  publicKeys := List.nodup_nil
  squeaks r hr := by cases hr
  profiles r hr := by cases hr

theorem listed_commit (s : Statement L) {db : Db} (h : Listed L db) : Listed L (s.commit db) where
  hashes := (s.squeakEffect db).unique h.hashes
  publicKeys := (s.profileEffect db).unique h.publicKeys
  squeaks := by
    refine (s.squeakEffect db).forall (fun now squeak header => ?_) (fun r k c l hr => ?_) h.squeaks
    · exact ⟨squeak, rfl, rfl, rfl, rfl, rfl⟩
    · obtain ⟨squeak, hp⟩ := hr
      exact ⟨squeak, hp.hash, hp.blockHeight, hp.timeS, hp.author, hp.recipient⟩
  profiles := by
    refine (s.profileEffect db).forall (P := fun publicKey privateKey => ∃ p : SqueakProfile L,
      publicKey = L.publicKeyToBytes p.publicKey ∧ privateKey = p.privateKey.map L.privateKeyToBytes) ?_ h.profiles
    exact fun profile => ⟨profile, rfl, rfl⟩

/-- The numbers of the store are in the range of the messages. -/
structure Sendable (db : Db) : Prop where
  squeaks : ∀ r ∈ db.squeaks, fits 32 r.blockHeight = true ∧ fits 64 r.blockTimeS = true ∧ fits 64 r.timeS = true ∧
    fits 64 (r.likedTimeMs.getD 0) = true
  profiles : ∀ r ∈ db.profiles.rows, fits 32 r.profileId = true

theorem fits_of_profileId {profile : Option (SqueakProfile L)} {row : Option ProfileRow}
    (hid : profile.map SqueakProfile.profileId = row.map fun r => some r.profileId)
    (hrow : ∀ r, row = some r → fits 32 r.profileId = true) : ∀ p, profile = some p → p.Fits := by
  rintro p rfl
  cases row with
  | none => cases hid
  | some r =>
    have hp : p.profileId = some r.profileId := Option.some.inj hid
    unfold SqueakProfile.Fits
    rw [hp]
    exact hrow r rfl

/-- The entry of a squeak is there, and can be sent. -/
theorem parseSqueakEntry_total (hL : L.CodecLaws) {db : Db} (h : Listed L db) {row : JoinedRow}
    (hrow : row ∈ joinProfiles db) :
    ∃ e : SqueakEntry L, parseSqueakEntry L row = .ok e ∧ (Sendable db → e.Fits) := by
  rw [joinProfiles_eq h.publicKeys] at hrow
  obtain ⟨r, hr, rfl⟩ := List.mem_map.1 hrow
  obtain ⟨squeak, hp⟩ := h.squeaks r hr
  obtain ⟨profile, hprofile, hid⟩ := tryParseSqueakProfile_total hL (joined db.profiles.rows r).author
    fun p hp => h.profiles p (List.mem_of_find?_eq_some hp)
  obtain ⟨recipient, hrecipient, hrid⟩ := tryParseSqueakProfile_total hL (joined db.profiles.rows r).recipient
    fun p hp => h.profiles p (List.mem_of_find?_eq_some hp)
  have hauthor : L.publicKeyFromBytes (joined db.profiles.rows r).squeak.authorPublicKey =
    .ok (L.getPubKey squeak) := by
    show L.publicKeyFromBytes r.authorPublicKey = _
    rw [hp.author, hL.publicKey]
  have hkey : ∃ k, parseRecipientPublicKey L (joined db.profiles.rows r).squeak.recipientPublicKey = .ok k := by
    show ∃ k, parseRecipientPublicKey L r.recipientPublicKey = .ok k
    rw [hp.recipient]
    split
    · exact parseRecipientPublicKey_total hL _
    · exact ⟨none, rfl⟩
  obtain ⟨k, hk⟩ := hkey
  have hparse : ∃ e : SqueakEntry L, parseSqueakEntry L (joined db.profiles.rows r) = .ok e := by
    unfold parseSqueakEntry
    rw [hprofile, hrecipient, hauthor, hk]
    exact ⟨_, rfl⟩
  obtain ⟨e, he⟩ := hparse
  refine ⟨e, he, fun hS => ?_⟩
  obtain ⟨heprofile, herecipient, -, hheight, hblockTime, htime, hliked⟩ := parseSqueakEntry_ok he
  rw [hprofile] at heprofile
  rw [hrecipient] at herecipient
  cases heprofile
  cases herecipient
  obtain ⟨hfitsHeight, hfitsBlockTime, hfitsTime, hfitsLiked⟩ := hS.squeaks r hr
  refine ⟨?_, ?_, by rwa [hheight], by rwa [hblockTime], by rwa [htime], by rwa [hliked]⟩
  · exact fits_of_profileId hid fun _ hfound => hS.profiles _ (List.mem_of_find?_eq_some hfound)
  · exact fits_of_profileId hrid fun _ hfound => hS.profiles _ (List.mem_of_find?_eq_some hfound)

/-! ## The handlers -/

section Handlers

variable (ilike : Ilike) (defaultProfileImage : Bytes)

/-- The last item of a request, if the request has one. -/
def decodeLast {μ ι : Type} (decode : μ → Except Err ι) : Option μ → Except Err (Option ι)
  | none => .ok none
  | some msg => some <$> decode msg

variable (L) in
def decodeLastEntry : Option SqueakDisplayEntry → Except Err (Option (SqueakEntry L)) :=
  decodeLast (messageToSqueakEntry L)

/-- The entries that a query answers, as messages. -/
def displayEntries (entries : Db → Except Err (List (SqueakEntry L))) : NodeM ρ (List SqueakDisplayEntry) := do
  let squeakEntries ← query entries >>= Prog.ofExcept
  Prog.ofExcept (squeakEntries.mapM (squeakEntryToMessage defaultProfileImage))

variable (L) in
def handleGetTimelineSqueakDisplayEntries (limit : Nat) (lastEntry : Option SqueakDisplayEntry) :
    NodeM ρ (List SqueakDisplayEntry) := do
  let lastEntry ← Prog.ofExcept (decodeLastEntry L lastEntry)
  displayEntries defaultProfileImage (getTimelineSqueakEntries L limit lastEntry)

variable (L) in
def handleGetSqueakDisplayEntriesForPubkey (pubkey : String) (limit : Nat) (lastEntry : Option SqueakDisplayEntry) :
    NodeM ρ (List SqueakDisplayEntry) := do
  let lastEntry ← Prog.ofExcept (decodeLastEntry L lastEntry)
  let publicKey ← Prog.ofExcept (fromHex pubkey >>= L.publicKeyFromBytes)
  displayEntries defaultProfileImage (getSqueakEntriesForPublicKey publicKey limit lastEntry)

variable (L) in
def handleGetSqueakDisplayEntriesForTextSearch (searchText : String) (limit : Nat)
    (lastEntry : Option SqueakDisplayEntry) : NodeM ρ (List SqueakDisplayEntry) := do
  let lastEntry ← Prog.ofExcept (decodeLastEntry L lastEntry)
  displayEntries defaultProfileImage (getSqueakEntriesForTextSearch L ilike searchText limit lastEntry)

variable (L) in
def handleGetReplySqueakDisplayEntries (squeakHash : String) (limit : Nat) (lastEntry : Option SqueakDisplayEntry) :
    NodeM ρ (List SqueakDisplayEntry) := do
  let squeakHash ← Prog.ofExcept (fromHex squeakHash)
  let lastEntry ← Prog.ofExcept (decodeLastEntry L lastEntry)
  displayEntries defaultProfileImage (getThreadReplySqueakEntries L squeakHash limit lastEntry)

end Handlers

/-! ## The feeds as pagers -/

/-- The feeds of the admin interface. -/
inductive Feed (L : Squeaklib) where
  | timeline
  | byPublicKey (publicKey : L.PublicKey)
  | textSearch (searchText : String)
  | replies (squeakHash : Bytes)

namespace Feed

variable (ilike : Ilike) (defaultProfileImage : Bytes)

/-- The condition of a feed. -/
def lists : Feed L → JoinedRow → Bool
  | timeline => profileIsFollowing
  | byPublicKey publicKey => isByPublicKey publicKey
  | textSearch searchText => contentHasText ilike searchText
  | replies squeakHash => isReplyTo squeakHash

/-- What the database checks before it reads a page. -/
def check : Feed L → Db → Except Err Unit
  | textSearch searchText => checkPattern ilike searchText
  | _ => fun _ => .ok ()

/-- The request for a page of a feed, as a client sends it. -/
def handle : Feed L → Nat → Option SqueakDisplayEntry → NodeM ρ (List SqueakDisplayEntry)
  | timeline => handleGetTimelineSqueakDisplayEntries L defaultProfileImage
  | byPublicKey publicKey => handleGetSqueakDisplayEntriesForPubkey L defaultProfileImage
    (hex (L.publicKeyToBytes publicKey))
  | textSearch searchText => handleGetSqueakDisplayEntriesForTextSearch L ilike defaultProfileImage searchText
  | replies squeakHash => handleGetReplySqueakDisplayEntries L defaultProfileImage (hex squeakHash)

/-- A feed: the cursor of a request, and the page that answers it. -/
def pager (feed : Feed L) : Pager Db (SqueakEntry L) SqueakDisplayEntry FeedKey Err where
  cursor lastEntry _ := feedCursor <$> decodeLastEntry L lastEntry
  select limit cursor db := do
    feed.check ilike db
    sendRows (parseSqueakEntry L) (squeakEntryToMessage defaultProfileImage) (feedRows (feed.lists ilike) limit cursor db)
  mark := id

/-- The rows that a feed lists in a store. -/
def rows (feed : Feed L) (db : Db) : List JoinedRow := (joinProfiles db).filter (feed.lists ilike)

/-- The keys of the rows that belong to a feed. -/
def keys (feed : Feed L) (db : Db) : List FeedKey := (feed.rows ilike db).map feedKey

variable {ilike} {defaultProfileImage}

/-- The rows of a page, as they are sent. -/
abbrev send (L : Squeaklib) (defaultProfileImage : Bytes) : List JoinedRow →
    Except Err (List (SqueakEntry L × SqueakDisplayEntry)) :=
  sendRows (parseSqueakEntry L) (squeakEntryToMessage defaultProfileImage)

/-- The query of a page, after what the database checks. -/
def page (ilike : Ilike) (feed : Feed L) (limit : Nat) (last : Option (SqueakEntry L)) (db : Db) :
    Except Err (List (SqueakEntry L)) := do
  feed.check ilike db
  getFeed L (feed.lists ilike) limit last db

theorem run_displayEntries (feed : Feed L) (limit : Nat) (last : Option (SqueakEntry L)) (w : World ρ) :
    (displayEntries defaultProfileImage (feed.page ilike limit last)).run w =
      (List.map Prod.snd <$> (feed.pager ilike defaultProfileImage).select limit (feedCursor last) w.db, w) := by
  have hquery : (query (ρ := ρ) (feed.page ilike limit last) >>= Prog.ofExcept).run w =
    (feed.page ilike limit last w.db, w) := by
    rw [Prog.run_bind, run_query]
    exact Prog.run_ofExcept _ _
  unfold displayEntries
  rw [Prog.run_bind, hquery]
  cases hcheck : feed.check ilike w.db with
  | error err => simp only [page, pager, hcheck]; rfl
  | ok =>
    have hpage : feed.page ilike limit last w.db =
        (feedRows (feed.lists ilike) limit (feedCursor last) w.db).mapM (parseSqueakEntry L) := by
      unfold page
      rw [hcheck]
      rfl
    have hselect : (feed.pager ilike defaultProfileImage).select limit (feedCursor last) w.db =
        sendRows (parseSqueakEntry L) (squeakEntryToMessage defaultProfileImage)
          (feedRows (feed.lists ilike) limit (feedCursor last) w.db) := by
      unfold pager
      dsimp only
      rw [hcheck]
      rfl
    rw [hpage, hselect, sendRows_messages]
    cases (feedRows (feed.lists ilike) limit (feedCursor last) w.db).mapM (parseSqueakEntry L) with
    | error err => rfl
    | ok entries => exact Prog.run_ofExcept _ _

theorem select_ok {feed : Feed L} {limit : Nat} {cursor : FeedKey} {db : Db}
    {items : List (SqueakEntry L × SqueakDisplayEntry)}
    (h : (feed.pager ilike defaultProfileImage).select limit cursor db = .ok items) :
    send L defaultProfileImage (feedRows (feed.lists ilike) limit cursor db) = .ok items := by
  obtain ⟨⟨⟩, -, h⟩ := ok_of_bind h
  exact h

/-- A request that nobody interrupts is answered with the page of its cursor. -/
theorem run_handle (hL : L.CodecLaws) (feed : Feed L) (limit : Nat) (lastEntry : Option SqueakDisplayEntry)
    (w : World ρ) :
    (feed.handle ilike defaultProfileImage limit lastEntry).run w =
      ((feed.pager ilike defaultProfileImage).answer limit lastEntry w.db, w) := by
  have hpage : ∀ last : Option (SqueakEntry L), decodeLastEntry L lastEntry = .ok last →
      (displayEntries defaultProfileImage (feed.page ilike limit last)).run w =
        ((feed.pager ilike defaultProfileImage).answer limit lastEntry w.db, w) := by
    intro last hlast
    have hcursor : (feed.pager ilike defaultProfileImage).cursor lastEntry w.db = .ok (feedCursor last) := by
      show feedCursor <$> decodeLastEntry L lastEntry = _
      rw [hlast]
      rfl
    rw [run_displayEntries]
    unfold Pager.answer
    rw [hcursor]
    rfl
  have herror : ∀ err, decodeLastEntry L lastEntry = .error err →
      (feed.pager ilike defaultProfileImage).answer limit lastEntry w.db = .error err := by
    intro err hlast
    simp only [Pager.answer, pager, hlast]
    rfl
  cases hdecode : decodeLastEntry L lastEntry with
  | error err =>
    rw [herror err hdecode]
    cases feed <;> simp only [handle, handleGetTimelineSqueakDisplayEntries, handleGetSqueakDisplayEntriesForPubkey,
      handleGetSqueakDisplayEntriesForTextSearch, handleGetReplySqueakDisplayEntries, hdecode, fromHex_hex] <;> rfl
  | ok last =>
    rw [← hpage last hdecode]
    cases feed with
    | timeline =>
      simp only [handle, handleGetTimelineSqueakDisplayEntries, hdecode]
      rfl
    | byPublicKey publicKey =>
      simp only [handle, handleGetSqueakDisplayEntriesForPubkey, hdecode, fromHex_hex]
      show (Prog.ofExcept (L.publicKeyFromBytes (L.publicKeyToBytes publicKey)) >>= _).run w = _
      rw [hL.publicKey]
      rfl
    | textSearch searchText =>
      simp only [handle, handleGetSqueakDisplayEntriesForTextSearch, hdecode]
      rfl
    | replies squeakHash =>
      simp only [handle, handleGetReplySqueakDisplayEntries, hdecode, fromHex_hex]
      rfl

/-! ## The pages of a feed -/

/-- The key of an entry comes back with its message. -/
theorem cursor_of_send (hL : L.CodecLaws) {rows : List JoinedRow} {items : List (SqueakEntry L × SqueakDisplayEntry)}
    (h : send L defaultProfileImage rows = .ok items) {x : SqueakEntry L × SqueakDisplayEntry} (hx : x ∈ items) :
    feedCursor <$> decodeLastEntry L (some x.2) = .ok x.1.key := by
  have hsent := messageToSqueakEntry_sent defaultProfileImage hL (mem_sendRows h hx).1
  simp only [decodeLastEntry, decodeLast, hsent]
  rfl

/-- The hash of a squeak, read off its key. -/
def keyHash (k : FeedKey) : Bytes := (ofLex (ofLex k).2).2

@[simp] theorem keyHash_feedKey (row : JoinedRow) : keyHash (feedKey row) = row.squeak.hash := rfl

@[simp] theorem keyHash_key (e : SqueakEntry L) : keyHash e.key = e.squeakHash := rfl

/-- The key of some squeak. -/
def IsKey (L : Squeaklib) (k : FeedKey) : Prop :=
  ∃ squeak, k = toLex (L.nBlockHeight squeak, toLex (L.nTime squeak, getHash L squeak))

theorem IsKey.eq (hH : L.HashLaw) {k k' : FeedKey} (hk : IsKey L k) (hk' : IsKey L k') (h : keyHash k = keyHash k') :
    k = k' := by
  obtain ⟨squeak, rfl⟩ := hk
  obtain ⟨squeak', rfl⟩ := hk'
  obtain ⟨hheight, htime⟩ := hH squeak squeak' (List.reverse_injective h)
  have hhash : getHash L squeak = getHash L squeak' := h
  rw [hheight, htime, hhash]

theorem isKey_of_mem_keys {feed : Feed L} {db : Db} (h : Listed L db) {k : FeedKey} (hk : k ∈ feed.keys ilike db) :
    IsKey L k := by
  obtain ⟨row, hrow, rfl⟩ := List.mem_map.1 hk
  have hrow := (List.mem_filter.1 hrow).1
  rw [joinProfiles_eq h.publicKeys] at hrow
  obtain ⟨r, hr, rfl⟩ := List.mem_map.1 hrow
  obtain ⟨squeak, hp⟩ := h.squeaks r hr
  refine ⟨squeak, ?_⟩
  show toLex (r.blockHeight, toLex (r.timeS, r.hash)) = _
  rw [hp.blockHeight, hp.timeS, hp.hash]

theorem nodup_keyHash_keys (feed : Feed L) {db : Db} (h : Listed L db) : ((feed.keys ilike db).map keyHash).Nodup := by
  have hsub : (((joinProfiles db).filter (feed.lists ilike)).map fun row => row.squeak.hash).Sublist
      ((joinProfiles db).map fun row => row.squeak.hash) := List.filter_sublist.map _
  have hall : (joinProfiles db).map (fun row => row.squeak.hash) = db.squeaks.map SqueakRow.hash := by
    rw [joinProfiles_eq h.publicKeys, List.map_map]
    rfl
  rw [hall] at hsub
  unfold keys rows
  rw [List.map_map]
  exact h.hashes.sublist hsub

variable (L) in
/-- The statements of a node, as the changes of a store. -/
def change (s : Statement L) (db : Db) : Option Db := some (s.commit db)

variable (ilike defaultProfileImage)

theorem lawful (hL : L.CodecLaws) (hH : L.HashLaw) (feed : Feed L) :
    (feed.pager ilike defaultProfileImage).Lawful (change L) (Listed L) SqueakEntry.key (feed.keys ilike) keyHash
      fun _ k => IsKey L k where
  keeps hinv ha := by
    cases ha
    exact listed_commit _ hinv
  distinct hinv := nodup_keyHash_keys feed hinv
  page {limit c d items} _ hitems := by
    rw [map_sendRows (fun _ _ => key_of_parse) (select_ok hitems)]
    exact map_selectPage
  cursor {limit c d items x d' c'} _ hitems hx hc := by
    have hkey := cursor_of_send hL (select_ok hitems) hx
    have hc : feedCursor <$> decodeLastEntry L (some x.2) = .ok c' := hc
    rw [hkey] at hc
    exact (Except.ok.inj hc).symm
  mark_inv hinv := hinv
  mark_keys _ := rfl
  mark_old hinv hk := hk.elim (isKey_of_mem_keys hinv) id
  old_change _ _ hk := hk
  fresh {a d d' k k'} hinv ha hk hk' _ heq := by
    cases ha
    exact (hk.eq hH (isKey_of_mem_keys (listed_commit a hinv) hk') heq).le

theorem total (hL : L.CodecLaws) (feed : Feed L) :
    (feed.pager ilike defaultProfileImage).Total (Listed L) fun db => Sendable db ∧ feed.check ilike db = .ok () where
  first _ := ⟨feedCursor (none : Option (SqueakEntry L)), rfl⟩
  cursor {limit c d items x} d' _ hitems hx := ⟨x.1.key, cursor_of_send hL (select_ok hitems) hx⟩
  select limit c d hinv hready := by
    have hrows : ∀ row ∈ feedRows (feed.lists ilike) limit c d, row ∈ joinProfiles d := fun row hrow =>
      (List.mem_filter.1 (mem_selectPage hrow).1).1
    have hsend : ∃ items, send L defaultProfileImage (feedRows (feed.lists ilike) limit c d) = .ok items := by
      refine sendRows_total fun row hrow => ?_
      obtain ⟨e, he, hfits⟩ := parseSqueakEntry_total hL hinv (hrows row hrow)
      obtain ⟨msg, hmsg⟩ := squeakEntryToMessage_fits defaultProfileImage (hfits hready.1)
      exact ⟨e, msg, he, hmsg⟩
    obtain ⟨items, hitems⟩ := hsend
    refine ⟨items, ?_⟩
    unfold pager
    dsimp only
    rw [hready.2]
    exact hitems

/-! ## What a feed has -/

/-- The squeaks that match a feed. -/
def Matches (ilike : Ilike) (feed : Feed L) (db : Db) (r : SqueakRow) : Prop :=
  match feed with
  | timeline => ∃ p ∈ db.profiles.rows, p.publicKey = r.authorPublicKey ∧ p.following = true
  | byPublicKey publicKey => r.authorPublicKey = L.publicKeyToBytes publicKey
  | textSearch searchText => ∃ content, r.content = some content ∧ ilike.isMatch content (searchPattern searchText) = true
  | replies squeakHash => r.replyHash = some squeakHash

theorem lists_joined (feed : Feed L) {db : Db} (hdb : Listed L db) (r : SqueakRow) :
    feed.lists ilike (joined db.profiles.rows r) = true ↔ feed.Matches ilike db r := by
  cases feed with
  | timeline =>
    show (db.profiles.rows.find? (isAuthor r)).any ProfileRow.following = true ↔ _
    rw [Option.any_eq_true]
    constructor
    · rintro ⟨p, hp, hfollowing⟩
      exact ⟨p, List.mem_of_find?_eq_some hp, publicKey_of_isAuthor (List.find?_some hp), hfollowing⟩
    · rintro ⟨p, hp, hkey, hfollowing⟩
      have hauthor : isAuthor r p = true := beq_iff_eq.2 hkey
      obtain ⟨p', hp'⟩ := Option.isSome_iff_exists.1 (List.find?_isSome.2 ⟨p, hp, hauthor⟩)
      have heq : p' = p := hdb.publicKeys.eq (List.mem_of_find?_eq_some hp') hp
        ((publicKey_of_isAuthor (List.find?_some hp')).trans hkey.symm)
      exact ⟨p', hp', heq ▸ hfollowing⟩
  | byPublicKey publicKey => exact beq_iff_eq
  | textSearch searchText => exact Option.any_eq_true _ _
  | replies squeakHash => exact beq_iff_eq

/-- The rows of a feed are those of its squeaks. -/
theorem mem_rows {feed : Feed L} {db : Db} (hdb : Listed L db) {row : JoinedRow} :
    row ∈ feed.rows ilike db ↔ ∃ r ∈ db.squeaks, feed.Matches ilike db r ∧ joined db.profiles.rows r = row := by
  unfold rows
  rw [joinProfiles_eq hdb.publicKeys, List.mem_filter, List.mem_map]
  constructor
  · rintro ⟨⟨r, hr, rfl⟩, hlists⟩
    exact ⟨r, hr, (lists_joined ilike feed hdb r).1 hlists, rfl⟩
  · rintro ⟨r, hr, hmatches, rfl⟩
    exact ⟨⟨r, hr, rfl⟩, (lists_joined ilike feed hdb r).2 hmatches⟩

/-- The feed has a squeak of this hash. -/
def Has (ilike : Ilike) (feed : Feed L) (db : Db) (squeakHash : Bytes) : Prop :=
  ∃ r ∈ db.squeaks, feed.Matches ilike db r ∧ r.hash = squeakHash ∧ r.blockHeight < maxInt

/-- A squeak that the feed has at each of some pages has the same key in all their tables. -/
theorem key_of_has (hH : L.HashLaw) {feed : Feed L} {pages : List (Db × List (SqueakEntry L))}
    (hlisted : ∀ p ∈ pages, Listed L p.1) {p₀ : Db × List (SqueakEntry L)} (hp₀ : p₀ ∈ pages) {squeakHash : Bytes}
    (hall : ∀ p ∈ pages, feed.Has ilike p.1 squeakHash) :
    ∃ k, keyHash k = squeakHash ∧ k < feedCursor (none : Option (SqueakEntry L)) ∧
      ∀ p ∈ pages, k ∈ feed.keys ilike p.1 := by
  have hkey : ∀ p ∈ pages, ∃ k ∈ feed.keys ilike p.1,
      keyHash k = squeakHash ∧ k < feedCursor (none : Option (SqueakEntry L)) := by
    intro p hp
    obtain ⟨r, hr, hmatches, rfl, hheight⟩ := hall p hp
    have hrow := (mem_rows ilike (hlisted p hp)).2 ⟨r, hr, hmatches, rfl⟩
    exact ⟨_, List.mem_map_of_mem hrow, rfl, Prod.Lex.toLex_lt_toLex.2 (.inl hheight)⟩
  obtain ⟨k, hk, hhash, hlt⟩ := hkey p₀ hp₀
  refine ⟨k, hhash, hlt, fun p hp => ?_⟩
  obtain ⟨k', hk', hhash', -⟩ := hkey p hp
  have hsame : k' = k := (isKey_of_mem_keys (hlisted p hp) hk').eq hH (isKey_of_mem_keys (hlisted p₀ hp₀) hk)
    (hhash'.trans hhash.symm)
  exact hsame ▸ hk'

/-! ## The replies of the node -/

/-- The entries are sent in reply to the message `last`, from the tables `db`. -/
def Replies (feed : Feed L) (limit : Nat) (last : Option SqueakDisplayEntry) (db : Db)
    (items : List (SqueakEntry L × SqueakDisplayEntry)) : Prop :=
  (∀ x ∈ items, squeakEntryToMessage defaultProfileImage x.1 = .ok x.2) ∧
    ∀ {ρ : Type} (w : World ρ), w.db = db →
      ((feed.handle ilike defaultProfileImage limit last).run w).1 = .ok (items.map Prod.snd)

theorem replies_of_pager (hL : L.CodecLaws) {feed : Feed L} {limit : Nat} {last : Option SqueakDisplayEntry} {db : Db}
    {items : List (SqueakEntry L × SqueakDisplayEntry)}
    (h : (feed.pager ilike defaultProfileImage).Replies (fun _ _ => True) limit last db items) :
    feed.Replies ilike defaultProfileImage limit last db items := by
  obtain ⟨asked, c, -, hcursor, hselect⟩ := h
  refine ⟨fun x hx => (mem_sendRows (select_ok hselect) hx).1, fun w hdb => ?_⟩
  -- the cursor does not depend on the tables
  have hcursor' : (feed.pager ilike defaultProfileImage).cursor last db = .ok c := hcursor
  rw [run_handle hL, hdb]
  unfold Pager.answer
  rw [hcursor']
  show List.map Prod.snd <$> (feed.pager ilike defaultProfileImage).select limit c db = _
  rw [hselect]
  rfl

/-! ## Traversals of a feed -/

/-- All entries that a client received, in order. -/
def entries (t : Traversal Db (SqueakEntry L) SqueakDisplayEntry FeedKey) : List (SqueakEntry L) :=
  t.pages.flatMap Prod.snd

end Feed

/-- Whatever is written to the tables between the pages of a feed, and between the request of a page
and its SELECT: each page is the reply of the feed's handler to the last message of the page before; the entries
received descend strictly, no squeak comes twice, a squeak of a page matched the feed when the page was read, and after
a short page every squeak that matched it at each of the pages was received exactly once. Before that page, the
traversal goes on. -/
theorem feeds_exact (hL : L.CodecLaws) (hH : L.HashLaw) (ilike : Ilike)
    (defaultProfileImage : Bytes) (feed : Feed L) {limit : Nat} (hlimit : 0 < limit) {db : Db} (hdb : Listed L db)
    {t : Traversal Db (SqueakEntry L) SqueakDisplayEntry FeedKey}
    {history : List (Traversal Db (SqueakEntry L) SqueakDisplayEntry FeedKey × Traversal.Act (Statement L))}
    (hr : Machine.Run (Traversal.step (Feed.change L) (feed.pager ilike defaultProfileImage) limit) (.start db) history t) :
    Conversation (feed.Replies ilike defaultProfileImage limit) t.pages t.last ∧
      (Feed.entries t).Pairwise (fun a b => b.key < a.key) ∧
      ((Feed.entries t).map SqueakEntry.squeakHash).Nodup ∧
      (∀ p ∈ t.pages, ∀ e ∈ p.2, ∃ r ∈ p.1.squeaks, feed.Matches ilike p.1 r ∧ r.hash = e.squeakHash) ∧
      (t.finished limit = true → ∀ squeakHash, (∀ p ∈ t.pages, feed.Has ilike p.1 squeakHash) →
        ((Feed.entries t).map SqueakEntry.squeakHash).count squeakHash = 1) ∧
      (t.finished limit = false → Sendable t.store → feed.check ilike t.store = .ok () →
        ∃ a ∈ [Traversal.Act.request, .answer],
          ∃ t', Traversal.step (Feed.change L) (feed.pager ilike defaultProfileImage) limit a t = some t') := by
  have hlawful := Feed.lawful ilike defaultProfileImage hL hH feed
  have hwalk := walk_of_run hlawful hlimit hdb hr
  have hexact := hwalk.exact hlawful hlimit
  have hreceived : t.received SqueakEntry.key = (Feed.entries t).map SqueakEntry.key := by
    unfold Traversal.received Feed.entries
    rw [List.map_flatMap]
  have hhashes : (t.received SqueakEntry.key).map Feed.keyHash = (Feed.entries t).map SqueakEntry.squeakHash := by
    rw [hreceived, List.map_map]
    rfl
  refine ⟨?_, ?_, ?_, ?_, ?_, ?_⟩
  · have hpages := conversation_of_run (R := fun _ _ : Db => True) (fun _ => trivial) (fun _ _ => trivial) hr
    exact hpages.imp fun _ _ _ _ h => Feed.replies_of_pager ilike defaultProfileImage hL h
  · exact List.pairwise_map.1 (hreceived ▸ hexact.descending)
  · exact hhashes ▸ hexact.once
  · intro p hp e he
    obtain ⟨row, hrow, hkey⟩ := List.mem_map.1 (hexact.matched p hp e he)
    obtain ⟨r, hr, hmatches, rfl⟩ := (Feed.mem_rows ilike (hwalk.stores p hp)).1 hrow
    exact ⟨r, hr, hmatches, congrArg Feed.keyHash hkey⟩
  · intro hfinished squeakHash hall
    have hlast : ∃ p, p ∈ t.pages := by
      unfold Traversal.finished at hfinished
      cases hpages : t.pages with
      | nil => simp [hpages] at hfinished
      | cons p pages => exact ⟨p, List.mem_cons_self⟩
    obtain ⟨p₀, hp₀⟩ := hlast
    obtain ⟨k, hkhash, hlt, hkeys⟩ := Feed.key_of_has ilike hH hwalk.stores hp₀ hall
    have hbegan : ∃ d top, t.began = some (d, top) := by
      cases hb : t.began with
      | none =>
        rw [(hwalk.fresh hb).1] at hp₀
        cases hp₀
      | some began => exact ⟨began.1, began.2, rfl⟩
    obtain ⟨d, top, hbegan⟩ := hbegan
    have htop : feedCursor (none : Option (SqueakEntry L)) = top := Except.ok.inj (hwalk.began d top hbegan).2.1
    have hmem := hexact.complete hfinished d top hbegan k (htop ▸ hlt) hkeys
    have hin : squeakHash ∈ (Feed.entries t).map SqueakEntry.squeakHash := by
      rw [← hhashes]
      exact List.mem_map.2 ⟨k, hmem, hkhash⟩
    exact List.count_eq_one_of_mem (hhashes ▸ hexact.once) hin
  · exact fun hfinished hsend hcheck =>
      hwalk.goes_on _ (Feed.total ilike defaultProfileImage hL feed) ⟨hsend, hcheck⟩ hfinished

namespace Sample

theorem hashLaw : squeaklib.HashLaw := by
  intro s s' h
  rw [show s = s' from Subtype.ext h]
  exact ⟨rfl, rfl⟩

/-- LIKE with the wildcards % and _, whatever the case of the letters. -/
def like : (pattern content : List Char) → Bool
  | [], content => content.isEmpty
  | '%' :: pattern, content => content.tails.any (like pattern)
  | '_' :: pattern, content => !content.isEmpty && like pattern (content.drop 1)
  | c :: pattern, content => content.head?.any (fun d => c.toLower == d.toLower) && like pattern (content.drop 1)

/-- A database that takes every pattern. -/
def ilike : Ilike where
  isMatch content pattern := like pattern.toList content.toList
  tooComplex _ := false

/-- A public squeak of the same author at the next height. -/
def newerSqueak : Squeak := ⟨[1, 0, 8, 9, 5, 8, 0, 121], rfl⟩

/-- The search of the sample. -/
def search : Feed squeaklib := .textSearch "a"

/-- A search with one squeak a page, during which the newer squeak is downloaded a second time. -/
def searching : List (Traversal.Act (Statement squeaklib)) :=
  [.change (.insertSqueak 1000 squeak ⟨4200⟩), .change (.setSqueakDecryptedContent squeak.val.reverse "Ada"),
    .change (.insertSqueak 2000 newerSqueak ⟨4800⟩), .change (.setSqueakDecryptedContent newerSqueak.val.reverse "data"),
    .request, .answer, .change (.deleteSqueak newerSqueak.val.reverse), .request,
    .change (.insertSqueak 3000 newerSqueak ⟨4800⟩), .change (.setSqueakDecryptedContent newerSqueak.val.reverse "data"),
    .answer, .request, .answer]

end Sample

theorem feeds_exact_sample : ∃ (history : List _) (t : Traversal Db (SqueakEntry Sample.squeaklib) _ _),
    Machine.Run (Traversal.step (Feed.change Sample.squeaklib) (Sample.search.pager Sample.ilike []) 1)
      (.start .empty) history t ∧ t.finished 1 = true ∧
    (Feed.entries t).map SqueakEntry.squeakHash = [Sample.newerSqueak.val.reverse, Sample.squeak.val.reverse] ∧
    ((Feed.entries t).map SqueakEntry.squeakHash).Nodup := by
  have hexec : (Machine.exec
      (Traversal.step (Feed.change Sample.squeaklib) (Sample.search.pager Sample.ilike []) 1) Sample.searching
      (.start .empty)).map (fun r => (r.2.finished 1, (Feed.entries r.2).map SqueakEntry.squeakHash)) =
      some (true, [Sample.newerSqueak.val.reverse, Sample.squeak.val.reverse]) := by decide +kernel
  obtain ⟨⟨history, t⟩, hrun, hstate⟩ := Option.map_eq_some_iff.1 hexec
  obtain ⟨hfinished, hhashes⟩ : t.finished 1 = true ∧ (Feed.entries t).map SqueakEntry.squeakHash = _ := by
    simpa only [Prod.mk.injEq] using hstate
  have hr := Machine.run_exec hrun
  exact ⟨history, t, hr, hfinished, hhashes,
    (feeds_exact Sample.codecLaws Sample.hashLaw Sample.ilike [] _ (by decide) (listed_empty _) hr).2.2.1⟩

end Squeaknode
