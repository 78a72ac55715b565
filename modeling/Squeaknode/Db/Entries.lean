/-
Squeak entries: the squeaks joined with the profiles of their author and their recipient, as the
admin page lists them. The queries of the feeds are keyset queries over this join; a method computes
its cursor from the last entry before it runs its statement.
-/
import Squeaknode.Db.SqueakDb
import Squeaknode.Relational.Keyset
import Squeaknode.Wire.Hex
import Mathlib.Data.List.Lex
import Mathlib.Data.Prod.Lex

namespace Squeaknode

open Relational

/-- The order of the bytes, under which BLOBs are compared byte by byte. -/
instance instLinearOrderByte : LinearOrder UInt8 where
  le_refl _ := UInt8.le_refl _
  le_trans _ _ _ := UInt8.le_trans
  le_antisymm _ _ := UInt8.le_antisymm
  le_total := UInt8.le_total
  lt_iff_le_not_ge _ _ := by grind
  toDecidableLE := inferInstance
  toDecidableEq := inferInstance
  toDecidableLT := inferInstance

namespace SqueakDb

/-! ## The join with the profiles -/

structure SqueakEntry (L : Squeaklib) where
  squeakHash : Bytes
  serializedSqueak : Bytes
  publicKey : L.PublicKey
  recipientPublicKey : Option L.PublicKey
  blockHeight : Int
  blockHash : Bytes
  blockTime : Int
  squeakTime : Int
  replyTo : Option Bytes
  isUnlocked : Bool
  secretKey : Option Bytes
  squeakProfile : Option (SqueakProfile L)
  recipientSqueakProfile : Option (SqueakProfile L)
  likedTimeMs : Option Int
  content : Option String

/-- A row of squeaks LEFT OUTER JOIN author profiles LEFT OUTER JOIN recipient profiles. -/
structure JoinedRow where
  squeak : SqueakRow
  author : Option ProfileRow
  recipient : Option ProfileRow
  deriving DecidableEq, Repr

def isAuthor (r : SqueakRow) (p : ProfileRow) : Bool := p.publicKey == r.authorPublicKey

/-- NULL equals no public key. -/
def isRecipient (r : SqueakRow) (p : ProfileRow) : Bool := r.recipientPublicKey == some p.publicKey

def joinProfiles (db : Db) : List JoinedRow :=
  (leftOuterJoin (fun x p => isRecipient x.1 p) (leftOuterJoin isAuthor db.squeaks db.profiles.rows)
    db.profiles.rows).map fun x => ⟨x.1.1, x.1.2, x.2⟩

/-- The profiles that a squeak is joined with when public keys are unique. -/
def joined (profiles : List ProfileRow) (r : SqueakRow) : JoinedRow :=
  ⟨r, profiles.find? (isAuthor r), profiles.find? (isRecipient r)⟩

theorem publicKey_of_isAuthor {r : SqueakRow} {p : ProfileRow} (h : isAuthor r p = true) :
    p.publicKey = r.authorPublicKey := eq_of_beq h

theorem length_filter_isRecipient {profiles : List ProfileRow} (h : UniqueOn ProfileRow.publicKey profiles)
    (r : SqueakRow) : (profiles.filter (isRecipient r)).length ≤ 1 := by
  cases hr : r.recipientPublicKey with
  | none =>
    have hnone : profiles.filter (isRecipient r) = [] := by simp [isRecipient, hr]
    simp [hnone]
  | some k =>
    have hkey : ∀ p, isRecipient r p = true → p.publicKey = k := by
      intro p hp
      have heq : r.recipientPublicKey = some p.publicKey := eq_of_beq hp
      rw [hr] at heq
      exact (Option.some.inj heq).symm
    exact length_filter_le_one h hkey

/-- Public keys of profiles are unique, so that the joins neither drop nor repeat a squeak. -/
theorem joinProfiles_eq {db : Db} (h : UniqueOn ProfileRow.publicKey db.profiles.rows) :
    joinProfiles db = db.squeaks.map (joined db.profiles.rows) := by
  have hauthor : leftOuterJoin isAuthor db.squeaks db.profiles.rows =
      db.squeaks.map fun r => (r, db.profiles.rows.find? (isAuthor r)) :=
    leftOuterJoin_eq_map fun r _ => length_filter_le_one h fun _ => publicKey_of_isAuthor
  unfold joinProfiles
  rw [leftOuterJoin_eq_map fun x _ => length_filter_isRecipient h x.1, hauthor, List.map_map, List.map_map]
  rfl

/-! ## Entries -/

section Parse

variable (L : Squeaklib)

def tryParseSqueakProfile : Option ProfileRow → Except Err (Option (SqueakProfile L))
  | none => .ok none
  | some r => some <$> parseSqueakProfile L r

/-- Python truth: an empty BLOB is as false as NULL. -/
def nonEmpty : Option Bytes → Option Bytes
  | some [] => none
  | bytes => bytes

def parseRecipientPublicKey (bytes : Option Bytes) : Except Err (Option L.PublicKey) :=
  match nonEmpty bytes with
  | none => .ok none
  | some bytes => some <$> L.publicKeyFromBytes bytes

def parseSqueakEntry (row : JoinedRow) : Except Err (SqueakEntry L) := do
  let profile ← tryParseSqueakProfile L row.author
  let recipientProfile ← tryParseSqueakProfile L row.recipient
  let publicKey ← L.publicKeyFromBytes row.squeak.authorPublicKey
  let recipientPublicKey ← parseRecipientPublicKey L row.squeak.recipientPublicKey
  return {
    squeakHash := row.squeak.hash
    serializedSqueak := row.squeak.squeak
    publicKey := publicKey
    recipientPublicKey := recipientPublicKey
    blockHeight := row.squeak.blockHeight
    blockHash := row.squeak.blockHash
    blockTime := row.squeak.blockTimeS
    squeakTime := row.squeak.timeS
    replyTo := nonEmpty row.squeak.replyHash
    isUnlocked := (nonEmpty row.squeak.secretKey).isSome
    secretKey := row.squeak.secretKey
    squeakProfile := profile
    recipientSqueakProfile := recipientProfile
    likedTimeMs := row.squeak.likedTimeMs
    content := row.squeak.content }

end Parse

section Feeds

variable {L : Squeaklib}

/-! ## Feeds -/

def maxInt : Int := 999999999999

def maxHash : Bytes := List.replicate 32 0xff

/-- (block_height, time_s, hash), compared from left to right. -/
abbrev FeedKey := Int ×ₗ Int ×ₗ Bytes

/-- The key of a row. -/
def feedKey (row : JoinedRow) : FeedKey :=
  toLex (row.squeak.blockHeight, toLex (row.squeak.timeS, row.squeak.hash))

/-- The key of an entry, as the next page of its feed starts below it. -/
def SqueakEntry.key (e : SqueakEntry L) : FeedKey := toLex (e.blockHeight, toLex (e.squeakTime, e.squeakHash))

/-- A page starts below the last entry of the one before, or at the greatest key. -/
def feedCursor (lastEntry : Option (SqueakEntry L)) : FeedKey :=
  lastEntry.elim (toLex (maxInt, toLex (maxInt, maxHash))) SqueakEntry.key

/-- The rows of a feed that are on a page. -/
def feedRows (p : JoinedRow → Bool) (limit : Nat) (cursor : FeedKey) (db : Db) : List JoinedRow :=
  selectPage feedKey limit cursor ((joinProfiles db).filter p)

/-- A feed: the entries that match `p` below the last entry, newest first. -/
def getFeed (L : Squeaklib) (p : JoinedRow → Bool) (limit : Nat) (lastEntry : Option (SqueakEntry L)) (db : Db) :
    Except Err (List (SqueakEntry L)) :=
  (feedRows p limit (feedCursor lastEntry) db).mapM (parseSqueakEntry L)

/-- The author's profile is there and followed: NULL is not true. -/
def profileIsFollowing (row : JoinedRow) : Bool := row.author.any ProfileRow.following

def isByPublicKey (publicKey : L.PublicKey) (row : JoinedRow) : Bool :=
  row.squeak.authorPublicKey == L.publicKeyToBytes publicKey

/-- The operator ILIKE of the database: the contents that a pattern matches, and the patterns that it does not take. -/
structure Ilike where
  isMatch : (content pattern : String) → Bool
  tooComplex : (pattern : String) → Bool

def searchPattern (searchText : String) : String := "%" ++ searchText ++ "%"

/-- NULL does not match. -/
def contentHasText (ilike : Ilike) (searchText : String) (row : JoinedRow) : Bool :=
  row.squeak.content.any fun content => ilike.isMatch content (searchPattern searchText)

/-- ILIKE is evaluated on the content of each squeak, NULL included. -/
def checkPattern (ilike : Ilike) (searchText : String) (db : Db) : Except Err Unit :=
  if !db.squeaks.isEmpty && ilike.tooComplex (searchPattern searchText) then
    .error (.operationalError "LIKE or GLOB pattern too complex")
  else .ok ()

def isReplyTo (squeakHash : Bytes) (row : JoinedRow) : Bool := row.squeak.replyHash == some squeakHash

def getTimelineSqueakEntries (L : Squeaklib) : Nat → Option (SqueakEntry L) → Db → Except Err (List (SqueakEntry L)) :=
  getFeed L profileIsFollowing

def getSqueakEntriesForPublicKey (publicKey : L.PublicKey) :
    Nat → Option (SqueakEntry L) → Db → Except Err (List (SqueakEntry L)) :=
  getFeed L (isByPublicKey publicKey)

def getSqueakEntriesForTextSearch (L : Squeaklib) (ilike : Ilike) (searchText : String) (limit : Nat)
    (lastEntry : Option (SqueakEntry L)) (db : Db) : Except Err (List (SqueakEntry L)) := do
  checkPattern ilike searchText db
  getFeed L (contentHasText ilike searchText) limit lastEntry db

def getThreadReplySqueakEntries (L : Squeaklib) (squeakHash : Bytes) :
    Nat → Option (SqueakEntry L) → Db → Except Err (List (SqueakEntry L)) :=
  getFeed L (isReplyTo squeakHash)

/-- What an entry takes over from its row. -/
theorem parseSqueakEntry_ok {row : JoinedRow} {e : SqueakEntry L} (h : parseSqueakEntry L row = .ok e) :
    tryParseSqueakProfile L row.author = .ok e.squeakProfile ∧
      tryParseSqueakProfile L row.recipient = .ok e.recipientSqueakProfile ∧ e.squeakHash = row.squeak.hash ∧
      e.blockHeight = row.squeak.blockHeight ∧ e.blockTime = row.squeak.blockTimeS ∧ e.squeakTime = row.squeak.timeS ∧
      e.likedTimeMs = row.squeak.likedTimeMs := by
  obtain ⟨profile, hprofile, h⟩ := ok_of_bind h
  obtain ⟨recipientProfile, hrecipient, h⟩ := ok_of_bind h
  obtain ⟨publicKey, -, h⟩ := ok_of_bind h
  obtain ⟨recipientPublicKey, -, h⟩ := ok_of_bind h
  cases h
  exact ⟨hprofile, hrecipient, rfl, rfl, rfl, rfl, rfl⟩

theorem key_of_parse {row : JoinedRow} {e : SqueakEntry L} (h : parseSqueakEntry L row = .ok e) :
    e.key = feedKey row := by
  obtain ⟨-, -, hhash, hheight, -, htime, -⟩ := parseSqueakEntry_ok h
  unfold SqueakEntry.key feedKey
  rw [hhash, hheight, htime]

theorem parseSqueakProfile_total (hL : L.CodecLaws) {r : ProfileRow} {p : SqueakProfile L}
    (hpublic : r.publicKey = L.publicKeyToBytes p.publicKey)
    (hprivate : r.privateKey = p.privateKey.map L.privateKeyToBytes) :
    ∃ q, parseSqueakProfile L r = .ok q ∧ q.profileId = some r.profileId := by
  unfold parseSqueakProfile
  dsimp only
  rw [hpublic, hL.publicKey, hprivate]
  cases p.privateKey with
  | none => exact ⟨_, rfl, rfl⟩
  | some k =>
    have hk := hL.privateKey k
    rw [Option.map_some]
    -- an empty private key column is no private key
    cases hbytes : L.privateKeyToBytes k with
    | nil => exact ⟨_, rfl, rfl⟩
    | cons b bytes =>
      rw [hbytes] at hk
      dsimp only
      rw [hk]
      exact ⟨_, rfl, rfl⟩

/-- A profile whose keys are proper parses. -/
theorem tryParseSqueakProfile_total (hL : L.CodecLaws) (row : Option ProfileRow)
    (h : ∀ r, row = some r → ∃ p : SqueakProfile L,
      r.publicKey = L.publicKeyToBytes p.publicKey ∧ r.privateKey = p.privateKey.map L.privateKeyToBytes) :
    ∃ profile, tryParseSqueakProfile L row = .ok profile ∧
      profile.map SqueakProfile.profileId = row.map fun r => some r.profileId := by
  cases row with
  | none => exact ⟨none, rfl, rfl⟩
  | some r =>
    obtain ⟨p, hpublic, hprivate⟩ := h r rfl
    obtain ⟨q, hq, hid⟩ := parseSqueakProfile_total hL hpublic hprivate
    refine ⟨some q, ?_, congrArg some hid⟩
    show some <$> parseSqueakProfile L r = _
    rw [hq]
    rfl

theorem parseRecipientPublicKey_total (hL : L.CodecLaws) (p : L.PublicKey) :
    ∃ k, parseRecipientPublicKey L (some (L.publicKeyToBytes p)) = .ok k := by
  have hp := hL.publicKey p
  unfold parseRecipientPublicKey
  cases hbytes : L.publicKeyToBytes p with
  | nil => exact ⟨none, rfl⟩
  | cons b bytes =>
    rw [hbytes] at hp
    show ∃ k, some <$> L.publicKeyFromBytes (b :: bytes) = _
    rw [hp]
    exact ⟨_, rfl⟩

end Feeds

end SqueakDb

end Squeaknode
