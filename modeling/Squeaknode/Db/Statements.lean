/-
Everything that is written to the tables of the model, as data: the INSERT, UPDATE and DELETE
statements of the node with the values they are run with. Whatever the programs of a node do to these
tables, they do it by a sequence of these.
-/
import Squeaknode.Core.SqueakCore

namespace Squeaknode

open Relational SqueakDb

/-- A statement that writes; `now` is the time that its method reads before it runs it. -/
inductive Statement (L : Squeaklib) where
  | insertSqueak (now : Int) (squeak : L.CSqueak) (header : BlockHeader)
  | setSqueakSecretKey (squeakHash secretKey : Bytes)
  | setSqueakDecryptedContent (squeakHash : Bytes) (content : String)
  | setSqueakLiked (squeakHash : Bytes) (now : Int)
  | setSqueakUnliked (squeakHash : Bytes)
  | deleteSqueak (squeakHash : Bytes)
  | insertProfile (now : Int) (profile : SqueakProfile L)
  | setProfileFollowing (profileId : Nat) (following : Bool)
  | setProfileName (profileId : Nat) (profileName : String)
  | setProfileImage (profileId : Nat) (profileImage : Option Bytes)
  | deleteProfile (profileId : Nat)
  | insertReceivedOffer (now : Int) (receivedOffer : ReceivedOffer)
  | setReceivedOfferPaid (paymentHash : Bytes) (paid : Bool)
  | deleteExpiredReceivedOffers (now intervalS : Int)
  | insertSentPayment (now : Int) (sentPayment : SentPayment)
  | insertSentOffer (now : Int) (sentOffer : SentOffer)
  | setSentOfferPaid (paymentHash : Bytes) (paid : Bool)
  | deleteExpiredSentOffers (now intervalS : Int)
  | insertReceivedPayment (now : Int) (receivedPayment : ReceivedPayment)
  | clearReceivedPaymentSettleIndices

namespace Statement

variable {L : Squeaklib}

/-- What a statement does to the database. -/
def commit : Statement L → Db → Db
  | insertSqueak now squeak header => fun db =>
    (SqueakDb.insertSqueak (squeakRow L now (getHash L squeak) squeak header) db).2
  | setSqueakSecretKey squeakHash secretKey => SqueakDb.setSqueakSecretKey squeakHash secretKey
  | setSqueakDecryptedContent squeakHash content => SqueakDb.setSqueakDecryptedContent squeakHash content
  | setSqueakLiked squeakHash now => SqueakDb.setSqueakLiked squeakHash now
  | setSqueakUnliked squeakHash => SqueakDb.setSqueakUnliked squeakHash
  | deleteSqueak squeakHash => SqueakDb.deleteSqueak squeakHash
  | insertProfile now profile => fun db => (SqueakDb.insertProfile L now profile db).2
  | setProfileFollowing profileId following => SqueakDb.setProfileFollowing profileId following
  | setProfileName profileId profileName => fun db => (SqueakDb.setProfileName profileId profileName db).2
  | setProfileImage profileId profileImage => SqueakDb.setProfileImage profileId profileImage
  | deleteProfile profileId => SqueakDb.deleteProfile profileId
  | insertReceivedOffer now receivedOffer => fun db => (SqueakDb.insertReceivedOffer now receivedOffer db).2
  | setReceivedOfferPaid paymentHash paid => SqueakDb.setReceivedOfferPaid paymentHash paid
  | deleteExpiredReceivedOffers now intervalS => fun db => (SqueakDb.deleteExpiredReceivedOffers now intervalS db).2
  | insertSentPayment now sentPayment => fun db => (SqueakDb.insertSentPayment now sentPayment db).2
  | insertSentOffer now sentOffer => fun db => (SqueakDb.insertSentOffer now sentOffer db).2
  | setSentOfferPaid paymentHash paid => SqueakDb.setSentOfferPaid paymentHash paid
  | deleteExpiredSentOffers now intervalS => fun db => (SqueakDb.deleteExpiredSentOffers now intervalS db).2
  | insertReceivedPayment now receivedPayment => fun db => (SqueakDb.insertReceivedPayment now receivedPayment db).2
  | clearReceivedPaymentSettleIndices => SqueakDb.clearReceivedPaymentSettleIndices

/-! ## What a statement leaves alone -/

/-- What a statement does to the squeaks: nothing, one more row, an update of the key, the content or
the like of one row, or one row less. -/
inductive SqueakEffect (L : Squeaklib) (likedAt : Option Int) : List SqueakRow → List SqueakRow → Prop
  | same (rows : List SqueakRow) : SqueakEffect L likedAt rows rows
  | inserted (time : Int) (squeak : L.CSqueak) (header : BlockHeader) {rows : List SqueakRow} :
      taken SqueakRow.hash (getHash L squeak) rows = false →
      SqueakEffect L likedAt rows (rows ++ [squeakRow L time (getHash L squeak) squeak header])
  | updated (squeakHash : Bytes) (f : SqueakRow → SqueakRow) (rows : List SqueakRow) :
      (∀ r, f r = { r with secretKey := (f r).secretKey, content := (f r).content, likedTimeMs := (f r).likedTimeMs }) →
      (∀ r, (f r).likedTimeMs = r.likedTimeMs ∨ (f r).likedTimeMs = none ∨ (f r).likedTimeMs = likedAt) →
      SqueakEffect L likedAt rows (updateWhere (fun r => r.hash == squeakHash) f rows)
  | deleted (squeakHash : Bytes) (rows : List SqueakRow) :
      SqueakEffect L likedAt rows (deleteWhere (fun r => r.hash == squeakHash) rows)

/-- The time a statement was run with. -/
def now : Statement L → Option Int
  | insertSqueak now _ _ | setSqueakLiked _ now | insertProfile now _ | insertReceivedOffer now _ |
    deleteExpiredReceivedOffers now _ | insertSentPayment now _ | insertSentOffer now _ | deleteExpiredSentOffers now _ |
    insertReceivedPayment now _ => some now
  | _ => none

/-- The time of a like. -/
def likedAt : Statement L → Option Int
  | setSqueakLiked _ now => some now
  | _ => none

theorem now_of_likedAt {s : Statement L} {t : Int} (h : s.likedAt = some t) : s.now = some t := by
  cases s with
  | setSqueakLiked squeakHash now => exact h
  | _ => cases h

theorem commit_insertReceivedOffer (now : Int) (receivedOffer : ReceivedOffer) (db : Db) :
    ∃ receivedOffers, (Statement.insertReceivedOffer (L := L) now receivedOffer).commit db =
      { db with receivedOffers := receivedOffers } := insertReceivedOffer_others now receivedOffer db

theorem squeakEffect (s : Statement L) (db : Db) : SqueakEffect L s.likedAt db.squeaks (s.commit db).squeaks := by
  cases s with
  | insertSqueak now squeak header =>
    show SqueakEffect L _ _ (SqueakDb.insertSqueak _ db).2.squeaks
    cases htaken : taken SqueakRow.hash (getHash L squeak) db.squeaks with
    | true =>
      rw [insertSqueak_of_taken htaken]
      exact .same _
    | false =>
      rw [insertSqueak_of_free _ htaken]
      exact .inserted now squeak header htaken
  | setSqueakSecretKey squeakHash secretKey => exact .updated squeakHash _ _ (fun _ => rfl) fun _ => .inl rfl
  | setSqueakDecryptedContent squeakHash content => exact .updated squeakHash _ _ (fun _ => rfl) fun _ => .inl rfl
  | setSqueakLiked squeakHash now => exact .updated squeakHash _ _ (fun _ => rfl) fun _ => .inr (.inr rfl)
  | setSqueakUnliked squeakHash => exact .updated squeakHash _ _ (fun _ => rfl) fun _ => .inr (.inl rfl)
  | deleteSqueak squeakHash => exact .deleted squeakHash _
  | insertProfile now profile =>
    have hsame : (SqueakDb.insertProfile L now profile db).2.squeaks = db.squeaks := by
      unfold SqueakDb.insertProfile
      split <;> rfl
    show SqueakEffect L _ _ (SqueakDb.insertProfile L now profile db).2.squeaks
    rw [hsame]
    exact .same _
  | setProfileName profileId profileName =>
    have hsame : (SqueakDb.setProfileName profileId profileName db).2.squeaks = db.squeaks := by
      unfold SqueakDb.setProfileName
      split <;> rfl
    show SqueakEffect L _ _ (SqueakDb.setProfileName profileId profileName db).2.squeaks
    rw [hsame]
    exact .same _
  | insertReceivedOffer now receivedOffer =>
    obtain ⟨receivedOffers, heq⟩ := commit_insertReceivedOffer (L := L) now receivedOffer db
    rw [heq]
    exact .same _
  | _ => exact .same _

/-- A row that is there after a statement was inserted by it, or was there before with another key,
content or like; a like is set by the statement for its hash. -/
theorem mem_commit_squeaks {s : Statement L} {db : Db} {r' : SqueakRow} (h : r' ∈ (s.commit db).squeaks) :
    (∃ now squeak header, s = .insertSqueak now squeak header ∧ r' = squeakRow L now (getHash L squeak) squeak header) ∨
    ∃ r ∈ db.squeaks, r' = { r with
        secretKey := r'.secretKey, content := r'.content, likedTimeMs := r'.likedTimeMs } ∧
      (r'.likedTimeMs = r.likedTimeMs ∨ r'.likedTimeMs = none ∨ ∃ now, s = .setSqueakLiked r.hash now) := by
  -- a row that the statement does not touch
  have hsame : r' ∈ db.squeaks → ∃ r ∈ db.squeaks, r' = { r with
        secretKey := r'.secretKey, content := r'.content, likedTimeMs := r'.likedTimeMs } ∧
      (r'.likedTimeMs = r.likedTimeMs ∨ r'.likedTimeMs = none ∨ ∃ now, s = .setSqueakLiked r.hash now) :=
    fun hr => ⟨r', hr, rfl, .inl rfl⟩
  cases s with
  | insertSqueak now squeak header =>
    rcases mem_insertUnique h with hr | ⟨rfl, -⟩
    · exact .inr (hsame hr)
    · exact .inl ⟨now, squeak, header, rfl, rfl⟩
  | setSqueakSecretKey squeakHash secretKey =>
    obtain ⟨r, hr, rfl⟩ := mem_updateWhere.1 h
    exact .inr ⟨r, hr, by split <;> rfl, .inl (by split <;> rfl)⟩
  | setSqueakDecryptedContent squeakHash content =>
    obtain ⟨r, hr, rfl⟩ := mem_updateWhere.1 h
    exact .inr ⟨r, hr, by split <;> rfl, .inl (by split <;> rfl)⟩
  | setSqueakLiked squeakHash now =>
    obtain ⟨r, hr, rfl⟩ := mem_updateWhere.1 h
    refine .inr ⟨r, hr, by split <;> rfl, ?_⟩
    split
    · rename_i hhash
      exact .inr (.inr ⟨now, by rw [show r.hash = squeakHash by simpa using hhash]⟩)
    · exact .inl rfl
  | setSqueakUnliked squeakHash =>
    obtain ⟨r, hr, rfl⟩ := mem_updateWhere.1 h
    refine .inr ⟨r, hr, by split <;> rfl, ?_⟩
    split
    · exact .inr (.inl rfl)
    · exact .inl rfl
  | deleteSqueak squeakHash => exact .inr (hsame (mem_deleteWhere.1 h).1)
  | insertProfile now profile =>
    refine .inr (hsame ?_)
    change r' ∈ (SqueakDb.insertProfile L now profile db).2.squeaks at h
    unfold SqueakDb.insertProfile at h
    split at h <;> exact h
  | setProfileName profileId profileName =>
    refine .inr (hsame ?_)
    change r' ∈ (SqueakDb.setProfileName profileId profileName db).2.squeaks at h
    unfold SqueakDb.setProfileName at h
    split at h <;> exact h
  | insertReceivedOffer now receivedOffer =>
    obtain ⟨receivedOffers, heq⟩ := commit_insertReceivedOffer (L := L) now receivedOffer db
    rw [heq] at h
    exact .inr (hsame h)
  | _ => exact .inr (hsame h)

section Squeaks

variable {time : Option Int} {rows rows' : List SqueakRow}

theorem SqueakEffect.unique (h : SqueakEffect L time rows rows') (hu : UniqueOn SqueakRow.hash rows) :
    UniqueOn SqueakRow.hash rows' := by
  cases h with
  | same => exact hu
  | inserted now squeak header hfree =>
    have hinsert := uniqueOn_insertUnique (squeakRow L now (getHash L squeak) squeak header) hu
    rwa [insertUnique_of_free hfree] at hinsert
  | updated squeakHash f _ hf _ => exact uniqueOn_updateWhere (fun r => by rw [hf r]) hu
  | deleted => exact uniqueOn_deleteWhere hu

/-- What holds of new rows, and whatever the key, the content and the like of a row, is kept. -/
theorem SqueakEffect.forall {P : SqueakRow → Prop} (h : SqueakEffect L time rows rows')
    (hnew : ∀ now squeak header, P (squeakRow L now (getHash L squeak) squeak header))
    (hkeeps : ∀ r k c l, P r → P { r with secretKey := k, content := c, likedTimeMs := l })
    (hrows : ∀ r ∈ rows, P r) : ∀ r ∈ rows', P r := by
  intro r hr
  cases h with
  | same => exact hrows r hr
  | inserted now squeak header hfree =>
    rcases List.mem_append.1 hr with hr | hr
    · exact hrows r hr
    · rw [List.mem_singleton.1 hr]
      exact hnew now squeak header
  | updated squeakHash f _ hf _ =>
    obtain ⟨r₀, hr₀, rfl⟩ := mem_updateWhere.1 hr
    split
    · rw [hf r₀]
      exact hkeeps _ _ _ _ (hrows r₀ hr₀)
    · exact hrows r₀ hr₀
  | deleted => exact hrows r (mem_deleteWhere.1 hr).1

/-- A like is an old one, of a row with the same hash, or was set by the statement. -/
theorem SqueakEffect.like (h : SqueakEffect L time rows rows') {r : SqueakRow} (hr : r ∈ rows') {t : Int}
    (ht : r.likedTimeMs = some t) : (∃ r₀ ∈ rows, r₀.hash = r.hash ∧ r₀.likedTimeMs = some t) ∨ time = some t := by
  cases h with
  | same => exact .inl ⟨r, hr, rfl, ht⟩
  | inserted now squeak header hfree =>
    rcases List.mem_append.1 hr with hr | hr
    · exact .inl ⟨r, hr, rfl, ht⟩
    · rw [List.mem_singleton.1 hr] at ht
      cases ht
  | updated squeakHash f _ hf hlike =>
    obtain ⟨r₀, hr₀, rfl⟩ := mem_updateWhere.1 hr
    split at ht
    · rename_i hwhere
      rcases hlike r₀ with hsame | hnone | htime
      · exact .inl ⟨r₀, hr₀, by rw [if_pos hwhere, hf r₀], hsame ▸ ht⟩
      · rw [hnone] at ht
        cases ht
      · exact .inr (htime ▸ ht)
    · rename_i hwhere
      exact .inl ⟨r₀, hr₀, by rw [if_neg hwhere], ht⟩
  | deleted => exact .inl ⟨r, (mem_deleteWhere.1 hr).1, rfl, ht⟩

end Squeaks

/-- What a statement does to the profiles: nothing, one more row, an update of a row that keeps its
public key and its private key, or one row less. -/
inductive ProfileEffect (L : Squeaklib) : List ProfileRow → List ProfileRow → Prop
  | same (rows : List ProfileRow) : ProfileEffect L rows rows
  | inserted (now : Int) (profile : SqueakProfile L) (id : Nat) {rows : List ProfileRow} :
      taken ProfileRow.publicKey (L.publicKeyToBytes profile.publicKey) rows = false →
      ProfileEffect L rows (rows ++ [profileRow L now profile id])
  | updated (profileId : Nat) (f : ProfileRow → ProfileRow) (rows : List ProfileRow) :
      (∀ r, (f r).publicKey = r.publicKey ∧ (f r).privateKey = r.privateKey ∧ (f r).profileId = r.profileId) →
      ProfileEffect L rows (updateWhere (fun r => r.profileId == profileId) f rows)
  | deleted (profileId : Nat) (rows : List ProfileRow) :
      ProfileEffect L rows (deleteWhere (fun r => r.profileId == profileId) rows)

theorem profileEffect (s : Statement L) (db : Db) : ProfileEffect L db.profiles.rows (s.commit db).profiles.rows := by
  cases s with
  | insertProfile now profile =>
    show ProfileEffect L _ (SqueakDb.insertProfile L now profile db).2.profiles.rows
    unfold SqueakDb.insertProfile
    split
    · exact .same _
    · cases htaken : taken ProfileRow.publicKey (L.publicKeyToBytes profile.publicKey) db.profiles.rows with
      | true =>
        rw [Table.insert_of_taken htaken]
        exact .same _
      | false =>
        rw [Table.insert_of_free htaken]
        exact .inserted now profile _ htaken
  | setProfileFollowing profileId following => exact .updated profileId _ _ fun _ => ⟨rfl, rfl, rfl⟩
  | setProfileName profileId profileName =>
    show ProfileEffect L _ (SqueakDb.setProfileName profileId profileName db).2.profiles.rows
    unfold SqueakDb.setProfileName
    split
    · exact .same _
    · exact .updated profileId _ _ fun _ => ⟨rfl, rfl, rfl⟩
  | setProfileImage profileId profileImage => exact .updated profileId _ _ fun _ => ⟨rfl, rfl, rfl⟩
  | deleteProfile profileId => exact .deleted profileId _
  | insertSqueak now squeak header =>
    have hsame : (SqueakDb.insertSqueak (squeakRow L now (getHash L squeak) squeak header) db).2.profiles =
      db.profiles := rfl
    show ProfileEffect L _ (SqueakDb.insertSqueak _ db).2.profiles.rows
    rw [hsame]
    exact .same _
  | insertReceivedOffer now receivedOffer =>
    obtain ⟨receivedOffers, heq⟩ := commit_insertReceivedOffer (L := L) now receivedOffer db
    rw [heq]
    exact .same _
  | _ => exact .same _

/-- A profile that is there after a statement was inserted by it, or was there before with its keys. -/
theorem mem_commit_profiles {s : Statement L} {db : Db} {p' : ProfileRow} (h : p' ∈ (s.commit db).profiles.rows) :
    (∃ now profile id, s = .insertProfile now profile ∧ p' = profileRow L now profile id) ∨
      ∃ p ∈ db.profiles.rows, p'.publicKey = p.publicKey ∧ p'.privateKey = p.privateKey := by
  cases s with
  | insertProfile now profile =>
    change p' ∈ (SqueakDb.insertProfile L now profile db).2.profiles.rows at h
    unfold SqueakDb.insertProfile at h
    split at h
    · exact .inr ⟨p', h, rfl, rfl⟩
    · rcases Table.mem_insert h with hp | ⟨id, rfl⟩
      · exact .inr ⟨p', hp, rfl, rfl⟩
      · exact .inl ⟨now, profile, id, rfl, rfl⟩
  | setProfileFollowing profileId following =>
    obtain ⟨p, hp, rfl⟩ := mem_updateWhere.1 h
    exact .inr ⟨p, hp, by split <;> rfl, by split <;> rfl⟩
  | setProfileName profileId profileName =>
    change p' ∈ (SqueakDb.setProfileName profileId profileName db).2.profiles.rows at h
    unfold SqueakDb.setProfileName at h
    split at h
    · exact .inr ⟨p', h, rfl, rfl⟩
    · obtain ⟨p, hp, rfl⟩ := mem_updateWhere.1 h
      exact .inr ⟨p, hp, by split <;> rfl, by split <;> rfl⟩
  | setProfileImage profileId profileImage =>
    obtain ⟨p, hp, rfl⟩ := mem_updateWhere.1 h
    exact .inr ⟨p, hp, by split <;> rfl, by split <;> rfl⟩
  | deleteProfile profileId => exact .inr ⟨p', (mem_deleteWhere.1 h).1, rfl, rfl⟩
  | insertReceivedOffer now receivedOffer =>
    obtain ⟨receivedOffers, heq⟩ := commit_insertReceivedOffer (L := L) now receivedOffer db
    rw [heq] at h
    exact .inr ⟨p', h, rfl, rfl⟩
  | _ => exact .inr ⟨p', h, rfl, rfl⟩

section Profiles

variable {rows rows' : List ProfileRow}

theorem ProfileEffect.unique (h : ProfileEffect L rows rows') (hu : UniqueOn ProfileRow.publicKey rows) :
    UniqueOn ProfileRow.publicKey rows' := by
  cases h with
  | same => exact hu
  | inserted now profile id hfree =>
    have hinsert := uniqueOn_insertUnique (profileRow L now profile id) hu
    rwa [insertUnique_of_free hfree] at hinsert
  | updated _ f _ hf => exact uniqueOn_updateWhere (fun r => (hf r).1) hu
  | deleted => exact uniqueOn_deleteWhere hu

/-- What holds of new rows, and depends on the keys of a row alone, is kept. -/
theorem ProfileEffect.forall {P : Bytes → Option Bytes → Prop} (h : ProfileEffect L rows rows')
    (hnew : ∀ profile : SqueakProfile L,
      P (L.publicKeyToBytes profile.publicKey) (profile.privateKey.map L.privateKeyToBytes))
    (hrows : ∀ r ∈ rows, P r.publicKey r.privateKey) : ∀ r ∈ rows', P r.publicKey r.privateKey := by
  intro r hr
  cases h with
  | same => exact hrows r hr
  | inserted now profile id hfree =>
    rcases List.mem_append.1 hr with hr | hr
    · exact hrows r hr
    · rw [List.mem_singleton.1 hr]
      exact hnew profile
  | updated _ f _ hf =>
    obtain ⟨r₀, hr₀, rfl⟩ := mem_updateWhere.1 hr
    split
    · rw [(hf r₀).1, (hf r₀).2.1]
      exact hrows r₀ hr₀
    · exact hrows r₀ hr₀
  | deleted => exact hrows r (mem_deleteWhere.1 hr).1

end Profiles

/-- What the INSERT of a profile keeps, and any UPDATE that keeps the ids and the private keys, and any
DELETE. -/
theorem commit_profiles {Φ : Table ProfileRow → Prop}
    (hinsert : ∀ now (profile : SqueakProfile L) t, Φ t → Φ (t.insert ProfileRow.publicKey (profileRow L now profile)).2)
    (hupdate : ∀ p f t, (∀ r : ProfileRow, (f r).profileId = r.profileId) → (∀ r, (f r).privateKey = r.privateKey) →
      Φ t → Φ (t.update p f))
    (hdelete : ∀ p t, Φ t → Φ (t.delete p)) (s : Statement L) {db : Db} (h : Φ db.profiles) :
    Φ (s.commit db).profiles := by
  cases s with
  | insertProfile now profile =>
    show Φ (SqueakDb.insertProfile L now profile db).2.profiles
    unfold SqueakDb.insertProfile
    split
    · exact h
    · exact hinsert now profile _ h
  | setProfileFollowing profileId following => exact hupdate _ _ _ (fun _ => rfl) (fun _ => rfl) h
  | setProfileName profileId profileName =>
    show Φ (SqueakDb.setProfileName profileId profileName db).2.profiles
    unfold SqueakDb.setProfileName
    split
    · exact h
    · exact hupdate _ _ _ (fun _ => rfl) (fun _ => rfl) h
  | setProfileImage profileId profileImage => exact hupdate _ _ _ (fun _ => rfl) (fun _ => rfl) h
  | deleteProfile profileId => exact hdelete _ _ h
  | insertReceivedOffer now receivedOffer =>
    obtain ⟨receivedOffers, heq⟩ := commit_insertReceivedOffer (L := L) now receivedOffer db
    rw [heq]
    exact h
  | _ => exact h

/-- The ids of profiles are issued one each. -/
theorem commit_numbered (s : Statement L) {db : Db} (h : db.profiles.Numbered ProfileRow.profileId) :
    (s.commit db).profiles.Numbered ProfileRow.profileId :=
  commit_profiles (fun _ _ _ ht => ht.insert fun _ => rfl) (fun _ _ _ hid _ ht => ht.update hid)
    (fun p _ ht => ht.delete p) s h

/-- A profile keeps its private key as long as it is there, and its id goes to no other. -/
theorem commit_pinned (s : Statement L) {db : Db} {profileId : Nat} {privateKey : Option Bytes}
    (h : db.profiles.Pinned ProfileRow.profileId ProfileRow.privateKey profileId privateKey) :
    (s.commit db).profiles.Pinned ProfileRow.profileId ProfileRow.privateKey profileId privateKey :=
  commit_profiles (fun _ _ _ ht => ht.insert fun _ => rfl) (fun _ _ _ hid hkey ht => ht.update hid hkey)
    (fun p _ ht => ht.delete p) s h

/-- What a statement does to a table of payments, seen through the columns `key` (time and payment
hash): nothing, or one more row with a new payment hash. -/
inductive PaymentEffect {α : Type} (key : α → Int × Bytes) (now : Option Int) (rows rows' : List α) : Prop
  | same : rows'.map key = rows.map key → PaymentEffect key now rows rows'
  | inserted (time : Int) (paymentHash : Bytes) : now = some time → paymentHash ∉ rows.map (fun r => (key r).2) →
      rows'.map key = rows.map key ++ [(time, paymentHash)] → PaymentEffect key now rows rows'

theorem PaymentEffect.insert {α : Type} {hash : α → Bytes} {time : α → Int} {mk : Nat → α} {t : Table α} {now : Int}
    (hnow : ∀ n, time (mk n) = now) :
    PaymentEffect (fun r => (time r, hash r)) (some now) t.rows (t.insert hash mk).2.rows := by
  cases htaken : taken hash (hash (mk (t.lastId + 1))) t.rows with
  | true =>
    rw [Table.insert_of_taken htaken]
    exact .same rfl
  | false =>
    rw [Table.insert_of_free htaken]
    refine .inserted now (hash (mk (t.lastId + 1))) rfl ?_ ?_
    · rw [List.mem_map]
      rintro ⟨r, hr, heq⟩
      exact taken_eq_false.1 htaken r hr heq
    · rw [List.map_append, List.map_singleton, hnow]

theorem sentPaymentEffect (s : Statement L) (db : Db) :
    PaymentEffect (fun r => (r.createdTimeMs, r.paymentHash)) s.now db.sentPayments.rows
      (s.commit db).sentPayments.rows := by
  cases s with
  | insertSentPayment now sentPayment => exact .insert fun _ => rfl
  | insertProfile now profile =>
    refine .same (congrArg _ (congrArg Table.rows ?_))
    show (SqueakDb.insertProfile L now profile db).2.sentPayments = _
    unfold SqueakDb.insertProfile
    split <;> rfl
  | setProfileName profileId profileName =>
    refine .same (congrArg _ (congrArg Table.rows ?_))
    show (SqueakDb.setProfileName profileId profileName db).2.sentPayments = _
    unfold SqueakDb.setProfileName
    split <;> rfl
  | insertReceivedOffer now receivedOffer =>
    obtain ⟨receivedOffers, heq⟩ := commit_insertReceivedOffer (L := L) now receivedOffer db
    rw [heq]
    exact .same rfl
  | _ => exact .same rfl

theorem receivedPaymentEffect (s : Statement L) (db : Db) :
    PaymentEffect (fun r => (r.createdTimeMs, r.paymentHash)) s.now db.receivedPayments.rows
      (s.commit db).receivedPayments.rows := by
  cases s with
  | insertReceivedPayment now receivedPayment => exact .insert fun _ => rfl
  | clearReceivedPaymentSettleIndices => exact .same (map_updateWhere fun _ => rfl)
  | insertProfile now profile =>
    refine .same (congrArg _ (congrArg Table.rows ?_))
    show (SqueakDb.insertProfile L now profile db).2.receivedPayments = _
    unfold SqueakDb.insertProfile
    split <;> rfl
  | setProfileName profileId profileName =>
    refine .same (congrArg _ (congrArg Table.rows ?_))
    show (SqueakDb.setProfileName profileId profileName db).2.receivedPayments = _
    unfold SqueakDb.setProfileName
    split <;> rfl
  | insertReceivedOffer now receivedOffer =>
    obtain ⟨receivedOffers, heq⟩ := commit_insertReceivedOffer (L := L) now receivedOffer db
    rw [heq]
    exact .same rfl
  | _ => exact .same rfl

section Payments

variable {α : Type} {key : α → Int × Bytes} {time : Option Int} {rows rows' : List α}

theorem PaymentEffect.unique (h : PaymentEffect key time rows rows') (hu : UniqueOn (fun r => (key r).2) rows) :
    UniqueOn (fun r => (key r).2) rows' := by
  have hmap : ∀ rs : List α, rs.map (fun r => (key r).2) = (rs.map key).map Prod.snd := by
    intro rs
    rw [List.map_map]
    rfl
  unfold UniqueOn at hu ⊢
  cases h with
  | same heq => rwa [hmap, heq, ← hmap]
  | inserted t paymentHash _ hnew heq =>
    rw [hmap, heq, List.map_append, ← hmap]
    exact hu.append (List.nodup_singleton _) (by simpa using hnew)

theorem PaymentEffect.keeps (h : PaymentEffect key time rows rows') {k : Int × Bytes} (hk : k ∈ rows.map key) :
    k ∈ rows'.map key := by
  cases h with
  | same heq => rwa [heq]
  | inserted t paymentHash _ _ heq =>
    rw [heq]
    exact List.mem_append_left _ hk

theorem PaymentEffect.forall {P : Int → Prop} (h : PaymentEffect key time rows rows') (hnow : ∀ t, time = some t → P t)
    (hrows : ∀ r ∈ rows, P (key r).1) : ∀ r ∈ rows', P (key r).1 := by
  intro r hr
  have hmem : key r ∈ rows'.map key := List.mem_map_of_mem hr
  have hbefore : ∀ k ∈ rows.map key, P k.1 := by
    intro k hk
    obtain ⟨r₀, hr₀, rfl⟩ := List.mem_map.1 hk
    exact hrows r₀ hr₀
  cases h with
  | same heq => exact hbefore _ (heq ▸ hmem)
  | inserted t paymentHash ht _ heq =>
    rw [heq] at hmem
    rcases List.mem_append.1 hmem with hmem | hmem
    · exact hbefore _ hmem
    · rw [List.mem_singleton.1 hmem]
      exact hnow t ht

end Payments

end Statement

end Squeaknode
