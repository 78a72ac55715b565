/-
Calls of `make_squeak`. The secret key of a squeak that is built is in a local variable of the call until
the UPDATE of its row; between the INSERT of the row and that UPDATE the call notifies the subscribers and
reads the row again. Others write to the database and subscribe meanwhile, and any statement may fail.
-/
import Squeaknode.Db.Statements
import Squeaknode.Interleave.Faults
import Squeaknode.Interleave.Stages
import Squeaknode.Node.ContentKeys
import Squeaknode.Node.Listeners

namespace Squeaknode

open Interleave Relational SqueakDb

variable {L : Squeaklib} {ρ : Type}

/-- What the node relies on when it makes a squeak: its key is valid, and its author decrypts the content
with it. -/
def MakesSqueaks (N : Node L ρ) (contentStr : String) : Prop :=
  ∀ privateKey blockHeight blockHash timestamp replyTo recipient o squeak secretKey,
    (N.makeSqueakFromStr privateKey contentStr blockHeight blockHash timestamp replyTo recipient o).1 =
      .ok (squeak, secretKey) →
    L.checkSqueakSecretKey squeak secretKey = .ok () ∧
      L.getDecryptedContentStr squeak secretKey (some privateKey) none = .ok contentStr

/-! ## The rows of a squeak -/

/-- The row is one of the squeak, without a key or with a valid one. -/
structure SavedSqueak (squeak : L.CSqueak) (r : SqueakRow) : Prop where
  bytes : r.squeak = L.serialize squeak
  valid : ∀ k, r.secretKey = some k → L.checkSqueakSecretKey squeak k = .ok ()

/-- The row is one of the squeak, with a valid key. -/
structure KeyedSqueak (squeak : L.CSqueak) (r : SqueakRow) : Prop extends SavedSqueak squeak r where
  key : r.secretKey ≠ none

/-- The row is one of the squeak, with a valid key and the content. -/
structure UnlockedSqueak (squeak : L.CSqueak) (contentStr : String) (r : SqueakRow) : Prop
    extends KeyedSqueak squeak r where
  content : r.content = some contentStr

/-- Every row with the hash of the squeak. -/
def EachRow (squeak : L.CSqueak) (P : SqueakRow → Prop) (db : Db) : Prop :=
  ∀ r ∈ db.squeaks, r.hash = getHash L squeak → P r

/-- A row with the hash of the squeak has no key. -/
def Unkeyed (squeak : L.CSqueak) (db : Db) : Prop :=
  ∃ r ∈ db.squeaks, r.hash = getHash L squeak ∧ r.secretKey = none

section Rows

variable {squeak : L.CSqueak} {contentStr : String} {db : Db}

theorem EachRow.mono {P P' : SqueakRow → Prop} (hP : ∀ r, P r → P' r) (h : EachRow squeak P db) :
    EachRow squeak P' db :=
  fun r hr hhash => hP r (h r hr hhash)

theorem EachRow.keyed (h : EachRow squeak (SavedSqueak squeak) db) (hkey : ¬ Unkeyed squeak db) :
    EachRow squeak (KeyedSqueak squeak) db :=
  fun r hr hhash => ⟨h r hr hhash, fun hnone => hkey ⟨r, hr, hhash, hnone⟩⟩

theorem eachRow_of_none (P : SqueakRow → Prop) (h : findSqueak (getHash L squeak) db = none) : EachRow squeak P db :=
  fun r hr hhash => absurd hhash (findBy_none.1 h r hr)

theorem eachRow_updateSqueak {P P' : SqueakRow → Prop} {f : SqueakRow → SqueakRow} (h : EachRow squeak P db)
    (hhash : ∀ r, (f r).hash = r.hash) (hf : ∀ r, P r → P' (f r)) :
    EachRow squeak P' (updateSqueak (getHash L squeak) f db) := by
  intro r' hr' hhash'
  obtain ⟨r, hr, rfl⟩ := mem_updateWhere.1 hr'
  split at hhash'
  · rename_i hwhere
    rw [if_pos hwhere]
    exact hf r (h r hr ((hhash r).symm.trans hhash'))
  · rename_i hwhere
    exact absurd (beq_iff_eq.2 hhash') hwhere

end Rows

/-! ## What others do meanwhile -/

/-- Others write what the node writes, if anything. -/
def Writes (L : Squeaklib) (db db' : Db) : Prop := db' = db ∨ ∃ s : Statement L, db' = s.commit db

/-- No row of the squeak appears, and its rows get no key but a valid one, and no content but the right one. -/
def LeavesSqueak (squeak : L.CSqueak) (contentStr : String) (rows rows' : List SqueakRow) : Prop :=
  ∀ r' ∈ rows', r'.hash = getHash L squeak → ∃ r ∈ rows, r.hash = getHash L squeak ∧
    (r'.secretKey = r.secretKey ∨ ∃ k, r'.secretKey = some k ∧ L.checkSqueakSecretKey squeak k = .ok ()) ∧
    (r'.content = r.content ∨ r'.content = some contentStr)

/-- A turn of the others after the squeak was built. -/
structure Aside (listeners : Listeners L ρ) (squeak : L.CSqueak) (contentStr : String) (w w' : World ρ) : Prop where
  writes : Writes L w.db w'.db
  rows : LeavesSqueak squeak contentStr w.db.squeaks w'.db.squeaks
  /-- nobody comes or goes while the row has no key -/
  subscribers : Unkeyed squeak w'.db →
    listeners.newSqueakListener.callbacks w'.env = listeners.newSqueakListener.callbacks w.env

/-- A turn of the call while the row has no key: its statement does not fail, and whatever callback it
calls returns, and subscribes nobody. -/
def Unhindered (listeners : Listeners L ρ) (fault : World ρ → Option Err) (squeak : L.CSqueak) (w : World ρ) : Prop :=
  Unkeyed squeak w.db → fault w = none ∧
    ∀ callback, some callback ∈ listeners.newSqueakListener.callbacks w.env →
      ∃ o, callback squeak w.env = (.ok (), o) ∧
        listeners.newSqueakListener.callbacks o = listeners.newSqueakListener.callbacks w.env

section Aside

variable {listeners : Listeners L ρ} {squeak : L.CSqueak} {contentStr : String}

/-- The row that a row of the squeak was before the others' turn. -/
theorem Aside.before {w w' : World ρ} (h : Aside listeners squeak contentStr w w') {r' : SqueakRow}
    (hr' : r' ∈ w'.db.squeaks)
    (hhash : r'.hash = getHash L squeak) : ∃ r ∈ w.db.squeaks, r.hash = getHash L squeak ∧ r'.squeak = r.squeak := by
  obtain ⟨r, hr, hr_hash, -⟩ := h.rows r' hr' hhash
  rcases h.writes with hsame | ⟨s, hs⟩
  · rw [hsame] at hr'
    exact ⟨r', hr', hhash, rfl⟩
  · rcases Statement.mem_commit_squeaks (s := s) (hs ▸ hr') with ⟨now, squeak', header, rfl, rfl⟩ | ⟨r₀, hr₀, heq, -⟩
    · -- a new row has a hash that none has
      cases htaken : taken SqueakRow.hash (getHash L squeak') w.db.squeaks with
      | true =>
        have hunchanged : w'.db = w.db := by
          rw [hs]
          exact congrArg Prod.snd (insertSqueak_of_taken htaken)
        rw [hunchanged] at hr'
        exact ⟨_, hr', hhash, rfl⟩
      | false => exact absurd (hr_hash.trans hhash.symm) (taken_eq_false.1 htaken r hr)
    · refine ⟨r₀, hr₀, ?_, ?_⟩
      · rw [heq] at hhash
        exact hhash
      · rw [heq]

theorem stable_eachRow {P : SqueakRow → Prop} (hP : ∀ r₀ r r', P r₀ → P r → r'.squeak = r₀.squeak →
      (r'.secretKey = r.secretKey ∨ ∃ k, r'.secretKey = some k ∧ L.checkSqueakSecretKey squeak k = .ok ()) →
      (r'.content = r.content ∨ r'.content = some contentStr) → P r') :
    Prog.Stable (Aside listeners squeak contentStr) fun w => EachRow squeak P w.db := by
  intro w w' h hrows r' hr' hhash
  obtain ⟨r₀, hr₀, hhash₀, hbytes⟩ := h.before hr' hhash
  obtain ⟨r, hr, hr_hash, hkey, hcontent⟩ := h.rows r' hr' hhash
  exact hP r₀ r r' (hrows r₀ hr₀ hhash₀) (hrows r hr hr_hash) hbytes hkey hcontent

theorem stable_absent : Prog.Stable (Aside listeners squeak contentStr) fun w => EachRow squeak (fun _ => False) w.db :=
  stable_eachRow fun _ _ _ h _ _ _ _ => h

theorem SavedSqueak.moved {r₀ r r' : SqueakRow} (h₀ : SavedSqueak squeak r₀) (h : SavedSqueak squeak r)
    (hbytes : r'.squeak = r₀.squeak)
    (hkey : r'.secretKey = r.secretKey ∨ ∃ k, r'.secretKey = some k ∧ L.checkSqueakSecretKey squeak k = .ok ()) :
    SavedSqueak squeak r' := by
  refine ⟨hbytes.trans h₀.bytes, fun k hk => ?_⟩
  rcases hkey with hsame | ⟨k', hk', hvalid⟩
  · exact h.valid k (hsame.symm.trans hk)
  · rw [Option.some.inj (hk.symm.trans hk')]
    exact hvalid

theorem KeyedSqueak.moved {r₀ r r' : SqueakRow} (h₀ : KeyedSqueak squeak r₀) (h : KeyedSqueak squeak r)
    (hbytes : r'.squeak = r₀.squeak)
    (hkey : r'.secretKey = r.secretKey ∨ ∃ k, r'.secretKey = some k ∧ L.checkSqueakSecretKey squeak k = .ok ()) :
    KeyedSqueak squeak r' := by
  refine ⟨h₀.toSavedSqueak.moved h.toSavedSqueak hbytes hkey, ?_⟩
  rcases hkey with hsame | ⟨k, hk, -⟩
  · rw [hsame]
    exact h.key
  · rw [hk]
    simp

theorem stable_saved :
    Prog.Stable (Aside listeners squeak contentStr) fun w => EachRow squeak (SavedSqueak squeak) w.db :=
  stable_eachRow fun _ _ _ h₀ h hbytes hkey _ => h₀.moved h hbytes hkey

theorem stable_keyed :
    Prog.Stable (Aside listeners squeak contentStr) fun w => EachRow squeak (KeyedSqueak squeak) w.db :=
  stable_eachRow fun _ _ _ h₀ h hbytes hkey _ => h₀.moved h hbytes hkey

theorem stable_unlocked : Prog.Stable (Aside listeners squeak contentStr) fun w =>
    EachRow squeak (UnlockedSqueak squeak contentStr) w.db := by
  refine stable_eachRow fun r₀ r r' h₀ h hbytes hkey hcontent =>
    ⟨h₀.toKeyedSqueak.moved h.toKeyedSqueak hbytes hkey, ?_⟩
  rcases hcontent with hsame | hright
  · rw [hsame]
    exact h.content
  · exact hright

/-- A row that has no key after a turn of the others had none before. -/
theorem Aside.unkeyed {w w' : World ρ} (h : Aside listeners squeak contentStr w w') (hkey : Unkeyed squeak w'.db) :
    Unkeyed squeak w.db := by
  obtain ⟨r', hr', hhash, hnone⟩ := hkey
  obtain ⟨r, hr, hr_hash, hsame | ⟨k, hk, -⟩, -⟩ := h.rows r' hr' hhash
  · exact ⟨r, hr, hr_hash, hsame.symm.trans hnone⟩
  · rw [hnone] at hk
    cases hk

end Aside

/-! ## The author -/

/-- The private key in a column, if there is one. -/
def columnKey (L : Squeaklib) : Option Bytes → Except Err (Option L.PrivateKey)
  | none | some [] => .ok none
  | some (b :: bytes) => some <$> L.privateKeyFromBytes (b :: bytes)

theorem columnKey_of_parse {row : ProfileRow} {profile : SqueakProfile L} (h : parseSqueakProfile L row = .ok profile) :
    columnKey L row.privateKey = .ok profile.privateKey := by
  unfold parseSqueakProfile at h
  rcases hcolumn : row.privateKey with _ | (_ | ⟨b, bytes⟩) <;> rw [hcolumn] at h
  · cases hpublic : L.publicKeyFromBytes row.publicKey <;> rw [hpublic] at h <;> cases h
    rfl
  · cases hpublic : L.publicKeyFromBytes row.publicKey <;> rw [hpublic] at h <;> cases h
    rfl
  · show some <$> L.privateKeyFromBytes (b :: bytes) = _
    cases hprivate : L.privateKeyFromBytes (b :: bytes) with
    | error e =>
      simp only [hprivate] at h
      cases h
    | ok privateKey =>
      simp only [hprivate] at h
      cases hpublic : L.publicKeyFromBytes row.publicKey <;> rw [hpublic] at h <;> cases h
      rfl

/-- The id is the one of a profile with this private key, which others may delete but not change. -/
def AuthorKey (L : Squeaklib) (profileId : Nat) (privateKey : L.PrivateKey) (db : Db) : Prop :=
  0 < profileId ∧ ∃ column, columnKey L column = .ok (some privateKey) ∧
    db.profiles.Pinned ProfileRow.profileId ProfileRow.privateKey profileId column

theorem AuthorKey.writes {profileId : Nat} {privateKey : L.PrivateKey} {db db' : Db}
    (h : AuthorKey L profileId privateKey db)
    (hwrites : Writes L db db') : AuthorKey L profileId privateKey db' := by
  obtain ⟨hpositive, column, hkey, hpinned⟩ := h
  rcases hwrites with rfl | ⟨s, rfl⟩
  · exact ⟨hpositive, column, hkey, hpinned⟩
  · exact ⟨hpositive, column, hkey, s.commit_pinned hpinned⟩

/-- A profile that is found under the id has the private key. -/
theorem AuthorKey.found {profileId : Nat} {privateKey : L.PrivateKey} {db : Db}
    (h : AuthorKey L profileId privateKey db)
    {row : ProfileRow} {profile : SqueakProfile L} (hrow : findProfile profileId db = some row)
    (hprofile : parseSqueakProfile L row = .ok profile) : profile.privateKey = some privateKey := by
  obtain ⟨-, column, hkey, hpinned⟩ := h
  obtain ⟨hmem, hid⟩ := findBy_some hrow
  have hcolumn := columnKey_of_parse hprofile
  rw [hpinned.column row hmem hid, hkey] at hcolumn
  exact (Except.ok.inj hcolumn).symm

/-- What is known of a squeak that was made for a profile. -/
structure MadeBy (profileId : Nat) (contentStr : String) (squeak : L.CSqueak) (secretKey : Bytes) (db : Db) : Prop where
  valid : L.checkSqueakSecretKey squeak secretKey = .ok ()
  author : ∃ privateKey, AuthorKey L profileId privateKey db ∧
    L.getDecryptedContentStr squeak secretKey (some privateKey) none = .ok contentStr

theorem MadeBy.writes {profileId : Nat} {contentStr : String} {squeak : L.CSqueak} {secretKey : Bytes} {db db' : Db}
    (h : MadeBy profileId contentStr squeak secretKey db) (hwrites : Writes L db db') :
    MadeBy profileId contentStr squeak secretKey db' := by
  obtain ⟨privateKey, hauthor, hdecrypted⟩ := h.author
  exact ⟨h.valid, privateKey, hauthor.writes hwrites, hdecrypted⟩

/-- What is decrypted with the author's profile, or with none, is the content. -/
def OpensWith (squeak : L.CSqueak) (contentStr : String) (author : Option (SqueakProfile L)) : Prop :=
  ∀ k, L.checkSqueakSecretKey squeak k = .ok () → SqueakCore.getDecryptedContent squeak k author none = .ok contentStr

theorem opens_public (hD : L.DecryptLaws) {squeak : L.CSqueak} {contentStr : String} {secretKey : Bytes}
    {privateKey : L.PrivateKey} (hvalid : L.checkSqueakSecretKey squeak secretKey = .ok ())
    (hdecrypted : L.getDecryptedContentStr squeak secretKey (some privateKey) none = .ok contentStr)
    (hpublic : L.isPrivateMessage squeak = false) : OpensWith squeak contentStr none := by
  intro k hk
  calc SqueakCore.getDecryptedContent squeak k none none
      = L.getDecryptedContentStr squeak k none none := by simp [SqueakCore.getDecryptedContent]
    _ = L.getDecryptedContentStr squeak secretKey none none := hD.valid squeak k secretKey none none hk hvalid
    _ = L.getDecryptedContentStr squeak secretKey (some privateKey) none :=
      (hD.isPublic squeak secretKey (some privateKey) none hpublic).symm
    _ = .ok contentStr := hdecrypted

theorem opens_author (hD : L.DecryptLaws) {squeak : L.CSqueak} {contentStr : String} {secretKey : Bytes}
    {privateKey : L.PrivateKey} (hvalid : L.checkSqueakSecretKey squeak secretKey = .ok ())
    (hdecrypted : L.getDecryptedContentStr squeak secretKey (some privateKey) none = .ok contentStr)
    {profile : SqueakProfile L} (hprofile : profile.privateKey = some privateKey) :
    OpensWith squeak contentStr (some profile) := by
  intro k hk
  calc SqueakCore.getDecryptedContent squeak k (some profile) none
      = L.getDecryptedContentStr squeak k (some privateKey) none := by simp [SqueakCore.getDecryptedContent, hprofile]
    _ = L.getDecryptedContentStr squeak secretKey (some privateKey) none := hD.valid squeak k secretKey _ none hk hvalid
    _ = .ok contentStr := hdecrypted

/-! ## From the INSERT to the end -/

/-- The rest of a call ends with `Q`, whatever the others do aside, when nothing hinders it. -/
abbrev Finishes {α : Type} (listeners : Listeners L ρ) (fault : World ρ → Option Err) (squeak : L.CSqueak)
    (contentStr : String) (p : NodeM ρ α) (Q : Except Err α → World ρ → Prop) (w : World ρ) : Prop :=
  (p.faulty fault).Ends (Aside listeners squeak contentStr) (Unhindered listeners fault squeak) Q w

section Finish

variable {N : Node L ρ} {listeners : Listeners L ρ} {fault : World ρ → Option Err} {squeak : L.CSqueak}
  {contentStr : String} {w : World ρ} {α β : Type}

theorem Finishes.andThen {p : NodeM ρ α} {f : α → NodeM ρ β} {Q : Except Err α → World ρ → Prop}
    {Q' : Except Err β → World ρ → Prop} (h : Finishes listeners fault squeak contentStr p Q w)
    (hok : ∀ a w', Q (.ok a) w' → Finishes listeners fault squeak contentStr (f a) Q' w')
    (herror : ∀ e w', Q (.error e) w' → Q' (.error e) w') :
    Finishes listeners fault squeak contentStr (p >>= f) Q' w := by
  unfold Finishes
  rw [Prog.faulty_bind]
  exact Prog.Ends.andThen h hok herror

/-- Where a statement fails, the key is in the row. -/
theorem keyed_of_fault (hw : Unhindered listeners fault squeak w)
    (h : EachRow squeak (SavedSqueak squeak) w.db) {e : Err}
    (hfault : fault w = some e) : EachRow squeak (KeyedSqueak squeak) w.db :=
  h.keyed fun hkey => by
    rw [(hw hkey).1] at hfault
    cases hfault

theorem finishes_query {F : World ρ → Prop} (hF : Prog.Stable (Aside listeners squeak contentStr) F) (h : F w)
    {Q : Except Err β → World ρ → Prop} {f : Db → β} (hread : ∀ w', F w' → Q (.ok (f w'.db)) w')
    (hfault : ∀ w' e, F w' → Unhindered listeners fault squeak w' → fault w' = some e → Q (.error e) w') :
    Finishes listeners fault squeak contentStr (query f) Q w :=
  Prog.ends_attempt (fun w' e hturns hw' he => hfault w' e (hF.turns hturns h) hw' he)
    fun w' hturns _ _ => hread w' (hF.turns hturns h)

/-- The squeak is read back, unless it is gone. -/
theorem finishes_getSqueak (hL : L.CodecLaws) (h : EachRow squeak (SavedSqueak squeak) w.db) :
    Finishes listeners fault squeak contentStr (SqueakStore.getSqueak L (getHash L squeak))
      (Prog.Post
        (fun found w' => found.elim (EachRow squeak (KeyedSqueak squeak) w'.db) fun s =>
          s = squeak ∧ EachRow squeak (SavedSqueak squeak) w'.db)
        fun w' => EachRow squeak (KeyedSqueak squeak) w'.db) w := by
  unfold SqueakStore.getSqueak
  refine Finishes.andThen (Q := Prog.Post
      (fun row w' => row.elim (EachRow squeak (KeyedSqueak squeak) w'.db) fun r =>
        r.squeak = L.serialize squeak ∧ EachRow squeak (SavedSqueak squeak) w'.db)
      fun w' => EachRow squeak (KeyedSqueak squeak) w'.db) (finishes_query stable_saved h ?_ ?_) ?_ ?_
  · intro w' h'
    show (findSqueak (getHash L squeak) w'.db).elim _ _
    cases hrow : findSqueak (getHash L squeak) w'.db with
    | none => exact eachRow_of_none _ hrow
    | some row =>
      obtain ⟨hmem, hhash⟩ := findBy_some hrow
      exact ⟨(h' row hmem hhash).bytes, h'⟩
  · exact fun w' e h' hw' he => keyed_of_fault hw' h' he
  · rintro (_ | row) w' h'
    · exact h'
    · obtain ⟨hbytes, h'⟩ := h'
      dsimp only
      rw [hbytes, hL.squeak]
      exact ⟨rfl, h'⟩
  · exact fun _ _ h' => h'

/-- Once the row has its key, unlocking adds the content or raises. -/
theorem finishes_unlockSqueak (hL : L.CodecLaws) {author : Option Nat} {G : World ρ → Prop}
    (hG : Prog.Stable (Aside listeners squeak contentStr) G)
    (hprofile : ∀ w', G w' → EachRow squeak (KeyedSqueak squeak) w'.db → Finishes listeners fault squeak contentStr
      (SqueakStore.requireProfile L (fun _ => .exception "Author profile does not exist.")
      (SqueakStore.givenProfile author))
      (fun x w'' => (∀ profile, x = .ok profile → OpensWith squeak contentStr profile) ∧
        EachRow squeak (KeyedSqueak squeak) w''.db) w')
    (hw : G w) (h : EachRow squeak (KeyedSqueak squeak) w.db) :
    Finishes listeners fault squeak contentStr (SqueakStore.unlockSqueak L (getHash L squeak) author none)
      (Prog.Post (fun _ w' => EachRow squeak (UnlockedSqueak squeak contentStr) w'.db)
        fun w' => EachRow squeak (KeyedSqueak squeak) w'.db) w := by
  unfold SqueakStore.unlockSqueak
  have hboth : Prog.Stable (Aside listeners squeak contentStr) fun w =>
    G w ∧ EachRow squeak (KeyedSqueak squeak) w.db :=
    hG.and stable_keyed
  have hreads : (SqueakStore.getSqueak L (getHash L squeak) : NodeM ρ _).Respects fun w w' =>
      (G w ∧ EachRow squeak (KeyedSqueak squeak) w.db) → G w' ∧ EachRow squeak (KeyedSqueak squeak) w'.db :=
    within_getSqueak (fun _ h => h) _
  refine Finishes.andThen (Prog.Ends.keeping hboth (finishes_getSqueak hL (h.mono fun _ hr => hr.toSavedSqueak))
    hreads ⟨hw, h⟩) ?_ fun _ _ h' => h'.2.2
  rintro found w₁ ⟨hfound, hw₁, h₁⟩
  refine Finishes.andThen (Q := fun x w' => (∀ k, x = .ok (some k) → L.checkSqueakSecretKey squeak k = .ok ()) ∧
    G w' ∧ EachRow squeak (KeyedSqueak squeak) w'.db) (finishes_query hboth ⟨hw₁, h₁⟩ ?_ ?_) ?_ fun _ _ h' => h'.2.2
  · rintro w' ⟨hw', h'⟩
    refine ⟨fun k hk => ?_, hw', h'⟩
    obtain ⟨row, hrow, hkey⟩ := Option.bind_eq_some_iff.1 (Except.ok.inj hk)
    obtain ⟨hmem, hhash⟩ := findBy_some hrow
    exact (h' row hmem hhash).valid k hkey
  · rintro w' e ⟨hw', h'⟩ - -
    exact ⟨fun k hk => (by cases hk), hw', h'⟩
  rintro secretKey w₂ ⟨hvalid, hw₂, h₂⟩
  rcases found with _ | found
  · exact h₂
  rcases secretKey with _ | k
  · exact h₂
  obtain rfl : found = squeak := hfound.1
  -- no recipient's profile is read
  change Finishes _ _ _ _ (SqueakStore.requireProfile L (fun _ => .exception "Author profile does not exist.")
    (SqueakStore.givenProfile author) >>= _) _ _
  refine Finishes.andThen (hprofile w₂ hw₂ h₂) ?_ fun _ _ h' => h'.2
  rintro profile w₃ ⟨hopens, h₃⟩
  rw [hopens profile rfl k (hvalid k rfl)]
  refine Prog.ends_attempt (fun w' _ hturns _ _ => stable_keyed.turns hturns h₃) fun w' hturns _ _ => ?_
  exact eachRow_updateSqueak (stable_keyed.turns hturns h₃) (fun _ => rfl) fun r hr =>
    ⟨⟨⟨hr.bytes, hr.valid⟩, hr.key⟩, rfl⟩

/-! ### The notification -/

section Quiet

variable {R : World ρ → World ρ → Prop} (hR : ∀ w o, R w { w with env := o }) {ι : Type} (listener : EventListener ι ρ)
  (item : ι)

include hR

/-- What is left of a notification changes nothing in the database. -/
theorem respects_callAll (used left pos : Nat) : (listener.callAll item used left pos).Respects R :=
  EventListener.closed_callAll (Prog.closed_within _) (fun _ => within_notify fun w _ _ => hR w _) item used left pos

theorem respects_handleNewItem : (listener.handleNewItem item).Respects R :=
  EventListener.closed_handleNewItem (Prog.closed_within _) (fun _ => within_notify fun w _ _ => hR w _)
    (fun _ => within_ask fun w => hR w _) item

end Quiet

/-- The row is there, and as long as it has no key the subscribers are the ones that the iterator
started with. -/
def Notifying (listeners : Listeners L ρ) (squeak : L.CSqueak) (entries : List (Option (Callback L.CSqueak ρ)))
    (w : World ρ) : Prop :=
  EachRow squeak (SavedSqueak squeak) w.db ∧ (Unkeyed squeak w.db → listeners.newSqueakListener.callbacks w.env = entries)

theorem stable_notifying (entries : List (Option (Callback L.CSqueak ρ))) :
    Prog.Stable (Aside listeners squeak contentStr) (Notifying listeners squeak entries) :=
  fun w w' h hw => ⟨stable_saved w w' h hw.1, fun hkey => (h.subscribers hkey).trans (hw.2 (h.unkeyed hkey))⟩

/-- How a notification, or what is left of one, ends. -/
def Notified (squeak : L.CSqueak) : Except Err Unit → World ρ → Prop
  | .error _, w => EachRow squeak (KeyedSqueak squeak) w.db
  | .ok _, w => EachRow squeak (SavedSqueak squeak) w.db

theorem notified_of_keyed {x : Except Err Unit} (h : EachRow squeak (KeyedSqueak squeak) w.db) :
    Notified squeak x w := by
  cases x with
  | error e => exact h
  | ok _ => exact h.mono fun _ hr => hr.toSavedSqueak

theorem finishes_of_keyed {p : NodeM ρ Unit} (hp : p.Respects fun w w' => w'.db = w.db)
    (h : EachRow squeak (KeyedSqueak squeak) w.db) :
    Finishes listeners fault squeak contentStr p (Notified squeak) w := by
  refine Prog.ends_mono (fun _ _ => notified_of_keyed) (Prog.ends_of_keeps stable_keyed (hp.mono ?_) h)
  intro s _ s' hsame hs
  rwa [hsame]

/-- A question that leaves the world as it is: it is answered as the subscribers that are there say, or the
row has its key. -/
theorem finishes_ask {entries : List (Option (Callback L.CSqueak ρ))} {f : ρ → β} {b : β} (obs : World ρ → List Obs)
    (hf : ∀ o, listeners.newSqueakListener.callbacks o = entries → f o = b) (h : Notifying listeners squeak entries w) :
    Finishes listeners fault squeak contentStr (Prog.observed (fun w => (f w.env, w)) obs) (Prog.Post
      (fun a w' => Notifying listeners squeak entries w' ∧ (a = b ∨ EachRow squeak (KeyedSqueak squeak) w'.db))
      fun w' => EachRow squeak (KeyedSqueak squeak) w'.db) w := by
  refine Prog.ends_attempt (fun w' e hturns hw' he => ?_) fun w' hturns _ _ => ?_
  · exact keyed_of_fault hw' ((stable_notifying entries).turns hturns h).1 he
  · have h' := (stable_notifying entries).turns hturns h
    refine ⟨h', ?_⟩
    by_cases hkey : Unkeyed squeak w'.db
    · exact .inl (hf _ (h'.2 hkey))
    · exact .inr (h'.1.keyed hkey)

/-- Each callback returns, unless the row has its key. -/
theorem finishes_callback {entries : List (Option (Callback L.CSqueak ρ))} {callback : Callback L.CSqueak ρ}
    (hmem : some callback ∈ entries) (h : Notifying listeners squeak entries w) :
    Finishes listeners fault squeak contentStr (notify (callback squeak))
      (Prog.Post (fun _ w' => Notifying listeners squeak entries w') fun w' => EachRow squeak (KeyedSqueak squeak) w'.db)
      w := by
  refine Finishes.andThen (Q := Prog.Post
      (fun x w' => Prog.Post (fun _ w' => Notifying listeners squeak entries w')
        (fun w' => EachRow squeak (KeyedSqueak squeak) w'.db) x w')
      fun w' => EachRow squeak (KeyedSqueak squeak) w'.db) (Prog.ends_attempt ?_ ?_) ?_ fun _ _ h' => h'
  · exact fun w' e hturns hw' he => keyed_of_fault hw' ((stable_notifying entries).turns hturns h).1 he
  · intro w' hturns hw' _
    have h' := (stable_notifying entries).turns hturns h
    by_cases hkey : Unkeyed squeak w'.db
    · obtain ⟨o, ho, hsame⟩ := (hw' hkey).2 callback (by rw [h'.2 hkey]; exact hmem)
      show Prog.Post _ _ (callback squeak w'.env).1 { w' with env := (callback squeak w'.env).2 }
      rw [ho]
      exact ⟨h'.1, fun _ => hsame.trans (h'.2 hkey)⟩
    · have hkeyed := h'.1.keyed hkey
      show Prog.Post _ _ (callback squeak w'.env).1 { w' with env := (callback squeak w'.env).2 }
      cases (callback squeak w'.env).1 with
      | error e => exact hkeyed
      | ok _ => exact ⟨h'.1, fun hkey' => absurd hkey' hkey⟩
  · rintro (e | _) w' h'
    · exact h'
    · exact h'

/-- The iterator goes on as over the subscribers that it started with, or the row has its key. -/
theorem finishes_nextCallback {entries : List (Option (Callback L.CSqueak ρ))} {left pos : Nat}
    (hleft : EventListener.size (entries.drop pos) = left) (h : Notifying listeners squeak entries w) :
    Finishes listeners fault squeak contentStr
      (notify fun o => (listeners.newSqueakListener.nextCallback (EventListener.size entries) left pos o, o))
      (Prog.Post
        (fun found w' => Notifying listeners squeak entries w' ∧
          (found = EventListener.firstEntry pos (entries.drop pos) ∨ EachRow squeak (KeyedSqueak squeak) w'.db))
        fun w' => EachRow squeak (KeyedSqueak squeak) w'.db) w := by
  have hnext : ∀ o, listeners.newSqueakListener.callbacks o = entries →
      listeners.newSqueakListener.nextCallback (EventListener.size entries) left pos o =
        .ok (EventListener.firstEntry pos (entries.drop pos)) := by
    intro o ho
    unfold EventListener.nextCallback
    rw [ho, if_neg (by simp)]
    cases hfirst : EventListener.firstEntry pos (entries.drop pos) with
    | none => rfl
    | some found =>
      -- the iterator expects this callback
      obtain ⟨-, hsize⟩ := EventListener.firstEntry_some hfirst
      exact if_neg (by omega)
  refine Finishes.andThen (finishes_ask _ hnext h) ?_ fun _ _ h' => h'
  rintro (e | found) w' ⟨h', heq | hkeyed⟩
  · cases heq
  · exact hkeyed
  · exact ⟨h', .inl (Except.ok.inj heq)⟩
  · exact ⟨h', .inr hkeyed⟩

/-- The loop over the callbacks raises only when the row has its key. -/
theorem finishes_callAll {entries : List (Option (Callback L.CSqueak ρ))} {left pos : Nat}
    (hleft : EventListener.size (entries.drop pos) = left) (h : Notifying listeners squeak entries w) :
    Finishes listeners fault squeak contentStr
      (listeners.newSqueakListener.callAll squeak (EventListener.size entries) left pos) (Notified squeak) w := by
  have hsame : ∀ (w : World ρ) o, ({ w with env := o } : World ρ).db = w.db := fun _ _ => rfl
  induction left generalizing pos w with
  | zero =>
    refine Finishes.andThen (finishes_nextCallback hleft h) ?_ fun _ _ h' => h'
    rintro found w' ⟨h', -⟩
    exact h'.1
  | succ left ih =>
    refine Finishes.andThen (finishes_nextCallback hleft h) ?_ fun _ _ h' => h'
    rintro found w' ⟨h', rfl | hkeyed⟩
    · cases hfirst : EventListener.firstEntry pos (entries.drop pos) with
      | none => exact h'.1
      | some found =>
        obtain ⟨hmem, hsize⟩ := EventListener.firstEntry_some hfirst
        refine Finishes.andThen (finishes_callback hmem h') ?_ fun _ _ h'' => h''
        exact fun _ w'' h'' => ih (by omega) h''
    · refine finishes_of_keyed ?_ hkeyed
      cases found with
      | none => trivial
      | some found =>
        exact Prog.within_bind (within_notify fun w _ _ => hsame w _) fun _ => respects_callAll hsame _ _ _ _ _

/-- A notification of the new squeak raises only when the row has its key. -/
theorem finishes_handleNewItem (h : EachRow squeak (SavedSqueak squeak) w.db) :
    Finishes listeners fault squeak contentStr (listeners.newSqueakListener.handleNewItem squeak) (Notified squeak) w := by
  have hsame : ∀ (w : World ρ) o, ({ w with env := o } : World ρ).db = w.db := fun _ _ => rfl
  -- the subscribers that are there when the size is read
  refine Finishes.andThen (Q := Prog.Post
      (fun used w' => ∃ entries, used = EventListener.size entries ∧ Notifying listeners squeak entries w')
      fun w' => EachRow squeak (KeyedSqueak squeak) w'.db) (Prog.ends_attempt ?_ ?_) ?_ fun _ _ h' => h'
  · exact fun w' e hturns hw' he => keyed_of_fault hw' (stable_saved.turns hturns h) he
  · exact fun w' hturns _ _ => ⟨_, rfl, stable_saved.turns hturns h, fun _ => rfl⟩
  · rintro _ w' ⟨entries, rfl, h'⟩
    exact finishes_callAll (by rw [List.drop_zero]) h'

/-! ### The operations -/

/-- Before the INSERT there is no row. -/
theorem finishes_absent {p : NodeM ρ α} (hp : p.Respects fun w w' => w'.db = w.db)
    (h : EachRow squeak (fun _ => False) w.db) :
    Finishes listeners fault squeak contentStr p (fun _ w' => EachRow squeak (fun _ => False) w'.db) w := by
  refine Prog.ends_of_keeps stable_absent (hp.mono ?_) h
  intro s _ s' hsame hs
  rwa [hsame]

/-- The INSERT of a squeak that is not there. -/
theorem finishes_saveSqueak (h : EachRow squeak (fun _ => False) w.db) :
    Finishes listeners fault squeak contentStr (SqueakStore.saveSqueak N squeak) (Prog.Post
      (fun inserted w' => inserted = some (getHash L squeak) ∧ EachRow squeak (SavedSqueak squeak) w'.db)
      fun w' => EachRow squeak (KeyedSqueak squeak) w'.db) w := by
  have hkeyed : ∀ db, EachRow squeak (fun _ => False) db → EachRow squeak (KeyedSqueak squeak) db :=
    fun _ h => h.mono fun _ => False.elim
  have hheader : (SqueakCore.getBlockHeader N squeak).Respects fun w w' => w'.db = w.db := by
    refine Prog.within_bind (Prog.within_bind (Prog.within_observed fun w => rfl) fun _ =>
      Prog.within_ofExcept _) fun info => ?_
    split <;> trivial
  unfold SqueakStore.saveSqueak
  refine Finishes.andThen (finishes_absent (Prog.within_ofExcept _) h) ?_ fun _ _ h' => hkeyed _ h'
  intro _ w₁ h₁
  refine Finishes.andThen (finishes_absent hheader h₁) ?_ fun _ _ h' => hkeyed _ h'
  intro header w₂ h₂
  refine Finishes.andThen (finishes_absent (Prog.within_observed fun w => rfl) h₂) ?_ fun _ _ h' => hkeyed _ h'
  intro numSqueaks w₃ h₃
  split
  · exact hkeyed _ h₃
  refine Finishes.andThen (finishes_absent (Prog.within_observed fun w => rfl) h₃) ?_ fun _ _ h' => hkeyed _ h'
  intro num w₄ h₄
  split
  · exact hkeyed _ h₄
  refine Finishes.andThen (finishes_absent (within_ask fun w => rfl) h₄) ?_ fun _ _ h' => hkeyed _ h'
  intro now w₅ h₅
  refine Prog.ends_attempt (fun w' e hturns _ _ => hkeyed _ (stable_absent.turns hturns h₅)) fun w' hturns _ _ => ?_
  have h' := stable_absent.turns hturns h₅
  have hfree : taken SqueakRow.hash (getHash L squeak) w'.db.squeaks = false :=
    taken_eq_false.2 fun r hr hhash => h' r hr hhash
  dsimp only
  rw [insertSqueak_of_free _ hfree]
  refine ⟨rfl, fun r hr hhash => ?_⟩
  rcases List.mem_append.1 hr with hr | hr
  · exact (h' r hr hhash).elim
  · rw [List.mem_singleton.1 hr]
    exact ⟨rfl, fun k hk => by cases hk⟩

/-- Until the UPDATE of the row, an exception finds no row without a key. -/
theorem finishes_saveSecretKey (hL : L.CodecLaws) {secretKey : Bytes}
    (hvalid : L.checkSqueakSecretKey squeak secretKey = .ok ())
    (hopens : L.isPrivateMessage squeak = false → OpensWith squeak contentStr none)
    (h : EachRow squeak (SavedSqueak squeak) w.db) :
    Finishes listeners fault squeak contentStr (NotifyingStore.saveSecretKey listeners (getHash L squeak) secretKey)
      (Prog.Post
        (fun _ w' => EachRow squeak (KeyedSqueak squeak) w'.db ∧
          (L.isPrivateMessage squeak = false → EachRow squeak (UnlockedSqueak squeak contentStr) w'.db))
        fun w' => EachRow squeak (KeyedSqueak squeak) w'.db) w := by
  unfold NotifyingStore.saveSecretKey SqueakStore.saveSecretKeyWith
  refine Finishes.andThen (finishes_getSqueak hL h) ?_ fun _ _ h' => h'
  rintro (_ | found) w₁ h₁
  · exact h₁
  obtain ⟨rfl, h₁⟩ := h₁
  dsimp only
  rw [hvalid]
  -- the UPDATE
  refine Finishes.andThen (p := update (setSqueakSecretKey (getHash L found) secretKey))
    (Q := fun _ w' => EachRow found (KeyedSqueak found) w'.db) (Prog.ends_attempt ?_ ?_) ?_ fun _ _ h' => h'
  · exact fun w' e hturns hw' he => keyed_of_fault hw' (stable_saved.turns hturns h₁) he
  · intro w' hturns _ _
    refine eachRow_updateSqueak (stable_saved.turns hturns h₁) (fun _ => rfl) fun r hr =>
      ⟨⟨hr.bytes, fun k hk => ?_⟩, ?_⟩
    · cases hk
      exact hvalid
    · exact Option.some_ne_none _
  intro _ w₂ h₂
  refine Finishes.andThen (Q := fun _ w' => EachRow found (KeyedSqueak found) w'.db)
    (Prog.ends_of_keeps stable_keyed (respects_handleNewItem (fun _ _ h' => h') _ _) h₂) ?_ fun _ _ h' => h'
  intro _ w₃ h₃
  cases hprivate : L.isPrivateMessage found with
  | true => exact ⟨h₃, fun hpublic => by cases hpublic⟩
  | false =>
    refine Prog.ends_mono ?_ (finishes_unlockSqueak hL (G := fun _ => True) (fun _ _ _ _ => trivial) ?_ trivial h₃)
    · rintro (e | _) w' h'
      · exact h'
      · exact ⟨h'.mono fun _ hr => hr.toKeyedSqueak, fun _ => h'⟩
    · intro w' _ h'
      exact ⟨fun profile hprofile => by cases hprofile; exact hopens hprivate, h'⟩

/-- The author's profile has the key that the squeak was made with, if it is still there. -/
theorem finishes_requireProfile {profileId : Nat} {privateKey : L.PrivateKey} (error : Nat → Err)
    (hauthor : AuthorKey L profileId privateKey w.db) (h : EachRow squeak (KeyedSqueak squeak) w.db) :
    Finishes listeners fault squeak contentStr
      (SqueakStore.requireProfile L error (SqueakStore.givenProfile (some profileId)))
      (fun x w' => (∀ profile, x = .ok profile → ∃ p, profile = some p ∧ p.privateKey = some privateKey) ∧
        EachRow squeak (KeyedSqueak squeak) w'.db) w := by
  have hgiven : SqueakStore.givenProfile (some profileId) = some profileId := by
    cases profileId with
    | zero => exact absurd hauthor.1 (Nat.lt_irrefl 0)
    | succ n => rfl
  rw [hgiven]
  have hboth : Prog.Stable (Aside listeners squeak contentStr) fun w =>
      AuthorKey L profileId privateKey w.db ∧ EachRow squeak (KeyedSqueak squeak) w.db :=
    Prog.Stable.and (fun _ _ hturn hw => hw.writes hturn.writes) stable_keyed
  -- the row that the SELECT finds, and the profile in it
  refine Finishes.andThen (p := SqueakStore.getSqueakProfile L profileId) (Q := fun x w' =>
    (∀ p, x = .ok (some p) → p.privateKey = some privateKey) ∧ EachRow squeak (KeyedSqueak squeak) w'.db) ?_ ?_ ?_
  · refine Finishes.andThen (Q := fun x w' => (∀ row profile, x = .ok (some row) →
      parseSqueakProfile L row = .ok profile →
      profile.privateKey = some privateKey) ∧ EachRow squeak (KeyedSqueak squeak) w'.db)
      (finishes_query hboth ⟨hauthor, h⟩ ?_ ?_) ?_ ?_
    · rintro w' ⟨hauthor', h'⟩
      exact ⟨fun row profile hrow hprofile => hauthor'.found (Except.ok.inj hrow) hprofile, h'⟩
    · rintro w' e ⟨-, h'⟩ - -
      exact ⟨fun row profile hrow => (by cases hrow), h'⟩
    · rintro (_ | row) w' ⟨hfound, h'⟩
      · exact ⟨fun p hp => (by cases hp), h'⟩
      · dsimp only
        cases hprofile : parseSqueakProfile L row with
        | error e => exact ⟨fun p hp => (by cases hp), h'⟩
        | ok profile =>
          refine ⟨fun p hp => ?_, h'⟩
          cases hp
          exact hfound row profile rfl hprofile
    · rintro e w' ⟨-, h'⟩
      exact ⟨fun p hp => (by cases hp), h'⟩
  · rintro (_ | p) w' ⟨hfound, h'⟩
    · exact ⟨fun p hp => (by cases hp), h'⟩
    · refine ⟨fun profile hprofile => ?_, h'⟩
      cases hprofile
      exact ⟨p, rfl, hfound p rfl⟩
  · rintro e w' ⟨-, h'⟩
    exact ⟨fun p hp => (by cases hp), h'⟩

/-- How a call ends: after an exception every row of the squeak has its key, after a return the content too. -/
def Finished (squeak : L.CSqueak) (contentStr : String) : Except Err Bytes → World ρ → Prop
  | .error _, w => EachRow squeak (KeyedSqueak squeak) w.db
  | .ok squeakHash, w => squeakHash = getHash L squeak ∧ EachRow squeak (UnlockedSqueak squeak contentStr) w.db

theorem finishes_openSqueak (hL : L.CodecLaws) (hD : L.DecryptLaws) {profileId : Nat} {secretKey : Bytes}
    (hmade : MadeBy profileId contentStr squeak secretKey w.db) (h : EachRow squeak (KeyedSqueak squeak) w.db)
    (hpublic : L.isPrivateMessage squeak = false → EachRow squeak (UnlockedSqueak squeak contentStr) w.db) :
    Finishes listeners fault squeak contentStr (NotifyingStore.openSqueak profileId squeak (getHash L squeak))
      (Finished squeak contentStr) w := by
  obtain ⟨privateKey, hauthor, hdecrypted⟩ := hmade.author
  unfold NotifyingStore.openSqueak
  cases hprivate : L.isPrivateMessage squeak with
  | false => exact ⟨rfl, hpublic hprivate⟩
  | true =>
    refine Finishes.andThen (finishes_unlockSqueak hL (G := fun w => AuthorKey L profileId privateKey w.db)
      (fun _ _ hturn hw => hw.writes hturn.writes) ?_ hauthor h) ?_ ?_
    · intro w' hauthor' h'
      refine Prog.ends_mono ?_ (finishes_requireProfile _ hauthor' h')
      rintro x w'' ⟨hfound, h''⟩
      refine ⟨fun profile hprofile => ?_, h''⟩
      obtain ⟨p, rfl, hp⟩ := hfound profile hprofile
      exact opens_author hD hmade.valid hdecrypted hp
    · exact fun _ w' h' => ⟨rfl, h'⟩
    · exact fun _ w' h' => h'

theorem finishes_notifyingSaveSqueak (h : EachRow squeak (fun _ => False) w.db) :
    Finishes listeners fault squeak contentStr (NotifyingStore.saveSqueak N listeners squeak) (Prog.Post
      (fun inserted w' => inserted = some (getHash L squeak) ∧ EachRow squeak (SavedSqueak squeak) w'.db)
      fun w' => EachRow squeak (KeyedSqueak squeak) w'.db) w := by
  refine Finishes.andThen (finishes_saveSqueak h) ?_ fun _ _ h' => h'
  rintro inserted w₁ ⟨rfl, h₁⟩
  exact Finishes.andThen (finishes_handleNewItem h₁) (fun _ _ h' => ⟨rfl, h'⟩) fun _ _ h' => h'

/-- The profiles stay as they are while the squeak and its key are saved. -/
theorem profiles_saveSqueak :
    (NotifyingStore.saveSqueak N listeners squeak).Respects fun w w' => w'.db.profiles = w.db.profiles := by
  refine Prog.within_bind (within_saveSqueak N squeak (fun _ _ _ h => h.2) fun _ _ _ _ => rfl) fun inserted => ?_
  cases inserted with
  | none => trivial
  | some insertedSqueakHash => exact Prog.within_bind (respects_handleNewItem (fun _ _ => rfl) _ _) fun _ => trivial

theorem profiles_saveSecretKey (squeakHash secretKey : Bytes) :
    (NotifyingStore.saveSecretKey listeners squeakHash secretKey).Respects fun w w' =>
      w'.db.profiles = w.db.profiles := by
  refine Prog.within_bind (within_getSqueak (fun _ => rfl) _) fun found => ?_
  cases found with
  | none => trivial
  | some found =>
    refine Prog.within_bind (Prog.within_ofExcept _) fun _ => Prog.within_bind (within_update fun _ => rfl) fun _ =>
      Prog.within_bind (respects_handleNewItem (fun _ _ => rfl) _ _) fun _ => ?_
    split
    · trivial
    · exact within_unlockSqueak (fun _ => rfl) (fun _ _ _ => rfl) _ _ _

/-- The call with a new squeak. -/
theorem finishes_finishSqueak (hL : L.CodecLaws) (hD : L.DecryptLaws) {profileId : Nat} {secretKey : Bytes}
    (hmade : MadeBy profileId contentStr squeak secretKey w.db) (h : EachRow squeak (fun _ => False) w.db) :
    Finishes listeners fault squeak contentStr (NotifyingStore.finishSqueak N listeners profileId squeak secretKey)
      (Finished squeak contentStr) w := by
  obtain ⟨privateKey, -, hdecrypted⟩ := hmade.author
  have hstable : Prog.Stable (Aside listeners squeak contentStr) fun w =>
    MadeBy profileId contentStr squeak secretKey w.db :=
    fun _ _ hturn hw => hw.writes hturn.writes
  have hkeeps : ∀ (w : World ρ) (_ : List Obs) (w' : World ρ), w'.db.profiles = w.db.profiles →
      MadeBy profileId contentStr squeak secretKey w.db → MadeBy profileId contentStr squeak secretKey w'.db := by
    rintro w - w' hsame ⟨hvalid, privateKey, hauthor, hdecrypted⟩
    refine ⟨hvalid, privateKey, ?_, hdecrypted⟩
    unfold AuthorKey
    rwa [hsame]
  unfold NotifyingStore.finishSqueak
  refine Finishes.andThen ((finishes_notifyingSaveSqueak h).keeping hstable (profiles_saveSqueak.mono hkeeps) hmade) ?_
    fun _ _ h' => h'.1
  rintro inserted w₁ ⟨⟨rfl, h₁⟩, hmade₁⟩
  refine Finishes.andThen ((finishes_saveSecretKey hL hmade.valid (opens_public hD hmade.valid hdecrypted) h₁).keeping
    hstable ((profiles_saveSecretKey _ _).mono hkeeps) hmade₁) ?_ fun _ _ h' => h'.1
  rintro _ w₂ ⟨⟨h₂, hpublic⟩, hmade₂⟩
  exact finishes_openSqueak hL hD hmade₂ h₂ hpublic

end Finish

end Squeaknode
