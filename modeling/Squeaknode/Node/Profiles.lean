/-
The profiles of a node. The constructors of `core/profiles.py` check the name of a profile, the schema has
UNIQUE names and public keys, and an update of a name goes through the schema alone. After some of the
writes the listeners are told that the set of followed authors may have changed.
-/
import Squeaknode.Node.Listeners
import Squeaknode.Node.Sample
import Squeaknode.Interleave.Machine

namespace Squeaknode

open Interleave Interleave.Machine Relational SqueakDb

/-! ## Making profiles -/

/-- An event that requires an update of subscriptions. -/
structure UpdateSubscriptionsEvent where
  deriving DecidableEq, Repr

namespace Profiles

def validateProfileName (profileName : String) : Except Err Unit :=
  if profileName.length = 0 then .error (.exception "Profile name cannot be empty.") else .ok ()

/-- `generate` is `SqueakPrivateKey.generate`, which is used when no private key is given. -/
def createSigningProfile {L : Squeaklib} {ρ : Type} (generate : ρ → L.PrivateKey × ρ) (profileName : String)
    (privateKey : Option L.PrivateKey) : NodeM ρ (SqueakProfile L) := do
  Prog.ofExcept (validateProfileName profileName)
  let privateKey ← match privateKey with
    | none => ask generate
    | some privateKey => pure privateKey
  return ⟨profileName, L.getPublicKey privateKey, none, some privateKey, true, none⟩

def createContactProfile {L : Squeaklib} (profileName : String) (publicKey : L.PublicKey) :
    Except Err (SqueakProfile L) := do
  validateProfileName profileName
  return ⟨profileName, publicKey, none, none, true, none⟩

theorem validateProfileName_ok {profileName : String} (h : validateProfileName profileName = .ok ()) :
    profileName ≠ "" := by
  rintro rfl
  exact absurd h (by decide)

end Profiles

/-! ## The operations -/

/-- What the profile operations of a store use besides its node. -/
structure ProfileStore (L : Squeaklib) (ρ : Type) where
  generate : ρ → L.PrivateKey × ρ
  newFollowListener : EventListener UpdateSubscriptionsEvent ρ

namespace ProfileStore

variable {L : Squeaklib} {ρ : Type} (N : Node L ρ) (S : ProfileStore L ρ)

def insertProfile (squeakProfile : SqueakProfile L) : NodeM ρ Nat := do
  let now ← ask N.timestampNowMs
  let id ← sql (SqueakDb.insertProfile L now squeakProfile)
  Prog.ofExcept id

def createUpdateSubscriptionsEvent : NodeM ρ Unit := S.newFollowListener.handleNewItem ⟨⟩

def createSigningProfile (profileName : String) : NodeM ρ Nat := do
  let squeakProfile ← Profiles.createSigningProfile S.generate profileName none
  let profileId ← insertProfile N squeakProfile
  createUpdateSubscriptionsEvent S
  return profileId

def importSigningProfile (profileName : String) (privateKey : L.PrivateKey) : NodeM ρ Nat := do
  let squeakProfile ← Profiles.createSigningProfile S.generate profileName (some privateKey)
  let profileId ← insertProfile N squeakProfile
  createUpdateSubscriptionsEvent S
  return profileId

def createContactProfile (profileName : String) (publicKey : L.PublicKey) : NodeM ρ Nat := do
  let squeakProfile ← Prog.ofExcept (Profiles.createContactProfile profileName publicKey)
  let profileId ← insertProfile N squeakProfile
  createUpdateSubscriptionsEvent S
  return profileId

def setSqueakProfileFollowing (profileId : Nat) (following : Bool) : NodeM ρ Unit := do
  update (setProfileFollowing profileId following)
  createUpdateSubscriptionsEvent S

/-- The name is not checked, and the listeners are not told. -/
def renameSqueakProfile (profileId : Nat) (profileName : String) : NodeM ρ Unit := do
  let renamed ← sql (setProfileName profileId profileName)
  Prog.ofExcept renamed

def deleteSqueakProfile (profileId : Nat) : NodeM ρ Unit := do
  update (deleteProfile profileId)
  createUpdateSubscriptionsEvent S

def setSqueakProfileImage (profileId : Nat) (profileImage : Bytes) : NodeM ρ Unit :=
  update (setProfileImage profileId (some profileImage))

def clearSqueakProfileImage (profileId : Nat) : NodeM ρ Unit := update (setProfileImage profileId none)

end ProfileStore

/-- The calls of the profile operations. -/
inductive ProfileOp (L : Squeaklib) where
  | createSigning (profileName : String)
  | importSigning (profileName : String) (privateKey : L.PrivateKey)
  | createContact (profileName : String) (publicKey : L.PublicKey)
  | setFollowing (profileId : Nat) (following : Bool)
  | rename (profileId : Nat) (profileName : String)
  | delete (profileId : Nat)
  | setImage (profileId : Nat) (profileImage : Bytes)
  | clearImage (profileId : Nat)

namespace ProfileOp

variable {L : Squeaklib} {ρ : Type} (N : Node L ρ) (S : ProfileStore L ρ)

def program : ProfileOp L → NodeM ρ Unit
  | createSigning profileName => (fun _ => ()) <$> S.createSigningProfile N profileName
  | importSigning profileName privateKey => (fun _ => ()) <$> S.importSigningProfile N profileName privateKey
  | createContact profileName publicKey => (fun _ => ()) <$> S.createContactProfile N profileName publicKey
  | setFollowing profileId following => S.setSqueakProfileFollowing profileId following
  | rename profileId profileName => ProfileStore.renameSqueakProfile profileId profileName
  | delete profileId => S.deleteSqueakProfile profileId
  | setImage profileId profileImage => ProfileStore.setSqueakProfileImage profileId profileImage
  | clearImage profileId => ProfileStore.clearSqueakProfileImage profileId

/-- The operation without the event that it ends with. -/
def write : ProfileOp L → NodeM ρ Unit
  | createSigning profileName => do
    let squeakProfile ← Profiles.createSigningProfile S.generate profileName none
    let _ ← ProfileStore.insertProfile N squeakProfile
    return ()
  | importSigning profileName privateKey => do
    let squeakProfile ← Profiles.createSigningProfile S.generate profileName (some privateKey)
    let _ ← ProfileStore.insertProfile N squeakProfile
    return ()
  | createContact profileName publicKey => do
    let squeakProfile ← Prog.ofExcept (Profiles.createContactProfile profileName publicKey)
    let _ ← ProfileStore.insertProfile N squeakProfile
    return ()
  | setFollowing profileId following => update (setProfileFollowing profileId following)
  | rename profileId profileName => ProfileStore.renameSqueakProfile profileId profileName
  | delete profileId => update (deleteProfile profileId)
  | setImage profileId profileImage => ProfileStore.setSqueakProfileImage profileId profileImage
  | clearImage profileId => ProfileStore.clearSqueakProfileImage profileId

/-- The operation ends with an event. -/
def notifies : ProfileOp L → Bool
  | rename _ _ | setImage _ _ | clearImage _ => false
  | _ => true

/-- The event at the end of an operation. -/
def event (op : ProfileOp L) : NodeM ρ Unit := if op.notifies then S.createUpdateSubscriptionsEvent else pure ()

/-- An operation writes, and then tells the listeners. -/
theorem run_program (op : ProfileOp L) (w : World ρ) :
    (op.program N S).run w = (op.write N S >>= fun _ => op.event S).run w := by
  have hmap : ∀ (p : NodeM ρ (SqueakProfile L)), ((fun _ => ()) <$> (do
      let squeakProfile ← p
      let profileId ← ProfileStore.insertProfile N squeakProfile
      S.createUpdateSubscriptionsEvent
      return profileId) : NodeM ρ Unit).run w = ((do
      let squeakProfile ← p
      let _ ← ProfileStore.insertProfile N squeakProfile
      return ()) >>= fun _ => S.createUpdateSubscriptionsEvent).run w := by
    intro p
    rw [Prog.run_map, Prog.run_bind, Prog.run_bind, Prog.run_bind]
    rcases p.run w with ⟨e | squeakProfile, w₁⟩
    · rfl
    simp only [Prog.run_bind]
    rcases (ProfileStore.insertProfile N squeakProfile).run w₁ with ⟨e | profileId, w₂⟩
    · rfl
    simp only [Prog.pure_eq, Prog.run_ret]
    rcases (S.createUpdateSubscriptionsEvent).run w₂ with ⟨e | _, w₃⟩ <;> rfl
  have hpure : ∀ p : NodeM ρ Unit, p.run w = (p >>= fun _ => (pure () : NodeM ρ Unit)).run w := by
    intro p
    rw [Prog.run_bind]
    rcases p.run w with ⟨e | _, w'⟩ <;> rfl
  cases op with
  | createSigning profileName => exact hmap _
  | importSigning profileName privateKey => exact hmap _
  | createContact profileName publicKey => exact hmap _
  | setFollowing profileId following => rfl
  | delete profileId => rfl
  | rename profileId profileName => exact hpure _
  | setImage profileId profileImage => exact hpure _
  | clearImage profileId => exact hpure _

end ProfileOp

/-! ## What an operation does to the table -/

/-- The keys of a profile belong together. -/
def KeysMatch (L : Squeaklib) (publicKey : Bytes) (privateKey : Option Bytes) : Prop :=
  ∀ key, privateKey = some key →
    ∃ k, key = L.privateKeyToBytes k ∧ publicKey = L.publicKeyToBytes (L.getPublicKey k)

/-- The outcome of an operation's write, and the table before and after it. -/
inductive ProfileWrite (L : Squeaklib) :
    ProfileOp L → Table ProfileRow → Except Err Unit → Table ProfileRow → Prop
  | refused (op : ProfileOp L) (t : Table ProfileRow) (e : Err) : ProfileWrite L op t (.error e) t
  | inserted (op : ProfileOp L) (t : Table ProfileRow) (now : Int) (p : SqueakProfile L) :
      p.profileName ≠ "" → KeysMatch L (L.publicKeyToBytes p.publicKey) (p.privateKey.map L.privateKeyToBytes) →
      taken ProfileRow.profileName p.profileName t.rows = false →
      taken ProfileRow.publicKey (L.publicKeyToBytes p.publicKey) t.rows = false →
      (∀ id name, op ≠ .rename id name) →
      ProfileWrite L op t (.ok ()) ⟨t.rows ++ [profileRow L now p (t.lastId + 1)], t.lastId + 1⟩
  | renamed (id : Nat) (name : String) (t : Table ProfileRow) :
      ((∃ r ∈ t.rows, r.profileId = id) → ∀ r ∈ t.rows, r.profileId ≠ id → r.profileName ≠ name) →
      ProfileWrite L (.rename id name) t (.ok ())
        (t.update (fun r => r.profileId == id) fun r => { r with profileName := name })
  | updated (op : ProfileOp L) (t : Table ProfileRow) (p : ProfileRow → Bool) (f : ProfileRow → ProfileRow) :
      (∀ r, (f r).profileId = r.profileId ∧ (f r).profileName = r.profileName ∧ (f r).publicKey = r.publicKey ∧
        (f r).privateKey = r.privateKey) → (∀ id name, op ≠ .rename id name) →
      ProfileWrite L op t (.ok ()) (t.update p f)
  | deleted (op : ProfileOp L) (t : Table ProfileRow) (p : ProfileRow → Bool) :
      (∀ id name, op ≠ .rename id name) → ProfileWrite L op t (.ok ()) (t.delete p)

section Writes

variable {L : Squeaklib} {ρ : Type} {N : Node L ρ} {S : ProfileStore L ρ}

theorem run_insertProfile (p : SqueakProfile L) (w : World ρ) : (ProfileStore.insertProfile N p).run w =
    ((SqueakDb.insertProfile L (N.timestampNowMs w.env).1 p w.db).1,
      ⟨(SqueakDb.insertProfile L (N.timestampNowMs w.env).1 p w.db).2, (N.timestampNowMs w.env).2⟩) := by
  unfold ProfileStore.insertProfile
  simp only [Prog.run_bind, run_ask, run_sql, Prog.run_ofExcept]

/-- An INSERT writes a row with a new name and a new public key, or raises. -/
theorem profileWrite_insert (op : ProfileOp L) (hop : ∀ id name, op ≠ .rename id name) {p : SqueakProfile L}
    (hname : p.profileName ≠ "")
    (hkeys : KeysMatch L (L.publicKeyToBytes p.publicKey) (p.privateKey.map L.privateKeyToBytes))
    (w : World ρ) : ProfileWrite L op w.db.profiles
      ((fun _ => ()) <$> ((ProfileStore.insertProfile N p).run w).1)
      ((ProfileStore.insertProfile N p).run w).2.db.profiles := by
  rw [run_insertProfile]
  unfold SqueakDb.insertProfile
  rcases htakenName : taken ProfileRow.profileName p.profileName w.db.profiles.rows with _ | _
  · rcases htakenKey : taken ProfileRow.publicKey (L.publicKeyToBytes p.publicKey) w.db.profiles.rows with _ | _
    · have hfree : taken ProfileRow.publicKey (profileRow L (N.timestampNowMs w.env).1 p
          (w.db.profiles.lastId + 1)).publicKey w.db.profiles.rows = false := htakenKey
      simp only [Table.insert_of_free hfree]
      exact .inserted op _ _ p hname hkeys htakenName htakenKey hop
    · have htaken : taken ProfileRow.publicKey (profileRow L (N.timestampNowMs w.env).1 p
          (w.db.profiles.lastId + 1)).publicKey w.db.profiles.rows = true := htakenKey
      simp only [Table.insert_of_taken htaken]
      exact .refused op _ _
  · exact .refused op _ _

/-- A program that makes a profile, and then inserts it. -/
theorem profileWrite_made (op : ProfileOp L) (hop : ∀ id name, op ≠ .rename id name)
    {make : NodeM ρ (SqueakProfile L)} (hdb : ∀ w, (make.run w).2.db = w.db)
    (hmade : ∀ w p w', make.run w = (.ok p, w') → p.profileName ≠ "" ∧
      KeysMatch L (L.publicKeyToBytes p.publicKey) (p.privateKey.map L.privateKeyToBytes)) (w : World ρ) :
    ProfileWrite L op w.db.profiles
      ((do let p ← make; let _ ← ProfileStore.insertProfile N p; return () : NodeM ρ Unit).run w).1
      ((do let p ← make; let _ ← ProfileStore.insertProfile N p; return () : NodeM ρ Unit).run w).2.db.profiles := by
  have hkeep := hdb w
  rw [Prog.run_bind]
  rcases hmake : make.run w with ⟨e | p, w'⟩
  · rw [hmake] at hkeep
    show ProfileWrite L op w.db.profiles (.error e) w'.db.profiles
    rw [congrArg Db.profiles hkeep]
    exact .refused op _ e
  · rw [hmake] at hkeep
    obtain ⟨hname, hkeys⟩ := hmade w p w' hmake
    have hinsert := profileWrite_insert (N := N) op hop hname hkeys w'
    rw [hkeep] at hinsert
    simp only [Prog.run_bind]
    rcases hrun : (ProfileStore.insertProfile N p).run w' with ⟨e | id, w''⟩
    · rw [hrun] at hinsert
      exact hinsert
    · rw [hrun] at hinsert
      exact hinsert

theorem run_createSigningProfile_db (profileName : String) (privateKey : Option L.PrivateKey) (w : World ρ) :
    ((Profiles.createSigningProfile S.generate profileName privateKey).run w).2.db = w.db := by
  unfold Profiles.createSigningProfile
  rw [Prog.run_bind, Prog.run_ofExcept]
  cases Profiles.validateProfileName profileName with
  | error e => rfl
  | ok _ => cases privateKey <;> rfl

theorem createSigningProfile_ok {profileName : String} {privateKey : Option L.PrivateKey} {w w' : World ρ}
    {p : SqueakProfile L} (h : (Profiles.createSigningProfile S.generate profileName privateKey).run w = (.ok p, w')) :
    p.profileName ≠ "" ∧ KeysMatch L (L.publicKeyToBytes p.publicKey) (p.privateKey.map L.privateKeyToBytes) := by
  unfold Profiles.createSigningProfile at h
  rw [Prog.run_bind, Prog.run_ofExcept] at h
  rcases hname : Profiles.validateProfileName profileName with e | _
  · rw [hname] at h
    cases h
  · rw [hname] at h
    cases privateKey with
    | none =>
      cases h
      exact ⟨Profiles.validateProfileName_ok hname, fun key hkey => ⟨_, (Option.some.inj hkey).symm, rfl⟩⟩
    | some privateKey =>
      cases h
      exact ⟨Profiles.validateProfileName_ok hname, fun key hkey => ⟨_, (Option.some.inj hkey).symm, rfl⟩⟩

theorem createContactProfile_ok {profileName : String} {publicKey : L.PublicKey} {p : SqueakProfile L}
    (h : Profiles.createContactProfile profileName publicKey = .ok p) :
    p.profileName ≠ "" ∧ KeysMatch L (L.publicKeyToBytes p.publicKey) (p.privateKey.map L.privateKeyToBytes) := by
  unfold Profiles.createContactProfile at h
  rcases hname : Profiles.validateProfileName profileName with e | _
  · rw [hname] at h
    cases h
  · rw [hname] at h
    cases h
    exact ⟨Profiles.validateProfileName_ok hname, fun key hkey => by cases hkey⟩

theorem run_renameSqueakProfile (id : Nat) (name : String) (w : World ρ) :
    (ProfileStore.renameSqueakProfile id name).run w =
      ((setProfileName id name w.db).1, { w with db := (setProfileName id name w.db).2 }) := by
  unfold ProfileStore.renameSqueakProfile
  simp only [Prog.run_bind, run_sql, Prog.run_ofExcept]

/-- Renaming keeps the names different, or raises. -/
theorem profileWrite_rename (id : Nat) (name : String) (w : World ρ) :
    ProfileWrite L (.rename id name) w.db.profiles ((ProfileStore.renameSqueakProfile id name).run w).1
      ((ProfileStore.renameSqueakProfile id name).run w).2.db.profiles := by
  rw [run_renameSqueakProfile]
  unfold setProfileName
  split
  · exact .refused _ _ _
  · rename_i hfree
    refine .renamed id name w.db.profiles fun hid r hr hne hname => hfree ?_
    rw [Bool.and_eq_true, taken_iff]
    refine ⟨hid, List.any_eq_true.2 ⟨r, hr, ?_⟩⟩
    simp [hne, hname]

/-- The write of every operation is one of these. -/
theorem profileWrite (op : ProfileOp L) (w : World ρ) :
    ProfileWrite L op w.db.profiles ((op.write N S).run w).1 ((op.write N S).run w).2.db.profiles := by
  cases op with
  | createSigning profileName =>
    exact profileWrite_made _ (fun _ _ h => by cases h) (run_createSigningProfile_db profileName none)
      (fun _ _ _ h => createSigningProfile_ok h) w
  | importSigning profileName privateKey =>
    exact profileWrite_made _ (fun _ _ h => by cases h) (run_createSigningProfile_db profileName (some privateKey))
      (fun _ _ _ h => createSigningProfile_ok h) w
  | createContact profileName publicKey =>
    refine profileWrite_made _ (fun _ _ h => by cases h) (fun w => ?_) (fun w p w' h => ?_) w
    · rw [Prog.run_ofExcept]
    · rw [Prog.run_ofExcept] at h
      exact createContactProfile_ok (congrArg Prod.fst h)
  | rename id name => exact profileWrite_rename id name w
  | setFollowing id following => exact .updated _ _ _ _ (fun _ => ⟨rfl, rfl, rfl, rfl⟩) fun _ _ h => by cases h
  | setImage id profileImage => exact .updated _ _ _ _ (fun _ => ⟨rfl, rfl, rfl, rfl⟩) fun _ _ h => by cases h
  | clearImage id => exact .updated _ _ _ _ (fun _ => ⟨rfl, rfl, rfl, rfl⟩) fun _ _ h => by cases h
  | delete id => exact .deleted _ _ _ fun _ _ h => by cases h

/-- The event touches no table. -/
theorem event_db (op : ProfileOp L) (w : World ρ) : ((op.event S).run w).2.db = w.db := by
  unfold ProfileOp.event
  split
  · exact EventListener.run_handleNewItem_db _ _ w
  · rfl

/-! ## When an operation changes the table -/

/-- A profile can be added: it has a name, and no row has the name or the public key. -/
structure FreeProfile (L : Squeaklib) (t : Table ProfileRow) (profileName : String) (publicKey : L.PublicKey) : Prop where
  named : profileName ≠ ""
  name : ∀ r ∈ t.rows, r.profileName ≠ profileName
  publicKey : ∀ r ∈ t.rows, r.publicKey ≠ L.publicKeyToBytes publicKey

/-- The operation finds in the table what it needs to change it, and is one that tells the listeners so. -/
def ProfileOp.Announces (S : ProfileStore L ρ) (w : World ρ) : ProfileOp L → Prop
  | createSigning profileName => FreeProfile L w.db.profiles profileName (L.getPublicKey (S.generate w.env).1)
  | importSigning profileName privateKey => FreeProfile L w.db.profiles profileName (L.getPublicKey privateKey)
  | createContact profileName publicKey => FreeProfile L w.db.profiles profileName publicKey
  | setFollowing profileId following =>
    ∃ r ∈ w.db.profiles.rows, r.profileId = profileId ∧ r.following ≠ following
  | delete profileId => ∃ r ∈ w.db.profiles.rows, r.profileId = profileId
  | rename _ _ | setImage _ _ | clearImage _ => False

/-- What is around the tables once the operation has written: it has read the clock if it adds a profile, and may have
made a key before. -/
def ProfileOp.around (N : Node L ρ) (S : ProfileStore L ρ) (o : ρ) : ProfileOp L → ρ
  | createSigning _ => (N.timestampNowMs (S.generate o).2).2
  | importSigning _ _ | createContact _ _ => (N.timestampNowMs o).2
  | _ => o

theorem insertProfile_changes_iff {p : SqueakProfile L} (hname : p.profileName ≠ "") (w : World ρ) :
    ((ProfileStore.insertProfile N p).run w).2.db.profiles ≠ w.db.profiles ↔
      FreeProfile L w.db.profiles p.profileName p.publicKey := by
  rw [run_insertProfile]
  unfold SqueakDb.insertProfile
  rcases htakenName : taken ProfileRow.profileName p.profileName w.db.profiles.rows with _ | _
  · rcases htakenKey : taken ProfileRow.publicKey (L.publicKeyToBytes p.publicKey) w.db.profiles.rows with _ | _
    · have hfree : taken ProfileRow.publicKey (profileRow L (N.timestampNowMs w.env).1 p
          (w.db.profiles.lastId + 1)).publicKey w.db.profiles.rows = false := htakenKey
      simp only [Table.insert_of_free hfree]
      refine ⟨fun _ => ⟨hname, taken_eq_false.1 htakenName, taken_eq_false.1 htakenKey⟩, fun _ hsame => ?_⟩
      have hid := congrArg Table.lastId hsame
      simp at hid
    · have htaken : taken ProfileRow.publicKey (profileRow L (N.timestampNowMs w.env).1 p
          (w.db.profiles.lastId + 1)).publicKey w.db.profiles.rows = true := htakenKey
      simp only [Table.insert_of_taken htaken]
      obtain ⟨r, hr, hkey⟩ := taken_iff.1 htakenKey
      exact ⟨fun hne => absurd rfl hne, fun hfree => absurd hkey (hfree.publicKey r hr)⟩
  · obtain ⟨r, hr, hname⟩ := taken_iff.1 htakenName
    exact ⟨fun hne => absurd rfl hne, fun hfree => absurd hname (hfree.name r hr)⟩

/-- From `w` the program makes the profile, or refuses its empty name, and leaves `o` around the tables. -/
structure MakesProfile (make : NodeM ρ (SqueakProfile L)) (p : SqueakProfile L) (w : World ρ) (o : ρ) : Prop where
  refused : p.profileName = "" → ∃ e, make.run w = (.error e, w)
  made : p.profileName ≠ "" → make.run w = (.ok p, { w with env := o })

section MakesProfile

variable {make : NodeM ρ (SqueakProfile L)} {p : SqueakProfile L} {w : World ρ} {o : ρ}

theorem MakesProfile.changes_iff (h : MakesProfile make p w o) :
    ((do let p ← make; let _ ← ProfileStore.insertProfile N p; return () : NodeM ρ Unit).run w).2.db.profiles ≠
      w.db.profiles ↔ FreeProfile L w.db.profiles p.profileName p.publicKey := by
  by_cases hname : p.profileName = ""
  · obtain ⟨e, he⟩ := h.refused hname
    rw [Prog.run_bind_of_error he]
    exact ⟨fun hne => absurd rfl hne, fun hfree => absurd hname hfree.named⟩
  · rw [Prog.run_bind_of_ok (h.made hname), ← insertProfile_changes_iff (N := N) hname { w with env := o },
      Prog.run_bind]
    rcases (ProfileStore.insertProfile N p).run { w with env := o } with ⟨e | id, w'⟩
    · exact Iff.rfl
    · exact Iff.rfl

theorem MakesProfile.env (h : MakesProfile make p w o)
    (hok : ((do let p ← make; let _ ← ProfileStore.insertProfile N p; return () : NodeM ρ Unit).run w).1 = .ok ()) :
    ((do let p ← make; let _ ← ProfileStore.insertProfile N p; return () : NodeM ρ Unit).run w).2.env =
      (N.timestampNowMs o).2 := by
  by_cases hname : p.profileName = ""
  · obtain ⟨e, he⟩ := h.refused hname
    rw [Prog.run_bind_of_error he] at hok
    cases hok
  · rw [Prog.run_bind_of_ok (h.made hname), Prog.run_bind, run_insertProfile]
    cases (SqueakDb.insertProfile L (N.timestampNowMs o).1 p w.db).1 <;> rfl

end MakesProfile

theorem validateProfileName_named {profileName : String} (h : profileName ≠ "") :
    Profiles.validateProfileName profileName = .ok () :=
  if_neg fun hempty => h (String.length_eq_zero_iff.1 hempty)

theorem makes_generated (profileName : String) (w : World ρ) :
    MakesProfile (Profiles.createSigningProfile S.generate profileName none)
      ⟨profileName, L.getPublicKey (S.generate w.env).1, none, some (S.generate w.env).1, true, none⟩ w
      (S.generate w.env).2 where
  refused hname := by
    obtain rfl : profileName = "" := hname
    exact ⟨_, rfl⟩
  made hname := by
    unfold Profiles.createSigningProfile
    rw [validateProfileName_named hname]
    rfl

theorem makes_imported (profileName : String) (privateKey : L.PrivateKey) (w : World ρ) :
    MakesProfile (Profiles.createSigningProfile S.generate profileName (some privateKey))
      ⟨profileName, L.getPublicKey privateKey, none, some privateKey, true, none⟩ w w.env where
  refused hname := by
    obtain rfl : profileName = "" := hname
    exact ⟨_, rfl⟩
  made hname := by
    unfold Profiles.createSigningProfile
    rw [validateProfileName_named hname]
    rfl

theorem makes_contact (profileName : String) (publicKey : L.PublicKey) (w : World ρ) :
    MakesProfile (Prog.ofExcept (Profiles.createContactProfile profileName publicKey))
      ⟨profileName, publicKey, none, none, true, none⟩ w w.env where
  refused hname := by
    obtain rfl : profileName = "" := hname
    exact ⟨_, rfl⟩
  made hname := by
    unfold Profiles.createContactProfile
    rw [validateProfileName_named hname]
    rfl

/-- An operation announces what its write changes. -/
theorem announces_iff (op : ProfileOp L) (w : World ρ) : op.Announces S w ↔
    op.notifies = true ∧ ((op.write N S).run w).2.db.profiles ≠ w.db.profiles := by
  have hnotifies : ∀ {P Q : Prop}, (Q ↔ P) → (P ↔ true = true ∧ Q) := fun h =>
    ⟨fun hp => ⟨rfl, h.2 hp⟩, fun hq => h.1 hq.2⟩
  cases op with
  | createSigning profileName => exact hnotifies (makes_generated profileName w).changes_iff
  | importSigning profileName privateKey => exact hnotifies (makes_imported (S := S) profileName privateKey w).changes_iff
  | createContact profileName publicKey => exact hnotifies (makes_contact profileName publicKey w).changes_iff
  | setFollowing profileId following =>
    refine hnotifies (Table.update_ne_self_iff.trans (exists_congr fun r => and_congr_right fun _ => ?_))
    simp only [beq_iff_eq]
    refine and_congr_right fun _ => not_congr ⟨fun h => (congrArg ProfileRow.following h).symm, fun h => ?_⟩
    rw [← h]
  | delete profileId =>
    refine hnotifies (Table.delete_ne_self_iff.trans ?_)
    simp only [beq_iff_eq]
    rfl
  | rename _ _ => simp [ProfileOp.Announces, ProfileOp.notifies]
  | setImage _ _ => simp [ProfileOp.Announces, ProfileOp.notifies]
  | clearImage _ => simp [ProfileOp.Announces, ProfileOp.notifies]

theorem run_write_around {op : ProfileOp L} {w : World ρ} (hnotifies : op.notifies = true)
    (hok : ((op.write N S).run w).1 = .ok ()) : ((op.write N S).run w).2.env = op.around N S w.env := by
  cases op with
  | createSigning profileName => exact (makes_generated profileName w).env hok
  | importSigning profileName privateKey => exact (makes_imported (S := S) profileName privateKey w).env hok
  | createContact profileName publicKey => exact (makes_contact profileName publicKey w).env hok
  | setFollowing _ _ => rfl
  | delete _ => rfl
  | rename _ _ => cases hnotifies
  | setImage _ _ => cases hnotifies
  | clearImage _ => cases hnotifies

end Writes

/-! ## Good profiles -/

/-- The rules of the profile table. -/
structure GoodProfiles (L : Squeaklib) (t : Table ProfileRow) : Prop where
  named : ∀ r ∈ t.rows, r.profileName ≠ ""
  names : UniqueOn ProfileRow.profileName t.rows
  publicKeys : UniqueOn ProfileRow.publicKey t.rows
  privateKeys : ∀ r ∈ t.rows, KeysMatch L r.publicKey r.privateKey

/-- An existing profile is to lose its name. -/
def EmptiesName {L : Squeaklib} (t : Table ProfileRow) : ProfileOp L → Prop
  | .rename id name => name = "" ∧ ∃ r ∈ t.rows, r.profileId = id
  | _ => False

theorem goodProfiles_empty (L : Squeaklib) : GoodProfiles L .empty where
  named r hr := by cases hr
  names := List.nodup_nil
  publicKeys := List.nodup_nil
  privateKeys r hr := by cases hr

section Good

variable {L : Squeaklib} {op : ProfileOp L} {t t' : Table ProfileRow} {outcome : Except Err Unit}

theorem ProfileWrite.raises {e : Err} (h : ProfileWrite L op t (.error e) t') : t' = t := by
  cases h with
  | refused => rfl

theorem ProfileWrite.numbered (h : ProfileWrite L op t outcome t') (ht : t.Numbered ProfileRow.profileId) :
    t'.Numbered ProfileRow.profileId := by
  cases h with
  | refused => exact ht
  | inserted _ _ now p hname hkeys htakenName hfree hop =>
    have hinsert : (t.insert ProfileRow.publicKey (profileRow L now p)).2.Numbered ProfileRow.profileId :=
      ht.insert fun _ => rfl
    have hrow : t.insert ProfileRow.publicKey (profileRow L now p) =
        (some (t.lastId + 1), ⟨t.rows ++ [profileRow L now p (t.lastId + 1)], t.lastId + 1⟩) :=
      Table.insert_of_free hfree
    rwa [hrow] at hinsert
  | renamed id name => exact ht.update fun _ => rfl
  | updated _ _ p f hf => exact ht.update fun r => (hf r).1
  | deleted _ _ p => exact ht.delete p

/-- A write that leaves no existing profile without a name keeps the rules. -/
theorem ProfileWrite.good (h : ProfileWrite L op t outcome t') (ht : GoodProfiles L t)
    (hids : t.Numbered ProfileRow.profileId) (hop : ¬ EmptiesName t op) : GoodProfiles L t' := by
  cases h with
  | refused => exact ht
  | inserted _ _ now p hname hkeys htakenName htakenKey hrename =>
    constructor
    case named =>
      intro r hr
      rcases List.mem_append.1 hr with hr | hr
      · exact ht.named r hr
      · rw [List.mem_singleton.1 hr]
        exact hname
    case names => exact ht.names.append htakenName
    case publicKeys => exact ht.publicKeys.append htakenKey
    case privateKeys =>
      intro r hr
      rcases List.mem_append.1 hr with hr | hr
      · exact ht.privateKeys r hr
      · rw [List.mem_singleton.1 hr]
        exact hkeys
  | renamed id name _ hfree =>
    -- an id without a profile changes nothing, whatever the name
    by_cases hid : ∃ r ∈ t.rows, r.profileId = id
    · constructor
      case named =>
        intro r hr
        obtain ⟨s, hs, rfl⟩ := mem_updateWhere.1 hr
        split
        · exact fun hname => hop ⟨hname, hid⟩
        · exact ht.named s hs
      case names =>
        exact uniqueOn_updateWhere_one (fun r => beq_iff_eq) (fun _ => rfl) hids.unique (hfree hid) ht.names
      case publicKeys => exact uniqueOn_updateWhere (fun _ => rfl) ht.publicKeys
      case privateKeys =>
        intro r hr
        obtain ⟨s, hs, rfl⟩ := mem_updateWhere.1 hr
        split
        · exact ht.privateKeys s hs
        · exact ht.privateKeys s hs
    · have hsame : t.update (fun r => r.profileId == id) (fun r => { r with profileName := name }) = t := by
        unfold Table.update
        rw [updateWhere_eq_self fun r hr => beq_eq_false_iff_ne.2 fun heq => hid ⟨r, hr, heq⟩]
      rw [hsame]
      exact ht
  | updated _ _ p f hf =>
    constructor
    case named =>
      intro r hr
      obtain ⟨s, hs, rfl⟩ := mem_updateWhere.1 hr
      split
      · rw [(hf s).2.1]
        exact ht.named s hs
      · exact ht.named s hs
    case names => exact uniqueOn_updateWhere (fun r => (hf r).2.1) ht.names
    case publicKeys => exact uniqueOn_updateWhere (fun r => (hf r).2.2.1) ht.publicKeys
    case privateKeys =>
      intro r hr
      obtain ⟨s, hs, rfl⟩ := mem_updateWhere.1 hr
      split
      · rw [(hf s).2.2.1, (hf s).2.2.2]
        exact ht.privateKeys s hs
      · exact ht.privateKeys s hs
  | deleted _ _ p =>
    constructor
    case named => exact fun r hr => ht.named r (mem_deleteWhere.1 hr).1
    case names => exact uniqueOn_deleteWhere ht.names
    case publicKeys => exact uniqueOn_deleteWhere ht.publicKeys
    case privateKeys => exact fun r hr => ht.privateKeys r (mem_deleteWhere.1 hr).1

/-- A write that leaves an existing profile without a name breaks them. -/
theorem ProfileWrite.not_good (h : ProfileWrite L op t outcome t') (hop : EmptiesName t op)
    (hoperation : outcome = .ok ()) : ¬ GoodProfiles L t' := by
  cases h with
  | refused => cases hoperation
  | renamed id name =>
    obtain ⟨rfl, r, hr, hid⟩ := hop
    intro hgood
    have hmem : { r with profileName := "" } ∈ (t.update (fun r => r.profileId == id)
        fun r => { r with profileName := "" }).rows := by
      refine mem_updateWhere.2 ⟨r, hr, ?_⟩
      rw [if_pos (beq_iff_eq.2 hid)]
    exact hgood.named _ hmem rfl
  | inserted _ _ _ _ _ _ _ _ hrename =>
    cases op with
    | rename id name => exact absurd rfl (hrename id name)
    | _ => exact hop.elim
  | updated _ _ _ _ _ hrename =>
    cases op with
    | rename id name => exact absurd rfl (hrename id name)
    | _ => exact hop.elim
  | deleted _ _ _ hrename =>
    cases op with
    | rename id name => exact absurd rfl (hrename id name)
    | _ => exact hop.elim

end Good

/-! ## Runs -/

/-- What happens to the profiles: a call, or anything else the node does, which may move the clock, let
subscribers come and go and change other tables. -/
inductive ProfileAction (L : Squeaklib) (ρ : Type) where
  | call (op : ProfileOp L)
  | other (world : World ρ)

section Runs

variable {L : Squeaklib} {ρ : Type} (N : Node L ρ) (S : ProfileStore L ρ)

/-- A call runs alone; anything else leaves the profiles alone. -/
def profileStep : ProfileAction L ρ → World ρ → Option (World ρ)
  | .call op, w => some ((op.program N S).run w).2
  | .other w', w => some { w' with db := { w'.db with profiles := w.db.profiles } }

/-- The action empties the name of a profile. -/
def ProfileAction.Empties (w : World ρ) : ProfileAction L ρ → Prop
  | .call op => EmptiesName w.db.profiles op
  | .other _ => False

/-- The call raises. -/
def ProfileAction.Raises (w : World ρ) : ProfileAction L ρ → Prop
  | .call op => ∃ e, ((op.program N S).run w).1 = .error e
  | .other _ => False

/-- The call finds what it needs to change the table, and a subscriber that raises when it is told, or that adds or
removes a callback meanwhile. -/
def ProfileAction.NotifiesInVain (w : World ρ) : ProfileAction L ρ → Prop
  | .call op => op.Announces S w ∧ S.newFollowListener.Fails ⟨⟩ (op.around N S w.env)
  | .other _ => False

variable {N S}

/-- The table after a call is the one after its write. -/
theorem run_program_profiles (op : ProfileOp L) (w : World ρ) :
    ((op.program N S).run w).2.db.profiles = ((op.write N S).run w).2.db.profiles := by
  rw [op.run_program, Prog.run_bind]
  rcases hwrite : (op.write N S).run w with ⟨e | _, w'⟩
  · rfl
  · exact congrArg Db.profiles (event_db op w')

theorem profileStep_keeps {w w' : World ρ} {a : ProfileAction L ρ} (h : profileStep N S a w = some w')
    (hgood : GoodProfiles L w.db.profiles) (hids : w.db.profiles.Numbered ProfileRow.profileId)
    (ha : ¬ a.Empties w) : GoodProfiles L w'.db.profiles ∧ w'.db.profiles.Numbered ProfileRow.profileId := by
  cases a with
  | call op =>
    cases h
    rw [run_program_profiles]
    have hwrite := profileWrite (N := N) (S := S) op w
    exact ⟨hwrite.good hgood hids ha, hwrite.numbered hids⟩
  | other world =>
    cases h
    exact ⟨hgood, hids⟩

/-- From good profiles, a call that empties a name succeeds. -/
theorem profileStep_breaks {w w' : World ρ} {a : ProfileAction L ρ} (h : profileStep N S a w = some w')
    (hgood : GoodProfiles L w.db.profiles) (ha : a.Empties w) : ¬ GoodProfiles L w'.db.profiles := by
  cases a with
  | call op =>
    cases h
    rw [run_program_profiles]
    refine (profileWrite (N := N) (S := S) op w).not_good ha ?_
    cases op with
    | rename id name =>
      obtain ⟨rfl, hid⟩ := ha
      -- no other profile has the empty name
      have hfree : (w.db.profiles.rows.any fun r => r.profileId != id && r.profileName == "") = false := by
        refine List.any_eq_false.2 fun r hr => ?_
        simp [hgood.named r hr]
      show ((ProfileStore.renameSqueakProfile id "").run w).1 = .ok ()
      rw [run_renameSqueakProfile, setProfileName, hfree, Bool.and_false, if_neg Bool.false_ne_true]
    | _ => exact ha.elim
  | other world => exact ha.elim

/-- The event at the end of a call that changed the table fails on the state that the write leaves. -/
theorem event_raises_iff {op : ProfileOp L} {w : World ρ} (hnotifies : op.notifies = true)
    (hok : ((op.write N S).run w).1 = .ok ()) : (∃ e, ((op.event S).run ((op.write N S).run w).2).1 = .error e) ↔
      S.newFollowListener.Fails ⟨⟩ (op.around N S w.env) := by
  rw [← run_write_around hnotifies hok, ← EventListener.run_handleNewItem_raises_iff]
  unfold ProfileOp.event
  rw [if_pos hnotifies]
  rfl

/-- A call that announces a change to listeners that fail has changed the table, and raises. -/
theorem raises_of_notifiesInVain {op : ProfileOp L} {w : World ρ} (h : (ProfileAction.call op).NotifiesInVain N S w) :
    (∃ e, ((op.program N S).run w).1 = .error e) ∧ ((op.program N S).run w).2.db.profiles ≠ w.db.profiles := by
  obtain ⟨hnotifies, hchanged⟩ := (announces_iff (N := N) op w).1 h.1
  rw [run_program_profiles]
  refine ⟨?_, hchanged⟩
  rw [op.run_program, Prog.run_bind]
  rcases hrun : (op.write N S).run w with ⟨e | _, w'⟩
  · exact ⟨e, rfl⟩
  · have hfails := (event_raises_iff hnotifies (by rw [hrun])).2 h.2
    rwa [hrun] at hfails

/-- A call that raises changes the table when it raises after its write. -/
theorem raises_iff {w : World ρ} (op : ProfileOp L) (hraises : ∃ e, ((op.program N S).run w).1 = .error e) :
    ((op.program N S).run w).2.db.profiles = w.db.profiles ↔
      ¬ (ProfileAction.call op).NotifiesInVain N S w := by
  constructor
  · exact fun hsame hvain => (raises_of_notifiesInVain hvain).2 hsame
  · intro hquiet
    rw [run_program_profiles]
    have hwrite := profileWrite (N := N) (S := S) op w
    rw [op.run_program, Prog.run_bind] at hraises
    rcases hrun : (op.write N S).run w with ⟨e | _, w'⟩
    · rw [hrun] at hwrite
      exact hwrite.raises
    · by_contra hchanged
      have hok : ((op.write N S).run w).1 = .ok () := by rw [hrun]
      have hraised : ∃ e, ((op.event S).run ((op.write N S).run w).2).1 = .error e := by
        rw [hrun] at hraises ⊢
        exact hraises
      -- an operation that raises after its write has listeners to tell
      have hnotifies : op.notifies = true := by
        by_contra hsilent
        obtain ⟨e, he⟩ := hraised
        unfold ProfileOp.event at he
        rw [if_neg hsilent] at he
        cases he
      refine hquiet ⟨(announces_iff (N := N) op w).2 ⟨hnotifies, by rw [hrun]; exact hchanged⟩, ?_⟩
      exact (event_raises_iff hnotifies hok).1 hraised

/-- Throughout a run the profiles are good as long as no call empties the name of a profile, and the calls
that raise change nothing as long as no listener fails after a write. -/
theorem profiles_good_iff {w₀ w : World ρ} {history : List (World ρ × ProfileAction L ρ)}
    (hr : Run (profileStep N S) w₀ history w) (h₀ : GoodProfiles L w₀.db.profiles)
    (hids : w₀.db.profiles.Numbered ProfileRow.profileId) :
    ((∀ v ∈ states history w, GoodProfiles L v.db.profiles) ↔ ∀ x ∈ history, ¬ x.2.Empties x.1) ∧
    ((∀ x ∈ history, x.2.Raises N S x.1 → ∀ w', profileStep N S x.2 x.1 = some w' →
      w'.db.profiles = x.1.db.profiles) ↔ ∀ x ∈ history, ¬ x.2.NotifiesInVain N S x.1) := by
  constructor
  · constructor
    · rintro hgood ⟨v, a⟩ hx hempties
      obtain ⟨v', hv', hstep⟩ := hr.after hx
      have hv : v ∈ states history w := List.mem_append_left _ (List.mem_map.2 ⟨(v, a), hx, rfl⟩)
      exact profileStep_breaks hstep (hgood v hv) hempties (hgood v' hv')
    · intro hnone v hv
      have hinv := hr.invariant (I := fun v => GoodProfiles L v.db.profiles ∧
        v.db.profiles.Numbered ProfileRow.profileId) (C := fun v a => ¬ a.Empties v)
        (fun v a v' hv ha hstep => profileStep_keeps hstep hv.1 hv.2 ha) ⟨h₀, hids⟩ hnone
      exact (hinv v hv).1
  · constructor
    · rintro hsame ⟨v, a⟩ hx hvain
      cases a with
      | call op => exact (raises_of_notifiesInVain hvain).2 (hsame _ hx (raises_of_notifiesInVain hvain).1 _ rfl)
      | other world => exact hvain
    · rintro hquiet ⟨v, a⟩ hx hraises v' hstep
      cases a with
      | call op =>
        cases hstep
        exact (raises_iff op hraises).2 (hquiet _ hx)
      | other world => exact hraises.elim

end Runs

namespace Sample

/-- Keys are generated from a constant, and nobody listens. -/
def profileStore : ProfileStore squeaklib Outside := ⟨fun o => ((7 : UInt8), o), ⟨fun _ => []⟩⟩

end Sample

open Sample in
theorem profiles_good_sample : ∃ history w, Run (profileStep (node 1) profileStore) world history w ∧
    w.db.profiles.rows.map ProfileRow.profileName = ["b"] ∧ ∀ v ∈ states history w,
      GoodProfiles squeaklib v.db.profiles := by
  have h₁ : Run (profileStep (node 1) profileStore) world _ _ := .next .init (a := .call (.createSigning "a")) rfl
  have h₂ := h₁.next (a := .call (.rename 1 "b")) rfl
  have hnumbered : world.db.profiles.Numbered ProfileRow.profileId :=
    ⟨List.nodup_nil, fun r hr => (by cases hr), fun r hr => (by cases hr)⟩
  refine ⟨_, _, h₂, by decide +kernel, (profiles_good_iff h₂ (goodProfiles_empty _) hnumbered).1.2 fun x hx => ?_⟩
  simp only [List.nil_append, List.cons_append, List.mem_cons, List.not_mem_nil, or_false] at hx
  rcases hx with rfl | rfl
  · exact fun h => h
  · exact fun h => absurd h.1 (by decide)

open Sample in
/-- A profile is made, and renamed to the empty name. -/
theorem rename_empties_name : ∃ history w, Run (profileStep (node 1) profileStore) world history w ∧
    history.map Prod.snd = [.call (.createSigning "a"), .call (.rename 1 "")] ∧
    ¬ GoodProfiles squeaklib w.db.profiles := by
  have h₁ : Run (profileStep (node 1) profileStore) world _ _ := .next .init (a := .call (.createSigning "a")) rfl
  refine ⟨_, _, h₁.next (a := .call (.rename 1 "")) rfl, rfl, fun hgood => ?_⟩
  exact hgood.named _ List.mem_cons_self rfl

end Squeaknode
