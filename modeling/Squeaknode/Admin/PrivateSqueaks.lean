/-
The routes that name the profile of a private squeak. A request says with a flag of its own whether it
names a profile, so that it can name the id 0, which no profile has; `make_squeak` and `unlock_squeak`
take that id for none.
-/
import Squeaknode.Admin.WebApp
import Squeaknode.Db.Statements
import Squeaknode.Node.StoreRuns
import Squeaknode.Relational.Keyset

namespace Squeaknode

open Interleave Relational SqueakDb

/-! ## A handler that runs alone -/

namespace Handler

variable {μ σ ω ε α β : Type}

/-- The answer of a handler to a request that no other interrupts, and the world that it leaves. -/
def answer (m : μ) : Handler μ σ ε α → σ → Except ε α × σ
  | ret a, s => (.ok a, s)
  | raise e, s => (.error e, s)
  | read field k, s => (k (field m)).answer m s
  | step stmt k, s => (k (stmt s).1).answer m (stmt s).2

theorem answer_bind (m : μ) (h : Handler μ σ ε α) (f : α → Handler μ σ ε β) (s : σ) :
    (h >>= f).answer m s = match h.answer m s with
      | (.ok a, s') => (f a).answer m s'
      | (.error e, s') => (.error e, s') := by
  induction h generalizing s with
  | ret a => rfl
  | raise e => rfl
  | read field k ih => exact ih (field m) s
  | step stmt k ih => exact ih (stmt s).1 (stmt s).2

theorem answer_ofExcept (m : μ) (a : Except ε α) (s : σ) : (ofExcept a : Handler μ σ ε α).answer m s = (a, s) := by
  cases a <;> rfl

/-- A program of the node runs as a part of a handler as it does alone. -/
theorem answer_lift (m : μ) (p : Prog σ ω ε α) (s : σ) : (lift p : Handler μ σ ε α).answer m s = p.run s := by
  induction p generalizing s with
  | ret a => rfl
  | raise e => rfl
  | step stmt obs k ih => exact ih (stmt s).1 (stmt s).2

end Handler

variable {L : Squeaklib} {ρ : Type}

/-! ## Decrypting -/

namespace SqueakAdminPb2

structure DecryptSqueakRequest where
  squeakHash : String
  hasRecipient : Bool
  recipientProfileId : Int
  hasAuthor : Bool
  authorProfileId : Int
  deriving DecidableEq, Repr

end SqueakAdminPb2

namespace SqueakAdminServerHandler

open SqueakAdminPb2 (DecryptSqueakRequest MakeSqueakRequest Reply)
open Handler (field lift ofExcept)

/-- The profile with an id from a message, unless the id is `None` or 0: no row has a negative id. -/
def requireProfile (L : Squeaklib) (error : Err) : Option Int → NodeM ρ (Option (SqueakProfile L))
  | none => return none
  | some (.ofNat id) => SqueakStore.requireProfile L (fun _ => error) (SqueakStore.givenProfile (some id))
  | some (.negSucc _) => throw error

/-- `unlock_squeak` with ids from a message. -/
def unlockSqueak (L : Squeaklib) (squeakHash : Bytes) (authorProfileId recipientProfileId : Option Int) : NodeM ρ Unit := do
  let squeak ← SqueakStore.getSqueak L squeakHash
  let secretKey ← SqueakStore.getSqueakSecretKey squeakHash
  match squeak, secretKey with
  | none, _ => throw (.exception "Squeakdoes not exist.")
  | some _, none => throw (.exception "Secret key does not exist.")
  | some squeak, some secretKey =>
    let recipientProfile ← requireProfile L (.exception "Recipient profile does not exist.") recipientProfileId
    let authorProfile ← requireProfile L (.exception "Author profile does not exist.")
      (if recipientProfile.isSome then none else authorProfileId)
    let content ← Prog.ofExcept (SqueakCore.getDecryptedContent squeak secretKey authorProfile recipientProfile)
    update (setSqueakDecryptedContent squeakHash content)

/-- With ids that a row can have it is the operation of the store. -/
theorem unlockSqueak_ofNat (squeakHash : Bytes) (authorProfileId recipientProfileId : Option Nat) :
    (unlockSqueak L squeakHash (authorProfileId.map Int.ofNat) (recipientProfileId.map Int.ofNat) : NodeM ρ Unit) =
      SqueakStore.unlockSqueak L squeakHash authorProfileId recipientProfileId := by
  have hrequire : ∀ (error : Err) (id : Option Nat), (requireProfile L error (id.map Int.ofNat) : NodeM ρ _) =
      SqueakStore.requireProfile L (fun _ => error) (SqueakStore.givenProfile id) := by
    intro error id
    cases id <;> rfl
  unfold unlockSqueak SqueakStore.unlockSqueak
  congr 1
  funext squeak
  congr 1
  funext secretKey
  rcases squeak with _ | squeak
  · rfl
  rcases secretKey with _ | secretKey
  · rfl
  dsimp only
  rw [hrequire]
  congr 1
  funext recipientProfile
  cases recipientProfile with
  | none => simp only [Option.isSome_none, Bool.false_eq_true, if_false, hrequire]
  | some recipientProfile => rfl

variable (L) in
def handleDecryptSqueak : Handler DecryptSqueakRequest (World ρ) Err Unit := do
  let squeakHashStr ← field DecryptSqueakRequest.squeakHash
  let squeakHash ← ofExcept (fromHex squeakHashStr)
  let hasAuthor ← field DecryptSqueakRequest.hasAuthor
  let authorProfileId ← if hasAuthor then some <$> field DecryptSqueakRequest.authorProfileId else pure none
  let hasRecipient ← field DecryptSqueakRequest.hasRecipient
  let recipientProfileId ← if hasRecipient then some <$> field DecryptSqueakRequest.recipientProfileId else pure none
  lift (unlockSqueak L squeakHash authorProfileId recipientProfileId)

end SqueakAdminServerHandler

/-! ### The profiles of a request -/

/-- The profile that the database has for an id of a message. -/
def ProfileAt (db : Db) (id : Int) (profile : SqueakProfile L) : Prop :=
  ∃ n : Nat, id = n ∧ ∃ row, findProfile n db = some row ∧ parseSqueakProfile L row = .ok profile

/-- An id that is `None` or 0. -/
def NotGiven (id : Option Int) : Prop := id = none ∨ id = some 0

/-- The profiles, of the author and of the recipient, that a squeak is decrypted with. -/
inductive Chosen (db : Db) (authorProfileId recipientProfileId : Option Int) :
    Option (SqueakProfile L) → Option (SqueakProfile L) → Prop
  | recipient {id : Int} {profile : SqueakProfile L} : recipientProfileId = some id → id ≠ 0 → ProfileAt db id profile →
      Chosen db authorProfileId recipientProfileId none (some profile)
  | author {id : Int} {profile : SqueakProfile L} : NotGiven recipientProfileId → authorProfileId = some id → id ≠ 0 →
      ProfileAt db id profile → Chosen db authorProfileId recipientProfileId (some profile) none
  | neither : NotGiven recipientProfileId → NotGiven authorProfileId →
      Chosen db authorProfileId recipientProfileId none none

/-- The squeak that is stored under the hash, with its secret key. -/
def Opened (db : Db) (squeakHash : Bytes) (squeak : L.CSqueak) (secretKey : Bytes) : Prop :=
  ∃ row, findSqueak squeakHash db = some row ∧ L.deserialize row.squeak = .ok squeak ∧ row.secretKey = some secretKey

theorem notGiven_or (id : Option Int) : NotGiven id ∨ ∃ i, id = some i ∧ i ≠ 0 := by
  cases id with
  | none => exact .inl (.inl rfl)
  | some i =>
    by_cases hzero : i = 0
    · exact .inl (.inr (congrArg some hzero))
    · exact .inr ⟨i, rfl, hzero⟩

theorem NotGiven.eq_zero {id : Int} (h : NotGiven (some id)) : id = 0 := by
  rcases h with h | h
  · cases h
  · exact Option.some.inj h

section Profiles

open SqueakAdminServerHandler

theorem run_requireProfile_notGiven {id : Option Int} (h : NotGiven id) (error : Err) (w : World ρ) :
    (requireProfile L error id).run w = (.ok none, w) := by
  rcases h with rfl | rfl <;> rfl

theorem run_getSqueakProfile (profileId : Nat) (w : World ρ) :
    (∃ profile, ProfileAt w.db profileId profile ∧
      (SqueakStore.getSqueakProfile L profileId).run w = (.ok (some profile), w)) ∨
      (∀ profile : SqueakProfile L, ¬ ProfileAt w.db profileId profile) ∧
        ((SqueakStore.getSqueakProfile L profileId).run w = (.ok none, w) ∨
          ∃ e, (SqueakStore.getSqueakProfile L profileId).run w = (.error e, w)) := by
  have hat : ∀ profile : SqueakProfile L, ProfileAt w.db profileId profile →
      ∃ row, findProfile profileId w.db = some row ∧ parseSqueakProfile L row = .ok profile := by
    rintro profile ⟨m, hm, hrow⟩
    cases hm
    exact hrow
  unfold SqueakStore.getSqueakProfile
  simp only [Prog.run_bind, run_query]
  cases hrow : findProfile profileId w.db with
  | none =>
    refine .inr ⟨fun profile hprofile => ?_, .inl rfl⟩
    obtain ⟨row, hfound, -⟩ := hat profile hprofile
    rw [hrow] at hfound
    cases hfound
  | some row =>
    cases hparse : parseSqueakProfile L row with
    | error e =>
      refine .inr ⟨fun profile hprofile => ?_, .inr ⟨e, ?_⟩⟩
      · obtain ⟨row', hfound, hparsed⟩ := hat profile hprofile
        rw [hrow] at hfound
        cases hfound
        rw [hparse] at hparsed
        cases hparsed
      · simp only [hparse, Prog.ofExcept_error, Prog.raise_bind, Prog.run_raise]
    | ok profile =>
      refine .inl ⟨profile, ⟨profileId, rfl, row, hrow, hparse⟩, ?_⟩
      simp only [hparse, Prog.ofExcept_ok, Prog.ret_bind, Prog.pure_eq, Prog.run_ret]

theorem run_requireProfile {id : Int} (h : id ≠ 0) (error : Err) (w : World ρ) :
    (∃ profile, ProfileAt w.db id profile ∧ (requireProfile L error (some id)).run w = (.ok (some profile), w)) ∨
      (∀ profile : SqueakProfile L, ¬ ProfileAt w.db id profile) ∧
        ∃ e, (requireProfile L error (some id)).run w = (.error e, w) := by
  cases id with
  | negSucc n =>
    refine .inr ⟨?_, error, rfl⟩
    rintro profile ⟨m, hm, -⟩
    cases hm
  | ofNat n =>
    have hgiven : SqueakStore.givenProfile (some n) = some n := by
      cases n with
      | zero => exact absurd rfl h
      | succ n => rfl
    have hrequire : requireProfile L error (some (.ofNat n)) =
        (SqueakStore.requireProfile L (fun _ => error) (some n) : NodeM ρ _) := by
      show SqueakStore.requireProfile L _ (SqueakStore.givenProfile (some n)) = _
      rw [hgiven]
    rw [hrequire]
    unfold SqueakStore.requireProfile
    rcases run_getSqueakProfile (L := L) n w with ⟨profile, hat, hrun⟩ | ⟨hnone, hrun | ⟨e, hrun⟩⟩
    · rw [Prog.run_bind_of_ok hrun]
      exact .inl ⟨profile, hat, rfl⟩
    · rw [Prog.run_bind_of_ok hrun]
      exact .inr ⟨hnone, error, rfl⟩
    · rw [Prog.run_bind_of_error hrun]
      exact .inr ⟨hnone, e, rfl⟩

/-- The two profiles are the chosen ones, or one that is needed is missing. -/
theorem run_requireProfiles (author recipient : Option Int) (errorA errorR : Err) {β : Type}
    (f : Option (SqueakProfile L) → Option (SqueakProfile L) → NodeM ρ β) (w : World ρ) :
    (∃ authorProfile recipientProfile, Chosen w.db author recipient authorProfile recipientProfile ∧
      (requireProfile L errorR recipient >>= fun recipientProfile =>
        requireProfile L errorA (if recipientProfile.isSome then none else author) >>= fun authorProfile =>
          f authorProfile recipientProfile).run w = (f authorProfile recipientProfile).run w) ∨
      (∀ authorProfile recipientProfile : Option (SqueakProfile L), ¬ Chosen w.db author recipient authorProfile recipientProfile) ∧
        ∃ e, (requireProfile L errorR recipient >>= fun recipientProfile =>
          requireProfile L errorA (if recipientProfile.isSome then none else author) >>= fun authorProfile =>
            f authorProfile recipientProfile).run w = (.error e, w) := by
  rcases notGiven_or recipient with hrecipient | ⟨id, rfl, hid⟩
  · rw [Prog.run_bind_of_ok (run_requireProfile_notGiven hrecipient errorR w)]
    simp only [Option.isSome_none, Bool.false_eq_true, if_false]
    rcases notGiven_or author with hauthor | ⟨id, rfl, hid⟩
    · rw [Prog.run_bind_of_ok (run_requireProfile_notGiven hauthor errorA w)]
      exact .inl ⟨none, none, .neither hrecipient hauthor, rfl⟩
    · rcases run_requireProfile (L := L) hid errorA w with ⟨profile, hprofile, hrun⟩ | ⟨hnone, e, hrun⟩
      · rw [Prog.run_bind_of_ok hrun]
        exact .inl ⟨some profile, none, .author hrecipient rfl hid hprofile, rfl⟩
      · rw [Prog.run_bind_of_error hrun]
        refine .inr ⟨fun _ _ hchosen => ?_, e, rfl⟩
        cases hchosen with
        | recipient heq hne _ => exact hne (heq ▸ hrecipient).eq_zero
        | author _ heq _ hat =>
          cases heq
          exact hnone _ hat
        | neither _ hauthor => exact hid hauthor.eq_zero
  · rcases run_requireProfile (L := L) hid errorR w with ⟨profile, hprofile, hrun⟩ | ⟨hnone, e, hrun⟩
    · rw [Prog.run_bind_of_ok hrun]
      exact .inl ⟨none, some profile, .recipient rfl hid hprofile, rfl⟩
    · rw [Prog.run_bind_of_error hrun]
      refine .inr ⟨fun _ _ hchosen => ?_, e, rfl⟩
      cases hchosen with
      | recipient heq _ hat =>
        cases heq
        exact hnone _ hat
      | author hnot _ _ _ => exact hid hnot.eq_zero
      | neither hnot _ => exact hid hnot.eq_zero

end Profiles

theorem ProfileAt.unique {db : Db} {id : Int} {profile profile' : SqueakProfile L} (h : ProfileAt db id profile)
    (h' : ProfileAt db id profile') : profile = profile' := by
  obtain ⟨n, rfl, row, hrow, hparse⟩ := h
  obtain ⟨m, hm, row', hrow', hparse'⟩ := h'
  obtain rfl : n = m := Int.ofNat.inj hm
  rw [hrow] at hrow'
  cases hrow'
  exact Except.ok.inj (hparse.symm.trans hparse')

theorem Chosen.unique {db : Db} {author recipient : Option Int} {a a' r r' : Option (SqueakProfile L)}
    (h : Chosen db author recipient a r) (h' : Chosen db author recipient a' r') : a = a' ∧ r = r' := by
  cases h with
  | recipient heq hne hat =>
    cases h' with
    | recipient heq' _ hat' =>
      rw [heq] at heq'
      cases heq'
      exact ⟨rfl, congrArg some (hat.unique hat')⟩
    | author hnot _ _ _ => exact absurd (heq ▸ hnot).eq_zero hne
    | neither hnot _ => exact absurd (heq ▸ hnot).eq_zero hne
  | author hnot heq hne hat =>
    cases h' with
    | recipient heq' hne' _ => exact absurd (heq' ▸ hnot).eq_zero hne'
    | author _ heq' _ hat' =>
      rw [heq] at heq'
      cases heq'
      exact ⟨congrArg some (hat.unique hat'), rfl⟩
    | neither _ hnot' => exact absurd (heq ▸ hnot').eq_zero hne
  | neither hnot hnot' =>
    cases h' with
    | recipient heq' hne' _ => exact absurd (heq' ▸ hnot).eq_zero hne'
    | author _ heq' hne' _ => exact absurd (heq' ▸ hnot').eq_zero hne'
    | neither _ _ => exact ⟨rfl, rfl⟩

theorem Opened.unique {db : Db} {squeakHash : Bytes} {squeak squeak' : L.CSqueak} {secretKey secretKey' : Bytes}
    (h : Opened db squeakHash squeak secretKey) (h' : Opened db squeakHash squeak' secretKey') :
    squeak = squeak' ∧ secretKey = secretKey' := by
  obtain ⟨row, hrow, hsqueak, hkey⟩ := h
  obtain ⟨row', hrow', hsqueak', hkey'⟩ := h'
  rw [hrow] at hrow'
  cases hrow'
  exact ⟨Except.ok.inj (hsqueak.symm.trans hsqueak'), Option.some.inj (hkey.symm.trans hkey')⟩

/-! ### What `unlock_squeak` does -/

/-- The stored squeak decrypts to this content with the profiles chosen for the ids. -/
def UnlocksTo (L : Squeaklib) (db : Db) (squeakHash : Bytes) (authorProfileId recipientProfileId : Option Int) (content : String) :
    Prop :=
  ∃ (squeak : L.CSqueak) (secretKey : Bytes) (authorProfile recipientProfile : Option (SqueakProfile L)),
    Opened db squeakHash squeak secretKey ∧ Chosen db authorProfileId recipientProfileId authorProfile recipientProfile ∧
      SqueakCore.getDecryptedContent squeak secretKey authorProfile recipientProfile = .ok content

theorem run_unlockSqueak (squeakHash : Bytes) (author recipient : Option Int) (w : World ρ) :
    (∃ content, UnlocksTo L w.db squeakHash author recipient content ∧
      (SqueakAdminServerHandler.unlockSqueak L squeakHash author recipient).run w =
        (.ok (), { w with db := setSqueakDecryptedContent squeakHash content w.db })) ∨
      (∀ content, ¬ UnlocksTo L w.db squeakHash author recipient content) ∧
        ∃ e, (SqueakAdminServerHandler.unlockSqueak L squeakHash author recipient).run w = (.error e, w) := by
  unfold SqueakAdminServerHandler.unlockSqueak
  rw [Prog.run_bind, run_getSqueak]
  cases hrow : findSqueak squeakHash w.db with
  | none =>
    refine .inr ⟨?_, _, rfl⟩
    rintro content ⟨-, -, -, -, ⟨row, hfound, -⟩, -⟩
    rw [hrow] at hfound
    cases hfound
  | some row =>
    cases hsqueak : L.deserialize row.squeak with
    | error e =>
      refine .inr ⟨?_, e, by simp [squeakOfRow, hsqueak]⟩
      rintro content ⟨squeak, -, -, -, ⟨row', hfound, hs, -⟩, -⟩
      rw [hrow] at hfound
      cases hfound
      rw [hsqueak] at hs
      cases hs
    | ok squeak =>
      have hfound : squeakOfRow L (some row) = .ok (some squeak) := by simp [squeakOfRow, hsqueak]
      rw [hfound]
      dsimp only
      rw [Prog.run_bind, run_getSqueakSecretKey, hrow, Option.bind_some]
      cases hkey : row.secretKey with
      | none =>
        refine .inr ⟨?_, _, rfl⟩
        rintro content ⟨-, secretKey, -, -, ⟨row', hfound, -, hk⟩, -⟩
        rw [hrow] at hfound
        cases hfound
        rw [hkey] at hk
        cases hk
      | some secretKey =>
        have hopened : Opened w.db squeakHash squeak secretKey := ⟨row, hrow, hsqueak, hkey⟩
        dsimp only
        -- the squeak is opened; what is left is the choice of the profiles
        rcases run_requireProfiles (L := L) author recipient (.exception "Author profile does not exist.")
          (.exception "Recipient profile does not exist.") (fun authorProfile recipientProfile =>
            Prog.ofExcept (SqueakCore.getDecryptedContent squeak secretKey authorProfile recipientProfile) >>=
              fun content =>
              update (setSqueakDecryptedContent squeakHash content)) w with
          ⟨authorProfile, recipientProfile, hchosen, hrun⟩ | ⟨hnone, e, hrun⟩
        · rw [hrun]
          cases hcontent : SqueakCore.getDecryptedContent squeak secretKey authorProfile recipientProfile with
          | error e =>
            refine .inr ⟨?_, e, rfl⟩
            rintro content ⟨squeak', secretKey', author', recipient', hopened', hchosen', hcontent'⟩
            obtain ⟨rfl, rfl⟩ := hopened.unique hopened'
            obtain ⟨rfl, rfl⟩ := hchosen.unique hchosen'
            rw [hcontent] at hcontent'
            cases hcontent'
          | ok content =>
            exact .inl ⟨content, ⟨squeak, secretKey, authorProfile, recipientProfile, hopened, hchosen, hcontent⟩, rfl⟩
        · rw [hrun]
          refine .inr ⟨?_, e, rfl⟩
          rintro content ⟨-, -, author', recipient', -, hchosen', -⟩
          exact hnone _ _ hchosen'

theorem getDecryptedContent_recipient {squeak : L.CSqueak} {secretKey : Bytes} {profile : SqueakProfile L}
    {content : String}
    (h : SqueakCore.getDecryptedContent squeak secretKey none (some profile) = .ok content) :
    ∃ privateKey, profile.privateKey = some privateKey ∧
      L.getDecryptedContentStr squeak secretKey none (some privateKey) = .ok content := by
  unfold SqueakCore.getDecryptedContent at h
  cases hkey : profile.privateKey with
  | none => simp [hkey] at h
  | some privateKey => exact ⟨privateKey, rfl, by simpa [hkey] using h⟩

theorem getDecryptedContent_author {squeak : L.CSqueak} {secretKey : Bytes} {profile : SqueakProfile L}
    {content : String}
    (h : SqueakCore.getDecryptedContent squeak secretKey (some profile) none = .ok content) :
    ∃ privateKey, profile.privateKey = some privateKey ∧
      L.getDecryptedContentStr squeak secretKey (some privateKey) none = .ok content := by
  unfold SqueakCore.getDecryptedContent at h
  cases hkey : profile.privateKey with
  | none => simp [hkey] at h
  | some privateKey => exact ⟨privateKey, rfl, by simpa [hkey] using h⟩

namespace SqueakAdminPb2.DecryptSqueakRequest

def author (request : DecryptSqueakRequest) : Option Int :=
  if request.hasAuthor then some request.authorProfileId else none

def recipient (request : DecryptSqueakRequest) : Option Int :=
  if request.hasRecipient then some request.recipientProfileId else none

/-- The id of the profile that the request names, the recipient's if it names two. -/
def named (request : DecryptSqueakRequest) : Int :=
  if request.hasRecipient then request.recipientProfileId else request.authorProfileId

end SqueakAdminPb2.DecryptSqueakRequest

open SqueakAdminPb2 (DecryptSqueakRequest MakeSqueakRequest Reply)

theorem answer_handleDecryptSqueak_error {request : DecryptSqueakRequest} {e : Err}
    (h : fromHex request.squeakHash = .error e) (w : World ρ) :
    (SqueakAdminServerHandler.handleDecryptSqueak L).answer request w = (.error e, w) := by
  show (Handler.ofExcept (fromHex request.squeakHash) >>= _).answer request w = _
  rw [Handler.answer_bind, Handler.answer_ofExcept, h]

theorem answer_handleDecryptSqueak {request : DecryptSqueakRequest} {squeakHash : Bytes}
    (h : fromHex request.squeakHash = .ok squeakHash) (w : World ρ) :
    (SqueakAdminServerHandler.handleDecryptSqueak L).answer request w =
      (SqueakAdminServerHandler.unlockSqueak L squeakHash request.author request.recipient).run w := by
  show (Handler.ofExcept (fromHex request.squeakHash) >>= _).answer request w = _
  rw [Handler.answer_bind, Handler.answer_ofExcept, h]
  obtain ⟨-, hasRecipient, -, hasAuthor, -⟩ := request
  cases hasRecipient <;> cases hasAuthor <;> exact Handler.answer_lift _ _ _

/-- The squeak is decrypted with exactly the private key of the profile that the request names, or the
request fails and leaves the store as it is. -/
def DecryptsAsNamed (L : Squeaklib) (request : DecryptSqueakRequest) (db : Db) (x : Except Err Unit) (db' : Db) : Prop :=
  ((∃ e, x = .error e) ∧ db' = db) ∨
    ∃ (squeakHash : Bytes) (squeak : L.CSqueak) (secretKey : Bytes) (profile : SqueakProfile L)
      (privateKey : L.PrivateKey) (content : String),
      fromHex request.squeakHash = .ok squeakHash ∧ Opened db squeakHash squeak secretKey ∧
        ProfileAt db request.named profile ∧ profile.privateKey = some privateKey ∧
        L.getDecryptedContentStr squeak secretKey (if request.hasRecipient then none else some privateKey)
          (if request.hasRecipient then some privateKey else none) = .ok content ∧
        db' = setSqueakDecryptedContent squeakHash content db

/-- A request that names the id 0 would not be carried out without that profile. -/
def NotWithoutProfile (L : Squeaklib) (request : DecryptSqueakRequest) (db : Db) : Prop :=
  request.named = 0 → ∀ squeakHash content, fromHex request.squeakHash = .ok squeakHash →
    ¬ UnlocksTo L db squeakHash request.author request.recipient content

theorem not_profileAt_zero {db : Db} (hdb : db.profiles.Numbered ProfileRow.profileId) (profile : SqueakProfile L) :
    ¬ ProfileAt db 0 profile := by
  rintro ⟨n, hn, row, hrow, -⟩
  obtain ⟨hmem, hid⟩ := findBy_some hrow
  have hpositive := hdb.positive row hmem
  omega

/-- What is unlocked for a request that names an id other than 0 is unlocked with that profile. -/
theorem named_of_unlocksTo {request : DecryptSqueakRequest} {db : Db} {squeakHash : Bytes} {content : String}
    (hnames : request.hasRecipient = true ∨ request.hasAuthor = true) (hne : request.named ≠ 0)
    (h : UnlocksTo L db squeakHash request.author request.recipient content) :
    ∃ (squeak : L.CSqueak) (secretKey : Bytes) (profile : SqueakProfile L) (privateKey : L.PrivateKey),
      Opened db squeakHash squeak secretKey ∧ ProfileAt db request.named profile ∧
        profile.privateKey = some privateKey ∧
        L.getDecryptedContentStr squeak secretKey (if request.hasRecipient then none else some privateKey)
          (if request.hasRecipient then some privateKey else none) = .ok content := by
  obtain ⟨squeak, secretKey, authorProfile, recipientProfile, hopened, hchosen, hcontent⟩ := h
  unfold DecryptSqueakRequest.named at hne ⊢
  unfold DecryptSqueakRequest.author DecryptSqueakRequest.recipient at hchosen
  cases hrecipient : request.hasRecipient with
  | true =>
    rw [hrecipient] at hne hchosen
    simp only [if_true] at hne hchosen ⊢
    cases hchosen with
    | recipient heq _ hat =>
      cases heq
      obtain ⟨privateKey, hkey, hdecrypted⟩ := getDecryptedContent_recipient hcontent
      exact ⟨squeak, secretKey, _, privateKey, hopened, hat, hkey, hdecrypted⟩
    | author hnot _ _ _ => exact absurd hnot.eq_zero hne
    | neither hnot _ => exact absurd hnot.eq_zero hne
  | false =>
    have hauthor : request.hasAuthor = true := by simpa [hrecipient] using hnames
    rw [hrecipient] at hne hchosen
    rw [hauthor] at hchosen
    simp only [Bool.false_eq_true, if_false, if_true] at hne hchosen ⊢
    cases hchosen with
    | recipient heq _ _ => cases heq
    | author _ heq _ hat =>
      cases heq
      obtain ⟨privateKey, hkey, hdecrypted⟩ := getDecryptedContent_author hcontent
      exact ⟨squeak, secretKey, _, privateKey, hopened, hat, hkey, hdecrypted⟩
    | neither _ hnot => exact absurd hnot.eq_zero hne

theorem decryptsAsNamed_iff {request : DecryptSqueakRequest}
    (hnames : request.hasRecipient = true ∨ request.hasAuthor = true)
    {w : World ρ} (hdb : w.db.profiles.Numbered ProfileRow.profileId) :
    DecryptsAsNamed L request w.db ((SqueakAdminServerHandler.handleDecryptSqueak L).answer request w).1
        ((SqueakAdminServerHandler.handleDecryptSqueak L).answer request w).2.db ↔
      NotWithoutProfile L request w.db := by
  cases hhash : fromHex request.squeakHash with
  | error e =>
    rw [answer_handleDecryptSqueak_error hhash]
    refine iff_of_true (.inl ⟨⟨e, rfl⟩, rfl⟩) fun _ squeakHash content h => ?_
    rw [hhash] at h
    cases h
  | ok squeakHash =>
    rw [answer_handleDecryptSqueak hhash]
    rcases run_unlockSqueak (L := L) squeakHash request.author request.recipient w with
      ⟨content, hunlocks, hrun⟩ | ⟨hnot, e, hrun⟩
    · rw [hrun]
      constructor
      · rintro (⟨⟨e, he⟩, -⟩ | ⟨-, -, -, profile, -, -, -, -, hat, -⟩) hzero
        · cases he
        · exact absurd (hzero ▸ hat) (not_profileAt_zero hdb profile)
      · intro h
        have hne : request.named ≠ 0 := fun hzero => h hzero squeakHash content hhash hunlocks
        obtain ⟨squeak, secretKey, profile, privateKey, hopened, hat, hkey, hdecrypted⟩ :=
          named_of_unlocksTo hnames hne hunlocks
        exact .inr ⟨squeakHash, squeak, secretKey, profile, privateKey, content, hhash, hopened, hat, hkey,
          hdecrypted, rfl⟩
    · rw [hrun]
      refine iff_of_true (.inl ⟨⟨e, rfl⟩, rfl⟩) fun _ squeakHash' content h => ?_
      rw [hhash] at h
      cases h
      exact hnot content

/-! ## Making -/

/-- A squeak that is made for a recipient is private and names the recipient's key, and one that is made
for none is public. -/
def AddressesSqueaks (N : Node L ρ) : Prop :=
  ∀ privateKey contentStr blockHeight blockHash timestamp replyTo recipient o squeak secretKey,
    (N.makeSqueakFromStr privateKey contentStr blockHeight blockHash timestamp replyTo recipient o).1 =
      .ok (squeak, secretKey) →
    L.isPrivateMessage squeak = recipient.isSome ∧ ∀ publicKey, recipient = some publicKey →
      L.getRecipientPubKey squeak = publicKey

/-- `make_squeak` of the core makes this squeak for the author and the recipient. -/
def Drafts (N : Node L ρ) (profile : SqueakProfile L) (contentStr : String) (replytoHash : Option Bytes)
    (recipient : Option L.PublicKey) (o : ρ) (squeak : L.CSqueak) (secretKey : Bytes) (o' : ρ) : Prop :=
  ∃ privateKey info o₁, profile.privateKey = some privateKey ∧ N.bitcoinClient.getBestBlockInfo o = (.ok info, o₁) ∧
    N.makeSqueakFromStr privateKey contentStr info.blockHeight info.blockHash ((N.timestampNowMs o₁).1 / 1000) replytoHash
      recipient (N.timestampNowMs o₁).2 = (.ok (squeak, secretKey), o')

/-- `save_squeak` inserts the squeak. -/
structure Saves (N : Node L ρ) (squeak : L.CSqueak) (db : Db) (o : ρ) : Prop where
  checked : L.checkSqueak squeak = .ok ()
  header : ∃ header, headerOf N squeak o = .ok header
  room : HasRoom N squeak db
  fresh : taken SqueakRow.hash (getHash L squeak) db.squeaks = false

/-- The database has one more squeak, whose row says whom it is for. -/
def StoredFor (squeak : L.CSqueak) (db db' : Db) : Prop :=
  ∃ r : SqueakRow, db' = { db with squeaks := db.squeaks ++ [r] } ∧ r.hash = getHash L squeak ∧
    r.recipientPublicKey =
      if L.isPrivateMessage squeak then some (L.publicKeyToBytes (L.getRecipientPubKey squeak)) else none

theorem StoredFor.update {squeak : L.CSqueak} {db db' : Db} (h : StoredFor squeak db db')
    (hfresh : taken SqueakRow.hash (getHash L squeak) db.squeaks = false) {f : SqueakRow → SqueakRow}
    (hhash : ∀ r, (f r).hash = r.hash) (hrecipient : ∀ r, (f r).recipientPublicKey = r.recipientPublicKey) :
    StoredFor squeak db (updateSqueak (getHash L squeak) f db') := by
  obtain ⟨r, rfl, hr, hfor⟩ := h
  refine ⟨f r, ?_, (hhash r).trans hr, (hrecipient r).trans hfor⟩
  have hothers : updateWhere (fun r => r.hash == getHash L squeak) f db.squeaks = db.squeaks :=
    updateWhere_eq_self fun s hs => beq_false_of_ne (taken_eq_false.1 hfresh s hs)
  have hnew : updateWhere (fun r => r.hash == getHash L squeak) f [r] = [f r] := by simp [updateWhere, hr]
  show ({ db with squeaks := _ } : Db) = _
  rw [updateWhere_append, hothers, hnew]

theorem stored_saveSecretKey {squeak : L.CSqueak} {db : Db}
    (hfresh : taken SqueakRow.hash (getHash L squeak) db.squeaks = false)
    (secretKey : Bytes) {w : World ρ} (h : StoredFor squeak db w.db) :
    StoredFor squeak db ((SqueakStore.saveSecretKey L (getHash L squeak) secretKey).run w).2.db := by
  cases hrow : findSqueak (getHash L squeak) w.db with
  | none =>
    rw [run_saveSecretKey_missing secretKey hrow]
    exact h
  | some r =>
    by_cases hvalid : ∃ s, L.deserialize r.squeak = .ok s ∧ L.checkSqueakSecretKey s secretKey = .ok ()
    · obtain ⟨s, hs, hcheck⟩ := hvalid
      rw [run_saveSecretKey_valid hrow hs hcheck]
      show StoredFor squeak db (withKey L (getHash L squeak) secretKey s w.db)
      rw [withKey_eq, withKey_squeaks]
      exact h.update hfresh (fun _ => rfl) fun _ => rfl
    · obtain ⟨e, hrun⟩ := run_saveSecretKey_invalid (L := L) secretKey hrow fun s hs hcheck => hvalid ⟨s, hs, hcheck⟩
      rw [hrun]
      exact h

theorem stored_unlockSqueak {squeak : L.CSqueak} {db : Db}
    (hfresh : taken SqueakRow.hash (getHash L squeak) db.squeaks = false)
    (profileId : Nat) {w : World ρ} (h : StoredFor squeak db w.db) :
    StoredFor squeak db ((SqueakStore.unlockSqueak L (getHash L squeak) (some profileId) none).run w).2.db := by
  rw [← SqueakAdminServerHandler.unlockSqueak_ofNat (getHash L squeak) (some profileId) none]
  rcases run_unlockSqueak (L := L) (getHash L squeak) ((some profileId).map Int.ofNat) (none.map Int.ofNat) w with
    ⟨content, -, hrun⟩ | ⟨-, e, hrun⟩
  · rw [hrun]
    exact h.update hfresh (fun _ => rfl) fun _ => rfl
  · rw [hrun]
    exact h

section Make

variable (N : Node L ρ)

/-- `make_squeak` from the two profiles on. -/
def makeFor (profileId : Nat) (contentStr : String) (replytoHash : Option Bytes) (squeakProfile : SqueakProfile L)
    (recipientProfile : Option (SqueakProfile L)) : NodeM ρ Bytes := do
  let (squeak, secretKey) ← SqueakCore.makeSqueak N squeakProfile contentStr replytoHash recipientProfile
  match ← SqueakStore.saveSqueak N squeak with
  | none => throw (.exception "Failed to save squeak.")
  | some insertedSqueakHash =>
    SqueakStore.saveSecretKey L insertedSqueakHash secretKey
    if L.isPrivateMessage squeak then SqueakStore.unlockSqueak L insertedSqueakHash (some profileId) none
    else pure ()
    return insertedSqueakHash

/-- `make_squeak` from the author's profile on, for the recipient that a message names. -/
def makeBetween (profileId : Nat) (contentStr : String) (replytoHash : Option Bytes) (recipientProfileId : Int) :
    Option (SqueakProfile L) → NodeM ρ Bytes
  | none => throw (.exception s!"Profile with id {profileId} not found.")
  | some squeakProfile =>
    SqueakAdminServerHandler.requireProfile L (.exception s!"Recipient profile with id {recipientProfileId} not found.")
      (some recipientProfileId) >>= makeFor N profileId contentStr replytoHash squeakProfile

theorem makeSqueak_eq (profileId : Nat) (contentStr : String) (replytoHash : Option Bytes) (recipientProfileId : Int) :
    SqueakAdminServerHandler.makeSqueak N profileId contentStr replytoHash (some recipientProfileId) =
      SqueakStore.getSqueakProfile L profileId >>= makeBetween N profileId contentStr replytoHash recipientProfileId := by
  cases recipientProfileId with
  | negSucc n =>
    refine congrArg (SqueakStore.getSqueakProfile L profileId >>= ·) (funext fun profile => ?_)
    cases profile <;> rfl
  | ofNat n =>
    refine congrArg (SqueakStore.getSqueakProfile L profileId >>= ·) (funext fun profile => ?_)
    cases profile with
    | none => rfl
    | some profile => cases n <;> rfl

variable {N}

theorem run_coreMakeSqueak (profile : SqueakProfile L) (contentStr : String) (replytoHash : Option Bytes)
    (recipientProfile : Option (SqueakProfile L)) (w : World ρ) :
    (∃ squeak secretKey o, Drafts N profile contentStr replytoHash (recipientProfile.map SqueakProfile.publicKey) w.env squeak
        secretKey o ∧
      (SqueakCore.makeSqueak N profile contentStr replytoHash recipientProfile).run w =
        (.ok (squeak, secretKey), ⟨w.db, o⟩)) ∨
      (∀ squeak secretKey o, ¬ Drafts N profile contentStr replytoHash (recipientProfile.map SqueakProfile.publicKey) w.env
        squeak secretKey o) ∧
        ∃ e o, (SqueakCore.makeSqueak N profile contentStr replytoHash recipientProfile).run w =
          (.error e, ⟨w.db, o⟩) := by
  unfold SqueakCore.makeSqueak
  cases hkey : profile.privateKey with
  | none =>
    refine .inr ⟨?_, _, w.env, rfl⟩
    rintro squeak secretKey o ⟨privateKey, -, -, hk, -⟩
    rw [hkey] at hk
    cases hk
  | some privateKey =>
    dsimp only
    rw [Prog.run_bind, run_call]
    rcases hinfo : N.bitcoinClient.getBestBlockInfo w.env with ⟨e | info, o₁⟩
    · refine .inr ⟨?_, e, o₁, rfl⟩
      rintro squeak secretKey o ⟨-, info', o₁', -, hi, -⟩
      rw [hinfo] at hi
      cases hi
    · dsimp only
      rw [Prog.run_bind, run_ask]
      dsimp only
      rw [run_call]
      rcases hmade : N.makeSqueakFromStr privateKey contentStr info.blockHeight info.blockHash
          ((N.timestampNowMs o₁).1 / 1000) replytoHash (recipientProfile.map SqueakProfile.publicKey)
          (N.timestampNowMs o₁).2 with ⟨e | ⟨squeak, secretKey⟩, o⟩
      · refine .inr ⟨?_, e, o, rfl⟩
        rintro squeak secretKey o' ⟨privateKey', info', o₁', hk, hi, hm⟩
        rw [hkey] at hk
        rw [hinfo] at hi
        cases hk
        cases hi
        rw [hmade] at hm
        cases hm
      · exact .inl ⟨squeak, secretKey, o, ⟨privateKey, info, o₁, hkey, hinfo, hmade⟩, rfl⟩

theorem Drafts.unique {profile : SqueakProfile L} {contentStr : String} {replytoHash : Option Bytes}
    {recipient : Option L.PublicKey} {o o₁ o₂ : ρ} {squeak₁ squeak₂ : L.CSqueak} {secretKey₁ secretKey₂ : Bytes}
    (h₁ : Drafts N profile contentStr replytoHash recipient o squeak₁ secretKey₁ o₁)
    (h₂ : Drafts N profile contentStr replytoHash recipient o squeak₂ secretKey₂ o₂) : squeak₁ = squeak₂ ∧ o₁ = o₂ := by
  obtain ⟨privateKey, info, o', hkey, hinfo, hmade⟩ := h₁
  obtain ⟨privateKey', info', o'', hkey', hinfo', hmade'⟩ := h₂
  rw [hkey] at hkey'
  rw [hinfo] at hinfo'
  cases hkey'
  cases hinfo'
  rw [hmade] at hmade'
  cases hmade'
  exact ⟨rfl, rfl⟩

theorem run_saveSqueak_saves {squeak : L.CSqueak} {w : World ρ} (h : Saves N squeak w.db w.env) :
    ∃ o r, (SqueakStore.saveSqueak N squeak).run w =
        (.ok (some (getHash L squeak)), ⟨{ w.db with squeaks := w.db.squeaks ++ [r] }, o⟩) ∧
      StoredFor squeak w.db { w.db with squeaks := w.db.squeaks ++ [r] } := by
  obtain ⟨header, hheader⟩ := h.header
  have hrun := run_saveSqueak_valid h.checked hheader h.room
  dsimp only at hrun
  rw [insertSqueak_of_free _ h.fresh] at hrun
  exact ⟨_, _, hrun, _, rfl, rfl, rfl⟩

theorem run_saveSqueak_refuses {squeak : L.CSqueak} {w : World ρ} (h : ¬ Saves N squeak w.db w.env) :
    ∃ x o, (SqueakStore.saveSqueak N squeak).run w = (x, ⟨w.db, o⟩) ∧ ∀ squeakHash, x ≠ .ok (some squeakHash) := by
  by_cases hpass : L.checkSqueak squeak = .ok () ∧ (∃ header, headerOf N squeak w.env = .ok header) ∧
    HasRoom N squeak w.db
  · obtain ⟨hcheck, ⟨header, hheader⟩, hroom⟩ := hpass
    have htaken : taken SqueakRow.hash (getHash L squeak) w.db.squeaks = true := by
      by_contra hfree
      exact h ⟨hcheck, ⟨header, hheader⟩, hroom, eq_false_of_ne_true hfree⟩
    have hrun := run_saveSqueak_valid hcheck hheader hroom
    dsimp only at hrun
    rw [insertSqueak_of_taken htaken] at hrun
    exact ⟨_, _, hrun, fun squeakHash heq => by cases heq⟩
  · obtain ⟨e, o, hrun⟩ := run_saveSqueak_invalid N squeak w hpass
    exact ⟨.error e, o, hrun, fun squeakHash heq => by cases heq⟩

/-- From the two profiles on, a squeak to the recipient is stored, or nothing is. -/
theorem run_makeFor (profileId : Nat) (contentStr : String) (replytoHash : Option Bytes) (profile : SqueakProfile L)
    (recipientProfile : Option (SqueakProfile L)) (w : World ρ) :
    (∃ squeak secretKey o, Drafts N profile contentStr replytoHash (recipientProfile.map SqueakProfile.publicKey) w.env squeak
        secretKey o ∧ Saves N squeak w.db o ∧
      StoredFor squeak w.db ((makeFor N profileId contentStr replytoHash profile recipientProfile).run w).2.db) ∨
      (∀ squeak secretKey o, Drafts N profile contentStr replytoHash (recipientProfile.map SqueakProfile.publicKey) w.env
        squeak secretKey o → ¬ Saves N squeak w.db o) ∧
        (∃ e, ((makeFor N profileId contentStr replytoHash profile recipientProfile).run w).1 = .error e) ∧
        ((makeFor N profileId contentStr replytoHash profile recipientProfile).run w).2.db = w.db := by
  unfold makeFor
  rcases run_coreMakeSqueak (N := N) profile contentStr replytoHash recipientProfile w with
    ⟨squeak, secretKey, o, hdraft, hrun⟩ | ⟨hnone, e, o, hrun⟩
  · rw [Prog.run_bind_of_ok hrun]
    dsimp only
    by_cases hsaves : Saves N squeak w.db o
    · obtain ⟨o', r, hsaved, hstored⟩ := run_saveSqueak_saves (w := ⟨w.db, o⟩) hsaves
      refine .inl ⟨squeak, secretKey, o, hdraft, hsaves, ?_⟩
      rw [Prog.run_bind_of_ok hsaved]
      -- from here on nothing takes the row away again, whether it raises or not
      have hkeyed :=
        stored_saveSecretKey (ρ := ρ) (w := ⟨{ w.db with squeaks := w.db.squeaks ++ [r] }, o'⟩) hsaves.fresh
        secretKey hstored
      dsimp only
      rw [Prog.run_bind]
      rcases hkey : (SqueakStore.saveSecretKey L (getHash L squeak) secretKey).run
          ⟨{ w.db with squeaks := w.db.squeaks ++ [r] }, o'⟩ with ⟨e | _, w'⟩
      · rw [hkey] at hkeyed
        exact hkeyed
      · rw [hkey] at hkeyed
        dsimp only
        cases L.isPrivateMessage squeak with
        | false => exact hkeyed
        | true =>
          have hunlocked := stored_unlockSqueak (ρ := ρ) hsaves.fresh profileId hkeyed
          simp only [if_true]
          rw [Prog.run_bind]
          rcases hunlock : (SqueakStore.unlockSqueak L (getHash L squeak) (some profileId) none).run w'
              with ⟨e | _, w''⟩
          · rw [hunlock] at hunlocked
            exact hunlocked
          · rw [hunlock] at hunlocked
            exact hunlocked
    · -- a refused squeak leaves the store as it is
      obtain ⟨x, o', hrefused, hnot⟩ := run_saveSqueak_refuses (w := ⟨w.db, o⟩) hsaves
      refine .inr ⟨fun squeak' secretKey' o'' hdraft' hsaves' => ?_, ?_⟩
      · obtain ⟨rfl, rfl⟩ := hdraft.unique hdraft'
        exact hsaves hsaves'
      · rw [Prog.run_bind, hrefused]
        rcases x with e | _ | squeakHash
        · exact ⟨⟨e, rfl⟩, rfl⟩
        · exact ⟨⟨_, rfl⟩, rfl⟩
        · exact absurd rfl (hnot squeakHash)
  · rw [Prog.run_bind_of_error hrun]
    exact .inr ⟨fun squeak secretKey o hdraft => absurd hdraft (hnone squeak secretKey o), ⟨e, rfl⟩, rfl⟩

/-- The squeak is made of the author's profile, for the recipient, and can be saved. -/
def Makes (N : Node L ρ) (w : World ρ) (profileId : Int) (contentStr : String) (replytoHash : Option Bytes)
    (recipientProfile : Option (SqueakProfile L)) (squeak : L.CSqueak) : Prop :=
  ∃ squeakProfile secretKey o, ProfileAt w.db profileId squeakProfile ∧
    Drafts N squeakProfile contentStr replytoHash (recipientProfile.map SqueakProfile.publicKey) w.env squeak secretKey o ∧
    Saves N squeak w.db o

/-- A recipient: none for the id 0, and else the profile of the id. -/
def RecipientAt (db : Db) (id : Int) (recipientProfile : Option (SqueakProfile L)) : Prop :=
  (id = 0 ∧ recipientProfile = none) ∨ id ≠ 0 ∧ ∃ profile, recipientProfile = some profile ∧ ProfileAt db id profile

/-- How `make_squeak` ends: a squeak of the author is stored, or none can be and nothing is. -/
def MakeOutcome (N : Node L ρ) (w : World ρ) (profileId : Int) (contentStr : String) (replytoHash : Option Bytes)
    (recipientProfileId : Int) (x : Except Err Bytes × World ρ) : Prop :=
  (∃ recipientProfile squeak, RecipientAt w.db recipientProfileId recipientProfile ∧
    Makes N w profileId contentStr replytoHash recipientProfile squeak ∧ StoredFor squeak w.db x.2.db) ∨
    (∀ recipientProfile squeak, RecipientAt w.db recipientProfileId recipientProfile →
      ¬ Makes N w profileId contentStr replytoHash recipientProfile squeak) ∧
      (∃ e, x.1 = .error e) ∧ x.2.db = w.db

theorem RecipientAt.unique {db : Db} {id : Int} {profile profile' : Option (SqueakProfile L)}
    (h : RecipientAt db id profile) (h' : RecipientAt db id profile') : profile = profile' := by
  rcases h with ⟨hz, rfl⟩ | ⟨hne, p, rfl, hat⟩
  · rcases h' with ⟨-, rfl⟩ | ⟨hne', -⟩
    · rfl
    · exact absurd hz hne'
  · rcases h' with ⟨hz', -⟩ | ⟨-, p', rfl, hat'⟩
    · exact absurd hz' hne
    · exact congrArg some (hat.unique hat')

/-- With both profiles found the outcome is that of the rest. -/
theorem makeOutcome_makeFor {profileId recipientProfileId : Int} {contentStr : String} {replytoHash : Option Bytes}
    {squeakProfile : SqueakProfile L} {recipientProfile : Option (SqueakProfile L)} {w : World ρ} (n : Nat)
    (hauthor : ProfileAt w.db profileId squeakProfile)
    (hrecipient : RecipientAt w.db recipientProfileId recipientProfile) :
    MakeOutcome N w profileId contentStr replytoHash recipientProfileId
      ((makeFor N n contentStr replytoHash squeakProfile recipientProfile).run w) := by
  rcases run_makeFor (N := N) n contentStr replytoHash squeakProfile recipientProfile w with
    ⟨squeak, secretKey, o, hdraft, hsaves, hstored⟩ | ⟨hnot, herror, hsame⟩
  · exact .inl ⟨recipientProfile, squeak, hrecipient, ⟨squeakProfile, secretKey, o, hauthor, hdraft, hsaves⟩, hstored⟩
  · refine .inr ⟨?_, herror, hsame⟩
    rintro profile squeak hprofile ⟨squeakProfile', secretKey, o, hauthor', hdraft, hsaves⟩
    obtain rfl := hprofile.unique hrecipient
    obtain rfl := hauthor.unique hauthor'
    exact hnot squeak secretKey o hdraft hsaves

/-- An exception before the squeak is made, where a profile is missing. -/
theorem makeOutcome_error {profileId recipientProfileId : Int} {contentStr : String} {replytoHash : Option Bytes}
    {w : World ρ}
    (e : Err) (h : (∀ profile : SqueakProfile L, ¬ ProfileAt w.db profileId profile) ∨
      ∀ profile : Option (SqueakProfile L), ¬ RecipientAt w.db recipientProfileId profile) :
    MakeOutcome N w profileId contentStr replytoHash recipientProfileId (.error e, w) := by
  refine .inr ⟨?_, ⟨e, rfl⟩, rfl⟩
  rintro recipientProfile squeak hrecipient ⟨squeakProfile, -, -, hauthor, -⟩
  rcases h with hnone | hnone
  · exact hnone squeakProfile hauthor
  · exact hnone recipientProfile hrecipient

theorem run_makeSqueak (profileId : Int) (contentStr : String) (replytoHash : Option Bytes) (recipientProfileId : Int)
    (w : World ρ) : MakeOutcome N w profileId contentStr replytoHash recipientProfileId
      ((SqueakAdminServerHandler.makeSqueak N profileId contentStr replytoHash (some recipientProfileId)).run w) := by
  cases profileId with
  | negSucc n =>
    refine makeOutcome_error _ (.inl ?_)
    rintro profile ⟨m, hm, -⟩
    cases hm
  | ofNat profileId =>
    rw [show Int.ofNat profileId = (profileId : Int) from rfl, makeSqueak_eq]
    rcases run_getSqueakProfile (L := L) profileId w with ⟨squeakProfile, hauthor, hrun⟩ | ⟨hnone, hrun | ⟨e, hrun⟩⟩
    · rw [Prog.run_bind_of_ok hrun]
      unfold makeBetween
      by_cases hzero : recipientProfileId = 0
      · rw [Prog.run_bind_of_ok (run_requireProfile_notGiven (.inr (congrArg some hzero)) _ w)]
        exact makeOutcome_makeFor profileId hauthor (.inl ⟨hzero, rfl⟩)
      · rcases run_requireProfile (L := L) hzero
            (.exception s!"Recipient profile with id {recipientProfileId} not found.") w with
          ⟨profile, hat, hrun⟩ | ⟨hnone, e, hrun⟩
        · rw [Prog.run_bind_of_ok hrun]
          exact makeOutcome_makeFor profileId hauthor (.inr ⟨hzero, profile, rfl, hat⟩)
        · rw [Prog.run_bind_of_error hrun]
          refine makeOutcome_error e (.inr ?_)
          rintro _ (⟨hz, -⟩ | ⟨-, profile, rfl, hat⟩)
          · exact hzero hz
          · exact hnone profile hat
    · rw [Prog.run_bind_of_ok hrun]
      exact makeOutcome_error _ (.inl hnone)
    · rw [Prog.run_bind_of_error hrun]
      exact makeOutcome_error e (.inl hnone)

end Make

/-! ### What the route of the request does -/

section Routes

variable {N : Node L ρ}

theorem answer_handleMakeSqueak_error {request : MakeSqueakRequest} {e : Err}
    (h : fromHexOrNone request.replyto = .error e)
    (w : World ρ) : (SqueakAdminServerHandler.handleMakeSqueak N).answer request w = (.error e, w) := by
  show (Handler.ofExcept (fromHexOrNone request.replyto) >>= _).answer request w = _
  rw [Handler.answer_bind, Handler.answer_ofExcept, h]

theorem answer_handleMakeSqueak {request : MakeSqueakRequest} {replytoHash : Option Bytes}
    (h : fromHexOrNone request.replyto = .ok replytoHash) (hrecipient : request.hasRecipient = true) (w : World ρ) :
    (SqueakAdminServerHandler.handleMakeSqueak N).answer request w =
      ((SqueakAdminServerHandler.makeSqueak N request.profileId request.content replytoHash
          (some request.recipientProfileId)).run w).map (Except.map fun squeakHash => .makeSqueak (hex squeakHash)) id := by
  show (Handler.ofExcept (fromHexOrNone request.replyto) >>= _).answer request w = _
  rw [Handler.answer_bind, Handler.answer_ofExcept, h]
  obtain ⟨profileId, contentStr, replyto, hasRecipient, recipientProfileId⟩ := request
  obtain rfl : hasRecipient = true := hrecipient
  show (Handler.lift (SqueakAdminServerHandler.makeSqueak N profileId contentStr replytoHash (some recipientProfileId)) >>=
    _).answer _ w = _
  rw [Handler.answer_bind, Handler.answer_lift]
  dsimp only
  rcases (SqueakAdminServerHandler.makeSqueak N profileId contentStr replytoHash (some recipientProfileId)).run w with
    ⟨e | squeakHash, w'⟩
  · rfl
  · rfl

/-- The request fails and stores nothing, or it stores a squeak for the recipient that it names. -/
def KeepsPrivate (L : Squeaklib) (request : MakeSqueakRequest) (db : Db) (x : Except Err Reply) (db' : Db) : Prop :=
  ((∃ e, x = .error e) ∧ db' = db) ∨
    ∃ (profile : SqueakProfile L) (r : SqueakRow), ProfileAt db request.recipientProfileId profile ∧
      db' = { db with squeaks := db.squeaks ++ [r] } ∧
      r.recipientPublicKey = some (L.publicKeyToBytes profile.publicKey)

/-- With the id 0 for the recipient no squeak would be made without one. -/
def NotWithoutRecipient (N : Node L ρ) (request : MakeSqueakRequest) (w : World ρ) : Prop :=
  request.recipientProfileId = 0 → ∀ replytoHash squeak, fromHexOrNone request.replyto = .ok replytoHash →
    ¬ Makes N w request.profileId request.content replytoHash none squeak

theorem keepsPrivate_iff (haddresses : AddressesSqueaks N) {request : MakeSqueakRequest}
    (hrecipient : request.hasRecipient = true)
    {w : World ρ} (hdb : w.db.profiles.Numbered ProfileRow.profileId) :
    KeepsPrivate L request w.db ((SqueakAdminServerHandler.handleMakeSqueak N).answer request w).1
        ((SqueakAdminServerHandler.handleMakeSqueak N).answer request w).2.db ↔
      NotWithoutRecipient N request w := by
  cases hreplyto : fromHexOrNone request.replyto with
  | error e =>
    rw [answer_handleMakeSqueak_error hreplyto]
    refine iff_of_true (.inl ⟨⟨e, rfl⟩, rfl⟩) fun _ replytoHash squeak h => ?_
    rw [hreplyto] at h
    cases h
  | ok replytoHash =>
    rw [answer_handleMakeSqueak hreplyto hrecipient]
    rcases run_makeSqueak (N := N) request.profileId request.content replytoHash request.recipientProfileId w with
      ⟨recipientProfile, squeak, hat, hmakes, r, hdb', -, hfor⟩ | ⟨hnot, ⟨e, herror⟩, hsame⟩
    · have hstored := hmakes
      obtain ⟨-, secretKey, o, -, ⟨privateKey, info, o₁, -, -, hmade⟩, -⟩ := hmakes
      obtain ⟨hprivate, hkey⟩ := haddresses _ _ _ _ _ _ _ _ _ _ (congrArg Prod.fst hmade)
      have hgrows : w.db.squeaks ++ [r] ≠ w.db.squeaks := by simp
      rcases hat with ⟨hzero, rfl⟩ | ⟨hne, profile, rfl, hat⟩
      · -- the squeak is public, so that its row names nobody
        refine iff_of_false ?_ fun h => h hzero replytoHash squeak hreplyto hstored
        rintro (⟨-, hsame⟩ | ⟨profile, r', hat, -⟩)
        · exact hgrows (congrArg Db.squeaks (hdb'.symm.trans hsame))
        · exact not_profileAt_zero hdb profile (hzero ▸ hat)
      · refine iff_of_true (.inr ⟨profile, r, hat, hdb', ?_⟩) fun hzero => absurd hzero hne
        have hprivate : L.isPrivateMessage squeak = true := hprivate
        rw [hfor, if_pos hprivate, hkey profile.publicKey rfl]
    · refine iff_of_true (.inl ⟨⟨e, ?_⟩, hsame⟩) fun hzero replytoHash' squeak h => ?_
      · simp only [Prod.map_fst, herror]
        rfl
      · rw [hreplyto] at h
        cases h
        exact hnot none squeak (.inl ⟨hzero, rfl⟩)

/-- Every request that names a profile is served with that profile or refused, but for the id 0 in a
request that would be carried out without a profile. -/
theorem private_profiles_iff (haddresses : AddressesSqueaks N) {w : World ρ}
    (hdb : w.db.profiles.Numbered ProfileRow.profileId) :
    (∀ request : MakeSqueakRequest, request.hasRecipient = true →
      (KeepsPrivate L request w.db ((SqueakAdminServerHandler.handleMakeSqueak N).answer request w).1
          ((SqueakAdminServerHandler.handleMakeSqueak N).answer request w).2.db ↔
        NotWithoutRecipient N request w)) ∧
      ∀ request : DecryptSqueakRequest, request.hasRecipient = true ∨ request.hasAuthor = true →
        (DecryptsAsNamed L request w.db ((SqueakAdminServerHandler.handleDecryptSqueak L).answer request w).1
            ((SqueakAdminServerHandler.handleDecryptSqueak L).answer request w).2.db ↔
          NotWithoutProfile L request w.db) := by
  constructor
  · intro request hrecipient
    exact keepsPrivate_iff haddresses hrecipient hdb
  · intro request hnames
    exact decryptsAsNamed_iff hnames hdb

end Routes

namespace Sample

/-- A node whose squeaklib refuses the recipient's key 0, which stands for none in a squeak. -/
def addressingNode : Node squeaklib Outside :=
  { node 10 with
    makeSqueakFromStr := fun privateKey content blockHeight blockHash timestamp replyTo recipient o =>
      if (show Option UInt8 from recipient) = some 0 then (.error (.squeaklib "invalid recipient"), o)
      else (node 10).makeSqueakFromStr privateKey content blockHeight blockHash timestamp replyTo recipient o }

theorem addressesSqueaks : AddressesSqueaks addressingNode := by
  intro privateKey contentStr blockHeight blockHash timestamp replyTo recipient o squeak secretKey h
  by_cases hzero : (show Option UInt8 from recipient) = some 0
  · obtain rfl : recipient = some (0 : UInt8) := hzero
    cases h
  · have hmade := h
    unfold addressingNode at hmade
    dsimp only at hmade
    rw [if_neg hzero] at hmade
    cases hmade
    rcases recipient with _ | publicKey
    · exact ⟨rfl, fun publicKey h => by cases h⟩
    · refine ⟨?_, fun publicKey' h => by cases h; rfl⟩
      have hne : publicKey ≠ (0 : UInt8) := fun h => hzero (congrArg some h)
      exact bne_iff_ne.2 hne

/-- The author's profile 1 and the profile 2 of a correspondent. -/
def correspondents : World Outside :=
  ⟨{ Db.empty with
      profiles := ⟨[⟨1, 0, "author", some [1], [1], false, none⟩, ⟨2, 0, "correspondent", none, [2], true, none⟩], 2⟩ },
    ⟨1000000, []⟩⟩

theorem numbered_correspondents : correspondents.db.profiles.Numbered ProfileRow.profileId where
  unique := by unfold UniqueOn; decide
  issued := by unfold Table.Issued; decide
  positive := by decide

/-- Author 1 writes to the profile of this id. -/
def letterTo (recipientProfileId : Int) : MakeSqueakRequest := ⟨1, "hello", "", true, recipientProfileId⟩

end Sample

/-- A squeak for the correspondent's profile is stored with the correspondent's key. -/
theorem private_profiles_letter :
    KeepsPrivate Sample.squeaklib (Sample.letterTo 2) Sample.correspondents.db
      ((SqueakAdminServerHandler.handleMakeSqueak Sample.addressingNode).answer (Sample.letterTo 2) Sample.correspondents).1
      ((SqueakAdminServerHandler.handleMakeSqueak Sample.addressingNode).answer (Sample.letterTo 2) Sample.correspondents).2.db :=
  ((private_profiles_iff Sample.addressesSqueaks Sample.numbered_correspondents).1 (Sample.letterTo 2) rfl).2
    fun h => by cases h

/-- The recipient's profile 0 is taken for no recipient, and the letter is published. -/
theorem private_profiles_zero :
    ¬ KeepsPrivate Sample.squeaklib (Sample.letterTo 0) Sample.correspondents.db
        ((SqueakAdminServerHandler.handleMakeSqueak Sample.addressingNode).answer (Sample.letterTo 0) Sample.correspondents).1
        ((SqueakAdminServerHandler.handleMakeSqueak Sample.addressingNode).answer (Sample.letterTo 0) Sample.correspondents).2.db ∧
      ((SqueakAdminServerHandler.handleMakeSqueak Sample.addressingNode).answer (Sample.letterTo 0)
        Sample.correspondents).2.db.squeaks.map SqueakRow.recipientPublicKey = [none] := by
  have hpublic : ((SqueakAdminServerHandler.handleMakeSqueak Sample.addressingNode).answer (Sample.letterTo 0)
      Sample.correspondents).2.db.squeaks.map SqueakRow.recipientPublicKey = [none] := by decide +kernel
  refine ⟨?_, hpublic⟩
  rintro (⟨-, hsame⟩ | ⟨profile, r, hat, -⟩)
  · rw [hsame] at hpublic
    cases hpublic
  · exact not_profileAt_zero Sample.numbered_correspondents profile hat

end Squeaknode
