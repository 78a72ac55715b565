/-
The decrypted content of the squeaks under any interleaving of the statements of concurrent
operations. Whatever is written as the content of a hash is what its squeak decrypts to, but the
UPDATE finds its row by the hash alone: a squeak that was deleted and saved again since its key was
read gets the content without the key.
-/
import Squeaknode.Node.Integrity

namespace Squeaknode

open Interleave Relational SqueakDb SqueakStore

variable {L : Squeaklib} {ρ : Type}

/-! ## Operations as programs of few statements -/

/-- The squeaks and the profiles stay as they are. -/
def SameStore (w w' : World ρ) : Prop := w'.db.squeaks = w.db.squeaks ∧ w'.db.profiles = w.db.profiles

/-- The operations on squeaks that are already made. -/
def StoreOp.Given : StoreOp L → Prop
  | makeSqueak _ _ _ _ => False
  | _ => True

section Closed

variable {C : ∀ {α : Type}, NodeM ρ α → Prop}

theorem closed_ofExcept {α : Type} (hC : Prog.Closed C) (x : Except Err α) : C (Prog.ofExcept x : NodeM ρ α) := by
  cases x with
  | ok a => exact hC.ret a
  | error e => exact hC.raise e

theorem closed_forM {α : Type} (hC : Prog.Closed C) {f : α → NodeM ρ PUnit} (hf : ∀ a, C (f a)) :
    ∀ as : List α, C (as.forM f)
  | [] => hC.ret _
  | a :: as => hC.bind (hf a) fun _ => closed_forM hC hf as

variable {N : Node L ρ} (hC : Prog.Closed C)
  (hsame : ∀ {β : Type} (stmt : World ρ → β × World ρ), (∀ w, SameStore w (stmt w).2) →
    C (Prog.atomic stmt : NodeM ρ β))

include hC hsame

theorem closed_call {β : Type} (f : ρ → Except Err β × ρ) : C (call f) :=
  hC.bind (hsame _ fun _ => ⟨rfl, rfl⟩) fun x => closed_ofExcept hC x

variable {saveSqueak : L.CSqueak → NodeM ρ (Option Bytes)} {saveSecretKey : Bytes → Bytes → NodeM ρ Unit}

theorem closed_payment (hkey : ∀ h k, C (saveSecretKey h k)) (receivedOfferId : Nat) :
    C (payOfferWith N saveSecretKey receivedOfferId) := by
  refine hC.bind (hsame _ fun _ => ⟨rfl, rfl⟩) fun offer => ?_
  cases offer with
  | none => exact hC.raise _
  | some offer =>
    have hpay : C (SqueakCore.payOffer N offer) := by
      refine hC.bind (closed_call hC hsame _) fun payment => ?_
      split
      · exact hC.raise _
      · exact closed_ofExcept hC _
    refine hC.bind hpay fun sentPayment => ?_
    have hsent : C (saveSentPayment N sentPayment) := by
      refine hC.bind (hsame _ fun _ => ⟨rfl, rfl⟩) fun now => ?_
      exact hC.bind (hsame _ fun _ => ⟨rfl, rfl⟩) fun id => closed_ofExcept hC _
    refine hC.bind hsent fun id => ?_
    refine hC.bind (hsame _ fun _ => ⟨rfl, rfl⟩) fun _ => ?_
    exact hC.bind (hkey _ _) fun _ => hC.ret _

/-- What sequencing keeps, and what holds of statements that leave the squeaks and the profiles alone,
of a like, of a deletion, of unlocking and of the programs that save a squeak and a key, holds of the
operations on squeaks that are already made. -/
theorem closed_given (hlike : ∀ h t, C (update (setSqueakLiked h t) : NodeM ρ Unit))
    (hunlike : ∀ h, C (update (setSqueakUnliked h) : NodeM ρ Unit))
    (hdelete : ∀ h, C (update (SqueakDb.deleteSqueak h) : NodeM ρ Unit)) (hsave : ∀ squeak, C (saveSqueak squeak))
    (hkey : ∀ h k, C (saveSecretKey h k)) {op : StoreOp L} (hop : op.Given)
    (hunlock : ∀ h a r, op = .unlockSqueak h a r → C (unlockSqueak L h a r : NodeM ρ Unit)) :
    C (op.programWith N saveSqueak saveSecretKey) := by
  cases op with
  | saveSqueak squeak => exact hC.bind (hsave squeak) fun _ => hC.ret _
  | makeSqueak id content reply recipient => exact hop.elim
  | saveSecretKey h k => exact hkey h k
  | unlockSqueak h a r => exact hunlock h a r rfl
  | payOffer id => exact hC.bind (closed_payment hC hsame hkey id) fun _ => hC.ret _
  | likeSqueak h => exact hC.bind (hsame _ fun _ => ⟨rfl, rfl⟩) fun now => hlike h now
  | unlikeSqueak h => exact hunlike h
  | deleteSqueak h => exact hdelete h
  | deleteOldSqueaks =>
    refine hC.bind (hsame _ fun _ => ⟨rfl, rfl⟩) fun now => ?_
    exact hC.bind (hsame _ fun _ => ⟨rfl, rfl⟩) fun hashes => closed_forM hC hdelete hashes

end Closed

/-! ## What a step does to the contents -/

/-- A row has no content, or there was one with its hash: with the same content and a key if there was
one, or with the same key. -/
def WritesOne (w w' : World ρ) : Prop :=
  ∀ r' ∈ w'.db.squeaks, r'.content = none ∨ ∃ r ∈ w.db.squeaks, r.hash = r'.hash ∧
    (r'.content = r.content ∧ (r.secretKey ≠ none → r'.secretKey ≠ none) ∨ r'.secretKey = r.secretKey)

theorem SameSqueaks.writesOne {w w' : World ρ} (h : SameSqueaks w w') : WritesOne w w' := by
  intro r hr
  rw [h] at hr
  exact .inr ⟨r, hr, rfl, .inr rfl⟩

theorem writesOne_update {f : SqueakRow → SqueakRow} (hash : ∀ r, (f r).hash = r.hash)
    (hf : ∀ r, (f r).content = r.content ∧ (r.secretKey ≠ none → (f r).secretKey ≠ none) ∨ (f r).secretKey = r.secretKey)
    (h : Bytes) (w : World ρ) : WritesOne w { w with db := updateSqueak h f w.db } := by
  intro r' hr'
  obtain ⟨r, hr, rfl⟩ := mem_updateWhere.1 hr'
  split
  · exact .inr ⟨r, hr, (hash r).symm, hf r⟩
  · exact .inr ⟨r, hr, rfl, .inr rfl⟩

theorem writesOne_insert (row : SqueakRow) (hrow : row.content = none) (w : World ρ) :
    WritesOne w { w with db := (SqueakDb.insertSqueak row w.db).2 } := by
  intro r' hr'
  rcases mem_insertUnique hr' with hr | ⟨rfl, -⟩
  · exact .inr ⟨r', hr, rfl, .inr rfl⟩
  · exact .inl hrow

theorem within_saveSqueak {R : World ρ → List Obs → World ρ → Prop} (N : Node L ρ) (squeak : L.CSqueak)
    (hsame : ∀ w o w', SameStore w w' → R w o w')
    (hinsert : ∀ w row o, row.content = none → R w o { w with db := (SqueakDb.insertSqueak row w.db).2 }) :
    (saveSqueak N squeak).Within R := by
  have hheader : (SqueakCore.getBlockHeader N squeak).Within R := by
    refine Prog.within_bind (Prog.within_bind (Prog.within_observed fun w => hsame _ _ _ ⟨rfl, rfl⟩) fun _ =>
      Prog.within_ofExcept _) fun info => ?_
    split
    · trivial
    · trivial
  refine Prog.within_bind (Prog.within_ofExcept _) fun _ => Prog.within_bind hheader fun header => ?_
  refine Prog.within_bind (Prog.within_observed fun w => hsame _ _ _ ⟨rfl, rfl⟩) fun numSqueaks => ?_
  split
  · trivial
  · refine Prog.within_bind (Prog.within_observed fun w => hsame _ _ _ ⟨rfl, rfl⟩) fun num => ?_
    split
    · trivial
    · refine Prog.within_bind (within_ask fun w => hsame _ _ _ ⟨rfl, rfl⟩) fun now => ?_
      exact Prog.within_observed fun w => hinsert _ _ _ rfl

theorem writesOne_program (N : Node L ρ) {op : StoreOp L} (hop : op.Given) :
    (op.program N).Respects WritesOne := by
  have hsame : ∀ (w : World ρ) (_ : List Obs) w', SameStore w w' → WritesOne w w' :=
    fun _ _ _ h => SameSqueaks.writesOne h.1
  have hrefl : ∀ w : World ρ, WritesOne w w := fun w => SameSqueaks.writesOne rfl
  have hcontent : ∀ (w : World ρ) h c, WritesOne w { w with db := setSqueakDecryptedContent h c w.db } :=
    fun w h c => writesOne_update (f := fun r => { r with content := some c }) (fun _ => rfl) (fun _ => .inr rfl) h w
  have hkey : ∀ (w : World ρ) h k, WritesOne w { w with db := setSqueakSecretKey h k w.db } :=
    fun w h k => writesOne_update (f := fun r => { r with secretKey := some k }) (fun _ => rfl)
      (fun _ => .inl ⟨rfl, fun _ h => by cases h⟩) h w
  apply closed_given (Prog.closed_within _) (fun stmt h => Prog.within_atomic fun w => hsame w [] _ (h w))
  · intro h t
    exact within_update fun w =>
      writesOne_update (f := fun r => { r with likedTimeMs := some t }) (fun _ => rfl) (fun _ => .inr rfl) h w
  · intro h
    exact within_update fun w =>
      writesOne_update (f := fun r => { r with likedTimeMs := none }) (fun _ => rfl) (fun _ => .inr rfl) h w
  · intro h
    refine within_update fun w r hr => .inr ⟨r, (mem_deleteWhere.1 hr).1, rfl, .inr rfl⟩
  · exact fun squeak => within_saveSqueak N squeak hsame fun w row _ hrow => writesOne_insert row hrow w
  · exact fun h k => within_saveSecretKey hrefl hkey hcontent h k
  · exact hop
  · exact fun h a r _ => within_unlockSqueak hrefl hcontent h a r

/-! ## Right contents -/

/-- The squeak decrypts to the content under the key: a private one with the private key of its author or
of its recipient. -/
def Decrypts (L : Squeaklib) (squeak : L.CSqueak) (secretKey : Bytes) (content : String) : Prop :=
  if L.isPrivateMessage squeak then
    (∃ author, L.getPublicKey author = L.getPubKey squeak ∧
      L.getDecryptedContentStr squeak secretKey (some author) none = .ok content) ∨
    ∃ recipient, L.getPublicKey recipient = L.getRecipientPubKey squeak ∧
      L.getDecryptedContentStr squeak secretKey none (some recipient) = .ok content
  else L.getDecryptedContentStr squeak secretKey none none = .ok content

/-- The content that the squeak with this hash decrypts to, whatever the valid key. -/
def ContentFor (L : Squeaklib) (squeakHash : Bytes) (content : String) : Prop :=
  ∀ squeak secretKey, L.checkSqueak squeak = .ok () → getHash L squeak = squeakHash →
    L.checkSqueakSecretKey squeak secretKey = .ok () → Decrypts L squeak secretKey content

/-- Every content in the table is what the valid keys of its squeak decrypt. -/
def Contents (L : Squeaklib) (db : Db) : Prop :=
  ∀ r ∈ db.squeaks, ∀ content, r.content = some content → ContentFor L r.hash content

/-- The private keys are that of the author or that of the recipient, or the squeak does not decrypt with
them. -/
def KeysFit (L : Squeaklib) (squeak : L.CSqueak) (author recipient : Option L.PrivateKey) : Prop :=
  (recipient = none ∧ ∃ k, author = some k ∧ L.getPublicKey k = L.getPubKey squeak) ∨
  (author = none ∧ ∃ k, recipient = some k ∧ L.getPublicKey k = L.getRecipientPubKey squeak) ∨
  ∀ secretKey content, L.getDecryptedContentStr squeak secretKey author recipient ≠ .ok content

/-- The private key of the profile with this id, if it has one, meets the condition. -/
def HoldsKey (L : Squeaklib) (profileId : Nat) (K : L.PrivateKey → Prop) (db : Db) : Prop :=
  ∀ row profile privateKey, findProfile profileId db = some row → parseSqueakProfile L row = .ok profile →
    profile.privateKey = some privateKey → K privateKey

/-- A private squeak is unlocked with the profile of its recipient or of its author, or does not
decrypt. -/
def EntitledCall (L : Squeaklib) (squeakHash : Bytes) (authorProfileId recipientProfileId : Option Nat) (db : Db) :
    Prop :=
  ∀ squeak, L.checkSqueak squeak = .ok () → getHash L squeak = squeakHash → L.isPrivateMessage squeak = true →
    match givenProfile recipientProfileId, givenProfile authorProfileId with
    | some profileId, _ => HoldsKey L profileId (fun k => KeysFit L squeak none (some k)) db
    | none, some profileId => HoldsKey L profileId (fun k => KeysFit L squeak (some k) none) db
    | none, none => KeysFit L squeak none none

/-- Every call of `unlock_squeak` among the operations is entitled. -/
def Entitled (ops : List (StoreOp L)) (db : Db) : Prop :=
  ∀ h a r, StoreOp.unlockSqueak h a r ∈ ops → EntitledCall L h a r db

/-- The private keys that a squeak was decrypted with. -/
theorem privateKeys_of_decrypted {squeak : L.CSqueak} {secretKey : Bytes} {content : String}
    {author recipient : Option (SqueakProfile L)}
    (h : SqueakCore.getDecryptedContent squeak secretKey author recipient = .ok content) :
    (∀ p, author = some p → ∃ k, p.privateKey = some k) ∧ (∀ p, recipient = some p → ∃ k, p.privateKey = some k) ∧
      L.getDecryptedContentStr squeak secretKey (author.bind SqueakProfile.privateKey)
        (recipient.bind SqueakProfile.privateKey) = .ok content := by
  unfold SqueakCore.getDecryptedContent at h
  split at h
  · cases h
  · rename_i hauthor
    split at h
    · cases h
    · rename_i hrecipient
      refine ⟨?_, ?_, h⟩
      · rintro p rfl
        exact Option.ne_none_iff_exists'.1 (by simpa using hauthor)
      · rintro p rfl
        exact Option.ne_none_iff_exists'.1 (by simpa using hrecipient)

/-- What a program that read the squeak, the key and the profile decrypts is the content for the hash. -/
theorem contentFor_of_decrypted (hK : L.KeyLaws) (hD : L.DecryptLaws) (hH : L.HeaderLaws) {squeak : L.CSqueak}
    {secretKey : Bytes} {content : String}
    {author recipient : Option L.PrivateKey} (hcheck : L.checkSqueak squeak = .ok ())
    (hkey : L.checkSqueakSecretKey squeak secretKey = .ok ())
    (hcontent : L.getDecryptedContentStr squeak secretKey author recipient = .ok content)
    (hfit : L.isPrivateMessage squeak = true → KeysFit L squeak author recipient) :
    ContentFor L (getHash L squeak) content := by
  intro squeak' secretKey' hcheck' hhash' hkey'
  have hsame := hH.header squeak' squeak (List.reverse_injective hhash')
  have hvalid := hK.valid squeak' squeak secretKey' hsame.paymentPoint hkey'
  rw [hD.valid squeak secretKey secretKey' _ _ hkey hvalid] at hcontent
  have hdecrypts := hH.decrypts squeak' squeak secretKey' author recipient hcheck' hcheck (List.reverse_injective hhash')
  unfold Decrypts
  cases hprivate : L.isPrivateMessage squeak' with
  | false =>
    rw [← hdecrypts, hD.isPublic _ _ _ _ hprivate] at hcontent
    simpa using hcontent
  | true =>
    simp only [if_true, hsame.author, hsame.recipient]
    rcases hfit (hsame.isPrivate.symm.trans hprivate) with ⟨rfl, k, rfl, hk⟩ | ⟨rfl, k, rfl, hk⟩ | hrefused
    · exact .inl ⟨k, hk, hdecrypts.trans hcontent⟩
    · exact .inr ⟨k, hk, hdecrypts.trans hcontent⟩
    · exact absurd hcontent (hrefused secretKey' content)

/-! ## The protocol of the contents -/

/-- The table is sound, its contents are right, and the calls of `unlock_squeak` stay entitled. -/
def contents (ρ : Type) (ops : List (StoreOp L)) : Protocol (World ρ) Obs :=
  (integrity L ρ).also fun w => Contents L w.db ∧ Entitled ops w.db

/-- No content is new, and the profiles stay as they are. -/
def SameContents (w w' : World ρ) : Prop :=
  (∀ r' ∈ w'.db.squeaks, r'.content = none ∨ ∃ r ∈ w.db.squeaks, r.hash = r'.hash ∧ r.content = r'.content) ∧
    w'.db.profiles = w.db.profiles

theorem SameStore.sameContents {w w' : World ρ} (h : SameStore w w') : SameContents w w' :=
  ⟨fun r hr => .inr ⟨r, by rwa [h.1] at hr, rfl, rfl⟩, h.2⟩

theorem entitled_of_profiles {ops : List (StoreOp L)} {db db' : Db} (h : Entitled ops db)
    (hp : db'.profiles = db.profiles) : Entitled ops db' := by
  have hfind : ∀ id, findProfile id db' = findProfile id db := fun id => by unfold findProfile; rw [hp]
  intro hash a r hop squeak hcheck hhash hprivate
  have hcall := h hash a r hop squeak hcheck hhash hprivate
  unfold HoldsKey at hcall ⊢
  simp only [hfind]
  exact hcall

theorem SameContents.keeps {ops : List (StoreOp L)} {w w' : World ρ} (h : SameContents w w')
    (hw : Contents L w.db ∧ Entitled ops w.db) : Contents L w'.db ∧ Entitled ops w'.db := by
  refine ⟨fun r' hr' content hcontent => ?_, entitled_of_profiles hw.2 h.2⟩
  rcases h.1 r' hr' with hnone | ⟨r, hr, hhash, hsame⟩
  · rw [hnone] at hcontent
    cases hcontent
  · rw [← hhash]
    exact hw.1 r hr content (hsame.trans hcontent)

theorem Contents.setContent {db : Db} (h : Contents L db) {squeakHash : Bytes} {content : String}
    (hfor : ContentFor L squeakHash content) : Contents L (setSqueakDecryptedContent squeakHash content db) := by
  intro r hr c hc
  obtain ⟨r₀, hr₀, rfl⟩ := mem_updateWhere.1 hr
  split at hc
  · rename_i hhash
    cases hc
    rw [if_pos hhash, show r₀.hash = squeakHash by simpa using hhash]
    exact hfor
  · rename_i hhash
    rw [if_neg hhash]
    exact h r₀ hr₀ c hc

section Safe

variable {ops : List (StoreOp L)} {t : Nat}

/-- A safe program that writes no content is safe for the contents too. -/
theorem sure_of_sameContents {α : Type} {p : NodeM ρ α} (hp : p.Sure (integrity L ρ) t) (hR : p.Respects SameContents) :
    p.Sure (contents ρ ops) t :=
  fun v => (hp v).also (fun _ _ _ _ hj h => SameContents.keeps h hj) hR

/-- A statement that reads: what the invariant says of the state is known afterwards. -/
theorem safe_read {β : Type} {Q : Except Err β → View (World ρ) Obs → Prop} {f : Db → β} {v : View (World ρ) Obs}
    (h : ∀ v', (contents ρ ops).inv v' → Q (.ok (f v'.2.db)) v') : (query f).Safe (contents ρ ops) t Q v :=
  Prog.safe_atomic fun v' _ hi => ⟨hi, List.prefix_refl _, h v' hi⟩

/-- The squeak that is found is checked and has the hash, and keys found for the hash are valid for it. -/
theorem safe_getSqueak_checked (squeakHash : Bytes) (v : View (World ρ) Obs) :
    (getSqueak L squeakHash).Safe (contents ρ ops) t (fun x _ => ∀ squeak, x = .ok (some squeak) →
      L.checkSqueak squeak = .ok () ∧ getHash L squeak = squeakHash ∧
        ∃ db, Entitled ops db) v := by
  refine Prog.safe_bind (safe_read fun v' hi => ?_)
  dsimp only
  cases hrow : findSqueak squeakHash v'.2.db with
  | none => rintro squeak ⟨⟩
  | some row =>
    obtain ⟨hmem, hhash⟩ := findBy_some hrow
    obtain ⟨s, ho, -⟩ := hi.1.rows row hmem
    simp only [ho.bytes, Prog.ofExcept_ok, Prog.ret_bind]
    rintro squeak ⟨⟩
    exact ⟨ho.checked, ho.hash.symm.trans hhash, _, hi.2.2⟩

theorem safe_getSqueakSecretKey (hK : L.KeyLaws) (squeakHash : Bytes) (v : View (World ρ) Obs) :
    (SqueakStore.getSqueakSecretKey squeakHash : NodeM ρ _).Safe (contents ρ ops) t (fun x _ => ∀ secretKey,
      x = .ok (some secretKey) → KeyFor L squeakHash secretKey) v := by
  refine safe_read fun v' hi secretKey heq => ?_
  obtain ⟨row, hrow, hk⟩ := Option.bind_eq_some_iff.1 (Except.ok.inj heq)
  obtain ⟨hmem, hhash⟩ := findBy_some hrow
  obtain ⟨s, ho, -⟩ := hi.1.rows row hmem
  have hkey := keyFor_of_check hK (ho.key secretKey hk)
  rwa [← ho.hash, hhash] at hkey

/-- A profile that is found has the private key that the states allow for its id. -/
theorem safe_requireProfile {K : L.PrivateKey → Prop} (error : Nat → Err) {profileId : Option Nat}
    (hK : ∀ db, Entitled ops db → ∀ id, profileId = some id → ∀ row profile privateKey, findProfile id db = some row →
      parseSqueakProfile L row = .ok profile → profile.privateKey = some privateKey → K privateKey)
    (v : View (World ρ) Obs) :
    (requireProfile L error profileId).Safe (contents ρ ops) t (fun x _ => ∀ found, x = .ok found →
      (profileId = none ∧ found = none) ∨
        ∃ p, found = some p ∧ profileId.isSome ∧ ∀ privateKey, p.privateKey = some privateKey → K privateKey) v := by
  cases profileId with
  | none =>
    rintro found ⟨⟩
    exact .inl ⟨rfl, rfl⟩
  | some id =>
    refine Prog.safe_bind (Prog.safe_bind (safe_read fun v' hi => ?_))
    dsimp only
    cases hrow : findProfile id v'.2.db with
    | none => rintro found ⟨⟩
    | some row =>
      cases hprofile : parseSqueakProfile L row with
      | error e =>
        simp only [hprofile]
        rintro found ⟨⟩
      | ok profile =>
        simp only [hprofile]
        rintro found ⟨⟩
        exact .inr ⟨profile, rfl, rfl, fun k hk => hK _ hi.2.2 id rfl row profile k hrow hprofile hk⟩

theorem sure_unlockSqueak (hK : L.KeyLaws) (hD : L.DecryptLaws) (hH : L.HeaderLaws)
    {squeakHash : Bytes} {authorProfileId recipientProfileId : Option Nat}
    (hentitled : ∀ db, Entitled ops db → EntitledCall L squeakHash authorProfileId recipientProfileId db) :
    (unlockSqueak L squeakHash authorProfileId recipientProfileId).Sure (contents ρ ops) t := by
  intro v
  unfold unlockSqueak
  refine Prog.safe_bind (Prog.safe_mono ?_ (safe_getSqueak_checked squeakHash v))
  rintro (e | squeak) v₁ hsqueak
  · trivial
  refine Prog.safe_bind (Prog.safe_mono ?_ (safe_getSqueakSecretKey hK squeakHash v₁))
  rintro (e | secretKey) v₂ hkey
  · trivial
  cases squeak with
  | none => trivial
  | some squeak =>
    cases secretKey with
    | none => trivial
    | some secretKey =>
      obtain ⟨hcheck, hhash, db, hdb⟩ := hsqueak squeak rfl
      have hvalid := hkey secretKey rfl squeak hhash
      -- the recipient's profile, and then the author's if there was none
      refine Prog.safe_bind (Prog.safe_mono ?_ (safe_requireProfile (K := fun k =>
        L.isPrivateMessage squeak = true → KeysFit L squeak none (some k)) _ ?_ v₂))
      · rintro (e | recipientProfile) v₃ hrecipient
        · trivial
        refine Prog.safe_bind (Prog.safe_mono ?_ (safe_requireProfile (K := fun k =>
          L.isPrivateMessage squeak = true → KeysFit L squeak (some k) none) _ ?_ v₃))
        · rintro (e | authorProfile) v₄ hauthor
          · trivial
          cases hcontent : SqueakCore.getDecryptedContent squeak secretKey authorProfile recipientProfile with
          | error e =>
            simp only [hcontent]
            trivial
          | ok content =>
            obtain ⟨hauthorKey, hrecipientKey, hdecrypted⟩ := privateKeys_of_decrypted hcontent
            have hfor : ContentFor L squeakHash content := by
              rw [← hhash]
              apply contentFor_of_decrypted hK hD hH hcheck hvalid hdecrypted
              intro hprivate
              rcases hrecipient recipientProfile rfl with ⟨hnone, rfl⟩ | ⟨p, rfl, -, hp⟩
              · rcases hauthor authorProfile rfl with ⟨hnone', rfl⟩ | ⟨p, rfl, -, hp⟩
                · have hcall := hentitled db hdb squeak hcheck hhash hprivate
                  rwa [hnone, show givenProfile authorProfileId = none from hnone'] at hcall
                · obtain ⟨k, hk⟩ := hauthorKey p rfl
                  rw [Option.bind_some, hk]
                  exact hp k hk hprivate
              · rcases hauthor authorProfile rfl with ⟨-, rfl⟩ | ⟨p', rfl, hsome, -⟩
                · obtain ⟨k, hk⟩ := hrecipientKey p rfl
                  rw [Option.bind_some, hk]
                  exact hp k hk hprivate
                · cases hsome
            simp only [hcontent, Prog.ofExcept_ok, Prog.ret_bind]
            refine Prog.safe_atomic fun v' _ hi => ⟨⟨?_, ?_, ?_⟩, List.prefix_refl _, trivial⟩
            · have hshrinks := shrinks_updateSqueak (fun r => stable_core.content r (some content)) squeakHash v'.2
              exact (integrity_allows.ignores fun _ _ h => h) v' _ hi.1 hshrinks |>.1
            · exact hi.2.1.setContent hfor
            · exact hi.2.2
        · intro db hdb id hid row profile privateKey hrow hprofile hk hprivate
          have hcall := hentitled db hdb squeak hcheck hhash hprivate
          rcases hrecipient recipientProfile rfl with ⟨hnone, rfl⟩ | ⟨p, rfl, -, -⟩
          · rw [hnone, show givenProfile authorProfileId = some id from hid] at hcall
            exact hcall row profile privateKey hrow hprofile hk
          · cases hid
      · intro db hdb id hid row profile privateKey hrow hprofile hk hprivate
        have hcall := hentitled db hdb squeak hcheck hhash hprivate
        rw [hid] at hcall
        exact hcall row profile privateKey hrow hprofile hk

/-- A program that only shrinks the table and writes no content. -/
theorem sure_of_shrinks {α : Type} {p : NodeM ρ α} (hs : p.Respects (Shrinks core)) (hR : p.Respects SameContents) :
    p.Sure (contents ρ ops) t :=
  sure_of_sameContents (Prog.Within.sure hs integrity_allows) hR

/-- A change of a row other than that of its content. -/
theorem sameContents_update {f : SqueakRow → SqueakRow} (hash : ∀ r, (f r).hash = r.hash)
    (content : ∀ r, (f r).content = r.content) (h : Bytes) (w : World ρ) :
    SameContents w { w with db := updateSqueak h f w.db } := by
  refine ⟨fun r' hr' => ?_, rfl⟩
  obtain ⟨r, hr, rfl⟩ := mem_updateWhere.1 hr'
  split
  · exact .inr ⟨r, hr, (hash r).symm, (content r).symm⟩
  · exact .inr ⟨r, hr, rfl, rfl⟩

theorem sure_saveSecretKey_contents (hK : L.KeyLaws) (hD : L.DecryptLaws) (hH : L.HeaderLaws)
    (squeakHash secretKey : Bytes) :
    (saveSecretKey L squeakHash secretKey).Sure (contents ρ ops) t := by
  intro v
  unfold saveSecretKey saveSecretKeyWith
  refine Prog.safe_bind (Prog.safe_mono ?_ (safe_getSqueak_checked squeakHash v))
  rintro (e | squeak) v₁ hsqueak
  · trivial
  cases squeak with
  | none => trivial
  | some squeak =>
    obtain ⟨hcheck, hhash, -⟩ := hsqueak squeak rfl
    cases hvalid : L.checkSqueakSecretKey squeak secretKey with
    | error e =>
      simp only [hvalid]
      trivial
    | ok _ =>
      simp only [hvalid, Prog.ofExcept_ok, Prog.ret_bind]
      have hkey : KeyFor L squeakHash secretKey := hhash ▸ keyFor_of_check hK hvalid
      have hupdate : (update (setSqueakSecretKey squeakHash secretKey) : NodeM ρ Unit).Respects SameContents := by
        exact within_update fun w =>
          sameContents_update (f := fun r => { r with secretKey := some secretKey }) (fun _ => rfl)
            (fun _ => rfl) squeakHash w
      have hsafe : (update (setSqueakSecretKey squeakHash secretKey) : NodeM ρ Unit).Sure (integrity L ρ) t := fun v =>
        Prog.safe_atomic fun v' _ hi => ⟨SqueaksSound.setSqueakSecretKey hi hkey, List.prefix_refl _, trivial⟩
      refine Prog.safe_bind (Prog.safe_mono ?_ (sure_of_sameContents hsafe hupdate v₁))
      rintro (e | _) v₂ -
      · trivial
      dsimp only
      split
      · trivial
      · rename_i hpublic
        refine sure_unlockSqueak hK hD hH (fun db _ squeak' hcheck' hhash' hprivate => ?_) v₂
        -- every squeak with this hash is public
        have hsame := hH.header squeak' squeak (List.reverse_injective (hhash'.trans hhash.symm))
        exact absurd (hsame.isPrivate.symm.trans hprivate) hpublic

/-- Every operation on squeaks that are already made keeps the contents right. -/
theorem sure_contents (hC : L.CodecLaws) (hK : L.KeyLaws) (hD : L.DecryptLaws) (hH : L.HeaderLaws) (N : Node L ρ)
    {op : StoreOp L} (hop : op.Given) (hmem : op ∈ ops) : (op.program N).Sure (contents ρ ops) t := by
  have hsame : ∀ {β : Type} (stmt : World ρ → β × World ρ), (∀ w, SameStore w (stmt w).2) →
      (Prog.atomic stmt : NodeM ρ β).Sure (contents ρ ops) t := fun stmt h =>
    sure_of_shrinks (Prog.within_atomic fun w => SameSqueaks.shrinks (h w).1)
      (Prog.within_atomic fun w => SameStore.sameContents (h w))
  have hupdate : ∀ (f : SqueakRow → SqueakRow) h, (∀ r, (f r).hash = r.hash) → (∀ r, (f r).content = r.content) →
      (∀ r, core (f r) = core r) → (update (updateSqueak h f) : NodeM ρ Unit).Sure (contents ρ ops) t :=
    fun f h hash content hcore => sure_of_shrinks (within_update fun w => shrinks_updateSqueak hcore h w)
      (within_update fun w => sameContents_update hash content h w)
  apply closed_given Prog.closed_sure hsame
  · exact fun h time =>
      hupdate (fun r => { r with likedTimeMs := some time }) h (fun _ => rfl) (fun _ => rfl) fun _ => rfl
  · exact fun h => hupdate (fun r => { r with likedTimeMs := none }) h (fun _ => rfl) (fun _ => rfl) fun _ => rfl
  · intro h
    apply sure_of_shrinks (within_update fun w => shrinks_deleteSqueak core h w)
    exact within_update fun w => ⟨fun r hr => .inr ⟨r, (mem_deleteWhere.1 hr).1, rfl, rfl⟩, rfl⟩
  · intro squeak
    apply sure_of_sameContents (sure_saveSqueak hC N squeak)
    apply within_saveSqueak N squeak (fun _ _ _ h => SameStore.sameContents h)
    intro w row _ hrow
    refine ⟨fun r hr => ?_, rfl⟩
    rcases mem_insertUnique hr with hr | ⟨rfl, -⟩
    · exact .inr ⟨r, hr, rfl, rfl⟩
    · exact .inl hrow
  · exact sure_saveSecretKey_contents hK hD hH
  · exact hop
  · rintro h a r rfl
    exact sure_unlockSqueak hK hD hH fun db hdb => hdb h a r hmem

end Safe

/-! ## Content and key -/

/-- A row with a content has a key, and the content is what its squeak decrypts to under that key. -/
def ContentKeyed (L : Squeaklib) (rows : List SqueakRow) : Prop :=
  ∀ r ∈ rows, ∀ content, r.content = some content → ∃ secretKey squeak,
    r.secretKey = some secretKey ∧ L.deserialize r.squeak = .ok squeak ∧ Decrypts L squeak secretKey content

/-- Only rows with a key get another content. -/
def KeyedWrites (w w' : World ρ) : Prop :=
  ∀ r ∈ w.db.squeaks, ∀ r' ∈ w'.db.squeaks, r'.hash = r.hash → r'.content ≠ r.content → r.secretKey ≠ none

section Run

variable {N : Node L ρ} {ops : List (StoreOp L)} {w₀ : World ρ} {history : List (Pool (World ρ) Obs Err)}
  {P : Pool (World ρ) Obs Err}

/-- What the rest of the node does meanwhile: anything but to squeaks, and such that the calls of
`unlock_squeak` stay entitled. -/
def Elsewhere (ops : List (StoreOp L)) (w w' : World ρ) : Prop := SameSqueaks w w' ∧ Entitled ops w'.db

theorem contents_of_run (hC : L.CodecLaws) (hK : L.KeyLaws) (hD : L.DecryptLaws) (hH : L.HeaderLaws)
    (hops : ∀ op ∈ ops, op.Given) (hempty : w₀.db.squeaks = []) (hentitled : Entitled ops w₀.db)
    (hr : Pool.Run (Elsewhere ops) (.start w₀ (ops.map (StoreOp.program N))) history P) :
    (contents ρ ops).inv P.view := by
  have hstart : (Pool.start w₀ (ops.map (StoreOp.program N))).AllSafe (contents ρ ops) fun _ _ _ => True := by
    refine ⟨⟨?_, ?_, hentitled⟩, fun i p hp => ?_⟩
    · show SqueaksSound L [] w₀.db.squeaks
      rw [hempty]
      exact ⟨List.nodup_nil, fun r hr => by cases hr⟩
    · intro r hr
      rw [show (Pool.start w₀ (ops.map (StoreOp.program N))).view.2.db.squeaks = [] from hempty] at hr
      cases hr
    · change (ops.map (StoreOp.program N))[i]? = some p at hp
      rw [List.getElem?_map] at hp
      obtain ⟨op, hop, rfl⟩ := Option.map_eq_some_iff.1 hp
      have hmem := List.mem_of_getElem? hop
      exact sure_contents hC hK hD hH N (hops op hmem) hmem _
  have henv : (contents ρ ops).Ignores (Elsewhere ops) := by
    intro v w hi hw
    have hsound := integrity_allows.ignores (fun _ _ h => SameSqueaks.shrinks h) v w hi.1 hw.1
    refine ⟨⟨hsound.1, fun r hr => ?_, hw.2⟩, hsound.2⟩
    rw [show w.db.squeaks = v.2.db.squeaks from hw.1] at hr
    exact hi.2.1 r hr
  exact (hr.allSafe henv (fun _ _ _ _ _ _ => trivial) hstart).1.inv

/-- Where the keys of the rows are there, so is the rest. -/
theorem contentKeyed_of_keys {w : World ρ} {trace : List (Nat × Obs)} (hsound : SqueaksSound L trace w.db.squeaks)
    (hcontents : Contents L w.db) (hkeys : ∀ r ∈ w.db.squeaks, r.content ≠ none → r.secretKey ≠ none) :
    ContentKeyed L w.db.squeaks := by
  intro r hr content hcontent
  obtain ⟨secretKey, hkey⟩ := Option.ne_none_iff_exists'.1 (hkeys r hr (by rw [hcontent]; simp))
  obtain ⟨squeak, ho, -⟩ := hsound.rows r hr
  exact ⟨secretKey, squeak, hkey, ho.bytes, hcontents r hr content hcontent squeak secretKey ho.checked ho.hash.symm
    (ho.key secretKey hkey)⟩

/-- In a run of concurrent operations from an empty table, every content has its key in every state if
and only if only rows with a key get another content. -/
theorem content_keyed_iff (hC : L.CodecLaws) (hK : L.KeyLaws) (hD : L.DecryptLaws) (hH : L.HeaderLaws)
    (hops : ∀ op ∈ ops, op.Given) (hempty : w₀.db.squeaks = []) (hentitled : Entitled ops w₀.db)
    (hr : Pool.Run (Elsewhere ops) (.start w₀ (ops.map (StoreOp.program N))) history P) :
    (∀ x ∈ Pool.steps history P, KeyedWrites x.1.shared x.2.shared) ↔
      ∀ Q ∈ history ++ [P], ContentKeyed L Q.shared.db.squeaks := by
  have hprograms : ∀ p ∈ (Pool.start w₀ (ops.map (StoreOp.program N))).threads, p.Respects WritesOne := by
    intro p hp
    obtain ⟨op, hop, rfl⟩ := List.mem_map.1 hp
    exact writesOne_program N (hops op hop)
  have henv : ∀ w w' : World ρ, Elsewhere ops w w' → WritesOne w w' := fun _ _ h => h.1.writesOne
  apply hr.invariant_iff (C := fun Q Q' => KeyedWrites Q.shared Q'.shared)
    (I := fun Q => ContentKeyed L Q.shared.db.squeaks)
  · intro r hr
    rw [show (Pool.start w₀ (ops.map (StoreOp.program N))).shared.db.squeaks = [] from hempty] at hr
    cases hr
  intro h Q Q' hQ hstep hbefore
  obtain ⟨-, t, o, -, hwrites⟩ := hstep.within henv (hQ.within henv hprograms)
  have hunique := (contents_of_run hC hK hD hH hops hempty hentitled hQ).1.unique
  have hafter := contents_of_run hC hK hD hH hops hempty hentitled (hQ.snoc hstep)
  have hkeyed : ∀ r ∈ Q.shared.db.squeaks, r.content ≠ none → r.secretKey ≠ none := by
    intro r hr hcontent
    obtain ⟨content, hcontent⟩ := Option.ne_none_iff_exists'.1 hcontent
    obtain ⟨secretKey, -, hkey, -⟩ := hbefore r hr content hcontent
    rw [hkey]
    simp
  constructor
  · intro hwhere
    apply contentKeyed_of_keys hafter.1 hafter.2.1
    intro r' hr' hcontent
    rcases hwrites r' hr' with hnone | ⟨r, hr, hhash, ⟨hsame, hkey⟩ | hkey⟩
    · exact absurd hnone hcontent
    · exact hkey (hkeyed r hr (hsame ▸ hcontent))
    · rw [hkey]
      by_cases hsame : r'.content = r.content
      · exact hkeyed r hr (hsame ▸ hcontent)
      · exact hwhere r hr r' hr' hhash.symm hsame
  · intro hkeys r hr r' hr' hhash hcontent hnone
    -- the row had no content, so it has one now, and a key, which the same step did not write
    have hempty' : r.content = none := by
      by_contra hsome
      exact hkeyed r hr hsome hnone
    have hsome : r'.content ≠ none := fun h => hcontent (h.trans hempty'.symm)
    obtain ⟨content, hsome'⟩ := Option.ne_none_iff_exists'.1 hsome
    obtain ⟨secretKey, -, hkey', -⟩ := hkeys r' hr' content hsome'
    rcases hwrites r' hr' with hnone' | ⟨r₁, hr₁, hhash₁, ⟨hsame, -⟩ | hkey⟩
    · exact hsome hnone'
    · obtain rfl := hunique.eq hr₁ hr (hhash₁.trans hhash)
      exact hcontent hsame
    · obtain rfl := hunique.eq hr₁ hr (hhash₁.trans hhash)
      rw [hkey, hnone] at hkey'
      cases hkey'

end Run

/-- A squeak and then its key are saved. -/
theorem content_keyed_sample : ∃ (history : List (Pool (World Sample.Outside) Obs Err))
    (P : Pool (World Sample.Outside) Obs Err),
    P.shared.db.squeaks.map SqueakRow.content = [some "x"] ∧
      ((∀ x ∈ Pool.steps history P, KeyedWrites x.1.shared x.2.shared) ↔
        ∀ Q ∈ history ++ [P], ContentKeyed Sample.squeaklib Q.shared.db.squeaks) := by
  let ops : List (StoreOp Sample.squeaklib) :=
    [.saveSqueak Sample.squeak, .saveSecretKey Sample.squeak.val.reverse (Sample.scalarToBytes 5)]
  obtain ⟨history, hr⟩ := Pool.Run.exec (List.replicate 5 0 ++ List.replicate 5 1)
    (.init : Pool.Run (Elsewhere ops) (.start Sample.world (ops.map (StoreOp.program (Sample.node 1)))) _ _)
  refine ⟨history, _, by decide +kernel,
    content_keyed_iff Sample.codecLaws Sample.keyLaws Sample.decryptLaws Sample.headerLaws ?_ rfl ?_ hr⟩
  · intro op hop
    rcases List.mem_cons.1 hop with rfl | hop
    · trivial
    · rw [List.mem_singleton.1 hop]
      trivial
  · intro h a r hop
    simp [ops] at hop

/-- The squeak is deleted and saved again between the reads and the UPDATE of a call that unlocks it: the
new row gets the content, and has no key. -/
theorem content_without_key : ∃ (history : List (Pool (World Sample.Outside) Obs Err))
    (P : Pool (World Sample.Outside) Obs Err),
    Pool.Run SameSqueaks (.start Sample.world
      ([StoreOp.saveSqueak Sample.squeak, .saveSecretKey Sample.squeak.val.reverse (Sample.scalarToBytes 5),
        .unlockSqueak Sample.squeak.val.reverse none none, .deleteSqueak Sample.squeak.val.reverse,
        .saveSqueak Sample.squeak].map (StoreOp.program (Sample.node 1)))) history P ∧
      ¬ ContentKeyed Sample.squeaklib P.shared.db.squeaks := by
  let ops : List (StoreOp Sample.squeaklib) :=
    [.saveSqueak Sample.squeak, .saveSecretKey Sample.squeak.val.reverse (Sample.scalarToBytes 5),
      .unlockSqueak Sample.squeak.val.reverse none none, .deleteSqueak Sample.squeak.val.reverse,
      .saveSqueak Sample.squeak]
  obtain ⟨history, hr⟩ :=
    Pool.Run.exec (List.replicate 5 0 ++ List.replicate 5 1 ++ [2, 2, 3] ++ List.replicate 5 4 ++ [2])
    (.init : Pool.Run SameSqueaks (.start Sample.world (ops.map (StoreOp.program (Sample.node 1)))) _ _)
  refine ⟨history, _, hr, fun hkeyed => ?_⟩
  have hrows : ((Pool.start Sample.world (ops.map (StoreOp.program (Sample.node 1)))).exec
      (List.replicate 5 0 ++ List.replicate 5 1 ++ [2, 2, 3] ++ List.replicate 5 4 ++ [2])).shared.db.squeaks =
        [{ Sample.unlockedRow [] "x" with secretKey := none }] := by decide +kernel
  rw [hrows] at hkeyed
  obtain ⟨secretKey, -, hkey, -⟩ := hkeyed _ List.mem_cons_self "x" rfl
  cases hkey

end Squeaknode
