/-
What the operations of the store do when no other operation runs in between: the outcome of each
as a case distinction on the state it starts in.
-/
import Squeaknode.Node.SqueakStore

namespace Squeaknode

open Interleave Relational SqueakDb SqueakStore

variable {L : Squeaklib} {ρ : Type}

/-! ## Looking up squeaks -/

theorem findSqueak_some {h : Bytes} {db : Db} {r : SqueakRow} (hr : findSqueak h db = some r) :
    r ∈ db.squeaks ∧ r.hash = h := findBy_some hr

theorem findSqueak_updateSqueak {h : Bytes} {f : SqueakRow → SqueakRow} (hf : ∀ r, (f r).hash = r.hash) (db : Db) :
    findSqueak h (updateSqueak h f db) = (findSqueak h db).map f := by
  have hfind : findSqueak h (updateSqueak h f db) = (findSqueak h db).map fun r => if r.hash == h then f r else r :=
    findBy_updateWhere hf h db.squeaks
  rw [hfind]
  cases hr : findSqueak h db with
  | none => rfl
  | some r => simp [(findSqueak_some hr).2]

/-- The squeak of a row that was looked up. -/
def squeakOfRow (L : Squeaklib) : Option SqueakRow → Except Err (Option L.CSqueak)
  | none => .ok none
  | some row => some <$> L.deserialize row.squeak

theorem run_getSqueak (squeakHash : Bytes) (w : World ρ) :
    (getSqueak L squeakHash).run w = (squeakOfRow L (findSqueak squeakHash w.db), w) := by
  unfold getSqueak
  rw [Prog.run_bind, run_query]
  cases findSqueak squeakHash w.db with
  | none => rfl
  | some row =>
    show (Prog.ofExcept (L.deserialize row.squeak) >>= _ : NodeM ρ _).run w = (some <$> L.deserialize row.squeak, w)
    cases L.deserialize row.squeak <;> rfl

theorem run_getSqueakSecretKey (squeakHash : Bytes) (w : World ρ) :
    (SqueakStore.getSqueakSecretKey squeakHash).run w =
      (.ok ((findSqueak squeakHash w.db).bind SqueakRow.secretKey), w) :=
  rfl

section Found

variable {squeakHash : Bytes} {r : SqueakRow} {w : World ρ}

theorem run_getSqueak_found (hr : findSqueak squeakHash w.db = some r) {squeak : L.CSqueak}
    (hs : L.deserialize r.squeak = .ok squeak) : (getSqueak L squeakHash).run w = (.ok (some squeak), w) := by
  rw [run_getSqueak, hr]
  simp [squeakOfRow, hs]

theorem run_getSqueakSecretKey_found (hr : findSqueak squeakHash w.db = some r) {secretKey : Bytes}
    (hk : r.secretKey = some secretKey) :
    (SqueakStore.getSqueakSecretKey squeakHash : NodeM ρ _).run w = (.ok (some secretKey), w) := by
  rw [run_getSqueakSecretKey, hr]
  simp [hk]

end Found

/-! ## Unlocking -/

/-- Unlocking without a profile stores the decrypted content. -/
theorem run_unlockSqueak_public {squeakHash secretKey : Bytes} {r : SqueakRow} {squeak : L.CSqueak} {w : World ρ}
    (hr : findSqueak squeakHash w.db = some r) (hs : L.deserialize r.squeak = .ok squeak)
    (hk : r.secretKey = some secretKey) :
    (unlockSqueak L squeakHash none none).run w =
      match L.getDecryptedContentStr squeak secretKey none none with
      | .ok content => (.ok (), { w with db := setSqueakDecryptedContent squeakHash content w.db })
      | .error e => (.error e, w) := by
  unfold unlockSqueak
  rw [Prog.run_bind_of_ok (run_getSqueak_found hr hs), Prog.run_bind_of_ok (run_getSqueakSecretKey_found hr hk)]
  simp only [givenProfile, requireProfile, Prog.pure_eq, Prog.ret_bind, Option.isSome_none, Bool.false_eq_true,
    if_false, SqueakCore.getDecryptedContent, Option.any_none, Option.bind_none, Prog.run_bind, Prog.run_ofExcept,
    run_update]
  cases L.getDecryptedContentStr squeak secretKey none none <;> rfl

/-! ## Saving a key -/

/-- The database after a valid key was saved, with the content of a public squeak that decrypts. -/
def withKey (L : Squeaklib) (squeakHash secretKey : Bytes) (squeak : L.CSqueak) (db : Db) : Db :=
  if L.isPrivateMessage squeak then setSqueakSecretKey squeakHash secretKey db
  else match L.getDecryptedContentStr squeak secretKey none none with
    | .ok content => setSqueakDecryptedContent squeakHash content (setSqueakSecretKey squeakHash secretKey db)
    | .error _ => setSqueakSecretKey squeakHash secretKey db

/-- What saving a valid key returns. -/
def keyOutcome (L : Squeaklib) (secretKey : Bytes) (squeak : L.CSqueak) : Except Err Unit :=
  if L.isPrivateMessage squeak then .ok ()
  else (fun _ => ()) <$> L.getDecryptedContentStr squeak secretKey none none

/-- Saving a key changes no other table. -/
theorem withKey_eq (squeakHash secretKey : Bytes) (squeak : L.CSqueak) (db : Db) :
    withKey L squeakHash secretKey squeak db =
      { db with squeaks := (withKey L squeakHash secretKey squeak db).squeaks } := by
  unfold withKey
  split
  · rfl
  · cases L.getDecryptedContentStr squeak secretKey none none <;> rfl

theorem run_saveSecretKey_missing {squeakHash : Bytes} {w : World ρ} (secretKey : Bytes)
    (hr : findSqueak squeakHash w.db = none) :
    (saveSecretKey L squeakHash secretKey).run w = (.error (.exception "Squeakdoes not exist."), w) := by
  unfold saveSecretKey saveSecretKeyWith
  rw [Prog.run_bind, run_getSqueak, hr]
  rfl

/-- A key that is not valid is not saved, and no listener hears of it. -/
theorem run_saveSecretKeyWith_invalid (handleNewItem : L.CSqueak → NodeM ρ Unit) {squeakHash : Bytes}
    (secretKey : Bytes) {r : SqueakRow} {w : World ρ} (hr : findSqueak squeakHash w.db = some r)
    (hbad : ∀ squeak, L.deserialize r.squeak = .ok squeak → L.checkSqueakSecretKey squeak secretKey ≠ .ok ()) :
    ∃ e, (saveSecretKeyWith handleNewItem squeakHash secretKey).run w = (.error e, w) := by
  unfold saveSecretKeyWith
  rw [Prog.run_bind, run_getSqueak, hr]
  cases hs : L.deserialize r.squeak with
  | error e => exact ⟨e, by simp [squeakOfRow, hs]⟩
  | ok squeak =>
    cases hc : L.checkSqueakSecretKey squeak secretKey with
    | error e => exact ⟨e, by simp [squeakOfRow, hs, hc]⟩
    | ok _ => exact absurd hc (hbad squeak hs)

theorem run_saveSecretKey_invalid {squeakHash : Bytes} (secretKey : Bytes) {r : SqueakRow} {w : World ρ}
    (hr : findSqueak squeakHash w.db = some r)
    (hbad : ∀ squeak, L.deserialize r.squeak = .ok squeak → L.checkSqueakSecretKey squeak secretKey ≠ .ok ()) :
    ∃ e, (saveSecretKey L squeakHash secretKey).run w = (.error e, w) :=
  run_saveSecretKeyWith_invalid _ secretKey hr hbad

/-- A valid key is saved before the listeners hear of it, and the squeak is unlocked after that, unless one of them
raises. -/
theorem run_saveSecretKeyWith_valid (handleNewItem : L.CSqueak → NodeM ρ Unit)
    (hquiet : ∀ squeak w, ((handleNewItem squeak).run w).2.db = w.db) {squeakHash secretKey : Bytes} {r : SqueakRow}
    {squeak : L.CSqueak} {w : World ρ} (hr : findSqueak squeakHash w.db = some r)
    (hs : L.deserialize r.squeak = .ok squeak) (hc : L.checkSqueakSecretKey squeak secretKey = .ok ()) :
    (saveSecretKeyWith handleNewItem squeakHash secretKey).run w =
      match (handleNewItem squeak).run { w with db := setSqueakSecretKey squeakHash secretKey w.db } with
      | (.error e, w') => (.error e, w')
      | (.ok _, w') =>
        (keyOutcome L secretKey squeak, { w' with db := withKey L squeakHash secretKey squeak w.db }) := by
  have hkept := hquiet squeak { w with db := setSqueakSecretKey squeakHash secretKey w.db }
  unfold saveSecretKeyWith
  rw [Prog.run_bind_of_ok (run_getSqueak_found hr hs)]
  simp only [hc, Prog.ofExcept_ok, Prog.pure_eq, Prog.ret_bind, Prog.run_bind, run_update]
  rcases htold : (handleNewItem squeak).run { w with db := setSqueakSecretKey squeakHash secretKey w.db } with
    ⟨e | _, db, env⟩
  · rfl
  rw [htold] at hkept
  obtain rfl : db = setSqueakSecretKey squeakHash secretKey w.db := hkept
  unfold keyOutcome withKey
  cases hp : L.isPrivateMessage squeak with
  | true => rfl
  | false =>
    have hr' : findSqueak squeakHash (setSqueakSecretKey squeakHash secretKey w.db) =
        some { r with secretKey := some secretKey } := by
      unfold setSqueakSecretKey
      rw [findSqueak_updateSqueak (f := fun r => { r with secretKey := some secretKey }) (fun _ => rfl), hr]
      rfl
    simp only [Bool.false_eq_true, if_false]
    rw [run_unlockSqueak_public (w := ⟨setSqueakSecretKey squeakHash secretKey w.db, env⟩) hr' hs rfl]
    cases L.getDecryptedContentStr squeak secretKey none none <;> rfl

theorem run_saveSecretKey_valid {squeakHash secretKey : Bytes} {r : SqueakRow} {squeak : L.CSqueak} {w : World ρ}
    (hr : findSqueak squeakHash w.db = some r) (hs : L.deserialize r.squeak = .ok squeak)
    (hc : L.checkSqueakSecretKey squeak secretKey = .ok ()) :
    (saveSecretKey L squeakHash secretKey).run w =
      (keyOutcome L secretKey squeak, { w with db := withKey L squeakHash secretKey squeak w.db }) :=
  run_saveSecretKeyWith_valid (fun _ => return ()) (fun _ _ => rfl) hr hs hc

/-- The content column after a key was saved. -/
def keyContent (L : Squeaklib) (secretKey : Bytes) (squeak : L.CSqueak) (content : Option String) : Option String :=
  if L.isPrivateMessage squeak then content
  else match L.getDecryptedContentStr squeak secretKey none none with
    | .ok content => some content
    | .error _ => content

/-- A row after a key was saved to it. -/
def rowWithKey (L : Squeaklib) (secretKey : Bytes) (squeak : L.CSqueak) (r : SqueakRow) : SqueakRow :=
  { r with secretKey := some secretKey, content := keyContent L secretKey squeak r.content }

theorem withKey_squeaks (squeakHash secretKey : Bytes) (squeak : L.CSqueak) (db : Db) :
    (withKey L squeakHash secretKey squeak db).squeaks =
      updateWhere (fun r => r.hash == squeakHash) (rowWithKey L secretKey squeak) db.squeaks := by
  unfold withKey
  by_cases hprivate : L.isPrivateMessage squeak = true
  · have hrow : rowWithKey L secretKey squeak = fun r => { r with secretKey := some secretKey } := by
      funext r
      simp [rowWithKey, keyContent, hprivate]
    rw [if_pos hprivate, hrow]
    rfl
  · rw [if_neg hprivate]
    rcases hd : L.getDecryptedContentStr squeak secretKey none none with e | content
    · have hrow : rowWithKey L secretKey squeak = fun r => { r with secretKey := some secretKey } := by
        funext r
        simp [rowWithKey, keyContent, hprivate, hd]
      rw [hrow]
      rfl
    · have hrow : rowWithKey L secretKey squeak =
          (fun r => { r with content := some content }) ∘ fun r => { r with secretKey := some secretKey } := by
        funext r
        simp [rowWithKey, keyContent, hprivate, hd]
      rw [hrow, ← updateWhere_updateWhere (f := fun r : SqueakRow => { r with secretKey := some secretKey })
        (fun _ => rfl)]
      rfl

theorem findSqueak_withKey {squeakHash : Bytes} {r : SqueakRow} {db : Db} (hr : findSqueak squeakHash db = some r)
    (secretKey : Bytes) (squeak : L.CSqueak) :
    findSqueak squeakHash (withKey L squeakHash secretKey squeak db) = some (rowWithKey L secretKey squeak r) := by
  have hupdate : findSqueak squeakHash (withKey L squeakHash secretKey squeak db) =
      findSqueak squeakHash (updateSqueak squeakHash (rowWithKey L secretKey squeak) db) := by
    unfold findSqueak updateSqueak
    rw [withKey_squeaks]
  rw [hupdate, findSqueak_updateSqueak (f := rowWithKey L secretKey squeak) (fun _ => rfl), hr]
  rfl

/-- Unlocking with the recipient's profile stores what its private key decrypts. -/
theorem run_unlockSqueak_recipient {squeakHash secretKey : Bytes} {r : SqueakRow} {squeak : L.CSqueak} {id : Nat}
    {row : ProfileRow} {profile : SqueakProfile L} {k : L.PrivateKey} {content : String} {w : World ρ}
    (hr : findSqueak squeakHash w.db = some r) (hs : L.deserialize r.squeak = .ok squeak)
    (hk : r.secretKey = some secretKey) (hid : id ≠ 0) (hrow : findProfile id w.db = some row)
    (hprofile : parseSqueakProfile L row = .ok profile) (hkey : profile.privateKey = some k)
    (hcontent : L.getDecryptedContentStr squeak secretKey none (some k) = .ok content) :
    (unlockSqueak L squeakHash none (some id)).run w =
      (.ok (), { w with db := setSqueakDecryptedContent squeakHash content w.db }) := by
  have hgiven : givenProfile (some id) = some id := by
    unfold givenProfile
    split
    · rename_i heq; cases heq; exact absurd rfl hid
    · rfl
  have hfound : ∀ error, (requireProfile L error (some id)).run w = (.ok (some profile), w) := by
    intro error
    simp only [requireProfile, getSqueakProfile, Prog.run_bind, run_query, hrow, Prog.run_ofExcept, hprofile]
    rfl
  unfold unlockSqueak
  rw [Prog.run_bind_of_ok (run_getSqueak_found hr hs), Prog.run_bind_of_ok (run_getSqueakSecretKey_found hr hk)]
  simp only [hgiven, Prog.run_bind, hfound, Option.isSome_some, if_true]
  simp only [requireProfile, Prog.pure_eq, Prog.run_ret, SqueakCore.getDecryptedContent, Option.any_none,
    Option.any_some, hkey, Option.isNone_some, Bool.false_eq_true, if_false, Option.bind_none, Option.bind_some,
    hcontent, Prog.run_ofExcept, run_update]

/-! ## Saving a squeak -/

/-- The header that the chain has for the squeak, if the squeak's block hash is the chain's. -/
def headerOf (N : Node L ρ) (squeak : L.CSqueak) (env : ρ) : Except Err BlockHeader :=
  match (N.bitcoinClient.getBlockInfoByHeight (L.nBlockHeight squeak) env).1 with
  | .error e => .error e
  | .ok info => if L.hashBlock squeak ≠ info.blockHash then .error (.exception "Block hash incorrect.")
    else .ok info.blockHeader

theorem run_getBlockHeader (N : Node L ρ) (squeak : L.CSqueak) (w : World ρ) :
    (SqueakCore.getBlockHeader N squeak).run w = (headerOf N squeak w.env,
      { w with env := (N.bitcoinClient.getBlockInfoByHeight (L.nBlockHeight squeak) w.env).2 }) := by
  unfold SqueakCore.getBlockHeader SqueakCore.getBlockInfoByHeight headerOf
  simp only [Prog.run_bind, Prog.run_observed, Prog.run_ofExcept]
  cases (N.bitcoinClient.getBlockInfoByHeight (L.nBlockHeight squeak) w.env).1 with
  | error e => rfl
  | ok info =>
    by_cases h : L.hashBlock squeak = info.blockHash <;> simp [h]

/-- The limits leave room for the squeak. -/
def HasRoom (N : Node L ρ) (squeak : L.CSqueak) (db : Db) : Prop :=
  SqueakDb.getNumberOfSqueaks db < N.maxSqueaks ∧
    SqueakDb.numberOfSqueaksWithPublicKeyWithBlockHeight (L.publicKeyToBytes (L.getPubKey squeak))
      (L.nBlockHeight squeak) db < N.maxSqueaksPerPublicKeyPerBlock

/-- The world after the bitcoin client was asked for the squeak's block. -/
def afterHeader (N : Node L ρ) (squeak : L.CSqueak) (w : World ρ) : World ρ :=
  { w with env := (N.bitcoinClient.getBlockInfoByHeight (L.nBlockHeight squeak) w.env).2 }

/-- A squeak that passes all checks is inserted, unless its hash is there already. -/
theorem run_saveSqueak_valid {N : Node L ρ} {squeak : L.CSqueak} {w : World ρ} {header : BlockHeader}
    (hc : L.checkSqueak squeak = .ok ()) (hh : headerOf N squeak w.env = .ok header) (hroom : HasRoom N squeak w.db) :
    let now := N.timestampNowMs (afterHeader N squeak w).env
    (saveSqueak N squeak).run w =
      (.ok (SqueakDb.insertSqueak (squeakRow L now.1 (getHash L squeak) squeak header) w.db).1,
        ⟨(SqueakDb.insertSqueak (squeakRow L now.1 (getHash L squeak) squeak header) w.db).2, now.2⟩) := by
  unfold saveSqueak SqueakStore.getNumberOfSqueaks SqueakStore.numberOfSqueaksWithPublicKeyWithBlockHeight
    SqueakStore.insertSqueak
  simp only [hc, Prog.ofExcept_ok, Prog.ret_bind, Prog.run_bind, run_getBlockHeader, hh, Prog.run_observed,
    not_le.2 hroom.1, not_le.2 hroom.2, if_false, run_ask]
  rfl

/-- A squeak that fails a check is not inserted: the call raises and leaves the database alone. -/
theorem run_saveSqueak_invalid (N : Node L ρ) (squeak : L.CSqueak) (w : World ρ)
    (hbad : ¬ (L.checkSqueak squeak = .ok () ∧ (∃ header, headerOf N squeak w.env = .ok header) ∧
      HasRoom N squeak w.db)) :
    ∃ e env, (saveSqueak N squeak).run w = (.error e, { w with env := env }) := by
  unfold saveSqueak SqueakStore.getNumberOfSqueaks SqueakStore.numberOfSqueaksWithPublicKeyWithBlockHeight
  cases hc : L.checkSqueak squeak with
  | error e => exact ⟨e, w.env, rfl⟩
  | ok _ =>
    simp only [Prog.ofExcept_ok, Prog.ret_bind, Prog.run_bind, run_getBlockHeader]
    cases hh : headerOf N squeak w.env with
    | error e => exact ⟨e, _, rfl⟩
    | ok header =>
      simp only [Prog.run_observed]
      by_cases hn : N.maxSqueaks ≤ SqueakDb.getNumberOfSqueaks w.db
      · exact ⟨_, _, by simp only [hn, if_true]; rfl⟩
      · simp only [hn, if_false, Prog.run_bind, Prog.run_observed]
        by_cases hm : N.maxSqueaksPerPublicKeyPerBlock ≤ SqueakDb.numberOfSqueaksWithPublicKeyWithBlockHeight
            (L.publicKeyToBytes (L.getPubKey squeak)) (L.nBlockHeight squeak) w.db
        · exact ⟨_, _, by simp only [hm, if_true]; rfl⟩
        · exact absurd ⟨hc, ⟨header, hh⟩, not_le.1 hn, not_le.1 hm⟩ hbad

/-! ## Creating offers -/

/-- The offer that a seller records for an invoice. -/
def sentOfferOf (L : Squeaklib) (squeak : L.CSqueak) (nonce : Bytes) (priceMsat : Int) (peerAddress : PeerAddress)
    (invoice : Invoice) : SentOffer where
  sentOfferId := none
  squeakHash := getHash L squeak
  paymentHash := invoice.rHash
  nonce := nonce
  priceMsat := priceMsat
  paymentRequest := invoice.paymentRequest
  invoiceTime := invoice.creationDate
  invoiceExpiry := invoice.expiry
  peerAddress := peerAddress
  paid := false

/-- An offer is created when the key and the nonce add up and the lightning client makes an invoice for
the sum. -/
theorem run_createOffer_iff {N : Node L ρ} {squeak : L.CSqueak} {secretKey : Bytes} {peerAddress : PeerAddress}
    {priceMsat : Int} {w w' : World ρ} {o : SentOffer} :
    (SqueakCore.createOffer N squeak secretKey peerAddress priceMsat).run w = (.ok o, w') ↔
      ∃ preimage invoice env, SecretKeys.addTweak L secretKey (N.generateTweak w.env).1 = .ok preimage ∧
        N.lightningClient.createInvoice preimage priceMsat (N.generateTweak w.env).2 = (.ok invoice, env) ∧
        o = sentOfferOf L squeak (N.generateTweak w.env).1 priceMsat peerAddress invoice ∧
        w' = { w with env := env } := by
  unfold SqueakCore.createOffer
  rw [Prog.run_bind, run_ask]
  cases ht : SecretKeys.addTweak L secretKey (N.generateTweak w.env).1 with
  | error e => simp [ht]
  | ok preimage =>
    simp only [ht, Prog.ofExcept_ok, Prog.ret_bind, Prog.run_bind, run_call]
    rcases hi : N.lightningClient.createInvoice preimage priceMsat (N.generateTweak w.env).2 with ⟨e | invoice, env⟩
    · simp [hi]
    · simp [hi, sentOfferOf, eq_comm]

/-- The world after a sent offer was inserted. -/
def withSentOffer (N : Node L ρ) (o : SentOffer) (w : World ρ) : World ρ where
  db := { w.db with sentOffers :=
    ⟨w.db.sentOffers.rows ++ [sentOfferRow (N.timestampNowMs w.env).1 o (w.db.sentOffers.lastId + 1)],
      w.db.sentOffers.lastId + 1⟩ }
  env := (N.timestampNowMs w.env).2

theorem run_saveSentOffer_free {N : Node L ρ} {o : SentOffer} {w : World ρ}
    (hfree : ∀ r ∈ w.db.sentOffers.rows, r.paymentHash ≠ o.paymentHash) :
    (saveSentOffer N o).run w = (.ok (w.db.sentOffers.lastId + 1), withSentOffer N o w) := by
  have ht : taken SentOfferRow.paymentHash
      (sentOfferRow (N.timestampNowMs w.env).1 o (w.db.sentOffers.lastId + 1)).paymentHash w.db.sentOffers.rows =
        false :=
    taken_eq_false.2 hfree
  unfold saveSentOffer
  rw [Prog.run_bind, run_ask]
  simp only [Prog.run_bind, run_sql, insertSentOffer, Table.insert_of_free ht, Prog.run_ofExcept]
  rfl

/-- Without a squeak that can be read, or without its key, there is nothing to sell. -/
theorem run_getSentOfferForPeer_none {N : Node L ρ} {squeakHash : Bytes} {peerAddress : PeerAddress} {priceMsat : Int}
    {w : World ρ} (h : ∀ r squeak, findSqueak squeakHash w.db = some r → L.deserialize r.squeak = .ok squeak →
      r.secretKey = none) : (getSentOfferForPeer N squeakHash peerAddress priceMsat).run w =
      ((fun _ => none) <$> squeakOfRow L (findSqueak squeakHash w.db), w) := by
  unfold getSentOfferForPeer
  rw [Prog.run_bind, run_getSqueak]
  rcases hr : findSqueak squeakHash w.db with _ | r
  · rfl
  · cases hs : L.deserialize r.squeak with
    | error e => simp [squeakOfRow, hs]
    | ok squeak =>
      have hk : r.secretKey = none := h r squeak hr hs
      simp [squeakOfRow, hs, Prog.run_bind, run_getSqueakSecretKey, hr, hk]

section Created

variable {N : Node L ρ} {squeakHash secretKey : Bytes} {peerAddress : PeerAddress} {priceMsat : Int} {w w₁ : World ρ}
  {r : SqueakRow} {squeak : L.CSqueak} {o : SentOffer}

/-- An offer that was created and recorded is what the peer is going to get. -/
theorem run_getSentOfferForPeer_saved {w₂ : World ρ} {id : Nat}
    (hr : findSqueak squeakHash w.db = some r) (hs : L.deserialize r.squeak = .ok squeak)
    (hk : r.secretKey = some secretKey)
    (ho : (SqueakCore.createOffer N squeak secretKey peerAddress priceMsat).run w = (.ok o, w₁))
    (hsaved : (saveSentOffer N o).run w₁ = (.ok id, w₂)) :
    (getSentOfferForPeer N squeakHash peerAddress priceMsat).run w = (.ok (some o), w₂) := by
  have hcaught : ((some <$> SqueakCore.createOffer N squeak secretKey peerAddress priceMsat).catchWith
      fun _ => return none).run w = (.ok (some o), w₁) := by
    rw [Prog.run_catchWith, Prog.run_map, ho]
    rfl
  unfold getSentOfferForPeer
  rw [Prog.run_bind_of_ok (run_getSqueak_found hr hs), Prog.run_bind_of_ok (run_getSqueakSecretKey_found hr hk)]
  show Prog.run (Prog.catchWith _ _ >>= _) w = _
  rw [Prog.run_bind_of_ok hcaught]
  simp only [Prog.run_bind_of_ok hsaved]
  rfl

/-- A created offer with a new payment hash is recorded and returned. -/
theorem run_getSentOfferForPeer_created (hr : findSqueak squeakHash w.db = some r)
    (hs : L.deserialize r.squeak = .ok squeak) (hk : r.secretKey = some secretKey)
    (ho : (SqueakCore.createOffer N squeak secretKey peerAddress priceMsat).run w = (.ok o, w₁))
    (hfree : ∀ r ∈ w₁.db.sentOffers.rows, r.paymentHash ≠ o.paymentHash) :
    (getSentOfferForPeer N squeakHash peerAddress priceMsat).run w = (.ok (some o), withSentOffer N o w₁) :=
  run_getSentOfferForPeer_saved hr hs hk ho (run_saveSentOffer_free hfree)

end Created

/-! ## One invoice for each payment hash -/

/-- The lightning node makes one invoice at most for a payment hash; `issued` says for which hashes
there is one. -/
structure IssuesOnce (N : Node L ρ) (issued : ρ → Bytes → Prop) : Prop where
  clock : ∀ o h, issued o h → issued (N.timestampNowMs o).2 h
  nonce : ∀ o h, issued o h → issued (N.generateTweak o).2 h
  info : ∀ o h, issued o h → issued (N.lightningClient.getInfo o).2 h
  invoice : ∀ o preimage amountMsat i o', N.lightningClient.createInvoice preimage amountMsat o = (.ok i, o') →
    ¬ issued o i.rHash ∧ issued o' i.rHash ∧ ∀ h, issued o h → issued o' h

/-- The invoice of every recorded offer was made by the lightning node. -/
def OffersIssued (issued : ρ → Bytes → Prop) (w : World ρ) : Prop :=
  ∀ r ∈ w.db.sentOffers.rows, issued w.env r.paymentHash

/-- A created offer has a new payment hash. -/
theorem IssuesOnce.createOffer {N : Node L ρ} {issued : ρ → Bytes → Prop} (hI : IssuesOnce N issued)
    {squeak : L.CSqueak} {secretKey : Bytes} {peerAddress : PeerAddress} {priceMsat : Int} {w w' : World ρ}
    {o : SentOffer} (hw : OffersIssued issued w)
    (ho : (SqueakCore.createOffer N squeak secretKey peerAddress priceMsat).run w = (.ok o, w')) :
    (∀ r ∈ w'.db.sentOffers.rows, r.paymentHash ≠ o.paymentHash) ∧ OffersIssued issued (withSentOffer N o w') := by
  obtain ⟨preimage, invoice, env, -, hinvoice, rfl, rfl⟩ := run_createOffer_iff.1 ho
  obtain ⟨hnew, hnow, hkept⟩ := hI.invoice _ _ _ _ _ hinvoice
  constructor
  · rintro r hr heq
    have hold := hI.nonce _ _ (hw r hr)
    rw [heq] at hold
    exact hnew hold
  · intro r hr
    refine hI.clock _ _ ?_
    rcases List.mem_append.1 hr with hr | hr
    · exact hkept _ (hI.nonce _ _ (hw r hr))
    · rw [List.mem_singleton.1 hr]
      exact hnow

/-! ## Packaging offers -/

/-- The external address, and the environment after it was asked for. -/
def packageAddress (N : Node L ρ) (lndExternalAddress : Option LightningAddressHostPort) (env : ρ) :
    Except Err (Option LightningAddressHostPort) × ρ :=
  match lndExternalAddress with
  | some address => (.ok (some address), env)
  | none => match N.lightningClient.getInfo env with
    | (.error e, env) => (.error e, env)
    | (.ok info, env) => match info.uris with
      | [] => (.ok none, env)
      | uri :: _ => (some <$> SqueakCore.parseLndUri uri, env)

/-- The offer that is sent to the buyer. -/
def offerOf (sentOffer : SentOffer) (address : Option LightningAddressHostPort) : Offer where
  squeakHash := sentOffer.squeakHash
  nonce := sentOffer.nonce
  paymentRequest := sentOffer.paymentRequest
  host := address.elim (.str "") LightningAddressHostPort.host
  port := address.elim 0 LightningAddressHostPort.port

theorem run_getLndExternalAddress (N : Node L ρ) (w : World ρ) :
    (SqueakCore.getLndExternalAddress N).run w =
      ((packageAddress N none w.env).1, { w with env := (packageAddress N none w.env).2 }) := by
  unfold SqueakCore.getLndExternalAddress packageAddress
  rw [Prog.run_bind, run_call]
  rcases hi : N.lightningClient.getInfo w.env with ⟨e | info, env⟩
  · rfl
  · simp only
    rcases info.uris with _ | ⟨uri, uris⟩
    · rfl
    · simp only [Prog.run_bind, Prog.run_ofExcept]
      cases SqueakCore.parseLndUri uri <;> rfl

theorem run_packageOffer (N : Node L ρ) (sentOffer : SentOffer) (lndExternalAddress : Option LightningAddressHostPort)
    (w : World ρ) : (SqueakCore.packageOffer N sentOffer lndExternalAddress).run w =
      (offerOf sentOffer <$> (packageAddress N lndExternalAddress w.env).1,
        { w with env := (packageAddress N lndExternalAddress w.env).2 }) := by
  unfold SqueakCore.packageOffer
  cases lndExternalAddress with
  | some address => rfl
  | none =>
    simp only [Prog.run_bind, run_getLndExternalAddress]
    cases (packageAddress N none w.env).1 <;> rfl

/-- Packaging asks the lightning node for its addresses at most. -/
theorem packageAddress_keeps {N : Node L ρ} {K : ρ → Prop} (hinfo : ∀ o, K o → K (N.lightningClient.getInfo o).2)
    {env : ρ} (h : K env) (address : Option LightningAddressHostPort) :
    K (Squeaknode.packageAddress N address env).2 := by
  have hafter := hinfo env h
  unfold Squeaknode.packageAddress
  rcases address with _ | address
  · rcases hi : N.lightningClient.getInfo env with ⟨e | info, env'⟩
    · rwa [hi] at hafter
    · rw [hi] at hafter
      rcases huris : info.uris with _ | ⟨uri, uris⟩
      · simpa only [huris] using hafter
      · simpa only [huris] using hafter
  · exact h

theorem OffersIssued.packageAddress {N : Node L ρ} {issued : ρ → Bytes → Prop} (hI : IssuesOnce N issued)
    {w : World ρ} (hw : OffersIssued issued w) (address : Option LightningAddressHostPort) :
    OffersIssued issued { w with env := (packageAddress N address w.env).2 } :=
  fun r hr => packageAddress_keeps (K := fun o => issued o r.paymentHash) (fun o => hI.info o _) (hw r hr) address

/-- The host of the offer is a text, as that of every offer of a node is. -/
def Offer.HasText (offer : Offer) : Prop := ∃ text, offer.host = .str text

theorem text_of_parseLndUri {uri : String} {a : LightningAddressHostPort} (h : SqueakCore.parseLndUri uri = .ok a) :
    ∃ text, a.host = .str text := by
  unfold SqueakCore.parseLndUri at h
  generalize SqueakCore.unpackTwo (uri.toList.splitOn '@') = parts at h
  rcases parts with e | ⟨pubkey, address⟩
  · cases h
  change (SqueakCore.unpackTwo (address.splitOn ':') >>= fun parts => _) = _ at h
  generalize SqueakCore.unpackTwo (address.splitOn ':') = parts at h
  rcases parts with e | ⟨host, portStr⟩
  · cases h
  change (pythonInt (String.ofList portStr) >>= fun port => _) = _ at h
  generalize pythonInt (String.ofList portStr) = port at h
  rcases port with e | port
  · cases h
  · cases h
    exact ⟨_, rfl⟩

theorem hasText_offerOf {N : Node L ρ} {configured address : Option LightningAddressHostPort}
    (hconfigured : ∀ a, configured = some a → ∃ text, a.host = .str text) {env : ρ}
    (h : (packageAddress N configured env).1 = .ok address) (sentOffer : SentOffer) :
    (offerOf sentOffer address).HasText := by
  cases address with
  | none => exact ⟨"", rfl⟩
  | some a =>
    show ∃ text, a.host = .str text
    unfold packageAddress at h
    split at h
    · cases h
      exact hconfigured a rfl
    · split at h
      · cases h
      · split at h
        · cases h
        · rename_i uri uris _
          cases hparse : SqueakCore.parseLndUri uri with
          | error err =>
            rw [hparse] at h
            cases h
          | ok parsed =>
            rw [hparse] at h
            cases h
            exact text_of_parseLndUri hparse

/-! ## Receiving offers -/

/-- The lightning address that a buyer records; without a host it is that of the peer. -/
def offeredAddress (offer : Offer) (peerAddress : PeerAddress) : LightningAddressHostPort :=
  ⟨if offer.host.truthy then offer.host else peerAddress.host, offer.port⟩

/-- An address with a text and a port of at most 64 bits is taken. -/
theorem bindAddress_text {offer : Offer} (htext : offer.HasText) (hport : isBindable offer.port = true)
    (peerAddress : PeerAddress) : ∃ host, bindAddress (offeredAddress offer peerAddress) = .ok (some host) := by
  obtain ⟨text, htext⟩ := htext
  have hbind : ∀ s : String, bindAddress ⟨.str s, offer.port⟩ = .ok (some s) := fun s => if_pos hport
  unfold offeredAddress
  rw [htext]
  split
  · exact ⟨text, hbind text⟩
  · exact ⟨peerAddress.host, hbind peerAddress.host⟩

/-- The offer that a buyer records for an offer of a peer and its decoded payment request. -/
def receivedOfferOf (L : Squeaklib) (squeak : L.CSqueak) (offer : Offer) (peerAddress : PeerAddress) (payReq : PayReq) :
    ReceivedOffer where
  receivedOfferId := none
  squeakHash := getHash L squeak
  priceMsat := payReq.numMsat
  paymentHash := payReq.paymentHash
  nonce := offer.nonce
  paymentPoint := L.paymentPoint squeak
  invoiceTimestamp := payReq.timestamp
  invoiceExpiry := payReq.expiry
  paymentRequest := offer.paymentRequest
  destination := payReq.destination
  lightningAddress := offeredAddress offer peerAddress
  peerAddress := peerAddress
  paid := false

/-- The world after a received offer was saved. -/
def afterReceivedOffer (N : Node L ρ) (o : ReceivedOffer) (w : World ρ) : World ρ where
  db := (insertReceivedOffer (N.timestampNowMs w.env).1 o w.db).2
  env := (N.timestampNowMs w.env).2

/-- The run of a save of a received offer. -/
theorem run_saveReceivedOffer (N : Node L ρ) (o : ReceivedOffer) (w : World ρ) :
    (saveReceivedOffer N o).run w =
      ((insertReceivedOffer (N.timestampNowMs w.env).1 o w.db).1, afterReceivedOffer N o w) := by
  unfold saveReceivedOffer
  simp only [Prog.run_bind, run_ask, run_sql, Prog.run_ofExcept]
  rfl

/-- An offer for the squeak with a payment request that can be decoded is given to the program that saves it. -/
theorem run_handleOfferWith_decoded {N : Node L ρ} {squeak : L.CSqueak} {offer : Offer}
    (saveReceivedOffer : ReceivedOffer → NodeM ρ (Option Nat)) (peerAddress : PeerAddress) {payReq : PayReq}
    {w : World ρ} {env : ρ} (hhash : getHash L squeak = offer.squeakHash)
    (hdecode : N.lightningClient.decodePayReq offer.paymentRequest w.env = (.ok payReq, env)) :
    let saved := (saveReceivedOffer (receivedOfferOf L squeak offer peerAddress payReq)).run { w with env := env }
    (handleOfferWith N saveReceivedOffer squeak offer peerAddress).run w = ((fun _ => ()) <$> saved.1, saved.2) := by
  have hunpack : (SqueakCore.unpackOffer N squeak offer peerAddress).run w =
      (.ok (receivedOfferOf L squeak offer peerAddress payReq), { w with env := env }) := by
    unfold SqueakCore.unpackOffer
    simp only [hhash, ne_eq, not_true_eq_false, if_false, Prog.run_bind, run_call, hdecode]
    rw [← hhash]
    rfl
  unfold handleOfferWith
  rw [Prog.run_bind_of_ok hunpack, Prog.run_bind]
  rcases (saveReceivedOffer (receivedOfferOf L squeak offer peerAddress payReq)).run { w with env := env } with
    ⟨e | id, w'⟩ <;>
    rfl

/-- What the insert of such an offer returns is what the driver says to its address. -/
theorem insertReceivedOffer_ok (createdTimeMs : Int) (squeak : L.CSqueak) (offer : Offer) (peerAddress : PeerAddress)
    (payReq : PayReq) (db : Db) :
    (fun _ => ()) <$> (insertReceivedOffer createdTimeMs (receivedOfferOf L squeak offer peerAddress payReq) db).1 =
      (fun _ => ()) <$> bindAddress (offeredAddress offer peerAddress) := by
  unfold insertReceivedOffer
  rw [show (receivedOfferOf L squeak offer peerAddress payReq).lightningAddress =
    offeredAddress offer peerAddress from rfl]
  rcases bindAddress (offeredAddress offer peerAddress) with err | _ | host <;> rfl

/-- Such an offer is saved, if the driver takes its address. -/
theorem run_handleOffer_decoded {N : Node L ρ} {squeak : L.CSqueak} {offer : Offer} (peerAddress : PeerAddress)
    {payReq : PayReq} {w : World ρ} {env : ρ} (hhash : getHash L squeak = offer.squeakHash)
    (hdecode : N.lightningClient.decodePayReq offer.paymentRequest w.env = (.ok payReq, env)) :
    (handleOffer N squeak offer peerAddress).run w =
      ((fun _ => ()) <$> bindAddress (offeredAddress offer peerAddress),
        afterReceivedOffer N (receivedOfferOf L squeak offer peerAddress payReq) { w with env := env }) := by
  refine (run_handleOfferWith_decoded (saveReceivedOffer N) peerAddress hhash hdecode).trans ?_
  rw [run_saveReceivedOffer, insertReceivedOffer_ok]

theorem run_handleOffer_ok {N : Node L ρ} {squeak : L.CSqueak} {offer : Offer} {peerAddress : PeerAddress}
    {payReq : PayReq} {w : World ρ} {env : ρ} {host : Option String} (hhash : getHash L squeak = offer.squeakHash)
    (hdecode : N.lightningClient.decodePayReq offer.paymentRequest w.env = (.ok payReq, env))
    (haddress : bindAddress (offeredAddress offer peerAddress) = .ok host) :
    (handleOffer N squeak offer peerAddress).run w =
      (.ok (), afterReceivedOffer N (receivedOfferOf L squeak offer peerAddress payReq) { w with env := env }) := by
  rw [run_handleOffer_decoded peerAddress hhash hdecode, haddress]
  rfl

/-- Any other offer raises and leaves the database alone. -/
theorem run_handleOfferWith_error (N : Node L ρ) (saveReceivedOffer : ReceivedOffer → NodeM ρ (Option Nat))
    (squeak : L.CSqueak) (offer : Offer) (peerAddress : PeerAddress) (w : World ρ)
    (hbad : getHash L squeak = offer.squeakHash →
      ∀ payReq, (N.lightningClient.decodePayReq offer.paymentRequest w.env).1 ≠ .ok payReq) :
    ∃ e env, (handleOfferWith N saveReceivedOffer squeak offer peerAddress).run w = (.error e, { w with env := env }) := by
  unfold handleOfferWith SqueakCore.unpackOffer
  by_cases hhash : getHash L squeak = offer.squeakHash
  · rcases hdecode : N.lightningClient.decodePayReq offer.paymentRequest w.env with ⟨e | payReq, env⟩
    · refine ⟨e, env, ?_⟩
      simp only [hhash, ne_eq, not_true_eq_false, if_false, Prog.run_bind, run_call, hdecode]
    · exact absurd (by rw [hdecode]) (hbad hhash payReq)
  · exact ⟨_, w.env, by simp only [ne_eq, hhash, not_false_eq_true, if_true]; rfl⟩

theorem run_handleOffer_error (N : Node L ρ) (squeak : L.CSqueak) (offer : Offer) (peerAddress : PeerAddress)
    (w : World ρ)
    (hbad : getHash L squeak = offer.squeakHash →
      ∀ payReq, (N.lightningClient.decodePayReq offer.paymentRequest w.env).1 ≠ .ok payReq) :
    ∃ e env, (handleOffer N squeak offer peerAddress).run w = (.error e, { w with env := env }) :=
  run_handleOfferWith_error N (saveReceivedOffer N) squeak offer peerAddress w hbad

/-- An offer with a host that the driver takes and a new payment hash is inserted. -/
theorem insertReceivedOffer_free {now : Int} {o : ReceivedOffer} {db : Db} {host : String}
    (haddress : bindAddress o.lightningAddress = .ok (some host))
    (hfree : ∀ r ∈ db.receivedOffers.rows, r.paymentHash ≠ o.paymentHash) :
    insertReceivedOffer now o db = (.ok (some (db.receivedOffers.lastId + 1)), { db with receivedOffers :=
      ⟨db.receivedOffers.rows ++ [receivedOfferRow now o host (db.receivedOffers.lastId + 1)],
        db.receivedOffers.lastId + 1⟩ }) := by
  have ht : taken ReceivedOfferRow.paymentHash (receivedOfferRow now o host (db.receivedOffers.lastId + 1)).paymentHash
      db.receivedOffers.rows = false := taken_eq_false.2 hfree
  simp only [insertReceivedOffer, haddress, Table.insert_of_free ht]

/-- Any other offer is not. -/
theorem insertReceivedOffer_kept {now : Int} {o : ReceivedOffer} {db : Db}
    (h : ∀ host, bindAddress o.lightningAddress = .ok (some host) →
      ∃ r ∈ db.receivedOffers.rows, r.paymentHash = o.paymentHash) :
    insertReceivedOffer now o db = ((fun _ => none) <$> bindAddress o.lightningAddress, db) := by
  unfold insertReceivedOffer
  rcases hbind : bindAddress o.lightningAddress with err | _ | host
  · rfl
  · rfl
  · have ht : taken ReceivedOfferRow.paymentHash
        (receivedOfferRow now o host (db.receivedOffers.lastId + 1)).paymentHash db.receivedOffers.rows = true :=
      taken_iff.2 (h host hbind)
    simp only [Table.insert_of_taken ht]
    rfl

theorem afterReceivedOffer_free {N : Node L ρ} {o : ReceivedOffer} {w : World ρ} {host : String}
    (haddress : bindAddress o.lightningAddress = .ok (some host))
    (hfree : ∀ r ∈ w.db.receivedOffers.rows, r.paymentHash ≠ o.paymentHash) :
    (afterReceivedOffer N o w).db = { w.db with receivedOffers :=
      ⟨w.db.receivedOffers.rows ++ [receivedOfferRow (N.timestampNowMs w.env).1 o host (w.db.receivedOffers.lastId + 1)],
        w.db.receivedOffers.lastId + 1⟩ } := by
  unfold afterReceivedOffer
  rw [insertReceivedOffer_free haddress hfree]

theorem afterReceivedOffer_kept {N : Node L ρ} {o : ReceivedOffer} {w : World ρ}
    (h : ∀ host, bindAddress o.lightningAddress = .ok (some host) →
      ∃ r ∈ w.db.receivedOffers.rows, r.paymentHash = o.paymentHash) : (afterReceivedOffer N o w).db = w.db := by
  unfold afterReceivedOffer
  rw [insertReceivedOffer_kept h]

end Squeaknode
