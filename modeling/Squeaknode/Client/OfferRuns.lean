/-
The offers that downloads leave. A call of `download_secret_key` asks a peer for an offer when it
finds no live one of that peer for the squeak, and inserts what it gets. Between the two it waits for
the peer, and other calls for the same squeak and peer may do the same.
-/
import Squeaknode.Client.PeerRuns
import Squeaknode.Db.Statements
import Squeaknode.Interleave.Stages
import Squeaknode.Node.Sample
import Squeaknode.Node.SqueakTable

namespace Squeaknode

open Interleave Relational SqueakDb

variable {L : Squeaklib} {ρ : Type}

/-! ## The stages of a call -/

/-- Where a call of `download_secret_key` is: before each of its statements with what it has read so far, or in the
rest of its program. -/
inductive OfferStage (L : Squeaklib) (ρ : Type) : Type 1
  | lookingUp
  | readingKey (squeak : L.CSqueak)
  | requestingKey (squeak : L.CSqueak)
  | readingTime (squeak : L.CSqueak)
  | readingOffers (squeak : L.CSqueak) (now : Int)
  | requestingOffer (squeak : L.CSqueak)
  | unpacking (squeak : L.CSqueak) (offer : Offer)
  | saving (receivedOffer : ReceivedOffer)
  | inserting (receivedOffer : ReceivedOffer) (now : Int)
  | rest (p : NodeM ρ Unit)

/-- A call of `download_secret_key` for a squeak and a peer. -/
structure OfferCall (L : Squeaklib) (ρ : Type) : Type 1 where
  peer : SqueakPeer
  squeakHash : Bytes
  stage : OfferStage L ρ

namespace OfferStage

section After

variable (N : Node L ρ) (squeakHash : Bytes) (squeak : L.CSqueak)

/-- After the lookup of the squeak. -/
def foundSqueak : Except Err (Option L.CSqueak) → OfferStage L ρ
  | .error e => rest (.raise e)
  | .ok none => rest (.ret ())
  | .ok (some squeak) => readingKey squeak

/-- After the lookup of the key. -/
def foundKey (secretKey : Option Bytes) : OfferStage L ρ :=
  if secretKey.any fun k => !k.isEmpty then rest (.ret ()) else requestingKey squeak

/-- An answer other than 200, or an empty one, is no key. -/
def answeredKey : Except Err Response → OfferStage L ρ
  | .error e => rest (.raise e)
  | .ok r => match (if r.statusCode ≠ 200 then none else some r.content).filter fun k => !k.isEmpty with
    | some secretKey => rest (SqueakStore.saveSecretKey L squeakHash secretKey)
    | none => readingTime squeak

/-- After the lookup of the offers of the peer. -/
def foundOffers (peer : SqueakPeer) (receivedOffers : List ReceivedOffer) : OfferStage L ρ :=
  if receivedOffers.any fun o => o.peerAddress == peer.address then rest (.ret ()) else requestingOffer squeak

/-- After the answer to the request for an offer. -/
def answeredOffer : Except Err Response → OfferStage L ρ
  | .error e => rest (.raise e)
  | .ok r =>
    if r.statusCode ≠ 200 then rest (.ret ())
    else match PeerClient.parseOffer N.json r.content with
      | .error e => rest (.raise e)
      | .ok offer => unpacking squeak offer

/-- After the lightning node has decoded the payment request. -/
def unpacked (peer : SqueakPeer) (offer : Offer) : Except Err PayReq → OfferStage L ρ
  | .error e => rest (.raise e)
  | .ok payReq => saving (receivedOfferOf L squeak offer peer.address payReq)

/-- After the INSERT. -/
def inserted : Except Err (Option Nat) → OfferStage L ρ
  | .error e => rest (.raise e)
  | .ok _ => rest (.ret ())

end After

variable (N : Node L ρ) (peer : SqueakPeer) (squeakHash : Bytes)

/-- `download_secret_key` from the request for the offer on. -/
def downloadOffer (squeak : L.CSqueak) : NodeM ρ Unit := do
  match ← PeerClient.getOffer N peer squeakHash with
  | none => return ()
  | some offer => SqueakStore.handleOffer N squeak offer peer.address

/-- From the list of the offers on. -/
def checkOffers (squeak : L.CSqueak) (receivedOffers : List ReceivedOffer) : NodeM ρ Unit :=
  if receivedOffers.any fun o => o.peerAddress == peer.address then return ()
  else downloadOffer N peer squeakHash squeak

/-- From the request for the key on. -/
def downloadKey (squeak : L.CSqueak) : NodeM ρ Unit := do
  let secretKey ← PeerClient.getSecretKey N peer squeakHash
  match secretKey.filter fun k => !k.isEmpty with
  | some secretKey => SqueakStore.saveSecretKey L squeakHash secretKey
  | none => SqueakStore.getReceivedOffers N squeakHash >>= checkOffers N peer squeakHash squeak

/-- From the SELECT of the key on. -/
def checkKey (squeak : L.CSqueak) : NodeM ρ Unit := do
  let owned ← SqueakStore.getSqueakSecretKey squeakHash
  if owned.any fun k => !k.isEmpty then return ()
  else downloadKey N peer squeakHash squeak

/-- What a call has left to do at a stage. -/
def program : OfferStage L ρ → NodeM ρ Unit
  | lookingUp => PeerDownloader.downloadSecretKey N peer squeakHash
  | readingKey squeak => checkKey N peer squeakHash squeak
  | requestingKey squeak => downloadKey N peer squeakHash squeak
  | readingTime squeak => SqueakStore.getReceivedOffers N squeakHash >>= checkOffers N peer squeakHash squeak
  | readingOffers squeak now => query (SqueakDb.getReceivedOffers squeakHash now) >>= checkOffers N peer squeakHash squeak
  | requestingOffer squeak => downloadOffer N peer squeakHash squeak
  | unpacking squeak offer => SqueakStore.handleOffer N squeak offer peer.address
  | saving receivedOffer => SqueakStore.saveReceivedOffer N receivedOffer >>= fun _ => .ret ()
  | inserting receivedOffer now => (do Prog.ofExcept (← sql (insertReceivedOffer now receivedOffer))) >>= fun _ => .ret ()
  | rest p => p

/-- The stage after the next statement. -/
def next : OfferStage L ρ → World ρ → OfferStage L ρ
  | lookingUp, w => foundSqueak (squeakOfRow L (findSqueak squeakHash w.db))
  | readingKey squeak, w => foundKey squeak (SqueakDb.getSqueakSecretKey squeakHash w.db)
  | requestingKey squeak, w =>
    answeredKey squeakHash squeak (N.requestsGet peer.address (.secretKey (hex squeakHash)) w.env).1
  | readingTime squeak, w => readingOffers squeak (clock N w)
  | readingOffers squeak now, w => foundOffers squeak peer (SqueakDb.getReceivedOffers squeakHash now w.db)
  | requestingOffer squeak, w =>
    answeredOffer N squeak (N.requestsGet peer.address (.offer (hex squeakHash)) w.env).1
  | unpacking squeak offer, w => unpacked squeak peer offer (N.lightningClient.decodePayReq offer.paymentRequest w.env).1
  | saving receivedOffer, w => inserting receivedOffer (clock N w)
  | inserting receivedOffer now, w => inserted (insertReceivedOffer now receivedOffer w.db).1
  | rest p, w => rest (p.next w)

/-! ## The first statement of each stage -/

theorem program_lookingUp : program N peer squeakHash lookingUp =
    .step (fun w => (findSqueak squeakHash w.db, w)) (fun _ => []) fun row =>
      program N peer squeakHash (foundSqueak (squeakOfRow L row)) := by
  refine congrArg (Prog.step _ _) (funext fun row => ?_)
  cases row with
  | none => rfl
  | some row =>
    show (Prog.ofExcept (L.deserialize row.squeak) >>= _ : NodeM ρ _) >>= _ =
      program N peer squeakHash (foundSqueak (some <$> L.deserialize row.squeak))
    cases L.deserialize row.squeak <;> rfl

theorem program_readingKey (squeak : L.CSqueak) : program N peer squeakHash (readingKey squeak) =
    .step (fun w => (SqueakDb.getSqueakSecretKey squeakHash w.db, w)) (fun _ => []) fun owned =>
      program N peer squeakHash (foundKey squeak owned) := by
  refine congrArg (Prog.step _ _) (funext fun owned => ?_)
  unfold foundKey
  show (if _ then _ else _ : NodeM ρ Unit) = _
  split <;> rfl

theorem program_requestingKey (squeak : L.CSqueak) : program N peer squeakHash (requestingKey squeak) =
    .step (fun w => ((N.requestsGet peer.address (.secretKey (hex squeakHash)) w.env).1,
      { w with env := (N.requestsGet peer.address (.secretKey (hex squeakHash)) w.env).2 })) (fun _ => []) fun answer =>
      program N peer squeakHash (answeredKey squeakHash squeak answer) := by
  refine congrArg (Prog.step _ _) (funext fun answer => ?_)
  cases answer with
  | error e => rfl
  | ok r =>
    show ((if r.statusCode ≠ 200 then .ret none else .ret (some r.content) : NodeM ρ (Option Bytes)) >>= _) =
      program N peer squeakHash (match (if r.statusCode ≠ 200 then none else some r.content).filter fun k => !k.isEmpty with
        | some secretKey => _
        | none => _)
    by_cases hstatus : r.statusCode ≠ 200
    · rw [if_pos hstatus, if_pos hstatus]
      rfl
    · rw [if_neg hstatus, if_neg hstatus, Prog.ret_bind]
      cases (some r.content).filter fun k => !k.isEmpty <;> rfl

theorem program_readingTime (squeak : L.CSqueak) : program N peer squeakHash (readingTime squeak) =
    .step (fun w => ((N.timestampNowMs w.env).1, { w with env := (N.timestampNowMs w.env).2 })) (fun _ => []) fun now =>
      program N peer squeakHash (readingOffers squeak now) := rfl

theorem program_readingOffers (squeak : L.CSqueak) (now : Int) : program N peer squeakHash (readingOffers squeak now) =
    .step (fun w => (SqueakDb.getReceivedOffers squeakHash now w.db, w)) (fun _ => []) fun receivedOffers =>
      program N peer squeakHash (foundOffers squeak peer receivedOffers) := by
  refine congrArg (Prog.step _ _) (funext fun receivedOffers => ?_)
  unfold foundOffers
  show checkOffers N peer squeakHash squeak receivedOffers = _
  unfold checkOffers
  split <;> rfl

theorem program_requestingOffer (squeak : L.CSqueak) : program N peer squeakHash (requestingOffer squeak) =
    .step (fun w => ((N.requestsGet peer.address (.offer (hex squeakHash)) w.env).1,
      { w with env := (N.requestsGet peer.address (.offer (hex squeakHash)) w.env).2 })) (fun _ => []) fun answer =>
      program N peer squeakHash (answeredOffer N squeak answer) := by
  refine congrArg (Prog.step _ _) (funext fun answer => ?_)
  cases answer with
  | error e => rfl
  | ok r =>
    show ((if r.statusCode ≠ 200 then .ret none
      else Prog.ofExcept (PeerClient.parseOffer N.json r.content) >>= fun offer => .ret (some offer) :
        NodeM ρ (Option Offer)) >>= _) = program N peer squeakHash (if r.statusCode ≠ 200 then _ else _)
    by_cases hstatus : r.statusCode ≠ 200
    · rw [if_pos hstatus, if_pos hstatus]
      rfl
    · rw [if_neg hstatus, if_neg hstatus]
      cases PeerClient.parseOffer N.json r.content <;> rfl

/-- An offer for another squeak raises before it is unpacked. -/
theorem program_unpacking (squeak : L.CSqueak) (offer : Offer) :
    (∃ e, program N peer squeakHash (unpacking squeak offer) = .raise e) ∨
    program N peer squeakHash (unpacking squeak offer) =
      .step (fun w => ((N.lightningClient.decodePayReq offer.paymentRequest w.env).1,
        { w with env := (N.lightningClient.decodePayReq offer.paymentRequest w.env).2 })) (fun _ => []) fun payReq =>
        program N peer squeakHash (unpacked squeak peer offer payReq) := by
  by_cases hhash : getHash L squeak = offer.squeakHash
  · right
    show SqueakStore.handleOffer N squeak offer peer.address = _
    unfold SqueakStore.handleOffer SqueakStore.handleOfferWith SqueakCore.unpackOffer
    rw [if_neg (by simpa using hhash)]
    refine congrArg (Prog.step _ _) (funext fun payReq => ?_)
    cases payReq <;> rfl
  · left
    show ∃ e, SqueakStore.handleOffer N squeak offer peer.address = _
    unfold SqueakStore.handleOffer SqueakStore.handleOfferWith SqueakCore.unpackOffer
    rw [if_pos hhash]
    exact ⟨_, rfl⟩

theorem program_saving (receivedOffer : ReceivedOffer) : program N peer squeakHash (saving receivedOffer) =
    .step (fun w => ((N.timestampNowMs w.env).1, { w with env := (N.timestampNowMs w.env).2 })) (fun _ => []) fun now =>
      program N peer squeakHash (inserting receivedOffer now) := rfl

theorem program_inserting (receivedOffer : ReceivedOffer) (now : Int) :
    program N peer squeakHash (inserting receivedOffer now) =
      .step (fun w => ((insertReceivedOffer now receivedOffer w.db).1,
        { w with db := (insertReceivedOffer now receivedOffer w.db).2 })) (fun _ => []) fun id =>
        program N peer squeakHash (inserted id) := by
  refine congrArg (Prog.step _ _) (funext fun id => ?_)
  cases id <;> rfl

end OfferStage

namespace OfferCall

variable (N : Node L ρ)

/-- What the call has left to do. -/
def program (c : OfferCall L ρ) : NodeM ρ Unit := c.stage.program N c.peer c.squeakHash

/-- The call after its next statement. -/
def next (c : OfferCall L ρ) (w : World ρ) : OfferCall L ρ := { c with stage := c.stage.next N c.peer c.squeakHash w }

/-- The calls as threads that go from stage to stage. -/
def staging : Staging (World ρ) Obs Err Unit (OfferCall L ρ) where
  program := program N
  next := next N
  follows := by
    rintro ⟨peer, squeakHash, stage⟩ β stmt obs k h w
    change stage.program N peer squeakHash = _ at h
    show OfferStage.program N peer squeakHash (stage.next N peer squeakHash w) = _
    cases stage with
    | lookingUp =>
      rw [OfferStage.program_lookingUp] at h
      cases h
      rfl
    | readingKey squeak =>
      rw [OfferStage.program_readingKey] at h
      cases h
      rfl
    | requestingKey squeak =>
      rw [OfferStage.program_requestingKey] at h
      cases h
      rfl
    | readingTime squeak =>
      rw [OfferStage.program_readingTime] at h
      cases h
      rfl
    | readingOffers squeak now =>
      rw [OfferStage.program_readingOffers] at h
      cases h
      rfl
    | requestingOffer squeak =>
      rw [OfferStage.program_requestingOffer] at h
      cases h
      rfl
    | unpacking squeak offer =>
      rcases OfferStage.program_unpacking N peer squeakHash squeak offer with ⟨e, he⟩ | he
      · rw [he] at h
        cases h
      · rw [he] at h
        cases h
        rfl
    | saving receivedOffer =>
      rw [OfferStage.program_saving] at h
      cases h
      rfl
    | inserting receivedOffer now =>
      rw [OfferStage.program_inserting] at h
      cases h
      rfl
    | rest p => exact Prog.next_of_step h w

end OfferCall

/-! ## Live offers -/

/-- An offer for the squeak, of the peer, that is not paid and not expired. -/
def isLive (squeakHash : Bytes) (peerAddress : PeerAddress) (now : Int) (r : ReceivedOfferRow) : Bool :=
  r.squeakHash == squeakHash && (⟨r.peerNetwork, r.peerHost, r.peerPort⟩ : PeerAddress) == peerAddress && !r.paid &&
    !receivedOfferInvoiceIsExpired now r

/-- The number of live offers in a world. -/
def liveOffers (N : Node L ρ) (squeakHash : Bytes) (peerAddress : PeerAddress) (w : World ρ) : Nat :=
  w.db.receivedOffers.rows.countP (isLive squeakHash peerAddress (clock N w))

/-- No peer has two offers for one squeak that are live. -/
def AtMostOneOffer (N : Node L ρ) (w : World ρ) : Prop :=
  ∀ squeakHash peerAddress, liveOffers N squeakHash peerAddress w ≤ 1

/-- No more of the rows are live, at whatever time. -/
def NoMoreLive (rows rows' : List ReceivedOfferRow) : Prop :=
  ∀ squeakHash peerAddress now, rows'.countP (isLive squeakHash peerAddress now) ≤
    rows.countP (isLive squeakHash peerAddress now)

theorem isLive_iff {squeakHash : Bytes} {peerAddress : PeerAddress} {now : Int} {r : ReceivedOfferRow} :
    isLive squeakHash peerAddress now r = true ↔ r.squeakHash = squeakHash ∧
      (⟨r.peerNetwork, r.peerHost, r.peerPort⟩ : PeerAddress) = peerAddress ∧ r.paid = false ∧
      now < 1000 * (r.invoiceTimestamp + r.invoiceExpiry) := by
  simp [isLive, receivedOfferInvoiceIsExpired, and_assoc]

/-- An offer that is live was so before. -/
theorem countP_isLive_le {squeakHash : Bytes} {peerAddress : PeerAddress} {now now' : Int} (h : now ≤ now')
    (rows : List ReceivedOfferRow) :
    rows.countP (isLive squeakHash peerAddress now') ≤ rows.countP (isLive squeakHash peerAddress now) := by
  apply List.countP_mono_left
  intro r _ hlive
  rw [isLive_iff] at hlive ⊢
  exact ⟨hlive.1, hlive.2.1, hlive.2.2.1, by omega⟩

variable {N : Node L ρ}

theorem liveOffers_le {w w' : World ρ} (hclock : clock N w ≤ clock N w')
    (hrows : NoMoreLive w.db.receivedOffers.rows w'.db.receivedOffers.rows) (squeakHash : Bytes)
    (peerAddress : PeerAddress) :
    liveOffers N squeakHash peerAddress w' ≤ liveOffers N squeakHash peerAddress w :=
  le_trans (hrows _ _ _) (countP_isLive_le hclock _)

theorem noMoreLive_delete (p : ReceivedOfferRow → Bool) (rows : List ReceivedOfferRow) :
    NoMoreLive rows (deleteWhere p rows) := fun _ _ _ => List.Sublist.countP_le List.filter_sublist

theorem noMoreLive_paid (p : ReceivedOfferRow → Bool) (rows : List ReceivedOfferRow) :
    NoMoreLive rows (updateWhere p (fun r => { r with paid := true }) rows) := by
  intro squeakHash peerAddress now
  unfold updateWhere
  rw [List.countP_map]
  apply List.countP_mono_left
  intro r _ hlive
  simp only [Function.comp_apply] at hlive
  split at hlive
  · rw [isLive_iff] at hlive
    cases hlive.2.2.1
  · exact hlive

/-- An offer that is inserted counts for its squeak and its peer alone. -/
theorem countP_insertReceivedOffer (now' : Int) (o : ReceivedOffer) (db : Db) (squeakHash : Bytes)
    (peerAddress : PeerAddress) (now : Int) :
    (insertReceivedOffer now' o db).2.receivedOffers.rows.countP (isLive squeakHash peerAddress now) ≤
      db.receivedOffers.rows.countP (isLive squeakHash peerAddress now) +
        if o.squeakHash = squeakHash ∧ o.peerAddress = peerAddress then 1 else 0 := by
  obtain heq | ⟨host, -, heq⟩ := insertReceivedOffer_cases now' o db
  · rw [heq]
    exact Nat.le_add_right _ _
  rw [heq]
  show (db.receivedOffers.insert ReceivedOfferRow.paymentHash (receivedOfferRow now' o host)).2.rows.countP _ ≤ _
  unfold Table.insert
  split
  · exact Nat.le_add_right _ _
  · rw [List.countP_append, List.countP_singleton]
    apply Nat.add_le_add_left
    split
    · rename_i hlive
      rw [isLive_iff] at hlive
      rw [if_pos ⟨hlive.1, hlive.2.1⟩]
    · exact Nat.zero_le _

/-- The statements by which other parts of the node write the offers mark them paid or delete them. -/
def SparesOffers : Statement L → Prop
  | .insertReceivedOffer _ _ => False
  | .setReceivedOfferPaid _ paid => paid = true
  | _ => True

theorem noMoreLive_commit {statement : Statement L} (h : SparesOffers statement) (db : Db) :
    NoMoreLive db.receivedOffers.rows (statement.commit db).receivedOffers.rows := by
  have hsame : ∀ rows, NoMoreLive rows rows := fun _ _ _ _ => le_refl _
  cases statement with
  | insertReceivedOffer now receivedOffer => exact h.elim
  | setReceivedOfferPaid paymentHash paid =>
    obtain rfl : paid = true := h
    exact noMoreLive_paid _ _
  | deleteExpiredReceivedOffers now intervalS => exact noMoreLive_delete _ _
  | insertProfile now profile =>
    show NoMoreLive _ (SqueakDb.insertProfile L now profile db).2.receivedOffers.rows
    unfold SqueakDb.insertProfile
    split <;> exact hsame _
  | setProfileName profileId profileName =>
    show NoMoreLive _ (SqueakDb.setProfileName profileId profileName db).2.receivedOffers.rows
    unfold SqueakDb.setProfileName
    split <;> exact hsame _
  | _ => exact hsame _

/-! ## Squeaks under their hashes -/

/-- Every squeak is stored under its hash. -/
def HashesRight (L : Squeaklib) (db : Db) : Prop :=
  ∀ r ∈ db.squeaks, ∀ squeak, L.deserialize r.squeak = .ok squeak → getHash L squeak = r.hash

theorem HashesRight.commit (hC : L.CodecLaws) {db : Db} (h : HashesRight L db) (statement : Statement L) :
    HashesRight L (statement.commit db) := by
  intro r' hr' squeak hsqueak
  rcases Statement.mem_commit_squeaks hr' with ⟨now, squeak', header, -, rfl⟩ | ⟨r, hr, heq, -⟩
  · have hsame : L.deserialize (L.serialize squeak') = .ok squeak := hsqueak
    rw [hC.squeak] at hsame
    cases hsame
    rfl
  · rw [heq] at hsqueak ⊢
    exact h r hr squeak hsqueak

/-- The offers stay as they are, and squeaks under their hashes. -/
def SavesNoOffer (L : Squeaklib) (w w' : World ρ) : Prop :=
  w'.db.receivedOffers = w.db.receivedOffers ∧ (HashesRight L w.db → HashesRight L w'.db)

theorem savesNoOffer_saveSecretKey (squeakHash secretKey : Bytes) :
    (SqueakStore.saveSecretKey L squeakHash secretKey : NodeM ρ Unit).Respects (SavesNoOffer L) := by
  have hupdate : ∀ (f : SqueakRow → SqueakRow), (∀ r, (f r).squeak = r.squeak ∧ (f r).hash = r.hash) →
    ∀ h (w : World ρ),
      SavesNoOffer L w { w with db := updateSqueak h f w.db } := by
    refine fun f hf h w => ⟨rfl, fun hright r' hr' squeak hsqueak => ?_⟩
    obtain ⟨r, hr, rfl⟩ := mem_updateWhere.1 hr'
    split at hsqueak
    · rename_i hwhere
      rw [if_pos hwhere, (hf r).2]
      exact hright r hr squeak ((hf r).1 ▸ hsqueak)
    · rename_i hwhere
      rw [if_neg hwhere]
      exact hright r hr squeak hsqueak
  apply within_saveSecretKey (fun w => ⟨rfl, id⟩)
  · exact fun w h k => hupdate (fun r => { r with secretKey := some k }) (fun _ => ⟨rfl, rfl⟩) h w
  · exact fun w h c => hupdate (fun r => { r with content := some c }) (fun _ => ⟨rfl, rfl⟩) h w

/-! ## Calls that are alone with their offers -/

/-- The call has found no live offer and is on its way to insert one. -/
def OfferStage.Offering : OfferStage L ρ → Prop
  | requestingOffer _ => True
  | unpacking _ _ => True
  | saving _ => True
  | inserting _ _ => True
  | _ => False

/-- What a call knows at its stage. -/
def OfferStage.Sound (N : Node L ρ) (peer : SqueakPeer) (squeakHash : Bytes) (w : World ρ) : OfferStage L ρ → Prop
  | lookingUp => True
  | readingKey squeak => getHash L squeak = squeakHash
  | requestingKey squeak => getHash L squeak = squeakHash
  | readingTime squeak => getHash L squeak = squeakHash
  | readingOffers squeak now => getHash L squeak = squeakHash ∧ now ≤ clock N w
  | requestingOffer squeak => getHash L squeak = squeakHash ∧ liveOffers N squeakHash peer.address w = 0
  | unpacking squeak _ => getHash L squeak = squeakHash ∧ liveOffers N squeakHash peer.address w = 0
  | saving o => (o.squeakHash = squeakHash ∧ o.peerAddress = peer.address) ∧ liveOffers N squeakHash peer.address w = 0
  | inserting o _ => (o.squeakHash = squeakHash ∧ o.peerAddress = peer.address) ∧ liveOffers N squeakHash peer.address w = 0
  | rest p => p.Respects (SavesNoOffer L)

namespace OfferCall

variable (N)

/-- What the stage of the call relies on holds in the world. -/
def Sound (c : OfferCall L ρ) (w : World ρ) : Prop := c.stage.Sound N c.peer c.squeakHash w

/-- Both calls ask the same peer for the same squeak. -/
def Rivals (c d : OfferCall L ρ) : Prop := c.squeakHash = d.squeakHash ∧ c.peer.address = d.peer.address

end OfferCall

/-- The start of calls for peers and squeaks. -/
def offerCalls (L : Squeaklib) (w : World ρ) (calls : List (SqueakPeer × Bytes)) : Staged (World ρ) (OfferCall L ρ) :=
  ⟨w, calls.map fun call => ⟨call.1, call.2, .lookingUp⟩⟩

/-- The clock is not set back, the others only mark offers paid or delete them, and no call reads the
offers while a rival is between its reading and its INSERT. -/
structure Alone (N : Node L ρ) (s : Staged (World ρ) (OfferCall L ρ)) (a : Turn (World ρ)) : Prop where
  clock : ∀ s', (OfferCall.staging N).step a s = some s' → clock N s.world ≤ clock N s'.world
  others : ∀ world, a = .others world → world.db = s.world.db ∨ ∃ statement : Statement L,
    SparesOffers statement ∧ world.db = statement.commit s.world.db
  enters : ∀ (i : Nat) (c : OfferCall L ρ) (squeak : L.CSqueak) (now : Int), a = .thread i → s.stages[i]? = some c →
    c.stage = .readingOffers squeak now → ∀ (j : Nat) (d : OfferCall L ρ), j ≠ i → s.stages[j]? = some d →
      d.stage.Offering → ¬ c.Rivals d

/-- Every call is sound, and no two rivals are on their way to insert an offer. -/
structure AllAlone (N : Node L ρ) (s : Staged (World ρ) (OfferCall L ρ)) : Prop where
  hashes : HashesRight L s.world.db
  offers : AtMostOneOffer N s.world
  calls : ∀ (i : Nat) (c : OfferCall L ρ), s.stages[i]? = some c → c.Sound N s.world
  rivals : ∀ (i j : Nat) (c d : OfferCall L ρ), i ≠ j → s.stages[i]? = some c → s.stages[j]? = some d →
    c.stage.Offering → d.stage.Offering → ¬ c.Rivals d

variable {peer : SqueakPeer} {squeakHash : Bytes}

namespace OfferStage

theorem Sound.mono {stage : OfferStage L ρ} {w w' : World ρ} (h : stage.Sound N peer squeakHash w)
    (hclock : clock N w ≤ clock N w')
    (hlive : stage.Offering → liveOffers N squeakHash peer.address w' ≤ liveOffers N squeakHash peer.address w) :
    stage.Sound N peer squeakHash w' := by
  cases stage with
  | readingOffers squeak now => exact ⟨h.1, le_trans h.2 hclock⟩
  | requestingOffer squeak => exact ⟨h.1, Nat.le_zero.1 (h.2 ▸ hlive trivial)⟩
  | unpacking squeak offer => exact ⟨h.1, Nat.le_zero.1 (h.2 ▸ hlive trivial)⟩
  | saving o => exact ⟨h.1, Nat.le_zero.1 (h.2 ▸ hlive trivial)⟩
  | inserting o now => exact ⟨h.1, Nat.le_zero.1 (h.2 ▸ hlive trivial)⟩
  | _ => exact h

/-- Only a look at the offers starts the way to an INSERT. -/
theorem offering_next {stage : OfferStage L ρ} {w : World ρ} (h : (stage.next N peer squeakHash w).Offering) :
    stage.Offering ∨ ∃ squeak now, stage = .readingOffers squeak now := by
  cases stage with
  | lookingUp =>
    change (foundSqueak (squeakOfRow L (findSqueak squeakHash w.db)) : OfferStage L ρ).Offering at h
    unfold foundSqueak at h
    split at h <;> exact h.elim
  | readingKey squeak =>
    change (foundKey squeak (SqueakDb.getSqueakSecretKey squeakHash w.db) : OfferStage L ρ).Offering at h
    unfold foundKey at h
    split at h <;> exact h.elim
  | requestingKey squeak =>
    change (answeredKey squeakHash squeak (N.requestsGet peer.address (.secretKey (hex squeakHash)) w.env).1 :
      OfferStage L ρ).Offering at h
    unfold answeredKey at h
    split at h
    · exact h.elim
    · split at h <;> exact h.elim
  | readingTime squeak => exact h.elim
  | readingOffers squeak now => exact .inr ⟨squeak, now, rfl⟩
  | rest p => exact h.elim
  | _ => exact .inl trivial

/-- Only an INSERT changes the offers. -/
theorem savesNoOffer_program {stage : OfferStage L ρ} {w : World ρ} (hsound : stage.Sound N peer squeakHash w)
    (hinsert : ∀ o now, stage ≠ .inserting o now) {β : Type} {stmt : World ρ → β × World ρ} {obs : World ρ → List Obs}
    {k : β → NodeM ρ Unit} (hprogram : stage.program N peer squeakHash = .step stmt obs k) :
    SavesNoOffer L w (stmt w).2 := by
  cases stage with
  | lookingUp =>
    rw [program_lookingUp] at hprogram
    cases hprogram
    exact ⟨rfl, id⟩
  | readingKey squeak =>
    rw [program_readingKey] at hprogram
    cases hprogram
    exact ⟨rfl, id⟩
  | requestingKey squeak =>
    rw [program_requestingKey] at hprogram
    cases hprogram
    exact ⟨rfl, id⟩
  | readingTime squeak =>
    rw [program_readingTime] at hprogram
    cases hprogram
    exact ⟨rfl, id⟩
  | readingOffers squeak now =>
    rw [program_readingOffers] at hprogram
    cases hprogram
    exact ⟨rfl, id⟩
  | requestingOffer squeak =>
    rw [program_requestingOffer] at hprogram
    cases hprogram
    exact ⟨rfl, id⟩
  | unpacking squeak offer =>
    rcases program_unpacking N peer squeakHash squeak offer with ⟨e, he⟩ | he
    · rw [he] at hprogram
      cases hprogram
    · rw [he] at hprogram
      cases hprogram
      exact ⟨rfl, id⟩
  | saving o =>
    rw [program_saving] at hprogram
    cases hprogram
    exact ⟨rfl, id⟩
  | inserting o now => exact absurd rfl (hinsert o now)
  | rest p =>
    have hrespects : p.Respects (SavesNoOffer L) := hsound
    rw [show p = _ from hprogram] at hrespects
    exact hrespects.1 w

/-- No offer of the peer is live when none is in the list. -/
theorem liveOffers_eq_zero {w : World ρ} {now : Int} (hnow : now ≤ clock N w)
    (hnone : ¬ (SqueakDb.getReceivedOffers squeakHash now w.db).any fun o => o.peerAddress == peer.address) :
    liveOffers N squeakHash peer.address w = 0 := by
  rw [liveOffers, List.countP_eq_zero]
  intro r hr hlive
  obtain ⟨hhash, hpeer, hunpaid, hunexpired⟩ := isLive_iff.1 hlive
  apply hnone
  rw [List.any_eq_true]
  refine ⟨parseReceivedOffer r, List.mem_map_of_mem (List.mem_filter.2 ⟨hr, ?_⟩), beq_iff_eq.2 hpeer⟩
  have hbefore : now < 1000 * (r.invoiceTimestamp + r.invoiceExpiry) := by omega
  simp [hhash, hunpaid, receivedOfferInvoiceIsExpired, hbefore]

/-- A statement that is no INSERT leaves its call sound. -/
theorem sound_next {stage : OfferStage L ρ} {w w' : World ρ} (hright : HashesRight L w.db)
    (hsound : stage.Sound N peer squeakHash w) (hclock : clock N w ≤ clock N w')
    (hoffers : w'.db.receivedOffers = w.db.receivedOffers) :
    (stage.next N peer squeakHash w).Sound N peer squeakHash w' := by
  -- time lets offers expire, and no other step adds one
  have hlive : liveOffers N squeakHash peer.address w = 0 → liveOffers N squeakHash peer.address w' = 0 := by
    intro h
    have hle := liveOffers_le hclock (hoffers ▸ fun _ _ _ => le_refl _) squeakHash peer.address
    omega
  cases stage with
  | lookingUp =>
    show (foundSqueak (squeakOfRow L (findSqueak squeakHash w.db))).Sound N peer squeakHash w'
    cases hrow : findSqueak squeakHash w.db with
    | none => trivial
    | some row =>
      obtain ⟨hmem, hhash⟩ := findBy_some hrow
      show (foundSqueak (some <$> L.deserialize row.squeak)).Sound N peer squeakHash w'
      cases hsqueak : L.deserialize row.squeak with
      | error e => trivial
      | ok squeak => exact (hright row hmem squeak hsqueak).trans hhash
  | readingKey squeak =>
    show (foundKey squeak (SqueakDb.getSqueakSecretKey squeakHash w.db)).Sound N peer squeakHash w'
    unfold foundKey
    split
    · trivial
    · exact hsound
  | requestingKey squeak =>
    show (answeredKey squeakHash squeak (N.requestsGet peer.address (.secretKey (hex squeakHash)) w.env).1).Sound
      N peer squeakHash w'
    unfold answeredKey
    split
    · trivial
    · split
      · exact savesNoOffer_saveSecretKey squeakHash _
      · exact hsound
  | readingTime squeak => exact ⟨hsound, hclock⟩
  | readingOffers squeak now =>
    show (foundOffers squeak peer (SqueakDb.getReceivedOffers squeakHash now w.db)).Sound N peer squeakHash w'
    unfold foundOffers
    split
    · trivial
    · rename_i hnone
      -- the query found nothing, so no offer from this peer is live
      exact ⟨hsound.1, hlive (liveOffers_eq_zero hsound.2 hnone)⟩
  | requestingOffer squeak =>
    show (answeredOffer N squeak (N.requestsGet peer.address (.offer (hex squeakHash)) w.env).1).Sound N peer squeakHash w'
    unfold answeredOffer
    split
    · trivial
    · split
      · trivial
      · split
        · trivial
        · exact ⟨hsound.1, hlive hsound.2⟩
  | unpacking squeak offer =>
    show (unpacked squeak peer offer (N.lightningClient.decodePayReq offer.paymentRequest w.env).1).Sound N peer
      squeakHash w'
    unfold unpacked
    split
    · trivial
    · exact ⟨⟨hsound.1, rfl⟩, hlive hsound.2⟩
  | saving o => exact ⟨hsound.1, hlive hsound.2⟩
  | inserting o now =>
    show (inserted (insertReceivedOffer now o w.db).1 : OfferStage L ρ).Sound N peer squeakHash _
    unfold inserted
    split <;> trivial
  | rest p =>
    have hrespects : p.Respects (SavesNoOffer L) := hsound
    show (p.next w).Respects (SavesNoOffer L)
    cases p with
    | ret a => trivial
    | raise e => trivial
    | step stmt obs k => exact hrespects.2 _

end OfferStage

/-! ## Runs -/

section Turns

variable {s : Staged (World ρ) (OfferCall L ρ)} {i : Nat} {c : OfferCall L ρ}

theorem OfferCall.Rivals.symm {c d : OfferCall L ρ} (h : c.Rivals d) : d.Rivals c := ⟨h.1.symm, h.2.symm⟩

/-- A call has no rival on the way to an INSERT when it goes that way itself. -/
theorem no_rival (hs : AllAlone N s) (halone : Alone N s (.thread i)) (hget : s.stages[i]? = some c)
    (hoffering : (c.next N s.world).stage.Offering) {j : Nat} {d : OfferCall L ρ} (hj : j ≠ i)
    (hd : s.stages[j]? = some d) (hdOffering : d.stage.Offering) : ¬ c.Rivals d := by
  have hnext : (c.stage.next N c.peer c.squeakHash s.world).Offering := hoffering
  rcases OfferStage.offering_next hnext with h | ⟨squeak, now, h⟩
  · exact hs.rivals i j c d (Ne.symm hj) hget hd h hdOffering
  · exact halone.enters i c squeak now rfl hget h j d hj hd hdOffering

theorem rivals_advance (hs : AllAlone N s) (halone : Alone N s (.thread i)) (hget : s.stages[i]? = some c)
    {j j' : Nat} {d d' : OfferCall L ρ} (hne : j ≠ j') (hj : (s.stages.set i (c.next N s.world))[j]? = some d)
    (hj' : (s.stages.set i (c.next N s.world))[j']? = some d') (hd : d.stage.Offering) (hd' : d'.stage.Offering) :
    ¬ d.Rivals d' := by
  rcases Machine.getElem?_set_cases hj with ⟨rfl, rfl⟩ | ⟨hji, hbefore⟩
  · rcases Machine.getElem?_set_cases hj' with ⟨rfl, rfl⟩ | ⟨hji', hbefore'⟩
    · exact absurd rfl hne
    · exact no_rival hs halone hget hd hji' hbefore' hd'
  · rcases Machine.getElem?_set_cases hj' with ⟨rfl, rfl⟩ | ⟨hji', hbefore'⟩
    · exact fun h => no_rival hs halone hget hd' hji hbefore hd h.symm
    · exact hs.rivals j j' d d' hne hbefore hbefore' hd hd'

/-- The INSERT of a call whose offers have all run out makes one live, and leaves those of other
squeaks and peers as they are. -/
theorem allAlone_inserting (hs : AllAlone N s) (halone : Alone N s (.thread i)) (hget : s.stages[i]? = some c)
    {o : ReceivedOffer} {now : Int} (hstage : c.stage = .inserting o now)
    (hclock : clock N s.world ≤ clock N { s.world with db := (insertReceivedOffer now o s.world.db).2 }) :
    AllAlone N ⟨{ s.world with db := (insertReceivedOffer now o s.world.db).2 },
      s.stages.set i (c.next N s.world)⟩ := by
  have hsound : (OfferStage.inserting o now : OfferStage L ρ).Sound N c.peer c.squeakHash s.world :=
    hstage ▸ hs.calls i c hget
  obtain ⟨⟨hhash, hpeer⟩, hnone⟩ := hsound
  have hlive : ∀ squeakHash peerAddress,
      liveOffers N squeakHash peerAddress { s.world with db := (insertReceivedOffer now o s.world.db).2 } ≤
        liveOffers N squeakHash peerAddress s.world +
          if o.squeakHash = squeakHash ∧ o.peerAddress = peerAddress then 1 else 0 :=
    fun squeakHash peerAddress => countP_insertReceivedOffer now o s.world.db squeakHash peerAddress _
  have hhashes : HashesRight L (insertReceivedOffer now o s.world.db).2 := by
    intro r hr
    rw [insertReceivedOffer_squeaks] at hr
    exact hs.hashes r hr
  refine ⟨hhashes, fun squeakHash peerAddress => ?_, fun j d hj => ?_, fun j j' d d' => rivals_advance hs halone hget⟩
  · have hle := hlive squeakHash peerAddress
    split at hle
    · rename_i hsame
      rw [← hsame.1, ← hsame.2, hhash, hpeer, hnone] at hle
      rw [← hsame.1, ← hsame.2, hhash, hpeer]
      exact hle
    · exact hle.trans (hs.offers squeakHash peerAddress)
  · rcases Machine.getElem?_set_cases hj with ⟨rfl, rfl⟩ | ⟨hji, hj⟩
    · show (c.stage.next N c.peer c.squeakHash s.world).Sound N c.peer c.squeakHash _
      rw [hstage]
      show (OfferStage.inserted (insertReceivedOffer now o s.world.db).1 : OfferStage L ρ).Sound N c.peer c.squeakHash _
      unfold OfferStage.inserted
      split <;> trivial
    · apply (hs.calls j d hj).mono hclock
      intro hoffering
      have hother : ¬ (c.squeakHash = d.squeakHash ∧ c.peer.address = d.peer.address) :=
        hs.rivals i j c d (Ne.symm hji) hget hj (hstage ▸ trivial) hoffering
      have hle := hlive d.squeakHash d.peer.address
      rw [hhash, hpeer, if_neg hother] at hle
      exact hle

end Turns

theorem allAlone_step (hC : L.CodecLaws) {s s' : Staged (World ρ) (OfferCall L ρ)} {a : Turn (World ρ)}
    (hs : AllAlone N s) (halone : Alone N s a) (ha : (OfferCall.staging N).step a s = some s') : AllAlone N s' := by
  have hclock := halone.clock s' ha
  cases a with
  | others world =>
    cases ha
    have hquiet : NoMoreLive s.world.db.receivedOffers.rows world.db.receivedOffers.rows ∧ HashesRight L world.db := by
      rcases halone.others world rfl with hsame | ⟨statement, hspares, hdb⟩
      · rw [hsame]
        exact ⟨fun _ _ _ => le_refl _, hs.hashes⟩
      · rw [hdb]
        exact ⟨noMoreLive_commit hspares _, hs.hashes.commit hC statement⟩
    have hlive := liveOffers_le hclock hquiet.1
    exact {
      hashes := hquiet.2
      offers := fun squeakHash peerAddress => (hlive squeakHash peerAddress).trans (hs.offers squeakHash peerAddress)
      calls := fun i c hi => (hs.calls i c hi).mono hclock fun _ => hlive _ _
      rivals := hs.rivals }
  | thread i =>
    obtain ⟨c, β, stmt, obs, k, hget, hprogram, rfl⟩ := Staging.step_thread ha
    by_cases hinsert : ∃ o now, c.stage = .inserting o now
    · obtain ⟨o, now, hstage⟩ := hinsert
      change c.stage.program N c.peer c.squeakHash = _ at hprogram
      rw [hstage, OfferStage.program_inserting] at hprogram
      cases hprogram
      exact allAlone_inserting hs halone hget hstage hclock
    · have hsaves : SavesNoOffer L s.world (stmt s.world).2 :=
        OfferStage.savesNoOffer_program (hs.calls i c hget) (fun o now h => hinsert ⟨o, now, h⟩) hprogram
      have hlive := liveOffers_le hclock (hsaves.1 ▸ fun _ _ _ => le_refl _)
      refine ⟨hsaves.2 hs.hashes, fun squeakHash peerAddress => (hlive _ _).trans (hs.offers squeakHash peerAddress),
        fun j d hj => ?_, fun j j' d d' => rivals_advance hs halone hget⟩
      rcases Machine.getElem?_set_cases hj with ⟨rfl, rfl⟩ | ⟨hji, hj⟩
      · exact OfferStage.sound_next hs.hashes (hs.calls _ c hget) hclock hsaves.1
      · exact (hs.calls j d hj).mono hclock fun _ => hlive _ _

theorem allAlone_offerCalls {w : World ρ} (hright : HashesRight L w.db) (hoffers : AtMostOneOffer N w)
    (calls : List (SqueakPeer × Bytes)) : AllAlone N (offerCalls L w calls) := by
  have hstart : ∀ (i : Nat) (c : OfferCall L ρ), (offerCalls L w calls).stages[i]? = some c → c.stage = .lookingUp := by
    intro i c hi
    obtain ⟨call, -, rfl⟩ := List.mem_map.1 (List.mem_of_getElem? hi)
    rfl
  refine ⟨hright, hoffers, fun i c hi => ?_, fun i j c d _ hi _ hc => ?_⟩
  · show c.stage.Sound N c.peer c.squeakHash w
    rw [hstart i c hi]
    trivial
  · rw [hstart i c hi] at hc
    exact hc.elim

/-- However calls for any squeaks and peers run, no peer ever has two live offers for a squeak when no
call reads the offers while a rival is between its reading and its INSERT. -/
theorem at_most_one_offer (hC : L.CodecLaws) {w : World ρ} (hright : HashesRight L w.db) (hoffers : AtMostOneOffer N w)
    {calls : List (SqueakPeer × Bytes)} {history : List (Staged (World ρ) (OfferCall L ρ) × Turn (World ρ))}
    {s : Staged (World ρ) (OfferCall L ρ)} (hr : Machine.Run (OfferCall.staging N).step (offerCalls L w calls) history s)
    (halone : ∀ x ∈ history, Alone N x.1 x.2) : ∀ t ∈ Machine.states history s, AtMostOneOffer N t.world := by
  have hstates := hr.invariant (fun _ _ _ hs hC' ha => allAlone_step hC hs hC' ha)
    (allAlone_offerCalls hright hoffers calls) halone
  exact fun t ht => (hstates t ht).offers

/-- The turn in which a call gets an offer from its peer. -/
theorem step_getsOffer (hJ : N.json.Laws) {offer : Offer}
    (htext : offer.HasText) {s : Staged (World ρ) (OfferCall L ρ)} {i : Nat} {squeak : L.CSqueak}
    (hget : s.stages[i]? = some ⟨peer, squeakHash, .requestingOffer squeak⟩) {env : ρ}
    (hanswer : N.requestsGet peer.address (.offer (hex squeakHash)) s.world.env =
      (.ok ⟨200, N.json.jsonify (App.offerJson offer)⟩, env)) :
    (OfferCall.staging N).step (.thread i) s =
      some ⟨⟨s.world.db, env⟩, s.stages.set i ⟨peer, squeakHash, .unpacking squeak offer⟩⟩ := by
  have hstage : OfferStage.answeredOffer N squeak (.ok ⟨200, N.json.jsonify (App.offerJson offer)⟩) =
      .unpacking squeak offer := by
    unfold OfferStage.answeredOffer
    simp only [ne_eq, not_true_eq_false, if_false, parseOffer_offerJson hJ htext]
  rw [Staging.step_of_step hget (OfferStage.program_requestingOffer N peer squeakHash squeak)]
  show some (Staged.mk _ (s.stages.set i ⟨peer, squeakHash, OfferStage.answeredOffer N squeak _⟩)) = _
  rw [hanswer, hstage]

namespace Sample

/-- The peer that sells. -/
def sellerPeer : SqueakPeer := ⟨some 1, "seller", ⟨.IPV4, "seller", 8555⟩, true, false⟩

/-- A peer that sells, and makes a new invoice for each request. -/
def sellerAnswer (request : Request) (o : Outside) : Except Err Response × Outside :=
  if request = .offer (hex squeak.val.reverse) then
    (.ok ⟨200, jsonText.jsonify (App.offerJson ⟨squeak.val.reverse, scalarToBytes 2,
      (o.invoices.map fun i => i.1.paymentRequest).headD "", "lnd", 9735⟩)⟩, { o with invoices := o.invoices.reverse })
  else (.ok ⟨402, App.text "Payment required"⟩, o)

/-- A node with that peer. -/
def shopper : Node squeaklib Outside := { node 1 with requestsGet := fun _ => sellerAnswer }

/-- The shopper holds the squeak without its key. -/
def shopperWorld : World Outside :=
  ⟨{ Db.empty with squeaks := [squeakRow squeaklib 1000000 squeak.val.reverse squeak ⟨4200⟩] },
    ⟨1000000, [(⟨0 :: scalarToBytes 7, "i", 1000, false, 0, 1000, 3600⟩, scalarToBytes 7),
      (⟨0 :: scalarToBytes 8, "ii", 1000, false, 0, 1000, 3600⟩, scalarToBytes 8)]⟩⟩

theorem shopper_answers (o : Outside) : shopper.requestsGet sellerPeer.address (.offer (hex squeak.val.reverse)) o =
    (.ok ⟨200, shopper.json.jsonify (App.offerJson ⟨squeak.val.reverse, scalarToBytes 2,
      (o.invoices.map fun i => i.1.paymentRequest).headD "", "lnd", 9735⟩)⟩,
      { o with invoices := o.invoices.reverse }) := by
  have hdef : shopper.requestsGet = fun _ => sellerAnswer := rfl
  rw [hdef]
  show sellerAnswer _ o = _
  unfold sellerAnswer
  rw [if_pos rfl]
  rfl

theorem hashesRight_shopper : HashesRight squeaklib shopperWorld.db := by
  intro r hr squeak' hsqueak
  obtain rfl := List.mem_singleton.1 hr
  cases (codecLaws.squeak squeak).symm.trans hsqueak
  rfl

theorem atMostOneOffer_shopper : AtMostOneOffer shopper shopperWorld := fun _ _ => Nat.zero_le _

end Sample

open Sample in
theorem at_most_one_offer_shopper : ∃ history s,
    Machine.Run (OfferCall.staging shopper).step (offerCalls squeaklib shopperWorld [(sellerPeer, squeak.val.reverse)])
      history s ∧ liveOffers shopper squeak.val.reverse sellerPeer.address s.world = 1 ∧
      ∀ t ∈ Machine.states history s, AtMostOneOffer shopper t.world := by
  have h₀ : Machine.Run (OfferCall.staging shopper).step
      (offerCalls squeaklib shopperWorld [(sellerPeer, squeak.val.reverse)]) [] _ := .init
  have h₁ := h₀.next (a := .thread 0) rfl
  have h₂ := h₁.next (a := .thread 0) rfl
  have h₃ := h₂.next (a := .thread 0) rfl
  have h₄ := h₃.next (a := .thread 0) rfl
  have h₅ := h₄.next (a := .thread 0) rfl
  have h₆ := h₅.next (step_getsOffer jsonText_laws ⟨"lnd", rfl⟩ (i := 0) rfl (shopper_answers _))
  have h₇ := h₆.next (a := .thread 0) rfl
  have h₈ := h₇.next (a := .thread 0) rfl
  have h₉ := h₈.next (a := .thread 0) rfl
  refine ⟨_, _, h₉, by decide +kernel, at_most_one_offer codecLaws hashesRight_shopper atMostOneOffer_shopper h₉ ?_⟩
  intro x hx
  simp only [List.nil_append, List.cons_append, List.mem_cons, List.not_mem_nil, or_false] at hx
  rcases hx with rfl | rfl | rfl | rfl | rfl | rfl | rfl | rfl | rfl
  all_goals
    refine ⟨?_, fun world h => (by cases h), ?_⟩
    · intro s' hs'
      cases hs'
      exact le_refl _
    · intro i c _ _ hi _ _ j d hj hd
      cases hi
      cases j with
      | zero => exact absurd rfl hj
      | succ j => cases hd

open Sample in
/-- Two calls for one squeak read the offers of the peer before either of them inserts one. -/
theorem two_offers : ∃ history s,
    Machine.Run (OfferCall.staging shopper).step
      (offerCalls squeaklib shopperWorld [(sellerPeer, squeak.val.reverse), (sellerPeer, squeak.val.reverse)]) history s ∧
      ∃ t ∈ Machine.states history s, ¬ AtMostOneOffer shopper t.world := by
  have h₀ : Machine.Run (OfferCall.staging shopper).step
      (offerCalls squeaklib shopperWorld [(sellerPeer, squeak.val.reverse), (sellerPeer, squeak.val.reverse)]) [] _ :=
    .init
  have h₁ := h₀.next (a := .thread 0) rfl
  have h₂ := h₁.next (a := .thread 0) rfl
  have h₃ := h₂.next (a := .thread 0) rfl
  have h₄ := h₃.next (a := .thread 0) rfl
  have h₅ := h₄.next (a := .thread 0) rfl
  -- the second call looks for offers while the first waits for its peer
  have h₆ := h₅.next (a := .thread 1) rfl
  have h₇ := h₆.next (a := .thread 1) rfl
  have h₈ := h₇.next (a := .thread 1) rfl
  have h₉ := h₈.next (a := .thread 1) rfl
  have h₁₀ := h₉.next (a := .thread 1) rfl
  have h₁₁ := h₁₀.next (step_getsOffer jsonText_laws ⟨"lnd", rfl⟩ (i := 0) rfl (shopper_answers _))
  have h₁₂ := h₁₁.next (step_getsOffer jsonText_laws ⟨"lnd", rfl⟩ (i := 1) rfl (shopper_answers _))
  have h₁₃ := h₁₂.next (a := .thread 0) rfl
  have h₁₄ := h₁₃.next (a := .thread 0) rfl
  have h₁₅ := h₁₄.next (a := .thread 0) rfl
  have h₁₆ := h₁₅.next (a := .thread 1) rfl
  have h₁₇ := h₁₆.next (a := .thread 1) rfl
  have h₁₈ := h₁₇.next (a := .thread 1) rfl
  refine ⟨_, _, h₁₈, _, List.mem_append_right _ List.mem_cons_self, fun h => ?_⟩
  exact absurd (h squeak.val.reverse sellerPeer.address) (by decide +kernel)

end Squeaknode
