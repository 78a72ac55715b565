/-
What becomes of the other hashes of a sync when the download of one of them raises, or a listener that it
notifies. The two loops of `download_interest_range` end with the first download that raises, so that what
the later ones would have obtained is lost (`sync_isolated_iff`).
-/
import Squeaknode.Interleave.Isolate
import Squeaknode.Client.SyncSoundness
import Squeaknode.Node.Listeners

namespace Squeaknode

open Interleave Relational SqueakDb

variable {L : Squeaklib} {ρ : Type}

/-! ## The downloads of a sync -/

/-- A turn of one of the two loops. -/
inductive Download
  | squeak (squeakHash : Bytes)
  | secretKey (squeakHash : Bytes)
  deriving DecidableEq

namespace Download

/-- The hash that a turn is about. -/
def hash : Download → Bytes
  | squeak squeakHash => squeakHash
  | secretKey squeakHash => squeakHash

/-- The turns of the first loop and then those of the second one. -/
def all (squeakHashes : List Bytes) : List Download :=
  squeakHashes.map squeak ++ squeakHashes.map secretKey

theorem hash_mem {squeakHashes : List Bytes} {d : Download} (h : d ∈ all squeakHashes) : d.hash ∈ squeakHashes := by
  rcases List.mem_append.1 h with h | h <;>
  · obtain ⟨squeakHash, hmem, rfl⟩ := List.mem_map.1 h
    exact hmem

section

variable (N : Node L ρ) (listeners : Listeners L ρ) (peer : SqueakPeer) (minBlock maxBlock : Int)
  (pubkeys : List L.PublicKey)

/-- The program of a turn. -/
def perform : Download → NodeM ρ Unit
  | squeak squeakHash => PeerDownloader.downloadSqueakWith N peer (NotifyingStore.saveSqueak N listeners) squeakHash
    (some minBlock) (some maxBlock) (some pubkeys)
  | secretKey squeakHash => PeerDownloader.downloadSecretKeyWith N peer (NotifyingStore.saveSecretKey listeners)
    (NotifyingStore.handleOffer N listeners) squeakHash

end

end Download

/-! ## What fails and what is obtained -/

/-- The store can read its squeaks, and each has the hash of its row. -/
def Readable (L : Squeaklib) (db : Db) : Prop :=
  ∀ r ∈ db.squeaks, ∃ squeak, L.deserialize r.squeak = .ok squeak ∧ r.hash = getHash L squeak

/-- The squeak passes the checks of `save_squeak`, and the limits leave room for it. -/
structure Savable (N : Node L ρ) (squeak : L.CSqueak) (w : World ρ) : Prop where
  checked : L.checkSqueak squeak = .ok ()
  header : ∃ header, headerOf N squeak w.env = .ok header
  room : HasRoom N squeak w.db

/-- The squeak is stored without a secret key. -/
def Locked (L : Squeaklib) (squeakHash : Bytes) (squeak : L.CSqueak) (db : Db) : Prop :=
  ∃ r, findSqueak squeakHash db = some r ∧ L.deserialize r.squeak = .ok squeak ∧ Keyless r

/-- The environment after a squeak was saved. -/
def afterSaving (N : Node L ρ) (squeak : L.CSqueak) (w : World ρ) : ρ :=
  (N.timestampNowMs (afterHeader N squeak w).env).2

/-- The offer is stored: it has a host that the driver takes, and a new payment hash. -/
def Insertable (offer : Offer) (peerAddress : PeerAddress) (payReq : PayReq) (db : Db) : Prop :=
  (∃ host, bindAddress (offeredAddress offer peerAddress) = .ok (some host)) ∧
    ∀ r ∈ db.receivedOffers.rows, r.paymentHash ≠ payReq.paymentHash

/-- The offer with the id of its row, of which the listeners hear. -/
def toldOffer (L : Squeaklib) (squeak : L.CSqueak) (offer : Offer) (peerAddress : PeerAddress) (payReq : PayReq)
    (db : Db) : ReceivedOffer :=
  { receivedOfferOf L squeak offer peerAddress payReq with receivedOfferId := some (db.receivedOffers.lastId + 1) }

namespace Download

variable (N : Node L ρ) (listeners : Listeners L ρ) (peer : SqueakPeer) (minBlock maxBlock : Int)
  (pubkeys : List L.PublicKey)

/-- The peer's answer about the hash makes the download raise, or a listener that hears of what it brings. -/
def Fails : Download → World ρ → Prop
  | squeak squeakHash, w => findSqueak squeakHash w.db = none ∧
    match gotSqueak L (N.requestsGet peer.address (.squeak (hex squeakHash)) w.env).1 with
    | .error _ => True
    | .ok none => False
    | .ok (some found) =>
      PeerDownloader.wanted squeakHash (some minBlock) (some maxBlock) (some pubkeys) found = true ∧
        (Savable N found (afterRequest N peer (.squeak (hex squeakHash)) w) →
          listeners.newSqueakListener.Fails found
            (afterSaving N found (afterRequest N peer (.squeak (hex squeakHash)) w)))
  | secretKey squeakHash, w => ∃ locked, Locked L squeakHash locked w.db ∧
    match gotSecretKey (N.requestsGet peer.address (.secretKey (hex squeakHash)) w.env).1 with
    | .error _ => True
    | .ok answer => match answer.filter fun k => !k.isEmpty with
      | some key => L.checkSqueakSecretKey locked key = .ok () →
        listeners.newSecretKeyListener.Fails locked (afterRequest N peer (.secretKey (hex squeakHash)) w).env ∨
          ∃ e, keyOutcome L key locked = .error e
      | none =>
        hasOffer peer squeakHash (N.timestampNowMs (afterRequest N peer (.secretKey (hex squeakHash)) w).env).1 w.db =
          false ∧
        match gotOffer N.json (N.requestsGet peer.address (.offer (hex squeakHash))
          (beforeOffer N peer squeakHash w).env).1 with
        | .error _ => True
        | .ok none => False
        | .ok (some offer) => getHash L locked = offer.squeakHash → ∀ payReq env,
          N.lightningClient.decodePayReq offer.paymentRequest
            (afterRequest N peer (.offer (hex squeakHash)) (beforeOffer N peer squeakHash w)).env = (.ok payReq, env) →
          (∃ e, bindAddress (offeredAddress offer peer.address) = .error e) ∨
            Insertable offer peer.address payReq w.db ∧ listeners.newReceivedOfferListener.Fails
              (toldOffer L locked offer peer.address payReq w.db) (N.timestampNowMs env).2

/-- The peer's answer about the hash brings a squeak, a secret key or an offer that the store lacks. -/
def Obtains : Download → World ρ → Prop
  | squeak squeakHash, w => findSqueak squeakHash w.db = none ∧
    match gotSqueak L (N.requestsGet peer.address (.squeak (hex squeakHash)) w.env).1 with
    | .error _ => False
    | .ok none => False
    | .ok (some found) =>
      PeerDownloader.wanted squeakHash (some minBlock) (some maxBlock) (some pubkeys) found = true ∧
        Savable N found (afterRequest N peer (.squeak (hex squeakHash)) w)
  | secretKey squeakHash, w => ∃ locked, Locked L squeakHash locked w.db ∧
    match gotSecretKey (N.requestsGet peer.address (.secretKey (hex squeakHash)) w.env).1 with
    | .error _ => False
    | .ok answer => match answer.filter fun k => !k.isEmpty with
      | some key => L.checkSqueakSecretKey locked key = .ok ()
      | none =>
        hasOffer peer squeakHash (N.timestampNowMs (afterRequest N peer (.secretKey (hex squeakHash)) w).env).1 w.db =
          false ∧
        match gotOffer N.json (N.requestsGet peer.address (.offer (hex squeakHash))
          (beforeOffer N peer squeakHash w).env).1 with
        | .error _ => False
        | .ok none => False
        | .ok (some offer) => getHash L locked = offer.squeakHash ∧ ∃ payReq env,
          N.lightningClient.decodePayReq offer.paymentRequest
            (afterRequest N peer (.offer (hex squeakHash)) (beforeOffer N peer squeakHash w)).env = (.ok payReq, env) ∧
          Insertable offer peer.address payReq w.db

end Download

/-- What a download that obtains something does to the store. -/
inductive Obtained (L : Squeaklib) (squeakHash : Bytes) (db : Db) : Db → Prop
  | squeak {squeak : L.CSqueak} {r : SqueakRow} : findSqueak squeakHash db = none → r.hash = squeakHash →
      r.hash = getHash L squeak → L.deserialize r.squeak = .ok squeak →
      Obtained L squeakHash db { db with squeaks := db.squeaks ++ [r] }
  | secretKey {squeak : L.CSqueak} {secretKey : Bytes} {keyed : SqueakRow → SqueakRow} :
      Locked L squeakHash squeak db → secretKey ≠ [] →
      (∀ r, (keyed r).hash = r.hash ∧ (keyed r).squeak = r.squeak ∧ (keyed r).secretKey = some secretKey) →
      Obtained L squeakHash db (updateSqueak squeakHash keyed db)
  | offer {rows : Table ReceivedOfferRow} {r : ReceivedOfferRow} : r.squeakHash = squeakHash →
      rows.rows = db.receivedOffers.rows ++ [r] → Obtained L squeakHash db { db with receivedOffers := rows }

/-- Saving a key sets it in the row of the squeak. -/
theorem withKey_eq_updateSqueak (squeakHash key : Bytes) (squeak : L.CSqueak) (db : Db) :
    withKey L squeakHash key squeak db = updateSqueak squeakHash (rowWithKey L key squeak) db := by
  rw [withKey_eq, withKey_squeaks]
  rfl

theorem obtained_withKey {squeakHash key : Bytes} {squeak : L.CSqueak} {db : Db}
    (hlocked : Locked L squeakHash squeak db) (hne : key ≠ []) :
    Obtained L squeakHash db (withKey L squeakHash key squeak db) := by
  rw [withKey_eq_updateSqueak]
  exact .secretKey hlocked hne fun _ => ⟨rfl, rfl, rfl⟩

theorem keyless_iff {r : SqueakRow} : r.secretKey.any (fun k => !k.isEmpty) = false ↔ Keyless r := by
  unfold Keyless
  cases r.secretKey with
  | none => simp
  | some k => simp

theorem Readable.find {db : Db} (h : Readable L db) {squeakHash : Bytes} {r : SqueakRow}
    (hr : findSqueak squeakHash db = some r) :
    ∃ squeak, L.deserialize r.squeak = .ok squeak ∧ getHash L squeak = squeakHash := by
  obtain ⟨hmem, hhash⟩ := findSqueak_some hr
  obtain ⟨squeak, hs, heq⟩ := h r hmem
  exact ⟨squeak, hs, heq.symm.trans hhash⟩

/-- The program raises if and only if `fails`, and changes the store if and only if `obtains`. -/
structure Settles (L : Squeaklib) (p : NodeM ρ Unit) (w : World ρ) (squeakHash : Bytes) (fails obtains : Prop) :
    Prop where
  raises : p.Raises w ↔ fails
  obtained : obtains → Obtained L squeakHash w.db (p.run w).2.db
  same : ¬ obtains → (p.run w).2.db = w.db

section Settles

variable {p : NodeM ρ Unit} {w w' : World ρ} {squeakHash : Bytes}

theorem Settles.nothing (hrun : p.run w = (.ok (), w')) (hdb : w'.db = w.db) :
    Settles L p w squeakHash False False where
  raises := by simp [Prog.Raises, hrun]
  obtained := False.elim
  same _ := by rw [hrun, hdb]

theorem Settles.failed {e : Err} (hrun : p.run w = (.error e, w')) (hdb : w'.db = w.db) :
    Settles L p w squeakHash True False where
  raises := by simp [Prog.Raises, hrun]
  obtained := False.elim
  same _ := by rw [hrun, hdb]

theorem Settles.congr {fails fails' obtains obtains' : Prop} (h : Settles L p w squeakHash fails obtains)
    (hfails : fails' ↔ fails) (hobtains : obtains' ↔ obtains) : Settles L p w squeakHash fails' obtains' where
  raises := h.raises.trans hfails.symm
  obtained h' := h.obtained (hobtains.1 h')
  same h' := h.same fun ho => h' (hobtains.2 ho)

/-- What is obtained is stored before the listeners hear of it, and what they raise is raised. -/
theorem Settles.told {ι : Type} {listener : EventListener ι ρ} {item : ι}
    (hobtained : Obtained L squeakHash w.db w'.db)
    (hrun : p.run w = ((fun _ => ()) <$> ((listener.handleNewItem item).run w').1,
      ((listener.handleNewItem item).run w').2)) :
    Settles L p w squeakHash (listener.Fails item w'.env) True where
  raises := by
    rw [← EventListener.run_handleNewItem_raises_iff]
    unfold Prog.Raises
    rw [hrun]
    cases ((listener.handleNewItem item).run w').1 <;> simp
  obtained _ := by
    rw [hrun]
    show Obtained L squeakHash w.db ((listener.handleNewItem item).run w').2.db
    rw [EventListener.run_handleNewItem_db]
    exact hobtained
  same h := absurd trivial h

end Settles

section Perform

variable (N : Node L ρ) (listeners : Listeners L ρ) (peer : SqueakPeer) (minBlock maxBlock : Int)
  (pubkeys : List L.PublicKey)

/-- Saving the squeak that a peer sent. -/
theorem settles_saveSqueak (hC : L.CodecLaws) {p : NodeM ρ Unit} {w w' : World ρ} {squeakHash : Bytes}
    {squeak : L.CSqueak} (hrow : findSqueak squeakHash w.db = none) (hhash : getHash L squeak = squeakHash)
    (hdb : w'.db = w.db)
    (hrun : p.run w = ((fun _ => ()) <$> ((NotifyingStore.saveSqueak N listeners squeak).run w').1,
      ((NotifyingStore.saveSqueak N listeners squeak).run w').2)) :
    Settles L p w squeakHash
      (Savable N squeak w' → listeners.newSqueakListener.Fails squeak (afterSaving N squeak w'))
      (Savable N squeak w') := by
  by_cases hsave : Savable N squeak w'
  · obtain ⟨header, hh⟩ := hsave.header
    have hfree : taken SqueakRow.hash (getHash L squeak) w'.db.squeaks = false := by
      rw [hhash, hdb]
      exact taken_eq_false.2 (findBy_none.1 hrow)
    let row := squeakRow L (N.timestampNowMs (afterHeader N squeak w').env).1 (getHash L squeak) squeak header
    have hsaved : (SqueakStore.saveSqueak N squeak).run w' = (.ok (some row.hash),
        ⟨{ w'.db with squeaks := w'.db.squeaks ++ [row] }, afterSaving N squeak w'⟩) := by
      rw [run_saveSqueak_valid hsave.checked hh hsave.room, insertSqueak_of_free row hfree]
      rfl
    rw [NotifyingStore.run_saveSqueak_inserted hsaved] at hrun
    simp only [Functor.map_map] at hrun
    refine (Settles.told ?_ hrun).congr (by simp [hsave]) (by simp [hsave])
    rw [hdb]
    exact .squeak hrow hhash rfl (hC.squeak squeak)
  · obtain ⟨e, env, hsaved⟩ := run_saveSqueak_invalid N squeak w' fun h => hsave ⟨h.1, h.2.1, h.2.2⟩
    rw [NotifyingStore.run_saveSqueak_error hsaved] at hrun
    exact (Settles.failed hrun hdb).congr (by simp [hsave]) (by simp [hsave])

/-- The outcome of one turn of the first loop. -/
theorem settles_squeak (hC : L.CodecLaws) {w : World ρ} (hw : Readable L w.db) (squeakHash : Bytes) :
    Settles L ((Download.squeak squeakHash).perform N listeners peer minBlock maxBlock pubkeys) w squeakHash
      ((Download.squeak squeakHash).Fails N listeners peer minBlock maxBlock pubkeys w)
      ((Download.squeak squeakHash).Obtains N peer minBlock maxBlock pubkeys w) := by
  have hrun := run_downloadSqueakWith N peer squeakHash w (NotifyingStore.saveSqueak N listeners) (some minBlock)
    (some maxBlock) (some pubkeys)
  unfold Download.perform Download.Fails Download.Obtains
  rcases hrow : findSqueak squeakHash w.db with _ | r
  · rw [hrow] at hrun
    simp only [squeakOfRow] at hrun
    rcases hgot : gotSqueak L (N.requestsGet peer.address (.squeak (hex squeakHash)) w.env).1 with e | _ | squeak <;>
      rw [hgot] at hrun
    · exact (Settles.failed hrun rfl).congr (by simp [hrow, hgot]) (by simp [hgot])
    · exact (Settles.nothing hrun rfl).congr (by simp [hgot]) (by simp [hgot])
    · by_cases hwanted : PeerDownloader.wanted squeakHash (some minBlock) (some maxBlock) (some pubkeys) squeak = true
      · simp only [hwanted, if_true] at hrun
        have hdb : (afterRequest N peer (.squeak (hex squeakHash)) w).db = w.db := rfl
        exact (settles_saveSqueak N listeners hC hrow (wanted_iff.1 hwanted).1 hdb hrun).congr
          (by simp [hrow, hgot, hwanted]) (by simp [hrow, hgot, hwanted])
      · simp only [hwanted] at hrun
        exact (Settles.nothing hrun rfl).congr (by simp [hgot, hwanted]) (by simp [hgot, hwanted])
  · obtain ⟨squeak, hs, -⟩ := hw.find hrow
    simp only [hrow, squeakOfRow, hs] at hrun
    exact (Settles.nothing hrun rfl).congr (by simp [hrow]) (by simp [hrow])

/-- A stored squeak is locked if its row has no secret key. -/
theorem locked_iff {w : World ρ} {squeakHash : Bytes} {r : SqueakRow} {squeak : L.CSqueak}
    (hrow : findSqueak squeakHash w.db = some r) (hs : L.deserialize r.squeak = .ok squeak) (locked : L.CSqueak) :
    Locked L squeakHash locked w.db ↔ Keyless r ∧ locked = squeak := by
  constructor
  · rintro ⟨r', hr', hs', hless⟩
    obtain rfl : r' = r := Option.some.inj (hr'.symm.trans hrow)
    exact ⟨hless, Except.ok.inj (hs'.symm.trans hs)⟩
  · rintro ⟨hless, rfl⟩
    exact ⟨r, hrow, hs, hless⟩

/-- Saving the key that a peer sent. -/
theorem settles_saveSecretKey {p : NodeM ρ Unit} {w w' : World ρ} {squeakHash key : Bytes} {r : SqueakRow}
    {squeak : L.CSqueak} (hrow : findSqueak squeakHash w.db = some r) (hs : L.deserialize r.squeak = .ok squeak)
    (hless : Keyless r) (hne : key ≠ []) (hdb : w'.db = w.db)
    (hrun : p.run w = (NotifyingStore.saveSecretKey listeners squeakHash key).run w') :
    Settles L p w squeakHash
      (L.checkSqueakSecretKey squeak key = .ok () →
        listeners.newSecretKeyListener.Fails squeak w'.env ∨ ∃ e, keyOutcome L key squeak = .error e)
      (L.checkSqueakSecretKey squeak key = .ok ()) := by
  have hrow' : findSqueak squeakHash w'.db = some r := by rw [hdb]; exact hrow
  have hlocked : Locked L squeakHash squeak w.db := ⟨r, hrow, hs, hless⟩
  by_cases hc : L.checkSqueakSecretKey squeak key = .ok ()
  · let saved : World ρ := { w' with db := setSqueakSecretKey squeakHash key w'.db }
    have hraises : _ ↔ listeners.newSecretKeyListener.Fails squeak w'.env :=
      EventListener.run_handleNewItem_raises_iff squeak saved
    have hquiet := EventListener.run_handleNewItem_db listeners.newSecretKeyListener squeak saved
    have hdone := hrun.trans (run_saveSecretKeyWith_valid listeners.newSecretKeyListener.handleNewItem
      (EventListener.run_handleNewItem_db _) hrow' hs hc)
    rcases htold : (listeners.newSecretKeyListener.handleNewItem squeak).run saved with ⟨e | _, told⟩ <;>
      rw [htold] at hraises hquiet hdone
    · -- a listener raises, and the squeak stays locked with its key
      have hfails : listeners.newSecretKeyListener.Fails squeak w'.env := hraises.1 ⟨e, rfl⟩
      constructor
      · simp [Prog.Raises, hdone, hfails]
      · intro _
        rw [hdone]
        show Obtained L squeakHash w.db told.db
        rw [show told.db = setSqueakSecretKey squeakHash key w'.db from hquiet, hdb]
        exact .secretKey hlocked hne fun _ => ⟨rfl, rfl, rfl⟩
      · intro hnot
        exact absurd hc hnot
    · have hnot : ¬ listeners.newSecretKeyListener.Fails squeak w'.env := fun h => by
        obtain ⟨e, he⟩ := hraises.2 h
        cases he
      constructor
      · simp [Prog.Raises, hdone, hc, hnot]
      · intro _
        rw [hdone]
        show Obtained L squeakHash w.db (withKey L squeakHash key squeak w'.db)
        rw [hdb]
        exact obtained_withKey hlocked hne
      · intro hnot
        exact absurd hc hnot
  · obtain ⟨e, hbad⟩ := run_saveSecretKeyWith_invalid listeners.newSecretKeyListener.handleNewItem key hrow'
      fun squeak' hs' => by
        rw [hs] at hs'
        cases hs'
        exact hc
    exact (Settles.failed (hrun.trans hbad) hdb).congr (by simp [hc]) (by simp [hc])

/-- Handling the offer that a peer sent. -/
theorem settles_handleOffer {p : NodeM ρ Unit} {w w' : World ρ} {squeakHash : Bytes} {squeak : L.CSqueak}
    {offer : Offer} (hhash : getHash L squeak = squeakHash) (hdb : w'.db = w.db)
    (hrun : p.run w = (NotifyingStore.handleOffer N listeners squeak offer peer.address).run w') :
    Settles L p w squeakHash
      (getHash L squeak = offer.squeakHash → ∀ payReq env,
        N.lightningClient.decodePayReq offer.paymentRequest w'.env = (.ok payReq, env) →
          (∃ e, bindAddress (offeredAddress offer peer.address) = .error e) ∨
            Insertable offer peer.address payReq w.db ∧ listeners.newReceivedOfferListener.Fails
              (toldOffer L squeak offer peer.address payReq w.db) (N.timestampNowMs env).2)
      (getHash L squeak = offer.squeakHash ∧ ∃ payReq env,
        N.lightningClient.decodePayReq offer.paymentRequest w'.env = (.ok payReq, env) ∧
          Insertable offer peer.address payReq w.db) := by
  by_cases hsame : getHash L squeak = offer.squeakHash
  swap
  · obtain ⟨e, env, hbad⟩ := run_handleOfferWith_error N (NotifyingStore.saveReceivedOffer N listeners) squeak offer
      peer.address w' fun heq => absurd heq hsame
    exact (Settles.failed (hrun.trans hbad) hdb).congr (by simp [hsame]) (by simp [hsame])
  rcases hdecode : N.lightningClient.decodePayReq offer.paymentRequest w'.env with ⟨e | payReq, env⟩
  · obtain ⟨e', env', hbad⟩ := run_handleOfferWith_error N (NotifyingStore.saveReceivedOffer N listeners) squeak offer
      peer.address w' fun _ payReq => by simp [hdecode]
    exact (Settles.failed (hrun.trans hbad) hdb).congr (by simp) (by simp)
  let o := receivedOfferOf L squeak offer peer.address payReq
  have hhandle := hrun.trans
    (run_handleOfferWith_decoded (NotifyingStore.saveReceivedOffer N listeners) peer.address hsame hdecode)
  have hsave := run_saveReceivedOffer N o { w' with env := env }
  by_cases hinsertable : Insertable offer peer.address payReq w.db
  · -- the offer is inserted, and the listeners hear of it
    obtain ⟨⟨host, haddress⟩, hfree⟩ := id hinsertable
    rw [← hdb] at hfree
    have hsaved : (SqueakStore.saveReceivedOffer N o).run { w' with env := env } =
        (.ok (some (w.db.receivedOffers.lastId + 1)), afterReceivedOffer N o { w' with env := env }) := by
      rw [hsave, insertReceivedOffer_free (o := o) haddress hfree, ← hdb]
    rw [NotifyingStore.run_saveReceivedOffer_inserted hsaved] at hhandle
    simp only [Functor.map_map] at hhandle
    refine (Settles.told ?_ hhandle).congr ?_ (by simp [hsame, hinsertable])
    · rw [afterReceivedOffer_free (w := { w' with env := env }) haddress hfree, hdb]
      exact .offer hhash rfl
    · simp [hsame, haddress, hinsertable, afterReceivedOffer, toldOffer, o]
  · have hkept : ∀ host, bindAddress o.lightningAddress = .ok (some host) →
        ∃ r ∈ w'.db.receivedOffers.rows, r.paymentHash = o.paymentHash := by
      intro host haddress
      by_contra hfree
      push Not at hfree
      exact hinsertable ⟨⟨host, haddress⟩, hdb ▸ hfree⟩
    have hdb' := (afterReceivedOffer_kept (N := N) (w := { w' with env := env }) hkept).trans hdb
    rw [insertReceivedOffer_kept hkept] at hsave
    rcases haddress : bindAddress (offeredAddress offer peer.address) with e | host
    · -- the driver does not take the address
      rw [show bindAddress o.lightningAddress = .error e from haddress] at hsave
      rw [NotifyingStore.run_saveReceivedOffer_error hsave] at hhandle
      exact (Settles.failed hhandle hdb').congr (by simp) (by simp [hinsertable])
    · rw [show bindAddress o.lightningAddress = .ok host from haddress] at hsave
      rw [NotifyingStore.run_saveReceivedOffer_none hsave] at hhandle
      exact (Settles.nothing hhandle hdb').congr (by simp [hsame, hinsertable]) (by simp [hinsertable])

/-- The outcome of one turn of the second loop. -/
theorem settles_secretKey {w : World ρ} (hw : Readable L w.db) (squeakHash : Bytes) :
    Settles L ((Download.secretKey squeakHash).perform N listeners peer minBlock maxBlock pubkeys) w squeakHash
      ((Download.secretKey squeakHash).Fails N listeners peer minBlock maxBlock pubkeys w)
      ((Download.secretKey squeakHash).Obtains N peer minBlock maxBlock pubkeys w) := by
  have hrun := run_downloadSecretKeyWith N peer squeakHash w (NotifyingStore.saveSecretKey listeners)
    (NotifyingStore.handleOffer N listeners)
  unfold Download.perform Download.Fails Download.Obtains
  rcases hrow : findSqueak squeakHash w.db with _ | r
  · have hlocked : ∀ locked, ¬ Locked L squeakHash locked w.db := by
      rintro locked ⟨r, hr, -⟩
      rw [hrow] at hr
      cases hr
    simp only [hrow, squeakOfRow] at hrun
    exact (Settles.nothing hrun rfl).congr (by simp [hlocked]) (by simp [hlocked])
  obtain ⟨squeak, hs, hhash⟩ := hw.find hrow
  have hlocked := locked_iff hrow hs
  simp only [hrow, squeakOfRow, hs, Functor.map, Except.map, Option.bind_some] at hrun
  by_cases hless : Keyless r
  swap
  · rw [if_pos (by rw [← Bool.not_eq_false, keyless_iff]; exact hless)] at hrun
    exact (Settles.nothing hrun rfl).congr (by simp [hlocked, hless]) (by simp [hlocked, hless])
  rw [if_neg (by rw [Bool.not_eq_true, keyless_iff]; exact hless)] at hrun
  simp only [hlocked, hless, true_and, exists_eq_left]
  rcases hgot : gotSecretKey (N.requestsGet peer.address (.secretKey (hex squeakHash)) w.env).1 with e | answer <;>
    simp only [hgot] at hrun
  · exact Settles.failed hrun rfl
  rcases hk : Option.filter (fun k => !List.isEmpty k) answer with _ | key <;> simp only [hk] at hrun ⊢
  · by_cases hoffer : hasOffer peer squeakHash
        (N.timestampNowMs (afterRequest N peer (.secretKey (hex squeakHash)) w).env).1 w.db = true
    · rw [if_pos hoffer] at hrun
      exact (Settles.nothing hrun rfl).congr (by simp [hoffer]) (by simp [hoffer])
    rw [if_neg hoffer] at hrun
    rw [Bool.not_eq_true] at hoffer
    simp only [hoffer, true_and]
    rcases hgotOffer : gotOffer N.json (N.requestsGet peer.address (.offer (hex squeakHash))
      (beforeOffer N peer squeakHash w).env).1 with e | _ | offer <;> simp only [hgotOffer] at hrun ⊢
    · exact Settles.failed hrun rfl
    · exact Settles.nothing hrun rfl
    · exact settles_handleOffer N listeners peer hhash rfl hrun
  · have hne : key ≠ [] := by simpa using (Option.filter_eq_some_iff.1 hk).2
    refine settles_saveSecretKey listeners hrow hs hless hne ?_ hrun
    rfl

theorem Download.settles (hC : L.CodecLaws) {w : World ρ} (hw : Readable L w.db) (d : Download) :
    Settles L (d.perform N listeners peer minBlock maxBlock pubkeys) w d.hash
      (d.Fails N listeners peer minBlock maxBlock pubkeys w) (d.Obtains N peer minBlock maxBlock pubkeys w) := by
  cases d with
  | squeak squeakHash => exact settles_squeak N listeners peer minBlock maxBlock pubkeys hC hw squeakHash
  | secretKey squeakHash => exact settles_secretKey N listeners peer minBlock maxBlock pubkeys hw squeakHash

end Perform

/-! ## What the store has of a hash -/

/-- Whether the squeak is stored, whether with a secret key, and how many offers there are for it. -/
structure Holding where
  stored : Bool
  secretKey : Bool
  offers : Nat
  deriving DecidableEq

/-- What the store holds for a hash. -/
def holding (squeakHash : Bytes) (db : Db) : Holding where
  stored := (findSqueak squeakHash db).isSome
  secretKey := ((findSqueak squeakHash db).bind SqueakRow.secretKey).any fun k => !k.isEmpty
  offers := (db.receivedOffers.rows.filter fun o => o.squeakHash == squeakHash).length

/-- How much the store holds. -/
def Holding.count (x : Holding) : Nat := x.stored.toNat + x.secretKey.toNat + x.offers

theorem Obtained.readable {squeakHash : Bytes} {db db' : Db} (h : Obtained L squeakHash db db') (hdb : Readable L db) :
    Readable L db' := by
  cases h with
  | squeak hfree hhash hget hs =>
    intro r hr
    rcases List.mem_append.1 hr with hr | hr
    · exact hdb r hr
    · rw [List.mem_singleton.1 hr]
      exact ⟨_, hs, hget⟩
  | secretKey hlocked hne hkeyed =>
    intro r hr
    obtain ⟨r₀, hr₀, rfl⟩ := mem_updateWhere.1 hr
    obtain ⟨squeak, hs, hhash⟩ := hdb r₀ hr₀
    obtain ⟨hsameHash, hsameSqueak, -⟩ := hkeyed r₀
    refine ⟨squeak, ?_, ?_⟩ <;> split
    · rw [hsameSqueak, hs]
    · exact hs
    · rw [hsameHash, hhash]
    · exact hhash
  | offer hhash hrows => exact hdb

theorem findSqueak_append (other : Bytes) (r : SqueakRow) (db : Db) :
    findSqueak other { db with squeaks := db.squeaks ++ [r] } =
      (findSqueak other db).or (if r.hash = other then some r else none) := by
  show List.find? _ (db.squeaks ++ [r]) = _
  rw [List.find?_append]
  by_cases h : r.hash = other <;> simp [h, findSqueak, findBy]

theorem findSqueak_updateSqueak_ne {squeakHash other : Bytes} (hne : other ≠ squeakHash) {f : SqueakRow → SqueakRow}
    (hf : ∀ r, (f r).hash = r.hash) (db : Db) :
    findSqueak other (updateSqueak squeakHash f db) = findSqueak other db := by
  refine (findBy_updateWhere (p := fun r => r.hash == squeakHash) hf other db.squeaks).trans ?_
  rcases hr : findBy SqueakRow.hash other db.squeaks with _ | r
  · simp [findSqueak, hr]
  · have hhash : r.hash ≠ squeakHash := by rw [(findBy_some hr).2]; exact hne
    simp [findSqueak, hr, hhash]

theorem findSqueak_withKey_ne {squeakHash other : Bytes} (hne : other ≠ squeakHash) (key : Bytes) (squeak : L.CSqueak)
    (db : Db) : findSqueak other (withKey L squeakHash key squeak db) = findSqueak other db := by
  rw [withKey_eq_updateSqueak]
  exact findSqueak_updateSqueak_ne hne (f := rowWithKey L key squeak) (fun _ => rfl) db

/-- The store has more of the hash, and nothing less of any other. -/
theorem Obtained.count {squeakHash : Bytes} {db db' : Db} (h : Obtained L squeakHash db db') (other : Bytes) :
    (holding other db).count ≤ (holding other db').count ∧
      (other = squeakHash → (holding other db).count < (holding other db').count) := by
  cases h with
  | @squeak squeak r hfree hhash hget hs =>
    unfold Holding.count holding
    rw [findSqueak_append]
    constructor
    · cases findSqueak other db <;> simp
    · rintro rfl
      simp [hfree, hhash]
  | @secretKey squeak key keyed hlocked hne hkeyed =>
    obtain ⟨r, hr, hs, hless⟩ := hlocked
    have hoffers : (updateSqueak squeakHash keyed db).receivedOffers = db.receivedOffers := rfl
    unfold Holding.count holding
    rw [hoffers]
    by_cases heq : other = squeakHash
    · subst heq
      rw [findSqueak_updateSqueak fun r => (hkeyed r).1, hr]
      have hbefore := keyless_iff.2 hless
      have hkey : key.isEmpty = false := by simpa using hne
      simp [hkeyed, hbefore, hkey]
    · rw [findSqueak_updateSqueak_ne heq fun r => (hkeyed r).1]
      exact ⟨Nat.le_refl _, fun h => absurd h heq⟩
  | @offer rows r hhash hrows =>
    have hcount : (holding other { db with receivedOffers := rows }).count =
        (holding other db).count + if r.squeakHash = other then 1 else 0 := by
      simp only [Holding.count, holding, hrows, List.filter_append, List.length_append, Nat.add_assoc]
      congr 2
      by_cases heq : r.squeakHash = other <;> simp [heq]
    rw [hcount, hhash]
    constructor
    · omega
    · rintro rfl
      simp

/-! ## The two loops -/

section

variable (N : Node L ρ) (listeners : Listeners L ρ) (peer : SqueakPeer) (minBlock maxBlock : Int)
  (pubkeys : List L.PublicKey)

/-- The sync, with the store that notifies its listeners. -/
def notifyingInterestRange : NodeM ρ Unit :=
  PeerDownloader.downloadInterestRangeWith N peer (NotifyingStore.saveSqueak N listeners)
    (NotifyingStore.saveSecretKey listeners) (NotifyingStore.handleOffer N listeners) minBlock maxBlock pubkeys

/-- Where nobody listens, a sync that runs alone does what it does without listeners. -/
theorem run_notifyingInterestRange (hsqueak : ∀ o, listeners.newSqueakListener.callbacks o = [])
    (hkey : ∀ o, listeners.newSecretKeyListener.callbacks o = [])
    (hoffer : ∀ o, listeners.newReceivedOfferListener.callbacks o = []) (w : World ρ) :
    (notifyingInterestRange N listeners peer minBlock maxBlock pubkeys).run w =
      (PeerDownloader.downloadInterestRange N peer minBlock maxBlock pubkeys).run w := by
  refine Prog.run_bind_congr rfl fun squeakHashes w₁ => ?_
  refine Prog.run_bind_congr (Prog.run_forM_congr (fun squeakHash w => ?_) squeakHashes w₁) fun _ w₂ =>
    Prog.run_forM_congr (fun squeakHash w => ?_) squeakHashes w₂
  · rw [run_downloadSqueakWith, run_downloadSqueakWith]
    simp only [NotifyingStore.run_saveSqueak hsqueak]
  · rw [run_downloadSecretKeyWith, run_downloadSecretKeyWith]
    simp only [NotifyingStore.run_saveSecretKey hkey, NotifyingStore.run_handleOffer hoffer]

/-- The sync whose loops go on after a download that raises. -/
def isolatedInterestRange : NodeM ρ Unit := do
  let squeakHashes ← PeerClient.lookup N peer minBlock maxBlock pubkeys
  Prog.isolated (Download.perform N listeners peer minBlock maxBlock pubkeys) (Download.all squeakHashes)

/-- No download that obtains something stands after one that fails. Each meets the store that the
downloads before it leave, whether they failed or not. -/
def NothingLost (squeakHashes : List Bytes) (w : World ρ) : Prop :=
  ∀ pre failing mid obtaining post, Download.all squeakHashes = pre ++ failing :: (mid ++ obtaining :: post) →
    failing.Fails N listeners peer minBlock maxBlock pubkeys
      (Prog.after (Download.perform N listeners peer minBlock maxBlock pubkeys) pre w) →
    ¬ obtaining.Obtains N peer minBlock maxBlock pubkeys
      (Prog.after (Download.perform N listeners peer minBlock maxBlock pubkeys) (pre ++ failing :: mid) w)

/-- Downloads only add to what the store has. -/
theorem adding_perform (hC : L.CodecLaws) : Prog.Adding (Download.perform N listeners peer minBlock maxBlock pubkeys)
    (fun w => Readable L w.db) (fun w squeakHash => holding squeakHash w.db) Holding.count Download.hash
    (Download.Obtains N peer minBlock maxBlock pubkeys) := by
  have hsettles := fun d (w : World ρ) hw => Download.settles N listeners peer minBlock maxBlock pubkeys hC (w := w) hw d
  constructor
  · intro d w hw
    by_cases ho : d.Obtains N peer minBlock maxBlock pubkeys w
    · exact ((hsettles d w hw).obtained ho).readable hw
    · rw [(hsettles d w hw).same ho]
      exact hw
  · intro d w hw other
    by_cases ho : d.Obtains N peer minBlock maxBlock pubkeys w
    · exact (((hsettles d w hw).obtained ho).count other).1
    · rw [(hsettles d w hw).same ho]
  · intro d w hw ho
    exact (((hsettles d w hw).obtained ho).count d.hash).2 rfl
  · intro d w hw ho other
    rw [(hsettles d w hw).same ho]

theorem forM_downloads (squeakHashes : List Bytes) (w : World ρ) :
    ((squeakHashes.forM fun squeakHash => PeerDownloader.downloadSqueakWith N peer
        (NotifyingStore.saveSqueak N listeners) squeakHash (some minBlock) (some maxBlock) (some pubkeys)) >>= fun _ =>
      squeakHashes.forM fun squeakHash => PeerDownloader.downloadSecretKeyWith N peer
        (NotifyingStore.saveSecretKey listeners) (NotifyingStore.handleOffer N listeners) squeakHash).run w =
      ((Download.all squeakHashes).forM (Download.perform N listeners peer minBlock maxBlock pubkeys)).run w := by
  unfold Download.all
  rw [Prog.run_forM_append, Prog.forM_map, Prog.forM_map]
  rfl

end

/-- The store has of every hash that was looked up what it has after the isolated sync, if and only if
no download that obtains something stands after one that fails, be it because of the peer's answer or of a
listener. -/
theorem sync_isolated_iff (hC : L.CodecLaws) {N : Node L ρ} {listeners : Listeners L ρ} {peer : SqueakPeer}
    {minBlock maxBlock : Int} {pubkeys : List L.PublicKey} {squeakHashes : List Bytes} {w w' : World ρ} (hw : Readable L w.db)
    (hlookup : (PeerClient.lookup N peer minBlock maxBlock pubkeys).run w = (.ok squeakHashes, w')) :
    (∀ squeakHash ∈ squeakHashes,
      holding squeakHash ((notifyingInterestRange N listeners peer minBlock maxBlock pubkeys).run w).2.db =
        holding squeakHash ((isolatedInterestRange N listeners peer minBlock maxBlock pubkeys).run w).2.db) ↔
      NothingLost N listeners peer minBlock maxBlock pubkeys squeakHashes w' := by
  have hw' : Readable L w'.db := by
    rw [run_clientLookup] at hlookup
    obtain rfl := (Prod.mk.inj hlookup).2
    exact hw
  have hadding := adding_perform N listeners peer minBlock maxBlock pubkeys hC
  have hiff := Prog.isolate_iff hadding (K := (· ∈ squeakHashes)) (fun d hd => Download.hash_mem hd) hw'
  unfold notifyingInterestRange PeerDownloader.downloadInterestRangeWith isolatedInterestRange
  rw [Prog.run_bind_of_ok hlookup, Prog.run_bind_of_ok hlookup]
  rw [forM_downloads N listeners peer minBlock maxBlock pubkeys]
  refine hiff.trans ?_
  have hraises : ∀ pre (d : Download), (d.perform N listeners peer minBlock maxBlock pubkeys).Raises
      (Prog.after (Download.perform N listeners peer minBlock maxBlock pubkeys) pre w') ↔
      d.Fails N listeners peer minBlock maxBlock pubkeys
        (Prog.after (Download.perform N listeners peer minBlock maxBlock pubkeys) pre w') :=
    fun pre d => (Download.settles N listeners peer minBlock maxBlock pubkeys hC (hadding.inv_after hw' pre) d).raises
  constructor
  · intro hnot pre failing mid obtaining post hall hfails hobtains
    exact hnot ⟨pre, failing, mid, obtaining, post, hall, (hraises pre failing).2 hfails, hobtains⟩
  · rintro hnothing ⟨pre, failing, mid, obtaining, post, hall, hfails, hobtains⟩
    exact hnothing pre failing mid obtaining post hall ((hraises pre failing).1 hfails) hobtains

/-! ## A bad item -/

namespace Sample

/-- A node whose peers answer a lookup with `hashes`, have the squeak of the sample, send a byte for any
other, and no keys and no offers. -/
def listed (hashes : List Bytes) : Node squeaklib Outside :=
  { node 2 with requestsGet := fun _ request o => (match request with
      | .lookup _ => .ok ⟨200, jsonText.jsonify (App.lookupJson hashes)⟩
      | .squeak squeakHash => .ok ⟨200, if squeakHash = hex squeak.val.reverse then squeak.val else [0]⟩
      | _ => .ok ⟨404, []⟩, o) }

/-- One subscriber to each of the listeners. -/
def onlookers : Listeners squeaklib Outside where
  newSqueakListener := ⟨fun _ => [some fun _ o => (.ok (), o)]⟩
  newSecretKeyListener := ⟨fun _ => [some fun _ o => (.ok (), o)]⟩
  newReceivedOfferListener := ⟨fun _ => [some fun _ o => (.ok (), o)]⟩

/-- The peer that is asked. -/
def listing : SqueakPeer := ⟨none, "", ⟨.IPV4, "", 0⟩, false, false⟩

theorem run_lookup_listed (hashes : List Bytes) :
    (PeerClient.lookup (listed hashes) listing 1 10 [(1 : UInt8)]).run world = (.ok hashes, world) := by
  rw [run_clientLookup]
  exact congrArg (·, _) (parseLookup_lookupJson jsonText_laws hashes)

theorem readable_world : Readable squeaklib world.db := fun r hr => by cases hr

end Sample

/-- A bad item at the end of the list: what comes before it is stored, and there are no keys to lose. -/
theorem sync_isolated_sample :
    NothingLost (Sample.listed [Sample.squeak.val.reverse, [7]]) Sample.onlookers Sample.listing 1 10 [(1 : UInt8)]
      [Sample.squeak.val.reverse, [7]] Sample.world :=
  (sync_isolated_iff Sample.codecLaws Sample.readable_world (Sample.run_lookup_listed _)).1 (by decide +kernel)

/-- A bad item at the head of the list: the squeak after it is not stored. -/
theorem sync_not_isolated :
    let squeakHashes := [[7], Sample.squeak.val.reverse]
    let N := Sample.listed squeakHashes
    (PeerClient.lookup N Sample.listing 1 10 [(1 : UInt8)]).run Sample.world = (.ok squeakHashes, Sample.world) ∧
    ¬ ∀ squeakHash ∈ squeakHashes,
      holding squeakHash ((notifyingInterestRange N Sample.onlookers Sample.listing 1 10 [(1 : UInt8)]).run
        Sample.world).2.db =
        holding squeakHash ((isolatedInterestRange N Sample.onlookers Sample.listing 1 10 [(1 : UInt8)]).run
          Sample.world).2.db :=
  ⟨Sample.run_lookup_listed _, by decide +kernel⟩

end Squeaknode
