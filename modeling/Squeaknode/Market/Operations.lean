/-
What a node does for its own user and for its peers: it saves, makes, unlocks, likes, deletes and buys
squeaks, answers requests, downloads from peers, and records what it sold.
-/
import Squeaknode.Client.PeerDownloader
import Squeaknode.Node.ContentKeys
import Squeaknode.Node.Listeners
import Squeaknode.Node.PaymentProcessor
import Squeaknode.Server.App

namespace Squeaknode

open Interleave Relational SqueakDb SqueakStore

variable {L : Squeaklib} {ρ : Type}

/-- The answers of servers, and the invoices of lightning nodes with their preimages. -/
structure Ledger (ρ : Type) where
  made : ρ → (preimage : Bytes) → Invoice → Prop
  answered : ρ → PeerAddress → Request → Response → Prop
  send : PeerAddress → Request → Response → ρ → ρ

/-- What a node of the market does. -/
inductive TradeOp (L : Squeaklib) where
  | store (op : StoreOp L)
  | answer (page : Nat → Bytes) (clientHost : String) (request : Request)
  | downloadInterestRange (peer : SqueakPeer) (minBlock maxBlock : Int) (pubkeys : List L.PublicKey)
  | downloadSingleSqueak (peer : SqueakPeer) (squeakHash : Bytes)
  | payments (activity : PaymentProcessor.Activity)
  | deleteAllExpiredSentOffers

/-- The program of an operation, with the programs that save a squeak, a key and an offer; a server sends its answers
from `address`. -/
def TradeOp.programWith (N : Node L ρ) (saveSqueak : L.CSqueak → NodeM ρ (Option Bytes))
    (saveSecretKey : Bytes → Bytes → NodeM ρ Unit) (handleOffer : L.CSqueak → Offer → PeerAddress → NodeM ρ Unit)
    (M : Ledger ρ) (address : PeerAddress) : TradeOp L → NodeM ρ Unit
  | store op => op.programWith N saveSqueak saveSecretKey
  | answer page clientHost request => do
    let response ← App.serve N page clientHost request
    ask fun o => ((), M.send address request response o)
  | downloadInterestRange peer minBlock maxBlock pubkeys =>
    PeerDownloader.downloadInterestRangeWith N peer saveSqueak saveSecretKey handleOffer minBlock maxBlock pubkeys
  | downloadSingleSqueak peer squeakHash =>
    PeerDownloader.downloadSingleSqueakWith N peer saveSqueak saveSecretKey handleOffer squeakHash
  | payments activity => activity.program N
  | deleteAllExpiredSentOffers => do let _ ← SqueakStore.deleteAllExpiredSentOffers N

def TradeOp.program (N : Node L ρ) (M : Ledger ρ) (address : PeerAddress) (op : TradeOp L) : NodeM ρ Unit :=
  op.programWith N (SqueakStore.saveSqueak N) (SqueakStore.saveSecretKey L) (SqueakStore.handleOffer N) M address

/-- The program of an operation of a node that notifies its listeners. -/
def TradeOp.notifying (N : Node L ρ) (listeners : Listeners L ρ) (M : Ledger ρ) (address : PeerAddress)
    (op : TradeOp L) : NodeM ρ Unit :=
  op.programWith N (NotifyingStore.saveSqueak N listeners) (NotifyingStore.saveSecretKey listeners)
    (NotifyingStore.handleOffer N listeners) M address

/-! ## Programs that leave the squeaks alone -/

section Closed

variable {C : ∀ {α : Type}, NodeM ρ α → Prop} {N : Node L ρ} (hC : Prog.Closed C)
  (hcatch : ∀ {α : Type} {p : NodeM ρ α} {h : Err → NodeM ρ α}, C p → (∀ e, C (h e)) → C (p.catchWith h))
  (hsame : ∀ {β : Type} (stmt : World ρ → β × World ρ), (∀ w, SameStore w (stmt w).2) →
    C (Prog.atomic stmt : NodeM ρ β))

include hC hsame

theorem closed_getSqueak (squeakHash : Bytes) : C (getSqueak L squeakHash : NodeM ρ _) := by
  refine hC.bind (hsame _ fun _ => ⟨rfl, rfl⟩) fun row => ?_
  cases row with
  | none => exact hC.ret _
  | some row => exact hC.bind (closed_ofExcept hC _) fun _ => hC.ret _

theorem closed_getSqueakProfile (profileId : Nat) : C (getSqueakProfile L profileId : NodeM ρ _) := by
  refine hC.bind (hsame _ fun _ => ⟨rfl, rfl⟩) fun row => ?_
  cases row with
  | none => exact hC.ret _
  | some row => exact hC.bind (closed_ofExcept hC _) fun _ => hC.ret _

theorem closed_requireProfile (error : Nat → Err) (profileId : Option Nat) :
    C (requireProfile L error profileId : NodeM ρ _) := by
  cases profileId with
  | none => exact hC.ret _
  | some profileId =>
    refine hC.bind (closed_getSqueakProfile hC hsame profileId) fun profile => ?_
    cases profile with
    | none => exact hC.raise _
    | some profile => exact hC.ret _

variable {saveSqueak : L.CSqueak → NodeM ρ (Option Bytes)} {saveSecretKey : Bytes → Bytes → NodeM ρ Unit}
  {saveReceivedOffer : ReceivedOffer → NodeM ρ (Option Nat)}
  {handleOffer : L.CSqueak → Offer → PeerAddress → NodeM ρ Unit}

theorem closed_making (hsave : ∀ squeak, C (saveSqueak squeak)) (hkey : ∀ h k, C (saveSecretKey h k))
    (hunlock : ∀ h a r, C (unlockSqueak L h a r : NodeM ρ Unit)) (profileId : Nat) (contentStr : String)
    (replytoHash : Option Bytes) (recipientProfileId : Option Nat) :
    C (makeSqueakWith N saveSqueak saveSecretKey profileId contentStr replytoHash recipientProfileId) := by
  refine hC.bind (closed_getSqueakProfile hC hsame _) fun profile => ?_
  cases profile with
  | none => exact hC.raise _
  | some profile =>
    refine hC.bind (closed_requireProfile hC hsame _ _) fun recipient => ?_
    have hmade : C (SqueakCore.makeSqueak N profile contentStr replytoHash recipient) := by
      unfold SqueakCore.makeSqueak
      cases profile.privateKey with
      | none => exact hC.raise _
      | some privateKey =>
        exact hC.bind (closed_call hC hsame _) fun _ => hC.bind (hsame _ fun _ => ⟨rfl, rfl⟩) fun _ =>
          closed_call hC hsame _
    refine hC.bind hmade fun made => hC.bind (hsave made.1) fun inserted => ?_
    cases inserted with
    | none => exact hC.raise _
    | some insertedSqueakHash =>
      refine hC.bind (hkey insertedSqueakHash made.2) fun _ => ?_
      dsimp only
      split
      · exact hC.bind (hunlock _ _ _) fun _ => hC.ret _
      · exact hC.ret _

theorem closed_downloadSqueak (peer : SqueakPeer) {squeakHash : Bytes} {minBlock maxBlock : Option Int}
    {pubkeys : Option (List L.PublicKey)} (hsave : ∀ squeak,
      PeerDownloader.wanted squeakHash minBlock maxBlock pubkeys squeak = true → C (saveSqueak squeak)) :
    C (PeerDownloader.downloadSqueakWith N peer saveSqueak squeakHash minBlock maxBlock pubkeys) := by
  refine hC.bind (closed_getSqueak hC hsame squeakHash) fun owned => ?_
  cases owned with
  | some _ => exact hC.ret _
  | none =>
    have hgot : C (PeerClient.getSqueak N peer squeakHash) := by
      refine hC.bind (closed_call hC hsame _) fun r => ?_
      split
      · exact hC.ret _
      · exact hC.bind (closed_ofExcept hC _) fun _ => hC.ret _
    refine hC.bind hgot fun got => ?_
    cases got with
    | none => exact hC.ret _
    | some squeak =>
      dsimp only
      split
      · rename_i hwanted
        exact hC.bind (hsave squeak hwanted) fun _ => hC.ret _
      · exact hC.ret _

theorem closed_handleOfferWith (hsave : ∀ receivedOffer, C (saveReceivedOffer receivedOffer)) (squeak : L.CSqueak)
    (offer : Offer) (peerAddress : PeerAddress) : C (handleOfferWith N saveReceivedOffer squeak offer peerAddress) := by
  have hunpacked : C (SqueakCore.unpackOffer N squeak offer peerAddress) := by
    unfold SqueakCore.unpackOffer
    split
    · exact hC.raise _
    · exact hC.bind (closed_call hC hsame _) fun _ => hC.ret _
  exact hC.bind hunpacked fun receivedOffer => hC.bind (hsave receivedOffer) fun _ => hC.ret _

theorem closed_saveReceivedOffer (receivedOffer : ReceivedOffer) : C (SqueakStore.saveReceivedOffer N receivedOffer) := by
  refine hC.bind (hsame _ fun _ => ⟨rfl, rfl⟩) fun now => hC.bind (hsame _ fun w => ?_) fun id => closed_ofExcept hC id
  obtain ⟨receivedOffers, heq⟩ := insertReceivedOffer_others now receivedOffer w.db
  simp only [heq]
  exact ⟨rfl, rfl⟩

theorem closed_handleOffer (squeak : L.CSqueak) (offer : Offer) (peerAddress : PeerAddress) :
    C (SqueakStore.handleOffer N squeak offer peerAddress) :=
  closed_handleOfferWith hC hsame (closed_saveReceivedOffer hC hsame) squeak offer peerAddress

section Notifying

variable (hnotify : ∀ {β : Type} (f : ρ → Except Err β × ρ), C (notify f : NodeM ρ β)) {listeners : Listeners L ρ}

include hnotify

theorem closed_handleNewItem {ι : Type} (listener : EventListener ι ρ) (item : ι) : C (listener.handleNewItem item) :=
  EventListener.closed_handleNewItem hC hnotify (fun _ => hsame _ fun _ => ⟨rfl, rfl⟩) item

theorem closed_notifyingSaveSqueak (hsave : ∀ squeak, C (SqueakStore.saveSqueak N squeak)) (squeak : L.CSqueak) :
    C (NotifyingStore.saveSqueak N listeners squeak) := by
  refine hC.bind (hsave squeak) fun inserted => ?_
  cases inserted with
  | none => exact hC.ret _
  | some insertedSqueakHash => exact hC.bind (closed_handleNewItem hC hsame hnotify _ _) fun _ => hC.ret _

theorem closed_notifyingHandleOffer (squeak : L.CSqueak) (offer : Offer) (peerAddress : PeerAddress) :
    C (NotifyingStore.handleOffer N listeners squeak offer peerAddress) := by
  refine closed_handleOfferWith hC hsame (fun receivedOffer => ?_) squeak offer peerAddress
  refine hC.bind (closed_saveReceivedOffer hC hsame receivedOffer) fun inserted => ?_
  cases inserted with
  | none => exact hC.ret _
  | some receivedOfferId => exact hC.bind (closed_handleNewItem hC hsame hnotify _ _) fun _ => hC.ret _

end Notifying

theorem closed_downloadSecretKey (hkey : ∀ h k, C (saveSecretKey h k)) (hoffer : ∀ s o a, C (handleOffer s o a))
    (peer : SqueakPeer) (squeakHash : Bytes) :
    C (PeerDownloader.downloadSecretKeyWith N peer saveSecretKey handleOffer squeakHash) := by
  refine hC.bind (closed_getSqueak hC hsame squeakHash) fun squeak => ?_
  cases squeak with
  | none => exact hC.ret _
  | some squeak =>
    refine hC.bind (hsame _ fun _ => ⟨rfl, rfl⟩) fun owned => ?_
    split
    · exact hC.ret _
    · have hgot : C (PeerClient.getSecretKey N peer squeakHash) := by
        refine hC.bind (closed_call hC hsame _) fun r => ?_
        split
        · exact hC.ret _
        · exact hC.ret _
      refine hC.bind hgot fun secretKey => ?_
      split
      · exact hkey squeakHash _
      · have hoffers : C (SqueakStore.getReceivedOffers N squeakHash) :=
          hC.bind (hsame _ fun _ => ⟨rfl, rfl⟩) fun _ => hsame _ fun _ => ⟨rfl, rfl⟩
        refine hC.bind hoffers fun receivedOffers => ?_
        split
        · exact hC.ret _
        · have hgotOffer : C (PeerClient.getOffer N peer squeakHash) := by
            refine hC.bind (closed_call hC hsame _) fun r => ?_
            split
            · exact hC.ret _
            · exact hC.bind (closed_ofExcept hC _) fun _ => hC.ret _
          refine hC.bind hgotOffer fun offer => ?_
          cases offer with
          | none => exact hC.ret _
          | some offer => exact hoffer squeak offer peer.address

theorem closed_downloadInterestRange (peer : SqueakPeer) {minBlock maxBlock : Int} {pubkeys : List L.PublicKey}
    (hsave : ∀ squeakHash squeak, PeerDownloader.wanted squeakHash (some minBlock) (some maxBlock) (some pubkeys) squeak =
      true → C (saveSqueak squeak)) (hkey : ∀ h k, C (saveSecretKey h k)) (hoffer : ∀ s o a, C (handleOffer s o a)) :
    C (PeerDownloader.downloadInterestRangeWith N peer saveSqueak saveSecretKey handleOffer minBlock maxBlock
      pubkeys) := by
  refine hC.bind (hC.bind (closed_call hC hsame _) fun _ => closed_ofExcept hC _) fun squeakHashes => ?_
  refine hC.bind (closed_forM hC (fun h => ?_) squeakHashes) fun _ =>
    closed_forM hC (closed_downloadSecretKey hC hsame hkey hoffer peer) squeakHashes
  exact closed_downloadSqueak hC hsame peer (hsave h)

theorem closed_processInvoice (invoice : Invoice) : C (PaymentProcessor.processInvoice N invoice) := by
  unfold PaymentProcessor.processInvoice
  split
  · refine hC.bind (hsame _ fun _ => ⟨rfl, rfl⟩) fun sentOffer => ?_
    cases sentOffer with
    | none => exact hC.ret _
    | some sentOffer =>
      exact hC.bind (hsame _ fun _ => ⟨rfl, rfl⟩) fun _ => hC.bind (hsame _ fun _ => ⟨rfl, rfl⟩) fun _ =>
        hsame _ fun _ => ⟨rfl, rfl⟩
  · exact hC.ret _

include hcatch

theorem closed_getPackagedOffer (squeakHash : Bytes) (peerAddress : PeerAddress) :
    C (SqueakController.getPackagedOffer N squeakHash peerAddress) := by
  have hprice : C (SqueakController.getSellPriceMsat N) := by
    refine hC.bind (hsame _ fun _ => ⟨rfl, rfl⟩) fun configured => ?_
    cases configured <;> exact hC.ret _
  refine hC.bind hprice fun priceMsat => ?_
  split
  · exact hC.ret _
  have hsent : C (getSentOfferForPeer N squeakHash peerAddress priceMsat) := by
    refine hC.bind (closed_getSqueak hC hsame squeakHash) fun squeak =>
      hC.bind (hsame _ fun _ => ⟨rfl, rfl⟩) fun secretKey => ?_
    rcases squeak with _ | squeak
    · exact hC.ret _
    rcases secretKey with _ | secretKey
    · exact hC.ret _
    have hcreated : C (SqueakCore.createOffer N squeak secretKey peerAddress priceMsat) :=
      hC.bind (hsame _ fun _ => ⟨rfl, rfl⟩) fun _ => hC.bind (closed_ofExcept hC _) fun _ =>
        hC.bind (closed_call hC hsame _) fun _ => hC.ret _
    refine hC.bind (hcatch (hC.bind hcreated fun _ => hC.ret _) fun _ => hC.ret _) fun created => ?_
    cases created with
    | none => exact hC.ret _
    | some sentOffer =>
      refine hC.bind (hC.bind (hsame _ fun _ => ⟨rfl, rfl⟩) fun now => ?_) fun _ => hC.ret _
      exact hC.bind (hsame _ fun _ => ⟨rfl, rfl⟩) fun _ => closed_ofExcept hC _
  refine hC.bind hsent fun sentOffer => ?_
  cases sentOffer with
  | none => exact hC.ret _
  | some sentOffer =>
    refine hC.bind ?_ fun _ => hC.ret _
    unfold SqueakCore.packageOffer
    cases SqueakController.lndExternalAddress N with
    | some address => exact hC.ret _
    | none =>
      refine hC.bind (hC.bind (closed_call hC hsame _) fun info => ?_) fun _ => hC.ret _
      split
      · exact hC.ret _
      · exact hC.bind (closed_ofExcept hC _) fun _ => hC.ret _

theorem closed_serve (page : Nat → Bytes) (clientHost : String) (request : Request) :
    C (App.serve N page clientHost request) := by
  have hanswer : ∀ (handled : List Err) (p : NodeM ρ Bytes), C p → C (App.answer page handled p) :=
    fun _ _ hp => hcatch (hC.bind hp fun _ => hC.ret _) fun _ => hC.ret _
  cases request with
  | squeak hash =>
    simp only [App.serve]
    split
    · refine hanswer _ _ (hC.bind (closed_ofExcept hC _) fun squeakHash =>
        hC.bind (closed_getSqueak hC hsame squeakHash) fun squeak => ?_)
      cases squeak with
      | none => exact hC.raise _
      | some squeak => exact hC.ret _
    · exact hC.ret _
  | secretKey hash =>
    simp only [App.serve]
    split
    · have hprice : C (SqueakController.getSellPriceMsat N) := by
        refine hC.bind (hsame _ fun _ => ⟨rfl, rfl⟩) fun configured => ?_
        cases configured <;> exact hC.ret _
      refine hanswer _ _ (hC.bind (closed_ofExcept hC _) fun squeakHash => hC.bind hprice fun priceMsat => ?_)
      split
      · exact hC.raise _
      · refine hC.bind (hsame _ fun _ => ⟨rfl, rfl⟩) fun secretKey => ?_
        split
        · exact hC.raise _
        · exact hC.ret _
    · exact hC.ret _
  | offer hash =>
    simp only [App.serve]
    split
    · refine hanswer _ _ (hC.bind (hC.bind (closed_ofExcept hC _) fun squeakHash =>
        hC.bind (closed_getPackagedOffer hC hcatch hsame squeakHash _) fun offer => ?_) fun _ => hC.ret _)
      cases offer with
      | none => exact hC.raise _
      | some offer => exact hC.ret _
    · exact hC.ret _
  | lookup args =>
    refine hanswer _ _ ?_
    unfold App.lookup
    dsimp only
    split
    · exact hC.ret _
    · exact hC.bind (hC.bind (closed_ofExcept hC _) fun _ =>
        hC.bind (hsame _ fun _ => ⟨rfl, rfl⟩) fun _ => closed_ofExcept hC _) fun _ => hC.ret _

/-- What sequencing and handlers keep, and what holds of statements that leave the squeaks and the profiles alone
and of the operations on squeaks, holds of everything a node does. -/
theorem closed_tradeOp {M : Ledger ρ} {address : PeerAddress} (op : TradeOp L)
    (hstore : ∀ store : StoreOp L, op = .store store → C (store.programWith N saveSqueak saveSecretKey))
    (hsave : ∀ squeak, C (saveSqueak squeak)) (hkey : ∀ h k, C (saveSecretKey h k))
    (hoffer : ∀ s o a, C (handleOffer s o a)) : C (op.programWith N saveSqueak saveSecretKey handleOffer M address) := by
  cases op with
  | store op => exact hstore op rfl
  | answer page clientHost request =>
    exact hC.bind (closed_serve hC hcatch hsame page clientHost request) fun _ => hsame _ fun _ => ⟨rfl, rfl⟩
  | downloadInterestRange peer minBlock maxBlock pubkeys =>
    exact closed_downloadInterestRange hC hsame peer (fun _ squeak _ => hsave squeak) hkey hoffer
  | downloadSingleSqueak peer squeakHash =>
    exact hC.bind (closed_downloadSqueak hC hsame peer fun squeak _ => hsave squeak) fun _ =>
      closed_downloadSecretKey hC hsame hkey hoffer peer squeakHash
  | payments activity =>
    cases activity with
    | task subscriptions =>
      exact closed_forM hC (fun notifications => hC.bind (hsame _ fun _ => ⟨rfl, rfl⟩) fun _ =>
        closed_forM hC (closed_processInvoice hC hsame) notifications) subscriptions
    | clearReceivedPaymentSettleIndices => exact hsame _ fun _ => ⟨rfl, rfl⟩
  | deleteAllExpiredSentOffers =>
    exact hC.bind (hC.bind (hsame _ fun _ => ⟨rfl, rfl⟩) fun _ => hsame _ fun _ => ⟨rfl, rfl⟩) fun _ => hC.ret _

end Closed

end Squeaknode
