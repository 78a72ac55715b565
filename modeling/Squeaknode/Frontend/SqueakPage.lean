/-
The squeak page. It shows one squeak with its ancestors, its replies and the offers for it, each of
which is a slot of the store that is filled by a request of its own. Navigating from squeak to squeak
sends new requests and keeps the page with its local state, and the slots as they are.
-/
import Squeaknode.Frontend.SqueaksSlice
import Squeaknode.Interleave.Machine

namespace Squeaknode

namespace SqueakPage

open Interleave SqueaksSlice
open SqueakAdminPb2 (SqueakDisplayEntry)

/-! ## Requests and answers -/

/-- The requests of the page. -/
inductive PageRequest where
  | fetchSqueak (squeakHash : String)
  | fetchAncestorSqueaks (squeakHash : String)
  | fetchReplySqueaks (squeakHash : String)
  | fetchSqueakOffers (squeakHash : String)
  | setLikeSqueak (squeakHash : String)
  | setUnlikeSqueak (squeakHash : String)
  | setDeleteSqueak (squeakHash : String)
  | setBuySqueak (offerId : Int) (squeakHash : String)
  | setDownloadSqueak (squeakHash : String)
  deriving DecidableEq, Repr

/-- What a request is answered with. -/
inductive Answer where
  | entry (squeakDisplayEntry : Option SqueakDisplayEntry)
  | entries (squeakDisplayEntries : List SqueakDisplayEntry)
  | offers (offers : List OfferDisplayEntry)
  | deleted

/-- The threads of the squeaks. A squeak's hash commits to the squeak it replies to, so that a thread is
a matter of the hashes. -/
structure Threads where
  isAncestor : (squeakHash ancestorHash : String) → Bool
  isReply : (squeakHash replyHash : String) → Bool

/-- An entry, if there is one, has this hash. -/
def isEntryOf (squeakHash : String) (squeakDisplayEntry : Option SqueakDisplayEntry) : Bool :=
  squeakDisplayEntry.all fun squeak => squeak.squeakHash == squeakHash

/-- What the server answers: the squeak that it was asked for, if it holds it, its ancestors with itself,
its replies, or offers for it. -/
def answers (T : Threads) : PageRequest → Answer → Bool
  | .fetchSqueak squeakHash, .entry squeak => isEntryOf squeakHash squeak
  | .fetchAncestorSqueaks squeakHash, .entries squeaks => squeaks.all fun squeak =>
    T.isAncestor squeakHash squeak.squeakHash
  | .fetchReplySqueaks squeakHash, .entries squeaks => squeaks.all fun squeak => T.isReply squeakHash squeak.squeakHash
  | .fetchSqueakOffers squeakHash, .offers offers => offers.all fun offer => offer.squeakHash == squeakHash
  | .setLikeSqueak squeakHash, .entry squeak => isEntryOf squeakHash squeak
  | .setUnlikeSqueak squeakHash, .entry squeak => isEntryOf squeakHash squeak
  | .setDeleteSqueak _, .deleted => true
  | .setBuySqueak _ squeakHash, .entry squeak => isEntryOf squeakHash squeak
  | .setDownloadSqueak squeakHash, .entry squeak => isEntryOf squeakHash squeak
  | _, _ => false

/-- The reducers of the pending actions. -/
def pending : PageRequest → State → State
  | .fetchSqueak _ => fetchSqueakPending
  | .fetchAncestorSqueaks _ => fetchAncestorSqueaksPending
  | .fetchReplySqueaks _ => fetchReplySqueaksPending
  | .fetchSqueakOffers _ => fetchSqueakOffersPending
  | .setBuySqueak _ _ => setBuySqueakPending
  | .setDownloadSqueak _ => setDownloadSqueakPending
  | _ => id

/-- The reducers of the fulfilled actions. -/
def fulfilled : PageRequest → Answer → State → State
  | .fetchSqueak _, .entry squeak => fetchSqueakFulfilled squeak
  | .fetchAncestorSqueaks _, .entries squeaks => fetchAncestorSqueaksFulfilled squeaks
  | .fetchReplySqueaks _, .entries squeaks => fetchReplySqueaksFulfilled squeaks
  | .fetchSqueakOffers _, .offers offers => fetchSqueakOffersFulfilled offers
  | .setLikeSqueak _, .entry squeak => setLikeSqueakFulfilled squeak
  | .setUnlikeSqueak _, .entry squeak => setUnlikeSqueakFulfilled squeak
  | .setDeleteSqueak squeakHash, .deleted => setDeleteSqueakFulfilled squeakHash
  | .setBuySqueak _ _, .entry squeak => setBuySqueakFulfilled squeak
  | .setDownloadSqueak _, .entry squeak => setDownloadSqueakFulfilled squeak
  | _, _ => id

/-- A fetch that fails leaves its slot as it was, and loading. -/
def rejected : PageRequest → State → State
  | .setBuySqueak _ _ => setBuySqueakRejected
  | .setDownloadSqueak _ => setDownloadSqueakRejected
  | _ => id

/-! ## The page -/

/-- The page of a squeak, with its local state. -/
structure Shown where
  id : String
  buyModalOpen : Bool
  offer : Option OfferDisplayEntry

/-- Elsewhere, no squeak page is shown. -/
structure Tab where
  store : State
  shown : Option Shown
  inFlight : List PageRequest

/-- A tab that was just opened. -/
def start : Tab := ⟨initialState, none, []⟩

/-- A request is sent. -/
def dispatch (t : Tab) (request : PageRequest) : Tab :=
  { t with store := pending request t.store, inFlight := t.inFlight ++ [request] }

/-- The requests of the page when it is opened or its squeak changes. -/
def pageRequests (id : String) : List PageRequest :=
  [.fetchSqueak id, .fetchAncestorSqueaks id, .fetchReplySqueaks id, .fetchSqueakOffers id]

/-- The page is loaded for what is shown. -/
def load (shown : Shown) (t : Tab) : Tab := (pageRequests shown.id).foldl dispatch { t with shown := some shown }

/-- A page that comes from elsewhere has a new local state. -/
def visit (id : String) (t : Tab) : Tab :=
  match t.shown with
  | some shown => if shown.id = id then t else load { shown with id := id } t
  | none => load ⟨id, false, none⟩ t

/-- The browser loads the page anew. -/
def refresh (t : Tab) : Tab :=
  match t.shown with
  | some shown => load ⟨shown.id, false, none⟩ start
  | none => start

/-- The squeak is shown locked. -/
def isLocked (s : State) : Bool := s.currentSqueakStatus = .idle && s.currentSqueak.any fun squeak =>
    squeak.contentStr == ""

/-- The offers are loaded when the modal is opened. -/
def toggleBuyModal (shown : Shown) (t : Tab) : Tab :=
  let toggled := { t with shown := some { shown with buyModalOpen := !shown.buyModalOpen } }
  if shown.buyModalOpen then toggled else dispatch toggled (.fetchSqueakOffers shown.id)

/-- The buy modal is shown over a squeak. -/
def buyModalShown (shown : Shown) (s : State) : Bool := shown.buyModalOpen && s.currentSqueak.isSome

/-- An offer without an id is not bought. -/
def buySqueak (shown : Shown) (t : Tab) : Option Tab :=
  if buyModalShown shown t.store then
    match shown.offer with
    | none => some t
    | some offer =>
      if offer.offerId = 0 then some t
      else some (toggleBuyModal shown (dispatch t (.setBuySqueak offer.offerId shown.id)))
  else none

/-- What the user and the server do. -/
inductive Act where
  | visit (id : String)
  | leave
  | refresh
  | toggleBuyModal
  | selectOffer (offer : OfferDisplayEntry)
  | buy
  | download
  /-- on the page or on any card -/
  | like (squeakHash : String)
  | unlike (squeakHash : String)
  | delete (squeakHash : String)
  | fulfilled (request : PageRequest) (answer : Answer)
  | rejected (request : PageRequest)

/-- What an action does to the tab, if it can happen. -/
def step (T : Threads) : Act → Tab → Option Tab
  | .visit id, t => some (visit id t)
  | .leave, t => some { t with shown := none }
  | .refresh, t => some (refresh t)
  | .toggleBuyModal, t => t.shown.bind fun shown =>
    if buyModalShown shown t.store || !shown.buyModalOpen && isLocked t.store then some (toggleBuyModal shown t) else none
  | .selectOffer offer, t => t.shown.bind fun shown =>
    if buyModalShown shown t.store && t.store.squeakOffers.contains offer then
      some { t with shown := some { shown with offer := some offer } }
    else none
  | .buy, t => t.shown.bind fun shown => buySqueak shown t
  | .download, t => t.shown.bind fun shown =>
    if t.store.currentSqueakStatus = .idle && t.store.currentSqueak.isNone then
      some (dispatch t (.setDownloadSqueak shown.id))
    else none
  | .like squeakHash, t => some (dispatch t (.setLikeSqueak squeakHash))
  | .unlike squeakHash, t => some (dispatch t (.setUnlikeSqueak squeakHash))
  | .delete squeakHash, t => some (dispatch t (.setDeleteSqueak squeakHash))
  | .fulfilled request answer, t =>
    if t.inFlight.contains request && answers T request answer then
      some { t with store := fulfilled request answer t.store, inFlight := t.inFlight.erase request }
    else none
  | .rejected request, t =>
    if t.inFlight.contains request then
      some { t with store := rejected request t.store, inFlight := t.inFlight.erase request }
    else none

/-! ## What belongs to the page -/

/-- The parts of the page that show something about its squeak. -/
inductive Slot where
  | current
  | ancestors
  | replies
  | offers
  deriving DecidableEq

/-- What a slot shows belongs to the squeak. -/
def Slot.Belongs (T : Threads) (squeakHash : String) (s : State) : Slot → Prop
  | current => ∀ squeak ∈ s.currentSqueak, squeak.squeakHash = squeakHash
  | ancestors => ∀ squeak ∈ s.ancestorSqueaks, T.isAncestor squeakHash squeak.squeakHash = true
  | replies => ∀ squeak ∈ s.replySqueaks, T.isReply squeakHash squeak.squeakHash = true
  | offers => ∀ offer ∈ s.squeakOffers, offer.squeakHash = squeakHash

/-- The slot that the answer to a request fills, and the squeak it is for. -/
def PageRequest.fills : PageRequest → Option (Slot × String)
  | fetchSqueak squeakHash => some (.current, squeakHash)
  | fetchAncestorSqueaks squeakHash => some (.ancestors, squeakHash)
  | fetchReplySqueaks squeakHash => some (.replies, squeakHash)
  | fetchSqueakOffers squeakHash => some (.offers, squeakHash)
  | setDownloadSqueak squeakHash => some (.current, squeakHash)
  | _ => none

/-- When no request is under way, all slots belong to the squeak of the page, and so does every offer
that can be bought: those to select from, and the one that is selected. -/
def ShowsOne (T : Threads) (t : Tab) : Prop :=
  ∀ shown ∈ t.shown, t.inFlight = [] →
    (∀ slot : Slot, slot.Belongs T shown.id t.store) ∧ ∀ offer ∈ shown.offer, offer.squeakHash = shown.id

/-- An answer for another squeak arrives only while a request for the squeak of the page is still to fill
the same slot, such a request fails only when the slot belongs to the squeak already or another one is
still to fill it, and no offer for another squeak is selected or kept. -/
structure Steady (T : Threads) (t : Tab) (a : Act) : Prop where
  answers : ∀ request answer, a = .fulfilled request answer → ∀ shown ∈ t.shown, ∀ slot squeakHash,
    request.fills = some (slot, squeakHash) → squeakHash ≠ shown.id → ∃ r ∈ t.inFlight, r.fills = some (slot, shown.id)
  failures : ∀ request, a = .rejected request → ∀ shown ∈ t.shown, ∀ slot : Slot,
    request.fills = some (slot, shown.id) → slot.Belongs T shown.id t.store ∨
      ∃ r ∈ t.inFlight.erase request, r.fills = some (slot, shown.id)
  keeps : ∀ id, a = .visit id → ∀ shown ∈ t.shown, shown.id ≠ id → ∀ offer ∈ shown.offer, offer.squeakHash = id
  selects : ∀ offer, a = .selectOffer offer → ∀ shown ∈ t.shown, offer.squeakHash = shown.id

variable {T : Threads}

/-! ## What the reducers leave in the slots -/

theorem mem_updatedSqueakInArray {newSqueak squeak : SqueakDisplayEntry} {squeakArr : List SqueakDisplayEntry}
    (h : squeak ∈ updatedSqueakInArray newSqueak squeakArr) :
    ∃ before ∈ squeakArr, before.squeakHash = squeak.squeakHash := by
  induction squeakArr with
  | nil => cases h
  | cons first rest ih =>
    unfold updatedSqueakInArray at h
    split at h
    · rename_i hsame
      rcases List.mem_cons.1 h with rfl | h
      · exact ⟨first, List.mem_cons_self, hsame⟩
      · exact ⟨squeak, List.mem_cons_of_mem _ h, rfl⟩
    · rcases List.mem_cons.1 h with rfl | h
      · exact ⟨squeak, List.mem_cons_self, rfl⟩
      · obtain ⟨before, hbefore, hhash⟩ := ih h
        exact ⟨before, List.mem_cons_of_mem _ hbefore, hhash⟩

/-- A slot with the squeaks it had before, perhaps as newer entries, belongs to what it belonged to. -/
theorem belongs_replaceSqueak {squeakHash : String} {s : State} {slot : Slot} (h : slot.Belongs T squeakHash s)
    (newSqueak : SqueakDisplayEntry) : slot.Belongs T squeakHash (replaceSqueak newSqueak s) := by
  cases slot with
  | current =>
    intro squeak hsqueak
    obtain ⟨before, hbefore, heq⟩ := Option.map_eq_some_iff.1 hsqueak
    split at heq
    · rename_i hsame
      exact heq ▸ hsame.symm.trans (h before hbefore)
    · exact heq ▸ h before hbefore
  | ancestors =>
    intro squeak hsqueak
    obtain ⟨before, hbefore, hhash⟩ := mem_updatedSqueakInArray hsqueak
    exact hhash ▸ h before hbefore
  | replies =>
    intro squeak hsqueak
    obtain ⟨before, hbefore, hhash⟩ := mem_updatedSqueakInArray hsqueak
    exact hhash ▸ h before hbefore
  | offers => exact h

theorem belongs_setLikeSqueakFulfilled {squeakHash : String} {s : State} {slot : Slot} (h : slot.Belongs T squeakHash s)
    (newSqueak : Option SqueakDisplayEntry) : slot.Belongs T squeakHash (setLikeSqueakFulfilled newSqueak s) := by
  cases newSqueak with
  | none => exact h
  | some newSqueak => exact belongs_replaceSqueak h newSqueak

theorem belongs_setDeleteSqueakFulfilled {squeakHash : String} {s : State} {slot : Slot}
    (h : slot.Belongs T squeakHash s)
    (deletedSqueakHash : String) : slot.Belongs T squeakHash (setDeleteSqueakFulfilled deletedSqueakHash s) := by
  cases slot with
  | current => exact fun squeak hsqueak => h squeak (Option.mem_filter_iff.1 hsqueak).1
  | ancestors => exact fun squeak hsqueak => h squeak (List.mem_filter.1 hsqueak).1
  | replies => exact fun squeak hsqueak => h squeak (List.mem_filter.1 hsqueak).1
  | offers => exact h

theorem belongs_buySqueakStatus {squeakHash : String} {s : State} {slot : Slot} (h : slot.Belongs T squeakHash s)
    (status : RequestStatus) : slot.Belongs T squeakHash { s with buySqueakStatus := status } := by
  cases slot <;> exact h

theorem belongs_setBuySqueakFulfilled {squeakHash : String} {s : State} {slot : Slot} (h : slot.Belongs T squeakHash s)
    (newSqueak : Option SqueakDisplayEntry) : slot.Belongs T squeakHash (setBuySqueakFulfilled newSqueak s) := by
  cases newSqueak with
  | none =>
    show slot.Belongs T squeakHash (if s.comparesHashes then s else _)
    split
    · exact h
    · exact belongs_buySqueakStatus h _
  | some newSqueak => exact belongs_replaceSqueak (belongs_buySqueakStatus h _) newSqueak

theorem belongs_pending {squeakHash : String} {s : State} {slot : Slot} (h : slot.Belongs T squeakHash s)
    (request : PageRequest) : slot.Belongs T squeakHash (pending request s) := by
  cases request <;> cases slot <;> exact h

theorem belongs_rejected {squeakHash : String} {s : State} {slot : Slot} (h : slot.Belongs T squeakHash s)
    (request : PageRequest) : slot.Belongs T squeakHash (rejected request s) := by
  cases request <;> cases slot <;> exact h

theorem isEntryOf_iff {squeakHash : String} {squeakDisplayEntry : Option SqueakDisplayEntry} :
    isEntryOf squeakHash squeakDisplayEntry = true ↔ ∀ squeak ∈ squeakDisplayEntry, squeak.squeakHash = squeakHash := by
  cases squeakDisplayEntry <;> simp [isEntryOf]

/-- An answer fills its slot with what belongs to the squeak it is for. -/
theorem belongs_filled {request : PageRequest} {answer : Answer} (hanswer : answers T request answer = true)
    {slot : Slot} {squeakHash : String} (hfills : request.fills = some (slot, squeakHash)) (s : State) :
    slot.Belongs T squeakHash (fulfilled request answer s) := by
  cases request with
  | fetchSqueak =>
    cases hfills
    cases answer with
    | entry => exact isEntryOf_iff.1 hanswer
    | _ => cases hanswer
  | fetchAncestorSqueaks =>
    cases hfills
    cases answer with
    | entries => exact List.all_eq_true.1 hanswer
    | _ => cases hanswer
  | fetchReplySqueaks =>
    cases hfills
    cases answer with
    | entries => exact List.all_eq_true.1 hanswer
    | _ => cases hanswer
  | fetchSqueakOffers =>
    cases hfills
    cases answer with
    | offers => exact fun offer hoffer => eq_of_beq (List.all_eq_true.1 hanswer offer hoffer)
    | _ => cases hanswer
  | setDownloadSqueak =>
    cases hfills
    cases answer with
    | entry => exact isEntryOf_iff.1 hanswer
    | _ => cases hanswer
  | _ => cases hfills

/-- The other slots keep what belongs to a squeak. -/
theorem belongs_kept {request : PageRequest} {slot : Slot}
    (hother : ∀ squeakHash, request.fills ≠ some (slot, squeakHash))
    {squeakHash : String} {s : State} (h : slot.Belongs T squeakHash s) (answer : Answer) :
    slot.Belongs T squeakHash (fulfilled request answer s) := by
  cases request with
  | setLikeSqueak =>
    cases answer with
    | entry squeak => exact belongs_setLikeSqueakFulfilled h squeak
    | _ => exact h
  | setUnlikeSqueak =>
    cases answer with
    | entry squeak => exact belongs_setLikeSqueakFulfilled h squeak
    | _ => exact h
  | setDeleteSqueak deletedSqueakHash =>
    cases answer with
    | deleted => exact belongs_setDeleteSqueakFulfilled h deletedSqueakHash
    | _ => exact h
  | setBuySqueak =>
    cases answer with
    | entry squeak => exact belongs_setBuySqueakFulfilled h squeak
    | _ => exact h
  | _ =>
    -- a fetch changes its own slot alone
    cases slot <;> first
      | exact absurd rfl (hother _)
      | cases answer <;> exact h

/-! ## Slots that are filled or about to be -/

/-- The slot belongs to the squeak, or a request for the squeak is still to fill it. -/
def Slot.Settled (T : Threads) (squeakHash : String) (t : Tab) (slot : Slot) : Prop :=
  slot.Belongs T squeakHash t.store ∨ ∃ r ∈ t.inFlight, r.fills = some (slot, squeakHash)

/-- The slots of the page are settled, and the offer that is selected is for its squeak. -/
structure PageInv (T : Threads) (t : Tab) : Prop where
  slots : ∀ shown ∈ t.shown, ∀ slot : Slot, slot.Settled T shown.id t
  offer : ∀ shown ∈ t.shown, ∀ offer ∈ shown.offer, offer.squeakHash = shown.id

theorem PageInv.showsOne {t : Tab} (h : PageInv T t) : ShowsOne T t := by
  refine fun shown hshown hquiet => ⟨fun slot => ?_, h.offer shown hshown⟩
  rcases h.slots shown hshown slot with hbelongs | ⟨r, hr, -⟩
  · exact hbelongs
  · rw [hquiet] at hr
    cases hr

theorem settled_dispatch {t : Tab} {slot : Slot} {squeakHash : String} (h : slot.Settled T squeakHash t)
    (request : PageRequest) : slot.Settled T squeakHash (dispatch t request) := by
  rcases h with hbelongs | ⟨r, hr, hfills⟩
  · exact .inl (belongs_pending hbelongs request)
  · exact .inr ⟨r, List.mem_append_left _ hr, hfills⟩

theorem pageInv_dispatch {t : Tab} (h : PageInv T t) (request : PageRequest) : PageInv T (dispatch t request) :=
  ⟨fun shown hshown slot => settled_dispatch (h.slots shown hshown slot) request, h.offer⟩

/-- The page is shown with another local state. -/
theorem pageInv_shown {t : Tab} (h : PageInv T t) {shown shown' : Shown} (hshown : t.shown = some shown)
    (hid : shown'.id = shown.id) (hoffer : ∀ offer ∈ shown'.offer, offer.squeakHash = shown.id) :
    PageInv T { t with shown := some shown' } := by
  refine ⟨?_, ?_⟩
  · rintro _ ⟨⟩ slot
    rw [hid]
    exact h.slots shown hshown slot
  · rintro _ ⟨⟩
    rw [hid]
    exact hoffer

/-- A page that is loaded requests all its slots. -/
theorem pageInv_load (shown : Shown) (t : Tab) (hoffer : ∀ offer ∈ shown.offer, offer.squeakHash = shown.id) :
    PageInv T (load shown t) where
  slots := by
    rintro _ ⟨⟩ slot
    right
    have hinFlight : (load shown t).inFlight = t.inFlight ++ pageRequests shown.id := by
      simp [load, pageRequests, dispatch]
    rw [hinFlight]
    cases slot
    · exact ⟨.fetchSqueak shown.id, by simp [pageRequests], rfl⟩
    · exact ⟨.fetchAncestorSqueaks shown.id, by simp [pageRequests], rfl⟩
    · exact ⟨.fetchReplySqueaks shown.id, by simp [pageRequests], rfl⟩
    · exact ⟨.fetchSqueakOffers shown.id, by simp [pageRequests], rfl⟩
  offer := by
    rintro _ ⟨⟩
    exact hoffer

theorem pageInv_visit {t : Tab} (h : PageInv T t) {id : String} (hsteady : Steady T t (.visit id)) :
    PageInv T (visit id t) := by
  unfold visit
  split
  · rename_i shown hshown
    split
    · exact h
    · rename_i hid
      exact pageInv_load _ _ (hsteady.keeps id rfl shown hshown hid)
  · exact pageInv_load _ _ fun offer hoffer => by cases hoffer

theorem pageInv_toggleBuyModal {t : Tab} (h : PageInv T t) {shown : Shown} (hshown : t.shown = some shown) :
    PageInv T (toggleBuyModal shown t) := by
  have htoggled : PageInv T { t with shown := some { shown with buyModalOpen := !shown.buyModalOpen } } :=
    pageInv_shown h hshown rfl (h.offer shown hshown)
  unfold toggleBuyModal
  split
  · exact htoggled
  · exact pageInv_dispatch htoggled _

theorem pageInv_buySqueak {t t' : Tab} (h : PageInv T t) {shown : Shown} (hshown : t.shown = some shown)
    (hbuy : buySqueak shown t = some t') : PageInv T t' := by
  unfold buySqueak at hbuy
  split at hbuy
  · split at hbuy
    · cases hbuy
      exact h
    · split at hbuy
      · cases hbuy
        exact h
      · cases hbuy
        exact pageInv_toggleBuyModal (pageInv_dispatch h _) hshown
  · cases hbuy

theorem pageInv_fulfilled {t : Tab} (h : PageInv T t) {request : PageRequest} {answer : Answer}
    (hsteady : Steady T t (.fulfilled request answer)) (hanswer : answers T request answer = true) :
    PageInv T { t with store := fulfilled request answer t.store, inFlight := t.inFlight.erase request } := by
  refine ⟨fun shown hshown slot => ?_, h.offer⟩
  by_cases hfills : ∃ squeakHash, request.fills = some (slot, squeakHash)
  · obtain ⟨squeakHash, hfills⟩ := hfills
    by_cases hid : squeakHash = shown.id
    · subst hid
      exact .inl (belongs_filled hanswer hfills t.store)
    · obtain ⟨r, hr, hrfills⟩ := hsteady.answers request answer rfl shown hshown slot squeakHash hfills hid
      refine .inr ⟨r, (List.mem_erase_of_ne ?_).2 hr, hrfills⟩
      rintro rfl
      rw [hfills] at hrfills
      cases hrfills
      exact hid rfl
  · have hother : ∀ squeakHash, request.fills ≠ some (slot, squeakHash) :=
      fun squeakHash heq => hfills ⟨squeakHash, heq⟩
    rcases h.slots shown hshown slot with hbelongs | ⟨r, hr, hrfills⟩
    · exact .inl (belongs_kept hother hbelongs answer)
    · refine .inr ⟨r, (List.mem_erase_of_ne ?_).2 hr, hrfills⟩
      rintro rfl
      exact hother _ hrfills

theorem pageInv_rejected {t : Tab} (h : PageInv T t) {request : PageRequest}
    (hsteady : Steady T t (.rejected request)) :
    PageInv T { t with store := rejected request t.store, inFlight := t.inFlight.erase request } := by
  refine ⟨fun shown hshown slot => ?_, h.offer⟩
  rcases h.slots shown hshown slot with hbelongs | ⟨r, hr, hrfills⟩
  · exact .inl (belongs_rejected hbelongs request)
  · by_cases hsame : r = request
    · subst hsame
      rcases hsteady.failures r rfl shown hshown slot hrfills with hbelongs | hwaiting
      · exact .inl (belongs_rejected hbelongs r)
      · exact .inr hwaiting
    · exact .inr ⟨r, (List.mem_erase_of_ne hsame).2 hr, hrfills⟩

theorem pageInv_step {t t' : Tab} {a : Act} (h : PageInv T t) (hsteady : Steady T t a) (hstep : step T a t = some t') :
    PageInv T t' := by
  cases a with
  | visit id =>
    cases hstep
    exact pageInv_visit h hsteady
  | leave =>
    cases hstep
    exact ⟨fun shown hshown => (by cases hshown), fun shown hshown => (by cases hshown)⟩
  | refresh =>
    cases hstep
    unfold refresh
    split
    · exact pageInv_load _ _ fun offer hoffer => by cases hoffer
    · exact ⟨fun shown hshown => (by cases hshown), fun shown hshown => (by cases hshown)⟩
  | toggleBuyModal =>
    obtain ⟨shown, hshown, htoggle⟩ := Option.bind_eq_some_iff.1 hstep
    split at htoggle
    · cases htoggle
      exact pageInv_toggleBuyModal h hshown
    · cases htoggle
  | selectOffer offer =>
    obtain ⟨shown, hshown, hselect⟩ := Option.bind_eq_some_iff.1 hstep
    split at hselect
    · cases hselect
      have hid : { shown with offer := some offer }.id = shown.id := rfl
      apply pageInv_shown h hshown hid
      rintro _ ⟨⟩
      -- the offer that is selected is one of the squeak that is shown
      exact hsteady.selects offer rfl shown hshown
    · cases hselect
  | buy =>
    obtain ⟨shown, hshown, hbuy⟩ := Option.bind_eq_some_iff.1 hstep
    exact pageInv_buySqueak h hshown hbuy
  | download =>
    obtain ⟨shown, hshown, hdownload⟩ := Option.bind_eq_some_iff.1 hstep
    split at hdownload
    · cases hdownload
      exact pageInv_dispatch h _
    · cases hdownload
  | like squeakHash =>
    cases hstep
    exact pageInv_dispatch h _
  | unlike squeakHash =>
    cases hstep
    exact pageInv_dispatch h _
  | delete squeakHash =>
    cases hstep
    exact pageInv_dispatch h _
  | fulfilled request answer =>
    simp only [step, Bool.and_eq_true] at hstep
    split at hstep
    · rename_i harrives
      cases hstep
      exact pageInv_fulfilled h hsteady harrives.2
    · cases hstep
  | rejected request =>
    simp only [step] at hstep
    split at hstep
    · cases hstep
      exact pageInv_rejected h hsteady
    · cases hstep

/-- In a run whose steps are steady, the squeak page shows one squeak in every state. -/
theorem page_shows_one {history : List (Tab × Act)} {t : Tab} (hr : Machine.Run (step T) start history t)
    (hsteady : ∀ x ∈ history, Steady T x.1 x.2) : ∀ t' ∈ Machine.states history t, ShowsOne T t' := by
  have hstart : PageInv T start := ⟨fun shown hshown => (by cases hshown), fun shown hshown => (by cases hshown)⟩
  have hstates := hr.invariant (fun _ _ _ h hC hstep => pageInv_step h hC hstep) hstart hsteady
  exact fun t' ht' => (hstates t' ht').showsOne

/-- A page that comes from elsewhere is steady, -/
theorem steady_visit {t : Tab} (helsewhere : t.shown = none) (id : String) : Steady T t (.visit id) where
  answers request answer h := by cases h
  failures request h := by cases h
  keeps _ _ shown hshown := by
    rw [helsewhere] at hshown
    cases hshown
  selects offer h := by cases h

/-- and so is an answer for the squeak of the page. -/
theorem steady_own {t : Tab} {request : PageRequest} {answer : Answer}
    (hown : ∀ shown ∈ t.shown, ∀ slot squeakHash, request.fills = some (slot, squeakHash) → squeakHash = shown.id) :
    Steady T t (.fulfilled request answer) where
  answers request' answer' h shown hshown slot squeakHash hfills hid := by
    cases h
    exact absurd (hown shown hshown slot squeakHash hfills) hid
  failures request h := by cases h
  keeps id h := by cases h
  selects offer h := by cases h

namespace Sample

/-- No squeak replies to another. -/
def threads : Threads := ⟨fun squeakHash ancestorHash => squeakHash == ancestorHash, fun _ _ => false⟩

def offerOf (squeakHash : String) : OfferDisplayEntry := ⟨1, squeakHash⟩

end Sample

open Sample in
theorem page_shows_one_sample : ∃ history t, Machine.Run (step threads) start history t ∧
    t.store.squeakOffers = [offerOf "a"] ∧ t.inFlight = [] ∧ ∀ t' ∈ Machine.states history t, ShowsOne threads t' := by
  have h₀ : Machine.Run (step threads) start [] start := .init
  have h₁ := h₀.next (a := .visit "a") rfl
  have h₂ := h₁.next (a := .fulfilled (.fetchSqueak "a") (.entry none)) rfl
  have h₃ := h₂.next (a := .fulfilled (.fetchAncestorSqueaks "a") (.entries [])) rfl
  have h₄ := h₃.next (a := .fulfilled (.fetchReplySqueaks "a") (.entries [])) rfl
  have h₅ := h₄.next (a := .fulfilled (.fetchSqueakOffers "a") (.offers [offerOf "a"])) rfl
  refine ⟨_, _, h₅, rfl, rfl, page_shows_one h₅ ?_⟩
  intro x hx
  simp only [List.nil_append, List.cons_append, List.mem_cons, List.not_mem_nil, or_false] at hx
  rcases hx with rfl | rfl | rfl | rfl | rfl
  · exact steady_visit rfl "a"
  all_goals
    apply steady_own
    rintro shown ⟨⟩ slot squeakHash ⟨⟩
    rfl

open Sample in
/-- A slow answer for the squeak that was left: the offers for it are offered for the other squeak. -/
theorem page_shows_two : ∃ history t, Machine.Run (step threads) start history t ∧
    ¬ ∀ t' ∈ Machine.states history t, ShowsOne threads t' := by
  have h₀ : Machine.Run (step threads) start [] start := .init
  have h₁ := h₀.next (a := .visit "a") rfl
  have h₂ := h₁.next (a := .visit "b") rfl
  have h₃ := h₂.next (a := .fulfilled (.fetchSqueak "b") (.entry none)) rfl
  have h₄ := h₃.next (a := .fulfilled (.fetchAncestorSqueaks "b") (.entries [])) rfl
  have h₅ := h₄.next (a := .fulfilled (.fetchReplySqueaks "b") (.entries [])) rfl
  have h₆ := h₅.next (a := .fulfilled (.fetchSqueakOffers "b") (.offers [offerOf "b"])) rfl
  have h₇ := h₆.next (a := .fulfilled (.fetchSqueak "a") (.entry none)) rfl
  have h₈ := h₇.next (a := .fulfilled (.fetchAncestorSqueaks "a") (.entries [])) rfl
  have h₉ := h₈.next (a := .fulfilled (.fetchReplySqueaks "a") (.entries [])) rfl
  have h₁₀ := h₉.next (a := .fulfilled (.fetchSqueakOffers "a") (.offers [offerOf "a"])) rfl
  refine ⟨_, _, h₁₀, fun h => ?_⟩
  have hoffers := (h _ (List.mem_append_right _ List.mem_cons_self) _ rfl rfl).1 .offers
  exact absurd (hoffers (offerOf "a") List.mem_cons_self) (by decide)

end SqueakPage

end Squeaknode
