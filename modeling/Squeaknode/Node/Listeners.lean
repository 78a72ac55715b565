/-
Saving squeaks, secret keys and offers with the notification of the listeners. A listener keeps its callbacks
in a dictionary that other threads add to and remove from, and calls them while it iterates over the
dictionary; the iterator raises when it finds that the dictionary has changed.
-/
import Squeaknode.Node.SqueakStore

namespace Squeaknode

open Interleave Relational SqueakDb

/-- A callback: it can raise, and change the world outside. -/
abbrev Callback (ι ρ : Type) := ι → ρ → Except Err Unit × ρ

/-- `EventListener`: the entries of the dictionary of its callbacks in order, with a gap for one that
was removed. -/
structure EventListener (ι ρ : Type) where
  callbacks : ρ → List (Option (Callback ι ρ))

/-- A step of a notification: a call that leaves on the trace that it raised. -/
def notify {ρ β : Type} (f : ρ → Except Err β × ρ) : NodeM ρ β :=
  Prog.observed (fun w : World ρ => ((f w.env).1, { w with env := (f w.env).2 }))
    (fun w => match (f w.env).1 with
      | .ok _ => []
      | .error _ => [Obs.notificationRaised]) >>= Prog.ofExcept

theorem run_notify {ρ β : Type} (f : ρ → Except Err β × ρ) (w : World ρ) :
    (notify f : NodeM ρ β).run w = ((f w.env).1, { w with env := (f w.env).2 }) := by
  unfold notify
  rw [Prog.run_bind]
  exact Prog.run_ofExcept _ _

theorem within_notify {ρ β : Type} {R : World ρ → List Obs → World ρ → Prop} {f : ρ → Except Err β × ρ}
    (h : ∀ w : World ρ, ∀ o, (∀ row n m, Obs.inserted row n m ∉ o) → R w o { w with env := (f w.env).2 }) :
    (notify f : NodeM ρ β).Within R := by
  refine Prog.within_bind (Prog.within_observed fun w => h w _ fun row n m hmem => ?_) fun _ => Prog.within_ofExcept _
  split at hmem
  · cases hmem
  · cases List.mem_singleton.1 hmem

namespace EventListener

variable {ι ρ α : Type}

/-- The number of keys of the dictionary. -/
def size (entries : List (Option α)) : Nat := entries.countP Option.isSome

/-- The first entry that is no gap, with the position after it; the list starts at position `pos`. -/
def firstEntry : Nat → List (Option α) → Option (Nat × α)
  | _, [] => none
  | pos, some a :: _ => some (pos + 1, a)
  | pos, none :: entries => firstEntry (pos + 1) entries

/-- The iterator takes one of the entries, and goes on with the ones behind it. -/
theorem firstEntry_some {entries : List (Option α)} {pos next : Nat} {a : α}
    (h : firstEntry pos (entries.drop pos) = some (next, a)) :
    some a ∈ entries ∧ size (entries.drop pos) = size (entries.drop next) + 1 := by
  have hfrom : ∀ (rest : List (Option α)) pos, firstEntry pos rest = some (next, a) →
      some a ∈ rest ∧ pos < next ∧ size rest = size (rest.drop (next - pos)) + 1 := by
    intro rest
    induction rest with
    | nil =>
      intro pos h
      cases h
    | cons entry rest ih =>
      intro pos h
      cases entry with
      | some b =>
        cases h
        refine ⟨List.mem_cons_self, Nat.lt_succ_self _, ?_⟩
        rw [Nat.add_sub_cancel_left]
        simp [size]
      | none =>
        obtain ⟨hmem, hlt, hsize⟩ := ih _ h
        refine ⟨List.mem_cons_of_mem _ hmem, by omega, ?_⟩
        rw [show next - pos = next - (pos + 1) + 1 by omega, List.drop_succ_cons, ← hsize]
        simp [size]
  obtain ⟨hmem, hlt, hsize⟩ := hfrom _ _ h
  refine ⟨List.mem_of_mem_drop hmem, ?_⟩
  rw [hsize, List.drop_drop, show pos + (next - pos) = next by omega]

variable (listener : EventListener ι ρ)

/-- The iterator over the callbacks: it remembers the size that the dictionary had, and how many callbacks are left of
it. -/
def nextCallback (used left pos : Nat) (o : ρ) : Except Err (Option (Nat × Callback ι ρ)) :=
  if used ≠ size (listener.callbacks o) then .error (.valueError "dictionary changed size during iteration")
  else match firstEntry pos ((listener.callbacks o).drop pos) with
    | none => .ok none
    | some found =>
      if left = 0 then .error (.valueError "dictionary keys changed during iteration") else .ok (some found)

/-- The loop over the callbacks from a position on. -/
def callAll (item : ι) (used : Nat) : Nat → Nat → NodeM ρ Unit
  | 0, pos => do
    let _ ← notify fun o => (listener.nextCallback used 0 pos o, o)
    return ()
  | left + 1, pos => do
    match ← notify fun o => (listener.nextCallback used (left + 1) pos o, o) with
    | none => return ()
    | some (next, callback) =>
      notify (callback item)
      callAll item used left next

def handleNewItem (item : ι) : NodeM ρ Unit := do
  let used ← ask fun o => (size (listener.callbacks o), o)
  listener.callAll item used used 0

variable {listener}

section Closed

variable {C : ∀ {α : Type}, NodeM ρ α → Prop} (hC : Prog.Closed C)
  (hnotify : ∀ {β : Type} (f : ρ → Except Err β × ρ), C (notify f))

include hC hnotify

/-- What sequencing keeps, and what holds of the steps of notifications, holds of what is left of one. -/
theorem closed_callAll (item : ι) (used left pos : Nat) : C (listener.callAll item used left pos) := by
  induction left generalizing pos with
  | zero => exact hC.bind (hnotify _) fun _ => hC.ret _
  | succ left ih =>
    refine hC.bind (hnotify _) fun found => ?_
    cases found with
    | none => exact hC.ret _
    | some found => exact hC.bind (hnotify _) fun _ => ih found.1

theorem closed_handleNewItem (hask : ∀ {β : Type} (f : ρ → β × ρ), C (ask f)) (item : ι) :
    C (listener.handleNewItem item) :=
  hC.bind (hask _) fun used => closed_callAll hC hnotify item used used 0

end Closed

/-- From a position on, a callback raises, or the dictionary changes before the next one. -/
def failsFrom (listener : EventListener ι ρ) (item : ι) (used : Nat) : Nat → Nat → ρ → Prop
  | 0, pos, o => ∃ e, listener.nextCallback used 0 pos o = .error e
  | left + 1, pos, o => match listener.nextCallback used (left + 1) pos o with
    | .error _ => True
    | .ok none => False
    | .ok (some (next, callback)) => match callback item o with
      | (.error _, _) => True
      | (.ok _, o') => failsFrom listener item used left next o'

/-- A callback raises when it is given the item, or changes the dictionary. -/
def Fails (listener : EventListener ι ρ) (item : ι) (o : ρ) : Prop :=
  listener.failsFrom item (size (listener.callbacks o)) (size (listener.callbacks o)) 0 o

/-- The induction is on the callbacks that are left. -/
theorem run_callAll_raises_iff (item : ι) (used left pos : Nat) (w : World ρ) :
    (∃ e, ((listener.callAll item used left pos).run w).1 = .error e) ↔
      listener.failsFrom item used left pos w.env := by
  induction left generalizing pos w with
  | zero =>
    unfold callAll failsFrom
    rw [Prog.run_bind, run_notify]
    cases listener.nextCallback used 0 pos w.env with
    | error e => simp
    | ok found => simp
  | succ left ih =>
    unfold callAll failsFrom
    rw [Prog.run_bind, run_notify]
    cases listener.nextCallback used (left + 1) pos w.env with
    | error e => simp
    | ok found =>
      cases found with
      | none => simp
      | some found =>
        dsimp only
        rw [Prog.run_bind, run_notify]
        rcases found.2 item w.env with ⟨e | _, o⟩
        · simp
        · exact ih found.1 { w with env := o }

theorem run_handleNewItem_raises_iff (item : ι) (w : World ρ) :
    (∃ e, ((listener.handleNewItem item).run w).1 = .error e) ↔ listener.Fails item w.env := by
  unfold handleNewItem Fails
  rw [Prog.run_bind, run_ask]
  exact run_callAll_raises_iff item _ _ 0 w

theorem run_handleNewItem (h : ∀ o, listener.callbacks o = []) (item : ι) (w : World ρ) :
    (listener.handleNewItem item).run w = (.ok (), w) := by
  have hnext : listener.nextCallback 0 0 0 w.env = .ok none := by
    unfold nextCallback
    rw [h, if_neg (by simp [size])]
    rfl
  have hused : (ask fun o => (size (listener.callbacks o), o) : NodeM ρ Nat).run w = (.ok 0, w) := by
    rw [run_ask, h]
    rfl
  unfold handleNewItem
  rw [Prog.run_bind_of_ok hused]
  unfold callAll
  have hcall : (notify fun o => (listener.nextCallback 0 0 0 o, o) : NodeM ρ _).run w = (.ok none, w) := by
    rw [run_notify, hnext]
  exact (Prog.run_bind_of_ok hcall).trans rfl

/-- A notification touches no table. -/
theorem run_handleNewItem_db (listener : EventListener ι ρ) (item : ι) (w : World ρ) :
    ((listener.handleNewItem item).run w).2.db = w.db :=
  Prog.Keeps.run (f := World.db) (closed_handleNewItem (Prog.closed_within _) (fun _ => within_notify fun _ _ _ => rfl)
    (fun _ => within_ask fun _ => rfl) item) w

end EventListener

/-- The listeners of a store that its writes notify. -/
structure Listeners (L : Squeaklib) (ρ : Type) where
  newSqueakListener : EventListener L.CSqueak ρ
  newSecretKeyListener : EventListener L.CSqueak ρ
  newReceivedOfferListener : EventListener ReceivedOffer ρ

namespace NotifyingStore

open SqueakStore

variable {L : Squeaklib} {ρ : Type} (N : Node L ρ) (listeners : Listeners L ρ)

/-! ## Saving squeaks, keys and offers -/

def saveSqueak (squeak : L.CSqueak) : NodeM ρ (Option Bytes) := do
  match ← SqueakStore.saveSqueak N squeak with
  | none => return none
  | some insertedSqueakHash =>
    listeners.newSqueakListener.handleNewItem squeak
    return some insertedSqueakHash

def saveSecretKey (squeakHash secretKey : Bytes) : NodeM ρ Unit :=
  saveSecretKeyWith listeners.newSecretKeyListener.handleNewItem squeakHash secretKey

def makeSqueak (profileId : Nat) (contentStr : String) (replytoHash : Option Bytes)
    (recipientProfileId : Option Nat) : NodeM ρ Bytes :=
  makeSqueakWith N (saveSqueak N listeners) (saveSecretKey listeners) profileId contentStr replytoHash recipientProfileId

def payOffer (receivedOfferId : Nat) : NodeM ρ Nat := payOfferWith N (saveSecretKey listeners) receivedOfferId

def saveReceivedOffer (receivedOffer : ReceivedOffer) : NodeM ρ (Option Nat) := do
  match ← SqueakStore.saveReceivedOffer N receivedOffer with
  | none => return none
  | some receivedOfferId =>
    listeners.newReceivedOfferListener.handleNewItem { receivedOffer with receivedOfferId := some receivedOfferId }
    return some receivedOfferId

def handleOffer (squeak : L.CSqueak) (offer : Offer) (peerAddress : PeerAddress) : NodeM ρ Unit :=
  handleOfferWith N (saveReceivedOffer N listeners) squeak offer peerAddress

/-! ## The two halves of a call -/

/-- The call until the squeak is built. -/
def buildSqueak (profileId : Nat) (contentStr : String) (replytoHash : Option Bytes)
    (recipientProfileId : Option Nat) : NodeM ρ (L.CSqueak × Bytes) := do
  match ← getSqueakProfile L profileId with
  | none => throw (.exception s!"Profile with id {profileId} not found.")
  | some squeakProfile =>
    let recipientProfile ← requireProfile L (fun id => .exception s!"Recipient profile with id {id} not found.")
      (givenProfile recipientProfileId)
    SqueakCore.makeSqueak N squeakProfile contentStr replytoHash recipientProfile

/-- The unlocking of a private squeak, for its author. -/
def openSqueak (profileId : Nat) (squeak : L.CSqueak) (squeakHash : Bytes) : NodeM ρ Bytes := do
  if L.isPrivateMessage squeak then unlockSqueak L squeakHash (some profileId) none
  else pure ()
  return squeakHash

/-- The call with the squeak that was built, whose key is nowhere else. -/
def finishSqueak (profileId : Nat) (squeak : L.CSqueak) (secretKey : Bytes) : NodeM ρ Bytes := do
  match ← saveSqueak N listeners squeak with
  | none => throw (.exception "Failed to save squeak.")
  | some insertedSqueakHash =>
    saveSecretKey listeners insertedSqueakHash secretKey
    openSqueak profileId squeak insertedSqueakHash

theorem makeSqueak_eq (profileId : Nat) (contentStr : String) (replytoHash : Option Bytes)
    (recipientProfileId : Option Nat) : makeSqueak N listeners profileId contentStr replytoHash recipientProfileId =
      buildSqueak N profileId contentStr replytoHash recipientProfileId >>= fun made =>
        finishSqueak N listeners profileId made.1 made.2 := by
  unfold makeSqueak makeSqueakWith buildSqueak
  rw [Prog.bind_bind]
  refine congrArg _ (funext fun profile => ?_)
  cases profile with
  | none => rfl
  | some squeakProfile =>
    dsimp only
    rw [Prog.bind_bind]
    rfl

/-! ## Runs of the saves -/

variable {N listeners}

/-- The listeners hear of a squeak that was inserted, and what they raise is raised. -/
theorem run_saveSqueak_inserted {squeak : L.CSqueak} {squeakHash : Bytes} {w w' : World ρ}
    (h : (SqueakStore.saveSqueak N squeak).run w = (.ok (some squeakHash), w')) :
    let told := (listeners.newSqueakListener.handleNewItem squeak).run w'
    (saveSqueak N listeners squeak).run w = ((fun _ => some squeakHash) <$> told.1, told.2) := by
  unfold saveSqueak
  rw [Prog.run_bind_of_ok h, Prog.run_bind]
  rcases (listeners.newSqueakListener.handleNewItem squeak).run w' with ⟨e | _, w''⟩ <;> rfl

theorem run_saveSqueak_error {squeak : L.CSqueak} {e : Err} {w w' : World ρ}
    (h : (SqueakStore.saveSqueak N squeak).run w = (.error e, w')) :
    (saveSqueak N listeners squeak).run w = (.error e, w') :=
  Prog.run_bind_of_error h

/-- The listeners hear of an offer that was inserted, under the id of its row. -/
theorem run_saveReceivedOffer_inserted {receivedOffer : ReceivedOffer} {receivedOfferId : Nat} {w w' : World ρ}
    (h : (SqueakStore.saveReceivedOffer N receivedOffer).run w = (.ok (some receivedOfferId), w')) :
    let told := (listeners.newReceivedOfferListener.handleNewItem
      { receivedOffer with receivedOfferId := some receivedOfferId }).run w'
    (saveReceivedOffer N listeners receivedOffer).run w = ((fun _ => some receivedOfferId) <$> told.1, told.2) := by
  unfold saveReceivedOffer
  rw [Prog.run_bind_of_ok h, Prog.run_bind]
  rcases (listeners.newReceivedOfferListener.handleNewItem _).run w' with ⟨e | _, w''⟩ <;> rfl

theorem run_saveReceivedOffer_error {receivedOffer : ReceivedOffer} {e : Err} {w w' : World ρ}
    (h : (SqueakStore.saveReceivedOffer N receivedOffer).run w = (.error e, w')) :
    (saveReceivedOffer N listeners receivedOffer).run w = (.error e, w') :=
  Prog.run_bind_of_error h

/-- The listeners hear of nothing else. -/
theorem run_saveReceivedOffer_none {receivedOffer : ReceivedOffer} {w w' : World ρ}
    (h : (SqueakStore.saveReceivedOffer N receivedOffer).run w = (.ok none, w')) :
    (saveReceivedOffer N listeners receivedOffer).run w = (.ok none, w') := by
  unfold saveReceivedOffer
  exact (Prog.run_bind_of_ok h).trans rfl

/-! ## Without subscribers -/

theorem run_saveSqueak (h : ∀ o, listeners.newSqueakListener.callbacks o = []) (squeak : L.CSqueak) (w : World ρ) :
    (saveSqueak N listeners squeak).run w = (SqueakStore.saveSqueak N squeak).run w := by
  unfold saveSqueak
  rw [Prog.run_bind]
  rcases (SqueakStore.saveSqueak N squeak).run w with ⟨e | inserted, w'⟩
  · rfl
  cases inserted with
  | none => rfl
  | some insertedSqueakHash => exact Prog.run_bind_of_ok (EventListener.run_handleNewItem h squeak w')

theorem run_saveSecretKey (h : ∀ o, listeners.newSecretKeyListener.callbacks o = []) (squeakHash secretKey : Bytes)
    (w : World ρ) :
    (saveSecretKey listeners squeakHash secretKey).run w =
      (SqueakStore.saveSecretKey L squeakHash secretKey).run w := by
  unfold saveSecretKey SqueakStore.saveSecretKey saveSecretKeyWith
  refine Prog.run_bind_congr rfl fun squeak w₁ => ?_
  cases squeak with
  | none => rfl
  | some squeak =>
    refine Prog.run_bind_congr rfl fun _ w₂ => ?_
    refine Prog.run_bind_congr rfl fun _ w₃ => ?_
    exact Prog.run_bind_congr (EventListener.run_handleNewItem h squeak w₃) fun _ _ => rfl

theorem run_saveReceivedOffer (h : ∀ o, listeners.newReceivedOfferListener.callbacks o = [])
    (receivedOffer : ReceivedOffer) (w : World ρ) :
    (saveReceivedOffer N listeners receivedOffer).run w = (SqueakStore.saveReceivedOffer N receivedOffer).run w := by
  unfold saveReceivedOffer
  rw [Prog.run_bind]
  rcases (SqueakStore.saveReceivedOffer N receivedOffer).run w with ⟨e | inserted, w'⟩
  · rfl
  cases inserted with
  | none => rfl
  | some receivedOfferId => exact Prog.run_bind_of_ok (EventListener.run_handleNewItem h _ w')

theorem run_handleOffer (h : ∀ o, listeners.newReceivedOfferListener.callbacks o = []) (squeak : L.CSqueak)
    (offer : Offer) (peerAddress : PeerAddress) (w : World ρ) :
    (handleOffer N listeners squeak offer peerAddress).run w =
      (SqueakStore.handleOffer N squeak offer peerAddress).run w :=
  Prog.run_bind_congr rfl fun receivedOffer w' =>
    Prog.run_bind_congr (run_saveReceivedOffer h receivedOffer w') fun _ _ => rfl

/-- Where nobody listens, a call that runs alone does what it does without listeners. -/
theorem run_makeSqueak (hsqueak : ∀ o, listeners.newSqueakListener.callbacks o = [])
    (hkey : ∀ o, listeners.newSecretKeyListener.callbacks o = []) (profileId : Nat) (contentStr : String)
    (replytoHash : Option Bytes) (recipientProfileId : Option Nat) (w : World ρ) :
    (makeSqueak N listeners profileId contentStr replytoHash recipientProfileId).run w =
      (SqueakStore.makeSqueak N profileId contentStr replytoHash recipientProfileId).run w := by
  unfold makeSqueak SqueakStore.makeSqueak makeSqueakWith
  refine Prog.run_bind_congr rfl fun profile w₁ => ?_
  cases profile with
  | none => rfl
  | some squeakProfile =>
    refine Prog.run_bind_congr rfl fun recipientProfile w₂ => ?_
    refine Prog.run_bind_congr rfl fun made w₃ => ?_
    refine Prog.run_bind_congr (run_saveSqueak hsqueak made.1 w₃) fun inserted w₄ => ?_
    cases inserted with
    | none => rfl
    | some insertedSqueakHash =>
      exact Prog.run_bind_congr (run_saveSecretKey hkey insertedSqueakHash made.2 w₄) fun _ _ => rfl

end NotifyingStore

end Squeaknode
