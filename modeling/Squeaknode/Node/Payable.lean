/-
What a call of `pay_offer` is about to pay for. The lists of offers leave out what was paid and what
has expired, but the call looks its offer up by the id alone, and looks at neither the offer nor its
squeak again before it pays.
-/
import Squeaknode.Interleave.Stages
import Squeaknode.Node.PayOffer

namespace Squeaknode

open Interleave Relational SqueakDb SqueakStore

variable {L : Squeaklib} {ρ : Type}

/-! ## The stages of a call -/

/-- Where a call of `pay_offer` is. -/
inductive PayStage (ρ : Type) : Type 1
  | submitted (receivedOfferId : Nat)
  /-- the offer was found, and `pay_invoice` is called next -/
  | paying (receivedOfferId : Nat) (receivedOffer : ReceivedOffer)
  | rest (p : NodeM ρ Nat)

namespace PayStage

/-- The offer that is paid next. -/
def offer : PayStage ρ → Option (Nat × ReceivedOffer)
  | paying receivedOfferId receivedOffer => some (receivedOfferId, receivedOffer)
  | _ => none

theorem offer_some {stage : PayStage ρ} {receivedOfferId : Nat} {receivedOffer : ReceivedOffer}
    (h : stage.offer = some (receivedOfferId, receivedOffer)) : stage = paying receivedOfferId receivedOffer := by
  cases stage <;> cases h
  rfl

/-- After the lookup of the offer. -/
def lookedUp (receivedOfferId : Nat) : Option ReceivedOffer → PayStage ρ
  | none => rest (.raise (.exception s!"Received offer with id {receivedOfferId} not found."))
  | some receivedOffer => paying receivedOfferId receivedOffer

variable (N : Node L ρ)

/-- What a call has left to do at a stage. -/
def program : PayStage ρ → NodeM ρ Nat
  | submitted receivedOfferId => payOffer N receivedOfferId
  | paying _ receivedOffer => SqueakCore.payOffer N receivedOffer >>= recordPayment N receivedOffer
  | rest p => p

/-- The stage after the next statement. -/
def next : PayStage ρ → World ρ → PayStage ρ
  | submitted receivedOfferId, w => lookedUp receivedOfferId (getReceivedOffer receivedOfferId w.db)
  | paying receivedOfferId receivedOffer, w => rest (((paying receivedOfferId receivedOffer).program N).next w)
  | rest p, w => rest (p.next w)

/-- The first statement of a call is the lookup of the offer. -/
theorem program_submitted (receivedOfferId : Nat) :
    program N (submitted receivedOfferId) = .step (fun w => (getReceivedOffer receivedOfferId w.db, w)) (fun _ => [])
      fun receivedOffer => program N (lookedUp receivedOfferId receivedOffer) := by
  refine congrArg (Prog.step _ _) (funext fun receivedOffer => ?_)
  cases receivedOffer <;> rfl

/-- A call that found its offer pays the invoice next. -/
theorem program_paying (receivedOfferId : Nat) (receivedOffer : ReceivedOffer) :
    ∃ k, program N (paying receivedOfferId receivedOffer) =
      .step (fun w => ((N.lightningClient.payInvoice receivedOffer.paymentRequest w.env).1,
        { w with env := (N.lightningClient.payInvoice receivedOffer.paymentRequest w.env).2 })) (fun _ => []) k :=
  ⟨_, rfl⟩

/-- The calls as threads that go from stage to stage. -/
def staging : Staging (World ρ) Obs Err Nat (PayStage ρ) where
  program := program N
  next := next N
  follows := by
    intro stage β stmt obs k h w
    cases stage with
    | submitted receivedOfferId =>
      rw [program_submitted] at h
      cases h
      rfl
    | paying receivedOfferId receivedOffer => exact Prog.next_of_step h w
    | rest p => exact Prog.next_of_step h w

theorem step_submitted {s : Staged (World ρ) (PayStage ρ)} {i receivedOfferId : Nat}
    (h : s.stages[i]? = some (.submitted receivedOfferId)) :
    (staging N).step (.thread i) s = some ⟨s.world,
      s.stages.set i (lookedUp receivedOfferId (getReceivedOffer receivedOfferId s.world.db))⟩ :=
  Staging.step_of_step (S := staging N) h (program_submitted N receivedOfferId)

end PayStage

/-! ## Payments in vain -/

/-- The offer with this id is `receivedOffer`, unpaid and not expired, and its squeak is stored and has
no secret key. -/
def Payable (N : Node L ρ) (receivedOfferId : Nat) (receivedOffer : ReceivedOffer) (w : World ρ) : Prop :=
  ∃ r, findBy ReceivedOfferRow.receivedOfferId receivedOfferId w.db.receivedOffers.rows = some r ∧
    parseReceivedOffer r = receivedOffer ∧ r.paid = false ∧
    receivedOfferInvoiceIsExpired (N.timestampNowMs w.env).1 r = false ∧
    ∃ squeak, findSqueak r.squeakHash w.db = some squeak ∧ squeak.secretKey = none

/-- A payable offer is on the list of the offers for its squeak. -/
theorem Payable.listed {N : Node L ρ} {receivedOfferId : Nat} {receivedOffer : ReceivedOffer} {w : World ρ}
    (h : Payable N receivedOfferId receivedOffer w) :
    ∃ offers, ((SqueakStore.getReceivedOffers N receivedOffer.squeakHash).run w).1 = .ok offers ∧
      receivedOffer ∈ offers := by
  obtain ⟨r, hfind, rfl, hpaid, hexpired, -⟩ := h
  obtain ⟨hr, -⟩ := findBy_some hfind
  refine ⟨_, rfl, List.mem_map_of_mem (List.mem_filter.2 ⟨hr, ?_⟩)⟩
  have hhash : (parseReceivedOffer r).squeakHash = r.squeakHash := rfl
  simp only [hhash, hpaid, hexpired, BEq.rfl, Bool.not_false, Bool.and_self]

/-- The start of calls with these ids, some of which may be the same. -/
def submittedOffers (w : World ρ) (receivedOfferIds : List Nat) : Staged (World ρ) (PayStage ρ) :=
  ⟨w, receivedOfferIds.map .submitted⟩

/-- The step pays no invoice but that of a payable offer, and a call for anything else raises and
changes no table. -/
def NotInVain (N : Node L ρ) (s : Staged (World ρ) (PayStage ρ)) (a : Turn (World ρ)) : Prop :=
  ∀ i receivedOfferId, a = .thread i →
    (∀ receivedOffer, s.stages[i]? = some (PayStage.paying receivedOfferId receivedOffer) →
      Payable N receivedOfferId receivedOffer s.world) ∧
    (s.stages[i]? = some (.submitted receivedOfferId) →
      (∀ receivedOffer, ¬ Payable N receivedOfferId receivedOffer s.world) →
      ∃ e, (PayStage.staging N).step a s = some ⟨s.world, s.stages.set i (.rest (.raise e))⟩)

/-- An offer that is looked up is payable, and nobody else's step takes that from an offer that a call
is about to pay. -/
def StaysPayable (N : Node L ρ) (s : Staged (World ρ) (PayStage ρ)) (a : Turn (World ρ)) : Prop :=
  (∀ i receivedOfferId receivedOffer, a = .thread i → s.stages[i]? = some (.submitted receivedOfferId) →
    getReceivedOffer receivedOfferId s.world.db = some receivedOffer →
    Payable N receivedOfferId receivedOffer s.world) ∧
  ∀ s', (PayStage.staging N).step a s = some s' → ∀ j receivedOfferId receivedOffer, a ≠ .thread j →
    s.stages[j]? = some (.paying receivedOfferId receivedOffer) →
    Payable N receivedOfferId receivedOffer s.world → Payable N receivedOfferId receivedOffer s'.world

section Run

variable {N : Node L ρ}

/-- What a call is about to pay is payable. -/
def AboutToPay (N : Node L ρ) (stage : PayStage ρ) (w : World ρ) : Prop :=
  ∀ receivedOfferId receivedOffer, stage = .paying receivedOfferId receivedOffer →
    Payable N receivedOfferId receivedOffer w

theorem aboutToPay_step {s s' : Staged (World ρ) (PayStage ρ)} {a : Turn (World ρ)}
    (hs : ∀ (i : Nat) (stage : PayStage ρ), s.stages[i]? = some stage → AboutToPay N stage s.world)
    (hstays : StaysPayable N s a) (ha : (PayStage.staging N).step a s = some s') :
    ∀ (i : Nat) (stage : PayStage ρ), s'.stages[i]? = some stage → AboutToPay N stage s'.world := by
  apply Staging.step_all (Φ := fun _ => AboutToPay N) ha
  · rintro i stage rfl hget receivedOfferId receivedOffer hpaying
    cases stage with
    | submitted id =>
      rw [PayStage.step_submitted N hget] at ha
      cases ha
      -- the lookup leaves the world as it is, and found the offer that is paid next
      change PayStage.lookedUp id (getReceivedOffer id s.world.db) = _ at hpaying
      cases hoffer : getReceivedOffer id s.world.db with
      | none => rw [hoffer] at hpaying; cases hpaying
      | some offer =>
        rw [hoffer] at hpaying
        cases hpaying
        exact hstays.1 i receivedOfferId receivedOffer rfl hget hoffer
    | paying id offer => cases hpaying
    | rest p => cases hpaying
  · rintro j stage hne hget receivedOfferId receivedOffer rfl
    exact hstays.2 s' ha j receivedOfferId receivedOffer hne hget (hs j _ hget _ _ rfl)

theorem aboutToPay_start (w : World ρ) (receivedOfferIds : List Nat) (i : Nat) (stage : PayStage ρ)
    (h : (submittedOffers w receivedOfferIds).stages[i]? = some stage) : AboutToPay N stage w := by
  rintro receivedOfferId receivedOffer rfl
  obtain ⟨id, -, heq⟩ := List.mem_map.1 (List.mem_of_getElem? h)
  cases heq

/-- A step that keeps offers payable is not in vain where everything about to be paid is payable. -/
theorem notInVain_of_aboutToPay {s : Staged (World ρ) (PayStage ρ)} {a : Turn (World ρ)}
    (hs : ∀ (i : Nat) (stage : PayStage ρ), s.stages[i]? = some stage → AboutToPay N stage s.world)
    (hstays : StaysPayable N s a) : NotInVain N s a := by
  rintro i receivedOfferId rfl
  refine ⟨fun receivedOffer hget => hs i _ hget _ _ rfl, fun hget hbad => ?_⟩
  rw [PayStage.step_submitted N hget]
  cases hoffer : getReceivedOffer receivedOfferId s.world.db with
  | none => exact ⟨_, rfl⟩
  | some receivedOffer => exact absurd (hstays.1 i receivedOfferId receivedOffer rfl hget hoffer) (hbad receivedOffer)

/-- In a run in which the offers that are looked up are payable, and stay so until they are paid, no
call pays in vain. -/
theorem payOffer_not_in_vain {w : World ρ} {receivedOfferIds : List Nat}
    {history : List (Staged (World ρ) (PayStage ρ) × Turn (World ρ))} {s : Staged (World ρ) (PayStage ρ)}
    (hr : Machine.Run (PayStage.staging N).step (submittedOffers w receivedOfferIds) history s)
    (hstays : ∀ x ∈ history, StaysPayable N x.1 x.2) : ∀ x ∈ history, NotInVain N x.1 x.2 := by
  have hstates := hr.invariant (I := fun s => ∀ (i : Nat) (stage : PayStage ρ), s.stages[i]? = some stage →
    AboutToPay N stage s.world) (fun s a s' hs hC ha => aboutToPay_step hs hC ha) (aboutToPay_start w receivedOfferIds)
    hstays
  intro x hx
  apply notInVain_of_aboutToPay _ (hstays x hx)
  exact hstates x.1 (List.mem_append_left _ (List.mem_map_of_mem hx))

end Run

namespace Sample

/-- The offer of the key 5 whose preimage is the scalar 7, for the nonce 2. -/
def lockedOffer : ReceivedOfferRow := offerRow (scalarToBytes 2)

/-- The offer after it was paid. -/
def boughtOffer : ReceivedOfferRow := { lockedOffer with paid := true }

/-- A buyer with that offer and the locked squeak. -/
def lockedBuyer : World Outside :=
  ⟨{ (buyer (scalarToBytes 2)).db with squeaks := [squeakRow squeaklib 1000000 squeak.val.reverse squeak ⟨4200⟩] },
    (buyer (scalarToBytes 2)).env⟩

end Sample

open Sample in
theorem payOffer_not_in_vain_sample : ∃ history s,
    Machine.Run (PayStage.staging (node 1)).step (submittedOffers lockedBuyer [1]) history s ∧
      history.map Prod.snd = [.thread 0, .thread 0] ∧ ∀ x ∈ history, NotInVain (node 1) x.1 x.2 := by
  have h₀ : Machine.Run (PayStage.staging (node 1)).step (submittedOffers lockedBuyer [1]) []
      (submittedOffers lockedBuyer [1]) := .init
  have h₁ := Machine.Run.next h₀ (a := .thread 0) rfl
  have h₂ := Machine.Run.next h₁ (a := .thread 0) rfl
  have hpayable : Payable (node 1) 1 (parseReceivedOffer lockedOffer) lockedBuyer :=
    ⟨lockedOffer, rfl, rfl, rfl, by decide +kernel, _, rfl, rfl⟩
  refine ⟨_, _, h₂, rfl, payOffer_not_in_vain h₂ ?_⟩
  intro x hx
  simp only [List.nil_append, List.cons_append, List.mem_cons, List.not_mem_nil, or_false] at hx
  rcases hx with rfl | rfl
  · -- the lookup finds a payable offer
    refine ⟨?_, ?_⟩
    · intro i receivedOfferId receivedOffer hi hget hoffer
      cases hi
      cases hget
      cases hoffer
      exact hpayable
    · intro s' hs' j receivedOfferId receivedOffer hne hget
      match j, hne, hget with
      | 0, hne, _ => exact absurd rfl hne
  · refine ⟨?_, ?_⟩
    · intro i receivedOfferId receivedOffer hi hget hoffer
      cases hi
      cases hget
    · intro s' hs' j receivedOfferId receivedOffer hne hget
      match j, hne, hget with
      | 0, hne, _ => exact absurd rfl hne

open Sample in
/-- The id of an offer is submitted twice: when the first call has paid for the key and stored it, the
second one pays again. -/
theorem payOffer_in_vain : ∃ history s,
    Machine.Run (PayStage.staging (node 1)).step (submittedOffers lockedBuyer [1, 1]) history s ∧
      ∃ x ∈ history, ¬ NotInVain (node 1) x.1 x.2 := by
  let actions : List (Turn (World Outside)) := List.replicate 10 (.thread 0) ++ [.thread 1]
  have hexec : ((Machine.exec (PayStage.staging (node 1)).step actions (submittedOffers lockedBuyer [1, 1])).map fun r =>
      (r.2.stages[1]?.bind PayStage.offer, r.2.world.db.receivedOffers.rows)) =
        some (some (1, parseReceivedOffer boughtOffer), [boughtOffer]) := rfl
  obtain ⟨⟨history, s⟩, hrun, heq⟩ := Option.map_eq_some_iff.1 hexec
  obtain ⟨hstage, hrows⟩ := Prod.mk.inj heq
  obtain ⟨stage, hget, hoffer⟩ := Option.bind_eq_some_iff.1 hstage
  obtain rfl := PayStage.offer_some hoffer
  obtain ⟨k, hk⟩ := PayStage.program_paying (node 1) 1 (parseReceivedOffer boughtOffer)
  have hnext := Machine.Run.next (Machine.run_exec hrun) (Staging.step_of_step (S := PayStage.staging (node 1)) hget hk)
  refine ⟨_, _, hnext, _, List.mem_append_right _ List.mem_cons_self, fun hgood => ?_⟩
  obtain ⟨r, hfind, -, hpaid, -⟩ := (hgood 1 1 rfl).1 _ hget
  rw [show s.world.db.receivedOffers.rows = [boughtOffer] from hrows] at hfind
  cases hfind
  cases hpaid

end Squeaknode
