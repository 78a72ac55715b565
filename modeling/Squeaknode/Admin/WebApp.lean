/-
The admin web server. `protobuf_serialized` is given one request message for each route, when the app
is made: every request of the route is parsed into this one object, and the handler reads its fields
from there. The server runs one thread for each request.

A handler is a tree of reads and statements. It is run against the message that its route shares, as
the server does, or against the message decoded from its own request, as it is meant to.
-/
import Squeaknode.Admin.Messages
import Squeaknode.Interleave.Machine
import Squeaknode.Node.SqueakStore
import Squeaknode.Node.Sample
import Mathlib.Logic.Function.Basic

namespace Squeaknode

open Interleave

/-! ## Handlers -/

/-- What a handler does with a request message `μ` and the world `σ`. -/
inductive Handler (μ σ ε α : Type) : Type 1
  | ret (a : α)
  | raise (e : ε)
  /-- a field of the message is read -/
  | read {β : Type} (field : μ → β) (k : β → Handler μ σ ε α)
  | step {β : Type} (stmt : σ → β × σ) (k : β → Handler μ σ ε α)

namespace Handler

variable {μ σ ω ε α β : Type}

/-- Sequencing: what a handler returns is handed on. -/
def bind : Handler μ σ ε α → (α → Handler μ σ ε β) → Handler μ σ ε β
  | ret a, f => f a
  | raise e, _ => raise e
  | read field k, f => read field fun b => (k b).bind f
  | step stmt k, f => step stmt fun b => (k b).bind f

instance : Monad (Handler μ σ ε) where
  pure := ret
  bind := bind

/-- Reading a field of the request. -/
def field (f : μ → β) : Handler μ σ ε β := read f ret

/-- A program of the node as a part of a handler. -/
def lift : Prog σ ω ε α → Handler μ σ ε α
  | .ret a => ret a
  | .raise e => raise e
  | .step stmt _ k => step stmt fun b => lift (k b)

/-- Returning or raising. -/
def ofExcept : Except ε α → Handler μ σ ε α
  | .ok a => ret a
  | .error e => raise e

/-- The handler reads the same values from both messages, in every field that it has still to read. -/
def Agree (m m' : μ) : Handler μ σ ε α → Prop
  | ret _ => True
  | raise _ => True
  | read field k => field m = field m' ∧ (k (field m)).Agree m m'
  | step _ k => ∀ b, (k b).Agree m m'

theorem agree_refl (m : μ) (h : Handler μ σ ε α) : h.Agree m m := by
  induction h with
  | ret a => trivial
  | raise e => trivial
  | read field k ih => exact ⟨rfl, ih _⟩
  | step stmt k ih => exact fun b => ih b

theorem agree_bind {m m' : μ} {h : Handler μ σ ε α} {f : α → Handler μ σ ε β} (hh : h.Agree m m')
    (hf : ∀ a, (f a).Agree m m') : (h.bind f).Agree m m' := by
  induction h with
  | ret a => exact hf a
  | raise e => trivial
  | read field k ih => exact ⟨hh.1, ih _ hh.2⟩
  | step stmt k ih => exact fun b => ih b (hh b)

/-- A program of the node reads nothing from the message. -/
theorem agree_lift (m m' : μ) (p : Prog σ ω ε α) : (lift p : Handler μ σ ε α).Agree m m' := by
  induction p with
  | ret a => trivial
  | raise e => trivial
  | step stmt obs k ih => exact fun b => ih b

theorem agree_ofExcept (m m' : μ) (a : Except ε α) : (ofExcept a : Handler μ σ ε α).Agree m m' := by
  cases a <;> trivial

/-- What runs a program, converts its result and replies reads nothing from the message. -/
theorem agree_reply {γ : Type} (m m' : μ) (p : Prog σ ω ε α) (convert : α → Except ε β) (reply : β → γ) :
    ((lift p).bind fun a => (ofExcept (convert a)).bind fun b => ret (reply b) : Handler μ σ ε γ).Agree m m' := by
  apply agree_bind (agree_lift m m' p)
  intro a
  apply agree_bind (agree_ofExcept m m' (convert a))
  intro b
  trivial

end Handler

/-! ## The server -/

/-- A request to a route, with its body. -/
structure HttpRequest (Route : Type) where
  route : Route
  data : Bytes

/-- The routes with their message types and handlers. `ParseFromString` fills the message object and
may raise, which leaves in it what was parsed. -/
structure WebApp (Route : Type) (M : Route → Type) (σ ε α : Type) : Type 1 where
  parseFromString : (r : Route) → Bytes → M r × Except ε Unit
  handler : (r : Route) → Handler (M r) σ ε α

/-- The thread of a request: it has not parsed its body yet, or what is left of its handler. -/
structure RequestThread (Route : Type) (M : Route → Type) (σ ε α : Type) : Type 1 where
  request : HttpRequest Route
  rest : Option (Handler (M request.route) σ ε α)

/-- The world, the message objects of the module, and the threads of the requests. -/
structure ServerState (Route : Type) (M : Route → Type) (σ ε α : Type) : Type 1 where
  world : σ
  /-- the message object of each route -/
  messages : (r : Route) → M r
  threads : List (RequestThread Route M σ ε α)

namespace WebApp

variable {Route : Type} [DecidableEq Route] {M : Route → Type} {σ ε α : Type}

/-- The server before it answers `requests`. -/
def start (world : σ) (messages : (r : Route) → M r) (requests : List (HttpRequest Route)) :
    ServerState Route M σ ε α := ⟨world, messages, requests.map fun request => ⟨request, none⟩⟩

/-- What happens to the server next. -/
inductive Act (σ : Type) where
  /-- a thread takes its next step -/
  | thread (i : Nat)
  /-- somebody else changes the world -/
  | others (world : σ)

/-- Where a handler reads the fields of its request. -/
inductive Source where
  | shared
  | own
  deriving DecidableEq, Repr

variable (app : WebApp Route M σ ε α)

/-- The message that the body of a request decodes to. -/
def message (request : HttpRequest Route) : M request.route := (app.parseFromString request.route request.data).1

/-- The handler is called when the body was parsed. -/
def handle (request : HttpRequest Route) : Handler (M request.route) σ ε α :=
  match (app.parseFromString request.route request.data).2 with
  | .ok () => app.handler request.route
  | .error e => .raise e

/-- The message that a handler reads. -/
def source (s : ServerState Route M σ ε α) (request : HttpRequest Route) : Source → M request.route
  | .shared => s.messages request.route
  | .own => app.message request

/-- The next step of a thread whose rest is `h`. -/
def advance (reads : Source) (i : Nat) (request : HttpRequest Route) (s : ServerState Route M σ ε α) :
    Option (Handler (M request.route) σ ε α) → Option (ServerState Route M σ ε α)
  | none => some { s with
      messages := Function.update s.messages request.route (app.message request)
      threads := s.threads.set i ⟨request, some (app.handle request)⟩ }
  | some (.read field k) => some { s with
      threads := s.threads.set i ⟨request, some (k (field (app.source s request reads)))⟩ }
  | some (.step stmt k) => some { s with
      world := (stmt s.world).2
      threads := s.threads.set i ⟨request, some (k (stmt s.world).1)⟩ }
  | some (.ret _) => none
  | some (.raise _) => none

/-- One step of a thread, or of somebody else. -/
def step (reads : Source) : Act σ → ServerState Route M σ ε α → Option (ServerState Route M σ ε α)
  | .others world, s => some { s with world := world }
  | .thread i, s => s.threads[i]?.bind fun t => app.advance reads i t.request s t.rest

end WebApp

/-! ## The routes that act on squeaks and offers -/

namespace SqueakAdminPb2

structure PayOfferRequest where
  offerId : Int
  deriving DecidableEq, Repr

structure MakeSqueakRequest where
  profileId : Int
  content : String
  replyto : String
  hasRecipient : Bool
  recipientProfileId : Int
  deriving DecidableEq, Repr

/-- `DeleteSqueakRequest`, `LikeSqueakRequest` and `UnlikeSqueakRequest` -/
structure SqueakHashRequest where
  squeakHash : String
  deriving DecidableEq, Repr

/-- What a handler answers. -/
inductive Reply where
  | payOffer (sentPaymentId : Int)
  | makeSqueak (squeakHash : String)
  | deleteSqueak
  | likeSqueak
  | unlikeSqueak
  deriving DecidableEq, Repr

end SqueakAdminPb2

namespace SqueakAdminServerHandler

open SqueakAdminPb2 (PayOfferRequest MakeSqueakRequest SqueakHashRequest Reply)
open Handler (field lift ofExcept raise)

variable {L : Squeaklib} {ρ : Type} (N : Node L ρ)

/-- `make_squeak` with ids from a message: no row has a negative id. -/
def makeSqueak (profileId : Int) (contentStr : String) (replytoHash : Option Bytes) (recipientProfileId : Option Int) :
    NodeM ρ Bytes :=
  match profileId, recipientProfileId with
  | .ofNat profileId, none => SqueakStore.makeSqueak N profileId contentStr replytoHash none
  | .ofNat profileId, some (.ofNat recipientProfileId) =>
    SqueakStore.makeSqueak N profileId contentStr replytoHash (some recipientProfileId)
  | .ofNat profileId, some (.negSucc n) => do
    match ← SqueakStore.getSqueakProfile L profileId with
    | none => throw (.exception s!"Profile with id {profileId} not found.")
    | some _ => throw (.exception s!"Recipient profile with id {Int.negSucc n} not found.")
  | .negSucc n, _ => throw (.exception s!"Profile with id {Int.negSucc n} not found.")

def handleMakeSqueak : Handler MakeSqueakRequest (World ρ) Err Reply := do
  let profileId ← field MakeSqueakRequest.profileId
  let contentStr ← field MakeSqueakRequest.content
  let replytoHashStr ← field MakeSqueakRequest.replyto
  let replytoHash ← ofExcept (fromHexOrNone replytoHashStr)
  let hasRecipient ← field MakeSqueakRequest.hasRecipient
  let recipientProfileId ← if hasRecipient then some <$> field MakeSqueakRequest.recipientProfileId else pure none
  let insertedSqueakHash ← lift (makeSqueak N profileId contentStr replytoHash recipientProfileId)
  return .makeSqueak (hex insertedSqueakHash)

def handlePayOffer : Handler PayOfferRequest (World ρ) Err Reply := do
  match ← field PayOfferRequest.offerId with
  | .ofNat offerId =>
    let sentPaymentId ← lift (SqueakStore.payOffer N offerId)
    let sentPaymentId ← ofExcept (SqueakAdminPb2.int32 sentPaymentId)
    return .payOffer sentPaymentId
  | .negSucc n => raise (.exception s!"Received offer with id {Int.negSucc n} not found.")

/-- A handler that reads a squeak hash and runs one operation on it. -/
def handleSqueakHash (operation : Bytes → NodeM ρ Unit) (reply : Reply) :
    Handler SqueakHashRequest (World ρ) Err Reply := do
  let squeakHashStr ← field SqueakHashRequest.squeakHash
  let squeakHash ← ofExcept (fromHex squeakHashStr)
  lift (operation squeakHash)
  return reply

def handleDeleteSqueak : Handler SqueakHashRequest (World ρ) Err Reply :=
  handleSqueakHash SqueakStore.deleteSqueak .deleteSqueak

def handleLikeSqueak : Handler SqueakHashRequest (World ρ) Err Reply :=
  handleSqueakHash (SqueakStore.likeSqueak N) .likeSqueak

def handleUnlikeSqueak : Handler SqueakHashRequest (World ρ) Err Reply :=
  handleSqueakHash SqueakStore.unlikeSqueak .unlikeSqueak

/-- The routes that are modelled. -/
inductive Route where
  | makesqueakrequest
  | deletesqueak
  | payoffer
  | likesqueak
  | unlikesqueak
  deriving DecidableEq, Repr

/-- The message of a route. -/
def Route.Message : Route → Type
  | makesqueakrequest => MakeSqueakRequest
  | payoffer => PayOfferRequest
  | deletesqueak => SqueakHashRequest
  | likesqueak => SqueakHashRequest
  | unlikesqueak => SqueakHashRequest

/-- The handler of a route. -/
def handler : (r : Route) → Handler r.Message (World ρ) Err Reply
  | .makesqueakrequest => handleMakeSqueak N
  | .deletesqueak => handleDeleteSqueak
  | .payoffer => handlePayOffer N
  | .likesqueak => handleLikeSqueak N
  | .unlikesqueak => handleUnlikeSqueak

/-- The app, with the protobuf library's parser of each message. -/
def app (parseFromString : (r : Route) → Bytes → r.Message × Except Err Unit) :
    WebApp Route Route.Message (World ρ) Err Reply where
  parseFromString := parseFromString
  handler := handler N

end SqueakAdminServerHandler

/-! ## Two payments at once -/

namespace Sample

open SqueakAdminServerHandler (Route)

/-- The body of a payment has one field: its tag, and the number of the offer. -/
def parseFromString : (r : Route) → Bytes → r.Message × Except Err Unit
  | .makesqueakrequest, _ => (⟨0, "", "", false, 0⟩, .ok ())
  | .payoffer, data => (⟨(data.getD 1 0).toNat⟩, .ok ())
  | .deletesqueak, _ => (⟨""⟩, .ok ())
  | .likesqueak, _ => (⟨""⟩, .ok ())
  | .unlikesqueak, _ => (⟨""⟩, .ok ())

/-- The web app of a node. -/
def webApp : WebApp Route Route.Message (World Outside) Err SqueakAdminPb2.Reply :=
  SqueakAdminServerHandler.app (node 10) parseFromString

/-- An offer of the key 5 with the invoice of `n` letters. -/
def numberedOffer (n : Nat) : ReceivedOfferRow :=
  { offerRow (scalarToBytes 2) with
    receivedOfferId := n
    paymentHash := 0 :: scalarToBytes (n + 6)
    paymentRequest := String.ofList (List.replicate n 'i') }

/-- A buyer with the offers 1 and 2. -/
def twoOffers : World Outside :=
  ⟨{ Db.empty with receivedOffers := ⟨[numberedOffer 1, numberedOffer 2], 2⟩ },
    ⟨1000000, [(⟨0 :: scalarToBytes 7, "i", 1000, false, 0, 1000, 3600⟩, scalarToBytes 7),
      (⟨0 :: scalarToBytes 8, "ii", 1000, false, 0, 1000, 3600⟩, scalarToBytes 8)]⟩⟩

/-- The server before it is asked to pay the offer 1 and to pay the offer 2. -/
def twoPayments : ServerState Route Route.Message (World Outside) Err SqueakAdminPb2.Reply :=
  WebApp.start twoOffers (fun r => (parseFromString r []).1) [⟨.payoffer, [8, 1]⟩, ⟨.payoffer, [8, 2]⟩]

/-- Both bodies are parsed before the first request is handled. -/
def parsedTogether : List (WebApp.Act (World Outside)) := [.thread 0, .thread 1] ++ List.replicate 6 (.thread 0)

/-- The first payment has read its request when the second body is parsed. -/
def parsedInTurn : List (WebApp.Act (World Outside)) := [.thread 0, .thread 0, .thread 1, .thread 1]

/-- Which of the received offers are paid. -/
def paidOffers (s : ServerState Route Route.Message (World Outside) Err SqueakAdminPb2.Reply) : List Bool :=
  s.world.db.receivedOffers.rows.map (·.paid)

end Sample

/-! ## Isolation -/

namespace WebApp

variable {Route : Type} [DecidableEq Route] {M : Route → Type} {σ ε α : Type} (app : WebApp Route M σ ε α)


/-- A body is parsed only while every other request of its route that is being handled reads the same
values from the new message as from its own, in the fields that it has still to read. -/
def ParsedAlone (s : ServerState Route M σ ε α) : Act σ → Prop
  | .others _ => True
  | .thread i => ∀ t, s.threads[i]? = some t → t.rest = none →
    ∀ (j : Nat) (t' : RequestThread Route M σ ε α) (h : Handler (M t'.request.route) σ ε α), j ≠ i →
      s.threads[j]? = some t' → t'.request.route = t.request.route → t'.rest = some h →
        h.Agree (app.message t'.request)
          (Function.update s.messages t.request.route (app.message t.request) t'.request.route)

/-- What every thread has still to read is in the message of its route as it is in its own. -/
def Isolated (s : ServerState Route M σ ε α) : Prop :=
  ∀ (j : Nat) (t : RequestThread Route M σ ε α) (h : Handler (M t.request.route) σ ε α),
    s.threads[j]? = some t → t.rest = some h → h.Agree (app.message t.request) (s.messages t.request.route)

variable {app}

/-- A step from an isolated state keeps it isolated, and reads what the request of the thread says. -/
theorem isolated_step {s s' : ServerState Route M σ ε α} {a : Act σ} (hs : app.Isolated s)
    (halone : app.ParsedAlone s a) (ha : app.step .shared a s = some s') :
    app.Isolated s' ∧ app.step .own a s = some s' := by
  cases a with
  | others world =>
    cases ha
    exact ⟨hs, rfl⟩
  | thread i =>
    obtain ⟨⟨request, rest⟩, ht, ha⟩ := Option.bind_eq_some_iff.1 ha
    have hown : ∀ s'', app.advance .own i request s rest = some s'' → app.step .own (.thread i) s = some s'' := by
      intro s'' h
      simp only [step, ht]
      exact h
    cases rest with
    | none =>
      cases ha
      refine ⟨fun j t h hj hrest => ?_, hown _ rfl⟩
      rcases Machine.getElem?_set_cases hj with ⟨rfl, rfl⟩ | ⟨hne, hj⟩
      · -- the thread that parsed finds its own message
        show h.Agree (app.message request) (Function.update s.messages request.route (app.message request) request.route)
        rw [Function.update_self]
        exact Handler.agree_refl _ h
      · show h.Agree (app.message t.request)
          (Function.update s.messages request.route (app.message request) t.request.route)
        by_cases hroute : t.request.route = request.route
        · exact halone _ ht rfl j t h hne hj hroute hrest
        · rw [Function.update_of_ne hroute]
          exact hs j t h hj hrest
    | some h =>
      cases h with
      | ret a => cases ha
      | raise e => cases ha
      | read field k =>
        have hagree := hs i _ _ ht rfl
        have hread : field (s.messages request.route) = field (app.message request) := hagree.1.symm
        cases ha
        refine ⟨fun j t h hj hrest => ?_, hown _ ?_⟩
        · rcases Machine.getElem?_set_cases hj with ⟨rfl, rfl⟩ | ⟨hne, hj⟩
          · cases hrest
            show (k (field (s.messages request.route))).Agree (app.message request) (s.messages request.route)
            rw [hread]
            exact hagree.2
          · exact hs j t h hj hrest
        · show some _ = some _
          simp only [source, hread]
      | step stmt k =>
        have hagree := hs i _ _ ht rfl
        cases ha
        refine ⟨fun j t h hj hrest => ?_, hown _ rfl⟩
        rcases Machine.getElem?_set_cases hj with ⟨rfl, rfl⟩ | ⟨hne, hj⟩
        · cases hrest
          exact hagree _
        · exact hs j t h hj hrest

omit [DecidableEq Route] in
theorem isolated_start (world : σ) (messages : (r : Route) → M r) (requests : List (HttpRequest Route)) :
    app.Isolated (start world messages requests) := by
  intro j t h hj hrest
  obtain ⟨request, -, rfl⟩ := List.mem_map.1 (List.mem_of_getElem? hj)
  cases hrest

/-- A run of the server in which every body is parsed alone is a run in which each handler reads the
message decoded from the body of its own request. -/
theorem requests_isolated (app : WebApp Route M σ ε α) (world : σ) (messages : (r : Route) → M r)
    (requests : List (HttpRequest Route)) (history : List (ServerState Route M σ ε α × Act σ))
    (s : ServerState Route M σ ε α) (hr : Machine.Run (app.step .shared) (start world messages requests) history s)
    (halone : ∀ x ∈ history, app.ParsedAlone x.1 x.2) :
    Machine.Run (app.step .own) (start world messages requests) history s := by
  -- the run so far is one of the other server too, and it is in an isolated state
  suffices h : Machine.Run (app.step .own) (start world messages requests) history s ∧ app.Isolated s from h.1
  induction hr with
  | init => exact ⟨.init, isolated_start world messages requests⟩
  | @next history s s' a hr ha ih =>
    obtain ⟨hrun, hs⟩ := ih fun x hx => halone x (List.mem_append_left _ hx)
    obtain ⟨hs', hown⟩ := isolated_step hs (halone (s, a) (List.mem_append_right _ List.mem_cons_self)) ha
    exact ⟨.next hrun hown, hs'⟩

open Sample in
theorem requests_isolated_payments : ∃ history s,
    history.map Prod.snd = parsedInTurn ∧ Machine.Run (webApp.step .own) twoPayments history s := by
  have h₀ : Machine.Run (webApp.step .shared) twoPayments [] twoPayments := .init
  have h₁ := Machine.Run.next h₀ (a := .thread 0) rfl
  have h₂ := Machine.Run.next h₁ (a := .thread 0) rfl
  have h₃ := Machine.Run.next h₂ (a := .thread 1) rfl
  have h₄ := Machine.Run.next h₃ (a := .thread 1) rfl
  refine ⟨_, _, ?_, requests_isolated webApp twoOffers _ _ _ _ h₄ ?_⟩
  · rfl
  · intro x hx
    simp only [List.nil_append, List.cons_append, List.mem_cons, List.not_mem_nil, or_false] at hx
    rcases hx with rfl | rfl | rfl | rfl
    · intro t ht hrest j t' h hne ht' hroute hrest'
      match j, hne, ht' with
      | 1, _, ht' =>
        cases ht'
        cases hrest'
    · intro t ht hrest
      cases ht
      cases hrest
    · intro t ht hrest j t' h hne ht' hroute hrest'
      match j, hne, ht' with
      | 0, _, ht' =>
        -- the first payment runs with the id that it has read
        cases ht'
        cases hrest'
        exact Handler.agree_reply _ _ (SqueakStore.payOffer (node 10) 1) _ _
      | 1, hne, _ => exact absurd rfl hne
    · intro t ht hrest
      cases ht
      cases hrest

open Sample in
/-- The request for the offer 1 pays the offer 2. -/
theorem requests_not_isolated : ∃ history s,
    Machine.Run (webApp.step .shared) twoPayments history s ∧ history.map Prod.snd = parsedTogether ∧
      paidOffers s = [false, true] ∧ ¬ Machine.Run (webApp.step .own) twoPayments history s := by
  have hshared : ((Machine.exec (webApp.step .shared) parsedTogether twoPayments).map fun r => paidOffers r.2)
      = some [false, true] := by decide +kernel
  have hown : ((Machine.exec (webApp.step .own) parsedTogether twoPayments).map fun r => paidOffers r.2)
      = some [true, false] := by decide +kernel
  obtain ⟨⟨history, s⟩, hexec, hpaid⟩ := Option.map_eq_some_iff.1 hshared
  have hacts := Machine.actions_exec hexec
  refine ⟨history, s, Machine.run_exec hexec, hacts, hpaid, fun hr => ?_⟩
  have hexec' := hr.exec_eq
  rw [hacts] at hexec'
  rw [hexec'] at hown
  have hpaid' : paidOffers s = [true, false] := Option.some.inj hown
  rw [hpaid] at hpaid'
  cases hpaid'

end WebApp

end Squeaknode
