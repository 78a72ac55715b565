/-
The tasks of the payment processor, statement by statement, against a lightning node that keeps
settling invoices: subscriptions that start at a settle index, fail and are retried, tasks that are
stopped while they still handle a payment, restarts, and the reset of all settle indices.

A subscription with a settle index replays what was settled after it; one with the index 0 replays
nothing. So a payment is lost if and only if the current task opens a subscription with the index 0
while some payment is not recorded (`no_payment_lost_iff`).
-/
import Squeaknode.Interleave.Machine
import Squeaknode.Node.PaymentProcessor

namespace Squeaknode

open Interleave Relational SqueakDb

namespace PaymentProcessor

/-! ## The system -/

/-- Where the thread of a task is in `process_subscribed_invoices`. Notifications are counted from 0:
the one at `next` has the settle index `next + 1`. -/
inductive Phase where
  /-- before `while not self.stopped.is_set()` -/
  | checkingStopped
  | readingIndex
  | subscribing (latestSettleIndex : Int)
  /-- before `if self.stopped.is_set()` -/
  | subscribed (next : Nat)
  /-- waiting for the next settled invoice of the stream -/
  | streaming (next : Nat)
  | lookingUp (next : Nat)
  | inserting (next : Nat) (receivedPayment : ReceivedPayment)
  | markingPaid (next : Nat) (receivedPayment : ReceivedPayment)
  | retrying
  | ended
  deriving DecidableEq

/-- A task with its thread and its stream. -/
structure PaymentProcessorTask where
  phase : Phase
  stopped : Bool
  /-- `cancel_fn` of the stream was called -/
  cancelled : Bool
  deriving DecidableEq

/-- The database, the payment hashes that the lightning node has settled in the order of their settle
indices, which start at 1, and the tasks of the process. -/
structure ProcessorState where
  db : Db
  settled : List Bytes
  tasks : List PaymentProcessorTask
  currentTask : Option Nat

/-- The first notification of a subscription: the one after the settle index, or for the index 0 the first
one after the subscription. -/
def firstNotification (settled : List Bytes) (settleIndex : Int) : Nat :=
  if settleIndex = 0 then settled.length else settleIndex.toNat

/-- The next statement of the thread; it waits where the stream has nothing to deliver. -/
def PaymentProcessorTask.advance (now : Int) (settled : List Bytes) (db : Db) (task : PaymentProcessorTask) :
    Option (PaymentProcessorTask × Db) :=
  match task.phase with
  | .checkingStopped => some ({ task with phase := if task.stopped then .ended else .readingIndex }, db)
  | .readingIndex => some ({ task with phase := .subscribing ((getLatestSettleIndex db).getD 0) }, db)
  | .subscribing index =>
    some ({ task with phase := .subscribed (firstNotification settled index), cancelled := false }, db)
  | .subscribed next => some ({ task with phase := .streaming next, cancelled := task.cancelled || task.stopped }, db)
  | .streaming next =>
    if task.cancelled then some ({ task with phase := .checkingStopped }, db)
    else if next < settled.length then some ({ task with phase := .lookingUp next }, db)
    else none
  | .lookingUp next => (settled[next]?).map fun paymentHash =>
    match getSentOfferByPaymentHash paymentHash db with
    | none => ({ task with phase := .streaming (next + 1) }, db)
    | some sentOffer => ({ task with phase := .inserting next (receivedPaymentOf sentOffer (next + 1)) }, db)
  | .inserting next receivedPayment =>
    some ({ task with phase := .markingPaid next receivedPayment }, (insertReceivedPayment now receivedPayment db).2)
  | .markingPaid next receivedPayment =>
    some ({ task with phase := .streaming (next + 1) }, setSentOfferPaid receivedPayment.paymentHash true db)
  | .retrying => some ({ task with phase := .checkingStopped }, db)
  | .ended => none

/-- The stream raises while the task waits for it. -/
def PaymentProcessorTask.fail (task : PaymentProcessorTask) : Option PaymentProcessorTask :=
  match task.phase with
  | .streaming _ => if task.cancelled then none else some { task with phase := .retrying }
  | _ => none

theorem PaymentProcessorTask.fail_cases {task failed : PaymentProcessorTask} (h : task.fail = some failed) :
    (∃ next, task.phase = .streaming next) ∧ failed = { task with phase := .retrying } := by
  unfold fail at h
  split at h
  · rename_i next hphase
    obtain ⟨-, heq⟩ := Option.ite_none_left_eq_some.1 h
    cases heq
    exact ⟨⟨next, hphase⟩, rfl⟩
  · cases h

section Alone

variable {L : Squeaklib} {ρ : Type} (N : Node L ρ)

/-- A task that runs alone executes its next statement. -/
def Alone (now : Int) (settled : List Bytes) (before after : PaymentProcessorTask × Db) : Prop :=
  before.1.advance now settled before.2 = some after

/-- Alone, the statements that handle a notification do what `processInvoice` does with its invoice. -/
theorem alone_processInvoice (w : World ρ) {settled : List Bytes} {next : Nat} {invoice : Invoice}
    (hsettled : invoice.settled = true) (hnext : settled[next]? = some invoice.rHash)
    (hindex : invoice.settleIndex = next + 1) (task : PaymentProcessorTask) :
    Relation.ReflTransGen (Alone (N.timestampNowMs w.env).1 settled) ({ task with phase := .lookingUp next }, w.db)
      ({ task with phase := .streaming (next + 1) }, ((processInvoice N invoice).run w).2.db) := by
  let looking : PaymentProcessorTask := { task with phase := .lookingUp next }
  have hlookup : looking.advance (N.timestampNowMs w.env).1 settled w.db =
      some (match getSentOfferByPaymentHash invoice.rHash w.db with
        | none => ({ task with phase := .streaming (next + 1) }, w.db)
        | some sentOffer =>
          ({ task with phase := .inserting next (receivedPaymentOf sentOffer (next + 1)) }, w.db)) := by
    show (settled[next]?).map _ = _
    rw [hnext]
    rfl
  unfold processInvoice
  rw [if_pos hsettled, Prog.run_bind_of_ok (run_query w _)]
  rcases hoffer : getSentOfferByPaymentHash invoice.rHash w.db with _ | sentOffer
  · rw [hoffer] at hlookup
    exact .single hlookup
  · rw [hoffer] at hlookup
    rw [← hindex] at hlookup
    let now := (N.timestampNowMs w.env).1
    let p := receivedPaymentOf sentOffer invoice.settleIndex
    have hinsert : Alone now settled ({ task with phase := .inserting next p }, w.db)
      ({ task with phase := .markingPaid next p }, (insertReceivedPayment now p w.db).2) := rfl
    exact .head hlookup (.head hinsert (.single rfl))

end Alone

/-- What happens. `start_processing` is `stop`, `cancel` and `start`, `stop_processing` the first two of
them, and `reprocess_received_payments` is `clear` and `start_processing`. -/
inductive Action where
  | createOffer (now : Int) (sentOffer : SentOffer)
  | deleteExpiredSentOffers (now intervalS : Int)
  | settle (paymentHash : Bytes)
  | advance (i : Nat) (now : Int)
  | fail (i : Nat)
  | stop
  | cancel
  | start
  | clear
  /-- the process ends -/
  | kill

namespace ProcessorState

/-- The task that the processor holds. -/
def current (s : ProcessorState) : Option PaymentProcessorTask := s.currentTask.bind fun i => s.tasks[i]?

/-- Task `i` is now `task`. -/
def setTask (i : Nat) (task : PaymentProcessorTask) (s : ProcessorState) : ProcessorState :=
  { s with tasks := s.tasks.set i task }

/-- The task that the processor holds is changed. -/
def setCurrent (f : PaymentProcessorTask → PaymentProcessorTask) (s : ProcessorState) : ProcessorState :=
  match s.currentTask, s.current with
  | some i, some task => s.setTask i (f task)
  | _, _ => s

/-- A payment hash is settled once, and there is no new invoice for one that was settled. -/
def step : Action → ProcessorState → Option ProcessorState
  | .createOffer now sentOffer, s =>
    if s.settled.contains sentOffer.paymentHash then none
    else some { s with db := (insertSentOffer now sentOffer s.db).2 }
  | .deleteExpiredSentOffers now intervalS, s =>
    some { s with db := (SqueakDb.deleteExpiredSentOffers now intervalS s.db).2 }
  | .settle paymentHash, s =>
    if s.settled.contains paymentHash then none else some { s with settled := s.settled ++ [paymentHash] }
  | .advance i now, s => (s.tasks[i]?).bind fun task => (task.advance now s.settled s.db).map fun advanced =>
    { s with db := advanced.2, tasks := s.tasks.set i advanced.1 }
  | .fail i, s => (s.tasks[i]?).bind fun task => task.fail.map fun failed => s.setTask i failed
  | .stop, s => some (s.setCurrent fun task => { task with stopped := true })
  | .cancel, s => if s.current.all fun task => task.stopped then
      some (s.setCurrent fun task => { task with cancelled := true })
    else none
  | .start, s => if s.current.all fun task => task.stopped then
      some { s with tasks := s.tasks ++ [⟨.checkingStopped, false, false⟩], currentTask := some s.tasks.length }
    else none
  | .clear, s => some { s with db := clearReceivedPaymentSettleIndices s.db }
  | .kill, s => some { s with tasks := [], currentTask := none }

/-! ## Lost payments and subscriptions at index 0 -/

/-- There is a sent offer with this payment hash. -/
def OfferedHash (paymentHash : Bytes) (db : Db) : Prop := ∃ o ∈ db.sentOffers.rows, o.paymentHash = paymentHash

/-- Every settled invoice whose sent offer is there has its received payment. -/
def NoneLost (s : ProcessorState) : Prop := ∀ h ∈ s.settled, OfferedHash h s.db → RecordedHash h s.db

/-- The current task has handled all that its subscription delivers. -/
def Consumed (s : ProcessorState) : Prop :=
  ∃ task next, s.current = some task ∧ task.stopped = false ∧
    (task.phase = .subscribed next ∨ task.phase = .streaming next) ∧ s.settled.length ≤ next

/-- The action opens a subscription of the current task with the settle index 0. -/
def OpensAtZero (s : ProcessorState) (a : Action) : Prop :=
  ∃ i now task, a = .advance i now ∧ s.currentTask = some i ∧ s.tasks[i]? = some task ∧ task.stopped = false ∧
    task.phase = .subscribing 0

/-- A node that has sold nothing yet, next to any lightning node. -/
structure Fresh (s : ProcessorState) : Prop where
  sentOffers : s.db.sentOffers.rows = []
  receivedPayments : s.db.receivedPayments.rows = []
  tasks : s.tasks = []
  currentTask : s.currentTask = none

/-! ## The invariant -/

/-- The payments of the first `n` settled invoices are recorded. -/
structure UpTo (s : ProcessorState) (n : Nat) : Prop where
  le : n ≤ s.settled.length
  recorded : ∀ h ∈ s.settled.take n, OfferedHash h s.db → RecordedHash h s.db

/-- What a task relies on: everything before its next notification is recorded, unless its stream is
cancelled or about to be. -/
def Sound (s : ProcessorState) (task : PaymentProcessorTask) : Prop :=
  (task.cancelled = true → task.stopped = true) ∧
  match task.phase with
  | .subscribing index => 0 ≤ index ∧ s.UpTo index.toNat
  | .subscribed next => task.stopped = true ∨ s.UpTo next
  | .streaming next => task.cancelled = true ∨ s.UpTo next
  | .lookingUp next => s.UpTo next ∧ next < s.settled.length
  | .inserting next receivedPayment => s.UpTo next ∧ s.settled[next]? = some receivedPayment.paymentHash ∧
    receivedPayment.settleIndex = next + 1
  | .markingPaid next _ => s.UpTo (next + 1)
  | _ => True

/-- Everything before the settle index of a payment is recorded, so that a subscription may start there. -/
def Indices (s : ProcessorState) : Prop :=
  ∀ r ∈ s.db.receivedPayments.rows, 0 ≤ r.settleIndex ∧ s.UpTo r.settleIndex.toNat

/-- The invariant: settle indices are those of recorded payments with nothing lost before them, every task is sound,
and all tasks but the current one are stopped. -/
structure Inv (s : ProcessorState) : Prop where
  indices : s.Indices
  tasks : ∀ task ∈ s.tasks, s.Sound task
  others : ∀ i task, s.tasks[i]? = some task → s.currentTask ≠ some i → task.stopped = true

theorem current_eq {s : ProcessorState} {i : Nat} (h : s.currentTask = some i) : s.current = s.tasks[i]? := by
  unfold current
  rw [h]
  rfl

theorem noneLost_iff {s : ProcessorState} : s.NoneLost ↔ s.UpTo s.settled.length := by
  constructor
  · intro h
    refine ⟨Nat.le_refl _, ?_⟩
    rwa [List.take_length]
  · intro h
    have hrec := h.recorded
    rwa [List.take_length] at hrec

/-! ## Steps that only grow -/

/-- More is settled, no offer for what was settled is new, and no payment is gone. -/
structure Grows (s s' : ProcessorState) : Prop where
  settled : s.settled <+: s'.settled
  offers : ∀ h ∈ s.settled, OfferedHash h s'.db → OfferedHash h s.db
  recorded : ∀ h, RecordedHash h s.db → RecordedHash h s'.db

theorem UpTo.grows {s s' : ProcessorState} {n : Nat} (h : s.UpTo n) (hg : Grows s s') : s'.UpTo n := by
  obtain ⟨more, hmore⟩ := hg.settled
  have htake : s'.settled.take n = s.settled.take n := by
    rw [← hmore, List.take_append_of_le_length h.le]
  constructor
  · rw [← hmore, List.length_append]
    exact Nat.le_add_right_of_le h.le
  · rw [htake]
    intro x hx hoffer
    exact hg.recorded x (h.recorded x hx (hg.offers x (List.mem_of_mem_take hx) hoffer))

theorem Sound.grows {s s' : ProcessorState} {task : PaymentProcessorTask} (h : s.Sound task) (hg : Grows s s') :
    s'.Sound task := by
  obtain ⟨hstopped, h⟩ := h
  refine ⟨hstopped, ?_⟩
  obtain ⟨more, hmore⟩ := hg.settled
  rcases hphase : task.phase with _ | _ | index | next | next | next | ⟨next, p⟩ | ⟨next, p⟩ | _ | _ <;>
    simp only [hphase] at h ⊢
  · exact ⟨h.1, h.2.grows hg⟩
  · exact h.imp_right (UpTo.grows · hg)
  · exact h.imp_right (UpTo.grows · hg)
  · refine ⟨h.1.grows hg, ?_⟩
    rw [← hmore, List.length_append]
    omega
  · obtain ⟨hupto, hnext, hindex⟩ := h
    refine ⟨hupto.grows hg, ?_, hindex⟩
    rw [← hmore, List.getElem?_append_left (List.getElem?_eq_some_iff.1 hnext).1]
    exact hnext
  · exact h.grows hg

/-- Stopping and cancelling a task ask less of it. -/
theorem Sound.flags {s : ProcessorState} {task task' : PaymentProcessorTask} (h : s.Sound task)
    (hphase : task'.phase = task.phase) (hcancelled : task'.cancelled = true → task'.stopped = true)
    (hstop : task.stopped = true → task'.stopped = true) (hcancel : task.cancelled = true → task'.cancelled = true) :
    s.Sound task' := by
  obtain ⟨-, h⟩ := h
  refine ⟨hcancelled, ?_⟩
  rw [hphase]
  rcases hp : task.phase with _ | _ | index | next | next | next | ⟨next, p⟩ | ⟨next, p⟩ | _ | _ <;>
    simp only [hp] at h ⊢
  · exact h
  · exact h.imp_left hstop
  · exact h.imp_left hcancel
  all_goals exact h

/-- A statement on the database that removes no payment and adds no offer for what was settled. -/
theorem Grows.ofDb {s : ProcessorState} {db : Db} (hoffers : ∀ h ∈ s.settled, OfferedHash h db → OfferedHash h s.db)
    (hrecorded : ∀ h, RecordedHash h s.db → RecordedHash h db) : Grows s { s with db := db } :=
  ⟨List.prefix_refl _, hoffers, hrecorded⟩

theorem grows_setSentOfferPaid (s : ProcessorState) (h : Bytes) :
    Grows s { s with db := setSentOfferPaid h true s.db } := by
  refine .ofDb ?_ fun h' => ((keepsRecords_setSentOfferPaid h s.db) h').1
  rintro h' - ⟨o, ho, heq⟩
  obtain ⟨o', ho', rfl⟩ := mem_updateWhere.1 ho
  refine ⟨o', ho', ?_⟩
  rw [← heq]
  split <;> rfl

theorem grows_insertReceivedPayment (s : ProcessorState) (now : Int) (p : ReceivedPayment) :
    Grows s { s with db := (insertReceivedPayment now p s.db).2 } :=
  .ofDb (fun _ _ h => h) fun h => ((keepsRecords_insertReceivedPayment now p s.db) h).1

theorem grows_clear (s : ProcessorState) : Grows s { s with db := clearReceivedPaymentSettleIndices s.db } :=
  .ofDb (fun _ _ h => h) fun h => ((keepsRecords_clear s.db) h).1

theorem grows_deleteExpiredSentOffers (s : ProcessorState) (now intervalS : Int) :
    Grows s { s with db := (SqueakDb.deleteExpiredSentOffers now intervalS s.db).2 } := by
  refine .ofDb ?_ fun _ h => h
  rintro h - ⟨o, ho, heq⟩
  exact ⟨o, (mem_deleteWhere.1 ho).1, heq⟩

/-- An offer for a payment hash that is not settled. -/
theorem grows_createOffer {s : ProcessorState} {o : SentOffer} (hnew : o.paymentHash ∉ s.settled) (now : Int) :
    Grows s { s with db := (insertSentOffer now o s.db).2 } := by
  refine .ofDb ?_ fun _ h => h
  rintro h hsettled ⟨r, hr, heq⟩
  change r ∈ (s.db.sentOffers.insert _ _).2.rows at hr
  rcases Table.mem_insert hr with hr | ⟨id, rfl⟩
  · exact ⟨r, hr, heq⟩
  · rw [← heq] at hsettled
    exact absurd hsettled hnew

theorem grows_settle (s : ProcessorState) (h : Bytes) : Grows s { s with settled := s.settled ++ [h] } :=
  ⟨List.prefix_append _ _, fun _ _ h => h, fun _ h => h⟩

/-! ## The steps of a task -/

theorem Indices.grows {s s' : ProcessorState} (h : s.Indices) (hg : Grows s s')
    (hrows : ∀ r ∈ s'.db.receivedPayments.rows, ∃ r₀ ∈ s.db.receivedPayments.rows,
      r.settleIndex = r₀.settleIndex ∨ r.settleIndex = 0) : s'.Indices := by
  intro r hr
  obtain ⟨r₀, hr₀, heq | heq⟩ := hrows r hr
  · rw [heq]
    exact ⟨(h r₀ hr₀).1, (h r₀ hr₀).2.grows hg⟩
  · rw [heq]
    exact ⟨Int.le_refl 0, Nat.zero_le _, fun x hx => by cases hx⟩

/-- The latest settle index starts where everything before is recorded. -/
theorem Indices.latest {s : ProcessorState} (h : s.Indices) :
    0 ≤ (getLatestSettleIndex s.db).getD 0 ∧ s.UpTo ((getLatestSettleIndex s.db).getD 0).toNat := by
  rcases hmax : getLatestSettleIndex s.db with _ | m
  · exact ⟨Int.le_refl 0, Nat.zero_le _, fun x hx => by cases hx⟩
  · have hmem := List.max?_mem hmax
    obtain ⟨r, hr, rfl⟩ := List.mem_map.1 hmem
    exact h r hr

/-- Recording the payment of the next notification. -/
theorem Indices.insert {s : ProcessorState} (h : s.Indices) {next : Nat} {p : ReceivedPayment} (hupto : s.UpTo next)
    (hnext : s.settled[next]? = some p.paymentHash) (hindex : p.settleIndex = next + 1) (now : Int) :
    { s with db := (insertReceivedPayment now p s.db).2 }.UpTo (next + 1) ∧
      { s with db := (insertReceivedPayment now p s.db).2 }.Indices := by
  have hg := grows_insertReceivedPayment s now p
  have hnext' : UpTo { s with db := (insertReceivedPayment now p s.db).2 } (next + 1) := by
    have hlt : next < s.settled.length := (List.getElem?_eq_some_iff.1 hnext).1
    refine ⟨hlt, ?_⟩
    show ∀ x ∈ s.settled.take (next + 1), _
    rw [List.take_add_one, hnext]
    intro x hx hoffer
    rcases List.mem_append.1 hx with hx | hx
    · exact (hupto.grows hg).recorded x hx hoffer
    · rw [List.mem_singleton.1 hx]
      exact recordedHash_insertReceivedPayment now p s.db
  refine ⟨hnext', fun r hr => ?_⟩
  change r ∈ (s.db.receivedPayments.insert _ _).2.rows at hr
  rcases Table.mem_insert hr with hr | ⟨id, rfl⟩
  · exact ⟨(h r hr).1, (h r hr).2.grows hg⟩
  · have hrow : (receivedPaymentRow now p id).settleIndex = next + 1 := hindex
    rw [hrow]
    exact ⟨by omega, hnext'⟩

theorem Grows.refl (s : ProcessorState) : Grows s s := ⟨List.prefix_refl _, fun _ _ h => h, fun _ h => h⟩

/-- The tables and what is settled do not depend on the tasks. -/
theorem Grows.ofTasks (s : ProcessorState) (tasks : List PaymentProcessorTask) (currentTask : Option Nat) :
    Grows s { s with tasks := tasks, currentTask := currentTask } :=
  ⟨List.prefix_refl _, fun _ _ h => h, fun _ h => h⟩

/-- A task that becomes `task'` while the database becomes `db`. -/
structure Advanced (s : ProcessorState) (task task' : PaymentProcessorTask) (db : Db) : Prop where
  grows : Grows s { s with db := db }
  indices : Indices { s with db := db }
  sound : Sound { s with db := db } task'
  stopped : task.stopped = true → task'.stopped = true

/-- Whatever statement is next, it keeps what the task relies on, if a subscription that starts at 0
is opened only when nothing is lost. -/
theorem advanced {s : ProcessorState} {task task' : PaymentProcessorTask} {db : Db} {now : Int} (hi : s.Indices)
    (hs : s.Sound task) (hzero : task.stopped = false → task.phase = .subscribing 0 → s.NoneLost)
    (h : task.advance now s.settled s.db = some (task', db)) : Advanced s task task' db := by
  obtain ⟨hstopped, hs⟩ := hs
  unfold PaymentProcessorTask.advance at h
  rcases hphase : task.phase with _ | _ | index | next | next | next | ⟨next, p⟩ | ⟨next, p⟩ | _ | _ <;>
    simp only [hphase] at h hs
  case checkingStopped =>
    by_cases hstop : task.stopped = true
    · rw [if_pos hstop] at h
      cases h
      exact ⟨.refl s, hi, ⟨hstopped, trivial⟩, id⟩
    · rw [if_neg hstop] at h
      cases h
      exact ⟨.refl s, hi, ⟨hstopped, trivial⟩, id⟩
  case readingIndex =>
    cases h
    exact ⟨.refl s, hi, ⟨hstopped, hi.latest⟩, id⟩
  case subscribing =>
    cases h
    refine ⟨.refl s, hi, ⟨fun hcancelled => (by cases hcancelled), ?_⟩, id⟩
    show task.stopped = true ∨ s.UpTo (firstNotification s.settled index)
    -- from index 0 the stream starts after the last invoice, from any other right after that one
    by_cases hindex : index = 0
    · rcases hstop : task.stopped with _ | _
      · right
        rw [firstNotification, if_pos hindex]
        exact noneLost_iff.1 (hzero hstop (by rw [hphase, hindex]))
      · exact .inl rfl
    · right
      rw [firstNotification, if_neg hindex]
      exact hs.2
  case subscribed =>
    cases h
    refine ⟨.refl s, hi, ⟨?_, ?_⟩, id⟩
    · show (task.cancelled || task.stopped) = true → task.stopped = true
      rw [Bool.or_eq_true]
      rintro (hcancelled | hstop)
      · exact hstopped hcancelled
      · exact hstop
    · show (task.cancelled || task.stopped) = true ∨ s.UpTo next
      refine hs.imp_left fun hstop => ?_
      rw [hstop, Bool.or_true]
  case streaming =>
    by_cases hcancelled : task.cancelled = true
    · rw [if_pos hcancelled] at h
      cases h
      exact ⟨.refl s, hi, ⟨hstopped, trivial⟩, id⟩
    · rw [if_neg hcancelled] at h
      obtain ⟨hlt, heq⟩ := Option.ite_none_right_eq_some.1 h
      cases heq
      exact ⟨.refl s, hi, ⟨hstopped, hs.resolve_left hcancelled, hlt⟩, id⟩
  case lookingUp =>
    obtain ⟨hupto, hlt⟩ := hs
    have hget : s.settled[next]? = some s.settled[next] := List.getElem?_eq_getElem hlt
    rw [hget, Option.map_some] at h
    rcases hoffer : getSentOfferByPaymentHash s.settled[next] s.db with _ | o
    · simp only [hoffer] at h
      cases h
      -- no offer was found, so the invoice counts as recorded
      have hnone := findBy_none.1 (Option.map_eq_none_iff.1 hoffer)
      refine ⟨.refl s, hi, ⟨hstopped, .inr ⟨hlt, ?_⟩⟩, id⟩
      show ∀ x ∈ s.settled.take (next + 1), _
      rw [List.take_add_one, hget]
      intro x hx hoffered
      rcases List.mem_append.1 hx with hx | hx
      · exact hupto.recorded x hx hoffered
      · obtain ⟨o, ho, hhash⟩ := hoffered
        rw [List.mem_singleton.1 hx] at hhash
        exact absurd hhash (hnone o ho)
    · simp only [hoffer] at h
      cases h
      obtain ⟨r, hr, rfl⟩ := Option.map_eq_some_iff.1 hoffer
      have hhash : r.paymentHash = s.settled[next] := (findBy_some hr).2
      refine ⟨.refl s, hi, ⟨hstopped, hupto, ?_, rfl⟩, id⟩
      show s.settled[next]? = some r.paymentHash
      rw [hget, hhash]
  case inserting =>
    cases h
    obtain ⟨hupto, hnext, hindex⟩ := hs
    -- the sale that is saved is the next one
    obtain ⟨hupto', hi'⟩ := hi.insert hupto hnext hindex now
    exact ⟨grows_insertReceivedPayment s now p, hi', ⟨hstopped, hupto'⟩, id⟩
  case markingPaid =>
    cases h
    have hg := grows_setSentOfferPaid s p.paymentHash
    exact ⟨hg, hi.grows hg fun r hr => ⟨r, hr, .inl rfl⟩, ⟨hstopped, .inr (hs.grows hg)⟩, id⟩
  case retrying =>
    cases h
    exact ⟨.refl s, hi, ⟨hstopped, trivial⟩, id⟩
  case ended => cases h

/-! ## The steps of the system -/

theorem Inv.sameTasks {s s' : ProcessorState} (hi : s.Inv) (hg : Grows s s') (hindices : s'.Indices)
    (htasks : s'.tasks = s.tasks) (hcurrent : s'.currentTask = s.currentTask) : s'.Inv where
  indices := hindices
  tasks task htask := (hi.tasks task (by rw [← htasks]; exact htask)).grows hg
  others i task hget hne := hi.others i task (by rw [← htasks]; exact hget) (by rw [← hcurrent]; exact hne)

theorem Inv.setTask {s : ProcessorState} {i : Nat} {task task' : PaymentProcessorTask} {db : Db} (hi : s.Inv)
    (hget : s.tasks[i]? = some task) (h : Advanced s task task' db) :
    Inv { s with db := db, tasks := s.tasks.set i task' } := by
  have hg := Grows.ofTasks { s with db := db } (s.tasks.set i task') s.currentTask
  refine ⟨h.indices.grows hg fun r hr => ⟨r, hr, .inl rfl⟩, fun t ht => ?_, fun j t hj hne => ?_⟩
  · rcases List.mem_or_eq_of_mem_set ht with ht | rfl
    · exact ((hi.tasks t ht).grows h.grows).grows hg
    · exact h.sound.grows hg
  · change (s.tasks.set i task')[j]? = some t at hj
    by_cases hij : i = j
    · subst hij
      rw [List.getElem?_set_self (List.getElem?_eq_some_iff.1 hget).1] at hj
      cases hj
      exact h.stopped (hi.others i task hget hne)
    · rw [List.getElem?_set_ne hij] at hj
      exact hi.others j t hj hne

/-- A change of the current task alone. -/
theorem Inv.setCurrent {s : ProcessorState} (hi : s.Inv) {f : PaymentProcessorTask → PaymentProcessorTask}
    (hf : ∀ task, s.current = some task → s.Sound task →
      s.Sound (f task) ∧ (task.stopped = true → (f task).stopped = true)) : (s.setCurrent f).Inv := by
  unfold ProcessorState.setCurrent
  rcases hcur : s.currentTask with _ | i
  · exact hi
  · rcases htask : s.current with _ | task
    · exact hi
    · have hget : s.tasks[i]? = some task := (current_eq hcur).symm.trans htask
      obtain ⟨hsound, hstopped⟩ := hf task htask (hi.tasks task (List.mem_of_getElem? hget))
      exact hi.setTask hget ⟨.refl s, hi.indices, hsound, hstopped⟩

/-- A new current task, once the task before is stopped. -/
theorem Inv.start {s : ProcessorState} (hi : s.Inv) (hstopped : ∀ task, s.current = some task → task.stopped = true) :
    Inv { s with tasks := s.tasks ++ [⟨.checkingStopped, false, false⟩], currentTask := some s.tasks.length } := by
  have hg := Grows.ofTasks s (s.tasks ++ [⟨.checkingStopped, false, false⟩]) (some s.tasks.length)
  refine ⟨hi.indices.grows hg fun r hr => ⟨r, hr, .inl rfl⟩, fun task htask => ?_, fun i task hget hne => ?_⟩
  · rcases List.mem_append.1 htask with htask | htask
    · exact (hi.tasks task htask).grows hg
    · rw [List.mem_singleton.1 htask]
      exact ⟨fun hcancelled => (by cases hcancelled), trivial⟩
  · change (s.tasks ++ [_])[i]? = some task at hget
    rcases Machine.getElem?_concat_cases hget with ⟨rfl, -⟩ | ⟨-, hget⟩
    · exact absurd rfl hne
    · by_cases hcur : s.currentTask = some i
      · exact hstopped task ((current_eq hcur).trans hget)
      · exact hi.others i task hget hcur

/-- No action breaks the invariant but the opening of a subscription at 0 that loses a payment. -/
theorem Inv.step {s s' : ProcessorState} {a : Action} (hi : s.Inv) (hzero : s.OpensAtZero a → s.NoneLost)
    (h : ProcessorState.step a s = some s') : s'.Inv := by
  cases a with
  | createOffer now o =>
    obtain ⟨hnew, heq⟩ := Option.ite_none_left_eq_some.1 h
    cases heq
    have hg := grows_createOffer (fun hmem => hnew (List.contains_iff_mem.2 hmem)) now
    exact hi.sameTasks hg (hi.indices.grows hg fun r hr => ⟨r, hr, .inl rfl⟩) rfl rfl
  | deleteExpiredSentOffers now intervalS =>
    cases h
    have hg := grows_deleteExpiredSentOffers s now intervalS
    exact hi.sameTasks hg (hi.indices.grows hg fun r hr => ⟨r, hr, .inl rfl⟩) rfl rfl
  | settle paymentHash =>
    obtain ⟨-, heq⟩ := Option.ite_none_left_eq_some.1 h
    cases heq
    have hg := grows_settle s paymentHash
    exact hi.sameTasks hg (hi.indices.grows hg fun r hr => ⟨r, hr, .inl rfl⟩) rfl rfl
  | advance i now =>
    obtain ⟨task, hget, h⟩ := Option.bind_eq_some_iff.1 h
    obtain ⟨⟨task', db⟩, hadvance, heq⟩ := Option.map_eq_some_iff.1 h
    cases heq
    -- a task that is not stopped is the current one
    have hopens : task.stopped = false → task.phase = .subscribing 0 → s.NoneLost := by
      intro hstopped hphase
      refine hzero ⟨i, now, task, rfl, ?_, hget, hstopped, hphase⟩
      by_contra hne
      have hstop := hi.others i task hget hne
      rw [hstopped] at hstop
      cases hstop
    exact hi.setTask hget (advanced hi.indices (hi.tasks task (List.mem_of_getElem? hget)) hopens hadvance)
  | fail i =>
    obtain ⟨task, hget, h⟩ := Option.bind_eq_some_iff.1 h
    obtain ⟨failed, hfail, heq⟩ := Option.map_eq_some_iff.1 h
    cases heq
    obtain ⟨-, rfl⟩ := PaymentProcessorTask.fail_cases hfail
    have hsound := hi.tasks task (List.mem_of_getElem? hget)
    have hretrying : s.Sound { task with phase := .retrying } := ⟨hsound.1, trivial⟩
    exact hi.setTask hget ⟨.refl s, hi.indices, hretrying, id⟩
  | stop =>
    cases h
    exact hi.setCurrent fun task _ hsound => ⟨hsound.flags rfl (fun _ => rfl) (fun _ => rfl) id, fun _ => rfl⟩
  | cancel =>
    obtain ⟨hstopped, heq⟩ := Option.ite_none_right_eq_some.1 h
    cases heq
    refine hi.setCurrent fun task hcur hsound => ?_
    have hstop : task.stopped = true := by
      rw [hcur] at hstopped
      exact hstopped
    exact ⟨hsound.flags rfl (fun _ => hstop) id fun _ => rfl, fun _ => hstop⟩
  | start =>
    obtain ⟨hstopped, heq⟩ := Option.ite_none_right_eq_some.1 h
    cases heq
    refine hi.start fun task hcur => ?_
    rw [hcur] at hstopped
    exact hstopped
  | clear =>
    cases h
    have hg := grows_clear s
    refine hi.sameTasks hg (hi.indices.grows hg fun r hr => ?_) rfl rfl
    obtain ⟨r₀, hr₀, rfl⟩ := mem_updateWhere.1 hr
    exact ⟨r₀, hr₀, .inr rfl⟩
  | kill =>
    cases h
    have hg := Grows.ofTasks s [] none
    exact ⟨hi.indices.grows hg fun r hr => ⟨r, hr, .inl rfl⟩, fun task htask => (by cases htask),
      fun i task hget => (by cases hget)⟩

theorem Fresh.inv {s : ProcessorState} (h : s.Fresh) : s.Inv := by
  refine ⟨fun r hr => ?_, fun task htask => ?_, fun i task hget => ?_⟩
  · rw [h.receivedPayments] at hr
    cases hr
  · rw [h.tasks] at htask
    cases htask
  · rw [h.tasks] at hget
    cases hget

/-- A task that is not stopped has recorded all that it has consumed. -/
theorem Inv.noneLost {s : ProcessorState} (hi : s.Inv) (hc : s.Consumed) : s.NoneLost := by
  obtain ⟨task, next, hcur, hstopped, hphase, hnext⟩ := hc
  obtain ⟨i, -, hget⟩ := Option.bind_eq_some_iff.1 hcur
  obtain ⟨hcancelled, hsound⟩ := hi.tasks task (List.mem_of_getElem? hget)
  have hupto : s.UpTo next := by
    rcases hphase with hphase | hphase
    · rw [hphase] at hsound
      refine hsound.resolve_left fun hstop => ?_
      rw [hstopped] at hstop
      cases hstop
    · rw [hphase] at hsound
      refine hsound.resolve_left fun hcancel => ?_
      have hstop := hcancelled hcancel
      rw [hstopped] at hstop
      cases hstop
  have heq : next = s.settled.length := Nat.le_antisymm hupto.le hnext
  exact noneLost_iff.2 (heq ▸ hupto)

/-- A subscription with the index 0 has nothing to deliver when it is opened. -/
theorem OpensAtZero.consumed {s s' : ProcessorState} {a : Action} (ho : s.OpensAtZero a)
    (h : ProcessorState.step a s = some s') : s'.Consumed ∧ s'.db = s.db ∧ s'.settled = s.settled := by
  obtain ⟨i, now, task, rfl, hcur, hget, hstopped, hphase⟩ := ho
  let task' : PaymentProcessorTask := { task with phase := .subscribed s.settled.length, cancelled := false }
  have hadvance : task.advance now s.settled s.db = some (task', s.db) := by
    unfold PaymentProcessorTask.advance
    rw [hphase]
    rfl
  have hstep : ProcessorState.step (.advance i now) s = some (s.setTask i task') := by
    show (s.tasks[i]?).bind _ = _
    rw [hget, Option.bind_some, hadvance]
    rfl
  rw [hstep] at h
  cases h
  refine ⟨⟨task', s.settled.length, ?_, hstopped, .inl rfl, Nat.le_refl _⟩, rfl, rfl⟩
  show s.currentTask.bind (fun j => (s.tasks.set i _)[j]?) = _
  rw [hcur, Option.bind_some, List.getElem?_set_self (List.getElem?_eq_some_iff.1 hget).1]

end ProcessorState

/-! ## No payment is lost, and when -/

open ProcessorState in
/-- In every run of a node, whatever it interleaves: whenever the current task has handled all that its
subscription delivers, the payments of all settled invoices of sent offers are recorded, if and only if
the current task opens a subscription with the settle index 0 only while they are. -/
theorem no_payment_lost_iff {s₀ s : ProcessorState} {history : List (ProcessorState × Action)}
    (hr : Machine.Run ProcessorState.step s₀ history s) (hfresh : s₀.Fresh) :
    (∀ t ∈ Machine.states history s, t.Consumed → t.NoneLost) ↔
      ∀ x ∈ history, x.1.OpensAtZero x.2 → x.1.NoneLost := by
  constructor
  · rintro hnone ⟨t, a⟩ hx hopens
    obtain ⟨t', ht', hstep⟩ := hr.after hx
    obtain ⟨hconsumed, hdb, hsettled⟩ := hopens.consumed hstep
    have hlost := hnone t' ht' hconsumed
    unfold NoneLost at hlost ⊢
    rwa [hdb, hsettled] at hlost
  · intro hzero t ht hconsumed
    have hinv := hr.invariant (C := fun t a => t.OpensAtZero a → t.NoneLost) (fun t a t' hi hc => hi.step hc)
      hfresh.inv hzero
    exact (hinv t ht).noneLost hconsumed

namespace Sample

/-- A node before its first sale. -/
def newNode : ProcessorState := ⟨Db.empty, [], [], none⟩

theorem fresh_newNode : newNode.Fresh := ⟨rfl, rfl, rfl, rfl⟩

/-- The offer of the sample seller, and one with another payment hash. -/
def firstOffer : SentOffer := parseSentOffer Squeaknode.Sample.sentOfferRow

/-- Another offer, with a payment hash of its own. -/
def secondOffer : SentOffer := { firstOffer with paymentHash := 0 :: Squeaknode.Sample.scalarToBytes 8 }

/-- A task subscribes, and the first sale is settled and recorded. -/
def firstSale : List Action :=
  [.start, .advance 0 1, .advance 0 1, .advance 0 1, .advance 0 1, .createOffer 1 firstOffer,
    .settle firstOffer.paymentHash, .advance 0 2, .advance 0 2, .advance 0 2, .advance 0 2]

/-- The second sale is settled while the subscription is down; the next one starts after the first sale. -/
def saleWhileDown : List Action :=
  [.createOffer 3 secondOffer, .fail 0, .settle secondOffer.paymentHash, .advance 0 4, .advance 0 4, .advance 0 4,
    .advance 0 4, .advance 0 4, .advance 0 4, .advance 0 4, .advance 0 4, .advance 0 4]

/-- As before, but the received payments are reprocessed before the subscription is up again. -/
def reprocessedWhileDown : List Action :=
  [.createOffer 3 secondOffer, .fail 0, .settle secondOffer.paymentHash, .clear, .stop, .cancel, .start,
    .advance 1 4, .advance 1 4, .advance 1 4, .advance 1 4]

end Sample

/-- A sale that is settled while the subscription is down is recorded. -/
theorem no_payment_lost_sample : ∃ (history : List (ProcessorState × Action)) (s : ProcessorState),
    Machine.Run ProcessorState.step Sample.newNode history s ∧ s.db.receivedPayments.rows.length = 2 ∧
    ((∀ t ∈ Machine.states history s, t.Consumed → t.NoneLost) ↔
      ∀ x ∈ history, x.1.OpensAtZero x.2 → x.1.NoneLost) := by
  have hexec : (Machine.exec ProcessorState.step (Sample.firstSale ++ Sample.saleWhileDown) Sample.newNode).map
      (fun r => r.2.db.receivedPayments.rows.length) = some 2 := by decide +kernel
  obtain ⟨⟨history, s⟩, hrun, hlength⟩ := Option.map_eq_some_iff.1 hexec
  have hr := Machine.run_exec hrun
  exact ⟨history, s, hr, hlength, no_payment_lost_iff hr Sample.fresh_newNode⟩

/-- After a reprocessing the subscription starts at 0, and the sale is lost. -/
theorem payment_lost : ∃ (history : List (ProcessorState × Action)) (s : ProcessorState),
    Machine.Run ProcessorState.step Sample.newNode history s ∧ s.Consumed ∧ ¬ s.NoneLost := by
  have hexec : (Machine.exec ProcessorState.step (Sample.firstSale ++ Sample.reprocessedWhileDown) Sample.newNode).map
      (fun r => (r.2.current, r.2.settled, r.2.db.sentOffers.rows.map SentOfferRow.paymentHash,
        r.2.db.receivedPayments.rows.map ReceivedPaymentRow.paymentHash)) =
      some (some ⟨.streaming 2, false, false⟩, [Sample.firstOffer.paymentHash, Sample.secondOffer.paymentHash],
        [Sample.firstOffer.paymentHash, Sample.secondOffer.paymentHash], [Sample.firstOffer.paymentHash]) := by
    decide +kernel
  obtain ⟨⟨history, s⟩, hrun, hstate⟩ := Option.map_eq_some_iff.1 hexec
  obtain ⟨hcurrent, hsettled, hoffers, hpayments⟩ : s.current = _ ∧ s.settled = _ ∧
      s.db.sentOffers.rows.map SentOfferRow.paymentHash = _ ∧
      s.db.receivedPayments.rows.map ReceivedPaymentRow.paymentHash = _ := by
    simpa only [Prod.mk.injEq] using hstate
  refine ⟨history, s, Machine.run_exec hrun, ⟨_, 2, hcurrent, rfl, .inr rfl, ?_⟩, fun hnone => ?_⟩
  · rw [hsettled]
    exact Nat.le_refl 2
  · have hmem : Sample.secondOffer.paymentHash ∈ s.db.sentOffers.rows.map SentOfferRow.paymentHash := by
      rw [hoffers]
      decide
    obtain ⟨r, hr, hhash⟩ := hnone Sample.secondOffer.paymentHash (by rw [hsettled]; decide) (List.mem_map.1 hmem)
    have hin : r.paymentHash ∈ s.db.receivedPayments.rows.map ReceivedPaymentRow.paymentHash := List.mem_map_of_mem hr
    rw [hpayments, hhash] at hin
    revert hin
    decide

end PaymentProcessor

end Squeaknode
