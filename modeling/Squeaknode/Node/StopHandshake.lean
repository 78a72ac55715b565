/-
How the payment processor stops a task: `stop_processing` sets the flag and then cancels the stream that it
reads in `payments_result`; the thread of the task writes its stream there and then reads the flag. There is
no lock between the two, but one around the calls of the processor. Here every read and write is a step of
its own, among any number of calls and any number of subscriptions that fail.

Once `stop_processing` has returned, whatever stream the task iterates over is cancelled; once the thread has
seen the flag it opens no other; and at most one task is not stopped (`stop_leaves_nothing_running`).
-/
import Squeaknode.Node.InvoiceSubscription

namespace Squeaknode

open Interleave SqueakDb

namespace StopHandshake

open PaymentProcessor (firstNotification receivedPaymentOf)

/-! ## The thread of a task -/

/-- Where the thread is in `process_subscribed_invoices`. The streams of a task are numbered in the order in
which it opened them, and `next` is the notification that the stream delivers next. -/
inductive ThreadPhase where
  /-- before `while not self.stopped.is_set()` -/
  | checkingStopped
  | readingIndex
  | subscribing (latestSettleIndex : Int)
  /-- before `self.payments_result = …` -/
  | assigning (stream next : Nat)
  /-- before `if self.stopped.is_set()` -/
  | checkingAgain (stream next : Nat)
  /-- before `self.payments_result.cancel_fn()` -/
  | cancelling (stream next : Nat)
  /-- before the next item of `self.payments_result.result_stream` -/
  | iterating (stream next : Nat)
  | lookingUp (stream next : Nat)
  | inserting (stream next : Nat) (receivedPayment : ReceivedPayment)
  | markingPaid (stream next : Nat) (receivedPayment : ReceivedPayment)
  | retrying
  | ended
  /-- an exception that the loop does not catch -/
  | died
  deriving DecidableEq

/-- `paymentsResult` is the stream that `payments_result` holds, and `streams` tells of each stream that the
task opened whether it is cancelled. -/
structure Task where
  phase : ThreadPhase
  stopped : Bool
  paymentsResult : Option Nat
  streams : List Bool
  deriving DecidableEq

namespace Task

/-- A task that was just made. -/
def new : Task := ⟨.checkingStopped, false, none, []⟩

/-- `cancel_fn` of a stream. -/
def cancelStream (k : Nat) (task : Task) : Task := { task with streams := task.streams.set k true }

/-- The next statement of the thread. In the loop `payments_result` is the stream that this thread has
assigned, as no other thread assigns it. A cancelled stream ends. -/
def advance (now : Int) (settled : List Bytes) (db : Db) (task : Task) : Option (Task × Db) :=
  match task.phase with
  | .checkingStopped => some ({ task with phase := if task.stopped then .ended else .readingIndex }, db)
  | .readingIndex => some ({ task with phase := .subscribing ((getLatestSettleIndex db).getD 0) }, db)
  | .subscribing index =>
    some ({ task with phase := .assigning task.streams.length (firstNotification settled index),
                      streams := task.streams ++ [false] }, db)
  | .assigning k next => some ({ task with phase := .checkingAgain k next, paymentsResult := some k }, db)
  | .checkingAgain k next =>
    some ({ task with phase := if task.stopped then .cancelling k next else .iterating k next }, db)
  | .cancelling k next => some (cancelStream k { task with phase := .iterating k next }, db)
  | .iterating k next =>
    if task.streams[k]? = some true then some ({ task with phase := .checkingStopped }, db)
    else if next < settled.length then some ({ task with phase := .lookingUp k next }, db)
    else none
  | .lookingUp k next => (settled[next]?).map fun paymentHash =>
    match getSentOfferByPaymentHash paymentHash db with
    | none => ({ task with phase := .iterating k (next + 1) }, db)
    | some sentOffer => ({ task with phase := .inserting k next (receivedPaymentOf sentOffer (next + 1)) }, db)
  | .inserting k next receivedPayment =>
    some ({ task with phase := .markingPaid k next receivedPayment }, (insertReceivedPayment now receivedPayment db).2)
  | .markingPaid k next receivedPayment =>
    some ({ task with phase := .iterating k (next + 1) }, setSentOfferPaid receivedPayment.paymentHash true db)
  | .retrying => some ({ task with phase := .checkingStopped }, db)
  | .ended => none
  | .died => none

/-- The stream raises `InvoiceSubscriptionError`. -/
def fail (task : Task) : Option Task :=
  match task.phase with
  | .iterating k _ => if task.streams[k]? = some true then none else some { task with phase := .retrying }
  | _ => none

/-- The database or the lightning node raises something else. -/
def die (task : Task) : Option Task :=
  match task.phase with
  | .readingIndex | .subscribing _ | .lookingUp _ _ | .inserting _ _ _ | .markingPaid _ _ _ =>
    some { task with phase := .died }
  | _ => none

end Task

/-! ## The calls of the processor -/

/-- The calls of the processor. -/
inductive Call where
  | startProcessing
  | stopProcessing
  | reprocessReceivedPayments

/-- Where a call is; `starts` tells `start_processing` from `stop_processing`, and `i` is the task that is
being stopped. -/
inductive CallerPhase where
  /-- before `clear_received_payment_settle_indices` -/
  | clearing
  /-- before `with self.lock` -/
  | acquiring (starts : Bool)
  /-- before `if self.current_task is not None` -/
  | locked (starts : Bool)
  /-- before `self.stopped.set()` -/
  | settingFlag (starts : Bool) (i : Nat)
  /-- before `if self.payments_result is not None` -/
  | testing (starts : Bool) (i : Nat)
  /-- before `self.payments_result` is read for its `cancel_fn` -/
  | reading (starts : Bool) (i : Nat)
  /-- before `cancel_fn()` of the stream `k` -/
  | cancelling (starts : Bool) (i k : Nat)
  /-- `stop_processing` of the task has returned -/
  | returned (starts : Bool) (i : Nat)
  /-- before `self.current_task = PaymentProcessorTask(…)` -/
  | creating
  | releasing
  | done
  deriving DecidableEq

/-- Where a call begins. -/
def Call.entry : Call → CallerPhase
  | .startProcessing => .acquiring true
  | .stopProcessing => .acquiring false
  | .reprocessReceivedPayments => .clearing

/-- The database, the settled payment hashes, the processor with its lock and its tasks, and the calls. -/
structure HandshakeState where
  db : Db
  settled : List Bytes
  tasks : List Task
  currentTask : Option Nat
  lock : Option Nat
  callers : List CallerPhase

/-- The next step of a task, a call or anything else. -/
inductive Action where
  | createOffer (now : Int) (sentOffer : SentOffer)
  | deleteExpiredSentOffers (now intervalS : Int)
  | settle (paymentHash : Bytes)
  | call (c : Call)
  /-- the next step of a call -/
  | caller (j : Nat)
  /-- the next step of the thread of a task -/
  | thread (i : Nat) (now : Int)
  | fail (i : Nat)
  | die (i : Nat)

namespace HandshakeState

/-- A processor without tasks. -/
def start (db : Db) (settled : List Bytes) : HandshakeState := ⟨db, settled, [], none, none, []⟩

/-- Call `j` is now in `phase`. -/
def setCaller (j : Nat) (phase : CallerPhase) (s : HandshakeState) : HandshakeState :=
  { s with callers := s.callers.set j phase }

/-- Task `i` is now `task`. -/
def setTask (i : Nat) (task : Task) (s : HandshakeState) : HandshakeState := { s with tasks := s.tasks.set i task }

/-- The next step of the call `j`. A new task is created, assigned and started in one step: no other call
comes in between, and its thread may take its first step any time later. -/
def callerStep (j : Nat) (phase : CallerPhase) (s : HandshakeState) : Option HandshakeState :=
  match phase with
  | .clearing => some (setCaller j (.acquiring true) { s with db := clearReceivedPaymentSettleIndices s.db })
  | .acquiring starts => if s.lock = none then some (setCaller j (.locked starts) { s with lock := some j }) else none
  | .locked starts => match s.currentTask with
    | some i => some (s.setCaller j (.settingFlag starts i))
    | none => some (s.setCaller j (if starts then .creating else .releasing))
  | .settingFlag starts i => (s.tasks[i]?).map fun task =>
    (s.setTask i { task with stopped := true }).setCaller j (.testing starts i)
  | .testing starts i => (s.tasks[i]?).map fun task =>
    s.setCaller j (if task.paymentsResult.isSome then .reading starts i else .returned starts i)
  | .reading starts i => (s.tasks[i]?).bind fun task => task.paymentsResult.map fun k =>
    s.setCaller j (.cancelling starts i k)
  | .cancelling starts i k => (s.tasks[i]?).map fun task =>
    (s.setTask i (task.cancelStream k)).setCaller j (.returned starts i)
  | .returned starts _ => some (s.setCaller j (if starts then .creating else .releasing))
  | .creating =>
    some (setCaller j .releasing { s with tasks := s.tasks ++ [.new], currentTask := some s.tasks.length })
  | .releasing => some (setCaller j .done { s with lock := none })
  | .done => none

/-- What an action does, if it can happen. -/
def step : Action → HandshakeState → Option HandshakeState
  | .createOffer now sentOffer, s =>
    if s.settled.contains sentOffer.paymentHash then none
    else some { s with db := (insertSentOffer now sentOffer s.db).2 }
  | .deleteExpiredSentOffers now intervalS, s =>
    some { s with db := (SqueakDb.deleteExpiredSentOffers now intervalS s.db).2 }
  | .settle paymentHash, s =>
    if s.settled.contains paymentHash then none else some { s with settled := s.settled ++ [paymentHash] }
  | .call c, s => some { s with callers := s.callers ++ [c.entry] }
  | .caller j, s => (s.callers[j]?).bind fun phase => s.callerStep j phase
  | .thread i now, s => (s.tasks[i]?).bind fun task => (task.advance now s.settled s.db).map fun advanced =>
    { s with db := advanced.2, tasks := s.tasks.set i advanced.1 }
  | .fail i, s => (s.tasks[i]?).bind fun task => task.fail.map fun failed => s.setTask i failed
  | .die i, s => (s.tasks[i]?).bind fun task => task.die.map fun dead => s.setTask i dead

end HandshakeState

/-! ## Threads, their streams and the flag -/

/-- The stream that the thread iterates over, also while it handles what the stream has delivered. -/
def ThreadPhase.uses : ThreadPhase → Option Nat
  | .iterating k _ | .lookingUp k _ | .inserting k _ _ | .markingPaid k _ _ => some k
  | _ => none

/-- The thread is in an attempt to subscribe and has not checked the flag again. -/
def ThreadPhase.Attempting : ThreadPhase → Prop
  | .readingIndex | .subscribing _ | .assigning _ _ | .checkingAgain _ _ => True
  | _ => False

/-- The thread is about to read the flag. -/
def ThreadPhase.Checks : ThreadPhase → Prop
  | .checkingStopped | .checkingAgain _ _ => True
  | _ => False

namespace HandshakeState

/-- Every stream of the task that is iterated over is cancelled. -/
def OnlyCancelled (i : Nat) (s : HandshakeState) : Prop :=
  ∀ (task : Task) (k : Nat), s.tasks[i]? = some task → task.phase.uses = some k → task.streams[k]? = some true

/-- The task has opened `n` streams and is not in an attempt to open another. -/
def OpensNoOther (i n : Nat) (s : HandshakeState) : Prop :=
  ∃ task, s.tasks[i]? = some task ∧ ¬ task.phase.Attempting ∧ task.streams.length = n

/-- At most one task is not stopped. -/
def OneRunning (s : HandshakeState) : Prop :=
  ∀ (i i' : Nat) (task task' : Task), s.tasks[i]? = some task → s.tasks[i']? = some task' → task.stopped = false →
    task'.stopped = false → i = i'

end HandshakeState

/-! ## What a task may become -/

namespace Task

/-- The streams that the task refers to are its own: the one of the loop is in `payments_result`, and one
that is yet to be assigned is newer and not cancelled. -/
structure WF (task : Task) : Prop where
  result : ∀ k, task.paymentsResult = some k → k < task.streams.length
  assigning : ∀ k next, task.phase = .assigning k next →
    task.streams[k]? = some false ∧ ∀ r, task.paymentsResult = some r → r < k
  assigned : ∀ k next, task.phase = .checkingAgain k next ∨ task.phase = .cancelling k next → task.paymentsResult = some k
  uses : ∀ k, task.phase.uses = some k → task.paymentsResult = some k

/-- The task is stopped, and the stream it iterates over is cancelled or the one that is about to be. -/
structure DoomedBut (e : Option Nat) (task : Task) : Prop where
  stopped : task.stopped = true
  cancelled : ∀ k, task.phase.uses = some k → task.streams[k]? = some true ∨ e = some k

/-- The thread has seen the flag. -/
structure Leaving (task : Task) : Prop where
  stopped : task.stopped = true
  attempting : ¬ task.phase.Attempting

/-- What a step of any thread or call may do to a task. -/
structure Evolves (task task' : Task) : Prop where
  wf : task'.WF
  stopped : task.stopped = true → task'.stopped = true
  result : ∀ r, task.paymentsResult = some r → ∃ r', task'.paymentsResult = some r' ∧ r ≤ r'
  doomed : ∀ e, task.DoomedBut e → task'.DoomedBut e
  leaving : task.Leaving → task'.Leaving ∧ task'.streams.length = task.streams.length

theorem Evolves.refl {task : Task} (h : task.WF) : Evolves task task :=
  ⟨h, id, fun r hr => ⟨r, hr, Nat.le_refl r⟩, fun _ hd => hd, fun hl => ⟨hl, rfl⟩⟩

theorem Evolves.trans {task task' task'' : Task} (h : Evolves task task') (h' : Evolves task' task'') :
    Evolves task task'' where
  wf := h'.wf
  stopped hs := h'.stopped (h.stopped hs)
  result r hr := by
    obtain ⟨r', hr', hle⟩ := h.result r hr
    obtain ⟨r'', hr'', hle'⟩ := h'.result r' hr'
    exact ⟨r'', hr'', hle.trans hle'⟩
  doomed e hd := h'.doomed e (h.doomed e hd)
  leaving hl := by
    obtain ⟨hl', hlength⟩ := h.leaving hl
    obtain ⟨hl'', hlength'⟩ := h'.leaving hl'
    exact ⟨hl'', hlength'.trans hlength⟩

theorem WF.new : new.WF :=
  ⟨by simp [Task.new], by simp [Task.new], by simp [Task.new], by simp [Task.new, ThreadPhase.uses]⟩

/-- A thread that moves to where it uses no stream and refers to none. -/
theorem WF.idle {task : Task} (h : task.WF) {phase : ThreadPhase} (huses : phase.uses = none)
    (hassigning : ∀ k next, phase ≠ .assigning k next)
    (hassigned : ∀ k next, phase = .checkingAgain k next ∨ phase = .cancelling k next → task.paymentsResult = some k)
    (hleaving : task.Leaving → ¬ phase.Attempting) : Evolves task { task with phase := phase } where
  wf :=
    ⟨h.result, fun k next hp => absurd hp (hassigning k next), hassigned, fun k hk => (by rw [huses] at hk; cases hk)⟩
  stopped := id
  result r hr := ⟨r, hr, Nat.le_refl r⟩
  doomed _ hd := ⟨hd.stopped, fun k hk => (by rw [huses] at hk; cases hk)⟩
  leaving hl := ⟨⟨hl.stopped, hleaving hl⟩, rfl⟩

/-- A thread that goes on to use the stream in `payments_result`, unless it is stopped and did not use it. -/
theorem WF.use {task : Task} (h : task.WF) {phase : ThreadPhase} {k : Nat} (huses : phase.uses = some k)
    (hassigned : task.paymentsResult = some k) (hstopped : task.stopped = true → task.phase.uses = some k) :
    Evolves task { task with phase := phase } := by
  cases phase <;> cases huses
  all_goals
    refine ⟨⟨h.result, fun _ _ hp => (by cases hp), ?_, ?_⟩, id, fun r hr => ⟨r, hr, Nat.le_refl r⟩,
      fun e hd => ⟨hd.stopped, ?_⟩,
      fun hl => ⟨⟨hl.stopped, id⟩, rfl⟩⟩
    · rintro k' next (hp | hp) <;> cases hp
    · intro k' hk'
      cases hk'
      exact hassigned
    · intro k' hk'
      cases hk'
      exact hd.cancelled k (hstopped hd.stopped)

/-- Assigning the stream that was opened last. -/
theorem WF.assign {task : Task} (h : task.WF) {k next : Nat} (hphase : task.phase = .assigning k next) :
    Evolves task { task with phase := .checkingAgain k next, paymentsResult := some k } := by
  obtain ⟨hget, holder⟩ := h.assigning k next hphase
  refine ⟨⟨?_, ?_, ?_, ?_⟩, id, ?_, fun _ hd => ⟨hd.stopped, fun k hk => (by cases hk)⟩, fun hl => ?_⟩
  · intro r hr
    cases hr
    exact (List.getElem?_eq_some_iff.1 hget).1
  · exact fun _ _ hp => (by cases hp)
  · rintro k' next' (hp | hp) <;> cases hp
    rfl
  · exact fun _ hk => (by cases hk)
  · exact fun r hr => ⟨k, rfl, (holder r hr).le⟩
  · refine absurd ?_ hl.attempting
    rw [hphase]
    trivial

/-- Opening a stream. -/
theorem WF.open {task : Task} (h : task.WF) {index : Int} (hphase : task.phase = .subscribing index) (next : Nat) :
    Evolves task { task with phase := .assigning task.streams.length next, streams := task.streams ++ [false] } := by
  refine ⟨⟨?_, ?_, ?_, ?_⟩, id, ?_, fun _ hd => ⟨hd.stopped, fun k hk => (by cases hk)⟩, fun hl => ?_⟩
  · intro r hr
    rw [List.length_append]
    exact Nat.lt_add_right _ (h.result r hr)
  · intro k next' hp
    cases hp
    exact ⟨List.getElem?_concat_length, h.result⟩
  · rintro k next' (hp | hp) <;> cases hp
  · exact fun _ hk => (by cases hk)
  · exact fun r hr => ⟨r, hr, Nat.le_refl r⟩
  · refine absurd ?_ hl.attempting
    rw [hphase]
    trivial

/-- Cancelling a stream that was assigned. -/
theorem WF.cancelStream {task : Task} (h : task.WF) {r k : Nat} (hr : task.paymentsResult = some r) (hk : k ≤ r) :
    Evolves task (task.cancelStream k) := by
  have hkept : ∀ k' : Nat, task.streams[k']? = some true → (task.streams.set k true)[k']? = some true := by
    intro k' hk'
    rw [List.getElem?_set]
    split
    · rename_i heq
      rw [heq, if_pos (List.getElem?_eq_some_iff.1 hk').1]
    · exact hk'
  refine ⟨⟨?_, ?_, h.assigned, h.uses⟩, id, fun r hr => ⟨r, hr, Nat.le_refl r⟩, ?_,
    fun hl => ⟨⟨hl.stopped, hl.attempting⟩, ?_⟩⟩
  · intro r hr
    show r < (task.streams.set k true).length
    rw [List.length_set]
    exact h.result r hr
  · intro k' next hp
    obtain ⟨hget, holder⟩ := h.assigning k' next hp
    refine ⟨?_, holder⟩
    show (task.streams.set k true)[k']? = some false
    rw [List.getElem?_set_ne (by have := holder r hr; omega)]
    exact hget
  · exact fun e hd => ⟨hd.stopped, fun k' hk' => (hd.cancelled k' hk').imp_left (hkept k')⟩
  · exact List.length_set

/-- Once the stream that was read is cancelled, only cancelled streams are used. -/
theorem DoomedBut.cancelStream {task : Task} {k : Nat} (h : task.DoomedBut (some k)) (hk : k < task.streams.length) :
    (task.cancelStream k).DoomedBut none := by
  refine ⟨h.stopped, fun k' hk' => .inl ?_⟩
  show (task.streams.set k true)[k']? = some true
  by_cases heq : k = k'
  · rw [← heq]
    exact List.getElem?_set_self hk
  · rw [List.getElem?_set_ne heq]
    exact (h.cancelled k' hk').resolve_right fun hsome => heq (Option.some.inj hsome)

/-- Where the thread goes from cancelling its own stream. -/
theorem WF.cancelOwn {task : Task} (h : task.WF) {k next : Nat} (hphase : task.phase = .cancelling k next) :
    Evolves task (Task.cancelStream k { task with phase := .iterating k next }) := by
  have hassigned := h.assigned k next (.inr hphase)
  have hown : (task.streams.set k true)[k]? = some true := List.getElem?_set_self (h.result k hassigned)
  refine ⟨⟨?_, ?_, ?_, ?_⟩, id, fun r hr => ⟨r, hr, Nat.le_refl r⟩, ?_, fun hl => ⟨⟨hl.stopped, id⟩, List.length_set⟩⟩
  · intro r hr
    show r < (task.streams.set k true).length
    rw [List.length_set]
    exact h.result r hr
  · exact fun _ _ hp => (by cases hp)
  · rintro k' next' (hp | hp) <;> cases hp
  · intro k' hk'
    cases hk'
    exact hassigned
  · refine fun e hd => ⟨hd.stopped, fun k' hk' => ?_⟩
    cases hk'
    exact .inl hown

theorem evolves_advance {task task' : Task} {now : Int} {settled : List Bytes} {db db' : Db} (h : task.WF)
    (ha : task.advance now settled db = some (task', db')) : Evolves task task' := by
  unfold Task.advance at ha
  rcases hphase : task.phase with _ | _ | index | ⟨k, next⟩ | ⟨k, next⟩ | ⟨k, next⟩ | ⟨k, next⟩ | ⟨k, next⟩ |
    ⟨k, next, p⟩ | ⟨k, next, p⟩ | _ | _ | _ <;> simp only [hphase] at ha
  case checkingStopped =>
    -- the flag is read before an attempt
    by_cases hstop : task.stopped = true
    · rw [if_pos hstop] at ha
      cases ha
      exact h.idle rfl (by simp) (by simp) fun _ => id
    · rw [if_neg hstop] at ha
      cases ha
      exact h.idle rfl (by simp) (by simp) fun hl => absurd hl.stopped hstop
  case readingIndex =>
    cases ha
    refine h.idle rfl (by simp) (by simp) fun hl => absurd ?_ hl.attempting
    rw [hphase]
    trivial
  case subscribing =>
    cases ha
    exact h.open hphase _
  case assigning =>
    cases ha
    exact h.assign hphase
  case checkingAgain =>
    -- and again once the stream is assigned
    have hassigned := h.assigned k next (.inl hphase)
    by_cases hstop : task.stopped = true
    · rw [if_pos hstop] at ha
      cases ha
      refine h.idle rfl (by simp) ?_ fun _ => id
      rintro k' next' (hp | hp) <;> cases hp
      exact hassigned
    · rw [if_neg hstop] at ha
      cases ha
      exact h.use rfl hassigned fun hstopped => absurd hstopped hstop
  case cancelling =>
    cases ha
    exact h.cancelOwn hphase
  case iterating =>
    have huses : task.phase.uses = some k := by rw [hphase]; rfl
    split at ha
    · cases ha
      exact h.idle rfl (by simp) (by simp) fun _ => id
    · obtain ⟨-, heq⟩ := Option.ite_none_right_eq_some.1 ha
      cases heq
      exact h.use rfl (h.uses k huses) fun _ => huses
  case lookingUp =>
    have huses : task.phase.uses = some k := by rw [hphase]; rfl
    obtain ⟨paymentHash, -, heq⟩ := Option.map_eq_some_iff.1 ha
    split at heq <;> cases heq
    all_goals exact h.use rfl (h.uses k huses) fun _ => huses
  case inserting =>
    have huses : task.phase.uses = some k := by rw [hphase]; rfl
    cases ha
    exact h.use rfl (h.uses k huses) fun _ => huses
  case markingPaid =>
    have huses : task.phase.uses = some k := by rw [hphase]; rfl
    cases ha
    exact h.use rfl (h.uses k huses) fun _ => huses
  case retrying =>
    cases ha
    exact h.idle rfl (by simp) (by simp) fun _ => id
  case ended => cases ha
  case died => cases ha

theorem evolves_fail {task task' : Task} (h : task.WF) (hf : task.fail = some task') : Evolves task task' := by
  unfold Task.fail at hf
  split at hf
  · obtain ⟨-, heq⟩ := Option.ite_none_left_eq_some.1 hf
    cases heq
    exact h.idle rfl (by simp) (by simp) fun _ => id
  · cases hf

theorem evolves_die {task task' : Task} (h : task.WF) (hd : task.die = some task') : Evolves task task' := by
  have hdied : Evolves task { task with phase := .died } := h.idle rfl (by simp) (by simp) fun _ => id
  unfold Task.die at hd
  split at hd <;> cases hd <;> exact hdied

/-- Setting the flag. -/
theorem WF.stop {task : Task} (h : task.WF) : Evolves task { task with stopped := true } :=
  ⟨⟨h.result, h.assigning, h.assigned, h.uses⟩, fun _ => rfl, fun r hr => ⟨r, hr, Nat.le_refl r⟩,
    fun _ hd => ⟨rfl, hd.cancelled⟩, fun hl => ⟨⟨rfl, hl.attempting⟩, rfl⟩⟩

end Task

/-! ## The invariant -/

/-- A call without the lock. -/
def CallerPhase.Outside : CallerPhase → Prop
  | .clearing | .acquiring _ | .done => True
  | _ => False

/-- What the call `j` relies on. It has the lock from when it acquires it; the task that it stops is the current
one, stopped once the flag is set, and uses no stream but cancelled ones and the one that was read. -/
def CallerPhase.Facts (s : HandshakeState) (j : Nat) : CallerPhase → Prop
  | .clearing | .acquiring _ | .done => True
  | .locked _ | .releasing => s.lock = some j
  | .settingFlag _ i => s.lock = some j ∧ s.currentTask = some i
  | .testing _ i => s.lock = some j ∧ s.currentTask = some i ∧ ∃ task, s.tasks[i]? = some task ∧ task.stopped = true
  | .reading _ i => s.lock = some j ∧ s.currentTask = some i ∧
    ∃ task r, s.tasks[i]? = some task ∧ task.stopped = true ∧ task.paymentsResult = some r
  | .cancelling _ i k => s.lock = some j ∧ s.currentTask = some i ∧
    ∃ task r, s.tasks[i]? = some task ∧ task.DoomedBut (some k) ∧ task.paymentsResult = some r ∧ k ≤ r
  | .returned _ i => s.lock = some j ∧ s.currentTask = some i ∧ ∃ task, s.tasks[i]? = some task ∧ task.DoomedBut none
  | .creating => s.lock = some j ∧ ∀ i, s.currentTask = some i → ∃ task, s.tasks[i]? = some task ∧ task.stopped = true

namespace HandshakeState

/-- The invariant: every task is well formed, all but the current one are stopped, and the facts of each call hold
where it is. -/
structure Inv (s : HandshakeState) : Prop where
  tasks : ∀ task ∈ s.tasks, task.WF
  current : ∀ i, s.currentTask = some i → i < s.tasks.length
  others : ∀ (i : Nat) (task : Task), s.tasks[i]? = some task → s.currentTask ≠ some i → task.stopped = true
  callers : ∀ (j : Nat) (phase : CallerPhase), s.callers[j]? = some phase → phase.Facts s j

/-- Every task is still there, as it may have become. -/
def Evolve (s s' : HandshakeState) : Prop :=
  ∀ (i : Nat) (task : Task), s.tasks[i]? = some task → ∃ task', s'.tasks[i]? = some task' ∧ task.Evolves task'

theorem Inv.wf {s : HandshakeState} (hi : s.Inv) {i : Nat} {task : Task} (hget : s.tasks[i]? = some task) : task.WF :=
  hi.tasks task (List.mem_of_getElem? hget)

theorem Inv.evolve_same {s s' : HandshakeState} (hi : s.Inv) (h : s'.tasks = s.tasks) : Evolve s s' := by
  show Machine.Evolved Task.Evolves s.tasks s'.tasks
  rw [h]
  exact .refl fun t ht => .refl (hi.tasks t ht)

theorem Inv.evolve_setTask {s s' : HandshakeState} (hi : s.Inv) {i : Nat} {task task' : Task}
    (hget : s.tasks[i]? = some task)
    (he : task.Evolves task') (h : s'.tasks = s.tasks.set i task') : Evolve s s' := by
  have hset : Machine.Evolved Task.Evolves s.tasks (s.tasks.set i task') :=
    .set (fun t ht => .refl (hi.tasks t ht)) hget he
  rwa [← h] at hset

end HandshakeState

open HandshakeState

theorem CallerPhase.Facts.evolve {s s' : HandshakeState} {j : Nat} {phase : CallerPhase} (h : phase.Facts s j)
    (hlock : s'.lock = s.lock) (hcurrent : s'.currentTask = s.currentTask) (he : Evolve s s') : phase.Facts s' j := by
  cases phase with
  | clearing => trivial
  | acquiring starts => trivial
  | done => trivial
  | locked starts => exact hlock.trans h
  | releasing => exact hlock.trans h
  | settingFlag starts i => exact ⟨hlock.trans h.1, hcurrent.trans h.2⟩
  | testing starts i =>
    obtain ⟨hj, hi, task, hget, hstopped⟩ := h
    obtain ⟨task', hget', hev⟩ := he i task hget
    exact ⟨hlock.trans hj, hcurrent.trans hi, task', hget', hev.stopped hstopped⟩
  | reading starts i =>
    obtain ⟨hj, hi, task, r, hget, hstopped, hr⟩ := h
    obtain ⟨task', hget', hev⟩ := he i task hget
    obtain ⟨r', hr', -⟩ := hev.result r hr
    exact ⟨hlock.trans hj, hcurrent.trans hi, task', r', hget', hev.stopped hstopped, hr'⟩
  | cancelling starts i k =>
    obtain ⟨hj, hi, task, r, hget, hdoomed, hr, hk⟩ := h
    obtain ⟨task', hget', hev⟩ := he i task hget
    obtain ⟨r', hr', hle⟩ := hev.result r hr
    exact ⟨hlock.trans hj, hcurrent.trans hi, task', r', hget', hev.doomed _ hdoomed, hr', hk.trans hle⟩
  | returned starts i =>
    obtain ⟨hj, hi, task, hget, hdoomed⟩ := h
    obtain ⟨task', hget', hev⟩ := he i task hget
    exact ⟨hlock.trans hj, hcurrent.trans hi, task', hget', hev.doomed _ hdoomed⟩
  | creating =>
    refine ⟨hlock.trans h.1, fun i hi => ?_⟩
    obtain ⟨task, hget, hstopped⟩ := h.2 i (hcurrent.symm.trans hi)
    obtain ⟨task', hget', hev⟩ := he i task hget
    exact ⟨task', hget', hev.stopped hstopped⟩

theorem CallerPhase.Facts.outside {s : HandshakeState} {j : Nat} {phase : CallerPhase} (h : phase.Outside) :
    phase.Facts s j := by
  cases phase <;> trivial

/-- A call that is not outside has the lock. -/
theorem CallerPhase.Facts.holds {s : HandshakeState} {j : Nat} {phase : CallerPhase} (h : phase.Facts s j)
    (hout : ¬ phase.Outside) : s.lock = some j := by
  cases phase with
  | clearing => exact absurd trivial hout
  | acquiring starts => exact absurd trivial hout
  | done => exact absurd trivial hout
  | locked starts => exact h
  | releasing => exact h
  | _ => exact h.1

namespace HandshakeState

/-! ## The steps of the threads -/

theorem wf_set {tasks : List Task} (h : ∀ task ∈ tasks, task.WF) {i : Nat} {task' : Task} (h' : task'.WF) :
    ∀ task ∈ tasks.set i task', task.WF := by
  intro t ht
  rcases List.mem_or_eq_of_mem_set ht with ht | rfl
  · exact h t ht
  · exact h'

theorem others_set {s : HandshakeState} (hi : s.Inv) {i : Nat} {task task' : Task} (hget : s.tasks[i]? = some task)
    (he : task.Evolves task') (i' : Nat) (t : Task) (ht : (s.tasks.set i task')[i']? = some t)
    (hne : s.currentTask ≠ some i') : t.stopped = true := by
  rcases Machine.getElem?_set_cases ht with ⟨rfl, rfl⟩ | ⟨-, ht⟩
  · exact he.stopped (hi.others _ task hget hne)
  · exact hi.others i' t ht hne

/-- A step of the thread of a task. -/
theorem Inv.thread {s : HandshakeState} (hi : s.Inv) {i : Nat} {task task' : Task} (hget : s.tasks[i]? = some task)
    (he : task.Evolves task') (db : Db) :
    Inv { s with db := db, tasks := s.tasks.set i task' } ∧
      Evolve s { s with db := db, tasks := s.tasks.set i task' } := by
  have hev : Evolve s { s with db := db, tasks := s.tasks.set i task' } := hi.evolve_setTask hget he rfl
  refine ⟨⟨wf_set hi.tasks he.wf, fun i' hcur => ?_, others_set hi hget he, fun j phase hj => ?_⟩, hev⟩
  · show i' < (s.tasks.set i task').length
    rw [List.length_set]
    exact hi.current i' hcur
  · exact (hi.callers j phase hj).evolve rfl rfl hev

/-- A step that changes neither the tasks nor the calls. -/
theorem Inv.same {s : HandshakeState} (hi : s.Inv) (db : Db) (settled : List Bytes) :
    Inv { s with db := db, settled := settled } ∧ Evolve s { s with db := db, settled := settled } := by
  have hev : Evolve s { s with db := db, settled := settled } := hi.evolve_same rfl
  exact ⟨⟨hi.tasks, hi.current, hi.others, fun j phase hj => (hi.callers j phase hj).evolve rfl rfl hev⟩, hev⟩

/-! ## The steps of the calls -/

/-- The step of a call that takes, holds or has the lock: the other calls are outside. -/
theorem Inv.move {s s' : HandshakeState} (hi : s.Inv) {j : Nat} {phase' : CallerPhase}
    (hlock : s.lock = none ∨ s.lock = some j) (hcallers : s'.callers = s.callers.set j phase')
    (hfacts : phase'.Facts s' j) (htasks : ∀ task ∈ s'.tasks, task.WF)
    (hcurrent : ∀ i, s'.currentTask = some i → i < s'.tasks.length)
    (hothers : ∀ (i : Nat) (task : Task), s'.tasks[i]? = some task → s'.currentTask ≠ some i → task.stopped = true) :
    s'.Inv := by
  refine ⟨htasks, hcurrent, hothers, fun j' p hj' => ?_⟩
  rw [hcallers] at hj'
  exact Machine.facts_set hi.callers (fun _ _ h => h.holds) (fun _ _ => .outside) hlock hfacts j' p hj'

theorem evolve_creating {s s' : HandshakeState} (hi : s.Inv) {task : Task} (h : s'.tasks = s.tasks ++ [task]) :
    Evolve s s' := by
  have hadd : Machine.Evolved Task.Evolves s.tasks (s.tasks ++ [task]) := .concat (fun t ht => .refl (hi.tasks t ht)) task
  rwa [← h] at hadd

/-- A call that has the lock changes the task that it stops. -/
theorem Inv.callerSets {s : HandshakeState} (hi : s.Inv) {j i : Nat} {phase' : CallerPhase} {task task' : Task}
    (hlock : s.lock = some j) (hget : s.tasks[i]? = some task)
    (he : task.Evolves task') (hfacts : phase'.Facts ((s.setTask i task').setCaller j phase') j) :
    ((s.setTask i task').setCaller j phase').Inv ∧ Evolve s ((s.setTask i task').setCaller j phase') := by
  refine ⟨hi.move (.inr hlock) rfl hfacts (wf_set hi.tasks he.wf) (fun i' hcur => ?_) (others_set hi hget he),
    hi.evolve_setTask hget he rfl⟩
  show i' < (s.tasks.set i task').length
  rw [List.length_set]
  exact hi.current i' hcur

theorem Inv.callerStep {s s' : HandshakeState} {j : Nat} {phase : CallerPhase} (hi : s.Inv)
    (hj : s.callers[j]? = some phase)
    (h : s.callerStep j phase = some s') : s'.Inv ∧ Evolve s s' := by
  have hfacts := hi.callers j phase hj
  cases phase with
  | clearing =>
    cases h
    have hev : Evolve s (setCaller j (.acquiring true) { s with db := clearReceivedPaymentSettleIndices s.db }) :=
      hi.evolve_same rfl
    refine ⟨⟨hi.tasks, hi.current, hi.others, fun j' p hj' => ?_⟩, hev⟩
    rcases Machine.getElem?_set_cases hj' with ⟨rfl, rfl⟩ | ⟨-, hj'⟩
    · trivial
    · exact (hi.callers j' p hj').evolve rfl rfl hev
  | acquiring starts =>
    obtain ⟨hlock, heq⟩ := Option.ite_none_right_eq_some.1 h
    cases heq
    exact ⟨hi.move (.inl hlock) rfl rfl hi.tasks hi.current hi.others, hi.evolve_same rfl⟩
  | locked starts =>
    have hlock : s.lock = some j := hfacts
    rcases hcur : s.currentTask with _ | i <;> simp only [HandshakeState.callerStep, hcur] at h <;> cases h
    · refine ⟨hi.move (.inr hlock) rfl ?_ hi.tasks hi.current hi.others, hi.evolve_same rfl⟩
      split
      · refine ⟨hlock, fun i hi' => ?_⟩
        cases hcur.symm.trans hi'
      · exact hlock
    · exact ⟨hi.move (.inr hlock) rfl ⟨hlock, hcur⟩ hi.tasks hi.current hi.others, hi.evolve_same rfl⟩
  | settingFlag starts i =>
    obtain ⟨hlock, hcur⟩ := hfacts
    obtain ⟨task, hget, heq⟩ := Option.map_eq_some_iff.1 h
    cases heq
    have hlt := (List.getElem?_eq_some_iff.1 hget).1
    exact hi.callerSets hlock hget (hi.wf hget).stop ⟨hlock, hcur, _, List.getElem?_set_self hlt, rfl⟩
  | testing starts i =>
    obtain ⟨hlock, hcur, task, hget, hstopped⟩ := hfacts
    simp only [HandshakeState.callerStep, hget, Option.map_some] at h
    cases h
    refine ⟨hi.move (.inr hlock) rfl ?_ hi.tasks hi.current hi.others, hi.evolve_same rfl⟩
    rcases hresult : task.paymentsResult with _ | r
    · -- nothing was assigned, so that the thread is in no loop yet
      refine ⟨hlock, hcur, task, hget, hstopped, fun k hk => ?_⟩
      have hassigned := (hi.wf hget).uses k hk
      rw [hresult] at hassigned
      cases hassigned
    · exact ⟨hlock, hcur, task, r, hget, hstopped, hresult⟩
  | reading starts i =>
    obtain ⟨hlock, hcur, task, r, hget, hstopped, hresult⟩ := hfacts
    simp only [HandshakeState.callerStep, hget, Option.bind_some, hresult, Option.map_some] at h
    cases h
    refine ⟨hi.move (.inr hlock) rfl ⟨hlock, hcur, task, r, hget, ⟨hstopped, fun k hk => ?_⟩, hresult, Nat.le_refl r⟩
      hi.tasks hi.current hi.others, hi.evolve_same rfl⟩
    -- the stream of the loop is the one that was read
    exact .inr (hresult.symm.trans ((hi.wf hget).uses k hk))
  | cancelling starts i k =>
    obtain ⟨hlock, hcur, task, r, hget, hdoomed, hresult, hk⟩ := hfacts
    simp only [HandshakeState.callerStep, hget, Option.map_some] at h
    cases h
    have hlt := (List.getElem?_eq_some_iff.1 hget).1
    -- the stream that was read was the last one that could still be used
    have hdoomed' := hdoomed.cancelStream (Nat.lt_of_le_of_lt hk ((hi.wf hget).result r hresult))
    exact hi.callerSets hlock hget ((hi.wf hget).cancelStream hresult hk)
      ⟨hlock, hcur, _, List.getElem?_set_self hlt, hdoomed'⟩
  | returned starts i =>
    obtain ⟨hlock, hcur, task, hget, hdoomed⟩ := hfacts
    cases h
    refine ⟨hi.move (.inr hlock) rfl ?_ hi.tasks hi.current hi.others, hi.evolve_same rfl⟩
    split
    · refine ⟨hlock, fun i' hi' => ?_⟩
      cases hcur.symm.trans hi'
      exact ⟨task, hget, hdoomed.stopped⟩
    · exact hlock
  | creating =>
    obtain ⟨hlock, hstopped⟩ := hfacts
    cases h
    refine ⟨hi.move (.inr hlock) rfl hlock ?_ ?_ ?_, evolve_creating hi rfl⟩
    · intro task htask
      rcases List.mem_append.1 htask with htask | htask
      · exact hi.tasks task htask
      · rw [List.mem_singleton.1 htask]
        exact .new
    · intro i hcur
      cases hcur
      show s.tasks.length < (s.tasks ++ [Task.new]).length
      rw [List.length_append]
      exact Nat.lt_succ_self _
    · intro i task hget hne
      change (s.tasks ++ [Task.new])[i]? = some task at hget
      rcases Machine.getElem?_concat_cases hget with ⟨rfl, -⟩ | ⟨-, hget⟩
      · exact absurd rfl hne
      · by_cases hcur : s.currentTask = some i
        · obtain ⟨task', hget', hstop⟩ := hstopped i hcur
          rw [hget] at hget'
          cases hget'
          exact hstop
        · exact hi.others i task hget hcur
  | releasing =>
    have hlock : s.lock = some j := hfacts
    cases h
    exact ⟨hi.move (.inr hlock) rfl trivial hi.tasks hi.current hi.others, hi.evolve_same rfl⟩
  | done => cases h

/-- Every step keeps the invariant, and does to a task only what its thread and its calls may do. -/
theorem Inv.step {s s' : HandshakeState} {a : Action} (hi : s.Inv) (h : step a s = some s') : s'.Inv ∧ Evolve s s' := by
  cases a with
  | createOffer now o =>
    obtain ⟨-, heq⟩ := Option.ite_none_left_eq_some.1 h
    cases heq
    exact hi.same _ s.settled
  | deleteExpiredSentOffers now intervalS =>
    cases h
    exact hi.same _ s.settled
  | settle paymentHash =>
    obtain ⟨-, heq⟩ := Option.ite_none_left_eq_some.1 h
    cases heq
    exact hi.same s.db _
  | call c =>
    cases h
    have hev : Evolve s { s with callers := s.callers ++ [c.entry] } := hi.evolve_same rfl
    refine ⟨⟨hi.tasks, hi.current, hi.others, fun j phase hj => ?_⟩, hev⟩
    change (s.callers ++ [c.entry])[j]? = some phase at hj
    rcases Machine.getElem?_concat_cases hj with ⟨-, rfl⟩ | ⟨-, hj⟩
    · refine .outside ?_
      cases c <;> trivial
    · exact (hi.callers j phase hj).evolve rfl rfl hev
  | caller j =>
    obtain ⟨phase, hj, hcaller⟩ := Option.bind_eq_some_iff.1 h
    exact hi.callerStep hj hcaller
  | thread i now =>
    obtain ⟨task, hget, h⟩ := Option.bind_eq_some_iff.1 h
    obtain ⟨⟨task', db⟩, hadvance, heq⟩ := Option.map_eq_some_iff.1 h
    cases heq
    exact hi.thread hget (Task.evolves_advance (hi.wf hget) hadvance) db
  | fail i =>
    obtain ⟨task, hget, h⟩ := Option.bind_eq_some_iff.1 h
    obtain ⟨task', hfail, heq⟩ := Option.map_eq_some_iff.1 h
    cases heq
    exact hi.thread hget (Task.evolves_fail (hi.wf hget) hfail) s.db
  | die i =>
    obtain ⟨task, hget, h⟩ := Option.bind_eq_some_iff.1 h
    obtain ⟨task', hdie, heq⟩ := Option.map_eq_some_iff.1 h
    cases heq
    exact hi.thread hget (Task.evolves_die (hi.wf hget) hdie) s.db

theorem inv_start (db : Db) (settled : List Bytes) : (start db settled).Inv :=
  ⟨fun task htask => (by cases htask), fun i hi => (by cases hi), fun i task hget => (by cases hget),
    fun j phase hj => (by cases hj)⟩

/-! ## Runs -/

/-- A run keeps the invariant, and does to a task only what its thread and its calls may do. -/
theorem Inv.run {t s : HandshakeState} {later : List (HandshakeState × Action)} (ht : t.Inv)
    (hr : Machine.Run HandshakeState.step t later s) : s.Inv ∧ Evolve t s := by
  refine hr.preserves (C := fun _ _ => True) (ht.evolve_same rfl) (fun _ _ h h' => ?_) (fun _ _ _ hi _ ha => hi.step ha)
    ht fun _ _ => trivial
  exact Machine.Evolved.trans (fun _ _ _ => Task.Evolves.trans) h h'

/-- A task that is not stopped is the current one. -/
theorem Inv.oneRunning {s : HandshakeState} (hi : s.Inv) : s.OneRunning := by
  have hcurrent : ∀ (i : Nat) (task : Task), s.tasks[i]? = some task → task.stopped = false →
    s.currentTask = some i := by
    intro i task hget hstopped
    by_contra hne
    have hstop := hi.others i task hget hne
    rw [hstopped] at hstop
    cases hstop
  intro i i' task task' hget hget' hstopped hstopped'
  exact Option.some.inj ((hcurrent i task hget hstopped).symm.trans (hcurrent i' task' hget' hstopped'))

/-- Once `stop_processing` has returned, only cancelled streams are iterated over. -/
theorem Inv.onlyCancelled {t s : HandshakeState} {later : List (HandshakeState × Action)} (ht : t.Inv)
    (hr : Machine.Run HandshakeState.step t later s) {j i : Nat} {starts : Bool}
    (hreturned : t.callers[j]? = some (.returned starts i)) : s.OnlyCancelled i := by
  obtain ⟨-, -, task, hget, hdoomed⟩ := ht.callers j _ hreturned
  obtain ⟨task', hget', he⟩ := (ht.run hr).2 i task hget
  intro task'' k hget'' huses
  rw [hget'] at hget''
  cases hget''
  exact ((he.doomed none hdoomed).cancelled k huses).resolve_right fun heq => (by cases heq)

/-- The thread that reads the flag when it is set leaves. -/
theorem leaving_of_checks {task task' : Task} {now : Int} {settled : List Bytes} {db db' : Db}
    (hchecks : task.phase.Checks)
    (hstopped : task.stopped = true) (ha : task.advance now settled db = some (task', db')) :
    task'.Leaving ∧ task'.streams.length = task.streams.length := by
  unfold Task.advance at ha
  rcases hphase : task.phase with _ | _ | index | ⟨k, next⟩ | ⟨k, next⟩ | ⟨k, next⟩ | ⟨k, next⟩ | ⟨k, next⟩ |
    ⟨k, next, p⟩ | ⟨k, next, p⟩ | _ | _ | _ <;> rw [hphase] at hchecks
  case checkingStopped =>
    simp only [hphase, if_pos hstopped] at ha
    cases ha
    exact ⟨⟨hstopped, id⟩, rfl⟩
  case checkingAgain =>
    simp only [hphase, if_pos hstopped] at ha
    cases ha
    exact ⟨⟨hstopped, id⟩, rfl⟩
  all_goals exact hchecks.elim

/-- Once the thread has seen the flag, it opens no other stream. -/
theorem Inv.opensNoOther {t s : HandshakeState} {rest : List (HandshakeState × Action)} (ht : t.Inv)
    {i : Nat} {now : Int}
    (hr : Machine.Run HandshakeState.step t ((t, .thread i now) :: rest) s) {task : Task}
    (hget : t.tasks[i]? = some task)
    (hchecks : task.phase.Checks) (hstopped : task.stopped = true) : s.OpensNoOther i task.streams.length := by
  have hfirst : (t, Action.thread i now) :: rest = [] ++ (t, Action.thread i now) :: rest := rfl
  obtain ⟨-, t', hstep, hrest⟩ := hr.rest hfirst
  have ht' := (ht.step hstep).1
  obtain ⟨task₀, hget₀, h⟩ := Option.bind_eq_some_iff.1 hstep
  obtain ⟨⟨task', db⟩, hadvance, heq⟩ := Option.map_eq_some_iff.1 h
  rw [hget] at hget₀
  cases hget₀
  cases heq
  obtain ⟨hleaving, hlength⟩ := leaving_of_checks hchecks hstopped hadvance
  have hlt := (List.getElem?_eq_some_iff.1 hget).1
  obtain ⟨task'', hget'', he⟩ := (ht'.run hrest).2 i task' (List.getElem?_set_self hlt)
  obtain ⟨hleaving', hlength'⟩ := he.leaving hleaving
  exact ⟨task'', hget'', hleaving'.attempting, hlength'.trans hlength⟩

end HandshakeState

open HandshakeState in
/-- For any number of calls, attempts and failures, in any order of their steps: at most one task is not
stopped; once `stop_processing` of a task has returned, whatever stream the task iterates over is cancelled;
and once its thread has read the flag when it is set, it opens no other stream. -/
theorem stop_leaves_nothing_running {db : Db} {settled : List Bytes} {history later : List (HandshakeState × Action)}
    {t s : HandshakeState} (ht : Machine.Run HandshakeState.step (start db settled) history t)
    (hs : Machine.Run HandshakeState.step t later s) :
    t.OneRunning ∧
    (∀ (j : Nat) (starts : Bool) (i : Nat), t.callers[j]? = some (.returned starts i) → s.OnlyCancelled i) ∧
    (∀ (i : Nat) (now : Int) (rest : List (HandshakeState × Action)) (task : Task),
      later = (t, .thread i now) :: rest → t.tasks[i]? = some task → task.phase.Checks →
      task.stopped = true → s.OpensNoOther i task.streams.length) := by
  have hinv : t.Inv := ((inv_start db settled).run ht).1
  refine ⟨hinv.oneRunning, fun j starts i hreturned => hinv.onlyCancelled hs hreturned, ?_⟩
  rintro i now rest task rfl hget hchecks hstopped
  exact hinv.opensNoOther hs hget hchecks hstopped

namespace Sample

/-- A task is started and stopped while its thread has assigned a stream and not checked the flag again. -/
def stoppedInAttempt : List Action :=
  [.call .startProcessing, .caller 0, .caller 0, .caller 0, .caller 0, .thread 0 1, .thread 0 1, .thread 0 1, .thread 0 1,
    .call .stopProcessing, .caller 1, .caller 1, .caller 1, .caller 1, .caller 1, .caller 1]

/-- The turns that the thread takes after that. -/
def restOfThread : List Action := [.thread 0 2, .thread 0 2, .thread 0 2, .thread 0 2]

end Sample

theorem stop_leaves_nothing_running_sample : ∃ (history later : List (HandshakeState × Action)) (t s : HandshakeState),
    Machine.Run HandshakeState.step (.start Db.empty []) history t ∧ Machine.Run HandshakeState.step t later s ∧
    t.callers = [.done, .returned false 0] ∧ t.tasks = [⟨.checkingAgain 0 0, true, some 0, [true]⟩] ∧
    s.tasks = [⟨.ended, true, some 0, [true]⟩] ∧ t.OneRunning ∧ s.OnlyCancelled 0 ∧ s.OpensNoOther 0 1 := by
  have hexec : ((Machine.exec HandshakeState.step Sample.stoppedInAttempt (.start Db.empty [])).bind fun r =>
      (Machine.exec HandshakeState.step Sample.restOfThread r.2).map fun r' => (r.2.callers, r.2.tasks, r'.2.tasks)) =
      some ([.done, .returned false 0], [⟨.checkingAgain 0 0, true, some 0, [true]⟩],
        [⟨.ended, true, some 0, [true]⟩]) := by
    decide +kernel
  obtain ⟨⟨history, t⟩, ht, hrest⟩ := Option.bind_eq_some_iff.1 hexec
  obtain ⟨⟨later, s⟩, hs, hstate⟩ := Option.map_eq_some_iff.1 hrest
  obtain ⟨hcallers, htasks, htasks'⟩ : t.callers = _ ∧ t.tasks = _ ∧ s.tasks = _ := by
    simpa only [Prod.mk.injEq] using hstate
  have hrun := Machine.run_exec ht
  have hlater := Machine.run_exec hs
  obtain ⟨hone, hcancelled, hopens⟩ := stop_leaves_nothing_running hrun hlater
  obtain ⟨rest, hfirst⟩ : ∃ rest, later = (t, .thread 0 2) :: rest := by
    obtain ⟨s₁, -, hmap⟩ := Option.bind_eq_some_iff.1 hs
    obtain ⟨r, -, heq⟩ := Option.map_eq_some_iff.1 hmap
    exact ⟨r.1, (congrArg Prod.fst heq).symm⟩
  refine ⟨history, later, t, s, hrun, hlater, hcallers, htasks, htasks', hone, hcancelled 1 false 0 ?_, ?_⟩
  · rw [hcallers]
    rfl
  · exact hopens 0 2 rest ⟨.checkingAgain 0 0, true, some 0, [true]⟩ hfirst (by rw [htasks]; rfl) trivial rfl

end StopHandshake

end Squeaknode
