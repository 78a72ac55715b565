/-
The sent offers of the received payments, when the process dies and is started again. The row of a
payment is also what tells where the next subscription starts, so that a payment that was saved is not
delivered again: if the process dies between the two statements that handle it, its sent offer stays
unpaid.

In every run, a sent offer whose payment is saved is paid once no thread is between the two statements, if
and only if the process never dies there with the offer unpaid (`saved_payments_paid`).
-/
import Squeaknode.Node.InvoiceSubscription

namespace Squeaknode

open Interleave Relational SqueakDb

namespace PaymentProcessor

/-! ## Between the two statements -/

/-- Every sent offer with the payment hash of a received payment is paid. -/
def SavedArePaid (db : Db) : Prop := ∀ h, RecordedHash h db → MarkedPaid h db

/-- The thread is between the two statements of `handle_received_payment` for this payment hash. -/
def PaymentProcessorTask.Marks (paymentHash : Bytes) (task : PaymentProcessorTask) : Prop :=
  ∃ next receivedPayment, task.phase = .markingPaid next receivedPayment ∧ receivedPayment.paymentHash = paymentHash

namespace ProcessorState

/-- Some thread is between the two statements for this payment hash. -/
def Marking (paymentHash : Bytes) (s : ProcessorState) : Prop := ∃ task ∈ s.tasks, task.Marks paymentHash

/-- Some thread is between the two statements. -/
def Between (s : ProcessorState) : Prop := ∃ paymentHash, s.Marking paymentHash

/-- The process dies while a thread is between the two statements and a sent offer is still to be paid. -/
def DiesBetween (s : ProcessorState) (a : Action) : Prop :=
  a = .kill ∧ ∃ paymentHash, s.Marking paymentHash ∧ ¬ MarkedPaid paymentHash s.db

/-- The threads of the tasks other than the current one have ended. -/
def OthersEnded (s : ProcessorState) : Prop :=
  ∀ i task, s.tasks[i]? = some task → s.currentTask ≠ some i → task.phase = .ended

/-- A task that waits for its stream is not between the two statements. -/
theorem Consumed.not_between {s : ProcessorState} (hc : s.Consumed) (ho : s.OthersEnded) : ¬ s.Between := by
  rintro ⟨h, task, htask, next, p, hphase, -⟩
  obtain ⟨i, hget⟩ := List.getElem?_of_mem htask
  by_cases hcur : s.currentTask = some i
  · obtain ⟨current, n, hcurrent, -, hwaits, -⟩ := hc
    have hsame : current = task := Option.some.inj (hcurrent.symm.trans ((current_eq hcur).trans hget))
    rcases hwaits with hwaits | hwaits <;> rw [hsame, hphase] at hwaits <;> cases hwaits
  · have hended := ho i task hget hcur
    rw [hphase] at hended
    cases hended

/-! ## The invariants -/

/-- What a task handles was settled, and what it is about to mark is saved. -/
def Handles (s : ProcessorState) (task : PaymentProcessorTask) : Prop :=
  match task.phase with
  | .inserting _ p => p.paymentHash ∈ s.settled
  | .markingPaid _ p => p.paymentHash ∈ s.settled ∧ RecordedHash p.paymentHash s.db
  | _ => True

/-- Only payments that were settled are handled and saved. -/
structure OnlySettled (s : ProcessorState) : Prop where
  recorded : ∀ h, RecordedHash h s.db → h ∈ s.settled
  tasks : ∀ task ∈ s.tasks, s.Handles task

/-- The sent offers of the saved payments are paid, or a thread is about to mark them. -/
def PaidOrMarking (s : ProcessorState) : Prop := ∀ h, RecordedHash h s.db → MarkedPaid h s.db ∨ s.Marking h

theorem Handles.marks {s : ProcessorState} {task : PaymentProcessorTask} (hs : s.Handles task) {h : Bytes}
    (hm : task.Marks h) : h ∈ s.settled ∧ RecordedHash h s.db := by
  obtain ⟨next, p, hphase, rfl⟩ := hm
  unfold Handles at hs
  rw [hphase] at hs
  exact hs

/-- A task that handles nothing. -/
theorem Handles.of_idle {s : ProcessorState} {task : PaymentProcessorTask}
    (hinsert : ∀ next p, task.phase ≠ .inserting next p) (hmark : ∀ next p, task.phase ≠ .markingPaid next p) :
    s.Handles task := by
  unfold Handles
  split
  · exact absurd ‹_› (hinsert _ _)
  · exact absurd ‹_› (hmark _ _)
  · trivial

theorem Handles.mono {s s' : ProcessorState} {task : PaymentProcessorTask} (hs : s.Handles task)
    (hsettled : ∀ h ∈ s.settled, h ∈ s'.settled) (hrecorded : ∀ h, RecordedHash h s.db → RecordedHash h s'.db) :
    s'.Handles task := by
  unfold Handles at hs ⊢
  split
  · rename_i hphase
    rw [hphase] at hs
    exact hsettled _ hs
  · rename_i hphase
    rw [hphase] at hs
    exact ⟨hsettled _ hs.1, hrecorded _ hs.2⟩
  · trivial

/-! ## The statements on the database -/

/-- No payment is saved or lost, and the sent offers of what was settled that are there are no less paid. -/
structure SamePayments (s s' : ProcessorState) : Prop where
  tasks : s'.tasks = s.tasks
  settled : ∀ h ∈ s.settled, h ∈ s'.settled
  recorded : ∀ h, RecordedHash h s'.db ↔ RecordedHash h s.db
  marked : ∀ h ∈ s.settled, MarkedPaid h s.db → MarkedPaid h s'.db

theorem OnlySettled.same {s s' : ProcessorState} (hi : s.OnlySettled) (hs : SamePayments s s') : s'.OnlySettled where
  recorded h hr := hs.settled h (hi.recorded h ((hs.recorded h).1 hr))
  tasks task htask := by
    rw [hs.tasks] at htask
    exact (hi.tasks task htask).mono hs.settled fun h => (hs.recorded h).2

theorem PaidOrMarking.same {s s' : ProcessorState} (hp : s.PaidOrMarking) (hi : s.OnlySettled)
    (hs : SamePayments s s') :
    s'.PaidOrMarking := by
  intro h hr
  have hr := (hs.recorded h).1 hr
  rcases hp h hr with hpaid | hmarking
  · exact .inl (hs.marked h (hi.recorded h hr) hpaid)
  · right
    unfold Marking
    rw [hs.tasks]
    exact hmarking

theorem same_createOffer {s : ProcessorState} {o : SentOffer} (hnew : o.paymentHash ∉ s.settled) (now : Int) :
    SamePayments s { s with db := (insertSentOffer now o s.db).2 } := by
  refine ⟨rfl, fun _ h => h, fun _ => Iff.rfl, fun h hsettled hpaid r hr heq => ?_⟩
  rcases Table.mem_insert (show r ∈ (s.db.sentOffers.insert _ _).2.rows from hr) with hr | ⟨id, rfl⟩
  · exact hpaid r hr heq
  · have hhash : o.paymentHash = h := heq
    rw [hhash] at hnew
    exact absurd hsettled hnew

theorem same_deleteExpiredSentOffers (s : ProcessorState) (now intervalS : Int) :
    SamePayments s { s with db := (SqueakDb.deleteExpiredSentOffers now intervalS s.db).2 } :=
  ⟨rfl, fun _ h => h, fun _ => Iff.rfl, fun _ _ hpaid o ho => hpaid o (mem_deleteWhere.1 ho).1⟩

theorem same_settle (s : ProcessorState) (h : Bytes) : SamePayments s { s with settled := s.settled ++ [h] } :=
  ⟨rfl, fun _ h => List.mem_append_left _ h, fun _ => Iff.rfl, fun _ _ hpaid => hpaid⟩

theorem same_clear (s : ProcessorState) : SamePayments s { s with db := clearReceivedPaymentSettleIndices s.db } := by
  refine ⟨rfl, fun _ h => h, fun h => ⟨?_, ((keepsRecords_clear s.db) h).1⟩, fun _ _ hpaid => hpaid⟩
  rintro ⟨r, hr, heq⟩
  obtain ⟨r₀, hr₀, rfl⟩ := mem_updateWhere.1 hr
  exact ⟨r₀, hr₀, heq⟩

/-! ## The steps of a task -/

/-- A task that becomes `task'` while the database becomes `db`: what is newly saved is then to be marked,
and what was to be marked is marked. -/
structure Handled (s : ProcessorState) (task task' : PaymentProcessorTask) (db : Db) : Prop where
  keeps : KeepsRecords s.db db
  saved : ∀ h, RecordedHash h db → RecordedHash h s.db ∨ task'.Marks h
  marked : ∀ h, task.Marks h → MarkedPaid h db ∨ task'.Marks h
  handles : Handles { s with db := db } task'

/-- A step from and to where a task is not between the two statements. -/
theorem Handled.idle {s : ProcessorState} {task task' : PaymentProcessorTask}
    (htask : ∀ next p, task.phase ≠ .markingPaid next p) (hinsert : ∀ next p, task'.phase ≠ .inserting next p)
    (hmark : ∀ next p, task'.phase ≠ .markingPaid next p) : s.Handled task task' s.db where
  keeps _ := ⟨id, id⟩
  saved _ hr := .inl hr
  marked _ := fun ⟨next, p, hphase, _⟩ => absurd hphase (htask next p)
  handles := .of_idle hinsert hmark

/-- A change of the task that leaves it where it is. -/
theorem Handled.of_phase {s : ProcessorState} {task task' : PaymentProcessorTask} (hs : s.Handles task)
    (hphase : task'.phase = task.phase) : s.Handled task task' s.db where
  keeps _ := ⟨id, id⟩
  saved _ hr := .inl hr
  marked h := fun ⟨next, p, hp, heq⟩ => .inr ⟨next, p, hphase.trans hp, heq⟩
  handles := by
    unfold Handles at hs ⊢
    rw [hphase]
    exact hs

theorem handled_advance {s : ProcessorState} {task task' : PaymentProcessorTask} {db : Db} {now : Int}
    (hs : s.Handles task) (h : task.advance now s.settled s.db = some (task', db)) : s.Handled task task' db := by
  unfold PaymentProcessorTask.advance at h
  rcases hphase : task.phase with _ | _ | index | next | next | next | ⟨next, p⟩ | ⟨next, p⟩ | _ | _ <;>
    simp only [hphase] at h
  case checkingStopped =>
    cases h
    refine .idle (by simp [hphase]) ?_ ?_ <;> intro next p <;> dsimp only <;> split <;> simp
  case readingIndex =>
    cases h
    exact .idle (by simp [hphase]) (by simp) (by simp)
  case subscribing =>
    cases h
    exact .idle (by simp [hphase]) (by simp) (by simp)
  case subscribed =>
    cases h
    exact .idle (by simp [hphase]) (by simp) (by simp)
  case streaming =>
    split at h
    · cases h
      exact .idle (by simp [hphase]) (by simp) (by simp)
    · obtain ⟨-, heq⟩ := Option.ite_none_right_eq_some.1 h
      cases heq
      exact .idle (by simp [hphase]) (by simp) (by simp)
  case lookingUp =>
    obtain ⟨paymentHash, hget, h⟩ := Option.map_eq_some_iff.1 h
    rcases hoffer : getSentOfferByPaymentHash paymentHash s.db with _ | o
    · simp only [hoffer] at h
      cases h
      exact .idle (by simp [hphase]) (by simp) (by simp)
    · simp only [hoffer] at h
      cases h
      obtain ⟨r, hr, rfl⟩ := Option.map_eq_some_iff.1 hoffer
      have hhash : r.paymentHash = paymentHash := (findBy_some hr).2
      refine ⟨fun _ => ⟨id, id⟩, fun _ hrec => .inl hrec, fun _ => ?_, ?_⟩
      · rintro ⟨n, p, hp, -⟩
        rw [hphase] at hp
        cases hp
      · show r.paymentHash ∈ s.settled
        rw [hhash]
        exact List.mem_of_getElem? hget
  case inserting =>
    cases h
    have hsettled : p.paymentHash ∈ s.settled := by
      unfold Handles at hs
      rwa [hphase] at hs
    -- the payment that is new is the one that this thread marks next
    refine ⟨keepsRecords_insertReceivedPayment now p s.db, fun h hrec => ?_, fun _ => ?_,
      ⟨hsettled, recordedHash_insertReceivedPayment now p s.db⟩⟩
    · obtain ⟨r, hr, heq⟩ := hrec
      rcases Table.mem_insert (show r ∈ (s.db.receivedPayments.insert _ _).2.rows from hr) with hr | ⟨id, rfl⟩
      · exact .inl ⟨r, hr, heq⟩
      · exact .inr ⟨next, p, rfl, heq⟩
    · rintro ⟨n, q, hq, -⟩
      rw [hphase] at hq
      cases hq
  case markingPaid =>
    cases h
    refine ⟨keepsRecords_setSentOfferPaid p.paymentHash s.db, fun _ hrec => .inl hrec, fun h => ?_, trivial⟩
    rintro ⟨n, q, hq, rfl⟩
    rw [hphase] at hq
    cases hq
    exact .inl (markedPaid_setSentOfferPaid _ _)
  case retrying =>
    cases h
    exact .idle (by simp [hphase]) (by simp) (by simp)
  case ended => cases h

/-! ## The steps of the system -/

theorem OnlySettled.setTask {s : ProcessorState} {i : Nat} {task task' : PaymentProcessorTask} {db : Db}
    (hi : s.OnlySettled)
    (h : s.Handled task task' db) : OnlySettled { s with db := db, tasks := s.tasks.set i task' } := by
  constructor
  · intro hash hr
    rcases h.saved hash hr with hr | hm
    · exact hi.recorded hash hr
    · exact (h.handles.marks hm).1
  · intro t ht
    rcases List.mem_or_eq_of_mem_set ht with ht | rfl
    · exact (hi.tasks t ht).mono (fun _ h => h) fun hash => (h.keeps hash).1
    · exact h.handles.mono (fun _ h => h) fun _ hr => hr

theorem PaidOrMarking.setTask {s : ProcessorState} {i : Nat} {task task' : PaymentProcessorTask} {db : Db}
    (hp : s.PaidOrMarking) (hget : s.tasks[i]? = some task) (h : s.Handled task task' db) :
    PaidOrMarking { s with db := db, tasks := s.tasks.set i task' } := by
  intro hash hr
  have hmem : task' ∈ s.tasks.set i task' := List.mem_set (List.getElem?_eq_some_iff.1 hget).1 task'
  rcases h.saved hash hr with hr | hm
  · rcases hp hash hr with hpaid | ⟨t, ht, hm⟩
    · exact .inl ((h.keeps hash).2 hpaid)
    · obtain ⟨j, hj⟩ := List.getElem?_of_mem ht
      by_cases hij : i = j
      · subst hij
        rw [hget] at hj
        cases hj
        exact (h.marked hash hm).imp_right fun hm => ⟨task', hmem, hm⟩
      · have hkept : (s.tasks.set i task')[j]? = some t := by
          rw [List.getElem?_set_ne hij]
          exact hj
        exact .inr ⟨t, List.mem_of_getElem? hkept, hm⟩
  · exact .inr ⟨task', hmem, hm⟩

/-- Setting the flags of the current task changes nothing of what is handled. -/
theorem setCurrent_keeps {s : ProcessorState} (hi : s.OnlySettled) {f : PaymentProcessorTask → PaymentProcessorTask}
    (hf : ∀ task, (f task).phase = task.phase) :
    (s.setCurrent f).OnlySettled ∧ (s.PaidOrMarking → (s.setCurrent f).PaidOrMarking) := by
  unfold ProcessorState.setCurrent
  rcases hcur : s.currentTask with _ | i
  · exact ⟨hi, id⟩
  · rcases htask : s.current with _ | task
    · exact ⟨hi, id⟩
    · have hget : s.tasks[i]? = some task := (current_eq hcur).symm.trans htask
      have hhandled : s.Handled task (f task) s.db := .of_phase (hi.tasks task (List.mem_of_getElem? hget)) (hf task)
      exact ⟨hi.setTask hhandled, fun hp => hp.setTask hget hhandled⟩

/-- One action keeps what holds of the threads; it keeps the saved payments paid or to be marked, unless the
process dies between the two statements. -/
theorem OnlySettled.step {s s' : ProcessorState} {a : Action} (hi : s.OnlySettled)
    (h : ProcessorState.step a s = some s') :
    s'.OnlySettled ∧ (¬ s.DiesBetween a → s.PaidOrMarking → s'.PaidOrMarking) := by
  have hsame : SamePayments s s' → s'.OnlySettled ∧ (¬ s.DiesBetween a → s.PaidOrMarking → s'.PaidOrMarking) :=
    fun hs => ⟨hi.same hs, fun _ hp => hp.same hi hs⟩
  cases a with
  | createOffer now o =>
    obtain ⟨hnew, heq⟩ := Option.ite_none_left_eq_some.1 h
    cases heq
    exact hsame (same_createOffer (fun hmem => hnew (List.contains_iff_mem.2 hmem)) now)
  | deleteExpiredSentOffers now intervalS =>
    cases h
    exact hsame (same_deleteExpiredSentOffers s now intervalS)
  | settle paymentHash =>
    obtain ⟨-, heq⟩ := Option.ite_none_left_eq_some.1 h
    cases heq
    exact hsame (same_settle s paymentHash)
  | advance i now =>
    obtain ⟨task, hget, h⟩ := Option.bind_eq_some_iff.1 h
    obtain ⟨⟨task', db⟩, hadvance, heq⟩ := Option.map_eq_some_iff.1 h
    cases heq
    have hhandled := handled_advance (hi.tasks task (List.mem_of_getElem? hget)) hadvance
    exact ⟨hi.setTask hhandled, fun _ hp => hp.setTask hget hhandled⟩
  | fail i =>
    obtain ⟨task, hget, h⟩ := Option.bind_eq_some_iff.1 h
    obtain ⟨failed, hfail, heq⟩ := Option.map_eq_some_iff.1 h
    cases heq
    obtain ⟨⟨next, hphase⟩, rfl⟩ := PaymentProcessorTask.fail_cases hfail
    have hhandled : s.Handled task { task with phase := .retrying } s.db :=
      .idle (by simp [hphase]) (by simp) (by simp)
    exact ⟨hi.setTask hhandled, fun _ hp => hp.setTask hget hhandled⟩
  | stop =>
    cases h
    obtain ⟨hi', hp'⟩ := setCurrent_keeps hi (f := fun task => { task with stopped := true }) fun _ => rfl
    exact ⟨hi', fun _ => hp'⟩
  | cancel =>
    obtain ⟨-, heq⟩ := Option.ite_none_right_eq_some.1 h
    cases heq
    obtain ⟨hi', hp'⟩ := setCurrent_keeps hi (f := fun task => { task with cancelled := true }) fun _ => rfl
    exact ⟨hi', fun _ => hp'⟩
  | start =>
    obtain ⟨-, heq⟩ := Option.ite_none_right_eq_some.1 h
    cases heq
    refine ⟨⟨hi.recorded, fun task htask => ?_⟩, fun _ hp hash hr => (hp hash hr).imp_right ?_⟩
    · rcases List.mem_append.1 htask with htask | htask
      · exact hi.tasks task htask
      · rw [List.mem_singleton.1 htask]
        trivial
    · rintro ⟨task, htask, hm⟩
      exact ⟨task, List.mem_append_left _ htask, hm⟩
  | clear =>
    cases h
    exact hsame (same_clear s)
  | kill =>
    cases h
    refine ⟨⟨hi.recorded, fun task htask => (by cases htask)⟩, fun hdies hp hash hr => ?_⟩
    -- the tasks are gone, and with them what they were about to mark
    rcases hp hash hr with hpaid | hm
    · exact .inl hpaid
    · left
      by_contra hunpaid
      exact hdies ⟨rfl, hash, hm, hunpaid⟩

theorem Fresh.onlySettled {s : ProcessorState} (h : s.Fresh) : s.OnlySettled := by
  refine ⟨fun hash hr => ?_, fun task htask => ?_⟩
  · obtain ⟨r, hr, -⟩ := hr
    rw [h.receivedPayments] at hr
    cases hr
  · rw [h.tasks] at htask
    cases htask

theorem Fresh.paidOrMarking {s : ProcessorState} (h : s.Fresh) : s.PaidOrMarking := by
  rintro hash ⟨r, hr, -⟩
  rw [h.receivedPayments] at hr
  cases hr

/-- Right after the process died between the two statements, a payment is saved and its offer is unpaid. -/
theorem DiesBetween.unpaid {s s' : ProcessorState} {a : Action} (hd : s.DiesBetween a) (hi : s.OnlySettled)
    (h : ProcessorState.step a s = some s') : ¬ s'.Between ∧ ¬ SavedArePaid s'.db := by
  obtain ⟨rfl, hash, ⟨task, htask, hm⟩, hunpaid⟩ := hd
  cases h
  constructor
  · rintro ⟨_, t, ht, -⟩
    cases ht
  · exact fun hall => hunpaid (hall hash ((hi.tasks task htask).marks hm).2)

end ProcessorState

open ProcessorState in
/-- In every run of a node, with the process dying and starting again at any moment: the sent offers of the
saved payments are paid whenever no thread is between the two statements, if and only if the process never
dies there with the offer unpaid. In such a run they are paid whenever the current task has handled all that
its subscription delivers, next to tasks that have ended. -/
theorem saved_payments_paid {s₀ s : ProcessorState} {history : List (ProcessorState × Action)}
    (hr : Machine.Run ProcessorState.step s₀ history s) (hfresh : s₀.Fresh) :
    ((∀ t ∈ Machine.states history s, ¬ t.Between → SavedArePaid t.db) ↔ ∀ x ∈ history, ¬ x.1.DiesBetween x.2) ∧
    ((∀ x ∈ history, ¬ x.1.DiesBetween x.2) →
      ∀ t ∈ Machine.states history s, t.Consumed → t.OthersEnded → SavedArePaid t.db) := by
  have hsettled := hr.invariant (C := fun _ _ => True) (fun _ _ _ hi _ hstep => (hi.step hstep).1) hfresh.onlySettled
    fun _ _ => trivial
  have hpaid : (∀ x ∈ history, ¬ x.1.DiesBetween x.2) →
      ∀ t ∈ Machine.states history s, ¬ t.Between → SavedArePaid t.db := by
    intro hdies t ht hbetween h hrec
    have hinv := hr.invariant (I := fun t => t.OnlySettled ∧ t.PaidOrMarking) (C := fun t a => ¬ t.DiesBetween a)
      (fun _ _ _ hi hc hstep => ⟨(hi.1.step hstep).1, (hi.1.step hstep).2 hc hi.2⟩)
      ⟨hfresh.onlySettled, hfresh.paidOrMarking⟩ hdies t ht
    exact (hinv.2 h hrec).resolve_right fun hm => hbetween ⟨h, hm⟩
  refine ⟨⟨?_, hpaid⟩, fun hdies t ht hc ho => hpaid hdies t ht (hc.not_between ho)⟩
  rintro hall ⟨t, a⟩ hx hdies
  obtain ⟨t', ht', hstep⟩ := hr.after hx
  have hmem : t ∈ Machine.states history s := List.mem_append_left _ (List.mem_map_of_mem hx)
  obtain ⟨hbetween, hunpaid⟩ := hdies.unpaid (hsettled t hmem) hstep
  exact hunpaid (hall t' ht' hbetween)

namespace Sample

/-- A sale up to where its payment is saved. -/
def saleSaved : List Action :=
  [.start, .advance 0 1, .advance 0 1, .advance 0 1, .advance 0 1, .createOffer 1 firstOffer,
    .settle firstOffer.paymentHash, .advance 0 2, .advance 0 2, .advance 0 2]

/-- A process that is started subscribes and has nothing to handle. -/
def restarted : List Action := [.kill, .start, .advance 0 3, .advance 0 3, .advance 0 3, .advance 0 3]

/-- What tells whether all is consumed and whether the offers of the saved payments are paid. -/
structure Books where
  currentTask : Option Nat
  tasks : List PaymentProcessorTask
  settled : Nat
  saved : List Bytes
  offers : List (Bytes × Bool)
  deriving DecidableEq

/-- What the tasks and the tables of a state say. -/
def books (s : ProcessorState) : Books :=
  ⟨s.currentTask, s.tasks, s.settled.length, s.db.receivedPayments.rows.map ReceivedPaymentRow.paymentHash,
    s.db.sentOffers.rows.map fun o => (o.paymentHash, o.paid)⟩

end Sample

/-- The process dies once the offer is paid. -/
theorem saved_payments_paid_sample : ∃ (history : List (ProcessorState × Action)) (s : ProcessorState),
    Machine.Run ProcessorState.step Sample.newNode history s ∧
    history.map Prod.snd = Sample.saleSaved ++ [.advance 0 2] ++ Sample.restarted ∧
    Sample.books s = ⟨some 0, [⟨.streaming 1, false, false⟩], 1, [Sample.firstOffer.paymentHash],
      [(Sample.firstOffer.paymentHash, true)]⟩ ∧
    ((∀ t ∈ Machine.states history s, ¬ t.Between → SavedArePaid t.db) ↔ ∀ x ∈ history, ¬ x.1.DiesBetween x.2) ∧
    ((∀ x ∈ history, ¬ x.1.DiesBetween x.2) →
      ∀ t ∈ Machine.states history s, t.Consumed → t.OthersEnded → SavedArePaid t.db) := by
  have hexec : (Machine.exec ProcessorState.step (Sample.saleSaved ++ [.advance 0 2] ++ Sample.restarted)
    Sample.newNode).map
      (fun r => Sample.books r.2) = some ⟨some 0, [⟨.streaming 1, false, false⟩], 1, [Sample.firstOffer.paymentHash],
        [(Sample.firstOffer.paymentHash, true)]⟩ := by decide +kernel
  obtain ⟨⟨history, s⟩, hrun, hstate⟩ := Option.map_eq_some_iff.1 hexec
  have hr := Machine.run_exec hrun
  exact ⟨history, s, hr, Machine.actions_exec hrun, hstate, saved_payments_paid hr Sample.fresh_newNode⟩

/-- The process dies between the two statements: the payment is not delivered again, and its offer stays
unpaid. -/
theorem saved_payment_unpaid : ∃ (history : List (ProcessorState × Action)) (s : ProcessorState),
    Machine.Run ProcessorState.step Sample.newNode history s ∧ s.Consumed ∧ s.OthersEnded ∧ ¬ SavedArePaid s.db := by
  have hexec : (Machine.exec ProcessorState.step (Sample.saleSaved ++ Sample.restarted) Sample.newNode).map
      (fun r => Sample.books r.2) = some ⟨some 0, [⟨.streaming 1, false, false⟩], 1, [Sample.firstOffer.paymentHash],
        [(Sample.firstOffer.paymentHash, false)]⟩ := by decide +kernel
  obtain ⟨⟨history, s⟩, hrun, hstate⟩ := Option.map_eq_some_iff.1 hexec
  obtain ⟨hcurrent, htasks, hsettled, hpayments, hoffers⟩ := Sample.Books.mk.inj hstate
  refine ⟨history, s, Machine.run_exec hrun, ⟨⟨.streaming 1, false, false⟩, 1, ?_, rfl, .inr rfl, ?_⟩, ?_, ?_⟩
  · unfold ProcessorState.current
    rw [hcurrent, htasks]
    rfl
  · rw [hsettled]
  · intro i task hget hne
    rw [htasks] at hget
    rw [hcurrent] at hne
    rcases i with _ | i
    · exact absurd rfl hne
    · cases hget
  · intro hall
    have hsaved : Sample.firstOffer.paymentHash ∈ s.db.receivedPayments.rows.map ReceivedPaymentRow.paymentHash := by
      rw [hpayments]
      exact List.mem_singleton.2 rfl
    have hunpaid : (Sample.firstOffer.paymentHash, false) ∈ s.db.sentOffers.rows.map fun o =>
      (o.paymentHash, o.paid) := by
      rw [hoffers]
      exact List.mem_singleton.2 rfl
    obtain ⟨o, ho, heq⟩ := List.mem_map.1 hunpaid
    obtain ⟨hhash, hpaid⟩ := Prod.mk.inj heq
    have hmarked := hall Sample.firstOffer.paymentHash (List.mem_map.1 hsaved) o ho hhash
    rw [hpaid] at hmarked
    cases hmarked

end PaymentProcessor

end Squeaknode
