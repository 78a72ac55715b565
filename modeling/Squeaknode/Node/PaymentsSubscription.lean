/-
The subscription to the received payments: a thread polls the table, each time from the last payment that
it put in the queue, and a client takes the payments from the queue. The table grows meanwhile, a poll can
fail after any row, and the thread waits while the queue is full.

At every moment what was put in the queue is a prefix of the payments above the initial index, in order;
once the subscription is stopped, nothing but the end marker follows the poll in progress
(`subscription_gap_free`).
-/
import Squeaknode.Db.TimeQueries
import Squeaknode.Relational.Resume

namespace Squeaknode

open Interleave Relational

namespace SqueakDb

/-- A payment index is a Python integer, which need not be the key of a row. -/
def paymentIndexOf (r : ReceivedPaymentRow) : Int := r.receivedPaymentId

/-- The rows that `yield_received_payments_from_index` selects. -/
def receivedPaymentsFromIndex (startIndex : Int) (db : Db) : List ReceivedPaymentRow :=
  selectAfter paymentIndexOf startIndex db.receivedPayments.rows

def yieldReceivedPaymentsFromIndex (startIndex : Int) (db : Db) : List ReceivedPayment :=
  (receivedPaymentsFromIndex startIndex db).map parseReceivedPayment

end SqueakDb

open SqueakDb

namespace ReceivedPaymentsSubscriptionClient

/-! ## The thread, the queue and the client -/

/-- Where the thread is in `populate_queue`, with the rows that its open query still has to yield. -/
inductive Phase where
  /-- before `while not self.stopped.is_set()` -/
  | checkingStopped
  /-- before the query of the poll -/
  | opening
  | fetching (rest : List ReceivedPaymentRow)
  /-- before `self.q.put(payment)` -/
  | putting (row : ReceivedPaymentRow) (rest : List ReceivedPaymentRow)
  /-- before `payment_index = payment.received_payment_id` -/
  | assigning (row : ReceivedPaymentRow) (rest : List ReceivedPaymentRow)
  /-- in `self.stopped.wait(self.update_interval_s)` -/
  | waiting
  /-- before the poison pill -/
  | leaving
  | ended

/-- `taken` is what the client got from the queue so far. -/
structure SubscriptionState where
  db : Db
  stopped : Bool
  phase : Phase
  paymentIndex : Int
  q : List (Option ReceivedPayment)
  taken : List (Option ReceivedPayment)

/-- A queue with a maximum size of zero or less is never full. -/
def full (maxQueueSize : Int) (q : List (Option ReceivedPayment)) : Bool :=
  decide (0 < maxQueueSize) && decide (maxQueueSize ≤ q.length)

/-- What happens to the subscription next. -/
inductive Action where
  /-- a payment is saved -/
  | insert (now : Int) (receivedPayment : ReceivedPayment)
  | stop
  /-- the next statement of the thread -/
  | advance
  /-- an exception is raised in the poll -/
  | fail
  /-- the open query sees the payments that were saved since -/
  | refresh
  /-- the client takes an item from the queue -/
  | take

namespace SubscriptionState

/-- A subscription that was just opened. -/
def start (initialIndex : Int) (stopped : Bool) (db : Db) : SubscriptionState :=
  ⟨db, stopped, .checkingStopped, initialIndex, [], []⟩

/-- `self.q.put(item)`, which waits while the queue is full. -/
def putItem (maxQueueSize : Int) (item : Option ReceivedPayment) (phase : Phase) (s : SubscriptionState) :
    Option SubscriptionState :=
  if full maxQueueSize s.q then none else some { s with q := s.q ++ [item], phase := phase }

/-- The next statement of the thread. -/
def advance (maxQueueSize : Int) (s : SubscriptionState) : Option SubscriptionState :=
  match s.phase with
  | .checkingStopped => some { s with phase := if s.stopped then .leaving else .opening }
  | .opening => some { s with phase := .fetching (receivedPaymentsFromIndex s.paymentIndex s.db) }
  | .fetching [] => some { s with phase := .waiting }
  | .fetching (row :: rest) => some { s with phase := .putting row rest }
  | .putting row rest => s.putItem maxQueueSize (some (parseReceivedPayment row)) (.assigning row rest)
  | .assigning row rest => some { s with paymentIndex := paymentIndexOf row, phase := .fetching rest }
  | .waiting => some { s with phase := .checkingStopped }
  | .leaving => s.putItem maxQueueSize none .ended
  | .ended => none

/-- The query, its rows and what is logged after a row may raise; the thread then waits for its next poll. -/
def fail (s : SubscriptionState) : Option SubscriptionState :=
  match s.phase with
  | .opening => some { s with phase := .waiting }
  | .fetching _ => some { s with phase := .waiting }
  | _ => none

/-- The rows that the open query has not delivered yet are read again. -/
def refresh (s : SubscriptionState) : Option SubscriptionState :=
  match s.phase with
  | .fetching _ => some { s with phase := .fetching (receivedPaymentsFromIndex s.paymentIndex s.db) }
  | _ => none

/-- The client takes the first item of the queue. -/
def take (s : SubscriptionState) : Option SubscriptionState :=
  match s.q with
  | [] => none
  | item :: q => some { s with q := q, taken := s.taken ++ [item] }

/-- What an action does, if it can happen. -/
def step (maxQueueSize : Int) : Action → SubscriptionState → Option SubscriptionState
  | .insert now receivedPayment, s => some { s with db := (insertReceivedPayment now receivedPayment s.db).2 }
  | .stop, s => some { s with stopped := true }
  | .advance, s => s.advance maxQueueSize
  | .fail, s => s.fail
  | .refresh, s => s.refresh
  | .take, s => s.take

/-! ## Queues without gaps -/

/-- All that was ever put in the queue. -/
def put (s : SubscriptionState) : List (Option ReceivedPayment) := s.taken ++ s.q

/-- The end marker, when the thread has put it in the queue. -/
def endMarker (s : SubscriptionState) : List (Option ReceivedPayment) :=
  match s.phase with
  | .ended => [none]
  | _ => []

/-- What was put in the queue is a prefix of the payments above the initial index, which have ascending
identifiers, and the end marker once the thread has ended. -/
structure GapFree (initialIndex : Int) (s : SubscriptionState) : Prop where
  isPrefix : ∃ payments, s.put = payments.map some ++ s.endMarker ∧
    payments <+: yieldReceivedPaymentsFromIndex initialIndex s.db
  ascending : ((receivedPaymentsFromIndex initialIndex s.db).map ReceivedPaymentRow.receivedPaymentId).Pairwise (· < ·)

/-- The thread is in a poll. -/
def Polling (s : SubscriptionState) : Prop :=
  match s.phase with
  | .opening | .fetching _ | .putting _ _ | .assigning _ _ => True
  | _ => False

/-- From a stopped state on: who is in a poll was in it all the time, and outside of a poll nothing but the
end marker is put in the queue. -/
structure OnlyEnds (t : SubscriptionState) (later : List (SubscriptionState × Action)) (s : SubscriptionState) : Prop where
  samePoll : s.Polling → ∀ u ∈ Machine.states later s, u.Polling
  noMore : ¬ t.Polling → s.put = t.put ∨ s.put = t.put ++ [none]

/-! ## The invariant -/

/-- The index of the last payment that was put in the queue: `payment_index`, which is behind it right
after a payment was put. -/
def mark (s : SubscriptionState) : Int :=
  match s.phase with
  | .assigning row _ => paymentIndexOf row
  | _ => s.paymentIndex

/-- The rows that the open query still has to put in the queue. -/
def pending (s : SubscriptionState) : List ReceivedPaymentRow :=
  match s.phase with
  | .fetching rest => rest
  | .putting row rest => row :: rest
  | .assigning _ rest => rest
  | _ => []

/-- The queue got what was read up to the mark, and the open query is about to yield what follows. -/
structure Inv (initialIndex : Int) (s : SubscriptionState) : Prop where
  numbered : s.db.receivedPayments.Numbered ReceivedPaymentRow.receivedPaymentId
  read : ∃ rows, ReadUpTo paymentIndexOf initialIndex s.db.receivedPayments.rows rows s.mark ∧
    s.put = (rows.map parseReceivedPayment).map some ++ s.endMarker
  pending : s.pending <+: receivedPaymentsFromIndex s.mark s.db

theorem uniqueOn_paymentIndex {t : Table ReceivedPaymentRow} (h : t.Numbered ReceivedPaymentRow.receivedPaymentId) :
    UniqueOn paymentIndexOf t.rows := by
  have hnodup := List.Nodup.map (fun _ _ heq => Int.ofNat.inj heq : Function.Injective Int.ofNat) h.unique
  rw [List.map_map] at hnodup
  exact hnodup

theorem inv_start {initialIndex : Int} {stopped : Bool} {db : Db}
    (h : db.receivedPayments.Numbered ReceivedPaymentRow.receivedPaymentId) :
    (start initialIndex stopped db).Inv initialIndex :=
  ⟨h, ⟨[], .init _ _ _, rfl⟩, List.nil_prefix⟩

/-- A payment that is saved gets an identifier above all others. -/
theorem rows_insertReceivedPayment (now : Int) (p : ReceivedPayment) {db : Db}
    (h : db.receivedPayments.Numbered ReceivedPaymentRow.receivedPaymentId) :
    (insertReceivedPayment now p db).2.receivedPayments.rows = db.receivedPayments.rows ∨
      ∃ r, (insertReceivedPayment now p db).2.receivedPayments.rows = db.receivedPayments.rows ++ [r] ∧
        ∀ s ∈ db.receivedPayments.rows, paymentIndexOf s < paymentIndexOf r := by
  rcases Table.rows_insert ReceivedPaymentRow.paymentHash (receivedPaymentRow now p) db.receivedPayments
      with hsame | hnew
  · exact .inl hsame
  · refine .inr ⟨_, hnew, fun s hs => ?_⟩
    have hissued := h.issued s hs
    show (s.receivedPaymentId : Int) < ((db.receivedPayments.lastId + 1 : Nat) : Int)
    omega

theorem Inv.insert {initialIndex now : Int} {p : ReceivedPayment} {s : SubscriptionState} (h : s.Inv initialIndex) :
    ({ s with db := (insertReceivedPayment now p s.db).2 } : SubscriptionState).Inv initialIndex := by
  obtain ⟨rows, hread, hput⟩ := h.read
  have hunique := uniqueOn_paymentIndex h.numbered
  refine ⟨h.numbered.insert fun _ => rfl, ⟨rows, ?_, hput⟩, ?_⟩
  · show ReadUpTo _ _ (insertReceivedPayment now p s.db).2.receivedPayments.rows rows s.mark
    rcases rows_insertReceivedPayment now p h.numbered with hsame | ⟨r, hnew, habove⟩
    · rw [hsame]
      exact hread
    · rw [hnew]
      exact hread.append hunique habove
  · show s.pending <+: selectAfter _ s.mark (insertReceivedPayment now p s.db).2.receivedPayments.rows
    rcases rows_insertReceivedPayment now p h.numbered with hsame | ⟨r, hnew, habove⟩
    · rw [hsame]
      exact h.pending
    · rw [hnew, selectAfter_append hunique habove]
      exact h.pending.trans (List.prefix_append _ _)

/-- The thread got where nothing is pending and the mark is the same. -/
theorem Inv.idle {initialIndex : Int} {s : SubscriptionState} (h : s.Inv initialIndex) {phase : Phase}
    (hmark : ({ s with phase := phase } : SubscriptionState).mark = s.mark)
    (hend : ({ s with phase := phase } : SubscriptionState).endMarker = s.endMarker)
    (hpending : ({ s with phase := phase } : SubscriptionState).pending <+: receivedPaymentsFromIndex s.mark s.db) :
    ({ s with phase := phase } : SubscriptionState).Inv initialIndex := by
  obtain ⟨rows, hread, hput⟩ := h.read
  refine ⟨h.numbered, ⟨rows, ?_, ?_⟩, ?_⟩
  · rw [hmark]
    exact hread
  · rw [hend]
    exact hput
  · rw [hmark]
    exact hpending

/-- What the next statement of the thread does, outside of a full queue. -/
theorem Inv.advance {initialIndex maxQueueSize : Int} {s s' : SubscriptionState} (h : s.Inv initialIndex)
    (ha : s.advance maxQueueSize = some s') : s'.Inv initialIndex := by
  obtain ⟨db, stopped, phase, index, q, taken⟩ := s
  obtain ⟨rows, hread, hput⟩ := h.read
  cases phase with
  | checkingStopped =>
    cases ha
    refine h.idle ?_ ?_ ?_ <;> cases stopped
    all_goals first | rfl | exact List.nil_prefix
  | opening =>
    cases ha
    exact h.idle rfl rfl (List.prefix_refl _)
  | fetching rest =>
    cases rest with
    | nil =>
      cases ha
      exact h.idle rfl rfl List.nil_prefix
    | cons row rest =>
      cases ha
      exact h.idle rfl rfl h.pending
  | putting row rest =>
    simp only [SubscriptionState.advance, putItem] at ha
    split at ha
    · cases ha
    · cases ha
      obtain ⟨others, hothers⟩ := h.pending
      have hfirst : selectAfter paymentIndexOf index db.receivedPayments.rows = row :: (rest ++ others) := hothers.symm
      have hunique := uniqueOn_paymentIndex h.numbered
      refine ⟨h.numbered, ⟨rows ++ [row], hread.next hunique hfirst, ?_⟩, ?_⟩
      · show taken ++ (q ++ [some (parseReceivedPayment row)]) = _
        have hq : taken ++ q = (rows.map parseReceivedPayment).map some ++ [] := hput
        rw [← List.append_assoc, hq, List.map_append, List.map_append, List.append_nil]
        exact (List.append_nil _).symm
      · show rest <+: selectAfter paymentIndexOf (paymentIndexOf row) db.receivedPayments.rows
        rw [selectAfter_head hunique hfirst]
        exact List.prefix_append _ _
  | assigning row rest =>
    cases ha
    exact ⟨h.numbered, ⟨rows, hread, hput⟩, h.pending⟩
  | waiting =>
    cases ha
    exact h.idle rfl rfl List.nil_prefix
  | leaving =>
    simp only [SubscriptionState.advance, putItem] at ha
    split at ha
    · cases ha
    · cases ha
      refine ⟨h.numbered, ⟨rows, hread, ?_⟩, List.nil_prefix⟩
      show taken ++ (q ++ [none]) = _
      have hq : taken ++ q = (rows.map parseReceivedPayment).map some ++ [] := hput
      rw [← List.append_assoc, hq, List.append_nil]
      rfl
  | ended => cases ha

theorem Inv.step {initialIndex maxQueueSize : Int} {s s' : SubscriptionState} (h : s.Inv initialIndex) {a : Action}
    (ha : step maxQueueSize a s = some s') : s'.Inv initialIndex := by
  cases a with
  | insert now p =>
    cases ha
    exact h.insert
  | stop =>
    cases ha
    exact ⟨h.numbered, h.read, h.pending⟩
  | advance => exact h.advance ha
  | fail =>
    obtain ⟨db, stopped, phase, index, q, taken⟩ := s
    cases phase <;> cases ha
    all_goals exact h.idle rfl rfl List.nil_prefix
  | refresh =>
    obtain ⟨db, stopped, phase, index, q, taken⟩ := s
    cases phase <;> cases ha
    exact h.idle rfl rfl (List.prefix_refl _)
  | take =>
    obtain ⟨db, stopped, phase, index, q, taken⟩ := s
    cases q with
    | nil => cases ha
    | cons item q =>
      cases ha
      obtain ⟨rows, hread, hput⟩ := h.read
      refine ⟨h.numbered, ⟨rows, hread, ?_⟩, h.pending⟩
      show (taken ++ [item]) ++ q = _
      rw [List.append_assoc]
      exact hput

theorem Inv.gapFree {initialIndex : Int} {s : SubscriptionState} (h : s.Inv initialIndex) : s.GapFree initialIndex := by
  obtain ⟨rows, hread, hput⟩ := h.read
  refine ⟨⟨rows.map parseReceivedPayment, hput, ?_⟩, ?_⟩
  · have hprefix : rows <+: receivedPaymentsFromIndex initialIndex s.db := ⟨_, hread.rest.symm⟩
    exact hprefix.map _
  · refine List.pairwise_map.2 ((ascending_selectAfter (uniqueOn_paymentIndex h.numbered)).imp ?_)
    exact fun hlt => Int.ofNat_lt.1 hlt

/-! ## After the stop -/

theorem stopped_step {maxQueueSize : Int} {s s' : SubscriptionState} {a : Action} (hs : s.stopped = true)
    (ha : step maxQueueSize a s = some s') : s'.stopped = true := by
  obtain ⟨db, stopped, phase, index, q, taken⟩ := s
  cases a with
  | insert now p => cases ha; exact hs
  | stop => cases ha; rfl
  | take => cases q <;> cases ha; exact hs
  | fail => cases phase <;> cases ha <;> exact hs
  | refresh => cases phase <;> cases ha; exact hs
  | advance =>
    cases phase with
    | fetching rest => cases rest <;> cases ha <;> exact hs
    | putting row rest =>
      simp only [step, advance, putItem] at ha
      split at ha <;> cases ha
      exact hs
    | leaving =>
      simp only [step, advance, putItem] at ha
      split at ha <;> cases ha
      exact hs
    | _ => cases ha <;> exact hs

/-- Out of a poll, a stopped subscription begins no other, and all that is still put in the queue is the
end marker, before which the thread has not ended. -/
theorem quiet_step {maxQueueSize : Int} {s s' : SubscriptionState} {a : Action} (hs : s.stopped = true)
    (hout : ¬ s.Polling) (ha : step maxQueueSize a s = some s') :
    ¬ s'.Polling ∧ ∃ mark, s'.put = s.put ++ mark ∧ s'.endMarker = s.endMarker ++ mark := by
  obtain ⟨db, stopped, phase, index, q, taken⟩ := s
  subst hs
  cases a with
  | insert now p => cases ha; exact ⟨hout, [], (List.append_nil _).symm, (List.append_nil _).symm⟩
  | stop => cases ha; exact ⟨hout, [], (List.append_nil _).symm, (List.append_nil _).symm⟩
  | take =>
    cases q with
    | nil => cases ha
    | cons item q =>
      cases ha
      refine ⟨hout, [], ?_, (List.append_nil _).symm⟩
      show (taken ++ [item]) ++ q = taken ++ item :: q ++ []
      rw [List.append_nil, List.append_assoc]
      rfl
  | fail => cases phase <;> cases ha <;> exact absurd trivial hout
  | refresh => cases phase <;> cases ha; exact absurd trivial hout
  | advance =>
    cases phase with
    | checkingStopped => cases ha; exact ⟨id, [], (List.append_nil _).symm, rfl⟩
    | waiting => cases ha; exact ⟨id, [], (List.append_nil _).symm, rfl⟩
    | leaving =>
      simp only [step, advance, putItem] at ha
      split at ha <;> cases ha
      exact ⟨id, [none], (List.append_assoc _ _ _).symm, rfl⟩
    | ended => cases ha
    | _ => exact absurd trivial hout

/-- What a stopped subscription does from out of a poll on. -/
theorem quiet_run {maxQueueSize : Int} {t s : SubscriptionState} {later : List (SubscriptionState × Action)}
    (hr : Machine.Run (step maxQueueSize) t later s) (ht : t.stopped = true) (hout : ¬ t.Polling) :
    s.stopped = true ∧ ¬ s.Polling ∧ ∃ mark, s.put = t.put ++ mark ∧ s.endMarker = t.endMarker ++ mark := by
  have hquiet := hr.preserves (I := fun u => u.stopped = true ∧ ¬ u.Polling) (C := fun _ _ => True)
    (R := fun u u' => ∃ mark, u'.put = u.put ++ mark ∧ u'.endMarker = u.endMarker ++ mark)
    ⟨[], (List.append_nil _).symm, (List.append_nil _).symm⟩ ?_ ?_ ⟨ht, hout⟩ fun _ _ => trivial
  · exact ⟨hquiet.1.1, hquiet.1.2, hquiet.2⟩
  · rintro u u' ⟨mark, hput, hend⟩ ⟨mark', hput', hend'⟩
    refine ⟨mark ++ mark', ?_, ?_⟩
    · rw [hput', hput, List.append_assoc]
    · rw [hend', hend, List.append_assoc]
  · rintro u a u' ⟨hstopped, hquiet⟩ - ha
    obtain ⟨hquiet', hmark⟩ := quiet_step hstopped hquiet ha
    exact ⟨⟨stopped_step hstopped ha, hquiet'⟩, hmark⟩

theorem endMarker_cases (s : SubscriptionState) : s.endMarker = [] ∨ s.endMarker = [none] := by
  obtain ⟨db, stopped, phase, index, q, taken⟩ := s
  cases phase
  case ended => exact .inr rfl
  all_goals exact .inl rfl

theorem onlyEnds_of_run {maxQueueSize : Int} {t s : SubscriptionState} {later : List (SubscriptionState × Action)}
    (hr : Machine.Run (step maxQueueSize) t later s) (ht : t.stopped = true) : OnlyEnds t later s := by
  constructor
  · intro hpoll
    induction hr with
    | init =>
      intro u hu
      rw [List.mem_singleton.1 hu]
      exact hpoll
    | @next later s s' a hr ha ih =>
      have hstopped : s.stopped = true :=
        hr.invariant (I := fun u => u.stopped = true) (C := fun _ _ => True)
          (fun _ _ _ hu _ hstep => stopped_step hu hstep)
          ht (fun _ _ => trivial) s (List.mem_append_right _ List.mem_cons_self)
      have hbefore : s.Polling := by
        by_contra hout
        exact (quiet_step hstopped hout ha).1 hpoll
      intro u hu
      rcases List.mem_append.1 hu with hu | hu
      · rw [List.map_append] at hu
        exact ih hbefore u hu
      · rw [List.mem_singleton.1 hu]
        exact hpoll
  · intro hout
    obtain ⟨-, -, mark, hput, hend⟩ := quiet_run hr ht hout
    rw [hput]
    rcases endMarker_cases s with hs | hs <;> rw [hs] at hend
    · obtain ⟨-, rfl⟩ := List.append_eq_nil_iff.1 hend.symm
      exact .inl (List.append_nil _)
    · rcases endMarker_cases t with ht | ht <;> rw [ht] at hend
      · exact .inr (by rw [hend]; rfl)
      · obtain rfl : mark = [] := List.append_cancel_left (hend.symm.trans (List.append_nil _).symm)
        exact .inl (List.append_nil _)

end SubscriptionState

open SubscriptionState

/-- For every initial index and every queue size: whatever is saved, taken and raised meanwhile, what the
thread has put in the queue is a prefix of the payments above the initial index, in order and each once, and
after the stop nothing but the end marker follows the poll in progress. -/
theorem subscription_gap_free (maxQueueSize initialIndex : Int) (stopped : Bool) {db : Db}
    (hdb : db.receivedPayments.Numbered ReceivedPaymentRow.receivedPaymentId)
    {history later : List (SubscriptionState × Action)} {t s : SubscriptionState}
    (ht : Machine.Run (step maxQueueSize) (start initialIndex stopped db) history t)
    (hs : Machine.Run (step maxQueueSize) t later s) :
    t.GapFree initialIndex ∧ (t.stopped = true → OnlyEnds t later s) := by
  have hinv : t.Inv initialIndex :=
    ht.invariant (C := fun _ _ => True) (fun _ _ _ h _ ha => h.step ha) (inv_start hdb) (fun _ _ => trivial) t
      (List.mem_append_right _ List.mem_cons_self)
  exact ⟨hinv.gapFree, onlyEnds_of_run hs⟩

namespace Sample

/-- A payment with the index `n` is saved. -/
def saved (n : UInt8) : Action := .insert n.toNat ⟨none, none, [9], [n], 1000, n.toNat, ⟨.IPV4, "buyer", 0⟩⟩

/-- The first poll fails after its first payment; the second one is stopped before it has put the next. -/
def stoppedInPoll : List Action :=
  [saved 1, .advance, .advance, saved 2, .advance, .advance, .advance, .fail, .advance, .advance, .advance, .take, .stop]

/-- The poll goes on, and what is saved after its query is left. -/
def restOfPoll : List Action := [saved 3, .advance, .advance, .advance, .advance, .advance, .advance, .advance]

/-- The ids of the payments that were put, with a gap for each marker. -/
def delivered (s : SubscriptionState) : List (Option (Option Nat)) :=
  s.put.map fun item => item.map ReceivedPayment.receivedPaymentId

end Sample

theorem subscription_gap_free_sample : ∃ (history later : List (SubscriptionState × Action)) (t s : SubscriptionState),
    Machine.Run (step 2) (start 0 false Db.empty) history t ∧ Machine.Run (step 2) t later s ∧ t.stopped = true ∧
    Sample.delivered t = [some (some 1)] ∧ Sample.delivered s = [some (some 1), some (some 2), none] ∧
    t.GapFree 0 ∧ (t.stopped = true → OnlyEnds t later s) := by
  have hexec : ((Machine.exec (step 2) Sample.stoppedInPoll (start 0 false Db.empty)).bind fun r =>
      (Machine.exec (step 2) Sample.restOfPoll r.2).map fun r' =>
        (r.2.stopped, Sample.delivered r.2, Sample.delivered r'.2)) =
      some (true, [some (some 1)], [some (some 1), some (some 2), none]) := by decide +kernel
  obtain ⟨⟨history, t⟩, ht, hrest⟩ := Option.bind_eq_some_iff.1 hexec
  obtain ⟨⟨later, s⟩, hs, hstate⟩ := Option.map_eq_some_iff.1 hrest
  obtain ⟨hstopped, hput, hput'⟩ : t.stopped = _ ∧ Sample.delivered t = _ ∧ Sample.delivered s = _ := by
    simpa only [Prod.mk.injEq] using hstate
  have hempty : Db.empty.receivedPayments.Numbered ReceivedPaymentRow.receivedPaymentId :=
    ⟨List.nodup_nil, fun r hr => (by cases hr), fun r hr => (by cases hr)⟩
  have hrun := Machine.run_exec ht
  have hlater := Machine.run_exec hs
  exact ⟨history, later, t, s, hrun, hlater, hstopped, hput, hput', subscription_gap_free 2 0 false hempty hrun hlater⟩

end ReceivedPaymentsSubscriptionClient

end Squeaknode
