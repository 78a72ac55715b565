/-
The steps of the stop handshake against the coarser steps of the invoice subscriptions, where a stream is
opened and assigned in one step, the flag is read and the stream cancelled in one step, and `stop_processing`
sets the flag and cancels the stream of the task. Each step of the handshake is one of those or none
(`refines_step`), so that what holds of the runs there holds here, too: `saved_paid`.
-/
import Squeaknode.Node.PaidOffers
import Squeaknode.Node.StopHandshake

namespace Squeaknode

open Interleave SqueakDb

namespace StopHandshake

open PaymentProcessor (PaymentProcessorTask ProcessorState SavedArePaid)

/-! ## The relation -/

/-- Where the thread is in the coarser steps; a thread that died is nowhere. -/
def ThreadPhase.coarse : ThreadPhase → Option PaymentProcessor.Phase
  | .checkingStopped => some .checkingStopped
  | .readingIndex => some .readingIndex
  | .subscribing index => some (.subscribing index)
  | .assigning _ next | .checkingAgain _ next | .cancelling _ next => some (.subscribed next)
  | .iterating _ next => some (.streaming next)
  | .lookingUp _ next => some (.lookingUp next)
  | .inserting _ next p => some (.inserting next p)
  | .markingPaid _ next p => some (.markingPaid next p)
  | .retrying => some .retrying
  | .ended => some .ended
  | .died => none

/-- The stream of the attempt, from when it is opened. -/
def ThreadPhase.stream : ThreadPhase → Option Nat
  | .assigning k _ | .checkingAgain k _ | .cancelling k _ | .iterating k _ | .lookingUp k _ | .inserting k _ _ |
    .markingPaid k _ _ => some k
  | _ => none

/-- A task in both. -/
structure Matches (task : Task) (coarse : PaymentProcessorTask) : Prop where
  stopped : coarse.stopped = task.stopped
  phase : ∀ phase, task.phase.coarse = some phase → coarse.phase = phase
  stream : ∀ k, task.phase.stream = some k → task.streams[k]? = some coarse.cancelled
  seen : ∀ k next, task.phase = .cancelling k next → task.stopped = true

/-- The coarse processor has the same tables and the same tasks, each in the phase that it has here. -/
structure Refines (s : HandshakeState) (p : ProcessorState) : Prop where
  inv : s.Inv
  db : p.db = s.db
  settled : p.settled = s.settled
  currentTask : p.currentTask = s.currentTask
  length : p.tasks.length = s.tasks.length
  tasks : ∀ (i : Nat) (task : Task) (coarse : PaymentProcessorTask),
    s.tasks[i]? = some task → p.tasks[i]? = some coarse → Matches task coarse

theorem Refines.task {s : HandshakeState} {p : ProcessorState} (h : Refines s p) {i : Nat} {task : Task}
    (hget : s.tasks[i]? = some task) : ∃ coarse, p.tasks[i]? = some coarse ∧ Matches task coarse := by
  have hlt : i < p.tasks.length := by
    rw [h.length]
    exact (List.getElem?_eq_some_iff.1 hget).1
  exact ⟨p.tasks[i], List.getElem?_eq_getElem hlt, h.tasks i task _ hget (List.getElem?_eq_getElem hlt)⟩

/-- One task changes in both, and the database as well. -/
theorem Refines.set {s s' : HandshakeState} {p : ProcessorState} (h : Refines s p) (hi : s'.Inv) {i : Nat} {task : Task}
    {coarse : PaymentProcessorTask} {db : Db} (hm : Matches task coarse) (hdb : s'.db = db)
    (hsettled : s'.settled = s.settled)
    (hcurrent : s'.currentTask = s.currentTask) (htasks : s'.tasks = s.tasks.set i task) :
    Refines s' { p with db := db, tasks := p.tasks.set i coarse } := by
  refine ⟨hi, hdb.symm, h.settled.trans hsettled.symm, h.currentTask.trans hcurrent.symm, ?_, fun i' t c ht hc => ?_⟩
  · rw [htasks, List.length_set, List.length_set]
    exact h.length
  · rw [htasks] at ht
    change (p.tasks.set i coarse)[i']? = some c at hc
    rcases Machine.getElem?_set_cases ht with ⟨rfl, rfl⟩ | ⟨hne, ht⟩
    · rcases Machine.getElem?_set_cases hc with ⟨-, rfl⟩ | ⟨hne, -⟩
      · exact hm
      · exact absurd rfl hne
    · rcases Machine.getElem?_set_cases hc with ⟨rfl, rfl⟩ | ⟨-, hc⟩
      · exact absurd rfl hne
      · exact h.tasks i' t c ht hc

/-- One task changes here and not in the coarser state. -/
theorem Refines.stutter {s s' : HandshakeState} {p : ProcessorState} (h : Refines s p) (hi : s'.Inv) {i : Nat}
    {task : Task}
    {coarse : PaymentProcessorTask} (hget : p.tasks[i]? = some coarse) (hm : Matches task coarse) (hdb : s'.db = s.db)
    (hsettled : s'.settled = s.settled) (hcurrent : s'.currentTask = s.currentTask)
    (htasks : s'.tasks = s.tasks.set i task) : Refines s' p := by
  have hset := h.set hi hm hdb hsettled hcurrent htasks
  have hlt := (List.getElem?_eq_some_iff.1 hget).1
  have hsame : p.tasks.set i coarse = p.tasks := by
    rw [← (List.getElem?_eq_some_iff.1 hget).2]
    exact List.set_getElem_self hlt
  rw [hsame, ← h.db] at hset
  exact hset

/-- No task changes. -/
theorem Refines.same {s s' : HandshakeState} {p p' : ProcessorState} (h : Refines s p) (hi : s'.Inv)
    (hdb : p'.db = s'.db)
    (hsettled : p'.settled = s'.settled) (hcurrent : p'.currentTask = s'.currentTask) (htasks : s'.tasks = s.tasks)
    (hcoarse : p'.tasks = p.tasks) : Refines s' p' := by
  refine ⟨hi, hdb, hsettled, hcurrent, ?_, fun i t c ht hc => ?_⟩
  · rw [htasks, hcoarse]
    exact h.length
  · rw [htasks] at ht
    rw [hcoarse] at hc
    exact h.tasks i t c ht hc

/-! ## The steps of a thread -/

/-- A thread without a stream. -/
theorem Matches.idle {task : Task} {coarse : PaymentProcessorTask} (hstopped : coarse.stopped = task.stopped)
    (hphase : task.phase.coarse = some coarse.phase) (hstream : task.phase.stream = none) : Matches task coarse := by
  refine ⟨hstopped, fun phase hp => ?_, fun k hk => ?_, fun k next hp => ?_⟩
  · exact Option.some.inj (hphase.symm.trans hp)
  · rw [hstream] at hk
    cases hk
  · rw [hp] at hstream
    cases hstream

/-- A thread with a stream that it is not about to cancel. -/
theorem Matches.using {task : Task} {coarse : PaymentProcessorTask} {k : Nat} (hstopped : coarse.stopped = task.stopped)
    (hphase : task.phase.coarse = some coarse.phase) (hstream : task.phase.stream = some k)
    (hcancelled : task.streams[k]? = some coarse.cancelled) (hseen : ∀ k next, task.phase ≠ .cancelling k next) :
    Matches task coarse := by
  refine ⟨hstopped, fun phase hp => ?_, fun k' hk => ?_, fun k next hp => absurd hp (hseen k next)⟩
  · exact Option.some.inj (hphase.symm.trans hp)
  · rw [hstream] at hk
    cases hk
    exact hcancelled

/-- What the coarser task does when the thread takes a step: nothing, or its next step. -/
theorem matches_advance {task task' : Task} {coarse : PaymentProcessorTask} {now : Int} {settled : List Bytes}
    {db db' : Db}
    (hwf : task.WF) (hm : Matches task coarse) (ha : task.advance now settled db = some (task', db')) :
    (db' = db ∧ Matches task' coarse) ∨
      ∃ coarse', coarse.advance now settled db = some (coarse', db') ∧ Matches task' coarse' := by
  obtain ⟨hstopped, hcoarse, hstream, hseen⟩ := hm
  unfold Task.advance at ha
  unfold PaymentProcessorTask.advance
  rcases hphase : task.phase with _ | _ | index | ⟨k, next⟩ | ⟨k, next⟩ | ⟨k, next⟩ | ⟨k, next⟩ | ⟨k, next⟩ |
    ⟨k, next, p⟩ | ⟨k, next, p⟩ | _ | _ | _ <;> rw [hphase] at hcoarse hstream <;> simp only [hphase] at ha
  case checkingStopped =>
    have hp := hcoarse _ rfl
    simp only [hp, hstopped]
    cases ha
    right
    refine ⟨_, rfl, ?_⟩
    cases task.stopped
    · exact .idle rfl rfl rfl
    · exact .idle rfl rfl rfl
  case readingIndex =>
    have hp := hcoarse _ rfl
    simp only [hp]
    cases ha
    exact .inr ⟨_, rfl, .idle hstopped rfl rfl⟩
  case subscribing =>
    have hp := hcoarse _ rfl
    simp only [hp]
    cases ha
    exact .inr ⟨_, rfl, .using hstopped rfl rfl List.getElem?_concat_length (by simp)⟩
  case assigning =>
    -- the stream counts as assigned when it is opened
    have hp := hcoarse _ rfl
    cases ha
    refine .inl ⟨rfl, .using hstopped ?_ rfl (hstream k rfl) (by simp)⟩
    rw [hp]
    rfl
  case checkingAgain =>
    -- the flag counts as read when the thread goes on to its loop
    have hp := hcoarse _ rfl
    cases ha
    by_cases hstop : task.stopped = true
    · left
      refine ⟨rfl, hstopped, fun phase hphase' => ?_, fun k' hk' => ?_, fun _ _ _ => hstop⟩
      · rw [if_pos hstop] at hphase'
        cases hphase'
        exact hp
      · simp only [if_pos hstop] at hk'
        cases hk'
        exact hstream k rfl
    · right
      simp only [hp, if_neg hstop]
      refine ⟨_, rfl, .using hstopped rfl rfl ?_ (by simp)⟩
      have hflag : coarse.stopped = false := hstopped.trans (Bool.eq_false_iff.2 hstop)
      rw [hflag, Bool.or_false]
      exact hstream k rfl
  case cancelling =>
    have hp := hcoarse _ rfl
    simp only [hp]
    cases ha
    have hflag : coarse.stopped = true := hstopped.trans (hseen k next hphase)
    have hresult := hwf.assigned k next (.inr hphase)
    refine .inr ⟨_, rfl, .using hstopped rfl rfl ?_ (by simp [Task.cancelStream])⟩
    show (task.streams.set k true)[k]? = some (coarse.cancelled || coarse.stopped)
    rw [hflag, Bool.or_true]
    exact List.getElem?_set_self (hwf.result k hresult)
  case iterating =>
    have hp := hcoarse _ rfl
    simp only [hp]
    rw [hstream k rfl] at ha
    right
    by_cases hcancelled : coarse.cancelled = true
    · rw [if_pos (congrArg some hcancelled)] at ha
      cases ha
      rw [if_pos hcancelled]
      exact ⟨_, rfl, .idle hstopped rfl rfl⟩
    · rw [if_neg fun heq => hcancelled (Option.some.inj heq)] at ha
      obtain ⟨hlt, heq⟩ := Option.ite_none_right_eq_some.1 ha
      cases heq
      rw [if_neg hcancelled, if_pos hlt]
      exact ⟨_, rfl, .using hstopped rfl rfl (hstream k rfl) (by simp)⟩
  case lookingUp =>
    have hp := hcoarse _ rfl
    simp only [hp]
    obtain ⟨paymentHash, hnext, heq⟩ := Option.map_eq_some_iff.1 ha
    right
    rw [hnext, Option.map_some]
    rcases hoffer : getSentOfferByPaymentHash paymentHash db with _ | o <;> simp only [hoffer] at heq ⊢ <;> cases heq
    · exact ⟨_, rfl, .using hstopped rfl rfl (hstream k rfl) (by simp)⟩
    · exact ⟨_, rfl, .using hstopped rfl rfl (hstream k rfl) (by simp)⟩
  case inserting =>
    have hp := hcoarse _ rfl
    simp only [hp]
    cases ha
    exact .inr ⟨_, rfl, .using hstopped rfl rfl (hstream k rfl) (by simp)⟩
  case markingPaid =>
    have hp := hcoarse _ rfl
    simp only [hp]
    cases ha
    exact .inr ⟨_, rfl, .using hstopped rfl rfl (hstream k rfl) (by simp)⟩
  case retrying =>
    have hp := hcoarse _ rfl
    simp only [hp]
    cases ha
    exact .inr ⟨_, rfl, .idle hstopped rfl rfl⟩
  case ended => cases ha
  case died => cases ha

theorem matches_fail {task task' : Task} {coarse : PaymentProcessorTask} (hm : Matches task coarse)
    (hf : task.fail = some task') : ∃ coarse', coarse.fail = some coarse' ∧ Matches task' coarse' := by
  unfold Task.fail at hf
  split at hf
  · rename_i k next hphase
    obtain ⟨hcancelled, heq⟩ := Option.ite_none_left_eq_some.1 hf
    cases heq
    have hp : coarse.phase = .streaming next := hm.phase _ (by rw [hphase]; rfl)
    have hstream : task.streams[k]? = some coarse.cancelled := hm.stream k (by rw [hphase]; rfl)
    have hnot : ¬ coarse.cancelled = true := fun heq => hcancelled (by rw [hstream, heq])
    refine ⟨{ coarse with phase := .retrying }, ?_, .idle hm.stopped rfl rfl⟩
    unfold PaymentProcessorTask.fail
    simp only [hp, if_neg hnot]
  · cases hf

/-- A thread that died matches whatever its task was. -/
theorem matches_die {task task' : Task} {coarse : PaymentProcessorTask} (hm : Matches task coarse)
    (hd : task.die = some task') : Matches task' coarse := by
  have hdied : Matches { task with phase := .died } coarse :=
    ⟨hm.stopped, fun _ hp => (by cases hp), fun _ hk => (by cases hk), fun _ _ hp => (by cases hp)⟩
  unfold Task.die at hd
  split at hd <;> cases hd <;> exact hdied

/-! ## The steps of the system -/

/-- The current task of the coarser state. -/
theorem Refines.setCurrent {s : HandshakeState} {p : ProcessorState} (h : Refines s p) {i : Nat}
    {coarse : PaymentProcessorTask} (hcur : s.currentTask = some i) (hget : p.tasks[i]? = some coarse)
    (f : PaymentProcessorTask → PaymentProcessorTask) :
    p.setCurrent f = p.setTask i (f coarse) ∧ p.current = some coarse := by
  have hcurrent : p.current = some coarse := (ProcessorState.current_eq (h.currentTask.trans hcur)).trans hget
  refine ⟨?_, hcurrent⟩
  unfold ProcessorState.setCurrent
  rw [h.currentTask, hcur, hcurrent]

/-- The coarser action of a step: no other than what its thread or its call does. -/
def Steps (s' : HandshakeState) (p : ProcessorState) : Prop :=
  Refines s' p ∨ ∃ b p', b ≠ PaymentProcessor.Action.kill ∧ ProcessorState.step b p = some p' ∧ Refines s' p'

theorem steps_callerStep {s s' : HandshakeState} {p : ProcessorState} {j : Nat} {phase : CallerPhase} (h : Refines s p)
    (hi : s'.Inv) (hj : s.callers[j]? = some phase) (hstep : s.callerStep j phase = some s') : Steps s' p := by
  have hfacts := h.inv.callers j phase hj
  cases phase with
  | clearing =>
    cases hstep
    refine .inr ⟨.clear, _, by simp, rfl, h.same hi ?_ h.settled h.currentTask rfl rfl⟩
    show clearReceivedPaymentSettleIndices p.db = clearReceivedPaymentSettleIndices s.db
    rw [h.db]
  | acquiring starts =>
    obtain ⟨-, heq⟩ := Option.ite_none_right_eq_some.1 hstep
    cases heq
    exact .inl (h.same hi h.db h.settled h.currentTask rfl rfl)
  | locked starts =>
    simp only [HandshakeState.callerStep] at hstep
    split at hstep <;> cases hstep
    all_goals exact .inl (h.same hi h.db h.settled h.currentTask rfl rfl)
  | settingFlag starts i =>
    obtain ⟨-, hcur⟩ := hfacts
    obtain ⟨task, hget, heq⟩ := Option.map_eq_some_iff.1 hstep
    cases heq
    obtain ⟨coarse, hcoarse, hm⟩ := h.task hget
    obtain ⟨hset, -⟩ := h.setCurrent hcur hcoarse fun task => { task with stopped := true }
    have hm' : Matches { task with stopped := true } { coarse with stopped := true } :=
      ⟨rfl, hm.phase, hm.stream, fun _ _ _ => rfl⟩
    refine .inr ⟨.stop, _, by simp, rfl, ?_⟩
    rw [hset]
    exact h.set hi hm' h.db.symm rfl rfl rfl
  | testing starts i =>
    obtain ⟨task, hget, heq⟩ := Option.map_eq_some_iff.1 hstep
    cases heq
    exact .inl (h.same hi h.db h.settled h.currentTask rfl rfl)
  | reading starts i =>
    obtain ⟨task, hget, heq⟩ := Option.bind_eq_some_iff.1 hstep
    obtain ⟨k, -, heq⟩ := Option.map_eq_some_iff.1 heq
    cases heq
    exact .inl (h.same hi h.db h.settled h.currentTask rfl rfl)
  | cancelling starts i k =>
    obtain ⟨-, hcur, task, r, hget, hdoomed, hresult, hk⟩ := hfacts
    simp only [HandshakeState.callerStep, hget, Option.map_some] at hstep
    cases hstep
    obtain ⟨coarse, hcoarse, hm⟩ := h.task hget
    by_cases huses : task.phase.stream = some k
    · -- the stream of the attempt
      obtain ⟨hset, hcurrent⟩ := h.setCurrent hcur hcoarse fun task => { task with cancelled := true }
      have hm' : Matches (task.cancelStream k) { coarse with cancelled := true } := by
        refine ⟨hm.stopped, hm.phase, fun k' hk' => ?_, hm.seen⟩
        cases huses.symm.trans hk'
        exact List.getElem?_set_self (Nat.lt_of_le_of_lt hk ((h.inv.wf hget).result r hresult))
      have hstopped : p.current.all fun task => task.stopped := by
        rw [hcurrent]
        exact hm.stopped.trans hdoomed.stopped
      refine .inr ⟨.cancel, p.setCurrent fun task => { task with cancelled := true }, by simp, if_pos hstopped, ?_⟩
      rw [hset]
      exact h.set hi hm' h.db.symm rfl rfl rfl
    · -- one of an earlier attempt
      have hm' : Matches (task.cancelStream k) coarse := by
        refine ⟨hm.stopped, hm.phase, fun k' hk' => ?_, hm.seen⟩
        show (task.streams.set k true)[k']? = some coarse.cancelled
        have hne : k ≠ k' := fun heq => huses (by rw [heq]; exact hk')
        rw [List.getElem?_set_ne hne]
        exact hm.stream k' hk'
      exact .inl (h.stutter hi hcoarse hm' rfl rfl rfl rfl)
  | returned starts i =>
    cases hstep
    exact .inl (h.same hi h.db h.settled h.currentTask rfl rfl)
  | creating =>
    obtain ⟨-, hstopped⟩ := hfacts
    cases hstep
    have hall : p.current.all fun task => task.stopped := by
      rcases hcur : p.currentTask with _ | i
      · unfold ProcessorState.current
        rw [hcur]
        rfl
      · obtain ⟨task, hget, hstop⟩ := hstopped i (h.currentTask.symm.trans hcur)
        obtain ⟨coarse, hcoarse, hm⟩ := h.task hget
        rw [ProcessorState.current_eq hcur, hcoarse]
        exact hm.stopped.trans hstop
    refine .inr ⟨.start, _, by simp, if_pos hall, hi, h.db, h.settled, ?_, ?_, fun i t c ht hc => ?_⟩
    · show some p.tasks.length = some s.tasks.length
      rw [h.length]
    · show (p.tasks ++ [_]).length = (s.tasks ++ [_]).length
      rw [List.length_append, List.length_append, h.length]
      rfl
    · change (s.tasks ++ [Task.new])[i]? = some t at ht
      change (p.tasks ++ [⟨.checkingStopped, false, false⟩])[i]? = some c at hc
      rcases Machine.getElem?_concat_cases ht with ⟨hi', rfl⟩ | ⟨hlt, ht⟩ <;>
        rcases Machine.getElem?_concat_cases hc with ⟨hi'', rfl⟩ | ⟨hlt', hc⟩
      · exact .idle rfl rfl rfl
      · rw [hi', h.length] at hlt'
        exact absurd hlt' (Nat.lt_irrefl _)
      · rw [hi'', h.length] at hlt
        exact absurd hlt (Nat.lt_irrefl _)
      · exact h.tasks i t c ht hc
  | releasing =>
    cases hstep
    exact .inl (h.same hi h.db h.settled h.currentTask rfl rfl)
  | done => cases hstep

/-- Every step of the handshake is a coarser one or none. -/
theorem refines_step {s s' : HandshakeState} {p : ProcessorState} {a : Action} (h : Refines s p)
    (hstep : HandshakeState.step a s = some s') : Steps s' p := by
  have hi := (h.inv.step hstep).1
  cases a with
  | createOffer now o =>
    obtain ⟨hnew, heq⟩ := Option.ite_none_left_eq_some.1 hstep
    cases heq
    refine .inr ⟨.createOffer now o, _, by simp, if_neg ?_, h.same hi ?_ h.settled h.currentTask rfl rfl⟩
    · rw [h.settled]
      exact hnew
    · show (insertSentOffer now o p.db).2 = (insertSentOffer now o s.db).2
      rw [h.db]
  | deleteExpiredSentOffers now intervalS =>
    cases hstep
    refine .inr ⟨.deleteExpiredSentOffers now intervalS, _, by simp, rfl, h.same hi ?_ h.settled h.currentTask rfl rfl⟩
    show (SqueakDb.deleteExpiredSentOffers now intervalS p.db).2 =
      (SqueakDb.deleteExpiredSentOffers now intervalS s.db).2
    rw [h.db]
  | settle paymentHash =>
    obtain ⟨hnew, heq⟩ := Option.ite_none_left_eq_some.1 hstep
    cases heq
    refine .inr ⟨.settle paymentHash, _, by simp, if_neg ?_, h.same hi h.db ?_ h.currentTask rfl rfl⟩
    · rw [h.settled]
      exact hnew
    · show p.settled ++ [paymentHash] = s.settled ++ [paymentHash]
      rw [h.settled]
  | call c =>
    cases hstep
    exact .inl (h.same hi h.db h.settled h.currentTask rfl rfl)
  | caller j =>
    obtain ⟨phase, hj, hcaller⟩ := Option.bind_eq_some_iff.1 hstep
    exact steps_callerStep h hi hj hcaller
  | thread i now =>
    obtain ⟨task, hget, hmap⟩ := Option.bind_eq_some_iff.1 hstep
    obtain ⟨⟨task', db⟩, hadvance, heq⟩ := Option.map_eq_some_iff.1 hmap
    cases heq
    obtain ⟨coarse, hcoarse, hm⟩ := h.task hget
    rcases matches_advance (h.inv.wf hget) hm hadvance with ⟨hdb, hm'⟩ | ⟨coarse', hadvance', hm'⟩
    · exact .inl (h.stutter hi hcoarse hm' hdb rfl rfl rfl)
    · refine .inr ⟨.advance i now, { p with db := db, tasks := p.tasks.set i coarse' }, by simp, ?_,
        h.set hi hm' rfl rfl rfl rfl⟩
      rw [← h.db, ← h.settled] at hadvance'
      show (p.tasks[i]?).bind _ = _
      rw [hcoarse, Option.bind_some, hadvance']
      rfl
  | fail i =>
    obtain ⟨task, hget, hmap⟩ := Option.bind_eq_some_iff.1 hstep
    obtain ⟨task', hfail, heq⟩ := Option.map_eq_some_iff.1 hmap
    cases heq
    obtain ⟨coarse, hcoarse, hm⟩ := h.task hget
    obtain ⟨coarse', hfail', hm'⟩ := matches_fail hm hfail
    refine .inr ⟨.fail i, p.setTask i coarse', by simp, ?_, h.set hi hm' h.db.symm rfl rfl rfl⟩
    show (p.tasks[i]?).bind _ = _
    rw [hcoarse, Option.bind_some, hfail']
    rfl
  | die i =>
    obtain ⟨task, hget, hmap⟩ := Option.bind_eq_some_iff.1 hstep
    obtain ⟨task', hdie, heq⟩ := Option.map_eq_some_iff.1 hmap
    cases heq
    obtain ⟨coarse, hcoarse, hm⟩ := h.task hget
    exact .inl (h.stutter hi hcoarse (matches_die hm hdie) rfl rfl rfl rfl)

/-! ## Runs -/

theorem refines_start (db : Db) (settled : List Bytes) : Refines (.start db settled) ⟨db, settled, [], none⟩ :=
  ⟨HandshakeState.inv_start db settled, rfl, rfl, rfl, rfl, fun i task coarse hget => (by cases hget)⟩

/-- Every run of the handshake refines one of the coarser runs, in which the process does not end. -/
theorem refines_run {db : Db} {settled : List Bytes} {history : List (HandshakeState × Action)} {s : HandshakeState}
    (hr : Machine.Run HandshakeState.step (.start db settled) history s) :
    ∃ (coarse : List (ProcessorState × PaymentProcessor.Action)) (p : ProcessorState),
      Machine.Run ProcessorState.step ⟨db, settled, [], none⟩ coarse p ∧ Refines s p ∧ ∀ x ∈ coarse, x.2 ≠ .kill := by
  have hstep : ∀ (s : HandshakeState) (p : ProcessorState) (a : Action) (s' : HandshakeState), Refines s p →
      HandshakeState.step a s = some s' → Steps s' p := fun _ _ _ _ h hstep => refines_step h hstep
  exact hr.simulates (C := fun _ b => b ≠ PaymentProcessor.Action.kill) hstep (refines_start db settled)

/-- While no thread is between the statements that handle a payment and none has died, the sent offers of all
saved payments are paid. -/
theorem saved_paid {db : Db} {settled : List Bytes} (hoffers : db.sentOffers.rows = [])
    (hpayments : db.receivedPayments.rows = [])
    {history : List (HandshakeState × Action)} {s : HandshakeState}
    (hr : Machine.Run HandshakeState.step (.start db settled) history s)
    (hidle : ∀ task ∈ s.tasks, task.phase ≠ .died ∧ ∀ k next p, task.phase ≠ .markingPaid k next p) :
    SavedArePaid s.db := by
  obtain ⟨coarse, p, hcoarse, href, hkill⟩ := refines_run hr
  have hpaid := (PaymentProcessor.saved_payments_paid hcoarse ⟨hoffers, hpayments, rfl, rfl⟩).1.2
    fun x hx hdies => hkill x hx hdies.1
  rw [← href.db]
  refine hpaid p (List.mem_append_right _ List.mem_cons_self) ?_
  rintro ⟨h, c, hc, next, receivedPayment, hmarking, -⟩
  obtain ⟨i, hget⟩ := List.getElem?_of_mem hc
  have hlt : i < s.tasks.length := by
    rw [← href.length]
    exact (List.getElem?_eq_some_iff.1 hget).1
  have hm := href.tasks i s.tasks[i] c (List.getElem?_eq_getElem hlt) hget
  obtain ⟨hdied, hmark⟩ := hidle s.tasks[i] (List.getElem_mem hlt)
  rcases hphase : s.tasks[i].phase with _ | _ | index | ⟨k, next⟩ | ⟨k, next⟩ | ⟨k, next⟩ | ⟨k, next⟩ | ⟨k, next⟩ |
    ⟨k, next, p⟩ | ⟨k, next, p⟩ | _ | _ | _
  case markingPaid => exact hmark _ _ _ hphase
  case died => exact hdied hphase
  all_goals
    have hcoarse := hm.phase _ (by rw [hphase]; rfl)
    rw [hmarking] at hcoarse
    cases hcoarse

end StopHandshake

end Squeaknode
