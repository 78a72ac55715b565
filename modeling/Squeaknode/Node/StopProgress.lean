/-
Nothing in the stopping of the payment processor waits for ever. Once the last call is made, all calls return
and the thread of every task that was stopped ends (`stopping_settles`), if only the scheduler lets some call
take its next step while one can, and likewise each thread.

A call waits for the lock alone, and whoever has the lock can go on; each of its steps leaves it fewer. What
is left to the thread of a stopped task is bounded as well, because the stream that it uses is cancelled.
-/
import Squeaknode.Interleave.Progress
import Squeaknode.Node.StopHandshake

namespace Squeaknode

open Interleave SqueakDb

namespace StopHandshake

/-- The action is one of the thread of the task `i`. -/
def Action.OfThread (i : Nat) : Action → Prop
  | .thread i' _ | .fail i' | .die i' => i' = i
  | _ => False

/-! ## What is left to a call -/

/-- How many statements a call has left at most. -/
@[simp] def CallerPhase.left : CallerPhase → Nat
  | .done => 0
  | .releasing => 1
  | .creating => 2
  | .returned _ _ => 3
  | .cancelling _ _ _ => 4
  | .reading _ _ => 5
  | .testing _ _ => 6
  | .settingFlag _ _ => 7
  | .locked _ => 8
  | .acquiring _ => 9
  | .clearing => 10

/-- The call has set the flag of the task and not returned from its `stop_processing`. -/
def CallerPhase.Stops (i : Nat) : CallerPhase → Prop
  | .testing _ i' | .reading _ i' | .cancelling _ i' _ => i' = i
  | _ => False

namespace HandshakeState

/-- What a step of the call `j` does: it leaves the call fewer statements, takes, keeps or gives up the lock, and
does not touch where the threads are. -/
structure Moves (j : Nat) (phase phase' : CallerPhase) (s s' : HandshakeState) : Prop where
  callers : s'.callers = s.callers.set j phase'
  settled : s'.settled = s.settled
  left : phase'.left < phase.left
  lock : (s'.lock = s.lock ∧ (phase'.Outside → phase.Outside)) ∨ (s'.lock = some j ∧ ¬ phase'.Outside) ∨ s'.lock = none
  stops : ∀ i, phase.Stops i → phase'.Stops i ∨ ∃ starts, phase' = .returned starts i
  tasks : ∀ (i : Nat) (task' : Task), s'.tasks[i]? = some task' → task' = .new ∨ ∃ task, s.tasks[i]? = some task ∧
    task'.phase = task.phase ∧ (task'.stopped = true → task.stopped = true ∨ phase'.Stops i)

theorem tasks_same {s s' : HandshakeState} (h : s'.tasks = s.tasks) (phase' : CallerPhase) (i : Nat) (task' : Task)
    (hget : s'.tasks[i]? = some task') : task' = .new ∨ ∃ task, s.tasks[i]? = some task ∧
      task'.phase = task.phase ∧ (task'.stopped = true → task.stopped = true ∨ phase'.Stops i) :=
  .inr ⟨task', h ▸ hget, rfl, .inl⟩

theorem moves_of_callerStep {s s' : HandshakeState} {j : Nat} {phase : CallerPhase}
    (h : s.callerStep j phase = some s') : ∃ phase', Moves j phase phase' s s' := by
  cases phase with
  | clearing =>
    cases h
    exact ⟨_, rfl, rfl, by simp, .inl ⟨rfl, fun _ => trivial⟩, fun _ => False.elim, tasks_same rfl _⟩
  | acquiring starts =>
    obtain ⟨-, heq⟩ := Option.ite_none_right_eq_some.1 h
    cases heq
    exact ⟨_, rfl, rfl, by simp, .inr (.inl ⟨rfl, id⟩), fun _ => False.elim, tasks_same rfl _⟩
  | locked starts =>
    rcases hcur : s.currentTask with _ | i <;> simp only [HandshakeState.callerStep, hcur] at h <;> cases h
    · refine ⟨_, rfl, rfl, ?_, .inl ⟨rfl, ?_⟩, fun _ => False.elim, tasks_same rfl _⟩ <;> cases starts
      · decide
      · decide
      · exact id
      · exact id
    · exact ⟨_, rfl, rfl, by simp, .inl ⟨rfl, id⟩, fun _ => False.elim, tasks_same rfl _⟩
  | settingFlag starts i =>
    obtain ⟨task, hget, heq⟩ := Option.map_eq_some_iff.1 h
    cases heq
    refine ⟨_, rfl, rfl, by simp, .inl ⟨rfl, id⟩, fun _ => False.elim, fun i' task' hget' => .inr ?_⟩
    rcases Machine.getElem?_set_cases hget' with ⟨rfl, rfl⟩ | ⟨-, hget'⟩
    · exact ⟨task, hget, rfl, fun _ => .inr rfl⟩
    · exact ⟨task', hget', rfl, .inl⟩
  | testing starts i =>
    obtain ⟨task, hget, heq⟩ := Option.map_eq_some_iff.1 h
    cases heq
    refine ⟨_, rfl, rfl, ?_, .inl ⟨rfl, ?_⟩, ?_, tasks_same rfl _⟩ <;> split
    · simp
    · simp
    · exact id
    · exact id
    · exact fun _ => .inl
    · rintro _ rfl
      exact .inr ⟨starts, rfl⟩
  | reading starts i =>
    obtain ⟨task, hget, h⟩ := Option.bind_eq_some_iff.1 h
    obtain ⟨k, -, heq⟩ := Option.map_eq_some_iff.1 h
    cases heq
    exact ⟨_, rfl, rfl, by simp, .inl ⟨rfl, id⟩, fun _ => .inl, tasks_same rfl _⟩
  | cancelling starts i k =>
    obtain ⟨task, hget, heq⟩ := Option.map_eq_some_iff.1 h
    cases heq
    refine ⟨_, rfl, rfl, by simp, .inl ⟨rfl, id⟩, ?_, fun i' task' hget' => .inr ?_⟩
    · rintro _ rfl
      exact .inr ⟨starts, rfl⟩
    rcases Machine.getElem?_set_cases hget' with ⟨rfl, rfl⟩ | ⟨-, hget'⟩
    · exact ⟨task, hget, rfl, .inl⟩
    · exact ⟨task', hget', rfl, .inl⟩
  | returned starts i =>
    cases h
    refine ⟨_, rfl, rfl, ?_, .inl ⟨rfl, ?_⟩, fun _ => False.elim, tasks_same rfl _⟩ <;> cases starts
    · simp
    · simp
    · exact id
    · exact id
  | creating =>
    cases h
    refine ⟨_, rfl, rfl, by simp, .inl ⟨rfl, id⟩, fun _ => False.elim, fun i task' hget => ?_⟩
    rcases Machine.getElem?_concat_cases hget with ⟨-, rfl⟩ | ⟨-, hget⟩
    · exact .inl rfl
    · exact .inr ⟨task', hget, rfl, .inl⟩
  | releasing =>
    cases h
    exact ⟨_, rfl, rfl, by simp, .inr (.inr rfl), fun _ => False.elim, tasks_same rfl _⟩
  | done => cases h

end HandshakeState

/-! ## What is left to the thread of a stopped task -/

/-- How many statements the thread has left at most, if its task is stopped. -/
@[simp] def ThreadPhase.left : ThreadPhase → Nat
  | .ended | .died => 0
  | .checkingStopped => 1
  | .iterating _ _ | .retrying => 2
  | .markingPaid _ _ _ | .cancelling _ _ => 3
  | .inserting _ _ _ | .checkingAgain _ _ => 4
  | .lookingUp _ _ | .assigning _ _ => 5
  | .subscribing _ => 6
  | .readingIndex => 7

theorem ThreadPhase.over_of_left {phase : ThreadPhase} (h : phase.left = 0) : phase = .ended ∨ phase = .died := by
  cases phase <;> simp [ThreadPhase.left] at h ⊢

namespace Task

/-- The notification that the thread looks up has been delivered. -/
def Delivered (settled : List Bytes) (task : Task) : Prop :=
  ∀ k next, task.phase = .lookingUp k next → next < settled.length

theorem DoomedBut.cancelled' {task : Task} (h : task.DoomedBut none) {k : Nat} (hk : task.phase.uses = some k) :
    task.streams[k]? = some true := (h.cancelled k hk).resolve_right fun heq => (by cases heq)

theorem left_advance {task task' : Task} {now : Int} {settled : List Bytes} {db db' : Db} (h : task.DoomedBut none)
    (ha : task.advance now settled db = some (task', db')) : task'.phase.left < task.phase.left := by
  unfold Task.advance at ha
  rcases hphase : task.phase with _ | _ | index | ⟨k, next⟩ | ⟨k, next⟩ | ⟨k, next⟩ | ⟨k, next⟩ | ⟨k, next⟩ |
    ⟨k, next, p⟩ | ⟨k, next, p⟩ | _ | _ | _ <;> simp only [hphase] at ha
  case checkingStopped | checkingAgain =>
    rw [if_pos h.stopped] at ha
    cases ha
    simp
  case iterating =>
    have huses : task.phase.uses = some k := by rw [hphase]; rfl
    rw [if_pos (h.cancelled' huses)] at ha
    cases ha
    simp
  case lookingUp =>
    obtain ⟨paymentHash, -, heq⟩ := Option.map_eq_some_iff.1 ha
    split at heq <;> cases heq
    all_goals simp
  case ended | died => cases ha
  all_goals
    cases ha
    simp [cancelStream]

theorem left_die {task task' : Task} (hd : task.die = some task') : task'.phase.left < task.phase.left := by
  unfold Task.die at hd
  split at hd <;> rename_i hphase <;> cases hd <;> rw [hphase] <;> simp

theorem not_fail {task : Task} (h : task.DoomedBut none) : task.fail = none := by
  unfold Task.fail
  split
  · rename_i k next hphase
    have huses : task.phase.uses = some k := by rw [hphase]; rfl
    exact if_pos (h.cancelled' huses)
  · rfl

/-- The thread of a stopped task can go on until it has ended. -/
theorem advance_isSome {task : Task} {settled : List Bytes} (h : task.DoomedBut none) (hd : task.Delivered settled)
    (hleft : task.phase.left ≠ 0) (now : Int) (db : Db) : ∃ r, task.advance now settled db = some r := by
  unfold Task.advance
  rcases hphase : task.phase with _ | _ | index | ⟨k, next⟩ | ⟨k, next⟩ | ⟨k, next⟩ | ⟨k, next⟩ | ⟨k, next⟩ |
    ⟨k, next, p⟩ | ⟨k, next, p⟩ | _ | _ | _
  case iterating =>
    have huses : task.phase.uses = some k := by rw [hphase]; rfl
    exact ⟨_, if_pos (h.cancelled' huses)⟩
  case lookingUp =>
    have hget := List.getElem?_eq_getElem (hd k next hphase)
    exact ⟨_, by simp only [hget]; rfl⟩
  case ended | died =>
    rw [hphase] at hleft
    exact absurd rfl hleft
  all_goals exact ⟨_, rfl⟩

theorem Delivered.mono {settled settled' : List Bytes} {task : Task} (h : task.Delivered settled)
    (hle : settled.length ≤ settled'.length) : task.Delivered settled' :=
  fun k next hphase => (h k next hphase).trans_le hle

theorem Delivered.of_phase {settled : List Bytes} {task task' : Task} (h : task.Delivered settled)
    (hphase : task'.phase = task.phase) : task'.Delivered settled := fun k next hp => h k next (hphase.symm.trans hp)

theorem delivered_advance {task task' : Task} {now : Int} {settled : List Bytes} {db db' : Db}
    (ha : task.advance now settled db = some (task', db')) : task'.Delivered settled := by
  unfold Task.advance at ha
  intro k' next' hphase'
  rcases hphase : task.phase with _ | _ | index | ⟨k, next⟩ | ⟨k, next⟩ | ⟨k, next⟩ | ⟨k, next⟩ | ⟨k, next⟩ |
    ⟨k, next, p⟩ | ⟨k, next, p⟩ | _ | _ | _ <;> simp only [hphase] at ha
  case iterating =>
    split at ha
    · cases ha
      cases hphase'
    · obtain ⟨hlt, heq⟩ := Option.ite_none_right_eq_some.1 ha
      cases heq
      cases hphase'
      exact hlt
  case checkingStopped | checkingAgain =>
    cases ha
    dsimp only at hphase'
    split at hphase' <;> cases hphase'
  case lookingUp =>
    obtain ⟨paymentHash, -, heq⟩ := Option.map_eq_some_iff.1 ha
    split at heq <;> cases heq <;> cases hphase'
  all_goals
    cases ha
    try cases hphase'

end Task

/-! ## The invariant -/

namespace HandshakeState

/-- The lock is held by a call that is to give it up, a stopped task uses no stream that is not cancelled or a
call is about to cancel it, and a notification is handled after it was delivered. -/
structure Going (s : HandshakeState) : Prop extends Inv s where
  holder : ∀ j, s.lock = some j → ∃ phase : CallerPhase, s.callers[j]? = some phase ∧ ¬ phase.Outside
  doomed : ∀ (i : Nat) (task : Task), s.tasks[i]? = some task → task.stopped = true →
    task.DoomedBut none ∨ ∃ (j : Nat) (phase : CallerPhase), s.callers[j]? = some phase ∧ phase.Stops i
  delivered : ∀ (i : Nat) (task : Task), s.tasks[i]? = some task → task.Delivered s.settled

theorem going_start (db : Db) (settled : List Bytes) : (start db settled).Going :=
  ⟨inv_start db settled, fun j hj => (by cases hj), fun i task hget => (by cases hget), fun i task hget => (by cases hget)⟩

/-- A step that leaves the tasks and the lock alone, and the calls but for new ones. -/
theorem Going.same {s s' : HandshakeState} (hg : s.Going) (hi : s'.Inv) (htasks : s'.tasks = s.tasks) (hlock : s'.lock = s.lock)
    (hcallers : s.callers <+: s'.callers) (hsettled : s.settled.length ≤ s'.settled.length) : s'.Going := by
  have hsome : ∀ (j : Nat) phase, s.callers[j]? = some phase → s'.callers[j]? = some phase := by
    intro j phase hj
    obtain ⟨more, hmore⟩ := hcallers
    rw [← hmore, List.getElem?_append_left (List.getElem?_eq_some_iff.1 hj).1]
    exact hj
  refine ⟨hi, fun j hj => ?_, fun i task hget hstopped => ?_, fun i task hget => ?_⟩
  · obtain ⟨phase, hphase, hinside⟩ := hg.holder j (hlock ▸ hj)
    exact ⟨phase, hsome j phase hphase, hinside⟩
  · refine (hg.doomed i task (htasks ▸ hget) hstopped).imp_right ?_
    rintro ⟨j, phase, hphase, hstops⟩
    exact ⟨j, phase, hsome j phase hphase, hstops⟩
  · exact (hg.delivered i task (htasks ▸ hget)).mono hsettled

/-- A step of the thread of a task. -/
theorem Going.thread {s : HandshakeState} (hg : s.Going) {i : Nat} {task task' : Task} (hget : s.tasks[i]? = some task)
    (he : task.Evolves task') (hstopped : task'.stopped = task.stopped) (hd : task'.Delivered s.settled) (db : Db) :
    Going { s with db := db, tasks := s.tasks.set i task' } := by
  refine ⟨(hg.toInv.thread hget he db).1, hg.holder, fun i' t hget' hstop => ?_, fun i' t hget' => ?_⟩
  · rcases Machine.getElem?_set_cases hget' with ⟨rfl, rfl⟩ | ⟨-, hget'⟩
    · exact (hg.doomed _ task hget (hstopped ▸ hstop)).imp_left (he.doomed none)
    · exact hg.doomed i' t hget' hstop
  · rcases Machine.getElem?_set_cases hget' with ⟨rfl, rfl⟩ | ⟨-, hget'⟩
    · exact hd
    · exact hg.delivered i' t hget'

theorem Going.callerStep {s s' : HandshakeState} {j : Nat} {phase : CallerPhase} (hg : s.Going)
    (hj : s.callers[j]? = some phase) (h : s.callerStep j phase = some s') : s'.Going := by
  obtain ⟨phase', hm⟩ := moves_of_callerStep h
  obtain ⟨hi, hev⟩ := hg.toInv.callerStep hj h
  have hlt := (List.getElem?_eq_some_iff.1 hj).1
  have hself : s'.callers[j]? = some phase' := by rw [hm.callers]; exact List.getElem?_set_self hlt
  have hothers : ∀ (j' : Nat) p, j' ≠ j → s.callers[j']? = some p → s'.callers[j']? = some p := by
    intro j' p hne hp
    rw [hm.callers, List.getElem?_set_ne (Ne.symm hne)]
    exact hp
  refine ⟨hi, fun j' hj' => ?_, fun i task' hget' hstopped' => ?_, fun i task' hget' => ?_⟩
  · rcases hm.lock with ⟨hlock, hout⟩ | ⟨hlock, hin⟩ | hlock
    · obtain ⟨p, hp, hin⟩ := hg.holder j' (hlock ▸ hj')
      by_cases heq : j' = j
      · subst heq
        rw [hj] at hp
        cases hp
        exact ⟨phase', hself, fun hout' => hin (hout hout')⟩
      · exact ⟨p, hothers j' p heq hp, hin⟩
    · obtain rfl : j = j' := Option.some.inj (hlock.symm.trans hj')
      exact ⟨phase', hself, hin⟩
    · cases hlock.symm.trans hj'
  · rcases hm.tasks i task' hget' with rfl | ⟨task, hget, -, hstopped⟩
    · cases hstopped'
    rcases hstopped hstopped' with hstop | hstops
    · rcases hg.doomed i task hget hstop with hdoomed | ⟨j', p, hp, hstops⟩
      · obtain ⟨t, ht, he⟩ := hev i task hget
        rw [hget'] at ht
        cases ht
        exact .inl (he.doomed none hdoomed)
      · by_cases heq : j' = j
        · subst heq
          rw [hj] at hp
          cases hp
          rcases hm.stops i hstops with hstops' | ⟨starts, rfl⟩
          · exact .inr ⟨j', phase', hself, hstops'⟩
          · -- `stop_processing` of the task has just returned
            obtain ⟨-, -, t, ht, hdoomed⟩ := hi.callers j' _ hself
            rw [hget'] at ht
            cases ht
            exact .inl hdoomed
        · exact .inr ⟨j', p, hothers j' p heq hp, hstops⟩
    · exact .inr ⟨j, phase', hself, hstops⟩
  · rw [hm.settled]
    rcases hm.tasks i task' hget' with rfl | ⟨task, hget, hphase, -⟩
    · exact fun k next hp => (by cases hp)
    · exact (hg.delivered i task hget).of_phase hphase

theorem stopped_advance {task task' : Task} {now : Int} {settled : List Bytes} {db db' : Db}
    (ha : task.advance now settled db = some (task', db')) : task'.stopped = task.stopped := by
  unfold Task.advance at ha
  split at ha
  case h_7 =>
    split at ha
    · cases ha
      rfl
    · obtain ⟨-, heq⟩ := Option.ite_none_right_eq_some.1 ha
      cases heq
      rfl
  case h_8 =>
    obtain ⟨paymentHash, -, heq⟩ := Option.map_eq_some_iff.1 ha
    split at heq <;> cases heq <;> rfl
  all_goals
    cases ha
    try rfl

theorem Going.step {s s' : HandshakeState} {a : Action} (hg : s.Going) (h : HandshakeState.step a s = some s') : s'.Going := by
  have hi := (hg.toInv.step h).1
  cases a with
  | createOffer now o =>
    obtain ⟨-, heq⟩ := Option.ite_none_left_eq_some.1 h
    cases heq
    exact hg.same hi rfl rfl (List.prefix_refl _) (Nat.le_refl _)
  | deleteExpiredSentOffers now intervalS =>
    cases h
    exact hg.same hi rfl rfl (List.prefix_refl _) (Nat.le_refl _)
  | settle paymentHash =>
    obtain ⟨-, heq⟩ := Option.ite_none_left_eq_some.1 h
    cases heq
    exact hg.same hi rfl rfl (List.prefix_refl _) (List.prefix_append _ _).length_le
  | call c =>
    cases h
    exact hg.same hi rfl rfl (List.prefix_append _ _) (Nat.le_refl _)
  | caller j =>
    obtain ⟨phase, hj, hcaller⟩ := Option.bind_eq_some_iff.1 h
    exact hg.callerStep hj hcaller
  | thread i now =>
    obtain ⟨task, hget, h⟩ := Option.bind_eq_some_iff.1 h
    obtain ⟨⟨task', db⟩, hadvance, heq⟩ := Option.map_eq_some_iff.1 h
    cases heq
    exact hg.thread hget (Task.evolves_advance (hg.wf hget) hadvance) (stopped_advance hadvance)
      (Task.delivered_advance hadvance) db
  | fail i =>
    obtain ⟨task, hget, h⟩ := Option.bind_eq_some_iff.1 h
    obtain ⟨task', hfail, heq⟩ := Option.map_eq_some_iff.1 h
    cases heq
    have hphase : task' = { task with phase := .retrying } := by
      unfold Task.fail at hfail
      split at hfail
      · exact (Option.some.inj (Option.ite_none_left_eq_some.1 hfail).2).symm
      · cases hfail
    have he := Task.evolves_fail (hg.wf hget) hfail
    subst hphase
    exact hg.thread hget he rfl (fun k next hp => by cases hp) s.db
  | die i =>
    obtain ⟨task, hget, h⟩ := Option.bind_eq_some_iff.1 h
    obtain ⟨task', hdie, heq⟩ := Option.map_eq_some_iff.1 h
    cases heq
    have hphase : task' = { task with phase := .died } := by
      unfold Task.die at hdie
      split at hdie <;> cases hdie <;> rfl
    have he := Task.evolves_die (hg.wf hget) hdie
    subst hphase
    exact hg.thread hget he rfl (fun k next hp => by cases hp) s.db

/-! ## Somebody can go on -/

/-- A call that is inside can take its next step. -/
theorem callerStep_isSome {s : HandshakeState} (hi : s.Inv) {j : Nat} {phase : CallerPhase} (hj : s.callers[j]? = some phase)
    (hin : ¬ phase.Outside) : ∃ s', s.callerStep j phase = some s' := by
  have hfacts := hi.callers j phase hj
  cases phase with
  | clearing => exact absurd trivial hin
  | acquiring starts => exact absurd trivial hin
  | done => exact absurd trivial hin
  | locked starts =>
    rcases hcur : s.currentTask with _ | i
    · exact ⟨_, by simp only [HandshakeState.callerStep, hcur]; rfl⟩
    · exact ⟨_, by simp only [HandshakeState.callerStep, hcur]; rfl⟩
  | settingFlag starts i =>
    have hget := List.getElem?_eq_getElem (hi.current i hfacts.2)
    exact ⟨_, by simp only [HandshakeState.callerStep, hget]; rfl⟩
  | testing starts i =>
    obtain ⟨-, -, task, hget, -⟩ := hfacts
    exact ⟨_, by simp only [HandshakeState.callerStep, hget]; rfl⟩
  | reading starts i =>
    obtain ⟨-, -, task, r, hget, -, hresult⟩ := hfacts
    exact ⟨_, by simp only [HandshakeState.callerStep, hget, Option.bind_some, hresult]; rfl⟩
  | cancelling starts i k =>
    obtain ⟨-, -, task, r, hget, -⟩ := hfacts
    exact ⟨_, by simp only [HandshakeState.callerStep, hget]; rfl⟩
  | returned starts i => exact ⟨_, rfl⟩
  | creating => exact ⟨_, rfl⟩
  | releasing => exact ⟨_, rfl⟩

/-- As long as a call has not returned, some call can go on. -/
theorem Going.enabled {s : HandshakeState} (hg : s.Going) (h : (s.callers.map CallerPhase.left).sum ≠ 0) :
    Machine.Enabled HandshakeState.step (fun a => ∃ j, a = .caller j) s := by
  have hcan : ∀ (j : Nat) (phase : CallerPhase), s.callers[j]? = some phase → (∃ s', s.callerStep j phase = some s') →
      Machine.Enabled HandshakeState.step (fun a => ∃ j, a = .caller j) s := by
    rintro j phase hj ⟨s', hs'⟩
    refine ⟨.caller j, s', ⟨j, rfl⟩, ?_⟩
    simp only [HandshakeState.step, hj]
    exact hs'
  cases hlock : s.lock with
  | some j =>
    obtain ⟨phase, hj, hin⟩ := hg.holder j hlock
    exact hcan j phase hj (callerStep_isSome hg.toInv hj hin)
  | none =>
    obtain ⟨phase, hmem, hne⟩ : ∃ phase ∈ s.callers, phase.left ≠ 0 := by
      by_contra hall
      push Not at hall
      exact h (List.sum_eq_zero fun x hx => by
        obtain ⟨phase, hmem, rfl⟩ := List.mem_map.1 hx
        exact hall phase hmem)
    obtain ⟨j, hj⟩ := List.mem_iff_getElem?.1 hmem
    by_cases hin : phase.Outside
    · cases phase with
      | clearing => exact hcan j _ hj ⟨_, rfl⟩
      | acquiring starts => exact hcan j _ hj ⟨_, if_pos hlock⟩
      | done => exact absurd rfl hne
      | _ => exact hin.elim
    · -- whoever is inside has the lock
      have hheld := (hg.toInv.callers j phase hj).holds hin
      rw [hlock] at hheld
      cases hheld

/-! ## What is left comes down -/

/-- The calls have so many statements left at most. -/
def callsLeft (s : HandshakeState) : Nat := (s.callers.map CallerPhase.left).sum

/-- The thread of the task has so many left, if the task is stopped. -/
def threadLeft (i : Nat) (s : HandshakeState) : Nat :=
  match s.tasks[i]? with
  | none => 0
  | some task => if task.stopped then task.phase.left else 0

/-- A step leaves the calls as they are, unless it is one of theirs. -/
theorem callers_step {s s' : HandshakeState} {a : Action} (h : step a s = some s') :
    s'.callers = s.callers ∨ (∃ c, a = .call c) ∨ ∃ j, a = .caller j := by
  cases a with
  | call c => exact .inr (.inl ⟨c, rfl⟩)
  | caller j => exact .inr (.inr ⟨j, rfl⟩)
  | createOffer now o =>
    obtain ⟨-, heq⟩ := Option.ite_none_left_eq_some.1 h
    cases heq
    exact .inl rfl
  | deleteExpiredSentOffers now intervalS =>
    cases h
    exact .inl rfl
  | settle paymentHash =>
    obtain ⟨-, heq⟩ := Option.ite_none_left_eq_some.1 h
    cases heq
    exact .inl rfl
  | thread i now =>
    obtain ⟨task, -, h⟩ := Option.bind_eq_some_iff.1 h
    obtain ⟨r, -, heq⟩ := Option.map_eq_some_iff.1 h
    cases heq
    exact .inl rfl
  | fail i =>
    obtain ⟨task, -, h⟩ := Option.bind_eq_some_iff.1 h
    obtain ⟨r, -, heq⟩ := Option.map_eq_some_iff.1 h
    cases heq
    exact .inl rfl
  | die i =>
    obtain ⟨task, -, h⟩ := Option.bind_eq_some_iff.1 h
    obtain ⟨r, -, heq⟩ := Option.map_eq_some_iff.1 h
    cases heq
    exact .inl rfl

/-- A step of a call leaves the calls fewer statements. -/
theorem callsLeft_caller {s s' : HandshakeState} {j : Nat} (h : step (.caller j) s = some s') :
    s'.callsLeft < s.callsLeft := by
  obtain ⟨phase, hj, hcaller⟩ := Option.bind_eq_some_iff.1 h
  obtain ⟨phase', hm⟩ := moves_of_callerStep hcaller
  unfold callsLeft
  rw [hm.callers]
  exact Machine.sum_map_set_lt CallerPhase.left hj hm.left

theorem callsLeft_step {s s' : HandshakeState} {a : Action} (hcall : ∀ c, a ≠ .call c) (h : step a s = some s') :
    s'.callsLeft ≤ s.callsLeft := by
  rcases callers_step h with hsame | ⟨c, rfl⟩ | ⟨j, rfl⟩
  · rw [callsLeft, hsame]
    rfl
  · exact absurd rfl (hcall c)
  · exact (callsLeft_caller h).le

/-- All calls have returned. -/
def AllDone (s : HandshakeState) : Prop := ∀ phase ∈ s.callers, phase = .done

theorem allDone_iff {s : HandshakeState} : s.AllDone ↔ s.callsLeft = 0 := by
  unfold AllDone callsLeft
  rw [List.sum_eq_zero_iff_forall_eq_nat]
  constructor
  · intro h x hx
    obtain ⟨phase, hmem, rfl⟩ := List.mem_map.1 hx
    rw [h phase hmem]
    rfl
  · intro h phase hmem
    have hzero := h _ (List.mem_map_of_mem hmem)
    cases phase <;> simp at hzero ⊢

/-- Where all calls have returned, a stopped task uses no stream that is not cancelled. -/
theorem Going.doomed_of_allDone {s : HandshakeState} (hg : s.Going) (hd : s.AllDone) {i : Nat} {task : Task}
    (hget : s.tasks[i]? = some task) (hstopped : task.stopped = true) : task.DoomedBut none := by
  refine (hg.doomed i task hget hstopped).resolve_right ?_
  rintro ⟨j, phase, hj, hstops⟩
  rw [hd phase (List.mem_of_getElem? hj)] at hstops
  exact hstops

/-- What a step does once all calls have returned: one thread goes on, or the tasks are as they were. -/
theorem tasks_step {s s' : HandshakeState} {a : Action} (hd : s.AllDone) (hcall : ∀ c, a ≠ .call c)
    (h : step a s = some s') : (s'.tasks = s.tasks ∧ ∀ i, ¬ a.OfThread i) ∨
      ∃ (i : Nat) (task task' : Task), s.tasks[i]? = some task ∧ s'.tasks = s.tasks.set i task' ∧
        task'.stopped = task.stopped ∧ (∀ i', a.OfThread i' → i = i') ∧
        (task.DoomedBut none → task'.phase.left < task.phase.left) := by
  cases a with
  | call c => exact absurd rfl (hcall c)
  | caller j =>
    obtain ⟨phase, hj, hcaller⟩ := Option.bind_eq_some_iff.1 h
    rw [hd phase (List.mem_of_getElem? hj)] at hcaller
    cases hcaller
  | createOffer now o =>
    obtain ⟨-, heq⟩ := Option.ite_none_left_eq_some.1 h
    cases heq
    exact .inl ⟨rfl, fun _ => id⟩
  | deleteExpiredSentOffers now intervalS =>
    cases h
    exact .inl ⟨rfl, fun _ => id⟩
  | settle paymentHash =>
    obtain ⟨-, heq⟩ := Option.ite_none_left_eq_some.1 h
    cases heq
    exact .inl ⟨rfl, fun _ => id⟩
  | thread i now =>
    obtain ⟨task, hget, h⟩ := Option.bind_eq_some_iff.1 h
    obtain ⟨⟨task', db⟩, hadvance, heq⟩ := Option.map_eq_some_iff.1 h
    cases heq
    exact .inr ⟨i, task, task', hget, rfl, stopped_advance hadvance, fun _ => id,
      fun hdoomed => Task.left_advance hdoomed hadvance⟩
  | fail i =>
    obtain ⟨task, hget, h⟩ := Option.bind_eq_some_iff.1 h
    obtain ⟨task', hfail, heq⟩ := Option.map_eq_some_iff.1 h
    cases heq
    refine .inr ⟨i, task, task', hget, rfl, ?_, fun _ => id, fun hdoomed => ?_⟩
    · unfold Task.fail at hfail
      split at hfail
      · exact (Option.some.inj (Option.ite_none_left_eq_some.1 hfail).2) ▸ rfl
      · cases hfail
    · rw [Task.not_fail hdoomed] at hfail
      cases hfail
  | die i =>
    obtain ⟨task, hget, h⟩ := Option.bind_eq_some_iff.1 h
    obtain ⟨task', hdie, heq⟩ := Option.map_eq_some_iff.1 h
    cases heq
    refine .inr ⟨i, task, task', hget, rfl, ?_, fun _ => id, fun _ => Task.left_die hdie⟩
    unfold Task.die at hdie
    split at hdie <;> cases hdie <;> rfl

theorem threadLeft_set {s s' : HandshakeState} {i : Nat} {task task' : Task} (hget : s.tasks[i]? = some task)
    (hset : s'.tasks = s.tasks.set i task') (i' : Nat) :
    s'.threadLeft i' = if i' = i then (if task'.stopped then task'.phase.left else 0) else s.threadLeft i' := by
  unfold threadLeft
  rw [hset, List.getElem?_set]
  by_cases heq : i' = i
  · subst heq
    simp [(List.getElem?_eq_some_iff.1 hget).1]
  · rw [if_neg (Ne.symm heq), if_neg heq]

/-- Once all calls have returned, no step leaves the thread of a stopped task more, and its own steps leave it fewer. -/
theorem Going.threadLeft_step {s s' : HandshakeState} {a : Action} (hg : s.Going) (hd : s.AllDone)
    (hcall : ∀ c, a ≠ .call c) (h : HandshakeState.step a s = some s') (i : Nat) :
    s'.threadLeft i ≤ s.threadLeft i ∧
      (a.OfThread i → s.threadLeft i ≠ 0 → s'.threadLeft i < s.threadLeft i) := by
  rcases tasks_step hd hcall h with ⟨hsame, hother⟩ | ⟨i', task, task', hget, hset, hstopped, hown, hleft⟩
  · refine ⟨?_, fun ha => absurd ha (hother i)⟩
    unfold threadLeft
    rw [hsame]
  · rw [threadLeft_set hget hset, hstopped]
    by_cases heq : i = i'
    · subst heq
      rw [if_pos rfl]
      have hnow : s.threadLeft i = if task.stopped then task.phase.left else 0 := by
        unfold threadLeft
        rw [hget]
      rw [hnow]
      by_cases hstop : task.stopped = true
      · rw [if_pos hstop, if_pos hstop]
        have hlt := hleft (hg.doomed_of_allDone hd hget hstop)
        exact ⟨hlt.le, fun _ _ => hlt⟩
      · rw [if_neg hstop, if_neg hstop]
        exact ⟨Nat.le_refl 0, fun _ h => absurd rfl h⟩
    · rw [if_neg heq]
      exact ⟨Nat.le_refl _, fun ha => absurd (hown i ha).symm heq⟩

/-- The thread of a stopped task can go on until it has ended. -/
theorem Going.thread_enabled {s : HandshakeState} (hg : s.Going) (hd : s.AllDone) {i : Nat} (h : s.threadLeft i ≠ 0) :
    Machine.Enabled HandshakeState.step (Action.OfThread i) s := by
  unfold threadLeft at h
  cases hget : s.tasks[i]? with
  | none =>
    rw [hget] at h
    exact absurd rfl h
  | some task =>
    rw [hget] at h
    dsimp only at h
    by_cases hstop : task.stopped = true
    · rw [if_pos hstop] at h
      obtain ⟨r, hr⟩ := Task.advance_isSome (hg.doomed_of_allDone hd hget hstop) (hg.delivered i task hget) h 0 s.db
      exact ⟨.thread i 0, _, rfl, by simp only [HandshakeState.step, hget, Option.bind_some, hr]; rfl⟩
    · rw [if_neg hstop] at h
      exact absurd rfl h

end HandshakeState

/-! ## Executions -/

open HandshakeState

section Execution

variable {db : Db} {settled : List Bytes} (e : Machine.Execution HandshakeState.step (start db settled)) {n : Nat}

theorem going_at (n : Nat) : (e.state n).Going := by
  obtain ⟨history, hr⟩ := Machine.Execution.run (e := e) n
  exact hr.invariant (C := fun _ _ => True) (fun _ _ _ hg _ h => hg.step h) (going_start db settled)
    (fun _ _ => trivial) _ (List.mem_append_right _ List.mem_cons_self)

/-- In every execution in which some call goes on while one can, and each thread while it can, once the last call
is made all calls return, and the thread of every task that was stopped ends. -/
theorem stopping_settles (hcalls : ∀ m ≥ n, ∀ c, e.action m ≠ some (.call c))
    (hcallers : e.Fair fun a => ∃ j, a = .caller j) (hthreads : ∀ i, e.Fair (Action.OfThread i)) :
    ∃ m ≥ n, ∀ k ≥ m, (e.state k).AllDone ∧
      ∀ task ∈ (e.state k).tasks, task.stopped = true → task.phase = .ended ∨ task.phase = .died := by
  have hnocall : ∀ m ≥ n, ∀ a, e.action m = some a → ∀ c, a ≠ .call c := by
    rintro m hm a ha c rfl
    exact hcalls m hm c ha
  -- the calls return
  have hranks : e.Ranks (fun a => ∃ j, a = .caller j) callsLeft AllDone n := by
    refine ⟨fun m hm a ha _ => callsLeft_step (hnocall m hm a ha) (e.next m a ha), ?_⟩
    rintro m hm a ⟨j, rfl⟩ ha -
    exact callsLeft_caller (e.next m _ ha)
  obtain ⟨m, hm, hall⟩ := hcallers.reaches hranks fun m _ hne =>
    (going_at e m).enabled fun hzero => hne (allDone_iff.2 hzero)
  have hdone : ∀ k ≥ m, (e.state k).AllDone := by
    refine e.keeps (fun k hk a ha hzero => ?_) hall
    rw [allDone_iff] at hzero ⊢
    have hle := callsLeft_step (hnocall k (hm.trans hk) a ha) (e.next k a ha)
    omega
  have hlength : ∀ k ≥ m, (e.state k).tasks.length = (e.state m).tasks.length := by
    refine Machine.Execution.keeps (I := fun s : HandshakeState => s.tasks.length = (e.state m).tasks.length) (fun k hk a ha hsame => ?_) rfl
    rcases tasks_step (hdone k hk) (hnocall k (hm.trans hk) a ha) (e.next k a ha) with ⟨heq, -⟩ | ⟨i, t, t', -, heq, -⟩
    · rw [heq, hsame]
    · rw [heq, List.length_set, hsame]
  -- and then each thread of a stopped task ends
  obtain ⟨m', hm', hall⟩ := Machine.Execution.Fair.vanish hthreads
    (fun k hk a ha => (going_at e k).threadLeft_step (hdone k hk) (hnocall k (hm.trans hk) a ha) (e.next k a ha))
    (fun k hk i => (going_at e k).thread_enabled (hdone k hk)) (e.state m).tasks.length
  refine ⟨m', hm.trans hm', fun k hk => ⟨hdone k (hm'.trans hk), fun task hmem hstopped => ?_⟩⟩
  obtain ⟨i, hget⟩ := List.mem_iff_getElem?.1 hmem
  have hzero' := hall k hk i (hlength k (hm'.trans hk) ▸ (List.getElem?_eq_some_iff.1 hget).1)
  unfold threadLeft at hzero'
  rw [hget] at hzero'
  exact ThreadPhase.over_of_left ((if_pos hstopped).symm.trans hzero')

end Execution

/-- Where all calls have returned none can go on. -/
theorem HandshakeState.AllDone.not_enabled {s : HandshakeState} (h : s.AllDone) :
    ¬ Machine.Enabled HandshakeState.step (fun a => ∃ j, a = .caller j) s := by
  rintro ⟨_, s', ⟨j, rfl⟩, hstep⟩
  obtain ⟨phase, hj, hcaller⟩ := Option.bind_eq_some_iff.1 hstep
  rw [h phase (List.mem_of_getElem? hj)] at hcaller
  cases hcaller

/-- A thread that has ended cannot go on. -/
theorem not_enabled_of_ended {s : HandshakeState} (h : ∀ task ∈ s.tasks, task.phase = .ended) (i : Nat) :
    ¬ Machine.Enabled HandshakeState.step (Action.OfThread i) s := by
  rintro ⟨a, s', hthread, hstep⟩
  cases a with
  | thread i' now =>
    obtain ⟨task, hget, hthread⟩ := Option.bind_eq_some_iff.1 hstep
    obtain ⟨r, hadvance, -⟩ := Option.map_eq_some_iff.1 hthread
    unfold Task.advance at hadvance
    rw [h task (List.mem_of_getElem? hget)] at hadvance
    cases hadvance
  | fail i' =>
    obtain ⟨task, hget, hfails⟩ := Option.bind_eq_some_iff.1 hstep
    obtain ⟨r, hfail, -⟩ := Option.map_eq_some_iff.1 hfails
    unfold Task.fail at hfail
    rw [h task (List.mem_of_getElem? hget)] at hfail
    cases hfail
  | die i' =>
    obtain ⟨task, hget, hdies⟩ := Option.bind_eq_some_iff.1 hstep
    obtain ⟨r, hdie, -⟩ := Option.map_eq_some_iff.1 hdies
    unfold Task.die at hdie
    rw [h task (List.mem_of_getElem? hget)] at hdie
    cases hdie
  | _ => exact hthread

namespace Sample

/-- The task of `stoppedInAttempt`, with the rest of the calls and of its thread. -/
def stoppedForGood : List Action := stoppedInAttempt ++ [.thread 0 2, .caller 1, .caller 1] ++ restOfThread.tail

end Sample

theorem stopping_settles_sample : ∃ (e : Machine.Execution HandshakeState.step (start Db.empty [])) (m : Nat),
    (∀ k ≥ 22, (e.state k).tasks = [⟨.ended, true, some 0, [true]⟩]) ∧
    ∀ k ≥ m, (e.state k).AllDone ∧
      ∀ task ∈ (e.state k).tasks, task.stopped = true → task.phase = .ended ∨ task.phase = .died := by
  have hexec : (Machine.exec HandshakeState.step Sample.stoppedForGood (.start Db.empty [])).map (fun r =>
      (r.2.callers, r.2.tasks)) = some ([.done, .done], [⟨.ended, true, some 0, [true]⟩]) := by
    decide +kernel
  obtain ⟨⟨history, s⟩, hs, hstate⟩ := Option.map_eq_some_iff.1 hexec
  obtain ⟨hcallers, htasks⟩ : s.callers = _ ∧ s.tasks = _ := by simpa only [Prod.mk.injEq] using hstate
  have hrun := Machine.run_exec hs
  have hactions : history.map Prod.snd = Sample.stoppedForGood := Machine.actions_exec hs
  have hlength : history.length = 22 := by
    rw [← List.length_map (f := Prod.snd), hactions]
    rfl
  have hdone : s.AllDone := by
    intro phase hmem
    rw [hcallers] at hmem
    simpa using hmem
  have hended : ∀ task ∈ s.tasks, task.phase = .ended := by
    intro task hmem
    rw [htasks] at hmem
    rw [List.mem_singleton.1 hmem]
  have hcalls : ∀ m ≥ 10, ∀ c, (Machine.Execution.ofRun hrun).action m ≠ some (.call c) := by
    intro m hm c hm'
    have hget : (history.map Prod.snd)[m]? = some (.call c) :=
      List.getElem?_map.trans ((Machine.Execution.ofRun_action hrun m).symm.trans hm')
    obtain ⟨k, rfl⟩ := Nat.exists_eq_add_of_le hm
    rw [hactions, ← List.getElem?_drop] at hget
    have hmem := List.mem_of_getElem? hget
    simp [Sample.stoppedForGood, Sample.stoppedInAttempt, Sample.restOfThread] at hmem
  obtain ⟨m, -, hsettles⟩ := stopping_settles (Machine.Execution.ofRun hrun) hcalls
    (Machine.Execution.fair_ofRun hrun hdone.not_enabled)
    fun i => Machine.Execution.fair_ofRun hrun (not_enabled_of_ended hended i)
  refine ⟨Machine.Execution.ofRun hrun, m, fun k hk => ?_, hsettles⟩
  rw [Machine.Execution.ofRun_state hrun (by omega)]
  exact htasks

end StopHandshake

end Squeaknode
