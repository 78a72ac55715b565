/-
The two kinds of locks of the forwarder make no deadlock. Once the last call is made, every call of the
forwarder returns or raises, and the thread of every task that was stopped ends (`forwarding_settles`), also
of one that has dropped a live stream.

A call that has the lock of the forwarder waits for the lock of a task, whose thread gives it up after a few
statements without waiting for anything; but the thread may take it again, so that the calls need a scheduler
that lets one of them go on if again and again one can.
-/
import Squeaknode.Interleave.Progress
import Squeaknode.Node.TwitterForwarder

namespace Squeaknode

open Interleave

namespace TwitterForwarding

/-! ## What is left to the thread of a task -/

namespace ThreadPhase

/-- How many statements the thread has left at most, if its task is stopped and its stream has ended. -/
@[simp] def left : ThreadPhase → Nat
  | .ended => 0
  | .checkingStopped => 1
  | .waiting => 2
  | .clearing => 3
  | .iterating _ | .unwinding => 4
  | .makingSqueak _ | .readingStream => 5
  | .handling _ _ | .releasing => 6
  | .locked | .assigning _ => 7
  | .acquiring | .opening => 8

/-- How many statements the thread takes at most before it gives up the lock of the task. -/
@[simp] def lockLeft : ThreadPhase → Nat
  | .locked => 4
  | .opening => 3
  | .assigning _ => 2
  | .releasing | .unwinding => 1
  | _ => 0

theorem ended_of_left {phase : ThreadPhase} (h : phase.left = 0) : phase = .ended := by
  cases phase <;> simp at h ⊢

end ThreadPhase

namespace TwitterForwarderTask

/-- The stream in `tweet_stream` is finished or cancelled. -/
def StreamEnded (task : TwitterForwarderTask) : Prop := ∀ k, task.tweetStream = some k → task.streams[k]? ≠ some .live

/-- What a step of the thread does besides `ThreadStep`. -/
structure ThreadMoves (task task' : TwitterForwarderTask) : Prop where
  stopped : task'.stopped = task.stopped
  lock : (task.lock = some .thread → task.phase.HoldsLock) → task'.lock = some .thread → task'.phase.HoldsLock
  owner : ∀ j, task'.lock = some (.caller j) → task.lock = some (.caller j)
  stream : task.stopped = true → task'.tweetStream = task.tweetStream ∨ task'.tweetStream = none
  streams : task.stopped = true → task'.streams = task.streams
  left : task.stopped = true → task.StreamEnded → task'.phase.left < task.phase.left
  lockLeft : task.phase.HoldsLock → task'.phase.lockLeft < task.phase.lockLeft

theorem moves_advance {task task' : TwitterForwarderTask} {tweet : Tweet} (h : task.WF False)
    (ha : task.advance tweet = some task') : ThreadMoves task task' := by
  obtain ⟨account, stopped, tweetStream, lock, phase, streams, squeaks⟩ := task
  cases phase with
  | checkingStopped =>
    cases ha
    refine ⟨rfl, fun hl hlock => (hl hlock).elim, fun _ hj => hj, fun _ => .inl rfl, fun _ => rfl, fun hs _ => ?_,
      fun hl => hl.elim⟩
    obtain rfl : stopped = true := hs
    simp
  | acquiring =>
    obtain ⟨-, heq⟩ := Option.ite_none_right_eq_some.1 ha
    cases heq
    exact ⟨rfl, fun _ _ => trivial, fun _ hj => (by cases hj), fun _ => .inl rfl, fun _ => rfl, fun _ _ => by simp,
      fun hl => hl.elim⟩
  | locked =>
    cases ha
    refine ⟨rfl, fun _ _ => ?_, fun _ hj => hj, fun _ => .inl rfl, fun _ => rfl, fun hs _ => ?_, fun _ => ?_⟩
    · cases stopped <;> trivial
    · obtain rfl : stopped = true := hs
      simp
    · cases stopped <;> simp
  | opening =>
    cases ha
    have hrunning : stopped = false := h.opens trivial
    subst hrunning
    exact ⟨rfl, fun _ _ => trivial, fun _ hj => hj, fun hs => (by cases hs), fun hs => (by cases hs),
      fun hs => (by cases hs), fun _ => by simp⟩
  | assigning k =>
    cases ha
    have hrunning : stopped = false := h.opens trivial
    subst hrunning
    exact ⟨rfl, fun _ _ => trivial, fun _ hj => hj, fun hs => (by cases hs), fun hs => (by cases hs),
      fun hs => (by cases hs), fun _ => by simp⟩
  | releasing =>
    cases ha
    exact ⟨rfl, fun _ hl => (by cases hl), fun _ hj => (by cases hj), fun _ => .inl rfl, fun _ => rfl, fun _ _ => by simp,
      fun _ => by simp⟩
  | unwinding =>
    cases ha
    exact ⟨rfl, fun _ hl => (by cases hl), fun _ hj => (by cases hj), fun _ => .inl rfl, fun _ => rfl, fun _ _ => by simp,
      fun _ => by simp⟩
  | readingStream =>
    cases tweetStream <;> cases ha <;>
      exact ⟨rfl, fun hl hlock => (hl hlock).elim, fun _ hj => hj, fun _ => .inl rfl, fun _ => rfl, fun _ _ => by simp,
        fun hl => hl.elim⟩
  | iterating k =>
    have hstream := h.uses k rfl
    by_cases hlive : streams[k]? = some .live
    · simp only [advance, if_pos hlive] at ha
      cases ha
      exact ⟨rfl, fun hl hlock => (hl hlock).elim, fun _ hj => hj, fun _ => .inl rfl, fun _ => rfl,
        fun _ hended => absurd hlive (hended k hstream), fun hl => hl.elim⟩
    · simp only [advance, if_neg hlive] at ha
      cases ha
      exact ⟨rfl, fun hl hlock => (hl hlock).elim, fun _ hj => hj, fun _ => .inl rfl, fun _ => rfl, fun _ _ => by simp,
        fun hl => hl.elim⟩
  | handling k tweet =>
    obtain ⟨phase, squeaks', heq, hphase⟩ :=
      handleTweet_cases k tweet ⟨account, stopped, tweetStream, lock, .handling k tweet, streams, squeaks⟩
    simp only [advance, Option.some.injEq] at ha
    rw [ha] at heq
    subst heq
    refine ⟨rfl, fun hl hlock => (hl hlock).elim, fun _ hj => hj, fun _ => .inl rfl, fun _ => rfl, fun _ _ => ?_,
      fun hl => hl.elim⟩
    rcases hphase with rfl | rfl | rfl <;> simp
  | makingSqueak k =>
    cases ha
    exact ⟨rfl, fun hl hlock => (hl hlock).elim, fun _ hj => hj, fun _ => .inl rfl, fun _ => rfl, fun _ _ => by simp,
      fun hl => hl.elim⟩
  | clearing =>
    cases ha
    exact ⟨rfl, fun hl hlock => (hl hlock).elim, fun _ hj => hj, fun _ => .inr rfl, fun _ => rfl, fun _ _ => by simp,
      fun hl => hl.elim⟩
  | waiting =>
    cases ha
    exact ⟨rfl, fun hl hlock => (hl hlock).elim, fun _ hj => hj, fun _ => .inl rfl, fun _ => rfl, fun _ _ => by simp,
      fun hl => hl.elim⟩
  | ended => cases ha

theorem moves_fail {task task' : TwitterForwarderTask} (hf : task.fail = some task') : ThreadMoves task task' := by
  obtain ⟨account, stopped, tweetStream, lock, phase, streams, squeaks⟩ := task
  unfold fail at hf
  split at hf
  · rename_i hphase
    cases hphase
    cases hf
    exact ⟨rfl, fun _ _ => trivial, fun _ hj => hj, fun _ => .inl rfl, fun _ => rfl, fun _ _ => by simp, fun _ => by simp⟩
  · rename_i k hphase
    cases hphase
    obtain ⟨-, heq⟩ := Option.ite_none_left_eq_some.1 hf
    cases heq
    exact ⟨rfl, fun hl hlock => (hl hlock).elim, fun _ hj => hj, fun _ => .inl rfl, fun _ => rfl, fun _ _ => by simp,
      fun hl => hl.elim⟩
  · rename_i k hphase
    cases hphase
    cases hf
    exact ⟨rfl, fun hl hlock => (hl hlock).elim, fun _ hj => hj, fun _ => .inl rfl, fun _ => rfl, fun _ _ => by simp,
      fun hl => hl.elim⟩
  · cases hf

/-- The thread can go on, unless it waits for the lock. -/
theorem advance_isSome {task : TwitterForwarderTask} (hleft : task.phase.left ≠ 0)
    (hlock : task.phase = .acquiring → task.lock = none) (tweet : Tweet) : ∃ task', task.advance tweet = some task' := by
  obtain ⟨account, stopped, tweetStream, lock, phase, streams, squeaks⟩ := task
  cases phase with
  | acquiring => exact ⟨_, if_pos (hlock rfl)⟩
  | readingStream => cases tweetStream <;> exact ⟨_, rfl⟩
  | iterating k =>
    by_cases hlive : streams[k]? = some .live
    · exact ⟨_, if_pos hlive⟩
    · exact ⟨_, if_neg hlive⟩
  | ended => exact absurd rfl hleft
  | _ => exact ⟨_, rfl⟩

end TwitterForwarderTask

/-! ## What is left to a call in `stop_processing` -/

namespace StopPhase

/-- How many steps a call has left. -/
@[simp] def left : StopPhase → Nat
  | .returned | .raised => 0
  | .releasing | .unwinding => 1
  | .cancelling _ => 2
  | .reading => 3
  | .testing => 4
  | .settingFlag => 5
  | .acquiring => 6

/-- The call has the lock of the task. -/
def Inside : StopPhase → Prop
  | .acquiring | .returned | .raised => False
  | _ => True

/-- The call is about to cancel the stream in `tweet_stream`. -/
def Cancels (task : TwitterForwarderTask) : StopPhase → Prop
  | .testing | .reading => True
  | .cancelling k => ∀ k', task.tweetStream = some k' → k' = k
  | _ => False

theorem Cancels.inside {task : TwitterForwarderTask} {phase : StopPhase} (h : phase.Cancels task) : phase.Inside := by
  cases phase <;> trivial

theorem Cancels.moved {task task' : TwitterForwarderTask} {phase : StopPhase} (h : phase.Cancels task)
    (hstream : task'.tweetStream = task.tweetStream ∨ task'.tweetStream = none) : phase.Cancels task' := by
  cases phase with
  | cancelling k =>
    intro k' hk'
    rcases hstream with heq | hnone
    · exact h k' (heq ▸ hk')
    · cases hnone.symm.trans hk'
  | testing => trivial
  | reading => trivial
  | _ => exact h.elim

end StopPhase

namespace TwitterForwarderTask

theorem StreamEnded.moved {task task' : TwitterForwarderTask} (h : task.StreamEnded)
    (hstream : task'.tweetStream = task.tweetStream ∨ task'.tweetStream = none)
    (hlive : ∀ k : Nat, task'.streams[k]? = some .live → task.streams[k]? = some .live) : task'.StreamEnded := by
  intro k hk hk'
  rcases hstream with heq | hnone
  · exact h k (heq ▸ hk) (hlive k hk')
  · cases hnone.symm.trans hk

/-- What a statement of `stop_processing` does besides `stopStep_spec`. -/
structure StopMoves (j : Nat) (phase phase' : StopPhase) (task task' : TwitterForwarderTask) : Prop where
  left : phase'.left < phase.left
  thread : task'.phase = task.phase
  lock : (task'.lock = some (.caller j) ∧ phase'.Inside) ∨ task'.lock = none
  doomed : task'.stopped = true → (task.stopped = true → task.StreamEnded ∨ phase.Cancels task) →
    task'.StreamEnded ∨ phase'.Cancels task'

theorem moves_stopStep {task task' : TwitterForwarderTask} {j : Nat} {phase phase' : StopPhase}
    (hfacts : phase.Facts False j task) (hs : task.stopStep j phase = some (task', phase')) :
    StopMoves j phase phase' task task' := by
  cases phase with
  | acquiring =>
    obtain ⟨-, heq⟩ := Option.ite_none_right_eq_some.1 hs
    cases heq
    exact ⟨by simp, rfl, .inl ⟨rfl, trivial⟩, fun hstop hd => .inl ((hd hstop).resolve_right id)⟩
  | settingFlag =>
    cases hs
    exact ⟨by simp, rfl, .inl ⟨hfacts, trivial⟩, fun _ _ => .inr trivial⟩
  | testing =>
    cases hs
    rcases hstream : task.tweetStream with _ | k
    · exact ⟨by simp, rfl, .inl ⟨hfacts.1, trivial⟩, fun _ _ => .inl fun k hk => (by cases hstream.symm.trans hk)⟩
    · exact ⟨by simp, rfl, .inl ⟨hfacts.1, trivial⟩, fun _ _ => .inr trivial⟩
  | reading =>
    rcases hstream : task.tweetStream with _ | k <;> simp only [stopStep, hstream] at hs <;> cases hs
    · exact ⟨by simp, rfl, .inl ⟨hfacts.1, trivial⟩, fun _ _ => .inl fun k hk => (by cases hstream.symm.trans hk)⟩
    · refine ⟨by simp, rfl, .inl ⟨hfacts.1, trivial⟩, fun _ _ => .inr fun k' hk' => ?_⟩
      exact Option.some.inj (hk'.symm.trans hstream)
  | cancelling k =>
    cases hs
    refine ⟨by simp, rfl, .inl ⟨hfacts.1, trivial⟩, fun hstop hd => .inl fun k' hk' hlive => ?_⟩
    obtain ⟨hne, hlive'⟩ := live_of_cancel hlive
    rcases hd hstop with hended | hcancels
    · exact hended k' hk' hlive'
    · exact hne (hcancels k' hk')
  | releasing =>
    cases hs
    exact ⟨by simp, rfl, .inr rfl, fun hstop hd => .inl ((hd hstop).resolve_right id)⟩
  | unwinding =>
    cases hs
    exact ⟨by simp, rfl, .inr rfl, fun hstop hd => .inl ((hd hstop).resolve_right id)⟩
  | returned => cases hs
  | raised => cases hs

/-- A call in `stop_processing` can go on, unless it waits for the lock. -/
theorem stopStep_isSome {task : TwitterForwarderTask} {phase : StopPhase} (hleft : phase.left ≠ 0)
    (hlock : phase = .acquiring → task.lock = none) (j : Nat) : ∃ r, task.stopStep j phase = some r := by
  cases phase with
  | acquiring => exact ⟨_, if_pos (hlock rfl)⟩
  | reading =>
    rcases hstream : task.tweetStream with _ | k
    · exact ⟨_, by simp only [stopStep, hstream]; rfl⟩
    · exact ⟨_, by simp only [stopStep, hstream]; rfl⟩
  | returned => exact absurd rfl hleft
  | raised => exact absurd rfl hleft
  | _ => exact ⟨_, rfl⟩

end TwitterForwarderTask

/-! ## What is left to a call -/

namespace CallerPhase

/-- How much is still to come whose size is not known yet: the entries of `current_tasks`, and the accounts. -/
@[simp] def pending : CallerPhase → Nat
  | .acquiring _ => 2
  | .stopping _ _ | .stoppingTask _ _ _ _ _ | .listing => 1
  | _ => 0

/-- How many statements the call has left at most, as far as their number is known. -/
@[simp] def left : CallerPhase → Nat
  | .stopping _ todo => 3 + 8 * todo.length
  | .stoppingTask _ _ _ todo phase => 4 + 8 * todo.length + phase.left
  | .listing => 2
  | .creating accounts => 2 + accounts.length
  | .releasing | .unwinding => 1
  | _ => 0

/-- The call has returned or raised. -/
def Over : CallerPhase → Prop
  | .returned | .raised => True
  | _ => False

/-- Where the call is in `stop_processing` of the task `i`. -/
def stop (i : Nat) : CallerPhase → Option StopPhase
  | .stoppingTask _ _ i' _ phase => if i' = i then some phase else none
  | _ => none

/-- The call has not got the lock of a task. -/
def Unlocked (phase : CallerPhase) : Prop := ∀ i stop, phase.stop i = some stop → ¬ stop.Inside

theorem over_of_outside {phase : CallerPhase} (h : phase.Outside) (hne : ¬ phase.Over) :
    ∃ starts, phase = .acquiring starts := by
  cases phase with
  | acquiring starts => exact ⟨starts, rfl⟩
  | returned => exact absurd trivial hne
  | raised => exact absurd trivial hne
  | _ => exact h.elim

theorem stop_eq {phase : CallerPhase} {i : Nat} {stop : StopPhase} (h : phase.stop i = some stop) :
    ∃ starts handle todo, phase = .stoppingTask starts handle i todo stop := by
  cases phase with
  | stoppingTask starts handle i' todo phase =>
    obtain ⟨rfl, heq⟩ := Option.ite_none_right_eq_some.1 h
    cases heq
    exact ⟨starts, handle, todo, rfl⟩
  | _ => cases h

end CallerPhase

/-- The action is one of a call. -/
def Action.OfCall : Action → Prop
  | .caller _ | .accounts _ _ | .callerFails _ => True
  | _ => False

/-- The action is one of the thread of the task `i`. -/
def Action.OfThread (i : Nat) : Action → Prop
  | .thread i' _ | .fail i' => i' = i
  | _ => False

namespace TwitterForwarder

/-- What the calls have left, those with something of unknown size to come first. -/
def callsLeft (s : TwitterForwarder) : Nat ×ₗ Nat :=
  toLex ((s.callers.map CallerPhase.pending).sum, (s.callers.map CallerPhase.left).sum)

theorem callsLeft_set {s s' : TwitterForwarder} {j : Nat} {phase phase' : CallerPhase} (hj : s.callers[j]? = some phase)
    (hcallers : s'.callers = s.callers.set j phase')
    (hlt : phase'.pending < phase.pending ∨ phase'.pending = phase.pending ∧ phase'.left < phase.left) :
    s'.callsLeft < s.callsLeft := by
  unfold callsLeft
  rw [Prod.Lex.toLex_lt_toLex, hcallers]
  rcases hlt with hpending | ⟨hpending, hleft⟩
  · exact .inl (Machine.sum_map_set_lt CallerPhase.pending hj hpending)
  · refine .inr ⟨?_, Machine.sum_map_set_lt CallerPhase.left hj hleft⟩
    exact congrArg List.sum (Machine.map_set_eq CallerPhase.pending hj hpending)

/-! ## The invariant -/

/-- Whoever has a lock is where it is to be given up, the entries are tasks, and the stream of a stopped task has
ended or a call is about to cancel it. -/
structure Going (s : TwitterForwarder) : Prop extends Inv (fun _ => False) s where
  holder : ∀ j, s.lock = some j → ∃ phase : CallerPhase, s.callers[j]? = some phase ∧ ¬ phase.Outside
  entries : ∀ entry ∈ s.currentTasks, entry.2 < s.tasks.length
  locks : ∀ (i : Nat) (task : TwitterForwarderTask), s.tasks[i]? = some task → task.lock = some .thread →
    task.phase.HoldsLock
  owners : ∀ (i : Nat) (task : TwitterForwarderTask) (j : Nat), s.tasks[i]? = some task → task.lock = some (.caller j) →
    ∃ (phase : CallerPhase) (stop : StopPhase), s.callers[j]? = some phase ∧ phase.stop i = some stop ∧ stop.Inside
  doomed : ∀ (i : Nat) (task : TwitterForwarderTask), s.tasks[i]? = some task → task.stopped = true → task.StreamEnded ∨
    ∃ (j : Nat) (phase : CallerPhase) (stop : StopPhase), s.callers[j]? = some phase ∧ phase.stop i = some stop ∧
      stop.Cancels task

theorem going_start : start.Going :=
  ⟨inv_start _, fun j hj => (by cases hj), fun entry hentry => (by cases hentry), fun i task hget => (by cases hget),
    fun i task j hget => (by cases hget), fun i task hget => (by cases hget)⟩

/-- A new call. -/
theorem Going.call {s : TwitterForwarder} (hg : s.Going) {callers : List CallerPhase}
    (hi : Inv (fun _ => False) { s with callers := s.callers ++ callers }) :
    Going { s with callers := s.callers ++ callers } := by
  have hsome : ∀ (j : Nat) phase, s.callers[j]? = some phase → (s.callers ++ callers)[j]? = some phase := by
    intro j phase hj
    rw [List.getElem?_append_left (List.getElem?_eq_some_iff.1 hj).1]
    exact hj
  refine ⟨hi, fun j hj => ?_, hg.entries, hg.locks, fun i task j hget hlock => ?_, fun i task hget hstop => ?_⟩
  · obtain ⟨phase, hphase, hin⟩ := hg.holder j hj
    exact ⟨phase, hsome j phase hphase, hin⟩
  · obtain ⟨phase, stop, hphase, hstop, hin⟩ := hg.owners i task j hget hlock
    exact ⟨phase, stop, hsome j phase hphase, hstop, hin⟩
  · refine (hg.doomed i task hget hstop).imp_right ?_
    rintro ⟨j, phase, stop, hphase, hstop, hcancels⟩
    exact ⟨j, phase, stop, hsome j phase hphase, hstop, hcancels⟩

/-- A step that changes a task, but none of the calls. -/
theorem Going.setTask {s : TwitterForwarder} (hg : s.Going) {i : Nat} {task task' : TwitterForwarderTask}
    (hi : (s.setTask i task').Inv fun _ => False) (hget : s.tasks[i]? = some task) (hstopped : task'.stopped = task.stopped)
    (hlock : task'.lock = some .thread → task'.phase.HoldsLock)
    (howner : ∀ j, task'.lock = some (.caller j) → task.lock = some (.caller j))
    (hstream : task.stopped = true → task'.tweetStream = task.tweetStream ∨ task'.tweetStream = none)
    (hlive : task.stopped = true → ∀ k : Nat, task'.streams[k]? = some .live → task.streams[k]? = some .live) :
    (s.setTask i task').Going := by
  refine ⟨hi, hg.holder, fun entry hentry => ?_, fun i' t hget' hl => ?_, fun i' t j hget' hl => ?_,
    fun i' t hget' hstop => ?_⟩
  · show entry.2 < (s.tasks.set i task').length
    rw [List.length_set]
    exact hg.entries entry hentry
  · rcases Machine.getElem?_set_cases hget' with ⟨rfl, rfl⟩ | ⟨-, hget'⟩
    · exact hlock hl
    · exact hg.locks i' t hget' hl
  · rcases Machine.getElem?_set_cases hget' with ⟨rfl, rfl⟩ | ⟨-, hget'⟩
    · exact hg.owners _ task j hget (howner j hl)
    · exact hg.owners i' t j hget' hl
  · rcases Machine.getElem?_set_cases hget' with ⟨rfl, rfl⟩ | ⟨-, hget'⟩
    · rw [hstopped] at hstop
      rcases hg.doomed _ task hget hstop with hended | ⟨j, phase, stop, hj, hstopping, hcancels⟩
      · exact .inl (hended.moved (hstream hstop) (hlive hstop))
      · exact .inr ⟨j, phase, stop, hj, hstopping, hcancels.moved (hstream hstop)⟩
    · exact hg.doomed i' t hget' hstop

/-! ## The steps of the calls -/

/-- A step of the call `j` that changes no task, and for which it neither needs nor gets the lock of one. -/
theorem Going.plain {s s' : TwitterForwarder} (hg : s.Going) (hi : s'.Inv fun _ => False) {j : Nat}
    {phase phase' : CallerPhase} (hj : s.callers[j]? = some phase) (hcallers : s'.callers = s.callers.set j phase')
    (hunlocked : phase.Unlocked)
    (hlock : (s'.lock = s.lock ∧ (phase'.Outside → phase.Outside)) ∨ (s'.lock = some j ∧ ¬ phase'.Outside) ∨ s'.lock = none)
    (hentries : ∀ entry ∈ s'.currentTasks, entry.2 < s'.tasks.length)
    (htasks : ∀ (i : Nat) (t : TwitterForwarderTask), s'.tasks[i]? = some t →
      s.tasks[i]? = some t ∨ ∃ account, t = .new account) :
    s'.Going := by
  have hself : s'.callers[j]? = some phase' := by
    rw [hcallers]
    exact List.getElem?_set_self (List.getElem?_eq_some_iff.1 hj).1
  have hothers : ∀ (j' : Nat) p, j' ≠ j → s.callers[j']? = some p → s'.callers[j']? = some p := by
    intro j' p hne hp
    rw [hcallers, List.getElem?_set_ne (Ne.symm hne)]
    exact hp
  -- who has the lock of a task is another call
  have hkept : ∀ (j' : Nat) (p : CallerPhase) (i : Nat) stop, s.callers[j']? = some p → p.stop i = some stop →
      stop.Inside → s'.callers[j']? = some p := by
    intro j' p i stop hp hstop hin
    refine hothers j' p ?_ hp
    rintro rfl
    rw [hj] at hp
    cases hp
    exact hunlocked i stop hstop hin
  refine ⟨hi, fun j' hj' => ?_, hentries, fun i t hget hl => ?_, fun i t j' hget hl => ?_, fun i t hget hstop => ?_⟩
  · rcases hlock with ⟨hlock, hout⟩ | ⟨hlock, hin⟩ | hlock
    · obtain ⟨p, hp, hin⟩ := hg.holder j' (hlock ▸ hj')
      by_cases heq : j' = j
      · subst heq
        rw [hj] at hp
        cases hp
        exact ⟨phase', hself, fun hout' => hin (hout hout')⟩
      · exact ⟨p, hothers j' p heq hp, hin⟩
    · obtain rfl : j = j' := Option.some.inj (hlock.symm.trans hj')
      exact ⟨phase', hself, hin⟩
    · cases hlock.symm.trans hj'
  · rcases htasks i t hget with hget | ⟨account, rfl⟩
    · exact hg.locks i t hget hl
    · cases hl
  · rcases htasks i t hget with hget | ⟨account, rfl⟩
    · obtain ⟨p, stop, hp, hstop, hin⟩ := hg.owners i t j' hget hl
      exact ⟨p, stop, hkept j' p i stop hp hstop hin, hstop, hin⟩
    · cases hl
  · rcases htasks i t hget with hget | ⟨account, rfl⟩
    · refine (hg.doomed i t hget hstop).imp_right ?_
      rintro ⟨j', p, stop, hp, hstop, hcancels⟩
      exact ⟨j', p, stop, hkept j' p i stop hp hstop hcancels.inside, hstop, hcancels⟩
    · cases hstop

/-- A statement of `stop_processing` of a task. -/
theorem Going.stopStep {s s' : TwitterForwarder} (hg : s.Going) (hi : s'.Inv fun _ => False) {j i : Nat} {starts : Bool}
    {handle : String} {todo : List (String × Nat)} {stop stop' : StopPhase} {task task' : TwitterForwarderTask}
    (hj : s.callers[j]? = some (.stoppingTask starts handle i todo stop)) (hget : s.tasks[i]? = some task)
    (hs : task.stopStep j stop = some (task', stop'))
    (hs' : s' = (s.setTask i task').setCaller j (.stoppingTask starts handle i todo stop')) : s'.Going := by
  obtain ⟨hlock, -, hfacts⟩ := hg.callers j _ hj
  have hm := TwitterForwarderTask.moves_stopStep (hfacts task hget) hs
  subst hs'
  have hself : (s.callers.set j (.stoppingTask starts handle i todo stop'))[j]? =
      some (.stoppingTask starts handle i todo stop') :=
    List.getElem?_set_self (List.getElem?_eq_some_iff.1 hj).1
  have hstop' : (CallerPhase.stoppingTask starts handle i todo stop').stop i = some stop' := if_pos rfl
  -- no other call is in `stop_processing`
  have honly : ∀ (j' : Nat) (p : CallerPhase) (i' : Nat) st, s.callers[j']? = some p → p.stop i' = some st →
      j' = j ∧ i' = i ∧ st = stop := by
    intro j' p i' st hp hst
    obtain ⟨starts', handle', todo', rfl⟩ := CallerPhase.stop_eq hst
    obtain rfl : j' = j := Option.some.inj ((hg.callers j' _ hp).1.symm.trans hlock)
    rw [hj] at hp
    cases hp
    exact ⟨rfl, rfl, rfl⟩
  refine ⟨hi, fun j' hj' => ?_, fun entry hentry => ?_, fun i' t hget' hl => ?_, fun i' t j' hget' hl => ?_,
    fun i' t hget' hstop => ?_⟩
  · obtain rfl : j = j' := Option.some.inj (hlock.symm.trans hj')
    exact ⟨_, hself, id⟩
  · show entry.2 < (s.tasks.set i task').length
    rw [List.length_set]
    exact hg.entries entry hentry
  · rcases Machine.getElem?_set_cases hget' with ⟨rfl, rfl⟩ | ⟨-, hget'⟩
    · rcases hm.lock with ⟨hcaller, -⟩ | hnone
      · cases hcaller.symm.trans hl
      · cases hnone.symm.trans hl
    · exact hg.locks i' t hget' hl
  · rcases Machine.getElem?_set_cases hget' with ⟨rfl, rfl⟩ | ⟨hne, hget'⟩
    · rcases hm.lock with ⟨hcaller, hin⟩ | hnone
      · cases hcaller.symm.trans hl
        exact ⟨_, stop', hself, hstop', hin⟩
      · cases hnone.symm.trans hl
    · obtain ⟨p, st, hp, hst, -⟩ := hg.owners i' t j' hget' hl
      exact absurd (honly j' p i' st hp hst).2.1 hne
  · rcases Machine.getElem?_set_cases hget' with ⟨rfl, rfl⟩ | ⟨hne, hget'⟩
    · refine (hm.doomed hstop fun hstopped => ?_).imp_right fun hcancels => ⟨j, _, stop', hself, hstop', hcancels⟩
      refine (hg.doomed _ task hget hstopped).imp_right ?_
      rintro ⟨j', p, st, hp, hst, hcancels⟩
      obtain ⟨-, -, rfl⟩ := honly j' p _ st hp hst
      exact hcancels
    · refine (hg.doomed i' t hget' hstop).imp_right ?_
      rintro ⟨j', p, st, hp, hst, -⟩
      exact absurd (honly j' p i' st hp hst).2.1 hne

/-- A step of a call keeps the invariant and leaves the calls less. -/
theorem Going.callerStep {s s' : TwitterForwarder} (hg : s.Going) (hi : s'.Inv fun _ => False) {j : Nat}
    {phase : CallerPhase}
    (hj : s.callers[j]? = some phase) (h : s.callerStep j phase = some s') : s'.Going ∧ s'.callsLeft < s.callsLeft := by
  cases phase with
  | acquiring starts =>
    obtain ⟨-, heq⟩ := Option.ite_none_right_eq_some.1 h
    cases heq
    exact ⟨hg.plain hi hj rfl (fun i stop hstop => by cases hstop) (.inr (.inl ⟨rfl, id⟩)) hg.entries
      (fun i t ht => .inl ht),
      callsLeft_set hj rfl (.inl (by simp))⟩
  | stopping starts todo =>
    rcases todo with _ | ⟨⟨handle, i⟩, todo⟩ <;> cases h
    · refine ⟨hg.plain hi hj rfl (fun i stop hstop => by cases hstop) (.inl ⟨rfl, ?_⟩) hg.entries (fun i t ht => .inl ht),
        callsLeft_set hj rfl ?_⟩ <;> cases starts
      · exact id
      · exact id
      · exact .inl (by simp)
      · exact .inr ⟨rfl, by simp⟩
    · refine ⟨hg.plain hi hj rfl (fun i stop hstop => by cases hstop) (.inl ⟨rfl, id⟩) hg.entries (fun i t ht => .inl ht),
        callsLeft_set hj rfl (.inr ⟨rfl, ?_⟩)⟩
      simp only [CallerPhase.left, StopPhase.left, List.length_cons]
      omega
  | stoppingTask starts handle i todo phase =>
    cases phase with
    | returned =>
      cases h
      refine ⟨hg.plain hi hj rfl (fun i stop hstop => ?_) (.inl ⟨rfl, id⟩)
        (fun entry hentry => hg.entries entry (List.mem_of_mem_eraseP hentry)) (fun i t ht => .inl ht),
        callsLeft_set hj rfl (.inr ⟨rfl, ?_⟩)⟩
      · obtain ⟨-, heq⟩ := Option.ite_none_right_eq_some.1 hstop
        cases heq
        exact id
      · simp only [CallerPhase.left, StopPhase.left]
        omega
    | raised =>
      cases h
      refine ⟨hg.plain hi hj rfl (fun i stop hstop => ?_) (.inl ⟨rfl, id⟩) hg.entries (fun i t ht => .inl ht),
        callsLeft_set hj rfl (.inl (by simp))⟩
      obtain ⟨-, heq⟩ := Option.ite_none_right_eq_some.1 hstop
      cases heq
      exact id
    | _ =>
      obtain ⟨task, hget, h⟩ := Option.bind_eq_some_iff.1 h
      obtain ⟨⟨task', stop'⟩, hs, heq⟩ := Option.map_eq_some_iff.1 h
      refine ⟨hg.stopStep hi hj hget hs heq.symm, ?_⟩
      obtain ⟨-, -, hfacts⟩ := hg.callers j _ hj
      have hleft := (TwitterForwarderTask.moves_stopStep (hfacts task hget) hs).left
      subst heq
      refine callsLeft_set hj rfl (.inr ⟨rfl, ?_⟩)
      simp only [CallerPhase.left]
      omega
  | listing => cases h
  | creating accounts =>
    cases accounts with
    | nil =>
      cases h
      exact ⟨hg.plain hi hj rfl (fun i stop hstop => by cases hstop) (.inl ⟨rfl, id⟩) hg.entries (fun i t ht => .inl ht),
        callsLeft_set hj rfl (.inr ⟨rfl, by simp⟩)⟩
    | cons account accounts =>
      obtain ⟨-, -, hfresh⟩ := hg.callers j _ hj
      have habsent : ∀ entry ∈ s.currentTasks, entry.1 ≠ account.handle := by
        intro entry hentry heq
        exact hfresh entry hentry (heq ▸ List.mem_cons_self)
      cases h
      rw [putTask_absent (s := { s with tasks := s.tasks ++ [.new account] }) habsent] at hi ⊢
      refine ⟨hg.plain hi hj rfl (fun i stop hstop => by cases hstop) (.inl ⟨rfl, id⟩) (fun entry hentry => ?_)
        (fun i t ht => ?_), callsLeft_set hj rfl (.inr ⟨rfl, by simp⟩)⟩
      · show entry.2 < (s.tasks ++ [TwitterForwarderTask.new account]).length
        rw [List.length_append]
        rcases List.mem_append.1 hentry with hentry | hentry
        · exact Nat.lt_of_lt_of_le (hg.entries entry hentry) (Nat.le_add_right _ _)
        · rw [List.mem_singleton.1 hentry]
          simp
      · rcases Machine.getElem?_concat_cases ht with ⟨-, rfl⟩ | ⟨-, ht⟩
        · exact .inr ⟨account, rfl⟩
        · exact .inl ht
  | releasing =>
    cases h
    exact ⟨hg.plain hi hj rfl (fun i stop hstop => by cases hstop) (.inr (.inr rfl)) hg.entries (fun i t ht => .inl ht),
      callsLeft_set hj rfl (.inr ⟨rfl, by simp⟩)⟩
  | unwinding =>
    cases h
    exact ⟨hg.plain hi hj rfl (fun i stop hstop => by cases hstop) (.inr (.inr rfl)) hg.entries (fun i t ht => .inl ht),
      callsLeft_set hj rfl (.inr ⟨rfl, by simp⟩)⟩
  | returned => cases h
  | raised => cases h

/-- So does every step of a call, also one at which something raises. -/
theorem Going.callStep {s s' : TwitterForwarder} {a : Action} (hg : s.Going) (ha : a.OfCall)
    (h : TwitterForwarder.step a s = some s') : s'.Going ∧ s'.callsLeft < s.callsLeft := by
  have hi := (hg.toInv.step (fun _ hk => hk.elim) h).1
  cases a with
  | caller j =>
    obtain ⟨phase, hj, hcaller⟩ := Option.bind_eq_some_iff.1 h
    exact hg.callerStep hi hj hcaller
  | accounts j accounts =>
    obtain ⟨⟨hj, -⟩, heq⟩ := Option.ite_none_right_eq_some.1 h
    cases heq
    exact ⟨hg.plain hi hj rfl (fun i stop hstop => by cases hstop) (.inl ⟨rfl, id⟩) hg.entries (fun i t ht => .inl ht),
      callsLeft_set hj rfl (.inl (by simp))⟩
  | callerFails j =>
    simp only [TwitterForwarder.step] at h
    split at h
    · rename_i hj
      cases h
      exact ⟨hg.plain hi hj rfl (fun i stop hstop => by cases hstop) (.inl ⟨rfl, id⟩) hg.entries (fun i t ht => .inl ht),
        callsLeft_set hj rfl (.inl (by simp))⟩
    · rename_i account accounts hj
      cases h
      refine ⟨hg.plain hi hj rfl (fun i stop hstop => by cases hstop) (.inl ⟨rfl, id⟩) hg.entries (fun i t ht => .inl ht),
        callsLeft_set hj rfl (.inr ⟨rfl, ?_⟩)⟩
      simp only [CallerPhase.left, List.length_cons]
      omega
    · cases h
  | _ => exact ha.elim

/-! ## The steps of the threads -/

/-- Any other step but a new call is one of the thread of a task, or the end of one of its streams. -/
theorem Going.taskStep {s s' : TwitterForwarder} {a : Action} (hg : s.Going) (hcall : ∀ c, a ≠ .call c) (ha : ¬ a.OfCall)
    (h : TwitterForwarder.step a s = some s') :
    ∃ (i : Nat) (task task' : TwitterForwarderTask), s.tasks[i]? = some task ∧ s' = s.setTask i task' ∧
      ((TwitterForwarderTask.ThreadMoves task task' ∧ ∀ i', a.OfThread i' → i = i') ∨
        ((∃ k, task.streamEnds k = some task') ∧ ∀ i', ¬ a.OfThread i')) := by
  cases a with
  | call c => exact absurd rfl (hcall c)
  | thread i tweet =>
    obtain ⟨task, hget, h⟩ := Option.bind_eq_some_iff.1 h
    obtain ⟨task', hadvance, heq⟩ := Option.map_eq_some_iff.1 h
    exact ⟨i, task, task', hget, heq.symm, .inl ⟨TwitterForwarderTask.moves_advance (hg.tasks i task hget) hadvance,
      fun _ => id⟩⟩
  | fail i =>
    obtain ⟨task, hget, h⟩ := Option.bind_eq_some_iff.1 h
    obtain ⟨task', hfail, heq⟩ := Option.map_eq_some_iff.1 h
    exact ⟨i, task, task', hget, heq.symm, .inl ⟨TwitterForwarderTask.moves_fail hfail, fun _ => id⟩⟩
  | streamEnds i k =>
    obtain ⟨task, hget, h⟩ := Option.bind_eq_some_iff.1 h
    obtain ⟨task', hends, heq⟩ := Option.map_eq_some_iff.1 h
    exact ⟨i, task, task', hget, heq.symm, .inr ⟨⟨k, hends⟩, fun _ => id⟩⟩
  | _ => exact absurd trivial ha

theorem Going.step {s s' : TwitterForwarder} {a : Action} (hg : s.Going) (h : TwitterForwarder.step a s = some s') :
    s'.Going := by
  have hi := (hg.toInv.step (fun _ hk => hk.elim) h).1
  by_cases hcall : ∃ c, a = .call c
  · obtain ⟨c, rfl⟩ := hcall
    cases h
    exact hg.call hi
  · have hnocall : ∀ c, a ≠ .call c := fun c hc => hcall ⟨c, hc⟩
    by_cases ha : a.OfCall
    · exact (hg.callStep ha h).1
    · obtain ⟨i, task, task', hget, rfl, ⟨hm, -⟩ | ⟨⟨k, hends⟩, -⟩⟩ := hg.taskStep hnocall ha h
      · refine hg.setTask hi hget hm.stopped (hm.lock (hg.locks i task hget)) hm.owner hm.stream fun hs k hk => ?_
        rw [hm.streams hs] at hk
        exact hk
      · obtain ⟨-, heq⟩ := Option.ite_none_right_eq_some.1 hends
        cases heq
        refine hg.setTask hi hget rfl (hg.locks i task hget) (fun _ hj => hj) (fun _ => .inl rfl) fun _ k' hk' => ?_
        rcases Machine.getElem?_set_cases hk' with ⟨-, heq⟩ | ⟨-, hk'⟩
        · cases heq
        · exact hk'

/-! ## Who can go on -/

/-- All calls have returned or raised. -/
def AllOver (s : TwitterForwarder) : Prop := ∀ phase ∈ s.callers, phase.Over

/-- A call that has the lock of the forwarder can go on, unless it waits for the lock of a task. -/
theorem Going.holder_enabled {s : TwitterForwarder} (hg : s.Going) {j : Nat} {phase : CallerPhase}
    (hj : s.callers[j]? = some phase) (hin : ¬ phase.Outside) :
    Machine.Enabled TwitterForwarder.step Action.OfCall s ∨
      ∃ (i : Nat) (task : TwitterForwarderTask), phase.stop i = some .acquiring ∧ s.tasks[i]? = some task ∧
        task.phase.HoldsLock := by
  have hcan : (∃ s', s.callerStep j phase = some s') → Machine.Enabled TwitterForwarder.step Action.OfCall s := by
    rintro ⟨s', hs'⟩
    refine ⟨.caller j, s', trivial, ?_⟩
    simp only [TwitterForwarder.step, hj]
    exact hs'
  have hfacts := hg.callers j phase hj
  cases phase with
  | acquiring starts => exact absurd trivial hin
  | returned => exact absurd trivial hin
  | raised => exact absurd trivial hin
  | stopping starts todo =>
    rcases todo with _ | ⟨⟨handle, i⟩, todo⟩
    · exact .inl (hcan ⟨_, rfl⟩)
    · exact .inl (hcan ⟨_, rfl⟩)
  | listing => exact .inl ⟨.accounts j [], _, trivial, if_pos ⟨hj, List.nodup_nil⟩⟩
  | creating accounts =>
    rcases accounts with _ | ⟨account, accounts⟩
    · exact .inl (hcan ⟨_, rfl⟩)
    · exact .inl (hcan ⟨_, rfl⟩)
  | releasing => exact .inl (hcan ⟨_, rfl⟩)
  | unwinding => exact .inl (hcan ⟨_, rfl⟩)
  | stoppingTask starts handle i todo phase =>
    obtain ⟨hlock, hcurrent, -⟩ := hfacts
    have hlt : i < s.tasks.length := hg.entries (handle, i) (hcurrent ▸ List.mem_cons_self)
    have hget := List.getElem?_eq_getElem hlt
    -- a statement of `stop_processing` that is not blocked
    have hstop : phase.left ≠ 0 → (phase = .acquiring → s.tasks[i].lock = none) →
        ∃ s', s.callerStep j (.stoppingTask starts handle i todo phase) = some s' := by
      intro hleft hfree
      obtain ⟨r, hr⟩ := TwitterForwarderTask.stopStep_isSome hleft hfree j
      cases phase with
      | returned => exact absurd rfl hleft
      | raised => exact absurd rfl hleft
      | _ => exact ⟨_, by simp only [TwitterForwarder.callerStep, hget, Option.bind_some, hr]; rfl⟩
    cases phase with
    | returned => exact .inl (hcan ⟨_, rfl⟩)
    | raised => exact .inl (hcan ⟨_, rfl⟩)
    | acquiring =>
      cases howner : s.tasks[i].lock with
      | none => exact .inl (hcan (hstop (by simp) fun _ => howner))
      | some owner =>
        cases owner with
        | thread => exact .inr ⟨i, s.tasks[i], if_pos rfl, hget, hg.locks i _ hget howner⟩
        | caller j' =>
          -- only this call is in `stop_processing` at all
          obtain ⟨p, stop, hj', hstop', hinside⟩ := hg.owners i _ j' hget howner
          obtain ⟨starts', handle', todo', rfl⟩ := CallerPhase.stop_eq hstop'
          obtain rfl : j' = j := Option.some.inj ((hg.callers j' _ hj').1.symm.trans hlock)
          rw [hj] at hj'
          cases hj'
          exact hinside.elim
    | _ => exact .inl (hcan (hstop (by simp) fun h => by cases h))

/-- As long as a call is not over, some call can go on, or the one with the lock waits for the thread of a task. -/
theorem Going.enabled {s : TwitterForwarder} (hg : s.Going) (h : ¬ s.AllOver) :
    Machine.Enabled TwitterForwarder.step Action.OfCall s ∨
      ∃ (j i : Nat) (phase : CallerPhase) (task : TwitterForwarderTask), s.lock = some j ∧ s.callers[j]? = some phase ∧
        phase.stop i = some .acquiring ∧ s.tasks[i]? = some task ∧ task.phase.HoldsLock := by
  cases hlock : s.lock with
  | some j =>
    obtain ⟨phase, hj, hin⟩ := hg.holder j hlock
    refine (hg.holder_enabled hj hin).imp_right ?_
    rintro ⟨i, task, hstop, hget, hholds⟩
    exact ⟨j, i, phase, task, rfl, hj, hstop, hget, hholds⟩
  | none =>
    obtain ⟨phase, hmem, hne⟩ : ∃ phase ∈ s.callers, ¬ phase.Over := by
      by_contra hall
      push Not at hall
      exact h hall
    obtain ⟨j, hj⟩ := List.mem_iff_getElem?.1 hmem
    by_cases hin : phase.Outside
    · obtain ⟨starts, rfl⟩ := CallerPhase.over_of_outside hin hne
      refine .inl ⟨.caller j, setCaller j (.stopping starts s.currentTasks) { s with lock := some j }, trivial, ?_⟩
      simp only [TwitterForwarder.step, hj, Option.bind_some]
      exact if_pos hlock
    · -- whoever is inside has the lock
      have hheld := (hg.callers j phase hj).holds hin
      rw [hlock] at hheld
      cases hheld

/-! ## What is left comes down -/

/-- The thread of the task gives up the lock in so many statements. -/
def lockLeft (i : Nat) (s : TwitterForwarder) : Nat :=
  match s.tasks[i]? with
  | none => 0
  | some task => task.phase.lockLeft

/-- The thread of the task has so many statements left, if the task is stopped. -/
def threadLeft (i : Nat) (s : TwitterForwarder) : Nat :=
  match s.tasks[i]? with
  | none => 0
  | some task => if task.stopped then task.phase.left else 0

theorem callsLeft_step {s s' : TwitterForwarder} {a : Action} (hg : s.Going) (hcall : ∀ c, a ≠ .call c)
    (h : TwitterForwarder.step a s = some s') : s'.callsLeft ≤ s.callsLeft := by
  by_cases ha : a.OfCall
  · exact (hg.callStep ha h).2.le
  · obtain ⟨i, task, task', -, rfl, -⟩ := hg.taskStep hcall ha h
    exact le_refl _

theorem lockLeft_set {s : TwitterForwarder} {i : Nat} {task task' : TwitterForwarderTask} (hget : s.tasks[i]? = some task)
    (i' : Nat) : (s.setTask i task').lockLeft i' = if i' = i then task'.phase.lockLeft else s.lockLeft i' := by
  unfold lockLeft setTask
  rw [List.getElem?_set]
  by_cases heq : i' = i
  · subst heq
    simp [(List.getElem?_eq_some_iff.1 hget).1]
  · rw [if_neg (Ne.symm heq), if_neg heq]

theorem threadLeft_set {s : TwitterForwarder} {i : Nat} {task task' : TwitterForwarderTask} (hget : s.tasks[i]? = some task)
    (i' : Nat) : (s.setTask i task').threadLeft i' =
      if i' = i then (if task'.stopped then task'.phase.left else 0) else s.threadLeft i' := by
  unfold threadLeft setTask
  rw [List.getElem?_set]
  by_cases heq : i' = i
  · subst heq
    simp [(List.getElem?_eq_some_iff.1 hget).1]
  · rw [if_neg (Ne.symm heq), if_neg heq]

/-- A thread that has the lock of its task comes closer to giving it up. -/
theorem Going.lockLeft_step {s s' : TwitterForwarder} {a : Action} (hg : s.Going) (hcall : ∀ c, a ≠ .call c)
    (ha : ¬ a.OfCall) (h : TwitterForwarder.step a s = some s') {i : Nat} {task : TwitterForwarderTask}
    (hget : s.tasks[i]? = some task) (hholds : task.phase.HoldsLock) :
    s'.lockLeft i ≤ s.lockLeft i ∧ (a.OfThread i → s'.lockLeft i < s.lockLeft i) := by
  have hnow : s.lockLeft i = task.phase.lockLeft := by
    unfold lockLeft
    rw [hget]
  obtain ⟨i', t, t', hget', rfl, hcases⟩ := hg.taskStep hcall ha h
  rw [lockLeft_set hget']
  by_cases heq : i = i'
  · subst heq
    rw [hget] at hget'
    cases hget'
    rw [if_pos rfl, hnow]
    rcases hcases with ⟨hm, -⟩ | ⟨⟨k, hends⟩, hother⟩
    · have hlt := hm.lockLeft hholds
      exact ⟨hlt.le, fun _ => hlt⟩
    · obtain ⟨-, heq⟩ := Option.ite_none_right_eq_some.1 hends
      cases heq
      exact ⟨Nat.le_refl _, fun hthread => absurd hthread (hother i)⟩
  · rw [if_neg heq]
    refine ⟨Nat.le_refl _, fun hthread => ?_⟩
    rcases hcases with ⟨-, hown⟩ | ⟨-, hother⟩
    · exact absurd (hown i hthread).symm heq
    · exact absurd hthread (hother i)

/-- Where all calls are over, the stream of a stopped task has ended. -/
theorem Going.ended_of_allOver {s : TwitterForwarder} (hg : s.Going)
    (ho : s.AllOver) {i : Nat} {task : TwitterForwarderTask}
    (hget : s.tasks[i]? = some task) (hstopped : task.stopped = true) : task.StreamEnded := by
  refine (hg.doomed i task hget hstopped).resolve_right ?_
  rintro ⟨j, phase, stop, hj, hstop, -⟩
  obtain ⟨starts, handle, todo, rfl⟩ := CallerPhase.stop_eq hstop
  exact ho _ (List.mem_of_getElem? hj)

/-- Where all calls are over none can go on. -/
theorem AllOver.not_enabled {s : TwitterForwarder} (ho : s.AllOver) :
    ¬ Machine.Enabled TwitterForwarder.step Action.OfCall s := by
  rintro ⟨a, s', ha, h⟩
  cases a with
  | caller j =>
    obtain ⟨phase, hj, hcaller⟩ := Option.bind_eq_some_iff.1 h
    have hover := ho phase (List.mem_of_getElem? hj)
    cases phase with
    | returned => cases hcaller
    | raised => cases hcaller
    | _ => exact hover
  | accounts j accounts =>
    obtain ⟨⟨hj, -⟩, -⟩ := Option.ite_none_right_eq_some.1 h
    exact ho _ (List.mem_of_getElem? hj)
  | callerFails j =>
    simp only [TwitterForwarder.step] at h
    split at h
    · rename_i hj
      exact ho _ (List.mem_of_getElem? hj)
    · rename_i account accounts hj
      exact ho _ (List.mem_of_getElem? hj)
    · cases h
  | _ => exact ha

/-- Once all calls are over, no step leaves the thread of a stopped task more, and its own steps leave it fewer. -/
theorem Going.threadLeft_step {s s' : TwitterForwarder} {a : Action} (hg : s.Going) (ho : s.AllOver)
    (hcall : ∀ c, a ≠ .call c) (h : TwitterForwarder.step a s = some s') (i : Nat) :
    s'.threadLeft i ≤ s.threadLeft i ∧ (a.OfThread i → s.threadLeft i ≠ 0 → s'.threadLeft i < s.threadLeft i) := by
  obtain ⟨i', task, task', hget, rfl, hcases⟩ :=
    hg.taskStep hcall (fun ha => ho.not_enabled ⟨a, s', ha, h⟩) h
  rw [threadLeft_set hget]
  by_cases heq : i = i'
  · subst heq
    have hnow : s.threadLeft i = if task.stopped then task.phase.left else 0 := by
      unfold threadLeft
      rw [hget]
    rw [if_pos rfl, hnow]
    rcases hcases with ⟨hm, -⟩ | ⟨⟨k, hends⟩, hother⟩
    · rw [hm.stopped]
      by_cases hstop : task.stopped = true
      · rw [if_pos hstop, if_pos hstop]
        have hlt := hm.left hstop (hg.ended_of_allOver ho hget hstop)
        exact ⟨hlt.le, fun _ _ => hlt⟩
      · rw [if_neg hstop, if_neg hstop]
        exact ⟨Nat.le_refl 0, fun _ hne => absurd rfl hne⟩
    · obtain ⟨-, heq⟩ := Option.ite_none_right_eq_some.1 hends
      cases heq
      exact ⟨Nat.le_refl _, fun hthread => absurd hthread (hother i)⟩
  · rw [if_neg heq]
    refine ⟨Nat.le_refl _, fun hthread => ?_⟩
    rcases hcases with ⟨-, hown⟩ | ⟨-, hother⟩
    · exact absurd (hown i hthread).symm heq
    · exact absurd hthread (hother i)

/-- A thread that waits for nothing can take its next step. -/
theorem thread_enabled {s : TwitterForwarder} {i : Nat} {task : TwitterForwarderTask} (hget : s.tasks[i]? = some task)
    (hleft : task.phase.left ≠ 0) (hlock : task.phase = .acquiring → task.lock = none) :
    Machine.Enabled TwitterForwarder.step (Action.OfThread i) s := by
  obtain ⟨task', hadvance⟩ := TwitterForwarderTask.advance_isSome hleft hlock ⟨none, none⟩
  exact ⟨.thread i ⟨none, none⟩, s.setTask i task', rfl,
    by simp only [TwitterForwarder.step, hget, Option.bind_some, hadvance]; rfl⟩

/-- Where all calls are over, the lock of a task is free when its thread asks for it. -/
theorem Going.lock_free {s : TwitterForwarder} (hg : s.Going) (ho : s.AllOver) {i : Nat} {task : TwitterForwarderTask}
    (hget : s.tasks[i]? = some task) (hphase : task.phase = .acquiring) : task.lock = none := by
  cases howner : task.lock with
  | none => rfl
  | some owner =>
    cases owner with
    | thread =>
      have hholds := hg.locks i task hget howner
      rw [hphase] at hholds
      exact hholds.elim
    | caller j =>
      obtain ⟨phase, stop, hj, hstop, -⟩ := hg.owners i task j hget howner
      obtain ⟨starts, handle, todo, rfl⟩ := CallerPhase.stop_eq hstop
      exact (ho _ (List.mem_of_getElem? hj)).elim

/-- The thread of a stopped task can go on until it has ended. -/
theorem Going.threadLeft_enabled {s : TwitterForwarder} (hg : s.Going) (ho : s.AllOver) {i : Nat} (h : s.threadLeft i ≠ 0) :
    Machine.Enabled TwitterForwarder.step (Action.OfThread i) s := by
  unfold threadLeft at h
  cases hget : s.tasks[i]? with
  | none =>
    rw [hget] at h
    exact absurd rfl h
  | some task =>
    rw [hget] at h
    refine thread_enabled hget (fun hleft => h ?_) (hg.lock_free ho hget)
    dsimp only
    rw [hleft, ite_self]

end TwitterForwarder

/-! ## Executions -/

open TwitterForwarder

section Execution

variable (e : Machine.Execution TwitterForwarder.step TwitterForwarder.start) {n : Nat}

theorem going_at (n : Nat) : (e.state n).Going := by
  obtain ⟨history, hr⟩ := Machine.Execution.run (e := e) n
  exact hr.invariant (C := fun _ _ => True) (fun _ _ _ hg _ h => hg.step h) going_start
    (fun _ _ => trivial) _ (List.mem_append_right _ List.mem_cons_self)

/-- Again and again some call can go on, until all are over: a thread that has the lock of its task gives it up. -/
theorem calls_enabled (hnocall : ∀ m ≥ n, ∀ a, e.action m = some a → ∀ c, a ≠ .call c)
    (hthreads : ∀ i, e.Fair (Action.OfThread i)) (hne : ¬ (e.state n).AllOver) :
    ∃ m ≥ n, (e.state m).AllOver ∨ Machine.Enabled TwitterForwarder.step Action.OfCall (e.state m) := by
  by_contra hnever
  have hblocked : ∀ m ≥ n, ¬ Machine.Enabled TwitterForwarder.step Action.OfCall (e.state m) :=
    fun m hm hen => hnever ⟨m, hm, .inr hen⟩
  have hother : ∀ m ≥ n, ∀ a, e.action m = some a → ¬ a.OfCall :=
    fun m hm a ha hcall => hblocked m hm ⟨a, _, hcall, e.next m a ha⟩
  -- the calls stay where they are
  have hsame : ∀ m ≥ n, (e.state m).lock = (e.state n).lock ∧ (e.state m).callers = (e.state n).callers := by
    refine Machine.Execution.keeps
      (I := fun s : TwitterForwarder => s.lock = (e.state n).lock ∧ s.callers = (e.state n).callers)
      (fun m hm a ha hsame => ?_) ⟨rfl, rfl⟩
    obtain ⟨i, task, task', -, heq, -⟩ := (going_at e m).taskStep (hnocall m hm a ha) (hother m hm a ha) (e.next m a ha)
    rw [heq]
    exact hsame
  obtain ⟨j, i, phase, -, hlock, hj, hstop, -⟩ := ((going_at e n).enabled hne).resolve_left (hblocked n (Nat.le_refl n))
  -- and the thread of the task `i` has the lock
  have hholds : ∀ m ≥ n, ∃ task : TwitterForwarderTask, (e.state m).tasks[i]? = some task ∧ task.phase.HoldsLock := by
    intro m hm
    have hne' : ¬ (e.state m).AllOver := fun ho => hnever ⟨m, hm, .inl ho⟩
    obtain ⟨j', i', phase', task, hlock', hj', hstop', hget, hholds⟩ :=
      ((going_at e m).enabled hne').resolve_left (hblocked m hm)
    rw [(hsame m hm).1, hlock] at hlock'
    cases hlock'
    rw [(hsame m hm).2, hj] at hj'
    cases hj'
    obtain ⟨starts, handle, todo, rfl⟩ := CallerPhase.stop_eq hstop
    obtain ⟨rfl, -⟩ := Option.ite_none_right_eq_some.1 hstop'
    exact ⟨task, hget, hholds⟩
  have hstep : ∀ m ≥ n, ∀ a, e.action m = some a → (e.state (m + 1)).lockLeft i ≤ (e.state m).lockLeft i ∧
      (a.OfThread i → (e.state (m + 1)).lockLeft i < (e.state m).lockLeft i) := by
    intro m hm a ha
    obtain ⟨task, hget, hhold⟩ := hholds m hm
    exact (going_at e m).lockLeft_step (hnocall m hm a ha) (hother m hm a ha) (e.next m a ha) hget hhold
  have hranks : e.Ranks (Action.OfThread i) (lockLeft i) (fun _ => False) n :=
    ⟨fun m hm a ha _ => (hstep m hm a ha).1, fun m hm a hA ha _ => (hstep m hm a ha).2 hA⟩
  obtain ⟨m, -, hfalse⟩ := (hthreads i).reaches hranks fun m hm _ => by
    obtain ⟨task, hget, hhold⟩ := hholds m hm
    refine thread_enabled hget (fun hleft => ?_) fun hphase => ?_
    · rw [ThreadPhase.ended_of_left hleft] at hhold
      exact hhold
    · rw [hphase] at hhold
      exact hhold.elim
  exact hfalse

end Execution

/-- A thread that has ended cannot go on. -/
theorem not_enabled_of_ended {s : TwitterForwarder} (h : ∀ task ∈ s.tasks, task.phase = .ended) (i : Nat) :
    ¬ Machine.Enabled TwitterForwarder.step (Action.OfThread i) s := by
  rintro ⟨a, s', hthread, hstep⟩
  cases a with
  | thread i' tweet =>
    obtain ⟨task, hget, hthread⟩ := Option.bind_eq_some_iff.1 hstep
    obtain ⟨task', hadvance, -⟩ := Option.map_eq_some_iff.1 hthread
    unfold TwitterForwarderTask.advance at hadvance
    rw [h task (List.mem_of_getElem? hget)] at hadvance
    cases hadvance
  | fail i' =>
    obtain ⟨task, hget, hfails⟩ := Option.bind_eq_some_iff.1 hstep
    obtain ⟨task', hfail, -⟩ := Option.map_eq_some_iff.1 hfails
    unfold TwitterForwarderTask.fail at hfail
    rw [h task (List.mem_of_getElem? hget)] at hfail
    cases hfail
  | _ => exact hthread

namespace Sample

/-- The task that has dropped a live stream is stopped, and the call and the thread go on to their end. -/
def stoppedForGood : List Action :=
  handlerRaises ++ stoppedAfterRetry ++ List.replicate 3 (.caller 1) ++ List.replicate 3 (.thread 0 tweet)

end Sample

end TwitterForwarding

end Squeaknode
