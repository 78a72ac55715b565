/-
The forwarder, with a task for each Twitter account. `start_processing` and `stop_processing` stop the tasks in
`current_tasks` one after the other, under the lock of the forwarder; `restart` is `start_processing` in a
thread of its own. Any number of calls run next to the threads of the tasks, and every exception goes where
the source lets it go: `stop_processing` of a task may find `tweet_stream` cleared under its hands, in which
case the whole call ends and the tasks that are left keep running.

In every run at most one task of a handle is not stopped. As long as no thread drops a live stream, a task
opens no stream next to a live one, and once it is stopped all its streams have ended (`forwarding_leaks_no_stream`).
The `except` branch of the task does drop one, when a tweet makes the handler raise (`handler_exception_leaks`).
-/
import Squeaknode.Node.TwitterForwarderTask
import Mathlib.Data.List.Nodup

namespace Squeaknode

open Interleave

namespace TwitterForwarding

/-- The calls of the forwarder. -/
inductive Call where
  | startProcessing
  | stopProcessing
  | restart
  deriving DecidableEq

/-- Where a call is; `starts` tells `start_processing` from `stop_processing`, and `todo` are the entries of
`current_tasks` that are left to stop. -/
inductive CallerPhase where
  /-- before `with self.lock` -/
  | acquiring (starts : Bool)
  /-- before the next entry of `list(self.current_tasks.items())` -/
  | stopping (starts : Bool) (todo : List (String × Nat))
  /-- in `task.stop_processing()`; when that has returned, before `del self.current_tasks[handle]` -/
  | stoppingTask (starts : Bool) (handle : String) (i : Nat) (todo : List (String × Nat)) (phase : StopPhase)
  /-- before `self.squeak_store.get_twitter_accounts()` -/
  | listing
  /-- before the task of the next account -/
  | creating (accounts : List TwitterAccountEntry)
  | releasing
  /-- something has raised, and the lock is still held -/
  | unwinding
  | returned
  | raised
  deriving DecidableEq

/-- Where a call begins. -/
def Call.entry : Call → CallerPhase
  | .startProcessing => .acquiring true
  | .stopProcessing => .acquiring false
  | .restart => .acquiring true

/-- The tasks that were ever created, the entries of `current_tasks`, the lock, and the calls. -/
structure TwitterForwarder where
  tasks : List TwitterForwarderTask
  currentTasks : List (String × Nat)
  lock : Option Nat
  callers : List CallerPhase
  deriving DecidableEq

/-- The next step of a call, a task or a stream. -/
inductive Action where
  | call (c : Call)
  /-- the next step of a call -/
  | caller (j : Nat)
  /-- the call reads the accounts -/
  | accounts (j : Nat) (accounts : List TwitterAccountEntry)
  /-- the database raises, or the thread of a new task does not start -/
  | callerFails (j : Nat)
  /-- the next step of the thread of a task; `tweet` is what its stream delivers -/
  | thread (i : Nat) (tweet : Tweet)
  | fail (i : Nat)
  | streamEnds (i k : Nat)
  deriving DecidableEq

namespace TwitterForwarder

/-- A forwarder without tasks. -/
def start : TwitterForwarder := ⟨[], [], none, []⟩

/-- Call `j` is now in `phase`. -/
def setCaller (j : Nat) (phase : CallerPhase) (s : TwitterForwarder) : TwitterForwarder :=
  { s with callers := s.callers.set j phase }

/-- Task `i` is now `task`. -/
def setTask (i : Nat) (task : TwitterForwarderTask) (s : TwitterForwarder) : TwitterForwarder :=
  { s with tasks := s.tasks.set i task }

/-- `del self.current_tasks[handle]` -/
def delTask (handle : String) (s : TwitterForwarder) : TwitterForwarder :=
  { s with currentTasks := s.currentTasks.eraseP fun entry => entry.1 = handle }

/-- `self.current_tasks[handle] = task` -/
def putTask (handle : String) (i : Nat) (s : TwitterForwarder) : TwitterForwarder :=
  if s.currentTasks.any fun entry => entry.1 = handle then
    { s with currentTasks := s.currentTasks.map fun entry => if entry.1 = handle then (handle, i) else entry }
  else { s with currentTasks := s.currentTasks ++ [(handle, i)] }

/-- The next step of the call `j`. A task is created, started and entered in one step: no other call comes in
between, and its thread may take its first step any time later. -/
def callerStep (j : Nat) (phase : CallerPhase) (s : TwitterForwarder) : Option TwitterForwarder :=
  match phase with
  | .acquiring starts =>
    if s.lock = none then some (setCaller j (.stopping starts s.currentTasks) { s with lock := some j }) else none
  | .stopping starts [] => some (s.setCaller j (if starts then .listing else .releasing))
  | .stopping starts ((handle, i) :: todo) => some (s.setCaller j (.stoppingTask starts handle i todo .acquiring))
  | .stoppingTask starts handle _ todo .returned => some ((s.delTask handle).setCaller j (.stopping starts todo))
  | .stoppingTask _ _ _ _ .raised => some (s.setCaller j .unwinding)
  | .stoppingTask starts handle i todo phase => (s.tasks[i]?).bind fun task => (task.stopStep j phase).map fun r =>
    (s.setTask i r.1).setCaller j (.stoppingTask starts handle i todo r.2)
  | .listing => none
  | .creating [] => some (s.setCaller j .releasing)
  | .creating (account :: accounts) =>
    some ((putTask account.handle s.tasks.length { s with tasks := s.tasks ++ [.new account] }).setCaller j
      (.creating accounts))
  | .releasing => some (setCaller j .returned { s with lock := none })
  | .unwinding => some (setCaller j .raised { s with lock := none })
  | .returned => none
  | .raised => none

/-- A step of one party. The column `handle` of the accounts is unique, so that no two accounts that are read
have one handle. -/
def step : Action → TwitterForwarder → Option TwitterForwarder
  | .call c, s => some { s with callers := s.callers ++ [c.entry] }
  | .caller j, s => (s.callers[j]?).bind fun phase => s.callerStep j phase
  | .accounts j accounts, s =>
    if s.callers[j]? = some .listing ∧ (accounts.map TwitterAccountEntry.handle).Nodup then
      some (s.setCaller j (.creating accounts))
    else none
  | .callerFails j, s => match s.callers[j]? with
    | some .listing => some (s.setCaller j .unwinding)
    | some (.creating (_ :: _)) => some (s.setCaller j .unwinding)
    | _ => none
  | .thread i tweet, s => (s.tasks[i]?).bind fun task => (task.advance tweet).map fun task' => s.setTask i task'
  | .fail i, s => (s.tasks[i]?).bind fun task => task.fail.map fun task' => s.setTask i task'
  | .streamEnds i k, s => (s.tasks[i]?).bind fun task => (task.streamEnds k).map fun task' => s.setTask i task'

/-! ## Running tasks and live streams -/

/-- At most one task of a handle is not stopped. -/
def OneRunning (s : TwitterForwarder) : Prop :=
  ∀ (i i' : Nat) (task task' : TwitterForwarderTask), s.tasks[i]? = some task → s.tasks[i']? = some task' →
    task.stopped = false → task'.stopped = false → task.twitterAccount.handle = task'.twitterAccount.handle → i = i'

/-- Where the task is about to open a stream, those it has opened are finished or cancelled. -/
def OpensAlone (i : Nat) (s : TwitterForwarder) : Prop :=
  ∀ task, s.tasks[i]? = some task → task.phase = .opening → task.AllEnded

/-- The action makes the thread of the task drop a stream that is neither finished nor cancelled. -/
def DropsLive (i : Nat) (s : TwitterForwarder) (a : Action) : Prop :=
  ∃ tweet task, a = .thread i tweet ∧ s.tasks[i]? = some task ∧ task.DropsLive

/-- All streams of the task have ended, and since it was `task` it has turned at most the tweet that was in hand
into a squeak. -/
def Drained (i : Nat) (task : TwitterForwarderTask) (s : TwitterForwarder) : Prop :=
  ∃ task', s.tasks[i]? = some task' ∧ task'.AllEnded ∧
    task'.squeaks ++ task'.inHand.toList = task.squeaks ++ task.inHand.toList

end TwitterForwarder

/-! ## The invariant -/

/-- A call without the lock. -/
def CallerPhase.Outside : CallerPhase → Prop
  | .acquiring _ | .returned | .raised => True
  | _ => False

open TwitterForwarder

/-- What the call `j` relies on. It has the lock from when it acquires it; what is left to stop is what is left
in `current_tasks`, and the accounts that are left have no task there. -/
def CallerPhase.Facts (kept : Nat → Prop) (s : TwitterForwarder) (j : Nat) : CallerPhase → Prop
  | .acquiring _ | .returned | .raised => True
  | .stopping _ todo => s.lock = some j ∧ s.currentTasks = todo
  | .stoppingTask _ handle i todo phase => s.lock = some j ∧ s.currentTasks = (handle, i) :: todo ∧
    ∀ task, s.tasks[i]? = some task → phase.Facts (kept i) j task
  | .listing => s.lock = some j ∧ s.currentTasks = []
  | .creating accounts => s.lock = some j ∧ (accounts.map TwitterAccountEntry.handle).Nodup ∧
    ∀ entry ∈ s.currentTasks, entry.1 ∉ accounts.map TwitterAccountEntry.handle
  | .releasing | .unwinding => s.lock = some j

namespace TwitterForwarder

/-- The tasks that are not stopped are entries of `current_tasks`, one for each handle. If a task is `kept` its
thread has dropped no live stream. -/
structure Inv (kept : Nat → Prop) (s : TwitterForwarder) : Prop where
  tasks : ∀ (i : Nat) (task : TwitterForwarderTask), s.tasks[i]? = some task → task.WF (kept i)
  keys : (s.currentTasks.map Prod.fst).Nodup
  running : ∀ (i : Nat) (task : TwitterForwarderTask), s.tasks[i]? = some task → task.stopped = false →
    (task.twitterAccount.handle, i) ∈ s.currentTasks
  callers : ∀ (j : Nat) (phase : CallerPhase), s.callers[j]? = some phase → phase.Facts kept s j

/-- Every task is still there, as it may have become. -/
def Evolve (s s' : TwitterForwarder) : Prop :=
  ∀ (i : Nat) (task : TwitterForwarderTask), s.tasks[i]? = some task → ∃ task', s'.tasks[i]? = some task' ∧
    task.Evolves task'

theorem evolve_same {s s' : TwitterForwarder} (h : s'.tasks = s.tasks) : Evolve s s' := by
  show Machine.Evolved TwitterForwarderTask.Evolves s.tasks s'.tasks
  rw [h]
  exact .refl fun t _ => .refl t

theorem evolve_set {s s' : TwitterForwarder} {i : Nat} {task task' : TwitterForwarderTask} (hget : s.tasks[i]? = some task)
    (he : task.Evolves task') (h : s'.tasks = s.tasks.set i task') : Evolve s s' := by
  have hset : Machine.Evolved TwitterForwarderTask.Evolves s.tasks (s.tasks.set i task') :=
    .set (fun t _ => .refl t) hget he
  rwa [← h] at hset

theorem evolve_add {s s' : TwitterForwarder} (task : TwitterForwarderTask) (h : s'.tasks = s.tasks ++ [task]) :
    Evolve s s' := by
  have hadd : Machine.Evolved TwitterForwarderTask.Evolves s.tasks (s.tasks ++ [task]) := .concat (fun t _ => .refl t) task
  rwa [← h] at hadd

end TwitterForwarder

theorem CallerPhase.Facts.outside {kept : Nat → Prop} {s : TwitterForwarder} {j : Nat} {phase : CallerPhase}
    (h : phase.Outside) : phase.Facts kept s j := by
  cases phase <;> trivial

/-- A call that is not outside has the lock. -/
theorem CallerPhase.Facts.holds {kept : Nat → Prop} {s : TwitterForwarder} {j : Nat} {phase : CallerPhase}
    (h : phase.Facts kept s j) (hout : ¬ phase.Outside) : s.lock = some j := by
  cases phase with
  | acquiring starts => exact absurd trivial hout
  | returned => exact absurd trivial hout
  | raised => exact absurd trivial hout
  | releasing => exact h
  | unwinding => exact h
  | _ => exact h.1

/-- What a call relies on withstands the step of a thread. -/
theorem CallerPhase.Facts.thread {kept : Nat → Prop} {s : TwitterForwarder} {j i : Nat} {phase : CallerPhase}
    {task task' : TwitterForwarderTask} (h : phase.Facts kept s j) (hget : s.tasks[i]? = some task)
    (ht : TwitterForwarderTask.ThreadStep (kept i) task task') : phase.Facts kept (s.setTask i task') j := by
  cases phase with
  | stoppingTask starts handle i' todo phase =>
    obtain ⟨hlock, hcurrent, hfacts⟩ := h
    refine ⟨hlock, hcurrent, fun t hget' => ?_⟩
    rcases Machine.getElem?_set_cases hget' with ⟨rfl, rfl⟩ | ⟨-, hget'⟩
    · exact (hfacts task hget).thread ht
    · exact hfacts t hget'
  | _ => exact h

namespace TwitterForwarder

/-! ## The steps of the threads -/

theorem Inv.tasks_set {kept : Nat → Prop} {s : TwitterForwarder} (hi : s.Inv kept) {i : Nat} {task' : TwitterForwarderTask}
    (hwf : task'.WF (kept i)) (i' : Nat) (t : TwitterForwarderTask) (ht : (s.tasks.set i task')[i']? = some t) :
    t.WF (kept i') := by
  rcases Machine.getElem?_set_cases ht with ⟨rfl, rfl⟩ | ⟨-, ht⟩
  · exact hwf
  · exact hi.tasks i' t ht

theorem Inv.running_set {kept : Nat → Prop} {s : TwitterForwarder} (hi : s.Inv kept) {i : Nat}
    {task task' : TwitterForwarderTask} (hget : s.tasks[i]? = some task) (he : task.Evolves task') (i' : Nat)
    (t : TwitterForwarderTask) (ht : (s.tasks.set i task')[i']? = some t) (hstopped : t.stopped = false) :
    (t.twitterAccount.handle, i') ∈ s.currentTasks := by
  rcases Machine.getElem?_set_cases ht with ⟨rfl, rfl⟩ | ⟨-, ht⟩
  · rw [he.account]
    refine hi.running _ task hget ?_
    rw [← Bool.not_eq_true]
    intro hs
    cases hstopped.symm.trans (he.stopped hs)
  · exact hi.running i' t ht hstopped

/-- A step of the thread of a task, or the end of one of its streams. -/
theorem Inv.thread {kept : Nat → Prop} {s : TwitterForwarder} (hi : s.Inv kept) {i : Nat}
    {task task' : TwitterForwarderTask} (hget : s.tasks[i]? = some task)
    (ht : TwitterForwarderTask.ThreadStep (kept i) task task') :
    (s.setTask i task').Inv kept ∧ Evolve s (s.setTask i task') :=
  ⟨⟨hi.tasks_set ht.wf, hi.keys, hi.running_set hget ht.toEvolves, fun j phase hj =>
    (hi.callers j phase hj).thread hget ht⟩,
    evolve_set hget ht.toEvolves rfl⟩

/-! ## The steps of the calls -/

/-- The step of a call that takes, holds or has the lock: the other calls are outside. -/
theorem Inv.move {kept : Nat → Prop} {s s' : TwitterForwarder} (hi : s.Inv kept) {j : Nat} {phase' : CallerPhase}
    (hlock : s.lock = none ∨ s.lock = some j)
    (hcallers : s'.callers = s.callers.set j phase') (hfacts : phase'.Facts kept s' j)
    (htasks : ∀ (i : Nat) (task : TwitterForwarderTask), s'.tasks[i]? = some task → task.WF (kept i))
    (hkeys : (s'.currentTasks.map Prod.fst).Nodup)
    (hrunning : ∀ (i : Nat) (task : TwitterForwarderTask), s'.tasks[i]? = some task → task.stopped = false →
      (task.twitterAccount.handle, i) ∈ s'.currentTasks) : s'.Inv kept := by
  refine ⟨htasks, hkeys, hrunning, fun j' p hj' => ?_⟩
  rw [hcallers] at hj'
  exact Machine.facts_set hi.callers (fun _ _ h => h.holds) (fun _ _ => .outside) hlock hfacts j' p hj'

/-- The step of a call that has the lock and changes neither a task nor an entry. -/
theorem Inv.moveOnly {kept : Nat → Prop} {s : TwitterForwarder} (hi : s.Inv kept) {j : Nat} {phase' : CallerPhase}
    (hlock : s.lock = some j) (hfacts : phase'.Facts kept (s.setCaller j phase') j) :
    (s.setCaller j phase').Inv kept ∧ Evolve s (s.setCaller j phase') :=
  ⟨hi.move (.inr hlock) rfl hfacts hi.tasks hi.keys hi.running, evolve_same rfl⟩

/-- A statement of `stop_processing` of a task. -/
theorem Inv.stopStep {kept : Nat → Prop} {s s' : TwitterForwarder} (hi : s.Inv kept) {j : Nat} {starts : Bool}
    {handle : String} {i : Nat} {todo : List (String × Nat)} {phase : StopPhase}
    (hj : s.callers[j]? = some (.stoppingTask starts handle i todo phase))
    (h : ((s.tasks[i]?).bind fun task => (task.stopStep j phase).map fun r =>
      (s.setTask i r.1).setCaller j (.stoppingTask starts handle i todo r.2)) = some s') : s'.Inv kept ∧ Evolve s s' := by
  obtain ⟨hlock, hcurrent, hfacts⟩ := hi.callers j _ hj
  obtain ⟨task, hget, h⟩ := Option.bind_eq_some_iff.1 h
  obtain ⟨⟨task', phase'⟩, hstop, heq⟩ := Option.map_eq_some_iff.1 h
  cases heq
  obtain ⟨hwf, he, hfacts'⟩ := TwitterForwarderTask.stopStep_spec (hi.tasks i task hget) (hfacts task hget) hstop
  refine ⟨hi.move (.inr hlock) rfl ⟨hlock, hcurrent, fun t ht => ?_⟩ (hi.tasks_set hwf) hi.keys (hi.running_set hget he),
    evolve_set hget he rfl⟩
  rcases Machine.getElem?_set_cases ht with ⟨-, rfl⟩ | ⟨hne, -⟩
  · exact hfacts'
  · exact absurd rfl hne

/-- The entry of a task that is stopped is deleted. -/
theorem Inv.delTask {kept : Nat → Prop} {s : TwitterForwarder} (hi : s.Inv kept) {j : Nat} {starts : Bool}
    {handle : String} {i : Nat} {todo : List (String × Nat)}
    (hj : s.callers[j]? = some (.stoppingTask starts handle i todo .returned)) :
    ((s.delTask handle).setCaller j (.stopping starts todo)).Inv kept := by
  obtain ⟨hlock, hcurrent, hfacts⟩ := hi.callers j _ hj
  have hleft : (s.delTask handle).currentTasks = todo := by
    show s.currentTasks.eraseP _ = todo
    rw [hcurrent, List.eraseP_cons_of_pos (by simp)]
  have hkeys := hi.keys
  rw [hcurrent, List.map_cons, List.nodup_cons] at hkeys
  refine hi.move (.inr hlock) rfl ⟨hlock, hleft⟩ hi.tasks ?_ fun i' task hget hstopped => ?_
  · show ((s.delTask handle).currentTasks.map Prod.fst).Nodup
    rw [hleft]
    exact hkeys.2
  · show _ ∈ (s.delTask handle).currentTasks
    rw [hleft]
    have hmem := hi.running i' task hget hstopped
    rw [hcurrent, List.mem_cons] at hmem
    rcases hmem with heq | hmem
    · -- the entry was of the task that is stopped now
      cases heq
      cases hstopped.symm.trans (hfacts task hget).1
    · exact hmem

theorem putTask_absent {s : TwitterForwarder} {handle : String} (h : ∀ entry ∈ s.currentTasks, entry.1 ≠ handle) (i : Nat) :
    s.putTask handle i = { s with currentTasks := s.currentTasks ++ [(handle, i)] } := by
  unfold putTask
  rw [if_neg]
  rw [Bool.not_eq_true, List.any_eq_false]
  intro entry hentry
  simpa using h entry hentry

/-- A task is created for the next account. -/
theorem Inv.create {kept : Nat → Prop} {s : TwitterForwarder} (hi : s.Inv kept) {j : Nat} {account : TwitterAccountEntry}
    {accounts : List TwitterAccountEntry} (hj : s.callers[j]? = some (.creating (account :: accounts))) :
    ((putTask account.handle s.tasks.length { s with tasks := s.tasks ++ [.new account] }).setCaller j
      (.creating accounts)).Inv kept := by
  obtain ⟨hlock, hnodup, hfresh⟩ := hi.callers j _ hj
  rw [List.map_cons, List.nodup_cons] at hnodup
  have habsent : ∀ entry ∈ s.currentTasks, entry.1 ≠ account.handle := by
    intro entry hentry heq
    exact hfresh entry hentry (heq ▸ List.mem_cons_self)
  rw [putTask_absent (s := { s with tasks := s.tasks ++ [.new account] }) habsent]
  refine hi.move (.inr hlock) rfl ⟨hlock, hnodup.2, fun entry hentry => ?_⟩ (fun i task hget => ?_) ?_
    fun i task hget hstopped => ?_
  · rcases List.mem_append.1 hentry with hentry | hentry
    · exact fun hmem => hfresh entry hentry (List.mem_cons_of_mem _ hmem)
    · rw [List.mem_singleton.1 hentry]
      exact hnodup.1
  · change (s.tasks ++ [TwitterForwarderTask.new account])[i]? = some task at hget
    rcases Machine.getElem?_concat_cases hget with ⟨-, rfl⟩ | ⟨-, hget⟩
    · exact .new (kept i) account
    · exact hi.tasks i task hget
  · show ((s.currentTasks ++ [(account.handle, s.tasks.length)]).map Prod.fst).Nodup
    rw [List.map_append, List.nodup_append]
    refine ⟨hi.keys, List.pairwise_singleton _ _, fun key hkey key' hkey' => ?_⟩
    obtain ⟨entry, hentry, rfl⟩ := List.mem_map.1 hkey
    rw [List.mem_singleton.1 hkey']
    exact habsent entry hentry
  · change (s.tasks ++ [TwitterForwarderTask.new account])[i]? = some task at hget
    show _ ∈ s.currentTasks ++ [(account.handle, s.tasks.length)]
    rcases Machine.getElem?_concat_cases hget with ⟨rfl, rfl⟩ | ⟨-, hget⟩
    · exact List.mem_append_right _ List.mem_cons_self
    · exact List.mem_append_left _ (hi.running i task hget hstopped)

theorem Inv.callerStep {kept : Nat → Prop} {s s' : TwitterForwarder} (hi : s.Inv kept) {j : Nat} {phase : CallerPhase}
    (hj : s.callers[j]? = some phase) (h : s.callerStep j phase = some s') : s'.Inv kept ∧ Evolve s s' := by
  have hfacts := hi.callers j phase hj
  cases phase with
  | acquiring starts =>
    obtain ⟨hlock, heq⟩ := Option.ite_none_right_eq_some.1 h
    cases heq
    exact ⟨hi.move (.inl hlock) rfl ⟨rfl, rfl⟩ hi.tasks hi.keys hi.running, evolve_same rfl⟩
  | stopping starts todo =>
    obtain ⟨hlock, hcurrent⟩ := hfacts
    rcases todo with _ | ⟨⟨handle, i⟩, todo⟩ <;> cases h
    · cases starts
      · exact hi.moveOnly hlock hlock
      · exact hi.moveOnly hlock ⟨hlock, hcurrent⟩
    · exact hi.moveOnly hlock ⟨hlock, hcurrent, fun _ _ => trivial⟩
  | stoppingTask starts handle i todo phase =>
    cases phase with
    | returned =>
      cases h
      exact ⟨hi.delTask hj, evolve_same rfl⟩
    | raised =>
      cases h
      exact hi.moveOnly hfacts.1 hfacts.1
    | _ => exact hi.stopStep hj h
  | listing => cases h
  | creating accounts =>
    obtain ⟨hlock, -⟩ := hfacts
    cases accounts with
    | nil =>
      cases h
      exact hi.moveOnly hlock hlock
    | cons account accounts =>
      cases h
      refine ⟨hi.create hj, evolve_add (.new account) ?_⟩
      show (putTask _ _ _).tasks = s.tasks ++ [.new account]
      unfold putTask
      split <;> rfl
  | releasing =>
    have hlock : s.lock = some j := hfacts
    cases h
    exact ⟨hi.move (.inr hlock) rfl trivial hi.tasks hi.keys hi.running, evolve_same rfl⟩
  | unwinding =>
    have hlock : s.lock = some j := hfacts
    cases h
    exact ⟨hi.move (.inr hlock) rfl trivial hi.tasks hi.keys hi.running, evolve_same rfl⟩
  | returned => cases h
  | raised => cases h

/-- Every step keeps the invariant, if it makes no task that is `kept` drop a live stream, and does to a task only
what its thread and the calls may do. -/
theorem Inv.step {kept : Nat → Prop} {s s' : TwitterForwarder} {a : Action} (hi : s.Inv kept)
    (hkept : ∀ i, kept i → ¬ DropsLive i s a) (h : step a s = some s') : s'.Inv kept ∧ Evolve s s' := by
  cases a with
  | call c =>
    cases h
    refine ⟨⟨hi.tasks, hi.keys, hi.running, fun j phase hj => ?_⟩, evolve_same rfl⟩
    change (s.callers ++ [c.entry])[j]? = some phase at hj
    rcases Machine.getElem?_concat_cases hj with ⟨-, rfl⟩ | ⟨-, hj⟩
    · refine .outside ?_
      cases c <;> trivial
    · cases phase <;> exact hi.callers j _ hj
  | caller j =>
    obtain ⟨phase, hj, hcaller⟩ := Option.bind_eq_some_iff.1 h
    exact hi.callerStep hj hcaller
  | accounts j accounts =>
    obtain ⟨⟨hj, hnodup⟩, heq⟩ := Option.ite_none_right_eq_some.1 h
    cases heq
    obtain ⟨hlock, hcurrent⟩ := hi.callers j _ hj
    refine hi.moveOnly hlock ⟨hlock, hnodup, fun entry hentry => ?_⟩
    -- every task that was there is stopped
    change entry ∈ s.currentTasks at hentry
    rw [hcurrent] at hentry
    cases hentry
  | callerFails j =>
    simp only [TwitterForwarder.step] at h
    split at h
    · rename_i hj
      cases h
      exact hi.moveOnly (hi.callers j _ hj).1 (hi.callers j _ hj).1
    · rename_i account accounts hj
      cases h
      exact hi.moveOnly (hi.callers j _ hj).1 (hi.callers j _ hj).1
    · cases h
  | thread i tweet =>
    obtain ⟨task, hget, h⟩ := Option.bind_eq_some_iff.1 h
    obtain ⟨task', hadvance, heq⟩ := Option.map_eq_some_iff.1 h
    cases heq
    refine hi.thread hget (TwitterForwarderTask.advance_spec (hi.tasks i task hget) (fun hk hdrops => ?_) hadvance)
    exact hkept i hk ⟨tweet, task, rfl, hget, hdrops⟩
  | fail i =>
    obtain ⟨task, hget, h⟩ := Option.bind_eq_some_iff.1 h
    obtain ⟨task', hfail, heq⟩ := Option.map_eq_some_iff.1 h
    cases heq
    exact hi.thread hget (TwitterForwarderTask.fail_spec (hi.tasks i task hget) hfail)
  | streamEnds i k =>
    obtain ⟨task, hget, h⟩ := Option.bind_eq_some_iff.1 h
    obtain ⟨task', hends, heq⟩ := Option.map_eq_some_iff.1 h
    cases heq
    exact hi.thread hget (TwitterForwarderTask.streamEnds_spec (hi.tasks i task hget) hends)

theorem inv_start (kept : Nat → Prop) : start.Inv kept :=
  ⟨fun i task hget => (by cases hget), List.nodup_nil, fun i task hget => (by cases hget),
    fun j phase hj => (by cases hj)⟩

/-! ## Runs -/

theorem Inv.run {kept : Nat → Prop} {t s : TwitterForwarder} {history : List (TwitterForwarder × Action)} (ht : t.Inv kept)
    (hr : Machine.Run TwitterForwarder.step t history s) (hkept : ∀ i, kept i → ∀ x ∈ history, ¬ DropsLive i x.1 x.2) :
    s.Inv kept ∧ Evolve t s := by
  refine hr.preserves (C := fun s a => ∀ i, kept i → ¬ DropsLive i s a) (evolve_same rfl) (fun _ _ h h' => ?_)
    (fun _ _ _ hi hC ha => hi.step hC ha) ht fun x hx i hk => hkept i hk x hx
  exact Machine.Evolved.trans (fun _ _ _ => TwitterForwarderTask.Evolves.trans) h h'

/-- Tasks that are not stopped are entries of `current_tasks`, where no handle stands twice. -/
theorem Inv.oneRunning {kept : Nat → Prop} {s : TwitterForwarder} (hi : s.Inv kept) : s.OneRunning := by
  intro i i' task task' hget hget' hstopped hstopped' hhandle
  have hmem := hi.running i task hget hstopped
  have hmem' := hi.running i' task' hget' hstopped'
  rw [hhandle] at hmem
  exact congrArg Prod.snd (List.inj_on_of_nodup_map hi.keys hmem hmem' rfl)

theorem Inv.opensAlone {kept : Nat → Prop} {s : TwitterForwarder} (hi : s.Inv kept) {i : Nat} (hk : kept i) :
    s.OpensAlone i := by
  intro task hget hphase
  refine TwitterForwarderTask.allEnded_iff.2 ((hi.tasks i task hget).idle hk ?_)
  rw [hphase]
  trivial

/-- What `stop_processing` leaves behind stays as it is. -/
theorem Inv.drained {kept : Nat → Prop} {t s : TwitterForwarder} (ht : t.Inv kept) (hev : Evolve t s) {j i : Nat}
    {starts : Bool} {handle : String} {todo : List (String × Nat)} {task : TwitterForwarderTask} (hk : kept i)
    (hj : t.callers[j]? = some (.stoppingTask starts handle i todo .returned)) (hget : t.tasks[i]? = some task) :
    s.Drained i task := by
  obtain ⟨-, -, hfacts⟩ := ht.callers j _ hj
  obtain ⟨hstopped, hended⟩ := hfacts task hget
  obtain ⟨task', hget', he⟩ := hev i task hget
  have hended' := (hended hk).mono (he.live hstopped)
  exact ⟨task', hget', TwitterForwarderTask.allEnded_iff.2 hended', he.drained hstopped (hended hk)⟩

end TwitterForwarder

namespace Sample

/-- The account of the sample. -/
def account : TwitterAccountEntry := ⟨"alice", 1, "token"⟩

/-- A tweet of that account. -/
def tweet : Tweet := ⟨some [some "alice"], some "hello"⟩

/-- The task of an account is started, and its thread iterates over its first stream. -/
def started : List Action :=
  [.call .startProcessing, .caller 0, .caller 0, .accounts 0 [account], .caller 0, .caller 0, .caller 0] ++
    List.replicate 7 (.thread 0 tweet)

/-- The thread has a tweet in hand when the task is stopped. -/
def stoppedWithTweet : List Action :=
  started ++ [.thread 0 tweet] ++ [.call .stopProcessing] ++ List.replicate 8 (.caller 1)

/-- The tweet is turned into a squeak, and the thread leaves. -/
def restOfThread : List Action := List.replicate 4 (.thread 0 tweet)

/-- A tweet makes `make_squeak` raise, and the thread is about to open another stream. -/
def handlerRaises : List Action :=
  started ++ [.thread 0 tweet, .thread 0 tweet, .fail 0] ++ List.replicate 5 (.thread 0 tweet)

/-- It opens the stream, and the task is stopped. -/
def stoppedAfterRetry : List Action :=
  List.replicate 3 (.thread 0 tweet) ++ [.call .stopProcessing] ++ List.replicate 8 (.caller 1)

end Sample

end TwitterForwarding

end Squeaknode
