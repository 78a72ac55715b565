/-
What the tasks of the forwarder make of the tweets. The thread of a task takes the tweets that its stream
delivers one after the other, and calls `make_squeak` for those that match the rule of its handle. Whatever
else goes on, and whatever raises, every tweet that a thread takes is forwarded exactly once or, if it does not
match or lacks what is read of it, not at all, in the order in which they are taken, for the profile of an
account that the table has had (`tweets_forwarded`).
-/
import Squeaknode.Node.TwitterAccounts

namespace Squeaknode

open Interleave

namespace TwitterForwarding

namespace TwitterForwarderTask

/-- The thread is before the next tweet of a live stream, and takes it. -/
def takes (tweet : Tweet) (task : TwitterForwarderTask) : Option Tweet :=
  match task.phase with
  | .iterating k => if task.streams[k]? = some .live then some tweet else none
  | _ => none

/-- The calls of `make_squeak` that the task has made, and that of the tweet in hand. -/
def forwarded (task : TwitterForwarderTask) : List (Int × String) := task.squeaks ++ task.inHand.toList

theorem squeakOf_congr {task task' : TwitterForwarderTask} (h : task'.twitterAccount = task.twitterAccount) (tweet : Tweet) :
    task'.squeakOf tweet = task.squeakOf tweet := by
  unfold squeakOf isTweetAMatch
  rw [h]

/-- What a step of the thread adds is what it makes of the tweet that it takes. -/
theorem forwarded_advance {task task' : TwitterForwarderTask} {tweet : Tweet} (h : task.advance tweet = some task') :
    task'.twitterAccount = task.twitterAccount ∧
      task'.forwarded = task.forwarded ++ ((task.takes tweet).bind fun t => task.squeakOf t).toList := by
  obtain ⟨account, stopped, tweetStream, lock, phase, streams, squeaks⟩ := task
  cases phase with
  | checkingStopped =>
    cases h
    cases stopped <;> exact ⟨rfl, (List.append_nil _).symm⟩
  | acquiring =>
    obtain ⟨-, heq⟩ := Option.ite_none_right_eq_some.1 h
    cases heq
    exact ⟨rfl, (List.append_nil _).symm⟩
  | locked =>
    cases h
    cases stopped <;> exact ⟨rfl, (List.append_nil _).symm⟩
  | readingStream =>
    cases tweetStream <;> cases h <;> exact ⟨rfl, (List.append_nil _).symm⟩
  | iterating k =>
    by_cases hlive : streams[k]? = some .live
    · -- the tweet comes in hand
      have htakes : takes tweet ⟨account, stopped, tweetStream, lock, .iterating k, streams, squeaks⟩ = some tweet :=
        if_pos hlive
      simp only [advance, if_pos hlive] at h
      cases h
      rw [htakes]
      refine ⟨rfl, ?_⟩
      show squeaks ++ _ = (squeaks ++ []) ++ _
      rw [List.append_nil]
      rfl
    · have htakes : takes tweet ⟨account, stopped, tweetStream, lock, .iterating k, streams, squeaks⟩ = none :=
        if_neg hlive
      simp only [advance, if_neg hlive] at h
      cases h
      rw [htakes]
      exact ⟨rfl, (List.append_nil _).symm⟩
  | handling k handled =>
    have hsqueaks := handleTweet_squeaks k handled ⟨account, stopped, tweetStream, lock, .handling k handled, streams, squeaks⟩
    obtain ⟨phase, squeaks', heq, -⟩ :=
      handleTweet_cases k handled ⟨account, stopped, tweetStream, lock, .handling k handled, streams, squeaks⟩
    simp only [advance, Option.some.injEq] at h
    subst h
    exact ⟨heq ▸ rfl, hsqueaks.trans (List.append_nil _).symm⟩
  | ended => cases h
  | _ =>
    cases h
    exact ⟨rfl, (List.append_nil _).symm⟩

/-- Nothing is in hand where something raises. -/
theorem forwarded_fail {task task' : TwitterForwarderTask} (h : task.fail = some task') :
    task'.twitterAccount = task.twitterAccount ∧ task'.forwarded = task.forwarded := by
  obtain ⟨account, stopped, tweetStream, lock, phase, streams, squeaks⟩ := task
  cases phase with
  | opening =>
    cases h
    exact ⟨rfl, rfl⟩
  | iterating k =>
    obtain ⟨-, heq⟩ := Option.ite_none_left_eq_some.1 h
    cases heq
    exact ⟨rfl, rfl⟩
  | makingSqueak k =>
    cases h
    exact ⟨rfl, rfl⟩
  | _ => cases h

theorem forwarded_stopStep {task task' : TwitterForwarderTask} {j : Nat} {phase phase' : StopPhase}
    (h : task.stopStep j phase = some (task', phase')) :
    task'.twitterAccount = task.twitterAccount ∧ task'.forwarded = task.forwarded := by
  cases phase with
  | acquiring =>
    obtain ⟨-, heq⟩ := Option.ite_none_right_eq_some.1 h
    cases heq
    exact ⟨rfl, rfl⟩
  | reading =>
    cases hstream : task.tweetStream <;> simp only [stopStep, hstream] at h <;> cases h <;> exact ⟨rfl, rfl⟩
  | returned => cases h
  | raised => cases h
  | _ =>
    cases h
    exact ⟨rfl, rfl⟩

end TwitterForwarderTask

namespace TwitterForwarder

/-- The tweet that the thread of the task `i` takes with the action. -/
def takenBy (i : Nat) (s : TwitterForwarder) : Action → Option Tweet
  | .thread i' tweet => if i' = i then (s.tasks[i]?).bind fun task => task.takes tweet else none
  | _ => none

/-- Each task has an account of those that were read, and has forwarded what its thread took. -/
structure Forwards (past : TwitterAccountEntry → Prop) (took : Nat → List Tweet) (s : TwitterForwarder) : Prop where
  reads : ∀ (j : Nat) (entries : List TwitterAccountEntry), s.callers[j]? = some (.creating entries) →
    ∀ account ∈ entries, past account
  tasks : ∀ (i : Nat) (task : TwitterForwarderTask), s.tasks[i]? = some task →
    past task.twitterAccount ∧ task.forwarded = (took i).filterMap fun tweet => task.squeakOf tweet
  fresh : ∀ i, s.tasks.length ≤ i → took i = []

section Steps

variable {past : TwitterAccountEntry → Prop} {took : Nat → List Tweet} {s s' : TwitterForwarder}

/-- A call moves on. -/
theorem Forwards.reads_set (h : s.Forwards past took) {j : Nat} {phase' : CallerPhase}
    (hphase : ∀ entries, phase' = .creating entries → ∀ account ∈ entries, past account) (j' : Nat)
    (entries : List TwitterAccountEntry) (hj' : (s.callers.set j phase')[j']? = some (.creating entries)) :
    ∀ account ∈ entries, past account := by
  rcases Machine.getElem?_set_cases hj' with ⟨-, heq⟩ | ⟨-, hj'⟩
  · exact hphase entries heq.symm
  · exact h.reads j' entries hj'

theorem Forwards.move (h : s.Forwards past took) {j : Nat} {phase' : CallerPhase} (htasks : s'.tasks = s.tasks)
    (hcallers : s'.callers = s.callers.set j phase')
    (hphase : ∀ entries, phase' = .creating entries → ∀ account ∈ entries, past account) : s'.Forwards past took :=
  ⟨fun j' entries hj' => h.reads_set hphase j' entries (hcallers ▸ hj'), htasks ▸ h.tasks, htasks ▸ h.fresh⟩

/-- A task becomes another that has forwarded what was taken besides. -/
theorem Forwards.set (h : s.Forwards past took) {took' : Nat → List Tweet} {i : Nat} {task task' : TwitterForwarderTask}
    (hget : s.tasks[i]? = some task) (htasks : s'.tasks = s.tasks.set i task')
    (hreads : ∀ (j : Nat) (entries : List TwitterAccountEntry), s'.callers[j]? = some (.creating entries) →
      ∀ account ∈ entries, past account)
    (haccount : task'.twitterAccount = task.twitterAccount) (htook : ∀ i', i' ≠ i → took' i' = took i')
    (hforwarded : task.forwarded = ((took i).filterMap fun tweet => task.squeakOf tweet) →
      task'.forwarded = (took' i).filterMap fun tweet => task.squeakOf tweet) : s'.Forwards past took' := by
  have hlt := (List.getElem?_eq_some_iff.1 hget).1
  refine ⟨hreads, fun i' t ht => ?_, fun i' hi' => ?_⟩
  · rw [htasks] at ht
    rcases Machine.getElem?_set_cases ht with ⟨rfl, rfl⟩ | ⟨hne, ht⟩
    · obtain ⟨hpast, hsame⟩ := h.tasks i' task hget
      refine ⟨haccount ▸ hpast, (hforwarded hsame).trans ?_⟩
      exact List.filterMap_congr fun tweet _ => (TwitterForwarderTask.squeakOf_congr haccount tweet).symm
    · rw [htook i' hne]
      exact h.tasks i' t ht
  · rw [htasks, List.length_set] at hi'
    rw [htook i' (by omega)]
    exact h.fresh i' hi'

/-- A task is created for an account that was read. -/
theorem Forwards.create (h : s.Forwards past took) {account : TwitterAccountEntry} (hpast : past account)
    (htasks : s'.tasks = s.tasks ++ [.new account])
    (hreads : ∀ (j : Nat) (entries : List TwitterAccountEntry), s'.callers[j]? = some (.creating entries) →
      ∀ account ∈ entries, past account) : s'.Forwards past took := by
  refine ⟨hreads, fun i t ht => ?_, fun i hi => ?_⟩
  · rw [htasks] at ht
    rcases Machine.getElem?_concat_cases ht with ⟨rfl, rfl⟩ | ⟨-, ht⟩
    · refine ⟨hpast, ?_⟩
      rw [h.fresh _ (Nat.le_refl _)]
      rfl
    · exact h.tasks i t ht
  · rw [htasks, List.length_append] at hi
    exact h.fresh i (by omega)

theorem Forwards.callerStep (h : s.Forwards past took) {j : Nat} {phase : CallerPhase} (hj : s.callers[j]? = some phase)
    (hstep : s.callerStep j phase = some s') : s'.Forwards past took := by
  cases phase with
  | acquiring starts =>
    obtain ⟨-, heq⟩ := Option.ite_none_right_eq_some.1 hstep
    cases heq
    exact h.move rfl rfl fun entries heq => (by cases heq)
  | stopping starts todo =>
    rcases todo with _ | ⟨⟨handle, i⟩, todo⟩ <;> cases hstep
    · cases starts <;> exact h.move rfl rfl fun entries heq => (by cases heq)
    · exact h.move rfl rfl fun entries heq => (by cases heq)
  | stoppingTask starts handle i todo phase =>
    cases phase with
    | returned =>
      cases hstep
      exact h.move rfl rfl fun entries heq => (by cases heq)
    | raised =>
      cases hstep
      exact h.move rfl rfl fun entries heq => (by cases heq)
    | _ =>
      obtain ⟨task, hget, hstep⟩ := Option.bind_eq_some_iff.1 hstep
      obtain ⟨r, hr, rfl⟩ := Option.map_eq_some_iff.1 hstep
      obtain ⟨haccount, hforwarded⟩ := TwitterForwarderTask.forwarded_stopStep hr
      exact h.set hget rfl (h.reads_set fun entries heq => (by cases heq)) haccount (fun _ _ => rfl) hforwarded.trans
  | listing => cases hstep
  | creating entries =>
    cases entries with
    | nil =>
      cases hstep
      exact h.move rfl rfl fun entries heq => (by cases heq)
    | cons account entries =>
      cases hstep
      have hpast := h.reads j _ hj
      have hput : ∀ t : TwitterForwarder, (t.putTask account.handle s.tasks.length).tasks = t.tasks ∧
          (t.putTask account.handle s.tasks.length).callers = t.callers := by
        intro t
        unfold putTask
        split <;> exact ⟨rfl, rfl⟩
      refine h.create (hpast account List.mem_cons_self) (hput _).1 fun j' entries' hj' => ?_
      change ((putTask _ _ _).callers.set j _)[j']? = _ at hj'
      rw [(hput _).2] at hj'
      refine h.reads_set (fun entries'' heq account' hmem => ?_) j' entries' hj'
      cases heq
      exact hpast account' (List.mem_cons_of_mem _ hmem)
  | releasing =>
    cases hstep
    exact h.move rfl rfl fun entries heq => (by cases heq)
  | unwinding =>
    cases hstep
    exact h.move rfl rfl fun entries heq => (by cases heq)
  | returned => cases hstep
  | raised => cases hstep

theorem Forwards.step {a : Action} (h : s.Forwards past took) (hread : ∀ j entries, a = .accounts j entries →
      ∀ account ∈ entries, past account) (hstep : TwitterForwarder.step a s = some s') :
    s'.Forwards past fun i => took i ++ (s.takenBy i a).toList := by
  by_cases hthread : ∃ i tweet, a = .thread i tweet
  · obtain ⟨i, tweet, rfl⟩ := hthread
    obtain ⟨task, hget, hstep⟩ := Option.bind_eq_some_iff.1 hstep
    obtain ⟨task', hadvance, rfl⟩ := Option.map_eq_some_iff.1 hstep
    obtain ⟨haccount, hforwarded⟩ := TwitterForwarderTask.forwarded_advance hadvance
    refine h.set hget rfl h.reads haccount (fun i' hne => ?_) fun hsame => ?_
    · rw [takenBy, if_neg (Ne.symm hne)]
      exact List.append_nil _
    · rw [hforwarded, hsame, takenBy, if_pos rfl, hget, List.filterMap_append, Option.bind_some]
      cases task.takes tweet with
      | none => simp
      | some t => cases hsqueak : task.squeakOf t <;> simp [hsqueak]
  · have htook : (fun i => took i ++ (s.takenBy i a).toList) = took := by
      funext i
      cases a with
      | thread i' tweet => exact absurd ⟨i', tweet, rfl⟩ hthread
      | _ => exact List.append_nil _
    rw [htook]
    cases a with
    | call c =>
      cases hstep
      refine ⟨fun j entries hj => ?_, h.tasks, h.fresh⟩
      rcases Machine.getElem?_concat_cases hj with ⟨-, heq⟩ | ⟨-, hj⟩
      · cases c <;> cases heq
      · exact h.reads j entries hj
    | caller j =>
      obtain ⟨phase, hj, hcaller⟩ := Option.bind_eq_some_iff.1 hstep
      exact h.callerStep hj hcaller
    | accounts j entries =>
      obtain ⟨-, heq⟩ := Option.ite_none_right_eq_some.1 hstep
      cases heq
      refine h.move rfl rfl fun entries' heq => ?_
      cases heq
      exact hread j entries rfl
    | callerFails j =>
      simp only [TwitterForwarder.step] at hstep
      split at hstep <;> cases hstep <;> exact h.move rfl rfl fun entries heq => (by cases heq)
    | thread i tweet => exact absurd ⟨i, tweet, rfl⟩ hthread
    | fail i =>
      obtain ⟨task, hget, hstep⟩ := Option.bind_eq_some_iff.1 hstep
      obtain ⟨task', hfail, rfl⟩ := Option.map_eq_some_iff.1 hstep
      obtain ⟨haccount, hforwarded⟩ := TwitterForwarderTask.forwarded_fail hfail
      exact h.set hget rfl h.reads haccount (fun _ _ => rfl) hforwarded.trans
    | streamEnds i k =>
      obtain ⟨task, hget, hstep⟩ := Option.bind_eq_some_iff.1 hstep
      obtain ⟨task', hends, rfl⟩ := Option.map_eq_some_iff.1 hstep
      obtain ⟨-, heq⟩ := Option.ite_none_right_eq_some.1 hends
      cases heq
      exact h.set hget rfl h.reads rfl (fun _ _ => rfl) id

theorem Forwards.mono {past' : TwitterAccountEntry → Prop} (h : s.Forwards past took) (hpast : ∀ account, past account → past' account) :
    s.Forwards past' took :=
  ⟨fun j entries hj account hmem => hpast account (h.reads j entries hj account hmem),
    fun i task hget => (h.tasks i task hget).imp_left (hpast _), h.fresh⟩

end Steps

end TwitterForwarder

/-- The tweets that the thread of the task `i` has taken. -/
def taken (i : Nat) (history : List (TwitterNode × NodeAction)) : List Tweet :=
  history.filterMap fun x => (x.1.forwards x.2).bind fun a => x.1.forwarder.takenBy i a

/-- Whatever the requests, the calls and the threads do and whatever raises: each task is one of an account that
the table has had, and with the tweet in hand it has forwarded each tweet that its thread took and that matches
once, in the order in which they came, and nothing else. -/
theorem tweets_forwarded {accounts : TwitterAccounts} {history : List (TwitterNode × NodeAction)} {s : TwitterNode}
    (hr : Machine.Run TwitterNode.step (TwitterNode.start accounts) history s) {i : Nat} {task : TwitterForwarderTask}
    (hget : s.forwarder.tasks[i]? = some task) :
    (∃ t ∈ Machine.states history s, task.twitterAccount ∈ t.accounts.getTwitterAccounts) ∧
      task.squeaks ++ task.inHand.toList = (taken i history).filterMap fun tweet => task.squeakOf tweet := by
  have hforwards : s.forwarder.Forwards (fun account => ∃ t ∈ Machine.states history s, account ∈ t.accounts.getTwitterAccounts)
      fun i => taken i history := by
    clear hget
    induction hr with
    | init => exact ⟨fun j entries hj => (by cases hj), fun i task hget => (by cases hget), fun _ _ => rfl⟩
    | @next history s s' a hr ha ih =>
      have hmono : ∀ t ∈ Machine.states history s, t ∈ Machine.states (history ++ [(s, a)]) s' := by
        intro t ht
        rw [Machine.states, List.map_append]
        exact List.mem_append_left _ ht
      have hbefore : s.forwarder.Forwards (fun account => ∃ t ∈ Machine.states (history ++ [(s, a)]) s',
          account ∈ t.accounts.getTwitterAccounts) fun i => taken i history := by
        refine ih.mono fun account hpast => ?_
        obtain ⟨t, ht, hmem⟩ := hpast
        exact ⟨t, hmono t ht, hmem⟩
      have htaken : ∀ i, taken i (history ++ [(s, a)]) =
          taken i history ++ ((s.forwards a).bind fun b => s.forwarder.takenBy i b).toList := by
        intro i
        rw [taken, List.filterMap_append]
        cases hb : (s.forwards a).bind fun b => s.forwarder.takenBy i b <;> simp [taken, hb]
      simp only [htaken]
      cases hb : s.forwards a with
      | none =>
        rw [TwitterNode.step_forwards_none ha hb]
        simpa using hbefore
      | some b =>
        refine hbefore.step (fun j entries heq account hmem => ?_) (TwitterNode.step_forwards ha hb)
        -- what the call reads is in the table at that moment
        obtain ⟨c, rfl⟩ : ∃ c, a = .forwarder c := by
          subst heq
          cases a with
          | forwarder c => exact ⟨c, rfl⟩
          | proceed k =>
            obtain ⟨phase, -, hphase⟩ := Option.bind_eq_some_iff.1 hb
            cases phase <;> cases hphase
          | _ => cases hb
        cases hb
        subst heq
        obtain ⟨hread, -⟩ := Option.ite_none_right_eq_some.1 ha
        exact ⟨s, hmono s (List.mem_append_right _ List.mem_cons_self), (List.isPerm_iff.1 hread).mem_iff.1 hmem⟩
  exact hforwards.tasks i task hget

namespace Sample

/-- The stream delivers a tweet of the account, one of another, and one without a text, at which the task retries. -/
def forwarding : List NodeAction :=
  following ++ [.forwarder (.thread 0 tweet), .forwarder (.thread 0 tweet), .forwarder (.thread 0 tweet)] ++ idling ++
    [.forwarder (.thread 0 ⟨some [some "alice"], none⟩), .forwarder (.thread 0 tweet)]

end Sample

theorem tweets_forwarded_sample : ∃ (history : List (TwitterNode × NodeAction)) (s : TwitterNode) (task : TwitterForwarderTask),
    Machine.Run TwitterNode.step (TwitterNode.start Sample.noAccounts) history s ∧ s.forwarder.tasks = [task] ∧
    (taken 0 history).length = 3 ∧ task.phase = .clearing ∧ task.squeaks = [(1, "hello")] ∧
    task.squeaks ++ task.inHand.toList = (taken 0 history).filterMap fun tweet => task.squeakOf tweet := by
  have hexec : (Machine.exec TwitterNode.step Sample.forwarding (TwitterNode.start Sample.noAccounts)).map (fun r =>
      (r.2.forwarder.tasks, (taken 0 r.1).length)) =
      some ([⟨Sample.account, false, some 0, none, .clearing, [.live], [(1, "hello")]⟩], 3) := by
    decide +kernel
  obtain ⟨⟨history, s⟩, hrun, hstate⟩ := Option.map_eq_some_iff.1 hexec
  obtain ⟨htasks, htaken⟩ : s.forwarder.tasks = _ ∧ (taken 0 history).length = 3 := by
    simpa only [Prod.mk.injEq] using hstate
  have hr := Machine.run_exec hrun
  have hget : s.forwarder.tasks[0]? = some ⟨Sample.account, false, some 0, none, .clearing, [.live], [(1, "hello")]⟩ := by
    rw [htasks]
    rfl
  exact ⟨history, s, _, hr, htasks, htaken, rfl, rfl, (tweets_forwarded hr hget).2⟩

end TwitterForwarding

end Squeaknode
