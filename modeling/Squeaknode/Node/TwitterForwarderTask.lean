/-
A task that forwards the tweets of one Twitter account. Its thread opens a stream under the lock of the task
and reads it without the lock; whatever raises in between is caught, and `tweet_stream` is set to `None`
without the lock and without a look at the stream. `stop_processing` sets the flag and cancels the stream
that it finds in `tweet_stream`, under the lock. Every read and write is a step of its own here.

What the two rely on is `WF`, what they do to a task is `Evolves`. Both depend on `kept`: that no stream is
dropped from `tweet_stream` before it has ended.
-/
import Squeaknode.Interleave.Machine

namespace Squeaknode

open Interleave

namespace TwitterForwarding

/-- What a task needs of an account. -/
structure TwitterAccountEntry where
  handle : String
  profileId : Int
  bearerToken : String
  deriving DecidableEq

/-- What is read of a tweet: the `tag` of each of its `matching_rules`, and the `text` of its `data`. `none`
stands for what is not there, where reading it raises. -/
structure Tweet where
  matchingRules : Option (List (Option String))
  text : Option String
  deriving DecidableEq

/-- A stream delivers tweets, has come to its end, or was cancelled. -/
inductive StreamStatus where
  | live
  | finished
  | cancelled
  deriving DecidableEq

/-- Who holds the lock of a task: its thread, or a call of the forwarder. -/
inductive Owner where
  | thread
  | caller (j : Nat)
  deriving DecidableEq

/-! ## The thread of a task -/

/-- Where the thread is in `process_forward_tweets`. The streams of a task are numbered in the order in which
it opened them. -/
inductive ThreadPhase where
  /-- before `while not self.stopped.is_set()` -/
  | checkingStopped
  /-- before `with self.lock` in `setup_stream` -/
  | acquiring
  /-- before `if self.stopped.is_set()` -/
  | locked
  /-- before `twitter_stream.get_tweets()` -/
  | opening
  /-- before `self.tweet_stream = …` -/
  | assigning (stream : Nat)
  | releasing
  /-- `get_tweets` has raised, and the lock is still held -/
  | unwinding
  /-- before `self.tweet_stream` is read for its `result_stream` -/
  | readingStream
  /-- before the next tweet of the stream -/
  | iterating (stream : Nat)
  /-- before `self.handle_tweet(tweet)` -/
  | handling (stream : Nat) (tweet : Tweet)
  /-- in `self.squeak_store.make_squeak` -/
  | makingSqueak (stream : Nat)
  /-- before `self.tweet_stream = None` -/
  | clearing
  /-- in `self.stopped.wait(wait_s)` -/
  | waiting
  | ended
  deriving DecidableEq

/-- `squeaks` are the arguments of the calls of `make_squeak` that the task has made. -/
structure TwitterForwarderTask where
  twitterAccount : TwitterAccountEntry
  stopped : Bool
  tweetStream : Option Nat
  lock : Option Owner
  phase : ThreadPhase
  streams : List StreamStatus
  squeaks : List (Int × String)
  deriving DecidableEq

/-- A stream that has ended stays as it is. -/
def StreamStatus.cancel : StreamStatus → StreamStatus
  | .live => .cancelled
  | status => status

namespace TwitterForwarderTask

/-- A task before its thread runs. -/
def new (account : TwitterAccountEntry) : TwitterForwarderTask := ⟨account, false, none, none, .checkingStopped, [], []⟩

/-- `none` where a rule or its tag is missing before a rule of this handle is found. -/
def isTweetAMatch (task : TwitterForwarderTask) (tweet : Tweet) : Option Bool :=
  tweet.matchingRules.bind (go task.twitterAccount.handle)
where
  go (handle : String) : List (Option String) → Option Bool
    | [] => some false
    | none :: _ => none
    | some tag :: rules => if tag = handle then some true else go handle rules

/-- `handle_tweet` up to the call of `make_squeak`. It raises on a tweet that lacks what it reads. -/
def handleTweet (k : Nat) (tweet : Tweet) (task : TwitterForwarderTask) : TwitterForwarderTask :=
  match task.isTweetAMatch tweet with
  | none => { task with phase := .clearing }
  | some false => { task with phase := .iterating k }
  | some true => match tweet.text with
    | none => { task with phase := .clearing }
    | some text =>
      { task with phase := .makingSqueak k, squeaks := task.squeaks ++ [(task.twitterAccount.profileId, text)] }

/-- The next statement of the thread; `tweet` is what a live stream delivers. -/
def advance (tweet : Tweet) (task : TwitterForwarderTask) : Option TwitterForwarderTask :=
  match task.phase with
  | .checkingStopped => some { task with phase := if task.stopped then .ended else .acquiring }
  | .acquiring => if task.lock = none then some { task with lock := some .thread, phase := .locked } else none
  | .locked => some { task with phase := if task.stopped then .releasing else .opening }
  | .opening => some { task with phase := .assigning task.streams.length, streams := task.streams ++ [.live] }
  | .assigning k => some { task with phase := .releasing, tweetStream := some k }
  | .releasing => some { task with lock := none, phase := .readingStream }
  | .unwinding => some { task with lock := none, phase := .clearing }
  | .readingStream => match task.tweetStream with
    | some k => some { task with phase := .iterating k }
    | none => some { task with phase := .clearing }
  | .iterating k =>
    if task.streams[k]? = some .live then some { task with phase := .handling k tweet }
    else some { task with phase := .checkingStopped }
  | .handling k tweet => some (task.handleTweet k tweet)
  | .makingSqueak k => some { task with phase := .iterating k }
  | .clearing => some { task with tweetStream := none, phase := .waiting }
  | .waiting => some { task with phase := .checkingStopped }
  | .ended => none

/-- What may raise: `get_tweets`, a stream that has ended, and `make_squeak`. -/
def fail (task : TwitterForwarderTask) : Option TwitterForwarderTask :=
  match task.phase with
  | .opening => some { task with phase := .unwinding }
  | .iterating k => if task.streams[k]? = some .live then none else some { task with phase := .clearing }
  | .makingSqueak _ => some { task with phase := .clearing }
  | _ => none

/-- A stream ends, by itself or by an error that its next item raises. -/
def streamEnds (k : Nat) (task : TwitterForwarderTask) : Option TwitterForwarderTask :=
  if task.streams[k]? = some .live then some { task with streams := task.streams.set k .finished } else none

end TwitterForwarderTask

/-! ## `stop_processing` of a task -/

/-- Where a call is in `stop_processing` of a task. -/
inductive StopPhase where
  /-- before `with self.lock` -/
  | acquiring
  /-- before `self.stopped.set()` -/
  | settingFlag
  /-- before `if self.tweet_stream is not None` -/
  | testing
  /-- before `self.tweet_stream` is read for its `cancel_fn` -/
  | reading
  /-- before `cancel_fn()` of the stream -/
  | cancelling (stream : Nat)
  | releasing
  /-- there was no stream any more to read `cancel_fn` of, and the lock is still held -/
  | unwinding
  | returned
  | raised
  deriving DecidableEq

namespace TwitterForwarderTask

/-- `cancel_fn` of a stream. -/
def cancelStream (k : Nat) (task : TwitterForwarderTask) : TwitterForwarderTask :=
  { task with streams := task.streams.modify k StreamStatus.cancel }

/-- The next statement of `stop_processing`, called by `j`. -/
def stopStep (j : Nat) (task : TwitterForwarderTask) : StopPhase → Option (TwitterForwarderTask × StopPhase)
  | .acquiring => if task.lock = none then some ({ task with lock := some (.caller j) }, .settingFlag) else none
  | .settingFlag => some ({ task with stopped := true }, .testing)
  | .testing => some (task, if task.tweetStream.isSome then .reading else .releasing)
  | .reading => match task.tweetStream with
    | some k => some (task, .cancelling k)
    | none => some (task, .unwinding)
  | .cancelling k => some (task.cancelStream k, .releasing)
  | .releasing => some ({ task with lock := none }, .returned)
  | .unwinding => some ({ task with lock := none }, .raised)
  | .returned => none
  | .raised => none

end TwitterForwarderTask

/-! ## What a task may become -/

namespace ThreadPhase

/-- The thread has the lock of the task. -/
def HoldsLock : ThreadPhase → Prop
  | .locked | .opening | .assigning _ | .releasing | .unwinding => True
  | _ => False

/-- The thread is past the test of the flag under the lock. -/
def Opens : ThreadPhase → Prop
  | .opening | .assigning _ => True
  | _ => False

/-- The thread is done with the streams it has opened. -/
def Idle : ThreadPhase → Prop
  | .checkingStopped | .acquiring | .locked | .opening | .unwinding | .waiting | .ended => True
  | _ => False

/-- The stream that the thread iterates over, also while it handles a tweet. -/
def uses : ThreadPhase → Option Nat
  | .iterating k | .handling k _ | .makingSqueak k => some k
  | _ => none

theorem Opens.holdsLock {phase : ThreadPhase} (h : phase.Opens) : phase.HoldsLock := by
  cases phase <;> trivial

end ThreadPhase

namespace TwitterForwarderTask

/-- Every stream of the task is finished or cancelled. -/
def AllEnded (task : TwitterForwarderTask) : Prop := StreamStatus.live ∉ task.streams

/-- No stream of the task but `e` is live. -/
def LiveOnly (e : Option Nat) (task : TwitterForwarderTask) : Prop :=
  ∀ k, task.streams[k]? = some .live → e = some k

/-- The thread is about to drop a stream that is neither finished nor cancelled. -/
def DropsLive (task : TwitterForwarderTask) : Prop :=
  task.phase = .clearing ∧ ∃ k, task.tweetStream = some k ∧ task.streams[k]? = some .live

/-- The arguments with which `handle_tweet` calls `make_squeak`, if it gets there. -/
def squeakOf (tweet : Tweet) (task : TwitterForwarderTask) : Option (Int × String) :=
  if task.isTweetAMatch tweet = some true then tweet.text.map fun text => (task.twitterAccount.profileId, text) else none

/-- What the tweet in hand is yet to become. -/
def inHand (task : TwitterForwarderTask) : Option (Int × String) :=
  match task.phase with
  | .handling _ tweet => task.squeakOf tweet
  | _ => none

/-- Where the newest stream is to be found. -/
def holder (task : TwitterForwarderTask) : Option Nat :=
  match task.phase with
  | .assigning k => some k
  | _ => task.tweetStream

/-- What the thread relies on. If live streams are `kept`, the only live one is where it is to be found. -/
structure WF (kept : Prop) (task : TwitterForwarderTask) : Prop where
  held : task.phase.HoldsLock → task.lock = some .thread
  uses : ∀ k, task.phase.uses = some k → task.tweetStream = some k
  opens : task.phase.Opens → task.stopped = false
  live : kept → task.LiveOnly task.holder
  idle : kept → task.phase.Idle → task.LiveOnly none

/-- What the thread and the calls may do to a task. Once it is stopped it opens no stream, and once all its
streams have ended it takes no other tweet. -/
structure Evolves (task task' : TwitterForwarderTask) : Prop where
  account : task'.twitterAccount = task.twitterAccount
  stopped : task.stopped = true → task'.stopped = true
  live : task.stopped = true → ∀ k : Nat, task'.streams[k]? = some .live → task.streams[k]? = some .live
  drained : task.stopped = true → task.LiveOnly none →
    task'.squeaks ++ task'.inHand.toList = task.squeaks ++ task.inHand.toList

theorem allEnded_iff {task : TwitterForwarderTask} : task.AllEnded ↔ task.LiveOnly none := by
  constructor
  · intro h k hk
    exact absurd (List.mem_of_getElem? hk) h
  · intro h hmem
    obtain ⟨k, hk⟩ := List.mem_iff_getElem?.1 hmem
    cases h k hk

theorem LiveOnly.mono {task task' : TwitterForwarderTask} {e : Option Nat} (h : task.LiveOnly e)
    (hlive : ∀ k : Nat, task'.streams[k]? = some .live → task.streams[k]? = some .live) : task'.LiveOnly e :=
  fun k hk => h k (hlive k hk)

theorem WF.new (kept : Prop) (account : TwitterAccountEntry) : (new account).WF kept where
  held h := h.elim
  uses _ hk := by cases hk
  opens h := h.elim
  live _ _ hk := by cases hk
  idle _ _ _ hk := by cases hk

theorem Evolves.refl (task : TwitterForwarderTask) : task.Evolves task :=
  ⟨rfl, id, fun _ _ hk => hk, fun _ _ => rfl⟩

theorem Evolves.trans {task task' task'' : TwitterForwarderTask} (h : task.Evolves task') (h' : task'.Evolves task'') :
    task.Evolves task'' where
  account := h'.account.trans h.account
  stopped hs := h'.stopped (h.stopped hs)
  live hs k hk := h.live hs k (h'.live (h.stopped hs) k hk)
  drained hs hlive := (h'.drained (h.stopped hs) (hlive.mono (h.live hs))).trans (h.drained hs hlive)

/-! ## The steps of the thread -/

/-- A step of the thread: it keeps what the thread relies on, and leaves the lock to a call that has it. -/
structure ThreadStep (kept : Prop) (task task' : TwitterForwarderTask) : Prop extends Evolves task task' where
  wf : task'.WF kept
  lock : ∀ j, task.lock = some (.caller j) → task'.lock = some (.caller j)

/-- A thread that has the lock leaves nothing to say of a call that has it. -/
theorem WF.not_caller {kept : Prop} {task : TwitterForwarderTask} (h : task.WF kept)
    (hphase : task.phase.HoldsLock) {j : Nat}
    (hlock : task.lock = some (.caller j)) : False := by
  have hheld := h.held hphase
  rw [hlock] at hheld
  cases hheld

/-- `handle_tweet` turns into a squeak what was in hand, and nothing else. -/
theorem handleTweet_squeaks (k : Nat) (tweet : Tweet) (task : TwitterForwarderTask) :
    (task.handleTweet k tweet).squeaks ++ (task.handleTweet k tweet).inHand.toList =
      task.squeaks ++ (task.squeakOf tweet).toList := by
  unfold handleTweet squeakOf
  rcases hmatch : task.isTweetAMatch tweet with _ | _ | _
  · rfl
  · rfl
  · rcases htext : tweet.text with _ | text
    · rfl
    · exact (List.append_nil _)

/-- Wherever `handle_tweet` leads, the stream stays in use or the exception is caught. -/
theorem handleTweet_cases (k : Nat) (tweet : Tweet) (task : TwitterForwarderTask) :
    ∃ (phase : ThreadPhase) (squeaks : List (Int × String)),
      task.handleTweet k tweet = { task with phase := phase, squeaks := squeaks } ∧
      (phase = .clearing ∨ phase = .iterating k ∨ phase = .makingSqueak k) := by
  unfold handleTweet
  rcases task.isTweetAMatch tweet with _ | _ | _
  · exact ⟨.clearing, task.squeaks, rfl, .inl rfl⟩
  · exact ⟨.iterating k, task.squeaks, rfl, .inr (.inl rfl)⟩
  · rcases tweet.text with _ | text
    · exact ⟨.clearing, task.squeaks, rfl, .inl rfl⟩
    · exact ⟨.makingSqueak k, _, rfl, .inr (.inr rfl)⟩

/-- The thread moves to where it uses no stream. -/
theorem WF.moves {kept : Prop} {task : TwitterForwarderTask} (h : task.WF kept) {phase : ThreadPhase}
    (hheld : phase.HoldsLock → task.lock = some .thread) (huses : phase.uses = none)
    (hopens : phase.Opens → task.stopped = false)
    (hholder : TwitterForwarderTask.holder { task with phase := phase } = task.holder) (hhand : task.inHand = none)
    (hidle : kept → phase.Idle → task.LiveOnly none) : ThreadStep kept task { task with phase := phase } := by
  have hhand' : TwitterForwarderTask.inHand { task with phase := phase } = none := by
    cases phase <;> first | rfl | cases huses
  refine ⟨⟨rfl, id, fun _ _ hk => hk, fun _ _ => ?_⟩, ⟨hheld, fun k hk => ?_, hopens, fun hk => ?_, hidle⟩,
    fun j hj => hj⟩
  · rw [hhand, hhand']
  · cases huses.symm.trans hk
  · rw [hholder]
    exact h.live hk

/-- So it does without the lock. -/
theorem WF.leaves {kept : Prop} {task : TwitterForwarderTask} (h : task.WF kept) {phase : ThreadPhase}
    (hheld : ¬ phase.HoldsLock) (huses : phase.uses = none) (hholder : task.holder = task.tweetStream)
    (hhand : task.inHand = none) (hidle : kept → phase.Idle → task.LiveOnly none) :
    ThreadStep kept task { task with phase := phase } := by
  refine h.moves (fun hp => absurd hp hheld) huses (fun hp => absurd hp.holdsLock hheld) ?_ hhand hidle
  rw [hholder]
  cases phase <;> first | rfl | exact absurd trivial hheld

/-- It gives the lock back, with the newest stream in `tweet_stream`. -/
theorem WF.releases {kept : Prop} {task : TwitterForwarderTask} (h : task.WF kept) {phase : ThreadPhase}
    (hheld : task.phase.HoldsLock) (hfree : ¬ phase.HoldsLock) (huses : phase.uses = none)
    (hholder : task.holder = task.tweetStream) (hhand : task.inHand = none) (hidle : ¬ phase.Idle) :
    ThreadStep kept task { task with lock := none, phase := phase } := by
  have hleaves := h.leaves hfree huses hholder hhand fun _ hp => absurd hp hidle
  refine ⟨⟨rfl, id, hleaves.live, hleaves.drained⟩, ⟨fun hp => absurd hp hfree, hleaves.wf.uses, hleaves.wf.opens,
    hleaves.wf.live, hleaves.wf.idle⟩, fun j hj => (h.not_caller hheld hj).elim⟩

/-- The thread goes on with the stream in `tweet_stream`. -/
theorem WF.goesOn {kept : Prop} {task : TwitterForwarderTask} (h : task.WF kept) {phase : ThreadPhase} {k : Nat}
    {squeaks : List (Int × String)} (huses : phase.uses = some k) (hstream : task.tweetStream = some k)
    (hholder : task.holder = task.tweetStream)
    (hdrained : task.LiveOnly none →
      squeaks ++ (TwitterForwarderTask.inHand { task with phase := phase, squeaks := squeaks }).toList =
        task.squeaks ++ task.inHand.toList) :
    ThreadStep kept task { task with phase := phase, squeaks := squeaks } := by
  have hlive : kept → task.LiveOnly task.tweetStream := fun hk => hholder ▸ h.live hk
  cases phase <;> cases huses
  all_goals
    refine ⟨⟨rfl, id, fun _ _ hk => hk, fun _ => hdrained⟩, ⟨fun hp => hp.elim, fun k' hk' => ?_, fun hp => hp.elim,
      hlive, fun _ hp => hp.elim⟩, fun j hj => hj⟩
    cases hk'
    exact hstream

theorem advance_spec {kept : Prop} {task task' : TwitterForwarderTask} {tweet : Tweet} (h : task.WF kept)
    (hkept : kept → ¬ task.DropsLive) (ha : task.advance tweet = some task') : ThreadStep kept task task' := by
  obtain ⟨account, stopped, tweetStream, lock, phase, streams, squeaks⟩ := task
  cases phase with
  | checkingStopped =>
    cases ha
    cases stopped <;> exact h.leaves id rfl rfl rfl fun hk _ => h.idle hk trivial
  | acquiring =>
    obtain ⟨hlock, heq⟩ := Option.ite_none_right_eq_some.1 ha
    cases heq
    refine ⟨⟨rfl, id, fun _ _ hk => hk, fun _ _ => rfl⟩, ⟨fun _ => rfl, fun k hk => (by cases hk), fun hp => hp.elim,
      h.live, fun hk _ => h.idle hk trivial⟩, fun j hj => ?_⟩
    cases hlock.symm.trans hj
  | locked =>
    -- the flag is read under the lock: it stays unset until the stream is assigned
    cases ha
    cases stopped
    · exact h.moves (fun _ => h.held trivial) rfl (fun _ => rfl) rfl rfl fun hk _ => h.idle hk trivial
    · exact h.moves (fun _ => h.held trivial) rfl (fun hp => hp.elim) rfl rfl fun _ hp => hp.elim
  | opening =>
    cases ha
    have hstopped := h.opens trivial
    refine ⟨⟨rfl, id, fun hs => ?_, fun hs => ?_⟩, ⟨fun _ => h.held trivial, fun k hk => (by cases hk), fun _ => hstopped,
      fun hk k hlive => ?_, fun _ hp => hp.elim⟩, fun j hj => hj⟩
    · cases hstopped.symm.trans hs
    · cases hstopped.symm.trans hs
    · -- no other stream is live
      rcases Machine.getElem?_concat_cases hlive with ⟨rfl, -⟩ | ⟨-, hlive⟩
      · rfl
      · cases h.idle hk trivial k hlive
  | assigning k =>
    cases ha
    exact ⟨⟨rfl, id, fun _ _ hk => hk, fun _ _ => rfl⟩, ⟨fun _ => h.held trivial, fun k hk => (by cases hk),
      fun hp => hp.elim, h.live, fun _ hp => hp.elim⟩, fun j hj => hj⟩
  | releasing =>
    cases ha
    exact h.releases trivial id rfl rfl rfl id
  | unwinding =>
    cases ha
    exact h.releases trivial id rfl rfl rfl id
  | readingStream =>
    cases tweetStream with
    | none =>
      cases ha
      exact h.leaves id rfl rfl rfl fun _ hp => hp.elim
    | some k =>
      cases ha
      exact h.goesOn rfl rfl rfl fun _ => rfl
  | iterating k =>
    have hstream := h.uses k rfl
    by_cases hlive : streams[k]? = some .live
    · -- the only step that takes a tweet
      simp only [advance, if_pos hlive] at ha
      cases ha
      exact h.goesOn rfl hstream rfl fun hnone => (by cases hnone k hlive)
    · simp only [advance, if_neg hlive] at ha
      cases ha
      refine h.leaves id rfl rfl rfl fun hk _ k' hk' => ?_
      obtain rfl : k = k' := Option.some.inj (hstream.symm.trans (h.live hk k' hk'))
      exact absurd hk' hlive
  | handling k tweet =>
    have hstream := h.uses k rfl
    have hsqueaks := handleTweet_squeaks k tweet ⟨account, stopped, tweetStream, lock, .handling k tweet, streams, squeaks⟩
    obtain ⟨phase, squeaks', heq, hphase⟩ :=
      handleTweet_cases k tweet ⟨account, stopped, tweetStream, lock, .handling k tweet, streams, squeaks⟩
    simp only [advance, Option.some.injEq] at ha
    rw [ha] at heq hsqueaks
    subst heq
    rcases hphase with rfl | rfl | rfl
    · exact ⟨⟨rfl, id, fun _ _ hk => hk, fun _ _ => hsqueaks⟩, ⟨fun hp => hp.elim, fun k hk => (by cases hk),
        fun hp => hp.elim, h.live, fun _ hp => hp.elim⟩, fun j hj => hj⟩
    · exact h.goesOn rfl hstream rfl fun _ => hsqueaks
    · exact h.goesOn rfl hstream rfl fun _ => hsqueaks
  | makingSqueak k =>
    cases ha
    exact h.goesOn rfl (h.uses k rfl) rfl fun _ => rfl
  | clearing =>
    cases ha
    have hdropped : kept → ∀ k : Nat, streams[k]? ≠ some .live := fun hk k hlive =>
      hkept hk ⟨rfl, k, h.live hk k hlive, hlive⟩
    exact ⟨⟨rfl, id, fun _ _ hk => hk, fun _ _ => rfl⟩, ⟨fun hp => hp.elim, fun k hk => (by cases hk), fun hp => hp.elim,
      fun hk k hlive => absurd hlive (hdropped hk k), fun hk _ k hlive => absurd hlive (hdropped hk k)⟩, fun j hj => hj⟩
  | waiting =>
    cases ha
    exact h.leaves id rfl rfl rfl fun hk _ => h.idle hk trivial
  | ended => cases ha

theorem fail_spec {kept : Prop} {task task' : TwitterForwarderTask} (h : task.WF kept) (hf : task.fail = some task') :
    ThreadStep kept task task' := by
  obtain ⟨account, stopped, tweetStream, lock, phase, streams, squeaks⟩ := task
  unfold fail at hf
  split at hf
  · rename_i hphase
    cases hphase
    cases hf
    exact h.moves (fun _ => h.held trivial) rfl (fun hp => hp.elim) rfl rfl fun hk _ => h.idle hk trivial
  · rename_i k hphase
    cases hphase
    obtain ⟨-, heq⟩ := Option.ite_none_left_eq_some.1 hf
    cases heq
    exact h.leaves id rfl rfl rfl fun _ hp => hp.elim
  · rename_i k hphase
    cases hphase
    cases hf
    exact h.leaves id rfl rfl rfl fun _ hp => hp.elim
  · cases hf

/-- Streams that end. -/
theorem WF.shrinks {kept : Prop} {task : TwitterForwarderTask} (h : task.WF kept) {streams : List StreamStatus}
    (hlive : ∀ k : Nat, streams[k]? = some .live → task.streams[k]? = some .live) :
    ThreadStep kept task { task with streams := streams } where
  account := rfl
  stopped := id
  live _ := hlive
  drained _ _ := rfl
  wf := ⟨h.held, h.uses, h.opens, fun hk => (h.live hk).mono hlive, fun hk hp => (h.idle hk hp).mono hlive⟩
  lock _ hj := hj

theorem streamEnds_spec {kept : Prop} {task task' : TwitterForwarderTask} {k : Nat} (h : task.WF kept)
    (he : task.streamEnds k = some task') : ThreadStep kept task task' := by
  obtain ⟨-, heq⟩ := Option.ite_none_right_eq_some.1 he
  cases heq
  refine h.shrinks fun k' hk' => ?_
  rcases Machine.getElem?_set_cases hk' with ⟨-, heq⟩ | ⟨-, hk'⟩
  · cases heq
  · exact hk'

/-! ## The steps of `stop_processing` -/

end TwitterForwarderTask

open TwitterForwarderTask

/-- What a call in `stop_processing` relies on. It has the lock from when it acquires it; the task is stopped
once the flag is set, and no stream is live but the one that was read. -/
def StopPhase.Facts (kept : Prop) (j : Nat) (task : TwitterForwarderTask) : StopPhase → Prop
  | .acquiring | .raised => True
  | .settingFlag | .unwinding => task.lock = some (.caller j)
  | .testing | .reading => task.lock = some (.caller j) ∧ task.stopped = true
  | .cancelling k => task.lock = some (.caller j) ∧ task.stopped = true ∧ (kept → task.LiveOnly (some k))
  | .releasing => task.lock = some (.caller j) ∧ task.stopped = true ∧ (kept → task.LiveOnly none)
  | .returned => task.stopped = true ∧ (kept → task.LiveOnly none)

theorem StopPhase.Facts.thread {kept : Prop} {j : Nat} {task task' : TwitterForwarderTask} {phase : StopPhase}
    (h : phase.Facts kept j task) (ht : ThreadStep kept task task') : phase.Facts kept j task' := by
  have hlive : task.stopped = true → ∀ e, (kept → task.LiveOnly e) → kept → task'.LiveOnly e :=
    fun hs e he hk => (he hk).mono (ht.live hs)
  cases phase with
  | acquiring => trivial
  | raised => trivial
  | settingFlag => exact ht.lock j h
  | unwinding => exact ht.lock j h
  | testing => exact ⟨ht.lock j h.1, ht.stopped h.2⟩
  | reading => exact ⟨ht.lock j h.1, ht.stopped h.2⟩
  | cancelling k => exact ⟨ht.lock j h.1, ht.stopped h.2.1, hlive h.2.1 _ h.2.2⟩
  | releasing => exact ⟨ht.lock j h.1, ht.stopped h.2.1, hlive h.2.1 _ h.2.2⟩
  | returned => exact ⟨ht.stopped h.1, hlive h.1 _ h.2⟩

namespace TwitterForwarderTask

theorem live_of_cancel {streams : List StreamStatus} {k k' : Nat}
    (h : (streams.modify k StreamStatus.cancel)[k']? = some .live) : k' ≠ k ∧ streams[k']? = some .live := by
  rw [List.getElem?_modify] at h
  obtain ⟨status, hget, heq⟩ := Option.map_eq_some_iff.1 h
  split at heq
  · cases status <;> cases heq
  · rename_i hne
    cases heq
    exact ⟨fun heq => hne heq.symm, hget⟩

/-- While a call has the lock, the thread is about to assign no stream. -/
theorem WF.live_caller {kept : Prop} {task : TwitterForwarderTask} (h : task.WF kept) {j : Nat}
    (hlock : task.lock = some (.caller j)) (hk : kept) : task.LiveOnly task.tweetStream := by
  have hheld := fun hp => h.not_caller hp hlock
  have hlive := h.live hk
  obtain ⟨account, stopped, tweetStream, lock, phase, streams, squeaks⟩ := task
  cases phase with
  | assigning k => exact (hheld trivial).elim
  | _ => exact hlive

/-- A call gives the lock back. -/
theorem WF.released {kept : Prop} {task : TwitterForwarderTask} (h : task.WF kept) {j : Nat}
    (hlock : task.lock = some (.caller j)) : TwitterForwarderTask.WF kept { task with lock := none } :=
  ⟨fun hp => (h.not_caller hp hlock).elim, h.uses, h.opens, h.live, h.idle⟩

theorem stopStep_spec {kept : Prop} {task task' : TwitterForwarderTask} {j : Nat} {phase phase' : StopPhase}
    (h : task.WF kept) (hfacts : phase.Facts kept j task) (hs : task.stopStep j phase = some (task', phase')) :
    task'.WF kept ∧ task.Evolves task' ∧ phase'.Facts kept j task' := by
  cases phase with
  | acquiring =>
    obtain ⟨hlock, heq⟩ := Option.ite_none_right_eq_some.1 hs
    cases heq
    refine ⟨⟨fun hp => ?_, h.uses, h.opens, h.live, h.idle⟩, ⟨rfl, id, fun _ _ hk => hk, fun _ _ => rfl⟩, rfl⟩
    cases hlock.symm.trans (h.held hp)
  | settingFlag =>
    cases hs
    have hlock : task.lock = some (.caller j) := hfacts
    exact ⟨⟨h.held, h.uses, fun hp => (h.not_caller hp.holdsLock hlock).elim, h.live, h.idle⟩,
      ⟨rfl, fun _ => rfl, fun _ _ hk => hk, fun _ _ => rfl⟩, hlock, rfl⟩
  | testing =>
    obtain ⟨hlock, hstopped⟩ := hfacts
    cases hs
    refine ⟨h, .refl task, ?_⟩
    rcases hstream : task.tweetStream with _ | k
    · exact ⟨hlock, hstopped, fun hk => hstream ▸ h.live_caller hlock hk⟩
    · exact ⟨hlock, hstopped⟩
  | reading =>
    obtain ⟨hlock, hstopped⟩ := hfacts
    rcases hstream : task.tweetStream with _ | k <;> simp only [stopStep, hstream] at hs <;> cases hs
    · exact ⟨h, .refl task, hlock⟩
    · exact ⟨h, .refl task, hlock, hstopped, fun hk => hstream ▸ h.live_caller hlock hk⟩
  | cancelling k =>
    obtain ⟨hlock, hstopped, hlive⟩ := hfacts
    cases hs
    have hstep : ThreadStep kept task (task.cancelStream k) := h.shrinks fun _ hk' => (live_of_cancel hk').2
    refine ⟨hstep.wf, hstep.toEvolves, hlock, hstopped, fun hk k' hk' => ?_⟩
    -- the one that was live is cancelled now
    obtain ⟨hne, hk'⟩ := live_of_cancel hk'
    exact absurd (Option.some.inj (hlive hk k' hk')).symm hne
  | releasing =>
    obtain ⟨hlock, hstopped, hlive⟩ := hfacts
    cases hs
    exact ⟨h.released hlock, ⟨rfl, id, fun _ _ hk => hk, fun _ _ => rfl⟩, hstopped, hlive⟩
  | unwinding =>
    have hlock : task.lock = some (.caller j) := hfacts
    cases hs
    exact ⟨h.released hlock, ⟨rfl, id, fun _ _ hk => hk, fun _ _ => rfl⟩, trivial⟩
  | returned => cases hs
  | raised => cases hs

end TwitterForwarderTask

end TwitterForwarding

end Squeaknode
