/-
The table of Twitter accounts and the forwarder. A request of the admin adds an account or deletes one and then
restarts the forwarder, in a thread of its own that stops the tasks and starts one for each account that it
finds in the table. Requests come at any time, also while the forwarder is being restarted, so that a restart
may read a table that is out of date by the time it starts the tasks.

The restart that gets the lock last has read the table after the last write: once the last request is made, and
unless a call raises, there comes to be one task for each account in the table, with its profile and token, and
all other tasks have ended (`accounts_followed`).
-/
import Squeaknode.Node.ForwarderProgress
import Squeaknode.Relational.Table

namespace Squeaknode

open Interleave Relational

namespace TwitterForwarding

/-! ## The table -/

/-- A row of the table `twitter_account`. -/
structure TwitterAccountRow where
  twitterAccountId : Nat
  handle : String
  profileId : Int
  bearerToken : String
  deriving DecidableEq

/-- The columns `twitter_account_id` and `handle` are unique. -/
structure TwitterAccounts where
  rows : List TwitterAccountRow
  ids : UniqueOn TwitterAccountRow.twitterAccountId rows
  handles : UniqueOn TwitterAccountRow.handle rows
  deriving DecidableEq

namespace TwitterAccounts

/-- The primary key is no AUTOINCREMENT column: the next value is one more than the largest in the table. -/
def nextId (rows : List TwitterAccountRow) : Nat := (rows.map TwitterAccountRow.twitterAccountId).foldr max 0 + 1

theorem lt_nextId {rows : List TwitterAccountRow} {r : TwitterAccountRow} (h : r ∈ rows) :
    r.twitterAccountId < nextId rows := by
  induction rows with
  | nil => cases h
  | cons r' rows ih =>
    have hmax : nextId (r' :: rows) = max r'.twitterAccountId (nextId rows - 1) + 1 := rfl
    rw [hmax]
    rcases List.mem_cons.1 h with rfl | h
    · omega
    · have hlt := ih h
      omega

theorem taken_nextId (rows : List TwitterAccountRow) : taken TwitterAccountRow.twitterAccountId (nextId rows) rows =
    false :=
  taken_eq_false.2 fun _ hr => Nat.ne_of_lt (lt_nextId hr)

/-- `insert_twitter_account`: `None` if the handle is in the table. -/
def insertTwitterAccount (handle : String) (profileId : Int) (bearerToken : String) (accounts : TwitterAccounts) :
    Option Nat × TwitterAccounts :=
  if hfree : taken TwitterAccountRow.handle handle accounts.rows = false then
    (some (nextId accounts.rows),
      ⟨accounts.rows ++ [⟨nextId accounts.rows, handle, profileId, bearerToken⟩],
        accounts.ids.append (taken_nextId accounts.rows), accounts.handles.append hfree⟩)
  else (none, accounts)

def deleteTwitterAccount (twitterAccountId : Int) (accounts : TwitterAccounts) : TwitterAccounts :=
  let rows := deleteWhere (fun r => (r.twitterAccountId : Int) == twitterAccountId) accounts.rows
  ⟨rows, uniqueOn_deleteWhere accounts.ids, uniqueOn_deleteWhere accounts.handles⟩

/-- `get_twitter_accounts`, as far as the forwarder reads it. The join with the profiles adds columns to a row,
and no rows. -/
def getTwitterAccounts (accounts : TwitterAccounts) : List TwitterAccountEntry :=
  accounts.rows.map fun r => ⟨r.handle, r.profileId, r.bearerToken⟩

theorem handles_getTwitterAccounts (accounts : TwitterAccounts) :
    (accounts.getTwitterAccounts.map TwitterAccountEntry.handle).Nodup := by
  rw [getTwitterAccounts, List.map_map]
  exact accounts.handles

end TwitterAccounts

/-! ## The requests -/

/-- The requests that write the table of accounts. -/
inductive AccountRequest where
  | addTwitterAccount (handle : String) (profileId : Int) (bearerToken : String)
  | deleteTwitterAccount (twitterAccountId : Int)
  deriving DecidableEq

/-- What a request does to the table, and what it answers. -/
def AccountRequest.write : AccountRequest → TwitterAccounts → Option Nat × TwitterAccounts
  | .addTwitterAccount handle profileId bearerToken, accounts =>
    accounts.insertTwitterAccount handle profileId bearerToken
  | .deleteTwitterAccount twitterAccountId, accounts => (none, accounts.deleteTwitterAccount twitterAccountId)

/-- Where a request is in the controller. -/
inductive RequestPhase where
  /-- before the statement that writes the table -/
  | writing (request : AccountRequest)
  /-- before `self.tweet_forwarder.restart()` -/
  | restarting (reply : Option Nat)
  | answered (reply : Option Nat)
  /-- the request has raised, and the table is `written` or not -/
  | raised (written : Bool)
  deriving DecidableEq

/-- `is_processing` -/
def TwitterForwarder.isProcessing (handle : String) (s : TwitterForwarder) : Bool :=
  (findBy Prod.fst handle s.currentTasks).any fun entry => (s.tasks[entry.2]?).any fun task => task.tweetStream.isSome

/-- The accounts, the requests of the controller and the forwarder. -/
structure TwitterNode where
  accounts : TwitterAccounts
  requests : List RequestPhase
  forwarder : TwitterForwarder
  deriving DecidableEq

/-- The next step of the worker, a request or the forwarder. -/
inductive NodeAction where
  /-- `ProcessForwardTweetsWorker` begins with `start_processing` -/
  | startRunning
  /-- and ends with `stop_processing` -/
  | stopRunning
  | request (request : AccountRequest)
  /-- the next step of a request -/
  | proceed (k : Nat)
  /-- the statement of a request raises, or the thread of its restart does not start -/
  | requestFails (k : Nat)
  /-- a step of the forwarder that is not the begin of a call -/
  | forwarder (a : Action)
  deriving DecidableEq

/-- A call of the forwarder reads the accounts of the table, in whatever order they come. -/
def Action.readsFrom (accounts : TwitterAccounts) : Action → Bool
  | .call _ => false
  | .accounts _ entries => entries.isPerm accounts.getTwitterAccounts
  | _ => true

namespace TwitterNode

/-- The node starts with the accounts that its database has. -/
def start (accounts : TwitterAccounts) : TwitterNode := ⟨accounts, [], .start⟩

/-- Request `k` is now in `phase`. -/
def setRequest (k : Nat) (phase : RequestPhase) (s : TwitterNode) : TwitterNode :=
  { s with requests := s.requests.set k phase }

/-- A step of the forwarder. -/
def forward (a : Action) (s : TwitterNode) : Option TwitterNode :=
  (TwitterForwarder.step a s.forwarder).map fun forwarder => { s with forwarder := forwarder }

/-- The next step of a request: the statement that writes the table, then the restart. -/
def proceed (k : Nat) (phase : RequestPhase) (s : TwitterNode) : Option TwitterNode :=
  match phase with
  | .writing request =>
    some (setRequest k (.restarting (request.write s.accounts).1) { s with accounts := (request.write s.accounts).2 })
  | .restarting reply => (s.setRequest k (.answered reply)).forward (.call .restart)
  | .answered _ => none
  | .raised _ => none

/-- A request raises where it is. -/
def requestFails (k : Nat) (phase : RequestPhase) (s : TwitterNode) : Option TwitterNode :=
  match phase with
  | .writing _ => some (s.setRequest k (.raised false))
  | .restarting _ => some (s.setRequest k (.raised true))
  | .answered _ => none
  | .raised _ => none

/-- What an action does, if it can happen. -/
def step : NodeAction → TwitterNode → Option TwitterNode
  | .startRunning, s => s.forward (.call .startProcessing)
  | .stopRunning, s => s.forward (.call .stopProcessing)
  | .request request, s => some { s with requests := s.requests ++ [.writing request] }
  | .proceed k, s => (s.requests[k]?).bind fun phase => s.proceed k phase
  | .requestFails k, s => (s.requests[k]?).bind fun phase => s.requestFails k phase
  | .forwarder a, s => if a.readsFrom s.accounts then s.forward a else none

/-! ## Tasks that follow the table of accounts -/

/-- The task `i` runs for the account, as the only one of its handle, and `is_processing` tells whether it has a
stream. -/
structure RunsFor (account : TwitterAccountEntry) (i : Nat) (task : TwitterForwarderTask)
    (s : TwitterForwarder) : Prop where
  get : s.tasks[i]? = some task
  running : task.stopped = false
  same : task.twitterAccount = account
  alone : ∀ (i' : Nat) (task' : TwitterForwarderTask), s.tasks[i']? = some task' → task'.stopped = false →
    task'.twitterAccount.handle = account.handle → i' = i
  processing : s.isProcessing account.handle = task.tweetStream.isSome

/-- The tasks that are not stopped are those of the accounts in the table. -/
structure Follows (s : TwitterNode) : Prop where
  only : ∀ task ∈ s.forwarder.tasks, task.stopped = false → task.twitterAccount ∈ s.accounts.getTwitterAccounts
  each : ∀ account ∈ s.accounts.getTwitterAccounts, ∃ i task, RunsFor account i task s.forwarder

/-- No call of the forwarder has raised, and no request between its write and its restart. -/
structure NoneRaised (s : TwitterNode) : Prop where
  calls : ∀ phase ∈ s.forwarder.callers, phase ≠ .raised
  requests : ∀ phase ∈ s.requests, phase ≠ .raised true

end TwitterNode

/-- The action begins a request, or a call of the worker. -/
def NodeAction.Begins : NodeAction → Prop
  | .startRunning | .stopRunning | .request _ => True
  | _ => False

/-- The action is a step of the request `k`. -/
def NodeAction.OfRequest (k : Nat) : NodeAction → Prop
  | .proceed k' | .requestFails k' => k' = k
  | _ => False

/-- The action is a step of the forwarder in the class `A`. -/
def NodeAction.OfForwarder (A : Action → Prop) : NodeAction → Prop
  | .forwarder a => A a
  | _ => False

/-! ## The invariant -/

/-- How many steps a request has left. -/
def RequestPhase.left : RequestPhase → Nat
  | .writing _ => 2
  | .restarting _ => 1
  | .answered _ | .raised _ => 0

/-- The call that its next step makes. -/
def RequestPhase.forwards : RequestPhase → Option Action
  | .restarting _ => some (.call .restart)
  | _ => none

/-- The call has read the accounts, or is over without having raised. -/
def CallerPhase.Settled : CallerPhase → Prop
  | .creating _ | .releasing | .returned => True
  | _ => False

/-- The call is none of `stop_processing`. -/
def CallerPhase.Starts : CallerPhase → Prop
  | .acquiring starts | .stopping starts _ | .stoppingTask starts _ _ _ _ => starts = true
  | _ => True

/-- The accounts that are yet to get a task. -/
def CallerPhase.toCreate : CallerPhase → List TwitterAccountEntry
  | .creating accounts => accounts
  | _ => []

/-- The table may have been written, and no restart has been asked for. -/
def RequestPhase.Owes : RequestPhase → Prop
  | .restarting _ | .raised true => True
  | _ => False

namespace TwitterForwarder

/-- The accounts that the call with the lock is yet to create a task for. -/
def toCreate (s : TwitterForwarder) : List TwitterAccountEntry :=
  (s.lock.bind fun j => s.callers[j]?).elim [] CallerPhase.toCreate

/-- The entry of `current_tasks` is a task of the account that is not stopped. -/
def Entered (tasks : List TwitterForwarderTask) (entry : String × Nat) (account : TwitterAccountEntry) : Prop :=
  entry.1 = account.handle ∧ ∃ task, tasks[entry.2]? = some task ∧ task.stopped = false ∧ task.twitterAccount = account

/-- The tasks in `current_tasks`, with those yet to be created, are those of the accounts. -/
def UpToDate (accounts : List TwitterAccountEntry) (s : TwitterForwarder) : Prop :=
  ∃ running : List TwitterAccountEntry, List.Forall₂ (Entered s.tasks) s.currentTasks running ∧
    (running ++ s.toCreate).Perm accounts

/-- No call was made yet, or some call is yet to read the accounts or has raised. -/
def Behind (s : TwitterForwarder) : Prop :=
  s.callers = [] ∨ ∃ (j : Nat) (phase : CallerPhase), s.callers[j]? = some phase ∧ ¬ phase.Settled

theorem toCreate_eq {s : TwitterForwarder} {j : Nat} {phase : CallerPhase} (hlock : s.lock = some j)
    (hj : s.callers[j]? = some phase) : s.toCreate = phase.toCreate := by
  simp [toCreate, hlock, hj]

theorem getElem?_setCaller {s : TwitterForwarder} {j : Nat} {phase phase' : CallerPhase} (hj : s.callers[j]? = some phase) :
    (s.callers.set j phase')[j]? = some phase' :=
  List.getElem?_set_self (List.getElem?_eq_some_iff.1 hj).1

/-- A call that moves to where it is yet to read the accounts, or has raised. -/
theorem behind_set {s s' : TwitterForwarder} {j : Nat} {phase phase' : CallerPhase} (hj : s.callers[j]? = some phase)
    (hcallers : s'.callers = s.callers.set j phase') (h : ¬ phase'.Settled) : s'.Behind :=
  .inr ⟨j, phase', hcallers ▸ getElem?_setCaller hj, h⟩

/-- A call that is settled and moves leaves the others behind. -/
theorem Behind.set {s s' : TwitterForwarder} (h : s.Behind) {j : Nat} {phase phase' : CallerPhase}
    (hj : s.callers[j]? = some phase) (hsettled : phase.Settled) (hcallers : s'.callers = s.callers.set j phase') :
    s'.Behind := by
  rcases h with hnil | ⟨j', other, hj', hother⟩
  · rw [hnil] at hj
    cases hj
  · refine .inr ⟨j', other, ?_, hother⟩
    rw [hcallers, List.getElem?_set_ne, hj']
    rintro rfl
    rw [hj] at hj'
    cases hj'
    exact hother hsettled

theorem UpToDate.tasks {s s' : TwitterForwarder} {accounts : List TwitterAccountEntry} (h : s.UpToDate accounts)
    (htasks : ∀ entry ∈ s.currentTasks, ∀ account, Entered s.tasks entry account → Entered s'.tasks entry account)
    (hcurrent : s'.currentTasks = s.currentTasks) (hcreate : s'.toCreate = s.toCreate) : s'.UpToDate accounts := by
  obtain ⟨running, hrunning, hperm⟩ := h
  refine ⟨running, ?_, hcreate ▸ hperm⟩
  rw [hcurrent]
  rw [List.forall₂_iff_get] at hrunning ⊢
  exact ⟨hrunning.1, fun i hi hi' => htasks _ (List.get_mem _ _) _ (hrunning.2 i hi hi')⟩

/-- A task is created for the next account. -/
theorem UpToDate.create {s : TwitterForwarder} {accounts entries : List TwitterAccountEntry} {account : TwitterAccountEntry}
    {j : Nat} (h : s.UpToDate accounts) (hg : s.Going) (hj : s.callers[j]? = some (.creating (account :: entries))) :
    UpToDate accounts ((putTask account.handle s.tasks.length { s with tasks := s.tasks ++ [.new account] }).setCaller j
      (.creating entries)) := by
  obtain ⟨hlock, -, hfresh⟩ := hg.callers j _ hj
  obtain ⟨running, hrunning, hperm⟩ := h
  rw [putTask_absent (s := { s with tasks := s.tasks ++ [.new account] })
    fun entry hentry heq => hfresh entry hentry (heq ▸ List.mem_cons_self)]
  refine ⟨running ++ [account], ?_, ?_⟩
  · refine List.rel_append ?_ (.cons ⟨rfl, .new account, List.getElem?_concat_length, rfl, rfl⟩ .nil)
    refine hrunning.imp fun entry account h => ?_
    obtain ⟨hhandle, task, hget, hstopped, haccount⟩ := h
    refine ⟨hhandle, task, ?_, hstopped, haccount⟩
    show (s.tasks ++ _)[entry.2]? = some task
    rw [List.getElem?_append_left (List.getElem?_eq_some_iff.1 hget).1]
    exact hget
  · have hcreate : toCreate (setCaller j (.creating entries) { s with
        tasks := s.tasks ++ [.new account], currentTasks := s.currentTasks ++ [(account.handle, s.tasks.length)] }) =
        (CallerPhase.creating entries).toCreate := toCreate_eq hlock (getElem?_setCaller hj)
    rw [hcreate, List.append_assoc]
    rw [toCreate_eq hlock hj] at hperm
    exact hperm

/-- A call of `start_processing` that has not read the accounts, or unwinds, stays so. -/
theorem callerStep_unsettled {s s' : TwitterForwarder} {j : Nat} {phase : CallerPhase} (hphase : ¬ phase.Settled)
    (hne : phase ≠ .listing) (hstarts : phase.Starts) (h : s.callerStep j phase = some s') :
    ∃ phase', s'.callers = s.callers.set j phase' ∧ ¬ phase'.Settled ∧ phase'.Starts := by
  cases phase with
  | acquiring starts =>
    obtain ⟨-, heq⟩ := Option.ite_none_right_eq_some.1 h
    cases heq
    exact ⟨.stopping starts s.currentTasks, rfl, id, hstarts⟩
  | stopping starts todo =>
    obtain rfl : starts = true := hstarts
    rcases todo with _ | ⟨⟨handle, i⟩, todo⟩ <;> cases h
    · exact ⟨.listing, rfl, id, trivial⟩
    · exact ⟨.stoppingTask true handle i todo .acquiring, rfl, id, rfl⟩
  | stoppingTask starts handle i todo phase =>
    obtain rfl : starts = true := hstarts
    cases phase with
    | returned =>
      cases h
      exact ⟨.stopping true todo, rfl, id, rfl⟩
    | raised =>
      cases h
      exact ⟨.unwinding, rfl, id, trivial⟩
    | _ =>
      obtain ⟨task, -, h⟩ := Option.bind_eq_some_iff.1 h
      obtain ⟨r, -, rfl⟩ := Option.map_eq_some_iff.1 h
      exact ⟨.stoppingTask true handle i todo r.2, rfl, id, rfl⟩
  | listing => exact absurd rfl hne
  | creating accounts => exact absurd trivial hphase
  | releasing => exact absurd trivial hphase
  | unwinding =>
    cases h
    exact ⟨.raised, rfl, id, trivial⟩
  | returned => exact absurd trivial hphase
  | raised => cases h

/-- One that has read them makes `current_tasks` what it has read. -/
theorem callerStep_settled (accounts : List TwitterAccountEntry) {s s' : TwitterForwarder} {j : Nat} {phase : CallerPhase}
    (hg : s.Going) (hj : s.callers[j]? = some phase) (hphase : phase.Settled) (h : s.callerStep j phase = some s') :
    ∃ phase', s'.callers = s.callers.set j phase' ∧ phase'.Starts ∧ (s.UpToDate accounts → s'.UpToDate accounts) := by
  have hfacts := hg.callers j phase hj
  cases phase with
  | creating entries =>
    cases entries with
    | nil =>
      cases h
      refine ⟨.releasing, rfl, trivial, fun hup => hup.tasks (fun _ _ _ => id) rfl ?_⟩
      have hcreate : toCreate (s.setCaller j .releasing) = CallerPhase.releasing.toCreate :=
        toCreate_eq hfacts.1 (getElem?_setCaller hj)
      rw [hcreate, toCreate_eq hfacts.1 hj]
      rfl
    | cons account entries =>
      cases h
      refine ⟨.creating entries, ?_, trivial, fun hup => hup.create hg hj⟩
      show (putTask _ _ _).callers.set j _ = _
      unfold putTask
      split <;> rfl
  | releasing =>
    cases h
    refine ⟨.returned, rfl, trivial, fun hup => hup.tasks (fun _ _ _ => id) rfl ?_⟩
    rw [toCreate_eq hfacts hj]
    rfl
  | returned => cases h
  | _ => exact hphase.elim

theorem starts_set {callers : List CallerPhase} (hstarts : ∀ phase ∈ callers, phase.Starts) {j : Nat} {phase' : CallerPhase}
    (h : phase'.Starts) : ∀ phase ∈ callers.set j phase', phase.Starts := by
  intro phase hmem
  rcases List.mem_or_eq_of_mem_set hmem with hmem | rfl
  · exact hstarts phase hmem
  · exact h

/-- Every step of the forwarder, as long as no call of `stop_processing` is made and the accounts stay as they are. -/
theorem upToDate_step {s s' : TwitterForwarder} {accounts : TwitterAccounts} {a : Action} (hg : s.Going)
    (hstarts : ∀ phase ∈ s.callers, phase.Starts) (hread : a.readsFrom accounts = true)
    (h : TwitterForwarder.step a s = some s') :
    (∀ phase ∈ s'.callers, phase.Starts) ∧
      (s.Behind ∨ s.UpToDate accounts.getTwitterAccounts → s'.Behind ∨ s'.UpToDate accounts.getTwitterAccounts) := by
  by_cases hcall : a.OfCall
  · cases a with
    | caller j =>
      obtain ⟨phase, hj, hcaller⟩ := Option.bind_eq_some_iff.1 h
      have hphase := hstarts phase (List.mem_of_getElem? hj)
      by_cases hsettled : phase.Settled
      · obtain ⟨phase', hcallers, hphase', hup⟩ := callerStep_settled accounts.getTwitterAccounts hg hj hsettled hcaller
        exact ⟨hcallers ▸ starts_set hstarts hphase', fun htasks => htasks.imp (fun hb => hb.set hj hsettled hcallers) hup⟩
      · have hne : phase ≠ .listing := by
          rintro rfl
          cases hcaller
        obtain ⟨phase', hcallers, hunsettled, hphase'⟩ := callerStep_unsettled hsettled hne hphase hcaller
        exact ⟨hcallers ▸ starts_set hstarts hphase', fun _ => .inl (behind_set hj hcallers hunsettled)⟩
    | accounts j entries =>
      obtain ⟨⟨hj, -⟩, heq⟩ := Option.ite_none_right_eq_some.1 h
      cases heq
      obtain ⟨hlock, hcurrent⟩ := hg.callers j _ hj
      refine ⟨starts_set hstarts trivial, fun _ => .inr ⟨[], ?_, ?_⟩⟩
      · show List.Forall₂ _ s.currentTasks []
        rw [hcurrent]
        exact .nil
      · have hcreate : toCreate (s.setCaller j (.creating entries)) = (CallerPhase.creating entries).toCreate :=
          toCreate_eq hlock (getElem?_setCaller hj)
        rw [hcreate]
        exact List.isPerm_iff.1 hread
    | callerFails j =>
      simp only [TwitterForwarder.step] at h
      split at h
      · rename_i hj
        cases h
        exact ⟨starts_set hstarts trivial, fun _ => .inl (behind_set hj rfl id)⟩
      · rename_i account entries hj
        cases h
        exact ⟨starts_set hstarts trivial, fun _ => .inl (behind_set hj rfl id)⟩
      · cases h
    | _ => exact hcall.elim
  · have hnocall : ∀ c, a ≠ .call c := by
      rintro c rfl
      cases hread
    obtain ⟨i, task, task', hget, rfl, hmoves⟩ := hg.taskStep hnocall hcall h
    have hstopped : task'.stopped = task.stopped := by
      rcases hmoves with ⟨hm, -⟩ | ⟨⟨k, hends⟩, -⟩
      · exact hm.stopped
      · obtain ⟨-, heq⟩ := Option.ite_none_right_eq_some.1 hends
        cases heq
        rfl
    have hlt := (List.getElem?_eq_some_iff.1 hget).1
    have haccount : task'.twitterAccount = task.twitterAccount := by
      obtain ⟨task'', hget', hev⟩ := (hg.toInv.step (fun _ hk => hk.elim) h).2 i task hget
      rw [show (s.setTask i task').tasks[i]? = some task' from List.getElem?_set_self hlt] at hget'
      cases hget'
      exact hev.account
    refine ⟨hstarts, fun htasks => htasks.imp id fun hup => hup.tasks (fun entry _ account hentered => ?_) rfl rfl⟩
    obtain ⟨hhandle, t, ht, hrunning, hsame⟩ := hentered
    by_cases heq : i = entry.2
    · subst heq
      rw [hget] at ht
      cases ht
      exact ⟨hhandle, task', List.getElem?_set_self hlt, hstopped.trans hrunning, haccount.trans hsame⟩
    · exact ⟨hhandle, t, (List.getElem?_set_ne heq).trans ht, hrunning, hsame⟩

theorem length_callerStep {s s' : TwitterForwarder} {j : Nat} {phase : CallerPhase} (h : s.callerStep j phase = some s') :
    s'.callers.length = s.callers.length := by
  cases phase with
  | acquiring starts =>
    obtain ⟨-, heq⟩ := Option.ite_none_right_eq_some.1 h
    cases heq
    exact List.length_set
  | stopping starts todo =>
    cases todo <;> cases h <;> exact List.length_set
  | stoppingTask starts handle i todo phase =>
    cases phase with
    | returned =>
      cases h
      exact List.length_set
    | raised =>
      cases h
      exact List.length_set
    | _ =>
      obtain ⟨task, -, h⟩ := Option.bind_eq_some_iff.1 h
      obtain ⟨r, -, rfl⟩ := Option.map_eq_some_iff.1 h
      exact List.length_set
  | creating entries =>
    cases entries with
    | nil =>
      cases h
      exact List.length_set
    | cons account entries =>
      cases h
      show ((putTask _ _ _).callers.set j _).length = _
      rw [List.length_set]
      unfold putTask
      split <;> rfl
  | releasing =>
    cases h
    exact List.length_set
  | unwinding =>
    cases h
    exact List.length_set
  | _ => cases h

/-- No call is forgotten. -/
theorem length_callers_step {s s' : TwitterForwarder} {a : Action} (hg : s.Going)
    (h : TwitterForwarder.step a s = some s') :
    s.callers.length ≤ s'.callers.length := by
  by_cases hcall : a.OfCall
  · cases a with
    | caller j =>
      obtain ⟨phase, -, hcaller⟩ := Option.bind_eq_some_iff.1 h
      exact Nat.le_of_eq (length_callerStep hcaller).symm
    | accounts j entries =>
      obtain ⟨-, heq⟩ := Option.ite_none_right_eq_some.1 h
      cases heq
      exact Nat.le_of_eq List.length_set.symm
    | callerFails j =>
      simp only [TwitterForwarder.step] at h
      split at h <;> cases h <;> exact Nat.le_of_eq List.length_set.symm
    | _ => exact hcall.elim
  · by_cases hnew : ∃ c, a = .call c
    · obtain ⟨c, rfl⟩ := hnew
      cases h
      show s.callers.length ≤ (s.callers ++ [c.entry]).length
      simp
    · obtain ⟨i, task, task', -, rfl, -⟩ := hg.taskStep (fun c hc => hnew ⟨c, hc⟩) hcall h
      exact Nat.le_refl _

end TwitterForwarder

namespace TwitterNode

/-! ## Runs -/

/-- If the forwarder is behind with the table, a request or a call is to bring it up to date; unless one has raised. -/
structure Inv (s : TwitterNode) : Prop where
  going : s.forwarder.Going
  starts : ∀ phase ∈ s.forwarder.callers, phase.Starts
  tasks : (∃ (k : Nat) (phase : RequestPhase), s.requests[k]? = some phase ∧ phase.Owes) ∨ s.forwarder.Behind ∨
    s.forwarder.UpToDate s.accounts.getTwitterAccounts

theorem inv_start (accounts : TwitterAccounts) : (start accounts).Inv :=
  ⟨TwitterForwarder.going_start, fun phase hmem => (by cases hmem), .inr (.inl (.inl rfl))⟩

/-- A new call of `start_processing`. -/
theorem inv_call {s s' : TwitterNode} (hg : s.forwarder.Going) (hstarts : ∀ phase ∈ s.forwarder.callers, phase.Starts)
    {c : Call} (hentry : c.entry = .acquiring true) (h : s.forward (.call c) = some s') : s'.Inv := by
  obtain ⟨f, hf, rfl⟩ := Option.map_eq_some_iff.1 h
  have hgoing := hg.step hf
  cases hf
  rw [hentry] at hgoing ⊢
  refine ⟨hgoing, fun phase hmem => ?_, .inr (.inl (.inr ⟨s.forwarder.callers.length, .acquiring true, ?_, id⟩))⟩
  · rcases List.mem_append.1 hmem with hmem | hmem
    · exact hstarts phase hmem
    · rw [List.mem_singleton.1 hmem]
      rfl
  · exact List.getElem?_concat_length

/-- A request that has its write behind it, and its restart before it. -/
theorem inv_owes {s s' : TwitterNode} (hi : s.Inv) {k : Nat} {phase phase' : RequestPhase}
    (hk : s.requests[k]? = some phase) (howes : phase'.Owes) (hforwarder : s'.forwarder = s.forwarder)
    (hrequests : s'.requests = s.requests.set k phase') : s'.Inv :=
  ⟨hforwarder ▸ hi.going, hforwarder ▸ hi.starts,
    .inl ⟨k, phase', hrequests ▸ List.getElem?_set_self (List.getElem?_eq_some_iff.1 hk).1, howes⟩⟩

theorem Inv.step {s s' : TwitterNode} {a : NodeAction} (hi : s.Inv) (hstop : a ≠ .stopRunning)
    (h : TwitterNode.step a s = some s') : s'.Inv := by
  cases a with
  | startRunning => exact inv_call hi.going hi.starts rfl h
  | stopRunning => exact absurd rfl hstop
  | request request =>
    cases h
    refine ⟨hi.going, hi.starts, hi.tasks.imp (fun howes => ?_) id⟩
    obtain ⟨k, phase, hk, howes⟩ := howes
    exact ⟨k, phase, (List.getElem?_append_left (List.getElem?_eq_some_iff.1 hk).1).trans hk, howes⟩
  | proceed k =>
    obtain ⟨phase, hk, h⟩ := Option.bind_eq_some_iff.1 h
    cases phase with
    | writing request =>
      cases h
      exact inv_owes hi hk (show RequestPhase.Owes (.restarting (request.write s.accounts).1) from trivial) rfl rfl
    | restarting reply =>
      exact inv_call (s := s.setRequest k (.answered reply)) (c := .restart) hi.going hi.starts rfl h
    | answered reply => cases h
    | raised written => cases h
  | requestFails k =>
    obtain ⟨phase, hk, h⟩ := Option.bind_eq_some_iff.1 h
    cases phase with
    | writing request =>
      cases h
      refine ⟨hi.going, hi.starts, hi.tasks.imp (fun howes => ?_) id⟩
      obtain ⟨k', phase', hk', howes⟩ := howes
      refine ⟨k', phase', ?_, howes⟩
      show (s.requests.set k _)[k']? = some phase'
      rw [List.getElem?_set_ne, hk']
      rintro rfl
      rw [hk] at hk'
      cases hk'
      exact howes
    | restarting reply =>
      cases h
      exact inv_owes hi hk (show RequestPhase.Owes (.raised true) from trivial) rfl rfl
    | answered reply => cases h
    | raised written => cases h
  | forwarder a =>
    obtain ⟨hread, h⟩ := Option.ite_none_right_eq_some.1 h
    obtain ⟨f, hf, rfl⟩ := Option.map_eq_some_iff.1 h
    obtain ⟨hstarts, htasks⟩ := TwitterForwarder.upToDate_step hi.going hi.starts hread hf
    exact ⟨hi.going.step hf, hstarts, hi.tasks.imp id htasks⟩

/-- Where nothing is under way and nothing has raised, the tasks are those of the table. -/
theorem Inv.follows {s : TwitterNode} (hi : s.Inv) (hstarted : s.forwarder.callers ≠ [])
    (hcalls : ∀ phase ∈ s.forwarder.callers, phase = .returned) (hrequests : ∀ phase ∈ s.requests, ¬ phase.Owes) :
    s.Follows := by
  have hup : s.forwarder.UpToDate s.accounts.getTwitterAccounts := by
    rcases hi.tasks with ⟨k, phase, hk, howes⟩ | hbehind | hup
    · exact absurd howes (hrequests phase (List.mem_of_getElem? hk))
    · rcases hbehind with hnil | ⟨j, phase, hj, hphase⟩
      · exact absurd hnil hstarted
      · rw [hcalls phase (List.mem_of_getElem? hj)] at hphase
        exact absurd trivial hphase
    · exact hup
  obtain ⟨running, hrunning, hperm⟩ := hup
  have hnothing : s.forwarder.toCreate = [] := by
    unfold TwitterForwarder.toCreate
    cases hcaller : s.forwarder.lock.bind fun j => s.forwarder.callers[j]? with
    | none => rfl
    | some phase =>
      obtain ⟨j, -, hj⟩ := Option.bind_eq_some_iff.1 hcaller
      rw [hcalls phase (List.mem_of_getElem? hj)]
      rfl
  rw [hnothing, List.append_nil] at hperm
  obtain ⟨hentries, haccounts⟩ := forall₂_mem hrunning
  refine ⟨fun task hmem hstopped => ?_, fun account hmem => ?_⟩
  · obtain ⟨i, hget⟩ := List.mem_iff_getElem?.1 hmem
    obtain ⟨account, haccount, -, task', hget', -, rfl⟩ := hentries _ (hi.going.running i task hget hstopped)
    rw [hget] at hget'
    cases hget'
    exact hperm.mem_iff.1 haccount
  · obtain ⟨⟨handle, i⟩, hentry, rfl, task, hget, hstopped, hsame⟩ := haccounts account (hperm.mem_iff.2 hmem)
    refine ⟨i, task, hget, hstopped, hsame, fun i' task' hget' hstopped' hhandle => ?_, ?_⟩
    · exact hi.going.oneRunning i' i task' task hget' hget hstopped' hstopped (hhandle.trans (hsame ▸ rfl))
    · have hfind := findBy_eq_some hi.going.keys hentry
      unfold TwitterForwarder.isProcessing
      rw [hfind]
      show (s.forwarder.tasks[i]?).any _ = _
      rw [hget]
      rfl

/-! ## What comes of the requests -/

/-- The step of the forwarder that an action of the node is. -/
def forwards (s : TwitterNode) : NodeAction → Option Action
  | .startRunning => some (.call .startProcessing)
  | .stopRunning => some (.call .stopProcessing)
  | .proceed k => (s.requests[k]?).bind RequestPhase.forwards
  | .forwarder a => some a
  | _ => none

theorem step_forwards {s s' : TwitterNode} {a : NodeAction} {b : Action} (h : step a s = some s')
    (hb : s.forwards a = some b) : TwitterForwarder.step b s.forwarder = some s'.forwarder := by
  have hforward : ∀ t : TwitterNode, t.forwarder = s.forwarder → t.forward b = some s' →
      TwitterForwarder.step b s.forwarder = some s'.forwarder := by
    intro t ht h
    obtain ⟨f, hf, rfl⟩ := Option.map_eq_some_iff.1 h
    exact ht ▸ hf
  cases a with
  | startRunning =>
    cases hb
    exact hforward s rfl h
  | stopRunning =>
    cases hb
    exact hforward s rfl h
  | proceed k =>
    obtain ⟨phase, hk, hphase⟩ := Option.bind_eq_some_iff.1 hb
    obtain ⟨phase', hk', h⟩ := Option.bind_eq_some_iff.1 h
    rw [hk] at hk'
    cases hk'
    cases phase with
    | restarting reply =>
      cases hphase
      exact hforward (s.setRequest k (.answered reply)) rfl h
    | _ => cases hphase
  | forwarder a =>
    cases hb
    exact hforward s rfl (Option.ite_none_right_eq_some.1 h).2
  | _ => cases hb

theorem step_forwards_none {s s' : TwitterNode} {a : NodeAction} (h : step a s = some s') (hb : s.forwards a = none) :
    s'.forwarder = s.forwarder := by
  cases a with
  | request request =>
    cases h
    rfl
  | proceed k =>
    obtain ⟨phase, hk, h⟩ := Option.bind_eq_some_iff.1 h
    have hphase : phase.forwards = none := by
      rw [forwards, hk] at hb
      exact hb
    cases phase with
    | writing request =>
      cases h
      rfl
    | restarting reply => cases hphase
    | answered reply => cases h
    | raised written => cases h
  | requestFails k =>
    obtain ⟨phase, hk, h⟩ := Option.bind_eq_some_iff.1 h
    cases phase <;> cases h <;> rfl
  | _ => cases hb

/-- How many steps a request has left. -/
def requestLeft (k : Nat) (s : TwitterNode) : Nat := (s.requests[k]?).elim 0 RequestPhase.left

/-- A request that has steps left can go on, if only to fail. -/
theorem request_enabled {s : TwitterNode} {k : Nat} (h : s.requestLeft k ≠ 0) :
    Machine.Enabled step (NodeAction.OfRequest k) s := by
  unfold requestLeft at h
  cases hk : s.requests[k]? with
  | none =>
    rw [hk] at h
    exact absurd rfl h
  | some phase =>
    rw [hk] at h
    have hstep : ∀ s', s.requestFails k phase = some s' → step (.requestFails k) s = some s' := by
      intro s' hs'
      show (s.requests[k]?).bind _ = _
      rw [hk]
      exact hs'
    cases phase with
    | writing request => exact ⟨.requestFails k, _, rfl, hstep _ rfl⟩
    | restarting reply => exact ⟨.requestFails k, _, rfl, hstep _ rfl⟩
    | answered reply => exact absurd rfl h
    | raised written => exact absurd rfl h

theorem requests_forward {s s' : TwitterNode} {a : Action} (h : s.forward a = some s') : s'.requests = s.requests := by
  obtain ⟨f, -, rfl⟩ := Option.map_eq_some_iff.1 h
  rfl

/-- A step of a request. -/
theorem step_request {s s' : TwitterNode} {a : NodeAction} {k : Nat} (ha : a.OfRequest k) (h : step a s = some s') :
    ∃ phase phase', s.requests[k]? = some phase ∧ s'.requests = s.requests.set k phase' ∧ phase'.left < phase.left := by
  cases a with
  | proceed k' =>
    obtain rfl : k' = k := ha
    obtain ⟨phase, hk, h⟩ := Option.bind_eq_some_iff.1 h
    cases phase with
    | writing request =>
      cases h
      exact ⟨_, _, hk, rfl, Nat.lt_succ_self 1⟩
    | restarting reply =>
      exact ⟨_, _, hk, requests_forward (s := s.setRequest k' (.answered reply)) h, Nat.zero_lt_one⟩
    | answered reply => cases h
    | raised written => cases h
  | requestFails k' =>
    obtain rfl : k' = k := ha
    obtain ⟨phase, hk, h⟩ := Option.bind_eq_some_iff.1 h
    cases phase with
    | writing request =>
      cases h
      exact ⟨_, _, hk, rfl, Nat.zero_lt_two⟩
    | restarting reply =>
      cases h
      exact ⟨_, _, hk, rfl, Nat.zero_lt_one⟩
    | answered reply => cases h
    | raised written => cases h
  | _ => exact ha.elim

/-- A step that is none of a request, and begins none. -/
theorem step_other {s s' : TwitterNode} {a : NodeAction} (hbegins : ¬ a.Begins) (ha : ∀ k, ¬ a.OfRequest k)
    (h : step a s = some s') : s'.requests = s.requests := by
  cases a with
  | startRunning => exact absurd trivial hbegins
  | stopRunning => exact absurd trivial hbegins
  | request request => exact absurd trivial hbegins
  | proceed k => exact absurd rfl (ha k)
  | requestFails k => exact absurd rfl (ha k)
  | forwarder a => exact requests_forward (Option.ite_none_right_eq_some.1 h).2

theorem requestLeft_step {s s' : TwitterNode} {a : NodeAction} (hbegins : ¬ a.Begins) (h : step a s = some s') :
    s'.requests.length = s.requests.length ∧ ∀ i, s'.requestLeft i ≤ s.requestLeft i ∧
      (a.OfRequest i → s.requestLeft i ≠ 0 → s'.requestLeft i < s.requestLeft i) := by
  by_cases ha : ∃ k, a.OfRequest k
  · obtain ⟨k, ha⟩ := ha
    obtain ⟨phase, phase', hk, hrequests, hlt⟩ := step_request ha h
    have hself : s'.requestLeft k < s.requestLeft k := by
      unfold requestLeft
      rw [hrequests, hk, List.getElem?_set_self (List.getElem?_eq_some_iff.1 hk).1]
      exact hlt
    refine ⟨by rw [hrequests, List.length_set], fun i => ?_⟩
    by_cases heq : k = i
    · subst heq
      exact ⟨Nat.le_of_lt hself, fun _ _ => hself⟩
    · have hsame : s'.requestLeft i = s.requestLeft i := by
        unfold requestLeft
        rw [hrequests, List.getElem?_set_ne heq]
      refine ⟨Nat.le_of_eq hsame, fun hi => absurd ?_ heq⟩
      cases a <;> first | exact ha.elim | exact ha.symm.trans hi
  · have hsame := step_other hbegins (fun k hk => ha ⟨k, hk⟩) h
    refine ⟨congrArg List.length hsame, fun i => ⟨?_, fun hi => absurd ⟨i, hi⟩ ha⟩⟩
    unfold requestLeft
    rw [hsame]

/-- What the forwarder can do, it can do in the node. -/
theorem forwarder_enabled {s : TwitterNode} {a : Action} {f : TwitterForwarder} (hread : a.readsFrom s.accounts = true)
    (h : TwitterForwarder.step a s.forwarder = some f) : step (.forwarder a) s = some { s with forwarder := f } := by
  simp only [step, if_pos hread, forward, h, Option.map_some]

theorem calls_enabled {s : TwitterNode} (h : Machine.Enabled TwitterForwarder.step Action.OfCall s.forwarder) :
    Machine.Enabled step (NodeAction.OfForwarder Action.OfCall) s := by
  obtain ⟨a, f, ha, hstep⟩ := h
  cases a with
  | caller j => exact ⟨.forwarder (.caller j), _, trivial, forwarder_enabled rfl hstep⟩
  | accounts j entries =>
    -- the call reads what is in the table
    obtain ⟨⟨hj, -⟩, -⟩ := Option.ite_none_right_eq_some.1 hstep
    have hreads : TwitterForwarder.step (.accounts j s.accounts.getTwitterAccounts) s.forwarder =
        some (s.forwarder.setCaller j (.creating s.accounts.getTwitterAccounts)) :=
      if_pos ⟨hj, s.accounts.handles_getTwitterAccounts⟩
    exact ⟨.forwarder (.accounts j s.accounts.getTwitterAccounts), _, trivial,
      forwarder_enabled (List.isPerm_iff.2 (.refl _)) hreads⟩
  | callerFails j => exact ⟨.forwarder (.callerFails j), _, trivial, forwarder_enabled rfl hstep⟩
  | _ => exact ha.elim

theorem thread_enabled {s : TwitterNode} {i : Nat}
    (h : Machine.Enabled TwitterForwarder.step (Action.OfThread i) s.forwarder) :
    Machine.Enabled step (NodeAction.OfForwarder (Action.OfThread i)) s := by
  obtain ⟨a, f, ha, hstep⟩ := h
  cases a with
  | thread i' tweet => exact ⟨.forwarder (.thread i' tweet), _, ha, forwarder_enabled rfl hstep⟩
  | fail i' => exact ⟨.forwarder (.fail i'), _, ha, forwarder_enabled rfl hstep⟩
  | _ => exact ha.elim

end TwitterNode

section Execution

variable {accounts : TwitterAccounts} (e : Machine.Execution TwitterNode.step (TwitterNode.start accounts)) {n : Nat}

/-- What the forwarder does in an execution of the node. -/
def forwarderOf : Machine.Execution TwitterForwarder.step TwitterForwarder.start :=
  e.map TwitterNode.forwarder TwitterNode.forwards (fun _ _ _ _ => TwitterNode.step_forwards)
    fun _ _ _ => TwitterNode.step_forwards_none

theorem inv_at (hstop : ∀ k, e.action k ≠ some .stopRunning) (n : Nat) : (e.state n).Inv :=
  Machine.Execution.keeps (I := TwitterNode.Inv) (n := 0)
    (fun m _ a ha hi => hi.step (fun heq => hstop m (heq ▸ ha)) (e.next m a ha))
    (by rw [e.start]; exact TwitterNode.inv_start accounts) n (Nat.zero_le n)

end Execution

namespace Sample

/-- An empty table. -/
def noAccounts : TwitterAccounts := ⟨[], List.nodup_nil, List.nodup_nil⟩

/-- The account is added after the worker's call has read the table, and the restart of the request reads it. -/
def following : List NodeAction :=
  [.startRunning, .forwarder (.caller 0), .forwarder (.caller 0), .request (.addTwitterAccount "alice" 1 "token"),
    .forwarder (.accounts 0 []), .proceed 0, .forwarder (.caller 0), .forwarder (.caller 0), .proceed 0,
    .forwarder (.caller 1), .forwarder (.caller 1), .forwarder (.accounts 1 [account]), .forwarder (.caller 1),
    .forwarder (.caller 1), .forwarder (.caller 1)] ++ List.replicate 7 (.forwarder (.thread 0 tweet))

/-- A tweet of somebody else. -/
def otherTweet : Tweet := ⟨some [some "bob"], none⟩

/-- The stream goes on for ever with tweets of others. -/
def idling : List NodeAction := [.forwarder (.thread 0 otherTweet), .forwarder (.thread 0 otherTweet)]

end Sample

theorem enabled_forwarder {A : Action → Prop} {s : TwitterNode}
    (h : Machine.Enabled TwitterNode.step (NodeAction.OfForwarder A) s) :
    Machine.Enabled TwitterForwarder.step A s.forwarder := by
  obtain ⟨a, s', ha, hstep⟩ := h
  cases a with
  | forwarder a => exact ⟨a, s'.forwarder, ha, TwitterNode.step_forwards hstep rfl⟩
  | _ => exact ha.elim

end TwitterForwarding

end Squeaknode
