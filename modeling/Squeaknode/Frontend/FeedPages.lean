/-
The timeline, the search and the profile page. Each keeps its squeaks in a list of the store, fetches
the first page of its feed when it is opened and the next one when LOAD MORE is clicked; whatever
answer arrives is appended. The user moves between the pages while answers are under way.
-/
import Squeaknode.Frontend.SqueaksSlice
import Squeaknode.Interleave.Machine
import Squeaknode.Relational.Keyset
import Mathlib.Data.List.Count
import Mathlib.Data.Prod.Lex
import Mathlib.Data.String.Basic
import Mathlib.Order.WithBot

namespace Squeaknode

namespace FeedPages

open Interleave Relational SqueaksSlice
open SqueakAdminPb2 (SqueakDisplayEntry)

/-! ## Requests and answers -/

/-- What the feeds of the frontend ask for. -/
inductive FeedQuery where
  | timeline
  | search (searchText : String)
  | profile (profilePubkey : String)
  deriving DecidableEq, Repr

/-- The list that the answers to a query are appended to. -/
def FeedQuery.list : FeedQuery → ListName
  | timeline => .timeline
  | search _ => .search
  | profile _ => .profile

/-- A request under way. It is outdated once its list was cleared or its page opened anew, which
neither the request nor its answer says. -/
structure FeedRequest where
  query : FeedQuery
  lastSqueak : Option SqueakDisplayEntry
  outdated : Bool
  deriving DecidableEq

/-- The order of the feeds: (block height, squeak time, hash). -/
abbrev DisplayKey := Int ×ₗ Int ×ₗ String

/-- The key of an entry. -/
def displayKey (squeak : SqueakDisplayEntry) : DisplayKey :=
  toLex (squeak.blockHeight, toLex (squeak.squeakTime, squeak.squeakHash))

/-- What the server lists for each query when it answers. -/
structure Server where
  entries : FeedQuery → List SqueakDisplayEntry
  distinct : ∀ query, ((entries query).map displayKey).Nodup

/-- The number of squeaks that a page asks for. -/
def limit : Nat := 10

/-- A page starts below the key of the last squeak, or at the top. -/
def cursorKey (lastSqueak : Option DisplayKey) : WithTop DisplayKey := lastSqueak.elim ⊤ fun k => k

/-- The page after a squeak, or the first one. -/
def Server.nextPage (server : Server) (query : FeedQuery) (lastSqueak : Option SqueakDisplayEntry) :
    List SqueakDisplayEntry :=
  selectPage (fun squeak => (displayKey squeak : WithTop DisplayKey)) limit (cursorKey (lastSqueak.map displayKey))
    (server.entries query)

/-! ## The pages -/

/-- The addresses of the pages. -/
inductive Location where
  | home
  | search (q : String)
  | profile (username : String)
  | elsewhere
  deriving DecidableEq, Repr

/-- The page that is shown; the search page has a text box. -/
inductive Page where
  | timeline
  | search (q searchText : String)
  | profile (username : String)
  | elsewhere
  deriving DecidableEq, Repr

/-- What a page lists. -/
def Page.query : Page → Option FeedQuery
  | timeline => some .timeline
  | search q _ => some (.search q)
  | profile username => some (.profile username)
  | elsewhere => none

/-- What the page at an address lists. -/
def Location.query : Location → Option FeedQuery
  | home => some .timeline
  | search q => some (.search q)
  | profile username => some (.profile username)
  | elsewhere => none

/-- The tab of the browser: its store, its page and its requests under way. -/
structure Tab where
  store : State
  page : Page
  inFlight : List FeedRequest
  /-- what the page of each list was last opened for -/
  query : ListName → Option FeedQuery

/-- A tab that was just opened. -/
def start : Tab := ⟨initialState, .elsewhere, [], fun _ => none⟩

/-- The requests after those of a list became outdated. -/
def outdate (n : ListName) (inFlight : List FeedRequest) : List FeedRequest :=
  inFlight.map fun r => if r.query.list = n then { r with outdated := true } else r

/-- The page of a list is opened for a query. -/
def opened (query : FeedQuery) (t : Tab) : Tab :=
  { t with
    inFlight := outdate query.list t.inFlight
    query := fun n => if n = query.list then some query else t.query n }

/-- A request is sent. -/
def fetch (query : FeedQuery) (lastSqueak : Option SqueakDisplayEntry) (t : Tab) : Tab :=
  { t with
    store := listPending query.list t.store
    inFlight := t.inFlight ++ [⟨query, lastSqueak, false⟩] }

/-- A list is emptied. -/
def clear (n : ListName) (t : Tab) : Tab :=
  { t with
    store := clearList n t.store
    inFlight := outdate n t.inFlight }

/-- The effect of a page that is opened: its list is cleared, and its first page requested. -/
def reload (query : FeedQuery) (t : Tab) : Tab := fetch query none (opened query (clear query.list t))

/-- The search page does nothing without a search text. -/
def searchEffect (q searchText : String) (t : Tab) : Tab :=
  if q = "" then { opened (.search q) t with page := .search q searchText }
  else { reload (.search q) t with page := .search q q }

/-- A page that is shown already is not opened anew. -/
def visit : Location → Tab → Tab
  | .home, t => if t.page = .timeline then t else { reload .timeline t with page := .timeline }
  | .search q, t => match t.page with
    | .search q' searchText => if q = q' then t else searchEffect q searchText t
    | _ => searchEffect q "" t
  | .profile username, t =>
    if t.page = .profile username then t else { reload (.profile username) t with page := .profile username }
  | .elsewhere, t => { t with page := .elsewhere }

/-- LOAD MORE is there unless the list is loading, on the profile page only below a squeak. The search
page asks for what is in its text box. -/
def loadMore (t : Tab) : Option Tab :=
  match t.page with
  | .timeline =>
    if t.store.timelineSqueaks.status = .loading then none
    else some (fetch .timeline t.store.timelineSqueaks.squeaks.getLast? t)
  | .search _ searchText =>
    if t.store.searchSqueaks.status = .loading then none
    else some (fetch (.search searchText) t.store.searchSqueaks.squeaks.getLast? t)
  | .profile username =>
    if t.store.profileSqueaks.squeaks = [] ∨ t.store.profileSqueaks.status = .loading then none
    else some (fetch (.profile username) t.store.profileSqueaks.squeaks.getLast? t)
  | .elsewhere => none

/-- What the user and the server do. -/
inductive Act where
  | visit (location : Location)
  | typeText (searchText : String)
  | clear (n : ListName)
  | loadMore
  /-- a request is answered with the next page of what the server lists -/
  | fulfilled (request : FeedRequest) (server : Server)
  | rejected (request : FeedRequest)

/-- What an action does to the tab, if it can happen. -/
def step : Act → Tab → Option Tab
  | .visit location, t => some (visit location t)
  | .typeText searchText, t => match t.page with
    | .search q _ => some { t with page := .search q searchText }
    | _ => none
  | .clear n, t => some (clear n t)
  | .loadMore, t => loadMore t
  | .fulfilled r server, t =>
    if t.inFlight.contains r then
      some { t with
        store := listFulfilled r.query.list (server.nextPage r.query r.lastSqueak) t.store
        inFlight := t.inFlight.erase r }
    else none
  | .rejected r, t => if t.inFlight.contains r then some { t with inFlight := t.inFlight.erase r } else none

/-! ## Exact lists -/

/-- Consecutive pages of a query, one after the other. -/
inductive Consecutive (query : FeedQuery) : List SqueakDisplayEntry → Prop
  | cleared : Consecutive query []
  | page {squeaks : List SqueakDisplayEntry} (server : Server) : Consecutive query squeaks →
      Consecutive query (squeaks ++ server.nextPage query squeaks.getLast?)

/-- Each list holds consecutive pages of its query, and descends strictly. -/
structure Exact (t : Tab) : Prop where
  unopened : ∀ n, t.query n = none → (t.store.list n).squeaks = []
  pages : ∀ n query, t.query n = some query → Consecutive query (t.store.list n).squeaks
  descending : ∀ n, ((t.store.list n).squeaks.map displayKey).Pairwise (· > ·)

/-- The list is cleared, or its page is opened for another query. -/
def empties (n : ListName) (t : Tab) : Act → Bool
  | .clear m => n == m
  | .visit location => location.query.any fun query => n == query.list && t.page.query != some query
  | _ => false

/-- The answers to the requests for a list since it was last emptied. -/
def received (n : ListName) (history : List (Tab × Act)) : List (List SqueakDisplayEntry) :=
  history.foldl (fun answers x => match x.2 with
    | .fulfilled r server => if r.query.list = n then answers ++ [server.nextPage r.query r.lastSqueak] else answers
    | a => if empties n x.1 a then [] else answers) []

/-- An answer that is appended is the next page of the query of its list. -/
def AppendsNext (t : Tab) (a : Act) : Prop :=
  ∀ r server, a = .fulfilled r server → t.query r.query.list = some r.query ∧
    r.lastSqueak = (t.store.list r.query.list).squeaks.getLast?

/-- No outdated request is answered, LOAD MORE is clicked on the search page while its text box holds the
search text, and the search page is opened without a search text only when its list is empty. -/
structure Orderly (t : Tab) (a : Act) : Prop where
  answers : ∀ r server, a = .fulfilled r server → r.outdated = false
  loadMore : a = .loadMore → ∀ q searchText, t.page = .search q searchText → searchText = q
  search : a = .visit (.search "") → (∀ searchText, t.page ≠ .search "" searchText) → t.store.searchSqueaks.squeaks = []

/-! ## Consecutive pages descend -/

theorem map_nextPage (server : Server) (query : FeedQuery) (lastSqueak : Option SqueakDisplayEntry) :
    (server.nextPage query lastSqueak).map (fun squeak => (displayKey squeak : WithTop DisplayKey)) =
      selectPage id limit (cursorKey (lastSqueak.map displayKey))
        ((server.entries query).map fun squeak => (displayKey squeak : WithTop DisplayKey)) := map_selectPage

theorem cursorAfter_append (squeaks page : List SqueakDisplayEntry) :
    cursorAfter (cursorKey (squeaks.getLast?.map displayKey))
      (page.map fun squeak => (displayKey squeak : WithTop DisplayKey)) =
      cursorKey ((squeaks ++ page).getLast?.map displayKey) := by
  unfold cursorAfter
  rw [List.getLast?_append, List.getLast?_map]
  cases page.getLast? <;> rfl

/-- The keys of consecutive pages are those of a traversal of changing tables. -/
theorem Consecutive.pages {query : FeedQuery} {squeaks : List SqueakDisplayEntry} (h : Consecutive query squeaks) :
    ∃ pages, Pages limit ⊤ pages (cursorKey (squeaks.getLast?.map displayKey)) ∧
      returned pages = squeaks.map (fun squeak => (displayKey squeak : WithTop DisplayKey)) ∧
        ∀ p ∈ pages, p.1.Nodup := by
  induction h with
  | cleared => exact ⟨[], .init, rfl, fun p hp => by cases hp⟩
  | @page squeaks server h ih =>
    obtain ⟨pages, hpages, hreturned, hnodup⟩ := ih
    have hnext := hpages.next ((server.entries query).map fun squeak => (displayKey squeak : WithTop DisplayKey))
    rw [← map_nextPage server query squeaks.getLast?, cursorAfter_append] at hnext
    refine ⟨_, hnext, ?_, ?_⟩
    · rw [returned_append, hreturned, List.map_append]
    · intro p hp
      rcases List.mem_append.1 hp with hp | hp
      · exact hnodup p hp
      · rw [List.mem_singleton.1 hp]
        have hdistinct :=
          (server.distinct query).map (f := fun k : DisplayKey => (k : WithTop DisplayKey)) WithTop.coe_injective
        rwa [List.map_map] at hdistinct

theorem Consecutive.descending {query : FeedQuery} {squeaks : List SqueakDisplayEntry} (h : Consecutive query squeaks) :
    (squeaks.map displayKey).Pairwise (· > ·) := by
  obtain ⟨pages, hpages, hreturned, hnodup⟩ := h.pages
  have hread := (hpages.read (by decide) hnodup).descending
  rw [hreturned, List.pairwise_map] at hread
  rw [List.pairwise_map]
  exact hread.imp fun hlt => WithTop.coe_lt_coe.1 hlt

/-! ## Requests that still count -/

/-- The request is for the list and not outdated. -/
def isFresh (n : ListName) (r : FeedRequest) : Bool := !r.outdated && r.query.list == n

theorem isFresh_iff {n : ListName} {r : FeedRequest} : isFresh n r = true ↔ r.outdated = false ∧ r.query.list = n := by
  simp [isFresh]

theorem mem_outdate {n : ListName} {inFlight : List FeedRequest} {r : FeedRequest} (hr : r ∈ outdate n inFlight)
    (hfresh : r.outdated = false) : r ∈ inFlight ∧ r.query.list ≠ n := by
  obtain ⟨r', hr', rfl⟩ := List.mem_map.1 hr
  split at hfresh
  · cases hfresh
  · rename_i hother
    rw [if_neg hother]
    exact ⟨hr', hother⟩

theorem countP_outdate (n m : ListName) (inFlight : List FeedRequest) :
    (outdate n inFlight).countP (isFresh m) = if m = n then 0 else inFlight.countP (isFresh m) := by
  unfold outdate
  rw [List.countP_map]
  split
  · rename_i hsame
    rw [List.countP_eq_zero]
    intro r _
    rw [Function.comp_apply, isFresh_iff]
    rintro ⟨hfresh, hlist⟩
    split at hfresh
    · cases hfresh
    · rename_i hother
      rw [if_neg hother] at hlist
      exact hother (hlist.trans hsame)
  · rename_i hother
    apply List.countP_congr
    intro r _
    rw [Function.comp_apply, isFresh_iff, isFresh_iff]
    by_cases hlist : r.query.list = n
    · rw [if_pos hlist]
      constructor
      · rintro ⟨hfresh, -⟩
        cases hfresh
      · rintro ⟨-, h⟩
        exact absurd (h.symm.trans hlist) hother
    · rw [if_neg hlist]

/-- The lists are exact, at most one request for each still counts, and it asks for the next page. -/
structure ListsInv (t : Tab) : Prop where
  unopened : ∀ n, t.query n = none → (t.store.list n).squeaks = []
  pages : ∀ n query, t.query n = some query → Consecutive query (t.store.list n).squeaks
  awaited : ∀ r ∈ t.inFlight, r.outdated = false → t.query r.query.list = some r.query ∧
    (t.store.list r.query.list).status = .loading ∧ r.lastSqueak = (t.store.list r.query.list).squeaks.getLast?
  once : ∀ n, t.inFlight.countP (isFresh n) ≤ 1

theorem ListsInv.idle {t : Tab} (h : ListsInv t) {n : ListName} (hidle : (t.store.list n).status ≠ .loading) :
    t.inFlight.countP (isFresh n) = 0 := by
  rw [List.countP_eq_zero]
  intro r hr hfresh
  obtain ⟨hcounts, rfl⟩ := isFresh_iff.1 hfresh
  exact hidle (h.awaited r hr hcounts).2.1

theorem ListsInv.exact {t : Tab} (h : ListsInv t) : Exact t where
  unopened := h.unopened
  pages := h.pages
  descending n := by
    cases hquery : t.query n with
    | none =>
      rw [h.unopened n hquery]
      exact List.Pairwise.nil
    | some query => exact (h.pages n query hquery).descending

theorem listsInv_clear {t : Tab} (h : ListsInv t) (n : ListName) : ListsInv (clear n t) where
  unopened m hquery := by
    show ((clearList n t.store).list m).squeaks = []
    rw [clearList, list_modifyList]
    split
    · rfl
    · exact h.unopened m hquery
  pages m query hquery := by
    show Consecutive query ((clearList n t.store).list m).squeaks
    rw [clearList, list_modifyList]
    split
    · exact .cleared
    · exact h.pages m query hquery
  awaited r hr hfresh := by
    obtain ⟨hmem, hother⟩ := mem_outdate hr hfresh
    show _ ∧ ((clearList n t.store).list r.query.list).status = _ ∧
      _ = ((clearList n t.store).list r.query.list).squeaks.getLast?
    rw [clearList, list_modifyList, if_neg hother]
    exact h.awaited r hmem hfresh
  once m := by
    show (outdate n t.inFlight).countP (isFresh m) ≤ 1
    rw [countP_outdate]
    split
    · exact Nat.zero_le _
    · exact h.once m

theorem listsInv_opened {t : Tab} (h : ListsInv t) {query : FeedQuery}
    (hempty : (t.store.list query.list).squeaks = []) :
    ListsInv (opened query t) where
  unopened n hquery := by
    by_cases hn : n = query.list
    · rw [hn]
      exact hempty
    · exact h.unopened n (by simpa [opened, hn] using hquery)
  pages n query' hquery := by
    by_cases hn : n = query.list
    · rw [hn]
      show Consecutive query' (t.store.list query.list).squeaks
      rw [hempty]
      exact .cleared
    · exact h.pages n query' (by simpa [opened, hn] using hquery)
  awaited r hr hfresh := by
    obtain ⟨hmem, hother⟩ := mem_outdate hr hfresh
    obtain ⟨hquery, hrest⟩ := h.awaited r hmem hfresh
    exact ⟨by simpa [opened, hother] using hquery, hrest⟩
  once m := by
    show (outdate query.list t.inFlight).countP (isFresh m) ≤ 1
    rw [countP_outdate]
    split
    · exact Nat.zero_le _
    · exact h.once m

theorem listsInv_fetch {t : Tab} (h : ListsInv t) {query : FeedQuery} (hquery : t.query query.list = some query)
    (hnone : t.inFlight.countP (isFresh query.list) = 0) :
    ListsInv (fetch query (t.store.list query.list).squeaks.getLast? t) := by
  have hsqueaks : ∀ n, ((listPending query.list t.store).list n).squeaks = (t.store.list n).squeaks := by
    intro n
    rw [listPending, list_modifyList]
    split <;> rfl
  refine ⟨fun n hn => ?_, fun n query' hn => ?_, fun r hr hfresh => ?_, fun n => ?_⟩
  · exact (hsqueaks n).trans (h.unopened n hn)
  · show Consecutive query' ((listPending query.list t.store).list n).squeaks
    rw [hsqueaks]
    exact h.pages n query' hn
  · show t.query r.query.list = _ ∧ ((listPending query.list t.store).list r.query.list).status = _ ∧
      _ = ((listPending query.list t.store).list r.query.list).squeaks.getLast?
    rw [hsqueaks]
    rcases List.mem_append.1 hr with hr | hr
    · obtain ⟨hasked, hloading, hlast⟩ := h.awaited r hr hfresh
      refine ⟨hasked, ?_, hlast⟩
      rw [listPending, list_modifyList]
      split
      · rfl
      · exact hloading
    · obtain rfl := List.mem_singleton.1 hr
      exact ⟨hquery, by rw [listPending, list_modifyList, if_pos rfl], rfl⟩
  · show (t.inFlight ++ [_]).countP (isFresh n) ≤ 1
    rw [List.countP_append, List.countP_singleton]
    by_cases hn : query.list = n
    · subst hn
      rw [hnone]
      split <;> omega
    · rw [if_neg (by rw [isFresh_iff]; exact fun hfresh => hn hfresh.2)]
      exact h.once n

/-- A page that is opened requests the first page of its query. -/
theorem listsInv_reload {t : Tab} (h : ListsInv t) (query : FeedQuery) : ListsInv (reload query t) := by
  have hempty : ((clear query.list t).store.list query.list).squeaks = [] := by
    show ((clearList query.list t.store).list query.list).squeaks = []
    rw [clearList, list_modifyList, if_pos rfl]
  have hopened := listsInv_opened (listsInv_clear h query.list) hempty
  have hquery : (opened query (clear query.list t)).query query.list = some query := by simp [opened]
  have hfetch := listsInv_fetch hopened hquery
    (by rw [show (opened query (clear query.list t)).inFlight = outdate query.list _ from rfl, countP_outdate,
      if_pos rfl])
  have hlast : ((opened query (clear query.list t)).store.list query.list).squeaks.getLast? = none :=
    congrArg List.getLast? hempty
  rwa [hlast] at hfetch

theorem listsInv_erase {t : Tab} (h : ListsInv t) (r : FeedRequest) :
    ListsInv { t with inFlight := t.inFlight.erase r } where
  unopened := h.unopened
  pages := h.pages
  awaited r' hr' := h.awaited r' (List.mem_of_mem_erase hr')
  once n := (List.erase_sublist.countP_le).trans (h.once n)

/-- The answer to the request that still counts is the next page. -/
theorem listsInv_fulfilled {t : Tab} (h : ListsInv t) {r : FeedRequest} (hr : r ∈ t.inFlight)
    (hfresh : r.outdated = false)
    (server : Server) :
    ListsInv { t with
      store := listFulfilled r.query.list (server.nextPage r.query r.lastSqueak) t.store
      inFlight := t.inFlight.erase r } := by
  obtain ⟨hasked, hloading, hlast⟩ := h.awaited r hr hfresh
  -- no other answer is awaited for this list
  have herased : (t.inFlight.erase r).countP (isFresh r.query.list) = 0 := by
    have honce := h.once r.query.list
    rw [List.countP_erase, if_pos ⟨hr, isFresh_iff.2 ⟨hfresh, rfl⟩⟩]
    omega
  refine ⟨fun n hn => ?_, fun n query hn => ?_, fun r' hr' hfresh' => ?_, (listsInv_erase h r).once⟩
  · show ((listFulfilled r.query.list _ t.store).list n).squeaks = []
    rw [listFulfilled, list_modifyList]
    split
    · rename_i hsame
      have hnone : t.query n = none := hn
      rw [hsame, hasked] at hnone
      cases hnone
    · exact h.unopened n hn
  · show Consecutive query ((listFulfilled r.query.list _ t.store).list n).squeaks
    have hquery : t.query n = some query := hn
    rw [listFulfilled, list_modifyList]
    split
    · rename_i hsame
      subst hsame
      rw [hasked] at hquery
      cases hquery
      rw [hlast]
      exact .page server (h.pages _ _ hasked)
    · exact h.pages n query hn
  · -- so the requests that are left are for other lists
    have hother : r'.query.list ≠ r.query.list := by
      intro hsame
      rw [List.countP_eq_zero] at herased
      exact herased r' hr' (isFresh_iff.2 ⟨hfresh', hsame⟩)
    show _ ∧ ((listFulfilled r.query.list _ t.store).list r'.query.list).status = _ ∧
      _ = ((listFulfilled r.query.list _ t.store).list r'.query.list).squeaks.getLast?
    rw [listFulfilled, list_modifyList, if_neg hother]
    exact h.awaited r' (List.mem_of_mem_erase hr') hfresh'

/-! ## Runs -/

/-- The lists are exact, and the list of the page that is shown was opened for its query. -/
structure TabInv (t : Tab) : Prop where
  lists : ListsInv t
  page : ∀ query, t.page.query = some query → t.query query.list = some query

theorem tabInv_start : TabInv start where
  lists := {
    unopened := fun n _ => by cases n <;> rfl
    pages := fun n query h => by cases h
    awaited := fun r hr => by cases hr
    once := fun n => Nat.zero_le _ }
  page query h := by cases h

theorem ListsInv.shows {t : Tab} (h : ListsInv t) (page : Page) : ListsInv { t with page := page } :=
  ⟨h.unopened, h.pages, h.awaited, h.once⟩

theorem tabInv_reload {t : Tab} (h : ListsInv t) {page : Page} {query : FeedQuery} (hpage : page.query = some query) :
    TabInv { reload query t with page := page } where
  lists := (listsInv_reload h query).shows page
  page query' hquery' := by
    cases hpage.symm.trans hquery'
    simp [reload, fetch, opened]

theorem tabInv_searchEffect {t : Tab} (h : ListsInv t) {q : String} (searchText : String)
    (hempty : q = "" → t.store.searchSqueaks.squeaks = []) : TabInv (searchEffect q searchText t) := by
  unfold searchEffect
  split
  · rename_i hq
    have hopened : ListsInv (opened (.search q) t) := listsInv_opened h (hempty hq)
    refine ⟨hopened.shows _, fun query hquery => ?_⟩
    cases hquery
    simp [opened]
  · exact tabInv_reload h rfl

theorem tabInv_visit {t : Tab} (h : TabInv t) {location : Location} (horderly : Orderly t (.visit location)) :
    TabInv (visit location t) := by
  cases location with
  | home =>
    simp only [visit]
    split
    · exact h
    · exact tabInv_reload h.lists rfl
  | search q =>
    simp only [visit]
    split
    · rename_i q' searchText hpage
      split
      · exact h
      · rename_i hq
        refine tabInv_searchEffect h.lists searchText fun hempty => horderly.search (hempty ▸ rfl) fun text htext => ?_
        rw [hpage] at htext
        cases htext
        exact hq hempty
    · rename_i hpage
      exact tabInv_searchEffect h.lists "" fun hempty => horderly.search (hempty ▸ rfl) fun text htext =>
        hpage _ _ htext
  | profile username =>
    simp only [visit]
    split
    · exact h
    · exact tabInv_reload h.lists rfl
  | elsewhere => exact ⟨h.lists.shows _, fun query hquery => by cases hquery⟩

theorem tabInv_loadMore {t t' : Tab} (h : TabInv t) (horderly : Orderly t .loadMore) (hmore : loadMore t = some t') :
    TabInv t' := by
  have hfetch : ∀ query, t.page.query = some query → (t.store.list query.list).status ≠ .loading →
      TabInv (fetch query (t.store.list query.list).squeaks.getLast? t) := fun query hquery hidle =>
    ⟨listsInv_fetch h.lists (h.page query hquery) (h.lists.idle hidle), h.page⟩
  unfold loadMore at hmore
  split at hmore
  · rename_i hpage
    split at hmore
    · cases hmore
    · rename_i hidle
      cases hmore
      exact hfetch .timeline (by rw [hpage]; rfl) hidle
  · rename_i q searchText hpage
    split at hmore
    · cases hmore
    · rename_i hidle
      cases hmore
      obtain rfl := horderly.loadMore rfl q searchText hpage
      exact hfetch (.search searchText) (by rw [hpage]; rfl) hidle
  · rename_i username hpage
    split at hmore
    · cases hmore
    · rename_i hidle
      cases hmore
      exact hfetch (.profile username) (by rw [hpage]; rfl) fun h => hidle (.inr h)
  · cases hmore

theorem tabInv_step {t t' : Tab} {a : Act} (h : TabInv t) (horderly : Orderly t a) (hstep : step a t = some t') :
    TabInv t' := by
  cases a with
  | visit location =>
    cases hstep
    exact tabInv_visit h horderly
  | typeText searchText =>
    simp only [step] at hstep
    split at hstep
    · rename_i q text hpage
      cases hstep
      exact ⟨h.lists.shows _, fun query hquery => h.page query (by rw [hpage]; exact hquery)⟩
    · cases hstep
  | clear n =>
    cases hstep
    exact ⟨listsInv_clear h.lists n, h.page⟩
  | loadMore => exact tabInv_loadMore h horderly hstep
  | fulfilled r server =>
    simp only [step] at hstep
    split at hstep
    · rename_i hr
      cases hstep
      exact ⟨listsInv_fulfilled h.lists (List.contains_iff_mem.1 hr) (horderly.answers r server rfl) server, h.page⟩
    · cases hstep
  | rejected r =>
    simp only [step] at hstep
    split at hstep
    · cases hstep
      exact ⟨listsInv_erase h.lists r, h.page⟩
    · cases hstep

theorem appendsNext_of_step {t t' : Tab} {a : Act} (h : TabInv t) (horderly : Orderly t a)
    (hstep : step a t = some t') :
    AppendsNext t a := by
  rintro r server rfl
  simp only [step] at hstep
  split at hstep
  · rename_i hr
    obtain ⟨hasked, -, hlast⟩ := h.lists.awaited r (List.contains_iff_mem.1 hr) (horderly.answers r server rfl)
    exact ⟨hasked, hlast⟩
  · cases hstep

/-! ## What a step makes of a list -/

theorem squeaks_clear (n : ListName) (t : Tab) (m : ListName) :
    ((clear n t).store.list m).squeaks = if m = n then [] else (t.store.list m).squeaks := by
  show ((clearList n t.store).list m).squeaks = _
  rw [clearList, list_modifyList]
  split <;> rfl

theorem squeaks_fetch (query : FeedQuery) (lastSqueak : Option SqueakDisplayEntry) (t : Tab) (n : ListName) :
    ((fetch query lastSqueak t).store.list n).squeaks = (t.store.list n).squeaks := by
  show ((listPending query.list t.store).list n).squeaks = _
  rw [listPending, list_modifyList]
  split <;> rfl

/-- The list of a page that is loaded anew is empty, and the other lists are as they were. -/
theorem squeaks_reload (query : FeedQuery) (t : Tab) (n : ListName) :
    ((reload query t).store.list n).squeaks = if n = query.list then [] else (t.store.list n).squeaks :=
  (squeaks_fetch query none _ n).trans (squeaks_clear query.list t n)

theorem query_opened (query : FeedQuery) (t : Tab) {n : ListName} (hn : n ≠ query.list) :
    (opened query t).query n = t.query n := if_neg hn

/-- A step that is no answer empties a list, or leaves it with its query as it is. -/
def Keeps (t t' : Tab) (n : ListName) (emptied : Bool) : Prop :=
  if emptied then (t'.store.list n).squeaks = []
  else t'.query n = t.query n ∧ (t'.store.list n).squeaks = (t.store.list n).squeaks

theorem keeps_reload {query : FeedQuery} {t : Tab} {n : ListName} {page : Page}
    (hpage : t.page.query ≠ some query) :
    Keeps t { reload query t with page := page } n (n == query.list && t.page.query != some query) := by
  have hne : (t.page.query != some query) = true := bne_iff_ne.2 hpage
  unfold Keeps
  by_cases hn : n = query.list
  · rw [if_pos (by rw [hne, hn, beq_self_eq_true]; rfl)]
    exact (squeaks_reload query t n).trans (if_pos hn)
  · rw [if_neg (by rw [hne, beq_false_of_ne hn]; decide)]
    exact ⟨query_opened query (clear query.list t) hn, (squeaks_reload query t n).trans (if_neg hn)⟩

theorem keeps_refl {t : Tab} {n : ListName} {emptied : Bool} (h : emptied = false) : Keeps t t n emptied := by
  rw [h]
  exact ⟨rfl, rfl⟩

theorem keeps_searchEffect {q searchText : String} {t : Tab} {n : ListName} (hpage : t.page.query ≠ some (.search q))
    (hempty : q = "" → t.store.searchSqueaks.squeaks = []) :
    Keeps t (searchEffect q searchText t) n (n == .search && t.page.query != some (.search q)) := by
  unfold searchEffect
  split
  · rename_i hq
    have hne : (t.page.query != some (.search q)) = true := bne_iff_ne.2 hpage
    unfold Keeps
    by_cases hn : n = .search
    · subst hn
      rw [if_pos (by rw [hne]; rfl)]
      exact hempty hq
    · rw [if_neg (by rw [hne, beq_false_of_ne hn]; decide)]
      exact ⟨query_opened (.search q) t hn, rfl⟩
  · exact keeps_reload hpage

theorem query_eq_search {page : Page} {q : String} :
    page.query = some (.search q) ↔ ∃ searchText, page = .search q searchText := by
  cases page <;> simp [Page.query]

/-- A visit of the page that is shown changes nothing. -/
theorem not_empties {location : Location} {query : FeedQuery} {t : Tab} {n : ListName}
    (hlocation : location.query = some query)
    (hpage : t.page.query = some query) : empties n t (.visit location) = false := by
  simp [empties, hlocation, hpage]

theorem keeps_of_step {t t' : Tab} {a : Act} (hno : ∀ r server, a ≠ .fulfilled r server) (horderly : Orderly t a)
    (hstep : step a t = some t') (n : ListName) : Keeps t t' n (empties n t a) := by
  cases a with
  | visit location =>
    cases hstep
    cases location with
    | home =>
      simp only [visit]
      split
      · rename_i hpage
        exact keeps_refl (not_empties rfl (by rw [hpage]; rfl))
      · rename_i hpage
        exact keeps_reload fun hquery => hpage (by cases hp : t.page <;> simp_all [Page.query])
    | search q =>
      have hsearch : t.page.query ≠ some (.search q) → q = "" → t.store.searchSqueaks.squeaks = [] := by
        rintro hpage rfl
        exact horderly.search rfl fun searchText htext => hpage (query_eq_search.2 ⟨searchText, htext⟩)
      simp only [visit]
      split
      · rename_i q' searchText hpage
        split
        · rename_i hq
          exact keeps_refl (not_empties rfl (by rw [hpage, hq]; rfl))
        · rename_i hq
          have hne : t.page.query ≠ some (.search q) := by
            rw [hpage]
            intro heq
            cases heq
            exact hq rfl
          exact keeps_searchEffect hne (hsearch hne)
      · rename_i hpage
        have hne : t.page.query ≠ some (.search q) := fun heq => by
          obtain ⟨searchText, heq⟩ := query_eq_search.1 heq
          exact hpage _ _ heq
        exact keeps_searchEffect hne (hsearch hne)
    | profile username =>
      simp only [visit]
      split
      · rename_i hpage
        exact keeps_refl (not_empties rfl (by rw [hpage]; rfl))
      · rename_i hpage
        exact keeps_reload fun hquery =>
          hpage (by cases hp : t.page <;> simp_all [Page.query])
    | elsewhere => exact ⟨rfl, rfl⟩
  | typeText searchText =>
    simp only [step] at hstep
    split at hstep
    · cases hstep
      exact ⟨rfl, rfl⟩
    · cases hstep
  | clear m =>
    cases hstep
    have hempties : empties n t (.clear m) = (n == m) := rfl
    unfold Keeps
    rw [hempties]
    by_cases hn : n = m
    · rw [if_pos (beq_iff_eq.2 hn)]
      exact (squeaks_clear m t n).trans (if_pos hn)
    · rw [if_neg fun heq => hn (beq_iff_eq.1 heq)]
      exact ⟨rfl, (squeaks_clear m t n).trans (if_neg hn)⟩
  | loadMore =>
    have hfetch : ∃ query lastSqueak, t' = fetch query lastSqueak t := by
      simp only [step, loadMore] at hstep
      split at hstep <;> first | cases hstep | (split at hstep <;> cases hstep; exact ⟨_, _, rfl⟩)
    obtain ⟨query', lastSqueak, rfl⟩ := hfetch
    exact ⟨rfl, squeaks_fetch query' lastSqueak t n⟩
  | fulfilled r server => exact absurd rfl (hno r server)
  | rejected r =>
    simp only [step] at hstep
    split at hstep
    · cases hstep
      exact ⟨rfl, rfl⟩
    · cases hstep

theorem received_fulfilled (n : ListName) (history : List (Tab × Act)) (t : Tab) (r : FeedRequest) (server : Server) :
    received n (history ++ [(t, .fulfilled r server)]) = if r.query.list = n then
      received n history ++ [server.nextPage r.query r.lastSqueak] else received n history :=
  List.foldl_concat ..

theorem received_other (n : ListName) (history : List (Tab × Act)) (t : Tab) {a : Act}
    (hno : ∀ r server, a ≠ .fulfilled r server) :
    received n (history ++ [(t, a)]) = if empties n t a then [] else received n history := by
  refine (List.foldl_concat ..).trans ?_
  cases a with
  | fulfilled r server => exact absurd rfl (hno r server)
  | _ => rfl

/-- A list is what its requests were answered with since it was last emptied, one answer after the other. -/
theorem squeaks_received {history : List (Tab × Act)} {t : Tab} (hr : Machine.Run step start history t)
    (horderly : ∀ x ∈ history, Orderly x.1 x.2) (n : ListName) :
    (t.store.list n).squeaks = (received n history).flatten := by
  induction hr with
  | init => cases n <;> rfl
  | @next history t t' a hr ha ih =>
    have ih := ih fun x hx => horderly x (List.mem_append_left _ hx)
    by_cases hanswer : ∃ r server, a = .fulfilled r server
    · obtain ⟨r, server, rfl⟩ := hanswer
      simp only [step] at ha
      split at ha
      · cases ha
        rw [received_fulfilled]
        show ((listFulfilled r.query.list _ t.store).list n).squeaks = _
        rw [listFulfilled, list_modifyList]
        by_cases hn : n = r.query.list
        · rw [if_pos hn, if_pos hn.symm, List.flatten_append, List.flatten_singleton, ← ih, hn]
        · rw [if_neg hn, if_neg fun heq => hn heq.symm]
          exact ih
      · cases ha
    · have hno : ∀ r server, a ≠ .fulfilled r server := fun r server heq => hanswer ⟨r, server, heq⟩
      have hkeeps := keeps_of_step hno (horderly (t, a) (List.mem_append_right _ List.mem_cons_self)) ha n
      rw [received_other n history t hno]
      unfold Keeps at hkeeps
      split at hkeeps
      · rename_i hemptied
        rw [if_pos hemptied]
        exact hkeeps
      · rename_i hkept
        rw [if_neg hkept, ← ih]
        exact hkeeps.2

/-- In a run whose steps are orderly, the lists hold consecutive pages of their queries in every state, every answer
that is appended is the next page, and each list is the answers since it was last emptied, in order. -/
theorem lists_exact {history : List (Tab × Act)} {t : Tab} (hr : Machine.Run step start history t)
    (horderly : ∀ x ∈ history, Orderly x.1 x.2) :
    (∀ t' ∈ Machine.states history t, Exact t') ∧ (∀ x ∈ history, AppendsNext x.1 x.2) ∧
      ∀ n, (t.store.list n).squeaks = (received n history).flatten := by
  have hstates := hr.invariant (fun _ _ _ h hC hstep => tabInv_step h hC hstep) tabInv_start horderly
  refine ⟨fun t' ht' => (hstates t' ht').lists.exact, fun x hx => ?_, squeaks_received hr horderly⟩
  obtain ⟨t', -, hstep⟩ := hr.after (t := x.1) (a := x.2) hx
  exact appendsNext_of_step (hstates x.1 (List.mem_append_left _ (List.mem_map_of_mem hx))) (horderly x hx) hstep

namespace Sample

/-- A locked squeak of a height. -/
def entry (squeakHash : String) (blockHeight : Int) : SqueakDisplayEntry where
  squeakHash := squeakHash
  isUnlocked := false
  contentStr := ""
  isReply := false
  replyTo := ""
  blockHeight := blockHeight
  blockHash := ""
  blockTime := 0
  squeakTime := 0
  authorPubkey := ""
  isAuthorKnown := false
  author := none
  likedTimeMs := 0
  serializedSqueakHex := ""
  secretKeyHex := ""
  isPrivate := false
  recipientPubkey := ""
  isRecipientKnown := false
  recipient := none

/-- A server with one squeak. -/
def server : Server := ⟨fun _ => [entry "b" 2], fun _ => by decide⟩

/-- The server when an older and a newer squeak have come. -/
def laterServer : Server := ⟨fun _ => [entry "c" 3, entry "b" 2, entry "a" 1], fun _ => by decide⟩

end Sample

open Sample in
theorem lists_exact_sample : ∃ history t, Machine.Run step start history t ∧
    t.store.timelineSqueaks.squeaks.map SqueakDisplayEntry.squeakHash = ["b", "a"] ∧
    (∀ t' ∈ Machine.states history t, Exact t') ∧ (∀ x ∈ history, AppendsNext x.1 x.2) ∧
    ∀ n, (t.store.list n).squeaks = (received n history).flatten := by
  have h₀ : Machine.Run step start [] start := .init
  have h₁ := h₀.next (a := .visit .home) rfl
  have h₂ := h₁.next (a := .fulfilled ⟨.timeline, none, false⟩ server) rfl
  have h₃ := h₂.next (a := .loadMore) rfl
  have h₄ := h₃.next (a := .fulfilled ⟨.timeline, some (entry "b" 2), false⟩ laterServer) rfl
  refine ⟨_, _, h₄, by decide +kernel, lists_exact h₄ ?_⟩
  intro x hx
  simp only [List.nil_append, List.cons_append, List.mem_cons, List.not_mem_nil, or_false] at hx
  rcases hx with rfl | rfl | rfl | rfl
  all_goals
    refine ⟨fun r server h => ?_, fun h q searchText hpage => (by cases hpage), fun h => (by cases h)⟩
    cases h
  all_goals rfl

open Sample in
/-- The timeline is left and opened again before its first page has arrived. -/
theorem timeline_doubled : ∃ history t, Machine.Run step start history t ∧ ¬ ∀ t' ∈ Machine.states history t, Exact t' := by
  have h₀ : Machine.Run step start [] start := .init
  have h₁ := h₀.next (a := .visit .home) rfl
  have h₂ := h₁.next (a := .visit .elsewhere) rfl
  have h₃ := h₂.next (a := .visit .home) rfl
  have h₄ := h₃.next (a := .fulfilled ⟨.timeline, none, true⟩ server) rfl
  have h₅ := h₄.next (a := .fulfilled ⟨.timeline, none, false⟩ server) rfl
  refine ⟨_, _, h₅, fun h => ?_⟩
  exact absurd ((h _ (List.mem_append_right _ List.mem_cons_self)).descending .timeline) (by decide +kernel)

end FeedPages

end Squeaknode
