/-
The search text on its way through the address. `goToNewSearch` writes it into the address as it was typed, and
the search page reads it back from there, decoded as a form and then once more by `decodeURIComponent`. The
router, which takes the address apart, is a package of its own: `Router` says what it does with a path.

The text survives exactly when it has no `&`, `#`, `+` and `%` (`readBack_iff`). The first page is then for it,
and LOAD MORE is as long as the text box still holds it (`search_text_survives_iff`).
-/
import Squeaknode.Frontend.FeedPages
import Squeaknode.Url.Urlencoded
import Mathlib.Data.List.TakeWhile

namespace Squeaknode

namespace SearchUrl

open Interleave FeedPages Url

/-! ## The address -/

/-- What the router finds in a path that is pushed: the part from the `?` to the first `#` is the `search` of the
location, and nothing is where no text follows the `?`. -/
structure Router where
  search : String → String
  search_push : ∀ pathname query : List Char, '?' ∉ pathname → '#' ∉ pathname →
    search (String.ofList (pathname ++ '?' :: query)) =
      if query.takeWhile (· ≠ '#') = [] then "" else String.ofList ('?' :: query.takeWhile (· ≠ '#'))

/-- The path that is pushed. -/
def goToNewSearch (newSearchText : String) : String := "/app/search?q=" ++ newSearchText

/-- `q` of the search page; `none` where `decodeURIComponent` throws. -/
def q (search : String) : Option String :=
  match get ['q'] (parse search.toList) with
  | none => some ""
  | some value => if value = [] then some "" else (decodeURIComponent value).map String.ofList

/-- The text that the page reads from the address that `goToNewSearch` writes. -/
def Router.readBack (router : Router) (s : String) : Option String := q (router.search (goToNewSearch s))

/-- The search page on the address that was written. It is taken off the screen where `q` throws. -/
def Router.goTo (router : Router) (s : String) (t : Tab) : Tab :=
  match router.readBack s with
  | some q => visit (.search q) t
  | none => { t with page := .elsewhere }

/-! ## The requests -/

/-- The queries of the requests that were sent between two states. -/
def sent (t t' : Tab) : List FeedQuery := (t'.inFlight.drop t.inFlight.length).map FeedRequest.query

/-- The queries that were sent in a run. -/
def requests (history : List (Tab × Act)) : List FeedQuery :=
  history.flatMap fun x => ((step x.2 x.1).map fun t => sent x.1 t).getD []

/-- What the text box of the search page holds. -/
def searchText : Page → Option String
  | .search _ searchText => some searchText
  | _ => none

/-- The text has none of the characters that the address or one of the two decodings reads otherwise. -/
def IsPlain (s : String) : Prop := ∀ c ∈ s.toList, c ≠ '&' ∧ c ≠ '#' ∧ c ≠ '+' ∧ c ≠ '%'

/-! ## Reading back -/

theorem search_goToNewSearch (router : Router) (s : String) :
    (router.search (goToNewSearch s)).toList = '?' :: (['q'] ++ '=' :: s.toList.takeWhile (· ≠ '#')) := by
  have hpath : goToNewSearch s = String.ofList ("/app/search".toList ++ '?' :: ('q' :: '=' :: s.toList)) := by
    rw [← String.toList_inj, String.toList_ofList, goToNewSearch, String.toList_append]
    rfl
  have htake : ('q' :: '=' :: s.toList).takeWhile (· ≠ '#') = 'q' :: '=' :: s.toList.takeWhile (· ≠ '#') := rfl
  rw [hpath, router.search_push _ _ (by decide) (by decide), htake, if_neg (by simp), String.toList_ofList]
  rfl

/-- The text as it is before the two decodings: up to the first `#` and the first `&`. -/
theorem readBack_eq (router : Router) (s : String) :
    router.readBack s =
      let value := decodeForm ((s.toList.takeWhile (· ≠ '#')).takeWhile (· ≠ '&'))
      if value = [] then some "" else (decodeURIComponent value).map String.ofList := by
  rw [Router.readBack, q, search_goToNewSearch, get_parse (by simp)]

theorem takeWhile_eq_self {p : Char → Bool} {s : List Char} (h : s.length ≤ (s.takeWhile p).length) :
    s.takeWhile p = s :=
  (List.takeWhile_prefix p).eq_of_length_le h

theorem plus_not_mem_spaces (s : List Char) : '+' ∉ s.map plusToSpace := by
  intro h
  obtain ⟨c, -, heq⟩ := List.mem_map.1 h
  unfold plusToSpace at heq
  split at heq
  · cases heq
  · rename_i hc
    exact hc heq

/-- Each of the steps on the way shortens the text or keeps it, but for the `+`. -/
theorem readBack_iff (router : Router) {s : String} (hs : s ≠ "") : router.readBack s = some s ↔ IsPlain s := by
  rw [readBack_eq]
  simp only
  constructor
  · intro h
    split at h
    · cases h
      exact absurd rfl hs
    · obtain ⟨t, ht, heq⟩ := Option.map_eq_some_iff.1 h
      have hchars : t = s.toList := by rw [← heq, String.toList_ofList]
      subst hchars
      obtain ⟨huri, huri'⟩ := decodeURIComponent_length ht
      obtain ⟨hform, hform'⟩ := decodeForm_length ((s.toList.takeWhile (· ≠ '#')).takeWhile (· ≠ '&'))
      have hamp := (List.takeWhile_prefix (l := s.toList.takeWhile (· ≠ '#')) (· ≠ '&')).length_le
      have hhash := (List.takeWhile_prefix (l := s.toList) (· ≠ '#')).length_le
      -- the text that comes out is as long as the one that went in, so that nothing was cut or decoded
      have hnohash : s.toList.takeWhile (· ≠ '#') = s.toList := takeWhile_eq_self (by omega)
      rw [hnohash] at huri huri' hform hform' hamp
      have hnoamp : s.toList.takeWhile (· ≠ '&') = s.toList := takeWhile_eq_self (by omega)
      rw [hnoamp] at huri huri' hform hform'
      have hspaces := hform' (by omega)
      obtain ⟨hnopercent, hsame⟩ := huri' (by omega)
      rw [← hsame] at hspaces hnopercent
      intro c hc
      refine ⟨?_, ?_, ?_, ?_⟩
      · simpa using List.takeWhile_eq_self_iff.1 hnoamp c hc
      · simpa using List.takeWhile_eq_self_iff.1 hnohash c hc
      · rintro rfl
        rw [hspaces] at hc
        exact plus_not_mem_spaces _ hc
      · rintro rfl
        exact hnopercent hc
  · intro h
    have hnohash : s.toList.takeWhile (· ≠ '#') = s.toList :=
      List.takeWhile_eq_self_iff.2 fun c hc => by simpa using (h c hc).2.1
    have hnoamp : s.toList.takeWhile (· ≠ '&') = s.toList :=
      List.takeWhile_eq_self_iff.2 fun c hc => by simpa using (h c hc).1
    have hnopercent : '%' ∉ s.toList := fun hc => (h _ hc).2.2.2 rfl
    have hnoplus : '+' ∉ s.toList := fun hc => (h _ hc).2.2.1 rfl
    rw [hnohash, hnoamp, decodeForm_plain hnopercent hnoplus, if_neg, decodeURIComponent_plain hnopercent, Option.map_some,
      String.ofList_toList]
    intro hnil
    exact hs (String.toList_eq_nil_iff.1 hnil)

/-! ## The page -/

theorem sent_eq_nil {t t' : Tab} (h : t'.inFlight.length ≤ t.inFlight.length) : sent t t' = [] := by
  rw [sent, List.drop_eq_nil_of_le h]
  rfl

theorem sent_fetch (query : FeedQuery) (lastSqueak : Option SqueakAdminPb2.SqueakDisplayEntry) {t t' : Tab}
    (h : t'.inFlight.length = t.inFlight.length) : sent t (fetch query lastSqueak t') = [query] := by
  show ((t'.inFlight ++ [_]).drop t.inFlight.length).map FeedRequest.query = _
  rw [← h, List.drop_left]
  rfl

theorem length_outdate (n : SqueaksSlice.ListName) (inFlight : List FeedRequest) :
    (outdate n inFlight).length = inFlight.length := List.length_map _

/-- A step on the search page that does not leave it: LOAD MORE sends the text in the box, no other step sends
anything. -/
theorem step_stays {a : Act} {t t' : Tab} {query text : String} (h : step a t = some t')
    (hpage : t.page = .search query text)
    (hstays : ∀ location, a ≠ .visit location) :
    (∃ text', t'.page = .search query text') ∧ (a = .loadMore → sent t t' = [.search text]) ∧
      (a ≠ .loadMore → sent t t' = []) := by
  cases a with
  | visit location => exact absurd rfl (hstays location)
  | typeText searchText =>
    rw [FeedPages.step, hpage] at h
    cases h
    exact ⟨⟨searchText, rfl⟩, fun heq => (by cases heq), fun _ => sent_eq_nil (Nat.le_refl _)⟩
  | clear n =>
    cases h
    exact ⟨⟨text, hpage⟩, fun heq => (by cases heq), fun _ => sent_eq_nil (length_outdate n t.inFlight).le⟩
  | loadMore =>
    rw [FeedPages.step, loadMore, hpage] at h
    obtain ⟨-, heq⟩ := Option.ite_none_left_eq_some.1 h
    cases heq
    exact ⟨⟨text, hpage⟩, fun _ => sent_fetch _ _ rfl, fun hne => absurd rfl hne⟩
  | fulfilled r server =>
    obtain ⟨-, heq⟩ := Option.ite_none_right_eq_some.1 h
    cases heq
    exact ⟨⟨text, hpage⟩, fun heq => (by cases heq), fun _ => sent_eq_nil List.erase_sublist.length_le⟩
  | rejected r =>
    obtain ⟨-, heq⟩ := Option.ite_none_right_eq_some.1 h
    cases heq
    exact ⟨⟨text, hpage⟩, fun heq => (by cases heq), fun _ => sent_eq_nil List.erase_sublist.length_le⟩

/-- Opening the search page: the first page is requested unless the page was shown already. -/
theorem visit_search {s : String} (hs : s ≠ "") (t : Tab) :
    (∃ text, (visit (.search s) t).page = .search s text) ∧
    ((∀ text, t.page ≠ .search s text) → sent t (visit (.search s) t) = [.search s]) := by
  have heffect : ∀ text, (searchEffect s text t).page = .search s s ∧ sent t (searchEffect s text t) = [.search s] := by
    intro text
    rw [searchEffect, if_neg hs]
    refine ⟨rfl, sent_fetch (.search s) none ?_⟩
    exact (length_outdate .search _).trans (length_outdate .search _)
  rcases hpage : t.page with _ | ⟨query, text⟩ | _ | _ <;> simp only [visit, hpage]
  case search =>
    by_cases heq : s = query
    · rw [if_pos heq, hpage, heq]
      exact ⟨⟨text, rfl⟩, fun hother => absurd rfl (hother text)⟩
    · rw [if_neg heq]
      exact ⟨⟨s, (heffect text).1⟩, fun _ => (heffect text).2⟩
  all_goals exact ⟨⟨s, (heffect "").1⟩, fun _ => (heffect "").2⟩

theorem requests_append (history later : List (Tab × Act)) :
    requests (history ++ later) = requests history ++ requests later := List.flatMap_append

theorem page_stays {t t' : Tab} {query text : String} {history : List (Tab × Act)} (hr : Machine.Run step t history t')
    (hpage : t.page = .search query text) (hstays : ∀ x ∈ history, ∀ location, x.2 ≠ .visit location) :
    ∀ s ∈ Machine.states history t', ∃ text', s.page = .search query text' := by
  refine hr.invariant (C := fun _ a => ∀ location, a ≠ .visit location) (fun s a s' hs ha hstep => ?_) ⟨text, hpage⟩ hstays
  obtain ⟨text', hs⟩ := hs
  exact (step_stays hstep hs ha).1

/-- A run that stays on the search page sends what the box holds where LOAD MORE is clicked. -/
theorem mem_requests {t t' : Tab} {query text : String} {history : List (Tab × Act)}
    (hr : Machine.Run step t history t') (hpage : t.page = .search query text)
    (hstays : ∀ x ∈ history, ∀ location, x.2 ≠ .visit location) (sentQuery : FeedQuery) :
    sentQuery ∈ requests history ↔
      ∃ x ∈ history, ∃ text', x.2 = .loadMore ∧ x.1.page = .search query text' ∧ sentQuery = .search text' := by
  induction hr with
  | init => exact ⟨fun h => (by cases h), fun ⟨_, hx, _⟩ => (by cases hx)⟩
  | @next history s s' a hr ha ih =>
    have hbefore : ∀ x ∈ history, ∀ location, x.2 ≠ .visit location := fun x hx => hstays x (List.mem_append_left _ hx)
    obtain ⟨text', hs⟩ := page_stays hr hpage hbefore s (List.mem_append_right _ List.mem_cons_self)
    obtain ⟨-, hmore, hnomore⟩ := step_stays ha hs (hstays (s, a) (List.mem_append_right _ List.mem_cons_self))
    have hlast : requests [(s, a)] = sent s s' := by
      show ([(s, a)] : List (Tab × Act)).flatMap _ = _
      rw [List.flatMap_singleton, ha]
      rfl
    rw [requests_append, List.mem_append, ih hbefore, hlast]
    constructor
    · rintro (⟨x, hx, h⟩ | hmem)
      · exact ⟨x, List.mem_append_left _ hx, h⟩
      · by_cases hclick : a = .loadMore
        · rw [hmore hclick, List.mem_singleton] at hmem
          exact ⟨(s, a), List.mem_append_right _ List.mem_cons_self, text', hclick, hs, hmem⟩
        · rw [hnomore hclick] at hmem
          cases hmem
    · rintro ⟨x, hx, text'', hclick, hx', rfl⟩
      rcases List.mem_append.1 hx with hx | hx
      · exact .inl ⟨x, hx, text'', hclick, hx', rfl⟩
      · obtain rfl := List.mem_singleton.1 hx
        obtain rfl : text' = text'' := (Page.search.inj (hs.symm.trans hx')).2
        rw [hmore hclick]
        exact .inr List.mem_cons_self

open FeedPages in
/-- For a text that is not empty, on the page that was shown before whatever it was: the address gives the text back,
the first page is requested for it and so is every further one, exactly when the text is plain and LOAD MORE is
clicked only while the text box holds it. -/
theorem search_text_survives_iff (router : Router) {s : String} (hs : s ≠ "") {before t : Tab} {history : List (Tab × Act)}
    (hr : Machine.Run step (router.goTo s before) history t) (hstays : ∀ x ∈ history, ∀ location, x.2 ≠ .visit location) :
    (router.readBack s = some s ∧
      ((∀ text, before.page ≠ .search s text) → sent before (router.goTo s before) = [.search s]) ∧
      ∀ query ∈ requests history, query = .search s) ↔
    IsPlain s ∧ ∀ x ∈ history, x.2 = .loadMore → searchText x.1.page = some s := by
  rw [readBack_iff router hs]
  refine and_congr_right fun hplain => ?_
  have hgoTo : router.goTo s before = visit (.search s) before := by
    rw [Router.goTo, (readBack_iff router hs).2 hplain]
  rw [hgoTo] at hr ⊢
  obtain ⟨⟨text, hpage⟩, hfirst⟩ := visit_search hs before
  constructor
  · rintro ⟨-, hall⟩ x hx hclick
    obtain ⟨text', hx'⟩ := page_stays hr hpage hstays x.1 (List.mem_append_left _ (List.mem_map_of_mem hx))
    have hquery := hall _ ((mem_requests hr hpage hstays _).2 ⟨x, hx, text', hclick, hx', rfl⟩)
    rw [hx', searchText, FeedQuery.search.inj hquery]
  · intro hbox
    refine ⟨hfirst, fun query hquery => ?_⟩
    obtain ⟨x, hx, text', hclick, hx', rfl⟩ := (mem_requests hr hpage hstays query).1 hquery
    have htext := hbox x hx hclick
    rw [hx'] at htext
    rw [Option.some.inj htext]

namespace Sample

/-- A path is taken apart at its first `#` and its first `?`. -/
def router : Router where
  search path :=
    let href := path.toList.takeWhile (· ≠ '#')
    if (href.dropWhile (· ≠ '?')).drop 1 = [] then "" else String.ofList (href.dropWhile (· ≠ '?'))
  search_push pathname query hquestion hhash := by
    have htake : (pathname ++ '?' :: query).takeWhile (· ≠ '#') = pathname ++ '?' :: query.takeWhile (· ≠ '#') := by
      rw [List.takeWhile_append_of_pos]
      · rfl
      · rintro c hc
        simpa using fun heq : c = '#' => hhash (heq ▸ hc)
    have hdrop : (pathname ++ '?' :: query.takeWhile (· ≠ '#')).dropWhile (· ≠ '?') = '?' :: query.takeWhile (· ≠ '#') := by
      rw [List.dropWhile_append_of_pos]
      · rfl
      · rintro c hc
        simpa using fun heq : c = '?' => hquestion (heq ▸ hc)
    simp only [String.toList_ofList, htake, hdrop]
    rfl

/-- A server that lists nothing. -/
def server : Server := ⟨fun _ => [], fun _ => List.nodup_nil⟩

/-- The first page is answered, and LOAD MORE is clicked. -/
def loadsMore : List Act := [.fulfilled ⟨.search "hello world", none, false⟩ server, .loadMore]

def isLoadMore : Act → Bool
  | .loadMore => true
  | _ => false

def isVisit : Act → Bool
  | .visit _ => true
  | _ => false

end Sample

/-- A text that is plain is read back, and both pages are requested for it. -/
theorem search_text_survives_sample : ∃ (history : List (Tab × Act)) (t : Tab),
    Machine.Run step (Sample.router.goTo "hello world" start) history t ∧ requests history = [.search "hello world"] ∧
    Sample.router.readBack "hello world" = some "hello world" ∧
    sent start (Sample.router.goTo "hello world" start) = [.search "hello world"] ∧
    ∀ query ∈ requests history, query = .search "hello world" := by
  have hexec : (Machine.exec step Sample.loadsMore (Sample.router.goTo "hello world" start)).map (fun r =>
      (r.1.all fun x => !Sample.isVisit x.2 && (!Sample.isLoadMore x.2 || searchText x.1.page = some "hello world"),
        requests r.1)) = some (true, [.search "hello world"]) := by
    decide +kernel
  obtain ⟨⟨history, t⟩, hrun, hstate⟩ := Option.map_eq_some_iff.1 hexec
  obtain ⟨hall, hrequests⟩ : (history.all _) = true ∧ requests history = _ := by
    simpa only [Prod.mk.injEq] using hstate
  have hplain : IsPlain "hello world" := by simp [IsPlain]
  have hchecked := List.all_eq_true.1 hall
  have hsurvives := (search_text_survives_iff Sample.router (by decide) (Machine.run_exec hrun) ?_).2 ⟨hplain, ?_⟩
  · exact ⟨history, t, Machine.run_exec hrun, hrequests, hsurvives.1, hsurvives.2.1 nofun, hsurvives.2.2⟩
  · intro x hx location heq
    have hvisit := hchecked x hx
    rw [heq] at hvisit
    cases hvisit
  · intro x hx heq
    have hbox := hchecked x hx
    rw [heq] at hbox
    simpa [Sample.isVisit, Sample.isLoadMore] using hbox

/-- Four texts that come back cut, changed or not at all: the page is for another text, or is taken off the screen. -/
theorem search_text_lost :
    Sample.router.readBack "bread & butter" = some "bread " ∧ Sample.router.readBack "#squeak" = some "" ∧
    Sample.router.readBack "c++" = some "c  " ∧ Sample.router.readBack "100%" = none := by
  decide +kernel

end SearchUrl

end Squeaknode
