/-
The feed pages of the frontend with the node behind them. The node answers a request from its tables, which
change all the time, with at most ten squeaks below the last one that the list has, by height, time and hash;
the page appends the answer and passes its last message back.

What a list shows is then the feed of the node, newest first and no squeak twice, and after a short page every
squeak that was in the feed all along (`feeds_shown`). The hashes are compared as bytes in the node and as
text in the frontend, in the same order (`strictMono_hex`).
-/
import Squeaknode.Admin.Feeds
import Squeaknode.Frontend.FeedPages

namespace Squeaknode

open Interleave Relational SqueakDb SqueaksSlice
open SqueakAdminPb2 (SqueakDisplayEntry)

/-! ## The order of the hashes -/

theorem hexDigit_lt {m n : Nat} (h : m < n) (hn : n < 16) : hexDigit m < hexDigit n := by
  interval_cases n <;> interval_cases m <;> decide

theorem hexDigits_lt : ∀ {a b : Bytes}, a < b → hexDigits a < hexDigits b
  | _, [], h => absurd h (List.not_lt_nil _)
  | [], _ :: _, _ => List.nil_lt_cons _ _
  | a :: as, b :: bs, h => by
    have hb : b.toNat < 256 := b.toNat_lt
    show hexDigit (a.toNat / 16) :: hexDigit (a.toNat % 16) :: hexDigits as <
      hexDigit (b.toNat / 16) :: hexDigit (b.toNat % 16) :: hexDigits bs
    rcases List.cons_lt_cons_iff.1 h with hlt | ⟨rfl, hlt⟩
    · have hlt : a.toNat < b.toNat := hlt
      rcases Nat.lt_or_ge (a.toNat / 16) (b.toNat / 16) with hhigh | hhigh
      · exact List.cons_lt_cons_iff.2 (.inl (hexDigit_lt hhigh (by omega)))
      · have heq : a.toNat / 16 = b.toNat / 16 := by omega
        rw [heq]
        refine List.cons_lt_cons_iff.2 (.inr ⟨rfl, List.cons_lt_cons_iff.2 (.inl ?_)⟩)
        exact hexDigit_lt (by omega) (by omega)
    · refine List.cons_lt_cons_iff.2 (.inr ⟨rfl, List.cons_lt_cons_iff.2 (.inr ⟨rfl, ?_⟩)⟩)
      exact hexDigits_lt hlt

/-- `bytes.hex()` keeps the order. -/
theorem strictMono_hex : StrictMono hex := by
  intro a b h
  show hex a < hex b
  rw [String.lt_iff_toList_lt, hex, hex, String.toList_ofList, String.toList_ofList]
  exact hexDigits_lt h

namespace FeedPages

/-- The key of an entry, as the frontend sees it. -/
def displayOf (k : FeedKey) : DisplayKey := toLex ((ofLex k).1, toLex ((ofLex (ofLex k).2).1, hex (ofLex (ofLex k).2).2))

theorem displayOf_lt {k k' : FeedKey} (h : k < k') : displayOf k < displayOf k' := by
  rcases Prod.Lex.lt_iff.1 h with hheight | ⟨hheight, h⟩
  · exact Prod.Lex.toLex_lt_toLex.2 (.inl hheight)
  · refine Prod.Lex.toLex_lt_toLex.2 (.inr ⟨hheight, ?_⟩)
    rcases Prod.Lex.lt_iff.1 h with htime | ⟨htime, hhash⟩
    · exact Prod.Lex.toLex_lt_toLex.2 (.inl htime)
    · exact Prod.Lex.toLex_lt_toLex.2 (.inr ⟨htime, strictMono_hex hhash⟩)

/-! ## The answers of the node -/

variable {L : Squeaklib} {ρ : Type} (ilike : Ilike) (defaultProfileImage : Bytes)

variable (L) in
/-- The handler of a request. -/
def FeedRequest.handle (r : FeedRequest) : NodeM ρ (List SqueakDisplayEntry) :=
  match r.query with
  | .timeline => handleGetTimelineSqueakDisplayEntries L defaultProfileImage limit r.lastSqueak
  | .search searchText =>
    handleGetSqueakDisplayEntriesForTextSearch L ilike defaultProfileImage searchText limit r.lastSqueak
  | .profile profilePubkey => handleGetSqueakDisplayEntriesForPubkey L defaultProfileImage profilePubkey limit r.lastSqueak

variable (L) in
/-- The feed of a query, if the public key of a profile page is one. -/
def FeedQuery.feed : FeedQuery → Except Err (Feed L)
  | timeline => .ok .timeline
  | search searchText => .ok (.textSearch searchText)
  | profile profilePubkey => Feed.byPublicKey <$> (fromHex profilePubkey >>= L.publicKeyFromBytes)

section Answers

variable {ilike defaultProfileImage}

/-- The entries that a handler sends are those of its feed. -/
theorem answer_of_displayEntries {feed : Feed L} {lastSqueak : Option SqueakDisplayEntry} {last : Option (SqueakEntry L)}
    {w : World ρ} {entries : List SqueakDisplayEntry} (hlast : decodeLastEntry L lastSqueak = .ok last)
    (h : ((displayEntries defaultProfileImage (feed.page ilike limit last)).run w).1 = .ok entries) :
    (feed.pager ilike defaultProfileImage).answer limit lastSqueak w.db = .ok entries := by
  have hcursor : (feed.pager ilike defaultProfileImage).cursor lastSqueak w.db = .ok (feedCursor last) := by
    show feedCursor <$> decodeLastEntry L lastSqueak = _
    rw [hlast]
    rfl
  rw [Feed.run_displayEntries] at h
  unfold Pager.answer
  rw [hcursor]
  exact h

/-- What is answered is a page of the feed. -/
theorem answer_of_handle {r : FeedRequest} {w : World ρ} {entries : List SqueakDisplayEntry}
    (h : ((r.handle L ilike defaultProfileImage).run w).1 = .ok entries) :
    ∃ feed, r.query.feed L = .ok feed ∧ (feed.pager ilike defaultProfileImage).answer limit r.lastSqueak w.db =
      .ok entries := by
  obtain ⟨query, lastSqueak, outdated⟩ := r
  cases query with
  | timeline =>
    cases hlast : decodeLastEntry L lastSqueak with
    | error err =>
      simp only [FeedRequest.handle, handleGetTimelineSqueakDisplayEntries, hlast] at h
      cases h
    | ok last =>
      simp only [FeedRequest.handle, handleGetTimelineSqueakDisplayEntries, hlast] at h
      exact ⟨.timeline, rfl, answer_of_displayEntries hlast h⟩
  | search searchText =>
    cases hlast : decodeLastEntry L lastSqueak with
    | error err =>
      simp only [FeedRequest.handle, handleGetSqueakDisplayEntriesForTextSearch, hlast] at h
      cases h
    | ok last =>
      simp only [FeedRequest.handle, handleGetSqueakDisplayEntriesForTextSearch, hlast] at h
      exact ⟨.textSearch searchText, rfl, answer_of_displayEntries hlast h⟩
  | profile profilePubkey =>
    cases hlast : decodeLastEntry L lastSqueak with
    | error err =>
      simp only [FeedRequest.handle, handleGetSqueakDisplayEntriesForPubkey, hlast] at h
      cases h
    | ok last =>
      cases hkey : fromHex profilePubkey >>= L.publicKeyFromBytes with
      | error err =>
        simp only [FeedRequest.handle, handleGetSqueakDisplayEntriesForPubkey, hlast, hkey] at h
        cases h
      | ok publicKey =>
        simp only [FeedRequest.handle, handleGetSqueakDisplayEntriesForPubkey, hlast, hkey] at h
        refine ⟨.byPublicKey publicKey, ?_, answer_of_displayEntries hlast h⟩
        simp only [FeedQuery.feed, hkey]
        rfl

end Answers

/-- The answers that a list is made of are pages of a feed, each with the tables it was read from; and the cursor after
them. -/
inductive ShownPages (feed : Feed L) : List (Db × List SqueakDisplayEntry) → List (Db × List (SqueakEntry L)) →
  FeedKey → Prop
  | cleared : ShownPages feed [] [] (feedCursor (none : Option (SqueakEntry L)))
  | page {answers : List (Db × List SqueakDisplayEntry)} {pages : List (Db × List (SqueakEntry L))} {cursor : FeedKey}
      {db : Db} {items : List (SqueakEntry L × SqueakDisplayEntry)} : ShownPages feed answers pages cursor →
      Listed L db → (feed.pager ilike defaultProfileImage).select limit cursor db = .ok items →
      ShownPages feed (answers ++ [(db, items.map Prod.snd)]) (pages ++ [(db, items.map Prod.fst)])
        (cursorAfter cursor (items.map fun x => x.1.key))

section ShownPages

variable {ilike defaultProfileImage} {feed : Feed L} {answers : List (Db × List SqueakDisplayEntry)}
  {pages : List (Db × List (SqueakEntry L))} {cursor : FeedKey}

/-- The next page is asked for with the last message. -/
theorem ShownPages.cursor_eq (hL : L.CodecLaws) (h : ShownPages ilike defaultProfileImage feed answers pages cursor)
    (db : Db) :
    (feed.pager ilike defaultProfileImage).cursor (answers.flatMap Prod.snd).getLast? db = .ok cursor := by
  induction h with
  | cleared => rfl
  | @page answers pages cursor db' items h hdb hitems ih =>
    rw [List.flatMap_append, List.flatMap_singleton]
    rcases List.eq_nil_or_concat items with rfl | ⟨init, x, rfl⟩
    · rw [List.map_nil, List.append_nil]
      exact ih
    · rw [List.concat_eq_append] at hitems ⊢
      rw [List.map_append, List.map_append, ← List.append_assoc, List.map_singleton, List.getLast?_concat, cursorAfter,
        List.map_singleton, List.getLast?_concat, Option.getD_some]
      exact Feed.cursor_of_send hL (Feed.select_ok hitems) (by simp)

theorem ShownPages.toPages (hL : L.CodecLaws) (hH : L.HashLaw)
    (h : ShownPages ilike defaultProfileImage feed answers pages cursor) :
    Pages limit (feedCursor (none : Option (SqueakEntry L))) (keyPages SqueakEntry.key (feed.keys ilike) pages) cursor ∧
      ∀ p ∈ pages, Listed L p.1 := by
  induction h with
  | cleared => exact ⟨.init, fun p hp => by cases hp⟩
  | @page answers pages cursor db items h hdb hitems ih =>
    have hpage := (Feed.lawful ilike defaultProfileImage hL hH feed).page hdb hitems
    constructor
    · have hnext := ih.1.next (feed.keys ilike db)
      rw [← hpage] at hnext
      simpa [keyPages, Function.comp_def] using hnext
    · intro p hp
      rcases List.mem_append.1 hp with hp | hp
      · exact ih.2 p hp
      · rw [List.mem_singleton.1 hp]
        exact hdb

/-- The answers are the pages as messages. -/
def SentFrom (defaultProfileImage : Bytes) (p : Db × List (SqueakEntry L)) (answer : Db × List SqueakDisplayEntry) : Prop :=
  p.1 = answer.1 ∧ List.Forall₂ (fun e msg => squeakEntryToMessage defaultProfileImage e = .ok msg) p.2 answer.2

theorem ShownPages.sent (h : ShownPages ilike defaultProfileImage feed answers pages cursor) :
    List.Forall₂ (SentFrom defaultProfileImage) pages answers := by
  induction h with
  | cleared => exact .nil
  | @page answers pages cursor db items h hdb hitems ih =>
    refine List.rel_append ih (.cons ⟨rfl, ?_⟩ .nil)
    rw [List.forall₂_map_left_iff, List.forall₂_map_right_iff, List.forall₂_same]
    exact fun x hx => (mem_sendRows (Feed.select_ok hitems) hx).1

end ShownPages

/-! ## The frontend and the node -/

/-- The tables of the node, and the tab of the browser. -/
structure Site where
  db : Db
  tab : Tab

variable (L) in
/-- What happens to the tab or to the tables next. -/
inductive Event where
  /-- the user does something, or a request gets no answer -/
  | act (a : Act)
  /-- the node answers a request -/
  | answered (r : FeedRequest)
  /-- the node writes to its tables -/
  | commit (s : Statement L)

namespace Site

/-- An answer is appended; an error is a request without answer. -/
def answered (r : FeedRequest) (s : Site) : Option Site :=
  if s.tab.inFlight.contains r then
    match ((r.handle L ilike defaultProfileImage).run ⟨s.db, ()⟩).1 with
    | .ok entries =>
      some { s with tab := { s.tab with
        store := listFulfilled r.query.list entries s.tab.store
        inFlight := s.tab.inFlight.erase r } }
    | .error _ => some { s with tab := { s.tab with inFlight := s.tab.inFlight.erase r } }
  else none

/-- What an event does to the tables and the tab, if it can happen. -/
def step : Event L → Site → Option Site
  | .act (.fulfilled _ _), _ => none
  | .act a, s => (FeedPages.step a s.tab).map fun tab => { s with tab := tab }
  | .answered r, s => s.answered (L := L) ilike defaultProfileImage r
  | .commit st, s => some { s with db := st.commit s.db }

/-- A tab that was just opened. -/
def start (db : Db) : Site := ⟨db, FeedPages.start⟩

/-- The answers that were received for a list since it was last emptied, each with the tables of the node at that time. -/
def answers (n : ListName) (history : List (Site × Event L)) : List (Db × List SqueakDisplayEntry) :=
  history.foldl (fun answers x => match x.2 with
    | .act a => if empties n x.1.tab a then [] else answers
    | .answered r => match ((r.handle L ilike defaultProfileImage).run ⟨x.1.db, ()⟩).1 with
      | .ok entries => if r.query.list = n then answers ++ [(x.1.db, entries)] else answers
      | .error _ => answers
    | .commit _ => answers) []

/-- No outdated request is answered, and the search page is used as `Orderly` says. -/
def Orderly (s : Site) : Event L → Prop
  | .act a => FeedPages.Orderly s.tab a
  | .answered r => r.outdated = false
  | .commit _ => True

end Site

/-! ## A page as the answer of a server -/

/-- The key of a message is that of its entry. -/
theorem displayKey_sent {e : SqueakEntry L} {msg : SqueakDisplayEntry}
    (h : squeakEntryToMessage defaultProfileImage e = .ok msg) : displayKey msg = displayOf e.key := by
  obtain ⟨hhash, -, -, -, -, -, hheight, -, htime, -⟩ := squeakEntryToMessage_ok defaultProfileImage h
  unfold displayKey
  rw [hhash, hheight, htime]
  rfl

/-- A server that lists nothing but a page. -/
def pageServer (page : List SqueakDisplayEntry) (h : (page.map displayKey).Pairwise (· > ·)) : Server where
  entries _ := page
  distinct _ := h.imp fun hgt => hgt.ne'

/-- It answers with the page, to a request for what comes after the squeaks before it. -/
theorem nextPage_pageServer {page : List SqueakDisplayEntry} (h : (page.map displayKey).Pairwise (· > ·))
    {lastSqueak : Option SqueakDisplayEntry} (hbelow : ∀ msg ∈ page, ∀ last, lastSqueak = some last →
    displayKey msg < displayKey last)
    (hlimit : page.length ≤ limit) (query : FeedQuery) : (pageServer page h).nextPage query lastSqueak = page := by
  have hall : page.filter
    (fun msg => decide ((displayKey msg : WithTop DisplayKey) < cursorKey (lastSqueak.map displayKey))) =
      page := by
    rw [List.filter_eq_self]
    intro msg hmsg
    rw [decide_eq_true_eq]
    cases lastSqueak with
    | none => exact WithTop.coe_lt_top _
    | some last => exact WithTop.coe_lt_coe.2 (hbelow msg hmsg last rfl)
  have hdesc : page.Pairwise fun a b => (displayKey b : WithTop DisplayKey) < displayKey a :=
    (List.pairwise_map.1 h).imp fun hgt => WithTop.coe_lt_coe.2 hgt
  show selectPage _ limit _ page = page
  rw [selectPage_eq_take, hall, orderByDesc_eq (List.Perm.refl page) hdesc, List.take_of_length_le hlimit]

/-! ## What a list shows -/

section ShownPages

variable {ilike defaultProfileImage} {feed : Feed L} {answers : List (Db × List SqueakDisplayEntry)}
  {pages : List (Db × List (SqueakEntry L))} {cursor : FeedKey}

/-- The cursor is the key of the last message. -/
theorem ShownPages.displayKey_last (h : ShownPages ilike defaultProfileImage feed answers pages cursor) :
    ∀ last, (answers.flatMap Prod.snd).getLast? = some last → displayKey last = displayOf cursor := by
  induction h with
  | cleared =>
    intro last hlast
    cases hlast
  | @page answers pages cursor db items h hdb hitems ih =>
    intro last hlast
    rw [List.flatMap_append, List.flatMap_singleton] at hlast
    rcases List.eq_nil_or_concat items with rfl | ⟨init, x, rfl⟩
    · rw [List.map_nil, List.append_nil] at hlast
      exact ih last hlast
    · rw [List.concat_eq_append] at hitems hlast ⊢
      rw [List.map_append, ← List.append_assoc, List.map_singleton, List.getLast?_concat, Option.some.injEq] at hlast
      rw [cursorAfter, List.map_append, List.map_singleton, List.getLast?_concat, Option.getD_some, ← hlast]
      exact displayKey_sent defaultProfileImage (mem_sendRows (Feed.select_ok hitems) (by simp)).1

theorem ShownPages.map_sent (h : ShownPages ilike defaultProfileImage feed answers pages cursor) {γ : Type}
    {f : SqueakDisplayEntry → γ} {g : SqueakEntry L → γ}
    (hfg : ∀ e msg, squeakEntryToMessage defaultProfileImage e = .ok msg → f msg = g e) :
    (answers.flatMap Prod.snd).map f = (pages.flatMap Prod.snd).map g := by
  have hentries : ∀ {entries : List (SqueakEntry L)} {msgs : List SqueakDisplayEntry},
      List.Forall₂ (fun e msg => squeakEntryToMessage defaultProfileImage e = .ok msg) entries msgs →
        msgs.map f = entries.map g := by
    intro entries msgs hall
    induction hall with
    | nil => rfl
    | cons hmsg _ ih => rw [List.map_cons, List.map_cons, hfg _ _ hmsg, ih]
  have hall := h.sent
  clear h
  induction hall with
  | nil => rfl
  | cons hpage _ ih =>
    rw [List.flatMap_cons, List.flatMap_cons, List.map_append, List.map_append, hentries hpage.2, ih]

theorem ShownPages.short (h : ShownPages ilike defaultProfileImage feed answers pages cursor) :
    pages.getLast?.any (fun p => decide ((p.2.map SqueakEntry.key).length < limit)) =
      answers.getLast?.any fun p => decide (p.2.length < limit) := by
  cases h with
  | cleared => rfl
  | page => simp

/-- A page that is appended descends, and starts below the last squeak. -/
theorem ShownPages.next (hL : L.CodecLaws) (hH : L.HashLaw)
    (h : ShownPages ilike defaultProfileImage feed answers pages cursor) {db : Db} (hdb : Listed L db)
    {items : List (SqueakEntry L × SqueakDisplayEntry)}
    (hitems : (feed.pager ilike defaultProfileImage).select limit cursor db = .ok items) :
    ((items.map Prod.snd).map displayKey).Pairwise (· > ·) ∧
      (∀ msg ∈ items.map Prod.snd, ∀ last, (answers.flatMap Prod.snd).getLast? = some last →
        displayKey msg < displayKey last) ∧
      (items.map Prod.snd).length ≤ limit := by
  have hlawful := Feed.lawful ilike defaultProfileImage hL hH feed
  have hpage := hlawful.page hdb hitems
  have hsent : ∀ x ∈ items, displayKey x.2 = displayOf x.1.key := fun x hx =>
    displayKey_sent defaultProfileImage (mem_sendRows (Feed.select_ok hitems) hx).1
  have hkeys : (items.map Prod.snd).map displayKey = (items.map fun x => x.1.key).map displayOf := by
    rw [List.map_map, List.map_map]
    exact List.map_congr_left hsent
  refine ⟨?_, fun msg hmsg last hlast => ?_, ?_⟩
  · rw [hkeys, hpage, List.pairwise_map]
    exact (page_descending limit cursor (hlawful.distinct hdb).of_map).imp fun hgt => displayOf_lt hgt
  · obtain ⟨x, hx, rfl⟩ := List.mem_map.1 hmsg
    rw [h.displayKey_last last hlast, hsent x hx]
    refine displayOf_lt ?_
    have hmem : x.1.key ∈ selectPage id limit cursor (feed.keys ilike db) := hpage ▸ List.mem_map_of_mem hx
    exact (mem_selectPage hmem).2
  · have hlength := congrArg List.length hpage
    rw [List.length_map] at hlength
    rw [List.length_map, hlength, selectPage_eq_take]
    exact List.length_take_le _ _

end ShownPages

/-- The answers show the feed, as it was when each was read from the tables: they descend, no squeak comes twice, each
message is the entry of a squeak that matched the feed, and after a short answer every squeak that the feed had at each
of the answers has come. -/
structure FeedShown (feed : Feed L) (answers : List (Db × List SqueakDisplayEntry)) : Prop where
  descending : ((answers.flatMap Prod.snd).map displayKey).Pairwise (· > ·)
  once : ((answers.flatMap Prod.snd).map SqueakDisplayEntry.squeakHash).Nodup
  listed : ∀ p ∈ answers, ∀ msg ∈ p.2, ∃ r ∈ p.1.squeaks, feed.Matches ilike p.1 r ∧
    ∃ e, parseSqueakEntry L (joined p.1.profiles.rows r) = .ok e ∧ squeakEntryToMessage defaultProfileImage e = .ok msg
  complete : (answers.getLast?.any fun p => decide (p.2.length < limit)) = true → ∀ squeakHash,
    (∀ p ∈ answers, feed.Has ilike p.1 squeakHash) →
    ((answers.flatMap Prod.snd).map SqueakDisplayEntry.squeakHash).count (hex squeakHash) = 1

variable {ilike defaultProfileImage}

/-- A message of a page is the entry of a squeak that matched the feed. -/
theorem listed_of_page {feed : Feed L} {cursor : FeedKey} {db : Db} (hdb : Listed L db)
    {items : List (SqueakEntry L × SqueakDisplayEntry)}
    (hitems : (feed.pager ilike defaultProfileImage).select limit cursor db = .ok items) :
    ∀ msg ∈ items.map Prod.snd, ∃ r ∈ db.squeaks, feed.Matches ilike db r ∧
      ∃ e, parseSqueakEntry L (joined db.profiles.rows r) = .ok e ∧ squeakEntryToMessage defaultProfileImage e =
        .ok msg := by
  intro msg hmsg
  obtain ⟨x, hx, rfl⟩ := List.mem_map.1 hmsg
  obtain ⟨hsent, row, hrow, hparse⟩ := mem_sendRows (Feed.select_ok hitems) hx
  obtain ⟨r, hr, hmatches, rfl⟩ := (Feed.mem_rows ilike hdb).1 (mem_selectPage hrow).1
  exact ⟨r, hr, hmatches, x.1, hparse, hsent⟩

theorem ShownPages.listed {feed : Feed L} {answers : List (Db × List SqueakDisplayEntry)}
    {pages : List (Db × List (SqueakEntry L))} {cursor : FeedKey}
    (h : ShownPages ilike defaultProfileImage feed answers pages cursor) :
    ∀ p ∈ answers, ∀ msg ∈ p.2, ∃ r ∈ p.1.squeaks, feed.Matches ilike p.1 r ∧
      ∃ e, parseSqueakEntry L (joined p.1.profiles.rows r) = .ok e ∧ squeakEntryToMessage defaultProfileImage e =
        .ok msg := by
  induction h with
  | cleared => exact fun p hp => by cases hp
  | @page answers pages cursor db items h hdb hitems ih =>
    intro p hp
    rcases List.mem_append.1 hp with hp | hp
    · exact ih p hp
    · rw [List.mem_singleton.1 hp]
      exact listed_of_page hdb hitems

theorem ShownPages.feedShown (hL : L.CodecLaws) (hH : L.HashLaw) {feed : Feed L}
    {answers : List (Db × List SqueakDisplayEntry)} {pages : List (Db × List (SqueakEntry L))} {cursor : FeedKey}
    (h : ShownPages ilike defaultProfileImage feed answers pages cursor) :
    FeedShown ilike defaultProfileImage feed answers := by
  have hlawful := Feed.lawful ilike defaultProfileImage hL hH feed
  obtain ⟨hpages, hlisted⟩ := h.toPages hL hH
  have hnodup : ∀ p ∈ keyPages SqueakEntry.key (feed.keys ilike) pages, p.1.Nodup := by
    intro p hp
    obtain ⟨q, hq, rfl⟩ := List.mem_map.1 hp
    exact (hlawful.distinct (hlisted q hq)).of_map
  have hreturned : returned (keyPages SqueakEntry.key (feed.keys ilike) pages) =
    (pages.flatMap Prod.snd).map SqueakEntry.key := by
    simp [returned, keyPages, List.flatMap_def, Function.comp_def, List.map_flatten]
  have hdescending := (hpages.read (by decide) hnodup).descending
  rw [hreturned] at hdescending
  have hmatched : ∀ p ∈ pages, ∀ e ∈ p.2, e.key ∈ feed.keys ilike p.1 := fun p hp e he =>
    hpages.mem (List.mem_map_of_mem (f := fun p => (feed.keys ilike p.1, p.2.map SqueakEntry.key)) hp)
      (List.mem_map_of_mem he)
  -- no squeak has two keys
  have hisKey : ∀ k ∈ (pages.flatMap Prod.snd).map SqueakEntry.key, Feed.IsKey L k := by
    intro k hk
    obtain ⟨e, he, rfl⟩ := List.mem_map.1 hk
    obtain ⟨p, hp, he⟩ := List.mem_flatMap.1 he
    exact Feed.isKey_of_mem_keys (hlisted p hp) (hmatched p hp e he)
  have hhashes : (((pages.flatMap Prod.snd).map SqueakEntry.key).map Feed.keyHash).Nodup :=
    (List.nodup_map_iff_inj_on hdescending.nodup).2 fun k hk k' hk' heq => (hisKey k hk).eq hH (hisKey k' hk') heq
  have hshown : (answers.flatMap Prod.snd).map SqueakDisplayEntry.squeakHash =
      (((pages.flatMap Prod.snd).map SqueakEntry.key).map Feed.keyHash).map hex := by
    rw [List.map_map, List.map_map]
    exact h.map_sent fun e msg hmsg => (squeakEntryToMessage_ok defaultProfileImage hmsg).1
  have honce : ((answers.flatMap Prod.snd).map SqueakDisplayEntry.squeakHash).Nodup := by
    rw [hshown]
    exact hhashes.map strictMono_hex.injective
  refine ⟨?_, honce, h.listed, fun hshort squeakHash hall => ?_⟩
  · have hkeys : (answers.flatMap Prod.snd).map displayKey =
      ((pages.flatMap Prod.snd).map SqueakEntry.key).map displayOf := by
      rw [List.map_map]
      exact h.map_sent fun e msg hmsg => displayKey_sent defaultProfileImage hmsg
    rw [hkeys, List.pairwise_map]
    exact hdescending.imp fun hgt => displayOf_lt hgt
  · have hhas : ∀ p ∈ pages, feed.Has ilike p.1 squeakHash := by
      intro p hp
      obtain ⟨answer, hanswer, hsent⟩ := (forall₂_mem h.sent).1 p hp
      rw [hsent.1]
      exact hall answer hanswer
    have hlast : (keyPages SqueakEntry.key (feed.keys ilike) pages).getLast?.any (fun p => decide (p.2.length < limit)) =
        true := by
      rw [keyPages, List.getLast?_map, Option.any_map]
      exact h.short.trans hshort
    obtain ⟨p₀, hp₀⟩ : ∃ p, p ∈ pages := by
      cases pages with
      | nil => simp [keyPages] at hlast
      | cons p pages => exact ⟨p, List.mem_cons_self⟩
    obtain ⟨k, hkhash, hlt, hkeys⟩ := Feed.key_of_has ilike hH hlisted hp₀ hhas
    have hin := hpages.complete (by decide) hnodup hlast hlt fun p hp => by
      obtain ⟨q, hq, rfl⟩ := List.mem_map.1 hp
      exact hkeys q hq
    rw [hreturned] at hin
    refine List.count_eq_one_of_mem honce ?_
    rw [hshown, ← hkhash]
    exact List.mem_map_of_mem (List.mem_map_of_mem hin)

/-! ## Runs -/

namespace Site

variable (L ilike defaultProfileImage) in
/-- Every list is the answers that were received for it, and these are pages of its feed. -/
structure Inv (history : List (Site × Event L)) (s : Site) : Prop where
  db : Listed L s.db
  tab : TabInv s.tab
  squeaks : ∀ n, (s.tab.store.list n).squeaks = (answers ilike defaultProfileImage n history).flatMap Prod.snd
  noFeed : ∀ n query, s.tab.query n = some query → ∀ err, query.feed L = .error err →
    answers ilike defaultProfileImage n history = []
  shows : ∀ n query, s.tab.query n = some query → ∀ feed, query.feed L = .ok feed → ∃ pages cursor,
    ShownPages ilike defaultProfileImage feed (answers ilike defaultProfileImage n history) pages cursor

/-- A step that is no answer. -/
theorem Inv.kept {history : List (Site × Event L)} {s s' : Site} {e : Event L}
    (hi : s.Inv L ilike defaultProfileImage history) (hdb : Listed L s'.db) (htab : TabInv s'.tab)
    {emptied : ListName → Bool} (hkeeps : ∀ n, Keeps s.tab s'.tab n (emptied n))
    (hanswers : ∀ n, answers ilike defaultProfileImage n (history ++ [(s, e)]) =
      if emptied n then [] else answers ilike defaultProfileImage n history) :
    s'.Inv L ilike defaultProfileImage (history ++ [(s, e)]) := by
  have hcases : ∀ n, (emptied n = true ∧ (s'.tab.store.list n).squeaks = [] ∧
        answers ilike defaultProfileImage n (history ++ [(s, e)]) = []) ∨
      (s'.tab.query n = s.tab.query n ∧ (s'.tab.store.list n).squeaks = (s.tab.store.list n).squeaks ∧
        answers ilike defaultProfileImage n (history ++ [(s, e)]) = answers ilike defaultProfileImage n history) := by
    intro n
    have hkeep := hkeeps n
    have hanswer := hanswers n
    unfold Keeps at hkeep
    split at hkeep
    · rename_i hemptied
      exact .inl ⟨hemptied, hkeep, by rw [hanswer, if_pos hemptied]⟩
    · rename_i hkept
      exact .inr ⟨hkeep.1, hkeep.2, by rw [hanswer, if_neg hkept]⟩
  refine ⟨hdb, htab, fun n => ?_, fun n query hquery => ?_, fun n query hquery => ?_⟩
  · obtain ⟨-, hempty, hnone⟩ | ⟨-, hsame, hkept⟩ := hcases n
    · rw [hempty, hnone]
      rfl
    · rw [hsame, hkept]
      exact hi.squeaks n
  · obtain ⟨-, -, hnone⟩ | ⟨hsame, -, hkept⟩ := hcases n
    · exact fun _ _ => hnone
    · rw [hkept]
      exact hi.noFeed n query (hsame ▸ hquery)
  · obtain ⟨-, -, hnone⟩ | ⟨hsame, -, hkept⟩ := hcases n
    · rw [hnone]
      exact fun feed _ => ⟨[], _, .cleared⟩
    · rw [hkept]
      exact hi.shows n query (hsame ▸ hquery)

theorem keeps_same {t t' : Tab} (hquery : t'.query = t.query) (hstore : t'.store = t.store) (n : ListName) :
    Keeps t t' n false := ⟨by rw [hquery], by rw [hstore]⟩

theorem answers_answered (ilike : Ilike) (defaultProfileImage : Bytes) (n : ListName)
    (history : List (Site × Event L)) (s : Site) (r : FeedRequest) :
    answers ilike defaultProfileImage n (history ++ [(s, .answered r)]) =
      match ((r.handle L ilike defaultProfileImage).run ⟨s.db, ()⟩).1 with
      | .ok entries => if r.query.list = n then answers ilike defaultProfileImage n history ++ [(s.db, entries)]
        else answers ilike defaultProfileImage n history
      | .error _ => answers ilike defaultProfileImage n history :=
  List.foldl_concat ..

theorem Inv.answered {history : List (Site × Event L)} {s s' : Site} {r : FeedRequest} (hL : L.CodecLaws)
    (hH : L.HashLaw) (hi : s.Inv L ilike defaultProfileImage history) (hfresh : r.outdated = false)
    (h : s.answered (L := L) ilike defaultProfileImage r = some s') :
    s'.Inv L ilike defaultProfileImage (history ++ [(s, .answered r)]) := by
  have hanswers := fun n => answers_answered ilike defaultProfileImage n history s r
  unfold Site.answered at h
  split at h
  rotate_left
  · cases h
  rename_i hcontains
  obtain ⟨hquery, -, hlast⟩ := hi.tab.lists.awaited r (List.contains_iff_mem.1 hcontains) hfresh
  split at h
  · rename_i entries hanswer
    cases h
    obtain ⟨feed, hfeed, hpage⟩ := answer_of_handle hanswer
    obtain ⟨pages, cursor, hpages⟩ := hi.shows _ _ hquery feed hfeed
    obtain ⟨c, hc, hpage⟩ := ok_of_bind hpage
    obtain ⟨items, hitems, hentries⟩ := ok_of_bind hpage
    cases hentries
    -- the request asks for what comes after the list
    rw [hi.squeaks] at hlast
    rw [hlast, hpages.cursor_eq hL] at hc
    cases hc
    obtain ⟨hdesc, hbelow, hlimit⟩ := hpages.next hL hH hi.db hitems
    have hnext : (pageServer (items.map Prod.snd) hdesc).nextPage r.query r.lastSqueak = items.map Prod.snd :=
      nextPage_pageServer hdesc (fun msg hmsg last hl => hbelow msg hmsg last (hlast ▸ hl)) hlimit r.query
    have hstep : FeedPages.step (.fulfilled r (pageServer (items.map Prod.snd) hdesc)) s.tab = some { s.tab with
        store := listFulfilled r.query.list (items.map Prod.snd) s.tab.store
        inFlight := s.tab.inFlight.erase r } := by
      simp only [FeedPages.step, hcontains, if_true, hnext]
    have htab := tabInv_step hi.tab ⟨fun r' server heq => (by cases heq; exact hfresh), fun heq => (by cases heq),
      fun heq => (by cases heq)⟩ hstep
    simp only [hanswer] at hanswers
    refine ⟨hi.db, htab, fun n => ?_, fun n query hn err herr => ?_, fun n query hn feed' hfeed' => ?_⟩
    · show ((listFulfilled r.query.list (items.map Prod.snd) s.tab.store).list n).squeaks = _
      rw [hanswers, listFulfilled, list_modifyList]
      by_cases hsame : n = r.query.list
      · rw [if_pos hsame, if_pos hsame.symm, List.flatMap_append, List.flatMap_singleton, ← hi.squeaks n]
      · rw [if_neg hsame, if_neg fun heq => hsame heq.symm]
        exact hi.squeaks n
    · have hn : s.tab.query n = some query := hn
      by_cases hsame : r.query.list = n
      · subst hsame
        rw [hquery] at hn
        cases hn
        cases hfeed.symm.trans herr
      · rw [hanswers, if_neg hsame]
        exact hi.noFeed n query hn err herr
    · have hn : s.tab.query n = some query := hn
      rw [hanswers]
      by_cases hsame : r.query.list = n
      · subst hsame
        rw [hquery] at hn
        cases hn
        obtain rfl : feed = feed' := Except.ok.inj (hfeed.symm.trans hfeed')
        rw [if_pos rfl]
        exact ⟨_, _, hpages.page hi.db hitems⟩
      · rw [if_neg hsame]
        exact hi.shows n query hn feed' hfeed'
  · rename_i err hanswer
    cases h
    simp only [hanswer] at hanswers
    exact hi.kept hi.db ⟨listsInv_erase hi.tab.lists r, hi.tab.page⟩ (keeps_same rfl rfl) hanswers

theorem Inv.step {history : List (Site × Event L)} {s s' : Site} {e : Event L} (hL : L.CodecLaws) (hH : L.HashLaw)
    (hi : s.Inv L ilike defaultProfileImage history) (horderly : s.Orderly e)
    (h : Site.step ilike defaultProfileImage e s = some s') :
    s'.Inv L ilike defaultProfileImage (history ++ [(s, e)]) := by
  cases e with
  | act a =>
    have hact : (∀ r server, a ≠ .fulfilled r server) ∧
      (FeedPages.step a s.tab).map (fun tab => { s with tab := tab }) = some s' := by
      cases a with
      | fulfilled r server => cases h
      | _ => exact ⟨fun _ _ heq => (by cases heq), h⟩
    obtain ⟨tab, hstep, heq⟩ := Option.map_eq_some_iff.1 hact.2
    cases heq
    exact hi.kept hi.db (tabInv_step hi.tab horderly hstep) (keeps_of_step hact.1 horderly hstep) fun n =>
      List.foldl_concat ..
  | answered r => exact hi.answered hL hH horderly h
  | commit st =>
    cases h
    exact hi.kept (listed_commit st hi.db) hi.tab (keeps_same rfl rfl) fun n => List.foldl_concat ..

end Site

/-- In a run whose steps are orderly, whatever the node writes in between, every list is the answers that were received
for it since it was last emptied, and these show the feed of its query. -/
theorem feeds_shown (hL : L.CodecLaws) (hH : L.HashLaw) (ilike : Ilike)
    (defaultProfileImage : Bytes) {db : Db} (hdb : Listed L db) {history : List (Site × Event L)} {s : Site}
    (hr : Machine.Run (Site.step ilike defaultProfileImage) (.start db) history s)
    (horderly : ∀ x ∈ history, x.1.Orderly x.2) (n : ListName) :
    (s.tab.store.list n).squeaks = (Site.answers ilike defaultProfileImage n history).flatMap Prod.snd ∧
    ∀ query, s.tab.query n = some query →
      (∀ err, query.feed L = .error err → Site.answers ilike defaultProfileImage n history = []) ∧
      ∀ feed, query.feed L = .ok feed →
        FeedShown ilike defaultProfileImage feed (Site.answers ilike defaultProfileImage n history) := by
  have hinv : s.Inv L ilike defaultProfileImage history := by
    induction hr with
    | init =>
      exact ⟨hdb, tabInv_start, fun n => (by cases n <;> rfl), fun n query hn => (by cases hn),
        fun n query hn => (by cases hn)⟩
    | @next history s s' a hr ha ih =>
      have hbefore := ih fun x hx => horderly x (List.mem_append_left _ hx)
      exact hbefore.step hL hH (horderly (s, a) (List.mem_append_right _ List.mem_cons_self)) ha
  refine ⟨hinv.squeaks n, fun query hquery => ⟨hinv.noFeed n query hquery, fun feed hfeed => ?_⟩⟩
  obtain ⟨pages, cursor, hpages⟩ := hinv.shows n query hquery feed hfeed
  exact hpages.feedShown hL hH

namespace Sample

/-- A squeak is downloaded and found, and a newer one comes while the page is shown. -/
def browsing : List (Event Sample.squeaklib) :=
  [.commit (.insertSqueak 1000 Sample.squeak ⟨4200⟩), .commit (.setSqueakDecryptedContent Sample.squeak.val.reverse "Ada"),
    .act (.visit (.search "a")), .answered ⟨.search "a", none, false⟩,
    .commit (.insertSqueak 2000 Sample.newerSqueak ⟨4800⟩)]

end Sample

theorem feeds_shown_sample : ∃ (history : List (Site × Event Sample.squeaklib)) (s : Site),
    Machine.Run (Site.step Sample.ilike []) (.start .empty) history s ∧
    s.db.squeaks.length = 2 ∧
    s.tab.store.searchSqueaks.squeaks.map SqueakDisplayEntry.squeakHash = [hex Sample.squeak.val.reverse] ∧
    s.tab.store.searchSqueaks.squeaks = (Site.answers Sample.ilike [] .search history).flatMap Prod.snd ∧
    FeedShown Sample.ilike [] (.textSearch "a" : Feed Sample.squeaklib) (Site.answers Sample.ilike [] .search history) := by
  have hexec : (Machine.exec (Site.step Sample.ilike []) Sample.browsing (.start .empty)).map (fun r =>
      (r.2.db.squeaks.length, r.2.tab.store.searchSqueaks.squeaks.map SqueakDisplayEntry.squeakHash,
        r.2.tab.query .search)) =
      some (2, [hex Sample.squeak.val.reverse], some (.search "a")) := by decide +kernel
  obtain ⟨⟨history, s⟩, hrun, hstate⟩ := Option.map_eq_some_iff.1 hexec
  obtain ⟨hlength, hhashes, hquery⟩ : s.db.squeaks.length = 2 ∧ s.tab.store.searchSqueaks.squeaks.map _ = _ ∧
      s.tab.query .search = some (.search "a") := by
    simpa only [Prod.mk.injEq] using hstate
  have hr := Machine.run_exec hrun
  have hactions := Machine.actions_exec hrun
  have horderly : ∀ x ∈ history, x.1.Orderly x.2 := by
    intro x hx
    have hmem : x.2 ∈ Sample.browsing := hactions ▸ List.mem_map_of_mem hx
    simp only [Sample.browsing, List.mem_cons, List.not_mem_nil, or_false] at hmem
    obtain ⟨t, e⟩ := x
    rcases hmem with rfl | rfl | rfl | rfl | rfl
    · trivial
    · trivial
    · exact ⟨fun r server heq => (by cases heq), fun heq => (by cases heq), fun heq => (by simp at heq)⟩
    · rfl
    · trivial
  obtain ⟨hsqueaks, hshown⟩ :=
    feeds_shown Sample.codecLaws Sample.hashLaw Sample.ilike [] (listed_empty _) hr horderly .search
  exact ⟨history, s, hr, hlength, hhashes, hsqueaks, (hshown _ hquery).2 (.textSearch "a") rfl⟩

end FeedPages

end Squeaknode
