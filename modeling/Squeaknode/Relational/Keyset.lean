/-
Keyset pagination: the rows of a table below a cursor, in descending order of a key, at most
`limit` of them; the next page is asked for with the key of the last row as cursor. The table may
change between two pages, so that a traversal is a sequence of pages of different tables.

What the pages of a traversal have in common is a matter of their keys alone (`Pages`). A `Pager`
is a pair of a cursor and a query as a server offers them, a `Traversal` a client that walks
through its pages while the store changes.
-/
import Squeaknode.Interleave.Machine
import Squeaknode.Relational.Table
import Mathlib.Data.List.Sort
import Mathlib.Order.Lattice

namespace Relational

open Interleave

/-! ## One page -/

section Page

variable {α κ : Type} [LinearOrder κ]

/-- ORDER BY key DESC. -/
def orderByDesc (key : α → κ) (rows : List α) : List α := rows.insertionSort fun a b => key b ≤ key a

/-- SELECT … WHERE key < cursor ORDER BY key DESC LIMIT limit. -/
def selectPage (key : α → κ) (limit : Nat) (cursor : κ) (rows : List α) : List α :=
  ((rows.filter fun r => decide (key r < cursor)).insertionSort fun a b => key b ≤ key a).take limit

variable {key : α → κ} {limit : Nat} {cursor : κ} {rows : List α}

theorem pairwise_orderByDesc : (orderByDesc key rows).Pairwise fun a b => key b ≤ key a := by
  have htotal : Std.Total fun a b : α => key b ≤ key a := ⟨fun a b => le_total (key b) (key a)⟩
  have htrans : IsTrans α fun a b => key b ≤ key a := ⟨fun _ _ _ hab hbc => le_trans hbc hab⟩
  exact List.pairwise_insertionSort _ _

theorem perm_orderByDesc : (orderByDesc key rows).Perm rows := List.perm_insertionSort _ _

/-- Rows with different keys are ordered in one way only. -/
theorem orderByDesc_eq {ordered : List α} (hperm : ordered.Perm rows)
    (hdesc : ordered.Pairwise fun a b => key b < key a) :
    orderByDesc key rows = ordered := by
  have hrows : (orderByDesc key rows).Perm ordered := perm_orderByDesc.trans hperm.symm
  have hkeys : (ordered.map key).Nodup := List.pairwise_map.2 (hdesc.imp fun hlt => hlt.ne')
  refine List.Perm.eq_of_pairwise (fun a b ha hb hba hab => ?_) pairwise_orderByDesc (hdesc.imp le_of_lt) hrows
  exact List.inj_on_of_nodup_map hkeys (hrows.mem_iff.1 ha) hb (le_antisymm hab hba)

theorem descending_orderByDesc (h : (rows.map key).Nodup) :
    (orderByDesc key rows).Pairwise fun a b => key b < key a := by
  have hnodup : ((orderByDesc key rows).map key).Nodup := ((perm_orderByDesc.map key).nodup_iff).2 h
  refine (pairwise_orderByDesc.and (List.pairwise_map.1 hnodup)).imp ?_
  rintro a b ⟨hle, hne⟩
  exact lt_of_le_of_ne hle (Ne.symm hne)

theorem selectPage_eq_take :
    selectPage key limit cursor rows =
      (orderByDesc key (rows.filter fun r => decide (key r < cursor))).take limit := rfl

theorem map_selectPage : (selectPage key limit cursor rows).map key = selectPage id limit cursor (rows.map key) := by
  unfold selectPage
  rw [List.map_take, List.map_insertionSort _ (fun a b => b ≤ a) key _ fun _ _ _ _ => Iff.rfl, List.filter_map]
  rfl

theorem mem_selectPage {r : α} (h : r ∈ selectPage key limit cursor rows) : r ∈ rows ∧ key r < cursor := by
  have hmem := (List.perm_insertionSort _ _).mem_iff.1 (List.mem_of_mem_take h)
  simpa using hmem

/-- A page is sorted, so that a row below the cursor that is not on it comes after all its rows. -/
theorem pairwise_selectPage : (selectPage key limit cursor rows).Pairwise fun a b => key b ≤ key a :=
  pairwise_orderByDesc.sublist (List.take_sublist _ _)

theorem selectPage_rest {r : α} (hr : r ∈ rows) (hlt : key r < cursor) (hout : r ∉ selectPage key limit cursor rows) :
    (selectPage key limit cursor rows).length = limit ∧ ∀ s ∈ selectPage key limit cursor rows, key r ≤ key s := by
  rw [selectPage_eq_take] at hout ⊢
  generalize hl : orderByDesc key (rows.filter fun r => decide (key r < cursor)) = l at hout ⊢
  have hsorted : l.Pairwise fun a b => key b ≤ key a := hl ▸ pairwise_orderByDesc
  have hmem : r ∈ l := by
    rw [← hl, perm_orderByDesc.mem_iff]
    simpa using ⟨hr, hlt⟩
  have hrest : r ∈ l.drop limit := by
    rw [← List.take_append_drop limit l] at hmem
    exact (List.mem_append.1 hmem).resolve_left hout
  constructor
  · have hpos := List.length_pos_of_mem hrest
    rw [List.length_drop] at hpos
    rw [List.length_take]
    omega
  · intro s hs
    rw [← List.take_append_drop limit l, List.pairwise_append] at hsorted
    exact hsorted.2.2 s hs r hrest

end Page

/-! ## Pages of a changing table -/

section Pages

variable {κ : Type} [LinearOrder κ]

/-- The cursor after a page: its last key, and the same cursor after an empty page. -/
def cursorAfter (cursor : κ) (page : List κ) : κ := page.getLast?.getD cursor

/-- The keys of pages that were read one after the other, each with the keys of the table it was
read from, and the cursor after them. -/
inductive Pages (limit : Nat) (top : κ) : List (List κ × List κ) → κ → Prop
  | init : Pages limit top [] top
  | next {pages : List (List κ × List κ)} {cursor : κ} (keys : List κ) : Pages limit top pages cursor →
      Pages limit top (pages ++ [(keys, selectPage id limit cursor keys)])
        (cursorAfter cursor (selectPage id limit cursor keys))

/-- All keys that were returned, in order. -/
def returned (pages : List (List κ × List κ)) : List κ := (pages.map Prod.snd).flatten

omit [LinearOrder κ] in
@[simp] theorem returned_append (pages : List (List κ × List κ)) (keys page : List κ) :
    returned (pages ++ [(keys, page)]) = returned pages ++ page := by
  simp [returned]

theorem cursorAfter_le {cursor : κ} {page : List κ} (hsorted : page.Pairwise (· > ·)) (hlt : ∀ k ∈ page, k < cursor) :
    cursorAfter cursor page ≤ cursor ∧ ∀ k ∈ page, cursorAfter cursor page ≤ k := by
  unfold cursorAfter
  rcases List.eq_nil_or_concat page with rfl | ⟨init, last, rfl⟩
  · exact ⟨le_rfl, fun k hk => by cases hk⟩
  · rw [List.concat_eq_append] at hsorted hlt ⊢
    rw [List.getLast?_append, List.getLast?_singleton]
    refine ⟨(hlt last (by simp)).le, fun k hk => ?_⟩
    rcases List.mem_append.1 hk with hk | hk
    · exact ((List.pairwise_append.1 hsorted).2.2 k hk last (by simp)).le
    · rw [List.mem_singleton.1 hk]
      exact le_rfl

theorem page_descending (limit : Nat) (cursor : κ) {keys : List κ} (h : keys.Nodup) :
    (selectPage id limit cursor keys).Pairwise (· > ·) := by
  have hnodup : (selectPage id limit cursor keys).Nodup :=
    (((List.perm_insertionSort _ _).nodup_iff).2 (h.filter _)).sublist (List.take_sublist _ _)
  refine (pairwise_selectPage.and hnodup).imp ?_
  rintro a b ⟨hle, hne⟩
  exact lt_of_le_of_ne hle (Ne.symm hne)

/-- A key that a page left out although it is below the cursor is below the next cursor too. -/
theorem lt_cursorAfter {limit : Nat} (hlimit : 0 < limit) {cursor k : κ} {keys : List κ} (hmem : k ∈ keys)
    (hlt : k < cursor) (hout : k ∉ selectPage id limit cursor keys) :
    k < cursorAfter cursor (selectPage id limit cursor keys) := by
  obtain ⟨hfull, habove⟩ := selectPage_rest hmem hlt hout
  generalize selectPage id limit cursor keys = page at hfull habove hout
  unfold cursorAfter
  rcases List.eq_nil_or_concat page with rfl | ⟨init, last, rfl⟩
  · rw [List.length_nil] at hfull
    omega
  · rw [List.concat_eq_append] at habove hout ⊢
    rw [List.getLast?_append, List.getLast?_singleton]
    refine lt_of_le_of_ne (habove last (by simp)) ?_
    rintro rfl
    exact hout (by simp)

/-- What is known of the pages read so far. -/
structure Read (top cursor : κ) (pages : List (List κ × List κ)) : Prop where
  descending : (returned pages).Pairwise (· > ·)
  cursor_le : cursor ≤ top
  between : ∀ k ∈ returned pages, cursor ≤ k ∧ k < top
  rest : ∀ k < top, (∀ p ∈ pages, k ∈ p.1) → k ∈ returned pages ∨ k < cursor

variable {limit : Nat} {top cursor : κ} {pages : List (List κ × List κ)}

theorem Pages.read (hlimit : 0 < limit) (h : Pages limit top pages cursor) (hnodup : ∀ p ∈ pages, p.1.Nodup) :
    Read top cursor pages := by
  induction h with
  | init => exact ⟨List.Pairwise.nil, le_rfl, fun k hk => (by cases hk), fun k hk _ => .inr hk⟩
  | @next pages cursor keys h ih =>
    have hbefore := ih fun p hp => hnodup p (List.mem_append_left _ hp)
    have hkeys : keys.Nodup := hnodup (keys, _) (List.mem_append_right _ List.mem_cons_self)
    have hpage := page_descending limit cursor hkeys
    have hbelow : ∀ k ∈ selectPage id limit cursor keys, k < cursor := fun k hk => (mem_selectPage hk).2
    obtain ⟨hle, hlast⟩ := cursorAfter_le hpage hbelow
    refine ⟨?_, hle.trans hbefore.cursor_le, ?_, ?_⟩
    · rw [returned_append, List.pairwise_append]
      exact ⟨hbefore.descending, hpage, fun a ha b hb => lt_of_lt_of_le (hbelow b hb) (hbefore.between a ha).1⟩
    · intro k hk
      rw [returned_append] at hk
      rcases List.mem_append.1 hk with hk | hk
      · exact ⟨hle.trans (hbefore.between k hk).1, (hbefore.between k hk).2⟩
      · exact ⟨hlast k hk, lt_of_lt_of_le (hbelow k hk) hbefore.cursor_le⟩
    · intro k hk hall
      rw [returned_append, List.mem_append]
      rcases hbefore.rest k hk fun p hp => hall p (List.mem_append_left _ hp) with hin | hlt
      · exact .inl (.inl hin)
      · by_cases hin : k ∈ selectPage id limit cursor keys
        · exact .inl (.inr hin)
        · have hmem : k ∈ keys := hall (keys, _) (List.mem_append_right _ List.mem_cons_self)
          exact .inr (lt_cursorAfter hlimit hmem hlt hin)

theorem Pages.mem (h : Pages limit top pages cursor) {p : List κ × List κ} (hp : p ∈ pages) {k : κ} (hk : k ∈ p.2) :
    k ∈ p.1 := by
  induction h with
  | init => cases hp
  | next keys _ ih =>
    rcases List.mem_append.1 hp with hp | hp
    · exact ih hp
    · rw [List.mem_singleton.1 hp] at hk ⊢
      exact (mem_selectPage hk).1

/-- When the last page is short, a key that every table had was returned. -/
theorem Pages.complete (hlimit : 0 < limit) (h : Pages limit top pages cursor) (hnodup : ∀ p ∈ pages, p.1.Nodup)
    (hshort : pages.getLast?.any fun p => decide (p.2.length < limit)) {k : κ} (hk : k < top)
    (hall : ∀ p ∈ pages, k ∈ p.1) : k ∈ returned pages := by
  cases h with
  | init => simp at hshort
  | @next pages cursor keys h =>
    have hbefore := h.read hlimit fun p hp => hnodup p (List.mem_append_left _ hp)
    rw [returned_append, List.mem_append]
    rcases hbefore.rest k hk fun p hp => hall p (List.mem_append_left _ hp) with hin | hlt
    · exact .inl hin
    · by_contra hout
      push Not at hout
      have hmem : k ∈ keys := hall (keys, _) (List.mem_append_right _ List.mem_cons_self)
      have hfull := (selectPage_rest hmem hlt hout.2).1
      simp [hfull] at hshort

end Pages

/-! ## Walking through the pages of a changing store -/

/-- What a server offers: the key below which the answer to a request starts, computed from the
message that the client passes (none for the first page), and the page itself, each item with the
message that is sent for it. `mark` notes in the store that a page was read. -/
structure Pager (δ ι μ κ ε : Type) where
  cursor : Option μ → δ → Except ε κ
  select : (limit : Nat) → κ → δ → Except ε (List (ι × μ))
  mark : δ → δ

/-- The reply to a request that nobody interrupts. -/
def Pager.answer {δ ι μ κ ε : Type} (P : Pager δ ι μ κ ε) (limit : Nat) (last : Option μ) (d : δ) :
    Except ε (List μ) := do
  let c ← P.cursor last d
  let items ← P.select limit c d
  return items.map Prod.snd

/-- A client that walks through the pages, and the store. -/
structure Traversal (δ ι μ κ : Type) where
  store : δ
  /-- the cursor of the request that is being answered -/
  asked : Option κ
  /-- the last message received -/
  last : Option μ
  /-- the pages received, each with the store it was read from -/
  pages : List (δ × List ι)
  /-- the store and the cursor at the first request -/
  began : Option (δ × κ)

variable {δ ι μ κ ε α η : Type}

namespace Traversal

/-- A traversal before its first request. -/
def start (d : δ) : Traversal δ ι μ κ := ⟨d, none, none, [], none⟩

/-- A page with fewer than `limit` items is the last one. -/
def finished (limit : Nat) (t : Traversal δ ι μ κ) : Bool := t.pages.getLast?.any fun p => decide (p.2.length < limit)

/-- What happens in a traversal next. -/
inductive Act (α : Type) where
  /-- somebody changes the store -/
  | change (a : α)
  /-- the server receives the request for the next page and computes its cursor -/
  | request
  /-- the server reads the page and sends it -/
  | answer

/-- The server has computed the cursor of the next page. -/
def ask (c : κ) (t : Traversal δ ι μ κ) : Traversal δ ι μ κ :=
  { t with asked := some c, began := t.began.or (some (t.store, c)) }

/-- The client appends the page that was sent. -/
def receive (mark : δ → δ) (items : List (ι × μ)) (t : Traversal δ ι μ κ) : Traversal δ ι μ κ :=
  { t with
    store := mark t.store
    asked := none
    last := (items.getLast?.map Prod.snd).or t.last
    pages := t.pages ++ [(t.store, items.map Prod.fst)] }

/-- What an action does, if it can happen. -/
def step (apply : α → δ → Option δ) (P : Pager δ ι μ κ ε) (limit : Nat) :
    Act α → Traversal δ ι μ κ → Option (Traversal δ ι μ κ)
  | .change a, t => (apply a t.store).map fun d => { t with store := d }
  | .request, t => match t.asked, t.finished limit, P.cursor t.last t.store with
    | none, false, .ok c => some (t.ask c)
    | _, _, _ => none
  | .answer, t => match t.asked with
    | none => none
    | some c => match P.select limit c t.store with
      | .error _ => none
      | .ok items => some (t.receive P.mark items)

/-- The keys of all items received, in order. -/
def received (key : ι → κ) (t : Traversal δ ι μ κ) : List κ := t.pages.flatMap fun p => p.2.map key

@[simp] theorem received_receive (key : ι → κ) (mark : δ → δ) (items : List (ι × μ)) (t : Traversal δ ι μ κ) :
    (t.receive mark items).received key = t.received key ++ items.map fun x => key x.1 := by
  simp [receive, received, Function.comp_def]

theorem finished_receive (limit : Nat) (mark : δ → δ) (items : List (ι × μ)) (t : Traversal δ ι μ κ) :
    (t.receive mark items).finished limit = decide (items.length < limit) := by
  simp [receive, finished]

variable [LinearOrder κ]

/-- Nothing is lost and nothing repeated: the keys descend, no item comes twice, every item matched
when its page was read, and when the last page is there every key below the first cursor that
matched in every page's store was received. -/
structure Exact (limit : Nat) (key : ι → κ) (keys : δ → List κ) (ident : κ → η) (t : Traversal δ ι μ κ) : Prop where
  descending : (t.received key).Pairwise (· > ·)
  once : ((t.received key).map ident).Nodup
  matched : ∀ p ∈ t.pages, ∀ x ∈ p.2, key x ∈ keys p.1
  complete : t.finished limit = true → ∀ d top, t.began = some (d, top) → ∀ k < top,
    (∀ p ∈ t.pages, k ∈ keys p.1) → k ∈ t.received key

end Traversal

/-! ## Lawful pagers -/

/-- What makes a traversal exact. `keys` are the keys of the items that match in a store; the page
is the page of these keys, and the cursor computed from a message is the key of its item. `ident`
tells items apart, whatever their key. The keys of a store are `old` once a page of it was read, and
a key that appears is not below an old key of the same item. -/
structure Pager.Lawful [LinearOrder κ] (P : Pager δ ι μ κ ε) (apply : α → δ → Option δ) (inv : δ → Prop) (key : ι → κ)
    (keys : δ → List κ) (ident : κ → η) (old : δ → κ → Prop) : Prop where
  keeps : ∀ {a d d'}, inv d → apply a d = some d' → inv d'
  distinct : ∀ {d}, inv d → ((keys d).map ident).Nodup
  page : ∀ {limit c d items}, inv d → P.select limit c d = .ok items →
    (items.map fun x => key x.1) = selectPage id limit c (keys d)
  cursor : ∀ {limit c d items x d' c'}, inv d → P.select limit c d = .ok items → x ∈ items →
    P.cursor (some x.2) d' = .ok c' → c' = key x.1
  mark_inv : ∀ {d}, inv d → inv (P.mark d)
  mark_keys : ∀ d, keys (P.mark d) = keys d
  mark_old : ∀ {d k}, inv d → k ∈ keys d ∨ old d k → old (P.mark d) k
  old_change : ∀ {a d d' k}, inv d → apply a d = some d' → old d k → old d' k
  fresh : ∀ {a d d' k k'}, inv d → apply a d = some d' → old d k → k' ∈ keys d' → k' ∉ keys d →
    ident k = ident k' → k ≤ k'

section Lawful

variable [LinearOrder κ] {P : Pager δ ι μ κ ε} {apply : α → δ → Option δ} {inv : δ → Prop} {key : ι → κ}
  {keys : δ → List κ} {ident : κ → η} {old : δ → κ → Prop} {limit : Nat}

/-- The keys of the pages, each with the keys of its store. -/
def keyPages (key : ι → κ) (keys : δ → List κ) (pages : List (δ × List ι)) : List (List κ × List κ) :=
  pages.map fun p => (keys p.1, p.2.map key)

omit [LinearOrder κ] in
theorem returned_keyPages (t : Traversal δ ι μ κ) : returned (keyPages key keys t.pages) = t.received key := by
  simp [returned, keyPages, Traversal.received, List.flatMap_def, Function.comp_def]

variable (P inv key keys ident old limit) in
/-- The invariant of a traversal; `cursor` is the cursor after the pages received. -/
structure Walk (t : Traversal δ ι μ κ) : Prop where
  store : inv t.store
  stores : ∀ p ∈ t.pages, inv p.1
  fresh : t.began = none → t.pages = [] ∧ t.asked = none ∧ t.last = none
  began : ∀ d top, t.began = some (d, top) → inv d ∧ P.cursor none d = .ok top ∧ (t.pages = [] → t.asked.isSome) ∧
    ∃ cursor, Pages limit top (keyPages key keys t.pages) cursor ∧ (∀ c, t.asked = some c → c = cursor) ∧
      (t.finished limit = false → t.pages ≠ [] → ∃ c d' items x, inv d' ∧ P.select limit c d' = .ok items ∧
        x ∈ items ∧ t.last = some x.2 ∧ key x.1 = cursor)
  old : ∀ k ∈ t.received key, old t.store k
  least : ∀ k ∈ t.received key, ∀ k' ∈ keys t.store, ident k = ident k' → k ≤ k'
  once : ((t.received key).map ident).Nodup

theorem walk_start (d : δ) (hd : inv d) : Walk P inv key keys ident old limit (.start d) where
  store := hd
  stores p hp := by cases hp
  fresh _ := ⟨rfl, rfl, rfl⟩
  began d top h := by cases h
  old k hk := by cases hk
  least k hk := by cases hk
  once := List.nodup_nil

variable (hP : P.Lawful apply inv key keys ident old) (hlimit : 0 < limit)

include hP

theorem Walk.nodup {t : Traversal δ ι μ κ} (h : Walk P inv key keys ident old limit t) :
    ∀ p ∈ keyPages key keys t.pages, p.1.Nodup := by
  intro p hp
  obtain ⟨q, hq, rfl⟩ := List.mem_map.1 hp
  exact (hP.distinct (h.stores q hq)).of_map

theorem walk_change {t : Traversal δ ι μ κ} (h : Walk P inv key keys ident old limit t) {a : α} {d : δ}
    (ha : apply a t.store = some d) : Walk P inv key keys ident old limit { t with store := d } where
  store := hP.keeps h.store ha
  stores := h.stores
  fresh := h.fresh
  began := h.began
  old k hk := hP.old_change h.store ha (h.old k hk)
  least k hk k' hk' heq := by
    by_cases hbefore : k' ∈ keys t.store
    · exact h.least k hk k' hbefore heq
    · exact hP.fresh h.store ha (h.old k hk) hk' hbefore heq
  once := h.once

theorem walk_request {t : Traversal δ ι μ κ} (h : Walk P inv key keys ident old limit t) (hasked : t.asked = none)
    (hfinished : t.finished limit = false) {c : κ} (hc : P.cursor t.last t.store = .ok c) :
    Walk P inv key keys ident old limit (t.ask c) where
  store := h.store
  stores := h.stores
  fresh hnone := by
    change t.began.or (some (t.store, c)) = none at hnone
    cases hb : t.began <;> simp [hb] at hnone
  began := by
    intro d top hbegan
    change t.began.or (some (t.store, c)) = some (d, top) at hbegan
    cases hb : t.began with
    | none =>
      obtain ⟨hpages, -, hlast⟩ := h.fresh hb
      simp only [hb, Option.none_or, Option.some.injEq, Prod.mk.injEq] at hbegan
      obtain ⟨rfl, rfl⟩ := hbegan
      rw [hlast] at hc
      refine ⟨h.store, hc, fun _ => rfl, c, ?_, fun c' hc' => ?_, fun _ hne => absurd hpages hne⟩
      · show Pages limit c (keyPages key keys t.pages) c
        rw [hpages]
        exact .init
      · cases hc'
        rfl
    | some began =>
      simp only [hb, Option.some_or, Option.some.injEq] at hbegan
      subst hbegan
      obtain ⟨hd, htop, hsome, cursor, hpages, -, hlast⟩ := h.began d top hb
      refine ⟨hd, htop, fun _ => rfl, cursor, hpages, fun c' hc' => ?_, hlast⟩
      cases hc'
      have hne : t.pages ≠ [] := fun hnil => by simp [hasked] at hsome; exact hsome hnil
      obtain ⟨_, d', items, x, hd', hitems, hx, hmsg, hkey⟩ := hlast hfinished hne
      rw [hmsg] at hc
      rw [← hkey]
      exact hP.cursor hd' hitems hx hc
  old := h.old
  least := h.least
  once := h.once

include hlimit

theorem walk_answer {t : Traversal δ ι μ κ} (h : Walk P inv key keys ident old limit t) {c : κ}
    (hasked : t.asked = some c) {items : List (ι × μ)} (hitems : P.select limit c t.store = .ok items) :
    Walk P inv key keys ident old limit (t.receive P.mark items) := by
  have hpage := hP.page h.store hitems
  have hkeys : (keys t.store).Nodup := (hP.distinct h.store).of_map
  have hmem : ∀ k ∈ items.map (fun x => key x.1), k ∈ keys t.store := by
    rw [hpage]
    exact fun k hk => (mem_selectPage hk).1
  cases hb : t.began with
  | none =>
    have hnone := (h.fresh hb).2.1
    rw [hnone] at hasked
    cases hasked
  | some began =>
    obtain ⟨hd, htop, -, cursor, hpages, hcursor, -⟩ := h.began began.1 began.2 hb
    cases hcursor c hasked
    have hpages' : Pages limit began.2 (keyPages key keys (t.receive P.mark items).pages)
      (cursorAfter c (items.map fun x => key x.1)) := by
      have hnext := hpages.next (keys t.store)
      rw [← hpage] at hnext
      simpa [keyPages, Traversal.receive, Function.comp_def] using hnext
    have hnodup : ∀ p ∈ keyPages key keys (t.receive P.mark items).pages, p.1.Nodup := by
      intro p hp
      obtain ⟨q, hq, rfl⟩ := List.mem_map.1 hp
      rcases List.mem_append.1 hq with hq | hq
      · exact (hP.distinct (h.stores q hq)).of_map
      · rw [List.mem_singleton.1 hq]
        exact hkeys
    have hdescending := (hpages'.read hlimit hnodup).descending
    rw [returned_keyPages, Traversal.received_receive, List.pairwise_append] at hdescending
    refine ⟨hP.mark_inv h.store, ?_, fun hnone => ?_, ?_, ?_, ?_, ?_⟩
    · intro p hp
      rcases List.mem_append.1 hp with hp | hp
      · exact h.stores p hp
      · rw [List.mem_singleton.1 hp]
        exact h.store
    · change t.began = none at hnone
      rw [hb] at hnone
      cases hnone
    · intro d top hbegan
      change t.began = _ at hbegan
      rw [hb] at hbegan
      cases hbegan
      refine ⟨hd, htop, fun hnil => (by simp [Traversal.receive] at hnil), _, hpages',
        fun c' hc' => (by cases hc'), ?_⟩
      intro hfinished _
      rw [Traversal.finished_receive, decide_eq_false_iff_not] at hfinished
      -- the page is full, so that its last item is there and carries the cursor
      rcases List.eq_nil_or_concat items with rfl | ⟨init, x, rfl⟩
      · simp at hfinished
        omega
      · rw [List.concat_eq_append] at hitems ⊢
        refine ⟨c, t.store, _, x, h.store, hitems, by simp, ?_, ?_⟩
        · simp [Traversal.receive]
        · simp [cursorAfter]
    · intro k hk
      rw [Traversal.received_receive] at hk
      rcases List.mem_append.1 hk with hk | hk
      · exact hP.mark_old h.store (.inr (h.old k hk))
      · exact hP.mark_old h.store (.inl (hmem k hk))
    · intro k hk k' hk' heq
      rw [Traversal.received_receive] at hk
      change k' ∈ keys (P.mark t.store) at hk'
      rw [hP.mark_keys] at hk'
      rcases List.mem_append.1 hk with hk | hk
      · exact h.least k hk k' hk' heq
      · rw [List.inj_on_of_nodup_map (hP.distinct h.store) (hmem k hk) hk' heq]
    · rw [Traversal.received_receive, List.map_append, List.nodup_append]
      refine ⟨h.once, ?_, ?_⟩
      · exact (List.nodup_map_iff_inj_on hdescending.2.1.nodup).2 fun a ha b hb heq =>
          List.inj_on_of_nodup_map (hP.distinct h.store) (hmem a ha) (hmem b hb) heq
      · rintro _ ha _ hb rfl
        obtain ⟨k, hk, rfl⟩ := List.mem_map.1 ha
        obtain ⟨k', hk', heq⟩ := List.mem_map.1 hb
        have hle := h.least k hk k' (hmem k' hk') heq.symm
        exact absurd (hdescending.2.2 k hk k' hk') (not_lt.2 hle)

theorem walk_step {t t' : Traversal δ ι μ κ} (h : Walk P inv key keys ident old limit t) {a : Traversal.Act α}
    (ha : Traversal.step apply P limit a t = some t') : Walk P inv key keys ident old limit t' := by
  cases a with
  | change a =>
    obtain ⟨d, hd, rfl⟩ := Option.map_eq_some_iff.1 ha
    exact walk_change hP h hd
  | request =>
    simp only [Traversal.step] at ha
    split at ha
    · rename_i c hasked hfinished hc
      cases ha
      exact walk_request hP h hasked hfinished hc
    · cases ha
  | answer =>
    simp only [Traversal.step] at ha
    split at ha
    · cases ha
    · rename_i c hasked
      split at ha
      · cases ha
      · rename_i items hitems
        cases ha
        exact walk_answer hP hlimit h hasked hitems

theorem Walk.exact {t : Traversal δ ι μ κ} (h : Walk P inv key keys ident old limit t) :
    t.Exact limit key keys ident := by
  cases hb : t.began with
  | none =>
    have hnil := (h.fresh hb).1
    refine ⟨?_, h.once, ?_, ?_⟩
    · simp [Traversal.received, hnil]
    · simp [hnil]
    · intro _ d top hbegan
      rw [hb] at hbegan
      cases hbegan
  | some began =>
    obtain ⟨-, -, -, cursor, hpages, -⟩ := h.began began.1 began.2 hb
    have hdescending := (hpages.read hlimit (h.nodup hP)).descending
    rw [returned_keyPages] at hdescending
    refine ⟨hdescending, h.once, fun p hp x hx => ?_, ?_⟩
    · exact hpages.mem (List.mem_map_of_mem hp) (List.mem_map_of_mem hx)
    · intro hfinished d top hbegan k hk hall
      rw [hb] at hbegan
      cases hbegan
      have hshort : (keyPages key keys t.pages).getLast?.any (fun p => decide (p.2.length < limit)) = true := by
        rw [keyPages, List.getLast?_map, Option.any_map]
        simpa [Traversal.finished, Function.comp_def] using hfinished
      have hin := hpages.complete hlimit (h.nodup hP) hshort hk fun p hp => by
        obtain ⟨q, hq, rfl⟩ := List.mem_map.1 hp
        exact hall q hq
      rwa [returned_keyPages] at hin

/-- What holds in every state of a run. -/
theorem walk_of_run {d : δ} (hd : inv d) {t : Traversal δ ι μ κ}
    {history : List (Traversal δ ι μ κ × Traversal.Act α)}
    (hr : Machine.Run (Traversal.step apply P limit) (.start d) history t) : Walk P inv key keys ident old limit t := by
  have hwalk := hr.invariant (I := Walk P inv key keys ident old limit) (C := fun _ _ => True)
    (fun _ _ _ h _ ha => walk_step hP hlimit h ha) (walk_start d hd) (fun _ _ => trivial)
  exact hwalk t (List.mem_append_right _ List.mem_cons_self)

end Lawful

/-! ## Requests and replies -/

/-- A client sends the last message of each page back with its next request: `reply last d items` says that the items
are a reply to the message `last`, read from the store `d`. -/
inductive Conversation (reply : Option μ → δ → List (ι × μ) → Prop) : List (δ × List ι) → Option μ → Prop
  | start : Conversation reply [] none
  | page {pages : List (δ × List ι)} {last : Option μ} {d : δ} {items : List (ι × μ)} : Conversation reply pages last →
      reply last d items →
      Conversation reply (pages ++ [(d, items.map Prod.fst)]) ((items.getLast?.map Prod.snd).or last)

theorem Conversation.imp {reply reply' : Option μ → δ → List (ι × μ) → Prop} {pages : List (δ × List ι)}
    {last : Option μ} (h : Conversation reply pages last)
    (himp : ∀ p ∈ pages, ∀ last items, reply last p.1 items → reply' last p.1 items) :
    Conversation reply' pages last := by
  induction h with
  | start => exact .start
  | @page pages last d items _ hreply ih =>
    have hlast : (d, items.map Prod.fst) ∈ pages ++ [(d, items.map Prod.fst)] :=
      List.mem_append_right _ List.mem_cons_self
    exact .page (ih fun p hp => himp p (List.mem_append_left _ hp)) (himp _ hlast last items hreply)

variable {P : Pager δ ι μ κ ε} {apply : α → δ → Option δ} {limit : Nat} {R : δ → δ → Prop}

/-- What the pager makes of a request that was received in an earlier store. -/
def Pager.Replies (P : Pager δ ι μ κ ε) (R : δ → δ → Prop) (limit : Nat) (last : Option μ) (d : δ)
    (items : List (ι × μ)) : Prop :=
  ∃ asked c, R asked d ∧ P.cursor last asked = .ok c ∧ P.select limit c d = .ok items

/-- Each page of a run is the reply to the last message of the page before; `R` relates a store to the later ones. -/
theorem conversation_of_run {d : δ} {t : Traversal δ ι μ κ} {history : List (Traversal δ ι μ κ × Traversal.Act α)}
    (hrefl : ∀ d, R d d) (hchange : ∀ {a d d' d''}, R d d' → apply a d' = some d'' → R d d'')
    (hr : Machine.Run (Traversal.step apply P limit) (.start d) history t) :
    Conversation (P.Replies R limit) t.pages t.last := by
  let I : Traversal δ ι μ κ → Prop := fun t => Conversation (P.Replies R limit) t.pages t.last ∧
    ∀ c, t.asked = some c → ∃ asked, R asked t.store ∧ P.cursor t.last asked = .ok c
  have hstep : ∀ (t : Traversal δ ι μ κ) (a : Traversal.Act α) (t' : Traversal δ ι μ κ), I t → True →
      Traversal.step apply P limit a t = some t' → I t' := by
    rintro t a t' ⟨hpages, hasked⟩ - ha
    cases a with
    | change a =>
      obtain ⟨d', hd', rfl⟩ := Option.map_eq_some_iff.1 ha
      refine ⟨hpages, fun c hc => ?_⟩
      obtain ⟨asked, hR, hcursor⟩ := hasked c hc
      exact ⟨asked, hchange hR hd', hcursor⟩
    | request =>
      simp only [Traversal.step] at ha
      split at ha
      · rename_i c _ _ hc
        cases ha
        refine ⟨hpages, fun c' hc' => ?_⟩
        cases hc'
        exact ⟨t.store, hrefl _, hc⟩
      · cases ha
    | answer =>
      simp only [Traversal.step] at ha
      split at ha
      · cases ha
      · rename_i c hc
        split at ha
        · cases ha
        · rename_i items hitems
          cases ha
          obtain ⟨asked, hR, hcursor⟩ := hasked c hc
          exact ⟨.page hpages ⟨asked, c, hR, hcursor, hitems⟩, fun c' hc' => by cases hc'⟩
  have hI := hr.invariant (I := I) (C := fun _ _ => True) hstep ⟨.start, fun c hc => by cases hc⟩ fun _ _ => trivial
  exact (hI t (List.mem_append_right _ List.mem_cons_self)).1

/-! ## Pagers that answer -/

/-- A request for the first page or with a message that was sent is answered from every ready store. -/
structure Pager.Total (P : Pager δ ι μ κ ε) (inv ready : δ → Prop) : Prop where
  first : ∀ d, ∃ c, P.cursor none d = .ok c
  cursor : ∀ {limit c d items x} d', inv d → P.select limit c d = .ok items → x ∈ items →
    ∃ c', P.cursor (some x.2) d' = .ok c'
  select : ∀ limit c {d}, inv d → ready d → ∃ items, P.select limit c d = .ok items

/-- A traversal that is not finished goes on. -/
theorem Walk.goes_on [LinearOrder κ] {P : Pager δ ι μ κ ε} (apply : α → δ → Option δ) {inv ready : δ → Prop}
    {key : ι → κ} {keys : δ → List κ} {ident : κ → η} {old : δ → κ → Prop} {limit : Nat} {t : Traversal δ ι μ κ}
    (h : Walk P inv key keys ident old limit t) (hT : P.Total inv ready) (hready : ready t.store)
    (hfinished : t.finished limit = false) :
    ∃ a ∈ [Traversal.Act.request, .answer], ∃ t', Traversal.step apply P limit a t = some t' := by
  cases hasked : t.asked with
  | some c =>
    obtain ⟨items, hitems⟩ := hT.select limit c h.store hready
    exact ⟨.answer, by simp, t.receive P.mark items, by simp [Traversal.step, hasked, hitems]⟩
  | none =>
    have hcursor : ∃ c, P.cursor t.last t.store = .ok c := by
      cases hb : t.began with
      | none =>
        rw [(h.fresh hb).2.2]
        exact hT.first _
      | some began =>
        obtain ⟨-, -, hsome, _, -, -, hlast⟩ := h.began began.1 began.2 hb
        have hne : t.pages ≠ [] := fun hnil => by
          have hisSome := hsome hnil
          rw [hasked] at hisSome
          cases hisSome
        obtain ⟨_, d', items, x, hd', hitems, hx, hmsg, -⟩ := hlast hfinished hne
        rw [hmsg]
        exact hT.cursor _ hd' hitems hx
    obtain ⟨c, hc⟩ := hcursor
    exact ⟨.request, by simp, t.ask c, by simp [Traversal.step, hasked, hfinished, hc]⟩

/-! ## Rows that are parsed and sent -/

section Send

theorem ok_of_bind {β : Type} {x : Except ε α} {f : α → Except ε β} {b : β} (h : (x >>= f) = .ok b) :
    ∃ a, x = .ok a ∧ f a = .ok b := by
  cases x with
  | error e => cases h
  | ok a => exact ⟨a, rfl, h⟩

/-- A conversion of a list converts each of its elements. -/
theorem forall₂_of_mapM {β : Type} {f : α → Except ε β} {as : List α} {bs : List β} (h : as.mapM f = .ok bs) :
    List.Forall₂ (fun a b => f a = .ok b) as bs := by
  induction as generalizing bs with
  | nil =>
    cases h
    exact .nil
  | cons a as ih =>
    rw [List.mapM_cons] at h
    obtain ⟨b, hb, h⟩ := ok_of_bind h
    obtain ⟨bs', hbs', h⟩ := ok_of_bind h
    cases h
    exact .cons hb (ih hbs')

theorem exists_of_mem_mapM {β : Type} {f : α → Except ε β} {as : List α} {bs : List β} (h : as.mapM f = .ok bs)
    {b : β} (hb : b ∈ bs) : ∃ a ∈ as, f a = .ok b := by
  have hall := forall₂_of_mapM h
  clear h
  induction hall with
  | nil => cases hb
  | @cons a b' as bs ha _ ih =>
    rcases List.mem_cons.1 hb with rfl | hb
    · exact ⟨a, List.mem_cons_self, ha⟩
    · obtain ⟨a', ha', hfa'⟩ := ih hb
      exact ⟨a', List.mem_cons_of_mem a ha', hfa'⟩

theorem exists_of_mapM_mem {β : Type} {f : α → Except ε β} {as : List α} {bs : List β} (h : as.mapM f = .ok bs)
    {a : α} (ha : a ∈ as) : ∃ b ∈ bs, f a = .ok b := by
  have hall := forall₂_of_mapM h
  clear h
  induction hall with
  | nil => cases ha
  | @cons a' b as bs hb _ ih =>
    rcases List.mem_cons.1 ha with rfl | ha
    · exact ⟨b, List.mem_cons_self, hb⟩
    · obtain ⟨b', hb', hfb'⟩ := ih ha
      exact ⟨b', List.mem_cons_of_mem b hb', hfb'⟩

theorem mapM_total {β : Type} {f : α → Except ε β} {as : List α} (h : ∀ a ∈ as, ∃ b, f a = .ok b) :
    ∃ bs, as.mapM f = .ok bs := by
  induction as with
  | nil => exact ⟨[], rfl⟩
  | cons a as ih =>
    obtain ⟨b, hb⟩ := h a List.mem_cons_self
    obtain ⟨bs, hbs⟩ := ih fun a' ha' => h a' (List.mem_cons_of_mem a ha')
    rw [List.mapM_cons, hb, hbs]
    exact ⟨b :: bs, rfl⟩

theorem mapM_ok {β : Type} (f : α → β) (as : List α) :
    as.mapM (fun a => (.ok (f a) : Except ε β)) = .ok (as.map f) := by
  induction as with
  | nil => rfl
  | cons a as ih =>
    rw [List.mapM_cons, ih]
    rfl

theorem map_eq_map_of_mapM {β : Type} {f : α → Except ε β} {g : α → η} {g' : β → η}
    (hf : ∀ a b, f a = .ok b → g' b = g a) {as : List α} {bs : List β} (h : as.mapM f = .ok bs) :
    bs.map g' = as.map g := by
  have hall := forall₂_of_mapM h
  clear h
  induction hall with
  | nil => rfl
  | @cons a b as bs ha _ ih => rw [List.map_cons, List.map_cons, hf a b ha, ih]

theorem mapM_of_forall₂ {β : Type} {f : α → Except ε β} {as : List α} {bs : List β}
    (h : List.Forall₂ (fun a b => f a = .ok b) as bs) : as.mapM f = .ok bs := by
  induction h with
  | nil => rfl
  | cons ha _ ih =>
    rw [List.mapM_cons, ha, ih]
    rfl

variable (parse : α → Except ε ι) (encode : ι → Except ε μ)

/-- An item with its message. -/
def withMessage (x : ι) : Except ε (ι × μ) := do
  let msg ← encode x
  return (x, msg)

/-- The rows of a page, parsed and with their messages. -/
def sendRows (rows : List α) : Except ε (List (ι × μ)) := do
  let items ← rows.mapM parse
  items.mapM (withMessage encode)

variable {parse encode}

theorem withMessage_ok {x : ι} {y : ι × μ} (h : withMessage encode x = .ok y) : y.1 = x ∧ encode x = .ok y.2 := by
  obtain ⟨msg, hmsg, h⟩ := ok_of_bind h
  cases h
  exact ⟨rfl, hmsg⟩

/-- The messages of a page are those of its items. -/
theorem sendRows_messages (rows : List α) :
    (List.map Prod.snd <$> sendRows parse encode rows) = (rows.mapM parse >>= fun items => items.mapM encode) := by
  have hmessages : ∀ items : List ι,
      (List.map Prod.snd <$> items.mapM (withMessage encode)) = items.mapM encode := by
    intro items
    induction items with
    | nil => rfl
    | cons x items ih =>
      rw [List.mapM_cons, List.mapM_cons, ← ih]
      cases hmsg : encode x with
      | error e =>
        have herror : withMessage encode x = .error e := by simp only [withMessage, hmsg]; rfl
        rw [herror]
        rfl
      | ok msg =>
        have hok : withMessage encode x = .ok (x, msg) := by simp only [withMessage, hmsg]; rfl
        rw [hok]
        cases items.mapM (withMessage encode) <;> rfl
  unfold sendRows
  cases rows.mapM parse with
  | error e => rfl
  | ok items => exact hmessages items

theorem map_sendRows {g : α → η} {g' : ι → η} (hparse : ∀ a x, parse a = .ok x → g' x = g a) {rows : List α}
    {items : List (ι × μ)} (h : sendRows parse encode rows = .ok items) :
    items.map (fun x => g' x.1) = rows.map g := by
  obtain ⟨parsed, hparsed, hitems⟩ := ok_of_bind h
  rw [map_eq_map_of_mapM (g := g') (fun x y hy => by rw [(withMessage_ok hy).1]) hitems,
    map_eq_map_of_mapM hparse hparsed]

theorem mem_sendRows {rows : List α} {items : List (ι × μ)} (h : sendRows parse encode rows = .ok items)
    {x : ι × μ} (hx : x ∈ items) : encode x.1 = .ok x.2 ∧ ∃ a ∈ rows, parse a = .ok x.1 := by
  obtain ⟨parsed, hparsed, hitems⟩ := ok_of_bind h
  obtain ⟨y, hy, hmsg⟩ := exists_of_mem_mapM hitems hx
  obtain ⟨heq, hencode⟩ := withMessage_ok hmsg
  rw [heq]
  exact ⟨hencode, exists_of_mem_mapM hparsed hy⟩

theorem sendRows_total {rows : List α} (h : ∀ a ∈ rows, ∃ x msg, parse a = .ok x ∧ encode x = .ok msg) :
    ∃ items, sendRows parse encode rows = .ok items := by
  obtain ⟨parsed, hparsed⟩ := mapM_total fun a ha => (h a ha).imp fun x hx => hx.choose_spec.1
  have hsent : ∀ x ∈ parsed, ∃ y, withMessage encode x = .ok y := by
    intro x hx
    obtain ⟨a, ha, hparse⟩ := exists_of_mem_mapM hparsed hx
    obtain ⟨x', msg, hparse', hmsg⟩ := h a ha
    rw [hparse] at hparse'
    cases hparse'
    exact ⟨(x, msg), by simp only [withMessage, hmsg]; rfl⟩
  obtain ⟨items, hitems⟩ := mapM_total hsent
  exact ⟨items, by simp only [sendRows, hparsed]; exact hitems⟩

end Send

/-! ## All pages of a table that stays as it is -/

section Whole

/-- `items` are the items of all pages after the item `last`, up to the first page that is not full. -/
inductive PagesThrough (page : Option ι → Except ε (List ι)) (limit : Nat) : Option ι → List ι → Prop
  | last {last : Option ι} {items : List ι} : page last = .ok items → items.length < limit →
      PagesThrough page limit last items
  | next {last : Option ι} {items rest : List ι} {e : ι} : page last = .ok items → ¬ items.length < limit →
      items.getLast? = some e → PagesThrough page limit (some e) rest → PagesThrough page limit last (items ++ rest)

theorem PagesThrough.unique {page : Option ι → Except ε (List ι)} {limit : Nat} {last : Option ι}
    {items items' : List ι}
    (h : PagesThrough page limit last items) (h' : PagesThrough page limit last items') : items = items' := by
  induction h generalizing items' with
  | last hpage hshort =>
    cases h' with
    | last hpage' _ => exact Except.ok.inj (hpage.symm.trans hpage')
    | next hpage' hfull _ _ =>
      rw [Except.ok.inj (hpage.symm.trans hpage')] at hshort
      exact absurd hshort hfull
  | next hpage hfull hlast _ ih =>
    cases h' with
    | last hpage' hshort =>
      rw [Except.ok.inj (hpage'.symm.trans hpage)] at hshort
      exact absurd hshort hfull
    | next hpage' _ hlast' hrest' =>
      obtain rfl := Except.ok.inj (hpage.symm.trans hpage')
      rw [hlast] at hlast'
      cases hlast'
      rw [ih hrest']

variable {κ : Type} [LinearOrder κ] {key : α → κ} {rows : List α}

/-- The rows below a cursor, in the order of the pages. -/
def below (key : α → κ) (rows : List α) (cursor : κ) : List α :=
  orderByDesc key (rows.filter fun r => decide (key r < cursor))

theorem mem_below {cursor : κ} {r : α} : r ∈ below key rows cursor ↔ r ∈ rows ∧ key r < cursor := by
  have hperm : (below key rows cursor).Perm (rows.filter fun r => decide (key r < cursor)) := perm_orderByDesc
  rw [hperm.mem_iff, List.mem_filter, decide_eq_true_iff]

theorem nodup_map_below {β : Type} {f : α → β} (h : (rows.map f).Nodup) (cursor : κ) :
    ((below key rows cursor).map f).Nodup := by
  have hperm : (below key rows cursor).Perm (rows.filter fun r => decide (key r < cursor)) := perm_orderByDesc
  exact ((hperm.map f).nodup_iff).2 (h.sublist (List.filter_sublist.map f))

theorem below_descending (h : (rows.map key).Nodup) (cursor : κ) :
    (below key rows cursor).Pairwise fun a b => key b < key a :=
  descending_orderByDesc (h.sublist (List.filter_sublist.map key))

/-- What is below the last row of a page is what comes after the page. -/
theorem below_last (h : (rows.map key).Nodup) {cursor : κ} {page rest : List α} {r : α}
    (hsplit : below key rows cursor = page ++ rest) (hlast : page.getLast? = some r) :
    below key rows (key r) = rest := by
  have hdesc := below_descending h cursor
  have hperm : (below key rows cursor).Perm (rows.filter fun r => decide (key r < cursor)) := perm_orderByDesc
  rw [hsplit] at hdesc hperm
  have hmem : r ∈ page := List.mem_of_getLast? hlast
  obtain ⟨hpage, hrest, hcross⟩ := List.pairwise_append.1 hdesc
  have hlt : key r < cursor := by
    have hin := hperm.mem_iff.1 (List.mem_append_left rest hmem)
    simpa using (List.mem_filter.1 hin).2
  have habove : ∀ a ∈ page, key r ≤ key a := by
    intro a ha
    obtain ⟨init, rfl⟩ := List.getLast?_eq_some_iff.1 hlast
    rcases List.mem_append.1 ha with ha | ha
    · exact ((List.pairwise_append.1 hpage).2.2 a ha r (List.mem_singleton_self r)).le
    · rw [List.mem_singleton.1 ha]
  have hnone : page.filter (fun a => decide (key a < key r)) = [] :=
    List.filter_eq_nil_iff.2 fun a ha => by simpa using habove a ha
  have hall : rest.filter (fun a => decide (key a < key r)) = rest :=
    List.filter_eq_self.2 fun a ha => by simpa using hcross r hmem a ha
  have hfilter : (rows.filter fun a => decide (key a < cursor)).filter (fun a => decide (key a < key r)) =
      rows.filter fun a => decide (key a < key r) := by
    rw [List.filter_filter]
    refine List.filter_congr fun a _ => ?_
    by_cases ha : key a < key r
    · simp [ha, ha.trans hlt]
    · simp [ha]
  refine orderByDesc_eq ?_ hrest
  have hrestPerm := hperm.filter fun a => decide (key a < key r)
  rwa [List.filter_append, hnone, hall, List.nil_append, hfilter] at hrestPerm

theorem getLast_of_forall₂ {β : Type} {R : α → β → Prop} {as : List α} {bs : List β} (h : List.Forall₂ R as bs) {a : α}
    (ha : as.getLast? = some a) : ∃ b, bs.getLast? = some b ∧ R a b := by
  induction h with
  | nil => cases ha
  | @cons a' b' as bs hab hrest ih =>
    cases hrest with
    | nil =>
      cases ha
      exact ⟨b', rfl, hab⟩
    | cons _ _ =>
      rw [List.getLast?_cons_cons] at ha
      obtain ⟨b, hb, hR⟩ := ih ha
      exact ⟨b, by rw [List.getLast?_cons_cons]; exact hb, hR⟩

/-- Read to the end, the pages of a table whose rows have different keys are all rows below the first
cursor, the one with the greatest key first. -/
theorem pagesThrough_iff {parse : α → Except ε ι} {cursor : Option ι → κ} {page : Option ι → Except ε (List ι)}
    {limit : Nat}
    (hlimit : 0 < limit) (hkeys : (rows.map key).Nodup) (hparse : ∀ r ∈ rows, ∃ e, parse r = .ok e)
    (hcursor : ∀ r e, parse r = .ok e → cursor (some e) = key r)
    (hpage : ∀ last, page last = (selectPage key limit (cursor last) rows).mapM parse) (last : Option ι) :
    ∃ items, (below key rows (cursor last)).mapM parse = .ok items ∧
      ∀ items', PagesThrough page limit last items' ↔ items' = items := by
  have hall : ∃ items, (below key rows (cursor last)).mapM parse = .ok items ∧ PagesThrough page limit last items := by
    -- on the number of rows that are left
    induction hn : (below key rows (cursor last)).length using Nat.strong_induction_on generalizing last with
    | _ n ih =>
      have hsub : ∀ r ∈ below key rows (cursor last), ∃ e, parse r = .ok e := fun r hr =>
        hparse r (List.mem_of_mem_filter (perm_orderByDesc.mem_iff.1 hr))
      have hselect : page last = ((below key rows (cursor last)).take limit).mapM parse := hpage last
      obtain ⟨items, hitems⟩ := mapM_total fun r hr => hsub r (List.mem_of_mem_take hr)
      rw [hitems] at hselect
      have hrows := forall₂_of_mapM hitems
      have hlength : items.length = min limit n := by rw [← hrows.length_eq, List.length_take, hn]
      by_cases hshort : n < limit
      · have htake : (below key rows (cursor last)).take limit = below key rows (cursor last) :=
          List.take_of_length_le (by omega)
        rw [htake] at hitems
        exact ⟨items, hitems, .last hselect (by omega)⟩
      · have hne : (below key rows (cursor last)).take limit ≠ [] := by
          refine List.ne_nil_of_length_pos ?_
          rw [List.length_take]
          omega
        obtain ⟨r, hr⟩ : ∃ r, ((below key rows (cursor last)).take limit).getLast? = some r :=
          ⟨_, List.getLast?_eq_some_getLast hne⟩
        obtain ⟨e, he, hre⟩ := getLast_of_forall₂ hrows hr
        have hrest : below key rows (cursor (some e)) = (below key rows (cursor last)).drop limit := by
          rw [hcursor r e hre]
          exact below_last hkeys (List.take_append_drop limit _).symm hr
        have hfewer : (below key rows (cursor (some e))).length < n := by
          rw [hrest, List.length_drop, hn]
          omega
        obtain ⟨rest, hrestItems, hthrough⟩ := ih _ hfewer (some e) rfl
        refine ⟨items ++ rest, ?_, .next hselect (by omega) he hthrough⟩
        rw [hrest] at hrestItems
        have hboth := mapM_of_forall₂ (List.rel_append hrows (forall₂_of_mapM hrestItems))
        dsimp only at hboth
        rwa [List.take_append_drop] at hboth
  obtain ⟨items, hitems, hthrough⟩ := hall
  exact ⟨items, hitems, fun items' => ⟨fun h => h.unique hthrough, fun h => h ▸ hthrough⟩⟩

/-- Where every row is below the first cursor, the pages have all rows. -/
theorem pagesThrough_all {parse : α → Except ε ι} {cursor : Option ι → κ} {page : Option ι → Except ε (List ι)}
    {limit : Nat}
    (hlimit : 0 < limit) (hkeys : (rows.map key).Nodup) {last : Option ι} (hbelow : ∀ r ∈ rows, key r < cursor last)
    {f : α → ι} (hparse : ∀ r, parse r = .ok (f r)) (hcursor : ∀ r, cursor (some (f r)) = key r)
    (hpage : ∀ last, page last = (selectPage key limit (cursor last) rows).mapM parse) :
    ∃ items, items.Perm (rows.map f) ∧ ∀ items', PagesThrough page limit last items' ↔ items' = items := by
  obtain ⟨items, hitems, hthrough⟩ := pagesThrough_iff hlimit hkeys (fun r _ => ⟨f r, hparse r⟩)
    (fun r e he => by rw [← hcursor r, ← Except.ok.inj ((hparse r).symm.trans he)]) hpage last
  have hmap : items.map id = (below key rows (cursor last)).map f :=
    map_eq_map_of_mapM (fun r e he => Except.ok.inj (he.symm.trans (hparse r))) hitems
  have hall : rows.filter (fun r => decide (key r < cursor last)) = rows :=
    List.filter_eq_self.2 fun r hr => decide_eq_true (hbelow r hr)
  have hperm : (below key rows (cursor last)).Perm (rows.filter fun r => decide (key r < cursor last)) :=
    perm_orderByDesc
  rw [hall] at hperm
  rw [List.map_id] at hmap
  exact ⟨items, hmap ▸ hperm.map f, hthrough⟩

end Whole

end Relational
