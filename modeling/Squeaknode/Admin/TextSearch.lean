/-
The search for a text in the squeaks. The text goes into the pattern of ILIKE as it is, so that a `%` or a
`_` in it stands for any text or for any character. SQLite reads the pattern and the contents up to the first NUL, and
it takes only patterns of 50000 bytes.
-/
import Squeaknode.Admin.Feeds
import Squeaknode.Relational.Wildcard
import Mathlib.Data.List.TakeWhile

namespace Squeaknode

open Relational SqueakDb

/-! ## ILIKE -/

/-- A character of a LIKE pattern. SQLite has no escape character. -/
def place (c : Char) : Wild Char := if c = '%' then .many else if c = '_' then .one else .letter c

/-- The case of letters is ignored, that of ASCII letters only. -/
def sameLetter (c d : Char) : Bool := c.toLower == d.toLower

/-- The character at which SQLite stops to read a text. -/
def nul : Char := Char.ofNat 0

/-- The characters before the first NUL. -/
def untilNul (text : String) : List Char := text.toList.takeWhile (· != nul)

/-- `SQLITE_MAX_LIKE_PATTERN_LENGTH`, in bytes. -/
def maxLikePatternLength : Nat := 50000

/-- ILIKE of SQLite. -/
def ilike : Ilike where
  isMatch content pattern := Wild.matchesText sameLetter ((untilNul pattern).map place) (untilNul content)
  tooComplex pattern := decide (maxLikePatternLength < pattern.utf8ByteSize)

/-- The content contains the text. -/
def ContainsText (text content : String) : Prop := text.toList.map Char.toLower <:+: content.toList.map Char.toLower

/-- The content contains what comes of the text when each `_` is replaced by a character and each `%` by
any characters, both of them read up to the first NUL. After a text with a NUL the content does not go on. -/
def ResemblesText (text content : String) : Prop :=
  ∃ part, (if nul ∈ text.toList then part <:+ untilNul content else part <:+: untilNul content) ∧
    Wild.Replaced sameLetter ((untilNul text).map place) part

theorem untilNul_eq {text : String} (h : nul ∉ text.toList) : untilNul text = text.toList := by
  refine List.takeWhile_eq_self_iff.2 fun c hc => ?_
  exact bne_iff_ne.2 fun heq => h (heq ▸ hc)

theorem prefix_untilNul (text : String) : untilNul text <+: text.toList := List.takeWhile_prefix _

/-- A NUL in the text cuts off the `%` after it. -/
theorem untilNul_searchPattern (text : String) : untilNul (searchPattern text) =
    '%' :: (untilNul text ++ if nul ∈ text.toList then [] else ['%']) := by
  have htoList : (searchPattern text).toList = '%' :: (text.toList ++ ['%']) := by
    unfold searchPattern
    rw [String.toList_append, String.toList_append, List.append_assoc]
    rfl
  have hmany : ∀ rest : List Char, ('%' :: rest).takeWhile (fun c => c != nul) =
      '%' :: rest.takeWhile (fun c => c != nul) := fun rest => List.takeWhile_cons_of_pos (by decide)
  unfold untilNul
  rw [htoList, hmany]
  by_cases hnul : nul ∈ text.toList
  · obtain ⟨before, after, htext⟩ := List.append_of_mem hnul
    have hstop : ∀ rest : List Char, (nul :: rest).takeWhile (fun c => c != nul) = [] := fun rest =>
      List.takeWhile_cons_of_neg (by simp)
    have hcut : ∀ rest : List Char, (before ++ nul :: rest).takeWhile (· != nul) = before.takeWhile (· != nul) := by
      intro rest
      rw [List.takeWhile_append, hstop, List.append_nil]
      split
      · rename_i hlength
        exact ((List.takeWhile_prefix _).eq_of_length hlength).symm
      · rfl
    rw [if_pos hnul, List.append_nil, htext, List.append_assoc, List.cons_append, hcut, hcut]
  · have hall : ∀ c ∈ text.toList, (c != nul) = true := fun c hc => bne_iff_ne.2 fun heq => hnul (heq ▸ hc)
    rw [if_neg hnul, List.takeWhile_append_of_pos hall, List.takeWhile_eq_self_iff.2 hall, hmany]
    rfl

theorem ilike_iff (text content : String) :
    ilike.isMatch content (searchPattern text) = true ↔ ResemblesText text content := by
  unfold ilike ResemblesText
  dsimp only
  rw [untilNul_searchPattern, Wild.matchesText_iff, List.map_cons, List.map_append]
  split
  · rw [List.map_nil, List.append_nil]
    exact Wild.replaced_atEnd
  · exact Wild.replaced_anywhere

theorem map_toLower_eq {letters part : List Char} :
    letters.map Char.toLower = part.map Char.toLower ↔
      List.Forall₂ (fun c d => sameLetter c d = true) letters part := by
  have hsame : ∀ c d, sameLetter c d = true ↔ c.toLower = d.toLower := fun c d => beq_iff_eq
  have heq : letters.map Char.toLower = part.map Char.toLower ↔
      List.Forall₂ (· = ·) (letters.map Char.toLower) (part.map Char.toLower) := by rw [List.forall₂_eq_eq_eq]
  rw [heq, List.forall₂_map_left_iff, List.forall₂_map_right_iff]
  simp only [hsame]

theorem containsText_iff (text content : String) :
    ContainsText text content ↔
      ∃ part, part <:+: content.toList ∧ List.Forall₂ (fun c d => sameLetter c d = true) text.toList part := by
  constructor
  · rintro ⟨before, after, heq⟩
    obtain ⟨front, back, hcontent, hfront, -⟩ := List.map_eq_append_iff.1 heq.symm
    obtain ⟨first, part, rfl, -, hpart⟩ := List.map_eq_append_iff.1 hfront
    exact ⟨part, ⟨first, back, hcontent.symm⟩, map_toLower_eq.1 hpart.symm⟩
  · rintro ⟨part, ⟨first, back, hcontent⟩, hpart⟩
    refine ⟨first.map Char.toLower, back.map Char.toLower, ?_⟩
    rw [← hcontent, map_toLower_eq.2 hpart, List.map_append, List.map_append]

/-- Any letters come of the same letters in the pattern. -/
theorem replaced_places {letters part : List Char} (h : List.Forall₂ (fun c d => sameLetter c d = true) letters part) :
    Wild.Replaced sameLetter (letters.map place) part := by
  induction h with
  | nil => exact .nil
  | @cons c d letters part hcd _ ih =>
    rw [List.map_cons]
    unfold place
    split
    · exact .many [d] ih
    split
    · exact .one d ih
    · exact .letter hcd ih

theorem toLower_eq_nul {c : Char} (h : c.toLower = nul) : c = nul := by
  unfold Char.toLower at h
  split at h
  · rename_i hupper
    have hval : c.val + 32 = 0 := congrArg Char.val h
    have hsum := congrArg UInt32.toNat hval
    have hlow := UInt32.le_iff_toNat_le.1 hupper.1
    have hhigh := UInt32.le_iff_toNat_le.1 hupper.2
    simp at hsum hlow hhigh
    omega
  · exact h

/-- A content without NUL that contains the text resembles it. -/
theorem resembles_of_contains {text content : String} (hnul : nul ∉ content.toList) (h : ContainsText text content) :
    ResemblesText text content := by
  have htext : nul ∉ text.toList := by
    intro hmem
    have hlower : nul.toLower ∈ content.toList.map Char.toLower := h.subset (List.mem_map_of_mem hmem)
    obtain ⟨c, hc, hlower⟩ := List.mem_map.1 hlower
    exact hnul (toLower_eq_nul hlower ▸ hc)
  obtain ⟨part, hpart, hsame⟩ := (containsText_iff text content).1 h
  refine ⟨part, ?_, ?_⟩
  · rwa [if_neg htext, untilNul_eq hnul]
  · rw [untilNul_eq htext]
    exact replaced_places hsame

theorem replaced_self (letters : List Char) : Wild.Replaced sameLetter (letters.map place) letters :=
  replaced_places (List.forall₂_same.2 fun _ _ => beq_self_eq_true _)

/-- The texts that are looked for as they are: without a wildcard and without NUL. -/
structure Plain (text : String) : Prop where
  many : '%' ∉ text.toList
  one : '_' ∉ text.toList
  nul : nul ∉ text.toList

theorem contains_of_resembles {text content : String} (htext : Plain text) (h : ResemblesText text content) :
    ContainsText text content := by
  obtain ⟨part, hpart, hreplaced⟩ := h
  rw [if_neg htext.nul] at hpart
  have hletters : text.toList.map place = text.toList.map .letter := by
    refine List.map_congr_left fun c hc => ?_
    have hneMany : c ≠ '%' := fun heq => htext.many (heq ▸ hc)
    have hneOne : c ≠ '_' := fun heq => htext.one (heq ▸ hc)
    rw [place, if_neg hneMany, if_neg hneOne]
  rw [untilNul_eq htext.nul, hletters, Wild.replaced_letters] at hreplaced
  exact (containsText_iff text content).2 ⟨part, hpart.trans (prefix_untilNul content).isInfix, hreplaced⟩

/-- What comes of a text before its NUL resembles it. -/
theorem resembles_replaced {text : String} {part : List Char} (hnul : nul ∉ part)
    (h : Wild.Replaced sameLetter ((untilNul text).map place) part) : ResemblesText text (String.ofList part) := by
  have hcontent : untilNul (String.ofList part) = part := by
    rw [untilNul_eq (by rwa [String.toList_ofList]), String.toList_ofList]
  refine ⟨part, ?_, h⟩
  rw [hcontent]
  split
  · exact List.suffix_refl part
  · exact List.infix_refl part

/-- For exactly the plain texts no content resembles them without containing them. -/
theorem resembles_contains_iff (text : String) :
    (∀ content, ResemblesText text content → ContainsText text content) ↔ Plain text := by
  constructor
  · intro h
    have hlength : ∀ part, nul ∉ part → Wild.Replaced sameLetter ((untilNul text).map place) part →
        text.toList.length ≤ part.length := by
      intro part hnul hreplaced
      have hle := (h _ (resembles_replaced hnul hreplaced)).length_le
      rwa [List.length_map, List.length_map, String.toList_ofList] at hle
    have hself : nul ∉ untilNul text := fun hmem => by simpa using List.mem_takeWhile_imp hmem
    -- the text before its NUL is shorter
    have hnul : nul ∉ text.toList := by
      intro hmem
      have hwhole := (prefix_untilNul text).eq_of_length_le (hlength _ hself (replaced_self _))
      exact hself (hwhole ▸ hmem)
    rw [untilNul_eq hnul] at hlength
    refine ⟨fun hmem => ?_, fun hmem => ?_, hnul⟩
    · obtain ⟨before, after, htext⟩ := List.append_of_mem hmem
      -- so is the text without the `%`
      have hwithout : nul ∉ before ++ after := fun hmem => hnul (by rw [htext]; simp at hmem ⊢; tauto)
      have hle := hlength (before ++ after) hwithout (by
        rw [htext, List.map_append]
        exact Wild.replaced_append.2 ⟨before, after, rfl, replaced_self before, .many [] (replaced_self after)⟩)
      rw [htext, List.length_append, List.length_append, List.length_cons] at hle
      omega
    · obtain ⟨before, after, htext⟩ := List.append_of_mem hmem
      have hreplaced : Wild.Replaced sameLetter ((untilNul text).map place) (before ++ 'x' :: after) := by
        rw [untilNul_eq hnul, htext, List.map_append]
        exact Wild.replaced_append.2 ⟨before, 'x' :: after, rfl, replaced_self before, .one 'x' (replaced_self after)⟩
      have hletter : nul ∉ before ++ 'x' :: after := by
        have hx : nul ≠ 'x' := by decide
        intro hmem
        refine hnul ?_
        rw [htext]
        simp at hmem ⊢
        tauto
      have hcontains := h _ (resembles_replaced hletter hreplaced)
      have hequal := hcontains.eq_of_length (by
        rw [List.length_map, List.length_map, String.toList_ofList, htext, List.length_append, List.length_append]
        rfl)
      rw [String.toList_ofList, htext, List.map_append, List.map_append] at hequal
      have hunderscore := (List.cons.inj (List.append_cancel_left hequal)).1
      exact absurd hunderscore (by decide)
  · exact fun htext content => contains_of_resembles htext

/-! ## The squeaks that are found -/

section Search

variable {L : Squeaklib}

/-- The squeaks with the text in their content are found, and no others, each once. -/
structure FindsExactly (text : String) (db : Db) (entries : List (SqueakEntry L)) : Prop where
  once : (entries.map SqueakEntry.squeakHash).Nodup
  found : ∀ squeakHash, squeakHash ∈ entries.map SqueakEntry.squeakHash ↔
    ∃ r ∈ db.squeaks, r.hash = squeakHash ∧ ∃ content, r.content = some content ∧ ContainsText text content

/-- The database takes the pattern, or has nothing to match it with. -/
def Accepted (text : String) (db : Db) : Prop :=
  db.squeaks = [] ∨ (searchPattern text).utf8ByteSize ≤ maxLikePatternLength

/-- The pattern is taken, and the stored contents that resemble the text are those that contain it. -/
structure Searchable (text : String) (db : Db) : Prop where
  accepted : Accepted text db
  noFalseHits : ∀ r ∈ db.squeaks, ∀ content, r.content = some content → ResemblesText text content →
    ContainsText text content
  noMisses : ∀ r ∈ db.squeaks, ∀ content, r.content = some content → ContainsText text content →
    ResemblesText text content

theorem accepted_iff {text : String} {db : Db} : Accepted text db ↔ checkPattern ilike text db = .ok () := by
  unfold Accepted checkPattern
  by_cases hempty : db.squeaks = []
  · simp [hempty]
  · by_cases hlength : (searchPattern text).utf8ByteSize ≤ maxLikePatternLength
    · simp [ilike, hlength, not_lt.2 hlength]
    · simp [ilike, hempty, hlength, not_le.1 hlength]

/-- The pages of the search. -/
abbrev SearchedThrough (text : String) (db : Db) (limit : Nat) : List (SqueakEntry L) → Prop :=
  PagesThrough (fun last => getSqueakEntriesForTextSearch L ilike text limit last db) limit none

theorem accepted_of_searched {text : String} {db : Db} {limit : Nat} {entries : List (SqueakEntry L)}
    (h : SearchedThrough text db limit entries) : Accepted text db := by
  refine accepted_iff.2 ?_
  cases h with
  | last hpage =>
    obtain ⟨⟨⟩, hcheck, -⟩ := ok_of_bind hpage
    exact hcheck
  | next hpage =>
    obtain ⟨⟨⟩, hcheck, -⟩ := ok_of_bind hpage
    exact hcheck

/-- What the pages of the search have together. -/
theorem search_pages (hL : L.CodecLaws) {db : Db} (hdb : Listed L db)
    (hheights : ∀ r ∈ db.squeaks, r.blockHeight < maxInt)
    {text : String} (haccepted : Accepted text db) {limit : Nat} (hlimit : 0 < limit) :
    ∃ entries : List (SqueakEntry L),
      (∀ entries', SearchedThrough text db limit entries' ↔ entries' = entries) ∧
      (entries.map SqueakEntry.squeakHash).Nodup ∧
      ∀ squeakHash, squeakHash ∈ entries.map SqueakEntry.squeakHash ↔
        ∃ r ∈ db.squeaks, r.hash = squeakHash ∧ ∃ content, r.content = some content ∧ ResemblesText text content := by
  let feed : Feed L := .textSearch text
  have hhashes : ((feed.keys ilike db).map Feed.keyHash).Nodup := Feed.nodup_keyHash_keys feed hdb
  have hparse : ∀ row ∈ feed.rows ilike db, ∃ e, parseSqueakEntry L row = .ok e := by
    intro row hrow
    obtain ⟨e, he, -⟩ := parseSqueakEntry_total hL hdb (List.mem_of_mem_filter hrow)
    exact ⟨e, he⟩
  have hcursor : ∀ row e, parseSqueakEntry L row = .ok e → feedCursor (some e) = feedKey row := fun _ _ => key_of_parse
  have hsearch : ∀ last : Option (SqueakEntry L), getSqueakEntriesForTextSearch L ilike text limit last db =
      getFeed L (contentHasText ilike text) limit last db := by
    intro last
    unfold getSqueakEntriesForTextSearch
    rw [accepted_iff.1 haccepted]
    rfl
  obtain ⟨entries, hentries, hthrough⟩ := pagesThrough_iff hlimit hhashes.of_map hparse hcursor hsearch
    (none : Option (SqueakEntry L))
  have hmap : entries.map SqueakEntry.squeakHash =
      (below feedKey (feed.rows ilike db) (feedCursor (none : Option (SqueakEntry L)))).map fun row =>
        row.squeak.hash :=
    map_eq_map_of_mapM (fun row e he => (parseSqueakEntry_ok he).2.2.1) hentries
  -- the cursor of the first page is above all rows, as no block height reaches `maxInt`
  have hrows : ∀ row, row ∈ below feedKey (feed.rows ilike db) (feedCursor (none : Option (SqueakEntry L))) ↔
      ∃ r ∈ db.squeaks, feed.Matches ilike db r ∧ joined db.profiles.rows r = row := by
    intro row
    rw [mem_below, Feed.mem_rows ilike hdb]
    refine and_iff_left_of_imp ?_
    rintro ⟨r, hr, -, rfl⟩
    exact Prod.Lex.toLex_lt_toLex.2 (.inl (hheights r hr))
  refine ⟨entries, hthrough, ?_, fun squeakHash => ?_⟩
  · rw [hmap]
    refine nodup_map_below ?_ _
    unfold Feed.keys at hhashes
    rw [List.map_map] at hhashes
    exact hhashes
  · rw [hmap, List.mem_map]
    constructor
    · rintro ⟨row, hrow, rfl⟩
      obtain ⟨r, hr, ⟨content, hcontent, htext⟩, rfl⟩ := (hrows row).1 hrow
      exact ⟨r, hr, rfl, content, hcontent, (ilike_iff text content).1 htext⟩
    · rintro ⟨r, hr, rfl, content, hcontent, htext⟩
      exact ⟨_, (hrows _).2 ⟨r, hr, ⟨content, hcontent, (ilike_iff text content).2 htext⟩, rfl⟩, rfl⟩

end Search

namespace Sample

/-- A node that holds one squeak, with this content. -/
def notebook (content : String) : Db := (owner (scalarToBytes 5) content).db

theorem listed_notebook (content : String) : Listed squeaklib (notebook content) where
  hashes := List.nodup_singleton _
  publicKeys := List.nodup_nil
  squeaks := by
    intro r hr
    obtain rfl := List.mem_singleton.1 hr
    exact ⟨squeak, rfl, rfl, rfl, rfl, rfl⟩
  profiles := fun r hr => by cases hr

end Sample

end Squeaknode
