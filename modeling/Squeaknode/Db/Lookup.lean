/-
The lookup of an interest. `lookup_squeaks` adds a filter to its query when the argument is truthy,
so that a bound of 0 and an empty reply hash are taken for arguments that were not given. Each of the
others becomes a variable of the statement, of which the database takes only so many, and the driver
takes no bound of more than 64 bits.
-/
import Squeaknode.Db.Entries
import Squeaknode.Node.Sample

namespace Squeaknode

open Relational

namespace SqueakDb

/-- The filters that a caller of `lookup_squeaks` supplies; an empty list of keys is no filter. -/
structure Interest where
  publicKeys : List Bytes
  minBlock : Option Int
  maxBlock : Option Int
  replyToHash : Option Bytes
  includeLocked : Bool
  deriving DecidableEq, Repr

namespace Interest

/-- The lookup for an interest. -/
def lookup (sqlite : Sqlite) (i : Interest) : Db → Except Err (List Bytes) :=
  lookupSqueaks sqlite i.publicKeys (i.minBlock.map Bound.int) (i.maxBlock.map Bound.int) i.replyToHash i.includeLocked

/-- A squeak satisfies every filter that was supplied. -/
structure Wants (i : Interest) (r : SqueakRow) : Prop where
  author : i.publicKeys ≠ [] → r.authorPublicKey ∈ i.publicKeys
  minBlock : ∀ b ∈ i.minBlock, b ≤ r.blockHeight
  maxBlock : ∀ b ∈ i.maxBlock, r.blockHeight ≤ b
  replyToHash : ∀ h ∈ i.replyToHash, r.replyHash = some h
  unlocked : i.includeLocked = false → r.secretKey ≠ none

/-- The interest without the filters that are not truthy. -/
def truthy (i : Interest) : Interest :=
  { i with
    minBlock := i.minBlock.filter (· != 0)
    maxBlock := i.maxBlock.filter (· != 0)
    replyToHash := i.replyToHash.filter fun h => !h.isEmpty }

/-- The database and its driver take the arguments of the truthy filters. -/
structure Accepted (i : Interest) (sqlite : Sqlite) : Prop where
  few : i.publicKeys.length + i.truthy.minBlock.toList.length + i.truthy.maxBlock.toList.length +
    i.truthy.replyToHash.toList.length ≤ sqlite.maxVariableNumber
  minBlock : ∀ b ∈ i.truthy.minBlock, -2 ^ 63 ≤ b ∧ b < 2 ^ 63
  maxBlock : ∀ b ∈ i.truthy.maxBlock, -2 ^ 63 ≤ b ∧ b < 2 ^ 63

/-- The filters that are not truthy would not have excluded any squeak. -/
structure Harmless (i : Interest) (db : Db) : Prop where
  minBlock : i.minBlock = some 0 → ∀ r ∈ db.squeaks, i.truthy.Wants r → 0 ≤ r.blockHeight
  maxBlock : i.maxBlock = some 0 → ∀ r ∈ db.squeaks, i.truthy.Wants r → r.blockHeight ≤ 0
  replyToHash : i.replyToHash = some [] → ∀ r ∈ db.squeaks, i.truthy.Wants r → r.replyHash = some []

end Interest

/-! ## The order of the rows -/

/-- (block_height, time_s, hash), compared from left to right. -/
def rowKey (r : SqueakRow) : FeedKey := toLex (r.blockHeight, toLex (r.timeS, r.hash))

theorem newerOrSame_iff {a b : SqueakRow} : newerOrSame a b ↔ rowKey b ≤ rowKey a := by
  unfold newerOrSame rowKey
  rw [Prod.Lex.toLex_le_toLex, Prod.Lex.toLex_le_toLex, gt_iff_lt, gt_iff_lt, not_lt, eq_comm (a := a.blockHeight),
    eq_comm (a := a.timeS)]

/-- The hashes are those of exactly the squeaks that satisfy `p`, each once, with the newest first. -/
def ReturnsExactly (p : SqueakRow → Prop) (db : Db) (hashes : List Bytes) : Prop :=
  hashes.Nodup ∧ ∃ rows : List SqueakRow, hashes = rows.map SqueakRow.hash ∧
    rows.Pairwise (fun a b => rowKey b < rowKey a) ∧ ∀ r, r ∈ rows ↔ r ∈ db.squeaks ∧ p r

theorem ReturnsExactly.mem {p : SqueakRow → Prop} {db : Db} {hashes : List Bytes} (h : ReturnsExactly p db hashes)
    (hdb : UniqueOn SqueakRow.hash db.squeaks) {r : SqueakRow} (hr : r ∈ db.squeaks) : r.hash ∈ hashes ↔ p r := by
  obtain ⟨-, rows, rfl, -, hrows⟩ := h
  constructor
  · intro hmem
    obtain ⟨s, hs, heq⟩ := List.mem_map.1 hmem
    obtain ⟨hsdb, hp⟩ := (hrows s).1 hs
    rwa [hdb.eq hr hsdb heq.symm]
  · intro hp
    exact List.mem_map_of_mem ((hrows r).2 ⟨hr, hp⟩)

theorem ReturnsExactly.congr {p q : SqueakRow → Prop} {db : Db} {hashes : List Bytes}
    (h : ReturnsExactly p db hashes) (hpq : ∀ r ∈ db.squeaks, p r ↔ q r) : ReturnsExactly q db hashes := by
  obtain ⟨hnodup, rows, heq, hpairwise, hrows⟩ := h
  refine ⟨hnodup, rows, heq, hpairwise, fun r => (hrows r).trans ?_⟩
  exact and_congr_right fun hr => hpq r hr

/-- SELECT … WHERE … ORDER BY over a table with unique hashes. -/
theorem returnsExactly_sorted (p : SqueakRow → Bool) {db : Db} (hdb : UniqueOn SqueakRow.hash db.squeaks) :
    ReturnsExactly (fun r => p r = true) db
      (((db.squeaks.filter p).insertionSort newerOrSame).map SqueakRow.hash) := by
  have htotal : Std.Total newerOrSame := ⟨fun a b => by
    rw [newerOrSame_iff, newerOrSame_iff]
    exact le_total _ _⟩
  have htrans : IsTrans SqueakRow newerOrSame := ⟨fun a b c hab hbc => by
    rw [newerOrSame_iff] at hab hbc ⊢
    exact le_trans hbc hab⟩
  have hperm := List.perm_insertionSort newerOrSame (db.squeaks.filter p)
  have hhashes : (((db.squeaks.filter p).insertionSort newerOrSame).map SqueakRow.hash).Nodup := by
    rw [(hperm.map SqueakRow.hash).nodup_iff]
    exact hdb.sublist (List.filter_sublist.map _)
  refine ⟨hhashes, _, rfl, ?_, fun r => ?_⟩
  · have hsorted := List.pairwise_insertionSort newerOrSame (db.squeaks.filter p)
    refine (hsorted.and (List.pairwise_map.1 hhashes)).imp fun {a b} hab => ?_
    refine lt_of_le_of_ne (newerOrSame_iff.1 hab.1) fun heq => hab.2 ?_
    -- rows with the same key have the same hash
    exact congrArg (fun k : FeedKey => (ofLex (ofLex k).2).2) heq.symm
  · rw [hperm.mem_iff, List.mem_filter]

/-! ## The filters -/

theorem whenTruthy_eq_true {α : Type} {x : Option α} {truthy p : α → Bool} :
    whenTruthy x truthy p = true ↔ ∀ a ∈ x.filter truthy, p a = true := by
  cases x with
  | none => simp [whenTruthy]
  | some a => cases ht : truthy a <;> simp [whenTruthy, ht]

theorem whenTruthy_map {α β : Type} (f : α → β) (x : Option α) (truthy p : β → Bool) :
    whenTruthy (x.map f) truthy p = whenTruthy x (truthy ∘ f) (p ∘ f) := by
  cases x <;> rfl

namespace Interest

variable {sqlite : Sqlite} {i : Interest} {db : Db}

/-- What the query selects: the squeaks that satisfy the truthy filters. -/
theorem lookupRows_truthy (hdb : UniqueOn SqueakRow.hash db.squeaks) :
    ReturnsExactly i.truthy.Wants db ((lookupRows sqlite i.publicKeys (i.minBlock.map Bound.int)
      (i.maxBlock.map Bound.int) i.replyToHash i.includeLocked db).map SqueakRow.hash) := by
  refine (returnsExactly_sorted _ hdb).congr fun r _ => ?_
  simp only [Bool.and_eq_true, whenTruthy_map, whenTruthy_eq_true]
  constructor
  · rintro ⟨⟨⟨⟨hauthor, hmin⟩, hmax⟩, hreply⟩, hlocked⟩
    refine ⟨fun hne => ?_, fun b hb => ?_, fun b hb => ?_, fun h hh => ?_, fun hout => ?_⟩
    · rcases Bool.or_eq_true _ _ |>.mp hauthor with hempty | hmem
      · exact absurd (List.isEmpty_iff.1 hempty) hne
      · exact List.contains_iff_mem.1 hmem
    · exact of_decide_eq_true (hmin b hb)
    · exact of_decide_eq_true (hmax b hb)
    · exact eq_of_beq (hreply h hh)
    · have hfalse : i.includeLocked = false := hout
      rw [hfalse, Bool.false_or, Option.isSome_iff_ne_none] at hlocked
      exact hlocked
  · intro hw
    refine ⟨⟨⟨⟨?_, fun b hb => ?_⟩, fun b hb => ?_⟩, fun h hh => ?_⟩, ?_⟩
    · by_cases hne : i.publicKeys = []
      · simp [hne]
      · exact Bool.or_eq_true _ _ |>.mpr (.inr (List.contains_iff_mem.2 (hw.author hne)))
    · exact decide_eq_true (hw.minBlock b hb)
    · exact decide_eq_true (hw.maxBlock b hb)
    · exact beq_iff_eq.2 (hw.replyToHash h hh)
    · cases hlocked : i.includeLocked with
      | true => rfl
      | false => exact Option.isSome_iff_ne_none.2 (hw.unlocked hlocked)

theorem isBindable_iff {b : Int} : SqueakDb.isBindable b = true ↔ -2 ^ 63 ≤ b ∧ b < 2 ^ 63 := by
  unfold SqueakDb.isBindable
  rw [Bool.and_eq_true, decide_eq_true_iff, decide_eq_true_iff]

theorem length_filter_map {α β : Type} (f : α → β) (p : β → Bool) (x : Option α) :
    ((x.map f).filter p).toList.length = (x.filter (p ∘ f)).toList.length := by
  rcases x with _ | a
  · rfl
  · cases hp : p (f a) <;> simp [Option.filter, hp]

/-- The lookup answers if and only if its arguments are accepted. -/
theorem lookup_eq_ok {hashes : List Bytes} : i.lookup sqlite db = .ok hashes ↔ i.Accepted sqlite ∧
    hashes = (lookupRows sqlite i.publicKeys (i.minBlock.map Bound.int) (i.maxBlock.map Bound.int) i.replyToHash
      i.includeLocked db).map SqueakRow.hash := by
  have hvariables : lookupVariables i.publicKeys (i.minBlock.map Bound.int) (i.maxBlock.map Bound.int) i.replyToHash =
      i.publicKeys.length + i.truthy.minBlock.toList.length + i.truthy.maxBlock.toList.length +
        i.truthy.replyToHash.toList.length := by
    unfold lookupVariables
    rw [length_filter_map, length_filter_map]
    rfl
  have hbindable : (whenTruthy (i.minBlock.map Bound.int) Bound.truthy Bound.isBindable &&
      whenTruthy (i.maxBlock.map Bound.int) Bound.truthy Bound.isBindable) = true ↔
      (∀ b ∈ i.truthy.minBlock, -2 ^ 63 ≤ b ∧ b < 2 ^ 63) ∧ ∀ b ∈ i.truthy.maxBlock, -2 ^ 63 ≤ b ∧ b < 2 ^ 63 := by
    simp only [Bool.and_eq_true, whenTruthy_map, whenTruthy_eq_true, ← isBindable_iff]
    rfl
  unfold lookup lookupSqueaks
  rw [hvariables]
  constructor
  · intro h
    split at h
    · cases h
    · rename_i hfew
      split at h
      · rename_i hbound
        obtain ⟨hmin, hmax⟩ := hbindable.1 hbound
        exact ⟨⟨not_lt.1 hfew, hmin, hmax⟩, (Except.ok.inj h).symm⟩
      · cases h
  · rintro ⟨⟨hfew, hmin, hmax⟩, rfl⟩
    rw [if_neg (not_lt.2 hfew), if_pos (hbindable.2 ⟨hmin, hmax⟩)]

theorem Wants.truthy {r : SqueakRow} (h : i.Wants r) : i.truthy.Wants r where
  author := h.author
  minBlock b hb := h.minBlock b (Option.mem_filter_iff.1 hb).1
  maxBlock b hb := h.maxBlock b (Option.mem_filter_iff.1 hb).1
  replyToHash k hk := h.replyToHash k (Option.mem_filter_iff.1 hk).1
  unlocked := h.unlocked

theorem Harmless.wants (h : i.Harmless db) {r : SqueakRow} (hr : r ∈ db.squeaks) (hw : i.truthy.Wants r) :
    i.Wants r where
  author := hw.author
  minBlock b hb := by
    by_cases hzero : b = 0
    · rw [hzero] at hb ⊢
      exact h.minBlock hb r hr hw
    · exact hw.minBlock b (Option.mem_filter_iff.2 ⟨hb, bne_iff_ne.2 hzero⟩)
  maxBlock b hb := by
    by_cases hzero : b = 0
    · rw [hzero] at hb ⊢
      exact h.maxBlock hb r hr hw
    · exact hw.maxBlock b (Option.mem_filter_iff.2 ⟨hb, bne_iff_ne.2 hzero⟩)
  replyToHash k hk := by
    cases k with
    | nil => exact h.replyToHash hk r hr hw
    | cons byte bytes => exact hw.replyToHash _ (Option.mem_filter_iff.2 ⟨hk, rfl⟩)
  unlocked := hw.unlocked

end Interest

/-- The lookup returns exactly the requested squeaks if and only if its arguments are accepted, and a bound of 0 and
an empty reply hash would not have excluded any of the squeaks that the other filters let through. -/
theorem lookup_exact_iff (sqlite : Sqlite) (i : Interest) {db : Db} (hdb : UniqueOn SqueakRow.hash db.squeaks) :
    (∃ hashes, i.lookup sqlite db = .ok hashes ∧ ReturnsExactly i.Wants db hashes) ↔
      i.Accepted sqlite ∧ i.Harmless db := by
  constructor
  · rintro ⟨hashes, hlookup, h⟩
    obtain ⟨haccepted, rfl⟩ := Interest.lookup_eq_ok.1 hlookup
    have hwants : ∀ r ∈ db.squeaks, i.truthy.Wants r → i.Wants r := fun r hr hw =>
      (h.mem hdb hr).1 ((Interest.lookupRows_truthy hdb).mem hdb hr |>.2 hw)
    refine ⟨haccepted, fun hzero r hr hw => ?_, fun hzero r hr hw => ?_, fun hempty r hr hw => ?_⟩
    · exact (hwants r hr hw).minBlock 0 hzero
    · exact (hwants r hr hw).maxBlock 0 hzero
    · exact (hwants r hr hw).replyToHash [] hempty
  · rintro ⟨haccepted, h⟩
    refine ⟨_, Interest.lookup_eq_ok.2 ⟨haccepted, rfl⟩, ?_⟩
    exact (Interest.lookupRows_truthy hdb).congr fun r hr => ⟨h.wants hr, Interest.Wants.truthy⟩

end SqueakDb

namespace Sample

/-- All squeaks up to a height. -/
def upTo (maxBlock : Int) : SqueakDb.Interest := ⟨[], none, some maxBlock, none, true⟩

/-- The database of a node that holds one squeak, at height 7. -/
def shelf : Db := (owner [5] "x").db

end Sample

/-- At a node that holds a squeak at height 7, the request up to height 6 is answered exactly. -/
theorem lookup_exact_upTo : ∃ hashes, (Sample.upTo 6).lookup Sample.sqlite Sample.shelf = .ok hashes ∧
    SqueakDb.ReturnsExactly (Sample.upTo 6).Wants Sample.shelf hashes := by
  have hdb : UniqueOn SqueakRow.hash Sample.shelf.squeaks := List.nodup_singleton _
  have haccepted : (Sample.upTo 6).Accepted Sample.sqlite := by
    refine ⟨by decide, fun b hb => ?_, fun b hb => ?_⟩
    · cases hb
    · obtain rfl : 6 = b := Option.some.inj hb
      decide
  refine (SqueakDb.lookup_exact_iff _ _ hdb).2 ⟨haccepted, fun h => ?_, fun h => ?_, fun h => ?_⟩
  · cases h
  · exact absurd (Option.some.inj h) (by decide)
  · cases h

/-- The same node answers the request up to height 0 with the squeak at height 7. -/
theorem lookup_upTo_zero : UniqueOn SqueakRow.hash Sample.shelf.squeaks ∧
    ¬ ∃ hashes, (Sample.upTo 0).lookup Sample.sqlite Sample.shelf = .ok hashes ∧
      SqueakDb.ReturnsExactly (Sample.upTo 0).Wants Sample.shelf hashes := by
  have hdb : UniqueOn SqueakRow.hash Sample.shelf.squeaks := List.nodup_singleton _
  have hrow : Sample.unlockedRow [5] "x" ∈ Sample.shelf.squeaks := List.mem_singleton_self _
  refine ⟨hdb, ?_⟩
  rintro ⟨hashes, hlookup, h⟩
  have hserved : (Sample.upTo 0).lookup Sample.sqlite Sample.shelf = .ok [(Sample.unlockedRow [5] "x").hash] := by
    decide
  obtain rfl := Except.ok.inj (hserved.symm.trans hlookup)
  have hheight := ((h.mem hdb hrow).1 List.mem_cons_self).maxBlock 0 rfl
  exact absurd hheight (by decide)

end Squeaknode
