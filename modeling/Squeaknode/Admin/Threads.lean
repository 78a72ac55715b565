/-
The thread above a squeak. One recursive query collects the hash that it is asked for and then the hashes
that squeaks reply to, each with its depth; the last of them may be NULL or the hash of no squeak, and is
dropped by the join with the squeaks.
-/
import Squeaknode.Admin.Feeds
import Squeaknode.Relational.Recursive

namespace Squeaknode

open Relational SqueakDb

namespace SqueakDb

/-! ## The query -/

/-- A row of the recursive query. -/
structure AncestorRow where
  hash : Option Bytes
  depth : Nat
  deriving DecidableEq, Repr

/-- The row has the hash of this squeak: NULL equals no hash. -/
def isAncestor (r : SqueakRow) (a : AncestorRow) : Bool := a.hash == some r.hash

/-- The recursive part: what the squeaks of these rows reply to. -/
def repliedTo (squeaks : List SqueakRow) (ancestors : List AncestorRow) : List AncestorRow :=
  (innerJoin isAncestor squeaks ancestors).map fun x => ⟨x.1.replyHash, x.2.depth + 1⟩

/-- The rows of the recursive query from a squeak on; `none` when the fuel runs out. -/
def ancestors (fuel : Nat) (squeakHash : Bytes) (squeaks : List SqueakRow) : Option (List AncestorRow) :=
  unionAll (repliedTo squeaks) fuel ((squeaks.filter fun r => r.hash == squeakHash).map fun r => ⟨some r.hash, 0⟩)

/-- The squeaks of the ancestors with their profiles, and their depths. -/
def joinAncestors (db : Db) (ancestors : List AncestorRow) : List (JoinedRow × Nat) :=
  (leftOuterJoin (fun x p => isRecipient x.1.1 p)
    (leftOuterJoin (fun x p => isAuthor x.1 p) (innerJoin isAncestor db.squeaks ancestors) db.profiles.rows)
    db.profiles.rows).map fun x => (⟨x.1.1.1, x.1.2, x.2⟩, x.1.1.2.depth)

/-- `none` when `fuel` turns of the recursive query do not suffice. -/
def getThreadAncestorSqueakEntries (L : Squeaklib) (fuel : Nat) (squeakHash : Bytes) (db : Db) :
    Option (Except Err (List (SqueakEntry L))) :=
  (ancestors fuel squeakHash db.squeaks).map fun rows =>
    ((orderByDesc Prod.snd (joinAncestors db rows)).map Prod.fst).mapM (parseSqueakEntry L)

/-! ## Threads -/

/-- The thread of stored squeaks that ends with the squeak of this hash: each replies to the one before
it, and the first replies to none that is stored. -/
structure IsThread (squeaks : List SqueakRow) (squeakHash : Bytes) (thread : List SqueakRow) : Prop where
  stored : ∀ r ∈ thread, r ∈ squeaks
  newest : thread.getLast? = findBy SqueakRow.hash squeakHash squeaks
  linked : thread.IsChain fun older r => r.replyHash = some older.hash
  oldest : ∀ r, thread.head? = some r → ∀ s ∈ squeaks, r.replyHash ≠ some s.hash
  once : thread.Nodup

/-- The squeak with a hash that may be NULL. -/
def withHash (squeaks : List SqueakRow) (hash : Option Bytes) : Option SqueakRow :=
  squeaks.find? fun s => hash == some s.hash

/-- The squeak that a squeak replies to, if it is stored. -/
def replied (squeaks : List SqueakRow) (r : SqueakRow) : Option SqueakRow := withHash squeaks r.replyHash

/-- No squeak replies, through any number of stored squeaks, to itself. -/
def AcyclicReplies (squeaks : List SqueakRow) : Prop :=
  ∀ r ∈ squeaks, ¬ Relation.TransGen (fun r s => s ∈ squeaks ∧ r.replyHash = some s.hash) r r

section Threads

variable {squeaks : List SqueakRow} {hash : Option Bytes} {r : SqueakRow}

theorem withHash_some (h : withHash squeaks hash = some r) : r ∈ squeaks ∧ hash = some r.hash := by
  have hfound : squeaks.find? (fun s => hash == some s.hash) = some r := h
  have hhash := List.find?_some hfound
  exact ⟨List.mem_of_find?_eq_some hfound, eq_of_beq hhash⟩

theorem withHash_none (h : withHash squeaks hash = none) : ∀ s ∈ squeaks, hash ≠ some s.hash := by
  intro s hs heq
  exact absurd (beq_iff_eq.2 heq) (by simpa using List.find?_eq_none.1 h s hs)

theorem withHash_eq (hu : UniqueOn SqueakRow.hash squeaks) (hr : r ∈ squeaks) (h : hash = some r.hash) :
    withHash squeaks hash = some r := by
  cases hfound : withHash squeaks hash with
  | none => exact absurd h (withHash_none hfound r hr)
  | some s =>
    obtain ⟨hs, hhash⟩ := withHash_some hfound
    rw [hu.eq hs hr (Option.some.inj (hhash.symm.trans h))]

theorem withHash_findBy (squeakHash : Bytes) :
    withHash squeaks (some squeakHash) = findBy SqueakRow.hash squeakHash squeaks := by
  unfold withHash findBy
  congr 1
  funext s
  by_cases heq : s.hash = squeakHash
  · simp [heq]
  · simp [heq, Ne.symm heq]

theorem AcyclicReplies.acyclicOn (h : AcyclicReplies squeaks) : AcyclicOn (replied squeaks) squeaks := by
  intro r hr hcycle
  exact h r hr (hcycle.lift id fun r s hs => withHash_some hs)

/-- Where a squeak ranks above the squeak that it replies to there is no cycle. -/
theorem acyclicReplies_of_rank {β : Type} [Preorder β] (rank : SqueakRow → β)
    (h : ∀ r ∈ squeaks, ∀ s ∈ squeaks, r.replyHash = some s.hash → rank s < rank r) : AcyclicReplies squeaks := by
  intro r hr hcycle
  have hless : ∀ s, Relation.TransGen (fun r s => s ∈ squeaks ∧ r.replyHash = some s.hash) r s →
      s ∈ squeaks ∧ rank s < rank r := by
    intro s hs
    induction hs with
    | single hstep => exact ⟨hstep.1, h r hr _ hstep.1 hstep.2⟩
    | tail _ hstep ih => exact ⟨hstep.1, (h _ ih.1 _ hstep.1 hstep.2).trans ih.2⟩
  exact lt_irrefl _ (hless r hcycle).2

/-- A thread is the chain of replies from its newest squeak, read from the end. -/
theorem isThread_iff (hu : UniqueOn SqueakRow.hash squeaks) (hacyclic : AcyclicReplies squeaks) {squeakHash : Bytes}
    {thread : List SqueakRow} :
    IsThread squeaks squeakHash thread ↔
      MaximalChain (replied squeaks) (withHash squeaks (some squeakHash)) thread.reverse := by
  constructor
  · intro h
    have hstart : withHash squeaks (some squeakHash) = thread.reverse.head? := by
      rw [withHash_findBy, ← h.newest, List.head?_reverse]
    rw [hstart]
    refine maximalChain_of_isChain ?_ ?_
    · rw [List.isChain_reverse]
      exact h.linked.imp_of_mem_imp fun older r holder _ hreplies => withHash_eq hu (h.stored older holder) hreplies
    · intro r hr
      rw [List.getLast?_reverse] at hr
      exact List.find?_eq_none.2 fun s hs => by simpa using h.oldest r hr s hs
  · intro h
    have hsub : ∀ r ∈ thread.reverse, r ∈ squeaks :=
      h.subset (fun r _ s hs => (withHash_some hs).1) fun r hr => (withHash_some hr).1
    refine ⟨fun r hr => hsub r (List.mem_reverse.2 hr), ?_, ?_, ?_, ?_⟩
    · rw [← withHash_findBy, ← h.head, List.head?_reverse]
    · have hchain := h.isChain
      rw [List.isChain_reverse] at hchain
      exact hchain.imp fun older r hr => (withHash_some hr).2
    · intro r hr
      refine withHash_none (h.last r ?_)
      rw [List.getLast?_reverse]
      exact hr
    · exact List.nodup_reverse.1 (h.nodup hacyclic.acyclicOn hsub)

/-! ## What the recursive query collects -/

/-- The rows for a hash and the squeaks of its chain: one row more than there are squeaks. -/
def links : Nat → Option Bytes → List SqueakRow → List AncestorRow
  | depth, hash, [] => [⟨hash, depth⟩]
  | depth, hash, r :: older => ⟨hash, depth⟩ :: links (depth + 1) r.replyHash older

/-- The squeaks of a chain, each with its row. -/
def placed : Nat → List SqueakRow → List (SqueakRow × AncestorRow)
  | _, [] => []
  | depth, r :: older => (r, ⟨some r.hash, depth⟩) :: placed (depth + 1) older

theorem map_placed (depth : Nat) (chain : List SqueakRow) : (placed depth chain).map Prod.fst = chain := by
  induction chain generalizing depth with
  | nil => rfl
  | cons r older ih => exact congrArg (r :: ·) (ih (depth + 1))

theorem repliedTo_singleton (hu : UniqueOn SqueakRow.hash squeaks) (hash : Option Bytes) (depth : Nat) :
    repliedTo squeaks [⟨hash, depth⟩] =
      ((withHash squeaks hash).map fun r => (⟨r.replyHash, depth + 1⟩ : AncestorRow)).toList := by
  have hle : (squeaks.filter fun r => isAncestor r ⟨hash, depth⟩).length ≤ 1 := by
    cases hash with
    | none => simp [isAncestor]
    | some k => exact length_filter_le_one hu fun r hr => (Option.some.inj (eq_of_beq hr)).symm
  unfold repliedTo
  rw [innerJoin_singleton, filter_eq_toList_find? hle, List.map_map]
  show List.map _ (withHash squeaks hash).toList = _
  cases withHash squeaks hash <;> rfl

/-- The query ends with the chain, one turn after its last squeak. -/
theorem unionAll_links (hu : UniqueOn SqueakRow.hash squeaks) {chain : List SqueakRow} {fuel : Nat} (depth : Nat)
    (h : MaximalChain (replied squeaks) (withHash squeaks hash) chain) (hfuel : chain.length < fuel) :
    unionAll (repliedTo squeaks) fuel [⟨hash, depth⟩] = some (links depth hash chain) := by
  induction chain generalizing hash depth fuel with
  | nil =>
    obtain ⟨fuel, rfl⟩ := Nat.exists_eq_succ_of_ne_zero (Nat.ne_of_gt hfuel)
    have hnone : withHash squeaks hash = none := h.head.symm
    rw [unionAll_cons, repliedTo_singleton hu, hnone, Option.map_none, Option.toList_none, unionAll_nil]
    rfl
  | cons r older ih =>
    obtain ⟨fuel, rfl⟩ := Nat.exists_eq_succ_of_ne_zero (Nat.ne_of_gt (Nat.zero_lt_of_lt hfuel))
    have hsome : withHash squeaks hash = some r := h.head.symm
    rw [hsome] at h
    cases h with
    | follow hrest =>
      rw [unionAll_cons, repliedTo_singleton hu, hsome, Option.map_some, Option.toList_some,
        ih (depth + 1) hrest (Nat.lt_of_succ_lt_succ hfuel)]
      rfl

theorem links_depth {depth : Nat} {hash : Option Bytes} {chain : List SqueakRow} :
    (∀ a ∈ links depth hash chain, depth ≤ a.depth) ∧
      (links depth hash chain).Pairwise fun a b => a.depth < b.depth := by
  induction chain generalizing depth hash with
  | nil => exact ⟨fun a ha => by rw [List.mem_singleton.1 ha], List.pairwise_singleton _ _⟩
  | cons r older ih =>
    obtain ⟨hle, hpairwise⟩ : (∀ a ∈ links (depth + 1) r.replyHash older, depth + 1 ≤ a.depth) ∧ _ := ih
    constructor
    · intro a ha
      rcases List.mem_cons.1 ha with rfl | ha
      · exact le_rfl
      · exact (Nat.le_succ depth).trans (hle a ha)
    · exact List.pairwise_cons.2 ⟨fun a ha => hle a ha, hpairwise⟩

theorem placed_depth {depth : Nat} {chain : List SqueakRow} :
    (∀ x ∈ placed depth chain, depth ≤ x.2.depth) ∧
      (placed depth chain).Pairwise fun x y => x.2.depth < y.2.depth := by
  induction chain generalizing depth with
  | nil => exact ⟨fun x hx => by (cases hx), .nil⟩
  | cons r older ih =>
    obtain ⟨hle, hpairwise⟩ : (∀ x ∈ placed (depth + 1) older, depth + 1 ≤ x.2.depth) ∧ _ := ih
    constructor
    · intro x hx
      rcases List.mem_cons.1 hx with rfl | hx
      · exact le_rfl
      · exact (Nat.le_succ depth).trans (hle x hx)
    · exact List.pairwise_cons.2 ⟨fun x hx => hle x hx, hpairwise⟩

/-- The join with the squeaks drops the last row of the query. -/
theorem mem_join_links (hu : UniqueOn SqueakRow.hash squeaks) {chain : List SqueakRow} (depth : Nat)
    (h : MaximalChain (replied squeaks) (withHash squeaks hash) chain) (x : SqueakRow × AncestorRow) :
    x ∈ innerJoin isAncestor squeaks (links depth hash chain) ↔ x ∈ placed depth chain := by
  obtain ⟨s, a⟩ := x
  have hon : isAncestor s a = true ↔ a.hash = some s.hash := beq_iff_eq
  rw [mem_innerJoin, hon]
  induction chain generalizing hash depth with
  | nil =>
    have hnone := withHash_none h.head.symm
    refine iff_of_false ?_ List.not_mem_nil
    rintro ⟨⟨hs, ha⟩, heq⟩
    obtain rfl : a = ⟨hash, depth⟩ := List.mem_singleton.1 ha
    exact hnone s hs heq
  | cons r older ih =>
    have hsome : withHash squeaks hash = some r := h.head.symm
    obtain ⟨hr, hhash⟩ := withHash_some hsome
    rw [hsome] at h
    cases h with
    | follow hrest =>
      have hrows := ih (depth + 1) hrest
      constructor
      · rintro ⟨⟨hs, ha⟩, heq⟩
        rcases List.mem_cons.1 ha with rfl | ha
        · have hsame : s = r := hu.eq hs hr (Option.some.inj (heq.symm.trans hhash))
          rw [hsame, hhash]
          exact List.mem_cons_self ..
        · exact List.mem_cons_of_mem _ (hrows.1 ⟨⟨hs, ha⟩, heq⟩)
      · intro hx
        rcases List.mem_cons.1 hx with heq | hx
        · cases heq
          exact ⟨⟨hr, hhash ▸ List.mem_cons_self ..⟩, rfl⟩
        · obtain ⟨⟨hs, ha⟩, heq⟩ := hrows.2 hx
          exact ⟨⟨hs, List.mem_cons_of_mem _ ha⟩, heq⟩

end Threads

/-! ## The thread of a squeak -/

section Result

variable {db : Db}

/-- Public keys of profiles are unique, so that the outer joins neither drop nor repeat a link. -/
theorem joinAncestors_eq (h : UniqueOn ProfileRow.publicKey db.profiles.rows) (rows : List AncestorRow) :
    joinAncestors db rows =
      (innerJoin isAncestor db.squeaks rows).map fun x => (joined db.profiles.rows x.1, x.2.depth) := by
  have hauthor : leftOuterJoin (fun (x : SqueakRow × AncestorRow) p => isAuthor x.1 p)
      (innerJoin isAncestor db.squeaks rows) db.profiles.rows =
        (innerJoin isAncestor db.squeaks rows).map fun x => (x, db.profiles.rows.find? (isAuthor x.1)) :=
    leftOuterJoin_eq_map fun x _ => length_filter_le_one h fun _ => publicKey_of_isAuthor
  unfold joinAncestors
  rw [leftOuterJoin_eq_map fun x _ => length_filter_isRecipient h x.1.1, hauthor, List.map_map, List.map_map]
  rfl

theorem ordered_links (hsqueaks : UniqueOn SqueakRow.hash db.squeaks)
    (hprofiles : UniqueOn ProfileRow.publicKey db.profiles.rows) {hash : Option Bytes} {chain : List SqueakRow}
    (h : MaximalChain (replied db.squeaks) (withHash db.squeaks hash) chain) :
    (orderByDesc Prod.snd (joinAncestors db (links 0 hash chain))).map Prod.fst =
      chain.reverse.map (joined db.profiles.rows) := by
  let row : SqueakRow × AncestorRow → JoinedRow × Nat := fun x => (joined db.profiles.rows x.1, x.2.depth)
  have hperm : (placed 0 chain).Perm (innerJoin isAncestor db.squeaks (links 0 hash chain)) := by
    refine (List.perm_ext_iff_of_nodup ?_ ?_).2 fun x => (mem_join_links hsqueaks 0 h x).symm
    · exact placed_depth.2.imp fun hlt heq => absurd hlt (by rw [heq]; exact Nat.lt_irrefl _)
    · exact nodup_innerJoin hsqueaks.of_map
        (links_depth.2.imp fun hlt heq => absurd hlt (by rw [heq]; exact Nat.lt_irrefl _))
  have horder : orderByDesc Prod.snd (joinAncestors db (links 0 hash chain)) = ((placed 0 chain).map row).reverse := by
    refine orderByDesc_eq ?_ ?_
    · rw [joinAncestors_eq hprofiles]
      exact (List.reverse_perm _).trans (hperm.map row)
    · rw [List.pairwise_reverse]
      exact List.pairwise_map.2 placed_depth.2
  rw [horder, List.map_reverse, List.map_map, List.map_reverse]
  conv_rhs => rw [← map_placed 0 chain, List.map_map]
  rfl

/-- The recursive query ends, and the result is the thread of the squeak. -/
theorem getThread_eq (L : Squeaklib) (hsqueaks : UniqueOn SqueakRow.hash db.squeaks)
    (hprofiles : UniqueOn ProfileRow.publicKey db.profiles.rows) {squeakHash : Bytes} {chain : List SqueakRow}
    (h : MaximalChain (replied db.squeaks) (withHash db.squeaks (some squeakHash)) chain) {fuel : Nat}
    (hfuel : chain.length < fuel) :
    getThreadAncestorSqueakEntries L fuel squeakHash db =
      some (chain.reverse.mapM fun r => parseSqueakEntry L (joined db.profiles.rows r)) := by
  have hstart : db.squeaks.filter (fun r => r.hash == squeakHash) = (withHash db.squeaks (some squeakHash)).toList := by
    have hle : (db.squeaks.filter fun r => r.hash == squeakHash).length ≤ 1 :=
      length_filter_le_one hsqueaks fun _ => eq_of_beq
    rw [filter_eq_toList_find? hle, withHash_findBy]
    simp only [findBy, beq_eq_decide]
  unfold getThreadAncestorSqueakEntries ancestors
  rw [hstart]
  cases hfound : withHash db.squeaks (some squeakHash) with
  | none =>
    -- without a first row there is no second
    rw [hfound] at h
    cases h
    rw [Option.toList_none, List.map_nil, unionAll_nil, Option.map_some, joinAncestors_eq hprofiles, innerJoin_nil]
    rfl
  | some r =>
    obtain ⟨-, hhash⟩ := withHash_some hfound
    rw [Option.toList_some, List.map_singleton, ← hhash, unionAll_links hsqueaks 0 h hfuel, Option.map_some,
      ordered_links hsqueaks hprofiles h, List.mapM_map]
    rfl

/-- Where the replies have no cycle: the recursive query ends within one turn more than there are squeaks, and
the entries are those of the one thread of the squeak, its oldest squeak first, whatever the profiles are. -/
theorem thread_exact (L : Squeaklib) (hsqueaks : UniqueOn SqueakRow.hash db.squeaks)
    (hprofiles : UniqueOn ProfileRow.publicKey db.profiles.rows) (hacyclic : AcyclicReplies db.squeaks)
    (squeakHash : Bytes) :
    ∃ thread, (∀ rows, IsThread db.squeaks squeakHash rows ↔ rows = thread) ∧
      (findSqueak squeakHash db = none → thread = []) ∧
      (∀ fuel, db.squeaks.length < fuel → getThreadAncestorSqueakEntries L fuel squeakHash db =
        some (thread.mapM fun r => parseSqueakEntry L (joined db.profiles.rows r))) ∧
      (L.CodecLaws → Listed L db → ∃ entries, thread.mapM (fun r => parseSqueakEntry L (joined db.profiles.rows r)) =
      .ok entries ∧
        entries.map SqueakEntry.squeakHash = thread.map SqueakRow.hash) := by
  obtain ⟨chain, hchain⟩ : ∃ chain, MaximalChain (replied db.squeaks) (withHash db.squeaks (some squeakHash)) chain :=
    exists_maximalChain (fun r _ s hs => (withHash_some hs).1) hacyclic.acyclicOn fun r hr => (withHash_some hr).1
  have hsub : ∀ r ∈ chain, r ∈ db.squeaks :=
    hchain.subset (fun r _ s hs => (withHash_some hs).1) fun r hr => (withHash_some hr).1
  have hnodup := hchain.nodup hacyclic.acyclicOn hsub
  refine ⟨chain.reverse, fun rows => ?_, fun hmissing => ?_, fun fuel hfuel => ?_, fun hL hlisted => ?_⟩
  · rw [isThread_iff hsqueaks hacyclic, List.reverse_eq_iff.symm]
    constructor
    · exact fun h => h.unique hchain
    · rintro rfl
      exact hchain
  · have hnone : withHash db.squeaks (some squeakHash) = none := (withHash_findBy squeakHash).trans hmissing
    rw [hnone] at hchain
    cases hchain
    rfl
  · exact getThread_eq L hsqueaks hprofiles hchain ((hnodup.subperm hsub).length_le.trans_lt hfuel)
  · have hparsed : ∀ r ∈ chain.reverse, ∃ e : SqueakEntry L,
      parseSqueakEntry L (joined db.profiles.rows r) = .ok e := by
      intro r hr
      have hrow : joined db.profiles.rows r ∈ joinProfiles db := by
        rw [joinProfiles_eq hprofiles]
        exact List.mem_map_of_mem (hsub r (List.mem_reverse.1 hr))
      obtain ⟨e, he, -⟩ := parseSqueakEntry_total hL hlisted hrow
      exact ⟨e, he⟩
    obtain ⟨entries, hentries⟩ := mapM_total hparsed
    refine ⟨entries, hentries, map_eq_map_of_mapM (fun r e he => ?_) hentries⟩
    exact (parseSqueakEntry_ok he).2.2.1

end Result

end SqueakDb

namespace Sample

/-- A squeak of author 1 that replies to another. -/
def reply (hash replyHash : Bytes) (height : Int) : SqueakRow :=
  { unlockedRow (scalarToBytes 5) "x" with hash := hash, replyHash := some replyHash, blockHeight := height }

/-- The squeak 2 replies to 1, and 3 and 4 reply to 2; what 1 replies to is not stored. -/
def forum : Db :=
  { Db.empty with
    squeaks := [reply [3] [2] 12, reply [1] [9] 10, reply [4] [2] 13, reply [2] [1] 11]
    profiles := ⟨[⟨1, 0, "author", some [1], [1], true, none⟩], 1⟩ }

end Sample

theorem thread_exact_sample :
    IsThread Sample.forum.squeaks [3] [Sample.reply [1] [9] 10, Sample.reply [2] [1] 11, Sample.reply [3] [2] 12] ∧
      (getThreadAncestorSqueakEntries Sample.squeaklib 5 [3] Sample.forum).map
        (Except.map (List.map SqueakEntry.squeakHash)) = some (.ok [[1], [2], [3]]) := by
  have hsqueaks : UniqueOn SqueakRow.hash Sample.forum.squeaks := by unfold UniqueOn; decide
  have hacyclic : AcyclicReplies Sample.forum.squeaks := acyclicReplies_of_rank SqueakRow.blockHeight (by decide)
  have hthread : IsThread Sample.forum.squeaks [3]
      [Sample.reply [1] [9] 10, Sample.reply [2] [1] 11, Sample.reply [3] [2] 12] := by
    refine ⟨by decide, rfl, by decide, ?_, by decide⟩
    rintro r hr
    cases hr
    decide
  obtain ⟨thread, hiff, -, hruns, -⟩ := thread_exact Sample.squeaklib hsqueaks (List.nodup_singleton _) hacyclic [3]
  obtain rfl := (hiff _).1 hthread
  refine ⟨hthread, ?_⟩
  rw [hruns 5 (by decide)]
  rfl

end Squeaknode
