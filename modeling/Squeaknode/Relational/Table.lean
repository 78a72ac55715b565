/-
Tables of a relational database as lists of rows in insertion order: INSERT under a UNIQUE
constraint, UPDATE … WHERE, DELETE … WHERE and the lookup by a unique column, with the laws that
keep a unique column unique.
-/
import Mathlib.Data.List.Nodup
import Mathlib.Data.List.ProdSigma

namespace Relational

variable {α κ : Type}

/-- The column `key` has no value twice. -/
def UniqueOn (key : α → κ) (rows : List α) : Prop := (rows.map key).Nodup

/-- UPDATE of the rows that meet a condition. -/
def updateWhere (p : α → Bool) (f : α → α) (rows : List α) : List α :=
  rows.map fun r => if p r then f r else r

/-- DELETE of the rows that meet a condition. -/
def deleteWhere (p : α → Bool) (rows : List α) : List α :=
  rows.filter fun r => !p r

section Insert

variable [DecidableEq κ]

/-- A row has the value `k` in the column `key`. -/
def taken (key : α → κ) (k : κ) (rows : List α) : Bool := rows.any fun r => key r == k

/-- INSERT under a UNIQUE constraint on `key`; `false` and no change when it would be violated. -/
def insertUnique (key : α → κ) (row : α) (rows : List α) : Bool × List α :=
  if taken key (key row) rows then (false, rows) else (true, rows ++ [row])

/-- The first row with the value `k` in the column `key`. -/
def findBy (key : α → κ) (k : κ) (rows : List α) : Option α := rows.find? fun r => key r == k

theorem taken_iff {key : α → κ} {k : κ} {rows : List α} :
    taken key k rows = true ↔ ∃ r ∈ rows, key r = k := by
  simp [taken]

theorem taken_eq_false {key : α → κ} {k : κ} {rows : List α} :
    taken key k rows = false ↔ ∀ r ∈ rows, key r ≠ k := by
  simp [taken]

theorem insertUnique_of_taken {key : α → κ} {row : α} {rows : List α}
    (h : taken key (key row) rows = true) : insertUnique key row rows = (false, rows) := by
  simp [insertUnique, h]

theorem insertUnique_of_free {key : α → κ} {row : α} {rows : List α}
    (h : taken key (key row) rows = false) : insertUnique key row rows = (true, rows ++ [row]) := by
  simp [insertUnique, h]

theorem mem_insertUnique {key : α → κ} {row r : α} {rows : List α}
    (h : r ∈ (insertUnique key row rows).2) :
    r ∈ rows ∨ (r = row ∧ taken key (key row) rows = false) := by
  cases ht : taken key (key row) rows
  · rw [insertUnique_of_free ht] at h
    rcases List.mem_append.1 h with h | h
    · exact .inl h
    · exact .inr ⟨by simpa using h, rfl⟩
  · rw [insertUnique_of_taken ht] at h; exact .inl h

theorem uniqueOn_insertUnique {key : α → κ} (row : α) {rows : List α} (h : UniqueOn key rows) :
    UniqueOn key (insertUnique key row rows).2 := by
  cases ht : taken key (key row) rows
  · rw [insertUnique_of_free ht]
    unfold UniqueOn
    rw [List.map_append, List.nodup_append]
    refine ⟨h, by simp, ?_⟩
    rintro a ha b hb rfl
    obtain ⟨r, hr, rfl⟩ := List.mem_map.1 ha
    simp only [List.map_cons, List.map_nil, List.mem_singleton] at hb
    exact taken_eq_false.1 ht r hr hb
  · rw [insertUnique_of_taken ht]; exact h

/-! ## Lookup -/

theorem UniqueOn.append {key : α → κ} {rows : List α} {row : α} (h : UniqueOn key rows)
    (hfree : taken key (key row) rows = false) : UniqueOn key (rows ++ [row]) := by
  have hinsert := uniqueOn_insertUnique row h
  rwa [insertUnique_of_free hfree] at hinsert

theorem findBy_some {key : α → κ} {k : κ} {rows : List α} {r : α} (h : findBy key k rows = some r) :
    r ∈ rows ∧ key r = k :=
  ⟨List.mem_of_find?_eq_some h, by simpa using List.find?_some h⟩

theorem findBy_none {key : α → κ} {k : κ} {rows : List α} :
    findBy key k rows = none ↔ ∀ r ∈ rows, key r ≠ k := by
  simp [findBy]

end Insert

theorem UniqueOn.eq {key : α → κ} {rows : List α} (h : UniqueOn key rows) {r s : α} (hr : r ∈ rows)
    (hs : s ∈ rows) (hk : key r = key s) : r = s :=
  List.inj_on_of_nodup_map h hr hs hk

theorem findBy_eq_some [DecidableEq κ] {key : α → κ} {rows : List α} (h : UniqueOn key rows) {r : α}
    (hr : r ∈ rows) : findBy key (key r) rows = some r := by
  cases hf : findBy key (key r) rows with
  | none => exact absurd rfl (findBy_none.1 hf r hr)
  | some s =>
    obtain ⟨hs, hk⟩ := findBy_some hf
    rw [h.eq hs hr hk]

/-- Lookups in tables that are related row by row find related rows. -/
theorem findBy_forall₂ {β : Type} [DecidableEq κ] {S : α → β → Prop} {key : α → κ} {key' : β → κ}
    (hkey : ∀ r s, S r s → key' s = key r) {rows : List α} {rows' : List β} (h : List.Forall₂ S rows rows') (k : κ) :
    Option.Rel S (findBy key k rows) (findBy key' k rows') := by
  unfold findBy
  induction h with
  | nil => exact .none
  | @cons r s rows rows' hr _ ih =>
    rw [List.find?_cons, List.find?_cons, hkey r s hr]
    cases key r == k
    · exact ih
    · exact .some hr

/-- Lists whose items are related one by one have the same items up to the relation. -/
theorem forall₂_mem {α β : Type} {R : α → β → Prop} {as : List α} {bs : List β} (h : List.Forall₂ R as bs) :
    (∀ a ∈ as, ∃ b ∈ bs, R a b) ∧ ∀ b ∈ bs, ∃ a ∈ as, R a b := by
  induction h with
  | nil => exact ⟨fun a ha => (by cases ha), fun b hb => (by cases hb)⟩
  | @cons a b as bs hab _ ih =>
    refine ⟨fun a' ha' => ?_, fun b' hb' => ?_⟩
    · rcases List.mem_cons.1 ha' with rfl | ha'
      · exact ⟨b, List.mem_cons_self, hab⟩
      · obtain ⟨b', hb', hab'⟩ := ih.1 a' ha'
        exact ⟨b', List.mem_cons_of_mem _ hb', hab'⟩
    · rcases List.mem_cons.1 hb' with rfl | hb'
      · exact ⟨a, List.mem_cons_self, hab⟩
      · obtain ⟨a', ha', hab'⟩ := ih.2 b' hb'
        exact ⟨a', List.mem_cons_of_mem _ ha', hab'⟩

/-! ## Update and delete -/

theorem mem_updateWhere {p : α → Bool} {f : α → α} {rows : List α} {r : α} :
    r ∈ updateWhere p f rows ↔ ∃ s ∈ rows, r = if p s then f s else s := by
  simp only [updateWhere, List.mem_map, eq_comm]

theorem mem_deleteWhere {p : α → Bool} {rows : List α} {r : α} :
    r ∈ deleteWhere p rows ↔ r ∈ rows ∧ p r = false := by
  simp [deleteWhere]

@[simp] theorem length_updateWhere (p : α → Bool) (f : α → α) (rows : List α) :
    (updateWhere p f rows).length = rows.length := by simp [updateWhere]

theorem map_updateWhere {γ : Type} {g : α → γ} {p : α → Bool} {f : α → α} {rows : List α}
    (h : ∀ r, g (f r) = g r) : (updateWhere p f rows).map g = rows.map g := by
  simp only [updateWhere, List.map_map]
  refine List.map_congr_left fun r _ => ?_
  simp only [Function.comp]
  split
  · exact h r
  · rfl

theorem updateWhere_append (p : α → Bool) (f : α → α) (rows rows' : List α) :
    updateWhere p f (rows ++ rows') = updateWhere p f rows ++ updateWhere p f rows' := List.map_append

/-- An update changes nothing exactly when it changes none of the rows that meet its condition. -/
theorem updateWhere_eq_self_iff {p : α → Bool} {f : α → α} {rows : List α} :
    updateWhere p f rows = rows ↔ ∀ r ∈ rows, p r = true → f r = r := by
  have hmap : updateWhere p f rows = rows.map id ↔ ∀ r ∈ rows, (if p r then f r else r) = id r := List.map_inj_left
  rw [List.map_id] at hmap
  refine hmap.trans (forall₂_congr fun r _ => ?_)
  cases p r <;> simp

/-- An update whose condition no row meets changes nothing. -/
theorem updateWhere_eq_self {p : α → Bool} {f : α → α} {rows : List α} (h : ∀ r ∈ rows, p r = false) :
    updateWhere p f rows = rows :=
  updateWhere_eq_self_iff.2 fun r hr hp => absurd hp (Bool.eq_false_iff.1 (h r hr))

theorem updateWhere_updateWhere {p : α → Bool} {f g : α → α} (hp : ∀ r, p (f r) = p r) (rows : List α) :
    updateWhere p g (updateWhere p f rows) = updateWhere p (g ∘ f) rows := by
  unfold updateWhere
  rw [List.map_map]
  refine List.map_congr_left fun r _ => ?_
  simp only [Function.comp]
  cases hr : p r with
  | true => simp [hp, hr]
  | false => simp [hr]

/-- An update that keeps `key` is looked up by `key` as the updated row. -/
theorem findBy_updateWhere [DecidableEq κ] {key : α → κ} {p : α → Bool} {f : α → α} (hf : ∀ r, key (f r) = key r)
    (k : κ) (rows : List α) :
    findBy key k (updateWhere p f rows) = (findBy key k rows).map fun r => if p r then f r else r := by
  unfold findBy updateWhere
  rw [List.find?_map]
  have hsame : ((fun r => key r == k) ∘ fun r => if p r then f r else r) = fun r => key r == k := by
    funext r
    simp only [Function.comp]
    split
    · rw [hf]
    · rfl
  rw [hsame]

theorem uniqueOn_updateWhere {key : α → κ} {p : α → Bool} {f : α → α} {rows : List α}
    (hf : ∀ r, key (f r) = key r) (h : UniqueOn key rows) : UniqueOn key (updateWhere p f rows) := by
  unfold UniqueOn; rw [map_updateWhere hf]; exact h

/-- Giving one row a key that no other row has keeps the keys different. -/
theorem uniqueOn_updateWhere_one {ι : Type} {id : α → ι} {key : α → κ} {p : α → Bool} {f : α → α} {rows : List α} {i : ι}
    {k : κ} (hp : ∀ r, p r = true ↔ id r = i) (hf : ∀ r, key (f r) = k) (hids : UniqueOn id rows)
    (hfree : ∀ r ∈ rows, id r ≠ i → key r ≠ k) (h : UniqueOn key rows) : UniqueOn key (updateWhere p f rows) := by
  unfold UniqueOn updateWhere at *
  rw [List.map_map, List.Nodup, List.pairwise_map]
  rw [List.Nodup, List.pairwise_map] at hids h
  refine (hids.and h).imp_of_mem fun {a b} ha hb hab => ?_
  simp only [Function.comp]
  by_cases hpa : p a = true
  · have hpb : ¬ p b = true := fun hpb => hab.1 (((hp a).1 hpa).trans ((hp b).1 hpb).symm)
    rw [if_pos hpa, if_neg hpb, hf]
    exact (hfree b hb fun hi => hpb ((hp b).2 hi)).symm
  · rw [if_neg hpa]
    by_cases hpb : p b = true
    · rw [if_pos hpb, hf]
      exact hfree a ha fun hi => hpa ((hp a).2 hi)
    · rw [if_neg hpb]
      exact hab.2

theorem uniqueOn_deleteWhere {key : α → κ} {p : α → Bool} {rows : List α} (h : UniqueOn key rows) :
    UniqueOn key (deleteWhere p rows) :=
  h.sublist (List.Sublist.map key List.filter_sublist)

/-! ## Joins -/

section Join

variable {β : Type}

/-- rows JOIN others ON on. -/
def innerJoin (on : α → β → Bool) (rows : List α) (others : List β) : List (α × β) :=
  (rows ×ˢ others).filter fun x => on x.1 x.2

theorem mem_innerJoin {on : α → β → Bool} {rows : List α} {others : List β} {x : α × β} :
    x ∈ innerJoin on rows others ↔ (x.1 ∈ rows ∧ x.2 ∈ others) ∧ on x.1 x.2 = true := by
  unfold innerJoin
  rw [List.mem_filter]
  exact and_congr_left fun _ => List.mem_product

theorem nodup_innerJoin {on : α → β → Bool} {rows : List α} {others : List β} (hrows : rows.Nodup)
    (hothers : others.Nodup) : (innerJoin on rows others).Nodup :=
  (hrows.product hothers).filter _

@[simp] theorem innerJoin_nil (on : α → β → Bool) (rows : List α) : innerJoin on rows [] = [] := by
  unfold innerJoin
  rw [List.product_nil, List.filter_nil]

theorem innerJoin_singleton (on : α → β → Bool) (rows : List α) (o : β) :
    innerJoin on rows [o] = (rows.filter fun r => on r o).map fun r => (r, o) := by
  have hproduct : rows ×ˢ [o] = rows.map fun r => (r, o) := by
    show rows.flatMap (fun r => [(r, o)]) = _
    rw [List.map_eq_flatMap]
  unfold innerJoin
  rw [hproduct, List.filter_map]
  rfl

/-- The rows that match, or NULL when there are none. -/
def orNull : List β → List (Option β)
  | [] => [none]
  | o :: others => (o :: others).map some

/-- rows LEFT OUTER JOIN others ON on. -/
def leftOuterJoin (on : α → β → Bool) (rows : List α) (others : List β) : List (α × Option β) :=
  rows.flatMap fun r => (orNull (others.filter (on r))).map fun o => (r, o)

theorem length_filter_le_one {key : β → κ} {others : List β} (h : UniqueOn key others) {p : β → Bool} {k : κ}
    (hp : ∀ o, p o = true → key o = k) : (others.filter p).length ≤ 1 := by
  by_contra hlong
  have htwo : 1 < (others.filter p).length := by omega
  have hnodup : (others.filter p).Nodup := h.of_map.filter _
  have hzero := List.getElem_mem (l := others.filter p) (n := 0) (by omega)
  have hone := List.getElem_mem (l := others.filter p) (n := 1) htwo
  rw [List.mem_filter] at hzero hone
  have heq := h.eq hzero.1 hone.1 ((hp _ hzero.2).trans (hp _ hone.2).symm)
  have hindex := (hnodup.getElem_inj_iff).1 heq
  omega

theorem filter_eq_toList_find? {p : α → Bool} {rows : List α} (h : (rows.filter p).length ≤ 1) :
    rows.filter p = (rows.find? p).toList := by
  rw [← List.head?_filter]
  cases hf : rows.filter p with
  | nil => rfl
  | cons r rest =>
    rw [hf, List.length_cons] at h
    have hnil : rest = [] := List.eq_nil_of_length_eq_zero (by omega)
    rw [hnil]
    rfl

/-- A join in which every row matches at most one other row keeps the rows as they are. -/
theorem leftOuterJoin_eq_map {on : α → β → Bool} {rows : List α} {others : List β}
    (h : ∀ r ∈ rows, (others.filter (on r)).length ≤ 1) :
    leftOuterJoin on rows others = rows.map fun r => (r, others.find? (on r)) := by
  unfold leftOuterJoin
  rw [List.map_eq_flatMap]
  refine List.flatMap_congr fun r hr => ?_
  rw [filter_eq_toList_find? (h r hr)]
  cases others.find? (on r) <;> rfl

end Join

/-! ## Tables with an automatic key -/

/-- A table whose rows get an automatically incremented key: its rows and the last key issued. -/
structure Table (α : Type) where
  rows : List α
  lastId : Nat

namespace Table

/-- A table without rows. -/
def empty : Table α := ⟨[], 0⟩

/-- INSERT of the row made with the next key under a UNIQUE constraint on `key`: the new key, or
`none` and no change when the constraint would be violated. -/
def insert [DecidableEq κ] (key : α → κ) (mk : Nat → α) (t : Table α) : Option Nat × Table α :=
  if taken key (key (mk (t.lastId + 1))) t.rows then (none, t)
  else (some (t.lastId + 1), ⟨t.rows ++ [mk (t.lastId + 1)], t.lastId + 1⟩)

/-- UPDATE of the rows that meet a condition. -/
def update (p : α → Bool) (f : α → α) (t : Table α) : Table α := { t with rows := updateWhere p f t.rows }

/-- DELETE of the rows that meet a condition. -/
def delete (p : α → Bool) (t : Table α) : Table α := { t with rows := deleteWhere p t.rows }

@[simp] theorem update_rows (p : α → Bool) (f : α → α) (t : Table α) :
    (t.update p f).rows = updateWhere p f t.rows := rfl
@[simp] theorem delete_rows (p : α → Bool) (t : Table α) :
    (t.delete p).rows = deleteWhere p t.rows := rfl

theorem update_ne_self_iff {p : α → Bool} {f : α → α} {t : Table α} :
    t.update p f ≠ t ↔ ∃ r ∈ t.rows, p r = true ∧ f r ≠ r := by
  have hrows : t.update p f = t ↔ updateWhere p f t.rows = t.rows :=
    ⟨congrArg rows, fun h => congrArg (Table.mk · t.lastId) h⟩
  rw [Ne, hrows, updateWhere_eq_self_iff]
  simp

theorem delete_ne_self_iff {p : α → Bool} {t : Table α} : t.delete p ≠ t ↔ ∃ r ∈ t.rows, p r = true := by
  have hrows : t.delete p = t ↔ deleteWhere p t.rows = t.rows :=
    ⟨congrArg rows, fun h => congrArg (Table.mk · t.lastId) h⟩
  rw [Ne, hrows, deleteWhere, List.filter_eq_self]
  simp

variable [DecidableEq κ]

theorem insert_of_taken {key : α → κ} {mk : Nat → α} {t : Table α}
    (h : taken key (key (mk (t.lastId + 1))) t.rows = true) : t.insert key mk = (none, t) := by
  simp [insert, h]

theorem insert_of_free {key : α → κ} {mk : Nat → α} {t : Table α}
    (h : taken key (key (mk (t.lastId + 1))) t.rows = false) :
    t.insert key mk = (some (t.lastId + 1), ⟨t.rows ++ [mk (t.lastId + 1)], t.lastId + 1⟩) := by
  simp [insert, h]

/-- INSERT adds the row made with the next key, or nothing. -/
theorem rows_insert (key : α → κ) (mk : Nat → α) (t : Table α) :
    (t.insert key mk).2.rows = t.rows ∨ (t.insert key mk).2.rows = t.rows ++ [mk (t.lastId + 1)] := by
  unfold insert
  split
  · exact .inl rfl
  · exact .inr rfl

/-- The rows of a table only grow by INSERT. -/
theorem prefix_insert (key : α → κ) (mk : Nat → α) (t : Table α) : t.rows <+: (t.insert key mk).2.rows := by
  rcases rows_insert key mk t with h | h
  · exact ⟨[], by rw [List.append_nil, h]⟩
  · exact ⟨[mk (t.lastId + 1)], h.symm⟩

theorem mem_insert {key : α → κ} {mk : Nat → α} {t : Table α} {r : α} (h : r ∈ (t.insert key mk).2.rows) :
    r ∈ t.rows ∨ ∃ id, r = mk id := by
  rcases rows_insert key mk t with hrows | hrows <;> rw [hrows] at h
  · exact .inl h
  · rcases List.mem_append.1 h with h | h
    · exact .inl h
    · exact .inr ⟨_, List.mem_singleton.1 h⟩

theorem uniqueOn_insert {key : α → κ} {mk : Nat → α} {t : Table α} (h : UniqueOn key t.rows) :
    UniqueOn key (t.insert key mk).2.rows := by
  have hu : UniqueOn key (insertUnique key (mk (t.lastId + 1)) t.rows).2 := uniqueOn_insertUnique _ h
  cases ht : taken key (key (mk (t.lastId + 1))) t.rows
  · rw [insertUnique_of_free ht] at hu
    rw [insert_of_free ht]; exact hu
  · rw [insert_of_taken ht]; exact h

/-- The key of every row was issued by the table. -/
def Issued (id : α → Nat) (t : Table α) : Prop := ∀ r ∈ t.rows, id r ≤ t.lastId

/-- A row that was inserted is found by its new key. -/
theorem findBy_insert {id : α → Nat} {key : α → κ} (mk : Nat → α) {t : Table α} (ht : t.Issued id)
    (hmk : ∀ n, id (mk n) = n) (hfree : taken key (key (mk (t.lastId + 1))) t.rows = false) :
    findBy id (t.lastId + 1) (t.insert key mk).2.rows = some (mk (t.lastId + 1)) := by
  have hnone : findBy id (t.lastId + 1) t.rows = none := by
    refine findBy_none.2 fun r hr heq => ?_
    have hle := ht r hr
    omega
  unfold findBy at hnone ⊢
  rw [insert_of_free hfree, List.find?_append, hnone]
  simp [hmk]

/-- The rows have different keys, which the table issued. -/
structure Numbered (id : α → Nat) (t : Table α) : Prop where
  unique : UniqueOn id t.rows
  issued : t.Issued id
  positive : ∀ r ∈ t.rows, 0 < id r

/-- The key `k` was issued, and the row that has it, if it is still there, has `c` in the column `col`. -/
structure Pinned {γ : Type} (id : α → Nat) (col : α → γ) (k : Nat) (c : γ) (t : Table α) : Prop where
  issued : k ≤ t.lastId
  column : ∀ r ∈ t.rows, id r = k → col r = c

section Numbered

variable {γ : Type} {id : α → Nat} {col : α → γ} {k : Nat} {c : γ} {key : α → κ} {t : Table α}

theorem Numbered.insert (h : t.Numbered id) {mk : Nat → α} (hmk : ∀ n, id (mk n) = n) :
    (t.insert key mk).2.Numbered id := by
  unfold Table.insert
  split
  · exact h
  · refine ⟨?_, fun r hr => ?_, fun r hr => ?_⟩
    · unfold UniqueOn
      rw [List.map_append, List.nodup_append]
      refine ⟨h.unique, List.nodup_singleton _, ?_⟩
      intro n hn m hm heq
      obtain ⟨r, hr, rfl⟩ := List.mem_map.1 hn
      rw [List.map_singleton, List.mem_singleton, hmk] at hm
      have hle := h.issued r hr
      omega
    · rcases List.mem_append.1 hr with hr | hr
      · exact Nat.le_succ_of_le (h.issued r hr)
      · have hnew : id r = t.lastId + 1 := by rw [List.mem_singleton.1 hr, hmk]
        exact Nat.le_of_eq hnew
    · rcases List.mem_append.1 hr with hr | hr
      · exact h.positive r hr
      · rw [List.mem_singleton.1 hr, hmk]
        exact Nat.succ_pos _

omit [DecidableEq κ] in
theorem Numbered.update (h : t.Numbered id) {p : α → Bool} {f : α → α} (hf : ∀ r, id (f r) = id r) :
    (t.update p f).Numbered id := by
  have hmem : ∀ r ∈ updateWhere p f t.rows, ∃ s ∈ t.rows, id r = id s := by
    intro r hr
    obtain ⟨s, hs, rfl⟩ := mem_updateWhere.1 hr
    exact ⟨s, hs, by split <;> simp [hf]⟩
  refine ⟨uniqueOn_updateWhere hf h.unique, fun r hr => ?_, fun r hr => ?_⟩
  · obtain ⟨s, hs, heq⟩ := hmem r hr
    rw [heq]
    exact h.issued s hs
  · obtain ⟨s, hs, heq⟩ := hmem r hr
    rw [heq]
    exact h.positive s hs

omit [DecidableEq κ] in
theorem Numbered.delete (h : t.Numbered id) (p : α → Bool) : (t.delete p).Numbered id :=
  ⟨uniqueOn_deleteWhere h.unique, fun r hr => h.issued r (mem_deleteWhere.1 hr).1,
    fun r hr => h.positive r (mem_deleteWhere.1 hr).1⟩

omit [DecidableEq κ] in
/-- A row that is there pins its column to its key. -/
theorem Numbered.pinned (h : t.Numbered id) (col : α → γ) {r : α} (hr : r ∈ t.rows) :
    t.Pinned id col (id r) (col r) :=
  ⟨h.issued r hr, fun _ hs heq => congrArg col (h.unique.eq hs hr heq)⟩

/-- A new row has a key that was not issued before. -/
theorem Pinned.insert (h : t.Pinned id col k c) {mk : Nat → α} (hmk : ∀ n, id (mk n) = n) :
    (t.insert key mk).2.Pinned id col k c := by
  unfold Table.insert
  split
  · exact h
  · refine ⟨Nat.le_succ_of_le h.issued, fun r hr heq => ?_⟩
    rcases List.mem_append.1 hr with hr | hr
    · exact h.column r hr heq
    · rw [List.mem_singleton.1 hr, hmk] at heq
      have hle := h.issued
      omega

omit [DecidableEq κ] in
theorem Pinned.update (h : t.Pinned id col k c) {p : α → Bool} {f : α → α} (hid : ∀ r, id (f r) = id r)
    (hcol : ∀ r, col (f r) = col r) : (t.update p f).Pinned id col k c := by
  refine ⟨h.issued, fun r hr heq => ?_⟩
  obtain ⟨s, hs, rfl⟩ := mem_updateWhere.1 hr
  split at heq
  · rename_i hp
    rw [if_pos hp, hcol]
    exact h.column s hs ((hid s).symm.trans heq)
  · rename_i hp
    rw [if_neg hp]
    exact h.column s hs heq

omit [DecidableEq κ] in
theorem Pinned.delete (h : t.Pinned id col k c) (p : α → Bool) : (t.delete p).Pinned id col k c :=
  ⟨h.issued, fun r hr heq => h.column r (mem_deleteWhere.1 hr).1 heq⟩

end Numbered

end Table

end Relational
