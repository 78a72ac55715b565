/-
Reading a growing table by a resume index: the rows above an index in ascending order of a key,
where rows are only added, and only above those that are there. Who reads them one after the other and
keeps the key of the last one as index gets each row above the first index once (`ReadUpTo`).
-/
import Squeaknode.Relational.Keyset

namespace Relational

variable {α κ : Type} [LinearOrder κ]

/-- SELECT … WHERE index < key ORDER BY key ASC. -/
def selectAfter (key : α → κ) (index : κ) (rows : List α) : List α :=
  (rows.filter fun r => decide (index < key r)).insertionSort fun a b => key a ≤ key b

variable {key : α → κ} {start index : κ} {rows : List α}

/-! ## The rows above an index -/

theorem perm_selectAfter : (selectAfter key index rows).Perm (rows.filter fun r => decide (index < key r)) :=
  List.perm_insertionSort _ _

theorem mem_selectAfter {r : α} : r ∈ selectAfter key index rows ↔ r ∈ rows ∧ index < key r := by
  rw [perm_selectAfter.mem_iff, List.mem_filter, decide_eq_true_iff]

/-- Rows with different keys come in strictly ascending order. -/
theorem ascending_selectAfter (h : UniqueOn key rows) :
    (selectAfter key index rows).Pairwise fun a b => key a < key b := by
  have htotal : Std.Total fun a b : α => key a ≤ key b := ⟨fun a b => le_total (key a) (key b)⟩
  have htrans : IsTrans α fun a b => key a ≤ key b := ⟨fun _ _ _ hab hbc => le_trans hab hbc⟩
  have hsorted : (selectAfter key index rows).Pairwise fun a b => key a ≤ key b := List.pairwise_insertionSort _ _
  have hnodup : ((selectAfter key index rows).map key).Nodup :=
    ((perm_selectAfter.map key).nodup_iff).2 (h.sublist (List.filter_sublist.map key))
  refine (hsorted.and (List.pairwise_map.1 hnodup)).imp ?_
  rintro a b ⟨hle, hne⟩
  exact lt_of_le_of_ne hle hne

/-- They come in this order only. -/
theorem selectAfter_eq {ordered : List α} (hasc : ordered.Pairwise fun a b => key a < key b)
    (hmem : ordered.Perm (rows.filter fun r => decide (index < key r))) : selectAfter key index rows = ordered := by
  have htotal : Std.Total fun a b : α => key a ≤ key b := ⟨fun a b => le_total (key a) (key b)⟩
  have htrans : IsTrans α fun a b => key a ≤ key b := ⟨fun _ _ _ hab hbc => le_trans hab hbc⟩
  have hperm : (selectAfter key index rows).Perm ordered := perm_selectAfter.trans hmem.symm
  have hkeys : (ordered.map key).Nodup := List.pairwise_map.2 (hasc.imp fun hlt => hlt.ne)
  refine List.Perm.eq_of_pairwise (fun a b ha hb hab hba => ?_) (List.pairwise_insertionSort _ _) (hasc.imp le_of_lt) hperm
  exact List.inj_on_of_nodup_map hkeys (hperm.mem_iff.1 ha) hb (le_antisymm hab hba)

/-- A new row above all rows comes last, if it is above the index. -/
theorem selectAfter_append (h : UniqueOn key rows) {r : α} (hr : ∀ s ∈ rows, key s < key r) :
    selectAfter key index (rows ++ [r]) =
      selectAfter key index rows ++ [r].filter fun s => decide (index < key s) := by
  refine selectAfter_eq ?_ ?_
  · refine List.pairwise_append.2 ⟨ascending_selectAfter h, (List.pairwise_singleton _ _).filter _, ?_⟩
    intro a ha b hb
    rw [List.mem_singleton.1 (List.mem_of_mem_filter hb)]
    exact hr a (mem_selectAfter.1 ha).1
  · rw [List.filter_append]
    exact perm_selectAfter.append_right _

/-- The rows above the first of them are the others. -/
theorem selectAfter_head (h : UniqueOn key rows) {r : α} {rest : List α}
    (hrest : selectAfter key index rows = r :: rest) :
    selectAfter key (key r) rows = rest := by
  have hasc : (r :: rest).Pairwise fun a b => key a < key b := hrest ▸ ascending_selectAfter h
  obtain ⟨hhead, htail⟩ := List.pairwise_cons.1 hasc
  have hindex : index < key r := (mem_selectAfter.1 (hrest ▸ List.mem_cons_self)).2
  have hrows : (rows.filter fun s => decide (key r < key s)) =
      (rows.filter fun s => decide (index < key s)).filter fun s => decide (key r < key s) := by
    rw [List.filter_filter]
    refine List.filter_congr fun s _ => ?_
    by_cases hs : key r < key s
    · rw [decide_eq_true hs, decide_eq_true (hindex.trans hs)]
      rfl
    · rw [decide_eq_false hs]
      rfl
  have hfirst : ((r :: rest).filter fun s => decide (key r < key s)) = rest := by
    rw [List.filter_cons_of_neg (by simp), List.filter_eq_self]
    exact fun s hs => decide_eq_true (hhead s hs)
  refine selectAfter_eq htail ?_
  rw [hrows]
  have hselected : (selectAfter key index rows).Perm (rows.filter fun s => decide (index < key s)) := perm_selectAfter
  have hperm := hselected.filter fun s => decide (key r < key s)
  rw [hrest, hfirst] at hperm
  exact hperm

/-! ## What was read -/

/-- Of the rows above `start`, those in `read` were read, in order, and `index` is the key of the last
of them. -/
structure ReadUpTo (key : α → κ) (start : κ) (rows read : List α) (index : κ) : Prop where
  rest : selectAfter key start rows = read ++ selectAfter key index rows
  last : index = cursorAfter start (read.map key)

theorem ReadUpTo.init (key : α → κ) (start : κ) (rows : List α) : ReadUpTo key start rows [] start := ⟨rfl, rfl⟩

/-- Reading the first row above the index. -/
theorem ReadUpTo.next {read rest : List α} {r : α} (h : ReadUpTo key start rows read index)
    (hunique : UniqueOn key rows)
    (hrest : selectAfter key index rows = r :: rest) : ReadUpTo key start rows (read ++ [r]) (key r) := by
  constructor
  · rw [h.rest, hrest, selectAfter_head hunique hrest, List.append_assoc]
    rfl
  · unfold cursorAfter
    rw [List.map_append, List.getLast?_append]
    rfl

/-- A new row above all rows is still to be read, if it is to be read at all. -/
theorem ReadUpTo.append {read : List α} {r : α} (h : ReadUpTo key start rows read index) (hunique : UniqueOn key rows)
    (hr : ∀ s ∈ rows, key s < key r) : ReadUpTo key start (rows ++ [r]) read index := by
  refine ⟨?_, h.last⟩
  have hsame : start < key r ↔ index < key r := by
    rw [h.last]
    unfold cursorAfter
    rcases List.eq_nil_or_concat read with hread | ⟨before, last, hread⟩
    · rw [hread]
      exact Iff.rfl
    · rw [List.concat_eq_append] at hread
      have hlast : last ∈ selectAfter key start rows := by
        rw [h.rest, hread]
        simp
      obtain ⟨hmem, hstart⟩ := mem_selectAfter.1 hlast
      rw [hread, List.map_append, List.getLast?_append]
      exact ⟨fun _ => hr last hmem, fun _ => hstart.trans (hr last hmem)⟩
  rw [selectAfter_append hunique hr, selectAfter_append hunique hr, h.rest, List.append_assoc]
  congr 2
  exact List.filter_congr fun s hs => by rw [List.mem_singleton.1 hs, decide_eq_decide.2 hsame]

end Relational
