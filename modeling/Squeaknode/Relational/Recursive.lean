/-
Recursive queries: WITH RECURSIVE … UNION ALL. Each turn makes the next rows of the last ones, until
there are none; nothing in the query bounds the turns. Where the rows follow a partial function on a
finite table, without a cycle, they are a chain that ends.
-/
import Mathlib.Data.List.Chain
import Mathlib.Data.Set.Finite.Basic
import Mathlib.Order.WellFounded

namespace Relational

variable {α : Type}

/-! ## The rows of a recursive query -/

/-- The rows of all turns, the first ones first; `none` when `fuel` turns do not suffice. -/
def unionAll (recursive : List α → List α) : Nat → List α → Option (List α)
  | _, [] => some []
  | 0, _ :: _ => none
  | fuel + 1, row :: rows => (unionAll recursive fuel (recursive (row :: rows))).map (row :: rows ++ ·)

@[simp] theorem unionAll_nil (recursive : List α → List α) (fuel : Nat) : unionAll recursive fuel [] = some [] := by
  cases fuel <;> rfl

@[simp] theorem unionAll_cons (recursive : List α → List α) (fuel : Nat) (row : α) (rows : List α) :
    unionAll recursive (fuel + 1) (row :: rows) =
      (unionAll recursive fuel (recursive (row :: rows))).map (row :: rows ++ ·) := rfl

/-! ## Chains -/

/-- A row and those that `next` leads to from it, up to one that it leads nowhere from. -/
inductive MaximalChain (next : α → Option α) : Option α → List α → Prop
  | stop : MaximalChain next none []
  | follow {a : α} {as : List α} : MaximalChain next (next a) as → MaximalChain next (some a) (a :: as)

/-- `next` leads from `a` to `b`. -/
def LeadsTo (next : α → Option α) (a b : α) : Prop := next a = some b

variable {next : α → Option α} {start : Option α} {as : List α}

theorem MaximalChain.unique {bs : List α} (h : MaximalChain next start as) (h' : MaximalChain next start bs) :
    as = bs := by
  induction h generalizing bs with
  | stop =>
    cases h'
    rfl
  | follow _ ih =>
    cases h' with
    | follow h' => rw [ih h']

theorem MaximalChain.head (h : MaximalChain next start as) : as.head? = start := by
  cases h <;> rfl

theorem MaximalChain.isChain (h : MaximalChain next start as) : as.IsChain (LeadsTo next) := by
  induction h with
  | stop => exact .nil
  | @follow a as h ih =>
    refine ih.cons fun b hb => ?_
    rw [h.head] at hb
    exact hb

theorem MaximalChain.last (h : MaximalChain next start as) : ∀ a, as.getLast? = some a → next a = none := by
  induction h with
  | stop => exact fun a ha => by cases ha
  | @follow a as h ih =>
    intro b hb
    rcases List.eq_nil_or_concat as with rfl | ⟨init, c, rfl⟩
    · cases hb
      exact h.head.symm
    · refine ih b ?_
      rw [List.getLast?_cons] at hb
      simpa using hb

theorem maximalChain_of_isChain (hchain : as.IsChain (LeadsTo next))
    (hlast : ∀ a, as.getLast? = some a → next a = none) :
    MaximalChain next as.head? as := by
  induction as with
  | nil => exact .stop
  | cons a as ih =>
    refine .follow ?_
    cases as with
    | nil => exact (hlast a rfl).symm ▸ .stop
    | cons b as =>
      obtain ⟨hab, hrest⟩ := List.isChain_cons_cons.1 hchain
      have hnext : next a = some b := hab
      rw [hnext]
      exact ih hrest fun c hc => hlast c (by rw [List.getLast?_cons_cons]; exact hc)

theorem MaximalChain.subset {s : List α} (hs : ∀ a ∈ s, ∀ b, LeadsTo next a b → b ∈ s)
    (h : MaximalChain next start as) (hstart : ∀ a, start = some a → a ∈ s) : ∀ a ∈ as, a ∈ s := by
  induction h with
  | stop => exact fun a ha => by cases ha
  | @follow a as h ih =>
    have ha := hstart a rfl
    intro b hb
    rcases List.mem_cons.1 hb with rfl | hb
    · exact ha
    · exact ih (hs a ha) b hb

/-- No row of `s` is led back to itself. -/
def AcyclicOn (next : α → Option α) (s : List α) : Prop := ∀ a ∈ s, ¬ Relation.TransGen (LeadsTo next) a a

theorem MaximalChain.nodup {s : List α} (hacyclic : AcyclicOn next s) (h : MaximalChain next start as)
    (hsub : ∀ a ∈ as, a ∈ s) : as.Nodup := by
  have hpairwise : as.Pairwise (Relation.TransGen (LeadsTo next)) :=
    List.isChain_iff_pairwise.1 (h.isChain.imp fun _ _ => Relation.TransGen.single)
  refine hpairwise.imp_of_mem fun {a b} ha _ hab heq => ?_
  rw [← heq] at hab
  exact hacyclic a (hsub a ha) hab

/-- In a finite table without a cycle every chain has an end. -/
theorem exists_maximalChain {s : List α} (hs : ∀ a ∈ s, ∀ b, LeadsTo next a b → b ∈ s) (hacyclic : AcyclicOn next s)
    (hstart : ∀ a, start = some a → a ∈ s) : ∃ as, MaximalChain next start as := by
  -- the rows that a row leads to, however far, are smaller
  let smaller : {a // a ∈ s} → {a // a ∈ s} → Prop := fun b a => Relation.TransGen (LeadsTo next) a.1 b.1
  have hfinite : Finite {a // a ∈ s} := s.finite_toSet
  have htrans : IsTrans _ smaller := ⟨fun _ _ _ hcb hba => hba.trans hcb⟩
  have hirrefl : Std.Irrefl smaller := ⟨fun a => hacyclic a.1 a.2⟩
  have hwf : WellFounded smaller := Finite.wellFounded_of_trans_of_irrefl smaller
  have hfrom : ∀ a : {a // a ∈ s}, ∃ as, MaximalChain next (some a.1) as := by
    intro a
    induction a using hwf.induction with
    | _ a ih =>
      cases hnext : next a.1 with
      | none => exact ⟨[a.1], .follow (hnext ▸ .stop)⟩
      | some b =>
        obtain ⟨as, has⟩ := ih ⟨b, hs a.1 a.2 b hnext⟩ (.single hnext)
        exact ⟨a.1 :: as, .follow (hnext ▸ has)⟩
  cases start with
  | none => exact ⟨[], .stop⟩
  | some a => exact hfrom ⟨a, hstart a rfl⟩

end Relational
