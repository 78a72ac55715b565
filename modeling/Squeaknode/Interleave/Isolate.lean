/-
Loops over programs that may raise. A loop ends with the first program that raises; the isolated
loop catches what a program raises and goes on with the next one. When the programs only ever add to
what is observed of the state, both loops end alike if and only if no program that raises stands
before one that adds something (`isolate_iff`).

A loop whose turns each concern a key of their own is taken apart turn by turn (`Turns`).
-/
import Squeaknode.Interleave.Prog

namespace Interleave

namespace Prog

variable {σ ω ε ι κ γ : Type}

/-- The loop that goes on after a program that raises. -/
def isolated (f : ι → Prog σ ω ε PUnit) (as : List ι) : Prog σ ω ε PUnit :=
  as.forM fun a => (f a).catchWith fun _ => ret ⟨⟩

/-- The program raises when it runs from `s`. -/
def Raises (p : Prog σ ω ε PUnit) (s : σ) : Prop := ∃ e, (p.run s).1 = .error e

/-- The state that the isolated loop leaves. -/
def after (f : ι → Prog σ ω ε PUnit) (as : List ι) (s : σ) : σ := ((isolated f as).run s).2

@[simp] theorem after_nil (f : ι → Prog σ ω ε PUnit) (s : σ) : after f [] s = s := rfl

@[simp] theorem after_cons (f : ι → Prog σ ω ε PUnit) (a : ι) (as : List ι) (s : σ) :
    after f (a :: as) s = after f as ((f a).run s).2 := by
  show ((((f a).catchWith fun _ => ret ⟨⟩) >>= fun _ => isolated f as).run s).2 = _
  rw [run_bind, run_catchWith]
  rcases (f a).run s with ⟨e | _, s'⟩ <;> rfl

theorem after_append (f : ι → Prog σ ω ε PUnit) (as bs : List ι) (s : σ) :
    after f (as ++ bs) s = after f bs (after f as s) := by
  induction as generalizing s with
  | nil => rfl
  | cons a as ih => rw [List.cons_append, after_cons, after_cons, ih]

theorem forM_of_raises {f : ι → Prog σ ω ε PUnit} {a : ι} {s : σ} (h : (f a).Raises s) (as : List ι) :
    (((a :: as).forM f).run s).2 = ((f a).run s).2 := by
  obtain ⟨e, he⟩ := h
  show ((f a >>= fun _ => as.forM f).run s).2 = _
  rw [run_bind]
  rcases hrun : (f a).run s with ⟨x, s'⟩
  rw [hrun] at he
  obtain rfl : x = .error e := he
  rfl

theorem forM_of_not_raises {f : ι → Prog σ ω ε PUnit} {a : ι} {s : σ} (h : ¬ (f a).Raises s) (as : List ι) :
    ((a :: as).forM f).run s = (as.forM f).run ((f a).run s).2 := by
  show (f a >>= fun _ => as.forM f).run s = _
  rw [run_bind]
  rcases hrun : (f a).run s with ⟨e | _, s'⟩
  · exact absurd ⟨e, by rw [hrun]⟩ h
  · rfl

/-- The programs add to what `out` shows of the state under some key, and take nothing away: `rank`
measures what is shown. -/
structure Adding (f : ι → Prog σ ω ε PUnit) (inv : σ → Prop) (out : σ → κ → γ) (rank : γ → Nat) (keyOf : ι → κ)
    (adds : ι → σ → Prop) : Prop where
  keeps : ∀ a s, inv s → inv ((f a).run s).2
  le : ∀ a s, inv s → ∀ k, rank (out s k) ≤ rank (out ((f a).run s).2 k)
  lt : ∀ a s, inv s → adds a s → rank (out s (keyOf a)) < rank (out ((f a).run s).2 (keyOf a))
  same : ∀ a s, inv s → ¬ adds a s → ∀ k, out ((f a).run s).2 k = out s k

section Adding

variable {f : ι → Prog σ ω ε PUnit} {inv : σ → Prop} {out : σ → κ → γ} {rank : γ → Nat} {keyOf : ι → κ}
  {adds : ι → σ → Prop}

theorem Adding.inv_after (h : Adding f inv out rank keyOf adds) {s : σ} (hs : inv s) (as : List ι) :
    inv (after f as s) := by
  induction as generalizing s with
  | nil => exact hs
  | cons a as ih =>
    rw [after_cons]
    exact ih (h.keeps a s hs)

theorem Adding.le_after (h : Adding f inv out rank keyOf adds) {s : σ} (hs : inv s) (as : List ι) (k : κ) :
    rank (out s k) ≤ rank (out (after f as s) k) := by
  induction as generalizing s with
  | nil => exact Nat.le_refl _
  | cons a as ih =>
    rw [after_cons]
    exact Nat.le_trans (h.le a s hs k) (ih (h.keeps a s hs))

/-- A loop none of whose programs adds anything shows what was shown before. -/
theorem Adding.same_after (h : Adding f inv out rank keyOf adds) {s : σ} (hs : inv s) {as : List ι}
    (hnot : ∀ pre b post, as = pre ++ b :: post → ¬ adds b (after f pre s)) (k : κ) :
    out (after f as s) k = out s k := by
  induction as generalizing s with
  | nil => rfl
  | cons a as ih =>
    have hfirst : ¬ adds a s := hnot [] a as rfl
    have hrest : ∀ pre b post, as = pre ++ b :: post → ¬ adds b (after f pre ((f a).run s).2) := by
      rintro pre b post rfl
      have hb := hnot (a :: pre) b post rfl
      rwa [after_cons] at hb
    rw [after_cons, ih (h.keeps a s hs) hrest, h.same a s hs hfirst]

/-- A loop with a program that adds something shows more under its key. -/
theorem Adding.lt_after (h : Adding f inv out rank keyOf adds) {s : σ} (hs : inv s) {pre : List ι} (post : List ι)
    {b : ι} (hb : adds b (after f pre s)) :
    rank (out s (keyOf b)) < rank (out (after f (pre ++ b :: post) s) (keyOf b)) := by
  have hpre := h.le_after hs pre (keyOf b)
  have hadd := h.lt b _ (h.inv_after hs pre) hb
  have hpost := h.le_after (h.keeps b _ (h.inv_after hs pre)) post (keyOf b)
  rw [after_append, after_cons]
  omega

/-- A program that adds something stands after one that raises. -/
def Lost (f : ι → Prog σ ω ε PUnit) (adds : ι → σ → Prop) (as : List ι) (s : σ) : Prop :=
  ∃ pre a mid b post, as = pre ++ a :: (mid ++ b :: post) ∧ (f a).Raises (after f pre s) ∧
    adds b (after f (pre ++ a :: mid) s)

/-- In the rest of the list, what was lost after the head. -/
theorem lost_cons_of_not_raises {a : ι} {as : List ι} {s : σ} (h : ¬ (f a).Raises s) :
    Lost f adds (a :: as) s ↔ Lost f adds as ((f a).run s).2 := by
  constructor
  · rintro ⟨pre, a', mid, b, post, has, hraise, hadds⟩
    rcases pre with _ | ⟨c, pre⟩
    · obtain ⟨rfl, rfl⟩ := List.cons.inj has
      exact absurd hraise h
    · obtain ⟨rfl, rfl⟩ := List.cons.inj has
      rw [after_cons] at hraise
      rw [List.cons_append, after_cons] at hadds
      exact ⟨pre, a', mid, b, post, rfl, hraise, hadds⟩
  · rintro ⟨pre, a', mid, b, post, rfl, hraise, hadds⟩
    refine ⟨a :: pre, a', mid, b, post, rfl, ?_, ?_⟩
    · rwa [after_cons]
    · rwa [List.cons_append, after_cons]

/-- After a head that raises, everything that the rest of the list adds is lost. -/
theorem lost_cons_of_raises {a : ι} {as : List ι} {s : σ} (h : (f a).Raises s) :
    Lost f adds (a :: as) s ↔ ∃ pre b post, as = pre ++ b :: post ∧ adds b (after f pre ((f a).run s).2) := by
  constructor
  · rintro ⟨pre, a', mid, b, post, has, -, hadds⟩
    -- `b` stands in the rest of the list, whichever program raised before it
    rcases pre with _ | ⟨c, pre⟩
    · obtain ⟨rfl, rfl⟩ := List.cons.inj has
      rw [List.nil_append, after_cons] at hadds
      exact ⟨mid, b, post, rfl, hadds⟩
    · obtain ⟨rfl, rfl⟩ := List.cons.inj has
      rw [List.cons_append, after_cons] at hadds
      exact ⟨pre ++ a' :: mid, b, post, by simp, hadds⟩
  · rintro ⟨pre, b, post, rfl, hadds⟩
    refine ⟨[], a, pre, b, post, rfl, h, ?_⟩
    rwa [List.nil_append, after_cons]

/-- The loop shows what the isolated loop shows if and only if nothing is added after a program that
raises. -/
theorem isolate_iff (h : Adding f inv out rank keyOf adds) {K : κ → Prop} {as : List ι} (hK : ∀ a ∈ as, K (keyOf a))
    {s : σ} (hs : inv s) : (∀ k, K k → out ((as.forM f).run s).2 k = out (after f as s) k) ↔ ¬ Lost f adds as s := by
  induction as generalizing s with
  | nil =>
    refine ⟨fun _ => ?_, fun _ _ _ => rfl⟩
    rintro ⟨pre, a, mid, b, post, has, -⟩
    simp at has
  | cons a as ih =>
    have hs' := h.keeps a s hs
    by_cases hraise : (f a).Raises s
    · rw [forM_of_raises hraise, after_cons, lost_cons_of_raises hraise]
      constructor
      · rintro hsame ⟨pre, b, post, rfl, hadds⟩
        have hlt := h.lt_after hs' post hadds
        rw [hsame (keyOf b) (hK b (by simp))] at hlt
        exact absurd hlt (Nat.lt_irrefl _)
      · intro hnot k _
        refine (h.same_after hs' ?_ k).symm
        rintro pre b post rfl hadds
        exact hnot ⟨pre, b, post, rfl, hadds⟩
    · rw [forM_of_not_raises hraise, after_cons, lost_cons_of_not_raises hraise]
      exact ih (fun b hb => hK b (List.mem_cons_of_mem a hb)) hs'

end Adding

/-! ## Turns with different keys -/

/-- A turn returns if and only if what is shown under its key is good, which `post` then relates to
what was shown there before; what is shown under any other key stays. The invariant `inv` also knows the
turns to come. -/
structure Turns (f : ι → Prog σ ω ε PUnit) (keyOf : ι → κ) (out : σ → κ → γ) (inv : List ι → σ → Prop)
    (good : ι → γ → Prop) (post : ι → γ → γ → Prop) : Prop where
  returns : ∀ a as s, keyOf a ∉ as.map keyOf → inv (a :: as) s → good a (out s (keyOf a)) →
    ∃ s', (f a).run s = (.ok ⟨⟩, s') ∧ inv as s' ∧ post a (out s (keyOf a)) (out s' (keyOf a)) ∧
      ∀ k, k ≠ keyOf a → out s' k = out s k
  raises : ∀ a as s, inv (a :: as) s → ¬ good a (out s (keyOf a)) → (f a).Raises s

section Turns

variable {f : ι → Prog σ ω ε PUnit} {keyOf : ι → κ} {out : σ → κ → γ} {inv : List ι → σ → Prop}
  {good : ι → γ → Prop} {post : ι → γ → γ → Prop}

/-- A loop whose turns are all good returns, and does to each key what its turn does. -/
theorem Turns.forM (h : Turns f keyOf out inv good post) {as : List ι} {s : σ} (hnodup : (as.map keyOf).Nodup)
    (hinv : inv as s) (hgood : ∀ a ∈ as, good a (out s (keyOf a))) :
    ∃ s', (as.forM f).run s = (.ok ⟨⟩, s') ∧ inv [] s' ∧ (∀ a ∈ as, post a (out s (keyOf a)) (out s' (keyOf a))) ∧
      ∀ k, k ∉ as.map keyOf → out s' k = out s k := by
  induction as generalizing s with
  | nil => exact ⟨s, rfl, hinv, by simp, fun _ _ => rfl⟩
  | cons a as ih =>
    obtain ⟨hnotin, hnodup⟩ := List.nodup_cons.1 hnodup
    obtain ⟨s₁, hrun, hinv₁, hpost, hother⟩ := h.returns a as s hnotin hinv (hgood a List.mem_cons_self)
    have hne : ∀ b ∈ as, keyOf b ≠ keyOf a := by
      rintro b hb heq
      exact hnotin (heq ▸ List.mem_map_of_mem hb)
    have hgood₁ : ∀ b ∈ as, good b (out s₁ (keyOf b)) := by
      intro b hb
      rw [hother _ (hne b hb)]
      exact hgood b (List.mem_cons_of_mem a hb)
    obtain ⟨s', hrun', hinv', hposts, hothers⟩ := ih hnodup hinv₁ hgood₁
    refine ⟨s', (run_bind_of_ok hrun).trans hrun', hinv', ?_, ?_⟩
    · intro b hb
      rcases List.mem_cons.1 hb with rfl | hb
      · rw [hothers _ hnotin]
        exact hpost
      · rw [← hother _ (hne b hb)]
        exact hposts b hb
    · intro k hk
      rw [List.map_cons, List.mem_cons, not_or] at hk
      rw [hothers k hk.2, hother k hk.1]

/-- A loop that returns has good turns only. -/
theorem Turns.good_of_ok (h : Turns f keyOf out inv good post) {as : List ι} {s : σ} (hnodup : (as.map keyOf).Nodup)
    (hinv : inv as s) (hok : ((as.forM f).run s).1 = .ok ⟨⟩) : ∀ a ∈ as, good a (out s (keyOf a)) := by
  induction as generalizing s with
  | nil => simp
  | cons a as ih =>
    obtain ⟨hnotin, hnodup⟩ := List.nodup_cons.1 hnodup
    have hhead : good a (out s (keyOf a)) := by
      by_contra hbad
      obtain ⟨e, he⟩ := h.raises a as s hinv hbad
      have herror : (((a :: as).forM f).run s).1 = .error e := by
        show ((f a >>= fun _ => as.forM f).run s).1 = _
        rw [run_bind]
        rcases hrun : (f a).run s with ⟨x, s'⟩
        rw [hrun] at he
        obtain rfl : x = .error e := he
        rfl
      rw [herror] at hok
      cases hok
    obtain ⟨s₁, hrun, hinv₁, -, hother⟩ := h.returns a as s hnotin hinv hhead
    have hrest : (((a :: as).forM f).run s).1 = ((as.forM f).run s₁).1 := congrArg Prod.fst (run_bind_of_ok hrun)
    rw [hrest] at hok
    intro b hb
    rcases List.mem_cons.1 hb with rfl | hb
    · exact hhead
    · have hne : keyOf b ≠ keyOf a := by
        intro heq
        exact hnotin (heq ▸ List.mem_map_of_mem hb)
      rw [← hother _ hne]
      exact ih hnodup hinv₁ hok b hb

end Turns

end Prog

end Interleave
