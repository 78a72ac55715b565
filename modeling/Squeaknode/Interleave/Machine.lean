/-
State machines: a step function that says which state an action leads to, if the action is possible
at all, and the runs of the machine with the actions they took; and threads that are kept in a list.
-/
import Mathlib.Tactic.Common

universe u v

namespace Interleave

namespace Machine

variable {σ : Type u} {α : Type v}

/-- A run from `s₀`: each state it left with the action that it took there, and the state it is in. -/
inductive Run (step : α → σ → Option σ) (s₀ : σ) : List (σ × α) → σ → Prop
  | init : Run step s₀ [] s₀
  | next {history : List (σ × α)} {s s' : σ} {a : α} :
      Run step s₀ history s → step a s = some s' → Run step s₀ (history ++ [(s, a)]) s'

/-- The states that a run was in. -/
def states (history : List (σ × α)) (s : σ) : List σ := history.map Prod.fst ++ [s]

section Run

variable {step : α → σ → Option σ} {s₀ s : σ} {history : List (σ × α)}

/-- What holds at the start and is preserved by the actions that meet a condition holds throughout a
run all of whose actions meet it. -/
theorem Run.invariant {I : σ → Prop} {C : σ → α → Prop}
    (hstep : ∀ s a s', I s → C s a → step a s = some s' → I s') (hr : Run step s₀ history s) (h₀ : I s₀)
    (hC : ∀ x ∈ history, C x.1 x.2) : ∀ t ∈ states history s, I t := by
  induction hr with
  | init =>
    intro t ht
    rw [List.mem_singleton.1 ht]
    exact h₀
  | @next history s s' a hr ha ih =>
    have hbefore := ih fun x hx => hC x (List.mem_append_left _ hx)
    have hs : I s := hbefore s (List.mem_append_right _ List.mem_cons_self)
    intro t ht
    rcases List.mem_append.1 ht with ht | ht
    · rw [List.map_append] at ht
      exact hbefore t ht
    · rw [List.mem_singleton.1 ht]
      exact hstep s a s' hs (hC _ (List.mem_append_right _ List.mem_cons_self)) ha

/-- What holds at the start and is preserved by exactly the actions that meet a condition holds throughout a
run if and only if all of its actions meet it. -/
theorem Run.invariant_iff {I : σ → Prop} {C : σ → α → Prop}
    (hstep : ∀ s a s', I s → step a s = some s' → (I s' ↔ C s a)) (hr : Run step s₀ history s) (h₀ : I s₀) :
    (∀ t ∈ states history s, I t) ↔ ∀ x ∈ history, C x.1 x.2 := by
  constructor
  · intro h
    induction hr with
    | init => exact fun x hx => (by cases hx)
    | @next history s s' a hr ha ih =>
      have hbefore : ∀ t ∈ states history s, I t := by
        intro t ht
        refine h t ?_
        rw [states, List.map_append]
        exact List.mem_append_left _ ht
      have hs : I s := hbefore s (List.mem_append_right _ List.mem_cons_self)
      have hs' : I s' := h s' (List.mem_append_right _ List.mem_cons_self)
      intro x hx
      rcases List.mem_append.1 hx with hx | hx
      · exact ih hbefore x hx
      · rw [List.mem_singleton.1 hx]
        exact (hstep s a s' hs ha).1 hs'
  · exact hr.invariant (fun s a s' hs hC ha => (hstep s a s' hs ha).2 hC) h₀

/-- What the actions that meet a condition preserve, and what each of them does to the states, if that adds up
along a run. -/
theorem Run.preserves {I : σ → Prop} {R : σ → σ → Prop} {C : σ → α → Prop} (hrefl : R s₀ s₀)
    (htrans : ∀ s s', R s₀ s → R s s' → R s₀ s')
    (hstep : ∀ s a s', I s → C s a → step a s = some s' → I s' ∧ R s s') (hr : Run step s₀ history s) (h₀ : I s₀)
    (hC : ∀ x ∈ history, C x.1 x.2) : I s ∧ R s₀ s := by
  induction hr with
  | init => exact ⟨h₀, hrefl⟩
  | @next history s s' a hr ha ih =>
    obtain ⟨hs, hR⟩ := ih fun x hx => hC x (List.mem_append_left _ hx)
    obtain ⟨hs', hR'⟩ := hstep s a s' hs (hC _ (List.mem_append_right _ List.mem_cons_self)) ha
    exact ⟨hs', htrans s s' hR hR'⟩

/-- The state that an action of a run led to is one of its states. -/
theorem Run.after (hr : Run step s₀ history s) {t : σ} {a : α} (h : (t, a) ∈ history) :
    ∃ t' ∈ states history s, step a t = some t' := by
  induction hr with
  | init => cases h
  | @next history s s' b hr hb ih =>
    rcases List.mem_append.1 h with h | h
    · obtain ⟨t', ht', hstep⟩ := ih h
      refine ⟨t', ?_, hstep⟩
      rw [states, List.map_append]
      exact List.mem_append_left _ ht'
    · cases List.mem_singleton.1 h
      exact ⟨s', List.mem_append_right _ List.mem_cons_self, hb⟩

/-- A run after one of its actions is a run from the state that the action led to. -/
theorem Run.rest {before after : List (σ × α)} {t : σ} {a : α} (hr : Run step s₀ history s)
    (h : history = before ++ (t, a) :: after) :
    Run step s₀ before t ∧ ∃ t', step a t = some t' ∧ Run step t' after s := by
  induction hr generalizing after with
  | init => exact absurd h.symm (by simp)
  | @next history s s' b hr hb ih =>
    rcases List.eq_nil_or_concat after with rfl | ⟨after, x, rfl⟩
    · obtain ⟨rfl, heq⟩ := List.append_inj' h rfl
      cases heq
      exact ⟨hr, s', hb, .init⟩
    · rw [List.concat_eq_append, ← List.cons_append, ← List.append_assoc] at h
      obtain ⟨hhistory, heq⟩ := List.append_inj' h rfl
      cases heq
      obtain ⟨hbefore, t', ht', hafter⟩ := ih hhistory
      refine ⟨hbefore, t', ht', ?_⟩
      rw [List.concat_eq_append]
      exact hafter.next hb

end Run

/-- The run that takes the actions in a list. -/
def exec (step : α → σ → Option σ) : List α → σ → Option (List (σ × α) × σ)
  | [], s => some ([], s)
  | a :: as, s => (step a s).bind fun s' => (exec step as s').map fun r => ((s, a) :: r.1, r.2)

theorem Run.prepend {step : α → σ → Option σ} {s₀ s₁ s : σ} {a : α} {history : List (σ × α)}
    (h : step a s₀ = some s₁) (hr : Run step s₁ history s) : Run step s₀ ((s₀, a) :: history) s := by
  induction hr with
  | init => exact .next .init h
  | next hr hb ih => exact .next ih hb

theorem run_exec {step : α → σ → Option σ} {as : List α} {s₀ s : σ} {history : List (σ × α)}
    (h : exec step as s₀ = some (history, s)) : Run step s₀ history s := by
  induction as generalizing s₀ history with
  | nil =>
    cases h
    exact .init
  | cons a as ih =>
    obtain ⟨s₁, hs₁, hrest⟩ := Option.bind_eq_some_iff.1 h
    obtain ⟨r, hr, heq⟩ := Option.map_eq_some_iff.1 hrest
    cases heq
    exact .prepend hs₁ (ih hr)

theorem actions_exec {step : α → σ → Option σ} {as : List α} {s₀ s : σ} {history : List (σ × α)}
    (h : exec step as s₀ = some (history, s)) : history.map Prod.snd = as := by
  induction as generalizing s₀ history with
  | nil =>
    cases h
    rfl
  | cons a as ih =>
    obtain ⟨s₁, -, hrest⟩ := Option.bind_eq_some_iff.1 h
    obtain ⟨r, hr, heq⟩ := Option.map_eq_some_iff.1 hrest
    cases heq
    rw [List.map_cons, ih hr]

/-- A run is the one that takes its actions. -/
theorem Run.exec_eq {step : α → σ → Option σ} {s₀ s : σ} {history : List (σ × α)} (hr : Run step s₀ history s) :
    exec step (history.map Prod.snd) s₀ = some (history, s) := by
  induction hr with
  | init => rfl
  | @next history s s' a hr ha ih =>
    have happend : ∀ (as : List α) (t : σ) (r : List (σ × α) × σ), exec step as t = some r →
        exec step (as ++ [a]) t = (step a r.2).map fun s' => (r.1 ++ [(r.2, a)], s') := by
      intro as
      induction as with
      | nil =>
        intro t r h
        cases h
        cases hstep : step a t <;> simp [exec, hstep]
      | cons b as ih =>
        intro t r h
        obtain ⟨t', ht', hrest⟩ := Option.bind_eq_some_iff.1 h
        obtain ⟨q, hq, rfl⟩ := Option.map_eq_some_iff.1 hrest
        show ((step b t).bind fun s' => (exec step (as ++ [a]) s').map _) = _
        rw [ht', Option.bind_some, ih t' q hq]
        cases hstep : step a q.2 <;> simp
    rw [List.map_append, List.map_singleton, happend _ _ _ ih, ha]
    rfl

/-- A machine each of whose actions is matched by at most one action of another machine: its runs are
matched by runs of the other, with actions that meet the condition under which they match. -/
theorem Run.simulates {τ : Type u} {β : Type v} {step : α → σ → Option σ} {step' : β → τ → Option τ} {R : σ → τ → Prop}
    {C : τ → β → Prop}
    (hstep : ∀ s t a s', R s t → step a s = some s' → R s' t ∨ ∃ b t', C t b ∧ step' b t = some t' ∧ R s' t')
    {s₀ s : σ} {t₀ : τ} {history : List (σ × α)} (hr : Run step s₀ history s) (h₀ : R s₀ t₀) :
    ∃ (history' : List (τ × β)) (t : τ), Run step' t₀ history' t ∧ R s t ∧ ∀ x ∈ history', C x.1 x.2 := by
  induction hr with
  | init => exact ⟨[], t₀, .init, h₀, fun x hx => (by cases hx)⟩
  | @next history s s' a hr ha ih =>
    obtain ⟨history', t, hr', hR, hC⟩ := ih
    rcases hstep s t a s' hR ha with hsame | ⟨b, t', hb, hstep', hR'⟩
    · exact ⟨history', t, hr', hsame, hC⟩
    · refine ⟨history' ++ [(t, b)], t', hr'.next hstep', hR', fun x hx => ?_⟩
      rcases List.mem_append.1 hx with hx | hx
      · exact hC x hx
      · rw [List.mem_singleton.1 hx]
        exact hb

section Threads

variable {τ : Type u}

/-- A thread of a list in which one thread was replaced. -/
theorem getElem?_set_cases {threads : List τ} {i j : Nat} {t t' : τ}
    (h : (threads.set i t)[j]? = some t') :
    (j = i ∧ t' = t) ∨ (j ≠ i ∧ threads[j]? = some t') := by
  rw [List.getElem?_set] at h
  split at h
  · rename_i hij
    split at h
    · exact .inl ⟨hij.symm, (Option.some.inj h).symm⟩
    · cases h
  · rename_i hij
    exact .inr ⟨fun heq => hij heq.symm, h⟩

/-- A thread of a list to which one thread was added. -/
theorem getElem?_concat_cases {threads : List τ} {j : Nat} {t t' : τ}
    (h : (threads ++ [t])[j]? = some t') :
    (j = threads.length ∧ t' = t) ∨ (j < threads.length ∧ threads[j]? = some t') := by
  by_cases hlt : j < threads.length
  · rw [List.getElem?_append_left hlt] at h
    exact .inr ⟨hlt, h⟩
  · have hlen := (List.getElem?_eq_some_iff.1 h).1
    rw [List.length_append, List.length_singleton] at hlen
    obtain rfl : j = threads.length := by omega
    rw [List.getElem?_concat_length] at h
    exact .inl ⟨rfl, (Option.some.inj h).symm⟩

/-- Every thread is still there, as it may have become. -/
def Evolved (R : τ → τ → Prop) (threads threads' : List τ) : Prop :=
  ∀ (i : Nat) (t : τ), threads[i]? = some t → ∃ t', threads'[i]? = some t' ∧ R t t'

section Evolved

variable {R : τ → τ → Prop} {threads threads' threads'' : List τ}

theorem Evolved.refl (hrefl : ∀ t ∈ threads, R t t) : Evolved R threads threads :=
  fun _ t hget => ⟨t, hget, hrefl t (List.mem_of_getElem? hget)⟩

theorem Evolved.trans (htrans : ∀ t t' t'', R t t' → R t' t'' → R t t'') (h : Evolved R threads threads')
    (h' : Evolved R threads' threads'') : Evolved R threads threads'' := by
  intro i t hget
  obtain ⟨t', hget', ht⟩ := h i t hget
  obtain ⟨t'', hget'', ht'⟩ := h' i t' hget'
  exact ⟨t'', hget'', htrans t t' t'' ht ht'⟩

theorem Evolved.set (hrefl : ∀ t ∈ threads, R t t) {i : Nat} {t t' : τ} (hget : threads[i]? = some t) (ht : R t t') :
    Evolved R threads (threads.set i t') := by
  intro j u hu
  by_cases heq : i = j
  · subst heq
    rw [hget] at hu
    cases hu
    exact ⟨t', List.getElem?_set_self (List.getElem?_eq_some_iff.1 hget).1, ht⟩
  · rw [List.getElem?_set_ne heq]
    exact ⟨u, hu, hrefl u (List.mem_of_getElem? hu)⟩

theorem Evolved.concat (hrefl : ∀ t ∈ threads, R t t) (t : τ) : Evolved R threads (threads ++ [t]) := by
  intro i u hu
  rw [List.getElem?_append_left (List.getElem?_eq_some_iff.1 hu).1]
  exact ⟨u, hu, hrefl u (List.mem_of_getElem? hu)⟩

end Evolved

/-- Threads that hold a lock unless they are outside: where the lock is free or held by `j`, a step of `j` finds
all others outside, and leaves each thread what it relies on. -/
theorem facts_set {threads : List τ} {Facts Facts' : Nat → τ → Prop} {Outside : τ → Prop} {lock : Option Nat}
    {j : Nat} {t' : τ} (hfacts : ∀ (i : Nat) (t : τ), threads[i]? = some t → Facts i t)
    (hholds : ∀ i t, Facts i t → ¬ Outside t → lock = some i) (houtside : ∀ i t, Outside t → Facts' i t)
    (hlock : lock = none ∨ lock = some j) (ht' : Facts' j t') (i : Nat) (t : τ)
    (hget : (threads.set j t')[i]? = some t) : Facts' i t := by
  rcases getElem?_set_cases hget with ⟨rfl, rfl⟩ | ⟨hne, hget⟩
  · exact ht'
  · refine houtside i t ?_
    by_contra hout
    have hheld := hholds i t (hfacts i t hget) hout
    rcases hlock with hlock | hlock <;> rw [hlock] at hheld <;> cases hheld
    exact hne rfl

end Threads

end Machine

end Interleave
