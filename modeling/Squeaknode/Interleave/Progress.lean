/-
Infinite executions of a machine, and what fairness makes of them: a rank that no action raises, and that the
actions of a class lower, comes down to zero if that class is taken fairly and can be taken as long as there
is something left to do.
-/
import Squeaknode.Interleave.Machine
import Mathlib.Algebra.GroupWithZero.Nat
import Mathlib.Data.Prod.Lex
import Mathlib.Order.Nat
import Mathlib.Order.WellFounded

universe u v

namespace Interleave

namespace Machine

variable {σ : Type u} {α : Type v} {step : α → σ → Option σ} {s₀ : σ}

/-- An execution from `s₀` that goes on for ever. At some moments nothing happens. -/
structure Execution (step : α → σ → Option σ) (s₀ : σ) where
  state : Nat → σ
  action : Nat → Option α
  start : state 0 = s₀
  idle : ∀ n, action n = none → state (n + 1) = state n
  next : ∀ n a, action n = some a → step a (state n) = some (state (n + 1))

/-- Some action of the class can be taken. -/
def Enabled (step : α → σ → Option σ) (A : α → Prop) (s : σ) : Prop := ∃ a s', A a ∧ step a s = some s'

/-- A run starts where it starts. -/
theorem Run.states_zero {history : List (σ × α)} {s : σ} (hr : Run step s₀ history s) :
    (states history s)[0]? = some s₀ := by
  induction hr with
  | init => rfl
  | @next history s s' a hr ha ih =>
    rw [states, List.map_append, List.getElem?_append_left (by simp)]
    exact ih

/-- Each of its actions leads from one of its states to the next. -/
theorem Run.states_succ {history : List (σ × α)} {s t : σ} {a : α} {n : Nat} (hr : Run step s₀ history s)
    (h : history[n]? = some (t, a)) :
    (states history s)[n]? = some t ∧ ∃ t', step a t = some t' ∧ (states history s)[n + 1]? = some t' := by
  induction hr with
  | init => cases h
  | @next history s s' b hr hb ih =>
    have hbefore : ∀ k ≤ history.length, (states (history ++ [(s, b)]) s')[k]? = (states history s)[k]? := by
      intro k hk
      rw [states, List.map_append, List.getElem?_append_left (by simpa using Nat.lt_succ_of_le hk)]
      rfl
    rcases getElem?_concat_cases h with ⟨rfl, heq⟩ | ⟨hlt, hget⟩
    · cases heq
      refine ⟨?_, s', hb, ?_⟩
      · rw [hbefore _ (Nat.le_refl _), states]
        simp
      · rw [states]
        simp
    · obtain ⟨ht, t', hstep, ht'⟩ := ih hget
      exact ⟨(hbefore n hlt.le).trans ht, t', hstep, (hbefore (n + 1) hlt).trans ht'⟩

/-- Where a run starts, and where each of its actions leads to: to the state of the next one, or to its end. -/
theorem Run.first {history : List (σ × α)} {s : σ} (hr : Run step s₀ history s) :
    s₀ = ((history[0]?).map Prod.fst).getD s := by
  have hzero := hr.states_zero
  cases history with
  | nil => exact (Option.some.inj hzero).symm
  | cons x history => exact (Option.some.inj hzero).symm

theorem Run.succ {history : List (σ × α)} {s t : σ} {a : α} {n : Nat} (hr : Run step s₀ history s)
    (h : history[n]? = some (t, a)) : step a t = some (((history[n + 1]?).map Prod.fst).getD s) := by
  obtain ⟨-, t', hstep, ht'⟩ := hr.states_succ h
  have hlt := (List.getElem?_eq_some_iff.1 h).1
  rw [hstep]
  congr 1
  rcases Nat.lt_or_eq_of_le (Nat.succ_le_of_lt hlt) with hnext | hlast
  · rw [states, List.getElem?_append_left (by simpa using hnext), List.getElem?_map] at ht'
    rw [ht', Option.getD_some]
  · have hend : n + 1 = history.length := hlast
    rw [states, List.getElem?_append_right (by simp [hend]), List.length_map, hend, Nat.sub_self] at ht'
    rw [List.getElem?_eq_none (by omega)]
    exact (Option.some.inj ht').symm

theorem Run.eq_of_nil {s : σ} (hr : Run step s₀ [] s) : s = s₀ := hr.first.symm

namespace Execution

variable (e : Execution step s₀)

/-- Again and again an action of the class is taken, or none can be. -/
def Fair (A : α → Prop) : Prop :=
  ∀ n, ∃ m ≥ n, (∃ a, A a ∧ e.action m = some a) ∨ ¬ Enabled step A (e.state m)

/-- If again and again an action of the class can be taken, one is. -/
def StronglyFair (A : α → Prop) : Prop :=
  ∀ n, (∀ m ≥ n, ∃ k ≥ m, Enabled step A (e.state k)) → ∃ m ≥ n, ∃ a, A a ∧ e.action m = some a

variable {e}

/-- What has happened up to a moment is a run. -/
theorem run (n : Nat) : ∃ history, Run step s₀ history (e.state n) := by
  induction n with
  | zero =>
    rw [e.start]
    exact ⟨[], .init⟩
  | succ n ih =>
    obtain ⟨history, hr⟩ := ih
    cases ha : e.action n with
    | none => exact ⟨history, e.idle n ha ▸ hr⟩
    | some a => exact ⟨_, hr.next (e.next n a ha)⟩

/-- What the actions from a moment on keep holds from then on. -/
theorem keeps {I : σ → Prop} {n : Nat}
    (hstep : ∀ m ≥ n, ∀ a, e.action m = some a → I (e.state m) → I (e.state (m + 1))) (hI : I (e.state n)) :
    ∀ m ≥ n, I (e.state m) := by
  intro m hm
  induction m, hm using Nat.le_induction with
  | base => exact hI
  | succ m hm ih =>
    cases ha : e.action m with
    | none => exact e.idle m ha ▸ ih
    | some a => exact hstep m hm a ha ih

section Rank

variable {β : Type} [Preorder β] {A : α → Prop} {rank : σ → β} {goal : σ → Prop} {n : Nat}

/-- From the moment `n` on, until the goal is reached, no action raises the rank, and those of the class `A`
lower it. -/
structure Ranks (e : Execution step s₀) (A : α → Prop) (rank : σ → β) (goal : σ → Prop) (n : Nat) : Prop where
  le : ∀ m ≥ n, ∀ a, e.action m = some a → ¬ goal (e.state m) → rank (e.state (m + 1)) ≤ rank (e.state m)
  lt : ∀ m ≥ n, ∀ a, A a → e.action m = some a → ¬ goal (e.state m) → rank (e.state (m + 1)) < rank (e.state m)

theorem Ranks.until (h : e.Ranks A rank goal n) {m k : Nat} (hm : n ≤ m) (hk : m ≤ k) :
    (∃ l ≥ m, goal (e.state l)) ∨ rank (e.state k) ≤ rank (e.state m) := by
  induction k, hk using Nat.le_induction with
  | base => exact .inr (le_refl _)
  | succ k hk ih =>
    rcases ih with hgoal | hle
    · exact .inl hgoal
    · by_cases hgoal : goal (e.state k)
      · exact .inl ⟨k, hk, hgoal⟩
      · cases ha : e.action k with
        | none => exact .inr ((e.idle k ha).symm ▸ hle)
        | some a => exact .inr ((h.le k (hm.trans hk) a ha hgoal).trans hle)

/-- When an action of the class is taken, the goal is reached or the rank has come down. -/
theorem Ranks.lowered (h : e.Ranks A rank goal n) {m k : Nat} (hm : n ≤ m) (hk : m ≤ k) {a : α} (hA : A a)
    (ha : e.action k = some a) : ∃ l ≥ m, goal (e.state l) ∨ rank (e.state l) < rank (e.state m) := by
  rcases h.until hm hk with ⟨l, hl, hgoal⟩ | hle
  · exact ⟨l, hl, .inl hgoal⟩
  · by_cases hgoal : goal (e.state k)
    · exact ⟨k, hk, .inl hgoal⟩
    · exact ⟨k + 1, by omega, .inr ((h.lt k (hm.trans hk) a hA ha hgoal).trans_le hle)⟩

variable [WellFoundedLT β]

variable (rank) in
/-- A rank does not come down for ever. -/
theorem eventually (h : ∀ m ≥ n, ¬ goal (e.state m) → ∃ k ≥ m, goal (e.state k) ∨ rank (e.state k) < rank (e.state m)) :
    ∃ m ≥ n, goal (e.state m) := by
  suffices hall : ∀ r, ∀ m ≥ n, rank (e.state m) = r → ∃ k ≥ n, goal (e.state k) from hall _ n (Nat.le_refl n) rfl
  intro r
  induction r using WellFoundedLT.induction with
  | _ r ih =>
    intro m hm hr
    by_cases hgoal : goal (e.state m)
    · exact ⟨m, hm, hgoal⟩
    · obtain ⟨k, hk, hgoal' | hlt⟩ := h m hm hgoal
      · exact ⟨k, hm.trans hk, hgoal'⟩
      · exact ih _ (hr ▸ hlt) k (hm.trans hk) rfl

/-- A fair class that can be taken until the goal is reached reaches it. -/
theorem Fair.reaches (hfair : e.Fair A) (h : e.Ranks A rank goal n)
    (henabled : ∀ m ≥ n, ¬ goal (e.state m) → Enabled step A (e.state m)) : ∃ m ≥ n, goal (e.state m) := by
  refine eventually rank fun m hm _ => ?_
  obtain ⟨k, hk, ⟨a, hA, ha⟩ | hdisabled⟩ := hfair m
  · exact h.lowered hm hk hA ha
  · exact ⟨k, hk, .inl (by_contra fun hgoal => hdisabled (henabled k (hm.trans hk) hgoal))⟩

/-- A strongly fair class need only be possible again and again. -/
theorem StronglyFair.reaches (hfair : e.StronglyFair A) (h : e.Ranks A rank goal n)
    (henabled : ∀ m ≥ n, ¬ goal (e.state m) → ∃ k ≥ m, goal (e.state k) ∨ Enabled step A (e.state k)) :
    ∃ m ≥ n, goal (e.state m) := by
  by_contra hnever
  have hnot : ∀ m ≥ n, ¬ goal (e.state m) := fun m hm hgoal => hnever ⟨m, hm, hgoal⟩
  refine hnever (eventually rank fun m hm _ => ?_)
  obtain ⟨k, hk, a, hA, ha⟩ := hfair m fun k hk => by
    obtain ⟨l, hl, hgoal | hen⟩ := henabled k (hm.trans hk) (hnot k (hm.trans hk))
    · exact absurd hgoal (hnot l ((hm.trans hk).trans hl))
    · exact ⟨l, hl, hen⟩
  exact h.lowered hm hk hA ha

end Rank

/-- What comes to hold of each of finitely many things, and goes on to hold, comes to hold of all of them. -/
theorem eventually_all {P : Nat → Nat → Prop} {n : Nat} (h : ∀ i, ∃ m ≥ n, ∀ k ≥ m, P i k) (count : Nat) :
    ∃ m ≥ n, ∀ k ≥ m, ∀ i < count, P i k := by
  induction count with
  | zero => exact ⟨n, Nat.le_refl n, fun _ _ i hi => absurd hi (Nat.not_lt_zero i)⟩
  | succ count ih =>
    obtain ⟨m, hm, hall⟩ := ih
    obtain ⟨m', -, hlast⟩ := h count
    refine ⟨max m m', by omega, fun k hk i hi => ?_⟩
    rcases Nat.lt_succ_iff_lt_or_eq.1 hi with hlt | rfl
    · exact hall k (by omega) i hlt
    · exact hlast k (by omega)

/-- Each of finitely many things has a rank that no action raises and that those of a fair class of its own lower.
All the ranks come down to zero, and stay there. -/
theorem Fair.vanish {A : Nat → α → Prop} {rank : Nat → σ → Nat} {n : Nat} (hfair : ∀ i, e.Fair (A i))
    (hstep : ∀ m ≥ n, ∀ a, e.action m = some a → ∀ i, rank i (e.state (m + 1)) ≤ rank i (e.state m) ∧
      (A i a → rank i (e.state m) ≠ 0 → rank i (e.state (m + 1)) < rank i (e.state m)))
    (henabled : ∀ m ≥ n, ∀ i, rank i (e.state m) ≠ 0 → Enabled step (A i) (e.state m)) (count : Nat) :
    ∃ m ≥ n, ∀ k ≥ m, ∀ i < count, rank i (e.state k) = 0 := by
  refine eventually_all (P := fun i k => rank i (e.state k) = 0) (fun i => ?_) count
  have hranks : e.Ranks (A i) (rank i) (fun s => rank i s = 0) n :=
    ⟨fun m hm a ha _ => (hstep m hm a ha i).1, fun m hm a hA ha => (hstep m hm a ha i).2 hA⟩
  obtain ⟨m, hm, hzero⟩ := (hfair i).reaches hranks fun m hm hne => henabled m hm i hne
  refine ⟨m, hm, e.keeps (I := fun s => rank i s = 0) (fun k hk a ha hzero => ?_) hzero⟩
  have hle := (hstep k (hm.trans hk) a ha i).1
  omega

section Lasso

variable {history cycle : List (σ × α)} {s : σ}

/-- The moments of a run, and after it those of a cycle again and again. -/
def lassoAt (history cycle : List (σ × α)) (n : Nat) : Option (σ × α) :=
  if n < history.length then history[n]? else cycle[(n - history.length) % cycle.length]?

/-- The execution that takes the actions of a run and then those of a cycle for ever; if the cycle is empty,
nothing happens after the run. -/
def ofLasso (hr : Run step s₀ history s) (hcycle : Run step s cycle s) : Execution step s₀ where
  state n := ((lassoAt history cycle n).map Prod.fst).getD s
  action n := (lassoAt history cycle n).map Prod.snd
  start := by
    unfold lassoAt
    split
    · exact hr.first.symm
    · rename_i hlen
      obtain rfl : history = [] := List.eq_nil_of_length_eq_zero (by omega)
      cases hr.eq_of_nil
      rw [List.length_nil, Nat.sub_zero, Nat.zero_mod]
      exact hcycle.first.symm
  idle n hn := by
    have hnone : lassoAt history cycle n = none := Option.map_eq_none_iff.1 hn
    unfold lassoAt at hnone ⊢
    split at hnone
    · rename_i hlt
      rw [List.getElem?_eq_getElem hlt] at hnone
      cases hnone
    · rename_i hlen
      -- the cycle is empty
      obtain rfl : cycle = [] := by
        by_contra hne
        have hpos := List.length_pos_iff.2 hne
        exact absurd (List.getElem?_eq_none_iff.1 hnone) (Nat.not_le.2 (Nat.mod_lt _ hpos))
      rw [if_neg (by omega), if_neg hlen]
      rfl
  next n a hn := by
    obtain ⟨⟨t, b⟩, hat, rfl⟩ := Option.map_eq_some_iff.1 hn
    rw [hat, Option.map_some, Option.getD_some]
    unfold lassoAt at hat ⊢
    split at hat
    · rename_i hlt
      rw [hr.succ hat]
      congr 1
      split
      · rfl
      · rename_i hend
        have hlen : n + 1 = history.length := by omega
        rw [← hlen, List.getElem?_eq_none (by omega), Nat.sub_self, Nat.zero_mod, ← hcycle.first]
        rfl
    · rename_i hlen
      have hlt := (List.getElem?_eq_some_iff.1 hat).1
      rw [hcycle.succ hat, if_neg (by omega), Nat.sub_add_comm (by omega)]
      congr 1
      rcases Nat.lt_or_eq_of_le (Nat.succ_le_of_lt hlt) with hnext | hlast
      · rw [← Nat.mod_add_mod, Nat.mod_eq_of_lt hnext]
      · have hend : (n - history.length) % cycle.length + 1 = cycle.length := hlast
        rw [← Nat.mod_add_mod, hend, List.getElem?_eq_none (Nat.le_refl _), Nat.mod_self, ← hcycle.first]
        rfl

variable (hr : Run step s₀ history s) (hcycle : Run step s cycle s)

/-- Again and again it takes each action of the cycle. -/
theorem ofLasso_takes {x : σ × α} (hx : x ∈ cycle) (n : Nat) : ∃ m ≥ n, (ofLasso hr hcycle).action m = some x.2 := by
  obtain ⟨k, hget⟩ := List.mem_iff_getElem?.1 hx
  have hlt := (List.getElem?_eq_some_iff.1 hget).1
  refine ⟨history.length + (k + cycle.length * n), ?_, ?_⟩
  · have hle := Nat.le_mul_of_pos_left n (Nat.zero_lt_of_lt hlt)
    omega
  · show (lassoAt history cycle _).map Prod.snd = _
    rw [lassoAt, if_neg (by omega), Nat.add_sub_cancel_left, Nat.add_mul_mod_self_left, Nat.mod_eq_of_lt hlt, hget]
    rfl

/-- Again and again it is where the run has ended. -/
theorem ofLasso_returns (n : Nat) : ∃ m ≥ n, (ofLasso hr hcycle).state m = s := by
  cases cycle with
  | nil =>
    refine ⟨history.length + n, by omega, ?_⟩
    show ((lassoAt history [] _).map Prod.fst).getD s = s
    rw [lassoAt, if_neg (by omega)]
    rfl
  | cons x cycle =>
    refine ⟨history.length + (x :: cycle).length * n, ?_, ?_⟩
    · have hle := Nat.le_mul_of_pos_left n (show 0 < (x :: cycle).length from Nat.succ_pos _)
      omega
    · show ((lassoAt history (x :: cycle) _).map Prod.fst).getD s = s
      rw [lassoAt, if_neg (by omega), Nat.add_sub_cancel_left, Nat.mul_mod_right]
      exact hcycle.first.symm

/-- After the run it is always in a state of the cycle. -/
theorem ofLasso_state_mem {n : Nat} (hn : history.length ≤ n) : (ofLasso hr hcycle).state n ∈ states cycle s := by
  show ((lassoAt history cycle n).map Prod.fst).getD s ∈ _
  rw [lassoAt, if_neg (by omega)]
  cases hget : cycle[(n - history.length) % cycle.length]? with
  | none => exact List.mem_append_right _ List.mem_cons_self
  | some x => exact List.mem_append_left _ (List.mem_map_of_mem (List.mem_of_getElem? hget))

/-- An action that it takes after the run is one of the cycle. -/
theorem ofLasso_action_mem {n : Nat} {a : α} (hn : history.length ≤ n) (ha : (ofLasso hr hcycle).action n = some a) :
    ∃ t, (t, a) ∈ cycle := by
  obtain ⟨⟨t, b⟩, hat, rfl⟩ := Option.map_eq_some_iff.1 ha
  rw [lassoAt, if_neg (by omega)] at hat
  exact ⟨t, List.mem_of_getElem? hat⟩

theorem ofLasso_state (n : Nat) : (ofLasso hr hcycle).state n ∈ states (history ++ cycle) s := by
  rw [states, List.map_append, List.append_assoc]
  by_cases hlt : n < history.length
  · refine List.mem_append_left _ ?_
    show ((lassoAt history cycle n).map Prod.fst).getD s ∈ _
    rw [lassoAt, if_pos hlt, List.getElem?_eq_getElem hlt]
    exact List.mem_map_of_mem (List.getElem_mem hlt)
  · exact List.mem_append_right _ (ofLasso_state_mem hr hcycle (Nat.not_lt.1 hlt))

theorem ofLasso_action {n : Nat} {a : α} (ha : (ofLasso hr hcycle).action n = some a) :
    a ∈ (history ++ cycle).map Prod.snd := by
  obtain ⟨x, hat, rfl⟩ := Option.map_eq_some_iff.1 ha
  unfold lassoAt at hat
  refine List.mem_map_of_mem ?_
  split at hat
  · exact List.mem_append_left _ (List.mem_of_getElem? hat)
  · exact List.mem_append_right _ (List.mem_of_getElem? hat)

theorem ofLasso_action_of_lt {n : Nat} (hn : n < history.length) :
    (ofLasso hr hcycle).action n = (history[n]?).map Prod.snd := by
  show (lassoAt history cycle n).map Prod.snd = _
  rw [lassoAt, if_pos hn]

variable {hr hcycle}

/-- It is fair to a class with an action in the cycle. -/
theorem fair_ofLasso {A : α → Prop} {x : σ × α} (hx : x ∈ cycle) (hA : A x.2) : (ofLasso hr hcycle).Fair A := by
  intro n
  obtain ⟨m, hm, ha⟩ := ofLasso_takes hr hcycle hx n
  exact ⟨m, hm, .inl ⟨x.2, hA, ha⟩⟩

/-- It is fair to a class none of whose actions can be taken where the run ends. -/
theorem fair_ofLasso_of_disabled {A : α → Prop} (hend : ¬ Enabled step A s) : (ofLasso hr hcycle).Fair A := by
  intro n
  obtain ⟨m, hm, hstate⟩ := ofLasso_returns hr hcycle n
  exact ⟨m, hm, .inr (hstate.symm ▸ hend)⟩

/-- It is strongly fair to a class none of whose actions can be taken in the cycle. -/
theorem stronglyFair_ofLasso {A : α → Prop} (hend : ∀ t ∈ states cycle s, ¬ Enabled step A t) :
    (ofLasso hr hcycle).StronglyFair A := by
  intro n hagain
  obtain ⟨k, hk, henabled⟩ := hagain (max n history.length) (Nat.le_max_left _ _)
  exact absurd henabled (hend _ (ofLasso_state_mem hr hcycle ((Nat.le_max_right _ _).trans hk)))

/-- The execution that takes the actions of a run, and after them nothing. -/
def ofRun (hr : Run step s₀ history s) : Execution step s₀ := ofLasso hr .init

theorem ofRun_state (hr : Run step s₀ history s) {n : Nat} (hn : history.length ≤ n) : (ofRun hr).state n = s :=
  List.mem_singleton.1 (ofLasso_state_mem hr .init hn)

theorem ofRun_action (hr : Run step s₀ history s) (n : Nat) : (ofRun hr).action n = (history[n]?).map Prod.snd := by
  show (lassoAt history [] n).map Prod.snd = _
  unfold lassoAt
  split
  · rfl
  · rename_i hlen
    rw [List.getElem?_eq_none (Nat.not_lt.1 hlen)]
    rfl

/-- It is fair to a class none of whose actions can be taken in the end. -/
theorem fair_ofRun (hr : Run step s₀ history s) {A : α → Prop} (hend : ¬ Enabled step A s) : (ofRun hr).Fair A :=
  fair_ofLasso_of_disabled hend

theorem stronglyFair_ofRun (hr : Run step s₀ history s) {A : α → Prop} (hend : ¬ Enabled step A s) :
    (ofRun hr).StronglyFair A :=
  stronglyFair_ofLasso fun _ ht => List.mem_singleton.1 ht ▸ hend

end Lasso

section Map

variable {τ : Type u} {β : Type v} {step' : β → τ → Option τ} {f : σ → τ} {g : σ → α → Option β}

/-- What an execution is for another machine, which takes part in some of its actions. -/
def map (e : Execution step s₀) (f : σ → τ) (g : σ → α → Option β)
    (hstep : ∀ s a s' b, step a s = some s' → g s a = some b → step' b (f s) = some (f s'))
    (hidle : ∀ s a s', step a s = some s' → g s a = none → f s' = f s) : Execution step' (f s₀) where
  state n := f (e.state n)
  action n := (e.action n).bind (g (e.state n))
  start := congrArg f e.start
  idle n hn := by
    cases ha : e.action n with
    | none => exact congrArg f (e.idle n ha)
    | some a =>
      rw [ha] at hn
      exact hidle _ a _ (e.next n a ha) hn
  next n b hn := by
    obtain ⟨a, ha, hb⟩ := Option.bind_eq_some_iff.1 hn
    exact hstep _ a _ b (e.next n a ha) hb

variable {e : Execution step s₀} {hstep : ∀ s a s' b, step a s = some s' → g s a = some b → step' b (f s) = some (f s')}
  {hidle : ∀ s a s', step a s = some s' → g s a = none → f s' = f s} {A : α → Prop} {A' : β → Prop}

/-- Fairness carries over, if each action of the class is one of the other class there, and what can be taken
there can be taken here. -/
theorem Fair.map (h : e.Fair A) (hA : ∀ s a, A a → ∃ b, g s a = some b ∧ A' b)
    (henabled : ∀ n, Enabled step' A' (f (e.state n)) → Enabled step A (e.state n)) : (e.map f g hstep hidle).Fair A' := by
  intro n
  obtain ⟨m, hm, ⟨a, haA, ha⟩ | hdisabled⟩ := h n
  · obtain ⟨b, hb, hbA⟩ := hA (e.state m) a haA
    exact ⟨m, hm, .inl ⟨b, hbA, Option.bind_eq_some_iff.2 ⟨a, ha, hb⟩⟩⟩
  · exact ⟨m, hm, .inr fun hen => hdisabled (henabled m hen)⟩

theorem StronglyFair.map (h : e.StronglyFair A) (hA : ∀ s a, A a → ∃ b, g s a = some b ∧ A' b)
    (henabled : ∀ n, Enabled step' A' (f (e.state n)) → Enabled step A (e.state n)) :
    (e.map f g hstep hidle).StronglyFair A' := by
  intro n hagain
  obtain ⟨m, hm, a, haA, ha⟩ := h n fun m hm => by
    obtain ⟨k, hk, hen⟩ := hagain m hm
    exact ⟨k, hk, henabled k hen⟩
  obtain ⟨b, hb, hbA⟩ := hA (e.state m) a haA
  exact ⟨m, hm, b, hbA, Option.bind_eq_some_iff.2 ⟨a, ha, hb⟩⟩

end Map

end Execution

/-- A list of threads in which one with a smaller weight takes the place of another. -/
theorem sum_map_set_lt {τ : Type u} (weight : τ → Nat) {threads : List τ} {i : Nat} {t t' : τ} (hget : threads[i]? = some t)
    (hlt : weight t' < weight t) : ((threads.set i t').map weight).sum < (threads.map weight).sum := by
  induction threads generalizing i with
  | nil => cases hget
  | cons u threads ih =>
    cases i with
    | zero =>
      cases hget
      simpa using hlt
    | succ i => simpa using ih hget

theorem map_set_eq {τ : Type u} {ι : Type v} (f : τ → ι) {threads : List τ} {i : Nat} {t t' : τ}
    (hget : threads[i]? = some t) (heq : f t' = f t) : (threads.set i t').map f = threads.map f := by
  obtain ⟨hlt, hget⟩ := List.getElem?_eq_some_iff.1 hget
  rw [List.map_set, heq, ← hget, ← List.getElem_map f (h := by simpa using hlt), List.set_getElem_self]

end Machine

end Interleave
