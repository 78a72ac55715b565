/-
Programs in stages. Where a program stands cannot be read off what is left of it, so a thread is
kept as a stage, which says both. A run of threads at their stages is a run of the pool of their
programs, and every run of the pool is one of the stages.
-/
import Squeaknode.Interleave.Machine
import Squeaknode.Interleave.Pool

namespace Interleave

variable {σ ω ε α : Type} {τ : Type 1}

/-- What is left of a program after its next statement. -/
def Prog.next : Prog σ ω ε α → σ → Prog σ ω ε α
  | .step stmt _ k, s => k (stmt s).1
  | p, _ => p

theorem Prog.next_of_step {p : Prog σ ω ε α} {β : Type} {stmt : σ → β × σ} {obs : σ → List ω} {k : β → Prog σ ω ε α}
    (h : p = .step stmt obs k) (s : σ) : p.next s = k (stmt s).1 := by
  subst h
  rfl

/-- The stages of a program: what is left of it, and the stage after its next statement. -/
structure Staging (σ ω ε α : Type) (τ : Type 1) where
  program : τ → Prog σ ω ε α
  next : τ → σ → τ
  follows : ∀ {stage : τ} {β : Type} {stmt : σ → β × σ} {obs : σ → List ω} {k : β → Prog σ ω ε α},
    program stage = .step stmt obs k → ∀ s, program (next stage s) = k (stmt s).1

/-- Threads at their stages, and the world they share. -/
structure Staged (σ : Type) (τ : Type 1) : Type 1 where
  world : σ
  stages : List τ

/-- Whose turn it is. -/
inductive Turn (σ : Type) where
  /-- a thread executes its next statement -/
  | thread (i : Nat)
  /-- somebody else changes the world -/
  | others (world : σ)

namespace Staging

variable (S : Staging σ ω ε α τ)

/-- Thread `i`, which is at `stage`, executes its next statement. -/
def advance (i : Nat) (s : Staged σ τ) (stage : τ) : Option (Staged σ τ) :=
  match S.program stage with
  | .step stmt _ _ => some ⟨(stmt s.world).2, s.stages.set i (S.next stage s.world)⟩
  | _ => none

/-- What a turn does, if it can happen. -/
def step : Turn σ → Staged σ τ → Option (Staged σ τ)
  | .thread i, s => s.stages[i]?.bind (S.advance i s)
  | .others world, s => some { s with world := world }

variable {S}

theorem advance_of_step {i : Nat} {s : Staged σ τ} {stage : τ} {β : Type} {stmt : σ → β × σ} {obs : σ → List ω}
    {k : β → Prog σ ω ε α} (h : S.program stage = .step stmt obs k) :
    S.advance i s stage = some ⟨(stmt s.world).2, s.stages.set i (S.next stage s.world)⟩ := by
  unfold advance
  rw [h]

theorem step_of_step {i : Nat} {s : Staged σ τ} {stage : τ} (hget : s.stages[i]? = some stage) {β : Type}
    {stmt : σ → β × σ} {obs : σ → List ω} {k : β → Prog σ ω ε α} (h : S.program stage = .step stmt obs k) :
    S.step (.thread i) s = some ⟨(stmt s.world).2, s.stages.set i (S.next stage s.world)⟩ := by
  show s.stages[i]?.bind (S.advance i s) = _
  rw [hget]
  exact advance_of_step h

/-- What a thread does in its turn. -/
theorem step_thread {i : Nat} {s s' : Staged σ τ} (h : S.step (.thread i) s = some s') :
    ∃ (stage : τ) (β : Type) (stmt : σ → β × σ) (obs : σ → List ω) (k : β → Prog σ ω ε α),
      s.stages[i]? = some stage ∧ S.program stage = .step stmt obs k ∧
        s' = ⟨(stmt s.world).2, s.stages.set i (S.next stage s.world)⟩ := by
  obtain ⟨stage, hget, hadvance⟩ := Option.bind_eq_some_iff.1 h
  cases hprogram : S.program stage with
  | ret a => simp [advance, hprogram] at hadvance
  | raise e => simp [advance, hprogram] at hadvance
  | step stmt obs k =>
    rw [advance_of_step hprogram] at hadvance
    exact ⟨stage, _, stmt, obs, k, hget, hprogram, (Option.some.inj hadvance).symm⟩

/-- What holds of every thread and the world still does after a turn when the thread whose turn it
was has it at its new stage, and the turn takes it from no other thread. -/
theorem step_all {Φ : Nat → τ → σ → Prop} {a : Turn σ} {s s' : Staged σ τ} (h : S.step a s = some s')
    (hown : ∀ i stage, a = .thread i → s.stages[i]? = some stage → Φ i (S.next stage s.world) s'.world)
    (hothers : ∀ j stage, a ≠ .thread j → s.stages[j]? = some stage → Φ j stage s'.world) :
    ∀ (i : Nat) (stage : τ), s'.stages[i]? = some stage → Φ i stage s'.world := by
  intro j stage hj
  cases a with
  | others world =>
    cases h
    exact hothers j stage (fun h => by cases h) hj
  | thread i =>
    obtain ⟨before, _, stmt, _, _, hget, -, rfl⟩ := step_thread h
    rcases Machine.getElem?_set_cases hj with ⟨rfl, rfl⟩ | ⟨hne, hj⟩
    · exact hown j before rfl hget
    · refine hothers j stage (fun heq => hne ?_) hj
      cases heq
      rfl

/-! ## The pool of the programs -/

variable (S)

/-- The programs of a staged state as those of a pool. -/
def threads (s : Staged σ τ) : List (Prog σ ω ε Unit) := s.stages.map fun stage => S.program stage >>= fun _ => .ret ()

variable {S}

theorem threads_set {s : Staged σ τ} {i : Nat} {stage : τ} {world : σ} :
    S.threads ⟨world, s.stages.set i stage⟩ = (S.threads s).set i (S.program stage >>= fun _ => .ret ()) :=
  List.map_set

/-- A staged run is a run of the pool of the programs. -/
theorem pool_of_run {s₀ s : Staged σ τ} {history : List (Staged σ τ × Turn σ)} (hr : Machine.Run S.step s₀ history s) :
    ∃ (h : List (Pool σ ω ε)) (P : Pool σ ω ε),
      Pool.Run (fun _ _ => True) (.start s₀.world (S.threads s₀)) h P ∧ P.shared = s.world ∧
        P.threads = S.threads s := by
  induction hr with
  | init => exact ⟨[], _, .init, rfl, rfl⟩
  | @next history s s' a hr ha ih =>
    obtain ⟨h, P, hP, hworld, hthreads⟩ := ih
    cases a with
    | others world =>
      cases ha
      exact ⟨_, ⟨(P.trace, world), P.threads⟩, hP.snoc (.env trivial), rfl, hthreads⟩
    | thread i =>
      obtain ⟨stage, β, stmt, obs, k, hget, hprogram, rfl⟩ := step_thread ha
      have hi : P.threads[i]? = some (.step stmt obs fun b => k b >>= fun _ => .ret ()) := by
        rw [hthreads, threads, List.getElem?_map, hget, Option.map_some, hprogram]
        rfl
      refine ⟨_, _, hP.snoc (.act hi), ?_, ?_⟩
      · show (stmt P.shared).2 = _
        rw [hworld]
      · show P.threads.set i _ = _
        rw [threads_set, S.follows hprogram, hthreads, hworld]

/-- Each run of the pool of the programs is a staged run. -/
theorem run_of_pool {env : σ → σ → Prop} {s₀ : Staged σ τ} {h : List (Pool σ ω ε)} {P : Pool σ ω ε}
    (hr : Pool.Run env (.start s₀.world (S.threads s₀)) h P) :
    ∃ (history : List (Staged σ τ × Turn σ)) (s : Staged σ τ),
      Machine.Run S.step s₀ history s ∧ P.shared = s.world ∧ P.threads = S.threads s := by
  induction hr with
  | init => exact ⟨[], s₀, .init, rfl, rfl⟩
  | @snoc h P P' hr hs ih =>
    obtain ⟨history, s, hrun, hworld, hthreads⟩ := ih
    cases hs with
    | @env world =>
      exact ⟨_, { s with world := world }, hrun.next (a := .others world) rfl, rfl, hthreads⟩
    | @act i β stmt obs k hget =>
      rw [hthreads, threads, List.getElem?_map] at hget
      obtain ⟨stage, hstage, hk⟩ := Option.map_eq_some_iff.1 hget
      cases hprogram : S.program stage with
      | ret a => rw [hprogram] at hk; cases hk
      | raise e => rw [hprogram] at hk; cases hk
      | step stmt' obs' k' =>
        rw [hprogram] at hk
        cases hk
        refine ⟨_, _, hrun.next (step_of_step hstage hprogram), ?_, ?_⟩
        · show (stmt P.shared).2 = _
          rw [hworld]
        · show P.threads.set i _ = _
          rw [threads_set, S.follows hprogram, hthreads, hworld]
          rfl

end Staging

end Interleave
