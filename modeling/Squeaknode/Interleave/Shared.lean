/-
Programs on a part of a larger state, and parties that each own a part and share the rest. A program of
one party runs on the whole by `zoom`; protocols of the parties, one for each, are one protocol of the
whole (`Protocol.all`), and what is safe for a party is safe there (`Safe.zoom`) if the moves of a party
are harmless to the others.
-/
import Squeaknode.Interleave.Pool

namespace Interleave

variable {τ σ ω ε α β ι : Type}

/-- A part of a larger state that can be read and replaced. -/
structure Part (τ σ : Type) where
  get : τ → σ
  put : τ → σ → τ
  get_put : ∀ t s, get (put t s) = s

namespace Prog

/-- The program, run on a part of the state. -/
def zoom (π : Part τ σ) : Prog σ ω ε α → Prog τ ω ε α
  | ret a => ret a
  | raise e => raise e
  | step stmt obs k =>
    step (fun t => ((stmt (π.get t)).1, π.put t (stmt (π.get t)).2)) (fun t => obs (π.get t)) fun b => (k b).zoom π

end Prog

/-- The view of a party. -/
def View.part (π : Part τ σ) (v : View τ ω) : View σ ω := (v.1, π.get v.2)

/-- Every party keeps its invariant, and every party sees moves of its protocol only. -/
def Protocol.all (π : ι → Part τ σ) (Γ : ι → Protocol σ ω) : Protocol τ ω where
  inv v := ∀ i, (Γ i).inv (v.part (π i))
  moves v w := ∀ i, (Γ i).moves (v.part (π i)) (w.part (π i))
  refl _ i := (Γ i).refl _
  trans h h' i := (Γ i).trans (h i) (h' i)

/-- What a party may do, by its own protocol, is harmless to every other. -/
def Harmless (π : ι → Part τ σ) (Γ : ι → Protocol σ ω) : Prop :=
  ∀ (i j : ι) (v : View τ ω) (trace : List (Nat × ω)) (s : σ), j ≠ i → (∀ k, (Γ k).inv (v.part (π k))) →
    (Γ i).inv (trace, s) → (Γ i).moves (v.part (π i)) (trace, s) →
      (Γ j).inv (trace, (π j).get ((π i).put v.2 s)) ∧
      (Γ j).moves (v.part (π j)) (trace, (π j).get ((π i).put v.2 s))

/-- A program that is safe for its party is safe among all of them. -/
theorem Prog.Safe.zoom {π : ι → Part τ σ} {Γ : ι → Protocol σ ω} (hΓ : Harmless π Γ) {i : ι} {t : Nat}
    {Q : Except ε α → View σ ω → Prop} {p : Prog σ ω ε α} {v : View τ ω}
    (h : p.Safe (Γ i) t Q (v.part (π i))) :
    (p.zoom (π i)).Safe (Protocol.all π Γ) t (fun x w => Q x (w.part (π i))) v := by
  induction p generalizing v with
  | ret a => exact h
  | raise e => exact h
  | step stmt obs k ih =>
    intro v' hm hi
    obtain ⟨h1, h2, h3⟩ := h (v'.part (π i)) (hm i) (hi i)
    have hput := (π i).get_put v'.2 (stmt ((π i).get v'.2)).2
    -- what the party sees of the step is its own statement
    have hview : (v'.after t (fun s => ((stmt ((π i).get s)).1, (π i).put s (stmt ((π i).get s)).2))
        fun s => obs ((π i).get s)).part (π i) = (v'.part (π i)).after t stmt obs :=
      congrArg (Prod.mk _) hput
    have hsteps : ∀ j, (Γ j).inv ((v'.after t (fun s => ((stmt ((π i).get s)).1, (π i).put s (stmt ((π i).get s)).2))
        fun s => obs ((π i).get s)).part (π j)) ∧
        (Γ j).moves (v'.part (π j)) ((v'.after t (fun s => ((stmt ((π i).get s)).1,
          (π i).put s (stmt ((π i).get s)).2)) fun s => obs ((π i).get s)).part (π j)) := by
      intro j
      by_cases hj : j = i
      · subst hj
        rw [hview]
        exact ⟨h1, h2⟩
      · exact hΓ i j v' _ _ hj hi h1 h2
    refine ⟨fun j => (hsteps j).1, fun j => (hsteps j).2, ih _ ?_⟩
    rw [hview]
    exact h3

/-! ## Parties around one environment -/

/-- The states that the parties own, and the environment around them. -/
structure Shared (ι δ ρ : Type) where
  own : ι → δ
  env : ρ

namespace Shared

variable {δ ρ : Type}

/-- What party `i` reads and writes: its own state and the environment. -/
def party [DecidableEq ι] (mk : δ → ρ → σ) (own : σ → δ) (env : σ → ρ) (hmk : ∀ s, mk (own s) (env s) = s) (i : ι) :
    Part (Shared ι δ ρ) σ where
  get s := mk (s.own i) s.env
  put s x := ⟨Function.update s.own i (own x), env x⟩
  get_put s x := by simp [hmk]

end Shared

end Interleave
