/-
What a program has done when it ends, proved apart from what keeps it safe. That a program keeps the
invariant and the moves of a protocol is shown once for all that it may be (`Sure`); for what it ends with
it may then rely on both, before and after each of its own statements (`Yields`, `Sure.safe`).
-/
import Squeaknode.Interleave.Pool

namespace Interleave

variable {σ ω ε α β : Type}

/-- Both invariants, and the moves that both allow. -/
def Protocol.and (Γ Δ : Protocol σ ω) : Protocol σ ω where
  inv v := Γ.inv v ∧ Δ.inv v
  moves v w := Γ.moves v w ∧ Δ.moves v w
  refl v := ⟨Γ.refl v, Δ.refl v⟩
  trans h h' := ⟨Γ.trans h.1 h'.1, Δ.trans h.2 h'.2⟩

namespace Prog

theorem Within.and {R R' : σ → List ω → σ → Prop} {p : Prog σ ω ε α} (h : p.Within R) (h' : p.Within R') :
    p.Within fun s o s' => R s o s' ∧ R' s o s' := by
  induction p with
  | ret a => trivial
  | raise e => trivial
  | step stmt obs k ih => exact ⟨fun s => ⟨h.1 s, h'.1 s⟩, fun b => ih b (h.2 b) (h'.2 b)⟩

/-- A program that is sure for one protocol and whose statements a second one allows is sure for both. -/
theorem Sure.and {Γ Δ : Protocol σ ω} {t : Nat} {R : σ → List ω → σ → Prop}
    (hΔ : ∀ v o s, Γ.inv v → Δ.inv v → R v.2 o s →
      Δ.inv (v.1 ++ o.map (t, ·), s) ∧ Δ.moves v (v.1 ++ o.map (t, ·), s))
    {p : Prog σ ω ε α} (hp : p.Sure Γ t) (hR : p.Within R) : p.Sure (Γ.and Δ) t := by
  have hsafe : ∀ v, p.Safe Γ t (fun _ _ => True) v → p.Safe (Γ.and Δ) t (fun _ _ => True) v := by
    clear hp
    induction p with
    | ret a => exact fun _ _ => trivial
    | raise e => exact fun _ _ => trivial
    | step stmt obs k ih =>
      rintro v hv v' hm ⟨hi, hj⟩
      obtain ⟨h1, h2, h3⟩ := hv v' hm.1 hi
      obtain ⟨h4, h5⟩ := hΔ v' (obs v'.2) (stmt v'.2).2 hi hj (hR.1 v'.2)
      exact ⟨⟨h1, h4⟩, ⟨h2, h5⟩, ih _ (hR.2 _) _ h3⟩
  exact fun v => hsafe v (hp v)

/-! ## What a program ends with -/

section Yields

variable (Γ : Protocol σ ω) (t : Nat)

/-- From view `v` on, program `t` ends with `Q` if it ends, provided that everybody, the program itself
included, keeps to `Γ`. -/
def Yields (Q : Except ε α → View σ ω → Prop) : Prog σ ω ε α → View σ ω → Prop
  | ret a, v => Q (.ok a) v
  | raise e, v => Q (.error e) v
  | step stmt obs k, v => ∀ v', Γ.moves v v' → Γ.inv v' → Γ.inv (v'.after t stmt obs) →
      Γ.moves v' (v'.after t stmt obs) → Yields Q (k (stmt v'.2).1) (v'.after t stmt obs)

variable {Γ t}

/-- A program that is sure ends as it does among programs that keep to the protocol. -/
theorem Sure.safe {Q : Except ε α → View σ ω → Prop} {p : Prog σ ω ε α} (hp : p.Sure Γ t) {v : View σ ω}
    (h : p.Yields Γ t Q v) : p.Safe Γ t Q v := by
  have hsafe : ∀ v, p.Safe Γ t (fun _ _ => True) v → p.Yields Γ t Q v → p.Safe Γ t Q v := by
    clear hp h
    induction p with
    | ret a => exact fun _ _ h => h
    | raise e => exact fun _ _ h => h
    | step stmt obs k ih =>
      intro v hv h v' hm hi
      obtain ⟨h1, h2, h3⟩ := hv v' hm hi
      exact ⟨h1, h2, ih _ _ h3 (h v' hm hi h1 h2)⟩
  exact hsafe v (hp v) h

variable {Q R : Except ε α → View σ ω → Prop} {v : View σ ω}

/-- Weaker, where only views count that the protocol moves to. -/
theorem Yields.mono {p : Prog σ ω ε α} (hp : p.Yields Γ t Q v) (h : ∀ x w, Γ.moves v w → Q x w → R x w) :
    p.Yields Γ t R v := by
  induction p generalizing v with
  | ret a => exact h _ _ (Γ.refl v) hp
  | raise e => exact h _ _ (Γ.refl v) hp
  | step stmt obs k ih =>
    intro v' hm hi hi' hm'
    exact ih _ (hp v' hm hi hi' hm') fun x w hw => h x w (Γ.trans hm (Γ.trans hm' hw))

theorem Yields.of_forall (h : ∀ x w, Γ.moves v w → Q x w) (p : Prog σ ω ε α) : p.Yields Γ t Q v := by
  induction p generalizing v with
  | ret a => exact h _ _ (Γ.refl v)
  | raise e => exact h _ _ (Γ.refl v)
  | step stmt obs k ih =>
    intro v' hm _ _ hm'
    exact ih _ fun x w hw => h x w (Γ.trans hm (Γ.trans hm' hw))

theorem Yields.bind {S : Except ε β → View σ ω → Prop} {p : Prog σ ω ε α} {f : α → Prog σ ω ε β}
    (hp : p.Yields Γ t Q v) (hok : ∀ a w, Γ.moves v w → Q (.ok a) w → (f a).Yields Γ t S w)
    (herror : ∀ e w, Γ.moves v w → Q (.error e) w → S (.error e) w) : (p >>= f).Yields Γ t S v := by
  induction p generalizing v with
  | ret a => exact hok a v (Γ.refl v) hp
  | raise e => exact herror e v (Γ.refl v) hp
  | step stmt obs k ih =>
    intro v' hm hi hi' hm'
    have hmoves : ∀ w, Γ.moves (v'.after t stmt obs) w → Γ.moves v w := fun w hw => Γ.trans hm (Γ.trans hm' hw)
    exact ih _ (hp v' hm hi hi' hm') (fun a w hw => hok a w (hmoves w hw)) fun e w hw => herror e w (hmoves w hw)

/-- A program that raises nothing, and what follows it. -/
theorem Yields.bindOk {Q : α → View σ ω → Prop} {S : Except ε β → View σ ω → Prop} {p : Prog σ ω ε α}
    {f : α → Prog σ ω ε β} (hp : p.Yields Γ t (fun x w => ∃ a, x = .ok a ∧ Q a w) v)
    (hok : ∀ a w, Γ.moves v w → Q a w → (f a).Yields Γ t S w) : (p >>= f).Yields Γ t S v := by
  refine hp.bind (fun a w hm h => ?_) fun e w _ h => ?_
  · obtain ⟨_, heq, ha⟩ := h
    cases heq
    exact hok a w hm ha
  · obtain ⟨a, heq, -⟩ := h
    cases heq

theorem Yields.ofExcept {x : Except ε α} (h : Q x v) : (Prog.ofExcept x).Yields Γ t Q v := by
  cases x with
  | ok a => exact h
  | error e => exact h

theorem Yields.observed {stmt : σ → α × σ} {obs : σ → List ω}
    (h : ∀ v', Γ.moves v v' → Γ.inv v' → Γ.inv (v'.after t stmt obs) → Γ.moves v' (v'.after t stmt obs) →
      Q (.ok (stmt v'.2).1) (v'.after t stmt obs)) : (Prog.observed stmt obs : Prog σ ω ε α).Yields Γ t Q v := h

theorem Yields.atomic {stmt : σ → α × σ}
    (h : ∀ v', Γ.moves v v' → Γ.inv v' → Γ.inv (v'.1, (stmt v'.2).2) → Γ.moves v' (v'.1, (stmt v'.2).2) →
      Q (.ok (stmt v'.2).1) (v'.1, (stmt v'.2).2)) : (Prog.atomic stmt : Prog σ ω ε α).Yields Γ t Q v := by
  intro v' hm hi
  have hview : v'.after t stmt (fun _ => []) = (v'.1, (stmt v'.2).2) := by simp [View.after]
  rw [hview]
  exact h v' hm hi

/-- A loop whose turns each bring about a fact that survives all moves, under a condition that does, or come
upon an obstacle that stays. -/
theorem Yields.forM {f : α → Prog σ ω ε PUnit} {C B : View σ ω → Prop} {F : α → View σ ω → Prop}
    (hC : ∀ v w, Γ.moves v w → C v → C w) (hB : ∀ v w, Γ.moves v w → B v → B w)
    (hF : ∀ a v w, Γ.moves v w → F a v → F a w) : ∀ {l : List α}
    (_ : ∀ a ∈ l, ∀ v, C v → (f a).Yields Γ t (fun x w => B w ∨ x = .ok () ∧ F a w) v) {v : View σ ω} (_ : C v),
    (l.forM f).Yields Γ t (fun x w => B w ∨ x = .ok () ∧ ∀ a ∈ l, F a w) v
  | [], _, v, _ => .inr ⟨rfl, fun a ha => by cases ha⟩
  | a :: l, hf, v, hv => by
    refine (hf a List.mem_cons_self v hv).bind (fun _ w hm ha => ?_) fun e w _ ha => ?_
    · have hrest := Yields.forM hC hB hF (fun b hb => hf b (List.mem_cons_of_mem a hb)) (hC v w hm hv)
      refine hrest.mono fun x u hu h => ?_
      rcases h with h | ⟨rfl, hl⟩
      · exact .inl h
      · rcases ha with ha | ⟨-, ha⟩
        · exact .inl (hB w u hu ha)
        · exact .inr ⟨rfl, List.forall_mem_cons.2 ⟨hF a w u hu ha, hl⟩⟩
    · rcases ha with ha | ⟨hok, -⟩
      · exact .inl ha
      · cases hok

end Yields

end Prog

/-- In a safe pool, what a program ends with holds from its end on, whatever the others still do. -/
theorem Pool.AllSafe.outcome {Γ : Protocol σ ω} {Q : Nat → Except ε Unit → View σ ω → Prop} {P : Pool σ ω ε}
    (hP : P.AllSafe Γ Q) {i : Nat} {x : Except ε Unit} (h : P.threads[i]? = some (Prog.ofExcept x)) : Q i x P.view := by
  have hs := hP.safe i _ h
  cases x with
  | ok a => exact hs
  | error e => exact hs

end Interleave
