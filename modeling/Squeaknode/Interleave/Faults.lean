/-
Programs whose statements may fail, and how they end while others change the state between their
statements. `Ends` is the weakest precondition of a program under interference: `R` is what the others
do in one turn, and `C` what is known of the state whenever a statement of the program is executed.
-/
import Mathlib.Logic.Relation
import Squeaknode.Interleave.Prog

namespace Interleave

namespace Prog

variable {σ ω ε α β γ : Type}

/-! ## Failing statements -/

section Faulty

variable (fault : σ → Option ε)

/-- The statement, or a failure that leaves the state as it is. -/
def attempt (stmt : σ → β × σ) (s : σ) : Except ε β × σ :=
  match fault s with
  | some e => (.error e, s)
  | none => (.ok (stmt s).1, (stmt s).2)

/-- What the statement leaves to be seen, unless it fails. -/
def attemptObs (obs : σ → List ω) (s : σ) : List ω := if (fault s).isSome then [] else obs s

/-- The program each of whose statements fails in the states in which `fault` says so; a statement that
fails raises. -/
def faulty : Prog σ ω ε α → Prog σ ω ε α
  | ret a => ret a
  | raise e => raise e
  | step stmt obs k => step (attempt fault stmt) (attemptObs fault obs) fun x => ofExcept x >>= fun b => (k b).faulty

variable {fault}

@[simp] theorem faulty_ret (a : α) : (ret a : Prog σ ω ε α).faulty fault = ret a := rfl
@[simp] theorem faulty_raise (e : ε) : (raise e : Prog σ ω ε α).faulty fault = raise e := rfl
@[simp] theorem faulty_ofExcept (x : Except ε α) : (ofExcept x : Prog σ ω ε α).faulty fault = ofExcept x := by
  cases x <;> rfl

theorem attempt_of_none {stmt : σ → β × σ} {s : σ} (h : fault s = none) :
    attempt fault stmt s = (.ok (stmt s).1, (stmt s).2) := by
  unfold attempt
  rw [h]

theorem attempt_of_some {stmt : σ → β × σ} {s : σ} {e : ε} (h : fault s = some e) :
    attempt fault stmt s = (.error e, s) := by
  unfold attempt
  rw [h]

theorem faulty_bind (p : Prog σ ω ε α) (f : α → Prog σ ω ε β) :
    (p >>= f).faulty fault = p.faulty fault >>= fun a => (f a).faulty fault := by
  induction p with
  | ret a => rfl
  | raise e => rfl
  | step stmt obs k ih =>
    refine congrArg (step (attempt fault stmt) (attemptObs fault obs)) (funext fun x => ?_)
    cases x with
    | error e => rfl
    | ok b => exact ih b

/-- Where no statement fails, the program is what it was. -/
theorem run_faulty_of_none (h : ∀ s, fault s = none) (p : Prog σ ω ε α) (s : σ) : (p.faulty fault).run s = p.run s := by
  induction p generalizing s with
  | ret a => rfl
  | raise e => rfl
  | step stmt obs k ih =>
    show (ofExcept (attempt fault stmt s).1 >>= fun b => (k b).faulty fault).run (attempt fault stmt s).2 = _
    rw [attempt_of_none (h s)]
    exact ih _ _

theorem Respects.faulty {R : σ → σ → Prop} (hR : ∀ s, R s s) {p : Prog σ ω ε α} (hp : p.Respects R) :
    (p.faulty fault).Respects R := by
  induction p with
  | ret a => trivial
  | raise e => trivial
  | step stmt obs k ih =>
    refine ⟨fun s => ?_, fun x => within_bind (within_ofExcept x) fun b => ih b (hp.2 b)⟩
    cases h : fault s with
    | some e =>
      rw [attempt_of_some h]
      exact hR s
    | none =>
      rw [attempt_of_none h]
      exact hp.1 s

end Faulty

/-! ## Ends -/

section Ends

variable (R : σ → σ → Prop) (C : σ → Prop)

/-- What holds at the end, by whether the program returned or raised. -/
def Post (Q : α → σ → Prop) (E : σ → Prop) : Except ε α → σ → Prop
  | .ok a => Q a
  | .error _ => E

/-- From `s` on the program ends with `Q`: the others take turns within `R` before each of its
statements, each of which starts in a state that meets `C`. -/
def Ends (Q : Except ε α → σ → Prop) : Prog σ ω ε α → σ → Prop
  | ret a, s => Q (.ok a) s
  | raise e, s => Q (.error e) s
  | step stmt _ k, s => ∀ s', Relation.ReflTransGen R s s' → C s' → (k (stmt s').1).Ends Q (stmt s').2

/-- A fact about the state that no turn of the others takes away. -/
def Stable (F : σ → Prop) : Prop := ∀ s s', R s s' → F s → F s'

variable {R C}

theorem Stable.turns {F : σ → Prop} (hF : Stable R F) {s s' : σ} (h : Relation.ReflTransGen R s s')
    (hs : F s) : F s' := by
  induction h with
  | refl => exact hs
  | tail _ hturn ih => exact hF _ _ hturn ih

theorem Stable.and {F G : σ → Prop} (hF : Stable R F) (hG : Stable R G) : Stable R fun s => F s ∧ G s :=
  fun s s' h hs => ⟨hF s s' h hs.1, hG s s' h hs.2⟩

theorem ends_mono {Q Q' : Except ε α → σ → Prop} (hQ : ∀ x s, Q x s → Q' x s) {p : Prog σ ω ε α} {s : σ}
    (h : p.Ends R C Q s) : p.Ends R C Q' s := by
  induction p generalizing s with
  | ret a => exact hQ _ _ h
  | raise e => exact hQ _ _ h
  | step stmt obs k ih => exact fun s' hturns hs' => ih _ (h s' hturns hs')

theorem ends_bind {Q : Except ε β → σ → Prop} {p : Prog σ ω ε α} {f : α → Prog σ ω ε β} {s : σ}
    (h : p.Ends R C (fun x s' => match x with
      | .ok a => (f a).Ends R C Q s'
      | .error e => Q (.error e) s') s) : (p >>= f).Ends R C Q s := by
  induction p generalizing s with
  | ret a => exact h
  | raise e => exact h
  | step stmt obs k ih => exact fun s' hturns hs' => ih _ (h s' hturns hs')

/-- A sequence ends with `Q` when what its first program ends with does, with the rest or with the error. -/
theorem Ends.andThen {Q : Except ε α → σ → Prop} {Q' : Except ε β → σ → Prop} {p : Prog σ ω ε α} {f : α → Prog σ ω ε β}
    {s : σ} (h : p.Ends R C Q s) (hok : ∀ a s', Q (.ok a) s' → (f a).Ends R C Q' s')
    (herror : ∀ e s', Q (.error e) s' → Q' (.error e) s') : (p >>= f).Ends R C Q' s := by
  refine ends_bind (ends_mono (fun x s' hx => ?_) h)
  cases x with
  | ok a => exact hok a s' hx
  | error e => exact herror e s' hx

/-- A turn of the others. -/
theorem Ends.moved {Q : Except ε α → σ → Prop} (hQ : ∀ x, Stable R (Q x)) {p : Prog σ ω ε α} {s s' : σ}
    (h : p.Ends R C Q s) (hturn : R s s') : p.Ends R C Q s' := by
  cases p with
  | ret a => exact hQ _ _ _ hturn h
  | raise e => exact hQ _ _ _ hturn h
  | step stmt obs k => exact fun s'' hturns => h s'' (.head hturn hturns)

/-- A turn of the program. -/
theorem Ends.next {Q : Except ε α → σ → Prop} {p : Prog σ ω ε α} {s : σ} (h : p.Ends R C Q s) {stmt : σ → β × σ}
    {obs : σ → List ω} {k : β → Prog σ ω ε α} (hp : p = step stmt obs k) (hs : C s) :
    (k (stmt s).1).Ends R C Q (stmt s).2 := by
  subst hp
  exact h s .refl hs

/-- A single statement that may fail. -/
theorem ends_attempt {fault : σ → Option ε} {Q : Except ε β → σ → Prop} {stmt : σ → β × σ} {obs : σ → List ω} {s : σ}
    (hfault : ∀ s' e, Relation.ReflTransGen R s s' → C s' → fault s' = some e → Q (.error e) s')
    (hstmt : ∀ s', Relation.ReflTransGen R s s' → C s' → fault s' = none → Q (.ok (stmt s').1) (stmt s').2) :
    ((observed stmt obs : Prog σ ω ε β).faulty fault).Ends R C Q s := by
  intro s' hturns hs'
  cases h : fault s' with
  | some e =>
    rw [attempt_of_some h]
    exact hfault s' e hturns hs' h
  | none =>
    rw [attempt_of_none h]
    exact hstmt s' hturns hs' h

/-- What neither the others nor the statements of a program take away holds when it ends, whichever of
its statements fail. -/
theorem Ends.keeping {fault : σ → Option ε} {F : σ → Prop} (hF : Stable R F) {Q : Except ε α → σ → Prop}
    {p : Prog σ ω ε α} {s : σ} (h : (p.faulty fault).Ends R C Q s) (hp : p.Respects fun s s' => F s → F s') (hs : F s) :
    (p.faulty fault).Ends R C (fun x s' => Q x s' ∧ F s') s := by
  induction p generalizing s with
  | ret a => exact ⟨h, hs⟩
  | raise e => exact ⟨h, hs⟩
  | step stmt obs k ih =>
    intro s' hturns hs'
    have hFs' := hF.turns hturns hs
    have hrest := h s' hturns hs'
    cases hfault : fault s' with
    | some e =>
      rw [attempt_of_some hfault] at hrest ⊢
      exact ⟨hrest, hFs'⟩
    | none =>
      rw [attempt_of_none hfault] at hrest ⊢
      exact ih _ hrest (hp.2 _) (hp.1 s' hFs')

theorem ends_trivial (p : Prog σ ω ε α) (s : σ) : p.Ends R C (fun _ _ => True) s := by
  induction p generalizing s with
  | ret a => trivial
  | raise e => trivial
  | step stmt obs k ih => exact fun s' _ _ => ih _ _

theorem ends_of_keeps {fault : σ → Option ε} {F : σ → Prop} (hF : Stable R F) {p : Prog σ ω ε α}
    (hp : p.Respects fun s s' => F s → F s') {s : σ} (hs : F s) : (p.faulty fault).Ends R C (fun _ s' => F s') s :=
  ends_mono (fun _ _ h => h.2) ((ends_trivial _ s).keeping hF hp hs)

end Ends

end Prog

end Interleave
