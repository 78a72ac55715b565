/-
Objects that many clients use at the same time. A call on an object takes several statements, and the
statements of all calls interleave; the object is linearizable if each call seems to happen at once, at some
moment between its invocation and its return, in the way the object behaves when nobody else uses it.

The rule is a simulation. A program `Implements` a call if, whatever the other programs do within their
moves, all of its statements but one leave the object alone and that one changes it as the call does. Clients
that do one call after the other then see a linearizable object (`Run.linearizable`).
-/
import Squeaknode.Interleave.Pool
import Mathlib.Logic.Function.Basic

namespace Interleave

variable {σ ω ε α β γ : Type}

/-! ## Histories -/

/-- An object with states `S`: what a call may observe in a state, with the state it leaves, and what it may
answer after it observed that. -/
structure Object (S C O R : Type) where
  effect : C → S → O → S → Prop
  answer : C → O → R → Prop

/-- What happens to a call. -/
inductive Event (C O R : Type) where
  | invoked (c : C)
  | effect (c : C) (o : O)
  | returned (c : C) (r : R)

namespace Event

variable {C O R : Type}

/-- The client sees when a call is invoked and when it returns, not when it takes effect. -/
def visible : Event C O R → Bool
  | effect _ _ => false
  | _ => true

end Event

/-- Where a client is: in no call, in a call that has not taken effect, or in one that has. -/
inductive Phase (C O : Type) where
  | idle
  | pending (c : C)
  | effective (c : C) (o : O)

section Histories

variable {S C O R : Type} (B : Object S C O R)

/-- What may happen to the call of a client. -/
inductive Phase.Step : Phase C O → S → Event C O R → Phase C O → S → Prop
  | invoked (c : C) (a : S) : Step .idle a (.invoked c) (.pending c) a
  | effect {c : C} {a a' : S} {o : O} : B.effect c a o a' → Step (.pending c) a (.effect c o) (.effective c o) a'
  | returned {c : C} {o : O} {r : R} (a : S) : B.answer c o r → Step (.effective c o) a (.returned c r) .idle a

/-- The same for a list of events. -/
inductive Phase.Steps : Phase C O → S → List (Event C O R) → Phase C O → S → Prop
  | nil (ph : Phase C O) (a : S) : Steps ph a [] ph a
  | cons {ph ph' ph'' : Phase C O} {a a' a'' : S} {e : Event C O R} {es : List (Event C O R)} :
      Phase.Step B ph a e ph' a' → Steps ph' a' es ph'' a'' → Steps ph a (e :: es) ph'' a''

/-- A history of an object that started as `a₀`: the events of each client follow each other as they should,
and each call changed the object as it does. -/
inductive Explained (a₀ : S) : List (Nat × Event C O R) → (Nat → Phase C O) → S → Prop
  | start : Explained a₀ [] (fun _ => .idle) a₀
  | snoc {h : List (Nat × Event C O R)} {ph : Nat → Phase C O} {a a' : S} {t : Nat} {e : Event C O R}
      {ph' : Phase C O} : Explained a₀ h ph a → Phase.Step B (ph t) a e ph' a' →
      Explained a₀ (h ++ [(t, e)]) (Function.update ph t ph') a'

/-- What the clients see, from `a₀` to `a`: each call can be given a moment between its invocation and its
return at which it took effect at once. -/
def Linearizable (a₀ : S) (seen : List (Nat × Event C O R)) (a : S) : Prop :=
  ∃ h ph, Explained B a₀ h ph a ∧ h.filter (fun x => x.2.visible) = seen

variable {B}

theorem Explained.append {a₀ a a' : S} {h : List (Nat × Event C O R)} {ph : Nat → Phase C O} {t : Nat}
    {es : List (Event C O R)} {p p' : Phase C O} (hs : Phase.Steps B p a es p' a') (hp : ph t = p)
    (he : Explained B a₀ h ph a) : Explained B a₀ (h ++ es.map (t, ·)) (Function.update ph t p') a' := by
  induction hs generalizing h ph with
  | nil p a =>
    rw [← hp, Function.update_eq_self, List.map_nil, List.append_nil]
    exact he
  | @cons p p₁ p' a a₁ a' e es hstep _ ih =>
    have hsnoc := he.snoc (hp ▸ hstep)
    have hrest := ih (Function.update_self t p₁ ph) hsnoc
    rw [Function.update_idem, List.append_assoc] at hrest
    exact hrest

/-- What every call keeps when nobody else uses the object is kept by all of them together. -/
theorem Linearizable.invariant {I : S → Prop} (hI : ∀ c a o a', I a → B.effect c a o a' → I a') {a₀ a : S}
    {seen : List (Nat × Event C O R)} (h : Linearizable B a₀ seen a) (h₀ : I a₀) : I a := by
  obtain ⟨history, ph, hexplained, -⟩ := h
  induction hexplained with
  | start => exact h₀
  | @snoc history ph a a' t e ph' _ hstep ih =>
    generalize ph t = p at hstep
    cases hstep with
    | invoked => exact ih
    | effect heffect => exact hI _ _ _ _ ih heffect
    | returned => exact ih

end Histories

/-! ## Implementations -/

/-- The states of an implementation, with what its programs may rely on and the object they stand for. -/
structure Concrete (σ S : Type) where
  inv : σ → Prop
  moves : σ → σ → Prop
  refl : ∀ s, moves s s
  trans : ∀ {s t u}, moves s t → moves t u → moves s u
  abs : σ → S

section Implements

variable {S C O R : Type} (K : Concrete σ S) (B : Object S C O R)

/-- A move of the implementation that leaves the object alone. -/
structure Concrete.Stutters (s s' : σ) : Prop where
  inv : K.inv s'
  moves : K.moves s s'
  abs : K.abs s' = K.abs s

/-- One statement of a call that has observed `d` so far. -/
def Took (c : C) (d : Option O) (a : S) (d' : Option O) (a' : S) : Prop :=
  (d' = d ∧ a' = a) ∨ ∃ o, d = none ∧ d' = some o ∧ B.effect c a o a'

/-- From the state `s` on, after it observed `d`, the program takes effect at most once as the call `c` does,
and ends with `Q`. -/
def Prog.Implements (c : C) (Q : Option O → Except ε α → σ → Prop) : Option O → Prog σ ω ε α → σ → Prop
  | d, .ret a, s => Q d (.ok a) s
  | d, .raise e, s => Q d (.error e) s
  | d, .step stmt _ k, s => ∀ s', K.moves s s' → K.inv s' → K.inv (stmt s').2 ∧ K.moves s' (stmt s').2 ∧
      ∃ d', Took B c d (K.abs s') d' (K.abs (stmt s').2) ∧ Prog.Implements c Q d' (k (stmt s').1) (stmt s').2

/-- The call may return `r`: it took effect, or it still may without changing the object. -/
def Answers (c : C) (d : Option O) (r : R) (s : σ) : Prop :=
  (∃ o, d = some o ∧ B.answer c o r) ∨
    (d = none ∧ ∀ s', K.moves s s' → K.inv s' → ∃ o, B.effect c (K.abs s') o (K.abs s') ∧ B.answer c o r)

variable {K B}

namespace Prog

variable {c : C} {d : Option O} {s : σ}

theorem implements_bind {Q : Option O → Except ε β → σ → Prop} {p : Prog σ ω ε α} {f : α → Prog σ ω ε β}
    (h : p.Implements K B c (fun d x s => match x with
      | .ok a => (f a).Implements K B c Q d s
      | .error e => Q d (.error e) s) d s) : (p >>= f).Implements K B c Q d s := by
  induction p generalizing d s with
  | ret a => exact h
  | raise e => exact h
  | step stmt obs k ih =>
    intro s' hm hi
    obtain ⟨h1, h2, d', h3, h4⟩ := h s' hm hi
    exact ⟨h1, h2, d', h3, ih _ h4⟩

theorem implements_atomic {Q : Option O → Except ε β → σ → Prop} {stmt : σ → β × σ}
    (h : ∀ s', K.moves s s' → K.inv s' → K.inv (stmt s').2 ∧ K.moves s' (stmt s').2 ∧
      ∃ d', Took B c d (K.abs s') d' (K.abs (stmt s').2) ∧ Q d' (.ok (stmt s').1) (stmt s').2) :
    (atomic stmt : Prog σ ω ε β).Implements K B c Q d s := h

/-- A program that leaves the object alone. -/
theorem implements_within {Q : Option O → Except ε α → σ → Prop} {W : σ → List ω → σ → Prop}
    (hW : ∀ s o s', K.inv s → W s o s' → K.Stutters s s') {p : Prog σ ω ε α} (hp : p.Within W)
    (hQ : ∀ x s', K.moves s s' → Q d x s') : p.Implements K B c Q d s := by
  induction p generalizing s with
  | ret a => exact hQ _ _ (K.refl s)
  | raise e => exact hQ _ _ (K.refl s)
  | step stmt obs k ih =>
    intro s' hm hi
    have hs := hW _ _ _ hi (hp.1 s')
    exact ⟨hs.inv, hs.moves, d, .inl ⟨rfl, hs.abs⟩,
      ih _ (hp.2 _) fun x s'' hm' => hQ x s'' (K.trans (K.trans hm hs.moves) hm')⟩

end Prog

/-! ## Clients -/

/-- A client that does one call after the other; which one comes next may depend on the answers so far. -/
inductive Client (C R : Type) where
  | stop
  | call (c : C) (next : R → Client C R)

/-- Run `p` without its observations, and return how it ended. -/
def Prog.outcome {ω' : Type} : Prog σ ω ε α → Prog σ ω' ε (Except ε α)
  | .ret a => .ret (.ok a)
  | .raise e => .ret (.error e)
  | .step stmt _ k => .step stmt (fun _ => []) fun b => (k b).outcome

/-- The program of a client: each call leaves a trace when it is invoked and when it returns. -/
def Client.session (impl : C → Prog σ ω ε β) :
    Client C (Except ε β) → Prog σ (Event C O (Except ε β)) ε Unit
  | .stop => .ret ()
  | .call c next => .step (fun s => ((), s)) (fun _ => [.invoked c]) fun _ =>
      (impl c).outcome >>= fun r =>
        .step (fun s => ((), s)) (fun _ => [.returned c r]) fun _ => (next r).session impl

variable (K B) in
/-- From the state `s` on, the program of a client in the phase `ph` sees the object as it should. -/
def Prog.Serving : Phase C O → Prog σ (Event C O R) ε Unit → σ → Prop
  | _, .ret _, _ => True
  | _, .raise _, _ => True
  | ph, .step stmt obs k, s => ∀ s', K.moves s s' → K.inv s' → K.inv (stmt s').2 ∧ K.moves s' (stmt s').2 ∧
      ∃ es ph', Phase.Steps B ph (K.abs s') es ph' (K.abs (stmt s').2) ∧ es.filter Event.visible = obs s' ∧
        Prog.Serving ph' (k (stmt s').1) (stmt s').2

theorem Prog.Serving.moved {ph : Phase C O} {p : Prog σ (Event C O R) ε Unit} {s s' : σ}
    (h : p.Serving K B ph s) (hm : K.moves s s') : p.Serving K B ph s' := by
  cases p with
  | ret a => trivial
  | raise e => trivial
  | step stmt obs k => exact fun t ht => h t (K.trans hm ht)

/-- The phase of a call that has observed `d`. -/
def Phase.of (c : C) : Option O → Phase C O
  | none => .pending c
  | some o => .effective c o

variable {impl : C → Prog σ ω ε β} {B : Object S C O (Except ε β)}

/-- A call that is under way, and what the client does after it. -/
theorem Prog.serving_outcome {c : C} {f : Except ε β → Prog σ (Event C O (Except ε β)) ε Unit}
    (hf : ∀ r s, (f r).Serving K B .idle s) {p : Prog σ ω ε β} {d : Option O} {s : σ}
    (hp : p.Implements K B c (fun d r s => Answers K B c d r s) d s) :
    (p.outcome >>= fun r => .step (fun s => ((), s)) (fun _ => [.returned c r]) fun _ => f r).Serving K B
      (.of c d) s := by
  have hreturn : ∀ r d s, Answers K B c d r s →
      (Prog.step (fun s => ((), s)) (fun _ => [Event.returned c r]) fun _ => f r).Serving K B (.of c d) s := by
    rintro r d s h s' hm hi
    refine ⟨hi, K.refl _, ?_⟩
    rcases h with ⟨o, rfl, hanswer⟩ | ⟨rfl, hlate⟩
    · exact ⟨[.returned c r], .idle, .cons (.returned _ hanswer) (.nil _ _), rfl, hf r _⟩
    · obtain ⟨o, heffect, hanswer⟩ := hlate s' hm hi
      exact ⟨[.effect c o, .returned c r], .idle, .cons (.effect heffect) (.cons (.returned _ hanswer) (.nil _ _)), rfl,
        hf r _⟩
  induction p generalizing d s with
  | ret a => exact hreturn _ _ _ hp
  | raise e => exact hreturn _ _ _ hp
  | step stmt obs k ih =>
    intro s' hm hi
    obtain ⟨h1, h2, d', h3, h4⟩ := hp s' hm hi
    refine ⟨h1, h2, ?_⟩
    rcases h3 with ⟨rfl, habs⟩ | ⟨o, rfl, rfl, heffect⟩
    · refine ⟨[], .of c d', ?_, rfl, ih _ h4⟩
      rw [habs]
      exact .nil _ _
    · exact ⟨[.effect c o], .effective c o, .cons (.effect heffect) (.nil _ _), rfl, ih _ h4⟩

/-- A client of an implementation sees the object as it should. -/
theorem Client.serving_session
    (himpl : ∀ c s, (impl c).Implements K B c (fun d r s => Answers K B c d r s) none s) :
    ∀ (client : Client C (Except ε β)) (s : σ), (client.session impl).Serving K B .idle s
  | .stop, _ => trivial
  | .call c next, _ => fun s' _ hi => ⟨hi, K.refl _, [.invoked c], .pending c, .cons (.invoked c _) (.nil _ _), rfl,
      Prog.serving_outcome (fun r => (next r).serving_session himpl) (himpl c s')⟩

/-! ## Runs -/

variable {env : σ → σ → Prop}

/-- In every run of clients of an implementation among others that leave the object alone, the object is
linearizable. -/
theorem Pool.Run.linearizable
    (himpl : ∀ c s, (impl c).Implements K B c (fun d r s => Answers K B c d r s) none s)
    (henv : ∀ s s', K.inv s → env s s' → K.Stutters s s') {clients : List (Client C (Except ε β))} {s₀ : σ}
    (hinv : K.inv s₀) {h : List (Pool σ (Event C O (Except ε β)) ε)} {P : Pool σ (Event C O (Except ε β)) ε}
    (hr : Pool.Run env (.start s₀ (clients.map (Client.session impl))) h P) :
    K.inv P.shared ∧ Linearizable B (K.abs s₀) P.trace (K.abs P.shared) := by
  have hgood : K.inv P.shared ∧ ∃ history ph, Explained B (K.abs s₀) history ph (K.abs P.shared) ∧
      history.filter (fun x => x.2.visible) = P.trace ∧
      ∀ (i : Nat) p, P.threads[i]? = some p → p.Serving K B (ph i) P.shared := by
    induction hr with
    | init =>
      refine ⟨hinv, [], _, .start, rfl, fun i p hp => ?_⟩
      obtain ⟨client, -, rfl⟩ := List.mem_map.1 (List.mem_of_getElem? hp)
      exact client.serving_session himpl s₀
    | @snoc h P P' _ hs ih =>
      obtain ⟨hi, history, ph, hexplained, htrace, hserving⟩ := ih
      cases hs with
      | @act i _ stmt obs k hget =>
        obtain ⟨h1, h2, es, ph', hsteps, hseen, hrest⟩ := hserving i _ hget P.shared (K.refl _) hi
        refine ⟨h1, _, _, hexplained.append (t := i) hsteps rfl, ?_, fun j p hp => ?_⟩
        · rw [List.filter_append, htrace, List.filter_map]
          exact congrArg (fun l => P.trace ++ l.map (i, ·)) hseen
        · rw [List.getElem?_set] at hp
          by_cases hij : i = j
          · subst hij
            rw [if_pos rfl] at hp
            split at hp
            · cases hp
              rw [Function.update_self]
              exact hrest
            · cases hp
          · rw [if_neg hij] at hp
            rw [Function.update_of_ne (Ne.symm hij)]
            exact (hserving j p hp).moved h2
      | @env s he =>
        have hst := henv _ _ hi he
        refine ⟨hst.inv, history, ph, ?_, htrace, fun j p hp => (hserving j p hp).moved hst.moves⟩
        show Explained B (K.abs s₀) history ph (K.abs s)
        rw [hst.abs]
        exact hexplained
  obtain ⟨hi, history, ph, hexplained, htrace, -⟩ := hgood
  exact ⟨hi, history, ph, hexplained, htrace⟩

end Implements

end Interleave
