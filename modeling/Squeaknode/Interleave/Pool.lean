/-
Pools of programs that run at the same time: at every step one program executes its next atomic
statement, or the environment changes the state. `Run` is a run of a pool with the pools it went
through.

The proof rule is rely-guarantee. A `Protocol` fixes an invariant of what all programs can see (the
trace and the state) and the moves that anybody may make. A program is `Safe` when, from any view
the others can move to, its next statement keeps the invariant and is itself such a move, and what
remains of it is safe again. A pool of safe programs keeps the invariant (`Run.allSafe`).
-/
import Squeaknode.Interleave.Prog

namespace Interleave

variable {σ ω ε α β : Type}

/-- What every program can see: who observed what so far, and the shared state. -/
abbrev View (σ ω : Type) := List (Nat × ω) × σ

/-- The view after program `t` executed a statement. -/
def View.after (v : View σ ω) (t : Nat) (stmt : σ → β × σ) (obs : σ → List ω) : View σ ω :=
  (v.1 ++ (obs v.2).map (t, ·), (stmt v.2).2)

@[simp] theorem View.after_fst (v : View σ ω) (t : Nat) (stmt : σ → β × σ) (obs : σ → List ω) :
    (v.after t stmt obs).1 = v.1 ++ (obs v.2).map (t, ·) := rfl
@[simp] theorem View.after_snd (v : View σ ω) (t : Nat) (stmt : σ → β × σ) (obs : σ → List ω) :
    (v.after t stmt obs).2 = (stmt v.2).2 := rfl

/-- Programs with the trace and the state that they share. -/
structure Pool (σ ω ε : Type) : Type 1 where
  view : View σ ω
  threads : List (Prog σ ω ε Unit)

/-- The program has no statement left. -/
def Prog.ended : Prog σ ω ε α → Bool
  | .step _ _ _ => false
  | _ => true

namespace Pool

/-- The programs before their first statement. -/
def start (s : σ) (threads : List (Prog σ ω ε Unit)) : Pool σ ω ε := ⟨([], s), threads⟩

/-- All observations so far, each with its program. -/
def trace (P : Pool σ ω ε) : List (Nat × ω) := P.view.1

/-- The state that the programs share. -/
def shared (P : Pool σ ω ε) : σ := P.view.2

/-- Every program of the pool has ended. -/
def Done (P : Pool σ ω ε) : Prop := ∀ p ∈ P.threads, ∃ x : Except ε Unit, p = Prog.ofExcept x

theorem done_of_ended {P : Pool σ ω ε} (h : P.threads.all Prog.ended = true) : P.Done := by
  intro p hp
  have hp' := List.all_eq_true.1 h p hp
  cases p with
  | ret a => exact ⟨.ok a, rfl⟩
  | raise e => exact ⟨.error e, rfl⟩
  | step stmt obs k => cases hp'

/-- One step: program `i` executes its next statement, or the environment moves the state. -/
inductive Step (env : σ → σ → Prop) : Pool σ ω ε → Pool σ ω ε → Prop
  | act {P : Pool σ ω ε} {i : Nat} {β : Type} {stmt : σ → β × σ} {obs : σ → List ω}
      {k : β → Prog σ ω ε Unit} : P.threads[i]? = some (.step stmt obs k) →
      Step env P ⟨P.view.after i stmt obs, P.threads.set i (k (stmt P.shared).1)⟩
  | env {P : Pool σ ω ε} {s : σ} : env P.shared s → Step env P ⟨(P.trace, s), P.threads⟩

/-- A run from `P₀` to a pool, with the pools before it in order. -/
inductive Run (env : σ → σ → Prop) (P₀ : Pool σ ω ε) : List (Pool σ ω ε) → Pool σ ω ε → Prop
  | init : Run env P₀ [] P₀
  | snoc {h : List (Pool σ ω ε)} {P Q : Pool σ ω ε} :
      Run env P₀ h P → Step env P Q → Run env P₀ (h ++ [P]) Q

end Pool

/-! ## Protocols and safe programs -/

/-- An invariant, and the moves between views that every participant keeps to. -/
structure Protocol (σ ω : Type) where
  inv : View σ ω → Prop
  moves : View σ ω → View σ ω → Prop
  refl : ∀ v, moves v v
  trans : ∀ {u v w}, moves u v → moves v w → moves u w

/-- The invariant and the moves of `Γ` allow anybody to take the state to one that `R` allows with
the observations left. -/
def Protocol.Allows (Γ : Protocol σ ω) (R : σ → List ω → σ → Prop) : Prop :=
  ∀ v t o s, Γ.inv v → R v.2 o s → Γ.inv (v.1 ++ o.map (t, ·), s) ∧ Γ.moves v (v.1 ++ o.map (t, ·), s)

/-- The same without observations. -/
def Protocol.Ignores (Γ : Protocol σ ω) (R : σ → σ → Prop) : Prop :=
  ∀ v s, Γ.inv v → R v.2 s → Γ.inv (v.1, s) ∧ Γ.moves v (v.1, s)

theorem Protocol.Allows.ignores {Γ : Protocol σ ω} {R : σ → List ω → σ → Prop} (h : Γ.Allows R)
    {E : σ → σ → Prop} (hE : ∀ s s', E s s' → R s [] s') : Γ.Ignores E := by
  intro v s hi he
  have hv := h v 0 [] s hi (hE _ _ he)
  rwa [List.map_nil, List.append_nil] at hv

/-- The protocol with a second invariant of the state. -/
def Protocol.also (Γ : Protocol σ ω) (J : σ → Prop) : Protocol σ ω where
  inv v := Γ.inv v ∧ J v.2
  moves := Γ.moves
  refl := Γ.refl
  trans := Γ.trans

namespace Prog

variable (Γ : Protocol σ ω) (t : Nat)

/-- From view `v` on, program `t` keeps the invariant and the moves of `Γ` whatever the others do
within them, and ends with `Q`. -/
def Safe (Q : Except ε α → View σ ω → Prop) : Prog σ ω ε α → View σ ω → Prop
  | ret a, v => Q (.ok a) v
  | raise e, v => Q (.error e) v
  | step stmt obs k, v => ∀ v', Γ.moves v v' → Γ.inv v' →
      Γ.inv (v'.after t stmt obs) ∧ Γ.moves v' (v'.after t stmt obs) ∧
        Safe Q (k (stmt v'.2).1) (v'.after t stmt obs)

variable {Γ t}

theorem safe_bind {Q : Except ε β → View σ ω → Prop} {p : Prog σ ω ε α} {f : α → Prog σ ω ε β}
    {v : View σ ω} (h : p.Safe Γ t (fun x w => match x with
      | .ok a => (f a).Safe Γ t Q w
      | .error e => Q (.error e) w) v) : (p >>= f).Safe Γ t Q v := by
  induction p generalizing v with
  | ret a => exact h
  | raise e => exact h
  | step stmt obs k ih =>
    intro v' hm hi
    obtain ⟨h1, h2, h3⟩ := h v' hm hi
    exact ⟨h1, h2, ih _ h3⟩

theorem safe_catchWith {Q : Except ε α → View σ ω → Prop} {p : Prog σ ω ε α} {h : ε → Prog σ ω ε α} {v : View σ ω}
    (hp : p.Safe Γ t (fun x w => match x with
      | .ok a => Q (.ok a) w
      | .error e => (h e).Safe Γ t Q w) v) : (p.catchWith h).Safe Γ t Q v := by
  induction p generalizing v with
  | ret a => exact hp
  | raise e => exact hp
  | step stmt obs k ih =>
    intro v' hm hi
    obtain ⟨h1, h2, h3⟩ := hp v' hm hi
    exact ⟨h1, h2, ih _ h3⟩

theorem safe_mono {Q Q' : Except ε α → View σ ω → Prop} (hQ : ∀ x v, Q x v → Q' x v)
    {p : Prog σ ω ε α} {v : View σ ω} (h : p.Safe Γ t Q v) : p.Safe Γ t Q' v := by
  induction p generalizing v with
  | ret a => exact hQ _ _ h
  | raise e => exact hQ _ _ h
  | step stmt obs k ih =>
    intro v' hm hi
    obtain ⟨h1, h2, h3⟩ := h v' hm hi
    exact ⟨h1, h2, ih _ h3⟩

/-- Safety survives the moves of the others, when the final condition does. -/
theorem Safe.moved {Q : Except ε α → View σ ω → Prop} (hQ : ∀ x v w, Γ.moves v w → Q x v → Q x w)
    {p : Prog σ ω ε α} {v w : View σ ω} (h : p.Safe Γ t Q v) (hm : Γ.moves v w) : p.Safe Γ t Q w := by
  cases p with
  | ret a => exact hQ _ _ _ hm h
  | raise e => exact hQ _ _ _ hm h
  | step stmt obs k => exact fun v' hm' => h v' (Γ.trans hm hm')

/-- A step that keeps the invariant from every view, followed by a safe rest. -/
theorem safe_atomic {Q : Except ε β → View σ ω → Prop} {stmt : σ → β × σ} {v : View σ ω}
    (h : ∀ v', Γ.moves v v' → Γ.inv v' → Γ.inv (v'.1, (stmt v'.2).2) ∧ Γ.moves v' (v'.1, (stmt v'.2).2) ∧
      Q (.ok (stmt v'.2).1) (v'.1, (stmt v'.2).2)) : (atomic stmt : Prog σ ω ε β).Safe Γ t Q v := by
  intro v' hm hi
  have hview : v'.after t stmt (fun _ => []) = (v'.1, (stmt v'.2).2) := by simp [View.after]
  rw [hview]
  exact h v' hm hi

/-- A program that stays within what `Γ` allows is safe, whatever it returns. -/
theorem Within.safe {R : σ → List ω → σ → Prop} {p : Prog σ ω ε α} (hp : p.Within R) (hΓ : Γ.Allows R)
    {Q : Except ε α → View σ ω → Prop} (hQ : ∀ x v, Q x v) (v : View σ ω) : p.Safe Γ t Q v := by
  induction p generalizing v with
  | ret a => exact hQ _ _
  | raise e => exact hQ _ _
  | step stmt obs k ih =>
    intro v' _ hi
    obtain ⟨h1, h2⟩ := hΓ v' t (obs v'.2) (stmt v'.2).2 hi (hp.1 v'.2)
    exact ⟨h1, h2, ih _ (hp.2 _) _⟩

/-- A safe program whose statements keep a second invariant is safe for both. -/
theorem Safe.also {J : σ → Prop} {R : σ → List ω → σ → Prop} (hJ : ∀ v o s, Γ.inv v → J v.2 → R v.2 o s → J s)
    {Q : Except ε α → View σ ω → Prop} {p : Prog σ ω ε α} {v : View σ ω} (hp : p.Safe Γ t Q v) (hR : p.Within R) :
    p.Safe (Γ.also J) t Q v := by
  induction p generalizing v with
  | ret a => exact hp
  | raise e => exact hp
  | step stmt obs k ih =>
    rintro v' hm ⟨hi, hj⟩
    obtain ⟨h1, h2, h3⟩ := hp v' hm hi
    exact ⟨⟨h1, hJ v' _ _ hi hj (hR.1 v'.2)⟩, h2, ih _ h3 (hR.2 _)⟩

/-- What survives all moves survives a safe program. -/
theorem Safe.keeping {Q : Except ε α → View σ ω → Prop} {F : View σ ω → Prop}
    (hF : ∀ v w, Γ.moves v w → F v → F w) {p : Prog σ ω ε α} {v : View σ ω} (hp : p.Safe Γ t Q v) (h : F v) :
    p.Safe Γ t (fun x w => Q x w ∧ F w) v := by
  induction p generalizing v with
  | ret a => exact ⟨hp, h⟩
  | raise e => exact ⟨hp, h⟩
  | step stmt obs k ih =>
    intro v' hm hi
    obtain ⟨h1, h2, h3⟩ := hp v' hm hi
    exact ⟨h1, h2, ih _ h3 (hF _ _ (Γ.trans hm h2) h)⟩

/-- A loop over programs each of which returns with a fact that survives all moves. -/
theorem safe_forM {f : α → Prog σ ω ε PUnit} {F : α → View σ ω → Prop}
    (hF : ∀ a v w, Γ.moves v w → F a v → F a w) : ∀ {as : List α}
    (_ : ∀ a ∈ as, ∀ v, (f a).Safe Γ t (fun x w => x = .ok () ∧ F a w) v) (v : View σ ω),
    (as.forM f).Safe Γ t (fun x w => x = .ok () ∧ ∀ a ∈ as, F a w) v
  | [], _, v => ⟨rfl, fun a ha => by cases ha⟩
  | a :: as, hf, v => by
    have hrest := fun w => safe_forM hF (fun b hb => hf b (List.mem_cons_of_mem a hb)) w
    refine safe_bind (safe_mono ?_ (hf a List.mem_cons_self v))
    rintro x w ⟨rfl, ha⟩
    refine safe_mono ?_ ((hrest w).keeping (hF a) ha)
    rintro x w ⟨⟨rfl, has⟩, ha⟩
    exact ⟨rfl, List.forall_mem_cons.2 ⟨ha, has⟩⟩

variable (Γ t) in
/-- A program that is safe from every view and may end in any. -/
def Sure (p : Prog σ ω ε α) : Prop := ∀ v, p.Safe Γ t (fun _ _ => True) v

theorem Within.sure {R : σ → List ω → σ → Prop} {p : Prog σ ω ε α} (hp : p.Within R) (hΓ : Γ.Allows R) : p.Sure Γ t :=
  hp.safe hΓ fun _ _ => trivial

theorem closed_sure : Closed fun {_} (p : Prog σ ω ε _) => p.Sure Γ t where
  ret _ _ := trivial
  raise _ _ := trivial
  bind := by
    intro α β p f hp hf v
    refine safe_bind (safe_mono ?_ (hp v))
    rintro (e | a) w -
    · trivial
    · exact hf a w

end Prog

/-! ## Pools of safe programs -/

/-- The invariant holds, and every program is safe from here on. -/
structure Pool.AllSafe (Γ : Protocol σ ω) (Q : Nat → Except ε Unit → View σ ω → Prop)
    (P : Pool σ ω ε) : Prop where
  inv : Γ.inv P.view
  safe : ∀ (i : Nat) (p : Prog σ ω ε Unit), P.threads[i]? = some p → p.Safe Γ i (Q i) P.view

namespace Pool

section Soundness

variable {Γ : Protocol σ ω} {env : σ → σ → Prop} {Q : Nat → Except ε Unit → View σ ω → Prop}

theorem Step.allSafe (henv : Γ.Ignores env)
    (hQ : ∀ i x v w, Γ.moves v w → Q i x v → Q i x w) {P P' : Pool σ ω ε} (hs : Step env P P')
    (hP : P.AllSafe Γ Q) : P'.AllSafe Γ Q ∧ Γ.moves P.view P'.view := by
  cases hs with
  | @act i _ stmt obs k hget =>
    obtain ⟨h1, h2, h3⟩ := hP.safe i _ hget P.view (Γ.refl _) hP.inv
    refine ⟨⟨h1, fun j p hp => ?_⟩, h2⟩
    rw [List.getElem?_set] at hp
    split at hp
    · rename_i hij
      subst hij
      split at hp
      · cases hp; exact h3
      · cases hp
    · exact (hP.safe j p hp).moved (hQ j) h2
  | @env s he =>
    obtain ⟨h1, h2⟩ := henv P.view s hP.inv he
    exact ⟨⟨h1, fun j p hp => (hP.safe j p hp).moved (hQ j) h2⟩, h2⟩

/-- A pool of safe programs keeps the invariant, and its programs stay safe. -/
theorem Run.allSafe (henv : Γ.Ignores env)
    (hQ : ∀ i x v w, Γ.moves v w → Q i x v → Q i x w) {P₀ P : Pool σ ω ε} {h : List (Pool σ ω ε)}
    (hr : Run env P₀ h P) (hP : P₀.AllSafe Γ Q) : P.AllSafe Γ Q ∧ Γ.moves P₀.view P.view := by
  induction hr with
  | init => exact ⟨hP, Γ.refl _⟩
  | snoc _ hs ih =>
    obtain ⟨h1, h2⟩ := ih
    obtain ⟨h3, h4⟩ := hs.allSafe henv hQ h1
    exact ⟨h3, Γ.trans h2 h4⟩

end Soundness

/-- Where all programs of a safe pool have ended, every program's final condition holds. -/
theorem AllSafe.ended {Γ : Protocol σ ω} {Q : Nat → Except ε Unit → View σ ω → Prop} {P : Pool σ ω ε}
    (hP : P.AllSafe Γ Q) (hd : P.Done) {i : Nat} (hlt : i < P.threads.length) : ∃ x, Q i x P.view := by
  have hs := hP.safe i P.threads[i] (List.getElem?_eq_getElem hlt)
  obtain ⟨x, hx⟩ := hd P.threads[i] (List.getElem_mem hlt)
  rw [hx] at hs
  exact ⟨x, by cases x <;> exact hs⟩

/-- The number of programs of a pool does not change. -/
theorem Run.length_threads {env : σ → σ → Prop} {P₀ P : Pool σ ω ε} {h : List (Pool σ ω ε)}
    (hr : Run env P₀ h P) : P.threads.length = P₀.threads.length := by
  induction hr with
  | init => rfl
  | snoc _ hs ih => cases hs <;> simp_all

/-! ## What every step of a run does -/

section Steps

variable {env : σ → σ → Prop} {R : σ → List ω → σ → Prop}

/-- A step of a pool of programs within `R` is one that `R` allows. -/
theorem Step.within (henv : ∀ s s', env s s' → R s [] s') {P P' : Pool σ ω ε} (hs : Step env P P')
    (hP : ∀ p ∈ P.threads, p.Within R) : (∀ p ∈ P'.threads, p.Within R) ∧
      ∃ t o, P'.trace = P.trace ++ o.map (t, ·) ∧ R P.shared o P'.shared := by
  cases hs with
  | @act i _ stmt obs k hget =>
    have hi := hP _ (List.mem_of_getElem? hget)
    refine ⟨fun p hp => ?_, i, obs P.shared, rfl, hi.1 _⟩
    rcases List.mem_or_eq_of_mem_set hp with hp | rfl
    · exact hP p hp
    · exact hi.2 _
  | env he => exact ⟨hP, 0, [], by simp [trace], henv _ _ he⟩

theorem Run.within (henv : ∀ s s', env s s' → R s [] s') {P₀ P : Pool σ ω ε} {h : List (Pool σ ω ε)}
    (hr : Run env P₀ h P) (hP : ∀ p ∈ P₀.threads, p.Within R) : ∀ p ∈ P.threads, p.Within R := by
  induction hr with
  | init => exact hP
  | snoc _ hs ih => exact (hs.within henv ih).1

theorem Step.prefix_trace {P P' : Pool σ ω ε} (hs : Step env P P') : P.trace <+: P'.trace := by
  cases hs with
  | act => exact List.prefix_append _ _
  | env => exact List.prefix_refl _

/-- Every pool that a run went through was reached by a run, with the trace so far. -/
theorem Run.through {P₀ P : Pool σ ω ε} {h : List (Pool σ ω ε)} (hr : Run env P₀ h P) {Q : Pool σ ω ε}
    (hQ : Q ∈ h ++ [P]) : ∃ h', Run env P₀ h' Q ∧ Q.trace <+: P.trace := by
  induction hr with
  | init =>
    cases List.mem_singleton.1 hQ
    exact ⟨[], .init, List.prefix_refl _⟩
  | @snoc h P P' hr hs ih =>
    rcases List.mem_append.1 hQ with hQ | hQ
    · obtain ⟨h', hr', hp⟩ := ih hQ
      exact ⟨h', hr', hp.trans hs.prefix_trace⟩
    · cases List.mem_singleton.1 hQ
      exact ⟨_, hr.snoc hs, List.prefix_refl _⟩

end Steps

/-- The steps of a run: the pools before and after each. -/
def steps (h : List (Pool σ ω ε)) (P : Pool σ ω ε) : List (Pool σ ω ε × Pool σ ω ε) := h.zip (h.tail ++ [P])

theorem steps_snoc (h : List (Pool σ ω ε)) (P P' : Pool σ ω ε) : steps (h ++ [P]) P' = steps h P ++ [(P, P')] := by
  cases h with
  | nil => rfl
  | cons Q h =>
    show ((Q :: h) ++ [P]).zip ((h ++ [P]) ++ [P']) = (Q :: h).zip (h ++ [P]) ++ [(P, P')]
    rw [List.zip_append (by simp)]
    rfl

/-- When a condition on a step is just what keeps an invariant, the steps of a run meet it if and only
if the invariant holds throughout the run. -/
theorem Run.invariant_iff {env : σ → σ → Prop} {C : Pool σ ω ε → Pool σ ω ε → Prop} {I : Pool σ ω ε → Prop}
    {P₀ P : Pool σ ω ε} {h : List (Pool σ ω ε)} (hr : Run env P₀ h P) (h₀ : I P₀)
    (hstep : ∀ h' Q Q', Run env P₀ h' Q → Step env Q Q' → I Q → (C Q Q' ↔ I Q')) :
    (∀ x ∈ steps h P, C x.1 x.2) ↔ ∀ Q ∈ h ++ [P], I Q := by
  induction hr with
  | init =>
    constructor
    · intro _ Q hQ
      rw [List.mem_singleton.1 hQ]
      exact h₀
    · intro _ x hx
      cases hx
  | @snoc h P P' hr hs ih =>
    rw [steps_snoc]
    constructor
    · intro hC Q hQ
      have hbefore := ih.1 fun x hx => hC x (List.mem_append_left _ hx)
      rcases List.mem_append.1 hQ with hQ | hQ
      · exact hbefore Q hQ
      · rw [List.mem_singleton.1 hQ]
        exact (hstep h P P' hr hs (hbefore P (by simp))).1 (hC (P, P') (by simp))
    · intro hI x hx
      rcases List.mem_append.1 hx with hx | hx
      · exact ih.2 (fun Q hQ => hI Q (List.mem_append_left _ hQ)) x hx
      · rw [List.mem_singleton.1 hx]
        exact (hstep h P P' hr hs (hI P (by simp))).2 (hI P' (by simp))

/-! ## Schedules -/

/-- Program `i` executes its next statement, if it has one. -/
def advance (P : Pool σ ω ε) (i : Nat) : Pool σ ω ε :=
  match P.threads[i]? with
  | some (.step stmt obs k) => ⟨P.view.after i stmt obs, P.threads.set i (k (stmt P.shared).1)⟩
  | _ => P

/-- The programs execute one statement each in the order of the schedule. -/
def exec (schedule : List Nat) (P : Pool σ ω ε) : Pool σ ω ε := schedule.foldl advance P

theorem Run.advance {env : σ → σ → Prop} {P₀ P : Pool σ ω ε} {h : List (Pool σ ω ε)} (hr : Run env P₀ h P)
    (i : Nat) : ∃ h', Run env P₀ h' (P.advance i) := by
  unfold Pool.advance
  split
  · rename_i hget
    exact ⟨_, hr.snoc (.act hget)⟩
  · exact ⟨h, hr⟩

/-- A schedule leads to a pool that a run reaches. -/
theorem Run.exec {env : σ → σ → Prop} {P₀ : Pool σ ω ε} : ∀ (schedule : List Nat) {P : Pool σ ω ε}
    {h : List (Pool σ ω ε)}, Run env P₀ h P → ∃ h', Run env P₀ h' (P.exec schedule)
  | [], _, h, hr => ⟨h, hr⟩
  | i :: schedule, _, _, hr => by
    obtain ⟨_, hr'⟩ := hr.advance i
    exact Run.exec schedule hr'

end Pool

end Interleave
