/-
Programs over a shared state: a tree of atomic statements, each of which reads and rewrites the
state, may leave observations on a trace, and hands its answer to the rest of the program. A
program that runs alone is evaluated by `run`; `Interleave.Pool` schedules many of them.
-/
import Mathlib.Tactic.Common

namespace Interleave

/-- A program over states `σ` that leaves observations `ω`, may raise an `ε` and returns an `α`. -/
inductive Prog (σ ω ε : Type) (α : Type) : Type 1
  | ret (a : α)
  | raise (e : ε)
  | step {β : Type} (stmt : σ → β × σ) (obs : σ → List ω) (k : β → Prog σ ω ε α)

namespace Prog

variable {σ ω ε α β γ : Type}

/-- Sequencing: what a program returns is handed on. -/
def bind : Prog σ ω ε α → (α → Prog σ ω ε β) → Prog σ ω ε β
  | ret a, f => f a
  | raise e, _ => raise e
  | step stmt obs k, f => step stmt obs fun b => (k b).bind f

/-- Run `p`; when it raises, go on with the handler. -/
def catchWith : Prog σ ω ε α → (ε → Prog σ ω ε α) → Prog σ ω ε α
  | ret a, _ => ret a
  | raise e, h => h e
  | step stmt obs k, h => step stmt obs fun b => (k b).catchWith h

instance : Monad (Prog σ ω ε) where
  pure := ret
  bind := bind

instance : MonadExceptOf ε (Prog σ ω ε) where
  throw := raise
  tryCatch := catchWith

/-- One atomic statement. -/
def atomic (stmt : σ → β × σ) : Prog σ ω ε β := step stmt (fun _ => []) ret

/-- One atomic statement that leaves observations, read off the state it starts in. -/
def observed (stmt : σ → β × σ) (obs : σ → List ω) : Prog σ ω ε β := step stmt obs ret

/-- A result computed outside the shared state. -/
def ofExcept : Except ε α → Prog σ ω ε α
  | .ok a => ret a
  | .error e => raise e

@[simp] theorem pure_eq (a : α) : (pure a : Prog σ ω ε α) = ret a := rfl
@[simp] theorem throw_eq (e : ε) : (throw e : Prog σ ω ε α) = raise e := rfl
@[simp] theorem ret_bind (a : α) (f : α → Prog σ ω ε β) : (ret a : Prog σ ω ε α) >>= f = f a := rfl
@[simp] theorem raise_bind (e : ε) (f : α → Prog σ ω ε β) : (raise e : Prog σ ω ε α) >>= f = raise e := rfl
@[simp] theorem step_bind (stmt : σ → β × σ) (obs : σ → List ω) (k : β → Prog σ ω ε α)
    (f : α → Prog σ ω ε γ) : step stmt obs k >>= f = step stmt obs fun b => k b >>= f := rfl
@[simp] theorem ofExcept_ok (a : α) : (ofExcept (.ok a) : Prog σ ω ε α) = ret a := rfl
@[simp] theorem ofExcept_error (e : ε) : (ofExcept (.error e) : Prog σ ω ε α) = raise e := rfl

theorem bind_bind (p : Prog σ ω ε α) (f : α → Prog σ ω ε β) (g : β → Prog σ ω ε γ) :
    (p >>= f) >>= g = p >>= fun a => f a >>= g := by
  induction p with
  | ret a => rfl
  | raise e => rfl
  | step stmt obs k ih => exact congrArg (step stmt obs) (funext ih)

/-! ## A program that runs alone -/

/-- The outcome of a program that no other program interrupts, and the state it leaves. -/
def run : Prog σ ω ε α → σ → Except ε α × σ
  | ret a, s => (.ok a, s)
  | raise e, s => (.error e, s)
  | step stmt _ k, s => (k (stmt s).1).run (stmt s).2

@[simp] theorem run_ret (a : α) (s : σ) : (ret a : Prog σ ω ε α).run s = (.ok a, s) := rfl
@[simp] theorem run_raise (e : ε) (s : σ) : (raise e : Prog σ ω ε α).run s = (.error e, s) := rfl
@[simp] theorem run_step (stmt : σ → β × σ) (obs : σ → List ω) (k : β → Prog σ ω ε α) (s : σ) :
    (step stmt obs k).run s = (k (stmt s).1).run (stmt s).2 := rfl
@[simp] theorem run_atomic (stmt : σ → β × σ) (s : σ) :
    (atomic stmt : Prog σ ω ε β).run s = (.ok (stmt s).1, (stmt s).2) := rfl
@[simp] theorem run_observed (stmt : σ → β × σ) (obs : σ → List ω) (s : σ) :
    (observed stmt obs : Prog σ ω ε β).run s = (.ok (stmt s).1, (stmt s).2) := rfl
@[simp] theorem run_ofExcept (x : Except ε α) (s : σ) : (ofExcept x : Prog σ ω ε α).run s = (x, s) := by
  cases x <;> rfl

theorem run_bind (p : Prog σ ω ε α) (f : α → Prog σ ω ε β) (s : σ) :
    (p >>= f).run s = match p.run s with
      | (.ok a, s') => (f a).run s'
      | (.error e, s') => (.error e, s') := by
  induction p generalizing s with
  | ret a => rfl
  | raise e => rfl
  | step stmt obs k ih => exact ih (stmt s).1 (stmt s).2

theorem run_bind_of_ok {p : Prog σ ω ε α} {f : α → Prog σ ω ε β} {s s' : σ} {a : α}
    (h : p.run s = (.ok a, s')) : (p >>= f).run s = (f a).run s' := by
  rw [run_bind, h]

theorem run_bind_of_error {p : Prog σ ω ε α} {f : α → Prog σ ω ε β} {s s' : σ} {e : ε}
    (h : p.run s = (.error e, s')) : (p >>= f).run s = (.error e, s') := by
  rw [run_bind, h]

theorem run_bind_congr {p q : Prog σ ω ε α} {f g : α → Prog σ ω ε β} {s : σ} (h : p.run s = q.run s)
    (hf : ∀ a s', (f a).run s' = (g a).run s') : (p >>= f).run s = (q >>= g).run s := by
  rw [run_bind, run_bind, h]
  rcases q.run s with ⟨_ | a, s'⟩
  · rfl
  · exact hf a s'

theorem run_map (f : α → β) (p : Prog σ ω ε α) (s : σ) : (f <$> p).run s = (f <$> (p.run s).1, (p.run s).2) := by
  show (p >>= fun a => ret (f a)).run s = _
  rw [run_bind]
  rcases p.run s with ⟨_ | a, s'⟩ <;> rfl

theorem run_catchWith (p : Prog σ ω ε α) (h : ε → Prog σ ω ε α) (s : σ) :
    (p.catchWith h).run s = match p.run s with
      | (.ok a, s') => (.ok a, s')
      | (.error e, s') => (h e).run s' := by
  induction p generalizing s with
  | ret a => rfl
  | raise e => rfl
  | step stmt obs k ih => exact ih (stmt s).1 (stmt s).2

/-- A loop over the images of a list. -/
theorem forM_map (g : γ → α) (f : α → Prog σ ω ε PUnit) (as : List γ) :
    (as.map g).forM f = as.forM fun a => f (g a) := by
  induction as with
  | nil => rfl
  | cons a as ih => exact congrArg (f (g a) >>= ·) (funext fun _ => ih)

/-- A loop over two lists is the loop over the first and then the one over the second. -/
theorem run_forM_congr {f g : α → Prog σ ω ε PUnit} (h : ∀ a s, (f a).run s = (g a).run s) (as : List α) (s : σ) :
    (as.forM f).run s = (as.forM g).run s := by
  induction as generalizing s with
  | nil => rfl
  | cons a as ih => exact run_bind_congr (h a s) fun _ s' => ih s'

theorem run_forM_append (f : α → Prog σ ω ε PUnit) (as bs : List α) (s : σ) :
    ((as ++ bs).forM f).run s = (as.forM f >>= fun _ => bs.forM f).run s := by
  induction as generalizing s with
  | nil => rfl
  | cons a as ih =>
    show (f a >>= fun _ => (as ++ bs).forM f).run s = ((f a >>= fun _ => as.forM f) >>= fun _ => bs.forM f).run s
    rw [run_bind, run_bind, run_bind]
    rcases (f a).run s with ⟨e | _, s'⟩
    · rfl
    · exact (ih s').trans (run_bind _ _ _)

/-- However the program ends, its run leads from a state to one that `R` relates to it. -/
def Leads (R : σ → σ → Prop) (p : Prog σ ω ε α) : Prop := ∀ s, R s (p.run s).2

section Leads

variable {R : σ → σ → Prop}

theorem leads_bind (trans : ∀ a b c, R a b → R b c → R a c) {p : Prog σ ω ε α} {f : α → Prog σ ω ε β}
    (hp : p.Leads R) (hf : ∀ a, (f a).Leads R) : (p >>= f).Leads R := by
  intro s
  have h := hp s
  rw [run_bind]
  rcases hrun : p.run s with ⟨e | a, s'⟩
  · rwa [hrun] at h
  · rw [hrun] at h
    exact trans _ _ _ h (hf a s')

theorem leads_forM (refl : ∀ s, R s s) (trans : ∀ a b c, R a b → R b c → R a c) {f : α → Prog σ ω ε PUnit} :
    ∀ {as : List α}, (∀ a ∈ as, (f a).Leads R) → (as.forM f).Leads R
  | [], _ => refl
  | a :: _, hf => leads_bind trans (hf a List.mem_cons_self) fun _ =>
      leads_forM refl trans fun b hb => hf b (List.mem_cons_of_mem a hb)

end Leads

/-! ## What every statement of a program does -/

/-- Every statement of the program, whatever the answers before it, takes a state to one that `R`
allows with the observations it leaves. -/
def Within (R : σ → List ω → σ → Prop) : Prog σ ω ε α → Prop
  | ret _ => True
  | raise _ => True
  | step stmt obs k => (∀ s, R s (obs s) (stmt s).2) ∧ ∀ b, (k b).Within R

section Within

variable {R : σ → List ω → σ → Prop}

@[simp] theorem within_ret (a : α) : (ret a : Prog σ ω ε α).Within R := trivial
@[simp] theorem within_raise (e : ε) : (raise e : Prog σ ω ε α).Within R := trivial

theorem within_atomic {stmt : σ → β × σ} (h : ∀ s, R s [] (stmt s).2) :
    (atomic stmt : Prog σ ω ε β).Within R := ⟨h, fun _ => trivial⟩

theorem within_observed {stmt : σ → β × σ} {obs : σ → List ω} (h : ∀ s, R s (obs s) (stmt s).2) :
    (observed stmt obs : Prog σ ω ε β).Within R := ⟨h, fun _ => trivial⟩

@[simp] theorem within_ofExcept (x : Except ε α) : (ofExcept x : Prog σ ω ε α).Within R := by
  cases x <;> trivial

theorem within_bind {p : Prog σ ω ε α} {f : α → Prog σ ω ε β} (hp : p.Within R)
    (hf : ∀ a, (f a).Within R) : (p >>= f).Within R := by
  induction p with
  | ret a => exact hf a
  | raise e => trivial
  | step stmt obs k ih => exact ⟨hp.1, fun b => ih b (hp.2 b)⟩

theorem within_catchWith {p : Prog σ ω ε α} {h : ε → Prog σ ω ε α} (hp : p.Within R)
    (hh : ∀ e, (h e).Within R) : (p.catchWith h).Within R := by
  induction p with
  | ret a => trivial
  | raise e => exact hh e
  | step stmt obs k ih => exact ⟨hp.1, fun b => ih b (hp.2 b)⟩

theorem within_forM {f : α → Prog σ ω ε PUnit} (hf : ∀ a, (f a).Within R) :
    ∀ as : List α, (as.forM f).Within R
  | [] => trivial
  | a :: as => within_bind (hf a) fun _ => within_forM hf as

theorem Within.mono {R' : σ → List ω → σ → Prop} (h : ∀ s o s', R s o s' → R' s o s') {p : Prog σ ω ε α}
    (hp : p.Within R) : p.Within R' := by
  induction p with
  | ret a => trivial
  | raise e => trivial
  | step stmt obs k ih => exact ⟨fun s => h _ _ _ (hp.1 s), fun b => ih b (hp.2 b)⟩

end Within

/-- A property of programs that holds of those without statements and that sequencing keeps. -/
structure Closed (C : ∀ {α : Type}, Prog σ ω ε α → Prop) : Prop where
  ret : ∀ {α : Type} (a : α), C (Prog.ret a : Prog σ ω ε α)
  raise : ∀ {α : Type} (e : ε), C (Prog.raise e : Prog σ ω ε α)
  bind : ∀ {α β : Type} {p : Prog σ ω ε α} {f : α → Prog σ ω ε β}, C p → (∀ a, C (f a)) → C (p >>= f)

theorem closed_within (R : σ → List ω → σ → Prop) : Closed fun {_} (p : Prog σ ω ε _) => p.Within R :=
  ⟨fun _ => trivial, fun _ => trivial, within_bind⟩

/-- Every statement of the program moves the state within `R`. -/
abbrev Respects (R : σ → σ → Prop) (p : Prog σ ω ε α) : Prop := p.Within fun s _ s' => R s s'

/-- Every statement of the program leaves no observation and moves the state within `R`. -/
abbrev Quiet (R : σ → σ → Prop) (p : Prog σ ω ε α) : Prop := p.Within fun s o s' => o = [] ∧ R s s'

/-- A program no statement of which changes `f` of the state. -/
abbrev Keeps (f : σ → γ) (p : Prog σ ω ε α) : Prop := p.Respects fun s s' => f s' = f s

/-- A program whose statements respect a preorder moves the state within it. -/
theorem Respects.run {R : σ → σ → Prop} {p : Prog σ ω ε α} (hp : p.Respects R) (refl : ∀ s, R s s)
    (trans : ∀ {a b c}, R a b → R b c → R a c) (s : σ) : R s (p.run s).2 := by
  induction p generalizing s with
  | ret a => exact refl s
  | raise e => exact refl s
  | step stmt obs k ih => exact trans (hp.1 s) (ih _ (hp.2 _) _)

theorem Keeps.run {f : σ → γ} {p : Prog σ ω ε α} (hp : p.Keeps f) (s : σ) : f (p.run s).2 = f s :=
  Respects.run hp (fun _ => rfl) (fun h1 h2 => h2.trans h1) s

end Prog

end Interleave
