/-
Stores that show which requests are in flight. A `Table` says what the actions of the requests do to the state of
a store and which flag of it tracks which kind of request; a run is any order of the actions of any number of
requests that overlap.

A flag is up exactly while a request of its kind is in flight, throughout a run, if and only if every action of
the run is `Orderly`: one that lowers the flag is that of the last request in flight, and one that ends the last
request lowers the flag (`tracksRequests_iff`). Tables are put side by side by `Table.prod`.
-/
import Squeaknode.Interleave.Machine
import Mathlib.Logic.Function.Basic

namespace Interleave

namespace InFlight

/-- A `Thunk` is a kind of request, and an `Answer` what one is fulfilled with. `settles` tells whether the
reducer of an answer gets through, and `resets` whether there is one for the rejection. -/
structure Table where
  State : Type
  Thunk : Type
  Answer : Type
  Clear : Type
  Flag : Type
  [thunkEq : DecidableEq Thunk]
  [flagEq : DecidableEq Flag]
  initialState : State
  thunk : Answer → Thunk
  pending : Thunk → State → State
  fulfilled : Answer → State → State
  rejected : Thunk → State → State
  clear : Clear → State → State
  isLoading : Flag → State → Bool
  tracks : Thunk → Option Flag
  settles : Answer → State → Bool
  resets : Thunk → Bool
  clears : Clear → Option Flag
  tracks_inj : ∀ t t' f, tracks t = some f → tracks t' = some f → t = t'
  isLoading_initial : ∀ f, isLoading f initialState = false
  isLoading_pending : ∀ f t s, isLoading f (pending t s) = if tracks t = some f then true else isLoading f s
  isLoading_fulfilled : ∀ f x s,
    isLoading f (fulfilled x s) = if tracks (thunk x) = some f ∧ settles x s = true then false else isLoading f s
  isLoading_rejected : ∀ f t s,
    isLoading f (rejected t s) = if tracks t = some f ∧ resets t = true then false else isLoading f s
  isLoading_clear : ∀ f c s, isLoading f (clear c s) = if clears c = some f then false else isLoading f s

instance (T : Table) : DecidableEq T.Thunk := T.thunkEq

instance (T : Table) : DecidableEq T.Flag := T.flagEq

/-- The state, and how many requests of each kind are in flight. -/
structure Store (T : Table) where
  state : T.State
  inFlight : T.Thunk → Nat

/-- The actions that a slice reacts to. -/
inductive Action (T : Table) where
  | pending (t : T.Thunk)
  | fulfilled (x : T.Answer)
  | rejected (t : T.Thunk)
  | clear (c : T.Clear)

variable {T : Table}

/-- The store before the first action. -/
def start (T : Table) : Store T := ⟨T.initialState, fun _ => 0⟩

/-- Only a request in flight is fulfilled or rejected. -/
def step : Action T → Store T → Option (Store T)
  | .pending t, s => some ⟨T.pending t s.state, Function.update s.inFlight t (s.inFlight t + 1)⟩
  | .fulfilled x, s =>
    if s.inFlight (T.thunk x) = 0 then none
    else some ⟨T.fulfilled x s.state, Function.update s.inFlight (T.thunk x) (s.inFlight (T.thunk x) - 1)⟩
  | .rejected t, s =>
    if s.inFlight t = 0 then none
    else some ⟨T.rejected t s.state, Function.update s.inFlight t (s.inFlight t - 1)⟩
  | .clear c, s => some ⟨T.clear c s.state, s.inFlight⟩

/-- A request that the flag tracks is in flight. -/
def Store.Busy (s : Store T) (f : T.Flag) : Prop := ∃ t, T.tracks t = some f ∧ 0 < s.inFlight t

/-- Each flag says whether a request that it tracks is in flight. -/
def Store.TracksRequests (s : Store T) : Prop := ∀ f, T.isLoading f s.state = true ↔ s.Busy f

/-- The flag is lowered by the end of the last request in flight, by no other end, and by no clearing while one is
in flight. -/
def Orderly (s : Store T) : Action T → Prop
  | .pending _ => True
  | .fulfilled x => T.tracks (T.thunk x) ≠ none → (T.settles x s.state = true ↔ s.inFlight (T.thunk x) = 1)
  | .rejected t => T.tracks t ≠ none → (T.resets t = true ↔ s.inFlight t = 1)
  | .clear c => ∀ t, T.tracks t ≠ none → T.tracks t = T.clears c → s.inFlight t = 0

theorem busy_iff {s : Store T} {t : T.Thunk} {f : T.Flag} (ht : T.tracks t = some f) : s.Busy f ↔ 0 < s.inFlight t := by
  constructor
  · rintro ⟨t', ht', hbusy⟩
    rw [T.tracks_inj t t' f ht ht']
    exact hbusy
  · exact fun hbusy => ⟨t, ht, hbusy⟩

/-- Requests that the flag does not track are not seen by it. -/
theorem busy_update {s : Store T} {t : T.Thunk} {f : T.Flag} (ht : T.tracks t ≠ some f) (state : T.State) (n : Nat) :
    (Store.mk state (Function.update s.inFlight t n)).Busy f ↔ s.Busy f := by
  have hother : ∀ t', T.tracks t' = some f → Function.update s.inFlight t n t' = s.inFlight t' := by
    intro t' ht'
    refine Function.update_of_ne ?_ _ _
    rintro rfl
    exact ht ht'
  constructor
  · rintro ⟨t', ht', hbusy⟩
    exact ⟨t', ht', hother t' ht' ▸ hbusy⟩
  · rintro ⟨t', ht', hbusy⟩
    refine ⟨t', ht', ?_⟩
    show 0 < Function.update s.inFlight t n t'
    rw [hother t' ht']
    exact hbusy

theorem tracksRequests_start (T : Table) : (start T).TracksRequests := by
  intro f
  show T.isLoading f T.initialState = true ↔ _
  rw [T.isLoading_initial]
  constructor
  · exact fun h => (by cases h)
  · rintro ⟨t, -, hbusy⟩
    cases hbusy

/-- The end of a request: its flag has to come down if and only if it was the last one. -/
theorem tracksRequests_end {s : Store T} {t : T.Thunk} {state : T.State} {lowers : Bool} (h : s.TracksRequests)
    (hflight : s.inFlight t ≠ 0)
    (hloading : ∀ f, T.isLoading f state = if T.tracks t = some f ∧ lowers = true then false else T.isLoading f s.state) :
    (Store.mk state (Function.update s.inFlight t (s.inFlight t - 1))).TracksRequests ↔
      (T.tracks t ≠ none → (lowers = true ↔ s.inFlight t = 1)) := by
  have hflag : ∀ f, T.tracks t = some f → T.isLoading f state = !lowers := by
    intro f hf
    have hup : T.isLoading f s.state = true := (h f).2 ((busy_iff hf).2 (Nat.pos_of_ne_zero hflight))
    rw [hloading, hup]
    cases lowers <;> simp [hf]
  have hbusy : ∀ f, T.tracks t = some f →
      ((Store.mk state (Function.update s.inFlight t (s.inFlight t - 1))).Busy f ↔ s.inFlight t ≠ 1) := by
    intro f hf
    rw [busy_iff hf]
    show 0 < Function.update s.inFlight t (s.inFlight t - 1) t ↔ _
    rw [Function.update_self]
    omega
  constructor
  · intro h' htracked
    obtain ⟨f, hf⟩ := Option.ne_none_iff_exists'.1 htracked
    have hiff : T.isLoading f state = true ↔ _ := h' f
    rw [hbusy f hf, hflag f hf, Bool.not_eq_true'] at hiff
    rw [← Bool.not_eq_false, hiff, Ne, not_not]
  · intro horder f
    show T.isLoading f state = true ↔ _
    by_cases hf : T.tracks t = some f
    · have hiff := horder (by simp [hf])
      rw [hbusy f hf, hflag f hf, Bool.not_eq_true', ← Bool.not_eq_true, hiff]
    · rw [busy_update hf, hloading, if_neg fun hboth => hf hboth.1]
      exact h f

theorem tracksRequests_pending {s : Store T} (h : s.TracksRequests) (t : T.Thunk) :
    (Store.mk (T.pending t s.state) (Function.update s.inFlight t (s.inFlight t + 1))).TracksRequests := by
  intro f
  show T.isLoading f (T.pending t s.state) = true ↔ _
  rw [T.isLoading_pending]
  by_cases hf : T.tracks t = some f
  · rw [if_pos hf, busy_iff hf]
    refine ⟨fun _ => ?_, fun _ => rfl⟩
    show 0 < Function.update s.inFlight t (s.inFlight t + 1) t
    rw [Function.update_self]
    exact Nat.succ_pos _
  · rw [if_neg hf, busy_update hf]
    exact h f

theorem tracksRequests_clear {s : Store T} (h : s.TracksRequests) (c : T.Clear) :
    (Store.mk (T.clear c s.state) s.inFlight).TracksRequests ↔ Orderly s (.clear c) := by
  constructor
  · intro h' t htracked hclears
    obtain ⟨f, hf⟩ := Option.ne_none_iff_exists'.1 htracked
    have hiff : T.isLoading f (T.clear c s.state) = true ↔ s.Busy f := h' f
    rw [T.isLoading_clear, if_pos (hclears.symm.trans hf), busy_iff hf] at hiff
    by_contra hflight
    cases hiff.2 (Nat.pos_of_ne_zero hflight)
  · intro horder f
    show T.isLoading f (T.clear c s.state) = true ↔ s.Busy f
    rw [T.isLoading_clear]
    split
    · rename_i hclears
      refine ⟨fun hfalse => (by cases hfalse), ?_⟩
      rintro ⟨t, ht, hbusy⟩
      have hnone := horder t (by simp [ht]) (ht.trans hclears.symm)
      omega
    · exact h f

/-- A step keeps the flags right if and only if it is orderly. -/
theorem tracksRequests_step {s s' : Store T} {a : Action T} (h : s.TracksRequests) (hs : step a s = some s') :
    s'.TracksRequests ↔ Orderly s a := by
  cases a with
  | pending t =>
    cases hs
    exact ⟨fun _ => trivial, fun _ => tracksRequests_pending h t⟩
  | fulfilled x =>
    obtain ⟨hflight, heq⟩ := Option.ite_none_left_eq_some.1 hs
    cases heq
    exact tracksRequests_end h hflight fun f => T.isLoading_fulfilled f x s.state
  | rejected t =>
    obtain ⟨hflight, heq⟩ := Option.ite_none_left_eq_some.1 hs
    cases heq
    exact tracksRequests_end h hflight fun f => T.isLoading_rejected f t s.state
  | clear c =>
    cases hs
    exact tracksRequests_clear h c

/-- The flags are right throughout a run if and only if all of its actions are orderly. -/
theorem tracksRequests_iff {s : Store T} {history : List (Store T × Action T)}
    (hr : Machine.Run step (start T) history s) :
    (∀ t ∈ Machine.states history s, t.TracksRequests) ↔ ∀ x ∈ history, Orderly x.1 x.2 :=
  hr.invariant_iff (fun _ _ _ h hs => tracksRequests_step h hs) (tracksRequests_start T)

/-! ## Tables side by side -/

section Prod

variable {φ ψ : Type}

theorem map_inl_eq {o : Option φ} {f : φ} : o.map (Sum.inl : φ → φ ⊕ ψ) = some (.inl f) ↔ o = some f := by
  cases o <;> simp

theorem map_inr_eq {o : Option ψ} {f : ψ} : o.map (Sum.inr : ψ → φ ⊕ ψ) = some (.inr f) ↔ o = some f := by
  cases o <;> simp

theorem map_inl_ne (o : Option φ) (f : ψ) : o.map Sum.inl ≠ some (.inr f) := by
  cases o <;> simp

theorem map_inr_ne (o : Option ψ) (f : φ) : o.map Sum.inr ≠ some (.inl f) := by
  cases o <;> simp

/-- A state of both tables; every action is about one of them. -/
def Table.prod (A B : Table) : Table where
  State := A.State × B.State
  Thunk := A.Thunk ⊕ B.Thunk
  Answer := A.Answer ⊕ B.Answer
  Clear := A.Clear ⊕ B.Clear
  Flag := A.Flag ⊕ B.Flag
  initialState := (A.initialState, B.initialState)
  thunk := Sum.map A.thunk B.thunk
  pending := Sum.elim (fun t s => (A.pending t s.1, s.2)) fun t s => (s.1, B.pending t s.2)
  fulfilled := Sum.elim (fun x s => (A.fulfilled x s.1, s.2)) fun x s => (s.1, B.fulfilled x s.2)
  rejected := Sum.elim (fun t s => (A.rejected t s.1, s.2)) fun t s => (s.1, B.rejected t s.2)
  clear := Sum.elim (fun c s => (A.clear c s.1, s.2)) fun c s => (s.1, B.clear c s.2)
  isLoading := Sum.elim (fun f s => A.isLoading f s.1) fun f s => B.isLoading f s.2
  tracks := Sum.elim (fun t => (A.tracks t).map .inl) fun t => (B.tracks t).map .inr
  settles := Sum.elim (fun x s => A.settles x s.1) fun x s => B.settles x s.2
  resets := Sum.elim A.resets B.resets
  clears := Sum.elim (fun c => (A.clears c).map .inl) fun c => (B.clears c).map .inr
  tracks_inj := by
    rintro (t | t) (t' | t') (f | f) ht ht'
    · exact congrArg Sum.inl (A.tracks_inj t t' f (map_inl_eq.1 ht) (map_inl_eq.1 ht'))
    · exact absurd ht (map_inl_ne _ f)
    · exact absurd ht' (map_inr_ne _ f)
    · exact absurd ht (map_inl_ne _ f)
    · exact absurd ht (map_inr_ne _ f)
    · exact absurd ht' (map_inl_ne _ f)
    · exact absurd ht (map_inr_ne _ f)
    · exact congrArg Sum.inr (B.tracks_inj t t' f (map_inr_eq.1 ht) (map_inr_eq.1 ht'))
  isLoading_initial := by
    rintro (f | f)
    · exact A.isLoading_initial f
    · exact B.isLoading_initial f
  isLoading_pending := by
    rintro (f | f) (t | t) s
    · simp only [Sum.elim_inl, map_inl_eq, A.isLoading_pending]
    · simp only [Sum.elim_inl, Sum.elim_inr, map_inr_ne, if_false]
    · simp only [Sum.elim_inl, Sum.elim_inr, map_inl_ne, if_false]
    · simp only [Sum.elim_inr, map_inr_eq, B.isLoading_pending]
  isLoading_fulfilled := by
    rintro (f | f) (x | x) s
    · simp only [Sum.elim_inl, Sum.map_inl, map_inl_eq, A.isLoading_fulfilled]
    · simp only [Sum.elim_inl, Sum.elim_inr, Sum.map_inr, map_inr_ne, false_and, if_false]
    · simp only [Sum.elim_inl, Sum.elim_inr, Sum.map_inl, map_inl_ne, false_and, if_false]
    · simp only [Sum.elim_inr, Sum.map_inr, map_inr_eq, B.isLoading_fulfilled]
  isLoading_rejected := by
    rintro (f | f) (t | t) s
    · simp only [Sum.elim_inl, map_inl_eq, A.isLoading_rejected]
    · simp only [Sum.elim_inl, Sum.elim_inr, map_inr_ne, false_and, if_false]
    · simp only [Sum.elim_inl, Sum.elim_inr, map_inl_ne, false_and, if_false]
    · simp only [Sum.elim_inr, map_inr_eq, B.isLoading_rejected]
  isLoading_clear := by
    rintro (f | f) (c | c) s
    · simp only [Sum.elim_inl, map_inl_eq, A.isLoading_clear]
    · simp only [Sum.elim_inl, Sum.elim_inr, map_inr_ne, if_false]
    · simp only [Sum.elim_inl, Sum.elim_inr, map_inl_ne, if_false]
    · simp only [Sum.elim_inr, map_inr_eq, B.isLoading_clear]

end Prod

end InFlight

end Interleave
