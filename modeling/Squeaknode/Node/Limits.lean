/-
The limits on the number of squeaks under concurrent saves. A save counts the squeaks in one
statement and inserts its own in a later one, so an insertion in between can take the last place
it saw (`FullAfterRace`). While no save inserts in that situation, no limit is exceeded.
-/
import Squeaknode.Node.SqueakTable
import Squeaknode.Node.Sample

namespace Squeaknode

open Interleave Relational SqueakDb SqueakStore

variable {L : Squeaklib} {ρ : Type}

/-! ## Counting by author and height -/

/-- What the second limit is counted by. -/
def slot (r : SqueakRow) : Bytes × Int := (r.authorPublicKey, r.blockHeight)

theorem stable_slot : Stable slot := ⟨fun _ _ => rfl, fun _ _ => rfl⟩

/-- The number of squeaks whose author and height `p` selects. -/
def numIn (p : Bytes × Int → Bool) (db : Db) : Nat := (db.squeaks.filter fun r => p (slot r)).length

theorem getNumberOfSqueaks_eq (db : Db) : SqueakDb.getNumberOfSqueaks db = numIn (fun _ => true) db := by
  simp [SqueakDb.getNumberOfSqueaks, numIn]

theorem numberOfSqueaks_eq (publicKey : Bytes) (blockHeight : Int) (db : Db) :
    SqueakDb.numberOfSqueaksWithPublicKeyWithBlockHeight publicKey blockHeight db =
      numIn (· == (publicKey, blockHeight)) db := rfl

theorem Shrinks.numIn_le {w w' : World ρ} (h : Shrinks slot w w') (p : Bytes × Int → Bool) :
    numIn p w'.db ≤ numIn p w.db := by
  have hcount : ∀ rows : List SqueakRow,
      (rows.filter fun r => p (slot r)).length = ((rows.map slot).filter p).length := by
    intro rows; rw [List.filter_map, List.length_map]; rfl
  unfold numIn
  rw [hcount, hcount]
  exact (List.Sublist.filter p h).length_le

theorem numIn_insertSqueak {row : SqueakRow} {db : Db} (hfree : taken SqueakRow.hash row.hash db.squeaks = false)
    (p : Bytes × Int → Bool) :
    numIn p (SqueakDb.insertSqueak row db).2 = numIn p db + if p (slot row) then 1 else 0 := by
  unfold numIn
  rw [insertSqueak_of_free _ hfree, List.filter_append, List.length_append]
  by_cases hp : p (slot row) = true <;> simp [hp]

/-! ## The limits and the race -/

/-- Both limits hold. -/
def WithinLimits (N : Node L ρ) (db : Db) : Prop :=
  SqueakDb.getNumberOfSqueaks db ≤ N.maxSqueaks ∧ ∀ publicKey blockHeight,
    SqueakDb.numberOfSqueaksWithPublicKeyWithBlockHeight publicKey blockHeight db ≤ N.maxSqueaksPerPublicKeyPerBlock

/-- The observation of an insertion of a squeak that `p` selects. -/
def inserts (p : Bytes × Int → Bool) : Obs → Bool
  | .inserted row _ _ => p (slot row)
  | _ => false

/-- Since operation `t` made the count `counted`, a squeak that `p` selects was inserted. -/
def Raced (trace : List (Nat × Obs)) (t : Nat) (counted : Obs → Prop) (p : Bytes × Int → Bool) : Prop :=
  ∃ before o since, trace = before ++ (t, o) :: since ∧ counted o ∧ ∃ e ∈ since, inserts p e.2 = true

/-- A count of all squeaks. -/
def CountedSqueaks (o : Obs) : Prop := ∃ num, o = .countedSqueaks num

/-- A count of the squeaks with the author and the height of `row`. -/
def CountedPublicKeyBlock (row : SqueakRow) (o : Obs) : Prop :=
  ∃ num, o = .countedPublicKeyBlock row.authorPublicKey row.blockHeight num

/-- A save inserts its squeak into a full table, or as one too many of its author and height, after
another insertion since its own count. -/
def FullAfterRace (N : Node L ρ) (trace : List (Nat × Obs)) : Prop :=
  ∃ (pre post : List (Nat × Obs)) (t : Nat) (row : SqueakRow) (numSqueaks numPublicKeyBlock : Nat),
    trace = pre ++ (t, .inserted row numSqueaks numPublicKeyBlock) :: post ∧
    ((N.maxSqueaks ≤ numSqueaks ∧ Raced pre t CountedSqueaks fun _ => true) ∨
      (N.maxSqueaksPerPublicKeyPerBlock ≤ numPublicKeyBlock ∧
        Raced pre t (CountedPublicKeyBlock row) (· == slot row)))

theorem FullAfterRace.append {N : Node L ρ} {trace : List (Nat × Obs)} (h : FullAfterRace N trace)
    (more : List (Nat × Obs)) : FullAfterRace N (trace ++ more) := by
  obtain ⟨pre, post, t, row, n, m, rfl, hfull⟩ := h
  exact ⟨pre, post ++ more, t, row, n, m, by simp, hfull⟩

/-! ## The protocol of the counts -/

/-- Between two views, a count only grows when a squeak it counts was inserted. -/
def GrowsByInserts (v w : View (World ρ) Obs) : Prop :=
  ∃ since, w.1 = v.1 ++ since ∧
    ∀ p, (∀ e ∈ since, inserts p e.2 = false) → numIn p w.2.db ≤ numIn p v.2.db

theorem GrowsByInserts.trans {u v w : View (World ρ) Obs} (h₁ : GrowsByInserts u v) (h₂ : GrowsByInserts v w) :
    GrowsByInserts u w := by
  obtain ⟨s₁, ht₁, hn₁⟩ := h₁
  obtain ⟨s₂, ht₂, hn₂⟩ := h₂
  refine ⟨s₁ ++ s₂, by rw [ht₂, ht₁, List.append_assoc], fun p hp => ?_⟩
  exact (hn₂ p fun e he => hp e (List.mem_append_right _ he)).trans
    (hn₁ p fun e he => hp e (List.mem_append_left _ he))

/-- The limits hold unless a save has inserted after a race, and counts grow by insertions alone. -/
def limits (N : Node L ρ) : Protocol (World ρ) Obs where
  inv v := ¬ FullAfterRace N v.1 → WithinLimits N v.2.db
  moves := GrowsByInserts
  refl v := ⟨[], by simp, fun _ _ => le_rfl⟩
  trans := GrowsByInserts.trans

/-- A statement that inserts nothing: it leaves no insertion on the trace and shrinks the table. -/
def InsertsNothing (w : World ρ) (o : List Obs) (w' : World ρ) : Prop :=
  (∀ p, ∀ e ∈ o, inserts p e = false) ∧ Shrinks slot w w'

theorem limits_allows {N : Node L ρ} : (limits N).Allows InsertsNothing := by
  rintro v t o s hi ⟨ho, hs⟩
  refine ⟨fun hn => ?_, o.map (t, ·), rfl, fun p _ => hs.numIn_le p⟩
  obtain ⟨htotal, hslots⟩ := hi fun h => hn (h.append _)
  constructor
  · rw [getNumberOfSqueaks_eq] at htotal ⊢
    exact le_trans (by exact_mod_cast hs.numIn_le _) htotal
  · intro publicKey blockHeight
    have h := hslots publicKey blockHeight
    rw [numberOfSqueaks_eq] at h ⊢
    exact le_trans (by exact_mod_cast hs.numIn_le _) h

section Safe

variable {t : Nat}

theorem insertsNothing_getBlockHeader (N : Node L ρ) (squeak : L.CSqueak) :
    (SqueakCore.getBlockHeader N squeak).Within InsertsNothing := by
  refine Prog.within_bind (Prog.within_bind (Prog.within_observed fun w => ⟨?_, Shrinks.refl slot w⟩)
    fun _ => Prog.within_ofExcept _) fun info => ?_
  · intro p e he
    split at he
    · cases List.mem_singleton.1 he; rfl
    · cases he
  · split <;> trivial

/-- While nothing that `p` selects was inserted since operation `t` made the count `o`, there are
fewer such squeaks than `max`. -/
def RoomSince (t : Nat) (o : Obs) (p : Bytes × Int → Bool) (max : Int) (v : View (World ρ) Obs) : Prop :=
  ∃ before since, v.1 = before ++ (t, o) :: since ∧
    ((∀ e ∈ since, inserts p e.2 = false) → numIn p v.2.db < max)

theorem RoomSince.moved {o : Obs} {p : Bytes × Int → Bool} {max : Int} {v w : View (World ρ) Obs}
    (h : RoomSince t o p max v) (hm : GrowsByInserts v w) : RoomSince t o p max w := by
  obtain ⟨before, since, ht, hroom⟩ := h
  obtain ⟨more, hw, hn⟩ := hm
  refine ⟨before, since ++ more, by rw [hw, ht]; simp, fun hnone => ?_⟩
  have h₁ := hroom fun e he => hnone e (List.mem_append_left _ he)
  have h₂ := hn p fun e he => hnone e (List.mem_append_right _ he)
  omega

/-- Either there is room, or the count was raced. -/
theorem RoomSince.lt_or_raced {o : Obs} {p : Bytes × Int → Bool} {max : Int} {v : View (World ρ) Obs}
    (h : RoomSince t o p max v) {counted : Obs → Prop} (ho : counted o) :
    numIn p v.2.db < max ∨ Raced v.1 t counted p := by
  obtain ⟨before, since, ht, hroom⟩ := h
  by_cases hany : ∃ e ∈ since, inserts p e.2 = true
  · exact .inr ⟨before, o, since, ht, ho, hany⟩
  · refine .inl (hroom fun e he => ?_)
    cases hi : inserts p e.2 with
    | false => rfl
    | true => exact absurd ⟨e, he, hi⟩ hany

/-- A count that found room, followed by what is safe with that knowledge. -/
theorem safe_counted_bind {β : Type} {Q : Except Err β → View (World ρ) Obs → Prop} {N : Node L ρ}
    {o : Db → Obs} (hsilent : ∀ db p, inserts p (o db) = false) {p : Bytes × Int → Bool}
    {f : Nat → NodeM ρ β} {v : View (World ρ) Obs}
    (hf : ∀ w (db : Db), GrowsByInserts v w → (∀ max : Int, numIn p db < max → RoomSince t (o db) p max w) →
      (f (numIn p db)).Safe (limits N) t Q w) :
    (Prog.observed (fun w : World ρ => (numIn p w.db, w)) (fun w => [o w.db]) >>= f).Safe (limits N) t Q v := by
  intro v' hm hi
  obtain ⟨h₁, h₂⟩ := limits_allows v' t [o v'.2.db] v'.2 hi
    ⟨fun p e he => by cases List.mem_singleton.1 he; exact hsilent _ _, Shrinks.refl slot _⟩
  refine ⟨h₁, h₂, hf _ v'.2.db (hm.trans h₂) fun max hlt => ⟨v'.1, [], rfl, fun _ => hlt⟩⟩

theorem safe_insertSqueak_limits (N : Node L ρ) (row : SqueakRow) {o₁ o₂ : Obs} (ho₁ : CountedSqueaks o₁)
    (ho₂ : CountedPublicKeyBlock row o₂) {v : View (World ρ) Obs}
    (htotal : RoomSince t o₁ (fun _ => true) N.maxSqueaks v)
    (hslot : RoomSince t o₂ (· == slot row) N.maxSqueaksPerPublicKeyPerBlock v) :
    (SqueakStore.insertSqueak row).Safe (limits N) t (fun _ _ => True) v := by
  intro v' hm hi
  cases hfree : taken SqueakRow.hash row.hash v'.2.db.squeaks with
  | true =>
    -- the squeak was stored meanwhile, and nothing is inserted
    have hnothing : InsertsNothing v'.2 (insertedObs row v'.2.db)
        { v'.2 with db := (SqueakDb.insertSqueak row v'.2.db).2 } := by
      rw [insertedObs_of_taken hfree, insertSqueak_of_taken hfree]
      exact ⟨fun p e he => by (cases he), Shrinks.refl slot _⟩
    obtain ⟨h₁, h₂⟩ := limits_allows v' t _ _ hi hnothing
    exact ⟨h₁, h₂, trivial⟩
  | false =>
    have hobs : insertedObs row v'.2.db = _ := insertedObs_of_free hfree
    refine ⟨fun hn => ?_, ⟨(insertedObs row v'.2.db).map (t, ·), rfl, fun p hp => ?_⟩, trivial⟩
    · change ¬ FullAfterRace N (v'.1 ++ (insertedObs row v'.2.db).map (t, ·)) at hn
      rw [hobs] at hn
      obtain ⟨hall, hslots⟩ := hi fun h => hn (h.append _)
      -- there is room still, or another thread took it after the count
      have htotal' : numIn (fun _ => true) v'.2.db < N.maxSqueaks := by
        rcases (htotal.moved hm).lt_or_raced ho₁ with h | h
        · exact h
        · by_contra hfull
          exact hn ⟨v'.1, [], t, row, _, _, rfl, .inl ⟨by rw [getNumberOfSqueaks_eq]; omega, h⟩⟩
      have hslot' : numIn (· == slot row) v'.2.db < N.maxSqueaksPerPublicKeyPerBlock := by
        rcases (hslot.moved hm).lt_or_raced ho₂ with h | h
        · exact h
        · by_contra hfull
          exact hn ⟨v'.1, [], t, row, _, _, rfl, .inr ⟨by rw [numberOfSqueaks_eq]; exact not_lt.1 hfull, h⟩⟩
      constructor
      · rw [getNumberOfSqueaks_eq]
        show (numIn (fun _ => true) (SqueakDb.insertSqueak row v'.2.db).2 : Int) ≤ _
        rw [numIn_insertSqueak hfree]
        push_cast; simp; omega
      · intro publicKey blockHeight
        rw [numberOfSqueaks_eq]
        show (numIn (· == (publicKey, blockHeight)) (SqueakDb.insertSqueak row v'.2.db).2 : Int) ≤ _
        rw [numIn_insertSqueak hfree]
        by_cases hkey : slot row = (publicKey, blockHeight)
        · rw [← hkey]; simp; omega
        · have h := hslots publicKey blockHeight
          rw [numberOfSqueaks_eq] at h
          simpa [hkey] using h
    · have hp' : p (slot row) = false := by
        have h := hp (t, .inserted row _ _) (by rw [hobs]; exact List.mem_singleton.2 rfl)
        exact h
      show numIn p (SqueakDb.insertSqueak row v'.2.db).2 ≤ _
      rw [numIn_insertSqueak hfree, hp']
      simp

theorem sure_saveSqueak_limits (N : Node L ρ) (squeak : L.CSqueak) : (saveSqueak N squeak).Sure (limits N) t := by
  refine Prog.closed_sure.bind (Prog.Within.sure (Prog.within_ofExcept _) limits_allows) fun _ => ?_
  refine Prog.closed_sure.bind ((insertsNothing_getBlockHeader N squeak).sure limits_allows) fun header v => ?_
  unfold SqueakStore.getNumberOfSqueaks SqueakStore.numberOfSqueaksWithPublicKeyWithBlockHeight
  simp only [getNumberOfSqueaks_eq, numberOfSqueaks_eq]
  refine safe_counted_bind (o := fun db => .countedSqueaks (numIn (fun _ => true) db)) (fun _ _ => rfl)
    fun v₁ db₁ _ hroom₁ => ?_
  split
  · trivial
  · rename_i htotal
    refine safe_counted_bind (o := fun db => .countedPublicKeyBlock (L.publicKeyToBytes (L.getPubKey squeak))
      (L.nBlockHeight squeak) (numIn (· == (L.publicKeyToBytes (L.getPubKey squeak), L.nBlockHeight squeak)) db))
      (fun _ _ => rfl) fun v₂ db₂ hm₂ hroom₂ => ?_
    split
    · trivial
    · rename_i hslot
      have h₁ := (hroom₁ _ (not_le.1 htotal)).moved hm₂
      have h₂ := hroom₂ _ (not_le.1 hslot)
      have hask : (ask N.timestampNowMs : NodeM ρ Int).Within InsertsNothing :=
        within_ask fun w => ⟨fun p e he => by (cases he), Shrinks.refl slot _⟩
      have hsafe := (hask.sure limits_allows : Prog.Sure (limits N) t _) v₂
      refine Prog.safe_bind (Prog.safe_mono ?_ (hsafe.keeping
        (fun _ _ hm h => And.intro (h.1.moved hm) (h.2.moved hm)) ⟨h₁, h₂⟩))
      rintro (e | now) v₃ ⟨-, h₁, h₂⟩
      · trivial
      · exact safe_insertSqueak_limits N _ ⟨_, rfl⟩ ⟨_, rfl⟩ h₁ h₂

/-- Quiet programs that shrink the table insert nothing. -/
theorem Shrinks.nothing {α : Type} {p : NodeM ρ α} (hp : p.Quiet (Shrinks slot)) : p.Within InsertsNothing :=
  hp.mono fun _ _ _ ⟨ho, hs⟩ => ⟨fun p e he => by (rw [ho] at he; cases he), hs⟩

theorem insertsNothing_saveSecretKey (squeakHash secretKey : Bytes) :
    (saveSecretKey L squeakHash secretKey : NodeM ρ _).Within InsertsNothing :=
  Shrinks.nothing <| within_saveSecretKey quiet_refl
    (fun w h k => ⟨rfl, shrinks_updateSqueak (f := fun r => { r with secretKey := some k }) (fun _ => rfl) h w⟩)
    (fun w h c => ⟨rfl, shrinks_updateSqueak (fun r => stable_slot.content r c) h w⟩) _ _

theorem sure_program_limits (N : Node L ρ) (op : StoreOp L) : (op.program N).Sure (limits N) t :=
  closed_program Prog.closed_sure stable_slot (fun hp => (Shrinks.nothing hp).sure limits_allows)
    (sure_saveSqueak_limits N) (fun h k => (insertsNothing_saveSecretKey h k).sure limits_allows) op

end Safe

/-- A run of concurrent operations from a store within the limits stays within them when no save
inserts into a full table or a full slot after a race. -/
theorem withinLimits_of_run (N : Node L ρ) (ops : List (StoreOp L)) {w₀ : World ρ} (h₀ : WithinLimits N w₀.db)
    {history : List (Pool (World ρ) Obs Err)} {P : Pool (World ρ) Obs Err}
    (hr : Pool.Run SameSqueaks (.start w₀ (ops.map (StoreOp.program N))) history P)
    (hrace : ¬ FullAfterRace N P.trace) : WithinLimits N P.shared.db := by
  have hstart : (Pool.start w₀ (ops.map (StoreOp.program N))).AllSafe (limits N) fun _ _ _ => True := by
    refine ⟨fun _ => h₀, fun i p hp => ?_⟩
    change (ops.map (StoreOp.program N))[i]? = some p at hp
    rw [List.getElem?_map] at hp
    obtain ⟨op, -, rfl⟩ := Option.map_eq_some_iff.1 hp
    exact sure_program_limits N op _
  have henv : (limits N).Ignores SameSqueaks :=
    limits_allows.ignores fun _ _ hs => ⟨fun p e he => by (cases he), hs.shrinks⟩
  exact (hr.allSafe henv (fun _ _ _ _ _ _ => trivial) hstart).1.inv hrace

/-! ## What an insertion leaves -/

/-- After an insertion, the counts on the trace have grown by one. -/
def Announced (_ : World ρ) (o : List Obs) (w' : World ρ) : Prop :=
  ∀ row n m, .inserted row n m ∈ o → SqueakDb.getNumberOfSqueaks w'.db = n + 1 ∧
    SqueakDb.numberOfSqueaksWithPublicKeyWithBlockHeight row.authorPublicKey row.blockHeight w'.db = m + 1

theorem InsertsNothing.announced {α : Type} {p : NodeM ρ α} (hp : p.Within InsertsNothing) :
    p.Within Announced := by
  refine hp.mono fun w o w' h row n m hmem => ?_
  have hno := h.1 (fun _ => true) _ hmem
  cases hno

theorem announced_insertSqueak (row : SqueakRow) :
    (SqueakStore.insertSqueak row : NodeM ρ _).Within Announced := by
  refine Prog.within_observed fun w row' n m hmem => ?_
  cases hfree : taken SqueakRow.hash row.hash w.db.squeaks with
  | true => rw [insertedObs_of_taken hfree] at hmem; cases hmem
  | false =>
    rw [insertedObs_of_free hfree] at hmem
    cases List.mem_singleton.1 hmem
    rw [getNumberOfSqueaks_eq, getNumberOfSqueaks_eq, numberOfSqueaks_eq, numberOfSqueaks_eq]
    constructor
    · exact numIn_insertSqueak hfree _
    · show numIn _ (SqueakDb.insertSqueak row w.db).2 = _
      rw [numIn_insertSqueak hfree]
      simp [slot]

theorem announced_saveSqueak (N : Node L ρ) (squeak : L.CSqueak) : (saveSqueak N squeak).Within Announced := by
  have hcount : ∀ {β : Type} (f : Db → β) (o : Db → Obs), (∀ db p, inserts p (o db) = false) →
      (Prog.observed (fun w : World ρ => (f w.db, w)) fun w => [o w.db] : NodeM ρ β).Within Announced := by
    refine fun f o ho => InsertsNothing.announced (Prog.within_observed fun w =>
      ⟨fun p e he => ?_, Shrinks.refl slot w⟩)
    cases List.mem_singleton.1 he
    exact ho _ _
  have hsqueaks : (SqueakStore.getNumberOfSqueaks : NodeM ρ Nat).Within Announced :=
    hcount _ (fun db => .countedSqueaks (SqueakDb.getNumberOfSqueaks db)) fun _ _ => rfl
  have hslot : ∀ publicKey blockHeight, (SqueakStore.numberOfSqueaksWithPublicKeyWithBlockHeight publicKey blockHeight :
      NodeM ρ Nat).Within Announced := fun publicKey blockHeight =>
    hcount _ (fun db => .countedPublicKeyBlock publicKey blockHeight
      (SqueakDb.numberOfSqueaksWithPublicKeyWithBlockHeight publicKey blockHeight db)) fun _ _ => rfl
  refine Prog.within_bind (Prog.within_ofExcept _) fun _ =>
    Prog.within_bind (InsertsNothing.announced (insertsNothing_getBlockHeader N squeak)) fun header =>
    Prog.within_bind hsqueaks fun numSqueaks => ?_
  split
  · trivial
  · refine Prog.within_bind (hslot _ _) fun num => ?_
    split
    · trivial
    · exact Prog.within_bind (InsertsNothing.announced (within_ask fun w => ⟨fun p e he => by (cases he),
        Shrinks.refl slot _⟩)) fun now => announced_insertSqueak _

theorem announced_program (N : Node L ρ) (op : StoreOp L) : (op.program N).Within Announced :=
  closed_program (Prog.closed_within Announced) stable_slot (fun hp => InsertsNothing.announced (Shrinks.nothing hp))
    (announced_saveSqueak N) (fun h k => InsertsNothing.announced (insertsNothing_saveSecretKey h k)) op

/-- Behind every insertion on the trace there is a state of the run with one squeak more. -/
theorem inserted_state (N : Node L ρ) (ops : List (StoreOp L)) {w₀ : World ρ}
    {history : List (Pool (World ρ) Obs Err)} {P : Pool (World ρ) Obs Err}
    (hr : Pool.Run SameSqueaks (.start w₀ (ops.map (StoreOp.program N))) history P) {t n m : Nat} {row : SqueakRow}
    (hmem : (t, .inserted row n m) ∈ P.trace) : ∃ Q ∈ history ++ [P],
      SqueakDb.getNumberOfSqueaks Q.shared.db = n + 1 ∧ SqueakDb.numberOfSqueaksWithPublicKeyWithBlockHeight
        row.authorPublicKey row.blockHeight Q.shared.db = m + 1 := by
  have henv : ∀ w w' : World ρ, SameSqueaks w w' → Announced w [] w' := fun _ _ _ _ _ _ h => by (cases h)
  have hstart : ∀ p ∈ (Pool.start w₀ (ops.map (StoreOp.program N))).threads, p.Within Announced := by
    intro p hp
    obtain ⟨op, -, rfl⟩ := List.mem_map.1 hp
    exact announced_program N op
  induction hr with
  | init => cases hmem
  | @snoc history P P' hr hs ih =>
    obtain ⟨-, t', o, htrace, hann⟩ := hs.within henv (hr.within henv hstart)
    rw [htrace] at hmem
    rcases List.mem_append.1 hmem with hmem | hmem
    · obtain ⟨Q, hQ, h⟩ := ih hmem
      exact ⟨Q, List.mem_append_left _ hQ, h⟩
    · obtain ⟨o', ho, heq⟩ := List.mem_map.1 hmem
      cases heq
      exact ⟨P', by simp, hann row n m ho⟩

/-- A run of concurrent operations from a store within the limits is within them in every state it
goes through if and only if no save inserts into a full table or a full slot after a race. -/
theorem limits_iff (N : Node L ρ) (ops : List (StoreOp L)) {w₀ : World ρ} (h₀ : WithinLimits N w₀.db)
    {history : List (Pool (World ρ) Obs Err)} {P : Pool (World ρ) Obs Err}
    (hr : Pool.Run SameSqueaks (.start w₀ (ops.map (StoreOp.program N))) history P) :
    (∀ Q ∈ history ++ [P], WithinLimits N Q.shared.db) ↔ ¬ FullAfterRace N P.trace := by
  constructor
  · rintro hall ⟨pre, post, t, row, n, m, htrace, hfull⟩
    obtain ⟨Q, hQ, hn, hm⟩ := inserted_state N ops hr (by rw [htrace]; simp : (t, .inserted row n m) ∈ P.trace)
    obtain ⟨h₁, h₂⟩ := hall Q hQ
    rw [hn] at h₁
    have h₃ := h₂ row.authorPublicKey row.blockHeight
    rw [hm] at h₃
    push_cast at h₁ h₃
    rcases hfull with ⟨hle, -⟩ | ⟨hle, -⟩ <;> omega
  · intro hrace Q hQ
    obtain ⟨history', hr', more, hmore⟩ := hr.through hQ
    exact withinLimits_of_run N ops h₀ hr' fun h => hrace (hmore ▸ h.append more)

/-- One save after another: the second finds the store full. -/
theorem limits_iff_sample : ∃ (history : List (Pool (World Sample.Outside) Obs Err))
    (P : Pool (World Sample.Outside) Obs Err),
    Pool.Run SameSqueaks (.start Sample.world
      ([StoreOp.saveSqueak Sample.squeak, .saveSqueak Sample.squeak₂].map
        (StoreOp.program (Sample.node 1)))) history P ∧ SqueakDb.getNumberOfSqueaks P.shared.db = 1 ∧
      ((∀ Q ∈ history ++ [P], WithinLimits (Sample.node 1) Q.shared.db) ↔ ¬ FullAfterRace (Sample.node 1) P.trace) := by
  let ops : List (StoreOp Sample.squeaklib) := [.saveSqueak Sample.squeak, .saveSqueak Sample.squeak₂]
  obtain ⟨history, hr⟩ := Pool.Run.exec (List.replicate 5 0 ++ List.replicate 2 1)
    (.init : Pool.Run SameSqueaks (.start Sample.world (ops.map (StoreOp.program (Sample.node 1)))) _ _)
  exact ⟨history, _, hr, by decide +kernel, limits_iff (Sample.node 1) ops
    (⟨by decide, fun _ _ => show ((0 : Nat) : Int) ≤ 1 by decide⟩ : WithinLimits (Sample.node 1) Sample.world.db) hr⟩

/-- Two saves that both count before either inserts put two squeaks into a store for one. -/
theorem limits_exceeded : ∃ (history : List (Pool (World Sample.Outside) Obs Err))
    (P : Pool (World Sample.Outside) Obs Err), WithinLimits (Sample.node 1) Sample.world.db ∧
    Pool.Run SameSqueaks (.start Sample.world
      ([StoreOp.saveSqueak Sample.squeak, .saveSqueak Sample.squeak₂].map
        (StoreOp.program (Sample.node 1)))) history P ∧ ¬ WithinLimits (Sample.node 1) P.shared.db := by
  let ops : List (StoreOp Sample.squeaklib) := [.saveSqueak Sample.squeak, .saveSqueak Sample.squeak₂]
  obtain ⟨history, hr⟩ := Pool.Run.exec (List.replicate 4 0 ++ List.replicate 5 1 ++ [0])
    (.init : Pool.Run SameSqueaks (.start Sample.world (ops.map (StoreOp.program (Sample.node 1)))) _ _)
  exact ⟨history, _, ⟨by decide, fun _ _ => show ((0 : Nat) : Int) ≤ 1 by decide⟩, hr,
    fun h => absurd h.1 (by decide +kernel)⟩

end Squeaknode
