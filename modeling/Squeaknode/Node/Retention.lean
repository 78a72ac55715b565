/-
What `delete_old_squeaks` deletes. One SELECT decides which squeaks are old, not liked and not of a
signing profile; each of them is deleted in a statement of its own, by its hash, and nothing is
checked again in between.
-/
import Squeaknode.Db.Entries
import Squeaknode.Db.Statements
import Squeaknode.Interleave.Stages
import Squeaknode.Node.Sample
import Squeaknode.Node.SqueakTable

namespace Squeaknode

open Interleave Relational SqueakDb SqueakStore

variable {L : Squeaklib} {ρ : Type}

/-! ## The SELECT -/

/-- `get_old_squeaks_to_delete` with its joins: NULL, of an author without a profile, is no private key. -/
def selectOldSqueaks (now intervalS : Int) (db : Db) : List Bytes :=
  ((joinProfiles db).filter fun x =>
    now > x.squeak.createdTimeMs + intervalS * 1000 && !(x.author.bind ProfileRow.privateKey).isSome &&
      !x.squeak.likedTimeMs.isSome).map fun x => x.squeak.hash

theorem selectOldSqueaks_eq {db : Db} (h : UniqueOn ProfileRow.publicKey db.profiles.rows) (now intervalS : Int) :
    selectOldSqueaks now intervalS db = getOldSqueaksToDelete now intervalS db := by
  have hauthor : ∀ r : SqueakRow, (!(((joined db.profiles.rows r).author.bind ProfileRow.privateKey).isSome)) =
      (findBy ProfileRow.publicKey r.authorPublicKey db.profiles.rows).all fun p => p.privateKey.isNone := by
    intro r
    have hfind : (joined db.profiles.rows r).author =
      findBy ProfileRow.publicKey r.authorPublicKey db.profiles.rows := by
      unfold joined findBy
      apply congrArg fun on => db.profiles.rows.find? on
      funext p
      rw [Bool.eq_iff_iff]
      constructor
      · intro h
        simp [publicKey_of_isAuthor h]
      · intro h
        have heq : p.publicKey = r.authorPublicKey := eq_of_beq h
        simp [isAuthor, heq]
    rw [hfind]
    cases findBy ProfileRow.publicKey r.authorPublicKey db.profiles.rows with
    | none => rfl
    | some p =>
      rw [Option.bind_some, Option.all_some]
      cases p.privateKey <;> rfl
  unfold selectOldSqueaks getOldSqueaksToDelete
  rw [joinProfiles_eq h, List.filter_map, List.map_map]
  congr 1
  apply List.filter_congr
  intro r _
  show (decide (now > r.createdTimeMs + intervalS * 1000) && _ && !r.likedTimeMs.isSome) = _
  rw [hauthor r, Option.not_isSome]

/-! ## Eligible squeaks -/

variable (N : Node L ρ)

/-- Older than the retention, not liked, and not of an author whose profile has a private key. -/
structure Eligible (w : World ρ) (r : SqueakRow) : Prop where
  old : r.createdTimeMs + N.squeakRetentionS * 1000 < clock N w
  unliked : r.likedTimeMs = none
  author : ∀ p ∈ w.db.profiles.rows, p.publicKey = r.authorPublicKey → p.privateKey = none

/-- The squeak with this hash, if it is stored, is eligible. -/
def EligibleHash (w : World ρ) (squeakHash : Bytes) : Prop :=
  ∀ r ∈ w.db.squeaks, r.hash = squeakHash → Eligible N w r

/-- What the schema demands: hashes of squeaks and public keys of profiles are unique. -/
structure MeetsSchema (db : Db) : Prop where
  squeaks : UniqueOn SqueakRow.hash db.squeaks
  profiles : UniqueOn ProfileRow.publicKey db.profiles.rows

variable {N}

theorem mem_getOldSqueaksToDelete {w : World ρ} (hw : MeetsSchema w.db) {r : SqueakRow} (hr : r ∈ w.db.squeaks)
    {now : Int} :
    r.hash ∈ getOldSqueaksToDelete now N.squeakRetentionS w.db ↔
      now > r.createdTimeMs + N.squeakRetentionS * 1000 ∧ r.likedTimeMs = none ∧
        ∀ p ∈ w.db.profiles.rows, p.publicKey = r.authorPublicKey → p.privateKey = none := by
  have hauthor : ((findBy ProfileRow.publicKey r.authorPublicKey w.db.profiles.rows).all fun p => p.privateKey.isNone) =
      true ↔ ∀ p ∈ w.db.profiles.rows, p.publicKey = r.authorPublicKey → p.privateKey = none := by
    constructor
    · intro h p hp hkey
      rw [← hkey, findBy_eq_some hw.profiles hp] at h
      simpa using h
    · intro h
      cases hfind : findBy ProfileRow.publicKey r.authorPublicKey w.db.profiles.rows with
      | none => rfl
      | some p =>
        obtain ⟨hp, hkey⟩ := findBy_some hfind
        simp [h p hp hkey]
  unfold getOldSqueaksToDelete
  constructor
  · intro hmem
    obtain ⟨r', hr', hhash⟩ := List.mem_map.1 hmem
    obtain ⟨hr', hkeep⟩ := List.mem_filter.1 hr'
    obtain rfl := hw.squeaks.eq hr' hr hhash
    simp only [Bool.and_eq_true, decide_eq_true_eq, Option.isNone_iff_eq_none] at hkeep
    exact ⟨hkeep.1.1, hkeep.2, hauthor.1 hkeep.1.2⟩
  · rintro ⟨hold, hunliked, hkeys⟩
    refine List.mem_map_of_mem (List.mem_filter.2 ⟨hr, ?_⟩)
    simp only [Bool.and_eq_true, decide_eq_true_eq, Option.isNone_iff_eq_none]
    exact ⟨⟨hold, hauthor.2 hkeys⟩, hunliked⟩

/-! ## A call that runs alone -/

theorem mem_run_forM_deleteSqueak (squeakHashes : List Bytes) (w : World ρ) (r : SqueakRow) :
    r ∈ ((squeakHashes.forM deleteSqueak : NodeM ρ PUnit).run w).2.db.squeaks ↔
      r ∈ w.db.squeaks ∧ r.hash ∉ squeakHashes := by
  induction squeakHashes generalizing w with
  | nil => exact ⟨fun hr => ⟨hr, List.not_mem_nil⟩, fun hr => hr.1⟩
  | cons h hs ih =>
    show r ∈ ((hs.forM deleteSqueak : NodeM ρ PUnit).run { w with db := SqueakDb.deleteSqueak h w.db }).2.db.squeaks ↔ _
    rw [ih, List.mem_cons, not_or, ← and_assoc]
    apply and_congr_left
    intro _
    show r ∈ deleteWhere _ w.db.squeaks ↔ _
    rw [mem_deleteWhere]
    simp

/-- A call during which nothing else runs deletes the eligible squeaks and no others. -/
theorem deleteOldSqueaks_alone {w : World ρ} (hw : MeetsSchema w.db) :
    ∀ r ∈ w.db.squeaks, r ∈ ((deleteOldSqueaks N).run w).2.db.squeaks ↔ ¬ Eligible N w r := by
  intro r hr
  show r ∈ (((getOldSqueaksToDelete (clock N w) N.squeakRetentionS w.db).forM deleteSqueak : NodeM ρ PUnit).run
    { w with env := (N.timestampNowMs w.env).2 }).2.db.squeaks ↔ _
  rw [mem_run_forM_deleteSqueak, mem_getOldSqueaksToDelete hw hr]
  constructor
  · rintro ⟨-, hnot⟩ h
    exact hnot ⟨h.old, h.unliked, h.author⟩
  · intro hnot
    exact ⟨hr, fun ⟨hold, hunliked, hauthor⟩ => hnot ⟨hold, hunliked, hauthor⟩⟩

/-! ## Calls at the same time as others -/

/-- Where a call of `delete_old_squeaks` is. -/
inductive SweepStage : Type 1
  | started
  /-- the time was read -/
  | selecting (now : Int)
  /-- the squeaks that are still to be deleted -/
  | deleting (squeakHashes : List Bytes)

namespace SweepStage

variable (N : Node L ρ)

/-- What a sweep has left to do at a stage. -/
def program : SweepStage → NodeM ρ PUnit
  | started => deleteOldSqueaks N
  | selecting now => query (getOldSqueaksToDelete now N.squeakRetentionS) >>= fun squeaksToDelete =>
    squeaksToDelete.forM deleteSqueak
  | deleting squeakHashes => squeakHashes.forM deleteSqueak

/-- The stage after the next statement. -/
def next : SweepStage → World ρ → SweepStage
  | started, w => selecting (clock N w)
  | selecting now, w => deleting (getOldSqueaksToDelete now N.squeakRetentionS w.db)
  | deleting squeakHashes, _ => deleting squeakHashes.tail

/-- The sweeps as threads that go from stage to stage. -/
def staging : Staging (World ρ) Obs Err PUnit SweepStage where
  program := program N
  next := next N
  follows := by
    intro stage β stmt obs k h w
    cases stage with
    | started =>
      cases h
      rfl
    | selecting now =>
      cases h
      rfl
    | deleting squeakHashes =>
      cases squeakHashes with
      | nil => cases h
      | cons h' hs =>
        cases h
        rfl

end SweepStage

/-- The start of `n` calls. -/
def sweeps (w : World ρ) (n : Nat) : Staged (World ρ) SweepStage := ⟨w, List.replicate n .started⟩

variable (N)

/-- A DELETE of a call finds no squeak but an eligible one. -/
def DeletesEligible (s : Staged (World ρ) SweepStage) (a : Turn (World ρ)) : Prop :=
  ∀ i squeakHash squeakHashes, a = .thread i → s.stages[i]? = some (SweepStage.deleting (squeakHash :: squeakHashes)) →
    EligibleHash N s.world squeakHash

/-- The statement likes the squeak, makes a signing profile for its author, or inserts it. -/
def Spoils (db : Db) (squeakHash : Bytes) : Statement L → Prop
  | .setSqueakLiked h _ => h = squeakHash
  | .insertProfile _ profile => profile.privateKey.isSome ∧
    ∃ r ∈ db.squeaks, r.hash = squeakHash ∧ r.authorPublicKey = L.publicKeyToBytes profile.publicKey
  | .insertSqueak _ squeak _ => getHash L squeak = squeakHash
  | _ => False

/-- The clock is not set back, and the others run statements none of which likes a squeak that a call is
still to delete, makes a signing profile for its author or inserts it again. -/
structure Undisturbed (s : Staged (World ρ) SweepStage) (a : Turn (World ρ)) : Prop where
  clock : ∀ s', (SweepStage.staging N).step a s = some s' → clock N s.world ≤ clock N s'.world
  others : ∀ world, a = .others world → world.db = s.world.db ∨ ∃ statement : Statement L,
    world.db = statement.commit s.world.db ∧ ∀ (j : Nat) (squeakHashes : List Bytes),
      s.stages[j]? = some (SweepStage.deleting squeakHashes) → ∀ h ∈ squeakHashes, ¬ Spoils s.world.db h statement

variable {N}

/-- Time passes, squeaks are deleted and the profiles stay. -/
theorem EligibleHash.mono {w w' : World ρ} {squeakHash : Bytes} (h : EligibleHash N w squeakHash)
    (hclock : clock N w ≤ clock N w') (hrows : ∀ r ∈ w'.db.squeaks, r ∈ w.db.squeaks)
    (hprofiles : w'.db.profiles = w.db.profiles) : EligibleHash N w' squeakHash := by
  intro r hr hhash
  obtain ⟨hold, hunliked, hauthor⟩ := h r (hrows r hr) hhash
  exact ⟨by omega, hunliked, by rwa [hprofiles]⟩

/-- A statement that does not spoil an eligible squeak leaves it eligible. -/
theorem EligibleHash.commit {w w' : World ρ} {squeakHash : Bytes} (h : EligibleHash N w squeakHash)
    (hclock : clock N w ≤ clock N w') {statement : Statement L} (hdb : w'.db = statement.commit w.db)
    (hspoils : ¬ Spoils w.db squeakHash statement) : EligibleHash N w' squeakHash := by
  intro r' hr' hhash
  rw [hdb] at hr'
  rcases Statement.mem_commit_squeaks hr' with ⟨now, squeak, header, rfl, rfl⟩ | ⟨r, hr, heq, hlike⟩
  · exact absurd hhash hspoils
  have hhash' : r.hash = squeakHash := by
    rw [heq] at hhash
    exact hhash
  obtain ⟨hold, hunliked, hauthor⟩ := h r hr hhash'
  refine ⟨?_, ?_, ?_⟩
  · rw [heq]
    show r.createdTimeMs + _ < _
    omega
  · rcases hlike with hsame | hnone | ⟨now, rfl⟩
    · rw [hsame, hunliked]
    · exact hnone
    · exact absurd hhash' hspoils
  · intro p' hp' hkey
    have hkey' : p'.publicKey = r.authorPublicKey := by
      rw [heq] at hkey
      exact hkey
    rw [hdb] at hp'
    rcases Statement.mem_commit_profiles hp' with ⟨now, profile, id, rfl, rfl⟩ | ⟨p, hp, hpublic, hprivate⟩
    · cases hk : profile.privateKey with
      | none =>
        show profile.privateKey.map _ = none
        rw [hk]
        rfl
      | some k => exact absurd ⟨by rw [hk]; rfl, r, hr, hhash', hkey'.symm⟩ hspoils
    · rw [hprivate]
      exact hauthor p hp (hpublic.symm.trans hkey')

/-- A call has read a time that has passed, and is to delete eligible squeaks. -/
def Decided (N : Node L ρ) (stage : SweepStage) (w : World ρ) : Prop :=
  (∀ now, stage = .selecting now → now ≤ clock N w) ∧
    ∀ squeakHashes, stage = .deleting squeakHashes → ∀ h ∈ squeakHashes, EligibleHash N w h

/-- The store meets the schema, and every call is to delete eligible squeaks. -/
structure AllDecided (N : Node L ρ) (s : Staged (World ρ) SweepStage) : Prop where
  schema : MeetsSchema s.world.db
  calls : ∀ (i : Nat) (stage : SweepStage), s.stages[i]? = some stage → Decided N stage s.world

theorem Decided.mono {stage : SweepStage} {w w' : World ρ} (h : Decided N stage w) (hclock : clock N w ≤ clock N w')
    (hkeeps : ∀ squeakHashes, stage = .deleting squeakHashes → ∀ squeakHash ∈ squeakHashes,
      EligibleHash N w squeakHash → EligibleHash N w' squeakHash) : Decided N stage w' := by
  refine ⟨fun now hnow => ?_, fun squeakHashes hstage squeakHash hmem => ?_⟩
  · have hle := h.1 now hnow
    omega
  · exact hkeeps squeakHashes hstage squeakHash hmem (h.2 squeakHashes hstage squeakHash hmem)

/-- Squeaks may disappear, and the profiles stay as they are. -/
def Dwindles (w w' : World ρ) : Prop := w'.db.squeaks.Sublist w.db.squeaks ∧ w'.db.profiles = w.db.profiles

theorem dwindles_program (N : Node L ρ) (stage : SweepStage) : (SweepStage.program N stage).Respects Dwindles := by
  have hdelete : ∀ h, (deleteSqueak h : NodeM ρ Unit).Respects Dwindles := fun h =>
    within_update fun w => ⟨List.filter_sublist, rfl⟩
  have hselect : ∀ now, (SweepStage.program N (.selecting now)).Respects Dwindles := fun now =>
    Prog.within_bind (within_query (fun w => ⟨List.Sublist.refl _, rfl⟩) _) fun hs => Prog.within_forM hdelete hs
  cases stage with
  | started => exact Prog.within_bind (within_ask fun w => ⟨List.Sublist.refl _, rfl⟩) fun now => hselect now
  | selecting now => exact hselect now
  | deleting squeakHashes => exact Prog.within_forM hdelete squeakHashes

/-- The SELECT finds eligible squeaks. -/
theorem decided_select {w : World ρ} (hw : MeetsSchema w.db) {now : Int} (hnow : now ≤ clock N w) :
    Decided N (.deleting (getOldSqueaksToDelete now N.squeakRetentionS w.db)) w := by
  refine ⟨fun _ h => (by cases h), ?_⟩
  rintro squeakHashes h squeakHash hmem r hr rfl
  cases h
  obtain ⟨hold, hunliked, hauthor⟩ := (mem_getOldSqueaksToDelete hw hr).1 hmem
  exact ⟨by omega, hunliked, hauthor⟩

theorem allDecided_step {s s' : Staged (World ρ) SweepStage} {a : Turn (World ρ)} (hs : AllDecided N s)
    (hundisturbed : Undisturbed N s a) (ha : (SweepStage.staging N).step a s = some s') : AllDecided N s' := by
  have hclock := hundisturbed.clock s' ha
  cases a with
  | others world =>
    cases ha
    rcases hundisturbed.others world rfl with hsame | ⟨statement, hdb, hspares⟩
    · refine ⟨by rw [hsame]; exact hs.schema, fun j stage hj => (hs.calls j stage hj).mono hclock ?_⟩
      intro squeakHashes _ squeakHash _ h
      exact h.mono hclock (fun r hr => by rwa [hsame] at hr) (by rw [hsame])
    · refine ⟨⟨?_, ?_⟩, fun j stage hj => (hs.calls j stage hj).mono hclock ?_⟩
      · rw [hdb]
        exact (statement.squeakEffect s.world.db).unique hs.schema.squeaks
      · rw [hdb]
        exact (statement.profileEffect s.world.db).unique hs.schema.profiles
      · rintro squeakHashes rfl squeakHash hmem h
        exact h.commit hclock hdb (hspares j squeakHashes hj squeakHash hmem)
  | thread i =>
    obtain ⟨stage, β, stmt, obs, k, hget, hprogram, rfl⟩ := Staging.step_thread ha
    -- a sweep only deletes, so what is eligible stays eligible
    have hdwindles : Dwindles s.world (stmt s.world).2 := by
      have hwithin := dwindles_program N stage
      rw [show SweepStage.program N stage = _ from hprogram] at hwithin
      exact hwithin.1 s.world
    have hkeeps : ∀ squeakHash, EligibleHash N s.world squeakHash → EligibleHash N (stmt s.world).2 squeakHash :=
      fun squeakHash h => h.mono hclock (fun r hr => hdwindles.1.subset hr) hdwindles.2
    refine ⟨⟨hs.schema.squeaks.sublist (hdwindles.1.map _), by rw [hdwindles.2]; exact hs.schema.profiles⟩, ?_⟩
    apply Staging.step_all (Φ := fun _ => Decided N) ha
    · rintro i' stage' hi hget'
      cases hi
      obtain rfl : stage = stage' := Option.some.inj (hget.symm.trans hget')
      cases stage with
      | started =>
        refine ⟨?_, fun _ h => by cases h⟩
        rintro now h
        cases h
        exact hclock
      | selecting now =>
        cases hprogram
        exact decided_select hs.schema ((hs.calls i _ hget).1 now rfl)
      | deleting squeakHashes =>
        refine ⟨fun _ h => (by cases h), ?_⟩
        rintro rest h squeakHash hmem
        cases h
        exact hkeeps squeakHash ((hs.calls i _ hget).2 squeakHashes rfl squeakHash (List.mem_of_mem_tail hmem))
    · -- the other sweeps have decided already
      intro j stage' _ hj
      exact (hs.calls j stage' hj).mono hclock fun _ _ squeakHash _ => hkeeps squeakHash

theorem allDecided_sweeps {w : World ρ} (hw : MeetsSchema w.db) (n : Nat) : AllDecided N (sweeps w n) := by
  refine ⟨hw, fun i stage h => ?_⟩
  obtain rfl := List.eq_of_mem_replicate (List.mem_of_getElem? h)
  exact ⟨fun _ h => (by cases h), fun _ h => (by cases h)⟩

/-- In a run of calls that nothing disturbs, only eligible squeaks are deleted; and a call during which
nothing else runs deletes the eligible squeaks and no others. -/
theorem deletes_eligible {w : World ρ} (hw : MeetsSchema w.db) {n : Nat}
    {history : List (Staged (World ρ) SweepStage × Turn (World ρ))} {s : Staged (World ρ) SweepStage}
    (hr : Machine.Run (SweepStage.staging N).step (sweeps w n) history s)
    (hundisturbed : ∀ x ∈ history, Undisturbed N x.1 x.2) :
    (∀ x ∈ history, DeletesEligible N x.1 x.2) ∧
      ∀ r ∈ w.db.squeaks, r ∈ ((deleteOldSqueaks N).run w).2.db.squeaks ↔ ¬ Eligible N w r := by
  refine ⟨fun x hx i squeakHash squeakHashes _ hget => ?_, deleteOldSqueaks_alone hw⟩
  have hstates := hr.invariant (fun _ _ _ hs hC ha => allDecided_step hs hC ha) (allDecided_sweeps hw n) hundisturbed
  have hs := hstates x.1 (List.mem_append_left _ (List.mem_map_of_mem hx))
  exact (hs.calls i _ hget).2 _ rfl squeakHash List.mem_cons_self

namespace Sample

/-- The owner of the squeak when it is old. -/
def agedOwner : World Outside := ⟨(owner (scalarToBytes 5) "x").db, ⟨2000000, []⟩⟩

/-- The owner likes it. -/
def fondOwner : World Outside := ⟨setSqueakLiked squeak.val.reverse 2000000 agedOwner.db, agedOwner.env⟩

theorem meetsSchema_agedOwner : MeetsSchema agedOwner.db := ⟨List.nodup_singleton _, List.nodup_nil⟩

end Sample

open Sample in
theorem deletes_eligible_sample : ∃ history s,
    Machine.Run (SweepStage.staging (node 1)).step (sweeps agedOwner 1) history s ∧ s.world.db.squeaks = [] ∧
      ((∀ x ∈ history, DeletesEligible (node 1) x.1 x.2) ∧
        ∀ r ∈ agedOwner.db.squeaks,
          r ∈ ((deleteOldSqueaks (node 1)).run agedOwner).2.db.squeaks ↔ ¬ Eligible (node 1) agedOwner r) := by
  have h₀ : Machine.Run (SweepStage.staging (node 1)).step (sweeps agedOwner 1) [] (sweeps agedOwner 1) := .init
  have h₁ := Machine.Run.next h₀ (a := .thread 0) rfl
  have h₂ := Machine.Run.next h₁ (a := .thread 0) rfl
  have h₃ := Machine.Run.next h₂ (a := .thread 0) rfl
  refine ⟨_, _, h₃, by decide +kernel, deletes_eligible meetsSchema_agedOwner h₃ ?_⟩
  intro x hx
  simp only [List.nil_append, List.cons_append, List.mem_cons, List.not_mem_nil, or_false] at hx
  rcases hx with rfl | rfl | rfl
  all_goals
    refine ⟨?_, fun world h => by cases h⟩
    intro s' hs'
    cases hs'
    exact le_refl _

open Sample in
/-- A squeak is liked between the SELECT and the DELETE of a call. -/
theorem deletes_liked : ∃ history s,
    Machine.Run (SweepStage.staging (node 1)).step (sweeps agedOwner 1) history s ∧
      ∃ x ∈ history, ¬ DeletesEligible (node 1) x.1 x.2 := by
  have h₀ : Machine.Run (SweepStage.staging (node 1)).step (sweeps agedOwner 1) [] (sweeps agedOwner 1) := .init
  have h₁ := Machine.Run.next h₀ (a := .thread 0) rfl
  have h₂ := Machine.Run.next h₁ (a := .thread 0) rfl
  have h₃ := Machine.Run.next h₂ (a := .others fondOwner) rfl
  have h₄ := Machine.Run.next h₃ (a := .thread 0) rfl
  refine ⟨_, _, h₄, _, List.mem_append_right _ List.mem_cons_self, fun h => ?_⟩
  have hliked := (h 0 squeak.val.reverse [] rfl (by rfl) _ List.mem_cons_self rfl).unliked
  cases hliked

end Squeaknode
