/-
Runs of a call of `make_squeak` while others write to the database and subscribe. The key of the squeak
is not lost in a run in which, from the INSERT of the row to the UPDATE of its key, no statement of the
call fails, no callback raises and no subscriber comes or goes.
-/
import Squeaknode.Interleave.Stages
import Squeaknode.Node.MakeSqueak
import Squeaknode.Node.Sample

namespace Squeaknode

open Interleave Relational SqueakDb

variable {L : Squeaklib} {ρ : Type}

/-! ## Building the squeak -/

/-- How the building of a squeak ends. -/
def Built (profileId : Nat) (contentStr : String) : Except Err (L.CSqueak × Bytes) → World ρ → Prop
  | .ok made, w => MadeBy profileId contentStr made.1 made.2 w.db
  | .error _, _ => True

section Build

variable {N : Node L ρ} {fault : World ρ → Option Err} {profileId : Nat} {contentStr : String}
  {replytoHash : Option Bytes} {recipientProfileId : Option Nat}

theorem respects_buildSqueak :
    (NotifyingStore.buildSqueak N profileId contentStr replytoHash recipientProfileId).Respects fun w w' =>
      w'.db = w.db := by
  refine Prog.within_bind (within_getSqueakProfile (fun _ => rfl) _) fun profile => ?_
  cases profile with
  | none => trivial
  | some profile =>
    refine Prog.within_bind (within_requireProfile (fun _ => rfl) _ _) fun recipientProfile => ?_
    unfold SqueakCore.makeSqueak
    cases profile.privateKey with
    | none => trivial
    | some privateKey =>
      exact Prog.within_bind (within_call fun _ => rfl) fun _ => Prog.within_bind (within_ask fun _ => rfl) fun _ =>
        within_call fun _ => rfl

/-- The private key of a profile that is read stays the one of its id. -/
theorem ends_getSqueakProfile {w : World ρ} (hids : w.db.profiles.Numbered ProfileRow.profileId) :
    ((SqueakStore.getSqueakProfile L profileId : NodeM ρ _).faulty fault).Ends (fun w w' => Writes L w.db w'.db)
      (fun _ => True) (fun x w' => ∀ profile privateKey, x = .ok (some profile) → profile.privateKey = some privateKey →
        AuthorKey L profileId privateKey w'.db) w := by
  have hnumbered : Prog.Stable (fun w w' : World ρ => Writes L w.db w'.db)
      fun w => w.db.profiles.Numbered ProfileRow.profileId := by
    rintro w w' (hsame | ⟨s, hs⟩) hw
    · rwa [hsame]
    · rw [hs]
      exact s.commit_numbered hw
  unfold SqueakStore.getSqueakProfile
  rw [Prog.faulty_bind]
  refine Prog.Ends.andThen (Q := fun x w' => ∀ row, x = .ok (some row) → ∀ profile privateKey,
    parseSqueakProfile L row = .ok profile → profile.privateKey = some privateKey →
      AuthorKey L profileId privateKey w'.db)
    (Prog.ends_attempt ?_ ?_) ?_ ?_
  · rintro w' e - - - row hrow
    cases hrow
  · intro w' hturns _ _ row hrow profile privateKey hprofile hkey
    -- the rows keep their ids and their private keys, whoever changes the table meanwhile
    have hw' := hnumbered.turns hturns hids
    obtain ⟨hmem, hid⟩ := findBy_some (Except.ok.inj hrow)
    have hcolumn := columnKey_of_parse hprofile
    rw [hkey] at hcolumn
    have hpinned := hw'.pinned ProfileRow.privateKey hmem
    rw [hid] at hpinned
    exact ⟨hid ▸ hw'.positive row hmem, row.privateKey, hcolumn, hpinned⟩
  · rintro (_ | row) w' hrow
    · intro profile privateKey hx
      cases hx
    · dsimp only
      cases hprofile : parseSqueakProfile L row with
      | error e =>
        intro profile privateKey hx
        cases hx
      | ok profile =>
        intro profile' privateKey hx hkey
        cases hx
        exact hrow row rfl profile privateKey hprofile hkey
  · intro e w' _ profile privateKey hx
    cases hx

theorem ends_buildSqueak (hN : MakesSqueaks N contentStr) {w : World ρ}
    (hids : w.db.profiles.Numbered ProfileRow.profileId) :
    ((NotifyingStore.buildSqueak N profileId contentStr replytoHash recipientProfileId).faulty fault).Ends
      (fun w w' => Writes L w.db w'.db) (fun _ => True) (Built profileId contentStr) w := by
  unfold NotifyingStore.buildSqueak
  rw [Prog.faulty_bind]
  refine Prog.Ends.andThen (ends_getSqueakProfile hids) ?_ fun _ _ _ => trivial
  rintro (_ | profile) w₁ hprofile
  · trivial
  dsimp only
  cases hkey : profile.privateKey with
  | none =>
    rw [Prog.faulty_bind]
    refine Prog.Ends.andThen (Prog.ends_trivial _ _) (fun recipientProfile w₂ _ => ?_) fun _ _ _ => trivial
    unfold SqueakCore.makeSqueak
    rw [hkey]
    trivial
  | some privateKey =>
    -- the author's key is known while the rest is read
    have hauthor := hprofile profile privateKey rfl hkey
    have hstable : Prog.Stable (fun w w' : World ρ => Writes L w.db w'.db) fun w =>
      AuthorKey L profileId privateKey w.db :=
      fun _ _ hwrites hw => hw.writes hwrites
    have hreads : ∀ {α : Type} {p : NodeM ρ α}, p.Respects (fun w w' => w'.db = w.db) →
        p.Respects fun w w' => AuthorKey L profileId privateKey w.db → AuthorKey L profileId privateKey w'.db :=
      fun hp => hp.mono fun _ _ _ hsame hw => by rwa [hsame]
    rw [Prog.faulty_bind]
    refine Prog.Ends.andThen (Prog.ends_of_keeps hstable (hreads (within_requireProfile (fun _ => rfl) _ _)) hauthor) ?_
      fun _ _ _ => trivial
    intro recipientProfile w₂ h₂
    unfold SqueakCore.makeSqueak
    rw [hkey]
    dsimp only
    rw [Prog.faulty_bind]
    refine Prog.Ends.andThen (Prog.ends_of_keeps hstable (hreads (within_call fun _ => rfl)) h₂) ?_ fun _ _ _ => trivial
    intro blockInfo w₃ h₃
    rw [Prog.faulty_bind]
    refine Prog.Ends.andThen (Prog.ends_of_keeps hstable (hreads (within_ask fun _ => rfl)) h₃) ?_ fun _ _ _ => trivial
    intro timeMs w₄ h₄
    unfold call
    rw [Prog.faulty_bind]
    refine Prog.Ends.andThen (Q := fun x w' => ∀ made, x = .ok (.ok made) →
      MadeBy profileId contentStr made.1 made.2 w'.db)
      (Prog.ends_attempt ?_ ?_) ?_ fun _ _ _ => trivial
    · rintro w' e - - - made hx
      cases hx
    · intro w' hturns _ _ made hx
      obtain ⟨hvalid, hdecrypted⟩ := hN _ _ _ _ _ _ _ _ _ (Except.ok.inj hx)
      have h' := hstable.turns hturns h₄
      exact ⟨hvalid, privateKey, h', hdecrypted⟩
    · rintro (e | made) w' hmade
      · trivial
      · exact hmade made rfl

end Build

/-! ## The stages of a call -/

/-- Where a call of `make_squeak` is: in what is left of the building, or of what it does with the squeak that it
built. -/
inductive MakeStage (L : Squeaklib) (ρ : Type) : Type 1
  | building (p : NodeM ρ (L.CSqueak × Bytes))
  | finishing (squeak : L.CSqueak) (secretKey : Bytes) (p : NodeM ρ Bytes)

namespace MakeStage

variable (N : Node L ρ) (listeners : Listeners L ρ) (fault : World ρ → Option Err) (profileId : Nat)

/-- What is left of the call when the squeak is built. -/
def finish (made : L.CSqueak × Bytes) : NodeM ρ Bytes :=
  (NotifyingStore.finishSqueak N listeners profileId made.1 made.2).faulty fault

/-- What a call has left to do at a stage. -/
def program : MakeStage L ρ → NodeM ρ Bytes
  | building p => p >>= finish N listeners fault profileId
  | finishing _ _ p => p

/-- The stage in which the building stands there. -/
def built : NodeM ρ (L.CSqueak × Bytes) → MakeStage L ρ
  | .ret made => finishing made.1 made.2 (finish N listeners fault profileId made)
  | p => building p

/-- The stage after the next statement. -/
def next : MakeStage L ρ → World ρ → MakeStage L ρ
  | building (.ret made), w => finishing made.1 made.2 ((finish N listeners fault profileId made).next w)
  | building p, w => built N listeners fault profileId (p.next w)
  | finishing squeak secretKey p, w => finishing squeak secretKey (p.next w)

theorem program_built (p : NodeM ρ (L.CSqueak × Bytes)) :
    program N listeners fault profileId (built N listeners fault profileId p) =
      p >>= finish N listeners fault profileId := by
  cases p <;> rfl

/-- The calls as threads that go from stage to stage. -/
def staging : Staging (World ρ) Obs Err Bytes (MakeStage L ρ) where
  program := program N listeners fault profileId
  next := next N listeners fault profileId
  follows := by
    rintro (p | ⟨squeak, secretKey, p⟩) β stmt obs k h w
    · cases p with
      | ret made => exact Prog.next_of_step h w
      | raise e => cases h
      | step stmt' obs' k' =>
        cases h
        exact program_built N listeners fault profileId _
    · exact Prog.next_of_step h w

/-- The stage in which a call starts. -/
def called (contentStr : String) (replytoHash : Option Bytes) (recipientProfileId : Option Nat) : MakeStage L ρ :=
  building ((NotifyingStore.buildSqueak N profileId contentStr replytoHash recipientProfileId).faulty fault)

/-- The stages are those of a call each of whose statements may fail. -/
theorem program_called (contentStr : String) (replytoHash : Option Bytes) (recipientProfileId : Option Nat) :
    (staging N listeners fault profileId).program (called N fault profileId contentStr replytoHash recipientProfileId) =
      (NotifyingStore.makeSqueak N listeners profileId contentStr replytoHash recipientProfileId).faulty fault := by
  rw [NotifyingStore.makeSqueak_eq, Prog.faulty_bind]
  rfl

end MakeStage

/-! ## Runs -/

/-- A turn of the others: while the squeak is built they write what they like. -/
def OthersMeet (listeners : Listeners L ρ) (contentStr : String) : MakeStage L ρ → World ρ → World ρ → Prop
  | .building _, w, w' => Writes L w.db w'.db
  | .finishing squeak _ _, w, w' => Aside listeners squeak contentStr w w'

/-- A turn of the call: the squeak that it builds is new, and what follows is not hindered. -/
def CallMeets (listeners : Listeners L ρ) (fault : World ρ → Option Err) : MakeStage L ρ → World ρ → Prop
  | .building p, w => ∀ made, p.next w = .ret made → EachRow made.1 (fun _ => False) w.db
  | .finishing squeak _ _, w => Unhindered listeners fault squeak w

/-- Every turn of a run meets this condition, be it one of the call or of the others. -/
structure TurnMeets (listeners : Listeners L ρ) (fault : World ρ → Option Err) (contentStr : String)
    (s : Staged (World ρ) (MakeStage L ρ)) (a : Turn (World ρ)) : Prop where
  others : ∀ world, a = .others world → ∀ stage ∈ s.stages, OthersMeet listeners contentStr stage s.world world
  call : ∀ i stage, a = .thread i → s.stages[i]? = some stage → CallMeets listeners fault stage s.world

/-- What is promised of a call that ended after it built a squeak. -/
def KeyKept (contentStr : String) : MakeStage L ρ → World ρ → Prop
  | .finishing squeak _ (.raise e), w => Finished squeak contentStr (.error e) w
  | .finishing squeak _ (.ret squeakHash), w => Finished squeak contentStr (.ok squeakHash) w
  | _, _ => True

/-- How the call will end from where it stands. -/
def WillFinish (listeners : Listeners L ρ) (fault : World ρ → Option Err) (profileId : Nat) (contentStr : String) :
    MakeStage L ρ → World ρ → Prop
  | .building p, w => p.Respects (fun w w' => w'.db = w.db) ∧
      p.Ends (fun w w' => Writes L w.db w'.db) (fun _ => True) (Built profileId contentStr) w
  | .finishing squeak _ p, w =>
      p.Ends (Aside listeners squeak contentStr) (Unhindered listeners fault squeak) (Finished squeak contentStr) w

section Run

variable {N : Node L ρ} {listeners : Listeners L ρ} {fault : World ρ → Option Err} {profileId : Nat} {contentStr : String}

theorem WillFinish.keyKept {stage : MakeStage L ρ} {w : World ρ}
    (h : WillFinish listeners fault profileId contentStr stage w) : KeyKept contentStr stage w := by
  rcases stage with p | ⟨squeak, secretKey, p⟩
  · trivial
  · cases p with
    | ret squeakHash => exact h
    | raise e => exact h
    | step stmt obs k => trivial

theorem stable_finished {squeak : L.CSqueak} (x : Except Err Bytes) :
    Prog.Stable (Aside listeners squeak contentStr) (Finished squeak contentStr x) := by
  intro w w' h hx
  cases x with
  | error e => exact stable_keyed w w' h hx
  | ok squeakHash => exact ⟨hx.1, stable_unlocked w w' h hx.2⟩

theorem stable_built (x : Except Err (L.CSqueak × Bytes)) :
    Prog.Stable (fun w w' : World ρ => Writes L w.db w'.db) (Built profileId contentStr x) := by
  intro w w' h hx
  cases x with
  | error e => trivial
  | ok made => exact hx.writes h

/-- A turn of the others. -/
theorem WillFinish.others {stage : MakeStage L ρ} {w w' : World ρ}
    (h : WillFinish listeners fault profileId contentStr stage w) (hturn : OthersMeet listeners contentStr stage w w') :
    WillFinish listeners fault profileId contentStr stage w' := by
  rcases stage with p | ⟨squeak, secretKey, p⟩
  · exact ⟨h.1, h.2.moved stable_built hturn⟩
  · exact Prog.Ends.moved stable_finished h hturn

/-- A squeak that is new when it is built. -/
theorem willFinish_new (hL : L.CodecLaws) (hD : L.DecryptLaws) {made : L.CSqueak × Bytes} {w : World ρ}
    (hmade : MadeBy profileId contentStr made.1 made.2 w.db) (hnew : EachRow made.1 (fun _ => False) w.db) :
    WillFinish listeners fault profileId contentStr
      (.finishing made.1 made.2 (MakeStage.finish N listeners fault profileId made)) w :=
  finishes_finishSqueak hL hD hmade hnew

/-- A turn of the call. -/
theorem WillFinish.call (hL : L.CodecLaws) (hD : L.DecryptLaws) {stage : MakeStage L ρ} {w : World ρ}
    (h : WillFinish listeners fault profileId contentStr stage w) (hturn : CallMeets listeners fault stage w)
    {β : Type} {stmt : World ρ → β × World ρ} {obs : World ρ → List Obs} {k : β → NodeM ρ Bytes}
    (hprogram : stage.program N listeners fault profileId = .step stmt obs k) :
    WillFinish listeners fault profileId contentStr (stage.next N listeners fault profileId w) (stmt w).2 := by
  rcases stage with p | ⟨squeak, secretKey, p⟩
  · cases p with
    | raise e => cases hprogram
    | ret made =>
      -- the first statement after the squeak was built
      have hnew := hturn made rfl
      have hrest : WillFinish listeners fault profileId contentStr
          (.finishing made.1 made.2 (MakeStage.finish N listeners fault profileId made)) w :=
            willFinish_new hL hD h.2 hnew
      have hunhindered : Unhindered listeners fault made.1 w := fun ⟨r, hr, hhash, _⟩ => (hnew r hr hhash).elim
      have hnext := Prog.Ends.next hrest hprogram hunhindered
      rwa [← Prog.next_of_step hprogram w] at hnext
    | step stmt' obs' k' =>
      cases hprogram
      obtain ⟨hreads, hends⟩ := h
      have hrest := hends.next rfl trivial
      have hsame : (stmt w).2.db = w.db := hreads.1 w
      have hreads' := hreads.2 (stmt w).1
      have hturn' : ∀ made, k' (stmt w).1 = .ret made → EachRow made.1 (fun _ => False) w.db := hturn
      show WillFinish listeners fault profileId contentStr
        (MakeStage.built N listeners fault profileId (k' (stmt w).1)) (stmt w).2
      cases hrest' : k' (stmt w).1 with
      | raise e =>
        rw [hrest'] at hrest hreads'
        exact ⟨hreads', hrest⟩
      | step stmt'' obs'' k'' =>
        rw [hrest'] at hrest hreads'
        exact ⟨hreads', hrest⟩
      | ret made =>
        rw [hrest'] at hrest
        refine willFinish_new hL hD hrest ?_
        rw [hsame]
        exact hturn' made hrest'
  · have hnext := Prog.Ends.next h hprogram hturn
    rwa [← Prog.next_of_step hprogram w] at hnext

/-- In a run whose turns meet the condition, a call that raises leaves no row of the squeak that it built
without its key, and a call that returns leaves the key and the content there. -/
theorem key_never_lost (hL : L.CodecLaws) (hD : L.DecryptLaws) (hN : MakesSqueaks N contentStr) {w₀ : World ρ}
    (hids : w₀.db.profiles.Numbered ProfileRow.profileId) {replytoHash : Option Bytes} {recipientProfileId : Option Nat}
    {history : List (Staged (World ρ) (MakeStage L ρ) × Turn (World ρ))} {s : Staged (World ρ) (MakeStage L ρ)}
    (hr : Machine.Run (MakeStage.staging N listeners fault profileId).step
      ⟨w₀, [MakeStage.called N fault profileId contentStr replytoHash recipientProfileId]⟩ history s)
    (hmeets : ∀ x ∈ history, TurnMeets listeners fault contentStr x.1 x.2) :
    ∀ t ∈ Machine.states history s, ∀ stage ∈ t.stages, KeyKept contentStr stage t.world := by
  have hsound : ∀ t ∈ Machine.states history s, ∃ stage, t.stages = [stage] ∧
      WillFinish listeners fault profileId contentStr stage t.world := by
    refine hr.invariant (C := TurnMeets listeners fault contentStr) ?_ ⟨_, rfl, ?_⟩ hmeets
    · rintro t a t' ⟨stage, hstages, hwill⟩ hturn hstep
      cases a with
      | others world =>
        cases hstep
        exact ⟨stage, hstages, hwill.others (hturn.others world rfl stage (by rw [hstages]; exact List.mem_cons_self))⟩
      | thread i =>
        obtain ⟨stage', _, stmt, _, _, hget, hprogram, rfl⟩ := Staging.step_thread hstep
        have hcall := hturn.call i stage' rfl hget
        rw [hstages] at hget
        obtain ⟨rfl, rfl⟩ : i = 0 ∧ stage = stage' := by
          cases i with
          | zero => exact ⟨rfl, Option.some.inj hget⟩
          | succ i => cases hget
        exact ⟨_, by rw [hstages]; rfl, hwill.call hL hD hcall hprogram⟩
    · exact ⟨Prog.Respects.faulty (R := fun w w' : World ρ => w'.db = w.db) (fun _ => rfl) respects_buildSqueak,
        ends_buildSqueak hN hids⟩
  intro t ht stage hstage
  obtain ⟨stage', hstages, hwill⟩ := hsound t ht
  rw [hstages] at hstage
  cases List.mem_singleton.1 hstage
  exact hwill.keyKept

end Run

/-! ## A sample call -/

namespace Sample

/-- The invoice of a subscriber: there is one subscriber for each invoice. -/
def subscriber : Invoice × Bytes := (⟨[], "", 0, false, 0, 0, 0⟩, [])

/-- The listeners: each entry of the world outside is a subscriber to new squeaks. -/
def listeners : Listeners squeaklib Outside where
  newSqueakListener := ⟨fun o => o.invoices.map fun _ => some fun _ o => (.ok (), o)⟩
  newSecretKeyListener := ⟨fun _ => []⟩
  newReceivedOfferListener := ⟨fun _ => []⟩

/-- A node with one profile, and one subscriber. -/
def author : World Outside :=
  ⟨{ Db.empty with profiles := ⟨[⟨1, 0, "author", some [1], [1], false, none⟩], 1⟩ }, ⟨1000000, [subscriber]⟩⟩

theorem makesSqueaks (maxSqueaks : Int) : MakesSqueaks (node maxSqueaks) "x" := by
  rintro privateKey blockHeight blockHash timestamp replyTo recipient o squeak secretKey hmade
  cases hmade
  refine ⟨rfl, ?_⟩
  show getDecryptedContentStr _ _ (some privateKey) none = _
  unfold getDecryptedContentStr
  rw [show checkSqueakSecretKey _ (scalarToBytes 5) = .ok () from rfl]
  exact if_pos (.inr (.inl rfl))

/-- The author's node when the call is made. -/
abbrev makeStart : Staged (World Outside) (MakeStage squeaklib Outside) :=
  ⟨author, [MakeStage.called (node 1) (fun _ => none) 1 "x" none none]⟩

/-- The steps of the calls and of the others, where nothing fails. -/
abbrev makeStep := (MakeStage.staging (node 1) listeners (fun _ => none) 1).step

/-- While a call builds its squeak there is none. -/
def isFirst (w : World Outside) : MakeStage squeaklib Outside → Bool
  | .building _ => w.db.squeaks.isEmpty
  | .finishing _ _ _ => true

/-- Each call builds its squeak before there is any. -/
def buildsFirst (s : Staged (World Outside) (MakeStage squeaklib Outside)) : Bool := s.stages.all (isFirst s.world)

/-- Where nothing fails and everybody who subscribes returns, the turns of a call that builds its squeak
before there is any meet the condition. -/
theorem turnMeets_quiet {s : Staged (World Outside) (MakeStage squeaklib Outside)} {i : Nat}
    (h : buildsFirst s = true) :
    TurnMeets listeners (fun _ => none) "x" s (.thread i) := by
  refine ⟨fun world hworld => (by cases hworld), fun j stage _ hget => ?_⟩
  have hstage := List.all_eq_true.1 h stage (List.mem_of_getElem? hget)
  rcases stage with p | ⟨squeak, secretKey, p⟩
  · intro made _ r hr
    rw [List.isEmpty_iff.1 hstage] at hr
    cases hr
  · refine fun _ => ⟨rfl, fun callback hmem => ?_⟩
    obtain ⟨_, -, heq⟩ := List.mem_map.1 hmem
    cases heq
    exact ⟨_, rfl, rfl⟩

end Sample

/-- A call with one subscriber that nobody disturbs. -/
theorem key_never_lost_sample :
    ∃ (history : List (Staged (World Sample.Outside) (MakeStage Sample.squeaklib Sample.Outside) ×
      Turn (World Sample.Outside))) (s : Staged (World Sample.Outside) (MakeStage Sample.squeaklib Sample.Outside)),
    s.world.db.squeaks.map (fun r => (r.secretKey, r.content)) = [(some (Sample.scalarToBytes 5), some "x")] ∧
      ∀ t ∈ Machine.states history s, ∀ stage ∈ t.stages, KeyKept "x" stage t.world := by
  let turns : List (Turn (World Sample.Outside)) := List.replicate 20 (.thread 0)
  obtain ⟨⟨history, s⟩, hexec⟩ := Option.isSome_iff_exists.1
    (by decide +kernel : (Machine.exec Sample.makeStep turns Sample.makeStart).isSome = true)
  have hrows : (Machine.exec Sample.makeStep turns Sample.makeStart).map
      (fun r => r.2.world.db.squeaks.map fun r => (r.secretKey, r.content)) =
        some [(some (Sample.scalarToBytes 5), some "x")] := by decide +kernel
  have hbuilds : (Machine.exec Sample.makeStep turns Sample.makeStart).all
      (fun r => r.1.all fun x => Sample.buildsFirst x.1) = true := by decide +kernel
  rw [hexec] at hrows hbuilds
  refine ⟨history, s, Option.some.inj hrows, ?_⟩
  apply key_never_lost Sample.codecLaws Sample.decryptLaws (Sample.makesSqueaks 1) ?_ (Machine.run_exec hexec) ?_
  · exact ⟨List.nodup_singleton _, by unfold Table.Issued; decide, by decide⟩
  · rintro ⟨t, a⟩ hx
    have ha : a ∈ turns := by
      rw [← Machine.actions_exec hexec]
      exact List.mem_map_of_mem hx
    obtain rfl : a = .thread 0 := List.eq_of_mem_replicate ha
    exact Sample.turnMeets_quiet (List.all_eq_true.1 hbuilds _ hx)

namespace Sample

/-- The call has raised, and left a row without a key. -/
def loses (w : World Outside) : MakeStage squeaklib Outside → Bool
  | .finishing squeak _ (.raise _) => w.db.squeaks.any fun r => r.hash == getHash squeaklib squeak && r.secretKey.isNone
  | _ => false

/-- A call has lost its key. -/
def hasLost (s : Staged (World Outside) (MakeStage squeaklib Outside)) : Bool := s.stages.any (loses s.world)

theorem not_keyKept_of_hasLost {s : Staged (World Outside) (MakeStage squeaklib Outside)} (h : hasLost s = true) :
    ∃ stage ∈ s.stages, ¬ KeyKept "x" stage s.world := by
  obtain ⟨stage, hstage, hlost⟩ := List.any_eq_true.1 h
  refine ⟨stage, hstage, fun hkept => ?_⟩
  rcases stage with p | ⟨squeak, secretKey, p⟩
  · cases hlost
  · cases p with
    | ret squeakHash => cases hlost
    | step stmt obs k => cases hlost
    | raise e =>
      obtain ⟨r, hr, hrow⟩ := List.any_eq_true.1 hlost
      rw [Bool.and_eq_true, beq_iff_eq, Option.isNone_iff_eq_none] at hrow
      exact (hkept r hr hrow.1).key hrow.2

/-- The world outside when one more has subscribed. -/
def subscribed : Outside := ⟨1000000, [subscriber, subscriber]⟩

/-- One more subscribes, and the call goes on. -/
def interrupted (s : Staged (World Outside) (MakeStage squeaklib Outside)) :
    Option (Staged (World Outside) (MakeStage squeaklib Outside)) :=
  makeStep (.thread 0) { s with world := { s.world with env := subscribed } }

end Sample

/-- Somebody subscribes when the iterator over the subscribers has been made: the call raises, and the squeak
that it has inserted has no key, and nobody else knows it. -/
theorem key_lost : ∃ (history : List (Staged (World Sample.Outside) (MakeStage Sample.squeaklib Sample.Outside) ×
      Turn (World Sample.Outside))) (s : Staged (World Sample.Outside) (MakeStage Sample.squeaklib Sample.Outside)),
    Machine.Run Sample.makeStep Sample.makeStart history s ∧
      (∀ x ∈ history, ∀ w, x.2 = .others w → w.db = x.1.world.db) ∧
      ∃ stage ∈ s.stages, ¬ KeyKept "x" stage s.world := by
  let turns : List (Turn (World Sample.Outside)) := List.replicate 10 (.thread 0)
  have hlost : ((Machine.exec Sample.makeStep turns Sample.makeStart).bind fun r => Sample.interrupted r.2).any
      Sample.hasLost = true := by decide +kernel
  cases hexec : Machine.exec Sample.makeStep turns Sample.makeStart with
  | none =>
    rw [hexec] at hlost
    cases hlost
  | some r =>
    rw [hexec, Option.bind_some] at hlost
    cases hstep : Sample.interrupted r.2 with
    | none =>
      rw [hstep] at hlost
      cases hlost
    | some s =>
      rw [hstep] at hlost
      have hrun := Machine.run_exec hexec
      have hsubscribe : Sample.makeStep (.others { r.2.world with env := Sample.subscribed }) r.2 =
          some { r.2 with world := { r.2.world with env := Sample.subscribed } } := rfl
      have hraise : Sample.makeStep (.thread 0) { r.2 with world :=
        { r.2.world with env := Sample.subscribed } } = some s :=
        hstep
      refine ⟨_, s, (hrun.next hsubscribe).next hraise, ?_, Sample.not_keyKept_of_hasLost hlost⟩
      rintro ⟨t, a⟩ hx w rfl
      rcases List.mem_append.1 hx with hx | hx
      · rcases List.mem_append.1 hx with hx | hx
        · have ha : .others w ∈ turns := by
            rw [← Machine.actions_exec hexec]
            exact List.mem_map_of_mem hx
          cases List.eq_of_mem_replicate ha
        · cases List.mem_singleton.1 hx
          rfl
      · cases List.mem_singleton.1 hx

end Squeaknode
