/-
The operations that write the squeak table, as the programs of a pool, and what each of their
statements other than the INSERT of a squeak and the UPDATE of a secret key does to it: rows
disappear, or change in the like and the decrypted content (`Shrinks`).
-/
import Squeaknode.Node.SqueakStore

namespace Squeaknode

open Interleave Relational SqueakDb SqueakStore

variable {L : Squeaklib} {ρ γ : Type}

/-- A call of one of the operations that write the squeak table. -/
inductive StoreOp (L : Squeaklib) where
  | saveSqueak (squeak : L.CSqueak)
  | makeSqueak (profileId : Nat) (contentStr : String) (replytoHash : Option Bytes)
      (recipientProfileId : Option Nat)
  | saveSecretKey (squeakHash secretKey : Bytes)
  | unlockSqueak (squeakHash : Bytes) (authorProfileId recipientProfileId : Option Nat)
  | payOffer (receivedOfferId : Nat)
  | likeSqueak (squeakHash : Bytes)
  | unlikeSqueak (squeakHash : Bytes)
  | deleteSqueak (squeakHash : Bytes)
  | deleteOldSqueaks

/-- The operation, with the programs that save a squeak and a key. -/
def StoreOp.programWith (N : Node L ρ) (saveSqueak : L.CSqueak → NodeM ρ (Option Bytes))
    (saveSecretKey : Bytes → Bytes → NodeM ρ Unit) : StoreOp L → NodeM ρ Unit
  | .saveSqueak squeak => do let _ ← saveSqueak squeak
  | makeSqueak profileId contentStr replytoHash recipientProfileId => do
    let _ ← SqueakStore.makeSqueakWith N saveSqueak saveSecretKey profileId contentStr replytoHash recipientProfileId
  | .saveSecretKey squeakHash secretKey => saveSecretKey squeakHash secretKey
  | unlockSqueak squeakHash authorProfileId recipientProfileId =>
    SqueakStore.unlockSqueak L squeakHash authorProfileId recipientProfileId
  | payOffer receivedOfferId => do let _ ← SqueakStore.payOfferWith N saveSecretKey receivedOfferId
  | likeSqueak squeakHash => SqueakStore.likeSqueak N squeakHash
  | unlikeSqueak squeakHash => SqueakStore.unlikeSqueak squeakHash
  | deleteSqueak squeakHash => SqueakStore.deleteSqueak squeakHash
  | deleteOldSqueaks => SqueakStore.deleteOldSqueaks N

def StoreOp.program (N : Node L ρ) (op : StoreOp L) : NodeM ρ Unit :=
  op.programWith N (SqueakStore.saveSqueak N) (SqueakStore.saveSecretKey L)

/-- The squeak table stays as it is. -/
def SameSqueaks (w w' : World ρ) : Prop := w'.db.squeaks = w.db.squeaks

/-- Rows may disappear, and those that stay keep `col`. -/
def Shrinks (col : SqueakRow → γ) (w w' : World ρ) : Prop :=
  (w'.db.squeaks.map col).Sublist (w.db.squeaks.map col)

theorem Shrinks.refl (col : SqueakRow → γ) (w : World ρ) : Shrinks col w w := List.Sublist.refl _

theorem SameSqueaks.shrinks {col : SqueakRow → γ} {w w' : World ρ} (h : SameSqueaks w w') : Shrinks col w w' := by
  unfold Shrinks; rw [h]

/-- A column that depends neither on the like nor on the decrypted content of a squeak. -/
structure Stable (col : SqueakRow → γ) : Prop where
  liked : ∀ r t, col { r with likedTimeMs := t } = col r
  content : ∀ r c, col { r with content := c } = col r

/-! ## Single statements -/

@[simp] theorem updateSqueak_squeaks (h : Bytes) (f : SqueakRow → SqueakRow) (db : Db) :
    (updateSqueak h f db).squeaks = updateWhere (fun r => r.hash == h) f db.squeaks := rfl
@[simp] theorem deleteSqueak_squeaks (h : Bytes) (db : Db) :
    (SqueakDb.deleteSqueak h db).squeaks = deleteWhere (fun r => r.hash == h) db.squeaks := rfl

theorem shrinks_updateSqueak {col : SqueakRow → γ} {f : SqueakRow → SqueakRow} (hf : ∀ r, col (f r) = col r)
    (h : Bytes) (w : World ρ) : Shrinks col w { w with db := updateSqueak h f w.db } := by
  show (List.map col (updateWhere _ f w.db.squeaks)).Sublist _
  rw [map_updateWhere hf]

theorem shrinks_deleteSqueak (col : SqueakRow → γ) (h : Bytes) (w : World ρ) :
    Shrinks col w { w with db := SqueakDb.deleteSqueak h w.db } :=
  List.Sublist.map col List.filter_sublist

/-! ## Programs -/

section Reading

variable {R : World ρ → List Obs → World ρ → Prop} (refl : ∀ w, R w [] w)

include refl

theorem within_getSqueak (squeakHash : Bytes) : (getSqueak L squeakHash : NodeM ρ _).Within R := by
  refine Prog.within_bind (within_query refl _) fun row => ?_
  cases row with
  | none => trivial
  | some row => exact Prog.within_bind (Prog.within_ofExcept _) fun _ => trivial

theorem within_getSqueakProfile (profileId : Nat) : (getSqueakProfile L profileId : NodeM ρ _).Within R := by
  refine Prog.within_bind (within_query refl _) fun row => ?_
  cases row with
  | none => trivial
  | some row => exact Prog.within_bind (Prog.within_ofExcept _) fun _ => trivial

theorem within_requireProfile (error : Nat → Err) (profileId : Option Nat) :
    (requireProfile L error profileId : NodeM ρ _).Within R := by
  cases profileId with
  | none => trivial
  | some profileId =>
    refine Prog.within_bind (within_getSqueakProfile refl profileId) fun profile => ?_
    cases profile <;> trivial

/-- Unlocking reads, and then writes the content of one squeak. -/
theorem within_unlockSqueak
    (content : ∀ w h c, R w [] { w with db := setSqueakDecryptedContent h c w.db }) (squeakHash : Bytes)
    (authorProfileId recipientProfileId : Option Nat) :
    (unlockSqueak L squeakHash authorProfileId recipientProfileId : NodeM ρ _).Within R := by
  refine Prog.within_bind (within_getSqueak refl _) fun squeak =>
    Prog.within_bind (within_query refl _) fun secretKey => ?_
  cases squeak with
  | none => trivial
  | some squeak =>
    cases secretKey with
    | none => trivial
    | some secretKey =>
      exact Prog.within_bind (within_requireProfile refl _ _) fun _ =>
        Prog.within_bind (within_requireProfile refl _ _) fun _ =>
        Prog.within_bind (Prog.within_ofExcept _) fun c => within_update fun w => content w squeakHash c

/-- Saving a key reads, writes the key of one squeak, notifies, and then writes its content. -/
theorem within_saveSecretKeyWith {handleNewItem : L.CSqueak → NodeM ρ Unit} (hnotify : ∀ s, (handleNewItem s).Within R)
    (key : ∀ w h k, R w [] { w with db := setSqueakSecretKey h k w.db })
    (content : ∀ w h c, R w [] { w with db := setSqueakDecryptedContent h c w.db })
    (squeakHash secretKey : Bytes) : (saveSecretKeyWith handleNewItem squeakHash secretKey).Within R := by
  refine Prog.within_bind (within_getSqueak refl _) fun squeak => ?_
  cases squeak with
  | none => trivial
  | some squeak =>
    refine Prog.within_bind (Prog.within_ofExcept _) fun _ =>
      Prog.within_bind (within_update fun w => key w squeakHash secretKey) fun _ =>
      Prog.within_bind (hnotify squeak) fun _ => ?_
    split
    · trivial
    · exact within_unlockSqueak refl content _ _ _

theorem within_saveSecretKey (key : ∀ w h k, R w [] { w with db := setSqueakSecretKey h k w.db })
    (content : ∀ w h c, R w [] { w with db := setSqueakDecryptedContent h c w.db })
    (squeakHash secretKey : Bytes) : (saveSecretKey L squeakHash secretKey : NodeM ρ _).Within R := by
  refine within_saveSecretKeyWith refl (fun _ => ?_) key content squeakHash secretKey
  trivial

end Reading

section Quiet

variable {col : SqueakRow → γ}

theorem quiet_refl (w : World ρ) : ([] : List Obs) = [] ∧ Shrinks col w w := ⟨rfl, Shrinks.refl col w⟩

theorem quiet_getSqueakProfile (profileId : Nat) :
    (getSqueakProfile L profileId : NodeM ρ _).Quiet (Shrinks col) :=
  within_getSqueakProfile quiet_refl profileId

theorem quiet_requireProfile (error : Nat → Err) (profileId : Option Nat) :
    (requireProfile L error profileId : NodeM ρ _).Quiet (Shrinks col) :=
  within_requireProfile quiet_refl error profileId

theorem quiet_unlockSqueak (hc : Stable col) (squeakHash : Bytes) (authorProfileId recipientProfileId : Option Nat) :
    (unlockSqueak L squeakHash authorProfileId recipientProfileId : NodeM ρ _).Quiet (Shrinks col) :=
  within_unlockSqueak quiet_refl (fun w h c => ⟨rfl, shrinks_updateSqueak (fun r => hc.content r c) h w⟩) _ _ _

variable (N : Node L ρ)

theorem quiet_coreMakeSqueak (signingProfile : SqueakProfile L) (contentStr : String)
    (replytoHash : Option Bytes) (recipientProfile : Option (SqueakProfile L)) :
    (SqueakCore.makeSqueak N signingProfile contentStr replytoHash recipientProfile).Quiet (Shrinks col) := by
  unfold SqueakCore.makeSqueak
  cases signingProfile.privateKey with
  | none => trivial
  | some privateKey =>
    exact Prog.within_bind (within_call (fun w => ⟨rfl, Shrinks.refl col w⟩)) fun _ =>
      Prog.within_bind (within_ask (fun w => ⟨rfl, Shrinks.refl col w⟩)) fun _ =>
        within_call (fun w => ⟨rfl, Shrinks.refl col w⟩)

theorem quiet_corePayOffer (receivedOffer : ReceivedOffer) :
    (SqueakCore.payOffer N receivedOffer).Quiet (Shrinks col) := by
  refine Prog.within_bind (within_call (fun w => ⟨rfl, Shrinks.refl col w⟩)) fun payment => ?_
  split
  · trivial
  · exact Prog.within_ofExcept _

theorem quiet_saveSentPayment (sentPayment : SentPayment) :
    (saveSentPayment N sentPayment).Quiet (Shrinks col) :=
  Prog.within_bind (within_ask (fun w => ⟨rfl, Shrinks.refl col w⟩)) fun _ =>
    Prog.within_bind (within_sql (fun w => ⟨rfl, Shrinks.refl col w⟩)) fun _ => Prog.within_ofExcept _

theorem quiet_likeSqueak (hc : Stable col) (squeakHash : Bytes) :
    (SqueakStore.likeSqueak N squeakHash).Quiet (Shrinks col) :=
  Prog.within_bind (within_ask (fun w => ⟨rfl, Shrinks.refl col w⟩)) fun _ =>
    within_update fun w => ⟨rfl, shrinks_updateSqueak (fun r => hc.liked r _) _ w⟩

theorem quiet_unlikeSqueak (hc : Stable col) (squeakHash : Bytes) :
    (SqueakStore.unlikeSqueak squeakHash : NodeM ρ _).Quiet (Shrinks col) :=
  within_update fun w => ⟨rfl, shrinks_updateSqueak (fun r => hc.liked r _) _ w⟩

theorem quiet_deleteSqueak (squeakHash : Bytes) :
    (SqueakStore.deleteSqueak squeakHash : NodeM ρ _).Quiet (Shrinks col) :=
  within_update fun w => ⟨rfl, shrinks_deleteSqueak col squeakHash w⟩

theorem quiet_deleteOldSqueaks : (SqueakStore.deleteOldSqueaks N).Quiet (Shrinks col) :=
  Prog.within_bind (within_ask (fun w => ⟨rfl, Shrinks.refl col w⟩)) fun _ =>
    Prog.within_bind (within_query (fun w => ⟨rfl, Shrinks.refl col w⟩) _) fun _ =>
      Prog.within_forM quiet_deleteSqueak _

end Quiet

/-! ## Operations -/

section Operations

variable {col : SqueakRow → γ} {C : ∀ {α : Type}, NodeM ρ α → Prop} {N : Node L ρ}

theorem closed_makeSqueak (hC : Prog.Closed C) (hcol : Stable col)
    (hquiet : ∀ {α : Type} {p : NodeM ρ α}, p.Quiet (Shrinks col) → C p)
    (hsave : ∀ squeak, C (saveSqueak N squeak)) (hkey : ∀ h k, C (saveSecretKey L h k : NodeM ρ Unit))
    (profileId : Nat) (contentStr : String) (replytoHash : Option Bytes) (recipientProfileId : Option Nat) :
    C (makeSqueak N profileId contentStr replytoHash recipientProfileId) := by
  refine hC.bind (hquiet (quiet_getSqueakProfile _)) fun profile => ?_
  cases profile with
  | none => exact hC.raise _
  | some profile =>
    refine hC.bind (hquiet (quiet_requireProfile _ _)) fun recipient => ?_
    refine hC.bind (hquiet (quiet_coreMakeSqueak N _ _ _ _)) fun made => ?_
    refine hC.bind (hsave made.1) fun inserted => ?_
    cases inserted with
    | none => exact hC.raise _
    | some insertedSqueakHash =>
      refine hC.bind (hkey insertedSqueakHash made.2) fun _ => ?_
      dsimp only
      split
      · exact hC.bind (hquiet (quiet_unlockSqueak hcol _ _ _)) fun _ => hC.ret _
      · exact hC.ret _

theorem closed_payOffer (hC : Prog.Closed C) (hquiet : ∀ {α : Type} {p : NodeM ρ α}, p.Quiet (Shrinks col) → C p)
    (hkey : ∀ h k, C (saveSecretKey L h k : NodeM ρ Unit)) (receivedOfferId : Nat) :
    C (payOffer N receivedOfferId) := by
  refine hC.bind (hquiet (within_query (fun w => ⟨rfl, Shrinks.refl col w⟩) _)) fun offer => ?_
  cases offer with
  | none => exact hC.raise _
  | some offer =>
    refine hC.bind (hquiet (quiet_corePayOffer N _)) fun payment => ?_
    refine hC.bind (hquiet (quiet_saveSentPayment N _)) fun id => ?_
    refine hC.bind (hquiet (within_update fun w => ⟨rfl, Shrinks.refl col w⟩)) fun _ => ?_
    exact hC.bind (hkey _ _) fun _ => hC.ret _

/-- What holds of the programs that only shrink the table and of the two that save a squeak or a key holds
of every operation. -/
theorem closed_program (hC : Prog.Closed C) (hcol : Stable col)
    (hquiet : ∀ {α : Type} {p : NodeM ρ α}, p.Quiet (Shrinks col) → C p)
    (hsave : ∀ squeak, C (saveSqueak N squeak)) (hkey : ∀ h k, C (saveSecretKey L h k : NodeM ρ Unit))
    (op : StoreOp L) : C (op.program N) := by
  cases op with
  | saveSqueak squeak => exact hC.bind (hsave squeak) fun _ => hC.ret _
  | makeSqueak id content reply recipient =>
    exact hC.bind (closed_makeSqueak hC hcol hquiet hsave hkey id content reply recipient) fun _ => hC.ret _
  | saveSecretKey h k => exact hkey h k
  | unlockSqueak h a r => exact hquiet (quiet_unlockSqueak hcol h a r)
  | payOffer id => exact hC.bind (closed_payOffer hC hquiet hkey id) fun _ => hC.ret _
  | likeSqueak h => exact hquiet (quiet_likeSqueak N hcol h)
  | unlikeSqueak h => exact hquiet (quiet_unlikeSqueak hcol h)
  | deleteSqueak h => exact hquiet (quiet_deleteSqueak h)
  | deleteOldSqueaks => exact hquiet (quiet_deleteOldSqueaks N)

end Operations

end Squeaknode
