/-
What a node has of the squeaks that its peers send, while everything that a node does goes on at once. A hash
has arrived when its squeak was there at the start or has been inserted since; unless the node deletes squeaks,
what has arrived stays, and so does its key.
-/
import Squeaknode.Client.NetworkController
import Squeaknode.Client.SyncIsolation
import Squeaknode.Interleave.Outcome
import Squeaknode.Market.Agreement

namespace Squeaknode

open Interleave Relational SqueakDb SqueakStore

variable {L : Squeaklib} {ρ : Type}

/-! ## What is there -/

/-- The squeak with this hash is stored. -/
def HasSqueak (squeakHash : Bytes) (db : Db) : Prop := ∃ r, findSqueak squeakHash db = some r

/-- It is stored with a secret key. -/
def HasKey (squeakHash : Bytes) (db : Db) : Prop :=
  ∃ r k, findSqueak squeakHash db = some r ∧ r.secretKey = some k

theorem HasKey.hasSqueak {squeakHash : Bytes} {db : Db} (h : HasKey squeakHash db) : HasSqueak squeakHash db := by
  obtain ⟨r, k, hr, -⟩ := h
  exact ⟨r, hr⟩

/-- Squeaks stay, and so do their keys, if not the same. -/
structure Persists (db db' : Db) : Prop where
  squeak : ∀ squeakHash, HasSqueak squeakHash db → HasSqueak squeakHash db'
  key : ∀ squeakHash, HasKey squeakHash db → HasKey squeakHash db'

theorem Persists.refl (db : Db) : Persists db db := ⟨fun _ h => h, fun _ h => h⟩

theorem Persists.trans {db db' db'' : Db} (h : Persists db db') (h' : Persists db' db'') : Persists db db'' :=
  ⟨fun k hk => h'.squeak k (h.squeak k hk), fun k hk => h'.key k (h.key k hk)⟩

/-- Rows that are found are found again, with a key if they had one. -/
theorem Persists.of_find {db db' : Db} (h : ∀ squeakHash r, findSqueak squeakHash db = some r →
    ∃ r', findSqueak squeakHash db' = some r' ∧ (r.secretKey ≠ none → r'.secretKey ≠ none)) : Persists db db' := by
  constructor
  · rintro squeakHash ⟨r, hr⟩
    obtain ⟨r', hr', -⟩ := h squeakHash r hr
    exact ⟨r', hr'⟩
  · rintro squeakHash ⟨r, k, hr, hk⟩
    obtain ⟨r', hr', hkey⟩ := h squeakHash r hr
    obtain ⟨k', hk'⟩ := Option.ne_none_iff_exists'.1 (hkey (by simp [hk]))
    exact ⟨r', k', hr', hk'⟩

theorem Persists.of_same {db db' : Db} (h : db'.squeaks = db.squeaks) : Persists db db' := by
  refine .of_find fun squeakHash r hr => ⟨r, ?_, fun hk => hk⟩
  show findBy SqueakRow.hash squeakHash db'.squeaks = some r
  rw [h]
  exact hr

theorem Persists.update {f : SqueakRow → SqueakRow} (hash : ∀ r, (f r).hash = r.hash)
    (hkey : ∀ r, r.secretKey ≠ none → (f r).secretKey ≠ none) (squeakHash : Bytes) (db : Db) :
    Persists db (updateSqueak squeakHash f db) := by
  refine .of_find fun other r hr => ?_
  have hfind : findSqueak other (updateSqueak squeakHash f db) =
      (findSqueak other db).map fun r => if r.hash == squeakHash then f r else r :=
    findBy_updateWhere hash other db.squeaks
  rw [hr] at hfind
  refine ⟨_, hfind, fun hk => ?_⟩
  dsimp only
  split
  · exact hkey r hk
  · exact hk

theorem Persists.insert (row : SqueakRow) (db : Db) : Persists db (SqueakDb.insertSqueak row db).2 := by
  refine .of_find fun squeakHash r hr => ⟨r, ?_, fun hk => hk⟩
  cases htaken : taken SqueakRow.hash row.hash db.squeaks with
  | true =>
    rw [insertSqueak_of_taken htaken]
    exact hr
  | false =>
    rw [insertSqueak_of_free row htaken, findSqueak_append, hr, Option.some_or]

/-- An INSERT leaves a row with the hash, be it the new one or an old one. -/
theorem hasSqueak_insertSqueak (row : SqueakRow) (db : Db) : HasSqueak row.hash (SqueakDb.insertSqueak row db).2 := by
  cases htaken : taken SqueakRow.hash row.hash db.squeaks with
  | true =>
    rw [insertSqueak_of_taken htaken]
    obtain ⟨r, hr, hhash⟩ := taken_iff.1 htaken
    rcases hfind : findSqueak row.hash db with _ | x
    · exact absurd hhash (findBy_none.1 hfind r hr)
    · exact ⟨x, hfind⟩
  | false =>
    rw [insertSqueak_of_free row htaken]
    refine ⟨row, ?_⟩
    have hnone : findSqueak row.hash db = none := findBy_none.2 (taken_eq_false.1 htaken)
    rw [findSqueak_append, hnone, Option.none_or, if_pos rfl]

theorem HasSqueak.setKey {squeakHash : Bytes} {db : Db} (h : HasSqueak squeakHash db) (secretKey : Bytes) :
    HasKey squeakHash (setSqueakSecretKey squeakHash secretKey db) := by
  obtain ⟨r, hr⟩ := h
  refine ⟨{ r with secretKey := some secretKey }, secretKey, ?_, rfl⟩
  unfold setSqueakSecretKey
  rw [findSqueak_updateSqueak (f := fun r => { r with secretKey := some secretKey }) (fun _ => rfl), hr]
  rfl

/-! ## What arrives -/

/-- A squeak with this hash was there at the start, or was inserted. -/
def Arrived (start : List SqueakRow) (trace : List (Nat × Obs)) (squeakHash : Bytes) : Prop :=
  (∃ r ∈ start, r.hash = squeakHash) ∨
  ∃ t row numSqueaks numPublicKeyBlock, (t, Obs.inserted row numSqueaks numPublicKeyBlock) ∈ trace ∧
    row.hash = squeakHash

theorem Arrived.later {start : List SqueakRow} {trace trace' : List (Nat × Obs)} {squeakHash : Bytes}
    (h : Arrived start trace squeakHash) (hlonger : trace <+: trace') : Arrived start trace' squeakHash := by
  rcases h with h | ⟨t, row, n, m, hmem, hhash⟩
  · exact .inl h
  · exact .inr ⟨t, row, n, m, hlonger.subset hmem, hhash⟩

/-- What a statement brings: its rows are old ones or were inserted, and if squeaks are `kept`, old ones stay. -/
structure Brings (kept : Prop) (w : World ρ) (o : List Obs) (w' : World ρ) : Prop where
  arrives : ∀ r' ∈ w'.db.squeaks, (∃ r ∈ w.db.squeaks, r.hash = r'.hash) ∨
    ∃ row n m, Obs.inserted row n m ∈ o ∧ row.hash = r'.hash
  persists : kept → Persists w.db w'.db

section Brings

variable {kept : Prop}

theorem Brings.of_same {w w' : World ρ} (h : w'.db.squeaks = w.db.squeaks) (o : List Obs) : Brings kept w o w' where
  arrives r' hr' := .inl ⟨r', h ▸ hr', rfl⟩
  persists _ := .of_same h

theorem brings_update {f : SqueakRow → SqueakRow} (hash : ∀ r, (f r).hash = r.hash)
    (hkey : ∀ r, r.secretKey ≠ none → (f r).secretKey ≠ none) (squeakHash : Bytes) (w : World ρ) :
    Brings kept w [] { w with db := updateSqueak squeakHash f w.db } where
  arrives r' hr' := by
    obtain ⟨r, hr, rfl⟩ := mem_updateWhere.1 hr'
    refine .inl ⟨r, hr, ?_⟩
    split
    · exact (hash r).symm
    · rfl
  persists _ := .update hash hkey squeakHash w.db

theorem brings_insertSqueak (row : SqueakRow) (w : World ρ) :
    Brings kept w (insertedObs row w.db) { w with db := (SqueakDb.insertSqueak row w.db).2 } where
  arrives r' hr' := by
    rcases mem_insertUnique hr' with hr | ⟨rfl, hfree⟩
    · exact .inl ⟨r', hr, rfl⟩
    · rw [insertedObs_of_free hfree]
      exact .inr ⟨r', _, _, List.mem_singleton.2 rfl, rfl⟩
  persists _ := .insert row w.db

theorem brings_deleteSqueak (hkept : ¬ kept) (squeakHash : Bytes) (w : World ρ) :
    Brings kept w [] { w with db := SqueakDb.deleteSqueak squeakHash w.db } where
  arrives r' hr' := .inl ⟨r', (mem_deleteWhere.1 hr').1, rfl⟩
  persists h := absurd h hkept

end Brings

/-! ## What the operations bring -/

/-- An operation that deletes no squeak. -/
def TradeOp.KeepsSqueaks : TradeOp L → Prop
  | store (.deleteSqueak _) | store .deleteOldSqueaks => False
  | _ => True

/-- A save of a checked squeak counts, and then inserts its row. -/
theorem within_saving {R : World ρ → List Obs → World ρ → Prop} (N : Node L ρ) (squeak : L.CSqueak)
    (hsame : ∀ w o w', SameStore w w' → (∀ row n m, Obs.inserted row n m ∉ o) → R w o w')
    (hinsert : L.checkSqueak squeak = .ok () → ∀ w now header,
      R w (insertedObs (squeakRow L now (getHash L squeak) squeak header) w.db)
        { w with db := (SqueakDb.insertSqueak (squeakRow L now (getHash L squeak) squeak header) w.db).2 }) :
    (saveSqueak N squeak).Within R := by
  have hheader : (SqueakCore.getBlockHeader N squeak).Within R := by
    refine Prog.within_bind (Prog.within_bind (Prog.within_observed fun w => hsame _ _ _ ⟨rfl, rfl⟩ ?_) fun _ =>
      Prog.within_ofExcept _) fun info => ?_
    · intro row n m hmem
      split at hmem
      · cases List.mem_singleton.1 hmem
      · cases hmem
    · split <;> trivial
  unfold saveSqueak
  cases hcheck : L.checkSqueak squeak with
  | error e => trivial
  | ok _ =>
    rw [Prog.ofExcept_ok, Prog.ret_bind]
    refine Prog.within_bind hheader fun header => ?_
    refine Prog.within_bind (Prog.within_observed fun w => hsame _ _ _ ⟨rfl, rfl⟩ fun _ _ _ h => by
      cases List.mem_singleton.1 h) fun numSqueaks => ?_
    split
    · trivial
    · refine Prog.within_bind (Prog.within_observed fun w => hsame _ _ _ ⟨rfl, rfl⟩ fun _ _ _ h => by
        cases List.mem_singleton.1 h) fun num => ?_
      split
      · trivial
      · refine Prog.within_bind (within_ask fun w => hsame _ _ _ ⟨rfl, rfl⟩ fun _ _ _ h => by cases h) fun now => ?_
        exact Prog.within_observed fun w => hinsert hcheck w now header

section Operations

variable {kept : Prop} {N : Node L ρ}

theorem brings_sameStore {β : Type} (stmt : World ρ → β × World ρ) (h : ∀ w, SameStore w (stmt w).2) :
    (Prog.atomic stmt : NodeM ρ β).Within (Brings kept) := Prog.within_atomic fun w => .of_same (h w).1 []

theorem brings_saveSqueak (squeak : L.CSqueak) : (saveSqueak N squeak).Within (Brings kept) :=
  within_saving N squeak (fun _ o _ h _ => .of_same h.1 o) fun _ w _ _ => brings_insertSqueak _ w

theorem brings_content (w : World ρ) (squeakHash : Bytes) (content : String) :
    Brings kept w [] { w with db := setSqueakDecryptedContent squeakHash content w.db } :=
  brings_update (f := fun r => { r with content := some content }) (fun _ => rfl) (fun _ h => h) squeakHash w

theorem brings_unlockSqueak (squeakHash : Bytes) (authorProfileId recipientProfileId : Option Nat) :
    (unlockSqueak L squeakHash authorProfileId recipientProfileId : NodeM ρ Unit).Within (Brings kept) :=
  within_unlockSqueak (fun _ => .of_same rfl []) brings_content _ _ _

theorem brings_notify {β : Type} (f : ρ → Except Err β × ρ) : (notify f : NodeM ρ β).Within (Brings kept) :=
  within_notify fun _ _ _ => ⟨fun r hr => .inl ⟨r, hr, rfl⟩, fun _ => .refl _⟩

variable {listeners : Listeners L ρ}

theorem brings_notifyingSaveSqueak (squeak : L.CSqueak) :
    (NotifyingStore.saveSqueak N listeners squeak).Within (Brings kept) :=
  closed_notifyingSaveSqueak (Prog.closed_within _) brings_sameStore brings_notify brings_saveSqueak squeak

theorem brings_notifyingSaveSecretKey (squeakHash secretKey : Bytes) :
    (NotifyingStore.saveSecretKey listeners squeakHash secretKey).Within (Brings kept) :=
  within_saveSecretKeyWith (fun _ => .of_same rfl [])
    (closed_handleNewItem (Prog.closed_within _) brings_sameStore brings_notify _)
    (fun w h k =>
      brings_update (f := fun r => { r with secretKey := some k }) (fun _ => rfl) (fun _ _ h => by cases h) h w)
    brings_content squeakHash secretKey

theorem brings_storeOp {store : StoreOp L} (hkept : kept → (TradeOp.store store).KeepsSqueaks) :
    (store.programWith N (NotifyingStore.saveSqueak N listeners) (NotifyingStore.saveSecretKey listeners)).Within
      (Brings kept) := by
  have hB := Prog.closed_within (ε := Err) (Brings (ρ := ρ) kept)
  cases store with
  | makeSqueak id content reply recipient =>
    exact hB.bind (closed_making hB brings_sameStore brings_notifyingSaveSqueak brings_notifyingSaveSecretKey
      brings_unlockSqueak id content reply recipient) fun _ => hB.ret _
  | saveSqueak squeak => exact hB.bind (brings_notifyingSaveSqueak squeak) fun _ => hB.ret _
  | saveSecretKey h k => exact brings_notifyingSaveSecretKey h k
  | unlockSqueak h a r => exact brings_unlockSqueak h a r
  | payOffer id =>
    exact hB.bind (closed_payment hB brings_sameStore brings_notifyingSaveSecretKey id) fun _ => hB.ret _
  | likeSqueak h =>
    exact hB.bind (brings_sameStore _ fun _ => ⟨rfl, rfl⟩) fun now => within_update fun w =>
      brings_update (f := fun r => { r with likedTimeMs := some now }) (fun _ => rfl) (fun _ h => h) h w
  | unlikeSqueak h =>
    exact within_update fun w =>
      brings_update (f := fun r => { r with likedTimeMs := none }) (fun _ => rfl) (fun _ h => h) h w
  | deleteSqueak h => exact within_update fun w => brings_deleteSqueak hkept h w
  | deleteOldSqueaks =>
    refine hB.bind (brings_sameStore _ fun _ => ⟨rfl, rfl⟩) fun now =>
      hB.bind (brings_sameStore _ fun _ => ⟨rfl, rfl⟩) fun hashes => closed_forM hB (fun h => ?_) hashes
    exact within_update fun w => brings_deleteSqueak hkept h w

theorem brings_tradeOp {M : Ledger ρ} {address : PeerAddress} {op : TradeOp L} (hkept : kept → op.KeepsSqueaks) :
    (op.notifying N listeners M address).Within (Brings kept) := by
  have hB := Prog.closed_within (ε := Err) (Brings (ρ := ρ) kept)
  refine closed_tradeOp hB Prog.within_catchWith brings_sameStore op (fun store hop => ?_) brings_notifyingSaveSqueak
    brings_notifyingSaveSecretKey (closed_notifyingHandleOffer hB brings_sameStore brings_notify)
  subst hop
  exact brings_storeOp hkept

end Operations

end Squeaknode
