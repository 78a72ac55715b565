/-
Integrity of the squeak table under any interleaving of the statements of concurrent operations:
every row is the row of a squeak that passed its check, its block columns come from the bitcoin
client's answer to the save that inserted it, and its secret key is valid.

A key is checked in one statement and written in another, and the row may be deleted and inserted
again in between. What survives the gap is that the key is valid for the hash (`KeyFor`).
-/
import Squeaknode.Node.SqueakTable
import Squeaknode.Node.Sample

namespace Squeaknode

open Interleave Relational SqueakDb SqueakStore

variable {L : Squeaklib} {ρ : Type}

/-! ## Sound rows -/

/-- `r` is a row of `squeak`: a checked squeak, the columns it determines, and a valid key if any. -/
structure RowOf (L : Squeaklib) (squeak : L.CSqueak) (r : SqueakRow) : Prop where
  bytes : L.deserialize r.squeak = .ok squeak
  hash : r.hash = getHash L squeak
  checked : L.checkSqueak squeak = .ok ()
  replyHash : r.replyHash = if L.isReply squeak then some (L.hashReplySqk squeak) else none
  blockHash : r.blockHash = L.hashBlock squeak
  blockHeight : r.blockHeight = L.nBlockHeight squeak
  timeS : r.timeS = L.nTime squeak
  author : r.authorPublicKey = L.publicKeyToBytes (L.getPubKey squeak)
  recipient : r.recipientPublicKey =
    if L.isPrivateMessage squeak then some (L.publicKeyToBytes (L.getRecipientPubKey squeak)) else none
  key : ∀ k, r.secretKey = some k → L.checkSqueakSecretKey squeak k = .ok ()

/-- Operation `t` inserted `r` after the bitcoin client had answered its question for `height` with
the block hash and the time of `r`. -/
def InsertedWithHeader (trace : List (Nat × Obs)) (height : Int) (r : SqueakRow) : Prop :=
  ∃ pre post t info n m, trace =
      pre ++ (t, .inserted { r with secretKey := none, likedTimeMs := none, content := none } n m) :: post ∧
    (t, .blockInfo height info) ∈ pre ∧ r.blockHash = info.blockHash ∧ r.blockTimeS = info.blockHeader.nTime

/-- The row is that of a checked squeak and was inserted with the header of its block. -/
def RowSound (L : Squeaklib) (trace : List (Nat × Obs)) (r : SqueakRow) : Prop :=
  ∃ squeak, RowOf L squeak r ∧ InsertedWithHeader trace (L.nBlockHeight squeak) r

/-- The invariant of the squeak table. -/
structure SqueaksSound (L : Squeaklib) (trace : List (Nat × Obs)) (rows : List SqueakRow) : Prop where
  unique : UniqueOn SqueakRow.hash rows
  rows : ∀ r ∈ rows, RowSound L trace r

theorem InsertedWithHeader.append {trace : List (Nat × Obs)} {height : Int} {r : SqueakRow}
    (h : InsertedWithHeader trace height r) (more : List (Nat × Obs)) :
    InsertedWithHeader (trace ++ more) height r := by
  obtain ⟨pre, post, t, info, n, m, rfl, hinfo⟩ := h
  exact ⟨pre, post ++ more, t, info, n, m, by simp, hinfo⟩

/-! ## Statements that only shrink the table -/

/-- A row without its like and its decrypted content. -/
def core (r : SqueakRow) : SqueakRow := { r with likedTimeMs := none, content := none }

theorem stable_core : Stable core := ⟨fun _ _ => rfl, fun _ _ => rfl⟩

theorem RowSound.of_core {trace : List (Nat × Obs)} {r r' : SqueakRow} (h : RowSound L trace r)
    (hcore : core r' = core r) : RowSound L trace r' := by
  obtain ⟨squeak, ho, hi⟩ := h
  have hr' : r' = { r with likedTimeMs := r'.likedTimeMs, content := r'.content } := by
    cases r; cases r'
    simp only [core, SqueakRow.mk.injEq] at hcore ⊢
    simp [hcore]
  rw [hr']
  exact ⟨squeak, ⟨ho.bytes, ho.hash, ho.checked, ho.replyHash, ho.blockHash, ho.blockHeight, ho.timeS,
    ho.author, ho.recipient, ho.key⟩, hi⟩

theorem SqueaksSound.shrinks {trace : List (Nat × Obs)} {w w' : World ρ} (h : SqueaksSound L trace w.db.squeaks)
    (hs : Shrinks core w w') (more : List (Nat × Obs)) : SqueaksSound L (trace ++ more) w'.db.squeaks := by
  have hhash : ∀ rows : List SqueakRow, rows.map SqueakRow.hash = (rows.map core).map SqueakRow.hash := by
    intro rows; rw [List.map_map]; rfl
  constructor
  · have hu := h.unique
    unfold UniqueOn at hu ⊢
    rw [hhash] at hu ⊢
    exact hu.sublist (List.Sublist.map _ hs)
  · intro r' hr'
    obtain ⟨r, hr, hcore⟩ := List.mem_map.1 (hs.subset (List.mem_map_of_mem hr'))
    obtain ⟨squeak, ho, hi⟩ := (h.rows r hr).of_core hcore.symm
    exact ⟨squeak, ho, hi.append more⟩

/-! ## The two statements that matter -/

/-- The key is valid for every squeak with this hash. -/
def KeyFor (L : Squeaklib) (squeakHash secretKey : Bytes) : Prop :=
  ∀ squeak, getHash L squeak = squeakHash → L.checkSqueakSecretKey squeak secretKey = .ok ()

theorem keyFor_of_check (hK : L.KeyLaws) {squeak : L.CSqueak} {secretKey : Bytes}
    (h : L.checkSqueakSecretKey squeak secretKey = .ok ()) : KeyFor L (getHash L squeak) secretKey := by
  intro squeak' hhash
  have hpoint : L.paymentPoint squeak = L.paymentPoint squeak' :=
    hK.hash _ _ (List.reverse_injective hhash.symm)
  exact hK.valid _ _ _ hpoint h

theorem SqueaksSound.setSqueakSecretKey {trace : List (Nat × Obs)} {db : Db}
    (h : SqueaksSound L trace db.squeaks) {squeakHash secretKey : Bytes} (hk : KeyFor L squeakHash secretKey) :
    SqueaksSound L trace (setSqueakSecretKey squeakHash secretKey db).squeaks := by
  constructor
  · exact uniqueOn_updateWhere (fun _ => rfl) h.unique
  · intro r hr
    obtain ⟨r₀, hr₀, rfl⟩ := mem_updateWhere.1 hr
    obtain ⟨squeak, ho, hi⟩ := h.rows r₀ hr₀
    split
    · rename_i heq
      have hhash : getHash L squeak = squeakHash := ho.hash.symm.trans (by simpa using heq)
      refine ⟨squeak, ⟨ho.bytes, ho.hash, ho.checked, ho.replyHash, ho.blockHash, ho.blockHeight, ho.timeS,
        ho.author, ho.recipient, ?_⟩, hi⟩
      rintro k hk'
      cases hk'
      exact hk squeak hhash
    · exact ⟨squeak, ho, hi⟩

theorem rowOf_squeakRow (hC : L.CodecLaws) {squeak : L.CSqueak} (hcheck : L.checkSqueak squeak = .ok ())
    (now : Int) (header : BlockHeader) : RowOf L squeak (squeakRow L now (getHash L squeak) squeak header) where
  bytes := hC.squeak squeak
  hash := rfl
  checked := hcheck
  replyHash := rfl
  blockHash := rfl
  blockHeight := rfl
  timeS := rfl
  author := rfl
  recipient := rfl
  key := fun _ hk => by cases hk

/-! ## The protocol of the table -/

/-- The table stays sound, and nobody takes back what is on the trace. -/
def integrity (L : Squeaklib) (ρ : Type) : Protocol (World ρ) Obs where
  inv v := SqueaksSound L v.1 v.2.db.squeaks
  moves v w := v.1 <+: w.1
  refl _ := List.prefix_refl _
  trans := List.IsPrefix.trans

theorem integrity_allows : (integrity L ρ).Allows fun w _ w' => Shrinks core w w' :=
  fun _ _ _ _ hi hs => ⟨SqueaksSound.shrinks hi hs _, List.prefix_append _ _⟩

/-- What a quiet program that shrinks the table does is allowed. -/
theorem Shrinks.allowed : (integrity L ρ).Allows fun w o w' => o = [] ∧ Shrinks core w w' :=
  fun v t o w hi hs => integrity_allows v t o w hi hs.2

section Safe

variable {t : Nat}

/-- The header that `get_block_header` returns is the one of an answer on the trace. -/
theorem safe_getBlockHeader (N : Node L ρ) (squeak : L.CSqueak) (v : View (World ρ) Obs) :
    (SqueakCore.getBlockHeader N squeak).Safe (integrity L ρ) t (fun x w => ∀ header, x = .ok header →
      ∃ info, (t, .blockInfo (L.nBlockHeight squeak) info) ∈ w.1 ∧ L.hashBlock squeak = info.blockHash ∧
        header = info.blockHeader) v := by
  unfold SqueakCore.getBlockHeader SqueakCore.getBlockInfoByHeight
  refine Prog.safe_bind (Prog.safe_bind ?_)
  rintro v' - hi
  refine ⟨hi.shrinks (Shrinks.refl core _) _, List.prefix_append _ _, ?_⟩
  show Prog.Safe _ _ _ _ _
  simp only [View.after]
  cases N.bitcoinClient.getBlockInfoByHeight (L.nBlockHeight squeak) v'.2.env with
  | mk answer env =>
    cases answer with
    | error e => rintro header ⟨⟩
    | ok info =>
      simp only [Prog.ofExcept_ok, Prog.Safe]
      split
      · rintro header ⟨⟩
      · rename_i hblock
        rintro header ⟨⟩
        exact ⟨info, by simp, not_not.1 hblock, rfl⟩

/-- A statement that only shrinks the table, followed by what is safe with any longer trace. -/
theorem safe_shrinking_bind {α β : Type} {Q : Except Err β → View (World ρ) Obs → Prop}
    {stmt : World ρ → α × World ρ} {obs : World ρ → List Obs} {f : α → NodeM ρ β} {v : View (World ρ) Obs}
    (hs : ∀ w, Shrinks core w (stmt w).2)
    (hf : ∀ a v', v.1 <+: v'.1 → (f a).Safe (integrity L ρ) t Q v') :
    (Prog.observed stmt obs >>= f).Safe (integrity L ρ) t Q v := by
  intro v' hm hi
  have hp : v'.1 <+: (v'.after t stmt obs).1 := List.prefix_append _ _
  exact ⟨SqueaksSound.shrinks hi (hs _) _, hp, hf _ _ (List.IsPrefix.trans hm hp)⟩

/-- The INSERT keeps the table sound when the header's question is on the trace. -/
theorem safe_insertSqueak (hC : L.CodecLaws) {squeak : L.CSqueak} (hcheck : L.checkSqueak squeak = .ok ())
    {v : View (World ρ) Obs} {info : BlockInfo} (hinfo : (t, .blockInfo (L.nBlockHeight squeak) info) ∈ v.1)
    (hblock : L.hashBlock squeak = info.blockHash) (now : Int) :
    (SqueakStore.insertSqueak (squeakRow L now (getHash L squeak) squeak info.blockHeader)).Safe (integrity L ρ) t
      (fun _ _ => True) v := by
  intro v' hm hi
  refine ⟨?_, List.prefix_append _ _, trivial⟩
  show SqueaksSound L (v'.1 ++ (insertedObs _ v'.2.db).map (t, ·)) (insertUnique _ _ v'.2.db.squeaks).2
  constructor
  · exact uniqueOn_insertUnique _ hi.unique
  · intro r hr
    rcases mem_insertUnique hr with hr | ⟨rfl, hfree⟩
    · obtain ⟨s, ho, hw⟩ := hi.rows r hr
      exact ⟨s, ho, hw.append _⟩
    · rw [insertedObs_of_free hfree]
      exact ⟨squeak, rowOf_squeakRow hC hcheck now _, v'.1, [], t, info, _, _, rfl, hm.subset hinfo, hblock, rfl⟩

theorem sure_saveSqueak (hC : L.CodecLaws) (N : Node L ρ) (squeak : L.CSqueak) :
    (saveSqueak N squeak).Sure (integrity L ρ) t := by
  intro v
  unfold saveSqueak
  cases hcheck : L.checkSqueak squeak with
  | error e => trivial
  | ok _ =>
    rw [Prog.ofExcept_ok, Prog.ret_bind]
    refine Prog.safe_bind (Prog.safe_mono ?_ (safe_getBlockHeader N squeak v))
    rintro (e | header) v₁ hx
    · trivial
    · obtain ⟨info, hinfo, hblock, rfl⟩ := hx header rfl
      refine safe_shrinking_bind (Shrinks.refl core) fun numSqueaks v₂ h₂ => ?_
      split
      · trivial
      · refine safe_shrinking_bind (Shrinks.refl core) fun num v₃ h₃ => ?_
        split
        · trivial
        · refine safe_shrinking_bind (Shrinks.refl core) fun now v₄ h₄ => ?_
          exact safe_insertSqueak hC hcheck (h₄.subset (h₃.subset (h₂.subset hinfo))) hblock now

/-- A squeak read from a sound table has the hash it was looked up by. -/
theorem safe_getSqueak (squeakHash : Bytes) (v : View (World ρ) Obs) :
    (getSqueak L squeakHash).Safe (integrity L ρ) t
      (fun x _ => ∀ squeak, x = .ok (some squeak) → getHash L squeak = squeakHash) v := by
  refine Prog.safe_bind (Prog.safe_atomic fun v' _ hi => ⟨hi, List.prefix_refl _, ?_⟩)
  dsimp only
  cases hrow : findSqueak squeakHash v'.2.db with
  | none => rintro squeak ⟨⟩
  | some row =>
    obtain ⟨hmem, hhash⟩ := findBy_some hrow
    obtain ⟨s, ho, _⟩ := hi.rows row hmem
    simp only [ho.bytes, Prog.ofExcept_ok, Prog.ret_bind]
    rintro squeak ⟨⟩
    exact ho.hash.symm.trans hhash

theorem sure_saveSecretKey (hK : L.KeyLaws) (squeakHash secretKey : Bytes) :
    (saveSecretKey L squeakHash secretKey).Sure (integrity L ρ) t := by
  intro v
  unfold saveSecretKey saveSecretKeyWith
  refine Prog.safe_bind (Prog.safe_mono ?_ (safe_getSqueak squeakHash v))
  rintro (e | squeak) v₁ hx
  · trivial
  · cases squeak with
    | none => trivial
    | some squeak =>
      have hhash : getHash L squeak = squeakHash := hx squeak rfl
      cases hcheck : L.checkSqueakSecretKey squeak secretKey with
      | error e => simp only [hcheck]; trivial
      | ok _ =>
        simp only [hcheck, Prog.ofExcept_ok, Prog.ret_bind]
        have hkey : KeyFor L squeakHash secretKey := hhash ▸ keyFor_of_check hK hcheck
        refine Prog.safe_bind (Prog.safe_atomic fun v' _ hi =>
          ⟨SqueaksSound.setSqueakSecretKey hi hkey, List.prefix_refl _, ?_⟩)
        show Prog.Safe _ _ _ (if L.isPrivateMessage squeak then _ else _) _
        split
        · trivial
        · exact Prog.Within.sure (quiet_unlockSqueak stable_core _ _ _) Shrinks.allowed _

/-- Every operation is safe. -/
theorem sure_program (hC : L.CodecLaws) (hK : L.KeyLaws) (N : Node L ρ) (op : StoreOp L) :
    (op.program N).Sure (integrity L ρ) t :=
  closed_program Prog.closed_sure stable_core (fun hp => Prog.Within.sure hp Shrinks.allowed) (sure_saveSqueak hC N)
    (sure_saveSecretKey hK) op

end Safe

/-- In every reachable state of any number of concurrent operations that start on an empty squeak
table, the hashes are distinct and every row is sound. -/
theorem squeaks_sound (hC : L.CodecLaws) (hK : L.KeyLaws) (N : Node L ρ) (ops : List (StoreOp L)) {w₀ : World ρ}
    (hempty : w₀.db.squeaks = []) {history : List (Pool (World ρ) Obs Err)} {P : Pool (World ρ) Obs Err}
    (hr : Pool.Run SameSqueaks (.start w₀ (ops.map (StoreOp.program N))) history P) :
    SqueaksSound L P.trace P.shared.db.squeaks := by
  have hstart : (Pool.start w₀ (ops.map (StoreOp.program N))).AllSafe (integrity L ρ) fun _ _ _ => True := by
    refine ⟨?_, fun i p hp => ?_⟩
    · show SqueaksSound L [] w₀.db.squeaks
      rw [hempty]
      exact ⟨List.nodup_nil, fun r hr => by cases hr⟩
    · change (ops.map (StoreOp.program N))[i]? = some p at hp
      rw [List.getElem?_map] at hp
      obtain ⟨op, -, rfl⟩ := Option.map_eq_some_iff.1 hp
      exact sure_program hC hK N op _
  have henv : (integrity L ρ).Ignores SameSqueaks := integrity_allows.ignores fun _ _ => SameSqueaks.shrinks
  exact (hr.allSafe henv (fun _ _ _ _ _ _ => trivial) hstart).1.inv

/-- A run in which a key is saved after its squeak. -/
theorem squeaks_sound_sample : ∃ (history : List (Pool (World Sample.Outside) Obs Err))
    (P : Pool (World Sample.Outside) Obs Err),
    Pool.Run SameSqueaks (.start Sample.world
      ([StoreOp.saveSqueak Sample.squeak, .saveSecretKey Sample.squeak.val.reverse (Sample.scalarToBytes 5)].map
        (StoreOp.program (Sample.node 1)))) history P ∧
      P.shared.db.squeaks.map SqueakRow.secretKey = [some (Sample.scalarToBytes 5)] ∧
      SqueaksSound Sample.squeaklib P.trace P.shared.db.squeaks := by
  let ops : List (StoreOp Sample.squeaklib) :=
    [.saveSqueak Sample.squeak, .saveSecretKey Sample.squeak.val.reverse (Sample.scalarToBytes 5)]
  obtain ⟨history, hr⟩ := Pool.Run.exec (List.replicate 5 0 ++ List.replicate 5 1)
    (.init : Pool.Run SameSqueaks (.start Sample.world (ops.map (StoreOp.program (Sample.node 1)))) _ _)
  exact ⟨history, _, hr, by decide +kernel, squeaks_sound Sample.codecLaws Sample.keyLaws _ ops rfl hr⟩

end Squeaknode
