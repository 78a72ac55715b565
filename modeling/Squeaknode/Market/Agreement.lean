/-
Nodes never disagree about a squeak. Whatever their peers answer and however the statements of all nodes
interleave, two rows with one hash, on one node or on two, have the same header, open with the same keys to the
same content, and show the same content if the squeak is public. Their signatures may differ.
-/
import Squeaknode.Market.Network

namespace Squeaknode

open Interleave Relational SqueakDb SqueakStore

variable {L : Squeaklib} {ρ ι : Type}

/-! ## Rows that may be read -/

/-- A row of a checked squeak with a valid key if any, whose content, if it is public, is what a valid key
decrypts. -/
def ReadableRow (L : Squeaklib) (r : SqueakRow) : Prop :=
  ∃ squeak, RowOf L squeak r ∧ ∀ content, r.content = some content → L.isPrivateMessage squeak = false →
    ∃ k, L.checkSqueakSecretKey squeak k = .ok () ∧ L.getDecryptedContentStr squeak k none none = .ok content

/-- Rows of one hash agree. -/
structure RowsAgree (L : Squeaklib) (r r' : SqueakRow) : Prop where
  squeaks : ∃ squeak squeak', L.deserialize r.squeak = .ok squeak ∧ L.deserialize r'.squeak = .ok squeak' ∧
    L.SameHeader squeak squeak' ∧
    (∀ k, L.checkSqueakSecretKey squeak k = .ok () ↔ L.checkSqueakSecretKey squeak' k = .ok ()) ∧
    ∀ k k' author recipient, r.secretKey = some k → r'.secretKey = some k' →
      L.getDecryptedContentStr squeak k author recipient = L.getDecryptedContentStr squeak' k' author recipient
  replyHash : r.replyHash = r'.replyHash
  block : r.blockHash = r'.blockHash ∧ r.blockHeight = r'.blockHeight
  time : r.timeS = r'.timeS
  author : r.authorPublicKey = r'.authorPublicKey
  recipient : r.recipientPublicKey = r'.recipientPublicKey
  content : r.recipientPublicKey = none → ∀ content content', r.content = some content → r'.content = some content' →
    content = content'

/-- The columns that are copied from the header. -/
theorem columns_of_header {squeak squeak' : L.CSqueak} {r r' : SqueakRow} (ho : RowOf L squeak r)
    (ho' : RowOf L squeak' r') (hsame : L.SameHeader squeak squeak') :
    r.replyHash = r'.replyHash ∧ (r.blockHash = r'.blockHash ∧ r.blockHeight = r'.blockHeight) ∧ r.timeS = r'.timeS ∧
      r.authorPublicKey = r'.authorPublicKey ∧ r.recipientPublicKey = r'.recipientPublicKey := by
  rw [ho.replyHash, ho.blockHash, ho.blockHeight, ho.timeS, ho.author, ho.recipient, ho'.replyHash, ho'.blockHash,
    ho'.blockHeight, ho'.timeS, ho'.author, ho'.recipient, hsame.isReply, hsame.replyHash, hsame.blockHash,
    hsame.blockHeight, hsame.time, hsame.author, hsame.isPrivate, hsame.recipient]
  exact ⟨rfl, ⟨rfl, rfl⟩, rfl, rfl, rfl⟩

theorem isPublic_of_recipient {squeak : L.CSqueak} {r : SqueakRow} (ho : RowOf L squeak r)
    (hnone : r.recipientPublicKey = none) : L.isPrivateMessage squeak = false := by
  have hrecipient := ho.recipient
  rw [hnone] at hrecipient
  cases hprivate : L.isPrivateMessage squeak with
  | false => rfl
  | true => simp [hprivate] at hrecipient

theorem ReadableRow.agree (hK : L.KeyLaws) (hD : L.DecryptLaws) (hH : L.HeaderLaws) {r r' : SqueakRow}
    (h : ReadableRow L r) (h' : ReadableRow L r') (hhash : r.hash = r'.hash) : RowsAgree L r r' := by
  obtain ⟨squeak, ho, hcontent⟩ := h
  obtain ⟨squeak', ho', hcontent'⟩ := h'
  have hone : L.getHash squeak = L.getHash squeak' :=
    List.reverse_injective (ho.hash.symm.trans (hhash.trans ho'.hash))
  have hsame := hH.header squeak squeak' hone
  have hvalid : ∀ k, L.checkSqueakSecretKey squeak k = .ok () ↔ L.checkSqueakSecretKey squeak' k = .ok () := fun k =>
    ⟨hK.valid squeak squeak' k hsame.paymentPoint, hK.valid squeak' squeak k hsame.paymentPoint.symm⟩
  -- valid keys of either row open both squeaks alike
  have hopen : ∀ k k' author recipient, L.checkSqueakSecretKey squeak k = .ok () →
      L.checkSqueakSecretKey squeak' k' = .ok () →
      L.getDecryptedContentStr squeak k author recipient = L.getDecryptedContentStr squeak' k' author recipient := by
    intro k k' author recipient hk hk'
    calc L.getDecryptedContentStr squeak k author recipient
        = L.getDecryptedContentStr squeak k' author recipient := hD.valid _ _ _ _ _ hk ((hvalid k').2 hk')
      _ = L.getDecryptedContentStr squeak' k' author recipient :=
          hH.decrypts _ _ _ _ _ ho.checked ho'.checked hone
  obtain ⟨hreply, hblock, htime, hauthor, hrecipient⟩ := columns_of_header ho ho' hsame
  refine ⟨⟨squeak, squeak', ho.bytes, ho'.bytes, hsame, hvalid, ?_⟩, hreply, hblock, htime, hauthor, hrecipient, ?_⟩
  · intro k k' author recipient hk hk'
    exact hopen k k' author recipient (ho.key k hk) (ho'.key k' hk')
  · intro hnone content content' hc hc'
    obtain ⟨k, hk, hdecrypt⟩ := hcontent content hc (isPublic_of_recipient ho hnone)
    obtain ⟨k', hk', hdecrypt'⟩ := hcontent' content' hc' (isPublic_of_recipient ho' (hrecipient.symm.trans hnone))
    rw [hopen k k' none none hk hk', hdecrypt'] at hdecrypt
    exact (Except.ok.inj hdecrypt).symm

/-! ## Statements -/

/-- Every row may be read. -/
def Library (L : Squeaklib) (rows : List SqueakRow) : Prop := ∀ r ∈ rows, ReadableRow L r

section Statements

variable {rows : List SqueakRow}

theorem Library.update (h : Library L rows) {p : SqueakRow → Bool} {f : SqueakRow → SqueakRow}
    (hf : ∀ r ∈ rows, p r = true → ReadableRow L r → ReadableRow L (f r)) : Library L (updateWhere p f rows) := by
  intro r' hr'
  obtain ⟨r, hr, rfl⟩ := mem_updateWhere.1 hr'
  split
  · rename_i hp
    exact hf r hr hp (h r hr)
  · exact h r hr

theorem Library.delete (h : Library L rows) (p : SqueakRow → Bool) : Library L (deleteWhere p rows) :=
  fun r hr => h r (mem_deleteWhere.1 hr).1

theorem ReadableRow.liked {r : SqueakRow} (h : ReadableRow L r) (likedTimeMs : Option Int) :
    ReadableRow L { r with likedTimeMs := likedTimeMs } := by
  obtain ⟨squeak, ho, hcontent⟩ := h
  exact ⟨squeak, ⟨ho.bytes, ho.hash, ho.checked, ho.replyHash, ho.blockHash, ho.blockHeight, ho.timeS, ho.author,
    ho.recipient, ho.key⟩, hcontent⟩

theorem ReadableRow.keyed {r : SqueakRow} (h : ReadableRow L r) {secretKey : Bytes} (hk : KeyFor L r.hash secretKey) :
    ReadableRow L { r with secretKey := some secretKey } := by
  obtain ⟨squeak, ho, hcontent⟩ := h
  refine ⟨squeak, ⟨ho.bytes, ho.hash, ho.checked, ho.replyHash, ho.blockHash, ho.blockHeight, ho.timeS, ho.author,
    ho.recipient, ?_⟩, hcontent⟩
  rintro k ⟨⟩
  exact hk squeak ho.hash.symm

/-- What a checked squeak of the hash decrypts to with a valid key may be written as the content of the hash. -/
theorem ReadableRow.unlocked (hK : L.KeyLaws) (hD : L.DecryptLaws) (hH : L.HeaderLaws) {r : SqueakRow}
    (h : ReadableRow L r) {squeak : L.CSqueak} (hcheck : L.checkSqueak squeak = .ok ())
    (hhash : r.hash = getHash L squeak) {secretKey : Bytes} (hkey : L.checkSqueakSecretKey squeak secretKey = .ok ())
    {author recipient : Option L.PrivateKey} {content : String}
    (hdecrypt : L.getDecryptedContentStr squeak secretKey author recipient = .ok content) :
    ReadableRow L { r with content := some content } := by
  obtain ⟨squeak', ho, -⟩ := h
  have hone : L.getHash squeak' = L.getHash squeak := List.reverse_injective (ho.hash.symm.trans hhash)
  have hsame := hH.header squeak' squeak hone
  refine ⟨squeak', ⟨ho.bytes, ho.hash, ho.checked, ho.replyHash, ho.blockHash, ho.blockHeight, ho.timeS, ho.author,
    ho.recipient, ho.key⟩, ?_⟩
  rintro c ⟨⟩ hpublic
  refine ⟨secretKey, hK.valid squeak squeak' secretKey hsame.paymentPoint.symm hkey, ?_⟩
  calc L.getDecryptedContentStr squeak' secretKey none none
      = L.getDecryptedContentStr squeak secretKey none none := hH.decrypts _ _ _ _ _ ho.checked hcheck hone
    _ = L.getDecryptedContentStr squeak secretKey author recipient :=
        (hD.isPublic _ _ _ _ (hsame.isPrivate.symm.trans hpublic)).symm
    _ = .ok content := hdecrypt

theorem Library.insert (hC : L.CodecLaws) (h : Library L rows) {squeak : L.CSqueak}
    (hcheck : L.checkSqueak squeak = .ok ()) (now : Int) (header : BlockHeader) :
    Library L (insertUnique SqueakRow.hash (squeakRow L now (getHash L squeak) squeak header) rows).2 := by
  intro r hr
  rcases mem_insertUnique hr with hr | ⟨rfl, -⟩
  · exact h r hr
  · exact ⟨squeak, rowOf_squeakRow hC hcheck now header, fun _ hc => by cases hc⟩

end Statements

/-! ## Operations -/

/-- The rows stay readable, whatever anybody does. -/
def reading (L : Squeaklib) (ρ : Type) : Protocol (World ρ) Obs where
  inv v := Library L v.2.db.squeaks
  moves _ _ := True
  refl _ := trivial
  trans _ _ := trivial

section Safe

variable {t : Nat}

theorem sure_sameStore {β : Type} (stmt : World ρ → β × World ρ) (h : ∀ w, SameStore w (stmt w).2) :
    (Prog.atomic stmt : NodeM ρ β).Sure (reading L ρ) t := by
  refine fun v => Prog.safe_atomic fun v' _ hi => ⟨?_, trivial, trivial⟩
  show Library L (stmt v'.2).2.db.squeaks
  rw [(h v'.2).1]
  exact hi

/-- A squeak that is read is checked and has the hash it was looked up by. -/
theorem reads_getSqueak (squeakHash : Bytes) (v : View (World ρ) Obs) :
    (getSqueak L squeakHash).Safe (reading L ρ) t (fun x _ => ∀ squeak, x = .ok (some squeak) →
      L.checkSqueak squeak = .ok () ∧ getHash L squeak = squeakHash) v := by
  refine Prog.safe_bind (Prog.safe_atomic fun v' _ hi => ⟨hi, trivial, ?_⟩)
  dsimp only
  cases hrow : findSqueak squeakHash v'.2.db with
  | none => rintro squeak ⟨⟩
  | some row =>
    obtain ⟨hmem, hhash⟩ := findBy_some hrow
    obtain ⟨s, ho, -⟩ := hi row hmem
    simp only [ho.bytes, Prog.ofExcept_ok, Prog.ret_bind]
    rintro squeak ⟨⟩
    exact ⟨ho.checked, ho.hash.symm.trans hhash⟩

theorem reads_getSqueakSecretKey (hK : L.KeyLaws) (squeakHash : Bytes) (v : View (World ρ) Obs) :
    (SqueakStore.getSqueakSecretKey squeakHash).Safe (reading L ρ) t
      (fun x _ => ∀ k, x = .ok (some k) → KeyFor L squeakHash k) v := by
  refine Prog.safe_atomic fun v' _ hi => ⟨hi, trivial, ?_⟩
  rintro k heq
  obtain ⟨row, hrow, hkey⟩ := Option.bind_eq_some_iff.1 (Except.ok.inj heq)
  obtain ⟨hmem, hhash⟩ := findBy_some hrow
  obtain ⟨s, ho, -⟩ := hi row hmem
  rw [← hhash, ho.hash]
  exact keyFor_of_check hK (ho.key k hkey)

theorem sure_unlocking (hK : L.KeyLaws) (hD : L.DecryptLaws) (hH : L.HeaderLaws) (squeakHash : Bytes)
    (authorProfileId recipientProfileId : Option Nat) :
    (unlockSqueak L squeakHash authorProfileId recipientProfileId).Sure (reading L ρ) t := by
  intro v
  refine Prog.safe_bind (Prog.safe_mono ?_ (reads_getSqueak squeakHash v))
  rintro (e | squeak) v₁ hsqueak
  · trivial
  refine Prog.safe_bind (Prog.safe_mono ?_ (reads_getSqueakSecretKey hK squeakHash v₁))
  rintro (e | secretKey) v₂ hkey
  · trivial
  rcases squeak with _ | squeak
  · trivial
  rcases secretKey with _ | secretKey
  · trivial
  obtain ⟨hcheck, hhash⟩ := hsqueak squeak rfl
  have hvalid : L.checkSqueakSecretKey squeak secretKey = .ok () := hkey secretKey rfl squeak hhash
  have hB := Prog.closed_sure (Γ := reading L ρ) (t := t) (ε := Err)
  refine hB.bind (closed_requireProfile hB sure_sameStore _ _) (fun recipient => ?_) v₂
  refine hB.bind (closed_requireProfile hB sure_sameStore _ _) fun author => ?_
  cases hcontent : SqueakCore.getDecryptedContent squeak secretKey author recipient with
  | error e => exact hB.raise e
  | ok content =>
    obtain ⟨-, -, hdecrypt⟩ := privateKeys_of_decrypted hcontent
    refine fun v => Prog.safe_atomic fun v' _ hi => ⟨Library.update hi fun r _ hr hread => ?_, trivial, trivial⟩
    exact hread.unlocked hK hD hH hcheck ((by simpa using hr : r.hash = squeakHash).trans hhash.symm) hvalid hdecrypt

/-- A key is checked against the squeak before it is written, whoever is notified then. -/
theorem sure_keyingWith (hK : L.KeyLaws) (hD : L.DecryptLaws) (hH : L.HeaderLaws)
    {handleNewItem : L.CSqueak → NodeM ρ Unit} (hnotify : ∀ s, (handleNewItem s).Sure (reading L ρ) t)
    (squeakHash secretKey : Bytes) : (saveSecretKeyWith handleNewItem squeakHash secretKey).Sure (reading L ρ) t := by
  have hB := Prog.closed_sure (Γ := reading L ρ) (t := t) (ε := Err)
  intro v
  refine Prog.safe_bind (Prog.safe_mono ?_ (reads_getSqueak squeakHash v))
  rintro (e | squeak) v₁ hsqueak
  · trivial
  rcases squeak with _ | squeak
  · trivial
  obtain ⟨-, hhash⟩ := hsqueak squeak rfl
  cases hcheck : L.checkSqueakSecretKey squeak secretKey with
  | error e => simp only [hcheck]; trivial
  | ok _ =>
    simp only [hcheck, Prog.ofExcept_ok, Prog.ret_bind]
    have hkey : KeyFor L squeakHash secretKey := hhash ▸ keyFor_of_check hK hcheck
    refine Prog.safe_bind (Prog.safe_atomic fun v' _ hi =>
      ⟨Library.update hi fun r _ hr hread => hread.keyed ?_, trivial, hB.bind (hnotify squeak) (fun _ => ?_) _⟩)
    · rwa [show r.hash = squeakHash by simpa using hr]
    · split
      · exact hB.ret _
      · exact sure_unlocking hK hD hH _ _ _

theorem sure_keying (hK : L.KeyLaws) (hD : L.DecryptLaws) (hH : L.HeaderLaws) (squeakHash secretKey : Bytes) :
    (saveSecretKey L squeakHash secretKey).Sure (reading L ρ) t := by
  refine sure_keyingWith hK hD hH (fun _ _ => ?_) squeakHash secretKey
  trivial

theorem sure_saving (hC : L.CodecLaws) (N : Node L ρ) (squeak : L.CSqueak) :
    (saveSqueak N squeak).Sure (reading L ρ) t := by
  have hB := Prog.closed_sure (Γ := reading L ρ) (t := t) (ε := Err)
  have hobserved : ∀ {β : Type} (stmt : World ρ → β × World ρ) (obs : World ρ → List Obs),
      (∀ w, Library L w.db.squeaks → Library L (stmt w).2.db.squeaks) →
      (Prog.observed stmt obs : NodeM ρ β).Sure (reading L ρ) t :=
    fun stmt obs h v v' _ hi => ⟨h v'.2 hi, trivial, trivial⟩
  unfold saveSqueak
  cases hcheck : L.checkSqueak squeak with
  | error e => exact hB.raise e
  | ok _ =>
    have hheader : (SqueakCore.getBlockHeader N squeak).Sure (reading L ρ) t := by
      refine hB.bind (hB.bind (hobserved _ _ fun _ h => h) fun _ => closed_ofExcept hB _) fun info => ?_
      split
      · exact hB.raise _
      · exact hB.ret _
    rw [Prog.ofExcept_ok, Prog.ret_bind]
    refine hB.bind hheader fun header => hB.bind (hobserved _ _ fun _ h => h) fun numSqueaks => ?_
    split
    · exact hB.raise _
    · refine hB.bind (hobserved _ _ fun _ h => h) fun num => ?_
      split
      · exact hB.raise _
      · exact hB.bind (sure_sameStore _ fun _ => ⟨rfl, rfl⟩) fun now =>
          hobserved _ _ fun _ h => h.insert hC hcheck now header

/-- Everything a node does keeps its rows readable, if the programs do that save a squeak, a key and an offer. -/
theorem sure_tradeOp (hK : L.KeyLaws) (hD : L.DecryptLaws) (hH : L.HeaderLaws) {N : Node L ρ}
    {saveSqueak : L.CSqueak → NodeM ρ (Option Bytes)} {saveSecretKey : Bytes → Bytes → NodeM ρ Unit}
    {handleOffer : L.CSqueak → Offer → PeerAddress → NodeM ρ Unit}
    (hsave : ∀ squeak, (saveSqueak squeak).Sure (reading L ρ) t)
    (hkey : ∀ h k, (saveSecretKey h k).Sure (reading L ρ) t) (hoffer : ∀ s o a, (handleOffer s o a).Sure (reading L ρ) t)
    (M : Ledger ρ) (address : PeerAddress) (op : TradeOp L) :
    (op.programWith N saveSqueak saveSecretKey handleOffer M address).Sure (reading L ρ) t := by
  have hB := Prog.closed_sure (Γ := reading L ρ) (t := t) (ε := Err)
  have hupdate : ∀ h (f : SqueakRow → SqueakRow), (∀ r, ReadableRow L r → ReadableRow L (f r)) →
      (update (updateSqueak h f) : NodeM ρ Unit).Sure (reading L ρ) t :=
    fun h f hf v => Prog.safe_atomic fun v' _ hi => ⟨Library.update hi fun r _ _ hr => hf r hr, trivial, trivial⟩
  have hstore : ∀ op : StoreOp L, (op.programWith N saveSqueak saveSecretKey).Sure (reading L ρ) t := by
    intro op
    by_cases hgiven : op.Given
    · refine closed_given hB sure_sameStore (fun h now => hupdate h _ fun r hr => hr.liked (some now))
        (fun h => hupdate h _ fun r hr => hr.liked none)
        (fun h v => Prog.safe_atomic fun v' _ hi => ⟨Library.delete hi _, trivial, trivial⟩) hsave hkey hgiven
        fun h a r _ => sure_unlocking hK hD hH h a r
    · cases op with
      | makeSqueak id content reply recipient =>
        exact hB.bind (closed_making hB sure_sameStore hsave hkey (sure_unlocking hK hD hH) id content reply recipient)
          fun _ => hB.ret _
      | _ => exact absurd trivial hgiven
  refine closed_tradeOp hB (fun hp hh v => Prog.safe_catchWith (Prog.safe_mono ?_ (hp v))) sure_sameStore op
    (fun store _ => hstore store) hsave hkey hoffer
  rintro (e | a) w -
  · exact hh e w
  · trivial

theorem sure_reading (hC : L.CodecLaws) (hK : L.KeyLaws) (hD : L.DecryptLaws) (hH : L.HeaderLaws) (N : Node L ρ)
    (M : Ledger ρ) (address : PeerAddress) (op : TradeOp L) : (op.program N M address).Sure (reading L ρ) t :=
  sure_tradeOp hK hD hH (sure_saving hC N) (sure_keying hK hD hH) (closed_handleOffer Prog.closed_sure sure_sameStore)
    M address op

/-- So it does in a node that notifies its listeners. -/
theorem sure_notifying (hC : L.CodecLaws) (hK : L.KeyLaws) (hD : L.DecryptLaws) (hH : L.HeaderLaws) (N : Node L ρ)
    (listeners : Listeners L ρ) (M : Ledger ρ) (address : PeerAddress) (op : TradeOp L) :
    (op.notifying N listeners M address).Sure (reading L ρ) t := by
  have hB := Prog.closed_sure (Γ := reading L ρ) (t := t) (ε := Err)
  have hnotify : ∀ {β : Type} (f : ρ → Except Err β × ρ), (notify f : NodeM ρ β).Sure (reading L ρ) t := fun f =>
    hB.bind (fun v v' _ hi => ⟨hi, trivial, trivial⟩) fun _ => closed_ofExcept hB _
  exact sure_tradeOp hK hD hH (closed_notifyingSaveSqueak hB sure_sameStore hnotify (sure_saving hC N))
    (sure_keyingWith hK hD hH fun s => closed_handleNewItem hB sure_sameStore hnotify _ s)
    (closed_notifyingHandleOffer hB sure_sameStore hnotify) M address op

end Safe

/-! ## All nodes together -/

section Nodes

variable [DecidableEq ι]

/-- The squeaks of every node stay as they are. -/
def SameLibraries (s s' : Shared ι Db ρ) : Prop := ∀ i, (s'.own i).squeaks = (s.own i).squeaks

theorem harmless_reading : Harmless (nodePart (ρ := ρ)) fun _ : ι => reading L ρ := by
  intro i j v trace w hne hinv _ _
  have hget : (nodePart j).get ((nodePart i).put v.2 w) = ⟨v.2.own j, w.env⟩ :=
    congrArg (World.mk · w.env) (Function.update_of_ne hne _ _)
  rw [hget]
  exact ⟨hinv j, trivial⟩

/-- In every reachable state of any number of nodes, whatever their peers answer, rows with one hash agree. -/
theorem contents_agree (hC : L.CodecLaws) (hK : L.KeyLaws) (hD : L.DecryptLaws) (hH : L.HeaderLaws)
    (N : ι → Node L ρ) (M : Ledger ρ) (address : ι → PeerAddress) (calls : List (NodeCall L ι)) {s₀ : Shared ι Db ρ}
    (hstart : ∀ i, (s₀.own i).squeaks = []) {history : List (Pool (Shared ι Db ρ) Obs Err)}
    {P : Pool (Shared ι Db ρ) Obs Err}
    (hr : Pool.Run SameLibraries (.start s₀ (calls.map (NodeCall.program N M address))) history P) :
    ∀ i j, ∀ r ∈ (P.shared.own i).squeaks, ∀ r' ∈ (P.shared.own j).squeaks, r.hash = r'.hash → RowsAgree L r r' := by
  let Γ := fun _ : ι => reading L ρ
  have hpool : (Pool.start s₀ (calls.map (NodeCall.program N M address))).AllSafe (Protocol.all nodePart Γ)
      fun _ _ _ => True := by
    refine ⟨fun i r hr => ?_, fun t p hp => ?_⟩
    · rw [show ((View.part (nodePart i) (Pool.start s₀ (calls.map (NodeCall.program N M address))).view).2.db).squeaks =
        [] from hstart i] at hr
      cases hr
    · change (calls.map (NodeCall.program N M address))[t]? = some p at hp
      rw [List.getElem?_map] at hp
      obtain ⟨c, -, rfl⟩ := Option.map_eq_some_iff.1 hp
      exact Prog.Safe.zoom harmless_reading (sure_reading hC hK hD hH (N c.node) M (address c.node) c.op _)
  have henv : (Protocol.all nodePart Γ).Ignores SameLibraries := by
    intro v s hi hsame
    refine ⟨fun i => ?_, fun _ => trivial⟩
    show Library L (s.own i).squeaks
    rw [hsame i]
    exact hi i
  have hinv := (hr.allSafe henv (fun _ _ _ _ _ _ => trivial) hpool).1.inv
  exact fun i j r hr r' hr' hhash => (hinv i r hr).agree hK hD hH (hinv j r' hr') hhash

end Nodes

/-- The buyer and the seller of a trade show the same content. -/
theorem contents_agree_sample : ∃ (history : List (Pool (Shared Bool Db Sample.Between) Obs Err))
    (P : Pool (Shared Bool Db Sample.Between) Obs Err),
    Pool.Run SameLibraries (.start ⟨fun _ => .empty, ⟨⟨1000000, []⟩, []⟩⟩
      (Sample.trades.map (NodeCall.program (fun _ => Sample.trader) Sample.marketLedger
        fun i => if i then ⟨.IPV4, "buyer", 8555⟩ else Sample.sellerAddress))) history P ∧
      (P.shared.own true).squeaks.map SqueakRow.content = [some "x"] ∧
      (P.shared.own false).squeaks.map SqueakRow.content = [some "x"] ∧
      ∀ r ∈ (P.shared.own true).squeaks, ∀ r' ∈ (P.shared.own false).squeaks, r.hash = r'.hash →
        RowsAgree Sample.squeaklib r r' := by
  obtain ⟨history, hr⟩ := Pool.Run.exec ((List.range 8).flatMap fun i => List.replicate 16 i)
    (.init : Pool.Run SameLibraries (.start ⟨fun _ => .empty, ⟨⟨1000000, []⟩, []⟩⟩
      (Sample.trades.map (NodeCall.program (fun _ => Sample.trader) Sample.marketLedger
        fun i => if i then ⟨.IPV4, "buyer", 8555⟩ else Sample.sellerAddress))) _ _)
  refine ⟨history, _, hr, by decide +kernel, by decide +kernel, ?_⟩
  exact contents_agree Sample.codecLaws Sample.keyLaws Sample.decryptLaws Sample.headerLaws _ _ _ _
    (fun _ => rfl) hr true false

end Squeaknode
