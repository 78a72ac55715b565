/-
A thread that downloads from one peer, while everything else that the node does goes on. With a reliable peer each
turn of its loops finds what it looks for, or another thread has brought it: a squeak that is there by the time it
is inserted, a key that is there by the time it is read, count as well as its own.
-/
import Squeaknode.Client.Arrivals
import Squeaknode.Client.SyncTurns

namespace Squeaknode

open Interleave Relational SqueakDb SqueakStore NetworkController

variable {L : Squeaklib} {ρ : Type}

/-! ## What is asked for, and what is refused -/

/-- The guards of a download that are in effect: a bound of 0 and an empty list of authors are none. -/
structure NetworkController.Timeline.Asks (q : Timeline L) (squeak : L.CSqueak) : Prop where
  lower : q.minBlock = 0 ∨ q.minBlock ≤ L.nBlockHeight squeak
  upper : q.maxBlock = 0 ∨ L.nBlockHeight squeak ≤ q.maxBlock
  author : q.pubkeys = [] ∨ L.getPubKey squeak ∈ q.pubkeys

/-- A squeak that is sent for a hash is saved. -/
abbrev NetworkController.Timeline.Wants (q : Timeline L) (squeakHash : Bytes) (squeak : L.CSqueak) : Prop :=
  PeerDownloader.wanted squeakHash (some q.minBlock) (some q.maxBlock) (some q.pubkeys) squeak = true

theorem wants_iff {q : Timeline L} {squeakHash : Bytes} {squeak : L.CSqueak} :
    q.Wants squeakHash squeak ↔ getHash L squeak = squeakHash ∧ q.Asks squeak := by
  refine wanted_iff.trans ?_
  constructor
  · rintro ⟨hhash, hlower, hupper, hauthor⟩
    exact ⟨hhash, hlower, hupper, hauthor⟩
  · rintro ⟨hhash, hlower, hupper, hauthor⟩
    exact ⟨hhash, hlower, hupper, hauthor⟩

/-- The row of a checked squeak that was asked for. -/
def NetworkController.Timeline.Inserts (q : Timeline L) (row : SqueakRow) : Prop :=
  ∃ squeak now header, row = squeakRow L now (getHash L squeak) squeak header ∧ L.checkSqueak squeak = .ok () ∧
    q.Asks squeak

/-- Thread `t` counted as many squeaks as the limits allow, in all or of the author and the height of a squeak
that was asked for. -/
def Refused (N : Node L ρ) (q : Timeline L) (t : Nat) (trace : List (Nat × Obs)) : Prop :=
  (∃ num, (t, Obs.countedSqueaks num) ∈ trace ∧ N.maxSqueaks ≤ num) ∨
  ∃ squeak, ∃ num : Nat, q.Asks squeak ∧ N.maxSqueaksPerPublicKeyPerBlock ≤ num ∧
    (t, Obs.countedPublicKeyBlock (L.publicKeyToBytes (L.getPubKey squeak)) (L.nBlockHeight squeak) num) ∈ trace

/-- What ends thread `t` before its time: it was refused, or the notification of a squeak or a key raised in it. -/
def Halted (N : Node L ρ) (q : Timeline L) (t : Nat) (trace : List (Nat × Obs)) : Prop :=
  Refused N q t trace ∨ (t, Obs.notificationRaised) ∈ trace

theorem Refused.later {N : Node L ρ} {q : Timeline L} {t : Nat} {trace trace' : List (Nat × Obs)}
    (h : Refused N q t trace) (hlonger : trace <+: trace') : Refused N q t trace' := by
  rcases h with ⟨num, hmem, hle⟩ | ⟨squeak, num, hasks, hle, hmem⟩
  · exact .inl ⟨num, hlonger.subset hmem, hle⟩
  · exact .inr ⟨squeak, num, hasks, hle, hlonger.subset hmem⟩

theorem Halted.later {N : Node L ρ} {q : Timeline L} {t : Nat} {trace trace' : List (Nat × Obs)}
    (h : Halted N q t trace) (hlonger : trace <+: trace') : Halted N q t trace' :=
  h.imp (·.later hlonger) (hlonger.subset ·)

/-! ## Peers -/

/-- Whenever it is asked, the peer sends a squeak for each hash in `has`, and maybe for others; what it sends and the
node wants passes the checks of the node. -/
structure Sends (N : Node L ρ) (q : Timeline L) (peer : SqueakPeer) (has : List Bytes) : Prop where
  answers : ∀ h o, ∃ got, gotSqueak L (N.requestsGet peer.address (.squeak (hex h)) o).1 = .ok got
  sends : ∀ h ∈ has, ∀ o, ∃ squeak,
    gotSqueak L (N.requestsGet peer.address (.squeak (hex h)) o).1 = .ok (some squeak) ∧ q.Wants h squeak
  sound : ∀ h o squeak, gotSqueak L (N.requestsGet peer.address (.squeak (hex h)) o).1 = .ok (some squeak) →
    q.Wants h squeak → L.checkSqueak squeak = .ok () ∧ ∀ o', ∃ header, headerOf N squeak o' = .ok header

/-- Whenever it is asked, the peer also lists the hashes in `has`, and maybe others. -/
structure Reliable (N : Node L ρ) (q : Timeline L) (peer : SqueakPeer) (has : List Bytes) : Prop extends
    Sends N q peer has where
  lists : ∀ o, ∃ hashes, gotLookup N.json (N.requestsGet peer.address
    (.lookup (PeerClient.lookupArgs q.minBlock q.maxBlock q.pubkeys)) o).1 = .ok hashes ∧ ∀ h ∈ has, h ∈ hashes

/-- The key is valid for the hash, and opens its squeak if that is public. -/
structure Opening (L : Squeaklib) (squeakHash secretKey : Bytes) : Prop where
  valid : KeyFor L squeakHash secretKey
  decrypts : ∀ squeak, L.checkSqueak squeak = .ok () → getHash L squeak = squeakHash →
    L.isPrivateMessage squeak = false → ∃ content, L.getDecryptedContentStr squeak secretKey none none = .ok content

/-- Whenever it is asked, the peer gives the keys for the hashes in `gives`, and maybe more, and has no offer;
what it gives opens the squeak. -/
structure Generous (N : Node L ρ) (peer : SqueakPeer) (gives : List Bytes) : Prop where
  answers : ∀ h o, ∃ got, gotSecretKey (N.requestsGet peer.address (.secretKey (hex h)) o).1 = .ok got
  keys : ∀ h ∈ gives, ∀ o, ∃ k, k ≠ [] ∧
    gotSecretKey (N.requestsGet peer.address (.secretKey (hex h)) o).1 = .ok (some k)
  opens : ∀ h o k, gotSecretKey (N.requestsGet peer.address (.secretKey (hex h)) o).1 = .ok (some k) → k ≠ [] →
    Opening L h k
  free : ∀ h o, gotOffer N.json (N.requestsGet peer.address (.offer (hex h)) o).1 = .ok none

/-! ## The protocol -/

/-- Every row has arrived, every insertion is one that its thread may make, and while squeaks are `kept` they
stay. -/
def arriving (ρ : Type) (start : List SqueakRow) (kept : Prop) (mayInsert : Nat → SqueakRow → Prop) :
    Protocol (World ρ) Obs where
  inv v := (∀ r ∈ v.2.db.squeaks, Arrived start v.1 r.hash) ∧
    ∀ t row n m, (t, Obs.inserted row n m) ∈ v.1 → mayInsert t row
  moves v w := v.1 <+: w.1 ∧ (kept → Persists v.2.db w.2.db)
  refl _ := ⟨List.prefix_refl _, fun _ => .refl _⟩
  trans h h' := ⟨h.1.trans h'.1, fun hk => (h.2 hk).trans (h'.2 hk)⟩

/-- The rows may also be read. -/
abbrev downloading (L : Squeaklib) (ρ : Type) (start : List SqueakRow) (kept : Prop)
    (mayInsert : Nat → SqueakRow → Prop) : Protocol (World ρ) Obs :=
  (reading L ρ).and (arriving ρ start kept mayInsert)

section Protocol

variable {start : List SqueakRow} {kept : Prop} {mayInsert : Nat → SqueakRow → Prop} {t : Nat}

/-- What a statement of thread `t` leaves on the trace is what the thread may do. -/
def Permitted (mayInsert : SqueakRow → Prop) (_ : World ρ) (o : List Obs) (_ : World ρ) : Prop :=
  ∀ row n m, Obs.inserted row n m ∈ o → mayInsert row

theorem arriving_allows {v : View (World ρ) Obs} {o : List Obs} {w : World ρ}
    (hi : (arriving ρ start kept mayInsert).inv v) (hb : Brings kept v.2 o w) (hp : Permitted (mayInsert t) v.2 o w) :
    (arriving ρ start kept mayInsert).inv (v.1 ++ o.map (t, ·), w) ∧
      (arriving ρ start kept mayInsert).moves v (v.1 ++ o.map (t, ·), w) := by
  have hlonger : v.1 <+: v.1 ++ o.map (t, ·) := List.prefix_append _ _
  refine ⟨⟨fun r' hr' => ?_, fun t' row n m hmem => ?_⟩, hlonger, hb.persists⟩
  · rcases hb.arrives r' hr' with ⟨r, hr, hhash⟩ | ⟨row, n, m, hmem, hhash⟩
    · rw [← hhash]
      exact (hi.1 r hr).later hlonger
    · exact .inr ⟨t, row, n, m, List.mem_append_right _ (List.mem_map_of_mem hmem), hhash⟩
  · rcases List.mem_append.1 hmem with hmem | hmem
    · exact hi.2 t' row n m hmem
    · obtain ⟨e, he, heq⟩ := List.mem_map.1 hmem
      cases heq
      exact hp row n m he

theorem sure_downloading {α : Type} {p : NodeM ρ α} (hreads : p.Sure (reading L ρ) t) (hb : p.Within (Brings kept))
    (hp : p.Within (Permitted (mayInsert t))) : p.Sure (downloading L ρ start kept mayInsert) t :=
  Prog.Sure.and (fun _ _ _ _ hi h => arriving_allows hi h.1 h.2) hreads (hb.and hp)

theorem arrived_of_inv {v : View (World ρ) Obs} (hi : (downloading L ρ start kept mayInsert).inv v) {squeakHash : Bytes}
    (h : HasSqueak squeakHash v.2.db) : Arrived start v.1 squeakHash := by
  obtain ⟨r, hr⟩ := h
  obtain ⟨hmem, hhash⟩ := findSqueak_some hr
  rw [← hhash]
  exact hi.2.1 r hmem

/-! ## What reading and asking yield -/

section Reading

variable {Γ : Protocol (World ρ) Obs} {v : View (World ρ) Obs}

theorem yields_query {β : Type} (f : Db → β) :
    (query f : NodeM ρ β).Yields Γ t (fun x w => ∃ b, x = .ok b ∧ b = f w.2.db ∧ Γ.inv w) v :=
  Prog.Yields.atomic fun _ _ _ hi _ => ⟨_, rfl, rfl, hi⟩

theorem yields_ask {β : Type} (f : ρ → β × ρ) :
    (ask f : NodeM ρ β).Yields Γ t (fun x _ => ∃ b, x = .ok b ∧ ∃ o, b = (f o).1) v :=
  Prog.Yields.atomic fun v' _ _ _ _ => ⟨_, rfl, v'.2.env, rfl⟩

/-- A step of a notification raises for all to see. -/
theorem yields_notify {β : Type} (f : ρ → Except Err β × ρ) :
    (notify f : NodeM ρ β).Yields Γ t (fun x w => (t, Obs.notificationRaised) ∈ w.1 ∨ ∃ b, x = .ok b) v := by
  refine Prog.Yields.bindOk (Q := fun b w => (t, Obs.notificationRaised) ∈ w.1 ∨ ∃ a, b = .ok a)
    (Prog.Yields.observed fun v' _ _ _ _ => ⟨_, rfl, ?_⟩) fun b w _ h => ?_
  · cases hf : (f v'.2.env).1 with
    | error e => exact .inl (by simp [View.after, hf])
    | ok a => exact .inr ⟨a, rfl⟩
  · rcases h with h | ⟨a, rfl⟩
    · exact .ofExcept (.inl h)
    · exact .inr ⟨a, rfl⟩

/-- A question whose answer decides what is returned or raised. -/
theorem yields_asked {β γ : Type} (f : ρ → β × ρ) (g : β → Except Err γ) :
    (ask f >>= fun x => Prog.ofExcept (g x) : NodeM ρ γ).Yields Γ t (fun x _ => ∃ o, x = g (f o).1) v := by
  refine (yields_ask f).bindOk fun b w _ h => ?_
  obtain ⟨o, rfl⟩ := h
  exact .ofExcept ⟨o, rfl⟩

/-- The induction is on the callbacks that are left. -/
theorem yields_callAll {ι : Type} {listener : EventListener ι ρ} (item : ι) (used left pos : Nat) :
    (listener.callAll item used left pos).Yields Γ t
      (fun x w => (t, Obs.notificationRaised) ∈ w.1 ∨ x = .ok ()) v := by
  induction left generalizing pos v with
  | zero =>
    exact (yields_notify _).bind (fun _ w _ h => .inr rfl) fun e w _ h => .inl (h.resolve_right (by simp))
  | succ left ih =>
    refine (yields_notify _).bind (fun found w _ _ => ?_) fun e w _ h => ?_
    · cases found with
      | none => exact .inr rfl
      | some found =>
        exact (yields_notify _).bind (fun _ w _ _ => ih found.1) fun e w _ h => .inl (h.resolve_right (by simp))
    · exact .inl (h.resolve_right (by simp))

/-- A notification returns, or raises for all to see. -/
theorem yields_handleNewItem {ι : Type} {listener : EventListener ι ρ} (item : ι) :
    (listener.handleNewItem item).Yields Γ t (fun x w => (t, Obs.notificationRaised) ∈ w.1 ∨ x = .ok ()) v :=
  (yields_ask _).bindOk fun _ _ _ _ => yields_callAll item _ _ _

variable (N : Node L ρ) (peer : SqueakPeer) (squeakHash : Bytes)

theorem yields_getReceivedOffers : (SqueakStore.getReceivedOffers N squeakHash).Yields Γ t
    (fun x w => ∃ offers, x = .ok offers ∧ Γ.inv w) v := by
  refine (yields_ask _).bindOk fun now w _ _ => (yields_query _).mono fun x w _ h => ?_
  obtain ⟨offers, hoffers, -, hi⟩ := h
  exact ⟨offers, hoffers, hi⟩

theorem yields_clientGetSqueak : (PeerClient.getSqueak N peer squeakHash).Yields Γ t
    (fun x _ => ∃ o, x = gotSqueak L (N.requestsGet peer.address (.squeak (hex squeakHash)) o).1) v := by
  have hasked : PeerClient.getSqueak N peer squeakHash =
      ask (N.requestsGet peer.address (.squeak (hex squeakHash))) >>= fun x => Prog.ofExcept (gotSqueak L x) := by
    unfold PeerClient.getSqueak call
    rw [Prog.bind_bind]
    refine congrArg _ (funext fun x => ?_)
    rcases x with e | r
    · rfl
    · simp only [Prog.ofExcept_ok, Prog.ret_bind, gotSqueak]
      split
      · rfl
      · cases L.deserialize r.content <;> rfl
  rw [hasked]
  exact yields_asked _ _

theorem yields_clientGetSecretKey : (PeerClient.getSecretKey N peer squeakHash).Yields Γ t
    (fun x _ => ∃ o, x = gotSecretKey (N.requestsGet peer.address (.secretKey (hex squeakHash)) o).1) v := by
  have hasked : PeerClient.getSecretKey N peer squeakHash =
      ask (N.requestsGet peer.address (.secretKey (hex squeakHash))) >>= fun x => Prog.ofExcept (gotSecretKey x) := by
    unfold PeerClient.getSecretKey call
    rw [Prog.bind_bind]
    refine congrArg _ (funext fun x => ?_)
    rcases x with e | r
    · rfl
    · simp only [Prog.ofExcept_ok, Prog.ret_bind, gotSecretKey]
      split <;> rfl
  rw [hasked]
  exact yields_asked _ _

theorem yields_clientGetOffer : (PeerClient.getOffer N peer squeakHash).Yields Γ t
    (fun x _ => ∃ o, x = gotOffer N.json (N.requestsGet peer.address (.offer (hex squeakHash)) o).1) v := by
  have hasked : PeerClient.getOffer N peer squeakHash =
      ask (N.requestsGet peer.address (.offer (hex squeakHash))) >>= fun x => Prog.ofExcept (gotOffer N.json x) := by
    unfold PeerClient.getOffer call
    rw [Prog.bind_bind]
    refine congrArg _ (funext fun x => ?_)
    rcases x with e | r
    · rfl
    · simp only [Prog.ofExcept_ok, Prog.ret_bind, gotOffer]
      split
      · rfl
      · cases PeerClient.parseOffer N.json r.content <;> rfl
  rw [hasked]
  exact yields_asked _ _

theorem yields_clientLookup (minBlock maxBlock : Int) (pubkeys : List L.PublicKey) :
    (PeerClient.lookup N peer minBlock maxBlock pubkeys).Yields Γ t (fun x _ => ∃ o, x = gotLookup N.json
      (N.requestsGet peer.address (.lookup (PeerClient.lookupArgs minBlock maxBlock pubkeys)) o).1) v := by
  have hasked : PeerClient.lookup N peer minBlock maxBlock pubkeys =
      ask (N.requestsGet peer.address (.lookup (PeerClient.lookupArgs minBlock maxBlock pubkeys))) >>= fun x =>
        Prog.ofExcept (gotLookup N.json x) := by
    unfold PeerClient.lookup call
    rw [Prog.bind_bind]
    refine congrArg _ (funext fun x => ?_)
    rcases x with e | r
    · rfl
    · rfl
  rw [hasked]
  exact yields_asked _ _

end Reading

/-! ## Saving a squeak -/

section Saving

variable {v : View (World ρ) Obs}

/-- A stored squeak is read, whoever stored it. -/
theorem yields_getSqueak (squeakHash : Bytes) :
    (getSqueak L squeakHash).Yields (downloading L ρ start kept mayInsert) t (fun x w => ∃ found, x = .ok found ∧
      (HasSqueak squeakHash w.2.db ↔ found.isSome) ∧ ∀ squeak, found = some squeak →
        L.checkSqueak squeak = .ok () ∧ getHash L squeak = squeakHash ∧ Arrived start w.1 squeakHash) v := by
  refine (yields_query _).bindOk fun row w _ h => ?_
  obtain ⟨rfl, hi⟩ := h
  cases hfind : findSqueak squeakHash w.2.db with
  | none =>
    refine ⟨none, rfl, ⟨?_, fun h => by cases h⟩, fun squeak h => by cases h⟩
    rintro ⟨r, hr⟩
    rw [hfind] at hr
    cases hr
  | some row =>
    obtain ⟨hmem, hhash⟩ := findSqueak_some hfind
    obtain ⟨squeak, ho, -⟩ := hi.1 row hmem
    have harrived := arrived_of_inv hi ⟨row, hfind⟩
    simp only [ho.bytes, Prog.ofExcept_ok, Prog.ret_bind]
    refine ⟨some squeak, rfl, ⟨fun _ => rfl, fun _ => ⟨row, hfind⟩⟩, ?_⟩
    rintro s ⟨⟩
    exact ⟨ho.checked, ho.hash.symm.trans hhash, harrived⟩

theorem yields_getBlockHeader (N : Node L ρ) (squeak : L.CSqueak) :
    (SqueakCore.getBlockHeader N squeak).Yields (downloading L ρ start kept mayInsert) t
      (fun x _ => ∃ o, x = headerOf N squeak o) v := by
  have hinfo : (SqueakCore.getBlockInfoByHeight N (L.nBlockHeight squeak)).Yields (downloading L ρ start kept mayInsert)
      t (fun x _ => ∃ o, x = (N.bitcoinClient.getBlockInfoByHeight (L.nBlockHeight squeak) o).1) v := by
    refine Prog.Yields.bindOk
      (Q := fun b _ => ∃ o, b = (N.bitcoinClient.getBlockInfoByHeight (L.nBlockHeight squeak) o).1)
      (Prog.Yields.observed fun v' _ _ _ _ => ⟨_, rfl, v'.2.env, rfl⟩) fun b w _ h => ?_
    obtain ⟨o, rfl⟩ := h
    exact .ofExcept ⟨o, rfl⟩
  refine hinfo.bind (fun info w _ h => ?_) fun e w _ h => ?_
  · obtain ⟨o, ho⟩ := h
    have hheader : headerOf N squeak o = if L.hashBlock squeak ≠ info.blockHash then
        .error (.exception "Block hash incorrect.") else .ok info.blockHeader := by
      unfold headerOf
      rw [← ho]
    split
    · rename_i hblock
      exact ⟨o, by rw [hheader, if_pos hblock]⟩
    · rename_i hblock
      exact ⟨o, by rw [hheader, if_neg hblock]⟩
  · obtain ⟨o, ho⟩ := h
    refine ⟨o, ?_⟩
    unfold headerOf
    rw [← ho]

/-- A checked squeak on the chain that was asked for is stored after a save, be it by this save or by another,
unless the save was refused. -/
theorem yields_saveSqueak {N : Node L ρ} {q : Timeline L} {squeak : L.CSqueak} (hasks : q.Asks squeak)
    (hcheck : L.checkSqueak squeak = .ok ()) (hchain : ∀ o, ∃ header, headerOf N squeak o = .ok header) :
    (saveSqueak N squeak).Yields (downloading L ρ start kept mayInsert) t (fun x w => Refused N q t w.1 ∨
      (∃ inserted, x = .ok inserted) ∧ Arrived start w.1 (getHash L squeak) ∧
        (kept → HasSqueak (getHash L squeak) w.2.db)) v := by
  unfold saveSqueak SqueakStore.getNumberOfSqueaks SqueakStore.numberOfSqueaksWithPublicKeyWithBlockHeight
  rw [hcheck, Prog.ofExcept_ok, Prog.ret_bind]
  refine (yields_getBlockHeader N squeak).bind (fun header w₁ _ h => ?_) fun e w₁ _ h => ?_
  · refine Prog.Yields.bindOk (Q := fun num w => (t, Obs.countedSqueaks num) ∈ w.1)
      (Prog.Yields.observed fun v' _ _ _ _ => ⟨_, rfl, by simp⟩) fun numSqueaks w₂ _ hcounted => ?_
    split
    · rename_i hle
      exact .inl (.inl ⟨numSqueaks, hcounted, hle⟩)
    · refine Prog.Yields.bindOk (Q := fun num w =>
        (t, Obs.countedPublicKeyBlock (L.publicKeyToBytes (L.getPubKey squeak)) (L.nBlockHeight squeak) num) ∈ w.1)
        (Prog.Yields.observed fun v' _ _ _ _ => ⟨_, rfl, by simp⟩) fun num w₃ _ hcounted => ?_
      split
      · rename_i hle
        exact .inl (.inr ⟨squeak, num, hasks, hle, hcounted⟩)
      · refine (yields_ask _).bindOk fun now w₄ _ _ => Prog.Yields.observed fun v' _ _ hi _ => .inr ⟨⟨_, rfl⟩, ?_⟩
        have hthere := hasSqueak_insertSqueak (squeakRow L now (getHash L squeak) squeak header) v'.2.db
        exact ⟨arrived_of_inv hi hthere, fun _ => hthere⟩
  · obtain ⟨o, ho⟩ := h
    obtain ⟨header, hheader⟩ := hchain o
    rw [hheader] at ho
    cases ho

/-- It is stored as well while the listeners are notified, which may raise. -/
theorem yields_notifyingSaveSqueak {N : Node L ρ} (listeners : Listeners L ρ) {q : Timeline L} {squeak : L.CSqueak}
    (hasks : q.Asks squeak) (hcheck : L.checkSqueak squeak = .ok ())
    (hchain : ∀ o, ∃ header, headerOf N squeak o = .ok header) :
    (NotifyingStore.saveSqueak N listeners squeak).Yields (downloading L ρ start kept mayInsert) t (fun x w =>
      Halted N q t w.1 ∨ (∃ inserted, x = .ok inserted) ∧ Arrived start w.1 (getHash L squeak) ∧
        (kept → HasSqueak (getHash L squeak) w.2.db)) v := by
  refine (yields_saveSqueak hasks hcheck hchain).bind (fun inserted w₁ _ h => ?_) fun e w₁ _ h => ?_
  · cases inserted with
    | none =>
      rcases h with h | ⟨-, h⟩
      · exact .inl (.inl h)
      · exact .inr ⟨⟨_, rfl⟩, h⟩
    | some insertedSqueakHash =>
      refine (yields_handleNewItem squeak).bind (fun _ w₂ hm _ => ?_) fun e w₂ _ hraised => ?_
      · rcases h with h | ⟨-, harrived, hstored⟩
        · exact .inl (.inl (h.later hm.2.1))
        · exact .inr ⟨⟨_, rfl⟩, harrived.later hm.2.1, fun hkept => (hm.2.2 hkept).squeak _ (hstored hkept)⟩
      · exact .inl (.inr (hraised.resolve_right (by simp)))
  · rcases h with h | ⟨⟨inserted, hok⟩, -⟩
    · exact .inl (.inl h)
    · cases hok

/-- A turn of the first loop with a reliable peer. -/
theorem yields_downloadSqueak {N : Node L ρ} (listeners : Listeners L ρ) {q : Timeline L} {peer : SqueakPeer}
    {has : List Bytes} (hp : Sends N q peer has) (squeakHash : Bytes) :
    (PeerDownloader.downloadSqueakWith N peer (NotifyingStore.saveSqueak N listeners) squeakHash (some q.minBlock)
      (some q.maxBlock) (some q.pubkeys)).Yields (downloading L ρ start kept mayInsert) t (fun x w =>
        Halted N q t w.1 ∨ x = .ok () ∧ (squeakHash ∈ has →
          Arrived start w.1 squeakHash ∧ (kept → HasSqueak squeakHash w.2.db))) v := by
  unfold PeerDownloader.downloadSqueakWith
  refine (yields_getSqueak squeakHash).bindOk fun found w₁ _ h => ?_
  obtain ⟨hthere, hsqueak⟩ := h
  cases found with
  | some squeak =>
    -- somebody has stored it before
    exact .inr ⟨rfl, fun _ => ⟨(hsqueak squeak rfl).2.2, fun _ => hthere.2 rfl⟩⟩
  | none =>
    refine (yields_clientGetSqueak N peer squeakHash).bind (fun got w₂ _ h => ?_) fun e w₂ _ h => ?_
    · obtain ⟨o, hgot⟩ := h
      have hsends : squeakHash ∈ has → ∃ squeak, got = some squeak ∧ q.Wants squeakHash squeak := by
        intro hmem
        obtain ⟨squeak, hsent, hwants⟩ := hp.sends squeakHash hmem o
        rw [hsent] at hgot
        exact ⟨squeak, Except.ok.inj hgot, hwants⟩
      cases got with
      | none =>
        refine .inr ⟨rfl, fun hmem => ?_⟩
        obtain ⟨squeak, hnone, -⟩ := hsends hmem
        cases hnone
      | some squeak =>
        dsimp only
        split
        · rename_i hwants
          obtain ⟨hhash, hasks⟩ := wants_iff.1 hwants
          obtain ⟨hcheck, hchain⟩ := hp.sound squeakHash o squeak hgot.symm hwants
          refine (yields_notifyingSaveSqueak listeners hasks hcheck hchain).bind (fun inserted w₃ _ h => ?_)
            fun e w₃ _ h => ?_
          · rcases h with h | ⟨-, harrived, hstored⟩
            · exact .inl h
            · rw [hhash] at harrived hstored
              exact .inr ⟨rfl, fun _ => ⟨harrived, hstored⟩⟩
          · rcases h with h | ⟨⟨inserted, hok⟩, -⟩
            · exact .inl h
            · cases hok
        · rename_i hunwanted
          refine .inr ⟨rfl, fun hmem => ?_⟩
          obtain ⟨squeak', heq, hwants⟩ := hsends hmem
          cases heq
          exact absurd hwants hunwanted
    · obtain ⟨o, hgot⟩ := h
      obtain ⟨got, hok⟩ := hp.answers squeakHash o
      rw [hok] at hgot
      cases hgot

end Saving

/-! ## Saving a key -/

section Keys

variable {v : View (World ρ) Obs}

/-- A stored key is read, and it is valid. -/
theorem yields_getSqueakSecretKey (hK : L.KeyLaws) (squeakHash : Bytes) :
    (SqueakStore.getSqueakSecretKey squeakHash).Yields (downloading L ρ start kept mayInsert) t (fun x w => ∃ found,
      x = .ok found ∧ (HasKey squeakHash w.2.db ↔ found.isSome) ∧ ∀ k, found = some k → KeyFor L squeakHash k) v := by
  refine (yields_query _).mono fun x w _ h => ?_
  obtain ⟨_, rfl, rfl, hi⟩ := h
  refine ⟨_, rfl, ?_, fun k hk => ?_⟩
  · constructor
    · rintro ⟨r, k, hr, hk⟩
      simp [SqueakDb.getSqueakSecretKey, hr, hk]
    · intro hsome
      obtain ⟨k, hk⟩ := Option.isSome_iff_exists.1 hsome
      obtain ⟨r, hr, hrk⟩ := Option.bind_eq_some_iff.1 hk
      exact ⟨r, k, hr, hrk⟩
  · obtain ⟨r, hr, hrk⟩ := Option.bind_eq_some_iff.1 hk
    obtain ⟨hmem, hhash⟩ := findSqueak_some hr
    obtain ⟨squeak, ho, -⟩ := hi.1 r hmem
    rw [← hhash, ho.hash]
    exact keyFor_of_check hK (ho.key k hrk)

/-- A squeak with a key opens once one of its keys does. -/
theorem yields_unlockSqueak (hK : L.KeyLaws) (hD : L.DecryptLaws) (hkept : kept) {squeakHash secretKey : Bytes}
    (hopens : Opening L squeakHash secretKey) (hpublic : ∀ squeak, L.checkSqueak squeak = .ok () →
      getHash L squeak = squeakHash → L.isPrivateMessage squeak = false) (hv : HasKey squeakHash v.2.db) :
    (unlockSqueak L squeakHash none none).Yields (downloading L ρ start kept mayInsert) t
      (fun x _ => x = .ok ()) v := by
  unfold unlockSqueak
  refine (yields_getSqueak squeakHash).bindOk fun found w₁ hm₁ h => ?_
  obtain ⟨hthere, hsqueak⟩ := h
  have hkey₁ : HasKey squeakHash w₁.2.db := (hm₁.2.2 hkept).key _ hv
  obtain ⟨squeak, rfl⟩ := Option.isSome_iff_exists.1 (hthere.1 hkey₁.hasSqueak)
  obtain ⟨hcheck, hhash, -⟩ := hsqueak squeak rfl
  refine (yields_getSqueakSecretKey hK squeakHash).bindOk fun k w₂ hm₂ h => ?_
  obtain ⟨hthere, hvalid⟩ := h
  obtain ⟨k, rfl⟩ := Option.isSome_iff_exists.1 (hthere.1 ((hm₂.2.2 hkept).key _ hkey₁))
  obtain ⟨content, hcontent⟩ := hopens.decrypts squeak hcheck hhash (hpublic squeak hcheck hhash)
  -- the key that is read may be another one, but both decrypt alike
  rw [hD.valid squeak secretKey k none none (hopens.valid squeak hhash) (hvalid k rfl squeak hhash)] at hcontent
  simp only [givenProfile, requireProfile, Prog.pure_eq, Prog.ret_bind, Option.isSome_none, Bool.false_eq_true,
    if_false, SqueakCore.getDecryptedContent, Option.any_none, Option.bind_none, hcontent, Prog.ofExcept_ok]
  exact Prog.Yields.atomic fun _ _ _ _ _ => rfl

/-- A key that opens a stored squeak is saved, unless the notification raises, and the key is saved before. -/
theorem yields_saveSecretKey (hK : L.KeyLaws) (hD : L.DecryptLaws) (hH : L.HeaderLaws) (listeners : Listeners L ρ)
    (hkept : kept) {squeakHash secretKey : Bytes} (hopens : Opening L squeakHash secretKey)
    (hv : HasSqueak squeakHash v.2.db) :
    (NotifyingStore.saveSecretKey listeners squeakHash secretKey).Yields (downloading L ρ start kept mayInsert) t
      (fun x w => ((t, Obs.notificationRaised) ∈ w.1 ∨ x = .ok ()) ∧ HasKey squeakHash w.2.db) v := by
  unfold NotifyingStore.saveSecretKey saveSecretKeyWith
  refine (yields_getSqueak squeakHash).bindOk fun found w₁ hm₁ h => ?_
  obtain ⟨hthere, hsqueak⟩ := h
  have hstored : HasSqueak squeakHash w₁.2.db := (hm₁.2.2 hkept).squeak _ hv
  obtain ⟨squeak, rfl⟩ := Option.isSome_iff_exists.1 (hthere.1 hstored)
  obtain ⟨hcheck, hhash, -⟩ := hsqueak squeak rfl
  simp only [hopens.valid squeak hhash, Prog.ofExcept_ok, Prog.ret_bind]
  refine Prog.Yields.bindOk (Q := fun _ w => HasKey squeakHash w.2.db) (Prog.Yields.atomic fun v' hm' _ _ _ =>
    ⟨_, rfl, ((hm'.2.2 hkept).squeak _ hstored).setKey secretKey⟩) fun _ w₂ _ hkey => ?_
  refine (yields_handleNewItem squeak).bind (fun _ w₃ hm₃ _ => ?_) fun e w₃ hm₃ hraised => ?_
  · have hkey₃ : HasKey squeakHash w₃.2.db := (hm₃.2.2 hkept).key _ hkey
    split
    · exact ⟨.inr rfl, hkey₃⟩
    · rename_i hprivate
      have hpublic : ∀ squeak', L.checkSqueak squeak' = .ok () → getHash L squeak' = squeakHash →
          L.isPrivateMessage squeak' = false := by
        intro squeak' hcheck' hhash'
        rw [(hH.header squeak' squeak (List.reverse_injective (hhash'.trans hhash.symm))).isPrivate]
        simpa using hprivate
      refine (yields_unlockSqueak hK hD hkept hopens hpublic hkey₃).mono fun x w hm hx => ?_
      exact ⟨.inr hx, (hm.2.2 hkept).key _ hkey₃⟩
  · exact ⟨.inl (hraised.resolve_right (by simp)), (hm₃.2.2 hkept).key _ hkey⟩

/-- A turn of the second loop with a peer that gives its keys away. -/
theorem yields_downloadSecretKey (hK : L.KeyLaws) (hD : L.DecryptLaws) (hH : L.HeaderLaws) (listeners : Listeners L ρ)
    (hkept : kept) {N : Node L ρ} {peer : SqueakPeer} {gives : List Bytes} (hp : Generous N peer gives)
    (squeakHash : Bytes) :
    (PeerDownloader.downloadSecretKeyWith N peer (NotifyingStore.saveSecretKey listeners)
      (NotifyingStore.handleOffer N listeners) squeakHash).Yields (downloading L ρ start kept mayInsert) t
      (fun x w => ((t, Obs.notificationRaised) ∈ w.1 ∨ x = .ok ()) ∧
        (squeakHash ∈ gives → HasSqueak squeakHash v.2.db → HasKey squeakHash w.2.db)) v := by
  unfold PeerDownloader.downloadSecretKeyWith
  refine (yields_getSqueak squeakHash).bindOk fun found w₁ hm₁ h => ?_
  obtain ⟨hthere, -⟩ := h
  cases found with
  | none => exact ⟨.inr rfl, fun _ hv => by cases hthere.1 ((hm₁.2.2 hkept).squeak _ hv)⟩
  | some squeak =>
    have hstored : HasSqueak squeakHash w₁.2.db := hthere.2 rfl
    refine (yields_getSqueakSecretKey hK squeakHash).bindOk fun owned w₂ hm₂ h => ?_
    obtain ⟨hkey, -⟩ := h
    have hstored₂ : HasSqueak squeakHash w₂.2.db := (hm₂.2.2 hkept).squeak _ hstored
    split
    · rename_i howned
      -- the node has a key, whoever gave it
      refine ⟨.inr rfl, fun _ _ => hkey.2 ?_⟩
      cases owned with
      | none => cases howned
      | some k => rfl
    · refine (yields_clientGetSecretKey N peer squeakHash).bind (fun given w₃ hm₃ h => ?_) fun e w₃ _ h => ?_
      · obtain ⟨o, hgot⟩ := h
        have hstored₃ : HasSqueak squeakHash w₃.2.db := (hm₃.2.2 hkept).squeak _ hstored₂
        cases hgiven : given.filter fun k => !k.isEmpty with
        | some secretKey =>
          obtain ⟨rfl, hne⟩ := Option.filter_eq_some_iff.1 hgiven
          have hopens := hp.opens squeakHash o secretKey hgot.symm (by simpa using hne)
          refine (yields_saveSecretKey hK hD hH listeners hkept hopens hstored₃).mono fun x w _ h => ?_
          exact ⟨h.1, fun _ _ => h.2⟩
        | none =>
          have hnot : squeakHash ∉ gives := by
            intro hmem
            obtain ⟨k, hne, hk⟩ := hp.keys squeakHash hmem o
            rw [hk] at hgot
            cases hgot
            simp [hne] at hgiven
          refine (yields_getReceivedOffers N squeakHash).bindOk fun receivedOffers w₄ _ _ => ?_
          split
          · exact ⟨.inr rfl, fun hmem => absurd hmem hnot⟩
          · have hfree : (PeerClient.getOffer N peer squeakHash).Yields (downloading L ρ start kept mayInsert) t
                (fun x _ => ∃ offer, x = .ok offer ∧ offer = none) w₄ := by
              refine (yields_clientGetOffer N peer squeakHash).mono fun x w _ h => ?_
              obtain ⟨o', rfl⟩ := h
              exact ⟨none, hp.free _ _, rfl⟩
            refine hfree.bindOk fun offer w₅ _ h => ?_
            subst h
            exact ⟨.inr rfl, fun hmem => absurd hmem hnot⟩
      · obtain ⟨o, hgot⟩ := h
        obtain ⟨got, hok⟩ := hp.answers squeakHash o
        rw [hok] at hgot
        cases hgot

end Keys

/-! ## A thread of the download -/

/-- What has come of the thread that asks `peer`: what the peer has has arrived and is kept, with the keys that
the peer gives away, or the store was full, or a notification raised. -/
def Delivered (N : Node L ρ) (q : Timeline L) (start : List SqueakRow) (kept : Prop) (t : Nat) (peer : SqueakPeer)
    (has gives : List Bytes) (v : View (World ρ) Obs) : Prop :=
  Halted N q t v.1 ∨ ∀ h ∈ has, Arrived start v.1 h ∧ (kept → HasSqueak h v.2.db ∧
    (Generous N peer gives → h ∈ gives → HasKey h v.2.db))

section Thread

variable {N : Node L ρ} {q : Timeline L} {peer : SqueakPeer} {has gives : List Bytes} {v w : View (World ρ) Obs}

theorem Delivered.moved (h : Delivered N q start kept t peer has gives v)
    (hm : (downloading L ρ start kept mayInsert).moves v w) : Delivered N q start kept t peer has gives w := by
  rcases h with h | h
  · exact .inl (h.later hm.2.1)
  · refine .inr fun squeakHash hmem => ?_
    obtain ⟨harrived, hkept⟩ := h squeakHash hmem
    refine ⟨harrived.later hm.2.1, fun hk => ⟨(hm.2.2 hk).squeak _ (hkept hk).1, fun hg hgives => ?_⟩⟩
    exact (hm.2.2 hk).key _ ((hkept hk).2 hg hgives)

/-- What has arrived before the keys are asked for stays, if no key is found. -/
theorem Delivered.of_squeaks (hk : ¬ (kept ∧ Generous N peer gives))
    (h : ∀ h ∈ has, Arrived start v.1 h ∧ (kept → HasSqueak h v.2.db)) : Delivered N q start kept t peer has gives v :=
  .inr fun squeakHash hmem =>
    ⟨(h squeakHash hmem).1, fun hkept => ⟨(h squeakHash hmem).2 hkept, fun hg _ => absurd ⟨hkept, hg⟩ hk⟩⟩

theorem yields_downloadInterestRange (hK : L.KeyLaws) (hD : L.DecryptLaws) (hH : L.HeaderLaws)
    (listeners : Listeners L ρ) (hp : Reliable N q peer has) (gives : List Bytes) (v : View (World ρ) Obs) :
    (PeerDownloader.downloadInterestRangeWith N peer (NotifyingStore.saveSqueak N listeners)
      (NotifyingStore.saveSecretKey listeners) (NotifyingStore.handleOffer N listeners) q.minBlock q.maxBlock
      q.pubkeys).Yields (downloading L ρ start kept mayInsert) t
        (fun _ w => Delivered N q start kept t peer has gives w) v := by
  refine (yields_clientLookup N peer _ _ _).bind (fun hashes w₁ _ h => ?_) fun e w₁ _ h => ?_
  · obtain ⟨o, hgot⟩ := h
    have hlisted : ∀ h ∈ has, h ∈ hashes := by
      obtain ⟨hashes', hlookup, hsub⟩ := hp.lists o
      rw [hlookup] at hgot
      cases hgot
      exact hsub
    have hfirst := Prog.Yields.forM (Γ := downloading L ρ start kept mayInsert) (t := t) (C := fun _ => True)
      (B := fun w => Halted N q t w.1)
      (F := fun h w => h ∈ has → Arrived start w.1 h ∧ (kept → HasSqueak h w.2.db)) (fun _ _ _ _ => trivial)
      (fun _ _ hm h => h.later hm.2.1)
      (fun h _ _ hm hF hmem => ⟨(hF hmem).1.later hm.2.1, fun hk => (hm.2.2 hk).squeak h ((hF hmem).2 hk)⟩)
      (fun h _ v _ => yields_downloadSqueak (v := v) listeners hp.toSends h) (l := hashes) (v := w₁) trivial
    refine hfirst.bind (fun _ w₂ _ h => ?_) fun e w₂ _ h => ?_
    · rcases h with h | ⟨-, h⟩
      · exact .of_forall (fun x w hm => .inl (h.later hm.2.1)) _
      · have hhave : ∀ h ∈ has, Arrived start w₂.1 h ∧ (kept → HasSqueak h w₂.2.db) :=
          fun squeakHash hmem => h squeakHash (hlisted squeakHash hmem) hmem
        by_cases hall : kept ∧ Generous N peer gives
        · obtain ⟨hkept, hg⟩ := hall
          have hsecond := Prog.Yields.forM (Γ := downloading L ρ start kept mayInsert) (t := t)
            (C := fun w => ∀ h ∈ has, HasSqueak h w.2.db) (B := fun w => (t, Obs.notificationRaised) ∈ w.1)
            (F := fun h w => h ∈ gives → h ∈ has → HasKey h w.2.db)
            (fun _ _ hm hC h hmem => (hm.2.2 hkept).squeak h (hC h hmem)) (fun _ _ hm h => hm.2.1.subset h)
            (fun h _ _ hm hF hgives hmem => (hm.2.2 hkept).key h (hF hgives hmem))
            (fun h _ v hC => (yields_downloadSecretKey (v := v) hK hD hH listeners hkept hg h).mono fun x w _ hx =>
              hx.1.imp_right fun hok => ⟨hok, fun hgives hmem => hx.2 hgives (hC h hmem)⟩)
            (l := hashes) (v := w₂) fun h hmem => (hhave h hmem).2 hkept
          refine hsecond.mono fun x w hm h => ?_
          rcases h with h | ⟨-, h⟩
          · exact .inl (.inr h)
          · refine .inr fun squeakHash hmem => ⟨(hhave squeakHash hmem).1.later hm.2.1, fun _ => ⟨?_, fun _ hgives => ?_⟩⟩
            · exact (hm.2.2 hkept).squeak _ ((hhave squeakHash hmem).2 hkept)
            · exact h squeakHash (hlisted squeakHash hmem) hgives hmem
        · exact .of_forall (fun x w hm => (Delivered.of_squeaks hall hhave).moved hm) _
    · rcases h with h | ⟨hok, -⟩
      · exact .inl h
      · cases hok
  · obtain ⟨o, hgot⟩ := h
    obtain ⟨hashes, hlookup, -⟩ := hp.lists o
    rw [hlookup] at hgot
    cases hgot

/-- A download of one squeak asks for any squeak of its hash. -/
theorem downloadSqueak_unbounded (N : Node L ρ) (peer : SqueakPeer) (saveSqueak : L.CSqueak → NodeM ρ (Option Bytes))
    (peers : List SqueakPeer) (squeakHash : Bytes) :
    PeerDownloader.downloadSqueakWith N peer saveSqueak squeakHash none none none =
      PeerDownloader.downloadSqueakWith N peer saveSqueak squeakHash (some (Timeline.unbounded L peers).minBlock)
        (some (Timeline.unbounded L peers).maxBlock) (some (Timeline.unbounded L peers).pubkeys) := by
  have hwanted : ∀ squeak, PeerDownloader.wanted squeakHash none none none squeak =
      PeerDownloader.wanted squeakHash (some (Timeline.unbounded L peers).minBlock)
        (some (Timeline.unbounded L peers).maxBlock) (some (Timeline.unbounded L peers).pubkeys) squeak := by
    intro squeak
    simp [PeerDownloader.wanted, Timeline.unbounded, whenTruthy]
  unfold PeerDownloader.downloadSqueakWith
  simp only [hwanted]

theorem yields_downloadSingleSqueak (hK : L.KeyLaws) (hD : L.DecryptLaws) (hH : L.HeaderLaws)
    (listeners : Listeners L ρ) {peers : List SqueakPeer} {squeakHash : Bytes}
    (hp : Sends N (.unbounded L peers) peer [squeakHash]) (gives : List Bytes) (v : View (World ρ) Obs) :
    (PeerDownloader.downloadSingleSqueakWith N peer (NotifyingStore.saveSqueak N listeners)
      (NotifyingStore.saveSecretKey listeners) (NotifyingStore.handleOffer N listeners) squeakHash).Yields
        (downloading L ρ start kept mayInsert) t
        (fun _ w => Delivered N (.unbounded L peers) start kept t peer [squeakHash] gives w) v := by
  unfold PeerDownloader.downloadSingleSqueakWith
  rw [downloadSqueak_unbounded N peer _ peers]
  refine (yields_downloadSqueak listeners hp squeakHash).bind (fun _ w₁ _ h => ?_) fun e w₁ _ h => ?_
  · rcases h with h | ⟨-, h⟩
    · exact .of_forall (fun x w hm => .inl (h.later hm.2.1)) _
    · have hhave := h (List.mem_singleton.2 rfl)
      have hall : ∀ h ∈ [squeakHash], Arrived start w₁.1 h ∧ (kept → HasSqueak h w₁.2.db) := by
        intro h hmem
        rw [List.mem_singleton.1 hmem]
        exact hhave
      by_cases hgiven : kept ∧ Generous N peer gives
      · obtain ⟨hkept, hg⟩ := hgiven
        refine (yields_downloadSecretKey hK hD hH listeners hkept hg squeakHash).mono fun x w hm h =>
          .inr fun squeakHash' hmem => ?_
        rw [List.mem_singleton.1 hmem]
        refine ⟨hhave.1.later hm.2.1, fun _ => ⟨(hm.2.2 hkept).squeak _ (hhave.2 hkept), fun _ hgives => ?_⟩⟩
        exact h.2 hgives (hhave.2 hkept)
      · exact .of_forall (fun x w hm => (Delivered.of_squeaks hgiven hall).moved hm) _
  · rcases h with h | ⟨hok, -⟩
    · exact .inl h
    · cases hok

end Thread

end Protocol

/-! ## What the threads insert -/

section Permitted

variable {mayInsert : SqueakRow → Prop} {N : Node L ρ}

theorem permitted_saveSqueak {squeak : L.CSqueak} (hrow : L.checkSqueak squeak = .ok () →
    ∀ now header, mayInsert (squeakRow L now (getHash L squeak) squeak header)) :
    (saveSqueak N squeak).Within (Permitted mayInsert) := by
  refine within_saving N squeak (fun _ _ _ _ ho row n m hmem => absurd hmem (ho row n m)) ?_
  intro hcheck w now header row n m hmem
  unfold insertedObs at hmem
  split at hmem
  · cases hmem
  · cases List.mem_singleton.1 hmem
    exact hrow hcheck now header

theorem permitted_sameStore {β : Type} (stmt : World ρ → β × World ρ) (_ : ∀ w, SameStore w (stmt w).2) :
    (Prog.atomic stmt : NodeM ρ β).Within (Permitted mayInsert) :=
  Prog.within_atomic fun _ _ _ _ hmem => by cases hmem

theorem permitted_notify {β : Type} (f : ρ → Except Err β × ρ) :
    (notify f : NodeM ρ β).Within (Permitted mayInsert) :=
  within_notify fun _ _ h row n m hmem => absurd hmem (h row n m)

variable (listeners : Listeners L ρ)

theorem permitted_notifyingSaveSecretKey (squeakHash secretKey : Bytes) :
    (NotifyingStore.saveSecretKey listeners squeakHash secretKey).Within (Permitted mayInsert) := by
  have hquiet : ∀ w w', Permitted mayInsert (w : World ρ) [] w' := fun _ _ _ _ _ hmem => by cases hmem
  exact within_saveSecretKeyWith (fun w => hquiet w w)
    (closed_handleNewItem (Prog.closed_within _) permitted_sameStore permitted_notify _) (fun w _ _ => hquiet w _)
    (fun w _ _ => hquiet w _) _ _

theorem permitted_notifyingSaveSqueak {squeak : L.CSqueak} (hrow : L.checkSqueak squeak = .ok () →
    ∀ now header, mayInsert (squeakRow L now (getHash L squeak) squeak header)) :
    (NotifyingStore.saveSqueak N listeners squeak).Within (Permitted mayInsert) := by
  refine Prog.within_bind (permitted_saveSqueak hrow) fun inserted => ?_
  cases inserted with
  | none => trivial
  | some insertedSqueakHash =>
    exact Prog.within_bind (closed_handleNewItem (Prog.closed_within _) permitted_sameStore permitted_notify _ _)
      fun _ => trivial

theorem permitted_downloadInterestRange (N : Node L ρ) (q : Timeline L) (peer : SqueakPeer) :
    (PeerDownloader.downloadInterestRangeWith N peer (NotifyingStore.saveSqueak N listeners)
      (NotifyingStore.saveSecretKey listeners) (NotifyingStore.handleOffer N listeners) q.minBlock q.maxBlock
      q.pubkeys).Within (Permitted q.Inserts) := by
  have hC := Prog.closed_within (ε := Err) (Permitted (ρ := ρ) q.Inserts)
  refine closed_downloadInterestRange hC permitted_sameStore peer (fun _ squeak hwants => ?_)
    (permitted_notifyingSaveSecretKey listeners) (closed_notifyingHandleOffer hC permitted_sameStore permitted_notify)
  exact permitted_notifyingSaveSqueak listeners fun hcheck now header =>
    ⟨squeak, now, header, rfl, hcheck, (wants_iff.1 hwants).2⟩

theorem permitted_downloadSingleSqueak (N : Node L ρ) (peers : List SqueakPeer) (peer : SqueakPeer)
    (squeakHash : Bytes) : (PeerDownloader.downloadSingleSqueakWith N peer (NotifyingStore.saveSqueak N listeners)
      (NotifyingStore.saveSecretKey listeners) (NotifyingStore.handleOffer N listeners) squeakHash).Within
        (Permitted fun row => row.hash = squeakHash ∧ (Timeline.unbounded L peers).Inserts row) := by
  have hC := Prog.closed_within (ε := Err) (Permitted (ρ := ρ) fun row => row.hash = squeakHash ∧
    (Timeline.unbounded L peers).Inserts row)
  refine hC.bind ?_ fun _ => closed_downloadSecretKey hC permitted_sameStore
    (permitted_notifyingSaveSecretKey listeners) (closed_notifyingHandleOffer hC permitted_sameStore permitted_notify)
    peer squeakHash
  rw [downloadSqueak_unbounded N peer _ peers]
  refine closed_downloadSqueak hC permitted_sameStore peer fun squeak hwants => ?_
  obtain ⟨hhash, hasks⟩ := wants_iff.1 hwants
  exact permitted_notifyingSaveSqueak listeners fun hcheck now header =>
    ⟨hhash, squeak, now, header, rfl, hcheck, hasks⟩

end Permitted

end Squeaknode
