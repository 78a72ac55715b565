/-
A download of the timeline asks all peers at once, each in a thread of its own, while everything else that the
node does goes on. Whatever the other peers answer, or if they never do: as soon as the thread of a reliable peer
has ended, the squeaks that the peer has for the node have arrived, and so have the keys that it gives away,
unless that thread found the limits of the store reached, or a notification of the listeners raised in it; and no
thread inserts a squeak that was not asked for (`timeline_downloaded`).
-/
import Squeaknode.Client.ReliablePeer

namespace Squeaknode

open Interleave Relational SqueakDb SqueakStore NetworkController

variable {L : Squeaklib} {ρ : Type}

/-! ## Threads of a download beside other operations -/

section Run

variable {N : Node L ρ} {listeners : Listeners L ρ} {M : Ledger ρ} {address : PeerAddress} {downloads : List (NodeM ρ Unit)}
  {inserts : SqueakRow → Prop} {ops : List (TradeOp L)} {w₀ : World ρ}

/-- The protocol of the first `n` threads, which insert only such rows, and of the operations beside them: squeaks
are kept if none of these deletes any. -/
abbrev besides (n : Nat) (inserts : SqueakRow → Prop) (ops : List (TradeOp L)) (w₀ : World ρ) :
    Protocol (World ρ) Obs :=
  downloading L ρ w₀.db.squeaks (∀ op ∈ ops, op.KeepsSqueaks) fun t row => t < n → inserts row

theorem besides_ignores {n : Nat} : (besides n inserts ops w₀).Ignores SameSqueaks := by
  rintro v w ⟨hlibrary, harrived, hinserts⟩ hsame
  have hsqueaks : w.db.squeaks = v.2.db.squeaks := hsame
  refine ⟨⟨?_, fun r hr => ?_, hinserts⟩, trivial, List.prefix_refl _, fun _ => .of_same hsqueaks⟩
  · show Library L w.db.squeaks
    rw [hsqueaks]
    exact hlibrary
  · exact harrived r (hsqueaks ▸ hr)

/-- The threads are downloads, and what they insert is permitted. -/
def Downloads (N : Node L ρ) (listeners : Listeners L ρ) (M : Ledger ρ) (address : PeerAddress)
    (inserts : SqueakRow → Prop) (downloads : List (NodeM ρ Unit)) : Prop :=
  ∀ p ∈ downloads, p.Within (Permitted inserts) ∧
    ∃ op : TradeOp L, op.KeepsSqueaks ∧ p = op.notifying N listeners M address

theorem allSafe_besides (hC : L.CodecLaws) (hK : L.KeyLaws) (hD : L.DecryptLaws) (hH : L.HeaderLaws)
    (hstart : Library L w₀.db.squeaks)
    (hdown : Downloads N listeners M address inserts downloads) {Q : Nat → Except Err Unit → View (World ρ) Obs → Prop}
    (hyields : ∀ t (p : NodeM ρ Unit) v, downloads[t]? = some p →
      p.Yields (besides downloads.length inserts ops w₀) t (Q t) v)
    (hops : ∀ t x v, downloads.length ≤ t → Q t x v) :
    (Pool.start w₀ (downloads ++ ops.map (TradeOp.notifying N listeners M address))).AllSafe
      (besides downloads.length inserts ops w₀) Q := by
  refine ⟨⟨hstart, fun r hr => .inl ⟨r, hr, rfl⟩, fun t row n m h => by cases h⟩, fun t p hp => ?_⟩
  change (downloads ++ ops.map (TradeOp.notifying N listeners M address))[t]? = some p at hp
  by_cases ht : t < downloads.length
  · rw [List.getElem?_append_left ht] at hp
    obtain ⟨hpermitted, op, hkeeps, rfl⟩ := hdown p (List.mem_of_getElem? hp)
    have hbrings : (op.notifying N listeners M address).Within (Brings (∀ op ∈ ops, op.KeepsSqueaks)) :=
      brings_tradeOp fun _ => hkeeps
    refine (sure_downloading (sure_notifying hC hK hD hH N listeners M address op) hbrings ?_).safe (hyields t _ _ hp)
    exact hpermitted.mono fun _ _ _ h row n m hmem _ => h row n m hmem
  · rw [List.getElem?_append_right (by omega), List.getElem?_map] at hp
    obtain ⟨op, hop, rfl⟩ := Option.map_eq_some_iff.1 hp
    have hbrings : (op.notifying N listeners M address).Within (Brings (∀ op ∈ ops, op.KeepsSqueaks)) :=
      brings_tradeOp fun hkept => hkept op (List.mem_of_getElem? hop)
    refine (sure_downloading (sure_notifying hC hK hD hH N listeners M address op) hbrings ?_).safe
      (.of_forall (fun x w _ => ?_) _)
    · exact hbrings.mono fun _ _ _ _ row n m _ hlt => absurd hlt ht
    · exact hops t x w (by omega)

variable {history : List (Pool (World ρ) Obs Err)} {P : Pool (World ρ) Obs Err}

/-- What a thread brings about by its end holds from then on, if all moves keep it. -/
theorem ended_besides (hC : L.CodecLaws) (hK : L.KeyLaws) (hD : L.DecryptLaws) (hH : L.HeaderLaws)
    (hstart : Library L w₀.db.squeaks)
    (hdown : Downloads N listeners M address inserts downloads)
    (hr : Pool.Run SameSqueaks (.start w₀ (downloads ++ ops.map (TradeOp.notifying N listeners M address))) history P)
    {D : View (World ρ) Obs → Prop} (hmoved : ∀ v w, (besides downloads.length inserts ops w₀).moves v w → D v → D w)
    {t : Nat} {p : NodeM ρ Unit} (hp : downloads[t]? = some p)
    (hyields : ∀ v, p.Yields (besides downloads.length inserts ops w₀) t (fun _ => D) v) {x : Except Err Unit}
    (hended : P.threads[t]? = some (Prog.ofExcept x)) : D P.view := by
  have hsafe : (Pool.start w₀ (downloads ++ ops.map (TradeOp.notifying N listeners M address))).AllSafe
      (besides downloads.length inserts ops w₀) fun t' _ v => t' = t → D v := by
    refine allSafe_besides hC hK hD hH hstart hdown (fun t' p' v hp' => ?_) ?_
    · by_cases heq : t' = t
      · subst heq
        obtain rfl : p' = p := Option.some.inj (hp'.symm.trans hp)
        exact (hyields v).mono fun _ _ _ h _ => h
      · exact .of_forall (fun _ _ _ h => absurd h heq) _
    · rintro t' x v hle rfl
      rw [List.getElem?_eq_none hle] at hp
      cases hp
  have hkept : ∀ t' (x : Except Err Unit) v w, (besides downloads.length inserts ops w₀).moves v w →
      (t' = t → D v) → t' = t → D w := fun _ _ v w hm h heq => hmoved v w hm (h heq)
  exact (hr.allSafe besides_ignores hkept hsafe).1.outcome hended rfl

/-- The rows stay readable, and no thread inserts what it may not. -/
theorem inserted_besides (hC : L.CodecLaws) (hK : L.KeyLaws) (hD : L.DecryptLaws) (hH : L.HeaderLaws)
    (hstart : Library L w₀.db.squeaks)
    (hdown : Downloads N listeners M address inserts downloads)
    (hr : Pool.Run SameSqueaks (.start w₀ (downloads ++ ops.map (TradeOp.notifying N listeners M address))) history P) :
    Library L P.shared.db.squeaks ∧
    ∀ t < downloads.length, ∀ row n m, (t, Obs.inserted row n m) ∈ P.trace → inserts row := by
  have hsafe : (Pool.start w₀ (downloads ++ ops.map (TradeOp.notifying N listeners M address))).AllSafe
      (besides downloads.length inserts ops w₀) fun _ _ _ => True :=
    allSafe_besides hC hK hD hH hstart hdown (fun _ _ _ _ => .of_forall (fun _ _ _ => trivial) _) fun _ _ _ _ => trivial
  obtain ⟨hlibrary, -, hinserts⟩ := (hr.allSafe besides_ignores (fun _ _ _ _ _ _ => trivial) hsafe).1.inv
  exact ⟨hlibrary, fun t ht row n m hmem => hinserts t row n m hmem ht⟩

end Run

/-! ## Both downloads -/

section Both

variable {N : Node L ρ} {history : List (Pool (World ρ) Obs Err)} {P : Pool (World ρ) Obs Err}

theorem downloads_timeline (N : Node L ρ) (listeners : Listeners L ρ) (M : Ledger ρ) (address : PeerAddress)
    (q : Timeline L) : Downloads N listeners M address q.Inserts (q.downloads N listeners) := by
  intro p hp
  obtain ⟨peer, -, rfl⟩ := List.mem_map.1 hp
  refine ⟨permitted_downloadInterestRange listeners N q peer, ?_⟩
  exact ⟨.downloadInterestRange peer q.minBlock q.maxBlock q.pubkeys, trivial, rfl⟩

theorem downloads_singleSqueak (N : Node L ρ) (listeners : Listeners L ρ) (M : Ledger ρ) (address : PeerAddress)
    (peers : List SqueakPeer) (squeakHash : Bytes) : Downloads N listeners M address (fun row =>
      row.hash = squeakHash ∧ (Timeline.unbounded L peers).Inserts row)
      (NetworkController.downloadSingleSqueak N listeners peers squeakHash) := by
  intro p hp
  obtain ⟨peer, -, rfl⟩ := List.mem_map.1 hp
  exact ⟨permitted_downloadSingleSqueak listeners N peers peer squeakHash, .downloadSingleSqueak peer squeakHash,
    trivial, rfl⟩

/-- In every run of a download of one squeak beside any other operations of the node: once the thread that asks a
peer that sends the squeak has ended, it has arrived, and no other squeak is inserted. -/
theorem singleSqueak_downloaded (hC : L.CodecLaws) (hK : L.KeyLaws) (hD : L.DecryptLaws) (hH : L.HeaderLaws)
    (N : Node L ρ) (listeners : Listeners L ρ) (M : Ledger ρ) (address : PeerAddress) (peers : List SqueakPeer)
    (squeakHash : Bytes) (ops : List (TradeOp L)) {w₀ : World ρ}
    (hstart : Library L w₀.db.squeaks) (hr : Pool.Run SameSqueaks (.start w₀
      (NetworkController.downloadSingleSqueak N listeners peers squeakHash ++
        ops.map (TradeOp.notifying N listeners M address))) history P) :
    (∀ t peer gives x, peers[t]? = some peer → Sends N (.unbounded L peers) peer [squeakHash] →
      P.threads[t]? = some (Prog.ofExcept x) → Delivered N (.unbounded L peers) w₀.db.squeaks
        (∀ op ∈ ops, op.KeepsSqueaks) t peer [squeakHash] gives P.view) ∧
    Library L P.shared.db.squeaks ∧
    ∀ t < peers.length, ∀ row n m, (t, Obs.inserted row n m) ∈ P.trace →
      row.hash = squeakHash ∧ (Timeline.unbounded L peers).Inserts row := by
  have hdown := downloads_singleSqueak N listeners M address peers squeakHash
  refine ⟨fun t peer gives x hpeer hp hended => ?_, ?_⟩
  · have hthread : (NetworkController.downloadSingleSqueak N listeners peers squeakHash)[t]? =
        some (PeerDownloader.downloadSingleSqueakWith N peer (NotifyingStore.saveSqueak N listeners)
          (NotifyingStore.saveSecretKey listeners) (NotifyingStore.handleOffer N listeners) squeakHash) := by
      rw [NetworkController.downloadSingleSqueak, List.getElem?_map, hpeer]
      rfl
    exact ended_besides hC hK hD hH hstart hdown hr (fun _ _ hm h => h.moved hm) hthread
      (yields_downloadSingleSqueak hK hD hH listeners hp gives) hended
  · obtain ⟨hlibrary, hinserts⟩ := inserted_besides hC hK hD hH hstart hdown hr
    refine ⟨hlibrary, fun t ht => hinserts t ?_⟩
    rw [NetworkController.downloadSingleSqueak, List.length_map]
    exact ht

/-- In every run of a download of the timeline beside any other operations of the node, whatever the peers and
the world around do: once the thread that asks a reliable peer has ended, what the peer has for the node has
arrived, and unless an operation deletes squeaks it is there, with the keys that the peer gives away; or that
thread found the store full, or a notification raised in it. Every thread inserts only checked squeaks that were
asked for. -/
theorem timeline_downloaded (hC : L.CodecLaws) (hK : L.KeyLaws) (hD : L.DecryptLaws) (hH : L.HeaderLaws)
    (N : Node L ρ) (listeners : Listeners L ρ) (M : Ledger ρ) (address : PeerAddress) (q : Timeline L)
    (ops : List (TradeOp L)) {w₀ : World ρ} (hstart : Library L w₀.db.squeaks)
    (hr : Pool.Run SameSqueaks
    (.start w₀ (q.downloads N listeners ++ ops.map (TradeOp.notifying N listeners M address))) history P) :
    (∀ t peer has gives x, q.peers[t]? = some peer → Reliable N q peer has → P.threads[t]? = some (Prog.ofExcept x) →
      Delivered N q w₀.db.squeaks (∀ op ∈ ops, op.KeepsSqueaks) t peer has gives P.view) ∧
    Library L P.shared.db.squeaks ∧
    ∀ t < q.peers.length, ∀ row n m, (t, Obs.inserted row n m) ∈ P.trace → q.Inserts row := by
  have hdown := downloads_timeline N listeners M address q
  refine ⟨fun t peer has gives x hpeer hp hended => ?_, ?_⟩
  · have hthread : (q.downloads N listeners)[t]? =
        some (PeerDownloader.downloadInterestRangeWith N peer (NotifyingStore.saveSqueak N listeners)
          (NotifyingStore.saveSecretKey listeners) (NotifyingStore.handleOffer N listeners) q.minBlock q.maxBlock
          q.pubkeys) := by
      rw [Timeline.downloads, List.getElem?_map, hpeer]
      rfl
    exact ended_besides hC hK hD hH hstart hdown hr (fun _ _ hm h => h.moved hm) hthread
      (yields_downloadInterestRange hK hD hH listeners hp gives) hended
  · obtain ⟨hlibrary, hinserts⟩ := inserted_besides hC hK hD hH hstart hdown hr
    refine ⟨hlibrary, fun t ht => hinserts t ?_⟩
    rw [Timeline.downloads, List.length_map]
    exact ht

end Both

namespace Sample

/-- A server that asks nothing for its keys. -/
def giver : Node squeaklib Outside := { node 1 with priceMsat := 0 }

/-- Its world: one squeak with its key. -/
def giving : World Outside := owner (scalarToBytes 5) "x"

/-- A client with room for one squeak, to which the server gives its squeak and its key, and everybody else a byte of
nonsense. -/
def downloader : Node squeaklib (World Outside) :=
  { syncing with maxSqueaks := 1, requestsGet := fun address request w =>
      (if address = sellerAddress then ((App.serve giver (fun _ => []) "buyer" request).run giving).1
        else .ok ⟨200, [0]⟩, w) }

/-- The peer that runs the server. -/
def giverPeer : SqueakPeer := ⟨none, "seller", sellerAddress, true, false⟩

/-- The authors 1 and 2 at the heights 1 to 10, from a liar and from the server. -/
def followed : Timeline squeaklib := ⟨1, 10, authors, [⟨none, "liar", ⟨.IPV4, "liar", 8555⟩, true, false⟩, giverPeer]⟩

/-- A ledger of a world without other nodes. -/
def nobody : Ledger (World Outside) := ⟨fun _ _ _ => False, fun _ _ _ _ => False, fun _ _ _ o => o⟩

theorem answersFor_giver : AnswersFor giver downloader giverPeer (fun _ => []) "buyer" fun _ => giving := by
  intro request w
  show (if sellerAddress = sellerAddress then ((App.serve giver (fun _ => []) "buyer" request).run giving).1
    else .ok ⟨200, [0]⟩) = _
  exact if_pos rfl

theorem stocked : Stocked downloader followed (fun _ => giving) [squeak.val.reverse] where
  rows o r hr := by
    rw [List.mem_singleton.1 hr]
    exact ⟨squeak, rowOf_unlockedRow, fun _ => ⟨_, rfl⟩⟩
  heights o r hr := by
    rw [List.mem_singleton.1 hr]
    exact ⟨by decide, by decide⟩
  has o h hmem := by
    rw [List.mem_singleton.1 hmem]
    exact ⟨unlockedRow (scalarToBytes 5) "x", by decide, rfl⟩

theorem opening : Opening squeaklib squeak.val.reverse (scalarToBytes 5) := by
  have hsame : ∀ s : squeaklib.CSqueak, getHash squeaklib s = squeak.val.reverse → s = squeak :=
    fun s h => Subtype.ext (List.reverse_injective h)
  constructor
  · intro s h
    rw [hsame s h]
    decide
  · intro s _ h _
    rw [hsame s h]
    exact ⟨"x", by decide⟩

theorem unpriced : Unpriced giver (fun _ : World Outside => giving) [squeak.val.reverse] where
  price _ := by decide
  keys o h hmem := by
    rw [List.mem_singleton.1 hmem]
    exact ⟨scalarToBytes 5, by decide, by decide⟩
  opens o h k hk := by
    obtain ⟨r, hr, hkey⟩ := Option.bind_eq_some_iff.1 hk
    obtain ⟨hmem, rfl⟩ := findSqueak_some hr
    rw [List.mem_singleton.1 hmem] at hkey ⊢
    cases hkey
    exact opening

theorem reliable_giver : Reliable downloader followed giverPeer [squeak.val.reverse] :=
  answersFor_giver.reliable codecLaws headerLaws jsonText_laws rfl ⟨readsNumbers, by decide⟩ getHash_ne_nil
    authors_ne_nil stocked

theorem generous_giver : Generous downloader giverPeer [squeak.val.reverse] :=
  answersFor_giver.generous (by decide) unpriced

/-- The client likes a squeak that it does not have yet. -/
def likes : List (TradeOp squeaklib) := [.store (.likeSqueak squeak.val.reverse)]

/-- One subscriber to the new squeaks. -/
def audience : Listeners squeaklib (World Outside) where
  newSqueakListener := ⟨fun _ => [some fun _ o => (.ok (), o)]⟩
  newSecretKeyListener := ⟨fun _ => []⟩
  newReceivedOfferListener := ⟨fun _ => []⟩

/-- The pool of the two downloads and the likes. -/
def beginning : Pool (World (World Outside)) Obs Err :=
  .start ⟨.empty, giving⟩
    (followed.downloads downloader audience ++ likes.map (TradeOp.notifying downloader audience nobody sellerAddress))

/-- The pool after its threads have taken turns. -/
def final : Pool (World (World Outside)) Obs Err := beginning.exec (2 :: (List.replicate 24 [0, 1, 2]).flatten)

/-- A count is below the limits of the client, which are 1, and no notification raises. -/
def leavesRoom : Obs → Bool
  | .countedSqueaks num => num < 1
  | .countedPublicKeyBlock _ _ num => num < 1
  | .notificationRaised => false
  | _ => true

theorem not_halted {trace : List (Nat × Obs)} (h : (trace.all fun e => leavesRoom e.2) = true) (t : Nat) :
    ¬ Halted downloader followed t trace := by
  rintro ((⟨num, hmem, hle⟩ | ⟨s, num, -, hle, hmem⟩) | hraised)
  · have hlt : num < 1 := by simpa only [leavesRoom, decide_eq_true_eq] using List.all_eq_true.1 h _ hmem
    have hle : (1 : Int) ≤ num := hle
    omega
  · have hlt : num < 1 := by simpa only [leavesRoom, decide_eq_true_eq] using List.all_eq_true.1 h _ hmem
    have hle : (1 : Int) ≤ num := hle
    omega
  · cases (List.all_eq_true.1 h _ hraised : leavesRoom .notificationRaised = true)

end Sample

/-- The squeak and the key of the server arrive beside a liar. -/
theorem timeline_downloaded_sample : ∃ history, Pool.Run SameSqueaks Sample.beginning history Sample.final ∧
    HasSqueak Sample.squeak.val.reverse Sample.final.shared.db ∧
    HasKey Sample.squeak.val.reverse Sample.final.shared.db := by
  obtain ⟨history, hr⟩ : ∃ history, Pool.Run SameSqueaks Sample.beginning history Sample.final := Pool.Run.exec _ .init
  refine ⟨history, hr, ?_⟩
  unfold Pool.shared
  have hended : Sample.final.threads.all Prog.ended = true := by decide +kernel
  have hthreads : 1 < Sample.final.threads.length := by decide +kernel
  have hp := List.getElem?_eq_getElem hthreads
  obtain ⟨x, hx⟩ := Pool.done_of_ended hended _ (List.getElem_mem hthreads)
  rw [hx] at hp
  obtain ⟨hdelivered, -, -⟩ := timeline_downloaded Sample.codecLaws Sample.keyLaws Sample.decryptLaws
    Sample.headerLaws Sample.downloader Sample.audience Sample.nobody Sample.sellerAddress Sample.followed
      Sample.likes (fun r hr => by cases hr) hr
  have hroom : (Sample.final.view.1.all fun e => Sample.leavesRoom e.2) = true := by decide +kernel
  rcases hdelivered 1 Sample.giverPeer _ [Sample.squeak.val.reverse] x rfl Sample.reliable_giver hp with h | h
  · exact absurd h (Sample.not_halted hroom 1)
  · have hkeeps : ∀ op ∈ Sample.likes, op.KeepsSqueaks := fun op hop => by rw [List.mem_singleton.1 hop]; trivial
    obtain ⟨hsqueak, hkey⟩ := (h _ (List.mem_singleton.2 rfl)).2 hkeeps
    exact ⟨hsqueak, hkey Sample.generous_giver (List.mem_singleton.2 rfl)⟩

end Squeaknode
