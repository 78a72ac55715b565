/-
What a sync takes from a peer that answers anything. A squeak that is added was looked up, passes
its checks and lies within the guards of `download_squeak`; but a guard is skipped where its bound is
0 or its list of public keys is empty, so that the sync is sound for some intervals and lists only
(`sync_sound_iff`).
-/
import Squeaknode.Client.PeerRuns
import Squeaknode.Node.Sample

namespace Squeaknode

open Interleave Relational SqueakDb

variable {L : Squeaklib} {ρ : Type}

/-! ## Rows before and after -/

/-- The row has no secret key; an empty one counts as none. -/
def Keyless (r : SqueakRow) : Prop := ∀ k, r.secretKey = some k → k = []

/-- The row as it was, or with a valid secret key that it lacked and what saving the key decrypts. -/
inductive Gains (L : Squeaklib) (r : SqueakRow) : SqueakRow → Prop
  | same : Gains L r r
  | key {squeak : L.CSqueak} {secretKey : Bytes} : Keyless r → L.deserialize r.squeak = .ok squeak →
      L.checkSqueakSecretKey squeak secretKey = .ok () → secretKey ≠ [] →
      Gains L r (rowWithKey L secretKey squeak r)

theorem Gains.trans {r r' r'' : SqueakRow} (h : Gains L r r') (h' : Gains L r' r'') : Gains L r r'' := by
  cases h' with
  | same => exact h
  | key hless hs hc hne =>
    cases h with
    | same => exact .key hless hs hc hne
    | key _ _ _ hne₁ => exact absurd (hless _ rfl) hne₁

theorem Gains.squeak {r r' : SqueakRow} (h : Gains L r r') : r'.squeak = r.squeak := by
  cases h <;> rfl

/-- Every row was there before or is one of a squeak with `P`; every row that was there is kept.
Neither lost anything. -/
structure Synced (L : Squeaklib) (P : L.CSqueak → BlockHeader → Prop) (db db' : Db) : Prop where
  unique : UniqueOn SqueakRow.hash db'.squeaks
  added : ∀ r' ∈ db'.squeaks, (∃ r ∈ db.squeaks, Gains L r r') ∨
    ∃ squeak now header, P squeak header ∧ Gains L (squeakRow L now (getHash L squeak) squeak header) r'
  kept : ∀ r ∈ db.squeaks, ∃ r' ∈ db'.squeaks, Gains L r r'

section Synced

variable {P : L.CSqueak → BlockHeader → Prop}

/-- The relation between the worlds before and after a part of the sync. -/
def Syncs (L : Squeaklib) (P : L.CSqueak → BlockHeader → Prop) (w w' : World ρ) : Prop :=
  UniqueOn SqueakRow.hash w.db.squeaks → Synced L P w.db w'.db

theorem Syncs.of_squeaks {w w' : World ρ} (h : w'.db.squeaks = w.db.squeaks) : Syncs L P w w' := by
  intro hu
  constructor
  · rw [h]; exact hu
  · intro r hr
    rw [h] at hr
    exact .inl ⟨r, hr, .same⟩
  · intro r hr
    rw [← h] at hr
    exact ⟨r, hr, .same⟩

theorem Syncs.refl (w : World ρ) : Syncs L P w w := .of_squeaks rfl

theorem Syncs.trans {w w' w'' : World ρ} (h : Syncs L P w w') (h' : Syncs L P w' w'') : Syncs L P w w'' := by
  intro hu
  have h₁ := h hu
  have h₂ := h' h₁.unique
  refine ⟨h₂.unique, fun r'' hr'' => ?_, fun r hr => ?_⟩
  · rcases h₂.added r'' hr'' with ⟨r', hr', hg⟩ | hadded
    · rcases h₁.added r' hr' with ⟨r, hr, hg'⟩ | ⟨squeak, now, header, hP, hg'⟩
      · exact .inl ⟨r, hr, hg'.trans hg⟩
      · exact .inr ⟨squeak, now, header, hP, hg'.trans hg⟩
    · exact .inr hadded
  · obtain ⟨r', hr', hg⟩ := h₁.kept r hr
    obtain ⟨r'', hr'', hg'⟩ := h₂.kept r' hr'
    exact ⟨r'', hr'', hg.trans hg'⟩

/-- Inserting the row of a squeak with `P`. -/
theorem Syncs.insertSqueak {squeak : L.CSqueak} {header : BlockHeader} (hP : P squeak header) (now : Int)
    (w : World ρ) (env : ρ) :
    Syncs L P w ⟨(SqueakDb.insertSqueak (squeakRow L now (getHash L squeak) squeak header) w.db).2, env⟩ := by
  rcases ht : taken SqueakRow.hash (squeakRow L now (getHash L squeak) squeak header).hash w.db.squeaks with _ | _
  · rw [insertSqueak_of_free _ ht]
    intro hu
    refine ⟨?_, fun r' hr' => ?_, fun r hr => ⟨r, List.mem_append_left _ hr, .same⟩⟩
    · have hu' := uniqueOn_insertUnique (squeakRow L now (getHash L squeak) squeak header) hu
      rwa [insertUnique_of_free ht] at hu'
    · rcases List.mem_append.1 hr' with hr' | hr'
      · exact .inl ⟨r', hr', .same⟩
      · rw [List.mem_singleton.1 hr']
        exact .inr ⟨squeak, now, header, hP, .same⟩
  · rw [insertSqueak_of_taken ht]
    exact .of_squeaks rfl

/-- Saving a valid key of a squeak without one. -/
theorem Syncs.withKey {squeakHash secretKey : Bytes} {r : SqueakRow} {squeak : L.CSqueak} {w : World ρ}
    (hr : findSqueak squeakHash w.db = some r) (hs : L.deserialize r.squeak = .ok squeak) (hless : Keyless r)
    (hc : L.checkSqueakSecretKey squeak secretKey = .ok ()) (hne : secretKey ≠ []) :
    Syncs L P w { w with db := withKey L squeakHash secretKey squeak w.db } := by
  intro hu
  have hrows := withKey_squeaks squeakHash secretKey squeak w.db
  -- the hash is the primary key, so the rows that are updated are the row that was found
  have hgain : ∀ s ∈ w.db.squeaks, Gains L s (if s.hash == squeakHash then rowWithKey L secretKey squeak s else s) := by
    intro s hsrow
    by_cases heq : s.hash = squeakHash
    · obtain ⟨hrmem, hrhash⟩ := findSqueak_some hr
      obtain rfl : s = r := hu.eq hsrow hrmem (heq.trans hrhash.symm)
      simpa [heq] using Gains.key hless hs hc hne
    · simpa [heq] using Gains.same
  constructor
  · rw [hrows]
    exact uniqueOn_updateWhere (fun _ => rfl) hu
  · intro r' hr'
    rw [hrows] at hr'
    obtain ⟨s, hsrow, rfl⟩ := mem_updateWhere.1 hr'
    exact .inl ⟨s, hsrow, hgain s hsrow⟩
  · intro s hsrow
    refine ⟨_, ?_, hgain s hsrow⟩
    rw [hrows]
    exact mem_updateWhere.2 ⟨s, hsrow, rfl⟩

/-! ## The two downloads -/

variable (N : Node L ρ) (peer : SqueakPeer)

/-- A squeak that the download adds is wanted and passed the checks of the save. -/
theorem syncs_downloadSqueak {squeakHash : Bytes} {minBlock maxBlock : Option Int} {pubkeys : Option (List L.PublicKey)}
    (hP : ∀ squeak header env, PeerDownloader.wanted squeakHash minBlock maxBlock pubkeys squeak = true →
      L.checkSqueak squeak = .ok () → headerOf N squeak env = .ok header → P squeak header) :
    (PeerDownloader.downloadSqueak N peer squeakHash minBlock maxBlock pubkeys).Leads (Syncs L P) := by
  intro w
  rw [run_downloadSqueak]
  rcases squeakOfRow L (findSqueak squeakHash w.db) with e | _ | squeak
  · exact .refl w
  · simp only
    rcases gotSqueak L (N.requestsGet peer.address (.squeak (hex squeakHash)) w.env).1 with e | _ | squeak
    · exact .of_squeaks rfl
    · exact .of_squeaks rfl
    · simp only
      split
      · rename_i hwanted
        by_cases hvalid : L.checkSqueak squeak = .ok () ∧
          (∃ header, headerOf N squeak (afterRequest N peer (.squeak (hex squeakHash)) w).env = .ok header) ∧
          HasRoom N squeak (afterRequest N peer (.squeak (hex squeakHash)) w).db
        · obtain ⟨hc, ⟨header, hh⟩, hroom⟩ := hvalid
          rw [run_saveSqueak_valid hc hh hroom]
          exact .insertSqueak (hP squeak header _ hwanted hc hh) _ w _
        · obtain ⟨e, env, hrun⟩ := run_saveSqueak_invalid _ _ _ hvalid
          rw [hrun]
          exact .of_squeaks rfl
      · exact .of_squeaks rfl
  · exact .refl w

/-- Saving a key that is not empty to a squeak that lacked one. -/
theorem syncs_saveSecretKey {squeakHash secretKey : Bytes} {r : SqueakRow} {w : World ρ}
    (hr : findSqueak squeakHash w.db = some r) (hless : Keyless r) (hne : secretKey ≠ []) :
    Syncs L P w ((SqueakStore.saveSecretKey L squeakHash secretKey).run w).2 := by
  by_cases hvalid : ∃ squeak, L.deserialize r.squeak = .ok squeak ∧ L.checkSqueakSecretKey squeak secretKey = .ok ()
  · obtain ⟨squeak, hs, hc⟩ := hvalid
    rw [run_saveSecretKey_valid hr hs hc]
    exact .withKey hr hs hless hc hne
  · obtain ⟨e, hrun⟩ := run_saveSecretKey_invalid secretKey hr fun squeak hs hc => hvalid ⟨squeak, hs, hc⟩
    rw [hrun]
    exact .refl w

/-- An offer changes no squeak. -/
theorem syncs_handleOffer (squeak : L.CSqueak) (offer : Offer) (peerAddress : PeerAddress) (w : World ρ) :
    Syncs L P w ((SqueakStore.handleOffer N squeak offer peerAddress).run w).2 := by
  by_cases hok : getHash L squeak = offer.squeakHash ∧
      ∃ payReq, (N.lightningClient.decodePayReq offer.paymentRequest w.env).1 = .ok payReq
  · obtain ⟨hhash, payReq, hdecode⟩ := hok
    rw [run_handleOffer_decoded peerAddress hhash (Prod.ext hdecode rfl)]
    exact .of_squeaks (insertReceivedOffer_squeaks ..)
  · obtain ⟨e, env, hrun⟩ := run_handleOffer_error N squeak offer peerAddress w
      fun hhash payReq hdecode => hok ⟨hhash, payReq, hdecode⟩
    rw [hrun]
    exact .of_squeaks rfl

/-- The download of a key adds no squeak, and gives one a valid key that it lacked. -/
theorem syncs_downloadSecretKey (squeakHash : Bytes) :
    (PeerDownloader.downloadSecretKey N peer squeakHash).Leads (Syncs L P) := by
  intro w
  rw [run_downloadSecretKey]
  rcases hrow : findSqueak squeakHash w.db with _ | r
  · exact .refl w
  rcases hs : L.deserialize r.squeak with e | squeak
  · simp only [squeakOfRow, hs]
    exact .refl w
  simp only [squeakOfRow, hs, Functor.map, Except.map, Option.bind_some]
  by_cases hkey : r.secretKey.any (fun k => !k.isEmpty) = true
  · rw [if_pos hkey]
    exact .refl w
  rw [if_neg hkey]
  have hless : Keyless r := by
    intro k hk
    rw [hk] at hkey
    simpa using hkey
  rcases gotSecretKey (N.requestsGet peer.address (.secretKey (hex squeakHash)) w.env).1 with e | answer
  · exact .of_squeaks rfl
  simp only
  rcases hk : Option.filter (fun k => !List.isEmpty k) answer with _ | secretKey
  · simp only
    split
    · exact .of_squeaks rfl
    · rcases gotOffer N.json (N.requestsGet peer.address (.offer (hex squeakHash))
        (beforeOffer N peer squeakHash w).env).1 with e | _ | offer
      · exact .of_squeaks rfl
      · exact .of_squeaks rfl
      · exact (Syncs.of_squeaks rfl).trans (syncs_handleOffer N squeak offer peer.address
          (afterRequest N peer (.offer (hex squeakHash)) (beforeOffer N peer squeakHash w)))
  · have hne : secretKey ≠ [] := by
      have hsome := (Option.filter_eq_some_iff.1 hk).2
      simpa using hsome
    exact (Syncs.of_squeaks rfl).trans (syncs_saveSecretKey (w := afterRequest N peer _ w) hrow hless hne)

/-- The whole sync. -/
theorem syncs_downloadInterestRange {minBlock maxBlock : Int} {pubkeys : List L.PublicKey} {w : World ρ}
    (hP : ∀ hashes, ((PeerClient.lookup N peer minBlock maxBlock pubkeys).run w).1 = .ok hashes →
      ∀ squeakHash ∈ hashes, ∀ squeak header env,
      PeerDownloader.wanted squeakHash (some minBlock) (some maxBlock) (some pubkeys) squeak = true →
      L.checkSqueak squeak = .ok () → headerOf N squeak env = .ok header → P squeak header) :
    Syncs L P w ((PeerDownloader.downloadInterestRange N peer minBlock maxBlock pubkeys).run w).2 := by
  have htrans : ∀ a b c : World ρ, Syncs L P a b → Syncs L P b c → Syncs L P a c := fun _ _ _ => Syncs.trans
  have hlookup := run_clientLookup N peer w minBlock maxBlock pubkeys
  rw [PeerDownloader.downloadInterestRange_eq]
  rcases hgot : gotLookup N.json (N.requestsGet peer.address
    (.lookup (PeerClient.lookupArgs minBlock maxBlock pubkeys)) w.env).1 with e | hashes
  · rw [hgot] at hlookup
    rw [Prog.run_bind_of_error hlookup]
    exact .of_squeaks rfl
  · rw [hgot] at hlookup
    rw [Prog.run_bind_of_ok hlookup]
    refine (Syncs.of_squeaks rfl).trans (Prog.leads_bind htrans
      (Prog.leads_forM .refl htrans fun squeakHash hmem => ?_)
      (fun _ => Prog.leads_forM .refl htrans fun squeakHash _ => syncs_downloadSecretKey N peer squeakHash)
      (afterRequest N peer (.lookup (PeerClient.lookupArgs minBlock maxBlock pubkeys)) w))
    exact syncs_downloadSqueak N peer fun squeak header env =>
      hP hashes (by rw [hlookup]) squeakHash hmem squeak header env

end Synced

/-! ## Soundness -/

/-- The bitcoin client answers with the blocks of `chain`, which has none below height 0. -/
structure OnChain (N : Node L ρ) (chain : Int → Option BlockInfo) : Prop where
  answers : ∀ height env info, (N.bitcoinClient.getBlockInfoByHeight height env).1 = .ok info → chain height = some info
  height : ∀ height info, chain height = some info → 0 ≤ height

/-- The hashes that the peer returns, none when the lookup fails. -/
def lookedUp (N : Node L ρ) (peer : SqueakPeer) (minBlock maxBlock : Int) (pubkeys : List L.PublicKey) (w : World ρ) :
    List Bytes :=
  match ((PeerClient.lookup N peer minBlock maxBlock pubkeys).run w).1 with
  | .ok hashes => hashes
  | .error _ => []

/-- What a sync may add: a valid squeak of the interval and of one of the authors that was looked up. -/
structure Admissible (L : Squeaklib) (chain : Int → Option BlockInfo) (hashes : List Bytes) (minBlock maxBlock : Int)
    (pubkeys : List L.PublicKey) (squeak : L.CSqueak) (header : BlockHeader) : Prop where
  looked : getHash L squeak ∈ hashes
  checked : L.checkSqueak squeak = .ok ()
  block : ∃ info, chain (L.nBlockHeight squeak) = some info ∧ info.blockHash = L.hashBlock squeak ∧
    info.blockHeader = header
  author : L.getPubKey squeak ∈ pubkeys
  lower : minBlock ≤ L.nBlockHeight squeak
  upper : L.nBlockHeight squeak ≤ maxBlock

/-- Whatever a peer answers, a sync of this interval and these authors adds admissible squeaks only,
and no stored squeak loses anything. -/
def SyncSound (L : Squeaklib) (minBlock maxBlock : Int) (pubkeys : List L.PublicKey) : Prop :=
  ∀ (ρ : Type) (N : Node L ρ) (peer : SqueakPeer) (chain : Int → Option BlockInfo) (w : World ρ), OnChain N chain →
    UniqueOn SqueakRow.hash w.db.squeaks →
    Synced L (Admissible L chain (lookedUp N peer minBlock maxBlock pubkeys w) minBlock maxBlock pubkeys) w.db
      ((PeerDownloader.downloadInterestRange N peer minBlock maxBlock pubkeys).run w).2.db

theorem headerOf_eq_ok {N : Node L ρ} {squeak : L.CSqueak} {env : ρ} {header : BlockHeader}
    (h : headerOf N squeak env = .ok header) :
    ∃ info, (N.bitcoinClient.getBlockInfoByHeight (L.nBlockHeight squeak) env).1 = .ok info ∧
      info.blockHash = L.hashBlock squeak ∧ info.blockHeader = header := by
  unfold headerOf at h
  split at h
  · cases h
  · rename_i info hinfo
    split at h
    · cases h
    · rename_i hblock
      cases h
      exact ⟨info, hinfo, (not_not.1 hblock).symm, rfl⟩

/-- The guards that are in effect. -/
theorem wanted_iff {squeakHash : Bytes} {minBlock maxBlock : Int} {pubkeys : List L.PublicKey} {squeak : L.CSqueak} :
    PeerDownloader.wanted squeakHash (some minBlock) (some maxBlock) (some pubkeys) squeak = true ↔
      getHash L squeak = squeakHash ∧ (minBlock = 0 ∨ minBlock ≤ L.nBlockHeight squeak) ∧
        (maxBlock = 0 ∨ L.nBlockHeight squeak ≤ maxBlock) ∧ (pubkeys = [] ∨ L.getPubKey squeak ∈ pubkeys) := by
  simp [PeerDownloader.wanted, whenTruthy, and_assoc]

theorem syncSound_of {minBlock maxBlock : Int} {pubkeys : List L.PublicKey} (hne : maxBlock ≠ 0)
    (hkeys : pubkeys ≠ [] ∨ maxBlock < minBlock) : SyncSound L minBlock maxBlock pubkeys := by
  intro ρ N peer chain w hchain hu
  refine syncs_downloadInterestRange N peer
    (fun hashes hlookup squeakHash hmem squeak header env hwanted hc hh => ?_) hu
  obtain ⟨hhash, hlower, hupper, hauthor⟩ := wanted_iff.1 hwanted
  obtain ⟨info, hinfo, hblock, hheader⟩ := headerOf_eq_ok hh
  have hinfo' := hchain.answers _ _ _ hinfo
  have hheight := hchain.height _ _ hinfo'
  have hle : L.nBlockHeight squeak ≤ maxBlock := hupper.resolve_left hne
  have hge : minBlock ≤ L.nBlockHeight squeak := by
    rcases hlower with h | h
    · omega
    · exact h
  refine ⟨?_, hc, ⟨info, hinfo', hblock, hheader⟩, ?_, hge, hle⟩
  · unfold lookedUp
    rw [hlookup, hhash]
    exact hmem
  · rcases hkeys with hkeys | hempty
    · exact hauthor.resolve_left hkeys
    · omega

/-! ## A peer that sends what was not asked for -/

section Intruder

variable (L : Squeaklib) (J : JsonCodec) (squeak : L.CSqueak)

/-- A node whose peers send `squeak` for every lookup. -/
def intruded : Node L Unit where
  maxSqueaks := 1
  maxSqueaksPerPublicKeyPerBlock := 1
  squeakRetentionS := 0
  sentOfferRetentionS := 0
  priceMsat := 0
  lndExternalHost := ""
  lndPort := 0
  timestampNowMs _ := (0, ())
  generateTweak _ := ([], ())
  makeSqueakFromStr _ _ _ _ _ _ _ _ := (.error (.squeaklib ""), ())
  bitcoinClient :=
    ⟨fun height _ =>
        (if 0 ≤ height then .ok ⟨height, L.hashBlock squeak, ⟨0⟩⟩ else .error (.client "no such block"), ()),
      fun _ => (.error (.client "no such block"), ())⟩
  lightningClient := ⟨fun _ _ _ => (.error (.client ""), ()), fun _ _ => (.error (.client ""), ()),
    fun _ _ => (.error (.client ""), ()), fun _ => (.error (.client ""), ())⟩
  requestsGet _ request _ := (match request with
    | .lookup _ => .ok ⟨200, J.jsonify (App.lookupJson [getHash L squeak])⟩
    | .squeak _ => .ok ⟨200, L.serialize squeak⟩
    | _ => .ok ⟨404, []⟩, ())
  json := J
  sqlite := ⟨fun _ => none, 32766⟩

theorem onChain_intruded : OnChain (intruded L J squeak)
    fun height => if 0 ≤ height then some ⟨height, L.hashBlock squeak, ⟨0⟩⟩ else none where
  answers height _ info h := by
    simp only [intruded] at h
    split at h
    · rename_i hpos
      cases h
      exact if_pos hpos
    · cases h
  height height info h := by
    by_contra hneg
    rw [if_neg hneg] at h
    cases h

/-- The squeak is in the store after the sync, if the guards in effect let it pass. -/
theorem intruded_stores (hC : L.CodecLaws) (hJ : J.Laws) (peer : SqueakPeer) {minBlock maxBlock : Int}
    {pubkeys : List L.PublicKey} (hc : L.checkSqueak squeak = .ok ()) (hheight : 0 ≤ L.nBlockHeight squeak)
    (hwanted : PeerDownloader.wanted (getHash L squeak) (some minBlock) (some maxBlock) (some pubkeys) squeak = true) :
    ∃ r ∈ ((PeerDownloader.downloadInterestRange (intruded L J squeak) peer minBlock maxBlock pubkeys).run
      ⟨.empty, ()⟩).2.db.squeaks, r.squeak = L.serialize squeak := by
  have hlookup : (PeerClient.lookup (intruded L J squeak) peer minBlock maxBlock pubkeys).run ⟨.empty, ()⟩ =
      (.ok [getHash L squeak], ⟨.empty, ()⟩) := by
    rw [run_clientLookup]
    exact congrArg (·, _) (parseLookup_lookupJson hJ [getHash L squeak])
  have hh : headerOf (intruded L J squeak) squeak () = .ok ⟨0⟩ := by
    simp [headerOf, intruded, hheight]
  have hroom : HasRoom (intruded L J squeak) squeak .empty := by
    constructor
    · exact Int.zero_lt_one
    · exact Int.zero_lt_one
  have hsave := run_saveSqueak_valid (w := ⟨.empty, ()⟩) hc hh hroom
  have hgot : gotSqueak L ((intruded L J squeak).requestsGet peer.address (.squeak (hex (getHash L squeak))) ()).1 =
      .ok (some squeak) := by
    simp [gotSqueak, intruded, hC.squeak]
  have hdownload : ∃ r w', (PeerDownloader.downloadSqueak (intruded L J squeak) peer (getHash L squeak) (some minBlock)
      (some maxBlock) (some pubkeys)).run ⟨.empty, ()⟩ = (.ok (), w') ∧ w'.db.squeaks = [r] ∧
      r.squeak = L.serialize squeak := by
    rw [run_downloadSqueak]
    simp only [findSqueak, findBy, Db.empty, List.find?_nil, squeakOfRow, hgot, hwanted, if_true]
    exact ⟨_, _, congrArg (fun x => ((fun _ => ()) <$> x.1, x.2)) hsave, rfl, rfl⟩
  obtain ⟨r, w', hrun, hrows, hsqueak⟩ := hdownload
  -- the second loop keeps the squeaks that the first one stored
  have hkept : Syncs L (fun _ _ => True) w' ((List.forM [getHash L squeak] fun squeakHash =>
      PeerDownloader.downloadSecretKey (intruded L J squeak) peer squeakHash).run w').2 :=
    Prog.leads_forM Syncs.refl (fun _ _ _ => Syncs.trans)
      (fun squeakHash _ => syncs_downloadSecretKey _ peer squeakHash) w'
  have hunique : UniqueOn SqueakRow.hash w'.db.squeaks := by
    rw [hrows]
    exact List.nodup_singleton _
  obtain ⟨r', hr', hgains⟩ := (hkept hunique).kept r (by rw [hrows]; exact List.mem_cons_self)
  refine ⟨r', ?_, by rw [hgains.squeak, hsqueak]⟩
  have hfirst : (List.forM [getHash L squeak] fun squeakHash => PeerDownloader.downloadSqueak (intruded L J squeak) peer
      squeakHash (some minBlock) (some maxBlock) (some pubkeys)).run ⟨.empty, ()⟩ = (.ok (), w') :=
    Prog.run_bind_of_ok hrun
  rw [PeerDownloader.downloadInterestRange_eq]
  rw [Prog.run_bind_of_ok hlookup, Prog.run_bind_of_ok hfirst]
  exact hr'

end Intruder

/-- A sync that may let in a squeak out of its interval or of another author does. -/
theorem not_syncSound (hC : L.CodecLaws) (squeak : L.CSqueak) {minBlock maxBlock : Int} {pubkeys : List L.PublicKey}
    (hc : L.checkSqueak squeak = .ok ()) (hheight : 0 ≤ L.nBlockHeight squeak)
    (hwanted : PeerDownloader.wanted (getHash L squeak) (some minBlock) (some maxBlock) (some pubkeys) squeak = true)
    (hout : maxBlock < L.nBlockHeight squeak ∨ L.getPubKey squeak ∉ pubkeys) :
    ¬ SyncSound L minBlock maxBlock pubkeys := by
  intro hsound
  let peer : SqueakPeer := ⟨none, "", ⟨.IPV4, "", 0⟩, false, false⟩
  obtain ⟨r, hr, hsqueak⟩ := intruded_stores L jsonText squeak hC jsonText_laws peer hc hheight hwanted
  have hsynced := hsound Unit _ peer _ ⟨.empty, ()⟩ (onChain_intruded L jsonText squeak) List.nodup_nil
  rcases hsynced.added r hr with ⟨r₀, hr₀, -⟩ | ⟨squeak', now, header, hadm, hgains⟩
  · cases hr₀
  · have hsame : L.serialize squeak' = L.serialize squeak := hgains.squeak.symm.trans hsqueak
    have heq : squeak' = squeak := by
      have h := hC.squeak squeak'
      rw [hsame, hC.squeak squeak] at h
      cases h
      rfl
    subst heq
    rcases hout with hout | hout
    · have hupper := hadm.upper
      omega
    · exact hout hadm.author

/-- Where its authors sign squeaks, a sync is sound if and only if the upper bound of its interval is
not 0, and its list of public keys is not empty or its interval is. -/
theorem sync_sound_iff (hC : L.CodecLaws) {minBlock maxBlock : Int} (hmin : 0 ≤ minBlock) (hmax : 0 ≤ maxBlock)
    {p : L.PublicKey} {pubkeys : List L.PublicKey} (hsign : ∀ author ∈ p :: pubkeys, ∃ squeak,
      L.checkSqueak squeak = .ok () ∧ L.getPubKey squeak = author ∧ L.nBlockHeight squeak = max minBlock 1) :
    SyncSound L minBlock maxBlock pubkeys ↔ maxBlock ≠ 0 ∧ (pubkeys ≠ [] ∨ maxBlock < minBlock) := by
  constructor
  · intro hsound
    by_contra hbad
    -- an author who passes the guard, and whose squeak is out of the interval or by nobody asked for
    obtain ⟨author, hsigns, hauthor⟩ : ∃ author, author ∈ p :: pubkeys ∧ (pubkeys = [] ∨ author ∈ pubkeys) := by
      rcases pubkeys with _ | ⟨author, rest⟩
      · exact ⟨p, List.mem_cons_self, .inl rfl⟩
      · exact ⟨author, List.mem_cons_of_mem p List.mem_cons_self, .inr List.mem_cons_self⟩
    obtain ⟨squeak, hc, rfl, hheight⟩ := hsign author hsigns
    have hupper : maxBlock = 0 ∨ L.nBlockHeight squeak ≤ maxBlock := by
      by_cases hzero : maxBlock = 0
      · exact .inl hzero
      · have hrange : ¬ maxBlock < minBlock := fun hlt => hbad ⟨hzero, .inr hlt⟩
        omega
    refine not_syncSound hC squeak hc (by omega) (wanted_iff.2 ⟨rfl, by omega, hupper, hauthor⟩) ?_ hsound
    by_cases hzero : maxBlock = 0
    · left
      omega
    · right
      have hempty : pubkeys = [] := by
        by_contra hne
        exact hbad ⟨hzero, .inl hne⟩
      rw [hempty]
      exact List.not_mem_nil
  · rintro ⟨hne, hkeys⟩
    exact syncSound_of hne hkeys

/-- An interval and an author. -/
theorem sync_sound_sample : SyncSound Sample.squeaklib 5 10 [(1 : UInt8)] := by
  refine (sync_sound_iff (p := (1 : UInt8)) Sample.codecLaws (by decide) (by decide) ?_).2 (by decide)
  intro author hauthor
  refine ⟨⟨[1, 0, 5, 9, 5, 5, 0, 120], rfl⟩, rfl, ?_, rfl⟩
  rcases List.mem_cons.1 hauthor with h | h
  · exact h.symm
  · exact (List.mem_singleton.1 h).symm

/-- Block 0 alone, and an interval for a node that follows nobody: a squeak of height 7 by author 1
gets in. -/
theorem sync_unsound : ¬ SyncSound Sample.squeaklib 0 0 [(1 : UInt8)] ∧ ¬ SyncSound Sample.squeaklib 5 10 [] :=
  ⟨not_syncSound Sample.codecLaws Sample.squeak rfl (by decide) (by decide) (.inl (by decide)),
    not_syncSound Sample.codecLaws Sample.squeak rfl (by decide) (by decide) (.inr List.not_mem_nil)⟩

end Squeaknode
