/-
What the peer client makes of an answer, and the wire format: offers and lists of hashes arrive as
the server sent them.
-/
import Squeaknode.Client.PeerDownloader
import Squeaknode.Node.StoreRuns
import Squeaknode.Server.App

namespace Squeaknode

open Interleave SqueakDb

variable {L : Squeaklib} {ρ : Type}

/-! ## The wire format -/

/-- A server's offer, whose host is a text, is read as it was written. -/
theorem parseOffer_offerJson {J : JsonCodec} (hJ : J.Laws) {o : Offer} (htext : o.HasText) :
    PeerClient.parseOffer J (J.jsonify (App.offerJson o)) = .ok o := by
  obtain ⟨text, htext⟩ := htext
  have hnodup : (([("squeak_hash", Json.str (hex o.squeakHash)), ("nonce", .str (hex o.nonce)),
      ("payment_request", .str o.paymentRequest), ("host", .str text), ("port", .int o.port)] :
      List (String × Json)).map Prod.fst).Nodup := by
    simp
  obtain ⟨fields, hperm, hloads⟩ := hJ.object _ hnodup (by simp)
  have hget : ∀ key v, (key, v) ∈ [("squeak_hash", Json.str (hex o.squeakHash)), ("nonce", .str (hex o.nonce)),
      ("payment_request", .str o.paymentRequest), ("host", .str text), ("port", .int o.port)] →
      Json.get key (.obj fields) = .ok v :=
    fun key v hv => Json.get_of_mem ((hperm.map Prod.fst).nodup_iff.2 hnodup) (hperm.mem_iff.2 hv)
  have hhash : Json.get "squeak_hash" (.obj fields) = .ok (.str (hex o.squeakHash)) := hget _ _ (by simp)
  have hnonce : Json.get "nonce" (.obj fields) = .ok (.str (hex o.nonce)) := hget _ _ (by simp)
  have hrequest : Json.get "payment_request" (.obj fields) = .ok (.str o.paymentRequest) := hget _ _ (by simp)
  have hhost : Json.get "host" (.obj fields) = .ok o.host := htext ▸ hget _ _ (by simp)
  have hport : Json.get "port" (.obj fields) = .ok (.int o.port) := hget _ _ (by simp)
  unfold PeerClient.parseOffer App.offerJson
  rw [htext, hloads]
  simp only [bind, Except.bind, pure, Except.pure, hhash, hnonce, hrequest, hhost, hport, Json.asStr,
    Json.toInt, fromHex_hex]

/-- A seller can tell its lightning address, and the port of it has at most 64 bits. -/
def KnowsAddress (S : Node L ρ) : Prop :=
  ∀ o, ∃ a, (packageAddress S (SqueakController.lndExternalAddress S) o).1 = .ok a ∧
    ∀ address, a = some address → isBindable address.port = true

/-- An offer of such a seller arrives as it was written, and the buyer's driver takes its address. -/
theorem offerOf_sendable {S : Node L ρ} {a : Option LightningAddressHostPort} {o : ρ}
    (ha : (packageAddress S (SqueakController.lndExternalAddress S) o).1 = .ok a)
    (hport : ∀ address, a = some address → isBindable address.port = true) (sentOffer : SentOffer) :
    (offerOf sentOffer a).HasText ∧
      ∀ peerAddress, ∃ host, bindAddress (offeredAddress (offerOf sentOffer a) peerAddress) = .ok (some host) := by
  have htext : (offerOf sentOffer a).HasText := by
    refine hasText_offerOf (fun address h => ?_) ha sentOffer
    unfold SqueakController.lndExternalAddress at h
    split at h
    · cases h
    · cases h
      exact ⟨_, rfl⟩
  refine ⟨htext, bindAddress_text htext ?_⟩
  cases a with
  | none => exact (by decide : isBindable 0 = true)
  | some address => exact hport address rfl

theorem mem_hexDigits {c : Char} : ∀ {bytes : Bytes}, c ∈ hexDigits bytes → ∃ n < 16, c = hexDigit n
  | b :: bytes, h => by
    have hlt : b.toNat < 256 := b.toNat_lt
    have hdigits : c ∈ [hexDigit (b.toNat / 16), hexDigit (b.toNat % 16)] ++ hexDigits bytes := h
    rcases List.mem_append.1 hdigits with h | h
    · simp only [List.mem_cons, List.not_mem_nil, or_false] at h
      rcases h with rfl | rfl
      · exact ⟨_, by omega, rfl⟩
      · exact ⟨_, by omega, rfl⟩
    · exact mem_hexDigits h

/-- The hex text of a hash can stand in a path. -/
theorem isSegment_hex {bytes : Bytes} (h : bytes ≠ []) : App.isSegment (hex bytes) = true := by
  obtain ⟨b, bytes, rfl⟩ := List.exists_cons_of_ne_nil h
  have hslash : '/' ∉ hexDigits (b :: bytes) := by
    intro hmem
    obtain ⟨n, hn, heq⟩ := mem_hexDigits hmem
    interval_cases n <;> exact absurd heq (by decide)
  have hne : hexDigits (b :: bytes) ≠ [] := by simp [hexDigits]
  simp [App.isSegment, hex, hslash, hne]

theorem mapM_fromHex : ∀ hashes : List Bytes,
    (hashes.map fun h => Json.str (hex h)).mapM (fun item => do
      let text ← item.asStr
      fromHex text : Json → Except Err Bytes) = .ok hashes
  | [] => rfl
  | h :: hashes => by
    rw [List.map_cons, List.mapM_cons, mapM_fromHex hashes]
    simp [Json.asStr, bind, Except.bind, pure, Except.pure]

/-- A server's list of hashes is read as it was written. -/
theorem parseLookup_lookupJson {J : JsonCodec} (hJ : J.Laws) (hashes : List Bytes) :
    PeerClient.parseLookup J (J.jsonify (App.lookupJson hashes)) = .ok hashes := by
  have hloads := hJ.texts (hashes.map hex)
  rw [List.map_map] at hloads
  unfold PeerClient.parseLookup App.lookupJson
  rw [show (fun h => Json.str (hex h)) = Json.str ∘ hex from rfl, hloads]
  exact mapM_fromHex hashes

/-! ## Answers of a peer -/

/-- The squeak in an answer; any other status than 200 is none. -/
def gotSqueak (L : Squeaklib) : Except Err Response → Except Err (Option L.CSqueak)
  | .error e => .error e
  | .ok r => if r.statusCode ≠ 200 then .ok none else some <$> L.deserialize r.content

/-- The key in an answer. -/
def gotSecretKey : Except Err Response → Except Err (Option Bytes)
  | .error e => .error e
  | .ok r => if r.statusCode ≠ 200 then .ok none else .ok (some r.content)

/-- The offer in an answer. -/
def gotOffer (J : JsonCodec) : Except Err Response → Except Err (Option Offer)
  | .error e => .error e
  | .ok r => if r.statusCode ≠ 200 then .ok none else some <$> PeerClient.parseOffer J r.content

/-- The hashes in an answer, whatever its status. -/
def gotLookup (J : JsonCodec) : Except Err Response → Except Err (List Bytes)
  | .error e => .error e
  | .ok r => PeerClient.parseLookup J r.content

section Runs

variable (N : Node L ρ) (peer : SqueakPeer) (squeakHash : Bytes) (w : World ρ)

/-- The world after the peer was asked. -/
def afterRequest (request : Request) (w : World ρ) : World ρ :=
  { w with env := (N.requestsGet peer.address request w.env).2 }

theorem run_clientGetSqueak : (PeerClient.getSqueak N peer squeakHash).run w =
    (gotSqueak L (N.requestsGet peer.address (.squeak (hex squeakHash)) w.env).1,
      afterRequest N peer (.squeak (hex squeakHash)) w) := by
  unfold PeerClient.getSqueak gotSqueak afterRequest
  rw [Prog.run_bind, run_call]
  rcases (N.requestsGet peer.address (.squeak (hex squeakHash)) w.env).1 with e | r
  · rfl
  · simp only
    split
    · rfl
    · rw [Prog.run_bind, Prog.run_ofExcept]
      cases L.deserialize r.content <;> rfl

theorem run_clientGetSecretKey : (PeerClient.getSecretKey N peer squeakHash).run w =
    (gotSecretKey (N.requestsGet peer.address (.secretKey (hex squeakHash)) w.env).1,
      afterRequest N peer (.secretKey (hex squeakHash)) w) := by
  unfold PeerClient.getSecretKey gotSecretKey afterRequest
  rw [Prog.run_bind, run_call]
  rcases (N.requestsGet peer.address (.secretKey (hex squeakHash)) w.env).1 with e | r
  · rfl
  · simp only
    split <;> rfl

theorem run_clientGetOffer : (PeerClient.getOffer N peer squeakHash).run w =
    (gotOffer N.json (N.requestsGet peer.address (.offer (hex squeakHash)) w.env).1,
      afterRequest N peer (.offer (hex squeakHash)) w) := by
  unfold PeerClient.getOffer gotOffer afterRequest
  rw [Prog.run_bind, run_call]
  rcases (N.requestsGet peer.address (.offer (hex squeakHash)) w.env).1 with e | r
  · rfl
  · simp only
    split
    · rfl
    · rw [Prog.run_bind, Prog.run_ofExcept]
      cases PeerClient.parseOffer N.json r.content <;> rfl

theorem run_clientLookup (minBlock maxBlock : Int) (pubkeys : List L.PublicKey) :
    (PeerClient.lookup N peer minBlock maxBlock pubkeys).run w =
      (gotLookup N.json
        (N.requestsGet peer.address (.lookup (PeerClient.lookupArgs minBlock maxBlock pubkeys)) w.env).1,
        afterRequest N peer (.lookup (PeerClient.lookupArgs minBlock maxBlock pubkeys)) w) := by
  unfold PeerClient.lookup gotLookup afterRequest
  rw [Prog.run_bind, run_call]
  rcases (N.requestsGet peer.address (.lookup (PeerClient.lookupArgs minBlock maxBlock pubkeys)) w.env).1 with e | r
  · rfl
  · exact Prog.run_ofExcept _ _

/-! ## Downloads -/

/-- A squeak that is stored is not asked for; one that arrives is saved if it is wanted. -/
theorem run_downloadSqueakWith (saveSqueak : L.CSqueak → NodeM ρ (Option Bytes)) (minBlock maxBlock : Option Int)
    (pubkeys : Option (List L.PublicKey)) :
    (PeerDownloader.downloadSqueakWith N peer saveSqueak squeakHash minBlock maxBlock pubkeys).run w =
      match squeakOfRow L (findSqueak squeakHash w.db) with
      | .error e => (.error e, w)
      | .ok (some _) => (.ok (), w)
      | .ok none =>
        let w₁ := afterRequest N peer (.squeak (hex squeakHash)) w
        match gotSqueak L (N.requestsGet peer.address (.squeak (hex squeakHash)) w.env).1 with
        | .error e => (.error e, w₁)
        | .ok none => (.ok (), w₁)
        | .ok (some squeak) =>
          if PeerDownloader.wanted squeakHash minBlock maxBlock pubkeys squeak then
            ((fun _ => ()) <$> ((saveSqueak squeak).run w₁).1, ((saveSqueak squeak).run w₁).2)
          else (.ok (), w₁) := by
  unfold PeerDownloader.downloadSqueakWith
  rw [Prog.run_bind, run_getSqueak]
  rcases squeakOfRow L (findSqueak squeakHash w.db) with e | _ | squeak
  · rfl
  · simp only [Prog.run_bind, run_clientGetSqueak]
    rcases gotSqueak L (N.requestsGet peer.address (.squeak (hex squeakHash)) w.env).1 with e | _ | squeak
    · rfl
    · rfl
    · simp only
      split
      · rw [Prog.run_bind]
        rcases (saveSqueak squeak).run (afterRequest N peer (.squeak (hex squeakHash)) w) with ⟨e | _, w'⟩ <;> rfl
      · rfl
  · rfl

theorem run_downloadSqueak (minBlock maxBlock : Option Int) (pubkeys : Option (List L.PublicKey)) :
    (PeerDownloader.downloadSqueak N peer squeakHash minBlock maxBlock pubkeys).run w =
      match squeakOfRow L (findSqueak squeakHash w.db) with
      | .error e => (.error e, w)
      | .ok (some _) => (.ok (), w)
      | .ok none =>
        let w₁ := afterRequest N peer (.squeak (hex squeakHash)) w
        match gotSqueak L (N.requestsGet peer.address (.squeak (hex squeakHash)) w.env).1 with
        | .error e => (.error e, w₁)
        | .ok none => (.ok (), w₁)
        | .ok (some squeak) =>
          if PeerDownloader.wanted squeakHash minBlock maxBlock pubkeys squeak then
            ((fun _ => ()) <$> ((SqueakStore.saveSqueak N squeak).run w₁).1,
              ((SqueakStore.saveSqueak N squeak).run w₁).2)
          else (.ok (), w₁) :=
  run_downloadSqueakWith N peer squeakHash w (SqueakStore.saveSqueak N) minBlock maxBlock pubkeys

/-- The world after the peer was asked for the key and the clock for the time. -/
def beforeOffer (w : World ρ) : World ρ :=
  let w₁ := afterRequest N peer (.secretKey (hex squeakHash)) w
  { w₁ with env := (N.timestampNowMs w₁.env).2 }

/-- The store has an unpaid and unexpired offer of the peer for the squeak. -/
def hasOffer (now : Int) (db : Db) : Bool :=
  (SqueakDb.getReceivedOffers squeakHash now db).any fun o => o.peerAddress == peer.address

/-- The key is asked for if the squeak is stored without one, and an offer if the peer sends none and
the store has none of it. -/
theorem run_downloadSecretKeyWith (saveSecretKey : Bytes → Bytes → NodeM ρ Unit)
    (handleOffer : L.CSqueak → Offer → PeerAddress → NodeM ρ Unit) :
    (PeerDownloader.downloadSecretKeyWith N peer saveSecretKey handleOffer squeakHash).run w =
    match squeakOfRow L (findSqueak squeakHash w.db) with
    | .error e => (.error e, w)
    | .ok none => (.ok (), w)
    | .ok (some squeak) =>
      if ((findSqueak squeakHash w.db).bind SqueakRow.secretKey).any (fun k => !k.isEmpty) then (.ok (), w)
      else
        let w₁ := afterRequest N peer (.secretKey (hex squeakHash)) w
        match gotSecretKey (N.requestsGet peer.address (.secretKey (hex squeakHash)) w.env).1 with
        | .error e => (.error e, w₁)
        | .ok secretKey => match secretKey.filter (fun k => !k.isEmpty) with
          | some secretKey => (saveSecretKey squeakHash secretKey).run w₁
          | none =>
            let w₂ := beforeOffer N peer squeakHash w
            if hasOffer peer squeakHash (N.timestampNowMs w₁.env).1 w.db then (.ok (), w₂)
            else match gotOffer N.json (N.requestsGet peer.address (.offer (hex squeakHash)) w₂.env).1 with
              | .error e => (.error e, afterRequest N peer (.offer (hex squeakHash)) w₂)
              | .ok none => (.ok (), afterRequest N peer (.offer (hex squeakHash)) w₂)
              | .ok (some offer) => (handleOffer squeak offer peer.address).run
                  (afterRequest N peer (.offer (hex squeakHash)) w₂) := by
  unfold PeerDownloader.downloadSecretKeyWith
  rw [Prog.run_bind, run_getSqueak]
  rcases squeakOfRow L (findSqueak squeakHash w.db) with e | _ | squeak
  · rfl
  · rfl
  · simp only [Prog.run_bind, run_getSqueakSecretKey]
    split
    · rfl
    · simp only [Prog.run_bind, run_clientGetSecretKey]
      rcases gotSecretKey (N.requestsGet peer.address (.secretKey (hex squeakHash)) w.env).1 with e | secretKey
      · rfl
      · simp only
        generalize Option.filter _ secretKey = key
        rcases key with _ | secretKey
        · simp only [SqueakStore.getReceivedOffers, Prog.run_bind, run_ask, run_query]
          show Prog.run (if hasOffer peer squeakHash _ w.db then _ else _) (beforeOffer N peer squeakHash w) = _
          split
          · rfl
          · simp only [Prog.run_bind, run_clientGetOffer]
            rcases gotOffer N.json (N.requestsGet peer.address (.offer (hex squeakHash))
              (beforeOffer N peer squeakHash w).env).1 with e | _ | offer <;> rfl
        · rfl

theorem run_downloadSecretKey : (PeerDownloader.downloadSecretKey N peer squeakHash).run w =
    match squeakOfRow L (findSqueak squeakHash w.db) with
    | .error e => (.error e, w)
    | .ok none => (.ok (), w)
    | .ok (some squeak) =>
      if ((findSqueak squeakHash w.db).bind SqueakRow.secretKey).any (fun k => !k.isEmpty) then (.ok (), w)
      else
        let w₁ := afterRequest N peer (.secretKey (hex squeakHash)) w
        match gotSecretKey (N.requestsGet peer.address (.secretKey (hex squeakHash)) w.env).1 with
        | .error e => (.error e, w₁)
        | .ok secretKey => match secretKey.filter (fun k => !k.isEmpty) with
          | some secretKey => (SqueakStore.saveSecretKey L squeakHash secretKey).run w₁
          | none =>
            let w₂ := beforeOffer N peer squeakHash w
            if hasOffer peer squeakHash (N.timestampNowMs w₁.env).1 w.db then (.ok (), w₂)
            else match gotOffer N.json (N.requestsGet peer.address (.offer (hex squeakHash)) w₂.env).1 with
              | .error e => (.error e, afterRequest N peer (.offer (hex squeakHash)) w₂)
              | .ok none => (.ok (), afterRequest N peer (.offer (hex squeakHash)) w₂)
              | .ok (some offer) => (SqueakStore.handleOffer N squeak offer peer.address).run
                  (afterRequest N peer (.offer (hex squeakHash)) w₂) :=
  run_downloadSecretKeyWith N peer squeakHash w (SqueakStore.saveSecretKey L) (SqueakStore.handleOffer N)

end Runs

end Squeaknode
