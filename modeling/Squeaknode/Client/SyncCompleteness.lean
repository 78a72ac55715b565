/-
A sync with an honest peer is complete: the client ends with every squeak of the interval and the
authors that the server has, and with the key or an offer for each that is unlocked there. A second
sync finds nothing left to do.
-/
import Squeaknode.Client.SyncTurns

namespace Squeaknode

open Interleave Relational SqueakDb

variable {L : Squeaklib} {σ ρ : Type}

section Sync

variable {S : Node L σ} {N : Node L ρ} {peer : SqueakPeer} {page : Nat → Bytes} {clientHost : String}
  {server : ρ → World σ} {I : Invoicing σ} {during : Int → Prop} {D : Db}

/-! ## The sync -/

/-- The store has no key for the hash. -/
def Lacks (squeakHash : Bytes) (db : Db) : Prop := ∀ x, findSqueak squeakHash db = some x → Keyless x

/-- If the server gives a key away that the client lacks, the squeak that the client will have is private or
decrypts with it. -/
def Opens (L : Squeaklib) (priceMsat : Int) (r : SqueakRow) (db : Db) : Prop :=
  priceMsat = 0 → ∀ k squeak, r.secretKey = some k → k ≠ [] → Lacks r.hash db →
    L.deserialize ((findSqueak r.hash db).getD r).squeak = .ok squeak → L.isPrivateMessage squeak = false →
    ∃ content, L.getDecryptedContentStr squeak k none none = .ok content

/-- What a completed sync brings for a squeak that the server has in `r` and sells for `priceMsat`: the squeak; its
key, with the content of a public squeak, if it is for free; and else one offer, if there was none. -/
structure Brought (L : Squeaklib) (peer : SqueakPeer) (during : Int → Prop) (priceMsat : Int) (r : SqueakRow)
    (db db' : Db) :
    Prop where
  held : ∃ x, findSqueak r.hash db' = some x ∧
    (findSqueak r.hash db = none → ∃ squeak, RowOf L squeak r ∧ L.deserialize x.squeak = .ok squeak)
  key : priceMsat = 0 → ∀ k, r.secretKey = some k → k ≠ [] → Lacks r.hash db →
    ∃ x squeak, findSqueak r.hash db' = some x ∧ x.secretKey = some k ∧ L.deserialize x.squeak = .ok squeak ∧
      (L.isPrivateMessage squeak = false →
        ∃ content, L.getDecryptedContentStr squeak k none none = .ok content ∧ x.content = some content)
  offer : 0 < priceMsat → ∀ k, r.secretKey = some k → k ≠ [] → Lacks r.hash db → ∀ t, during t →
    (live peer t (entry r.hash db).offers = [] →
      ∃ o, live peer t (entry r.hash db').offers = [o] ∧ o.priceMsat = priceMsat) ∧
    (live peer t (entry r.hash db).offers ≠ [] → (entry r.hash db').offers = (entry r.hash db).offers)

theorem keyOutcome_eq_ok {squeak : L.CSqueak} {k : Bytes} : keyOutcome L k squeak = .ok () ↔
    (L.isPrivateMessage squeak = false → ∃ content, L.getDecryptedContentStr squeak k none none = .ok content) := by
  unfold keyOutcome
  rcases hp : L.isPrivateMessage squeak with _ | _
  · rcases hd : L.getDecryptedContentStr squeak k none none with e | content <;> simp
  · simp

/-- The row that the client has after the first loop, and the squeak in it. -/
theorem Stored.row {r : SqueakRow} {db db' : Db} (hC : L.CodecLaws)
    (h : Stored L r (entry r.hash db) (entry r.hash db')) :
    ∃ x, findSqueak r.hash db' = some x ∧ (Keyless x ↔ Lacks r.hash db) ∧
      L.deserialize x.squeak = L.deserialize ((findSqueak r.hash db).getD r).squeak := by
  rcases hfind : findSqueak r.hash db with _ | y
  · obtain ⟨squeak, now, header, hrow, hnew⟩ := h.new hfind
    refine ⟨_, hnew, iff_of_true ?_ ?_, ?_⟩
    · intro k hk
      cases hk
    · intro y hy
      rw [hfind] at hy
      cases hy
    · exact (hC.squeak squeak).trans hrow.bytes.symm
  · refine ⟨y, h.kept y hfind, ?_, rfl⟩
    constructor
    · intro hless y' hy'
      rw [hfind] at hy'
      cases hy'
      exact hless
    · intro hlacks
      exact hlacks y hfind

/-- The first loop keeps what decides whether a turn of the second one returns. -/
theorem Stored.unlocks_iff {r : SqueakRow} {db db' : Db} (hC : L.CodecLaws)
    (h : Stored L r (entry r.hash db) (entry r.hash db')) (priceMsat : Int) :
    Unlocks L priceMsat r (entry r.hash db') ↔ Opens L priceMsat r db := by
  obtain ⟨x, hx, hless, hsame⟩ := h.row hC
  constructor
  · intro hunlocks hprice k squeak hk hknil hlacks hs
    rw [← hsame] at hs
    exact keyOutcome_eq_ok.1 (hunlocks hprice x k squeak hx (hless.2 hlacks) hk hknil hs)
  · intro hopens hprice y k squeak hy hy' hk hknil hs
    obtain rfl : x = y := Option.some.inj (hx.symm.trans hy)
    rw [hsame] at hs
    exact keyOutcome_eq_ok.2 (hopens hprice k squeak hk hknil (hless.1 hy') hs)

/-- Offers that are steady are live at all times of the sync or at none. -/
theorem live_congr {offers : List ReceivedOfferRow}
    (hsteady : ∀ o ∈ offers, ∀ t t', during t → during t' →
      receivedOfferInvoiceIsExpired t o = receivedOfferInvoiceIsExpired t' o)
    {t t' : Int} (ht : during t) (ht' : during t') :
    live peer t offers = live peer t' offers := by
  refine List.filter_congr fun o ho => ?_
  rw [hsteady o ho t t' ht ht']

/-- What the two turns for a hash bring together. -/
theorem Fetched.brought {r : SqueakRow} {db db₁ db' : Db} {priceMsat : Int} (hC : L.CodecLaws)
    (hsteady : ∀ o ∈ db.receivedOffers.rows, ∀ t t', during t → during t' →
      receivedOfferInvoiceIsExpired t o = receivedOfferInvoiceIsExpired t' o)
    (h₁ : Stored L r (entry r.hash db) (entry r.hash db₁))
    (h₂ : Fetched L peer during priceMsat r (entry r.hash db₁) (entry r.hash db')) :
    Brought L peer during priceMsat r db db' := by
  obtain ⟨x, hx, hless, hsame⟩ := h₁.row hC
  have hoffers : (entry r.hash db₁).offers = (entry r.hash db).offers := h₁.offers
  have hlive : ∀ t t', during t → during t' →
      live peer t (entry r.hash db).offers = live peer t' (entry r.hash db).offers :=
    fun t t' ht ht' => live_congr (fun o ho => hsteady o (List.mem_filter.1 ho).1) ht ht'
  have hnew : ∀ y : SqueakRow, y.squeak = x.squeak → findSqueak r.hash db = none →
      ∃ squeak, RowOf L squeak r ∧ L.deserialize y.squeak = .ok squeak := by
    intro y hy hnone
    obtain ⟨squeak, now, header, hrow, hinserted⟩ := h₁.new hnone
    obtain rfl : x = _ := Option.some.inj (hx.symm.trans hinserted)
    exact ⟨squeak, hrow, by rw [hy]; exact hC.squeak squeak⟩
  -- turns that bring nothing, where there is nothing to bring
  have hquiet : entry r.hash db' = entry r.hash db₁ →
      (Lacks r.hash db → ∀ k, r.secretKey = some k → k ≠ [] → 0 < priceMsat ∧ ∃ t, during t ∧
        live peer t (entry r.hash db₁).offers ≠ []) → Brought L peer during priceMsat r db db' := by
    intro hentry hnothing
    have hrow : findSqueak r.hash db' = some x := (congrArg Entry.row hentry).trans hx
    have hoffers' : (entry r.hash db').offers = (entry r.hash db).offers := (congrArg Entry.offers hentry).trans hoffers
    refine ⟨⟨x, hrow, hnew x rfl⟩, ?_, ?_⟩
    · intro hprice k hk hknil hlacks
      have hpos := (hnothing hlacks k hk hknil).1
      omega
    · intro hprice k hk hknil hlacks t ht
      obtain ⟨-, t', ht', hne⟩ := hnothing hlacks k hk hknil
      rw [hoffers] at hne
      refine ⟨fun hnil => ?_, fun _ => hoffers'⟩
      rw [hlive t t' ht ht'] at hnil
      exact absurd hnil hne
  generalize hentry : entry r.hash db' = e' at h₂
  cases h₂ with
  | missing hnone =>
    rw [show findSqueak r.hash db₁ = none from hnone] at hx
    cases hx
  | owned hy hkeyed =>
    obtain rfl := Option.some.inj (hx.symm.trans hy)
    exact hquiet hentry fun hlacks => absurd (hless.2 hlacks) hkeyed
  | locked hnokey hprice => exact hquiet hentry fun _ k hk hknil => absurd (hnokey k hk) hknil
  | offered ht hprice hne => exact hquiet hentry fun _ _ _ _ => ⟨hprice, _, ht, hne⟩
  | unsold hnokey hprice =>
    refine hquiet hentry fun _ k hk _ => ?_
    rw [hnokey] at hk
    cases hk
  | @key y k squeak hy hy' hprice hk hknil hs hout =>
    obtain rfl := Option.some.inj (hx.symm.trans hy)
    have hrow : findSqueak r.hash db' = some (rowWithKey L k squeak x) := congrArg Entry.row hentry
    refine ⟨⟨_, hrow, hnew _ rfl⟩, ?_, ?_⟩
    · intro _ k' hk' _ _
      obtain rfl := Option.some.inj (hk.symm.trans hk')
      refine ⟨_, squeak, hrow, rfl, hs, fun hpublic => ?_⟩
      obtain ⟨content, hcontent⟩ := keyOutcome_eq_ok.1 hout hpublic
      exact ⟨content, hcontent, by simp [rowWithKey, keyContent, hpublic, hcontent]⟩
    · intro hpos
      omega
  | @offer _ t o _ _ _ ht hprice hnil hamount holive =>
    have hrow : findSqueak r.hash db' = some x := (congrArg Entry.row hentry).trans hx
    have hoffers' : (entry r.hash db').offers = (entry r.hash db).offers ++ [o] := by
      rw [hentry, hoffers]
    rw [hoffers] at hnil
    refine ⟨⟨x, hrow, hnew x rfl⟩, ?_, ?_⟩
    · intro hzero
      omega
    · intro _ k hk hknil _ t' ht'
      have hnil' := (hlive t' t ht' ht).trans hnil
      refine ⟨fun _ => ⟨o, ?_, hamount⟩, fun hne => absurd hnil' hne⟩
      rw [hoffers', live, List.filter_append]
      show live peer t' _ ++ live peer t' [o] = [o]
      rw [hnil', holive t' ht']
      rfl

theorem Fetched.settled {r : SqueakRow} {priceMsat : Int} {e e' : Entry} (h : Fetched L peer during priceMsat r e e')
    (hsteady : ∀ o ∈ e.offers, ∀ t t', during t → during t' →
      receivedOfferInvoiceIsExpired t o = receivedOfferInvoiceIsExpired t' o) : Settled peer during priceMsat r e' := by
  intro x hx hless
  cases h with
  | missing hnone =>
    rw [hnone] at hx
    cases hx
  | owned hy hkeyed =>
    rw [hy] at hx
    cases hx
    exact absurd hless hkeyed
  | @key y k squeak hy hy' hprice hk hknil hs hout =>
    cases hx
    exact absurd (hless k rfl) hknil
  | locked hnokey hprice => exact ⟨fun _ => hnokey, fun hpos => absurd hprice (by omega)⟩
  | offered ht hprice hne =>
    refine ⟨fun hzero => absurd hprice (by omega), fun _ => .inr fun t' ht' => ?_⟩
    rwa [live_congr hsteady ht' ht]
  | unsold hnokey hprice => exact ⟨fun hzero => absurd hprice (by omega), fun _ => .inl hnokey⟩
  | @offer _ t o _ _ hsome ht hprice hnil hamount holive =>
    refine ⟨fun hzero => absurd hprice (by omega), fun _ => .inr fun t' ht' => ?_⟩
    have hlast : o ∈ live peer t' [o] := by
      rw [holive t' ht']
      exact List.mem_cons_self
    refine List.ne_nil_of_mem (a := o) (List.mem_filter.2 ⟨List.mem_append_right _ List.mem_cons_self, ?_⟩)
    exact (List.mem_filter.1 hlast).2

theorem Settled.unlocks {r : SqueakRow} {priceMsat : Int} {e : Entry} (h : Settled peer during priceMsat r e) :
    Unlocks L priceMsat r e := by
  intro hprice x k squeak hx hless hk hknil
  exact absurd ((h x hx hless).1 hprice k hk) hknil

theorem Settled.eq {r : SqueakRow} {priceMsat : Int} {e e' : Entry} (h : Settled peer during priceMsat r e)
    (h' : Fetched L peer during priceMsat r e e') : e' = e := by
  cases h' with
  | key hx hless hprice hk hknil => exact absurd ((h _ hx hless).1 hprice _ hk) hknil
  | @offer _ t _ hx hless hsome ht hprice hnil =>
    rcases (h _ hx hless).2 hprice with hnone | hlive
    · exact absurd hnone hsome
    · exact absurd hnil (hlive t ht)
  | _ => rfl

theorem hashes_nodup (hH : HonestPeer S N peer page clientHost server I during D)
    {minBlock maxBlock : Int} {pubkeys : List L.PublicKey} {rows : List SqueakRow}
    (hperm : rows.Perm (matching minBlock maxBlock pubkeys D)) :
    (rows.map SqueakRow.hash).Nodup := by
  have hsub : (matching minBlock maxBlock pubkeys D).Sublist D.squeaks := List.filter_sublist
  exact (hperm.map SqueakRow.hash).nodup_iff.2 (hH.unique.sublist (hsub.map SqueakRow.hash))

/-- The lookup and the first loop. -/
theorem run_downloadInterestRange (hC : L.CodecLaws) (hnonempty : ∀ squeak, getHash L squeak ≠ [])
    (hH : HonestPeer S N peer page clientHost server I during D) {w : World ρ}
    (hlinked : Linked L server I during D w) {minBlock maxBlock : Int} {pubkeys : List L.PublicKey}
    (hne : pubkeys ≠ []) (hkeys : pubkeys.length + 2 ≤ S.sqlite.maxVariableNumber)
    (hroom : Room N (matching minBlock maxBlock pubkeys D) w.db) {n : Nat}
    (hfresh : I.fresh n (server w.env).env) :
    ∃ (rows : List SqueakRow) (env : ρ) (w₂ : World ρ), rows.Perm (matching minBlock maxBlock pubkeys D) ∧
      (PeerClient.lookup N peer minBlock maxBlock pubkeys).run w =
        (.ok (rows.map SqueakRow.hash), { w with env := env }) ∧
      server env = server w.env ∧
      (PeerDownloader.downloadInterestRange N peer minBlock maxBlock pubkeys).run w =
        (rows.forM fun r => PeerDownloader.downloadSecretKey N peer r.hash).run w₂ ∧
      Linked L server I during D w₂ ∧ I.fresh n (server w₂.env).env ∧
      (∀ r ∈ rows, Stored L r (entry r.hash w.db) (entry r.hash w₂.db)) ∧
      ∀ k, k ∉ rows.map SqueakRow.hash → entry k w₂.db = entry k w.db := by
  obtain ⟨rows, hperm, hgot, hsame⟩ :=
    gotLookup_served hC hH.codec hH.sameCodec hH.serves minBlock maxBlock ⟨hH.numeric, hkeys⟩ hne
      (hlinked.squeaks ▸ hH.heights)
  have hmatch : matching minBlock maxBlock pubkeys (server w.env).db = matching minBlock maxBlock pubkeys D := by
    unfold matching
    rw [hlinked.squeaks]
  rw [hmatch] at hperm
  have hlookup := run_clientLookup N peer w minBlock maxBlock pubkeys
  rw [hgot] at hlookup
  have hasked : I.fresh n (server (N.requestsGet peer.address (.lookup (PeerClient.lookupArgs minBlock maxBlock pubkeys))
      w.env).2).env := by
    rwa [hsame]
  obtain ⟨w₂, hfirst, ⟨hlinked₂, -, -, hfresh₂⟩, hstored, hother⟩ :=
    (turns_squeak hC hnonempty hH minBlock maxBlock pubkeys n).forM
    (hashes_nodup hH hperm) (s := afterRequest N peer (.lookup (PeerClient.lookupArgs minBlock maxBlock pubkeys)) w)
    ⟨hlinked.env hsame, hroom.perm hperm, fun r hr => hperm.mem_iff.1 hr, hasked⟩ fun _ _ => trivial
  refine ⟨rows, _, w₂, hperm, hlookup, hsame, ?_, hlinked₂, hfresh₂, hstored, hother⟩
  rw [PeerDownloader.downloadInterestRange_eq]
  rw [Prog.run_bind_of_ok hlookup, Prog.forM_map, Prog.run_bind_of_ok hfirst, Prog.forM_map]

/-- A sync that finds everything settled returns and changes nothing. -/
theorem run_settled (hC : L.CodecLaws) (hK : L.KeyLaws) (hnonempty : ∀ squeak, getHash L squeak ≠ [])
    (hH : HonestPeer S N peer page clientHost server I during D) {w : World ρ}
    (hlinked : Linked L server I during D w) {minBlock maxBlock : Int} {pubkeys : List L.PublicKey}
    (hne : pubkeys ≠ []) (hkeys : pubkeys.length + 2 ≤ S.sqlite.maxVariableNumber) {n : Nat}
    (hfresh : I.fresh n (server w.env).env)
    (hheld : ∀ r ∈ matching minBlock maxBlock pubkeys D, findSqueak r.hash w.db ≠ none)
    (hsettled : ∀ r ∈ matching minBlock maxBlock pubkeys D,
      Settled peer during (sellPriceMsat S D) r (entry r.hash w.db)) :
    ∃ w', (PeerDownloader.downloadInterestRange N peer minBlock maxBlock pubkeys).run w = (.ok (), w') ∧
      ∀ squeakHash, entry squeakHash w'.db = entry squeakHash w.db := by
  have hroom : Room N (matching minBlock maxBlock pubkeys D) w.db := by
    intro r hr
    obtain ⟨hmatch, hnone⟩ := List.mem_filter.1 hr
    exact absurd (Option.isNone_iff_eq_none.1 hnone) (hheld r hmatch)
  obtain ⟨rows, env, w₂, hperm, -, -, hrun, hlinked₂, hfresh₂, hstored, hother⟩ :=
    run_downloadInterestRange hC hnonempty hH hlinked hne hkeys hroom hfresh
  have hfirst : ∀ squeakHash, entry squeakHash w₂.db = entry squeakHash w.db := by
    intro squeakHash
    by_cases hmem : squeakHash ∈ rows.map SqueakRow.hash
    · obtain ⟨r, hr, rfl⟩ := List.mem_map.1 hmem
      obtain ⟨x, hx⟩ := Option.ne_none_iff_exists'.1 (hheld r (hperm.mem_iff.1 hr))
      have hrow : (entry r.hash w₂.db).row = some x := (hstored r hr).kept x hx
      have hoffers := (hstored r hr).offers
      rcases hentry : entry r.hash w₂.db with ⟨row, offers⟩
      rw [hentry] at hrow hoffers
      cases hrow
      cases hoffers
      unfold entry
      rw [hx]
    · exact hother squeakHash hmem
  have hsettled₂ : ∀ r ∈ rows, Settled peer during (sellPriceMsat S D) r (entry r.hash w₂.db) := by
    intro r hr
    rw [hfirst]
    exact hsettled r (hperm.mem_iff.1 hr)
  have hD : ∀ r ∈ rows, r ∈ D.squeaks := fun r hr => (List.mem_filter.1 (hperm.mem_iff.1 hr)).1
  have hnothing : unsettled peer during (sellPriceMsat S D) rows w₂.db = 0 :=
    List.countP_eq_zero.2 fun r hr => by simpa using hsettled₂ r hr
  obtain ⟨w', hloop, -, hfetched, hothers⟩ := (turns_secretKey hK hnonempty hH).forM (hashes_nodup hH hperm)
    ⟨hlinked₂, hD, n, hfresh₂, hnothing.le.trans (Nat.zero_le n)⟩ fun r hr => (hsettled₂ r hr).unlocks
  refine ⟨w', hrun.trans hloop, fun squeakHash => ?_⟩
  rw [← hfirst]
  by_cases hmem : squeakHash ∈ rows.map SqueakRow.hash
  · obtain ⟨r, hr, rfl⟩ := List.mem_map.1 hmem
    exact (hsettled₂ r hr).eq (hfetched r hr)
  · exact hothers squeakHash hmem

/-- A sync for more authors than the server's database has variables raises before it downloads anything. -/
theorem run_refused (hC : L.CodecLaws) (hH : HonestPeer S N peer page clientHost server I during D)
    (minBlock maxBlock : Int) {pubkeys : List L.PublicKey} (hne : pubkeys ≠ [])
    (hmany : S.sqlite.maxVariableNumber < pubkeys.length + 2) (w : World ρ) : ∃ e w',
      (PeerClient.lookup N peer minBlock maxBlock pubkeys).run w = (.error e, w') ∧
      (PeerDownloader.downloadInterestRange N peer minBlock maxBlock pubkeys).run w = (.error e, w') := by
  obtain ⟨e, hgot⟩ := gotLookup_refused hC hH.serves hH.errorPage minBlock maxBlock hmany hne w.env
  have hlookup := run_clientLookup N peer w minBlock maxBlock pubkeys
  rw [hgot] at hlookup
  refine ⟨e, _, hlookup, ?_⟩
  rw [PeerDownloader.downloadInterestRange_eq]
  exact Prog.run_bind_of_error hlookup

/-- A sync with an honest peer is complete when it returns, and it returns when the server's database takes the lookup
and each key that is given away opens its squeak. -/
theorem sync_complete (hC : L.CodecLaws) (hK : L.KeyLaws) (hnonempty : ∀ squeak, getHash L squeak ≠ []) {w : World ρ}
    (hH : HonestPeer S N peer page clientHost server I during (server w.env).db)
    (hlinked : Linked L server I during (server w.env).db w) {minBlock maxBlock : Int} {pubkeys : List L.PublicKey}
    (hne : pubkeys ≠ []) (hroom : Room N (matching minBlock maxBlock pubkeys (server w.env).db) w.db)
    (hfresh : I.fresh (matching minBlock maxBlock pubkeys (server w.env).db).length (server w.env).env) :
    let D := (server w.env).db
    let sync := PeerDownloader.downloadInterestRange N peer minBlock maxBlock pubkeys
    (∀ squeakHashes w₁, (PeerClient.lookup N peer minBlock maxBlock pubkeys).run w = (.ok squeakHashes, w₁) →
      ∀ squeakHash ∈ squeakHashes, ∃ squeak w₂, (PeerClient.getSqueak N peer squeakHash).run w₁ =
        (.ok (some squeak), w₂) ∧
        PeerDownloader.wanted squeakHash (some minBlock) (some maxBlock) (some pubkeys) squeak = true) ∧
    ((sync.run w).1 = .ok () ↔ pubkeys.length + 2 ≤ S.sqlite.maxVariableNumber ∧
      ∀ r ∈ matching minBlock maxBlock pubkeys D, Opens L (sellPriceMsat S D) r w.db) ∧
    ((sync.run w).1 = .ok () →
      (∀ r ∈ matching minBlock maxBlock pubkeys D, Brought L peer during (sellPriceMsat S D) r w.db (sync.run w).2.db) ∧
      (sync.run (sync.run w).2).1 = .ok () ∧
      ∀ squeakHash, entry squeakHash (sync.run (sync.run w).2).2.db = entry squeakHash (sync.run w).2.db) := by
  intro D sync
  by_cases hkeys : pubkeys.length + 2 ≤ S.sqlite.maxVariableNumber
  swap
  · obtain ⟨e, w', hlookup, hrun⟩ := run_refused hC hH minBlock maxBlock hne (not_le.1 hkeys) w
    have hraises : (sync.run w).1 ≠ .ok () := fun h => by
      rw [hrun] at h
      cases h
    refine ⟨fun squeakHashes w₁ h => ?_, ⟨fun h => absurd h hraises, fun h => absurd h.1 hkeys⟩,
      fun h => absurd h hraises⟩
    rw [hlookup] at h
    cases h
  obtain ⟨rows, env, w₂, hperm, hlookup, henv, hrun, hlinked₂, hfresh₂, hstored, hother⟩ :=
    run_downloadInterestRange hC hnonempty hH hlinked hne hkeys hroom hfresh
  have hnodup := hashes_nodup hH hperm
  have hturns := turns_secretKey hK hnonempty hH
  have hD : ∀ r ∈ rows, r ∈ D.squeaks := fun r hr => (List.mem_filter.1 (hperm.mem_iff.1 hr)).1
  -- the first loop does not change what unlocks a squeak
  have hopens : (∀ r ∈ rows, Unlocks L (sellPriceMsat S D) r (entry r.hash w₂.db)) ↔
      ∀ r ∈ matching minBlock maxBlock pubkeys D, Opens L (sellPriceMsat S D) r w.db := by
    constructor
    · intro h r hr
      have hr' := hperm.mem_iff.2 hr
      exact ((hstored r hr').unlocks_iff hC _).1 (h r hr')
    · intro h r hr
      exact ((hstored r hr).unlocks_iff hC _).2 (h r (hperm.mem_iff.1 hr))
  have hsupplied : Supplied I server peer during (sellPriceMsat S D) rows w₂ :=
    ⟨_, hfresh₂, List.countP_le_length.trans hperm.length_eq.le⟩
  -- so the second loop gets through when it started with what it needs
  have hsecond : (∀ r ∈ rows, Unlocks L (sellPriceMsat S D) r (entry r.hash w₂.db)) → _ :=
    hturns.forM hnodup ⟨hlinked₂, hD, hsupplied⟩
  refine ⟨fun squeakHashes w₁ hlisted squeakHash hmem => ?_, ?_, ?_⟩
  · rw [hlookup] at hlisted
    cases hlisted
    obtain ⟨r, hr, rfl⟩ := List.mem_map.1 hmem
    obtain ⟨squeak, hrow, hrne, hserver⟩ := hH.row hnonempty (hD r hr)
    have hget := run_clientGetSqueak N peer r.hash { w with env := env }
    rw [(gotSqueak_served hC hH.serves hrne (hserver (hlinked.env henv)) hrow.bytes).1] at hget
    exact ⟨squeak, _, hget, wanted_of_matching hC (hperm.mem_iff.1 hr) hrow⟩
  · rw [hrun, ← hopens, and_iff_right hkeys]
    constructor
    · intro hok
      exact hturns.good_of_ok hnodup ⟨hlinked₂, hD, hsupplied⟩ hok
    · intro hgood
      obtain ⟨w', hloop, -⟩ := hsecond hgood
      rw [hloop]
  · intro hok
    rw [hrun] at hok
    obtain ⟨w', hloop, ⟨hlinked', -, _, hfresh', -⟩, hfetched, hothers⟩ := hsecond
      (hturns.good_of_ok hnodup ⟨hlinked₂, hD, hsupplied⟩ hok)
    have hend : sync.run w = (.ok (), w') := hrun.trans hloop
    rw [hend]
    have hbrought : ∀ r ∈ matching minBlock maxBlock pubkeys D,
        Brought L peer during (sellPriceMsat S D) r w.db w'.db := by
      intro r hr
      have hr' := hperm.mem_iff.2 hr
      exact (hfetched r hr').brought hC hlinked.steady (hstored r hr')
    have hheld : ∀ r ∈ matching minBlock maxBlock pubkeys D, findSqueak r.hash w'.db ≠ none := by
      intro r hr
      obtain ⟨x, hx, -⟩ := (hbrought r hr).held
      rw [hx]
      exact Option.some_ne_none x
    have hsettled : ∀ r ∈ matching minBlock maxBlock pubkeys D,
        Settled peer during (sellPriceMsat S D) r (entry r.hash w'.db) := fun r hr =>
      (hfetched r (hperm.mem_iff.2 hr)).settled fun o ho => hlinked₂.steady o (List.mem_filter.1 ho).1
    -- after that a download finds everything in place
    obtain ⟨w'', hagain, hsame⟩ := run_settled hC hK hnonempty hH hlinked' hne hkeys hfresh' hheld hsettled
    have hagain : sync.run w' = (.ok (), w'') := hagain
    refine ⟨hbrought, ?_⟩
    simp only [hagain]
    exact ⟨trivial, hsame⟩

end Sync

namespace Sample

/-- A lightning node that makes an invoice for every preimage for which it has none. -/
def openLightning : LightningClient Outside where
  createInvoice preimage amountMsat o :=
    let invoice : Invoice :=
      ⟨0 :: preimage, String.ofList (List.replicate (o.invoices.length + 1) 'i'), amountMsat, false, 0, 1000, 3600⟩
    if o.invoices.any fun i => i.1.rHash == 0 :: preimage then
      (.error (.client "invoice with payment hash already exists"), o)
    else (.ok invoice, { o with invoices := (invoice, preimage) :: o.invoices })
  decodePayReq := lightningClient.decodePayReq
  payInvoice := lightningClient.payInvoice
  getInfo := lightningClient.getInfo

/-- A server that asks 1000 for a key, and counts its nonces. -/
def market : Node squeaklib Outside :=
  { node 2 with generateTweak := fun o => (scalarToBytes (o.invoices.length + 1), o), lightningClient := openLightning }

/-- A client of that server, whose world is the world outside of the client. -/
def syncing : Node squeaklib (World Outside) where
  maxSqueaks := 2
  maxSqueaksPerPublicKeyPerBlock := 1
  squeakRetentionS := 60
  sentOfferRetentionS := 60
  priceMsat := 0
  lndExternalHost := ""
  lndPort := 9735
  timestampNowMs w := (1000000, w)
  generateTweak w := ([], w)
  makeSqueakFromStr _ _ _ _ _ _ _ w := (.error (.squeaklib ""), w)
  bitcoinClient := ⟨fun height w => ((bitcoinClient.getBlockInfoByHeight height w.env).1, w),
    fun w => ((bitcoinClient.getBestBlockInfo w.env).1, w)⟩
  lightningClient := ⟨fun _ _ w => (.error (.client ""), w), fun paymentRequest w =>
    ((openLightning.decodePayReq paymentRequest w.env).1, w), fun _ w => (.error (.client ""), w),
    fun w => (.error (.client ""), w)⟩
  requestsGet _ request w := (App.serve market (fun _ => []) "buyer" request).run w
  json := jsonText
  sqlite := sqlite

/-- The nonces are good while all invoices were made with them and the key 5, and are fewer than 200. -/
def invoicing : Invoicing Outside where
  paymentHash preimage := 0 :: preimage
  issued o h := ∃ i ∈ o.invoices, i.1.rHash = h
  foreign _ := False
  invoiced o i amountMsat := ∃ preimage, o.find i.paymentRequest = some (i, preimage) ∧ i.valueMsat = amountMsat ∧
    i.creationDate = 1000 ∧ i.expiry = 3600
  fresh n o := o.invoices.length + n ≤ 200 ∧
    ∀ i ∈ o.invoices, ∃ j ≤ o.invoices.length, i.1.rHash = 0 :: scalarToBytes (5 + j)

theorem createInvoice_open {o o' : Outside} {preimage : Bytes} {amountMsat : Int} {i : Invoice}
    (h : openLightning.createInvoice preimage amountMsat o = (.ok i, o')) :
    (∀ j ∈ o.invoices, j.1.rHash ≠ 0 :: preimage) ∧
      i = ⟨0 :: preimage, String.ofList (List.replicate (o.invoices.length + 1) 'i'), amountMsat, false, 0, 1000, 3600⟩ ∧
      o' = { o with invoices := (i, preimage) :: o.invoices } := by
  simp only [openLightning] at h
  split at h
  · cases h
  · rename_i hnew
    cases h
    refine ⟨fun j hj heq => hnew (List.any_eq_true.2 ⟨j, hj, beq_iff_eq.2 heq⟩), rfl, rfl⟩

theorem issuesOnce_market : IssuesOnce market invoicing.issued where
  clock _ _ h := h
  nonce _ _ h := h
  info _ _ h := h
  invoice o preimage amountMsat i o' h := by
    obtain ⟨hnew, rfl, rfl⟩ := createInvoice_open h
    refine ⟨?_, ⟨_, List.mem_cons_self, rfl⟩, ?_⟩
    · rintro ⟨j, hj, heq⟩
      exact hnew j hj heq
    · rintro h ⟨j, hj, heq⟩
      exact ⟨j, List.mem_cons_of_mem _ hj, heq⟩

/-- The row of the squeak of author 2, unlocked. -/
def secondRow : SqueakRow :=
  { SqueakDb.squeakRow squeaklib 1000000 squeak₂.val.reverse squeak₂ ⟨4200⟩ with
    secretKey := some (scalarToBytes 5), content := some "y" }

/-- The server's world: two squeaks, and no invoice yet. -/
def selling : World Outside :=
  ⟨{ Db.empty with squeaks := [unlockedRow (scalarToBytes 5) "x", secondRow] }, ⟨1000000, []⟩⟩

theorem mem_selling {r : SqueakRow} (hr : r ∈ selling.db.squeaks) :
    r = unlockedRow (scalarToBytes 5) "x" ∨ r = secondRow := by
  rcases List.mem_cons.1 hr with hr | hr
  · exact .inl hr
  · exact .inr (List.mem_singleton.1 hr)

theorem scalarToBytes_inj {x y : Nat} (hx : x < order) (hy : y < order) (h : scalarToBytes x = scalarToBytes y) :
    x = y := by
  have hparse := scalarFromBytes_scalarToBytes hx
  rw [h, scalarFromBytes_scalarToBytes hy] at hparse
  exact (Except.ok.inj hparse).symm

theorem addTweak_scalars {x y : Nat} (hx : x < order) (hy : y < order) :
    SecretKeys.addTweak squeaklib (scalarToBytes x) (scalarToBytes y) = .ok (scalarToBytes ((x + y) % order)) := by
  show (scalarFromBytes (scalarToBytes x) >>= fun x => scalarFromBytes (scalarToBytes y) >>= fun y => _) = _
  rw [scalarFromBytes_scalarToBytes hx, scalarFromBytes_scalarToBytes hy]
  rfl

theorem sells : Sells market invoicing selling.db where
  once := issuesOnce_market
  makes o preimage _ hnew := by
    have hnone : (o.invoices.any fun i => i.1.rHash == 0 :: preimage) = false := by
      rw [List.any_eq_false]
      exact fun j hj heq => hnew ⟨j, hj, beq_iff_eq.1 heq⟩
    show ∃ invoice, (openLightning.createInvoice preimage _ o).1 = .ok invoice
    simp only [openLightning, hnone, Bool.false_eq_true, if_false, Except.ok.injEq, exists_eq']
  made o preimage amountMsat i o' h := by
    obtain ⟨-, rfl, rfl⟩ := createInvoice_open h
    exact ⟨rfl, preimage, by simp [Outside.find], rfl, rfl, rfl⟩
  draws n o hfresh r hr k hk := by
    obtain ⟨hroom, hearlier⟩ := hfresh
    have hkey : k = scalarToBytes 5 := by
      rcases mem_selling hr with rfl | rfl <;> exact (Option.some.inj hk).symm
    have hsum : (5 + (o.invoices.length + 1)) % order = 5 + (o.invoices.length + 1) :=
      Nat.mod_eq_of_lt (by unfold order; omega)
    refine ⟨scalarToBytes (5 + (o.invoices.length + 1)), ?_, rfl, ?_, fun h => h, fun i o' hi => ?_⟩
    · rw [hkey, ← hsum]
      exact addTweak_scalars (by decide) (by unfold order; omega)
    · rintro ⟨i, hi, hhash⟩
      obtain ⟨j, hj, hj'⟩ := hearlier i hi
      have hbytes : scalarToBytes (5 + j) = scalarToBytes (5 + (o.invoices.length + 1)) := by
        have hcons := hj'.symm.trans hhash
        exact (List.cons.inj hcons).2
      have hsame := scalarToBytes_inj (by unfold order; omega) (by unfold order; omega) hbytes
      omega
    · obtain ⟨-, rfl, rfl⟩ := createInvoice_open hi
      refine ⟨?_, fun i hi => ?_⟩
      · show (o.invoices.length + 1) + n ≤ 200
        omega
      · rcases List.mem_cons.1 hi with rfl | hi
        · exact ⟨o.invoices.length + 1, le_rfl, rfl⟩
        · obtain ⟨j, hj, hhash⟩ := hearlier i hi
          exact ⟨j, hj.trans (Nat.le_succ _), hhash⟩
  clock _ _ _ h := h
  info _ _ _ h := h
  clockFresh _ _ h := h
  infoFresh _ _ h := h
  address o := by
    have hparse : SqueakCore.parseLndUri "seller@lnd:9735" = .ok ⟨"lnd", 9735⟩ := by rfl
    refine ⟨some ⟨"lnd", 9735⟩, congrArg (some <$> ·) hparse, fun address h => ?_⟩
    cases h
    rfl

theorem rowOf_unlockedRow : RowOf squeaklib squeak (unlockedRow (scalarToBytes 5) "x") where
  bytes := rfl
  hash := rfl
  checked := rfl
  replyHash := rfl
  blockHash := rfl
  blockHeight := rfl
  timeS := rfl
  author := rfl
  recipient := rfl
  key k hk := by
    cases hk
    decide

theorem rowOf_secondRow : RowOf squeaklib squeak₂ secondRow where
  bytes := rfl
  hash := rfl
  checked := rfl
  replyHash := rfl
  blockHash := rfl
  blockHeight := rfl
  timeS := rfl
  author := rfl
  recipient := rfl
  key k hk := by
    cases hk
    decide

theorem readsNumbers : sqlite.ReadsNumbers := by
  intro n
  refine ⟨n, ?_, fun height _ => ⟨Int.cast_le, Int.cast_le⟩⟩
  show (pythonInt (toString n)).toOption.map (fun n => (n : Rat)) = some (n : Rat)
  rw [pythonInt_toString]
  rfl

theorem honestPeer :
    HonestPeer market syncing listing (fun _ => []) "buyer" id invoicing (· = 1000000) selling.db where
  serves := ⟨fun _ _ => rfl, fun _ _ => rfl, fun _ => rfl, fun _ _ => rfl, fun _ _ => rfl⟩
  sells := sells
  decodes env i amountMsat h := by
    obtain ⟨preimage, hfind, hamount, hcreated, hexpiry⟩ := h
    refine ⟨⟨i.rHash, [], i.valueMsat, "seller", i.creationDate, i.expiry⟩, ?_, rfl, hamount, ?_⟩
    · show (openLightning.decodePayReq i.paymentRequest env.env).1 = _
      simp only [openLightning, lightningClient]
      rw [show env.env.find i.paymentRequest = some (i, preimage) from hfind]
    · rintro t rfl
      show (1000000 : Int) < 1000 * (i.creationDate + i.expiry)
      rw [hcreated, hexpiry]
      decide
  codec := jsonText_laws
  sameCodec := rfl
  errorPage squeakHashes h := by cases h
  numeric := readsNumbers
  heights r hr := by
    rcases mem_selling hr with rfl | rfl <;> exact ⟨by decide, by decide⟩
  clock _ := rfl
  chain r hr env := by
    rcases mem_selling hr with rfl | rfl <;> exact ⟨_, rfl, rfl⟩
  unique := show (selling.db.squeaks.map SqueakRow.hash).Nodup by decide
  rows r hr := by
    rcases mem_selling hr with rfl | rfl
    · exact ⟨squeak, rowOf_unlockedRow⟩
    · exact ⟨squeak₂, rowOf_secondRow⟩
  price := by decide

theorem linked : Linked squeaklib id invoicing (· = 1000000) selling.db ⟨.empty, selling⟩ where
  squeaks := rfl
  configs := rfl
  sent r hr := by cases hr
  received o ho := by cases ho
  steady o ho := by cases ho
  readable r hr := by cases hr

/-- The authors of the two squeaks. -/
def authors : List squeaklib.PublicKey := [(1 : UInt8), (2 : UInt8)]

theorem authors_ne_nil : authors ≠ [] := List.cons_ne_nil _ _

theorem getHash_ne_nil (s : squeaklib.CSqueak) : getHash squeaklib s ≠ [] := by
  intro h
  have hlen : s.val.reverse.length = 0 := congrArg List.length h
  rw [List.length_reverse, s.property] at hlen
  cases hlen

theorem fresh : invoicing.fresh (matching 1 10 authors selling.db).length selling.env :=
  ⟨by decide, fun i hi => by cases hi⟩

theorem room : Room syncing (matching 1 10 authors selling.db) .empty := by
  intro r hr
  have hmem := (List.mem_filter.1 (List.mem_filter.1 hr).1).1
  rcases mem_selling hmem with rfl | rfl <;> decide

/-- The world of the client after it has downloaded from that server. -/
def synced : World (World Outside) :=
  ((PeerDownloader.downloadInterestRange syncing listing 1 10 authors).run ⟨.empty, selling⟩).2

end Sample

/-- The client of the sample ends with both squeaks of the server and one offer for the key of each. -/
theorem sync_complete_sample :
    Brought Sample.squeaklib Sample.listing (· = 1000000) (sellPriceMsat Sample.market Sample.selling.db)
      (Sample.unlockedRow (Sample.scalarToBytes 5) "x") .empty Sample.synced.db ∧
    Brought Sample.squeaklib Sample.listing (· = 1000000) (sellPriceMsat Sample.market Sample.selling.db)
      Sample.secondRow .empty Sample.synced.db := by
  obtain ⟨-, hreturns, hbrought⟩ := sync_complete (w := ⟨.empty, Sample.selling⟩) Sample.codecLaws Sample.keyLaws
    Sample.getHash_ne_nil Sample.honestPeer Sample.linked Sample.authors_ne_nil Sample.room Sample.fresh
  have hprice : sellPriceMsat Sample.market Sample.selling.db ≠ 0 := by decide
  have hok := hreturns.2 ⟨by decide, fun r _ hzero => absurd hzero hprice⟩
  have hmatch : ∀ r ∈ Sample.selling.db.squeaks, r ∈ matching 1 10 Sample.authors Sample.selling.db := by decide
  have hall := (hbrought hok).1
  unfold Sample.synced
  constructor
  · exact hall _ (hmatch _ (by decide))
  · exact hall _ (hmatch _ (by decide))

end Squeaknode
