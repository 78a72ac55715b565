/-
The two loops of a sync with an honest peer, turn by turn: a turn of the first loop stores a squeak
that was missing, a turn of the second fetches its key or an offer for it, and each changes what the
store has about its own hash only.
-/
import Squeaknode.Client.ServedPeer

namespace Squeaknode

open Interleave Relational SqueakDb

variable {L : Squeaklib} {σ ρ : Type}

/-! ## The assumptions -/

/-- What the two nodes are to each other while the client syncs at times in `during`. `D` is the
database of the server: its squeaks are sound, and the client's bitcoin client has their blocks. -/
structure HonestPeer (S : Node L σ) (N : Node L ρ) (peer : SqueakPeer) (page : Nat → Bytes) (clientHost : String)
    (server : ρ → World σ) (I : Invoicing σ) (during : Int → Prop) (D : Db) : Prop where
  serves : Serves S N peer page clientHost server
  sells : Sells S I D
  decodes : Decodes N server I during
  codec : S.json.Laws
  sameCodec : N.json = S.json
  /-- the page of the server for an error is no list of hashes -/
  errorPage : ∀ squeakHashes, PeerClient.parseLookup N.json (page 500) ≠ .ok squeakHashes
  numeric : S.sqlite.ReadsNumbers
  heights : ∀ r ∈ D.squeaks, IsHeight r.blockHeight
  clock : ∀ env, during (N.timestampNowMs env).1
  chain : ∀ r ∈ D.squeaks, ∀ env, ∃ info, (N.bitcoinClient.getBlockInfoByHeight r.blockHeight env).1 = .ok info ∧
    info.blockHash = r.blockHash
  unique : UniqueOn SqueakRow.hash D.squeaks
  rows : ∀ r ∈ D.squeaks, ∃ squeak, RowOf L squeak r
  price : 0 ≤ sellPriceMsat S D

/-- The rows whose squeaks the client does not have. -/
def missing (rows : List SqueakRow) (db : Db) : List SqueakRow := rows.filter fun r => (findSqueak r.hash db).isNone

/-- The limits leave room for all the squeaks that the client does not have. -/
def Room (N : Node L ρ) (rows : List SqueakRow) (db : Db) : Prop :=
  ∀ r ∈ missing rows db,
    (SqueakDb.getNumberOfSqueaks db + (missing rows db).length : Int) ≤ N.maxSqueaks ∧
    (SqueakDb.numberOfSqueaksWithPublicKeyWithBlockHeight r.authorPublicKey r.blockHeight db +
      ((missing rows db).filter fun r' =>
        r'.authorPublicKey == r.authorPublicKey && r'.blockHeight == r.blockHeight).length :
        Int) ≤ N.maxSqueaksPerPublicKeyPerBlock

/-! ## Room -/

theorem missing_cons_of_some {r : SqueakRow} {rows : List SqueakRow} {db : Db} (h : findSqueak r.hash db ≠ none) :
    missing (r :: rows) db = missing rows db := by
  rcases hr : findSqueak r.hash db with _ | x
  · exact absurd hr h
  · simp [missing, hr]

theorem missing_cons_of_none {r : SqueakRow} (rows : List SqueakRow) {db : Db} (h : findSqueak r.hash db = none) :
    missing (r :: rows) db = r :: missing rows db := by
  simp [missing, h]

/-- A squeak that was inserted is no longer missing; the others still are. -/
theorem missing_insert {r new : SqueakRow} {rows : List SqueakRow} {db : Db} (hnotin : r.hash ∉ rows.map SqueakRow.hash)
    (hnew : new.hash = r.hash) : missing rows { db with squeaks := db.squeaks ++ [new] } = missing rows db := by
  refine List.filter_congr fun r' hr' => ?_
  have hne : new.hash ≠ r'.hash := by
    intro heq
    rw [hnew] at heq
    exact hnotin (heq ▸ List.mem_map_of_mem hr')
  rw [findSqueak_append, if_neg hne, Option.or_none]

theorem Room.hasRoom {N : Node L ρ} {r : SqueakRow} {rows : List SqueakRow} {squeak : L.CSqueak} {db : Db}
    (h : Room N (r :: rows) db) (hr : findSqueak r.hash db = none) (hrow : RowOf L squeak r) : HasRoom N squeak db := by
  have hmissing := missing_cons_of_none rows hr
  obtain ⟨htotal, hblock⟩ := h r (by rw [hmissing]; exact List.mem_cons_self)
  rw [hmissing] at htotal hblock
  rw [List.filter_cons_of_pos (by simp)] at hblock
  simp only [List.length_cons, hrow.author, hrow.blockHeight] at htotal hblock
  constructor <;> omega

theorem Room.tail {N : Node L ρ} {r : SqueakRow} {rows : List SqueakRow} {db : Db} (h : Room N (r :: rows) db)
    (hr : findSqueak r.hash db ≠ none) : Room N rows db := by
  unfold Room at h ⊢
  rwa [missing_cons_of_some hr] at h

theorem Room.insert {N : Node L ρ} {r new : SqueakRow} {rows : List SqueakRow} {db : Db} (h : Room N (r :: rows) db)
    (hr : findSqueak r.hash db = none) (hnotin : r.hash ∉ rows.map SqueakRow.hash) (hnew : new.hash = r.hash)
    (hauthor : new.authorPublicKey = r.authorPublicKey) (hheight : new.blockHeight = r.blockHeight) :
    Room N rows { db with squeaks := db.squeaks ++ [new] } := by
  intro r' hr'
  rw [missing_insert hnotin hnew] at hr' ⊢
  have hmissing := missing_cons_of_none rows hr
  obtain ⟨htotal, hblock⟩ := h r' (by rw [hmissing]; exact List.mem_cons_of_mem r hr')
  rw [hmissing] at htotal hblock
  constructor
  · simp only [getNumberOfSqueaks, List.length_append, List.length_cons, List.length_nil] at htotal ⊢
    push_cast at htotal ⊢
    omega
  · simp only [numberOfSqueaksWithPublicKeyWithBlockHeight, List.filter_append, List.length_append, List.filter_cons,
      List.filter_nil, hauthor, hheight] at hblock ⊢
    rcases hsame : r.authorPublicKey == r'.authorPublicKey && r.blockHeight == r'.blockHeight with _ | _
    all_goals
      simp only [hsame, if_true, Bool.false_eq_true, if_false, List.length_cons, List.length_nil] at hblock ⊢
      omega

theorem Room.perm {N : Node L ρ} {rows rows' : List SqueakRow} {db : Db} (h : Room N rows db)
    (hperm : rows'.Perm rows) :
    Room N rows' db := by
  have hmissing : (missing rows' db).Perm (missing rows db) := hperm.filter _
  intro r hr
  obtain ⟨htotal, hblock⟩ := h r (hmissing.mem_iff.1 hr)
  rw [hmissing.length_eq, (hmissing.filter _).length_eq]
  exact ⟨htotal, hblock⟩

/-! ## The entry of a hash -/

/-- What the store has about one squeak. -/
structure Entry where
  row : Option SqueakRow
  offers : List ReceivedOfferRow

/-- What the store has for a hash. -/
def entry (squeakHash : Bytes) (db : Db) : Entry where
  row := findSqueak squeakHash db
  offers := db.receivedOffers.rows.filter fun o => o.squeakHash == squeakHash

/-- The unpaid offers of the peer that have not expired. -/
def live (peer : SqueakPeer) (now : Int) (offers : List ReceivedOfferRow) : List ReceivedOfferRow :=
  offers.filter fun o =>
    !o.paid && !receivedOfferInvoiceIsExpired now o && (parseReceivedOffer o).peerAddress == peer.address

theorem hasOffer_eq (peer : SqueakPeer) (squeakHash : Bytes) (now : Int) (db : Db) :
    hasOffer peer squeakHash now db = !(live peer now (entry squeakHash db).offers).isEmpty := by
  unfold hasOffer SqueakDb.getReceivedOffers live entry
  rw [List.any_map, List.filter_filter, Bool.eq_iff_iff]
  simp only [List.any_eq_true, Bool.not_eq_true', List.isEmpty_eq_false_iff_exists_mem, List.mem_filter,
    Function.comp_apply, Bool.and_eq_true]
  constructor
  · rintro ⟨o, ⟨ho, ⟨hhash, hpaid⟩, hlive⟩, hpeer⟩
    exact ⟨o, ho, ⟨⟨hpaid, hlive⟩, hpeer⟩, hhash⟩
  · rintro ⟨o, ho, ⟨⟨hpaid, hlive⟩, hpeer⟩, hhash⟩
    exact ⟨o, ⟨ho, ⟨hhash, hpaid⟩, hlive⟩, hpeer⟩

theorem entry_insertSqueak {r : SqueakRow} (other : Bytes) (db : Db) :
    entry other { db with squeaks := db.squeaks ++ [r] } =
      ⟨(findSqueak other db).or (if r.hash = other then some r else none), (entry other db).offers⟩ := by
  unfold entry
  rw [findSqueak_append]

theorem entry_withKey_ne {squeakHash other : Bytes} (hne : other ≠ squeakHash) (key : Bytes) (squeak : L.CSqueak)
    (db : Db) :
    entry other (withKey L squeakHash key squeak db) = entry other db := by
  have hoffers : (withKey L squeakHash key squeak db).receivedOffers = db.receivedOffers := by rw [withKey_eq]
  unfold entry
  rw [findSqueak_withKey_ne hne, hoffers]

theorem entry_withKey {squeakHash : Bytes} {r : SqueakRow} {db : Db} (hr : findSqueak squeakHash db = some r)
    (key : Bytes) (squeak : L.CSqueak) :
    entry squeakHash (withKey L squeakHash key squeak db) =
      ⟨some (rowWithKey L key squeak r), (entry squeakHash db).offers⟩ := by
  have hoffers : (withKey L squeakHash key squeak db).receivedOffers = db.receivedOffers := by rw [withKey_eq]
  unfold entry
  rw [findSqueak_withKey hr, hoffers]

theorem entry_insertOffer (other : Bytes) (o : ReceivedOfferRow) (lastId : Nat) (db : Db) :
    entry other { db with receivedOffers := ⟨db.receivedOffers.rows ++ [o], lastId⟩ } =
      ⟨(entry other db).row, (entry other db).offers ++ if o.squeakHash = other then [o] else []⟩ := by
  unfold entry
  rw [List.filter_append]
  by_cases h : o.squeakHash = other <;> simp [h, findSqueak]

/-! ## What stays true during the sync -/

/-- The server's squeaks and settings are those of `D`; the offers that it sent have invoices of its lightning node,
those that the client received have invoices of that node or of another one, and none of them expires meanwhile. -/
structure Linked (L : Squeaklib) (server : ρ → World σ) (I : Invoicing σ) (during : Int → Prop) (D : Db)
    (w : World ρ) : Prop where
  squeaks : (server w.env).db.squeaks = D.squeaks
  configs : (server w.env).db.configs = D.configs
  sent : OffersIssued I.issued (server w.env)
  received : ∀ o ∈ w.db.receivedOffers.rows, I.issued (server w.env).env o.paymentHash ∨ I.foreign o.paymentHash
  steady : ∀ o ∈ w.db.receivedOffers.rows, ∀ t t', during t → during t' →
    receivedOfferInvoiceIsExpired t o = receivedOfferInvoiceIsExpired t' o
  readable : Readable L w.db

section Linked

variable {S : Node L σ} {N : Node L ρ} {server : ρ → World σ} {I : Invoicing σ} {during : Int → Prop} {D : Db} {w : World ρ}

theorem Linked.find (h : Linked L server I during D w) (squeakHash : Bytes) :
    findSqueak squeakHash (server w.env).db = findSqueak squeakHash D := by
  unfold findSqueak
  rw [h.squeaks]

theorem Linked.price (h : Linked L server I during D w) (S : Node L σ) :
    sellPriceMsat S (server w.env).db = sellPriceMsat S D := by
  unfold sellPriceMsat getConfigSellPriceMsat
  rw [h.configs]

/-- A call that leaves the server and the store alone. -/
theorem Linked.env (h : Linked L server I during D w) {env : ρ} (henv : server env = server w.env) :
    Linked L server I during D { w with env := env } where
  squeaks := by rw [henv]; exact h.squeaks
  configs := by rw [henv]; exact h.configs
  sent := by rw [henv]; exact h.sent
  received := by rw [henv]; exact h.received
  steady := h.steady
  readable := h.readable

/-- A statement that changes the squeaks of the store. -/
theorem Linked.squeaksChanged (h : Linked L server I during D w) {db : Db}
    (hoffers : db.receivedOffers = w.db.receivedOffers) (hread : Readable L db) :
    Linked L server I during D { w with db := db } where
  squeaks := h.squeaks
  configs := h.configs
  sent := h.sent
  received := by rw [hoffers]; exact h.received
  steady := by rw [hoffers]; exact h.steady
  readable := hread

end Linked

/-! ## The first loop -/

section Loops

variable {S : Node L σ} {N : Node L ρ} {peer : SqueakPeer} {page : Nat → Bytes} {clientHost : String}
  {server : ρ → World σ} {I : Invoicing σ} {during : Int → Prop} {D : Db}

/-- The entry after a turn of the first loop: a squeak that was missing is there. -/
structure Stored (L : Squeaklib) (r : SqueakRow) (e e' : Entry) : Prop where
  offers : e'.offers = e.offers
  kept : ∀ x, e.row = some x → e'.row = some x
  new : e.row = none → ∃ squeak now header, RowOf L squeak r ∧
    e'.row = some (squeakRow L now (getHash L squeak) squeak header)

/-- The client wants every squeak that the server lists. -/
theorem wanted_of_matching (hC : L.CodecLaws) {minBlock maxBlock : Int} {pubkeys : List L.PublicKey} {r : SqueakRow}
    {squeak : L.CSqueak} (hr : r ∈ matching minBlock maxBlock pubkeys D) (hrow : RowOf L squeak r) :
    PeerDownloader.wanted r.hash (some minBlock) (some maxBlock) (some pubkeys) squeak = true := by
  simp only [matching, List.mem_filter, decide_eq_true_eq] at hr
  obtain ⟨-, hauthor, hmin, hmax⟩ := hr
  rw [hrow.blockHeight] at hmin hmax
  obtain ⟨p, hp, hbytes⟩ := List.mem_map.1 hauthor
  -- the bytes of a public key determine it
  have hkey : p = L.getPubKey squeak := by
    have hparse := hC.publicKey p
    rw [hbytes, hrow.author, hC.publicKey] at hparse
    exact (Except.ok.inj hparse).symm
  exact wanted_iff.2 ⟨hrow.hash.symm, .inr hmin, .inr hmax, .inr (hkey ▸ hp)⟩

/-- The row and the squeak that the server has for a hash that it lists. -/
theorem HonestPeer.row (hH : HonestPeer S N peer page clientHost server I during D)
    (hnonempty : ∀ squeak, getHash L squeak ≠ []) {r : SqueakRow} (hr : r ∈ D.squeaks) :
    ∃ squeak, RowOf L squeak r ∧ r.hash ≠ [] ∧
      ∀ {w}, Linked L server I during D w → findSqueak r.hash (server w.env).db = some r := by
  obtain ⟨squeak, hrow⟩ := hH.rows r hr
  refine ⟨squeak, hrow, by rw [hrow.hash]; exact hnonempty squeak, fun hlinked => ?_⟩
  rw [hlinked.find]
  exact findBy_eq_some hH.unique hr

/-- A listed squeak that the client does not have is saved. -/
theorem run_downloadSqueak_new (hC : L.CodecLaws)
    (hH : HonestPeer S N peer page clientHost server I during D) {w : World ρ} {minBlock maxBlock : Int}
    {pubkeys : List L.PublicKey} {r : SqueakRow} {squeak : L.CSqueak}
    (hmatch : r ∈ matching minBlock maxBlock pubkeys D) (hrow : RowOf L squeak r) (hne : r.hash ≠ [])
    (hserver : findSqueak r.hash (server w.env).db = some r) (hfind : findSqueak r.hash w.db = none)
    (hroom : HasRoom N squeak w.db) :
    ∃ now header env, server env = server w.env ∧
      (PeerDownloader.downloadSqueak N peer r.hash (some minBlock) (some maxBlock) (some pubkeys)).run w = (.ok (),
        ⟨{ w.db with squeaks := w.db.squeaks ++ [squeakRow L now (getHash L squeak) squeak header] }, env⟩) := by
  let asked := afterRequest N peer (.squeak (hex r.hash)) w
  obtain ⟨hgot, hsame⟩ := gotSqueak_served hC hH.serves hne hserver hrow.bytes
  obtain ⟨info, hinfo, hblock⟩ := hH.chain r (List.mem_filter.1 hmatch).1 asked.env
  have hheader : headerOf N squeak asked.env = .ok info.blockHeader := by
    unfold headerOf
    rw [← hrow.blockHeight, hinfo]
    simp [hblock, hrow.blockHash]
  have hfree : taken SqueakRow.hash (getHash L squeak) w.db.squeaks = false := by
    rw [← hrow.hash]
    exact taken_eq_false.2 (findBy_none.1 hfind)
  have hsave := run_saveSqueak_valid (w := afterRequest N peer (.squeak (hex r.hash)) w) hrow.checked hheader hroom
  let headed := afterHeader N squeak asked
  let new := squeakRow L (N.timestampNowMs headed.env).1 (getHash L squeak) squeak info.blockHeader
  have hinsert : (SqueakDb.insertSqueak new w.db).2 = { w.db with squeaks := w.db.squeaks ++ [new] } := by
    rw [insertSqueak_of_free new hfree]
  have henv : server (N.timestampNowMs headed.env).2 = server w.env := by
    rw [hH.serves.clock]
    exact (hH.serves.chain _ _).trans hsame
  have hrun := run_downloadSqueak N peer r.hash w (some minBlock) (some maxBlock) (some pubkeys)
  simp only [hfind, squeakOfRow, hgot, wanted_of_matching hC hmatch hrow, if_true, hsave] at hrun
  refine ⟨(N.timestampNowMs headed.env).1, info.blockHeader, _, henv, hrun.trans ?_⟩
  rw [← hinsert]
  rfl

/-- A turn of the first loop returns. -/
theorem turns_squeak (hC : L.CodecLaws) (hnonempty : ∀ squeak, getHash L squeak ≠ [])
    (hH : HonestPeer S N peer page clientHost server I during D) (minBlock maxBlock : Int)
    (pubkeys : List L.PublicKey) (n : Nat) :
    Prog.Turns
      (fun r : SqueakRow => PeerDownloader.downloadSqueak N peer r.hash (some minBlock) (some maxBlock) (some pubkeys))
      SqueakRow.hash (fun w k => entry k w.db)
      (fun rows w => Linked L server I during D w ∧ Room N rows w.db ∧
        (∀ r ∈ rows, r ∈ matching minBlock maxBlock pubkeys D) ∧ I.fresh n (server w.env).env)
      (fun _ _ => True) (Stored L) where
  raises _ _ _ _ h := absurd trivial h
  returns := by
    rintro r rows w hnotin ⟨hlinked, hroom, hrows, hfresh⟩ -
    have hmatch : r ∈ matching minBlock maxBlock pubkeys D := hrows r List.mem_cons_self
    have hrest : ∀ r' ∈ rows, r' ∈ matching minBlock maxBlock pubkeys D :=
      fun r' hr' => hrows r' (List.mem_cons_of_mem r hr')
    obtain ⟨squeak, hrow, hne, hserver⟩ := hH.row hnonempty (List.mem_filter.1 hmatch).1
    rcases hfind : findSqueak r.hash w.db with _ | x
    · obtain ⟨now, header, env, henv, hrun⟩ := run_downloadSqueak_new hC hH hmatch hrow hne (hserver hlinked) hfind
        (hroom.hasRoom hfind hrow)
      let new := squeakRow L now (getHash L squeak) squeak header
      have hnew : new.hash = r.hash := hrow.hash.symm
      have hread : Readable L { w.db with squeaks := w.db.squeaks ++ [new] } := by
        intro x hx
        rcases List.mem_append.1 hx with hx | hx
        · exact hlinked.readable x hx
        · rw [List.mem_singleton.1 hx]
          exact ⟨squeak, hC.squeak squeak, rfl⟩
      have hstored : Linked L server I during D { w with db := { w.db with squeaks := w.db.squeaks ++ [new] } } :=
        hlinked.squeaksChanged rfl hread
      refine ⟨_, hrun, ⟨hstored.env henv, ?_, hrest, by rwa [henv]⟩, ?_, ?_⟩
      · exact hroom.insert hfind hnotin hnew hrow.author.symm hrow.blockHeight.symm
      · rw [entry_insertSqueak, hfind, if_pos hnew]
        refine ⟨rfl, fun x hx => ?_, fun _ => ⟨squeak, _, _, hrow, rfl⟩⟩
        rw [show (entry r.hash w.db).row = none from hfind] at hx
        cases hx
      · intro other hother
        rw [entry_insertSqueak, if_neg (by rw [hnew]; exact fun h => hother h.symm), Option.or_none]
        rfl
    · -- the client has the squeak and asks for nothing
      obtain ⟨squeak', hs, -⟩ := hlinked.readable.find hfind
      have hrun := run_downloadSqueak N peer r.hash w (some minBlock) (some maxBlock) (some pubkeys)
      simp only [hfind, squeakOfRow, hs] at hrun
      have hroom' : Room N rows w.db := hroom.tail (by rw [hfind]; exact Option.some_ne_none x)
      refine ⟨w, hrun, ⟨hlinked, hroom', hrest, hfresh⟩, ⟨rfl, fun _ h => h, fun h => ?_⟩, fun _ _ => rfl⟩
      rw [show (entry r.hash w.db).row = some x from hfind] at h
      cases h

/-! ## The second loop -/

/-- The entry after a turn of the second loop, for a squeak that the server has in `r` and sells for
`priceMsat`. -/
inductive Fetched (L : Squeaklib) (peer : SqueakPeer) (during : Int → Prop) (priceMsat : Int) (r : SqueakRow)
    (e : Entry) :
    Entry → Prop
  | missing : e.row = none → Fetched L peer during priceMsat r e e
  | owned {x : SqueakRow} : e.row = some x → ¬ Keyless x → Fetched L peer during priceMsat r e e
  | key {x : SqueakRow} {k : Bytes} {squeak : L.CSqueak} : e.row = some x → Keyless x → priceMsat = 0 →
      r.secretKey = some k → k ≠ [] → L.deserialize x.squeak = .ok squeak → keyOutcome L k squeak = .ok () →
      Fetched L peer during priceMsat r e ⟨some (rowWithKey L k squeak x), e.offers⟩
  | locked : (∀ k, r.secretKey = some k → k = []) → priceMsat = 0 → Fetched L peer during priceMsat r e e
  | offered {t : Int} : during t → 0 < priceMsat → live peer t e.offers ≠ [] → Fetched L peer during priceMsat r e e
  | unsold : r.secretKey = none → 0 < priceMsat → Fetched L peer during priceMsat r e e
  | offer {x : SqueakRow} {t : Int} {o : ReceivedOfferRow} : e.row = some x → Keyless x → r.secretKey ≠ none →
      during t → 0 < priceMsat → live peer t e.offers = [] → o.priceMsat = priceMsat →
      (∀ t, during t → live peer t [o] = [o]) → Fetched L peer during priceMsat r e ⟨e.row, e.offers ++ [o]⟩

/-- The key that the server gives away can be saved, and what it decrypts too. -/
def Unlocks (L : Squeaklib) (priceMsat : Int) (r : SqueakRow) (e : Entry) : Prop :=
  priceMsat = 0 → ∀ x k squeak, e.row = some x → Keyless x → r.secretKey = some k → k ≠ [] →
    L.deserialize x.squeak = .ok squeak → keyOutcome L k squeak = .ok ()

/-- After its turn there is nothing left to bring for a hash. -/
def Settled (peer : SqueakPeer) (during : Int → Prop) (priceMsat : Int) (r : SqueakRow) (e : Entry) : Prop :=
  ∀ x, e.row = some x → Keyless x → (priceMsat = 0 → ∀ k, r.secretKey = some k → k = []) ∧
    (0 < priceMsat → r.secretKey = none ∨ ∀ t, during t → live peer t e.offers ≠ [])

open Classical in
/-- For how many of the rows a turn may have something to bring. -/
noncomputable def unsettled (peer : SqueakPeer) (during : Int → Prop) (priceMsat : Int) (rows : List SqueakRow)
    (db : Db) : Nat :=
  rows.countP fun r => ¬ Settled peer during priceMsat r (entry r.hash db)

/-- There is a good nonce for each of them. -/
def Supplied (I : Invoicing σ) (server : ρ → World σ) (peer : SqueakPeer) (during : Int → Prop) (priceMsat : Int)
    (rows : List SqueakRow) (w : World ρ) : Prop :=
  ∃ n, I.fresh n (server w.env).env ∧ unsettled peer during priceMsat rows w.db ≤ n

section Turn

variable {r x : SqueakRow} {squeak : L.CSqueak} {w : World ρ} {n : Nat}

theorem gotSecretKey_row (hH : HonestPeer S N peer page clientHost server I during D)
    (hlinked : Linked L server I during D w) (hne : r.hash ≠ [])
    (hserver : findSqueak r.hash (server w.env).db = some r) :
    gotSecretKey (N.requestsGet peer.address (.secretKey (hex r.hash)) w.env).1 =
      .ok (if sellPriceMsat S D > 0 then none else r.secretKey.filter fun k => !k.isEmpty) := by
  rw [(gotSecretKey_served hH.serves hne w.env).1]
  unfold keyAnswer SqueakDb.getSqueakSecretKey
  rw [hlinked.price, hserver]
  rfl

/-- A key for free. -/
theorem run_downloadSecretKey_key (hK : L.KeyLaws)
    (hH : HonestPeer S N peer page clientHost server I during D)
    (hlinked : Linked L server I during D w) (hne : r.hash ≠ [])
    (hserver : findSqueak r.hash (server w.env).db = some r) {served : L.CSqueak} (hrow : RowOf L served r)
    {k : Bytes} (hprice : sellPriceMsat S D = 0) (hk : r.secretKey = some k) (hknil : k ≠ [])
    (hfind : findSqueak r.hash w.db = some x) (hs : L.deserialize x.squeak = .ok squeak) (hless : Keyless x) :
    (PeerDownloader.downloadSecretKey N peer r.hash).run w = (keyOutcome L k squeak,
      { afterRequest N peer (.secretKey (hex r.hash)) w with db := withKey L r.hash k squeak w.db }) := by
  have hrun := run_downloadSecretKey N peer r.hash w
  have hgot := gotSecretKey_row hH hlinked hne hserver
  have hfilter : (some k).filter (fun k => !k.isEmpty) = some k := by simpa using hknil
  rw [if_neg (by omega), hk, hfilter] at hgot
  have hhash : getHash L squeak = getHash L served := by
    obtain ⟨squeak', hs', hhash'⟩ := hlinked.readable.find hfind
    rw [hs] at hs'
    cases hs'
    exact hhash'.trans hrow.hash
  have hvalid : L.checkSqueakSecretKey squeak k = .ok () := keyFor_of_check hK (hrow.key k hk) squeak hhash
  simp only [hfind, squeakOfRow, hs, Functor.map, Except.map, Option.bind_some, hgot, hfilter] at hrun
  rw [if_neg (by rw [Bool.not_eq_true, keyless_iff]; exact hless)] at hrun
  rw [hrun]
  exact run_saveSecretKey_valid hfind hs hvalid

/-- No key for free: the client asks for an offer if it has none. -/
theorem run_downloadSecretKey_noKey (hH : HonestPeer S N peer page clientHost server I during D)
    (hlinked : Linked L server I during D w) (hne : r.hash ≠ [])
    (hserver : findSqueak r.hash (server w.env).db = some r)
    (hnone : (if sellPriceMsat S D > 0 then none else r.secretKey.filter fun k => !k.isEmpty) = none)
    (hfind : findSqueak r.hash w.db = some x) (hs : L.deserialize x.squeak = .ok squeak) (hless : Keyless x) :
    (PeerDownloader.downloadSecretKey N peer r.hash).run w =
      let w₂ := beforeOffer N peer r.hash w
      if hasOffer peer r.hash (N.timestampNowMs (afterRequest N peer (.secretKey (hex r.hash)) w).env).1 w.db then
        (.ok (), w₂)
      else match gotOffer N.json (N.requestsGet peer.address (.offer (hex r.hash)) w₂.env).1 with
        | .error e => (.error e, afterRequest N peer (.offer (hex r.hash)) w₂)
        | .ok none => (.ok (), afterRequest N peer (.offer (hex r.hash)) w₂)
        | .ok (some offer) => (SqueakStore.handleOffer N squeak offer peer.address).run
            (afterRequest N peer (.offer (hex r.hash)) w₂) := by
  have hgot := gotSecretKey_row hH hlinked hne hserver
  rw [hnone] at hgot
  rw [run_downloadSecretKey N peer r.hash w]
  simp only [hfind, squeakOfRow, hs, Functor.map, Except.map, Option.bind_some, hgot, Option.filter_none]
  exact (if_neg (by rw [Bool.not_eq_true, keyless_iff]; exact hless)).trans rfl

/-- The world before the client asks for an offer. -/
theorem Linked.beforeOffer (hH : HonestPeer S N peer page clientHost server I during D)
    (hlinked : Linked L server I during D w) (hne : r.hash ≠ []) :
    Linked L server I during D (beforeOffer N peer r.hash w) ∧
      server (Squeaknode.beforeOffer N peer r.hash w).env = server w.env := by
  have henv : server (Squeaknode.beforeOffer N peer r.hash w).env = server w.env :=
    (hH.serves.clock _).trans (gotSecretKey_served hH.serves hne w.env).2
  exact ⟨hlinked.env henv, henv⟩

/-- A new offer of the server is saved. -/
theorem run_handleOffer_new (hH : HonestPeer S N peer page clientHost server I during D)
    (hlinked : Linked L server I during D w) {priceMsat : Int} {offer : Offer} {invoice : Invoice} {env : ρ}
    (hnew : NewOffer I n r.hash priceMsat offer invoice (server w.env) (server env))
    (hhash : getHash L squeak = r.hash) :
    ∃ (o : ReceivedOfferRow) (lastId : Nat) (env' : ρ),
      (SqueakStore.handleOffer N squeak offer peer.address).run { w with env := env } =
        (.ok (), ⟨{ w.db with receivedOffers := ⟨w.db.receivedOffers.rows ++ [o], lastId⟩ }, env'⟩) ∧
      o.squeakHash = r.hash ∧ o.priceMsat = priceMsat ∧ (∀ t, during t → live peer t [o] = [o]) ∧
      I.fresh n (server env').env ∧
      Linked L server I during D ⟨{ w.db with receivedOffers := ⟨w.db.receivedOffers.rows ++ [o], lastId⟩ },
        env'⟩ := by
  obtain ⟨payReq, hdecode, hpayHash, hamount, hexpiry⟩ := hH.decodes env invoice priceMsat hnew.amount
  rw [← hnew.request] at hdecode
  have hdecoded : N.lightningClient.decodePayReq offer.paymentRequest ({ w with env := env } : World ρ).env =
    (.ok payReq, (N.lightningClient.decodePayReq offer.paymentRequest env).2) := Prod.ext hdecode rfl
  obtain ⟨host, haddress⟩ := hnew.address peer.address
  have hrun := run_handleOffer_ok (hhash.trans hnew.squeakHash.symm) hdecoded haddress
  -- the payment hash is new: every stored offer has one that was issued before or is foreign
  have hfree : ∀ o ∈ w.db.receivedOffers.rows,
      o.paymentHash ≠ (receivedOfferOf L squeak offer peer.address payReq).paymentHash := by
    rintro o ho heq
    have hold := hlinked.received o ho
    have hsame : (receivedOfferOf L squeak offer peer.address payReq).paymentHash = invoice.rHash := hpayHash
    rw [heq, hsame] at hold
    exact hold.elim hnew.new hnew.notForeign
  let env₁ := (N.lightningClient.decodePayReq offer.paymentRequest env).2
  have hdb := afterReceivedOffer_free (N := N) (o := receivedOfferOf L squeak offer peer.address payReq)
    (w := { w with env := env₁ }) haddress hfree
  have henv : server (N.timestampNowMs env₁).2 = server env := (hH.serves.clock _).trans (hH.serves.decode _ _)
  let o := receivedOfferRow (N.timestampNowMs env₁).1 (receivedOfferOf L squeak offer peer.address payReq) host
    (w.db.receivedOffers.lastId + 1)
  -- the invoice outlives the download
  have hunexpired : ∀ t, during t → receivedOfferInvoiceIsExpired t o = false := fun t ht =>
    decide_eq_false (not_le.2 (hexpiry t ht))
  have hsaved := hrun.trans (congrArg (Prod.mk _) (congrArg (World.mk · _) hdb))
  refine ⟨o, w.db.receivedOffers.lastId + 1, (N.timestampNowMs env₁).2, hsaved, hhash, hamount, ?_, ?_, ?_⟩
  · intro t ht
    have hunpaid : o.paid = false := rfl
    have hpeer : (parseReceivedOffer o).peerAddress = peer.address := rfl
    simp [live, hunpaid, hunexpired t ht, hpeer]
  · rw [henv]
    exact hnew.fresh
  · constructor
    · show (server (N.timestampNowMs env₁).2).db.squeaks = _
      rw [henv]
      exact hnew.squeaks.trans hlinked.squeaks
    · show (server (N.timestampNowMs env₁).2).db.configs = _
      rw [henv]
      exact hnew.configs.trans hlinked.configs
    · show OffersIssued I.issued (server (N.timestampNowMs env₁).2)
      rw [henv]
      exact hnew.sent
    · intro o' ho'
      show I.issued (server (N.timestampNowMs env₁).2).env o'.paymentHash ∨ _
      rw [henv]
      rcases List.mem_append.1 ho' with ho' | ho'
      · exact (hlinked.received o' ho').imp_left (hnew.kept _)
      · rw [List.mem_singleton.1 ho', show o.paymentHash = invoice.rHash from hpayHash]
        exact .inl hnew.made
    · intro o' ho' t t' ht ht'
      rcases List.mem_append.1 ho' with ho' | ho'
      · exact hlinked.steady o' ho' t t' ht ht'
      · rw [List.mem_singleton.1 ho', hunexpired t ht, hunexpired t' ht']
    · exact hlinked.readable

/-- What a turn of the second loop leaves. -/
structure Turned (L : Squeaklib) (server : ρ → World σ) (peer : SqueakPeer) (I : Invoicing σ) (during : Int → Prop)
    (D : Db) (n : Nat) (priceMsat : Int) (r : SqueakRow) (w w' : World ρ) : Prop where
  linked : Linked L server I during D w'
  fresh : ∃ n', I.fresh n' (server w'.env).env ∧
    (n = n' ∨ n = n' + 1 ∧ ¬ Settled peer during priceMsat r (entry r.hash w.db))
  fetched : Fetched L peer during priceMsat r (entry r.hash w.db) (entry r.hash w'.db)
  others : ∀ k, k ≠ r.hash → entry k w'.db = entry k w.db

/-- A turn that leaves the store alone. -/
theorem Turned.quiet {priceMsat : Int} (hlinked : Linked L server I during D w)
    (hfresh : I.fresh n (server w.env).env) {env : ρ} (henv : server env = server w.env)
    (hfetched : Fetched L peer during priceMsat r (entry r.hash w.db) (entry r.hash w.db)) :
    Turned L server peer I during D n priceMsat r w { w with env := env } :=
  ⟨hlinked.env henv, ⟨n, by rwa [henv], .inl rfl⟩, hfetched, fun _ _ => rfl⟩

/-- A turn for a squeak whose key is given away, if there is one. -/
theorem turn_free (hK : L.KeyLaws) (hH : HonestPeer S N peer page clientHost server I during D)
    (hlinked : Linked L server I during D w) (hfresh : I.fresh n (server w.env).env) (hne : r.hash ≠ [])
    (hserver : findSqueak r.hash (server w.env).db = some r) {served : L.CSqueak} (hrow : RowOf L served r)
    (hprice : sellPriceMsat S D = 0) (hgood : Unlocks L (sellPriceMsat S D) r (entry r.hash w.db))
    (hfind : findSqueak r.hash w.db = some x) (hs : L.deserialize x.squeak = .ok squeak) (hless : Keyless x) :
    ∃ w', (PeerDownloader.downloadSecretKey N peer r.hash).run w = (.ok (), w') ∧
      Turned L server peer I during D n (sellPriceMsat S D) r w w' := by
  by_cases hkey : ∃ k, r.secretKey = some k ∧ k ≠ []
  · obtain ⟨k, hk, hknil⟩ := hkey
    have hout := hgood hprice x k squeak hfind hless hk hknil hs
    have hrun := run_downloadSecretKey_key hK hH hlinked hne hserver hrow hprice hk hknil hfind hs hless
    rw [hout] at hrun
    have hread : Readable L (withKey L r.hash k squeak w.db) :=
      (obtained_withKey ⟨x, hfind, hs, hless⟩ hknil).readable hlinked.readable
    have hsaved : Linked L server I during D { w with db := withKey L r.hash k squeak w.db } :=
      hlinked.squeaksChanged (by rw [withKey_eq]) hread
    have henv := (gotSecretKey_served hH.serves hne w.env).2
    refine ⟨_, hrun, hsaved.env henv, ⟨n, ?_, .inl rfl⟩, ?_, ?_⟩
    · show I.fresh n (server (N.requestsGet peer.address (.secretKey (hex r.hash)) w.env).2).env
      rwa [henv]
    · show Fetched _ _ _ _ _ _ (entry r.hash (withKey L r.hash k squeak w.db))
      rw [entry_withKey hfind]
      exact .key hfind hless hprice hk hknil hs hout
    · intro other hother
      exact entry_withKey_ne hother k squeak w.db
  · have hnokey : ∀ k, r.secretKey = some k → k = [] := by
      intro k hk
      by_contra hknil
      exact hkey ⟨k, hk, hknil⟩
    have hnone : (if sellPriceMsat S D > 0 then none else r.secretKey.filter fun k => !k.isEmpty) = none := by
      rw [if_neg (by omega)]
      rcases hk : r.secretKey with _ | k
      · rfl
      · simp [hnokey k hk]
    -- with the price 0 the server has no offer either
    have hrun := run_downloadSecretKey_noKey hH hlinked hne hserver hnone hfind hs hless
    obtain ⟨hbefore, henv⟩ := hlinked.beforeOffer hH hne
    obtain ⟨hgot, hsame⟩ := gotOffer_unsold hH.serves hne (henv ▸ hserver) hrow.bytes
      (.inl ((hbefore.price S).trans hprice))
    simp only [hgot] at hrun
    split at hrun
    · exact ⟨_, hrun, .quiet hlinked hfresh henv (.locked hnokey hprice)⟩
    · exact ⟨_, hrun, .quiet hlinked hfresh (hsame.trans henv) (.locked hnokey hprice)⟩

/-- A turn for a squeak whose key is sold, if there is one. -/
theorem turn_sold (hH : HonestPeer S N peer page clientHost server I during D)
    (hlinked : Linked L server I during D w) (hfresh : I.fresh n (server w.env).env)
    (hn : ¬ Settled peer during (sellPriceMsat S D) r (entry r.hash w.db) → 0 < n) (hne : r.hash ≠ [])
    (hmem : r ∈ D.squeaks) (hserver : findSqueak r.hash (server w.env).db = some r) {served : L.CSqueak}
    (hrow : RowOf L served r)
    (hprice : 0 < sellPriceMsat S D) (hfind : findSqueak r.hash w.db = some x)
    (hs : L.deserialize x.squeak = .ok squeak) (hhash : getHash L squeak = r.hash) (hless : Keyless x) :
    ∃ w', (PeerDownloader.downloadSecretKey N peer r.hash).run w = (.ok (), w') ∧
      Turned L server peer I during D n (sellPriceMsat S D) r w w' := by
  obtain ⟨hbefore, henv⟩ := hlinked.beforeOffer hH hne
  have hnow : during (N.timestampNowMs (afterRequest N peer (.secretKey (hex r.hash)) w).env).1 := hH.clock _
  have hrun := run_downloadSecretKey_noKey hH hlinked hne hserver (if_pos hprice) hfind hs hless
  rw [hasOffer_eq] at hrun
  rcases hlive : live peer (N.timestampNowMs (afterRequest N peer (.secretKey (hex r.hash)) w).env).1
    (entry r.hash w.db).offers with _ | ⟨o, os⟩
  · rw [hlive, if_neg (by simp)] at hrun
    rcases hk : r.secretKey with _ | k
    · obtain ⟨hgot, hsame⟩ := gotOffer_unsold hH.serves hne (henv ▸ hserver) hrow.bytes (.inr hk)
      simp only [hgot] at hrun
      exact ⟨_, hrun, .quiet hlinked hfresh (hsame.trans henv) (.unsold hk hprice)⟩
    · -- the squeak has a key for sale and the client neither a key nor an offer: there is a good nonce for it
      have hunsettled : ¬ Settled peer during (sellPriceMsat S D) r (entry r.hash w.db) := by
        intro hsettled
        rcases (hsettled x hfind hless).2 hprice with hnone | hsome
        · rw [hk] at hnone
          cases hnone
        · exact hsome _ hnow hlive
      obtain ⟨n, rfl⟩ := Nat.exists_eq_succ_of_ne_zero (Nat.pos_iff_ne_zero.1 (hn hunsettled))
      rw [← henv] at hfresh
      obtain ⟨offer, invoice, hgot, hnew⟩ := gotOffer_sold hH.codec hH.sameCodec hH.serves hH.sells hne (henv ▸ hserver)
        hmem hrow hk (hbefore.price S) hprice.ne' hbefore.sent hfresh
      obtain ⟨o, lastId, env', hhandle, hohash, hoprice, holive, hfresh', hlinked'⟩ :=
        run_handleOffer_new hH hbefore hnew hhash
      simp only [hgot] at hrun
      refine ⟨_, hrun.trans hhandle, hlinked', ⟨n, hfresh', .inr ⟨rfl, hunsettled⟩⟩, ?_, ?_⟩
      · show Fetched _ _ _ _ _ _
          (entry r.hash { w.db with receivedOffers := ⟨w.db.receivedOffers.rows ++ [o], lastId⟩ })
        rw [entry_insertOffer, if_pos hohash]
        exact .offer hfind hless (by rw [hk]; exact Option.some_ne_none k) hnow hprice hlive hoprice holive
      · intro other hother
        show entry other { w.db with receivedOffers := ⟨w.db.receivedOffers.rows ++ [o], lastId⟩ } = _
        rw [entry_insertOffer, if_neg (by rw [hohash]; exact fun h => hother h.symm), List.append_nil]
  · -- the offer that the client has from this peer is still good
    rw [hlive, if_pos (by simp)] at hrun
    exact ⟨_, hrun, .quiet hlinked hfresh henv (.offered hnow hprice (by rw [hlive]; exact List.cons_ne_nil o os))⟩

end Turn

open Classical in
theorem unsettled_cons (peer : SqueakPeer) (during : Int → Prop) (priceMsat : Int) (r : SqueakRow)
    (rows : List SqueakRow) (db : Db) : unsettled peer during priceMsat (r :: rows) db =
      unsettled peer during priceMsat rows db +
        if Settled peer during priceMsat r (entry r.hash db) then 0 else 1 := by
  unfold unsettled
  rw [List.countP_cons]
  by_cases h : Settled peer during priceMsat r (entry r.hash db) <;> simp [h]

theorem unsettled_congr {rows : List SqueakRow} {db db' : Db} {priceMsat : Int}
    (h : ∀ r ∈ rows, entry r.hash db' = entry r.hash db) :
    unsettled peer during priceMsat rows db' = unsettled peer during priceMsat rows db := by
  unfold unsettled
  refine List.countP_congr fun r hr => ?_
  rw [h r hr]

/-- A turn leaves a good nonce for each of the turns that follow. -/
theorem Turned.supplied {r : SqueakRow} {rows : List SqueakRow} {w w' : World ρ} {n : Nat} {priceMsat : Int}
    (h : Turned L server peer I during D n priceMsat r w w')
    (hn : unsettled peer during priceMsat (r :: rows) w.db ≤ n) (hnotin : r.hash ∉ rows.map SqueakRow.hash) :
    Supplied I server peer during priceMsat rows w' := by
  have hsame : unsettled peer during priceMsat rows w'.db = unsettled peer during priceMsat rows w.db :=
    unsettled_congr fun r' hr' => h.others _ fun heq => hnotin (heq ▸ List.mem_map_of_mem hr')
  obtain ⟨n', hfresh, hleft⟩ := h.fresh
  refine ⟨n', hfresh, ?_⟩
  rw [unsettled_cons] at hn
  rcases hleft with rfl | ⟨rfl, hunsettled⟩
  · omega
  · rw [if_neg hunsettled] at hn
    omega

/-- A turn of the second loop returns if the key that the server gives away, if any, unlocks the squeak. -/
theorem turns_secretKey (hK : L.KeyLaws) (hnonempty : ∀ squeak, getHash L squeak ≠ [])
    (hH : HonestPeer S N peer page clientHost server I during D) :
    Prog.Turns (fun r : SqueakRow => PeerDownloader.downloadSecretKey N peer r.hash) SqueakRow.hash
      (fun w k => entry k w.db)
      (fun rows w => Linked L server I during D w ∧ (∀ r ∈ rows, r ∈ D.squeaks) ∧
        Supplied I server peer during (sellPriceMsat S D) rows w)
      (Unlocks L (sellPriceMsat S D)) (Fetched L peer during (sellPriceMsat S D)) where
  raises := by
    rintro r rows w ⟨hlinked, hrows, -⟩ hbad
    unfold Unlocks at hbad
    push Not at hbad
    obtain ⟨hprice, x, k, squeak, hfind, hless, hk, hknil, hs, hout⟩ := hbad
    obtain ⟨served, hrow, hne, hserver⟩ := hH.row hnonempty (hrows r List.mem_cons_self)
    have hrun := run_downloadSecretKey_key hK hH hlinked hne (hserver hlinked) hrow hprice hk hknil hfind hs hless
    rcases hkey : keyOutcome L k squeak with e | u
    · rw [hkey] at hrun
      exact ⟨e, congrArg Prod.fst hrun⟩
    · exact absurd hkey hout
  returns := by
    rintro r rows w hnotin ⟨hlinked, hrows, n, hfresh, hn⟩ hgood
    have hrest : ∀ r' ∈ rows, r' ∈ D.squeaks := fun r' hr' => hrows r' (List.mem_cons_of_mem r hr')
    obtain ⟨served, hrow, hne, hserver⟩ := hH.row hnonempty (hrows r List.mem_cons_self)
    suffices hturn : ∃ w', (PeerDownloader.downloadSecretKey N peer r.hash).run w = (.ok (), w') ∧
        Turned L server peer I during D n (sellPriceMsat S D) r w w' by
      obtain ⟨w', hrun, hturned⟩ := hturn
      exact ⟨w', hrun, ⟨hturned.linked, hrest, hturned.supplied hn hnotin⟩, hturned.fetched, hturned.others⟩
    have hrun := run_downloadSecretKey N peer r.hash w
    rcases hfind : findSqueak r.hash w.db with _ | x
    · simp only [hfind, squeakOfRow] at hrun
      exact ⟨_, hrun, .quiet hlinked hfresh rfl (.missing hfind)⟩
    obtain ⟨squeak, hs, hhash⟩ := hlinked.readable.find hfind
    by_cases hless : Keyless x
    · rcases hH.price.eq_or_lt' with hprice | hprice
      · exact turn_free hK hH hlinked hfresh hne (hserver hlinked) hrow hprice hgood hfind hs hless
      · refine turn_sold hH hlinked hfresh (fun hunsettled => ?_) hne (hrows r List.mem_cons_self) (hserver hlinked) hrow
          hprice hfind hs hhash hless
        rw [unsettled_cons, if_neg hunsettled] at hn
        omega
    · simp only [hfind, squeakOfRow, hs, Functor.map, Except.map, Option.bind_some] at hrun
      rw [if_pos (by rw [← Bool.not_eq_false, keyless_iff]; exact hless)] at hrun
      exact ⟨_, hrun, .quiet hlinked hfresh rfl (.owned hfind hless)⟩

end Loops

end Squeaknode
