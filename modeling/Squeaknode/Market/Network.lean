/-
Any number of nodes trade with each other and with strangers: their servers answer, their clients
download and pay, their payment processors record what was sold, and all statements of all of them
interleave. Whoever pays an offer of a node of the market gets a valid key, and the two sides agree on
the price.
-/
import Squeaknode.Interleave.Shared
import Squeaknode.Market.Trading
import Mathlib.Data.List.Induction

namespace Squeaknode

open Interleave Relational SqueakDb SqueakStore

variable {L : Squeaklib} {ρ ι : Type} [DecidableEq ι]

/-! ## The network -/

/-- What node `i` reads and writes: its own database and the world between the nodes. -/
def nodePart (i : ι) : Part (Shared ι Db ρ) (World ρ) := Shared.party World.mk World.db World.env (fun _ => rfl) i

/-- A call of an operation by one of the nodes. -/
structure NodeCall (L : Squeaklib) (ι : Type) where
  node : ι
  op : TradeOp L

/-- The program of a call, on the database of its node. -/
def NodeCall.program (N : ι → Node L ρ) (M : Ledger ρ) (address : ι → PeerAddress) (c : NodeCall L ι) :
    Prog (Shared ι Db ρ) Obs Err Unit :=
  (c.op.program (N c.node) M (address c.node)).zoom (nodePart c.node)

/-- Whatever else happens on the nodes and between them brings no keys, offers, payments or answers. -/
def NothingBrought (M : Ledger ρ) (L : Squeaklib) (s s' : Shared ι Db ρ) : Prop :=
  ∀ i, Quietly M L ⟨s.own i, s.env⟩ ⟨s'.own i, s'.env⟩

/-- The tables of a trader before its first trade. -/
structure NothingTraded (db : Db) : Prop where
  squeaks : db.squeaks = []
  sentOffers : db.sentOffers.rows = []
  receivedPayments : db.receivedPayments.rows = []
  receivedOffers : db.receivedOffers.rows = []
  sentPayments : db.sentPayments.rows = []

/-- A payment hash is the one of one invoice. -/
def Ledger.OneInvoice (M : Ledger ρ) : Prop :=
  ∀ o preimage preimage' invoice invoice', M.made o preimage invoice → M.made o preimage' invoice' →
    invoice.rHash = invoice'.rHash → invoice = invoice'

/-- Whoever paid a node of the market has a valid key for the squeak, and whoever was paid recorded the price
that was paid; every offer that a node sells, and every one that was received from a node, opens the squeak. -/
structure FairMarket (M : Ledger ρ) (L : Squeaklib) (address : ι → PeerAddress) (s : Shared ι Db ρ) : Prop where
  bought : ∀ i, ∀ p ∈ (s.own i).sentPayments.rows, p.peerAddress ∈ Set.range address →
    p.valid = true ∧ KeyFor L p.squeakHash p.secretKey
  prices : ∀ i j, ∀ p ∈ (s.own i).sentPayments.rows, p.peerAddress ∈ Set.range address →
    ∀ q ∈ (s.own j).receivedPayments.rows, q.paymentHash = p.paymentHash → q.priceMsat = p.priceMsat
  sold : ∀ i, ∀ o ∈ (s.own i).sentOffers.rows,
    M.Backed L s.env o.squeakHash o.nonce o.paymentRequest o.paymentHash o.priceMsat
  offered : ∀ i, ∀ o ∈ (s.own i).receivedOffers.rows, o.peerAddress ∈ Set.range address →
    M.Backed L s.env o.squeakHash o.nonce o.paymentRequest o.paymentHash o.priceMsat

section Market

variable {M : Ledger ρ} {J : JsonCodec} {honest : PeerAddress → Prop}

/-- A node's step is harmless to the others: it leaves their databases alone, and what it sends is honest. -/
theorem harmless_trade : Harmless (nodePart (ρ := ρ)) fun _ : ι => trade M L J honest := by
  intro i j v trace w hne hinv hi hm
  have hget : (nodePart j).get ((nodePart i).put v.2 w) = ⟨v.2.own j, w.env⟩ :=
    congrArg (World.mk · w.env) (Function.update_of_ne hne _ _)
  rw [hget]
  exact ⟨MarketSound.other (hinv j) hm (MarketSound.answers hi), hm⟩

theorem NothingTraded.sound {db : Db} (h : NothingTraded db) {o : ρ}
    (hsilent : ∀ a request response, ¬ M.answered o a request response) : MarketSound M L J honest ⟨db, o⟩ where
  squeaks r hr := by rw [show db.squeaks = [] from h.squeaks] at hr; cases hr
  sold r hr := by rw [show db.sentOffers.rows = [] from h.sentOffers] at hr; cases hr
  received r hr := by rw [show db.receivedPayments.rows = [] from h.receivedPayments] at hr; cases hr
  answers a hash response _ hanswer := absurd hanswer (hsilent a _ _)
  offered r hr := by rw [show db.receivedOffers.rows = [] from h.receivedOffers] at hr; cases hr
  bought r hr := by rw [show db.sentPayments.rows = [] from h.sentPayments] at hr; cases hr

omit [DecidableEq ι] in
theorem fairMarket_of_sound (hone : M.OneInvoice) {address : ι → PeerAddress} {s : Shared ι Db ρ}
    (h : ∀ i, MarketSound M L J (· ∈ Set.range address) ⟨s.own i, s.env⟩) : FairMarket M L address s where
  bought i p hp haddress := ⟨((h i).bought p hp haddress).1, ((h i).bought p hp haddress).2.1⟩
  prices i j p hp haddress q hq heq := by
    obtain ⟨-, -, preimage, invoice, hmade, hhash, hprice⟩ := (h i).bought p hp haddress
    obtain ⟨preimage', invoice', hmade', hhash', hprice'⟩ := (h j).received q hq
    have hsame : invoice' = invoice := hone _ _ _ _ _ hmade' hmade (hhash'.symm.trans (heq.trans hhash))
    rw [hprice', hprice, hsame]
  sold i := (h i).sold
  offered i o ho haddress := ((h i).offered o ho haddress).1

/-- In every reachable state of any number of nodes that trade with each other and with anybody else, the market
is fair. -/
theorem market_fair (hC : L.CodecLaws) (hK : L.KeyLaws) (hS : L.ScalarLaws) (hL : L.CheckLaw) (hkeys : L.ScalarKeys)
    (hJ : J.Laws) (hsend : M.SendLaws) (hone : M.OneInvoice) (N : ι → Node L ρ) (address : ι → PeerAddress)
    (hjson : ∀ i, (N i).json = J) (hM : ∀ i, M.Laws (N i) (· ∈ Set.range address)) (calls : List (NodeCall L ι))
    {s₀ : Shared ι Db ρ} (hstart : ∀ i, NothingTraded (s₀.own i))
    (hsilent : ∀ a request response, ¬ M.answered s₀.env a request response)
    {history : List (Pool (Shared ι Db ρ) Obs Err)} {P : Pool (Shared ι Db ρ) Obs Err}
    (hr : Pool.Run (NothingBrought M L) (.start s₀ (calls.map (NodeCall.program N M address))) history P) :
    FairMarket M L address P.shared := by
  let Γ := fun _ : ι => trade M L J (· ∈ Set.range address)
  have hpool : (Pool.start s₀ (calls.map (NodeCall.program N M address))).AllSafe (Protocol.all nodePart Γ)
      fun _ _ _ => True := by
    refine ⟨fun i => (hstart i).sound hsilent, fun t p hp => ?_⟩
    change (calls.map (NodeCall.program N M address))[t]? = some p at hp
    rw [List.getElem?_map] at hp
    obtain ⟨c, -, rfl⟩ := Option.map_eq_some_iff.1 hp
    exact Prog.Safe.zoom harmless_trade
      (trade_program hC (hM c.node) hK hS hL hkeys hJ (hjson c.node) hsend (address c.node) c.op _)
  have henv : (Protocol.all nodePart Γ).Ignores (NothingBrought M L) :=
    fun v s hi hq => ⟨fun i => MarketSound.quietly hC (hi i) (hq i), fun i => (hq i).env.made⟩
  exact fairMarket_of_sound hone (hr.allSafe henv (fun _ _ _ _ _ _ => trivial) hpool).1.inv

end Market

/-! ## A seller and a buyer -/

namespace Sample

/-- The clock and the invoices, and the answers of the servers. -/
structure Between where
  outside : Outside
  answers : List (PeerAddress × Request × Response)

/-- A call to the world outside of the node. -/
def Between.ask {β : Type} (f : Outside → β × Outside) (o : Between) : β × Between :=
  ((f o.outside).1, { o with outside := (f o.outside).2 })

/-- The invoice with a payment hash, and its preimage. -/
def Between.byHash (o : Between) (rHash : Bytes) : Option (Invoice × Bytes) :=
  o.outside.invoices.find? fun i => i.1.rHash == rHash

/-- A new invoice must have a payment hash and a payment request of its own. -/
def tradersLightning : LightningClient Between where
  createInvoice preimage amountMsat o :=
    let invoice : Invoice :=
      ⟨0 :: preimage, String.ofList (List.replicate (o.outside.invoices.length + 1) 'i'), amountMsat, false, 0,
        o.outside.nowMs / 1000, 3600⟩
    if (o.byHash invoice.rHash).isSome || (o.outside.find invoice.paymentRequest).isSome then
      (.error (.client "invoice exists"), o)
    else (.ok invoice, { o with outside := { o.outside with invoices := o.outside.invoices ++ [(invoice, preimage)] } })
  decodePayReq paymentRequest := Between.ask (lightningClient.decodePayReq paymentRequest)
  payInvoice paymentRequest := Between.ask (lightningClient.payInvoice paymentRequest)
  getInfo := Between.ask lightningClient.getInfo

/-- A node of the market: what it gets from an address is the first answer to the request from there. -/
def trader : Node squeaklib Between where
  maxSqueaks := 10
  maxSqueaksPerPublicKeyPerBlock := 1
  squeakRetentionS := 60
  sentOfferRetentionS := 60
  priceMsat := 1000
  lndExternalHost := "lnd"
  lndPort := 9735
  timestampNowMs := Between.ask (node 10).timestampNowMs
  generateTweak := Between.ask (node 10).generateTweak
  makeSqueakFromStr privateKey content blockHeight blockHash timestamp replyTo recipient :=
    Between.ask ((node 10).makeSqueakFromStr privateKey content blockHeight blockHash timestamp replyTo recipient)
  bitcoinClient := ⟨fun h => Between.ask (bitcoinClient.getBlockInfoByHeight h),
    Between.ask bitcoinClient.getBestBlockInfo⟩
  lightningClient := tradersLightning
  requestsGet address request o :=
    (match o.answers.find? fun a => a.1 == address && a.2.1 == request with
      | some a => .ok a.2.2
      | none => .error (.client "connection refused"), o)
  json := jsonText
  sqlite := sqlite

/-- What the lightning node and the peers of the sample have done. -/
def marketLedger : Ledger Between where
  made o preimage invoice := o.byHash invoice.rHash = some (invoice, preimage) ∧
    o.outside.find invoice.paymentRequest = some (invoice, preimage)
  answered o address request response := (address, request, response) ∈ o.answers
  send address request response o := { o with answers := o.answers ++ [(address, request, response)] }

theorem calm_of_eq {o o' : Between} (hinvoices : o'.outside.invoices = o.outside.invoices)
    (hanswers : o'.answers = o.answers) :
    marketLedger.Calm o o' where
  made preimage invoice h := by
    show Between.byHash o' _ = _ ∧ Outside.find _ o'.outside = _
    unfold Between.byHash Outside.find
    rw [hinvoices]
    exact h
  answered a q r h := by
    show (a, q, r) ∈ o.answers
    rw [← hanswers]
    exact h

theorem created_trader {preimage : Bytes} {amountMsat : Int} {o o' : Between} {invoice : Invoice}
    (h : tradersLightning.createInvoice preimage amountMsat o = (.ok invoice, o')) :
    o'.answers = o.answers ∧ o'.outside.invoices = o.outside.invoices ++ [(invoice, preimage)] ∧
      o.byHash invoice.rHash = none ∧ o.outside.find invoice.paymentRequest = none ∧ invoice.valueMsat = amountMsat := by
  unfold tradersLightning at h
  dsimp only at h
  split at h
  · cases h
  · rename_i hfree
    cases h
    simp only [Bool.or_eq_true, not_or, Bool.not_eq_true, Option.isSome_eq_false_iff, Option.isNone_iff_eq_none] at hfree
    exact ⟨rfl, rfl, hfree.1, hfree.2, rfl⟩

theorem calm_createInvoice (preimage : Bytes) (amountMsat : Int) (o : Between) :
    marketLedger.Calm o (tradersLightning.createInvoice preimage amountMsat o).2 := by
  rcases h : tradersLightning.createInvoice preimage amountMsat o with ⟨e | invoice, o'⟩
  · have hsame : o' = o := by
      unfold tradersLightning at h
      dsimp only at h
      split at h <;> cases h
      rfl
    rw [hsame]
    exact Ledger.Calm.refl o
  · obtain ⟨hanswers, hinvoices, -⟩ := created_trader h
    have hanswered : ∀ a q r, marketLedger.answered o' a q r → marketLedger.answered o a q r := by
      intro a q r ha
      show (a, q, r) ∈ o.answers
      rw [← hanswers]
      exact ha
    refine ⟨fun preimage' invoice' hmade => ?_, hanswered⟩
    show Between.byHash o' _ = _ ∧ Outside.find _ o'.outside = _
    unfold Between.byHash Outside.find
    rw [hinvoices, List.find?_append, List.find?_append]
    unfold marketLedger Between.byHash Outside.find at hmade
    rw [hmade.1, hmade.2]
    exact ⟨rfl, rfl⟩

theorem laws_trader (honest : PeerAddress → Prop) : marketLedger.Laws trader honest where
  calm := {
    clock := fun _ => calm_of_eq rfl rfl
    nonce := fun _ => calm_of_eq rfl rfl
    squeak := fun _ _ _ _ _ _ _ _ => calm_of_eq rfl rfl
    block := fun _ _ => calm_of_eq rfl rfl
    bestBlock := fun _ => calm_of_eq rfl rfl
    createInvoice := calm_createInvoice
    decodePayReq := fun _ _ => calm_of_eq rfl rfl
    payInvoice := fun _ _ => calm_of_eq rfl rfl
    getInfo := fun _ => calm_of_eq rfl rfl
    requestsGet := fun _ _ _ => calm_of_eq rfl rfl }
  created preimage amountMsat o invoice o' h := by
    obtain ⟨-, hinvoices, hhash, hrequest, hvalue⟩ := created_trader h
    refine ⟨?_, hvalue⟩
    show Between.byHash o' _ = _ ∧ Outside.find _ o'.outside = _
    unfold Between.byHash Outside.find at *
    rw [hinvoices, List.find?_append, List.find?_append, hhash, hrequest]
    simp
  decoded o preimage invoice payReq hmade h := by
    have hdecode : (lightningClient.decodePayReq invoice.paymentRequest o.outside).1 = .ok payReq := h
    simp only [lightningClient, show o.outside.find invoice.paymentRequest = some (invoice, preimage) from hmade.2]
      at hdecode
    cases hdecode
    exact ⟨rfl, rfl⟩
  paid o preimage invoice payment hmade h _ := by
    have hpay : (lightningClient.payInvoice invoice.paymentRequest o.outside).1 = .ok payment := h
    simp only [lightningClient, show o.outside.find invoice.paymentRequest = some (invoice, preimage) from hmade.2] at hpay
    cases hpay
    rfl
  got address request o response _ h := by
    change (match o.answers.find? fun a => a.1 == address && a.2.1 == request with
      | some a => Except.ok a.2.2
      | none => Except.error (Err.client "connection refused")) = .ok response at h
    rcases hfind : o.answers.find? fun a => a.1 == address && a.2.1 == request with _ | ⟨a, q, r⟩
    · rw [hfind] at h
      cases h
    · rw [hfind] at h
      cases h
      have hmatch := List.find?_some hfind
      simp only [Bool.and_eq_true, beq_iff_eq] at hmatch
      obtain ⟨rfl, rfl⟩ := hmatch
      exact List.mem_of_find?_eq_some hfind
  nonce _ := ⟨250, by decide, rfl⟩

theorem sendLaws : marketLedger.SendLaws where
  made _ _ _ _ _ _ h := h
  answered a q r o a' q' r' h := by
    rcases List.mem_append.1 h with h | h
    · exact .inl h
    · cases List.mem_singleton.1 h
      exact .inr ⟨rfl, rfl, rfl⟩

theorem oneInvoice : marketLedger.OneInvoice := by
  intro o preimage preimage' invoice invoice' h h' heq
  have hsame := h.1.symm.trans ((congrArg o.byHash heq).trans h'.1)
  exact congrArg Prod.fst (Option.some.inj hsame)

/-- Bytes of one length that encode the same number are the same. -/
theorem bigEndian_inj : ∀ {bytes bytes' : Bytes}, bytes.length = bytes'.length →
    bytes.foldl (fun acc b => 256 * acc + b.toNat) 0 = bytes'.foldl (fun acc b => 256 * acc + b.toNat) 0 →
    bytes = bytes' := by
  intro bytes
  induction bytes using List.reverseRec with
  | nil => exact fun hlen _ => (List.length_eq_zero_iff.1 hlen.symm).symm
  | append_singleton bytes b ih =>
    intro bytes' hlen heq
    rcases List.eq_nil_or_concat bytes' with rfl | ⟨bytes', b', rfl⟩
    · simp at hlen
    · rw [List.concat_eq_append] at *
      simp only [List.length_append, List.length_singleton, Nat.add_right_cancel_iff] at hlen
      simp only [List.foldl_append, List.foldl_cons, List.foldl_nil] at heq
      have hb := b.toNat_lt
      have hb' := b'.toNat_lt
      rw [ih hlen (by omega), UInt8.toNat_inj.1 (by omega : b.toNat = b'.toNat)]

theorem scalarKeys : squeaklib.ScalarKeys := by
  intro s k h
  have hpoint := (checkLaw s k).1 h
  obtain ⟨x, hx, -⟩ := ok_of_bind (show paymentPointBytesFromScalarBytes k = .ok _ from hpoint)
  have hlt : x < order ∧ k.length = 32 ∧ k.foldl (fun acc b => 256 * acc + b.toNat) 0 = x := by
    unfold scalarFromBytes at hx
    dsimp only at hx
    split at hx
    · rename_i hcond
      cases hx
      exact ⟨hcond.2, hcond.1, rfl⟩
    · cases hx
  have hback := scalarFromBytes_scalarToBytes hlt.1
  unfold scalarFromBytes at hback
  dsimp only at hback
  split at hback
  · rename_i hcond
    refine ⟨x, hlt.1, bigEndian_inj (hcond.1.trans hlt.2.1.symm) ?_⟩
    exact (Except.ok.inj hback).trans hlt.2.2.symm
  · cases hback

/-- The address of the seller. -/
def sellerAddress : PeerAddress := ⟨.IPV4, "seller", 8555⟩

/-- The seller saves a squeak and its key and answers three requests; the buyer downloads and pays; the seller
is told of the payment. -/
def trades : List (NodeCall squeaklib Bool) :=
  let hash := squeak.val.reverse
  let answer := fun request => TradeOp.answer (fun _ => []) "buyer" request
  [⟨false, .store (.saveSqueak squeak)⟩, ⟨false, .store (.saveSecretKey hash (scalarToBytes 5))⟩,
    ⟨false, answer (.squeak (hex hash))⟩, ⟨false, answer (.secretKey (hex hash))⟩, ⟨false, answer (.offer (hex hash))⟩,
    ⟨true, .downloadSingleSqueak ⟨none, "seller", sellerAddress, true, false⟩ hash⟩, ⟨true, .store (.payOffer 1)⟩,
    ⟨false, .payments (.task [[⟨0 :: scalarToBytes 4, "i", 1000, true, 1, 1000, 3600⟩]])⟩]

end Sample

/-- The buyer of such a trade has a valid key, and the seller recorded the price. -/
theorem market_fair_sample : ∃ (history : List (Pool (Shared Bool Db Sample.Between) Obs Err))
    (P : Pool (Shared Bool Db Sample.Between) Obs Err),
    Pool.Run (NothingBrought Sample.marketLedger Sample.squeaklib) (.start ⟨fun _ => .empty, ⟨⟨1000000, []⟩, []⟩⟩
      (Sample.trades.map (NodeCall.program (fun _ => Sample.trader) Sample.marketLedger
        fun i => if i then ⟨.IPV4, "buyer", 8555⟩ else Sample.sellerAddress))) history P ∧
      (P.shared.own true).sentPayments.rows.map SentPaymentRow.secretKey = [Sample.scalarToBytes 5] ∧
      (P.shared.own false).receivedPayments.rows.map ReceivedPaymentRow.priceMsat = [1000] ∧
      FairMarket Sample.marketLedger Sample.squeaklib
        (fun i => if i then ⟨.IPV4, "buyer", 8555⟩ else Sample.sellerAddress) P.shared := by
  obtain ⟨history, hr⟩ := Pool.Run.exec ((List.range 8).flatMap fun i => List.replicate 16 i)
    (.init : Pool.Run (NothingBrought Sample.marketLedger Sample.squeaklib) (.start ⟨fun _ => .empty, ⟨⟨1000000, []⟩, []⟩⟩
      (Sample.trades.map (NodeCall.program (fun _ => Sample.trader) Sample.marketLedger
        fun i => if i then ⟨.IPV4, "buyer", 8555⟩ else Sample.sellerAddress))) _ _)
  refine ⟨history, _, hr, by decide +kernel, by decide +kernel, ?_⟩
  exact market_fair Sample.codecLaws Sample.keyLaws Sample.scalarLaws Sample.checkLaw Sample.scalarKeys jsonText_laws
    Sample.sendLaws Sample.oneInvoice _ _ (fun _ => rfl) (fun _ => Sample.laws_trader _) _
    (fun _ => ⟨rfl, rfl, rfl, rfl, rfl⟩) (fun _ _ _ h => by cases h) hr

end Squeaknode
