/-
The sell price: what an admin sets, and what a peer pays. `set_sell_price_msat` and `clear_sell_price_msat`
make sure in one statement that there is a row and change it in another, and any number of them run at the
same time as the requests that read the price, with everything else that the node does in between.

The price is nevertheless a register: each call sees it or changes it at one moment, a negative price is
refused, and whether a request gets its key for free or an offer is decided by the price at such a moment
(`sellPrice_linearizable`). It rests on rows that stay once they are there.
-/
import Squeaknode.Interleave.Linearizable
import Squeaknode.Node.Sample
import Squeaknode.Node.SqueakTable
import Squeaknode.Server.App

namespace Squeaknode

open Interleave Relational SqueakDb

variable {L : Squeaklib} {ρ α : Type} (N : Node L ρ)

/-! ## Setting the price -/

namespace SqueakDb

/-- The name of the user, or `none` when there is a row for it. -/
def insertConfig (username : String) (db : Db) : Option String × Db :=
  let (inserted, configs) := insertUnique ConfigRow.username ⟨username, none⟩ db.configs
  (if inserted then some username else none, { db with configs := configs })

/-- The row with another price. -/
def setPrice (sellPriceMsat : Option Int) (r : ConfigRow) : ConfigRow := { r with sellPriceMsat := sellPriceMsat }

def updateConfigSellPrice (username : String) (sellPriceMsat : Option Int) (db : Db) : Db :=
  { db with configs := updateWhere (fun r => r.username == username) (setPrice sellPriceMsat) db.configs }

def setConfigSellPriceMsat (username : String) (sellPriceMsat : Int) : Db → Db :=
  updateConfigSellPrice username (some sellPriceMsat)

def clearConfigSellPriceMsat (username : String) : Db → Db := updateConfigSellPrice username none

end SqueakDb

namespace NodeSettings

def insertUserConfig : NodeM ρ (Option String) := sql (insertConfig username)

def setSellPriceMsat (sellPriceMsat : Int) : NodeM ρ Unit := do
  let _ ← insertUserConfig
  if sellPriceMsat < 0 then
    throw (.exception "Sell price cannot be negative.")
  else
    update (setConfigSellPriceMsat username sellPriceMsat)

def clearSellPriceMsat : NodeM ρ Unit := do
  let _ ← insertUserConfig
  update (clearConfigSellPriceMsat username)

end NodeSettings

namespace SqueakController

def setSellPriceMsat (sellPriceMsat : Int) : NodeM ρ Unit := NodeSettings.setSellPriceMsat sellPriceMsat

def clearSellPriceMsat : NodeM ρ Unit := NodeSettings.clearSellPriceMsat

end SqueakController

/-- The calls that set the price or depend on it. -/
inductive PriceCall where
  | setSellPriceMsat (sellPriceMsat : Int)
  | clearSellPriceMsat
  | getSellPriceMsat
  | handleGetSecretKey (squeakHashStr : String)
  | handleGetOffer (squeakHashStr clientHost : String)

/-- What such a call answers. -/
inductive PriceAnswer where
  | done
  | price (priceMsat : Int)
  | secretKey (secretKey : Bytes)
  | offer (offer : Offer)

open SqueakPeerServerHandler in
/-- The program of a call. -/
def PriceCall.program : PriceCall → NodeM ρ PriceAnswer
  | setSellPriceMsat sellPriceMsat => do
    SqueakController.setSellPriceMsat sellPriceMsat
    return .done
  | clearSellPriceMsat => do
    SqueakController.clearSellPriceMsat
    return .done
  | getSellPriceMsat => do
    let priceMsat ← SqueakController.getSellPriceMsat N
    return .price priceMsat
  | handleGetSecretKey squeakHashStr => do
    let secretKey ← SqueakPeerServerHandler.handleGetSecretKey N squeakHashStr
    return .secretKey secretKey
  | handleGetOffer squeakHashStr clientHost => do
    let offer ← SqueakPeerServerHandler.handleGetOffer N squeakHashStr clientHost
    return .offer offer

/-! ## The register -/

/-- The price that is set. A call observes it; a secret key is only given while the price, or the one in the
configuration when none is set, is not positive, and an offer only while it is not zero. -/
def priceRegister (defaultMsat : Int) : Object (Option Int) PriceCall (Option Int) (Except Err PriceAnswer) where
  effect call price observed price' := observed = price ∧ match call with
    | .setSellPriceMsat p => price' = if p < 0 then price else some p
    | .clearSellPriceMsat => price' = none
    | _ => price' = price
  answer call price answer := match call with
    | .setSellPriceMsat p =>
      answer = if p < 0 then .error (.exception "Sell price cannot be negative.") else .ok .done
    | .clearSellPriceMsat => answer = .ok .done
    | .getSellPriceMsat => answer = .ok (.price (price.getD defaultMsat))
    | .handleGetSecretKey _ => ∀ secretKey, answer = .ok secretKey → price.getD defaultMsat ≤ 0
    | .handleGetOffer _ _ => ∀ offer, answer = .ok offer → price.getD defaultMsat ≠ 0

/-- What the programs rely on: a user has one row, and a row that is there stays. -/
def configs : Concrete (World ρ) (Option Int) where
  inv w := UniqueOn ConfigRow.username w.db.configs
  moves w w' := ∀ u, taken ConfigRow.username u w.db.configs = true → taken ConfigRow.username u w'.db.configs = true
  refl _ _ := id
  trans h h' u := h' u ∘ h u
  abs w := getConfigSellPriceMsat NodeSettings.username w.db

/-- The table of configurations is as it was. -/
def SameConfigs (w w' : World ρ) : Prop := w'.db.configs = w.db.configs

theorem SameConfigs.stutters {w w' : World ρ} (h : SameConfigs w w') (hi : configs.inv w) : configs.Stutters w w' where
  inv := by
    show UniqueOn _ w'.db.configs
    rw [h]
    exact hi
  moves u hu := by rwa [h]
  abs := by
    show (findBy _ _ w'.db.configs).bind _ = (findBy _ _ w.db.configs).bind _
    rw [h]

/-! ## What the statements do to the register -/

theorem insertConfig_stutters {w : World ρ} (hi : configs.inv w) :
    configs.Stutters w { w with db := (insertConfig NodeSettings.username w.db).2 } ∧
      taken ConfigRow.username NodeSettings.username (insertConfig NodeSettings.username w.db).2.configs = true := by
  have hconfigs : (insertConfig NodeSettings.username w.db).2.configs =
    (insertUnique ConfigRow.username ⟨NodeSettings.username, none⟩ w.db.configs).2 := rfl
  cases ht : taken ConfigRow.username NodeSettings.username w.db.configs with
  | true =>
    have hsame : (insertConfig NodeSettings.username w.db).2.configs = w.db.configs := by
      rw [hconfigs, insertUnique_of_taken ht]
    exact ⟨SameConfigs.stutters hsame hi, hsame ▸ ht⟩
  | false =>
    have hrows : (insertConfig NodeSettings.username w.db).2.configs = w.db.configs ++ [⟨NodeSettings.username, none⟩] := by
      rw [hconfigs, insertUnique_of_free ht]
    have hnone : findBy ConfigRow.username NodeSettings.username w.db.configs = none :=
      findBy_none.2 (taken_eq_false.1 ht)
    refine ⟨⟨uniqueOn_insertUnique _ hi, fun u hu => ?_, ?_⟩, ?_⟩
    · rw [hrows, taken, List.any_append, ← taken, hu]
      rfl
    · -- the new row has no price, like no row at all
      show (findBy _ _ (insertConfig NodeSettings.username w.db).2.configs).bind _ = (findBy _ _ w.db.configs).bind _
      rw [hrows, hnone, findBy, List.find?_append, ← findBy, hnone]
      rfl
    · rw [hrows, taken, List.any_append]
      simp

/-- An UPDATE of the price sets it when there is a row. -/
theorem updateConfigSellPrice_sets {w : World ρ} (hi : configs.inv w) (price : Option Int)
    (ht : taken ConfigRow.username NodeSettings.username w.db.configs = true) :
    let w' := { w with db := updateConfigSellPrice NodeSettings.username price w.db }
    configs.inv w' ∧ configs.moves w w' ∧ configs.abs w' = price := by
  refine ⟨uniqueOn_updateWhere (fun _ => rfl) hi, fun u hu => ?_, ?_⟩
  · obtain ⟨r, hr, rfl⟩ := taken_iff.1 hu
    show taken _ _ (updateWhere _ _ w.db.configs) = true
    refine taken_iff.2 ⟨_, mem_updateWhere.2 ⟨r, hr, rfl⟩, ?_⟩
    split <;> rfl
  · obtain ⟨r, hr, hname⟩ := taken_iff.1 ht
    have hfound : findBy ConfigRow.username NodeSettings.username w.db.configs = some r := by
      rw [← hname]
      exact findBy_eq_some hi hr
    have hkeep : ∀ r : ConfigRow, ConfigRow.username (setPrice price r) = r.username := fun _ => rfl
    show (findBy ConfigRow.username NodeSettings.username (updateWhere _ (setPrice price) w.db.configs)).bind _ = price
    rw [findBy_updateWhere hkeep, hfound]
    simp [hname, setPrice]

/-! ## The calls implement the register -/

section Calls

variable {N}

theorem implements_setSellPriceMsat (p : Int) (w : World ρ) :
    (PriceCall.program N (.setSellPriceMsat p)).Implements configs (priceRegister N.priceMsat) (.setSellPriceMsat p)
      (fun d r w => Answers configs (priceRegister N.priceMsat) (.setSellPriceMsat p) d r w) none w := by
  refine Prog.implements_bind (Prog.implements_bind (Prog.implements_atomic fun w' _ hi => ?_))
  obtain ⟨hstutters, htaken⟩ := insertConfig_stutters hi
  by_cases hp : p < 0
  · refine ⟨hstutters.inv, hstutters.moves, some (configs.abs w'), .inr ⟨_, rfl, rfl, rfl, ?_⟩, ?_⟩
    · exact hstutters.abs.trans (if_pos hp).symm
    · rw [if_pos hp]
      exact .inl ⟨_, rfl, (if_pos hp).symm⟩
  · refine ⟨hstutters.inv, hstutters.moves, none, .inl ⟨rfl, hstutters.abs⟩, ?_⟩
    rw [if_neg hp]
    refine Prog.implements_atomic fun w'' hm hi' => ?_
    obtain ⟨h1, h2, h3⟩ := updateConfigSellPrice_sets hi' (some p) (hm _ htaken)
    exact ⟨h1, h2, some (configs.abs w''), .inr ⟨_, rfl, rfl, rfl, h3.trans (if_neg hp).symm⟩,
      .inl ⟨_, rfl, (if_neg hp).symm⟩⟩

theorem implements_clearSellPriceMsat (w : World ρ) :
    (PriceCall.program N .clearSellPriceMsat).Implements configs (priceRegister N.priceMsat) .clearSellPriceMsat
      (fun d r w => Answers configs (priceRegister N.priceMsat) .clearSellPriceMsat d r w) none w := by
  refine Prog.implements_bind (Prog.implements_bind (Prog.implements_atomic fun w' _ hi => ?_))
  obtain ⟨hstutters, htaken⟩ := insertConfig_stutters hi
  refine ⟨hstutters.inv, hstutters.moves, none, .inl ⟨rfl, hstutters.abs⟩, ?_⟩
  refine Prog.implements_atomic fun w'' hm hi' => ?_
  obtain ⟨h1, h2, h3⟩ := updateConfigSellPrice_sets hi' none (hm _ htaken)
  exact ⟨h1, h2, some (configs.abs w''), .inr ⟨_, rfl, rfl, rfl, h3⟩, .inl ⟨_, rfl, rfl⟩⟩

/-- A call that reads the price first. -/
theorem implements_reading {c : PriceCall}
    (hreads : ∀ price, (priceRegister N.priceMsat).effect c price price price) {f : Int → NodeM ρ α}
    {Q : Option (Option Int) → Except Err α → World ρ → Prop}
    (hf : ∀ price w, (f (price.getD N.priceMsat)).Implements configs (priceRegister N.priceMsat) c Q (some price) w)
    (w : World ρ) :
    (SqueakController.getSellPriceMsat N >>= f).Implements configs (priceRegister N.priceMsat) c Q none w := by
  refine Prog.implements_bind (Prog.implements_bind (Prog.implements_atomic fun w' _ hi => ?_))
  refine ⟨hi, configs.refl _, some (configs.abs w'), .inr ⟨_, rfl, rfl, hreads _⟩, ?_⟩
  have hrest := hf (configs.abs w') w'
  have habs : configs.abs w' = getConfigSellPriceMsat NodeSettings.username w'.db := rfl
  rw [habs] at hrest ⊢
  cases hprice : getConfigSellPriceMsat NodeSettings.username w'.db with
  | none =>
    rw [hprice] at hrest
    exact hrest
  | some p =>
    rw [hprice] at hrest
    exact hrest

theorem implements_getSellPriceMsat (w : World ρ) :
    (PriceCall.program N .getSellPriceMsat).Implements configs (priceRegister N.priceMsat) .getSellPriceMsat
      (fun d r w => Answers configs (priceRegister N.priceMsat) .getSellPriceMsat d r w) none w :=
  implements_reading (fun _ => ⟨rfl, rfl⟩) (fun price _ => by exact Or.inl ⟨price, rfl, rfl⟩) w

/-- A request whose hash is no hash fails, whatever the price is. -/
theorem answers_error {c : PriceCall} (hreads : ∀ price, (priceRegister N.priceMsat).effect c price price price) (e : Err)
    (hanswer : ∀ price, (priceRegister N.priceMsat).answer c price (.error e)) (d : Option (Option Int)) (w : World ρ) :
    Answers configs (priceRegister N.priceMsat) c d (.error e) w := by
  cases d with
  | none => exact .inr ⟨rfl, fun w' _ _ => ⟨_, hreads _, hanswer _⟩⟩
  | some price => exact .inl ⟨price, rfl, hanswer price⟩

theorem implements_handleGetSecretKey (squeakHashStr : String) (w : World ρ) :
    (PriceCall.program N (.handleGetSecretKey squeakHashStr)).Implements configs (priceRegister N.priceMsat)
      (.handleGetSecretKey squeakHashStr)
      (fun d r w => Answers configs (priceRegister N.priceMsat) (.handleGetSecretKey squeakHashStr) d r w) none w := by
  have herror := fun e => answers_error (N := N) (c := .handleGetSecretKey squeakHashStr) (fun _ => ⟨rfl, rfl⟩) e
    (fun _ _ h => by cases h)
  refine Prog.implements_bind (Prog.implements_bind ?_)
  cases fromHex squeakHashStr with
  | error e => exact herror e none w
  | ok squeakHash =>
    refine implements_reading (fun _ => ⟨rfl, rfl⟩) (fun price w => ?_) w
    split
    · exact herror _ _ w
    · rename_i hfree
      refine Prog.implements_within (W := fun w _ w' => SameConfigs w w') (fun _ _ _ hi h => h.stutters hi) ?_ ?_
      · refine Prog.within_bind (within_query (fun _ => rfl) _) fun secretKey => ?_
        split <;> trivial
      · intro x w' _
        have hanswer : ∀ r, (priceRegister N.priceMsat).answer (.handleGetSecretKey squeakHashStr) price r :=
          fun _ _ _ => not_lt.1 hfree
        cases x with
        | error e => exact herror e _ w'
        | ok secretKey => exact .inl ⟨price, rfl, hanswer _⟩

/-- Making an offer writes into the table of sent offers only. -/
theorem sameConfigs_getPackagedOffer (squeakHash : Bytes) (peerAddress : PeerAddress) (priceMsat : Int)
    (lndExternalAddress : Option LightningAddressHostPort) :
    (SqueakStore.getPackagedOffer N squeakHash peerAddress priceMsat lndExternalAddress).Within
      fun w _ w' => SameConfigs w w' := by
  have hcreated : ∀ squeak secretKey, (SqueakCore.createOffer N squeak secretKey peerAddress priceMsat).Within
      fun w _ w' => SameConfigs w w' := fun _ _ =>
    Prog.within_bind (within_ask fun _ => rfl) fun _ => Prog.within_bind (Prog.within_ofExcept _) fun _ =>
      Prog.within_bind (within_call fun _ => rfl) fun _ => trivial
  have hsent : (SqueakStore.getSentOfferForPeer N squeakHash peerAddress priceMsat).Within
      fun w _ w' => SameConfigs w w' := by
    refine Prog.within_bind (within_getSqueak (fun _ => rfl) squeakHash) fun squeak =>
      Prog.within_bind (within_query (fun _ => rfl) _) fun secretKey => ?_
    rcases squeak with _ | squeak
    · trivial
    rcases secretKey with _ | secretKey
    · trivial
    refine Prog.within_bind (Prog.within_catchWith (Prog.within_bind (hcreated squeak secretKey) fun _ => trivial)
      fun _ => trivial) fun created => ?_
    cases created with
    | none => trivial
    | some sentOffer =>
      refine Prog.within_bind (Prog.within_bind (within_ask fun _ => rfl) fun now => ?_) fun _ => trivial
      exact Prog.within_bind (within_sql fun _ => rfl) fun _ => Prog.within_ofExcept _
  refine Prog.within_bind hsent fun sentOffer => ?_
  cases sentOffer with
  | none => trivial
  | some sentOffer =>
    refine Prog.within_bind ?_ fun _ => trivial
    cases lndExternalAddress with
    | some address => trivial
    | none =>
      refine Prog.within_bind (Prog.within_bind (within_call fun _ => rfl) fun info => ?_) fun _ => trivial
      split
      · trivial
      · exact Prog.within_bind (Prog.within_ofExcept _) fun _ => trivial

theorem implements_handleGetOffer (squeakHashStr clientHost : String) (w : World ρ) :
    (PriceCall.program N (.handleGetOffer squeakHashStr clientHost)).Implements configs (priceRegister N.priceMsat)
      (.handleGetOffer squeakHashStr clientHost)
      (fun d r w => Answers configs (priceRegister N.priceMsat) (.handleGetOffer squeakHashStr clientHost) d r w)
      none w := by
  have herror := fun e => answers_error (N := N) (c := .handleGetOffer squeakHashStr clientHost)
    (fun _ => ⟨rfl, rfl⟩) e (fun _ _ h => by cases h)
  refine Prog.implements_bind (Prog.implements_bind ?_)
  cases fromHex squeakHashStr with
  | error e => exact herror e none w
  | ok squeakHash =>
    refine Prog.implements_bind (implements_reading (fun _ => ⟨rfl, rfl⟩) (fun price w => ?_) w)
    split
    · exact herror _ _ w
    · rename_i hpriced
      have hanswer : ∀ r, (priceRegister N.priceMsat).answer (.handleGetOffer squeakHashStr clientHost) price r :=
        fun _ _ _ => hpriced
      refine Prog.implements_within (fun _ _ _ hi h => SameConfigs.stutters h hi)
        (sameConfigs_getPackagedOffer _ _ _ _) fun x w' _ => ?_
      rcases x with e | _ | offer
      · exact herror e _ w'
      · exact herror _ _ w'
      · exact .inl ⟨price, rfl, hanswer _⟩

theorem PriceCall.implements (c : PriceCall) (w : World ρ) :
    (PriceCall.program N c).Implements configs (priceRegister N.priceMsat) c
      (fun d r w => Answers configs (priceRegister N.priceMsat) c d r w) none w := by
  cases c with
  | setSellPriceMsat p => exact implements_setSellPriceMsat p w
  | clearSellPriceMsat => exact implements_clearSellPriceMsat w
  | getSellPriceMsat => exact implements_getSellPriceMsat w
  | handleGetSecretKey squeakHashStr => exact implements_handleGetSecretKey squeakHashStr w
  | handleGetOffer squeakHashStr clientHost => exact implements_handleGetOffer squeakHashStr clientHost w

end Calls

/-! ## Runs -/

/-- In every run of any number of clients that set, clear, read and use the price, with anything else that does
not write the configurations in between, the price is a linearizable register; it has one row, and it is never
negative if it was not at the start. -/
theorem sellPrice_linearizable (clients : List (Client PriceCall (Except Err PriceAnswer))) {w₀ : World ρ}
    (hunique : UniqueOn ConfigRow.username w₀.db.configs)
    {history : List (Pool (World ρ) (Event PriceCall (Option Int) (Except Err PriceAnswer)) Err)}
    {P : Pool (World ρ) (Event PriceCall (Option Int) (Except Err PriceAnswer)) Err}
    (hr : Pool.Run SameConfigs (.start w₀ (clients.map (Client.session (PriceCall.program N)))) history P) :
    UniqueOn ConfigRow.username P.shared.db.configs ∧
      Linearizable (priceRegister N.priceMsat) (getConfigSellPriceMsat NodeSettings.username w₀.db) P.trace
        (getConfigSellPriceMsat NodeSettings.username P.shared.db) ∧
      ((∀ p ∈ getConfigSellPriceMsat NodeSettings.username w₀.db, 0 ≤ p) →
        ∀ p ∈ getConfigSellPriceMsat NodeSettings.username P.shared.db, 0 ≤ p) := by
  obtain ⟨hinv, hlinear⟩ := hr.linearizable (fun c w => PriceCall.implements c w) (fun _ _ hi h => h.stutters hi) hunique
  refine ⟨hinv, hlinear, hlinear.invariant (I := fun price => ∀ p ∈ price, 0 ≤ p) ?_⟩
  rintro c price o price' hnonneg ⟨-, hc⟩
  cases c with
  | setSellPriceMsat p =>
    have hprice : price' = if p < 0 then price else some p := hc
    rw [hprice]
    split
    · exact hnonneg
    · rintro q ⟨⟩
      omega
  | clearSellPriceMsat =>
    have hprice : price' = none := hc
    rw [hprice]
    exact fun p hp => by cases hp
  | getSellPriceMsat => exact hc ▸ hnonneg
  | handleGetSecretKey => exact hc ▸ hnonneg
  | handleGetOffer => exact hc ▸ hnonneg

namespace Sample

/-- An admin who is refused a negative price and sets another, and a peer who asks for a key meanwhile. -/
def haggling : List (Client PriceCall (Except Err PriceAnswer)) :=
  [.call (.setSellPriceMsat (-5)) fun _ => .call (.setSellPriceMsat 3000) fun _ => .stop,
    .call (.handleGetSecretKey "00") fun _ => .call .getSellPriceMsat fun _ => .stop]

/-- The pool after the calls have taken turns. -/
def haggled : Pool (World Outside) (Event PriceCall (Option Int) (Except Err PriceAnswer)) Err :=
  (Pool.start world (haggling.map (Client.session (PriceCall.program (node 10))))).exec
    [0, 1, 0, 1, 0, 0, 1, 0, 1, 0, 1, 1, 0, 1]

end Sample

theorem sellPrice_linearizable_sample :
    getConfigSellPriceMsat NodeSettings.username Sample.haggled.shared.db = some 3000 ∧
      Linearizable (priceRegister (Sample.node 10).priceMsat) none Sample.haggled.trace (some 3000) := by
  have hprice : getConfigSellPriceMsat NodeSettings.username Sample.haggled.shared.db = some 3000 := by decide
  obtain ⟨history, hr⟩ := Pool.Run.exec [0, 1, 0, 1, 0, 0, 1, 0, 1, 0, 1, 1, 0, 1]
    (.init : Pool.Run SameConfigs
      (.start Sample.world (Sample.haggling.map (Client.session (PriceCall.program (Sample.node 10))))) _ _)
  have hunique : UniqueOn ConfigRow.username Sample.world.db.configs := List.nodup_nil
  have hlinear := (sellPrice_linearizable (Sample.node 10) Sample.haggling hunique hr).2.1
  exact ⟨hprice, hprice ▸ hlinear⟩

end Squeaknode
