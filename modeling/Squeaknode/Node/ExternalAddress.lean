/-
The address that the node sells under: the first URI of its lightning node, split at `@` and at `:`. It is
read when the offer is packaged, after the invoice was made and the sent offer recorded.
-/
import Squeaknode.Node.StoreRuns
import Squeaknode.Client.PeerRuns
import Squeaknode.Node.Sample
import Mathlib.Tactic.IntervalCases

namespace Squeaknode

open Interleave Relational SqueakDb SqueakStore

/-! ## URIs of a lightning node -/

/-- A character of a hostname, of a dotted address or of an onion name. -/
def isNameChar (c : Char) : Bool := c.isAlphanum || c == '-' || c == '.' || c == '_'

/-- A character of an IPv6 address, with its zone. -/
def isIpv6Char (c : Char) : Bool := isNameChar c || c == ':' || c == '%'

/-- A host name, with its characters. -/
structure HostName where
  chars : List Char
  plain : ∀ c ∈ chars, isNameChar c = true

/-- An IPv6 address: two colons at least. -/
structure Ipv6Address where
  chars : List Char
  plain : ∀ c ∈ chars, isIpv6Char c = true
  colons : 2 ≤ chars.count ':'

/-- The hosts of the grammar. -/
inductive LndHost where
  | ipv4 (a b c d : UInt8)
  | hostname (name : HostName)
  | onion (name : HostName)
  | ipv6 (address : Ipv6Address)

namespace LndHost

/-- The decimal digits of a part of an IPv4 address. -/
def decimal (n : UInt8) : List Char := Nat.toDigits 10 n.toNat

/-- The host as it stands in a URI. -/
def chars : LndHost → List Char
  | ipv4 a b c d => decimal a ++ '.' :: decimal b ++ '.' :: decimal c ++ '.' :: decimal d
  | hostname name => name.chars
  | onion name => name.chars ++ ".onion".toList
  | ipv6 address => '[' :: address.chars ++ [']']

/-- The host is written in brackets. -/
def isIpv6 : LndHost → Bool
  | ipv6 _ => true
  | _ => false

theorem isNameChar_decimal (n : UInt8) : ∀ c ∈ decimal n, isNameChar c = true := by
  intro c hc
  have hdigit : c.isDigit = true := Nat.isDigit_of_mem_toDigits (by decide) (by decide) hc
  simp [isNameChar, Char.isAlphanum, hdigit]

/-- No separator stands in a host without brackets. -/
theorem isNameChar_chars {host : LndHost} (h : host.isIpv6 = false) : ∀ c ∈ host.chars, isNameChar c = true := by
  have hdot : isNameChar '.' = true := by decide
  have honion : ∀ c ∈ ".onion".toList, isNameChar c = true := List.all_eq_true.1 rfl
  intro c hc
  cases host with
  | ipv4 a b x y =>
    simp only [chars, List.mem_append, List.mem_cons] at hc
    rcases hc with ((hc | rfl | hc) | rfl | hc) | rfl | hc
    · exact isNameChar_decimal a c hc
    · exact hdot
    · exact isNameChar_decimal b c hc
    · exact hdot
    · exact isNameChar_decimal x c hc
    · exact hdot
    · exact isNameChar_decimal y c hc
  | hostname name => exact name.plain c hc
  | onion name =>
    rcases List.mem_append.1 hc with hc | hc
    · exact name.plain c hc
    · exact honion c hc
  | ipv6 address => cases h

theorem colon_mem_chars {host : LndHost} (h : host.isIpv6 = true) : ':' ∈ host.chars := by
  cases host with
  | ipv6 address =>
    have hcolon : ':' ∈ address.chars := List.count_pos_iff.1 (lt_of_lt_of_le Nat.zero_lt_two address.colons)
    simp [chars, hcolon]
  | ipv4 a b c d => cases h
  | hostname name => cases h
  | onion name => cases h

theorem at_not_mem_chars (host : LndHost) : '@' ∉ host.chars := by
  intro hat
  rcases hhost : host.isIpv6 with _ | _
  · exact absurd (isNameChar_chars hhost '@' hat) (by decide)
  · cases host with
    | ipv6 address =>
      have hmem : '@' ∈ address.chars := by simpa [chars] using hat
      exact absurd (address.plain '@' hmem) (by decide)
    | ipv4 a b c d => cases hhost
    | hostname name => cases hhost
    | onion name => cases hhost

end LndHost

/-- `pubkey@host:port`. -/
structure LndUri where
  pubkey : Bytes
  host : LndHost
  port : Nat

namespace LndUri

/-- The URI as lnd writes it. -/
def text (u : LndUri) : String :=
  String.ofList (hexDigits u.pubkey ++ '@' :: (u.host.chars ++ ':' :: (toString u.port).toList))

/-- The host and the port of the URI. -/
def address (u : LndUri) : LightningAddressHostPort := ⟨String.ofList u.host.chars, u.port⟩

/-! ## Reading a URI -/

theorem at_not_mem_hexDigits (bytes : Bytes) : '@' ∉ hexDigits bytes := by
  intro hmem
  obtain ⟨n, hn, heq⟩ := mem_hexDigits hmem
  interval_cases n <;> exact absurd heq (by decide)

theorem isNumeric_port (n : Nat) : ∀ c ∈ (toString n).toList, isNumeric c = true := isNumeric_toString n

theorem pythonInt_port (n : Nat) : pythonInt (toString n) = .ok (n : Int) := pythonInt_toString n

/-- The part of the URI behind the public key. -/
theorem splitOn_text (u : LndUri) :
    u.text.toList.splitOn '@' = [hexDigits u.pubkey, u.host.chars ++ ':' :: (toString u.port).toList] := by
  have hport : '@' ∉ (toString u.port).toList := fun h => absurd (isNumeric_port u.port '@' h) (by decide)
  have haddress : '@' ∉ u.host.chars ++ ':' :: (toString u.port).toList := by
    simp only [List.mem_append, List.mem_cons, not_or]
    exact ⟨u.host.at_not_mem_chars, by decide, hport⟩
  rw [text, String.toList_ofList, List.splitOn_append_cons_self_of_not_mem (at_not_mem_hexDigits u.pubkey),
    List.splitOn_eq_singleton haddress]

/-- Without brackets the address has two parts. -/
theorem parseLndUri_text {u : LndUri} (h : u.host.isIpv6 = false) : SqueakCore.parseLndUri u.text = .ok u.address := by
  have hhost : ':' ∉ u.host.chars := fun hc => absurd (LndHost.isNameChar_chars h ':' hc) (by decide)
  have hport : ':' ∉ (toString u.port).toList := fun hc => absurd (isNumeric_port u.port ':' hc) (by decide)
  have hsplit : (u.host.chars ++ ':' :: (toString u.port).toList).splitOn ':' =
      [u.host.chars, (toString u.port).toList] := by
    rw [List.splitOn_append_cons_self_of_not_mem hhost, List.splitOn_eq_singleton hport]
  rw [SqueakCore.parseLndUri_parts (splitOn_text u) hsplit, String.ofList_toList, pythonInt_port]
  rfl

/-- With brackets it has three at least. -/
theorem parseLndUri_ipv6 {u : LndUri} (h : u.host.isIpv6 = true) :
    SqueakCore.parseLndUri u.text = .error (.valueError "too many values to unpack (expected 2)") := by
  obtain ⟨front, back, hhost⟩ := List.append_of_mem (LndHost.colon_mem_chars h)
  have hsplit : (u.host.chars ++ ':' :: (toString u.port).toList).splitOn ':' =
      front.splitOn ':' ++ back.splitOn ':' ++ (toString u.port).toList.splitOn ':' := by
    rw [List.splitOn_append_cons_self, hhost, List.splitOn_append_cons_self]
  obtain ⟨part₁, parts₁, h₁⟩ := List.exists_cons_of_ne_nil (List.splitOn_ne_nil ':' front)
  obtain ⟨part₂, parts₂, h₂⟩ := List.exists_cons_of_ne_nil (List.splitOn_ne_nil ':' back)
  obtain ⟨part₃, parts₃, h₃⟩ := List.exists_cons_of_ne_nil (List.splitOn_ne_nil ':' (toString u.port).toList)
  have hlength : 3 ≤ (front.splitOn ':' ++ back.splitOn ':' ++ (toString u.port).toList.splitOn ':').length := by
    simp only [h₁, h₂, h₃, List.length_append, List.length_cons]
    omega
  refine SqueakCore.parseLndUri_manyParts (splitOn_text u) ?_
  rw [hsplit]
  exact hlength

end LndUri

/-! ## The address of the node -/

/-- The external address of a node with these URIs. -/
def externalAddress (uris : List LndUri) : Option LightningAddressHostPort := uris.head?.map LndUri.address

/-- The first URI has no brackets, if there is one. -/
def FirstUriPlain (uris : List LndUri) : Prop := ∀ u, uris.head? = some u → u.host.isIpv6 = false

section Packaging

variable {L : Squeaklib} {ρ : Type} {N : Node L ρ}

/-- What packaging reads of the lightning node. -/
theorem packageAddress_uris {info : Info} {env env' : ρ} {uris : List LndUri}
    (hinfo : N.lightningClient.getInfo env = (.ok info, env')) (huris : info.uris = uris.map LndUri.text) :
    packageAddress N none env = (match uris with
      | [] => .ok none
      | u :: _ => some <$> SqueakCore.parseLndUri u.text, env') := by
  unfold packageAddress
  rw [hinfo]
  simp only [huris]
  cases uris <;> rfl

theorem packageAddress_plain {info : Info} {env env' : ρ} {uris : List LndUri}
    (hinfo : N.lightningClient.getInfo env = (.ok info, env')) (huris : info.uris = uris.map LndUri.text)
    (h : FirstUriPlain uris) : packageAddress N none env = (.ok (externalAddress uris), env') := by
  rw [packageAddress_uris hinfo huris]
  cases uris with
  | nil => rfl
  | cons u uris =>
    simp only [LndUri.parseLndUri_text (h u rfl)]
    rfl

theorem packageAddress_ipv6 {info : Info} {env env' : ρ} {uris : List LndUri}
    (hinfo : N.lightningClient.getInfo env = (.ok info, env')) (huris : info.uris = uris.map LndUri.text)
    (h : ¬ FirstUriPlain uris) : ∃ e, packageAddress N none env = (.error e, env') := by
  rw [packageAddress_uris hinfo huris]
  cases uris with
  | nil => exact absurd (fun u hu => by cases hu) h
  | cons u uris =>
    have hipv6 : u.host.isIpv6 = true := by
      by_contra hplain
      refine h fun u' hu' => ?_
      cases hu'
      exact Bool.eq_false_iff.2 hplain
    simp only [LndUri.parseLndUri_ipv6 hipv6]
    exact ⟨_, rfl⟩

/-- The address is read when the first URI is plain. -/
theorem getLndExternalAddress_iff {info : Info} {w : World ρ} {env : ρ} {uris : List LndUri}
    (hinfo : N.lightningClient.getInfo w.env = (.ok info, env)) (huris : info.uris = uris.map LndUri.text) :
    (SqueakCore.getLndExternalAddress N).run w = (.ok (externalAddress uris), { w with env := env }) ↔
      FirstUriPlain uris := by
  rw [run_getLndExternalAddress]
  constructor
  · intro h
    by_contra hplain
    obtain ⟨e, he⟩ := packageAddress_ipv6 hinfo huris hplain
    rw [he] at h
    cases congrArg Prod.fst h
  · intro h
    rw [packageAddress_plain hinfo huris h]

/-! ## Selling under it -/

theorem run_getPackagedOffer_saved {squeakHash secretKey : Bytes} {peerAddress : PeerAddress} {priceMsat : Int}
    {w w₁ w₂ : World ρ} {r : SqueakRow} {squeak : L.CSqueak} {o : SentOffer} {id : Nat}
    (hr : findSqueak squeakHash w.db = some r) (hs : L.deserialize r.squeak = .ok squeak)
    (hk : r.secretKey = some secretKey)
    (hcreated : (SqueakCore.createOffer N squeak secretKey peerAddress priceMsat).run w = (.ok o, w₁))
    (hsaved : (saveSentOffer N o).run w₁ = (.ok id, w₂)) (configured : Option LightningAddressHostPort) :
    (getPackagedOffer N squeakHash peerAddress priceMsat configured).run w =
      ((fun address => some (offerOf o address)) <$> (packageAddress N configured w₂.env).1,
        { w₂ with env := (packageAddress N configured w₂.env).2 }) := by
  unfold getPackagedOffer
  rw [Prog.run_bind_of_ok (run_getSentOfferForPeer_saved hr hs hk hcreated hsaved)]
  simp only [Prog.run_bind, run_packageOffer]
  cases (packageAddress N configured w₂.env).1 <;> rfl

/-- A sent offer that was saved is in the table. -/
theorem saved_mem_sentOffers {o : SentOffer} {w₁ w₂ : World ρ} {id : Nat}
    (hsaved : (saveSentOffer N o).run w₁ = (.ok id, w₂)) :
    ∃ row ∈ w₂.db.sentOffers.rows, row.sentOfferId = id ∧ row.paymentHash = o.paymentHash := by
  by_cases hfree : ∀ row ∈ w₁.db.sentOffers.rows, row.paymentHash ≠ o.paymentHash
  · rw [run_saveSentOffer_free hfree] at hsaved
    cases hsaved
    exact ⟨sentOfferRow (N.timestampNowMs w₁.env).1 o (w₁.db.sentOffers.lastId + 1),
      List.mem_append_right _ (List.mem_singleton_self _), rfl, rfl⟩
  · push Not at hfree
    have ht : taken SentOfferRow.paymentHash
        (sentOfferRow (N.timestampNowMs w₁.env).1 o (w₁.db.sentOffers.lastId + 1)).paymentHash w₁.db.sentOffers.rows =
          true := taken_iff.2 hfree
    unfold saveSentOffer at hsaved
    rw [Prog.run_bind, run_ask] at hsaved
    simp only [Prog.run_bind, run_sql, insertSentOffer, Table.insert_of_taken ht, Prog.run_ofExcept] at hsaved
    cases congrArg Prod.fst hsaved

/-- For every list of URIs the address of the node is the one of the first URI when that URI is plain, and
then a recorded offer is sold under it. Where it is needed and is not plain, the call raises with the
offer recorded. -/
theorem packaged_offer_iff (N : Node L ρ) (uris : List LndUri) :
    (∀ (w : World ρ) (info : Info) (env : ρ), N.lightningClient.getInfo w.env = (.ok info, env) →
      info.uris = uris.map LndUri.text →
      ((SqueakCore.getLndExternalAddress N).run w = (.ok (externalAddress uris), { w with env := env }) ↔
        FirstUriPlain uris)) ∧
    ∀ (squeakHash secretKey : Bytes) (peerAddress : PeerAddress) (priceMsat : Int) (w w₁ w₂ : World ρ) (r : SqueakRow)
      (squeak : L.CSqueak) (o : SentOffer) (id : Nat) (info : Info) (env : ρ),
      findSqueak squeakHash w.db = some r → L.deserialize r.squeak = .ok squeak → r.secretKey = some secretKey →
      (SqueakCore.createOffer N squeak secretKey peerAddress priceMsat).run w = (.ok o, w₁) →
      (saveSentOffer N o).run w₁ = (.ok id, w₂) →
      N.lightningClient.getInfo w₂.env = (.ok info, env) → info.uris = uris.map LndUri.text →
      ((getPackagedOffer N squeakHash peerAddress priceMsat none).run w =
        (.ok (some (offerOf o (externalAddress uris))), { w₂ with env := env }) ↔ FirstUriPlain uris) ∧
      (¬ FirstUriPlain uris →
        (∃ e, (getPackagedOffer N squeakHash peerAddress priceMsat none).run w = (.error e, { w₂ with env := env })) ∧
        ∃ row ∈ w₂.db.sentOffers.rows, row.sentOfferId = id ∧ row.paymentHash = o.paymentHash) ∧
      ∀ address, (getPackagedOffer N squeakHash peerAddress priceMsat (some address)).run w =
        (.ok (some (offerOf o (some address))), w₂) := by
  refine ⟨fun w info env hinfo huris => getLndExternalAddress_iff hinfo huris, ?_⟩
  intro squeakHash secretKey peerAddress priceMsat w w₁ w₂ r squeak o id info env hr hs hk hcreated hsaved hinfo huris
  have hraises : ¬ FirstUriPlain uris → ∃ e, (getPackagedOffer N squeakHash peerAddress priceMsat none).run w =
      (.error e, { w₂ with env := env }) := by
    intro h
    obtain ⟨e, he⟩ := packageAddress_ipv6 hinfo huris h
    refine ⟨e, ?_⟩
    rw [run_getPackagedOffer_saved hr hs hk hcreated hsaved, he]
    rfl
  refine ⟨⟨fun h => ?_, fun h => ?_⟩, fun h => ⟨hraises h, saved_mem_sentOffers hsaved⟩, fun address => ?_⟩
  · by_contra hplain
    obtain ⟨e, he⟩ := hraises hplain
    rw [he] at h
    cases congrArg Prod.fst h
  · rw [run_getPackagedOffer_saved hr hs hk hcreated hsaved, packageAddress_plain hinfo huris h]
    rfl
  · rw [run_getPackagedOffer_saved hr hs hk hcreated hsaved]
    rfl

end Packaging

namespace Sample

/-- A node whose lightning node reports these URIs. -/
def urisNode (uris : List LndUri) : Node squeaklib Outside :=
  { node 1 with lightningClient := { lightningClient with getInfo := fun o => (.ok ⟨uris.map LndUri.text⟩, o) } }

/-- An onion address. -/
def onionUri : LndUri := ⟨[2, 171], .onion ⟨"lnd".toList, List.all_eq_true.1 rfl⟩, 9735⟩

/-- The loopback address, in brackets. -/
def ipv6Uri : LndUri := ⟨[2, 171], .ipv6 ⟨"::1".toList, List.all_eq_true.1 rfl, by decide⟩, 9735⟩

end Sample

open Sample in
theorem packaged_offer_onion : ∃ offer w,
    (getPackagedOffer (urisNode [onionUri]) squeak.val.reverse ⟨.IPV4, "buyer", 8555⟩ 1000 none).run
      (owner (scalarToBytes 5) "x") = (.ok (some offer), w) ∧ offer.host = "lnd.onion" ∧ offer.port = 9735 := by
  have hpackaged := ((packaged_offer_iff (urisNode [onionUri]) [onionUri]).2 squeak.val.reverse (scalarToBytes 5)
    ⟨.IPV4, "buyer", 8555⟩ 1000 (owner (scalarToBytes 5) "x") _ _ (unlockedRow (scalarToBytes 5) "x") squeak _ _ _ _
      rfl rfl rfl
    rfl rfl rfl rfl).1.2
  refine ⟨_, _, hpackaged fun u hu => ?_, rfl, rfl⟩
  cases hu
  rfl

open Sample in
/-- With the URI `02ab@[::1]:9735` the node makes an invoice, records the offer, and raises. -/
theorem ipv6_address_raises : ipv6Uri.text = "02ab@[::1]:9735" ∧
    (SqueakCore.getLndExternalAddress (urisNode [ipv6Uri])).run (owner (scalarToBytes 5) "x") =
      (.error (.valueError "too many values to unpack (expected 2)"), owner (scalarToBytes 5) "x") ∧
    ∃ o w₁ w₂, (SqueakCore.createOffer (urisNode [ipv6Uri]) squeak (scalarToBytes 5) ⟨.IPV4, "buyer", 8555⟩ 1000).run
        (owner (scalarToBytes 5) "x") = (.ok o, w₁) ∧
      (saveSentOffer (urisNode [ipv6Uri]) o).run w₁ = (.ok 1, w₂) ∧
      (getPackagedOffer (urisNode [ipv6Uri]) squeak.val.reverse ⟨.IPV4, "buyer", 8555⟩ 1000 none).run
        (owner (scalarToBytes 5) "x") = (.error (.valueError "too many values to unpack (expected 2)"), w₂) ∧
      w₂.db.sentOffers.rows.map SentOfferRow.paymentHash = [o.paymentHash] ∧
      w₂.env.invoices.map (fun i => i.1.rHash) = [o.paymentHash] := by
  have hparse : SqueakCore.parseLndUri ipv6Uri.text =
      .error (.valueError "too many values to unpack (expected 2)") := LndUri.parseLndUri_ipv6 rfl
  have haddress : ∀ env : Outside, packageAddress (urisNode [ipv6Uri]) none env =
      (.error (.valueError "too many values to unpack (expected 2)"), env) := by
    intro env
    show (some <$> SqueakCore.parseLndUri ipv6Uri.text, env) = _
    rw [hparse]
    rfl
  refine ⟨by decide +kernel, ?_, _, _, _, rfl, rfl, ?_, rfl, rfl⟩
  · rw [run_getLndExternalAddress, haddress]
  · have hr : findSqueak squeak.val.reverse (owner (scalarToBytes 5) "x").db =
        some (unlockedRow (scalarToBytes 5) "x") := rfl
    have hs : squeaklib.deserialize (unlockedRow (scalarToBytes 5) "x").squeak = .ok squeak := rfl
    have hk : (unlockedRow (scalarToBytes 5) "x").secretKey = some (scalarToBytes 5) := rfl
    rw [run_getPackagedOffer_saved hr hs hk rfl rfl, haddress]
    rfl

end Squeaknode
