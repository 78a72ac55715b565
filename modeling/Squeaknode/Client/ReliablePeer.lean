/-
Peers that run this server. If a node keeps its squeaks, and its rows are sound, it is a reliable peer of every
node that finds their blocks on the chain; if its price is 0 and its keys open their squeaks, it gives them away.
-/
import Squeaknode.Client.SyncCompleteness
import Squeaknode.Client.DownloadTurns

namespace Squeaknode

open Interleave Relational SqueakDb SqueakStore NetworkController

variable {L : Squeaklib} {σ ρ : Type}

/-- What the peer answers is what the server `S` answers in its world at that time. -/
def AnswersFor (S : Node L σ) (N : Node L ρ) (peer : SqueakPeer) (page : Nat → Bytes) (clientHost : String)
    (server : ρ → World σ) : Prop :=
  ∀ request o, (N.requestsGet peer.address request o).1 = ((App.serve S page clientHost request).run (server o)).1

/-- Whenever the server is asked, it has the squeaks of the hashes in `has` that the client asks for, and its rows
are sound and on the chain. -/
structure Stocked (N : Node L ρ) (q : Timeline L) (server : ρ → World σ) (has : List Bytes) : Prop where
  rows : ∀ o, ∀ r ∈ (server o).db.squeaks, ∃ squeak, RowOf L squeak r ∧
    ∀ o', ∃ header, headerOf N squeak o' = .ok header
  heights : ∀ o, ∀ r ∈ (server o).db.squeaks, IsHeight r.blockHeight
  has : ∀ o, ∀ h ∈ has, ∃ r ∈ matching q.minBlock q.maxBlock q.pubkeys (server o).db, r.hash = h

/-- Whenever the server is asked, its price is 0, it has the keys of the hashes in `gives`, and every key opens its
squeak. -/
structure Unpriced (S : Node L σ) (server : ρ → World σ) (gives : List Bytes) : Prop where
  price : ∀ o, sellPriceMsat S (server o).db = 0
  keys : ∀ o, ∀ h ∈ gives, ∃ k, k ≠ [] ∧ SqueakDb.getSqueakSecretKey h (server o).db = some k
  opens : ∀ o, ∀ h k, SqueakDb.getSqueakSecretKey h (server o).db = some k → Opening L h k

section Server

variable {S : Node L σ} {N : Node L ρ} {peer : SqueakPeer} {page : Nat → Bytes} {clientHost : String}
  {server : ρ → World σ} {q : Timeline L} {has gives : List Bytes}

/-- No route takes an empty segment. -/
theorem run_serve_emptyHash {r : Request} (h : App.hashText r = some (hex [])) (w : World σ) :
    (App.serve S page clientHost r).run w = (.ok ⟨404, page 404⟩, w) :=
  App.run_serve_notFound S page h (by decide) clientHost w

/-- The server sends the squeak of its row, or answers that there is none. -/
theorem AnswersFor.squeak (hA : AnswersFor S N peer page clientHost server) (hC : L.CodecLaws)
    (hstock : Stocked N q server has) (h : Bytes) (o : ρ) :
    (gotSqueak L (N.requestsGet peer.address (.squeak (hex h)) o).1 = .ok none ∧
      (h ≠ [] → findSqueak h (server o).db = none)) ∨
    ∃ r squeak, findSqueak h (server o).db = some r ∧ RowOf L squeak r ∧
      (∀ o', ∃ header, headerOf N squeak o' = .ok header) ∧
      gotSqueak L (N.requestsGet peer.address (.squeak (hex h)) o).1 = .ok (some squeak) := by
  rw [hA]
  by_cases hne : h = []
  · subst hne
    rw [run_serve_emptyHash (r := .squeak (hex [])) rfl]
    exact .inl ⟨by simp [gotSqueak], fun hne => absurd rfl hne⟩
  · rw [App.run_serve_squeak S page (isSegment_hex hne), fromHex_hex]
    cases hfind : findSqueak h (server o).db with
    | none =>
      refine .inl ⟨?_, fun _ => rfl⟩
      simp [hfind, bind, Except.bind, App.servedSqueak, App.respond, App.statusOf, gotSqueak]
    | some r =>
      obtain ⟨squeak, ho, hchain⟩ := hstock.rows o r (findSqueak_some hfind).1
      refine .inr ⟨r, squeak, rfl, ho, hchain, ?_⟩
      simp [hfind, App.servedSqueak, ho.bytes, bind, Except.bind, App.respond, gotSqueak, hC.squeak]

/-- A node that runs this server and keeps its squeaks is a reliable peer. -/
theorem AnswersFor.reliable (hA : AnswersFor S N peer page clientHost server) (hC : L.CodecLaws) (hH : L.HeaderLaws)
    (hJ : S.json.Laws) (hjson : N.json = S.json) (hsqlite : S.sqlite.Reads q.pubkeys.length)
    (hnonempty : ∀ squeak, getHash L squeak ≠ []) (hkeys : q.pubkeys ≠ []) (hstock : Stocked N q server has) :
    Reliable N q peer has where
  lists o := by
    obtain ⟨rows, hperm, hlookup⟩ := lookupSqueaks_text q.minBlock q.maxBlock hsqlite hkeys (hstock.heights o)
    refine ⟨rows.map SqueakRow.hash, ?_, fun h hmem => ?_⟩
    · rw [hA, App.run_serve_lookup, servedLookup_lookupArgs S hC q.minBlock q.maxBlock hkeys, hlookup, hjson]
      exact parseLookup_lookupJson hJ _
    · obtain ⟨r, hr, rfl⟩ := hstock.has o h hmem
      exact List.mem_map_of_mem (hperm.mem_iff.2 hr)
  answers h o := by
    rcases hA.squeak hC hstock h o with ⟨hnone, -⟩ | ⟨r, squeak, -, -, -, hsome⟩
    · exact ⟨none, hnone⟩
    · exact ⟨some squeak, hsome⟩
  sends h hmem o := by
    obtain ⟨r, hr, rfl⟩ := hstock.has o h hmem
    have hrow := (List.mem_filter.1 hr).1
    obtain ⟨squeak, ho, -⟩ := hstock.rows o r hrow
    rcases hA.squeak hC hstock r.hash o with ⟨-, hnone⟩ | ⟨r', squeak', hfind, ho', -, hsome⟩
    · exact absurd rfl (findBy_none.1 (hnone (by rw [ho.hash]; exact hnonempty squeak)) r hrow)
    · -- squeaks of one hash have the same block height and author
      have hhash := ho'.hash.symm.trans ((findSqueak_some hfind).2.trans ho.hash)
      have hsame := hH.header squeak' squeak (List.reverse_injective hhash)
      refine ⟨squeak', hsome, ?_⟩
      exact (PeerDownloader.wanted_congr hhash hsame.blockHeight hsame.author _ _ _ _).trans (wanted_of_matching hC hr ho)
  sound h o squeak hsent _ := by
    rcases hA.squeak hC hstock h o with ⟨hnone, -⟩ | ⟨r, squeak', -, ho, hchain, hsome⟩
    · rw [hnone] at hsent
      cases hsent
    · rw [hsome] at hsent
      cases hsent
      exact ⟨ho.checked, hchain⟩

/-- The server sends the key of its row, if it has one. -/
theorem AnswersFor.secretKey (hA : AnswersFor S N peer page clientHost server) (hfree : Unpriced S server gives)
    (h : Bytes) (o : ρ) : gotSecretKey (N.requestsGet peer.address (.secretKey (hex h)) o).1 =
      .ok (if h = [] then none else (SqueakDb.getSqueakSecretKey h (server o).db).filter fun k => !k.isEmpty) := by
  rw [hA]
  by_cases hne : h = []
  · subst hne
    rw [run_serve_emptyHash (r := .secretKey (hex [])) rfl]
    simp [gotSecretKey]
  · rw [App.run_serve_secretKey S page (isSegment_hex hne), fromHex_hex, if_neg hne]
    simp only [bind, Except.bind, App.servedSecretKey, hfree.price, gt_iff_lt, lt_irrefl, if_false]
    cases (SqueakDb.getSqueakSecretKey h (server o).db).filter fun k => !k.isEmpty <;>
      simp [App.respond, App.statusOf, gotSecretKey]

/-- A node that runs this server for a price of 0 is a generous peer. -/
theorem AnswersFor.generous (hA : AnswersFor S N peer page clientHost server) (hnonempty : [] ∉ gives)
    (hfree : Unpriced S server gives) : Generous N peer gives where
  answers h o := ⟨_, hA.secretKey hfree h o⟩
  keys h hmem o := by
    obtain ⟨k, hne, hk⟩ := hfree.keys o h hmem
    have hhash : h ≠ [] := fun heq => hnonempty (heq ▸ hmem)
    refine ⟨k, hne, ?_⟩
    rw [hA.secretKey hfree, if_neg hhash, hk]
    simp [Option.filter, hne]
  opens h o k hk _ := by
    rw [hA.secretKey hfree] at hk
    split at hk
    · cases hk
    · exact hfree.opens o h k (Option.filter_eq_some_iff.1 (Except.ok.inj hk)).1
  free h o := by
    rw [hA]
    by_cases hne : h = []
    · subst hne
      rw [run_serve_emptyHash (r := .offer (hex [])) rfl]
      simp [gotOffer]
    · rw [App.run_serve_offer S page (isSegment_hex hne),
        App.run_offer_free S (fromHex_hex _) clientHost (hfree.price o)]
      simp [App.respond, App.statusOf, gotOffer]

end Server

end Squeaknode
