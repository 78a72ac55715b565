/-
`NetworkController`: it reads what to ask for and whom, and starts a thread for each peer. The pool of an
executor runs at most 50 of them at a time, so its runs are among those of a pool without a bound.
-/
import Squeaknode.Client.PeerDownloader
import Squeaknode.Node.Listeners
import Squeaknode.Db.Peers
import Squeaknode.Relational.Keyset

namespace Squeaknode

open Interleave Relational

variable {L : Squeaklib} {ρ : Type}

namespace SqueakDb

def getFollowingProfiles (db : Db) : List ProfileRow := db.profiles.rows.filter ProfileRow.following

theorem publicKey_of_parse {r : ProfileRow} {profile : SqueakProfile L} (h : parseSqueakProfile L r = .ok profile) :
    L.publicKeyFromBytes r.publicKey = .ok profile.publicKey := by
  unfold parseSqueakProfile at h
  split at h
  all_goals
    obtain ⟨privateKey, -, h⟩ := ok_of_bind h
    obtain ⟨publicKey, hkey, h⟩ := ok_of_bind h
    cases h
    exact hkey

end SqueakDb

namespace SqueakStore

/-- `get_latest_block`: the height of the best block. -/
def getLatestBlock (N : Node L ρ) : NodeM ρ Int := do
  let blockInfo ← call N.bitcoinClient.getBestBlockInfo
  return blockInfo.blockHeight

def getFollowedPublicKeys (L : Squeaklib) : NodeM ρ (List L.PublicKey) := do
  let rows ← query SqueakDb.getFollowingProfiles
  let followedProfiles ← Prog.ofExcept (rows.mapM (SqueakDb.parseSqueakProfile L))
  return followedProfiles.map SqueakDb.SqueakProfile.publicKey

/-- The table of peers is read from the world around the other tables. -/
def getAutoconnectPeers (peers : ρ → Peers) : NodeM ρ (List SqueakPeer) :=
  ask fun o => ((peers o).getAutoconnectPeers, o)

end SqueakStore

namespace NetworkController

/-- What the threads of `download_timeline` are started with. -/
structure Timeline (L : Squeaklib) where
  minBlock : Int
  maxBlock : Int
  pubkeys : List L.PublicKey
  peers : List SqueakPeer

/-- A download that is not bounded: 0 and an empty list exclude nothing. -/
def Timeline.unbounded (L : Squeaklib) (peers : List SqueakPeer) : Timeline L := ⟨0, 0, [], peers⟩

/-- `download_timeline` up to its threads. -/
def timeline (N : Node L ρ) (peers : ρ → Peers) (interestBlockInterval : Int) : NodeM ρ (Timeline L) := do
  let maxBlock ← SqueakStore.getLatestBlock N
  let minBlock := max 0 (maxBlock - interestBlockInterval)
  let followedPublicKeys ← SqueakStore.getFollowedPublicKeys L
  let autoconnectPeers ← SqueakStore.getAutoconnectPeers peers
  return ⟨minBlock, maxBlock, followedPublicKeys, autoconnectPeers⟩

/-- The interval ends at the best block, the authors are those of the followed profiles, and no two threads ask the
same host and port. -/
theorem timeline_reads {N : Node L ρ} {peers : ρ → Peers} {interestBlockInterval : Int} {w : World ρ} {q : Timeline L}
    (h : ((timeline N peers interestBlockInterval).run w).1 = .ok q) :
    q.minBlock = max 0 (q.maxBlock - interestBlockInterval) ∧
    (∀ k ∈ q.pubkeys, ∃ r ∈ w.db.profiles.rows, r.following = true ∧ L.publicKeyFromBytes r.publicKey = .ok k) ∧
    (∀ r ∈ w.db.profiles.rows, r.following = true → ∃ k ∈ q.pubkeys, L.publicKeyFromBytes r.publicKey = .ok k) ∧
    (q.peers.map fun p => (p.address.host, p.address.port)).Nodup := by
  unfold timeline SqueakStore.getLatestBlock SqueakStore.getFollowedPublicKeys SqueakStore.getAutoconnectPeers at h
  simp only [Prog.run_bind, run_call, run_query, run_ask, Prog.run_ofExcept, Prog.pure_eq, Prog.run_ret] at h
  rcases hbest : (N.bitcoinClient.getBestBlockInfo w.env).1 with e | blockInfo
  · rw [hbest] at h
    cases h
  · rw [hbest] at h
    dsimp only at h
    rcases hparsed : (SqueakDb.getFollowingProfiles w.db).mapM (SqueakDb.parseSqueakProfile L) with e | profiles
    · rw [hparsed] at h
      cases h
    · rw [hparsed] at h
      cases h
      refine ⟨rfl, fun k hk => ?_, fun r hr hfollowing => ?_, ?_⟩
      · obtain ⟨profile, hprofile, rfl⟩ := List.mem_map.1 hk
        obtain ⟨r, hr, hparse⟩ := exists_of_mem_mapM hparsed hprofile
        obtain ⟨hrow, hfollowing⟩ := List.mem_filter.1 hr
        exact ⟨r, hrow, hfollowing, SqueakDb.publicKey_of_parse hparse⟩
      · obtain ⟨profile, hprofile, hparse⟩ := exists_of_mapM_mem hparsed (List.mem_filter.2 ⟨hr, hfollowing⟩)
        exact ⟨profile.publicKey, List.mem_map_of_mem hprofile, SqueakDb.publicKey_of_parse hparse⟩
      · let o := (N.bitcoinClient.getBestBlockInfo w.env).2
        have hsame : ((peers o).getAutoconnectPeers.map fun p => (p.address.host, p.address.port)) =
            ((peers o).table.rows.filter PeerRow.autoconnect).map PeerRow.hostPort := by
          unfold Peers.getAutoconnectPeers
          rw [List.map_map]
          rfl
        have hnodup : (((peers o).table.rows.filter PeerRow.autoconnect).map PeerRow.hostPort).Nodup :=
          (peers o).hostPorts.sublist (List.filter_sublist.map _)
        rw [← hsame] at hnodup
        exact hnodup

/-- The threads of `download_timeline`, which notify the listeners of the store. -/
def Timeline.downloads (N : Node L ρ) (listeners : Listeners L ρ) (q : Timeline L) : List (NodeM ρ Unit) :=
  q.peers.map fun peer => PeerDownloader.downloadInterestRangeWith N peer (NotifyingStore.saveSqueak N listeners)
    (NotifyingStore.saveSecretKey listeners) (NotifyingStore.handleOffer N listeners) q.minBlock q.maxBlock q.pubkeys

/-- The threads of `download_single_squeak`, which has read the peers. -/
def downloadSingleSqueak (N : Node L ρ) (listeners : Listeners L ρ) (peers : List SqueakPeer) (squeakHash : Bytes) :
    List (NodeM ρ Unit) :=
  peers.map fun peer => PeerDownloader.downloadSingleSqueakWith N peer (NotifyingStore.saveSqueak N listeners)
    (NotifyingStore.saveSecretKey listeners) (NotifyingStore.handleOffer N listeners) squeakHash

end NetworkController

end Squeaknode
