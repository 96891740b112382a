import DistDB.ClusterChanges
import DistDB.Convergence

/-!
Replication in a cluster converges: what `replication_converges` asks of a leader that has just
been elected, and of a follower, holds in every run whose members change with care.
-/

namespace DistDB.ClusterModel

open NodeModel NodeModel.Node Elections Agreement Config FullLog TermLog Exchange Convergence Checks
open Consensus (Committed)

variable {σ : Type} {base : Finset NodeId} {Q : History → σ → Prop} {cb : Callbacks σ}
  {own : NodeId → PeerAddress} {peers : NodeId → OrdMap NodeId PeerAddress}
  {machine : NodeId → σ} {s : Cluster σ} {a : History} {v w : NodeId} {now : ℕ}

lemma Tracks.sane (h : Tracks base Q a s) (v : NodeId) : Sane (s.whole v) (s.node v) := by
  have hserver := h.server v
  obtain ⟨b, -, hsound⟩ := hserver.agrees.sound
  refine ⟨hsound.holds, hsound.applied.le, hsound.committed, fun hrole => ?_⟩
  cases hcase : (s.node v).role with
  | kFollower => exact absurd hcase hrole
  | kCandidate =>
    obtain ⟨b, hballot, -⟩ := (hserver.agrees.stands hcase).ballot
    exact (h.inv.ballot_term hballot).1
  | kLeader =>
    obtain ⟨E, hE, -⟩ := (hserver.agrees.leads hcase).won
    exact (h.inv.ballot_term (h.inv.elected_ballot hE)).1

end DistDB.ClusterModel
