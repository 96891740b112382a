import DistDB.ClusterSafety
import DistDB.NodeOrder

/-!
A cluster whose nodes may also stop inside the adoption of a snapshot, behind a save of the log and
before the members are stored. Such a node starts again with a log that begins behind the snapshot
and with the members of its old boundary.
-/

namespace DistDB.ClusterModel

open NodeModel NodeModel.Node Elections

variable {σ : Type} {cb : Callbacks σ} {s s' : Cluster σ} {ok : Cluster σ → Event σ → Prop}

inductive TornEvent (σ : Type)
  | whole (e : Event σ)
  /-- `HandleInstallSnapshot` is stopped behind the save of the log with this number. -/
  | tear (v : NodeId) (k : ℕ) (machine : σ)

def Cluster.tornStep? (cb : Callbacks σ) (s : Cluster σ) : TornEvent σ → Option (Cluster σ)
  | .whole e => s.step? cb e
  | .tear v k machine =>
    match s.installs v with
    | some ⟨_, req, covered, true⟩ => ((s.node v).adoptWrites req)[k]?.bind fun n =>
      (s.setNode v n (covered ++ n.log.entries)).step? cb (.restart v machine)
    | _ => none

/-- No node stops inside an adoption, and the other steps meet a condition. -/
def Whole (ok : Cluster σ → Event σ → Prop) (s : Cluster σ) : TornEvent σ → Prop
  | .whole e => ok s e
  | .tear .. => False

/-- The runs from a state in which nodes stop between their functions. -/
abbrev WholeRun (cb : Callbacks σ) (ok : Cluster σ → Event σ → Prop) :
    Cluster σ → Cluster σ → Prop :=
  Reach (StepOf? (Cluster.tornStep? cb)) (Whole ok)

/-- The runs from a state in which members change with care. -/
abbrev CarefulRun (cb : Callbacks σ) : Cluster σ → Cluster σ → Prop := WholeRun cb Careful

lemma WholeRun.plain (h : WholeRun cb ok s s') :
    Reach (StepOf? (Cluster.step? cb)) ok s s' := by
  induction h with
  | refl => exact .refl
  | @tail s₁ s₂ e _ hok hs ih =>
    cases e with
    | whole e => exact ih.tail hok hs
    | tear v k machine => exact hok.elim

def whole? (ok? : Cluster σ → Event σ → Bool) (s : Cluster σ) : TornEvent σ → Bool
  | .whole e => ok? s e
  | .tear .. => false

/-- Whether the steps that are no stop inside an adoption are taken with care. -/
def carefulTorn? (s : Cluster σ) : TornEvent σ → Bool
  | .whole e => careful? s e
  | .tear .. => true

lemma whole_of_run {ok? : Cluster σ → Event σ → Bool} {es : List (Event σ)}
    (hok : ∀ s e, ok? s e = true → ok s e)
    (h : runIf? (Cluster.tornStep? cb) (fun s e => whole? ok? s e = true) s
      (es.map .whole) = some s') : WholeRun cb ok s s' := by
  refine (reach_runIf? h).mono fun s₁ e hcheck => ?_
  cases e with
  | whole e => exact hok s₁ e hcheck
  | tear v k machine => cases hcheck

end DistDB.ClusterModel
