import Mathlib.Logic.Relation
import Mathlib.Data.Set.Card
import Mathlib.Data.Set.Lattice
import Mathlib.Order.CompletePartialOrder

/-!
# Ranks of acyclic relations with finitely many sources

A relation without directed cycles in which finitely many vertices have an outgoing edge has a rank
that drops along every edge and is at most the number of these vertices
(`exists_rank_of_acyclic`). A traversal that follows edges can therefore be run with that number as
its bound.
-/

set_option autoImplicit false

namespace PipelineTools.Library

universe u

variable {V : Type u}

/-- No vertex is reachable from itself by a nonempty path. -/
def Acyclic (r : V → V → Prop) : Prop :=
  ∀ v, ¬ Relation.TransGen r v v

/-- The vertices with an outgoing edge. -/
def tails (r : V → V → Prop) : Set V :=
  {v | ∃ w, r v w}

/-- The vertices with an outgoing edge that are reachable from `v`, `v` included. -/
def tailsBelow (r : V → V → Prop) (v : V) : Set V :=
  {w | w ∈ tails r ∧ Relation.ReflTransGen r v w}

theorem tailsBelow_subset (r : V → V → Prop) (v : V) : tailsBelow r v ⊆ tails r :=
  fun _ hw => hw.1

theorem tailsBelow_ssubset {r : V → V → Prop} (h : Acyclic r) {v w : V} (hvw : r v w) :
    tailsBelow r w ⊂ tailsBelow r v := by
  refine Set.ssubset_iff_exists.2 ⟨fun x hx => ⟨hx.1, hx.2.head hvw⟩, v, ⟨⟨w, hvw⟩, .refl⟩, ?_⟩
  rintro ⟨-, hwv⟩
  exact h v (Relation.TransGen.head' hvw hwv)

/-- The rank of an acyclic relation. -/
theorem exists_rank_of_acyclic {r : V → V → Prop} (hfin : (tails r).Finite) (h : Acyclic r) :
    ∃ rank : V → Nat, (∀ v, rank v ≤ (tails r).ncard) ∧ ∀ v w, r v w → rank w < rank v := by
  refine ⟨fun v => (tailsBelow r v).ncard, fun v => ?_, fun v w hvw => ?_⟩
  · exact Set.ncard_le_ncard (tailsBelow_subset r v) hfin
  · exact Set.ncard_lt_ncard (tailsBelow_ssubset h hvw) (hfin.subset (tailsBelow_subset r v))

/-- A rank that drops along every edge excludes cycles. -/
theorem acyclic_of_rank {r : V → V → Prop} (rank : V → Nat)
    (h : ∀ v w, r v w → rank w < rank v) : Acyclic r := by
  have hlt : ∀ v w, Relation.TransGen r v w → rank w < rank v := by
    intro v w hvw
    induction hvw with
    | single hvw => exact h _ _ hvw
    | tail _ hvw ih => exact lt_trans (h _ _ hvw) ih
  exact fun v hv => lt_irrefl _ (hlt v v hv)

end PipelineTools.Library
