import Mathlib.Data.Set.Finite.Basic
import Mathlib.Order.WellFoundedSet

/-!
# Following links

A search that follows every link from a node, and the links from there, comes to an end where the node is
accessible. Where it can meet only finitely many nodes, it does so if no node is met again from itself.
-/

namespace LinkGraph

open Relation

variable {α : Type} {link : α → α → Prop} {a b : α}

/-- Links do not lead from `a` to a node that they lead back to. -/
def Acyclic (link : α → α → Prop) (a : α) : Prop := ∀ b, ReflTransGen link a b → ¬TransGen link b b

theorem acc_of_reach (hacc : Acc (flip link) a) (hreach : ReflTransGen link a b) : Acc (flip link) b := by
  induction hreach with
  | refl => exact hacc
  | tail _ hlink ih => exact ih.inv hlink

theorem not_transGen_self (hacc : Acc (flip link) a) : ¬TransGen link a a := by
  have htrans : Acc (TransGen (flip link)) a := hacc.transGen
  induction htrans with
  | intro a _ ih =>
    intro hcycle
    have hback : TransGen (flip link) a a := transGen_swap.mpr hcycle
    exact ih a hback hacc hcycle

theorem acc_iff_acyclic (hfin : {b | ReflTransGen link a b}.Finite) :
    Acc (flip link) a ↔ Acyclic link a := by
  constructor
  · intro hacc b hreach
    exact not_transGen_self (acc_of_reach hacc hreach)
  · intro hacyclic
    -- below `a` the links that can be followed are a strict order on a finite set
    have hwf : {b | ReflTransGen link a b}.WellFoundedOn (flip link) := by
      have := hfin.to_subtype
      let down := fun x y : {b | ReflTransGen link a b} => TransGen link y.1 x.1
      have htrans : IsTrans _ down := ⟨fun x y z hxy hyz => hyz.trans hxy⟩
      have hirrefl : Std.Irrefl down := ⟨fun x => hacyclic x.1 x.2⟩
      have hdown : WellFounded down := Finite.wellFounded_of_trans_of_irrefl down
      have hsub : ∀ {x y : {b | ReflTransGen link a b}}, link y.1 x.1 → down x y := fun h => .single h
      exact Subrelation.wf hsub hdown
    have hsame : {b | ReflTransGen (flip link) b a} = {b | ReflTransGen link a b} := by
      ext b
      exact reflTransGen_swap
    refine (Set.WellFoundedOn.acc_iff_wellFoundedOn.out 0 1).mpr ?_
    rw [hsame]
    exact hwf

end LinkGraph
