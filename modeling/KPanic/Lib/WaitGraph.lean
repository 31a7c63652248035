import Mathlib.Logic.Relation
import Mathlib.Data.Finset.Card

/-!
# Wait-for graphs

A relation `R x y` says that `x` waits for `y`. A deadlock detector has to answer whether one
more edge closes a cycle, and has to terminate when it follows edges; both rest on the graph
being acyclic. On a finite set of sources an acyclic graph has a rank that drops along every
edge, which bounds the length of any chase.
-/

namespace WaitGraph

open Relation

variable {α : Type} {R R' : α → α → Prop} {a b x y : α}

/-- No chain of edges leads from a node back to itself. -/
def Acyclic (R : α → α → Prop) : Prop := ∀ x, ¬TransGen R x x

/-- The graph with the edge from `a` to `b` added. -/
def addEdge (R : α → α → Prop) (a b : α) : α → α → Prop := fun x y => R x y ∨ (x = a ∧ y = b)

theorem Acyclic.mono (h : Acyclic R) (hsub : ∀ {x y}, R' x y → R x y) : Acyclic R' :=
  fun x hx => h x (TransGen.mono (fun _ _ => hsub) _ _ hx)

/-- A chain in the larger graph either avoids the new edge or passes through it. -/
theorem transGen_addEdge (h : TransGen (addEdge R a b) x y) :
    TransGen R x y ∨ (ReflTransGen R x a ∧ ReflTransGen R b y) := by
  induction h with
  | single hxy =>
    rcases hxy with hxy | ⟨rfl, rfl⟩
    · exact .inl (.single hxy)
    · exact .inr ⟨.refl, .refl⟩
  | tail _ hyz ih =>
    rcases hyz with hyz | ⟨rfl, rfl⟩
    · rcases ih with ih | ⟨hxa, hby⟩
      · exact .inl (ih.tail hyz)
      · exact .inr ⟨hxa, hby.tail hyz⟩
    · rcases ih with ih | ⟨hxa, -⟩
      · exact .inr ⟨ih.to_reflTransGen, .refl⟩
      · exact .inr ⟨hxa, .refl⟩

/-- A new edge keeps the graph acyclic exactly if no chain leads from its end to its start. -/
theorem acyclic_addEdge_iff :
    Acyclic (addEdge R a b) ↔ Acyclic R ∧ ¬ReflTransGen R b a := by
  constructor
  · intro h
    refine ⟨h.mono .inl, fun hba => ?_⟩
    have hback : ReflTransGen (addEdge R a b) b a := ReflTransGen.mono (fun _ _ => .inl) _ _ hba
    exact h a (TransGen.head' (.inr ⟨rfl, rfl⟩) hback)
  · rintro ⟨h, hba⟩ x hx
    rcases transGen_addEdge hx with hx | ⟨hxa, hbx⟩
    · exact h x hx
    · exact hba (hbx.trans hxa)

/-- New edges lead to a node `a` that waits for nobody: a chain to another node is an old one. -/
theorem transGen_of_sink (hsub : ∀ x y, R' x y → R x y ∨ y = a) (hsink : ∀ y, ¬R' a y) (h : TransGen R' x y) :
    TransGen R x y ∨ y = a := by
  induction h with
  | single hxy => exact (hsub _ _ hxy).imp_left .single
  | tail _ hyz ih =>
    obtain ih | rfl := ih
    · exact (hsub _ _ hyz).imp_left ih.tail
    · exact absurd hyz (hsink _)

theorem reflTransGen_of_sink (hsub : ∀ x y, R' x y → R x y ∨ y = a) (hsink : ∀ y, ¬R' a y) (h : ReflTransGen R' x y)
    (hy : y ≠ a) : ReflTransGen R x y := by
  obtain rfl | h := reflTransGen_iff_eq_or_transGen.mp h
  · exact .refl
  · exact ((transGen_of_sink hsub hsink h).resolve_right hy).to_reflTransGen

/-- A node that waits for nobody is on no cycle. -/
theorem Acyclic.sink (h : Acyclic R) (hsub : ∀ x y, R' x y → R x y ∨ y = a) (hsink : ∀ y, ¬R' a y) : Acyclic R' := by
  intro x hx
  obtain hold | rfl := transGen_of_sink hsub hsink hx
  · exact h x hold
  · obtain ⟨y, hxy, -⟩ := TransGen.head'_iff.mp hx
    exact hsink y hxy

open Classical in
/-- How many nodes of `S` a chain from `x` can visit. -/
noncomputable def rank (R : α → α → Prop) (S : Finset α) (x : α) : ℕ :=
  (S.filter fun y => ReflTransGen R x y).card

theorem rank_le (S : Finset α) (x : α) : rank R S x ≤ S.card := by
  classical
  exact Finset.card_filter_le _ _

theorem rank_lt (h : Acyclic R) {S : Finset α} (hx : x ∈ S) (hxy : R x y) :
    rank R S y < rank R S x := by
  classical
  apply Finset.card_lt_card
  refine ⟨?_, fun hsub => ?_⟩
  · intro z hz
    rw [Finset.mem_filter] at hz ⊢
    exact ⟨hz.1, hz.2.head hxy⟩
  · have hmem := hsub (Finset.mem_filter.mpr ⟨hx, .refl⟩)
    exact h x (TransGen.head' hxy (Finset.mem_filter.mp hmem).2)

end WaitGraph
