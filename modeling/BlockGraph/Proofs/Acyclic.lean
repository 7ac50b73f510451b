import Mathlib.Data.Finset.Card
import Mathlib.Logic.Relation

/-!
# Acyclic relations

Two graphs of this library must never lead back to where they started: the bindings of a type table,
from a class to the classes its value mentions, and the blocks of a workspace, from a parent to its
children.  Both grow one vertex's edges at a time, and both are walked with a bound that counts the
vertices.

* `Acyclic.extend`: new edges out of one vertex close no cycle if none of them ends where the vertex
  can be reached.
* `reachCount_lt`, `reachCount_lt_card`: what can be reached shrinks along every edge, so a walk
  makes fewer steps than there are vertices.
-/

namespace BlockGraph

open Relation

variable {α : Type} {r : α → α → Prop} {B : α → Prop} {a : α}

/-- No vertex leads back to itself. -/
def Acyclic (r : α → α → Prop) : Prop := ∀ x, ¬ TransGen r x x

/-! ## New edges -/

/-- A relation together with edges from `a` to the vertices of `B`. -/
def WithEdges (r : α → α → Prop) (a : α) (B : α → Prop) (x y : α) : Prop := r x y ∨ (x = a ∧ B y)

/-- A path that uses new edges uses the last of them after reaching `a`. -/
theorem transGen_withEdges (hB : ∀ y, B y → ¬ ReflTransGen r y a) {x y : α}
    (h : TransGen (WithEdges r a B) x y) :
    TransGen r x y ∨ (ReflTransGen r x a ∧ ∃ b, B b ∧ ReflTransGen r b y) := by
  induction h with
  | single h =>
    rcases h with h | ⟨rfl, hy⟩
    · exact Or.inl (TransGen.single h)
    · exact Or.inr ⟨ReflTransGen.refl, _, hy, ReflTransGen.refl⟩
  | tail _ h ih =>
    rcases h with h | ⟨rfl, hz⟩
    · rcases ih with ih | ⟨hxa, b, hb, hby⟩
      · exact Or.inl (ih.tail h)
      · exact Or.inr ⟨hxa, b, hb, hby.tail h⟩
    · rcases ih with ih | ⟨-, b, hb, hba⟩
      · exact Or.inr ⟨ih.to_reflTransGen, _, hz, ReflTransGen.refl⟩
      · exact absurd hba (hB b hb)

/-- New edges out of `a` close no cycle if none of them ends where `a` can be reached. -/
theorem Acyclic.extend (hr : Acyclic r) (hB : ∀ y, B y → ¬ ReflTransGen r y a) :
    Acyclic (WithEdges r a B) := by
  intro x hx
  rcases transGen_withEdges hB hx with h | ⟨hxa, b, hb, hbx⟩
  · exact hr x h
  · exact hB b hb (hbx.trans hxa)

theorem Acyclic.mono {s : α → α → Prop} (hs : Acyclic s) (h : ∀ x y, r x y → s x y) : Acyclic r :=
  fun x hx => hs x (TransGen.mono h x x hx)

/-- Reversing every edge keeps a relation acyclic. -/
theorem Acyclic.swap (hr : Acyclic r) : Acyclic (Function.swap r) :=
  fun x hx => hr x (transGen_swap.1 hx)

/-! ## Walks -/

section Walks

variable {r : α → α → Prop} {S : Finset α}

open Classical in
/-- How many vertices of `S` can be reached from `x` by at least one edge. -/
noncomputable def reachCount (r : α → α → Prop) (S : Finset α) (x : α) : Nat :=
  (S.filter fun y => TransGen r x y).card

/-- Along a path fewer vertices can be reached. -/
theorem reachCount_lt_of_transGen (hr : Acyclic r) {x y : α} (hxy : TransGen r x y) (hy : y ∈ S) :
    reachCount r S y < reachCount r S x := by
  classical
  refine Finset.card_lt_card ⟨?_, ?_⟩
  · intro z hz
    rw [Finset.mem_filter] at hz ⊢
    exact ⟨hz.1, hxy.trans hz.2⟩
  · intro hsub
    have hmem : y ∈ S.filter fun z => TransGen r x z := Finset.mem_filter.2 ⟨hy, hxy⟩
    exact hr y (Finset.mem_filter.1 (hsub hmem)).2

/-- Along an edge fewer vertices can be reached. -/
theorem reachCount_lt (hr : Acyclic r) {x y : α} (hxy : r x y) (hy : y ∈ S) :
    reachCount r S y < reachCount r S x :=
  reachCount_lt_of_transGen hr (.single hxy) hy

/-- A vertex never reaches itself, so it reaches fewer vertices than there are. -/
theorem reachCount_lt_card (hr : Acyclic r) {x : α} (hx : x ∈ S) : reachCount r S x < S.card := by
  classical
  refine Finset.card_lt_card ⟨Finset.filter_subset _ _, ?_⟩
  intro hsub
  exact hr x (Finset.mem_filter.1 (hsub hx)).2

end Walks

end BlockGraph
