import Mathlib.Logic.Relation
import Mathlib.Logic.Function.Basic

/-!
# Parent pointers that lead to a root

`up` names the parent of a node. A node reaches the root if following `up` from it comes there, and
the nodes passed are its ancestors. Giving a node a new parent keeps all nodes reaching the root if
the node is not the new parent and not an ancestor of it.
-/

namespace Rooted

open Relation

variable {α : Type*} (up : α → Option α) (root : α)

/-- One step towards the root. -/
def Step (d p : α) : Prop := d ≠ root ∧ up d = some p

/-- Following the parents from `d` comes to the root. -/
def Reaches (d : α) : Prop := ReflTransGen (Step up root) d root

/-- `a` is a proper ancestor of `d`. -/
def Ancestor (a d : α) : Prop := TransGen (Step up root) d a

variable {up root} {a d m p t : α}

/-- The ancestors are the parent and its ancestors. -/
theorem ancestor_iff (hd : d ≠ root) (hp : up d = some p) :
    Ancestor up root a d ↔ p = a ∨ Ancestor up root a p := by
  have hstep : Step up root d p := ⟨hd, hp⟩
  constructor
  · intro h
    obtain ⟨p', ⟨-, hp'⟩, h⟩ := TransGen.head'_iff.1 h
    obtain rfl := Option.some.inj (hp.symm.trans hp')
    exact (reflTransGen_iff_eq_or_transGen.1 h).imp_left Eq.symm
  · rintro (rfl | h)
    · exact .single hstep
    · exact .head hstep h

/-- The root has no ancestor. -/
theorem not_ancestor_root : ¬ Ancestor up root a root := fun h => by
  obtain ⟨_, ⟨hne, -⟩, -⟩ := TransGen.head'_iff.1 h
  exact hne rfl

/-- **A new parent that is not below the node keeps the tree.** -/
theorem Reaches.reparent [DecidableEq α] (hm : m ≠ root) (hne : t ≠ m)
    (hnot : ¬ Ancestor up root m t)
    (ht : Reaches up root t) (hd : Reaches up root d) :
    Reaches (Function.update up m (some t)) root d := by
  have hother : ∀ {x y}, x ≠ m → Step up root x y → Step (Function.update up m (some t)) root x y :=
    fun hx hxy => ⟨hxy.1, by rw [Function.update_of_ne hx, hxy.2]⟩
  -- The path of the new parent does not pass the node.
  have hpath : ∀ {x}, Reaches up root x → x ≠ m → ¬ Ancestor up root m x →
      Reaches (Function.update up m (some t)) root x := by
    intro x hx
    induction hx using ReflTransGen.head_induction_on with
    | refl => exact fun _ _ => .refl
    | head hxy _ ih =>
      intro hxm hx
      rw [ancestor_iff hxy.1 hxy.2, not_or] at hx
      exact (ih hx.1 hx.2).head (hother hxm hxy)
  induction hd using ReflTransGen.head_induction_on with
  | refl => exact .refl
  | @head d p hdp _ ih =>
    by_cases hdm : d = m
    · subst hdm
      exact (hpath ht hne hnot).head ⟨hm, Function.update_self _ _ _⟩
    · exact ih.head (hother hdm hdp)

end Rooted
