import Mathlib.Logic.Relation
import Mathlib.Order.Nat

/-!
# Trees of intervals

A relation `child` between nodes that carry intervals of naturals, such that a child's interval lies
in its parent's and the intervals of two children of one node are disjoint. Any two nodes below a
common node are then related by descent or have disjoint intervals (`IntervalTree.laminar`), so a
node below `x` that meets a given point is reached through the one child of `x` that does
(`IntervalTree.Under.child`).
-/

/-- A tree of intervals `[lo, hi]`. -/
structure IntervalTree (ι : Type*) where
  child : ι → ι → Prop
  lo : ι → Nat
  hi : ι → Nat
  lo_le_hi : ∀ {p c}, child p c → lo c ≤ hi c
  inside : ∀ {p c}, child p c → lo p ≤ lo c ∧ hi c ≤ hi p
  disjoint : ∀ {p c d}, child p c → child p d → c = d ∨ hi c < lo d ∨ hi d < lo c

namespace IntervalTree

variable {ι : Type*} (t : IntervalTree ι)

/-- `y` is `x` or below it. -/
def Under (x y : ι) : Prop := Relation.ReflTransGen t.child x y

variable {t} {x y z r : ι}

theorem Under.refl : t.Under x x := Relation.ReflTransGen.refl

theorem Under.tail (h : t.Under x y) (hc : t.child y z) : t.Under x z :=
    Relation.ReflTransGen.tail h hc

/-- A node lies in the range of all above it. -/
theorem Under.inside (h : t.Under x y) : t.lo x ≤ t.lo y ∧ t.hi y ≤ t.hi x := by
  induction h with
  | refl => exact ⟨le_rfl, le_rfl⟩
  | tail _ hc ih =>
    obtain ⟨h1, h2⟩ := t.inside hc
    exact ⟨ih.1.trans h1, h2.trans ih.2⟩

/-- A node below `x` is `x`, or it is below a child of `x`. -/
theorem Under.child (h : t.Under x y) : x = y ∨ ∃ c, t.child x c ∧ t.Under c y :=
  (Relation.ReflTransGen.cases_head h).imp_right fun ⟨c, hc, hy⟩ => ⟨c, hc, hy⟩

/-- Two nodes below `r` are related by descent or disjoint. -/
theorem laminar (hx : t.Under r x) (hy : t.Under r y) :
    t.Under x y ∨ t.Under y x ∨ t.hi x < t.lo y ∨ t.hi y < t.lo x := by
  induction hx with
  | refl => exact Or.inl hy
  | @tail w x hw hc ih =>
    obtain ⟨hlo, hhi⟩ := t.inside hc
    rcases ih with hwy | hyw | hlt | hlt
    · rcases hwy.child with rfl | ⟨d, hd, hdy⟩
      · exact Or.inr (Or.inl (Under.refl.tail hc))
      · -- `y` is below the child `d` of `w`, which is `x` or disjoint from it.
        obtain ⟨hdlo, hdhi⟩ := hdy.inside
        rcases t.disjoint hc hd with rfl | hlt | hlt
        · exact Or.inl hdy
        · exact Or.inr (Or.inr (Or.inl (hlt.trans_le hdlo)))
        · exact Or.inr (Or.inr (Or.inr (hdhi.trans_lt hlt)))
    · exact Or.inr (Or.inl (hyw.tail hc))
    · exact Or.inr (Or.inr (Or.inl (hhi.trans_lt hlt)))
    · exact Or.inr (Or.inr (Or.inr (hlt.trans_le hlo)))

end IntervalTree
