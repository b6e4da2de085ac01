import Hammer2.Chain.Lookup

/-!
# The walk of a lookup

What one round of the loop does is said once, in terms of the tree (`ChainTree.Moves`,
`ChainTree.lookupStep_cases`). A round keeps the walk in place (`Moves.at`), loses no element of the
range (`Moves.keeps`) and decreases a measure (`Moves.rounds_lt`). A walk can go wrong in one way
only: the short cut for a single key also fires when the walk itself has brought `key_beg` up to
`key_end`, in an indirect block that ends right before it (`ChainTree.BlindEnd`).

Reference: `hammer2_chain.c:2392-2619`.
-/

namespace Hammer2.ChainTree

variable {ι : Type*} [DecidableEq ι] (T : ChainTree ι)

/-- A walk stands at `x` with `keyBeg`: no live chain that ends at or past `keyBeg` ends before
`x`. -/
structure At (x : ι) (keyBeg : Nat) : Prop where
  live : T.Live x
  node : T.Node x
  le_hi : keyBeg ≤ T.hi x + 1
  before : ∀ y, T.Live y → y ≠ T.root → keyBeg ≤ T.last y → T.lo x ≤ T.last y

/-- No child of `x` meets the range. -/
def Exhausted (x : ι) (keyBeg keyEnd : Nat) : Prop :=
  ∀ c, T.Child x c → keyBeg ≤ T.last c → keyEnd < T.key c

/-- The rounds that go on. -/
inductive Moves (keyEnd : Nat) (x : ι) (keyBeg : Nat) : ι → Nat → Prop where
  | skip {c : ι} {keyNext : Nat} : T.Nearest x keyBeg c → T.deleted c = true → keyBeg < keyNext →
      keyNext ≤ T.last c + 1 → keyNext ≤ keyEnd → Moves keyEnd x keyBeg x keyNext
  | descend {c : ι} : T.Nearest x keyBeg c → T.deleted c = false → T.indirect c = true →
      Moves keyEnd x keyBeg c keyBeg
  | ascend : T.Exhausted x keyBeg keyEnd → keyBeg ≠ keyEnd → T.indirect x = true →
      T.last x + 1 ≤ keyEnd → Moves keyEnd x keyBeg (T.parent x) (T.last x + 1)

/-- The rounds that end the lookup with `NULL`. -/
inductive Ends (keyEnd : Nat) (x : ι) (keyBeg : Nat) : Prop where
  | deleted {c : ι} : T.Nearest x keyBeg c → T.deleted c = true → keyEnd ≤ T.last c →
      Ends keyEnd x keyBeg
  | single : T.Exhausted x keyBeg keyEnd → keyBeg = keyEnd → Ends keyEnd x keyBeg
  | top : T.Exhausted x keyBeg keyEnd → keyEnd ≤ T.hi x → Ends keyEnd x keyBeg

variable {T} {x y p c e z : ι} {keyBeg keyEnd : Nat}

/-- **One round of the loop**, in terms of the merged view. -/
theorem lookupStep_cases (hx : T.At x keyBeg) (hbeg : keyBeg ≤ keyEnd) (hend : keyEnd < keySpace) :
    (∃ c, T.lookupStep keyEnd x keyBeg = .found c ∧ T.Nearest x keyBeg c ∧ T.key c ≤ keyEnd ∧
      T.deleted c = false ∧ T.indirect c = false) ∨
    T.lookupStep keyEnd x keyBeg = .null ∧ T.Ends keyEnd x keyBeg ∨
    ∃ x' keyBeg', T.lookupStep keyEnd x keyBeg = .again x' keyBeg' ∧
      T.Moves keyEnd x keyBeg x' keyBeg' := by
  unfold Topology.lookupStep
  cases hf : T.combinedFind x keyBeg keyEnd with
  | mk r keyNext =>
  cases r with
  | none =>
    have hexh : T.Exhausted x keyBeg keyEnd := fun c => T.combinedFind_none hbeg hend hf
    dsimp only
    split
    · exact Or.inr (Or.inl ⟨rfl, .single hexh ‹_›⟩)
    · split
      · obtain rfl : x = T.root := hx.node.resolve_right (by simp_all)
        exact Or.inr (Or.inl ⟨rfl, .top hexh (by rw [hi_root]; omega)⟩)
      · have hind : T.indirect x = true := by simpa using ‹¬ T.indirect x = false›
        have hr := T.ne_root_of_indirect hind
        have hlim := T.keyLimit_keyEnd (hx.live.fits hr).1
        unfold keyLimit at hlim
        split
        · refine Or.inr (Or.inl ⟨rfl, .top hexh ?_⟩)
          rw [T.hi_eq hr]
          split at hlim <;> omega
        · rename_i hne hkey
          rw [if_neg (by omega)] at hlim
          rw [hlim] at hkey ⊢
          exact Or.inr (Or.inr ⟨_, _, rfl, .ascend hexh ‹_› hind (by omega)⟩)
  | some c =>
    obtain ⟨hnear, hce, -, hlt, hle⟩ := T.combinedFind_some hbeg hend hf
    dsimp only
    split
    · unfold keyLimit at hlt hle
      split
      · refine Or.inr (Or.inl ⟨rfl, .deleted hnear ‹_› ?_⟩)
        split at hle <;> omega
      · rw [if_neg (by omega)] at hlt hle
        exact Or.inr (Or.inr ⟨_, _, rfl, .skip hnear ‹_› hlt hle (by omega)⟩)
    · split
      · exact Or.inr (Or.inr ⟨_, _, rfl, .descend hnear (by simp_all) ‹_›⟩)
      · exact Or.inl ⟨c, rfl, hnear, hce, by simp_all, by simp_all⟩

/-! ## Where the other live chains are -/

/-- A live chain that ends at or past `keyBeg` is below a child of `x`, or encloses `x`, or begins
after `x`. -/
theorem At.cases (hx : T.At x keyBeg) (hy : T.Live y) (hr : y ≠ T.root) (hle : keyBeg ≤ T.last y) :
    (∃ c, T.Child x c ∧ T.deleted c = false ∧ T.tree.Under c y ∧ T.key c ≤ T.key y ∧
      T.last y ≤ T.last c) ∨ T.tree.Under y x ∧ T.hi x ≤ T.last y ∨ T.hi x < T.key y := by
  have hlo : T.tree.lo y = T.key y := T.lo_eq hr
  have hhi : T.tree.hi y = T.last y := T.hi_eq hr
  rcases IntervalTree.laminar hx.live hy with h | h | h | h
  · rcases h.child with rfl | ⟨c, ⟨-, hc, hd⟩, hcy⟩
    · exact Or.inr (Or.inl ⟨.refl, hhi.le⟩)
    · have hrc := T.ne_root_of_child hc
      obtain ⟨h1, h2⟩ := hcy.inside
      rw [hlo, show T.tree.lo c = T.key c from T.lo_eq hrc] at h1
      rw [hhi, show T.tree.hi c = T.last c from T.hi_eq hrc] at h2
      exact Or.inl ⟨c, hc, hd, hcy, h1, h2⟩
  · exact Or.inr (Or.inl ⟨h, hhi ▸ h.inside.2⟩)
  · exact Or.inr (Or.inr (hlo ▸ h))
  · have := hx.before y hy hr hle
    rw [hhi] at h
    exact absurd h (not_lt.2 this)

/-- An element that ends at or past `keyBeg` is below a child of `x` or begins after `x`. -/
theorem At.elem (hx : T.At x keyBeg) (he : T.Elem e) (hle : keyBeg ≤ T.last e) :
    (∃ c, T.Child x c ∧ T.deleted c = false ∧ T.tree.Under c e ∧ T.key c ≤ T.key e ∧
      T.last e ≤ T.last c) ∨ T.hi x < T.key e := by
  rcases hx.cases he.1 he.ne_root hle with h | ⟨h, -⟩ | h
  · exact Or.inl h
  · exact absurd (eq_of_under he.2 h ▸ hx.node) he.2
  · exact Or.inr h

/-- An element found by the walk comes before every other that ends at or past `keyBeg`. -/
theorem At.first (hx : T.At x keyBeg) (hc : T.Nearest x keyBeg c) (hi : T.indirect c = false)
    (he : T.Elem e) (hle : keyBeg ≤ T.last e) : e = c ∨ T.last c < T.key e := by
  have hin := (T.child_inside hx.node hc.child).2
  rcases hx.elem he hle with ⟨d, hd, -, hde, hk, hl⟩ | h
  · rcases hc.first d hd (hle.trans hl) with rfl | h
    · have hn : ¬ T.Node d := by
        rintro (h | h)
        · exact T.ne_root_of_child hd h
        · simp [hi] at h
      exact Or.inl (eq_of_under hn hde).symm
    · exact Or.inr (h.trans_le hk)
  · exact Or.inr (hin.trans_lt h)

/-- Past a deleted child, every live element begins after it. -/
theorem At.first_deleted (hx : T.At x keyBeg) (hc : T.Nearest x keyBeg c) (hd : T.deleted c = true)
    (he : T.Elem e) (hle : keyBeg ≤ T.last e) : T.last c < T.key e := by
  have hin := (T.child_inside hx.node hc.child).2
  rcases hx.elem he hle with ⟨d, hdc, hlive, -, hk, hl⟩ | h
  · rcases hc.first d hdc (hle.trans hl) with rfl | h
    · simp [hd] at hlive
    · exact h.trans_le hk
  · exact hin.trans_lt h

/-- In an exhausted node, every element of the range begins after the node. -/
theorem At.first_exhausted (hx : T.At x keyBeg) (hex : T.Exhausted x keyBeg keyEnd)
    (he : T.Elem e) (hle : keyBeg ≤ T.last e) (hke : T.key e ≤ keyEnd) : T.hi x < T.key e := by
  rcases hx.elem he hle with ⟨d, hd, -, -, hk, hl⟩ | h
  · have := hex d hd (hle.trans hl)
    omega
  · exact h

/-! ## The rounds that go on -/

variable {keyBeg' : Nat} {x' : ι}

/-- A move does not go back. -/
theorem Moves.le (hx : T.At x keyBeg) (h : T.Moves keyEnd x keyBeg x' keyBeg') :
    keyBeg ≤ keyBeg' := by
  cases h with
  | skip _ _ hlt => exact hlt.le
  | descend => exact le_rfl
  | ascend _ _ hi =>
    have := hx.le_hi
    rwa [T.hi_eq (T.ne_root_of_indirect hi)] at this

omit [DecidableEq ι] in
/-- A move stays in the range. -/
theorem Moves.le_end (hbeg : keyBeg ≤ keyEnd) (h : T.Moves keyEnd x keyBeg x' keyBeg') :
    keyBeg' ≤ keyEnd := by
  cases h with
  | skip _ _ _ _ hle => exact hle
  | descend => exact hbeg
  | ascend _ _ _ hle => exact hle

/-- A round keeps the walk in place. -/
theorem Moves.at (hx : T.At x keyBeg) (h : T.Moves keyEnd x keyBeg x' keyBeg') :
    T.At x' keyBeg' := by
  cases h with
  | @skip c _ hc _ hlt hle _ =>
    have hin := (T.child_inside hx.node hc.child).2
    exact ⟨hx.live, hx.node, by omega, fun y hy hr hyl => hx.before y hy hr (hlt.le.trans hyl)⟩
  | descend hc hd hi =>
    have hin := (T.child_inside hx.node hc.child).2
    have hr := T.ne_root_of_child hc.child
    have hkl := T.key_le_last x'
    refine ⟨hx.live.child hx.node hc.child hd, Or.inr hi, ?_, fun y hy hry hyl => ?_⟩
    · rw [T.hi_eq hr]
      exact hc.le_last.trans (Nat.le_succ _)
    · rw [T.lo_eq hr]
      have hky := T.key_le_last y
      rcases hx.cases hy hry hyl with ⟨d, hdc, -, -, hk, hl⟩ | ⟨-, h⟩ | h
      · rcases hc.first d hdc (hyl.trans hl) with rfl | h
        · exact hk.trans hky
        · omega
      · omega
      · omega
  | ascend _ _ hi _ =>
    have hr := T.ne_root_of_indirect hi
    obtain ⟨hl, hn, hc⟩ := hx.live.parent hr
    obtain ⟨h1, h2⟩ := T.child_inside hn hc
    have hkl := T.key_le_last x
    exact ⟨hl, hn, by omega, fun y _ _ hyl => by omega⟩

/-- A round loses no element of the range. -/
theorem Moves.keeps (hx : T.At x keyBeg) (h : T.Moves keyEnd x keyBeg x' keyBeg') (he : T.Elem e)
    (hle : keyBeg ≤ T.last e) (hke : T.key e ≤ keyEnd) : keyBeg' ≤ T.last e := by
  have hkl := T.key_le_last e
  cases h with
  | skip hc hd _ hnext _ =>
    have := hx.first_deleted hc hd he hle
    omega
  | descend => exact hle
  | ascend hex _ hi _ =>
    have := hx.first_exhausted hex he hle hke
    rw [T.hi_eq (T.ne_root_of_indirect hi)] at this
    omega

/-- The rounds left: the keys left, then the depth below `x`, or the height above it once the walk
has passed its end. -/
def rounds (T : ChainTree ι) (x : ι) (keyBeg : Nat) : Nat :=
  (keySpace - keyBeg) * 256 +
    if T.indirect x then if T.last x < keyBeg then 192 - T.keybits x else T.keybits x else 64

/-- A move takes the walk nearer to its end. -/
theorem Moves.rounds_lt (hx : T.At x keyBeg) (hend : keyEnd < keySpace)
    (h : T.Moves keyEnd x keyBeg x' keyBeg') : T.rounds x' keyBeg' < T.rounds x keyBeg := by
  have hat := h.at hx
  have hle := h.le hx
  have hbits : ∀ y, T.Live y → T.indirect y = true → T.keybits y < 64 := fun y hy hi =>
    (hy.fits (T.ne_root_of_indirect hi)).2
  have hx64 := hbits x hx.live
  have hx64' := hbits x' hat.live
  unfold rounds
  cases h with
  | skip _ _ hlt _ hle => grind
  | descend hc hd hi =>
    have hcl := hc.le_last
    rw [if_pos hi, if_neg (by omega)]
    have := hx64' hi
    by_cases hxi : T.indirect x = true
    · obtain ⟨-, h1, h2⟩ := T.inside x x' hxi hc.child
      rw [if_pos hxi, if_neg (by omega)]
      omega
    · rw [if_neg hxi]
      omega
  | ascend _ _ hi hle' =>
    have hxl := hx.le_hi
    rw [T.hi_eq (T.ne_root_of_indirect hi)] at hxl
    have hp := (hx.live.parent (T.ne_root_of_indirect hi)).2.2
    have := hx64 hi
    rw [if_pos hi]
    by_cases hpi : T.indirect (T.parent x) = true
    · obtain ⟨-, -, h2⟩ := T.inside (T.parent x) x hpi hp
      have := hx64' hpi
      rw [if_pos hpi]
      grind
    · rw [if_neg hpi]
      grind

/-! ## Where the short cut is wrong -/

/-- An indirect block that ends right before `keyEnd`, with a last child that ends with it and no
element that does: a walk that enters it from before `keyEnd` comes to its end, or to the end of a
block in it, with `key_beg == key_end`. -/
structure BlindEnd (T : ChainTree ι) (keyEnd : Nat) (x : ι) : Prop where
  live : T.Live x
  indirect : T.indirect x = true
  last_succ : T.last x + 1 = keyEnd
  child : ∃ c, T.Child x c ∧ T.last c = T.last x
  gap : ∀ e, T.Elem e → T.last e + 1 ≠ keyEnd

/-- A round that brings `key_beg` up to `key_end` past the end of the node it stands in. -/
theorem Moves.blindEnd (hx : T.At x keyBeg) (hbeg : keyBeg ≤ keyEnd)
    (h : T.Moves keyEnd x keyBeg x' keyEnd) (hi : T.indirect x' = true) (hlt : T.last x' < keyEnd) :
    T.BlindEnd keyEnd x' ∧ keyBeg < keyEnd := by
  have hr := T.ne_root_of_indirect hi
  have hat := h.at hx
  cases h with
  | skip hc hd hkey hnext _ =>
    have hin := (T.child_inside hx.node hc.child).2
    rw [T.hi_eq hr] at hin
    refine ⟨⟨hx.live, hi, by omega, ⟨_, hc.child, by omega⟩, fun e he hel => ?_⟩, hkey⟩
    have := hx.first_deleted hc hd he (by omega)
    have := T.key_le_last e
    omega
  | descend hc =>
    have := hc.le_last
    omega
  | ascend hex hne hxi _ =>
    have hc := (hx.live.parent (T.ne_root_of_indirect hxi)).2.2
    obtain ⟨-, hin, -⟩ := T.inside _ _ hi hc
    refine ⟨⟨hat.live, hi, by omega, ⟨x, hc, by omega⟩, fun e he hel => ?_⟩, by omega⟩
    have hke := T.key_le_last e
    have := hx.first_exhausted hex he (by omega) (by omega)
    rw [T.hi_eq (T.ne_root_of_indirect hxi)] at this
    omega

/-- A lookup that ends with `NULL` leaves an element of the range behind only past the end of the
indirect block it stands in, with `key_beg == key_end`. -/
theorem Ends.elem (hx : T.At x keyBeg) (hend : keyEnd < keySpace) (h : T.Ends keyEnd x keyBeg)
    (he : T.Elem e) (hle : keyBeg ≤ T.last e) (hke : T.key e ≤ keyEnd) :
    keyBeg = keyEnd ∧ T.indirect x = true ∧ T.last x < T.key e := by
  cases h with
  | deleted hc hd hle' =>
    have := hx.first_deleted hc hd he hle
    omega
  | single hex heq =>
    have := hx.first_exhausted hex he hle hke
    have hr : x ≠ T.root := by
      rintro rfl
      rw [hi_root] at this
      omega
    rw [T.hi_eq hr] at this
    exact ⟨heq, hx.node.resolve_left hr, this⟩
  | top hex hhi =>
    have := hx.first_exhausted hex he hle hke
    omega

section
variable {b : ι} (hb : T.BlindEnd keyEnd b) (hx : T.At x keyBeg) (hlt : keyBeg < keyEnd)
include hb hx hlt

/-- Seen from before `keyEnd`, a blind end is below a child of the node or around the node. -/
theorem BlindEnd.cases (hhi : keyEnd ≤ T.hi x + 1) :
    (∃ c, T.Child x c ∧ T.deleted c = false ∧ T.tree.Under c b ∧ T.key c < keyEnd ∧
      keyEnd ≤ T.last c + 1) ∨ T.tree.Under b x ∧ T.hi x < keyEnd := by
  have hlast := hb.last_succ
  have hkey := T.key_le_last b
  rcases hx.cases hb.live (T.ne_root_of_indirect hb.indirect) (by omega) with
    ⟨c, hc, hd, hcb, hk, hl⟩ | ⟨hbx, h⟩ | h
  · exact Or.inl ⟨c, hc, hd, hcb, by omega, by omega⟩
  · exact Or.inr ⟨hbx, by omega⟩
  · omega

/-- Before a blind end is passed, no element that begins at `keyEnd` is found. -/
theorem BlindEnd.found_ne (hc : T.Nearest x keyBeg c) (hi : T.indirect c = false) :
    T.key c ≠ keyEnd := by
  intro hkey
  have hin := (T.child_inside hx.node hc.child).2
  have hkl := T.key_le_last c
  rcases hb.cases hx hlt (by omega) with ⟨d, hd, -, hdb, hk, hl⟩ | ⟨-, h⟩
  · have hkd := T.key_le_last d
    rcases hc.first d hd (by omega) with rfl | h
    · omega
    · omega
  · omega

/-- A round that brings `key_beg` up to `key_end` brings the walk into a block that ends before
it. -/
theorem BlindEnd.stuck {x' : ι} (h : T.Moves keyEnd x keyBeg x' keyEnd) (hend : keyEnd < keySpace) :
    T.indirect x' = true ∧ T.last x' < keyEnd := by
  have hat := h.at hx
  -- It is enough that `x'` covers no key from `keyEnd` on.
  suffices hhi : T.hi x' < keyEnd by
    have hr : x' ≠ T.root := by
      rintro rfl
      rw [hi_root] at hhi
      omega
    exact ⟨hat.node.resolve_left hr, T.hi_eq hr ▸ hhi⟩
  cases h with
  | @skip c _ hc hd _ hnext _ =>
    have hin := (T.child_inside hx.node hc.child).2
    rcases hb.cases hx hlt (by omega) with ⟨d, hdc, hlive, -, hk, hl⟩ | ⟨-, h⟩
    · rcases hc.first d hdc (by omega) with rfl | h
      · simp [hd] at hlive
      · omega
    · exact h
  | descend => exact absurd hlt (lt_irrefl _)
  | ascend hex hne hxi hle =>
    have hr := T.ne_root_of_indirect hxi
    rcases hb.cases hx hlt (by rw [T.hi_eq hr]) with ⟨d, hd, -, -, hk, hl⟩ | ⟨hbx, -⟩
    · have := hex d hd (by omega)
      omega
    · -- The walk leaves the blind end itself only if it has no child at its end.
      rcases Relation.ReflTransGen.cases_tail hbx with rfl | ⟨w, hbw, hw⟩
      · obtain ⟨d, hd, hdl⟩ := hb.child
        have := hex d hd (by omega)
        have := T.key_le_last d
        omega
      · rw [T.parent_eq w x hw.2.1]
        have h1 : T.hi w ≤ T.hi b := (IntervalTree.Under.inside hbw).2
        have h2 := hb.last_succ
        rw [T.hi_eq (T.ne_root_of_indirect hb.indirect)] at h1
        omega

end

/-- In a block that ends before `keyEnd`, a round with `key_beg == key_end` is the last one. -/
theorem lookupStep_stuck (hx : T.At x keyEnd) (hend : keyEnd < keySpace) (hi : T.indirect x = true)
    (hlt : T.last x < keyEnd) : T.lookupStep keyEnd x keyEnd = .null := by
  have hnot : ∀ c, ¬ T.Nearest x keyEnd c := fun c hc => by
    have h1 := (T.child_inside hx.node hc.child).2
    have h2 := hc.le_last
    rw [T.hi_eq (T.ne_root_of_indirect hi)] at h1
    omega
  rcases lookupStep_cases hx le_rfl hend with ⟨c, -, hc, -⟩ | ⟨h, -⟩ | ⟨x', keyBeg', -, hm⟩
  · exact absurd hc (hnot c)
  · exact h
  · cases hm with
    | skip hc => exact absurd hc (hnot _)
    | descend hc => exact absurd hc (hnot _)
    | ascend _ hne => exact absurd rfl hne

end Hammer2.ChainTree
