import Hammer2.Chain.Indirect
import Hammer2.Chain.Walk

/-!
# Iteration over a key range

From the rounds of `Hammer2.Chain.Walk` to whole lookups (`ChainTree.chainLookup_spec`,
`ChainTree.chainLookup_isSome`) and to the caller's loop. The loop returns the live elements that
meet the range, each once and in order, exactly when the range does not end at an element behind a
blind end (`ChainTree.iterate_exact_iff`).

Reference: `hammer2_chain.c:2335-2694`.
-/

namespace Hammer2.ChainTree

variable {ι : Type*} [DecidableEq ι] {T : ChainTree ι} {x p c e z b : ι} {keyBeg keyEnd : Nat}

/-! ## One lookup -/

/-- What a lookup from `keyBeg` returns: the first element of the range; or `NULL` with no element
left but one that begins at `keyEnd`, behind a blind end. -/
structure Returns (T : ChainTree ι) (keyBeg keyEnd : Nat) (r : ι × Option ι) : Prop where
  live : T.Live r.1
  node : T.Node r.1
  found : ∀ c, r.2 = some c → T.Elem c ∧ T.Child r.1 c ∧ keyBeg ≤ T.last c ∧ T.key c ≤ keyEnd ∧
    ∀ e, T.Elem e → keyBeg ≤ T.last e → e = c ∨ T.last c < T.key e
  null : r.2 = none → ∀ e, T.Elem e → keyBeg ≤ T.last e → T.key e ≤ keyEnd →
    T.key e = keyEnd ∧ keyBeg < keyEnd ∧ ∃ b, T.BlindEnd keyEnd b

/-- The rounds of a lookup that began with `keyBeg₀`, from the round at `x` on. -/
theorem lookupLoop_spec (hend : keyEnd < keySpace) {keyBeg₀ : Nat} (n : Nat) (hx : T.At x keyBeg)
    (hbeg : keyBeg ≤ keyEnd) (h0 : keyBeg₀ ≤ keyBeg)
    (hkeep : ∀ e, T.Elem e → keyBeg₀ ≤ T.last e → T.key e ≤ keyEnd → keyBeg ≤ T.last e)
    (hblind : keyBeg = keyEnd → T.indirect x = true → T.last x < keyEnd →
      T.BlindEnd keyEnd x ∧ keyBeg₀ < keyEnd)
    {r : ι × Option ι} (h : T.lookupLoop keyEnd n x keyBeg = some r) :
      T.Returns keyBeg₀ keyEnd r := by
  induction n generalizing x keyBeg with
  | zero => cases h
  | succ n ih =>
    unfold Topology.lookupLoop at h
    rcases lookupStep_cases hx hbeg hend with ⟨c, hs, hc, hce, hd, hi⟩ | ⟨hs, hends⟩ |
      ⟨x', keyBeg', hs, hm⟩ <;> rw [hs] at h
    · obtain rfl := Option.some.inj h
      have hkl := T.key_le_last c
      have hn : ¬ T.Node c := by
        rintro (h | h)
        · exact T.ne_root_of_child hc.child h
        · simp [hi] at h
      refine ⟨hx.live, hx.node, ?_, by simp⟩
      rintro _ ⟨⟩
      refine ⟨⟨hx.live.child hx.node hc.child hd, hn⟩, hc.child, h0.trans hc.le_last, hce, ?_⟩
      intro e he hle
      by_cases hke : T.key e ≤ keyEnd
      · exact hx.first hc hi he (hkeep e he hle hke)
      · have := T.key_le_last e
        exact hx.first hc hi he (by omega)
    · obtain rfl := Option.some.inj h
      refine ⟨hx.live, hx.node, by simp, fun _ e he hle hke => ?_⟩
      obtain ⟨heq, hi, hlt⟩ := hends.elem hx hend he (hkeep e he hle hke) hke
      obtain ⟨hb, hlt0⟩ := hblind heq hi (by omega)
      have := hb.last_succ
      exact ⟨by omega, hlt0, x, hb⟩
    · refine ih (hm.at hx) (hm.le_end hbeg) (h0.trans (hm.le hx))
        (fun e he hle hke => hm.keeps hx he (hkeep e he hle hke) hke) ?_ h
      rintro rfl hi hlt
      obtain ⟨hb, hlt0⟩ := hm.blindEnd hx hbeg hi hlt
      exact ⟨hb, by omega⟩

/-- Enough rounds complete the loop. -/
theorem lookupLoop_isSome (hend : keyEnd < keySpace) (n : Nat) (hx : T.At x keyBeg)
    (hbeg : keyBeg ≤ keyEnd) (hn : T.rounds x keyBeg < n) :
    (T.lookupLoop keyEnd n x keyBeg).isSome := by
  induction n generalizing x keyBeg with
  | zero => omega
  | succ n ih =>
    unfold Topology.lookupLoop
    rcases lookupStep_cases hx hbeg hend with ⟨c, hs, -⟩ | ⟨hs, -⟩ | ⟨x', keyBeg', hs, hm⟩ <;>
      rw [hs]
    · rfl
    · rfl
    · have := hm.rounds_lt hx hend
      exact ih (hm.at hx) (hm.le_end hbeg) (by omega)

/-- In the presence of a blind end, rounds that begin before `keyEnd` find no element there. -/
theorem lookupLoop_ne (hend : keyEnd < keySpace) (hb : T.BlindEnd keyEnd b) (n : Nat)
    (hx : T.At x keyBeg) (hlt : keyBeg < keyEnd) {r : ι × Option ι}
    (h : T.lookupLoop keyEnd n x keyBeg = some r) : ∀ c, r.2 = some c → T.key c ≠ keyEnd := by
  induction n generalizing x keyBeg with
  | zero => cases h
  | succ n ih =>
    unfold Topology.lookupLoop at h
    rcases lookupStep_cases hx hlt.le hend with ⟨c, hs, hc, -, -, hi⟩ | ⟨hs, -⟩ |
      ⟨x', keyBeg', hs, hm⟩ <;> rw [hs] at h
    · obtain rfl := Option.some.inj h
      rintro _ ⟨⟩
      exact hb.found_ne hx hlt hc hi
    · obtain rfl := Option.some.inj h
      rintro _ ⟨⟩
    · rcases (hm.le_end hlt.le).lt_or_eq with hlt' | rfl
      · exact ih (hm.at hx) hlt' h
      · -- The next round is the short cut.
        obtain ⟨hi, hl⟩ := hb.stuck hx hlt hm hend
        cases n with
        | zero => cases h
        | succ n =>
          simp only [Topology.lookupLoop, lookupStep_stuck (hm.at hx) hend hi hl] at h
          obtain rfl := Option.some.inj h
          rintro _ ⟨⟩

/-- The move up ends at a live node that encloses the range, or at the inode. -/
theorem ascend_spec (keyBeg keyEnd n : Nat) (hp : T.Start p)
    (hn : p ≠ T.root → 64 ≤ n + T.keybits p) :
    T.Live (T.ascend keyBeg keyEnd n p) ∧ (T.ascend keyBeg keyEnd n p = T.root ∨
      T.indirect (T.ascend keyBeg keyEnd n p) = true ∧
        T.key (T.ascend keyBeg keyEnd n p) ≤ keyBeg ∧
          keyEnd ≤ T.last (T.ascend keyBeg keyEnd n p)) := by
  induction n generalizing p with
  | zero =>
    have hr : p = T.root := by
      by_contra hr
      obtain ⟨hi, w, -, -, hc⟩ := hp.resolve_left hr
      have := hn hr
      have := (T.child_fits hc).2
      omega
    subst hr
    exact ⟨Live.root, Or.inl rfl⟩
  | succ n ih =>
    unfold Topology.ascend
    rcases hp with rfl | ⟨hi, w, hw, hwn, hc⟩
    · rw [if_neg (by simp [T.root_indirect])]
      exact ⟨Live.root, Or.inl rfl⟩
    · split
      · rw [T.parent_eq w p hc]
        refine ih ?_ fun hr => ?_
        · rcases hwn with h | h
          · exact Or.inl h
          · exact Or.inr ⟨h, T.parent w, hw.parent (T.ne_root_of_indirect h)⟩
        · have := (T.inside w p (hwn.resolve_left hr) hc).2.2
          have := hn (T.ne_root_of_child hc)
          omega
      · rename_i h
        obtain ⟨hd, h1, h2⟩ : T.deleted p = false ∧ T.key p ≤ keyBeg ∧ keyEnd ≤ T.last p := by
          simpa [hi] using h
        exact ⟨hw.child hwn hc hd, Or.inr ⟨hi, h1, h2⟩⟩

/-- A lookup begins its rounds in place, in no block that ends before `keyEnd`. -/
theorem at_ascend (hp : T.Start p) (hbeg : keyBeg ≤ keyEnd) (hend : keyEnd < keySpace) :
    T.At (T.ascend keyBeg keyEnd 64 p) keyBeg ∧
      (T.indirect (T.ascend keyBeg keyEnd 64 p) = true →
        keyEnd ≤ T.last (T.ascend keyBeg keyEnd 64 p)) := by
  obtain ⟨hlive, h⟩ := ascend_spec keyBeg keyEnd 64 hp fun _ => by omega
  generalize T.ascend keyBeg keyEnd 64 p = x at hlive h
  rcases h with rfl | ⟨hi, h1, h2⟩
  · refine ⟨⟨hlive, Or.inl rfl, by rw [hi_root]; omega, fun y _ _ _ => ?_⟩, ?_⟩
    · rw [lo, if_pos rfl]
      omega
    · simp [T.root_indirect]
  · have hr := T.ne_root_of_indirect hi
    refine ⟨⟨hlive, Or.inr hi, by rw [T.hi_eq hr]; omega, fun y _ _ hy => ?_⟩, fun _ => h2⟩
    rw [T.lo_eq hr]
    omega

section
variable (hp : T.Start p) (hbeg : keyBeg ≤ keyEnd) (hend : keyEnd < keySpace) {maxloops : Nat}
  {r : ι × Option ι}
include hp hbeg hend

/-- A lookup returns the first element of the range, or none. -/
theorem chainLookup_spec (h : T.chainLookup maxloops p keyBeg keyEnd = some r) :
    T.Returns keyBeg keyEnd r := by
  obtain ⟨hat, hlast⟩ := at_ascend hp hbeg hend
  refine lookupLoop_spec hend _ hat hbeg le_rfl (fun _ _ h _ => h) (fun _ hi hlt => ?_) h
  exact absurd (hlast hi) (by omega)

/-- With enough loops a lookup comes to an end. -/
theorem chainLookup_isSome (hm : keySpace * 256 + 256 ≤ maxloops) :
    (T.chainLookup maxloops p keyBeg keyEnd).isSome := by
  have hat := (at_ascend hp hbeg hend).1
  refine lookupLoop_isSome hend _ hat hbeg ?_
  have : T.rounds (T.ascend keyBeg keyEnd 64 p) keyBeg ≤ keySpace * 256 + 192 := by
    have hfits := hat.live.fits
    have hn := @ne_root_of_indirect _ T (T.ascend keyBeg keyEnd 64 p)
    unfold rounds
    grind
  omega

omit hbeg in
/-- A lookup does not return the element at a blind end. -/
theorem chainLookup_ne (hb : T.BlindEnd keyEnd b) (hlt : keyBeg < keyEnd)
    (h : T.chainLookup maxloops p keyBeg keyEnd = some r) : ∀ c, r.2 = some c → T.key c ≠ keyEnd :=
  lookupLoop_ne hend hb _ (at_ascend hp hlt.le hend).1 hlt h

end

/-! ## The caller's loop -/

theorem Returns.start {r : ι × Option ι} (h : T.Returns keyBeg keyEnd r) : T.Start r.1 := by
  rcases h.node with hr | hi
  · exact Or.inl hr
  · exact Or.inr ⟨hi, _, h.live.parent (T.ne_root_of_indirect hi)⟩

section
variable {maxloops : Nat} (hend : keyEnd < keySpace)
include hend

/-- `hammer2_chain_next` looks up behind the chain returned before. -/
theorem chainNext_cases (h : T.Returns keyBeg keyEnd (p, some c)) :
    T.chainNext maxloops p c keyEnd = some (p, none) ∧ keyEnd ≤ T.last c ∨
      T.chainNext maxloops p c keyEnd = T.chainLookup maxloops p (T.last c + 1) keyEnd ∧
        T.last c + 1 ≤ keyEnd := by
  obtain ⟨he, hc, -⟩ := h.found c rfl
  have hcp : c ≠ p := fun hcp => he.2 (hcp ▸ h.node)
  have hlim := T.keyLimit_keyEnd (T.child_fits hc).1
  have hlast := (T.child_fits hc).1
  have hpow := Nat.one_le_two_pow (n := T.keybits c)
  unfold Topology.chainNext
  unfold keyLimit at hlim
  by_cases hz : T.keyEnd c = 0
  · rw [if_pos (Or.inr (Or.inl hz))]
    rw [if_pos hz] at hlim
    exact Or.inl ⟨rfl, by omega⟩
  · rw [if_neg hz] at hlim
    rw [hlim]
    by_cases hlt : keyEnd < T.last c + 1
    · rw [if_pos (Or.inr (Or.inr hlt))]
      exact Or.inl ⟨rfl, by omega⟩
    · rw [if_neg (by simp [hcp]; omega)]
      exact Or.inr ⟨rfl, by omega⟩

variable {r : ι × Option ι} {l : List ι}

/-- The next call returns the first element behind the one before. -/
theorem chainNext_spec (h : T.Returns keyBeg keyEnd (p, some c))
    (hn : T.chainNext maxloops p c keyEnd = some r) : T.Returns (T.last c + 1) keyEnd r := by
  rcases chainNext_cases hend h with ⟨heq, hle⟩ | ⟨heq, hle⟩
  · obtain rfl := Option.some.inj (heq.symm.trans hn)
    refine ⟨h.live, h.node, by simp, fun _ e he hel hke => ?_⟩
    obtain ⟨-, -, hc, -, hfirst⟩ := h.found c rfl
    rcases hfirst e he (by omega) with rfl | hlt <;> omega
  · rw [heq] at hn
    exact chainLookup_spec h.start hle hend hn

/-- The elements returned are those of the range, in order, but for one behind a blind end. -/
theorem collect_spec (n : Nat) (h : T.Returns keyBeg keyEnd r)
    (hl : T.collect maxloops keyEnd n r = some l) :
    l.Pairwise (fun a b => T.last a < T.key b) ∧
      (∀ e ∈ l, T.Elem e ∧ keyBeg ≤ T.last e ∧ T.key e ≤ keyEnd) ∧
      ∀ e, T.Elem e → keyBeg ≤ T.last e → T.key e ≤ keyEnd →
        e ∈ l ∨ T.key e = keyEnd ∧ keyBeg < keyEnd ∧ ∃ b, T.BlindEnd keyEnd b := by
  induction n generalizing r keyBeg l with
  | zero =>
    obtain ⟨p, _ | c⟩ := r
    · obtain rfl := Option.some.inj hl
      exact ⟨.nil, by simp, fun e he hle hke => Or.inr (h.null rfl e he hle hke)⟩
    · cases hl
  | succ n ih =>
    obtain ⟨p, _ | c⟩ := r
    · obtain rfl := Option.some.inj hl
      exact ⟨.nil, by simp, fun e he hle hke => Or.inr (h.null rfl e he hle hke)⟩
    · obtain ⟨r', hn, hr'⟩ := Option.bind_eq_some_iff.1 hl
      obtain ⟨l', hl', rfl⟩ := Option.map_eq_some_iff.1 hr'
      obtain ⟨hsort, hmem, hall⟩ := ih (chainNext_spec hend h hn) hl'
      obtain ⟨hc, -, hle, hke, hfirst⟩ := h.found c rfl
      have hafter : ∀ e ∈ l', T.last c < T.key e := fun e he => by
        obtain ⟨h1, h2, -⟩ := hmem e he
        exact (hfirst e h1 (by omega)).resolve_left (by rintro rfl; omega)
      refine ⟨List.pairwise_cons.2 ⟨hafter, hsort⟩, fun e he => ?_, fun e he hel hee => ?_⟩
      · rcases List.mem_cons.1 he with rfl | he
        · exact ⟨hc, hle, hke⟩
        · obtain ⟨h1, h2, h3⟩ := hmem e he
          exact ⟨h1, by omega, h3⟩
      · rcases hfirst e he hel with rfl | hlt
        · exact Or.inl List.mem_cons_self
        · have := T.key_le_last e
          rcases hall e he (by omega) hee with h | ⟨h1, h2, h3⟩
          · exact Or.inl (List.mem_cons_of_mem _ h)
          · exact Or.inr ⟨h1, by omega, h3⟩

/-- With enough calls the range comes to an end. -/
theorem collect_isSome (n : Nat) (hm : keySpace * 256 + 256 ≤ maxloops)
    (h : T.Returns keyBeg keyEnd r) (hn : keySpace ≤ n + keyBeg) :
    (T.collect maxloops keyEnd n r).isSome := by
  induction n generalizing r keyBeg with
  | zero =>
    obtain ⟨p, _ | c⟩ := r
    · rfl
    · obtain ⟨-, hc, hle, -⟩ := h.found c rfl
      have := (T.child_fits hc).1
      have := Nat.one_le_two_pow (n := T.keybits c)
      unfold Topology.last at hle
      omega
  | succ n ih =>
    obtain ⟨p, _ | c⟩ := r
    · rfl
    · have hnext : (T.chainNext maxloops p c keyEnd).isSome := by
        rcases chainNext_cases hend h with ⟨heq, -⟩ | ⟨heq, hle⟩ <;> rw [heq]
        · rfl
        · exact chainLookup_isSome h.start hle hend hm
      obtain ⟨r', hr'⟩ := Option.isSome_iff_exists.1 hnext
      have hle := (h.found c rfl).2.2.1
      have hn' : keySpace ≤ n + (T.last c + 1) := by linarith
      have := ih (chainNext_spec hend h hr') hn'
      simpa [Topology.collect, hr'] using this

/-- In the presence of a blind end, an iteration that begins before `keyEnd` returns no element
there. -/
theorem collect_ne (hb : T.BlindEnd keyEnd b) (n : Nat) (h : T.Returns keyBeg keyEnd r)
    (hne : ∀ c, r.2 = some c → T.key c ≠ keyEnd) (hl : T.collect maxloops keyEnd n r = some l) :
    ∀ e ∈ l, T.key e ≠ keyEnd := by
  induction n generalizing r keyBeg l with
  | zero =>
    obtain ⟨p, _ | c⟩ := r
    · obtain rfl := Option.some.inj hl
      simp
    · cases hl
  | succ n ih =>
    obtain ⟨p, _ | c⟩ := r
    · obtain rfl := Option.some.inj hl
      simp
    · obtain ⟨r', hn, hr'⟩ := Option.bind_eq_some_iff.1 hl
      obtain ⟨l', hl', rfl⟩ := Option.map_eq_some_iff.1 hr'
      have hne' : ∀ d, r'.2 = some d → T.key d ≠ keyEnd := by
        rcases chainNext_cases hend h with ⟨heq, -⟩ | ⟨heq, hle⟩
        · obtain rfl := Option.some.inj (heq.symm.trans hn)
          simp
        · have := hb.gap c (h.found c rfl).1
          exact chainLookup_ne h.start hend hb (by omega) (heq.symm.trans hn)
      intro e he
      rcases List.mem_cons.1 he with rfl | he
      · exact hne e rfl
      · exact ih (chainNext_spec hend h hn) hne' hl' e he

end

/-- `l` is the list of the live elements that meet the range, each once and in the order of the
keys. -/
structure Exact (T : ChainTree ι) (keyBeg keyEnd : Nat) (l : List ι) : Prop where
  sorted : l.Pairwise fun a b => T.last a < T.key b
  mem : ∀ e, e ∈ l ↔ T.Elem e ∧ keyBeg ≤ T.last e ∧ T.key e ≤ keyEnd

/-- The range ends with the first key of an element, and an indirect block before it is a blind
end. -/
def SkipsEnd (T : ChainTree ι) (keyBeg keyEnd : Nat) : Prop :=
  keyBeg < keyEnd ∧ (∃ z, T.Elem z ∧ T.key z = keyEnd) ∧ ∃ b, T.BlindEnd keyEnd b

/-- Away from a blind end the calls return the range. -/
theorem exact_of_not_skipsEnd (hp : T.Start p) (hbeg : keyBeg ≤ keyEnd) (hend : keyEnd < keySpace)
    {maxloops n : Nat} {l : List ι} (h : T.iterate maxloops n p keyBeg keyEnd = some l)
    (hskip : ¬ T.SkipsEnd keyBeg keyEnd) : T.Exact keyBeg keyEnd l := by
  obtain ⟨r, hr, hl⟩ := Option.bind_eq_some_iff.1 h
  obtain ⟨hsort, hmem, hall⟩ := collect_spec hend n (chainLookup_spec hp hbeg hend hr) hl
  refine ⟨hsort, fun e => ⟨hmem e, fun ⟨he, hle, hke⟩ => (hall e he hle hke).resolve_right ?_⟩⟩
  rintro ⟨hkey, hlt, hb⟩
  exact hskip ⟨hlt, ⟨e, he, hkey⟩, hb⟩

/-- **Iteration over a key range.** From every start in the tree the calls come to an end; unless
one of them runs out of rounds, they return exactly the live elements of the range, in order, if and
only if the range does not end at an element behind a blind end. -/
theorem iterate_exact_iff (hp : T.Start p) (hbeg : keyBeg ≤ keyEnd) (hend : keyEnd < keySpace) :
    (∃ m, ∀ maxloops ≥ m, ∀ n ≥ m, (T.iterate maxloops n p keyBeg keyEnd).isSome) ∧
      ∀ maxloops n l, T.iterate maxloops n p keyBeg keyEnd = some l →
        (T.Exact keyBeg keyEnd l ↔ ¬ T.SkipsEnd keyBeg keyEnd) := by
  refine ⟨⟨keySpace * 256 + 256, fun maxloops hm n hn => ?_⟩, fun maxloops n l h => ?_⟩
  · obtain ⟨r, hr⟩ := Option.isSome_iff_exists.1 (chainLookup_isSome hp hbeg hend hm)
    have := collect_isSome hend n hm (chainLookup_spec hp hbeg hend hr) (by linarith)
    simpa [Topology.iterate, hr] using this
  · obtain ⟨r, hr, hl⟩ := Option.bind_eq_some_iff.1 h
    have hspec := chainLookup_spec hp hbeg hend hr
    refine ⟨?_, exact_of_not_skipsEnd hp hbeg hend h⟩
    rintro hex ⟨hlt, ⟨z, hz, hkey⟩, b, hb⟩
    have hzl : z ∈ l := (hex.mem z).2 ⟨hz, by have := T.key_le_last z; omega, hkey.le⟩
    exact collect_ne hend hb n hspec (chainLookup_ne hp hend hb hlt hr) hl z hzl hkey

/-! ## Two nested blocks -/

/-- An inode with an indirect block over the keys 0 to 3 and an element at 4; the block holds
another one over 2 and 3, and that one an element at 2. -/
def nestedBlocks : ChainTree (Fin 5) where
  root := 0
  key := ![0, 0, 2, 4, 2]
  keybits := ![0, 2, 1, 0, 0]
  indirect := ![false, true, true, false, false]
  deleted := fun _ => false
  parent := ![0, 0, 1, 0, 2]
  base := ![[some 1, some 3], [some 2], [some 4], [], []]
  rbtree := fun _ => []
  cacheIndex := fun _ => 0
  root_indirect := rfl
  root_top := by decide
  base_fits := by decide +kernel
  rbtree_fits := by simp
  base_sorted := by decide
  rbtree_sorted := by simp
  shadow := by simp
  base_live := by simp
  parent_eq := by decide
  inside := by decide

/-- Over the keys 0 to 3 the iteration finds the one element there. -/
theorem iterate_exact_nested :
    nestedBlocks.iterate 300000 8 2 0 3 = some [4] ∧ nestedBlocks.Exact 0 3 [4] := by
  have hrun : nestedBlocks.iterate 300000 8 2 0 3 = some [4] := by decide +kernel
  have hstart : nestedBlocks.Start 2 :=
    Or.inr ⟨rfl, 1, Live.root.child (Or.inl rfl) (by decide) rfl, Or.inr rfl, by decide⟩
  refine ⟨hrun, ((iterate_exact_iff hstart (by decide) (by decide)).2 300000 8 [4] hrun).2 ?_⟩
  rintro ⟨-, ⟨z, -, hz⟩, -⟩
  exact absurd hz (by revert z; decide)

/-- Over the keys 0 to 4 it misses the element at 4. -/
theorem iterate_loses_last :
    nestedBlocks.iterate 300000 8 0 0 4 = some [4] ∧ nestedBlocks.Elem 3 ∧
      nestedBlocks.key 3 = 4 ∧ nestedBlocks.last 3 = 4 := by
  refine ⟨by decide +kernel, ⟨Live.root.child (Or.inl rfl) (by decide) rfl, ?_⟩, rfl, rfl⟩
  rintro (h | h)
  · exact absurd h (by decide)
  · exact absurd h (by decide)

/-- The element at 2 once the blocks above it are loaded. -/
theorem Loads.elem_iff_nested :
    ∃ T, Loads nestedBlocks T ∧ T.rbtree 1 = [2] ∧ (T.Elem 4 ↔ nestedBlocks.Elem 4) := by
  have h : Loads nestedBlocks _ := .load (p := 0) (a := 1) (by decide) (by decide)
    (.load (p := 1) (a := 2) (by decide) (by decide) (.refl _))
  exact ⟨_, h, by decide, h.elem_iff⟩

local instance fourChains : NeZero 4 := ⟨by decide⟩

/-- An inode with elements at 0 and 4 in its table, the first of them hidden by a chain in
memory. -/
def hiddenEntry : ChainTree (Fin 4) where
  root := 0
  key := ![0, 0, 4, 0]
  keybits := ![0, 1, 0, 1]
  indirect := fun _ => false
  deleted := ![false, true, false, false]
  parent := fun _ => 0
  base := ![[some 1, some 2], [], [], []]
  rbtree := ![[3], [], [], []]
  cacheIndex := fun _ => 0
  root_indirect := rfl
  root_top := by decide
  base_fits := by decide +kernel
  rbtree_fits := by decide +kernel
  base_sorted := by decide
  rbtree_sorted := by decide
  shadow := by decide
  base_live := by decide
  parent_eq := by decide
  inside := by simp

/-- The first child of the inode that ends at or past 1 is the chain in memory, not the entry. -/
theorem combinedFind_find_hidden :
    (hiddenEntry.combinedFind 0 1 (keySpace - 1)).1.map hiddenEntry.bref = some ⟨0, 1, 3⟩ ∧
      (hiddenEntry.combinedFind 0 1 (keySpace - 1)).1.map hiddenEntry.bref =
        findFrom ([3, 2].map hiddenEntry.bref) 1 :=
  ⟨by decide +kernel, hiddenEntry.combinedFind_find (by decide) (by decide) (by decide)⟩

end Hammer2.ChainTree
