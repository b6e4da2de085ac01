import Mathlib

/-!
# Walks of a tree with a depth limit

A walk visits the labels of a tree from the root down. It goes below a label that `descend` admits
and enters a child whose label `keep` admits. At the depth `limit` it goes no deeper but defers the
subtree, and `drain` resumes the deferred subtrees from depth zero until none is left.

The walk and the rounds of `drain` together visit every label at the end of a path of kept labels
(`mem_of_drain`), and as many rounds as the deferred trees have nodes are enough (`drain_isSome`).
-/

namespace Deferral

variable {α : Type*}

/-- A tree whose nodes have any number of children. -/
inductive Rose (α : Type*) where
  | node (label : α) (children : List (Rose α))

namespace Rose

/-- The label of the root. -/
def label : Rose α → α
  | node a _ => a

/-- The subtrees below the root. -/
def children : Rose α → List (Rose α)
  | node _ ts => ts

mutual
/-- The number of nodes. -/
def size : Rose α → Nat
  | node _ ts => sizeAll ts + 1
/-- The number of nodes of a list of trees. -/
def sizeAll : List (Rose α) → Nat
  | [] => 0
  | t :: ts => size t + sizeAll ts
end

@[simp] theorem label_node (a : α) (ts : List (Rose α)) : (node a ts).label = a := rfl

theorem sizeAll_append (ts us : List (Rose α)) : sizeAll (ts ++ us) = sizeAll ts + sizeAll us := by
  induction ts with
  | nil => simp [sizeAll]
  | cons t ts ih => simp only [List.cons_append, sizeAll, ih, Nat.add_assoc]

/-- No label is larger than the one above it. -/
inductive Ordered (f : α → Nat) : Rose α → Prop
  | node {a : α} {ts : List (Rose α)} : (∀ t ∈ ts, f t.label ≤ f a) → (∀ t ∈ ts, Ordered f t) →
      Ordered f (node a ts)

end Rose

open Rose

section
variable (descend : α → Bool)

/-- A path from a list of trees down to the label `x`, as the list of its labels, `x` included. -/
inductive Path : List (Rose α) → List α → α → Prop
  | here {ts : List (Rose α)} {t : Rose α} : t ∈ ts → Path ts [t.label] t.label
  | step {ts : List (Rose α)} {t : Rose α} {p : List α} {x : α} : t ∈ ts →
      descend t.label = true → Path t.children p x → Path ts (t.label :: p) x

mutual
/-- The labels at the ends of the paths that start in a tree. -/
def reach : Rose α → List α
  | .node a ts => a :: if descend a then reachAll ts else []
/-- The labels at the ends of the paths that start in a list of trees. -/
def reachAll : List (Rose α) → List α
  | [] => []
  | t :: ts => reach t ++ reachAll ts
end

variable {descend} {ts : List (Rose α)} {p : List α} {x : α}

/-- What a forest reaches, one of its trees reaches. -/
theorem mem_reachAll : x ∈ reachAll descend ts ↔ ∃ t ∈ ts, x ∈ reach descend t := by
  induction ts with
  | nil => simp [reachAll]
  | cons t ts ih => simp [reachAll, ih]

theorem Path.mono {us : List (Rose α)} (h : Path descend ts p x) (hsub : ts ⊆ us) :
    Path descend us p x := by
  cases h with
  | here ht => exact .here (hsub ht)
  | step ht hd hp => exact .step (hsub ht) hd hp

theorem label_mem_reach : ∀ t : Rose α, t.label ∈ reach descend t
  | .node _ _ => List.mem_cons_self

/-- What a path leads to is reached. -/
theorem Path.mem_reachAll (h : Path descend ts p x) : x ∈ reachAll descend ts := by
  induction h with
  | @here ts t ht => exact Deferral.mem_reachAll.2 ⟨t, ht, label_mem_reach t⟩
  | @step ts t p x ht hd _ ih =>
    refine Deferral.mem_reachAll.2 ⟨t, ht, ?_⟩
    cases t with
    | node a us =>
      rw [label_node] at hd
      rw [reach, if_pos hd]
      exact List.mem_cons_of_mem _ ih

mutual
/-- A label that can be reached from a tree is its root or lies at the end of a path below it. -/
theorem path_of_mem_reach {x : α} : ∀ {t : Rose α}, x ∈ reach descend t →
    ∃ p, Path descend [t] p x
  | .node a ts, hx => by
    rw [reach, List.mem_cons] at hx
    rcases hx with rfl | hx
    · exact ⟨[x], .here (t := .node x ts) (List.mem_singleton_self _)⟩
    · split at hx
      · next hd =>
        obtain ⟨p, hp⟩ := path_of_mem_reachAll hx
        exact ⟨a :: p, .step (t := .node a ts) (List.mem_singleton_self _) hd hp⟩
      · cases hx
/-- A label that can be reached from a list of trees lies at the end of a path. -/
theorem path_of_mem_reachAll {x : α} : ∀ {ts : List (Rose α)}, x ∈ reachAll descend ts →
    ∃ p, Path descend ts p x
  | [], hx => by cases hx
  | t :: ts, hx => by
    rw [reachAll, List.mem_append] at hx
    rcases hx with hx | hx
    · obtain ⟨p, hp⟩ := path_of_mem_reach hx
      exact ⟨p, hp.mono fun u hu => List.mem_cons.2 (Or.inl (List.mem_singleton.1 hu))⟩
    · obtain ⟨p, hp⟩ := path_of_mem_reachAll hx
      exact ⟨p, hp.mono fun u hu => List.mem_cons_of_mem _ hu⟩
end

/-- A path starts at one of the trees. -/
theorem Path.exists_head (h : Path descend ts p x) : ∃ t ∈ ts, t.label ∈ p := by
  cases h with
  | here ht | step ht _ _ => exact ⟨_, ht, List.mem_cons_self⟩

/-- In ordered trees the labels of a path are at least the one it ends at. -/
theorem Path.le_of_ordered {f : α → Nat} (h : Path descend ts p x) (ho : ∀ t ∈ ts, Ordered f t) :
    ∀ y ∈ p, f x ≤ f y := by
  induction h with
  | here ht =>
    intro y hy
    rw [List.mem_singleton.1 hy]
  | @step ts t p x ht hd hp ih =>
    have hot := ho t ht
    cases hot with
    | @node a us hle hus =>
      have hbelow : ∀ y ∈ p, f x ≤ f y := ih hus
      intro y hy
      rcases List.mem_cons.1 hy with rfl | hy
      · obtain ⟨u, hu, hup⟩ := hp.exists_head
        exact le_trans (hbelow _ hup) (hle u hu)
      · exact hbelow y hy

/-- The trees that stand below some of the trees of a list, these included. -/
inductive Below (descend : α → Bool) (ts : List (Rose α)) : Rose α → Prop
  | root {t : Rose α} : t ∈ ts → Below descend ts t
  | child {t u : Rose α} : Below descend ts t → descend t.label = true → u ∈ t.children →
      Below descend ts u

/-- What a child reaches is reached. -/
theorem mem_reach_of_child {t u : Rose α} (hd : descend t.label = true) (hu : u ∈ t.children)
    (hx : x ∈ reach descend u) : x ∈ reach descend t := by
  cases t with
  | node a us =>
    rw [label_node] at hd
    rw [reach, if_pos hd]
    exact List.mem_cons_of_mem _ (mem_reachAll.2 ⟨u, hu, hx⟩)

/-- What can be reached from below can be reached. -/
theorem Below.mem_reachAll {t : Rose α} (h : Below descend ts t) (hx : x ∈ reach descend t) :
    x ∈ reachAll descend ts := by
  induction h with
  | root ht => exact Deferral.mem_reachAll.2 ⟨_, ht, hx⟩
  | child _ hd hu ih => exact ih (mem_reach_of_child hd hu hx)

/-- Trees below ordered trees are ordered. -/
theorem Below.ordered {f : α → Nat} {t : Rose α} (h : Below descend ts t)
    (ho : ∀ t ∈ ts, Ordered f t) : Ordered f t := by
  induction h with
  | root ht => exact ho _ ht
  | child _ _ hu ih =>
    cases ih with
    | node _ hus => exact hus _ hu

end

/-! ## The walk -/

/-- The labels a walk visited, in order, and the subtrees it deferred. -/
structure Walk (α : Type*) where
  visited : List α
  deferred : List (Rose α)

/-- The walk of one part and then of another. -/
def Walk.append (w v : Walk α) : Walk α := ⟨w.visited ++ v.visited, w.deferred ++ v.deferred⟩

section
variable (descend keep : α → Bool) (limit : Nat)

mutual
/-- The walk of a tree at a depth. -/
def walk : Nat → Rose α → Walk α
  | depth, .node a ts =>
    if descend a then
      if limit ≤ depth then ⟨[a], [.node a ts]⟩ else Walk.append ⟨[a], []⟩ (walkAll depth ts)
    else ⟨[a], []⟩
/-- The walk of the children of a node at a depth. -/
def walkAll : Nat → List (Rose α) → Walk α
  | _, [] => ⟨[], []⟩
  | depth, t :: ts =>
    Walk.append (if keep t.label then walk (depth + 1) t else ⟨[], []⟩) (walkAll depth ts)
end

/-- The rounds that resume deferred subtrees, at most `fuel` of them. -/
def drain : Nat → List (Rose α) → Option (List α)
  | _, [] => some []
  | 0, _ :: _ => none
  | fuel + 1, t :: ts =>
    let w := walk descend keep limit 0 t
    (drain fuel (ts ++ w.deferred)).map (w.visited ++ ·)

end

section
variable {descend keep : α → Bool} {limit : Nat}

mutual
/-- A walk defers no more nodes than it was given. -/
theorem sizeAll_walk : ∀ (depth : Nat) (t : Rose α),
    sizeAll (walk descend keep limit depth t).deferred ≤ size t
  | depth, .node a ts => by
    have ih := sizeAll_walkAll depth ts
    rw [walk]
    split
    · split
      · simp [sizeAll]
      · simp only [Walk.append, List.nil_append, size]
        omega
    · simp [sizeAll]
/-- The walk of a list of children defers no more nodes than it was given. -/
theorem sizeAll_walkAll : ∀ (depth : Nat) (ts : List (Rose α)),
    sizeAll (walkAll descend keep limit depth ts).deferred ≤ sizeAll ts
  | _, [] => by simp [walkAll, sizeAll]
  | depth, t :: ts => by
    have iht := sizeAll_walk (depth + 1) t
    have ihs := sizeAll_walkAll depth ts
    rw [walkAll, Walk.append, sizeAll_append, sizeAll]
    split
    · omega
    · simp only [sizeAll]
      omega
end

variable {depth : Nat} {ts : List (Rose α)} {x : α} {t : Rose α} {p xs : List α} {w : Walk α}

/-- Above the limit a walk leaves at least the root behind. -/
theorem sizeAll_walk_lt (h : depth < limit) : ∀ t : Rose α,
    sizeAll (walk descend keep limit depth t).deferred < size t
  | .node a ts => by
    have hts := @sizeAll_walkAll _ descend keep limit depth ts
    rw [walk, size]
    split
    · rw [if_neg (Nat.not_le.2 h)]
      simp only [Walk.append, List.nil_append]
      omega
    · simp [sizeAll]

/-- **Draining terminates**: as many rounds as there are deferred nodes are enough. -/
theorem drain_isSome (hlim : 0 < limit) : ∀ (fuel : Nat) (ts : List (Rose α)), sizeAll ts ≤ fuel →
    (drain descend keep limit fuel ts).isSome
  | _, [], _ => by simp [drain]
  | 0, t :: ts, h => by
    cases t with
    | node a us =>
      simp only [sizeAll, size] at h
      omega
  | fuel + 1, t :: ts, h => by
    have hlt := @sizeAll_walk_lt _ descend keep limit 0 hlim t
    rw [sizeAll] at h
    rw [drain, Option.isSome_map]
    refine drain_isSome hlim fuel _ ?_
    rw [sizeAll_append]
    omega

/-- A result of draining does not depend on the rounds allowed. -/
theorem drain_mono : ∀ {fuel fuel' : Nat} {ts : List (Rose α)} {xs : List α}, fuel ≤ fuel' →
    drain descend keep limit fuel ts = some xs → drain descend keep limit fuel' ts = some xs
  | fuel, fuel', [], xs, _, h => by rwa [drain] at h ⊢
  | 0, _, _ :: _, _, _, h => by cases h
  | fuel + 1, 0, _ :: _, _, hle, _ => by omega
  | fuel + 1, fuel' + 1, t :: ts, xs, hle, h => by
    rw [drain, Option.map_eq_some_iff] at h ⊢
    obtain ⟨ys, hys, rfl⟩ := h
    exact ⟨ys, drain_mono (Nat.le_of_succ_le_succ hle) hys, rfl⟩

/-! ## What is visited -/

/-- The label `x` lies below one of the deferred trees, at the end of a path of kept labels. -/
def Pending (descend keep : α → Bool) (ts : List (Rose α)) (x : α) : Prop :=
  ∃ t ∈ ts, descend t.label = true ∧
    ∃ p, Path descend t.children p x ∧ ∀ y ∈ p, keep y = true

theorem Pending.mono {us : List (Rose α)} (h : Pending descend keep ts x) (hsub : ts ⊆ us) :
    Pending descend keep us x := by
  obtain ⟨t, ht, hrest⟩ := h
  exact ⟨t, hsub ht, hrest⟩

/-- What the walk of one child visits or defers, the walk of its siblings does. -/
theorem walk_of_mem (ht : t ∈ ts) (hk : keep t.label = true) :
    (walk descend keep limit (depth + 1) t).visited ⊆
        (walkAll descend keep limit depth ts).visited ∧
      (walk descend keep limit (depth + 1) t).deferred ⊆
        (walkAll descend keep limit depth ts).deferred := by
  induction ts with
  | nil => cases ht
  | cons u us ih =>
    rw [walkAll, Walk.append]
    rcases List.mem_cons.1 ht with rfl | ht
    · rw [if_pos hk]
      exact ⟨List.subset_append_left _ _, List.subset_append_left _ _⟩
    · obtain ⟨hv, hd⟩ := ih ht
      exact ⟨fun _ h => List.mem_append_right _ (hv h), fun _ h => List.mem_append_right _ (hd h)⟩

theorem label_mem_walk : ∀ t : Rose α,
    t.label ∈ (walk descend keep limit depth t).visited
  | .node a ts => by
    rw [walk]
    split
    · split
      · exact List.mem_singleton_self a
      · exact List.mem_cons_self
    · exact List.mem_singleton_self a

/-- A walk visits a label it can reach through kept labels, or defers a subtree above it. -/
theorem mem_walkAll (h : Path descend ts p x) (hk : ∀ y ∈ p, keep y = true) : ∀ depth,
    x ∈ (walkAll descend keep limit depth ts).visited ∨
      Pending descend keep (walkAll descend keep limit depth ts).deferred x := by
  induction h with
  | @here ts t ht =>
    intro depth
    exact Or.inl ((walk_of_mem ht (hk _ List.mem_cons_self)).1 (label_mem_walk t))
  | @step ts t p x ht hd hp ih =>
    intro depth
    have hkp : ∀ y ∈ p, keep y = true := fun y hy => hk y (List.mem_cons_of_mem _ hy)
    obtain ⟨hv, hdef⟩ := @walk_of_mem _ descend keep limit depth ts t ht
      (hk _ List.mem_cons_self)
    cases t with
    | node a us =>
      rw [label_node] at hd
      rw [walk, if_pos hd] at hv hdef
      by_cases hlim : limit ≤ depth + 1
      · -- The child itself is deferred, with the rest of the path below it.
        rw [if_pos hlim] at hdef
        exact Or.inr ⟨.node a us, hdef (List.mem_singleton_self _), hd, p, hp, hkp⟩
      · rw [if_neg hlim] at hv hdef
        rcases ih hkp (depth + 1) with hx | hx
        · exact Or.inl (hv (List.mem_cons_of_mem _ hx))
        · exact Or.inr (hx.mono fun u hu => hdef (List.mem_append_right _ hu))

/-- The walk of a tree above the limit visits what lies below the root through kept labels, or
defers a subtree above it. -/
theorem mem_walk (hlim : depth < limit) (hd : descend t.label = true)
    (hp : Path descend t.children p x) (hk : ∀ y ∈ p, keep y = true) :
    x ∈ (walk descend keep limit depth t).visited ∨
      Pending descend keep (walk descend keep limit depth t).deferred x := by
  cases t with
  | node a us =>
    rw [label_node] at hd
    rw [walk, if_pos hd, if_neg (Nat.not_le.2 hlim)]
    rcases mem_walkAll hp hk depth with hx | hx
    · exact Or.inl (List.mem_cons_of_mem _ hx)
    · exact Or.inr hx

/-- **Draining visits everything pending.** -/
theorem mem_of_drain (hlim : 0 < limit) : ∀ {fuel : Nat} {ts : List (Rose α)} {xs : List α} {x : α},
    drain descend keep limit fuel ts = some xs → Pending descend keep ts x → x ∈ xs
  | _, [], _, _, _, hp => by
    obtain ⟨t, ht, -⟩ := hp
    cases ht
  | 0, _ :: _, _, _, h, _ => by cases h
  | fuel + 1, t :: ts, xs, x, h, hp => by
    rw [drain, Option.map_eq_some_iff] at h
    obtain ⟨ys, hys, rfl⟩ := h
    obtain ⟨u, hu, hd, p, hpath, hk⟩ := hp
    rcases List.mem_cons.1 hu with rfl | hu
    · rcases mem_walk hlim hd hpath hk with hx | hx
      · exact List.mem_append_left _ hx
      · exact List.mem_append_right _
          (mem_of_drain hlim hys (hx.mono (List.subset_append_right _ _)))
    · exact List.mem_append_right _
        (mem_of_drain hlim hys ⟨u, List.mem_append_left _ hu, hd, p, hpath, hk⟩)

/-! ## Nothing else is visited -/

/-- What a walk visited, and what can be reached from the subtrees it deferred, are labels of
`xs`. -/
structure Walk.Within (descend : α → Bool) (w : Walk α) (xs : List α) : Prop where
  visited : w.visited ⊆ xs
  deferred : ∀ t ∈ w.deferred, reach descend t ⊆ xs

theorem Walk.Within.append {v : Walk α} (hw : w.Within descend xs) (hv : v.Within descend xs) :
    (w.append v).Within descend xs where
  visited := List.append_subset.2 ⟨hw.visited, hv.visited⟩
  deferred t ht := (List.mem_append.1 ht).elim (hw.deferred t) (hv.deferred t)

theorem Walk.Within.mono {ys : List α} (hw : w.Within descend xs) (hsub : xs ⊆ ys) :
    w.Within descend ys where
  visited := fun _ h => hsub (hw.visited h)
  deferred t ht := fun _ h => hsub (hw.deferred t ht h)

theorem Walk.within_nil : (⟨[], []⟩ : Walk α).Within descend xs where
  visited := List.nil_subset xs
  deferred _ ht := absurd ht List.not_mem_nil

mutual
/-- A walk stays among the labels that can be reached. -/
theorem walk_within : ∀ (depth : Nat) (t : Rose α),
    (walk descend keep limit depth t).Within descend (reach descend t)
  | depth, .node a ts => by
    have ih := walkAll_within depth ts
    have hown : (⟨[a], []⟩ : Walk α).Within descend (reach descend (.node a ts)) :=
      ⟨List.cons_subset.2 ⟨label_mem_reach (.node a ts), List.nil_subset _⟩,
        Walk.within_nil.deferred⟩
    rw [walk]
    split
    · next hd =>
      split
      · refine ⟨hown.visited, fun t ht => ?_⟩
        rw [List.mem_singleton.1 ht]
        exact fun _ h => h
      · refine hown.append (ih.mono fun x hx => ?_)
        rw [reach, if_pos hd]
        exact List.mem_cons_of_mem _ hx
    · exact hown
/-- The walk of a list of children stays among the labels that can be reached. -/
theorem walkAll_within : ∀ (depth : Nat) (ts : List (Rose α)),
    (walkAll descend keep limit depth ts).Within descend (reachAll descend ts)
  | _, [] => Walk.within_nil
  | depth, t :: ts => by
    have iht := walk_within (depth + 1) t
    have ihs := walkAll_within depth ts
    rw [walkAll, reachAll]
    refine Walk.Within.append ?_ (ihs.mono (List.subset_append_right _ _))
    split
    · exact iht.mono (List.subset_append_left _ _)
    · exact Walk.within_nil
end

/-- Draining visits only what is reached. -/
theorem drain_subset : ∀ {fuel : Nat} {ts : List (Rose α)} {ys : List α},
    (∀ t ∈ ts, reach descend t ⊆ xs) → drain descend keep limit fuel ts = some ys → ys ⊆ xs
  | _, [], _, _, h => by
    rw [drain] at h
    obtain rfl := Option.some.inj h
    exact List.nil_subset xs
  | 0, _ :: _, _, _, h => by cases h
  | fuel + 1, t :: ts, ys, hts, h => by
    rw [drain, Option.map_eq_some_iff] at h
    obtain ⟨zs, hzs, rfl⟩ := h
    have hw := (@walk_within _ descend keep limit 0 t).mono (hts t List.mem_cons_self)
    refine List.append_subset.2 ⟨hw.visited, drain_subset (fun u hu => ?_) hzs⟩
    rcases List.mem_append.1 hu with hu | hu
    · exact hts u (List.mem_cons_of_mem _ hu)
    · exact hw.deferred u hu

end

end Deferral
