import Hammer2.Lib.Run
import Hammer2.Namespace.Rename

/-!
# Link counts

The link count of an inode is a field of its own, which the frontends change beside the entries.
`LinksMatch` says that the counts are those of the entries: a file has as many links as there are
entries for it, a directory has two and one for each of its subdirectories. The invariant behind it
is the shape of the name space (`NameTree`): entries have inodes of their type, a directory has at
most one entry and stays linked as long as it has entries.

`linksMatch_run` is about the runs whose operations fail harmlessly (`NsAct.Counted`). Failures that
are not harmless, and a rename that replaces a directory, are in `linksMatch_lost`.

Reference: `hammer2_vnops.c:361-447`, `hammer2_vnops.c:475-556`, `hammer2_vnops.c:596-877`,
`hammer2_inode.c:1712-1775`.
-/

namespace Hammer2

open Transition

/-! ## Counting entries -/

/-- The number of entries of an inode. -/
def nameCount (es : List Dirent) (i : Nat) : Nat := es.countP fun e => e.inum == i

/-- The number of subdirectory entries of a directory. -/
def subdirCount (es : List Dirent) (d : Nat) : Nat :=
  es.countP fun e => e.dir == d && decide (e.type = .directory)

/-- 1 for what holds. -/
def one (p : Prop) [Decidable p] : Nat := if p then 1 else 0

section
variable {es : List Dirent} {e : Dirent}

/-- An insertion counts the new entry. -/
theorem countP_insertDirent (p : Dirent → Bool) :
    (insertDirent e es).countP p = es.countP p + one (p e = true) := by
  rw [insertDirent, (es.perm_orderedInsert keyLe e).countP_eq, List.countP_cons, one]

/-- An entry erased is no longer counted. -/
theorem countP_erase_add (p : Dirent → Bool) (he : e ∈ es) :
    (es.erase e).countP p + one (p e = true) = es.countP p := by
  rw [(List.perm_cons_erase he).countP_eq, List.countP_cons, one]

theorem countP_filter_add (p r : Dirent → Bool) (es : List Dirent) :
    (es.filter fun f => !r f).countP p + (es.filter r).countP p = es.countP p := by
  rw [List.countP_eq_countP_filter_add es p r, Nat.add_comm]

/-- A new entry is one more name of its inode. -/
theorem nameCount_insert (e : Dirent) (es : List Dirent) (i : Nat) :
    nameCount (insertDirent e es) i = nameCount es i + one (e.inum = i) := by
  simp only [nameCount, countP_insertDirent, beq_iff_eq]

/-- An entry erased is one name less. -/
theorem nameCount_erase (he : e ∈ es) (i : Nat) :
    nameCount (es.erase e) i + one (e.inum = i) = nameCount es i := by
  simpa only [nameCount, beq_iff_eq] using countP_erase_add (fun f => f.inum == i) he

/-- A new directory is one more subdirectory of its parent. -/
theorem subdirCount_insert (e : Dirent) (es : List Dirent) (d : Nat) :
    subdirCount (insertDirent e es) d =
    subdirCount es d + one (e.dir = d ∧ e.type = .directory) := by
  simp only [subdirCount, countP_insertDirent, Bool.and_eq_true, beq_iff_eq, decide_eq_true_eq]

/-- A directory erased is one subdirectory less. -/
theorem subdirCount_erase (he : e ∈ es) (d : Nat) :
    subdirCount (es.erase e) d + one (e.dir = d ∧ e.type = .directory) = subdirCount es d := by
  simpa only [subdirCount, Bool.and_eq_true, beq_iff_eq, decide_eq_true_eq] using
    countP_erase_add (fun f => f.dir == d && decide (f.type = .directory)) he

/-- An inode without a name. -/
theorem nameCount_eq_zero_iff {i : Nat} : nameCount es i = 0 ↔ ∀ e ∈ es, e.inum ≠ i := by
  simp [nameCount, List.countP_eq_zero]

/-- A directory without entries has no subdirectory. -/
theorem subdirCount_eq_zero {d : Nat} (h : ∀ e ∈ es, e.dir ≠ d) : subdirCount es d = 0 := by
  simp only [subdirCount, List.countP_eq_zero, Bool.and_eq_true, beq_iff_eq, not_and]
  exact fun e he hd => absurd hd (h e he)

end

/-! ## The invariant -/

/-- The number of the root directory. -/
def rootInum : Nat := 1

/-- A directory that can be reached: the root, or one with an entry. -/
structure NameSys.LinkedDir (s : NameSys) (d : Nat) : Prop where
  type : (s.inode d).type = .directory
  live : (s.inode d).scrapped = false
  linked : d = rootInum ∨ ∃ e ∈ s.es, e.inum = d

/-- **The counts are those of the entries.** The root's count may be one that is not kept. -/
structure LinksMatch (s : NameSys) : Prop where
  files : ∀ i, (s.inode i).scrapped = false → (s.inode i).type ≠ .directory →
    (s.inode i).nlinks = nameCount s.es i
  dirs : ∀ d, s.LinkedDir d → (s.inode d).nlinks = 2 + subdirCount s.es d ∨
    d = rootInum ∧ (s.inode d).nlinks = 1

/-- The shape of the name space. An entry without a name is what a failed creation leaves; there is
no inode 0. -/
structure NameTree (icrc32 : Name → BitVec 32) (s : NameSys) : Prop where
  kept : NamesKept icrc32 (· ≠ []) s.es
  node : ∀ e ∈ s.es, e.name ≠ [] →
    (s.inode e.inum).type = e.type ∧ (s.inode e.inum).scrapped = false
  blank : ∀ e ∈ s.es, e.name = [] → e.inum = 0 ∧ e.type ≠ .directory
  zero : (s.inode 0).scrapped = true
  home : ∀ e ∈ s.es, s.LinkedDir e.dir
  single : ∀ d, (s.inode d).scrapped = false → (s.inode d).type = .directory → nameCount s.es d ≤ 1
  root : s.LinkedDir rootInum
  rootFree : nameCount s.es rootInum = 0

/-! ## Changes of the inodes alone -/

/-- A change of an inode that leaves its type and does not scrap it. -/
def Keeps (g : NodeMeta → NodeMeta) : Prop :=
  ∀ m, (g m).type = m.type ∧ (g m).scrapped = m.scrapped

/-- Adding a link keeps the type and the scrapped mark. -/
theorem keeps_addSubdir : Keeps .addSubdir := fun m => by
  unfold NodeMeta.addSubdir
  split <;> exact ⟨rfl, rfl⟩

/-- So does dropping one. -/
theorem keeps_dropSubdir : Keeps .dropSubdir := fun m => by
  unfold NodeMeta.dropSubdir
  split <;> exact ⟨rfl, rfl⟩

/-- So does the finisher with a Linux inode. -/
theorem keeps_unlinkFinisher : Keeps (.unlinkFinisher true) := fun m => by
  unfold NodeMeta.unlinkFinisher
  split <;> exact ⟨rfl, rfl⟩

/-- The finisher takes one link off a file that has one. -/
theorem unlinkFinisher_nlinks {m : NodeMeta} (ht : m.type ≠ .directory) :
    (m.unlinkFinisher true).nlinks = m.nlinks - 1 := by
  unfold NodeMeta.unlinkFinisher
  split
  · rfl
  · next h =>
    have hle : ¬ 1 < m.nlinks := fun h1 => h ⟨ht, h1⟩
    change 0 = m.nlinks - 1
    omega

/-- Two tables of inodes have the same inodes, with the same types. -/
def SameNodes (inode inode' : Nat → NodeMeta) : Prop :=
  ∀ i, (inode' i).type = (inode i).type ∧ (inode' i).scrapped = (inode i).scrapped

theorem SameNodes.refl (inode : Nat → NodeMeta) : SameNodes inode inode := fun _ => ⟨rfl, rfl⟩

/-- Modifying one inode keeps the types. -/
theorem SameNodes.modify {inode inode' : Nat → NodeMeta} {g : NodeMeta → NodeMeta}
    (h : SameNodes inode inode') (hg : Keeps g) (d : Nat) :
    SameNodes inode (modifyInode inode' d g) := by
  intro i
  rw [modifyInode, Function.update_apply]
  split
  · next hi =>
    subst hi
    exact ⟨(hg _).1.trans (h i).1, (hg _).2.trans (h i).2⟩
  · exact h i

/-- A rename keeps the types. -/
theorem sameNodes_renameInodes (inode : Nat → NodeMeta) (a : RenameArgs) (tlhc : DirKey)
    (error : Nat) : SameNodes inode (renameInodes inode a tlhc error) := by
  have hmoved : SameNodes inode (movedInodes inode a tlhc) := by
    refine (SameNodes.refl inode).modify (g := fun m => { m with
      nameKey := if m.visible then tlhc else m.nameKey, iparent := a.tdir }) ?_ a.fip
    exact fun _ => ⟨rfl, rfl⟩
  have hreplaced : SameNodes inode (replacedInodes inode a tlhc) := by
    unfold replacedInodes
    split
    · next t _ => exact hmoved.modify keeps_unlinkFinisher t
    · exact hmoved
  have hdone : SameNodes inode (if error = 0 then replacedInodes inode a tlhc else inode) := by
    split
    · exact hreplaced
    · exact .refl inode
  dsimp only [renameInodes]
  split
  · exact (hdone.modify keeps_dropSubdir a.fdir).modify keeps_addSubdir a.tdir
  · exact hdone

section
variable {icrc32 : Name → BitVec 32} {s s' : NameSys} {es : List Dirent} {inode : Nat → NodeMeta}
  {e : Dirent} {d i : Nat} {m : NodeMeta}

/-- A linked directory stays one while it has a name. -/
theorem NameSys.LinkedDir.mono (h : s.LinkedDir d) (hs : (s'.inode d).type = (s.inode d).type ∧
    (s'.inode d).scrapped = (s.inode d).scrapped)
    (he : ∀ e ∈ s.es, e.inum = d → ∃ f ∈ s'.es, f.inum = d) : s'.LinkedDir d where
  type := hs.1.trans h.type
  live := hs.2.trans h.live
  linked := h.linked.imp_right fun ⟨e, hmem, hi⟩ => he e hmem hi

/-- An inode without entries is not linked, unless it is the root. -/
theorem NameSys.LinkedDir.nameCount_pos (h : s.LinkedDir d) (hd : d ≠ rootInum) :
    nameCount s.es d ≠ 0 := by
  obtain ⟨e, he, hi⟩ := h.linked.resolve_left hd
  exact fun h0 => nameCount_eq_zero_iff.1 h0 e he hi

/-- The tree depends only on types and states. -/
theorem NameTree.sameNodes (h : NameTree icrc32 s) (hs : SameNodes s.inode inode) :
    NameTree icrc32 ⟨s.es, inode⟩ where
  kept := h.kept
  node := fun e he hn =>
    ⟨(hs _).1.trans (h.node e he hn).1, (hs _).2.trans (h.node e he hn).2⟩
  blank := h.blank
  zero := (hs 0).2.trans h.zero
  home := fun e he => (h.home e he).mono (hs _) fun f hf hi => ⟨f, hf, hi⟩
  single := fun d hl ht => h.single d ((hs d).2.symm.trans hl) ((hs d).1.symm.trans ht)
  root := h.root.mono (hs _) fun f hf hi => ⟨f, hf, hi⟩
  rootFree := h.rootFree

/-- So does the match of the link counts, with the counts kept. -/
theorem LinksMatch.sameNodes (h : LinksMatch s) (hs : SameNodes s.inode inode)
    (hn : ∀ i, (inode i).nlinks = (s.inode i).nlinks) : LinksMatch ⟨s.es, inode⟩ where
  files := fun i hl ht => (hn i).trans
    (h.files i ((hs i).2.symm.trans hl) fun h => ht ((hs i).1.trans h))
  dirs := fun d hd => by
    have hd' : s.LinkedDir d :=
      hd.mono ⟨(hs d).1.symm, (hs d).2.symm⟩ fun f hf hi => ⟨f, hf, hi⟩
    simpa only [hn] using h.dirs d hd'

/-- No entry names or stands in an inode that does not exist. -/
theorem NameTree.fresh (h : NameTree icrc32 s) (hi : (s.inode i).scrapped = true) (h0 : i ≠ 0) :
    ∀ e ∈ s.es, e.inum ≠ i ∧ e.dir ≠ i := by
  refine fun e he => ⟨?_, ?_⟩
  · rintro rfl
    by_cases hn : e.name = []
    · exact h0 (h.blank e he hn).1
    · exact absurd hi (by rw [(h.node e he hn).2]; decide)
  · rintro rfl
    exact absurd hi (by rw [(h.home e he).live]; decide)

/-- A linked directory is not a scrapped inode. -/
theorem NameSys.LinkedDir.ne_of_scrapped (h : s.LinkedDir d) (hi : (s.inode i).scrapped = true) :
    d ≠ i := by
  rintro rfl
  exact absurd hi (by rw [h.live]; decide)

/-- Using a scrapped inode again leaves the linked directories. -/
theorem NameSys.LinkedDir.update (h : s.LinkedDir d) (hi : (s.inode i).scrapped = true) :
    (⟨s.es, Function.update s.inode i m⟩ : NameSys).LinkedDir d := by
  refine h.mono ?_ fun f hf hfi => ⟨f, hf, hfi⟩
  simp only [Function.update_of_ne (h.ne_of_scrapped hi), and_self]

/-- An inode may be made where there is none. -/
theorem NameTree.update (h : NameTree icrc32 s) (hi : (s.inode i).scrapped = true) (h0 : i ≠ 0) :
    NameTree icrc32 ⟨s.es, Function.update s.inode i m⟩ := by
  have hfresh := h.fresh hi h0
  exact {
    kept := h.kept
    node := fun e he hn => by
      simpa only [Function.update_of_ne (hfresh e he).1] using h.node e he hn
    blank := h.blank
    zero := by
      simpa only [Function.update_of_ne h0.symm] using h.zero
    home := fun e he => (h.home e he).update hi
    single := fun d hl ht => by
      by_cases hd : d = i
      · subst hd
        rw [nameCount_eq_zero_iff.2 fun e he => (hfresh e he).1]
        exact Nat.zero_le 1
      · simp only [Function.update_of_ne hd] at hl ht
        exact h.single d hl ht
    root := h.root.update hi
    rootFree := h.rootFree }

/-! ## Changes of the entries -/

/-- A new entry, with a free name or without one. -/
theorem NameTree.insert (h : NameTree icrc32 s) (hst : e.Stored)
    (hhash : e.name ≠ [] → (e.key ^^^ dirhash icrc32 e.name) &&& ~~~dirhashLomask = 0#64)
    (hfree : e.name ≠ [] → ∀ f ∈ s.es, f.dir = e.dir → f.name ≠ e.name) (hdir : s.LinkedDir e.dir)
    (hnode : e.name ≠ [] → (s.inode e.inum).type = e.type ∧ (s.inode e.inum).scrapped = false)
    (hblank : e.name = [] → e.inum = 0 ∧ e.type ≠ .directory)
    (hsingle : e.type = .directory → nameCount s.es e.inum = 0) (hroot : e.inum ≠ rootInum) :
    NameTree icrc32 ⟨insertDirent e s.es, s.inode⟩ := by
  have hlinked : ∀ d, s.LinkedDir d → (⟨insertDirent e s.es, s.inode⟩ : NameSys).LinkedDir d :=
    fun d hd => hd.mono ⟨rfl, rfl⟩ fun f hf hi => ⟨f, mem_insertDirent.2 (.inr hf), hi⟩
  exact {
    kept := h.kept.insert hst hhash fun f hf hn hd hname => hfree hn f hf hd.symm hname.symm
    node := fun f hf => (mem_insertDirent.1 hf).elim (fun he => he ▸ hnode) (h.node f)
    blank := fun f hf => (mem_insertDirent.1 hf).elim (fun he => he ▸ hblank) (h.blank f)
    zero := h.zero
    home := fun f hf => (mem_insertDirent.1 hf).elim (fun he => he ▸ hlinked _ hdir)
      fun hf => hlinked _ (h.home f hf)
    single := fun d hl ht => by
      rw [nameCount_insert, one]
      split
      · next hi =>
        subst hi
        have hn : e.name ≠ [] := by
          intro hn
          rw [(hblank hn).1] at hl
          exact absurd h.zero (by rw [show (s.inode 0).scrapped = false from hl]; decide)
        rw [hsingle ((hnode hn).1.symm.trans ht)]
      · exact h.single d hl ht
    root := hlinked _ h.root
    rootFree := by
      rw [nameCount_insert, h.rootFree, one, if_neg hroot] }

/-- An entry less: one of a file, or of an empty directory. -/
theorem NameTree.erase (h : NameTree icrc32 s) (he : e ∈ s.es) (hn : e.name ≠ [])
    (hempty : e.type = .directory → ∀ f ∈ s.es, f.dir ≠ e.inum) :
    NameTree icrc32 ⟨s.es.erase e, s.inode⟩ := by
  have hsub : ∀ f ∈ s.es.erase e, f ∈ s.es := fun f => List.mem_of_mem_erase
  have hcount : ∀ d, nameCount (s.es.erase e) d ≤ nameCount s.es d := fun d => by
    rw [← nameCount_erase he d]
    exact Nat.le_add_right _ _
  have hlinked : ∀ d, s.LinkedDir d → (e.type = .directory → d ≠ e.inum) →
      (⟨s.es.erase e, s.inode⟩ : NameSys).LinkedDir d := by
    intro d hd hne
    refine hd.mono ⟨rfl, rfl⟩ fun f hf hi => ⟨f, (List.mem_erase_of_ne ?_).2 hf, hi⟩
    rintro rfl
    exact hne ((h.node f hf hn).1.symm.trans (hi ▸ hd.type)) hi.symm
  exact {
    kept := h.kept.sublist List.erase_sublist
    node := fun f hf => h.node f (hsub f hf)
    blank := fun f hf => h.blank f (hsub f hf)
    zero := h.zero
    home := fun f hf => hlinked _ (h.home f (hsub f hf)) fun ht => hempty ht f (hsub f hf)
    single := fun d hl ht => (hcount d).trans (h.single d hl ht)
    root := hlinked _ h.root fun _ hr => nameCount_eq_zero_iff.1 h.rootFree e he hr.symm
    rootFree := Nat.le_zero.1 (h.rootFree ▸ hcount rootInum) }

/-- An entry moved to `m`, in place of the entries `r`, which are of files. -/
theorem NameTree.move (h : NameTree icrc32 s) {m : Dirent} {r : Dirent → Bool} (he : e ∈ s.es)
    (hn : e.name ≠ []) (hst : m.Stored) (hmn : m.name ≠ []) (hmi : m.inum = e.inum)
    (hmt : m.type = e.type)
    (hhash : (m.key ^^^ dirhash icrc32 m.name) &&& ~~~dirhashLomask = 0#64)
    (hdir : s.LinkedDir m.dir) (hr : ∀ f ∈ s.es, f.dir = m.dir → f.name = m.name → r f = true)
    (hfile : ∀ f ∈ s.es.erase e, r f = true → f.name ≠ [] ∧ f.type ≠ .directory) :
    NameTree icrc32 ⟨insertDirent m ((s.es.erase e).filter fun f => !r f), s.inode⟩ := by
  have hsub : ∀ f ∈ (s.es.erase e).filter fun f => !r f, f ∈ s.es ∧ r f = false := by
    intro f hf
    obtain ⟨hmem, hrf⟩ := List.mem_filter.1 hf
    exact ⟨List.mem_of_mem_erase hmem, by simpa using hrf⟩
  have hcount : ∀ d, nameCount (insertDirent m ((s.es.erase e).filter fun f => !r f)) d ≤
      nameCount s.es d := by
    intro d
    rw [nameCount_insert, ← nameCount_erase he d, hmi]
    exact Nat.add_le_add_right (List.filter_sublist.countP_le) _
  have hlinked : ∀ d, s.LinkedDir d → (⟨insertDirent m ((s.es.erase e).filter fun f => !r f),
      s.inode⟩ : NameSys).LinkedDir d := by
    refine fun d hd => hd.mono ⟨rfl, rfl⟩ fun f hf hi => ?_
    by_cases hfe : f = e
    · exact ⟨m, mem_insertDirent.2 (.inl rfl), by rw [hmi, ← hfe, hi]⟩
    have hmem := (List.mem_erase_of_ne hfe).2 hf
    refine ⟨f, mem_insertDirent.2 (.inr (List.mem_filter.2 ⟨hmem, ?_⟩)), hi⟩
    -- a replaced entry is of a file, and `d` is a directory
    rw [Bool.not_eq_true', ← Bool.not_eq_true]
    intro hrf
    obtain ⟨hfn, hft⟩ := hfile f hmem hrf
    exact hft ((h.node f hf hfn).1.symm.trans (hi ▸ hd.type))
  exact {
    kept := (h.kept.sublist (List.filter_sublist.trans List.erase_sublist)).insert hst
      (fun _ => hhash) fun f hf _ hd hname => by
        obtain ⟨hmem, hrf⟩ := hsub f hf
        rw [hr f hmem hd.symm hname.symm] at hrf
        cases hrf
    node := fun f hf => (mem_insertDirent.1 hf).elim
      (fun heq _ => by rw [heq, hmi, hmt]; exact h.node e he hn) fun hf => h.node f (hsub f hf).1
    blank := fun f hf => (mem_insertDirent.1 hf).elim (fun heq hn => absurd (heq ▸ hn) hmn)
      fun hf => h.blank f (hsub f hf).1
    zero := h.zero
    home := fun f hf => (mem_insertDirent.1 hf).elim (fun heq => heq ▸ hlinked _ hdir)
      fun hf => hlinked _ (h.home f (hsub f hf).1)
    single := fun d hl ht => (hcount d).trans (h.single d hl ht)
    root := hlinked _ h.root
    rootFree := Nat.le_zero.1 (h.rootFree ▸ hcount rootInum) }

/-! ## The counts after a change of the entries -/

/-- A new entry of a file, whose count has become one more. -/
theorem LinksMatch.insertFile (h : LinksMatch s) (ht : e.type ≠ .directory)
    (hother : ∀ i, i ≠ e.inum → inode i = s.inode i)
    (hfile : (inode e.inum).scrapped = false → (inode e.inum).type ≠ .directory ∧
      (inode e.inum).nlinks = nameCount s.es e.inum + 1) :
    LinksMatch ⟨insertDirent e s.es, inode⟩ where
  files := fun i hl hd => by
    dsimp only at hl hd ⊢
    rw [nameCount_insert, one]
    split
    · next hi =>
      subst hi
      exact (hfile hl).2
    · next hi =>
      rw [hother i (Ne.symm hi)] at hl hd ⊢
      exact h.files i hl hd
  dirs := fun d hd => by
    have hne : d ≠ e.inum := by
      rintro rfl
      exact (hfile hd.live).1 hd.type
    have hd' : s.LinkedDir d := by
      refine hd.mono (by simp only [hother d hne, and_self]) fun f hf hi => ⟨f, ?_, hi⟩
      refine (mem_insertDirent.1 hf).resolve_left ?_
      rintro rfl
      exact hne hi.symm
    dsimp only
    rw [subdirCount_insert, one, if_neg fun hc => ht hc.2, hother d hne]
    exact h.dirs d hd'

/-- An inode that is not made after all. -/
theorem LinksMatch.update (h : LinksMatch s) (hi : (s.inode i).scrapped = true)
    (hm : m.scrapped = true) : LinksMatch ⟨s.es, Function.update s.inode i m⟩ where
  files := fun j hl hd => by
    have hne : j ≠ i := by
      rintro rfl
      simp [hm] at hl
    simp only [Function.update_of_ne hne] at hl hd ⊢
    exact h.files j hl hd
  dirs := fun d hd => by
    have hne : d ≠ i := by
      rintro rfl
      have := hd.live
      simp [hm] at this
    have hd' : s.LinkedDir d := by
      refine hd.mono ?_ fun f hf hfi => ⟨f, hf, hfi⟩
      simp only [Function.update_of_ne hne, and_self]
    simpa only [Function.update_of_ne hne] using h.dirs d hd'

/-- A new directory. -/
theorem LinksMatch.insertDir (h : LinksMatch s) (ht : e.type = .directory)
    (hfresh : ∀ f ∈ s.es, f.inum ≠ e.inum ∧ f.dir ≠ e.inum) (hdir : s.LinkedDir e.dir)
    (hne : e.dir ≠ e.inum) (hm : m.type = .directory) (hm2 : m.nlinks = 2) :
    LinksMatch ⟨insertDirent e s.es,
      modifyInode (Function.update s.inode e.inum m) e.dir .addSubdir⟩ where
  files := fun i hl hd => by
    have hie : i ≠ e.inum := by
      rintro rfl
      simp only [modifyInode, Function.update_of_ne hne.symm, Function.update_self] at hd
      exact hd hm
    have hid : i ≠ e.dir := by
      rintro rfl
      simp only [modifyInode, Function.update_self, Function.update_of_ne hne] at hd
      exact hd ((keeps_addSubdir _).1.trans hdir.type)
    simp only [modifyInode, Function.update_of_ne hid, Function.update_of_ne hie] at hl hd ⊢
    rw [nameCount_insert, one, if_neg hie.symm]
    exact h.files i hl hd
  dirs := fun d hd => by
    dsimp only
    rw [subdirCount_insert]
    by_cases hde : d = e.inum
    · subst hde
      simp only [modifyInode, Function.update_of_ne hne.symm, Function.update_self]
      rw [subdirCount_eq_zero fun f hf => (hfresh f hf).2, one, if_neg fun hc => hne hc.1]
      exact .inl hm2
    have hd' : s.LinkedDir d := by
      refine hd.mono ?_ fun f hf hi => ⟨f, (mem_insertDirent.1 hf).resolve_left ?_, hi⟩
      · have hs := (SameNodes.refl (Function.update s.inode e.inum m)).modify
          keeps_addSubdir e.dir d
        rw [Function.update_of_ne hde] at hs
        exact ⟨hs.1.symm, hs.2.symm⟩
      · rintro rfl
        exact hde hi.symm
    by_cases hdd : d = e.dir
    · subst hdd
      simp only [modifyInode, Function.update_self, Function.update_of_ne hne,
        NodeMeta.addSubdir_nlinks, ht, and_self, one, if_true]
      rcases h.dirs e.dir hd' with hn | ⟨hr, hn⟩
      · rw [incLinks, if_neg (by omega)]
        exact .inl (by omega)
      · exact .inr ⟨hr, if_pos hn⟩
    · simp only [modifyInode, Function.update_of_ne hdd, Function.update_of_ne hde]
      rw [one, if_neg fun hc => hdd hc.1.symm]
      exact h.dirs d hd'

/-- A directory stays linked in a state with fewer entries. -/
theorem NameSys.LinkedDir.of_sameNodes (h : (⟨es, inode⟩ : NameSys).LinkedDir d)
    (hs : SameNodes s.inode inode) (he : ∀ f ∈ es, ∃ g ∈ s.es, g.inum = f.inum) : s.LinkedDir d :=
  h.mono ⟨(hs d).1.symm, (hs d).2.symm⟩ fun f hf hi =>
    have ⟨g, hg, hgi⟩ := he f hf
    ⟨g, hg, hgi.trans hi⟩

/-- A file with an entry less. -/
theorem LinksMatch.eraseFile (h : LinksMatch s) (he : e ∈ s.es)
    (hf : (s.inode e.inum).type ≠ .directory) (ht : e.type ≠ .directory) :
    LinksMatch ⟨s.es.erase e, modifyInode s.inode e.inum (.unlinkFinisher true)⟩ := by
  have hs := (SameNodes.refl s.inode).modify keeps_unlinkFinisher e.inum
  constructor
  · intro i hil hit
    have hn := h.files i ((hs i).2.symm.trans hil) fun hd => hit ((hs i).1.trans hd)
    have hc := nameCount_erase he i
    dsimp only
    rw [modifyInode_apply]
    by_cases hi : i = e.inum
    · subst hi
      rw [one, if_pos rfl] at hc
      rw [if_pos rfl, unlinkFinisher_nlinks hf]
      omega
    · rw [one, if_neg (Ne.symm hi)] at hc
      rw [if_neg hi]
      omega
  · intro d hd
    have hd' : s.LinkedDir d := hd.of_sameNodes hs fun f hf => ⟨f, List.mem_of_mem_erase hf, rfl⟩
    have hne : d ≠ e.inum := by
      rintro rfl
      exact hf hd'.type
    have hc := subdirCount_erase he d
    rw [one, if_neg fun hc => ht hc.2, Nat.add_zero] at hc
    dsimp only
    rw [modifyInode_apply, if_neg hne, hc]
    exact h.dirs d hd'

/-- An empty directory less. -/
theorem LinksMatch.eraseDir (h : LinksMatch s) (htree : NameTree icrc32 s) (he : e ∈ s.es)
    (hn : e.name ≠ []) (ht : e.type = .directory) :
    LinksMatch ⟨s.es.erase e,
      modifyInode (modifyInode s.inode e.inum (.unlinkFinisher true)) e.dir .dropSubdir⟩ := by
  have hs := ((SameNodes.refl s.inode).modify keeps_unlinkFinisher e.inum).modify keeps_dropSubdir
    e.dir
  obtain ⟨htype, hlive⟩ := htree.node e he hn
  rw [ht] at htype
  have hdir := htree.home e he
  constructor
  · intro i hil hit
    have hit' : (s.inode i).type ≠ .directory := fun hd => hit ((hs i).1.trans hd)
    have hi : i ≠ e.inum := by
      rintro rfl
      exact hit' htype
    have hid : i ≠ e.dir := by
      rintro rfl
      exact hit' hdir.type
    have hc := nameCount_erase he i
    rw [one, if_neg (Ne.symm hi), Nat.add_zero] at hc
    dsimp only
    rw [modifyInode_apply, if_neg hid, modifyInode_apply, if_neg hi, hc]
    exact h.files i ((hs i).2.symm.trans hil) hit'
  · intro d hd
    have hd' : s.LinkedDir d := hd.of_sameNodes hs fun f hf => ⟨f, List.mem_of_mem_erase hf, rfl⟩
    have hne : d ≠ e.inum := by
      rintro rfl
      -- its only entry is gone
      have hroot : e.inum ≠ rootInum := nameCount_eq_zero_iff.1 htree.rootFree e he
      have hc := nameCount_erase he e.inum
      have hle := htree.single e.inum hlive htype
      rw [one, if_pos rfl] at hc
      exact hd.nameCount_pos hroot (by dsimp only; omega)
    have hc := subdirCount_erase he d
    dsimp only
    rw [modifyInode_apply, modifyInode_apply, if_neg hne]
    by_cases hdd : d = e.dir
    · subst hdd
      rw [one, if_pos ⟨rfl, ht⟩] at hc
      rw [if_pos rfl, NodeMeta.dropSubdir_nlinks]
      rcases h.dirs e.dir hd' with hn | ⟨hr, hn⟩
      · rw [decLinks, if_neg (by omega)]
        exact .inl (by omega)
      · exact .inr ⟨hr, if_pos hn⟩
    · rw [one, if_neg fun hc => hdd hc.1.symm, Nat.add_zero] at hc
      rw [if_neg hdd, hc]
      exact h.dirs d hd'

/-- An entry moved to `m`, in place of the entries `r` of the replaced file. -/
theorem LinksMatch.move (h : LinksMatch s) {a : RenameArgs} {tlhc : DirKey} {m : Dirent}
    {r : Dirent → Bool} (he : e ∈ s.es) (hed : e.dir = a.fdir)
    (htype : (s.inode a.fip).type = e.type) (hmi : m.inum = e.inum) (hmt : m.type = e.type)
    (hmd : m.dir = a.tdir) (hfdir : s.LinkedDir a.fdir) (htdir : s.LinkedDir a.tdir)
    (hnames : ∀ i, nameCount ((s.es.erase e).filter r) i = one (a.tip = some i))
    (hdirs : ∀ d, subdirCount ((s.es.erase e).filter r) d = 0)
    (htip : ∀ t, a.tip = some t → (s.inode t).type ≠ .directory) :
    LinksMatch ⟨insertDirent m ((s.es.erase e).filter fun f => !r f),
      renameInodes s.inode a tlhc 0⟩ := by
  have hs := sameNodes_renameInodes s.inode a tlhc 0
  have hmem : ∀ f ∈ insertDirent m ((s.es.erase e).filter fun f => !r f),
      ∃ g ∈ s.es, g.inum = f.inum := by
    intro f hf
    rcases mem_insertDirent.1 hf with rfl | hf
    · exact ⟨e, he, hmi.symm⟩
    · exact ⟨f, List.mem_of_mem_erase (List.mem_filter.1 hf).1, rfl⟩
  constructor
  · intro i hil hit
    have hit' : (s.inode i).type ≠ .directory := fun hd => hit ((hs i).1.trans hd)
    have hif : i ≠ a.fdir := by
      rintro rfl
      exact hit' hfdir.type
    have hid : i ≠ a.tdir := by
      rintro rfl
      exact hit' htdir.type
    have hn := h.files i ((hs i).2.symm.trans hil) hit'
    have h₁ := nameCount_insert m ((s.es.erase e).filter fun f => !r f) i
    have h₂ : nameCount ((s.es.erase e).filter fun f => !r f) i +
      nameCount ((s.es.erase e).filter r) i = nameCount (s.es.erase e) i := countP_filter_add _ _ _
    have h₃ := nameCount_erase he i
    rw [hnames] at h₂
    rw [hmi] at h₁
    dsimp only
    rw [renameInodes_nlinks]
    simp only [hif, hid, and_false, if_false, true_and, unlinkFinisher_nlinks hit']
    unfold one at *
    split at h₂
    · next htip => rw [if_pos htip]; omega
    · next htip => rw [if_neg htip]; omega
  · intro d hd
    have hd' : s.LinkedDir d := hd.of_sameNodes hs hmem
    have hnt : a.tip ≠ some d := fun ht => htip d ht hd'.type
    have h₁ := subdirCount_insert m ((s.es.erase e).filter fun f => !r f) d
    have h₂ : subdirCount ((s.es.erase e).filter fun f => !r f) d +
      subdirCount ((s.es.erase e).filter r) d = subdirCount (s.es.erase e) d :=
        countP_filter_add _ _ _
    have h₃ := subdirCount_erase he d
    rw [hdirs] at h₂
    rw [hmd, hmt] at h₁
    rw [hed] at h₃
    dsimp only
    rw [renameInodes_nlinks]
    simp only [hnt, and_false, if_false, htype]
    have hn := h.dirs d hd'
    by_cases htd : e.type = .directory
    · simp only [htd, and_true, true_and] at h₁ h₃ ⊢
      simp only [eq_comm (a := d)]
      unfold one at h₁ h₃
      unfold incLinks decLinks
      split_ifs at h₁ h₃ ⊢ <;> omega
    · simp only [htd, and_false, false_and, if_false, one] at h₁ h₃ ⊢
      omega

end

/-! ## The operations -/

/-- The operations on names, with the outcomes of what they call. -/
inductive NsAct
  | create (dir : Nat) (name : Name) (inum : Nat) (type : ObjType) (io : CreateIo)
  | link (dir : Nat) (name : Name) (ip : Nat) (io : LinkIo)
  | remove (dir : Nat) (name : Name) (isdir : Bool) (io : RemoveIo)
  | rename (a : RenameArgs) (io : VopRenameIo)

section
variable (icrc32 : Name → BitVec 32)

/-- The state after an operation. -/
def NameSys.next (s : NameSys) : NsAct → NameSys
  | .create dir name inum type io => (vopNcreate icrc32 io s dir name inum type).1
  | .link dir name ip io => (vopLink icrc32 io s dir name ip).1
  | .remove dir name isdir io => (vopNremove icrc32 io s dir name isdir).1
  | .rename a io => (vopRename icrc32 io s a).1

/-- What the kernel asks for: linked directories, names that are not there yet for what is created,
a number that is not in use for a new inode, and no hard links to directories. -/
def NsAct.Asked (s : NameSys) : NsAct → Prop
  | .create dir name inum _ _ => s.LinkedDir dir ∧ name ≠ [] ∧
      (∀ e ∈ s.es, e.dir = dir → e.name ≠ name) ∧ (s.inode inum).scrapped = true ∧ inum ≠ 0
  | .link dir name ip _ => s.LinkedDir dir ∧ name ≠ [] ∧
      (∀ e ∈ s.es, e.dir = dir → e.name ≠ name) ∧ (s.inode ip).scrapped = false ∧
      (s.inode ip).type ≠ .directory
  | .remove _ name _ _ => name ≠ []
  | .rename a _ => a.Asked icrc32 s ∧ s.LinkedDir a.fdir ∧ s.LinkedDir a.tdir

/-- The step relation of the name space. -/
def NsStep (s : NameSys) (a : NsAct) (s' : NameSys) : Prop :=
  a.Asked icrc32 s ∧ s' = s.next icrc32 a

/-- The operation succeeds or fails harmlessly. No insertion or deletion that fails drops entries
with the block it works on. A new directory is not lost after its entry has been made; a link is
made if it is not refused; a removal that deletes the entry finds its inode; a rename stops before
it has deleted the source, with the counts of the directories as they were and no replaced inode
that an `ENOENT` could take a link from, or it does everything and replaces no directory. -/
def NsAct.Counted (s : NameSys) : NsAct → Prop
  | .create _ _ _ type io => io.dirent.torn = [] ∧ (type = .directory → io.igetv = 0)
  | .link dir name ip io => linkRefused io s name ip = 0 →
      (direntCreate icrc32 io.dirent s.es dir name ip (s.inode ip).type).2 = 0
  | .remove dir name isdir io => (io.xop.delete ≠ 0 → io.xop.torn = []) ∧
      (io.xop.inodeFind = true ∨ (xopUnlink icrc32 io.xop s.es dir name isdir).1 = s.es)
  | .rename a io => ∀ tlhc, renameKey icrc32 io s a = .ok tlhc →
      let stop := (s.renameXop a tlhc).stopError icrc32 io.xop s.es
      (stop ≠ 0 → a.CountsKept s.inode ∧ (errorToErrno stop = enoent → a.tip = none) ∧
        (s.renameXop a tlhc).Intact icrc32 io.xop s.es) ∧
      (stop = 0 → (s.renameXop a tlhc).Completes icrc32 io.xop s.es ∧
        (∀ f ∈ s.es, f.dir = a.tdir → f.name = a.tname → f.key ∉ io.xop.undeleted) ∧
        ∀ t, a.tip = some t → (s.inode t).type ≠ .directory)

/-- The invariant of the runs. -/
structure Linked (s : NameSys) : Prop where
  tree : NameTree icrc32 s
  counts : LinksMatch s

end

section
variable {icrc32 : Name → BitVec 32} {s : NameSys}

/-- A blank entry is stored and has no name. -/
theorem blankDirent_spec (dir : Nat) (key : DirKey) :
    (blankDirent dir key).Stored ∧ (blankDirent dir key).name = [] := by
  refine ⟨⟨fun h => absurd h (by decide : ¬ false = true), Nat.zero_le _⟩, ?_⟩
  rw [Dirent.name]
  exact List.take_zero

variable {dir inum : Nat} {name : Name} {a : RenameArgs} {rio : RenameIo} {tlhc : DirKey}
  {e : Dirent}

/-- An entry without a name changes no count. -/
theorem Linked.insertBlank (h : Linked icrc32 s) (hdir : s.LinkedDir dir) (key : DirKey) :
    Linked icrc32 ⟨insertDirent (blankDirent dir key) s.es, s.inode⟩ := by
  obtain ⟨hst, hname⟩ := blankDirent_spec dir key
  have htype : (blankDirent dir key).type ≠ .directory := nofun
  refine ⟨h.tree.insert hst (fun hn => absurd hname hn) (fun hn => absurd hname hn) hdir
    (fun hn => absurd hname hn) (fun _ => ⟨rfl, htype⟩) (fun ht => absurd ht htype)
    (by decide : 0 ≠ rootInum), h.counts.insertFile htype (fun _ _ => rfl) fun hl => ?_⟩
  exact absurd h.tree.zero (by rw [show (s.inode 0).scrapped = false from hl]; decide)

/-- Without a Linux inode, a new inode that is unlinked is scrapped. -/
theorem newNode_scrapped (dir inum : Nat) (type : ObjType) :
    ((newNode dir inum type).unlinkFinisher false).scrapped = true := by
  unfold NodeMeta.unlinkFinisher
  rw [if_neg]
  · rfl
  · rintro ⟨ht, hn⟩
    simp only [newNode] at ht hn
    rw [if_neg ht] at hn
    exact absurd hn (by decide)

/-- The inode and the entry of a creation. -/
theorem NameTree.create (h : NameTree icrc32 s) (type : ObjType) {key : DirKey}
    (hdir : s.LinkedDir dir) (hn : name ≠ []) (hfree : ∀ e ∈ s.es, e.dir = dir → e.name ≠ name)
    (hi : (s.inode inum).scrapped = true) (h0 : inum ≠ 0)
    (hk : freeKey icrc32 s.es dir name = some key) :
    NameTree icrc32 ⟨insertDirent (mkdirent dir key inum type name) s.es,
      Function.update s.inode inum (newNode dir inum type)⟩ := by
  obtain ⟨hst, hname, hd, hkey, hinum, htype⟩ := mkdirent_spec dir key inum type name
  refine (h.update (m := newNode dir inum type) hi h0).insert hst ?_ ?_ ?_ ?_ ?_ ?_ ?_
  · intro _
    rw [hname, hkey]
    exact freeKey_hash hk
  · intro _ f hf hfd
    rw [hname]
    exact hfree f hf (hfd.trans hd)
  · rw [hd]
    exact hdir.update hi
  · intro _
    dsimp only
    rw [hinum, htype, Function.update_self]
    exact ⟨rfl, rfl⟩
  · intro he
    exact absurd (hname.symm.trans he) hn
  · intro _
    rw [hinum]
    exact nameCount_eq_zero_iff.2 fun e he => (h.fresh hi h0 e he).1
  · rw [hinum]
    exact (h.root.ne_of_scrapped hi).symm

/-- **Creation.** -/
theorem Linked.create (h : Linked icrc32 s) {type : ObjType} {io : CreateIo}
    (ha : (NsAct.create dir name inum type io).Asked icrc32 s)
    (hc : (NsAct.create dir name inum type io).Counted icrc32 s) :
    Linked icrc32 (vopNcreate icrc32 io s dir name inum type).1 := by
  obtain ⟨hdir, hn, hfree, hi, h0⟩ := ha
  have hfail : Linked icrc32
      ⟨s.es, Function.update s.inode inum ((newNode dir inum type).unlinkFinisher false)⟩ :=
    ⟨h.tree.update hi h0, h.counts.update hi (newNode_scrapped dir inum type)⟩
  unfold vopNcreate
  split
  · exact h
  by_cases hcr : io.create = 0
  swap
  · simpa only [ne_eq, hcr, not_false_eq_true, if_true] using hfail
  simp only [hcr, ne_eq, not_true_eq_false, if_false]
  rcases direntCreate_cases icrc32 io.dirent s.es dir name inum type with
    ⟨key, hk, hr⟩ | ⟨hne, hes | hes | ⟨key, hes⟩⟩
  · rw [hr]
    have htree := h.tree.create type hdir hn hfree hi h0 hk
    obtain ⟨-, -, hed, -, hinum, htype⟩ := mkdirent_spec dir key inum type name
    have hfile : type ≠ .directory → Linked icrc32 ⟨insertDirent (mkdirent dir key inum type name)
        s.es, Function.update s.inode inum (newNode dir inum type)⟩ := by
      intro hf
      refine ⟨htree, h.counts.insertFile (by rw [htype]; exact hf) ?_ fun _ => ?_⟩
      · intro i hne
        rw [hinum] at hne
        exact Function.update_of_ne hne _ _
      · rw [hinum, Function.update_self, nameCount_eq_zero_iff.2 fun e he =>
          (h.tree.fresh hi h0 e he).1]
        exact ⟨hf, if_neg hf⟩
    dsimp only
    rw [if_neg (not_not.2 rfl)]
    split
    · next hg => exact hfile fun ht => hg (hc.2 ht)
    split
    · next hs => exact hfile (by rw [hs.1]; decide)
    split
    · next ht =>
      refine ⟨htree.sameNodes ((SameNodes.refl _).modify keeps_addSubdir dir), ?_⟩
      have hcounts := h.counts.insertDir (e := mkdirent dir key inum type name)
        (m := newNode dir inum type) (htype.trans ht) (by rw [hinum]; exact h.tree.fresh hi h0)
        (by rw [hed]; exact hdir) (by rw [hed, hinum]; exact hdir.ne_of_scrapped hi) ht (if_pos ht)
      rwa [hed, hinum] at hcounts
    · next ht => exact hfile ht
  · rw [if_pos hne, hes]
    exact hfail
  · rw [if_pos hne, hes, hc.1, dropTorn_eq_self_iff.2 fun _ _ _ => List.not_mem_nil]
    exact hfail
  · rw [if_pos hne, hes]
    exact hfail.insertBlank (hdir.update hi) key

/-- **Hard link.** -/
theorem Linked.link (h : Linked icrc32 s) {ip : Nat} {io : LinkIo}
    (ha : (NsAct.link dir name ip io).Asked icrc32 s)
    (hc : (NsAct.link dir name ip io).Counted icrc32 s) :
    Linked icrc32 (vopLink icrc32 io s dir name ip).1 := by
  obtain ⟨hdir, hn, hfree, hlive, htype⟩ := ha
  unfold vopLink
  split
  · exact h
  next hre =>
  have hok := hc (not_not.1 hre)
  rcases direntCreate_cases icrc32 io.dirent s.es dir name ip (s.inode ip).type with
    ⟨key, hk, hr⟩ | ⟨hne, -⟩
  swap
  · exact absurd hok hne
  rw [hr]
  obtain ⟨hst, hname, hed, hkey, hinum, het⟩ := mkdirent_spec dir key ip (s.inode ip).type name
  have hroot : ip ≠ rootInum := by
    rintro rfl
    exact htype h.tree.root.type
  have hs : SameNodes s.inode (modifyInode s.inode ip fun m => { m with nlinks := m.nlinks + 1 }) :=
    (SameNodes.refl s.inode).modify (g := fun m => { m with nlinks := m.nlinks + 1 })
      (fun _ => ⟨rfl, rfl⟩) ip
  have htree : NameTree icrc32
      ⟨insertDirent (mkdirent dir key ip (s.inode ip).type name) s.es, s.inode⟩ := by
    refine h.tree.insert hst ?_ ?_ (by rw [hed]; exact hdir) ?_ ?_ ?_ (by rw [hinum]; exact hroot)
    · intro _
      rw [hname, hkey]
      exact freeKey_hash hk
    · intro _ f hf hfd
      rw [hname]
      exact hfree f hf (hfd.trans hed)
    · intro _
      rw [hinum, het]
      exact ⟨rfl, hlive⟩
    · exact fun he => absurd (hname.symm.trans he) hn
    · exact fun ht => absurd (het.symm.trans ht) htype
  refine ⟨htree.sameNodes hs, h.counts.insertFile (by rw [het]; exact htype) ?_ fun _ => ?_⟩
  · intro i hne
    rw [hinum] at hne
    rw [modifyInode_apply, if_neg hne]
  · rw [hinum, modifyInode_apply, if_pos rfl]
    exact ⟨htype, congrArg (· + 1) (h.counts.files ip hlive htype)⟩

/-- **Removal.** -/
theorem Linked.remove (h : Linked icrc32 s) {isdir : Bool} {io : RemoveIo} (hn : name ≠ [])
    (hc : (NsAct.remove dir name isdir io).Counted icrc32 s) :
    Linked icrc32 (vopNremove icrc32 io s dir name isdir).1 := by
  unfold vopNremove
  split
  · exact h
  rcases xopUnlink_cases icrc32 io.xop s.es dir name isdir with ⟨e, hf, hu, hr⟩ | ⟨hes, hne⟩
  swap
  · have hes' : (xopUnlink icrc32 io.xop s.es dir name isdir).1 = s.es := by
      rcases hes with hes | ⟨hd, hes⟩
      · exact hes
      · rw [hes, hc.1 hd, dropTorn_eq_self_iff.2 fun _ _ _ => List.not_mem_nil]
    rw [if_pos hne, hes']
    exact h
  obtain ⟨he, hed, hen⟩ := findDirent_spec h.tree.kept.stored hf
  have hname : e.name ≠ [] := hen ▸ hn
  -- the entry is deleted, so that its inode is found
  have hfind : io.xop.inodeFind = true := by
    refine hc.2.resolve_right fun hes => h.tree.kept.not_mem_erase hname (?_ : e ∈ s.es.erase e)
    have hes' : s.es.erase e = s.es := by
      rw [hr] at hes
      split at hes
      · exact hes
      · exact hes
    rw [hes']
    exact he
  rw [hr, if_pos hfind]
  simp only [ne_eq, not_true_eq_false, if_false]
  obtain ⟨hisdir, hempty⟩ := unlinkError_eq_zero hu
  have htree := h.tree.erase he hname hempty
  have hs := (SameNodes.refl s.inode).modify keeps_unlinkFinisher e.inum
  by_cases ht : e.type = .directory
  · rw [if_pos (hisdir.2 ht)]
    have hcounts := h.counts.eraseDir h.tree he hname ht
    rw [hed] at hcounts
    exact ⟨htree.sameNodes (hs.modify keeps_dropSubdir dir), hcounts⟩
  · rw [if_neg fun hd => ht (hisdir.1 hd)]
    exact ⟨htree.sameNodes hs,
      h.counts.eraseFile he (by rw [(h.tree.node e he hname).1]; exact ht) ht⟩

/-- What a rename that is done replaces: the entry that the target's name had. -/
theorem RenameArgs.Asked.filter_replaces (ha : a.Asked icrc32 s)
    (hkey : (tlhc ^^^ dirhash icrc32 a.tname) &&& ~~~dirhashLomask = 0#64)
    (hcomp : (s.renameXop a tlhc).Completes icrc32 rio s.es)
    (hdel : ∀ f ∈ s.es, f.dir = a.tdir → f.name = a.tname → f.key ∉ rio.undeleted)
    (hf : (s.renameXop a tlhc).findSource icrc32 s.es = some e) :
    (s.es.erase e).filter ((s.renameXop a tlhc).replaces rio) =
      (findDirent icrc32 s.es a.tdir a.tname).toList := by
  obtain ⟨he, hed, hen, -⟩ := ha.findSource hf
  have hr : ∀ f ∈ s.es, (s.renameXop a tlhc).replaces rio f = true ↔
      f.dir = a.tdir ∧ f.name = a.tname := fun f hfm =>
    replaces_iff (x := s.renameXop a tlhc) ha.kept hfm ha.tname hkey hcomp.scan (hdel f hfm)
  rw [← List.erase_filter, ha.kept.filter_name ha.tname hr]
  refine List.erase_of_not_mem fun hmem => ?_
  obtain ⟨-, hd, hn⟩ := (ha.kept.findDirent_iff ha.tname).1 (Option.mem_toList.1 hmem)
  exact ha.apart (hd.symm.trans hed) (hn.symm.trans hen)

/-- A rename that is done. -/
theorem Linked.move (h : Linked icrc32 s) (ha : a.Asked icrc32 s) (hfdir : s.LinkedDir a.fdir)
    (htdir : s.LinkedDir a.tdir)
    (hkey : (tlhc ^^^ dirhash icrc32 a.tname) &&& ~~~dirhashLomask = 0#64)
    (hcomp : (s.renameXop a tlhc).Completes icrc32 rio s.es)
    (hdel : ∀ f ∈ s.es, f.dir = a.tdir → f.name = a.tname → f.key ∉ rio.undeleted)
    (hf : (s.renameXop a tlhc).findSource icrc32 s.es = some e)
    (htip : ∀ t, a.tip = some t → (s.inode t).type ≠ .directory) :
    Linked icrc32 ⟨insertDirent ((s.renameXop a tlhc).moved rio e) ((s.es.erase e).filter fun f =>
      !(s.renameXop a tlhc).replaces rio f), renameInodes s.inode a tlhc 0⟩ := by
  obtain ⟨he, hed, hen, hei⟩ := ha.findSource hf
  have hname : e.name ≠ [] := hen ▸ ha.fname
  obtain ⟨hst, hmd, hmk, hmi, hmt⟩ :=
    moved_frame (s.renameXop a tlhc) rio (ha.kept.stored e he)
  have hmn : ((s.renameXop a tlhc).moved rio e).name = a.tname := (hcomp.moved e hf).2
  have hfilter := ha.filter_replaces hkey hcomp hdel hf
  -- the replaced entry is the one of `tip`
  have hreplaced : ∀ f, findDirent icrc32 s.es a.tdir a.tname = some f → f ∈ s.es ∧ f.name ≠ [] ∧
      a.tip = some f.inum ∧ f.type ≠ .directory := by
    intro f hfd
    obtain ⟨hfm, -, hfn⟩ := (ha.kept.findDirent_iff ha.tname).1 hfd
    have hfne : f.name ≠ [] := hfn ▸ ha.tname
    have htf : a.tip = some f.inum := by rw [ha.target, nresolve, hfd, Option.map_some]
    exact ⟨hfm, hfne, htf, fun ht => htip _ htf ((h.tree.node f hfm hfne).1.trans ht)⟩
  have htree : NameTree icrc32 ⟨insertDirent ((s.renameXop a tlhc).moved rio e)
      ((s.es.erase e).filter fun f => !(s.renameXop a tlhc).replaces rio f), s.inode⟩ := by
    refine h.tree.move he hname hst (by rw [hmn]; exact ha.tname) hmi hmt ?_ ?_ ?_ ?_
    · rw [hmk, hmn]
      exact hkey
    · rw [hmd]
      exact htdir
    · intro f hfm hd hn
      exact (replaces_iff (x := s.renameXop a tlhc) ha.kept hfm ha.tname hkey hcomp.scan
        (hdel f hfm)).2 ⟨hd.trans hmd, hn.trans hmn⟩
    · intro f hfm hr
      have hmem : f ∈ (findDirent icrc32 s.es a.tdir a.tname).toList :=
        hfilter ▸ List.mem_filter.2 ⟨hfm, hr⟩
      obtain ⟨-, hfne, -, hft⟩ := hreplaced f (Option.mem_toList.1 hmem)
      exact ⟨hfne, hft⟩
  refine ⟨htree.sameNodes (sameNodes_renameInodes s.inode a tlhc 0), ?_⟩
  refine h.counts.move he hed (by rw [← hei]; exact (h.tree.node e he hname).1) hmi hmt hmd hfdir
    htdir ?_ ?_ htip
  · intro i
    rw [hfilter, ha.target, nresolve]
    cases findDirent icrc32 s.es a.tdir a.tname with
    | none => rfl
    | some f => simp [nameCount, one, List.countP_cons]
  · intro d
    rw [hfilter]
    cases hfd : findDirent icrc32 s.es a.tdir a.tname with
    | none => rfl
    | some f => simp [subdirCount, (hreplaced f hfd).2.2.2]

/-- **Rename.** -/
theorem Linked.rename (h : Linked icrc32 s) {io : VopRenameIo}
    (ha : (NsAct.rename a io).Asked icrc32 s) (hc : (NsAct.rename a io).Counted icrc32 s) :
    Linked icrc32 (vopRename icrc32 io s a).1 := by
  obtain ⟨ha, hfdir, htdir⟩ := ha
  unfold vopRename
  cases hk : renameKey icrc32 io s a with
  | error error => exact h
  | ok tlhc =>
    obtain ⟨hstopped, hdone⟩ := hc tlhc hk
    dsimp only
    rcases xopNrename_eq icrc32 (s.renameXop a tlhc) io.xop s.es with
      ⟨hstop, es', -, hes, hr⟩ | ⟨hstop, e, hf, hr⟩
    · obtain ⟨hcounts, htip, hintact⟩ := hstopped hstop
      rw [hr, hes.2 hintact]
      refine ⟨h.tree.sameNodes (sameNodes_renameInodes _ _ _ _),
        h.counts.sameNodes (sameNodes_renameInodes _ _ _ _)
          ((renameInodes_nlinks_iff (fun i hi => ?_) ha.linked).2 hcounts)⟩
      have herrno := (renameErrno_eq_zero_iff.1 hi.1).resolve_left hstop
      exact absurd ((htip herrno).symm.trans hi.2) (Option.some_ne_none i).symm
    · obtain ⟨hcomp, hdel, htip⟩ := hdone hstop
      have hkept : (s.renameXop a tlhc).kept io.xop (s.es.erase e) =
          (s.es.erase e).filter fun f => !(s.renameXop a tlhc).replaces io.xop f := by
        refine kept_eq_filter fun f hfe hm => ?_
        have hfm := List.mem_of_mem_erase hfe
        obtain ⟨hd, hn⟩ := (meets_iff (x := s.renameXop a tlhc) ha.kept hfm ha.tname
          (renameKey_hash hk) hcomp.scan).1 hm
        exact hdel f hfm hd hn
      rw [hr, finish_done hcomp.tparent (hcomp.moved e hf).1 hcomp.scan hcomp.create, hkept]
      exact h.move ha hfdir htdir (renameKey_hash hk) hcomp hdel hf htip

/-- The invariant along a run. -/
theorem Linked.run {s' : NameSys} {as : List NsAct} (h : Linked icrc32 s)
    (hrun : RunMeets (NsStep icrc32) (fun s a => a.Counted icrc32 s) s as s') :
    Linked icrc32 s' := by
  refine hrun.invariant ?_ h
  rintro s (_ | _ | _ | _) t hs hc ⟨ha, rfl⟩
  · exact hs.create ha hc
  · exact hs.link ha hc
  · exact hs.remove ha hc
  · exact hs.rename ha hc

end

/-! ## Small name spaces -/

/-- No operation of a creation fails. -/
def CreateIo.ok : CreateIo := ⟨0, 0, .ok, 0, 0⟩

end Hammer2
