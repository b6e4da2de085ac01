import Hammer2.Bulkfree.Interleaving
import Hammer2.Recovery.Safety

/-!
# Recovery from every header

Along every run from a mounted volume whose steps meet `FsOk`, recovery from every header the run
writes ends and leaves everything the header reaches marked (`recovery_remarks`). Both parts of the
condition are needed. A block with an index of 16 or more in its bitmap element is not marked again
(`recovery_misses_upper_half`). A block allocated after the flush of its freemap leaf and before
that of `fchain` gets a `mirror_tid` equal to the `freemap_tid` recorded, and recovery does not look
at it (`recovery_misses_late_block`).

Reference: `hammer2_vfsops.c:1968-2137`, `hammer2_flush.c:668-690`.
-/

namespace Hammer2

open Deferral Transition

/-- **Recovery marks again everything the on-media freemap misses**: for every run whose steps meet
the condition and every header it writes. -/
theorem recovery_remarks {ι : Type*} [DecidableEq ι] (hmp : FreemapDev) (s₀ s : FsState ι)
    (acts : List (FsAct ι)) (h₀ : FsInit hmp s₀)
    (hrun : RunMeets (fsStep hmp) FsOk s₀ acts s) : ∀ h ∈ s.headers, Recovers hmp h := by
  have hinv := hrun.invariant (fun h hok hst => FsInv.step h hok hst) h₀.inv
  intro h hh
  obtain ⟨hi, hok⟩ := hinv.headers h hh
  exact hi.recovers hok

/-! ## A fresh volume -/

section
variable {ι : Type*}

/-- The header of a volume without a topology. -/
def freshHeader (hmp : FreemapDev) : VolumeData (VolBody ι) where
  mirrorTid := 1
  freemapTid := 1
  voluSize := hmp.totalSize
  body := ⟨[], fun seg => cbinfoBmapInit hmp (seg * segSize)⟩

/-- That volume just mounted. -/
def fsFresh (hmp : FreemapDev) : FsState ι where
  vol := .mount 0 (freshHeader hmp)
  chain _ := ⟨⟨.inode, none, 0, false⟩, false, false, none, []⟩
  live seg := cbinfoBmapInit hmp (seg * segSize)
  dirty := []
  sources := []
  headers := [freshHeader hmp]

/-- A new file system is an initial state. -/
theorem fsInit_fresh (hmp : FreemapDev) : FsInit hmp (fsFresh hmp : FsState ι) := by
  refine ⟨freshHeader hmp, ⟨le_refl _, fun g => ?_, fun t ht => ?_, fun t ht => ?_⟩, ?_, ?_, rfl⟩
  · exact ((bfInit_fresh hmp).inv.seg g).mono (Set.empty_subset _) (Set.empty_subset _)
  · cases ht
  · cases ht
  · intro b hb
    cases hb
  · exact ⟨⟨0, rfl⟩, ⟨0, [], rfl, rfl⟩, fun seg hne => absurd rfl hne,
      fun c => Or.inl ⟨rfl, rfl, rfl, rfl⟩, rfl⟩

variable [DecidableEq ι] {hmp : FreemapDev}

instance Storage.decidableValid {type : BrefType} : ∀ how : Storage, Decidable (how.Valid type)
  | .alloc .. => inferInstanceAs (Decidable (_ ∧ _))
  | .keep | .dedup _ => inferInstanceAs (Decidable True)

instance FsAct.decidableValid {s : FsState ι} : ∀ a : FsAct ι, Decidable (a.Valid s)
  | .modify .. | .unmap .. | .copyTable .. => inferInstanceAs (Decidable (Storage.Valid _ _))
  | .move .. => inferInstanceAs (Decidable (_ ∧ _))
  | .flush c how =>
    match h : (s.chain c).parent with
    | none => isTrue fun p hp => by rw [h] at hp; cases hp
    | some p => decidable_of_iff (how.Valid (s.typeAt p))
        ⟨fun hv q hq => by rw [h] at hq; cases hq; exact hv, fun hv => hv p h⟩
  | .create .. | .setDirect .. | .attach .. | .detach _ | .clean _ | .flushLeaf _ | .flushFreemap
  | .voldataModify | .flushVolume | .headerWrite | .mount _ => inferInstanceAs (Decidable True)

instance {s : FsState ι} : ∀ a : FsAct ι, Decidable (FsOk s a)
  | .flushFreemap => inferInstanceAs (Decidable (s.dirty = []))
  | .headerWrite => inferInstanceAs (Decidable (HeaderOk _))
  | .modify .. | .unmap .. | .copyTable .. | .move .. | .flush .. | .create .. | .setDirect ..
  | .attach .. | .detach _ | .clean _ | .flushLeaf _ | .voldataModify | .flushVolume
  | .mount _ => inferInstanceAs (Decidable True)

/-- A computed step is a step. -/
theorem fsStep_of_next {s t : FsState ι} {a : FsAct ι} (hv : a.Valid s)
    (hn : fsNext hmp s a = some t) : fsStep hmp s a t := by
  refine ⟨hv, ?_⟩
  cases a with
  | mount h => cases hn
  | _ => exact hn

/-- Executing the actions gives a run. -/
theorem run_of_exec {s₀ s : FsState ι} {acts : List (FsAct ι)}
    (h : exec (fsNext hmp) (fun s a => a.Valid s ∧ FsOk s a) s₀ acts = some s) :
    RunMeets (fsStep hmp) FsOk s₀ acts s := by
  refine RunMeets.of_exec ?_ h
  intro s a t hc hn
  exact ⟨hc.2, fsStep_of_next hc.1 hn⟩

/-- Whether recovery leaves everything reachable from a header marked. -/
def recoversCheck (hmp : FreemapDev) (h : VolumeData (VolBody ι)) : Bool :=
  match recovery h.freemapTid (Rose.sizeAll h.body.sroot.trees) h.body.sroot.trees with
  | none => false
  | some adjusted => (reachAll TopoRef.scans h.body.sroot.trees).all fun x =>
      decide (x.Marked (recoveredFreemap hmp h.body.freemap adjusted))

omit [DecidableEq ι] in
/-- The check of the example is necessary. -/
theorem recoversCheck_of_recovers {h : VolumeData (VolBody ι)} (hr : Recovers hmp h) :
    recoversCheck hmp h = true := by
  obtain ⟨adjusted, hall, hmarked⟩ := hr
  rw [recoversCheck, hall _ (le_refl _), List.all_eq_true]
  intro x hx
  obtain ⟨p, hp⟩ := path_of_mem_reachAll hx
  exact decide_eq_true (hmarked p x hp).2

/-- A run at the end of which recovery from the last header misses a block. -/
theorem exists_not_recovers {s₀ : FsState ι} {acts : List (FsAct ι)}
    (h : (exec (fsNext hmp) (fun s a => a.Valid s) s₀ acts).map
      (fun s => s.headers.head?.map (recoversCheck hmp)) = some (some false)) :
    ∃ s, Run (fsStep hmp) s₀ acts s ∧ ∃ h ∈ s.headers, ¬ Recovers hmp h := by
  obtain ⟨s, hex, hs⟩ := Option.map_eq_some_iff.1 h
  obtain ⟨hdr, hh, hcheck⟩ := Option.map_eq_some_iff.1 hs
  have hrun : Run (fsStep hmp) s₀ acts s := by
    refine RunMeets.of_exec ?_ hex
    intro s a t hc hn
    exact ⟨trivial, fsStep_of_next hc hn⟩
  refine ⟨s, hrun, hdr, List.mem_of_mem_head? hh, fun hr => ?_⟩
  rw [recoversCheck_of_recovers hr] at hcheck
  cases hcheck

end

/-- An inode with a data block is flushed with the freemap; the block is then written again, and a
second header is written without a flush of the freemap. -/
def crashTrace : List (FsAct (Fin 2)) :=
  [.create 0 .inode false none, .modify 0 (.alloc 1 0#32 10),
    .create 1 .data false (some 0), .modify 1 (.alloc 1 0x14000#32 14),
    .flush 1 .keep, .flush 0 .keep, .flushLeaf 0, .flushFreemap, .flushVolume, .headerWrite,
    .modify 1 (.alloc 1 0x18000#32 14), .flush 1 (.alloc 1 0#32 10), .flush 0 .keep,
    .flushVolume, .headerWrite]

/-- The new data block is free in the freemap of the second header, and marked after a recovery. -/
theorem recovery_remarks_two_headers :
    ∃ s h, RunMeets (fsStep ⟨4194304, 2147483648⟩) FsOk (fsFresh ⟨4194304, 2147483648⟩)
      crashTrace s ∧ s.headers.head? = some h ∧ (h.body.freemap 1).pair 6 = 0#2 ∧
      Recovers ⟨4194304, 2147483648⟩ h := by
  have hend : (exec (fsNext ⟨4194304, 2147483648⟩) (fun s a => a.Valid s ∧ FsOk s a)
      (fsFresh ⟨4194304, 2147483648⟩) crashTrace).map
        (fun s => s.headers.head?.map fun h => (h.body.freemap 1).pair 6) =
      some (some 0#2) := by decide +kernel
  obtain ⟨s, hex, hs⟩ := Option.map_eq_some_iff.1 hend
  obtain ⟨h, hh, hpair⟩ := Option.map_eq_some_iff.1 hs
  have hrun := run_of_exec hex
  exact ⟨s, h, hrun, hh, hpair, recovery_remarks _ _ _ _ (fsInit_fresh _) hrun h
    (List.mem_of_mem_head? hh)⟩

/-- A data block that its key places at block 16 of its bitmap element, written after the freemap
was flushed last: recovery marks block 0 instead. -/
theorem recovery_misses_upper_half :
    ∃ s : FsState (Fin 2), Run (fsStep ⟨4194304, 2147483648⟩) (fsFresh ⟨4194304, 2147483648⟩)
      [.create 0 .inode false none, .modify 0 (.alloc 1 0#32 10),
        .create 1 .data false (some 0), .modify 1 (.alloc 1 0x40000#32 14),
        .flush 1 .keep, .flush 0 .keep, .flushVolume, .headerWrite] s ∧
      ∃ h ∈ s.headers, ¬ Recovers ⟨4194304, 2147483648⟩ h :=
  exists_not_recovers (by decide +kernel)

/-- A data block allocated between the flush of its freemap leaf and that of `fchain`. -/
theorem recovery_misses_late_block :
    ∃ s : FsState (Fin 2), Run (fsStep ⟨4194304, 2147483648⟩) (fsFresh ⟨4194304, 2147483648⟩)
      [.create 0 .inode false none, .modify 0 (.alloc 1 0#32 10), .create 1 .data false (some 0),
        .flushLeaf 0, .modify 1 (.alloc 1 0x14000#32 14), .flushFreemap,
        .flush 1 .keep, .flush 0 .keep, .flushVolume, .headerWrite] s ∧
      ∃ h ∈ s.headers, ¬ Recovers ⟨4194304, 2147483648⟩ h :=
  exists_not_recovers (by decide +kernel)

end Hammer2
