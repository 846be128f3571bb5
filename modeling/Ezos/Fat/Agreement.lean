import Ezos.Fat.FsckClean
import Ezos.Fat.Fresh

/-!
# What the writer leaves, the checker accepts

After formatting and any sequence of orderly calls that lose no cluster, `fat_fsck` finds nothing, and the current
directory is one that the checker reaches.
-/

namespace Ezos.Fat

open Lib.Memory Lib.Chains Lib.Forests Exfat

set_option autoImplicit false

variable {v : Vol} {P : Plan} {s : Sys} {junk : Nat → Junk} {d : Nat} {x y : FsckCtx} {r : FsckReport} {m : FsckBuffers}
  {fuel fuel' : Nat} {calls : List Call}

theorem fsckBfs_mono {ok : Bool} (h : fsckBfs v junk x fuel = some (y, ok)) (hle : fuel ≤ fuel') :
    fsckBfs v junk x fuel' = some (y, ok) := by
  induction fuel generalizing x fuel' with
  | zero => contradiction
  | succ fuel ih =>
    obtain ⟨fuel', rfl⟩ : ∃ f, fuel' = f + 1 := ⟨fuel' - 1, by omega⟩
    rw [fsckBfs] at h ⊢
    split
    · rename_i hlt
      rw [if_pos hlt] at h
      dsimp only at h ⊢
      split
      · rename_i hstop
        rw [if_pos hstop] at h
        exact h
      · rename_i hgo
        rw [if_neg hgo] at h
        exact ih h (by omega)
    · rename_i hdone
      rw [if_neg hdone] at h
      exact h

theorem fatFsck_mono {ret : Int × FsckReport} (h : fatFsck v junk r m fuel = some ret) (hle : fuel ≤ fuel') :
    fatFsck v junk r m fuel' = some ret := by
  unfold fatFsck at h ⊢
  dsimp only at h ⊢
  split
  · rename_i hzero
    rw [if_pos hzero] at h
    exact h
  · rename_i hcount
    rw [if_neg hcount] at h
    rcases m with ⟨_ | bm, _ | queue⟩
    · exact h
    · exact h
    · exact h
    · dsimp only at h ⊢
      generalize fsckStart v _ bm queue = start at h ⊢
      rcases hrun : fsckBfs v junk start fuel with _ | ⟨z, ok⟩
      · rw [hrun] at h
        contradiction
      · rw [hrun] at h
        rw [fsckBfs_mono hrun hle]
        exact h

def FsckReturns (v : Vol) (junk : Nat → Junk) (r : FsckReport) (m : FsckBuffers) (ret : Int × FsckReport) : Prop :=
  ∃ fuel, fatFsck v junk r m fuel = some ret

theorem FsckReturns.unique {ret ret' : Int × FsckReport} (h : FsckReturns v junk r m ret)
    (h' : FsckReturns v junk r m ret') : ret = ret' := by
  obtain ⟨fuel, hfuel⟩ := h
  obtain ⟨fuel', hfuel'⟩ := h'
  have hall := fatFsck_mono hfuel (Nat.le_max_left fuel fuel')
  rw [fatFsck_mono hfuel' (Nat.le_max_right fuel fuel')] at hall
  exact (Option.some.inj hall).symm

def InTree (v : Vol) (junk : Nat → Junk) (d : Nat) : Prop :=
  Relation.ReflTransGen (fun a b => b ∈ subdirs v junk a) (rootDirClusterValue v) d

def FewDirs (v : Vol) (junk : Nat → Junk) : Prop :=
  ∃ dirs : List Nat, dirs.length < fatFsckMaxDirs ∧ ∀ d, InTree v junk d → d ∈ dirs

theorem Tree.inTree_iff (h : Tree v P) : InTree v junk d ↔ d ∈ P.dirs := by
  constructor
  · intro hreach
    induction hreach with
    | refl => exact h.forest.root_mem
    | tail _ hd ih =>
      rw [h.subdirs_eq ih] at hd
      exact h.forest.kid_mem ih hd
  · intro hd
    have hreach := h.forest.reach_of_mem hd
    clear hd
    induction hreach with
    | refl => exact .refl
    | tail hp hd ih =>
      refine ih.tail ?_
      rw [h.subdirs_eq (h.forest.mem_of_reach hp)]
      exact hd

theorem Tree.few (h : Tree v P) (hfew : FewDirs v junk) : P.dirs.length < fatFsckMaxDirs := by
  obtain ⟨dirs, hlt, hall⟩ := hfew
  exact Nat.lt_of_le_of_lt (h.forest.nodup.subperm fun d hd => hall d (h.inTree_iff.mpr hd)).length_le hlt

structure Agreed (s : Sys) : Prop where
  check : ∀ junk r m, FewDirs s.vol junk → m.bm ≠ none → m.queue ≠ none →
    FsckReturns s.vol junk r m (0, { r with clustersTotal := BitVec.ofNat 32 s.vol.info.clusterCount })
  cwd : ∀ junk, InTree s.vol junk s.cwd.cur.toNat ∧
    (s.cwd.cur.toNat = rootDirClusterValue s.vol ∨ s.vol.fat s.cwd.cur.toNat ≠ 0)

theorem Clean.agreed (h : Clean s) : Agreed s := by
  obtain ⟨P, ⟨htree, hcwd⟩, hlost⟩ := h
  refine ⟨fun junk r m hfew hbm hqueue => ?_, fun junk => ?_⟩
  · obtain ⟨bm, hbm⟩ := Option.ne_none_iff_exists'.mp hbm
    obtain ⟨queue, hqueue⟩ := Option.ne_none_iff_exists'.mp hqueue
    obtain ⟨_, _⟩ := m
    dsimp only at hbm hqueue
    rw [hbm, hqueue]
    exact ⟨P.dirs.length + 1, fatFsck_clean htree hlost (Nat.le_of_lt (htree.few hfew)) (Nat.lt_succ_self _)⟩
  · have hmem : s.cwd.cur.toNat ∈ P.dirs := hcwd.climbs.mem htree
    refine ⟨htree.inTree_iff.mpr hmem, ?_⟩
    rcases htree.dir_cases hmem with ⟨hzero, hk⟩ | hkept
    · refine Or.inl ?_
      rw [hzero, rootDirClusterValue, if_neg hk]
    · have hheads := @Tree.mem_heads s.vol P _ hkept
      exact Or.inr (table_ne_none_iff.mp (htree.owned.mem_taken hheads (htree.owned.head_mem hheads))).2

/-- Formatting and any calls that meet the condition keep the agreement. -/
theorem fsck_agrees (disk : Disk) (cap part : U32) (k : Kind) (s : Sys) (calls : List Call)
    (hformat : fatFormat disk cap part k = some s)
    (hgood : Along (fun s call => Orderly s call ∧ Frugal s call) s calls) : Agreed (runCalls s calls) :=
  (clean_run (fatFormat_clean hformat) hgood).agreed

def blankDisk : Disk := fun _ => zeros

def stillFrame : Frame where
  path _ _ _ := 0
  leaf _ := 0
  probes _ _ := 0
  inside _ := 0
  clock _ := (0, 0)

theorem small_isSome : (fatFormat blankDisk 400 1 .fat12).isSome = true := by
  decide

def smallSys : Sys := (fatFormat blankDisk 400 1 .fat12).get small_isSome

theorem small_format : fatFormat blankDisk 400 1 .fat12 = some smallSys := (Option.some_get small_isSome).symm

theorem small_computes : newLeaf smallSys stillFrame [0x41] = some (0, [0x41]) ∧
    ¬ SkipsEnd smallSys.vol 0 (slotsFor [0x41]) ∧
      (prepareNames (probe smallSys.vol stillFrame 0) [0x41]).map Prod.snd = some 0 ∧
        (dirents smallSys.vol stillFrame.leaf 0).1.length = 0 :=
  ⟨by decide, by decide, by decide, by decide⟩

theorem small_newLeaf : newLeaf smallSys stillFrame [0x41] = some (0, [0x41]) := small_computes.1

theorem small_prepares : (prepareNames (probe smallSys.vol stillFrame 0) [0x41]).map Prod.snd = some 0 :=
  small_computes.2.2.1

theorem small_placeOk : PlaceOk smallSys stillFrame [0x41] := by
  intro dir leaf hleaf
  rw [small_newLeaf] at hleaf
  obtain ⟨rfl, rfl⟩ := Prod.mk.inj (Option.some.inj hleaf)
  exact ⟨by decide, small_computes.2.1⟩

theorem small_aliasLeft : AliasLeft smallSys stillFrame [0x41] := by
  intro dir leaf hleaf hnone
  rw [small_newLeaf] at hleaf
  obtain ⟨rfl, rfl⟩ := Prod.mk.inj (Option.some.inj hleaf)
  have hsn := small_prepares
  rw [hnone] at hsn
  contradiction

theorem fsck_agrees_small :
    Agreed (runCalls smallSys [.mkdir stillFrame [0x41], .changeDir stillFrame [0x41]]) :=
  fsck_agrees blankDisk 400 1 .fat12 smallSys _ small_format
    ⟨⟨small_placeOk, small_aliasLeft⟩, ⟨trivial, trivial⟩, trivial⟩

def dottedSys : Sys := runCalls smallSys [.createFile stillFrame [0x2E] zeros 1]

theorem dotted_computes : subdirs dottedSys.vol (fun _ _ => 0) 0 = [] ∧ rootDirClusterValue dottedSys.vol = 0 ∧
    (fatFsck dottedSys.vol (fun _ _ => 0) noReport
      { bm := some zeros, queue := some fun _ => 0 } 2).map (fun ret => ret.2.orphan) = some 1 := by
  decide +kernel

theorem dotted_few : FewDirs dottedSys.vol fun _ _ => 0 := by
  refine ⟨[0], by decide, fun d hd => List.mem_singleton.mpr ?_⟩
  obtain ⟨hsubdirs, hroot, -⟩ := dotted_computes
  unfold InTree at hd
  rw [hroot] at hd
  induction hd with
  | refl => rfl
  | tail _ hd ih =>
    rw [ih, hsubdirs] at hd
    exact absurd hd List.not_mem_nil

/-- The checker skips the entry, and its cluster is an orphan. -/
theorem dotted_disagrees : fatFormat blankDisk 400 1 .fat12 = some smallSys ∧ ¬ Agreed dottedSys := by
  refine ⟨small_format, fun h => ?_⟩
  have hclean := h.check (fun _ _ => 0) noReport { bm := some zeros, queue := some fun _ => 0 } dotted_few
    (Option.some_ne_none _) (Option.some_ne_none _)
  obtain ⟨ret, hret, horphan⟩ := Option.map_eq_some_iff.mp dotted_computes.2.2
  rw [← FsckReturns.unique hclean ⟨2, hret⟩] at horphan
  exact absurd horphan (by decide)

end Ezos.Fat
