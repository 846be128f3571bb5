import Ezos.Fat.Fsck
import Ezos.Fat.TreeRuns

/-!
# What `fat_fsck` finds on a tree

Every chain is marked once, from its entry, and the marks are then the entries of the FAT that are in use. Nothing
is reported.
-/

namespace Ezos.Fat

open Lib.Memory Lib.Chains Lib.Forests Lib.ByteBitmap Exfat

set_option autoImplicit false

variable {v : Vol} {P : Plan} {d c r need steps left : Nat} {x y : FsckCtx} {cs S served : List Nat} {bm : Mem}
  {de : Dirent} {des : List Dirent} {q : Block × Nat × Entry} {qs : List (Block × Nat × Entry)} {junk : Nat → Junk}

def Marks (v : Vol) (bm : Mem) (S : List Nat) : Prop := ∀ c, Within v c → (getBit bm (c - 2) = true ↔ c ∈ S)

theorem Marks.perm {S' : List Nat} (h : Marks v bm S) (hp : S.Perm S') : Marks v bm S' :=
  fun c hw => (h c hw).trans hp.mem_iff

theorem Marks.set (h : Marks v bm S) (hw : Within v c) : Marks v (setBit bm (c - 2)) (S ++ [c]) := by
  intro d hd
  have h2 := hw.1
  have hd2 := hd.1
  rw [getBit_setBit, List.mem_append, List.mem_singleton, Bool.or_eq_true, decide_eq_true_eq, h d hd, or_comm]
  have heq : d - 2 = c - 2 ↔ d = c := by omega
  rw [heq]

structure Marked (v : Vol) (x y : FsckCtx) (S : List Nat) : Prop where
  report : y.report = x.report
  marks : Marks v y.bm S

theorem fsckChain_clean (hs : Sized v) (hc : Chain v c cs) (hnd : cs.Nodup) (hm : Marks v x.bm S)
    (hout : ∀ d ∈ cs, d ∉ S) (hneed : need ≤ steps + cs.length) (hleft : cs.length ≤ left) :
    Marked v x (fsckChain v x c need steps left) (S ++ cs) := by
  induction cs generalizing c x S steps left with
  | nil => cases hc
  | cons a cs ih =>
    obtain rfl : a = c := by
      obtain ⟨tail, heq⟩ := hc.eq_cons
      exact (List.cons.inj heq).1
    obtain ⟨n, rfl⟩ : ∃ n, left = n + 1 := ⟨left - 1, by rw [List.length_cons] at hleft; omega⟩
    have hw := hc.within
    obtain ⟨ha, hnd'⟩ := List.nodup_cons.mp hnd
    have hclear : getBit x.bm (a - 2) = false := by
      rw [← Bool.not_eq_true, hm a hw]
      exact hout a List.mem_cons_self
    have hmark : markCluster x a = { x with bm := setBit x.bm (a - 2) } := by
      unfold markCluster
      rw [hclear, if_neg Bool.false_ne_true]
    unfold fsckChain
    rw [if_neg hw.not_out]
    dsimp only
    rw [hmark, fatEntryGet_within hw]
    have hset := hm.set hw
    cases hc with
    | last _ heoc =>
      rw [if_pos heoc]
      have hlong : ¬ (need ≠ 0 ∧ steps + 1 < need) := by
        rw [List.length_singleton] at hneed
        omega
      unfold countTruncated
      rw [if_neg hlong]
      exact ⟨rfl, hset⟩
    | @link _ d' _ _ hd htail =>
      have hdw := htail.within
      rw [hd, hdw.not_eoc hs, hdw.not_bad hs, if_neg Bool.false_ne_true, if_neg Bool.false_ne_true, if_neg hdw.not_out]
      have hout' : ∀ e ∈ cs, e ∉ S ++ [a] := by
        intro e he hmem
        rcases List.mem_append.mp hmem with hmem | hmem
        · exact hout e (List.mem_cons_of_mem a he) hmem
        · rw [List.mem_singleton.mp hmem] at he
          exact ha he
      rw [List.length_cons] at hneed hleft
      have hrest : Marked v { x with bm := setBit x.bm (a - 2) } (fsckChain v _ d' need (steps + 1) n) (S ++ [a] ++ cs) :=
        ih htail hnd' hset hout' (by omega) (by omega)
      refine ⟨hrest.report, ?_⟩
      have hmarks := hrest.marks
      rwa [List.append_assoc] at hmarks

theorem fatFsckChain_clean (h : Tree v P) (hr : r ∈ P.kept v) (hm : Marks v x.bm S) (hout : ∀ d ∈ P.chain r, d ∉ S)
    (hneed : need ≤ (P.chain r).length) : Marked v x (fatFsckChain v x r need) (S ++ P.chain r) := by
  have hheads := @Tree.mem_heads v P r hr
  unfold fatFsckChain
  rw [if_neg (Nat.not_lt.mpr (h.within hr).1)]
  exact fsckChain_clean h.formed.sized (h.owned.chain_of hheads) (h.owned.chain_nodup hheads) hm hout
    (by rw [Nat.zero_add]; exact hneed) (h.owned.length_le hheads)

def chainsOf (P : Plan) (es : List Entry) : List Nat :=
  (refsOf (es.filter fun e => !e.isDots)).flatMap P.chain

theorem chainsOf_cons_dots {e : Entry} {es : List Entry} (he : e.isDots = true) : chainsOf P (e :: es) = chainsOf P es := by
  unfold chainsOf
  rw [List.filter_cons_of_neg (by rw [he]; exact Bool.false_ne_true)]

theorem chainsOf_cons {e : Entry} {es : List Entry} (he : e.isDots = false) :
    chainsOf P (e :: es) = e.own.flatMap P.chain ++ chainsOf P es := by
  unfold chainsOf
  rw [List.filter_cons_of_pos (by rw [he]; rfl), refsOf_cons, List.flatMap_append]
  rfl

theorem fsckNeed_le (h : q.2.2.Sound v P.chain) (hshow : Shows q de) (h2 : 2 ≤ q.2.2.short.first) :
    fsckNeed v de ≤ (P.chain q.2.2.short.first).length := by
  unfold fsckNeed
  split
  · rename_i hfile
    rw [hshow.isDir] at hfile
    rw [hshow.size]
    exact h.need hfile.1 h2
  · exact Nat.zero_le _

theorem direntCb_bm (hname : isDotName de.name = false) :
    (fatFsckDirentCb v x de).1.report = (fatFsckChain v x de.firstCluster (fsckNeed v de)).report ∧
      (fatFsckDirentCb v x de).1.bm = (fatFsckChain v x de.firstCluster (fsckNeed v de)).bm := by
  unfold fatFsckDirentCb
  rw [if_neg (by rw [hname]; exact Bool.false_ne_true)]
  dsimp only
  split
  · split <;> exact ⟨rfl, rfl⟩
  · exact ⟨rfl, rfl⟩

theorem direntCb_clean (h : Tree v P) (hd : d ∈ P.dirs) (hshow : Shows q de) (hq : q.2.2 ∈ entriesOf (P.views d))
    (hm : Marks v x.bm S) (hnd : (S ++ chainsOf P [q.2.2]).Nodup) :
    Marked v x (fatFsckDirentCb v x de).1 (S ++ chainsOf P [q.2.2]) := by
  cases hdots : q.2.2.isDots with
  | true =>
    have hname := isDots_shown hdots hshow.name
    rw [chainsOf_cons_dots hdots]
    unfold fatFsckDirentCb
    rw [if_pos hname]
    refine ⟨rfl, ?_⟩
    have hnil : S ++ chainsOf P [] = S := List.append_nil S
    rw [hnil]
    exact hm
  | false =>
    have hreal : q.2.2 ∈ P.reals d := mem_realsOf.mpr ⟨hq, hdots⟩
    have hsound := h.sound d hd q.2.2 hreal
    have hname := hsound.proper de.name hshow.name
    obtain ⟨hreport, hbm⟩ := @direntCb_bm v x de hname
    have hnil : chainsOf P [] = [] := rfl
    rw [chainsOf_cons hdots, hnil, List.append_nil] at hnd ⊢
    rw [hshow.firstCluster] at hreport hbm
    unfold Entry.own at hnd ⊢
    by_cases h2 : 2 ≤ q.2.2.short.first
    · rw [if_pos h2, List.flatMap_singleton] at hnd ⊢
      have hkept : q.2.2.short.first ∈ P.kept v := Tree.ref_kept hd (mem_refsOf.mpr ⟨⟨_, hreal, rfl⟩, h2⟩)
      have hout : ∀ c ∈ P.chain q.2.2.short.first, c ∉ S :=
        fun c hc hcs => (List.nodup_append.mp hnd).2.2 c hcs c hc rfl
      have hchain := fatFsckChain_clean h hkept hm hout (fsckNeed_le hsound hshow h2)
      refine ⟨hreport.trans hchain.report, ?_⟩
      rw [hbm]
      exact hchain.marks
    · rw [if_neg h2, List.flatMap_nil, List.append_nil] at hnd ⊢
      have hskip : fatFsckChain v x q.2.2.short.first (fsckNeed v de) = x := if_pos (Nat.lt_of_not_le h2)
      rw [hskip] at hreport hbm
      refine ⟨hreport, ?_⟩
      rw [hbm]
      exact hm

theorem chainsOf_append {es es' : List Entry} : chainsOf P (es ++ es') = chainsOf P es ++ chainsOf P es' := by
  unfold chainsOf refsOf
  rw [List.filter_append, List.map_append, List.filter_append, List.flatMap_append]

theorem untilStop_clean (h : Tree v P) (hd : d ∈ P.dirs) (hall : List.Forall₂ Shows qs des)
    (hqs : ∀ q ∈ qs, q.2.2 ∈ entriesOf (P.views d)) (hm : Marks v x.bm S)
    (hnd : (S ++ chainsOf P (qs.map fun q => q.2.2)).Nodup) (hrun : untilStop (fatFsckDirentCb v) x des = (y, false)) :
    Marked v x y (S ++ chainsOf P (qs.map fun q => q.2.2)) := by
  induction hall generalizing x S with
  | nil =>
    obtain ⟨rfl, -⟩ := Prod.mk.inj hrun
    refine ⟨rfl, ?_⟩
    have hnil : S ++ chainsOf P (([] : List (Block × Nat × Entry)).map fun q => q.2.2) = S := List.append_nil S
    rw [hnil]
    exact hm
  | @cons q de qs des hshow _ ih =>
    have hsplit : chainsOf P ((q :: qs).map fun q => q.2.2) = chainsOf P [q.2.2] ++ chainsOf P (qs.map fun q => q.2.2) :=
      @chainsOf_append _ [q.2.2] _
    rw [hsplit, ← List.append_assoc] at hnd ⊢
    have hone := direntCb_clean h hd hshow (hqs q List.mem_cons_self) hm (List.nodup_append.mp hnd).1
    unfold untilStop at hrun
    rcases hcb : fatFsckDirentCb v x de with ⟨z, _ | _⟩
    · rw [hcb] at hrun hone
      have hrest := ih (fun q hq => hqs q (List.mem_cons_of_mem _ hq)) hone.marks hnd hrun
      exact ⟨hrest.report.trans hone.report, hrest.marks⟩
    · rw [hcb] at hrun
      obtain ⟨-, hno⟩ := Prod.mk.inj hrun
      contradiction

theorem isSub_shown (h : Tree v P) (hd : d ∈ P.dirs) (hshow : Shows q de) (hq : q.2.2 ∈ entriesOf (P.views d)) :
    isSub de = (!q.2.2.isDots && q.2.2.short.isDir) := by
  unfold isSub
  cases hdots : q.2.2.isDots with
  | true =>
    rw [isDots_shown hdots hshow.name]
    rfl
  | false =>
    have hsound := h.sound d hd q.2.2 (mem_realsOf.mpr ⟨hq, hdots⟩)
    rw [hsound.proper de.name hshow.name, hshow.isDir, hshow.firstCluster]
    cases hdir : q.2.2.short.isDir with
    | true =>
      rw [decide_eq_true (hsound.dir hdir)]
      rfl
    | false => rfl

theorem subClusters_shown (h : Tree v P) (hd : d ∈ P.dirs) (hall : List.Forall₂ Shows qs des)
    (hqs : ∀ q ∈ qs, q.2.2 ∈ entriesOf (P.views d)) :
    subClusters des = kidsOf ((qs.map fun q => q.2.2).filter fun e => !e.isDots) := by
  unfold subClusters kidsOf
  rw [List.filter_filter]
  induction hall with
  | nil => rfl
  | @cons q de qs des hshow _ ih =>
    have hrest := ih fun q hq => hqs q (List.mem_cons_of_mem _ hq)
    rw [List.map_cons, List.filter_cons, List.filter_cons, isSub_shown h hd hshow (hqs q List.mem_cons_self),
      Bool.and_comm]
    split
    · rw [List.map_cons, List.map_cons, hrest, hshow.firstCluster]
    · exact hrest

theorem Tree.subdirs_eq (h : Tree v P) (hd : d ∈ P.dirs) : subdirs v junk d = P.kids d := by
  obtain ⟨des, hall, hrun⟩ := h.dirents_shown hd (junk d)
  unfold subdirs
  rw [hrun, subClusters_shown h hd hall fun q hq => by rw [← map_placed]; exact List.mem_map_of_mem hq, map_placed]
  rfl

theorem Tree.fsckKids_eq (h : Tree v P) (hd : d ∈ P.dirs) : fsckKids v junk d = P.kids d := by
  obtain ⟨des, -, hrun⟩ := h.dirents_shown hd (junk d)
  unfold fsckKids
  rw [hrun, if_neg Bool.false_ne_true]
  exact h.subdirs_eq hd

def Plan.shared (P : Plan) (v : Vol) (served : List Nat) : List Nat :=
  (rootRefs v ++ served.flatMap P.refs).flatMap P.chain

theorem Plan.shared_snoc : P.shared v (served ++ [d]) = P.shared v served ++ (P.refs d).flatMap P.chain := by
  unfold Plan.shared
  rw [@List.flatMap_append _ _ served [d] P.refs, List.flatMap_singleton, ← List.append_assoc, List.flatMap_append]

theorem Tree.shared_nodup (h : Tree v P) (hnd : served.Nodup) (hsub : served ⊆ P.dirs) : (P.shared v served).Nodup := by
  obtain ⟨l, hl, hlm⟩ := hnd.subperm hsub
  have hkept : (P.shared v l).Sublist ((P.kept v).flatMap P.chain) :=
    ((List.Sublist.refl (rootRefs v)).append (hlm.flatMap P.refs)).flatMap P.chain
  have hall : ((P.kept v).flatMap P.chain).Nodup := by
    have hown := h.owned.nodup
    rw [List.flatMap_append] at hown
    exact (List.nodup_append.mp hown).2.1
  have hperm : (P.shared v l).Perm (P.shared v served) :=
    List.Perm.flatMap_right P.chain ((hl.flatMap_right P.refs).append_left _)
  exact hperm.nodup_iff.mp (hall.sublist hkept)

structure Midway (v : Vol) (P : Plan) (x y : FsckCtx) (served : List Nat) : Prop where
  serving : Serving y
  nodup : served.Nodup
  sub : served ⊆ P.dirs
  perm : (served ++ y.waiting).Perm (rootDirClusterValue v :: served.flatMap P.kids)
  marked : Marked v x y (P.shared v served)

theorem Midway.step (h : Tree v P) (hfew : P.dirs.length ≤ fatFsckMaxDirs) (hm : Midway v P x y served)
    (hlt : y.head < y.tail) (hd : y.queue (y.head % fatFsckMaxDirs) = d) :
    ∃ z, fatDirForeach v (junk d) d (fatFsckDirentCb v) { y with head := y.head + 1 } = (z, true) ∧
      z.overflow = false ∧ Midway v P x z (served ++ [d]) := by
  have hcons : y.waiting = d :: FsckCtx.waiting { y with head := y.head + 1 } := by
    rw [← hd]
    exact Lib.Ring.contents_eq_cons hlt
  have hperm := hm.perm
  rw [hcons] at hperm
  obtain ⟨hsubperm, hdistinct⟩ := h.forest.frontier hm.nodup hm.sub hperm
  have hdirs : d ∈ P.dirs := hsubperm.subset (List.mem_append_right _ List.mem_cons_self)
  have hnew : d ∉ served := fun hmem => (List.nodup_append.mp hdistinct).2.2 d hmem d List.mem_cons_self rfl
  have hnd : (served ++ [d]).Nodup := by
    rw [← List.concat_eq_append]
    exact hm.nodup.concat hnew
  have hsub : served ++ [d] ⊆ P.dirs :=
    List.append_subset.mpr ⟨hm.sub, List.cons_subset.mpr ⟨hdirs, List.nil_subset _⟩⟩
  have hserve : Serving { y with head := y.head + 1 } :=
    ⟨hlt, Nat.le_trans (Nat.sub_le_sub_left (Nat.le_succ _) _) hm.serving.room, hm.serving.overflow⟩
  generalize hy : ({ y with head := y.head + 1 } : FsckCtx) = y' at hcons hperm hserve
  have hmarked : Marked v x y' (P.shared v served) := by
    rw [← hy]
    exact ⟨hm.marked.report, hm.marked.marks⟩
  have hnext : (served ++ [d] ++ (y'.waiting ++ P.kids d)).Perm
      (rootDirClusterValue v :: (served ++ [d]).flatMap P.kids) := by
    have hkids := hperm.append_right (P.kids d)
    rw [List.flatMap_append, List.flatMap_singleton]
    simpa only [List.append_assoc, List.cons_append, List.nil_append] using hkids
  have hroom : y'.waiting.length + (P.kids d).length ≤ fatFsckMaxDirs := by
    have hle := (h.forest.frontier hnd hsub hnext).1.length_le
    rw [List.length_append, @List.length_append _ y'.waiting] at hle
    omega
  rcases @fatDirForeach_cases v junk y' d hserve with ⟨-, z, hz, hserving, hwait⟩ | ⟨hover, -⟩
  · refine ⟨z, hz, hserving.overflow, hserving, hnd, hsub, ?_, ?_⟩
    · rw [hwait, h.fsckKids_eq hdirs]
      exact hnext
    · obtain ⟨des, hall, hrun⟩ := h.dirents_shown hdirs (junk d)
      unfold fatDirForeach at hz
      rw [hrun] at hz
      dsimp only at hz
      have hstop : untilStop (fatFsckDirentCb v) y' des = (z, false) := by
        rcases hu : untilStop (fatFsckDirentCb v) y' des with ⟨u, _ | _⟩
        · rw [hu] at hz
          rw [(Prod.mk.inj hz).1]
        · -- a full queue would have been seen
          have hcases := @untilStop_entries v y' des hserve
          rw [subClusters_shown h hdirs hall fun q hq => by rw [← map_placed]; exact List.mem_map_of_mem hq,
            map_placed] at hcases
          rcases hcases with ⟨-, w, hw, -⟩ | ⟨hno, -⟩
          · rw [hu] at hw
            exact absurd (Prod.mk.inj hw).2 (Ne.symm Bool.false_ne_true)
          · exact absurd hroom (Nat.not_le.mpr hno)
      have hafter := h.shared_nodup hnd hsub
      rw [Plan.shared_snoc] at hafter ⊢
      have hclean := untilStop_clean h hdirs hall
        (fun q hq => by rw [← map_placed]; exact List.mem_map_of_mem hq) hmarked.marks
        (by rw [map_placed]; exact hafter) hstop
      rw [map_placed] at hclean
      exact ⟨hclean.report.trans hmarked.report, hclean.marks⟩
  · rw [h.fsckKids_eq hdirs] at hover
    exact absurd hroom (Nat.not_le.mpr hover)

theorem fsckBfs_clean (h : Tree v P) (hfew : P.dirs.length ≤ fatFsckMaxDirs) (hm : Midway v P x y served) {fuel : Nat}
    (hfuel : P.dirs.length < fuel + served.length) :
    ∃ z, fsckBfs v junk y fuel = some (z, true) ∧ Marked v x z ((P.kept v).flatMap P.chain) := by
  induction fuel generalizing y served with
  | zero =>
    have hle := (hm.nodup.subperm hm.sub).length_le
    omega
  | succ fuel ih =>
    by_cases hlt : y.head < y.tail
    · obtain ⟨z, hrun, hover, hnext⟩ := hm.step h hfew hlt rfl
      rw [fsckBfs_succ hlt rfl hrun, if_neg (by rw [hover]; simp)]
      exact ih hnext (by rw [List.length_append, List.length_singleton]; omega)
    · have hnil : y.waiting = [] := Lib.Ring.contents_eq_nil (Nat.le_of_not_lt hlt)
      have hperm := hm.perm
      rw [hnil, List.append_nil] at hperm
      have hall := h.forest.done hm.nodup hm.sub hperm
      rw [fsckBfs, if_neg hlt]
      refine ⟨y, rfl, hm.marked.report, hm.marked.marks.perm ?_⟩
      exact List.Perm.flatMap_right P.chain ((hall.flatMap_right P.refs).append_left _)

theorem fsckStart_midway (h : Tree v P) {r : FsckReport} {bm : Mem} {queue : Nat → Nat} :
    Midway v P { report := r, bm := fill bm 0 (bmBytes v) 0, queue := queue, head := 0, tail := 0, overflow := false }
      (fsckStart v r bm queue) [] := by
  obtain ⟨hserving, hwait⟩ := @fsckStart_serving v r bm queue
  refine ⟨hserving, List.nodup_nil, List.nil_subset _, ?_, ?_⟩
  · rw [hwait]
    exact List.Perm.refl _
  · have hclear : Marks v (fill bm 0 (bmBytes v) 0) [] := by
      intro c hw
      have hbyte : fill bm 0 (bmBytes v) 0 ((c - 2) / 8) = 0 := by
        refine if_pos ⟨Nat.zero_le _, ?_⟩
        have h2 := hw.1
        have hlim := hw.2
        unfold Vol.limit at hlim
        unfold bmBytes
        omega
      unfold getBit
      rw [hbyte]
      simp
    have hnil : P.shared v [] = (rootRefs v).flatMap P.chain := by
      unfold Plan.shared
      rw [List.flatMap_nil, List.append_nil]
    rw [hnil]
    unfold fsckStart rootRefs
    dsimp only
    by_cases hk : v.kind = .fat32
    · have hkept : v.info.rootCluster ∈ P.kept v := by
        refine List.mem_append_left _ ?_
        rw [rootRefs, if_pos hk]
        exact List.mem_singleton_self _
      have hroot : rootDirClusterValue v = v.info.rootCluster := if_pos hk
      rw [if_pos hk, hroot, if_pos (h.within hkept).1, List.flatMap_singleton]
      have hchain := @fatFsckChain_clean v P v.info.rootCluster 0
        { report := r, bm := fill bm 0 (bmBytes v) 0, queue := queue, head := 0, tail := 0, overflow := false } []
        h hkept hclear (fun _ _ => List.not_mem_nil) (Nat.zero_le _)
      exact ⟨hchain.report, hchain.marks⟩
    · have hroot : rootDirClusterValue v = 0 := if_neg hk
      rw [if_neg hk, hroot, if_neg (by decide)]
      exact ⟨rfl, hclear⟩

theorem fsckCompare_clean {r : FsckReport} {n : Nat} (h2 : 2 ≤ c) (hlim : c + n ≤ v.limit)
    (hm : ∀ d, Within v d → (getBit bm (d - 2) = true ↔ v.fat d ≠ 0)) : fsckCompare v bm r c n = r := by
  induction n generalizing c with
  | zero => rfl
  | succ n ih =>
    have hw : Within v c := ⟨h2, by omega⟩
    unfold fsckCompare
    dsimp only
    rw [fatEntryGet_within hw]
    have hbit : getBit bm (c - 2) = decide (v.fat c ≠ 0) := Bool.eq_iff_iff.mpr ((hm c hw).trans decide_eq_true_iff.symm)
    rw [hbit]
    have hrest := @ih (c + 1) (Nat.le_succ_of_le h2) (by omega)
    cases decide (v.fat c ≠ 0) <;> exact hrest

theorem fatFsck_clean (h : Tree v P) (hlost : P.lost = []) (hfew : P.dirs.length ≤ fatFsckMaxDirs) {r : FsckReport}
    {bm : Mem} {queue : Nat → Nat} {fuel : Nat} (hfuel : P.dirs.length < fuel) :
    fatFsck v junk r { bm := some bm, queue := some queue } fuel =
      some (0, { r with clustersTotal := BitVec.ofNat 32 v.info.clusterCount }) := by
  unfold fatFsck
  dsimp only
  rw [if_neg h.formed.count]
  obtain ⟨z, hrun, hmarked⟩ := fsckBfs_clean h hfew (@fsckStart_midway v P h _ bm queue) hfuel
  rw [hrun]
  dsimp only
  have hreport : z.report = { r with clustersTotal := BitVec.ofNat 32 v.info.clusterCount } := hmarked.report
  rw [fsckCompare_clean (Nat.le_refl 2) (by unfold Vol.limit; omega) fun c hw => ?_, hreport]
  have htaken := h.owned.taken c
  rw [hlost, List.nil_append] at htaken
  rw [hmarked.marks c hw, htaken, table_ne_none_iff]
  exact and_iff_right hw

end Ezos.Fat
