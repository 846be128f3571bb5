import Ezos.Fat.Tree

/-!
# The tree before and after an edit

What one directory holds is replaced, by an entry more or an entry less. The chains and the blocks of the other
directories stay as they are.
-/

namespace Ezos.Fat

open Lib.Memory Lib.Chains Lib.Forests

set_option autoImplicit false

variable {v v' : Vol} {P : Plan} {d d' p c r q : Nat} {e : Entry} {ws ws' : List View} {w : View} {b : Block} {blk : Mem}
  {chain chain' : Nat → List Nat} {lost : List Nat}

structure SameForm (v v' : Vol) : Prop where
  kind : v'.kind = v.kind
  info : v'.info = v.info
  unreadable : v'.unreadable = v.unreadable

theorem SameForm.refl (v : Vol) : SameForm v v := ⟨rfl, rfl, rfl⟩

theorem SameForm.trans {v'' : Vol} (h : SameForm v v') (h' : SameForm v' v'') : SameForm v v'' :=
  ⟨h'.kind.trans h.kind, h'.info.trans h.info, h'.unreadable.trans h.unreadable⟩

theorem sameForm_write : SameForm v (fatWriteBlock v b blk) := ⟨kind_write, info_write, unreadable_write⟩

namespace SameForm

theorem limit (h : SameForm v v') : v'.limit = v.limit := by rw [Vol.limit, Vol.limit, h.info]

theorem clusterSize (h : SameForm v v') : v'.clusterSize = v.clusterSize := by
  rw [Vol.clusterSize, Vol.clusterSize, h.info]

theorem sized (h : SameForm v v') (hs : Sized v) : Sized v' := by
  unfold Sized
  rw [h.limit, h.kind]
  exact hs

theorem formed (h : SameForm v v') (hf : Formed v) : Formed v' := by
  refine ⟨h.sized hf.sized, ?_, ?_, ?_, ?_, ?_⟩
  · rw [h.unreadable]
    exact hf.readable
  · rw [h.info]
    exact hf.sector
  · rw [h.info]
    exact hf.cluster
  · rw [h.info, h.kind]
    exact hf.area
  · rw [h.info]
    exact hf.count

theorem root (h : SameForm v v') : rootDirClusterValue v' = rootDirClusterValue v := by
  unfold rootDirClusterValue
  rw [h.kind, h.info]

theorem kept (h : SameForm v v') : P.kept v' = P.kept v := by
  unfold Plan.kept rootRefs
  rw [h.kind, h.info]

theorem blocksOf (h : SameForm v v') : blocksOf v' chain d = Fat.blocksOf v chain d := by
  unfold Fat.blocksOf
  rw [h.kind, h.info]

theorem dataClusters (h : SameForm v v') (size : Nat) : dataClusters v' size = Fat.dataClusters v size := by
  unfold Fat.dataClusters
  rw [h.clusterSize]

theorem sound (h : SameForm v v') (hchain : 2 ≤ e.short.first → chain' e.short.first = chain e.short.first)
    (he : e.Sound v chain) : e.Sound v' chain' := by
  refine ⟨he.proper, he.dir, fun hfile h2 => ?_⟩
  rw [h.dataClusters, hchain h2]
  exact he.need hfile h2

end SameForm

theorem View.Of.transport (h : w.Of v) (hs : SameForm v v') (hb : blockAt v' w.block = blockAt v w.block) :
    w.Of v' := by
  refine ⟨?_, ?_, h.ok⟩
  · rw [hb, hs.kind]
    exact h.reads
  · rw [slotsOf_congr hs.info]
    exact h.length

theorem Laid.transport (h : Laid v chain d ws) (hs : SameForm v v') (hchain : chain' d = chain d)
    (hb : ∀ b ∈ blocksOf v chain d, blockAt v' b = blockAt v b) : Laid v' chain' d ws := by
  refine ⟨?_, fun w hw => (h.views w hw).transport hs (hb w.block ?_), h.tidy⟩
  · rw [hs.blocksOf, h.blocks]
    unfold blocksOf
    rw [hchain]
  · rw [← h.blocks]
    exact List.mem_map_of_mem hw

namespace Tree

theorem lost_not_dir (h : Tree v P) (hr : r ∈ P.lost) (hd : d ∈ P.dirs) : r ≠ d := by
  rintro rfl
  rcases h.dir_cases hd with hzero | hkept
  · have h2 := (h.owned.within (List.mem_append_left _ hr)).1
    omega
  · exact (List.nodup_append.mp h.owned.heads_nodup).2.2 r hr r hkept rfl

theorem block_outside (h : Tree v P) (hd : d ∈ P.dirs) (hr : r ∈ P.lost ++ P.kept v) (hne : r ≠ d)
    (hc : c ∈ P.chain r) : Block.cluster c ∉ blocksOf v P.chain d := by
  unfold blocksOf
  rcases h.dir_cases hd with hzero | hkept
  · rw [if_pos hzero]
    simp only [List.mem_map, reduceCtorEq, and_false, exists_false, not_false_eq_true]
  · rw [if_neg (h.not_area hkept)]
    intro hmem
    obtain ⟨x, hx, heq⟩ := List.mem_map.mp hmem
    obtain rfl : x = c := Block.cluster.inj heq
    exact hne (h.owned.eq_of_mem hr (mem_heads hkept) hc hx)

theorem block_free (h : Tree v P) (hd : d ∈ P.dirs) (hfree : v.fat c = 0) :
    Block.cluster c ∉ blocksOf v P.chain d := by
  unfold blocksOf
  rcases h.dir_cases hd with hzero | hkept
  · rw [if_pos hzero]
    simp only [List.mem_map, reduceCtorEq, and_false, exists_false, not_false_eq_true]
  · rw [if_neg (h.not_area hkept)]
    intro hmem
    obtain ⟨x, hx, heq⟩ := List.mem_map.mp hmem
    obtain rfl : x = c := Block.cluster.inj heq
    exact h.owned.not_mem_of_free (table_free hfree) (mem_heads hkept) hx

theorem blocks_apart (h : Tree v P) (hd : d ∈ P.dirs) (hd' : d' ∈ P.dirs) (hne : d ≠ d')
    (hb : b ∈ blocksOf v P.chain d) : b ∉ blocksOf v P.chain d' := by
  rcases h.dir_cases hd with hzero | hkept
  · rcases h.dir_cases hd' with hzero' | hkept'
    · exact absurd (hzero.1.trans hzero'.1.symm) hne
    · rw [blocksOf, if_pos hzero] at hb
      rw [blocksOf, if_neg (h.not_area hkept')]
      obtain ⟨i, -, rfl⟩ := List.mem_map.mp hb
      simp only [List.mem_map, reduceCtorEq, and_false, exists_false, not_false_eq_true]
  · rw [blocksOf, if_neg (h.not_area hkept)] at hb
    obtain ⟨c, hc, rfl⟩ := List.mem_map.mp hb
    exact h.block_outside hd' (mem_heads hkept) hne hc

theorem blocks_nodup (h : Tree v P) (hd : d ∈ P.dirs) : (blocksOf v P.chain d).Nodup := by
  unfold blocksOf
  rcases h.dir_cases hd with hzero | hkept
  · rw [if_pos hzero]
    exact List.nodup_range.map fun _ _ he => Block.root.inj he
  · rw [if_neg (h.not_area hkept)]
    exact (h.owned.chain_nodup (mem_heads hkept)).map fun _ _ he => Block.cluster.inj he

theorem reown (h : Tree v P) (hs : SameForm v v') (hchain : ∀ r ∈ P.kept v, chain' r = P.chain r)
    (hb : ∀ d ∈ P.dirs, ∀ b ∈ blocksOf v P.chain d, blockAt v' b = blockAt v b)
    (hown : Owned v' chain' (lost ++ P.kept v)) : Tree v' { P with chain := chain', lost := lost } := by
  have hdir : ∀ d ∈ P.dirs, Laid v' chain' d (P.views d) := by
    intro d hd
    rcases h.dir_cases hd with hzero | hkept
    · have hlaid := h.laid d hd
      refine ⟨?_, fun w hw => (hlaid.views w hw).transport hs (hb d hd w.block ?_), hlaid.tidy⟩
      · rw [hs.blocksOf, hlaid.blocks, blocksOf, blocksOf, if_pos hzero, if_pos hzero]
      · rw [← hlaid.blocks]
        exact List.mem_map_of_mem hw
    · exact (h.laid d hd).transport hs (hchain d hkept) (hb d hd)
  refine ⟨hs.formed h.formed, ?_, hdir, ?_, fun d hd e he => ?_, ?_, h.dots⟩
  · rw [hs.kept]
    exact hown
  · rw [hs.root]
    exact h.forest
  · refine hs.sound (fun h2 => hchain _ ?_) (h.sound d hd e he)
    exact ref_kept hd (mem_refsOf.mpr ⟨⟨e, he, rfl⟩, h2⟩)
  · rw [hs.root]
    exact h.rootDots

end Tree

theorem Tidy.replace {w' : View} (h : Tidy (ws ++ w :: ws')) (hfirst : ∀ x ∈ ws, x.free = 0)
    (hle : w'.free ≤ w.free) : Tidy (ws ++ w' :: ws') := by
  unfold Tidy at h ⊢
  rw [List.pairwise_append, List.pairwise_cons] at h ⊢
  obtain ⟨hws, ⟨hw, hws'⟩, -⟩ := h
  refine ⟨hws, ⟨fun x hx hpos => hw x hx (Nat.lt_of_lt_of_le hpos hle), hws'⟩, fun x hx y _ hpos => ?_⟩
  rw [hfirst x hx] at hpos
  exact absurd hpos (Nat.lt_irrefl 0)

theorem Laid.replace {w' : View} (h : Laid v chain d (ws ++ w :: ws')) (hnd : (blocksOf v chain d).Nodup)
    (hw : w'.Of (fatWriteBlock v w.block blk)) (hblock : w'.block = w.block) (htidy : Tidy (ws ++ w' :: ws')) :
    Laid (fatWriteBlock v w.block blk) chain d (ws ++ w' :: ws') := by
  have hs : SameForm v (fatWriteBlock v w.block blk) := sameForm_write
  have hblocks := h.blocks
  rw [List.map_append, List.map_cons] at hblocks
  refine ⟨?_, fun x hx => ?_, htidy⟩
  · rw [hs.blocksOf, List.map_append, List.map_cons, hblock]
    exact hblocks
  · rw [← hblocks] at hnd
    have hout : w.block ∉ ws.map View.block ++ ws'.map View.block :=
      (List.nodup_cons.mp (List.perm_middle.nodup_iff.mp hnd)).1
    have hne : ∀ y ∈ ws ++ ws', y.block ≠ w.block := by
      intro y hy he
      rw [← List.map_append, ← he] at hout
      exact hout (List.mem_map_of_mem hy)
    have hold : ∀ y ∈ ws ++ ws', y.Of (fatWriteBlock v w.block blk) := by
      intro y hy
      refine (h.views y ?_).transport hs (blockAt_write_of_ne (hne y hy))
      rcases List.mem_append.mp hy with hy | hy
      · exact List.mem_append_left _ hy
      · exact List.mem_append_right _ (List.mem_cons_of_mem w hy)
    rcases List.mem_append.mp hx with hx | hx
    · exact hold x (List.mem_append_left _ hx)
    · rcases List.mem_cons.mp hx with rfl | hx
      · exact hw
      · exact hold x (List.mem_append_right _ hx)

theorem entriesOf_middle : (entriesOf (ws ++ w :: ws')).Perm (w.items.reduceOption ++ entriesOf (ws ++ ws')) := by
  rw [entriesOf_append, entriesOf_append, entriesOf_cons, ← List.append_assoc, ← List.append_assoc]
  exact List.perm_append_comm.append_right _

theorem entriesOf_replace {w' : View} (h : w'.items.reduceOption.Perm (e :: w.items.reduceOption)) :
    (entriesOf (ws ++ w' :: ws')).Perm (e :: entriesOf (ws ++ w :: ws')) :=
  entriesOf_middle.trans ((h.append_right _).trans (entriesOf_middle.symm.cons e))

def Entry.own (e : Entry) : List Nat := if 2 ≤ e.short.first then [e.short.first] else []

structure More (P P' : Plan) (p : Nat) (e : Entry) : Prop where
  here : p ∈ P.dirs
  entries : (entriesOf (P'.views p)).Perm (e :: entriesOf (P.views p))
  real : e.isDots = false
  others : ∀ d ∈ P.dirs, d ≠ p → P'.views d = P.views d

namespace More
variable {P' : Plan}

theorem reals (h : More P P' p e) : (P'.reals p).Perm (e :: P.reals p) := (realsOf_cons h.entries h.real).1

theorem reals_of_ne (h : More P P' p e) (hd : d ∈ P.dirs) (hne : d ≠ p) : P'.reals d = P.reals d :=
  congrArg realsOf (h.others d hd hne)

theorem dots (h : More P P' p e) (hd : d ∈ P.dirs) : (P'.dots d).Perm (P.dots d) := by
  by_cases hdp : d = p
  · subst hdp
    exact (realsOf_cons h.entries h.real).2
  · unfold Plan.dots
    rw [h.others d hd hdp]

theorem refs (h : More P P' p e) : (P'.refs p).Perm (e.own ++ P.refs p) := by
  have hp := refsOf_perm h.reals
  rwa [refsOf_cons] at hp

theorem kids (h : More P P' p e) :
    (P'.kids p).Perm ((if e.short.isDir then [e.short.first] else []) ++ P.kids p) := by
  have hp := kidsOf_perm h.reals
  rwa [kidsOf_cons] at hp

theorem refs_of_ne (h : More P P' p e) (hd : d ∈ P.dirs) (hne : d ≠ p) : P'.refs d = P.refs d :=
  congrArg refsOf (h.reals_of_ne hd hne)

theorem kids_of_ne (h : More P P' p e) (hd : d ∈ P.dirs) (hne : d ≠ p) : P'.kids d = P.kids d :=
  congrArg kidsOf (h.reals_of_ne hd hne)

theorem flatMap_refs (h : More P P' p e) (hnd : P.dirs.Nodup) :
    (P.dirs.flatMap P'.refs).Perm (e.own ++ P.dirs.flatMap P.refs) :=
  flatMap_perm_append hnd h.here h.refs fun _ hd hne => h.refs_of_ne hd hne

theorem mem_reals (h : More P P' p e) (hd : d ∈ P.dirs) {x : Entry} (hx : x ∈ P'.reals d) :
    (d = p ∧ x = e) ∨ x ∈ P.reals d := by
  by_cases hdp : d = p
  · subst hdp
    exact (List.mem_cons.mp (h.reals.mem_iff.mp hx)).imp (fun he => ⟨rfl, he⟩) id
  · rw [h.reals_of_ne hd hdp] at hx
    exact Or.inr hx

theorem heads_perm (h : More P P' p e) (hnd : P.dirs.Nodup)
    (hall : (P'.dirs.flatMap P'.refs).Perm (P.dirs.flatMap P'.refs)) (hlost : P.lost.Perm (e.own ++ P'.lost)) :
    (P.lost ++ P.kept v).Perm (P'.lost ++ P'.kept v) := by
  have hrefs := (hall.trans (h.flatMap_refs hnd)).append_left (P'.lost ++ rootRefs v)
  rw [List.append_assoc] at hrefs
  unfold Plan.kept
  refine (hlost.append_right _).trans (List.Perm.trans ?_ hrefs.symm)
  rw [← List.append_assoc, ← List.append_assoc]
  refine List.Perm.append_right _ ?_
  rw [List.append_assoc, List.append_assoc]
  exact List.perm_append_comm.trans (by rw [List.append_assoc])

theorem reals_mono (h : More P P' p e) (hd : d ∈ P.dirs) {x : Entry} (hx : x ∈ P.reals d) : x ∈ P'.reals d := by
  by_cases hdp : d = p
  · subst hdp
    exact h.reals.mem_iff.mpr (List.mem_cons_of_mem e hx)
  · rw [h.reals_of_ne hd hdp]
    exact hx

end More

/-! ## An entry more, and an entry less -/

namespace Tree
variable {P' : Plan}

theorem laid_edit (h : Tree v P) (hp : p ∈ P.dirs) (hs : SameForm v v')
    (hother : ∀ b, b ∉ blocksOf v P.chain p → blockAt v' b = blockAt v b) (hlaid : Laid v' P.chain p ws) :
    ∀ d ∈ P.dirs, Laid v' P.chain d (Function.update P.views p ws d) := by
  intro d hd
  by_cases hdp : d = p
  · subst hdp
    rw [Function.update_self]
    exact hlaid
  · rw [Function.update_of_ne hdp]
    exact (h.laid d hd).transport hs rfl fun b hb => hother b (h.blocks_apart hd hp hdp hb)

theorem add_file (h : Tree v P) (hm : More P P' p e) (hs : SameForm v v') (hfat : v'.fat = v.fat)
    (hdirs : P'.dirs = P.dirs) (hchain : P'.chain = P.chain) (hrank : P'.rank = P.rank)
    (hlost : P.lost.Perm (e.own ++ P'.lost)) (hlaid : ∀ d ∈ P.dirs, Laid v' P.chain d (P'.views d))
    (hfile : e.short.isDir = false) (he : e.Sound v P.chain) : Tree v' P' := by
  have hkids : ∀ d ∈ P.dirs, (P'.kids d).Perm (P.kids d) := by
    intro d hd
    by_cases hdp : d = p
    · subst hdp
      have hmk := hm.kids
      rwa [hfile, if_neg Bool.false_ne_true, List.nil_append] at hmk
    · rw [hm.kids_of_ne hd hdp]
  refine ⟨hs.formed h.formed, ?_, ?_, ?_, ?_, ?_, ?_⟩
  · rw [hs.kept, hchain]
    have hall : (P'.dirs.flatMap P'.refs).Perm (P.dirs.flatMap P'.refs) := by rw [hdirs]
    exact Holds.perm (h.owned.congr hs.kind hs.info hfat) (hm.heads_perm h.forest.nodup hall hlost)
  · rw [hdirs, hchain]
    exact hlaid
  · rw [hdirs, hrank, hs.root]
    exact h.forest.congr (List.Perm.refl _) hkids
  · rw [hdirs, hchain]
    intro d hd x hx
    rcases hm.mem_reals hd hx with ⟨-, rfl⟩ | hx
    · exact hs.sound (fun _ => rfl) he
    · exact hs.sound (fun _ => rfl) (h.sound d hd x hx)
  · rw [hs.root]
    have hroot := hm.dots h.forest.root_mem
    rw [h.rootDots] at hroot
    exact hroot.eq_nil
  · rw [hdirs]
    intro q hq d hd
    have hdq := (hkids q hq).mem_iff.mp hd
    exact (hm.dots (h.forest.kid_mem hq hdq)).trans (h.dots q hq d hdq)

theorem add_dir (h : Tree v P) (hm : More P P' p e) (hs : SameForm v v') (hfat : v'.fat = v.fat)
    (hfirst : e.short.first = c) (hdir : e.short.isDir = true) (hc : 2 ≤ c)
    (hdirs : P'.dirs = c :: P.dirs) (hchain : P'.chain = P.chain)
    (hrank : P'.rank = Function.update P.rank c (P.rank p + 1)) (hlost : P.lost.Perm (c :: P'.lost))
    (hlaid : ∀ d ∈ P.dirs, Laid v' P.chain d (P'.views d)) (hnew : Laid v' P.chain c (P'.views c))
    (hreals : P'.reals c = []) (hdots : (P'.dots c).Perm [dotEntry c, dotDotEntry p])
    (he : e.Sound v P.chain) : Tree v' P' := by
  have hcd : c ∉ P.dirs := fun hcd => h.lost_not_dir (hlost.mem_iff.mpr List.mem_cons_self) hcd rfl
  have hown : e.own = [c] := by
    unfold Entry.own
    rw [hfirst, if_pos hc]
  have hrefs : P'.refs c = [] := by
    unfold Plan.refs
    rw [hreals]
    rfl
  have hkc : P'.kids c = [] := by
    unfold Plan.kids
    rw [hreals]
    rfl
  have hkp : (P'.kids p).Perm (c :: P.kids p) := by
    have hmk := hm.kids
    rwa [hdir, if_pos rfl, hfirst] at hmk
  have hroot : P'.dots (rootDirClusterValue v) = [] := by
    have hperm := hm.dots h.forest.root_mem
    rw [h.rootDots] at hperm
    exact hperm.eq_nil
  refine ⟨hs.formed h.formed, ?_, ?_, ?_, ?_, ?_, ?_⟩
  · rw [hs.kept, hchain]
    refine Holds.perm (h.owned.congr hs.kind hs.info hfat) (hm.heads_perm h.forest.nodup ?_ ?_)
    · rw [hdirs, List.flatMap_cons, hrefs]
      exact List.Perm.refl _
    · rw [hown]
      exact hlost
  · rw [hdirs, hchain]
    intro d hd
    rcases List.mem_cons.mp hd with rfl | hd
    · exact hnew
    · exact hlaid d hd
  · rw [hdirs, hrank, hs.root]
    exact h.forest.grow hcd hm.here hkp hkc fun d hd hne => hm.kids_of_ne hd hne
  · rw [hdirs, hchain]
    intro d hd x hx
    rcases List.mem_cons.mp hd with rfl | hd
    · rw [hreals] at hx
      exact absurd hx List.not_mem_nil
    · rcases hm.mem_reals hd hx with ⟨-, rfl⟩ | hx
      · exact hs.sound (fun _ => rfl) he
      · exact hs.sound (fun _ => rfl) (h.sound d hd x hx)
  · rw [hs.root]
    exact hroot
  · rw [hdirs]
    intro q hq d hd
    rcases List.mem_cons.mp hq with rfl | hq
    · rw [hkc] at hd
      exact absurd hd List.not_mem_nil
    · have hold : ∀ d ∈ P.kids q, (P'.dots d).Perm [dotEntry d, dotDotEntry q] :=
        fun d hd => (hm.dots (h.forest.kid_mem hq hd)).trans (h.dots q hq d hd)
      by_cases hqp : q = p
      · subst hqp
        rcases List.mem_cons.mp (hkp.mem_iff.mp hd) with rfl | hd
        · exact hdots
        · exact hold d hd
      · rw [hm.kids_of_ne hq hqp] at hd
        exact hold d hd

theorem remove_file (h : Tree v P) (hm : More P' P p e) (hs : SameForm v v') (hfat : v'.fat = v.fat)
    (hdirs : P'.dirs = P.dirs) (hchain : P'.chain = P.chain) (hrank : P'.rank = P.rank)
    (hlost : P'.lost.Perm (e.own ++ P.lost)) (hlaid : ∀ d ∈ P.dirs, Laid v' P.chain d (P'.views d))
    (hfile : e.short.isDir = false) : Tree v' P' := by
  have hnd : P'.dirs.Nodup := by
    rw [hdirs]
    exact h.forest.nodup
  have hkids : ∀ d ∈ P.dirs, (P'.kids d).Perm (P.kids d) := by
    intro d hd
    rw [← hdirs] at hd
    by_cases hdp : d = p
    · subst hdp
      have hmk := hm.kids
      rw [hfile, if_neg Bool.false_ne_true, List.nil_append] at hmk
      exact hmk.symm
    · rw [hm.kids_of_ne hd hdp]
  have hdots : ∀ d ∈ P.dirs, (P'.dots d).Perm (P.dots d) := by
    intro d hd
    rw [← hdirs] at hd
    exact (hm.dots hd).symm
  refine ⟨hs.formed h.formed, ?_, ?_, ?_, ?_, ?_, ?_⟩
  · rw [hs.kept, hchain]
    have hall : (P.dirs.flatMap P.refs).Perm (P'.dirs.flatMap P.refs) := by rw [hdirs]
    exact Holds.perm (h.owned.congr hs.kind hs.info hfat) (hm.heads_perm hnd hall hlost).symm
  · rw [hdirs, hchain]
    exact hlaid
  · rw [hdirs, hrank, hs.root]
    exact h.forest.congr (List.Perm.refl _) hkids
  · intro d hd x hx
    have hx' := hm.reals_mono hd hx
    rw [hdirs] at hd
    rw [hchain]
    exact hs.sound (fun _ => rfl) (h.sound d hd x hx')
  · rw [hs.root]
    have hroot := hdots _ h.forest.root_mem
    rw [h.rootDots] at hroot
    exact hroot.eq_nil
  · rw [hdirs]
    intro q hq d hd
    have hdq := (hkids q hq).mem_iff.mp hd
    exact (hdots d (h.forest.kid_mem hq hdq)).trans (h.dots q hq d hdq)

theorem remove_dir (h : Tree v P) (hm : More P' P p e) (hs : SameForm v v') (hfat : v'.fat = v.fat)
    (hfirst : e.short.first = q) (hdir : e.short.isDir = true) (hdirs : P.dirs.Perm (q :: P'.dirs))
    (hchain : P'.chain = P.chain) (hrank : P'.rank = P.rank) (hlost : P'.lost.Perm (q :: P.lost))
    (hlaid : ∀ d ∈ P'.dirs, Laid v' P.chain d (P'.views d)) (hreals : P.reals q = []) : Tree v' P' := by
  have hsub : ∀ d ∈ P'.dirs, d ∈ P.dirs := fun d hd => hdirs.mem_iff.mpr (List.mem_cons_of_mem q hd)
  have hnd : P'.dirs.Nodup := (List.nodup_cons.mp (hdirs.nodup_iff.mp h.forest.nodup)).2
  have hp : p ∈ P.dirs := hsub p hm.here
  have hep : e ∈ P.reals p := hm.reals.mem_iff.mpr List.mem_cons_self
  have hq2 : 2 ≤ q := by
    rw [← hfirst]
    exact (h.sound p hp e hep).dir hdir
  have hown : e.own = [q] := by
    unfold Entry.own
    rw [hfirst, if_pos hq2]
  have hrefs : P.refs q = [] := by
    unfold Plan.refs
    rw [hreals]
    rfl
  have hkq : P.kids q = [] := by
    unfold Plan.kids
    rw [hreals]
    rfl
  have hkp : (P.kids p).Perm (q :: P'.kids p) := by
    have hmk := hm.kids
    rwa [hdir, if_pos rfl, hfirst] at hmk
  have hforest : Forest P'.kids (rootDirClusterValue v) P.rank P'.dirs :=
    h.forest.prune hdirs hp hkp hkq fun d hd hne => (hm.kids_of_ne hd hne).symm
  have hkids : ∀ d ∈ P'.dirs, ∀ x ∈ P'.kids d, x ∈ P.kids d := by
    intro d hd x hx
    obtain ⟨y, hy, hyd, rfl⟩ := mem_kidsOf.mp hx
    exact mem_kidsOf.mpr ⟨y, hm.reals_mono hd hy, hyd, rfl⟩
  refine ⟨hs.formed h.formed, ?_, ?_, ?_, ?_, ?_, ?_⟩
  · rw [hs.kept, hchain]
    refine Holds.perm (h.owned.congr hs.kind hs.info hfat) (hm.heads_perm hnd ?_ ?_).symm
    · have hperm := hdirs.flatMap_right P.refs
      rwa [List.flatMap_cons, hrefs, List.nil_append] at hperm
    · rw [hown]
      exact hlost
  · rw [hchain]
    exact hlaid
  · rw [hrank, hs.root]
    exact hforest
  · intro d hd x hx
    rw [hchain]
    exact hs.sound (fun _ => rfl) (h.sound d (hsub d hd) x (hm.reals_mono hd hx))
  · rw [hs.root]
    have hroot := (hm.dots hforest.root_mem).symm
    rw [h.rootDots] at hroot
    exact hroot.eq_nil
  · intro r hr d hd
    exact (hm.dots (hforest.kid_mem hr hd)).symm.trans (h.dots r (hsub r hr) d (hkids r hr d hd))

end Tree
end Ezos.Fat
