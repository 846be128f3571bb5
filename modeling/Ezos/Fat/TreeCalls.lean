import Ezos.Fat.Write
import Ezos.Fat.TreeSlots
import Ezos.Fat.TreePaths

/-!
# Sequences of calls

A call comes with what it finds on its stack and on the clock. What can go wrong in one call, other than running
out of space, is said of the state before it.
-/

namespace Ezos.Fat

open Lib.Memory

set_option autoImplicit false

inductive Call
  | createFile (f : Frame) (name : Str) (data : Mem) (size : U32)
  | mkdir (f : Frame) (name : Str)
  | deleteFile (f : Frame) (name : Str)
  | rmdir (f g : Frame) (name : Str)
  | changeDir (f : Frame) (name : Str)

def Call.run (s : Sys) : Call → Bool × Sys
  | .createFile f name data size => fatCreateFile s f name data size
  | .mkdir f name => fatMkdir s f name
  | .deleteFile f name => fatDeleteFile s f name
  | .rmdir f g name => fatRmdir s f g name
  | .changeDir f name => fatChangeDir s f name

def runCalls (s : Sys) : List Call → Sys
  | [] => s
  | call :: calls => runCalls (call.run s).2 calls

def Along (good : Sys → Call → Prop) : Sys → List Call → Prop
  | _, [] => True
  | s, call :: calls => good s call ∧ Along good (call.run s).2 calls

def PlaceOk (s : Sys) (f : Frame) (name : Str) : Prop :=
  ∀ dir leaf, newLeaf s f name = some (dir, leaf) →
    isDotName leaf = false ∧ ¬ SkipsEnd s.vol dir (slotsFor leaf)

def AliasLeft (s : Sys) (f : Frame) (name : Str) : Prop :=
  ∀ dir leaf, newLeaf s f name = some (dir, leaf) → prepareNames (probe s.vol f dir) leaf ≠ none

def ForeignDir (s : Sys) (f : Frame) (name : Str) : Prop :=
  ∀ dir leaf e, fatResolveLeaf s f (cstr name) = some (dir, leaf) → fatFindEntry s.vol f.leaf dir leaf = some e →
    e.isDir = true → fatDirEmpty s.vol f.inside e.firstCluster = true →
      e.firstCluster ≠ dir ∧ e.firstCluster ≠ s.cwd.cur.toNat

def Orderly (s : Sys) : Call → Prop
  | .createFile f name _ _ => PlaceOk s f name
  | .mkdir f name => PlaceOk s f name
  | .deleteFile f name => ForeignDir s f name
  | .rmdir _ g name => ForeignDir s g name
  | .changeDir _ _ => True

def Frugal (s : Sys) : Call → Prop
  | .mkdir f name => AliasLeft s f name
  | _ => True

end Ezos.Fat

/-!
## The tree after a call

Each call leaves the tree as it was, or adds an entry to one directory, or takes one away. A cluster is lost only
when `fat_mkdir` finds no alias for the name.
-/

namespace Ezos.Fat

open Lib.Memory Lib.Chains Lib.Forests

variable {v v' : Vol} {P P' : Plan} {d p c q r dir need : Nat} {e : Entry} {name leaf sn : Str} {junk : Junk}
  {de : Dirent} {f g : Frame} {s : Sys} {data : Mem} {size : U32} {lfn first : Nat}

structure SameDir (v v' : Vol) (d : Nat) : Prop where
  form : SameForm v v'
  blocks : dirBlocks v' d = dirBlocks v d
  data : ∀ b ∈ dirBlocks v d, blockAt v' b = blockAt v b

theorem scanBlocks_congr (hs : SameForm v v') {bs : List Block} (hb : ∀ b ∈ bs, blockAt v' b = blockAt v b) {st : Lfn} :
    scanBlocks v' st bs = scanBlocks v st bs := by
  induction bs generalizing st with
  | nil => rfl
  | cons b bs ih =>
    have hrest := fun st => @ih (fun x hx => hb x (List.mem_cons_of_mem b hx)) st
    unfold scanBlocks fatReadBlock
    rw [hs.unreadable, hb b List.mem_cons_self, hs.kind, slotsOf_congr hs.info]
    simp only [hrest]

theorem SameDir.dirents (h : SameDir v v' d) (junk : Junk) : dirents v' junk d = Fat.dirents v junk d := by
  unfold Fat.dirents
  rw [h.blocks]
  exact scanBlocks_congr h.form h.data

theorem SameDir.find (h : SameDir v v' d) (junk : Junk) (name : Str) :
    fatFindEntry v' junk d name = fatFindEntry v junk d name := by
  unfold fatFindEntry
  rw [h.dirents]

theorem SameDir.probe (h : SameDir v v' d) (f : Frame) : probe v' f d = Fat.probe v f d := by
  funext n name
  unfold Fat.probe
  rw [h.find]

theorem passedOver_congr (hs : SameForm v v') {bs : List Block} (hb : ∀ b ∈ bs, blockAt v' b = blockAt v b) :
    passedOver v' need bs = passedOver v need bs := by
  induction bs with
  | nil => rfl
  | cons b bs ih =>
    unfold passedOver
    rw [hb b List.mem_cons_self, slotsOf_congr hs.info, ih fun x hx => hb x (List.mem_cons_of_mem b hx)]

theorem passedOver_subset {bs : List Block} : ∀ b ∈ passedOver v need bs, b ∈ bs := by
  induction bs with
  | nil => exact fun b hb => hb
  | cons x bs ih =>
    intro b hb
    unfold passedOver at hb
    split at hb
    · exact absurd hb List.not_mem_nil
    · rcases List.mem_cons.mp hb with rfl | hb
      · exact List.mem_cons_self
      · exact List.mem_cons_of_mem x (ih b hb)

theorem SameDir.skipsEnd (h : SameDir v v' d) (hskip : SkipsEnd v' d need) : SkipsEnd v d need := by
  obtain ⟨hplace, b, hb, i, hi, hend⟩ := hskip
  rw [h.blocks, passedOver_congr h.form h.data] at hb
  rw [h.blocks] at hplace
  refine ⟨hplace.imp id ?_, b, hb, i, ?_, ?_⟩
  · rintro ⟨x, hx, hrun⟩
    rw [h.data x hx, slotsOf_congr h.form.info] at hrun
    exact ⟨x, hx, hrun⟩
  · rw [slotsOf_congr h.form.info] at hi
    exact hi
  · rw [h.data b (passedOver_subset b hb)] at hend
    exact hend

/-- The directories and the chains are what they were, and no block of a directory or of one of these chains has been
written. -/
structure Unmoved (v : Vol) (P : Plan) (v' : Vol) (P' : Plan) : Prop where
  form : SameForm v v'
  dirs : P'.dirs = P.dirs
  views : P'.views = P.views
  same : ∀ r ∈ P.lost ++ P.kept v, SameChain v P v' P' r
  blocks : ∀ d ∈ P.dirs, SameDir v v' d

theorem Unmoved.of_onlyFat {lost : List Nat} (h : Tree v P) (h' : Tree v' { P with lost := lost })
    (ho : OnlyFat v v') : Unmoved v P v' { P with lost := lost } := by
  refine ⟨ho.sameForm, rfl, rfl, fun r _ => ⟨rfl, fun c _ => ho.blockAt (.cluster c)⟩, fun d hd => ⟨ho.sameForm, ?_, ?_⟩⟩
  · rw [h.dirBlocks_eq hd, h'.dirBlocks_eq hd, ho.sameForm.blocksOf]
  · exact fun b _ => ho.blockAt b

theorem Unmoved.refl (v : Vol) (P : Plan) : Unmoved v P v P :=
  ⟨.refl v, rfl, rfl, fun _ _ => ⟨rfl, fun _ _ => rfl⟩, fun _ _ => ⟨.refl v, rfl, fun _ _ => rfl⟩⟩

theorem Unmoved.kept (h : Unmoved v P v' P') : P'.kept v' = P.kept v := by
  rw [h.form.kept]
  unfold Plan.kept Plan.refs Plan.reals
  rw [h.dirs, h.views]

theorem SameDir.trans {v'' : Vol} (h : SameDir v v' d) (h' : SameDir v' v'' d) : SameDir v v'' d := by
  refine ⟨h.form.trans h'.form, h'.blocks.trans h.blocks, fun b hb => ?_⟩
  rw [h'.data b (by rw [h.blocks]; exact hb), h.data b hb]

theorem Unmoved.trans {v'' : Vol} {P'' : Plan} (h : Unmoved v P v' P') (h' : Unmoved v' P' v'' P'')
    (hlost : ∀ r ∈ P.lost, r ∈ P'.lost) : Unmoved v P v'' P'' := by
  refine ⟨h.form.trans h'.form, h'.dirs.trans h.dirs, h'.views.trans h.views, fun r hr => ?_, fun d hd => ?_⟩
  · refine (h.same r hr).trans (h'.same r ?_)
    rw [h.kept]
    exact List.mem_append.mpr ((List.mem_append.mp hr).imp (hlost r) id)
  · exact (h.blocks d hd).trans (h'.blocks d (by rw [h.dirs]; exact hd))

theorem Entered.after {v1 : Vol} {P1 : Plan} {lost : List Nat} (h : Unmoved v P v1 P1)
    (h' : Entered v1 P1 v' P' p e lost) (hlost : ∀ r ∈ P.lost, r ∈ P1.lost) : Entered v P v' P' p e lost := by
  refine ⟨h'.tree, h.form.trans h'.form, ?_, fun d hd hne => ?_, ?_, h'.lost, fun r hr hne => ?_⟩
  · rw [← h.views]
    exact h'.here
  · rw [← h.views]
    exact h'.others d (by rw [h.dirs]; exact hd) hne
  · rw [← h.dirs]
    exact h'.dirs
  · refine (h.same r hr).trans (h'.same r ?_ hne)
    rw [h.kept]
    exact List.mem_append.mpr ((List.mem_append.mp hr).imp (hlost r) id)

theorem Fresh.unmoved {chain' : Nat → List Nat} (h : Tree v P) (hst : Fresh v P first v' chain') :
    Unmoved v P v' { P with chain := chain', lost := first :: P.lost } := by
  have hlost : first ∈ first :: P.lost := List.mem_cons_self
  have hkept : P.kept v' = P.kept v := hst.form.kept
  have hnd : (first :: (P.lost ++ P.kept v)).Nodup := by
    rw [← hkept]
    exact hst.tree.owned.heads_nodup
  have hblocks : ∀ d ∈ P.dirs, blocksOf v' chain' d = blocksOf v P.chain d := by
    intro d hd
    rw [hst.form.blocksOf]
    unfold blocksOf
    rcases h.dir_cases hd with hzero | hkept
    · rw [if_pos hzero, if_pos hzero]
    · rw [hst.others d (Tree.mem_heads hkept)]
  refine ⟨hst.form, rfl, rfl, fun r hr => ⟨hst.others r hr, fun c hc => ?_⟩, fun d hd => ⟨hst.form, ?_, ?_⟩⟩
  · refine hst.blocks (.cluster c) fun x hx heq => ?_
    obtain rfl : c = x := Block.cluster.inj heq
    have hr' : r ∈ (first :: P.lost) ++ P.kept v' := by
      rw [hkept]
      exact List.mem_cons_of_mem first hr
    have hcr : c ∈ chain' r := by
      rw [hst.others r hr]
      exact hc
    have heq := hst.tree.owned.eq_of_mem hr' (List.mem_append_left _ hlost) hcr hx
    subst heq
    exact (List.nodup_cons.mp hnd).1 hr
  · rw [h.dirBlocks_eq hd, hst.tree.dirBlocks_eq hd]
    exact hblocks d hd
  · intro b hb
    rw [h.dirBlocks_eq hd, ← hblocks d hd] at hb
    refine hst.blocks b ?_
    rintro c hc rfl
    exact hst.tree.block_outside hd (List.mem_append_left _ hlost) (hst.tree.lost_not_dir hlost hd) hc hb

/-! ## New names -/

structure Named (s : Sys) (P : Plan) (f : Frame) (name : Str) (dir : Nat) (leaf : Str) : Prop where
  new : newLeaf s f name = some (dir, leaf)
  home : dir ∈ P.dirs
  good : Leaf leaf
  absent : fatFindEntry s.vol f.leaf dir leaf = none

theorem Tree.named (h : Tree s.vol P) (hs : CwdIn s.vol P s.cwd) (hn : newLeaf s f name = some (dir, leaf)) :
    Named s P f name dir leaf := by
  have hn' := hn
  unfold newLeaf at hn'
  split at hn'
  · contradiction
  · cases hr : fatResolveLeaf s f (cstr name) with
    | none =>
      rw [hr] at hn'
      contradiction
    | some r =>
      obtain ⟨d, l⟩ := r
      rw [hr] at hn'
      dsimp only at hn'
      split at hn'
      · contradiction
      · rename_i hfind
        obtain ⟨rfl, rfl⟩ := Prod.mk.inj (Option.some.inj hn')
        obtain ⟨hd, hl⟩ := h.resolveLeaf hs (not_mem_cstr name) hr
        exact ⟨hn, hd, hl, Option.not_isSome_iff_eq_none.mp hfind⟩

def Holding (v : Vol) (P : Plan) (data : Mem) (size first : Nat) : Prop :=
  (first = 0 ∧ dataClusters v size = 0) ∨
    (2 ≤ first ∧ (P.chain first).length = dataClusters v size ∧ Filled v data size 0 (P.chain first))

theorem Filled.same {data : Mem} {size k : Nat} {cs : List Nat} (h : Filled v data size k cs) (hs : SameForm v v')
    (hd : ∀ c ∈ cs, v'.data c = v.data c) : Filled v' data size k cs := by
  intro i c hi
  have hdata : dataBlock v' data size (k + i) = dataBlock v data size (k + i) := by
    unfold dataBlock
    rw [hs.clusterSize]
  rw [hd c (List.mem_of_getElem? hi), hdata]
  exact h i c hi

theorem Holding.same {data : Mem} {size : Nat} (h : Holding v P data size first) (hs : SameForm v v')
    (hsame : 2 ≤ first → SameChain v P v' P' first) : Holding v' P' data size first := by
  rcases h with ⟨hzero, hnone⟩ | ⟨h2, hlen, hfill⟩
  · exact Or.inl ⟨hzero, by rw [hs.dataClusters]; exact hnone⟩
  · have hs' := hsame h2
    refine Or.inr ⟨h2, ?_, ?_⟩
    · rw [hs'.chain, hs.dataClusters]
      exact hlen
    · rw [hs'.chain]
      exact hfill.same hs hs'.data

structure Idle (v : Vol) (P : Plan) (v' : Vol) (P' : Plan) : Prop where
  tree : Tree v' P'
  moved : Unmoved v P v' P'
  lost : P'.lost = P.lost

theorem Idle.refl (h : Tree v P) : Idle v P v P := ⟨h, .refl v P, rfl⟩

theorem Tree.createFile (h : Tree s.vol P) (hs : CwdIn s.vol P s.cwd) (hgood : PlaceOk s f name) :
    ∃ ok s', fatCreateFile s f name data size = (ok, s') ∧ s'.cwd = s.cwd ∧
      ∃ P', (ok = false ∧ Idle s.vol P s'.vol P') ∨
        ∃ dir leaf sn lfn first, ok = true ∧ Named s P f name dir leaf ∧
          prepareNames (probe s.vol f dir) leaf = some (sn, lfn) ∧
          Entered s.vol P s'.vol P' dir (newEntry leaf sn lfn false first size.toNat) P.lost ∧
          Holding s'.vol P' data size.toNat first := by
  unfold fatCreateFile
  split
  · exact ⟨false, s, rfl, rfl, P, Or.inl ⟨rfl, .refl h⟩⟩
  cases hn : newLeaf s f name with
  | none => exact ⟨false, s, rfl, rfl, P, Or.inl ⟨rfl, .refl h⟩⟩
  | some r =>
    obtain ⟨dir, leaf⟩ := r
    dsimp only
    have hnamed := h.named hs hn
    obtain ⟨hdot, hskip⟩ := hgood dir leaf hn
    cases hprep : prepareNames (probe s.vol f dir) leaf with
    | none => exact ⟨false, s, rfl, rfl, P, Or.inl ⟨rfl, .refl h⟩⟩
    | some r =>
      obtain ⟨sn, lfn⟩ := r
      dsimp only
      rw [slotsFor_of_prepareNames hprep] at hskip
      rcases h.storeData data size.toNat with ⟨v1, hrun, honly, htree⟩ | ⟨hzero, hrun⟩ | ⟨first, v1, chain1, hrun, hst⟩
      · rw [hrun]
        exact ⟨false, _, rfl, rfl, P, Or.inl ⟨rfl, htree, Unmoved.of_onlyFat h htree honly, rfl⟩⟩
      · -- no data
        rw [hrun]
        dsimp only
        have hclaims : Claims s.vol P 0 P.lost := by
          refine ⟨rfl, FitsEntry.of_lt_size _ ?_⟩
          cases s.vol.kind <;> decide
        rcases h.enter_file hnamed.home hprep hnamed.good hdot hskip size.isLt hclaims (fun h2 => by omega) (f.clock 0) with
          ⟨v', henter, honly, htree⟩ | ⟨v', P', henter, hent⟩
        · rw [henter]
          exact ⟨false, _, rfl, rfl, P, Or.inl ⟨rfl, htree, Unmoved.of_onlyFat h htree honly, rfl⟩⟩
        · rw [henter]
          refine ⟨true, _, rfl, rfl, P', Or.inr ⟨dir, leaf, sn, lfn, 0, rfl, hnamed, hprep, hent, Or.inl ⟨rfl, ?_⟩⟩⟩
          rw [hent.form.dataClusters]
          exact hzero
      · rw [hrun]
        dsimp only
        have hmoved := hst.unmoved h
        have hfl : first ∈ first :: P.lost := List.mem_cons_self
        have hw := hst.tree.owned.within (List.mem_append_left _ hfl)
        have hclaims : Claims v1 { P with chain := chain1, lost := first :: P.lost } first P.lost :=
          ⟨by rw [if_pos hw.1]; rfl, FitsEntry.of_lt_size _ (hw.lt_size hst.tree.formed.sized)⟩
        have hskip1 : ¬ SkipsEnd v1 dir (1 + lfn) := fun hno => hskip ((hmoved.blocks dir hnamed.home).skipsEnd hno)
        have hneed : 2 ≤ first → dataClusters v1 size.toNat ≤ (chain1 first).length := by
          intro _
          rw [hst.length, hst.form.dataClusters]
        have hsub : ∀ r ∈ P.lost, r ∈ first :: P.lost := fun r hr => List.mem_cons_of_mem first hr
        rcases hst.tree.enter_file hnamed.home hprep hnamed.good hdot hskip1 size.isLt hclaims hneed (f.clock 0) with
          ⟨v', henter, honly, htree⟩ | ⟨v', P', henter, hent⟩
        · rw [henter]
          refine ⟨false, _, rfl, rfl, _, Or.inl ⟨rfl, htree, ?_, rfl⟩⟩
          exact hmoved.trans (Unmoved.of_onlyFat hst.tree htree honly) hsub
        · rw [henter]
          refine ⟨true, _, rfl, rfl, P', Or.inr ⟨dir, leaf, sn, lfn, first, rfl, hnamed, hprep, hent.after hmoved hsub,
            ?_⟩⟩
          have hhold : Holding v1 { P with chain := chain1, lost := first :: P.lost } data size.toNat first := by
            refine Or.inr ⟨hw.1, ?_, hst.filled⟩
            rw [hst.form.dataClusters]
            exact hst.length
          exact hhold.same hent.form fun _ =>
            hent.same first (List.mem_append_left _ hfl) (hst.tree.lost_not_dir hfl hnamed.home)

theorem Tree.start (h : Tree v P) (hw : Within v c) (hfree : v.fat c = 0) {hint : Nat} (hv : v' = { v with
      fat := fun i => if i = c then fatEocVal v.kind % v.kind.size else v.fat i, hint := hint }) :
    Fresh v P c v' (Function.update P.chain c [c]) := by
  have honly : OnlyFat v v' := ⟨_, _, hv⟩
  have hfat : ∀ i, v'.fat i = if i = c then fatEocVal v.kind else v.fat i := by
    intro i
    rw [hv]
    dsimp only
    rw [eocVal_mod]
  have hnew : c ∉ P.lost ++ P.kept v := h.owned.not_head_of_free (table_free hfree)
  have hothers : ∀ r ∈ P.lost ++ P.kept v, Function.update P.chain c [c] r = P.chain r :=
    fun r hr => Function.update_of_ne (ne_of_mem_of_not_mem hr hnew) _ _
  have hown := h.owned.start honly.sameForm.kind honly.sameForm.info hw hfree hfat
  exact ⟨h.reown honly.sameForm (fun r hr => hothers r (mem_heads hr)) (fun _ _ b _ => honly.blockAt b) hown,
    honly.sameForm, hothers, fun b _ => honly.blockAt b⟩

theorem Tree.mkdir (h : Tree s.vol P) (hs : CwdIn s.vol P s.cwd) (hgood : PlaceOk s f name) :
    ∃ ok s', fatMkdir s f name = (ok, s') ∧ s'.cwd = s.cwd ∧
      ∃ P', (ok = false ∧ Idle s.vol P s'.vol P') ∨
        (ok = false ∧ ¬ AliasLeft s f name ∧ Tree s'.vol P' ∧ Unmoved s.vol P s'.vol P' ∧ ∃ c, P'.lost = c :: P.lost) ∨
          ∃ dir leaf sn lfn c, ok = true ∧ Named s P f name dir leaf ∧
            prepareNames (probe s.vol f dir) leaf = some (sn, lfn) ∧
            Entered s.vol P s'.vol P' dir (newEntry leaf sn lfn true c 0) P.lost ∧
            entriesOf (P'.views c) = [dotEntry c, dotDotEntry dir] := by
  unfold fatMkdir
  cases hn : newLeaf s f name with
  | none => exact ⟨false, s, rfl, rfl, P, Or.inl ⟨rfl, .refl h⟩⟩
  | some r =>
    obtain ⟨dir, leaf⟩ := r
    dsimp only
    have hnamed := h.named hs hn
    obtain ⟨hdot, hskip⟩ := hgood dir leaf hn
    obtain ⟨c, hint, halloc, hcase⟩ := fatAllocCluster_spec s.vol
    rw [halloc]
    dsimp only
    by_cases hzero : c = 0
    · rw [if_pos hzero]
      have honly : OnlyFat s.vol { s.vol with hint := hint } := ⟨_, _, rfl⟩
      have htree : Tree { s.vol with hint := hint } P :=
        h.reown honly.sameForm (fun _ _ => rfl) (fun _ _ b _ => honly.blockAt b) (h.owned.congr rfl rfl rfl)
      exact ⟨false, _, rfl, rfl, P, Or.inl ⟨rfl, htree, Unmoved.of_onlyFat h htree honly, rfl⟩⟩
    rw [if_neg hzero]
    obtain ⟨hw, hfree⟩ := hcase.resolve_left hzero
    have hwl : Within { s.vol with hint := hint } c := hw
    rw [fatEntrySet_within hwl]
    dsimp only
    unfold fatWriteCluster
    generalize hv1 : ({ s.vol with
      fat := fun i => if i = c then fatEocVal s.vol.kind % s.vol.kind.size else s.vol.fat i, hint := hint } : Vol) = v1
    have hfresh1 := h.start hw hfree hv1.symm
    generalize hchain : Function.update P.chain c [c] = chain1 at hfresh1
    have hcc : chain1 c = [c] := by rw [← hchain, Function.update_self]
    rw [if_neg ((within_congr hfresh1.form.info).mpr hw).not_out]
    dsimp only
    generalize hv2 : fatWriteBlock v1 (.cluster c) (dirCluster s.vol.kind c dir f) = v2
    have hform : SameForm v1 v2 := hv2 ▸ sameForm_write
    have honly : OnlyData v1 (chain1 c) v2 := by
      rw [hcc, ← hv2]
      exact ⟨sameForm_write, fat_write, fun b hb => blockAt_write_of_ne (hb c List.mem_cons_self)⟩
    have hdata : v2.data c = dirCluster v2.kind c dir f := by
      rw [hform.kind, hfresh1.form.kind, ← hv2]
      exact if_pos rfl
    have hfresh := hfresh1.write honly
    have hmoved := hfresh.unmoved h
    have hsub : ∀ r ∈ P.lost, r ∈ c :: P.lost := fun r hr => List.mem_cons_of_mem c hr
    have hprobe := (hmoved.blocks dir hnamed.home).probe f
    rw [hprobe]
    cases hprep : prepareNames (probe s.vol f dir) leaf with
    | none =>
      exact ⟨false, _, rfl, rfl, _, Or.inr (Or.inl ⟨rfl, fun hleft => hleft dir leaf hn hprep, hfresh.tree, hmoved, c, rfl⟩)⟩
    | some r =>
      obtain ⟨sn, lfn⟩ := r
      dsimp only
      rw [slotsFor_of_prepareNames hprep] at hskip
      have hskip2 : ¬ SkipsEnd v2 dir (1 + lfn) := fun hno => hskip ((hmoved.blocks dir hnamed.home).skipsEnd hno)
      rcases hfresh.tree.enter_dir hnamed.home hprep hnamed.good hdot hskip2 rfl hcc hdata (f.clock 2) with
        ⟨v', henter, honly', htree⟩ | ⟨v', P', henter, hent, hview⟩
      · rw [henter]
        refine ⟨false, _, rfl, rfl, _, Or.inl ⟨rfl, htree, ?_, rfl⟩⟩
        exact hmoved.trans (Unmoved.of_onlyFat hfresh.tree htree honly') hsub
      · rw [henter]
        refine ⟨true, _, rfl, rfl, P', Or.inr (Or.inr ⟨dir, leaf, sn, lfn, c, rfl, hnamed, hprep, hent.after hmoved hsub,
          ?_⟩)⟩
        rw [hview]
        rfl

theorem Tree.dots_cases (h : Tree v P) (hd : d ∈ P.dirs) (he : e ∈ P.dots d) :
    e.short.isDir = true ∧ (e.short.first = d ∨ e.short.first ∈ P.dirs ∧ P.reals e.short.first ≠ []) := by
  have hne : d ≠ rootDirClusterValue v := by
    rintro rfl
    rw [h.rootDots] at he
    exact absurd he List.not_mem_nil
  obtain ⟨p, hp, hdp⟩ := h.forest.parent hd hne
  have hmem := (h.dots p hp d hdp).mem_iff.mp he
  rw [List.mem_cons, List.mem_singleton] at hmem
  rcases hmem with rfl | rfl
  · exact ⟨rfl, Or.inl rfl⟩
  · refine ⟨rfl, Or.inr ⟨hp, ?_⟩⟩
    obtain ⟨x, hx, -⟩ := mem_kidsOf.mp hdp
    exact List.ne_nil_of_mem hx

theorem Removed.kids (h : Removed v P v' P' p e) (hreal : e.isDots = false) (hc : c ∈ P.kids d)
    (hne : e.short.isDir = true → c ≠ e.short.first) : c ∈ P'.kids d := by
  obtain ⟨x, hx, hdir, rfl⟩ := mem_kidsOf.mp hc
  refine mem_kidsOf.mpr ⟨x, ?_, hdir, rfl⟩
  by_cases hdp : d = p
  · subst hdp
    have hperm := (realsOf_cons h.here hreal).1
    rcases List.mem_cons.mp (hperm.mem_iff.mp hx) with rfl | hx
    · exact absurd rfl (hne hdir)
    · exact hx
  · unfold Plan.reals realsOf at hx ⊢
    rw [h.others d hdp]
    exact hx

theorem Removed.dir_mem (h : Removed v P v' P' p e) (hd : d ∈ P.dirs) (hne : e.short.isDir = true → d ≠ e.short.first) :
    d ∈ P'.dirs := by
  rcases List.mem_append.mp (h.dirs.mem_iff.mp hd) with hd | hd
  · split at hd
    · rename_i hdir
      exact absurd (List.mem_singleton.mp hd) (hne hdir)
    · exact absurd hd List.not_mem_nil
  · exact hd

theorem Removed.climbs (h : Removed v P v' P' p e) (hreal : e.isDots = false)
    (hempty : e.short.isDir = true → P.reals e.short.first = []) {stack : List Nat} (hc : Climbs P d stack)
    (hne : e.short.isDir = true → d ≠ e.short.first) : Climbs P' d stack := by
  induction stack generalizing d with
  | nil => exact h.dir_mem hc hne
  | cons q stack ih =>
    refine ⟨h.kids hreal hc.1 hne, ih hc.2 fun hdir => ?_⟩
    rintro rfl
    obtain ⟨x, hx, -⟩ := mem_kidsOf.mp hc.1
    rw [hempty hdir] at hx
    exact absurd hx List.not_mem_nil

structure Deleted (s : Sys) (P : Plan) (f : Frame) (name : Str) (s' : Sys) (P' : Plan) (dir : Nat) (leaf : Str)
    (e : Entry) (de : Dirent) : Prop where
  resolved : fatResolveLeaf s f (cstr name) = some (dir, leaf)
  home : dir ∈ P.dirs
  found : fatFindEntry s.vol f.leaf dir leaf = some de
  real : e ∈ P.reals dir
  shown : e.ShownAs de.name
  own : Unstale s.vol f.leaf dir → de.name = e.ownName
  empty : e.short.isDir = true → P.reals e.short.first = []
  removed : Removed s.vol P s'.vol P' dir e
  cwd : CwdIn s'.vol P' s'.cwd

theorem Tree.deleteFile (h : Tree s.vol P) (hs : CwdIn s.vol P s.cwd) (hgood : ForeignDir s f name) :
    ∃ ok s', fatDeleteFile s f name = (ok, s') ∧ s'.cwd = s.cwd ∧
      ((ok = false ∧ s' = s) ∨ ∃ P' dir leaf e de, ok = true ∧ Deleted s P f name s' P' dir leaf e de ∧
        ∃ b i, (b, i, e) ∈ (P.views dir).flatMap View.placed ∧ Shows (b, i, e) de) := by
  unfold fatDeleteFile
  cases hr : fatResolveLeaf s f (cstr name) with
  | none => exact ⟨false, s, rfl, rfl, Or.inl ⟨rfl, rfl⟩⟩
  | some r =>
    obtain ⟨dir, leaf⟩ := r
    dsimp only
    obtain ⟨hdir, hleaf⟩ := h.resolveLeaf hs (not_mem_cstr name) hr
    cases hfind : fatFindEntry s.vol f.leaf dir leaf with
    | none => exact ⟨false, s, rfl, rfl, Or.inl ⟨rfl, rfl⟩⟩
    | some de =>
      dsimp only
      by_cases hfull : de.isDir = true ∧ fatDirEmpty s.vol f.inside de.firstCluster = false
      · rw [if_pos hfull]
        exact ⟨false, s, rfl, rfl, Or.inl ⟨rfl, rfl⟩⟩
      rw [if_neg hfull]
      obtain ⟨⟨b, i, e⟩, hq, hshow, -, hown⟩ := h.find_some hdir hfind
      have hmem : e ∈ entriesOf (P.views dir) := by
        rw [← map_placed]
        exact List.mem_map.mpr ⟨_, hq, rfl⟩
      have hfirst : de.firstCluster = e.short.first := hshow.firstCluster
      have hkind : de.isDir = e.short.isDir := hshow.isDir
      rw [hkind, hfirst] at hfull
      have hforeign : e.short.isDir = true → fatDirEmpty s.vol f.inside e.short.first = true ∧
          e.short.first ≠ dir ∧ e.short.first ≠ s.cwd.cur.toNat := by
        intro hd
        have hempty : fatDirEmpty s.vol f.inside e.short.first = true := by
          rw [← Bool.not_eq_false]
          exact fun hno => hfull ⟨hd, hno⟩
        refine ⟨hempty, ?_⟩
        rw [← hfirst]
        exact hgood dir leaf de hr hfind (hkind.trans hd) (by rw [hfirst]; exact hempty)
      have hreal : e.isDots = false := by
        rw [← Bool.not_eq_true]
        intro hdots
        obtain ⟨hd, hcase⟩ := h.dots_cases hdir (mem_dotsOf.mpr ⟨hmem, hdots⟩)
        obtain ⟨hempty, hnd, -⟩ := hforeign hd
        rcases hcase with hself | ⟨hp, hne⟩
        · exact hnd hself
        · exact hne (h.reals_of_empty hp hempty)
      have he : e ∈ P.reals dir := mem_realsOf.mpr ⟨hmem, hreal⟩
      have hnone : e.short.isDir = true → P.reals e.short.first = [] := fun hd =>
        h.reals_of_empty (h.forest.kid_mem hdir (mem_kidsOf.mpr ⟨e, he, hd, rfl⟩)) (hforeign hd).1
      obtain ⟨v', P', hrun, hrem⟩ := h.delete hdir hq hshow hreal hnone
      rw [hrun]
      refine ⟨true, _, rfl, rfl, Or.inr ⟨P', dir, leaf, e, de, rfl,
        ⟨hr, hdir, hfind, he, hshow.name, hown, hnone, hrem, hs.ready, ?_, ?_⟩, b, i, hq, hshow⟩⟩
      · rw [hrem.form.root]
        exact hs.root
      · exact hrem.climbs hreal hnone hs.climbs fun hd => (hforeign hd).2.2.symm

theorem fatRmdir_cases (s : Sys) (f g : Frame) (name : Str) :
    fatRmdir s f g name = (false, s) ∨ fatRmdir s f g name = fatDeleteFile s g name := by
  unfold fatRmdir
  split
  · exact Or.inl rfl
  · split
    · exact Or.inl rfl
    · split
      · exact Or.inl rfl
      · split
        · exact Or.inl rfl
        · split
          · exact Or.inl rfl
          · exact Or.inr rfl

end Ezos.Fat
