import Ezos.Fat.TreeStore

/-!
# Room for an entry

The search stops at the first block with a long enough run of free slots, and a directory without one gets a new
cluster. Where the blocks before have no end mark, an entry put there can be read.
-/

namespace Ezos.Fat

open Lib.Memory Lib.Chains Lib.Forests

set_option autoImplicit false

variable {v v' : Vol} {P P' : Plan} {d p c r n need t : Nat} {cs : List Nat} {e : Entry} {ws : List View} {w : View}
  {b : Block}

def passedOver (v : Vol) (need : Nat) : List Block → List Block
  | [] => []
  | b :: bs => if (freeRun (blockAt v b) need 0 0 (slotsOf v b)).isSome then [] else b :: passedOver v need bs

def HasEnd (v : Vol) (b : Block) : Prop := ∃ i < slotsOf v b, slotAt (blockAt v b) i 0 = 0x00

instance (v : Vol) (b : Block) : Decidable (HasEnd v b) :=
  inferInstanceAs (Decidable (∃ i < slotsOf v b, slotAt (blockAt v b) i 0 = 0x00))

def SkipsEnd (v : Vol) (dir need : Nat) : Prop :=
  (2 ≤ dir ∨ ∃ b ∈ dirBlocks v dir, (freeRun (blockAt v b) need 0 0 (slotsOf v b)).isSome = true) ∧
    ∃ b ∈ passedOver v need (dirBlocks v dir), HasEnd v b

instance (v : Vol) (dir need : Nat) : Decidable (SkipsEnd v dir need) := inferInstanceAs (Decidable (_ ∧ _))

theorem View.Of.free_eq_zero (h : w.Of v) (hno : ¬ HasEnd v w.block) : w.free = 0 := by
  by_contra hne
  apply hno
  have hlen := h.length
  have hr := h.reads
  unfold View.slots at hlen hr
  rw [List.length_append, List.length_replicate] at hlen
  refine ⟨(w.items.flatMap itemSlots).length, by omega, ?_⟩
  have hlast := hr.right
  rw [Nat.zero_add] at hlast
  exact last_of_read (hlast 0 .last (by rw [List.getElem?_replicate, if_pos (Nat.pos_of_ne_zero hne)]))

theorem searchSlots_views (hread : ∀ b, v.unreadable b = false) (need : Nat) (ws : List View) :
    (searchSlots v need (ws.map View.block) = some none ∧
        passedOver v need (ws.map View.block) = ws.map View.block) ∨
      ∃ A w B i, ws = A ++ w :: B ∧ searchSlots v need (ws.map View.block) = some (some (w.block, i)) ∧
        passedOver v need (ws.map View.block) = A.map View.block ∧
        freeRun (blockAt v w.block) need 0 0 (slotsOf v w.block) = some i := by
  induction ws with
  | nil => exact Or.inl ⟨rfl, rfl⟩
  | cons w ws ih =>
    rw [List.map_cons, searchSlots, passedOver, fatReadBlock, hread, if_neg Bool.false_ne_true]
    dsimp only
    cases hrun : freeRun (blockAt v w.block) need 0 0 (slotsOf v w.block) with
    | some i => exact Or.inr ⟨[], w, ws, i, rfl, rfl, rfl, hrun⟩
    | none =>
      rw [Option.isSome_none, if_neg Bool.false_ne_true]
      rcases ih with ⟨hnone, hpass⟩ | ⟨A, x, B, i, rfl, hsome, hpass, hx⟩
      · exact Or.inl ⟨hnone, by rw [hpass]⟩
      · exact Or.inr ⟨w :: A, x, B, i, rfl, hsome, by rw [hpass, List.map_cons], hx⟩

/-! ## A new cluster -/

theorem chainTail_chain (hs : Sized v) (h : Chain v c cs) (hn : cs.length ≤ n + 1) :
    ∃ A t, cs = A ++ [t] ∧ chainTail v c n = t := by
  induction h generalizing n with
  | @last c hw heoc =>
    refine ⟨[], c, rfl, ?_⟩
    cases n with
    | zero => rfl
    | succ n =>
      unfold chainTail
      dsimp only
      rw [fatEntryGet_within hw, if_pos (Or.inl heoc)]
  | @link c d cs hw hd htail ih =>
    have hdw := htail.within
    have hgo : ¬ (fatIsEoc v.kind d = true ∨ d < 2 ∨ d ≥ v.limit) := by
      rw [hdw.not_eoc hs]
      have hout := hdw.not_out
      simpa only [Bool.false_eq_true, false_or] using hout
    cases n with
    | zero =>
      obtain ⟨tail, rfl⟩ := htail.eq_cons
      simp only [List.length_cons] at hn
      omega
    | succ n =>
      obtain ⟨A, t, rfl, hres⟩ := @ih n (by rw [List.length_cons] at hn; omega)
      refine ⟨c :: A, t, rfl, ?_⟩
      unfold chainTail
      dsimp only
      rw [fatEntryGet_within hw, hd, if_neg hgo]
      exact hres

structure SameChain (v : Vol) (P : Plan) (v' : Vol) (P' : Plan) (r : Nat) : Prop where
  chain : P'.chain r = P.chain r
  data : ∀ c ∈ P.chain r, v'.data c = v.data c

theorem SameChain.trans {v'' : Vol} {P'' : Plan} (h : SameChain v P v' P' r) (h' : SameChain v' P' v'' P'' r) :
    SameChain v P v'' P'' r :=
  ⟨h'.chain.trans h.chain, fun c hc => (h'.data c (by rw [h.chain]; exact hc)).trans (h.data c hc)⟩

structure Grown (v : Vol) (P : Plan) (v' : Vol) (P' : Plan) (p : Nat) : Prop where
  form : SameForm v v'
  dirs : P'.dirs = P.dirs
  lost : P'.lost = P.lost
  rank : P'.rank = P.rank
  entries : ∀ d, entriesOf (P'.views d) = entriesOf (P.views d)
  same : ∀ r ∈ P.lost ++ P.kept v, r ≠ p → SameChain v P v' P' r

theorem Grown.reals (h : Grown v P v' P' p) (d : Nat) : P'.reals d = P.reals d := by
  unfold Plan.reals realsOf
  rw [h.entries]

theorem Grown.kept (h : Grown v P v' P' p) : P'.kept v = P.kept v := by
  unfold Plan.kept Plan.refs
  rw [h.dirs]
  refine congrArg (rootRefs v ++ ·) (List.flatMap_congr fun d _ => ?_)
  rw [h.reals]

def blankView (v : Vol) (b : Block) : View := { block := b, items := [], free := slotsOf v b }

theorem blankView_of {b : Block} (hz : blockAt v b = zeros) : (blankView v b).Of v := by
  refine ⟨fun j s hs => ?_, ?_, fun ent hent => absurd hent List.not_mem_nil⟩
  · unfold View.slots blankView at hs
    dsimp only at hs
    rw [List.flatMap_nil, List.nil_append] at hs
    obtain ⟨-, rfl⟩ := List.getElem?_eq_some_iff.mp hs
    rw [List.getElem_replicate]
    have hzero : blockAt v (blankView v b).block = zeros := hz
    rw [hzero]
    rfl
  · unfold View.slots blankView
    rw [List.flatMap_nil, List.nil_append, List.length_replicate]

def emptyView (v : Vol) (c : Nat) : View := { block := .cluster c, items := [], free := slotsOf v (.cluster c) }

theorem emptyView_of (hz : v.data c = zeros) : (emptyView v c).Of v := @blankView_of v (.cluster c) hz

theorem Tree.extend (h : Tree v P) (hp : p ∈ P.dirs) (hkept : p ∈ P.kept v) (hform : SameForm v v')
    (hfree : v.fat c = 0) (hblock : ∀ b, b ≠ .cluster c → blockAt v' b = blockAt v b) (hzero : v'.data c = zeros)
    (hown : Owned v' (Function.update P.chain p (P.chain p ++ [c])) (P.lost ++ P.kept v)) :
    ∃ P', Tree v' P' ∧ Grown v P v' P' p ∧ P'.views p = P.views p ++ [emptyView v' c] := by
  obtain ⟨chain', hchain'⟩ : ∃ chain', Function.update P.chain p (P.chain p ++ [c]) = chain' := ⟨_, rfl⟩
  obtain ⟨views', hviews'⟩ : ∃ views', Function.update P.views p (P.views p ++ [emptyView v' c]) = views' := ⟨_, rfl⟩
  rw [hchain'] at hown
  have hcp : chain' p = P.chain p ++ [c] := by rw [← hchain', Function.update_self]
  have hcd : ∀ d, d ≠ p → chain' d = P.chain d := fun d hd => by rw [← hchain', Function.update_of_ne hd]
  have hvp : views' p = P.views p ++ [emptyView v' c] := by rw [← hviews', Function.update_self]
  have hvd : ∀ d, d ≠ p → views' d = P.views d := fun d hd => by rw [← hviews', Function.update_of_ne hd]
  have hentries : ∀ d, entriesOf (views' d) = entriesOf (P.views d) := by
    intro d
    by_cases hd : d = p
    · rw [hd, hvp, entriesOf_append]
      exact List.append_nil _
    · rw [hvd d hd]
  have hold : ∀ d ∈ P.dirs, ∀ b ∈ blocksOf v P.chain d, blockAt v' b = blockAt v b := by
    intro d hd b hb
    refine hblock b ?_
    rintro rfl
    exact h.block_free hd hfree hb
  have hlaid : ∀ d ∈ P.dirs, Laid v' chain' d (views' d) := by
    intro d hd
    by_cases hdp : d = p
    · subst hdp
      have hld := h.laid d hd
      rw [hvp]
      refine ⟨?_, fun w hw => ?_, ?_⟩
      · rw [hform.blocksOf, List.map_append, hld.blocks, blocksOf, blocksOf, if_neg (h.not_area hkept),
          if_neg (h.not_area hkept), hcp, List.map_append]
        rfl
      · rcases List.mem_append.mp hw with hw | hw
        · refine (hld.views w hw).transport hform (hold d hd w.block ?_)
          rw [← hld.blocks]
          exact List.mem_map_of_mem hw
        · rw [List.mem_singleton.mp hw]
          exact emptyView_of hzero
      · refine List.pairwise_append.mpr ⟨hld.tidy, List.pairwise_singleton _ _, fun x _ y hy _ => ?_⟩
        rw [List.mem_singleton.mp hy]
        rfl
    · rw [hvd d hdp]
      exact (h.laid d hd).transport hform (hcd d hdp) (hold d hd)
  have hgrown : Grown v P v' { P with chain := chain', views := views' } p := by
    refine ⟨hform, rfl, rfl, rfl, hentries, fun r hr hrp => ⟨hcd r hrp, fun x hx => ?_⟩⟩
    refine hblock (.cluster x) fun heq => ?_
    obtain rfl : x = c := Block.cluster.inj heq
    exact h.owned.not_mem_of_free (table_free hfree) hr hx
  refine ⟨_, ⟨hform.formed h.formed, ?_, hlaid, ?_, fun d hd e he => ?_, ?_, fun q hq d hd => ?_⟩, hgrown, hvp⟩
  · rw [hform.kept, hgrown.kept]
    exact hown
  · rw [hform.root]
    refine h.forest.congr (List.Perm.refl _) fun q _ => ?_
    unfold Plan.kids
    rw [hgrown.reals]
  · rw [hgrown.reals] at he
    have hs := h.sound d hd e he
    have hlen : (P.chain e.short.first).length ≤ (chain' e.short.first).length := by
      by_cases hfp : e.short.first = p
      · rw [hfp, hcp, List.length_append]
        exact Nat.le_add_right _ _
      · rw [hcd _ hfp]
    refine ⟨hs.proper, hs.dir, fun hfile h2 => ?_⟩
    rw [hform.dataClusters]
    exact Nat.le_trans (hs.need hfile h2) hlen
  · rw [hform.root]
    have hroot := h.rootDots
    unfold Plan.dots dotsOf at hroot ⊢
    rw [hentries]
    exact hroot
  · have hdq : d ∈ P.kids q := by
      unfold Plan.kids at hd ⊢
      rwa [hgrown.reals] at hd
    have hdots := h.dots q hq d hdq
    unfold Plan.dots dotsOf at hdots ⊢
    rw [hentries]
    exact hdots

theorem Tree.growDir (h : Tree v P) (hp : p ∈ P.dirs) (h2 : 2 ≤ p) :
    (∃ v', growDir v p = (none, v') ∧ OnlyFat v v' ∧ Tree v' P) ∨
      ∃ v' c P', growDir v p = (some (.cluster c, 0), v') ∧ Tree v' P' ∧ Grown v P v' P' p ∧
        P'.views p = P.views p ++ [emptyView v' c] := by
  have hkept : p ∈ P.kept v := (h.dir_cases hp).resolve_left fun hno => by omega
  have hheads : p ∈ P.lost ++ P.kept v := mem_heads hkept
  have hchain := h.owned.chain_of hheads
  have hlen : (P.chain p).length ≤ v.limit + 1 := by
    have hle := h.owned.length_le hheads
    unfold Vol.limit
    omega
  obtain ⟨A, t, hcs, htail⟩ := chainTail_chain h.formed.sized hchain hlen
  have ht : Within v t := hchain.all_within t (by rw [hcs]; exact List.mem_append_right A List.mem_cons_self)
  obtain ⟨c, hint, halloc, hcase⟩ := fatAllocCluster_spec v
  unfold Fat.growDir
  rw [htail, halloc]
  dsimp only
  by_cases hzero : c = 0
  · rw [if_pos hzero]
    refine Or.inl ⟨_, rfl, ⟨v.fat, hint, rfl⟩, ?_⟩
    exact h.reown ⟨rfl, rfl, rfl⟩ (fun _ _ => rfl) (fun _ _ b _ => by cases b <;> rfl) (h.owned.congr rfl rfl rfl)
  · refine Or.inr ?_
    rw [if_neg hzero]
    obtain ⟨hw, hfree⟩ := hcase.resolve_left hzero
    have hwt : Within { v with hint := hint } t := ht
    rw [fatEntrySet_within hwt]
    dsimp only
    have hwc : Within { v with hint := hint, fat := fun i => if i = t then c % v.kind.size else v.fat i } c := hw
    rw [fatEntrySet_within hwc]
    dsimp only
    unfold fatWriteCluster
    generalize hv1 : ({ v with
      fat := fun i => if i = c then fatEocVal v.kind % v.kind.size else if i = t then c % v.kind.size else v.fat i,
      hint := hint } : Vol) = v1
    have honly : OnlyFat v v1 := ⟨_, _, hv1.symm⟩
    have hfat : ∀ i, v1.fat i = if i = c then fatEocVal v.kind else if i = t then c else v.fat i := by
      intro i
      rw [← hv1]
      dsimp only
      rw [eocVal_mod, Nat.mod_eq_of_lt (hw.lt_size h.formed.sized)]
    have hform : SameForm v (fatWriteBlock v1 (.cluster c) zeros) := honly.sameForm.trans sameForm_write
    have hown := h.owned.extend h.formed.sized hform.kind hform.info hheads hcs hw hfree fun i => by
      rw [fat_write]
      exact hfat i
    rw [if_neg ((within_congr honly.sameForm.info).mpr hw).not_out]
    obtain ⟨P', htree, hgrown, hviews⟩ := h.extend hp hkept hform hfree
      (fun b hb => (blockAt_write_of_ne hb).trans (honly.blockAt b))
      (if_pos rfl) hown
    exact ⟨_, c, P', rfl, htree, hgrown, hviews⟩

def Spot (P : Plan) (p need : Nat) (b : Block) (i : Nat) : Prop :=
  ∃ ws w ws' A B free', P.views p = ws ++ w :: ws' ∧ w.block = b ∧ (∀ x ∈ ws, x.free = 0) ∧
    Room need w.items w.free i A B free'

theorem Formed.slots_le (h : Formed v) (c : Nat) : 16 ≤ slotsOf v (.cluster c) := by
  have hspc := h.cluster
  have hbytes : 512 ≤ v.clusterSize := by
    rw [Vol.clusterSize, h.sector]
    exact Nat.le_mul_of_pos_right 512 hspc
  have hslots : 16 ≤ v.clusterSize / 32 := by omega
  exact hslots

theorem Tree.findSlots (h : Tree v P) (hp : p ∈ P.dirs) (hneed : 0 < need) (hfit : need ≤ 16)
    (hno : ¬ SkipsEnd v p need) :
    (∃ v', fatFindFreeSlots v p need = (none, v') ∧ OnlyFat v v' ∧ Tree v' P) ∨
      ∃ v' P' b i, fatFindFreeSlots v p need = (some (b, i), v') ∧ Tree v' P' ∧ Grown v P v' P' p ∧
        Spot P' p need b i := by
  have hlaid := h.laid p hp
  have hblocks : dirBlocks v p = (P.views p).map View.block := by rw [h.dirBlocks_eq hp, hlaid.blocks]
  have hfree : (¬ ∃ b ∈ passedOver v need (dirBlocks v p), HasEnd v b) →
      ∀ x ∈ P.views p, x.block ∈ passedOver v need (dirBlocks v p) → x.free = 0 :=
    fun hend x hx hpass => (hlaid.views x hx).free_eq_zero fun hx' => hend ⟨x.block, hpass, hx'⟩
  unfold fatFindFreeSlots
  rw [hblocks]
  unfold SkipsEnd at hno
  rw [hblocks] at hno hfree
  rcases searchSlots_views h.formed.readable need (P.views p) with ⟨hnone, hpass⟩ | ⟨A, w, B, i, hsplit, hsome, hpass,
    hrun⟩
  · rw [hnone]
    dsimp only
    by_cases h2 : p ≥ 2
    · rw [if_pos h2]
      rcases h.growDir hp h2 with ⟨v', hgrow, honly, htree⟩ | ⟨v', c, P', hgrow, htree, hgrown, hviews⟩
      · exact Or.inl ⟨v', hgrow, honly, htree⟩
      · have hzero : ∀ x ∈ P.views p, x.free = 0 := by
          refine fun x hx => hfree (fun hend => hno ⟨Or.inl h2, hend⟩) x hx ?_
          rw [hpass]
          exact List.mem_map_of_mem hx
        have hroom : need ≤ slotsOf v' (.cluster c) := Nat.le_trans hfit (htree.formed.slots_le c)
        exact Or.inr ⟨v', P', .cluster c, 0, hgrow, htree, hgrown, P.views p, emptyView v' c, [], [], [], _, hviews, rfl,
          hzero, room_of_empty hroom⟩
    · rw [if_neg h2]
      exact Or.inl ⟨v, rfl, .refl v, h⟩
  · rw [hsome]
    have hw : w ∈ P.views p := by
      rw [hsplit]
      exact List.mem_append_right A List.mem_cons_self
    have hrun' : (freeRun (blockAt v w.block) need 0 0 (slotsOf v w.block)).isSome = true := by
      rw [hrun]
      rfl
    have hzero : ∀ x ∈ A, x.free = 0 := by
      intro x hx
      have hxp : x ∈ P.views p := by
        rw [hsplit]
        exact List.mem_append_left _ hx
      refine hfree (fun hend => hno ⟨Or.inr ⟨w.block, List.mem_map_of_mem hw, hrun'⟩, hend⟩) x hxp ?_
      rw [hpass]
      exact List.mem_map_of_mem hx
    obtain ⟨A', B', free', hroom⟩ := (hlaid.views w hw).room hneed hrun
    refine Or.inr ⟨v, P, w.block, i, rfl, h, ⟨.refl v, rfl, rfl, rfl, fun _ => rfl, fun _ _ _ => ⟨rfl, fun _ _ => rfl⟩⟩,
      A, w, B, A', B', free', hsplit, rfl, hzero, hroom⟩

theorem Tree.write_entry (h : Tree v P) (hp : p ∈ P.dirs) {i : Nat} (hspot : Spot P p need b i)
    (hfits : e.Fits v.kind) (hlen : e.slots.length = need) {leaf : Str} (hlong : ∀ l, e.long = some l → l = leaf)
    (stamp : U16 × U16) :
    ∃ v' ws, writeDirEntries v (b, i) leaf e.short.sn e.lead.length
        (if e.short.isDir then attrDirectory else attrArchive) e.short.first e.short.size stamp = (true, v') ∧
      SameForm v v' ∧ v'.fat = v.fat ∧ (∀ b', b' ∉ blocksOf v P.chain p → blockAt v' b' = blockAt v b') ∧
      Laid v' P.chain p ws ∧ (entriesOf ws).Perm (e :: entriesOf (P.views p)) := by
  obtain ⟨ws, w, ws', A, B, free', hviews, rfl, hzero, hroom⟩ := hspot
  subst hlen
  have hlaid := h.laid p hp
  rw [hviews] at hlaid
  have hw : w ∈ ws ++ w :: ws' := List.mem_append_right ws List.mem_cons_self
  have hwof := hlaid.views w hw
  have hnd := h.blocks_nodup hp
  obtain ⟨blk, hrun, hreads, hkeep⟩ := writeDirEntries_entry h.formed.readable hfits hlong (hwof.room_le hroom)
  have hnew := hwof.insert hroom hfits.toOk hreads hkeep
  have hlaid' := hlaid.replace hnd hnew rfl (hlaid.tidy.replace hzero hroom.free_le)
  refine ⟨_, _, hrun, sameForm_write, fat_write, fun b' hb' => blockAt_write_of_ne ?_, hlaid', ?_⟩
  · rintro rfl
    apply hb'
    rw [← hlaid.blocks]
    exact List.mem_map_of_mem hw
  · rw [hviews]
    refine entriesOf_replace ?_
    rw [hroom.live, List.reduceOption_append, List.reduceOption_cons_of_some]
    exact List.perm_middle

end Ezos.Fat
