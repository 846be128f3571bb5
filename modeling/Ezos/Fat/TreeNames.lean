import Ezos.Fat.Naming

/-!
# A new name in a directory

An entry for a file whose data is stored, or for a directory whose cluster is written. When there is no room the
chain is given back.
-/

namespace Ezos.Fat

open Lib.Memory Lib.Chains Lib.Forests

set_option autoImplicit false

variable {v v' : Vol} {P P' : Plan} {d p c r first size lfn : Nat} {e : Entry} {leaf sn : Str}
  {found : Nat → Str → Bool} {lost : List Nat} {stamp : U16 × U16} {f : Frame}

theorem FitsEntry.of_lt_size (k : Kind) (h : c < k.size) : FitsEntry k c := by
  unfold FitsEntry
  cases k <;> simp only [Kind.size, reduceCtorEq, if_true, if_false] at h ⊢ <;> omega

theorem Tree.dir_fits (h : Tree v P) (hd : d ∈ P.dirs) : FitsEntry v.kind d := by
  refine FitsEntry.of_lt_size v.kind ?_
  rcases h.dir_cases hd with hzero | hkept
  · rw [hzero.1]
    cases v.kind <;> decide
  · exact (h.within hkept).lt_size h.formed.sized

structure Entered (v : Vol) (P : Plan) (v' : Vol) (P' : Plan) (p : Nat) (e : Entry) (lost : List Nat) : Prop where
  tree : Tree v' P'
  form : SameForm v v'
  here : (entriesOf (P'.views p)).Perm (e :: entriesOf (P.views p))
  others : ∀ d ∈ P.dirs, d ≠ p → entriesOf (P'.views d) = entriesOf (P.views d)
  dirs : P'.dirs = (if e.short.isDir then [e.short.first] else []) ++ P.dirs
  lost : P'.lost = lost
  same : ∀ r ∈ P.lost ++ P.kept v, r ≠ p → SameChain v P v' P' r

theorem Tree.drop (h : Tree v P) (hlost : P.lost = first :: lost) :
    OnlyFat v (dropChain v first) ∧ Tree (dropChain v first) { P with lost := lost } := by
  have hown := h.owned
  rw [hlost, List.cons_append] at hown
  obtain ⟨honly, hrest⟩ := hown.drop h.formed.sized
  exact ⟨honly, h.reown honly.sameForm (fun _ _ => rfl) (fun _ _ b _ => honly.blockAt b) hrest⟩

structure Claims (v : Vol) (P : Plan) (first : Nat) (lost : List Nat) : Prop where
  lost : P.lost = (if 2 ≤ first then [first] else []) ++ lost
  fits : FitsEntry v.kind first

theorem Tree.drop_claimed (h : Tree v P) (hc : Claims v P first lost) :
    OnlyFat v (dropChain v first) ∧ Tree (dropChain v first) { P with lost := lost } := by
  have hl := hc.lost
  by_cases h2 : 2 ≤ first
  · rw [if_pos h2] at hl
    exact h.drop hl
  · rw [if_neg h2, List.nil_append] at hl
    rw [dropChain_none (Nat.lt_of_not_le h2), ← hl]
    exact ⟨.refl v, h⟩

theorem Tree.enter_cases (h : Tree v P) (hp : p ∈ P.dirs) (hprep : prepareNames found leaf = some (sn, lfn))
    (hleaf : Leaf leaf) (hno : ¬ SkipsEnd v p (1 + lfn)) (isDir : Bool) (hsize : size < 2 ^ 32)
    (hc : Claims v P first lost) (stamp : U16 × U16) :
    (∃ v', enterName v p leaf sn lfn (if isDir then attrDirectory else attrArchive) first size stamp = (false, v') ∧
        OnlyFat v v' ∧ Tree v' { P with lost := lost }) ∨
      ∃ v1 P1 v' ws, enterName v p leaf sn lfn (if isDir then attrDirectory else attrArchive) first size stamp =
          (true, v') ∧ Tree v1 P1 ∧ Grown v P v1 P1 p ∧ SameForm v1 v' ∧ v'.fat = v1.fat ∧
        (∀ b, b ∉ blocksOf v1 P1.chain p → blockAt v' b = blockAt v1 b) ∧ Laid v' P1.chain p ws ∧
        (entriesOf ws).Perm (newEntry leaf sn lfn isDir first size :: entriesOf (P1.views p)) := by
  have hlead := @newEntry_lead sn leaf found lfn isDir first size hprep hleaf
  have hok := @newEntry_ok sn leaf found lfn isDir first size hprep hleaf
  have hslots : (newEntry leaf sn lfn isDir first size).slots.length = 1 + lfn := by
    rw [length_slots, hlead, Nat.add_comm]
  have hten := lead_length_le hok
  rw [hlead] at hten
  unfold enterName
  rcases h.findSlots hp (Nat.add_pos_left Nat.one_pos lfn) (by omega) hno with ⟨v1, hfind, honly, htree⟩ |
    ⟨v1, P1, b, i, hfind, htree, hgrown, hspot⟩
  · rw [hfind]
    have hc1 : Claims v1 P first lost := ⟨hc.lost, by rw [honly.sameForm.kind]; exact hc.fits⟩
    obtain ⟨honly', htree'⟩ := htree.drop_claimed hc1
    exact Or.inl ⟨_, rfl, honly.trans honly', htree'⟩
  · rw [hfind]
    have hp1 : p ∈ P1.dirs := by
      rw [hgrown.dirs]
      exact hp
    have hfits : (newEntry leaf sn lfn isDir first size).Fits v1.kind := by
      refine newEntry_fits hprep hleaf ?_ hsize
      rw [hgrown.form.kind]
      exact hc.fits
    obtain ⟨v', ws, hwrite, hform, hfat, hother, hlaid, hperm⟩ :=
      htree.write_entry hp1 hspot hfits hslots (fun l hl => newEntry_long hl) stamp
    rw [hlead] at hwrite
    have hwrite' : writeDirEntries v1 (b, i) leaf sn lfn (if isDir then attrDirectory else attrArchive) first size
        stamp = (true, v') := hwrite
    dsimp only
    rw [hwrite']
    exact Or.inr ⟨v1, P1, v', ws, rfl, htree, hgrown, hform, hfat, hother, hlaid, hperm⟩

theorem Tree.same_written (h : Tree v P) (hp : p ∈ P.dirs) (hchain : P'.chain = P.chain)
    (hother : ∀ b, b ∉ blocksOf v P.chain p → blockAt v' b = blockAt v b) (hr : r ∈ P.lost ++ P.kept v) (hne : r ≠ p) :
    SameChain v P v' P' r :=
  ⟨by rw [hchain], fun c hc => hother (.cluster c) (h.block_outside hp hr hne hc)⟩

theorem Tree.enter_file (h : Tree v P) (hp : p ∈ P.dirs) (hprep : prepareNames found leaf = some (sn, lfn))
    (hleaf : Leaf leaf) (hdot : isDotName leaf = false) (hno : ¬ SkipsEnd v p (1 + lfn)) (hsize : size < 2 ^ 32)
    (hc : Claims v P first lost) (hneed : 2 ≤ first → dataClusters v size ≤ (P.chain first).length)
    (stamp : U16 × U16) :
    (∃ v', enterName v p leaf sn lfn attrArchive first size stamp = (false, v') ∧
        OnlyFat v v' ∧ Tree v' { P with lost := lost }) ∨
      ∃ v' P', enterName v p leaf sn lfn attrArchive first size stamp = (true, v') ∧
        Entered v P v' P' p (newEntry leaf sn lfn false first size) lost := by
  rcases h.enter_cases hp hprep hleaf hno false hsize hc stamp with hfail | ⟨v1, P1, v', ws, hrun, htree, hgrown, hform,
    hfat, hother, hlaid, hperm⟩
  · exact Or.inl hfail
  refine Or.inr ⟨v', { P1 with views := Function.update P1.views p ws, lost := lost }, hrun, ?_⟩
  have hp1 : p ∈ P1.dirs := by
    rw [hgrown.dirs]
    exact hp
  have hself : Function.update P1.views p ws p = ws := Function.update_self _ _ _
  have hne : ∀ d, d ≠ p → Function.update P1.views p ws d = P1.views d := fun d hd => Function.update_of_ne hd _ _
  have hmore : More P1 { P1 with views := Function.update P1.views p ws, lost := lost } p
      (newEntry leaf sn lfn false first size) := by
    refine ⟨hp1, ?_, newEntry_real hprep hleaf, fun d _ hd => hne d hd⟩
    dsimp only
    rw [hself]
    exact hperm
  have hsound : (newEntry leaf sn lfn false first size).Sound v1 P1.chain := by
    refine ⟨fun name hs => newEntry_proper hprep hleaf hdot hs, fun hdir => by contradiction, fun _ h2 => ?_⟩
    have hfirst : first ∈ P.lost ++ P.kept v := by
      have h2' : 2 ≤ first := h2
      rw [hc.lost, if_pos h2']
      exact List.mem_cons_self
    have hfp : first ≠ p := by
      have h2' : 2 ≤ first := h2
      have hfl : first ∈ P.lost := by
        rw [hc.lost, if_pos h2']
        exact List.mem_cons_self
      exact h.lost_not_dir hfl hp
    have hlen := hneed h2
    rw [← (hgrown.same first hfirst hfp).chain] at hlen
    rw [hgrown.form.dataClusters]
    exact hlen
  have hlost : P1.lost.Perm ((newEntry leaf sn lfn false first size).own ++ lost) := by
    rw [hgrown.lost, hc.lost]
    exact List.Perm.refl _
  have htree' := htree.add_file hmore hform hfat rfl rfl rfl hlost
    (htree.laid_edit hp1 hform hother hlaid) rfl hsound
  refine ⟨htree', hgrown.form.trans hform, ?_, fun d _ hd => ?_, hgrown.dirs, rfl, fun r hr hrp => ?_⟩
  · have hentries := hmore.entries
    rwa [hgrown.entries] at hentries
  · have hd' := congrArg entriesOf (hne d hd)
    rwa [hgrown.entries] at hd'
  · refine (hgrown.same r hr hrp).trans (htree.same_written hp1 rfl hother ?_ hrp)
    rw [hgrown.lost, hgrown.form.kept, hgrown.kept]
    exact hr

/-! ## A new directory -/

/-- What `fat_mkdir` puts into the first cluster. -/
def dotsView (v : Vol) (c parent : Nat) : View :=
  { block := .cluster c, items := [some (dotEntry c), some (dotDotEntry parent)], free := slotsOf v (.cluster c) - 2 }

theorem dots_ok {sn : Str} (h : sn = dotName ∨ sn = dotDotName) : sn.length = 11 ∧ (∀ c ∈ sn, c ≠ 0 ∧ c ≠ 0x05) ∧
    sn.getD 0 0 ≠ 0x00 ∧ sn.getD 0 0 ≠ deletedEntry := by
  rcases h with rfl | rfl <;> decide

theorem dotsView_of (hf : Formed v) (hc : FitsEntry v.kind c) (hp : FitsEntry v.kind p)
    (hdata : v.data c = dirCluster v.kind c p f) : (dotsView v c p).Of v := by
  have h16 := hf.slots_le c
  obtain ⟨hlen1, hbytes1, hlast1, hgone1⟩ := dots_ok (Or.inl rfl)
  obtain ⟨hlen2, hbytes2, hlast2, hgone2⟩ := dots_ok (Or.inr rfl)
  have hblk : blockAt v (dotsView v c p).block = dirCluster v.kind c p f := hdata
  have hfirst : readSlot v.kind (slotAt (dirCluster v.kind c p f) 0) = .short (dotEntry c).short := by
    rw [readSlot_congr fun x hx => ?_]
    · exact @readSlot_shortEntry v.kind dotName c 0 (f.clock 0) true hlen1 hlast1 hgone1 hc (by decide)
    · unfold dirCluster
      rw [slotAt_put_of_ne _ _ Nat.zero_ne_one hx]
      exact slotAt_put zeros 0 _ hx
  have hsecond : readSlot v.kind (slotAt (dirCluster v.kind c p f) 1) = .short (dotDotEntry p).short := by
    rw [readSlot_congr fun x hx => ?_]
    · exact @readSlot_shortEntry v.kind dotDotName p 0 (f.clock 1) true hlen2 hlast2 hgone2 hp (by decide)
    · exact slotAt_put _ 1 _ hx
  have hrest : ∀ j, 2 ≤ j → readSlot v.kind (slotAt (dirCluster v.kind c p f) j) = .last := by
    intro j hj
    have hzero : slotAt (dirCluster v.kind c p f) j 0 = 0x00 := by
      unfold dirCluster
      rw [slotAt_put_of_ne (i := 1) _ _ (by omega) (by omega), slotAt_put_of_ne (i := 0) _ _ (by omega) (by omega)]
      rfl
    exact if_pos hzero
  refine ⟨?_, ?_, fun ent hent => ?_⟩
  · rw [hblk]
    refine Reads.cons hfirst (Reads.cons hsecond fun j s hs => ?_)
    have hs' : (List.replicate (slotsOf v (.cluster c) - 2) Slot.last)[j]? = some s := hs
    obtain ⟨-, rfl⟩ := List.getElem?_eq_some_iff.mp hs'
    rw [List.getElem_replicate]
    exact hrest _ (by omega)
  · have hslots : (dotsView v c p).slots.length = 2 + (slotsOf v (.cluster c) - 2) := by
      unfold View.slots dotsView
      rw [List.length_append, List.length_replicate]
      rfl
    rw [hslots]
    have hsum : 2 + (slotsOf v (.cluster c) - 2) = slotsOf v (.cluster c) := by omega
    exact hsum
  · have hcase : ent = dotEntry c ∨ ent = dotDotEntry p := by
      have hmem : some ent ∈ [some (dotEntry c), some (dotDotEntry p)] := hent
      simpa using hmem
    rcases hcase with rfl | rfl
    · exact ⟨hlen1, hbytes1, fun name hn => by contradiction⟩
    · exact ⟨hlen2, hbytes2, fun name hn => by contradiction⟩

theorem Tree.enter_dir (h : Tree v P) (hp : p ∈ P.dirs) (hprep : prepareNames found leaf = some (sn, lfn))
    (hleaf : Leaf leaf) (hdot : isDotName leaf = false) (hno : ¬ SkipsEnd v p (1 + lfn)) (hlost : P.lost = c :: lost)
    (hchain : P.chain c = [c]) (hdata : v.data c = dirCluster v.kind c p f) (stamp : U16 × U16) :
    (∃ v', enterName v p leaf sn lfn attrDirectory c 0 stamp = (false, v') ∧
        OnlyFat v v' ∧ Tree v' { P with lost := lost }) ∨
      ∃ v' P', enterName v p leaf sn lfn attrDirectory c 0 stamp = (true, v') ∧
        Entered v P v' P' p (newEntry leaf sn lfn true c 0) lost ∧ P'.views c = [dotsView v' c p] := by
  have hcl : c ∈ P.lost := by
    rw [hlost]
    exact List.mem_cons_self
  have hheads : c ∈ P.lost ++ P.kept v := List.mem_append_left _ hcl
  have hw := h.owned.within hheads
  have hcp : c ≠ p := h.lost_not_dir hcl hp
  have hcfits : FitsEntry v.kind c := FitsEntry.of_lt_size v.kind (hw.lt_size h.formed.sized)
  have hclaims : Claims v P c lost := ⟨by rw [if_pos hw.1, hlost]; rfl, hcfits⟩
  rcases @enter_cases v P p c 0 lfn leaf sn found lost h hp hprep hleaf hno true (by decide) hclaims stamp with hfail |
    ⟨v1, P1, v', ws, hrun, htree, hgrown, hform, hfat, hother, hlaid, hperm⟩
  · exact Or.inl hfail
  obtain ⟨views', hviews'⟩ : ∃ views', Function.update (Function.update P1.views p ws) c [dotsView v' c p] = views' :=
    ⟨_, rfl⟩
  have hvc : views' c = [dotsView v' c p] := by rw [← hviews', Function.update_self]
  have hvp : views' p = ws := by rw [← hviews', Function.update_of_ne hcp.symm, Function.update_self]
  have hvd : ∀ d, d ≠ c → views' d = Function.update P1.views p ws d := by
    intro d hd
    rw [← hviews', Function.update_of_ne hd]
  have hp1 : p ∈ P1.dirs := by
    rw [hgrown.dirs]
    exact hp
  have hc1 : c ∉ P1.dirs := by
    rw [hgrown.dirs]
    exact fun hcd => h.lost_not_dir hcl hcd rfl
  have hne : ∀ d ∈ P1.dirs, d ≠ p → views' d = P1.views d := by
    intro d hd hdp
    rw [hvd d (ne_of_mem_of_not_mem hd hc1), Function.update_of_ne hdp]
  obtain ⟨P', hP'⟩ : ∃ P' : Plan,
      P' = ⟨c :: P1.dirs, views', P1.chain, Function.update P1.rank c (P1.rank p + 1), lost⟩ := ⟨_, rfl⟩
  have hmore : More P1 P' p (newEntry leaf sn lfn true c 0) := by
    rw [hP']
    refine ⟨hp1, ?_, newEntry_real hprep hleaf, hne⟩
    dsimp only
    rw [hvp]
    exact hperm
  have hsame := hgrown.same c hheads hcp
  have hchain1 : P1.chain c = [c] := hsame.chain.trans hchain
  have hheads1 : c ∈ P1.lost ++ P1.kept v1 := by
    rw [hgrown.lost, hgrown.form.kept, hgrown.kept]
    exact hheads
  have hblock : Block.cluster c ∉ blocksOf v1 P1.chain p := by
    refine htree.block_outside hp1 hheads1 hcp ?_
    rw [hchain1]
    exact List.mem_cons_self
  have hdata' : v'.data c = dirCluster v'.kind c p f := by
    have hkeep : v'.data c = v1.data c := hother (.cluster c) hblock
    rw [hkeep, hsame.data c (by rw [hchain]; exact List.mem_cons_self), hdata, hform.kind, hgrown.form.kind]
  have hkinds : v'.kind = v.kind := hform.kind.trans hgrown.form.kind
  have hview : (dotsView v' c p).Of v' := by
    refine dotsView_of (hform.formed htree.formed) ?_ ?_ hdata'
    · rw [hkinds]
      exact hcfits
    · rw [hkinds]
      exact h.dir_fits hp
  have hnew : Laid v' P1.chain c (P'.views c) := by
    rw [hP']
    dsimp only
    rw [hvc]
    refine ⟨?_, fun w hw => ?_, List.pairwise_singleton _ _⟩
    · have hzero : ¬ (c = 0 ∧ v'.kind ≠ .fat32) := fun hno => by
        have h2 := hw.1
        omega
      rw [blocksOf, if_neg hzero, hchain1]
      rfl
    · rw [List.mem_singleton.mp hw]
      exact hview
  have hentries : entriesOf (P'.views c) = [dotEntry c, dotDotEntry p] := by
    rw [hP']
    dsimp only
    rw [hvc]
    rfl
  have hreals : P'.reals c = [] := by
    unfold Plan.reals realsOf
    rw [hentries]
    rfl
  have hdots : (P'.dots c).Perm [dotEntry c, dotDotEntry p] := by
    unfold Plan.dots dotsOf
    rw [hentries]
    exact List.Perm.refl _
  have hsound : (newEntry leaf sn lfn true c 0).Sound v1 P1.chain :=
    ⟨fun name hs => newEntry_proper hprep hleaf hdot hs, fun _ => hw.1, fun hfile => by contradiction⟩
  have hlaid' : ∀ d ∈ P1.dirs, Laid v' P1.chain d (P'.views d) := by
    intro d hd
    have hedit := htree.laid_edit hp1 hform hother hlaid d hd
    rw [hP']
    dsimp only
    rw [hvd d (ne_of_mem_of_not_mem hd hc1)]
    exact hedit
  have hlost1 : P1.lost.Perm (c :: P'.lost) := by
    rw [hgrown.lost, hlost, hP']
  have hdirs' : P'.dirs = c :: P1.dirs := by rw [hP']
  have hrank' : P'.rank = Function.update P1.rank c (P1.rank p + 1) := by rw [hP']
  have htree' : Tree v' P' := @add_dir v1 v' P1 p c _ P' htree hmore hform hfat rfl rfl hw.1 hdirs' (by rw [hP']) hrank'
    hlost1 hlaid' hnew hreals hdots hsound
  refine Or.inr ⟨v', P', hrun, ⟨htree', hgrown.form.trans hform, ?_, fun d hd hdp => ?_, ?_, ?_, fun r hr hrp => ?_⟩, ?_⟩
  · have hentries := hmore.entries
    rwa [hgrown.entries] at hentries
  · rw [hP']
    have hd' := congrArg entriesOf (hne d (by rw [hgrown.dirs]; exact hd) hdp)
    rwa [hgrown.entries] at hd'
  · rw [hP', ← hgrown.dirs]
    rfl
  · rw [hP']
  · refine (hgrown.same r hr hrp).trans (htree.same_written hp1 (by rw [hP']) hother ?_ hrp)
    rw [hgrown.lost, hgrown.form.kept, hgrown.kept]
    exact hr
  · rw [hP']
    exact hvc

end Ezos.Fat

/-!
# A name less in a directory

The chain is freed first and then the entry is marked. A directory counts as empty when it has no entry other than
'.' and '..'.
-/

namespace Ezos.Fat

open Lib.Memory Lib.Chains Lib.Forests

variable {v v' v1 : Vol} {P P' : Plan} {d p c r i j : Nat} {e : Entry} {b b' : Block} {blk : Mem} {items : List Item}
  {ws : List View} {de : Dirent} {junk : Junk}

theorem write_onlyFat (h : OnlyFat v v1) : OnlyFat (fatWriteBlock v b blk) (fatWriteBlock v1 b blk) := by
  obtain ⟨fat, hint, rfl⟩ := h
  cases b <;> exact ⟨fat, hint, rfl⟩

theorem Tree.erase (h : Tree v P) (hp : p ∈ P.dirs) (hq : (b, i, e) ∈ (P.views p).flatMap View.placed)
    (hb : de.block = b) (hi : de.slot = i) (honly : OnlyFat v v1) :
    ∃ blk ws, eraseEntry v1 de = (true, fatWriteBlock v1 b blk) ∧ Laid (fatWriteBlock v b blk) P.chain p ws ∧
      b ∈ blocksOf v P.chain p ∧ (entriesOf (P.views p)).Perm (e :: entriesOf ws) := by
  obtain ⟨w, hw, hqw⟩ := List.mem_flatMap.mp hq
  obtain ⟨rfl, A, B, hitems, hplace⟩ := mem_placed hqw
  obtain ⟨ws, ws', hviews⟩ := List.append_of_mem hw
  have hlaid := h.laid p hp
  have hwof := hlaid.views w hw
  rw [Nat.zero_add] at hplace
  obtain ⟨hlt, hnew⟩ := hwof.erase hitems hplace
  have hread : ∀ b, v1.unreadable b = false := by
    rw [honly.sameForm.unreadable]
    exact h.formed.readable
  have hlt1 : i < slotsOf v1 w.block := by
    rw [slotsOf_congr honly.sameForm.info]
    exact hlt
  have hmem : w.block ∈ blocksOf v P.chain p := by
    rw [← hlaid.blocks]
    exact List.mem_map_of_mem hw
  have hfree : ∀ x ∈ ws, x.free = 0 := by
    intro x hx
    by_contra hne
    have htidy := hlaid.tidy
    rw [hviews] at htidy
    have hnil := (List.pairwise_append.mp htidy).2.2 x hx w List.mem_cons_self (Nat.pos_of_ne_zero hne)
    rw [hnil] at hitems
    exact absurd hitems.symm (List.append_ne_nil_of_right_ne_nil _ (List.cons_ne_nil _ _))
  have hlaid' := hlaid
  have htidy := hlaid.tidy
  rw [hviews] at hlaid' htidy
  refine ⟨_, _, ?_, hlaid'.replace (h.blocks_nodup hp) hnew rfl (htidy.replace hfree (Nat.le_refl _)), hmem, ?_⟩
  · unfold eraseEntry fatReadBlock
    unfold slotsOf at hlt1
    rw [hb, hi, if_neg (by omega), hread, if_neg Bool.false_ne_true, honly.blockAt]
  · rw [hviews]
    refine entriesOf_replace ?_
    rw [hitems, List.reduceOption_append, List.reduceOption_append, List.reduceOption_append, reduceOption_gaps,
      List.nil_append, List.reduceOption_cons_of_some]
    exact List.perm_middle

structure Removed (v : Vol) (P : Plan) (v' : Vol) (P' : Plan) (p : Nat) (e : Entry) : Prop where
  tree : Tree v' P'
  form : SameForm v v'
  here : (entriesOf (P.views p)).Perm (e :: entriesOf (P'.views p))
  others : ∀ d, d ≠ p → entriesOf (P'.views d) = entriesOf (P.views d)
  dirs : P.dirs.Perm ((if e.short.isDir then [e.short.first] else []) ++ P'.dirs)
  lost : P'.lost = P.lost
  same : ∀ r ∈ P.lost ++ P.kept v, r ≠ p → r ≠ e.short.first → SameChain v P v' P' r

theorem Tree.release (h : Tree v' P') (honly : OnlyFat v' v1) (hlost : P'.lost = e.own ++ P.lost)
    (hfat : ∀ i, v1.fat i = if i ∈ e.own.flatMap P'.chain then 0 else v'.fat i) :
    Tree v1 { P' with lost := P.lost } := by
  refine h.reown honly.sameForm (fun _ _ => rfl) (fun _ _ b _ => honly.blockAt b) ?_
  have hown := h.owned
  rw [hlost] at hown
  unfold Entry.own at hown hfat
  split at hown
  · rename_i h2
    rw [if_pos h2] at hfat
    refine Owned.release hown honly.sameForm.kind honly.sameForm.info fun i => ?_
    rw [hfat, List.flatMap_singleton]
  · rename_i h2
    rw [if_neg h2] at hfat
    refine Owned.congr hown honly.sameForm.kind honly.sameForm.info (funext fun i => ?_)
    rw [hfat]
    exact if_neg List.not_mem_nil

theorem Tree.own_chain (h : Tree v P) (hp : p ∈ P.dirs) (he : e ∈ P.reals p) :
    OnlyFat v (dropChain v e.short.first) ∧
      ∀ i, (dropChain v e.short.first).fat i = if i ∈ e.own.flatMap P.chain then 0 else v.fat i := by
  unfold Entry.own
  by_cases h2 : 2 ≤ e.short.first
  · have hkept : e.short.first ∈ P.kept v := ref_kept hp (mem_refsOf.mpr ⟨⟨e, he, rfl⟩, h2⟩)
    have hheads := @mem_heads v P e.short.first hkept
    obtain ⟨hint, hrun⟩ := fatFreeChain_chain h.formed.sized (h.owned.chain_of hheads) (h.owned.chain_nodup hheads)
    rw [if_pos h2, List.flatMap_singleton]
    unfold dropChain
    rw [hrun]
    exact ⟨⟨_, _, rfl⟩, fun i => rfl⟩
  · rw [if_neg h2, dropChain_none (Nat.lt_of_not_le h2)]
    exact ⟨.refl v, fun i => (if_neg List.not_mem_nil).symm⟩

theorem Tree.delete (h : Tree v P) (hp : p ∈ P.dirs) (hq : (b, i, e) ∈ (P.views p).flatMap View.placed)
    (hshow : Shows (b, i, e) de) (hreal : e.isDots = false) (hempty : e.short.isDir = true → P.reals e.short.first = []) :
    ∃ v' P', eraseEntry (dropChain v de.firstCluster) de = (true, v') ∧ Removed v P v' P' p e := by
  have hmem : e ∈ entriesOf (P.views p) := by
    rw [← map_placed]
    exact List.mem_map.mpr ⟨_, hq, rfl⟩
  have he : e ∈ P.reals p := mem_realsOf.mpr ⟨hmem, hreal⟩
  have hde : de.firstCluster = e.short.first := hshow.firstCluster
  obtain ⟨honly, hfat⟩ := h.own_chain hp he
  obtain ⟨blk, ws, hrun, hlaid, hb, hperm⟩ := h.erase hp hq hshow.block hshow.slot honly
  rw [hde]
  have hform : SameForm v (fatWriteBlock v b blk) := sameForm_write
  have hother : ∀ b', b' ∉ blocksOf v P.chain p → blockAt (fatWriteBlock v b blk) b' = blockAt v b' :=
    fun b' hb' => blockAt_write_of_ne (ne_of_mem_of_not_mem hb hb').symm
  have hviews := h.laid_edit hp hform hother hlaid
  have hself : Function.update P.views p ws p = ws := Function.update_self _ _ _
  have hne : ∀ d, d ≠ p → Function.update P.views p ws d = P.views d := fun d hd => Function.update_of_ne hd _ _
  have hlast : OnlyFat (fatWriteBlock v b blk) (fatWriteBlock (dropChain v e.short.first) b blk) := write_onlyFat honly
  have hfat' : ∀ x, (fatWriteBlock (dropChain v e.short.first) b blk).fat x =
      if x ∈ e.own.flatMap P.chain then 0 else (fatWriteBlock v b blk).fat x := by
    intro x
    rw [fat_write, fat_write]
    exact hfat x
  have hsame : ∀ r ∈ P.lost ++ P.kept v, r ≠ p → ∀ c ∈ P.chain r,
      (fatWriteBlock (dropChain v e.short.first) b blk).data c = v.data c := by
    intro r hr hrp c hc
    have hout := hother (.cluster c) (h.block_outside hp hr hrp hc)
    exact (hlast.blockAt (.cluster c)).trans hout
  cases hdir : e.short.isDir with
  | false =>
    have hmore : More { P with views := Function.update P.views p ws, lost := e.own ++ P.lost } P p e := by
      refine ⟨hp, ?_, hreal, fun d _ hd => (hne d hd).symm⟩
      dsimp only
      rw [hself]
      exact hperm
    have htree := h.remove_file hmore hform fat_write rfl rfl rfl (List.Perm.refl _) hviews hdir
    refine ⟨_, _, hrun, ⟨htree.release hlast rfl hfat', hform.trans hlast.sameForm, hmore.entries,
      fun d hd => congrArg entriesOf (hne d hd), ?_, rfl, fun r hr hrp _ => ⟨rfl, hsame r hr hrp⟩⟩⟩
    rw [hdir]
    exact List.Perm.refl _
  | true =>
    obtain ⟨q, hqf⟩ : ∃ q, e.short.first = q := ⟨_, rfl⟩
    have hq0 := hempty hdir
    rw [hqf] at hq0
    have hqp : p ≠ q := by
      rintro rfl
      rw [hq0] at he
      exact absurd he List.not_mem_nil
    have hqd : q ∈ P.dirs := h.forest.kid_mem hp (mem_kidsOf.mpr ⟨e, he, hdir, hqf⟩)
    have hperm' : P.dirs.Perm (q :: P.dirs.erase q) := List.perm_cons_erase hqd
    have hpe : p ∈ P.dirs.erase q := (List.mem_erase_of_ne hqp).mpr hp
    have hmore : More { P with dirs := P.dirs.erase q, views := Function.update P.views p ws, lost := q :: P.lost } P p e := by
      refine ⟨hpe, ?_, hreal, fun d _ hd => (hne d hd).symm⟩
      dsimp only
      rw [hself]
      exact hperm
    have htree := h.remove_dir hmore hform fat_write hqf hdir hperm' rfl rfl (List.Perm.refl _)
      (fun d hd => hviews d (List.mem_of_mem_erase hd)) hq0
    have hown : e.own = [q] := by
      unfold Entry.own
      rw [hqf, if_pos]
      rw [← hqf]
      exact (h.sound p hp e he).dir hdir
    refine ⟨_, _, hrun, ⟨htree.release hlast (by rw [hown]; rfl) hfat', hform.trans hlast.sameForm, hmore.entries,
      fun d hd => congrArg entriesOf (hne d hd), ?_, rfl, fun r hr hrp _ => ⟨rfl, hsame r hr hrp⟩⟩⟩
    rw [hdir, if_pos rfl, hqf]
    exact hperm'

theorem Tree.reals_of_empty (h : Tree v P) (hd : d ∈ P.dirs) (hempty : fatDirEmpty v junk d = true) :
    P.reals d = [] := by
  obtain ⟨des, hdes, hrun⟩ := h.dirents_shown hd junk
  unfold fatDirEmpty at hempty
  rw [hrun, List.all_eq_true] at hempty
  refine List.eq_nil_iff_forall_not_mem.mpr fun e he => ?_
  have hmem := (mem_realsOf.mp he).1
  rw [← map_placed] at hmem
  obtain ⟨q, hq, rfl⟩ := List.mem_map.mp hmem
  obtain ⟨de, hde, hshow⟩ := forall₂_mem_left hdes hq
  have hno := (h.sound d hd q.2.2 he).proper de.name hshow.name
  rw [hempty de hde] at hno
  contradiction

end Ezos.Fat
