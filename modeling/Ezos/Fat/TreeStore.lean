import Ezos.Fat.TreeEdits

/-!
# Data in new clusters

The clusters for the data of a file become a chain that no entry refers to yet; when there are too few of them
they are given back.
-/

namespace Ezos.Fat

open Lib.Memory Lib.Chains Lib.Forests

set_option autoImplicit false

variable {v v' : Vol} {P : Plan} {d p c r first prev cur n size written : Nat} {data : Mem} {cs heads A : List Nat}
  {chain : Nat → List Nat}

def OnlyFat (v v' : Vol) : Prop := ∃ fat hint, v' = { v with fat := fat, hint := hint }

namespace OnlyFat

theorem refl (v : Vol) : OnlyFat v v := ⟨v.fat, v.hint, rfl⟩

theorem trans {v'' : Vol} (h : OnlyFat v v') (h' : OnlyFat v' v'') : OnlyFat v v'' := by
  obtain ⟨fat, hint, rfl⟩ := h
  obtain ⟨fat', hint', rfl⟩ := h'
  exact ⟨fat', hint', rfl⟩

theorem sameForm (h : OnlyFat v v') : SameForm v v' := by
  obtain ⟨fat, hint, rfl⟩ := h
  exact ⟨rfl, rfl, rfl⟩

theorem blockAt (h : OnlyFat v v') (b : Block) : blockAt v' b = Fat.blockAt v b := by
  obtain ⟨fat, hint, rfl⟩ := h
  cases b <;> rfl

end OnlyFat

theorem Owned.chain_congr {chain' : Nat → List Nat} (h : Owned v chain heads)
    (hc : ∀ r ∈ heads, chain' r = chain r) : Owned v chain' heads := by
  have hflat : heads.flatMap chain' = heads.flatMap chain := List.flatMap_congr hc
  refine ⟨fun r hr => ?_, ?_, fun i => ?_⟩
  · rw [hc r hr]
    exact h.linked r hr
  · rw [hflat]
    exact h.nodup
  · rw [hflat]
    exact h.taken i

theorem Owned.head_nodup (h : Owned v chain (r :: heads)) : (chain r).Nodup :=
  h.chain_nodup List.mem_cons_self

theorem Owned.drop (h : Owned v chain (r :: heads)) (hs : Sized v) :
    OnlyFat v (dropChain v r) ∧ Owned (dropChain v r) chain heads := by
  obtain ⟨hint, hrun⟩ := fatFreeChain_chain hs (h.chain_of List.mem_cons_self) h.head_nodup
  have hdrop : dropChain v r = { v with fat := fun i => if i ∈ chain r then 0 else v.fat i, hint := hint } := by
    unfold dropChain
    rw [hrun]
    rfl
  rw [hdrop]
  exact ⟨⟨_, _, rfl⟩, h.release rfl rfl fun _ => rfl⟩

theorem dropChain_none (h : r < 2) : dropChain v r = v := by
  unfold dropChain fatFreeChain
  rw [if_pos h]
  rfl

/-! ## Allocating a chain -/

theorem eocVal_mod (k : Kind) : fatEocVal k % k.size = fatEocVal k := Nat.mod_eq_of_lt (eocVal_lt_size k)

structure Taken (v : Vol) (chain : Nat → List Nat) (heads : List Nat) (first n : Nat) (v' : Vol)
    (chain' : Nat → List Nat) : Prop where
  only : OnlyFat v v'
  owned : Owned v' chain' (first :: heads)
  others : ∀ r ∈ heads, chain' r = chain r
  length : (chain' first).length = n

theorem allocChain_extend (hs : Sized v) (h : Owned v chain (first :: heads)) (hc : chain first = A ++ [prev])
    (n : Nat) :
    (∃ v' chain', allocChain v first prev n = (some first, v') ∧
        Taken v chain heads first ((chain first).length + n) v' chain') ∨
      ∃ v', allocChain v first prev n = (none, v') ∧ OnlyFat v v' ∧ Owned v' chain heads := by
  induction n generalizing v chain A prev with
  | zero => exact Or.inl ⟨v, chain, rfl, .refl v, h, fun _ _ => rfl, rfl⟩
  | succ n ih =>
    have hfirst : first ∈ first :: heads := List.mem_cons_self
    have hne : first ≠ 0 := by
      have h2 := (h.within hfirst).1
      omega
    obtain ⟨c, hint, halloc, hcase⟩ := fatAllocCluster_spec v
    unfold allocChain
    rw [halloc]
    dsimp only
    have hhint : OnlyFat v { v with hint := hint } := ⟨_, _, rfl⟩
    have hown : Owned { v with hint := hint } chain (first :: heads) := h.congr rfl rfl rfl
    by_cases hzero : c = 0
    · -- the chain so far is given back
      rw [if_pos hzero]
      obtain ⟨honly, hrest⟩ := @Owned.drop { v with hint := hint } first heads chain hown hs
      exact Or.inr ⟨_, rfl, hhint.trans honly, hrest⟩
    · rw [if_neg hzero]
      obtain ⟨hw, hfree⟩ := hcase.resolve_left hzero
      have hwl : Within { v with hint := hint } c := hw
      have hprev : Within v prev := by
        refine (h.chain_of hfirst).all_within prev ?_
        rw [hc]
        exact List.mem_append_right A List.mem_cons_self
      rw [fatEntrySet_within hwl]
      dsimp only
      rw [if_neg hne]
      have hwp : Within { v with hint := hint, fat := fun i => if i = c then fatEocVal v.kind % v.kind.size else v.fat i }
          prev := hprev
      rw [fatEntrySet_within hwp]
      dsimp only
      have hpc : prev ≠ c := by
        rintro rfl
        refine h.not_mem_of_free (table_free hfree) hfirst ?_
        rw [hc]
        exact List.mem_append_right A List.mem_cons_self
      have hcs : c % v.kind.size = c := Nat.mod_eq_of_lt (hw.lt_size hs)
      generalize hv1 : ({ v with
        fat := fun i => if i = prev then c % v.kind.size else if i = c then fatEocVal v.kind % v.kind.size else v.fat i,
        hint := hint } : Vol) = v1
      have hfat : ∀ i, v1.fat i = if i = c then fatEocVal v.kind else if i = prev then c else v.fat i := by
        intro i
        rw [← hv1]
        dsimp only
        rw [hcs, eocVal_mod]
        by_cases hi : i = prev
        · rw [if_pos hi, hi, if_neg hpc, if_pos rfl]
        · rw [if_neg hi, if_neg hi]
      have hkind : v1.kind = v.kind := by rw [← hv1]
      have hinfo : v1.info = v.info := by rw [← hv1]
      have honly : OnlyFat v v1 := ⟨_, _, hv1.symm⟩
      have hown1 := h.extend hs hkind hinfo hfirst hc hw hfree hfat
      have hothers : ∀ r ∈ heads, Function.update chain first (chain first ++ [c]) r = chain r := by
        intro r hr
        have hnd := (List.nodup_cons.mp h.heads_nodup).1
        exact Function.update_of_ne (ne_of_mem_of_not_mem hr hnd) _ _
      have hs1 : Sized v1 := honly.sameForm.sized hs
      have hlast : Function.update chain first (chain first ++ [c]) first = chain first ++ [c] :=
        Function.update_self _ _ _
      rcases ih hs1 hown1 hlast with ⟨v2, chain2, hrun, htaken⟩ | ⟨v2, hrun, honly2, hrest⟩
      · refine Or.inl ⟨v2, chain2, hrun, honly.trans htaken.only, htaken.owned, fun r hr => ?_, ?_⟩
        · rw [htaken.others r hr, hothers r hr]
        · rw [htaken.length, hlast, List.length_append, List.length_singleton]
          omega
      · exact Or.inr ⟨v2, hrun, honly.trans honly2, hrest.chain_congr fun r hr => (hothers r hr).symm⟩

theorem allocChain_start (hs : Sized v) (h : Owned v chain heads) (n : Nat) :
    (n = 0 ∧ allocChain v 0 0 n = (some 0, v)) ∨
    (∃ first v' chain', allocChain v 0 0 n = (some first, v') ∧ Taken v chain heads first n v' chain') ∨
      ∃ v', allocChain v 0 0 n = (none, v') ∧ OnlyFat v v' ∧ Owned v' chain heads := by
  cases n with
  | zero => exact Or.inl ⟨rfl, rfl⟩
  | succ n =>
    refine Or.inr ?_
    obtain ⟨c, hint, halloc, hcase⟩ := fatAllocCluster_spec v
    unfold allocChain
    rw [halloc]
    dsimp only
    have hhint : OnlyFat v { v with hint := hint } := ⟨_, _, rfl⟩
    by_cases hzero : c = 0
    · rw [if_pos hzero, dropChain_none Nat.two_pos]
      exact Or.inr ⟨_, rfl, hhint, h.congr rfl rfl rfl⟩
    · rw [if_neg hzero]
      obtain ⟨hw, hfree⟩ := hcase.resolve_left hzero
      have hwl : Within { v with hint := hint } c := hw
      rw [fatEntrySet_within hwl]
      dsimp only
      rw [if_pos rfl]
      generalize hv1 : ({ v with
        fat := fun i => if i = c then fatEocVal v.kind % v.kind.size else v.fat i, hint := hint } : Vol) = v1
      have honly : OnlyFat v v1 := ⟨_, _, hv1.symm⟩
      have hfat : ∀ i, v1.fat i = if i = c then fatEocVal v.kind else v.fat i := by
        intro i
        rw [← hv1]
        dsimp only
        rw [eocVal_mod]
      have hown := h.start honly.sameForm.kind honly.sameForm.info hw hfree hfat
      have hothers : ∀ r ∈ heads, Function.update chain c [c] r = chain r := fun r hr =>
        Function.update_of_ne (ne_of_mem_of_not_mem hr (h.not_head_of_free (table_free hfree))) _ _
      have hself : Function.update chain c [c] c = [] ++ [c] := Function.update_self _ _ _
      rcases allocChain_extend (honly.sameForm.sized hs) hown hself n with ⟨v2, chain2, hrun, htaken⟩ |
        ⟨v2, hrun, honly2, hrest⟩
      · refine Or.inl ⟨c, v2, chain2, hrun, honly.trans htaken.only, htaken.owned, fun r hr => ?_, ?_⟩
        · rw [htaken.others r hr, hothers r hr]
        · rw [htaken.length, hself, List.nil_append, List.length_singleton]
          omega
      · exact Or.inr ⟨v2, hrun, honly.trans honly2, hrest.chain_congr fun r hr => (hothers r hr).symm⟩

def dataBlock (v : Vol) (data : Mem) (size i : Nat) : Mem := fun j =>
  if i * v.clusterSize + j < size ∧ j < v.clusterSize then data (i * v.clusterSize + j) else 0

def Filled (v : Vol) (data : Mem) (size k : Nat) (cs : List Nat) : Prop :=
  ∀ i c, cs[i]? = some c → v.data c = dataBlock v data size (k + i)

structure OnlyData (v : Vol) (cs : List Nat) (v' : Vol) : Prop where
  form : SameForm v v'
  fat : v'.fat = v.fat
  blocks : ∀ b, (∀ c ∈ cs, b ≠ .cluster c) → blockAt v' b = blockAt v b

theorem writeData_chain {k : Nat} (hc : Chain v cur cs) (hnd : cs.Nodup) (hn : cs.length = n)
    (hwritten : written = min size (k * v.clusterSize)) :
    ∃ v', writeData v cur data size written n = some v' ∧ OnlyData v cs v' ∧ Filled v' data size k cs := by
  induction cs generalizing v cur n k written with
  | nil => cases hc
  | cons a cs ih =>
    obtain rfl : a = cur := by
      obtain ⟨tail, heq⟩ := hc.eq_cons
      exact (List.cons.inj heq).1
    obtain ⟨ha, hnd⟩ := List.nodup_cons.mp hnd
    obtain rfl : n = cs.length + 1 := by rw [← hn, List.length_cons]
    have hbuf : (fun j => if j < min (size - written) v.clusterSize then data (written + j) else 0) =
        dataBlock v data size k := by
      funext j
      unfold dataBlock
      rw [hwritten]
      by_cases hin : k * v.clusterSize + j < size ∧ j < v.clusterSize
      · rw [if_pos (by omega), if_pos hin, Nat.min_eq_right (by omega)]
      · rw [if_neg (by omega), if_neg hin]
    unfold writeData fatWriteCluster
    dsimp only
    rw [if_neg hc.within.not_out, hbuf]
    dsimp only
    have hform : SameForm v (fatWriteBlock v (.cluster a) (dataBlock v data size k)) := sameForm_write
    have hstep : written + min (size - written) v.clusterSize = min size ((k + 1) * v.clusterSize) := by
      rw [hwritten, Nat.succ_mul]
      omega
    cases hcs : cs with
    | nil =>
      refine ⟨_, rfl, ⟨hform, fat_write, fun b hb => ?_⟩, fun i c hi => ?_⟩
      · exact blockAt_write_of_ne (hb a List.mem_cons_self)
      · cases i with
        | zero =>
          obtain rfl := Option.some.inj hi
          exact if_pos rfl
        | succ i => contradiction
    | cons d ds =>
      rw [← hcs]
      have hlen : cs.length ≠ 0 := by rw [hcs]; exact Nat.succ_ne_zero _
      rw [if_neg hlen]
      cases hc with
      | last _ _ => contradiction
      | @link _ d' _ hw hd htail =>
        have hnext : fatEntryGet (fatWriteBlock v (.cluster a) (dataBlock v data size k)) a = d' := by
          rw [fatEntryGet_within ((within_congr hform.info).mpr hw), fat_write, hd]
        have htail' : Chain (fatWriteBlock v (.cluster a) (dataBlock v data size k)) d' cs :=
          htail.congr hform.kind hform.info fun x _ => by rw [fat_write]
        have hstep' : written + min (size - written) v.clusterSize =
            min size ((k + 1) * (fatWriteBlock v (.cluster a) (dataBlock v data size k)).clusterSize) := by
          rw [hform.clusterSize]
          exact hstep
        rw [hnext]
        obtain ⟨v2, hrun, honly, hfill⟩ := @ih _ _ cs.length _ (k + 1) htail' hnd rfl hstep'
        refine ⟨v2, hrun, ⟨hform.trans honly.form, honly.fat.trans fat_write, fun b hb => ?_⟩, fun i c hi => ?_⟩
        · rw [honly.blocks b fun c hc => hb c (List.mem_cons_of_mem a hc)]
          exact blockAt_write_of_ne (hb a List.mem_cons_self)
        · cases i with
          | zero =>
            obtain rfl : a = c := Option.some.inj hi
            have hkeep : blockAt v2 (.cluster a) = dataBlock v data size k := by
              rw [honly.blocks (.cluster a) fun c hc heq => ha (Block.cluster.inj heq ▸ hc), blockAt_write_self]
            have hsame : dataBlock v2 data size (k + 0) = dataBlock v data size k := by
              unfold dataBlock
              rw [(hform.trans honly.form).clusterSize, Nat.add_zero]
            rw [hsame]
            exact hkeep
          | succ i =>
            have hrest := hfill i c hi
            have hplace : k + (i + 1) = k + 1 + i := by omega
            rw [hplace]
            exact hrest

/-- A chain has been taken for `first` that nothing refers to yet, and only its clusters have been written. -/
structure Fresh (v : Vol) (P : Plan) (first : Nat) (v' : Vol) (chain' : Nat → List Nat) : Prop where
  tree : Tree v' { P with chain := chain', lost := first :: P.lost }
  form : SameForm v v'
  others : ∀ r ∈ P.lost ++ P.kept v, chain' r = P.chain r
  blocks : ∀ b, (∀ c ∈ chain' first, b ≠ .cluster c) → blockAt v' b = blockAt v b

theorem Fresh.write {v1 : Vol} (h : Fresh v P first v1 chain) (honly : OnlyData v1 (chain first) v') :
    Fresh v P first v' chain := by
  refine ⟨?_, h.form.trans honly.form, h.others, fun b hb => (honly.blocks b hb).trans (h.blocks b hb)⟩
  refine h.tree.reown honly.form (fun _ _ => rfl) (fun d hd b hb => honly.blocks b ?_)
    (h.tree.owned.congr honly.form.kind honly.form.info honly.fat)
  rintro c hc rfl
  have hlost : first ∈ first :: P.lost := List.mem_cons_self
  exact h.tree.block_outside hd (List.mem_append_left _ hlost) (h.tree.lost_not_dir hlost hd) hc hb

theorem Tree.taken (h : Tree v P) (ht : Taken v P.chain (P.lost ++ P.kept v) first n v' chain) :
    Fresh v P first v' chain :=
  ⟨h.reown ht.only.sameForm (fun r hr => ht.others r (mem_heads hr)) (fun _ _ b _ => ht.only.blockAt b) ht.owned,
    ht.only.sameForm, ht.others, fun b _ => ht.only.blockAt b⟩

structure Stored (v : Vol) (P : Plan) (data : Mem) (size first : Nat) (v' : Vol) (chain' : Nat → List Nat) : Prop
    extends Fresh v P first v' chain' where
  length : (chain' first).length = dataClusters v size
  filled : Filled v' data size 0 (chain' first)

theorem Tree.storeData (h : Tree v P) (data : Mem) (size : Nat) :
    (∃ v', storeData v data size = (none, v') ∧ OnlyFat v v' ∧ Tree v' P) ∨
    (dataClusters v size = 0 ∧ storeData v data size = (some 0, v)) ∨
      ∃ first v' chain', storeData v data size = (some first, v') ∧ Stored v P data size first v' chain' := by
  unfold Fat.storeData
  rcases allocChain_start h.formed.sized h.owned (dataClusters v size) with ⟨hzero, hrun⟩ |
    ⟨first, v1, chain1, hrun, htaken⟩ | ⟨v1, hrun, honly, hown⟩
  · rw [hrun]
    dsimp only
    rw [hzero]
    exact Or.inr (Or.inl ⟨rfl, rfl⟩)
  · refine Or.inr (Or.inr ?_)
    rw [hrun]
    dsimp only
    have hfirst : first ∈ first :: (P.lost ++ P.kept v) := List.mem_cons_self
    obtain ⟨v2, hwrite, honly, hfill⟩ := @writeData_chain v1 first (dataClusters v size) size 0 data (chain1 first) 0
      (htaken.owned.chain_of hfirst) (htaken.owned.chain_nodup hfirst) htaken.length (by rw [Nat.zero_mul, Nat.min_zero])
    rw [htaken.only.sameForm.dataClusters, hwrite]
    exact ⟨first, v2, chain1, rfl, (h.taken htaken).write honly, htaken.length, hfill⟩
  · refine Or.inl ⟨v1, ?_, honly, ?_⟩
    · rw [hrun]
    · exact h.reown honly.sameForm (fun _ _ => rfl) (fun _ _ b _ => honly.blockAt b) hown

end Ezos.Fat
