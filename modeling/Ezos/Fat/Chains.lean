import Ezos.Fat.Volume
import Ezos.Lib.Chains
import Mathlib.Data.Nat.Basic
import Mathlib.Order.Interval.Finset.Nat

/-!
# Cluster chains

The FAT as a table of chains, and what the functions on it do to a chain. On a volume that is `Sized` no
cluster number is taken for an end mark or a bad cluster.
-/

namespace Ezos.Fat

open Lib.Memory Lib.Chains Lib.Intrusive

set_option autoImplicit false

variable {v v' : Vol} {c d r : Nat} {cs heads : List Nat} {chain : Nat → List Nat}

def Within (v : Vol) (c : Nat) : Prop := 2 ≤ c ∧ c < v.limit

instance (v : Vol) (c : Nat) : Decidable (Within v c) := inferInstanceAs (Decidable (_ ∧ _))

def Kind.bad : Kind → Nat
  | .fat12 => 0xFF7
  | .fat16 => 0xFFF7
  | .fat32 => 0x0FFFFFF7

def Sized (v : Vol) : Prop := v.limit ≤ v.kind.bad

theorem fatIsEoc_of_lt {k : Kind} {x : Nat} (h : x < k.bad) : fatIsEoc k x = false := by
  cases k <;> exact decide_eq_false (by unfold Kind.bad at h; dsimp only at h; omega)

theorem fatIsBad_of_lt {k : Kind} {x : Nat} (h : x < k.bad) : fatIsBad k x = false := by
  cases k <;> exact beq_false_of_ne (Nat.ne_of_lt h)

theorem fatIsEoc_eocVal (k : Kind) : fatIsEoc k (fatEocVal k) = true := by
  cases k <;> rfl

theorem eocVal_lt_size (k : Kind) : fatEocVal k < k.size := by
  cases k <;> decide

theorem bad_lt_size (k : Kind) : k.bad < k.size := by
  cases k <;> decide

theorem Within.not_eoc (hs : Sized v) (h : Within v c) : fatIsEoc v.kind c = false :=
  fatIsEoc_of_lt (Nat.lt_of_lt_of_le h.2 hs)

theorem Within.not_bad (hs : Sized v) (h : Within v c) : fatIsBad v.kind c = false :=
  fatIsBad_of_lt (Nat.lt_of_lt_of_le h.2 hs)

theorem Within.lt_size (hs : Sized v) (h : Within v c) : c < v.kind.size :=
  Nat.lt_trans (Nat.lt_of_lt_of_le h.2 hs) (bad_lt_size v.kind)

theorem Within.not_out (h : Within v c) : ¬ (c < 2 ∨ c ≥ v.limit) := by
  have h2 := h.1
  have hlim := h.2
  omega

theorem fatEntryGet_within (h : Within v c) : fatEntryGet v c = v.fat c := if_neg h.not_out

theorem fatEntrySet_within {val : Nat} (h : Within v c) : fatEntrySet v c val =
    some { v with fat := fun i => if i = c then val % v.kind.size else v.fat i } := if_neg h.not_out

/-! ## The table -/

def entryOf (k : Kind) (x : Nat) : Option (Option Nat) :=
  if x = 0 then none else if fatIsEoc k x then some none else some (some x)

def table (v : Vol) : Table Nat := fun c => if Within v c then entryOf v.kind (v.fat c) else none

theorem table_eq_none_iff : table v c = none ↔ ¬ (Within v c ∧ v.fat c ≠ 0) := by
  unfold table entryOf
  by_cases hw : Within v c
  · rw [if_pos hw]
    by_cases hz : v.fat c = 0
    · simp [hz]
    · rw [if_neg hz]
      split <;> simp [hw, hz]
  · simp [hw]

theorem table_ne_none_iff : table v c ≠ none ↔ Within v c ∧ v.fat c ≠ 0 := by
  rw [ne_eq, table_eq_none_iff, not_not]

theorem table_free (h : v.fat c = 0) : table v c = none :=
  table_eq_none_iff.mpr fun hno => hno.2 h

theorem table_end (hw : Within v c) (h : v.fat c = fatEocVal v.kind) : table v c = some none := by
  have hne : fatEocVal v.kind ≠ 0 := by cases v.kind <;> decide
  unfold table entryOf
  rw [if_pos hw, h, if_neg hne, fatIsEoc_eocVal, if_pos rfl]

theorem table_link (hs : Sized v) (hw : Within v c) (hd : Within v d) (h : v.fat c = d) :
    table v c = some (some d) := by
  have hne : d ≠ 0 := Nat.ne_of_gt (Nat.lt_of_lt_of_le Nat.two_pos hd.1)
  unfold table entryOf
  rw [if_pos hw, h, if_neg hne, hd.not_eoc hs]
  rfl

theorem within_congr (hi : v'.info = v.info) : Within v' c ↔ Within v c := by
  unfold Within Vol.limit
  rw [hi]

theorem table_congr (hk : v'.kind = v.kind) (hi : v'.info = v.info) (hf : v'.fat c = v.fat c) :
    table v' c = table v c := by
  unfold table
  rw [hk, hf]
  simp only [within_congr hi]

inductive Chain (v : Vol) : Nat → List Nat → Prop
  | last {c : Nat} : Within v c → fatIsEoc v.kind (v.fat c) = true → Chain v c [c]
  | link {c d : Nat} {cs : List Nat} : Within v c → v.fat c = d → Chain v d cs → Chain v c (c :: cs)

theorem Chain.within (h : Chain v c cs) : Within v c := by
  cases h with
  | last hw _ => exact hw
  | link hw _ _ => exact hw

theorem Chain.all_within (h : Chain v c cs) : ∀ x ∈ cs, Within v x := by
  induction h with
  | last hw _ =>
    intro x hx
    rw [List.mem_singleton.mp hx]
    exact hw
  | link hw _ _ ih =>
    intro x hx
    rcases List.mem_cons.mp hx with rfl | hx
    · exact hw
    · exact ih x hx

theorem Chain.eq_cons (h : Chain v c cs) : ∃ tail, cs = c :: tail := by
  cases h with
  | last _ _ => exact ⟨[], rfl⟩
  | link _ _ _ => exact ⟨_, rfl⟩

theorem Chain.congr (h : Chain v c cs) (hk : v'.kind = v.kind) (hi : v'.info = v.info)
    (hf : ∀ x ∈ cs, v'.fat x = v.fat x) : Chain v' c cs := by
  induction h with
  | last hw heoc =>
    refine .last ((within_congr hi).mpr hw) ?_
    rw [hk, hf _ List.mem_cons_self]
    exact heoc
  | link hw hd _ ih =>
    refine .link ((within_congr hi).mpr hw) ?_ (ih fun x hx => hf x (List.mem_cons_of_mem _ hx))
    rw [hf _ List.mem_cons_self]
    exact hd

theorem chain_of_linked (hL : Linked (next (table v)) (some c) cs) (htaken : ∀ x ∈ cs, table v x ≠ none) :
    Chain v c cs := by
  induction cs generalizing c with
  | nil => exact absurd hL (Option.some_ne_none c)
  | cons a cs ih =>
    obtain rfl : c = a := Option.some.inj hL.1
    have hta := htaken c List.mem_cons_self
    have hw := (table_ne_none_iff.mp hta).1
    have hne := (table_ne_none_iff.mp hta).2
    have htail : ∀ x ∈ cs, table v x ≠ none := fun x hx => htaken x (List.mem_cons_of_mem c hx)
    have hnext : next (table v) c = if fatIsEoc v.kind (v.fat c) then none else some (v.fat c) := by
      unfold next table entryOf
      rw [if_pos hw, if_neg hne]
      split <;> rfl
    have hL' := hL.2
    rw [hnext] at hL'
    by_cases heoc : fatIsEoc v.kind (v.fat c) = true
    · rw [if_pos heoc] at hL'
      cases cs with
      | nil => exact .last hw heoc
      | cons b cs => exact absurd hL'.1.symm (Option.some_ne_none b)
    · rw [if_neg heoc] at hL'
      exact .link hw rfl (ih hL' htail)

abbrev Owned (v : Vol) (chain : Nat → List Nat) (heads : List Nat) : Prop := Holds (table v) chain heads

theorem Owned.chain_of (h : Owned v chain heads) (hr : r ∈ heads) : Chain v r (chain r) :=
  chain_of_linked (h.linked r hr) fun _ hx => h.mem_taken hr hx

theorem length_le_count (hnd : cs.Nodup) (hw : ∀ x ∈ cs, Within v x) : cs.length ≤ v.info.clusterCount := by
  have hsub : cs ⊆ List.range' 2 v.info.clusterCount := by
    intro x hx
    have h2 := (hw x hx).1
    have hlim := (hw x hx).2
    unfold Vol.limit at hlim
    exact List.mem_range'_1.mpr ⟨h2, by omega⟩
  have hle := (hnd.subperm hsub).length_le
  rwa [List.length_range'] at hle

theorem Owned.length_le (h : Owned v chain heads) (hr : r ∈ heads) :
    (chain r).length ≤ v.info.clusterCount :=
  length_le_count (h.chain_nodup hr) (h.chain_of hr).all_within

theorem Owned.within (h : Owned v chain heads) (hr : r ∈ heads) : Within v r := (h.chain_of hr).within

theorem allocScan_spec (n : Nat) (h2 : 2 ≤ v.hint) :
    ∃ c hint, allocScan v n = (c, { v with hint := hint }) ∧ (c = 0 ∨ Within v c ∧ v.fat c = 0) := by
  induction n generalizing v with
  | zero => exact ⟨0, v.hint, rfl, Or.inl rfl⟩
  | succ n ih =>
    unfold allocScan
    dsimp only
    have hc2 : 2 ≤ if v.hint ≥ v.limit then 2 else v.hint := by
      split
      · exact Nat.le_refl 2
      · exact h2
    generalize (if v.hint ≥ v.limit then 2 else v.hint) = c at hc2
    by_cases hfree : fatEntryGet v c = 0
    · rw [if_pos hfree]
      refine ⟨c, _, rfl, Or.inr ?_⟩
      have hw : Within v c := by
        by_contra hout
        have hno : c < 2 ∨ c ≥ v.limit := by
          unfold Within at hout
          omega
        rw [fatEntryGet, if_pos hno] at hfree
        contradiction
      rw [fatEntryGet_within hw] at hfree
      exact ⟨hw, hfree⟩
    · rw [if_neg hfree]
      obtain ⟨c', hint, hrun, hres⟩ := @ih { v with hint := c + 1 } (Nat.le_succ_of_le hc2)
      exact ⟨c', hint, hrun, hres⟩

theorem fatAllocCluster_spec (v : Vol) :
    ∃ c hint, fatAllocCluster v = (c, { v with hint := hint }) ∧ (c = 0 ∨ Within v c ∧ v.fat c = 0) := by
  unfold fatAllocCluster
  dsimp only
  by_cases hout : v.hint < 2 ∨ v.hint ≥ v.limit
  · rw [if_pos hout]
    obtain ⟨c, hint, hrun, hres⟩ := @allocScan_spec { v with hint := 2 } v.info.clusterCount (Nat.le_refl 2)
    exact ⟨c, hint, hrun, hres⟩
  · rw [if_neg hout]
    exact allocScan_spec _ (by omega)

theorem freeLoop_chain (hs : Sized v) (hc : Chain v c cs) (hnd : cs.Nodup) {first n : Nat}
    (hn : cs.length ≤ n) :
    ∃ hint, freeLoop v first c n = some { v with fat := fun i => if i ∈ cs then 0 else v.fat i, hint := hint } := by
  induction cs generalizing v c n with
  | nil => cases hc
  | cons a cs ih =>
    obtain rfl : a = c := by
      obtain ⟨tail, heq⟩ := hc.eq_cons
      exact (List.cons.inj heq).1
    obtain ⟨m, rfl⟩ : ∃ m, n = m + 1 := ⟨n - 1, by rw [List.length_cons] at hn; omega⟩
    have hw := hc.within
    obtain ⟨ha, hnd'⟩ := List.nodup_cons.mp hnd
    unfold freeLoop
    rw [if_neg hw.not_out]
    dsimp only
    rw [fatEntrySet_within hw, fatEntryGet_within hw]
    dsimp only
    have hhint : ∃ hint, (if first < v.hint then
        { v with fat := fun i => if i = a then 0 % v.kind.size else v.fat i, hint := first }
        else { v with fat := fun i => if i = a then 0 % v.kind.size else v.fat i }) =
        { v with fat := fun i => if i = a then 0 else v.fat i, hint := hint } := by
      rw [Nat.zero_mod]
      split
      · exact ⟨first, rfl⟩
      · exact ⟨v.hint, rfl⟩
    obtain ⟨hint, hhint⟩ := hhint
    rw [hhint]
    cases hc with
    | last _ heoc =>
      rw [if_pos (Or.inl heoc)]
      refine ⟨hint, ?_⟩
      simp only [List.mem_singleton]
    | @link _ d _ _ hd htail =>
      have hdw := htail.within
      have hgo : ¬ (fatIsEoc v.kind (v.fat a) = true ∨ v.fat a < 2 ∨ fatIsBad v.kind (v.fat a) = true) := by
        rw [hd, hdw.not_eoc hs, hdw.not_bad hs]
        have h2 := hdw.1
        simp only [Bool.false_eq_true, or_false, false_or]
        omega
      rw [if_neg hgo, hd]
      have hsame : Chain { v with fat := fun i => if i = a then 0 else v.fat i, hint := hint } d cs :=
        htail.congr rfl rfl fun x hx => if_neg (ne_of_mem_of_not_mem hx ha)
      obtain ⟨hint', hrun⟩ := @ih { v with fat := fun i => if i = a then 0 else v.fat i, hint := hint } d hs
        hsame hnd' m (by rw [List.length_cons] at hn; omega)
      refine ⟨hint', hrun.trans ?_⟩
      refine congrArg some ?_
      have hfat : (fun i => if i ∈ cs then 0 else if i = a then 0 else v.fat i) =
          fun i => if i ∈ a :: cs then 0 else v.fat i := by
        funext i
        by_cases hi : i = a
        · simp [hi]
        · simp [hi]
      simp only [hfat]

theorem fatFreeChain_chain (hs : Sized v) (hc : Chain v c cs) (hnd : cs.Nodup) :
    ∃ hint, fatFreeChain v c = some { v with fat := fun i => if i ∈ cs then 0 else v.fat i, hint := hint } := by
  have hlen := length_le_count hnd hc.all_within
  unfold fatFreeChain
  rw [if_neg (Nat.not_lt.mpr hc.within.1)]
  exact freeLoop_chain hs hc hnd (Nat.le_trans hlen (Nat.le_add_right _ 2))

section
variable {A : List Nat} {t : Nat} {f : Nat → Nat}

theorem Owned.congr (h : Owned v chain heads) (hk : v'.kind = v.kind) (hi : v'.info = v.info)
    (hf : v'.fat = v.fat) : Owned v' chain heads :=
  Holds.congr h fun _ => table_congr hk hi (congrFun hf _)

theorem Owned.start (h : Owned v chain heads) (hk : v'.kind = v.kind) (hi : v'.info = v.info)
    (hw : Within v c) (hfree : v.fat c = 0)
    (hf : ∀ i, v'.fat i = if i = c then fatEocVal v.kind else v.fat i) :
    Owned v' (Function.update chain c [c]) (c :: heads) := by
  refine Holds.start h (table_free hfree) ?_ fun j hj => ?_
  · apply table_end ((within_congr hi).mpr hw)
    rw [hf, if_pos rfl, hk]
  · exact table_congr hk hi (by rw [hf, if_neg hj])

theorem Owned.extend (h : Owned v chain heads) (hs : Sized v) (hk : v'.kind = v.kind) (hi : v'.info = v.info)
    (hr : r ∈ heads) (hc : chain r = A ++ [t]) (hw : Within v c) (hfree : v.fat c = 0)
    (hf : ∀ i, v'.fat i = if i = c then fatEocVal v.kind else if i = t then c else v.fat i) :
    Owned v' (Function.update chain r (chain r ++ [c])) heads := by
  have ht : t ∈ chain r := by
    rw [hc]
    exact List.mem_append_right A List.mem_cons_self
  have htc : t ≠ c := by
    rintro rfl
    exact h.not_mem_of_free (table_free hfree) hr ht
  have hs' : Sized v' := by
    unfold Sized Vol.limit
    rw [hk, hi]
    exact hs
  refine Holds.extend h hr hc (table_free hfree) ?_ ?_ fun j hj hjt => ?_
  · apply table_link hs' ((within_congr hi).mpr ((h.chain_of hr).all_within t ht)) ((within_congr hi).mpr hw)
    rw [hf, if_neg htc, if_pos rfl]
  · apply table_end ((within_congr hi).mpr hw)
    rw [hf, if_pos rfl, hk]
  · exact table_congr hk hi (by rw [hf, if_neg hj, if_neg hjt])

theorem Owned.release {rest : List Nat} (h : Owned v chain (r :: rest)) (hk : v'.kind = v.kind)
    (hi : v'.info = v.info) (hf : ∀ i, v'.fat i = if i ∈ chain r then 0 else v.fat i) :
    Owned v' chain rest := by
  refine Holds.release h (fun j hj => ?_) fun j hj => ?_
  · exact table_free (by rw [hf, if_pos hj])
  · exact table_congr hk hi (by rw [hf, if_neg hj])

end

theorem Chain.step (hs : Sized v) (h : Chain v c cs) {t x : Nat} (hx : cs[t]? = some x) :
    fatDirStep v (.cluster x) = (cs[t + 1]?).map .cluster := by
  induction h generalizing t with
  | last hw heoc =>
    cases t with
    | succ t => contradiction
    | zero =>
      obtain rfl : _ = x := Option.some.inj hx
      unfold fatDirStep
      dsimp only
      rw [fatEntryGet_within hw, if_pos (Or.inr (Or.inr (Or.inl heoc)))]
      rfl
  | @link c d cs hw hd htail ih =>
    cases t with
    | succ t => exact ih hx
    | zero =>
      obtain rfl : c = x := Option.some.inj hx
      have hdw := htail.within
      obtain ⟨tail, rfl⟩ := htail.eq_cons
      unfold fatDirStep
      dsimp only
      rw [fatEntryGet_within hw, hd, hdw.not_eoc hs, hdw.not_bad hs]
      have hgo : ¬ (d < 2 ∨ d ≥ v.limit ∨ false = true ∨ false = true) := by
        have hout := hdw.not_out
        simpa only [Bool.false_eq_true, or_false] using hout
      rw [if_neg hgo]
      rfl

theorem walkBlocks_eq {bs : List Block} {max : Nat} (hlen : bs.length ≤ max)
    (hstep : ∀ t b, bs[t]? = some b → fatDirStep v b = bs[t + 1]?)
    (hdiff : ∀ (i j : Nat) b b', i < j → bs[i]? = some b → bs[j]? = some b' → sameCluster b' b = false)
    {n t : Nat} {w : DirWalk} (hfast : bs[t]? = some w.fast) (hslow : bs[t / 2]? = some w.slow)
    (hsteps : w.steps = t) (hmax : w.max = max) (hn : bs.length ≤ t + n + 1) :
    walkBlocks v w n = bs.drop t := by
  have hdrop : ∀ {t b}, bs[t]? = some b → bs.drop t = b :: bs.drop (t + 1) := by
    intro t b hb
    obtain ⟨ht, rfl⟩ := List.getElem?_eq_some_iff.mp hb
    exact List.drop_eq_getElem_cons ht
  induction n generalizing t w with
  | zero =>
    rw [hdrop hfast, List.drop_of_length_le (by omega)]
    rfl
  | succ n ih =>
    unfold walkBlocks fatDirWalkNext
    rw [hstep t _ hfast, hdrop hfast]
    cases hnext : bs[t + 1]? with
    | none =>
      rw [List.drop_of_length_le (List.getElem?_eq_none_iff.mp hnext)]
    | some b =>
      have ht : t + 1 < bs.length := (List.getElem?_eq_some_iff.mp hnext).1
      dsimp only
      rw [hsteps, hmax, if_neg (by omega)]
      by_cases heven : (t + 1) % 2 = 0
      · -- the slow pointer moves as well, and stays behind
        obtain ⟨s, hs⟩ : ∃ s, bs[t / 2 + 1]? = some s :=
          ⟨_, List.getElem?_eq_getElem (by omega)⟩
        rw [if_pos heven, hstep (t / 2) _ hslow, hs]
        dsimp only
        rw [hdiff (t / 2 + 1) (t + 1) s b (by omega) hs hnext]
        refine congrArg (w.fast :: ·) (ih hnext ?_ rfl rfl (by omega))
        have hhalf : (t + 1) / 2 = t / 2 + 1 := by omega
        rw [hhalf]
        exact hs
      · rw [if_neg heven]
        refine congrArg (w.fast :: ·) (ih hnext ?_ rfl rfl (by omega))
        have hhalf : (t + 1) / 2 = t / 2 := by omega
        rw [hhalf]
        exact hslow

theorem dirBlocks_chain (hs : Sized v) (hc : Chain v d cs) (hnd : cs.Nodup) :
    dirBlocks v d = cs.map .cluster := by
  have hw := hc.within
  have hlen := length_le_count hnd hc.all_within
  have hd : ¬ (d = 0 ∧ v.kind ≠ .fat32) := fun hno => by
    have h2 := hw.1
    omega
  have hcount : v.info.clusterCount ≠ 0 := by
    obtain ⟨tail, rfl⟩ := hc.eq_cons
    rw [List.length_cons] at hlen
    omega
  obtain ⟨tail, htail⟩ := hc.eq_cons
  have hhead : (cs.map Block.cluster)[0]? = some (.cluster d) := by
    rw [htail]
    rfl
  unfold dirBlocks fatDirWalkStart fatDirBlock fatDirMaxBlocks
  rw [if_neg hd, if_neg hw.not_out, if_neg hd, if_neg hcount]
  have hmap : (cs.map Block.cluster).length ≤ v.limit := by
    rw [List.length_map]
    exact Nat.le_trans hlen (Nat.le_add_right _ 2)
  refine @walkBlocks_eq v _ v.limit hmap ?_ ?_ v.limit 0 _ hhead hhead rfl rfl (by omega)
  · intro t b hb
    rw [List.getElem?_map] at hb ⊢
    obtain ⟨x, hx, rfl⟩ := Option.map_eq_some_iff.mp hb
    exact hc.step hs hx
  · intro i j b b' hij hb hb'
    rw [List.getElem?_map] at hb hb'
    obtain ⟨x, hx, rfl⟩ := Option.map_eq_some_iff.mp hb
    obtain ⟨y, hy, rfl⟩ := Option.map_eq_some_iff.mp hb'
    refine beq_false_of_ne fun he => ?_
    obtain ⟨hi, hxi⟩ := List.getElem?_eq_some_iff.mp hx
    obtain ⟨hj, hyj⟩ := List.getElem?_eq_some_iff.mp hy
    have hsame : cs[i] = cs[j] := by rw [hxi, hyj, he]
    have heq := hnd.getElem_inj_iff.mp hsame
    omega

theorem dirBlocks_root (hk : v.kind ≠ .fat32) (hpos : 0 < v.info.rootDirSectors) :
    dirBlocks v 0 = (List.range v.info.rootDirSectors).map .root := by
  have hzero : v.info.rootDirSectors ≠ 0 := Nat.ne_of_gt hpos
  have hget : ∀ t, ((List.range v.info.rootDirSectors).map Block.root)[t]? =
      if t < v.info.rootDirSectors then some (.root t) else none := by
    intro t
    rw [List.getElem?_map]
    by_cases ht : t < v.info.rootDirSectors
    · rw [if_pos ht, List.getElem?_range ht]
      rfl
    · rw [if_neg ht, List.getElem?_eq_none (by rw [List.length_range]; omega)]
      rfl
  have hhead : ((List.range v.info.rootDirSectors).map Block.root)[0]? = some (.root 0) := by
    rw [hget, if_pos hpos]
  unfold dirBlocks fatDirWalkStart fatDirBlock fatDirMaxBlocks
  rw [if_pos ⟨rfl, hk⟩, if_neg hzero, if_pos ⟨rfl, hk⟩, if_neg hzero]
  have hlen : ((List.range v.info.rootDirSectors).map Block.root).length ≤ v.info.rootDirSectors := by
    rw [List.length_map, List.length_range]
  refine @walkBlocks_eq v _ v.info.rootDirSectors hlen ?_ ?_ v.info.rootDirSectors 0 _ hhead hhead rfl rfl
    (by omega)
  · intro t b hb
    rw [hget] at hb
    by_cases ht : t < v.info.rootDirSectors
    · rw [if_pos ht] at hb
      obtain rfl := Option.some.inj hb
      rw [hget, fatDirStep]
      by_cases ht' : t + 1 < v.info.rootDirSectors
      · rw [if_pos ht', if_neg (by omega)]
      · rw [if_neg ht', if_pos (by omega)]
    · rw [if_neg ht] at hb
      contradiction
  · intro i j b b' _ hb hb'
    rw [hget] at hb hb'
    split at hb'
    · obtain rfl := Option.some.inj hb'
      rfl
    · contradiction

end Ezos.Fat
