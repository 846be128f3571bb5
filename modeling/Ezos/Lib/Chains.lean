import Ezos.Lib.Intrusive
import Mathlib.Data.List.Pairwise
import Mathlib.Data.List.Perm.Basic

/-!
# A table of linked chains

An entry of the table is free, or it ends a chain, or it names the next member of one. The chains of the
listed heads have no member in common, and every entry that is not free belongs to one of them.
-/

namespace Ezos.Lib.Chains

open Intrusive

set_option autoImplicit false

universe u
variable {ι : Type u}

abbrev Table (ι : Type u) := ι → Option (Option ι)

def next (tab : Table ι) (i : ι) : Option ι := (tab i).join

structure Holds (tab : Table ι) (chain : ι → List ι) (heads : List ι) : Prop where
  linked : ∀ r ∈ heads, Linked (next tab) (some r) (chain r)
  nodup : (heads.flatMap chain).Nodup
  taken : ∀ i, i ∈ heads.flatMap chain ↔ tab i ≠ none

namespace Holds
variable {tab tab' : Table ι} {chain : ι → List ι} {heads heads' rest A B : List ι} {r i t : ι}

theorem perm (h : Holds tab chain heads) (hp : heads.Perm heads') : Holds tab chain heads' := by
  have hflat := hp.flatMap_right chain
  refine ⟨fun r hr => h.linked r (hp.mem_iff.mpr hr), hflat.nodup_iff.mp h.nodup, fun i => ?_⟩
  rw [← hflat.mem_iff]
  exact h.taken i

theorem chain_eq_cons (h : Holds tab chain heads) (hr : r ∈ heads) : ∃ tail, chain r = r :: tail := by
  have hlinked := h.linked r hr
  cases hc : chain r with
  | nil =>
    rw [hc] at hlinked
    exact absurd hlinked (Option.some_ne_none r)
  | cons i tail =>
    rw [hc] at hlinked
    exact ⟨tail, by rw [Option.some.inj hlinked.1]⟩

theorem head_mem (h : Holds tab chain heads) (hr : r ∈ heads) : r ∈ chain r := by
  obtain ⟨tail, hc⟩ := h.chain_eq_cons hr
  rw [hc]
  exact List.mem_cons_self

theorem mem_taken (h : Holds tab chain heads) (hr : r ∈ heads) (hi : i ∈ chain r) : tab i ≠ none :=
  (h.taken i).mp (List.mem_flatMap.mpr ⟨r, hr, hi⟩)

theorem chain_nodup (h : Holds tab chain heads) (hr : r ∈ heads) : (chain r).Nodup :=
  (List.nodup_flatMap.mp h.nodup).1 r hr

theorem heads_nodup (h : Holds tab chain heads) : heads.Nodup := by
  have hpair := (List.nodup_flatMap.mp h.nodup).2
  refine hpair.imp_of_mem fun ha hb hdis => ?_
  rintro rfl
  exact hdis (h.head_mem ha) (h.head_mem ha)

theorem eq_of_mem (h : Holds tab chain heads) {s : ι} (hr : r ∈ heads) (hs : s ∈ heads) (hir : i ∈ chain r)
    (his : i ∈ chain s) : r = s := by
  by_contra hne
  have hpair := (List.nodup_flatMap.mp h.nodup).2
  have hsymm : Std.Symm (Function.onFun List.Disjoint chain) := ⟨fun _ _ hd => hd.symm⟩
  exact hpair.forall hr hs hne hir his

theorem not_mem_of_free (h : Holds tab chain heads) (hi : tab i = none) (hr : r ∈ heads) : i ∉ chain r :=
  fun hmem => h.mem_taken hr hmem hi

theorem not_head_of_free (h : Holds tab chain heads) (hi : tab i = none) : i ∉ heads :=
  fun hr => h.not_mem_of_free hi hr (h.head_mem hr)

theorem linked_of_same {L : List ι} {p : Option ι} (hL : Linked (next tab) p L)
    (hsame : ∀ j ∈ L, tab' j = tab j) : Linked (next tab') p L :=
  linked_congr (fun j hj => congrArg Option.join (hsame j hj)) hL

theorem congr (h : Holds tab chain heads) (hsame : ∀ j, tab' j = tab j) : Holds tab' chain heads := by
  have heq : tab' = tab := funext hsame
  rw [heq]
  exact h

variable [DecidableEq ι]

theorem flatMap_update {l : List ι} (hr : r ∉ rest) :
    rest.flatMap (Function.update chain r l) = rest.flatMap chain := by
  apply List.flatMap_congr
  intro s hs
  exact Function.update_of_ne (ne_of_mem_of_not_mem hs hr) _ _

theorem start (h : Holds tab chain heads) (hfree : tab i = none) (hend : tab' i = some none)
    (hsame : ∀ j, j ≠ i → tab' j = tab j) : Holds tab' (Function.update chain i [i]) (i :: heads) := by
  have hi : i ∉ heads := h.not_head_of_free hfree
  have hflat : (i :: heads).flatMap (Function.update chain i [i]) = i :: heads.flatMap chain := by
    rw [List.flatMap_cons, Function.update_self, flatMap_update hi]
    rfl
  have hout : i ∉ heads.flatMap chain := fun hm => (h.taken i).mp hm hfree
  refine ⟨fun r hr => ?_, ?_, fun j => ?_⟩
  · rcases List.mem_cons.mp hr with rfl | hr
    · rw [Function.update_self]
      exact ⟨rfl, congrArg Option.join hend⟩
    · rw [Function.update_of_ne (ne_of_mem_of_not_mem hr hi)]
      refine linked_of_same (h.linked r hr) fun j hj => hsame j ?_
      exact ne_of_mem_of_not_mem hj (h.not_mem_of_free hfree hr)
  · rw [hflat]
    exact List.nodup_cons.mpr ⟨hout, h.nodup⟩
  · rw [hflat, List.mem_cons]
    by_cases hj : j = i
    · subst hj
      rw [hend]
      exact iff_of_true (Or.inl rfl) (Option.some_ne_none _)
    · rw [hsame j hj, ← h.taken j]
      exact or_iff_right hj

omit [DecidableEq ι] in
theorem linked_snoc {p : Option ι} (hL : Linked (next tab) p (A ++ [t])) (hnd : (A ++ [t]).Nodup)
    (hi : i ∉ A ++ [t]) (hlink : tab' t = some (some i)) (hend : tab' i = some none)
    (hsame : ∀ j, j ≠ i → j ≠ t → tab' j = tab j) : Linked (next tab') p (A ++ [t] ++ [i]) := by
  induction A generalizing p with
  | nil => exact ⟨hL.1, congrArg Option.join hlink, congrArg Option.join hend⟩
  | cons a A ih =>
    obtain ⟨ha, hnd⟩ := List.nodup_cons.mp hnd
    have hat : a ≠ t := fun he => ha (he ▸ List.mem_append_right A List.mem_cons_self)
    have hai : a ≠ i := fun he => hi (he ▸ List.mem_cons_self)
    have hnext : next tab' a = next tab a := congrArg Option.join (hsame a hai hat)
    refine ⟨hL.1, ?_⟩
    rw [hnext]
    exact ih hL.2 hnd (List.not_mem_of_not_mem_cons hi)

theorem extend (h : Holds tab chain heads) (hr : r ∈ heads) (hc : chain r = A ++ [t])
    (hfree : tab i = none) (hlink : tab' t = some (some i)) (hend : tab' i = some none)
    (hsame : ∀ j, j ≠ i → j ≠ t → tab' j = tab j) :
    Holds tab' (Function.update chain r (chain r ++ [i])) heads := by
  suffices hcons : ∀ {rest}, Holds tab chain (r :: rest) →
      Holds tab' (Function.update chain r (chain r ++ [i])) (r :: rest) by
    have hp : heads.Perm (r :: heads.erase r) := List.perm_cons_erase hr
    exact (hcons (h.perm hp)).perm hp.symm
  intro rest h
  have hr : r ∈ r :: rest := List.mem_cons_self
  have hrest : r ∉ rest := (List.nodup_cons.mp h.heads_nodup).1
  have hi : i ∉ chain r := h.not_mem_of_free hfree hr
  have ht : t ∈ chain r := by
    rw [hc]
    exact List.mem_append_right A List.mem_cons_self
  have hflat : ((r :: rest).flatMap (Function.update chain r (chain r ++ [i]))).Perm
      (i :: (r :: rest).flatMap chain) := by
    rw [List.flatMap_cons, Function.update_self, flatMap_update hrest, List.flatMap_cons, List.append_assoc]
    exact List.perm_middle
  have hout : i ∉ (r :: rest).flatMap chain := fun hm => (h.taken i).mp hm hfree
  refine ⟨fun s hs => ?_, ?_, fun j => ?_⟩
  · rcases List.mem_cons.mp hs with rfl | hs
    · rw [Function.update_self]
      have hL := h.linked s hr
      have hnd := h.chain_nodup hr
      rw [hc] at hL hnd hi ⊢
      exact linked_snoc hL hnd hi hlink hend hsame
    · have hsr : s ≠ r := ne_of_mem_of_not_mem hs hrest
      have hs' : s ∈ r :: rest := List.mem_cons_of_mem r hs
      rw [Function.update_of_ne hsr]
      refine linked_of_same (h.linked s hs') fun j hj => hsame j ?_ ?_
      · exact ne_of_mem_of_not_mem hj (h.not_mem_of_free hfree hs')
      · rintro rfl
        exact hsr (h.eq_of_mem hs' hr hj ht)
  · rw [hflat.nodup_iff]
    exact List.nodup_cons.mpr ⟨hout, h.nodup⟩
  · rw [hflat.mem_iff, List.mem_cons]
    by_cases hj : j = i
    · subst hj
      rw [hend]
      exact iff_of_true (Or.inl rfl) (Option.some_ne_none _)
    · by_cases hjt : j = t
      · subst hjt
        rw [hlink]
        exact iff_of_true (Or.inr (List.mem_flatMap.mpr ⟨r, hr, ht⟩)) (Option.some_ne_none _)
      · rw [hsame j hj hjt, ← h.taken j]
        exact or_iff_right hj

omit [DecidableEq ι] in
theorem release (h : Holds tab chain (r :: rest)) (hfree : ∀ j ∈ chain r, tab' j = none)
    (hsame : ∀ j, j ∉ chain r → tab' j = tab j) : Holds tab' chain rest := by
  have hr : r ∈ r :: rest := List.mem_cons_self
  have hrest : r ∉ rest := (List.nodup_cons.mp h.heads_nodup).1
  have hdis : ∀ s ∈ rest, ∀ j ∈ chain s, j ∉ chain r := by
    intro s hs j hj hjr
    exact ne_of_mem_of_not_mem hs hrest (h.eq_of_mem (List.mem_cons_of_mem r hs) hr hj hjr)
  have hnd := h.nodup
  rw [List.flatMap_cons] at hnd
  refine ⟨fun s hs => ?_, (List.nodup_append.mp hnd).2.1, fun j => ?_⟩
  · refine linked_of_same (h.linked s (List.mem_cons_of_mem r hs)) fun j hj => ?_
    exact hsame j (hdis s hs j hj)
  · by_cases hj : j ∈ chain r
    · rw [hfree j hj]
      refine iff_of_false (fun hm => ?_) (fun hno => hno rfl)
      obtain ⟨s, hs, hjs⟩ := List.mem_flatMap.mp hm
      exact hdis s hs j hjs hj
    · rw [hsame j hj, ← h.taken j, List.flatMap_cons, List.mem_append]
      exact (or_iff_right hj).symm

end Holds
end Ezos.Lib.Chains
