import Mathlib.Data.List.Flatten
import Mathlib.Data.List.Nodup
import Mathlib.Data.List.Pairwise
import Mathlib.Data.List.Perm.Subperm
import Mathlib.Logic.Relation
import Mathlib.Order.WellFounded

/-!
# A forest of finitely many vertices

Every member but the root is a child of exactly one member, and a child has a higher rank than its parent. The
members are then the vertices that can be reached from the root, and a traversal that serves each vertex once has
served all of them when nothing waits any more.
-/

namespace Ezos.Lib.Forests

set_option autoImplicit false

universe u
variable {α : Type u}

structure Forest (kids : α → List α) (root : α) (rank : α → Nat) (members : List α) : Prop where
  perm : members.Perm (root :: members.flatMap kids)
  nodup : members.Nodup
  climbs : ∀ p ∈ members, ∀ d ∈ kids p, rank p < rank d

theorem flatMap_perm_append {β : Type u} [DecidableEq α] {f g : α → List β} {l : List α} {more : List β} {p : α}
    (hnd : l.Nodup) (hp : p ∈ l) (hpp : (f p).Perm (more ++ g p)) (hsame : ∀ d ∈ l, d ≠ p → f d = g d) :
    (l.flatMap f).Perm (more ++ l.flatMap g) := by
  have hl : l.Perm (p :: l.erase p) := List.perm_cons_erase hp
  have hout : p ∉ l.erase p := (List.nodup_cons.mp (hl.nodup_iff.mp hnd)).1
  have hrest : (l.erase p).flatMap f = (l.erase p).flatMap g :=
    List.flatMap_congr fun d hd => hsame d (List.mem_of_mem_erase hd) (ne_of_mem_of_not_mem hd hout)
  refine (hl.flatMap_right f).trans (List.Perm.trans ?_ ((hl.flatMap_right g).append_left more).symm)
  rw [List.flatMap_cons, List.flatMap_cons, hrest, ← List.append_assoc]
  exact hpp.append_right _

namespace Forest
variable {kids kids' : α → List α} {root p q c d : α} {rank rank' : α → Nat}
  {members members' served waiting rest : List α}

theorem root_mem (h : Forest kids root rank members) : root ∈ members :=
  h.perm.mem_iff.mpr List.mem_cons_self

theorem kid_mem (h : Forest kids root rank members) (hp : p ∈ members) (hd : d ∈ kids p) : d ∈ members :=
  h.perm.mem_iff.mpr (List.mem_cons_of_mem root (List.mem_flatMap.mpr ⟨p, hp, hd⟩))

theorem parent (h : Forest kids root rank members) (hd : d ∈ members) (hne : d ≠ root) :
    ∃ p ∈ members, d ∈ kids p :=
  List.mem_flatMap.mp (List.mem_of_ne_of_mem hne (h.perm.mem_iff.mp hd))

theorem mem_of_reach (h : Forest kids root rank members)
    (hr : Relation.ReflTransGen (fun a b => b ∈ kids a) root d) : d ∈ members := by
  induction hr with
  | refl => exact h.root_mem
  | tail _ hd ih => exact h.kid_mem ih hd

theorem reach_of_mem (h : Forest kids root rank members) (hd : d ∈ members) :
    Relation.ReflTransGen (fun a b => b ∈ kids a) root d := by
  induction d using (measure rank).wf.induction with
  | _ d ih =>
    by_cases hne : d = root
    · rw [hne]
    · obtain ⟨p, hp, hdp⟩ := h.parent hd hne
      exact (ih p (h.climbs p hp d hdp) hp).tail hdp

theorem subperm_of_served (h : Forest kids root rank members) (hnd : served.Nodup) (hsub : served ⊆ members) :
    (root :: served.flatMap kids).Subperm members := by
  obtain ⟨l, hl, hlm⟩ := hnd.subperm hsub
  have hkids : (root :: l.flatMap kids).Sublist (root :: members.flatMap kids) := (hlm.flatMap kids).cons_cons root
  have hperm : (root :: l.flatMap kids).Perm (root :: served.flatMap kids) := (hl.flatMap_right kids).cons root
  exact hperm.symm.subperm.trans (hkids.subperm.trans h.perm.symm.subperm)

/-- When the served vertices and the waiting ones are the root and the children of the served ones, all of them
are distinct members. -/
theorem frontier (h : Forest kids root rank members) (hnd : served.Nodup) (hsub : served ⊆ members)
    (hp : (served ++ waiting).Perm (root :: served.flatMap kids)) :
    (served ++ waiting).Subperm members ∧ (served ++ waiting).Nodup := by
  obtain ⟨l, hl, hlm⟩ := hp.subperm.trans (h.subperm_of_served hnd hsub)
  exact ⟨⟨l, hl, hlm⟩, hl.nodup_iff.mp (h.nodup.sublist hlm)⟩

theorem done (h : Forest kids root rank members) (hnd : served.Nodup) (hsub : served ⊆ members)
    (hp : served.Perm (root :: served.flatMap kids)) : served.Perm members := by
  refine (hnd.subperm hsub).perm_of_length_le ?_
  refine (h.nodup.subperm fun d hd => ?_).length_le
  have hreach := h.reach_of_mem hd
  clear hd
  induction hreach with
  | refl => exact hp.mem_iff.mpr List.mem_cons_self
  | tail _ hd ih => exact hp.mem_iff.mpr (List.mem_cons_of_mem root (List.mem_flatMap.mpr ⟨_, ih, hd⟩))

theorem congr (h : Forest kids root rank members) (hm : members.Perm members')
    (hk : ∀ p ∈ members, (kids' p).Perm (kids p)) : Forest kids' root rank members' := by
  refine ⟨?_, hm.nodup_iff.mp h.nodup, fun p hp d hd => ?_⟩
  · have hkids : (members'.flatMap kids').Perm (members.flatMap kids) :=
      (hm.symm.flatMap_right kids').trans (List.Perm.flatMap_left members hk)
    exact hm.symm.trans (h.perm.trans (hkids.symm.cons root))
  · have hpm := hm.mem_iff.mpr hp
    exact h.climbs p hpm d ((hk p hpm).mem_iff.mp hd)

variable [DecidableEq α]

theorem grow (h : Forest kids root rank members) (hc : c ∉ members) (hp : p ∈ members)
    (hkp : (kids' p).Perm (c :: kids p)) (hkc : kids' c = []) (hkd : ∀ d ∈ members, d ≠ p → kids' d = kids d) :
    Forest kids' root (Function.update rank c (rank p + 1)) (c :: members) := by
  have hout : ∀ d ∈ members, Function.update rank c (rank p + 1) d = rank d :=
    fun d hd => Function.update_of_ne (ne_of_mem_of_not_mem hd hc) _ _
  have hkids : (members.flatMap kids').Perm (c :: members.flatMap kids) :=
    @flatMap_perm_append α α _ kids' kids members [c] p h.nodup hp hkp hkd
  refine ⟨?_, List.nodup_cons.mpr ⟨hc, h.nodup⟩, fun q hq d hd => ?_⟩
  · rw [List.flatMap_cons, hkc, List.nil_append]
    exact (h.perm.cons c).trans ((List.Perm.swap root c _).trans (hkids.symm.cons root))
  · rcases List.mem_cons.mp hq with rfl | hq
    · rw [hkc] at hd
      exact absurd hd List.not_mem_nil
    · rw [hout q hq]
      by_cases hqp : q = p
      · subst hqp
        rcases List.mem_cons.mp (hkp.mem_iff.mp hd) with rfl | hd
        · rw [Function.update_self]
          exact Nat.lt_succ_self _
        · rw [hout d (h.kid_mem hq hd)]
          exact h.climbs q hq d hd
      · rw [hkd q hq hqp] at hd
        rw [hout d (h.kid_mem hq hd)]
        exact h.climbs q hq d hd

theorem prune (h : Forest kids root rank members) (hm : members.Perm (q :: rest)) (hp : p ∈ members)
    (hkp : (kids p).Perm (q :: kids' p)) (hkq : kids q = []) (hkd : ∀ d ∈ rest, d ≠ p → kids' d = kids d) :
    Forest kids' root rank rest := by
  have hnd := hm.nodup_iff.mp h.nodup
  have hpq : p ≠ q := by
    rintro rfl
    rw [hkq] at hkp
    exact absurd hkp.symm (List.not_perm_cons_nil)
  have hpr : p ∈ rest := List.mem_of_ne_of_mem hpq (hm.mem_iff.mp hp)
  have hkids : (rest.flatMap kids).Perm (q :: rest.flatMap kids') :=
    @flatMap_perm_append α α _ kids kids' rest [q] p (List.nodup_cons.mp hnd).2 hpr hkp
      fun d hd hne => (hkd d hd hne).symm
  have hall : (q :: rest).Perm (q :: root :: rest.flatMap kids') := by
    have hold : (q :: rest).Perm (root :: (q :: rest).flatMap kids) :=
      hm.symm.trans (h.perm.trans ((hm.flatMap_right kids).cons root))
    rw [List.flatMap_cons, hkq, List.nil_append] at hold
    exact hold.trans ((hkids.cons root).trans (List.Perm.swap q root _))
  refine ⟨hall.cons_inv, (List.nodup_cons.mp hnd).2, fun d hd e he => ?_⟩
  have hdm : d ∈ members := hm.mem_iff.mpr (List.mem_cons_of_mem q hd)
  by_cases hdp : d = p
  · subst hdp
    exact h.climbs d hdm e (hkp.mem_iff.mpr (List.mem_cons_of_mem q he))
  · rw [hkd d hd hdp] at he
    exact h.climbs d hdm e he

end Forest
end Ezos.Lib.Forests
