import Mathlib.Data.Fintype.Basic
import Mathlib.Order.WellFounded
import Mathlib.Data.Fintype.EquivFin
import Mathlib.Data.List.Basic

/-!
# Breadth-first traversal without a visited set

A queue of bounded capacity is served front first, and every vertex served puts its
successors at the back, seen before or not. Served so, the queue runs through the levels of
the unfolding of the graph. It comes to an end in two ways only: a level is empty, or the
queue overflows.
-/

namespace Ezos.Lib.Unfold

set_option autoImplicit false

universe u
variable {α : Type u} (children : α → List α) (cap : Nat)

def serve : Nat → List α → Option Bool
  | 0, _ => none
  | _ + 1, [] => some true
  | fuel + 1, d :: rest =>
    if cap < rest.length + (children d).length then some false
    else serve fuel (rest ++ children d)

def Never (queue : List α) : Prop := ∀ fuel, serve children cap fuel queue = none

def level (x : α) : Nat → List α
  | 0 => [x]
  | k + 1 => (level x k).flatMap children

def Overflows (root : α) : Prop :=
  ∃ k pre d post, level children root k = pre ++ d :: post ∧
    cap < post.length + ((pre ++ [d]).flatMap children).length

variable {children cap} {root : α} {queue : List α}

theorem Never.ne_nil (h : Never children cap queue) : queue ≠ [] := by
  intro hq
  have := h 1
  rw [hq] at this
  exact nomatch this

theorem Never.next {d : α} {rest : List α} (h : Never children cap (d :: rest)) :
    ¬ cap < rest.length + (children d).length ∧ Never children cap (rest ++ children d) := by
  have hfit : ¬ cap < rest.length + (children d).length := by
    intro hover
    have := h 1
    rw [serve, if_pos hover] at this
    exact nomatch this
  refine ⟨hfit, fun fuel => ?_⟩
  have := h (fuel + 1)
  rwa [serve, if_neg hfit] at this

theorem Never.served {pre post acc : List α} (h : Never children cap (pre ++ (post ++ acc))) :
    Never children cap (post ++ (acc ++ pre.flatMap children)) := by
  induction pre generalizing acc with
  | nil => rwa [List.flatMap_nil, List.append_nil]
  | cons d pre ih =>
    rw [List.cons_append] at h
    have hnext := (Never.next h).2
    rw [List.append_assoc, List.append_assoc] at hnext
    have := ih hnext
    rwa [List.append_assoc, ← List.flatMap_cons] at this

theorem Never.level (h : Never children cap [root]) (k : Nat) :
    Never children cap (level children root k) := by
  induction k with
  | zero => exact h
  | succ k ih =>
    have hall : Never children cap (Unfold.level children root k ++ ([] ++ [])) := by
      rwa [List.append_nil, List.append_nil]
    exact hall.served

theorem Never.not_overflows (h : Never children cap [root]) : ¬ Overflows children cap root := by
  rintro ⟨k, pre, d, post, hk, hover⟩
  have hlevel := h.level k
  rw [hk, ← List.append_nil (d :: post)] at hlevel
  have hserved := hlevel.served
  rw [List.cons_append] at hserved
  have hfit := (Never.next hserved).1
  rw [List.flatMap_append, List.length_append, List.flatMap_singleton] at hover
  rw [List.length_append, List.nil_append] at hfit
  omega

def Stage (children : α → List α) (root : α) (queue : List α) : Prop :=
  ∃ k pre post, level children root k = pre ++ post ∧ queue = post ++ pre.flatMap children

theorem Stage.next {d : α} {rest : List α} (h : Stage children root (d :: rest))
    (hover : ¬ Overflows children cap root) :
    ¬ cap < rest.length + (children d).length ∧ Stage children root (rest ++ children d) := by
  have hone : ∀ {k pre post}, Unfold.level children root k = pre ++ d :: post →
      rest = post ++ pre.flatMap children →
      ¬ cap < rest.length + (children d).length ∧ Stage children root (rest ++ children d) := by
    rintro k pre post hk rfl
    constructor
    · intro hbig
      apply hover
      refine ⟨k, pre, d, post, hk, ?_⟩
      rw [List.flatMap_append, List.length_append, List.flatMap_singleton]
      rw [List.length_append] at hbig
      omega
    · refine ⟨k, pre ++ [d], post, ?_, ?_⟩
      · rw [hk, List.append_assoc, List.singleton_append]
      · rw [List.flatMap_append, List.flatMap_singleton, List.append_assoc]
  obtain ⟨k, pre, post, hk, hq⟩ := h
  cases post with
  | cons e post =>
    obtain ⟨rfl, hrest⟩ := List.cons.inj hq
    exact hone hk hrest
  | nil =>
    -- the level is served out, and what is queued is the next one
    rw [List.append_nil] at hk
    have hnext : Unfold.level children root (k + 1) = [] ++ d :: rest := by
      rw [List.nil_append, hq, List.nil_append, ← hk]
      rfl
    exact hone hnext (by rw [List.flatMap_nil, List.append_nil])

theorem Stage.ne_nil (h : Stage children root queue)
    (hall : ∀ k, Unfold.level children root k ≠ []) : queue ≠ [] := by
  rintro rfl
  obtain ⟨k, pre, post, hk, hq⟩ := h
  obtain ⟨rfl, hpre⟩ := List.append_eq_nil_iff.mp hq.symm
  rw [List.append_nil] at hk
  apply hall (k + 1)
  rw [← hk] at hpre
  exact hpre

theorem Stage.never (h : Stage children root queue) (hall : ∀ k, Unfold.level children root k ≠ [])
    (hover : ¬ Overflows children cap root) : Never children cap queue := by
  intro fuel
  induction fuel generalizing queue with
  | zero => rfl
  | succ fuel ih =>
    cases queue with
    | nil => exact absurd rfl (h.ne_nil hall)
    | cons d rest =>
      obtain ⟨hfit, hnext⟩ := h.next hover
      rw [serve, if_neg hfit]
      exact ih hnext

theorem never_iff : Never children cap [root] ↔
    (∀ k, level children root k ≠ []) ∧ ¬ Overflows children cap root := by
  constructor
  · intro h
    exact ⟨fun k => (h.level k).ne_nil, h.not_overflows⟩
  · rintro ⟨hall, hover⟩
    have hstart : Stage children root [root] := ⟨0, [], [root], rfl, by simp⟩
    exact hstart.never hall hover

def Edge (children : α → List α) (x y : α) : Prop := y ∈ children x

def CycleBelow (children : α → List α) (root : α) : Prop :=
  ∃ x, Relation.ReflTransGen (Edge children) root x ∧ Relation.TransGen (Edge children) x x

theorem level_succ (x : α) (k : Nat) :
    level children x (k + 1) = (children x).flatMap fun y => level children y k := by
  induction k generalizing x with
  | zero => simp [level]
  | succ k ih =>
    rw [level, ih, List.flatMap_assoc]
    rfl

theorem level_eq_nil_mono {x : α} {k l : Nat} (h : level children x k = []) (hkl : k ≤ l) :
    level children x l = [] := by
  induction hkl with
  | refl => exact h
  | step _ ih => rw [level, ih, List.flatMap_nil]

theorem exists_level_eq_nil [Finite { x // Relation.ReflTransGen (Edge children) root x }] (h : ¬ CycleBelow children root) :
    ∃ k, level children root k = [] := by
  let Below := { x : α // Relation.ReflTransGen (Edge children) root x }
  let R : Below → Below → Prop := fun x y => Relation.TransGen (Edge children) y.1 x.1
  have htrans : IsTrans Below R := ⟨fun _ _ _ hxy hyz => hyz.trans hxy⟩
  have hirrefl : Std.Irrefl R := ⟨fun x hx => h ⟨x.1, x.2, hx⟩⟩
  have hwf : WellFounded R := Finite.wellFounded_of_trans_of_irrefl R
  have hall : ∀ x : Below, ∃ k, level children x.1 k = [] := by
    intro x
    induction x using hwf.induction with
    | _ x ih =>
      have hkids : ∀ y ∈ children x.1, ∃ k, level children y k = [] := fun y hy =>
        ih ⟨y, x.2.tail hy⟩ (.single hy)
      have hmax : ∀ l : List α, (∀ y ∈ l, ∃ k, level children y k = []) →
          ∃ k, ∀ y ∈ l, level children y k = [] := by
        intro l
        induction l with
        | nil => exact fun _ => ⟨0, nofun⟩
        | cons y l ihl =>
          intro hl
          obtain ⟨k, hk⟩ := hl y (List.mem_cons_self ..)
          obtain ⟨k', hk'⟩ := ihl fun z hz => hl z (List.mem_cons_of_mem y hz)
          refine ⟨max k k', ?_⟩
          intro z hz
          rcases List.mem_cons.mp hz with rfl | hz
          · exact level_eq_nil_mono hk (Nat.le_max_left ..)
          · exact level_eq_nil_mono (hk' z hz) (Nat.le_max_right ..)
      obtain ⟨k, hk⟩ := hmax _ hkids
      refine ⟨k + 1, ?_⟩
      rw [level_succ, List.flatMap_eq_nil_iff]
      exact hk
  exact hall ⟨root, .refl⟩

theorem exists_mem_level_of_reaches {x y : α} (h : Relation.ReflTransGen (Edge children) x y) :
    ∃ k, y ∈ level children x k := by
  induction h with
  | refl => exact ⟨0, List.mem_singleton.mpr rfl⟩
  | tail _ hyz ih =>
    obtain ⟨k, hk⟩ := ih
    exact ⟨k + 1, List.mem_flatMap.mpr ⟨_, hk, hyz⟩⟩

theorem mem_level_trans {x y z : α} {k l : Nat} (h : y ∈ level children x k)
    (h' : z ∈ level children y l) : z ∈ level children x (k + l) := by
  induction l generalizing z with
  | zero =>
    obtain rfl := List.mem_singleton.mp h'
    exact h
  | succ l ih =>
    obtain ⟨w, hw, hz⟩ := List.mem_flatMap.mp h'
    exact List.mem_flatMap.mpr ⟨w, ih hw, hz⟩

theorem level_ne_nil_of_cycle (h : CycleBelow children root) (k : Nat) :
    level children root k ≠ [] := by
  obtain ⟨x, hroot, hcycle⟩ := h
  obtain ⟨y, hxy, hyx⟩ := Relation.TransGen.head'_iff.mp hcycle
  obtain ⟨a, ha⟩ := exists_mem_level_of_reaches hroot
  obtain ⟨b, hb⟩ := exists_mem_level_of_reaches hyx
  have hone : y ∈ level children x 1 := List.mem_flatMap.mpr ⟨x, List.mem_singleton.mpr rfl, hxy⟩
  have hround : x ∈ level children x (1 + b) := mem_level_trans hone hb
  -- going round the cycle reaches every depth that is needed
  have hdeep : ∀ n, ∃ d, n ≤ d ∧ x ∈ level children root d := by
    intro n
    induction n with
    | zero => exact ⟨a, Nat.zero_le a, ha⟩
    | succ n ih =>
      obtain ⟨d, hd, hx⟩ := ih
      exact ⟨d + (1 + b), by omega, mem_level_trans hx hround⟩
  obtain ⟨d, hd, hx⟩ := hdeep k
  intro hnil
  rw [level_eq_nil_mono hnil hd] at hx
  exact nomatch hx

/-- When finitely many vertices lie below the root, the queue is never done with exactly when there is a
cycle below the root and the queue is large enough for the whole unfolding. -/
theorem never_iff_cycle [Finite { x // Relation.ReflTransGen (Edge children) root x }] : Never children cap [root] ↔
    CycleBelow children root ∧ ¬ Overflows children cap root := by
  rw [never_iff]
  apply and_congr_left
  intro _
  constructor
  · intro hall
    by_contra hno
    obtain ⟨k, hk⟩ := exists_level_eq_nil hno
    exact hall k hk
  · exact level_ne_nil_of_cycle

end Ezos.Lib.Unfold
