import Mathlib.Data.Fintype.Card
import Mathlib.Data.List.Nodup
import Mathlib.Logic.Function.Basic

/-!
# Singly linked lists whose links lie in the members

`Linked next h L` says that the pointer `h` starts the chain `L`. A `Place` is where a pointer to a
member is stored: the head, or the link of the member before.
-/

namespace Ezos.Lib.Intrusive

set_option autoImplicit false

universe u
variable {ι : Type u}

def Linked (next : ι → Option ι) : Option ι → List ι → Prop
  | h, [] => h = none
  | h, i :: L => h = some i ∧ Linked next (next i) L

inductive Place (ι : Type u)
  | head
  | after (i : ι)

def load (next : ι → Option ι) (head : Option ι) : Place ι → Option ι
  | .head => head
  | .after i => next i

variable {next : ι → Option ι} {h head : Option ι} {L A B : List ι} {x i j : ι} {p : Place ι}
  {n : Nat}

theorem linked_unique {L' : List ι} (hL : Linked next h L) (hL' : Linked next h L') : L = L' := by
  induction L generalizing h L' with
  | nil =>
    cases L' with
    | nil => rfl
    | cons j L' => exact absurd (hL.symm.trans hL'.1) (by simp)
  | cons i L ih =>
    cases L' with
    | nil => exact absurd (hL'.symm.trans hL.1) (by simp)
    | cons j L' =>
      obtain rfl : i = j := Option.some.inj (hL.1.symm.trans hL'.1)
      exact congrArg (i :: ·) (ih hL.2 hL'.2)

theorem linked_congr {next' : ι → Option ι} (hn : ∀ i ∈ L, next' i = next i) (hL : Linked next h L) :
    Linked next' h L := by
  induction L generalizing h with
  | nil => exact hL
  | cons i L ih =>
    refine ⟨hL.1, ?_⟩
    rw [hn i List.mem_cons_self]
    exact ih (fun j hj => hn j (List.mem_cons_of_mem i hj)) hL.2

def placeAfter (p : Place ι) : List ι → Place ι
  | [] => p
  | i :: A => placeAfter (.after i) A

theorem placeAfter_after (A : List ι) (j : ι) : ∃ i ∈ j :: A, placeAfter (.after j) A = .after i := by
  induction A generalizing j with
  | nil => exact ⟨j, List.mem_cons_self, rfl⟩
  | cons a A ih =>
    obtain ⟨i, hi, he⟩ := ih a
    exact ⟨i, List.mem_cons_of_mem j hi, he⟩

variable [DecidableEq ι]

theorem linked_update {v : Option ι} (hx : x ∉ L) (hL : Linked next h L) :
    Linked (Function.update next x v) h L := by
  refine linked_congr (fun i hi => ?_) hL
  exact Function.update_of_ne (ne_of_mem_of_not_mem hi hx) _ _

theorem linked_push (hx : x ∉ L) (hL : Linked next h L) :
    Linked (Function.update next x h) (some x) (x :: L) := by
  refine ⟨rfl, ?_⟩
  rw [Function.update_self]
  exact linked_update hx hL

def seek (next : ι → Option ι) (head : Option ι) (x : ι) : Nat → Place ι → Option (Place ι)
  | 0, _ => none
  | n + 1, p =>
    match load next head p with
    | none => none
    | some i => if i = x then some p else seek next head x n (.after i)

theorem seek_of_mem (hx : x ∉ A) (hL : Linked next (load next head p) (A ++ x :: B))
    (hn : A.length < n) : seek next head x n p = some (placeAfter p A) := by
  induction A generalizing n p with
  | nil =>
    cases n with
    | zero => exact absurd hn (Nat.not_lt_zero _)
    | succ n =>
      rw [seek, hL.1]
      exact if_pos rfl
  | cons i A ih =>
    cases n with
    | zero => exact absurd hn (Nat.not_lt_zero _)
    | succ n =>
      have hne : i ≠ x := (List.ne_of_not_mem_cons hx).symm
      rw [seek, hL.1]
      simp only [if_neg hne]
      exact ih (List.not_mem_of_not_mem_cons hx) hL.2 (Nat.lt_of_succ_lt_succ hn)

def unlink (next : ι → Option ι) (head : Option ι) (x : ι) : Place ι → (ι → Option ι) × Option ι
  | .head => (Function.update next x none, next x)
  | .after i => (Function.update (Function.update next i (next x)) x none, head)

theorem unlink_after_of_not_mem (hi : i ≠ x) (hA : i ∉ j :: A) :
    (unlink next head x (placeAfter (.after j) A)).1 i = next i := by
  obtain ⟨k, hk, he⟩ := placeAfter_after A j
  rw [he]
  refine (Function.update_of_ne hi _ _).trans (Function.update_of_ne ?_ _ _)
  exact (ne_of_mem_of_not_mem hk hA).symm

theorem unlink_of_not_mem (hi : i ∉ A ++ x :: B) :
    (unlink next head x (placeAfter .head A)).1 i = next i := by
  have hix : i ≠ x := fun he => hi (he ▸ List.mem_append_right A List.mem_cons_self)
  have hiA : i ∉ A := fun h => hi (List.mem_append_left _ h)
  cases A with
  | nil => exact Function.update_of_ne hix _ _
  | cons a A => exact unlink_after_of_not_mem hix hiA

theorem linked_unlink_after (hnd : (j :: A ++ x :: B).Nodup) (hL : Linked next (next j) (A ++ x :: B)) :
    let u := unlink next head x (placeAfter (.after j) A)
    Linked u.1 (u.1 j) (A ++ B) := by
  intro u
  induction A generalizing j with
  | nil =>
    obtain ⟨hj, hnd⟩ := List.nodup_cons.mp hnd
    obtain ⟨hx, -⟩ := List.nodup_cons.mp hnd
    have hjx : j ≠ x := List.ne_of_not_mem_cons hj
    have hu : u.1 j = next x := by
      rw [show u.1 j = Function.update (Function.update next j (next x)) x none j from rfl,
        Function.update_of_ne hjx, Function.update_self]
    rw [hu]
    exact linked_update hx (linked_update (List.not_mem_of_not_mem_cons hj) hL.2)
  | cons a A ih =>
    obtain ⟨hj, hnd⟩ := List.nodup_cons.mp hnd
    have hjx : j ≠ x := fun he => hj (he ▸ List.mem_append_right _ List.mem_cons_self)
    have hjA : j ∉ a :: A := fun h => hj (List.mem_append_left _ h)
    refine ⟨?_, ih hnd hL.2⟩
    exact (unlink_after_of_not_mem hjx hjA).trans hL.1

theorem linked_unlink (hnd : (A ++ x :: B).Nodup) (hL : Linked next head (A ++ x :: B)) :
    Linked (unlink next head x (placeAfter .head A)).1 (unlink next head x (placeAfter .head A)).2
      (A ++ B) := by
  cases A with
  | nil =>
    obtain ⟨hx, -⟩ := List.nodup_cons.mp hnd
    exact linked_update hx hL.2
  | cons a A =>
    have hhead : (unlink next head x (placeAfter .head (a :: A))).2 = head := by
      obtain ⟨k, -, he⟩ := placeAfter_after A a
      rw [placeAfter, he, unlink]
    refine ⟨hhead.trans hL.1, ?_⟩
    exact linked_unlink_after hnd hL.2

def Wired {κ : Type u} (next : ι → Option ι) (on : ι → Option κ) (heads : κ → Option ι) (Q : κ → Prop) :
    Prop :=
  ∀ q, Q q → ∃ L, Linked next (heads q) L ∧ L.Nodup ∧ ∀ i, i ∈ L ↔ on i = some q

namespace Wired
variable {κ : Type u} [DecidableEq κ] {on : ι → Option κ} {heads : κ → Option ι} {Q : κ → Prop} {q : κ}

omit [DecidableEq ι] [DecidableEq κ] in
theorem mono {Q' : κ → Prop} (h : Wired next on heads Q) (hQ : ∀ q, Q' q → Q q) :
    Wired next on heads Q' := fun q hq => h q (hQ q hq)

omit [DecidableEq ι] [DecidableEq κ] in
theorem congr {next' : ι → Option ι} (h : Wired next on heads Q)
    (hn : ∀ i, on i ≠ none → next' i = next i) : Wired next' on heads Q := by
  intro q hq
  obtain ⟨L, hL, hnd, hmem⟩ := h q hq
  refine ⟨L, linked_congr (fun i hi => hn i ?_) hL, hnd, hmem⟩
  rw [(hmem i).mp hi]
  exact Option.some_ne_none q

theorem push (h : Wired next on heads Q) (hi : on i = none) :
    Wired (Function.update next i (heads q)) (Function.update on i (some q))
      (Function.update heads q (some i)) Q := by
  intro r hr
  obtain ⟨L, hL, hnd, hmem⟩ := h r hr
  have hiL : i ∉ L := fun hm => by
    rw [(hmem i).mp hm] at hi
    cases hi
  by_cases hrq : r = q
  · subst hrq
    refine ⟨i :: L, ?_, List.nodup_cons.mpr ⟨hiL, hnd⟩, fun j => ?_⟩
    · rw [Function.update_self]
      exact linked_push hiL hL
    · by_cases hj : j = i
      · subst hj
        rw [Function.update_self]
        exact iff_of_true List.mem_cons_self rfl
      · rw [Function.update_of_ne hj, List.mem_cons, ← hmem j]
        exact or_iff_right hj
  · refine ⟨L, ?_, hnd, fun j => ?_⟩
    · rw [Function.update_of_ne hrq]
      exact linked_update hiL hL
    · by_cases hj : j = i
      · subst hj
        rw [Function.update_self]
        exact iff_of_false hiL fun he => hrq (Option.some.inj he).symm
      · rw [Function.update_of_ne hj]
        exact hmem j

theorem remove [Fintype ι] (h : Wired next on heads Q) (hq : Q q) (hi : on i = some q)
    (hn : Fintype.card ι < n) :
    ∃ p, seek next (heads q) i n .head = some p ∧
      (∀ j, on j ≠ some q → (unlink next (heads q) i p).1 j = next j) ∧
      Wired (unlink next (heads q) i p).1 (Function.update on i none)
        (Function.update heads q (unlink next (heads q) i p).2) Q := by
  obtain ⟨L, hL, hnd, hmem⟩ := h q hq
  obtain ⟨A, B, rfl⟩ := List.append_of_mem ((hmem i).mpr hi)
  have hiA : i ∉ A := fun hA => (List.nodup_append.mp hnd).2.2 i hA i List.mem_cons_self rfl
  have hlen : A.length < n := by
    have hcard := hnd.length_le_card
    rw [List.length_append, List.length_cons] at hcard
    omega
  refine ⟨placeAfter .head A, seek_of_mem hiA hL hlen, fun j hj => ?_, fun r hr => ?_⟩
  · exact unlink_of_not_mem fun hj' => hj ((hmem j).mp hj')
  by_cases hrq : r = q
  · subst hrq
    have hnd' := List.nodup_middle.mp hnd
    refine ⟨A ++ B, ?_, (List.nodup_cons.mp hnd').2, fun j => ?_⟩
    · rw [Function.update_self]
      exact linked_unlink hnd hL
    · by_cases hj : j = i
      · subst hj
        rw [Function.update_self]
        exact iff_of_false (List.nodup_cons.mp hnd').1 (Option.some_ne_none r).symm
      · rw [Function.update_of_ne hj, ← hmem j]
        simp only [List.mem_append, List.mem_cons, hj, false_or]
  · obtain ⟨M, hM, hndM, hmemM⟩ := h r hr
    have happ : ∀ j ∈ M, j ∉ A ++ i :: B := fun j hj hj' => by
      have he := ((hmemM j).mp hj).symm.trans ((hmem j).mp hj')
      exact hrq (Option.some.inj he)
    refine ⟨M, ?_, hndM, fun j => ?_⟩
    · rw [Function.update_of_ne hrq]
      exact linked_congr (fun j hj => unlink_of_not_mem (happ j hj)) hM
    · by_cases hj : j = i
      · subst hj
        rw [Function.update_self]
        refine iff_of_false (fun hjM => ?_) (Option.some_ne_none r).symm
        exact happ j hjM ((hmem j).mpr hi)
      · rw [Function.update_of_ne hj]
        exact hmemM j

theorem leave {v w : Option ι} (h : Wired next on heads Q) (hq : ¬Q q) (hi : on i = some q) :
    Wired (Function.update next i v) (Function.update on i none) (Function.update heads q w) Q := by
  intro r hr
  obtain ⟨L, hL, hnd, hmem⟩ := h r hr
  have hrq : r ≠ q := fun he => hq (he ▸ hr)
  have hiL : i ∉ L := fun hm => hrq (Option.some.inj (((hmem i).mp hm).symm.trans hi))
  refine ⟨L, ?_, hnd, fun j => ?_⟩
  · rw [Function.update_of_ne hrq]
    exact linked_update hiL hL
  · by_cases hj : j = i
    · subst hj
      rw [Function.update_self]
      exact iff_of_false hiL (Option.some_ne_none r).symm
    · rw [Function.update_of_ne hj]
      exact hmem j

omit [DecidableEq ι] in
theorem clear {next' : ι → Option ι} {on' : ι → Option κ} (h : Wired next on heads Q)
    (hon : ∀ i, on' i = if on i = some q then none else on i)
    (hn : ∀ i, on i ≠ some q → next' i = next i) :
    Wired next' on' (Function.update heads q none) Q := by
  intro r hr
  by_cases hrq : r = q
  · subst hrq
    refine ⟨[], ?_, List.nodup_nil, fun i => ?_⟩
    · exact Function.update_self _ _ _
    · refine iff_of_false List.not_mem_nil ?_
      rw [hon]
      split
      · exact (Option.some_ne_none r).symm
      · assumption
  · obtain ⟨L, hL, hnd, hmem⟩ := h r hr
    have hne : ∀ i, on i = some r → on i ≠ some q := fun i hi hi' =>
      hrq (Option.some.inj (hi.symm.trans hi'))
    refine ⟨L, ?_, hnd, fun i => ?_⟩
    · rw [Function.update_of_ne hrq]
      exact linked_congr (fun i hi => hn i (hne i ((hmem i).mp hi))) hL
    · rw [hmem i, hon]
      by_cases hi : on i = some q
      · rw [if_pos hi, hi]
        exact iff_of_false (fun he => hrq (Option.some.inj he).symm) (Option.some_ne_none r).symm
      · rw [if_neg hi]

end Wired
end Ezos.Lib.Intrusive
