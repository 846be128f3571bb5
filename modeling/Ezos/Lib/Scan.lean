import Mathlib.Data.List.Basic

/-!
# Converters that read items of varying length into a bounded buffer

`head i a rest` reads the item that starts at index `i` with element `a`, and says how many
elements it is long; `put out b` appends its image, or refuses. What was appended before a
refusal stays in the buffer.
-/

namespace Ezos.Lib.Scan

set_option autoImplicit false

variable {α β γ δ : Type}

def scan (head : Nat → α → List α → β × Nat) (put : List γ → β → Option (List γ)) :
    Nat → List γ → Nat → List α → Bool × List γ
  | _, out, _, [] => (true, out)
  | i, out, skip + 1, _ :: rest => scan head put (i + 1) out skip rest
  | i, out, 0, a :: rest =>
    match put out (head i a rest).1 with
    | none => (false, out)
    | some out => scan head put (i + 1) out ((head i a rest).2 - 1) rest

def items (head : Nat → α → List α → β × Nat) : Nat → Nat → List α → List β
  | _, _, [] => []
  | i, skip + 1, _ :: rest => items head (i + 1) skip rest
  | i, 0, a :: rest => (head i a rest).1 :: items head (i + 1) ((head i a rest).2 - 1) rest

def emit (put : List γ → β → Option (List γ)) : List γ → List β → Bool × List γ
  | out, [] => (true, out)
  | out, b :: bs =>
    match put out b with
    | none => (false, out)
    | some out => emit put out bs

theorem scan_eq_emit (head : Nat → α → List α → β × Nat) (put : List γ → β → Option (List γ))
    (l : List α) (i skip : Nat) (out : List γ) :
    scan head put i out skip l = emit put out (items head i skip l) := by
  induction l generalizing i skip out with
  | nil => simp only [scan, items, emit]
  | cons a rest ih =>
    cases skip with
    | succ skip =>
      rw [scan, items]
      exact ih _ _ _
    | zero =>
      rw [scan, items, emit]
      cases put out (head i a rest).1 with
      | none => rfl
      | some out => exact ih _ _ _

theorem items_congr {head head' : Nat → α → List α → β × Nat} {n : Nat}
    (h : ∀ i < n, ∀ a rest, head i a rest = head' i a rest) (l : List α) (i skip : Nat)
    (hn : i + l.length ≤ n) : items head i skip l = items head' i skip l := by
  induction l generalizing i skip with
  | nil => simp only [items]
  | cons a rest ih =>
    rw [List.length_cons] at hn
    cases skip with
    | succ skip =>
      rw [items, items]
      exact ih _ _ (by omega)
    | zero =>
      rw [items, items, h i (by omega)]
      rw [ih _ _ (by omega)]

theorem items_skip (head : Nat → α → List α → β × Nat) (l : List α) (i skip : Nat) :
    items head i skip l = items head (i + skip) 0 (l.drop skip) := by
  induction skip generalizing l i with
  | zero => rfl
  | succ skip ih =>
    cases l with
    | nil => simp only [items, List.drop_nil]
    | cons a rest =>
      rw [items, ih, List.drop_succ_cons]
      congr 1
      omega

theorem items_index (head : α → List α → β × Nat) (l : List α) (i j skip : Nat) :
    items (fun _ => head) i skip l = items (fun _ => head) j skip l := by
  induction l generalizing i j skip with
  | nil => simp only [items]
  | cons a rest ih =>
    cases skip with
    | succ skip =>
      rw [items, items]
      exact ih _ _ _
    | zero =>
      rw [items, items]
      exact congrArg _ (ih _ _ _)

theorem items_flatMap {enc : δ → List α} {head : α → List α → β × Nat} {item : δ → β} (ds : List δ)
    (h : ∀ d ∈ ds, ∃ a t, enc d = a :: t ∧ ∀ rest, head a (t ++ rest) = (item d, t.length + 1))
    (i : Nat) : items (fun _ => head) i 0 (ds.flatMap enc) = ds.map item := by
  induction ds generalizing i with
  | nil => simp only [List.flatMap_nil, List.map_nil, items]
  | cons d ds ih =>
    obtain ⟨a, t, henc, hhead⟩ := h d (by simp)
    rw [List.flatMap_cons, henc, List.cons_append, items, hhead, Nat.add_sub_cancel, items_skip,
      List.drop_left, List.map_cons]
    exact congrArg _ (ih (fun x hx => h x (by simp [hx])) _)

variable {put : List γ → β → Option (List γ)} {image : β → List γ} {cap : Nat}

theorem emit_congr {put' : List γ → β → Option (List γ)} (h : ∀ out b, put out b = put' out b)
    (bs : List β) (out : List γ) : emit put out bs = emit put' out bs := by
  have heq : put = put' := funext fun out => funext fun b => h out b
  rw [heq]

section Bounded
variable (hput : ∀ out b, put out b =
  if out.length + (image b).length ≤ cap then some (out ++ image b) else none)
include hput

theorem emit_of_fits (bs : List β) (out : List γ)
    (hfit : out.length + (bs.flatMap image).length ≤ cap) :
    emit put out bs = (true, out ++ bs.flatMap image) := by
  induction bs generalizing out with
  | nil => rw [emit, List.flatMap_nil, List.append_nil]
  | cons b bs ih =>
    rw [List.flatMap_cons, List.length_append] at hfit
    rw [emit, hput, if_pos (by omega), List.flatMap_cons, ← List.append_assoc]
    exact ih _ (by rw [List.length_append]; omega)

theorem emit_of_not_fits (bs : List β) (out : List γ) (hout : out.length ≤ cap)
    (hfit : ¬ out.length + (bs.flatMap image).length ≤ cap) :
    (emit put out bs).1 = false := by
  induction bs generalizing out with
  | nil =>
    rw [List.flatMap_nil, List.length_nil] at hfit
    omega
  | cons b bs ih =>
    rw [List.flatMap_cons, List.length_append] at hfit
    rw [emit, hput]
    by_cases hb : out.length + (image b).length ≤ cap
    · rw [if_pos hb]
      apply ih
      · rwa [List.length_append]
      · rw [List.length_append]
        omega
    · rw [if_neg hb]

end Bounded

end Ezos.Lib.Scan
