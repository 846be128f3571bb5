import Mathlib.Data.List.Basic
import Mathlib.Data.Nat.ModEq

/-!
# A queue in a ring buffer

Indices only grow; slot `i` lies at `i % cap`. The contents are those between `head` and
`tail`, which are never further apart than the capacity.
-/

namespace Ezos.Lib.Ring

set_option autoImplicit false

universe u
variable {α : Type u}

def contents (q : Nat → α) (cap head tail : Nat) : List α :=
  (List.range (tail - head)).map fun i => q ((head + i) % cap)

def put (q : Nat → α) (i : Nat) (x : α) : Nat → α := fun j => if j = i then x else q j

variable {q : Nat → α} {cap head tail : Nat} {x : α}

@[simp] theorem length_contents : (contents q cap head tail).length = tail - head := by
  rw [contents, List.length_map, List.length_range]

theorem contents_eq_nil (h : tail ≤ head) : contents q cap head tail = [] := by
  rw [contents, Nat.sub_eq_zero_of_le h, List.range_zero, List.map_nil]

theorem contents_eq_cons (h : head < tail) :
    contents q cap head tail = q (head % cap) :: contents q cap (head + 1) tail := by
  have hlen : tail - head = tail - (head + 1) + 1 := by omega
  rw [contents, hlen, List.range_succ_eq_map, List.map_cons, List.map_map, Nat.add_zero]
  refine congrArg _ (List.map_congr_left fun i _ => ?_)
  exact congrArg (fun j => q (j % cap)) (by omega)

theorem contents_append (mid : Nat) (h : head ≤ mid) (h' : mid ≤ tail) :
    contents q cap head tail = contents q cap head mid ++ contents q cap mid tail := by
  induction h' with
  | refl => rw [contents_eq_nil (Nat.le_refl mid), List.append_nil]
  | @step tail h' ih =>
    have hpush : ∀ {a}, a ≤ tail →
        contents q cap a (tail + 1) = contents q cap a tail ++ [q (tail % cap)] := by
      intro a ha
      have hlen : tail + 1 - a = tail - a + 1 := by omega
      rw [contents, hlen, List.range_succ, List.map_append, List.map_singleton, Nat.add_sub_cancel' ha]
      rfl
    rw [Nat.succ_eq_add_one, hpush (Nat.le_trans h h'), hpush h', ih, List.append_assoc]

theorem contents_push (h : head ≤ tail) (hroom : tail - head < cap) :
    contents (put q (tail % cap) x) cap head (tail + 1) = contents q cap head tail ++ [x] := by
  have hlen : tail + 1 - head = tail - head + 1 := by omega
  rw [contents, hlen, List.range_succ, List.map_append, contents]
  congr 1
  · apply List.map_congr_left
    intro i hi
    have hi' := List.mem_range.mp hi
    -- two places less than `cap` apart are different slots
    have hne : (head + i) % cap ≠ tail % cap := by
      intro he
      have hdvd : cap ∣ tail - (head + i) :=
        Nat.dvd_of_mod_eq_zero (Nat.sub_mod_eq_zero_of_mod_eq he.symm)
      have hle := Nat.le_of_dvd (by omega) hdvd
      omega
    exact if_neg hne
  · rw [List.map_singleton, Nat.add_sub_cancel' h]
    exact congrArg (fun y => [y]) (if_pos rfl)

theorem contents_mid {a b c : List α} (h : contents q cap head tail = a ++ (b ++ c)) :
    contents q cap (head + a.length) (head + a.length + b.length) = b := by
  have hlen := congrArg List.length h
  rw [length_contents, List.length_append, List.length_append] at hlen
  by_cases hle : head ≤ tail
  · rw [contents_append (head + a.length) (by omega) (by omega)] at h
    have hrest := (List.append_inj h (by rw [length_contents]; omega)).2
    rw [contents_append (head + a.length + b.length) (by omega) (by omega)] at hrest
    exact (List.append_inj hrest (by rw [length_contents]; omega)).1
  · have hnil : b = [] := List.length_eq_zero_iff.mp (by omega)
    rw [hnil]
    exact contents_eq_nil (Nat.le_refl _)

def putAll (q : Nat → α) (cap i : Nat) : List α → Nat → α
  | [] => q
  | x :: xs => putAll (put q (i % cap) x) cap (i + 1) xs

theorem contents_putAll {xs : List α} (h : head ≤ tail) (hroom : tail - head + xs.length ≤ cap) :
    contents (putAll q cap tail xs) cap head (tail + xs.length) = contents q cap head tail ++ xs := by
  induction xs generalizing q tail with
  | nil => exact (List.append_nil _).symm
  | cons x xs ih =>
    rw [List.length_cons] at hroom
    have hone : contents (put q (tail % cap) x) cap head (tail + 1) = contents q cap head tail ++ [x] :=
      contents_push h (by omega)
    have hlen : tail + (x :: xs).length = tail + 1 + xs.length := by
      rw [List.length_cons]
      omega
    rw [hlen, putAll, ih (Nat.le_succ_of_le h) (by omega), hone, List.append_assoc]
    rfl

theorem putAll_congr {xs : List α} {i j : Nat} (h : i % cap = j % cap) :
    putAll q cap i xs = putAll q cap j xs := by
  induction xs generalizing q i j with
  | nil => rfl
  | cons x xs ih =>
    have hnext : (i + 1) % cap = (j + 1) % cap := by
      rw [Nat.add_mod, h, ← Nat.add_mod]
    rw [putAll, putAll, h, ih hnext]

theorem contents_mod {n : Nat} :
    contents q cap (head % cap) (head % cap + n) = contents q cap head (head + n) := by
  rw [contents, contents, Nat.add_sub_cancel_left, Nat.add_sub_cancel_left]
  apply List.map_congr_left
  intro i _
  rw [Nat.mod_add_mod]

/-! ## Phase tags

The writer marks each slot with a tag that changes from lap to lap; the reader needs no tail. -/

def tag (cap n : Nat) : Bool := n / cap % 2 == 0

theorem tag_add_cap {n : Nat} (hcap : 0 < cap) : tag cap (n + cap) = !tag cap n := by
  rw [tag, tag, Nat.add_div_right n hcap]
  rcases Nat.mod_two_eq_zero_or_one (n / cap) with h | h
  · have hnext : (n / cap).succ % 2 = 1 := by omega
    rw [h, hnext]
    rfl
  · have hnext : (n / cap).succ % 2 = 0 := by omega
    rw [h, hnext]
    rfl

theorem succ_slot {n : Nat} (hcap : 0 < cap) :
    (n + 1) % cap = if cap ≤ n % cap + 1 then 0 else n % cap + 1 := by
  have hlt := Nat.mod_lt n hcap
  rw [Nat.add_mod]
  split
  next h =>
    have heq : n % cap + 1 = cap := by omega
    by_cases hone : cap = 1
    · subst hone
      exact Nat.mod_one _
    · rw [Nat.mod_eq_of_lt (show 1 < cap by omega), heq, Nat.mod_self]
  next h => rw [Nat.mod_eq_of_lt (show 1 < cap by omega), Nat.mod_eq_of_lt (show n % cap + 1 < cap by omega)]

theorem succ_tag {n : Nat} (hcap : 0 < cap) :
    tag cap (n + 1) = if cap ≤ n % cap + 1 then !tag cap n else tag cap n := by
  have hlt := Nat.mod_lt n hcap
  have hdiv := Nat.div_add_mod n cap
  split
  next h =>
    have heq : n + 1 = cap * (n / cap + 1) := by
      rw [Nat.mul_succ]
      omega
    have hzero : n + cap = cap * (n / cap + 1) + n % cap := by
      rw [Nat.mul_succ]
      omega
    rw [← tag_add_cap hcap, tag, tag, heq, hzero, Nat.mul_div_cancel_left _ hcap, Nat.mul_add_div hcap,
      Nat.div_eq_of_lt hlt, Nat.add_zero]
  next h =>
    have heq : n + 1 = cap * (n / cap) + (n % cap + 1) := by omega
    have hrest : (n % cap + 1) / cap = 0 := Nat.div_eq_of_lt (by omega)
    have hsame : (n + 1) / cap = n / cap := by rw [heq, Nat.mul_add_div hcap, hrest, Nat.add_zero]
    rw [tag, tag, hsame]

def Tagged (tagOf : α → Bool) (q : Nat → α) (cap head tail : Nat) : Prop :=
  ∀ n, head ≤ n → n < head + cap → (tagOf (q (n % cap)) = tag cap n ↔ n < tail)

namespace Tagged
variable {tagOf : α → Bool}

theorem first (h : ∀ i, tagOf (q i) = false) : Tagged tagOf q cap 0 0 := by
  intro n _ hn
  have hdiv : n / cap = 0 := Nat.div_eq_of_lt (by omega)
  rw [h, tag, hdiv]
  simp

theorem look (h : Tagged tagOf q cap head tail) (hcap : 0 < cap) :
    tagOf (q (head % cap)) = tag cap head ↔ head < tail :=
  h head (Nat.le_refl head) (Nat.lt_add_of_pos_right hcap)

theorem push (h : Tagged tagOf q cap head tail) (hx : tagOf x = tag cap tail) (hle : head ≤ tail)
    (hroom : tail < head + cap) : Tagged tagOf (put q (tail % cap) x) cap head (tail + 1) := by
  intro n hn hn'
  by_cases heq : n = tail
  · subst heq
    have hput : put q (n % cap) x (n % cap) = x := if_pos rfl
    rw [hput, hx]
    exact ⟨fun _ => Nat.lt_succ_self n, fun _ => rfl⟩
  · have hne : n % cap ≠ tail % cap := by
      intro he
      -- both lie in one lap that starts at the head
      have hsub : (n - head) % cap = (tail - head) % cap := by
        have hmod : (head + (n - head)) ≡ (head + (tail - head)) [MOD cap] := by
          rw [Nat.add_sub_cancel' hn, Nat.add_sub_cancel' hle]
          exact he
        exact Nat.ModEq.add_left_cancel' head hmod
      rw [Nat.mod_eq_of_lt (by omega), Nat.mod_eq_of_lt (by omega)] at hsub
      omega
    have hput : put q (tail % cap) x (n % cap) = q (n % cap) := if_neg hne
    rw [hput, h n hn hn']
    omega

theorem pop (h : Tagged tagOf q cap head tail) (hlt : head < tail) (hroom : tail ≤ head + cap) :
    Tagged tagOf q cap (head + 1) tail := by
  have hcap : 0 < cap := by omega
  intro n hn hn'
  by_cases heq : n = head + cap
  · subst heq
    have hold := (h.look hcap).mpr hlt
    rw [Nat.add_mod_right, hold, tag_add_cap hcap]
    constructor
    · intro hbad
      cases htag : tag cap head <;> rw [htag] at hbad <;> cases hbad
    · intro hbad
      omega
  · exact h n (by omega) (by omega)

end Tagged

end Ezos.Lib.Ring
