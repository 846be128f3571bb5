import Mathlib.Data.List.Basic
import Mathlib.Logic.Relation

/-!
# Programs over buffers whose accesses are checked

A program stops when it leaves a buffer, and when a loop takes more turns than it was given.
`Yields x Q` is total correctness: `x` does neither, and its result satisfies `Q`.
-/

namespace Ezos.Lib

set_option autoImplicit false

inductive Stop
  | outside | spinning

abbrev Prog := Except Stop

inductive Turn (σ β : Type)
  | again (s : σ)
  | leave (b : β)

def Turn.map {σ τ β γ : Type} (f : σ → τ) (g : β → γ) : Turn σ β → Turn τ γ
  | .again s => .again (f s)
  | .leave b => .leave (g b)

namespace Checked

variable {α β σ : Type}

def load (l : List α) (i : Nat) : Prog α :=
  match l[i]? with
  | some a => .ok a
  | none => .error .outside

def store (l : List α) (i : Nat) (a : α) : Prog (List α) :=
  if i < l.length then .ok (l.set i a) else .error .outside

/-- The elements `l[i], .., l[i + n - 1]`. -/
def slice (l : List α) (i n : Nat) : Prog (List α) :=
  if i + n ≤ l.length then .ok ((l.drop i).take n) else .error .outside

def storeAll (l : List α) (i : Nat) : List α → Prog (List α)
  | [] => .ok l
  | a :: as => do
    let l ← store l i a
    storeAll l (i + 1) as

def loop (body : σ → Prog (Turn σ β)) : Nat → σ → Prog β
  | 0, _ => .error .spinning
  | n + 1, s => do
    match ← body s with
    | .again s => loop body n s
    | .leave b => .ok b

def Yields (x : Prog α) (Q : α → Prop) : Prop := ∃ a, x = .ok a ∧ Q a

variable {x : Prog α} {f : α → Prog β} {P Q : α → Prop} {R : β → Prop}

theorem yields_ok {a : α} (h : Q a) : Yields (.ok a) Q := ⟨a, rfl, h⟩

theorem yields_pure {a : α} (h : Q a) : Yields (pure a) Q := ⟨a, rfl, h⟩

theorem Yields.bind (hx : Yields x P) (hf : ∀ a, P a → Yields (f a) R) : Yields (x >>= f) R := by
  obtain ⟨a, rfl, ha⟩ := hx
  exact hf a ha

theorem Yields.mono (hx : Yields x P) (h : ∀ a, P a → Q a) : Yields x Q := by
  obtain ⟨a, hxa, ha⟩ := hx
  exact ⟨a, hxa, h a ha⟩

theorem yields_ite {c : Prop} [Decidable c] {x y : Prog α} (hx : c → Yields x Q)
    (hy : ¬ c → Yields y Q) : Yields (if c then x else y) Q := by
  by_cases h : c
  · rw [if_pos h]
    exact hx h
  · rw [if_neg h]
    exact hy h

theorem Yields.and (hP : Yields x P) (hQ : Yields x Q) : Yields x fun a => P a ∧ Q a := by
  obtain ⟨a, hx, hPa⟩ := hP
  obtain ⟨b, hx', hQb⟩ := hQ
  rw [hx] at hx'
  injection hx' with hab
  exact ⟨a, hx, hPa, hab ▸ hQb⟩

theorem Yields.of_eq (hx : Yields x Q) {a : α} (ha : x = .ok a) : Q a := by
  obtain ⟨b, hb, hQ⟩ := hx
  rw [ha] at hb
  injection hb with hab
  exact hab ▸ hQ

theorem ok_bind (a : α) (f : α → Prog β) : (Except.ok a : Prog α) >>= f = f a := rfl

theorem bind_eq_ok {b : β} (h : x >>= f = .ok b) : ∃ a, x = .ok a ∧ f a = .ok b := by
  cases x with
  | error e => exact Except.noConfusion rfl rfl (heq_of_eq h)
  | ok a => exact ⟨a, rfl, h⟩

theorem load_eq {l : List α} {i : Nat} {a : α} (h : l[i]? = some a) : load l i = .ok a := by
  rw [load, h]

theorem yields_load {l : List α} {i : Nat} (h : i < l.length) : Yields (load l i) fun a => l[i]? = some a := by
  exact ⟨l[i], load_eq (List.getElem?_eq_getElem h), List.getElem?_eq_getElem h⟩

theorem yields_store {l : List α} {i : Nat} {a : α} (h : i < l.length) :
    Yields (store l i a) fun l' => l' = l.set i a := by
  rw [store, if_pos h]
  exact yields_ok rfl

theorem yields_slice {l : List α} {i n : Nat} (h : i + n ≤ l.length) :
    Yields (slice l i n) fun s => s = (l.drop i).take n := by
  rw [slice, if_pos h]
  exact yields_ok rfl

theorem yields_storeAll {l : List α} {as : List α} {i : Nat} (h : i + as.length ≤ l.length) :
    Yields (storeAll l i as) fun l' => l'.length = l.length ∧
      (∀ k, k < i ∨ i + as.length ≤ k → l'[k]? = l[k]?) ∧
      ∀ k, k < as.length → l'[i + k]? = as[k]? := by
  induction as generalizing l i with
  | nil => exact yields_ok ⟨rfl, fun _ _ => rfl, fun _ hk => absurd hk (Nat.not_lt_zero _)⟩
  | cons a as ih =>
    rw [List.length_cons] at h ⊢
    rw [storeAll]
    refine (yields_store (by omega)).bind ?_
    rintro _ rfl
    refine (ih (by rw [List.length_set]; omega)).mono ?_
    rintro l' ⟨hlen, hkept, hstored⟩
    refine ⟨by rw [hlen, List.length_set], ?_, ?_⟩
    · intro k hik
      rw [hkept k (by omega), List.getElem?_set_ne (by omega)]
    · intro k hk
      cases k with
      | zero =>
        rw [hkept (i + 0) (by omega), Nat.add_zero, List.getElem?_set_self (by omega)]
        rfl
      | succ k =>
        rw [List.getElem?_cons_succ, ← hstored k (by omega)]
        congr 1
        omega

theorem yields_loop {body : σ → Prog (Turn σ β)} (I : σ → Prop) (m : σ → Nat)
    (hbody : ∀ s, I s → Yields (body s) fun t =>
      match t with
      | .again s' => I s' ∧ m s' < m s
      | .leave b => R b)
    {n : Nat} {s : σ} (hs : I s) (hn : m s < n) : Yields (loop body n s) R := by
  induction n generalizing s with
  | zero => omega
  | succ n ih =>
    rw [loop]
    refine (hbody s hs).bind ?_
    intro t ht
    cases t with
    | again s' => exact ih ht.1 (by omega)
    | leave b => exact yields_ok ht

def Turns (body : σ → Prog (Turn σ β)) : σ → σ → Prop :=
  Relation.ReflTransGen fun s t => body s = .ok (.again t)

theorem turns_of_loop {body : σ → Prog (Turn σ β)} {n : Nat} {s : σ} {b : β}
    (h : loop body n s = .ok b) : ∃ t, Turns body s t ∧ body t = .ok (.leave b) := by
  induction n generalizing s with
  | zero => cases h
  | succ n ih =>
    rw [loop] at h
    obtain ⟨t, ht, h⟩ := bind_eq_ok h
    cases t with
    | again s' =>
      obtain ⟨u, hu, hb⟩ := ih h
      exact ⟨u, .head ht hu, hb⟩
    | leave b' =>
      injection h with h
      exact ⟨s, .refl, h ▸ ht⟩

theorem Turns.total {body : σ → Prog (Turn σ β)} {s t u : σ} {b : β} (ht : Turns body s t)
    (hu : Turns body s u) (hb : body u = .ok (.leave b)) : Turns body t u := by
  induction ht with
  | refl => exact hu
  | tail _ hstep ih =>
    rcases Relation.ReflTransGen.cases_head ih with heq | ⟨v, hv, hvu⟩
    · subst heq
      rw [hstep] at hb
      cases hb
    · rw [hstep] at hv
      injection hv with hv
      injection hv with hv
      exact hv ▸ hvu

theorem Turns.leaves_once {body : σ → Prog (Turn σ β)} {s t u : σ} {b c : β} (ht : Turns body s t)
    (hb : body t = .ok (.leave b)) (hu : Turns body s u) (hc : body u = .ok (.leave c)) : t = u := by
  rcases Relation.ReflTransGen.cases_head (ht.total hu hc) with heq | ⟨v, hv, -⟩
  · exact heq
  · rw [hb] at hv
    cases hv

theorem loop_map {τ γ : Type} {f : σ → τ} {g : β → γ} {body : σ → Prog (Turn σ β)}
    {body' : τ → Prog (Turn τ γ)} (h : ∀ s, body' (f s) = do pure ((← body s).map f g)) (n : Nat)
    (s : σ) : loop body' n (f s) = (do pure (g (← loop body n s))) := by
  induction n generalizing s with
  | zero => rfl
  | succ n ih =>
    rw [loop, loop, h]
    cases body s with
    | error e => rfl
    | ok t =>
      cases t with
      | again s' => exact ih s'
      | leave b => rfl

end Checked

end Ezos.Lib
