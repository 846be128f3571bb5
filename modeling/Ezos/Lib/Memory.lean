import Mathlib.Algebra.Group.Nat.Defs
import Mathlib.Data.Nat.Basic

/-!
# Byte-addressed memory with little-endian 32-bit words

A write is visible at the address it went to and nowhere else; every lemma below is an
instance of that sentence for one kind of access.
-/

namespace Ezos.Lib.Memory

set_option autoImplicit false

abbrev Byte := BitVec 8
abbrev Word := BitVec 32
abbrev Mem := Nat → Byte

def read32 (m : Mem) (a : Nat) : Word := m (a + 3) ++ m (a + 2) ++ m (a + 1) ++ m a

def write32 (m : Mem) (a : Nat) (v : Word) : Mem := fun x =>
  if a ≤ x ∧ x < a + 4 then (v >>> (8 * (x - a))).setWidth 8 else m x

def read16 (m : Mem) (a : Nat) : BitVec 16 := m (a + 1) ++ m a

def read64 (m : Mem) (a : Nat) : BitVec 64 := read32 m (a + 4) ++ read32 m a

def fill (m : Mem) (a n : Nat) (v : Byte) : Mem := fun x =>
  if a ≤ x ∧ x < a + n then v else m x

/-- `memcpy(a, src, n)` from a buffer that is not part of `m`. -/
def copyIn (m : Mem) (a n : Nat) (src : Nat → Byte) : Mem := fun x =>
  if a ≤ x ∧ x < a + n then src (x - a) else m x

def zeros : Mem := fun _ => 0

def writeBytes (m : Mem) (a : Nat) (l : List Byte) : Mem := copyIn m a l.length fun i => l.getD i 0

def write16 (m : Mem) (a : Nat) (v : BitVec 16) : Mem :=
  writeBytes m a [v.setWidth 8, (v >>> 8).setWidth 8]

def write64 (m : Mem) (a : Nat) (v : BitVec 64) : Mem :=
  write32 (write32 m a (v.setWidth 32)) (a + 4) ((v >>> 32).setWidth 32)

def ChangesOnly (P : Nat → Prop) (m m' : Mem) : Prop := ∀ x, ¬ P x → m' x = m x

variable {m m' m'' : Mem} {a b n : Nat} {P Q : Nat → Prop}

theorem ChangesOnly.refl (m : Mem) : ChangesOnly P m m := fun _ _ => rfl

theorem ChangesOnly.trans (h : ChangesOnly P m m') (h' : ChangesOnly P m' m'') :
    ChangesOnly P m m'' := fun x hx => (h' x hx).trans (h x hx)

theorem ChangesOnly.mono (h : ChangesOnly P m m') (hpq : ∀ x, P x → Q x) :
    ChangesOnly Q m m' := fun x hx => h x (fun hp => hx (hpq x hp))

theorem changesOnly_write32 (m : Mem) (a : Nat) (v : Word) :
    ChangesOnly (fun x => a ≤ x ∧ x < a + 4) m (write32 m a v) := fun _ hx => if_neg hx

theorem changesOnly_fill (m : Mem) (a n : Nat) (v : Byte) :
    ChangesOnly (fun x => a ≤ x ∧ x < a + n) m (fill m a n v) := fun _ hx => if_neg hx

theorem changesOnly_copyIn (m : Mem) (a n : Nat) (src : Nat → Byte) :
    ChangesOnly (fun x => a ≤ x ∧ x < a + n) m (copyIn m a n src) := fun _ hx => if_neg hx

theorem read32_congr (h : ∀ x, a ≤ x → x < a + 4 → m' x = m x) : read32 m' a = read32 m a := by
  unfold read32
  rw [h a (by omega) (by omega), h (a + 1) (by omega) (by omega),
    h (a + 2) (by omega) (by omega), h (a + 3) (by omega) (by omega)]

theorem ChangesOnly.read32 (h : ChangesOnly P m m') (ha : ∀ x, a ≤ x → x < a + 4 → ¬ P x) :
    read32 m' a = read32 m a := read32_congr fun x hlo hhi => h x (ha x hlo hhi)

@[simp] theorem read32_write32_self (m : Mem) (a : Nat) (v : Word) :
    read32 (write32 m a v) a = v := by
  have hbyte : ∀ k < 4, write32 m a v (a + k) = (v >>> (8 * k)).setWidth 8 := by
    intro k hk
    rw [write32, if_pos (by omega), Nat.add_sub_cancel_left]
  have h0 := hbyte 0 (by omega)
  rw [Nat.add_zero] at h0
  rw [Memory.read32, h0, hbyte 1 (by omega), hbyte 2 (by omega), hbyte 3 (by omega)]
  apply BitVec.eq_of_getLsbD_eq
  intro i hi
  simp only [BitVec.getLsbD_append, BitVec.getLsbD_setWidth, BitVec.getLsbD_ushiftRight]
  by_cases h8 : i < 8
  · simp [h8]
  · by_cases h16 : i - 8 < 8
    · simp [h8, h16, show 8 + (i - 8) = i by omega]
    · by_cases h24 : i - 8 - 8 < 8
      · simp [h8, h16, h24, show 16 + (i - 8 - 8) = i by omega]
      · simp [h8, h16, h24, show 24 + (i - 8 - 8 - 8) = i by omega,
          show i - 8 - 8 - 8 < 8 by omega]

theorem read32_write32_of_disjoint (m : Mem) (v : Word) (h : a + 4 ≤ b ∨ b + 4 ≤ a) :
    read32 (write32 m a v) b = read32 m b :=
  (changesOnly_write32 m a v).read32 (by omega)

theorem read32_fill_zero (m : Mem) (hlo : a ≤ b) (hhi : b + 4 ≤ a + n) :
    read32 (fill m a n 0) b = 0 := by
  have hbyte : ∀ x, b ≤ x → x < b + 4 → fill m a n 0 x = 0 := fun x h1 h2 =>
    if_pos (by omega)
  rw [read32, hbyte b (by omega) (by omega), hbyte (b + 1) (by omega) (by omega),
    hbyte (b + 2) (by omega) (by omega), hbyte (b + 3) (by omega) (by omega)]
  rfl

theorem writeBytes_of_disjoint {l : List Byte} {x : Nat} (h : x < a ∨ a + l.length ≤ x) :
    writeBytes m a l x = m x := if_neg (by omega)

theorem writeBytes_inside {l : List Byte} {i : Nat} (h : i < l.length) : writeBytes m a l (a + i) = l.getD i 0 := by
  rw [writeBytes, copyIn, if_pos (by omega), Nat.add_sub_cancel_left]

theorem write16_of_disjoint {v : BitVec 16} {x : Nat} (h : x < a ∨ a + 2 ≤ x) : write16 m a v x = m x :=
  writeBytes_of_disjoint h

theorem read16_congr (h : ∀ x, a ≤ x → x < a + 2 → m' x = m x) : read16 m' a = read16 m a := by
  unfold read16
  rw [h a (by omega) (by omega), h (a + 1) (by omega) (by omega)]

@[simp] theorem read16_write16_self (m : Mem) (a : Nat) (v : BitVec 16) : read16 (write16 m a v) a = v := by
  have htwo : ∀ i, i < 2 → i < [v.setWidth 8, (v >>> 8).setWidth 8].length := fun _ hi => hi
  have hlo : write16 m a v a = v.setWidth 8 := writeBytes_inside (htwo 0 (by omega))
  have hhi : write16 m a v (a + 1) = (v >>> 8).setWidth 8 := writeBytes_inside (htwo 1 (by omega))
  rw [read16, hlo, hhi]
  apply BitVec.eq_of_getLsbD_eq
  intro i hi
  simp only [BitVec.getLsbD_append, BitVec.getLsbD_setWidth, BitVec.getLsbD_ushiftRight]
  by_cases h8 : i < 8
  · simp [h8]
  · have hback : 8 + (i - 8) = i := by omega
    have hlt : i - 8 < 8 := by omega
    simp [h8, hback, hlt]

theorem read16_write16_of_disjoint (m : Mem) (v : BitVec 16) (h : a + 2 ≤ b ∨ b + 2 ≤ a) :
    read16 (write16 m a v) b = read16 m b :=
  read16_congr fun x hlo hhi => write16_of_disjoint (by omega)

theorem write32_of_disjoint {v : Word} {x : Nat} (h : x < a ∨ a + 4 ≤ x) : write32 m a v x = m x := if_neg (by omega)

theorem read16_write32_of_disjoint (v : Word) (h : a + 4 ≤ b ∨ b + 2 ≤ a) : read16 (write32 m a v) b = read16 m b :=
  read16_congr fun _ _ _ => write32_of_disjoint (by omega)

theorem read32_write16_of_disjoint (v : BitVec 16) (h : a + 2 ≤ b ∨ b + 4 ≤ a) : read32 (write16 m a v) b = read32 m b :=
  read32_congr fun _ _ _ => write16_of_disjoint (by omega)

theorem read16_writeBytes_of_disjoint {l : List Byte} (h : a + l.length ≤ b ∨ b + 2 ≤ a) :
    read16 (writeBytes m a l) b = read16 m b :=
  read16_congr fun _ _ _ => writeBytes_of_disjoint (by omega)

theorem read32_writeBytes_of_disjoint {l : List Byte} (h : a + l.length ≤ b ∨ b + 4 ≤ a) :
    read32 (writeBytes m a l) b = read32 m b :=
  read32_congr fun _ _ _ => writeBytes_of_disjoint (by omega)

theorem read16_foldl_write16 {off : Nat → Nat} {u : Nat → BitVec 16} {l : List Nat}
    (hl : l.Pairwise fun i j => off i + 2 ≤ off j ∨ off j + 2 ≤ off i) {j : Nat} (hj : j ∈ l) :
    read16 (l.foldl (fun m i => write16 m (off i) (u i)) m) (off j) = u j := by
  have hkeep : ∀ {l : List Nat} {m : Mem}, (∀ i ∈ l, off j + 2 ≤ off i ∨ off i + 2 ≤ off j) →
      read16 (l.foldl (fun m i => write16 m (off i) (u i)) m) (off j) = read16 m (off j) := by
    intro l
    induction l with
    | nil => exact fun _ => rfl
    | cons i l ih =>
      intro m hl
      rw [List.foldl_cons, ih fun x hx => hl x (List.mem_cons_of_mem i hx)]
      exact read16_write16_of_disjoint m (u i) (hl i List.mem_cons_self).symm
  induction l generalizing m with
  | nil => exact absurd hj List.not_mem_nil
  | cons i l ih =>
    obtain ⟨hi, hl⟩ := List.pairwise_cons.mp hl
    rw [List.foldl_cons]
    rcases List.mem_cons.mp hj with rfl | hj
    · rw [hkeep hi, read16_write16_self]
    · exact ih hl hj

theorem foldl_write16_of_disjoint {off : Nat → Nat} {u : Nat → BitVec 16} {l : List Nat} {x : Nat}
    (h : ∀ i ∈ l, x < off i ∨ off i + 2 ≤ x) :
    l.foldl (fun m i => write16 m (off i) (u i)) m x = m x := by
  induction l generalizing m with
  | nil => rfl
  | cons i l ih =>
    rw [List.foldl_cons, ih fun j hj => h j (List.mem_cons_of_mem i hj)]
    exact write16_of_disjoint (h i List.mem_cons_self)

def Overwrites (f : Mem → Mem) : Prop :=
  ∃ (P : Nat → Prop) (g : Mem), ∀ m x, (P x → f m x = g x) ∧ (¬ P x → f m x = m x)

theorem Overwrites.id : Overwrites fun m => m :=
  ⟨fun _ => False, fun _ => 0, fun _ _ => ⟨False.elim, fun _ => rfl⟩⟩

theorem Overwrites.comp {f f' : Mem → Mem} (h : Overwrites f) (h' : Overwrites f') :
    Overwrites fun m => f' (f m) := by
  classical
  obtain ⟨P, g, hg⟩ := h
  obtain ⟨Q, g', hg'⟩ := h'
  refine ⟨fun x => P x ∨ Q x, fun x => if Q x then g' x else g x, fun m x => ⟨?_, ?_⟩⟩
  · intro hx
    by_cases hq : Q x
    · exact ((hg' _ x).1 hq).trans (if_pos hq).symm
    · exact (((hg' _ x).2 hq).trans ((hg m x).1 (hx.resolve_right hq))).trans (if_neg hq).symm
  · intro hx
    exact ((hg' _ x).2 fun hq => hx (Or.inr hq)).trans ((hg m x).2 fun hp => hx (Or.inl hp))

theorem Overwrites.foldl {ι : Type} {f : Mem → ι → Mem} (h : ∀ i, Overwrites fun m => f m i)
    (l : List ι) : Overwrites fun m => l.foldl f m := by
  induction l with
  | nil => exact .id
  | cons i l ih => exact (h i).comp ih

theorem overwrites_write32 (a : Nat) (v : Word) : Overwrites fun m => write32 m a v :=
  ⟨fun x => a ≤ x ∧ x < a + 4, fun x => (v >>> (8 * (x - a))).setWidth 8,
    fun _ _ => ⟨fun h => if_pos h, fun h => if_neg h⟩⟩

theorem overwrites_fill (a n : Nat) (v : Byte) : Overwrites fun m => fill m a n v :=
  ⟨fun x => a ≤ x ∧ x < a + n, fun _ => v, fun _ _ => ⟨fun h => if_pos h, fun h => if_neg h⟩⟩

theorem overwrites_writeBytes (a : Nat) (l : List Byte) : Overwrites fun m => writeBytes m a l :=
  ⟨fun x => a ≤ x ∧ x < a + l.length, fun x => l.getD (x - a) 0,
    fun _ _ => ⟨fun h => if_pos h, fun h => if_neg h⟩⟩

theorem overwrites_write16 (a : Nat) (v : BitVec 16) : Overwrites fun m => write16 m a v :=
  overwrites_writeBytes a _

theorem Overwrites.idem {f : Mem → Mem} (h : Overwrites f) (m : Mem) : f (f m) = f m := by
  obtain ⟨P, g, hg⟩ := h
  funext x
  by_cases hx : P x
  · rw [(hg _ x).1 hx, (hg m x).1 hx]
  · rw [(hg _ x).2 hx]

end Ezos.Lib.Memory
