import Ezos.Lib.Memory
import Mathlib.Logic.Function.Basic

/-!
# Blocks moved between a store and a buffer

A row of requests, each for a block of the store and a place in the buffer. Two requests may name the same block; what
is in the store after the buffer went back is what the last of them brought.
-/

namespace Ezos.Lib.BlockMoves

open Memory

set_option autoImplicit false

variable {α : Type} [DecidableEq α] {w x : Nat} {store : α → Mem} {buf : Mem} {p : α × Nat} {ps : List (α × Nat)} {a : α}

def fetch (w : Nat) (store : α → Mem) : List (α × Nat) → Mem → Mem
  | [], buf => buf
  | p :: ps, buf => fetch w store ps (copyIn buf p.2 w (store p.1))

def flush (buf : Mem) : List (α × Nat) → (α → Mem) → α → Mem
  | [], store => store
  | p :: ps, store => flush buf ps (Function.update store p.1 fun x => buf (p.2 + x))

omit [DecidableEq α] in
theorem fetch_at (hsep : ∀ q ∈ ps, p.2 < q.2 + w → q.2 < p.2 + w → p = q)
    (h : p ∈ ps ∨ ∀ x < w, buf (p.2 + x) = store p.1 x) (hx : x < w) : fetch w store ps buf (p.2 + x) = store p.1 x := by
  induction ps generalizing buf with
  | nil =>
    rcases h with hmem | hbuf
    · exact absurd hmem List.not_mem_nil
    · exact hbuf x hx
  | cons q ps ih =>
    unfold fetch
    refine ih (fun r hr => hsep r (List.mem_cons_of_mem q hr)) ?_
    by_cases hpq : p = q
    · subst hpq
      refine Or.inr fun y hy => ?_
      rw [copyIn, if_pos (by omega), Nat.add_sub_cancel_left]
    · rcases h with hmem | hbuf
      · exact Or.inl ((List.mem_cons.mp hmem).resolve_left hpq)
      · refine Or.inr fun y hy => ?_
        have hapart : ¬ (q.2 ≤ p.2 + y ∧ p.2 + y < q.2 + w) := by
          intro hmeet
          exact hpq (hsep q List.mem_cons_self (by omega) (by omega))
        rw [copyIn, if_neg hapart]
        exact hbuf y hy

theorem flush_at : (∃ q ∈ ps, q.1 = a ∧ ∀ x, flush buf ps store a x = buf (q.2 + x)) ∨
    ((∀ q ∈ ps, q.1 ≠ a) ∧ flush buf ps store a = store a) := by
  induction ps generalizing store with
  | nil => exact Or.inr ⟨fun _ hq => absurd hq List.not_mem_nil, rfl⟩
  | cons q ps ih =>
    unfold flush
    rcases @ih (Function.update store q.1 fun x => buf (q.2 + x)) with ⟨r, hr, hra, hval⟩ | ⟨hnone, hval⟩
    · exact Or.inl ⟨r, List.mem_cons_of_mem q hr, hra, hval⟩
    · by_cases hqa : q.1 = a
      · refine Or.inl ⟨q, List.mem_cons_self, hqa, fun x => ?_⟩
        rw [hval, ← hqa, Function.update_self]
      · refine Or.inr ⟨fun r hr => ?_, ?_⟩
        · rcases List.mem_cons.mp hr with rfl | hr
          · exact hqa
          · exact hnone r hr
        · rw [hval, Function.update_of_ne (Ne.symm hqa)]

end Ezos.Lib.BlockMoves

/-!
# Two windows with the same bytes

A buffer that was read from a store shows the same bytes as a part of it, and stays so when both are written alike.
-/

namespace Ezos.Lib.Memory

variable {m f : Mem} {a w n o : Nat}

def Shows (m : Mem) (a : Nat) (f : Mem) (w n : Nat) : Prop := ∀ i < n, m (a + i) = f (w + i)

namespace Shows

theorem read32 (h : Shows m a f w n) (ho : o + 4 ≤ n) : read32 m (a + o) = read32 f (w + o) := by
  have h0 : m (a + o) = f (w + o) := h o (by omega)
  have h1 : m (a + o + 1) = f (w + o + 1) := h (o + 1) (by omega)
  have h2 : m (a + o + 2) = f (w + o + 2) := h (o + 2) (by omega)
  have h3 : m (a + o + 3) = f (w + o + 3) := h (o + 3) (by omega)
  unfold Memory.read32
  rw [h0, h1, h2, h3]

theorem read16 (h : Shows m a f w n) (ho : o + 2 ≤ n) : read16 m (a + o) = read16 f (w + o) := by
  have h0 : m (a + o) = f (w + o) := h o (by omega)
  have h1 : m (a + o + 1) = f (w + o + 1) := h (o + 1) (by omega)
  unfold Memory.read16
  rw [h0, h1]

theorem write32 (h : Shows m a f w n) (v : Word) : Shows (write32 m (a + o) v) a (write32 f (w + o) v) w n := by
  intro i hi
  unfold Memory.write32
  by_cases hin : o ≤ i ∧ i < o + 4
  · rw [if_pos (by omega), if_pos (by omega), Nat.add_sub_add_left, Nat.add_sub_add_left]
  · rw [if_neg (by omega), if_neg (by omega), h i hi]

theorem writeBytes (h : Shows m a f w n) (l : List Byte) : Shows (writeBytes m (a + o) l) a (writeBytes f (w + o) l) w n := by
  intro i hi
  unfold Memory.writeBytes copyIn
  by_cases hin : o ≤ i ∧ i < o + l.length
  · rw [if_pos (by omega), if_pos (by omega), Nat.add_sub_add_left, Nat.add_sub_add_left]
  · rw [if_neg (by omega), if_neg (by omega), h i hi]

theorem write16 (h : Shows m a f w n) (v : BitVec 16) : Shows (write16 m (a + o) v) a (write16 f (w + o) v) w n :=
  h.writeBytes _

end Shows

end Ezos.Lib.Memory
