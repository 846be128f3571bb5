import Ezos.Net.TcpLife
import Ezos.Net.TcpTable

/-!
# The blocks of the socket table

A segment writes to the blocks of its own socket. `Alloc` says what the table relies on: a block from
`kmalloc` is not one that is already out. Then no two buffers of the table ever meet.
-/

namespace Ezos.Tcp

open Lib.Serial Lib

set_option autoImplicit false

/-! ### What a segment writes -/

inductive Buf where
  | rx | rtx | ooo
deriving DecidableEq

def Sock.block (s : Sock) : Buf → Ptr
  | .rx => s.rx
  | .rtx => s.rtx
  | .ooo => s.ooo

theorem RecvOnly.block {s s' : Sock} (h : RecvOnly s s') (b : Buf) : s'.block b = s.block b := by
  obtain ⟨w, n, q, l, f, rfl⟩ := h
  cases b <;> rfl

theorem flushOoo_heap (fuel : Nat) (r : Handled) {p : Ptr} (hrx : p ≠ r.sock.rx) (hooo : p ≠ r.sock.ooo) :
    (flushOoo fuel r).heap p = r.heap p := by
  induction fuel generalizing r with
  | zero => rfl
  | succ fuel ih =>
    rw [flushOoo_succ]
    split
    · split
      · rfl
      · refine (ih (flushRound r) hrx hooo).trans ?_
        exact (Function.update_of_ne hooo _ _).trans (Function.update_of_ne hrx _ _)
    · rfl

theorem storeData_heap (s : Sock) (h : Heap) (g : Segment) {p : Ptr} (hrx : p ≠ s.rx) (hooo : p ≠ s.ooo) :
    (storeData s h g).heap p = h p := by
  rw [storeData]
  split
  · rfl
  · split
    · rfl
    · split
      · exact (flushOoo_heap _ _ hrx hooo).trans (Function.update_of_ne hrx _ _)
      · split
        · exact Function.update_of_ne hooo _ _
        · rfl

theorem handleOpen_heap (s : Sock) (h : Heap) (g : Segment) {p : Ptr} (hrx : p ≠ s.rx) (hooo : p ≠ s.ooo) :
    (handleOpen s h g).heap p = h p := storeData_heap s h g hrx hooo

theorem handleFinWait_heap (s : Sock) (h : Heap) (g : Segment) : (handleFinWait s h g).heap = h := by
  rw [handleFinWait]
  split <;> rfl

theorem handleOpen_block (s : Sock) (h : Heap) (g : Segment) (b : Buf) :
    (handleOpen s h g).sock.block b = s.block b := by
  rcases handleOpen_cases s h g with hr | ⟨-, hr⟩
  · exact hr.block b
  · rw [hr.block b]
    cases b <;> rfl

theorem handleFinWait_block (s : Sock) (h : Heap) (g : Segment) (b : Buf) :
    (handleFinWait s h g).sock.block b = s.block b := by
  rw [handleFinWait]
  split
  · split
    · cases b <;> rfl
    · cases b <;> rfl
  · rfl

theorem handleOpen_type (s : Sock) (h : Heap) (g : Segment) : (handleOpen s h g).sock.type = s.type := by
  rcases handleOpen_cases s h g with ⟨w, n, q, l, f, he⟩ | ⟨-, w, n, q, l, f, he⟩
  · rw [he]
  · rw [he]

theorem handleFinWait_type (s : Sock) (h : Heap) (g : Segment) :
    (handleFinWait s h g).sock.type = s.type := by
  rw [handleFinWait]
  split
  · split <;> rfl
  · rfl

structure OwnBlocks (a : Sock) (h : Heap) (r : Handled) : Prop where
  block : ∀ b, r.sock.block b = a.block b
  type : r.sock.type = a.type
  heap : ∀ p, p ≠ a.rx → p ≠ a.ooo → r.heap p = h p

theorem ownBlocks_self (a : Sock) (h : Heap) (n : Nat) (o : Option Out) : OwnBlocks a h ⟨a, h, n, o⟩ :=
  ⟨fun _ => rfl, rfl, fun _ _ _ => rfl⟩

theorem ownBlocks_open (a : Sock) (h : Heap) (g : Segment) : OwnBlocks a h (handleOpen a h g) :=
  ⟨handleOpen_block a h g, handleOpen_type a h g, fun _ h1 h2 => handleOpen_heap a h g h1 h2⟩

theorem ownBlocks_finWait (a : Sock) (h : Heap) (g : Segment) : OwnBlocks a h (handleFinWait a h g) :=
  ⟨handleFinWait_block a h g, handleFinWait_type a h g, fun p _ _ => congrFun (handleFinWait_heap a h g) p⟩

theorem OwnBlocks.of_state {a : Sock} {h : Heap} {r : Handled} {st : State}
    (ho : OwnBlocks { a with state := st } h r) : OwnBlocks a h r where
  block b := (ho.block b).trans (by cases b <;> rfl)
  type := ho.type
  heap := ho.heap

theorem handleState_blocks (a : Sock) (h : Heap) (g : Segment) : OwnBlocks a h (handleState a h g) := by
  rw [handleState]
  split
  · split
    · exact ownBlocks_self a h 0 none
    · exact ⟨fun b => by cases b <;> rfl, rfl, fun _ _ _ => rfl⟩
  · split
    · exact ownBlocks_self a h 0 none
    · split
      · exact (ownBlocks_self _ h 0 none).of_state
      · exact (ownBlocks_open _ h g).of_state
  · exact ownBlocks_open a h g
  · exact ownBlocks_open a h g
  · split
    · exact ⟨fun b => by cases b <;> rfl, rfl, fun _ _ _ => rfl⟩
    · exact ownBlocks_self a h 0 none
  · split
    · exact (ownBlocks_finWait _ h g).of_state
    · exact ownBlocks_finWait a h g
  · exact ownBlocks_finWait a h g
  · exact ownBlocks_self a h 0 none
  · exact ownBlocks_self a h 0 none

theorem ackShift_other (s : Sock) (h : Heap) (ack : U32) {p : Ptr} (hp : p ≠ s.rtx) :
    s.ackShift h ack p = h p := by
  rw [Sock.ackShift]
  split
  · exact Function.update_of_ne hp _ _
  · rfl

structure SegmentBlocks (s : Sock) (h : Heap) (g : Segment) (r : Handled) : Prop where
  block : ∀ b, r.sock.block b = s.block b
  type : r.sock.type = s.type
  heap : ∀ p, (∀ b, p ≠ s.block b) → r.heap p = h p
  rtx : s.rtx ≠ s.rx → s.rtx ≠ s.ooo → r.heap s.rtx =
    if g.has tcpRst || !g.has tcpAck then h s.rtx else s.ackShift h g.ack s.rtx

theorem handleSegment_blocks (s : Sock) (h : Heap) (ticks : U32) (g : Segment) :
    SegmentBlocks s h g (handleSegment s h ticks g) := by
  rw [handleSegment]
  by_cases hr : g.has tcpRst = true
  · rw [if_pos hr]
    exact ⟨fun b => by cases b <;> rfl, rfl, fun _ _ => rfl, fun _ _ => by simp [hr]⟩
  · rw [if_neg hr]
    by_cases ha : g.has tcpAck = true
    · rw [if_pos ha]
      obtain ⟨u, l, t, k, y, he⟩ := ackAdvance_keeps s ticks g.ack
      have hs := handleState_blocks (s.ackAdvance ticks g.ack) (s.ackShift h g.ack) g
      rw [he] at hs ⊢
      refine ⟨fun b => ?_, hs.type, fun p hp => ?_, fun h1 h2 => ?_⟩
      · rw [hs.block b]
        cases b <;> rfl
      · exact (hs.heap p (hp .rx) (hp .ooo)).trans (ackShift_other s h g.ack (hp .rtx))
      · rw [hs.heap s.rtx h1 h2]
        simp [hr, ha]
    · rw [if_neg ha]
      have hs := handleState_blocks s h g
      refine ⟨hs.block, hs.type, fun p hp => hs.heap p (hp .rx) (hp .ooo), fun h1 h2 => ?_⟩
      rw [hs.heap s.rtx h1 h2]
      simp [ha]

section Blocks
variable {σ : Type} {E : Env σ}

structure Alloc (E : Env σ) where
  live : σ → Ptr → Prop
  fresh : ∀ e n, (E.kmalloc e n).1 ≠ 0 →
    ¬ live e (E.kmalloc e n).1 ∧ live (E.kmalloc e n).2 (E.kmalloc e n).1
  kmalloc : ∀ e n p, live e p → live (E.kmalloc e n).2 p
  send : ∀ e s o p, live e p → live (E.send e s o).2 p

def Table.block (t : Table σ) (i : Slot) (b : Buf) : Ptr := (t.socks i).block b

structure Buffers (A : Alloc E) (t : Table σ) : Prop where
  live : ∀ i b, t.block i b ≠ 0 → A.live t.env (t.block i b)
  apart : ∀ i b j c, t.block i b ≠ 0 → t.block i b = t.block j c → i = j ∧ b = c

theorem Buffers.of {A : Alloc E} {t t' : Table σ} (h : Buffers A t)
    (henv : ∀ p, A.live t.env p → A.live t'.env p) (i : Slot) (c : Buf)
    (hnew : ∀ j b, t'.block j b = t.block j b ∨ (j = i ∧ b = c ∧ (t'.block j b ≠ 0 →
      ¬ A.live t.env (t'.block j b) ∧ A.live t'.env (t'.block j b)))) : Buffers A t' where
  live j b hne := by
    rcases hnew j b with he | ⟨-, -, hf⟩
    · rw [he] at hne ⊢
      exact henv _ (h.live j b hne)
    · exact (hf hne).2
  apart j b k d hne heq := by
    rcases hnew j b with he | ⟨hj, hb, hf⟩
    · rcases hnew k d with he' | ⟨-, -, hf'⟩
      · rw [he] at hne heq
        rw [he'] at heq
        exact h.apart j b k d hne heq
      · have hlive := h.live j b (he ▸ hne)
        rw [← he, heq] at hlive
        exact absurd hlive (hf' (heq ▸ hne)).1
    · rcases hnew k d with he' | ⟨hk, hd, -⟩
      · have hlive := h.live k d (he' ▸ heq ▸ hne)
        rw [← he', ← heq] at hlive
        exact absurd hlive (hf hne).1
      · exact ⟨hj.trans hk.symm, hb.trans hd.symm⟩

theorem Buffers.same {A : Alloc E} {t t' : Table σ} (h : Buffers A t)
    (henv : ∀ p, A.live t.env p → A.live t'.env p) (hsame : ∀ j b, t'.block j b = t.block j b) :
    Buffers A t' :=
  h.of henv ⟨0, by decide⟩ .rx fun j b => .inl (hsame j b)

@[simp] theorem set_socks_self (t : Table σ) (i : Slot) (s : Sock) : (t.set i s).socks i = s :=
  Function.update_self _ _ _

theorem allocIfNull_spec (A : Alloc E) (e : σ) (p : Ptr) (n : Nat) :
    (∀ q, A.live e q → A.live (allocIfNull E e p n).2 q) ∧
      ((allocIfNull E e p n).1 = p ∨ p = 0 ∧ ((allocIfNull E e p n).1 ≠ 0 →
        ¬ A.live e (allocIfNull E e p n).1 ∧ A.live (allocIfNull E e p n).2 (allocIfNull E e p n).1)) := by
  rw [allocIfNull]
  by_cases hp : p = 0
  · rw [if_pos hp]
    exact ⟨A.kmalloc e n, .inr ⟨hp, A.fresh e n⟩⟩
  · rw [if_neg hp]
    exact ⟨fun _ => id, .inl rfl⟩

theorem Buffers.alloc {A : Alloc E} {t t' : Table σ} (h : Buffers A t) {i : Slot} {c : Buf} {p : Ptr}
    {n : Nat} (henv : t'.env = (allocIfNull E t.env p n).2) (hp : t.block i c = p)
    (hc : t'.block i c = (allocIfNull E t.env p n).1) (hb : ∀ b, b ≠ c → t'.block i b = t.block i b)
    (hj : ∀ j, j ≠ i → t'.socks j = t.socks j) : Buffers A t' := by
  obtain ⟨hmono, hnew⟩ := allocIfNull_spec A t.env p n
  rw [← henv] at hmono hnew
  refine h.of hmono i c fun j b => ?_
  by_cases hji : j = i
  · subst hji
    by_cases hbc : b = c
    · subst hbc
      rw [← hc] at hnew
      rcases hnew with he | ⟨-, hf⟩
      · exact .inl (he.trans hp.symm)
      · exact .inr ⟨rfl, rfl, hf⟩
    · exact .inl (hb b hbc)
  · left
    rw [Table.block, Table.block, hj j hji]

end Blocks

end Ezos.Tcp
