import Ezos.Net.TcpRefine

/-!
# The buffers of the TCP sockets

A passive open takes `rtx` and `ooo` from `tcp_bufs` but no receive ring: it is left with the one
that its slot may have from an earlier `sock_alloc`.
-/

namespace Ezos.Tcp

open Lib.Serial Lib

set_option autoImplicit false

/-- The states in which `tcp_input` may store data. -/
def State.stores : State → Bool
  | .synRcvd | .established | .closeWait => true
  | _ => false

def RxKept (s : Sock) : Prop := s.used = true → s.rx ≠ 0

def HasRing (c : Conn) : Prop := c.sock.rx ≠ 0

theorem RxKept.of_not_used {s : Sock} (h : s.used = false) : RxKept s :=
  fun hu => absurd (h.symm.trans hu) (by decide)

theorem RxKept.congr {s s' : Sock} (h : RxKept s) (hu : s'.used = true → s.used = true)
    (hrx : s'.rx = s.rx) : RxKept s' := by
  intro hu'
  rw [hrx]
  exact h (hu hu')

theorem RxKept.step {c d : Conn} {e : Event} (h : RxKept c.sock) (hs : StepOk HasRing c e d) :
    RxKept d.sock := by
  obtain ⟨⟨he, hd, -⟩, hok⟩ := hs
  rw [hd]
  cases e with
  | fresh type pid rx => exact fun hu => of_decide_eq_true hu
  | free => exact .of_not_used rfl
  | port | listen | adopt | connect | go | recv => exact h.congr id rfl
  | bufs rtx ooo ok => cases ok <;> exact h.congr id rfl
  | passive => exact fun _ => hok
  | refuse => exact .of_not_used rfl
  | segment hp g ticks sent =>
    refine h.congr (fun _ => he.1) ?_
    have hb := (handleSegment_blocks c.sock hp ticks g).block .rx
    rw [Sock.after]
    exact (noteIf_block _ _ sent .rx).trans hb
  | retransmit now sent =>
    rcases after_retransmit c.sock c.buf now sent with ⟨hf, -⟩ | ⟨k, t, b, hk⟩
    · exact .of_not_used hf
    · rw [hk]
      exact h.congr id rfl
  | send data ticks sent => cases sent <;> exact h.congr id rfl
  | fin sent => cases sent <;> exact h.congr id rfl
  | reply data ticks sent => cases sent <;> exact h.congr id rfl

section Table
variable {σ : Type} {E : Env σ} {A : Alloc E} {t : Table σ}

structure TcpBuffers (t : Table σ) : Prop where
  stored : ∀ i, (t.socks i).used = true → (t.socks i).type = .tcp → (t.socks i).state.stores = true →
    ∀ b, t.block i b ≠ 0
  apart : ∀ i j, i ≠ j → ∀ b c, t.block i b ≠ 0 → t.block i b ≠ t.block j c

theorem tcpBuffers_of (hsane : Sane A t) (hrx : ∀ i, RxKept (t.socks i)) : TcpBuffers t where
  stored i hu _ hst b := by
    have hconn : (t.socks i).Connected := by
      refine ⟨hu, ?_, ?_⟩
      all_goals
        intro he
        rw [he] at hst
        cases hst
    obtain ⟨hrtx, hooo⟩ := (hsane.slot i).bufs hconn
    cases b with
    | rx => exact hrx i hu
    | rtx => exact hrtx
    | ooo => exact hooo
  apart i j hij b c hne he := hij (hsane.buffers.apart i b j c hne he).1

/-- In every run that opens passively only where a receive ring is left over, the sockets have their
buffers. -/
theorem run_tcpBuffers {ops : List (TableOp σ)} {env : σ}
    (h : Run (TableStep A HasRing) (bootTable env) ops t) : TcpBuffers t := by
  obtain ⟨hsane, hlives⟩ := run_lives h
  refine tcpBuffers_of hsane fun i => ?_
  obtain ⟨es, hes⟩ := hlives i
  exact Run.invariant (I := fun c => RxKept c.sock) RxKept.step hes (.of_not_used rfl)

end Table

def countEnv : Env Nat where
  send e _ _ := (true, e)
  kmalloc e _ := if e + 1 < 2 ^ 32 then (wrap (e + 1), e + 1) else (0, e)
  alive _ _ := true

def countAlloc : Alloc countEnv where
  live e p := 0 < p.toNat ∧ p.toNat ≤ e
  fresh e n hne := by
    by_cases he : e + 1 < 2 ^ 32
    · have hp : (wrap (e + 1)).toNat = e + 1 := by
        rw [BitVec.toNat_ofNat]
        omega
      simp only [countEnv, he, if_true, hp]
      omega
    · simp only [countEnv, he, if_false, ne_eq, not_true] at hne
  kmalloc e n p hl := by
    by_cases he : e + 1 < 2 ^ 32
    · simp only [countEnv, he, if_true]
      omega
    · simp only [countEnv, he, if_false]
      exact hl
  send _ _ _ _ hl := hl

def synTo (port : U16) : Segment := ⟨tcpSyn, 7, 0, 40000, port, 0x0A000202, []⟩

def tableAfter (ops : List (TableOp Nat)) : Table Nat := ops.foldl (TableOp.run countEnv) (bootTable 0)

theorem tableStep_plain {op : TableOp Nat} {Q : Conn → Prop} (t : Table Nat)
    (hop : match op with | .input _ => False | .world _ _ _ => False | _ => True) :
    TableStep countAlloc Q t op (op.run countEnv t) := by
  refine ⟨rfl, ?_⟩
  cases op with
  | input | world => exact hop.elim
  | _ => trivial

def slotZero : Slot := ⟨0, zero_lt_socks⟩
def slotOne : Slot := ⟨1, one_lt_socks⟩

def listenOps : List (TableOp Nat) :=
  [.alloc .tcp 1, .alloc .tcp 1, .close slotOne, .bind slotZero 80, .listen slotZero]

/-- The passive open takes slot 1, with the ring that `sock_alloc` gave it. -/
theorem run_tcpBuffers_listen :
    TcpBuffers (tableAfter (listenOps ++ [.input (synTo 80)])) ∧
      ((tableAfter (listenOps ++ [.input (synTo 80)])).socks slotOne).state = .synRcvd := by
  refine ⟨@run_tcpBuffers _ _ countAlloc _ (listenOps ++ [.input (synTo 80)]) 0 ?_, by decide⟩
  refine .cons (tableStep_plain _ trivial) (.cons (tableStep_plain _ trivial) (.cons
    (tableStep_plain _ trivial) (.cons (tableStep_plain _ trivial) (.cons (tableStep_plain _ trivial)
    (.cons ⟨rfl, fun l i _ _ _ _ hi _ => ?_⟩ (.nil _))))))
  have hone : freeSlot (tableAfter listenOps) = some slotOne := by decide
  obtain rfl : i = slotOne := Option.some.inj (hi.symm.trans hone)
  have hring : ((tableAfter listenOps).socks slotOne).rx ≠ 0 := by decide
  exact hring

/-- `net_httpd_once` listens in slot 0; the connection to it, in slot 1, has no receive ring. -/
theorem passiveOpen_no_ring :
    Run (TableStep countAlloc fun _ => True) (bootTable 0) [.httpdStart, .input (synTo 80)]
      (tableAfter [.httpdStart, .input (synTo 80)]) ∧
    ((tableAfter [.httpdStart, .input (synTo 80)]).socks slotOne).state = .synRcvd ∧
    ((tableAfter [.httpdStart, .input (synTo 80)]).socks slotOne).rx = 0 ∧
    ¬ TcpBuffers (tableAfter [.httpdStart, .input (synTo 80)]) := by
  have hstate : ((tableAfter [.httpdStart, .input (synTo 80)]).socks slotOne).state = .synRcvd := by
    decide
  have hrx : ((tableAfter [.httpdStart, .input (synTo 80)]).socks slotOne).rx = 0 := by decide
  refine ⟨.cons (tableStep_plain _ trivial) (.cons ⟨rfl, fun _ _ _ _ _ _ _ _ => trivial⟩ (.nil _)),
    hstate, hrx, fun h => ?_⟩
  refine h.stored slotOne ?_ ?_ ?_ .rx hrx
  · decide
  · decide
  · rw [hstate]
    rfl

end Ezos.Tcp
