import Ezos.Net.SendVia
import Ezos.Net.TcpReceive

/-!
# The receive ring of a UDP socket

`udp_deliver` puts records into the ring and `SC_RECVFROM` takes them out. A `Mailbox` is what the
ring is for: the datagrams that were accepted and not yet received, oldest first.
-/

namespace Ezos.Net

open Lib Lib.Memory Lib.NetOrder Tcp

set_option autoImplicit false

def udpRecord (d : Datagram) : List U8 :=
  let len : U16 := BitVec.ofNat 16 d.data.length
  bytes32 d.src ++ [d.sport.setWidth 8, (d.sport >>> (8 : Nat)).setWidth 8] ++
    [len.setWidth 8, (len >>> (8 : Nat)).setWidth 8] ++ d.data

/-- `n` turns of `rx_r = (rx_r + 1) % NET_SOCK_BUF`: the bytes passed and the new index. -/
def ringTake (b : Nat → U8) : Nat → Nat → List U8 × Nat
  | 0, r => ([], r)
  | n + 1, r =>
    let rest := ringTake b n ((r + 1) % netSockBuf)
    (b r :: rest.1, rest.2)

/-- What `SC_RECVFROM` stores: the data, and the two words behind `a[4]`. -/
structure Received where
  data : List U8
  src : U32
  port : U16

/-- `SC_RECVFROM` on the UDP socket `i`, with a buffer of `max` bytes that `uptr_ok` accepts or
not; `none` is the result -1. What arrives while it waits has been delivered before. -/
def udpRecv (t : Stack) (i : Slot) (max : Nat) (writable : Bool) : Option Received × Stack :=
  let s := t.socks i
  if !s.used || max = 0 || !writable then (none, t)
  else if s.rxR = s.rxW then (none, t)
  else
    let b := t.heap s.rx
    let hdr := ringTake b 8 s.rxR
    let h := ofList hdr.1
    let dn := (h 7 ++ h 6).toNat
    let n := if max < dn then max else dn
    let got := ringTake b n hdr.2
    let rest := ringTake b (dn - n) got.2
    (some ⟨got.1, be32 h 0, h 5 ++ h 4⟩, t.set i { s with rxR := rest.2 })

inductive UdpOp
  | deliver (d : Datagram)
  | recv (max : Nat) (writable : Bool)

def udpStep (i : Slot) (t : Stack) : UdpOp → Stack
  | .deliver d => udpDeliver t d
  | .recv max writable => (udpRecv t i max writable).2

/-- The socket that `udp_deliver` picks for a port. -/
def listener (t : Stack) (port : U16) : Option Slot :=
  Fin.find? fun i => (t.socks i).used && (t.socks i).type == .udp && (t.socks i).localPort == port

def ringOf (t : Stack) (i : Slot) : List U8 :=
  ringBytes (t.heap (t.socks i).rx) (t.socks i).rxR (t.socks i).rxW

abbrev Mailbox := List Datagram

namespace Mailbox

def free (q : Mailbox) : Nat := netSockBuf - 1 - (q.flatMap udpRecord).length

def put (q : Mailbox) (d : Datagram) : Mailbox :=
  if free q < 8 + d.data.length then q else q ++ [d]

def take (q : Mailbox) (max : Nat) (writable : Bool) : Option Received × Mailbox :=
  if max = 0 || !writable then (none, q)
  else match q with
    | [] => (none, [])
    | d :: q => (some ⟨d.data.take max, d.src, d.sport⟩, q)

def step (mine : Datagram → Bool) (q : Mailbox) : UdpOp → Mailbox
  | .deliver d => if mine d then q.put d else q
  | .recv max writable => (q.take max writable).2

end Mailbox

@[simp] theorem length_udpRecord (d : Datagram) : (udpRecord d).length = 8 + d.data.length := by
  simp [udpRecord, bytes32]
  omega

theorem ringTake_eq_ringRead {b : Nat → U8} {w : Nat} (hw : w < netSockBuf) {n r : Nat}
    (hr : r < netSockBuf) (h : n ≤ ringUsed r w) : ringTake b n r = ringRead b w n r := by
  induction n generalizing r with
  | zero => rfl
  | succ n ih =>
    have hne : r ≠ w := by
      rintro rfl
      simp only [ringUsed, netSockBuf] at h
      omega
    have hused := ringUsed_pos hr hw hne
    rw [ringTake, ringRead, if_neg hne, ih (mod_netSockBuf_lt _) (by omega)]

theorem length_ringTake (b : Nat → U8) (n r : Nat) : (ringTake b n r).1.length = n := by
  induction n generalizing r with
  | zero => rfl
  | succ n ih => rw [ringTake, List.length_cons, ih]

theorem ringTake_spec {b : Nat → U8} {w r : Nat} (hw : w < netSockBuf) (hr : r < netSockBuf)
    {front rest : List U8} (h : ringBytes b r w = front ++ rest) :
    (ringTake b front.length r).1 = front ∧ (ringTake b front.length r).2 < netSockBuf ∧
      ringBytes b (ringTake b front.length r).2 w = rest := by
  have hlen : front.length ≤ ringUsed r w := by
    have hle : (ringBytes b r w).length = ringUsed r w := by
      rw [ringBytes, Ring.length_contents, Nat.add_sub_cancel_left]
    rw [← hle, h, List.length_append]
    exact Nat.le_add_right _ _
  have heq := ringTake_eq_ringRead (b := b) hw hr hlen
  obtain ⟨hlt, hsplit⟩ := ringRead_spec (b := b) hw front.length hr
  rw [← heq] at hlt hsplit
  obtain ⟨hfront, hrest⟩ := List.append_inj (h.symm.trans hsplit) (length_ringTake _ _ _).symm
  exact ⟨hfront.symm, hlt, hrest.symm⟩

def udpHeader (d : Datagram) : List U8 :=
  let len : U16 := BitVec.ofNat 16 d.data.length
  bytes32 d.src ++ [d.sport.setWidth 8, (d.sport >>> (8 : Nat)).setWidth 8] ++
    [len.setWidth 8, (len >>> (8 : Nat)).setWidth 8]

theorem udpRecord_eq (d : Datagram) : udpRecord d = udpHeader d ++ d.data := rfl

theorem length_udpHeader (d : Datagram) : (udpHeader d).length = 8 := rfl

theorem le16_of_bytes (v : U16) : ((v >>> (8 : Nat)).setWidth 8 ++ v.setWidth 8 : U16) = v :=
  be16_of_bytes (m := ofList (bytes16 v)) (a := 0) rfl rfl

theorem header_src (d : Datagram) : be32 (ofList (udpHeader d)) 0 = d.src := by
  apply be32_of_bytes
  intro i hi
  match i, hi with
  | 0, _ => rfl
  | 1, _ => rfl
  | 2, _ => rfl
  | 3, _ => rfl

theorem header_port (d : Datagram) :
    (ofList (udpHeader d) 5 ++ ofList (udpHeader d) 4 : U16) = d.sport := le16_of_bytes d.sport

theorem header_length (d : Datagram) (h : d.data.length < 65536) :
    (ofList (udpHeader d) 7 ++ ofList (udpHeader d) 6 : U16).toNat = d.data.length := by
  have hlen : (ofList (udpHeader d) 7 ++ ofList (udpHeader d) 6 : U16) =
      BitVec.ofNat 16 d.data.length := le16_of_bytes _
  rw [hlen, BitVec.toNat_ofNat, Nat.mod_eq_of_lt h]

/-! ### The socket and its mailbox -/

structure Holds (t : Stack) (i : Slot) (q : Mailbox) : Prop where
  used : (t.socks i).used
  udp : (t.socks i).type = .udp
  r : (t.socks i).rxR < netSockBuf
  w : (t.socks i).rxW < netSockBuf
  ring : ringOf t i = q.flatMap udpRecord
  alone : ∀ j, j ≠ i → (t.socks j).used → (t.socks j).rx ≠ (t.socks i).rx

variable {t : Stack} {i : Slot} {q : Mailbox}

theorem length_ringOf (t : Stack) (i : Slot) :
    (ringOf t i).length = ringUsed (t.socks i).rxR (t.socks i).rxW := by
  rw [ringOf, ringBytes, Ring.length_contents, Nat.add_sub_cancel_left]

theorem Holds.space (h : Holds t i q) :
    spaceIn (t.socks i).rxR (t.socks i).rxW = q.free := by
  rw [spaceIn_eq h.r h.w, Mailbox.free, ← h.ring, length_ringOf]

theorem udpDeliver_of_none {d : Datagram} (h : listener t d.dport = none) : udpDeliver t d = t := by
  rw [listener] at h
  rw [udpDeliver, h]

theorem udpDeliver_of_some {d : Datagram} {j : Slot} (h : listener t d.dport = some j) :
    udpDeliver t d =
      if spaceIn (t.socks j).rxR (t.socks j).rxW < 8 + d.data.length then t
      else
        let stored := ringStore (t.heap (t.socks j).rx) (t.socks j).rxW (udpRecord d)
        { t.set j { t.socks j with rxW := stored.2 } with
          heap := Function.update t.heap (t.socks j).rx stored.1 } := by
  rw [listener] at h
  rw [udpDeliver, h]
  rfl

theorem listener_used {port : U16} {j : Slot} (h : listener t port = some j) :
    (t.socks j).used := by
  have hport := Fin.find?_eq_some_iff.mp h
  simp only [Bool.and_eq_true] at hport
  exact hport.1.1.1

structure Kept (t t' : Stack) : Prop where
  used : ∀ j, (t'.socks j).used = (t.socks j).used
  type : ∀ j, (t'.socks j).type = (t.socks j).type
  port : ∀ j, (t'.socks j).localPort = (t.socks j).localPort
  rx : ∀ j, (t'.socks j).rx = (t.socks j).rx

theorem Kept.refl (t : Stack) : Kept t t := ⟨fun _ => rfl, fun _ => rfl, fun _ => rfl, fun _ => rfl⟩

theorem Kept.listener {t' : Stack} (h : Kept t t') (port : U16) :
    listener t' port = listener t port := by
  rw [Net.listener, Net.listener]
  simp only [h.used, h.type, h.port]

theorem kept_set {j : Slot} {s : Sock} {t' : Stack} (hsocks : t'.socks = (t.set j s).socks)
    (hused : s.used = (t.socks j).used) (htype : s.type = (t.socks j).type)
    (hport : s.localPort = (t.socks j).localPort) (hrx : s.rx = (t.socks j).rx) : Kept t t' := by
  have hsock : ∀ k, t'.socks k = if k = j then s else t.socks k := by
    intro k
    rw [hsocks]
    exact Function.update_apply _ _ _ _
  constructor
  all_goals
    intro k
    rw [hsock]
    split
    · next hk =>
      subst hk
      assumption
    · rfl

theorem kept_udpDeliver (t : Stack) (d : Datagram) : Kept t (udpDeliver t d) := by
  cases hl : listener t d.dport with
  | none =>
    rw [udpDeliver_of_none hl]
    exact .refl t
  | some j =>
    rw [udpDeliver_of_some hl]
    split
    · exact .refl t
    · exact kept_set rfl rfl rfl rfl rfl

theorem kept_udpRecv (t : Stack) (i : Slot) (max : Nat) (writable : Bool) :
    Kept t (udpRecv t i max writable).2 := by
  rw [udpRecv]
  dsimp only
  split
  · exact .refl t
  · split
    · exact .refl t
    · exact kept_set rfl rfl rfl rfl rfl

theorem Holds.next (h : Holds t i q) {t' : Stack} {q' : Mailbox} (hk : Kept t t')
    (hr : (t'.socks i).rxR < netSockBuf) (hw : (t'.socks i).rxW < netSockBuf)
    (hring : ringOf t' i = q'.flatMap udpRecord) : Holds t' i q' where
  used := hk.used i ▸ h.used
  udp := (hk.type i).trans h.udp
  r := hr
  w := hw
  ring := hring
  alone := by
    intro j hj hused
    rw [hk.rx, hk.rx]
    exact h.alone j hj (hk.used j ▸ hused)

theorem Holds.deliver_other (h : Holds t i q) {d : Datagram} (hd : listener t d.dport ≠ some i) :
    Holds (udpDeliver t d) i q := by
  cases hl : listener t d.dport with
  | none =>
    rw [udpDeliver_of_none hl]
    exact h
  | some j =>
    have hij : i ≠ j := fun hij => hd (hij ▸ hl)
    have hrx := h.alone j hij.symm (listener_used hl)
    have hk := kept_udpDeliver t d
    rw [udpDeliver_of_some hl] at hk ⊢
    by_cases hfull : spaceIn (t.socks j).rxR (t.socks j).rxW < 8 + d.data.length
    · rw [if_pos hfull]
      exact h
    · rw [if_neg hfull] at hk ⊢
      apply h.next hk
      · simp only [Table.set, Function.update_of_ne hij]
        exact h.r
      · simp only [Table.set, Function.update_of_ne hij]
        exact h.w
      · simp only [ringOf, Table.set, Function.update_of_ne hij, Function.update_of_ne hrx.symm]
        exact h.ring

theorem Holds.deliver (h : Holds t i q) {d : Datagram} (hd : listener t d.dport = some i) :
    Holds (udpDeliver t d) i (q.put d) := by
  have hk := kept_udpDeliver t d
  rw [udpDeliver_of_some hd, h.space] at hk ⊢
  rw [Mailbox.put]
  by_cases hfull : q.free < 8 + d.data.length
  · rw [if_pos hfull, if_pos hfull]
    exact h
  · rw [if_neg hfull] at hk
    rw [if_neg hfull, if_neg hfull]
    have hroom : (udpRecord d).length ≤ spaceIn (t.socks i).rxR (t.socks i).rxW := by
      rw [h.space, length_udpRecord]
      omega
    obtain ⟨hw, hring⟩ := ringStore_spec (b := t.heap (t.socks i).rx) h.r h.w hroom
    apply h.next hk
    · simp only [Table.set, Function.update_self]
      exact h.r
    · simp only [Table.set, Function.update_self]
      exact hw
    · simp only [ringOf, Table.set, Function.update_self]
      rw [hring, List.flatMap_append, List.flatMap_singleton]
      exact congrArg (· ++ udpRecord d) h.ring

theorem Holds.head_short (h : Holds t i q) {d : Datagram} {rest : Mailbox} (hq : q = d :: rest) :
    d.data.length < 65536 := by
  have hlen := congrArg List.length h.ring
  rw [length_ringOf, hq, List.flatMap_cons, List.length_append, length_udpRecord, ringUsed] at hlen
  have hlt : (netSockBuf + (t.socks i).rxW - (t.socks i).rxR) % netSockBuf < netSockBuf :=
    mod_netSockBuf_lt _
  rw [netSockBuf] at hlt hlen
  omega

theorem Holds.eq_nil_iff (h : Holds t i q) : q = [] ↔ (t.socks i).rxR = (t.socks i).rxW := by
  have hlen := congrArg List.length h.ring
  have hr := h.r
  have hw := h.w
  rw [length_ringOf, ringUsed] at hlen
  rw [netSockBuf] at hr hw hlen
  cases q with
  | nil =>
    rw [List.flatMap_nil, List.length_nil] at hlen
    exact ⟨fun _ => by omega, fun _ => rfl⟩
  | cons d q =>
    rw [List.flatMap_cons, List.length_append, length_udpRecord] at hlen
    refine ⟨fun hnil => absurd hnil (List.cons_ne_nil _ _), fun heq => ?_⟩
    rw [heq] at hlen
    omega

theorem Holds.recv (h : Holds t i q) (max : Nat) (writable : Bool) :
    (udpRecv t i max writable).1 = (q.take max writable).1 ∧
      Holds (udpRecv t i max writable).2 i (q.take max writable).2 := by
  have hk := kept_udpRecv t i max writable
  rw [udpRecv, Mailbox.take.eq_def]
  rw [udpRecv] at hk
  dsimp only at hk ⊢
  by_cases hbad : max = 0 || !writable
  · have hbad' : !(t.socks i).used || max = 0 || !writable := by
      rw [Bool.or_assoc]
      simp [hbad]
    rw [if_pos hbad, if_pos hbad']
    exact ⟨rfl, h⟩
  · have hgood : ¬ (!(t.socks i).used || max = 0 || !writable) := by
      rw [Bool.or_assoc]
      simp [h.used, hbad]
    rw [if_neg hgood] at hk
    rw [if_neg hbad, if_neg hgood]
    cases q with
    | nil =>
      rw [if_pos (h.eq_nil_iff.mp rfl)]
      exact ⟨rfl, h⟩
    | cons d q =>
      have hne : (t.socks i).rxR ≠ (t.socks i).rxW :=
        fun heq => List.cons_ne_nil d q (h.eq_nil_iff.mpr heq)
      have hshort := h.head_short rfl
      have hring : ringOf t i = udpHeader d ++ (d.data ++ q.flatMap udpRecord) := by
        rw [h.ring, List.flatMap_cons, udpRecord_eq, List.append_assoc]
      rw [ringOf] at hring
      obtain ⟨hhdr, hr1, hring1⟩ := ringTake_spec h.w h.r hring
      rw [length_udpHeader] at hhdr hr1 hring1
      have hdn : (if max < d.data.length then max else d.data.length) = (d.data.take max).length := by
        rw [List.length_take, Nat.min_def]
        split <;> split <;> omega
      have hrest : d.data.length - (d.data.take max).length = (d.data.drop max).length := by
        rw [List.length_take, List.length_drop]
        omega
      rw [← List.take_append_drop max d.data, List.append_assoc] at hring1
      obtain ⟨hdata, hr2, hring2⟩ := ringTake_spec h.w hr1 hring1
      obtain ⟨_, hr3, hring3⟩ := ringTake_spec h.w hr2 hring2
      rw [if_neg hne, hhdr, header_length d hshort, hdn, hrest] at hk
      rw [if_neg hne, hhdr, header_length d hshort, hdn, hrest, hdata, header_src, header_port]
      refine ⟨rfl, h.next hk ?_ ?_ ?_⟩
      · simp only [Table.set, Function.update_self]
        exact hr3
      · simp only [Table.set, Function.update_self]
        exact h.w
      · simp only [ringOf, Table.set, Function.update_self]
        exact hring3

structure Opened (t : Stack) (i : Slot) : Prop where
  used : (t.socks i).used
  udp : (t.socks i).type = .udp
  empty : (t.socks i).rxR = 0 ∧ (t.socks i).rxW = 0
  /-- `kmalloc` gave no other socket the same block. -/
  alone : ∀ j, j ≠ i → (t.socks j).used → (t.socks j).rx ≠ (t.socks i).rx

theorem Opened.holds (h : Opened t i) : Holds t i [] where
  used := h.used
  udp := h.udp
  r := by
    rw [h.empty.1]
    decide
  w := by
    rw [h.empty.2]
    decide
  ring := by
    rw [ringOf, h.empty.1, h.empty.2]
    rfl
  alone := h.alone

def udpRun (i : Slot) (t : Stack) (ops : List UdpOp) : Stack := ops.foldl (udpStep i) t

/-- The mailbox of socket `i` after a run: it gets what `udp_deliver` finds that socket for. -/
def mailbox (i : Slot) (t : Stack) (ops : List UdpOp) : Mailbox :=
  ops.foldl (Mailbox.step fun d => listener t d.dport = some i) []

theorem kept_udpStep (i : Slot) (t : Stack) (op : UdpOp) : Kept t (udpStep i t op) := by
  cases op with
  | deliver d => exact kept_udpDeliver t d
  | recv max writable => exact kept_udpRecv t i max writable

theorem Holds.step (h : Holds t i q) (op : UdpOp) :
    Holds (udpStep i t op) i (q.step (fun d => listener t d.dport = some i) op) := by
  cases op with
  | deliver d =>
    rw [udpStep, Mailbox.step]
    by_cases hd : listener t d.dport = some i
    · rw [if_pos (decide_eq_true hd)]
      exact h.deliver hd
    · rw [if_neg (by simpa using hd)]
      exact h.deliver_other hd
  | recv max writable => exact (h.recv max writable).2

theorem Holds.run (h : Holds t i q) (ops : List UdpOp) :
    Holds (udpRun i t ops) i (ops.foldl (Mailbox.step fun d => listener t d.dport = some i) q) := by
  induction ops generalizing t q with
  | nil => exact h
  | cons op ops ih =>
    have hnext := ih (h.step op)
    simp only [(kept_udpStep i t op).listener] at hnext
    exact hnext

theorem listener_udpRun (i : Slot) (t : Stack) (ops : List UdpOp) (port : U16) :
    listener (udpRun i t ops) port = listener t port := by
  induction ops generalizing t with
  | nil => rfl
  | cons op ops ih =>
    rw [udpRun, List.foldl_cons]
    exact (ih _).trans ((kept_udpStep i t op).listener port)

theorem Mailbox.flatMap_put (q : Mailbox) (d : Datagram) :
    (q.put d).flatMap udpRecord = q.flatMap udpRecord ++
      if netSockBuf - 1 - (q.flatMap udpRecord).length < 8 + d.data.length then []
      else udpRecord d := by
  rw [put, free]
  split
  · exact (List.append_nil _).symm
  · rw [List.flatMap_append, List.flatMap_singleton]

/-- After every interleaving of deliveries and receives, the ring holds the complete records of the
datagrams that were accepted and not received; a receive gives the oldest of them, cut at the
buffer, and leaves the others whole; and a datagram for the socket is dropped exactly when its
record does not fit the free bytes. -/
theorem udpRun_spec (t : Stack) (i : Slot) (h : Opened t i) (ops : List UdpOp) :
    ringOf (udpRun i t ops) i = (mailbox i t ops).flatMap udpRecord ∧
    (∀ max writable,
      (udpRecv (udpRun i t ops) i max writable).1 = ((mailbox i t ops).take max writable).1 ∧
      ringOf (udpRecv (udpRun i t ops) i max writable).2 i =
        ((mailbox i t ops).take max writable).2.flatMap udpRecord) ∧
    (∀ d, listener t d.dport = some i →
      ringOf (udpDeliver (udpRun i t ops) d) i = ringOf (udpRun i t ops) i ++
        if netSockBuf - 1 - (ringOf (udpRun i t ops) i).length < 8 + d.data.length then []
        else udpRecord d) := by
  have hrun : Holds (udpRun i t ops) i (mailbox i t ops) := h.holds.run ops
  refine ⟨hrun.ring, fun max writable => ?_, fun d hd => ?_⟩
  · obtain ⟨hres, hnext⟩ := hrun.recv max writable
    exact ⟨hres, hnext.ring⟩
  · have hput := hrun.deliver ((listener_udpRun i t ops d.dport).trans hd)
    rw [hput.ring, Mailbox.flatMap_put, ← hrun.ring]

def udpSlot : Slot := ⟨0, zero_lt_socks⟩

def udpStack : Stack :=
  bootStack.set udpSlot { bootStack.socks udpSlot with
    used := true, type := .udp, localPort := 68, rx := 0x100000 }

theorem udpStack_opened : Opened udpStack udpSlot where
  used := rfl
  udp := rfl
  empty := ⟨rfl, rfl⟩
  alone := by
    intro j hj hused
    have hfree : udpStack.socks j = bootStack.socks j := Function.update_of_ne hj _ _
    rw [hfree] at hused
    cases hused

def hello : Datagram := ⟨0x0A000202, 53, 68, [104, 105]⟩

theorem udpRun_spec_udpStack : Opened udpStack udpSlot ∧
    ringOf (udpRun udpSlot udpStack [.deliver hello, .recv 1 true, .deliver hello]) udpSlot =
      (mailbox udpSlot udpStack [.deliver hello, .recv 1 true, .deliver hello]).flatMap udpRecord :=
  ⟨udpStack_opened, (udpRun_spec udpStack udpSlot udpStack_opened _).1⟩

end Ezos.Net
