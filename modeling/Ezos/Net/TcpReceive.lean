import Ezos.Net.TcpLife
import Mathlib.Data.List.GetD

/-!
# The receiving side

A peer sends a stream in segments that may be lost, repeated, reordered, cut and glued. `Received`
says how much of it has arrived: it is in the hands of the application or in the ring, and a run of
later bytes may be waiting in `ooo`.
-/

namespace Ezos.Tcp

open Lib.Serial Lib

set_option autoImplicit false

def ringUsed (r w : Nat) : Nat := (netSockBuf + w - r) % netSockBuf

def ringBytes (b : Nat → U8) (r w : Nat) : List U8 := Ring.contents b netSockBuf r (r + ringUsed r w)

section Indices
variable {r w : Nat} (hr : r < netSockBuf) (hw : w < netSockBuf)
include hr hw

theorem spaceIn_eq : spaceIn r w = netSockBuf - 1 - ringUsed r w := by
  simp only [spaceIn, ringUsed, netSockBuf] at *
  omega

theorem ringUsed_next (h : ringUsed r w < netSockBuf - 1) :
    ringUsed r ((w + 1) % netSockBuf) = ringUsed r w + 1 := by
  simp only [ringUsed, netSockBuf] at *
  omega

theorem tail_mod : (r + ringUsed r w) % netSockBuf = w := by
  simp only [ringUsed, netSockBuf] at *
  omega

theorem ringUsed_pos (hne : r ≠ w) : ringUsed r w = ringUsed ((r + 1) % netSockBuf) w + 1 := by
  simp only [ringUsed, netSockBuf] at *
  omega

end Indices

theorem mod_netSockBuf_lt (i : Nat) : i % netSockBuf < netSockBuf := Nat.mod_lt i (by decide)

theorem ringStore_spec {r : Nat} (hr : r < netSockBuf) {data : List U8} {b : Nat → U8} {w : Nat}
    (hw : w < netSockBuf) (hroom : data.length ≤ spaceIn r w) :
    (ringStore b w data).2 < netSockBuf ∧
      ringBytes (ringStore b w data).1 r (ringStore b w data).2 = ringBytes b r w ++ data := by
  induction data generalizing b w with
  | nil => exact ⟨hw, (List.append_nil _).symm⟩
  | cons c cs ih =>
    rw [List.length_cons, spaceIn_eq hr hw] at hroom
    have hused : ringUsed r w < netSockBuf - 1 := by omega
    have hnext := ringUsed_next hr hw hused
    have hw' := mod_netSockBuf_lt (w + 1)
    have hpush : ringBytes (Ring.put b w c) r ((w + 1) % netSockBuf) = ringBytes b r w ++ [c] := by
      have h := @Ring.contents_push _ b netSockBuf _ _ c (Nat.le_add_right r (ringUsed r w)) (by omega)
      rw [tail_mod hr hw] at h
      rw [ringBytes, hnext, ← Nat.add_assoc]
      exact h
    obtain ⟨hlt, hrest⟩ := ih (b := Ring.put b w c) hw' (by rw [spaceIn_eq hr hw', hnext]; omega)
    refine ⟨hlt, ?_⟩
    rw [ringStore, hrest, hpush, List.append_assoc, List.singleton_append]

theorem ringRead_spec {b : Nat → U8} {w : Nat} (hw : w < netSockBuf) (max : Nat) {r : Nat}
    (hr : r < netSockBuf) : (ringRead b w max r).2 < netSockBuf ∧
      ringBytes b r w = (ringRead b w max r).1 ++ ringBytes b (ringRead b w max r).2 w := by
  induction max generalizing r with
  | zero => exact ⟨hr, rfl⟩
  | succ n ih =>
    rw [ringRead]
    by_cases he : r = w
    · rw [if_pos he]
      exact ⟨hr, rfl⟩
    · rw [if_neg he]
      have hr' := mod_netSockBuf_lt (r + 1)
      obtain ⟨hlt, hrest⟩ := ih hr'
      refine ⟨hlt, ?_⟩
      have hused := ringUsed_pos hr hw he
      have hmod : ringBytes b ((r + 1) % netSockBuf) w =
          Ring.contents b netSockBuf (r + 1) (r + 1 + ringUsed ((r + 1) % netSockBuf) w) := by
        rw [ringBytes, Ring.contents_mod]
      rw [List.cons_append, ← hrest, hmod, ringBytes, hused, Ring.contents_eq_cons (by omega),
        Nat.mod_eq_of_lt hr]
      congr 2
      omega

structure Peer where
  stream : List U8
  /-- The sequence number of the first byte. -/
  irs : U32

/-- A segment with data or FIN is a slice of the stream at its sequence number, below offset `2^31`,
and the FIN stands at the end. -/
def FromPeer (P : Peer) (g : Segment) : Prop :=
  g.data ≠ [] ∨ g.has tcpFin = true → ∃ off,
    g.seq = P.irs + wrap off ∧ g.data = (P.stream.drop off).take g.data.length ∧
    off + g.data.length ≤ P.stream.length ∧ off + g.data.length + (g.has tcpFin).toNat ≤ 2 ^ 31 ∧
    (g.has tcpFin = true → off + g.data.length = P.stream.length)

def Sock.ring (s : Sock) (h : Heap) : List U8 := ringBytes (h s.rx) s.rxR s.rxW

structure Waiting (P : Peer) (s : Sock) (h : Heap) (q : Nat) : Prop where
  seq : s.oooSeq = P.irs + wrap q
  le : q + s.oooLen ≤ P.stream.length
  low : q + s.oooLen ≤ 2 ^ 31
  bytes : ∀ k, k < s.oooLen → h s.ooo k = P.stream.getD (q + k) 0

structure Received (P : Peer) (del : List U8) (s : Sock) (h : Heap) (n : Nat) : Prop where
  r : s.rxR < netSockBuf
  w : s.rxW < netSockBuf
  nxt : s.rcvNxt = P.irs + wrap (n + s.gotFin.toNat)
  le : n ≤ P.stream.length
  low : n + s.gotFin.toNat ≤ 2 ^ 31
  bytes : del ++ s.ring h = P.stream.take n
  fin : s.gotFin = true → n = P.stream.length
  run : s.oooLen ≠ 0 → ∃ q, Waiting P s h q
  ring : s.rx ≠ s.ooo
  apart : s.rtx ≠ s.rx ∧ s.rtx ≠ s.ooo

theorem offset_eq {irs : U32} {x y : Nat} (h : irs + wrap x = irs + wrap y) (hx : x ≤ 2 ^ 31)
    (hy : y ≤ 2 ^ 31) : x = y := by
  have he : wrap x = wrap y := by
    have := congrArg (· - irs) h
    grind
  exact wrap_inj he (by omega) (by omega)

theorem range_map_slice {l : List U8} {f : Nat → U8} {q k : Nat} (hle : q + k ≤ l.length)
    (h : ∀ i, i < k → f i = l.getD (q + i) 0) : (List.range k).map f = (l.drop q).take k := by
  apply List.ext_getElem
  · rw [List.length_map, List.length_range, List.length_take, List.length_drop]
    omega
  · intro i hi hi'
    have hik : i < k := by simpa using hi
    simp only [List.getElem_map, List.getElem_range, List.getElem_take, List.getElem_drop]
    rw [h i hik, List.getD_eq_getElem _ _ (by omega)]

theorem slice_getD {l d : List U8} {off : Nat} (hd : d = (l.drop off).take d.length) {i : Nat}
    (hi : i < d.length) : d.getD i 0 = l.getD (off + i) 0 := by
  have h := congrArg (fun x => x.getD i 0) hd
  simp only [List.getD_eq_getElem?_getD, List.getElem?_take_of_lt hi, List.getElem?_drop] at h
  rw [List.getD_eq_getElem?_getD, List.getD_eq_getElem?_getD, h]

namespace Received
variable {P : Peer} {del : List U8} {s : Sock} {h : Heap} {n : Nat}

theorem heap (hR : Received P del s h n) {h' : Heap} (hrx : h' s.rx = h s.rx)
    (hooo : h' s.ooo = h s.ooo) : Received P del s h' n where
  r := hR.r
  w := hR.w
  nxt := hR.nxt
  le := hR.le
  low := hR.low
  bytes := by
    rw [Sock.ring, hrx]
    exact hR.bytes
  fin := hR.fin
  run hne := by
    obtain ⟨q, hq⟩ := hR.run hne
    refine ⟨q, hq.seq, hq.le, hq.low, ?_⟩
    rw [hooo]
    exact hq.bytes
  ring := hR.ring
  apart := hR.apart

theorem at_nxt (hR : Received P del s h n) {off : Nat} (hseq : P.irs + wrap off = s.rcvNxt)
    (hlt : off < P.stream.length) (hlow : off ≤ 2 ^ 31) : s.gotFin = false ∧ off = n := by
  rw [hR.nxt] at hseq
  have he := offset_eq hseq hlow hR.low
  cases hf : s.gotFin with
  | false =>
    rw [hf] at he
    exact ⟨rfl, he⟩
  | true =>
    have := hR.fin hf
    rw [hf, Bool.toNat_true] at he
    omega

theorem store (hR : Received P del s h n) (hf : s.gotFin = false) (data : List U8)
    (hroom : data.length ≤ spaceIn s.rxR s.rxW) (hdata : data = (P.stream.drop n).take data.length)
    (hle : n + data.length ≤ P.stream.length) (hlow : n + data.length ≤ 2 ^ 31) :
    Received P del (storeRing s h data).sock (storeRing s h data).heap (n + data.length) := by
  obtain ⟨hw, hring⟩ := ringStore_spec hR.r (b := h s.rx) hR.w hroom
  have hooo : (storeRing s h data).heap s.ooo = h s.ooo := Function.update_of_ne hR.ring.symm _ _
  have hrx : (storeRing s h data).heap s.rx = (ringStore (h s.rx) s.rxW data).1 :=
    Function.update_self _ _ _
  have hnxt := hR.nxt
  refine ⟨hR.r, hw, ?_, hle, ?_, ?_, fun hf' => absurd (hf.symm.trans hf') (by decide), fun hne => ?_,
    hR.ring, hR.apart⟩
  · rw [hf] at hnxt
    simp only [storeRing, hf, hnxt, Bool.toNat_false, Nat.add_zero, wrap_add]
    exact BitVec.add_assoc _ _ _
  · simp only [storeRing, hf, Bool.toNat_false]
    exact hlow
  · have hold := hR.bytes
    rw [Sock.ring] at hold
    rw [Sock.ring, show (storeRing s h data).sock.rx = s.rx from rfl, hrx]
    simp only [storeRing]
    rw [hring, ← List.append_assoc, hold, List.take_add, ← hdata]
  · obtain ⟨q, hq⟩ := hR.run hne
    refine ⟨q, hq.seq, hq.le, hq.low, ?_⟩
    rw [show (storeRing s h data).sock.ooo = s.ooo from rfl, hooo]
    exact hq.bytes

end Received

/-! ### The out-of-order run -/

namespace Received
variable {P : Peer} {del : List U8} {s : Sock} {h : Heap} {n : Nat}

theorem flushRound {r : Handled} (hR : Received P del r.sock r.heap n) (hlen : r.sock.oooLen ≠ 0)
    (hseq : r.sock.oooSeq = r.sock.rcvNxt) :
    Received P del (flushRound r).sock (flushRound r).heap (n + r.sock.flushable) := by
  obtain ⟨q, hq⟩ := hR.run hlen
  have hql := hq.le
  have hqlow := hq.low
  obtain ⟨hf, rfl⟩ := hR.at_nxt (hq.seq.symm.trans hseq) (by omega) (by omega)
  have hk : r.sock.flushable ≤ r.sock.oooLen := Nat.min_le_left _ _
  have hrun : flushRun r = (P.stream.drop q).take r.sock.flushable :=
    range_map_slice (by omega) fun i hi => hq.bytes i (by omega)
  have hlen' : (flushRun r).length = r.sock.flushable := by
    rw [flushRun, List.length_map, List.length_range]
  have hS := hR.store hf (flushRun r) (by rw [hlen']; exact Nat.min_le_right _ _)
    (by rw [hlen', hrun]) (by omega) (by omega)
  rw [hlen'] at hS
  have hring : (Ezos.Tcp.flushRound r).heap r.sock.rx =
      (storeRing r.sock r.heap (flushRun r)).heap r.sock.rx :=
    Function.update_of_ne hR.ring _ _
  refine ⟨hS.r, hS.w, hS.nxt, hS.le, hS.low, ?_, hS.fin, fun _ => ?_, hS.ring, hS.apart⟩
  · rw [← hS.bytes]
    exact congrArg (fun b => del ++ ringBytes b _ _) hring
  · have hold : (storeRing r.sock r.heap (flushRun r)).heap r.sock.ooo = r.heap r.sock.ooo :=
      Function.update_of_ne hR.ring.symm _ _
    have hnxt := hS.nxt
    have hf' : (storeRing r.sock r.heap (flushRun r)).sock.gotFin = false := hf
    rw [hf', Bool.toNat_false, Nat.add_zero] at hnxt
    refine ⟨q + r.sock.flushable, hnxt, ?_, ?_, fun k hk' => ?_⟩
    · change q + r.sock.flushable + (r.sock.oooLen - r.sock.flushable) ≤ _
      omega
    · change q + r.sock.flushable + (r.sock.oooLen - r.sock.flushable) ≤ _
      omega
    · have hlt : k + r.sock.flushable < r.sock.oooLen := by
        change k < r.sock.oooLen - r.sock.flushable at hk'
        omega
      have hb : (Ezos.Tcp.flushRound r).heap r.sock.ooo k = r.heap r.sock.ooo (k + r.sock.flushable) := by
        simp only [Ezos.Tcp.flushRound, Function.update_self, if_pos hlt, hold]
      refine hb.trans ((hq.bytes _ hlt).trans ?_)
      congr 1
      omega

theorem flushOoo {fuel : Nat} {r : Handled} (hR : Received P del r.sock r.heap n) :
    ∃ m, Received P del (flushOoo fuel r).sock (flushOoo fuel r).heap m := by
  induction fuel generalizing r n with
  | zero => exact ⟨n, hR⟩
  | succ fuel ih =>
    rw [flushOoo_succ]
    by_cases hg : r.sock.oooLen ≠ 0 ∧ r.sock.oooSeq = r.sock.rcvNxt
    · rw [if_pos hg]
      by_cases hz : r.sock.flushable = 0
      · rw [if_pos hz]
        exact ⟨n, hR⟩
      · rw [if_neg hz]
        exact ih (hR.flushRound hg.1 hg.2)
    · rw [if_neg hg]
      exact ⟨n, hR⟩

theorem keepOoo (hR : Received P del s h n) {g : Segment} (hP : FromPeer P g) (hne : g.data ≠ [])
    (ht : s.TakesOoo g) : Received P del (keepOoo s h g).sock (keepOoo s h g).heap n := by
  obtain ⟨off, hseq, hdata, hle, hlow, -⟩ := hP (.inl hne)
  have hring : (Ezos.Tcp.keepOoo s h g).heap s.rx = h s.rx := Function.update_of_ne hR.ring _ _
  -- the run and the segment lie end to end
  have hrun : ∃ q, (Ezos.Tcp.keepOoo s h g).sock.oooSeq = P.irs + wrap q ∧ q + s.oooLen = off ∧
      ∀ k, k < s.oooLen → h s.ooo k = P.stream.getD (q + k) 0 := by
    by_cases hz : s.oooLen = 0
    · exact ⟨off, (if_pos hz).trans hseq, by omega, fun k hk => by omega⟩
    · obtain ⟨q, hq⟩ := hR.run hz
      refine ⟨q, (if_neg hz).trans hq.seq, ?_, hq.bytes⟩
      have hjoin := ht.2.2.resolve_left hz
      rw [hq.seq, hseq, BitVec.add_assoc, ← wrap_add] at hjoin
      exact (offset_eq hjoin (by omega) hq.low).symm
  obtain ⟨q, hqs, hqo, hqb⟩ := hrun
  refine ⟨hR.r, hR.w, hR.nxt, hR.le, hR.low, ?_, hR.fin, fun _ => ⟨q, hqs, ?_, ?_, fun k hk => ?_⟩,
    hR.ring, hR.apart⟩
  · rw [← hR.bytes]
    exact congrArg (fun b => del ++ ringBytes b _ _) hring
  · change q + (s.oooLen + g.data.length) ≤ _
    omega
  · change q + (s.oooLen + g.data.length) ≤ _
    omega
  · have hk' : k < s.oooLen + g.data.length := hk
    have hb : (Ezos.Tcp.keepOoo s h g).heap s.ooo k =
        if s.oooLen ≤ k ∧ k < s.oooLen + g.data.length then g.data.getD (k - s.oooLen) 0 else h s.ooo k := by
      simp only [Ezos.Tcp.keepOoo, Function.update_self]
    refine hb.trans ?_
    by_cases hold : k < s.oooLen
    · rw [if_neg (by omega)]
      exact hqb k hold
    · rw [if_pos (by omega), slice_getD hdata (by omega)]
      congr 1
      omega

theorem storeData (hR : Received P del s h n) {g : Segment} (hP : FromPeer P g) :
    ∃ m, Received P del (storeData s h g).sock (storeData s h g).heap m := by
  rw [Ezos.Tcp.storeData]
  by_cases hz : g.data.length = 0
  · rw [if_pos hz]
    exact ⟨n, hR⟩
  · rw [if_neg hz]
    have hne : g.data ≠ [] := fun he => hz (congrArg List.length he)
    by_cases hold : ahead g.seq s.rcvNxt < 0
    · rw [if_pos hold]
      exact ⟨n, hR⟩
    · rw [if_neg hold]
      by_cases hnext : g.seq = s.rcvNxt
      · rw [if_pos hnext]
        obtain ⟨off, hseq, hdata, hle, hlow, -⟩ := hP (.inl hne)
        obtain ⟨hf, rfl⟩ := hR.at_nxt (hseq.symm.trans hnext) (by omega) (by omega)
        -- as much as the ring has room for
        have hlen : (g.data.take (spaceIn s.rxR s.rxW)).length = min (spaceIn s.rxR s.rxW) g.data.length :=
          List.length_take
        refine (hR.store hf _ ?_ ?_ ?_ ?_).flushOoo
        · rw [hlen]
          exact Nat.min_le_left _ _
        · rw [hlen, ← List.take_take, ← hdata]
        · rw [hlen]
          omega
        · rw [hlen]
          omega
      · rw [if_neg hnext]
        by_cases ht : s.TakesOoo g
        · rw [if_pos ht]
          exact ⟨n, hR.keepOoo hP hne ht⟩
        · rw [if_neg ht]
          exact ⟨n, hR⟩

end Received

structure SendOnly (s s' : Sock) : Prop where
  rx : s'.rx = s.rx
  r : s'.rxR = s.rxR
  w : s'.rxW = s.rxW
  nxt : s'.rcvNxt = s.rcvNxt
  fin : s'.gotFin = s.gotFin
  ooo : s'.ooo = s.ooo
  rtx : s'.rtx = s.rtx
  run : s'.oooLen = s.oooLen ∧ s'.oooSeq = s.oooSeq ∨ s'.oooLen = 0

namespace Received
variable {P : Peer} {del : List U8} {s s' : Sock} {h : Heap} {n : Nat}

theorem sendOnly (hR : Received P del s h n) (hs : SendOnly s s') : Received P del s' h n where
  r := hs.r ▸ hR.r
  w := hs.w ▸ hR.w
  nxt := by
    rw [hs.nxt, hs.fin]
    exact hR.nxt
  le := hR.le
  low := hs.fin ▸ hR.low
  bytes := by
    rw [Sock.ring, hs.rx, hs.r, hs.w]
    exact hR.bytes
  fin := hs.fin ▸ hR.fin
  run hne := by
    rcases hs.run with ⟨hl, hq⟩ | hz
    · obtain ⟨q, hw⟩ := hR.run (hl ▸ hne)
      refine ⟨q, hq.trans hw.seq, hl ▸ hw.le, hl ▸ hw.low, ?_⟩
      rw [hl, hs.ooo]
      exact hw.bytes
    · exact absurd hz hne
  ring := by
    rw [hs.rx, hs.ooo]
    exact hR.ring
  apart := by
    rw [hs.rx, hs.ooo, hs.rtx]
    exact hR.apart

theorem takeFin (hR : Received P del s h n) {g : Segment} (hP : FromPeer P g) (hn : s.FinNext g) :
    Received P del s.takeFin h n := by
  obtain ⟨hfin, hnext⟩ := hn
  obtain ⟨off, hseq, -, hle, hlow, hend⟩ := hP (.inr hfin)
  have hlast := hend hfin
  rw [hfin, Bool.toNat_true] at hlow
  rw [hseq, BitVec.add_assoc, ← wrap_add, hR.nxt] at hnext
  have he := offset_eq hnext (by omega) hR.low
  have hnle := hR.le
  have hf : s.gotFin = false := by
    cases hg : s.gotFin with
    | false => rfl
    | true =>
      have := hR.fin hg
      rw [hg, Bool.toNat_true] at he
      omega
  rw [hf, Bool.toNat_false, Nat.add_zero] at he
  refine ⟨hR.r, hR.w, ?_, hR.le, ?_, hR.bytes, fun _ => by omega, fun hne => ?_, hR.ring, hR.apart⟩
  · have hnxt := hR.nxt
    rw [hf, Bool.toNat_false, Nat.add_zero] at hnxt
    rw [Sock.takeFin, hnxt, Bool.toNat_true, wrap_add]
    exact BitVec.add_assoc _ _ _
  · change n + 1 ≤ _
    omega
  · obtain ⟨q, hw⟩ := hR.run hne
    exact ⟨q, hw.seq, hw.le, hw.low, hw.bytes⟩

theorem handleOpen (hR : Received P del s h n) {g : Segment} (hP : FromPeer P g) :
    ∃ m, Received P del (handleOpen s h g).sock (handleOpen s h g).heap m := by
  obtain ⟨m, hm⟩ := hR.storeData hP
  refine ⟨m, ?_⟩
  rw [Ezos.Tcp.handleOpen]
  simp only
  by_cases hn : (Ezos.Tcp.storeData s h g).sock.FinNext g
  · rw [if_pos hn]
    exact (hm.takeFin hP hn).sendOnly ⟨rfl, rfl, rfl, rfl, rfl, rfl, rfl, .inl ⟨rfl, rfl⟩⟩
  · rw [if_neg hn]
    exact hm

theorem handleFinWait (hR : Received P del s h n) {g : Segment} (hP : FromPeer P g) :
    ∃ m, Received P del (handleFinWait s h g).sock (handleFinWait s h g).heap m := by
  refine ⟨n, ?_⟩
  rw [Ezos.Tcp.handleFinWait]
  split
  · by_cases hn : s.FinNext g
    · rw [if_pos hn]
      exact (hR.takeFin hP hn).sendOnly ⟨rfl, rfl, rfl, rfl, rfl, rfl, rfl, .inr rfl⟩
    · rw [if_neg hn]
      exact hR.sendOnly ⟨rfl, rfl, rfl, rfl, rfl, rfl, rfl, .inr rfl⟩
  · exact hR

theorem state (hR : Received P del s h n) (st : State) : Received P del { s with state := st } h n :=
  hR.sendOnly ⟨rfl, rfl, rfl, rfl, rfl, rfl, rfl, .inl ⟨rfl, rfl⟩⟩

theorem free (hR : Received P del s h n) : Received P del s.free h n :=
  hR.sendOnly ⟨rfl, rfl, rfl, rfl, rfl, rfl, rfl, .inr rfl⟩

theorem handleState (hR : Received P del s h n) {g : Segment} (hP : FromPeer P g)
    (hs : s.state ≠ .synSent) :
    ∃ m, Received P del (handleState s h g).sock (handleState s h g).heap m := by
  rw [Ezos.Tcp.handleState]
  split
  · rename_i hst
    exact absurd hst hs
  · split
    · exact ⟨n, hR⟩
    · split
      · exact ⟨n, hR.state .established⟩
      · exact (hR.state .established).handleOpen hP
  · exact hR.handleOpen hP
  · exact hR.handleOpen hP
  · split
    · exact ⟨n, hR.free⟩
    · exact ⟨n, hR⟩
  · split
    · exact (hR.state .finWait2).handleFinWait hP
    · exact hR.handleFinWait hP
  · exact hR.handleFinWait hP
  · exact ⟨n, hR⟩
  · exact ⟨n, hR⟩

theorem handleSegment (hR : Received P del s h n) {g : Segment} (hP : FromPeer P g) (ticks : U32)
    (hs : s.state ≠ .synSent) :
    ∃ m, Received P del (handleSegment s h ticks g).sock (handleSegment s h ticks g).heap m := by
  rw [Ezos.Tcp.handleSegment]
  by_cases hrst : g.has tcpRst
  · rw [if_pos hrst]
    exact ⟨n, hR.free⟩
  · rw [if_neg hrst]
    by_cases hack : g.has tcpAck
    · rw [if_pos hack]
      obtain ⟨u, l, t, k, y, he⟩ := ackAdvance_keeps s ticks g.ack
      -- the shift of `rtx` leaves the other two blocks alone
      have hshift : ∀ p, p ≠ s.rtx → s.ackShift h g.ack p = h p := by
        intro p hp
        rw [Sock.ackShift]
        split
        · exact Function.update_of_ne hp _ _
        · rfl
      have hA : Received P del (s.ackAdvance ticks g.ack) (s.ackShift h g.ack) n := by
        rw [he]
        exact (hR.heap (hshift _ hR.apart.1.symm) (hshift _ hR.apart.2.symm)).sendOnly
          ⟨rfl, rfl, rfl, rfl, rfl, rfl, rfl, .inl ⟨rfl, rfl⟩⟩
      exact hA.handleState hP (by rw [he]; exact hs)
    · rw [if_neg hack]
      exact hR.handleState hP hs

end Received

/-! ### Runs -/

structure Rx where
  sock : Sock
  heap : Heap
  delivered : List U8

def Event.own : Event → Prop
  | .adopt | .free | .retransmit _ _ | .send _ _ _ | .fin _ | .reply _ _ _ => True
  | _ => False

/-- A segment of the peer arrives, the application reads at most `max` bytes, or the kernel works on
the sending side, where it writes to `rtx` only. -/
def RxStep (P : Peer) (x : Rx) (e : Event) (y : Rx) : Prop :=
  e.Enabled x.sock ∧ y.sock = x.sock.after (x.heap x.sock.rtx) e ∧
    match e with
    | .segment h g ticks _ => h = x.heap ∧ FromPeer P g ∧ y.delivered = x.delivered ∧
        y.heap = (handleSegment x.sock x.heap ticks g).heap
    | .recv r => ∃ max, r = (x.sock.recv x.heap max).2.rxR ∧ y.heap = x.heap ∧
        y.delivered = x.delivered ++ (x.sock.recv x.heap max).1
    | e => e.own ∧ y.delivered = x.delivered ∧ ∀ p, p ≠ x.sock.rtx → y.heap p = x.heap p

/-- A connection that has just come up: nothing has been received, and its three buffers are different
blocks. -/
structure RxStart (P : Peer) (x : Rx) : Prop where
  past : x.sock.state ≠ .synSent
  nxt : x.sock.rcvNxt = P.irs
  empty : x.sock.rxR = 0 ∧ x.sock.rxW = 0 ∧ x.delivered = []
  fin : x.sock.gotFin = false
  run : x.sock.oooLen = 0
  ring : x.sock.rx ≠ x.sock.ooo
  apart : x.sock.rtx ≠ x.sock.rx ∧ x.sock.rtx ≠ x.sock.ooo

/-- How far `rcv_nxt` is from the first byte; a FIN that was taken has a number of its own. -/
def Sock.received (s : Sock) (irs : U32) : Nat := (s.rcvNxt - irs).toNat - s.gotFin.toNat

/-- The application and the ring have the stream up to `rcv_nxt`, and a FIN was taken only at its
end. -/
structure Delivers (P : Peer) (x : Rx) : Prop where
  bytes : x.delivered ++ x.sock.ring x.heap = P.stream.take (x.sock.received P.irs)
  le : x.sock.received P.irs ≤ P.stream.length
  fin : x.sock.gotFin = true → x.sock.received P.irs = P.stream.length

theorem Received.received_eq {P : Peer} {del : List U8} {s : Sock} {h : Heap} {n : Nat}
    (hR : Received P del s h n) : s.received P.irs = n := by
  have hlow := hR.low
  have hsub : s.rcvNxt - P.irs = wrap (n + s.gotFin.toNat) := by
    rw [hR.nxt]
    grind
  rw [Sock.received, hsub, BitVec.toNat_ofNat]
  omega

theorem Received.delivers {P : Peer} {x : Rx} {n : Nat}
    (hR : Received P x.delivered x.sock x.heap n) : Delivers P x where
  bytes := by
    rw [hR.received_eq]
    exact hR.bytes
  le := by
    rw [hR.received_eq]
    exact hR.le
  fin hf := by
    rw [hR.received_eq]
    exact hR.fin hf

def RxInv (P : Peer) (x : Rx) : Prop :=
  x.sock.state ≠ .synSent ∧ ∃ n, Received P x.delivered x.sock x.heap n

theorem RxStart.inv {P : Peer} {x : Rx} (h : RxStart P x) : RxInv P x := by
  obtain ⟨hr, hw, hd⟩ := h.empty
  have hempty : x.sock.ring x.heap = [] := by
    rw [Sock.ring, hr, hw]
    exact Ring.contents_eq_nil (Nat.le_refl _)
  refine ⟨h.past, 0, ?_, ?_, ?_, Nat.zero_le _, ?_, ?_, ?_, fun hne => absurd h.run hne, h.ring, h.apart⟩
  · rw [hr]
    decide
  · rw [hw]
    decide
  · rw [h.nxt, h.fin]
    exact (BitVec.add_zero _).symm
  · rw [h.fin]
    decide
  · rw [hd, hempty]
    rfl
  · rw [h.fin]
    exact nofun

theorem SendOnly.noteIf (s : Sock) (o : Option Out) (ok : Bool) : SendOnly s (s.noteIf o ok) := by
  cases o <;> exact ⟨rfl, rfl, rfl, rfl, rfl, rfl, rfl, .inl ⟨rfl, rfl⟩⟩

theorem sendOnly_retransmit (s : Sock) (buf : Nat → U8) (now : U32) (sent : Bool) :
    SendOnly s (s.after buf (.retransmit now sent)) := by
  rw [Sock.after]
  by_cases hd : s.Due now
  · rcases retransmit_due hd (fun _ => buf) with he | ⟨-, he⟩ | ⟨-, -, he⟩ | ⟨-, -, he⟩
    all_goals rw [he]
    · exact ⟨rfl, rfl, rfl, rfl, rfl, rfl, rfl, .inr rfl⟩
    all_goals exact ⟨rfl, rfl, rfl, rfl, rfl, rfl, rfl, .inl ⟨rfl, rfl⟩⟩
  · rw [retransmit_idle hd]
    exact ⟨rfl, rfl, rfl, rfl, rfl, rfl, rfl, .inl ⟨rfl, rfl⟩⟩

theorem Event.own_spec {e : Event} (ho : e.own) {s : Sock} (buf : Nat → U8) :
    SendOnly s (s.after buf e) ∧ (s.state ≠ .synSent → (s.after buf e).state ≠ .synSent) := by
  cases e with
  | adopt => exact ⟨⟨rfl, rfl, rfl, rfl, rfl, rfl, rfl, .inl ⟨rfl, rfl⟩⟩, id⟩
  | free => exact ⟨⟨rfl, rfl, rfl, rfl, rfl, rfl, rfl, .inr rfl⟩, fun _ hc => (by cases hc)⟩
  | retransmit now sent =>
    refine ⟨sendOnly_retransmit s buf now sent, fun hs => ?_⟩
    rcases after_retransmit s buf now sent with ⟨-, hst⟩ | ⟨k, t, b, he⟩
    · rw [hst]
      simp
    · rw [he]
      exact hs
  | send data ticks sent =>
    cases sent <;> exact ⟨⟨rfl, rfl, rfl, rfl, rfl, rfl, rfl, .inl ⟨rfl, rfl⟩⟩, id⟩
  | fin sent =>
    cases sent with
    | false => exact ⟨⟨rfl, rfl, rfl, rfl, rfl, rfl, rfl, .inl ⟨rfl, rfl⟩⟩, id⟩
    | true =>
      refine ⟨⟨rfl, rfl, rfl, rfl, rfl, rfl, rfl, .inl ⟨rfl, rfl⟩⟩, fun _ => ?_⟩
      simp only [Sock.after, Sock.closing, if_true]
      split
      · simp
      · simp
  | reply data ticks sent =>
    cases sent <;> exact ⟨⟨rfl, rfl, rfl, rfl, rfl, rfl, rfl, .inr rfl⟩, id⟩
  | fresh | port | listen | bufs | connect | passive | refuse | go | segment | recv => exact ho.elim

theorem Moves.not_synSent {a s' : Sock} {g : Segment} (h : Moves a g s') (hs : a.state ≠ .synSent) :
    s'.state ≠ .synSent := by
  cases h with
  | freed _ hst =>
    rw [hst]
    exact nofun
  | stays _ _ hr =>
    obtain ⟨w, n, q, l, f, rfl⟩ := hr
    exact hs
  | opens h => exact absurd h hs
  | accepted _ _ _ hr | acceptedFin _ _ _ hr | peerClosed _ hr | finAcked _ _ _ hr =>
    obtain ⟨w, n, q, l, f, rfl⟩ := hr
    exact nofun

theorem RxInv.step {P : Peer} {x y : Rx} {e : Event} (hx : RxInv P x) (hs : RxStep P x e y) :
    RxInv P y := by
  obtain ⟨hpast, n, hR⟩ := hx
  obtain ⟨-, hy, hstep⟩ := hs
  have howned : e.own ∧ y.delivered = x.delivered ∧ (∀ p, p ≠ x.sock.rtx → y.heap p = x.heap p) →
      RxInv P y := by
    rintro ⟨ho, hd, hh⟩
    obtain ⟨hsend, hst⟩ := Event.own_spec ho (s := x.sock) (x.heap x.sock.rtx)
    rw [RxInv, hy, hd]
    exact ⟨hst hpast, n,
      (hR.heap (hh _ hR.apart.1.symm) (hh _ hR.apart.2.symm)).sendOnly hsend⟩
  cases e with
  | segment h g ticks sent =>
    obtain ⟨rfl, hP, hd, hh⟩ := hstep
    have hm := handleSegment_moves x.sock x.heap ticks g
    have hst := hm.not_synSent (by rw [acked_state]; exact hpast)
    obtain ⟨m, hm⟩ := hR.handleSegment hP ticks hpast
    rw [RxInv, hy, hd, hh]
    refine ⟨?_, m, hm.sendOnly (SendOnly.noteIf _ _ _)⟩
    rw [Sock.after, (noteIf_fields _ _ _).2.1]
    exact hst
  | recv r =>
    obtain ⟨max, rfl, hh, hd⟩ := hstep
    obtain ⟨hlt, hsplit⟩ := ringRead_spec (b := x.heap x.sock.rx) hR.w max hR.r
    rw [RxInv, hy, hd, hh]
    refine ⟨hpast, n, hlt, hR.w, hR.nxt, hR.le, hR.low, ?_, hR.fin, fun hne => ?_, hR.ring, hR.apart⟩
    · rw [← hR.bytes, List.append_assoc]
      exact congrArg (x.delivered ++ ·) hsplit.symm
    · obtain ⟨q, hq⟩ := hR.run hne
      exact ⟨q, hq.seq, hq.le, hq.low, hq.bytes⟩
  | fresh | free | port | listen | adopt | bufs | connect | passive | refuse | go | retransmit | send |
    fin | reply => exact howned hstep

/-- Whatever arrives and in whichever order, the application gets the stream from its start and
without a gap. -/
theorem run_delivers {P : Peer} {x y : Rx} {es : List Event} (hx : RxStart P x)
    (h : Run (RxStep P) x es y) : Delivers P y := by
  obtain ⟨-, n, hR⟩ := Run.invariant (I := RxInv P) RxInv.step h hx.inv
  exact hR.delivers

theorem rxStart_passive (stream : List U8) (s : Sock) (buf : Nat → U8) (heap : Heap) {rtx ooo : Ptr}
    (g : Segment) (l : Slot) (pid isn : U32) (sent : Bool) (hring : s.rx ≠ ooo)
    (hapart : rtx ≠ s.rx ∧ rtx ≠ ooo) :
    RxStart ⟨stream, g.seq + 1⟩ ⟨s.after buf (.passive rtx ooo g l pid isn sent), heap, []⟩ where
  past := nofun
  nxt := rfl
  empty := ⟨rfl, rfl, rfl⟩
  fin := rfl
  run := rfl
  ring := hring
  apart := hapart

def Rx.input (x : Rx) (g : Segment) : Rx :=
  ⟨x.sock.after (x.heap x.sock.rtx) (.segment x.heap g 9 true), (handleSegment x.sock x.heap 9 g).heap,
    x.delivered⟩

def Rx.read (x : Rx) (max : Nat) : Rx :=
  ⟨(x.sock.recv x.heap max).2, x.heap, x.delivered ++ (x.sock.recv x.heap max).1⟩

theorem rxStep_input {P : Peer} {x : Rx} {g : Segment}
    (he : x.sock.used = true ∧ x.sock.type = .tcp ∧ x.sock.state ≠ .listen) (hP : FromPeer P g) :
    RxStep P x (.segment x.heap g 9 true) (x.input g) := ⟨he, rfl, rfl, hP, rfl, rfl⟩

theorem rxStep_read {P : Peer} (x : Rx) (max : Nat) :
    RxStep P x (.recv (x.sock.recv x.heap max).2.rxR) (x.read max) := ⟨trivial, rfl, max, rfl, rfl, rfl⟩

def peerSyn : Segment := ⟨tcpSyn, 0xFFFFFFFD, 0, 40000, 80, 0x0A000202, []⟩

def wrappingPeer : Peer := ⟨[1, 2, 3, 4, 5], peerSyn.seq + 1⟩

def acceptedRx : Rx :=
  ⟨{ bootSock with rx := 0x100 }.after (fun _ => 0)
    (.passive 0x200 0x300 peerSyn ⟨1, one_lt_socks⟩ 1 0x1000 true), fun _ _ => 0, []⟩

def peerSegment (flags : U8) (off : Nat) (data : List U8) : Segment :=
  ⟨flags, wrappingPeer.irs + wrap off, 0x1001, 40000, 80, 0x0A000202, data⟩

def reorderedRx : Rx :=
  ((acceptedRx.input (peerSegment tcpAck 0 [])).input (peerSegment tcpAck 2 [3, 4])).input
    (peerSegment tcpAck 0 [1, 2])

def readRx : Rx := (reorderedRx.read 3).input (peerSegment (tcpAck ||| tcpFin) 4 [5])

theorem run_delivers_reordered : Delivers wrappingPeer readRx ∧ readRx.delivered = [1, 2, 3] ∧
    readRx.sock.ring readRx.heap = [4, 5] ∧ readRx.sock.gotFin = true := by
  have hs : RxStart wrappingPeer acceptedRx := by
    refine rxStart_passive _ _ _ _ peerSyn _ _ _ _ ?_ ⟨?_, ?_⟩
    all_goals decide
  refine ⟨run_delivers hs (.cons (rxStep_input ⟨?_, ?_, ?_⟩ ?_) (.cons (rxStep_input ⟨?_, ?_, ?_⟩ ?_)
    (.cons (rxStep_input ⟨?_, ?_, ?_⟩ ?_) (.cons (rxStep_read _ 3)
      (.cons (rxStep_input ⟨?_, ?_, ?_⟩ ?_) (.nil _)))))), ?_, ?_, ?_⟩
  case refine_4 => exact fun h => absurd h (by decide)
  case refine_8 => exact fun _ => ⟨2, by decide⟩
  case refine_12 => exact fun _ => ⟨0, by decide⟩
  case refine_16 => exact fun _ => ⟨4, by decide⟩
  all_goals decide

end Ezos.Tcp
