import Ezos.Net.SendVia
import Mathlib.Tactic.Linarith

/-!
# What is sent is what is received

The checks of `net_input` on a frame that `net_udp_send` or `tcp_send_seg_ex` has built: lengths, the
header checksum, and the checksum over pseudo header and segment, with the two special values of
each kind.
-/

namespace Ezos.Net

open Lib.Memory Lib.NetOrder Lib.OnesComplement Tcp

set_option autoImplicit false

def halves (x : U32) : Nat := x.toNat / 65536 + x.toNat % 65536

theorem halves_lt (x : U32) : halves x < 131071 := by
  have hx := x.isLt
  rw [halves]
  omega

theorem bytes_high (x : U32) : ((x >>> (24 : Nat)).setWidth 8).toNat * 256 +
    ((x >>> (16 : Nat)).setWidth 8).toNat = x.toNat / 65536 := by
  have hx := x.isLt
  simp only [BitVec.toNat_setWidth, BitVec.toNat_ushiftRight, Nat.shiftRight_eq_div_pow]
  omega

theorem bytes_low (x : U32) : ((x >>> (8 : Nat)).setWidth 8).toNat * 256 +
    (x.setWidth 8).toNat = x.toNat % 65536 := by
  simp only [BitVec.toNat_setWidth, BitVec.toNat_ushiftRight, Nat.shiftRight_eq_div_pow]
  omega

theorem bytes_word (x : U16) : ((x >>> (8 : Nat)).setWidth 8).toNat * 256 + (x.setWidth 8).toNat = x.toNat := by
  have hx := x.isLt
  simp only [BitVec.toNat_setWidth, BitVec.toNat_ushiftRight, Nat.shiftRight_eq_div_pow]
  omega

def pseudoSum (src dst : U32) (proto : U8) (len : Nat) : Nat :=
  halves src + halves dst + proto.toNat + (BitVec.ofNat 16 len).toNat

theorem sumWords_pseudo (src dst : U32) (proto : U8) (len : Nat) :
    sumWords (ofList (bytes32 src ++ bytes32 dst ++ [0, proto] ++ bytes16 (BitVec.ofNat 16 len))) 0 12 =
      pseudoSum src dst proto len := by
  have hs := bytes_high src
  have hs' := bytes_low src
  have hd := bytes_high dst
  have hd' := bytes_low dst
  have hl := bytes_word (BitVec.ofNat 16 len)
  have hp : (0 : U8).toNat = 0 := rfl
  rw [pseudoSum, halves, halves]
  simp only [bytes32, bytes16, List.cons_append, List.nil_append]
  iterate 6 rw [sumWords_cons]
  rw [sumWords]
  linarith

theorem pseudoSum_lt (src dst : U32) (proto : U8) (len : Nat) : pseudoSum src dst proto len < 2 ^ 31 := by
  have hs := halves_lt src
  have hd := halves_lt dst
  have hp := proto.isLt
  have hl := (BitVec.ofNat 16 len).isLt
  rw [pseudoSum]
  omega

section Segment

variable {src dst : U32} {proto : U8} {m : Mem} {a n len : Nat}

theorem l4Sum_eq (src dst : U32) (proto : U8) (m : Mem) (a n len : Nat) :
    l4Sum src dst proto m a n len = fold (fold (pseudoSum src dst proto len) + fold (sumWords m a n)) := by
  rw [← sumWords_pseudo]
  rfl

theorem l4Sum_bounds (src dst : U32) (proto : U8) (m : Mem) (a len : Nat) (hn : n ≤ 65536) :
    l4Sum src dst proto m a n len < 65536 ∧ l4Sum src dst proto m a n len % 65535 =
      (pseudoSum src dst proto len + sumWords m a n) % 65535 := by
  have hpl := pseudoSum_lt src dst proto len
  have hsl := sumWords_lt m a hn
  have hp := fold_lt (s := pseudoSum src dst proto len) (by omega)
  have hp' := fold_mod (s := pseudoSum src dst proto len) (by omega)
  have hs := fold_lt (s := sumWords m a n) (by omega)
  have hs' := fold_mod (s := sumWords m a n) (by omega)
  rw [l4Sum_eq]
  refine ⟨fold_lt (by omega), ?_⟩
  rw [fold_mod (by omega)]
  omega

theorem l4Sum_full_iff (hp : proto ≠ 0) (hn : n ≤ 65536) :
    l4Sum src dst proto m a n len = 65535 ↔ 65535 ∣ pseudoSum src dst proto len + sumWords m a n := by
  have hpos : 0 < pseudoSum src dst proto len := by
    have h0 : proto.toNat ≠ 0 := fun h => hp (BitVec.eq_of_toNat_eq h)
    rw [pseudoSum]
    omega
  rw [l4Sum_eq]
  exact fold_fold_eq_full_iff hpos (pseudoSum_lt _ _ _ _) (sumWords_lt m a hn)

def Complements (c : U16) (s : Nat) : Prop := 65535 ∣ s + c.toNat

theorem complements_l4Sum (hn : n ≤ 65536) : Complements (~~~ BitVec.ofNat 16 (l4Sum src dst proto m a n len))
    (pseudoSum src dst proto len + sumWords m a n) := by
  obtain ⟨hlt, hmod⟩ := l4Sum_bounds src dst proto m a len hn
  rw [Complements, toNat_complement hlt]
  omega

theorem l4Checksum_complements (hn : n ≤ 65536) :
    Complements (l4Checksum src dst proto m a n) (pseudoSum src dst proto n + sumWords m a n) ∧
      l4Checksum src dst proto m a n ≠ 0 := by
  have hc : Complements (~~~ BitVec.ofNat 16 (l4Sum src dst proto m a n n))
    (pseudoSum src dst proto n + sumWords m a n) := complements_l4Sum hn
  have heq : l4Checksum src dst proto m a n =
      if ~~~ BitVec.ofNat 16 (l4Sum src dst proto m a n n) = 0 then 0xFFFF
      else ~~~ BitVec.ofNat 16 (l4Sum src dst proto m a n n) := rfl
  rw [heq]
  generalize ~~~ BitVec.ofNat 16 (l4Sum src dst proto m a n n) = c at hc
  split
  · rename_i h0
    subst h0
    refine ⟨?_, by decide⟩
    obtain ⟨k, hk⟩ := hc
    exact ⟨k + 1, by rw [Nat.mul_add, ← hk]; rfl⟩
  · rename_i h0
    exact ⟨hc, h0⟩

end Segment

def Arrives (fr : List U8) (f : Mem) (len : Nat) : Prop := fr.length ≤ len ∧ bytesAt f 0 fr.length = fr

theorem bytesAt_inj {m m' : Mem} {a b n : Nat} (h : bytesAt m' b n = bytesAt m a n) :
    ∀ i < n, m' (b + i) = m (a + i) := fun i hi =>
  List.map_inj_left.mp h i (List.mem_range.mpr hi)

theorem Arrives.agrees {m f : Mem} {k len : Nat} (h : Arrives (bytesAt m 0 k) f len) :
    k ≤ len ∧ ∀ x < k, f x = m x := by
  obtain ⟨hlen, hbytes⟩ := h
  rw [length_bytesAt] at hlen hbytes
  refine ⟨hlen, fun x hx => ?_⟩
  have hx' := bytesAt_inj hbytes x hx
  rwa [Nat.zero_add] at hx'

section Receiver

variable {f m : Mem} {len n : Nat} {proto : U8} {src dst : U32}

theorem Sealed.congr (h : Sealed m n proto src dst) (he : ∀ x < 34, f x = m x) :
    Sealed f n proto src dst where
  header := h.header.congr fun x _ hx _ _ => he x hx
  cksum := by
    have hsum : sumWords f 14 ipHdrMin = sumWords m 14 ipHdrMin :=
      sumWords_congr fun i hi => he _ (by rw [ipHdrMin] at hi; omega)
    have hck := h.cksum
    rw [Lib.OnesComplement.cksum, cksumRaw] at hck ⊢
    rw [hsum, hck]

theorem Sealed.total (h : Sealed f n proto src dst) (hn : ipHdrMin + n ≤ 1500) :
    (be16 (shift f ethHdrLen) 2).toNat = ipHdrMin + n := by
  have hlen : be16 (shift f ethHdrLen) 2 = BitVec.ofNat 16 (ipHdrMin + n) := h.header.length
  rw [hlen, BitVec.toNat_ofNat, Nat.mod_eq_of_lt (by omega)]

theorem headerSum_sealed (h : Sealed f n proto src dst) : cksum (shift f ethHdrLen) 0 ipHdrMin = 0 := by
  have hsum : sumWords (shift f ethHdrLen) 0 ipHdrMin = sumWords f 14 ipHdrMin :=
    sumWords_congr fun i _ => by rw [Nat.zero_add]; rfl
  have hck := h.cksum
  rw [cksum, cksumRaw] at hck ⊢
  rw [hsum, hck]

theorem ipCheck_sealed (h : Sealed f n proto src dst) (hn : ipHdrMin + n ≤ 1500)
    (hlen : 34 + n ≤ len) (h4 : l4CsumOk (shift f ethHdrLen) ipHdrMin (ipHdrMin + n) = true) :
    ipCheck f len = .ok ipHdrMin := by
  have hv : shift f ethHdrLen 0 = 0x45 := h.header.version
  have hihl : (shift f ethHdrLen 0 &&& 0x0F).toNat * 4 = ipHdrMin := by
    rw [hv]
    rfl
  have hfrag : be16 (shift f ethHdrLen) 6 = 0 := h.header.fragment
  have hmin : ethHdrLen + ipHdrMin = 34 := rfl
  rw [ipCheck]
  rw [hihl, h.total hn, hfrag, hv, if_neg, if_neg, if_neg, if_neg, if_neg, if_neg]
  · rw [h4]
    simp
  · simp
  · exact fun hne => hne (headerSum_sealed h)
  · omega
  · omega
  · intro hor
    rcases hor with hor | hor
    · omega
    · exact hor rfl

theorem l4CsumOk_udp (h : Sealed f n 17 src dst) (hn : udpHdrLen ≤ n) (hne : be16 f 40 ≠ 0) :
    l4CsumOk (shift f ethHdrLen) ipHdrMin (ipHdrMin + n) =
      decide (l4Sum src dst 17 (shift f ethHdrLen) ipHdrMin n n = 65535) := by
  have hp : shift f ethHdrLen 9 = 17 := h.header.proto
  have hs : be32 (shift f ethHdrLen) 12 = src := h.header.src
  have hd : be32 (shift f ethHdrLen) 16 = dst := h.header.dst
  rw [l4CsumOk]
  rw [hp, hs, hd, Nat.add_sub_cancel_left, if_neg (by omega), if_neg (fun hz => hne hz.2),
    if_neg (fun hz => absurd hz.1 (by decide)), if_neg (fun hz => hz.1 rfl)]

theorem l4CsumOk_tcp (h : Sealed f n 6 src dst) (hn : tcpHdrMin ≤ n) :
    l4CsumOk (shift f ethHdrLen) ipHdrMin (ipHdrMin + n) =
      decide (l4Sum src dst 6 (shift f ethHdrLen) ipHdrMin n n = 65535) := by
  have hp : shift f ethHdrLen 9 = 6 := h.header.proto
  have hs : be32 (shift f ethHdrLen) 12 = src := h.header.src
  have hd : be32 (shift f ethHdrLen) 16 = dst := h.header.dst
  rw [l4CsumOk]
  rw [hp, hs, hd, Nat.add_sub_cancel_left, if_neg (fun hz => absurd hz.1 (by decide)),
    if_neg (fun hz => absurd hz.1 (by decide)), if_neg (by omega), if_neg (fun hz => hz.2 rfl)]

theorem sumWords_shift (f : Mem) (n : Nat) : sumWords (shift f ethHdrLen) ipHdrMin n = sumWords f 34 n :=
  sumWords_congr fun i _ => by
    rw [shift, ethHdrLen, ipHdrMin, ← Nat.add_assoc]

theorem netInput_ok (h : Sealed f n proto src dst) (hlen : 34 ≤ len) {ihl : Nat}
    (hc : ipCheck f len = .ok ihl) (peer : Stack) (hr : peer.env.link.ready = true)
    (hip : peer.env.link.card.ip = dst) : (netInput peer f len).ok = true := by
  have hdst : be32 (shift f ethHdrLen) 16 = dst := h.header.dst
  have htype : be16 f 12 = 0x0800 := h.header.type
  have hshort : (!peer.env.link.ready || decide (len < ethHdrLen)) = false := by
    rw [hr, Bool.not_true, Bool.false_or, decide_eq_false_iff_not, ethHdrLen]
    omega
  rw [netInput, hshort, htype, if_neg (by decide), if_neg (by decide), if_neg (by decide), ipInput, hc]
  simp only
  split
  · rfl
  · rw [if_neg (fun hne => hne (hdst.trans hip.symm)), ipDispatch]
    split
    · rfl
    · split
      · split <;> rfl
      · split
        · split <;> rfl
        · rfl

end Receiver

structure Accepted (f : Mem) (len : Nat) (dst : U32) (n : Nat) : Prop where
  total : (be16 (shift f ethHdrLen) 2).toNat = ipHdrMin + n
  most : ipHdrMin + n ≤ 1500
  header : cksum (shift f ethHdrLen) 0 ipHdrMin = 0
  l4 : l4CsumOk (shift f ethHdrLen) ipHdrMin (ipHdrMin + n) = true
  check : ipCheck f len = .ok ipHdrMin
  input : ∀ peer : Stack, peer.env.link.ready = true → peer.env.link.card.ip = dst →
    (netInput peer f len).ok = true

theorem Sealed.accepted {f : Mem} {len n : Nat} {proto : U8} {src dst : U32}
    (h : Sealed f n proto src dst) (hn : ipHdrMin + n ≤ 1500) (hlen : 34 + n ≤ len)
    (h4 : l4CsumOk (shift f ethHdrLen) ipHdrMin (ipHdrMin + n) = true) : Accepted f len dst n where
  total := h.total hn
  most := hn
  header := headerSum_sealed h
  l4 := h4
  check := ipCheck_sealed h hn hlen h4
  input := netInput_ok h (by omega) (ipCheck_sealed h hn hlen h4)

/-! ### TCP -/

section Tcp

variable (m : Mem) (s : Sock) (o : Out)

theorem putTcpFields_below {x : Nat} (hx : x < 34) : putTcpFields m s o x = m x := by
  rw [putTcpFields]
  simp (disch := simp; omega) only [put16_of_disjoint, put32_of_disjoint, writeBytes_of_disjoint]

/-- What `tcp_input` reads of the header at offset 34. -/
structure TcpHeader (m : Mem) (s : Sock) (o : Out) : Prop where
  sport : be16 m 34 = s.localPort
  dport : be16 m 36 = s.peerPort
  seq : be32 m 38 = o.seq
  ack : be32 m 42 = o.ack
  offset : m 46 = 80
  flags : m 47 = o.flags

theorem putTcpFields_header : TcpHeader (putTcpFields m s o) s o where
  sport := by
    rw [putTcpFields]
    simp (disch := simp) only [be16_put16_of_disjoint, be16_put32_of_disjoint,
      be16_writeBytes_of_disjoint, be16_put16_self]
  dport := by
    rw [putTcpFields]
    simp (disch := simp) only [be16_put16_of_disjoint, be16_put32_of_disjoint,
      be16_writeBytes_of_disjoint, be16_put16_self]
  seq := by
    rw [putTcpFields]
    simp (disch := simp) only [be32_put16_of_disjoint, be32_put32_of_disjoint,
      be32_writeBytes_of_disjoint, be32_put32_self]
  ack := by
    rw [putTcpFields]
    simp (disch := simp) only [be32_put16_of_disjoint, be32_writeBytes_of_disjoint, be32_put32_self]
  offset := by
    rw [putTcpFields]
    simp (disch := simp) only [put16_of_disjoint]
    rfl
  flags := by
    rw [putTcpFields]
    simp (disch := simp) only [put16_of_disjoint]
    rfl

theorem putTcpFields_empty : putTcpFields m s o 50 = 0 ∧ putTcpFields m s o 51 = 0 := by
  constructor
  · rw [putTcpFields]
    simp (disch := simp) only [put16_of_disjoint]
    rfl
  · rw [putTcpFields]
    simp (disch := simp) only [put16_of_disjoint]
    rfl

theorem TcpHeader.congr {m m' : Mem} {s : Sock} {o : Out} (h : TcpHeader m s o)
    (he : ∀ x, 34 ≤ x → x < 48 → m' x = m x) : TcpHeader m' s o where
  sport := (be16_congr (he 34 (by omega) (by omega)) (he 35 (by omega) (by omega))).trans h.sport
  dport := (be16_congr (he 36 (by omega) (by omega)) (he 37 (by omega) (by omega))).trans h.dport
  seq := (be32_congr fun i hi => he (38 + i) (by omega) (by omega)).trans h.seq
  ack := (be32_congr fun i hi => he (42 + i) (by omega) (by omega)).trans h.ack
  offset := (he 46 (by omega) (by omega)).trans h.offset
  flags := (he 47 (by omega) (by omega)).trans h.flags

def tcpSegment : Mem :=
  let n := tcpHdrMin + o.data.length
  let m := writeBytes (putTcpFields m s o) 54 o.data
  if n % 2 = 1 then writeBytes m (34 + n) [0] else m

theorem tcpSegment_below {x : Nat} (hx : x < 54) : tcpSegment m s o x = putTcpFields m s o x := by
  rw [tcpSegment]
  split
  · rw [writeBytes_below (by rw [tcpHdrMin]; omega), writeBytes_below hx]
  · exact writeBytes_below hx

theorem tcpSegment_data {i : Nat} (hi : i < o.data.length) : tcpSegment m s o (54 + i) = o.data.getD i 0 := by
  rw [tcpSegment]
  split
  · rw [writeBytes_below (by rw [tcpHdrMin]; omega), writeBytes_at hi]
  · exact writeBytes_at hi

theorem tcpSegment_sum (n : Nat) (hn : n = tcpHdrMin + o.data.length) :
    sumWords (tcpSegment m s o) 34 (n + n % 2) = sumWords (tcpSegment m s o) 34 n := by
  rcases Nat.mod_two_eq_zero_or_one n with h0 | h1
  · rw [h0, Nat.add_zero]
  · apply sumWords_pad
    rw [tcpSegment, ← hn, if_pos h1]
    exact writeBytes_at (l := [0]) (i := 0) Nat.zero_lt_one

end Tcp

theorem tcpFrame_eq (build : Mem) (dst src : List U8) (srcIp : U32) (id : U16) (s : Sock) (o : Out) :
    tcpFrame build dst src srcIp id s o =
      let n := tcpHdrMin + o.data.length
      let g := tcpSegment (putIpFields (putEth build dst src) n id 6 srcIp s.peerIp) s o
      putIpCksum (put16 g 50 (~~~ BitVec.ofNat 16 (l4Sum srcIp s.peerIp 6 g 34 (n + n % 2) n))) := rfl

structure TcpSealed (m : Mem) (srcIp : U32) (s : Sock) (o : Out) : Prop where
  ip : Sealed m (tcpHdrMin + o.data.length) 6 srcIp s.peerIp
  sum : 65535 ∣ pseudoSum srcIp s.peerIp 6 (tcpHdrMin + o.data.length) +
    sumWords m 34 (tcpHdrMin + o.data.length)
  header : TcpHeader m s o
  data : ∀ i < o.data.length, m (54 + i) = o.data.getD i 0

theorem tcpFrame_sealed (build : Mem) {dst src : List U8} (srcIp : U32) (id : U16) (s : Sock) (o : Out)
    (hd : dst.length = 6) (hs : src.length = 6) (hmax : tcpHdrMin + o.data.length ≤ 65535) :
    TcpSealed (tcpFrame build dst src srcIp id s o) srcIp s o := by
  have hhead := putIpFields_header hd hs build (tcpHdrMin + o.data.length) id 6 srcIp s.peerIp
  have hempty := putIpFields_empty (putEth build dst src) (tcpHdrMin + o.data.length) id 6 srcIp s.peerIp
  rw [tcpFrame_eq]
  simp only
  have h20 : 20 ≤ tcpHdrMin + o.data.length := Nat.le_add_right _ _
  generalize hn : tcpHdrMin + o.data.length = n at *
  generalize putIpFields (putEth build dst src) n id 6 srcIp s.peerIp = m at *
  have hsum := tcpSegment_sum m s o n hn.symm
  have hlow : ∀ x < 34, tcpSegment m s o x = m x := fun x hx => by
    rw [tcpSegment_below m s o (by omega), putTcpFields_below m s o hx]
  have h50 : tcpSegment m s o 50 = 0 :=
    (tcpSegment_below m s o (by omega)).trans (putTcpFields_empty m s o).1
  have h51 : tcpSegment m s o 51 = 0 :=
    (tcpSegment_below m s o (by omega)).trans (putTcpFields_empty m s o).2
  have hfields : TcpHeader (tcpSegment m s o) s o :=
    (putTcpFields_header m s o).congr fun x _ hx => tcpSegment_below m s o (by omega)
  have hdata := fun i => tcpSegment_data m s o (i := i)
  generalize tcpSegment m s o = g at *
  have hc : Complements (~~~ BitVec.ofNat 16 (l4Sum srcIp s.peerIp 6 g 34 (n + n % 2) n))
      (pseudoSum srcIp s.peerIp 6 n + sumWords g 34 (n + n % 2)) := complements_l4Sum (by omega)
  rw [hsum] at hc
  generalize ~~~ BitVec.ofNat 16 (l4Sum srcIp s.peerIp 6 g 34 (n + n % 2) n) = c at *
  have hput : ∀ x, x < 50 ∨ 52 ≤ x → put16 g 50 c x = g x := fun x hx => put16_of_disjoint c (by omega)
  have hck : ∀ x, 34 ≤ x → putIpCksum (put16 g 50 c) x = put16 g 50 c x := fun x hx =>
    putIpCksum_changes _ x (by omega)
  have hip : Sealed (putIpCksum (put16 g 50 c)) n 6 srcIp s.peerIp := by
    refine IpHeader.putIpCksum (hhead.congr fun x _ hx _ _ => ?_) ?_ ?_
    · rw [hput x (by omega), hlow x hx]
    · rw [hput 24 (by omega), hlow 24 (by omega), hempty.1]
    · rw [hput 25 (by omega), hlow 25 (by omega), hempty.2]
  have hall : sumWords (putIpCksum (put16 g 50 c)) 34 n = sumWords g 34 n + c.toNat :=
    (sumWords_congr fun i _ => hck (34 + i) (by omega)).trans
      (sumWords_put16 g 34 8 n c (by omega) h50 h51)
  rw [Complements, Nat.add_assoc, ← hall] at hc
  subst hn
  refine ⟨hip, hc, hfields.congr fun x h1 h2 => ?_, fun i hi => ?_⟩
  · rw [hck x h1, hput x (by omega)]
  · rw [hck _ (by omega), hput _ (by omega), hdata i hi]

def TcpAgrees (fr : List U8) (srcIp : U32) (s : Sock) (o : Out) : Prop :=
  ∀ f len, Arrives fr f len → Accepted f len s.peerIp (tcpHdrMin + o.data.length) ∧
    tcpParse (shift f ethHdrLen) ipHdrMin =
      some ⟨o.flags, o.seq, o.ack, s.localPort, s.peerPort, srcIp, o.data⟩

theorem bytesAt_eq_of_getD {m : Mem} {a : Nat} {l : List U8} (h : ∀ i < l.length, m (a + i) = l.getD i 0) :
    bytesAt m a l.length = l := by
  apply List.ext_getElem (length_bytesAt _ _ _)
  intro i _ hi
  rw [getElem_bytesAt, h i hi]
  exact List.getD_eq_getElem _ _ _

theorem TcpSealed.parse {f : Mem} {srcIp : U32} {s : Sock} {o : Out} (h : TcpSealed f srcIp s o)
    (hn : ipHdrMin + (tcpHdrMin + o.data.length) ≤ 1500) :
    tcpParse (shift f ethHdrLen) ipHdrMin =
      some ⟨o.flags, o.seq, o.ack, s.localPort, s.peerPort, srcIp, o.data⟩ := by
  have htot := h.ip.total hn
  have hoff : shift f ethHdrLen (ipHdrMin + 12) = 80 := h.header.offset
  have hdoff : (shift f ethHdrLen (ipHdrMin + 12) >>> (4 : Nat)).toNat * 4 = tcpHdrMin := by
    rw [hoff]
    rfl
  have hdata : bytesAt (shift f ethHdrLen) (ipHdrMin + tcpHdrMin) o.data.length = o.data :=
    bytesAt_eq_of_getD fun i hi => by
      have hi' := h.data i hi
      rw [shift, ethHdrLen, ipHdrMin, tcpHdrMin, ← Nat.add_assoc]
      exact hi'
  have hflags : shift f ethHdrLen (ipHdrMin + 13) = o.flags := h.header.flags
  have hseq : be32 (shift f ethHdrLen) (ipHdrMin + 4) = o.seq := h.header.seq
  have hack : be32 (shift f ethHdrLen) (ipHdrMin + 8) = o.ack := h.header.ack
  have hsport : be16 (shift f ethHdrLen) ipHdrMin = s.localPort := h.header.sport
  have hdport : be16 (shift f ethHdrLen) (ipHdrMin + 2) = s.peerPort := h.header.dport
  have hsrc : be32 (shift f ethHdrLen) 12 = srcIp := h.ip.header.src
  have hrest : ipHdrMin + (tcpHdrMin + o.data.length) - ipHdrMin - tcpHdrMin = o.data.length := by omega
  rw [tcpParse, hdoff, htot, if_neg (by omega), hrest, hdata, hflags, hseq, hack, hsport, hdport, hsrc]

theorem TcpSealed.agrees {m : Mem} {srcIp : U32} {s : Sock} {o : Out} (h : TcpSealed m srcIp s o)
    (hn : ipHdrMin + (tcpHdrMin + o.data.length) ≤ 1500) :
    TcpAgrees (bytesAt m 0 (34 + (tcpHdrMin + o.data.length))) srcIp s o := by
  intro f len harr
  obtain ⟨hlen, he⟩ := harr.agrees
  have hf : TcpSealed f srcIp s o :=
    { ip := h.ip.congr fun x hx => he x (by omega)
      sum := by
        have hsum : sumWords f 34 (tcpHdrMin + o.data.length) = sumWords m 34 (tcpHdrMin + o.data.length) :=
          sumWords_congr fun i hi => he (34 + i) (by omega)
        rw [hsum]
        exact h.sum
      header := h.header.congr fun x _ hx => he x (by rw [tcpHdrMin]; omega)
      data := fun i hi => (he (54 + i) (by rw [tcpHdrMin]; omega)).trans (h.data i hi) }
  refine ⟨hf.ip.accepted hn hlen ?_, hf.parse hn⟩
  rw [l4CsumOk_tcp hf.ip (Nat.le_add_right _ _), decide_eq_true_eq,
    l4Sum_full_iff (by decide) (by omega), sumWords_shift]
  exact hf.sum

theorem getLast_taken {c : Card} {m : Mem} {len : Nat} (h : (c.send m len).1 = true) :
    (c.send m len).2.sent.getLast? = some (bytesAt m 0 len) := by
  rw [(send_taken h).1, List.getLast?_append, List.getLast?_singleton, Option.some_or]

theorem tcpTransmit_taken {l : Link} {s : Sock} {o : Out} (h : (tcpTransmit l s o).1 = true) :
    ∃ mac : Mac, ipHdrMin + (tcpHdrMin + o.data.length) ≤ 1500 ∧
      (tcpTransmit l s o).2.card.sent.getLast? = some (bytesAt
        (tcpFrame l.build mac.toList l.card.mac.toList l.card.ip (l.ipId + 1) s o) 0
        (34 + (tcpHdrMin + o.data.length))) := by
  have hk : ethHdrLen + (ipHdrMin + tcpHdrMin + o.data.length) = 34 + (tcpHdrMin + o.data.length) := by
    rw [ethHdrLen, ipHdrMin]
    omega
  rw [tcpTransmit] at h ⊢
  cases hm : arpLookup l.arp s.peerIp with
  | none =>
    rw [hm] at h
    cases h
  | some mac =>
    rw [hm] at h
    have hlen := (send_taken h).2
    have hlast := getLast_taken h
    rw [ethFrameMax, hk] at hlen
    refine ⟨mac, by rw [ipHdrMin]; omega, hlast.trans ?_⟩
    rw [hk]

theorem tcpSendSegEx_agrees (t : Stack) (i : Slot) (o : Out) (h : (tcpSendSegEx hostEnv t i o).1 = true) :
    ∃ fr, lastSent (tcpSendSegEx hostEnv t i o).2 = some fr ∧
      TcpAgrees fr t.env.link.card.ip (t.socks i) o := by
  rw [tcpSendSegEx] at h ⊢
  split at h
  · cases h
  · rename_i hmax
    rw [if_neg hmax]
    obtain ⟨mac, hlen, hlast⟩ := tcpTransmit_taken h
    rw [ipHdrMin] at hlen
    exact ⟨_, hlast, (tcpFrame_sealed _ _ _ _ _ Vector.length_toList
      Vector.length_toList (by omega)).agrees hlen⟩

/-! ### UDP -/

structure UdpHolds (m : Mem) (a : Nat) (src dst : U32) (sport dport : U16) (data : List U8) : Prop where
  sport : be16 m a = sport
  dport : be16 m (a + 2) = dport
  length : be16 m (a + 4) = BitVec.ofNat 16 (udpHdrLen + data.length)
  cksum : be16 m (a + 6) ≠ 0
  bytes : ∀ i < data.length, m (a + 8 + i) = data.getD i 0
  sum : 65535 ∣ pseudoSum src dst 17 (udpHdrLen + data.length) +
    sumWords m a (udpHdrLen + data.length)

theorem udpDatagram_holds (build : Mem) (src dst : U32) (dport sport : U16) (data : List U8)
    (hmax : udpHdrLen + data.length ≤ 65536) :
    UdpHolds (udpDatagram build src dst dport sport data) 0 src dst sport dport data := by
  have h8 : 8 ≤ udpHdrLen + data.length := Nat.le_add_right _ _
  rw [udpDatagram]
  generalize hp : put16 (put16 (put16 build 0 sport) 2 dport) 4 (BitVec.ofNat 16 (udpHdrLen + data.length)) = p
  have hq : ∀ x < 8, writeBytes (put16 p 6 0) 8 data x = put16 p 6 0 x := fun x hx => writeBytes_below hx
  have h6 : writeBytes (put16 p 6 0) 8 data 6 = 0 := hq 6 (by omega)
  have h7 : writeBytes (put16 p 6 0) 8 data 7 = 0 := hq 7 (by omega)
  have hdata : ∀ i < data.length, writeBytes (put16 p 6 0) 8 data (8 + i) = data.getD i 0 :=
    fun i hi => writeBytes_at hi
  have hlow : ∀ x < 6, writeBytes (put16 p 6 0) 8 data x = p x := fun x hx =>
    (hq x (by omega)).trans (put16_of_disjoint _ (by omega))
  generalize writeBytes (put16 p 6 0) 8 data = q at *
  have hc : Complements (l4Checksum src dst 17 q 0 (udpHdrLen + data.length))
      (pseudoSum src dst 17 (udpHdrLen + data.length) + sumWords q 0 (udpHdrLen + data.length)) ∧
      l4Checksum src dst 17 q 0 (udpHdrLen + data.length) ≠ 0 := l4Checksum_complements hmax
  rw [udpChecksum]
  generalize l4Checksum src dst 17 q 0 (udpHdrLen + data.length) = c at *
  have hput : ∀ x, x < 6 ∨ 8 ≤ x → put16 q 6 c x = q x := fun x hx => put16_of_disjoint c (by omega)
  have hfield : ∀ x < 5, be16 (put16 q 6 c) x = be16 p x := fun x hx =>
    be16_congr ((hput x (by omega)).trans (hlow x (by omega)))
      ((hput (x + 1) (by omega)).trans (hlow (x + 1) (by omega)))
  refine ⟨?_, ?_, ?_, ?_, ?_, ?_⟩
  · rw [hfield 0 (by omega), ← hp]
    simp (disch := simp) only [be16_put16_of_disjoint, be16_put16_self]
  · rw [Nat.zero_add, hfield 2 (by omega), ← hp]
    simp (disch := simp) only [be16_put16_of_disjoint, be16_put16_self]
  · rw [Nat.zero_add, hfield 4 (by omega), ← hp, be16_put16_self]
  · rw [Nat.zero_add, be16_put16_self]
    exact hc.2
  · intro i hi
    rw [Nat.zero_add, hput _ (by omega), hdata i hi]
  · have hsum : sumWords (put16 q 6 c) 0 (udpHdrLen + data.length) =
        sumWords q 0 (udpHdrLen + data.length) + c.toNat :=
      sumWords_put16 q 0 3 _ c (by omega) h6 h7
    rw [hsum, ← Nat.add_assoc]
    exact hc.1

theorem UdpHolds.move {m f : Mem} {a b : Nat} {src dst : U32} {sport dport : U16} {data : List U8}
    (h : UdpHolds m a src dst sport dport data)
    (he : ∀ i < udpHdrLen + data.length, f (b + i) = m (a + i)) : UdpHolds f b src dst sport dport data := by
  have h8 : 8 ≤ udpHdrLen + data.length := Nat.le_add_right _ _
  have hfield : ∀ k, k + 2 ≤ 8 → be16 f (b + k) = be16 m (a + k) := fun k hk =>
    be16_congr (he k (by omega)) (he (k + 1) (by omega))
  refine ⟨(hfield 0 (by omega)).trans h.sport, (hfield 2 (by omega)).trans h.dport,
    (hfield 4 (by omega)).trans h.length, ?_, ?_, ?_⟩
  · rw [hfield 6 (by omega)]
    exact h.cksum
  · intro i hi
    have hi' := he (8 + i) (by rw [udpHdrLen]; omega)
    rw [← Nat.add_assoc, ← Nat.add_assoc] at hi'
    rw [hi', h.bytes i hi]
  · rw [sumWords_congr he]
    exact h.sum

theorem dvd_pseudo_iff {src src' dst : U32} {proto : U8} {k s : Nat}
    (h : 65535 ∣ pseudoSum src dst proto k + s) :
    65535 ∣ pseudoSum src' dst proto k + s ↔ halves src' % 65535 = halves src % 65535 := by
  rw [pseudoSum] at h ⊢
  omega

def UdpAgrees (fr : List U8) (dst : U32) (sport dport : U16) (data datagram : List U8) : Prop :=
  ∀ f len, Arrives fr f len → Accepted f len dst (udpHdrLen + data.length) ∧
    bytesAt (shift f ethHdrLen) ipHdrMin (udpHdrLen + data.length) = datagram ∧
    ∃ src, udpParse (shift f ethHdrLen) ipHdrMin = some ⟨src, sport, dport, data⟩

theorem UdpHolds.parse {f : Mem} {src src' dst : U32} {sport dport : U16} {data : List U8}
    (h : UdpHolds f 34 src' dst sport dport data)
    (hs : Sealed f (udpHdrLen + data.length) 17 src dst)
    (hn : ipHdrMin + (udpHdrLen + data.length) ≤ 1500) :
    udpParse (shift f ethHdrLen) ipHdrMin = some ⟨src, sport, dport, data⟩ := by
  have htot := hs.total hn
  have hlen : be16 (shift f ethHdrLen) (ipHdrMin + 4) = BitVec.ofNat 16 (udpHdrLen + data.length) := h.length
  have hulen : (be16 (shift f ethHdrLen) (ipHdrMin + 4)).toNat = udpHdrLen + data.length := by
    rw [hlen, BitVec.toNat_ofNat, Nat.mod_eq_of_lt (by omega)]
  have hdata : bytesAt (shift f ethHdrLen) (ipHdrMin + udpHdrLen) data.length = data :=
    bytesAt_eq_of_getD fun i hi => by
      have hi' := h.bytes i hi
      rw [shift, ethHdrLen, ipHdrMin, udpHdrLen, ← Nat.add_assoc]
      exact hi'
  have hsport : be16 (shift f ethHdrLen) ipHdrMin = sport := h.sport
  have hdport : be16 (shift f ethHdrLen) (ipHdrMin + 2) = dport := h.dport
  have hsrc : be32 (shift f ethHdrLen) 12 = src := hs.header.src
  rw [udpParse, htot, hulen, if_neg (by omega), Nat.add_sub_cancel_left, hdata, hsport, hdport, hsrc]

theorem l4CsumOk_holds_iff {f : Mem} {src src' dst : U32} {sport dport : U16} {data : List U8}
    (h : UdpHolds f 34 src' dst sport dport data) (hs : Sealed f (udpHdrLen + data.length) 17 src dst)
    (hn : ipHdrMin + (udpHdrLen + data.length) ≤ 1500) :
    l4CsumOk (shift f ethHdrLen) ipHdrMin (ipHdrMin + (udpHdrLen + data.length)) = true ↔
      halves src % 65535 = halves src' % 65535 := by
  rw [l4CsumOk_udp hs (Nat.le_add_right _ _) h.cksum, decide_eq_true_eq,
    l4Sum_full_iff (by decide) (by omega), sumWords_shift]
  exact dvd_pseudo_iff h.sum

def addressAfter (es : List Event) (t : Stack) (hop : U32) (payload : List U8) : U32 :=
  (arpResolve (waiting es) (stagePayload t payload) hop 3000).2.env.link.card.ip

/-- While the datagram waits, nothing is put over it and the own address, which its checksum covers,
keeps its sum. -/
structure Undisturbed (es : List Event) (t : Stack) (dst : U32) (dport sport : U16) (data : List U8) :
    Prop where
  staged : (packetsDuring es (udpBuild t dst dport sport data).1 dst (udpBuild t dst dport sport data).2).foldl
    cover (udpBuild t dst dport sport data).2 = (udpBuild t dst dport sport data).2
  address : halves (addressAfter es (udpBuild t dst dport sport data).1 dst
    (udpBuild t dst dport sport data).2) % 65535 = halves t.env.link.card.ip % 65535

theorem ipFrame_agrees_iff (l : Link) (mac : Mac) {p : Mem} {src dst : U32} {sport dport : U16}
    {data : List U8} (hp : UdpHolds p 0 src dst sport dport data)
    (hn : ipHdrMin + (udpHdrLen + data.length) ≤ 1500) :
    UdpAgrees (bytesAt (ipFrame l mac dst 17 (udpHdrLen + data.length)) 0 (34 + (udpHdrLen + data.length)))
        dst sport dport data (bytesAt p 0 (udpHdrLen + data.length)) ↔
      bytesAt l.frame 34 (udpHdrLen + data.length) = bytesAt p 0 (udpHdrLen + data.length) ∧
        halves l.card.ip % 65535 = halves src % 65535 := by
  have hseal := ipFrame_sealed l mac dst 17 (udpHdrLen + data.length)
  have hkeep : bytesAt (ipFrame l mac dst 17 (udpHdrLen + data.length)) 34 (udpHdrLen + data.length) =
      bytesAt l.frame 34 (udpHdrLen + data.length) :=
    bytesAt_congr fun i _ => ipFrame_changes l mac dst 17 _ (34 + i) (by omega)
  rw [← hkeep]
  generalize ipFrame l mac dst 17 (udpHdrLen + data.length) = m at *
  have hshift : ∀ f : Mem, bytesAt (shift f ethHdrLen) ipHdrMin (udpHdrLen + data.length) =
      bytesAt f 34 (udpHdrLen + data.length) := fun f =>
    bytesAt_congr fun i _ => by rw [shift, ethHdrLen, ipHdrMin, ← Nat.add_assoc]
  have holds : ∀ f : Mem, bytesAt f 34 (udpHdrLen + data.length) = bytesAt p 0 (udpHdrLen + data.length) →
      UdpHolds f 34 src dst sport dport data := fun f hf => hp.move (bytesAt_inj hf)
  constructor
  · intro hall
    obtain ⟨hacc, hseg, -⟩ := hall m (34 + (udpHdrLen + data.length))
      ⟨by rw [length_bytesAt], by rw [length_bytesAt]⟩
    rw [hshift] at hseg
    exact ⟨hseg, (l4CsumOk_holds_iff (holds m hseg) hseal hn).mp hacc.l4⟩
  · rintro ⟨hseg, haddr⟩ f len harr
    obtain ⟨hlen, he⟩ := harr.agrees
    have hf : bytesAt f 34 (udpHdrLen + data.length) = bytesAt p 0 (udpHdrLen + data.length) :=
      (bytesAt_congr fun i hi => he (34 + i) (by omega)).trans hseg
    have hs := hseal.congr fun x hx => he x (by omega)
    have h4 := (l4CsumOk_holds_iff (holds f hf) hs hn).mpr haddr
    exact ⟨hs.accepted hn hlen h4, (hshift f).trans hf, _, (holds f hf).parse hs hn⟩

theorem netUdpSend_agrees_iff (t : Stack) (dst : U32) (dport sport : U16) (data : List U8)
    (es : List Event) (h : (netUdpSend (waiting es) t dst dport sport data).1 ≠ none) :
    ∃ fr, lastSent (netUdpSend (waiting es) t dst dport sport data).2 = some fr ∧
      (UdpAgrees fr dst sport dport data (udpBuild t dst dport sport data).2 ↔
        Undisturbed es t dst dport sport data) := by
  rw [netUdpSend] at h ⊢
  split at h
  · exact absurd rfl h
  · rename_i hmax
    rw [if_neg hmax]
    simp only at h ⊢
    split at h
    · rename_i hok
      rw [if_pos hok]
      obtain ⟨mac, -, hlen, hlast⟩ := ipv4SendVia_taken hok
      refine ⟨_, hlast, ?_⟩
      have hpay := arpResolve_payload es (udpBuild t dst dport sport data).1 dst
        (udpBuild t dst dport sport data).2
      have hk : (udpBuild t dst dport sport data).2.length = udpHdrLen + data.length :=
        length_bytesAt _ _ _
      rw [hk] at hlen hpay ⊢
      have hn : ipHdrMin + (udpHdrLen + data.length) ≤ 1500 := by
        rw [ethFrameMax] at hlen
        rw [ipHdrMin]
        omega
      have hholds := udpDatagram_holds t.env.link.build t.env.link.card.ip dst dport sport data (by omega)
      refine (ipFrame_agrees_iff _ mac hholds hn).trans ?_
      rw [hpay]
      exact ⟨fun hu => ⟨hu.1, hu.2⟩, fun hu => ⟨hu.staged, hu.address⟩⟩
    · exact absurd rfl h

def knownStack : Stack :=
  { bootStack with
    socks := fun _ => { bootSock with peerIp := 0x0A000202, localPort := 80, peerPort := 40000 }
    env := bootHost.learn 0x0A000202 (Vector.replicate 6 4) }

end Ezos.Net
