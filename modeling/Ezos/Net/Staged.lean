import Ezos.Net.Stack

/-!
# What an IPv4 frame of this host says

`IpHeader` is read off a frame; the two builders (`ipFrame` around what is staged in `g_frame`,
`tcpFrame` in `g_build`) both establish it, and its checksum is right.
-/

namespace Ezos.Net

open Lib.Memory Lib.NetOrder Lib.OnesComplement Tcp

set_option autoImplicit false

variable {m m' : Mem} {n : Nat} {proto : U8} {src dst : U32}

structure IpHeader (m : Mem) (n : Nat) (proto : U8) (src dst : U32) : Prop where
  type : be16 m 12 = 0x0800
  version : m 14 = 0x45
  length : be16 m 16 = BitVec.ofNat 16 (ipHdrMin + n)
  fragment : be16 m 20 = 0
  proto : m 23 = proto
  src : be32 m 26 = src
  dst : be32 m 30 = dst

theorem IpHeader.congr (h : IpHeader m n proto src dst)
    (he : ∀ x, 12 ≤ x → x < 34 → x ≠ 24 → x ≠ 25 → m' x = m x) : IpHeader m' n proto src dst where
  type := (be16_congr (he 12 (by omega) (by omega) (by omega) (by omega))
    (he 13 (by omega) (by omega) (by omega) (by omega))).trans h.type
  version := (he 14 (by omega) (by omega) (by omega) (by omega)).trans h.version
  length := (be16_congr (he 16 (by omega) (by omega) (by omega) (by omega))
    (he 17 (by omega) (by omega) (by omega) (by omega))).trans h.length
  fragment := (be16_congr (he 20 (by omega) (by omega) (by omega) (by omega))
    (he 21 (by omega) (by omega) (by omega) (by omega))).trans h.fragment
  proto := (he 23 (by omega) (by omega) (by omega) (by omega)).trans h.proto
  src := (be32_congr fun i hi => he (26 + i) (by omega) (by omega) (by omega) (by omega)).trans h.src
  dst := (be32_congr fun i hi => he (30 + i) (by omega) (by omega) (by omega) (by omega)).trans h.dst

theorem be16_put32_of_disjoint {a b : Nat} (v : U32) (h : a + 4 ≤ b ∨ b + 2 ≤ a) :
    be16 (put32 m a v) b = be16 m b := be16_writeBytes_of_disjoint h

theorem be32_put32_of_disjoint {a b : Nat} (v : U32) (h : a + 4 ≤ b ∨ b + 4 ≤ a) :
    be32 (put32 m a v) b = be32 m b := be32_writeBytes_of_disjoint h

theorem be32_put16_of_disjoint {a b : Nat} (v : U16) (h : a + 2 ≤ b ∨ b + 4 ≤ a) :
    be32 (put16 m a v) b = be32 m b := be32_writeBytes_of_disjoint h

theorem put16_of_disjoint {a x : Nat} (v : U16) (h : a + 2 ≤ x ∨ x < a) : put16 m a v x = m x := by
  rcases h with h | h
  · exact writeBytes_above h
  · exact writeBytes_below h

theorem put32_of_disjoint {a x : Nat} (v : U32) (h : a + 4 ≤ x ∨ x < a) : put32 m a v x = m x := by
  rcases h with h | h
  · exact writeBytes_above h
  · exact writeBytes_below h

theorem writeBytes_of_disjoint {a x : Nat} {l : List U8} (h : a + l.length ≤ x ∨ x < a) :
    writeBytes m a l x = m x := by
  rcases h with h | h
  · exact writeBytes_above h
  · exact writeBytes_below h

theorem be16_putEth {d s : List U8} (hd : d.length = 6) (hs : s.length = 6) :
    be16 (putEth m d s) 12 = 0x0800 := by
  have hb : bytesAt (putEth m d s) 12 2 = [0x08, 0x00] := by
    have hall := bytesAt_writeBytes m 0 (d ++ s ++ [0x08, 0x00])
    have hlen : (d ++ s ++ [0x08, 0x00] : List U8).length = 12 + 2 := by simp [hd, hs]
    have h12 : (bytesAt (putEth m d s) 0 12).length = (d ++ s).length := by simp [hd, hs]
    rw [hlen, bytesAt_add] at hall
    exact (List.append_inj hall h12).2
  have h0 : putEth m d s 12 = 0x08 := by injection hb
  have h1 : putEth m d s 13 = 0x00 := by
    injection hb with _ hb
    injection hb
  rw [be16, h0, h1]
  rfl

theorem putIpFields_header {d s : List U8} (hd : d.length = 6) (hs : s.length = 6) (m : Mem) (n : Nat)
    (id : U16) (proto : U8) (src dst : U32) :
    IpHeader (putIpFields (putEth m d s) n id proto src dst) n proto src dst where
  type := by
    rw [putIpFields]
    simp (disch := simp) only [be16_put32_of_disjoint, be16_put16_of_disjoint,
      be16_writeBytes_of_disjoint, be16_putEth hd hs]
  version := by
    rw [putIpFields]
    simp (disch := simp) only [put32_of_disjoint, put16_of_disjoint, writeBytes_of_disjoint]
    rfl
  length := by
    rw [putIpFields]
    simp (disch := simp) only [be16_put32_of_disjoint, be16_put16_of_disjoint,
      be16_writeBytes_of_disjoint, be16_put16_self]
  fragment := by
    rw [putIpFields]
    simp (disch := simp) only [be16_put32_of_disjoint, be16_put16_of_disjoint,
      be16_writeBytes_of_disjoint, be16_put16_self]
  proto := by
    rw [putIpFields]
    simp (disch := simp) only [put32_of_disjoint, put16_of_disjoint]
    rfl
  src := by
    rw [putIpFields]
    simp (disch := simp) only [be32_put32_of_disjoint, be32_put32_self]
  dst := be32_put32_self _ _ _

theorem changesOnly_writeBytes {m : Mem} {a b : Nat} {l : List U8} (h : a + l.length ≤ b) :
    ChangesOnly (· < b) m (writeBytes m a l) :=
  (changesOnly_copyIn m a l.length _).mono fun _ hx => Nat.lt_of_lt_of_le hx.2 h

theorem changesOnly_put16 {m : Mem} {a b : Nat} (v : U16) (h : a + 2 ≤ b) :
    ChangesOnly (· < b) m (put16 m a v) := changesOnly_writeBytes h

theorem changesOnly_put32 {m : Mem} {a b : Nat} (v : U32) (h : a + 4 ≤ b) :
    ChangesOnly (· < b) m (put32 m a v) := changesOnly_writeBytes h

theorem putIpFields_changes (m : Mem) (n : Nat) (id : U16) (proto : U8) (src dst : U32) :
    ChangesOnly (· < 34) m (putIpFields m n id proto src dst) := by
  refine .trans ?_ (changesOnly_put32 _ (by omega))
  refine .trans ?_ (changesOnly_put32 _ (by omega))
  refine .trans ?_ (changesOnly_put16 _ (by omega))
  refine .trans ?_ (changesOnly_writeBytes (by simp))
  refine .trans ?_ (changesOnly_put16 _ (by omega))
  refine .trans ?_ (changesOnly_put16 _ (by omega))
  refine .trans ?_ (changesOnly_put16 _ (by omega))
  exact changesOnly_writeBytes (by simp)

theorem putIpCksum_changes (m : Mem) : ChangesOnly (· < 34) m (putIpCksum m) :=
  changesOnly_put16 _ (by omega)

theorem putEth_changes (m : Mem) {dst src : List U8} (hd : dst.length = 6) (hs : src.length = 6) :
    ChangesOnly (· < 34) m (putEth m dst src) :=
  changesOnly_writeBytes (by simp [hd, hs])

theorem ipFrame_changes (l : Link) (mac : Mac) (dst : U32) (proto : U8) (n : Nat) :
    ChangesOnly (· < 34) l.frame (ipFrame l mac dst proto n) :=
  ((putEth_changes _ (by simp) (by simp)).trans (putIpFields_changes _ _ _ _ _ _)).trans
    (putIpCksum_changes _)

theorem putIpFields_empty (m : Mem) (n : Nat) (id : U16) (proto : U8) (src dst : U32) :
    putIpFields m n id proto src dst 24 = 0 ∧ putIpFields m n id proto src dst 25 = 0 := by
  constructor
  · rw [putIpFields]
    simp (disch := simp) only [put32_of_disjoint]
    rfl
  · rw [putIpFields]
    simp (disch := simp) only [put32_of_disjoint]
    rfl

structure Sealed (m : Mem) (n : Nat) (proto : U8) (src dst : U32) : Prop where
  header : IpHeader m n proto src dst
  cksum : cksum m 14 ipHdrMin = 0

theorem IpHeader.putIpCksum (h : IpHeader m n proto src dst) (h24 : m 24 = 0) (h25 : m 25 = 0) :
    Sealed (putIpCksum m) n proto src dst where
  header := h.congr fun _ _ _ _ _ => put16_of_disjoint _ (by omega)
  cksum := by
    have hpos : 0 < sumWords m 14 ipHdrMin := by
      have h14 : (m 14).toNat = 69 := congrArg BitVec.toNat h.version
      rw [ipHdrMin, sumWords, h14]
      omega
    exact cksum_put16_self m 14 5 ipHdrMin (by decide) (by decide) h24 h25 hpos

theorem ipFrame_sealed (l : Link) (mac : Mac) (dst : U32) (proto : U8) (n : Nat) :
    Sealed (ipFrame l mac dst proto n) n proto l.card.ip dst :=
  (putIpFields_header (by simp) (by simp) _ _ _ _ _ _).putIpCksum (putIpFields_empty _ _ _ _ _ _).1
    (putIpFields_empty _ _ _ _ _ _).2

end Ezos.Net

/-!
# What happens to `g_frame` while a send waits

Of everything that can run during a wait, only an echo reply and a DHCP message are put together in
`g_frame`. What a wait does to a payload staged there is therefore what these packets do to it.
-/

namespace Ezos.Net

open Lib.Memory Lib.NetOrder Lib.OnesComplement Lib.Serial Tcp

section Env

variable {σ : Type} {E : Env σ} {P : σ → Prop} {t : Table σ}

structure Keeps (E : Env σ) (P : σ → Prop) : Prop where
  send : ∀ e s o, P e → P (E.send e s o).2
  kmalloc : ∀ e n, P e → P (E.kmalloc e n).2

theorem Keeps.sendAny (k : Keeps E P) (h : P t.env) (i : Slot) (o : Option Out) :
    P (sendAny E t i o).env := by
  cases o with
  | none => exact h
  | some o =>
    rw [Tcp.sendAny, tcpSendSegEx]
    split
    · exact h
    · exact k.send _ _ _ h

theorem Keeps.allocIfNull (k : Keeps E P) {e : σ} (h : P e) (p : Ptr) (n : Nat) :
    P (allocIfNull E e p n).2 := by
  rw [Tcp.allocIfNull]
  split
  · exact k.kmalloc _ _ h
  · exact h

theorem Keeps.tcpBufs (k : Keeps E P) (h : P t.env) (i : Slot) : P (tcpBufs E t i).2.env := by
  have hrtx := k.allocIfNull h (t.socks i).rtx tcpRtxBuf
  rw [Tcp.tcpBufs]
  split
  · exact hrtx
  · simp only
    split
    · exact k.allocIfNull hrtx _ _
    · exact k.allocIfNull hrtx _ _

theorem Keeps.passiveOpen (k : Keeps E P) (h : P t.env) (l i : Slot) (g : Segment) :
    P (passiveOpen E t l i g).env := by
  have hbufs := k.tcpBufs (t := t.set i ((t.socks i).accepting g l (t.socks l).ownerPid)) h i
  rw [Tcp.passiveOpen]
  simp only
  split
  · exact k.sendAny (by exact hbufs) _ _
  · exact hbufs

theorem Keeps.tcpInput (k : Keeps E P) (h : P t.env) (g : Segment) : P (tcpInput E t g).env := by
  rw [Tcp.tcpInput]
  split
  · exact k.sendAny (by exact h) _ _
  · split
    · exact h
    · split
      · exact h
      · split
        · exact h
        · exact k.passiveOpen h _ _ _

theorem Keeps.retransmitSlot (k : Keeps E P) (h : P t.env) (now : U32) (i : Slot) :
    P (retransmitSlot E t now i).env := by
  rw [Tcp.retransmitSlot]
  simp only
  split
  · exact k.sendAny (by exact h) _ _
  · exact h

theorem Keeps.netTick (k : Keeps E P) (h : P t.env) : P (netTick E t).env := by
  rw [Tcp.netTick]
  split
  · exact h
  · refine List.foldlRecOn (motive := fun u : Table σ => P u.env) _ _ ?_ fun u hu i _ => ?_
    · exact h
    · exact k.retransmitSlot hu _ _

end Env

def cover (d p : List U8) : List U8 := p.take d.length ++ d.drop p.length

def stage (m : Mem) (p : List U8) : Mem := writeBytes m 34 p

theorem bytesAt_stage (m : Mem) (p : List U8) (n : Nat) :
    bytesAt (stage m p) 34 n = cover (bytesAt m 34 n) p := by
  apply List.ext_getElem
  · simp [cover]
    omega
  · intro i h1 h2
    rw [length_bytesAt] at h1
    rw [getElem_bytesAt, stage]
    by_cases hi : i < p.length
    · rw [writeBytes_at hi, List.getD_eq_getElem _ _ hi]
      simp only [cover, length_bytesAt]
      rw [List.getElem_append_left (by simp; omega), List.getElem_take]
    · rw [writeBytes_above (by omega)]
      simp only [cover, length_bytesAt]
      rw [List.getElem_append_right (by simp; omega), List.getElem_drop, getElem_bytesAt]
      congr 2
      simp
      omega

def StagedOver (ps : List (List U8)) (m m' : Mem) : Prop := ∀ x, 34 ≤ x → m' x = ps.foldl stage m x

theorem foldl_stage_congr {m m' : Mem} (ps : List (List U8)) (h : ∀ x, 34 ≤ x → m' x = m x) :
    ∀ x, 34 ≤ x → ps.foldl stage m' x = ps.foldl stage m x := by
  induction ps generalizing m m' with
  | nil => exact h
  | cons p ps ih =>
    apply ih
    intro x hx
    rw [stage, stage, writeBytes, writeBytes, copyIn, copyIn, h x hx]

theorem StagedOver.of_eq {m m' : Mem} (h : m' = m) : StagedOver [] m m' := fun x _ => congrFun h x

theorem StagedOver.trans {ps qs : List (List U8)} {m m' m'' : Mem} (h : StagedOver ps m m')
    (h' : StagedOver qs m' m'') : StagedOver (ps ++ qs) m m'' := by
  intro x hx
  rw [List.foldl_append, h' x hx]
  exact foldl_stage_congr qs h x hx

theorem StagedOver.bytesAt {ps : List (List U8)} {m m' : Mem} (h : StagedOver ps m m') (n : Nat) :
    bytesAt m' 34 n = ps.foldl cover (bytesAt m 34 n) := by
  have hm : Lib.NetOrder.bytesAt m' 34 n = Lib.NetOrder.bytesAt (ps.foldl stage m) 34 n :=
    bytesAt_congr fun i _ => h _ (Nat.le_add_right _ _)
  rw [hm]
  clear hm h
  induction ps generalizing m with
  | nil => rfl
  | cons p ps ih => rw [List.foldl_cons, List.foldl_cons, ih, bytesAt_stage]

theorem StagedOver.of_above {m m' : Mem} {n : Nat} (h : ∀ x, 34 + n ≤ x → m' x = m x) :
    StagedOver [Lib.NetOrder.bytesAt m' 34 n] m m' := by
  intro x hx
  obtain ⟨i, rfl⟩ := Nat.exists_eq_add_of_le hx
  rw [List.foldl_cons, List.foldl_nil, stage]
  by_cases hi : i < n
  · have hlen : i < (Lib.NetOrder.bytesAt m' 34 n).length := by rwa [length_bytesAt]
    rw [writeBytes_at hlen, List.getD_eq_getElem _ _ hlen, getElem_bytesAt]
  · rw [writeBytes_above (by rw [length_bytesAt]; omega)]
    exact h _ (by omega)

theorem tcpTransmit_frame (l : Link) (s : Sock) (o : Out) : (tcpTransmit l s o).2.frame = l.frame := by
  rw [tcpTransmit]
  split <;> rfl

theorem hostEnv_keeps_frame (m : Mem) : Keeps hostEnv fun h => h.link.frame = m where
  send h s o hm := (tcpTransmit_frame h.link s o).trans hm
  kmalloc _ _ hm := hm

theorem icmpInput_frame (h : Host) (ip : Mem) (ihl : Nat) :
    (icmpInput h ip ihl).1.link.frame = h.link.frame := by
  rw [icmpInput]
  simp only
  split
  · rfl
  · split
    · rfl
    · split <;> rfl

theorem udpDeliver_env (t : Stack) (d : Datagram) : (udpDeliver t d).env = t.env := by
  rw [udpDeliver]
  split
  · rfl
  · simp only
    split <;> rfl

theorem udpInput_env (t : Stack) (ip : Mem) (ihl : Nat) : (udpInput t ip ihl).env = t.env := by
  rw [udpInput]
  split
  · rfl
  · exact udpDeliver_env _ _

theorem arpInput_frame (h : Host) (f : Mem) (len : Nat) :
    (arpInput h f len).2.link.frame = h.link.frame := by
  rw [arpInput]
  simp only
  split
  · rfl
  · split <;> rfl

theorem ipDispatch_frame (t : Stack) (ip : Mem) (ihl : Nat) :
    (ipDispatch t ip ihl).stack.env.link.frame = t.env.link.frame := by
  rw [ipDispatch]
  split
  · exact icmpInput_frame _ _ _
  · split
    · split
      · rfl
      · exact congrArg (fun h : Host => h.link.frame) (udpInput_env t ip ihl)
    · split
      · split
        · exact (hostEnv_keeps_frame t.env.link.frame).tcpInput rfl _
        · rfl
      · rfl

theorem dropped_frame (h : Host) (d : Drop) : (h.dropped d).link.frame = h.link.frame := by
  cases d <;> rfl

theorem ipInput_frame (t : Stack) (f : Mem) (len : Nat) :
    (ipInput t f len).stack.env.link.frame = t.env.link.frame := by
  rw [ipInput]
  split
  · exact dropped_frame _ _
  · simp only
    split
    · rfl
    · split
      · rfl
      · exact ipDispatch_frame _ _ _

theorem netInput_frame (t : Stack) (f : Mem) (len : Nat) :
    (netInput t f len).stack.env.link.frame = t.env.link.frame := by
  rw [netInput]
  split
  · rfl
  · split
    · exact arpInput_frame _ _ _
    · split
      · rfl
      · exact ipInput_frame _ _ _

theorem dhcpFrame_changes (m p : Mem) {dst src : List U8} (srcIp dstIp : U32) (id : U16)
    (hd : dst.length = 6) (hs : src.length = 6) :
    ChangesOnly (· < 342) m (dhcpFrame m p dst src srcIp dstIp id) := by
  have low : ∀ {m m' : Mem}, ChangesOnly (· < 34) m m' → ChangesOnly (· < 342) m m' := fun h =>
    h.mono fun x hx => Nat.lt_trans hx (by omega)
  refine .trans ?_ (low (putIpCksum_changes _))
  refine .trans ?_ (low (putIpFields_changes _ _ _ _ _ _))
  refine .trans ?_ (changesOnly_put16 _ (by omega))
  refine .trans ?_ ((changesOnly_copyIn _ 42 bootpMin _).mono fun x hx => hx.2)
  refine .trans ?_ (changesOnly_put16 _ (by omega))
  refine .trans ?_ (changesOnly_put16 _ (by omega))
  refine .trans ?_ (changesOnly_put16 _ (by omega))
  refine .trans ?_ (changesOnly_put16 _ (by omega))
  exact low (putEth_changes _ hd hs)

structure DhcpSent (k : Nat) (c c' : Client) : Prop where
  tx : c'.udpTx = c.udpTx + BitVec.ofNat 32 k
  none : k = 0 → c'.link.frame = c.link.frame
  above : ∀ x, 342 ≤ x → c'.link.frame x = c.link.frame x

theorem DhcpSent.quiet {c c' : Client} (ht : c'.udpTx = c.udpTx) (hf : c'.link.frame = c.link.frame) :
    DhcpSent 0 c c' :=
  ⟨ht.trans (BitVec.add_zero _).symm, fun _ => hf, fun x _ => congrFun hf x⟩

theorem DhcpSent.trans {j k : Nat} {c c' c'' : Client} (h : DhcpSent j c c') (h' : DhcpSent k c' c'') :
    DhcpSent (j + k) c c'' where
  tx := by rw [h'.tx, h.tx, BitVec.ofNat_add, BitVec.add_assoc]
  none hjk := (h'.none (by omega)).trans (h.none (by omega))
  above x hx := (h'.above x hx).trans (h.above x hx)

theorem DhcpSent.congr {k : Nat} {c c' d d' : Client} (h : DhcpSent k c c') (ht : d.udpTx = c.udpTx)
    (hf : d.link.frame = c.link.frame) (ht' : d'.udpTx = c'.udpTx) (hf' : d'.link.frame = c'.link.frame) :
    DhcpSent k d d' where
  tx := by rw [ht', h.tx, ht]
  none hk := hf'.trans ((h.none hk).trans hf.symm)
  above x hx := by rw [hf', hf, h.above x hx]

theorem dhcpSend_sent (c : Client) (type : U8) (q s : U32) (bound : Bool) :
    DhcpSent 1 c (dhcpSend c type q s bound).2 where
  tx := rfl
  none h := by omega
  above x hx := by
    refine dhcpFrame_changes _ _ _ _ _ ?_ (by simp) x (by omega)
    generalize (if bound = true ∧ s ≠ 0 then arpLookup c.link.arp s else Option.none) = mac
    cases mac <;> simp

theorem renewRequest_sent (c : Client) : DhcpSent 1 c (renewRequest c).2 := by
  rw [renewRequest]
  split
  · exact dhcpSend_sent _ _ _ _ _
  · exact dhcpSend_sent _ _ _ _ _
  · exact dhcpSend_sent _ _ _ _ _

theorem renewSend_sent (c : Client) (now : U32) : DhcpSent 1 c (renewSend c now).2 :=
  (renewRequest_sent c.newTransaction).congr rfl rfl rfl rfl

theorem renewAdvance_sent (c : Client) (now : U32) :
    ∃ k ≤ 1, DhcpSent k c (renewAdvance c now).2 := by
  rw [renewAdvance]
  split
  · exact ⟨0, by omega, .quiet rfl rfl⟩
  · split
    · exact ⟨0, by omega, .quiet rfl rfl⟩
    · exact ⟨1, by omega, (renewSend_sent (renewMove c now) now).congr rfl rfl rfl rfl⟩

theorem dhcpRenewCheck_sent (c : Client) (now : U32) :
    ∃ k ≤ 2, DhcpSent k c (dhcpRenewCheck c now).2 := by
  have advance : ∀ d : Client, d.udpTx = c.udpTx → d.link.frame = c.link.frame →
      ∃ k ≤ 2, DhcpSent k c (renewAdvance d now).2 := by
    intro d ht hf
    obtain ⟨k, hk, hs⟩ := renewAdvance_sent d now
    exact ⟨0 + k, by omega, (DhcpSent.quiet ht hf).trans hs⟩
  have sends : ∀ (d : Client) (q s : U32), d.udpTx = c.udpTx → d.link.frame = c.link.frame →
      DhcpSent 1 c (dhcpSend d 3 q s false).2 := fun d q s ht hf =>
    (dhcpSend_sent d 3 q s false).congr ht.symm hf.symm rfl rfl
  rw [dhcpRenewCheck]
  split
  · exact ⟨0, by omega, .quiet rfl rfl⟩
  · split
    · simp only
      split
      · refine ⟨0, by omega, ?_⟩
        split
        · exact .quiet rfl rfl
        · exact .quiet rfl rfl
      · split
        · exact advance _ rfl rfl
        · split
          · generalize hr : dhcpSend _ 3 _ _ false = r
            have hsent : DhcpSent 1 c r.2 := by
              rw [← hr]
              exact sends _ _ _ rfl rfl
            split
            · exact ⟨1, by omega, hsent.congr rfl rfl rfl rfl⟩
            · obtain ⟨k, hk, hs⟩ := renewAdvance_sent r.2 now
              exact ⟨1 + k, by omega, hsent.trans hs⟩
          · exact advance _ rfl rfl
    · exact advance _ rfl rfl

/-- The packet, if any, that the DHCP client leaves in `g_frame`. -/
def dhcpPackets (c c' : Client) : List (List U8) :=
  if c'.udpTx = c.udpTx then [] else [bytesAt c'.link.frame 34 (udpHdrLen + bootpMin)]

theorem dhcpRenewCheck_staged (c : Client) (now : U32) :
    StagedOver (dhcpPackets c (dhcpRenewCheck c now).2) c.link.frame
      (dhcpRenewCheck c now).2.link.frame := by
  obtain ⟨k, hk, hs⟩ := dhcpRenewCheck_sent c now
  rw [dhcpPackets]
  split
  · rename_i heq
    have hk0 : BitVec.ofNat 32 k = 0 := by
      have htx := heq.symm.trans hs.tx
      grind
    have hk' : k % 2 ^ 32 = 0 := (BitVec.toNat_ofNat k 32).symm.trans (congrArg BitVec.toNat hk0)
    exact .of_eq (hs.none (by omega))
  · exact .of_above hs.above

def tickPackets (t : Stack) : List (List U8) :=
  if ahead t.ticks t.lastTick < ahead tcpTickMs 0 then []
  else dhcpPackets t.env.client (dhcpRenewCheck t.env.client t.ticks).2

/-- The packets of the wait of `arp_resolve`, `inWait` being those of its loop. -/
def resolvePackets (inWait : U32 → U32 → Stack → List (List U8)) (t : Stack) (ip timeout : U32) :
    List (List U8) :=
  match arpLookup t.env.link.arp ip with
  | some _ => []
  | none => inWait ip (t.ticks + timeout) (askFor t ip)

def sendPackets (inWait : U32 → U32 → Stack → List (List U8)) (t : Stack) (hop : U32)
    (payload : List U8) : List (List U8) :=
  if payload.length = 0 ∨ netBuildMax < ethHdrLen + ipHdrMin + payload.length then []
  else payload :: resolvePackets inWait (stagePayload t payload) hop 3000

def echoPackets (inWait : U32 → U32 → Stack → List (List U8)) (t : Stack) : Option Echo → List (List U8)
  | none => []
  | some e => sendPackets inWait t e.dst e.payload

mutual

/-- The packets that handling an event puts together in `g_frame`, in order. -/
def packetsOf (t : Stack) : Event → List (List U8)
  | .frame f len during =>
    let r := netInput t f len
    echoPackets (fun ip deadline t => packetsWhile ip deadline t during) r.stack r.echo
  | .tick now => tickPackets (setClock t now)
  | .look => []

/-- Those of the loop of `arp_resolve`, up to its return. -/
def packetsWhile (ip deadline : U32) (t : Stack) : List Event → List (List U8)
  | [] => []
  | .look :: es =>
    match arpLookup t.env.link.arp ip with
    | some _ => []
    | none => if 0 ≤ ahead t.ticks deadline then [] else packetsWhile ip deadline t es
  | .frame f len during :: es =>
    packetsOf t (.frame f len during) ++ packetsWhile ip deadline (handle t (.frame f len during)) es
  | .tick now :: es => packetsOf t (.tick now) ++ packetsWhile ip deadline (handle t (.tick now)) es

end

theorem hostTick_staged (t : Stack) :
    StagedOver (tickPackets t) t.env.link.frame (hostTick t).env.link.frame := by
  rw [tickPackets, hostTick]
  split
  · exact .of_eq rfl
  · have hkeep := (hostEnv_keeps_frame (dhcpRenewCheck t.env.client t.ticks).2.link.frame).netTick
      (t := setHost t { t.env with client := (dhcpRenewCheck t.env.client t.ticks).2 }) rfl
    rw [hkeep]
    exact dhcpRenewCheck_staged t.env.client t.ticks

section Wait

variable {wait : Wait} {inWait : U32 → U32 → Stack → List (List U8)}

/-- `inWait` lists what is put over `g_frame` in `wait`. -/
def Lists (inWait : U32 → U32 → Stack → List (List U8)) (wait : Wait) : Prop :=
  ∀ ip deadline t, StagedOver (inWait ip deadline t) t.env.link.frame (wait ip deadline t).2.env.link.frame

theorem arpResolve_staged (hw : Lists inWait wait) (t : Stack) (ip timeout : U32) :
    StagedOver (resolvePackets inWait t ip timeout) t.env.link.frame
      (arpResolve wait t ip timeout).2.env.link.frame := by
  rw [resolvePackets, arpResolve]
  cases arpLookup t.env.link.arp ip with
  | some mac => exact .of_eq rfl
  | none => exact hw ip (t.ticks + timeout) (askFor t ip)

theorem ipv4SendVia_staged (hw : Lists inWait wait) (t : Stack) (dst hop : U32) (proto : U8)
    (payload : List U8) :
    StagedOver (sendPackets inWait t hop payload) t.env.link.frame
      (ipv4SendVia wait t dst hop proto payload).2.env.link.frame := by
  rw [sendPackets, ipv4SendVia]
  split
  · exact .of_eq rfl
  · have hcopy : StagedOver [payload] t.env.link.frame (stagePayload t payload).env.link.frame :=
      fun _ _ => rfl
    have hwait := hcopy.trans (arpResolve_staged hw (stagePayload t payload) hop 3000)
    simp only
    split
    · exact hwait
    · intro x hx
      exact (ipFrame_changes _ _ _ _ _ x (by omega)).trans (hwait x hx)

theorem sendEcho_staged (hw : Lists inWait wait) (t : Stack) (o : Option Echo) :
    StagedOver (echoPackets inWait t o) t.env.link.frame (sendEcho wait t o).env.link.frame := by
  cases o with
  | none => exact .of_eq rfl
  | some e =>
    have hsend := ipv4SendVia_staged hw t e.dst e.dst 1 e.payload
    rw [sendEcho]
    simp only
    split
    · exact hsend
    · exact hsend

end Wait

mutual

theorem handle_staged (t : Stack) : (e : Event) →
    StagedOver (packetsOf t e) t.env.link.frame (handle t e).env.link.frame
  | .frame f len during => by
    have hecho := sendEcho_staged (fun ip deadline t => await_staged ip deadline t during)
      (netInput t f len).stack (netInput t f len).echo
    rw [netInput_frame] at hecho
    rw [packetsOf, handle]
    exact hecho
  | .tick now => by
    rw [packetsOf, handle]
    exact hostTick_staged (setClock t now)
  | .look => by
    rw [packetsOf, handle]
    exact .of_eq rfl

theorem await_staged (ip deadline : U32) (t : Stack) : (es : List Event) →
    StagedOver (packetsWhile ip deadline t es) t.env.link.frame (await ip deadline t es).2.env.link.frame
  | [] => by
    rw [packetsWhile, await]
    exact .of_eq rfl
  | .look :: es => by
    rw [packetsWhile, await]
    cases arpLookup t.env.link.arp ip with
    | some mac => exact .of_eq rfl
    | none =>
      simp only
      split
      · exact .of_eq rfl
      · exact await_staged ip deadline t es
  | .frame f len during :: es => by
    rw [packetsWhile, await]
    exact (handle_staged t (.frame f len during)).trans (await_staged ip deadline _ es)
  | .tick now :: es => by
    rw [packetsWhile, await]
    exact (handle_staged t (.tick now)).trans (await_staged ip deadline _ es)

end

/-- The packets put together while `ipv4_send_via` waits, `es` being what happens then. -/
def packetsDuring (es : List Event) (t : Stack) (hop : U32) (payload : List U8) : List (List U8) :=
  resolvePackets (fun ip deadline t => packetsWhile ip deadline t es) (stagePayload t payload) hop 3000

end Ezos.Net
