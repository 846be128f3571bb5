import Ezos.Net.TcpLife
import Mathlib.Data.List.GetD

/-!
# What is unacknowledged

The sequence numbers of a connection are those of its SYN, its bytes and its FIN, in this order,
counted from the initial one. `Ledger` follows how many of them are acknowledged.
-/

namespace Ezos.Tcp

open Lib.Serial Lib

set_option autoImplicit false

def Track.total (k : Track) : Nat := k.synSent.toNat + k.stream.length + k.finSent.toNat

def Sock.acknowledged (s : Sock) : Nat := s.track.total - (s.sndNxt - s.sndUna).toNat

def Sock.synOut (s : Sock) : Bool := s.track.synSent && s.acknowledged == 0

def Sock.finOut (s : Sock) : Bool := s.track.finSent && s.acknowledged != s.track.total

/-- The bytes of the output stream from sequence number `snd_una` on. -/
def Sock.unacked (s : Sock) : List U8 := s.track.stream.drop (s.acknowledged - 1)

/-- The accounting of a connection: `rtx` holds the bytes from `snd_una` on, and the window counts
them with the SYN and the FIN. -/
structure Accounted (c : Conn) : Prop where
  una : c.sock.sndUna = c.sock.track.isn + wrap c.sock.acknowledged
  bytes : c.sock.pending (fun _ => c.buf) = c.sock.unacked
  window : c.sock.sndNxt - c.sock.sndUna =
    wrap (c.sock.rtxLen + c.sock.synOut.toNat + c.sock.finOut.toNat)
  resent : ∀ now o, (c.sock.retransmit (fun _ => c.buf) now).2 = some o → o.data ≠ [] →
    o.seq = c.sock.sndUna ∧ o.data = c.sock.unacked

/-- The steps that keep the accounts: no SYN+ACK of the SYN's own sequence number in SYN_SENT, a
`connect` that wakes up finds its own SYN still to be sent, and the HTTP server answers on a
connection that has nothing unacknowledged. -/
def LedgerClean (s : Sock) : Event → Prop
  | .segment _ g _ _ => s.state = .synSent → g.has tcpRst = false → g.has tcpSyn = true →
      g.has tcpAck = true → g.ack = s.sndUna → s.synUnacked = false
  | .go _ _ => s.Connected → s.state = .synSent ∧ s.synUnacked = true ∧ s.sndNxt = s.sndUna
  | .reply _ _ _ => s.Connected → s.isOpen = true ∧ s.sndUna = s.sndNxt
  | _ => True

structure Ledger (s : Sock) (buf : Nat → U8) (u : Nat) : Prop where
  rtx : s.rtx ≠ 0
  una : s.sndUna = s.track.isn + wrap u
  nxt : s.sndNxt = s.track.isn + wrap s.track.total
  le : u ≤ s.track.total
  len : s.rtxLen = s.track.stream.length - (u - 1)
  room : s.rtxLen ≤ tcpRtxBuf
  bytes : ∀ k, k < s.rtxLen → buf k = s.track.stream.getD (u - 1 + k) 0
  syn : s.synUnacked = true → s.state = .synSent ∧ u = 0
  early : s.state = .synSent ∨ s.state = .synRcvd → s.track.stream = [] ∧ s.track.finSent = false
  first : u = 0 → s.state = .synSent ∧ s.synUnacked = true ∨ s.state = .synRcvd
  opened : s.isOpen = true → s.track.finSent = false
  synSent : s.state ≠ .synSent → s.track.synSent = true

namespace Ledger
variable {s : Sock} {buf : Nat → U8} {u : Nat}

theorem early_total (h : Ledger s buf u) (he : s.state = .synSent ∨ s.state = .synRcvd) :
    s.track.total = s.track.synSent.toNat := by
  obtain ⟨hs, hf⟩ := h.early he
  rw [Track.total, hs, hf]
  rfl

theorem syn_acked (h : Ledger s buf u) (hu : u ≠ 0) : s.track.synSent = true := by
  by_cases hst : s.state = .synSent
  · have hle := h.le
    rw [h.early_total (.inl hst)] at hle
    cases hy : s.track.synSent with
    | true => rfl
    | false =>
      rw [hy] at hle
      exact absurd (Nat.le_zero.mp hle) hu
  · exact h.synSent hst

theorem len_zero (h : Ledger s buf u) (hu : u = 0) : s.rtxLen = 0 := by
  have hst : s.state = .synSent ∨ s.state = .synRcvd := (h.first hu).imp_left fun hy => hy.1
  rw [h.len, (h.early hst).1]
  exact Nat.zero_sub _

theorem out_eq (h : Ledger s buf u) : s.track.total - u =
    s.rtxLen + (s.track.synSent && u == 0).toNat + (s.track.finSent && u != s.track.total).toNat := by
  by_cases hu : u = 0
  · have hst : s.state = .synSent ∨ s.state = .synRcvd := (h.first hu).imp_left fun hy => hy.1
    obtain ⟨-, hf⟩ := h.early hst
    rw [h.len_zero hu, h.early_total hst, hf, hu]
    simp
  · have hle := h.le
    have hlen := h.len
    have hsyn := h.syn_acked hu
    have hz : (u == 0) = false := by simpa using hu
    rw [hz, Bool.and_false, Bool.toNat_false, Track.total] at *
    cases hf : s.track.finSent with
    | false =>
      rw [hf, hsyn, Bool.toNat_false, Bool.toNat_true] at hle
      simp only [hsyn, Bool.false_and, Bool.toNat_false, Bool.toNat_true]
      omega
    | true =>
      rw [hf, hsyn, Bool.toNat_true] at hle
      simp only [hsyn, Bool.true_and, Bool.toNat_true]
      by_cases hall : u = 1 + s.track.stream.length + 1
      · rw [show (u != 1 + s.track.stream.length + 1) = false by simpa using hall, Bool.toNat_false]
        omega
      · rw [show (u != 1 + s.track.stream.length + 1) = true by simpa using hall, Bool.toNat_true]
        omega

theorem window (h : Ledger s buf u) : (s.sndNxt - s.sndUna).toNat = s.track.total - u := by
  have hout := h.out_eq
  have hroom := h.room
  have h1 := Bool.toNat_le (s.track.synSent && u == 0)
  have h2 := Bool.toNat_le (s.track.finSent && u != s.track.total)
  have hle := h.le
  have hsub : s.sndNxt - s.sndUna = wrap s.track.total - wrap u := by
    rw [h.nxt, h.una]
    grind
  rw [tcpRtxBuf] at hroom
  rw [hsub, toNat_sub_wrap hle (by omega)]

theorem acknowledged_eq (h : Ledger s buf u) : s.acknowledged = u := by
  have := h.le
  rw [Sock.acknowledged, h.window]
  omega

theorem pending_eq (h : Ledger s buf u) (p : Heap) (hp : p s.rtx = buf) :
    s.pending p = s.track.stream.drop (u - 1) := by
  apply List.ext_getElem
  · rw [Sock.pending, List.length_map, List.length_range, List.length_drop, h.len]
  · intro k hk hk'
    have hlt : k < s.rtxLen := by simpa [Sock.pending] using hk
    have hin : u - 1 + k < s.track.stream.length := by
      rw [List.length_drop] at hk'
      omega
    simp only [Sock.pending, List.getElem_map, List.getElem_range, List.getElem_drop, hp]
    rw [h.bytes k hlt, List.getD_eq_getElem _ _ hin]

theorem accounted {c : Conn} (h : Ledger c.sock c.buf u) : Accounted c where
  una := by
    rw [h.acknowledged_eq]
    exact h.una
  bytes := by
    rw [Sock.unacked, h.acknowledged_eq]
    exact h.pending_eq _ rfl
  window := by
    rw [Sock.synOut, Sock.finOut, h.acknowledged_eq, ← h.out_eq, ← h.window]
    exact (wrap_toNat _).symm
  resent now o ho hne := by
    by_cases hd : c.sock.Due now
    · rcases retransmit_due hd (fun _ => c.buf) with he | ⟨-, he⟩ | ⟨-, -, he⟩ | ⟨-, -, he⟩
      all_goals rw [he] at ho
      · cases ho
        exact absurd rfl hne
      · cases ho
        exact absurd rfl hne
      · cases ho
      · cases ho
        rw [Sock.unacked, h.acknowledged_eq]
        exact ⟨rfl, h.pending_eq (fun _ => c.buf) rfl⟩
    · rw [retransmit_idle hd] at ho
      cases ho

theorem acks (h : Ledger s buf u) {ack : U32} (ha : s.Acks ack) : 0 < (ack - s.sndUna).toNat ∧
    u + (ack - s.sndUna).toNat ≤ s.track.total ∧
    ack = s.track.isn + wrap (u + (ack - s.sndUna).toNat) := by
  have hout := h.out_eq
  have hroom := h.room
  have hle := h.le
  have h1 := Bool.toNat_le (s.track.synSent && u == 0)
  have h2 := Bool.toNat_le (s.track.finSent && u != s.track.total)
  rw [tcpRtxBuf] at hroom
  rw [Sock.Acks, ahead_window_iff (by rw [h.window]; omega), h.window] at ha
  refine ⟨ha.1, by omega, ?_⟩
  rw [wrap_add, wrap_toNat, h.una]
  grind

theorem ackAdvance (h : Ledger s buf u) (ticks ack : U32) :
    ∃ v, Ledger (s.ackAdvance ticks ack) (s.ackShift (fun _ => buf) ack s.rtx) v ∧ (s.Acks ack → v ≠ 0) ∧
      (¬ s.Acks ack → s.ackAdvance ticks ack = s ∧ v = u) := by
  rcases ackAdvance_cases s ticks ack with ⟨hno, he⟩ | ⟨ha, hsyn, he⟩ | ⟨ha, hsyn, hlen, he⟩ |
    ⟨ha, hsyn, hlen, he⟩
  · refine ⟨u, ?_, fun ha => absurd ha hno, fun _ => ⟨he, rfl⟩⟩
    rw [he, Sock.ackShift, if_neg fun hc => hno hc.1]
    exact h
  all_goals
    obtain ⟨hpos, htot, hack⟩ := h.acks ha
    refine ⟨u + (ack - s.sndUna).toNat, ?_, fun _ => by omega, fun hno => absurd ha hno⟩
    rw [he]
  · obtain ⟨hst, hu⟩ := h.syn hsyn
    have hz := h.len_zero hu
    have hnil := (h.early (.inl hst)).1
    refine ⟨h.rtx, hack, h.nxt, htot, ?_, h.room, fun k hk => ?_, nofun, h.early,
      fun hv => by omega, h.opened, h.synSent⟩
    · rw [hz, hnil]
      exact (Nat.zero_sub _).symm
    · rw [hz] at hk
      omega
  · have hrest := h.len
    refine ⟨h.rtx, hack, h.nxt, htot, ?_, Nat.zero_le _, fun k hk => absurd hk (by simp),
      fun hy => absurd (hsyn.symm.trans hy) (by decide), h.early, fun hv => by omega, h.opened, h.synSent⟩
    by_cases hu : u = 0
    · have hst : s.state = .synSent ∨ s.state = .synRcvd := (h.first hu).imp_left fun hy => hy.1
      rw [(h.early hst).1]
      exact (Nat.zero_sub _).symm
    · simp only
      omega
  · have hrest := h.len
    have hu : u ≠ 0 := fun hu => by
      have := h.len_zero hu
      omega
    have hroom := h.room
    refine ⟨h.rtx, hack, h.nxt, htot, by simp only; omega, by simp only; omega, fun k hk => ?_,
      fun hy => absurd (hsyn.symm.trans hy) (by decide), h.early, fun hv => by omega, h.opened, h.synSent⟩
    have hk' : k + (ack - s.sndUna).toNat < s.rtxLen := by
      simp only at hk
      omega
    have hsyn' : ¬ s.synUnacked = true := by
      rw [hsyn]
      decide
    rw [Sock.ackShift, if_pos ⟨ha, hsyn', hlen⟩, Function.update_self, if_pos hk', h.bytes _ hk']
    congr 1
    omega

theorem recvOnly (h : Ledger s buf u) {s' : Sock} (hr : RecvOnly s s') : Ledger s' buf u := by
  obtain ⟨w, n, q, l, f, rfl⟩ := hr
  exact ⟨h.rtx, h.una, h.nxt, h.le, h.len, h.room, h.bytes, h.syn, h.early, h.first, h.opened, h.synSent⟩

theorem noteSent (h : Ledger s buf u) (ok : Bool) : Ledger (s.noteSent ok) buf u :=
  ⟨h.rtx, h.una, h.nxt, h.le, h.len, h.room, h.bytes, h.syn, h.early, h.first, h.opened, h.synSent⟩

theorem noteIf (h : Ledger s buf u) (o : Option Out) (ok : Bool) : Ledger (s.noteIf o ok) buf u := by
  cases o with
  | none => exact h
  | some out => exact h.noteSent ok

theorem timer (h : Ledger s buf u) (k : Nat) (t : U32) :
    Ledger { s with rtxTries := k, rtoTick := t } buf u :=
  ⟨h.rtx, h.una, h.nxt, h.le, h.len, h.room, h.bytes, h.syn, h.early, h.first, h.opened, h.synSent⟩

theorem move (h : Ledger s buf u) (st : State) (hu : u ≠ 0) (hs : s.state ≠ .synSent)
    (h1 : st ≠ .synSent) (h2 : st ≠ .synRcvd)
    (ho : st = .established ∨ st = .closeWait → s.track.finSent = false) :
    Ledger { s with state := st } buf u where
  rtx := h.rtx
  una := h.una
  nxt := h.nxt
  le := h.le
  len := h.len
  room := h.room
  bytes := h.bytes
  syn hy := absurd (h.syn hy).1 hs
  early he := absurd he (not_or_intro h1 h2)
  first hz := absurd hz hu
  opened hop := ho ((Sock.isOpen_iff _).mp hop)
  synSent _ := h.syn_acked hu

theorem acked_synRcvd (h : Ledger s buf u) (hst : s.state = .synRcvd) (hno : ¬ s.Acks s.sndNxt) :
    u ≠ 0 := by
  intro hu
  apply hno
  have ht := h.early_total (.inr hst)
  rw [h.synSent (by simp [hst])] at ht
  have hn : s.sndNxt = s.track.isn + 1 := by
    rw [h.nxt, ht]
    rfl
  have huna : s.sndUna = s.track.isn := by
    rw [h.una, hu]
    exact BitVec.add_zero _
  exact (acks_syn huna hn).mpr hn

theorem moves {a s' : Sock} {g : Segment} (h : Ledger a buf u) (hm : Moves a g s')
    (hopen : a.state = .synSent → g.has tcpSyn = true → g.has tcpAck = true → g.ack = a.sndUna → u ≠ 0)
    (hacc : a.state = .synRcvd → g.has tcpAck = true → g.ack = a.sndNxt → u ≠ 0) :
    s'.used = false ∨ Ledger s' buf u := by
  have hafter : a.state ≠ .synSent → a.state ≠ .synRcvd → u ≠ 0 := fun h1 h2 hu =>
    (h.first hu).elim (fun hy => h1 hy.1) h2
  cases hm with
  | freed hu => exact .inl hu
  | stays _ _ hr => exact .inr (h.recvOnly hr)
  | opens hs hsyn hack hun hr =>
    have hu := hopen hs hsyn hack hun
    have hearly := h.early (.inl hs)
    have ho : Ledger a.opened buf u :=
      ⟨h.rtx, h.una, h.nxt, h.le, h.len, h.room, h.bytes, nofun, fun _ => hearly,
        fun hz => absurd hz hu, fun _ => hearly.2, fun _ => h.syn_acked hu⟩
    exact .inr (ho.recvOnly hr)
  | accepted hs hack hn hr =>
    have hf := (h.early (.inr hs)).2
    have hv := h.move .established (hacc hs hack hn) (by simp [hs]) nofun nofun fun _ => hf
    exact .inr (hv.recvOnly hr)
  | acceptedFin hs hack hn hr =>
    have hf := (h.early (.inr hs)).2
    have hv := h.move .closeWait (hacc hs hack hn) (by simp [hs]) nofun nofun fun _ => hf
    exact .inr (hv.recvOnly hr)
  | peerClosed hs hr =>
    have hf := h.opened ((Sock.isOpen_iff a).mpr (.inl hs))
    have hu := hafter (by simp [hs]) (by simp [hs])
    have hv := h.move .closeWait hu (by simp [hs]) nofun nofun fun _ => hf
    exact .inr (hv.recvOnly hr)
  | finAcked hs _ _ hr =>
    have hu := hafter (by simp [hs]) (by simp [hs])
    have hv := h.move .finWait2 hu (by simp [hs]) nofun nofun (by simp)
    exact .inr (hv.recvOnly hr)

end Ledger

theorem bufAfter_segment (c : Conn) (hp : Heap) (g : Segment) (ticks : U32) (sent : Bool)
    (hr : g.has tcpRst = false) : c.bufAfter (.segment hp g ticks sent) =
      if g.has tcpAck then c.sock.ackShift (fun _ => c.buf) g.ack c.sock.rtx else c.buf := by
  rw [Conn.bufAfter, hr]
  cases g.has tcpAck <;> rfl

theorem Ledger.segment {c : Conn} {u : Nat} (h : Ledger c.sock c.buf u) {hp : Heap} {g : Segment}
    {ticks : U32} {sent : Bool} (hc : LedgerClean c.sock (.segment hp g ticks sent))
    (hr : g.has tcpRst = false) : (handleSegment c.sock hp ticks g).sock.used = false ∨
      ∃ v, Ledger (handleSegment c.sock hp ticks g).sock (c.bufAfter (.segment hp g ticks sent)) v := by
  have hm := handleSegment_moves c.sock hp ticks g
  rw [bufAfter_segment c hp g ticks sent hr]
  by_cases hack : g.has tcpAck = true
  · rw [Sock.acked, if_pos hack] at hm
    rw [if_pos hack]
    obtain ⟨v, hv, hin, hout⟩ := h.ackAdvance ticks g.ack
    have hst : (c.sock.ackAdvance ticks g.ack).state = c.sock.state := by
      obtain ⟨a, l, t, k, y, he⟩ := ackAdvance_keeps c.sock ticks g.ack
      rw [he]
    refine (hv.moves hm (fun hs hsyn _ hun => ?_) fun hs _ hn => ?_).imp_right fun hl => ⟨v, hl⟩
    · by_cases ha : c.sock.Acks g.ack
      · exact hin ha
      · obtain ⟨he, rfl⟩ := hout ha
        rw [he] at hs hun
        intro hz
        have hy := hc hs hr hsyn hack hun
        rcases h.first hz with hf | hf
        · exact absurd (hf.2.symm.trans hy) (by decide)
        · exact absurd (hs.symm.trans hf) (by decide)
    · by_cases ha : c.sock.Acks g.ack
      · exact hin ha
      · obtain ⟨he, rfl⟩ := hout ha
        rw [he] at hs hn
        exact h.acked_synRcvd hs (hn ▸ ha)
  · rw [Sock.acked, if_neg hack] at hm
    rw [if_neg hack]
    exact (h.moves hm (fun _ _ h' => absurd h' hack) fun _ h' => absurd h' hack).imp_right
      fun hl => ⟨u, hl⟩

theorem Ledger.all_acked {s : Sock} {buf : Nat → U8} {u : Nat} (h : Ledger s buf u)
    (ho : s.isOpen = true) (hz : s.rtxLen = 0) : u = 1 + s.track.stream.length := by
  have hu : u ≠ 0 := by
    intro hu
    rcases h.first hu with ⟨hst, -⟩ | hst <;> rw [Sock.isOpen, hst] at ho <;> cases ho
  have hle := h.le
  have hlen := h.len
  rw [Track.total, h.opened ho, h.syn_acked hu, Bool.toNat_true, Bool.toNat_false] at hle
  omega

theorem Ledger.queue {s : Sock} {buf : Nat → U8} {u : Nat} (h : Ledger s buf u) (ho : s.isOpen = true)
    (hz : s.rtxLen = 0) {data : List U8} (hd : data.length ≤ tcpRtxBuf) :
    Ledger (s.queue data) (fun k => if k < data.length then data.getD k 0 else buf k) u := by
  have hall := h.all_acked ho hz
  have htot : (s.queue data).track.total = s.track.total + data.length := by
    simp only [Sock.queue, Track.total, List.length_append]
    omega
  have hnot : ¬ (s.state = .synSent ∨ s.state = .synRcvd) := by
    rcases (Sock.isOpen_iff s).mp ho with h1 | h1 <;> simp [h1]
  refine ⟨h.rtx, h.una, ?_, ?_, ?_, hd, fun k hk => ?_, h.syn, fun he => absurd he hnot, h.first,
    h.opened, h.synSent⟩
  · rw [htot, wrap_add, ← BitVec.add_assoc]
    exact congrArg (· + wrap data.length) h.nxt
  · rw [htot]
    exact Nat.le_add_right_of_le h.le
  · simp only [Sock.queue, List.length_append]
    omega
  · have hk' : k < data.length := hk
    have hpos : u - 1 + k = s.track.stream.length + k := by omega
    simp only [Sock.queue, if_pos hk', hpos]
    rw [List.getD_append_right _ _ _ _ (Nat.le_add_right _ _), Nat.add_sub_cancel_left]

theorem Ledger.closing {s : Sock} {buf : Nat → U8} {u : Nat} (h : Ledger s buf u)
    (ho : s.isOpen = true) : Ledger s.closing buf u := by
  have hopen := (Sock.isOpen_iff s).mp ho
  have hnot : s.state ≠ .synSent ∧ s.state ≠ .synRcvd := by
    rcases hopen with h1 | h1 <;> simp [h1]
  have hst : s.closing.state = .finWait1 ∨ s.closing.state = .lastAck := by
    simp only [Sock.closing]
    split
    · exact .inl rfl
    · exact .inr rfl
  have htot : s.closing.track.total = s.track.total + 1 := by
    simp only [Sock.closing, Track.total, h.opened ho, Bool.toNat_false, Bool.toNat_true]
  refine ⟨h.rtx, h.una, ?_, ?_, h.len, h.room, h.bytes, fun hy => absurd (h.syn hy).1 hnot.1,
    fun he => ?_, fun hu => ?_, fun hop => ?_, fun _ => h.synSent hnot.1⟩
  · rw [htot, wrap_add, ← BitVec.add_assoc]
    exact congrArg (· + 1) h.nxt
  · rw [htot]
    exact Nat.le_succ_of_le h.le
  · rcases hst with h1 | h1 <;> rw [h1] at he <;> rcases he with he | he <;> cases he
  · exact absurd (h.first hu) (not_or_intro (fun hy => hnot.1 hy.1) hnot.2)
  · rcases hst with h1 | h1 <;> rw [Sock.isOpen, h1] at hop <;> cases hop

theorem Ledger.go {s : Sock} {buf : Nat → U8} {u : Nat} (h : Ledger s buf u) (hst : s.state = .synSent)
    (hsyn : s.synUnacked = true) (hn : s.sndNxt = s.sndUna) (ticks : U32) :
    Ledger (s.synGo ticks) buf u := by
  have hu := (h.syn hsyn).2
  have hout := h.window
  have htot := h.early_total (.inl hst)
  have hearly := h.early (.inl hst)
  have hz : s.track.total = 0 := by
    rw [hn, BitVec.sub_self] at hout
    have : (0 : Nat) = s.track.total - u := hout
    omega
  have htot' : (s.synGo ticks).track.total = 1 := by
    simp only [Sock.synGo, Track.total, hearly.1, hearly.2]
    rfl
  refine ⟨h.rtx, h.una, ?_, by omega, h.len, h.room, h.bytes, h.syn, h.early, h.first, h.opened,
    fun hne => absurd hst hne⟩
  have hnxt := h.nxt
  rw [hz] at hnxt
  rw [htot']
  exact congrArg (· + 1) (hnxt.trans (BitVec.add_zero _))

theorem Ledger.resetBufs {s : Sock} {buf : Nat → U8} {u : Nat} (h : Ledger s buf u)
    (ho : s.isOpen = true) (hn : s.sndUna = s.sndNxt) : Ledger s.resetBufs buf u := by
  have hz : s.rtxLen = 0 := by
    have hw := h.window
    have hout := h.out_eq
    rw [hn, BitVec.sub_self] at hw
    have : (0 : Nat) = s.track.total - u := hw
    omega
  have hall := h.all_acked ho hz
  exact ⟨h.rtx, h.una, h.nxt, h.le, hz.symm.trans h.len, Nat.zero_le _,
    fun k hk => absurd hk (Nat.not_lt_zero k),
    nofun, h.early, fun hu => by omega, h.opened, h.synSent⟩

theorem Ledger.armed {s : Sock} {buf : Nat → U8} {u : Nat} (h : Ledger s buf u) (ticks : U32) :
    Ledger (s.armed ticks) buf u :=
  h.timer 0 (ticks + tcpRtoMs)

def LedgerInv (c : Conn) : Prop := c.sock.Connected → ∃ u, Ledger c.sock c.buf u

theorem LedgerInv.segment {c : Conn} (h : LedgerInv c) {hp : Heap} {g : Segment} {ticks : U32}
    {sent : Bool} {d : Conn} (hs : LifeStep c (.segment hp g ticks sent) d)
    (hc : LedgerClean c.sock (.segment hp g ticks sent)) : LedgerInv d := by
  obtain ⟨he, hd, hbuf⟩ := hs
  intro hconn
  rw [hd] at hconn hbuf ⊢
  obtain ⟨hu, hst, -⟩ :=
    noteIf_fields (handleSegment c.sock hp ticks g).sock (handleSegment c.sock hp ticks g).reply sent
  have hused := hu.symm.trans hconn.1
  by_cases hrst : g.has tcpRst = true
  · rw [handleSegment, if_pos hrst] at hused
    cases hused
  · have hm := handleSegment_moves c.sock hp ticks g
    obtain ⟨u, hl⟩ := h (connected_of_segment he c.buf hconn)
    rcases hl.segment hc (by simpa using hrst) with hf | ⟨v, hv⟩
    · exact absurd (hf.symm.trans hused) (by decide)
    · have hrtx : (c.sock.after c.buf (.segment hp g ticks sent)).rtx = c.sock.rtx := by
        obtain ⟨a, l, t, k, y, he⟩ := acked_keeps c.sock ticks g
        have hb := (hm.rtx.resolve_left fun hf => absurd (hf.symm.trans hused) (by decide)).trans
          (congrArg Sock.rtx he)
        rw [Sock.after]
        cases (handleSegment c.sock hp ticks g).reply <;> exact hb
      rw [hbuf hrtx]
      exact ⟨v, hv.noteIf _ _⟩

theorem LedgerInv.event {c : Conn} (h : LedgerInv c) {e : Event} (he : e.Enabled c.sock)
    (hc : LedgerClean c.sock e) (hseg : ∀ hp g ticks sent, e ≠ .segment hp g ticks sent)
    {buf : Nat → U8} (hbuf : (c.sock.after c.buf e).rtx = c.sock.rtx → buf = c.bufAfter e)
    (hconn : (c.sock.after c.buf e).Connected) : ∃ u, Ledger (c.sock.after c.buf e) buf u := by
  cases e with
  | fresh => exact absurd rfl hconn.2.1
  | free => exact absurd rfl hconn.2.1
  | port => exact absurd he hconn.2.1
  | listen => exact absurd rfl hconn.2.2
  | adopt =>
    obtain ⟨u, hl⟩ := h hconn
    rw [hbuf rfl]
    exact ⟨u, hl.rtx, hl.una, hl.nxt, hl.le, hl.len, hl.room, hl.bytes, hl.syn, hl.early, hl.first,
      hl.opened, hl.synSent⟩
  | bufs rtx ooo ok =>
    have hconn' : c.sock.Connected := by cases ok <;> exact hconn
    obtain ⟨u, hl⟩ := h hconn'
    exact absurd (he hconn') hl.rtx
  | connect =>
    exact ⟨0, he.2.2.2.1, (BitVec.add_zero _).symm, (BitVec.add_zero _).symm, Nat.le_refl 0, rfl,
      Nat.zero_le _, fun k hk => absurd hk (Nat.not_lt_zero k), fun _ => ⟨rfl, rfl⟩,
      fun _ => ⟨rfl, rfl⟩, fun _ => .inl ⟨rfl, rfl⟩, nofun, fun hne => absurd rfl hne⟩
  | passive =>
    exact ⟨0, he.2.1, (BitVec.add_zero _).symm, rfl, Nat.zero_le _, rfl,
      Nat.zero_le _, fun k hk => absurd hk (Nat.not_lt_zero k), nofun,
      fun _ => ⟨rfl, rfl⟩, fun _ => .inr rfl, nofun, fun _ => rfl⟩
  | refuse => exact absurd hconn.1 Bool.false_ne_true
  | go ticks sent =>
    obtain ⟨u, hl⟩ := h hconn
    obtain ⟨hst, hsyn, hn⟩ := hc hconn
    rw [hbuf rfl]
    exact ⟨u, (hl.go hst hsyn hn ticks).noteSent sent⟩
  | segment hp g ticks sent => exact absurd rfl (hseg hp g ticks sent)
  | retransmit now sent =>
    rcases after_retransmit c.sock c.buf now sent with ⟨hf, -⟩ | ⟨k, t, b, hk⟩
    · exact absurd (hf.symm.trans hconn.1) (by decide)
    · rw [hk] at hconn hbuf ⊢
      obtain ⟨u, hl⟩ := h hconn
      rw [hbuf rfl]
      exact ⟨u, (hl.timer k t).noteSent b⟩
  | send data ticks sent =>
    obtain ⟨hopen, hz, hd, -⟩ := he
    obtain ⟨hu, -⟩ := sent_cases c.sock data ticks sent true
    obtain ⟨u, hl⟩ := h (connected_of_open (hu.symm.trans hconn.1) hopen)
    cases sent with
    | true =>
      rw [hbuf rfl]
      exact ⟨u, ((hl.queue hopen hz hd).noteSent true).armed ticks⟩
    | false =>
      -- the segment is rolled back; the bytes stay in the buffer with `rtx_len = 0`
      rw [hbuf rfl]
      refine ⟨u, hl.rtx, hl.una, hl.nxt, hl.le, hl.len, hl.room, fun k hk => ?_, hl.syn, hl.early,
        hl.first, hl.opened, hl.synSent⟩
      exact absurd (hz ▸ hk) (Nat.not_lt_zero k)
  | fin sent =>
    have hu : c.sock.used = true := by cases sent <;> exact hconn.1
    obtain ⟨u, hl⟩ := h (connected_of_open hu he.2)
    cases sent with
    | true =>
      rw [hbuf rfl]
      exact ⟨u, (hl.noteSent true).closing he.2⟩
    | false =>
      rw [hbuf rfl]
      exact ⟨u, hl.noteSent false⟩
  | reply data ticks sent =>
    obtain ⟨hu, hst, -⟩ := sent_cases c.sock.resetBufs data ticks sent false
    have hconn' : c.sock.Connected := ⟨hu.symm.trans hconn.1, hst ▸ hconn.2.1, hst ▸ hconn.2.2⟩
    obtain ⟨hopen, hn⟩ := hc hconn'
    obtain ⟨u, hl⟩ := h hconn'
    have hq := (hl.resetBufs hopen hn).queue hopen rfl he.1
    cases sent with
    | true =>
      rw [hbuf rfl]
      exact ⟨u, (hq.noteSent true).armed ticks⟩
    | false =>
      rw [hbuf rfl]
      exact ⟨u, hq.noteSent false⟩
  | recv r =>
    obtain ⟨u, hl⟩ := h hconn
    rw [hbuf rfl]
    exact ⟨u, hl.rtx, hl.una, hl.nxt, hl.le, hl.len, hl.room, hl.bytes, hl.syn, hl.early, hl.first,
      hl.opened, hl.synSent⟩

def LedgerStep (c : Conn) (e : Event) (d : Conn) : Prop := LifeStep c e d ∧ LedgerClean c.sock e

theorem LedgerInv.step {c d : Conn} {e : Event} (h : LedgerInv c) (hs : LedgerStep c e d) :
    LedgerInv d := by
  obtain ⟨hs, hc⟩ := hs
  by_cases hseg : ∃ hp g ticks sent, e = .segment hp g ticks sent
  · obtain ⟨hp, g, ticks, sent, rfl⟩ := hseg
    exact h.segment hs hc
  · obtain ⟨he, hd, hbuf⟩ := hs
    intro hconn
    rw [hd] at hconn hbuf ⊢
    exact h.event he hc (fun hp g ticks sent heq => hseg ⟨hp, g, ticks, sent, heq⟩) hbuf hconn

/-- In every life of such steps a connection has its accounts in order. -/
theorem run_accounted {es : List Event} {c : Conn} (h : Run LedgerStep bootConn es c)
    (hc : c.sock.Connected) : Accounted c := by
  have hinv : LedgerInv c := Run.invariant LedgerInv.step h fun hb => absurd hb.1 Bool.false_ne_true
  obtain ⟨u, hl⟩ := hinv hc
  exact hl.accounted

/-- Two bytes are out, and they are what the timer sends again. -/
theorem run_accounted_talk : Accounted (follow synSentConn talkEvents) ∧
    (follow synSentConn talkEvents).sock.pending (fun _ => (follow synSentConn talkEvents).buf) =
      [2, 3] := by
  refine ⟨@run_accounted (openEvents ++ talkEvents) _ (Run.append (t := synSentConn) ?_ ?_) ?_,
    by decide⟩
  · exact .cons ⟨lifeStep_of_enabled rfl, trivial⟩
      (.cons ⟨lifeStep_of_enabled ⟨rfl, rfl, rfl, by decide, by decide⟩, trivial⟩
        (.cons ⟨lifeStep_of_enabled trivial, fun _ => ⟨rfl, rfl, rfl⟩⟩ (.nil _)))
  · refine .cons ⟨lifeStep_of_enabled ⟨rfl, rfl, by decide⟩, fun _ _ _ _ => ?_⟩
      (.cons ⟨lifeStep_of_enabled ⟨?_, ?_, ?_, ?_⟩, trivial⟩
        (.cons ⟨lifeStep_of_enabled ⟨?_, ?_, ?_⟩, fun _ _ _ _ => ?_⟩
          (.cons ⟨lifeStep_of_enabled ⟨?_, ?_⟩, trivial⟩ (.nil _))))
    all_goals decide
  · refine ⟨?_, ?_, ?_⟩
    all_goals decide

/-- The SYN+ACK acknowledges the initial sequence number, not the SYN; three bytes are sent, and then
the SYN is acknowledged. -/
def lostByteEvents : List Event :=
  [segmentEvent (synAckOf 0x1000), .send [1, 2, 3] 8 true,
    segmentEvent { synAckOf 0x1001 with flags := tcpAck, seq := 8 }]

/-- The acknowledgement of the SYN takes the first byte out of `rtx`. -/
theorem synAck_of_isn_loses_byte :
    Run LifeStep bootConn (openEvents ++ lostByteEvents) (follow synSentConn lostByteEvents) ∧
    (follow synSentConn lostByteEvents).sock.sndUna = 0x1001 ∧
    (follow synSentConn lostByteEvents).sock.track.stream = [1, 2, 3] ∧
    (follow synSentConn lostByteEvents).sock.pending
      (fun _ => (follow synSentConn lostByteEvents).buf) = [2, 3] ∧
    ¬ Accounted (follow synSentConn lostByteEvents) := by
  refine ⟨openEvents_life.append (.cons (lifeStep_of_enabled ⟨?_, ?_, ?_⟩)
    (.cons (lifeStep_of_enabled ⟨?_, ?_, ?_, ?_⟩) (.cons (lifeStep_of_enabled ⟨?_, ?_, ?_⟩) (.nil _)))),
    ?_, ?_, ?_, fun h => absurd h.bytes ?_⟩
  all_goals decide

end Ezos.Tcp
