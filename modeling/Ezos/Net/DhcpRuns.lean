import Ezos.Net.Dhcp
import Ezos.Lib.Run

/-!
# The DHCP client over whole runs

In every reachable state INIT goes with an invalid lease. `dhcp_renew_check` returns at once when
the lease is invalid, so a client in INIT has stopped for good.
-/

namespace Ezos.Net

open Lib Lib.Memory Lib.NetOrder Lib.Serial

set_option autoImplicit false

/-- A clock poll, or a packet for port 68 that `net_input` hands over while a session is active. -/
inductive DhcpEvent where
  | poll (now : U32)
  | message (ip : Mem) (ihl : Nat)

def Client.receive (c : Client) (ip : Mem) (ihl : Nat) : Client :=
  if c.wait.active then { c with wait := dhcpInput c.wait ip ihl } else c

def Client.poll (c : Client) (now : U32) : Client :=
  (dhcpRenewCheck { c with link := { c.link with ticks := now } } now).2

def Client.after (c : Client) : DhcpEvent → Client
  | .poll now => c.poll now
  | .message ip ihl => c.receive ip ihl

def DhcpStep (c : Client) (e : DhcpEvent) (d : Client) : Prop := d = c.after e

def InitInvalid (c : Client) : Prop := c.renew.state = .init → c.lease.valid = false

theorem renewRequest_renew (c : Client) : (renewRequest c).2.renew = c.renew := by
  rw [renewRequest]
  split <;> rfl

theorem renewRequest_lease (c : Client) : (renewRequest c).2.lease = c.lease := by
  rw [renewRequest]
  split <;> rfl

theorem renewSend_state (c : Client) (now : U32) :
    (renewSend c now).2.renew.state = c.renew.state :=
  (congrArg Renew.state (renewRequest_renew c.newTransaction) :)

theorem renewSend_lease (c : Client) (now : U32) : (renewSend c now).2.lease = c.lease :=
  (renewRequest_lease c.newTransaction :)

theorem renewMove_initInvalid {c : Client} (h : InitInvalid c) (now : U32) :
    InitInvalid (renewMove c now) := by
  intro hinit
  have hmoved : c.renew.moved now = .init := hinit
  rw [Renew.moved] at hmoved
  split at hmoved
  · cases hmoved
  · split at hmoved <;> cases hmoved
  · split at hmoved
    · rename_i hexp
      simp [renewMove, hexp]
    · cases hmoved
  · rename_i hi
    simp [renewMove, h hi]

theorem renewAdvance_initInvalid {c : Client} (h : InitInvalid c) (now : U32) :
    InitInvalid (renewAdvance c now).2 := by
  rw [renewAdvance]
  split
  · exact h
  · split
    · exact renewMove_initInvalid h now
    · intro hinit
      rw [renewSend_lease]
      exact renewMove_initInvalid h now ((renewSend_state _ _).symm.trans hinit)

theorem dhcpApply_initInvalid (c : Client) (ip server : U32) : InitInvalid (dhcpApply c ip server) := by
  intro hinit
  rw [dhcpApply] at hinit
  simp only at hinit
  split at hinit <;> cases hinit

theorem dhcpRenewCheck_initInvalid {c : Client} (h : InitInvalid c) (now : U32) :
    InitInvalid (dhcpRenewCheck c now).2 := by
  rw [dhcpRenewCheck]
  split
  · exact h
  · split
    · simp only
      split
      · split
        · exact dhcpApply_initInvalid _ _ _
        · exact h
      · split
        · exact renewAdvance_initInvalid (fun _ => rfl) now
        · split
          · split
            · exact h
            · refine renewAdvance_initInvalid ?_ now
              exact h
          · refine renewAdvance_initInvalid ?_ now
            exact h
    · exact renewAdvance_initInvalid h now

theorem DhcpStep.initInvalid {c d : Client} {e : DhcpEvent} (h : InitInvalid c) (hs : DhcpStep c e d) :
    InitInvalid d := by
  subst hs
  cases e with
  | poll now => exact dhcpRenewCheck_initInvalid (c := { c with link := { c.link with ticks := now } }) h now
  | message ip ihl =>
    rw [Client.after, Client.receive]
    split <;> exact h

theorem poll_of_invalid {c : Client} (h : c.lease.valid = false) (now : U32) :
    c.poll now = { c with link := { c.link with ticks := now } } := by
  rw [Client.poll, dhcpRenewCheck]
  simp [h]

structure Stuck (wire : List (List U8)) (c : Client) : Prop where
  init : c.renew.state = .init
  invalid : c.lease.valid = false
  silent : c.link.card.sent = wire

theorem DhcpStep.stuck {wire : List (List U8)} {c d : Client} {e : DhcpEvent} (h : Stuck wire c)
    (hs : DhcpStep c e d) : Stuck wire d := by
  subst hs
  cases e with
  | poll now =>
    rw [Client.after, poll_of_invalid h.invalid]
    exact ⟨h.init, h.invalid, h.silent⟩
  | message ip ihl =>
    rw [Client.after, Client.receive]
    split
    · exact ⟨h.init, h.invalid, h.silent⟩
    · exact h

structure IsOffer (c : Client) (ip : Mem) (ihl : Nat) : Prop where
  active : c.wait.active = true
  accepted : (dhcpInput { c.wait with got := false } ip ihl).got = true
  offer : (dhcpInput c.wait ip ihl).msgType = 2
  address : (dhcpInput c.wait ip ihl).yiaddr ≠ 0

/-- Once INIT is reached, nothing is sent and no lease becomes valid, whatever polls and messages
follow: in particular no OFFER is answered and no ACK is taken. -/
theorem run_dhcp_init_stuck {c₀ c d : Client} {addr server : U32} {es fs : List DhcpEvent}
    (h : Run DhcpStep (dhcpApply c₀ addr server) es c) (hinit : c.renew.state = .init)
    (hafter : Run DhcpStep c fs d) :
    d.link.card.sent = c.link.card.sent ∧ d.lease.valid = false ∧ d.renew.state = .init := by
  have hinv : InitInvalid c :=
    Run.invariant (I := InitInvalid) DhcpStep.initInvalid h (dhcpApply_initInvalid _ _ _)
  have hd : Stuck c.link.card.sent d :=
    Run.invariant (I := Stuck c.link.card.sent) DhcpStep.stuck hafter ⟨hinit, hinv hinit, rfl⟩
  exact ⟨hd.silent, hd.invalid, hd.init⟩

def idleLink : Link where
  card := ⟨true, Vector.replicate 6 2, 0, fun _ => true, 0, []⟩
  ready := true
  ticks := 0
  build := zeros
  frame := zeros
  ipId := 0x1000
  arp := fun _ => ⟨0, Vector.replicate 6 0⟩

def ackedClient : Client where
  link := idleLink
  wait :=
    { active := true, got := true, renewing := false, xid := 1, msgType := 5, yiaddr := 0x0A00020F
      buf := writeBytes zeros 240 [53, 1, 5, 51, 4, 0, 0, 0, 8, 255], len := 300 }
  renew := ⟨false, .bound, 0, 0, 0, 0⟩
  lease := ⟨false, 0, 0, 0, 0, 0, 0, 0⟩
  dns := ⟨[], false⟩
  udpTx := 0

def leaseRunsOut : List DhcpEvent := [.poll 4000, .poll 7000, .poll 8000]

def expiredClient : Client := leaseRunsOut.foldl Client.after (dhcpApply ackedClient 0x0A00020F 0x0A000202)

def offerPacket (xid : U32) : Mem :=
  let m := put16 (put16 zeros 2 328) 24 308
  let m := put32 (put32 m 32 xid) 44 0x0A00020F
  writeBytes (put32 m 264 dhcpMagic) 268 [53, 1, 2, 255]

theorem leaseRunsOut_run :
    Run DhcpStep (dhcpApply ackedClient 0x0A00020F 0x0A000202) leaseRunsOut expiredClient :=
  .cons rfl (.cons rfl (.cons rfl (.nil _)))

theorem expiredClient_init : expiredClient.renew.state = .init := by decide

theorem offerPacket_isOffer : IsOffer expiredClient (offerPacket expiredClient.wait.xid) 20 where
  active := by decide
  accepted := by decide
  offer := by decide
  address := by decide

def afterOffer : Client := (expiredClient.receive (offerPacket expiredClient.wait.xid) 20).poll 9000

theorem afterOffer_run : Run DhcpStep expiredClient
    [.message (offerPacket expiredClient.wait.xid) 20, .poll 9000] afterOffer :=
  .cons rfl (.cons rfl (.nil _))

theorem run_dhcp_init_stuck_expired :
    afterOffer.link.card.sent = expiredClient.link.card.sent ∧ afterOffer.lease.valid = false ∧
      afterOffer.renew.state = .init :=
  run_dhcp_init_stuck leaseRunsOut_run expiredClient_init afterOffer_run

/-- The lease has run out, the DISCOVER is on the wire, a matching OFFER has arrived, and the next
poll sends nothing. -/
theorem dhcpRenewCheck_ignores_offer : ∃ c pkt,
    Run DhcpStep (dhcpApply ackedClient 0x0A00020F 0x0A000202) leaseRunsOut c ∧
    c.renew.state = .init ∧ c.link.card.sent.length = 3 ∧ IsOffer c pkt 20 ∧
    (dhcpRenewCheck (c.receive pkt 20) 9000).1 = false :=
  ⟨expiredClient, offerPacket expiredClient.wait.xid, leaseRunsOut_run, by decide +kernel,
    by decide, offerPacket_isOffer, by decide⟩

/-! ## A request at every move -/

def Moves (c : Client) (now : U32) : Prop :=
  let after := (dhcpRenewCheck c now).2.renew.state
  c.renew.state = .bound ∧ after = .renewing ∨ c.renew.state = .renewing ∧ after = .rebinding ∨
    c.renew.state = .rebinding ∧ after = .init

instance (c : Client) (now : U32) : Decidable (Moves c now) := inferInstanceAs (Decidable (_ ∨ _ ∨ _))

def Client.nak (c : Client) : Bool := c.wait.renewing && c.wait.got && decide (c.wait.msgType = 6)

def Client.digest (c : Client) : Client :=
  if c.nak then
    { c with
      wait := { c.wait with got := false }
      lease := { c.lease with valid := false }
      renew := { c.renew with state := .init } }
  else if c.wait.renewing && c.wait.got then { c with wait := { c.wait with got := false } }
  else c

/-- The `dhcp_send` of the state that the call moves to. -/
def request (c : Client) (now : U32) : Bool × Client :=
  renewRequest (renewMove c.digest now).newTransaction

def dhcpFrameLen : Nat := ethHdrLen + ipHdrMin + (udpHdrLen + bootpMin)

def Submits (c : Client) (now : U32) : Prop :=
  (dhcpRenewCheck c now).2.link.card.sent =
    c.link.card.sent ++ [bytesAt (request c now).2.link.frame 0 dhcpFrameLen]

theorem dhcpSend_frame {c : Client} {type : U8} {ip server : U32} {bound : Bool}
    (h : (dhcpSend c type ip server bound).1 = true) :
    (dhcpSend c type ip server bound).2.link.card.sent =
      c.link.card.sent ++ [bytesAt (dhcpSend c type ip server bound).2.link.frame 0 dhcpFrameLen] := by
  simp only [dhcpSend, Card.send] at h ⊢
  split at h
  · cases h
  · rename_i hlen
    rw [if_neg hlen]
    split at h
    · rename_i hfree
      rw [if_pos hfree]
      rfl
    · cases h

theorem renewRequest_frame {c : Client} (h : (renewRequest c).1 = true) :
    (renewRequest c).2.link.card.sent =
      c.link.card.sent ++ [bytesAt (renewRequest c).2.link.frame 0 dhcpFrameLen] := by
  unfold renewRequest at h ⊢
  split at h <;> exact dhcpSend_frame h

theorem digest_link (c : Client) : c.digest.link = c.link := by
  unfold Client.digest
  split
  · rfl
  · split <;> rfl

theorem digest_renew {c : Client} (h : c.nak = false) : c.digest.renew = c.renew := by
  unfold Client.digest
  rw [h, if_neg Bool.false_ne_true]
  split <;> rfl

theorem digest_nak {c : Client} (h : c.nak = true) : c.digest.renew = { c.renew with state := .init } := by
  unfold Client.digest
  rw [if_pos h]

theorem not_moves_of_state {c : Client} {now : U32}
    (h : (dhcpRenewCheck c now).2.renew.state = c.renew.state) : ¬Moves c now := by
  unfold Moves
  dsimp only
  rw [h]
  rintro (⟨hb, ha⟩ | ⟨hb, ha⟩ | ⟨hb, ha⟩) <;> rw [hb] at ha <;> cases ha

theorem dhcpApply_state (c : Client) (ip server : U32) :
    (dhcpApply c ip server).renew.state = .bound := by
  simp only [dhcpApply]
  split <;> rfl

theorem renewAdvance_init {c : Client} {now : U32} (h : c.renew.state = .init) :
    (renewAdvance c now).2.renew.state = .init := by
  have hmoved : (renewMove c now).renew.state = .init := by
    simp only [renewMove, Renew.moved, h]
  unfold renewAdvance
  split
  · exact h
  · split
    · exact hmoved
    · exact (renewSend_state _ _).trans hmoved

theorem renewCheck_of_moves {c : Client} {now : U32} (hm : Moves c now) :
    dhcpRenewCheck c now = renewAdvance c.digest now := by
  by_cases hon : (!c.renew.active || !c.lease.valid) = true
  · refine absurd hm (not_moves_of_state ?_)
    rw [dhcpRenewCheck, if_pos hon]
  · by_cases hgot : (c.wait.renewing && c.wait.got) = true
    · by_cases hack : c.wait.msgType = 5
      · -- an ACK: BOUND, or nothing
        have hrun : (dhcpRenewCheck c now).2.renew.state = c.renew.state ∨
            (dhcpRenewCheck c now).2.renew.state = .bound := by
          simp only [dhcpRenewCheck, if_neg hon, if_pos hgot, if_pos hack]
          split
          · exact .inr (dhcpApply_state _ _ _)
          · exact .inl rfl
        rcases hrun with hrun | hrun
        · exact absurd hm (not_moves_of_state hrun)
        · unfold Moves at hm
          dsimp only at hm
          rw [hrun] at hm
          rcases hm with ⟨-, hm⟩ | ⟨-, hm⟩ | ⟨-, hm⟩ <;> cases hm
      · by_cases hnak : c.wait.msgType = 6
        · have hn : c.nak = true := by simp only [Client.nak, hgot, hnak, decide_true, Bool.and_self]
          simp only [dhcpRenewCheck, if_neg hon, if_pos hgot, if_neg hack, if_pos hnak, Client.digest,
            if_pos hn]
        · have hn : ¬c.nak = true := by simp only [Client.nak, hnak, decide_false, Bool.and_false,
            Bool.false_eq_true, not_false_eq_true]
          by_cases hoffer : c.wait.msgType = 2 ∧ c.renew.state = .init ∧ c.wait.yiaddr ≠ 0
          · -- an OFFER counts in INIT only, which the call does not leave
            refine absurd hm (not_moves_of_state ?_)
            simp only [dhcpRenewCheck, if_neg hon, if_pos hgot, if_neg hack, if_neg hnak, if_pos hoffer]
            split
            · rfl
            · exact (renewAdvance_init (by exact hoffer.2.1)).trans hoffer.2.1.symm
          · simp only [dhcpRenewCheck, if_neg hon, if_pos hgot, if_neg hack, if_neg hnak, if_neg hoffer,
              Client.digest, if_neg hn]
    · have hn : ¬c.nak = true := by
        rw [Client.nak, Bool.eq_false_of_not_eq_true hgot]
        exact Bool.false_ne_true
      simp only [dhcpRenewCheck, if_neg hon, if_neg hgot, Client.digest, if_neg hn]

theorem next_of_moves {c : Client} {now : U32} (hm : Moves c now)
    (h : (dhcpRenewCheck c now).2.renew.state = (renewMove c.digest now).renew.state) :
    (renewMove c.digest now).renew.next = if c.nak then c.renew.next else 0 := by
  cases hn : c.nak with
  | true =>
    have hd := digest_nak hn
    have hmoved : c.digest.renew.moved now = c.digest.renew.state := by rw [hd, Renew.moved]
    simp only [renewMove, hmoved, ne_eq, not_true_eq_false, if_false, if_true]
    rw [hd]
  | false =>
    have hd := digest_renew hn
    have hmoved : c.digest.renew.moved now ≠ c.digest.renew.state := by
      intro he
      refine not_moves_of_state ?_ hm
      rw [h, ← hd]
      exact he
    simp only [renewMove, if_pos hmoved, Bool.false_eq_true, if_false]

/-- A move of the timer submits its request in the same call just while the tick counter is below
2^31; a move to INIT by a NAK does when the retry interval is over. -/
theorem renewMoves_submits_iff {c : Client} {now : U32} (hm : Moves c now)
    (hok : (request c now).1 = true) :
    Submits c now ↔ if c.nak then 0 ≤ ahead now c.renew.next else now.toNat < 2 ^ 31 := by
  have hrun := renewCheck_of_moves hm
  by_cases hwait : c.digest.renew.state = .bound ∧ ahead now c.digest.renew.t1 < 0
  · refine absurd hm (not_moves_of_state ?_)
    rw [hrun, renewAdvance, if_pos hwait]
    cases hn : c.nak with
    | true =>
      rw [digest_nak hn] at hwait
      cases hwait.1
    | false => rw [digest_renew hn]
  · have hstate : (dhcpRenewCheck c now).2.renew.state = (renewMove c.digest now).renew.state := by
      rw [hrun, renewAdvance, if_neg hwait]
      split
      · rfl
      · exact renewSend_state _ _
    have hnext := next_of_moves hm hstate
    have hcond : (¬ahead now (renewMove c.digest now).renew.next < 0) ↔
        if c.nak then 0 ≤ ahead now c.renew.next else now.toNat < 2 ^ 31 := by
      rw [hnext]
      cases c.nak with
      | true => exact not_lt
      | false =>
        have hzero : now - 0 = now := by bv_omega
        rw [if_neg Bool.false_ne_true, if_neg Bool.false_ne_true, ahead, hzero, BitVec.toInt_neg_iff]
        omega
    rw [← hcond]
    by_cases hnow : ahead now (renewMove c.digest now).renew.next < 0
    · refine iff_of_false (fun hs => ?_) (not_not_intro hnow)
      rw [Submits, hrun, renewAdvance, if_neg hwait, if_pos hnow] at hs
      have hlink : (renewMove c.digest now).link = c.link := digest_link c
      rw [hlink] at hs
      exact List.cons_ne_nil _ _ (List.self_eq_append_right.mp hs)
    · refine iff_of_true ?_ hnow
      rw [Submits, hrun, renewAdvance, if_neg hwait, if_neg hnow]
      have hlink : (renewMove c.digest now).newTransaction.link = c.link := digest_link c
      exact (renewRequest_frame hok).trans (by rw [hlink]; rfl)

theorem renewMoves_submits_T1 : Submits (dhcpApply ackedClient 0x0A00020F 0x0A000202) 4000 :=
  (renewMoves_submits_iff (by decide +kernel) (by decide)).mpr (by decide)

def lateClient : Client :=
  dhcpApply { ackedClient with link := { idleLink with ticks := 0x80000000 } } 0x0A00020F 0x0A000202

theorem lateClient_silent : Moves lateClient 0x80000FA0 ∧ (request lateClient 0x80000FA0).1 = true ∧
    (dhcpRenewCheck lateClient 0x80000FA0).2.link.card.sent = [] ∧ ¬Submits lateClient 0x80000FA0 := by
  have hsilent : (dhcpRenewCheck lateClient 0x80000FA0).2.link.card.sent = [] := by decide
  refine ⟨by decide, by decide, hsilent, fun hs => ?_⟩
  rw [Submits, hsilent] at hs
  exact List.append_ne_nil_of_right_ne_nil _ (List.cons_ne_nil _ _) hs.symm

end Ezos.Net
