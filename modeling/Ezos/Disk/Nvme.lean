import Ezos.Lib.Ring
import Ezos.Lib.Run
import Ezos.Types
import Mathlib.Logic.Function.Basic

/-!
# NVMe commands (`kernel/nvme.c`)

One I/O queue and one bounce buffer for all sectors. A step is a part of `n_io_sector` (up to the doorbell,
or one round of the loop of `n_complete`) or a step of the controller, which executes a command and posts
its completion whenever it likes.
-/

namespace Ezos.Nvme

open Lib

set_option autoImplicit false

def nvmeMaxNs : Nat := 4
def opcNvmWrite : U8 := 0x01
def opcNvmRead : U8 := 0x02

abbrev Sector := Vector U8 512

abbrev Addr := U32 × U32

structure Config where
  ready : Bool
  nsN : Nat
  nsid : Nat → U32
  sect : Nat → U32
  depth : Nat
  min : 2 ≤ depth
  max : depth ≤ 32

/-- The fields of a submission entry that differ between commands: PRP1 is always `g_data`. -/
structure Command where
  opc : U8
  cid : U16
  nsid : U32
  slba : U32

def Command.addr (e : Command) : Addr := (e.nsid, e.slba)

structure Cqe where
  cid : U16
  status : BitVec 15
  phase : Bool

structure Call where
  ns : Nat
  lba : U32
  buffer : Sector
  write : Bool

structure State where
  /-- `g_cid`, `g_iosq` and its tail, `g_iocq` with its head and expected phase, and `g_data`. -/
  cid : U16
  sq : Nat → Command
  sqTail : Nat
  cq : Nat → Cqe
  cqHead : Nat
  cqPhase : Bool
  data : Sector
  /-- The call that waits in `n_complete`, and its `want_cid`. -/
  call : Option (Call × U16)
  /-- The call that returned last, with its value and the buffer after it. -/
  last : Option (Call × Int × Sector)
  /-- Of the controller: the sectors, the commands not yet executed, the completions not yet posted, and
  where it posts the next one. -/
  disk : Addr → Sector
  pending : List Command
  done : List (U16 × BitVec 15)
  cqTail : Nat
  lap : Bool
  /-- The data of the write calls so far, and the data that sectors have received. -/
  writes : List (Addr × Sector)
  received : List (Addr × Sector)

def init (disk : Addr → Sector) (cid : U16) (data : Sector) : State where
  cid := cid
  sq := fun _ => ⟨0, 0, 0, 0⟩
  sqTail := 0
  cq := fun _ => ⟨0, 0, false⟩
  cqHead := 0
  cqPhase := true
  data := data
  call := none
  last := none
  disk := disk
  pending := []
  done := []
  cqTail := 0
  lap := true
  writes := []
  received := []

def Config.accepts (cfg : Config) (c : Call) : Bool :=
  cfg.ready && c.ns < nvmeMaxNs && c.ns < cfg.nsN && cfg.sect c.ns != 0 && c.lba < cfg.sect c.ns

def Config.addr (cfg : Config) (c : Call) : Addr := (cfg.nsid c.ns, c.lba)

/-- `n_submit`; the doorbell hands the entry to the controller. -/
def State.submit (cfg : Config) (s : State) (cmd : Command) : State :=
  let cid := s.cid + 1
  let e := { cmd with cid := cid }
  { s with
    cid := cid
    sq := Ring.put s.sq s.sqTail e
    sqTail := (s.sqTail + 1) % cfg.depth
    pending := s.pending ++ [e] }

def State.begin (cfg : Config) (s : State) (c : Call) : State :=
  if !cfg.accepts c then { s with last := some (c, -1, c.buffer) }
  else
    let s := if c.write then
        { s with data := c.buffer, writes := s.writes ++ [(cfg.addr c, c.buffer)] }
      else s
    let opc := if c.write then opcNvmWrite else opcNvmRead
    let s := s.submit cfg ⟨opc, 0, cfg.nsid c.ns, c.lba⟩
    { s with call := some (c, s.cid) }

def State.finish (s : State) (c : Call) (r : Int) : State :=
  { s with
    call := none
    last := some (c, r, if r = 0 ∧ c.write = false then s.data else c.buffer) }

/-- One round of the loop of `n_complete`, with `expired` if the time limit has passed. -/
def State.poll (cfg : Config) (s : State) (c : Call) (wantCid : U16) (expired : Bool) : State :=
  let ce := s.cq s.cqHead
  if ce.phase = s.cqPhase then
    let wraps := cfg.depth ≤ s.cqHead + 1
    let s := { s with
      cqHead := if wraps then 0 else s.cqHead + 1
      cqPhase := if wraps then !s.cqPhase else s.cqPhase }
    if ce.cid ≠ wantCid then s.finish c (-1)
    else s.finish c (if ce.status = 0 then 0 else -1)
  else if expired then s.finish c (-1)
  else s

def State.execute (s : State) (i : Nat) (e : Command) (status : BitVec 15) (moved : Bool) : State :=
  let s := { s with pending := s.pending.eraseIdx i, done := s.done ++ [(e.cid, status)] }
  if !moved then s
  else if e.opc = opcNvmWrite then
    { s with
      disk := Function.update s.disk e.addr s.data
      received := s.received ++ [(e.addr, s.data)] }
  else { s with data := s.disk e.addr }

def State.post (cfg : Config) (s : State) (i : Nat) (x : U16 × BitVec 15) : State :=
  let wraps := cfg.depth ≤ s.cqTail + 1
  { s with
    done := s.done.eraseIdx i
    cq := Ring.put s.cq s.cqTail ⟨x.1, x.2, s.lap⟩
    cqTail := if wraps then 0 else s.cqTail + 1
    lap := if wraps then !s.lap else s.lap }

inductive Op
  | begin (c : Call)
  | poll (expired : Bool)
  /-- The controller executes a command, or posts a completion. -/
  | execute (i : Nat) (status : BitVec 15) (moved : Bool)
  | post (i : Nat)

def State.run (cfg : Config) (s : State) : Op → State
  | .begin c => s.begin cfg c
  | .poll expired =>
    match s.call with
    | some (c, wantCid) => s.poll cfg c wantCid expired
    | none => s
  | .execute i status moved =>
    match s.pending[i]? with
    | some e => s.execute i e status moved
    | none => s
  | .post i =>
    match s.done[i]? with
    | some x => s.post cfg i x
    | none => s

def Allowed (cfg : Config) (s : State) : Op → Prop
  | .begin _ => s.call.isNone
  | .poll _ => s.call.isSome
  | .execute i status moved => i < s.pending.length ∧ (status = 0 → moved)
  | .post i => i < s.done.length ∧ (s.cqTail + 1) % cfg.depth ≠ s.cqHead

instance (cfg : Config) (s : State) : (o : Op) → Decidable (Allowed cfg s o)
  | .begin _ => inferInstanceAs (Decidable (s.call.isNone = true))
  | .poll _ => inferInstanceAs (Decidable (s.call.isSome = true))
  | .execute i status moved => inferInstanceAs (Decidable (i < s.pending.length ∧ (status = 0 → moved = true)))
  | .post i => inferInstanceAs (Decidable (i < s.done.length ∧ (s.cqTail + 1) % cfg.depth ≠ s.cqHead))

def Step (cfg : Config) (s : State) (o : Op) (s' : State) : Prop := Allowed cfg s o ∧ s' = s.run cfg o

def Clean (cfg : Config) (s : State) : Op → Prop
  | .begin c => cfg.accepts c → s.pending = [] ∧ s.done = [] ∧ s.cqTail = s.cqHead
  | _ => True

def CleanStep (cfg : Config) (s : State) (o : Op) (s' : State) : Prop := Step cfg s o s' ∧ Clean cfg s o

variable {cfg : Config} {s s' : State} {c : Call} {cid : U16} {h t : Nat} {o : Op}

structure Queue (cfg : Config) (s : State) (h t : Nat) : Prop where
  le : h ≤ t
  room : t < h + cfg.depth
  tagged : Ring.Tagged Cqe.phase s.cq cfg.depth h t
  head : s.cqHead = h % cfg.depth
  phase : s.cqPhase = Ring.tag cfg.depth h
  tail : s.cqTail = t % cfg.depth
  lap : s.lap = Ring.tag cfg.depth t

theorem Queue.congr (hq : Queue cfg s h t) (hcq : s'.cq = s.cq) (hhead : s'.cqHead = s.cqHead)
    (hphase : s'.cqPhase = s.cqPhase) (htail : s'.cqTail = s.cqTail) (hlap : s'.lap = s.lap) :
    Queue cfg s' h t where
  le := hq.le
  room := hq.room
  tagged := hcq ▸ hq.tagged
  head := hhead.trans hq.head
  phase := hphase.trans hq.phase
  tail := htail.trans hq.tail
  lap := hlap.trans hq.lap

theorem Config.depth_pos (cfg : Config) : 0 < cfg.depth := Nat.lt_of_lt_of_le Nat.two_pos cfg.min

theorem Queue.look (hq : Queue cfg s h t) : (s.cq s.cqHead).phase = s.cqPhase ↔ h < t := by
  rw [hq.head, hq.phase]
  exact hq.tagged.look cfg.depth_pos

theorem Queue.empty_iff (hq : Queue cfg s h t) : s.cqTail = s.cqHead ↔ h = t := by
  have hle := hq.le
  have hroom := hq.room
  rw [hq.tail, hq.head]
  constructor
  · intro he
    by_contra hne
    have hdvd := Nat.le_of_dvd (by omega) (Nat.dvd_of_mod_eq_zero (Nat.sub_mod_eq_zero_of_mod_eq he))
    omega
  · rintro rfl
    rfl

theorem Queue.pop (hq : Queue cfg s h t) (hlt : h < t) (hcq : s'.cq = s.cq)
    (hhead : s'.cqHead = if cfg.depth ≤ s.cqHead + 1 then 0 else s.cqHead + 1)
    (hphase : s'.cqPhase = if cfg.depth ≤ s.cqHead + 1 then !s.cqPhase else s.cqPhase)
    (htail : s'.cqTail = s.cqTail) (hlap : s'.lap = s.lap) : Queue cfg s' (h + 1) t := by
  have hroom := hq.room
  exact {
    le := hlt
    room := by omega
    tagged := by
      rw [hcq]
      exact hq.tagged.pop hlt (Nat.le_of_lt hroom)
    head := by rw [hhead, hq.head, ← Ring.succ_slot cfg.depth_pos]
    phase := by rw [hphase, hq.head, hq.phase, ← Ring.succ_tag cfg.depth_pos]
    tail := htail.trans hq.tail
    lap := hlap.trans hq.lap }

theorem Queue.post {i : Nat} {x : U16 × BitVec 15} (hq : Queue cfg s h t)
    (hfree : (s.cqTail + 1) % cfg.depth ≠ s.cqHead) : Queue cfg (s.post cfg i x) h (t + 1) := by
  have hle := hq.le
  have hroom := hq.room
  have hnext : t + 1 ≠ h + cfg.depth := by
    intro he
    rw [hq.tail, hq.head, Nat.mod_add_mod, he, Nat.add_mod_right] at hfree
    exact hfree rfl
  have htail : (s.post cfg i x).cqTail = (t + 1) % cfg.depth := by
    rw [Ring.succ_slot cfg.depth_pos, ← hq.tail]
    simp only [State.post]
  have hlap : (s.post cfg i x).lap = Ring.tag cfg.depth (t + 1) := by
    rw [Ring.succ_tag cfg.depth_pos, ← hq.tail, ← hq.lap]
    simp only [State.post]
  exact {
    le := by omega
    room := by omega
    tagged := by
      show Ring.Tagged Cqe.phase (Ring.put s.cq s.cqTail ⟨x.1, x.2, s.lap⟩) _ _ _
      rw [hq.tail]
      exact hq.tagged.push hq.lap hle hroom
    head := hq.head
    phase := hq.phase
    tail := htail
    lap := hlap }

/-! ## One command at a time -/

def Config.command (cfg : Config) (c : Call) (cid : U16) : Command :=
  ⟨if c.write then opcNvmWrite else opcNvmRead, cid, cfg.nsid c.ns, c.lba⟩

def Moved (cfg : Config) (s : State) (c : Call) : Prop :=
  if c.write then s.disk (cfg.addr c) = c.buffer else s.data = s.disk (cfg.addr c)

inductive Stage (cfg : Config) (s : State) (c : Call) (cid : U16) : List Cqe → Prop
  | pending : s.pending = [cfg.command c cid] → s.done = [] →
      (c.write = true → s.data = c.buffer ∧ (cfg.addr c, c.buffer) ∈ s.writes) → Stage cfg s c cid []
  | done (status : BitVec 15) : s.pending = [] → s.done = [(cid, status)] →
      (status = 0 → Moved cfg s c) → Stage cfg s c cid []
  | posted (x : Cqe) : s.pending = [] → s.done = [] → x.cid = cid →
      (x.status = 0 → Moved cfg s c) → Stage cfg s c cid [x]

theorem Stage.congr {l : List Cqe} (hs : Stage cfg s c cid l) (hpending : s'.pending = s.pending)
    (hdone : s'.done = s.done) (hdata : s'.data = s.data) (hdisk : s'.disk = s.disk)
    (hwrites : s'.writes = s.writes) : Stage cfg s' c cid l := by
  have hmoved : Moved cfg s c → Moved cfg s' c := by
    unfold Moved
    rw [hdata, hdisk]
    exact id
  cases hs with
  | pending h₁ h₂ h₃ =>
    refine .pending (hpending.trans h₁) (hdone.trans h₂) ?_
    rw [hdata, hwrites]
    exact h₃
  | done status h₁ h₂ h₃ => exact .done status (hpending.trans h₁) (hdone.trans h₂) fun h => hmoved (h₃ h)
  | posted x h₁ h₂ h₃ h₄ =>
    exact .posted x (hpending.trans h₁) (hdone.trans h₂) h₃ fun h => hmoved (h₄ h)

inductive Alone (cfg : Config) (s : State) (l : List Cqe) : Prop
  | idle : s.call = none → s.pending = [] → s.done = [] → l = [] → Alone cfg s l
  | busy (c : Call) (cid : U16) : s.call = none ∨ s.call = some (c, cid) → Stage cfg s c cid l → Alone cfg s l

structure Good (cfg : Config) (s : State) : Prop where
  alone : ∃ h t, Queue cfg s h t ∧ Alone cfg s (Ring.contents s.cq cfg.depth h t)
  own : ∀ x ∈ s.received, x ∈ s.writes

theorem good_init (disk : Addr → Sector) (cid : U16) (data : Sector) : Good cfg (init disk cid data) := by
  have hqueue : Queue cfg (init disk cid data) 0 0 := {
    le := Nat.le_refl 0
    room := by
      have := cfg.depth_pos
      omega
    tagged := Ring.Tagged.first fun _ => rfl
    head := (Nat.zero_mod _).symm
    phase := by
      rw [Ring.tag, Nat.zero_div]
      rfl
    tail := (Nat.zero_mod _).symm
    lap := by
      rw [Ring.tag, Nat.zero_div]
      rfl }
  exact ⟨⟨0, 0, hqueue, .idle rfl rfl rfl (Ring.contents_eq_nil (Nat.le_refl 0))⟩, fun _ hx => absurd hx List.not_mem_nil⟩

theorem good_begin (hg : Good cfg s) (hcall : s.call.isNone)
    (hclean : cfg.accepts c → s.pending = [] ∧ s.done = [] ∧ s.cqTail = s.cqHead) :
    Good cfg (s.begin cfg c) := by
  obtain ⟨⟨h, t, hq, halone⟩, hown⟩ := hg
  have hnone : s.call = none := Option.isNone_iff_eq_none.mp hcall
  unfold State.begin
  by_cases haccepts : cfg.accepts c
  · obtain ⟨hpending, hdone, hempty⟩ := hclean haccepts
    have heq : h = t := hq.empty_iff.mp hempty
    have hnil : Ring.contents s.cq cfg.depth h t = [] := Ring.contents_eq_nil (Nat.le_of_eq heq.symm)
    simp only [haccepts, Bool.not_true, Bool.false_eq_true, if_false]
    cases hwrite : c.write with
    | true =>
      refine ⟨⟨h, t, hq.congr rfl rfl rfl rfl rfl, .busy c (s.cid + 1) (.inr rfl) ?_⟩, ?_⟩
      · show Stage cfg _ c _ (Ring.contents s.cq cfg.depth h t)
        rw [hnil]
        refine .pending ?_ hdone fun _ => ⟨rfl, List.mem_append_right _ List.mem_cons_self⟩
        simp [State.submit, hpending, Config.command, hwrite]
      · intro x hx
        exact List.mem_append_left _ (hown x hx)
    | false =>
      refine ⟨⟨h, t, hq.congr rfl rfl rfl rfl rfl, .busy c (s.cid + 1) (.inr rfl) ?_⟩, hown⟩
      show Stage cfg _ c _ (Ring.contents s.cq cfg.depth h t)
      rw [hnil]
      refine .pending ?_ hdone fun h => absurd (hwrite.symm.trans h) Bool.false_ne_true
      simp [State.submit, hpending, Config.command, hwrite]
  · simp only [haccepts, Bool.not_false, if_true]
    refine ⟨⟨h, t, hq.congr rfl rfl rfl rfl rfl, ?_⟩, hown⟩
    cases halone with
    | idle _ hpending hdone hnil => exact .idle hnone hpending hdone hnil
    | busy c' cid _ hstage => exact .busy c' cid (.inl hnone) (hstage.congr rfl rfl rfl rfl rfl)

theorem Good.waits {wantCid : U16} (hg : Good cfg s) (hcall : s.call = some (c, wantCid)) :
    ∃ h t, Queue cfg s h t ∧ Stage cfg s c wantCid (Ring.contents s.cq cfg.depth h t) := by
  obtain ⟨⟨h, t, hq, halone⟩, -⟩ := hg
  cases halone with
  | idle hnone => exact absurd (hnone.symm.trans hcall) (by simp)
  | busy c' cid hcall' hstage =>
    rcases hcall' with hnone | hsome
    · exact absurd (hnone.symm.trans hcall) (by simp)
    · rw [hcall, Option.some.injEq, Prod.mk.injEq] at hsome
      obtain ⟨rfl, rfl⟩ := hsome
      exact ⟨h, t, hq, hstage⟩

theorem Stage.at_head (hs : Stage cfg s c cid (Ring.contents s.cq cfg.depth h t)) (hq : Queue cfg s h t)
    (hlt : h < t) :
    t = h + 1 ∧ s.pending = [] ∧ s.done = [] ∧ (s.cq s.cqHead).cid = cid ∧
      ((s.cq s.cqHead).status = 0 → Moved cfg s c) := by
  have hlen : (Ring.contents s.cq cfg.depth h t).length = t - h := Ring.length_contents
  have hcons : Ring.contents s.cq cfg.depth h t =
      s.cq (h % cfg.depth) :: Ring.contents s.cq cfg.depth (h + 1) t := Ring.contents_eq_cons hlt
  rw [← hq.head] at hcons
  generalize Ring.contents s.cq cfg.depth h t = l at hs hlen hcons
  cases hs with
  | pending | done => simp at hcons
  | posted x hpending hdone hcid hmoved =>
    rw [List.cons.injEq] at hcons
    obtain ⟨rfl, -⟩ := hcons
    rw [List.length_singleton] at hlen
    exact ⟨by omega, hpending, hdone, hcid, hmoved⟩

theorem good_poll {expired : Bool} (hg : Good cfg s) (hcall : s.call = some (c, cid)) :
    Good cfg (s.poll cfg c cid expired) := by
  obtain ⟨h, t, hq, hstage⟩ := hg.waits hcall
  unfold State.poll
  by_cases hlt : h < t
  · obtain ⟨rfl, hpending, hdone, hcid, -⟩ := hstage.at_head hq hlt
    have hnil : Ring.contents s.cq cfg.depth (h + 1) (h + 1) = [] := Ring.contents_eq_nil (Nat.le_refl _)
    simp only [if_pos (hq.look.mpr hlt), hcid, ne_eq, not_true, if_false]
    exact ⟨⟨h + 1, h + 1, hq.pop hlt rfl rfl rfl rfl rfl, .idle rfl hpending hdone hnil⟩, hg.own⟩
  · simp only [if_neg (fun he => hlt (hq.look.mp he))]
    split
    next =>
      exact ⟨⟨h, t, hq.congr rfl rfl rfl rfl rfl,
        .busy c cid (.inl rfl) (hstage.congr rfl rfl rfl rfl rfl)⟩, hg.own⟩
    next => exact hg

section Execute
variable {i : Nat} {e : Command} {status : BitVec 15} {moved : Bool}

@[simp] theorem execute_cq : (s.execute i e status moved).cq = s.cq := by
  unfold State.execute
  split <;> [rfl; split <;> rfl]

@[simp] theorem execute_call : (s.execute i e status moved).call = s.call := by
  unfold State.execute
  split <;> [rfl; split <;> rfl]

@[simp] theorem execute_pending : (s.execute i e status moved).pending = s.pending.eraseIdx i := by
  unfold State.execute
  split <;> [rfl; split <;> rfl]

@[simp] theorem execute_done : (s.execute i e status moved).done = s.done ++ [(e.cid, status)] := by
  unfold State.execute
  split <;> [rfl; split <;> rfl]

theorem execute_queue (hq : Queue cfg s h t) : Queue cfg (s.execute i e status moved) h t := by
  unfold State.execute
  split
  next => exact hq.congr rfl rfl rfl rfl rfl
  next => split <;> exact hq.congr rfl rfl rfl rfl rfl

theorem execute_moved (hdata : c.write = true → s.data = c.buffer ∧ (cfg.addr c, c.buffer) ∈ s.writes) :
    Moved cfg (s.execute i (cfg.command c cid) status true) c := by
  cases hwrite : c.write with
  | true => simp [Moved, State.execute, Config.command, Command.addr, Config.addr, hwrite, hdata hwrite]
  | false =>
    have hopc : opcNvmRead ≠ opcNvmWrite := by decide
    simp [Moved, State.execute, Config.command, Command.addr, Config.addr, hwrite, hopc]

theorem execute_own (hown : ∀ x ∈ s.received, x ∈ s.writes)
    (hdata : c.write = true → s.data = c.buffer ∧ (cfg.addr c, c.buffer) ∈ s.writes) :
    ∀ x ∈ (s.execute i (cfg.command c cid) status moved).received,
      x ∈ (s.execute i (cfg.command c cid) status moved).writes := by
  cases moved with
  | false => exact hown
  | true =>
    cases hwrite : c.write with
    | true =>
      obtain ⟨hbuffer, hmem⟩ := hdata hwrite
      intro x hx
      simp only [State.execute, Config.command, Command.addr, hwrite, if_true, Bool.not_true,
        Bool.false_eq_true, if_false, hbuffer, List.mem_append, List.mem_singleton] at hx ⊢
      cases hx with
      | inl hx => exact hown x hx
      | inr hx => exact hx ▸ hmem
    | false =>
      have hopc : opcNvmRead ≠ opcNvmWrite := by decide
      simpa [State.execute, Config.command, hwrite, hopc] using hown

end Execute

theorem good_execute {i : Nat} {e : Command} {status : BitVec 15} {moved : Bool} (hg : Good cfg s)
    (he : s.pending[i]? = some e) (hmoved : status = 0 → moved) : Good cfg (s.execute i e status moved) := by
  obtain ⟨⟨h, t, hq, halone⟩, hown⟩ := hg
  have hmem := List.mem_of_getElem? he
  generalize hl : Ring.contents s.cq cfg.depth h t = l at halone
  cases halone with
  | idle _ hpending => simp [hpending] at hmem
  | busy c cid hcall hstage =>
    cases hstage with
    | done _ hpending | posted _ hpending => simp [hpending] at hmem
    | pending hpending hdone hdata =>
      rw [hpending, List.mem_singleton] at hmem
      subst hmem
      have hi : i = 0 := by
        rw [hpending] at he
        cases i with
        | zero => rfl
        | succ i => simp at he
      subst hi
      have hleft : s.pending.eraseIdx 0 = [] := by rw [hpending]; rfl
      have hone : s.done ++ [(cid, status)] = [(cid, status)] := by rw [hdone]; rfl
      cases moved with
      | false =>
        refine ⟨⟨h, t, hq.congr rfl rfl rfl rfl rfl, .busy c cid hcall ?_⟩, hown⟩
        show Stage cfg _ c cid (Ring.contents s.cq cfg.depth h t)
        rw [hl]
        exact .done status hleft hone fun h => absurd (hmoved h) Bool.false_ne_true
      | true =>
        refine ⟨⟨h, t, execute_queue hq, .busy c cid ?_ ?_⟩, ?_⟩
        · rw [execute_call]
          exact hcall
        · rw [execute_cq, hl]
          refine .done status ?_ ?_ fun _ => execute_moved hdata
          · rw [execute_pending, hleft]
          · rw [execute_done]
            exact hone
        · exact execute_own hown hdata

theorem good_post {i : Nat} {x : U16 × BitVec 15} (hg : Good cfg s) (hx : s.done[i]? = some x)
    (hfree : (s.cqTail + 1) % cfg.depth ≠ s.cqHead) : Good cfg (s.post cfg i x) := by
  obtain ⟨⟨h, t, hq, halone⟩, hown⟩ := hg
  have hmem := List.mem_of_getElem? hx
  have hpush : Ring.contents (s.post cfg i x).cq cfg.depth h (t + 1) =
      Ring.contents s.cq cfg.depth h t ++ [⟨x.1, x.2, s.lap⟩] := by
    have hle := hq.le
    have hroom := hq.room
    rw [← Ring.contents_push hle (by omega), ← hq.tail]
    rfl
  refine ⟨⟨h, t + 1, hq.post hfree, ?_⟩, hown⟩
  rw [hpush]
  generalize Ring.contents s.cq cfg.depth h t = l at halone
  cases halone with
  | idle _ _ hdone => simp [hdone] at hmem
  | busy c cid hcall hstage =>
    cases hstage with
    | pending _ hdone | posted _ _ hdone => simp [hdone] at hmem
    | done status hpending hdone hmoved =>
      rw [hdone, List.mem_singleton] at hmem
      subst hmem
      have hi : i = 0 := by
        rw [hdone] at hx
        cases i with
        | zero => rfl
        | succ i => simp at hx
      subst hi
      have hleft : s.done.eraseIdx 0 = [] := by rw [hdone]; rfl
      exact .busy c cid hcall (.posted _ hpending hleft rfl hmoved)

theorem good_run (hg : Good cfg s) (hstep : CleanStep cfg s o s') : Good cfg s' := by
  obtain ⟨⟨hallowed, rfl⟩, hclean⟩ := hstep
  cases o with
  | begin c => exact good_begin hg hallowed hclean
  | poll expired =>
    obtain ⟨⟨c, wantCid⟩, hcall⟩ := Option.isSome_iff_exists.mp hallowed
    have hrun : s.run cfg (.poll expired) = s.poll cfg c wantCid expired := by simp only [State.run, hcall]
    rw [hrun]
    exact good_poll hg hcall
  | execute i status moved =>
    obtain ⟨hlt, hmoved⟩ := hallowed
    have he := List.getElem?_eq_getElem hlt
    have hrun : s.run cfg (.execute i status moved) = s.execute i s.pending[i] status moved := by
      simp only [State.run, he]
    rw [hrun]
    exact good_execute hg he hmoved
  | post i =>
    obtain ⟨hlt, hfree⟩ := hallowed
    have hx := List.getElem?_eq_getElem hlt
    have hrun : s.run cfg (.post i) = s.post cfg i s.done[i] := by simp only [State.run, hx]
    rw [hrun]
    exact good_post hg hx hfree

structure Answers (cfg : Config) (s s' : State) (c : Call) (wantCid : U16) : Prop where
  /-- The completion in the queue is that of the call. With status 0 the call returns 0, a read with what the
  sector has and a write with what it stored. -/
  completed : s.cqTail ≠ s.cqHead → s'.call = none ∧ (s.cq s.cqHead).cid = wantCid ∧
    (if (s.cq s.cqHead).status = 0 then
      s'.last = some (c, 0, s'.disk (cfg.addr c)) ∧ (c.write = true → s'.disk (cfg.addr c) = c.buffer)
    else s'.last = some (c, -1, c.buffer))
  early : s.cqTail = s.cqHead → s'.call = none → s'.last = some (c, -1, c.buffer)

theorem good_answers {expired : Bool} (hg : Good cfg s) (hcall : s.call = some (c, cid)) :
    Answers cfg s (s.poll cfg c cid expired) c cid := by
  obtain ⟨h, t, hq, hstage⟩ := hg.waits hcall
  have hempty := hq.empty_iff
  have hle := hq.le
  constructor
  · intro hne
    have hlt : h < t := Nat.lt_of_le_of_ne hle fun he => hne (hempty.mpr he)
    obtain ⟨-, -, -, hcid, hmoved⟩ := hstage.at_head hq hlt
    unfold State.poll
    simp only [if_pos (hq.look.mpr hlt), hcid, ne_eq, not_true, if_false]
    refine ⟨rfl, trivial, ?_⟩
    by_cases hstatus : (s.cq s.cqHead).status = 0
    · have hdata := hmoved hstatus
      simp only [if_pos hstatus]
      cases hwrite : c.write with
      | true =>
        simp only [Moved, hwrite, if_true] at hdata
        simp [State.finish, hwrite, hdata]
      | false =>
        simp only [Moved, hwrite, Bool.false_eq_true, if_false] at hdata
        simp [State.finish, hwrite, hdata]
    · simp only [if_neg hstatus]
      simp [State.finish]
  · intro he hnone
    have hlook : ¬(s.cq s.cqHead).phase = s.cqPhase := fun h => by
      have hlt := hq.look.mp h
      have heq := hempty.mp he
      omega
    unfold State.poll at hnone ⊢
    simp only [if_neg hlook] at hnone ⊢
    split at hnone
    next hexp => simp [hexp, State.finish]
    next => exact absurd (hnone.symm.trans hcall) (by simp)

/-- If each command is submitted only when the earlier ones are through, the sectors receive what write calls
for them hand over, and each call gets the answer of its own command. -/
theorem run_calls {disk : Addr → Sector} {g : U16} {data : Sector} {ops : List Op}
    (h : Run (CleanStep cfg) (init disk g data) ops s) :
    (∀ x ∈ s.received, x ∈ s.writes) ∧
      ∀ c wantCid expired, s.call = some (c, wantCid) →
        Answers cfg s (s.run cfg (.poll expired)) c wantCid := by
  have hg : Good cfg s := h.invariant good_run (good_init disk g data)
  refine ⟨hg.own, fun c wantCid expired hcall => ?_⟩
  have hrun : s.run cfg (.poll expired) = s.poll cfg c wantCid expired := by simp only [State.run, hcall]
  rw [hrun]
  exact good_answers hg hcall

def smallConfig : Config where
  ready := true
  nsN := 1
  nsid := fun _ => 1
  sect := fun _ => 8
  depth := 3
  min := by decide
  max := by decide

def start : State := init (fun _ => Vector.replicate 512 0) 0 (Vector.replicate 512 0)

def writeCall (lba : U32) (b : U8) : Call := ⟨0, lba, Vector.replicate 512 b, true⟩
def readCall (lba : U32) : Call := ⟨0, lba, Vector.replicate 512 0xFF, false⟩

def writeOps : List Op := [.begin (writeCall 3 7), .execute 0 0 true, .post 0]

theorem write_clean :
    Run (CleanStep smallConfig) start writeOps (writeOps.foldl (State.run smallConfig) start) := by
  refine .cons ⟨⟨?_, rfl⟩, fun _ => ⟨rfl, rfl, rfl⟩⟩ (.cons ⟨⟨?_, rfl⟩, trivial⟩
    (.cons ⟨⟨?_, rfl⟩, trivial⟩ (.nil _)))
  all_goals decide

theorem run_calls_write :
    let s := (writeOps ++ [Op.poll false]).foldl (State.run smallConfig) start
    s.last = some (writeCall 3 7, (0 : Int), (writeCall 3 7).buffer) ∧
      s.disk ((1 : U32), (3 : U32)) = (writeCall 3 7).buffer := by
  obtain ⟨-, hanswers⟩ := run_calls write_clean
  obtain ⟨-, -, hlast⟩ := (hanswers (writeCall 3 7) 1 false rfl).completed (by decide)
  rw [if_pos (by decide)] at hlast
  obtain ⟨hlast, hdisk⟩ := hlast
  have hstored := hdisk rfl
  exact ⟨hlast.trans (by rw [hstored]), hstored⟩

theorem run_of_plays {ops : List Op} (h : Plays (Allowed cfg) (State.run cfg) s ops) :
    Run (Step cfg) s ops (ops.foldl (State.run cfg) s) :=
  Run.of_plays (fun _ _ hok => ⟨hok, rfl⟩) h

def lateWriteOps : List Op :=
  [.begin (writeCall 3 7), .poll true, .begin (writeCall 4 9), .execute 0 0 true]

/-- A read gives up before its completion is there. The next one is executed, and its completion posted, before
it looks, but it takes the completion of the first. -/
def lateReadOps : List Op :=
  [.begin (readCall 3), .poll true, .execute 0 0 true, .post 0,
    .begin (readCall 4), .execute 0 0 true, .post 0, .poll false]

theorem late_commands :
    (∃ ops s, Run (Step smallConfig) start ops s ∧ ¬∀ x ∈ s.received, x ∈ s.writes) ∧
      ∃ ops s, Run (Step smallConfig) start ops s ∧ s.cid = 2 ∧ (s.cq s.cqHead).cid = 2 ∧
        (s.cq s.cqHead).status = 0 ∧ s.last.map (fun x => x.2.1) = some (-1) := by
  refine ⟨⟨lateWriteOps, _, run_of_plays ?_, ?_⟩, ⟨lateReadOps, _, run_of_plays ?_, ?_⟩⟩
  all_goals decide +kernel

end Ezos.Nvme
