import Ezos.Lib.Run
import Ezos.Types
import Mathlib.Logic.Function.Basic

/-!
# The AHCI command slot (`kernel/ahci.c`)

Each port has one command header and one command table, and slot 0 is the only one in use. The HBA reads the
structures while it runs the command: the header and the FIS first, the PRDT when it moves the data.
-/

namespace Ezos.Ahci

open Lib

set_option autoImplicit false

def ahciMaxPorts : Nat := 8

structure Config where
  online : Nat → Bool
  lba48 : Nat → Bool

structure Call where
  port : Nat
  lba : U32
  buf : U32
  write : Bool

structure Table where
  ct2 : U8
  ct4 : U8
  ct5 : U8
  ct6 : U8
  ct7 : U8
  ct8 : U8
  ct9 : U8
  ct10 : U8
  prdt0 : U32

def header (isWrite : Bool) : U32 := 5 ||| (if isWrite then (1 : U32) <<< 7 else 0) ||| (1 : U32) <<< 16

/-- `READ DMA (EXT)` and `WRITE DMA (EXT)`. -/
def ataCmd (lba48 isWrite : Bool) : U8 :=
  if isWrite then if lba48 then 0x35 else 0xCA
  else if lba48 then 0x25 else 0xC8

def table (lba48 : Bool) (ataCmd : U8) (lba buf : U32) : Table where
  ct2 := ataCmd
  ct4 := BitVec.setWidth 8 (lba &&& 0xFF)
  ct5 := BitVec.setWidth 8 ((lba >>> 8) &&& 0xFF)
  ct6 := BitVec.setWidth 8 ((lba >>> 16) &&& 0xFF)
  ct7 := if lba48 then 0x40 else BitVec.setWidth 8 ((0x40 : U32) ||| ((lba >>> 24) &&& 0x0F))
  ct8 := if lba48 then BitVec.setWidth 8 ((lba >>> 24) &&& 0xFF) else 0
  ct9 := 0
  ct10 := 0
  prdt0 := buf

def isWriteOf (header : U32) : Bool := header.getLsbD 7

def lbaOf (t : Table) : Nat :=
  let low := t.ct4.toNat + t.ct5.toNat * 2 ^ 8 + t.ct6.toNat * 2 ^ 16
  if t.ct2 = 0x25 ∨ t.ct2 = 0x35 then
    low + t.ct8.toNat * 2 ^ 24 + t.ct9.toNat * 2 ^ 32 + t.ct10.toNat * 2 ^ 40
  else low + (t.ct7 &&& 0x0F).toNat * 2 ^ 24

def Config.fits (cfg : Config) (c : Call) : Bool := cfg.lba48 c.port || c.lba.toNat < 2 ^ 28

theorem isWriteOf_header (w : Bool) : isWriteOf (header w) = w := by
  cases w <;> rfl

theorem byte_of_lba (lba : U32) (k : Nat) :
    (BitVec.setWidth 8 ((lba >>> k) &&& 0xFF)).toNat = lba.toNat / 2 ^ k % 2 ^ 8 := by
  have hmask : (0xFF : U32).toNat = 2 ^ 8 - 1 := rfl
  rw [BitVec.toNat_setWidth, BitVec.toNat_and, hmask, Nat.and_two_pow_sub_one_eq_mod, Nat.mod_mod,
    BitVec.toNat_ushiftRight, Nat.shiftRight_eq_div_pow]

theorem device_bits (b : U8) : ((0x40 ||| (b &&& 0x0F)) &&& 0x0F).toNat = b.toNat % 16 := by
  revert b
  decide

theorem low_bytes (lba48 : Bool) (cmd : U8) (lba buf : U32) :
    (table lba48 cmd lba buf).ct4.toNat + (table lba48 cmd lba buf).ct5.toNat * 2 ^ 8 +
      (table lba48 cmd lba buf).ct6.toNat * 2 ^ 16 = lba.toNat % 2 ^ 24 := by
  have h0 := byte_of_lba lba 0
  have h8 := byte_of_lba lba 8
  have h16 := byte_of_lba lba 16
  rw [BitVec.ushiftRight_zero] at h0
  simp only [table, h0, h8, h16]
  omega

theorem lbaOf_table_iff (lba48 w : Bool) (lba buf : U32) :
    lbaOf (table lba48 (ataCmd lba48 w) lba buf) = lba.toNat ↔ lba48 = true ∨ lba.toNat < 2 ^ 28 := by
  have hlba := lba.isLt
  have hlow := low_bytes lba48 (ataCmd lba48 w) lba buf
  rw [lbaOf, hlow]
  cases lba48 with
  | true =>
    have hext : ataCmd true w = 0x25 ∨ ataCmd true w = 0x35 := by cases w <;> decide
    have h24 := byte_of_lba lba 24
    have hzero : (0 : U8).toNat = 0 := rfl
    simp only [table, hext, if_true, h24, hzero, true_or, iff_true]
    omega
  | false =>
    have hplain : ¬(ataCmd false w = 0x25 ∨ ataCmd false w = 0x35) := by cases w <;> decide
    have hdev : BitVec.setWidth 8 ((0x40 : U32) ||| ((lba >>> 24) &&& 0x0F)) =
        (0x40 : U8) ||| (BitVec.setWidth 8 (lba >>> 24) &&& 0x0F) := by
      rw [BitVec.setWidth_or, BitVec.setWidth_and]
      rfl
    have hb : (BitVec.setWidth 8 (lba >>> 24)).toNat = lba.toNat / 2 ^ 24 % 2 ^ 8 := by
      rw [BitVec.toNat_setWidth, BitVec.toNat_ushiftRight, Nat.shiftRight_eq_div_pow]
    simp only [table, hplain, if_false, hdev, device_bits, hb, Bool.false_eq_true, false_or]
    omega

structure Port where
  header : U32
  table : Table
  /-- Bit 0 of PxCI, and ERR and BSY of PxTFD. -/
  ci : Bool
  err : Bool
  bsy : Bool
  /-- Of the HBA: direction and LBA of the command it runs, and whether an error has stopped it. -/
  running : Option (Bool × Nat)
  stopped : Bool

structure Transfer where
  port : Nat
  lba : Nat
  write : Bool
  buf : U32
  deriving DecidableEq

inductive Phase
  | slot
  | polling

structure State where
  ports : Nat → Port
  /-- The call under way, with the number of commands that had been executed when it began. -/
  call : Option (Call × Phase × Nat)
  last : Option (Call × Int)
  /-- The transfers of data so far, and the commands executed without error. -/
  moved : List Transfer
  executed : List Transfer

/-- After `ahci_init`, whose own commands have left the structures as they are. -/
def init (hdr : Nat → U32) (tbl : Nat → Table) : State where
  ports := fun p => ⟨hdr p, tbl p, false, false, false, none, false⟩
  call := none
  last := none
  moved := []
  executed := []

def Call.transfer (c : Call) : Transfer := ⟨c.port, c.lba.toNat, c.write, c.buf⟩

def State.setPort (s : State) (p : Nat) (x : Port) : State := { s with ports := Function.update s.ports p x }

def Config.accepts (cfg : Config) (c : Call) : Bool := c.port < ahciMaxPorts && cfg.online c.port

/-- `ahci_read_sector`, `ahci_write_sector` and `ahci_submit` up to the first wait. -/
def State.begin (cfg : Config) (s : State) (c : Call) : State :=
  if !cfg.accepts c then { s with last := some (c, -1) }
  else
    let cmd := ataCmd (cfg.lba48 c.port) c.write
    let s := s.setPort c.port { s.ports c.port with
      header := header c.write
      table := table (cfg.lba48 c.port) cmd c.lba c.buf }
    { s with call := some (c, .slot, s.executed.length) }

def State.cpu (s : State) (c : Call) (phase : Phase) (since : Nat) (expired : Bool) : State :=
  let port := s.ports c.port
  match phase with
  | .slot =>
    if port.ci && !expired then s
    else { s.setPort c.port { port with ci := true } with call := some (c, .polling, since) }
  | .polling =>
    if port.ci then
      if expired then { s with call := none, last := some (c, -1) } else s
    else if port.err || port.bsy then { s with call := none, last := some (c, -1) }
    else { s with call := none, last := some (c, 0) }

def State.fetch (s : State) (p : Nat) : State :=
  let port := s.ports p
  s.setPort p { port with bsy := true, running := some (isWriteOf port.header, lbaOf port.table) }

def State.finish (s : State) (p : Nat) (w : Bool) (lba : Nat) (ok moved : Bool) : State :=
  let port := s.ports p
  let x : Transfer := ⟨p, lba, w, port.table.prdt0⟩
  let s := { s with
    moved := if moved then s.moved ++ [x] else s.moved
    executed := if ok then s.executed ++ [x] else s.executed }
  if ok then s.setPort p { port with ci := false, err := false, bsy := false, running := none }
  else s.setPort p { port with err := true, bsy := false, running := none, stopped := true }

inductive Op
  | begin (c : Call)
  | cpu (expired : Bool)
  | fetch (p : Nat)
  | finish (p : Nat) (ok moved : Bool)

def State.run (cfg : Config) (s : State) : Op → State
  | .begin c => s.begin cfg c
  | .cpu expired =>
    match s.call with
    | some (c, phase, since) => s.cpu c phase since expired
    | none => s
  | .fetch p => s.fetch p
  | .finish p ok moved =>
    match (s.ports p).running with
    | some (w, lba) => s.finish p w lba ok moved
    | none => s

def Allowed (s : State) : Op → Prop
  | .begin _ => s.call.isNone
  | .cpu _ => s.call.isSome
  | .fetch p => (s.ports p).ci ∧ !(s.ports p).stopped ∧ (s.ports p).running.isNone
  | .finish p ok moved => (s.ports p).running.isSome ∧ (ok → moved)

instance (s : State) : (o : Op) → Decidable (Allowed s o)
  | .begin _ => inferInstanceAs (Decidable (s.call.isNone = true))
  | .cpu _ => inferInstanceAs (Decidable (s.call.isSome = true))
  | .fetch p => inferInstanceAs (Decidable ((s.ports p).ci = true ∧ (!(s.ports p).stopped) = true ∧
      (s.ports p).running.isNone = true))
  | .finish p ok moved => inferInstanceAs (Decidable ((s.ports p).running.isSome = true ∧
      (ok = true → moved = true)))

def Step (cfg : Config) (s : State) (o : Op) (s' : State) : Prop := Allowed s o ∧ s' = s.run cfg o

def Clean (cfg : Config) (s : State) : Op → Prop
  | .begin c => cfg.accepts c → (s.ports c.port).ci = false ∧ cfg.fits c
  | .finish p _ moved => moved → ∃ c since, s.call = some (c, .polling, since) ∧ c.port = p
  | _ => True

def CleanStep (cfg : Config) (s : State) (o : Op) (s' : State) : Prop := Step cfg s o s' ∧ Clean cfg s o

/-! ## Runs -/

variable {cfg : Config} {s s' : State} {c : Call} {since p : Nat} {o : Op}

structure Built (c : Call) (port : Port) : Prop where
  header : isWriteOf port.header = c.write
  table : lbaOf port.table = c.lba.toNat
  prdt : port.table.prdt0 = c.buf

inductive Tracks (s : State) : Prop
  | none : s.call = none → Tracks s
  | slot (c : Call) (since : Nat) : s.call = some (c, .slot, since) → Built c (s.ports c.port) →
      since ≤ s.executed.length → (s.ports c.port).ci = false → Tracks s
  | running (c : Call) (since : Nat) : s.call = some (c, .polling, since) → Built c (s.ports c.port) →
      since ≤ s.executed.length → (s.ports c.port).ci = true →
      (∀ x ∈ (s.ports c.port).running, x = (c.write, c.lba.toNat)) → Tracks s
  | finished (c : Call) (since : Nat) : s.call = some (c, .polling, since) →
      (s.ports c.port).ci = false → (s.ports c.port).err = false → (s.ports c.port).bsy = false →
      c.transfer ∈ s.executed.drop since → Tracks s

structure Good (s : State) : Prop where
  quiet : ∀ p, (s.ports p).ci = false → (s.ports p).running = none
  tracks : Tracks s

@[simp] theorem setPort_self (s : State) (p : Nat) (x : Port) : (s.setPort p x).ports p = x := by
  simp [State.setPort]

theorem setPort_of_ne (s : State) {p q : Nat} (x : Port) (h : q ≠ p) :
    (s.setPort p x).ports q = s.ports q := by
  simp [State.setPort, h]

theorem built_begin (cfg : Config) (c : Call) (port : Port) (hfits : cfg.fits c) :
    Built c { port with
      header := header c.write
      table := table (cfg.lba48 c.port) (ataCmd (cfg.lba48 c.port) c.write) c.lba c.buf } where
  header := isWriteOf_header c.write
  table := (lbaOf_table_iff _ _ _ _).mpr (by simpa [Config.fits] using hfits)
  prdt := rfl

theorem good_init (hdr : Nat → U32) (tbl : Nat → Table) : Good (init hdr tbl) :=
  ⟨fun _ _ => rfl, .none rfl⟩

theorem good_begin (hg : Good s) (hcall : s.call.isNone)
    (hclean : cfg.accepts c → (s.ports c.port).ci = false ∧ cfg.fits c) : Good (s.begin cfg c) := by
  unfold State.begin
  by_cases haccepts : cfg.accepts c
  · obtain ⟨hci, hfits⟩ := hclean haccepts
    simp only [haccepts, Bool.not_true, Bool.false_eq_true, if_false]
    constructor
    · intro p hp
      by_cases hpc : p = c.port
      · subst hpc
        simp only [setPort_self] at hp ⊢
        exact hg.quiet _ hp
      · simp only [setPort_of_ne s _ hpc] at hp ⊢
        exact hg.quiet p hp
    · refine .slot c s.executed.length rfl ?_ (Nat.le_refl _) ?_
      · simp only [setPort_self]
        exact built_begin cfg c _ hfits
      · simp only [setPort_self]
        exact hci
  · simp only [haccepts, Bool.not_false, if_true]
    exact ⟨hg.quiet, .none (Option.isNone_iff_eq_none.mp hcall)⟩

theorem good_cpu {phase : Phase} {expired : Bool} (hg : Good s) (hcall : s.call = some (c, phase, since)) :
    Good (s.cpu c phase since expired) := by
  have htracks := hg.tracks
  cases phase with
  | polling =>
    unfold State.cpu
    simp only
    split
    next =>
      split
      next => exact ⟨hg.quiet, .none rfl⟩
      next => exact hg
    next =>
      split
      next => exact ⟨hg.quiet, .none rfl⟩
      next => exact ⟨hg.quiet, .none rfl⟩
  | slot =>
    cases htracks with
    | none hnone => simp [hnone] at hcall
    | running c' since' hcall' | finished c' since' hcall' => simp [hcall'] at hcall
    | slot c' since' hcall' hbuilt hsince hci =>
      rw [hcall, Option.some.injEq, Prod.mk.injEq, Prod.mk.injEq] at hcall'
      obtain ⟨rfl, -, rfl⟩ := hcall'
      have hnone := hg.quiet _ hci
      simp only [State.cpu, hci, Bool.false_and, Bool.false_eq_true, if_false]
      constructor
      · intro p hp
        by_cases hpc : p = c.port
        · subst hpc
          simp only [setPort_self] at hp
          cases hp
        · simp only [setPort_of_ne s _ hpc] at hp ⊢
          exact hg.quiet p hp
      · refine .running c since rfl ?_ hsince ?_ ?_
        · simp only [setPort_self]
          exact ⟨hbuilt.header, hbuilt.table, hbuilt.prdt⟩
        · simp only [setPort_self]
        · simp [hnone]

theorem good_fetch (hg : Good s) (hci : (s.ports p).ci) : Good (s.fetch p) := by
  have htracks := hg.tracks
  unfold State.fetch
  constructor
  · intro q hq
    by_cases hqp : q = p
    · subst hqp
      simp only [setPort_self] at hq
      exact absurd (hci.symm.trans hq) (by simp)
    · simp only [setPort_of_ne s _ hqp] at hq ⊢
      exact hg.quiet q hq
  · cases htracks with
    | none hnone => exact .none hnone
    | slot c since hcall hbuilt hsince hclear =>
      have hne : c.port ≠ p := fun h => by
        rw [h, hci] at hclear
        cases hclear
      refine .slot c since hcall ?_ hsince ?_
      · rw [setPort_of_ne s _ hne]
        exact hbuilt
      · rw [setPort_of_ne s _ hne]
        exact hclear
    | running c since hcall hbuilt hsince hset hrun =>
      by_cases hpc : c.port = p
      · subst hpc
        refine .running c since hcall ?_ hsince ?_ ?_
        · simp only [setPort_self]
          exact ⟨hbuilt.header, hbuilt.table, hbuilt.prdt⟩
        · simp only [setPort_self]
          exact hset
        · simp only [setPort_self, Option.mem_def, Option.some.injEq]
          intro x hx
          rw [← hx, hbuilt.header, hbuilt.table]
      · refine .running c since hcall ?_ hsince ?_ ?_
        all_goals rw [setPort_of_ne s _ hpc]
        · exact hbuilt
        · exact hset
        · exact hrun
    | finished c since hcall hclear herr hbsy hmem =>
      have hne : c.port ≠ p := fun h => by
        rw [h, hci] at hclear
        cases hclear
      refine .finished c since hcall ?_ ?_ ?_ hmem
      all_goals rw [setPort_of_ne s _ hne]
      · exact hclear
      · exact herr
      · exact hbsy

section Finish
variable {w ok moved : Bool} {lba : Nat}

theorem Good.own (hg : Good s) (hrun : (s.ports p).running = some (w, lba))
    (hcall : s.call = some (c, .polling, since)) (hp : c.port = p) :
    Built c (s.ports p) ∧ since ≤ s.executed.length ∧ (s.ports p).ci = true ∧
      (⟨p, lba, w, (s.ports p).table.prdt0⟩ : Transfer) = c.transfer := by
  subst hp
  have htracks := hg.tracks
  cases htracks with
  | none hnone => simp [hnone] at hcall
  | slot c' since' hcall' => simp [hcall'] at hcall
  | finished c' since' hcall' hci =>
    rw [hcall, Option.some.injEq, Prod.mk.injEq, Prod.mk.injEq] at hcall'
    obtain ⟨rfl, -, -⟩ := hcall'
    have hnone := hg.quiet _ hci
    rw [hrun] at hnone
    cases hnone
  | running c' since' hcall' hbuilt hsince hci hone =>
    rw [hcall, Option.some.injEq, Prod.mk.injEq, Prod.mk.injEq] at hcall'
    obtain ⟨rfl, -, rfl⟩ := hcall'
    have heq := hone (w, lba) hrun
    rw [Prod.mk.injEq] at heq
    obtain ⟨rfl, rfl⟩ := heq
    refine ⟨hbuilt, hsince, hci, ?_⟩
    rw [hbuilt.prdt]
    rfl

theorem good_finish (hg : Good s) (hrun : (s.ports p).running = some (w, lba)) (hok : ok → moved)
    (hclean : moved → ∃ c since, s.call = some (c, .polling, since) ∧ c.port = p) :
    Good (s.finish p w lba ok moved) := by
  have hset : (s.ports p).ci = true := by
    by_contra hci
    have hnone := hg.quiet p (Bool.not_eq_true _ ▸ hci)
    rw [hrun] at hnone
    cases hnone
  cases ok with
  | true =>
    obtain ⟨c, since, hcall, rfl⟩ := hclean (hok rfl)
    obtain ⟨hbuilt, hsince, -, htransfer⟩ := hg.own hrun hcall rfl
    unfold State.finish
    simp only [if_true, htransfer]
    constructor
    · intro q hq
      by_cases hqp : q = c.port
      · subst hqp
        simp only [setPort_self]
      · rw [setPort_of_ne _ _ hqp] at hq ⊢
        exact hg.quiet q hq
    · refine .finished c since hcall ?_ ?_ ?_ ?_
      · simp only [setPort_self]
      · simp only [setPort_self]
      · simp only [setPort_self]
      · show c.transfer ∈ (s.executed ++ [c.transfer]).drop since
        rw [List.drop_append_of_le_length hsince]
        exact List.mem_append_right _ List.mem_cons_self
  | false =>
    unfold State.finish
    simp only [Bool.false_eq_true, if_false]
    constructor
    · intro q hq
      by_cases hqp : q = p
      · subst hqp
        simp only [setPort_self]
      · rw [setPort_of_ne _ _ hqp] at hq ⊢
        exact hg.quiet q hq
    · have htracks := hg.tracks
      have hclear : ∀ {q}, (s.ports q).ci = false → q ≠ p := by
        rintro q hq rfl
        rw [hset] at hq
        cases hq
      cases htracks with
      | none hnone => exact .none hnone
      | slot c since hcall hbuilt hsince hci =>
        refine .slot c since hcall ?_ hsince ?_
        all_goals rw [setPort_of_ne _ _ (hclear hci)]
        · exact hbuilt
        · exact hci
      | running c since hcall hbuilt hsince hci hone =>
        by_cases hpc : c.port = p
        · subst hpc
          refine .running c since hcall ?_ hsince ?_ ?_
          · simp only [setPort_self]
            exact ⟨hbuilt.header, hbuilt.table, hbuilt.prdt⟩
          · simp only [setPort_self]
            exact hset
          · simp
        · refine .running c since hcall ?_ hsince ?_ ?_
          all_goals rw [setPort_of_ne _ _ hpc]
          · exact hbuilt
          · exact hci
          · exact hone
      | finished c since hcall hci herr hbsy hmem =>
        refine .finished c since hcall ?_ ?_ ?_ hmem
        all_goals rw [setPort_of_ne _ _ (hclear hci)]
        · exact hci
        · exact herr
        · exact hbsy

end Finish

theorem run_cpu {phase : Phase} {expired : Bool} (hcall : s.call = some (c, phase, since)) :
    s.run cfg (.cpu expired) = s.cpu c phase since expired := by
  simp only [State.run, hcall]

theorem run_finish {w ok moved : Bool} {lba : Nat} (hrun : (s.ports p).running = some (w, lba)) :
    s.run cfg (.finish p ok moved) = s.finish p w lba ok moved := by
  simp only [State.run, hrun]

theorem good_run (hg : Good s) (hstep : CleanStep cfg s o s') : Good s' := by
  obtain ⟨⟨hallowed, rfl⟩, hclean⟩ := hstep
  cases o with
  | begin c => exact good_begin hg hallowed hclean
  | cpu expired =>
    obtain ⟨⟨c, phase, since⟩, hcall⟩ := Option.isSome_iff_exists.mp hallowed
    rw [run_cpu hcall]
    exact good_cpu hg hcall
  | fetch p => exact good_fetch hg hallowed.1
  | finish p ok moved =>
    obtain ⟨hsome, hok⟩ := hallowed
    obtain ⟨⟨w, lba⟩, hrun⟩ := Option.isSome_iff_exists.mp hsome
    rw [run_finish hrun]
    exact good_finish hg hrun hok hclean

structure Sound (s s' : State) : Prop where
  /-- The structures of a command in progress stay. -/
  kept : ∀ p, (s.ports p).ci = true →
    (s'.ports p).header = (s.ports p).header ∧ (s'.ports p).table = (s.ports p).table
  /-- Data is moved for the call under way, and as it says. -/
  moves : ∀ x ∈ s'.moved, x ∈ s.moved ∨ ∃ c phase since, s.call = some (c, phase, since) ∧ x = c.transfer
  /-- A call that returns 0 has been executed since it began. -/
  returns : ∀ c phase since, s.call = some (c, phase, since) → s'.call = none →
    s'.last = some (c, 0) → c.transfer ∈ s.executed.drop since

theorem kept_of_ports {x : Port} (hports : s'.ports = Function.update s.ports p x)
    (hheader : x.header = (s.ports p).header) (htable : x.table = (s.ports p).table) (q : Nat) :
    (s'.ports q).header = (s.ports q).header ∧ (s'.ports q).table = (s.ports q).table := by
  rw [hports]
  by_cases hqp : q = p
  · subst hqp
    rw [Function.update_self]
    exact ⟨hheader, htable⟩
  · rw [Function.update_of_ne hqp]
    exact ⟨rfl, rfl⟩

theorem sound_of_call (hkept : ∀ p, (s.ports p).ci = true →
      (s'.ports p).header = (s.ports p).header ∧ (s'.ports p).table = (s.ports p).table)
    (hmoves : ∀ x ∈ s'.moved, x ∈ s.moved ∨ ∃ c phase since, s.call = some (c, phase, since) ∧ x = c.transfer)
    (hcall : s'.call.isNone → s.call.isNone) : Sound s s' where
  kept := hkept
  moves := hmoves
  returns := by
    intro c phase since h h'
    rw [h, h'] at hcall
    cases hcall rfl

theorem sound_begin (hcall : s.call.isNone)
    (hclean : cfg.accepts c → (s.ports c.port).ci = false ∧ cfg.fits c) : Sound s (s.begin cfg c) := by
  unfold State.begin
  by_cases haccepts : cfg.accepts c
  · obtain ⟨hclear, -⟩ := hclean haccepts
    simp only [haccepts, Bool.not_true, Bool.false_eq_true, if_false]
    refine sound_of_call (fun p hset => ?_) (fun x hx => .inl hx) (fun _ => hcall)
    have hne : p ≠ c.port := fun h => by
      rw [h, hclear] at hset
      cases hset
    simp only [setPort_of_ne s _ hne, and_self]
  · simp only [haccepts, Bool.not_false, if_true]
    exact sound_of_call (fun _ _ => ⟨rfl, rfl⟩) (fun x hx => .inl hx) (fun _ => hcall)

theorem Good.executed (hg : Good s) (hcall : s.call = some (c, .polling, since))
    (hci : (s.ports c.port).ci = false) :
    (s.ports c.port).err = false ∧ (s.ports c.port).bsy = false ∧ c.transfer ∈ s.executed.drop since := by
  have htracks := hg.tracks
  cases htracks with
  | none hnone => simp [hnone] at hcall
  | slot c' since' hcall' => simp [hcall'] at hcall
  | running c' since' hcall' _ _ hset =>
    rw [hcall, Option.some.injEq, Prod.mk.injEq] at hcall'
    obtain ⟨rfl, -⟩ := hcall'
    rw [hci] at hset
    cases hset
  | finished c' since' hcall' _ herr hbsy hmem =>
    rw [hcall, Option.some.injEq, Prod.mk.injEq, Prod.mk.injEq] at hcall'
    obtain ⟨rfl, -, rfl⟩ := hcall'
    exact ⟨herr, hbsy, hmem⟩

theorem cpu_served {expired : Bool} (hg : Good s) (hcall : s.call = some (c, .polling, since))
    (hci : (s.ports c.port).ci = false) :
    s.cpu c .polling since expired = { s with call := none, last := some (c, 0) } := by
  obtain ⟨herr, hbsy, -⟩ := hg.executed hcall hci
  simp [State.cpu, hci, herr, hbsy]

theorem sound_cpu {phase : Phase} {expired : Bool} (hg : Good s) (hcall : s.call = some (c, phase, since)) :
    Sound s (s.cpu c phase since expired) := by
  cases phase with
  | slot =>
    unfold State.cpu
    simp only
    split
    next => exact sound_of_call (fun _ _ => ⟨rfl, rfl⟩) (fun x hx => .inl hx) id
    next =>
      apply sound_of_call
      · intro p _
        apply kept_of_ports (p := c.port)
        all_goals rfl
      · exact fun x hx => .inl hx
      · intro h
        cases h
  | polling =>
    by_cases hci : (s.ports c.port).ci = false
    · rw [cpu_served hg hcall hci]
      refine ⟨fun _ _ => ⟨rfl, rfl⟩, fun x hx => .inl hx, fun c' phase' since' h _ _ => ?_⟩
      rw [hcall, Option.some.injEq, Prod.mk.injEq, Prod.mk.injEq] at h
      obtain ⟨rfl, -, rfl⟩ := h
      exact (hg.executed hcall hci).2.2
    · simp only [State.cpu, Bool.not_eq_false _ ▸ hci, if_true]
      split
      next =>
        refine ⟨fun _ _ => ⟨rfl, rfl⟩, fun x hx => .inl hx, fun _ _ _ _ _ h => ?_⟩
        simp at h
      next => exact sound_of_call (fun _ _ => ⟨rfl, rfl⟩) (fun x hx => .inl hx) id

theorem sound_fetch : Sound s (s.fetch p) := by
  apply sound_of_call
  · intro q _
    apply kept_of_ports (p := p)
    all_goals rfl
  · exact fun x hx => .inl hx
  · exact id

theorem sound_finish {w ok moved : Bool} {lba : Nat} (hg : Good s)
    (hrun : (s.ports p).running = some (w, lba))
    (hclean : moved → ∃ c since, s.call = some (c, .polling, since) ∧ c.port = p) :
    Sound s (s.finish p w lba ok moved) := by
  have hmoves : ∀ x ∈ (if moved then s.moved ++ [⟨p, lba, w, (s.ports p).table.prdt0⟩] else s.moved),
      x ∈ s.moved ∨ ∃ c phase since, s.call = some (c, phase, since) ∧ x = c.transfer := by
    intro x hx
    split at hx
    next hmoved =>
      obtain ⟨c, since, hcall, hp⟩ := hclean hmoved
      obtain ⟨-, -, -, htransfer⟩ := hg.own hrun hcall hp
      rcases List.mem_append.mp hx with hx | hx
      · exact .inl hx
      · exact .inr ⟨c, .polling, since, hcall, (List.mem_singleton.mp hx).trans htransfer⟩
    next => exact .inl hx
  cases ok with
  | true =>
    apply sound_of_call
    · intro q _
      apply kept_of_ports (p := p)
      all_goals rfl
    · exact hmoves
    · exact id
  | false =>
    apply sound_of_call
    · intro q _
      apply kept_of_ports (p := p)
      all_goals rfl
    · exact hmoves
    · exact id

theorem sound_run (hg : Good s) (hstep : CleanStep cfg s o s') : Sound s s' := by
  obtain ⟨⟨hallowed, rfl⟩, hclean⟩ := hstep
  cases o with
  | begin c => exact sound_begin hallowed hclean
  | cpu expired =>
    obtain ⟨⟨c, phase, since⟩, hcall⟩ := Option.isSome_iff_exists.mp hallowed
    rw [run_cpu hcall]
    exact sound_cpu hg hcall
  | fetch p => exact sound_fetch
  | finish p ok moved =>
    obtain ⟨⟨w, lba⟩, hrun⟩ := Option.isSome_iff_exists.mp hallowed.1
    rw [run_finish hrun]
    exact sound_finish hg hrun hclean

/-- If each call finds CI clear and an LBA that fits, and the HBA moves no data for a call that has given up,
every step is sound, and a call whose command the HBA has executed without error returns 0. -/
theorem run_sectors {hdr : Nat → U32} {tbl : Nat → Table} {ops : List Op}
    (h : Run (CleanStep cfg) (init hdr tbl) ops s) :
    (∀ o s', CleanStep cfg s o s' → Sound s s') ∧
      ∀ c since expired, s.call = some (c, .polling, since) → (s.ports c.port).ci = false →
        (s.run cfg (.cpu expired)).call = none ∧ (s.run cfg (.cpu expired)).last = some (c, 0) := by
  have hg : Good s := h.invariant good_run (good_init hdr tbl)
  refine ⟨fun o s' hstep => sound_run hg hstep, fun c since expired hcall hci => ?_⟩
  rw [run_cpu hcall, cpu_served hg hcall hci]
  exact ⟨rfl, rfl⟩

def oneDisk (lba48 : Bool) : Config := ⟨fun p => p == 0, fun _ => lba48⟩

def start : State := init (fun _ => header false) fun _ => table false 0xEC 0 0

def readCall (lba buf : U32) : Call := ⟨0, lba, buf, false⟩
def writeCall (lba buf : U32) : Call := ⟨0, lba, buf, true⟩

def readOps (c : Call) : List Op := [.begin c, .cpu false, .fetch 0, .finish 0 true true]

theorem read_clean :
    Run (CleanStep (oneDisk true)) start (readOps (readCall 9 0x2000))
      ((readOps (readCall 9 0x2000)).foldl (State.run (oneDisk true)) start) := by
  refine .cons ⟨⟨?_, rfl⟩, fun _ => ⟨rfl, rfl⟩⟩ (.cons ⟨⟨?_, rfl⟩, trivial⟩ (.cons ⟨⟨?_, rfl⟩, trivial⟩
    (.cons ⟨⟨?_, rfl⟩, fun _ => ⟨readCall 9 0x2000, 0, rfl, rfl⟩⟩ (.nil _))))
  all_goals decide

theorem run_sectors_read :
    ((readOps (readCall 9 0x2000) ++ [Op.cpu false]).foldl (State.run (oneDisk true)) start).last =
      some (readCall 9 0x2000, 0) := by
  obtain ⟨-, hserved⟩ := run_sectors read_clean
  exact (hserved (readCall 9 0x2000) 0 false rfl (by decide)).2

theorem run_of_plays {ops : List Op} (h : Plays Allowed (State.run cfg) s ops) :
    Run (Step cfg) s ops (ops.foldl (State.run cfg) s) :=
  Run.of_plays (fun _ _ hok => ⟨hok, rfl⟩) h

def slowOps : List Op :=
  [.begin (writeCall 3 0x1000), .cpu false, .fetch 0, .cpu true, .begin (readCall 9 0x2000), .finish 0 true true]

def errorOps : List Op :=
  [.begin (readCall 3 0x1000), .cpu false, .fetch 0, .finish 0 false false, .cpu true,
    .begin (readCall 9 0x2000), .cpu true, .cpu true]

/-- The buffer of a read goes to the sector of an earlier write; after an error the HBA takes up no command; and
LBA28 gets another sector. -/
theorem slot_fails :
    (∃ ops s, Run (Step (oneDisk true)) start ops s ∧ s.moved = [⟨0, 3, true, 0x2000⟩] ∧
      s.last.map (fun x => x.2) = some (-1)) ∧
    (∃ ops s, Run (Step (oneDisk true)) start ops s ∧ s.last.map (fun x => (x.1.lba, x.2)) = some (9, -1) ∧
      (s.ports 0).ci = true ∧ (s.ports 0).stopped = true) ∧
    ∃ ops s, Run (Step (oneDisk false)) start ops s ∧
      s.last.map (fun x => (x.1.lba, x.2)) = some (0x10000003, 0) ∧ s.executed.map (fun x => x.lba) = [3] := by
  refine ⟨⟨slowOps, _, run_of_plays ?_, ?_⟩, ⟨errorOps, _, run_of_plays ?_, ?_⟩,
    ⟨readOps (readCall 0x10000003 0x2000) ++ [.cpu false], _, run_of_plays ?_, ?_⟩⟩
  all_goals decide

end Ezos.Ahci
