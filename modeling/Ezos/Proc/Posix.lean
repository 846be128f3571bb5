import Ezos.Proc.Files

/-!
# Files as byte arrays

`Posix` is an open file of the standard: an array of bytes with an offset, of 64 KB at most. The calls
of `fd.c` on a file are compared with it. They differ where a write in append mode fails, which has
moved the offset by then.
-/

namespace Ezos.Files

open Lib

set_option autoImplicit false

structure Posix where
  bytes : List U8
  offset : Nat
  append : Bool
  writable : Bool

def overlay (bytes : List U8) (start : Nat) (new : List U8) : List U8 :=
  bytes.take start ++ List.replicate (start - bytes.length) 0 ++ new ++ bytes.drop (start + new.length)

namespace Posix

def start (p : Posix) : Nat := if p.append then p.bytes.length else p.offset

def Refuses (p : Posix) (n : Nat) (mem : Offer) : Prop :=
  p.bytes.length < p.start + n ∧ (maxFdFile < p.start + n ∨ mem = none)

instance (p : Posix) (n : Nat) (mem : Offer) : Decidable (p.Refuses n mem) :=
  decidable_of_iff (p.bytes.length < p.start + n ∧ (maxFdFile < p.start + n ∨ mem.isNone))
    (by rw [Option.isNone_iff_eq_none, Refuses])

def target (p : Posix) (offset : Int) (whence : Int) : Option Int :=
  if whence = 0 then some offset
  else if whence = 1 then some (p.offset + offset)
  else if whence = 2 then some (p.bytes.length + offset)
  else none

def call (p : Posix) : Call → Answer × Posix
  | .read n =>
    let got := (p.bytes.drop p.offset).take n
    (.returns got.length got, { p with offset := p.offset + got.length })
  | .write data mem =>
    if p.writable = false then (.returns (-1) [], p)
    else if data = [] then (.returns 0 [], p)
    else if p.Refuses data.length mem then (.returns (-1) [], p)
    else (.returns data.length [],
      { p with bytes := overlay p.bytes p.start data, offset := p.start + data.length })
  | .lseek offset whence =>
    match p.target offset.toInt whence with
    | none => (.returns (-1) [], p)
    | some x =>
      if x < 0 ∨ maxFdFile < x then (.returns (-1) [], p) else (.returns x [], { p with offset := x.toNat })

def run (p : Posix) : List Call → List Answer × Posix
  | [] => ([], p)
  | c :: cs => ((p.call c).1 :: ((p.call c).2.run cs).1, ((p.call c).2.run cs).2)

def Keeps (p : Posix) : Call → Prop
  | .write data mem => p.append = true → p.writable = true → data ≠ [] → p.Refuses data.length mem →
    p.offset = p.bytes.length
  | _ => True

theorem call_refused {p : Posix} {c : Call} (h : (p.call c).1 = .returns (-1) []) : (p.call c).2 = p := by
  cases c with
  | read n =>
    simp only [call, Answer.returns.injEq] at h
    omega
  | write data mem =>
    simp only [call] at h ⊢
    split
    · rfl
    · rename_i hw
      rw [if_neg hw] at h
      split
      · rfl
      · rename_i hne
        rw [if_neg hne] at h
        split
        · rfl
        · rename_i hr
          rw [if_neg hr, Answer.returns.injEq] at h
          omega
  | lseek offset whence =>
    simp only [call] at h ⊢
    split
    · rfl
    · rename_i x hx
      simp only [hx] at h
      split
      · rfl
      · rename_i hin
        rw [if_neg hin, Answer.returns.injEq] at h
        omega

end Posix

variable {s s' : State} {t : TaskId} {f : Fd} {c : Call} {h : Heap} {e : Entry} {n : Nat} {mem : Offer}
  {bytes new : List U8}

def Entry.posix (h : Heap) (e : Entry) : Posix := ⟨content h e, e.offset, e.append, e.writable⟩

def State.posix (s : State) (t : TaskId) (f : Fd) : Posix := (s.tables t f).posix s.heap

theorem patch_overlay (bytes new : List U8) (start : Nat) :
    patch (bytes ++ List.replicate (start + new.length - bytes.length) 0) start new =
      overlay bytes start new := by
  have htake : (bytes ++ List.replicate (start + new.length - bytes.length) 0).take start =
      bytes.take start ++ List.replicate (start - bytes.length) 0 := by
    rw [List.take_append, List.take_replicate]
    congr 2
    omega
  have hdrop : (bytes ++ List.replicate (start + new.length - bytes.length) 0).drop (start + new.length) =
      bytes.drop (start + new.length) := by
    rw [List.drop_append, List.drop_replicate, Nat.sub_self]
    simp
  rw [patch, htake, hdrop, overlay]

/-! ### One call -/

theorem fileRead_posix (he : e.Ok h) : ∃ r bytes e', fileRead h e n = some (r, bytes, e') ∧
    (.returns r bytes, e'.posix h) = (e.posix h).call (.read n) :=
  ⟨_, _, _, fileRead_eq he, rfl⟩

theorem refuses_posix (he : e.Ok h) :
    e.aimed.refuses n mem ↔ (e.posix h).Refuses n mem := by
  unfold Entry.refuses Posix.Refuses
  rw [aimed_size, aimed_offset, Posix.start, Entry.posix, he.content_length]

theorem fileWrite_posix (he : e.Ok h) (hadm : Admits new.length) (hfresh : Fresh h mem) :
    ∃ r h' e', fileWrite h e new mem = some (r, h', e') ∧
      ((.returns r [], e'.posix h') = (e.posix h).call (.write new mem) ↔
        (e.posix h).Keeps (.write new mem)) := by
  by_cases hw : e.writable = true
  · by_cases hne : new = []
    · refine ⟨0, h, e, ?_, iff_of_true ?_ fun _ _ hne' => absurd hne hne'⟩
      · rw [fileWrite, hw, if_neg (by simp), if_pos hne]
      · simp [Posix.call, Entry.posix, hw, hne]
    · have hcall : (e.posix h).call (.write new mem) =
          if (e.posix h).Refuses new.length mem then (.returns (-1) [], e.posix h)
          else (.returns new.length [], { e.posix h with
            bytes := overlay (content h e) (e.posix h).start new
            offset := (e.posix h).start + new.length }) := by
        have hw' : ¬(e.posix h).writable = false := by simp [Entry.posix, hw]
        rw [Posix.call, if_neg hw', if_neg hne]
        rfl
      obtain ⟨hbad, hgood⟩ := fileWrite_cases he hadm hfresh hw hne
      by_cases hr : e.aimed.refuses new.length mem
      · have hr' := (refuses_posix he).mp hr
        refine ⟨_, _, _, hbad hr, ?_⟩
        rw [hcall, if_pos hr', Prod.mk.injEq, eq_self_iff_true, true_and]
        -- what is left of the call is the offset
        have hposix : e.aimed.posix h = e.posix h ↔ (e.append = true → e.offset = e.size) := by
          simp only [Entry.posix, Posix.mk.injEq, content_aimed, aimed_offset, aimed_append, aimed_writable,
            true_and, and_true]
          cases e.append with
          | false => simp
          | true => simp [eq_comm]
        rw [hposix]
        constructor
        · intro hoff happ _ _ _
          exact (hoff happ).trans he.content_length.symm
        · intro hk happ
          exact (hk happ hw hne hr').trans he.content_length
      · have hr' : ¬(e.posix h).Refuses new.length mem := fun hc => hr ((refuses_posix he).mpr hc)
        obtain ⟨h', e', hrun, -, hoff, happ, hwr, hcont⟩ := hgood hr
        refine ⟨_, _, _, hrun, iff_of_true ?_ fun _ _ _ hc => absurd hc hr'⟩
        have hstart : (e.posix h).start = e.aimed.offset := by
          rw [aimed_offset, Posix.start, Entry.posix, he.content_length]
        rw [hcall, if_neg hr', hstart, ← patch_overlay, he.content_length, ← hcont, ← hoff]
        simp only [Entry.posix, happ, hwr]
  · refine ⟨-1, h, e, ?_, iff_of_true ?_ fun _ hw' => absurd hw' hw⟩
    · rw [fileWrite, if_pos (by simp [hw])]
    · simp [Posix.call, Entry.posix, hw]

theorem seek_sum {base : Nat} (hbase : base ≤ maxFdFile) (o : U32) :
    ((BitVec.ofNat 32 base + o).toInt < 0 ∨ maxFdFile < (BitVec.ofNat 32 base + o).toNat ↔
      (base : Int) + o.toInt < 0 ∨ (maxFdFile : Int) < base + o.toInt) ∧
    (¬((base : Int) + o.toInt < 0 ∨ (maxFdFile : Int) < base + o.toInt) →
      (BitVec.ofNat 32 base + o).toInt = base + o.toInt ∧
        (BitVec.ofNat 32 base + o).toNat = (base + o.toInt).toNat) := by
  have hlt := o.isLt
  unfold maxFdFile at hbase ⊢
  rw [BitVec.toInt_eq_toNat_cond, BitVec.toInt_eq_toNat_cond, BitVec.toNat_add, BitVec.toNat_ofNat]
  omega

theorem fileLseek_posix (he : e.Ok h) (offset : U32) (whence : Int) :
    ((.returns (fileLseek e offset whence).1 [], (fileLseek e offset whence).2.posix h) : Answer × Posix) =
      (e.posix h).call (.lseek offset whence) := by
  have hsum : ∀ base : Nat, base ≤ maxFdFile →
      (let newoff : U32 := BitVec.ofNat 32 base + offset
       let r : Int × Entry :=
        if newoff.toInt < 0 then (-1, e)
        else if maxFdFile < newoff.toNat then (-1, e)
        else (newoff.toInt, { e with offset := newoff.toNat })
       ((.returns r.1 [], r.2.posix h) : Answer × Posix)) =
      (if (base : Int) + offset.toInt < 0 ∨ (maxFdFile : Int) < base + offset.toInt then
        (.returns (-1) [], e.posix h)
      else (.returns (base + offset.toInt) [], { e.posix h with offset := (base + offset.toInt).toNat })) := by
    intro base hbase
    obtain ⟨hiff, hval⟩ := seek_sum hbase offset
    dsimp only
    by_cases hin : (base : Int) + offset.toInt < 0 ∨ (maxFdFile : Int) < base + offset.toInt
    · rw [if_pos hin]
      rcases hiff.mpr hin with hneg | hbig
      · rw [if_pos hneg]
      · rw [if_pos hbig, ite_self]
    · obtain ⟨hint, hnat⟩ := hval hin
      obtain ⟨hneg, hbig⟩ := not_or.mp (hiff.not.mpr hin)
      rw [if_neg hin, if_neg hneg, if_neg hbig, hint, hnat]
      rfl
  simp only [fileLseek, Posix.call, Posix.target]
  by_cases h0 : whence = 0
  · have hz := hsum 0 (Nat.zero_le _)
    simp only [Int.natCast_zero, Int.zero_add] at hz
    simp only [if_pos h0]
    exact hz
  · by_cases h1 : whence = 1
    · simp only [if_neg h0, if_pos h1]
      exact hsum e.offset he.offset
    · by_cases h2 : whence = 2
      · have hs := hsum e.size he.size
        simp only [if_neg h0, if_neg h1, if_pos h2, Entry.posix, he.content_length] at hs ⊢
        exact hs
      · simp only [if_neg h0, if_neg h1, if_neg h2]

theorem fdOf_val (f : Fd) : Proc.fdOf f.val = some f := by
  have hf := f.isLt
  unfold Proc.fdOf
  rw [dif_pos ⟨by omega, by simp⟩]
  rfl

def CallStep (t : TaskId) (f : Fd) (s : State) (ca : Call × Answer) (s' : State) : Prop :=
  ca.1.Allowed s.heap ∧ s.call t f.val ca.1 = some (ca.2, s')

def KeepStep (t : TaskId) (f : Fd) (s : State) (ca : Call × Answer) (s' : State) : Prop :=
  CallStep t f s ca s' ∧ (s.posix t f).Keeps ca.1

theorem put_posix (h' : Heap) (e' : Entry) :
    (s.put h' t (Function.update (s.tables t) f e')).posix t f = e'.posix h' := by
  simp only [State.posix, State.put, Function.update_self]

theorem call_posix (hg : Good s) (hf : (s.tables t f).type = .file) (ha : c.Allowed s.heap) :
    ∃ a s', s.call t f.val c = some (a, s') ∧ Good s' ∧ (s'.tables t f).type = .file ∧
      ((a, s'.posix t f) = (s.posix t f).call c ↔ (s.posix t f).Keeps c) := by
  have he := hg.files t f hf
  have htype : ∀ (h' : Heap) (e' : Entry), e'.type = .file →
      ((s.put h' t (Function.update (s.tables t) f e')).tables t f).type = .file := by
    intro h' e' ht
    simp only [State.put, Function.update_self]
    exact ht
  cases c with
  | read n =>
    obtain ⟨r, bytes, e', hrun, hk⟩ := fileRead_kept (n := n) he
    obtain ⟨r', bytes', e'', hrun', hposix⟩ := fileRead_posix (n := n) he
    obtain ⟨rfl, rfl, rfl⟩ : r' = r ∧ bytes' = bytes ∧ e'' = e' := by
      simpa [hrun] using hrun'.symm
    refine ⟨.returns r' bytes', s.put s.heap t (Function.update (s.tables t) f e''), ?_,
      hg.kept fresh_none hf hk, htype _ _ (hk.type.trans hf), ?_⟩
    · simp only [State.call, fdRead, fdOf_val, hf, hrun, Option.map_some]
    · rw [put_posix]
      exact iff_of_true hposix trivial
  | write data mem =>
    obtain ⟨r, h', e', hrun, hk⟩ := fileWrite_kept he ha.1 ha.2
    obtain ⟨r', h'', e'', hrun', hposix⟩ := fileWrite_posix he ha.1 ha.2
    obtain ⟨rfl, rfl, rfl⟩ : r' = r ∧ h'' = h' ∧ e'' = e' := by
      simpa [hrun] using hrun'.symm
    refine ⟨.returns r' [], s.put h'' t (Function.update (s.tables t) f e''), ?_, hg.kept ha.2 hf hk,
      htype _ _ (hk.type.trans hf), ?_⟩
    · simp only [State.call, fdWrite, fdOf_val, hf, hrun, Option.map_some]
    · rw [put_posix]
      exact hposix
  | lseek offset whence =>
    have hk := fileLseek_kept he offset whence
    refine ⟨.returns (fileLseek (s.tables t f) offset whence).1 [], s.put s.heap t (Function.update (s.tables t) f
      (fileLseek (s.tables t f) offset whence).2), ?_, hg.kept fresh_none hf hk, htype _ _ (hk.type.trans hf), ?_⟩
    · simp only [State.call, fdLseek, fdOf_val, if_pos hf]
    · rw [put_posix]
      exact iff_of_true (fileLseek_posix he offset whence) trivial

theorem keepStep_posix {a : Answer} (hg : Good s) (hf : (s.tables t f).type = .file)
    (h : KeepStep t f s (c, a) s') :
    Good s' ∧ (s'.tables t f).type = .file ∧ (a, s'.posix t f) = (s.posix t f).call c := by
  obtain ⟨a', s'', hrun, hg', hf', hiff⟩ := call_posix hg hf h.1.1
  obtain ⟨rfl, rfl⟩ := Prod.mk.inj (Option.some.inj (hrun.symm.trans h.1.2))
  exact ⟨hg', hf', hiff.mpr h.2⟩

theorem keepSteps_posix {trace : List (Call × Answer)} (hg : Good s) (hf : (s.tables t f).type = .file)
    (h : Run (KeepStep t f) s trace s') :
    Good s' ∧ (s'.tables t f).type = .file ∧
      (trace.map Prod.snd, s'.posix t f) = (s.posix t f).run (trace.map Prod.fst) := by
  induction h with
  | nil => exact ⟨hg, hf, rfl⟩
  | @cons s s₁ s' ca trace hs _ ih =>
    obtain ⟨c, a⟩ := ca
    obtain ⟨hg₁, hf₁, hcall⟩ := keepStep_posix hg hf hs
    obtain ⟨hg', hf', hrun⟩ := ih hg₁ hf₁
    refine ⟨hg', hf', ?_⟩
    rw [List.map_cons, List.map_cons, Posix.run, ← hcall, ← hrun]

/-- On a file of a task all calls answer and leave what they do on an array of bytes, until a write in
append mode fails while the offset is not at the end: that call, and no other, does not agree. A call
that agrees and returns -1 changes nothing. -/
theorem run_posix {ops : List Op} {trace : List (Call × Answer)} (h : Run CleanStep boot ops s)
    (hf : (s.tables t f).type = .file) (hcalls : Run (KeepStep t f) s trace s') :
    (trace.map Prod.snd, s'.posix t f) = (s.posix t f).run (trace.map Prod.fst) ∧
      ∀ c, c.Allowed s'.heap → ∃ a s'', s'.call t f.val c = some (a, s'') ∧
        ((a, s''.posix t f) = (s'.posix t f).call c ↔ (s'.posix t f).Keeps c) ∧
        ((s'.posix t f).Keeps c → a = .returns (-1) [] → s''.posix t f = s'.posix t f) := by
  obtain ⟨hg, hf', hrun⟩ := keepSteps_posix (good_of_run h) hf hcalls
  refine ⟨hrun, fun c ha => ?_⟩
  obtain ⟨a, s'', hcall, -, -, hiff⟩ := call_posix hg hf' ha
  refine ⟨a, s'', hcall, hiff, fun hk hbad => ?_⟩
  have hcall' := hiff.mpr hk
  have hans : ((s'.posix t f).call c).1 = .returns (-1) [] := by rw [← hcall', hbad]
  rw [← Posix.call_refused hans, ← hcall']

def fd3 : Fd := ⟨3, by decide⟩

def written : State := ((opened.call parent 3 (.write [9] none)).map Prod.snd).getD opened

theorem run_posix_written :
    written.posix parent fd3 = ((opened.posix parent fd3).run [.write [9] none]).2 := by
  have hstep : KeepStep parent fd3 opened (.write [9] none, .returns 1 []) written :=
    ⟨⟨⟨by decide, fresh_none⟩, rfl⟩, fun happ => absurd happ (by decide)⟩
  have hrun := (run_posix (.cons opened_step (.nil _)) (by decide) (.cons hstep (.nil _))).1
  exact (Prod.mk.inj hrun).2

/-- `open("a", O_RDWR | O_APPEND)` on two bytes. -/
def openLog : Op := .open parent [97] (oRdwr ||| oAppend) ⟨2, [1, 2]⟩ (some (0, fun _ => 0))

def log : State := (boot.run openLog).getD boot

/-- A write of a byte finds no memory: it returns -1, and the offset is 2 where it was 0. -/
theorem log_write : Run Step boot [openLog] log ∧ (log.posix parent fd3).offset = 0 ∧
    ∃ s', log.call parent 3 (.write [9] none) = some (.returns (-1) [], s') ∧
      (s'.posix parent fd3).offset = 2 ∧
      ((log.posix parent fd3).call (.write [9] none)).2.offset = 0 :=
  ⟨.cons ⟨fun _ _ _ => rfl, rfl⟩ (.nil _), by decide, _, rfl, by decide, by decide⟩

end Ezos.Files
