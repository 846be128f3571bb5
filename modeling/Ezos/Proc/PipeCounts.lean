import Ezos.Proc.Process

/-!
# Counting pipe ends

An end that `fd_close` has counted down is no longer held, even while its entry is still there. Every
operation on a table moves a reference count and the number of held ends by the same amount, except
that a count at its maximum stays there.
-/

namespace Ezos.Proc

open Lib Lib.Tally

set_option autoImplicit false

def Entry.weight (p : PipeId) (w : Bool) (e : Entry) : Nat :=
  if e.type = .pipe ∧ e.data = some p ∧ e.writable = w then 1 else 0

def ends (p : PipeId) (w : Bool) (T : Table) : Nat := total (Entry.weight p w) T

def Task.held (k : Task) : Table :=
  match k.pc with
  | .closing f => Function.update k.fds f .free
  | _ => k.fds

def Task.openEnds (p : PipeId) (w : Bool) (k : Task) : Nat :=
  if k.life = .unused then 0 else ends p w k.held

def State.openEnds (s : State) (p : PipeId) (w : Bool) : Nat := total (Task.openEnds p w) s.tasks

variable {ps : Pipes} {T : Table} {p : PipeId} {w : Bool} {e : Entry} {q : Pipe} {f : Fd}

theorem weight_le : e.weight p w ≤ 1 := by
  unfold Entry.weight
  split <;> omega

theorem weight_of_not_pipe (h : e.type ≠ .pipe) : e.weight p w = 0 := if_neg fun h' => h h'.1

@[simp] theorem weight_free : Entry.free.weight p w = 0 := rfl

theorem weight_pipeEnd {p' : PipeId} {w' : Bool} :
    (Entry.pipeEnd p' w').weight p w = if p' = p ∧ w' = w then 1 else 0 := by
  simp only [Entry.weight, Entry.pipeEnd, true_and, Option.some.injEq]

theorem weight_of_data (h : e.type = .pipe) {p' : PipeId} (hd : e.data = some p') :
    e.weight p w = if p' = p ∧ e.writable = w then 1 else 0 := by
  simp only [Entry.weight, h, hd, true_and, Option.some.injEq]

theorem weight_of_no_data (hd : e.data = none) : e.weight p w = 0 := by
  simp only [Entry.weight, hd, reduceCtorEq, false_and, and_false, if_false]

theorem ends_update : ends p w (Function.update T f e) + (T f).weight p w = ends p w T + e.weight p w :=
  total_update

theorem ends_clear : ends p w (Function.update T f .free) + (T f).weight p w = ends p w T := by
  have h := ends_update (p := p) (w := w) (T := T) (f := f) (e := .free)
  rwa [weight_free, Nat.add_zero] at h

theorem ref_drop {w' : Bool} : (q.drop w').ref w = q.ref w - if w' = w then 1 else 0 := by
  cases w <;> cases w' <;> simp only [Pipe.drop, Pipe.ref, Bool.false_eq_true, if_true, if_false,
    reduceCtorEq, Nat.sub_zero]
  all_goals split <;> omega

theorem ref_bump (h : q.ref w ≤ 0xFFFF) {w' : Bool} :
    (q.bump w').ref w = min (q.ref w + if w' = w then 1 else 0) 0xFFFF := by
  revert h
  cases w <;> cases w' <;> simp only [Pipe.bump, Pipe.ref, Bool.false_eq_true, if_true, if_false,
    reduceCtorEq, Nat.add_zero]
  all_goals intro h; first | omega | split <;> omega

theorem used_drop {w' : Bool} : (q.drop w').used = q.used := by
  unfold Pipe.drop
  split <;> rfl

theorem used_bump {w' : Bool} : (q.bump w').used = q.used := by
  unfold Pipe.bump
  split <;> rfl

structure PipeOk (q : Pipe) : Prop where
  used_iff : q.used = true ↔ q.ref false ≠ 0 ∨ q.ref true ≠ 0
  fits : ∀ w, q.ref w ≤ 0xFFFF

theorem PipeOk.ref_of_free (h : PipeOk q) (hu : q.used = false) : q.ref w = 0 := by
  have hn : ¬(q.ref false ≠ 0 ∨ q.ref true ≠ 0) := fun h' => by
    rw [h.used_iff.mpr h'] at hu
    cases hu
  cases w <;> omega

theorem pipeOk_bss : PipeOk bssPipe := ⟨by decide, by decide⟩

theorem pipeOk_free : PipeOk (pipeFree q) :=
  ⟨⟨fun h => (by cases h), fun h => (by rcases h with h | h <;> exact absurd rfl h)⟩,
    fun w => by cases w <;> exact Nat.zero_le _⟩

theorem ref_pipeClose (h : e.type = .pipe) :
    (pipeClose ps e p).ref w = (ps p).ref w - e.weight p w := by
  unfold pipeClose
  cases hd : e.data with
  | none => rw [weight_of_no_data hd, Nat.sub_zero]
  | some p' =>
    rw [weight_of_data h hd]
    by_cases hp : p' = p
    · subst hp
      simp only [Function.update_self, true_and]
      rw [← ref_drop]
      split
      · rename_i h0
        cases w
        · exact h0.1.symm
        · exact h0.2.symm
      · rfl
    · rw [if_neg fun h' => hp h'.1]
      simp only [Function.update_of_ne (Ne.symm hp), Nat.sub_zero]

theorem pipeOk_pipeClose (h : ∀ p, PipeOk (ps p)) (p : PipeId) : PipeOk (pipeClose ps e p) := by
  unfold pipeClose
  cases e.data with
  | none => exact h p
  | some p' =>
    by_cases hp : p = p'
    · subst hp
      simp only [Function.update_self]
      split
      · exact pipeOk_free
      · rename_i hne
        have hsub : ∀ w, ((ps p).drop e.writable).ref w ≤ (ps p).ref w := fun w => by
          rw [ref_drop]
          exact Nat.sub_le _ _
        have hnz : ((ps p).drop e.writable).ref false ≠ 0 ∨ ((ps p).drop e.writable).ref true ≠ 0 := by
          by_cases h0 : ((ps p).drop e.writable).ref false = 0
          · exact .inr fun h1 => hne ⟨h0, h1⟩
          · exact .inl h0
        refine ⟨?_, fun w => (hsub w).trans ((h p).fits w)⟩
        rw [used_drop, (h p).used_iff]
        refine iff_of_true ?_ hnz
        rcases hnz with h0 | h0
        · exact .inl fun h' => h0 (Nat.le_zero.mp (h' ▸ hsub false))
        · exact .inr fun h' => h0 (Nat.le_zero.mp (h' ▸ hsub true))
    · simp only [Function.update_of_ne hp]
      exact h p

def Balanced (ps : Pipes) (n : PipeId → Bool → Nat) (ps' : Pipes) (n' : PipeId → Bool → Nat) : Prop :=
  ∀ p w, (ps' p).ref w + n p w = (ps p).ref w + n' p w

def Covers (ps : Pipes) (n : PipeId → Bool → Nat) : Prop := ∀ p w, n p w ≤ (ps p).ref w

def tableEnds (T : Table) (p : PipeId) (w : Bool) : Nat := ends p w T

theorem Balanced.trans {ps' ps'' : Pipes} {n n' n'' : PipeId → Bool → Nat} (h : Balanced ps n ps' n')
    (h' : Balanced ps' n' ps'' n'') : Balanced ps n ps'' n'' := by
  intro p w
  have := h p w
  have := h' p w
  omega

theorem Balanced.covers {ps' : Pipes} {n n' : PipeId → Bool → Nat} (h : Balanced ps n ps' n')
    (hc : Covers ps n) : Covers ps' n' := by
  intro p w
  have := h p w
  have := hc p w
  omega

theorem weight_le_ends : (T f).weight p w ≤ ends p w T := le_total f

theorem balanced_pipeClose (h : (T f).type = .pipe) (hc : Covers ps (tableEnds T)) :
    Balanced ps (tableEnds T) (pipeClose ps (T f)) (tableEnds (Function.update T f .free)) := by
  intro p w
  have hle : (T f).weight p w ≤ (ps p).ref w := (weight_le_ends (f := f)).trans (hc p w)
  have hends := ends_clear (p := p) (w := w) (T := T) (f := f)
  rw [ref_pipeClose h]
  unfold tableEnds
  omega

theorem balanced_clear (h : (T f).type ≠ .pipe) :
    Balanced ps (tableEnds T) ps (tableEnds (Function.update T f .free)) := by
  intro p w
  have hends := ends_clear (p := p) (w := w) (T := T) (f := f)
  rw [weight_of_not_pipe h] at hends
  unfold tableEnds
  omega

theorem balanced_closeEntry (hc : Covers ps (tableEnds T)) (rc : Int) :
    Balanced ps (tableEnds T) (closeEntry ps T f rc).2.1 (tableEnds (closeEntry ps T f rc).2.2) := by
  unfold closeEntry
  split
  · rename_i h
    exact balanced_pipeClose h hc
  · rename_i h
    refine balanced_clear fun h' => ?_
    rw [h] at h'
    cases h'
  · exact fun _ _ => rfl

theorem balanced_fdClose (hc : Covers ps (tableEnds T)) (fd rc : Int) :
    Balanced ps (tableEnds T) (fdClose ps T fd rc).2.1 (tableEnds (fdClose ps T fd rc).2.2) := by
  unfold fdClose
  split
  · exact fun _ _ => rfl
  · exact balanced_closeEntry hc rc

theorem balanced_closeAll (fs : List Fd) (hc : Covers ps (tableEnds T)) :
    Balanced ps (tableEnds T) (closeAll ps T fs).1 (tableEnds (closeAll ps T fs).2) := by
  induction fs generalizing ps T with
  | nil => exact fun _ _ => rfl
  | cons f fs ih =>
    have h := balanced_closeEntry (f := f) hc 0
    exact h.trans (ih (h.covers hc))

theorem pipeOk_closeEntry (h : ∀ p, PipeOk (ps p)) (rc : Int) (p : PipeId) :
    PipeOk ((closeEntry ps T f rc).2.1 p) := by
  unfold closeEntry
  split
  · exact pipeOk_pipeClose h p
  · exact h p
  · exact h p

theorem pipeOk_fdClose {fd rc : Int} (h : ∀ p, PipeOk (ps p)) (p : PipeId) :
    PipeOk ((fdClose ps T fd rc).2.1 p) := by
  unfold fdClose
  split
  · exact h p
  · exact pipeOk_closeEntry h rc p

theorem pipeOk_closeAll (fs : List Fd) (h : ∀ p, PipeOk (ps p)) (p : PipeId) :
    PipeOk ((closeAll ps T fs).1 p) := by
  induction fs generalizing ps T with
  | nil => exact h p
  | cons f fs ih => exact ih (pipeOk_closeEntry h 0)

theorem closeEntry_of_ne {g : Fd} (h : g ≠ f) (rc : Int) : (closeEntry ps T f rc).2.2 g = T g := by
  unfold closeEntry
  split
  · exact Function.update_of_ne h _ _
  · exact Function.update_of_ne h _ _
  · rfl

theorem closeAll_of_not_mem {g : Fd} (fs : List Fd) (h : g ∉ fs) : (closeAll ps T fs).2 g = T g := by
  induction fs generalizing ps T with
  | nil => rfl
  | cons f fs ih =>
    have hne := List.ne_of_not_mem_cons h
    exact (ih (List.not_mem_of_not_mem_cons h)).trans (closeEntry_of_ne hne 0)

theorem closeEntry_self (rc : Int) : ((closeEntry ps T f rc).2.2 f).type ≠ .pipe := by
  have hclear : (Function.update T f .free f).type ≠ .pipe := by
    rw [Function.update_self]
    exact FdType.noConfusion
  unfold closeEntry
  split
  · exact hclear
  · exact hclear
  · assumption

theorem closeEntry_not_pipe {g : Fd} (rc : Int) (h : (T g).type ≠ .pipe) :
    ((closeEntry ps T f rc).2.2 g).type ≠ .pipe := by
  by_cases hg : g = f
  · subst hg
    exact closeEntry_self rc
  · rwa [closeEntry_of_ne hg]

theorem closeAll_not_pipe {g : Fd} (fs : List Fd) (h : (T g).type ≠ .pipe ∨ g ∈ fs) :
    ((closeAll ps T fs).2 g).type ≠ .pipe := by
  induction fs generalizing ps T with
  | nil => exact h.resolve_right List.not_mem_nil
  | cons f fs ih =>
    apply ih
    rcases h with h | h
    · exact .inl (closeEntry_not_pipe 0 h)
    · rcases List.mem_cons.mp h with rfl | h
      · exact .inl (closeEntry_self 0)
      · exact .inr h

theorem dupEntry_cases (ps : Pipes) (e : Entry) :
    (∃ p, e.type = .pipe ∧ e.data = some p ∧
      dupEntry ps e = Function.update ps p ((ps p).bump e.writable)) ∨
    (dupEntry ps e = ps ∧ ∀ p w, e.weight p w = 0) := by
  by_cases ht : e.type = .pipe
  · cases hd : e.data with
    | none => exact .inr ⟨by simp only [dupEntry, ht, hd], fun p w => weight_of_no_data hd⟩
    | some p => exact .inl ⟨p, ht, rfl, by simp only [dupEntry, ht, hd]⟩
  · refine .inr ⟨?_, fun p w => weight_of_not_pipe ht⟩
    unfold dupEntry
    split
    · exact absurd ‹_› ht
    · rfl

theorem ref_dupEntry (h : (ps p).ref w ≤ 0xFFFF) :
    (dupEntry ps e p).ref w = min ((ps p).ref w + e.weight p w) 0xFFFF := by
  rcases dupEntry_cases ps e with ⟨p', ht, hd, he⟩ | ⟨he, hw⟩
  · rw [weight_of_data ht hd, he]
    by_cases hp : p' = p
    · subst hp
      simp only [Function.update_self, true_and]
      exact ref_bump h
    · rw [if_neg fun h' => hp h'.1, Function.update_of_ne (Ne.symm hp)]
      omega
  · rw [he, hw]
    omega

theorem ref_dupAll (h : (ps p).ref w ≤ 0xFFFF) (fs : List Fd) :
    (dupAll ps T fs p).ref w =
      min ((ps p).ref w + (fs.map fun f => (T f).weight p w).sum) 0xFFFF := by
  induction fs generalizing ps with
  | nil =>
    simp only [dupAll, List.map_nil, List.sum_nil]
    omega
  | cons f fs ih =>
    have he := ref_dupEntry (e := T f) h
    simp only [dupAll, List.map_cons, List.sum_cons]
    rw [ih (by omega), he]
    omega

theorem ref_fdTableDup (h : (ps p).ref w ≤ 0xFFFF) :
    ((fdTableDup ps T).1 p).ref w = min ((ps p).ref w + ends p w T) 0xFFFF := by
  have hsum : ends p w T = ((List.finRange maxOpenFds).map fun f => (T f).weight p w).sum :=
    Fin.sum_univ_def _
  rw [hsum]
  exact ref_dupAll h _

theorem init_not_pipe (f : Fd) : (fdTableInit f).type ≠ .pipe := by
  revert f
  decide

theorem ends_of_no_pipe (h : ∀ f, (T f).type ≠ .pipe) : ends p w T = 0 :=
  total_eq_zero.mpr fun f => weight_of_not_pipe (h f)

theorem ends_init : ends p w fdTableInit = 0 := ends_of_no_pipe init_not_pipe

theorem ends_fdTableDup : ends p w (fdTableDup ps T).2 = ends p w T := by
  refine total_congr fun f => ?_
  simp only [fdTableDup]
  split
  · rename_i hf
    have hT : (T f).type ≠ .pipe := fun h' => by
      rw [hf] at h'
      cases h'
    rw [weight_of_not_pipe (init_not_pipe f), weight_of_not_pipe hT]
  · rfl

theorem dup_not_pipe (h : (T f).type ≠ .pipe) : ((fdTableDup ps T).2 f).type ≠ .pipe := by
  simp only [fdTableDup]
  split
  · exact init_not_pipe f
  · exact h

theorem pipeOk_dupEntry (h : ∀ p, PipeOk (ps p)) (p : PipeId) (hu : ∀ p, e.type = .pipe →
    e.data = some p → (ps p).used = true) : PipeOk (dupEntry ps e p) := by
  rcases dupEntry_cases ps e with ⟨p', ht, hd, he⟩ | ⟨he, -⟩
  · rw [he]
    by_cases hp : p = p'
    · subst hp
      rw [Function.update_self]
      have href : ∀ w', ((ps p).bump e.writable).ref w' =
          min ((ps p).ref w' + if e.writable = w' then 1 else 0) 0xFFFF :=
        fun w' => ref_bump ((h p).fits w')
      refine ⟨?_, fun w' => ?_⟩
      · rw [used_bump]
        refine iff_of_true (hu p ht hd) ?_
        rcases (h p).used_iff.mp (hu p ht hd) with h0 | h0
        · exact .inl (by rw [href]; omega)
        · exact .inr (by rw [href]; omega)
      · rw [href]
        omega
    · rw [Function.update_of_ne hp]
      exact h p
  · rw [he]
    exact h p

theorem used_dupEntry {p : PipeId} : (dupEntry ps e p).used = (ps p).used := by
  rcases dupEntry_cases ps e with ⟨p', -, -, he⟩ | ⟨he, -⟩
  · rw [he]
    by_cases hp : p = p'
    · subst hp
      rw [Function.update_self, used_bump]
    · rw [Function.update_of_ne hp]
  · rw [he]

theorem pipeOk_dupAll (fs : List Fd) (h : ∀ p, PipeOk (ps p)) (hu : ∀ f p, (T f).type = .pipe →
    (T f).data = some p → (ps p).used = true) (p : PipeId) : PipeOk (dupAll ps T fs p) := by
  induction fs generalizing ps with
  | nil => exact h p
  | cons f fs ih =>
    refine ih (fun p => pipeOk_dupEntry h p fun p => hu f p) fun g p ht hd => ?_
    rw [used_dupEntry]
    exact hu g p ht hd

def newPipe : Pipe := { bssPipe with used := true, refR := 1, refW := 1 }

theorem pipeOk_newPipe : PipeOk newPipe := ⟨by decide, by decide⟩

theorem pipeAlloc_eq_some {mem : Bool} {ps' : Pipes} (h : pipeAlloc ps mem = some (p, ps')) :
    (ps p).used = false ∧ ps' = Function.update ps p { bssPipe with used := true } := by
  unfold pipeAlloc at h
  split at h
  · cases h
  · rename_i i hi
    have hfree := List.find?_some hi
    split at h
    · cases h
      exact ⟨by simpa using hfree, rfl⟩
    · cases h

/-- What `fd_pipe` does: nothing, a free pipe taken and given back, or two ends of a free pipe in
two free slots after the standard streams. -/
theorem fdPipe_cases (ps : Pipes) (T : Table) (mem : Bool) :
    fdPipe ps T mem = (none, ps, T) ∨
    (∃ p, (ps p).used = false ∧ ∃ q, fdPipe ps T mem = (none, Function.update ps p (pipeFree q), T)) ∨
    ∃ p r v, (ps p).used = false ∧ r ≠ v ∧ (T r).type = .free ∧ (T v).type = .free ∧
      r ∈ userFds ∧ v ∈ userFds ∧
      fdPipe ps T mem = (some (r, v, p), Function.update ps p newPipe,
        Function.update (Function.update T r (.pipeEnd p false)) v (.pipeEnd p true)) := by
  cases ha : pipeAlloc ps mem with
  | none =>
    refine .inl ?_
    simp only [fdPipe, ha]
  | some pp =>
    obtain ⟨p, ps'⟩ := pp
    obtain ⟨hu, rfl⟩ := pipeAlloc_eq_some ha
    rcases hf : freeFds T with _ | ⟨r, _ | ⟨v, vs⟩⟩
    · refine .inr (.inl ⟨p, hu, { bssPipe with used := true }, ?_⟩)
      simp only [fdPipe, ha, hf, Function.update_idem, Function.update_self]
    · refine .inr (.inl ⟨p, hu, { bssPipe with used := true }, ?_⟩)
      simp only [fdPipe, ha, hf, Function.update_idem, Function.update_self]
    · have hr : r ∈ freeFds T := hf ▸ List.mem_cons_self
      have hv : v ∈ freeFds T := hf ▸ List.mem_cons_of_mem r List.mem_cons_self
      have hnd : (freeFds T).Nodup := ((List.nodup_finRange _).filter _).filter _
      rw [hf] at hnd
      have hne : r ≠ v := fun h' => (List.nodup_cons.mp hnd).1 (h' ▸ List.mem_cons_self)
      obtain ⟨hr, hrf⟩ := List.mem_filter.mp hr
      obtain ⟨hv, hvf⟩ := List.mem_filter.mp hv
      refine .inr (.inr ⟨p, r, v, hu, hne, of_decide_eq_true hrf, of_decide_eq_true hvf, hr, hv, ?_⟩)
      simp only [fdPipe, ha, hf, Function.update_idem, Function.update_self]
      rfl

end Ezos.Proc
