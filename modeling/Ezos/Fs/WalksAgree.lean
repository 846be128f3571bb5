import Ezos.Fs.Paths

/-!
# The walker for names and the walker for the current directory

`resolve_dir` keeps a stack of its own, refuses '..' at its start, and ends at the first component of
more than 127 bytes. `change_dir` uses the stack of the current directory, keeps '..' in the root, goes on
after a long component, and stops when the path string or the stack is full.
-/

namespace Ezos.Fs

open Lib.Segments

set_option autoImplicit false

variable {find : Find} {s : Cwd} {path name c : Str} {cs : List Str} {w : Walk} {cur m : U32}
  {stack base : List U32} {d : Nat}

/-- The components as far as `resolve_dir` reads them. -/
def cutSegs : List Str → List Str
  | [] => []
  | c :: cs => if c.length > 127 then [c] else c :: cutSegs cs

def level : Nat → List Str → Bool
  | _, [] => true
  | d, c :: cs =>
    if isDot (comp c) then level d cs
    else if isDotDot (comp c) then
      match d with
      | 0 => false
      | d + 1 => level d cs
    else decide (d < 31) && level (d + 1) cs

/-- The stack and the path string have room for every component, `d` levels below the root and with
the string `p` at the start. -/
def room : Nat → Str → List Str → Bool
  | _, _, [] => true
  | d, p, c :: cs =>
    if isDotDot (comp c) then
      match d with
      | 0 => room 0 p cs
      | d + 1 => room d (popPath p) cs
    else if isDot (comp c) then room d p cs
    else decide (d < 31) && decide (p.length + (comp c).length + 1 < 256) &&
      room (d + 1) (pushPath p (comp c)) cs

def everywhere : Find := fun _ _ => some (2, true)

theorem long_not_dots (h : c.length > 127) : isDot (comp c) = false ∧ isDotDot (comp c) = false := by
  have hlen : (comp c).length = 127 := by
    rw [comp, List.length_take]
    omega
  constructor
  · refine Bool.eq_false_iff.mpr fun hd => ?_
    rw [LawfulBEq.eq_of_beq hd] at hlen
    contradiction
  · refine Bool.eq_false_iff.mpr fun hd => ?_
    rw [LawfulBEq.eq_of_beq hd] at hlen
    contradiction

theorem not_isDotDot_of_isDot (h : isDot c = true) : isDotDot c = false := by
  rw [show c = [dot] from LawfulBEq.eq_of_beq h]
  decide

theorem resolveSegs_of_not_level (h : level stack.length (cutSegs cs) = false) :
    resolveSegs find stack cur cs = none := by
  induction cs generalizing stack cur with
  | nil => contradiction
  | cons c cs ih =>
    unfold cutSegs at h
    unfold resolveSegs
    by_cases hlong : c.length > 127
    · obtain ⟨hdot, hdd⟩ := long_not_dots hlong
      rw [if_pos hlong] at h
      simp only [level, hdot, hdd, Bool.and_true] at h
      simp only [hdot, hdd]
      rw [if_neg Bool.false_ne_true, if_neg Bool.false_ne_true, if_pos (by simpa using h)]
    · rw [if_neg hlong] at h
      unfold level at h
      by_cases hdot : isDot (comp c) = true
      · rw [if_pos hdot] at h ⊢
        exact ih h
      rw [if_neg hdot] at h ⊢
      by_cases hdd : isDotDot (comp c) = true
      · rw [if_pos hdd] at h ⊢
        cases stack with
        | nil => rfl
        | cons up stack => exact ih h
      rw [if_neg hdd] at h ⊢
      by_cases hdeep : stack.length ≥ 31
      · rw [if_pos hdeep]
      rw [if_neg hdeep]
      rw [decide_eq_true (by omega), Bool.true_and] at h
      cases find cur (comp c) with
      | none => rfl
      | some e =>
        obtain ⟨m, _ | _⟩ := e
        · rfl
        · dsimp only
          rw [if_neg hlong]
          exact ih h

theorem resolveSegs_everywhere (h : level stack.length (cutSegs cs) = true) :
    ∃ m, resolveSegs everywhere stack cur cs = some m := by
  induction cs generalizing stack cur with
  | nil => exact ⟨cur, rfl⟩
  | cons c cs ih =>
    unfold cutSegs at h
    unfold resolveSegs
    by_cases hlong : c.length > 127
    · obtain ⟨hdot, hdd⟩ := long_not_dots hlong
      rw [if_pos hlong] at h
      simp only [level, hdot, hdd, Bool.and_true] at h
      rw [hdot, hdd, if_neg Bool.false_ne_true, if_neg Bool.false_ne_true,
        if_neg (Nat.not_le_of_lt (by simpa using h))]
      exact ⟨2, by simp only [everywhere]; rw [if_pos hlong]⟩
    · rw [if_neg hlong] at h
      unfold level at h
      by_cases hdot : isDot (comp c) = true
      · rw [if_pos hdot] at h ⊢
        exact ih h
      rw [if_neg hdot] at h ⊢
      by_cases hdd : isDotDot (comp c) = true
      · rw [if_pos hdd] at h ⊢
        cases stack with
        | nil => contradiction
        | cons up stack => exact ih h
      rw [if_neg hdd] at h ⊢
      rw [Bool.and_eq_true, decide_eq_true_eq] at h
      rw [if_neg (Nat.not_le_of_lt h.1)]
      simp only [everywhere]
      rw [if_neg hlong]
      exact ih h.2

/-! ## The walker for the current directory -/

theorem changeSegs_of_not_room (h : room w.below.length w.path cs = false) :
    changeSegs find w cs = none := by
  induction cs generalizing w with
  | nil => contradiction
  | cons c cs ih =>
    unfold room at h
    unfold changeSegs
    by_cases hdd : isDotDot (comp c) = true
    · rw [if_pos hdd] at h ⊢
      apply ih
      unfold Walk.up
      cases hb : w.below with
      | nil =>
        rw [hb] at h
        rw [hb]
        exact h
      | cons x below =>
        rw [hb] at h
        exact h
    rw [if_neg hdd] at h ⊢
    by_cases hdot : isDot (comp c) = true
    · rw [if_pos hdot] at h ⊢
      exact ih h
    rw [if_neg hdot] at h ⊢
    by_cases hdeep : w.below.length ≥ 31
    · rw [if_pos hdeep]
    rw [if_neg hdeep]
    rw [decide_eq_true (by omega), Bool.true_and] at h
    cases find w.cur (comp c) with
    | none => rfl
    | some e =>
      obtain ⟨m, _ | _⟩ := e
      · rfl
      · dsimp only
        by_cases hlong : w.path.length + (comp c).length + 1 ≥ 256
        · rw [if_pos hlong]
        · rw [if_neg hlong]
          rw [decide_eq_true (by omega), Bool.true_and] at h
          exact ih h

theorem changeSegs_everywhere (h : room w.below.length w.path cs = true) :
    ∃ w', changeSegs everywhere w cs = some w' := by
  induction cs generalizing w with
  | nil => exact ⟨w, rfl⟩
  | cons c cs ih =>
    unfold room at h
    unfold changeSegs
    by_cases hdd : isDotDot (comp c) = true
    · rw [if_pos hdd] at h ⊢
      apply ih
      unfold Walk.up
      cases hb : w.below with
      | nil =>
        rw [hb] at h
        rw [hb]
        exact h
      | cons x below =>
        rw [hb] at h
        exact h
    rw [if_neg hdd] at h ⊢
    by_cases hdot : isDot (comp c) = true
    · rw [if_pos hdot] at h ⊢
      exact ih h
    rw [if_neg hdot] at h ⊢
    rw [Bool.and_eq_true, Bool.and_eq_true, decide_eq_true_eq, decide_eq_true_eq] at h
    obtain ⟨⟨hdeep, hlong⟩, hrest⟩ := h
    rw [if_neg (Nat.not_le_of_lt hdeep)]
    simp only [everywhere]
    rw [if_neg (Nat.not_le_of_lt hlong)]
    exact ih hrest

theorem room_append {d : Nat} {p : Str} {ds : List Str} (h : room d p (cs ++ ds) = true) :
    room d p cs = true := by
  induction cs generalizing d p with
  | nil => rfl
  | cons c cs ih =>
    rw [List.cons_append] at h
    unfold room at h ⊢
    by_cases hdd : isDotDot (comp c) = true
    · rw [if_pos hdd] at h ⊢
      cases d with
      | zero => exact ih h
      | succ d => exact ih h
    rw [if_neg hdd] at h ⊢
    by_cases hdot : isDot (comp c) = true
    · rw [if_pos hdot] at h ⊢
      exact ih h
    rw [if_neg hdot] at h ⊢
    rw [Bool.and_eq_true] at h ⊢
    exact ⟨h.1, ih h.2⟩

theorem cutSegs_prefix (cs : List Str) : ∃ ds, cs = cutSegs cs ++ ds := by
  induction cs with
  | nil => exact ⟨[], rfl⟩
  | cons c cs ih =>
    unfold cutSegs
    by_cases hlong : c.length > 127
    · rw [if_pos hlong]
      exact ⟨cs, rfl⟩
    · rw [if_neg hlong]
      obtain ⟨ds, hds⟩ := ih
      exact ⟨ds, by rw [List.cons_append, ← hds]⟩

theorem changeSegs_dots (h : ∀ c ∈ cs, isDot (comp c) = true ∨ isDotDot (comp c) = true) :
    ∃ w', changeSegs find w cs = some w' := by
  induction cs generalizing w with
  | nil => exact ⟨w, rfl⟩
  | cons c cs ih =>
    have hrest := fun w => @ih w fun c hc => h c (List.mem_cons_of_mem _ hc)
    unfold changeSegs
    by_cases hdd : isDotDot (comp c) = true
    · rw [if_pos hdd]
      exact hrest _
    · have hdot := (h c List.mem_cons_self).resolve_right hdd
      rw [if_neg hdd, if_pos hdot]
      exact hrest _

theorem changeSegs_nowhere (h : ¬ ∀ c ∈ cs, isDot (comp c) = true ∨ isDotDot (comp c) = true) :
    changeSegs (fun _ _ => none) w cs = none := by
  induction cs generalizing w with
  | nil => exact absurd (fun c hc => absurd hc List.not_mem_nil) h
  | cons c cs ih =>
    unfold changeSegs
    by_cases hdd : isDotDot (comp c) = true
    · rw [if_pos hdd]
      exact ih fun hall => h (List.forall_mem_cons.mpr ⟨Or.inr hdd, hall⟩)
    rw [if_neg hdd]
    by_cases hdot : isDot (comp c) = true
    · rw [if_pos hdot]
      exact ih fun hall => h (List.forall_mem_cons.mpr ⟨Or.inl hdot, hall⟩)
    rw [if_neg hdot]
    split <;> rfl

/-- While nothing is climbed out of and there is room, the walkers go side by side: the stack of the
one lies on top of the stack of the other. -/
theorem resolveSegs_eq {p : Str} (hlevel : level stack.length (cutSegs cs) = true)
    (hroom : room (stack ++ base).length p (cutSegs cs) = true) :
    resolveSegs find stack cur cs =
      (changeSegs find { cur := cur, below := stack ++ base, path := p } (cutSegs cs)).map (·.cur) := by
  induction cs generalizing stack cur p with
  | nil => rfl
  | cons c cs ih =>
    unfold cutSegs at hlevel hroom ⊢
    unfold resolveSegs
    by_cases hlong : c.length > 127
    · obtain ⟨hdot, hdd⟩ := long_not_dots hlong
      rw [if_pos hlong] at hlevel hroom ⊢
      simp only [level, room, changeSegs, hdot, hdd, Bool.false_eq_true, if_false, Bool.and_true,
        Bool.and_eq_true, decide_eq_true_eq] at hlevel hroom ⊢
      rw [if_neg (Nat.not_le_of_lt hlevel), if_neg (Nat.not_le_of_lt hroom.1)]
      cases find cur (comp c) with
      | none => rfl
      | some e =>
        obtain ⟨m, _ | _⟩ := e
        · rfl
        · dsimp only
          rw [if_pos hlong, if_neg (Nat.not_le_of_lt hroom.2)]
          rfl
    · rw [if_neg hlong] at hlevel hroom ⊢
      unfold level at hlevel
      unfold room at hroom
      unfold changeSegs
      by_cases hdot : isDot (comp c) = true
      · have hdd := not_isDotDot_of_isDot hdot
        rw [hdd, if_neg Bool.false_ne_true, if_pos hdot] at hroom
        rw [if_pos hdot] at hlevel
        rw [hdd, if_pos hdot, if_neg Bool.false_ne_true, if_pos hdot]
        exact ih hlevel hroom
      rw [if_neg hdot] at hlevel ⊢
      by_cases hdd : isDotDot (comp c) = true
      · rw [if_pos hdd] at hlevel hroom
        rw [if_pos hdd, if_pos hdd]
        cases stack with
        | nil => contradiction
        | cons up stack => exact ih hlevel hroom
      rw [if_neg hdd] at hlevel
      rw [if_neg hdd, if_neg hdot, Bool.and_eq_true, Bool.and_eq_true, decide_eq_true_eq,
        decide_eq_true_eq] at hroom
      rw [Bool.and_eq_true, decide_eq_true_eq] at hlevel
      rw [if_neg hdd, if_neg hdd, if_neg hdot, if_neg (Nat.not_le_of_lt hlevel.1),
        if_neg (Nat.not_le_of_lt hroom.1.1)]
      cases find cur (comp c) with
      | none => rfl
      | some e =>
        obtain ⟨m, _ | _⟩ := e
        · rfl
        · dsimp only
          rw [if_neg hlong, if_neg (Nat.not_le_of_lt hroom.1.2)]
          exact @ih m (cur :: stack) (pushPath p (comp c)) hlevel.2 hroom.2

def startOf (s : Cwd) (path : Str) : Walk :=
  if path.head? = some slash then { cur := s.root, below := [], path := [slash] }
  else { cur := s.cur, below := s.below, path := s.path }

def entered (r : Bool × Cwd) : Option U32 := if r.1 then some r.2.cur else none

theorem resolveDir_eq (hready : s.ready = true) (hne : path ≠ []) :
    resolveDir find s s.cur path = resolveSegs find [] (startOf s path).cur (segs slash path) := by
  cases path with
  | nil => contradiction
  | cons c rest =>
    have hno : ¬ ¬ s.ready = true := not_not_intro hready
    rw [resolveDir, if_neg hno, startOf]
    by_cases hc : c = slash
    · subst hc
      rw [if_pos List.head?_cons, segs_cons_sep]
      exact if_pos rfl
    · have hhead : ¬ (c :: rest).head? = some slash := fun h => hc (Option.some.inj h)
      rw [if_neg hhead]
      exact if_neg hc

theorem changeDir_eq (hne : path ≠ []) :
    entered (changeDir find s path) =
      (changeSegs find (startOf s path) (segs slash path)).map (·.cur) := by
  cases path with
  | nil => contradiction
  | cons c rest =>
    unfold changeDir
    dsimp only
    by_cases hdot : isDot (c :: rest) = true
    · have heq : c :: rest = [dot] := LawfulBEq.eq_of_beq hdot
      rw [if_pos hdot, heq]
      have hsegs : segs slash [dot] = [[dot]] := by decide
      rw [hsegs]
      rfl
    rw [if_neg hdot]
    by_cases hc : c = slash
    · subst hc
      rw [if_pos rfl, startOf, if_pos List.head?_cons, segs_cons_sep]
      by_cases hrest : rest = []
      · rw [if_pos hrest, hrest]
        rfl
      · rw [if_neg hrest]
        cases changeSegs find { cur := s.root, below := [], path := [slash] } (segs slash rest) <;> rfl
    · have hhead : ¬ (c :: rest).head? = some slash := fun h => hc (Option.some.inj h)
      rw [if_neg hc, startOf, if_neg hhead]
      cases changeSegs find { cur := s.cur, below := s.below, path := s.path } (segs slash (c :: rest)) <;>
        rfl

theorem changeDir_failed (h : (changeDir find s path).1 = false) : (changeDir find s path).2 = s := by
  cases path with
  | nil => rfl
  | cons c rest =>
    unfold changeDir at h ⊢
    dsimp only at h ⊢
    split at h
    · contradiction
    · rename_i hdot
      rw [if_neg hdot]
      split at h
      · rename_i hc
        rw [if_pos hc]
        split at h
        · contradiction
        · rename_i hrest
          rw [if_neg hrest]
          split at h
          · rfl
          · contradiction
      · rename_i hc
        rw [if_neg hc]
        split at h
        · rfl
        · contradiction

/-- `resolve_dir` finds the cluster that `change_dir` makes current, and a failed `change_dir` leaves the
current directory alone. -/
def Agreed (resolved : Option U32) (changed : Bool × Cwd) (s : Cwd) : Prop :=
  resolved = entered changed ∧ (changed.1 = false → changed.2 = s)

/-- The path names something, and either it stays at or below its start with room for every component, and
what follows its first component of more than 127 bytes leads back to there; or it climbs out of its start
or goes too deep for the one walker, and has no room for the other. -/
def Walkable (s : Cwd) (path : Str) : Prop :=
  let w := startOf s path
  let cs := segs slash path
  path ≠ [] ∧
    ((level 0 (cutSegs cs) = true ∧ room w.below.length w.path (cutSegs cs) = true ∧
        ∀ find, (changeSegs find w cs).map (·.cur) = (changeSegs find w (cutSegs cs)).map (·.cur)) ∨
      (level 0 (cutSegs cs) = false ∧ room w.below.length w.path cs = false))

def Dots (path : Str) : Prop :=
  ∀ c ∈ segs slash path, isDot (comp c) = true ∨ isDotDot (comp c) = true

theorem walks_agree_iff {w : Walk} {cs : List Str} :
    (∀ find, resolveSegs find [] w.cur cs = (changeSegs find w cs).map (·.cur)) ↔
      (level 0 (cutSegs cs) = true ∧ room w.below.length w.path (cutSegs cs) = true ∧
        ∀ find, (changeSegs find w cs).map (·.cur) = (changeSegs find w (cutSegs cs)).map (·.cur)) ∨
      (level 0 (cutSegs cs) = false ∧ room w.below.length w.path cs = false) := by
  have heq : level 0 (cutSegs cs) = true → room w.below.length w.path (cutSegs cs) = true →
      ∀ find, resolveSegs find [] w.cur cs = (changeSegs find w (cutSegs cs)).map (·.cur) :=
    fun hlevel hroom find => @resolveSegs_eq find cs w.cur [] w.below w.path hlevel hroom
  constructor
  · intro hagree
    have hall := hagree everywhere
    cases hlevel : level 0 (cutSegs cs) with
    | true =>
      obtain ⟨m, hm⟩ := @resolveSegs_everywhere cs w.cur [] hlevel
      have hroom : room w.below.length w.path cs = true := by
        by_contra hno
        rw [changeSegs_of_not_room (Bool.eq_false_iff.mpr hno), hm] at hall
        contradiction
      obtain ⟨ds, hds⟩ := cutSegs_prefix cs
      rw [hds] at hroom
      have hcut := room_append hroom
      exact Or.inl ⟨rfl, hcut, fun find => by rw [← hagree find, heq hlevel hcut find]⟩
    | false =>
      refine Or.inr ⟨rfl, ?_⟩
      by_contra hno
      obtain ⟨w', hw'⟩ := changeSegs_everywhere ((Bool.not_eq_false _).mp hno)
      rw [@resolveSegs_of_not_level everywhere cs w.cur [] hlevel, hw'] at hall
      contradiction
  · rintro (⟨hlevel, hroom, hcut⟩ | ⟨hlevel, hroom⟩) find
    · rw [heq hlevel hroom find, hcut find]
    · rw [@resolveSegs_of_not_level find cs w.cur [] hlevel, changeSegs_of_not_room hroom]
      rfl

theorem resolveDir_unready {k : U32} (h : s.ready = false) : resolveDir find s k path = none := by
  unfold resolveDir
  rw [h, if_pos Bool.false_ne_true]

theorem calls_agree_iff (hready : s.ready = true) :
    (∀ find, resolveDir find s s.cur path = entered (changeDir find s path)) ↔ Walkable s path := by
  by_cases hne : path = []
  · refine iff_of_false (fun h => ?_) (fun h => h.1 hne)
    have hall := h everywhere
    rw [hne, resolveDir, if_neg (not_not_intro hready)] at hall
    contradiction
  · unfold Walkable
    dsimp only
    rw [and_iff_right hne, ← walks_agree_iff]
    refine forall_congr' fun find => ?_
    rw [resolveDir_eq hready hne, changeDir_eq hne]

theorem changeDir_dots (h : Dots path) : (changeDir find s path).1 = true := by
  by_cases hne : path = []
  · rw [hne]
    rfl
  · obtain ⟨w', hw'⟩ := @changeSegs_dots find _ (startOf s path) h
    have hentered : entered (changeDir find s path) = some w'.cur := by rw [changeDir_eq hne, hw']; rfl
    by_contra hno
    rw [entered, if_neg hno] at hentered
    contradiction

theorem changeDir_nowhere (h : ¬ Dots path) : (changeDir (fun _ _ => none) s path).1 = false := by
  have hne : path ≠ [] := by
    rintro rfl
    exact h fun c hc => absurd hc List.not_mem_nil
  have hentered : entered (changeDir (fun _ _ => none) s path) = none := by
    rw [changeDir_eq hne, changeSegs_nowhere h]
    rfl
  by_contra hno
  rw [entered, if_pos ((Bool.not_eq_false _).mp hno)] at hentered
  contradiction

theorem fat_agrees_iff :
    (∀ find, Agreed (fatResolveDir find s path) (fatChangeDir find s path) s) ↔
      s.ready = false ∨ Walkable s path := by
  unfold fatResolveDir fatChangeDir
  cases hready : s.ready with
  | false =>
    refine iff_of_true (fun find => ?_) (Or.inl rfl)
    rw [resolveDir_unready hready, if_pos Bool.false_ne_true]
    exact ⟨rfl, fun _ => rfl⟩
  | true =>
    rw [or_iff_right (by decide), ← calls_agree_iff hready]
    refine forall_congr' fun find => ?_
    rw [if_neg (not_not_intro rfl)]
    exact ⟨fun h => h.1, fun h => ⟨h, changeDir_failed⟩⟩

theorem exfatCwdCluster_ready : (exfatCwdCluster s).ready = s.ready := by
  unfold exfatCwdCluster
  split <;> rfl

theorem exfatCwdCluster_root : (exfatCwdCluster s).root = s.root := by
  unfold exfatCwdCluster
  split <;> rfl

theorem resolveDir_settled :
    resolveDir find s (exfatCwdCluster s).cur path =
      resolveDir find (exfatCwdCluster s) (exfatCwdCluster s).cur path := by
  unfold resolveDir
  rw [exfatCwdCluster_ready, exfatCwdCluster_root]

theorem exfat_agrees_iff :
    (∀ find, Agreed (exfatResolveDir find s path) (exfatChangeDir find s path) s) ↔
      s.ready = false ∨ Walkable (exfatCwdCluster s) path ∧ (exfatCwdCluster s = s ∨ Dots path) := by
  unfold exfatResolveDir exfatChangeDir
  cases hready : s.ready with
  | false =>
    refine iff_of_true (fun find => ?_) (Or.inl rfl)
    rw [resolveDir_unready hready, if_pos Bool.false_ne_true]
    exact ⟨rfl, fun _ => rfl⟩
  | true =>
    have hready' : (exfatCwdCluster s).ready = true := exfatCwdCluster_ready.trans hready
    rw [or_iff_right (by decide), ← calls_agree_iff hready']
    simp only [resolveDir_settled, not_true_eq_false, if_false]
    constructor
    · intro h
      refine ⟨fun find => (h find).1, ?_⟩
      by_contra hno
      obtain ⟨hmoved, hdots⟩ := not_or.mp hno
      have hfailed := @changeDir_nowhere (exfatCwdCluster s) path hdots
      have hback := (h fun _ _ => none).2 hfailed
      rw [changeDir_failed hfailed] at hback
      exact hmoved hback
    · rintro ⟨hagree, hkept⟩ find
      refine ⟨hagree find, fun hfailed => ?_⟩
      rw [changeDir_failed hfailed]
      rcases hkept with hkept | hdots
      · exact hkept
      · rw [changeDir_dots hdots] at hfailed
        contradiction

/-- On every directory tree the walkers of a driver agree on a path exactly when the path is walkable from
the current directory; the exFAT driver also sets a current directory that was never set. -/
theorem walkers_agree_iff (s : Cwd) (path : Str) :
    ((∀ find, Agreed (fatResolveDir find s path) (fatChangeDir find s path) s) ↔
      s.ready = false ∨ Walkable s path) ∧
    ((∀ find, Agreed (exfatResolveDir find s path) (exfatChangeDir find s path) s) ↔
      s.ready = false ∨ Walkable (exfatCwdCluster s) path ∧ (exfatCwdCluster s = s ∨ Dots path)) :=
  ⟨fat_agrees_iff, exfat_agrees_iff⟩

def inD : Cwd := { ready := true, root := 2, cur := 5, below := [2], path := [0x2F, 0x64] }

def findD : Find := fun cluster name => if cluster = 2 ∧ name = [0x64] then some (5, true) else none

theorem parent_disagrees :
    fatChangeDir findD inD [dot, dot] = (true, inD.atRoot) ∧
      fatResolveDir findD inD [dot, dot] = none ∧
      exfatChangeDir findD inD [dot, dot] = (true, inD.atRoot) ∧
      exfatResolveDir findD inD [dot, dot] = none := by
  decide

end Ezos.Fs
