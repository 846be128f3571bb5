import Ezos.Fat.TreeNames

/-!
# Paths in the tree

Both walkers go from directories to their subdirectories only: '.' and '..' in a path are never looked up. The
current directory and its stack are a way up through the tree.
-/

namespace Ezos.Fat

open Lib.Memory Lib.Chains Lib.Forests

set_option autoImplicit false

variable {v v' : Vol} {P P' : Plan} {d p c q : Nat} {e : Entry} {name leaf path front : Str} {junk : Junk} {de : Dirent}
  {f : Frame} {s : Sys} {k m : U32} {stack : List U32} {cs : List Str}

theorem upChar_dot (c : U8) (h : upChar c = upChar dot) : c = dot := by
  revert c
  decide

theorem isDotName_of_nameEq (hd : isDotName leaf = true) (h : nameEq leaf name = true) : name = leaf := by
  have hmap : leaf.map upChar = name.map upChar := LawfulBEq.eq_of_beq h
  have hlen := congrArg List.length hmap
  rw [List.length_map, List.length_map] at hlen
  rcases isDotName_iff.mp hd with rfl | rfl
  · obtain ⟨a, rfl⟩ := List.length_eq_one_iff.mp hlen.symm
    rw [upChar_dot a (List.cons.inj hmap).1.symm]
  · obtain ⟨a, b, rfl⟩ := List.length_eq_two.mp hlen.symm
    obtain ⟨ha, hrest⟩ := List.cons.inj hmap
    rw [upChar_dot a ha.symm, upChar_dot b (List.cons.inj hrest).1.symm]

theorem Tree.find_real (h : Tree v P) (hd : d ∈ P.dirs) (hf : fatFindEntry v junk d name = some de)
    (hname : isDotName name = false) :
    ∃ b i e, (b, i, e) ∈ (P.views d).flatMap View.placed ∧ Shows (b, i, e) de ∧ e ∈ P.reals d := by
  obtain ⟨⟨b, i, e⟩, hq, hshow, heq, -⟩ := h.find_some hd hf
  have hmem : e ∈ entriesOf (P.views d) := by
    rw [← map_placed]
    exact List.mem_map.mpr ⟨_, hq, rfl⟩
  refine ⟨b, i, e, hq, hshow, mem_realsOf.mpr ⟨hmem, ?_⟩⟩
  rw [← Bool.not_eq_true]
  intro hdots
  have hshown := isDots_shown hdots hshow.name
  rw [isDotName_of_nameEq hshown heq, hshown] at hname
  contradiction

theorem Tree.dir_lt (h : Tree v P) (hd : d ∈ P.dirs) : d < 2 ^ 32 := by
  have hfit := h.dir_fits hd
  unfold FitsEntry at hfit
  split at hfit <;> omega

theorem Tree.findIn_kid (h : Tree v P) (hk : k.toNat ∈ P.dirs) (hname : isDotName name = false)
    (hf : findIn v f k name = some (m, true)) : m.toNat ∈ P.kids k.toNat := by
  unfold findIn at hf
  obtain ⟨de, hde, heq⟩ := Option.map_eq_some_iff.mp hf
  obtain ⟨hm, hdir⟩ := Prod.mk.inj heq
  obtain ⟨b, i, e, -, hshow, he⟩ := h.find_real hk hde hname
  have hkid : e.short.first ∈ P.kids k.toNat :=
    mem_kidsOf.mpr ⟨e, he, hshow.isDir.symm.trans hdir, rfl⟩
  have hlt := h.dir_lt (h.forest.kid_mem hk hkid)
  rw [← hm, hshow.firstCluster, BitVec.toNat_ofNat, Nat.mod_eq_of_lt hlt]
  exact hkid

theorem isDotName_eq (c : Str) : isDotName c = (Fs.isDot c || Fs.isDotDot c) := rfl

/-! ## Walks -/

theorem Tree.resolveSegs_mem (h : Tree v P) (hstack : ∀ x ∈ stack, x.toNat ∈ P.dirs) (hk : k.toNat ∈ P.dirs)
    (hr : Fs.resolveSegs (findIn v f) stack k cs = some m) : m.toNat ∈ P.dirs := by
  induction cs generalizing stack k with
  | nil =>
    obtain rfl := Option.some.inj hr
    exact hk
  | cons c cs ih =>
    unfold Fs.resolveSegs at hr
    by_cases hdot : Fs.isDot (Fs.comp c) = true
    · rw [if_pos hdot] at hr
      exact ih hstack hk hr
    rw [if_neg hdot] at hr
    by_cases hdd : Fs.isDotDot (Fs.comp c) = true
    · rw [if_pos hdd] at hr
      cases stack with
      | nil => contradiction
      | cons up stack =>
        exact ih (fun x hx => hstack x (List.mem_cons_of_mem up hx)) (hstack up List.mem_cons_self) hr
    rw [if_neg hdd] at hr
    by_cases hdeep : stack.length ≥ 31
    · rw [if_pos hdeep] at hr
      contradiction
    rw [if_neg hdeep] at hr
    have hname : isDotName (Fs.comp c) = false := by
      rw [isDotName_eq, (Bool.not_eq_true _).mp hdot, (Bool.not_eq_true _).mp hdd]
      rfl
    rcases hfind : findIn v f k (Fs.comp c) with _ | ⟨x, _ | _⟩
    · rw [hfind] at hr
      contradiction
    · rw [hfind] at hr
      contradiction
    · rw [hfind] at hr
      have hx := h.forest.kid_mem hk (h.findIn_kid hk hname hfind)
      dsimp only at hr
      split at hr
      · obtain rfl := Option.some.inj hr
        exact hx
      · refine ih (fun y hy => ?_) hx hr
        rcases List.mem_cons.mp hy with rfl | hy
        · exact hk
        · exact hstack y hy

def Climbs (P : Plan) : Nat → List Nat → Prop
  | d, [] => d ∈ P.dirs
  | d, p :: stack => d ∈ P.kids p ∧ Climbs P p stack

theorem Climbs.mem (h : Tree v P) {stack : List Nat} (hc : Climbs P d stack) : d ∈ P.dirs := by
  induction stack generalizing d with
  | nil => exact hc
  | cons p stack ih => exact h.forest.kid_mem (ih hc.2) hc.1

theorem Tree.changeSegs_climbs (h : Tree v P) {w w' : Fs.Walk} (hw : Climbs P w.cur.toNat (w.below.map BitVec.toNat))
    (hr : Fs.changeSegs (findIn v f) w cs = some w') : Climbs P w'.cur.toNat (w'.below.map BitVec.toNat) := by
  induction cs generalizing w with
  | nil =>
    obtain rfl := Option.some.inj hr
    exact hw
  | cons c cs ih =>
    unfold Fs.changeSegs at hr
    by_cases hdd : Fs.isDotDot (Fs.comp c) = true
    · rw [if_pos hdd] at hr
      refine ih ?_ hr
      unfold Fs.Walk.up
      cases hb : w.below with
      | nil =>
        rw [hb] at hw
        dsimp only
        rw [hb]
        exact hw
      | cons x below =>
        rw [hb] at hw
        exact hw.2
    rw [if_neg hdd] at hr
    by_cases hdot : Fs.isDot (Fs.comp c) = true
    · rw [if_pos hdot] at hr
      exact ih hw hr
    rw [if_neg hdot] at hr
    by_cases hdeep : w.below.length ≥ 31
    · rw [if_pos hdeep] at hr
      contradiction
    rw [if_neg hdeep] at hr
    have hname : isDotName (Fs.comp c) = false := by
      rw [isDotName_eq, (Bool.not_eq_true _).mp hdot, (Bool.not_eq_true _).mp hdd]
      rfl
    rcases hfind : findIn v f w.cur (Fs.comp c) with _ | ⟨x, _ | _⟩
    · rw [hfind] at hr
      contradiction
    · rw [hfind] at hr
      contradiction
    · rw [hfind] at hr
      dsimp only at hr
      split at hr
      · contradiction
      · have hdown : Climbs P (w.down x (Fs.comp c)).cur.toNat ((w.down x (Fs.comp c)).below.map BitVec.toNat) :=
          And.intro (h.findIn_kid (hw.mem h) hname hfind) hw
        exact ih hdown hr

structure CwdIn (v : Vol) (P : Plan) (s : Fs.Cwd) : Prop where
  ready : s.ready = true
  root : s.root.toNat = rootDirClusterValue v
  climbs : Climbs P s.cur.toNat (s.below.map BitVec.toNat)

theorem CwdIn.change {s s' : Fs.Cwd} {ok : Bool} (h : Tree v P) (hs : CwdIn v P s)
    (hr : Fs.fatChangeDir (findIn v f) s name = (ok, s')) : CwdIn v P s' := by
  unfold Fs.fatChangeDir at hr
  rw [if_neg (not_not.mpr hs.ready)] at hr
  have hroot : Climbs P s.root.toNat (([] : List U32).map BitVec.toNat) := by
    rw [hs.root]
    exact h.forest.root_mem
  have hwalk : ∀ {w w' : Fs.Walk} {cs : List Str}, Climbs P w.cur.toNat (w.below.map BitVec.toNat) →
      Fs.changeSegs (findIn v f) w cs = some w' →
      CwdIn v P { s with cur := w'.cur, below := w'.below, path := w'.path } :=
    fun hw hseg => ⟨hs.ready, hs.root, h.changeSegs_climbs hw hseg⟩
  unfold Fs.changeDir at hr
  cases name with
  | nil =>
    obtain ⟨-, rfl⟩ := Prod.mk.inj hr
    exact hs
  | cons c rest =>
    dsimp only at hr
    split at hr
    · obtain ⟨-, rfl⟩ := Prod.mk.inj hr
      exact hs
    · split at hr
      · split at hr
        · obtain ⟨-, rfl⟩ := Prod.mk.inj hr
          exact ⟨hs.ready, hs.root, hroot⟩
        · split at hr
          · obtain ⟨-, rfl⟩ := Prod.mk.inj hr
            exact hs
          · rename_i hseg
            obtain ⟨-, rfl⟩ := Prod.mk.inj hr
            exact hwalk hroot hseg
      · split at hr
        · obtain ⟨-, rfl⟩ := Prod.mk.inj hr
          exact hs
        · rename_i hseg
          obtain ⟨-, rfl⟩ := Prod.mk.inj hr
          exact hwalk hs.climbs hseg

theorem splitLast_some (h : splitLast path = some (front, leaf)) : path = front ++ Fs.slash :: leaf := by
  induction path generalizing front with
  | nil => contradiction
  | cons c rest ih =>
    unfold splitLast at h
    cases hs : splitLast rest with
    | some r =>
      obtain ⟨front', leaf'⟩ := r
      rw [hs] at h
      obtain ⟨rfl, rfl⟩ := Prod.mk.inj (Option.some.inj h)
      rw [ih hs]
      rfl
    | none =>
      rw [hs] at h
      dsimp only at h
      split at h
      · rename_i hc
        obtain ⟨rfl, rfl⟩ := Prod.mk.inj (Option.some.inj h)
        rw [hc]
        rfl
      · contradiction

theorem not_mem_cstr (l : Str) : ∀ c ∈ cstr l, c ≠ 0 := by
  intro c hc
  have hkeep := @List.mem_takeWhile_imp U8 (fun c => decide (c ≠ 0)) l c hc
  exact of_decide_eq_true hkeep

theorem Tree.resolveLeaf (h : Tree s.vol P) (hs : CwdIn s.vol P s.cwd) (hpath : ∀ c ∈ path, c ≠ 0)
    (hr : fatResolveLeaf s f path = some (d, leaf)) : d ∈ P.dirs ∧ Leaf leaf := by
  unfold fatResolveLeaf at hr
  split at hr
  · contradiction
  rename_i hno
  have hcur : s.cwd.cur.toNat ∈ P.dirs := hs.climbs.mem h
  cases hsplit : splitLast path with
  | none =>
    rw [hsplit] at hr
    dsimp only at hr
    split at hr
    · contradiction
    · rename_i hlen
      obtain ⟨rfl, rfl⟩ := Prod.mk.inj (Option.some.inj hr)
      exact ⟨hcur, fun hnil => hno (Or.inr hnil), by omega, hpath⟩
  | some r =>
    obtain ⟨front, leaf'⟩ := r
    rw [hsplit] at hr
    dsimp only at hr
    have hsub : ∀ c ∈ leaf', c ≠ 0 := by
      intro c hc
      refine hpath c ?_
      rw [splitLast_some hsplit]
      exact List.mem_append_right front (List.mem_cons_of_mem _ hc)
    split at hr
    · contradiction
    · rename_i hlen
      have hleaf : Leaf leaf' := ⟨fun hnil => hlen (Or.inl hnil), by omega, hsub⟩
      split at hr
      · obtain ⟨rfl, rfl⟩ := Prod.mk.inj (Option.some.inj hr)
        exact ⟨h.forest.root_mem, hleaf⟩
      · split at hr
        · contradiction
        · cases hdir : Fs.fatResolveDir (findIn s.vol f) s.cwd front with
          | none =>
            rw [hdir] at hr
            contradiction
          | some m =>
            rw [hdir] at hr
            obtain ⟨rfl, rfl⟩ := Prod.mk.inj (Option.some.inj hr)
            refine ⟨?_, hleaf⟩
            unfold Fs.fatResolveDir Fs.resolveDir at hdir
            rw [if_neg (not_not.mpr hs.ready)] at hdir
            cases front with
            | nil => contradiction
            | cons c rest =>
              dsimp only at hdir
              split at hdir
              · refine h.resolveSegs_mem (fun x hx => absurd hx List.not_mem_nil) ?_ hdir
                rw [hs.root]
                exact h.forest.root_mem
              · exact h.resolveSegs_mem (fun x hx => absurd hx List.not_mem_nil) hcur hdir

end Ezos.Fat
