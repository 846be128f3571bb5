import Ezos.Fat.Agreement

/-!
# Short names that occur once

An alias is probed by the name an entry is shown under, and an entry with a long name is not shown under its short
one. Where no such hidden short name is picked again, the short names of a directory stay distinct.
-/

namespace Ezos.Fat

open Lib.Memory Lib.Chains Lib.Forests

set_option autoImplicit false

variable {v : Vol} {P P' : Plan} {d n : Nat} {e : Entry} {s : Sys} {call : Call} {calls : List Call} {junk : Junk}
  {leaf sn name : Str} {de : Dirent} {q : Block × Nat × Entry}

def shortName (v : Vol) (de : Dirent) : Str := (List.range 11).map (slotAt (blockAt v de.block) de.slot)

def isDotShort (sn : Str) : Bool := sn == dotName || sn == dotDotName

def liveShorts (v : Vol) (junk : Junk) (dir : Nat) : List Str :=
  ((dirents v junk dir).1.map (shortName v)).filter fun sn => !isDotShort sn

def ShortsDistinct (s : Sys) : Prop := ∀ path junk d, InTree s.vol path d → (liveShorts s.vol junk d).Nodup

def Hidden (v : Vol) (junk : Junk) (dir : Nat) (sn : Str) : Prop :=
  ∃ de ∈ (dirents v junk dir).1, shortName v de = sn ∧ nameEq de.name (sn11ToStr (memOf sn)) = false

def FirstAlias (found : Nat → Str → Bool) (leaf : Str) (n : Nat) : Prop :=
  1 ≤ n ∧ n ≤ aliasMax ∧ found n (sn11ToStr (memOf (aliasOf leaf n))) = false ∧
    ∀ m, 1 ≤ m → m < n → found m (sn11ToStr (memOf (aliasOf leaf m))) = true

/-- Neither the 8.3 form of a new name, nor the first alias that is not shown when there is no such form, is the short name
of an entry that is shown under another name. -/
def NoneHidden (s : Sys) (f : Frame) (name : Str) : Prop :=
  ∀ dir leaf, newLeaf s f name = some (dir, leaf) →
    (∀ sn, plainName leaf = some sn → ¬ Hidden s.vol f.leaf dir sn) ∧
      (plainName leaf = none → ∀ n, FirstAlias (probe s.vol f dir) leaf n → ¬ Hidden s.vol (f.probes n) dir (aliasOf leaf n))

def Apart (s : Sys) : Call → Prop
  | .createFile f name _ _ => NoneHidden s f name
  | .mkdir f name => NoneHidden s f name
  | _ => True

def Plan.shorts (P : Plan) (d : Nat) : List Str := (P.reals d).map fun e => e.short.sn

theorem Tree.short_at (h : Tree v P) (hd : d ∈ P.dirs) (hq : q ∈ (P.views d).flatMap View.placed) (hshow : Shows q de) :
    shortName v de = q.2.2.short.sn := by
  obtain ⟨w, hw, hqw⟩ := List.mem_flatMap.mp hq
  obtain ⟨b, i, e⟩ := q
  obtain ⟨rfl, A, B, hitems, hi⟩ := mem_placed hqw
  have hreads := ((h.laid d hd).views w hw).reads
  unfold View.slots at hreads
  have hslots : w.items.flatMap itemSlots =
      A.flatMap itemSlots ++ (e.lead ++ Slot.short e.short :: B.flatMap itemSlots) := by
    rw [hitems, List.flatMap_append, List.flatMap_cons, itemSlots, Entry.slots, List.append_assoc, List.singleton_append]
  rw [hslots] at hreads
  have hshort := hreads.left.right.right.head
  rw [← hi] at hshort
  have hsn := (short_of_read hshort).2.2.2.2
  unfold shortName
  rw [hshow.block, hshow.slot]
  exact (congrArg Short.sn hsn).symm

/-- What is told of a shown entry by its slot is told of the entry. -/
theorem Tree.map_shown {β : Type} {f : Dirent → β} {g : Entry → β} (h : Tree v P) (hd : d ∈ P.dirs)
    (hfg : ∀ q de, q ∈ (P.views d).flatMap View.placed → Shows q de → f de = g q.2.2) :
    (dirents v junk d).1.map f = (entriesOf (P.views d)).map g := by
  obtain ⟨des, hdes, hrun⟩ := h.dirents_shown hd junk
  have hall : ∀ (qs : List (Block × Nat × Entry)) (ds : List Dirent), List.Forall₂ Shows qs ds →
      (∀ q ∈ qs, q ∈ (P.views d).flatMap View.placed) → ds.map f = qs.map fun q => g q.2.2 := by
    intro qs ds hf
    induction hf with
    | nil => exact fun _ => rfl
    | @cons q de qs ds hs _ ih =>
      intro hin
      rw [List.map_cons, List.map_cons, hfg q de (hin q List.mem_cons_self) hs,
        ih fun x hx => hin x (List.mem_cons_of_mem q hx)]
  rw [hrun]
  dsimp only
  rw [hall _ _ hdes fun q hq => hq, ← map_placed, List.map_map]
  rfl

theorem Tree.shorts_eq (h : Tree v P) (hd : d ∈ P.dirs) :
    (dirents v junk d).1.map (shortName v) = (entriesOf (P.views d)).map fun e => e.short.sn :=
  h.map_shown hd fun _ _ hq hshow => h.short_at hd hq hshow

theorem Tree.liveShorts_sublist (h : Tree v P) (hd : d ∈ P.dirs) : (liveShorts v junk d).Sublist (P.shorts d) := by
  unfold liveShorts Plan.shorts Plan.reals realsOf
  rw [h.shorts_eq hd, List.filter_map]
  refine List.Sublist.map _ ?_
  refine List.monotone_filter_right _ fun e he => ?_
  unfold Entry.isDots
  have hno : isDotShort e.short.sn = false := by
    simpa using he
  unfold isDotShort at hno
  rw [hno, Bool.and_false]
  rfl

theorem nameEq_trans {a b c : Str} (h : nameEq a b = true) (h' : nameEq b c = true) : nameEq a c = true := by
  unfold nameEq at h h' ⊢
  rw [beq_iff_eq] at h h' ⊢
  exact h.trans h'

theorem aliasFrom_first {found : Nat → Str → Bool} {m i : Nat} (h : aliasFrom found leaf i m = some sn) :
    ∃ n, i ≤ n ∧ n < i + m ∧ sn = aliasOf leaf n ∧ found n (sn11ToStr (memOf sn)) = false ∧
      ∀ j, i ≤ j → j < n → found j (sn11ToStr (memOf (aliasOf leaf j))) = true := by
  induction m generalizing i with
  | zero => contradiction
  | succ m ih =>
    unfold aliasFrom at h
    by_cases hf : found i (sn11ToStr (memOf (aliasOf leaf i))) = true
    · rw [if_pos hf] at h
      obtain ⟨n, hlo, hhi, hsn, hfound, hbelow⟩ := ih h
      refine ⟨n, by omega, by omega, hsn, hfound, fun j hj hjn => ?_⟩
      by_cases hij : j = i
      · rw [hij]
        exact hf
      · exact hbelow j (by omega) hjn
    · rw [if_neg hf] at h
      obtain rfl := Option.some.inj h
      exact ⟨i, Nat.le_refl i, by omega, rfl, (Bool.not_eq_true _).mp hf, fun j hj hjn => by omega⟩

theorem prepareNames_picks {found : Nat → Str → Bool} {lfn : Nat} (h : prepareNames found leaf = some (sn, lfn)) :
    (plainName leaf = some sn ∧ nameEq (sn11ToStr (memOf sn)) leaf = true) ∨
      (plainName leaf = none ∧ ∃ n, sn = aliasOf leaf n ∧ FirstAlias found leaf n) := by
  unfold prepareNames at h
  cases hp : plainName leaf with
  | some sn' =>
    rw [hp] at h
    obtain ⟨rfl, -⟩ := Prod.mk.inj (Option.some.inj h)
    refine Or.inl ⟨rfl, ?_⟩
    unfold plainName at hp
    split at hp
    · contradiction
    · split at hp
      · rename_i heq
        obtain rfl := Option.some.inj hp
        exact heq
      · contradiction
  | none =>
    rw [hp] at h
    dsimp only at h
    cases hm : makeAlias found leaf with
    | none =>
      rw [hm] at h
      contradiction
    | some sn' =>
      rw [hm] at h
      obtain ⟨rfl, -⟩ := Prod.mk.inj (Option.some.inj h)
      obtain ⟨n, hlo, hhi, rfl, hfound, hbelow⟩ := aliasFrom_first hm
      exact Or.inr ⟨rfl, n, rfl, hlo, by omega, hfound, hbelow⟩

theorem Tree.picked_new {f : Frame} {dir lfn : Nat} (h : Tree s.vol P) (hnamed : Named s P f name dir leaf)
    (hprep : prepareNames (probe s.vol f dir) leaf = some (sn, lfn)) (hgood : NoneHidden s f name) : sn ∉ P.shorts dir := by
  intro hin
  obtain ⟨e, he, hsn⟩ := List.mem_map.mp hin
  have hmem := (mem_realsOf.mp he).1
  rw [← map_placed] at hmem
  obtain ⟨q, hq, rfl⟩ := List.mem_map.mp hmem
  have hentry : ∀ junk, ∃ de ∈ (dirents s.vol junk dir).1, shortName s.vol de = sn := by
    intro junk
    obtain ⟨des, hdes, hrun⟩ := h.dirents_shown hnamed.home junk
    obtain ⟨de, hde, hshow⟩ := forall₂_mem_left hdes hq
    rw [hrun]
    exact ⟨de, hde, (h.short_at hnamed.home hq hshow).trans hsn⟩
  have habsent : ∀ junk name, fatFindEntry s.vol junk dir name = none → ∀ de ∈ (dirents s.vol junk dir).1,
      nameEq de.name name = false := by
    intro junk name hfind de hde
    exact (Bool.not_eq_true _).mp (List.find?_eq_none.mp hfind de hde)
  obtain ⟨hplain, halias⟩ := hgood dir leaf hnamed.new
  rcases prepareNames_picks hprep with ⟨hp, heq⟩ | ⟨hp, n, rfl, hfirst⟩
  · obtain ⟨de, hde, hname⟩ := hentry f.leaf
    have hshown : nameEq de.name (sn11ToStr (memOf sn)) = true := by
      rw [← Bool.not_eq_false]
      exact fun hno => hplain sn hp ⟨de, hde, hname, hno⟩
    have hfound := nameEq_trans hshown heq
    rw [habsent _ _ hnamed.absent de hde] at hfound
    contradiction
  · obtain ⟨de, hde, hname⟩ := hentry (f.probes n)
    have hnone : fatFindEntry s.vol (f.probes n) dir (sn11ToStr (memOf (aliasOf leaf n))) = none :=
      Option.not_isSome_iff_eq_none.mp (by rw [Bool.not_eq_true]; exact hfirst.2.2.1)
    exact halias hp n hfirst ⟨de, hde, hname, habsent _ _ hnone de hde⟩

def Plan.Distinct (P : Plan) : Prop := ∀ d ∈ P.dirs, (P.shorts d).Nodup

theorem Unmoved.distinct {v' : Vol} (h : Unmoved v P v' P') (hd : P.Distinct) : P'.Distinct := by
  intro d hin
  unfold Plan.shorts Plan.reals
  rw [h.views]
  rw [h.dirs] at hin
  exact hd d hin

theorem Entered.distinct {v' : Vol} {p : Nat} {lost : List Nat} (h : Entered v P v' P' p e lost) (he : e.isDots = false)
    (hp : p ∈ P.dirs) (hd : P.Distinct) (hnew : e.short.sn ∉ P.shorts p)
    (hdir : e.short.isDir = true → e.short.first ∉ P.dirs → P'.reals e.short.first = []) : P'.Distinct := by
  have hold : ∀ d ∈ P.dirs, (P'.shorts d).Nodup := by
    intro d hin
    by_cases hdp : d = p
    · subst hdp
      have hperm := (h.reals he).map fun e => e.short.sn
      rw [List.map_cons] at hperm
      exact hperm.nodup_iff.mpr (List.nodup_cons.mpr ⟨hnew, hd d hin⟩)
    · unfold Plan.shorts
      rw [h.reals_of_ne hin hdp]
      exact hd d hin
  intro d hin
  rw [h.dirs] at hin
  rcases List.mem_append.mp hin with hin | hin
  · split at hin
    · rename_i hisdir
      by_cases hknown : d ∈ P.dirs
      · exact hold d hknown
      · rw [List.mem_singleton.mp hin] at hknown ⊢
        unfold Plan.shorts
        rw [hdir hisdir hknown]
        exact List.nodup_nil
    · exact absurd hin List.not_mem_nil
  · exact hold d hin

theorem Removed.distinct {v' : Vol} {p : Nat} (h : Removed v P v' P' p e) (he : e.isDots = false) (hd : P.Distinct) :
    P'.Distinct := by
  intro d hin
  have hmem : d ∈ P.dirs := h.dirs.mem_iff.mpr (List.mem_append_right _ hin)
  by_cases hdp : d = p
  · subst hdp
    have hperm := ((realsOf_cons h.here he).1).map fun e => e.short.sn
    exact (List.nodup_cons.mp (hperm.nodup_iff.mp (hd d hmem))).2
  · unfold Plan.shorts Plan.reals realsOf
    rw [h.others d hdp]
    exact hd d hmem

def Told (s : Sys) : Prop := ∃ P, Sound s P ∧ P.Distinct

theorem told_step (h : Told s) (hgood : Orderly s call ∧ Apart s call) : Told (call.run s).2 := by
  obtain ⟨P, hs, hdist⟩ := h
  obtain ⟨P', hs', hdid⟩ := call_did hs hgood.1
  refine ⟨P', hs', ?_⟩
  have hapart := hgood.2
  generalize (call.run s).1 = ok at hdid
  cases hdid with
  | idle hm _ => exact hm.distinct hdist
  | leaked _ hm _ => exact hm.distinct hdist
  | created hnamed hprep hent _ =>
    exact hent.distinct (newEntry_real hprep hnamed.good) hnamed.home hdist (hs.tree.picked_new hnamed hprep hapart)
      fun hdir => by contradiction
  | made hnamed hprep hent hview =>
    refine hent.distinct (newEntry_real hprep hnamed.good) hnamed.home hdist (hs.tree.picked_new hnamed hprep hapart)
      fun _ _ => ?_
    have hentries : entriesOf (P'.views _) = _ := hview
    unfold Plan.reals realsOf newEntry
    rw [hentries]
    rfl
  | deleted _ hdel => exact hdel.removed.distinct (mem_realsOf.mp hdel.real).2 hdist

theorem Told.distinct (h : Told s) : ShortsDistinct s := by
  obtain ⟨P, hs, hdist⟩ := h
  intro path junk d hin
  have hd := hs.tree.inTree_iff.mp hin
  exact (hdist d hd).sublist (hs.tree.liveShorts_sublist hd)

theorem small_noneHidden : NoneHidden smallSys stillFrame [0x41] := by
  intro dir leaf hleaf
  rw [small_newLeaf] at hleaf
  obtain ⟨rfl, rfl⟩ := Prod.mk.inj (Option.some.inj hleaf)
  refine ⟨fun sn _ hhid => ?_, fun hnone => absurd hnone (by decide)⟩
  obtain ⟨de, hde, -⟩ := hhid
  rw [List.length_eq_zero_iff.mp small_computes.2.2.2] at hde
  exact List.not_mem_nil hde

def twinSys : Sys :=
  runCalls smallSys [.createFile stillFrame [0x2B, 0x41] zeros 0, .createFile stillFrame [0x2B, 0x2B, 0x41] zeros 0]

theorem twin_shorts : rootDirClusterValue twinSys.vol = 0 ∧ (liveShorts twinSys.vol (fun _ => 0) 0).length = 2 ∧
    ¬ (liveShorts twinSys.vol (fun _ => 0) 0).Nodup := by
  decide

/-- The directories, and what each of them lists. -/
structure Shape where
  dirs : Set Nat
  rows : Nat → List Short

def rowOf (v : Vol) (de : Dirent) : Short :=
  { sn := shortName v de, isDir := de.isDir, first := de.firstCluster, size := de.size }

def shapeOf (v : Vol) (path : Nat → Junk) (junk : Junk) : Shape where
  dirs := {d | InTree v path d}
  rows d := (dirents v junk d).1.map (rowOf v)

structure Same (t t' : Shape) : Prop where
  dirs : t.dirs = t'.dirs
  rows : ∀ d ∈ t.dirs, t.rows d = t'.rows d

/-- `t` is `t'` with one entry more in `p`, and with the directory that it names, if it names one. -/
structure OneMore (t t' : Shape) (p : Nat) (r : Short) : Prop where
  home : p ∈ t'.dirs
  dirs : ∀ d, d ∈ t.dirs ↔ d ∈ t'.dirs ∨ r.isDir = true ∧ d = r.first
  fresh : r.isDir = true → r.first ∉ t'.dirs
  here : (t.rows p).Perm (r :: t'.rows p)
  others : ∀ d ∈ t'.dirs, d ≠ p → t.rows d = t'.rows d
  empty : r.isDir = true → ∀ x ∈ t.rows r.first, isDotShort x.sn = true

/-- What a call that finds the tree `t` leaves, by what it returns. -/
inductive Edits (s : Sys) (t t' : Shape) : Call → Bool → Prop
  | failed (call : Call) : Same t t' → Edits s t t' call false
  | moved (f : Frame) (name : Str) (ok : Bool) : Same t t' → Edits s t t' (.changeDir f name) ok
  | created {f : Frame} {name leaf sn : Str} {data : Mem} {size : U32} {dir lfn first : Nat} :
      newLeaf s f name = some (dir, leaf) → prepareNames (probe s.vol f dir) leaf = some (sn, lfn) →
      OneMore t' t dir ⟨sn, false, first, size.toNat⟩ → Edits s t t' (.createFile f name data size) true
  | made {f : Frame} {name leaf sn : Str} {dir lfn c : Nat} :
      newLeaf s f name = some (dir, leaf) → prepareNames (probe s.vol f dir) leaf = some (sn, lfn) →
      OneMore t' t dir ⟨sn, true, c, 0⟩ → t'.rows c = [(dotEntry c).short, (dotDotEntry dir).short] →
      Edits s t t' (.mkdir f name) true
  | deleted {call : Call} {f : Frame} {name leaf : Str} {dir : Nat} {de : Dirent} :
      (call = .deleteFile f name ∨ ∃ g, call = .rmdir g f name) → fatResolveLeaf s f (cstr name) = some (dir, leaf) →
      fatFindEntry s.vol f.leaf dir leaf = some de → OneMore t t' dir (rowOf s.vol de) → Edits s t t' call true

section
variable {v' : Vol} {p : Nat} {path path' : Nat → Junk} {junk' : Junk}

theorem Tree.row_at (h : Tree v P) (hd : d ∈ P.dirs) (hq : q ∈ (P.views d).flatMap View.placed) (hshow : Shows q de) :
    rowOf v de = q.2.2.short := by
  unfold rowOf
  rw [h.short_at hd hq hshow, hshow.isDir, hshow.firstCluster, hshow.size]

theorem Tree.rows_eq (h : Tree v P) (hd : d ∈ P.dirs) :
    (shapeOf v path junk).rows d = (entriesOf (P.views d)).map Entry.short :=
  h.map_shown hd fun _ _ hq hshow => h.row_at hd hq hshow

theorem Unmoved.shape (hm : Unmoved v P v' P') (h : Tree v P) (h' : Tree v' P') :
    Same (shapeOf v path junk) (shapeOf v' path' junk') := by
  have hin : ∀ d, InTree v path d ↔ d ∈ P.dirs := fun d => h.inTree_iff
  refine ⟨Set.ext fun d => ?_, fun d hd => ?_⟩
  · refine (hin d).trans (Iff.trans ?_ h'.inTree_iff.symm)
    rw [hm.dirs]
  · have hmem := (hin d).mp hd
    rw [h.rows_eq hmem, h'.rows_eq (by rw [hm.dirs]; exact hmem), hm.views]

theorem Tree.oneMore (h : Tree v P) (h' : Tree v' P') (hp : p ∈ P.dirs)
    (hdirs : P'.dirs.Perm ((if e.short.isDir then [e.short.first] else []) ++ P.dirs))
    (hhere : (entriesOf (P'.views p)).Perm (e :: entriesOf (P.views p)))
    (hothers : ∀ d ∈ P.dirs, d ≠ p → entriesOf (P'.views d) = entriesOf (P.views d))
    (hempty : e.short.isDir = true → P'.reals e.short.first = []) :
    OneMore (shapeOf v' path' junk') (shapeOf v path junk) p e.short := by
  have hin : ∀ d, InTree v path d ↔ d ∈ P.dirs := fun d => h.inTree_iff
  have hin' : ∀ d, InTree v' path' d ↔ d ∈ P'.dirs := fun d => h'.inTree_iff
  have hsub : ∀ d ∈ P.dirs, d ∈ P'.dirs := fun d hd => hdirs.mem_iff.mpr (List.mem_append_right _ hd)
  have hnodup := hdirs.nodup_iff.mp h'.forest.nodup
  refine ⟨(hin p).mpr hp, fun d => ?_, fun hdir => ?_, ?_, fun d hd hne => ?_, fun hdir x hx => ?_⟩
  · refine (hin' d).trans (hdirs.mem_iff.trans ?_)
    rw [List.mem_append, or_comm]
    refine or_congr (hin d).symm ?_
    split <;> simp [*]
  · rw [if_pos hdir] at hnodup
    exact fun hd => (List.nodup_cons.mp hnodup).1 ((hin _).mp hd)
  · rw [h.rows_eq hp, h'.rows_eq (hsub p hp)]
    exact hhere.map Entry.short
  · have hmem := (hin d).mp hd
    rw [h.rows_eq hmem, h'.rows_eq (hsub d hmem), hothers d hmem hne]
  · have hmem : e.short.first ∈ P'.dirs := by
      rw [hdirs.mem_iff, if_pos hdir]
      exact List.mem_cons_self
    rw [h'.rows_eq hmem] at hx
    obtain ⟨y, hy, rfl⟩ := List.mem_map.mp hx
    have hdots : y.isDots = true := by
      rw [← Bool.not_eq_false]
      intro hno
      have hreal : y ∈ P'.reals e.short.first := mem_realsOf.mpr ⟨hy, hno⟩
      rw [hempty hdir] at hreal
      exact List.not_mem_nil hreal
    exact ((Bool.and_eq_true _ _).mp hdots).2

theorem Tree.did_edit_delete (hs : Sound s P) {f : Frame} (hgood : ForeignDir s f name)
    (hcall : call = .deleteFile f name ∨ ∃ g, call = .rmdir g f name) :
    Edits s (shapeOf s.vol path junk) (shapeOf (fatDeleteFile s f name).2.vol path' junk') call (fatDeleteFile s f name).1 := by
  obtain ⟨ok, s', hrun, -, hcase⟩ := hs.tree.deleteFile hs.cwd hgood
  rw [hrun]
  rcases hcase with ⟨rfl, rfl⟩ | ⟨P', dir, leaf, e, de, rfl, hdel, b, i, hq, hshow⟩
  · exact .failed call ((Unmoved.refl _ P).shape hs.tree hs.tree)
  · have hrem := hdel.removed
    have hkept : dir ∈ P'.dirs := by
      rcases List.mem_append.mp (hrem.dirs.mem_iff.mp hdel.home) with hin | hin
      · split at hin
        · rename_i hdir
          have hkid := mem_kidsOf.mpr ⟨e, hdel.real, hdir, rfl⟩
          have hclimb := hs.tree.forest.climbs dir hdel.home _ hkid
          rw [← List.mem_singleton.mp hin] at hclimb
          exact absurd hclimb (lt_irrefl _)
        · exact absurd hin List.not_mem_nil
      · exact hin
    refine .deleted hcall hdel.resolved hdel.found ?_
    rw [hs.tree.row_at hdel.home hq hshow]
    exact hrem.tree.oneMore hs.tree hkept hrem.dirs hrem.here (fun d _ hne => (hrem.others d hne).symm) hdel.empty

theorem call_edits (hs : Sound s P) (hgood : Orderly s call) :
    Edits s (shapeOf s.vol path junk) (shapeOf (call.run s).2.vol path' junk') call (call.run s).1 := by
  cases call with
  | createFile f name data size =>
    obtain ⟨ok, s', hrun, -, P', hcase⟩ := @Tree.createFile P name f s data size hs.tree hs.cwd hgood
    unfold Call.run
    dsimp only
    rw [hrun]
    rcases hcase with ⟨rfl, hidle⟩ | ⟨dir, leaf, sn, lfn, first, rfl, hnamed, hprep, hent, -⟩
    · exact .failed _ (hidle.moved.shape hs.tree hidle.tree)
    · refine .created hnamed.new hprep (hs.tree.oneMore hent.tree hnamed.home ?_ hent.here hent.others fun hdir => ?_)
      · rw [hent.dirs]
      · contradiction
  | mkdir f name =>
    obtain ⟨ok, s', hrun, -, P', hcase⟩ := hs.tree.mkdir hs.cwd hgood
    unfold Call.run
    dsimp only
    rw [hrun]
    rcases hcase with ⟨rfl, hidle⟩ | ⟨rfl, -, htree, hmoved, -⟩ | ⟨dir, leaf, sn, lfn, c, rfl, hnamed, hprep, hent, hview⟩
    · exact .failed _ (hidle.moved.shape hs.tree hidle.tree)
    · exact .failed _ (hmoved.shape hs.tree htree)
    · have hnew : c ∈ P'.dirs := by
        rw [hent.dirs]
        exact List.mem_append_left _ List.mem_cons_self
      refine .made hnamed.new hprep (hs.tree.oneMore hent.tree hnamed.home ?_ hent.here hent.others fun _ => ?_) ?_
      · rw [hent.dirs]
      · unfold Plan.reals realsOf newEntry
        rw [hview]
        rfl
      · rw [hent.tree.rows_eq hnew, hview]
        rfl
  | deleteFile f name => exact Tree.did_edit_delete hs hgood (Or.inl rfl)
  | rmdir f g name =>
    unfold Call.run
    dsimp only
    rcases fatRmdir_cases s f g name with hrun | hrun
    · rw [hrun]
      exact .failed _ ((Unmoved.refl _ P).shape hs.tree hs.tree)
    · rw [hrun]
      exact Tree.did_edit_delete hs hgood (Or.inr ⟨f, rfl⟩)
  | changeDir f name => exact .moved f name _ ((Unmoved.refl _ P).shape hs.tree hs.tree)

end

/-- After formatting and any orderly calls, the next one makes one edit of the tree that the listings show, where its path
leads, and leaves all the rest. -/
theorem listings_follow_calls (disk : Disk) (cap part : U32) (k : Kind) (s : Sys) (calls : List Call) (call : Call)
    (path path' : Nat → Junk) (junk junk' : Junk) (hformat : fatFormat disk cap part k = some s)
    (hgood : Along Orderly s calls) (hcall : Orderly (runCalls s calls) call) :
    Edits (runCalls s calls) (shapeOf (runCalls s calls).vol path junk)
      (shapeOf (call.run (runCalls s calls)).2.vol path' junk') call (call.run (runCalls s calls)).1 := by
  have hkeep : ∀ s call, (∃ P, Sound s P) → Orderly s call → ∃ P, Sound (call.run s).2 P := fun s call hs hg =>
    have ⟨_, hs⟩ := hs
    have ⟨P', hs', _⟩ := call_did hs hg
    ⟨P', hs'⟩
  obtain ⟨P, hs⟩ := run_keeps hkeep ⟨_, fatFormat_sound hformat⟩ hgood
  exact call_edits hs hcall

theorem listings_follow_calls_small :
    Edits smallSys (shapeOf smallSys.vol (fun _ _ => 0) fun _ => 0)
      (shapeOf (fatMkdir smallSys stillFrame [0x41]).2.vol (fun _ _ => 0) fun _ => 0) (.mkdir stillFrame [0x41]) true := by
  have hok : (Call.run smallSys (.mkdir stillFrame [0x41])).1 = true := by decide
  rw [← hok]
  exact listings_follow_calls blankDisk 400 1 .fat12 smallSys [] (.mkdir stillFrame [0x41]) _ _ _ _ small_format trivial
    small_placeOk

end Ezos.Fat
