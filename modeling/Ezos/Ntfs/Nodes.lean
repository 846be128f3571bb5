import Ezos.Ntfs.Attributes

/-!
# Index nodes

A node is a row of entries up to a last one. Every walk of a node, and every search in it, is a fold over the entries
that are shown; taking an entry out takes it out of them.
-/

namespace Ezos.Ntfs

open Lib.Memory Exfat

set_option autoImplicit false

variable {buf buf' : Mem} {fin pos : Nat} {ps : List Nat}

def shown (buf : Mem) (pos : Nat) : Bool := !entInner buf pos && decide (0 < entNameLen buf pos) && !entDos buf pos

theorem shown_iff : shown buf pos = true ↔
    entInner buf pos = false ∧ 0 < entNameLen buf pos ∧ ¬ entDos buf pos = true := by
  simp [shown, and_assoc]

structure EntOk (buf : Mem) (fin pos : Nat) : Prop where
  len : 0x10 ≤ entLen buf pos
  fits : pos + entLen buf pos ≤ fin
  more : entLast buf pos = false
  key : entInner buf pos = false → 0x52 ≤ entLen buf pos
  name : shown buf pos = true → 0x52 + entNameLen buf pos * 2 ≤ entLen buf pos

inductive Node (buf : Mem) (fin : Nat) : Nat → List Nat → Prop
  | last {pos : Nat} : pos + 0x10 ≤ fin → 0x10 ≤ entLen buf pos → pos + entLen buf pos ≤ fin → entLast buf pos = true →
      Node buf fin pos []
  | more {pos : Nat} {ps : List Nat} : EntOk buf fin pos → Node buf fin (pos + entLen buf pos) ps →
      Node buf fin pos (pos :: ps)

def nodeEnts (buf : Mem) (ps : List Nat) : List Ent := (ps.filter (shown buf)).map (entAt buf)

theorem nodeEnts_cons (buf : Mem) (pos : Nat) (ps : List Nat) :
    nodeEnts buf (pos :: ps) = if shown buf pos then entAt buf pos :: nodeEnts buf ps else nodeEnts buf ps := by
  unfold nodeEnts
  rw [List.filter_cons]
  split
  · rfl
  · rfl

theorem Node.room (h : Node buf fin pos ps) : pos + 16 * ps.length + 16 ≤ fin := by
  induction h with
  | last hroom => exact hroom
  | more he _ ih =>
    have hlen := he.len
    rw [List.length_cons]
    omega

theorem Node.mono {fin' : Nat} (h : Node buf fin pos ps) (hle : fin ≤ fin') : Node buf fin' pos ps := by
  induction h with
  | last hroom hlen hfits hlast => exact .last (Nat.le_trans hroom hle) hlen (Nat.le_trans hfits hle) hlast
  | more he _ ih =>
    exact .more { he with fits := Nat.le_trans he.fits hle } ih

theorem Node.entOk (h : Node buf fin pos ps) {p : Nat} (hp : p ∈ ps) : EntOk buf fin p ∧ pos ≤ p := by
  induction h with
  | last => exact absurd hp List.not_mem_nil
  | more he _ ih =>
    rcases List.mem_cons.mp hp with rfl | hp
    · exact ⟨he, Nat.le_refl _⟩
    · exact ⟨(ih hp).1, Nat.le_trans (Nat.le_add_right _ _) (ih hp).2⟩

def runCb {σ : Type} (cb : σ → Ent → σ × Bool) : List Ent → σ → σ
  | [], ctx => ctx
  | e :: es, ctx => if (cb ctx e).2 then (cb ctx e).1 else runCb cb es (cb ctx e).1

theorem ntWalkFrom_node {σ : Type} (h : Node buf fin pos ps) (cb : σ → Ent → σ × Bool) (n : Nat) (hn : ps.length < n)
    (ctx : σ) : ntWalkFrom buf fin cb n pos ctx = some (runCb cb (nodeEnts buf ps) ctx) := by
  induction h generalizing n ctx with
  | last hroom hlen hfits hlast =>
    cases n with
    | zero => exact absurd hn (Nat.not_lt_zero _)
    | succ n =>
      rw [ntWalkFrom, if_neg (by omega), if_neg (by omega), if_pos hlast]
      rfl
  | @more pos ps he _ ih =>
    rw [List.length_cons] at hn
    cases n with
    | zero => exact absurd hn (Nat.not_lt_zero _)
    | succ n =>
      have hlen := he.len
      have hfits := he.fits
      have hnext := ih n (by omega)
      rw [ntWalkFrom, if_neg (by omega), if_neg (by omega), if_neg (by rw [he.more]; exact Bool.false_ne_true),
        nodeEnts_cons]
      by_cases hin : entInner buf pos = true
      · have hsh : shown buf pos = false := by rw [shown, hin]; rfl
        rw [if_pos hin, hnext, hsh]
        rfl
      · have hinf : entInner buf pos = false := Bool.eq_false_iff.mpr hin
        have hkey := he.key hinf
        rw [if_neg hin, if_neg (by omega)]
        by_cases hname : 0 < entNameLen buf pos ∧ ¬ entDos buf pos = true
        · have hsh := shown_iff.mpr ⟨hinf, hname⟩
          have hroom := he.name hsh
          rw [if_pos hname, if_neg (by omega), if_pos hsh, runCb]
          cases hcb : cb ctx (entAt buf pos) with
          | mk ctx' stop =>
            cases stop with
            | true => rfl
            | false => exact hnext ctx'
        · have hsh : ¬ shown buf pos = true := fun hsh => hname (shown_iff.mp hsh).2
          rw [if_neg hname, if_neg hsh, hnext]

theorem ntWalkEntries_node {σ : Type} (h : Node buf fin pos ps) (cb : σ → Ent → σ × Bool) (ctx : σ) :
    ntWalkEntries buf pos fin cb ctx = some (runCb cb (nodeEnts buf ps) ctx) := by
  have hroom := h.room
  exact ntWalkFrom_node h cb fin (by omega) ctx

theorem runCb_collect (l acc : List Ent) : runCb collect l acc = acc ++ l := by
  induction l generalizing acc with
  | nil => exact (List.append_nil acc).symm
  | cons e l ih =>
    have hstep : runCb collect (e :: l) acc = runCb collect l (acc ++ [e]) := rfl
    rw [hstep, ih, List.append_assoc]
    rfl

theorem runCb_lookup (name : List U8) (l : List Ent) (c : Option Ent) :
    runCb (ntLookupCb name) l c = (l.find? fun e => ntNameEq e.name name).or c := by
  induction l with
  | nil => rfl
  | cons e l ih =>
    rw [runCb, List.find?_cons]
    unfold ntLookupCb
    by_cases he : ntNameEq e.name name = true
    · rw [if_pos he, he]
      rfl
    · rw [if_neg he, Bool.eq_false_iff.mpr he]
      exact ih

theorem runCb_count (l : List Ent) (c : Nat) : runCb ntRmdirCountCb l c = if l = [] then c else c + 1 := by
  cases l with
  | nil => rfl
  | cons e l => rfl

theorem ntFindEntryFrom_node (h : Node buf fin pos ps) (name : List U8) (n : Nat) (hn : ps.length < n) :
    ntFindEntryFrom buf fin name n pos = (ps.filter (shown buf)).find? fun p => ntNameEq (entName buf p) name := by
  induction h generalizing n with
  | last hroom hlen hfits hlast =>
    cases n with
    | zero => exact absurd hn (Nat.not_lt_zero _)
    | succ n =>
      rw [ntFindEntryFrom, if_neg (by omega), if_neg (by omega), if_pos hlast]
      rfl
  | @more pos ps he _ ih =>
    rw [List.length_cons] at hn
    cases n with
    | zero => exact absurd hn (Nat.not_lt_zero _)
    | succ n =>
      have hlen := he.len
      have hfits := he.fits
      have hnext := ih n (by omega)
      rw [ntFindEntryFrom, if_neg (by omega), if_neg (by omega), if_neg (by rw [he.more]; exact Bool.false_ne_true),
        List.filter_cons]
      by_cases hin : entInner buf pos = true
      · have hsh : ¬ shown buf pos = true := fun hsh => Bool.false_ne_true ((shown_iff.mp hsh).1.symm.trans hin)
        rw [if_pos hin, hnext, if_neg hsh]
      · have hinf : entInner buf pos = false := Bool.eq_false_iff.mpr hin
        have hkey := he.key hinf
        rw [if_neg hin, if_neg (by omega)]
        by_cases hname : 0 < entNameLen buf pos ∧ ¬ entDos buf pos = true
        · have hsh := shown_iff.mpr ⟨hinf, hname⟩
          have hroom := he.name hsh
          rw [if_pos hname, if_neg (by omega), if_pos hsh, List.find?_cons]
          by_cases heq : ntNameEq (entName buf pos) name = true
          · rw [if_pos heq, heq]
          · rw [if_neg heq, Bool.eq_false_iff.mpr heq, hnext]
        · have hsh : ¬ shown buf pos = true := fun hsh => hname (shown_iff.mp hsh).2
          rw [if_neg hname, if_neg hsh, hnext]

theorem ntFindIndxFrom_node (h : Node buf fin pos ps) (hleaf : ∀ p ∈ ps, entInner buf p = false) (name : List U8)
    (n : Nat) (hn : ps.length < n) :
    ntFindIndxFrom buf name n pos =
      some ((ps.filter (shown buf)).find? fun p => ntNameEq (entName buf p) name) := by
  induction h generalizing n with
  | last hroom hlen hfits hlast =>
    cases n with
    | zero => exact absurd hn (Nat.not_lt_zero _)
    | succ n =>
      rw [ntFindIndxFrom, if_pos hlast]
      rfl
  | @more pos ps he _ ih =>
    rw [List.length_cons] at hn
    cases n with
    | zero => exact absurd hn (Nat.not_lt_zero _)
    | succ n =>
      have hinf := hleaf pos List.mem_cons_self
      have hnext := ih (fun p hp => hleaf p (List.mem_cons_of_mem pos hp)) n (by omega)
      rw [ntFindIndxFrom, if_neg (by rw [he.more]; exact Bool.false_ne_true), List.filter_cons]
      by_cases hname : 0 < entNameLen buf pos ∧ ¬ entDos buf pos = true
      · have hsh := shown_iff.mpr ⟨hinf, hname⟩
        rw [if_pos hsh, List.find?_cons]
        by_cases heq : ntNameEq (entName buf pos) name = true
        · rw [if_pos ⟨hname.1, hname.2, heq⟩, heq]
        · rw [if_neg fun h => heq h.2.2, Bool.eq_false_iff.mpr heq, hnext]
      · have hsh : ¬ shown buf pos = true := fun hsh => hname (shown_iff.mp hsh).2
        rw [if_neg fun h => hname ⟨h.1, h.2.1⟩, if_neg hsh, hnext]

section Move

variable {d : Nat}

def Moved (d pos fin : Nat) (buf buf' : Mem) : Prop := ∀ x, pos ≤ x → x < fin → buf' (x - d) = buf x

theorem Moved.read16 {x : Nat} (h : Moved d pos fin buf buf') (hd : d ≤ pos) (hlo : pos ≤ x) (hhi : x + 2 ≤ fin) :
    read16 buf' (x - d) = read16 buf x := by
  have h1 := h (x + 1) (by omega) (by omega)
  have hx : x + 1 - d = x - d + 1 := by omega
  rw [hx] at h1
  rw [Lib.Memory.read16, h1, h x hlo (by omega)]
  rfl

theorem Moved.read32 {x : Nat} (h : Moved d pos fin buf buf') (hd : d ≤ pos) (hlo : pos ≤ x) (hhi : x + 4 ≤ fin) :
    read32 buf' (x - d) = read32 buf x := by
  have hat : ∀ k < 4, buf' (x - d + k) = buf (x + k) := by
    intro k hk
    have hx : x - d + k = x + k - d := by omega
    rw [hx]
    exact h (x + k) (by omega) (by omega)
  have h0 := hat 0 (by omega)
  rw [Nat.add_zero, Nat.add_zero] at h0
  rw [Lib.Memory.read32, hat 3 (by omega), hat 2 (by omega), hat 1 (by omega), h0]
  rfl

theorem Moved.head (h : Moved d pos fin buf buf') (hd : d ≤ pos) (hfin : pos + 0x10 ≤ fin) :
    entLen buf' (pos - d) = entLen buf pos ∧ entLast buf' (pos - d) = entLast buf pos ∧
      entInner buf' (pos - d) = entInner buf pos := by
  have hlen : pos - d + 8 = pos + 8 - d := by omega
  have hflags : pos - d + 0xC = pos + 0xC - d := by omega
  unfold entLen entLast entInner
  rw [hlen, hflags, h.read16 hd (by omega) (by omega), h.read16 hd (by omega) (by omega)]
  exact ⟨rfl, rfl, rfl⟩

theorem Moved.shown (h : Moved d pos fin buf buf') (hd : d ≤ pos) (hfin : pos + 0x10 ≤ fin)
    (hkey : entInner buf pos = false → pos + 0x52 ≤ fin) : shown buf' (pos - d) = shown buf pos := by
  unfold Ntfs.shown
  rw [(h.head hd hfin).2.2]
  cases hin : entInner buf pos with
  | true => rfl
  | false =>
    have hfin' := hkey hin
    have hlen : pos - d + 0x50 = pos + 0x50 - d := by omega
    have hdos : pos - d + 0x51 = pos + 0x51 - d := by omega
    unfold entNameLen entDos
    rw [hlen, hdos, h _ (by omega) (by omega), h _ (by omega) (by omega)]

theorem Moved.nameLen (h : Moved d pos fin buf buf') (hd : d ≤ pos) (hfin : pos + 0x52 ≤ fin) :
    entNameLen buf' (pos - d) = entNameLen buf pos := by
  have hlen : pos - d + 0x50 = pos + 0x50 - d := by omega
  unfold entNameLen
  rw [hlen, h _ (by omega) (by omega)]

theorem Moved.entAt (h : Moved d pos fin buf buf') (hd : d ≤ pos) (hfin : pos + 0x52 + entNameLen buf pos * 2 ≤ fin) :
    entAt buf' (pos - d) = entAt buf pos := by
  have hns := h.nameLen hd (by omega)
  have hname : pos - d + 0x52 = pos + 0x52 - d := by omega
  have hdir : pos - d + 0x48 = pos + 0x48 - d := by omega
  have hhi : pos - d + 4 = pos + 4 - d := by omega
  have hunits : unitsAt buf' (pos + 0x52 - d) (entNameLen buf pos) = unitsAt buf (pos + 0x52) (entNameLen buf pos) := by
    refine List.map_congr_left fun i hi => ?_
    have hlt := List.mem_range.mp hi
    have hx : pos + 0x52 - d + 2 * i = pos + 0x52 + 2 * i - d := by omega
    rw [hx]
    exact h.read16 hd (by omega) (by omega)
  unfold Ntfs.entAt entName entRef ntUtf16ToAscii Lib.Memory.read64
  rw [hns, hname, hunits, hdir, hhi, h.read32 hd (by omega) (by omega), h.read32 hd (by omega) (by omega),
    h.read32 hd (by omega) (by omega)]

theorem Moved.node {lo : Nat} (hm : Moved d lo fin buf buf') (hd : d ≤ lo) (h : Node buf fin pos ps) (hlo : lo ≤ pos) :
    Node buf' (fin - d) (pos - d) (ps.map (· - d)) ∧ nodeEnts buf' (ps.map (· - d)) = nodeEnts buf ps := by
  induction h with
  | @last pos hroom hlen hfits hlast =>
    have hm' : Moved d pos fin buf buf' := fun x hx => hm x (by omega)
    obtain ⟨hl, hla, -⟩ := hm'.head (by omega) hroom
    refine ⟨.last (by omega) (hl ▸ hlen) ?_ (hla ▸ hlast), rfl⟩
    rw [hl]
    omega
  | @more pos ps he hrest ih =>
    have hm' : Moved d pos fin buf buf' := fun x hx => hm x (by omega)
    have hlen := he.len
    have hfits := he.fits
    have hkeyFin : entInner buf pos = false → pos + 0x52 ≤ fin := fun hin => by
      have := he.key hin
      omega
    obtain ⟨hl, hla, hin⟩ := hm'.head (by omega) (by omega)
    have hsh := hm'.shown (by omega) (by omega) hkeyFin
    obtain ⟨hnode, hents⟩ := ih (by omega)
    have hnext : pos - d + entLen buf' (pos - d) = pos + entLen buf pos - d := by
      rw [hl]
      omega
    constructor
    · refine .more ⟨hl ▸ hlen, ?_, hla.trans he.more, ?_, ?_⟩ (hnext.symm ▸ hnode)
      · rw [hl]
        omega
      · rw [hin, hl]
        exact he.key
      · rw [hsh, hl]
        intro hs
        rw [hm'.nameLen (by omega) (hkeyFin (shown_iff.mp hs).1)]
        exact he.name hs
    · rw [List.map_cons, nodeEnts_cons, nodeEnts_cons, hsh, hents]
      by_cases hs : Ntfs.shown buf pos = true
      · have hname := he.name hs
        rw [if_pos hs, if_pos hs, hm'.entAt (by omega) (by omega)]
      · rw [if_neg hs, if_neg hs]

end Move

theorem Node.congr {lo : Nat} (h : Node buf fin pos ps) (hlo : lo ≤ pos) (hs : AgreeFrom lo buf buf') :
    Node buf' fin pos ps ∧ nodeEnts buf' ps = nodeEnts buf ps := by
  have hm : Moved 0 lo fin buf buf' := fun x hx _ => hs x hx
  have hzero : ps.map (· - 0) = ps := List.map_id ps
  have hmoved := hm.node (Nat.zero_le _) h hlo
  rw [hzero] at hmoved
  exact hmoved

theorem Node.remove {pre post : List Nat} {p : Nat} (h : Node buf fin pos (pre ++ p :: post))
    (hfront : ∀ x < p, pos ≤ x → buf' x = buf x)
    (hback : Moved (entLen buf p) (p + entLen buf p) fin buf buf') :
    Node buf' (fin - entLen buf p) pos (pre ++ post.map (· - entLen buf p)) ∧
      nodeEnts buf' (pre ++ post.map (· - entLen buf p)) = nodeEnts buf pre ++ nodeEnts buf post := by
  induction pre generalizing pos with
  | nil =>
    cases h with
    | more he hrest =>
      have hmoved := hback.node (Nat.le_add_left _ _) hrest (Nat.le_refl _)
      rw [Nat.add_sub_cancel] at hmoved
      exact hmoved
  | cons q pre ih =>
    cases h with
    | more he hrest =>
      have hp := (hrest.entOk (List.mem_append_right pre List.mem_cons_self))
      have hpfits := hp.1.fits
      have hple := hp.2
      have hlen := he.len
      have hm : Moved 0 q (q + entLen buf q) buf buf' := fun x hx hx' => hfront x (by omega) hx
      obtain ⟨hnode, hents⟩ := ih hrest fun x hx hx' => hfront x hx (by omega)
      obtain ⟨hl, hla, hin⟩ := hm.head (Nat.zero_le _) (by omega)
      have hkey : entInner buf q = false → q + 0x52 ≤ q + entLen buf q :=
        fun hi => Nat.add_le_add_left (he.key hi) q
      have hsh := hm.shown (Nat.zero_le _) (by omega) hkey
      rw [Nat.sub_zero] at hl hla hin hsh
      constructor
      · refine .more ⟨hl ▸ hlen, ?_, hla.trans he.more, ?_, ?_⟩ (hl.symm ▸ hnode)
        · rw [hl]
          omega
        · rw [hin, hl]
          exact he.key
        · rw [hsh, hl]
          intro hs
          have hns := hm.nameLen (Nat.zero_le _) (hkey (shown_iff.mp hs).1)
          rw [Nat.sub_zero] at hns
          rw [hns]
          exact he.name hs
      · rw [List.cons_append, nodeEnts_cons, nodeEnts_cons, hsh, hents]
        by_cases hs : shown buf q = true
        · have hname := he.name hs
          have hat := hm.entAt (Nat.zero_le _) (by omega)
          rw [Nat.sub_zero] at hat
          rw [if_pos hs, if_pos hs, hat, List.cons_append]
        · rw [if_neg hs, if_neg hs]

end Ezos.Ntfs
