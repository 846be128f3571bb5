import Ezos.Html.Sound

/-!
# What a round does to the strings, the stack and the text nodes

The strings that are stored are never touched again. A round closes the pending run at most once,
before it changes the stack; and it leaves the stack alone, opens one tag, or closes some.
-/

namespace Ezos.Html

open Lib Lib.Checked

set_option autoImplicit false

def closedRun (h : HP) : List HtmlNode :=
  if h.text.used > h.runStart ∧ h.ncount < h.nodes.length then [pending h] else []

theorem texts_emitted {h : HP} {n : HtmlNode} (hn : n.kind ≠ nodeText) :
    texts (emitted h n) = texts h := by
  rcases emitted_cases h n with ⟨-, he⟩ | ⟨hroom, he⟩
  · rw [he]
    rfl
  · rw [he, texts_set hroom, if_neg hn, List.append_nil]

theorem texts_flushed (h : HP) : texts (flushed h) = texts h ++ closedRun h := by
  unfold flushed closedRun
  by_cases hrun : h.text.used > h.runStart
  · rw [if_pos hrun, texts_runStart]
    rcases emitted_cases h (pending h) with ⟨hfull, he⟩ | ⟨hroom, he⟩
    · rw [he, if_neg (fun hc => Nat.not_lt.mpr hfull hc.2), List.append_nil]
      rfl
    · have hkind : (pending h).kind = nodeText := rfl
      rw [he, texts_set hroom, if_pos hkind, if_pos ⟨hrun, hroom⟩]
  · rw [if_neg hrun, texts_runStart, if_neg (fun hc => hrun hc.1), List.append_nil]

structure Still (h h' : HP) : Prop where
  hrefOff : h'.hrefOff = h.hrefOff
  sp : h'.sp = h.sp
  st : h'.st = h.st
  links : h'.links = h.links

theorem Still.refl (h : HP) : Still h h := ⟨rfl, rfl, rfl, rfl⟩

theorem Still.trans {a b c : HP} (h : Still a b) (h' : Still b c) : Still a c :=
  ⟨h'.hrefOff.trans h.hrefOff, h'.sp.trans h.sp, h'.st.trans h.st, h'.links.trans h.links⟩

inductive Opened (h h' : HP) (t : U8) : Prop
  | full (sp : h'.sp = h.sp) (st : h'.st = h.st)
  | pushed (e : Elem) (sp : h'.sp = h.sp + 1) (tag : e.tag = t) (off : e.hrefOff = h.hrefOff)
      (held : Holds h'.st h.sp e) (kept : ∀ i, i < h.sp * stBytes → h'.st[i]? = h.st[i]?)

inductive StackMove (h h' : HP) : Mark → Prop
  | still {m : Mark} (raw : ∀ t j, m = .endTag t j → t = tScript ∨ t = tStyle) (same : Still h h') :
      StackMove h h' m
  | opened {t : U8} {j k : Nat} (into : Opened h h' t) (off : h'.hrefOff = h.hrefOff)
      (links : h'.links = h.links) : StackMove h h' (.startTag t j k)
  | unlinked {t : U8} {j k : Nat} (into : Opened h h' t) (off : h'.hrefOff = 0)
      (links : h'.links = h.links) : StackMove h h' (.startTag t j k)
  | linked {j k : Nat} (into : Opened h h' tA) (links : h'.links = h.links + 1)
      (more : h.href.used + 1 < h'.href.used) (off : h'.hrefOff = BitVec.ofNat 16 h'.href.used)
      (nul : h'.href.out[h'.href.used - 1]? = some 0) : StackMove h h' (.startTag tA j k)
  | closed {t : U8} {j : Nat} (raw : ¬ (t = tScript ∨ t = tStyle))
      (same : ∀ es, es.length = h.sp → Stacked h.st es → Still (restored h (popped t es)) h') :
      StackMove h h' (.endTag t j)

def closesRun : Mark → Bool
  | .text | .decl | .lone => false
  | .endTag t _ => ¬ (t = tScript ∨ t = tStyle)
  | .startTag t _ _ =>
    match element t with
    | .raw | .head | .title | .skipped | .img | .other => false
    | .br | .hr | .a | .pre | .list | .li | .heading | .block | .inl _ => true

structure Deed (h h' : HP) (m : Mark) : Prop where
  href : Grows h.href h'.href
  texts : texts h' = texts h ++ if closesRun m then closedRun h else []
  stack : StackMove h h' m

structure Quiet (h h' : HP) : Prop where
  href : Grows h.href h'.href
  texts : texts h' = texts h
  same : Still h h'

section Pieces
variable {h h' : HP}

theorem Quiet.trans {h'' : HP} (hq : Quiet h h') (hq' : Quiet h' h'') : Quiet h h'' :=
  ⟨hq.href.trans hq'.href, hq'.texts.trans hq.texts, hq.same.trans hq'.same⟩

theorem Moved.quiet (hm : Moved h h') (hs : h.href.used ≤ h.href.out.length) : Quiet h h' := by
  obtain ⟨i, -, -, rfl⟩ := hm
  exact ⟨.refl hs, rfl, rfl, rfl, rfl, rfl⟩

theorem Typed.quiet (ht : Typed h h') (hs : h.href.used ≤ h.href.out.length) : Quiet h h' := by
  rw [ht.same]
  exact ⟨.refl hs, rfl, rfl, rfl, rfl, rfl⟩

theorem emitted_quiet {n : HtmlNode} (hn : n.kind ≠ nodeText)
    (hs : h.href.used ≤ h.href.out.length) : Quiet h (emitted h n) := by
  refine ⟨?_, texts_emitted hn, ?_⟩
  · rcases emitted_cases h n with ⟨-, he⟩ | ⟨-, he⟩ <;> rw [he] <;> exact .refl hs
  · rcases emitted_cases h n with ⟨-, he⟩ | ⟨-, he⟩ <;> rw [he] <;> exact ⟨rfl, rfl, rfl, rfl⟩

theorem flushed_still (h : HP) : Still h (flushed h) ∧ (flushed h).href = h.href := by
  unfold flushed
  split
  · rcases emitted_cases h (pending h) with ⟨-, he⟩ | ⟨-, he⟩ <;> rw [he] <;>
      exact ⟨⟨rfl, rfl, rfl, rfl⟩, rfl⟩
  · exact ⟨⟨rfl, rfl, rfl, rfl⟩, rfl⟩

theorem push_opened (t : U8) : Yields (push h t) fun h' =>
    Opened h h' t ∧ h'.hrefOff = h.hrefOff ∧ h'.links = h.links ∧ h'.href = h.href ∧
      texts h' = texts h := by
  refine (push_yields t).mono ?_
  rintro h' (⟨-, rfl⟩ | ⟨st, rfl, -, -, hheld, hkept⟩)
  · exact ⟨.full rfl rfl, rfl, rfl, rfl, rfl⟩
  · exact ⟨.pushed (current h t) rfl rfl rfl hheld hkept, rfl, rfl, rfl, rfl⟩

theorem unlist_same (h : HP) (t : U8) :
    Still h (unlist h t) ∧ (unlist h t).href = h.href ∧ texts (unlist h t) = texts h ∧
      closedRun (unlist h t) = closedRun h := by
  unfold unlist
  split
  · exact ⟨⟨rfl, rfl, rfl, rfl⟩, rfl, rfl, rfl⟩
  · exact ⟨.refl h, rfl, rfl, rfl⟩

theorem Opened.congr {a b : HP} {t : U8} (ho : Opened h h' t) (hsp : h.sp = a.sp) (hst : h.st = a.st)
    (hoff : h.hrefOff = a.hrefOff) (hsp' : b.sp = h'.sp) (hst' : b.st = h'.st) : Opened a b t := by
  cases ho with
  | full sp st => exact .full (hsp'.trans (sp.trans hsp)) (hst'.trans (st.trans hst))
  | pushed e sp tag off held kept =>
    rw [hsp] at sp held kept
    rw [hst] at kept
    rw [← hst'] at held kept
    exact .pushed e (hsp'.trans sp) tag (off.trans hoff) held kept

theorem Still.opened {h'' : HP} {t : U8} (hs : Still h h') (ho : Opened h' h'' t) : Opened h h'' t :=
  ho.congr hs.sp hs.st hs.hrefOff rfl rfl

theorem quiet_arena {a : Arena} (hgrows : Grows h.href a) : Quiet h { h with href := a } :=
  ⟨hgrows, rfl, rfl, rfl, rfl, rfl⟩

theorem grows_closed {a : Arena} (hgrows : Grows h.href a) (hroom : a.used < h.href.out.length) :
    Grows h.href ⟨a.out.set a.used 0, a.used + 1⟩ := by
  have hsize := hgrows.size
  exact hgrows.trans (grows_set 0 (by omega))

end Pieces

theorem restored_rest (h : HP) (o : Option (Elem × List Elem)) :
    (restored h o).src = h.src ∧ (restored h o).href = h.href ∧ texts (restored h o) = texts h := by
  cases o with
  | none => exact ⟨rfl, rfl, rfl⟩
  | some r => exact ⟨rfl, rfl, rfl⟩

theorem restored_still {h h' : HP} (hs : Still h h') (o : Option (Elem × List Elem)) :
    Still (restored h o) (restored h' o) := by
  cases o with
  | none => exact ⟨rfl, rfl, hs.st, hs.links⟩
  | some r => exact ⟨rfl, rfl, hs.st, hs.links⟩

/-! ### The tags -/

section Tags
variable {d : Doc} {h : HP} (hs : Sound d h)
include hs

theorem skipRaw_quiet (hi : h.i ≤ d.html.length) (t : U8) : Yields (skipRaw h t) (Quiet h) := by
  rw [← hs.src] at hi
  refine (skipRaw_yields t hi).mono ?_
  rintro h' ⟨hm, -⟩
  exact hm.quiet hs.stored

theorem skipOpaque_quiet (hi : h.i ≤ d.html.length) (t : U8) : Yields (skipOpaque h t) (Quiet h) := by
  rw [← hs.src] at hi
  refine (skipOpaque_yields t hi).mono ?_
  intro h' hm
  exact hm.quiet hs.stored

theorem imgTag_quiet {j k : Nat} (hk : k ≤ h.src.length) : Yields (imgTag h j k) (Quiet h) := by
  refine (readAttr_yields hk hs.stored).bind ?_
  rintro r ⟨hgrows, -⟩
  refine yields_ite ?_ ?_
  · rintro ⟨-, hroom⟩
    have hsize := hgrows.size
    refine (yields_store (by omega)).bind ?_
    rintro _ rfl
    rw [emit_eq]
    have hq := quiet_arena (grows_closed hgrows hroom)
    exact yields_ok (hq.trans (emitted_quiet img_ne_text hq.href.fits))
  · intro _
    refine yields_pure (quiet_arena (a := ⟨r.2.out, h.href.used⟩) ?_)
    exact hgrows.back (Nat.le_refl _) hgrows.more

structure Pushed (h h' : HP) (t : U8) : Prop where
  href : Grows h.href h'.href
  texts : texts h' = texts h ++ closedRun h
  into : Opened h h' t
  off : h'.hrefOff = h.hrefOff
  links : h'.links = h.links

theorem emptyTag_still {kind t : U8} (hk : kind ≠ nodeText) : Yields (emptyTag h kind t) fun h' =>
    Still h h' ∧ Grows h.href h'.href ∧ texts h' = texts h ++ closedRun h := by
  obtain ⟨hstill, href⟩ := flushed_still h
  rw [emptyTag, flush_eq]
  change Yields (emit (flushed h) kind t 0 0 0 0) _
  rw [emit_eq]
  have hstored := hs.stored
  rw [← href] at hstored
  have hq := emitted_quiet (n := ⟨0, 0, 0, kind, t, (flushed h).style, 0⟩) hk hstored
  refine yields_ok ⟨hstill.trans hq.same, ?_, hq.texts.trans (texts_flushed h)⟩
  rw [← href]
  exact hq.href

theorem pushTag_pushed {t : U8} {f : HP → HP}
    (hf : ∀ h, ∃ style pre listDepth,
      f h = { h with style := style, pre := pre, listDepth := listDepth }) :
    Yields (pushTag h t f) fun h' => Pushed h h' t := by
  obtain ⟨hstill, href⟩ := flushed_still h
  rw [pushTag, flush_eq]
  refine (push_opened t).bind ?_
  rintro h' ⟨hinto, hoff, hlinks, href', htexts⟩
  refine yields_pure ?_
  obtain ⟨style, pre, listDepth, he⟩ := hf h'
  have hinto' := hstill.opened hinto
  rw [he]
  refine ⟨?_, htexts.trans (texts_flushed h), ?_, hoff.trans hstill.hrefOff,
    hlinks.trans hstill.links⟩
  · change Grows h.href h'.href
    rw [href', href]
    exact .refl hs.stored
  · exact hinto'.congr rfl rfl rfl rfl rfl

theorem blockTag_pushed (t level : U8) : Yields (blockTag h t level) fun h' => Pushed h h' t := by
  obtain ⟨hstill, href⟩ := flushed_still h
  rw [blockTag, flush_eq]
  change Yields (do let h ← emit (flushed h) nodeBlock t level 0 0 0; push h t) _
  rw [emit_eq]
  have hstored := hs.stored
  rw [← href] at hstored
  have hq := emitted_quiet (n := ⟨0, 0, 0, nodeBlock, t, (flushed h).style, level⟩) block_ne_text
    hstored
  refine (push_opened t).mono ?_
  rintro h' ⟨hinto, hoff, hlinks, href', htexts⟩
  refine ⟨?_, (htexts.trans hq.texts).trans (texts_flushed h), (hstill.trans hq.same).opened hinto,
    hoff.trans (hstill.trans hq.same).hrefOff, hlinks.trans (hstill.trans hq.same).links⟩
  rw [href', ← href]
  exact hq.href

theorem aTag_move {j k : Nat} (hk : k ≤ d.html.length) : Yields (aTag h tA j k) fun h' =>
    Grows h.href h'.href ∧ texts h' = texts h ++ closedRun h ∧ StackMove h h' (.startTag tA j k) := by
  obtain ⟨hstill, href⟩ := flushed_still h
  have hstored := hs.stored
  have hsf := hs.flushed
  rw [← hsf.src] at hk
  rw [aTag, flush_eq]
  refine (readAttr_yields hk hsf.stored).bind ?_
  rintro r ⟨hgrows, hr⟩
  have hmore := hgrows.more
  have hend : r.2.used - r.1 + r.1 = r.2.used := by omega
  refine (hrefAdd_yields _ _ _).bind ?_
  intro x hx
  rw [hend] at hx
  refine (push_opened tA).bind ?_
  rintro h' ⟨hinto, -, hlinks, href', htexts⟩
  have hback : Grows (flushed h).href ⟨r.2.out, (flushed h).href.used⟩ :=
    hgrows.back (Nat.le_refl _) hgrows.more
  rcases hx with ⟨-, rfl⟩ | ⟨-, rfl⟩ | ⟨hpos, -, hroom, rfl⟩
  · refine yields_pure ⟨?_, htexts.trans (texts_flushed h), .unlinked ?_ rfl (hlinks.trans hstill.links)⟩
    · change Grows h.href h'.href
      rw [href', ← href]
      exact hback
    · exact hinto.congr hstill.sp hstill.st hstill.hrefOff rfl rfl
  · refine yields_pure ⟨?_, htexts.trans (texts_flushed h), .unlinked ?_ rfl (hlinks.trans hstill.links)⟩
    · change Grows h.href h'.href
      rw [href', ← href]
      exact hback
    · exact hinto.congr hstill.sp hstill.st hstill.hrefOff rfl rfl
  · change r.2.used < r.2.out.length at hroom
    have hroom' := hroom
    rw [hgrows.size] at hroom'
    refine yields_pure ⟨?_, htexts.trans (texts_flushed h), .linked ?_ ?_ ?_ ?_ ?_⟩
    · change Grows h.href h'.href
      rw [href', ← href]
      exact grows_closed hgrows hroom'
    · exact hinto.congr hstill.sp hstill.st hstill.hrefOff rfl rfl
    · exact hlinks.trans (congrArg (· + 1) hstill.links)
    · change h.href.used + 1 < h'.href.used
      rw [href', ← href]
      change (flushed h).href.used + 1 < r.2.used + 1
      omega
    · change _ = BitVec.ofNat 16 h'.href.used
      rw [href']
    · change h'.href.out[h'.href.used - 1]? = some 0
      rw [href']
      exact List.getElem?_set_self hroom

theorem endTag_move (hi : h.i ≤ d.html.length) (t : U8) {j : Nat} (hj : j ≤ d.html.length) :
    Yields (endTag h t j) fun h' => Deed h h' (.endTag t j) := by
  refine yields_ite ?_ ?_
  · intro hraw
    refine (skipRaw_quiet hs hi t).mono ?_
    intro h' hq
    have hcloses : closesRun (.endTag t j) = false := by
      simp only [closesRun, hraw, not_true, decide_false]
    refine ⟨hq.href, ?_, .still ?_ hq.same⟩
    · rw [hcloses, hq.texts]
      exact (List.append_nil _).symm
    · rintro t' j' heq
      injection heq with ht _
      exact ht ▸ hraw
  intro hraw
  obtain ⟨hu, huref, hutexts, hurun⟩ := unlist_same h t
  obtain ⟨hf, href⟩ := flushed_still (unlist h t)
  have hsame := hu.trans hf
  have hsf : Sound d (flushed (unlist h t)) := (hs.unlist t).flushed
  have hcloses : closesRun (.endTag t j) = true := by
    simp only [closesRun, hraw, not_false_eq_true, decide_true]
  obtain ⟨es, hes, hstacked⟩ := hsf.stack
  have hpop : popTo (flushed (unlist h t)) t es.length = _ := popTo_eq hstacked
  rw [flush_eq]
  change Yields (popTo (flushed (unlist h t)) t (flushed (unlist h t)).sp >>= _) _
  rw [← hes, hpop]
  have hsrc : (restored (flushed (unlist h t)) (popped t es)).src = d.html :=
    (restored_rest _ _).1.trans hsf.src
  rw [← hsrc] at hj
  refine (afterGt_yields hj).bind ?_
  rintro i -
  refine yields_pure ⟨?_, ?_, .closed hraw ?_⟩
  · change Grows h.href (restored (flushed (unlist h t)) (popped t es)).href
    rw [(restored_rest _ _).2.1, href, huref]
    exact .refl hs.stored
  · change texts (restored (flushed (unlist h t)) (popped t es)) = _
    rw [(restored_rest _ _).2.2, texts_flushed, hutexts, hurun, hcloses, if_pos rfl]
  · intro es' hes' hstacked'
    rw [← hsame.st] at hstacked'
    have hpop' : popTo (flushed (unlist h t)) t es'.length = _ := popTo_eq hstacked'
    rw [hes', ← hsame.sp, ← hes, hpop] at hpop'
    injection hpop' with heq
    rw [heq]
    have hstill := restored_still hsame (popped t es')
    exact ⟨hstill.hrefOff, hstill.sp, hstill.st, hstill.links⟩

end Tags

def TitleFits (h : HP) : Prop :=
  ∃ r, extractTitle h.src h.i h.href = .ok r ∧ r.1 > 0 ∧ r.2.used < h.href.out.length

/-- The cursor behind a start tag whose `>` is at `k`. -/
def behind (h : HP) (k : Nat) : HP :=
  { h with i := if k < h.src.length then k + 1 else h.src.length }

inductive TitleMove (p p' : Page) : Mark → Prop
  | same {m : Mark} (off : p'.titleOff = p.titleOff) (len : p'.titleLen = p.titleLen)
      (used : ∀ t j k, m = .startTag t j k → element t = .title → p'.h.href.used = p.h.href.used) :
      TitleMove p p' m
  | stored {t : U8} {j k : Nat} (title : element t = .title) (fits : TitleFits (behind p.h k))
      (len : 0 < p'.titleLen) (used : p'.h.href.used = p.h.href.used + p'.titleLen + 1)
      (off : p'.titleOff = BitVec.ofNat 16 p'.h.href.used)
      (nul : p'.h.href.out[p'.h.href.used - 1]? = some 0) : TitleMove p p' (.startTag t j k)

theorem titleTag_move {d : Doc} {p : Page} (hs : Sound d p.h) (hi : p.h.i ≤ d.html.length) (t : U8) :
    Yields (titleTag p t) fun p' => Quiet p.h p'.h ∧
      ((p'.titleOff = p.titleOff ∧ p'.titleLen = p.titleLen ∧ p'.h.href.used = p.h.href.used) ∨
       TitleFits p.h ∧ 0 < p'.titleLen ∧
        p'.h.href.used = p.h.href.used + p'.titleLen + 1 ∧
        p'.titleOff = BitVec.ofNat 16 p'.h.href.used ∧
        p'.h.href.out[p'.h.href.used - 1]? = some 0) := by
  have htitle : Yields (extractTitle p.h.src p.h.i p.h.href) _ :=
    extractTitle_yields p.h.i hs.stored
  obtain ⟨r, hr, hgrows, hlen⟩ := htitle
  have hmore := hgrows.more
  have hsize := hgrows.size
  rw [titleTag, hr]
  refine yields_ite ?_ ?_
  · rintro ⟨hpos, hroom⟩
    refine (yields_store (by omega)).bind ?_
    rintro _ rfl
    obtain ⟨h', hraw, hm, -⟩ := skipRaw_yields (h := { p.h with href := ⟨r.2.out.set r.2.used 0,
      r.2.used + 1⟩ }) t (by rw [← hs.src] at hi; exact hi)
    rw [hraw]
    obtain ⟨i, -, -, rfl⟩ := hm
    refine yields_pure ⟨?_, .inr ⟨⟨r, hr, hpos, hroom⟩, hpos, ?_, rfl, ?_⟩⟩
    · exact ⟨grows_closed hgrows hroom, rfl, rfl, rfl, rfl, rfl⟩
    · change r.2.used + 1 = p.h.href.used + r.1 + 1
      omega
    · exact List.getElem?_set_self (by omega)
  · intro _
    obtain ⟨h', hraw, hm, -⟩ := skipRaw_yields (h := { p.h with href := ⟨r.2.out, p.h.href.used⟩ }) t
      (by rw [← hs.src] at hi; exact hi)
    change Yields (do let h ← skipRaw { p.h with href := ⟨r.2.out, p.h.href.used⟩ } t
                      pure { p with h := h }) _
    rw [hraw]
    obtain ⟨i, -, -, rfl⟩ := hm
    refine yields_pure ⟨?_, .inl ⟨rfl, rfl, rfl⟩⟩
    exact ⟨hgrows.back (Nat.le_refl _) hgrows.more, rfl, rfl, rfl, rfl, rfl⟩

/-! ## Rounds -/

section Rounds
variable {d : Doc} {p : Page}

theorem Quiet.deed {h h' : HP} {m : Mark} (hq : Quiet h h') (hm : closesRun m = false) :
    Deed h h' m := by
  refine ⟨hq.href, ?_, .still ?_ hq.same⟩
  · rw [hq.texts, hm]
    exact (List.append_nil _).symm
  · rintro t j rfl
    simpa only [closesRun, decide_not, Bool.not_eq_false', decide_eq_true_eq] using hm

theorem Quiet.of_behind {h h' : HP} {k : Nat} (hq : Quiet (behind h k) h') : Quiet h h' :=
  ⟨hq.href, hq.texts, hq.same.hrefOff, hq.same.sp, hq.same.st, hq.same.links⟩

theorem Pushed.deed {h h' : HP} {t : U8} {j k : Nat} (hp : Pushed (behind h k) h' t)
    (hm : closesRun (.startTag t j k) = true) : Deed h h' (.startTag t j k) := by
  refine ⟨hp.href, ?_, .opened (hp.into.congr rfl rfl rfl rfl rfl) hp.off hp.links⟩
  rw [hp.texts, hm]
  rfl

theorem StackMove.of_behind {h h' : HP} {n : Nat} {m : Mark} (hm : StackMove (behind h n) h' m) :
    StackMove h h' m := by
  cases hm with
  | still raw same => exact .still raw ⟨same.hrefOff, same.sp, same.st, same.links⟩
  | opened into off links => exact .opened (into.congr rfl rfl rfl rfl rfl) off links
  | unlinked into off links => exact .unlinked (into.congr rfl rfl rfl rfl rfl) off links
  | linked into links more off nul =>
    exact .linked (into.congr rfl rfl rfl rfl rfl) links more off nul
  | closed raw same =>
    refine .closed raw ?_
    intro es hes hst
    have hb : Still h (behind h n) := ⟨rfl, rfl, rfl, rfl⟩
    exact (restored_still hb _).trans (same es hes hst)

theorem ite_ne {α : Type} {c : Prop} [Decidable c] {x y z : α} (hx : x ≠ z) (hy : y ≠ z) : (if c then x else y) ≠ z := by
  split
  · exact hx
  · exact hy

theorem element_a (t : U8) (h : element t = .a) : t = tA := by
  by_contra hne
  unfold element at h
  rw [if_neg hne] at h
  refine absurd h ?_
  repeat'
    apply ite_ne
  all_goals simp

theorem startTag_move (hs : Sound d p.h) {t : U8} {j k : Nat} (hk : k ≤ d.html.length) :
    Yields (startTag { p with h := behind p.h k } t j k) fun p' =>
      Deed p.h p'.h (.startTag t j k) ∧ TitleMove p p' (.startTag t j k) := by
  have hs' : Sound d (behind p.h k) := { hs with }
  have hi : (behind p.h k).i ≤ d.html.length := by
    rw [← hs.src]
    change (if k < p.h.src.length then k + 1 else p.h.src.length) ≤ _
    split <;> omega
  have hksrc : k ≤ (behind p.h k).src.length := by
    rw [hs'.src]
    exact hk
  -- A tag that is not a title leaves the title alone.
  have hpage : ∀ {x : Prog HP}, element t ≠ .title →
      Yields x (fun h' => Deed p.h h' (.startTag t j k)) →
      Yields (do pure { p with h := ← x }) fun p' =>
        Deed p.h p'.h (.startTag t j k) ∧ TitleMove p p' (.startTag t j k) := by
    intro x hne hx
    refine hx.bind ?_
    intro h' hd
    refine yields_pure ⟨hd, .same rfl rfl ?_⟩
    rintro t' j' k' heq ht
    injection heq with htt _ _
    exact absurd (htt ▸ ht) hne
  have hquiet : ∀ {x : Prog HP}, closesRun (.startTag t j k) = false → Yields x (Quiet (behind p.h k)) →
      Yields x fun h' => Deed p.h h' (.startTag t j k) := by
    intro x hm hx
    exact hx.mono fun h' hq => hq.of_behind.deed hm
  have hpushed : ∀ {x : Prog HP}, closesRun (.startTag t j k) = true →
      Yields x (fun h' => Pushed (behind p.h k) h' t) →
      Yields x fun h' => Deed p.h h' (.startTag t j k) := by
    intro x hm hx
    exact hx.mono fun h' hp => hp.deed hm
  have hempty : ∀ {h' : HP}, closesRun (.startTag t j k) = true → Still (behind p.h k) h' →
      Grows (behind p.h k).href h'.href → texts h' = texts (behind p.h k) ++ closedRun (behind p.h k) →
      Deed p.h h' (.startTag t j k) := by
    intro h' hm hstill href htexts
    refine ⟨href, ?_, .still (fun _ _ heq => Mark.noConfusion heq) ?_⟩
    · rw [htexts, hm]
      rfl
    · exact ⟨hstill.hrefOff, hstill.sp, hstill.st, hstill.links⟩
  unfold startTag
  have hcloses : closesRun (.startTag t j k) = match element t with
    | .raw | .head | .title | .skipped | .img | .other => false
    | .br | .hr | .a | .pre | .list | .li | .heading | .block | .inl _ => true := rfl
  cases he : element t with
  | raw =>
    rw [he] at hpage hcloses
    exact hpage (by simp) (hquiet hcloses (skipRaw_quiet hs' hi t))
  | head =>
    rw [he] at hcloses
    have hq : Quiet (behind p.h k) (behind p.h k) := ⟨.refl hs'.stored, rfl, .refl _⟩
    refine yields_pure ⟨hq.of_behind.deed hcloses, .same rfl rfl ?_⟩
    exact fun _ _ _ _ _ => rfl
  | title =>
    rw [he] at hcloses
    refine (titleTag_move hs' hi t).mono ?_
    rintro p' ⟨hq, hsame | hstored⟩
    · exact ⟨hq.of_behind.deed hcloses, .same hsame.1 hsame.2.1 fun _ _ _ _ _ => hsame.2.2⟩
    · obtain ⟨hfits, hpos, hused, hoff, hnul⟩ := hstored
      exact ⟨hq.of_behind.deed hcloses, .stored he hfits hpos hused hoff hnul⟩
  | skipped =>
    rw [he] at hpage hcloses
    exact hpage (by simp) (hquiet hcloses (skipOpaque_quiet hs' hi t))
  | br =>
    rw [he] at hpage hcloses
    refine hpage (by simp) ((emptyTag_still hs' br_ne_text).mono ?_)
    rintro h' ⟨hstill, href, htexts⟩
    exact hempty hcloses hstill href htexts
  | hr =>
    rw [he] at hpage hcloses
    refine hpage (by simp) ((emptyTag_still hs' hr_ne_text).mono ?_)
    rintro h' ⟨hstill, href, htexts⟩
    exact hempty hcloses hstill href htexts
  | img =>
    rw [he] at hpage hcloses
    exact hpage (by simp) (hquiet hcloses (imgTag_quiet hs' hksrc))
  | a =>
    rw [he] at hpage hcloses
    obtain rfl := element_a t he
    refine hpage (by simp) ((aTag_move hs' hk).mono ?_)
    rintro h' ⟨href, htexts, hmove⟩
    refine ⟨href, ?_, hmove.of_behind⟩
    rw [htexts, hcloses]
    rfl
  | pre =>
    rw [he] at hpage hcloses
    exact hpage (by simp) (hpushed hcloses (pushTag_pushed hs' fun h => ⟨_, _, h.listDepth, rfl⟩))
  | list =>
    rw [he] at hpage hcloses
    exact hpage (by simp) (hpushed hcloses (pushTag_pushed hs' fun h => ⟨h.style, h.pre, _, rfl⟩))
  | inl bit =>
    rw [he] at hpage hcloses
    exact hpage (by simp) (hpushed hcloses (pushTag_pushed hs' fun h => ⟨_, h.pre, h.listDepth, rfl⟩))
  | li =>
    rw [he] at hpage hcloses
    exact hpage (by simp) (hpushed hcloses (blockTag_pushed hs' t _))
  | heading =>
    rw [he] at hpage hcloses
    exact hpage (by simp) (hpushed hcloses (blockTag_pushed hs' t _))
  | block =>
    rw [he] at hpage hcloses
    exact hpage (by simp) (hpushed hcloses (blockTag_pushed hs' t _))
  | other =>
    rw [he] at hpage hcloses
    refine hpage (by simp) ((push_opened t).mono ?_)
    rintro h' ⟨hinto, hoff, hlinks, href, htexts⟩
    refine ⟨?_, ?_, .opened (hinto.congr rfl rfl rfl rfl rfl) hoff hlinks⟩
    · rw [href]
      exact .refl hs.stored
    · rw [htexts, hcloses]
      exact (List.append_nil _).symm

theorem act_move (hs : Sound d p.h) (hi : p.h.i < d.html.length) {m : Mark} (hm : MarkAt p.h m) :
    Yields (act p m) fun p' => Deed p.h p'.h m ∧ TitleMove p p' m := by
  have hsrc := hs.src
  have hlt : p.h.i < p.h.src.length := by
    rw [hsrc]
    exact hi
  -- What stands between tags moves the cursor and appends text.
  have hplain : ∀ {x : Prog HP}, closesRun m = false → (∀ t j k, m ≠ .startTag t j k) →
      Yields x (Quiet p.h) →
      Yields (do pure { p with h := ← x }) fun p' => Deed p.h p'.h m ∧ TitleMove p p' m := by
    intro x hm hne hx
    refine hx.bind ?_
    intro h' hq
    exact yields_pure ⟨hq.deed hm, .same rfl rfl fun t j k heq => absurd heq (hne t j k)⟩
  cases m with
  | text =>
    refine hplain rfl (by simp) ((scanText_yields (Nat.le_of_lt hlt) hs.filled).mono ?_)
    rintro h' ⟨ht, -⟩
    exact ht.quiet hs.stored
  | decl =>
    refine hplain rfl (by simp) ((skipDecl_yields hlt).mono ?_)
    rintro h' ⟨hmoved, -⟩
    exact hmoved.quiet hs.stored
  | lone =>
    change Yields (put p.h 0x3C >>= _) _
    rw [put_eq]
    have ht := (typed_putting 0x3C hs.filled).move (Nat.le_succ (putting p.h 0x3C).i)
    have hq : Quiet p.h { putting p.h 0x3C with i := (putting p.h 0x3C).i + 1 } :=
      ht.quiet hs.stored
    exact yields_pure ⟨hq.deed rfl, .same rfl rfl fun t j k heq => Mark.noConfusion heq⟩
  | endTag t j =>
    obtain ⟨-, hj⟩ := hm
    rw [hsrc] at hj
    refine (endTag_move hs (Nat.le_of_lt hi) t hj).bind ?_
    intro h' hd
    exact yields_pure ⟨hd, .same rfl rfl fun t j k heq => Mark.noConfusion heq⟩
  | startTag t j k =>
    obtain ⟨-, -, hk⟩ := hm
    rw [hsrc] at hk
    exact startTag_move hs hk

end Rounds

end Ezos.Html
