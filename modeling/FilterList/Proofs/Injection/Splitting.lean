import FilterList.Proofs.Injection.AdGuard
import Mathlib.Data.List.Induction
set_option autoImplicit false

/-!
# Where the AdGuard form is cut

The form is cut at the first bare brace, by a scan that knows quotations and escapes and nothing
else.  The grammar of selectors knows more: a comment may hold a quote, and a verbatim argument a
brace.  The two agree on a text of selectors exactly if the scan comes through it without a brace
and outside of all quotations, and trimming leaves its selectors as they are; what the block holds
makes no difference.
-/

namespace FilterList

open Css Css.Token Css.Reader Text

/-! ## A block with declarations is not blank -/

namespace Css.Block

/-- What may stand around declarations, with any white space. -/
def isWideFiller (c : Char) : Bool := isFiller c || isWhiteSpace c

/-- Skipping stops in a name with a colon behind it, at the colon at the latest. -/
theorem exists_skipGaps_name {n w : Text} (hn : NameChars n) (hw : IsGap w) (t : Text) :
    ∃ c s, skipGaps isWideFiller (n ++ (w ++ ':' :: t)) = c :: s ∧ c ≠ '}' := by
  induction hn with
  | nil =>
    have hgaps : Gaps isWideFiller w := hw.mono fun c hc => by simp [isWideFiller, isFiller, hc]
    refine ⟨':', t, ?_, by decide⟩
    rw [List.nil_append, skipGaps_append rfl hgaps, skipGaps_cons (by decide)]
    rfl
  | @char c n hc _ ih =>
    have hslash : c ≠ '/' := (Declaration.not_filler_of_isNameChar hc).1
    have hbrace : c ≠ '}' := by
      rintro rfl
      exact absurd hc (by decide)
    rw [List.cons_append, skipGaps_cons hslash]
    split
    · exact ih
    · exact ⟨c, _, rfl, hbrace⟩
  | @escape c n _ _ =>
    refine ⟨'\\', c :: (n ++ (w ++ ':' :: t)), ?_, by decide⟩
    rw [List.cons_append, List.cons_append, skipGaps_cons (by decide)]
    rfl

/-- The content of a block that has a declaration is not blank, even when it is trimmed. -/
theorem isBlankContent_trim_of_parse {content : Text} {b : Block}
    (h : Block.parse ('{' :: content ++ ['}']) = .ok b) (hne : b.declarations ≠ []) :
    Injection.isBlankContent (trim content) = false := by
  obtain ⟨d, ds, hds⟩ := List.exists_cons_of_ne_nil hne
  obtain ⟨mid, r, hmany, -, -⟩ := parse_braced_iff.mp h
  rw [hds, many_eq_done_cons_iff Declaration.progress_itemReader] at hmany
  obtain ⟨_, hitem, -⟩ := hmany
  obtain ⟨-, _, hread, -⟩ := Declaration.itemReader_eq_done_iff.mp hitem
  obtain ⟨behind, t, hname, hcolon, -⟩ := Declaration.reader_eq_done_iff.mp hread
  obtain ⟨hskip, hproperty, -⟩ := name_sound hname
  obtain ⟨w, hw, hwgap⟩ := exists_gap_append_skipBlank behind
  obtain ⟨g, hg, hgap⟩ := exists_gaps_append_skipGaps isFiller (content ++ ['}'])
  rw [← skipFiller, hskip, hw, hcolon] at hg
  have hwide : ∀ {s : Text}, Gaps isFiller s → Gaps isWideFiller s :=
    fun hs => hs.mono fun c hc => by simp [isWideFiller, hc]
  cases hblank : Injection.isBlankContent (trim content) with
  | false => rfl
  | true =>
    -- of a blank content the brace alone would be left, and not the name of a property
    have hfiller : Gaps isFiller (trim content) := Injection.isBlankContent_iff_isFiller.mp hblank
    obtain ⟨x, y, hcontent, hx, hy⟩ := exists_eq_append_trim content
    have hwhite : ∀ {s : Text}, AllWhite s → Gaps isWideFiller s :=
      fun hs => Gaps.of_all fun c hc => by simp [isWideFiller, hs c hc]
    have hall : Gaps isWideFiller content := by
      rw [hcontent]
      exact ((hwhite hx).append (hwide hfiller)).append (hwhite hy)
    obtain ⟨c, s, hstop, hc⟩ := exists_skipGaps_name hproperty.1 hwgap t
    have hleft : skipGaps isWideFiller (content ++ ['}']) = ['}'] := by
      rw [skipGaps_append rfl hall, skipGaps_cons (by decide)]
      rfl
    rw [hg, skipGaps_append rfl (hwide hgap), hstop] at hleft
    exact absurd (List.cons.inj hleft).1 hc

/-! ## Braces inside a block -/

/-- Behind every opening brace in the text there is a slash, as there is behind one in a comment. -/
def BracesCommented (s : Text) : Prop := ∀ u v, s = u ++ '{' :: v → '/' ∈ v

theorem bracesCommented_of_not_mem {s : Text} (h : '{' ∉ s) : BracesCommented s := by
  intro u v hs
  exact absurd (by rw [hs]; simp) h

theorem BracesCommented.append {s t : Text} (hs : BracesCommented s) (ht : BracesCommented t) :
    BracesCommented (s ++ t) := by
  intro u v huv
  rcases List.append_eq_append_iff.mp huv with ⟨w, rfl, hw⟩ | ⟨w, rfl, hw⟩
  · exact ht w v hw
  · cases w with
    | nil => exact ht [] v hw.symm
    | cons c w =>
      obtain ⟨rfl, rfl⟩ := List.cons.inj hw
      exact List.mem_append_left _ (hs u w rfl)

theorem bracesCommented_of_gaps {gap : Char → Bool} (hgap : gap '{' = false) {s : Text}
    (hs : Gaps gap s) : BracesCommented s := by
  induction hs with
  | nil => exact bracesCommented_of_not_mem List.not_mem_nil
  | @char c s hc _ ih =>
    have hne : '{' ≠ c := by
      rintro rfl
      rw [hgap] at hc
      cases hc
    exact (bracesCommented_of_not_mem (by simpa using hne)).append (s := [c]) ih
  | @comment body s _ _ ih =>
    have hcomment : BracesCommented ('/' :: '*' :: body ++ ['*', '/']) := by
      intro u v huv
      cases v using List.reverseRecOn with
      | nil =>
        have hlast := congrArg List.getLast? huv
        rw [List.getLast?_append, List.getLast?_append] at hlast
        cases hlast
      | append_singleton v c =>
        have hends : ('/' :: '*' :: body ++ ['*']) ++ ['/'] = (u ++ '{' :: v) ++ [c] := by
          simpa using huv
        rw [← (List.cons.inj (List.append_inj_right' hends rfl)).1]
        simp
    simpa using hcomment.append ih

/-- The declaration holds no opening brace, and no flag. -/
def Bare (d : Declaration) : Prop :=
  d.important = false ∧ '{' ∉ d.property ∧ '{' ∉ d.value

theorem itemReader_bracesCommented :
    Sound (fun u d => u ≠ [] ∧ (Bare d → BracesCommented u)) Declaration.itemReader := by
  intro s d rest h
  obtain ⟨-, mid, hread, hend⟩ := Declaration.itemReader_eq_done_iff.mp h
  obtain ⟨mid', t, hname, hcolon, hsplit, hmid, -⟩ := Declaration.reader_eq_done_iff.mp hread
  obtain ⟨hskip, -, -⟩ := name_sound hname
  obtain ⟨g, hs, hgap⟩ := exists_gaps_append_skipGaps isFiller s
  obtain ⟨w, hw, hwgap⟩ := exists_gap_append_skipBlank mid'
  have happ : (Declaration.spanValue t).1 ++ (Declaration.spanValue t).2 = t :=
    breakBare_append Declaration.valueStep 0 none t
  have htext : s = (g ++ d.property ++ w ++ ':' :: (Declaration.spanValue t).1) ++ mid := by
    rw [hs, ← skipFiller, hskip, hw, hcolon, ← hmid]
    simp [happ]
  have hpart : Bare d →
      BracesCommented (g ++ d.property ++ w ++ ':' :: (Declaration.spanValue t).1) := by
    rintro ⟨himportant, hproperty, hvalue⟩
    have hwritten : '{' ∉ ':' :: (Declaration.spanValue t).1 := by
      have hcount := congrArg (List.count '{')
        ((Declaration.splitImportant_eq hsplit).2.2 himportant)
      rw [count_trim rfl, List.count_eq_zero.mpr hvalue] at hcount
      rw [List.mem_cons, not_or]
      exact ⟨by decide, List.count_eq_zero.mp hcount.symm⟩
    exact (((bracesCommented_of_gaps rfl hgap).append (bracesCommented_of_not_mem hproperty)).append
      (bracesCommented_of_gaps rfl hwgap)).append (bracesCommented_of_not_mem hwritten)
  rcases Declaration.endReader_eq_done_iff.mp hend with rfl | ⟨r, -, rfl⟩
  · refine ⟨g ++ d.property ++ w ++ ':' :: (Declaration.spanValue t).1 ++ [';'], ?_, by simp,
      fun hd => ?_⟩
    · rw [htext]
      simp
    · exact (hpart hd).append (bracesCommented_of_not_mem (by decide))
  · exact ⟨_, htext, by simp, hpart⟩

/-- A block whose declarations hold no brace holds braces in comments only. -/
theorem bracesCommented_of_parse {content : Text} {b : Block}
    (h : Block.parse ('{' :: content ++ ['}']) = .ok b) (hb : ∀ d ∈ b.declarations, Bare d) :
    BracesCommented (content ++ ['}']) := by
  obtain ⟨mid, r, hmany, hclose, hr⟩ := parse_braced_iff.mp h
  obtain ⟨u, hu, hrow⟩ := many_sound itemReader_bracesCommented (fun _ _ h => h.1) _ _ _ hmany
  have hfront : BracesCommented u := by
    clear hu hmany h
    generalize b.declarations = ds at hrow hb
    induction hrow with
    | nil => exact bracesCommented_of_not_mem List.not_mem_nil
    | cons hd _ ih =>
      exact (hd.2 (hb _ List.mem_cons_self)).append
        (ih fun d hd => hb d (List.mem_cons_of_mem _ hd))
  obtain ⟨g, hg, hgap⟩ := exists_gaps_append_skipGaps isFiller mid
  obtain ⟨w, hw, hwgap⟩ := exists_gap_append_skipBlank r
  rw [hr, List.append_nil] at hw
  rw [← skipFiller, hclose] at hg
  rw [hu, hg, hw]
  refine hfront.append ((bracesCommented_of_gaps rfl hgap).append ?_)
  exact (bracesCommented_of_not_mem (s := ['}']) (by decide)).append
    (bracesCommented_of_gaps rfl hwgap)

end Css.Block

/-! ## Selectors in front of a block -/

namespace Injection.AdGuard

theorem closesQuotations_head_iff {s : Text} :
    ClosesQuotations (trimStart (s ++ [' '])) ↔ ClosesQuotations s := by
  rw [ClosesQuotations, ClosesQuotations,
    pass_trimStart fun c hc => inert_of_isWhiteSpace hc fun _ => rfl,
    pass_append_inert (inert_blank fun _ => rfl) () Quotation.proper_none]

/-- A block behind a text of selectors is read if the scan for the brace comes through the text and
trimming leaves its selectors as they are. -/
theorem parse_append_block {s content : Text} {list : List Selector} {block : Block}
    (hbare : LeavesBare s) (hnone : NoBrace s) (hlist : Selector.parseList (trim s) = .ok list)
    (hblock : Block.parse ('{' :: content ++ ['}']) = .ok block) (hne : block.declarations ≠ [])
    (hkept : ∀ d ∈ block.declarations, asksRemoval d = false) :
    AdGuard.parse (s ++ ' ' :: ('{' :: content ++ ['}'])) = .ok ⟨none, list, .style block⟩ := by
  have hsplit : split (s ++ ' ' :: ('{' :: content ++ ['}'])) = some ⟨none, trim s, content⟩ := by
    rw [split_of_none (after?_trim_block hlist content), splitRule_block hbare hnone]
  obtain ⟨c, v, htrim, -⟩ := exists_cons_of_parseList hlist
  refine parse_eq_ok_iff.mpr ⟨_, hsplit, ?_, ofParts_eq_ok_iff.mpr ⟨rfl, hlist, block, hblock, ?_⟩⟩
  · rw [Parts.isInjection, htrim, Block.isBlankContent_trim_of_parse hblock hne]
    rfl
  · exact effectOf_eq_ok_iff.mpr (.inl ⟨rfl, hkept⟩)

/-- If the block `{a:b}` is read behind a text of selectors, the form is cut at the brace of the
block: a brace that stands earlier would be one in the content of the block. -/
theorem pass_of_parse_append_block {s : Text} {list : List Selector}
    (h : AdGuard.parse (s ++ ' ' :: ('{' :: ['a', ':', 'b'] ++ ['}'])) =
      .ok ⟨none, list, .style ⟨[.ofValue ['a'] ['b']]⟩⟩) :
    pass (avoiding '{') () none (trimStart (s ++ [' '])) = some ((), none) ∧
      Selector.parseList (trim s) = .ok list := by
  obtain ⟨parts, hsplit, -, hof⟩ := parse_eq_ok_iff.mp h
  obtain ⟨hmedia, hlist, block, hblock, heffect⟩ := ofParts_eq_ok_iff.mp hof
  obtain ⟨heffect, -⟩ | ⟨heffect, -⟩ := effectOf_eq_ok_iff.mp heffect
  · obtain rfl := Effect.style.inj heffect
    rw [split_of_none (after?_eq_none_of_split hsplit hmedia), trim_block] at hsplit
    obtain ⟨cut, hcut, hcontent, -, hselectors⟩ := splitRule_eq_some_iff.mp hsplit
    obtain ⟨htext, hpass, -⟩ := (cutBare_eq_some_iff rfl).mp hcut
    have hbraces : Block.BracesCommented cut.after := by
      rw [hcontent]
      refine Block.bracesCommented_of_parse hblock fun d hd => ?_
      rw [List.mem_singleton.mp hd]
      exact ⟨rfl, by decide, by decide⟩
    have hbefore : cut.before = trimStart (s ++ [' ']) := by
      rcases List.append_eq_append_iff.mp htext with ⟨w, hw, hrest⟩ | ⟨w, hw, hrest⟩
      · cases w with
        | nil => rw [hw, List.append_nil]
        | cons d w =>
          have hmem : '{' ∈ ['a', ':', 'b'] ++ ['}'] := by
            rw [(List.cons.inj hrest).2]
            simp
          exact absurd hmem (by decide)
      · cases w with
        | nil => rw [hw, List.append_nil]
        | cons d w => exact absurd (hbraces w _ (List.cons.inj hrest).2) (by decide)
    rw [hbefore] at hpass hselectors
    rw [hselectors, trim_head] at hlist
    exact ⟨hpass, hlist⟩
  · cases heffect

/-- Whatever block with declarations that ask for no removal stands behind a text of selectors, the
two are read as an injection, exactly if the scan for the brace comes through the text without one
and outside of all quotations, and trimming leaves its selectors as they are. -/
theorem parse_append_block_iff (s : Text) (list : List Selector)
    (h : Selector.parseList s = .ok list) :
    (∀ t block, Block.parse t = .ok block → beginsWith '{' t = true → endsWith '}' t = true →
        block.declarations ≠ [] → (∀ d ∈ block.declarations, asksRemoval d = false) →
          AdGuard.parse (s ++ ' ' :: t) = .ok ⟨none, list, .style block⟩) ↔
      NoBrace s ∧ ClosesQuotations s ∧ Selector.parseList (trim s) = .ok list := by
  constructor
  · intro hall
    have hread := hall _ ⟨[.ofValue ['a'] ['b']]⟩
      (show Block.parse ('{' :: ['a', ':', 'b'] ++ ['}']) = _ from
        Reader.parseAs_eq_ok_iff.mpr (by decide +kernel)) rfl rfl (by decide) (by decide)
    obtain ⟨hpass, hlist⟩ := pass_of_parse_append_block hread
    refine ⟨noBrace_head_iff.mp (cutBare_eq_none_iff.mpr ⟨none, hpass⟩), ?_, hlist⟩
    exact closesQuotations_head_iff.mp (closesQuotations_of_pass hpass)
  · rintro ⟨hnone, hcloses, hlist⟩ t block hblock hopen hclose hne hkept
    obtain ⟨content, rfl⟩ : ∃ content, t = '{' :: content ++ ['}'] := by
      obtain ⟨front, rfl⟩ := List.getLast?_eq_some_iff.mp (beq_iff_eq.mp hclose)
      cases front with
      | nil => cases hopen
      | cons c content =>
        obtain rfl : c = '{' := Option.some.inj (beq_iff_eq.mp hopen)
        exact ⟨content, rfl⟩
    have heven := (Selector.respelled_of_parseList h).source_even
    exact parse_append_block ⟨hcloses, heven⟩ hnone hlist hblock hne hkept

/-- A brace in a verbatim argument is taken for the one of the block; in quotes it is not. -/
theorem parse_append_block_iff_braces :
    (∃ list, Selector.parseList "p:contains(\x7b)".toList = .ok list ∧
      ¬ ∀ t block, Block.parse t = .ok block → beginsWith '{' t = true → endsWith '}' t = true →
        block.declarations ≠ [] → (∀ d ∈ block.declarations, asksRemoval d = false) →
          AdGuard.parse ("p:contains(\x7b)".toList ++ ' ' :: t) = .ok ⟨none, list, .style block⟩) ∧
    ∃ list, Selector.parseList "p:contains('\x7b')".toList = .ok list ∧
      AdGuard.parse "p:contains('\x7b') \x7b b: c; \x7d".toList =
        .ok ⟨none, list, .style ⟨[.ofValue ['b'] ['c']]⟩⟩ := by
  constructor
  · have hlist : Selector.parseList "p:contains(\x7b)".toList =
        .ok [⟨[.type ['p'], .pseudoClass "contains".toList (.verbatim ['{'])]⟩] := by decide +kernel
    refine ⟨_, hlist, fun hall => ?_⟩
    exact absurd ((parse_append_block_iff _ _ hlist).mp hall).1 (by decide +kernel)
  · have hlist : Selector.parseList "p:contains('\x7b')".toList =
        .ok [⟨[.type ['p'], .pseudoClass "contains".toList (.verbatim "'\x7b'".toList)]⟩] := by
      decide +kernel
    have hall := (parse_append_block_iff _ _ hlist).mpr (by decide +kernel)
    exact ⟨_, hlist, hall "\x7b b: c; \x7d".toList _ (by decide +kernel) rfl rfl (by decide)
      (by decide)⟩

end Injection.AdGuard

end FilterList
