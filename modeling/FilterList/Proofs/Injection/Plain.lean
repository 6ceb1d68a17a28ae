import FilterList.Proofs.Css.Selector.Plain
import FilterList.Proofs.Injection.AdGuard
import FilterList.Proofs.Injection.UblockOrigin
set_option autoImplicit false

/-!
# Conversions keep plain injections

What an injection loses on its way through a dialect, it loses to escapes, to white space at the
ends, or to brackets that the scans of the dialects count in different ways.  A plain injection has
none of these, though its selectors may hold marks and its values brackets, quotes and braces.  So
either dialect gives it back, and a chain of conversions keeps it however long it is.
-/

namespace FilterList

open Css Text

/-! ## Plain declarations -/

/-- Refuses what ends a value, outside of brackets. -/
def Text.valueEnd (awaited : List Char) (c : Char) : Bool :=
  awaited.isEmpty && (c == ';' || c == '}')

theorem Css.Declaration.valueStep_of_bracketStep {awaited awaited' : List Char} {c : Char}
    (h : bracketStep valueEnd awaited c = some awaited') :
    valueStep awaited.length c = some awaited'.length := by
  obtain ⟨hend, ⟨rfl, rfl⟩ | ⟨rfl, rfl⟩ | ⟨rfl | rfl, rfl⟩ | ⟨hc, rfl⟩⟩ :=
    bracketStep_eq_some_iff.mp h
  · simp [valueStep]
  · simp [valueStep]
  · simp [valueStep]
  · simp [valueStep]
  · simp only [List.mem_cons, List.not_mem_nil, or_false, not_or] at hc
    cases awaited' with
    | nil =>
      simp only [valueEnd, List.isEmpty_nil, Bool.true_and, Bool.or_eq_false_iff,
        beq_eq_false_iff_ne] at hend
      simp [valueStep, hc, hend]
    | cons closer rest =>
      simp only [valueStep, hc, or_self, if_false, List.length_cons]
      split <;> rfl

namespace Css.Declaration

/-- The name is a plain word, and the value is as it is read: trimmed, empty for custom properties
only, and without the flag of importance unless that was there twice.  The value has no escapes,
its brackets match in kind, and nothing ends it before its end. -/
structure Plain (d : Declaration) : Prop where
  property : isPlainWord d.property = true
  bracketed : Bracketed valueEnd d.value
  trimmed : trim d.value = d.value
  filled : d.value ≠ [] ∨ isCustomProperty d.property = true
  unflagged : d.important = false → splitImportant d.value = (d.value, false)

instance (d : Declaration) : Decidable d.Plain :=
  decidable_of_iff (isPlainWord d.property = true ∧ Bracketed valueEnd d.value ∧
      trim d.value = d.value ∧ (d.value ≠ [] ∨ isCustomProperty d.property = true) ∧
      (d.important = false → splitImportant d.value = (d.value, false)))
    ⟨fun h => ⟨h.1, h.2.1, h.2.2.1, h.2.2.2.1, h.2.2.2.2⟩, fun h => ⟨h.1, h.2, h.3, h.4, h.5⟩⟩

theorem Plain.wellFormed {d : Declaration} (h : d.Plain) : d.WellFormed where
  name := isName_of_isPlainWord h.property
  passes := pass_of_simulation valueStep List.length (fun _ _ _ => valueStep_of_bracketStep)
    h.bracketed.passes
  trimmed := h.trimmed
  plain := h.unflagged
  filled := h.filled

theorem Plain.escapesEnd {d : Declaration} (h : d.Plain) : d.escapesEnd = false := by
  rw [Declaration.escapesEnd, endsEscaping_of_not_mem h.bracketed.unescaped, Bool.and_false]

theorem Plain.balanced_render {d : Declaration} (h : d.Plain) : Balanced d.render := by
  have hproperty : Balanced d.property :=
    .of_all (p := Token.isNameChar) (by decide) (all_isNameChar_of_isPlainWord h.property)
  have hflag : Balanced ((if d.important then " !important".toList else []) ++ [';']) := by
    cases d.important <;> exact balanced_iff.mpr (by decide)
  have hcolon : Balanced [':', ' '] := balanced_iff.mpr (by decide)
  have hwhole := (hproperty.append hcolon).append (h.bracketed.balanced.append hflag)
  simp only [List.append_assoc] at hwhole
  simpa only [Declaration.render, List.append_assoc] using hwhole

end Css.Declaration

/-! ## Plain blocks -/

namespace Css.Block

theorem balanced_renderDeclarations {b : Block} (hne : b.declarations ≠ [])
    (h : ∀ d ∈ b.declarations, d.Plain) : Balanced b.renderDeclarations := by
  have hblank : Balanced [' '] := balanced_iff.mpr (by decide)
  refine intercalate_holds (fun _ _ hs ht => (hs.append hblank).append ht) (by simpa using hne) ?_
  intro s hs
  obtain ⟨d, hd, rfl⟩ := List.mem_map.mp hs
  exact (h d hd).balanced_render

theorem trim_renderDeclarations {b : Block} (hne : b.declarations ≠ [])
    (h : ∀ d ∈ b.declarations, d.Plain) : trim b.renderDeclarations = b.renderDeclarations := by
  rw [trim_eq_self_iff]
  constructor
  · intro c hc
    obtain ⟨ds⟩ := b
    cases ds with
    | nil => exact absurd rfl hne
    | cons d ds =>
      have hproperty := solid_of_isPlainWord (h d List.mem_cons_self).property
      refine (trim_eq_self_iff.mp hproperty.trimmed).1 c ?_
      rw [renderDeclarations_cons, List.head?_append] at hc
      cases hhead : d.property.head? with
      | none => exact absurd (List.head?_eq_none_iff.mp hhead) hproperty.ne_nil
      | some e =>
        rw [hhead] at hc
        exact hc
  · intro c hc
    obtain ⟨x, hx⟩ := exists_renderDeclarations_concat hne
    rw [hx, List.getLast?_concat] at hc
    cases hc
    rfl

end Css.Block

/-! ## Plain injections -/

/-- A removal, or some plain declarations of which none asks for removal. -/
def Effect.Plain : Effect → Prop
  | .remove => True
  | .style block =>
    block.declarations ≠ [] ∧
      ∀ d ∈ block.declarations, d.Plain ∧ Injection.AdGuard.asksRemoval d = false

instance : (effect : Effect) → Decidable effect.Plain
  | .remove => isTrue trivial
  | .style block =>
    inferInstanceAs (Decidable (block.declarations ≠ [] ∧
      ∀ d ∈ block.declarations, d.Plain ∧ Injection.AdGuard.asksRemoval d = false))

namespace Injection

/-- No media queries, plain selectors and a plain effect. -/
structure Plain (i : Injection) : Prop where
  media : i.mediaQueries = none
  selectors : Lexicon.plain.shapesList i.selectors = true
  effect : i.effect.Plain

instance (i : Injection) : Decidable i.Plain :=
  decidable_of_iff (i.mediaQueries = none ∧ Lexicon.plain.shapesList i.selectors = true ∧
    i.effect.Plain) ⟨fun h => ⟨h.1, h.2.1, h.2.2⟩, fun h => ⟨h.1, h.2, h.3⟩⟩

theorem AdGuard.noBrace_of_closed {s : Text} (h : Closed s) : AdGuard.NoBrace s := by
  refine cutBare_eq_none_iff.mpr ⟨none, ?_⟩
  refine pass_of_simulation (avoiding '{') (fun _ => ()) (fun awaited c awaited' hstep => ?_)
    (h.passes [])
  have hfree := (bracketStep_eq_some_iff.mp hstep).1
  simp only [anyBrace, Bool.or_eq_false_iff, beq_eq_false_iff_ne] at hfree
  simp [avoiding, hfree.1]

theorem UblockOrigin.depthStep_of_bracketStep {refuses : List Char → Char → Bool}
    {awaited awaited' : List Char} {c : Char} (h : bracketStep refuses awaited c = some awaited') :
    depthStep awaited.length c = some awaited'.length := by
  obtain ⟨-, ⟨rfl, rfl⟩ | ⟨rfl, rfl⟩ | ⟨rfl | rfl, rfl⟩ | ⟨hc, rfl⟩⟩ := bracketStep_eq_some_iff.mp h
  · simp [depthStep, depthAfter]
  · simp [depthStep, depthAfter]
  · simp [depthStep, depthAfter]
  · simp [depthStep, depthAfter]
  · simp only [List.mem_cons, List.not_mem_nil, or_false, not_or] at hc
    simp [depthStep, depthAfter, hc]

theorem UblockOrigin.render_of_none {i : Injection} (h : i.mediaQueries = none) :
    UblockOrigin.render i =
      .ok (Selector.renderList i.selectors ++ UblockOrigin.renderEffect i.effect) := by
  simp [UblockOrigin.render, h]

theorem UblockOrigin.closesBrackets_of_closed {s : Text} (h : Closed s) :
    UblockOrigin.ClosesBrackets s :=
  pass_of_simulation depthStep List.length (fun _ _ _ => depthStep_of_bracketStep) (h.passes [])

namespace Plain

variable {i : Injection}

theorem wellFormed (h : i.Plain) : i.WellFormed where
  selectors := Lexicon.within_plain.exists_parseList h.selectors
  block b hb := by
    have heffect := h.effect
    rw [hb] at heffect
    exact ⟨heffect.1, fun d hd => (heffect.2 d hd).1.wellFormed⟩
  media l hl := by
    rw [h.media] at hl
    cases hl

theorem restorable_adGuard (h : i.Plain) : AdGuard.Restorable i := by
  have hsolid := Lexicon.solid_renderList h.selectors
  refine ⟨⟨hsolid.trimmed, AdGuard.noBrace_of_closed hsolid.closed⟩, ?_, ?_⟩
  · have heffect := h.effect
    cases hi : i.effect with
    | remove => trivial
    | style block =>
      rw [hi] at heffect
      intro d hd
      exact ⟨(heffect.2 d hd).1.escapesEnd, (heffect.2 d hd).2⟩
  · rw [h.media]
    trivial

theorem restorable_ublockOrigin (h : i.Plain) : UblockOrigin.Restorable i := by
  have hsolid := Lexicon.solid_renderList h.selectors
  refine ⟨hsolid.trimmed, UblockOrigin.closesBrackets_of_closed hsolid.closed, ?_⟩
  have heffect := h.effect
  cases hi : i.effect with
  | remove => trivial
  | style block =>
    rw [hi] at heffect
    obtain ⟨hne, hplain⟩ := heffect
    exact ⟨⟨Block.trim_renderDeclarations hne fun d hd => (hplain d hd).1,
      Block.balanced_renderDeclarations hne fun d hd => (hplain d hd).1⟩,
      fun d hd => (hplain d hd).1.escapesEnd⟩

/-- Whatever a dialect writes for a plain injection is read as that injection. -/
theorem parse_of_render (h : i.Plain) {dialect : Dialect} {t : Text}
    (ht : render dialect i = .ok t) : Injection.parse t = .ok (some i) := by
  cases dialect with
  | common => cases ht
  | adblockPlus => cases ht
  | adGuard =>
    cases ht
    exact (AdGuard.parse_render_iff h.wellFormed).mpr h.restorable_adGuard
  | ublockOrigin =>
    have htext := UblockOrigin.render_of_none h.media
    rw [show UblockOrigin.render i = .ok t from ht] at htext
    cases htext
    have hlast : (trim (Selector.renderList i.selectors ++
        UblockOrigin.renderEffect i.effect)).getLast? = some ')' := by
      rw [UblockOrigin.renderEffect_eq]
      exact UblockOrigin.getLast?_trim_marked _ _ _
    rw [parse_of_parenthesis hlast]
    exact (UblockOrigin.parse_marked_iff h.wellFormed h.media).mpr h.restorable_ublockOrigin

end Plain

/-! ## Chains of conversions -/

theorem convert_of_parse {text : Text} {i : Injection} (h : Injection.parse text = .ok (some i))
    (dialect : Dialect) : convert dialect text = (render dialect i).map some := by
  have hstep : convert dialect text = (do return some (← render dialect i)) := by
    rw [convert, h]
    rfl
  rw [hstep]
  cases render dialect i with
  | error e => rfl
  | ok t => rfl

/-- Each conversion of a chain gives what the dialect writes for the injection that the first text
was read as. -/
theorem Plain.convertChain_eq {i : Injection} (h : i.Plain) (targets : List Dialect) {text : Text}
    (hread : Injection.parse text = .ok (some i)) :
    convertChain targets text = targets.map fun dialect => (render dialect i).map some := by
  induction targets generalizing text with
  | nil => rfl
  | cons target targets ih =>
    rw [convertChain, convert_of_parse hread, List.map_cons]
    cases hrender : render target i with
    | error e => exact congrArg _ (ih hread)
    | ok t => exact congrArg _ (ih (h.parse_of_render hrender))

/-- Either dialect writes a plain injection, and what it writes is read as the same injection.
Along any chain of conversions from a text that is read as the injection, each dialect gives what
it writes for the injection, or its error, and all that is given is read as the same injection. -/
theorem parse_convertChain_of_plain (i : Injection) (h : i.Plain) :
    (∀ dialect, dialect = .adGuard ∨ dialect = .ublockOrigin →
      ∃ t, render dialect i = .ok t ∧ Injection.parse t = .ok (some i)) ∧
    ∀ targets text, Injection.parse text = .ok (some i) →
      convertChain targets text = targets.map (fun dialect => (render dialect i).map some) ∧
        ∀ t, .ok (some t) ∈ convertChain targets text → Injection.parse t = .ok (some i) := by
  constructor
  · intro dialect hdialect
    obtain ⟨t, ht⟩ : ∃ t, render dialect i = .ok t := by
      rcases hdialect with rfl | rfl
      · exact ⟨_, rfl⟩
      · exact ⟨_, UblockOrigin.render_of_none h.media⟩
    exact ⟨t, ht, h.parse_of_render ht⟩
  · intro targets text hread
    have hchain := h.convertChain_eq targets hread
    refine ⟨hchain, fun t ht => ?_⟩
    rw [hchain, List.mem_map] at ht
    obtain ⟨dialect, -, hrender⟩ := ht
    obtain ⟨t', ht', heq⟩ := map_eq_ok_iff.mp hrender
    cases heq
    exact h.parse_of_render ht'

/-- Marks in nested lists, strings and verbatim arguments, and brackets, braces and semicolons in a
value. -/
theorem parse_convertChain_of_plain_marks :
    ∃ (i : Injection) (text : Text), i.Plain ∧
      text = ("p:not(> a:style(:remove()), *) [b=\":style(\"]:c([\"\x7b)\"])" ++
        ":style(d: e(\x7b;\x7d) !important;)").toList ∧
      (∃ t, render .adGuard i = .ok t ∧ Injection.parse t = .ok (some i)) ∧
      Injection.parse text = .ok (some i) ∧
      convertChain [.adGuard, .common, .ublockOrigin] text =
        [.ok (some ("p:not(> a:style(:remove()), *) [b=\":style(\"]:c([\"\x7b)\"])" ++
            " \x7b d: e(\x7b;\x7d) !important; \x7d").toList),
          .error (.unsupported .common), .ok (some text)] := by
  refine ⟨⟨none,
      [⟨[.type ['p'],
        .pseudoClass "not".toList (.selectors
          [⟨[.combinator .child, .type ['a'],
            .pseudoClass "style".toList (.verbatim ":remove()".toList)]⟩, ⟨[.type ['*']]⟩]),
        .combinator .descendant,
        .attr ⟨['b'], some ⟨.equals, .string ":style(".toList⟩, none⟩,
        .pseudoClass ['c'] (.verbatim "[\"\x7b)\"]".toList)]⟩],
      .style ⟨[⟨['d'], "e(\x7b;\x7d)".toList, true⟩]⟩⟩, _, ?plain, rfl,
    (parse_convertChain_of_plain _ ?plain).1 .adGuard (.inl rfl), ?read,
    ((parse_convertChain_of_plain _ ?plain).2 _ _ ?read).1.trans ?given⟩
  case plain => decide +kernel
  case read => decide +kernel
  case given => decide +kernel

end Injection

end FilterList
