import FilterList.Proofs.Slicing.Injection
import FilterList.Proofs.Slicing.Rule
set_option autoImplicit false

/-!
# No fault is met

Reading by offsets gives what reading without them gives, whatever the text.  A fault would be
another outcome, so none is met.
-/

namespace FilterList

open Css Text

/-- Everything that is read or found in the text by offsets is what is read or found without
them. -/
structure MeetsNoFault (s : Text) : Prop where
  agent : Agent.checkedParse? s = .ok (Agent.parse? s)
  modifiers : Modifier.checkedParseList s = .ok (Modifier.parseList s)
  networkRule : NetworkRule.checkedParse s = .ok (NetworkRule.parse s)
  injection : Injection.checkedParse s = .ok (Injection.parse s)
  adGuard : Injection.AdGuard.checkedParse s = .ok (Injection.AdGuard.parse s)
  ublockOrigin : Injection.UblockOrigin.checkedParse s = .ok (Injection.UblockOrigin.parse s)
  selector : Selector.checkedParse s = .ok (Selector.parse s)
  selectorList : Selector.checkedParseList s = .ok (Selector.parseList s)
  block : Block.checkedParse s = .ok (Block.parse s)
  mediaQueryList : MediaQueryList.checkedParse s = .ok (MediaQueryList.parse s)
  /-- a closing parenthesis can be asked for wherever a character begins or the text ends -/
  closing : ∀ before after, s = before ++ after →
    ∃ stop, closingOffset s (byteLength before) = .ok stop ∧
      groupEnd s (byteLength before) = .ok stop
  /-- asked for anywhere else, it has no fault but that of the offset -/
  closingFault : ∀ start, closingOffset s start = (groupEnd s start).mapError .offset
  /-- whether a byte is escaped can be asked for every offset, also inside a character -/
  escaped : ∀ offset, offset ≤ byteLength s → ∃ b, isEscaped s offset = .ok b
  unescaped : ∀ target, unescapedOffset target s = .ok ((cutUnescaped target s).map Cut.offset)
  lastUnescaped : ∀ target guard,
    lastUnescapedOffset target guard s = .ok ((cutLastUnescaped target guard s).map Cut.offset)
  pieces : ∀ separator, piecesBetween separator s = .ok (splitUnescaped separator s)
  unquoted : ∀ target, unquotedOffset target s = .ok ((cutBare target s).map Cut.offset)

/-- No text makes a reader or a scanner fault. -/
theorem meetsNoFault (s : Text) : MeetsNoFault s where
  agent := Agent.checkedParse?_eq s
  modifiers := Modifier.checkedParseList_eq s
  networkRule := NetworkRule.checkedParse_eq s
  injection := Injection.checkedParse_eq s
  adGuard := Injection.AdGuard.checkedParse_eq s
  ublockOrigin := Injection.UblockOrigin.checkedParse_eq s
  selector := Selector.checkedParse_eq s
  selectorList := Selector.checkedParseList_eq s
  block := Block.checkedParse_eq s
  mediaQueryList := MediaQueryList.checkedParse_eq s
  closing := fun _ _ hs => ⟨_, closingOffset_append hs rfl, groupEnd_append hs rfl⟩
  closingFault := closingOffset_eq s
  escaped := fun _ => exists_isEscaped_eq_ok_iff.mpr
  unescaped := fun target => unescapedOffset_eq target s
  lastUnescaped := fun target guard => lastUnescapedOffset_eq target guard s
  pieces := fun separator => piecesBetween_eq separator s
  unquoted := fun target => unquotedOffset_eq target s

end FilterList
