import FilterList.Proofs.Css.Selector.RoundTrip
import FilterList.Proofs.Progress.Token
set_option autoImplicit false

/-!
# Selectors move forward, and their loops end

The productions follow the grammar bottom up.  Those that can hold a nested list take the reader of
such a list and move forward if it does; the recursion on how deep lists may still be nested comes
last.
-/

namespace FilterList.Css

open Reader Token

/-! ## Attributes -/

theorem AttributeOperator.forward_reader : Forward AttributeOperator.reader := by
  rw [forward_iff]
  intro s
  unfold AttributeOperator.reader
  split
  all_goals simp [List.suffix_cons_iff]

theorem AttributeValue.forward_reader : Forward AttributeValue.reader :=
  (forward_quoted.map _).either (forward_name.map _)

theorem AttributeMatcher.forward_reader : Forward AttributeMatcher.reader :=
  AttributeOperator.forward_reader.bind fun _ => forward_blank.bind fun _ =>
    (AttributeValue.forward_reader.expecting _).committed.bind fun _ => forward_pure _

namespace Attribute

theorem forward_flagsReader (matcher : Option AttributeMatcher) :
    Forward (flagsReader matcher) := by
  cases matcher with
  | none => exact forward_pure none
  | some matcher => exact forward_blank.bind fun _ => forward_name.attempt

theorem forward_reader : Forward reader :=
  forward_blank.bind fun _ => (forward_name.expecting _).bind fun _ => forward_blank.bind fun _ =>
    AttributeMatcher.forward_reader.attempt.bind fun matcher =>
      (forward_flagsReader matcher).bind fun _ => forward_blank.bind fun _ =>
        ((forward_char ']').expecting _).bind fun _ => forward_pure _

end Attribute

/-! ## Nodes -/

theorem Combinator.forward_reader : Forward Combinator.reader := by
  rw [forward_iff]
  intro s
  unfold Combinator.reader
  split
  all_goals simp

namespace Node

/-- Takes an identifier with its `#`. -/
def idReader : Reader Node := behind ['#'] (Node.id <$> Reader.committed Token.name)

/-- Takes a class with its dot. -/
def classReader : Reader Node := behind ['.'] (Node.className <$> Reader.committed Token.name)

/-- Takes an attribute selector with its opening bracket. -/
def attributeReader : Reader Node := behind ['['] (Node.attr <$> Reader.committed Attribute.reader)

/-- Takes a pseudo-element with its colons. -/
def doubleColonReader : Reader Node := behind [':', ':'] pseudoElementReader

/-- Takes a pseudo-class with its colon. -/
def colonReader (arguments : Reader (List Selector)) : Reader Node :=
  behind [':'] (pseudoClassReader arguments)

theorem forward_idReader : Forward idReader := (forward_name.committed.map _).behind _

theorem forward_classReader : Forward classReader := (forward_name.committed.map _).behind _

theorem forward_attributeReader : Forward attributeReader :=
  (Attribute.forward_reader.committed.map _).behind _

theorem forward_typeReader : Forward typeReader := by
  rw [forward_iff]
  intro s
  unfold typeReader
  split
  · exact List.suffix_cons _ _
  · exact (forward_name.map _).isSuffix s

theorem forward_pseudoElementReader : Forward pseudoElementReader :=
  forward_name.committed.bind fun _ => (forward_lookingAt '(').bind fun _ =>
    (forward_group.committed.bind fun _ => forward_pure _).ite (forward_pure _)

theorem forward_doubleColonReader : Forward doubleColonReader :=
  forward_pseudoElementReader.behind _

theorem failing_pseudoElementReader : Failing true pseudoElementReader := by
  refine (failing_committed _).bind fun name => (failing_lookingAt true '(').bind fun opens => ?_
  split
  · exact (failing_committed _).bind fun _ => failing_pure true _
  · exact failing_pure true _

section

variable {arguments : Reader (List Selector)}

/-- The kinds of simple selectors are tried one after the other; the first characters decide. -/
theorem subclassReader_eq :
    subclassReader arguments =
      either idReader (either classReader (either attributeReader
        (either doubleColonReader (colonReader arguments)))) := by
  have hid := (failing_committed Token.name).map Node.id
  have hclass := (failing_committed Token.name).map Node.className
  have hattr := (failing_committed Attribute.reader).map Node.attr
  funext s
  unfold subclassReader idReader classReader attributeReader doubleColonReader colonReader
  split
  · next rest => exact (either_behind_append hid ['#'] rest).symm
  · next rest =>
    rw [either_behind_of_ne (by simp)]
    exact (either_behind_append hclass ['.'] rest).symm
  · next rest =>
    rw [either_behind_of_ne (by simp), either_behind_of_ne (by simp)]
    exact (either_behind_append hattr ['['] rest).symm
  · next rest =>
    rw [either_behind_of_ne (by simp), either_behind_of_ne (by simp), either_behind_of_ne (by simp)]
    exact (either_behind_append failing_pseudoElementReader [':', ':'] rest).symm
  · next rest hone =>
    rw [either_behind_of_ne (by simp), either_behind_of_ne (by simp), either_behind_of_ne (by simp),
      either_behind_of_ne (by simpa using hone)]
    exact (behind_append [':'] _ rest).symm
  · next hnumber hdot hbracket hcolons hcolon =>
    rw [either_behind_of_ne hnumber, either_behind_of_ne hdot, either_behind_of_ne hbracket,
      either_behind_of_ne hcolons, behind_of_ne hcolon]

variable (harguments : Forward arguments)

include harguments

theorem forward_pseudoClassReader : Forward (pseudoClassReader arguments) :=
  (forward_name.committed.expecting _).bind fun _ => (forward_lookingAt '(').bind fun _ =>
    ((harguments.bind fun _ => forward_pure _).ite
      ((forward_group.committed.expecting _).bind fun _ => forward_pure _)).ite (forward_pure _)

theorem forward_colonReader : Forward (colonReader arguments) :=
  (forward_pseudoClassReader harguments).behind _

theorem forward_subclassReader : Forward (subclassReader arguments) := by
  rw [subclassReader_eq]
  exact forward_idReader.either (forward_classReader.either (forward_attributeReader.either
    (forward_doubleColonReader.either (forward_colonReader harguments))))

theorem forward_compoundReader : Forward (compoundReader arguments) := by
  refine forward_typeReader.attempt.bind fun type =>
    (forward_subclassReader harguments).many.bind fun others => ?_
  split
  · exact forward_fail
  · exact forward_pure _

theorem forward_afterSignReader (sign : Combinator) : Forward (afterSignReader arguments sign) :=
  forward_blank.bind fun _ =>
    ((forward_compoundReader harguments).committed.expecting _).bind fun _ => forward_pure _

theorem forward_descendantReader : Forward (descendantReader arguments) :=
  (forward_compoundReader harguments).bind fun _ => forward_pure _

theorem forward_stepReader : Forward (stepReader arguments) := by
  rw [forward_iff]
  intro s
  have hskip : skipBlank s <:+ s := skipBlank_suffix s
  have hsign := Combinator.forward_reader.isSuffix (skipBlank s)
  unfold stepReader
  cases h : Combinator.reader (skipBlank s) with
  | done sign rest =>
    rw [h] at hsign
    simp only [h]
    exact ((forward_afterSignReader harguments sign).isSuffix rest).trans (hsign.trans hskip)
  | failed failure rest =>
    simp only [h]
    split
    · exact ((forward_descendantReader harguments).isSuffix (skipBlank s)).trans hskip
    · exact List.suffix_refl s

end

theorem forward_leadReader : Forward leadReader := by
  refine Combinator.forward_reader.attempt.bind fun sign => ?_
  split
  · exact forward_blank.bind fun _ => forward_pure _
  · exact forward_pure _

end Node

/-! ## Selectors -/

namespace Selector

theorem forward_complexReader {arguments : Reader (List Selector)} (harguments : Forward arguments)
    (relative : Bool) : Forward (complexReader arguments relative) := by
  have hcompounds : ∀ lead, Forward (do
      let first ← .expecting .selector (Node.compoundReader arguments)
      let steps ← .many (Node.stepReader arguments)
      return (⟨lead ++ first ++ steps.flatten⟩ : Selector)) := fun _ =>
    ((Node.forward_compoundReader harguments).expecting _).bind fun _ =>
      (Node.forward_stepReader harguments).many.bind fun _ => forward_pure _
  refine forward_blank.bind fun _ => ?_
  cases relative with
  | true => exact Node.forward_leadReader.bind hcompounds
  | false => exact (forward_pure []).bind hcompounds

theorem forward_arguments (depth : Nat) : Forward (arguments depth) := by
  induction depth with
  | zero => exact forward_fail.committed
  | succ depth ih =>
    exact (forward_char '(').bind fun _ =>
      (forward_comma.separated (forward_complexReader ih true)).committed.bind fun _ =>
        forward_blank.bind fun _ => ((forward_char ')').committed.expecting _).bind fun _ =>
          forward_pure _

theorem forward_outermost : Forward outermost :=
  forward_complexReader (forward_arguments maxNesting) false

theorem forward_reader : Forward reader :=
  forward_outermost.bind fun _ => forward_blank.bind fun _ => forward_pure _

theorem forward_listReader : Forward listReader :=
  (forward_comma.separated forward_outermost).bind fun _ => forward_blank.bind fun _ =>
    forward_pure _

end Selector

/-! ## Progress -/

theorem Node.progress_compoundReader (depth : Nat) :
    Progress (compoundReader (Selector.arguments depth)) := by
  refine progress_of_sound (compoundReader_sound (Selector.arguments_sound depth)) ?_
  intro u nodes h
  obtain ⟨c, v, rfl, -⟩ := h.exists_cons
  exact List.cons_ne_nil c v

theorem Node.progress_stepReader (depth : Nat) :
    Progress (stepReader (Selector.arguments depth)) :=
  progress_of_sound (stepReader_sound (Selector.arguments_sound depth)) fun _ _ h => h.ne_nil

theorem Selector.progress_complexReader (depth : Nat) (relative : Bool) :
    Progress (complexReader (arguments depth) relative) :=
  progress_of_sound (complexReader_sound relative (arguments_sound depth)) fun _ _ h => h.ne_nil

end FilterList.Css
