import FilterList.Proofs.Text.Trim
import Mathlib.Data.List.Induction
set_option autoImplicit false

/-!
# Unescaped characters

Cutting and splitting by looking back go by one thing only: whether what stands before a character
ends in an odd number of backslashes.  A text in which every `target` is escaped is passed without
a cut, and any other text has a first unescaped `target`, with such a text before it.  The results
of this file follow that division (`unescapedInduction`).

What stands in front of a text matters to it through the parity of its last backslashes alone.  A
character that is not a backslash clears the parity, so the piece behind it is judged as if it
stood at the front.
-/

namespace FilterList.Text

variable {target : Char}

/-! ## What stands in front -/

theorem endsEscaping_append_congr {s s' : Text} (h : endsEscaping s = endsEscaping s') (t : Text) :
    endsEscaping (s ++ t) = endsEscaping (s' ++ t) := by
  induction t using List.reverseRecOn with
  | nil => simpa using h
  | append_singleton t c ih =>
    rw [← List.append_assoc, ← List.append_assoc, endsEscaping_concat, endsEscaping_concat, ih]

/-- In the text `s`, with `front` before it, every `target` is escaped. -/
def EscapedBehind (front : Text) (target : Char) (s : Text) : Prop :=
  ∀ u v, s = u ++ target :: v → endsEscaping (front ++ u) = true

/-- Every `target` in the text is escaped. -/
def AllEscaped (target : Char) (s : Text) : Prop :=
  ∀ u v, s = u ++ target :: v → endsEscaping u = true

theorem escapedBehind_nil_iff {s : Text} :
    EscapedBehind [] target s ↔ AllEscaped target s := Iff.rfl

/-- What is asked of the two sides of every target is asked of the first character and of the
targets behind it. -/
theorem forall_target_cons_iff (P : Text → Text → Prop) {front s : Text} {c : Char} :
    (∀ u v, c :: s = u ++ target :: v → P (front ++ u) v) ↔
      (c = target → P front s) ∧ ∀ u v, s = u ++ target :: v → P (front ++ [c] ++ u) v := by
  constructor
  · intro h
    constructor
    · rintro rfl
      simpa using h [] s rfl
    · intro u v hs
      rw [List.append_assoc]
      exact h (c :: u) v (by rw [hs]; rfl)
  · rintro ⟨hc, hs⟩ u v huv
    cases u with
    | nil =>
      obtain ⟨rfl, rfl⟩ := List.cons.inj huv
      simpa using hc rfl
    | cons d u =>
      obtain ⟨rfl, hrest⟩ := List.cons.inj huv
      rw [← List.singleton_append, ← List.append_assoc]
      exact hs u v hrest

theorem escapedBehind_cons_iff {front s : Text} {c : Char} :
    EscapedBehind front target (c :: s) ↔
      (c = target → endsEscaping front = true) ∧ EscapedBehind (front ++ [c]) target s :=
  forall_target_cons_iff fun u _ => endsEscaping u = true

theorem escapedBehind_append_iff {front s t : Text} :
    EscapedBehind front target (s ++ t) ↔
      EscapedBehind front target s ∧ EscapedBehind (front ++ s) target t := by
  induction s generalizing front with
  | nil =>
    have hnil : EscapedBehind front target [] := fun u v h => by simp at h
    simp [hnil]
  | cons c s ih =>
    rw [List.cons_append, escapedBehind_cons_iff, ih, escapedBehind_cons_iff, and_assoc,
      List.append_assoc, List.singleton_append]

theorem escapedBehind_congr {front front' s : Text}
    (h : endsEscaping front = endsEscaping front') :
    EscapedBehind front target s ↔ EscapedBehind front' target s := by
  unfold EscapedBehind
  simp only [endsEscaping_append_congr h]

/-- Behind a piece that leaves nothing escaped, the text is judged as at the front. -/
theorem escapedBehind_iff {front s : Text} (h : endsEscaping front = false) :
    EscapedBehind front target s ↔ AllEscaped target s :=
  escapedBehind_congr (show endsEscaping front = endsEscaping [] from h)

theorem allEscaped_of_not_mem {s : Text} (h : target ∉ s) : AllEscaped target s := by
  intro u v hs
  exact absurd (by rw [hs]; simp) h

theorem allEscaped_escape_iff (ht : target ≠ '\\') {c : Char} {s : Text} :
    AllEscaped target ('\\' :: c :: s) ↔ AllEscaped target s := by
  have hclear : endsEscaping ['\\', c] = false := endsEscaping_escape c []
  rw [← escapedBehind_nil_iff, escapedBehind_cons_iff, escapedBehind_cons_iff]
  constructor
  · intro h
    exact (escapedBehind_iff hclear).mp h.2.2
  · intro h
    exact ⟨fun hc => absurd hc.symm ht, fun _ => rfl, (escapedBehind_iff hclear).mpr h⟩

theorem allEscaped_cons_iff {c : Char} (hc : c ≠ '\\') {s : Text} :
    AllEscaped target (c :: s) ↔ c ≠ target ∧ AllEscaped target s := by
  have hclear : endsEscaping [c] = false := endsEscaping_concat_of_ne hc []
  rw [← escapedBehind_nil_iff, escapedBehind_cons_iff, List.nil_append, escapedBehind_iff hclear]
  simp

/-- A piece of a text without an unescaped target has none either. -/
theorem AllEscaped.infix {x s y : Text} (h : AllEscaped target (x ++ s ++ y))
    (hx : endsEscaping x = false) : AllEscaped target s := by
  have hfront := (escapedBehind_append_iff.mp (escapedBehind_nil_iff.mpr h)).1
  exact (escapedBehind_iff hx).mp (escapedBehind_append_iff.mp hfront).2

/-- Two pieces without an unescaped target, with another character between them. -/
theorem AllEscaped.append_cons {s t : Text} {c : Char} (hs : AllEscaped target s)
    (ht : AllEscaped target t) (hc : c ≠ target) (hb : c ≠ '\\') :
    AllEscaped target (s ++ c :: t) := by
  have hclear : endsEscaping (s ++ [c]) = false := endsEscaping_concat_of_ne hb s
  refine escapedBehind_nil_iff.mp (escapedBehind_append_iff.mpr
    ⟨hs, escapedBehind_cons_iff.mpr ⟨fun e => absurd e hc, ?_⟩⟩)
  rw [List.nil_append, escapedBehind_iff hclear]
  exact ht

theorem allEscaped_concat {s : Text} {c : Char} (hs : AllEscaped target s)
    (hc : c = target → endsEscaping s = true) : AllEscaped target (s ++ [c]) := by
  refine escapedBehind_nil_iff.mp (escapedBehind_append_iff.mpr
    ⟨hs, escapedBehind_cons_iff.mpr ⟨hc, ?_⟩⟩)
  exact fun u v h => by simp at h

/-- A text either has all its targets escaped, or has a first target that is not. -/
theorem allEscaped_or_exists_cut (target : Char) (s : Text) :
    AllEscaped target s ∨
      ∃ u v, s = u ++ target :: v ∧ AllEscaped target u ∧ endsEscaping u = false := by
  induction s using List.reverseRecOn with
  | nil => exact .inl (allEscaped_of_not_mem List.not_mem_nil)
  | append_singleton s c ih =>
    rcases ih with hs | ⟨u, v, rfl, hu, he⟩
    · by_cases hc : c = target ∧ endsEscaping s = false
      · obtain ⟨rfl, he⟩ := hc
        exact .inr ⟨s, [], rfl, hs, he⟩
      · left
        refine allEscaped_concat hs fun e => ?_
        simpa using fun he => hc ⟨e, he⟩
    · exact .inr ⟨u, v ++ [c], by simp, hu, he⟩

/-- Induction along the unescaped targets of a text. -/
@[elab_as_elim]
theorem unescapedInduction (target : Char) {motive : Text → Prop}
    (whole : ∀ s, AllEscaped target s → motive s)
    (cut : ∀ u v, AllEscaped target u → endsEscaping u = false → motive v →
      motive (u ++ target :: v)) (s : Text) : motive s := by
  induction hn : s.length using Nat.strongRecOn generalizing s with
  | ind n ih =>
    rcases allEscaped_or_exists_cut target s with hs | ⟨u, v, rfl, hu, he⟩
    · exact whole s hs
    · refine cut u v hu he (ih v.length ?_ v rfl)
      rw [← hn, List.length_append, List.length_cons]
      omega

/-! ## The first unescaped target -/

/-- Where every target is escaped, walking through the text does not stop. -/
theorem pass_of_escapedBehind_cons {front s : Text} {c : Char}
    (h : EscapedBehind front target (c :: s)) :
    ¬(c = target ∧ oddEscapes front.reverse = false) ∧
      EscapedBehind (front ++ [c]) target s := by
  obtain ⟨hc, hs⟩ := escapedBehind_cons_iff.mp h
  refine ⟨?_, hs⟩
  rintro ⟨htarget, hodd⟩
  rw [← endsEscaping, hc htarget] at hodd
  cases hodd

theorem cutUnescapedFrom_append {front s : Text} (h : EscapedBehind front target s) (t : Text) :
    cutUnescapedFrom target front.reverse (s ++ t) =
      (cutUnescapedFrom target (front ++ s).reverse t).map
        fun cut => ⟨s ++ cut.before, cut.after⟩ := by
  induction s generalizing front with
  | nil =>
    rw [List.nil_append, List.append_nil]
    exact Option.map_id_apply.symm
  | cons c s ih =>
    obtain ⟨hpass, hs⟩ := pass_of_escapedBehind_cons h
    have hfront : c :: front.reverse = (front ++ [c]).reverse := by simp
    rw [List.cons_append, cutUnescapedFrom, if_neg hpass, hfront, ih hs, Option.map_map,
      List.append_assoc]
    rfl

theorem cutUnescaped_append_cons {u : Text} (hu : AllEscaped target u)
    (he : endsEscaping u = false) (v : Text) :
    cutUnescaped target (u ++ target :: v) = some ⟨u, v⟩ := by
  have happ := cutUnescapedFrom_append (escapedBehind_nil_iff.mpr hu) (target :: v)
  rw [List.nil_append] at happ
  rw [cutUnescaped, ← List.reverse_nil, happ, cutUnescapedFrom, if_pos ⟨rfl, he⟩]
  simp

theorem cutUnescaped_of_allEscaped {s : Text} (h : AllEscaped target s) :
    cutUnescaped target s = none := by
  have happ := cutUnescapedFrom_append (escapedBehind_nil_iff.mpr h) []
  rw [List.append_nil] at happ
  rw [cutUnescaped, ← List.reverse_nil, happ]
  rfl

/-- A target that is escaped is never the place of the cut, nor is one in front of it. -/
theorem before_of_cutUnescaped {u : Text} (hu : AllEscaped target u) (he : endsEscaping u = true)
    {v : Text} {cut : Cut} (hcut : cutUnescaped target (u ++ target :: v) = some cut) :
    ∃ w, cut.before = u ++ target :: w := by
  have hjoined : AllEscaped target (u ++ [target]) := allEscaped_concat hu fun _ => he
  have happ := cutUnescapedFrom_append (escapedBehind_nil_iff.mpr hjoined) v
  rw [List.append_assoc, List.singleton_append] at happ
  rw [cutUnescaped, ← List.reverse_nil, happ, Option.map_eq_some_iff] at hcut
  obtain ⟨inner, -, rfl⟩ := hcut
  exact ⟨inner.before, by simp⟩

/-- There is nothing to cut at exactly if every target is escaped. -/
theorem cutUnescaped_eq_none_iff {s : Text} :
    cutUnescaped target s = none ↔ AllEscaped target s := by
  constructor
  · intro h
    rcases allEscaped_or_exists_cut target s with hs | ⟨u, v, rfl, hu, he⟩
    · exact hs
    · rw [cutUnescaped_append_cons hu he] at h
      cases h
  · exact cutUnescaped_of_allEscaped

/-- The place of the cut: an unescaped target with none before it. -/
theorem cutUnescaped_eq_some_iff {s : Text} {cut : Cut} :
    cutUnescaped target s = some cut ↔
      s = cut.before ++ target :: cut.after ∧ AllEscaped target cut.before ∧
        endsEscaping cut.before = false := by
  constructor
  · intro h
    rcases allEscaped_or_exists_cut target s with hs | ⟨u, v, rfl, hu, he⟩
    · rw [cutUnescaped_of_allEscaped hs] at h
      cases h
    · rw [cutUnescaped_append_cons hu he] at h
      obtain rfl := Option.some.inj h
      exact ⟨rfl, hu, he⟩
  · rintro ⟨rfl, hu, he⟩
    exact cutUnescaped_append_cons hu he cut.after

instance (s : Text) : Decidable (AllEscaped target s) :=
  decidable_of_iff _ cutUnescaped_eq_none_iff

/-! ## Splitting at every unescaped target -/

theorem splitUnescapedFrom_congr {passed passed' : Text}
    (h : oddEscapes passed = oddEscapes passed')
    (s : Text) : splitUnescapedFrom target passed s = splitUnescapedFrom target passed' s := by
  induction s generalizing passed passed' with
  | nil => rfl
  | cons c s ih =>
    have hnext : oddEscapes (c :: passed) = oddEscapes (c :: passed') := by
      rw [oddEscapes_cons, oddEscapes_cons, h]
    rw [splitUnescapedFrom, splitUnescapedFrom, h, ih hnext]

theorem splitUnescapedFrom_append {front s : Text} (h : EscapedBehind front target s) (t : Text) :
    splitUnescapedFrom target front.reverse (s ++ t) =
      (splitUnescapedFrom target (front ++ s).reverse t).modifyHead (s ++ ·) := by
  induction s generalizing front with
  | nil =>
    rw [List.nil_append, List.append_nil]
    cases splitUnescapedFrom target front.reverse t <;> rfl
  | cons c s ih =>
    obtain ⟨hpass, hs⟩ := pass_of_escapedBehind_cons h
    have hfront : c :: front.reverse = (front ++ [c]).reverse := by simp
    rw [List.cons_append, splitUnescapedFrom, if_neg hpass, hfront, ih hs, List.append_assoc,
      List.modifyHead_modifyHead]
    rfl

/-- A text without an unescaped target is one piece. -/
theorem splitUnescaped_of_allEscaped {s : Text} (h : AllEscaped target s) :
    splitUnescaped target s = [s] := by
  have happ := splitUnescapedFrom_append (escapedBehind_nil_iff.mpr h) []
  rw [List.append_nil] at happ
  rw [splitUnescaped, ← List.reverse_nil, happ]
  simp [splitUnescapedFrom]

/-- The first unescaped target ends the first piece. -/
theorem splitUnescaped_append_cons (ht : target ≠ '\\') {u : Text} (hu : AllEscaped target u)
    (he : endsEscaping u = false) (v : Text) :
    splitUnescaped target (u ++ target :: v) = u :: splitUnescaped target v := by
  have happ := splitUnescapedFrom_append (escapedBehind_nil_iff.mpr hu) (target :: v)
  rw [List.nil_append] at happ
  have hclear : oddEscapes (target :: u.reverse) = oddEscapes [] := by
    rw [oddEscapes_cons]
    simp [ht]
  rw [splitUnescaped, ← List.reverse_nil, happ, splitUnescapedFrom, if_pos ⟨rfl, he⟩,
    splitUnescapedFrom_congr hclear]
  simp [splitUnescaped]

/-- A target that is escaped at the end of a piece joins the piece to the next one. -/
theorem length_splitUnescaped_append_cons (ht : target ≠ '\\') {u : Text}
    (hu : AllEscaped target u) (he : endsEscaping u = true) (v : Text) :
    (splitUnescaped target (u ++ target :: v)).length = (splitUnescaped target v).length := by
  have hjoined : AllEscaped target (u ++ [target]) := allEscaped_concat hu fun _ => he
  have happ := splitUnescapedFrom_append (escapedBehind_nil_iff.mpr hjoined) v
  have hclear : oddEscapes (u ++ [target]).reverse = oddEscapes [] :=
    endsEscaping_concat_of_ne ht u
  rw [List.nil_append, splitUnescapedFrom_congr hclear, List.append_assoc, List.singleton_append]
    at happ
  rw [splitUnescaped, ← List.reverse_nil, happ, List.length_modifyHead]
  rfl

theorem splitUnescaped_ne_nil (ht : target ≠ '\\') (s : Text) : splitUnescaped target s ≠ [] := by
  induction s using unescapedInduction target with
  | whole s hs =>
    rw [splitUnescaped_of_allEscaped hs]
    exact List.cons_ne_nil s []
  | cut u v hu he _ =>
    rw [splitUnescaped_append_cons ht hu he]
    exact List.cons_ne_nil u _

/-- Nothing but the separators is lost by splitting. -/
theorem intercalate_splitUnescaped (ht : target ≠ '\\') (s : Text) :
    List.intercalate [target] (splitUnescaped target s) = s := by
  induction s using unescapedInduction target with
  | whole s hs => rw [splitUnescaped_of_allEscaped hs, List.intercalate_singleton]
  | cut u v hu he ih =>
    rw [splitUnescaped_append_cons ht hu he,
      List.intercalate_cons_of_ne_nil (splitUnescaped_ne_nil ht v), ih, List.append_assoc,
      List.singleton_append]

/-- No piece has an unescaped target. -/
theorem allEscaped_of_mem_splitUnescaped (ht : target ≠ '\\') {s piece : Text}
    (h : piece ∈ splitUnescaped target s) : AllEscaped target piece := by
  induction s using unescapedInduction target with
  | whole s hs =>
    rw [splitUnescaped_of_allEscaped hs, List.mem_singleton] at h
    rwa [h]
  | cut u v hu he ih =>
    rw [splitUnescaped_append_cons ht hu he] at h
    rcases List.mem_cons.mp h with rfl | h
    · exact hu
    · exact ih h

/-- No piece escapes the separator behind it. -/
theorem endsEscaping_of_mem_dropLast_splitUnescaped (ht : target ≠ '\\') {s piece : Text}
    (h : piece ∈ (splitUnescaped target s).dropLast) : endsEscaping piece = false := by
  induction s using unescapedInduction target with
  | whole s hs =>
    rw [splitUnescaped_of_allEscaped hs] at h
    cases h
  | cut u v hu he ih =>
    rw [splitUnescaped_append_cons ht hu he,
      List.dropLast_cons_of_ne_nil (splitUnescaped_ne_nil ht v)] at h
    rcases List.mem_cons.mp h with rfl | h
    · exact he
    · exact ih h

/-- Pieces without an unescaped target are found again if none but the last escapes the target
behind it. -/
theorem splitUnescaped_intercalate (ht : target ≠ '\\') {pieces : List Text} (hne : pieces ≠ [])
    (hpieces : ∀ p ∈ pieces, AllEscaped target p)
    (hends : ∀ p ∈ pieces.dropLast, endsEscaping p = false) :
    splitUnescaped target (List.intercalate [target] pieces) = pieces := by
  induction pieces with
  | nil => exact absurd rfl hne
  | cons first others ih =>
    have hfirst : AllEscaped target first := hpieces first List.mem_cons_self
    cases others with
    | nil => rw [List.intercalate_singleton, splitUnescaped_of_allEscaped hfirst]
    | cons second others =>
      rw [List.dropLast_cons_cons, List.forall_mem_cons] at hends
      rw [List.intercalate_cons_cons, List.append_assoc, List.singleton_append,
        splitUnescaped_append_cons ht hfirst hends.1,
        ih (List.cons_ne_nil _ _) (fun p hp => hpieces p (List.mem_cons_of_mem _ hp)) hends.2]

/-- Splitting and joining are inverse to each other, between all texts on the one side and, on the
other, the lists of pieces without an unescaped separator of which none but the last escapes the
separator behind it. -/
theorem splitUnescaped_inverse_intercalate {separator : Char} (ht : separator ≠ '\\') :
    (∀ s, List.intercalate [separator] (splitUnescaped separator s) = s ∧
      ∀ piece ∈ splitUnescaped separator s, AllEscaped separator piece) ∧
    ∀ pieces, splitUnescaped separator (List.intercalate [separator] pieces) = pieces ↔
      pieces ≠ [] ∧ (∀ piece ∈ pieces, AllEscaped separator piece) ∧
        ∀ piece ∈ pieces.dropLast, endsEscaping piece = false := by
  constructor
  · intro s
    exact ⟨intercalate_splitUnescaped ht s, fun _ => allEscaped_of_mem_splitUnescaped ht⟩
  · intro pieces
    constructor
    · intro h
      rw [← h]
      exact ⟨splitUnescaped_ne_nil ht _, fun _ => allEscaped_of_mem_splitUnescaped ht,
        fun _ => endsEscaping_of_mem_dropLast_splitUnescaped ht⟩
    · intro h
      obtain ⟨hne, hpieces, hends⟩ := h
      exact splitUnescaped_intercalate ht hne hpieces hends

/-- The first comma is escaped, the second one stands behind an escaped backslash, and the last
piece may end in a backslash, since nothing follows it. -/
theorem splitUnescaped_inverse_intercalate_commas :
    List.intercalate [','] (splitUnescaped ',' "a\\,b\\\\,,é\\".toList) = "a\\,b\\\\,,é\\".toList ∧
      splitUnescaped ',' (List.intercalate [','] ["a\\,b\\\\".toList, [], "é\\".toList]) =
        ["a\\,b\\\\".toList, [], "é\\".toList] := by
  have hne : ',' ≠ '\\' := by decide
  obtain ⟨hjoin, hsplit⟩ := splitUnescaped_inverse_intercalate hne
  exact ⟨(hjoin _).1, (hsplit _).mpr ⟨by decide, by decide, by decide⟩⟩

/-- Joining pieces never makes more of them. -/
theorem length_splitUnescaped_intercalate_le (ht : target ≠ '\\') {pieces : List Text}
    (hne : pieces ≠ []) (hpieces : ∀ p ∈ pieces, AllEscaped target p) :
    (splitUnescaped target (List.intercalate [target] pieces)).length ≤ pieces.length := by
  induction pieces with
  | nil => exact absurd rfl hne
  | cons first others ih =>
    obtain ⟨hfirst, hothers⟩ := List.forall_mem_cons.mp hpieces
    cases others with
    | nil =>
      refine Nat.le_of_eq ?_
      rw [List.intercalate_singleton, splitUnescaped_of_allEscaped hfirst]
    | cons second others =>
      have hle := ih (List.cons_ne_nil _ _) hothers
      rw [List.intercalate_cons_cons, List.append_assoc, List.singleton_append, List.length_cons]
      cases he : endsEscaping first with
      | false =>
        rw [splitUnescaped_append_cons ht hfirst he, List.length_cons]
        omega
      | true =>
        rw [length_splitUnescaped_append_cons ht hfirst he]
        omega

/-- A piece that escapes the target behind it is not found again: there are fewer pieces then. -/
theorem length_splitUnescaped_intercalate_lt (ht : target ≠ '\\') {pieces : List Text}
    (hpieces : ∀ p ∈ pieces, AllEscaped target p)
    (hends : ∃ p ∈ pieces.dropLast, endsEscaping p = true) :
    (splitUnescaped target (List.intercalate [target] pieces)).length < pieces.length := by
  induction pieces with
  | nil => simp at hends
  | cons first others ih =>
    obtain ⟨hfirst, hothers⟩ := List.forall_mem_cons.mp hpieces
    cases others with
    | nil => simp at hends
    | cons second others =>
      rw [List.dropLast_cons_cons] at hends
      rw [List.intercalate_cons_cons, List.append_assoc, List.singleton_append, List.length_cons]
      cases he : endsEscaping first with
      | true =>
        have hle := length_splitUnescaped_intercalate_le ht (List.cons_ne_nil _ _) hothers
        rw [length_splitUnescaped_append_cons ht hfirst he]
        omega
      | false =>
        obtain ⟨p, hp, hescapes⟩ := hends
        rcases List.mem_cons.mp hp with rfl | hp
        · rw [he] at hescapes
          cases hescapes
        · have hlt := ih hothers ⟨p, hp, hescapes⟩
          rw [splitUnescaped_append_cons ht hfirst he, List.length_cons]
          omega

/-! ## Targets with a guard behind them -/

variable {guard : Char}

/-- In the text `s`, with `front` before it, every `target` is escaped or has the guard right
behind it. -/
def GuardedBehind (front : Text) (target guard : Char) (s : Text) : Prop :=
  ∀ u v, s = u ++ target :: v → endsEscaping (front ++ u) = true ∨ beginsWith guard v = true

/-- Every `target` in the text is escaped or has the guard right behind it. -/
def AllGuarded (target guard : Char) (s : Text) : Prop :=
  ∀ u v, s = u ++ target :: v → endsEscaping u = true ∨ beginsWith guard v = true

theorem guardedBehind_cons_iff {front s : Text} {c : Char} :
    GuardedBehind front target guard (c :: s) ↔
      (c = target → endsEscaping front = true ∨ beginsWith guard s = true) ∧
        GuardedBehind (front ++ [c]) target guard s :=
  forall_target_cons_iff fun u v => endsEscaping u = true ∨ beginsWith guard v = true

/-- Behind a piece that leaves nothing escaped, the text is judged as at the front. -/
theorem guardedBehind_iff {front s : Text} (h : endsEscaping front = false) :
    GuardedBehind front target guard s ↔ AllGuarded target guard s := by
  unfold GuardedBehind AllGuarded
  simp only [endsEscaping_append h]

theorem beginsWith_append_of_not {c : Char} {s t : Text} (h : beginsWith c t = false) :
    beginsWith c (s ++ t) = beginsWith c s := by
  cases s with
  | nil => rw [List.nil_append, h]; rfl
  | cons d s => rfl

theorem beginsWith_of_isPrefix {c : Char} {p s : Text} (hs : beginsWith c s = false)
    (hp : p <+: s) : beginsWith c p = false := by
  obtain ⟨t, rfl⟩ := hp
  cases p with
  | nil => rfl
  | cons d p => exact hs

theorem allGuarded_nil : AllGuarded target guard [] := by
  intro u v h
  simp at h

/-- A piece of a guarded text is guarded, unless the guard of its last target is cut off. -/
theorem AllGuarded.infix {x s y : Text} (h : AllGuarded target guard (x ++ s ++ y))
    (hx : endsEscaping x = false) (hy : beginsWith guard y = false) :
    AllGuarded target guard s := by
  intro u v hs
  have hwhole := h (x ++ u) (v ++ y) (by rw [hs]; simp)
  rwa [endsEscaping_append hx, beginsWith_append_of_not hy] at hwhole

/-- Two guarded pieces, with another character between them. -/
theorem AllGuarded.append_cons {s t : Text} {c : Char} (hs : AllGuarded target guard s)
    (ht : AllGuarded target guard t) (hc : c ≠ target) (hb : c ≠ '\\') :
    AllGuarded target guard (s ++ c :: t) := by
  intro u v huv
  rcases List.append_eq_append_iff.mp huv with ⟨w, rfl, hw⟩ | ⟨w, rfl, hw⟩
  · cases w with
    | nil => exact absurd (List.cons.inj hw).1 hc
    | cons d w =>
      obtain ⟨rfl, rfl⟩ := List.cons.inj hw
      have hw := ht w v rfl
      have hclear : endsEscaping (s ++ [c]) = false := endsEscaping_concat_of_ne hb s
      rwa [← List.singleton_append, ← List.append_assoc, endsEscaping_append hclear]
  · cases w with
    | nil => exact absurd (List.cons.inj hw).1.symm hc
    | cons d w =>
      obtain ⟨rfl, rfl⟩ := List.cons.inj hw
      refine (hs u w rfl).imp_right fun hw => ?_
      cases w with
      | nil => cases hw
      | cons e w => exact hw

/-! ## Parts -/

/-- The text `part` stands in `s` such that nothing before it escapes into it and no guard stands
right behind it.  What is escaped and what is guarded in `part` is so in `s`. -/
def PartOf (guard : Char) (part s : Text) : Prop :=
  ∃ x y, s = x ++ part ++ y ∧ endsEscaping x = false ∧ beginsWith guard y = false

theorem PartOf.refl (s : Text) : PartOf guard s s := ⟨[], [], by simp, rfl, rfl⟩

theorem PartOf.trans {p q s : Text} (hp : PartOf guard p q) (hq : PartOf guard q s) :
    PartOf guard p s := by
  obtain ⟨x, y, rfl, hx, hy⟩ := hp
  obtain ⟨x', y', rfl, hx', hy'⟩ := hq
  refine ⟨x' ++ x, y ++ y', by simp, ?_, ?_⟩
  · rw [endsEscaping_append hx', hx]
  · rw [beginsWith_append_of_not hy', hy]

theorem PartOf.allEscaped {p s : Text} (hp : PartOf guard p s) (h : AllEscaped target s) :
    AllEscaped target p := by
  obtain ⟨x, y, rfl, hx, -⟩ := hp
  exact h.infix hx

theorem PartOf.allGuarded {p s : Text} (hp : PartOf guard p s) (h : AllGuarded target guard s) :
    AllGuarded target guard p := by
  obtain ⟨x, y, rfl, hx, hy⟩ := hp
  exact h.infix hx hy

/-- What stands before a character is a part. -/
theorem partOf_before {c : Char} (hc : c ≠ guard) (s t : Text) : PartOf guard s (s ++ c :: t) :=
  ⟨[], c :: t, rfl, rfl, by simpa [beginsWith] using hc⟩

/-- What stands behind a character is a part. -/
theorem partOf_after {c : Char} (hc : c ≠ '\\') (s t : Text) : PartOf guard t (s ++ c :: t) :=
  ⟨s ++ [c], [], by simp, endsEscaping_concat_of_ne hc s, rfl⟩

theorem partOf_trim (hg : isWhiteSpace guard = false) (s : Text) : PartOf guard (trim s) s := by
  obtain ⟨x, y, hs, hx, hy⟩ := exists_eq_append_trim s
  refine ⟨x, y, hs, endsEscaping_of_not_mem fun h => absurd (hx _ h) (by decide), ?_⟩
  cases y with
  | nil => rfl
  | cons c y =>
    have hc : c ≠ guard := ne_of_isWhiteSpace (hy c List.mem_cons_self) hg
    simpa [beginsWith] using hc

theorem partOf_of_mem_splitUnescaped (ht : target ≠ '\\') (hg : target ≠ guard) {s piece : Text}
    (h : piece ∈ splitUnescaped target s) : PartOf guard piece s := by
  induction s using unescapedInduction target with
  | whole s hs =>
    rw [splitUnescaped_of_allEscaped hs, List.mem_singleton] at h
    rw [h]
    exact PartOf.refl s
  | cut u v hu he ih =>
    rw [splitUnescaped_append_cons ht hu he] at h
    rcases List.mem_cons.mp h with rfl | h
    · exact partOf_before hg _ _
    · exact (ih h).trans (partOf_after ht u v)

/-! ## The last unescaped target -/

theorem cutLastUnescapedFrom_eq_none_iff {front s : Text} :
    cutLastUnescapedFrom target guard front.reverse s = none ↔
      GuardedBehind front target guard s := by
  induction s generalizing front with
  | nil => exact ⟨fun _ u v h => by simp at h, fun _ => rfl⟩
  | cons c s ih =>
    have hfront : c :: front.reverse = (front ++ [c]).reverse := by simp
    rw [cutLastUnescapedFrom, hfront, guardedBehind_cons_iff, ← ih]
    cases cutLastUnescapedFrom target guard (front ++ [c]).reverse s with
    | some cut => simp
    | none =>
      rw [← endsEscaping]
      cases endsEscaping front <;> cases beginsWith guard s <;> simp

theorem cutLastUnescapedFrom_eq_some_iff {front s : Text} {cut : Cut} :
    cutLastUnescapedFrom target guard front.reverse s = some cut ↔
      s = cut.before ++ target :: cut.after ∧ endsEscaping (front ++ cut.before) = false ∧
        beginsWith guard cut.after = false ∧
          GuardedBehind (front ++ cut.before ++ [target]) target guard cut.after := by
  induction s generalizing front cut with
  | nil => simp [cutLastUnescapedFrom]
  | cons c s ih =>
    have hfront : c :: front.reverse = (front ++ [c]).reverse := by simp
    rw [cutLastUnescapedFrom, hfront]
    constructor
    · intro h
      cases hinner : cutLastUnescapedFrom target guard (front ++ [c]).reverse s with
      | some inner =>
        rw [hinner] at h
        obtain rfl := Option.some.inj h
        obtain ⟨hs, he, hg, hrest⟩ := ih.mp hinner
        exact ⟨by rw [hs]; rfl, by simpa using he, hg, by simpa using hrest⟩
      | none =>
        rw [hinner] at h
        by_cases hcut : c = target ∧ beginsWith guard s = false ∧ oddEscapes front.reverse = false
        · rw [if_pos hcut] at h
          obtain rfl := Option.some.inj h
          obtain ⟨rfl, hg, he⟩ := hcut
          have hrest := cutLastUnescapedFrom_eq_none_iff.mp hinner
          exact ⟨rfl, by rwa [List.append_nil], hg, by rwa [List.append_nil]⟩
        · rw [if_neg hcut] at h
          cases h
    · obtain ⟨before, after⟩ := cut
      rintro ⟨hs, he, hg, hrest⟩
      cases before with
      | nil =>
        obtain ⟨rfl, rfl⟩ := List.cons.inj hs
        have hnone : cutLastUnescapedFrom c guard (front ++ [c]).reverse s = none :=
          cutLastUnescapedFrom_eq_none_iff.mpr (by simpa using hrest)
        rw [List.append_nil] at he
        rw [hnone, if_pos ⟨rfl, hg, he⟩]
      | cons d before =>
        obtain ⟨rfl, hs⟩ := List.cons.inj hs
        have hinner : cutLastUnescapedFrom target guard (front ++ [c]).reverse s =
            some ⟨before, after⟩ :=
          ih.mpr ⟨hs, by simpa using he, hg, by simpa using hrest⟩
        rw [hinner]
        rfl

/-- The place of the cut: an unescaped target without a guard, and none such behind it. -/
theorem cutLastUnescaped_eq_some_iff (ht : target ≠ '\\') {s : Text} {cut : Cut} :
    cutLastUnescaped target guard s = some cut ↔
      s = cut.before ++ target :: cut.after ∧ endsEscaping cut.before = false ∧
        beginsWith guard cut.after = false ∧ AllGuarded target guard cut.after := by
  have hcut := @cutLastUnescapedFrom_eq_some_iff target guard [] s cut
  rw [guardedBehind_iff (endsEscaping_concat_of_ne ht _)] at hcut
  exact hcut

end FilterList.Text
