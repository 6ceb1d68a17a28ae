import FilterList.Text.Basic
set_option autoImplicit false

/-!
# Dividing and joining

Lists are written by joining what is written for their items, with a separator between any two.
-/

namespace FilterList.Text

/-- No piece of a divided text holds the separator. -/
theorem not_mem_of_mem_splitOn {c : Char} {s piece : Text} (h : piece ∈ s.splitOn c) :
    c ∉ piece := by
  induction s generalizing piece with
  | nil =>
    rw [List.splitOn_nil, List.mem_singleton] at h
    rw [h]
    exact List.not_mem_nil
  | cons d s ih =>
    rw [List.splitOn_cons_eq_if_modifyHead] at h
    split at h
    · rcases List.mem_cons.mp h with rfl | h
      · exact List.not_mem_nil
      · exact ih h
    · next hd =>
      obtain ⟨first, others, hs⟩ := List.exists_cons_of_ne_nil (List.splitOn_ne_nil c s)
      rw [hs] at h ih
      rcases List.mem_cons.mp h with rfl | h
      · intro hc
        rcases List.mem_cons.mp hc with rfl | hc
        · exact hd (by simp)
        · exact ih List.mem_cons_self hc
      · exact ih (List.mem_cons_of_mem _ h)

/-- Joining two lists after one another puts one separator between what they give apart. -/
theorem intercalate_append {separator : Text} {as bs : List Text} (ha : as ≠ []) (hb : bs ≠ []) :
    List.intercalate separator (as ++ bs) =
      List.intercalate separator as ++ separator ++ List.intercalate separator bs := by
  induction as with
  | nil => exact absurd rfl ha
  | cons a as ih =>
    cases as with
    | nil =>
      rw [List.singleton_append, List.intercalate_cons_of_ne_nil hb, List.intercalate_singleton]
    | cons a' as =>
      rw [List.cons_append, List.cons_append, List.intercalate_cons_cons, ← List.cons_append,
        ih (List.cons_ne_nil _ _), List.intercalate_cons_cons]
      simp only [List.append_assoc]

/-- The second half of a separator may as well stand in front of every piece but the first. -/
theorem intercalate_separator_append (separator lead first : Text) (others : List Text) :
    List.intercalate (separator ++ lead) (first :: others) =
      List.intercalate separator (first :: others.map (lead ++ ·)) := by
  induction others generalizing first with
  | nil => rfl
  | cons second others ih =>
    rw [List.map_cons, List.intercalate_cons_cons, List.intercalate_cons_cons, ih]
    cases others with
    | nil => simp
    | cons third others => simp [List.intercalate_cons_cons]

/-- What holds of every piece, and is kept by joining two texts, holds of all the pieces joined. -/
theorem intercalate_holds {P : Text → Prop} {separator : Text}
    (hjoin : ∀ s t, P s → P t → P (s ++ separator ++ t)) {pieces : List Text} (hne : pieces ≠ [])
    (h : ∀ s ∈ pieces, P s) : P (List.intercalate separator pieces) := by
  induction pieces with
  | nil => exact absurd rfl hne
  | cons s pieces ih =>
    have hs := h s List.mem_cons_self
    cases pieces with
    | nil => rwa [List.intercalate_singleton]
    | cons t pieces =>
      rw [List.intercalate_cons_cons]
      exact hjoin s _ hs (ih (List.cons_ne_nil _ _) fun t ht => h t (List.mem_cons_of_mem _ ht))

end FilterList.Text
