import FilterList.Proofs.Text.Balanced
import FilterList.Proofs.Text.Trim
set_option autoImplicit false

/-!
# Respelled text

What is written back is rarely the text that was read: gaps and comments are gone, strings have
other quotes, and blanks stand at fixed places.  `Respelled` says what the written text still
shares with the text that was read.  It is enough to put written pieces together, and to see that
trimming or cutting a written text loses something that reading it again would miss.
-/

namespace FilterList.Text

/-- The text `v` is written for what was read from `u`: both leave nothing escaped behind them, `v`
leaves no quotation open and does not end in a blank of its own, and apart from blanks, double
quotes and backslashes it holds no character more often than `u` does. -/
structure Respelled (u v : Text) : Prop where
  source_even : endsEscaping u = false
  closes : ClosesQuotations v
  even : endsEscaping v = false
  tail : ∀ v', v = v' ++ [' '] → endsEscaping v' = true
  count_le : ∀ c, c ≠ ' ' → c ≠ '"' → c ≠ '\\' → v.count c ≤ u.count c

namespace Respelled

/-- A gap that is left out. -/
theorem nil {u : Text} (hu : endsEscaping u = false) : Respelled u [] where
  source_even := hu
  closes := by rw [ClosesQuotations, pass_nil]
  even := rfl
  tail := by simp
  count_le := by simp

/-- A text that ends in a character other than a blank. -/
theorem of_concat {u v : Text} {d : Char} (hu : endsEscaping u = false)
    (hclose : ClosesQuotations (v ++ [d])) (heven : endsEscaping (v ++ [d]) = false) (hd : d ≠ ' ')
    (hcount : ∀ c, c ≠ ' ' → c ≠ '"' → c ≠ '\\' → (v ++ [d]).count c ≤ u.count c) :
    Respelled u (v ++ [d]) := by
  refine ⟨hu, hclose, heven, ?_, hcount⟩
  intro v' hv
  have hlast := List.append_inj_right' hv rfl
  exact absurd (List.cons.inj hlast).1 hd

theorem append {u v s t : Text} (h : Respelled u v) (h' : Respelled s t) :
    Respelled (u ++ s) (v ++ t) := by
  refine ⟨by rw [endsEscaping_append h.source_even, h'.source_even],
    h.closes.append h.even h'.closes, by rw [endsEscaping_append h.even, h'.even], ?_, ?_⟩
  · intro w hw
    cases hrev : t.reverse with
    | nil =>
      rw [List.reverse_eq_nil_iff.mp hrev, List.append_nil] at hw
      exact h.tail w hw
    | cons d r =>
      have ht : t = r.reverse ++ [d] := by rw [← List.reverse_reverse t, hrev]; simp
      rw [ht, ← List.append_assoc] at hw
      obtain ⟨rfl, hd⟩ := List.append_inj' hw rfl
      rw [endsEscaping_append h.even]
      exact h'.tail _ (by rw [ht, hd])
  · intro c h₁ h₂ h₃
    rw [List.count_append, List.count_append]
    exact Nat.add_le_add (h.count_le c h₁ h₂ h₃) (h'.count_le c h₁ h₂ h₃)

theorem gap_append {u v w : Text} (h : Respelled u v) (hw : endsEscaping w = false) :
    Respelled (w ++ u) v :=
  (nil hw).append h

theorem append_gap {u v w : Text} (h : Respelled u v) (hw : endsEscaping w = false) :
    Respelled (u ++ w) v := by
  have := h.append (nil hw)
  rwa [List.append_nil] at this

theorem closes_singleton {c : Char} (hq : isQuote c = false) (hb : c ≠ '\\') :
    ClosesQuotations [c] :=
  pass_of_inert (fun d hd => by
    rw [List.mem_singleton] at hd
    subst hd
    exact ⟨hq, hb, fun _ => rfl⟩) () Quotation.proper_none

/-- The character stands for itself: it is no blank, no quote and no backslash. -/
def isSolid (c : Char) : Bool := !isQuote c && c != '\\' && c != ' '

/-- A sign that is written as it was read. -/
theorem sign {c : Char} (hc : isSolid c = true) : Respelled [c] [c] := by
  simp only [isSolid, Bool.and_eq_true, Bool.not_eq_true', bne_iff_ne] at hc
  obtain ⟨⟨hq, hb⟩, hs⟩ := hc
  have heven : endsEscaping [c] = false := endsEscaping_concat_of_ne hb []
  exact of_concat (v := []) heven (closes_singleton hq hb) heven hs fun _ _ _ _ => Nat.le_refl _

theorem cons {u v : Text} {c : Char} (hc : isSolid c = true) (h : Respelled u v) :
    Respelled (c :: u) (c :: v) :=
  (sign hc).append h

/-- A blank that is put in front of something. -/
theorem blank_append {u v : Text} (h : Respelled u v) (hv : v ≠ []) : Respelled u (' ' :: v) := by
  refine ⟨h.source_even, (closes_singleton rfl (by decide)).append rfl h.closes, ?_, ?_, ?_⟩
  · rw [endsEscaping_cons_of_ne (by decide), h.even]
  · intro w hw
    cases w with
    | nil =>
      rw [List.nil_append] at hw
      exact absurd (List.cons.inj hw).2 hv
    | cons c w =>
      rw [List.cons_append] at hw
      obtain ⟨rfl, hv'⟩ := List.cons.inj hw
      rw [endsEscaping_cons_of_ne (by decide)]
      exact h.tail w hv'
  · intro c h₁ h₂ h₃
    rw [List.count_cons_of_ne (fun e => h₁ e.symm)]
    exact h.count_le c h₁ h₂ h₃

/-- Text in parentheses.  Its own end may escape the one that closes it. -/
theorem group {u r : Text} (hr : ClosesQuotations r)
    (hcount : ∀ c, c ≠ ' ' → c ≠ '"' → c ≠ '\\' → r.count c ≤ u.count c) :
    Respelled ('(' :: u ++ [')']) ('(' :: r ++ [')']) := by
  have heven : ∀ s : Text, endsEscaping (s ++ [')']) = false :=
    endsEscaping_concat_of_ne (by decide)
  refine of_concat (heven _) ?_ (heven _) (by decide) ?_
  · have hopen : ClosesQuotations ('(' :: r) := (closes_singleton rfl (by decide)).append rfl hr
    have hclose : ∀ c ∈ [')'], Inert (fun (_ : Unit) _ => some ()) c := by
      intro c hc
      rw [List.mem_singleton.mp hc]
      exact ⟨rfl, by decide, fun _ => rfl⟩
    exact (pass_append_inert hclose () Quotation.proper_none _).trans hopen
  · intro c h₁ h₂ h₃
    have := hcount c h₁ h₂ h₃
    simp only [List.cons_append, List.count_cons, List.count_append, List.count_nil]
    omega

/-! ## What trimming would lose -/

theorem eq_blank_of_mem {v x y : Text} (h : Respelled (trim v) v) (hv : v = x ++ trim v ++ y)
    (hx : AllWhite x) (hy : AllWhite y) {c : Char} (hc : c ∈ x ∨ c ∈ y) : c = ' ' := by
  have hwhite : isWhiteSpace c = true := by
    rcases hc with hc | hc
    · exact hx c hc
    · exact hy c hc
  by_cases hblank : c = ' '
  · exact hblank
  · -- any other character that was taken off would be missed in what is left
    have hq : c ≠ '"' := by
      intro hq
      subst hq
      exact absurd hwhite (by decide)
    have hb : c ≠ '\\' := by
      intro hb
      subst hb
      exact absurd hwhite (by decide)
    have hle := h.count_le c hblank hq hb
    have hcount := congrArg (List.count c) hv
    rw [List.count_append, List.count_append] at hcount
    rcases hc with hc | hc
    · have := List.count_pos_iff.mpr hc
      omega
    · have := List.count_pos_iff.mpr hc
      omega

/-- If what trimming leaves of a written text could be read as the same thing, then trimming leaves
all of it. -/
theorem trim_eq {v : Text} (h : Respelled (trim v) v)
    (hhead : v.head? ≠ some ' ') : trim v = v := by
  obtain ⟨x, y, hv, hx, hy⟩ := exists_eq_append_trim v
  have hblank := fun c hc => eq_blank_of_mem h hv hx hy (c := c) hc
  have hxnil : x = [] := by
    cases x with
    | nil => rfl
    | cons c x =>
      rw [hv, hblank c (.inl (by simp))] at hhead
      exact absurd rfl hhead
  have hynil : y = [] := by
    cases hrev : y.reverse with
    | nil => exact List.reverse_eq_nil_iff.mp hrev
    | cons d r =>
      have hyd : y = r.reverse ++ [d] := by rw [← List.reverse_reverse y, hrev]; simp
      have hd : d = ' ' := hblank d (.inr (by rw [hyd]; simp))
      have hr : endsEscaping r.reverse = false := by
        apply endsEscaping_of_not_mem
        intro hmem
        have := hblank '\\' (.inr (by rw [hyd]; simp [List.mem_reverse.mp hmem]))
        exact absurd this (by decide)
      have htail := h.tail (trim v ++ r.reverse) (by
        rw [List.append_assoc, ← hd, ← hyd]
        rw [hxnil, List.nil_append] at hv
        exact hv)
      rw [endsEscaping_append h.source_even, hr] at htail
      cases htail
  rw [hxnil, hynil, List.nil_append, List.append_nil] at hv
  exact hv.symm

end Respelled

end FilterList.Text
