import FilterList.Proofs.Text.Scan
import FilterList.Text.WhiteSpace
set_option autoImplicit false

/-!
# Trimmed text

Trimming takes white space off either end and nothing else.  A text is trimmed when trimming
leaves it as it is, which is seen from its first and its last character.
-/

namespace FilterList.Text

/-- Nothing but white space. -/
def AllWhite (s : Text) : Prop := ∀ c ∈ s, isWhiteSpace c = true

theorem AllWhite.append {s t : Text} (hs : AllWhite s) (ht : AllWhite t) : AllWhite (s ++ t) := by
  intro c hc
  rcases List.mem_append.mp hc with hc | hc
  · exact hs c hc
  · exact ht c hc

theorem allWhite_blank : AllWhite [' '] := by
  intro c hc
  rw [List.mem_singleton.mp hc]
  rfl

theorem allWhite_takeWhile (s : Text) : AllWhite (s.takeWhile isWhiteSpace) := by
  intro c hc
  exact List.all_eq_true.mp List.all_takeWhile c hc

theorem allWhite_reverse_takeWhile (s : Text) :
    AllWhite (s.reverse.takeWhile isWhiteSpace).reverse := by
  intro c hc
  exact allWhite_takeWhile s.reverse c (List.mem_reverse.mp hc)

theorem ne_of_isWhiteSpace {c d : Char} (hc : isWhiteSpace c = true)
    (hd : isWhiteSpace d = false) : c ≠ d := by
  intro h
  rw [h, hd] at hc
  cases hc

/-! ## The two ends apart -/

theorem trimStart_append {x : Text} (hx : AllWhite x) (s : Text) :
    trimStart (x ++ s) = trimStart s := by
  induction x with
  | nil => rfl
  | cons c x ih =>
    have hc : isWhiteSpace c = true := hx c (by simp)
    have htail : AllWhite x := fun d hd => hx d (by simp [hd])
    rw [List.cons_append, trimStart, List.dropWhile_cons, if_pos hc]
    exact ih htail

theorem trimStart_eq_self {s : Text} (h : ∀ c, s.head? = some c → isWhiteSpace c = false) :
    trimStart s = s := by
  cases s with
  | nil => rfl
  | cons c s => rw [trimStart, List.dropWhile_cons, if_neg (by simp [h c rfl])]

theorem head?_trimStart {s : Text} {c : Char} (h : (trimStart s).head? = some c) :
    isWhiteSpace c = false := by
  have hhead := List.head?_dropWhile_not isWhiteSpace s
  rw [trimStart] at h
  rw [h] at hhead
  simpa using hhead

theorem trimEnd_eq_reverse (s : Text) : trimEnd s = (trimStart s.reverse).reverse := rfl

theorem trimEnd_append_white {y : Text} (hy : AllWhite y) (s : Text) :
    trimEnd (s ++ y) = trimEnd s := by
  have hrev : AllWhite y.reverse := fun c hc => hy c (List.mem_reverse.mp hc)
  rw [trimEnd_eq_reverse, List.reverse_append, trimStart_append hrev, ← trimEnd_eq_reverse]

theorem trimEnd_eq_self {s : Text} (h : ∀ c, s.getLast? = some c → isWhiteSpace c = false) :
    trimEnd s = s := by
  rw [trimEnd_eq_reverse, trimStart_eq_self, List.reverse_reverse]
  intro c hc
  exact h c (by rw [← List.head?_reverse]; exact hc)

theorem getLast?_trimEnd {s : Text} {c : Char} (h : (trimEnd s).getLast? = some c) :
    isWhiteSpace c = false := by
  rw [trimEnd_eq_reverse, List.getLast?_reverse] at h
  exact head?_trimStart h

theorem trimStart_append_cons {c : Char} (hc : isWhiteSpace c = false) (s t : Text) :
    trimStart (s ++ c :: t) = trimStart s ++ c :: t := by
  induction s with
  | nil => exact trimStart_eq_self fun d hd => by cases hd; exact hc
  | cons d s ih =>
    unfold trimStart at *
    cases hd : isWhiteSpace d with
    | true =>
      rw [List.cons_append, List.dropWhile_cons, List.dropWhile_cons, if_pos hd, if_pos hd, ih]
    | false =>
      rw [List.cons_append, List.dropWhile_cons, List.dropWhile_cons, if_neg (by simp [hd]),
        if_neg (by simp [hd])]
      rfl

theorem trimEnd_append_cons {c : Char} (hc : isWhiteSpace c = false) (s t : Text) :
    trimEnd (s ++ c :: t) = s ++ c :: trimEnd t := by
  have hrev : (s ++ c :: t).reverse = t.reverse ++ c :: s.reverse := by simp
  rw [trimEnd_eq_reverse, hrev, trimStart_append_cons hc, trimEnd_eq_reverse]
  simp

/-! ## Both ends -/

/-- A text is what trimming leaves of it, with white space on either side. -/
theorem exists_eq_append_trim (s : Text) :
    ∃ x y, s = x ++ trim s ++ y ∧ AllWhite x ∧ AllWhite y := by
  refine ⟨s.takeWhile isWhiteSpace, ((trimStart s).reverse.takeWhile isWhiteSpace).reverse, ?_,
    allWhite_takeWhile s, allWhite_reverse_takeWhile _⟩
  rw [trim, List.append_assoc, trimEnd_append, takeWhile_append_trimStart]

theorem head?_trim {s : Text} {c : Char} (h : (trim s).head? = some c) :
    isWhiteSpace c = false := by
  have happ := trimEnd_append (trimStart s)
  rw [← trim] at happ
  refine head?_trimStart (s := s) ?_
  rw [← happ, List.head?_append, h]
  rfl

theorem getLast?_trim {s : Text} {c : Char} (h : (trim s).getLast? = some c) :
    isWhiteSpace c = false := getLast?_trimEnd h

theorem trim_eq_self_iff {s : Text} :
    trim s = s ↔ (∀ c, s.head? = some c → isWhiteSpace c = false) ∧
      ∀ c, s.getLast? = some c → isWhiteSpace c = false := by
  constructor
  · intro h
    rw [← h]
    exact ⟨fun c hc => head?_trim hc, fun c hc => getLast?_trim hc⟩
  · intro h
    rw [trim, trimStart_eq_self h.1, trimEnd_eq_self h.2]

/-- The front of a trimmed text has no white space before it either. -/
theorem trimStart_of_isPrefix {p s : Text} (hs : trim s = s) (hp : p <+: s) : trimStart p = p := by
  obtain ⟨t, rfl⟩ := hp
  refine trimStart_eq_self fun c hc => (trim_eq_self_iff.mp hs).1 c ?_
  rw [List.head?_append, hc]
  rfl

/-- What trimming leaves of the front of a trimmed text stands at the front of the text. -/
theorem trim_isPrefix {p s : Text} (hs : trim s = s) (hp : p <+: s) : trim p <+: s := by
  have happ := trimEnd_append (trimStart p)
  rw [← trim, trimStart_of_isPrefix hs hp] at happ
  exact List.IsPrefix.trans ⟨_, happ⟩ hp

theorem trim_trim (s : Text) : trim (trim s) = trim s :=
  trim_eq_self_iff.mpr ⟨fun _ h => head?_trim h, fun _ h => getLast?_trim h⟩

/-- White space around a trimmed text is all that trimming takes. -/
theorem trim_append_append {x s y : Text} (hx : AllWhite x) (hs : trim s = s) (hy : AllWhite y) :
    trim (x ++ s ++ y) = s := by
  cases s with
  | nil =>
    have hall : AllWhite (x ++ [] ++ y) := (hx.append fun _ h => by cases h).append hy
    have hstart := trimStart_append hall []
    rw [List.append_nil] at hstart
    rw [trim, hstart]
    rfl
  | cons c s =>
    have hc := (trim_eq_self_iff.mp hs).1
    rw [trim, List.append_assoc, trimStart_append hx, List.cons_append,
      trimStart_eq_self (by simpa using hc), ← List.cons_append, trimEnd_append_white hy,
      trimEnd_eq_self (trim_eq_self_iff.mp hs).2]

/-- Trimming takes nothing but white space. -/
theorem count_trim {c : Char} (hc : isWhiteSpace c = false) (s : Text) :
    (trim s).count c = s.count c := by
  obtain ⟨x, y, hs, hx, hy⟩ := exists_eq_append_trim s
  have hzero : ∀ {w : Text}, AllWhite w → w.count c = 0 := by
    intro w hw
    rw [List.count_eq_zero]
    intro hmem
    rw [hw c hmem] at hc
    cases hc
  have hcount := congrArg (List.count c) hs
  rw [List.count_append, List.count_append, hzero hx, hzero hy] at hcount
  omega

theorem trim_append_white {y : Text} (hy : AllWhite y) (s : Text) : trim (s ++ y) = trim s := by
  obtain ⟨x, z, hs, hx, hz⟩ := exists_eq_append_trim s
  have htext : s ++ y = x ++ trim s ++ (z ++ y) := by
    rw [← List.append_assoc, ← hs]
  rw [htext]
  exact trim_append_append hx (trim_trim s) (hz.append hy)

theorem trim_white_append {x : Text} (hx : AllWhite x) (s : Text) : trim (x ++ s) = trim s := by
  rw [trim, trimStart_append hx, ← trim]

theorem trim_trimStart (s : Text) : trim (trimStart s) = trim s := by
  have happ := trim_white_append (allWhite_takeWhile s) (trimStart s)
  rw [takeWhile_append_trimStart] at happ
  exact happ.symm

theorem trim_sublist (s : Text) : (trim s).Sublist s := by
  obtain ⟨x, y, hs, -, -⟩ := exists_eq_append_trim s
  have hinfix : trim s <:+: s := ⟨x, y, hs.symm⟩
  exact hinfix.sublist

/-- Trimmed ends make a trimmed text, whatever stands between them. -/
theorem trim_between {s t : Text} (hs : trim s = s) (hs' : s ≠ []) (ht : trim t = t) (ht' : t ≠ [])
    (middle : Text) : trim (s ++ middle ++ t) = s ++ middle ++ t := by
  rw [trim_eq_self_iff]
  constructor
  · intro c hc
    refine (trim_eq_self_iff.mp hs).1 c ?_
    rw [List.append_assoc, List.head?_append] at hc
    cases s with
    | nil => exact absurd rfl hs'
    | cons d s => exact hc
  · intro c hc
    refine (trim_eq_self_iff.mp ht).2 c ?_
    rw [List.getLast?_append] at hc
    cases hlast : t.getLast? with
    | none => exact absurd (List.getLast?_eq_none_iff.mp hlast) ht'
    | some e =>
      rw [hlast] at hc
      exact hc

/-- A character that is not white space keeps what stands on either side of it trimmed. -/
theorem trim_append_cons {s t : Text} {c : Char} (hs : trim s = s) (hc : isWhiteSpace c = false)
    (ht : trim t = t) : trim (s ++ c :: t) = s ++ c :: t := by
  rw [trim, trimStart_append_cons hc, trimEnd_append_cons hc,
    trimStart_of_isPrefix hs List.prefix_rfl, trimEnd_eq_self (trim_eq_self_iff.mp ht).2]

/-- What stands behind such a character in a trimmed text may be replaced by any trimmed text. -/
theorem trim_append_cons_congr {s t t' : Text} {c : Char} (h : trim (s ++ c :: t) = s ++ c :: t)
    (hc : isWhiteSpace c = false) (ht' : trim t' = t') : trim (s ++ c :: t') = s ++ c :: t' := by
  rw [trim, trimStart_append_cons hc, trimEnd_append_cons hc,
    trimStart_of_isPrefix h (List.prefix_append _ _), trimEnd_eq_self (trim_eq_self_iff.mp ht').2]

/-- Scanning passes a text as it passes what trimming leaves of it, if white space means nothing
to it. -/
theorem pass_trim {σ : Type} {step : σ → Char → Option σ}
    (hwhite : ∀ c, isWhiteSpace c = true → Inert step c) (st : σ) (s : Text) :
    pass step st none (trim s) = pass step st none s := by
  obtain ⟨x, y, hs, hx, hy⟩ := exists_eq_append_trim s
  have hpass : pass step st none s = pass step st none (x ++ trim s ++ y) := by rw [← hs]
  rw [hpass, pass_append_inert (fun c hc => hwhite c (hy c hc)) st Quotation.proper_none,
    pass_inert_append (fun c hc => hwhite c (hx c hc)) st Quotation.proper_none]

theorem inert_of_isWhiteSpace {σ : Type} {step : σ → Char → Option σ} {c : Char}
    (hc : isWhiteSpace c = true) (hstep : ∀ st, step st c = some st) : Inert step c := by
  refine ⟨?_, ne_of_isWhiteSpace hc rfl, hstep⟩
  cases hq : isQuote c with
  | false => rfl
  | true =>
    simp only [isQuote, Bool.or_eq_true, beq_iff_eq] at hq
    rcases hq with rfl | rfl
    all_goals exact absurd hc (by decide)

theorem inert_blank {σ : Type} {f : σ → Char → Option σ} (h : ∀ st, f st ' ' = some st) :
    ∀ c ∈ [' '], Inert f c := by
  intro c hc
  rw [List.mem_singleton.mp hc]
  exact inert_of_isWhiteSpace rfl h

/-- White space in front changes nothing for a scan to which it means nothing. -/
theorem pass_trimStart {σ : Type} {step : σ → Char → Option σ}
    (hwhite : ∀ c, isWhiteSpace c = true → Inert step c) (st : σ) (s : Text) :
    pass step st none (trimStart s) = pass step st none s := by
  have hpass : pass step st none s =
      pass step st none (s.takeWhile isWhiteSpace ++ trimStart s) := by
    rw [takeWhile_append_trimStart]
  rw [hpass, pass_inert_append (fun c hc => hwhite c (allWhite_takeWhile s c hc)) st
    Quotation.proper_none]

theorem endsEscaping_trimStart (s : Text) : endsEscaping (trimStart s) = endsEscaping s := by
  have hfront : endsEscaping (s.takeWhile isWhiteSpace) = false := by
    apply endsEscaping_of_not_mem
    intro h
    exact absurd (allWhite_takeWhile s _ h) (by decide)
  have happ := endsEscaping_append (t := trimStart s) hfront
  rw [takeWhile_append_trimStart] at happ
  exact happ.symm

end FilterList.Text
