set_option autoImplicit false

/-!
# Text and the ways it is cut

A filter list is read character by character, so a text is the list of its characters.  Cutting
is done by giving the pieces back, never by handing out positions: a `Cut` holds what stands
before and what stands after one character.  Positions appear only where a caller asks for one,
and are then counted in bytes of the UTF-8 encoding (`byteLength`).
-/

namespace FilterList

/-- A text is the list of its characters. -/
abbrev Text := List Char

namespace Text

/-! ## Length in bytes -/

/-- The number of bytes that a text takes in UTF-8. -/
def byteLength : Text → Nat
  | [] => 0
  | c :: s => c.utf8Size + byteLength s

@[simp] theorem byteLength_nil : byteLength [] = 0 := rfl

@[simp] theorem byteLength_cons (c : Char) (s : Text) :
    byteLength (c :: s) = c.utf8Size + byteLength s := rfl

@[simp] theorem byteLength_append (s t : Text) :
    byteLength (s ++ t) = byteLength s + byteLength t := by
  induction s with
  | nil => simp
  | cons c s ih => rw [List.cons_append, byteLength_cons, byteLength_cons, ih, Nat.add_assoc]

/-! ## Case -/

/-- Equality up to the case of the ASCII letters. -/
def eqIgnoreCase (s t : Text) : Bool := s.map Char.toLower == t.map Char.toLower

@[simp] theorem eqIgnoreCase_self (s : Text) : eqIgnoreCase s s = true := by
  simp [eqIgnoreCase]

theorem eqIgnoreCase_comm (s t : Text) : eqIgnoreCase s t = eqIgnoreCase t s := by
  rw [eqIgnoreCase, eqIgnoreCase, Bool.beq_comm]

/-- Beside a word in small letters only the other text has to be lowered. -/
theorem eqIgnoreCase_iff_of_lower {s word : Text} (hword : word.map Char.toLower = word) :
    eqIgnoreCase s word = true ↔ s.map Char.toLower = word := by
  rw [eqIgnoreCase, beq_iff_eq, hword]

/-! ## First and last characters -/

/-- The text begins with the character `c`. -/
def beginsWith (c : Char) (s : Text) : Bool := s.head? == some c

/-- The text ends with the character `c`. -/
def endsWith (c : Char) (s : Text) : Bool := s.getLast? == some c

/-- What follows `lead`, if the text begins with it. -/
def after? : Text → Text → Option Text
  | [], s => some s
  | _ :: _, [] => none
  | l :: lead, c :: s => if l = c then after? lead s else none

/-- What stands before a final `c`, if the text ends with it. -/
def beforeFinal? (c : Char) (s : Text) : Option Text :=
  if endsWith c s then some s.dropLast else none

@[simp] theorem after?_append (lead s : Text) : after? lead (lead ++ s) = some s := by
  induction lead with
  | nil => rfl
  | cons c r ih => simpa [after?] using ih

theorem eq_append_of_after? {lead s rest : Text} (h : after? lead s = some rest) :
    s = lead ++ rest := by
  fun_induction after? lead s with
  | case1 => simpa using h
  | case2 => simp at h
  | case3 lead c s ih => simp [ih h]
  | case4 => simp at h

/-! ## Cuts -/

/-- A text cut at one of its characters, which belongs to neither side. -/
structure Cut where
  /-- what stands before the character -/
  before : Text
  /-- what stands after it -/
  after : Text
  deriving DecidableEq, Repr, Inhabited

namespace Cut

/-- The byte offset of the character at which the text is cut. -/
def offset (cut : Cut) : Nat := byteLength cut.before

/-- The same cut in the text with `c` put in front. -/
def shift (c : Char) (cut : Cut) : Cut := { cut with before := c :: cut.before }

@[simp] theorem before_shift (c : Char) (cut : Cut) : (cut.shift c).before = c :: cut.before := rfl

@[simp] theorem after_shift (c : Char) (cut : Cut) : (cut.shift c).after = cut.after := rfl

@[simp] theorem offset_shift (c : Char) (cut : Cut) :
    (cut.shift c).offset = c.utf8Size + cut.offset := by
  simp [offset]

end Cut

/-- Cuts a text at the first `target` in it. -/
def cutFirst (target : Char) : Text → Option Cut
  | [] => none
  | c :: rest =>
    if c = target then some ⟨[], rest⟩ else (cutFirst target rest).map (Cut.shift c)

/-- Cuts a text at the last `target` in it. -/
def cutLast (target : Char) : Text → Option Cut
  | [] => none
  | c :: rest =>
    match cutLast target rest with
    | some cut => some (cut.shift c)
    | none => if c = target then some ⟨[], rest⟩ else none

/-- Nothing but the target is lost by cutting at its first occurrence, and none stands before. -/
theorem cutFirst_eq_some {target : Char} {s : Text} {cut : Cut} (h : cutFirst target s = some cut) :
    s = cut.before ++ target :: cut.after ∧ target ∉ cut.before := by
  induction s generalizing cut with
  | nil => simp [cutFirst] at h
  | cons c rest ih =>
    by_cases hc : c = target
    · simp only [cutFirst, hc, if_true, Option.some.injEq] at h
      subst h
      simp [hc]
    · simp only [cutFirst, if_neg hc, Option.map_eq_some_iff] at h
      obtain ⟨inner, hinner, rfl⟩ := h
      obtain ⟨hs, hn⟩ := ih hinner
      refine ⟨by simp [← hs], ?_⟩
      simp only [Cut.before_shift, List.mem_cons, not_or]
      exact ⟨fun e => hc e.symm, hn⟩

/-- Nothing but the target is lost by cutting at its last occurrence, and none stands after. -/
theorem cutLast_eq_some {target : Char} {s : Text} {cut : Cut} (h : cutLast target s = some cut) :
    s = cut.before ++ target :: cut.after ∧ target ∉ cut.after := by
  induction s generalizing cut with
  | nil => simp [cutLast] at h
  | cons c rest ih =>
    cases hr : cutLast target rest with
    | some inner =>
      simp only [cutLast, hr, Option.some.injEq] at h
      subst h
      obtain ⟨hs, hn⟩ := ih hr
      exact ⟨by simp [← hs], by simpa using hn⟩
    | none =>
      have hnot : target ∉ rest := by
        clear h ih
        induction rest with
        | nil => simp
        | cons d tail ihd =>
          cases hd : cutLast target tail with
          | some _ => simp [cutLast, hd] at hr
          | none =>
            by_cases hdt : d = target
            · simp [cutLast, hd, hdt] at hr
            · simp only [List.mem_cons, not_or]
              exact ⟨fun e => hdt e.symm, ihd hd⟩
      by_cases hc : c = target
      · simp only [cutLast, hr, hc, if_true, Option.some.injEq] at h
        subst h
        simp [hc, hnot]
      · simp [cutLast, hr, hc] at h

end Text

end FilterList
