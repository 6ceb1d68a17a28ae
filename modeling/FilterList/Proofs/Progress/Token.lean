import FilterList.Proofs.Css.Token
import FilterList.Proofs.Progress.Loop
set_option autoImplicit false

/-!
# Tokens move forward, and their loops end

Blanks, names and quoted strings are read by one recursion each.  A program reads them in loops:
over runs of blanks and comments, over runs of name characters and escapes, over the characters up
to the closing quote.  This file writes down the turn of each loop and shows that the loop ends
with the reply of the recursion.
-/

namespace FilterList.Css

namespace Reader

variable {α β : Type}

/-! ## Single characters and runs -/

/-- Takes the character at the front. -/
def any : Reader Char
  | c :: rest => .done c rest
  | [] => .failed .soft []

/-- Takes the characters at the front with `holds`, one at least. -/
def run (holds : Char → Bool) : Reader Text := fun s =>
  match s.takeWhile holds with
  | [] => .failed .soft s
  | taken => .done taken (s.dropWhile holds)

theorem any_eq_done_iff {s rest : Text} {c : Char} : any s = .done c rest ↔ s = c :: rest := by
  cases s with
  | nil => simp [any]
  | cons d s => simp [any]

theorem run_eq_done_iff {holds : Char → Bool} {s taken rest : Text} :
    run holds s = .done taken rest ↔
      taken ≠ [] ∧ s.takeWhile holds = taken ∧ s.dropWhile holds = rest := by
  unfold run
  split
  · next h =>
    rw [h]
    constructor
    · intro hfailed
      cases hfailed
    · rintro ⟨hne, rfl, -⟩
      exact absurd rfl hne
  · next hne =>
    constructor
    · intro hdone
      cases hdone
      exact ⟨hne, rfl, rfl⟩
    · rintro ⟨-, rfl, rfl⟩
      rfl

theorem failing_run (holds : Char → Bool) : Failing false (run holds) := by
  intro s failure rest h
  unfold run at h
  split at h
  · cases h
    rfl
  · cases h

/-- A run of characters is as long as it can be, and every character of it is of its kind. -/
theorem run_sound {holds : Char → Bool} {s taken rest : Text} (h : run holds s = .done taken rest) :
    s = taken ++ rest ∧ taken ≠ [] ∧ ∀ c ∈ taken, holds c = true := by
  rw [run_eq_done_iff] at h
  obtain ⟨hne, rfl, rfl⟩ := h
  exact ⟨List.takeWhile_append_dropWhile.symm, hne, List.all_eq_true.mp List.all_takeWhile⟩

theorem run_cons {holds : Char → Bool} {c : Char} (hc : holds c = true) (s : Text) :
    run holds (c :: s) = .done (c :: s.takeWhile holds) (s.dropWhile holds) := by
  simp [run, hc]

theorem refuses_run {holds : Char → Bool} {c : Char} (hc : holds c = false) (s : Text) :
    Refuses (run holds) (c :: s) :=
  ⟨.soft, c :: s, by simp [run, hc], rfl⟩

end Reader

namespace Token

open Reader

/-! ## Blanks and comments -/

theorem skipBlank_suffix (s : Text) : skipBlank s <:+ s := by
  obtain ⟨w, hs, -⟩ := exists_gap_append_skipBlank s
  exact ⟨w, hs.symm⟩

theorem forward_blank : Forward blank := forward_skip skipBlank_suffix

theorem forward_filler : Forward filler :=
  forward_skip fun s => by
    obtain ⟨w, hs, -⟩ := exists_gaps_append_skipGaps isFiller s
    exact ⟨w, hs.symm⟩

theorem forward_comma : Forward comma := forward_blank.bind fun _ => forward_char ','

/-- Takes a comment that is closed. -/
def comment : Reader Unit
  | '/' :: '*' :: rest =>
    match behindComment rest with
    | some rest' => .done () rest'
    | none => .failed .soft rest
  | s => .failed .soft s

/-- Takes a run of blanks or a comment. -/
def gapReader : Reader Unit := either ((fun _ => ()) <$> run isBlank) comment

/-- A turn of the loop that takes blanks and comments. -/
def blankTurn : Unit → Reader (Turn Unit Unit) := repeatTurn (fun _ _ => ()) gapReader

theorem comment_eq_done_iff {s rest : Text} {u : Unit} :
    comment s = .done u rest ↔ ∃ t, s = '/' :: '*' :: t ∧ behindComment t = some rest := by
  unfold comment
  split
  · next t =>
    cases h : behindComment t with
    | none => simp [h]
    | some rest' => simp [h]
  · next hne =>
    constructor
    · intro h
      cases h
    · rintro ⟨t, rfl, -⟩
      exact absurd rfl (hne t)

theorem failing_comment : Failing false comment := by
  intro s failure rest h
  unfold comment at h
  split at h
  · next t =>
    cases hc : behindComment t with
    | none =>
      rw [hc] at h
      cases h
      rfl
    | some rest' =>
      rw [hc] at h
      cases h
  · cases h
    rfl

/-- What a turn takes is a gap, and never the empty one. -/
theorem gapReader_sound : Sound (fun w _ => w ≠ [] ∧ IsGap w) gapReader := by
  intro s u rest h
  rw [gapReader, either_eq_done_iff] at h
  rcases h with h | ⟨-, h⟩
  · rw [map_eq_done_iff] at h
    obtain ⟨w, hrun, -⟩ := h
    obtain ⟨hs, hne, hblank⟩ := run_sound hrun
    exact ⟨w, hs, hne, .of_all hblank⟩
  · rw [comment_eq_done_iff] at h
    obtain ⟨t, rfl, ht⟩ := h
    obtain ⟨body, rfl, hbody⟩ := eq_append_of_behindComment ht
    exact ⟨'/' :: '*' :: body ++ ['*', '/'], by simp, by simp, .comment hbody .nil⟩

theorem progress_gapReader : Progress gapReader :=
  progress_of_sound gapReader_sound fun _ _ h => h.1

/-- The loop is over only where no gap is left. -/
theorem tight_of_refuses {s : Text} (h : Refuses gapReader s) : Tight s := by
  obtain ⟨w, hs, hw⟩ := exists_gap_append_skipBlank s
  cases hw with
  | nil => exact hs.symm
  | @char c w hc _ =>
    have hrun := run_cons hc (w ++ skipBlank s)
    rw [← List.cons_append, ← hs] at hrun
    exact absurd (either_eq_done_iff.mpr (.inl (map_eq_done_iff.mpr ⟨_, hrun, rfl⟩))) h.ne_done
  | @comment body w hbody _ =>
    have hbehind := behindComment_append hbody (w ++ skipBlank s)
    have hs' : s = '/' :: '*' :: (body ++ '*' :: '/' :: (w ++ skipBlank s)) := by simpa using hs
    have hcomment : comment s = .done () (w ++ skipBlank s) :=
      comment_eq_done_iff.mpr ⟨_, hs', hbehind⟩
    have hrefuses : Refuses (run isBlank) s := by
      rw [hs']
      exact refuses_run (by decide) _
    exact absurd (either_eq_done_iff.mpr (.inr ⟨hrefuses.map, hcomment⟩)) h.ne_done

theorem loopOf_blank : LoopOf blankTurn () blank := by
  refine loopOf_repeatTurn progress_gapReader (q := fun _ => blank) ?_ ()
  intro _ s
  have hsoft : Failing false gapReader := ((failing_run isBlank).map _).either failing_comment
  rcases hsoft.done_or_refuses s with ⟨u, rest, h⟩ | h
  · obtain ⟨w, rfl, -, hw⟩ := gapReader_sound s u rest h
    rw [h]
    show Reply.done () (skipBlank (w ++ rest)) = .done () (skipBlank rest)
    rw [skipBlank, skipGaps_append rfl hw]
    rfl
  · have htight := tight_of_refuses h
    obtain ⟨failure, rest, hread, hc⟩ := h
    rw [hread]
    show Reply.done () (skipBlank s) = _
    rw [htight]
    simp [hc]

/-! ## Names -/

theorem forward_name : Forward name := by
  rw [forward_iff]
  intro s
  have hs : (spanName s).2 <:+ s := ⟨_, (spanName_sound s).1.symm⟩
  unfold name
  split
  · exact List.nil_suffix
  · next h =>
    rw [h] at hs
    exact hs
  · next h =>
    rw [h] at hs
    exact hs

theorem progress_name : Progress name := by
  refine progress_of_sound (L := fun u _ => IsName u) ?_ fun _ _ h => h.2
  intro s n rest h
  obtain ⟨hs, hn, -⟩ := name_sound h
  exact ⟨n, hs, hn⟩

/-- Takes a backslash and the character behind it. -/
def escape : Reader Text := do
  .char '\\'
  let c ← any
  return ['\\', c]

/-- Takes a run of name characters or an escape. -/
def namePiece : Reader Text := either (run isNameChar) escape

/-- A turn of the loop that takes a name.  The first one has to take something. -/
def nameTurn (taken : Text) : Reader (Turn Text Text) :=
  if taken = [] then .again <$> namePiece else repeatTurn (· ++ ·) namePiece taken

/-- Takes what is left of a name behind the piece of it that has been taken. -/
def nameFrom (taken : Text) : Reader Text := fun s =>
  if taken = [] then name s else .done (taken ++ (spanName s).1) (spanName s).2

theorem nameChars_of_all {n : Text} (h : ∀ c ∈ n, isNameChar c = true) : NameChars n := by
  induction n with
  | nil => exact .nil
  | cons c n ih =>
    exact .char (h c List.mem_cons_self) (ih fun d hd => h d (List.mem_cons_of_mem c hd))

theorem namePiece_sound {s piece rest : Text} (h : namePiece s = .done piece rest) :
    s = piece ++ rest ∧ IsName piece := by
  rw [namePiece, either_eq_done_iff] at h
  rcases h with h | ⟨-, h⟩
  · obtain ⟨hs, hne, hname⟩ := run_sound h
    exact ⟨hs, nameChars_of_all hname, hne⟩
  · simp only [escape, bind_eq_done_iff, char_eq_done_iff, any_eq_done_iff, pure_eq_done_iff] at h
    obtain ⟨_, mid, rfl, c, _, rfl, rfl, rfl⟩ := h
    exact ⟨rfl, .escape c .nil, by simp⟩

theorem progress_namePiece : Progress namePiece := by
  refine progress_of_sound (L := fun u _ => IsName u) ?_ fun _ _ h => h.2
  intro s piece rest h
  obtain ⟨hs, hn⟩ := namePiece_sound h
  exact ⟨piece, hs, hn⟩

/-- Where no piece can be taken no name goes on, and a name would fail in the same way. -/
theorem name_of_namePiece_failed {s rest : Text} {failure : Failure}
    (h : namePiece s = .failed failure rest) :
    failure.committed = false ∧ EndsName s ∧ name s = .failed failure rest := by
  cases s with
  | nil =>
    cases h
    exact ⟨rfl, rfl, rfl⟩
  | cons c s =>
    by_cases hc : c = '\\'
    · subst hc
      cases s with
      | nil =>
        cases h
        exact ⟨rfl, rfl, rfl⟩
      | cons d s => cases h
    · cases hname : isNameChar c with
      | true =>
        rw [namePiece, either, run_cons hname] at h
        cases h
      | false =>
        have hend : EndsName (c :: s) := endsName_cons hname hc s
        have hescape : escape (c :: s) = .failed .soft (c :: s) := by
          rw [escape, bind_apply, char, if_neg hc]
        obtain ⟨failure', rest', hrun, hsoft⟩ := refuses_run hname s
        rw [namePiece, either, hrun, hescape] at h
        simp only [hsoft, Bool.false_eq_true, if_false] at h
        cases h
        refine ⟨rfl, hend, ?_⟩
        unfold name
        rw [hend]
        split
        · next heq => exact absurd (List.cons.inj (Prod.mk.inj heq).2).1 hc
        · next heq => rw [(Prod.mk.inj heq).2]
        · next hne heq => exact absurd (Prod.mk.inj heq).1.symm hne

theorem consuming_nameTurn : Consuming nameTurn := by
  intro taken s taken' rest h
  rw [nameTurn] at h
  split at h
  · rw [map_eq_done_iff] at h
    obtain ⟨piece, hpiece, -⟩ := h
    exact progress_namePiece s piece rest hpiece
  · exact consuming_repeatTurn _ progress_namePiece taken s taken' rest h

theorem nameFrom_unfold (taken : Text) :
    nameFrom taken = nameTurn taken >>= Turn.next nameFrom := by
  funext s
  rw [bind_apply]
  cases hpiece : namePiece s with
  | done piece rest =>
    obtain ⟨rfl, hchars, hne⟩ := namePiece_sound hpiece
    have hspan := spanName_nameChars_append hchars rest
    by_cases htaken : taken = []
    · subst htaken
      have hname : name (piece ++ rest) = .done (piece ++ (spanName rest).1) (spanName rest).2 :=
        name_eq_done_iff.mpr ⟨hspan, by simp [hne]⟩
      simp [nameFrom, nameTurn, map_apply, hpiece, Reply.map, hname, hne]
    · simp [nameFrom, nameTurn, repeatTurn_apply, hpiece, htaken, hspan]
  | failed failure rest =>
    obtain ⟨hsoft, hend, hname⟩ := name_of_namePiece_failed hpiece
    by_cases htaken : taken = []
    · subst htaken
      simp [nameFrom, nameTurn, map_apply, hpiece, Reply.map, hname]
    · have hspan : spanName s = ([], s) := hend
      simp [nameFrom, nameTurn, repeatTurn_apply, hpiece, htaken, hsoft, hspan]

theorem loopOf_name : LoopOf nameTurn [] name :=
  loopOf_of_unfold nameFrom_unfold consuming_nameTurn []

/-! ## Quoted strings -/

theorem forward_quotedContent (quote : Char) : Forward (quotedContent quote) := by
  rw [forward_iff]
  intro s
  induction s using Text.escapeInduction with
  | nil => exact List.suffix_refl []
  | lone => exact List.nil_suffix
  | escape c s ih =>
    rw [quotedContent, Reply.rest_map]
    exact ih.trans ((List.suffix_cons c s).trans (List.suffix_cons _ _))
  | char c s hc ih =>
    rw [quotedContent_cons hc]
    split
    · exact List.suffix_cons c s
    · rw [Reply.rest_map]
      exact ih.trans (List.suffix_cons c s)

theorem forward_quoted : Forward quoted := by
  rw [forward_iff]
  intro s
  cases s with
  | nil => exact List.suffix_refl []
  | cons c s =>
    rw [quoted]
    split
    · exact ((forward_quotedContent c).isSuffix s).trans (List.suffix_cons c s)
    · exact List.suffix_refl (c :: s)

/-- A turn of the loop that takes the content of a quoted string: one character, or a backslash with
the one behind it. -/
def quotedTurn (quote : Char) (content : Text) : Reader (Turn Text Text) := do
  let c ← .expecting (.char quote) (.committed any)
  if c = '\\' then
    let escaped ← .committed any
    return .again (content ++ if escaped = '\'' then [escaped] else ['\\', escaped])
  else if c = quote then return .leave content
  else return .again (content ++ if c = '"' then ['\\', c] else [c])

theorem consuming_quotedTurn (quote : Char) : Consuming (quotedTurn quote) := by
  intro content s content' rest h
  rw [quotedTurn, bind_eq_done_iff] at h
  obtain ⟨c, mid, hc, h⟩ := h
  rw [expecting_eq_done_iff, committed_eq_done_iff, any_eq_done_iff] at hc
  subst hc
  split at h
  · rw [bind_eq_done_iff] at h
    obtain ⟨escaped, mid', hescaped, h⟩ := h
    rw [committed_eq_done_iff, any_eq_done_iff] at hescaped
    rw [pure_eq_done_iff] at h
    obtain ⟨-, rfl⟩ := h
    subst hescaped
    simp only [List.length_cons]
    omega
  · split at h
    · rw [pure_eq_done_iff] at h
      cases h.1
    · rw [pure_eq_done_iff] at h
      obtain ⟨-, rfl⟩ := h
      exact Nat.lt_succ_self mid.length

theorem quotedContent_unfold (quote : Char) (content : Text) :
    (content ++ ·) <$> quotedContent quote =
      quotedTurn quote content >>=
        Turn.next fun content => (content ++ ·) <$> quotedContent quote := by
  funext s
  induction s using Text.escapeInduction with
  | nil => rfl
  | lone => rfl
  | escape c s =>
    have hturn : quotedTurn quote content ('\\' :: c :: s) =
        .done (.again (content ++ if c = '\'' then [c] else ['\\', c])) s := rfl
    rw [bind_of_done hturn, Turn.next_again, map_apply, map_apply, quotedContent, Reply.map_map]
    congr 1
    funext tail
    split <;> simp
  | char c s hc =>
    have hread : Reader.expecting (.char quote) (.committed any) (c :: s) = .done c s := rfl
    rw [map_apply, quotedContent_cons hc, bind_apply, quotedTurn, bind_of_done hread, if_neg hc]
    by_cases hquote : c = quote
    · simp [hquote, Reply.map]
    · simp only [if_neg hquote, pure_apply, Turn.next_again, Reply.map_map, map_apply]
      congr 1
      funext tail
      split <;> simp

theorem collects_quotedContent (quote : Char) :
    Collects (quotedTurn quote) (quotedContent quote) :=
  loopOf_of_unfold (quotedContent_unfold quote) (consuming_quotedTurn quote)

/-! ## Groups -/

theorem forward_group : Forward group := by
  rw [forward_iff]
  intro s
  unfold group
  cases h : Text.group? s with
  | none => exact List.suffix_refl s
  | some parts =>
    obtain ⟨hs, -⟩ := Text.group?_eq_some_iff.mp h
    exact ⟨'(' :: parts.1 ++ [')'], by simp [hs]⟩

end Token

end FilterList.Css
