import FilterList.Proofs.Reader
import FilterList.Proofs.Slicing.Basic
set_option autoImplicit false

/-!
# Readers move forward

A reader takes something off the front of a text and puts nothing back.  Whether it succeeds or
fails, what it leaves is the end of the text from some byte offset on, and that offset does not lie
inside a character.  Every combinator keeps this, so a production moves forward if the readers
that it is built from do.

Some readers fail in one way only: all their failures are final, or none is.  That decides what a
choice or a repetition makes of them.
-/

namespace FilterList.Css

/-! ## What a reply leaves -/

namespace Reply

variable {α β γ : Type}

@[simp] theorem rest_done (a : α) (rest : Text) : (done a rest).rest = rest := rfl

@[simp] theorem rest_failed (failure : Failure) (rest : Text) :
    (failed failure rest : Reply α).rest = rest := rfl

@[simp] theorem rest_map (f : α → β) (reply : Reply α) : (reply.map f).rest = reply.rest := by
  cases reply <;> rfl

theorem map_map (g : β → γ) (f : α → β) (reply : Reply α) :
    (reply.map f).map g = reply.map fun a => g (f a) := by
  cases reply <;> rfl

end Reply

namespace Reader

open Text (sliceFrom sliceFrom_eq_ok_iff)

variable {α β γ : Type}

/-- Whatever the reader replies, it leaves what stands behind some byte offset of the text.  There
is such a slice only at the end of a whole number of characters. -/
def Forward (p : Reader α) : Prop := ∀ s, ∃ offset, sliceFrom s offset = .ok (p s).rest

/-- A reader moves forward exactly if it always leaves a suffix of the text. -/
theorem forward_iff {p : Reader α} : Forward p ↔ ∀ s, (p s).rest <:+ s := by
  simp only [Forward, sliceFrom_eq_ok_iff]
  constructor
  · intro h s
    obtain ⟨_, taken, hs, -⟩ := h s
    exact ⟨taken, hs.symm⟩
  · intro h s
    obtain ⟨taken, hs⟩ := h s
    exact ⟨Text.byteLength taken, taken, hs.symm, rfl⟩

theorem Forward.isSuffix {p : Reader α} (hp : Forward p) (s : Text) : (p s).rest <:+ s :=
  forward_iff.mp hp s

theorem Forward.length_le {p : Reader α} (hp : Forward p) {s rest : Text} {a : α}
    (h : p s = .done a rest) : rest.length ≤ s.length := by
  have hs := hp.isSuffix s
  rw [h] at hs
  exact hs.length_le

/-! ## Combinators move forward -/

theorem forward_pure (a : α) : Forward (pure a : Reader α) :=
  forward_iff.mpr fun s => List.suffix_refl s

theorem forward_fail : Forward (fail : Reader α) := forward_iff.mpr fun s => List.suffix_refl s

theorem char_of_ne {c : Char} {s : Text} (h : ∀ rest, s ≠ c :: rest) :
    char c s = .failed .soft s := by
  cases s with
  | nil => rfl
  | cons d s => rw [char, if_neg fun hd => h s (by rw [hd])]

theorem forward_char (c : Char) : Forward (char c) := by
  rw [forward_iff]
  intro s
  by_cases h : ∃ rest, s = c :: rest
  · obtain ⟨rest, rfl⟩ := h
    rw [char, if_pos rfl]
    exact List.suffix_cons c rest
  · rw [char_of_ne fun rest hs => h ⟨rest, hs⟩]
    exact List.suffix_refl s

theorem forward_skip {advance : Text → Text} (h : ∀ s, advance s <:+ s) : Forward (skip advance) :=
  forward_iff.mpr h

theorem forward_lookingAt (c : Char) : Forward (lookingAt c) :=
  forward_iff.mpr fun s => List.suffix_refl s

theorem Forward.bind {p : Reader α} {f : α → Reader β} (hp : Forward p) (hf : ∀ a, Forward (f a)) :
    Forward (p >>= f) := by
  rw [forward_iff]
  intro s
  have hs := hp.isSuffix s
  rw [bind_apply]
  cases h : p s with
  | done a mid =>
    rw [h] at hs
    exact ((hf a).isSuffix mid).trans hs
  | failed failure mid =>
    rw [h] at hs
    exact hs

theorem bind_assoc (p : Reader α) (f : α → Reader β) (g : β → Reader γ) :
    p >>= f >>= g = p >>= fun a => f a >>= g := by
  funext s
  simp only [bind_apply]
  cases p s <;> rfl

theorem Forward.map {p : Reader α} (hp : Forward p) (f : α → β) : Forward (f <$> p) :=
  hp.bind fun a => forward_pure (f a)

theorem Forward.ite {p q : Reader α} {b : Prop} [Decidable b] (hp : Forward p) (hq : Forward q) :
    Forward (if b then p else q) := by
  split
  · exact hp
  · exact hq

/-- A reader that changes no more than the value or the failure leaves the same. -/
theorem Forward.of_rest_eq {p : Reader α} {q : Reader β} (hp : Forward p)
    (h : ∀ s, (q s).rest = (p s).rest) : Forward q := by
  rw [forward_iff]
  intro s
  rw [h s]
  exact hp.isSuffix s

theorem Forward.committed {p : Reader α} (hp : Forward p) : Forward (committed p) := by
  refine hp.of_rest_eq fun s => ?_
  unfold Reader.committed
  cases p s <;> rfl

theorem Forward.noting {p : Reader α} (hp : Forward p) (note : Note) : Forward (noting note p) := by
  refine hp.of_rest_eq fun s => ?_
  unfold Reader.noting
  cases p s <;> rfl

theorem Forward.expecting {p : Reader α} (hp : Forward p) (what : Expectation) :
    Forward (expecting what p) :=
  hp.noting (.expected what)

/-- An attempt goes back to where it began if the reader refuses, and no further. -/
theorem Forward.attempt {p : Reader α} (hp : Forward p) : Forward (attempt p) := by
  rw [forward_iff]
  intro s
  have hs := hp.isSuffix s
  unfold Reader.attempt
  cases h : p s with
  | done a rest =>
    rw [h] at hs
    exact hs
  | failed failure rest =>
    rw [h] at hs
    cases hc : failure.committed with
    | true => simpa [hc] using hs
    | false => simp [hc]

/-- The second reader of a choice begins where the first one began. -/
theorem Forward.either {p q : Reader α} (hp : Forward p) (hq : Forward q) :
    Forward (either p q) := by
  rw [forward_iff]
  intro s
  have hs := hp.isSuffix s
  unfold Reader.either
  cases h : p s with
  | done a rest =>
    rw [h] at hs
    exact hs
  | failed failure rest =>
    rw [h] at hs
    cases hc : failure.committed with
    | true => simpa [hc] using hs
    | false => simpa [hc] using hq.isSuffix s

theorem Forward.manyUpTo {p : Reader α} (hp : Forward p) (bound : Nat) :
    Forward (manyUpTo p bound) := by
  rw [forward_iff]
  induction bound with
  | zero =>
    intro s
    exact List.suffix_refl s
  | succ bound ih =>
    intro s
    have hs := hp.isSuffix s
    rw [Reader.manyUpTo]
    cases h : p s with
    | done a mid =>
      rw [h] at hs
      rw [Reply.rest_map]
      exact (ih mid).trans hs
    | failed failure mid =>
      rw [h] at hs
      cases hc : failure.committed with
      | true => simpa [hc] using hs
      | false => simp [hc]

theorem Forward.many {p : Reader α} (hp : Forward p) : Forward (many p) :=
  forward_iff.mpr fun s => (hp.manyUpTo (s.length + 1)).isSuffix s

theorem Forward.separated {separator : Reader Unit} {p : Reader α} (hseparator : Forward separator)
    (hp : Forward p) : Forward (separated separator p) :=
  hp.bind fun first =>
    (hseparator.bind fun _ => hp).many.bind fun others => forward_pure (first :: others)

/-! ## Failures of one kind -/

/-- Every failure of the reader is final, or every one lets alternatives be tried. -/
def Failing (final : Bool) (p : Reader α) : Prop :=
  ∀ s failure rest, p s = .failed failure rest → failure.committed = final

theorem failing_pure (final : Bool) (a : α) : Failing final (pure a : Reader α) := by
  intro s failure rest h
  cases h

theorem failing_lookingAt (final : Bool) (c : Char) : Failing final (lookingAt c) := by
  intro s failure rest h
  cases h

theorem failing_committed (p : Reader α) : Failing true (committed p) := by
  intro s failure rest h
  unfold committed at h
  cases hread : p s with
  | done a mid => simp [hread] at h
  | failed failure' mid =>
    rw [hread] at h
    cases h
    rfl

theorem Failing.noting {final : Bool} {p : Reader α} (hp : Failing final p) (note : Note) :
    Failing final (noting note p) := by
  intro s failure rest h
  unfold Reader.noting at h
  cases hread : p s with
  | done a mid => simp [hread] at h
  | failed failure' mid =>
    rw [hread] at h
    cases h
    exact hp s failure' rest hread

theorem Failing.bind {final : Bool} {p : Reader α} {f : α → Reader β} (hp : Failing final p)
    (hf : ∀ a, Failing final (f a)) : Failing final (p >>= f) := by
  intro s failure rest h
  rw [bind_apply] at h
  cases hread : p s with
  | done a mid =>
    rw [hread] at h
    exact hf a mid failure rest h
  | failed failure' mid =>
    rw [hread] at h
    cases h
    exact hp s failure rest hread

theorem Failing.map {final : Bool} {p : Reader α} (hp : Failing final p) (f : α → β) :
    Failing final (f <$> p) :=
  hp.bind fun a => failing_pure final (f a)

/-- If the first reader of a choice lets the second one be tried, the failures are the second's. -/
theorem Failing.either {final : Bool} {p q : Reader α} (hp : Failing false p)
    (hq : Failing final q) : Failing final (either p q) := by
  intro s failure rest h
  rw [Reader.either] at h
  cases hread : p s with
  | done a mid =>
    rw [hread] at h
    cases h
  | failed failure' mid =>
    rw [hread] at h
    simp only [hp s failure' mid hread, Bool.false_eq_true, if_false] at h
    exact hq s failure rest h

theorem Failing.done_or_refuses {p : Reader α} (hp : Failing false p) (s : Text) :
    (∃ a rest, p s = .done a rest) ∨ Refuses p s := by
  cases h : p s with
  | done a rest => exact .inl ⟨a, rest, rfl⟩
  | failed failure rest => exact .inr ⟨failure, rest, h, hp s failure rest h⟩

/-! ## Behind a sign -/

/-- Takes the characters of `lead` and reads on with `p`. -/
def behind (lead : Text) (p : Reader α) : Reader α := fun s =>
  match Text.after? lead s with
  | some rest => p rest
  | none => .failed .soft s

theorem behind_append (lead : Text) (p : Reader α) (s : Text) :
    behind lead p (lead ++ s) = p s := by
  rw [behind, Text.after?_append]

theorem behind_of_ne {lead s : Text} (h : ∀ rest, s ≠ lead ++ rest) (p : Reader α) :
    behind lead p s = .failed .soft s := by
  unfold behind
  split
  · next rest hafter => exact absurd (Text.eq_append_of_after? hafter) (h rest)
  · rfl

theorem Forward.behind {p : Reader α} (hp : Forward p) (lead : Text) : Forward (behind lead p) := by
  rw [forward_iff]
  intro s
  by_cases h : ∃ rest, s = lead ++ rest
  · obtain ⟨rest, rfl⟩ := h
    rw [behind_append]
    exact (hp.isSuffix rest).trans (List.suffix_append lead rest)
  · rw [behind_of_ne fun rest hs => h ⟨rest, hs⟩]
    exact List.suffix_refl s

/-- A sign behind which every failure is final decides a choice. -/
theorem either_behind_append {p q : Reader α} (hp : Failing true p) (lead s : Text) :
    either (behind lead p) q (lead ++ s) = p s := by
  rw [either, behind_append]
  cases h : p s with
  | done a rest => rfl
  | failed failure rest => simp [hp s failure rest h]

theorem either_behind_of_ne {p q : Reader α} {lead s : Text} (h : ∀ rest, s ≠ lead ++ rest) :
    either (behind lead p) q s = q s := by
  rw [either, behind_of_ne h]
  rfl

end Reader

end FilterList.Css
