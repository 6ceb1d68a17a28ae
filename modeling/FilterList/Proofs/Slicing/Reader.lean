import FilterList.Css.SyntaxError
import FilterList.Proofs.Slicing.Basic
set_option autoImplicit false

/-!
# Readers that may fault

A reader that cuts its text by offsets may fault, and so may every reader that is built from it.
The combinators are therefore repeated for such readers.  A reader that meets no fault is one of
the readers without offsets, which `ofReader` embeds, and each combinator keeps the embedding: a
production is free of faults if the readers that it is built from are.
-/

namespace FilterList.Css

open Text

/-- A reader that may fault. -/
def CheckedReader (α : Type) : Type := Text → Checked (Reply α)

namespace CheckedReader

variable {α β : Type}

instance : Monad CheckedReader where
  pure a := fun s => .ok (.done a s)
  bind p f := fun s => do
    match ← p s with
    | .done a rest => f a rest
    | .failed failure rest => return .failed failure rest

/-- A reader that uses no offsets. -/
def ofReader (p : Reader α) : CheckedReader α := fun s => .ok (p s)

/-- Work with offsets that takes nothing off the text. -/
def ofChecked (a : Checked α) : CheckedReader α := fun s => do
  let value ← a
  return .done value s

/-- Changes what the reader replies, as `F` does with a reader that replies so. -/
def onReply (F : Reader α → Reader β) (p : CheckedReader α) : CheckedReader β := fun s => do
  let reply ← p s
  return F (fun _ => reply) s

/-- Makes every failure of `p` final. -/
def committed (p : CheckedReader α) : CheckedReader α := onReply .committed p

/-- Adds a note to every failure of `p`. -/
def noting (note : Note) (p : CheckedReader α) : CheckedReader α := onReply (.noting note) p

/-- Adds to every failure of `p` that something was expected. -/
def expecting (what : Expectation) (p : CheckedReader α) : CheckedReader α :=
  onReply (.expecting what) p

/-- Reads with `p`, or from the same place with `q` if `p` fails softly. -/
def either (p q : CheckedReader α) : CheckedReader α := fun s => do
  match ← p s with
  | .done a rest => return .done a rest
  | .failed failure rest => if failure.committed then return .failed failure rest else q s

/-- Reads with `p` until it fails softly, `bound` times at most. -/
def manyUpTo (p : CheckedReader α) : Nat → CheckedReader (List α)
  | 0, s => return .done [] s
  | bound + 1, s => do
    match ← p s with
    | .done a rest =>
      let reply ← manyUpTo p bound rest
      return reply.map (a :: ·)
    | .failed failure rest =>
      return if failure.committed then .failed failure rest else .done [] s

/-- Reads with `p` until it fails softly. -/
def many (p : CheckedReader α) : CheckedReader (List α) := fun s => manyUpTo p (s.length + 1) s

/-- One or more readings with `p`, with one of `separator` between them. -/
def separated (separator : Reader Unit) (p : CheckedReader α) : CheckedReader (List α) := do
  let first ← p
  let others ← many do
    ofReader separator
    p
  return first :: others

/-- Reads a whole fragment of the given kind. -/
def parseAs (kind : FragmentKind) (p : CheckedReader α) (fragment : Text) :
    Checked (Except SyntaxError α) := do
  let reply ← p fragment
  return Reader.parseAs kind (fun _ => reply) fragment

/-! ## Combinators keep readers without faults -/

theorem ofChecked_ok_bind (a : α) (f : α → CheckedReader β) : (ofChecked (.ok a) >>= f) = f a :=
  rfl

/-- A sequence is free of faults if its parts are, the second one for each value of the first. -/
theorem ofReader_bind {p : Reader α} {f : α → CheckedReader β} {g : α → Reader β}
    (h : ∀ a, f a = ofReader (g a)) : (ofReader p >>= f) = ofReader (p >>= g) := by
  funext s
  show (match p s with
    | .done a rest => f a rest
    | .failed failure rest => .ok (.failed failure rest)) = .ok ((p >>= g) s)
  rw [Reader.bind_apply]
  cases p s with
  | done a rest => exact congrFun (h a) rest
  | failed failure rest => rfl

theorem ofReader_seq (separator : Reader Unit) (p : Reader α) :
    (do ofReader separator; ofReader p) = ofReader (do separator; p) :=
  ofReader_bind fun _ => rfl

theorem ofReader_map (f : α → β) (p : Reader α) : f <$> ofReader p = ofReader (f <$> p) :=
  ofReader_bind fun _ => rfl

theorem ofReader_committed (p : Reader α) : committed (ofReader p) = ofReader (.committed p) := rfl

theorem ofReader_noting (note : Note) (p : Reader α) :
    noting note (ofReader p) = ofReader (.noting note p) := rfl

theorem ofReader_expecting (what : Expectation) (p : Reader α) :
    expecting what (ofReader p) = ofReader (.expecting what p) := rfl

theorem ofReader_either (p q : Reader α) :
    either (ofReader p) (ofReader q) = ofReader (.either p q) := by
  funext s
  unfold either ofReader Reader.either
  rw [checked_ok_bind]
  cases p s with
  | done a rest => rfl
  | failed failure rest => cases hcommitted : failure.committed <;> simp [hcommitted]

theorem ofReader_manyUpTo (p : Reader α) (bound : Nat) (s : Text) :
    manyUpTo (ofReader p) bound s = .ok (Reader.manyUpTo p bound s) := by
  induction bound generalizing s with
  | zero => rfl
  | succ bound ih =>
    rw [manyUpTo, Reader.manyUpTo, ofReader, checked_ok_bind]
    cases p s with
    | done a rest => simp only [ih, checked_ok_bind, checked_pure]
    | failed failure rest => rfl

theorem ofReader_many (p : Reader α) : many (ofReader p) = ofReader (.many p) :=
  funext fun s => ofReader_manyUpTo p (s.length + 1) s

theorem ofReader_separated (separator : Reader Unit) (p : Reader α) :
    separated separator (ofReader p) = ofReader (.separated separator p) := by
  refine ofReader_bind fun first => ?_
  rw [ofReader_seq, ofReader_many]
  exact ofReader_bind fun _ => rfl

theorem ofReader_parseAs (kind : FragmentKind) (p : Reader α) (fragment : Text) :
    parseAs kind (ofReader p) fragment = .ok (p.parseAs kind fragment) := rfl

end CheckedReader

end FilterList.Css
