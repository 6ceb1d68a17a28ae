import FilterList.Proofs.Progress.Reader
set_option autoImplicit false

/-!
# Loops that end

A loop takes one turn after the other, each where the one before stopped, until a turn says that it
is over or fails.  `Runs` relates a loop to its outcome and bounds the number of turns by nothing;
a loop that never ends simply has no outcome.

If every turn after which the loop goes on takes something off the text, the loop ends on every
text, and the text is the bound.  `LoopOf` says so of a loop and names the reader whose replies
the outcomes are.
-/

namespace FilterList.Css.Reader

variable {α β σ : Type}

/-- What a turn of a loop decides. -/
inductive Turn (σ β : Type) where
  /-- the loop goes on in another state -/
  | again (state : σ)
  /-- the loop is left with a value -/
  | leave (value : β)

namespace Turn

/-- Reads on after a turn, with `goOn` if the loop goes on. -/
def next (goOn : σ → Reader β) : Turn σ β → Reader β
  | again state => goOn state
  | leave value => pure value

@[simp] theorem next_again (goOn : σ → Reader β) (state : σ) :
    (again state).next goOn = goOn state := rfl

@[simp] theorem next_leave (goOn : σ → Reader β) (value : β) :
    (leave value : Turn σ β).next goOn = pure value := rfl

end Turn

/-- The loop with this turn, begun in a state, is over on the text after so many turns, with that
reply. -/
inductive Runs (turn : σ → Reader (Turn σ β)) : σ → Text → Nat → Reply β → Prop
  | again {state state' : σ} {s mid : Text} {turns : Nat} {reply : Reply β} :
      turn state s = .done (.again state') mid → Runs turn state' mid turns reply →
      Runs turn state s (turns + 1) reply
  | leave {state : σ} {s rest : Text} {value : β} :
      turn state s = .done (.leave value) rest → Runs turn state s 1 (.done value rest)
  | failed {state : σ} {s rest : Text} {failure : Failure} :
      turn state s = .failed failure rest → Runs turn state s 1 (.failed failure rest)

/-- Each turn after which the loop goes on has taken something. -/
def Consuming (turn : σ → Reader (Turn σ β)) : Prop :=
  ∀ state s state' rest, turn state s = .done (.again state') rest → rest.length < s.length

/-- The loop that begins in the state `start` reads as `p` does: it takes something whenever it goes
on, it ends on every text, after one turn more than the text has characters at the latest, and
the reply of `p` is its only outcome. -/
structure LoopOf (turn : σ → Reader (Turn σ β)) (start : σ) (p : Reader β) : Prop where
  consuming : Consuming turn
  ends : ∀ s, ∃ turns, turns ≤ s.length + 1 ∧ Runs turn start s turns (p s)
  outcome : ∀ s turns reply, Runs turn start s turns reply → reply = p s

/-! ## A loop is what its turn unfolds to -/

section

variable {turn : σ → Reader (Turn σ β)} {p : σ → Reader β}
  (hunfold : ∀ state, p state = turn state >>= Turn.next p)

include hunfold

theorem runs_of_unfold (hturn : Consuming turn) (state : σ) (s : Text) :
    ∃ turns, turns ≤ s.length + 1 ∧ Runs turn state s turns (p state s) := by
  -- the state may grow without end, so the induction is on what is left of the text
  induction hn : s.length using Nat.strongRecOn generalizing state s with
  | ind n ih =>
    rw [hunfold, bind_apply]
    cases h : turn state s with
    | failed failure rest => exact ⟨1, by omega, .failed h⟩
    | done decision mid =>
      cases decision with
      | leave value => exact ⟨1, by omega, .leave h⟩
      | again state' =>
        have hlt : mid.length < n := hn ▸ hturn state s state' mid h
        obtain ⟨turns, hle, hruns⟩ := ih mid.length hlt state' mid rfl
        exact ⟨turns + 1, by omega, .again h hruns⟩

theorem eq_of_runs {state : σ} {s : Text} {turns : Nat} {reply : Reply β}
    (h : Runs turn state s turns reply) : reply = p state s := by
  induction h with
  | @again state _ s _ _ _ hturn _ ih =>
    rw [ih, congrFun (hunfold state) s, bind_of_done hturn, Turn.next_again]
  | leave hturn => rw [hunfold, bind_of_done hturn, Turn.next_leave, pure_apply]
  | failed hturn => rw [hunfold, bind_of_failed hturn]

/-- A reader that takes one turn and then reads on in the state that the turn left is the reader of
the loop. -/
theorem loopOf_of_unfold (hturn : Consuming turn) (start : σ) : LoopOf turn start (p start) where
  consuming := hturn
  ends := runs_of_unfold hunfold hturn start
  outcome := fun _ _ _ h => eq_of_runs hunfold h

end

/-- The loop adds what `q` gives to what has been taken before, and ends on every text. -/
def Collects (turn : List α → Reader (Turn (List α) (List α))) (q : Reader (List α)) : Prop :=
  ∀ taken, LoopOf turn taken ((taken ++ ·) <$> q)

/-! ## Repetition -/

/-- A turn of a repetition: reads with `p` once more and adds the value to the state.  The loop is
left when `p` refuses. -/
def repeatTurn (add : σ → α → σ) (p : Reader α) (state : σ) : Reader (Turn σ σ) := do
  match ← attempt p with
  | some a => return .again (add state a)
  | none => return .leave state

/-- A turn of a repetition that gives the values in a list. -/
def manyTurn (p : Reader α) (taken : List α) : Reader (Turn (List α) (List α)) :=
  repeatTurn (fun taken a => taken ++ [a]) p taken

theorem repeatTurn_apply (add : σ → α → σ) (p : Reader α) (state : σ) (s : Text) :
    repeatTurn add p state s =
      match p s with
      | .done a rest => .done (.again (add state a)) rest
      | .failed failure rest =>
        if failure.committed then .failed failure rest else .done (.leave state) s := by
  rw [repeatTurn, bind_apply, attempt]
  cases p s with
  | done a rest => rfl
  | failed failure rest => cases hc : failure.committed <;> simp [hc]

theorem consuming_repeatTurn (add : σ → α → σ) {p : Reader α} (hp : Progress p) :
    Consuming (repeatTurn add p) := by
  intro state s state' rest h
  rw [repeatTurn_apply] at h
  cases hread : p s with
  | done a mid =>
    rw [hread] at h
    cases h
    exact hp s a rest hread
  | failed failure mid => cases hc : failure.committed <;> simp [hread, hc] at h

/-- A reader that reads as `p` does and then goes on is the reader of the repetition. -/
theorem loopOf_repeatTurn {add : σ → α → σ} {p : Reader α} (hp : Progress p) {q : σ → Reader σ}
    (hq : ∀ state s, q state s =
      match p s with
      | .done a rest => q (add state a) rest
      | .failed failure rest =>
        if failure.committed then .failed failure rest else .done state s) (start : σ) :
    LoopOf (repeatTurn add p) start (q start) := by
  refine loopOf_of_unfold ?_ (consuming_repeatTurn add hp) start
  intro state
  funext s
  rw [hq, bind_apply, repeatTurn_apply]
  cases hread : p s with
  | done a rest => rfl
  | failed failure rest => cases hc : failure.committed <;> simp [hc]

/-- The bound of the repetition is never met: it is the loop without a bound. -/
def ManyEnds (p : Reader α) : Prop := Collects (manyTurn p) (many p)

theorem manyEnds {p : Reader α} (hp : Progress p) : ManyEnds p := by
  intro taken
  refine loopOf_repeatTurn hp (q := fun taken => (taken ++ ·) <$> many p) ?_ taken
  intro taken s
  rw [map_apply, many_apply hp]
  cases hread : p s with
  | done a mid =>
    show ((many p mid).map (a :: ·)).map (taken ++ ·) = ((taken ++ [a] ++ ·) <$> many p) mid
    rw [Reply.map_map, map_apply]
    simp
  | failed failure mid => cases hc : failure.committed <;> simp [hc, Reply.map]

end FilterList.Css.Reader
