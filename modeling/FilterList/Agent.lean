import FilterList.Rule
import FilterList.Text.WhiteSpace
set_option autoImplicit false

/-!
# Agent comments

`[Adblock Plus 2.0; uBlock Origin 1.40]`, alone on a line or behind a comment mark, says for which
ad blockers a list is written.
-/

namespace FilterList

/-- One ad blocker, such as `uBlock Origin 1.40`. -/
structure AgentMember where
  name : Text
  version : Option Text
  deriving DecidableEq, Repr, Inhabited

/-- An agent comment. -/
structure Agent where
  dialect : Dialect
  members : List AgentMember
  deriving DecidableEq, Repr, Inhabited

instance : Rule Agent where
  category _ := .comment
  dialect a := a.dialect

/-! ## Writing -/

/-- The written form of a member.  An empty version is not written. -/
def AgentMember.render (m : AgentMember) : Text :=
  m.name ++
    match m.version with
    | none => []
    | some version => if version.isEmpty then [] else ' ' :: version

/-- The written form of an agent comment, without a comment mark. -/
def Agent.render (a : Agent) : Text :=
  '[' :: List.intercalate [';', ' '] (a.members.map AgentMember.render) ++ [']']

/-! ## Reading -/

namespace AgentMember

/-- A word looks like a version when it has a full stop or a digit. -/
def isVersionWord (word : Text) : Bool := word.any fun c => c == '.' || c.isDigit

/-- Reads a member.  Its words are separated by single blanks, and the first word that looks like a
version starts the version, unless it is the first word of all. -/
def parse (text : Text) : AgentMember :=
  let trimmed := Text.trim text
  let words := trimmed.splitOn ' '
  let nameWords := words.takeWhile fun word => !isVersionWord word
  let versionWords := words.dropWhile fun word => !isVersionWord word
  if nameWords.isEmpty || versionWords.isEmpty then ⟨trimmed, none⟩
  else ⟨List.intercalate [' '] nameWords, some (List.intercalate [' '] versionWords)⟩

end AgentMember

namespace Agent

/-- The text is a bare agent list: it starts with `[` and ends with `]`. -/
def isBare (text : Text) : Bool := Text.beginsWith '[' text && Text.endsWith ']' text

/-- What follows the `[` of an agent list that opens the text, or that follows a comment mark and
white space. -/
def afterOpening? : Text → Option Text
  | '[' :: rest => some rest
  | c :: rest =>
    match CommentMark.ofChar? c with
    | none => none
    | some _ => Text.after? ['['] (Text.trimStart rest)
  | [] => none

/-- Reads an agent comment, if the text is one.  Members without a name are left out. -/
def parse? (text : Text) : Option Agent := do
  let list ← afterOpening? text
  let content ← Text.beforeFinal? ']' list
  return {
    dialect := .common
    members := ((content.splitOn ';').map AgentMember.parse).filter fun m => !m.name.isEmpty }

end Agent

end FilterList
