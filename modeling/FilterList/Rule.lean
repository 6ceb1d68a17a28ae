import FilterList.Text.Basic
set_option autoImplicit false

/-!
# Rules and dialects
-/

namespace FilterList

/-- The dialects of filter lists. -/
inductive Dialect where
  /-- whatever reads the same in every dialect -/
  | common
  | adGuard
  | ublockOrigin
  | adblockPlus
  deriving DecidableEq, Repr, Inhabited

/-- The name of a dialect in messages. -/
def Dialect.wording : Dialect → String
  | common => "Common"
  | adGuard => "AdGuard"
  | ublockOrigin => "uBlockOrigin"
  | adblockPlus => "AdblockPlus"

/-- The kinds of rule in a filter list. -/
inductive Category where
  | comment
  | cosmetic
  | network
  deriving DecidableEq, Repr, Inhabited

/-- The marks that make a line a comment. -/
inductive CommentMark where
  /-- `! comment` -/
  | exclamation
  /-- `# comment` -/
  | hash
  deriving DecidableEq, Repr, Inhabited

/-- The mark that a character is, if it is one. -/
def CommentMark.ofChar? (c : Char) : Option CommentMark :=
  if c = '!' then some exclamation
  else if c = '#' then some hash
  else none

/-- What all rules have: a category, and the dialect they belong to. -/
class Rule (ρ : Type) where
  category : ρ → Category
  dialect : ρ → Dialect

end FilterList
