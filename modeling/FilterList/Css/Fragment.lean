import FilterList.Css.Block
import FilterList.Css.MediaQuery
import FilterList.Css.Selector.Reader
import FilterList.Css.Selector.Writer
set_option autoImplicit false

/-!
# Style sheet fragments of any kind
-/

namespace FilterList.Css

/-- A fragment of one of the kinds that can be read on their own. -/
inductive Fragment where
  | selector (s : Selector)
  | block (b : Block)
  | mediaQueryList (l : MediaQueryList)
  deriving DecidableEq

namespace Fragment

/-- The written form of a fragment. -/
def render : Fragment → Text
  | selector s => s.render
  | block b => b.render
  | mediaQueryList l => l.render

/-- Reads a text that is a fragment of the given kind. -/
def parse (kind : FragmentKind) (text : Text) : Except SyntaxError Fragment :=
  match kind with
  | .selector => (Selector.parse text).map .selector
  | .block => (Block.parse text).map .block
  | .mediaQueryList => (MediaQueryList.parse text).map .mediaQueryList

end Fragment

end FilterList.Css
