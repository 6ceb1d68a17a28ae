import FilterList.Css.Fragment
import FilterList.Error
import FilterList.Line
import FilterList.Proofs.Agent
import FilterList.Proofs.Css.Block.Grammar
import FilterList.Proofs.Css.MediaQuery.Unclosed
import FilterList.Proofs.Css.Selector.Composition
import FilterList.Proofs.Css.Selector.Nesting
import FilterList.Proofs.Css.Selector.Preorder
import FilterList.Proofs.Css.Selector.Quoting
import FilterList.Proofs.Injection.Dispatch
import FilterList.Proofs.Injection.Plain
import FilterList.Proofs.Injection.Removal
import FilterList.Proofs.Injection.Splitting
import FilterList.Proofs.NetworkRule
import FilterList.Proofs.Progress.Grammar
import FilterList.Proofs.Slicing.NoFault
import FilterList.Proofs.Slicing.Search
import FilterList.RoundTrip
