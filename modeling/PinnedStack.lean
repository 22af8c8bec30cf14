import PinnedStack.Main
import PinnedStack.Proofs.Typing.Paths
import PinnedStack.Proofs.Typing.RuntimePins
import PinnedStack.Proofs.Typing.Associativity
import PinnedStack.Proofs.Typing.Frame
import PinnedStack.Proofs.Typing.Separate
import PinnedStack.Proofs.Typing.Words
import PinnedStack.Proofs.Machine.Transparency
import PinnedStack.Proofs.Machine.Heights
import PinnedStack.Proofs.Machine.Constants
import PinnedStack.Proofs.Machine.Decimal
import PinnedStack.Proofs.Machine.PinValues
import PinnedStack.Proofs.Machine.Records
import PinnedStack.Proofs.Tree.Linking
import PinnedStack.Proofs.Grammar.Blocks
import PinnedStack.Proofs.Pins.Buffer
import PinnedStack.Proofs.Text.Closed
import PinnedStack.Proofs.Source.Partition
import PinnedStack.Proofs.Text.Literals
import PinnedStack.Proofs.Places.Layout
import PinnedStack.Proofs.Command.Build
import PinnedStack.Proofs.Constant.Exact
import PinnedStack.Proofs.Constant.Trees
import PinnedStack.Proofs.Typing.Balance
import PinnedStack.Proofs.Machine.Reads
import PinnedStack.Proofs.Machine.Equality
import PinnedStack.Proofs.Source.Numerals
import PinnedStack.Proofs.Text.Continued
import PinnedStack.Proofs.Tree.Reached
import PinnedStack.Proofs.Grammar.Closing
import PinnedStack.Proofs.Source.Types
import PinnedStack.Proofs.Text.Entries
import PinnedStack.Proofs.Typing.Comparison
import PinnedStack.Proofs.Pins.History
