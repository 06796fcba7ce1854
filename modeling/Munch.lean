import Munch.Main
import Munch.Pattern.Session
import Munch.Proofs.Blame
import Munch.Proofs.Literal
import Munch.Proofs.Scan
import Munch.Proofs.Table.Exact
import Munch.Proofs.Table.Image
import Munch.Proofs.Table.Ledger
import Munch.Proofs.Table.Mirrors
import Munch.Proofs.Table.Unsupported
import Munch.Tree.Printer
import Munch.Proofs.Pattern.Complement
import Munch.Proofs.Pattern.Depth
import Munch.Proofs.Pattern.Session
import Munch.Proofs.Table.Text
import Munch.Proofs.Pattern.Legible
import Munch.Proofs.Pattern.Printed
import Munch.Proofs.Pattern.Illegible
import Munch.Proofs.CommandLine.Arguments
import Munch.Proofs.CommandLine.Run
import Munch.Proofs.Emit.Comment
import Munch.Proofs.Interval.Canonical
import Munch.Proofs.Interval.Partition
import Munch.Proofs.Program.Blocks
