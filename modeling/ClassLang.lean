import ClassLang.Compile
import ClassLang.Proofs.Ancestry
import ClassLang.Proofs.Check.Points
import ClassLang.Proofs.Check.Filled
import ClassLang.Proofs.Mentions
import ClassLang.Proofs.Mirror
import ClassLang.Proofs.Modular
import ClassLang.Proofs.Nearest
import ClassLang.Proofs.Nesting
import ClassLang.Proofs.Overload
import ClassLang.Proofs.Receiver
import ClassLang.Proofs.Recheck
import ClassLang.Proofs.Reorder
import ClassLang.Proofs.Scoping
import ClassLang.Proofs.Subtyping
import ClassLang.Proofs.Symbol
import ClassLang.Proofs.Typing.Reorder
import ClassLang.Proofs.Complete
import ClassLang.Proofs.Frame
import ClassLang.Proofs.Inherited
import ClassLang.Proofs.Fault.Reported
import ClassLang.Proofs.Insertion
import ClassLang.Proofs.Source.Program
import ClassLang.Proofs.Listing
