import ExtFolding.MeMin.Exact
import ExtFolding.Minisat.Formula

/-!
# memin with its own solver

`minimizer.cpp` makes a MiniSat for each number of classes and asks it once. The results on memin
hold for every solver whose answers are right, and those of MiniSat are. A MiniSat that is not done
after a number of restarts leaves the run without a result.
-/

namespace ExtFolding.MeMin

open Minisat Std.Sat ExtFolding.Sat

variable {ni no r : ℕ} {m : Machine} {modes : Modes} {F : Type} [Double F]

/-! ## The code -/

variable [LawfulDouble F]

end ExtFolding.MeMin
