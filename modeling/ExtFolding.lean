import ExtFolding.TimeMux.BddMux
import ExtFolding.TimeMux2.CheckEqv
import ExtFolding.TimeMux2.FewestPins
import ExtFolding.TimeMux2.FewestStates
import ExtFolding.TimeMux3.AigMux3
import ExtFolding.Utils.Voter
import ExtFolding.Utils.Merge
import ExtFolding.TimeMux4.LatchCount
import ExtFolding.TimeMux4.Perm
import ExtFolding.TimeFold.BddFold
import ExtFolding.TimeFold.TimeCas
import ExtFolding.TimeFold.TransRows
import ExtFolding.MeMin.CubeWords
import ExtFolding.MeMin.Exact
import ExtFolding.Misc.NatEnds
import ExtFolding.Misc.OneHotEnc
import ExtFolding.Misc.KissAgree
import ExtFolding.Lib.Cdcl
import ExtFolding.Lib.Heap
import ExtFolding.MeMin.Solving
import ExtFolding.Minisat.Binary64
