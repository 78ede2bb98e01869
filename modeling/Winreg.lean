import Winreg.Core.ReadSafety
import Winreg.Core.LogStream
import Winreg.Core.Purity
import Winreg.Carve.HiveCarver
import Winreg.Carve.Provenance
import Winreg.Core.Path
import Winreg.Artifacts.Expansion
import Winreg.Artifacts.Attribution
import Winreg.Artifacts.UserHives
import Winreg.Artifacts.ControlSets
import Winreg.Core.Replay
import Winreg.Traversal
import Winreg.Core.Tree
import Winreg.Diff.Coverage
import Winreg.Format.Records
import Winreg.Base.Arena
import Winreg.TestUtil.RoundTrip
import Winreg.Core.IndexKinds
import Winreg.Core.BigData
import Winreg.Diff.Soundness
import Winreg.Diff.Antisymmetry
import Winreg.Artifacts.WalkAgreement
import Winreg.Artifacts.ShimcacheBlob
import Winreg.Core.PagePlacement
import Winreg.Core.BinBounds
import Winreg.Core.VersionGate
import Winreg.Carve.Planting
import Winreg.Carve.ScanCap
import Winreg.Artifacts.LiteralPaths
import Winreg.Artifacts.Splits
import Winreg.Diff.Order
import Winreg.Core.WindowsLog
import Winreg.Core.BinCatalog
import Winreg.Core.MultiSz
import Winreg.Core.PathCompose
import Winreg.Format.Checksum
import Winreg.Artifacts.ShimcacheSentinel
import Winreg.Artifacts.ShellBagSlots
import Winreg.Artifacts.RunKeys
import Winreg.Artifacts.TypedUrls
import Winreg.Artifacts.HiveNames
import Winreg.Artifacts.PrefixCuts
import Winreg.Core.Recovery
import Winreg.Artifacts.Findings
import Winreg.Cli.Search
import Winreg.Artifacts.Discovery
import Winreg.Cli.Diff
