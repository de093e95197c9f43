import Nia.AbiCheck.SysV64Exact
import Nia.BodyCheck.ConstGenericArgs
import Nia.Build.Cancellation
import Nia.Build.Exclusive
import Nia.Build.Resources
import Nia.Build.Wedge
import Nia.Checksum.Crc
import Nia.Codegen.EnumTags
import Nia.Codegen.Fingerprint
import Nia.Codegen.WideDivision
import Nia.Collections.HashProbe
import Nia.Crypto.Sha256Digest
import Nia.Diagnostics.Report
import Nia.FunctionIr.ScopeChain
import Nia.Git.Http
import Nia.Git.KnownHosts
import Nia.Git.PackExact
import Nia.Git.PacketLine
import Nia.Git.SshChannel
import Nia.Hash.SipHash
import Nia.Hash.WyhashStream
import Nia.Io.BufferedReader
import Nia.Layout.Aggregate
import Nia.Lexer.Lines
import Nia.Mangle.Strict
import Nia.Mem.ArenaSound
import Nia.Nodes.Threads
import Nia.PackageMetadata.Archive
import Nia.PackageMetadata.VersionSolve
import Nia.PatternAnalysis.ScalarPartition
import Nia.Query.Dependencies
import Nia.Query.Retirement
import Nia.Slice.HeapSort
import Nia.Source.NormalizePath
import Nia.TargetConfig.Exact
import Nia.Text.Replace
import Nia.Ty.StoreSubstitute
import Nia.Unicode.View
import Nia.Windows.Command
