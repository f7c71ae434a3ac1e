import Metatup.Lib.Digraph
import Metatup.Lib.Lts
import Metatup.Lib.Merge
import Metatup.Lib.Search
import Metatup.Lib.Lexical
import Metatup.Lib.Kahn
import Metatup.Updater.NoLostRebuild
import Metatup.Lib.Marking
import Metatup.Updater.Prune
import Metatup.Graph.Connected
import Metatup.Db.ActualInputs
import Metatup.Db.NoLostDependent
import Metatup.Db.GroupLinks
import Metatup.Parser.Strict
import Metatup.Parser.Tupbuild
import Metatup.Gen.Termination
import Metatup.Gen.Naming
import Metatup.Gen.Checked
import Metatup.Gen.Merge
import Metatup.Parser.BangRule
import Metatup.Parser.Outside
import Metatup.Updater.Gitignore
import Metatup.Db.Referential
import Metatup.Db.Reclaim
import Metatup.Server.Reads
import Metatup.Monitor.NoLostChange
import Metatup.Refactor.CommandOwners
import Metatup.Parser.NameList
import Metatup.Graph.GroupCheck
import Metatup.Parser.Brdir
import Metatup.Parser.Globs
import Metatup.Parser.Printf
import Metatup.Parser.NumberedFlags
import Metatup.Vars.Variants
import Metatup.Parser.Canonical
import Metatup.Parser.DistManifest
import Metatup.Parser.UnknownKeys
import Metatup.Parser.LineSplit
import Metatup.Db.CreateSpec
import Metatup.Server.Replay
import Metatup.Db.FullScan
import Metatup.Updater.UpdateSteps
import Metatup.Parser.FunctionBlocks
import Metatup.Parser.DistPlaced
import Metatup.Db.TentEntries
import Metatup.Monitor.PendingRenames
import Metatup.Updater.IgnoreLine
import Metatup.Db.EntryTree
import Metatup.Parser.ArgMerge
import Metatup.Db.RelativeDir
import Metatup.Parser.Context
import Metatup.Parser.OnePath
import Metatup.Db.LinkCache
import Metatup.Db.CompileWords
import Metatup.Parser.IfStmt
import Metatup.Parser.RuleDirs
import Metatup.Parser.Hygiene
import Metatup.Monitor.TriLock
import Metatup.Monitor.LockProgress
import Metatup.Server.MasterFork
import Metatup.Server.MasterForkProgress
import Metatup.Server.Readdir
import Metatup.Lib.Join
import Metatup.Vars.ReadVars
import Metatup.Vars.VarRuns
