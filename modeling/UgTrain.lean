import UgTrain.CLib.Str
import UgTrain.CLib.Scan
import UgTrain.Chain
import UgTrain.Run
import UgTrain.Pointwise
import UgTrain.CfgEntry
import UgTrain.Macros
import UgTrain.Regions
import UgTrain.FifoParser
import UgTrain.HackMsg
import UgTrain.FifoLemmas
import UgTrain.FifoDecode
import UgTrain.FifoBuffer
import UgTrain.MemMgmt
import UgTrain.AllocMsg
import UgTrain.MemAddrs
import UgTrain.MallocQueue
import UgTrain.Objects
import UgTrain.ObjTrack
import UgTrain.LibMemHack
import UgTrain.Discovery
import UgTrain.DiscAgree
import UgTrain.DynMemMsg
import UgTrain.ConfigMsg
import UgTrain.EarlyAslr
import UgTrain.ConfigRoundTrip
import UgTrain.CLib.OutBuf
import UgTrain.MsgBuf
import UgTrain.LatePic
import UgTrain.LateAgree
import UgTrain.LateProtocol
import UgTrain.Attribution
import UgTrain.BuildCaches
import UgTrain.Reloc
import UgTrain.Passes
import UgTrain.RelocCaches
import UgTrain.RelocAddr
import UgTrain.NumType
import UgTrain.Process
import UgTrain.ProcSteps
import UgTrain.ValOutput
import UgTrain.MainLoop
import UgTrain.ObjVals
import UgTrain.Keeps
import UgTrain.Aligned
import UgTrain.ObjRows
import UgTrain.Activation
import UgTrain.Visits
import UgTrain.Targets
import UgTrain.Cycle
import UgTrain.ObjBounds
import UgTrain.RelocRuns
import UgTrain.CacheCover
import UgTrain.Freeze
import UgTrain.RefIndex
import UgTrain.CLib.Search
import UgTrain.ReverseParser
import UgTrain.ReverseWindows
import UgTrain.CLib.Ended
import UgTrain.ReverseParse
import UgTrain.Backtrace
import UgTrain.CLib.Strto
import UgTrain.LineParser
import UgTrain.ReadConfig
import UgTrain.KeyBindings
import UgTrain.TypeWidth
import UgTrain.Literals
import UgTrain.RefZero
import UgTrain.RefNumber
import UgTrain.ValSet
import UgTrain.RefFresh
import UgTrain.CLib.Lines
import UgTrain.MsgFields
import UgTrain.HexAddr
import UgTrain.ConfigLines
import UgTrain.AllocRules
import UgTrain.CLib.TextFile
import UgTrain.CfgFile
import UgTrain.ConfigRule
import UgTrain.ActLists
import UgTrain.LoadedCfg
import UgTrain.ReadOnly
import UgTrain.PreloadEnv
import UgTrain.StackEnd
import UgTrain.Ptrace
import UgTrain.CodeRegion
import UgTrain.Tracking
import UgTrain.DirectMem
import UgTrain.CachedCycle
import UgTrain.ValHist
import UgTrain.Adapt
import UgTrain.TakeOver
import UgTrain.Readapt
import UgTrain.Adapted
import UgTrain.Maps
import UgTrain.CachedConfig
