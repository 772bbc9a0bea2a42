import Pwned.Library.LittleEndian
import Pwned.Library.InputStream
import Pwned.Library.Fuel
import Pwned.Library.FileSystem
import Pwned.Library.PriorityQueue
import Pwned.Library.Layers
import Pwned.Library.Reader
import Pwned.Library.UnorderedMap
import Pwned.Util
import Pwned.Hash
import Pwned.PasswordHashAndCount
import Pwned.Database
import Pwned.PasswordInspector
import Pwned.Search
import Pwned.Index
import Pwned.Probe
import Pwned.IndexedLookup
import Pwned.Merge
import Pwned.MergeRun
import Pwned.MergeResult
import Pwned.MergeCounts
import Pwned.MergeRounds
import Pwned.MergeCancel
import Pwned.HashHex
import Pwned.HttpWorker
import Pwned.MarkovChain
import Pwned.MarkovTraining
import Pwned.MarkovFile
import Pwned.ConvertOperation
import Pwned.ConvertCounts
import Pwned.ConvertEnds
import Pwned.ConvertNames
import Pwned.OperationQueue
import Pwned.Library.Counting
import Pwned.QueueAccounts
import Pwned.QueueCancel
import Pwned.QueuePause
import Pwned.SmartSearch
import Pwned.TruncatedLookup
import Pwned.UriTarget
import Pwned.MergeEntries
import Pwned.MergeTrace
import Pwned.MergeTails
import Pwned.MergeHarmless
import Pwned.Library.MaxElement
import Pwned.ReaderLines
import Pwned.PairFiles
import Pwned.HexDetection
import Pwned.LineEndings
import Pwned.MergeEnds
import Pwned.MarkovFrequencies
import Pwned.MarkovPaths
import Pwned.Library.Cumulative
import Pwned.MarkovRandom
import Pwned.UriValid
import Pwned.TargetRoundTrip
import Pwned.UriRoundTrip
import Pwned.HashOrder
import Pwned.MergeProgress
import Pwned.Be2le
import Pwned.IndexTable
import Pwned.HexCoding
import Pwned.Library.Lanes
import Pwned.PopCount
import Pwned.ConvertThreads
import Pwned.ConvertFinish
import Pwned.RoundCounts
import Pwned.Pipeline
import Pwned.WorkerLoop
import Pwned.WorkerSession
import Pwned.HttpClientWorker
import Pwned.LoadTest
import Pwned.TestSet
import Pwned.PasswordExtractor
import Pwned.MarkovTools
import Pwned.QueueProgress
import Pwned.QueueOrder
import Pwned.ConverterProgram
import Pwned.ConverterCancel
import Pwned.ConverterMemory
