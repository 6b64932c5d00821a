import StreamDataPipeline.Foundations.Word
import StreamDataPipeline.Foundations.ByteString
import StreamDataPipeline.Foundations.Decimal
import StreamDataPipeline.Foundations.Lines
import StreamDataPipeline.Foundations.Getopt
import StreamDataPipeline.Foundations.Mealy
import StreamDataPipeline.Foundations.Schedule
import StreamDataPipeline.Foundations.GreedySplit
import StreamDataPipeline.Foundations.LastWrite
import StreamDataPipeline.Foundations.KeySort
import StreamDataPipeline.Foundations.ExpiringMap
import StreamDataPipeline.Foundations.LinearProbing
import StreamDataPipeline.Foundations.LockedFile
import StreamDataPipeline.Foundations.OutputStream
import StreamDataPipeline.Foundations.DescriptorTable
import StreamDataPipeline.Foundations.OwnedBlocks
import StreamDataPipeline.Foundations.PipeChain
import StreamDataPipeline.Foundations.Reassembly
import StreamDataPipeline.Foundations.RunningMaxima
import StreamDataPipeline.Foundations.StoredDeflate
import StreamDataPipeline.Foundations.FirstDistinct
import StreamDataPipeline.Foundations.Grouping
import StreamDataPipeline.Foundations.StrTok
import StreamDataPipeline.Foundations.Csv
import StreamDataPipeline.Foundations.FloatingPoint
import StreamDataPipeline.Foundations.Doubles
import StreamDataPipeline.Foundations.Json
import StreamDataPipeline.Foundations.JsonText
import StreamDataPipeline.Foundations.JsonUnescaped
import StreamDataPipeline.Foundations.JsonRounding
import StreamDataPipeline.Lib.Base64
import StreamDataPipeline.Lib.Base64Canonical
import StreamDataPipeline.Lib.Base64Memory
import StreamDataPipeline.Lib.Buffer
import StreamDataPipeline.Lib.BufferRuns
import StreamDataPipeline.Lib.Libpipeline
import StreamDataPipeline.Lib.JsonlCodec
import StreamDataPipeline.Lib.IntegerGetters
import StreamDataPipeline.ClipStore.Format
import StreamDataPipeline.ClipStore.BucketIndex
import StreamDataPipeline.ClipStore.Query
import StreamDataPipeline.ClipStore.KeyIsolation
import StreamDataPipeline.ClipStore.TornTail
import StreamDataPipeline.ClipStore.Compaction
import StreamDataPipeline.ClipStore.Main
import StreamDataPipeline.ClipStore.Options
import StreamDataPipeline.ClipStore.TtlRefinement
import StreamDataPipeline.ClipStore.Concurrent
import StreamDataPipeline.ClipStore.AtomicRewrite
import StreamDataPipeline.ClipStore.WriteFailures
import StreamDataPipeline.ClipStore.AllocationFailures
import StreamDataPipeline.ClipStore.DecompressBuffer
import StreamDataPipeline.ClipStore.Expiry
import StreamDataPipeline.ClipStore.SessionPrefix
import StreamDataPipeline.ClipStore.Crash
import StreamDataPipeline.ClipStore.OwnedBuckets
import StreamDataPipeline.ClipStore.Ownership
import StreamDataPipeline.StreamMerge.Events
import StreamDataPipeline.StreamMerge.Fsm
import StreamDataPipeline.StreamMerge.EventOrder
import StreamDataPipeline.StreamMerge.FsmRun
import StreamDataPipeline.StreamMerge.ByteConservation
import StreamDataPipeline.StreamMerge.SequenceOrder
import StreamDataPipeline.StreamMerge.Segmentation
import StreamDataPipeline.StreamMerge.Branches
import StreamDataPipeline.StreamMerge.WindowTarget
import StreamDataPipeline.StreamMerge.ClipShape
import StreamDataPipeline.StreamMerge.WindowBacklog
import StreamDataPipeline.StreamMerge.TimestampDrift
import StreamDataPipeline.StreamMerge.EventAttribution
import StreamDataPipeline.StreamMerge.WindowMembers
import StreamDataPipeline.StreamMerge.ContinuousClips
import StreamDataPipeline.StreamMerge.ExactArithmetic
import StreamDataPipeline.StreamMerge.EmitClip
import StreamDataPipeline.StreamMerge.Options
import StreamDataPipeline.StreamMerge.Session
import StreamDataPipeline.StreamMerge.Completion
import StreamDataPipeline.StreamMerge.Reader
import StreamDataPipeline.StreamMerge.DrainMeta
import StreamDataPipeline.StreamMerge.AcceptedRecords
import StreamDataPipeline.LogParse.FilterExpr
import StreamDataPipeline.LogParse.FilterParse
import StreamDataPipeline.LogParse.JsonlMode
import StreamDataPipeline.LogParse.FullLog
import StreamDataPipeline.LogParse.RegexMode
import StreamDataPipeline.LogParse.SplitFields
import StreamDataPipeline.LogParse.Replay
import StreamDataPipeline.LogParse.Aggregates
import StreamDataPipeline.LogParse.CsvOutput
import StreamDataPipeline.LogParse.Ownership
import StreamDataPipeline.Pipeline.ProcessChain
import StreamDataPipeline.Pipeline.ClipLine
import StreamDataPipeline.Pipeline.ClipAccepted
import StreamDataPipeline.Pipeline.ClipKeys
import StreamDataPipeline.Pipeline.PlainClips
import StreamDataPipeline.Pipeline.StoredClips
import StreamDataPipeline.Pipeline.Interrupted
import StreamDataPipeline.PipelineDispatcher.Config
import StreamDataPipeline.PipelineDispatcher.OptionAgreement
import StreamDataPipeline.PipelineDispatcher.Supervision
import StreamDataPipeline.PipelineDispatcher.Progress
import StreamDataPipeline.PipelineDispatcher.Accounting
import StreamDataPipeline.PipelineDispatcher.Termination
import StreamDataPipeline.PipelineDispatcher.Reaping
import StreamDataPipeline.PipelineDispatcher.Topology
import StreamDataPipeline.UdpStream.PythonBase64
import StreamDataPipeline.UdpStream.Sidecar
import StreamDataPipeline.UdpStream.Server
import StreamDataPipeline.UdpStream.Ingested
import StreamDataPipeline.UdpStream.Datagram
import StreamDataPipeline.UdpStream.Client
import StreamDataPipeline.UdpStream.Delivery
import StreamDataPipeline.UdpStream.ClipRows
import StreamDataPipeline.UdpStream.Extractor
import StreamDataPipeline.UdpStream.Extracted
import StreamDataPipeline.UdpStream.FullRun
import StreamDataPipeline.UdpStream.AutoExtract
