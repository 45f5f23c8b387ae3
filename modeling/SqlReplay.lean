import SqlReplay.Bytes
import SqlReplay.Sql.Lexer
import SqlReplay.Sql.Classify
import SqlReplay.Sql.WriteForms
import SqlReplay.Sql.ExecutableComment
import SqlReplay.Sql.Nondeterministic
import SqlReplay.Proto.Text
import SqlReplay.Proto.Binary
import SqlReplay.Proto.Assembler
import SqlReplay.Proto.Chunking
import SqlReplay.Proto.Decoder
import SqlReplay.Proto.Flush
import SqlReplay.Proto.UseStatement
import SqlReplay.Proto.Wire
import SqlReplay.Proto.Attributes
import SqlReplay.Proto.Session
import SqlReplay.Proto.Conversation
import SqlReplay.Proto.Pipeline
import SqlReplay.Data.SortedMap
import SqlReplay.Data.Register
import SqlReplay.Data.Slice
import SqlReplay.Data.Checked
import SqlReplay.Data.Attribution
import SqlReplay.Data.Regions
import SqlReplay.Data.FirstSeen
import SqlReplay.Pcap.SeqStream
import SqlReplay.Pcap.Reassembly
import SqlReplay.Pcap.Frame
import SqlReplay.Pcap.Engine
import SqlReplay.Pcap.Invariant
import SqlReplay.Pcap.StreamInvariant
import SqlReplay.Data.Loop
import SqlReplay.Pcap.FrameSafety
import SqlReplay.Pcap.Encode
import SqlReplay.Pcap.SynRetransmit
import SqlReplay.Pcap.Connections
import SqlReplay.Pcap.Accounting
import SqlReplay.Pcap.Demultiplex
import SqlReplay.Pcap.Transport
import SqlReplay.Pcap.Sessions
import SqlReplay.Pcap.Observed
import SqlReplay.Pcap.Scan
import SqlReplay.Pcap.RunCapture
import SqlReplay.Capture.Event
import SqlReplay.Task.Program
import SqlReplay.Task.Interleave
import SqlReplay.Task.Protocol
import SqlReplay.Task.Progress
import SqlReplay.Task.Sequential
import SqlReplay.Replay.Metrics
import SqlReplay.Replay.Session
import SqlReplay.Replay.Handling
import SqlReplay.Replay.Pass
import SqlReplay.Replay.Conservation
import SqlReplay.Replay.Abort
import SqlReplay.Replay.Custody
import SqlReplay.Replay.Database
import SqlReplay.Replay.Tenancy
import SqlReplay.Replay.ConnectionCap
import SqlReplay.Replay.Termination
import SqlReplay.Replay.Closing
import SqlReplay.Sql.Fingerprint
import SqlReplay.Capture.Format
import SqlReplay.Capture.Registry
import SqlReplay.Capture.Emitter
import SqlReplay.Capture.ReadBack
import SqlReplay.Replay.Spool
import SqlReplay.Replay.SpoolBuild
import SqlReplay.Replay.Ingestion
import SqlReplay.Sql.Scanners
import SqlReplay.Sql.Agreement
import SqlReplay.Sql.Literals
import SqlReplay.Sql.Normalize
import SqlReplay.Sql.CodeLevel
import SqlReplay.Sql.Collapse
import SqlReplay.Sql.LiteralLists
import SqlReplay.Sql.FingerprintClass
import SqlReplay.Sql.Trivia
import SqlReplay.Sql.Delimited
import SqlReplay.Sql.SetStatement
import SqlReplay.Sql.WithStatement
import SqlReplay.Sql.StringLiteral
import SqlReplay.Slowlog.RoundTrip
import SqlReplay.Slowlog.Swallowed
import SqlReplay.Slowlog.Carried
import SqlReplay.Slowlog.LogEntry
import SqlReplay.Slowlog.Isolation
import SqlReplay.Proto.LongData
import SqlReplay.Data.Reads
import SqlReplay.Data.Scanner
import SqlReplay.Sql.Contexts
import SqlReplay.Proto.BinaryWire
import SqlReplay.Proto.Handshake
import SqlReplay.Proto.Observed
import SqlReplay.Proto.Execute
import SqlReplay.Proto.CheckedDecoder
import SqlReplay.Proto.CheckedValues
import SqlReplay.Proto.DecoderSafety
import SqlReplay.Proto.ParamLiteral
import SqlReplay.Proto.Interpolation
import SqlReplay.Proto.Infile
import SqlReplay.Proto.DefaultDb
import SqlReplay.Data.PrefixCode
import SqlReplay.Checksum.Digest
import SqlReplay.Checksum.OrderFree
import SqlReplay.Checksum.Sensitive
import SqlReplay.Report.Compare
import SqlReplay.Report.Complete
import SqlReplay.Report.Monotone
import SqlReplay.Replay.Tenancy
import SqlReplay.Data.CheckedReader
import SqlReplay.Replay.Population
import SqlReplay.Data.Median
import SqlReplay.Data.Group
import SqlReplay.Report.Aggregate
import SqlReplay.Report.AggregateOrder
import SqlReplay.Report.PassReport
import SqlReplay.Report.RedactUrl
import SqlReplay.Report.AggregateChecksum
import SqlReplay.Data.FloatArithmetic
import SqlReplay.Data.FloatRange
import SqlReplay.Report.Clean
import SqlReplay.Report.Baseline
import SqlReplay.Data.Extremes
import SqlReplay.Sql.Characters
import SqlReplay.Proto.CharBoundary
import SqlReplay.Sql.LetterCase
import SqlReplay.Sql.Padding
import SqlReplay.Replay.RunPass
import SqlReplay.Replay.Passes
import SqlReplay.Replay.RunReplay
import SqlReplay.Replay.AgainstBaseline
import SqlReplay.Data.FloatError
import SqlReplay.Task.SharedState
import SqlReplay.Replay.Schedule
import SqlReplay.Replay.Pacing
import SqlReplay.Data.Reordered
import SqlReplay.Report.OrderFree
