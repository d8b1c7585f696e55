import Linkage.Analysis
import Linkage.Archive.Crc32
import Linkage.Archive.Deflate
import Linkage.Archive.Zip
import Linkage.Bytes
import Linkage.Bytes.Cursor
import Linkage.Command
import Linkage.Command.Distance
import Linkage.Command.Flag
import Linkage.Command.Invocation
import Linkage.Config
import Linkage.Config.Decode
import Linkage.Config.Load
import Linkage.Decimal.Nearest
import Linkage.Decimal.Shortest
import Linkage.Digraph
import Linkage.Distinct
import Linkage.ExportGraph
import Linkage.Extract
import Linkage.Files.Glob
import Linkage.Files.Path
import Linkage.Files.Tree
import Linkage.Fingerprint
import Linkage.Jvm.Assembler
import Linkage.Jvm.ClassFile
import Linkage.Jvm.Constant
import Linkage.Jvm.Event
import Linkage.Jvm.EventText
import Linkage.Jvm.Instruction
import Linkage.Jvm.Layout
import Linkage.Jvm.Literal
import Linkage.Jvm.Opcode
import Linkage.Jvm.Parse
import Linkage.Jvm.Pool
import Linkage.Jvm.Resolve
import Linkage.Jvm.Trace
import Linkage.Location
import Linkage.Main
import Linkage.Member
import Linkage.Model
import Linkage.Model.Graph
import Linkage.Neo4j
import Linkage.Neo4j.Address
import Linkage.Neo4j.IpAddress
import Linkage.Notice
import Linkage.Project
import Linkage.Project.Name
import Linkage.Proofs.Abort
import Linkage.Proofs.Assembly
import Linkage.Proofs.Atomicity
import Linkage.Proofs.BasicPlane
import Linkage.Proofs.ByHand
import Linkage.Proofs.ByteOrder
import Linkage.Proofs.Chain
import Linkage.Proofs.ChainErrors
import Linkage.Proofs.Circularity
import Linkage.Proofs.ClassReading
import Linkage.Proofs.CleanPaths
import Linkage.Proofs.CodeFaults
import Linkage.Proofs.Coding
import Linkage.Proofs.Conflation
import Linkage.Proofs.Conservation
import Linkage.Proofs.Counting
import Linkage.Proofs.CutBodies
import Linkage.Proofs.Cycles
import Linkage.Proofs.Dependencies
import Linkage.Proofs.Detection
import Linkage.Proofs.Distinct
import Linkage.Proofs.Encoding
import Linkage.Proofs.Export
import Linkage.Proofs.Extent
import Linkage.Proofs.Extraction
import Linkage.Proofs.FileLayout
import Linkage.Proofs.Following
import Linkage.Proofs.Globbing
import Linkage.Proofs.GraphViews
import Linkage.Proofs.Hearing
import Linkage.Proofs.InstructionGrammar
import Linkage.Proofs.Interning
import Linkage.Proofs.Keys
import Linkage.Proofs.Labels
import Linkage.Proofs.Language
import Linkage.Proofs.LayoutReading
import Linkage.Proofs.Leniency
import Linkage.Proofs.Loading
import Linkage.Proofs.Log
import Linkage.Proofs.Meaning
import Linkage.Proofs.Merging
import Linkage.Proofs.ModifiedUtf8
import Linkage.Proofs.Outcomes
import Linkage.Proofs.Overrun
import Linkage.Proofs.ParseFaults
import Linkage.Proofs.PassThrough
import Linkage.Proofs.Pieces
import Linkage.Proofs.Pool
import Linkage.Proofs.PoolLayout
import Linkage.Proofs.PoolReading
import Linkage.Proofs.Projection
import Linkage.Proofs.Provenance
import Linkage.Proofs.Reachability
import Linkage.Proofs.Reading
import Linkage.Proofs.Recording
import Linkage.Proofs.Remembering
import Linkage.Proofs.Repetition
import Linkage.Proofs.Requests
import Linkage.Proofs.Resolution
import Linkage.Proofs.RoundTrip
import Linkage.Proofs.Run
import Linkage.Proofs.Scheduling
import Linkage.Proofs.Script
import Linkage.Proofs.Sharing
import Linkage.Proofs.Stability
import Linkage.Proofs.Stars
import Linkage.Proofs.Telling
import Linkage.Proofs.Tiling
import Linkage.Proofs.Trees
import Linkage.Proofs.Truncation
import Linkage.Proofs.TwoPasses
