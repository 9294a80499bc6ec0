import GridSweep.Accelerator
import GridSweep.Command.Options
import GridSweep.Command.Report
import GridSweep.Command.Run
import GridSweep.Command.Session
import GridSweep.Error
import GridSweep.Exchange.Progress
import GridSweep.Exchange.Protocol
import GridSweep.Exchange.Role
import GridSweep.File.Path
import GridSweep.File.Tree
import GridSweep.Json.Basic
import GridSweep.Json.Printer
import GridSweep.Json.Reader
import GridSweep.Kernel.Basic
import GridSweep.Kernel.Export
import GridSweep.Kernel.Generate
import GridSweep.Kernel.Printer
import GridSweep.Kernel.Summary
import GridSweep.Kernel.Trace
import GridSweep.Level
import GridSweep.LineBuffer.Basic
import GridSweep.LineBuffer.Element
import GridSweep.LineBuffer.Motion
import GridSweep.Main
import GridSweep.Node.Basic
import GridSweep.Node.Lower
import GridSweep.Node.Printer
import GridSweep.Node.References
import GridSweep.Node.Simplify
import GridSweep.Node.Visit
import GridSweep.Number.Binary64
import GridSweep.Number.Checked
import GridSweep.Number.Notation
import GridSweep.Number.Shortest
import GridSweep.Number.Word
import GridSweep.Ordered
import GridSweep.Pipeline.Plan
import GridSweep.Pipeline.Schedule
import GridSweep.Program.Basic
import GridSweep.Proofs.Exchange.Completion
import GridSweep.Proofs.Exchange.Confluence
import GridSweep.Proofs.Exchange.Delivery
import GridSweep.Proofs.Exchange.HaloRows
import GridSweep.Proofs.Exchange.Interleaving
import GridSweep.Proofs.Exchange.Progress
import GridSweep.Proofs.Kernel.Accesses
import GridSweep.Proofs.Kernel.Channels
import GridSweep.Proofs.Kernel.Feeding
import GridSweep.Proofs.Kernel.Generated
import GridSweep.Proofs.Kernel.Hygiene
import GridSweep.Proofs.Kernel.MemoryBounds
import GridSweep.Proofs.Kernel.Passes
import GridSweep.Proofs.Kernel.PointFunction
import GridSweep.Proofs.Kernel.PointValue
import GridSweep.Proofs.Kernel.StageNames
import GridSweep.Proofs.Kernel.StagePass
import GridSweep.Proofs.Kernel.StageRun
import GridSweep.Proofs.Kernel.Sweep
import GridSweep.Proofs.LineBuffer.Addressing
import GridSweep.Proofs.LineBuffer.Draining
import GridSweep.Proofs.LineBuffer.Filling
import GridSweep.Proofs.LineBuffer.Flow
import GridSweep.Proofs.LineBuffer.LaneReads
import GridSweep.Proofs.LineBuffer.Layout
import GridSweep.Proofs.LineBuffer.QueueSafety
import GridSweep.Proofs.LineBuffer.Stepping
import GridSweep.Proofs.LineBuffer.Streaming
import GridSweep.Proofs.LineBuffer.Taken
import GridSweep.Proofs.Machine.Basic
import GridSweep.Proofs.Machine.Supply
import GridSweep.Proofs.Names
import GridSweep.Proofs.Node.Arity
import GridSweep.Proofs.Node.Grouping
import GridSweep.Proofs.Node.Meaning
import GridSweep.Proofs.Node.Parts
import GridSweep.Proofs.Node.Printed
import GridSweep.Proofs.Node.Proper
import GridSweep.Proofs.Node.ReadBack
import GridSweep.Proofs.Node.Reduced
import GridSweep.Proofs.Node.Spelling
import GridSweep.Proofs.Node.Walks
import GridSweep.Proofs.Number.Rounding
import GridSweep.Proofs.Number.ShortestDigits
import GridSweep.Proofs.Number.Value
import GridSweep.Proofs.Ordered
import GridSweep.Proofs.Outcome
import GridSweep.Proofs.Partition.Band
import GridSweep.Proofs.Partition.GlobalPasses
import GridSweep.Proofs.Partition.Grid
import GridSweep.Proofs.Partition.Run
import GridSweep.Proofs.Pipeline
import GridSweep.Proofs.Pipeline.Coverage
import GridSweep.Proofs.Stencil.Accepted
import GridSweep.Proofs.Stencil.Footprints
import GridSweep.Proofs.Stencil.Reuse
import GridSweep.Proofs.Stencil.Statements
import GridSweep.Proofs.Stencil.WellFormed
import GridSweep.Proofs.Surface.DerivationTree
import GridSweep.Proofs.Surface.Grammar
import GridSweep.Proofs.Surface.LexicalErrors
import GridSweep.Proofs.Surface.Programs
import GridSweep.Proofs.Surface.Running
import GridSweep.Proofs.Text.Signs
import GridSweep.Proofs.Token.Layout
import GridSweep.Proofs.Token.Lexing
import GridSweep.Proofs.Token.LongestMatch
import GridSweep.Proofs.Token.Numerals
import GridSweep.Stencil.Analysis
import GridSweep.Stencil.Basic
import GridSweep.Stencil.Footprint
import GridSweep.Surface.OfJson
import GridSweep.Surface.Parser
import GridSweep.Text.Listing
import GridSweep.Text.UpperCase
import GridSweep.Token
import GridSweep.Token.Cursor
import GridSweep.Token.Lexer
import GridSweep.Proofs.Text.Applications
import GridSweep.Proofs.Kernel.Wording
import GridSweep.Proofs.Kernel.PrintedEvents
import GridSweep.Proofs.Kernel.PrintedCalls
import GridSweep.Proofs.Kernel.CallShapes
