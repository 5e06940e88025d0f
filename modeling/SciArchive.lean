import SciArchive.Archive.Dataset
import SciArchive.Archive.Lightning
import SciArchive.Archive.Station
import SciArchive.Attribute
import SciArchive.Command.Arguments
import SciArchive.Command.Run
import SciArchive.DataType
import SciArchive.Dimension
import SciArchive.Enhancement
import SciArchive.Fault
import SciArchive.Files.Cursor
import SciArchive.Files.Disk
import SciArchive.Files.Path
import SciArchive.Files.Resource
import SciArchive.Index.Basic
import SciArchive.Index.Builder
import SciArchive.Index.Cache
import SciArchive.Index.Entry
import SciArchive.Index.Scan
import SciArchive.Index.Varint
import SciArchive.Main
import SciArchive.Namespace.Build
import SciArchive.Namespace.Draft
import SciArchive.Namespace.Outline
import SciArchive.Namespace.Tree
import SciArchive.Namespace.Variable
import SciArchive.Number.Decimal
import SciArchive.Number.Format
import SciArchive.Number.Shortest
import SciArchive.Number.Word
import SciArchive.Proofs.Disk
import SciArchive.Proofs.IndexBuilder
import SciArchive.Proofs.IndexCache
import SciArchive.Proofs.IndexCodec
import SciArchive.Proofs.IndexCuts
import SciArchive.Proofs.IndexReading
import SciArchive.Proofs.IndexReload
import SciArchive.Proofs.IndexScan
import SciArchive.Proofs.KeyTurns
import SciArchive.Proofs.KeyedAccess
import SciArchive.Proofs.KeyedReading
import SciArchive.Proofs.KeyedRuns
import SciArchive.Proofs.Lines
import SciArchive.Proofs.StationIndex
import SciArchive.Proofs.StationLines
import SciArchive.Proofs.StreamCalls
import SciArchive.Proofs.Streams
import SciArchive.Proofs.Utf8
import SciArchive.Proofs.Varint
import SciArchive.Record.Basic
import SciArchive.Record.Columns
import SciArchive.Record.Layout
import SciArchive.Record.Source
import SciArchive.Stream.Basic
import SciArchive.Stream.Blocks
import SciArchive.Text.Blank
import SciArchive.Text.Numeral
import SciArchive.Text.Utf8
import SciArchive.Value
import SciArchive.Proofs.Outcomes
import SciArchive.Proofs.RelatedLists
import SciArchive.Proofs.Building
import SciArchive.Proofs.Resolution
import SciArchive.Proofs.DraftOperations
import SciArchive.Proofs.DraftRuns
import SciArchive.Proofs.Comparison
import SciArchive.Proofs.Rebuilding
import SciArchive.Proofs.DistinctNames
import SciArchive.Proofs.Redeclaring
import SciArchive.Proofs.DimensionEdits
import SciArchive.Proofs.Feeds
import SciArchive.Proofs.BlockReading
import SciArchive.Proofs.BlockFiles
import SciArchive.Proofs.Replays
import SciArchive.Proofs.BlockBounds
import SciArchive.Proofs.LineOffsets
import SciArchive.Proofs.RecordSlices
import SciArchive.Proofs.FixedReading
import SciArchive.Proofs.ScopeIdentity
import SciArchive.Proofs.ScopeNumbers
import SciArchive.Proofs.Pieces
import SciArchive.Proofs.ShapeTexts
import SciArchive.Proofs.FullNames
import SciArchive.Proofs.ClosedDatasets
import SciArchive.Proofs.LineFields
import SciArchive.Proofs.TextLines
import SciArchive.Proofs.SameTrees
import SciArchive.Proofs.EntryGrammar
import SciArchive.Proofs.FieldGrammar
import SciArchive.Proofs.CommonAncestors
import SciArchive.Proofs.AddedVariables
import SciArchive.Proofs.ElementCounts
import SciArchive.Proofs.CompactLayouts
import SciArchive.Proofs.StationYears
import SciArchive.Proofs.FieldValues
import SciArchive.Proofs.AttributeRuns
import SciArchive.Proofs.UpwardSearches
import SciArchive.Proofs.WordValues
import SciArchive.Proofs.ShapeWords
import SciArchive.Proofs.OutlineRows
import SciArchive.Proofs.DrawnTrees
import SciArchive.Proofs.CopiedVariables
import SciArchive.Proofs.WordRuns
import SciArchive.Proofs.FirstLines
