import CodeAtlas.Block
import CodeAtlas.CallGraph
import CodeAtlas.CodeView
import CodeAtlas.Command.Arguments
import CodeAtlas.Command.Basic
import CodeAtlas.Command.Run
import CodeAtlas.Config
import CodeAtlas.Diagram.Basic
import CodeAtlas.Diagram.Calls
import CodeAtlas.Diagram.Classes
import CodeAtlas.Diagram.Files
import CodeAtlas.Diagram.Flowchart
import CodeAtlas.Diagram.Sequence
import CodeAtlas.Digest
import CodeAtlas.Discovery
import CodeAtlas.Extraction
import CodeAtlas.Extraction.Basic
import CodeAtlas.Extraction.Braces
import CodeAtlas.Extraction.CFamily
import CodeAtlas.Extraction.Python
import CodeAtlas.FileTree
import CodeAtlas.Ignore.Glob
import CodeAtlas.Ignore.GlobExpression
import CodeAtlas.Ignore.GlobText
import CodeAtlas.Ignore.Level
import CodeAtlas.Ignore.Repository
import CodeAtlas.Ignore.Rule
import CodeAtlas.Index
import CodeAtlas.Json
import CodeAtlas.Language
import CodeAtlas.Layout
import CodeAtlas.Limits
import CodeAtlas.Log
import CodeAtlas.Main
import CodeAtlas.Manifest
import CodeAtlas.Path
import CodeAtlas.Pattern.Basic
import CodeAtlas.Pattern.Search
import CodeAtlas.Query.CallPath
import CodeAtlas.Query.CallTree
import CodeAtlas.Query.ClassOutline
import CodeAtlas.Query.Code
import CodeAtlas.Query.Complexity
import CodeAtlas.Query.Concept
import CodeAtlas.Query.FileDependency
import CodeAtlas.Query.Locate
import CodeAtlas.Query.Status
import CodeAtlas.Report.Decode
import CodeAtlas.Report.Queries
import CodeAtlas.Report.Scans
import CodeAtlas.Report.Symbols
import CodeAtlas.Sequence
import CodeAtlas.Source
import CodeAtlas.Store
import CodeAtlas.Symbol
import CodeAtlas.SymbolTable
import CodeAtlas.Text.Basic
import CodeAtlas.Text.Blank
import CodeAtlas.Text.Case
import CodeAtlas.Text.Case.Tables
import CodeAtlas.Text.Word
import CodeAtlas.Text.WordTable
import CodeAtlas.Proofs.TextBytes
import CodeAtlas.Proofs.TextPieces
import CodeAtlas.Proofs.SmallForms
import CodeAtlas.Proofs.Sequences
import CodeAtlas.Proofs.CallEdges
import CodeAtlas.Proofs.PathListing
import CodeAtlas.Proofs.PathSearch
import CodeAtlas.Proofs.CallPaths
import CodeAtlas.Proofs.CallTreeNodes
import CodeAtlas.Proofs.CodeViewOffsets
import CodeAtlas.Proofs.CodeViewLines
import CodeAtlas.Proofs.TextCuts
import CodeAtlas.Proofs.PatternReads
import CodeAtlas.Proofs.PatternShapes
import CodeAtlas.Proofs.SourceLines
import CodeAtlas.Proofs.PatternEnds
import CodeAtlas.Proofs.BlockEnds
import CodeAtlas.Proofs.HeaderStarts
import CodeAtlas.Proofs.HeaderFindings
import CodeAtlas.Proofs.ExtractedSymbols
import CodeAtlas.Proofs.ExtractionSafety
import CodeAtlas.Proofs.SameCode
import CodeAtlas.Proofs.SameAnswers
import CodeAtlas.Proofs.IndentedBlocks
import CodeAtlas.Proofs.NestedRanges
import CodeAtlas.Proofs.SymbolRanges
import CodeAtlas.Proofs.MergedSources
import CodeAtlas.Proofs.TableGrowth
import CodeAtlas.Proofs.TreePaths
import CodeAtlas.Proofs.FileCalls
import CodeAtlas.Proofs.DiagramText
import CodeAtlas.Proofs.TreeDiagrams
import CodeAtlas.Proofs.PathBudget
import CodeAtlas.Proofs.ScanBalance
import CodeAtlas.Proofs.StoreHistory
import CodeAtlas.Proofs.SymbolNames
import CodeAtlas.Proofs.Fingerprints
import CodeAtlas.Proofs.TreeBudget
import CodeAtlas.Proofs.PathSteps
import CodeAtlas.Proofs.Identifiers
import CodeAtlas.Proofs.EdgeMentions
import CodeAtlas.Proofs.WholeWords
import CodeAtlas.Proofs.ClassMembers
import CodeAtlas.Proofs.ConceptGroups
import CodeAtlas.Proofs.NestedComplexity
import CodeAtlas.Proofs.BodyBraces
import CodeAtlas.Proofs.CodeViewTwice
import CodeAtlas.Proofs.CodeViewBreaks
import CodeAtlas.Proofs.KeptSymbols
import CodeAtlas.Proofs.PatternForms
import CodeAtlas.Proofs.CountedBlocks
import CodeAtlas.Proofs.PatternFinds
import CodeAtlas.Proofs.PatternApart
import CodeAtlas.Proofs.HeaderForms
import CodeAtlas.Proofs.HeaderPatterns
import CodeAtlas.Proofs.TypeHeaders
import CodeAtlas.Proofs.BracketPairs
import CodeAtlas.Proofs.LineRanges
import CodeAtlas.Proofs.ExtensionFilter
import CodeAtlas.Proofs.IncludeLinks
import CodeAtlas.Proofs.MaximalBlocks
import CodeAtlas.Proofs.PathQueue
import CodeAtlas.Proofs.ComplexityPatterns
