import Mender.Answer.Parse
import Mender.Answer.Payload
import Mender.Answer.Replacement
import Mender.Bench.Answer
import Mender.Bench.Dependency
import Mender.Bench.Diagnostic
import Mender.Bench.FixIt
import Mender.Bench.Order
import Mender.Bench.Review
import Mender.Bench.Sample
import Mender.Bench.Statistics
import Mender.Datum.Access
import Mender.Datum.Basic
import Mender.Datum.Json
import Mender.Datum.Literal
import Mender.Diagnostic.Context
import Mender.Diagnostic.FixIt
import Mender.Diagnostic.Kind
import Mender.Diagnostic.Location
import Mender.Diagnostic.Suggestion
import Mender.Diagnostic.Target
import Mender.Fault
import Mender.Language
import Mender.Main
import Mender.Measure.Coverage
import Mender.Measure.Log
import Mender.Measure.RepoTime
import Mender.Measure.Round
import Mender.Measure.SelfCheck
import Mender.Model.Client
import Mender.Model.Prompt
import Mender.Model.Request
import Mender.Noted
import Mender.Number.Binary
import Mender.Number.Format
import Mender.Number.Read
import Mender.Number.Shortest
import Mender.Pattern.Basic
import Mender.Pattern.Match
import Mender.Pattern.Reader
import Mender.Pattern.Search
import Mender.Pattern.Template
import Mender.Project.Dependency
import Mender.Project.Disk
import Mender.Project.Glob
import Mender.Project.Layers
import Mender.Project.Modules
import Mender.Project.Order
import Mender.Project.Path
import Mender.Proofs.Order
import Mender.Proofs.Pattern
import Mender.Proofs.Text
import Mender.Repair.Bracket
import Mender.Repair.Directive
import Mender.Repair.Expression
import Mender.Repair.Generic
import Mender.Repair.Header
import Mender.Repair.Import
import Mender.Repair.Indentation
import Mender.Repair.Java
import Mender.Repair.Literal
import Mender.Repair.Qualifier
import Mender.Repair.Script
import Mender.Repair.Semicolon
import Mender.Report.Publish
import Mender.Report.Statistics
import Mender.Review.Accept
import Mender.Review.Imports
import Mender.Review.Objection
import Mender.Rule.Basic
import Mender.Rule.C
import Mender.Rule.Cpp
import Mender.Rule.Java
import Mender.Rule.LocalFix
import Mender.Rule.Script
import Mender.Sandbox.Check
import Mender.Sandbox.Container
import Mender.Source.Edit
import Mender.Text.Basic
import Mender.Text.Blank
import Mender.Text.Capital
import Mender.Text.Letter
import Mender.Text.Numeral
import Mender.Text.Order
import Mender.Text.Printable
import Mender.Text.Quoted
import Mender.Text.Range
import Mender.Text.Rows
import Mender.Text.Utf8
import Mender.Text.Word
import Mender.Workflow.CommandLine
import Mender.Workflow.Counted
import Mender.Workflow.Files
import Mender.Workflow.Layered
import Mender.Workflow.Project
import Mender.Workflow.Single
import Mender.Workflow.Step
import Mender.World.Basic
import Mender.Proofs.Replacement
import Mender.Proofs.Json
import Mender.Proofs.JsonWeight
import Mender.Proofs.Tidy
import Mender.Proofs.Payload
import Mender.Proofs.Literal
import Mender.Proofs.Extraction
import Mender.Proofs.Run
import Mender.Proofs.Sandbox
import Mender.Proofs.Revision
import Mender.Proofs.Survival
import Mender.Proofs.Context
import Mender.Proofs.Layers
import Mender.Proofs.Protection
import Mender.Proofs.FixIt
import Mender.Proofs.PatternRun
import Mender.Proofs.ImportScan
import Mender.Proofs.Restoration
import Mender.Proofs.Verdict
import Mender.Proofs.Disk
import Mender.Proofs.Selection
import Mender.Proofs.Handling
import Mender.Proofs.Capture
import Mender.Proofs.LocalFix
import Mender.Proofs.Undone
import Mender.Proofs.Transcript
import Mender.Proofs.Tested
import Mender.Proofs.Copies
import Mender.Proofs.Mirror.Files
import Mender.Proofs.Mirror.Project
import Mender.Proofs.Mirror.Batch
import Mender.Proofs.Removal
import Mender.Proofs.Budget
import Mender.Proofs.Place
import Mender.Proofs.ColonReport
import Mender.Proofs.Location
import Mender.Proofs.Footprint
import Mender.Proofs.Sources
import Mender.Proofs.Layering
import Mender.Proofs.Figures
import Mender.Proofs.RepairRate
import Mender.Proofs.Rounds
import Mender.Proofs.Trim
import Mender.Proofs.LineRepair
import Mender.Proofs.Completion
import Mender.Proofs.FaultyLine
import Mender.Proofs.Comment
import Mender.Proofs.Quotation
import Mender.Proofs.Agreement
import Mender.Proofs.Parenthesis
import Mender.Proofs.Escape
import Mender.Proofs.FixItText
import Mender.Proofs.Unclosed
import Mender.Proofs.Shape
import Mender.Proofs.Unmatched
import Mender.Proofs.PatternLines
import Mender.Proofs.Suggestion
import Mender.Proofs.Closing
import Mender.Proofs.Renaming
import Mender.Proofs.Noticed
import Mender.Proofs.RelativeImport
import Mender.Proofs.Indentation
import Mender.Proofs.Insertion
import Mender.Proofs.Qualification
import Mender.Proofs.ModuleIndex
import Mender.Proofs.ExpectedReport
import Mender.Proofs.LeadingImport
import Mender.Proofs.UnusedImport
import Mender.Proofs.StringEnd
import Mender.Proofs.FirstFile
import Mender.Proofs.ProjectReport
import Mender.Proofs.StackFrame
import Mender.Proofs.Measure.Checks
import Mender.Proofs.Measure.Plateau
