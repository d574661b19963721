import IntC.Command
import IntC.CommandLine.Arguments
import IntC.CommandLine.Flag
import IntC.CommandLine.Help
import IntC.CommandLine.Run
import IntC.Compile
import IntC.Config
import IntC.Diagnostic
import IntC.Digest
import IntC.Error
import IntC.Files
import IntC.Files.Glob
import IntC.Files.Pattern
import IntC.Json
import IntC.Json.Reader
import IntC.Loop
import IntC.Machine
import IntC.Machine.Assembly
import IntC.Machine.Frame
import IntC.Machine.Legal
import IntC.Machine.Select
import IntC.Main
import IntC.Name
import IntC.Number.Literal
import IntC.Number.Nearest
import IntC.Number.Word
import IntC.Pass
import IntC.Path
import IntC.Proofs.Alike
import IntC.Proofs.CommandLine
import IntC.Proofs.Compile
import IntC.Proofs.CompileAssigned
import IntC.Proofs.CompileBlocks
import IntC.Proofs.CompileConstants
import IntC.Proofs.CompileDefined
import IntC.Proofs.CompileIl
import IntC.Proofs.CompileKinds
import IntC.Proofs.CompileLabels
import IntC.Proofs.CompileLinkage
import IntC.Proofs.CompileListing
import IntC.Proofs.CompileMachine
import IntC.Proofs.CompileNames
import IntC.Proofs.CompilePasses
import IntC.Proofs.CompileRun
import IntC.Proofs.CompileShift
import IntC.Proofs.CompileWarnings
import IntC.Proofs.CompileWeight
import IntC.Proofs.Diagnostic
import IntC.Proofs.Files
import IntC.Proofs.Il.Blocks
import IntC.Proofs.Il.Defined
import IntC.Proofs.Il.Lawful
import IntC.Proofs.Il.Reader
import IntC.Proofs.Il.Run
import IntC.Proofs.Il.Syntax
import IntC.Proofs.Il.Writing
import IntC.Proofs.Il.WritingRun
import IntC.Proofs.Json
import IntC.Proofs.Loop
import IntC.Proofs.LoopBinding
import IntC.Proofs.LoopNames
import IntC.Proofs.LoopShift
import IntC.Proofs.Machine.CallConvention
import IntC.Proofs.Machine.Encoding
import IntC.Proofs.Machine.Frame
import IntC.Proofs.Machine.Home
import IntC.Proofs.Machine.Labels
import IntC.Proofs.Machine.Layout
import IntC.Proofs.Machine.Legal
import IntC.Proofs.Machine.LegalRun
import IntC.Proofs.Machine.Lines
import IntC.Proofs.Machine.Lower
import IntC.Proofs.Machine.LowerShift
import IntC.Proofs.Machine.Run
import IntC.Proofs.Machine.Select
import IntC.Proofs.Machine.SelectRun
import IntC.Proofs.Machine.Stack
import IntC.Proofs.Name
import IntC.Proofs.NameDraw
import IntC.Proofs.NameShift
import IntC.Proofs.Pass
import IntC.Proofs.Path
import IntC.Proofs.Run
import IntC.Proofs.Scope
import IntC.Proofs.ScopeFrames
import IntC.Proofs.ScopeNames
import IntC.Proofs.ScopeShift
import IntC.Proofs.Suite.Dispatch
import IntC.Proofs.Suite.Golden
import IntC.Proofs.Suite.Pool
import IntC.Proofs.Suite.Replay
import IntC.Proofs.Symbol.Check
import IntC.Proofs.Symbol.CheckShift
import IntC.Proofs.Symbol.CheckWeight
import IntC.Proofs.Symbol.Kinds
import IntC.Proofs.Symbol.Linkage
import IntC.Proofs.Symbol.Merge
import IntC.Proofs.Symbol.Sharpen
import IntC.Proofs.Symbol.Steps
import IntC.Proofs.Tac.Assigned
import IntC.Proofs.Tac.Lowered
import IntC.Proofs.Tac.Lowering
import IntC.Proofs.Tac.LoweringAssigned
import IntC.Proofs.Tac.LoweringEval
import IntC.Proofs.Tac.LoweringKinds
import IntC.Proofs.Tac.LoweringNames
import IntC.Proofs.Tac.LoweringRun
import IntC.Proofs.Tac.LoweringShift
import IntC.Proofs.Tac.LoweringWeight
import IntC.Proofs.Tac.Run
import IntC.Proofs.Text.Fill
import IntC.Proofs.Token.Lexer
import IntC.Proofs.Token.Progress
import IntC.Proofs.Token.Spelling
import IntC.Proofs.Token.Tiling
import IntC.Proofs.Traverse
import IntC.Proofs.Tree.Constant
import IntC.Proofs.Tree.Eval
import IntC.Proofs.Tree.Grammar
import IntC.Proofs.Tree.Parser
import IntC.Proofs.Tree.ParserCalls
import IntC.Proofs.Tree.ParserTermination
import IntC.Proofs.Tree.ParserWeight
import IntC.Proofs.Tree.PassWeight
import IntC.Proofs.Tree.Printer
import IntC.Proofs.Tree.Rename
import IntC.Proofs.Tree.RoundTrip
import IntC.Proofs.Tree.Shape
import IntC.Proofs.Tree.Weight
import IntC.Proofs.WarningFlags
import IntC.Proofs.Word
import IntC.Qbe
import IntC.Scope
import IntC.Suite.Golden
import IntC.Suite.Options
import IntC.Suite.Report
import IntC.Suite.Result
import IntC.Suite.Run
import IntC.Suite.Summary
import IntC.Suite.Verdict
import IntC.Symbol
import IntC.Symbol.Check
import IntC.Tac
import IntC.Tac.Listing
import IntC.Tac.Lowering
import IntC.Text.Blank
import IntC.Text.Cut
import IntC.Text.Fill
import IntC.Text.Letter
import IntC.Text.Printable
import IntC.Text.Quoted
import IntC.Text.Ranges
import IntC.Text.Search
import IntC.Token
import IntC.Token.Lexer
import IntC.Tree
import IntC.Tree.Constant
import IntC.Tree.Parser
import IntC.Warning
