import Progression.Cli.Arguments
import Progression.Cli.Check
import Progression.Cli.Form
import Progression.Cli.Help
import Progression.Cli.Invocation
import Progression.Cli.Plan
import Progression.Cli.Remote
import Progression.Cli.Report
import Progression.Cli.Run
import Progression.Cli.Settings
import Progression.Condition.Atom
import Progression.Condition.Basic
import Progression.Condition.Connective
import Progression.Condition.Parser
import Progression.Config
import Progression.Config.Text
import Progression.Document
import Progression.Error
import Progression.Files.Path
import Progression.Files.Tree
import Progression.Host
import Progression.Interaction.Basic
import Progression.Interaction.Machine
import Progression.Job
import Progression.Json.Basic
import Progression.Json.Reader
import Progression.Json.Record
import Progression.Json.Token
import Progression.Json.Writer
import Progression.Leveling
import Progression.Main
import Progression.Markup.Cursor
import Progression.Markup.Entity
import Progression.Markup.Node
import Progression.Markup.Reader
import Progression.Markup.Reference
import Progression.Number.Binary
import Progression.Number.Digits
import Progression.Number.Literal
import Progression.Number.Shortest
import Progression.Order
import Progression.Order.Batch
import Progression.Position
import Progression.Program.Basic
import Progression.Program.Interpreter
import Progression.Program.Step
import Progression.Proofs.Cancellation
import Progression.Proofs.Condition.Atom
import Progression.Proofs.Condition.Connective
import Progression.Proofs.Condition.Phrase
import Progression.Proofs.Condition.Reading
import Progression.Proofs.Condition.Writing
import Progression.Proofs.Giving
import Progression.Proofs.Heeding
import Progression.Proofs.Interaction.Course
import Progression.Proofs.Interaction.Outcome
import Progression.Proofs.Interaction.Protocol
import Progression.Proofs.Text
import Progression.Proofs.Markup.Reference
import Progression.Proofs.Markup.Tag
import Progression.Proofs.Program.Bounds
import Progression.Proofs.Program.Course
import Progression.Proofs.Program.Lines
import Progression.Proofs.Unlocking
import Progression.Proofs.Work
import Progression.Runner.Client
import Progression.Runner.Record
import Progression.Runner.Silent
import Progression.Runner.Watch
import Progression.Scenario
import Progression.Session
import Progression.Status
import Progression.Summary
import Progression.Switch
import Progression.Tables
import Progression.Tables.Text
import Progression.Text.Blank
import Progression.Text.Search
import Progression.Text.WordChar
import Progression.Timeline
import Progression.Unlocking
import Progression.Yaml.Basic
import Progression.Yaml.Decode
import Progression.Yaml.Reader
import Progression.Yaml.Scalar
import Progression.Yaml.Scanner
import Progression.Yaml.Token
import Progression.Yaml.Writer
import Progression.Proofs.Markup.Content
import Progression.Proofs.Markup.Writing
import Progression.Proofs.Markup.Doctype
import Progression.Proofs.Markup.EntityGraph
import Progression.Proofs.Markup.Expansion
import Progression.Proofs.Switching
import Progression.Proofs.Directing
import Progression.Proofs.Leveling.Round
import Progression.Proofs.Leveling.Ascent
import Progression.Proofs.Leveling.Termination
import Progression.Proofs.Leveling.Publishing
import Progression.Proofs.Stopping
import Progression.Proofs.Phases
import Progression.Proofs.Accounting
import Progression.Proofs.Program.Diagnosis
import Progression.Proofs.Files
import Progression.Proofs.Except
import Progression.Proofs.Following
import Progression.Proofs.Markup.Annotation
import Progression.Proofs.Markup.Aside
import Progression.Proofs.Markup.Canonical
import Progression.Proofs.Markup.Comment
import Progression.Proofs.Markup.Derivation
import Progression.Proofs.Markup.Extension
import Progression.Proofs.Markup.Lines
import Progression.Proofs.Markup.Tracing
import Progression.Proofs.Markup.Piece
import Progression.Proofs.Markup.Insertion
import Progression.Proofs.Markup.Parting
import Progression.Proofs.Program.Inertness
import Progression.Proofs.Choosing
import Progression.Proofs.Leveling.Outcome
import Progression.Proofs.Unfolding
import Progression.Proofs.Resuming
import Progression.Proofs.Condition.Grouping
import Progression.Proofs.Runner.Talking
import Progression.Proofs.Runner.Watching
import Progression.Proofs.Replay
import Progression.Proofs.Leveling.Unfolding
import Progression.Proofs.Leveling.Fitting
import Progression.Proofs.Interaction.Timing
import Progression.Proofs.Program.Tally
import Progression.Proofs.Markup.Lookup
import Progression.Proofs.Markup.Recursion
import Progression.Proofs.Consistency
import Progression.Proofs.Equipping
import Progression.Proofs.Leveling.Pursuit
import Progression.Proofs.Runner.Submitting
import Progression.Proofs.Ranking
import Progression.Proofs.Journal
import Progression.Proofs.Ordering
import Progression.Proofs.Printing
import Progression.Proofs.Leveling.Previewing
import Progression.Proofs.Program.Spelling
import Progression.Proofs.Storing
import Progression.Proofs.Yaml.Plain
import Progression.Proofs.Yaml.Quoted
import Progression.Proofs.Yaml.Blocks
import Progression.Proofs.Yaml.Scanning
import Progression.Proofs.Yaml.Rendering
import Progression.Proofs.Yaml.Reading
import Progression.Proofs.Pruning
import Progression.Proofs.Saving
import Progression.Proofs.Condition.Splitting
import Progression.Proofs.Markup.Blanking
import Progression.Proofs.Bytes.Safety
