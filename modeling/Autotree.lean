import Autotree.BuildTree
import Autotree.CommandLine.Help
import Autotree.CommandLine.Invocation
import Autotree.CommandLine.Run
import Autotree.Config.Declaration
import Autotree.Config.Entry
import Autotree.Config.Error
import Autotree.Config.Resolve
import Autotree.Config.Schema
import Autotree.Define
import Autotree.Descriptor.Configure
import Autotree.Descriptor.Layout
import Autotree.Descriptor.Makefile
import Autotree.Diagnostic
import Autotree.Disk
import Autotree.Duration
import Autotree.Failure
import Autotree.Host.Basic
import Autotree.Host.Error
import Autotree.Host.Project
import Autotree.Host.Validate
import Autotree.Machine
import Autotree.Main
import Autotree.Manifest.Basic
import Autotree.Manifest.Decode
import Autotree.Manifest.Find
import Autotree.Number.Binary64
import Autotree.Number.Integer
import Autotree.Number.Rounding
import Autotree.Number.Shortest
import Autotree.Path
import Autotree.Pipeline.Basic
import Autotree.Pipeline.Error
import Autotree.Pipeline.Step
import Autotree.Process.Command
import Autotree.Process.Finished
import Autotree.Process.Script.Basic
import Autotree.Process.Script.Builtin
import Autotree.Process.Script.Escape
import Autotree.Process.Script.Reader
import Autotree.Process.Script.Run
import Autotree.Process.Script.Shell
import Autotree.Progress
import Autotree.Sources
import Autotree.Store.Action
import Autotree.Store.Basic
import Autotree.Store.Copy
import Autotree.Store.Errno
import Autotree.Store.Files
import Autotree.Store.Node
import Autotree.Store.Reach
import Autotree.System.Action
import Autotree.System.Basic
import Autotree.System.Local
import Autotree.System.Native
import Autotree.Text.Blank
import Autotree.Text.LetterCase
import Autotree.Text.LetterCase.Table
import Autotree.Text.Lines
import Autotree.Text.Quoted
import Autotree.Text.Utf8
import Autotree.Toml.DateTime
import Autotree.Toml.Draft
import Autotree.Toml.Printer
import Autotree.Toml.Reader
import Autotree.Toml.Reader.DateTime
import Autotree.Toml.Reader.Number
import Autotree.Toml.Reader.Quoted
import Autotree.Toml.Reader.Trivia
import Autotree.Toml.Settled
import Autotree.Toml.Value
import Autotree.Proofs.Action
import Autotree.Proofs.BuildTree.Clean
import Autotree.Proofs.BuildTree.Configuration
import Autotree.Proofs.BuildTree.Descriptors
import Autotree.Proofs.BuildTree.History
import Autotree.Proofs.BuildTree.Inputs
import Autotree.Proofs.BuildTree.Mirror
import Autotree.Proofs.BuildTree.Oblivious
import Autotree.Proofs.BuildTree.RoundTrip
import Autotree.Proofs.BuildTree.Write
import Autotree.Proofs.Config.Declarations
import Autotree.Proofs.Config.Edits
import Autotree.Proofs.Config.Fallback
import Autotree.Proofs.Config.Grammar
import Autotree.Proofs.Config.NormalForm
import Autotree.Proofs.Config.Reading
import Autotree.Proofs.Config.Resolution
import Autotree.Proofs.Define.Flags
import Autotree.Proofs.Define.Integer
import Autotree.Proofs.Define.Literal
import Autotree.Proofs.Define.Synthesis
import Autotree.Proofs.Descriptor.Makefile
import Autotree.Proofs.Descriptor.Reading
import Autotree.Proofs.Descriptor.SourceList
import Autotree.Proofs.Descriptor.Variables
import Autotree.Proofs.Duration
import Autotree.Proofs.Host.Validation
import Autotree.Proofs.Host.Verdict
import Autotree.Proofs.Machine
import Autotree.Proofs.Manifest.Search
import Autotree.Proofs.Number.Binary64
import Autotree.Proofs.Number.Rounding
import Autotree.Proofs.Path.Ancestors
import Autotree.Proofs.Path.Names
import Autotree.Proofs.Path.Steps
import Autotree.Proofs.Pipeline.Account
import Autotree.Proofs.Pipeline.Failures
import Autotree.Proofs.Pipeline.Parts
import Autotree.Proofs.Pipeline.Reports
import Autotree.Proofs.Pipeline.Schedule
import Autotree.Proofs.Pipeline.Sequence
import Autotree.Proofs.Pipeline.Steps
import Autotree.Proofs.Process.Words
import Autotree.Proofs.Sources
import Autotree.Proofs.Sources.Discovery
import Autotree.Proofs.Sources.Mirrored
import Autotree.Proofs.Sources.Partition
import Autotree.Proofs.Store.Confined
import Autotree.Proofs.Store.Copy
import Autotree.Proofs.Store.Enter
import Autotree.Proofs.Store.Fills
import Autotree.Proofs.Store.Item
import Autotree.Proofs.Store.Joined
import Autotree.Proofs.Store.Leads
import Autotree.Proofs.Store.LinkFree
import Autotree.Proofs.Store.Merge
import Autotree.Proofs.Store.Overlay
import Autotree.Proofs.Store.Reach
import Autotree.Proofs.Store.Remove
import Autotree.Proofs.Store.Replace
import Autotree.Proofs.Store.Replacement
import Autotree.Proofs.Store.Tree
import Autotree.Proofs.Store.Visits
import Autotree.Proofs.Store.Ways
import Autotree.Proofs.System.Started
import Autotree.Proofs.Text.Blank
import Autotree.Proofs.Text.LetterCase
import Autotree.Proofs.Text.Lines
