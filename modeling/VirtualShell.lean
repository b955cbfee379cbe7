import VirtualShell.Text.Blank
import VirtualShell.Text.Utf8
import VirtualShell.Node.Json
import VirtualShell.Storage.Tree
import VirtualShell.Storage.Table
import VirtualShell.Storage.Provider
import VirtualShell.Regex.Reader
import VirtualShell.Policy.Guard
import VirtualShell.Glob
import VirtualShell.FileSystem.Basic
import VirtualShell.CommandLine.Run
import VirtualShell.Main
import VirtualShell.Shell.Basic
import VirtualShell.Yaml.Basic
import VirtualShell.Yaml.Cursor
import VirtualShell.Yaml.Token
import VirtualShell.Agent.Definition
import VirtualShell.Proofs.Path.Segments
import VirtualShell.Proofs.Storage.Outcome
import VirtualShell.Proofs.Storage.View
import VirtualShell.Proofs.Storage.Contract
import VirtualShell.Proofs.Storage.Forest
import VirtualShell.Proofs.Storage.Tree
import VirtualShell.Proofs.Storage.Table
import VirtualShell.Proofs.Json.RoundTrip
import VirtualShell.Proofs.Node.RoundTrip
import VirtualShell.Proofs.Keyed
import VirtualShell.Proofs.Storage.Client
import VirtualShell.Proofs.Storage.Objects
import VirtualShell.Proofs.Storage.Descent
import VirtualShell.Proofs.Storage.Agreement
import VirtualShell.Proofs.FileSystem.Actions
import VirtualShell.Proofs.Policy.Guard
import VirtualShell.Proofs.Storage.Frame
import VirtualShell.Proofs.Storage.ObjectsFrame
import VirtualShell.Proofs.Storage.ProviderFrame
import VirtualShell.Proofs.FileSystem.Reached
import VirtualShell.Proofs.FileSystem.WorkingDirectory
import VirtualShell.Proofs.Policy.Enforcement
import VirtualShell.Proofs.Storage.Provider
import VirtualShell.Proofs.Storage.Total
import VirtualShell.Proofs.Policy.Quota
import VirtualShell.Proofs.Agent.Acts
import VirtualShell.Proofs.Agent.Table
import VirtualShell.Proofs.Agent.Interleaving
import VirtualShell.Proofs.Agent.Lifecycle
import VirtualShell.Proofs.Agent.Schedule
import VirtualShell.Proofs.Storage.ObjectsCalls
import VirtualShell.Proofs.Storage.ObjectsIntegrity
import VirtualShell.Proofs.Storage.ObjectsResidue
import VirtualShell.Proofs.Agent.Happenings
import VirtualShell.Proofs.Agent.Queue
import VirtualShell.Proofs.Agent.Kill
import VirtualShell.Proofs.Agent.Sweep
import VirtualShell.Proofs.Agent.Cleanup
import VirtualShell.Proofs.Text.Words
import VirtualShell.Proofs.Shell.Lines
import VirtualShell.Proofs.Agent.ToolCalls
import VirtualShell.Proofs.Shell.Commands
import VirtualShell.Proofs.Shell.Execution
import VirtualShell.Proofs.Shell.Sessions
import VirtualShell.Proofs.Json.Pretty
import VirtualShell.Proofs.FileSystem.Content
import VirtualShell.Proofs.Agent.Memory
import VirtualShell.Proofs.Agent.Remembering
import VirtualShell.Proofs.Agent.Updates
import VirtualShell.Proofs.FileSystem.Calls
import VirtualShell.Proofs.Storage.Contained
import VirtualShell.Proofs.FileSystem.Edits
import VirtualShell.Proofs.FileSystem.Removal
import VirtualShell.Proofs.FileSystem.Copying
import VirtualShell.Proofs.FileSystem.Moving
import VirtualShell.Proofs.Policy.Refusal
import VirtualShell.Proofs.Storage.Fallible
import VirtualShell.Proofs.Policy.Inheritance
import VirtualShell.Proofs.Storage.Walking
import VirtualShell.Proofs.FileSystem.Searching
import VirtualShell.Proofs.Policy.Verdict
import VirtualShell.Proofs.FileSystem.Writing
import VirtualShell.Proofs.Storage.Sizes
import VirtualShell.Proofs.Storage.ObjectsSizes
import VirtualShell.Proofs.Storage.Counters
import VirtualShell.Proofs.Storage.InUse
import VirtualShell.Proofs.Policy.Delegation
import VirtualShell.Proofs.Agent.Transitions
import VirtualShell.Proofs.Agent.Effects
import VirtualShell.Proofs.Agent.Roster
import VirtualShell.Proofs.Agent.Turns
import VirtualShell.Proofs.Agent.Deadlines
import VirtualShell.Proofs.Agent.Race
import VirtualShell.Proofs.Policy.Log
import VirtualShell.Proofs.Policy.Replacement
import VirtualShell.Proofs.Path.Resolution
import VirtualShell.Proofs.Agent.Expansion
import VirtualShell.Proofs.Agent.Completions
import VirtualShell.Proofs.Agent.Durability
import VirtualShell.Proofs.Agent.Leniency
import VirtualShell.Proofs.Storage.Sidecars
import VirtualShell.Proofs.Storage.ShownSizes
import VirtualShell.Proofs.Yaml.Numbers
import VirtualShell.Proofs.Yaml.Decoding
import VirtualShell.Proofs.Agent.Definitions
import VirtualShell.Proofs.Path.Containment
import VirtualShell.Proofs.Yaml.Resolution
import VirtualShell.Proofs.Yaml.Values
import VirtualShell.Proofs.Config
import VirtualShell.Proofs.FileSystem.Overwriting
import VirtualShell.Proofs.Shell.Redirection
import VirtualShell.Proofs.Storage.Recursion
import VirtualShell.Proofs.FileSystem.Termination
import VirtualShell.Proofs.Storage.Listing
import VirtualShell.Proofs.Storage.Directories
import VirtualShell.Proofs.FileSystem.Ancestors
import VirtualShell.Proofs.Agent.RunCounts
