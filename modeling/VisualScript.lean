import VisualScript.Assoc
import VisualScript.Build.Disk
import VisualScript.Build.Layout
import VisualScript.Build.Options
import VisualScript.Build.Plan
import VisualScript.Build.Run
import VisualScript.Build.Storage
import VisualScript.Catalog.Basic
import VisualScript.Catalog.Builtin
import VisualScript.Graph.Fault
import VisualScript.Graph.Index
import VisualScript.Graph.Kinds
import VisualScript.Graph.Matching
import VisualScript.Graph.Node
import VisualScript.Graph.Placement
import VisualScript.Json.Display
import VisualScript.Json.Reader
import VisualScript.Json.Value
import VisualScript.Json.Writer
import VisualScript.Manifest.Descriptor
import VisualScript.Manifest.Registration
import VisualScript.Number.Binary64
import VisualScript.Number.Digits
import VisualScript.Number.Layout
import VisualScript.Number.Reader
import VisualScript.Number.Shortest
import VisualScript.Project.Document
import VisualScript.Project.Embedding
import VisualScript.Project.Header
import VisualScript.Project.Localization
import VisualScript.Project.Reader
import VisualScript.Project.Writer
import VisualScript.Record.Check
import VisualScript.Record.Checked
import VisualScript.Script.Code
import VisualScript.Script.Context
import VisualScript.Script.Entry
import VisualScript.Script.Evaluation
import VisualScript.Script.Expression
import VisualScript.Script.Failure
import VisualScript.Script.Flow
import VisualScript.Script.Indent
import VisualScript.Script.Literal
import VisualScript.Script.Module
import VisualScript.Script.Name
import VisualScript.Script.Recipe
import VisualScript.Script.Recipes
import VisualScript.Script.Scope
import VisualScript.Script.Walk
import VisualScript.Settings
import VisualScript.Text.Base64
import VisualScript.Text.Blank
import VisualScript.Text.Escape
import VisualScript.Text.Hex
import VisualScript.Text.Identifier
import VisualScript.Text.Letter
import VisualScript.Text.Lines
import VisualScript.Text.Lowercase
import VisualScript.Text.Occurrence
import VisualScript.Text.Printable
import VisualScript.Text.Ranges
import VisualScript.Proofs.Index
import VisualScript.Proofs.Layout
import VisualScript.Proofs.Reading
import VisualScript.Proofs.Unrolling
import VisualScript.Proofs.Walking
import VisualScript.Proofs.Paths
import VisualScript.Proofs.Ports
import VisualScript.Proofs.Recipes
import VisualScript.Proofs.Code
import VisualScript.Proofs.Scopes
import VisualScript.Proofs.Homes
import VisualScript.Proofs.Availability
import VisualScript.Proofs.Recording
import VisualScript.Proofs.Placing
import VisualScript.Proofs.Growth
import VisualScript.Proofs.Writing
import VisualScript.Proofs.Ledger
import VisualScript.Proofs.Declarations
import VisualScript.Proofs.Free
import VisualScript.Proofs.Visibility
import VisualScript.Proofs.Scoping
import VisualScript.Proofs.Capture
import VisualScript.Proofs.Legible
import VisualScript.Proofs.Hoisting
import VisualScript.Proofs.Passes
import VisualScript.Proofs.Acyclic
import VisualScript.Proofs.WellFormed
import VisualScript.Proofs.Following
import VisualScript.Proofs.Recursion
import VisualScript.Proofs.Forest
import VisualScript.Proofs.Base64
import VisualScript.Proofs.Checks
import VisualScript.Proofs.Documents
import VisualScript.Proofs.Embedding
import VisualScript.Proofs.RoundTrip
import VisualScript.Proofs.Trace
import VisualScript.Proofs.Failing
import VisualScript.Proofs.Faults
import VisualScript.Proofs.Cycles
import VisualScript.Proofs.Agreement
import VisualScript.Proofs.Separation
import VisualScript.Proofs.Reordering
import VisualScript.Proofs.Rebuilding
import VisualScript.Proofs.Manifests
import VisualScript.Proofs.Payloads
import VisualScript.Proofs.Omissions
import VisualScript.Proofs.Naming
import VisualScript.Proofs.Contexts
import VisualScript.Proofs.Places
import VisualScript.Proofs.Entries
import VisualScript.Proofs.Containment
import VisualScript.Proofs.Collisions
import VisualScript.Proofs.Comments
import VisualScript.Proofs.Search
import VisualScript.Proofs.Lookups
import VisualScript.Proofs.Calls
import VisualScript.Proofs.Termination
import VisualScript.Proofs.KeyValues
import VisualScript.Proofs.Descriptors
import VisualScript.Proofs.Pairing
import VisualScript.Proofs.Variables
import VisualScript.Proofs.ReadLog
import VisualScript.Proofs.Parents
import VisualScript.Proofs.Registrations
import VisualScript.Proofs.Inventory
import VisualScript.Proofs.Escapes
import VisualScript.Proofs.Literals
import VisualScript.Proofs.TokenTables
import VisualScript.Proofs.ArrayLiterals
import VisualScript.Proofs.Blanks
import VisualScript.Proofs.Reflow
import VisualScript.Proofs.Drafts
import VisualScript.Proofs.EditLog
import VisualScript.Proofs.Pages
import VisualScript.Proofs.Drafting
import VisualScript.Proofs.Anchoring
import VisualScript.Proofs.Splicing
import VisualScript.Proofs.Identifiers
