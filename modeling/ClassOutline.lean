import ClassOutline.Chores
import ClassOutline.CommandLine.Request
import ClassOutline.CommandLine.Run
import ClassOutline.CommandLine.Words
import ClassOutline.Failure
import ClassOutline.FileInjection
import ClassOutline.FileSystem.Basic
import ClassOutline.FileSystem.Build
import ClassOutline.FileSystem.Listing
import ClassOutline.FileSystem.Lookup
import ClassOutline.FileSystem.Resolve
import ClassOutline.FileSystem.Write
import ClassOutline.Host
import ClassOutline.Inject
import ClassOutline.Json
import ClassOutline.Locate
import ClassOutline.Main
import ClassOutline.Outline.Basic
import ClassOutline.Outline.Walk
import ClassOutline.Path
import ClassOutline.Record
import ClassOutline.Scan
import ClassOutline.Source
import ClassOutline.SourceFile
import ClassOutline.Syntax.Declaration
import ClassOutline.Syntax.Display
import ClassOutline.Syntax.Listing
import ClassOutline.Syntax.Node
import ClassOutline.Text.Blank
import ClassOutline.Text.Digit
import ClassOutline.Text.Position
import ClassOutline.Text.Printable
import ClassOutline.Text.Quoted
import ClassOutline.Text.Split
import ClassOutline.Text.Utf8
import ClassOutline.Proofs.Outline.Ownership
import ClassOutline.Proofs.Outline.Extraction
import ClassOutline.Proofs.Injection.Splice
import ClassOutline.Proofs.Outline.Growth
import ClassOutline.Proofs.Outline.Insertion
import ClassOutline.Proofs.Injection.OutlineAfter
import ClassOutline.Proofs.FileSystem.Following
import ClassOutline.Proofs.FileSystem.Replacing
import ClassOutline.Proofs.Injection.Delivery
import ClassOutline.Proofs.Locate.Agreement
import ClassOutline.Proofs.Locate.InsertionPoint
import ClassOutline.Proofs.Outline.Isolation
import ClassOutline.Proofs.Injection.LocatedAfter
import ClassOutline.Proofs.Injection.Sequence
import ClassOutline.Proofs.FileSystem.Writing
import ClassOutline.Proofs.FileSystem.RoundTrip
import ClassOutline.Proofs.FileSystem.Listing
import ClassOutline.Proofs.Scan.Records
import ClassOutline.Proofs.CommandLine.Outcome
import ClassOutline.Proofs.Text.Positions
import ClassOutline.Proofs.Syntax.Faults
import ClassOutline.Proofs.Locate.Choice
import ClassOutline.Proofs.FileSystem.Coverage
import ClassOutline.Proofs.Scan.Output
import ClassOutline.Proofs.Json.Reader
import ClassOutline.Proofs.Json.RoundTrip
import ClassOutline.Proofs.Outline.Members
import ClassOutline.Proofs.Outline.Tour
import ClassOutline.Proofs.Outline.Scopes
import ClassOutline.Proofs.Scan.Workers
import ClassOutline.Proofs.Text.Slices
import ClassOutline.Proofs.Text.Quoted
import ClassOutline.Proofs.Syntax.Display
import ClassOutline.Proofs.Chores
