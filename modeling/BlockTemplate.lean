import BlockTemplate.Template.Load
import BlockTemplate.Template.Output
import BlockTemplate.Proofs.Tree.Reshape
import BlockTemplate.Proofs.Call.Table
import BlockTemplate.Proofs.Fragment.Extract
import BlockTemplate.Proofs.Tree.Cut
import BlockTemplate.Proofs.Tree.Plant
import BlockTemplate.Proofs.Tree.Slots
import BlockTemplate.Proofs.Tree.Walk
import BlockTemplate.Proofs.Fragment.Compile
import BlockTemplate.Proofs.Snapshot.Restore
import BlockTemplate.Proofs.Tree.Edit
import BlockTemplate.Proofs.Render.Within
import BlockTemplate.Proofs.Template.Attach
import BlockTemplate.Proofs.Template.Load
import BlockTemplate.Proofs.Template.Session
import BlockTemplate.Proofs.Document.Basic
import BlockTemplate.Proofs.Document.Tags
import BlockTemplate.Proofs.Text.Class
import BlockTemplate.Proofs.Document.Comments
import BlockTemplate.Proofs.Document.Markup
import BlockTemplate.Proofs.Document.Blocks
import BlockTemplate.Proofs.Document.Placeholders
import BlockTemplate.Proofs.Document.Calls
import BlockTemplate.Proofs.Document.Layout
import BlockTemplate.Proofs.Document.Compile
import BlockTemplate.Proofs.Render.Reference
import BlockTemplate.Proofs.Render.Refinement
import BlockTemplate.Proofs.Template.Render
import BlockTemplate.Proofs.Template.Cache
import BlockTemplate.Proofs.Document.Splice
import BlockTemplate.Proofs.Call.Memo
import BlockTemplate.Proofs.Snapshot.Take
import BlockTemplate.Proofs.Snapshot.Copy
import BlockTemplate.Proofs.Render.Effect
import BlockTemplate.Proofs.Template.Effect
import BlockTemplate.Proofs.Section.Basic
import BlockTemplate.Proofs.Section.Document
import BlockTemplate.Proofs.Section.Read
import BlockTemplate.Proofs.Section.Edit
import BlockTemplate.Proofs.Template.Replace
import BlockTemplate.Proofs.Document.Edit
import BlockTemplate.Proofs.Document.Fill
import BlockTemplate.Proofs.Section.Clear
import BlockTemplate.Proofs.Tree.Alike
import BlockTemplate.Proofs.Template.Include
import BlockTemplate.Proofs.Render.Invocation
import BlockTemplate.Proofs.Template.Atomic
import BlockTemplate.Proofs.Template.FileEdit
import BlockTemplate.Proofs.Render.Ink
import BlockTemplate.Proofs.Render.Plan
import BlockTemplate.Proofs.Template.Inert
import BlockTemplate.Proofs.Template.ChildOutput
import BlockTemplate.Proofs.Files.Walk
import BlockTemplate.Proofs.Files.Change
import BlockTemplate.Proofs.Files.Write
import BlockTemplate.Proofs.Files.Kept
import BlockTemplate.Proofs.Template.Steps
import BlockTemplate.Proofs.Template.Unsaved
import BlockTemplate.Proofs.Template.Freshness
import BlockTemplate.Proofs.Template.Isolation
import BlockTemplate.Proofs.Template.Names
import BlockTemplate.Proofs.Template.Stripped
import BlockTemplate.Proofs.Document.Strand
import BlockTemplate.Proofs.Template.Rows
import BlockTemplate.Proofs.Document.Directive
import BlockTemplate.Proofs.Document.Library
import BlockTemplate.Proofs.Template.Depth
import BlockTemplate.Proofs.Tag.Grammar
import BlockTemplate.Proofs.Tag.Offset
import BlockTemplate.Proofs.Call.Grammar
import BlockTemplate.Proofs.Fragment.Cutting
import BlockTemplate.Proofs.Snapshot.RoundTrip
import BlockTemplate.Proofs.Template.Root
import BlockTemplate.Proofs.Tree.Spare
import BlockTemplate.Proofs.Template.Spared
import BlockTemplate.Proofs.Snapshot.Renamed
import BlockTemplate.Proofs.Render.Results
import BlockTemplate.Proofs.Render.Guarded
import BlockTemplate.Proofs.Render.OnePass
import BlockTemplate.Proofs.Template.Residue
import BlockTemplate.Proofs.Render.Local
import BlockTemplate.Proofs.Template.Commute
import BlockTemplate.Proofs.Value.Leaves
import BlockTemplate.Proofs.Fragment.Account
import BlockTemplate.Proofs.Call.Site
import BlockTemplate.Proofs.Escape.Url
import BlockTemplate.Proofs.Escape.Markup
import BlockTemplate.Proofs.Tree.Room
import BlockTemplate.Proofs.Tree.Course
import BlockTemplate.Tree.Arena
import BlockTemplate.Call.Interner
import BlockTemplate.Proofs.Call.Interner
import BlockTemplate.Proofs.Tree.Arena
import BlockTemplate.Proofs.Tree.Stored
import BlockTemplate.Proofs.Template.Interned
import BlockTemplate.Proofs.Template.Course
import BlockTemplate.Proofs.Template.Coherent
import BlockTemplate.Proofs.Template.Again
import BlockTemplate.Proofs.Tree.Listed
import BlockTemplate.Proofs.Template.Parts
import BlockTemplate.Proofs.Snapshot.Listed
import BlockTemplate.Proofs.Template.Authors
import BlockTemplate.Proofs.Snapshot.Trim
