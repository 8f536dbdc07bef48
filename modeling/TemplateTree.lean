import TemplateTree.Elements.Tokens
import TemplateTree.Main
import TemplateTree.Proofs.Attribute.Written
import TemplateTree.Proofs.Elements.Tidy
import TemplateTree.Proofs.Markup.OnePass
import TemplateTree.Proofs.Markup.RoundTrip
import TemplateTree.Proofs.Store.Alike
import TemplateTree.Proofs.Token.Written
import TemplateTree.Proofs.View.History
import TemplateTree.Proofs.View.Lockstep
import TemplateTree.Proofs.View.Query
import TemplateTree.Proofs.View.Session
import TemplateTree.Sample
import TemplateTree.Text.Difference
import TemplateTree.Text.Lines
import TemplateTree.View.Dump
import TemplateTree.Proofs.Markup.Chains
import TemplateTree.Proofs.Markup.Outcome
import TemplateTree.Proofs.Token.Local
import TemplateTree.Proofs.Token.Reread
import TemplateTree.Proofs.Token.Names
import TemplateTree.Proofs.Markup.Rewrite
import TemplateTree.Proofs.Elements.Erase
import TemplateTree.Proofs.Markup.Fixpoint
import TemplateTree.Proofs.Token.Startless
import TemplateTree.Proofs.Markup.Bones
import TemplateTree.Proofs.Markup.Rereading
import TemplateTree.Proofs.Store.Shape
import TemplateTree.Proofs.Store.Shaped
import TemplateTree.Proofs.View.Found
import TemplateTree.Proofs.View.Shape
import TemplateTree.Proofs.View.Workspace
import TemplateTree.Proofs.Store.Places
import TemplateTree.Proofs.View.Locality
import TemplateTree.Proofs.Markup.Unmarked
import TemplateTree.Proofs.Attribute.First
import TemplateTree.Proofs.Markup.BindingPoints
import TemplateTree.Proofs.Store.Twins
import TemplateTree.Proofs.View.Replay
import TemplateTree.Proofs.Markup.Undecoded
import TemplateTree.Proofs.Store.Once
import TemplateTree.Proofs.View.Ownership
import TemplateTree.Proofs.Store.Writes
import TemplateTree.Proofs.Markup.Merging
import TemplateTree.Proofs.View.Revision
import TemplateTree.Proofs.CommandLine.ScopeLines
import TemplateTree.Proofs.View.Independence
import TemplateTree.Proofs.Markup.Joined
import TemplateTree.Proofs.View.Multiplicity
import TemplateTree.Proofs.Text.ByteOrder
import TemplateTree.Proofs.Store.Copied
import TemplateTree.Proofs.View.Named
import TemplateTree.Proofs.View.Duplicate
import TemplateTree.Proofs.View.Attached
import TemplateTree.Proofs.Text.Title
import TemplateTree.Proofs.Text.Strip
import TemplateTree.Proofs.View.PlainText
import TemplateTree.Proofs.View.Title
import TemplateTree.Proofs.Text.Bytes
import TemplateTree.Proofs.Token.ByteScan
import TemplateTree.Proofs.Token.Spans
import TemplateTree.Proofs.Token.Cover
import TemplateTree.Proofs.Text.Lines
import TemplateTree.Proofs.View.Writing
import TemplateTree.Proofs.View.Outline
import TemplateTree.Proofs.Attribute.Changes
import TemplateTree.Proofs.Text.Difference
import TemplateTree.Proofs.Attribute.Grammar
import TemplateTree.Proofs.Attribute.ByteDecode
import TemplateTree.Proofs.Token.Opaque
import TemplateTree.Proofs.Token.Cut
