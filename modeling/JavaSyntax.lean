import JavaSyntax.Construction.Program
import JavaSyntax.Main
import JavaSyntax.Proofs.Draft.Rewriting
import JavaSyntax.Proofs.Expression.RoundTrip
import JavaSyntax.Proofs.Grammar.TypeLookahead
import JavaSyntax.Proofs.Kind.Packed
import JavaSyntax.Proofs.Parse.Blocks
import JavaSyntax.Proofs.Parse.Branches
import JavaSyntax.Proofs.Parse.Diagnostics
import JavaSyntax.Proofs.Parse.Disambiguation
import JavaSyntax.Proofs.Parse.DottedNames
import JavaSyntax.Proofs.Parse.Fields
import JavaSyntax.Proofs.Parse.Grouping
import JavaSyntax.Proofs.Parse.Lists
import JavaSyntax.Proofs.Parse.Literals
import JavaSyntax.Proofs.Parse.Sample
import JavaSyntax.Proofs.Parse.StatementValue
import JavaSyntax.Proofs.Parse.VariableOwners
import JavaSyntax.Proofs.Parse.WrittenTypes
import JavaSyntax.Proofs.Token.Reprint
import JavaSyntax.Proofs.Tree.Demand
import JavaSyntax.Proofs.Tree.Dump
import JavaSyntax.Proofs.Tree.Navigation
import JavaSyntax.Proofs.Tree.Slots
import JavaSyntax.Proofs.Workspace.Requests
