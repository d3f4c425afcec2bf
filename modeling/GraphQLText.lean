import GraphQLText.Json.OfText
import GraphQLText.Json.ToValue
import GraphQLText.Printing.Node
import GraphQLText.Proofs.Json.RoundTrip
import GraphQLText.Proofs.Lexical.LiteralBody
import GraphQLText.Proofs.Printing.Compactness
import GraphQLText.Proofs.Printing.EqualNodes
import GraphQLText.Proofs.Printing.Floats
import GraphQLText.Proofs.Printing.NameGates
import GraphQLText.Proofs.Printing.PairLists
import GraphQLText.Proofs.Printing.Repair
import GraphQLText.Proofs.Reading.Derivation
import GraphQLText.Proofs.Tree.Segments
import GraphQLText.Tree.Edit
import GraphQLText.Tree.ToValue
