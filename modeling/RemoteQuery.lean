import RemoteQuery.Json.Reader
import RemoteQuery.Mapping.Standard
import RemoteQuery.Term.Assembly
import RemoteQuery.Wire.Query
import RemoteQuery.Request
import RemoteQuery.CommandLine
import RemoteQuery.Main
import RemoteQuery.Proofs.Json.Terms
import RemoteQuery.Proofs.Literal.Decodable
import RemoteQuery.Proofs.Literal.Numbers
import RemoteQuery.Proofs.QueryOptions
import RemoteQuery.Proofs.Split.Constructions
import RemoteQuery.Proofs.Split.Cuts
import RemoteQuery.Proofs.Split.Hygiene
import RemoteQuery.Proofs.Split.Identity
import RemoteQuery.Proofs.Split.ItemTypes
import RemoteQuery.Proofs.Split.Outcome
import RemoteQuery.Proofs.Split.Refusal
import RemoteQuery.Proofs.Split.Renaming
import RemoteQuery.Proofs.Split.Resplit
import RemoteQuery.Proofs.Split.SharedSlots
import RemoteQuery.Proofs.Split.Strictness
import RemoteQuery.Proofs.Term.Children
import RemoteQuery.Proofs.Term.FreeNames
import RemoteQuery.Proofs.Term.UsedNames
import RemoteQuery.Proofs.Text.Calls
import RemoteQuery.Proofs.Text.Closing
import RemoteQuery.Proofs.Text.Pieces
import RemoteQuery.Proofs.Ty.Symbols
import RemoteQuery.Proofs.Wire.EnumComparison
import RemoteQuery.Proofs.Wire.FieldList
import RemoteQuery.Proofs.Wire.LambdaNames
import RemoteQuery.Proofs.Wire.OperandOrder
import RemoteQuery.Proofs.Wire.OuterPair
import RemoteQuery.Proofs.Wire.Peeling
import RemoteQuery.Proofs.Wire.Sequence
import RemoteQuery.Proofs.Wire.Unambiguous
