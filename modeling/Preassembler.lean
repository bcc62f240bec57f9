import Preassembler.Dump
import Preassembler.Main
import Preassembler.Stage.Catalogue
import Preassembler.Proofs.Expansion.Divergence
import Preassembler.Proofs.Expansion.Nesting
import Preassembler.Proofs.Expansion.DefinitionOrder
import Preassembler.Proofs.Pipeline.Limits
import Preassembler.Proofs.Pipeline.Delivery
import Preassembler.Proofs.Listing.Layout
import Preassembler.Proofs.Listing.BrokenLine
import Preassembler.Proofs.Listing.SourceMap
import Preassembler.Proofs.Files.AllOrNothing
import Preassembler.Proofs.Expansion.Leftover
import Preassembler.Proofs.Expansion.Tokenwise
import Preassembler.Proofs.Expansion.Calls
import Preassembler.Proofs.Expansion.Definitions
import Preassembler.Proofs.Expansion.Unfolding
import Preassembler.Proofs.Expansion.Redefinition
import Preassembler.Proofs.Expansion.Requests
import Preassembler.Proofs.Comments.Idempotence
import Preassembler.Proofs.Comments.Opener
import Preassembler.Proofs.Comments.Strictness
import Preassembler.Proofs.Labels.Field
import Preassembler.Proofs.Listing.Directive
import Preassembler.Proofs.Listing.PlainCode
import Preassembler.Proofs.Listing.Dump
import Preassembler.Proofs.Listing.Records
import Preassembler.Proofs.Listing.Spacing
import Preassembler.Proofs.Expansion.Rendering
import Preassembler.Proofs.Expansion.Grammar
import Preassembler.Proofs.Files.LifeCycle
import Preassembler.Proofs.Statements.Registers
import Preassembler.Proofs.Statements.Integers
import Preassembler.Proofs.Continuations.Groups
import Preassembler.Proofs.Pipeline.Renewal
import Preassembler.Proofs.Expansion.Regions
import Preassembler.Proofs.Expansion.Tokens
