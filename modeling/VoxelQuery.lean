import VoxelQuery.Table
import VoxelQuery.Text.Blank
import VoxelQuery.Text.Units
import VoxelQuery.Text.Lower
import VoxelQuery.Number.Decimal
import VoxelQuery.Json.Reader
import VoxelQuery.Json.Printer
import VoxelQuery.Query.Segment
import VoxelQuery.Query.Lexeme
import VoxelQuery.Query.Token
import VoxelQuery.Registry.Basic
import VoxelQuery.Predicate.Text
import VoxelQuery.Predicate.Evaluation
import VoxelQuery.World.Basic
import VoxelQuery.Query.Compile
import VoxelQuery.Library.Basic
import VoxelQuery.Schema.Issue
import VoxelQuery.Catalog.Assembly
import VoxelQuery.Catalog.Bundled
import VoxelQuery.Service.Resource
import VoxelQuery.Number.Integer
import VoxelQuery.Proofs.Query.Meaning
import VoxelQuery.Proofs.Query.Flaws
import VoxelQuery.Proofs.Library.Restart
import VoxelQuery.Proofs.Library.Atomicity
import VoxelQuery.Proofs.Library.Fixpoint
import VoxelQuery.Proofs.Library.Confluence
import VoxelQuery.Proofs.Text.LetterCase
import VoxelQuery.Proofs.Registry.Growth
import VoxelQuery.Proofs.Query.Grounding
import VoxelQuery.Proofs.Library.Session
import VoxelQuery.Proofs.Query.Composition
import VoxelQuery.Proofs.Query.Congruence
import VoxelQuery.Proofs.Library.Persistence
import VoxelQuery.Proofs.Service.Serving
import VoxelQuery.Proofs.Service.Transparency
import VoxelQuery.Proofs.Query.Defects
import VoxelQuery.Proofs.Query.Reporting
import VoxelQuery.Proofs.History
import VoxelQuery.Proofs.Registry.Closure
import VoxelQuery.Proofs.Library.Currency
import VoxelQuery.Proofs.World.Placement
import VoxelQuery.Proofs.Service.Matching
import VoxelQuery.Proofs.Library.Saving
import VoxelQuery.Proofs.World.Translation
import VoxelQuery.Proofs.Schema.Fitting
import VoxelQuery.Proofs.Registry.Definition
import VoxelQuery.Proofs.Registry.Renumbering
import VoxelQuery.Proofs.Catalog.Conformance
import VoxelQuery.Proofs.Catalog.Building
import VoxelQuery.Proofs.Catalog.Addressing
import VoxelQuery.Proofs.Catalog.Reexport
import VoxelQuery.Proofs.Query.Rendering
import VoxelQuery.Proofs.Predicate.Locality
import VoxelQuery.Proofs.Text.UnitOrder
import VoxelQuery.Proofs.World.StateKey
import VoxelQuery.Proofs.Text.Ascii
import VoxelQuery.Proofs.Query.Respelling
import VoxelQuery.Proofs.Query.Rewriting
import VoxelQuery.Proofs.Record
import VoxelQuery.Proofs.World.Casing
import VoxelQuery.Proofs.World.LastWrite
import VoxelQuery.Proofs.World.Typing
import VoxelQuery.Proofs.Query.Pointing
import VoxelQuery.Proofs.Catalog.Coherence
import VoxelQuery.Proofs.Catalog.Normalization
import VoxelQuery.Proofs.Service.Unambiguity
import VoxelQuery.Proofs.Query.Division
