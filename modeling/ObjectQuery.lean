import ObjectQuery.Config.Reader
import ObjectQuery.Fetch
import ObjectQuery.Proofs.Alias.Steps
import ObjectQuery.Proofs.Columns.Declared
import ObjectQuery.Proofs.Columns.Derived
import ObjectQuery.Proofs.Compiler.Alignment
import ObjectQuery.Proofs.Compiler.Counts
import ObjectQuery.Proofs.Compiler.Entries
import ObjectQuery.Proofs.Compiler.Hydration
import ObjectQuery.Proofs.Hydration.Indexed
import ObjectQuery.Proofs.Hydration.Keys
import ObjectQuery.Proofs.Hydration.Required
import ObjectQuery.Proofs.Hydration.Tree
import ObjectQuery.Proofs.Plan.Mentions
import ObjectQuery.Proofs.Plan.Order
import ObjectQuery.Proofs.Plan.Orderings
import ObjectQuery.Proofs.Plan.Topology
import ObjectQuery.Proofs.Query.Building
import ObjectQuery.Proofs.Query.Prefixes
import ObjectQuery.Proofs.Resolve.Levels
import ObjectQuery.Proofs.Resolve.Partners
import ObjectQuery.Proofs.Resolve.Stretches
import ObjectQuery.Proofs.Schema.Planning
import ObjectQuery.Proofs.Scope.Counted
import ObjectQuery.Proofs.Scope.Forward
import ObjectQuery.Proofs.Spelling.Catalog
import ObjectQuery.Proofs.Sql.Identifiers
import ObjectQuery.Proofs.Sql.Readback
import ObjectQuery.Proofs.Sql.Restriction
import ObjectQuery.Proofs.Text.Agreement
import ObjectQuery.Proofs.Text.Grammar
import ObjectQuery.Proofs.Text.Partition
import ObjectQuery.Schema.Reader
import ObjectQuery.Value.Reader
