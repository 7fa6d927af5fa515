import CatalogQuery.Access.Basic
import CatalogQuery.Access.Directory
import CatalogQuery.Access.Names
import CatalogQuery.Catalog.Basic
import CatalogQuery.Catalog.Codec
import CatalogQuery.Compile.Frame
import CatalogQuery.Compile.Scalar
import CatalogQuery.Compile.Tree
import CatalogQuery.Condition.Basic
import CatalogQuery.Condition.Codec
import CatalogQuery.Decode
import CatalogQuery.Error
import CatalogQuery.Field.Basic
import CatalogQuery.Field.Check
import CatalogQuery.Field.Codec
import CatalogQuery.Find
import CatalogQuery.Json.Basic
import CatalogQuery.Json.Parser
import CatalogQuery.Json.Printer
import CatalogQuery.Link.Basic
import CatalogQuery.Link.Resolve
import CatalogQuery.Link.Source
import CatalogQuery.Number.Binary64
import CatalogQuery.Number.Shortest
import CatalogQuery.Options
import CatalogQuery.Populate
import CatalogQuery.Proofs.Access.Unreadable
import CatalogQuery.Proofs.Catalog.Codec
import CatalogQuery.Proofs.Compile.Calculations
import CatalogQuery.Proofs.Compile.Composed
import CatalogQuery.Proofs.Compile.Conjunction
import CatalogQuery.Proofs.Compile.Connections
import CatalogQuery.Proofs.Compile.Groups
import CatalogQuery.Proofs.Compile.Hidden
import CatalogQuery.Proofs.Compile.Keys
import CatalogQuery.Proofs.Compile.Levels
import CatalogQuery.Proofs.Compile.LinkOperators
import CatalogQuery.Proofs.Compile.Meaning
import CatalogQuery.Proofs.Compile.Renaming
import CatalogQuery.Proofs.Compile.Rows
import CatalogQuery.Proofs.Compile.StoredColumns
import CatalogQuery.Proofs.Compile.Subqueries
import CatalogQuery.Proofs.Compile.TextRules
import CatalogQuery.Proofs.Compile.Unlinked
import CatalogQuery.Proofs.Condition.Codec
import CatalogQuery.Proofs.Condition.Graft
import CatalogQuery.Proofs.Condition.Retain
import CatalogQuery.Proofs.Condition.Spots
import CatalogQuery.Proofs.Condition.Truth
import CatalogQuery.Proofs.Decode.Structures
import CatalogQuery.Proofs.Find.Counting
import CatalogQuery.Proofs.Json.Arrays
import CatalogQuery.Proofs.Json.Text
import CatalogQuery.Proofs.Link.Accounting
import CatalogQuery.Proofs.Link.Junctions
import CatalogQuery.Proofs.Link.Mirror
import CatalogQuery.Proofs.Link.Rows
import CatalogQuery.Proofs.Number.Numeral
import CatalogQuery.Proofs.Populate.Join
import CatalogQuery.Proofs.Populate.Unscoped
import CatalogQuery.Proofs.Populate.Users
import CatalogQuery.Proofs.Reduce.Aliases
import CatalogQuery.Proofs.Reduce.Complements
import CatalogQuery.Proofs.Reduce.Composed
import CatalogQuery.Proofs.Reduce.Cycles
import CatalogQuery.Proofs.Reduce.EmptyLists
import CatalogQuery.Proofs.Reduce.FormulaFilters
import CatalogQuery.Proofs.Reduce.Granting
import CatalogQuery.Proofs.Reduce.KeyReads
import CatalogQuery.Proofs.Reduce.Members
import CatalogQuery.Proofs.Reduce.Membership
import CatalogQuery.Proofs.Reduce.Nesting
import CatalogQuery.Proofs.Reduce.Restriction
import CatalogQuery.Proofs.Reduce.Scopes
import CatalogQuery.Proofs.Reduce.Substitution
import CatalogQuery.Proofs.Reduce.Trails
import CatalogQuery.Proofs.Reduce.Unreplaced
import CatalogQuery.Proofs.Reduce.Walks
import CatalogQuery.Proofs.Save.BaseValues
import CatalogQuery.Proofs.Save.Data
import CatalogQuery.Proofs.Save.Edits
import CatalogQuery.Proofs.Save.FailStop
import CatalogQuery.Proofs.Save.FoundAgain
import CatalogQuery.Proofs.Save.FoundFirst
import CatalogQuery.Proofs.Save.Inserting
import CatalogQuery.Proofs.Save.OneToOne
import CatalogQuery.Proofs.Save.Partners
import CatalogQuery.Proofs.Save.Places
import CatalogQuery.Proofs.Save.ReadBack
import CatalogQuery.Proofs.Save.Relinking
import CatalogQuery.Proofs.Save.Removal
import CatalogQuery.Proofs.Save.Repeating
import CatalogQuery.Proofs.Save.Required
import CatalogQuery.Proofs.Save.SavedBack
import CatalogQuery.Proofs.Save.Statements
import CatalogQuery.Proofs.Save.Unauthorised
import CatalogQuery.Proofs.Save.Updating
import CatalogQuery.Proofs.Save.Wanted
import CatalogQuery.Proofs.Save.Writings
import CatalogQuery.Proofs.Session.Channels
import CatalogQuery.Proofs.Session.Coherence
import CatalogQuery.Proofs.Session.Composed
import CatalogQuery.Proofs.Session.Exchanges
import CatalogQuery.Proofs.Session.Exclusion
import CatalogQuery.Proofs.Session.Failures
import CatalogQuery.Proofs.Session.Finding
import CatalogQuery.Proofs.Session.FormulaFilters
import CatalogQuery.Proofs.Session.Outcomes
import CatalogQuery.Proofs.Session.Placeholders
import CatalogQuery.Proofs.Session.ReadOnly
import CatalogQuery.Proofs.Session.Retries
import CatalogQuery.Proofs.Session.Snapshots
import CatalogQuery.Proofs.Session.Unlinked
import CatalogQuery.Proofs.Sql.Clauses
import CatalogQuery.Proofs.Sql.Composed
import CatalogQuery.Proofs.Sql.Data
import CatalogQuery.Proofs.Sql.Evaluation
import CatalogQuery.Proofs.Sql.Grammar
import CatalogQuery.Proofs.Sql.Patterns
import CatalogQuery.Proofs.Sql.Reading
import CatalogQuery.Proofs.Sql.Scan
import CatalogQuery.Proofs.Sql.Sealed
import CatalogQuery.Proofs.Sql.Tables
import CatalogQuery.Proofs.Sql.Tests
import CatalogQuery.Proofs.Write.Accepted
import CatalogQuery.Proofs.Write.Required
import CatalogQuery.Proofs.Write.Several
import CatalogQuery.Reduce.Scopes
import CatalogQuery.Reduce.Stored
import CatalogQuery.Reduce.Tree
import CatalogQuery.Reduce.User
import CatalogQuery.Save
import CatalogQuery.Session.Locks
import CatalogQuery.Session.Program
import CatalogQuery.Session.Run
import CatalogQuery.Session.Tenant
import CatalogQuery.Session.Traced
import CatalogQuery.Settings
import CatalogQuery.Sql.Name
import CatalogQuery.Sql.Predicate
import CatalogQuery.Sql.Quote
import CatalogQuery.Sql.Statement
import CatalogQuery.Text.Blank
import CatalogQuery.Text.Calendar
import CatalogQuery.Text.Numeral
import CatalogQuery.Text.Template
import CatalogQuery.Write.Links
import CatalogQuery.Write.Values
