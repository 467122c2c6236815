import EntityGraph.Build.Builder
import EntityGraph.Build.Entity
import EntityGraph.Build.Error
import EntityGraph.Build.Normal
import EntityGraph.Build.Resolve
import EntityGraph.Build.Unit
import EntityGraph.Build.Visit
import EntityGraph.Data.Basic
import EntityGraph.Data.Document
import EntityGraph.Data.Graph
import EntityGraph.Data.Source
import EntityGraph.Data.Types
import EntityGraph.Decimal.Binary64
import EntityGraph.Decimal.Shortest
import EntityGraph.DeclaredType
import EntityGraph.Dict
import EntityGraph.Document
import EntityGraph.Grammar.Executable
import EntityGraph.Grammar.Lexer
import EntityGraph.Grammar.Literal
import EntityGraph.Grammar.Number
import EntityGraph.Grammar.Parser
import EntityGraph.Grammar.Text
import EntityGraph.Grammar.Token
import EntityGraph.Grammar.TypeSystem
import EntityGraph.Grammar.Value
import EntityGraph.Kind
import EntityGraph.Location
import EntityGraph.Log
import EntityGraph.OrderedSet
import EntityGraph.Proofs.Document.Dissolving
import EntityGraph.Proofs.Document.OperationNames
import EntityGraph.Proofs.Document.Valid
import EntityGraph.Proofs.Entity.Canonical
import EntityGraph.Proofs.Entity.Conflicts
import EntityGraph.Proofs.Entity.FieldNames
import EntityGraph.Proofs.Entity.Merging
import EntityGraph.Proofs.Grammar.DefaultValues
import EntityGraph.Proofs.Grammar.Lexemes
import EntityGraph.Proofs.Grammar.Literals
import EntityGraph.Proofs.Grammar.Readers
import EntityGraph.Proofs.Grammar.Spelling
import EntityGraph.Proofs.Grammar.TypeReferences
import EntityGraph.Proofs.Questions.Answers
import EntityGraph.Proofs.Questions.Histories
import EntityGraph.Proofs.Questions.Intersections
import EntityGraph.Proofs.Questions.SchemaStates
import EntityGraph.Proofs.Questions.SharedTypes
import EntityGraph.Proofs.Questions.Steady
import EntityGraph.Proofs.Request.Builders
import EntityGraph.Proofs.Request.Cycles
import EntityGraph.Proofs.Request.Depths
import EntityGraph.Proofs.Request.Kept
import EntityGraph.Proofs.Request.Memoised
import EntityGraph.Proofs.Request.Poisoning
import EntityGraph.Proofs.Request.Replies
import EntityGraph.Proofs.Request.Requests
import EntityGraph.Proofs.Request.Termination
import EntityGraph.Proofs.Schema.Accepted
import EntityGraph.Proofs.Schema.BuiltSchema
import EntityGraph.Proofs.Schema.Conversions
import EntityGraph.Proofs.Schema.DefinitionOrder
import EntityGraph.Proofs.Schema.Extensions
import EntityGraph.Proofs.Schema.Finishing
import EntityGraph.Proofs.Schema.Loading
import EntityGraph.Proofs.Schema.References
import EntityGraph.Proofs.StoredForms
import EntityGraph.Proofs.Unit.Checks
import EntityGraph.Proofs.Unit.CopiedTrees
import EntityGraph.Proofs.Unit.Expansions
import EntityGraph.Proofs.Unit.Lexical
import EntityGraph.Proofs.Unit.Origins
import EntityGraph.Proofs.Unit.Overlays
import EntityGraph.Proofs.Unit.Rearranged
import EntityGraph.Proofs.Unit.Responses
import EntityGraph.Proofs.Unit.RootFields
import EntityGraph.Proofs.Unit.Shape
import EntityGraph.Proofs.Unit.Tree
import EntityGraph.Proofs.Walk.Agreeing
import EntityGraph.Proofs.Walk.Anew
import EntityGraph.Proofs.Walk.Calls
import EntityGraph.Proofs.Walk.CheckedWalks
import EntityGraph.Proofs.Walk.Collecting
import EntityGraph.Proofs.Walk.Contributions
import EntityGraph.Proofs.Walk.Filled
import EntityGraph.Proofs.Walk.Formed
import EntityGraph.Proofs.Walk.Growth
import EntityGraph.Proofs.Walk.InStep
import EntityGraph.Proofs.Walk.LookUps
import EntityGraph.Proofs.Walk.Outcomes
import EntityGraph.Proofs.Walk.Walks
import EntityGraph.Schema.Basic
import EntityGraph.Schema.Definition
import EntityGraph.Schema.Draft
import EntityGraph.Schema.Error
import EntityGraph.Schema.Lookup
import EntityGraph.Schema.Types
import EntityGraph.Selection
import EntityGraph.Source
import EntityGraph.Text
