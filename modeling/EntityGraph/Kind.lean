import EntityGraph.Source

/-!
# Kinds of types and kinds of operations
-/

namespace EntityGraph

/-- The six kinds of named types. -/
inductive TypeKind where
  | enum | inputObject | interface | object | scalar | union
deriving DecidableEq

/-- The name of a kind of types. -/
def TypeKind.label : TypeKind → String
  | enum => "Enum"
  | inputObject => "InputObject"
  | interface => "Interface"
  | object => "Object"
  | scalar => "Scalar"
  | union => "Union"

/-- The three kinds of operations. -/
inductive OperationKind where
  | mutation | query | subscription
deriving DecidableEq

namespace OperationKind

/-- The keyword that starts an operation of this kind. -/
def keyword : OperationKind → String
  | mutation => "mutation"
  | query => "query"
  | subscription => "subscription"

/-- The name of the root type when the schema does not name another one. -/
def defaultRootName : OperationKind → Name
  | mutation => "Mutation"
  | query => "Query"
  | subscription => "Subscription"

end OperationKind

end EntityGraph
