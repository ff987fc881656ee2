import OpGraph.Graph.Basic

/-!
# Validation

A graph is canonical if every node has a type and every output port a consumer. The
validator collects all breaches as errors, and output ports about which nothing is
known as warnings. It also compares the table of connections with the ports, which
agree in every graph that was built by edits.
-/

namespace OpGraph

/-- Breach of a rule, or a remark, at one place of a graph. -/
inductive Finding where
  /-- A node has no type. -/
  | noType (node : String)
  /-- An output port has no consumer. -/
  | openOutput (node opType : String) (index : Nat)
  /-- Nothing is known about an output port. -/
  | noInfo (node opType : String) (index : Nat)
  /-- A connection starts at an input port. -/
  | startsAtInput (connection : ConnectionId)
  /-- A connection ends at an output port. -/
  | endsAtOutput (connection : ConnectionId)
  /-- The port at which a connection starts does not list it. -/
  | unlistedSource (connection : ConnectionId) (port : PortRef)
  /-- The port at which a connection starts does not exist. -/
  | missingSource (connection : ConnectionId) (port : PortRef)
  /-- The port at which a connection ends does not hold it. -/
  | unlistedDestination (connection : ConnectionId) (port : PortRef)
  /-- The port at which a connection ends does not exist. -/
  | missingDestination (connection : ConnectionId) (port : PortRef)
  deriving DecidableEq

/-- Wording of a finding. -/
def Finding.message : Finding → String
  | noType node => s!"Node '{node}' has empty type"
  | openOutput node opType index =>
    s!"Node '{node}' ({opType}): output {index} is neither connected nor terminated"
  | noInfo node opType index => s!"Node '{node}' ({opType}): output {index} has no annotation"
  | startsAtInput connection => s!"Connection {connection} starts at an input port"
  | endsAtOutput connection => s!"Connection {connection} ends at an output port"
  | unlistedSource connection port =>
    s!"Connection {connection} is not recorded on its source {port}"
  | missingSource connection port => s!"Connection {connection} references missing source {port}"
  | unlistedDestination connection port =>
    s!"Connection {connection} is not recorded on its destination {port}"
  | missingDestination connection port =>
    s!"Connection {connection} references missing destination {port}"

/-- All errors and warnings of a validation, worded. -/
structure ValidationReport where
  /-- Breaches of the rules. -/
  errors : List String
  /-- Remarks that do not make the graph invalid. -/
  warnings : List String
  deriving DecidableEq

namespace ValidationReport

/-- Nothing found. -/
def empty : ValidationReport := ⟨[], []⟩

/-- No rule is broken. -/
def isValid (report : ValidationReport) : Bool := report.errors.isEmpty

/-- The findings of two reports, one after the other. -/
def append (first second : ValidationReport) : ValidationReport :=
  ⟨first.errors ++ second.errors, first.warnings ++ second.warnings⟩

instance : Append ValidationReport := ⟨append⟩

end ValidationReport

namespace Graph

/-- Errors of one node. -/
def nodeErrors (node : Node) : List Finding :=
  (if node.opType = "" then [.noType node.name] else []) ++
    (node.outputs.filter (·.isDisconnected)).map fun port =>
      .openOutput node.name node.opType port.index

/-- Warnings of one node. -/
def nodeWarnings (node : Node) : List Finding :=
  (node.outputs.filter fun port => port.info.isNone).map fun port =>
    .noInfo node.name node.opType port.index

/-- Errors at the port where a connection starts. -/
def sourceErrors (graph : Graph) (id : ConnectionId) (port : PortRef) : List Finding :=
  (if port.isOutput then [] else [.startsAtInput id]) ++
    match graph.outputPort? port.node port.index with
    | some output => if output.connections.contains id then [] else [.unlistedSource id port]
    | none => [.missingSource id port]

/-- Errors at the port where a connection ends. -/
def destinationErrors (graph : Graph) (id : ConnectionId) (port : PortRef) : List Finding :=
  (if port.isInput then [] else [.endsAtOutput id]) ++
    match graph.inputPort? port.node port.index with
    | some input => if input.connection = some id then [] else [.unlistedDestination id port]
    | none => [.missingDestination id port]

/-- Errors of all connections. -/
def connectionErrors (graph : Graph) : List Finding :=
  graph.connections.toList.flatMap fun (id, connection) =>
    graph.sourceErrors id connection.source ++ graph.destinationErrors id connection.destination

/-- Everything that is to be said about a graph. -/
def validate (graph : Graph) : ValidationReport where
  errors := ((graph.nodes.values.flatMap nodeErrors) ++ graph.connectionErrors).map (·.message)
  warnings := (graph.nodes.values.flatMap nodeWarnings).map (·.message)

/-- The report of a canonical graph; any other graph fails with all of its errors. -/
def checkCanonical (graph : Graph) : Except GraphError ValidationReport :=
  let report := graph.validate
  if report.isValid then .ok report
  else .error (.validationFailed (.notCanonical report.errors))

end Graph

end OpGraph
