import Mathlib.Data.List.Forall2
import Mathlib.Data.List.Lex
import Mathlib.Data.List.Nodup
import OpGraph.Pattern.Match

/-!
# The search finds exactly the matches

The search binds one label after another and drops a partial binding as soon as two of its nodes
are the same or an edge between them is missing. What it drops no complete binding extends, so
it finds every match, and none twice: the matches stand in the order of the places of their
nodes in the graph.
-/

namespace OpGraph

/-! ### What is asked of nodes and connections -/

/-- The node has the type that is asked for and meets all conditions on its attributes. -/
structure NodePattern.Admits (pattern : NodePattern) (node : Node) : Prop where
  /-- The type is the one that is asked for, if one is. -/
  opType : ∀ opType, pattern.opType = some opType → node.opType = opType
  /-- All conditions hold. -/
  predicates : ∀ predicate ∈ pattern.predicates, predicate.holds node.attributes = true

/-- The connection runs from the first node to the second, between the ports that are asked for. -/
structure EdgePattern.Joins (edge : EdgePattern) (producer consumer : NodeId)
    (connection : Connection) : Prop where
  /-- It starts at the first node. -/
  source : connection.source.node = producer
  /-- It ends at the second node. -/
  destination : connection.destination.node = consumer
  /-- It starts at the port that is asked for, if one is. -/
  producerPort : ∀ port, edge.producerPort = some port → connection.source.index = port
  /-- It ends at the port that is asked for, if one is. -/
  consumerPort : ∀ port, edge.consumerPort = some port → connection.destination.index = port

theorem NodePattern.accepts_iff {pattern : NodePattern} {node : Node} :
    pattern.accepts node = true ↔ pattern.Admits node := by
  simp only [accepts, Bool.and_eq_true, Option.all_eq_true, decide_eq_true_eq, List.all_eq_true]
  exact ⟨fun h => ⟨h.1, h.2⟩, fun h => ⟨h.opType, h.predicates⟩⟩

theorem EdgePattern.accepts_iff {edge : EdgePattern} {producer consumer : NodeId}
    {connection : Connection} :
    edge.accepts producer consumer connection = true ↔ edge.Joins producer consumer connection := by
  simp only [accepts, Bool.and_eq_true, Option.all_eq_true, decide_eq_true_eq]
  exact ⟨fun ⟨⟨⟨hsource, hdestination⟩, hproducer⟩, hconsumer⟩ =>
    ⟨hsource, hdestination, hproducer, hconsumer⟩,
    fun h => ⟨⟨⟨h.source, h.destination⟩, h.producerPort⟩, h.consumerPort⟩⟩

/-- Place of a node in the order in which the nodes of a graph were created. -/
def Graph.place (graph : Graph) (id : NodeId) : Nat := graph.nodes.keys.idxOf id

namespace Pattern

variable {pattern : Pattern} {graph : Graph} {bound ids : List NodeId} {rest : List NodePattern}
  {edge : EdgePattern} {node : NodePattern} {id : NodeId} {found : Match}

/-- A match binds the labels of the pattern, in their order, to distinct nodes that meet all that
the pattern asks of them. -/
structure Holds (pattern : Pattern) (graph : Graph) (found : Match) : Prop where
  /-- The labels of the pattern are bound. -/
  labels : found.bindings.map Prod.fst = pattern.labels
  /-- No node is bound twice. -/
  distinct : found.ids.Nodup
  /-- Each label is bound to a node that is admitted. -/
  nodes : ∀ node ∈ pattern.nodes, ∃ id bound, found.get? node.label = some id ∧
    graph.node? id = some bound ∧ node.Admits bound
  /-- Each edge is realised by some connection between the nodes of its labels. -/
  edges : ∀ edge ∈ pattern.edges, ∃ producer consumer id connection,
    found.get? edge.producer = some producer ∧ found.get? edge.consumer = some consumer ∧
      graph.connection? id = some connection ∧ edge.Joins producer consumer connection

theorem mem_candidates_iff :
    id ∈ candidates graph node ↔ ∃ bound, graph.node? id = some bound ∧ node.Admits bound := by
  simp only [candidates, List.mem_map, List.mem_filter, Prod.exists, NodePattern.accepts_iff,
    Graph.node?, OrderedMap.get?_eq_some_iff]
  constructor
  · rintro ⟨_, bound, hbound, rfl⟩
    exact ⟨bound, hbound⟩
  · rintro ⟨bound, hbound⟩
    exact ⟨id, bound, hbound, rfl⟩

theorem hasEdge_iff {producer consumer : NodeId} :
    hasEdge graph edge (producer, consumer) = true ↔
      ∃ id connection, graph.connection? id = some connection ∧
        edge.Joins producer consumer connection := by
  simp only [hasEdge, List.any_eq_true, EdgePattern.accepts_iff, OrderedMap.mem_values_iff,
    Graph.connection?]
  constructor
  · rintro ⟨connection, ⟨id, hid⟩, hjoins⟩
    exact ⟨id, connection, hid, hjoins⟩
  · rintro ⟨id, connection, hid, hjoins⟩
    exact ⟨connection, ⟨id, hid⟩, hjoins⟩

/-! ### Complete bindings -/

/-- The nodes, in the order of the labels, meet all that the pattern asks of each of them and of
each edge. -/
structure Fits (pattern : Pattern) (graph : Graph) (ids : List NodeId) : Prop where
  /-- Each node is a candidate for its label. -/
  nodes : List.Forall₂ (fun node id => id ∈ candidates graph node) pattern.nodes ids
  /-- Each edge has its connection. -/
  edges : ∀ edge ∈ pattern.edges, ∃ ends, pattern.endpoints? ids edge = some ends ∧
    hasEdge graph edge ends = true

/-- The node of a label is the one at its position. -/
theorem lookup_zip (labels : List String) (ids : List NodeId) (label : String) :
    (labels.zip ids).lookup label = (labels.findIdx? (· = label)).bind fun index => ids[index]? := by
  induction labels generalizing ids with
  | nil => rfl
  | cons head tail ih =>
    cases ids with
    | nil => simp
    | cons id rest =>
      rw [List.zip_cons_cons, List.lookup_cons, List.findIdx?_cons]
      by_cases hlabel : head = label
      · simp [hlabel]
      · have hne : (label == head) = false := by simpa using Ne.symm hlabel
        rw [hne, ih rest]
        cases tail.findIdx? (· = label) <;> simp [hlabel]

/-- A match that binds the labels of the pattern lists its nodes in their order. -/
theorem get?_of_labels (hlabels : found.bindings.map Prod.fst = pattern.labels) (label : String) :
    found.get? label = (pattern.position? label).bind fun index => found.ids[index]? := by
  have hzip : found.bindings = pattern.labels.zip found.ids := List.zip_of_prod hlabels rfl
  rw [Match.get?, hzip, lookup_zip]
  rfl

/-- Each label of a pattern stands at its own position only. -/
theorem position?_of_getElem? {index : Nat} (h : pattern.nodes[index]? = some node) :
    pattern.position? node.label = some index := by
  have hlabel : pattern.labels[index]? = some node.label := by
    rw [labels, List.getElem?_map, h]
    rfl
  obtain ⟨hlt, hget⟩ := List.getElem?_eq_some_iff.mp hlabel
  refine List.findIdx?_eq_some_iff_getElem.mpr ⟨hlt, by simpa using hget, fun earlier hearlier => ?_⟩
  intro hsame
  have hsame : pattern.labels[earlier] = pattern.labels[index] := by
    rw [hget]
    simpa using hsame
  have heq := (List.Nodup.getElem_inj_iff (l := pattern.labels) pattern.nodup_labels).mp hsame
  omega

/-- The ends of an edge are the nodes that its labels are bound to. -/
theorem endpoints?_eq_some_iff (hlabels : found.bindings.map Prod.fst = pattern.labels)
    {producer consumer : NodeId} :
    pattern.endpoints? found.ids edge = some (producer, consumer) ↔
      found.get? edge.producer = some producer ∧ found.get? edge.consumer = some consumer := by
  rw [get?_of_labels hlabels, get?_of_labels hlabels]
  simp only [endpoints?, Option.bind_eq_bind, Option.bind_eq_some_iff, Option.pure_def,
    Option.some.injEq, Prod.mk.injEq]
  constructor
  · rintro ⟨i, hi, first, hfirst, j, hj, second, hsecond, rfl, rfl⟩
    exact ⟨⟨i, hi, hfirst⟩, j, hj, hsecond⟩
  · rintro ⟨⟨i, hi, hfirst⟩, j, hj, hsecond⟩
    exact ⟨i, hi, producer, hfirst, j, hj, consumer, hsecond, rfl, rfl⟩

/-- A match holds exactly if it binds the labels to distinct nodes that fit. -/
theorem holds_iff_fits :
    pattern.Holds graph found ↔ found.bindings.map Prod.fst = pattern.labels ∧ found.ids.Nodup ∧
      pattern.Fits graph found.ids := by
  constructor
  · intro h
    refine ⟨h.labels, h.distinct, List.forall₂_iff_get.mpr ⟨?_, fun index hnode hid => ?_⟩,
      fun edge hedge => ?_⟩
    · have hlength := congrArg List.length h.labels
      simpa [labels, Match.ids] using hlength.symm
    · rw [List.get_eq_getElem, List.get_eq_getElem]
      obtain ⟨id, bound, hget, hbound, hadmits⟩ := h.nodes _ (List.getElem_mem hnode)
      rw [get?_of_labels h.labels, position?_of_getElem? (List.getElem?_eq_getElem hnode),
        Option.bind_some, List.getElem?_eq_getElem hid] at hget
      cases hget
      exact mem_candidates_iff.mpr ⟨bound, hbound, hadmits⟩
    · obtain ⟨producer, consumer, id, connection, hproducer, hconsumer, hconnection, hjoins⟩ :=
        h.edges edge hedge
      exact ⟨(producer, consumer), (endpoints?_eq_some_iff h.labels).mpr ⟨hproducer, hconsumer⟩,
        hasEdge_iff.mpr ⟨id, connection, hconnection, hjoins⟩⟩
  · rintro ⟨hlabels, hdistinct, hfits⟩
    obtain ⟨hlength, hnodes⟩ := List.forall₂_iff_get.mp hfits.nodes
    refine ⟨hlabels, hdistinct, fun node hnode => ?_, fun edge hedge => ?_⟩
    · obtain ⟨index, hlt, rfl⟩ := List.getElem_of_mem hnode
      obtain ⟨bound, hbound, hadmits⟩ := mem_candidates_iff.mp (hnodes index hlt (hlength ▸ hlt))
      refine ⟨found.ids[index], bound, ?_, hbound, hadmits⟩
      rw [get?_of_labels hlabels, position?_of_getElem? (List.getElem?_eq_getElem hlt)]
      exact List.getElem?_eq_getElem _
    · obtain ⟨⟨producer, consumer⟩, hends, hedge⟩ := hfits.edges edge hedge
      obtain ⟨hproducer, hconsumer⟩ := (endpoints?_eq_some_iff hlabels).mp hends
      obtain ⟨id, connection, hconnection, hjoins⟩ := hasEdge_iff.mp hedge
      exact ⟨producer, consumer, id, connection, hproducer, hconsumer, hconnection, hjoins⟩

/-! ### Partial bindings -/

/-- Ends that are bound stay as they are when more labels are bound. -/
theorem endpoints?_append {ends : NodeId × NodeId} (h : pattern.endpoints? bound edge = some ends)
    (added : List NodeId) : pattern.endpoints? (bound ++ added) edge = some ends := by
  have hstay : ∀ {index : Nat} {id : NodeId}, bound[index]? = some id →
      (bound ++ added)[index]? = some id := fun hget => by
    rw [List.getElem?_append_left (List.getElem?_eq_some_iff.mp hget).1, hget]
  simp only [endpoints?, Option.bind_eq_bind, Option.bind_eq_some_iff, Option.pure_def] at h ⊢
  obtain ⟨i, hi, producer, hproducer, j, hj, consumer, hconsumer, hends⟩ := h
  exact ⟨i, hi, producer, hstay hproducer, j, hj, consumer, hstay hconsumer, hends⟩

/-- The edges of a partial binding are consistent if those of a binding that extends it are. -/
theorem edgesConsistent_of_append {added : List NodeId}
    (h : pattern.edgesConsistent graph (bound ++ added) = true) :
    pattern.edgesConsistent graph bound = true := by
  simp only [edgesConsistent, List.all_eq_true, Option.all_eq_true] at h ⊢
  exact fun edge hedge ends hends => h edge hedge ends (endpoints?_append hends added)

/-- Before anything is bound no edge can be missing. -/
theorem edgesConsistent_nil : pattern.edgesConsistent graph [] = true := by
  simp [edgesConsistent, endpoints?]

/-- Where all labels are bound, no edge is missing exactly if each edge has its connection. -/
theorem edgesConsistent_iff (hlength : ids.length = pattern.nodes.length) :
    pattern.edgesConsistent graph ids = true ↔ ∀ edge ∈ pattern.edges, ∃ ends,
      pattern.endpoints? ids edge = some ends ∧ hasEdge graph edge ends = true := by
  have hbound : ∀ label ∈ pattern.labels, ∃ id, (pattern.position? label).bind (ids[·]?) = some id := by
    intro label hlabel
    obtain ⟨node, hnode, rfl⟩ := List.mem_map.mp hlabel
    obtain ⟨index, hlt, rfl⟩ := List.getElem_of_mem hnode
    rw [position?_of_getElem? (List.getElem?_eq_getElem hlt)]
    exact ⟨_, List.getElem?_eq_getElem (hlength ▸ hlt)⟩
  simp only [edgesConsistent, List.all_eq_true, Option.all_eq_true]
  refine forall₂_congr fun edge hedge => ⟨fun h => ?_, ?_⟩
  · obtain ⟨hproducer, hconsumer⟩ := pattern.edge_labels edge hedge
    obtain ⟨producer, hproducer⟩ := hbound _ hproducer
    obtain ⟨consumer, hconsumer⟩ := hbound _ hconsumer
    obtain ⟨i, hi, hproducer⟩ := Option.bind_eq_some_iff.mp hproducer
    obtain ⟨j, hj, hconsumer⟩ := Option.bind_eq_some_iff.mp hconsumer
    have hends : pattern.endpoints? ids edge = some (producer, consumer) := by
      simp [endpoints?, hi, hproducer, hj, hconsumer]
    exact ⟨_, hends, h _ hends⟩
  · rintro ⟨ends, hends, hedge⟩ other hother
    cases hends.symm.trans hother
    exact hedge

/-- The search extends a partial binding in all the ways that add candidates, keep the nodes
distinct and leave no edge missing. -/
theorem mem_extensions_iff (hdistinct : bound.Nodup)
    (hconsistent : pattern.edgesConsistent graph bound = true) :
    ids ∈ pattern.extensions graph rest bound ↔ ∃ added, ids = bound ++ added ∧
      List.Forall₂ (fun node id => id ∈ candidates graph node) rest added ∧ ids.Nodup ∧
        pattern.edgesConsistent graph ids = true := by
  induction rest generalizing bound with
  | nil =>
    simp only [extensions, List.mem_singleton, List.forall₂_nil_left_iff]
    constructor
    · rintro rfl
      exact ⟨[], by simp, rfl, hdistinct, hconsistent⟩
    · rintro ⟨_, hids, rfl, _⟩
      simpa using hids
  | cons node rest ih =>
    have hconcat : ∀ id, (bound ++ [id]).Nodup ↔ id ∉ bound := fun id => by
      rw [List.nodup_append_comm, List.singleton_append, List.nodup_cons]
      exact and_iff_left hdistinct
    simp only [extensions, List.mem_flatMap, List.contains_iff_mem]
    constructor
    · rintro ⟨id, hcandidate, hids⟩
      split at hids
      · cases hids
      · rename_i hnew
        split at hids
        · rename_i hnext
          obtain ⟨added, hadded, hcandidates, hrest⟩ := (ih ((hconcat id).mpr hnew) hnext).mp hids
          exact ⟨id :: added, by rw [hadded, ← List.append_cons], .cons hcandidate hcandidates, hrest⟩
        · cases hids
    · rintro ⟨_, hids, hcandidates, hdistinct', hconsistent'⟩
      cases hcandidates with
      | @cons _ id _ added hcandidate hcandidates =>
        rw [List.append_cons] at hids
        subst hids
        have hnew : (bound ++ [id]).Nodup := (List.nodup_append.mp hdistinct').1
        have hnext := edgesConsistent_of_append hconsistent'
        refine ⟨id, hcandidate, ?_⟩
        rw [if_neg ((hconcat id).mp hnew), if_pos hnext]
        exact (ih hnew hnext).mpr ⟨added, rfl, hcandidates, hdistinct', hconsistent'⟩

/-! ### All matches -/

/-- The search as a whole finds the distinct nodes that fit. -/
theorem mem_extensions_nodes_iff :
    ids ∈ pattern.extensions graph pattern.nodes [] ↔ ids.Nodup ∧ pattern.Fits graph ids := by
  rw [mem_extensions_iff List.nodup_nil edgesConsistent_nil]
  constructor
  · rintro ⟨added, hids, hcandidates, hdistinct, hconsistent⟩
    rw [List.nil_append] at hids
    subst hids
    exact ⟨hdistinct, hcandidates, (edgesConsistent_iff hcandidates.length_eq.symm).mp hconsistent⟩
  · rintro ⟨hdistinct, hfits⟩
    exact ⟨ids, rfl, hfits.nodes, hdistinct,
      (edgesConsistent_iff hfits.nodes.length_eq.symm).mpr hfits.edges⟩

/-- There is a label for each node that fits. -/
theorem Fits.length_labels (h : pattern.Fits graph ids) : pattern.labels.length = ids.length := by
  rw [labels, List.length_map]
  exact h.nodes.length_eq

/-- A match made from nodes that fit binds these nodes. -/
theorem Fits.ids_zip (h : pattern.Fits graph ids) : (Match.mk (pattern.labels.zip ids)).ids = ids :=
  List.map_snd_zip (Nat.le_of_eq h.length_labels.symm)

/-- The search finds the matches that hold and no others. -/
theorem mem_findAll_iff : found ∈ pattern.findAll graph ↔ pattern.Holds graph found := by
  simp only [findAll, List.mem_map, mem_extensions_nodes_iff, holds_iff_fits]
  constructor
  · rintro ⟨ids, ⟨hdistinct, hfits⟩, rfl⟩
    rw [hfits.ids_zip]
    exact ⟨List.map_fst_zip (Nat.le_of_eq hfits.length_labels), hdistinct, hfits⟩
  · rintro ⟨hlabels, hdistinct, hfits⟩
    have hzip : found.bindings = pattern.labels.zip found.ids := List.zip_of_prod hlabels rfl
    exact ⟨found.ids, ⟨hdistinct, hfits⟩, by rw [← hzip]⟩

/-- The test of a match that was found earlier asks whether its nodes fit now. -/
theorem stillMatches_iff_fits :
    pattern.stillMatches graph found = true ↔ pattern.Fits graph found.ids := by
  have hcandidate : ∀ (node : NodePattern) (id : NodeId),
      ((graph.node? id).any node.accepts = true ↔ id ∈ candidates graph node) := fun node id => by
    rw [mem_candidates_iff, Option.any_eq_true]
    simp only [NodePattern.accepts_iff]
  simp only [stillMatches, Bool.and_eq_true, decide_eq_true_eq, List.all_eq_true, Prod.forall,
    hcandidate, Option.any_eq_true]
  have hsize : found.size = found.ids.length := (List.length_map _).symm
  rw [hsize]
  constructor
  · rintro ⟨⟨hlength, hnodes⟩, hedges⟩
    exact ⟨List.forall₂_iff_zip.mpr ⟨hlength.symm, fun {node id} hmem => hnodes node id hmem⟩, hedges⟩
  · rintro ⟨hnodes, hedges⟩
    obtain ⟨hlength, hzip⟩ := List.forall₂_iff_zip.mp hnodes
    exact ⟨⟨hlength.symm, fun node id hmem => hzip hmem⟩, hedges⟩

/-- A match that was found in one graph still holds in another exactly if the search finds it
there. -/
theorem stillMatches_iff_mem_findAll {before : Graph} (h : found ∈ pattern.findAll before) :
    pattern.stillMatches graph found = true ↔ found ∈ pattern.findAll graph := by
  have hbefore := mem_findAll_iff.mp h
  rw [mem_findAll_iff, holds_iff_fits, stillMatches_iff_fits]
  exact ⟨fun hfits => ⟨hbefore.labels, hbefore.distinct, hfits⟩, fun h => h.2.2⟩

/-! ### The order of matches -/

/-- What the search finds extends what was bound. -/
theorem exists_of_mem_extensions (h : ids ∈ pattern.extensions graph rest bound) :
    ∃ added, ids = bound ++ added := by
  induction rest generalizing bound with
  | nil =>
    rw [extensions, List.mem_singleton] at h
    exact ⟨[], by rw [h, List.append_nil]⟩
  | cons node rest ih =>
    obtain ⟨id, _, hids⟩ := List.mem_flatMap.mp h
    split at hids
    · cases hids
    · split at hids
      · obtain ⟨added, hadded⟩ := ih hids
        exact ⟨id :: added, by rw [hadded, ← List.append_cons]⟩
      · cases hids

/-- Candidates stand in the order of their places. -/
theorem pairwise_candidates (graph : Graph) (node : NodePattern) :
    (candidates graph node).Pairwise fun first second => graph.place first < graph.place second :=
  (pairwise_idxOf_of_nodup graph.nodes.nodup_keys).sublist (List.filter_sublist.map Prod.fst)

/-- The search finds bindings in the order of the places of their nodes. -/
theorem pairwise_extensions :
    (pattern.extensions graph rest bound).Pairwise fun first second =>
      List.Lex (· < ·) (first.map graph.place) (second.map graph.place) := by
  induction rest generalizing bound with
  | nil => exact List.pairwise_singleton _ _
  | cons node rest ih =>
    rw [extensions, List.pairwise_flatMap]
    refine ⟨fun id _ => ?_, (pairwise_candidates graph node).imp fun {first second} hplace => ?_⟩
    · split
      · exact List.Pairwise.nil
      · split
        · exact ih
        · exact List.Pairwise.nil
    · -- Bindings agree up to the label at hand, whose nodes decide.
      have hextends : ∀ {id : NodeId} {ids : List NodeId},
          (ids ∈ if bound.contains id = true then []
            else if pattern.edgesConsistent graph (bound ++ [id]) = true then
              pattern.extensions graph rest (bound ++ [id])
            else []) → ∃ added, ids = bound ++ id :: added := by
        intro id ids hids
        split at hids
        · cases hids
        · split at hids
          · obtain ⟨added, hadded⟩ := exists_of_mem_extensions hids
            exact ⟨added, by rw [hadded, ← List.append_cons]⟩
          · cases hids
      intro earlier hearlier later hlater
      obtain ⟨_, rfl⟩ := hextends hearlier
      obtain ⟨_, rfl⟩ := hextends hlater
      rw [List.map_append, List.map_append]
      exact .append_left (· < ·) (.rel hplace) _

/-- The search finds exactly the matches that hold, each once, in the order of the places of
their nodes, where the node of an earlier label counts before that of a later one. -/
theorem findAll_exact (pattern : Pattern) (graph : Graph) :
    (∀ found, found ∈ pattern.findAll graph ↔ pattern.Holds graph found) ∧
    (pattern.findAll graph).Nodup ∧
    (pattern.findAll graph).Pairwise fun first second =>
      List.Lex (· < ·) (first.ids.map graph.place) (second.ids.map graph.place) := by
  have hsorted : (pattern.findAll graph).Pairwise fun first second =>
      List.Lex (· < ·) (first.ids.map graph.place) (second.ids.map graph.place) := by
    rw [findAll, List.pairwise_map]
    refine pairwise_extensions.imp_of_mem fun {first second} hfirst hsecond hlt => ?_
    rw [(mem_extensions_nodes_iff.mp hfirst).2.ids_zip,
      (mem_extensions_nodes_iff.mp hsecond).2.ids_zip]
    exact hlt
  refine ⟨fun _ => mem_findAll_iff, hsorted.imp fun {first second} hlt heq => ?_, hsorted⟩
  rw [heq] at hlt
  exact asymm hlt hlt

end Pattern

end OpGraph
