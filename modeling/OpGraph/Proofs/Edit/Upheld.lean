import OpGraph.Proofs.Edit.Composite
import OpGraph.Proofs.Graph.Feed

/-!
# What edits leave of a node

A condition on the bare node of one number is upheld by every edit that does not touch what the
condition speaks of. New ports come after the old ones, an annotation goes to a port of which
nothing is known, and a change of connections does not show on a bare node at all. So a condition
that can stand these outlasts the edits that add, and it outlasts a change of name or type if it
says nothing of them or the change is made to another node.
-/

namespace OpGraph

/-- The condition on a bare node can stand new ports, new annotations and changed attributes. -/
structure Node.Persistent (Q : Node → Prop) : Prop where
  /-- An input port is added. -/
  withInput : ∀ bare, Q bare → Q (Edit.withInput bare)
  /-- An output port is added. -/
  withOutput : ∀ bare, Q bare → Q (Edit.withOutput bare)
  /-- Something is said of an output of which nothing was known. -/
  annotate : ∀ bare index info, Q bare → bare.outputs[index]?.bind (·.info) = none →
    Q { bare with outputs := bare.outputs.modify index ({ · with info := some info }) }
  /-- The attributes are others. -/
  attributes : ∀ bare attributes, Q bare → Q { bare with attributes }

namespace Graph

/-- The number was given out, and as long as its node is there the condition holds of it. -/
structure Upholds (Q : Node → Prop) (id : NodeId) (graph : Graph) : Prop where
  /-- A node of that number has been made. -/
  created : id.index < graph.nextNode
  /-- The condition holds of the node. -/
  holds : ∀ bare, graph.bare? id = some bare → Q bare

variable {graph changed : Graph} {Q : Node → Prop} {id target : NodeId}

/-- A condition on a node that exists is upheld from there. -/
theorem Registered.upholds (h : graph.Registered) {node : Node} (hn : graph.node? id = some node)
    (hholds : Q node.bare) : graph.Upholds Q id := by
  refine ⟨h.lt_nextNode hn, fun bare hbare => ?_⟩
  rw [bare?_of_node? hn, Option.some.injEq] at hbare
  exact hbare ▸ hholds

namespace Upholds

/-- A change that leaves the bare node or takes it away upholds everything. -/
theorem congr (h : graph.Upholds Q id) (hcount : graph.nextNode ≤ changed.nextNode)
    (hbare : changed.bare? id = graph.bare? id ∨ changed.bare? id = none) : changed.Upholds Q id := by
  refine ⟨Nat.lt_of_lt_of_le h.created hcount, fun bare hchanged => ?_⟩
  rcases hbare with hsame | hgone
  · exact h.holds bare (hsame ▸ hchanged)
  · rw [hgone] at hchanged
    cases hchanged

/-- A change of a node upholds what the change of its bare node does. -/
theorem modifyNode (h : graph.Upholds Q id) {f g : Node → Node}
    (hf : ∀ node, (f node).bare = g node.bare)
    (hg : ∀ bare, target = id → graph.bare? id = some bare → Q bare → Q (g bare)) :
    (graph.modifyNode target f).Upholds Q id := by
  refine ⟨h.created, fun bare hbare => ?_⟩
  rw [bare?_modifyNode hf] at hbare
  by_cases hid : id = target
  · rw [if_pos hid] at hbare
    obtain ⟨old, hold, rfl⟩ := Option.map_eq_some_iff.mp hbare
    exact hg old hid.symm hold (h.holds old hold)
  · rw [if_neg hid] at hbare
    exact h.holds bare hbare

end Upholds

end Graph

namespace Edit

open OpGraph.Graph

variable {Q : Node → Prop} {id target : NodeId} {connection : ConnectionId} {port : PortRef}

theorem upholds_addNode (desc : NodeDesc) : Keeps (Upholds Q id) (addNode desc) := fun graph h => by
  have hne : id ≠ ⟨graph.nextNode⟩ := fun heq => by
    have hlt := h.created
    rw [heq] at hlt
    exact Nat.lt_irrefl _ hlt
  refine h.congr (Nat.le_succ _) (.inl ?_)
  change (graph.insertNode desc).bare? id = _
  rw [bare?_insertNode, if_neg hne]

theorem upholds_connect {source destination : PortRef} :
    Keeps (Upholds Q id) (connect source destination) :=
  atomic_connect.keeps fun graph _ result h hrun => by
    obtain ⟨_, _, rfl⟩ := run_connect_eq_ok.mp hrun
    exact h.congr (Nat.le_refl _) (.inl (bare?_insertConnection id))

/-- A change in place upholds what the change of the bare node does. -/
theorem upholds_changeNode {f g : Node → Node} (hf : ∀ node, (f node).bare = g node.bare)
    (hg : target ≠ id ∨ ∀ bare, Q bare → Q (g bare)) :
    Keeps (Upholds Q id)
      (discard (check (·.requireNode target)) >>= fun _ => modify (·.modifyNode target f) : Edit Unit) :=
  atomic_changeNode.keeps fun graph _ result h hrun => by
    obtain ⟨_, rfl⟩ := run_changeNode_eq_ok.mp hrun
    exact h.modifyNode hf fun bare htarget _ hholds =>
      hg.elim (absurd htarget) fun hall => hall bare hholds

/-- A condition outlasts a new type if the type is that of another node or does not matter. -/
theorem upholds_setOpType (opType : String)
    (hQ : target ≠ id ∨ ∀ bare, Q bare → Q { bare with opType }) :
    Keeps (Upholds Q id) (setOpType target opType) :=
  upholds_changeNode (g := ({ · with opType })) (fun _ => rfl) hQ

/-- The edits that only add uphold every condition that can stand additions. -/
theorem additions_upholds (hQ : Node.Persistent Q) : Additions (Upholds Q id) where
  addNode desc _ := upholds_addNode desc
  addInputPort target := atomic_addInputPort.keeps fun graph _ result h hrun => by
    obtain ⟨_, _, _, rfl⟩ := run_addInputPort_eq_ok.mp hrun
    exact h.modifyNode bare_withInput fun bare _ _ => hQ.withInput bare
  addOutputPort target := atomic_addOutputPort.keeps fun graph _ result h hrun => by
    obtain ⟨_, _, _, rfl⟩ := run_addOutputPort_eq_ok.mp hrun
    exact h.modifyNode bare_withOutput fun bare _ _ => hQ.withOutput bare
  connect _ _ := upholds_connect
  annotate port info := atomic_annotate.keeps fun graph _ result h hrun => by
    obtain ⟨hdir, _, hfree, rfl⟩ := run_annotate_eq_ok.mp hrun
    rw [PortRef.eq_output hdir] at hfree
    refine h.modifyNode (g := fun bare =>
        { bare with outputs := bare.outputs.modify port.index ({ · with info := some info }) })
      (fun node => node.bare_annotate port.index info) fun bare htarget hbare hholds => ?_
    rw [htarget, outputInfo?_output hbare] at hfree
    exact hQ.annotate bare port.index info hholds hfree
  removeAttributes target names :=
    upholds_changeNode (g := fun bare => { bare with attributes := bare.attributes.eraseAll names })
      (fun _ => rfl) (.inr fun bare => hQ.attributes bare _)

theorem upholds_renameNode (name : String)
    (hQ : target ≠ id ∨ ∀ bare, Q bare → Q { bare with name }) :
    Keeps (Upholds Q id) (renameNode target name) :=
  atomic_renameNode.keeps fun graph _ result h hrun => by
    obtain ⟨node, _, ⟨_, rfl⟩ | ⟨_, _, rfl⟩⟩ := run_renameNode_eq_ok.mp hrun
    · exact h
    · have hnamed : (graph.modifyNode target ({ · with name })).Upholds Q id :=
        h.modifyNode (g := ({ · with name })) (fun _ => rfl) fun bare htarget _ hholds =>
          hQ.elim (absurd htarget) fun hall => hall bare hholds
      exact ⟨hnamed.created, hnamed.holds⟩

theorem upholds_disconnect : Keeps (Upholds Q id) (disconnect connection) :=
  atomic_disconnect.keeps fun graph ends result h hrun => by
    obtain ⟨_, rfl⟩ := run_disconnect_eq_ok.mp hrun
    exact h.congr (Nat.le_refl _) (.inl (bare?_eraseConnection ends id))

/-- A removal takes a node away or leaves it as it is. -/
theorem upholds_removeNode (mode : RemoveMode) : Keeps (Upholds Q id) (removeNode target mode) :=
  keeps_removeNode (fun _ => upholds_disconnect) fun _ middle _ bare _ hmiddle _ _ _ =>
    hmiddle.congr (Nat.le_refl _) <| by
      rw [Graph.bare?, node?_eraseNode]
      by_cases hid : id = target
      · exact .inr (by rw [if_pos hid]; rfl)
      · exact .inl (by rw [if_neg hid]; rfl)

theorem upholds_rewireDestination : Keeps (Upholds Q id) (rewireDestination connection port) :=
  atomic_rewireDestination.keeps fun graph _ result h hrun => by
    obtain ⟨ends, _, _, _, ⟨_, rfl⟩ | ⟨_, _, rfl⟩⟩ := run_rewireDestination_eq_ok.mp hrun
    · exact h
    · exact h.congr (Nat.le_refl _) (.inl (bare?_moveDestination id))

theorem upholds_rewireSource : Keeps (Upholds Q id) (rewireSource connection port) :=
  atomic_rewireSource.keeps fun graph _ result h hrun => by
    obtain ⟨ends, _, _, _, rfl⟩ := run_rewireSource_eq_ok.mp hrun
    by_cases hsame : port = ends.source
    · rwa [if_pos hsame]
    · rw [if_neg hsame]
      exact h.congr (Nat.le_refl _) (.inl (bare?_moveSource id))

/-- The resolution of a marker upholds a condition that says nothing of names, if it can stand the
type of an identity at the marker. -/
theorem upholds_resolveMarker {found : Match} (hname : ∀ bare name, Q bare → Q { bare with name })
    (htype : ∀ marker, found.require "fake" = .ok marker →
      Keeps (Upholds Q id) (setOpType marker "Identity")) :
    Keeps (Upholds Q id) (resolveMarker found) :=
  keeps_ofExcept_bind fun marker hmarker => keeps_bind (keeps_check _) fun node =>
    keeps_bind (keeps_check _) fun feed => keeps_bind (keeps_check _) fun ends =>
      keeps_bind (keeps_check _) fun producer => by
        by_cases hsingle : producer.usedOutputs = 1
        · rw [if_pos hsingle]
          exact keeps_bind (keeps_forM fun _ _ => upholds_rewireSource) fun _ =>
            keeps_bind (keeps_discard upholds_disconnect) fun _ =>
              keeps_bind (upholds_renameNode _ (.inr fun bare => hname bare _)) fun _ =>
                keeps_bind (upholds_renameNode _ (.inr fun bare => hname bare _)) fun _ =>
                  keeps_discard (upholds_removeNode .strict)
        · rw [if_neg hsingle]
          exact htype marker hmarker

end Edit

end OpGraph
