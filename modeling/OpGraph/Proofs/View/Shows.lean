import OpGraph.Proofs.View.Put

/-!
# Additions to a graph, read by name

While an edit runs, some nodes are known by number and by name, and the rest of the graph is known
by what it says of the names. The lemmas of this module carry this knowledge through the single
additions of which terminals and the passes for poolings and gathers are made.
-/

namespace OpGraph

namespace Graph

variable {graph : Graph} {named : NodeId → Option String} {seen : View} {id other : NodeId}
  {name otherName base : String} {reading otherReading : Reading}

/-- The records of the graph agree, these nodes have these names, and this is said of the names. -/
structure Shows (graph : Graph) (named : NodeId → Option String) (seen : View) : Prop where
  /-- The records agree. -/
  coherent : graph.Coherent
  /-- The nodes have these names. -/
  named : ∀ id name, named id = some name → graph.nameOf? id = some name
  /-- This is said of the names. -/
  view_eq : graph.view = seen

/-- All that a coherent graph shows. -/
theorem Coherent.shows (h : graph.Coherent) : graph.Shows graph.nameOf? graph.view :=
  ⟨h, fun _ _ hname => hname, rfl⟩

namespace Shows

/-- Fewer nodes are known by name. -/
theorem mono {fewer : NodeId → Option String} (h : graph.Shows named seen)
    (hfewer : ∀ id name, fewer id = some name → named id = some name) : graph.Shows fewer seen :=
  ⟨h.coherent, fun id name hname => h.named id name (hfewer id name hname), h.view_eq⟩

variable (h : graph.Shows named seen)
include h

/-- A node that is known by name is found under it. -/
theorem idOf? (hname : named id = some name) : graph.idOf? name = some id :=
  (h.coherent.registered.named name id).mpr (h.named id name hname)

/-- What is said of a node. -/
theorem reading?_eq (hname : graph.nameOf? id = some name) : graph.reading? id = seen name := by
  rw [← h.view_eq, h.coherent.registered.view_of_nameOf? hname]

/-- A node that is known by name exists. -/
theorem exists_bare (hname : named id = some name) (hseen : seen name = some reading) :
    ∃ bare, graph.bare? id = some bare ∧
      bare.reading (graph.feedName? id) (graph.isUsed id) = reading :=
  Option.map_eq_some_iff.mp ((h.reading?_eq (h.named id name hname)).trans hseen)

/-- A node that is known by name is found in the graph. -/
theorem exists_node (hname : named id = some name) :
    ∃ node, graph.node? id = some node ∧ node.name = name :=
  Option.map_eq_some_iff.mp (h.named id name hname)

/-- Nothing is said of a name that no node carries. -/
theorem seen_of_free (hfree : graph.idOf? name = none) : seen name = none := by
  rw [← h.view_eq, view, hfree]
  rfl

/-- A new node gets the first name of which nothing is said. -/
theorem freshName_eq (base : String) : graph.freshName base = seen.fresh base := by
  rw [h.coherent.registered.freshName_eq, h.view_eq]
  rfl

/-- Nothing is said of the name of a new node. -/
theorem seen_fresh (base : String) : seen (seen.fresh base) = none := by
  rw [← h.freshName_eq]
  exact h.seen_of_free (graph.idOf?_freshName base)

/-- The name of a new node is none of which something is said. -/
theorem fresh_ne (hseen : seen name = some reading) (base : String) : seen.fresh base ≠ name :=
  ne_of_apply_ne seen (by rw [h.seen_fresh, hseen]; nofun)

/-- The next number is not that of a node that is known by name. -/
theorem named_next : named ⟨graph.nextNode⟩ = none := by
  rw [Option.eq_none_iff_forall_ne_some]
  intro name hname
  obtain ⟨node, hn, _⟩ := h.exists_node hname
  rw [h.coherent.registered.node?_next] at hn
  cases hn

/-- A new node is known by the name that it was given, and its description is said of it. -/
theorem insertNode {desc : NodeDesc} (hbase : desc.name = some base) :
    (graph.insertNode desc).Shows (Function.update named ⟨graph.nextNode⟩ (some (seen.fresh base)))
      (seen.put (seen.fresh base) desc.reading) := by
  have hcoherent := h.coherent.change (.insertNode desc)
  have hnew : (graph.newNode desc).name = seen.fresh base := by
    rw [← h.freshName_eq]
    simp [newNode, hbase]
  refine ⟨hcoherent, fun id name hname => ?_, hcoherent.registered.view_eq (fun id name hname => ?_)
    fun name hfree => ?_⟩
  · rw [nameOf?_insertNode, hnew]
    by_cases hid : id = ⟨graph.nextNode⟩
    · rw [hid, Function.update_self] at hname
      rw [if_pos hid, hname]
    · rw [Function.update_of_ne hid] at hname
      rw [if_neg hid, h.named id name hname]
  · rw [nameOf?_insertNode, hnew] at hname
    rw [h.coherent.reading?_insertNode]
    by_cases hid : id = ⟨graph.nextNode⟩
    · rw [if_pos hid, Option.some.injEq] at hname
      rw [if_pos hid, ← hname, View.put_self]
    · rw [if_neg hid] at hname
      rw [if_neg hid, h.reading?_eq hname, View.put_of_ne]
      rintro rfl
      have hfound := (h.coherent.registered.named _ id).mpr hname
      rw [← h.freshName_eq, graph.idOf?_freshName] at hfound
      cases hfound
  · rw [idOf?_insertNode, hnew] at hfree
    by_cases hname : name = seen.fresh base
    · rw [if_pos hname] at hfree
      cases hfree
    · rw [if_neg hname] at hfree
      rw [View.put_of_ne hname, h.seen_of_free hfree]

/-- Names of different nodes differ. -/
theorem name_ne (hname : named id = some name) (hother : graph.nameOf? other = some otherName)
    (hne : other ≠ id) : otherName ≠ name := by
  rintro rfl
  have hfound := (h.coherent.registered.named _ other).mpr hother
  rw [h.idOf? hname, Option.some.injEq] at hfound
  exact hne hfound.symm

/-- A neutral change of a node changes what is said of its name. -/
theorem modifyNode (hname : named id = some name) (hseen : seen name = some reading) {f g : Node → Node}
    (hf : Node.Neutral f) (hg : ∀ node, (f node).bare = g node.bare)
    (heffect : ∀ bare : Node, bare.reading reading.feeds reading.used = reading →
      (g bare).reading reading.feeds reading.used = otherReading) :
    (graph.modifyNode id f).Shows named (seen.put name otherReading) := by
  have hcoherent := h.coherent.change (.modifyNode id hf)
  have hown := h.named id name hname
  refine ⟨hcoherent, fun other otherName hother => ?_,
    hcoherent.registered.view_eq (fun other otherName hother => ?_) fun free hfree => ?_⟩
  · rw [nameOf?_modifyNode hf.name, h.named other otherName hother]
  · rw [nameOf?_modifyNode hf.name] at hother
    rw [reading?_modifyNode hf hg]
    by_cases hid : other = id
    · subst hid
      obtain ⟨bare, hbare, rfl⟩ := h.exists_bare hname hseen
      rw [if_pos rfl, hbare, Option.map_some, ← Option.some.inj (hown.symm.trans hother), View.put_self]
      exact congrArg some (heffect bare rfl)
    · rw [if_neg hid, h.reading?_eq hother, View.put_of_ne (h.name_ne hname hother hid)]
  · rw [idOf?_modifyNode] at hfree
    rw [View.put_of_ne, h.seen_of_free hfree]
    rintro rfl
    rw [h.idOf? hname] at hfree
    cases hfree

/-- A connection between two nodes changes what is said of their names. -/
theorem insertConnection {index position : Nat} (hname : named id = some name)
    (hseen : seen name = some reading) (hother : named other = some otherName)
    (hseenOther : seen otherName = some otherReading) (hne : other ≠ id)
    (hcheck : graph.checkConnect (.output id index) (.input other position) = .ok ()) :
    (graph.insertConnection (.output id index) (.input other position)).Shows named
      ((seen.put name (reading.use index)).put otherName
        (otherReading.feed position (name, index))) := by
  have hcoherent := h.coherent.change (.insertConnection hcheck)
  have hown := h.named id name hname
  have howner := h.named other otherName hother
  have hnames := h.name_ne hname howner hne
  have hreading := h.coherent.reading?_insertConnection hcheck hown hne
  refine ⟨hcoherent, fun third thirdName hthird => ?_,
    hcoherent.registered.view_eq (fun third thirdName hthird => ?_) fun free hfree => ?_⟩
  · rw [nameOf?_insertConnection, h.named third thirdName hthird]
  · rw [nameOf?_insertConnection] at hthird
    rw [hreading, h.reading?_eq hthird]
    change (if third = other then _ else if third = id then _ else _) = _
    by_cases hdestination : third = other
    · subst hdestination
      rw [if_pos rfl, ← Option.some.inj (howner.symm.trans hthird), View.put_self, hseenOther]
      rfl
    · rw [if_neg hdestination, View.put_of_ne (h.name_ne hother hthird hdestination)]
      by_cases hsource : third = id
      · subst hsource
        rw [if_pos rfl, ← Option.some.inj (hown.symm.trans hthird), View.put_self, hseen]
        rfl
      · rw [if_neg hsource, View.put_of_ne (h.name_ne hname hthird hsource)]
  · change graph.idOf? free = none at hfree
    rw [View.put_of_ne, View.put_of_ne, h.seen_of_free hfree]
    · rintro rfl
      rw [h.idOf? hname] at hfree
      cases hfree
    · rintro rfl
      rw [h.idOf? hother] at hfree
      cases hfree

end Shows

end Graph

/-! ### Edits -/

namespace Edit

variable {named : NodeId → Option String} {seen : View} {id other : NodeId}
  {name otherName base : String} {reading otherReading : Reading}

theorem ensures_shows_addNode {desc : NodeDesc} (hbase : desc.name = some base) :
    Ensures (·.Shows named seen) (addNode desc) fun new graph => named new = none ∧
      graph.Shows (Function.update named new (some (seen.fresh base)))
        (seen.put (seen.fresh base) desc.reading) := fun graph _ _ h hrun => by
  cases hrun
  exact ⟨h.named_next, h.insertNode hbase⟩

theorem ensures_shows_connect {index position : Nat} (hname : named id = some name)
    (hseen : seen name = some reading) (hother : named other = some otherName)
    (hseenOther : seen otherName = some otherReading) (hne : other ≠ id) :
    Ensures (·.Shows named seen) (connect (.output id index) (.input other position)) fun _ graph =>
      graph.Shows named ((seen.put name (reading.use index)).put otherName
        (otherReading.feed position (name, index))) := fun _ _ _ h hrun => by
  obtain ⟨hcheck, _, rfl⟩ := run_connect_eq_ok.mp hrun
  exact h.insertConnection hname hseen hother hseenOther hne hcheck

variable (hname : named id = some name) (hseen : seen name = some reading)
include hname hseen

theorem ensures_shows_setOpType (opType : String) :
    Ensures (·.Shows named seen) (setOpType id opType) fun _ graph =>
      graph.Shows named (seen.put name { reading with opType }) := fun _ _ _ h hrun => by
  obtain ⟨_, rfl⟩ := run_setOpType_eq_ok.mp hrun
  refine h.modifyNode hname hseen (g := ({ · with opType })) (.setOpType opType) (fun _ => rfl) ?_
  rintro bare hbare
  rw [← hbare]
  rfl

theorem ensures_shows_removeAttributes (names : List String) :
    Ensures (·.Shows named seen) (removeAttributes id names) fun _ graph =>
      graph.Shows named
        (seen.put name { reading with attributes := reading.attributes.eraseAll names }) :=
  fun _ _ _ h hrun => by
    obtain ⟨_, rfl⟩ := run_removeAttributes_eq_ok.mp hrun
    refine h.modifyNode hname hseen
      (g := fun node => { node with attributes := node.attributes.eraseAll names })
      (.attributes (·.eraseAll names)) (fun _ => rfl) ?_
    rintro bare hbare
    rw [← hbare]
    rfl

theorem ensures_shows_addInputPort :
    Ensures (·.Shows named seen) (addInputPort id) fun _ graph =>
      graph.Shows named (seen.put name reading.withInput) := fun _ _ _ h hrun => by
  obtain ⟨_, _, _, rfl⟩ := run_addInputPort_eq_ok.mp hrun
  refine h.modifyNode hname hseen .withInput bare_withInput ?_
  rintro bare hbare
  rw [← hbare]
  simp [Node.reading, Edit.withInput, Reading.withInput]

theorem ensures_shows_addOutputPort :
    Ensures (·.Shows named seen) (addOutputPort id) fun index graph => index = reading.outputs ∧
      graph.Shows named (seen.put name reading.withOutput) := fun graph _ _ h hrun => by
  obtain ⟨node, hn, rfl, rfl⟩ := run_addOutputPort_eq_ok.mp hrun
  refine ⟨?_, h.modifyNode hname hseen .withOutput bare_withOutput ?_⟩
  · obtain ⟨bare, hbare, rfl⟩ := h.exists_bare hname hseen
    rw [Graph.bare?_of_node? hn, Option.some.injEq] at hbare
    rw [← hbare]
    exact (node.portCount_bare .output).symm
  · rintro bare hbare
    rw [← hbare]
    simp only [Node.reading, Edit.withOutput, Reading.withOutput, List.length_append,
      List.length_singleton, Reading.mk.injEq, true_and, and_true]
    funext index
    rw [List.getElem?_append]
    split
    · rfl
    · rename_i hlast
      rw [List.getElem?_eq_none (Nat.not_lt.mp hlast)]
      cases index - bare.outputs.length <;> simp

theorem ensures_shows_annotate {index : Nat} (info : TensorInfo) (hindex : index < reading.outputs) :
    Ensures (·.Shows named seen) (annotate (.output id index) info) fun _ graph =>
      graph.Shows named (seen.put name (reading.inform index info)) := fun _ _ _ h hrun => by
  obtain ⟨_, _, _, rfl⟩ := run_annotate_eq_ok.mp hrun
  refine h.modifyNode hname hseen (g := fun node =>
      { node with outputs := node.outputs.modify index ({ · with info := some info }) })
    (.annotate index info) (fun node => node.bare_annotate index info) ?_
  rintro bare hbare
  rw [← hbare] at hindex ⊢
  change index < bare.outputs.length at hindex
  simp only [Node.reading, Reading.inform, List.length_modify, Reading.mk.injEq, true_and, and_true]
  funext position
  rw [List.getElem?_modify, Function.update_apply]
  by_cases hposition : position = index
  · rw [if_pos hposition, hposition, List.getElem?_eq_getElem hindex]
    simp
  · rw [if_neg hposition]
    cases bare.outputs[position]? <;> simp [Ne.symm hposition]

end Edit

end OpGraph
