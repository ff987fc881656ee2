import OpGraph.Proofs.Reachable

/-!
# Names that the graph generates

A new node takes the requested name if no node carries it. Otherwise numbers are appended, one after
the other from one on, until a name is free. Nothing in this search says when to stop. It does stop:
different numbers give different names, and in a graph whose records agree the index has no more
names than the graph has nodes. As the requested name is one of them, the search looks at no more
suffixes than there are nodes.
-/

namespace OpGraph.Graph

variable {graph : Graph} {base name : String} {number last : Nat}

/-- The search for a free name with a suffix, from one number on, ends after some tries with a name. -/
inductive SearchEnds (graph : Graph) (base : String) : (number tries : Nat) → (name : String) → Prop where
  /-- The name with this number is free. -/
  | free {number : Nat} (unused : graph.idOf? (suffixed base number) = none) :
    SearchEnds graph base number 1 (suffixed base number)
  /-- The name with this number is in use, and the search goes on with the next number. -/
  | taken {number tries : Nat} {name : String}
    (used : (graph.idOf? (suffixed base number)).isSome = true)
    (next : SearchEnds graph base (number + 1) tries name) :
    SearchEnds graph base number (tries + 1) name

/-- No node carries the name. -/
def Unnamed (graph : Graph) (name : String) : Prop :=
  ∀ id node, graph.node? id = some node → node.name ≠ name

/-! ### The search -/

/-- The search ends in one way only. -/
theorem SearchEnds.unique {tries tries' : Nat} {name' : String}
    (h : graph.SearchEnds base number tries name) (h' : graph.SearchEnds base number tries' name') :
    tries = tries' ∧ name = name' := by
  induction h generalizing tries' name' with
  | free unused =>
    cases h' with
    | free => exact ⟨rfl, rfl⟩
    | taken used => simp [unused] at used
  | taken used _ ih =>
    cases h' with
    | free unused => simp [unused] at used
    | taken _ next =>
      obtain ⟨rfl, rfl⟩ := ih next
      exact ⟨rfl, rfl⟩

/-- The search passes over names in use and ends at the first one that is free. -/
theorem searchEnds_of_used (hle : number ≤ last) (hfree : graph.idOf? (suffixed base last) = none)
    (hused : ∀ passed, number ≤ passed → passed < last →
      (graph.idOf? (suffixed base passed)).isSome = true) :
    graph.SearchEnds base number (last + 1 - number) (suffixed base last) := by
  induction hle using Nat.decreasingInduction with
  | self =>
    rw [Nat.add_sub_cancel_left]
    exact .free hfree
  | of_succ number hlt ih =>
    have hnext := ih fun passed hpassed => hused passed (Nat.le_of_succ_le hpassed)
    have htries : last + 1 - number = last + 1 - (number + 1) + 1 := by omega
    rw [htries]
    exact .taken (hused number (Nat.le_refl number) hlt) hnext

/-- From one on, the search tries as many suffixes as the least number says that gives a free name. -/
theorem searchEnds_of_isLeast
    (h : IsLeast {number | 1 ≤ number ∧ graph.idOf? (suffixed base number) = none} number) :
    graph.SearchEnds base 1 number (suffixed base number) := by
  have hused : ∀ passed, 1 ≤ passed → passed < number →
      (graph.idOf? (suffixed base passed)).isSome = true := by
    intro passed hpos hlt
    by_contra hnone
    exact Nat.not_le.mpr hlt (h.2 ⟨hpos, Option.not_isSome_iff_eq_none.mp hnone⟩)
  exact searchEnds_of_used h.1.1 h.1.2 hused

/-! ### Its length -/

/-- A name with a number appended is longer than the name. -/
theorem ne_suffixed (base : String) (number : Nat) : base ≠ suffixed base number := by
  intro h
  have hlength := congrArg String.length h
  change base.length = (base ++ "_" ++ toString number).length at hlength
  rw [String.length_append, String.length_append] at hlength
  have hmark : "_".length = 1 := rfl
  omega

/-- With a name, fewer suffixes of it are in use than names altogether, so the least free one is at most
their number. -/
theorem le_size_names_of_isLeast (hbase : (graph.idOf? base).isSome = true)
    (h : IsLeast {number | 1 ≤ number ∧ graph.idOf? (suffixed base number) = none} number) :
    number ≤ graph.names.size := by
  let passed := (List.range' 1 (number - 1)).map (suffixed base)
  have hnodup : (base :: passed).Nodup := by
    refine List.nodup_cons.mpr ⟨fun hmem => ?_, nodup_map_suffixed base (number - 1)⟩
    obtain ⟨other, _, hother⟩ := List.mem_map.mp hmem
    exact ne_suffixed base other hother.symm
  have hused : ∀ name ∈ base :: passed, (graph.idOf? name).isSome = true := by
    intro name hname
    rcases List.mem_cons.mp hname with rfl | hpassed
    · exact hbase
    · obtain ⟨other, hother, rfl⟩ := List.mem_map.mp hpassed
      have hrange := List.mem_range'_1.mp hother
      by_contra hnone
      have hle := h.2 ⟨hrange.1, Option.not_isSome_iff_eq_none.mp hnone⟩
      omega
  have hlength := graph.length_le_size_of_used hnodup hused
  rw [List.length_cons, List.length_map, List.length_range'] at hlength
  omega

namespace Registered

/-- No two names belong to one node, so there are no more names than nodes. -/
theorem size_names_le (h : graph.Registered) : graph.names.size ≤ graph.nodes.size := by
  have hname : ∀ entry ∈ graph.names.toList, graph.nameOf? entry.2 = some entry.1 := fun entry hentry =>
    (h.named entry.1 entry.2).mp ((graph.names.get?_eq_some_iff entry.1 entry.2).mpr hentry)
  have hnodup : (graph.names.toList.map Prod.snd).Nodup := by
    refine List.Nodup.map_on (fun first hfirst second hsecond howner => ?_)
      (List.Nodup.of_map _ graph.names.nodup_keys)
    have hsame := hname first hfirst
    rw [howner, hname second hsecond, Option.some.injEq] at hsame
    exact Prod.ext hsame.symm howner
  have hnodes : graph.names.toList.map Prod.snd ⊆ graph.nodes.keys := by
    intro id hid
    obtain ⟨entry, hentry, rfl⟩ := List.mem_map.mp hid
    obtain ⟨node, hnode, _⟩ := Option.map_eq_some_iff.mp (hname entry hentry)
    exact (graph.nodes.mem_keys_iff entry.2).mpr (Option.isSome_iff_exists.mpr ⟨node, hnode⟩)
  calc graph.names.size = (graph.names.toList.map Prod.snd).length := (List.length_map _).symm
    _ ≤ graph.nodes.keys.length := (hnodup.subperm hnodes).length_le
    _ = graph.nodes.size := List.length_map _

/-- The index finds nothing exactly under the names that no node carries. -/
theorem idOf?_eq_none_iff (h : graph.Registered) : graph.idOf? name = none ↔ graph.Unnamed name := by
  rw [Option.eq_none_iff_forall_ne_some]
  constructor
  · rintro hnone id node hnode rfl
    exact hnone id ((h.named node.name id).mpr (Option.map_eq_some_iff.mpr ⟨node, hnode, rfl⟩))
  · intro hunnamed id hid
    obtain ⟨node, hnode, hname⟩ := Option.map_eq_some_iff.mp ((h.named name id).mp hid)
    exact hunnamed id node hnode hname

/-- A new node takes no record and no name away from another one. -/
theorem kept_of_insertNode (h : graph.Registered) (desc : NodeDesc) :
    (∀ id node, graph.node? id = some node → (graph.insertNode desc).node? id = some node) ∧
      ∀ name id, graph.idOf? name = some id → (graph.insertNode desc).idOf? name = some id := by
  constructor
  · intro id node hnode
    have hid : id ≠ ⟨graph.nextNode⟩ := by
      rintro rfl
      rw [h.node?_next] at hnode
      cases hnode
    rw [node?_insertNode, if_neg hid, hnode]
  · intro name id hid
    have hname : name ≠ (graph.newNode desc).name := by
      rintro rfl
      have hfree : graph.idOf? (graph.newNode desc).name = none := idOf?_freshName _ _
      rw [hfree] at hid
      cases hid
    rw [idOf?_insertNode, if_neg hname, hid]

end Registered

/-! ### The name of a new node -/

/-- The search for the name of a new node ends, and at the least free suffix. In a reachable graph a
new node carries the requested name if no other node does. Otherwise the search ends after no more
tries than there are nodes, with the least number from one on that makes the name of no other node. The
other nodes stay as they are, and every name stays with its owner. -/
theorem name_of_addNode (h : graph.Reachable) (desc : NodeDesc) :
    let requested := desc.name.getD (suffixed desc.opType graph.nextNode)
    ∃ later node, (Edit.addNode desc).run graph = .ok ⟨graph.nextNode⟩ later ∧
      later.node? ⟨graph.nextNode⟩ = some node ∧
      (graph.Unnamed requested → node.name = requested) ∧
      (¬graph.Unnamed requested → ∃ number ≤ graph.nodes.size,
        (∀ tries name, graph.SearchEnds requested 1 tries name ↔ tries = number ∧ name = node.name) ∧
          node.name = suffixed requested number ∧
          IsLeast {number | 1 ≤ number ∧ graph.Unnamed (suffixed requested number)} number) ∧
      (∀ id old, graph.node? id = some old → later.node? id = some old) ∧
      ∀ name id, graph.idOf? name = some id → later.idOf? name = some id := by
  intro requested
  have hregistered := h.coherent.registered
  have hkept := hregistered.kept_of_insertNode desc
  refine ⟨graph.insertNode desc, graph.newNode desc, Edit.run_addNode desc graph, ?_, ?free, ?taken,
    hkept.1, hkept.2⟩
  · rw [node?_insertNode, if_pos rfl]
  case free =>
    intro hunnamed
    exact graph.freshName_of_free requested (hregistered.idOf?_eq_none_iff.mpr hunnamed)
  case taken =>
    intro htaken
    have hused : (graph.idOf? requested).isSome = true :=
      Option.isSome_iff_ne_none.mpr fun hnone => htaken (hregistered.idOf?_eq_none_iff.mp hnone)
    obtain ⟨number, hleast, hname⟩ := graph.freshName_of_taken requested hused
    change (graph.newNode desc).name = suffixed requested number at hname
    have hsearch := searchEnds_of_isLeast hleast
    rw [← hname] at hsearch
    have hends : ∀ tries name, graph.SearchEnds requested 1 tries name ↔
        tries = number ∧ name = (graph.newNode desc).name := fun tries name =>
      ⟨fun hother => hother.unique hsearch, fun heq => heq.1 ▸ heq.2 ▸ hsearch⟩
    have hbound := (le_size_names_of_isLeast hused hleast).trans hregistered.size_names_le
    simp only [hregistered.idOf?_eq_none_iff] at hleast
    exact ⟨number, hbound, hends, hname, hleast⟩

/-- Three nodes, two of which carry the name of the first with a number. -/
def numberedNodes : Graph :=
  empty.afterAll
    [.addNode { opType := "Relu", name := some "act" },
      .addNode { opType := "Relu", name := some "act_1" },
      .addNode { opType := "Relu", name := some "act_3" }]

/-- A further node with the name of the first takes the number between theirs. -/
theorem name_of_addNode_numberedNodes :
    let desc : NodeDesc := { opType := "Relu", name := some "act" }
    numberedNodes.Reachable ∧ ¬numberedNodes.Unnamed "act" ∧
      ∃ later node, (Edit.addNode desc).run numberedNodes = .ok ⟨3⟩ later ∧
        later.node? ⟨3⟩ = some node ∧ node.name = "act_2" ∧
        (∃ number ≤ 3,
          (∀ tries name, numberedNodes.SearchEnds "act" 1 tries name ↔ tries = number ∧ name = "act_2") ∧
          IsLeast {number | 1 ≤ number ∧ numberedNodes.Unnamed (suffixed "act" number)} number) ∧
        later.idOf? "act" = some ⟨0⟩ := by
  intro desc
  have hreachable : numberedNodes.Reachable := ⟨.empty, .empty, history_afterAll _ _⟩
  have hused : ¬numberedNodes.Unnamed "act" :=
    (hreachable.coherent.registered.idOf?_eq_none_iff).not.mp (by decide +kernel)
  have hsize : numberedNodes.nodes.size = 3 ∧ numberedNodes.nextNode = 3 := by decide +kernel
  obtain ⟨later, node, hrun, hnode, _, htaken, _, hnames⟩ := name_of_addNode hreachable desc
  rw [hsize.2] at hrun hnode
  have hname : (((Edit.addNode desc).after numberedNodes).node? ⟨3⟩).map (·.name) = some "act_2" := by
    decide +kernel
  rw [Edit.after_of_run_ok hrun, hnode, Option.map_some, Option.some.injEq] at hname
  obtain ⟨number, hbound, hends, _, hleast⟩ := htaken hused
  rw [hsize.1] at hbound
  simp only [hname] at hends
  exact ⟨hreachable, hused, later, node, hrun, hnode, hname, ⟨number, hbound, hends, hleast⟩,
    hnames "act" ⟨0⟩ (by decide +kernel)⟩

end OpGraph.Graph
