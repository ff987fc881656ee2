import OpGraph.Proofs.View.Put

/-!
# Rewriting, read by name

What the passes for poolings and gathers make of a node depends on what is said of the node and on
which of the names made for it are free. It changes what is said of the node and of the names that
are made for it. Names made for different nodes differ, so two nodes can be rewritten in any order,
and any number of nodes as well.
-/

namespace OpGraph

/-- Nodes of the source for which the passes without an order of their own look. -/
inductive RawKind where
  /-- A pooling by the maximum. -/
  | maxPooling
  /-- A pooling by the average. -/
  | avgPooling
  /-- A gather with its axis in an attribute. -/
  | gather
  deriving DecidableEq

namespace Reading

variable (reading : Reading)

/-- Which kind of raw node is described, if it is one. -/
def kind? : Option RawKind :=
  if reading.opType = "AttributedGather" then some .gather
  else if reading.opType = "Pooling" then
    if reading.attributes.str? "pool_method" = some "max" then some .maxPooling
    else if reading.attributes.str? "pool_method" = some "avg" then some .avgPooling
    else none
  else none

/-- Nodes of other types are not raw. -/
theorem kind?_of_opType (htype : reading.opType ∉ ["AttributedGather", "Pooling"]) :
    reading.kind? = none := by
  simp only [List.mem_cons, List.not_mem_nil, or_false, not_or] at htype
  rw [kind?, if_neg htype.1, if_neg htype.2]

/-- Axis of a gather, unless the attribute holds something else. -/
def axis? : Option Int :=
  match reading.attributes.get? "axis" with
  | none => some 0
  | some value => value.int?

/-- The axis of a gather cannot be moved to the third input. -/
def Stuck : Prop := reading.kind? = some .gather ∧ (reading.axis? = none ∨ reading.feeds 2 ≠ none)

/-- Output ports that nothing consumes. -/
def openPorts : List Nat := (List.range reading.outputs).filter fun index => !reading.used index

/-- Some output ports get consumed. -/
def useAll (ports : List Nat) : Reading := ports.foldl use reading

/-- A second output port, with what is known about the first. -/
def withIndices : Reading :=
  if reading.outputs < 2 then
    match reading.infos 0 with
    | some info => reading.withOutput.inform reading.outputs info
    | none => reading.withOutput
  else reading

/-- A pooling of that type, without the attributes that say so. -/
def pooled (opType : String) (names : List String) : Reading :=
  { reading with opType, attributes := reading.attributes.eraseAll names }

/-- A gather that takes its axis from the named constant. -/
def gathered (const : String) : Reading :=
  { reading with
    opType := "Gather"
    attributes := reading.attributes.eraseAll ["axis"]
    inputs := reading.inputs + (3 - reading.inputs)
    feeds := Function.update reading.feeds 2 (some (const, 0)) }

/-- The terminal of an output port. -/
def terminal (owner : String) (attributes : Attributes) (index : Nat) : Reading where
  opType := "Result"
  attributes := .ofList [("keep_output_port", .bool (attributes.isSet "remove_values_output"))]
  inputs := 1
  feeds := Function.update (fun _ => none) 0 (some (owner, index))
  outputs := 0
  infos _ := none
  used _ := false

/-- The constant with an axis. -/
def axisConst (axis : Int) : Reading where
  opType := "Const"
  attributes := .ofList [("value", .ints [axis])]
  inputs := 0
  feeds _ := none
  outputs := 1
  infos := Function.update (fun _ => none) 0 (some (.ofValue [axis]))
  used := Function.update (fun _ => false) 0 true

@[simp] theorem opType_useAll (ports : List Nat) : (reading.useAll ports).opType = reading.opType := by
  induction ports generalizing reading with
  | nil => rfl
  | cons head tail ih => exact ih (reading.use head)

end Reading

namespace View

variable {seen seen' : View} {owner other name : String} {reading : Reading} {kind : RawKind}

/-- Terminals for some output ports. -/
noncomputable def terminals (seen : View) (owner : String) (attributes : Attributes) (ports : List Nat) :
    List (String × Reading) :=
  ports.map fun index => (seen.fresh (terminalName owner index), .terminal owner attributes index)

/-- What is said of a pooling and of its terminals in the end. -/
noncomputable def poolGrowth (seen : View) (owner : String) (reading : Reading) :
    List (String × Reading) :=
  (owner, reading.useAll reading.openPorts) :: seen.terminals owner reading.attributes reading.openPorts

/-- What is said of a gather and of the constant with its axis in the end. -/
noncomputable def gatherGrowth (seen : View) (owner : String) (reading : Reading) :
    List (String × Reading) :=
  let const := seen.fresh (axisName owner)
  [(owner, reading.gathered const), (const, .axisConst (reading.axis?.getD 0))]

/-- What is said in the end of a raw node and of the nodes made for it. -/
noncomputable def growthOf (seen : View) (owner : String) (reading : Reading) :
    RawKind → List (String × Reading)
  | .maxPooling =>
    seen.poolGrowth owner (reading.withIndices.pooled "MaxPool" ["pool_method", "exclude_pad"])
  | .avgPooling => seen.poolGrowth owner (reading.pooled "AvgPool" ["pool_method"])
  | .gather => seen.gatherGrowth owner reading

/-- Which kind of raw node carries a name, if one does. -/
def kindAt (seen : View) (name : String) : Option RawKind := (seen name).bind Reading.kind?

/-- The node of that name is a gather the axis of which cannot be moved. -/
def StuckAt (seen : View) (name : String) : Prop := ∃ reading, seen name = some reading ∧ reading.Stuck

/-- What is said in the end of the node of that name and of the nodes made for it, if it is raw. -/
noncomputable def growth (seen : View) (owner : String) : List (String × Reading) :=
  ((seen owner).bind fun reading => reading.kind?.map (seen.growthOf owner reading)).getD []

/-- Rewrite the node of that name, if it is raw. -/
noncomputable def rewrite (seen : View) (owner : String) : View := seen.putAll (seen.growth owner)

/-- A raw node changes as its kind says. -/
theorem growth_of_kind? (hseen : seen owner = some reading) (hkind : reading.kind? = some kind) :
    seen.growth owner = seen.growthOf owner reading kind := by
  rw [growth, hseen, Option.bind_some, hkind]
  rfl

/-- A node that is not raw is left alone. -/
theorem growth_of_not_raw (h : seen.kindAt owner = none) : seen.growth owner = [] := by
  unfold growth
  cases hseen : seen owner with
  | none => rfl
  | some reading =>
    rw [kindAt, hseen, Option.bind_some] at h
    rw [Option.bind_some, h]
    rfl

theorem exists_of_kindAt (h : seen.kindAt owner = some kind) :
    ∃ reading, seen owner = some reading ∧ reading.kind? = some kind :=
  Option.bind_eq_some_iff.mp h

/-! ### What changes -/

/-- The names of which something new is said are that of the raw node and first free ones made for
it, and no node of these names is raw then. -/
theorem of_mem_growthOf {entry : String × Reading} (h : entry ∈ seen.growthOf owner reading kind) :
    entry.2.kind? = none ∧
      (entry.1 = owner ∨ ∃ base, entry.1 = seen.fresh base ∧ MadeFor owner entry.1) := by
  have hpool : ∀ pooling : Reading, pooling.opType ∉ ["AttributedGather", "Pooling"] →
      entry ∈ seen.poolGrowth owner pooling → entry.2.kind? = none ∧
        (entry.1 = owner ∨ ∃ base, entry.1 = seen.fresh base ∧ MadeFor owner entry.1) := by
    intro pooling htype hentry
    rcases List.mem_cons.mp hentry with rfl | hentry
    · exact ⟨Reading.kind?_of_opType _ (by rwa [Reading.opType_useAll]), .inl rfl⟩
    · obtain ⟨index, _, rfl⟩ := List.mem_map.mp hentry
      exact ⟨Reading.kind?_of_opType _ (by simp [Reading.terminal]),
        .inr ⟨_, rfl, _, .inr ⟨index, rfl⟩, seen.growsFrom_fresh _⟩⟩
  cases kind with
  | maxPooling => exact hpool _ (by simp [Reading.pooled]) h
  | avgPooling => exact hpool _ (by simp [Reading.pooled]) h
  | gather =>
    simp only [growthOf, gatherGrowth, List.mem_cons, List.not_mem_nil, or_false] at h
    rcases h with rfl | rfl
    · exact ⟨Reading.kind?_of_opType _ (by simp [Reading.gathered]), .inl rfl⟩
    · exact ⟨Reading.kind?_of_opType _ (by simp [Reading.axisConst]),
        .inr ⟨_, rfl, _, .inl rfl, seen.growsFrom_fresh _⟩⟩

theorem of_mem_growth {entry : String × Reading} (h : entry ∈ seen.growth owner) :
    (seen owner).isSome = true ∧ entry.2.kind? = none ∧
      (entry.1 = owner ∨ ∃ base, entry.1 = seen.fresh base ∧ MadeFor owner entry.1) := by
  cases hkind : seen.kindAt owner with
  | none =>
    rw [growth_of_not_raw hkind] at h
    exact absurd h List.not_mem_nil
  | some kind =>
    obtain ⟨reading, hseen, hraw⟩ := exists_of_kindAt hkind
    rw [growth_of_kind? hseen hraw] at h
    exact ⟨by rw [hseen]; rfl, of_mem_growthOf h⟩

/-- Something new is said of a raw node itself. -/
theorem owner_mem_growth (h : seen.kindAt owner = some kind) :
    ∃ entry ∈ seen.growth owner, entry.1 = owner := by
  obtain ⟨reading, hseen, hraw⟩ := exists_of_kindAt h
  rw [growth_of_kind? hseen hraw]
  cases kind <;> exact ⟨_, List.mem_cons_self, rfl⟩

/-- Of a name that is in use the same is said as before unless it is that of the node. -/
theorem Bounded.rewrite_of_isSome (h : seen.Bounded) (hname : (seen name).isSome = true)
    (hother : name ≠ owner) : seen.rewrite owner name = seen name := by
  refine putAll_of_notMem fun entry hentry => ?_
  rcases (of_mem_growth hentry).2.2 with howner | ⟨base, hbase, _⟩
  · rw [howner]
    exact hother.symm
  · rintro rfl
    rw [hbase, h.fresh_eq_none] at hname
    cases hname

/-- A name that gets in use was made for the node. -/
theorem isSome_rewrite (h : ¬ MadeFor owner name) :
    (seen.rewrite owner name).isSome = (seen name).isSome := by
  unfold rewrite
  rcases eq_or_mem_of_putAll seen (seen.growth owner) name with hold | ⟨reading, hmem, hnew⟩
  · rw [hold]
  · obtain ⟨hsome, _, howner | ⟨_, _, hmade⟩⟩ := of_mem_growth hmem
    · change name = owner at howner
      rw [hnew, howner, hsome, Option.isSome_some]
    · exact absurd hmade h

/-- A rewritten node is not raw any more, and no other node begins or ceases to be raw. -/
theorem Bounded.kindAt_rewrite (h : seen.Bounded) (owner name : String) :
    (seen.rewrite owner).kindAt name = if name = owner then none else seen.kindAt name := by
  by_cases hname : name = owner
  · subst hname
    rw [if_pos rfl, rewrite]
    cases hkind : seen.kindAt name with
    | none => rw [growth_of_not_raw hkind]; exact hkind
    | some kind =>
      obtain ⟨reading, hmem, hnew⟩ := exists_putAll_eq seen (owner_mem_growth hkind)
      rw [kindAt, hnew, Option.bind_some, (of_mem_growth hmem).2.1]
  · rw [if_neg hname]
    cases hold : seen name with
    | some _ => rw [kindAt, h.rewrite_of_isSome (by rw [hold]; rfl) hname, kindAt]
    | none =>
      rw [kindAt, kindAt, hold, rewrite]
      rcases eq_or_mem_of_putAll seen (seen.growth owner) name with hsame | ⟨_, hmem, hnew⟩
      · rw [hsame, hold]
      · rw [hnew, Option.bind_some, (of_mem_growth hmem).2.1]
        rfl

/-! ### Two nodes -/

/-- What is said of a raw node and of the nodes made for it in the end depends on what is said of
the node and on which names made for it are in use. -/
theorem growthOf_congr (h : ∀ name, MadeFor owner name → (seen' name).isSome = (seen name).isSome)
    (reading : Reading) (kind : RawKind) :
    seen'.growthOf owner reading kind = seen.growthOf owner reading kind := by
  have hfresh : ∀ base, (base = axisName owner ∨ ∃ index, base = terminalName owner index) →
      seen'.fresh base = seen.fresh base := fun base hbase =>
    fresh_congr fun name hname => h name ⟨base, hbase, hname⟩
  have hpool : ∀ pooling : Reading,
      seen'.poolGrowth owner pooling = seen.poolGrowth owner pooling := fun pooling => by
    unfold poolGrowth terminals
    simp only [hfresh _ (.inr ⟨_, rfl⟩)]
  cases kind with
  | maxPooling => exact hpool _
  | avgPooling => exact hpool _
  | gather =>
    simp only [growthOf, gatherGrowth, hfresh _ (.inl rfl)]

/-- What was said of a pooling before it is made canonical does not matter in the end. -/
theorem putAll_poolGrowth_put (h : (seen owner).isSome = true) (pooling : Reading) :
    (seen.put owner reading).putAll ((seen.put owner reading).poolGrowth owner pooling) =
      seen.putAll (seen.poolGrowth owner pooling) := by
  have hterminals : ∀ attributes ports, (seen.put owner reading).terminals owner attributes ports =
      seen.terminals owner attributes ports := fun attributes ports =>
    List.map_congr_left fun index _ => by rw [fresh_put_of_isSome h]
  unfold poolGrowth
  rw [hterminals]
  change ((seen.put owner reading).put owner _).putAll _ = _
  rw [put_put]
  rfl

/-- The rewriting of one raw node does not change what becomes of another one. -/
theorem Bounded.growth_rewrite (h : seen.Bounded) (hne : name ≠ owner)
    (hkind : seen.kindAt name = some kind) : (seen.rewrite owner).growth name = seen.growth name := by
  obtain ⟨reading, hseen, hraw⟩ := exists_of_kindAt hkind
  have hnow : seen.rewrite owner name = some reading :=
    (h.rewrite_of_isSome (by rw [hseen]; rfl) hne).trans hseen
  rw [growth_of_kind? hseen hraw, growth_of_kind? hnow hraw]
  exact growthOf_congr (fun other hother => isSome_rewrite fun hmade => hne (hother.owner_eq hmade)) _ _

/-- Names of which something new is said for one node are not those of another one. -/
theorem Bounded.growth_disjoint (h : seen.Bounded) (hne : name ≠ owner) {entry entry' : String × Reading}
    (hentry : entry ∈ seen.growth owner) (hentry' : entry' ∈ seen.growth name) : entry.1 ≠ entry'.1 := by
  obtain ⟨hsome, _, hown⟩ := of_mem_growth hentry
  obtain ⟨hsome', _, hown'⟩ := of_mem_growth hentry'
  intro heq
  rcases hown with howner | ⟨base, hbase, hmade⟩
  · rcases hown' with hname | ⟨base', hbase', _⟩
    · exact hne (hname.symm.trans (heq.symm.trans howner))
    · rw [← howner, heq, hbase', h.fresh_eq_none] at hsome
      cases hsome
  · rcases hown' with hname | ⟨_, _, hmade'⟩
    · rw [← hname, ← heq, hbase, h.fresh_eq_none] at hsome'
      cases hsome'
    · exact hne (hmade'.owner_eq (heq ▸ hmade))

/-- Two nodes can be rewritten in any order. -/
theorem Bounded.rewrite_comm (h : seen.Bounded) (owner name : String) :
    (seen.rewrite owner).rewrite name = (seen.rewrite name).rewrite owner := by
  have hidle : ∀ {view : View} {node : String}, view.kindAt node = none → view.rewrite node = view :=
    fun hkind => by rw [rewrite, growth_of_not_raw hkind]; rfl
  by_cases hne : name = owner
  · rw [hne]
  cases hname : seen.kindAt name with
  | none =>
    have hlater : (seen.rewrite owner).kindAt name = none := by
      rw [h.kindAt_rewrite, if_neg hne, hname]
    rw [hidle hlater, hidle hname]
  | some kind =>
    cases howner : seen.kindAt owner with
    | none =>
      have hlater : (seen.rewrite name).kindAt owner = none := by
        rw [h.kindAt_rewrite, if_neg (Ne.symm hne), howner]
      rw [hidle hlater, hidle howner]
    | some kind' =>
      change (seen.rewrite owner).putAll ((seen.rewrite owner).growth name) =
        (seen.rewrite name).putAll ((seen.rewrite name).growth owner)
      rw [h.growth_rewrite hne hname, h.growth_rewrite (Ne.symm hne) howner]
      exact putAll_comm fun entry hentry entry' hentry' => h.growth_disjoint hne hentry hentry'

/-! ### Any number of nodes -/

theorem Bounded.rewrite (h : seen.Bounded) : (seen.rewrite owner).Bounded := h.putAll

/-- Any number of nodes can be rewritten in any order. -/
theorem Bounded.foldl_rewrite_perm {first second : List String} (h : seen.Bounded)
    (hperm : first.Perm second) : first.foldl View.rewrite seen = second.foldl View.rewrite seen := by
  induction hperm generalizing seen with
  | nil => rfl
  | cons name _ ih => exact ih h.rewrite
  | swap first second rest =>
    change rest.foldl View.rewrite _ = rest.foldl View.rewrite _
    rw [h.rewrite_comm]
  | trans _ _ ih ih' => exact (ih h).trans (ih' h)

/-- After some nodes were rewritten none of them is raw, and of the others the same ones are. -/
theorem Bounded.kindAt_foldl_rewrite (h : seen.Bounded) (owners : List String) (name : String) :
    (owners.foldl View.rewrite seen).kindAt name =
      if name ∈ owners then none else seen.kindAt name := by
  induction owners generalizing seen with
  | nil => simp
  | cons head tail ih =>
    change (tail.foldl View.rewrite (seen.rewrite head)).kindAt name = _
    rw [ih h.rewrite, h.kindAt_rewrite]
    by_cases hhead : name = head
    · simp [hhead]
    · simp [hhead]

/-- Of a name that is in use the same is said as before while other nodes are rewritten. -/
theorem Bounded.foldl_rewrite_of_isSome (h : seen.Bounded) {owners : List String}
    (hname : (seen name).isSome = true) (hother : name ∉ owners) :
    owners.foldl View.rewrite seen name = seen name := by
  induction owners generalizing seen with
  | nil => rfl
  | cons head tail ih =>
    rw [List.mem_cons, not_or] at hother
    have hsame := h.rewrite_of_isSome hname hother.1
    exact (ih h.rewrite (by rw [hsame, hname]) hother.2).trans hsame

end View

end OpGraph
