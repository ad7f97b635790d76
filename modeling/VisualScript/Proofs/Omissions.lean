import VisualScript.Catalog.Builtin
import VisualScript.Proofs.Pairing
import VisualScript.Proofs.Payloads

/-!
# Proofs — Omissions

Payloads with keys left out.  The payload of a node is read in four places: as the literal of an
input, by the recipe of a constant, by the recipe of a switch, and as the name of an entry.
`Definition.implied?` says what a node without a key counts as having; in the built-in catalog this
is what the key is read as in all four places (`Catalog.builtin_spare`, `Recipe.spares_of_mem`).  So
leaving out keys that have this value changes nothing (`Script.generate_omitted`).

For most keys it is the default of the catalog.  It is not for the name of an entry and the cases of
a switch, and the literals of two types are not written as their defaults without a value.
-/

namespace VisualScript

/-- What a node without the key counts as having: the default of the catalog, except that an entry
without `functionName` is given no name and a switch without `cases` has none.  The literals `bool`
and `function-ref` have a default that they do not fall back on; nothing is said about them. -/
def Definition.implied? (d : Definition) (key : String) : Option Json :=
  if key = "functionName" ∧ d.isEntry = true then some (.str "")
  else if key = "cases" ∧ d.nodeType ∈ ["switch", "switch-case"] then some (.arr [])
  else if (d.nodeType, key) ∈ [("bool", "value"), ("function-ref", "functionName")] then none
  else d.defaults.lookup key

/-- The node has lost some keys of its payload; each had the value that a node without it counts as
having. -/
def Node.Omits (node node' : Node) : Prop :=
  ∃ keep : String → Bool, node' = { node with data := node.data.filter (keep ·.1) } ∧
    ∀ d, Catalog.builtin.find? node.nodeType = some d → ∀ key v, keep key = false →
      node.data.lookup key = some v → d.implied? key = some v

/-! ### The built-in catalog -/

/-- The recipe of a type reads a missing key as the value it counts as having. -/
def Recipe.Spares (nodeType : String) : Recipe → Prop
  | .constant type key _ => ∀ d ∈ Catalog.builtin.find? nodeType, ∀ v ∈ d.implied? key,
      Literal.write? type v = Literal.write? type .null
  | .switch _            => nodeType ∈ ["switch", "switch-case"]
  | _                    => True

instance (nodeType : String) : ∀ r : Recipe, Decidable (r.Spares nodeType)
  | .constant type key _ => inferInstanceAs (Decidable (∀ d ∈ Catalog.builtin.find? nodeType,
    ∀ v ∈ d.implied? key, _ = Literal.write? type .null))
  | .switch _ => inferInstanceAs (Decidable (nodeType ∈ ["switch", "switch-case"]))
  | .statement _ | .bound .. | .expression .. | .sequence | .branch | .loopFor | .loopEach
  | .loopWhile | .thread | .stop | .append | .reroute | .registerWeapon => .isTrue trivial

theorem Recipe.spares_of_mem : ∀ e ∈ Recipe.Table.all, e.2.Spares e.1 := by decide +kernel

namespace Catalog

/-- No input of the definition takes its literal from a key that counts as something else than its
default. -/
def Spare (d : Definition) : Prop :=
  ∀ t ∈ d.inputs, ¬ (t.payloadKey = "functionName" ∧ d.isEntry = true) ∧
    ¬ (t.payloadKey = "cases" ∧ d.nodeType ∈ ["switch", "switch-case"])

instance (d : Definition) : Decidable (Spare d) :=
  inferInstanceAs (Decidable (∀ t ∈ d.inputs, _ ∧ _))

theorem builtin_spare : ∀ d ∈ builtin.definitions, Spare d := by decide +kernel

theorem Spare.implied? {d : Definition} (h : Spare d) {t : PortTemplate} (ht : t ∈ d.inputs)
    {v : Json} (hv : d.implied? t.payloadKey = some v) :
    d.defaults.lookup t.payloadKey = some v := by
  obtain ⟨hname, hcases⟩ := h t ht
  rw [Definition.implied?, if_neg hname, if_neg hcases] at hv
  split at hv
  · cases hv
  · exact hv

end Catalog

namespace Recipe

variable {n n' : PlacedNode}

theorem caseItems_congr (h : n'.output? = n.output?) (type : ValueType) :
    ∀ (vs : List Json) (i : Nat), caseItems type n' i vs = caseItems type n i vs
  | [], _ => rfl
  | _ :: vs, _ => by simp only [caseItems, h, caseItems_congr h type vs]

theorem caseFailure?_congr (h : n'.output? = n.output?) (type : ValueType) :
    ∀ (vs : List Json) (i : Nat), caseFailure? type n' i vs = caseFailure? type n i vs
  | [], _ => rfl
  | _ :: vs, _ => by simp only [caseFailure?, h, caseFailure?_congr h type vs]

theorem switchItems_congr (hid : n'.node.id = n.node.id) (h : n'.output? = n.output?)
    (type : ValueType) (x : Index) (cases : List Json) :
    switchItems type x n' cases = switchItems type x n cases := by
  have hconnected : isConnected x n' "default" = isConnected x n "default" := by
    simp only [isConnected, h, hid]
  simp only [switchItems, caseItems_congr h, hconnected]

end Recipe

namespace Node.Omits

variable {node node' : Node} {d : Definition}

theorem of_mem (keep : String → Bool) (h : ∀ d, Catalog.builtin.find? node.nodeType = some d →
    ∀ e ∈ node.data, keep e.1 = false → d.implied? e.1 = some e.2) :
    Omits node { node with data := node.data.filter (keep ·.1) } :=
  ⟨keep, rfl, fun d hd key v hkeep hv => h d hd (key, v) (Assoc.mem_of_lookup hv) hkeep⟩

variable (h : Omits node node')

include h

theorem frame : ∃ data, node' = { node with data := data } :=
  let ⟨_, h, _⟩ := h
  ⟨_, h⟩

variable (hd : Catalog.builtin.find? node.nodeType = some d)

include hd

/-- A key is still there, or it had the value that it counts as having. -/
theorem lookup (key : String) : node'.data.lookup key = node.data.lookup key ∨
      node'.data.lookup key = none ∧
        ∃ v, node.data.lookup key = some v ∧ d.implied? key = some v := by
  obtain ⟨keep, rfl, himplied⟩ := h
  rw [Assoc.lookup_filter]
  cases hkeep : keep key with
  | true => exact .inl rfl
  | false =>
    cases hv : node.data.lookup key with
    | none => exact .inl rfl
    | some v => exact .inr ⟨rfl, v, rfl, himplied d hd key v hkeep hv⟩

/-- The literal of an input: a missing value is the default. -/
theorem literal (hspare : Catalog.Spare d) {t : PortTemplate} (ht : t ∈ d.inputs) :
    Evaluation.literal (PlacedNode.make node' d) t =
      Evaluation.literal (PlacedNode.make node d) t := by
  have hvalue : (node'.data.lookup t.payloadKey).or (d.defaults.lookup t.payloadKey) =
      (node.data.lookup t.payloadKey).or (d.defaults.lookup t.payloadKey) := by
    rcases h.lookup hd t.payloadKey with hsame | ⟨hnone, v, hv, himplied⟩
    · rw [hsame]
    · rw [hnone, hv, hspare.implied? ht himplied]
      rfl
  obtain ⟨data, rfl⟩ := h.frame
  unfold Evaluation.literal
  dsimp only [PlacedNode.make]
  rw [hvalue]
  rfl

/-- The value of a constant: a missing one is null, which is written as the default. -/
theorem constant {type : ValueType} {key output : String}
    (hr : (Recipe.constant type key output).Spares node.nodeType) :
    node'.data.lookup key = node.data.lookup key ∨
      Literal.write? type ((node'.data.lookup key).getD .null) = some (Literal.zero type) ∧
        Literal.write? type ((node.data.lookup key).getD .null) = some (Literal.zero type) := by
  refine (h.lookup hd key).imp_right ?_
  rintro ⟨hnone, v, hv, himplied⟩
  rw [hnone, hv]
  exact ⟨rfl, hr d hd v himplied⟩

/-- The cases of a switch: a missing list is empty. -/
theorem casesOf {type : ValueType} (hr : (Recipe.switch type).Spares node.nodeType) :
    Recipe.casesOf node'.data = Recipe.casesOf node.data := by
  have htype : d.nodeType = node.nodeType := by simpa using List.find?_some hd
  unfold Recipe.casesOf
  rcases h.lookup hd "cases" with hsame | ⟨hnone, v, hv, himplied⟩
  · rw [hsame]
  · rw [Definition.implied?, if_neg (by simp), if_pos ⟨rfl, htype ▸ hr⟩] at himplied
    cases himplied
    rw [hnone, hv]
    rfl

theorem outline (x : Index) {r : Recipe} (hr : r.Spares node.nodeType) :
    r.outline x (PlacedNode.make node' d) = r.outline x (PlacedNode.make node d) := by
  obtain ⟨data, rfl⟩ := h.frame
  cases r with
  | constant type key output =>
    dsimp only [Recipe.outline, PlacedNode.make]
    rcases h.constant hd hr with hsame | ⟨hzero, hzero'⟩
    · rw [hsame]
    · rw [hzero, hzero']
  | switch type =>
    have hcases : Recipe.casesOf (PlacedNode.make { node with data := data } d).node.data =
        Recipe.casesOf (PlacedNode.make node d).node.data := h.casesOf hd hr
    have hitems := @Recipe.switchItems_congr (PlacedNode.make node d)
      (PlacedNode.make { node with data := data } d) rfl rfl type x
    have hfailure := @Recipe.caseFailure?_congr (PlacedNode.make node d)
      (PlacedNode.make { node with data := data } d) rfl type
    simp only [Recipe.outline, hcases, hitems, hfailure]
  | _ => rfl

/-- The name of an entry: a missing one is empty. -/
theorem givenName? (hentry : d.isEntry = true) :
    EntryFunction.givenName? (PlacedNode.make node' d) =
      EntryFunction.givenName? (PlacedNode.make node d) := by
  have hmake : ∀ node, (PlacedNode.make node d).node = node := fun _ => rfl
  rcases h.lookup hd "functionName" with hsame | ⟨hnone, v, hv, himplied⟩
  · simp only [EntryFunction.givenName?, hmake, hsame]
  · rw [Definition.implied?, if_pos ⟨rfl, hentry⟩] at himplied
    cases himplied
    simp only [EntryFunction.givenName?, hmake, hnone, hv]
    rfl

omit hd in
theorem alike : Node.Alike .builtin node node' := by
  obtain ⟨data, rfl⟩ := h.frame
  refine ⟨rfl, rfl, fun d hd => ?_⟩
  have hspare := Catalog.builtin_spare d (List.mem_of_find?_eq_some hd)
  exact ⟨rfl, rfl, rfl, rfl, rfl, rfl, fun t ht _ => h.literal hd hspare ht,
    fun x r hr => h.outline hd x (Recipe.spares_of_mem _ (Assoc.mem_of_lookup hr)),
    fun he => h.givenName? hd he⟩

end Node.Omits

namespace Script

/-- **A key left out counts as the value it is implied to have.**  If nodes of a graph lose keys of
their payloads that have this value, the outcome is the same: the same script or the same
failure. -/
theorem generate_omitted {nodes nodes' : List Node}
    (h : List.Forall₂ Node.Omits nodes nodes') (indent moduleId : String)
    (connections : List Connection) :
    generate .builtin indent moduleId nodes' connections =
      generate .builtin indent moduleId nodes connections :=
  generate_alike (h.imp fun _ _ => Node.Omits.alike) indent moduleId connections

/-- An event that counts, then picks a case.  All values but the note are implied. -/
def countingNodes : List Node :=
  [{ id := "spawn", nodeType := "on-player-respawned", data := [("functionName", .str "")] },
   { id := "count", nodeType := "loop-for", data := [("end", .int 10)] },
   { id := "pick", nodeType := "switch", data := [("cases", .arr []), ("note", .str "none yet")] },
   { id := "zero", nodeType := "const-int", data := [("value", .int 0)] }]

def countingConnections : List Connection :=
  [⟨"c0", ⟨"spawn", "output_0"⟩, ⟨"count", "input_0"⟩⟩,
   ⟨"c1", ⟨"count", "output_2"⟩, ⟨"pick", "input_0"⟩⟩,
   ⟨"c2", ⟨"zero", "output_0"⟩, ⟨"pick", "input_1"⟩⟩]

def bareNodes : List Node :=
  [{ id := "spawn", nodeType := "on-player-respawned" }, { id := "count", nodeType := "loop-for" },
   { id := "pick", nodeType := "switch", data := [("note", .str "none yet")] },
   { id := "zero", nodeType := "const-int" }]

theorem generate_omitted_counting :
    List.Forall₂ Node.Omits countingNodes bareNodes ∧
      generate .builtin "\t" "demo" bareNodes countingConnections =
        generate .builtin "\t" "demo" countingNodes countingConnections := by
  have h : List.Forall₂ Node.Omits countingNodes bareNodes := by
    refine .cons (.of_mem (· == "note") ?_) (.cons (.of_mem (· == "note") ?_)
      (.cons (.of_mem (· == "note") ?_) (.cons (.of_mem (· == "note") ?_) .nil)))
    all_goals
      intro d hd
      cases hd
    · exact List.forall_mem_singleton.mpr fun _ => rfl
    · exact List.forall_mem_singleton.mpr fun _ => rfl
    · exact List.forall_mem_cons.mpr ⟨fun _ => rfl, List.forall_mem_singleton.mpr nofun⟩
    · exact List.forall_mem_singleton.mpr fun _ => rfl
  exact ⟨h, generate_omitted h _ _ _⟩

/-! ### Defaults that are not implied -/

/-- The last node of a graph has the default of a key, and the script is another one without it. -/
def DefaultShows (before : List Node) (node : Node) (key : String)
    (connections : List Connection) : Prop :=
  (∃ d v, Catalog.builtin.find? node.nodeType = some d ∧ d.defaults.lookup key = some v ∧
    node.data.lookup key = some v) ∧
  generate .builtin "\t" "demo"
      (before ++ [{ node with data := node.data.filter (·.1 != key) }]) connections ≠
    generate .builtin "\t" "demo" (before ++ [node]) connections

/-- The names of events, the cases of a switch, and the literals of two types. -/
theorem defaults_show :
    DefaultShows [] { id := "start", nodeType := "event"
                      data := [("functionName", .str "CustomEvent")] } "functionName" [] ∧
    DefaultShows [{ id := "start", nodeType := "event" }]
      { id := "pick", nodeType := "switch", data := [("cases", .arr [.int 0, .int 1, .int 2])] }
      "cases" [⟨"c0", ⟨"start", "output_0"⟩, ⟨"pick", "input_0"⟩⟩] ∧
    DefaultShows [{ id := "start", nodeType := "event" }, { id := "gate", nodeType := "branch" }]
      { id := "flag", nodeType := "bool", data := [("value", .bool true)] } "value"
      [⟨"c0", ⟨"start", "output_0"⟩, ⟨"gate", "input_0"⟩⟩,
       ⟨"c1", ⟨"flag", "output_0"⟩, ⟨"gate", "input_1"⟩⟩] ∧
    DefaultShows
      [{ id := "start", nodeType := "event" }, { id := "run", nodeType := "call-function" }]
      { id := "which", nodeType := "function-ref", data := [("functionName", .str "MyFunction")] }
      "functionName"
      [⟨"c0", ⟨"start", "output_0"⟩, ⟨"run", "input_0"⟩⟩,
       ⟨"c1", ⟨"which", "output_0"⟩, ⟨"run", "input_1"⟩⟩] := by
  refine ⟨⟨⟨_, _, rfl, rfl, rfl⟩, ?_⟩, ⟨⟨_, _, rfl, rfl, rfl⟩, ?_⟩, ⟨⟨_, _, rfl, rfl, rfl⟩, ?_⟩,
    ⟨⟨_, _, rfl, rfl, rfl⟩, ?_⟩⟩
  all_goals
    rw [generate, generate, Index.build, Index.addNode_builtin]
    decide +kernel

end Script

end VisualScript
