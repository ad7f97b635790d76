import VisualScript.Proofs.WellFormed

/-!
# Proofs — Lookups

What the look-ups of a checked graph give, said as scans of the node list and the connection list.
The tables grow one node and one connection at a time (`Index.Built` is what every step keeps); here
each look-up is put beside the scan that defines it.

* connections at a port, and how many leave the data ports of a node: a filter of the connections;
* ports of a node: its own or its definition's, in their order (`sidePorts`);
* a port by its name: the port that is paired with the template of the name (`PairedWith`).

`lookups_are_scans` has them all.
-/

namespace VisualScript

/-- The templates of one side. -/
def Definition.templates (d : Definition) (isInput : Bool) : List PortTemplate :=
  if isInput then d.inputs else d.outputs

namespace Graph

variable {id name : String} {port : Port}

variable {catalog : Catalog} {nodes : List Node} {connections : List Connection} {x : Index}

/-! ### Scans -/

/-- The ports on one side of the node with the given id, marked with their side. -/
def sidePorts (catalog : Catalog) (nodes : List Node) (isInput : Bool) (id : String) : List Port :=
  match nodes.find? (·.id == id) with
  | none      => []
  | some node => (node.ports catalog isInput).map fun p => { p with isInput := isInput }

/-- Whether a connection leaves a data output of its source node. -/
def leavesData (catalog : Catalog) (nodes : List Node) (c : Connection) : Bool :=
  nodes.any fun node =>
    node.id == c.source.node &&
      (node.ports catalog false).any fun p => p.id == c.source.port && p.kind == .data

/-- A port on one side of the node with the given id is paired with a template of the given name. -/
def PairedWith (catalog : Catalog) (nodes : List Node) (isInput : Bool) (id name : String)
    (port : Port) : Prop :=
  ∃ node ∈ nodes, node.id = id ∧ ∃ d, catalog.find? node.nodeType = some d ∧
    ∃ p t, (p, some t) ∈ (node.ports catalog isInput).zip
        (Matching.templates (node.ports catalog isInput) (d.templates isInput)) ∧
      t.name = name ∧ port = { p with isInput := isInput }

/-- On one side of the node with the given id, the templates of its definition have different
names. -/
def NamesDiffer (catalog : Catalog) (nodes : List Node) (isInput : Bool) (id : String) : Prop :=
  ∀ node ∈ nodes, node.id = id → ∀ d, catalog.find? node.nodeType = some d →
    ((d.templates isInput).map (·.name)).Nodup

/-! ### Nodes and their ports -/

section

variable (hb : Index.Built catalog nodes connections x)

include hb

theorem find?_id (id : String) : nodes.find? (·.id == id) = (x.node? id).map (·.node) := by
  cases hn : x.node? id with
  | some n =>
    have hids := (nodesFine_of_placed hb.toPlaced).ids
    have hm := mem_nodes hb hn
    have hid := hb.node_id hn
    cases hf : nodes.find? (·.id == id) with
    | none => exact absurd (by simpa using hid) (List.find?_eq_none.mp hf n.node hm)
    | some node =>
      have he : node.id = id := by simpa using List.find?_some hf
      rw [List.inj_on_of_nodup_map hids (List.mem_of_find?_eq_some hf) hm (he.trans hid.symm)]
      rfl
  | none =>
    refine List.find?_eq_none.mpr fun node hm he => ?_
    obtain ⟨n, hn', -, -⟩ := node?_of_mem hb hm
    rw [show node.id = id by simpa using he, hn] at hn'
    cases hn'

theorem inputs_socketsOf {n : PlacedNode} (hn : x.node? id = some n) : n.inputs =
      PlacedNode.socketsOf true (n.node.ports catalog true) (n.definition.templates true) := by
  rw [hb.inputs_eq hn, Node.ports, hb.known (Index.mem_placed hn)]
  rfl

theorem outputs_socketsOf {n : PlacedNode} (hn : x.node? id = some n) : n.outputs =
      PlacedNode.socketsOf false (n.node.ports catalog false) (n.definition.templates false) := by
  rw [hb.outputs_eq hn, Node.ports, hb.known (Index.mem_placed hn)]
  rfl

theorem map_port_inputs (id : String) :
    (x.inputs id).map (·.port) = sidePorts catalog nodes true id := by
  rw [sidePorts, find?_id hb, Index.inputs]
  cases hn : x.node? id with
  | none => rfl
  | some n =>
    simp only [Option.map_some, Option.getD_some]
    rw [inputs_socketsOf hb hn, PlacedNode.ports_socketsOf]

theorem map_port_outputs (id : String) :
    (x.outputs id).map (·.port) = sidePorts catalog nodes false id := by
  rw [sidePorts, find?_id hb, Index.outputs]
  cases hn : x.node? id with
  | none => rfl
  | some n =>
    simp only [Option.map_some, Option.getD_some]
    rw [outputs_socketsOf hb hn, PlacedNode.ports_socketsOf]

/-! ### Connections -/

/-- The connection that ends at a port is the only one. -/
theorem toList_incoming? (e : Endpoint) :
    (x.incoming? e).toList = connections.filter (·.target = e) := by
  cases hc : x.incoming? e with
  | some c =>
    obtain ⟨hm, rfl⟩ := hb.mem_of_incoming? hc
    exact (filter_eq_singleton hb.single hm).symm
  | none =>
    refine (List.filter_eq_nil_iff.mpr fun c hm he => ?_).symm
    have hin : (c.target, c) ∈ x.incoming := by
      rw [hb.incoming]
      exact List.mem_map.mpr ⟨c, hm, rfl⟩
    have hsome := Assoc.lookup_isSome_of_mem hin
    rw [show c.target = e by simpa using he] at hsome
    rw [Index.incoming?] at hc
    simp [hc] at hsome

theorem carriesData_eq {c : Connection} (hc : c ∈ connections) :
    x.carriesData c = leavesData catalog nodes c := by
  obtain ⟨s, -, hs, -, hside, -, -⟩ := hb.ends c hc
  obtain ⟨p, hp, hk⟩ := hasPort_of_socket? hb hs
  rw [hside] at hp
  have hleft : x.carriesData c = true ↔ p.kind = .data := by simp [Index.carriesData, hs, hk]
  -- the port at which the connection starts is the only one with its id
  have hright : leavesData catalog nodes c = true ↔ p.kind = .data := by
    constructor
    · intro h
      obtain ⟨node, hm, h⟩ := List.any_eq_true.mp h
      obtain ⟨hid, h⟩ := Bool.and_eq_true_iff.mp h
      obtain ⟨q, hq, h⟩ := List.any_eq_true.mp h
      obtain ⟨hport, hkind⟩ := Bool.and_eq_true_iff.mp h
      have hq : HasPort catalog nodes false c.source q :=
        ⟨node, hm, by simpa using hid, hq, by simpa using hport⟩
      rw [(hp.unique (nodesFine_of_placed hb.toPlaced) hq).2]
      simpa using hkind
    · intro h
      obtain ⟨node, hm, hid, hq, hport⟩ := hp
      exact List.any_eq_true.mpr ⟨node, hm, by simpa [hid] using ⟨p, hq, hport, h⟩⟩
  exact Bool.eq_iff_iff.mpr (hleft.trans hright.symm)

theorem consumerCount_eq (id : String) :
    x.consumerCount id =
      connections.countP fun c => c.source.node == id && leavesData catalog nodes c := by
  rw [hb.counted]
  refine List.countP_congr fun c hc => ?_
  rw [carriesData_eq hb hc]
  simp

/-! ### Ports by name -/

omit hb in
/-- Where the names of the templates differ, a name finds the port that is paired with its
template. -/
theorem named?_iff {isInput : Bool} {ports : List Port} {ts : List PortTemplate}
    (hnames : (ts.map (·.name)).Nodup) :
    PlacedNode.named? name (PlacedNode.socketsOf isInput ports ts) = some port ↔
      ∃ p t, (p, some t) ∈ ports.zip (Matching.templates ports ts) ∧ t.name = name ∧
        port = { p with isInput := isInput } := by
  constructor
  · intro h
    obtain ⟨s, hs, rfl, t, ht, rfl⟩ := PlacedNode.of_named? h
    obtain ⟨⟨p, t'⟩, hm, rfl⟩ := List.mem_map.mp hs
    exact ⟨p, t, ht ▸ hm, rfl, rfl⟩
  · rintro ⟨p, t, hm, rfl, rfl⟩
    have hs : (⟨{ p with isInput := isInput }, some t⟩ : Socket) ∈
        PlacedNode.socketsOf isInput ports ts := List.mem_map.mpr ⟨_, hm, rfl⟩
    exact PlacedNode.named?_of_mem (PlacedNode.nodup_names hnames) hs rfl

/-- What is found on one side of the node with the given id. -/
theorem pairedWith_iff {isInput : Bool} (hnames : NamesDiffer catalog nodes isInput id) :
    PairedWith catalog nodes isInput id name port ↔ ∃ n, x.node? id = some n ∧
      PlacedNode.named? name (PlacedNode.socketsOf isInput (n.node.ports catalog isInput)
        (n.definition.templates isInput)) = some port := by
  constructor
  · rintro ⟨node, hm, rfl, d, hd, h⟩
    obtain ⟨n, hn, rfl, hd'⟩ := node?_of_mem hb hm
    cases hd.symm.trans hd'
    exact ⟨n, hn, (named?_iff (hnames n.node hm rfl _ hd)).mpr h⟩
  · rintro ⟨n, hn, h⟩
    have hm := mem_nodes hb hn
    have hid := hb.node_id hn
    have hd := hb.known (Index.mem_placed hn)
    exact ⟨n.node, hm, hid, n.definition, hd, (named?_iff (hnames n.node hm hid _ hd)).mp h⟩

theorem input?_iff (hnames : NamesDiffer catalog nodes true id) :
    x.input? id name = some port ↔ PairedWith catalog nodes true id name port := by
  rw [pairedWith_iff hb hnames, Index.input?, Option.bind_eq_some_iff]
  refine exists_congr fun n => and_congr_right fun hn => ?_
  rw [PlacedNode.input?, inputs_socketsOf hb hn]

theorem output?_iff (hnames : NamesDiffer catalog nodes false id) :
    x.output? id name = some port ↔ PairedWith catalog nodes false id name port := by
  rw [pairedWith_iff hb hnames, Index.output?, Option.bind_eq_some_iff]
  refine exists_congr fun n => and_congr_right fun hn => ?_
  rw [PlacedNode.output?, outputs_socketsOf hb hn]

end

/-- **The look-ups of a checked graph are scans of its lists.**  The connections that leave a port
stand in the order of the graph, and one at most ends at a port; connections are counted at the node
whose data outputs they leave; the ports of a side stand in their order and are marked with it; and
where the templates of a side have different names, a name finds the port that is paired with its
template, and nothing where no port is. -/
theorem lookups_are_scans (h : Index.build catalog nodes connections = .ok x) :
    (∀ e, x.outgoingOf e = connections.filter (·.source = e)) ∧
    (∀ e, (x.incoming? e).toList = connections.filter (·.target = e)) ∧
    (∀ id, x.consumerCount id =
      connections.countP fun c => c.source.node == id && leavesData catalog nodes c) ∧
    (∀ id, (x.inputs id).map (·.port) = sidePorts catalog nodes true id) ∧
    (∀ id, (x.outputs id).map (·.port) = sidePorts catalog nodes false id) ∧
    (∀ id name, NamesDiffer catalog nodes true id → ∀ port,
      x.input? id name = some port ↔ PairedWith catalog nodes true id name port) ∧
    (∀ id name, NamesDiffer catalog nodes false id → ∀ port,
      x.output? id name = some port ↔ PairedWith catalog nodes false id name port) := by
  have hb := Index.built_of_build h
  exact ⟨hb.outgoing, toList_incoming? hb, consumerCount_eq hb, map_port_inputs hb,
    map_port_outputs hb, fun _ _ hnames _ => input?_iff hb hnames,
    fun _ _ hnames _ => output?_iff hb hnames⟩

/-- A type of node with a template of one name on both sides. -/
def deskCatalog : Catalog :=
  ⟨[{ nodeType := "tray", category := "desk", label := "Tray"
      inputs := [{ name := "sheet", label := "Sheet" }]
      outputs := [{ name := "sheet", label := "Sheet" }, { name := "count", label := "Count" }] }]⟩

/-- Two trays saved without ports, and one with a spare port and its outputs in another order. -/
def deskNodes : List Node :=
  [{ id := "a", nodeType := "tray" },
   { id := "b", nodeType := "tray"
     inputs := [{ id := "spare", label := "Stamp" }, { id := "s", label := "sheet" }]
     outputs := [{ id := "n", label := "Count" }, { id := "o", label := "Sheet" }] },
   { id := "c", nodeType := "tray" }]

def deskConnections : List Connection :=
  [⟨"c0", ⟨"a", "output_0"⟩, ⟨"b", "s"⟩⟩, ⟨"c1", ⟨"b", "n"⟩, ⟨"a", "input_0"⟩⟩,
   ⟨"c2", ⟨"a", "output_0"⟩, ⟨"c", "input_0"⟩⟩]

theorem lookups_are_scans_desk : ∃ x, Index.build deskCatalog deskNodes deskConnections = .ok x ∧
    (x.outgoingOf ⟨"a", "output_0"⟩).map (·.id) = ["c0", "c2"] ∧
    ((x.incoming? ⟨"b", "s"⟩).toList).map (·.id) = ["c0"] ∧ x.consumerCount "a" = 2 ∧
    ((x.inputs "b").map (·.port)).map (·.id) = ["spare", "s"] ∧
    ((x.outputs "b").map (·.port)).map (·.isInput) = [false, false] ∧
    (∃ port, PairedWith deskCatalog deskNodes true "b" "sheet" port ∧ port.id = "s") ∧
    ∃ port, PairedWith deskCatalog deskNodes false "b" "sheet" port ∧ port.id = "o" := by
  have hcheck : ((Index.build deskCatalog deskNodes deskConnections).toOption.map fun x =>
      ((x.input? "b" "sheet").map (·.id), (x.output? "b" "sheet").map (·.id))) =
      some (some "s", some "o") := by
    decide +kernel
  obtain ⟨x, hx, hcheck⟩ := Option.map_eq_some_iff.mp hcheck
  obtain ⟨hin, hout⟩ := Prod.mk.inj hcheck
  obtain ⟨p, hp, hpid⟩ := Option.map_eq_some_iff.mp hin
  obtain ⟨q, hq, hqid⟩ := Option.map_eq_some_iff.mp hout
  have hnames : ∀ isInput, NamesDiffer deskCatalog deskNodes isInput "b" := by
    intro isInput node _ _ d hd
    obtain rfl := List.mem_singleton.mp (List.mem_of_find?_eq_some hd)
    cases isInput <;> decide
  obtain ⟨houtgoing, hincoming, hcount, hinputs, houtputs, hinput, houtput⟩ :=
    lookups_are_scans (ok_of_toOption hx)
  refine ⟨x, ok_of_toOption hx, ?_, ?_, ?_, ?_, ?_, ⟨p, ?_, hpid⟩, q, ?_, hqid⟩
  · rw [houtgoing]; decide
  · rw [hincoming]; decide
  · rw [hcount]; decide +kernel
  · rw [hinputs]; decide +kernel
  · rw [houtputs]; decide +kernel
  · exact (hinput "b" "sheet" (hnames true) p).mp hp
  · exact (houtput "b" "sheet" (hnames false) q).mp hq

end Graph

end VisualScript
