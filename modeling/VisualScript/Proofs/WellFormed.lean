import VisualScript.Proofs.Acyclic

/-!
# Proofs — WellFormed

Which graphs pass `Index.build`, said of the node list and the connection list alone.

* `Graph.WellFormed`: what a graph has to satisfy.
* `Graph.Reported`: the faults that may be reported.  Every node, connection or entry before the one
  at fault is in order.
* `Graph.build_spec`: a graph passes exactly if it is well formed, and otherwise the fault is one of
  these.
-/

namespace VisualScript

open Relation

/-- The ports of a node on one side: its own, or those of its definition when it was saved without
any. -/
def Node.ports (catalog : Catalog) (isInput : Bool) (node : Node) : List Port :=
  match catalog.find? node.nodeType with
  | none   => []
  | some d =>
      if isInput then (PlacedNode.effectivePorts node d).1 else (PlacedNode.effectivePorts node d).2

def Node.isEntry (catalog : Catalog) (node : Node) : Bool :=
  (catalog.find? node.nodeType).any (·.isEntry)

namespace Graph

variable {node : Node} {f : Fault} {id : String} {n : PlacedNode} {isInput : Bool} {p : Port}
  {e : Endpoint}

variable {catalog : Catalog} {nodes : List Node} {connections : List Connection} {x : Index}

/-! ### What is asked of a graph -/

/-- The nodes have different ids, known types, and ports of different ids. -/
structure NodesFine (catalog : Catalog) (nodes : List Node) : Prop where
  ids   : (nodes.map (·.id)).Nodup
  types : ∀ node ∈ nodes, (catalog.find? node.nodeType).isSome
  ports : ∀ node ∈ nodes,
    ((node.ports catalog true ++ node.ports catalog false).map (·.id)).Nodup

/-- The port at one end of a connection, on the given side of its node. -/
def HasPort (catalog : Catalog) (nodes : List Node) (isInput : Bool) (e : Endpoint) (p : Port) :
    Prop :=
  ∃ node ∈ nodes, node.id = e.node ∧ p ∈ node.ports catalog isInput ∧ p.id = e.port

/-- Every connection leads from an output to an input of the same kind, and no two end at the same
port. -/
structure ConnectionsFine (catalog : Catalog) (nodes : List Node) (connections : List Connection) :
    Prop where
  ends    : ∀ c ∈ connections, ∃ p q, HasPort catalog nodes false c.source p ∧
    HasPort catalog nodes true c.target q ∧ p.kind = q.kind
  targets : (connections.map (·.target)).Nodup

/-- No connection ends at an exec input of the node. -/
def EntryFine (catalog : Catalog) (connections : List Connection) (node : Node) : Prop :=
  ∀ p ∈ node.ports catalog true, p.kind = .exec →
    ∀ c ∈ connections, c.target ≠ ⟨node.id, p.id⟩

/-- Some exec output of `a` is connected to `b`. -/
def ExecEdge (catalog : Catalog) (nodes : List Node) (connections : List Connection)
    (a b : String) : Prop :=
  ∃ c ∈ connections, c.source.node = a ∧ c.target.node = b ∧
    ∃ p, HasPort catalog nodes false c.source p ∧ p.kind = .exec

structure WellFormed (catalog : Catalog) (nodes : List Node) (connections : List Connection) : Prop
    extends NodesFine catalog nodes, ConnectionsFine catalog nodes connections where
  entries : ∀ node ∈ nodes, node.isEntry catalog = true → EntryFine catalog connections node
  acyclic : ∀ a, ¬ TransGen (ExecEdge catalog nodes connections) a a

/-! ### What is reported -/

/-- What is wrong with a node that comes after the nodes `before`. -/
inductive NodeFlaw (catalog : Catalog) (before : List Node) (node : Node) : Fault → Prop where
  | duplicateNode (h : node.id ∈ before.map (·.id)) :
      NodeFlaw catalog before node (.duplicateNode node.id)
  | unknownType (h : catalog.find? node.nodeType = none) :
      NodeFlaw catalog before node (.unknownType node.nodeType (some node.id))
  | duplicatePort {ids ids' : List String} {p : String}
      (h : (node.ports catalog true ++ node.ports catalog false).map (·.id) = ids ++ p :: ids')
      (again : p ∈ ids) (first : ids.Nodup) :
      NodeFlaw catalog before node (.duplicatePort node.id p)

/-- What is wrong with a connection that comes after the connections `before`. -/
inductive ConnectionFlaw (catalog : Catalog) (nodes : List Node) (before : List Connection)
    (c : Connection) : Fault → Prop where
  | missingNode {e : Endpoint} (he : e = c.source ∨ e = c.target)
      (h : ∀ node ∈ nodes, node.id ≠ e.node) :
      ConnectionFlaw catalog nodes before c (.missingNode c.id e.node)
  | missingPort {e : Endpoint} (he : e = c.source ∨ e = c.target)
      (h : ∀ isInput p, ¬ HasPort catalog nodes isInput e p) :
      ConnectionFlaw catalog nodes before c (.missingPort c.id e.node e.port)
  | startsAtInput {p : Port} (h : HasPort catalog nodes true c.source p) :
      ConnectionFlaw catalog nodes before c (.startsAtInput c.id c.source.node c.source.port)
  | endsAtOutput {p : Port} (h : HasPort catalog nodes false c.target p) :
      ConnectionFlaw catalog nodes before c (.endsAtOutput c.id c.target.node c.target.port)
  | kindMismatch {p q : Port} (hp : HasPort catalog nodes false c.source p)
      (hq : HasPort catalog nodes true c.target q) (h : p.kind ≠ q.kind) :
      ConnectionFlaw catalog nodes before c (.kindMismatch c.id c.target.node p.kind q.kind)
  | secondConnection (h : c.target ∈ before.map (·.target)) :
      ConnectionFlaw catalog nodes before c (.secondConnection c.id c.target.node c.target.port)

/-- What is wrong with an entry. -/
inductive EntryFlaw (catalog : Catalog) (connections : List Connection) (node : Node) :
    Fault → Prop where
  | entryConnected {p : Port} {c : Connection} (hp : p ∈ node.ports catalog true)
      (hk : p.kind = .exec) (hc : c ∈ connections) (h : c.target = ⟨node.id, p.id⟩) :
      EntryFlaw catalog connections node (.entryConnected c.id node.id)

/-- A fault of the graph with everything before it in order: nodes, connections, entries, and last
the exec connections as a whole. -/
inductive Reported (catalog : Catalog) (nodes : List Node) (connections : List Connection) :
    Fault → Prop where
  | node {before after : List Node} {node : Node} {f : Fault}
      (split : nodes = before ++ node :: after) (fine : NodesFine catalog before)
      (flaw : NodeFlaw catalog before node f) : Reported catalog nodes connections f
  | connection {before after : List Connection} {c : Connection} {f : Fault}
      (fine : NodesFine catalog nodes) (split : connections = before ++ c :: after)
      (joined : ConnectionsFine catalog nodes before)
      (flaw : ConnectionFlaw catalog nodes before c f) : Reported catalog nodes connections f
  | entry {before after : List Node} {node : Node} {f : Fault}
      (fine : NodesFine catalog nodes) (joined : ConnectionsFine catalog nodes connections)
      (split : nodes.filter (·.isEntry catalog) = before ++ node :: after)
      (free : ∀ m ∈ before, EntryFine catalog connections m)
      (flaw : EntryFlaw catalog connections node f) : Reported catalog nodes connections f
  | cycle {id : String} (fine : NodesFine catalog nodes)
      (joined : ConnectionsFine catalog nodes connections)
      (free : ∀ m ∈ nodes.filter (·.isEntry catalog), EntryFine catalog connections m)
      (flaw : TransGen (ExecEdge catalog nodes connections) id id) :
      Reported catalog nodes connections (.execCycle id)

/-! ### Nodes -/

theorem firstRepeated_eq_some {p : String} : ∀ {xs seen : List String},
    Catalog.firstRepeated seen xs = some p →
      ∃ l₁ l₂, xs = l₁ ++ p :: l₂ ∧ (p ∈ seen ∨ p ∈ l₁) ∧ l₁.Nodup ∧ ∀ a ∈ l₁, a ∉ seen
  | [], _, h => by cases h
  | a :: xs, seen, h => by
    rw [Catalog.firstRepeated] at h
    split at h
    · rename_i ha
      cases h
      exact ⟨[], xs, rfl, .inl ha, List.nodup_nil, by simp⟩
    · rename_i ha
      obtain ⟨l₁, l₂, rfl, hp, hn, hs⟩ := firstRepeated_eq_some h
      refine ⟨a :: l₁, l₂, rfl, ?_, List.nodup_cons.mpr ⟨fun hm => hs a hm (.head _), hn⟩,
        fun b hb => ?_⟩
      · rcases hp with hp | hp
        · rcases List.mem_cons.mp hp with rfl | hp
          · exact .inr (.head _)
          · exact .inl hp
        · exact .inr (.tail _ hp)
      · rcases List.mem_cons.mp hb with rfl | hb
        · exact ha
        · exact fun hm => hs b hb (.tail _ hm)

theorem ports_make {d : Definition} (hd : catalog.find? node.nodeType = some d) :
    (PlacedNode.make node d).inputs.map (·.port) =
        (node.ports catalog true).map (fun p => { p with isInput := true }) ∧
      (PlacedNode.make node d).outputs.map (·.port) =
        (node.ports catalog false).map fun p => { p with isInput := false } := by
  simp only [PlacedNode.make, PlacedNode.ports_socketsOf, Node.ports, hd]
  exact ⟨rfl, rfl⟩

theorem port_ids_make {d : Definition} (hd : catalog.find? node.nodeType = some d) :
    (PlacedNode.make node d).sockets.map (·.port.id) =
      (node.ports catalog true ++ node.ports catalog false).map (·.id) := by
  obtain ⟨hi, ho⟩ := ports_make hd
  have hi := congrArg (List.map Port.id) hi
  have ho := congrArg (List.map Port.id) ho
  simp only [List.map_map, Function.comp_def] at hi ho
  rw [PlacedNode.sockets, List.map_append, List.map_append, hi, ho]

theorem order_of_placed (h : Index.Placed catalog nodes x) : x.order = nodes.map (·.id) := by
  rw [← h.nodes, Index.order, Assoc.keys, List.map_map]
  exact List.map_congr_left fun p hp => (h.keyed hp).symm

theorem nodesFine_of_placed (h : Index.Placed catalog nodes x) : NodesFine catalog nodes := by
  have hmem : ∀ node ∈ nodes, ∃ id n, (id, n) ∈ x.placed ∧ n.node = node := by
    intro node hm
    rw [← h.nodes] at hm
    obtain ⟨⟨id, n⟩, hp, rfl⟩ := List.mem_map.mp hm
    exact ⟨id, n, hp, rfl⟩
  refine ⟨order_of_placed h ▸ h.distinct, fun node hm => ?_, fun node hm => ?_⟩
  · obtain ⟨id, n, hp, rfl⟩ := hmem node hm
    simp [h.known hp]
  · obtain ⟨id, n, hp, rfl⟩ := hmem node hm
    have := h.ports hp
    rwa [h.made hp, port_ids_make (h.known hp)] at this

/-- A node that is not added has a flaw. -/
theorem nodeFlaw_of_addNode (h : Index.Placed catalog nodes x)
    (hadd : Index.addNode catalog x node = .error f) : NodeFlaw catalog nodes node f := by
  unfold Index.addNode at hadd
  split at hadd
  · rename_i hdup
    cases hadd
    refine .duplicateNode ?_
    rw [← order_of_placed h]
    simpa [Assoc.contains, Index.order, Assoc.keys] using hdup
  rcases bind_eq_error.mp hadd with hadd | ⟨d, hd, hadd⟩
  · unfold Catalog.require at hadd
    split at hadd
    · cases hadd
    · cases hadd
      exact .unknownType (by assumption)
  · simp only at hadd
    split at hadd
    · rename_i p hp
      cases hadd
      obtain ⟨l₁, l₂, hsplit, hmem, hnodup, -⟩ := firstRepeated_eq_some hp
      rw [port_ids_make (Catalog.find?_of_require hd)] at hsplit
      exact .duplicatePort hsplit (hmem.resolve_left (by simp)) hnodup
    · cases hadd

/-! ### Ports -/

section

variable (h : Index.Built catalog nodes connections x)

include h

theorem node?_of_mem (hm : node ∈ nodes) :
    ∃ n, x.node? node.id = some n ∧ n.node = node ∧
      catalog.find? node.nodeType = some n.definition := by
  rw [← h.nodes] at hm
  obtain ⟨⟨id, n⟩, hp, rfl⟩ := List.mem_map.mp hm
  have hn := h.node?_of_mem hp
  rw [← h.keyed hp] at hn
  exact ⟨n, hn, rfl, h.known hp⟩

theorem mem_nodes (hn : x.node? id = some n) : n.node ∈ nodes := by
  rw [← h.nodes]
  exact List.mem_map.mpr ⟨_, Index.mem_placed hn, rfl⟩

/-- A socket of a placed node belongs to a port of the node. -/
theorem port_of_mem {s : Socket} (hn : x.node? id = some n) (hs : s ∈ n.sockets) :
    ∃ p ∈ n.node.ports catalog s.port.isInput, p.id = s.port.id ∧ p.kind = s.port.kind := by
  have hp := Index.mem_placed hn
  obtain ⟨hi, ho⟩ := ports_make (h.known hp)
  rw [← h.made hp] at hi ho
  rcases List.mem_append.mp hs with hs | hs
  · have hm : s.port ∈ n.inputs.map (·.port) := List.mem_map.mpr ⟨s, hs, rfl⟩
    obtain ⟨p, hp, he⟩ := List.mem_map.mp (hi ▸ hm)
    rw [← he]
    exact ⟨p, hp, rfl, rfl⟩
  · have hm : s.port ∈ n.outputs.map (·.port) := List.mem_map.mpr ⟨s, hs, rfl⟩
    obtain ⟨p, hp, he⟩ := List.mem_map.mp (ho ▸ hm)
    rw [← he]
    exact ⟨p, hp, rfl, rfl⟩

/-- A port of a node has a socket on its side. -/
theorem socket_of_port (hn : x.node? id = some n) (hp : p ∈ n.node.ports catalog isInput) :
    ∃ s ∈ (if isInput then n.inputs else n.outputs), s.port.isInput = isInput ∧
      s.port.id = p.id ∧ s.port.kind = p.kind := by
  have hm := Index.mem_placed hn
  obtain ⟨hi, ho⟩ := ports_make (h.known hm)
  rw [← h.made hm] at hi ho
  cases isInput with
  | true =>
    have hmem : { p with isInput := true } ∈ n.inputs.map (·.port) :=
      hi ▸ List.mem_map.mpr ⟨p, hp, rfl⟩
    obtain ⟨s, hs, he⟩ := List.mem_map.mp hmem
    exact ⟨s, hs, by rw [he], by rw [he], by rw [he]⟩
  | false =>
    have hmem : { p with isInput := false } ∈ n.outputs.map (·.port) :=
      ho ▸ List.mem_map.mpr ⟨p, hp, rfl⟩
    obtain ⟨s, hs, he⟩ := List.mem_map.mp hmem
    exact ⟨s, hs, by rw [he], by rw [he], by rw [he]⟩

theorem hasPort_of_socket? {s : Socket} (hs : x.socket? e = some s) :
    ∃ p, HasPort catalog nodes s.port.isInput e p ∧ p.kind = s.port.kind := by
  obtain ⟨n, hn, hmem, hid⟩ := Index.mem_of_socket? hs
  obtain ⟨p, hp, hpid, hpk⟩ := port_of_mem h hn hmem
  exact ⟨p, ⟨n.node, mem_nodes h hn, h.node_id hn, hp, hpid.trans hid⟩, hpk⟩

theorem socket?_of_hasPort (hp : HasPort catalog nodes isInput e p) :
    ∃ s, x.socket? e = some s ∧ s.port.isInput = isInput ∧ s.port.kind = p.kind := by
  obtain ⟨node, hm, hid, hp, hport⟩ := hp
  obtain ⟨n, hn, rfl, -⟩ := node?_of_mem h hm
  obtain ⟨s, hs, hside, hsid, hsk⟩ := socket_of_port h hn hp
  have hmem : s ∈ n.sockets := by
    cases isInput with
    | true => exact List.mem_append_left _ hs
    | false => exact List.mem_append_right _ hs
  refine ⟨s, ?_, hside, hsk⟩
  have := h.socket?_of_mem hn hmem
  rwa [hsid, hid, hport] at this

/-! ### Connections -/

theorem connectionsFine_of_built : ConnectionsFine catalog nodes connections := by
  refine ⟨fun c hc => ?_, h.single⟩
  obtain ⟨s, t, hs, ht, hsi, hti, hk⟩ := h.ends c hc
  obtain ⟨p, hp, hpk⟩ := hasPort_of_socket? h hs
  obtain ⟨q, hq, hqk⟩ := hasPort_of_socket? h ht
  exact ⟨p, q, hsi ▸ hp, hti ▸ hq, by rw [hpk, hqk, hk]⟩

/-- A connection that is not added has a flaw. -/
theorem connectionFlaw_of_addConnection {c : Connection} (hadd : x.addConnection c = .error f) :
    ConnectionFlaw catalog nodes connections c f := by
  have hnode : ∀ {e}, e = c.source ∨ e = c.target → x.checkNode c e = .error f →
      ConnectionFlaw catalog nodes connections c f := by
    intro e he hf
    unfold Index.checkNode at hf
    split at hf
    · cases hf
    rename_i hnone
    cases hf
    refine .missingNode he fun node hm hid => hnone ?_
    obtain ⟨n, hn, -, -⟩ := node?_of_mem h hm
    rw [← hid, hn]
    rfl
  have hport : ∀ {e}, e = c.source ∨ e = c.target → x.checkPort c e = .error f →
      ConnectionFlaw catalog nodes connections c f := by
    intro e he hf
    unfold Index.checkPort at hf
    split at hf
    · cases hf
    rename_i hnone
    cases hf
    refine .missingPort he fun isInput p hp => ?_
    obtain ⟨s, hs, -⟩ := socket?_of_hasPort h hp
    rw [hnone] at hs
    cases hs
  have hfound : ∀ {e p}, x.checkPort c e = .ok p →
      ∃ q, HasPort catalog nodes p.isInput e q ∧ q.kind = p.kind := by
    intro e p hp
    unfold Index.checkPort at hp
    split at hp
    · rename_i s hs
      cases hp
      exact hasPort_of_socket? h hs
    · cases hp
  unfold Index.addConnection at hadd
  rcases bind_eq_error.mp hadd with hadd | ⟨_, -, hadd⟩
  · exact hnode (.inl rfl) hadd
  rcases bind_eq_error.mp hadd with hadd | ⟨_, -, hadd⟩
  · exact hnode (.inr rfl) hadd
  rcases bind_eq_error.mp hadd with hadd | ⟨source, hs, hadd⟩
  · exact hport (.inl rfl) hadd
  rcases bind_eq_error.mp hadd with hadd | ⟨target, ht, hadd⟩
  · exact hport (.inr rfl) hadd
  obtain ⟨p, hp, hpk⟩ := hfound hs
  obtain ⟨q, hq, hqk⟩ := hfound ht
  dsimp only at hadd
  rcases refuse_eq_error hadd with ⟨hsource, rfl⟩ | ⟨hsource, hadd⟩
  · exact .startsAtInput (hsource ▸ hp)
  have hsource : source.isInput = false := by simpa using hsource
  rcases refuse_eq_error hadd with ⟨htarget, rfl⟩ | ⟨htarget, hadd⟩
  · have htarget : target.isInput = false := by simpa using htarget
    exact .endsAtOutput (htarget ▸ hq)
  have htarget : target.isInput = true := by simpa using htarget
  rcases refuse_eq_error hadd with ⟨hkind, rfl⟩ | ⟨-, hadd⟩
  · rw [← hpk, ← hqk] at hkind ⊢
    exact .kindMismatch (hsource ▸ hp) (htarget ▸ hq) hkind
  rcases refuse_eq_error hadd with ⟨hsecond, rfl⟩ | ⟨-, hadd⟩
  · obtain ⟨c', hc'⟩ := Option.isSome_iff_exists.mp hsecond
    obtain ⟨hm, he⟩ := h.mem_of_incoming? hc'
    exact .secondConnection (List.mem_map.mpr ⟨c', hm, he⟩)
  · cases hadd

/-! ### Entries -/

theorem entries_map_node : x.entries.map (·.node) = nodes.filter (·.isEntry catalog) := by
  have hfilter : ∀ p ∈ x.placed, p.2.node.isEntry catalog = p.2.definition.isEntry := by
    intro p hp
    simp [Node.isEntry, h.known hp]
  have hnodes : (x.placed.map Prod.snd).map (·.node) = nodes := by rw [List.map_map]; exact h.nodes
  rw [← hnodes, List.filter_map, Index.entries]
  refine congrArg _ (List.filter_congr fun n hn => ?_)
  obtain ⟨p, hp, rfl⟩ := List.mem_map.mp hn
  exact (hfilter p hp).symm

/-- What `Index.entryFault?` looks for at an entry. -/
def entryFaultAt? (x : Index) (n : PlacedNode) : Option Fault :=
  (n.inputs.filter (·.port.kind == .exec)).findSome? fun s =>
    (x.incoming? ⟨n.node.id, s.port.id⟩).map fun c => .entryConnected c.id n.node.id

theorem node?_of_mem_entries (hn : n ∈ x.entries) : x.node? n.node.id = some n := by
  obtain ⟨⟨id, m⟩, hp, rfl⟩ := List.mem_map.mp (List.mem_filter.mp hn).1
  have := h.node?_of_mem hp
  rwa [← h.keyed hp] at this

theorem entryFine_of_fault (hn : n ∈ x.entries) (hnone : entryFaultAt? x n = none) :
    EntryFine catalog connections n.node := by
  intro p hp hk c hc he
  obtain ⟨s, hs, -, hsid, hsk⟩ := socket_of_port h (node?_of_mem_entries h hn) hp
  have hfree := List.findSome?_eq_none_iff.mp hnone s
    (List.mem_filter.mpr ⟨hs, by simp [hsk, hk]⟩)
  have hin : (c.target, c) ∈ x.incoming := by
    rw [h.incoming]
    exact List.mem_map.mpr ⟨c, hc, rfl⟩
  have hsome := Assoc.lookup_isSome_of_mem hin
  rw [he] at hsome
  simp only [hsid, Option.map_eq_none_iff, Index.incoming?] at hfree
  simp [hfree] at hsome

theorem entryFlaw_of_fault (hn : n ∈ x.entries) (hsome : entryFaultAt? x n = some f) :
    EntryFlaw catalog connections n.node f := by
  obtain ⟨s, hs, hf⟩ := List.exists_of_findSome?_eq_some hsome
  obtain ⟨c, hc, rfl⟩ := Option.map_eq_some_iff.mp hf
  obtain ⟨hs, hk⟩ := List.mem_filter.mp hs
  obtain ⟨p, hp, hpid, hpk⟩ :=
    port_of_mem h (node?_of_mem_entries h hn) (List.mem_append_left _ hs)
  obtain ⟨hc, he⟩ := h.mem_of_incoming? hc
  rw [h.inputs_eq (node?_of_mem_entries h hn)] at hs
  rw [PlacedNode.isInput_of_mem hs] at hp
  exact .entryConnected hp (by rw [hpk]; simpa using hk) hc (hpid ▸ he)

/-! ### Exec connections -/

/-- Control passes along a connection that leaves an exec output. -/
theorem output_of_passes {a b : String} (hab : x.Passes a b) :
    ∃ n s, x.node? a = some n ∧ s ∈ n.outputs ∧ s.port.kind = .exec ∧
      ∃ c ∈ connections, c.source = ⟨a, s.port.id⟩ ∧ c.target.node = b := by
  obtain ⟨s, hs, hb⟩ := List.mem_flatMap.mp hab
  obtain ⟨hs, hk⟩ := List.mem_filter.mp hs
  cases hn : x.node? a with
  | none => simp [Index.outputs, hn] at hs
  | some n =>
    simp only [Index.outputs, hn, Option.map_some, Option.getD_some] at hs
    obtain ⟨c, hc, rfl⟩ := List.mem_map.mp hb
    obtain ⟨hc, he⟩ := h.mem_outgoingOf.mp hc
    exact ⟨n, s, rfl, hs, by simpa using hk, c, hc, he, rfl⟩

theorem passes_iff (a b : String) : x.Passes a b ↔ ExecEdge catalog nodes connections a b := by
  constructor
  · intro hab
    obtain ⟨n, s, hn, hs, hk, c, hc, he, rfl⟩ := output_of_passes h hab
    obtain ⟨p, hp, hpk⟩ := hasPort_of_socket? h (h.socket?_of_mem hn (List.mem_append_right _ hs))
    rw [h.outputs_eq hn] at hs
    rw [PlacedNode.isInput_of_mem hs] at hp
    exact ⟨c, hc, by rw [he], rfl, p, he ▸ hp, hpk.trans hk⟩
  · rintro ⟨c, hc, rfl, rfl, p, hp, hk⟩
    obtain ⟨s, hs, hside, hsk⟩ := socket?_of_hasPort h hp
    obtain ⟨n, hn, hmem, hid⟩ := Index.mem_of_socket? hs
    refine List.mem_flatMap.mpr ⟨s, List.mem_filter.mpr ⟨?_, by simp [hsk, hk]⟩, ?_⟩
    · simpa [Index.outputs, hn] using h.mem_outputs hn hmem hside
    · exact List.mem_map.mpr ⟨c, h.mem_outgoingOf.mpr ⟨hc, by rw [hid]⟩, rfl⟩

theorem transGen_passes_iff (a b : String) :
    TransGen x.Passes a b ↔ TransGen (ExecEdge catalog nodes connections) a b := by
  have : x.Passes = ExecEdge catalog nodes connections := by
    funext a b
    exact propext (passes_iff h a b)
  rw [this]

theorem mem_order_of_successors (a : String) : ∀ b ∈ x.successors a, b ∈ x.order := by
  intro b hb
  obtain ⟨c, hc, -, rfl, -⟩ := (passes_iff h a b).mp hb
  obtain ⟨-, q, -, ⟨node, hm, hid, -⟩, -⟩ := (connectionsFine_of_built h).ends c hc
  rw [order_of_placed h.toPlaced]
  exact List.mem_map.mpr ⟨node, hm, hid⟩

end

/-! ### The whole check -/

theorem wellFormed_of_build (h : Index.build catalog nodes connections = .ok x) :
    WellFormed catalog nodes connections := by
  obtain ⟨hb, hentries, hcycle⟩ := Index.build_ok h
  refine { nodesFine_of_placed hb.toPlaced, connectionsFine_of_built hb with
    entries := fun node hm he => ?_, acyclic := fun a hc => ?_ }
  · have hmem : node ∈ x.entries.map (·.node) := by
      rw [entries_map_node hb]
      exact List.mem_filter.mpr ⟨hm, he⟩
    obtain ⟨n, hn, rfl⟩ := List.mem_map.mp hmem
    exact entryFine_of_fault hb hn (List.findSome?_eq_none_iff.mp hentries n hn)
  · have hends := Index.cycleNode?_eq_none (mem_order_of_successors hb) hcycle a
    exact not_transGen_of_acc hends (transGen_swap.mpr ((transGen_passes_iff hb a a).mpr hc))

/-- A graph that does not pass is reported with its first fault. -/
theorem reported_of_build (h : Index.build catalog nodes connections = .error f) :
    Reported catalog nodes connections f := by
  unfold Index.build at h
  rcases bind_eq_error.mp h with h | ⟨x₁, h₁, h⟩
  · obtain ⟨before, node, after, x, rfl, hbefore, hadd⟩ := foldlM_error h
    have hx := (Index.placed_of_foldlM hbefore).1
    exact .node rfl (nodesFine_of_placed hx) (nodeFlaw_of_addNode hx hadd)
  have hfine := nodesFine_of_placed (Index.placed_of_foldlM h₁).1
  rcases bind_eq_error.mp h with h | ⟨x₂, h₂, h⟩
  · obtain ⟨before, c, after, x, rfl, hbefore, hadd⟩ := foldlM_error h
    have hx := Index.built_of_foldlM h₁ hbefore
    exact .connection hfine rfl (connectionsFine_of_built hx) (connectionFlaw_of_addConnection hx hadd)
  have hb := Index.built_of_foldlM h₁ h₂
  split at h
  · rename_i f' hf
    cases h
    obtain ⟨before, n, after, hsplit, hn, hfree⟩ := List.findSome?_eq_some_iff.mp hf
    have hmem : ∀ m ∈ before ++ n :: after, m ∈ x₂.entries := fun m hm => hsplit ▸ hm
    have hnodes : nodes.filter (·.isEntry catalog) =
        before.map (·.node) ++ n.node :: after.map (·.node) := by
      rw [← entries_map_node hb, hsplit, List.map_append, List.map_cons]
    refine .entry hfine (connectionsFine_of_built hb) hnodes (fun m hm => ?_)
      (entryFlaw_of_fault hb (hmem n (by simp)) hn)
    obtain ⟨m', hm', rfl⟩ := List.mem_map.mp hm
    exact entryFine_of_fault hb (hmem m' (by simp [hm'])) (hfree m' hm')
  · rename_i hentries
    split at h
    · rename_i id hid
      cases h
      refine .cycle hfine (connectionsFine_of_built hb) (fun m hm => ?_)
        ((transGen_passes_iff hb id id).mp (Index.cycleNode?_eq_some hid))
      rw [← entries_map_node hb] at hm
      obtain ⟨n, hn, rfl⟩ := List.mem_map.mp hm
      exact entryFine_of_fault hb hn (List.findSome?_eq_none_iff.mp hentries n hn)
    · cases h

theorem NodeFlaw.not_fine {before after : List Node} (h : NodeFlaw catalog before node f) :
    ¬ NodesFine catalog (before ++ node :: after) := by
  intro hfine
  cases h with
  | duplicateNode h =>
    have := hfine.ids
    rw [List.map_append, List.nodup_append] at this
    exact this.2.2 _ h _ (by simp) rfl
  | unknownType h =>
    have := hfine.types node (by simp)
    simp [h] at this
  | duplicatePort h again first =>
    have := hfine.ports node (by simp)
    rw [h, List.nodup_append] at this
    exact this.2.2 _ again _ (.head _) rfl

/-- The port at one end of a connection is determined, and so is its side. -/
theorem HasPort.unique (hfine : NodesFine catalog nodes) {isInput isInput' : Bool} {p q : Port}
    (hp : HasPort catalog nodes isInput e p) (hq : HasPort catalog nodes isInput' e q) :
    isInput = isInput' ∧ p = q := by
  obtain ⟨node, hm, hid, hp, hpid⟩ := hp
  obtain ⟨node', hm', hid', hq, hqid⟩ := hq
  obtain rfl := List.inj_on_of_nodup_map hfine.ids hm hm' (hid.trans hid'.symm)
  have hports := hfine.ports node hm
  have hside : ∀ {b r}, r ∈ node.ports catalog b →
      r ∈ node.ports catalog true ++ node.ports catalog false := by
    intro b r hr
    cases b with
    | true => exact List.mem_append_left _ hr
    | false => exact List.mem_append_right _ hr
  obtain rfl := List.inj_on_of_nodup_map hports (hside hp) (hside hq) (hpid.trans hqid.symm)
  refine ⟨?_, rfl⟩
  -- a port on both sides would occur twice
  by_contra hne
  rw [List.map_append, List.nodup_append] at hports
  have hmap : ∀ {b}, p ∈ node.ports catalog b → p.id ∈ (node.ports catalog b).map (·.id) :=
    fun h => List.mem_map.mpr ⟨p, h, rfl⟩
  cases isInput <;> cases isInput'
  · exact hne rfl
  · exact hports.2.2 _ (hmap hq) _ (hmap hp) rfl
  · exact hports.2.2 _ (hmap hp) _ (hmap hq) rfl
  · exact hne rfl

theorem ConnectionFlaw.not_fine {before after : List Connection} {c : Connection}
    (h : ConnectionFlaw catalog nodes before c f) (hfine : NodesFine catalog nodes) :
    ¬ ConnectionsFine catalog nodes (before ++ c :: after) := by
  intro hc
  obtain ⟨p, q, hp, hq, hk⟩ := hc.ends c (by simp)
  have hends : ∀ {e}, e = c.source ∨ e = c.target → ∃ isInput r, HasPort catalog nodes isInput e r := by
    rintro e (rfl | rfl)
    · exact ⟨_, p, hp⟩
    · exact ⟨_, q, hq⟩
  cases h with
  | missingNode he h =>
    obtain ⟨_, r, node, hm, hid, -⟩ := hends he
    exact h node hm hid
  | missingPort he h =>
    obtain ⟨isInput, r, hr⟩ := hends he
    exact h isInput r hr
  | startsAtInput h => cases (hp.unique hfine h).1
  | endsAtOutput h => cases (hq.unique hfine h).1
  | kindMismatch hp' hq' h =>
    obtain ⟨-, rfl⟩ := hp.unique hfine hp'
    obtain ⟨-, rfl⟩ := hq.unique hfine hq'
    exact h hk
  | secondConnection h =>
    have := hc.targets
    rw [List.map_append, List.nodup_append] at this
    exact this.2.2 _ h _ (by simp) rfl

/-- What is reported is a fault indeed. -/
theorem Reported.not_wellFormed (h : Reported catalog nodes connections f) :
    ¬ WellFormed catalog nodes connections := by
  intro hwf
  cases h with
  | node split _ flaw => exact flaw.not_fine (split ▸ hwf.toNodesFine)
  | connection fine split _ flaw => exact flaw.not_fine fine (split ▸ hwf.toConnectionsFine)
  | @entry before after node _ _ _ split _ flaw =>
    obtain ⟨hm, he⟩ := List.mem_filter.mp (split ▸ (by simp : node ∈ before ++ node :: after))
    cases flaw with
    | entryConnected hp hk hc h => exact hwf.entries node hm he _ hp hk _ hc h
  | cycle _ _ _ flaw => exact hwf.acyclic _ flaw

/-- **Which graphs pass.**  A graph passes exactly if it is well formed.  Otherwise the fault that is
reported is the first in the order of nodes, connections, entries and exec cycles. -/
theorem build_spec (catalog : Catalog) (nodes : List Node) (connections : List Connection) :
    ((∃ x, Index.build catalog nodes connections = .ok x) ↔ WellFormed catalog nodes connections) ∧
      ∀ f, Index.build catalog nodes connections = .error f →
        Reported catalog nodes connections f := by
  refine ⟨⟨fun ⟨x, h⟩ => wellFormed_of_build h, fun hwf => ?_⟩, fun f => reported_of_build⟩
  cases h : Index.build catalog nodes connections with
  | ok x => exact ⟨x, rfl⟩
  | error f => exact absurd hwf (reported_of_build h).not_wellFormed

end Graph

end VisualScript
