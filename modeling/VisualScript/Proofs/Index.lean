import VisualScript.Graph.Index
import VisualScript.Proofs.Tables

/-!
# Proofs — Index

What the tables of a checked graph hold.  `Index.build` adds the nodes and then the connections one
after the other; each step keeps what is known of the nodes and connections before it
(`Index.Placed`, `Index.Joined`), so a graph that passes is described by its node list and its
connection list alone (`Index.Built`).
-/

namespace VisualScript

theorem Catalog.nodup_of_firstRepeated {xs : List String} :
    ∀ {seen : List String}, firstRepeated seen xs = none → xs.Nodup ∧ ∀ a ∈ xs, a ∉ seen := by
  induction xs with
  | nil => simp
  | cons a xs ih =>
    intro seen h
    rw [firstRepeated] at h
    split at h
    · cases h
    · rename_i ha
      obtain ⟨hn, hs⟩ := ih h
      refine ⟨List.nodup_cons.mpr ⟨fun hm => hs a hm (.head _), hn⟩, fun b hb => ?_⟩
      rcases List.mem_cons.mp hb with rfl | hb
      · exact ha
      · exact fun hm => hs b hb (.tail _ hm)

theorem Catalog.find?_of_require {c : Catalog} {nodeType : String} {node : Option String}
    {d : Definition} (h : c.require nodeType node = .ok d) : c.find? nodeType = some d := by
  unfold require at h
  split at h
  · cases h; assumption
  · cases h

namespace Index

variable {catalog : Catalog} {nodes : List Node} {x x' : Index} {connections : List Connection}

/-- The tables hold the nodes of a list: each under its id, with its definition, and with ports of
different ids. -/
structure Placed (catalog : Catalog) (nodes : List Node) (x : Index) : Prop where
  nodes    : x.placed.map (·.2.node) = nodes
  keyed    : ∀ {id n}, (id, n) ∈ x.placed → n.node.id = id
  distinct : x.order.Nodup
  known    : ∀ {id n}, (id, n) ∈ x.placed → catalog.find? n.node.nodeType = some n.definition
  made     : ∀ {id n}, (id, n) ∈ x.placed → n = PlacedNode.make n.node n.definition
  ports    : ∀ {id n}, (id, n) ∈ x.placed → (n.sockets.map (·.port.id)).Nodup

/-- Whether a connection starts at a data port. -/
def carriesData (x : Index) (c : Connection) : Bool :=
  (x.socket? c.source).any (·.port.kind == .data)

/-- The tables hold the connections of a list: each leads from an output to an input of its kind,
no two end at the same port, and those that carry data are counted at the node they leave. -/
structure Joined (connections : List Connection) (x : Index) : Prop where
  incoming : x.incoming = connections.map fun c => (c.target, c)
  outgoing : ∀ e, x.outgoingOf e = connections.filter (·.source = e)
  single   : (connections.map (·.target)).Nodup
  ends     : ∀ c ∈ connections, ∃ s t, x.socket? c.source = some s ∧
    x.socket? c.target = some t ∧ s.port.isInput = false ∧ t.port.isInput = true ∧
    s.port.kind = t.port.kind
  counted  : ∀ id, x.consumerCount id =
    connections.countP fun c => c.source.node = id && x.carriesData c

/-! ### One step -/

theorem Placed.addNode {node : Node} (h : Placed catalog nodes x)
    (hadd : addNode catalog x node = .ok x') :
    Placed catalog (nodes ++ [node]) x' ∧ x'.incoming = x.incoming ∧ x'.outgoing = x.outgoing ∧
      x'.consumers = x.consumers := by
  unfold Index.addNode at hadd
  split at hadd
  · cases hadd
  rename_i hfresh
  obtain ⟨d, hd, hadd⟩ := bind_eq_ok.mp hadd
  simp only at hadd
  split at hadd
  · cases hadd
  rename_i hports
  cases hadd
  have hd := Catalog.find?_of_require hd
  have hfresh : node.id ∉ x.order := by
    simpa [Assoc.contains, order, Assoc.keys] using hfresh
  -- what holds of the old entries and of the new one holds of all
  have hall : ∀ {P : String → PlacedNode → Prop}, (∀ {id n}, (id, n) ∈ x.placed → P id n) →
      P node.id (PlacedNode.make node d) →
      ∀ {id n}, (id, n) ∈ x.placed ++ [(node.id, PlacedNode.make node d)] → P id n := by
    intro P hold hnew id n hm
    rcases List.mem_append.mp hm with hm | hm
    · exact hold hm
    · cases List.mem_singleton.mp hm
      exact hnew
  refine ⟨⟨?_, hall h.keyed rfl, ?_, hall h.known hd, hall h.made rfl,
    hall h.ports (Catalog.nodup_of_firstRepeated hports).1⟩, rfl, rfl, rfl⟩
  · simp [h.nodes, PlacedNode.make]
  · simp only [order, Assoc.keys, List.map_append, List.map_cons, List.map_nil]
    exact List.nodup_append.mpr ⟨h.distinct, List.nodup_singleton _, by
      intro a ha b hb e
      exact hfresh (by rw [← List.mem_singleton.mp hb, ← e]; exact ha)⟩

/-- What adding a connection has checked, and what it changes. -/
theorem addConnection_ok {c : Connection} (h : addConnection x c = .ok x') :
    (∃ s t, x.socket? c.source = some s ∧ x.socket? c.target = some t ∧
      s.port.isInput = false ∧ t.port.isInput = true ∧ s.port.kind = t.port.kind) ∧
    x.incoming? c.target = none ∧ x'.placed = x.placed ∧
    x'.incoming = x.incoming ++ [(c.target, c)] ∧
    x'.outgoing = Assoc.set c.source (x.outgoingOf c.source ++ [c]) x.outgoing ∧
    ∀ id, x'.consumerCount id =
      x.consumerCount id + if c.source.node = id && x.carriesData c then 1 else 0 := by
  unfold addConnection at h
  obtain ⟨_, -, h⟩ := bind_eq_ok.mp h
  obtain ⟨_, -, h⟩ := bind_eq_ok.mp h
  obtain ⟨source, hp, h⟩ := bind_eq_ok.mp h
  obtain ⟨target, hq, h⟩ := bind_eq_ok.mp h
  have hport : ∀ {e : Endpoint} {p : Port}, x.checkPort c e = .ok p →
      ∃ s, x.socket? e = some s ∧ s.port = p := by
    intro e p hp
    unfold checkPort at hp
    split at hp
    · cases hp
      exact ⟨_, by assumption, rfl⟩
    · cases hp
  obtain ⟨s, hs, rfl⟩ := hport hp
  obtain ⟨t, ht, rfl⟩ := hport hq
  dsimp only at h
  obtain ⟨hsource, h⟩ := refuse_eq_ok h
  obtain ⟨htarget, h⟩ := refuse_eq_ok h
  obtain ⟨hkind, h⟩ := refuse_eq_ok h
  obtain ⟨hfree, h⟩ := refuse_eq_ok h
  cases h
  refine ⟨⟨s, t, hs, ht, by simpa using hsource, by simpa using htarget, by simpa using hkind⟩,
    by simpa using hfree, rfl, rfl, rfl, fun id => ?_⟩
  by_cases hdata : s.port.kind = .data
  · by_cases hid : id = c.source.node
    · simp [consumerCount, carriesData, hs, hdata, hid, Assoc.lookup_set]
    · simp [consumerCount, carriesData, hdata, hid, Ne.symm hid, Assoc.lookup_set]
  · simp [consumerCount, carriesData, hs, hdata]

theorem socket?_congr {x y : Index} (h : y.placed = x.placed) (e : Endpoint) :
    y.socket? e = x.socket? e := by
  simp only [socket?, node?, h]

theorem Joined.addConnection {c : Connection} (h : Joined connections x)
    (hadd : addConnection x c = .ok x') : Joined (connections ++ [c]) x' := by
  obtain ⟨hends, hfree, hplaced, hin, hout, hcount⟩ := addConnection_ok hadd
  refine ⟨by simp [hin, h.incoming], fun e => ?_, ?_, fun c' hc' => ?_, fun id => ?_⟩
  · rw [outgoingOf, hout, Assoc.lookup_set]
    by_cases he : e = c.source
    · subst he
      simp [h.outgoing]
    · have : (c.source = e) = False := by simpa using fun h => he h.symm
      simp only [he, if_false, List.filter_append, this, decide_false, Bool.false_eq_true,
        not_false_eq_true, List.filter_cons_of_neg, List.filter_nil, List.append_nil]
      exact h.outgoing e
  · rw [List.map_append, List.nodup_append]
    refine ⟨h.single, List.nodup_singleton _, fun a ha b hb e => ?_⟩
    obtain ⟨c₀, hc₀, rfl⟩ := List.mem_map.mp ha
    have hmem : (c₀.target, c₀) ∈ x.incoming := by
      rw [h.incoming]
      exact List.mem_map.mpr ⟨c₀, hc₀, rfl⟩
    have hsome := Assoc.lookup_isSome_of_mem hmem
    rw [e, List.mem_singleton.mp hb] at hsome
    rw [incoming?] at hfree
    simp [hfree] at hsome
  · simp only [socket?_congr hplaced]
    rcases List.mem_append.mp hc' with hc' | hc'
    · exact h.ends c' hc'
    · rw [List.mem_singleton.mp hc']
      exact hends
  · simp only [carriesData, socket?_congr hplaced] at hcount ⊢
    rw [hcount, h.counted, List.countP_append, List.countP_singleton]
    rfl

theorem Placed.congr {x y : Index} (h : Placed catalog nodes x) (hp : y.placed = x.placed) :
    Placed catalog nodes y := by
  obtain ⟨h₁, h₂, h₃, h₄, h₅, h₆⟩ := h
  constructor <;> simpa only [order, hp]

/-! ### The whole graph -/

/-- A graph that has been checked. -/
structure Built (catalog : Catalog) (nodes : List Node) (connections : List Connection)
    (x : Index) : Prop extends Placed catalog nodes x, Joined connections x

theorem Joined.mem_outgoingOf (h : Joined connections x) {c : Connection} {e : Endpoint} :
    c ∈ x.outgoingOf e ↔ c ∈ connections ∧ c.source = e := by
  rw [h.outgoing, List.mem_filter, decide_eq_true_iff]

theorem placed_of_foldlM (h : nodes.foldlM (addNode catalog) {} = .ok x) :
    Placed catalog nodes x ∧ x.incoming = [] ∧ x.outgoing = [] ∧ x.consumers = [] := by
  refine foldlM_ok (fun taken y => Placed catalog taken y ∧ y.incoming = [] ∧ y.outgoing = [] ∧
    y.consumers = []) ?_ nodes [] {} x ?_ h
  · rintro taken node y y' ⟨hy, hi, ho, hc⟩ hadd
    obtain ⟨hy', hi', ho', hc'⟩ := hy.addNode hadd
    exact ⟨hy', hi'.trans hi, ho'.trans ho, hc'.trans hc⟩
  · exact ⟨by constructor <;> simp [order, Assoc.keys], rfl, rfl, rfl⟩

theorem built_of_foldlM (hnodes : nodes.foldlM (addNode catalog) {} = .ok x)
    (h : connections.foldlM addConnection x = .ok x') : Built catalog nodes connections x' := by
  obtain ⟨hx, hi, ho, hc⟩ := placed_of_foldlM hnodes
  have hjoined : x'.placed = x.placed ∧ Joined connections x' := by
    refine foldlM_ok (fun taken y => y.placed = x.placed ∧ Joined taken y)
      ?_ connections [] x x' ?_ h
    · rintro taken c y y' ⟨hp, hy⟩ hadd
      obtain ⟨-, -, hp', -⟩ := addConnection_ok hadd
      exact ⟨hp'.trans hp, hy.addConnection hadd⟩
    · exact ⟨rfl, by simp [hi], by simp [outgoingOf, ho], by simp, by simp,
        by simp [consumerCount, hc]⟩
  exact { hx.congr hjoined.1, hjoined.2 with }

/-- A graph that passes has gone through all its checks. -/
theorem build_ok (h : build catalog nodes connections = .ok x) :
    Built catalog nodes connections x ∧ x.entryFault? = none ∧ x.cycleNode? = none := by
  unfold build at h
  obtain ⟨x₁, h₁, h⟩ := bind_eq_ok.mp h
  obtain ⟨x₂, h₂, h⟩ := bind_eq_ok.mp h
  split at h
  · cases h
  · split at h
    · cases h
    · cases h
      exact ⟨built_of_foldlM h₁ h₂, by assumption, by assumption⟩

/-- **What a checked graph is.** -/
theorem built_of_build (h : build catalog nodes connections = .ok x) :
    Built catalog nodes connections x := (build_ok h).1

/-! ### Nodes that are left -/

/-- How many nodes of the graph are not among those already seen. -/
def remaining (x : Index) (seen : List String) : Nat := (x.order.filter (· ∉ seen)).length

theorem remaining_nil (x : Index) : x.remaining [] = x.placed.length := by
  simp [remaining, order, Assoc.keys]

theorem remaining_le {seen seen' : List String} (h : ∀ a ∈ seen, a ∈ seen') :
    x.remaining seen' ≤ x.remaining seen :=
  (List.monotone_filter_right x.order fun a ha => by
    simpa using fun hs => (by simpa using ha : a ∉ seen') (h a hs)).length_le

/-- Seeing one more node leaves fewer of them. -/
theorem remaining_cons_lt {seen : List String} {id : String} (hm : id ∈ x.order) (hs : id ∉ seen) :
    x.remaining (id :: seen) < x.remaining seen := by
  have hfilter : x.order.filter (· ∉ id :: seen) =
      (x.order.filter (· ∉ seen)).filter (· ≠ id) := by
    rw [List.filter_filter]
    exact List.filter_congr fun a _ => by simp
  unfold remaining
  rw [hfilter]
  exact List.length_filter_lt_length_iff_exists.mpr ⟨id, by simp [hm, hs], by simp⟩

end Index

end VisualScript
