import VisualScript.Proofs.Agreement
import VisualScript.Proofs.Forest
import VisualScript.Proofs.Separation

/-!
# Proofs — Reordering

What the order of nodes and connections does to a script.  A graph in another order passes the same
checks and its tables agree with the old ones; only the connections of an output come in the order
they are listed in.  If generation goes on along exec connections only, the exec connections of
each output keep their order, and no node has two exec inputs, the functions of the script are the
same, in the order of their entries (`Script.generate_reordered`).
-/

namespace VisualScript

variable {catalog : Catalog} {nodes nodes' : List Node} {connections connections' : List Connection}
  {x y : Index}

namespace Graph

/-- The nodes and connections of a graph in another order, where the exec connections of an output
keep theirs. -/
structure Reordered (catalog : Catalog) (nodes nodes' : List Node)
    (connections connections' : List Connection) : Prop where
  nodePerm       : nodes'.Perm nodes
  connectionPerm : connections'.Perm connections
  fanOut         : ∀ e p, HasPort catalog nodes false e p → p.kind = .exec →
    connections'.filter (·.source = e) = connections.filter (·.source = e)

/-- No node has two exec inputs. -/
def SingleExec (catalog : Catalog) (nodes : List Node) : Prop :=
  ∀ node ∈ nodes, ((node.ports catalog true).filter (·.kind == .exec)).length ≤ 1

instance (catalog : Catalog) (nodes : List Node) : Decidable (SingleExec catalog nodes) :=
  inferInstanceAs (Decidable (∀ node ∈ nodes, _))

theorem SingleExec.inputs (h : SingleExec catalog nodes)
    (hx : Index.Built catalog nodes connections x) {id : String} {n : PlacedNode}
    (hn : x.node? id = some n) : (n.inputs.filter (·.port.kind == .exec)).length ≤ 1 := by
  have hports := (ports_make (hx.known (Index.mem_placed hn))).1
  rw [← hx.made (Index.mem_placed hn)] at hports
  have hcount := congrArg (List.countP (·.kind == PortKind.exec)) hports
  rw [List.countP_map, List.countP_map, List.countP_eq_length_filter,
    List.countP_eq_length_filter] at hcount
  exact hcount ▸ h _ (mem_nodes hx hn)

/-- Outputs that nothing starts at need not be compared. -/
theorem filter_source_eq (hc : connections'.Perm connections) {e : Endpoint}
    (h : ∀ c ∈ connections, c.source = e →
      connections'.filter (·.source = e) = connections.filter (·.source = e)) :
    connections'.filter (·.source = e) = connections.filter (·.source = e) := by
  by_cases hnone : connections.filter (·.source = e) = []
  · have hperm := hc.filter (·.source = e)
    rw [hnone] at hperm
    rw [hnone, hperm.eq_nil]
  · obtain ⟨c, hm⟩ := List.exists_mem_of_ne_nil _ hnone
    obtain ⟨hm, hsource⟩ := List.mem_filter.mp hm
    exact h c hm (by simpa using hsource)

/-- The order has to be looked at only where connections start. -/
theorem Reordered.of_sources (hn : nodes'.Perm nodes) (hc : connections'.Perm connections)
    (h : ∀ c ∈ connections, ∀ node ∈ nodes, node.id = c.source.node →
      ∀ p ∈ node.ports catalog false, p.id = c.source.port → p.kind = .exec →
        connections'.filter (·.source = c.source) = connections.filter (·.source = c.source)) :
    Reordered catalog nodes nodes' connections connections' := by
  refine ⟨hn, hc, fun e p ⟨node, hnode, hid, hport, hpid⟩ hk => filter_source_eq hc ?_⟩
  rintro c hm rfl
  exact h c hm node hnode hid p hport hpid hk

/-! ### The checks -/

theorem HasPort.perm (hn : nodes'.Perm nodes) {isInput : Bool} {e : Endpoint} {p : Port} :
    HasPort catalog nodes' isInput e p ↔ HasPort catalog nodes isInput e p := by
  simp only [HasPort, hn.mem_iff]

theorem ExecEdge.perm (hn : nodes'.Perm nodes) (hc : connections'.Perm connections) :
    ExecEdge catalog nodes' connections' = ExecEdge catalog nodes connections := by
  funext a b
  simp only [ExecEdge, hc.mem_iff, HasPort.perm hn]

/-- Whether a graph is fine does not depend on its order. -/
theorem WellFormed.perm (h : WellFormed catalog nodes connections) (hn : nodes'.Perm nodes)
    (hc : connections'.Perm connections) : WellFormed catalog nodes' connections' where
  ids := (hn.map _).nodup_iff.mpr h.ids
  types node hm := h.types node (hn.mem_iff.mp hm)
  ports node hm := h.ports node (hn.mem_iff.mp hm)
  ends c hm := by
    obtain ⟨p, q, hp, hq, hk⟩ := h.ends c (hc.mem_iff.mp hm)
    exact ⟨p, q, (HasPort.perm hn).mpr hp, (HasPort.perm hn).mpr hq, hk⟩
  targets := (hc.map _).nodup_iff.mpr h.targets
  entries node hm he p hp hk c hcm :=
    h.entries node (hn.mem_iff.mp hm) he p hp hk c (hc.mem_iff.mp hcm)
  acyclic := by
    rw [ExecEdge.perm hn hc]
    exact h.acyclic

end Graph

/-! ### The tables -/

namespace Index.Built

theorem node?_of_subset (hx : Built catalog nodes connections x)
    (hy : Built catalog nodes' connections' y) (hn : ∀ node ∈ nodes, node ∈ nodes') {id : String}
    {n : PlacedNode} (h : x.node? id = some n) : y.node? id = some n := by
  obtain ⟨m, hm, hnode, hfind⟩ := Graph.node?_of_mem hy (hn _ (Graph.mem_nodes hx h))
  rw [hx.node_id h] at hm
  have hdefinition : m.definition = n.definition :=
    Option.some.inj (hfind.symm.trans (hx.known (Index.mem_placed h)))
  rw [hm, hy.made (Index.mem_placed hm), hx.made (Index.mem_placed h), hnode, hdefinition]

theorem incoming?_of_subset (hx : Built catalog nodes connections x)
    (hy : Built catalog nodes' connections' y) (hc : ∀ c ∈ connections, c ∈ connections')
    {e : Endpoint} {c : Connection} (h : x.incoming? e = some c) : y.incoming? e = some c := by
  have hmem := Assoc.mem_of_lookup h
  rw [hx.incoming] at hmem
  obtain ⟨c, hm, he⟩ := List.mem_map.mp hmem
  cases he
  refine Assoc.lookup_of_mem ?_ ?_
  · rw [hy.incoming, Assoc.keys, List.map_map]
    exact hy.single
  · rw [hy.incoming]
    exact List.mem_map.mpr ⟨c, hc c hm, rfl⟩

/-- Graphs with the same nodes and connections have tables that agree. -/
theorem agrees (hx : Built catalog nodes connections x) (hy : Built catalog nodes' connections' y)
    (hn : nodes'.Perm nodes) (hc : connections'.Perm connections) : Agrees x y := by
  have hnode : ∀ id, y.node? id = x.node? id := fun id => Option.ext fun n =>
    ⟨hy.node?_of_subset hx fun _ => hn.mem_iff.mp, hx.node?_of_subset hy fun _ => hn.mem_iff.mpr⟩
  refine ⟨hnode, fun e => ?_, fun id => ?_, fun e => ?_, ?_⟩
  · exact Option.ext fun c => ⟨hy.incoming?_of_subset hx fun _ => hc.mem_iff.mp,
      hx.incoming?_of_subset hy fun _ => hc.mem_iff.mpr⟩
  · have hcarries : y.carriesData = x.carriesData := by
      funext c
      simp only [Index.carriesData, Index.socket?, hnode]
    rw [hx.counted, hy.counted, hcarries]
    exact hc.countP_eq _
  · rw [hx.outgoing, hy.outgoing]
    exact (hc.filter _).isEmpty_eq
  · have hlength : ∀ {nodes connections} {z : Index}, Built catalog nodes connections z →
        z.placed.length = nodes.length := fun hz => by rw [← hz.nodes, List.length_map]
    rw [hlength hx, hlength hy, hn.length_eq]

end Index.Built

/-! ### The flow of an entry -/

namespace Index.Agrees

variable {id : String} {n : PlacedNode} {r : Recipe}

theorem exits (h : Agrees x y) (id : String) : Flow.exits y id = Flow.exits x id := by
  simp only [Flow.exits, h.node, h.outline]

theorem reach (h : Agrees x y) (p : Progress) (id : String) :
    Flow.enter y p id = Flow.enter x p id := by
  simp only [Flow.enter, h.node]

theorem entryJobs (ht : ∀ id, ∀ e ∈ Flow.exits x id, y.targets e = x.targets e)
    (hn : x.node? n.node.id = some n) (he : n.definition.isEntry = true) :
    Flow.entryJobs y n = Flow.entryJobs x n :=
  List.map_congr_left fun s hs => by rw [ht _ _ (Flow.mem_exits_of_entry hn he hs)]

variable (hx : Built catalog nodes connections x)
  (ht : ∀ id, ∀ e ∈ Flow.exits x id, y.targets e = x.targets e) (hn : x.node? id = some n)
  (hi : n.definition.isEntry = false) (hr : Recipe.ofType? n.node.nodeType = some r)

include hx ht hn hi hr

theorem targets {port : String} (hport : port ∈ (r.outline x n).items.filterMap Item.port?) :
    Flow.targets y n port = Flow.targets x n port := by
  unfold Flow.targets
  split
  · rename_i p hp
    rw [hx.node_id hn]
    exact ht id _ (Flow.mem_exits_of_port hn hi hr hport hp)
  · rfl

theorem jobs :
    Flow.jobs y n (Outline.splitTail (r.outline x n).items).1 =
      Flow.jobs x n (Outline.splitTail (r.outline x n).items).1 := by
  refine List.map_congr_left fun item hm => ?_
  rw [Flow.itemTargets_eq, Flow.itemTargets_eq]
  cases hp : item.port? with
  | none => rfl
  | some port =>
    have hport := List.mem_filterMap.mpr ⟨item, Flow.mem_of_mem_splitTail hm, hp⟩
    simp only [Option.map_some, targets hx ht hn hi hr hport]

theorem tailTargets :
    Flow.tailTargets y n (r.outline x n).items = Flow.tailTargets x n (r.outline x n).items := by
  unfold Flow.tailTargets
  cases hp : (Outline.splitTail (r.outline x n).items).2 with
  | none => rfl
  | some port =>
    have hport : port ∈ (r.outline x n).items.filterMap Item.port? :=
      List.mem_filterMap.mpr ⟨_, Flow.follow_mem_of_splitTail hp, rfl⟩
    simp only [Option.map_some, targets hx ht hn hi hr hport]

end Index.Agrees

mutual

/-- A layout follows the targets of outputs only that the layout goes on with. -/
theorem Unrolls.agree (hx : Index.Built catalog nodes connections x) (h : x.Agrees y)
    (ht : ∀ id, ∀ e ∈ Flow.exits x id, y.targets e = x.targets e) :
    ∀ {work : List String} {p q : Progress} {c : Chain}, Unrolls x work p c q →
      Unrolls y work p c q
  | _, _, _, _, .nil => .nil
  | _, _, _, _, .skip hf hu => .skip hf (hu.agree hx h ht)
  | _, _, _, _, .halt hf he => .halt hf (by rwa [h.reach])
  | _, _, _, _, .step hf he hp hc => by
    obtain ⟨hn, -, hi, hr⟩ := Flow.enter_ok he
    have hp := hp.agree hx h ht
    have hc := hc.agree hx h ht
    rw [← Index.Agrees.jobs hx ht hn hi hr, ← h.outline] at hp
    rw [← Index.Agrees.tailTargets hx ht hn hi hr, ← h.outline] at hc
    exact .step hf (by rwa [h.reach]) hp hc

theorem Lays.agree (hx : Index.Built catalog nodes connections x) (h : x.Agrees y)
    (ht : ∀ id, ∀ e ∈ Flow.exits x id, y.targets e = x.targets e) :
    ∀ {jobs : Flow.Jobs} {p q : Progress} {own : Parts}, Lays x jobs p own q → Lays y jobs p own q
  | _, _, _, _, .nil => .nil
  | _, _, _, _, .job hl hb hj => .job hl (hb.agree hx h ht) (hj.agree hx h ht)

end

theorem Index.Agrees.entry (hx : Index.Built catalog nodes connections x) (h : x.Agrees y)
    (ht : ∀ id, ∀ e ∈ Flow.exits x id, y.targets e = x.targets e) {n : PlacedNode}
    (hn : n ∈ x.entries) : (Flow.entry y n {}).1 = (Flow.entry x n {}).1 := by
  obtain ⟨hn, he⟩ := (Script.mem_entries hx).mp hn
  obtain ⟨now, hlays, -⟩ := Flow.lays_entry (x := x) n {}
  obtain ⟨now', hlays', -⟩ := Flow.lays_entry (x := y) n {}
  rw [Index.Agrees.entryJobs ht hn he] at hlays'
  exact (hlays'.unique (hlays.agree hx h ht)).1

/-! ### The functions -/

/-- Generation goes on along exec connections only. -/
def Index.Steered (catalog : Catalog) (nodes : List Node) (connections : List Connection)
    (x : Index) : Prop :=
  ∀ c ∈ connections, x.Continues c →
    ∃ p, Graph.HasPort catalog nodes false c.source p ∧ p.kind = .exec

/-- The recipes of the built-in catalog go on with exec outputs only. -/
theorem Index.Built.steered (hx : Index.Built .builtin nodes connections x) :
    x.Steered .builtin nodes connections := by
  intro c hc hcontinues
  obtain ⟨-, s, hs, hk⟩ := Flow.socket?_of_mem_exits hx hcontinues
  obtain ⟨s', -, hs', -, hi, -⟩ := hx.ends c hc
  cases hs.symm.trans hs'
  obtain ⟨p, hp, hkind⟩ := Graph.hasPort_of_socket? hx hs
  exact ⟨p, hi ▸ hp, hkind.trans hk⟩

/-- What the layout goes on to, an exec connection leads to. -/
theorem Index.Steered.led (h : x.Steered catalog nodes connections)
    (hx : Index.Built catalog nodes connections x) {a b : String} (hb : b ∈ Flow.next x a) :
    ∃ c ∈ connections, c.source.node = a ∧ c.target.node = b ∧
      ∃ s, x.socket? c.source = some s ∧ s.port.kind = .exec := by
  obtain ⟨e, he, hm⟩ := Flow.exit_of_next hx hb
  obtain ⟨c, hc, rfl⟩ := List.mem_map.mp hm
  obtain ⟨hc, hcontinues, rfl⟩ := hx.continues_of_exit he hc
  obtain ⟨p, hp, hk⟩ := h c hc hcontinues
  obtain ⟨s, hs, -, hkind⟩ := Graph.socket?_of_hasPort hx hp
  exact ⟨c, hc, rfl, rfl, s, hs, hkind.trans hk⟩

/-- The outputs that the layout goes on with lead to the same nodes in the same order: they are exec
outputs, or nothing is connected to them. -/
theorem Index.Steered.targets (h : x.Steered catalog nodes connections)
    (hx : Index.Built catalog nodes connections x) (hy : Index.Built catalog nodes' connections' y)
    (horder : Graph.Reordered catalog nodes nodes' connections connections') (id : String)
    (e : Endpoint) (he : e ∈ Flow.exits x id) : y.targets e = x.targets e := by
  have hout : y.outgoingOf e = x.outgoingOf e := by
    rw [hx.outgoing, hy.outgoing]
    refine Graph.filter_source_eq horder.connectionPerm ?_
    rintro c hc rfl
    obtain rfl := Flow.node_of_mem_exits he
    obtain ⟨p, hp, hk⟩ := h c hc he
    exact horder.fanOut c.source p hp hk
  rw [Index.targets, Index.targets, hout]

namespace Script

/-- The flow of each entry is the one it has alone. -/
theorem flows_alone (hbuild : Index.build catalog nodes connections = .ok x)
    (hsteered : x.Steered catalog nodes connections) (hsingle : Graph.SingleExec catalog nodes) :
    flows x x.entries {} = x.entries.map fun n => (n, (Flow.entry x n {}).1) := by
  have hx := Index.built_of_build hbuild
  refine flows_eq_map (fun ha hb => ?_) (fun hb hm => ?_) (awaiting_entries hx) rfl (by simp)
  · obtain ⟨c, hc, rfl, ht, s, hs, hk⟩ := hsteered.led hx ha
    obtain ⟨c', hc', rfl, ht', s', hs', hk'⟩ := hsteered.led hx hb
    rw [hx.exec_unique (hsingle.inputs hx) hc hc' (ht.trans ht'.symm) hs hs' hk hk']
  · obtain ⟨c, hc, rfl, rfl, s, hs, hk⟩ := hsteered.led hx hb
    exact Index.inner_of_passes hbuild (hx.passes_of_mem hc hs hk) hm

/-- A graph whose outputs keep their order where the layout goes on with them has the same flows, in
the order of its entries. -/
theorem flows_perm (hx : Index.Built catalog nodes connections x)
    (hy : Index.Built catalog nodes' connections' y) (h : x.Agrees y)
    (ht : ∀ id, ∀ e ∈ Flow.exits x id, y.targets e = x.targets e) :
    (y.entries.map fun n => (n, (Flow.entry y n {}).1)).Perm
      (x.entries.map fun n => (n, (Flow.entry x n {}).1)) := by
  have hmem : ∀ n, n ∈ y.entries ↔ n ∈ x.entries := fun n => by
    rw [mem_entries hy, mem_entries hx, h.node]
  have hperm : y.entries.Perm x.entries :=
    (List.perm_ext_iff_of_nodup (entries_nodup hy).of_map (entries_nodup hx).of_map).mpr hmem
  have hflow : (y.entries.map fun n => (n, (Flow.entry y n {}).1)) =
      y.entries.map fun n => (n, (Flow.entry x n {}).1) :=
    List.map_congr_left fun n hn => by rw [h.entry hx ht ((hmem n).mp hn)]
  rw [hflow]
  exact hperm.map _

/-- **The order of a graph is the order of its functions and nothing else.**  If a script can be
generated from a graph in which generation goes on along exec connections only and no node has two
exec inputs, it can be generated from the graph in any other order that keeps the order of the exec
connections of each output.  The functions are the same, each with the same name, parameters and
code, in the order in which their entries are listed. -/
theorem generate_reordered {indent moduleId text : String}
    (hbuild : Index.build catalog nodes connections = .ok x)
    (hsteered : x.Steered catalog nodes connections) (hsingle : Graph.SingleExec catalog nodes)
    (horder : Graph.Reordered catalog nodes nodes' connections connections')
    (hgen : generate catalog indent moduleId nodes connections = .ok text) :
    ∃ y fs fs' text', Index.build catalog nodes' connections' = .ok y ∧
      functions x moduleId = .ok fs ∧ functions y moduleId = .ok fs' ∧
      generate catalog indent moduleId nodes' connections' = .ok text' ∧
      (nodes ≠ [] → text = Script.text indent moduleId fs ∧
        text' = Script.text indent moduleId fs') ∧
      fs'.Perm fs ∧ fs'.map (·.entry.node) = nodes'.filter (·.isEntry catalog) := by
  have hn := horder.nodePerm
  have hc := horder.connectionPerm
  have hx := Index.built_of_build hbuild
  obtain ⟨y, hbuild'⟩ := (Graph.build_spec catalog nodes' connections').1.mpr
    ((Graph.wellFormed_of_build hbuild).perm hn hc)
  have hy := Index.built_of_build hbuild'
  have hagrees := hx.agrees hy hn hc
  -- what is asked of the graph does not depend on its order
  have hsteered' : y.Steered catalog nodes' connections' := by
    intro c hm hcontinues
    rw [Index.Continues, hagrees.exits] at hcontinues
    obtain ⟨p, hp, hk⟩ := hsteered c (hc.mem_iff.mp hm) hcontinues
    exact ⟨p, (Graph.HasPort.perm hn).mpr hp, hk⟩
  have hsingle' : Graph.SingleExec catalog nodes' := fun node hm => hsingle node (hn.mem_iff.mp hm)
  have htargets := hsteered.targets hx hy horder
  obtain ⟨fs, hfs, htext⟩ := functions_of_generate hbuild hgen
  have hflows : (flows y y.entries {}).Perm (flows x x.entries {}) := by
    rw [flows_alone hbuild hsteered hsingle, flows_alone hbuild' hsteered' hsingle']
    exact flows_perm hx hy hagrees htargets
  have hfs' : ∃ fs', functions y moduleId = .ok fs' ∧ fs'.Perm fs := by
    simp only [functions, hagrees.make]
    exact mapM_perm hflows hfs
  obtain ⟨fs', hfs', hperm⟩ := hfs'
  have hentries : fs'.map (·.entry.node) = nodes'.filter (·.isEntry catalog) := by
    rw [← Graph.entries_map_node hy, ← flows_map_fst y y.entries {}, List.map_map]
    exact map_eq_of_forall₂ (functions_of_flows hy hfs') fun hof => by rw [hof.entry]; rfl
  by_cases hne : nodes = []
  · subst hne
    rw [List.perm_nil.mp hn] at hentries ⊢
    exact ⟨y, fs, fs', emptyText, by rwa [List.perm_nil.mp hn] at hbuild', hfs, hfs', rfl,
      fun h => absurd rfl h, hperm, hentries⟩
  · have hne' : nodes' ≠ [] := fun h => hne (List.nil_perm.mp (h ▸ hn))
    exact ⟨y, fs, fs', _, hbuild', hfs, hfs', generate_of_functions hbuild' hne' hfs' indent,
      fun h => ⟨htext h, rfl⟩, hperm, hentries⟩

/-- Two entries; the server start-up goes on to two nodes, which read the same sum. -/
def twoNodes : List Node :=
  [{ id := "server", nodeType := "init-server" }, { id := "client", nodeType := "init-client" },
   { id := "note", nodeType := "print" }, { id := "echo", nodeType := "print" },
   { id := "log", nodeType := "print" }, { id := "sum", nodeType := "math-add" }]

def twoConnections : List Connection :=
  [⟨"c0", ⟨"server", "output_0"⟩, ⟨"note", "input_0"⟩⟩,
   ⟨"c1", ⟨"server", "output_0"⟩, ⟨"echo", "input_0"⟩⟩,
   ⟨"c2", ⟨"client", "output_0"⟩, ⟨"log", "input_0"⟩⟩,
   ⟨"c3", ⟨"sum", "output_0"⟩, ⟨"note", "input_1"⟩⟩,
   ⟨"c4", ⟨"sum", "output_0"⟩, ⟨"echo", "input_1"⟩⟩]

/-- The connections in another order, in which the sum is read by the other node first. -/
def twoConnectionsMoved : List Connection :=
  [⟨"c4", ⟨"sum", "output_0"⟩, ⟨"echo", "input_1"⟩⟩,
   ⟨"c2", ⟨"client", "output_0"⟩, ⟨"log", "input_0"⟩⟩,
   ⟨"c0", ⟨"server", "output_0"⟩, ⟨"note", "input_0"⟩⟩,
   ⟨"c3", ⟨"sum", "output_0"⟩, ⟨"note", "input_1"⟩⟩,
   ⟨"c1", ⟨"server", "output_0"⟩, ⟨"echo", "input_0"⟩⟩]

theorem two_reordered :
    Graph.Reordered .builtin twoNodes twoNodes.reverse twoConnections twoConnectionsMoved :=
  .of_sources (List.reverse_perm _) (by decide +kernel) (by decide +kernel)

theorem generate_reordered_two : ∃ x y fs fs' text text',
    Index.build .builtin twoNodes twoConnections = .ok x ∧
      x.Steered .builtin twoNodes twoConnections ∧ Graph.SingleExec .builtin twoNodes ∧
      Graph.Reordered .builtin twoNodes twoNodes.reverse twoConnections twoConnectionsMoved ∧
      generate .builtin "\t" "demo" twoNodes twoConnections = .ok text ∧
      Index.build .builtin twoNodes.reverse twoConnectionsMoved = .ok y ∧
      functions x "demo" = .ok fs ∧ functions y "demo" = .ok fs' ∧
      generate .builtin "\t" "demo" twoNodes.reverse twoConnectionsMoved = .ok text' ∧
      text = Script.text "\t" "demo" fs ∧ text' = Script.text "\t" "demo" fs' ∧
      fs'.Perm fs ∧ fs'.map (·.entry.node.id) = ["client", "server"] := by
  have key : (Index.build .builtin twoNodes twoConnections).toOption.any (fun x =>
      (functions x "demo").toOption.any fun _ => true) = true := by
    rw [Index.build, Index.addNode_builtin]
    decide +kernel
  have hne : twoNodes ≠ [] := List.cons_ne_nil _ _
  obtain ⟨x, _, hx, -, htext, -⟩ := exists_of_run hne key "\t"
  have hsteered := (Index.built_of_build hx).steered
  have hsingle : Graph.SingleExec .builtin twoNodes := by decide +kernel
  obtain ⟨y, fs, fs', text', hy, hfs, hfs', htext', heq, hperm, hentries⟩ :=
    generate_reordered hx hsteered hsingle two_reordered htext
  obtain ⟨heq, heq'⟩ := heq hne
  refine ⟨x, y, fs, fs', _, text', hx, hsteered, hsingle, two_reordered, htext, hy, hfs, hfs',
    htext', heq, heq', hperm, ?_⟩
  have hids : (twoNodes.reverse.filter (·.isEntry .builtin)).map (·.id) = ["client", "server"] := by
    decide +kernel
  rw [← hids, ← hentries, List.map_map]
  rfl

/-- Nodes that print have a data output by the name that generation goes on with. -/
def looseCatalog : Catalog where
  definitions :=
    [{ nodeType := "on-player-respawned", category := "events", label := "Spawned"
       outputs := [{ name := "then", label := "Out", kind := .exec }] },
     { nodeType := "print", category := "utilities", label := "Print"
       inputs := [{ name := "exec", label := "In", kind := .exec },
         { name := "message", label := "Message", valueType := some .string }]
       outputs := [{ name := "then", label := "Out" }] }]

def looseNode (id : String) : Node :=
  { id := id, nodeType := "print", data := [("message", .str id)]
    inputs := [{ id := "in", label := "In", kind := .exec },
      { id := "message", label := "Message" }, { id := "spare" }]
    outputs := [{ id := "out", label := "Out", isInput := false }] }

def looseNodes : List Node :=
  [{ id := "spawn", nodeType := "on-player-respawned" }, looseNode "first", looseNode "left",
   looseNode "right"]

def looseConnections : List Connection :=
  [⟨"c0", ⟨"spawn", "output_0"⟩, ⟨"first", "in"⟩⟩,
   ⟨"c1", ⟨"first", "out"⟩, ⟨"left", "spare"⟩⟩, ⟨"c2", ⟨"first", "out"⟩, ⟨"right", "spare"⟩⟩]

def looseConnectionsMoved : List Connection :=
  [⟨"c0", ⟨"spawn", "output_0"⟩, ⟨"first", "in"⟩⟩,
   ⟨"c2", ⟨"first", "out"⟩, ⟨"right", "spare"⟩⟩, ⟨"c1", ⟨"first", "out"⟩, ⟨"left", "spare"⟩⟩]

theorem loose_reordered :
    Graph.Reordered looseCatalog looseNodes looseNodes looseConnections looseConnectionsMoved :=
  .of_sources (.refl _) (by decide +kernel) (by decide +kernel)

/-- If generation goes on along data connections, their order counts as well. -/
theorem loose_order_counts : ∃ x y f f' text text',
    Index.build looseCatalog looseNodes looseConnections = .ok x ∧
      Graph.SingleExec looseCatalog looseNodes ∧
      Graph.Reordered looseCatalog looseNodes looseNodes looseConnections looseConnectionsMoved ∧
      Index.build looseCatalog looseNodes looseConnectionsMoved = .ok y ∧
      functions x "demo" = .ok [f] ∧ functions y "demo" = .ok [f'] ∧
      generate looseCatalog "\t" "demo" looseNodes looseConnections = .ok text ∧
      generate looseCatalog "\t" "demo" looseNodes looseConnectionsMoved = .ok text' ∧
      f.nodes = ["first", "left", "right"] ∧ f'.nodes = ["first", "right", "left"] ∧
      text ≠ text' := by
  have key : (Index.build looseCatalog looseNodes looseConnections).toOption.any (fun x =>
      (functions x "demo").toOption.any fun fs =>
      (Index.build looseCatalog looseNodes looseConnectionsMoved).toOption.any fun y =>
      (functions y "demo").toOption.any fun fs' =>
        fs.map (·.nodes) == [["first", "left", "right"]] &&
        fs'.map (·.nodes) == [["first", "right", "left"]] &&
        Script.text "\t" "demo" fs != Script.text "\t" "demo" fs') = true := by
    decide +kernel
  obtain ⟨x, fs, hx, hfs, htext, key⟩ := exists_of_run (List.cons_ne_nil _ _) key "\t"
  obtain ⟨y, fs', hy, hfs', htext', key⟩ := exists_of_run (List.cons_ne_nil _ _) key "\t"
  simp only [Bool.and_eq_true, beq_iff_eq, bne_iff_ne] at key
  obtain ⟨⟨hnodes, hnodes'⟩, hne⟩ := key
  obtain ⟨f, rfl, hf⟩ := List.map_eq_singleton_iff.mp hnodes
  obtain ⟨f', rfl, hf'⟩ := List.map_eq_singleton_iff.mp hnodes'
  exact ⟨x, y, f, f', _, _, hx, by decide +kernel, loose_reordered, hy, hfs, hfs', htext, htext',
    hf, hf', hne⟩

end Script

end VisualScript
