import VisualScript.Proofs.Calls
import VisualScript.Proofs.Search
import VisualScript.Proofs.Separation

/-!
# Proofs — Termination

Making a script comes to an end.  Where the definitions recurse on fuel, the fuel is computed from
the graph and never runs out, also where data connections form cycles or several exec connections
meet at a node.

* Flows are laid out as `Lays` says, and more fuel lays out the same (`Flow.unroll_fuel`).
* A pass over a flow enters nodes in the order of the flow and none twice.  `Walk.notedParts` is
  `Walk.parts` with the nodes it enters noted, up to its end or to its failure
  (`Walk.result_notedParts`, `Walk.covers_notedParts`).
* Values are read and placed by a finite tree of calls (`Calls`).

`Script.Terminates` puts this together with the search for cycles.
-/

namespace VisualScript

variable {x : Index} {pass : Pass}

/-! ### Laying out flows -/

/-- More fuel unrolls the same chain. -/
theorem Flow.unroll_fuel (work : List String) (p : Progress) {fuel : Nat}
    (h : Flow.budget x work ≤ fuel) :
    Flow.unroll x fuel work p = Flow.unroll x (Flow.budget x work) work p := by
  have hload : work.length + Flow.pending x p.seen ≤ Flow.budget x work := by
    have : Flow.pending x p.seen ≤ Flow.pending x [] := Flow.pending_le (by simp)
    have : Flow.budget x work = work.length + Flow.pending x [] + 1 := by
      simp [Flow.budget, Flow.pending]
    omega
  have hbudget := Flow.unrolls_of_load _ work p hload
  have hmore := Flow.unrolls_of_load fuel work p (Nat.le_trans hload h)
  obtain ⟨hchain, hprogress⟩ := hmore.unique hbudget
  exact Prod.ext hchain hprogress

/-! ### The nodes a pass enters -/

namespace Walk

/-- What a computation gives, with the nodes it has entered by then. -/
structure Noted (α : Type) where
  nodes  : List String
  result : Except Failure α

namespace Noted

variable {α β : Type}

def ofResult (result : Except Failure α) : Noted α := ⟨[], result⟩

def enter (id : String) (m : Noted α) : Noted α := ⟨id :: m.nodes, m.result⟩

def bind (m : Noted α) (next : α → Noted β) : Noted β :=
  match m.result with
  | .error f => ⟨m.nodes, .error f⟩
  | .ok a    => ⟨m.nodes ++ (next a).nodes, (next a).result⟩

theorem bind_error {m : Noted α} {f : Failure} (h : m.result = .error f) (next : α → Noted β) :
    m.bind next = ⟨m.nodes, .error f⟩ := by
  simp only [bind, h]

theorem bind_ok {m : Noted α} {a : α} (h : m.result = .ok a) (next : α → Noted β) :
    m.bind next = ⟨m.nodes ++ (next a).nodes, (next a).result⟩ := by
  simp only [bind, h]

theorem result_bind (m : Noted α) (next : α → Noted β) :
    (m.bind next).result = m.result >>= fun a => (next a).result := by
  cases h : m.result with
  | error f => rw [bind_error h]; rfl
  | ok a => rw [bind_ok h]; rfl

/-- The nodes that are entered are the first of a list, and all of them if there is no failure. -/
structure Covers (m : Noted α) (all : List String) : Prop where
  front : m.nodes <+: all
  whole : ∀ a, m.result = .ok a → m.nodes = all

theorem covers_error (f : Failure) (all : List String) :
    (ofResult (.error f : Except Failure α)).Covers all :=
  ⟨List.nil_prefix, fun _ h => by cases h⟩

theorem covers_ofResult (result : Except Failure α) : (ofResult result).Covers [] :=
  ⟨List.nil_prefix, fun _ _ => rfl⟩

theorem Covers.enter {m : Noted α} {all : List String} (h : m.Covers all) (id : String) :
    (m.enter id).Covers (id :: all) :=
  ⟨List.cons_prefix_cons.mpr ⟨rfl, h.front⟩, fun a ha => congrArg (id :: ·) (h.whole a ha)⟩

theorem Covers.bind {m : Noted α} {next : α → Noted β} {all more : List String} (h : m.Covers all)
    (hnext : ∀ a, m.result = .ok a → (next a).Covers more) :
    (m.bind next).Covers (all ++ more) := by
  cases hm : m.result with
  | error f =>
    rw [bind_error hm]
    exact ⟨h.front.trans (List.prefix_append _ _), fun _ hf => by cases hf⟩
  | ok a =>
    rw [bind_ok hm, h.whole a hm]
    exact ⟨(List.prefix_append_right_inj _).mpr (hnext a hm).front,
      fun b hb => congrArg (all ++ ·) ((hnext a hm).whole b hb)⟩

/-- Steps that enter no node may come first and last. -/
theorem Covers.after {result : Except Failure α} {next : α → Noted β} {all : List String}
    (hnext : ∀ a, (next a).Covers all) : ((ofResult result).bind next).Covers all :=
  (covers_ofResult result).bind fun a _ => hnext a

theorem Covers.map {m : Noted α} {f : α → β} {all : List String} (h : m.Covers all) :
    (m.bind fun a => ofResult (.ok (f a))).Covers all := by
  rw [← List.append_nil all]
  exact h.bind fun a _ => covers_ofResult _

end Noted

mutual

/-- `Walk.chain`, with the nodes it enters noted. -/
def notedChain (x : Index) (pass : Pass) : Chain → State → Noted (Code × State)
  | .done,             s => .ofResult (.ok (.done, s))
  | .halt f,           _ => .ofResult (.error (.fault f))
  | .step id own rest, s => .enter id <|
      match x.node? id with
      | none   => .ofResult (.error (.fault (.execReentry id)))
      | some n =>
          (Noted.ofResult (enter x pass n s)).bind fun e =>
          (notedParts x pass n e.1 own (setHoisted e.2.2 .done)).bind fun made =>
          (notedChain x pass rest (setHoisted made.2 (hoisted e.2.2))).bind fun after =>
          .ofResult (.ok (e.2.1 ++ hoisted made.2 ++
            .mark id e.1.inputs e.1.vars (made.1 ++ after.1), after.2))

/-- `Walk.parts`, with the nodes it enters noted. -/
def notedParts (x : Index) (pass : Pass) (n : PlacedNode) (filling : Filling) :
    Parts → State → Noted (Code × State)
  | .done, s => .ofResult (.ok (.done, s))
  | .line t rest, s =>
      (notedParts x pass n filling rest s).bind fun after =>
      .ofResult (.ok (.line (t.fill filling.inputs filling.vars) after.1, after.2))
  | .follow body rest, s =>
      (notedChain x pass body s).bind fun made =>
      (notedParts x pass n filling rest made.2).bind fun after =>
      .ofResult (.ok (made.1 ++ after.1, after.2))
  | .block port bindings tail body rest, s =>
      (notedChain x pass body (openBlock n ⟨n.node.id, port⟩ false bindings filling.vars s)).bind
        fun made =>
      (notedParts x pass n filling rest (closeBlock made.2).2).bind fun after =>
      .ofResult (.ok (.block ⟨n.node.id, port⟩ (made.1 ++ .ofLines tail) after.1, after.2))
  | .thread port name isConnected body rest, s =>
      match isConnected, namedFunction? filling.inputs with
      | false, some e =>
          (notedParts x pass n filling rest s).bind fun after =>
          .ofResult (.ok (.line (.text "thread " :: e ++ Expr.ofText "()") after.1, after.2))
      | _, _ =>
          (notedChain x pass body (openBlock n ⟨n.node.id, port⟩ true [] filling.vars s)).bind
            fun made =>
          (notedParts x pass n filling rest (closeBlock made.2).2).bind fun after =>
          .ofResult (.ok
            (.thread ⟨n.node.id, port⟩ name (closeBlock made.2).1 made.1 after.1, after.2))

end

mutual

theorem result_notedChain : ∀ (c : Chain) (s : State),
    (notedChain x pass c s).result = Walk.chain x pass c s
  | .done, _ => by rw [notedChain, Walk.chain]; rfl
  | .halt _, _ => by rw [notedChain, Walk.chain]; rfl
  | .step id own rest, s => by
    rw [notedChain, Walk.chain]
    cases hn : x.node? id with
    | none => rfl
    | some n =>
      simp only [Noted.enter, Noted.result_bind, result_notedParts own, result_notedChain rest]
      rfl

theorem result_notedParts {n : PlacedNode} {filling : Filling} : ∀ (p : Parts) (s : State),
    (notedParts x pass n filling p s).result = Walk.parts x pass n filling p s
  | .done, _ => by rw [notedParts, Walk.parts]; rfl
  | .line t rest, _ => by
    rw [notedParts, Walk.parts]
    simp only [Noted.result_bind, result_notedParts rest]
    rfl
  | .follow body rest, _ => by
    rw [notedParts, Walk.parts]
    simp only [Noted.result_bind, result_notedChain body, result_notedParts rest]
    rfl
  | .block port bindings tail body rest, _ => by
    rw [notedParts, Walk.parts]
    simp only [Noted.result_bind, result_notedChain body, result_notedParts rest]
    rfl
  | .thread port name isConnected body rest, s => by
    rw [notedParts.eq_def, Walk.parts.eq_def]
    cases isConnected <;> cases namedFunction? filling.inputs <;>
      simp only [Noted.result_bind, result_notedChain body, result_notedParts rest] <;> rfl

end

mutual

/-- A pass over a chain enters its nodes in their order. -/
theorem covers_notedChain : ∀ (c : Chain) (s : State), c.Idle →
    (notedChain x pass c s).Covers c.nodes
  | .done, _, _ => by rw [notedChain]; exact Noted.covers_ofResult _
  | .halt _, _, _ => by rw [notedChain]; exact Noted.covers_ofResult _
  | .step id own rest, s, hi => by
    rw [notedChain]
    refine Noted.Covers.enter ?_ id
    cases hn : x.node? id with
    | none => exact Noted.covers_error _ _
    | some n =>
      exact .after fun e => (covers_notedParts own _ hi.1).bind fun made _ =>
        (covers_notedChain rest _ hi.2).map

theorem covers_notedParts {n : PlacedNode} {filling : Filling} : ∀ (p : Parts) (s : State), p.Idle →
    (notedParts x pass n filling p s).Covers p.nodes
  | .done, _, _ => by rw [notedParts]; exact Noted.covers_ofResult _
  | .line t rest, s, hi => by
    rw [notedParts]
    exact (covers_notedParts rest s hi).map
  | .follow body rest, s, hi => by
    rw [notedParts]
    exact (covers_notedChain body s hi.1).bind fun _ _ => (covers_notedParts rest _ hi.2).map
  | .block port bindings tail body rest, s, hi => by
    rw [notedParts]
    exact (covers_notedChain body _ hi.1).bind fun _ _ => (covers_notedParts rest _ hi.2).map
  | .thread port name isConnected body rest, s, hi => by
    rw [notedParts.eq_def]
    dsimp only
    split
    · -- the body that is not walked is empty
      rw [hi.1 rfl]
      exact (covers_notedParts rest s hi.2.2).map
    · exact (covers_notedChain body _ hi.2.1).bind fun _ _ =>
        (covers_notedParts rest _ hi.2.2).map

end

end Walk

/-- A pass over the flow of an entry, with the nodes it enters noted. -/
def EntryFunction.notedWalk (x : Index) (pass : Pass) (n : PlacedNode) (flow : Parts) :
    Walk.Noted (Code × State) :=
  Walk.notedParts x pass n ⟨[], []⟩ flow (initial n)

/-! ### The script of a graph -/

namespace Script

open Evaluation

/-- Making the script of a graph comes to an end: nothing that is computed with fuel depends on how
much of it there is. -/
structure Terminates (x : Index) : Prop where
  /-- The search for a cycle comes to its end. -/
  search : Search.EndsWith x (.start x) x.cycleNode?
  /-- The flow of an entry is laid out step by step and holds no node twice. -/
  layout : ∀ n flow, (n, flow) ∈ flows x x.entries {} →
    (n.node.id :: flow.nodes).Nodup ∧
      ∃ p now, Lays x (Flow.entryJobs x n) (Progress.start p n.node.id) flow now
  /-- A pass over the flow of an entry enters no node twice, and all nodes if it does not fail. -/
  walks : ∀ n flow, (n, flow) ∈ flows x x.entries {} → ∀ pass,
    (EntryFunction.notedWalk x pass n flow).result = EntryFunction.walkFlow x pass n flow ∧
      (EntryFunction.notedWalk x pass n flow).Covers flow.nodes ∧
      (EntryFunction.notedWalk x pass n flow).nodes.Nodup
  /-- The inputs of a node are resolved call by call, and no two evaluations of one node are open at
  the same time. -/
  reads : ∀ pass n s, ∃ opened,
    ResolvesInputs x pass [] n n.definition.inputs [] s (inputs x pass n s) opened ∧
      ∀ pending ∈ opened, Separate x pending
  /-- A placement is looked up call by call, and no node is expanded twice. -/
  placements : ∀ ss id, ∃ expanded,
    Descends x ss id [] (floor x ss (x.placed.length + 1) id []) expanded ∧ expanded.Nodup
  /-- More fuel changes nothing. -/
  fuel : ∀ more,
    (∀ work p, Flow.unroll x (Flow.budget x work + more) work p =
      Flow.unroll x (Flow.budget x work) work p) ∧
    (∀ pass n s, resolve x n (read x pass (x.placed.length + more) []) n.definition.inputs [] s =
      inputs x pass n s) ∧
    ∀ ss id, floor x ss (x.placed.length + 1 + more) id [] =
      floor x ss (x.placed.length + 1) id []

variable {catalog : Catalog} {nodes : List Node} {connections : List Connection}

theorem layout_of_mem_flows (hb : Index.Built catalog nodes connections x) {n : PlacedNode}
    {flow : Parts} (h : (n, flow) ∈ flows x x.entries {}) :
    (n.node.id :: flow.nodes).Nodup ∧
      ∃ p now, Lays x (Flow.entryJobs x n) (Progress.start p n.node.id) flow now := by
  obtain ⟨before, after, hsplit⟩ := List.append_of_mem h
  obtain ⟨p, now, hv, hlays⟩ := flows_split (awaiting_entries hb) hsplit
  have hvisited := hlays.visited
  refine ⟨List.nodup_cons.mpr ⟨fun hid => ?_, hvisited.nodup⟩, p, now, hlays⟩
  exact hvisited.fresh _ hid (List.mem_append_left _ (.head _))

theorem walk_of_mem_flows {n : PlacedNode} {flow : Parts} (h : (n, flow) ∈ flows x x.entries {})
    (pass : Pass) :
    (EntryFunction.notedWalk x pass n flow).result = EntryFunction.walkFlow x pass n flow ∧
      (EntryFunction.notedWalk x pass n flow).Covers flow.nodes :=
  ⟨Walk.result_notedParts flow _, Walk.covers_notedParts flow _ (flows_idle h)⟩

/-- **Making a script comes to an end** for every graph whose nodes and connections pass their
checks, whatever cycles its data connections form and however many exec connections meet at a
node. -/
theorem generation_terminates {placed x : Index}
    (hnodes : nodes.foldlM (Index.addNode catalog) {} = .ok placed)
    (hconnections : connections.foldlM Index.addConnection placed = .ok x) : Terminates x := by
  have hb := Index.built_of_foldlM hnodes hconnections
  have hnil := Index.remaining_nil x
  have hlt : x.remaining [] < x.placed.length + 1 := by omega
  constructor
  case search => exact Index.endsWith_start (Graph.mem_order_of_successors hb)
  case layout => exact fun n flow h => layout_of_mem_flows hb h
  case walks =>
    intro n flow h pass
    obtain ⟨hresult, hcovers⟩ := walk_of_mem_flows h pass
    have hnodup := (layout_of_mem_flows hb h).1.of_cons
    exact ⟨hresult, hcovers, hcovers.front.sublist.nodup hnodup⟩
  case reads =>
    intro pass n s
    obtain ⟨opened, h⟩ := resolvesInputs_resolve (n := n)
      (readsOutput_read x.placed.length [] hnil.le) n.definition.inputs [] s
    exact ⟨opened, h, h.apart (.nil x)⟩
  case placements =>
    intro ss id
    obtain ⟨expanded, h⟩ := descends_floor ss (x.placed.length + 1) id [] hlt
    exact ⟨expanded, h, h.once.nodup⟩
  case fuel =>
    intro more
    have hmore : x.remaining [] ≤ x.placed.length + more := by omega
    exact ⟨fun work p => Flow.unroll_fuel work p (Nat.le_add_right _ _),
      fun pass n s => resolve_fuel hnil.le hmore n _ _ s,
      fun ss id => floor_fuel ss hlt (Nat.lt_add_right more hlt) id⟩

/-- Two exec connections that meet at a node, and two values that are made from each other. -/
def tangledNodes : List Node :=
  [{ id := "spawn", nodeType := "on-player-respawned" }, { id := "first", nodeType := "print" },
   { id := "note", nodeType := "print"
     inputs := [{ id := "i0", kind := .exec }, { id := "i1", kind := .exec },
       { id := "i2", kind := .data }]
     outputs := [{ id := "o", kind := .exec, isInput := false }] },
   { id := "sum", nodeType := "math-add" }, { id := "twice", nodeType := "math-multiply" }]

def tangledConnections : List Connection :=
  [⟨"c0", ⟨"spawn", "output_0"⟩, ⟨"first", "input_0"⟩⟩,
   ⟨"c1", ⟨"spawn", "output_0"⟩, ⟨"note", "i0"⟩⟩, ⟨"c2", ⟨"first", "output_0"⟩, ⟨"note", "i1"⟩⟩,
   ⟨"c3", ⟨"sum", "output_0"⟩, ⟨"note", "i2"⟩⟩, ⟨"c4", ⟨"twice", "output_0"⟩, ⟨"sum", "input_1"⟩⟩,
   ⟨"c5", ⟨"sum", "output_0"⟩, ⟨"twice", "input_0"⟩⟩]

theorem generation_terminates_tangled : ∃ placed x,
    tangledNodes.foldlM (Index.addNode .builtin) {} = .ok placed ∧
      tangledConnections.foldlM Index.addConnection placed = .ok x ∧
      (functions x "demo").map (text "\t" "demo") = .error (.fault (.dataCycle "sum")) ∧
      Terminates x := by
  have hcheck : ((tangledNodes.foldlM (Index.addNode .builtin) {}).toOption.bind fun placed =>
      (tangledConnections.foldlM Index.addConnection placed).toOption.map fun x =>
        decide ((functions x "demo").map (text "\t" "demo") =
          .error (.fault (.dataCycle "sum")))) = some true := by
    rw [Index.addNode_builtin]
    decide +kernel
  obtain ⟨placed, hnodes, hcheck⟩ := Option.bind_eq_some_iff.mp hcheck
  obtain ⟨x, hconnections, hfailed⟩ := Option.map_eq_some_iff.mp hcheck
  have hnodes := ok_of_toOption hnodes
  have hconnections := ok_of_toOption hconnections
  exact ⟨placed, x, hnodes, hconnections, of_decide_eq_true hfailed,
    generation_terminates hnodes hconnections⟩

end Script

end VisualScript
