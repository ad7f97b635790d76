import Mathlib.Data.Option.Defs
import VisualScript.Proofs.Hoisting
import VisualScript.Script.Entry

/-!
# Proofs — Agreement

What code generation knows of a graph.  Of a payload it sees the literals of the data inputs, what
the recipe of the node takes from it, and the name of an entry; two nodes are alike if these are the
same and so is all but the payload (`PlacedNode.Alike`).  Two indexes are alike if they have alike
nodes, the same connection at every input, the same number of readers of every node, and connections
at the same outputs.  The order of nodes and connections does not count.  Indexes that are alike
give the same outlines, the same values and the same code for a flow (`Index.Alike.walkFlow`); the flow
itself is another matter, because it follows the connections of an output in their order.
-/

namespace VisualScript

open Evaluation Scopes

/-- The nodes differ at most in their payloads, and code is generated from both in the same way. -/
structure PlacedNode.Alike (n n' : PlacedNode) : Prop where
  id         : n'.node.id = n.node.id
  nodeType   : n'.node.nodeType = n.node.nodeType
  label      : n'.node.label = n.node.label
  definition : n'.definition = n.definition
  inputs     : n'.inputs = n.inputs
  outputs    : n'.outputs = n.outputs
  literal    : ∀ t ∈ n.definition.inputs, t.kind = .data → literal n' t = literal n t
  outline    : ∀ x r, Recipe.ofType? n.node.nodeType = some r → r.outline x n' = r.outline x n
  name       : n.definition.isEntry = true →
    EntryFunction.givenName? n' = EntryFunction.givenName? n

namespace PlacedNode.Alike

variable {n n' : PlacedNode}

theorem refl (n : PlacedNode) : n.Alike n where
  id := rfl
  nodeType := rfl
  label := rfl
  definition := rfl
  inputs := rfl
  outputs := rfl
  literal := fun _ _ _ => rfl
  outline := fun _ _ _ => rfl
  name := fun _ => rfl

theorem sockets (h : n.Alike n') : n'.sockets = n.sockets := by
  simp only [PlacedNode.sockets, h.inputs, h.outputs]

theorem input? (h : n.Alike n') (name : String) : n'.input? name = n.input? name := by
  simp only [PlacedNode.input?, h.inputs]

theorem output? (h : n.Alike n') (name : String) : n'.output? name = n.output? name := by
  simp only [PlacedNode.output?, h.outputs]

theorem hasExec (h : n.Alike n') : n'.hasExec = n.hasExec := by
  simp only [PlacedNode.hasExec, h.sockets]

theorem declare (h : n.Alike n') : ∀ (outs : List (String × Expr)) (s : State),
    Evaluation.declare n' outs s = Evaluation.declare n outs s
  | [], _ => rfl
  | (name, value) :: outs, s => by
    simp only [Evaluation.declare, h.output?, h.id, h.definition, h.declare outs]

theorem bindOutputs (h : n.Alike n') (outs : List (String × Expr)) (s : State) :
    Walk.bindOutputs n' outs s = Walk.bindOutputs n outs s := by
  simp only [Walk.bindOutputs, h.output?, h.id]

theorem paramsOf (h : n.Alike n') : EntryFunction.paramsOf n' = EntryFunction.paramsOf n := by
  simp only [EntryFunction.paramsOf, h.outputs, h.id]

end PlacedNode.Alike

/-- The indexes hold graphs that code generation cannot tell apart, other than by the order of nodes
and connections. -/
structure Index.Alike (x y : Index) : Prop where
  node      : ∀ id, Option.Rel PlacedNode.Alike (x.node? id) (y.node? id)
  incoming  : ∀ e, y.incoming? e = x.incoming? e
  consumers : ∀ id, y.consumerCount id = x.consumerCount id
  connected : ∀ e, (y.outgoingOf e).isEmpty = (x.outgoingOf e).isEmpty
  size      : y.placed.length = x.placed.length

namespace Index.Alike

variable {x y : Index} {n n' : PlacedNode}

theorem node_cases (h : Alike x y) (id : String) :
    (x.node? id = none ∧ y.node? id = none) ∨
      ∃ n n', x.node? id = some n ∧ y.node? id = some n' ∧ n.Alike n' := by
  have hid := h.node id
  generalize x.node? id = a, y.node? id = b at hid
  cases hid with
  | none => exact .inl ⟨rfl, rfl⟩
  | some hn => exact .inr ⟨_, _, rfl, rfl, hn⟩

theorem socket (h : Alike x y) (e : Endpoint) : y.socket? e = x.socket? e := by
  rcases h.node_cases e.node with ⟨hx, hy⟩ | ⟨n, n', hx, hy, hn⟩
  · simp only [Index.socket?, hx, hy]
  · simp only [Index.socket?, hx, hy, Option.bind_some, PlacedNode.socket?, hn.sockets]

theorem portName (h : Alike x y) (e : Endpoint) : y.portName e = x.portName e := by
  simp only [Index.portName, h.socket]

theorem hasExec (h : Alike x y) (id : String) : y.hasExec id = x.hasExec id := by
  rcases h.node_cases id with ⟨hx, hy⟩ | ⟨n, n', hx, hy, hn⟩
  · simp only [Index.hasExec, hx, hy]
  · simp only [Index.hasExec, hx, hy, Option.map_some, hn.hasExec]

theorem isConnected (h : Alike x y) (n : PlacedNode) (name : String) :
    Recipe.isConnected y n name = Recipe.isConnected x n name := by
  simp only [Recipe.isConnected, h.connected]

/-- A recipe looks at no more of a graph than the outputs that are connected. -/
theorem outline (h : Alike x y) (n : PlacedNode) (r : Recipe) : r.outline y n = r.outline x n := by
  cases r with
  | branch | thread => simp only [Recipe.outline, h.isConnected]
  | switch type => simp only [Recipe.outline, Recipe.switchItems, h.isConnected]
  | _ => rfl

theorem source (h : Alike x y) (hn : n.Alike n') (t : PortTemplate) :
    source? y n' t = source? x n t := by
  simp only [source?, h.incoming, hn.input?, hn.id]

theorem isInlined (h : Alike x y) (hn : n.Alike n') :
    Evaluation.isInlined y n' = Evaluation.isInlined x n := by
  simp only [Evaluation.isInlined, h.consumers, hn.definition, hn.id]

theorem note (h : Alike x y) (pass : Pass) (hn : n.Alike n') (s : State) :
    Evaluation.note y pass n' s = Evaluation.note x pass n s := by
  simp only [Evaluation.note, h.isInlined hn, hn.hasExec, hn.id]

theorem floor (h : Alike x y) (ss : Scopes) : ∀ (fuel : Nat) (id : String) (seen : List String),
    Evaluation.floor y ss fuel id seen = Evaluation.floor x ss fuel id seen
  | 0, _, _ => rfl
  | fuel + 1, id, seen => by
    rcases h.node_cases id with ⟨hx, hy⟩ | ⟨n, n', hx, hy, hn⟩
    · simp only [Evaluation.floor, hx, hy]
    · have hsource : source? y n' = source? x n := funext (h.source hn)
      simp only [Evaluation.floor, hx, hy, hn.definition, h.hasExec, hsource, h.floor ss fuel]

theorem placement (h : Alike x y) (pass : Pass) (ss : Scopes) (id : String) :
    Evaluation.placement y pass ss id = Evaluation.placement x pass ss id := by
  simp only [Evaluation.placement, h.size, h.floor]

theorem resolve (h : Alike x y) (hn : n.Alike n')
    (read : Endpoint → State → Except Failure (Option Expr × Code × State)) :
    ∀ (ts : List PortTemplate) (inputs : Inputs) (s : State), ts ⊆ n.definition.inputs →
      Evaluation.resolve y n' read ts inputs s = Evaluation.resolve x n read ts inputs s
  | [], _, _, _ => rfl
  | t :: ts, inputs, s, hts => by
    obtain ⟨ht, hts⟩ := List.cons_subset.mp hts
    have ih := fun inputs s => h.resolve hn read ts inputs s hts
    simp only [Evaluation.resolve, h.source hn, ih]
    split
    · rfl
    · rename_i hkind
      rw [hn.literal t ht (Classical.not_not.mp hkind)]

/-- The same values are read. -/
theorem read (h : Alike x y) (pass : Pass) :
    ∀ (fuel : Nat) (pending : List String) (e : Endpoint) (s : State),
      Evaluation.read y pass fuel pending e s = Evaluation.read x pass fuel pending e s
  | 0, pending, e, s => by
    rw [Evaluation.read, Evaluation.read]
    rcases h.node_cases e.node with ⟨hx, hy⟩ | ⟨n, n', hx, hy, hn⟩
    · simp only [hx, hy]
    · simp only [hx, hy, h.note pass hn, h.portName, hn.hasExec, hn.nodeType]
      cases Recipe.ofType? n.node.nodeType <;> rfl
  | fuel + 1, pending, e, s => by
    have ih : Evaluation.read y pass fuel = Evaluation.read x pass fuel := by
      funext pending e s
      exact h.read pass fuel pending e s
    rw [Evaluation.read, Evaluation.read]
    rcases h.node_cases e.node with ⟨hx, hy⟩ | ⟨n, n', hx, hy, hn⟩
    · simp only [hx, hy]
    · simp only [hx, hy, h.note pass hn, h.portName, hn.hasExec, hn.nodeType]
      cases hr : Recipe.ofType? n.node.nodeType with
      | none => rfl
      | some r =>
        have hresolve := fun read s =>
          h.resolve hn read n.definition.inputs [] s (List.Subset.refl _)
        simp only [h.isInlined hn, h.placement, h.outline, hn.outline x r hr, hn.definition,
          hn.declare, hresolve, ih]

theorem inputs (h : Alike x y) (pass : Pass) (hn : n.Alike n') (s : State) :
    Evaluation.inputs y pass n' s = Evaluation.inputs x pass n s := by
  have hread : Evaluation.read y pass y.placed.length [] =
      Evaluation.read x pass x.placed.length [] := by
    funext e s
    rw [h.size, h.read]
  simp only [Evaluation.inputs, hread, hn.definition]
  exact h.resolve hn _ _ _ _ (List.Subset.refl _)

theorem enter (h : Alike x y) (pass : Pass) (hn : n.Alike n') (s : State) :
    Walk.enter y pass n' s = Walk.enter x pass n s := by
  simp only [Walk.enter, h.inputs pass hn, hn.nodeType, hn.id]
  cases hr : Recipe.ofType? n.node.nodeType with
  | none => rfl
  | some r => simp only [h.outline, hn.outline x r hr, hn.bindOutputs]

mutual

theorem chain (h : Alike x y) (pass : Pass) : ∀ (c : Chain) (s : State),
    Walk.chain y pass c s = Walk.chain x pass c s
  | .done, _ => by rw [Walk.chain, Walk.chain]
  | .halt _, _ => by rw [Walk.chain, Walk.chain]
  | .step id own rest, s => by
    have hrest := h.chain pass rest
    rw [Walk.chain, Walk.chain]
    rcases h.node_cases id with ⟨hx, hy⟩ | ⟨n, n', hx, hy, hn⟩
    · simp only [hx, hy]
    · have hown := fun filling s => h.parts pass hn filling own s
      simp only [hx, hy, h.enter pass hn, hown, hrest]

theorem parts (h : Alike x y) (pass : Pass) {n n' : PlacedNode} (hn : n.Alike n')
    (filling : Walk.Filling) : ∀ (p : Parts) (s : State),
      Walk.parts y pass n' filling p s = Walk.parts x pass n filling p s
  | .done, _ => by rw [Walk.parts, Walk.parts]
  | .line t rest, s => by
    rw [Walk.parts, Walk.parts, h.parts pass hn filling rest]
  | .follow body rest, s => by
    have hrest := h.parts pass hn filling rest
    rw [Walk.parts, Walk.parts, h.chain pass body]
    simp only [hrest]
  | .block port bindings tail body rest, s => by
    have hrest := h.parts pass hn filling rest
    rw [Walk.parts, Walk.parts]
    simp only [Walk.openBlock, hn.id, hn.bindOutputs, h.chain pass body, hrest]
  | .thread port name isConnected body rest, s => by
    have hrest := h.parts pass hn filling rest
    rw [Walk.parts.eq_def, Walk.parts.eq_def]
    simp only [Walk.openBlock, hn.id, hn.bindOutputs, h.chain pass body, hrest]

end

theorem walkFlow (h : Alike x y) (pass : Pass) (hn : n.Alike n') (flow : Parts) :
    EntryFunction.walkFlow y pass n' flow = EntryFunction.walkFlow x pass n flow := by
  simp only [EntryFunction.walkFlow, EntryFunction.initial, hn.paramsOf, h.parts pass hn]

end Index.Alike

/-- The indexes hold the same graph, apart from the order of its nodes and connections. -/
structure Index.Agrees (x y : Index) : Prop where
  node      : ∀ id, y.node? id = x.node? id
  incoming  : ∀ e, y.incoming? e = x.incoming? e
  consumers : ∀ id, y.consumerCount id = x.consumerCount id
  connected : ∀ e, (y.outgoingOf e).isEmpty = (x.outgoingOf e).isEmpty
  size      : y.placed.length = x.placed.length

namespace Index.Agrees

variable {x y : Index}

theorem alike (h : Agrees x y) : Index.Alike x y where
  node id := by
    rw [h.node]
    cases x.node? id with
    | none => exact .none
    | some n => exact .some (.refl n)
  incoming := h.incoming
  consumers := h.consumers
  connected := h.connected
  size := h.size

theorem outline (h : Agrees x y) (n : PlacedNode) (r : Recipe) : r.outline y n = r.outline x n :=
  h.alike.outline n r

/-- **The function of a flow** is the same in both. -/
theorem make (h : Agrees x y) (moduleId : String) (n : PlacedNode) (flow : Parts) :
    EntryFunction.make y moduleId n flow = EntryFunction.make x moduleId n flow := by
  simp only [EntryFunction.make, EntryFunction.walk, h.alike.walkFlow _ (.refl n)]

end Index.Agrees

end VisualScript
