import Mathlib.Data.List.Forall2
import VisualScript.Proofs.Agreement
import VisualScript.Proofs.WellFormed
import VisualScript.Script.Module

/-!
# Proofs — Payloads

Graphs that differ in the payloads of their nodes only.  If each payload is read in the same way as
the one in its place (`Node.Alike`), the graphs have the same outcome: the checks find the same
fault, or they pass and the tables differ in the payloads only (`Index.Variant`); then control takes
the same way through both, and the script is the same (`Script.generate_alike`).
-/

namespace VisualScript

/-! ### Outcomes -/

/-- The computations fail with the same error, or have results that are related. -/
inductive SameOutcome {ε α β : Type} (R : α → β → Prop) : Except ε α → Except ε β → Prop
  | error (e : ε) : SameOutcome R (.error e) (.error e)
  | ok {a : α} {b : β} : R a b → SameOutcome R (.ok a) (.ok b)

namespace SameOutcome

variable {ε α β γ δ : Type} {R : α → β → Prop} {S : γ → δ → Prop}

theorem refl (a : Except ε α) : SameOutcome (· = ·) a a := by
  cases a with
  | error e => exact .error e
  | ok v => exact .ok rfl

theorem bind {a : Except ε α} {b : Except ε β} {f : α → Except ε γ} {g : β → Except ε δ}
    (h : SameOutcome R a b) (hf : ∀ x y, R x y → SameOutcome S (f x) (g y)) :
    SameOutcome S (a >>= f) (b >>= g) := by
  cases h with
  | error e => exact .error e
  | ok h => exact hf _ _ h

theorem foldlM {T : γ → δ → Prop} {f : α → γ → Except ε α} {g : β → δ → Except ε β}
    (hstep : ∀ {a b c d}, R a b → T c d → SameOutcome R (f a c) (g b d)) {cs : List γ}
    {ds : List δ} (h : List.Forall₂ T cs ds) :
    ∀ {a : α} {b : β}, R a b → SameOutcome R (cs.foldlM f a) (ds.foldlM g b) := by
  induction h with
  | nil => exact fun hab => .ok hab
  | cons hcd _ ih =>
    intro a b hab
    simp only [List.foldlM_cons]
    exact (hstep hab hcd).bind fun _ _ => ih

theorem mapM {f : α → Except ε γ} {g : β → Except ε δ}
    (hstep : ∀ {a b}, R a b → SameOutcome S (f a) (g b)) {as : List α} {bs : List β}
    (h : List.Forall₂ R as bs) : SameOutcome (List.Forall₂ S) (as.mapM f) (bs.mapM g) := by
  induction h with
  | nil => exact .ok .nil
  | cons hab _ ih =>
    simp only [List.mapM_cons]
    exact (hstep hab).bind fun _ _ hc => ih.bind fun _ _ hcs => .ok (.cons hc hcs)

theorem map_eq {a : Except ε α} {b : Except ε β} {f : α → γ} {g : β → γ} (h : SameOutcome R a b)
    (hf : ∀ x y, R x y → g y = f x) : b.map g = a.map f := by
  cases h with
  | error e => rfl
  | ok h => exact congrArg Except.ok (hf _ _ h)

end SameOutcome

/-! ### Tables -/

/-- The nodes differ at most in their payloads, and these are read in the same way. -/
structure Node.Alike (catalog : Catalog) (node node' : Node) : Prop where
  id       : node'.id = node.id
  nodeType : node'.nodeType = node.nodeType
  placed   : ∀ d, catalog.find? node.nodeType = some d →
    (PlacedNode.make node d).Alike (PlacedNode.make node' d)

namespace Index

/-- The tables differ in the payloads of the nodes only. -/
structure Variant (x y : Index) : Prop where
  placed    : List.Forall₂ (fun a b => b.1 = a.1 ∧ a.2.Alike b.2) x.placed y.placed
  incoming  : y.incoming = x.incoming
  outgoing  : y.outgoing = x.outgoing
  consumers : y.consumers = x.consumers

namespace Variant

variable {x y : Index} {n n' : PlacedNode}

theorem order (h : Variant x y) : y.order = x.order :=
  map_eq_of_forall₂ h.placed fun hab => hab.1

theorem outgoingOf (h : Variant x y) (e : Endpoint) : y.outgoingOf e = x.outgoingOf e := by
  simp only [Index.outgoingOf, h.outgoing]

theorem targets (h : Variant x y) (e : Endpoint) : y.targets e = x.targets e := by
  simp only [Index.targets, h.outgoingOf]

theorem lookup {id : String} {ps qs : List (String × PlacedNode)}
    (h : List.Forall₂ (fun a b => b.1 = a.1 ∧ a.2.Alike b.2) ps qs) :
    Option.Rel PlacedNode.Alike (ps.lookup id) (qs.lookup id) := by
  induction h with
  | nil => exact .none
  | @cons a b ps qs hab _ ih =>
    obtain ⟨key, n⟩ := a
    obtain ⟨key', n'⟩ := b
    obtain ⟨rfl, hn⟩ := hab
    rw [List.lookup_cons, List.lookup_cons]
    cases id == key' with
    | true => exact .some hn
    | false => exact ih

theorem alike (h : Variant x y) : Index.Alike x y where
  node _ := lookup h.placed
  incoming e := by simp only [Index.incoming?, h.incoming]
  consumers id := by simp only [Index.consumerCount, h.consumers]
  connected e := by rw [h.outgoingOf]
  size := h.placed.length_eq.symm

theorem entries (h : Variant x y) :
    List.Forall₂ (fun n n' => n.definition.isEntry = true ∧ n.Alike n') x.entries y.entries := by
  have hplaced : List.Forall₂ PlacedNode.Alike (x.placed.map Prod.snd) (y.placed.map Prod.snd) :=
    List.forall₂_map_left_iff.mpr
      (List.forall₂_map_right_iff.mpr (h.placed.imp fun _ _ => And.right))
  refine (List.forall₂_and_left _ _).mpr ⟨fun n hn => (List.mem_filter.mp hn).2, ?_⟩
  refine List.rel_filter (fun n n' hn => ?_) hplaced
  exact iff_of_eq (congrArg (fun d => d.isEntry = true) hn.definition.symm)

/-! ### The checks -/

theorem addNode {catalog : Catalog} {node node' : Node} (h : Variant x y)
    (hnode : Node.Alike catalog node node') :
    SameOutcome Variant (Index.addNode catalog x node) (Index.addNode catalog y node') := by
  have hcontains : ∀ id, Assoc.contains id y.placed = Assoc.contains id x.placed := fun id => by
    have hany : ∀ z : Index, Assoc.contains id z.placed = z.order.any (· == id) := fun z => by
      simp only [Assoc.contains, Index.order, Assoc.keys, List.any_map, Function.comp_def]
    rw [hany, hany, h.order]
  unfold Index.addNode Catalog.require
  rw [hnode.id, hnode.nodeType, hcontains]
  cases Assoc.contains node.id x.placed with
  | true => exact .error _
  | false =>
    cases hd : catalog.find? node.nodeType with
    | none => exact .error _
    | some d =>
      have hplaced := hnode.placed d hd
      dsimp only [bind, Except.bind]
      rw [hplaced.sockets]
      cases Catalog.firstRepeated [] _ with
      | some p => exact .error _
      | none =>
        exact .ok ⟨List.rel_append h.placed (.cons ⟨rfl, hplaced⟩ .nil), h.incoming,
          h.outgoing, h.consumers⟩

theorem addConnection (h : Variant x y) (c : Connection) :
    SameOutcome Variant (Index.addConnection x c) (Index.addConnection y c) := by
  have hnode : ∀ e, y.checkNode c e = x.checkNode c e := fun e => by
    rcases h.alike.node_cases e.node with ⟨hx, hy⟩ | ⟨n, n', hx, hy, -⟩ <;>
      simp only [Index.checkNode, hx, hy, Option.isSome]
  have hport : ∀ e, y.checkPort c e = x.checkPort c e := fun e => by
    simp only [Index.checkPort, h.alike.socket]
  unfold Index.addConnection
  simp only [hnode, hport, h.alike.incoming, h.outgoingOf, h.incoming, h.outgoing, h.consumers,
    h.alike.consumers]
  refine (SameOutcome.refl _).bind fun _ _ _ => (SameOutcome.refl _).bind fun _ _ _ => ?_
  refine (SameOutcome.refl _).bind ?_
  rintro source _ rfl
  refine (SameOutcome.refl _).bind ?_
  rintro target _ rfl
  cases source.isInput with
  | true => exact .error _
  | false =>
    cases target.isInput with
    | false => exact .error _
    | true =>
      simp only [Bool.false_eq_true, Bool.not_true, if_false, ne_eq, ite_not]
      split
      · cases (x.incoming? c.target).isSome with
        | true => exact .error _
        | false => exact .ok ⟨h.placed, rfl, rfl, rfl⟩
      · exact .error _

theorem entryFault? (h : Variant x y) : y.entryFault? = x.entryFault? := by
  have hmap := map_eq_of_forall₂ h.entries (f := Graph.entryFaultAt? x) (g := Graph.entryFaultAt? y)
    fun ⟨_, hn⟩ => by simp only [Graph.entryFaultAt?, hn.inputs, hn.id, h.alike.incoming]
  have hfind := congrArg (List.findSome? id) hmap
  rwa [List.findSome?_map, List.findSome?_map] at hfind

theorem successors (h : Variant x y) (id : String) : y.successors id = x.successors id := by
  rcases h.alike.node_cases id with ⟨hx, hy⟩ | ⟨n, n', hx, hy, hn⟩
  · simp only [Index.successors, Index.outputs, hx, hy, h.targets]
  · simp only [Index.successors, Index.outputs, hx, hy, h.targets, Option.map_some, hn.outputs]

theorem explore (h : Variant x y) : ∀ fuel, y.explore fuel = x.explore fuel
  | 0 => rfl
  | fuel + 1 => by
    funext path finished id
    simp only [Index.explore, h.successors, h.explore fuel]

theorem cycleNode? (h : Variant x y) : y.cycleNode? = x.cycleNode? := by
  simp only [Index.cycleNode?, h.order, h.explore]

end Variant

/-- The checks have the same outcome. -/
theorem build_alike {catalog : Catalog} {nodes nodes' : List Node}
    (h : List.Forall₂ (Node.Alike catalog) nodes nodes') (connections : List Connection) :
    SameOutcome Variant (build catalog nodes connections) (build catalog nodes' connections) := by
  refine (SameOutcome.foldlM (R := Variant) (T := Node.Alike catalog)
    (fun hxy hnode => hxy.addNode hnode) h ⟨.nil, rfl, rfl, rfl⟩).bind fun x y hxy => ?_
  refine (SameOutcome.foldlM (T := (· = ·)) (fun hxy hc => hc ▸ hxy.addConnection _)
    (List.forall₂_eq_eq_eq ▸ rfl) hxy).bind fun x y hxy => ?_
  rw [hxy.entryFault?, hxy.cycleNode?]
  cases x.entryFault? with
  | some f => exact .error f
  | none =>
    cases x.cycleNode? with
    | some id => exact .error _
    | none => exact .ok hxy

end Index

/-! ### The flow -/

namespace Index.Variant

variable {x y : Index} {n n' : PlacedNode}

theorem flowTargets (h : Variant x y) (hn : n.Alike n') (port : String) :
    Flow.targets y n' port = Flow.targets x n port := by
  simp only [Flow.targets, hn.output?, hn.id, h.targets]

theorem parts (h : Variant x y) (hn : n.Alike n')
    (chain : List String → Progress → Chain × Progress) : ∀ (items : List Item) (p : Progress),
      Flow.parts y n' chain items p = Flow.parts x n chain items p
  | [], _ => rfl
  | .line _ :: items, p => by
    simp only [Flow.parts, h.parts hn chain items]
  | .follow _ :: items, p | .block .. :: items, p | .thread .. :: items, p => by
    simp only [Flow.parts, h.flowTargets hn, h.parts hn chain items]

theorem enter (h : Variant x y) (p : Progress) (id : String) :
    SameOutcome (fun a b => a.1.Alike b.1 ∧ b.2 = a.2 ∧
      Recipe.ofType? a.1.node.nodeType = some a.2) (Flow.enter x p id) (Flow.enter y p id) := by
  unfold Flow.enter
  rcases h.alike.node_cases id with ⟨hx, hy⟩ | ⟨n, n', hx, hy, hn⟩
  · simp only [hx, hy]
    exact .error _
  · simp only [hx, hy, hn.definition, hn.nodeType]
    split
    · exact .error _
    · split
      · exact .error _
      · cases hr : Recipe.ofType? n.node.nodeType with
        | none => exact .error _
        | some r => exact .ok ⟨hn, rfl, hr⟩

theorem unroll (h : Variant x y) : ∀ (fuel : Nat) (work : List String) (p : Progress),
    Flow.unroll y fuel work p = Flow.unroll x fuel work p
  | 0, _, _ => rfl
  | _ + 1, [], _ => rfl
  | fuel + 1, id :: work, p => by
    simp only [Flow.unroll, h.unroll fuel]
    split
    · rfl
    · have henter := h.enter p id
      generalize Flow.enter x p id = a, Flow.enter y p id = b at henter
      cases henter with
      | error f => rfl
      | @ok a b hab =>
        obtain ⟨n, r⟩ := a
        obtain ⟨n', r'⟩ := b
        obtain ⟨hn, rfl, hr⟩ := hab
        have htargets : Flow.targets y n' = Flow.targets x n := funext (h.flowTargets hn)
        simp only [h.alike.outline, hn.outline x _ hr, h.parts hn, htargets]

theorem nodeTargets (h : Variant x y) (hn : n.Alike n') :
    Flow.nodeTargets y n' = Flow.nodeTargets x n := by
  have hitem : Flow.itemTargets y n' = Flow.itemTargets x n := by
    funext item
    cases item <;> simp only [Flow.itemTargets, h.flowTargets hn]
  unfold Flow.nodeTargets
  rw [hn.nodeType]
  cases hr : Recipe.ofType? n.node.nodeType with
  | none => rfl
  | some r => simp only [h.alike.outline, hn.outline x r hr, hitem]

theorem budget (h : Variant x y) (start : List String) :
    Flow.budget y start = Flow.budget x start := by
  simp only [Flow.budget]
  rw [map_eq_of_forall₂ h.placed fun hab => by rw [h.nodeTargets hab.2]]

theorem chain (h : Variant x y) (start : List String) (p : Progress) :
    Flow.chain y start p = Flow.chain x start p := by
  simp only [Flow.chain, h.budget, h.unroll]

theorem entry (h : Variant x y) (hn : n.Alike n') (p : Progress) :
    Flow.entry y n' p = Flow.entry x n p := by
  simp only [Flow.entry, hn.outputs, hn.id, h.chain, h.targets]

theorem flows (h : Variant x y) {ns ns' : List PlacedNode}
    (hns : List.Forall₂ (fun n n' => n.definition.isEntry = true ∧ n.Alike n') ns ns') :
    ∀ p : Progress,
      List.Forall₂ (fun a b => a.1.definition.isEntry = true ∧ a.1.Alike b.1 ∧ b.2 = a.2)
        (Script.flows x ns p) (Script.flows y ns' p) := by
  induction hns with
  | nil => exact fun _ => .nil
  | cons hn _ ih =>
    intro p
    simp only [Script.flows, h.entry hn.2]
    exact .cons ⟨hn.1, hn.2, rfl⟩ (ih _)

/-- The functions of two entries that are alike are written in the same way. -/
theorem make (h : Variant x y) (indent moduleId : String) (hn : n.Alike n')
    (he : n.definition.isEntry = true) (flow : Parts) :
    SameOutcome (fun f f' => f'.render indent = f.render indent)
      (EntryFunction.make x moduleId n flow) (EntryFunction.make y moduleId n' flow) := by
  have hname : EntryFunction.nameOf moduleId n' = EntryFunction.nameOf moduleId n := by
    simp only [EntryFunction.nameOf, hn.name he, hn.definition]
  have hwalk : ∀ pass, EntryFunction.walk y pass n' flow = EntryFunction.walk x pass n flow :=
    fun pass => by simp only [EntryFunction.walk, h.alike.walkFlow pass hn, hn.name he]
  simp only [EntryFunction.make, hwalk, hn.paramsOf, hname]
  cases EntryFunction.walk x .recording n flow with
  | error f => exact .error f
  | ok recorded =>
    show SameOutcome _ (EntryFunction.walk x (.placing recorded.2.reads) n flow >>= _)
      (EntryFunction.walk x (.placing recorded.2.reads) n flow >>= _)
    cases EntryFunction.walk x (.placing recorded.2.reads) n flow with
    | error f => exact .error f
    | ok placed =>
      refine .ok ?_
      simp only [EntryFunction.render, hn.definition, hn.label]

end Index.Variant

/-- **Payloads that are read in the same way give the same script**, or the same failure. -/
theorem Script.generate_alike {catalog : Catalog} {nodes nodes' : List Node}
    (h : List.Forall₂ (Node.Alike catalog) nodes nodes') (indent moduleId : String)
    (connections : List Connection) :
    generate catalog indent moduleId nodes' connections =
      generate catalog indent moduleId nodes connections := by
  have hempty : nodes'.isEmpty = nodes.isEmpty := by cases h <;> rfl
  unfold generate
  rw [hempty]
  split
  · rfl
  have hbuild := Index.build_alike h connections
  generalize Index.build catalog nodes connections = a,
    Index.build catalog nodes' connections = b at hbuild
  cases hbuild with
  | error f => rfl
  | @ok x y hxy =>
    have hfunctions : SameOutcome (List.Forall₂ fun f f' => f'.render indent = f.render indent)
        (functions x moduleId) (functions y moduleId) := by
      refine SameOutcome.mapM ?_ (hxy.flows hxy.entries {})
      rintro ⟨n, flow⟩ ⟨n', _⟩ ⟨he, hn, rfl⟩
      exact hxy.make indent moduleId hn he _
    refine hfunctions.map_eq fun fs fs' hfs => ?_
    have hempty : fs'.isEmpty = fs.isEmpty := by cases hfs <;> rfl
    have hbodies := map_eq_of_forall₂ hfs fun hf => congrArg Text.joinLines hf
    simp only [text, hempty, hbodies]

end VisualScript
