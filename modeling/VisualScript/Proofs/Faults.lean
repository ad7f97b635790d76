import VisualScript.Proofs.Failing
import VisualScript.Proofs.Literals
import VisualScript.Proofs.Pairing
import VisualScript.Script.Indent

/-!
# Proofs — Faults

Code generation over the built-in catalog stops at faults of the graph and at nothing else, as long
as the graph is regular: whatever a connection reads is paired with a template, the cases of a
switch can be gone through, a whole number that is written as a double is not too large for one,
and none in a payload has too many digits to be shown (`Script.Regular`).  Ports may be missing,
added or of the wrong kind, and payloads may hold anything else.

* `Literal.write?_isSome`: a literal with short numbers can be written unless it is a whole number
  too large for a double.
* `Catalog.builtin_served`: the inputs that the recipe of a built-in type mentions are data inputs
  of its definition.
* `Evaluation.valued_unless`: a value that is read is there unless the port is spare, and so is
  every data input of a node.
* `Blocked.fault_or_irregular`: a node that cannot be filled in is stopped by a fault, or a node
  behind it is irregular.
* `Script.generate_ok_or_fault`: the outcome is a script or a fault that names a node of the graph.
-/

namespace VisualScript

variable {nodes : List Node} {connections : List Connection} {x : Index} {n : PlacedNode}
  {pending : List String}

/-! ### Literals -/

/-- A whole number has to be near a double. -/
def Json.fitsDouble : Json → Bool
  | .int i => (Binary64.ofInt i).isFinite
  | _      => true

namespace Literal

/-- Among short numbers, only one that is asked for as a double can be too large to be written. -/
theorem write?_isSome (t : ValueType) (v : Json) (hshort : v.isShort = true)
    (h : t = .float → v.fitsDouble = true) : (write? t v).isSome := by
  rw [Option.isSome_iff_ne_none, ne_eq, write?_eq_none_iff t v hshort]
  rintro ⟨rfl, i, rfl, hi⟩
  exact Bool.false_ne_true (hi.symm.trans (h rfl))

end Literal

/-! ### Regular graphs -/

/-- The payload keys of a node whose values are written as doubles. -/
def Node.floatKeys (node : Node) : List String :=
  ((Catalog.builtin.find? node.nodeType).elim [] fun d =>
    (d.inputs.filter fun t => t.kind == .data && t.valueType == some .float).map (·.payloadKey)) ++
  if node.nodeType ∈ ["const-float", "float"] then ["value"] else []

/-- A value whose elements can be gone through: those of a list, the keys of an object, the
characters of a text. -/
def Json.isCollection : Json → Bool
  | .arr _ | .obj _ | .str _ => true
  | _                        => false

namespace Script

/-- Whatever a connection reads is paired with a template, the cases of a switch can be gone
through, and what is written as a double fits into one. -/
structure Fitting (nodes : List Node) (connections : List Connection) : Prop where
  paired : ∀ c ∈ connections, ∀ node ∈ nodes, node.id = c.source.node →
    ∀ d ∈ Catalog.builtin.find? node.nodeType, ∀ s ∈ (PlacedNode.make node d).outputs,
      s.port.id = c.source.port → s.port.kind = .data → s.template.isSome
  cases  : ∀ node ∈ nodes, node.nodeType ∈ ["switch", "switch-case"] →
    ∀ v ∈ node.data.lookup "cases", v.isGiven = true → v.isCollection = true
  floats : ∀ node ∈ nodes, ∀ key ∈ node.floatKeys, ∀ v ∈ node.data.lookup key,
    v.fitsDouble = true

/-- What a graph over the built-in catalog has to keep to, so that nothing but a fault of the graph
can stop code generation: it is fitting, and every number in a payload can be shown. -/
structure Regular (nodes : List Node) (connections : List Connection) : Prop
    extends Fitting nodes connections where
  short : ∀ node ∈ nodes, ∀ e ∈ node.data, e.2.isShort = true

instance (nodes : List Node) (connections : List Connection) :
    Decidable (Fitting nodes connections) :=
  decidable_of_iff
    ((∀ c ∈ connections, ∀ node ∈ nodes, node.id = c.source.node →
      ∀ d ∈ Catalog.builtin.find? node.nodeType, ∀ s ∈ (PlacedNode.make node d).outputs,
        s.port.id = c.source.port → s.port.kind = .data → s.template.isSome) ∧
      (∀ node ∈ nodes, node.nodeType ∈ ["switch", "switch-case"] →
        ∀ v ∈ node.data.lookup "cases", v.isGiven = true → v.isCollection = true) ∧
      ∀ node ∈ nodes, ∀ key ∈ node.floatKeys, ∀ v ∈ node.data.lookup key, v.fitsDouble = true)
    ⟨fun ⟨h₁, h₂, h₃⟩ => ⟨h₁, h₂, h₃⟩, fun ⟨h₁, h₂, h₃⟩ => ⟨h₁, h₂, h₃⟩⟩

instance (nodes : List Node) (connections : List Connection) :
    Decidable (Regular nodes connections) :=
  decidable_of_iff (Fitting nodes connections ∧ ∀ node ∈ nodes, ∀ e ∈ node.data, e.2.isShort = true)
    ⟨fun ⟨h, hshort⟩ => ⟨h, hshort⟩, fun h => ⟨h.toFitting, h.short⟩⟩

end Script

/-- What the payload of a node has to keep to. -/
structure Node.Regular (node : Node) : Prop where
  cases  : node.nodeType ∈ ["switch", "switch-case"] →
    ∀ v ∈ node.data.lookup "cases", v.isGiven = true → v.isCollection = true
  floats : ∀ key ∈ node.floatKeys, ∀ v ∈ node.data.lookup key, v.fitsDouble = true
  short  : ∀ e ∈ node.data, e.2.isShort = true

theorem Script.Regular.node {node : Node} (h : Regular nodes connections) (hn : node ∈ nodes) :
    node.Regular :=
  ⟨h.cases node hn, h.floats node hn, h.short node hn⟩

theorem Node.Regular.short_lookup {node : Node} (h : node.Regular) {key : String} {v : Json}
    (hv : node.data.lookup key = some v) : v.isShort = true :=
  h.short _ (Assoc.mem_of_lookup hv)

/-- An entry with a regular payload has a name. -/
theorem EntryFunction.givenName?_ne_none {n : PlacedNode} (h : n.node.Regular) :
    givenName? n ≠ none := by
  unfold givenName?
  split
  · next v hv =>
    split
    · simp [Json.display?, h.short_lookup hv]
    · exact Option.some_ne_none _
  · exact Option.some_ne_none _

/-! ### What recipes mention -/

namespace Recipe

/-- The inputs that an outline of the recipe mentions. -/
def inputs : Recipe → List String
  | statement lines    => lines.flatMap Template.inputs
  | bound call _       => call.inputs
  | expression value _ => value.inputs
  | branch             => ["condition"]
  | loopFor            => ["start", "end", "step"]
  | loopEach           => ["array"]
  | loopWhile          => ["condition"]
  | switch _           => ["value"]
  | append             => ["array", "element"]
  | reroute            => ["value"]
  | registerWeapon     => weaponFields ++ ["registerInLoot"]
  | _                  => []

theorem inputs_caseItems (type : ValueType) (n : PlacedNode) : ∀ (i : Nat) (vs : List Json),
    (caseItems type n i vs).flatMap Item.inputs = []
  | _, [] => rfl
  | i, v :: vs => by
    rw [caseItems]
    split
    · exact inputs_caseItems type n (i + 1) vs
    · rfl

theorem mem_inputs {x : Index} {n : PlacedNode} {r : Recipe} {i : String}
    (h : i ∈ (r.outline x n).inputs) : i ∈ r.inputs := by
  cases r with
  | statement lines =>
    simpa [outline, Outline.inputs, inputs, Item.inputs, List.flatMap_map] using h
  | switch type =>
    have hitems : ∀ cases, (switchItems type x n cases).flatMap Item.inputs = ["value"] := by
      intro cases
      simp only [switchItems, List.flatMap_append, inputs_caseItems]
      split <;> rfl
    simp only [outline] at h
    split at h <;> simpa [Outline.inputs, inputs, hitems] using h
  | constant type key output =>
    simp only [outline] at h
    split at h <;> simp [Outline.inputs, Output.inputs, Template.inputs] at h
  | branch =>
    simp only [outline] at h
    split at h <;> simpa [Outline.inputs, inputs, Item.inputs, Template.inputs] using h
  | sequence | stop | thread => simp [outline, Outline.inputs, Item.inputs, Template.inputs] at h
  | append =>
    have h : i ∈ ["array", "element", "array"] := h
    simp only [inputs, List.mem_cons, List.not_mem_nil, or_false] at h ⊢
    grind
  | _ =>
    simpa [outline, Outline.inputs, inputs, Item.inputs, Output.inputs, Template.inputs,
      weaponFields] using h

/-- Which types are written as doubles, and which have cases. -/
theorem table_types : (Table.all.all fun q => match q.2 with
    | .constant .float key _ => key == "value" && ["const-float", "float"].contains q.1
    | .switch type           => type != .float && ["switch", "switch-case"].contains q.1
    | _                      => true) = true := by decide +kernel

/-- The cases can be gone through, and the numbers in them are those of the payload. -/
theorem casesOf_ok {payload : List (String × Json)}
    (h : ∀ v ∈ payload.lookup "cases", v.isGiven = true → v.isCollection = true)
    (hshort : ∀ e ∈ payload, e.2.isShort = true) :
    ∃ cases, casesOf payload = .ok cases ∧ ∀ v ∈ cases, v.isShort = true := by
  unfold casesOf
  split
  · exact ⟨[], rfl, by simp⟩
  rename_i v hv
  split
  · exact ⟨[], rfl, by simp⟩
  rename_i hg
  have hc := h v hv (by simpa using hg)
  have hv := hshort _ (Assoc.mem_of_lookup hv)
  cases v with
  | arr xs => exact ⟨xs, rfl, Json.isShort_arr.mp hv⟩
  | obj es => exact ⟨_, rfl, by simp [Json.isShort, Json.longest]⟩
  | str s => exact ⟨_, rfl, by simp [Json.isShort, Json.longest]⟩
  | _ => cases hc

/-- Cases that are not written as doubles can be written if their numbers are short. -/
theorem caseFailure?_eq_none {type : ValueType} (ht : type ≠ .float) (n : PlacedNode) :
    ∀ (vs : List Json) (i : Nat), (∀ v ∈ vs, v.isShort = true) → caseFailure? type n i vs = none
  | [], _, _ => rfl
  | v :: vs, i, h => by
    rw [caseFailure?, if_pos (Literal.write?_isSome type v (h v (.head _)) fun he => absurd he ht),
      caseFailure?_eq_none ht n vs (i + 1) fun w hw => h w (.tail _ hw), ite_self]

/-- The outline of a node with a regular payload does not fail of itself. -/
theorem failure_eq_none {x : Index} {n : PlacedNode} {r : Recipe} (h : n.node.Regular)
    (hr : ofType? n.node.nodeType = some r) : (r.outline x n).failure = none := by
  have htypes := List.all_eq_true.mp table_types _ (Assoc.mem_of_lookup hr)
  cases r with
  | constant type key output =>
    have hfits : type = .float →
        ((n.node.data.lookup key).getD .null).fitsDouble = true := by
      rintro rfl
      simp only [Bool.and_eq_true, beq_iff_eq, List.contains_iff_mem] at htypes
      obtain ⟨rfl, htype⟩ := htypes
      have hkey : "value" ∈ n.node.floatKeys :=
        List.mem_append_right _ (by rw [if_pos htype]; exact List.mem_singleton_self _)
      cases hv : n.node.data.lookup "value" with
      | none => rfl
      | some v => exact h.floats _ hkey v hv
    have hshort : ((n.node.data.lookup key).getD .null).isShort = true := by
      cases hv : n.node.data.lookup key with
      | none => rfl
      | some v => exact h.short_lookup hv
    obtain ⟨text, htext⟩ := Option.isSome_iff_exists.mp (Literal.write?_isSome type _ hshort hfits)
    simp only [outline, htext]
  | switch type =>
    simp only [Bool.and_eq_true, bne_iff_ne, List.contains_iff_mem] at htypes
    obtain ⟨cases, hcases, hshort⟩ := casesOf_ok (h.cases htypes.2) h.short
    simp only [outline, hcases, caseFailure?_eq_none htypes.1 n cases 0 hshort]
  | _ => rfl

end Recipe

namespace Catalog

/-- What the recipe of a type mentions is there: the inputs are data inputs of the definition, and
their types and defaults make a literal. -/
@[mk_iff]
structure Served (d : Definition) : Prop where
  typed    : ∀ t ∈ d.inputs, t.kind = .data → t.valueType.isSome
  defaults : ∀ t ∈ d.inputs, t.kind = .data → ∀ v ∈ d.defaults.lookup t.payloadKey,
    v.isShort = true ∧ (t.valueType = some .float → v.fitsDouble = true)
  recipe   : ∀ r ∈ Recipe.ofType? d.nodeType, ∀ i ∈ r.inputs,
    ∃ t ∈ d.inputs, t.kind = .data ∧ t.name = i

instance (d : Definition) : Decidable (Served d) :=
  decidable_of_iff _ (served_iff d).symm

theorem builtin_served : ∀ d ∈ builtin.definitions, Served d := by decide +kernel

end Catalog

/-! ### Spare ports -/

/-- The node of the port keeps its value in a temporary. -/
def Index.Kept (x : Index) (e : Endpoint) : Prop :=
  ∃ n, x.node? e.node = some n ∧ n.hasExec = false ∧ Evaluation.isInlined x n = false

/-- The port is paired with no template, and its node keeps its value in a temporary: the temporary
belongs to the port of the template, and this one has no value. -/
def Index.Spare (x : Index) (e : Endpoint) : Prop :=
  x.Kept e ∧ ∃ s, x.socket? e = some s ∧ s.template = none

instance (x : Index) (e : Endpoint) : Decidable (x.Kept e) :=
  decidable_of_iff ((x.node? e.node).any fun n => !n.hasExec && !Evaluation.isInlined x n)
    (by simp [Index.Kept, Option.any_eq_true])

instance (x : Index) (e : Endpoint) : Decidable (x.Spare e) :=
  decidable_of_iff (x.Kept e ∧ (x.socket? e).any (·.template.isNone))
    (by simp [Index.Spare, Option.any_eq_true])

/-- What feeds an input is where a connection starts. -/
theorem Index.Built.mem_of_source {catalog : Catalog}
    (hb : Index.Built catalog nodes connections x) {t : PortTemplate} {e : Endpoint}
    (h : Evaluation.source? x n t = some e) : ∃ c ∈ connections, c.source = e := by
  obtain ⟨port, -, he⟩ := Option.bind_eq_some_iff.mp h
  obtain ⟨c, hc, he⟩ := Option.bind_eq_some_iff.mp he
  exact ⟨c, (hb.mem_of_incoming? hc).1, Option.some.inj he⟩

/-- No connection of a regular graph starts at a spare port. -/
theorem Script.Regular.not_spare (h : Regular nodes connections)
    (hb : Index.Built .builtin nodes connections x) {c : Connection} (hc : c ∈ connections) :
    ¬ x.Spare c.source := by
  rintro ⟨⟨n, hn, hx, -⟩, s, hs, ht⟩
  obtain ⟨s', -, hs', -, ho, -⟩ := hb.ends c hc
  cases hs.symm.trans hs'
  obtain ⟨n', hn', hmem, hid⟩ := Index.mem_of_socket? hs
  cases hn.symm.trans hn'
  have hkind : s.port.kind = .data := by
    have := List.any_eq_false.mp hx s hmem
    cases hk : s.port.kind with
    | data => rfl
    | exec => simp [hk] at this
  have hpaired := h.paired c hc n.node (Graph.mem_nodes hb hn) (hb.node_id hn) n.definition
    (hb.known (Index.mem_placed hn)) s
    (hb.made (Index.mem_placed hn) ▸ hb.mem_outputs hn hmem ho) hid hkind
  simp [ht] at hpaired

/-! ### Values are there -/

/-- The input has a value. -/
def Inputs.Has (inputs : Inputs) (i : String) : Prop := ∃ e, inputs.lookup i = some (some e)

/-- Once the first of the templates has a value, the rest of them are to come. -/
theorem Inputs.has_set_or_mem {inputs : Inputs} {i : String} {v : Expr} {t : PortTemplate}
    {ts : List PortTemplate}
    (h : Inputs.Has inputs i ∨ ∃ u ∈ t :: ts, u.kind = .data ∧ u.name = i) :
    Inputs.Has (Assoc.set t.name (some v) inputs) i ∨ ∃ u ∈ ts, u.kind = .data ∧ u.name = i := by
  rw [Inputs.Has, Assoc.lookup_set]
  by_cases hi : i = t.name
  · exact .inl ⟨v, by simp [hi]⟩
  · refine h.imp (by simp [Inputs.Has, hi]) fun ⟨u, hu, hk, hname⟩ => ⟨u, ?_, hk, hname⟩
    exact (List.mem_cons.mp hu).resolve_left fun he => hi (he ▸ hname.symm)

namespace Evaluation

open Scopes

variable {nodes : List Node} {connections : List Connection} {x : Index}
  (hb : Index.Built .builtin nodes connections x)

include hb

/-- The literal of a data input of a node. -/
theorem literal_ok {id : String} {n : PlacedNode} {t : PortTemplate} (h : n.node.Regular)
    (hn : x.node? id = some n) (ht : t ∈ n.definition.inputs) (hk : t.kind = .data) :
    ∃ v, literal n t = .ok v := by
  obtain ⟨hd, -⟩ := hb.mem_definitions hn
  have hserved := Catalog.builtin_served n.definition hd
  obtain ⟨type, htype⟩ := Option.isSome_iff_exists.mp (hserved.typed t ht hk)
  have hkey : type = .float → t.payloadKey ∈ n.node.floatKeys := by
    rintro rfl
    rw [Node.floatKeys, hb.known (Index.mem_placed hn)]
    refine List.mem_append_left _ (List.mem_map.mpr ⟨t, List.mem_filter.mpr ⟨ht, ?_⟩, rfl⟩)
    simp [hk, htype]
  -- the value comes from the payload or from the defaults of the definition
  obtain ⟨hshort, hfits⟩ : (((n.node.data.lookup t.payloadKey).or
      (n.definition.defaults.lookup t.payloadKey)).getD .null).isShort = true ∧
      (type = .float → (((n.node.data.lookup t.payloadKey).or
        (n.definition.defaults.lookup t.payloadKey)).getD .null).fitsDouble = true) := by
    cases hv : n.node.data.lookup t.payloadKey with
    | some v => exact ⟨h.short_lookup hv, fun he => h.floats _ (hkey he) v hv⟩
    | none =>
      cases hv : n.definition.defaults.lookup t.payloadKey with
      | some v =>
        obtain ⟨hshort, hfits⟩ := hserved.defaults t ht hk v hv
        exact ⟨hshort, fun he => hfits (he ▸ htype)⟩
      | none => exact ⟨rfl, fun _ => rfl⟩
  obtain ⟨text, htext⟩ := Option.isSome_iff_exists.mp (Literal.write?_isSome type _ hshort hfits)
  exact ⟨.ofText text, by simp only [literal, htype, htext]⟩

/-- The output of a node that is read through a paired port has this port for its slot. -/
theorem holds_of_lookup {e : Endpoint} {s : Socket} (hs : x.socket? e = some s)
    (ho : s.port.isInput = false) (ht : s.template.isSome) {n : PlacedNode}
    (hn : x.node? e.node = some n) {outputs : List (String × Expr)} {value : Expr}
    (hv : outputs.lookup (x.portName e) = some value) : n.Holds (outputs.map Prod.fst) e := by
  have hnames := (Catalog.builtin_sound n.definition (hb.mem_definitions hn).1).outputs
  obtain ⟨p, hp, hport⟩ := hb.output?_portName hnames hn hs ho ht
  refine ⟨_, List.mem_map.mpr ⟨_, Assoc.mem_of_lookup hv, rfl⟩, p, hp, ?_⟩
  rw [hb.node_id hn, hport]

/-- **Values are there**: what a connection reads has a value unless it is spare, and so has every
data input of a node once its inputs are resolved.  `S` may be any property of spare ports. -/
theorem valued_unless (S : Endpoint → Prop)
    (hS : ∀ c ∈ connections, x.Spare c.source → S c.source) (pass : Pass) :
    Fetching x pass
      (fun _ e s value code s' => (Grow s.scopes s'.scopes ∧ code.Flat) ∧
        (s.scopes ≠ [] → (∃ c ∈ connections, c.source = e) → value.isSome ∨ S e))
      (fun _ n ts inputs s inputs' code s' => (Grow s.scopes s'.scopes ∧ code.Flat) ∧
        (s.scopes ≠ [] → ∀ i, Inputs.Has inputs i ∨ (∃ t ∈ ts, t.kind = .data ∧ t.name = i) →
          Inputs.Has inputs' i ∨
            ∃ t ∈ ts, t.kind = .data ∧ ∃ e, source? x n t = some e ∧ S e)) := by
  have hgrow := growing x pass
  constructor
  case bound =>
    intro pending e s n value ss hn hl
    exact ⟨@Fetching.bound _ _ _ _ hgrow pending _ _ _ _ _ hn hl, fun _ _ => .inl rfl⟩
  case inline =>
    intro pending e s n r inputs code s₁ em s₂ value hn hl hx hp hi hr hres hI hem hv
    exact ⟨hgrow.inline hn hl hx hp hi hr hres hI.1 hem hv, fun _ _ => .inl rfl⟩
  case temporary =>
    intro pending e s n r hidden inputs code s₁ em s₂ value hn hl hx hp hi hr hhidden hres hI hem hv
      made placed
    refine ⟨hgrow.temporary hn hl hx hp hi hr hhidden hres hI.1 hem hv, ?_⟩
    rintro hne ⟨c, hc, rfl⟩
    obtain ⟨socket, -, hs, -, ho, -⟩ := hb.ends c hc
    cases ht : socket.template with
    | none => exact .inr (hS c hc ⟨⟨n, hn, hx, hi⟩, socket, hs, ht⟩)
    | some t =>
      -- the temporaries are declared in a scope that is open, where the slot is then bound
      have hne₂ : s₂.scopes ≠ [] := by
        rw [emit_scopes hem]
        refine hI.1.1.ne_nil ?_
        rw [hhidden]
        exact lower_ne_nil (by rwa [note_scopes]) _
      have hholds := holds_of_lookup hb hs ho (by rw [ht]; rfl) hn hv
      exact .inl (State.fetch_of_binds (State.raise_binds (binds_declare_of_holds hne₂ hholds)))
  case nil => exact ⟨⟨.refl _, trivial⟩, fun _ i hi => .inl (hi.resolve_right (by simp))⟩
  case skip =>
    intro pending n t ts inputs s inputs' code s' hk hI
    refine ⟨hI.1, fun hne i hi => ?_⟩
    refine (hI.2 hne i (hi.imp_right ?_)).imp_right fun ⟨t', ht', h⟩ => ⟨t', .tail _ ht', h⟩
    rintro ⟨t', ht', hk', rfl⟩
    rcases List.mem_cons.mp ht' with rfl | ht'
    · exact absurd hk' hk
    · exact ⟨t', ht', hk', rfl⟩
  case connected =>
    intro pending n t ts inputs s e value code s₁ inputs' more s₂ hk he hR hres hI
    refine ⟨hgrow.connected hk he hR.1 hres hI.1, fun hne i hi => ?_⟩
    rcases hR.2 hne (hb.mem_of_source he) with hv | hspare
    case inr => exact .inr ⟨t, .head _, hk, e, he, hspare⟩
    obtain ⟨v, rfl⟩ := Option.isSome_iff_exists.mp hv
    exact (hI.2 (hR.1.1.ne_nil hne) i (Inputs.has_set_or_mem hi)).imp_right
      fun ⟨t', ht', h⟩ => ⟨t', .tail _ ht', h⟩
  case literal =>
    intro pending n t ts inputs s value inputs' code s' hk he hv hI
    exact ⟨hI.1, fun hne i hi => (hI.2 hne i (Inputs.has_set_or_mem hi)).imp_right
      fun ⟨t', ht', h⟩ => ⟨t', .tail _ ht', h⟩⟩

/-- In a regular graph values are there. -/
theorem valued (h : Script.Regular nodes connections) (pass : Pass) :
    Fetching x pass
      (fun _ e s value code s' => (Grow s.scopes s'.scopes ∧ code.Flat) ∧
        (s.scopes ≠ [] → (∃ c ∈ connections, c.source = e) → value.isSome))
      (fun _ _ ts inputs s inputs' code s' => (Grow s.scopes s'.scopes ∧ code.Flat) ∧
        (s.scopes ≠ [] → ∀ i, Inputs.Has inputs i ∨ (∃ t ∈ ts, t.kind = .data ∧ t.name = i) →
          Inputs.Has inputs' i)) := by
  have hvalued := valued_unless hb (fun _ => False) (fun _ hc => h.not_spare hb hc) pass
  simpa only [and_false, exists_false, or_false] using hvalued

/-- The outline of a node with a regular payload is filled in once its inputs are resolved, unless
the node is fed by a spare port. -/
theorem emit_unless {pass : Pass} {pending : List String} {id : String} {n : PlacedNode}
    {r : Recipe} {s s' : State} {inputs : Inputs} {code : Code} (h : n.node.Regular)
    (hn : x.node? id = some n) (hr : Recipe.ofType? n.node.nodeType = some r)
    (hne : s.scopes ≠ [])
    (hres : Resolved x pass pending n n.definition.inputs [] s inputs code s') :
    (∃ em s'', emit (r.outline x n) inputs s' = .ok (em, s'')) ∨
      ∃ e, Feeds x n e ∧ x.Spare e := by
  by_cases hspare : ∃ e, Feeds x n e ∧ x.Spare e
  · exact .inr hspare
  refine .inl ?_
  obtain ⟨hd, htype⟩ := hb.mem_definitions hn
  have hhas : ∀ i ∈ (r.outline x n).inputs,
      (Supply.ofInputs inputs).lookup i = some true := by
    intro i hi
    have ht := (Catalog.builtin_served n.definition hd).recipe r (by rw [htype]; exact hr) i
      (Recipe.mem_inputs hi)
    rcases ((valued_unless hb x.Spare (fun _ _ h => h) pass).resolved hres).2 hne i (.inr ht) with
      ⟨e, he⟩ | ⟨t, ht, hk, e, he, h⟩
    · simp [Supply.lookup_ofInputs, he]
    · exact absurd ⟨e, ⟨t, ht, hk, he⟩, h⟩ hspare
  refine Outline.Supplied.emit ⟨fun i hi => by simp [hhas i hi],
    Recipe.failure_eq_none h hr, fun name i hm => hhas i ?_⟩ s'
  exact List.mem_append_right _ (List.mem_flatMap.mpr ⟨_, hm, List.mem_singleton_self i⟩)

end Evaluation

/-! ### Outcomes -/

/-- The fault names a node of the graph. -/
def Index.Names (x : Index) (f : Fault) : Prop :=
  ∃ id n, f.node? = some id ∧ x.node? id = some n

theorem Unreadable.names {e : Endpoint} {f : Fault} (h : Unreadable x pending e n f)
    (hn : x.node? e.node = some n) : x.Names f := by
  cases h <;> exact ⟨e.node, n, rfl, hn⟩

theorem Flow.Refused.names {f : Fault} (h : Flow.Refused x f) : x.Names f := by
  obtain ⟨p, id, hid, he⟩ := h
  obtain ⟨n, hn⟩ := Option.isSome_iff_exists.mp hid
  unfold Flow.enter at he
  simp only [hn] at he
  split at he
  · cases he
    exact ⟨id, n, rfl, hn⟩
  split at he
  · cases he
    exact ⟨id, n, rfl, hn⟩
  split at he
  · cases he
  · cases he
    exact ⟨id, n, rfl, hn⟩

/-- The value of a node is made from that of another, which is read for it: directly, or through
nodes that are evaluated on the way. -/
inductive Index.Behind (x : Index) : PlacedNode → PlacedNode → Prop where
  | self {n : PlacedNode} : Behind x n n
  | through {n k m : PlacedNode} {e : Endpoint} (feeds : Evaluation.Feeds x n e)
      (node : x.node? e.node = some k) (data : k.hasExec = false) (rest : Behind x k m) :
      Behind x n m

/-- A node that can fail for another reason than a fault of the graph: its payload is not regular,
or it is fed by a spare port. -/
def Index.Irregular (x : Index) (n : PlacedNode) : Prop :=
  ¬ n.node.Regular ∨ ∃ e, Evaluation.Feeds x n e ∧ x.Spare e

/-- What blocks a node is a fault, or a node behind it is irregular. -/
theorem Blocked.fault_or_irregular (hb : Index.Built .builtin nodes connections x) {pass : Pass}
    {f : Failure} (h : Blocked x pass pending n f) :
    ∀ {id : String}, x.node? id = some n →
      (∃ g, f = .fault g ∧ x.Names g) ∨
        ∃ m, x.Behind n m ∧ (∃ id, x.node? id = some m) ∧ x.Irregular m := by
  induction h with
  | literal mem data free fails =>
    intro id hn
    refine .inr ⟨_, .self, ⟨id, hn⟩, .inl fun hreg => ?_⟩
    obtain ⟨v, hv⟩ := Evaluation.literal_ok hb hreg hn mem data
    rw [hv] at fails
    cases fails
  | outline recipe scopes resolved fails =>
    intro id hn
    refine .inr ⟨_, .self, ⟨id, hn⟩, Classical.or_iff_not_imp_left.mpr fun hreg => ?_⟩
    rcases Evaluation.emit_unless hb (not_not.mp hreg) hn recipe scopes resolved with
      ⟨em, s, hem⟩ | hspare
    · rw [hem] at fails
      cases fails
    · exact hspare
  | source feeds node fails => exact fun _ => .inl ⟨_, rfl, fails.names node⟩
  | through feeds node data fresh blocked ih =>
    exact fun _ => (ih node).imp_right fun ⟨m, hm, h⟩ => ⟨m, .through feeds node data hm, h⟩

/-- In a regular graph nothing but a fault blocks a node. -/
theorem Blocked.fault_of_regular (hb : Index.Built .builtin nodes connections x)
    (hreg : Script.Regular nodes connections) {pass : Pass} {f : Failure}
    (h : Blocked x pass pending n f) {id : String} (hn : x.node? id = some n) :
    ∃ g, f = .fault g ∧ x.Names g := by
  rcases h.fault_or_irregular hb hn with h | ⟨m, -, ⟨id', hm⟩, hbad | ⟨e, ⟨t, -, -, he⟩, hspare⟩⟩
  · exact h
  · exact absurd (hreg.node (Graph.mem_nodes hb hm)) hbad
  · obtain ⟨c, hc, rfl⟩ := hb.mem_of_source he
    exact absurd hspare (hreg.not_spare hb hc)

/-- **A script or a fault.**  Over the built-in catalog, code generation from a regular graph gives
a script, or it stops at a fault of the graph.  Once the graph has been checked the fault names one
of its nodes, and no connection is ever read without giving a value. -/
theorem Script.generate_ok_or_fault {nodes : List Node} {connections : List Connection}
    (h : Regular nodes connections) (indent moduleId : String) :
    ((∃ text, generate .builtin indent moduleId nodes connections = .ok text) ∨
      ∃ f, generate .builtin indent moduleId nodes connections = .error (.fault f)) ∧
    ∀ x, Index.build .builtin nodes connections = .ok x →
      (∀ f, generate .builtin indent moduleId nodes connections = .error (.fault f) → x.Names f) ∧
      ∀ c ∈ connections, ∀ pass fuel pending s value code s', s.scopes ≠ [] →
        Evaluation.read x pass fuel pending c.source s = .ok (value, code, s') →
          value.isSome := by
  have hchecked : ∀ x, Index.build .builtin nodes connections = .ok x → ∀ f,
      generate .builtin indent moduleId nodes connections = .error f →
        ∃ g, f = .fault g ∧ x.Names g := by
    intro x hbuild f hgen
    have hb := Index.built_of_build hbuild
    obtain ⟨n, flow, hflow, ⟨g, hg, rfl⟩ | ⟨id, -, m, hm, hblocked⟩ | ⟨hname, -⟩⟩ :=
      failure_of_generate hbuild hgen
    · exact ⟨g, rfl, (refused_of_mem_faults hb hflow hg).names⟩
    · exact hblocked.fault_of_regular hb h hm
    · have hn := ((mem_entries hb).mp (mem_of_mem_flows hflow)).1
      exact absurd hname (EntryFunction.givenName?_ne_none (h.node (Graph.mem_nodes hb hn)))
  refine ⟨?_, fun x hbuild => ⟨fun f hgen => ?_, ?_⟩⟩
  · cases hgen : generate .builtin indent moduleId nodes connections with
    | ok text => exact .inl ⟨text, rfl⟩
    | error f =>
      rcases generate_error hgen with ⟨g, -, rfl⟩ | ⟨x, hbuild, -⟩
      · exact .inr ⟨g, rfl⟩
      · obtain ⟨g, rfl, -⟩ := hchecked x hbuild f hgen
        exact .inr ⟨g, rfl⟩
  · obtain ⟨g, hg, hnames⟩ := hchecked x hbuild _ hgen
    cases hg
    exact hnames
  · intro c hc pass fuel pending s value code s' hne hr
    exact ((Evaluation.valued (Index.built_of_build hbuild) h pass).read fuel hr).2 hne ⟨c, hc, rfl⟩

/-- A switch with its cases in an object, a large number, a port too many, and a sum of itself. -/
def Script.windNodes : List Node :=
  [{ id := "spawn", nodeType := "on-player-respawned"
     outputs := [{ id := "go", kind := .exec, isInput := false },
       { id := "who", label := "Player", isInput := false }, { id := "spare", isInput := false }] },
   { id := "pick", nodeType := "switch"
     data := [("cases", .obj [("low", .null), ("high", .null)])] },
   { id := "size", nodeType := "const-float", data := [("value", .int (10 ^ 300))] },
   { id := "sum", nodeType := "math-add" },
   { id := "rest", nodeType := "wait" }]

def Script.windConnections : List Connection :=
  [⟨"c0", ⟨"spawn", "go"⟩, ⟨"pick", "input_0"⟩⟩,
   ⟨"c1", ⟨"pick", "output_1"⟩, ⟨"rest", "input_0"⟩⟩,
   ⟨"c2", ⟨"size", "output_0"⟩, ⟨"sum", "input_0"⟩⟩,
   ⟨"c3", ⟨"sum", "output_0"⟩, ⟨"sum", "input_1"⟩⟩,
   ⟨"c4", ⟨"sum", "output_0"⟩, ⟨"rest", "input_1"⟩⟩]

/-- The graph is regular, and the sum is at fault. -/
theorem Script.generate_ok_or_fault_wind : ∃ x, Regular windNodes windConnections ∧
    Index.build .builtin windNodes windConnections = .ok x ∧
    generate .builtin "\t" "demo" windNodes windConnections = .error (.fault (.dataCycle "sum")) ∧
    x.Names (.dataCycle "sum") := by
  have hreg : Regular windNodes windConnections := by decide +kernel
  have hgen : generate .builtin "\t" "demo" windNodes windConnections =
      .error (.fault (.dataCycle "sum")) := by
    rw [generate, Index.build, Index.addNode_builtin]
    decide +kernel
  -- the check of a graph does not look at values, so this one has passed
  obtain ⟨x, hx⟩ : ∃ x, Index.build .builtin windNodes windConnections = .ok x := by
    rcases generate_error hgen with ⟨g, hbuild, hg⟩ | ⟨x, hx, -⟩
    · cases hg
      cases Graph.reported_of_build hbuild with
      | node _ _ flaw => cases flaw
      | connection _ _ _ flaw => cases flaw
      | entry _ _ _ _ flaw => cases flaw
    · exact ⟨x, hx⟩
  exact ⟨x, hreg, hx, hgen, ((generate_ok_or_fault hreg "\t" "demo").2 x hx).1 _ hgen⟩

/-- A health of more digits than are shown. -/
def Script.titanNodes : List Node :=
  [{ id := "start", nodeType := "event" },
   { id := "titan", nodeType := "set-health", data := [("health", .int (10 ^ 4300))] }]

def Script.titanConnections : List Connection :=
  [⟨"c0", ⟨"start", "output_0"⟩, ⟨"titan", "input_0"⟩⟩]

/-- A graph that is fitting but not regular can stop code generation without being at fault: a
number is too long.  So can the indent, before the graph is looked at: not every width has one. -/
theorem Script.long_number_escapes :
    Fitting titanNodes titanConnections ∧ ¬ Regular titanNodes titanConnections ∧
      generate .builtin "\t" "demo" titanNodes titanConnections = .error .numberTooLong ∧
      Indent.ofWidth 9223372036854775808 = .error .widthTooLarge := by
  refine ⟨by decide +kernel, by decide +kernel, ?_, by decide +kernel⟩
  rw [generate, Index.build, Index.addNode_builtin]
  decide +kernel

end VisualScript
