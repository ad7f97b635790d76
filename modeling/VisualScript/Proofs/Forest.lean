import VisualScript.Proofs.Following
import VisualScript.Proofs.Recursion

/-!
# Proofs — Forest

The exec connections of a graph whose nodes carry the ports of the built-in catalog.  A node has one
exec input there and an input has one connection, so control passes to a node along one connection
only (`Index.Built.exec_unique`): the exec connections form a forest, with the entries as roots of
what is reached.

* `Flow.forest_of_built`: no node is led to twice.
* `Script.flows_direct`: the flow of every entry is laid out by plain recursion.
* `Script.walk_refines_recursion`: the code of a script is that of the nodes that its entries reach,
  each once, in the order and nesting of the recursion.
-/

namespace VisualScript

variable {x : Index} {nodes : List Node} {connections : List Connection}

/-! ### Outputs of a recipe -/

namespace Recipe

theorem ports_caseItems (type : ValueType) (n : PlacedNode) : ∀ (i : Nat) (vs : List Json),
    (caseItems type n i vs).filterMap Item.port? = (caseItems type n i vs).filterMap Item.blockPort?
  | _, [] => rfl
  | i, v :: vs => by
    rw [caseItems]
    split
    · simp only [List.filterMap_cons, Item.port?, Item.blockPort?, ports_caseItems type n (i + 1) vs]
    · rfl

/-- No two items of a switch go on with the same output. -/
theorem nodup_ports_switch (type : ValueType) (x : Index) (n : PlacedNode) (cases : List Json) :
    ((switchItems type x n cases).filterMap Item.port?).Nodup := by
  obtain ⟨hnodup, hports⟩ := caseItems_ports type n 0 cases
  have hcase : ∀ {port}, port ∈ (caseItems type n 0 cases).filterMap Item.blockPort? →
      port ≠ "default" ∧ port ≠ "completed" := by
    intro port hm
    obtain ⟨j, -, rfl⟩ := hports port hm
    constructor <;> intro he <;> simpa using congrArg String.toList he
  have hall : (switchItems type x n cases).filterMap Item.port? =
      (caseItems type n 0 cases).filterMap Item.blockPort? ++
        ((if isConnected x n "default" then ["default"] else []) ++ ["completed"]) := by
    simp only [switchItems, List.filterMap_append, ports_caseItems]
    split <;> simp [List.filterMap_cons, Item.port?]
  rw [hall]
  refine List.nodup_append.mpr ⟨hnodup, by split <;> simp, ?_⟩
  rintro a ha b hb rfl
  obtain ⟨h₁, h₂⟩ := hcase ha
  split at hb <;> simp_all

/-- No two items of a node go on with the same output. -/
theorem nodup_ports (x : Index) (n : PlacedNode) (r : Recipe)
    (hn : ((n.outputs.filter (·.port.kind == .exec)).map Socket.name).Nodup) :
    ((r.outline x n).items.filterMap Item.port?).Nodup := by
  cases r with
  | sequence =>
    have hports : ((n.outputs.filter (·.port.kind == .exec)).map
        fun s => Item.follow s.name).filterMap Item.port? =
          (n.outputs.filter (·.port.kind == .exec)).map Socket.name := by
      rw [List.filterMap_map]
      exact congrFun List.filterMap_eq_map _
    simpa only [outline, hports] using hn
  | switch type => simp only [outline]; split <;> exact nodup_ports_switch type x n _
  | constant type key output => simp only [outline]; split <;> simp
  | branch => simp only [outline]; split <;> simp [List.filterMap_cons, Item.port?]
  | statement lines =>
    have hlines : (lines.map Item.line).filterMap Item.port? = [] := by
      simp [List.filterMap_map, Item.port?]
    simp [outline, hlines, Item.port?]
  | _ => simp [outline, weaponFields, List.filterMap_cons, Item.port?]

end Recipe

/-! ### One exec input -/

namespace Catalog

/-- What makes exec connections a forest in a definition: it has one exec input at most, and its
case outputs are counted from zero. -/
@[mk_iff]
structure Branching (d : Definition) : Prop where
  single : (d.inputs.filter (·.kind == .exec)).length ≤ 1
  cases  : ∀ t ∈ d.outputs, "case".toList.isPrefixOf t.name.toList = true →
    ∃ k < 3, t.name = "case" ++ toString k ∧
      ∀ j < k, ∃ u ∈ d.outputs, u.name = "case" ++ toString j

instance (d : Definition) : Decidable (Branching d) :=
  decidable_of_iff _ (branching_iff d).symm

theorem builtin_branching : ∀ d ∈ builtin.definitions, Branching d := by decide +kernel

end Catalog

/-- Where a node has one exec input at most, every exec input is the same one. -/
theorem PlacedNode.exec_input_unique {n : PlacedNode}
    (hlength : (n.inputs.filter (·.port.kind == .exec)).length ≤ 1) {s t : Socket}
    (hs : s ∈ n.inputs) (ht : t ∈ n.inputs) (hsk : s.port.kind = .exec)
    (htk : t.port.kind = .exec) : s = t := by
  have hmem : ∀ {u : Socket}, u ∈ n.inputs → u.port.kind = .exec →
      u ∈ n.inputs.filter (·.port.kind == .exec) := fun hu hk => by simp [hu, hk]
  have hs := hmem hs hsk
  have ht := hmem ht htk
  rcases hl : n.inputs.filter (·.port.kind == .exec) with _ | ⟨u, _ | ⟨v, us⟩⟩
  · simp [hl] at hs
  · rw [hl, List.mem_singleton] at hs ht
    rw [hs, ht]
  · simp [hl] at hlength

namespace Index.Built

variable {id : String} {n : PlacedNode}

/-- A furnished node has one exec input at most. -/
theorem exec_input_single (h : Index.Built .builtin nodes connections x)
    (hf : ∀ node ∈ nodes, Catalog.builtin.Furnishes node) (hn : x.node? id = some n) :
    (n.inputs.filter (·.port.kind == .exec)).length ≤ 1 := by
  have hkinds : n.inputs.map (·.port.kind) = n.definition.inputs.map (·.kind) := by
    rw [(h.furnished hf hn).1, PlacedNode.kinds_socketsOf, Catalog.inputPorts,
      Catalog.kinds_portsOf]
  have hcount := congrArg (List.countP (· == PortKind.exec)) hkinds
  rw [List.countP_map, List.countP_map, List.countP_eq_length_filter,
    List.countP_eq_length_filter] at hcount
  have := (Catalog.builtin_branching _ (h.mem_definitions hn).1).single
  exact hcount ▸ this

theorem mem_inputs {catalog : Catalog} (h : Index.Built catalog nodes connections x)
    (hn : x.node? id = some n) {s : Socket} (hs : s ∈ n.sockets) (hi : s.port.isInput = true) :
    s ∈ n.inputs := by
  rcases List.mem_append.mp hs with hs | hs
  · exact hs
  · rw [h.outputs_eq hn] at hs
    rw [PlacedNode.isInput_of_mem hs] at hi
    cases hi

/-- Where nodes have one exec input at most, control passes to a node along one connection only. -/
theorem exec_unique {catalog : Catalog} (h : Index.Built catalog nodes connections x)
    (hsingle : ∀ {id n}, x.node? id = some n →
      (n.inputs.filter (·.port.kind == .exec)).length ≤ 1) {c c' : Connection}
    (hc : c ∈ connections) (hc' : c' ∈ connections) (ht : c.target.node = c'.target.node)
    {s s' : Socket} (hs : x.socket? c.source = some s) (hs' : x.socket? c'.source = some s')
    (hk : s.port.kind = .exec) (hk' : s'.port.kind = .exec) : c = c' := by
  obtain ⟨s₀, t, hs₀, ht₀, -, hti, hkind⟩ := h.ends c hc
  obtain ⟨s₁, t', hs₁, ht₁, -, hti', hkind'⟩ := h.ends c' hc'
  cases hs.symm.trans hs₀
  cases hs'.symm.trans hs₁
  obtain ⟨m, hm, hmem, hid⟩ := Index.mem_of_socket? ht₀
  obtain ⟨m', hm', hmem', hid'⟩ := Index.mem_of_socket? ht₁
  rw [← ht] at hm'
  cases hm.symm.trans hm'
  have hsame := PlacedNode.exec_input_unique (hsingle hm) (h.mem_inputs hm hmem hti)
    (h.mem_inputs hm hmem' hti') (hkind ▸ hk) (hkind' ▸ hk')
  have htarget : c.target = c'.target := by
    rw [show c.target = ⟨c.target.node, c.target.port⟩ from rfl, ht, ← hid, hsame, hid']
  exact List.inj_on_of_nodup_map h.single hc hc' htarget

/-- The names of the outputs of a furnished node differ. -/
theorem nodup_output_names (h : Index.Built .builtin nodes connections x)
    (hf : ∀ node ∈ nodes, Catalog.builtin.Furnishes node) (hn : x.node? id = some n) :
    (n.outputs.map Socket.name).Nodup := by
  have hnames : n.outputs.map Socket.name =
      n.outputs.filterMap fun s => s.template.map (·.name) := by
    rw [← List.filterMap_eq_map]
    refine List.filterMap_congr fun s hs => ?_
    obtain ⟨t, ht⟩ := Option.isSome_iff_exists.mp (h.paired hf hn (List.mem_append_right _ hs))
    simp [Socket.name, ht]
  rw [hnames, h.outputs_eq hn]
  exact PlacedNode.nodup_names (Catalog.builtin_sound _ (h.mem_definitions hn).1).outputs

end Index.Built

/-! ### Where a node goes on, port by port -/

namespace Flow

/-- The exec outputs that the layout goes on with from a node. -/
def exits (x : Index) (id : String) : List Endpoint :=
  match x.node? id with
  | none   => []
  | some n =>
      if n.definition.isEntry then
        (n.outputs.filter (·.port.kind == .exec)).map fun s => ⟨id, s.port.id⟩
      else match Recipe.ofType? n.node.nodeType with
        | none   => []
        | some r => ((r.outline x n).items.filterMap Item.port?).filterMap fun port =>
            (n.output? port).map fun p => ⟨id, p.id⟩

theorem mem_exits_of_port {id port : String} {n : PlacedNode} {r : Recipe} {p : Port}
    (hn : x.node? id = some n) (hi : n.definition.isEntry = false)
    (hr : Recipe.ofType? n.node.nodeType = some r)
    (hport : port ∈ (r.outline x n).items.filterMap Item.port?) (hp : n.output? port = some p) :
    ⟨id, p.id⟩ ∈ exits x id := by
  simp only [exits, hn, hi, hr, Bool.false_eq_true, if_false]
  exact List.mem_filterMap.mpr ⟨port, hport, by simp [hp]⟩

theorem mem_exits_of_entry {n : PlacedNode} {s : Socket} (hn : x.node? n.node.id = some n)
    (he : n.definition.isEntry = true) (hs : s ∈ n.outputs.filter (·.port.kind == .exec)) :
    ⟨n.node.id, s.port.id⟩ ∈ exits x n.node.id := by
  simp only [exits, hn, he, if_true]
  exact List.mem_map.mpr ⟨s, hs, rfl⟩

/-- The layout goes on from a node with outputs of the node. -/
theorem node_of_mem_exits {id : String} {e : Endpoint} (h : e ∈ exits x id) : e.node = id := by
  unfold exits at h
  split at h
  · cases h
  split at h
  · obtain ⟨s, -, rfl⟩ := List.mem_map.mp h
    rfl
  split at h
  · cases h
  · obtain ⟨port, -, h⟩ := List.mem_filterMap.mp h
    obtain ⟨p, -, rfl⟩ := Option.map_eq_some_iff.mp h
    rfl

section

variable {catalog : Catalog} {id : String} {n : PlacedNode} {r : Recipe}
  (hb : Index.Built catalog nodes connections x) (hn : x.node? id = some n)
  (hi : n.definition.isEntry = false) (hr : Recipe.ofType? n.node.nodeType = some r)

include hb hn hi hr

theorem exit_of_port {port a : String} (hport : port ∈ (r.outline x n).items.filterMap Item.port?)
    (ha : a ∈ targets x n port) : ∃ e ∈ exits x id, targets x n port = x.targets e := by
  unfold targets at ha ⊢
  cases hp : n.output? port with
  | none => simp [hp] at ha
  | some p => exact ⟨_, mem_exits_of_port hn hi hr hport hp, by rw [hb.node_id hn]⟩

/-- What a job leads to, an output of the node leads to. -/
theorem exit_of_job {job : Item × List String} {a : String}
    (hj : job ∈ jobs x n (Outline.splitTail (r.outline x n).items).1) (ha : a ∈ job.2) :
    ∃ e ∈ exits x id, job.2 = x.targets e := by
  obtain ⟨port, hport, heq⟩ := exists_of_mem_jobs hj ha
  obtain ⟨item, hitem, hport⟩ := List.mem_filterMap.mp hport
  have hport := List.mem_filterMap.mpr ⟨item, mem_of_mem_splitTail hitem, hport⟩
  rw [heq] at ha ⊢
  exact exit_of_port hb hn hi hr hport ha

theorem exit_of_tail {a : String} (ha : a ∈ tailTargets x n (r.outline x n).items) :
    ∃ e ∈ exits x id, tailTargets x n (r.outline x n).items = x.targets e := by
  obtain ⟨port, hport, heq⟩ := exists_of_mem_tailTargets ha
  rw [heq] at ha ⊢
  exact exit_of_port hb hn hi hr hport ha

omit hn hi hr in
/-- What the layout goes on to, it goes on to with an output of the node. -/
theorem exit_of_next {a : String} (ha : a ∈ next x id) : ∃ e ∈ exits x id, a ∈ x.targets e := by
  cases hn : x.node? id with
  | none => simp [next, hn] at ha
  | some n =>
    obtain rfl := hb.node_id hn
    by_cases he : n.definition.isEntry = true
    · rw [next_of_entry hn he] at ha
      obtain ⟨job, hj, ha⟩ := List.mem_flatMap.mp ha
      obtain ⟨s, hs, rfl⟩ := List.mem_map.mp hj
      exact ⟨_, mem_exits_of_entry hn he hs, ha⟩
    have hi : n.definition.isEntry = false := by simpa using he
    cases hr : Recipe.ofType? n.node.nodeType with
    | none => simp [next, hn, hi, hr] at ha
    | some r =>
      rw [next_of_inner hn hi hr] at ha
      rcases List.mem_append.mp ha with ha | ha
      · obtain ⟨job, hj, ha⟩ := List.mem_flatMap.mp ha
        obtain ⟨e, he, heq⟩ := exit_of_job hb hn hi hr hj ha
        exact ⟨e, he, heq ▸ ha⟩
      · obtain ⟨e, he, heq⟩ := exit_of_tail hb hn hi hr ha
        exact ⟨e, he, heq ▸ ha⟩

end

end Flow

/-- The layout goes on with the output the connection starts at. -/
def Index.Continues (x : Index) (c : Connection) : Prop := c.source ∈ Flow.exits x c.source.node

theorem Index.Built.continues_of_exit {catalog : Catalog}
    (h : Index.Built catalog nodes connections x) {id : String} {e : Endpoint} {c : Connection}
    (he : e ∈ Flow.exits x id) (hc : c ∈ x.outgoingOf e) :
    c ∈ connections ∧ x.Continues c ∧ c.source.node = id := by
  obtain ⟨hmem, rfl⟩ := h.mem_outgoingOf.mp hc
  obtain rfl := Flow.node_of_mem_exits he
  exact ⟨hmem, he, rfl⟩

namespace Flow

variable (h : Index.Built .builtin nodes connections x)

include h

theorem next_eq_exits (id : String) : next x id = (exits x id).flatMap x.targets := by
  cases hn : x.node? id with
  | none => simp [next, exits, hn]
  | some n =>
    by_cases he : n.definition.isEntry = true
    · simp [next, exits, hn, he, Index.successors, Index.outputs, List.flatMap_map]
    have he : n.definition.isEntry = false := by simpa using he
    cases hr : Recipe.ofType? n.node.nodeType with
    | none => simp [next, exits, hn, he, hr]
    | some r =>
      rw [next_of_recipe h hn he hr]
      simp only [exits, hn, he, hr, Bool.false_eq_true, if_false, List.filterMap_filterMap]
      generalize (r.outline x n).items = items
      induction items with
      | nil => rfl
      | cons item items ih =>
        rw [List.flatMap_cons, ih, List.filterMap_cons, itemTargets_eq]
        cases hp : item.port? with
        | none => simp
        | some port => cases ho : n.output? port <;> simp [targets, ho, h.node_id hn]

/-- The layout goes on with exec outputs of the node. -/
theorem socket?_of_mem_exits {id : String} {e : Endpoint} (he : e ∈ exits x id) :
    e.node = id ∧ ∃ s, x.socket? e = some s ∧ s.port.kind = .exec := by
  unfold exits at he
  split at he
  · cases he
  rename_i n hn
  split at he
  · obtain ⟨s, hs, rfl⟩ := List.mem_map.mp he
    obtain ⟨hs, hk⟩ := List.mem_filter.mp hs
    exact ⟨rfl, s, h.socket?_of_mem hn (List.mem_append_right _ hs), by simpa using hk⟩
  split at he
  · cases he
  rename_i r hr
  obtain ⟨port, hport, he⟩ := List.mem_filterMap.mp he
  obtain ⟨p, hp, rfl⟩ := Option.map_eq_some_iff.mp he
  obtain ⟨s, hs, rfl, t, ht, rfl⟩ := PlacedNode.of_named? hp
  obtain ⟨hd, htype⟩ := h.mem_definitions hn
  refine ⟨rfl, s, h.socket?_of_mem hn (List.mem_append_right _ hs), ?_⟩
  rw [PlacedNode.output?, h.outputs_eq hn] at hp
  rw [h.outputs_eq hn] at hs
  obtain ⟨hkind, hmem⟩ := PlacedNode.template_kind hs ht
  rw [← hkind]
  exact ((Catalog.builtin_sound _ hd).recipe r (by rw [htype]; exact hr)).exec t hmem
    (Recipe.follows_of_mem hport)

/-- The layout goes on with an output once. -/
theorem exits_nodup (hf : ∀ node ∈ nodes, Catalog.builtin.Furnishes node) (id : String) :
    (exits x id).Nodup := by
  unfold exits
  split
  · exact List.nodup_nil
  rename_i n hn
  split
  · have hids : (n.outputs.map (·.port.id)).Nodup :=
      (h.ports (Index.mem_placed hn)).sublist ((List.sublist_append_right _ _).map _)
    have hids := hids.sublist ((List.filter_sublist (p := (·.port.kind == .exec))).map _)
    refine List.Nodup.of_map Endpoint.port ?_
    rw [List.map_map]
    exact hids
  split
  · exact List.nodup_nil
  rename_i r hr
  refine (Recipe.nodup_ports x n r ?_).filterMap fun a b e ha hb => ?_
  · exact (h.nodup_output_names hf hn).sublist ((List.filter_sublist).map _)
  · -- an output has one name
    obtain ⟨p, hp, rfl⟩ := Option.map_eq_some_iff.mp ha
    obtain ⟨q, hq, he⟩ := Option.map_eq_some_iff.mp hb
    rw [← h.portName_output? hn hp, ← h.portName_output? hn hq, he]

/-- The layout goes on along exec connections. -/
theorem mem_next_iff {a b : String} :
    b ∈ next x a ↔ ∃ c ∈ connections, c.source ∈ exits x a ∧ c.target.node = b := by
  rw [next_eq_exits h, List.mem_flatMap]
  constructor
  · rintro ⟨e, he, hb⟩
    obtain ⟨c, hc, rfl⟩ := List.mem_map.mp hb
    obtain ⟨hmem, rfl⟩ := h.mem_outgoingOf.mp hc
    exact ⟨c, hmem, he, rfl⟩
  · rintro ⟨c, hc, he, rfl⟩
    exact ⟨c.source, he, List.mem_map_of_mem (h.mem_outgoingOf.mpr ⟨hc, rfl⟩)⟩

/-- Control passes to what the layout goes on with. -/
theorem passes_of_leads {a b : String} (hab : Leads x a b) : x.Passes a b := by
  obtain ⟨c, hc, he, rfl⟩ := (mem_next_iff h).mp hab
  obtain ⟨rfl, s, hs, hk⟩ := socket?_of_mem_exits h he
  exact h.passes_of_mem hc hs hk

/-- In a furnished graph no node is led to twice. -/
theorem forest_of_built (hf : ∀ node ∈ nodes, Catalog.builtin.Furnishes node) : Forest x := by
  constructor
  · intro id
    have hmap : next x id = ((exits x id).flatMap x.outgoingOf).map (·.target.node) := by
      rw [next_eq_exits h, List.map_flatMap]
      rfl
    have hmem : ∀ c ∈ (exits x id).flatMap x.outgoingOf,
        c ∈ connections ∧ ∃ s, x.socket? c.source = some s ∧ s.port.kind = .exec := by
      intro c hc
      obtain ⟨e, he, hc⟩ := List.mem_flatMap.mp hc
      obtain ⟨hmem, rfl⟩ := h.mem_outgoingOf.mp hc
      exact ⟨hmem, (socket?_of_mem_exits h he).2⟩
    rw [hmap]
    refine List.Nodup.map_on (fun c hc c' hc' ht => ?_) ?_
    · obtain ⟨hc, s, hs, hk⟩ := hmem c hc
      obtain ⟨hc', s', hs', hk'⟩ := hmem c' hc'
      exact h.exec_unique (h.exec_input_single hf) hc hc' ht hs hs' hk hk'
    · refine List.nodup_flatMap.mpr ⟨fun e _ => ?_, (exits_nodup h hf id).imp fun hne c hc hc' => ?_⟩
      · rw [h.outgoing]
        exact (List.Nodup.of_map _ h.single).filter _
      · exact hne ((h.mem_outgoingOf.mp hc).2.symm.trans (h.mem_outgoingOf.mp hc').2)
  · intro a b c ha hb
    obtain ⟨c₁, hc₁, he₁, ht₁⟩ := (mem_next_iff h).mp ha
    obtain ⟨c₂, hc₂, he₂, ht₂⟩ := (mem_next_iff h).mp hb
    obtain ⟨ha, s₁, hs₁, hk₁⟩ := socket?_of_mem_exits h he₁
    obtain ⟨hb, s₂, hs₂, hk₂⟩ := socket?_of_mem_exits h he₂
    rw [← ha, ← hb, h.exec_unique (h.exec_input_single hf) hc₁ hc₂ (ht₁.trans ht₂.symm) hs₁ hs₂ hk₁
      hk₂]

end Flow

/-! ### Flows -/

namespace Script

/-- The flows of the entries of a forest are laid out by plain recursion. -/
theorem flows_direct (hf : Flow.Forest x)
    (hinner : ∀ {a b m}, b ∈ Flow.next x a → x.node? b = some m → m.definition.isEntry = false) :
    ∀ {ns : List PlacedNode} {p : Progress}, Awaiting x ns p → Clear x p.seen [] →
      (∀ f ∈ flows x ns p, f.2.Whole) →
      ∀ f ∈ flows x ns p, f.2.Direct x (Flow.entryJobs x f.1)
  | [], _, _, _, _, _, hm => by cases hm
  | n :: ns, p, hns, hclear, hwhole, f, hm => by
    obtain ⟨hn, he⟩ := hns.entries n (.head _)
    obtain ⟨now, hlays, hp⟩ := Flow.lays_entry (x := x) n p
    -- nothing leads to an entry, so it can be taken up next
    have hentry : Clear x p.seen [n.node.id] := by
      refine ⟨List.nodup_singleton _, by simpa using hns.fresh n (.head _), fun a ha b hb => ?_⟩
      refine ⟨(hclear.ahead a ha b hb).1, fun hm => ?_⟩
      have := hinner (List.mem_singleton.mp hm ▸ hb) hn
      simp [he] at this
    have hstart := hentry.enter hf
    rw [Flow.next_of_entry hn he] at hstart
    obtain ⟨hdirect, hnow⟩ := hlays.direct hf (hwhole _ (.head _)) [] hstart
    rcases List.mem_cons.mp hm with rfl | hm
    · exact hdirect
    · have hv := ((Visited.start (hns.fresh n (.head _))).trans hlays.visited)
      refine flows_direct hf hinner hns.entry.2 (hnow.congr fun a => ?_)
        (fun f hm => hwhole f (.tail _ hm)) f hm
      rw [hp, hv.finish.seen, hv.seen]

end Script

/-! ### What the entries reach -/

/-- The payload has a value for every case that is connected. -/
def Index.CasesListed (x : Index) (connections : List Connection) : Prop :=
  ∀ c ∈ connections, ∀ n, x.node? c.source.node = some n →
    ∀ i : Nat, x.portName c.source = "case" ++ toString i →
      ∃ cases, Recipe.casesOf n.node.data = .ok cases ∧ i < cases.length

namespace Index.Built

/-- A furnished node has an output for every output template. -/
theorem output?_isSome (h : Index.Built .builtin nodes connections x)
    (hf : ∀ node ∈ nodes, Catalog.builtin.Furnishes node) {id : String} {n : PlacedNode}
    (hn : x.node? id = some n) {t : PortTemplate} (ht : t ∈ n.definition.outputs) :
    (n.output? t.name).isSome := by
  obtain ⟨s, hs, hst⟩ : ∃ s ∈ n.outputs, s.template = some t := by
    rw [(h.furnished hf hn).2]
    exact PlacedNode.exists_of_template (Catalog.kinds_portsOf _ _ _) ht
  have hnames : (n.outputs.filterMap fun s => s.template.map (·.name)).Nodup := by
    rw [h.outputs_eq hn]
    exact PlacedNode.nodup_names (Catalog.builtin_sound _ (h.mem_definitions hn).1).outputs
  rw [PlacedNode.output?, PlacedNode.named?_of_mem hnames hs hst]
  rfl

/-- In a furnished graph whose cases are listed, every exec connection is followed. -/
theorem followed_of_passes (h : Index.Built .builtin nodes connections x)
    (hf : ∀ node ∈ nodes, Catalog.builtin.Furnishes node) (hl : x.CasesListed connections)
    {a b : String} (hab : x.Passes a b) :
    ∃ c ∈ connections, c.source.node = a ∧ c.target.node = b ∧ x.Followed c.source := by
  obtain ⟨n, s, hn, hs, hk, c, hc, he, rfl⟩ := Graph.output_of_passes h hab
  have hmem : s ∈ n.sockets := List.mem_append_right _ hs
  obtain ⟨t, ht⟩ := Option.isSome_iff_exists.mp (h.paired hf hn hmem)
  refine ⟨c, hc, by rw [he], rfl, n, s, by rw [he]; exact hn, hs, by rw [he], hk,
    .inr ⟨t, ht, fun i hi => ⟨?_, fun j hj => ?_⟩⟩⟩
  · refine hl c hc n (by rw [he]; exact hn) i ?_
    rw [he, Index.portName, h.socket?_of_mem hn hmem, ← hi]
    simp [Socket.name, ht]
  · rw [h.outputs_eq hn] at hs
    have hts := (PlacedNode.template_kind hs ht).2
    -- the cases of a definition are counted from zero
    obtain ⟨k, -, hk, hlower⟩ :=
      (Catalog.builtin_branching _ (h.mem_definitions hn).1).cases t hts (by simp [hi])
    obtain rfl : k = i := toString_inj (String.toList_inj.mp
      (by simpa using congrArg String.toList (hk.symm.trans hi)))
    rcases Nat.lt_or_eq_of_le hj with hj | rfl
    · obtain ⟨u, hu, hname⟩ := hlower j hj
      exact hname ▸ h.output?_isSome hf hn hu
    · exact hi ▸ h.output?_isSome hf hn hts

end Index.Built

namespace Script

theorem flows_map_fst (x : Index) : ∀ (ns : List PlacedNode) (p : Progress),
    (flows x ns p).map Prod.fst = ns
  | [], _ => rfl
  | n :: ns, _ => congrArg (n :: ·) (flows_map_fst x ns _)

/-- No two nodes of the functions are the same. -/
theorem functions_nodup (hb : Index.Built .builtin nodes connections x) {moduleId : String}
    {fs : List EntryFunction} (h : functions x moduleId = .ok fs) :
    (fs.flatMap (·.nodes)).Nodup := by
  have hnodes : fs.map (·.nodes) = (flows x x.entries {}).map (·.2.nodes) :=
    map_eq_of_forall₂ (functions_of_flows hb h) fun hof => hof.nodes_eq
  obtain ⟨hown, hdisjoint⟩ := List.nodup_flatMap.mp (flows_entries hb).2
  rw [List.flatMap_def, hnodes, ← List.flatMap_def]
  exact List.nodup_flatMap.mpr ⟨fun g hg => (List.nodup_cons.mp (hown g hg)).2,
    hdisjoint.imp fun hd _ ha hb => hd (.tail _ ha) (.tail _ hb)⟩

/-- Every node that an entry reaches has code. -/
theorem emitted_of_reached (hbuild : Index.build .builtin nodes connections = .ok x)
    (hf : ∀ node ∈ nodes, Catalog.builtin.Furnishes node) (hl : x.CasesListed connections)
    {moduleId : String} {fs : List EntryFunction} (h : functions x moduleId = .ok fs)
    {n : PlacedNode} (hn : n ∈ x.entries) {id : String}
    (hreach : Relation.TransGen x.Passes n.node.id id) : ∃ f ∈ fs, id ∈ f.nodes := by
  have hb := Index.built_of_build hbuild
  have hstep : ∀ {f a b}, f ∈ fs → a ∈ f.entry.node.id :: f.nodes → x.Passes a b →
      ∃ g ∈ fs, b ∈ g.nodes := by
    intro f a b hm ha hab
    obtain ⟨before, after, rfl⟩ := List.append_of_mem hm
    obtain ⟨c, hc, rfl, rfl, hfollowed⟩ := hb.followed_of_passes hf hl hab
    have hnext := hb.mem_next hc hfollowed fun n hn hi => recipe_of_functions hb h ha hn hi
    obtain ⟨g, hg, hb⟩ := functions_closed hbuild h ha hnext hab
    refine ⟨g, ?_, hb⟩
    simp only [List.mem_append, List.mem_cons] at hg ⊢
    exact hg.imp_right fun hg => .inl (hg.resolve_right (by simp))
  induction hreach with
  | single hab =>
    have hg : n ∈ (flows x x.entries {}).map Prod.fst := by
      rw [flows_map_fst]
      exact hn
    obtain ⟨g, hmem, rfl⟩ := List.mem_map.mp hg
    obtain ⟨f, hm, hof⟩ := exists_of_forall₂ (functions_of_flows hb h) hmem
    exact hstep hm (hof.entry ▸ .head _) hab
  | tail _ hab ih =>
    obtain ⟨f, hm, ha⟩ := ih
    exact hstep hm (.tail _ ha) hab

/-- **The walk refines plain recursion.**  In a graph whose nodes carry the ports of the catalog and
whose connected cases have values, the script has the code of the nodes that exec connections reach
from the entries, each in one place of one function.  In every function the nodes stand in the order
and nesting of the recursion over its entry, which has one result. -/
theorem walk_refines_recursion {indent moduleId text : String}
    (hbuild : Index.build .builtin nodes connections = .ok x)
    (hf : ∀ node ∈ nodes, Catalog.builtin.Furnishes node) (hl : x.CasesListed connections)
    (hgen : generate .builtin indent moduleId nodes connections = .ok text) :
    ∃ fs, functions x moduleId = .ok fs ∧ (nodes ≠ [] → text = Script.text indent moduleId fs) ∧
      fs.map (·.entry) = x.entries ∧
      (∀ id, (∃ f ∈ fs, id ∈ f.nodes) ↔ ∃ n ∈ x.entries,
        Relation.TransGen (Graph.ExecEdge .builtin nodes connections) n.node.id id) ∧
      (fs.flatMap (·.nodes)).Nodup ∧
      ∀ f ∈ fs, ∃ flow : Parts,
        (∀ flow' : Parts, flow'.Direct x (Flow.entryJobs x f.entry) ↔ flow' = flow) ∧
        f.body.visits [] = flow.visits [] f.entry.node.id := by
  have hb := Index.built_of_build hbuild
  obtain ⟨fs, hfs, htext⟩ := functions_of_generate hbuild hgen
  have hof := functions_of_flows hb hfs
  have hdirect : ∀ g ∈ flows x x.entries {}, g.2.Direct x (Flow.entryJobs x g.1) := by
    refine flows_direct (Flow.forest_of_built hb hf)
      (fun hab hm => Index.inner_of_passes hbuild (Flow.passes_of_leads hb hab) hm)
      (awaiting_entries hb) ⟨List.nodup_nil, by simp, by simp [Progress.seen]⟩ fun g hg => ?_
    obtain ⟨f, -, hof⟩ := exists_of_forall₂ hof hg
    exact hof.whole
  have hflow : ∀ f ∈ fs, ∃ flow, (f.entry, flow) ∈ flows x x.entries {} ∧ f.Of (f.entry, flow) := by
    intro f hm
    obtain ⟨⟨n, flow⟩, hg, hof⟩ := exists_of_forall₂ hof.flip hm
    obtain rfl : f.entry = n := hof.entry
    exact ⟨flow, hg, hof⟩
  refine ⟨fs, hfs, htext, ?_, fun id => ⟨?_, ?_⟩, functions_nodup hb hfs, fun f hm => ?_⟩
  · rw [map_eq_of_forall₂ (functions_of_flows hb hfs) fun hof => hof.entry, flows_map_fst]
  · rintro ⟨f, hm, hid⟩
    obtain ⟨flow, hg, hof⟩ := hflow f hm
    have hentry := mem_of_mem_flows hg
    obtain ⟨hn, he⟩ := (mem_entries hb).mp hentry
    rw [hof.nodes_eq] at hid
    obtain ⟨a, ha, hreach⟩ := (hdirect _ hg).reached hid
    rw [← Flow.next_of_entry hn he] at ha
    refine ⟨f.entry, hentry, (Graph.transGen_passes_iff hb _ _).mp ?_⟩
    exact .head' (Flow.passes_of_leads hb ha)
      (Relation.ReflTransGen.mono (fun _ _ => Flow.passes_of_leads hb) _ _ hreach)
  · rintro ⟨n, hn, hreach⟩
    exact emitted_of_reached hbuild hf hl hfs hn ((Graph.transGen_passes_iff hb _ _).mpr hreach)
  · obtain ⟨flow, hg, hof⟩ := hflow f hm
    refine ⟨flow, fun flow' => ⟨fun h => h.unique (hdirect _ hg), ?_⟩, hof.visits⟩
    rintro rfl
    exact hdirect _ hg

/-- A branch in front of a message, and a loop around one. -/
def nestNodes : List Node :=
  [{ id := "spawn", nodeType := "on-player-respawned" }, { id := "fork", nodeType := "branch" },
   { id := "loop", nodeType := "loop-while" }, { id := "inside", nodeType := "print" },
   { id := "after", nodeType := "print" }, { id := "second", nodeType := "print" },
   { id := "pick", nodeType := "switch", data := [("cases", .arr [.int 4])] }]

def nestConnections : List Connection :=
  [⟨"c0", ⟨"spawn", "output_0"⟩, ⟨"loop", "input_0"⟩⟩,
   ⟨"c1", ⟨"spawn", "output_0"⟩, ⟨"second", "input_0"⟩⟩,
   ⟨"c2", ⟨"loop", "output_0"⟩, ⟨"fork", "input_0"⟩⟩,
   ⟨"c3", ⟨"fork", "output_1"⟩, ⟨"inside", "input_0"⟩⟩,
   ⟨"c4", ⟨"loop", "output_1"⟩, ⟨"pick", "input_0"⟩⟩,
   ⟨"c5", ⟨"pick", "output_0"⟩, ⟨"after", "input_0"⟩⟩]

/-- What the loop goes on with comes in front of the second target of the entry. -/
theorem walk_refines_recursion_nest : ∃ x text fs f,
    Index.build .builtin nestNodes nestConnections = .ok x ∧
      (∀ node ∈ nestNodes, Catalog.builtin.Furnishes node) ∧ x.CasesListed nestConnections ∧
      generate .builtin "\t" "demo" nestNodes nestConnections = .ok text ∧
      functions x "demo" = .ok fs ∧ f ∈ fs ∧
      f.nodes = ["loop", "fork", "inside", "pick", "after", "second"] ∧
      ∃ flow : Parts, flow.Direct x (Flow.entryJobs x f.entry) ∧
        f.body.visits [] = flow.visits [] f.entry.node.id := by
  have key : (Index.build .builtin nestNodes nestConnections).toOption.any (fun x =>
      (functions x "demo").toOption.any fun fs =>
        fs.any (fun f => f.nodes == ["loop", "fork", "inside", "pick", "after", "second"]) &&
        nestConnections.all fun c => (x.node? c.source.node).all fun n =>
          (Recipe.casesOf n.node.data).toOption.any fun cases =>
          x.portName c.source == "case0" && 0 < cases.length ||
            !("case".toList.isPrefixOf (x.portName c.source).toList)) = true := by
    rw [Index.build, Index.addNode_builtin]
    decide +kernel
  obtain ⟨x, fs, hx, hfs, htext, key⟩ := exists_of_run (List.cons_ne_nil _ _) key "\t"
  simp only [Bool.and_eq_true, List.any_eq_true, beq_iff_eq, List.all_eq_true] at key
  obtain ⟨⟨f, hm, hnodes⟩, hcases⟩ := key
  have hf : ∀ node ∈ nestNodes, Catalog.builtin.Furnishes node :=
    Catalog.furnishes_of_isEmpty (by decide)
  have hl : x.CasesListed nestConnections := by
    intro c hc n hn i hi
    have hcase := hcases c hc
    rw [hn, Option.all_some] at hcase
    obtain ⟨cases, hcases, hcase⟩ := exists_ok_of_any hcase
    simp only [Bool.or_eq_true, Bool.and_eq_true, beq_iff_eq, decide_eq_true_eq,
      Bool.not_eq_true'] at hcase
    refine ⟨cases, hcases, ?_⟩
    rcases hcase with ⟨hname, hlt⟩ | hname
    · obtain rfl : i = 0 := toString_inj (String.toList_inj.mp
        (by simpa using congrArg String.toList (hi.symm.trans hname)))
      exact hlt
    · simp [hi] at hname
  obtain ⟨fs', hfs', -, -, -, -, hall⟩ := walk_refines_recursion hx hf hl htext
  cases hfs.symm.trans hfs'
  obtain ⟨flow, hdirect, hvisits⟩ := hall f hm
  exact ⟨x, _, fs, f, hx, hf, hl, htext, hfs, hm, hnodes, flow, (hdirect flow).mpr rfl, hvisits⟩

end Script

end VisualScript
