import VisualScript.Catalog.Builtin
import VisualScript.Proofs.Index
import VisualScript.Script.Evaluation
import Mathlib.Data.List.Perm.Basic

/-!
# Proofs — Ports

Ports and the templates they are paired with.  No slot goes to two ports and a slot has the kind of
its port, so in a graph over the built-in catalog the name of a paired output leads back to that
output (`Index.output?_portName`).
-/

namespace VisualScript

namespace Matching

theorem takeFirst_perm {α : Type} {p : α → Bool} :
    ∀ {xs : List α} {y : α} {ys : List α}, takeFirst p xs = some (y, ys) →
      (y :: ys).Perm xs ∧ p y = true
  | [], _, _, h => by cases h
  | a :: xs, y, ys, h => by
    rw [takeFirst] at h
    split at h
    · rename_i hp
      cases h
      exact ⟨.refl _, hp⟩
    · obtain ⟨⟨b, bs⟩, hb, he⟩ := Option.map_eq_some_iff.mp h
      cases he
      obtain ⟨hperm, hp⟩ := takeFirst_perm hb
      exact ⟨(List.Perm.swap _ _ _).trans (hperm.cons a), hp⟩

/-- A port and the slot it is given agree in their kind. -/
def Fits (port : Port) (slot : Option Slot) : Prop := ∀ s ∈ slot, s.1.kind = port.kind

theorem byLabel_perm : ∀ (ports : List Port) (free : List Slot),
    List.Forall₂ Fits ports (byLabel ports free).1 ∧
      ((byLabel ports free).1.filterMap id ++ (byLabel ports free).2).Perm free
  | [], free => ⟨.nil, .refl _⟩
  | port :: ports, free => by
    rw [byLabel]
    split
    · rename_i s left hs
      obtain ⟨hperm, hp⟩ := takeFirst_perm hs
      obtain ⟨hfit, ih⟩ := byLabel_perm ports left
      refine ⟨.cons (fun t ht => ?_) hfit, (ih.cons s).trans hperm⟩
      cases ht
      simp only [Bool.and_eq_true, beq_iff_eq] at hp
      exact hp.1
    · obtain ⟨hfit, ih⟩ := byLabel_perm ports free
      exact ⟨.cons (fun _ ht => by cases ht) hfit, ih⟩

theorem byOrder_perm : ∀ (ports : List (Port × Option Slot)) (free : List Slot),
    (∀ q ∈ ports, Fits q.1 q.2) →
      List.Forall₂ (fun q => Fits q.1) ports (byOrder ports free) ∧
        ∃ left, ((byOrder ports free).filterMap id ++ left).Perm
          (ports.filterMap Prod.snd ++ free)
  | [], free, _ => ⟨.nil, free, .refl _⟩
  | (port, some s) :: ports, free, h => by
    obtain ⟨hfit, left, ih⟩ := byOrder_perm ports free fun q hq => h q (.tail _ hq)
    exact ⟨.cons (h _ (.head _)) hfit, left, ih.cons s⟩
  | (port, none) :: ports, free, h => by
    rw [byOrder]
    split
    · rename_i s rest hs
      obtain ⟨hperm, hp⟩ := takeFirst_perm hs
      obtain ⟨hfit, left, ih⟩ := byOrder_perm ports rest fun q hq => h q (.tail _ hq)
      refine ⟨.cons (fun t ht => ?_) hfit, left, ?_⟩
      · cases ht
        simpa using hp
      · exact (ih.cons s).trans (List.perm_middle.symm.trans (hperm.append_left _))
    · obtain ⟨hfit, left, ih⟩ := byOrder_perm ports free fun q hq => h q (.tail _ hq)
      exact ⟨.cons (fun _ ht => by cases ht) hfit, left, ih⟩

/-- Every slot goes to one port at most, and to one of its kind. -/
theorem slots_spec (ports : List Port) (ts : List PortTemplate) :
    List.Forall₂ Fits ports (slots ports ts) ∧
      ∃ left, ((slots ports ts).filterMap id ++ left).Perm ts.zipIdx := by
  obtain ⟨hfit, hperm⟩ := byLabel_perm ports ts.zipIdx
  have hlen := hfit.length_eq
  obtain ⟨hfit', left, hperm'⟩ := byOrder_perm (ports.zip (byLabel ports ts.zipIdx).1)
    (byLabel ports ts.zipIdx).2 (fun q hq => List.forall₂_zip hfit hq)
  have hports : (ports.zip (byLabel ports ts.zipIdx).1).map Prod.fst = ports :=
    List.map_fst_zip (Nat.le_of_eq hlen)
  have hslots : (ports.zip (byLabel ports ts.zipIdx).1).map Prod.snd =
      (byLabel ports ts.zipIdx).1 := List.map_snd_zip (Nat.le_of_eq hlen.symm)
  refine ⟨?_, left, hperm'.trans ?_⟩
  · have := List.forall₂_map_left_iff.mpr hfit'
    rwa [hports] at this
  · rw [← Function.id_comp Prod.snd, ← List.filterMap_map, hslots]
    exact hperm

/-! ### Enough slots -/

theorem takeFirst_isSome {α : Type} {p : α → Bool} : ∀ {xs : List α}, 0 < xs.countP p →
    ∃ y ys, takeFirst p xs = some (y, ys)
  | x :: xs, h => by
    rw [takeFirst]
    split
    · exact ⟨x, xs, rfl⟩
    · rename_i hx
      rw [List.countP_cons_of_neg hx] at h
      obtain ⟨y, ys, he⟩ := takeFirst_isSome h
      exact ⟨y, x :: ys, by rw [he]; rfl⟩

/-- Pairing by label takes as many slots of a kind as it serves ports of the kind. -/
theorem byLabel_count (k : PortKind) : ∀ (ports : List Port) (free : List Slot),
    ports.countP (·.kind = k) + (byLabel ports free).2.countP (·.1.kind = k) =
      free.countP (·.1.kind = k) +
        (ports.zip (byLabel ports free).1).countP fun q => q.1.kind = k ∧ q.2 = none
  | [], free => by simp [byLabel]
  | port :: ports, free => by
    rw [byLabel]
    split
    · rename_i s left hs
      obtain ⟨hperm, hp⟩ := takeFirst_perm hs
      have hkind : s.1.kind = port.kind := by simp_all
      have ih := byLabel_count k ports left
      rw [← hperm.countP_eq]
      simp only [List.countP_cons, List.zip_cons_cons, hkind] at ih ⊢
      simp only [reduceCtorEq, and_false, decide_false, Bool.false_eq_true, if_false]
      omega
    · have ih := byLabel_count k ports free
      simp only [List.countP_cons, List.zip_cons_cons, and_true] at ih ⊢
      omega

theorem byOrder_complete : ∀ (ports : List (Port × Option Slot)) (free : List Slot),
    (∀ k, (ports.countP fun q => q.1.kind = k ∧ q.2 = none) ≤ free.countP (·.1.kind = k)) →
      ∀ s ∈ byOrder ports free, s.isSome
  | [], _, _, _, hs => by cases hs
  | (port, some s) :: ports, free, h, a, ha => by
    rcases List.mem_cons.mp ha with rfl | ha
    · rfl
    · exact byOrder_complete ports free (by simpa using h) a ha
  | (port, none) :: ports, free, h, a, ha => by
    have hpos : 0 < free.countP fun s => s.1.kind == port.kind := by
      have := h port.kind
      rw [List.countP_cons_of_pos (by simp)] at this
      refine Nat.lt_of_lt_of_le (Nat.succ_pos _) (Nat.le_trans this (Nat.le_of_eq ?_))
      congr 1
    obtain ⟨s, left, hs⟩ := takeFirst_isSome hpos
    rw [byOrder, hs] at ha
    rcases List.mem_cons.mp ha with rfl | ha
    · rfl
    · obtain ⟨hperm, hp⟩ := takeFirst_perm hs
      have hkind : s.1.kind = port.kind := by simpa using hp
      refine byOrder_complete ports left (fun k => ?_) a ha
      have := h k
      rw [← hperm.countP_eq] at this
      simp only [List.countP_cons, hkind, and_true] at this
      omega

/-- Where there are as many slots of each kind as ports, every port has one. -/
theorem slots_complete {ports : List Port} {ts : List PortTemplate}
    (h : ports.map (·.kind) = ts.map (·.kind)) : ∀ s ∈ slots ports ts, s.isSome := by
  refine byOrder_complete _ _ fun k => ?_
  have hports : ports.countP (·.kind = k) =
      ts.zipIdx.countP fun s : Slot => s.1.kind = k := by
    calc ports.countP (·.kind = k) = (ports.map (·.kind)).countP (· = k) := by
          rw [List.countP_map]; rfl
      _ = (ts.zipIdx.map (·.1.kind)).countP (· = k) := by
          rw [h]
          conv_lhs => rw [← List.zipIdx_map_fst 0 ts, List.map_map]
          rfl
      _ = ts.zipIdx.countP fun s : Slot => s.1.kind = k := by rw [List.countP_map]; rfl
  have hcount := byLabel_count k ports ts.zipIdx
  omega

end Matching

namespace PlacedNode

variable {isInput : Bool} {ports : List Port} {ts : List PortTemplate} {s : Socket}
  {t : PortTemplate}

theorem template_kind (hs : s ∈ socketsOf isInput ports ts) (ht : s.template = some t) :
    t.kind = s.port.kind ∧ t ∈ ts := by
  obtain ⟨hfit, left, hperm⟩ := Matching.slots_spec ports ts
  obtain ⟨⟨p, u⟩, hm, rfl⟩ := List.mem_map.mp hs
  simp only [Matching.templates, List.zip_map_right] at hm
  obtain ⟨⟨p', slot⟩, hzip, he⟩ := List.mem_map.mp hm
  cases he
  obtain ⟨sl, hsl, rfl⟩ := Option.map_eq_some_iff.mp (show slot.map Prod.fst = some t from ht)
  refine ⟨List.forall₂_zip hfit hzip sl hsl, ?_⟩
  have hmem : sl ∈ ts.zipIdx := hperm.subset (List.mem_append_left _
    (List.mem_filterMap.mpr ⟨slot, (List.of_mem_zip hzip).2, hsl⟩))
  exact (List.mem_zipIdx' hmem).2 ▸ List.getElem_mem _

theorem nodup_names (h : (ts.map (·.name)).Nodup) :
    ((socketsOf isInput ports ts).filterMap fun s => s.template.map (·.name)).Nodup := by
  obtain ⟨hfit, left, hperm⟩ := Matching.slots_spec ports ts
  have hnames : (socketsOf isInput ports ts).filterMap (fun s => s.template.map (·.name)) =
      ((Matching.slots ports ts).filterMap id).map (·.1.name) := by
    have hsnd : (ports.zip (Matching.templates ports ts)).map Prod.snd =
        Matching.templates ports ts :=
      List.map_snd_zip (by simp [Matching.templates, hfit.length_eq])
    calc (socketsOf isInput ports ts).filterMap (fun s => s.template.map (·.name))
        = ((ports.zip (Matching.templates ports ts)).map Prod.snd).filterMap
            (Option.map (·.name)) := by
          simp only [socketsOf, List.filterMap_map]; rfl
      _ = ((Matching.slots ports ts).filterMap id).map (·.1.name) := by
          rw [hsnd, Matching.templates, List.filterMap_map, List.map_filterMap]
          congr 1
          funext s
          cases s <;> rfl
  have hnodup : ((ts.zipIdx).map (·.1.name)).Nodup := by
    have : (ts.zipIdx).map (·.1.name) = ts.map (·.name) := by
      conv_rhs => rw [← List.zipIdx_map_fst 0 ts, List.map_map]
      rfl
    rwa [this]
  rw [hnames]
  exact ((hperm.map _).nodup_iff.mpr hnodup).sublist
    ((List.sublist_append_left _ left).map _)

/-- Where there are as many templates of each kind as ports, every port is paired. -/
theorem paired_of_kinds (h : ports.map (·.kind) = ts.map (·.kind))
    (hs : s ∈ socketsOf isInput ports ts) : s.template.isSome := by
  obtain ⟨⟨p, u⟩, hm, rfl⟩ := List.mem_map.mp hs
  obtain ⟨slot, hslot, he⟩ := List.mem_map.mp (List.of_mem_zip hm).2
  dsimp only
  rw [← he, Option.isSome_map]
  exact Matching.slots_complete h slot hslot

/-- Where there are as many templates of each kind as ports, every template is paired. -/
theorem exists_of_template (h : ports.map (·.kind) = ts.map (·.kind)) (ht : t ∈ ts) :
    ∃ s ∈ socketsOf isInput ports ts, s.template = some t := by
  obtain ⟨hfit, left, hperm⟩ := Matching.slots_spec ports ts
  have hall := Matching.slots_complete h
  have hlength : ((Matching.slots ports ts).filterMap id).length = ts.length := by
    have hsome : (Matching.slots ports ts).countP (·.isSome) = (Matching.slots ports ts).length :=
      List.countP_eq_length.mpr hall
    have hports : ports.length = ts.length := by simpa using congrArg List.length h
    rw [List.length_filterMap_eq_countP]
    simpa [hfit.length_eq.symm, hports] using hsome
  have hleft : left = [] := by
    have := hperm.length_eq
    simp only [List.length_append, hlength, List.length_zipIdx] at this
    exact List.length_eq_zero_iff.mp (by omega)
  obtain ⟨i, hi⟩ : ∃ i, (t, i) ∈ ts.zipIdx := by
    obtain ⟨i, hi, rfl⟩ := List.mem_iff_getElem.mp ht
    exact ⟨i, List.mem_zipIdx_iff_getElem?.mpr (by simp [hi])⟩
  rw [hleft, List.append_nil] at hperm
  obtain ⟨slot, hslot, he⟩ := List.mem_filterMap.mp (hperm.mem_iff.mpr hi)
  have htemplate : some t ∈ Matching.templates ports ts :=
    List.mem_map.mpr ⟨slot, hslot, by rw [show slot = some (t, i) from he]; rfl⟩
  have hsnd : (ports.zip (Matching.templates ports ts)).map Prod.snd = Matching.templates ports ts :=
    List.map_snd_zip (by simp [Matching.templates, hfit.length_eq])
  rw [← hsnd] at htemplate
  obtain ⟨⟨p, u⟩, hm, rfl⟩ := List.mem_map.mp htemplate
  exact ⟨_, List.mem_map.mpr ⟨_, hm, rfl⟩, rfl⟩

/-- Pairing keeps the ports of a side, in their order. -/
theorem ports_socketsOf (isInput : Bool) (ports : List Port) (ts : List PortTemplate) :
    (socketsOf isInput ports ts).map (·.port) = ports.map fun p => { p with isInput := isInput } := by
  have hlen : ports.length ≤ (Matching.templates ports ts).length := by
    simp [Matching.templates, (Matching.slots_spec ports ts).1.length_eq]
  conv_rhs => rw [← List.map_fst_zip hlen, List.map_map]
  rw [socketsOf, List.map_map]
  rfl

theorem kinds_socketsOf (isInput : Bool) (ports : List Port) (ts : List PortTemplate) :
    (socketsOf isInput ports ts).map (·.port.kind) = ports.map (·.kind) := by
  have := congrArg (List.map Port.kind) (ports_socketsOf isInput ports ts)
  simpa only [List.map_map, Function.comp_def] using this

/-- The name of a paired port leads back to it. -/
theorem named?_of_mem {sockets : List Socket}
    (hn : (sockets.filterMap fun s => s.template.map (·.name)).Nodup) (hs : s ∈ sockets)
    (ht : s.template = some t) : named? t.name sockets = some s.port := by
  unfold named?
  cases hf : sockets.reverse.find? fun s => s.template.any (·.name == t.name) with
  | none =>
    have := List.find?_eq_none.mp hf s (List.mem_reverse.mpr hs)
    simp [ht] at this
  | some s' =>
    have hname : s'.template.map (·.name) = some t.name := by
      have := List.find?_some hf
      cases ht' : s'.template with
      | none => simp [ht'] at this
      | some t' => simpa [ht'] using this
    have hmem := List.mem_reverse.mp (List.mem_of_find?_eq_some hf)
    rw [Option.map_some, eq_of_nodup_filterMap hn hmem hs hname (by simp [ht])]

/-- What `named?` finds is paired with a template of the name. -/
theorem of_named? {sockets : List Socket} {name : String} {p : Port}
    (h : named? name sockets = some p) :
    ∃ s ∈ sockets, s.port = p ∧ ∃ t, s.template = some t ∧ t.name = name := by
  obtain ⟨s, hf, rfl⟩ := Option.map_eq_some_iff.mp h
  refine ⟨s, List.mem_reverse.mp (List.mem_of_find?_eq_some hf), rfl, ?_⟩
  have := List.find?_some hf
  cases ht : s.template with
  | none => simp [ht] at this
  | some t => exact ⟨t, rfl, by simpa [ht] using this⟩

theorem isInput_of_mem (hs : s ∈ socketsOf isInput ports ts) : s.port.isInput = isInput := by
  obtain ⟨⟨p, u⟩, -, rfl⟩ := List.mem_map.mp hs
  rfl

end PlacedNode

/-- Whether nodes of the type have exec ports in the catalog. -/
def Definition.hasExec (d : Definition) : Bool := (d.inputs ++ d.outputs).any (·.kind == .exec)

/-- The node carries the ports that the catalog gives a new node of its type. -/
def Catalog.Furnishes (c : Catalog) (node : Node) : Prop :=
  ∀ d, c.find? node.nodeType = some d →
    PlacedNode.effectivePorts node d = (inputPorts d, outputPorts d)

/-- A node that was saved without ports gets those of its definition. -/
theorem Catalog.furnishes_of_isEmpty {c : Catalog} {nodes : List Node}
    (h : (nodes.all fun node => node.inputs.isEmpty && node.outputs.isEmpty) = true) :
    ∀ node ∈ nodes, c.Furnishes node :=
  fun node hm _ _ => if_pos (List.all_eq_true.mp h node hm)

theorem Catalog.kinds_portsOf (stem : String) (isInput : Bool) (ts : List PortTemplate) :
    (portsOf stem isInput ts).map (·.kind) = ts.map (·.kind) := by
  conv_rhs => rw [← List.zipIdx_map_fst 0 ts, List.map_map]
  rw [portsOf, List.map_map]
  rfl

namespace Index

/-- The port is paired with a template. -/
def Matched (x : Index) (e : Endpoint) : Prop := ∃ s, x.socket? e = some s ∧ s.template.isSome

theorem mem_placed {x : Index} {id : String} {n : PlacedNode} (h : x.node? id = some n) :
    (id, n) ∈ x.placed := Assoc.mem_of_lookup h

theorem hasExec_eq {x : Index} {id : String} {n : PlacedNode} (h : x.node? id = some n) :
    x.hasExec id = n.hasExec := by simp [hasExec, h]

theorem mem_of_socket? {x : Index} {e : Endpoint} {s : Socket} (h : x.socket? e = some s) :
    ∃ n, x.node? e.node = some n ∧ s ∈ n.sockets ∧ s.port.id = e.port := by
  obtain ⟨n, hn, hs⟩ := Option.bind_eq_some_iff.mp h
  exact ⟨n, hn, List.mem_of_find?_eq_some hs, by simpa using List.find?_some hs⟩

namespace Built

variable {catalog : Catalog} {nodes : List Node} {connections : List Connection} {x : Index}
  {id : String} {n : PlacedNode} {e : Endpoint} {s : Socket}
  (h : Built catalog nodes connections x)

include h

theorem node_id (hn : x.node? id = some n) :
    n.node.id = id := h.keyed (mem_placed hn)

theorem node?_of_mem (hm : (id, n) ∈ x.placed) :
    x.node? id = some n := Assoc.lookup_of_mem h.toPlaced.distinct hm

theorem mem_definitions (hn : x.node? id = some n) :
    n.definition ∈ catalog.definitions ∧ n.definition.nodeType = n.node.nodeType := by
  have hd := h.known (mem_placed hn)
  exact ⟨List.mem_of_find?_eq_some hd, by simpa using List.find?_some hd⟩

theorem outputs_eq (hn : x.node? id = some n) :
    n.outputs = PlacedNode.socketsOf false (PlacedNode.effectivePorts n.node n.definition).2
      n.definition.outputs := by
  conv_lhs => rw [h.made (mem_placed hn)]
  rfl

theorem inputs_eq (hn : x.node? id = some n) :
    n.inputs = PlacedNode.socketsOf true (PlacedNode.effectivePorts n.node n.definition).1
      n.definition.inputs := by
  conv_lhs => rw [h.made (mem_placed hn)]
  rfl

/-- A port is found under its id. -/
theorem socket?_of_mem (hn : x.node? id = some n) (hs : s ∈ n.sockets) :
    x.socket? ⟨id, s.port.id⟩ = some s := by
  rw [socket?, hn, Option.bind_some, PlacedNode.socket?]
  have hports := h.ports (mem_placed hn)
  cases hf : n.sockets.find? (·.port.id == s.port.id) with
  | none =>
    have := List.find?_eq_none.mp hf s hs
    simp at this
  | some s' =>
    have hid : s'.port.id = s.port.id := by simpa using List.find?_some hf
    rw [List.inj_on_of_nodup_map hports (List.mem_of_find?_eq_some hf) hs hid]

/-- An output port is on the side of the outputs. -/
theorem mem_outputs (hn : x.node? id = some n) (hs : s ∈ n.sockets) (ho : s.port.isInput = false) :
    s ∈ n.outputs := by
  rcases List.mem_append.mp hs with hs | hs
  · rw [h.inputs_eq hn] at hs
    rw [PlacedNode.isInput_of_mem hs] at ho
    cases ho
  · exact hs

/-- A connection is in the list of the port it ends at. -/
theorem mem_of_incoming? {c : Connection} (hc : x.incoming? e = some c) :
    c ∈ connections ∧ c.target = e := by
  have hm := Assoc.mem_of_lookup hc
  rw [h.incoming] at hm
  obtain ⟨c', hc', he⟩ := List.mem_map.mp hm
  cases he
  exact ⟨hc', rfl⟩

/-- What feeds an input is an output port. -/
theorem source_socket {t : PortTemplate} (hsrc : Evaluation.source? x n t = some e) :
    ∃ s, x.socket? e = some s ∧ s.port.isInput = false := by
  unfold Evaluation.source? at hsrc
  obtain ⟨p, -, hsrc⟩ := Option.bind_eq_some_iff.mp hsrc
  obtain ⟨c, hc, hsrc⟩ := Option.bind_eq_some_iff.mp hsrc
  cases hsrc
  obtain ⟨s, t, hs, -, ho, -⟩ := h.ends c (h.mem_of_incoming? hc).1
  exact ⟨s, hs, ho⟩

/-- Control passes only to nodes with an exec port. -/
theorem hasExec_of_mem_targets (hn : x.node? id = some n) (hs : s ∈ n.outputs)
    (hk : s.port.kind = .exec) {a : String} (ha : a ∈ x.targets ⟨id, s.port.id⟩) :
    x.hasExec a = true := by
  obtain ⟨c, hc, rfl⟩ := List.mem_map.mp ha
  obtain ⟨hc, hsrc⟩ := h.mem_outgoingOf.mp hc
  obtain ⟨s', t, hs', ht, -, -, hkind⟩ := h.ends c hc
  rw [hsrc, h.socket?_of_mem hn (List.mem_append_right _ hs)] at hs'
  cases hs'
  obtain ⟨m, hm, hmem, -⟩ := mem_of_socket? ht
  rw [hasExec_eq hm, PlacedNode.hasExec, List.any_eq_true]
  exact ⟨t, hmem, by simp [← hkind, hk]⟩

/-- The name of a paired output port leads back to the port. -/
theorem output?_portName (hnames : (n.definition.outputs.map (·.name)).Nodup)
    (hn : x.node? e.node = some n) (hs : x.socket? e = some s) (ho : s.port.isInput = false)
    (ht : s.template.isSome) : ∃ p, n.output? (x.portName e) = some p ∧ p.id = e.port := by
  obtain ⟨t, ht⟩ := Option.isSome_iff_exists.mp ht
  obtain ⟨n', hn', hmem, hid⟩ := mem_of_socket? hs
  obtain rfl : n = n' := Option.some.inj (hn.symm.trans hn')
  have hname : x.portName e = t.name := by simp [portName, hs, Socket.name, ht]
  have hout := h.mem_outputs hn hmem ho
  rw [h.outputs_eq hn] at hout
  refine ⟨s.port, ?_, hid⟩
  rw [hname, PlacedNode.output?, h.outputs_eq hn]
  exact PlacedNode.named?_of_mem (PlacedNode.nodup_names hnames) hout ht

/-- A port that is found by a name has that name. -/
theorem portName_output? (hn : x.node? id = some n) {name : String} {p : Port}
    (hp : n.output? name = some p) : x.portName ⟨id, p.id⟩ = name := by
  obtain ⟨s, hs, rfl, t, ht, rfl⟩ := PlacedNode.of_named? hp
  simp [portName, h.socket?_of_mem hn (List.mem_append_right _ hs), Socket.name, ht]

/-! ### Ports of the catalog -/

/-- A node that the catalog has furnished has the sockets of its definition. -/
theorem furnished (hf : ∀ node ∈ nodes, catalog.Furnishes node) (hn : x.node? id = some n) :
    n.inputs = PlacedNode.socketsOf true (Catalog.inputPorts n.definition) n.definition.inputs ∧
      n.outputs =
        PlacedNode.socketsOf false (Catalog.outputPorts n.definition) n.definition.outputs := by
  have hmem : n.node ∈ nodes := by
    rw [← h.nodes]
    exact List.mem_map.mpr ⟨_, mem_placed hn, rfl⟩
  have hports := hf n.node hmem n.definition (h.known (mem_placed hn))
  rw [h.inputs_eq hn, h.outputs_eq hn, hports]
  exact ⟨rfl, rfl⟩

theorem paired (hf : ∀ node ∈ nodes, catalog.Furnishes node) (hn : x.node? id = some n)
    (hs : s ∈ n.sockets) : s.template.isSome := by
  obtain ⟨hi, ho⟩ := h.furnished hf hn
  rcases List.mem_append.mp hs with hs | hs
  · rw [hi] at hs
    exact PlacedNode.paired_of_kinds (Catalog.kinds_portsOf _ _ _) hs
  · rw [ho] at hs
    exact PlacedNode.paired_of_kinds (Catalog.kinds_portsOf _ _ _) hs

theorem hasExec_definition (hf : ∀ node ∈ nodes, catalog.Furnishes node)
    (hn : x.node? id = some n) : n.hasExec = n.definition.hasExec := by
  obtain ⟨hi, ho⟩ := h.furnished hf hn
  have hkinds : n.sockets.map (·.port.kind) =
      (n.definition.inputs ++ n.definition.outputs).map (·.kind) := by
    simp only [PlacedNode.sockets, hi, ho, List.map_append, PlacedNode.kinds_socketsOf,
      Catalog.inputPorts, Catalog.outputPorts, Catalog.kinds_portsOf]
  have hany := congrArg (List.any · (· == PortKind.exec)) hkinds
  simp only [List.any_map] at hany
  exact hany

end Built

end Index

end VisualScript
