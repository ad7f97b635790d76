import VisualScript.Proofs.Passes
import VisualScript.Proofs.Unrolling
import VisualScript.Proofs.WellFormed

/-!
# Proofs — Following

Which exec connections the script of a graph follows.  An entry goes on with all of its exec outputs.
Any other node goes on with the outputs its recipe names: those that are paired with a template, of
the cases of a switch only those the payload has a value for (`Index.Followed`).  What such a
connection leads to is in the function of its entry, or in that of an earlier one
(`Script.followed_connections`); it is in the earlier one if that got there first.
-/

namespace VisualScript

variable {x : Index}

/-! ### Which outputs a recipe goes on with -/

/-- A case has an output if all cases up to it have one, and code if the payload has a value for it. -/
def PlacedNode.HasCase (n : PlacedNode) (i : Nat) : Prop :=
  (∃ cases, Recipe.casesOf n.node.data = .ok cases ∧ i < cases.length) ∧
    ∀ j ≤ i, (n.output? ("case" ++ toString j)).isSome

namespace Recipe

/-- The exec outputs that a node of the recipe goes on with, as far as their names tell. -/
def leads : Recipe → String → Bool
  | switch _, port => port ∈ ["case0", "case1", "case2", "default", "completed"]
  | r,        port => r.follows port

theorem mem_caseItems (type : ValueType) {n : PlacedNode} :
    ∀ {cases : List Json} {i k : Nat}, k < cases.length →
      (∀ j ≤ k, (n.output? ("case" ++ toString (i + j))).isSome) →
      .block ("case" ++ toString (i + k)) [] ["break"] ∈ caseItems type n i cases
  | v :: cases, i, k, hk, hout => by
    rw [caseItems, if_pos (by simpa using hout 0 (Nat.zero_le k))]
    cases k with
    | zero => exact .tail _ (.head _)
    | succ k =>
      have := mem_caseItems type (i := i + 1) (k := k) (Nat.lt_of_succ_lt_succ hk)
        fun j hj => by
          rw [Nat.add_assoc, Nat.add_comm 1 j]
          exact hout (j + 1) (by omega)
      rw [Nat.add_assoc, Nat.add_comm 1 k] at this
      exact .tail _ (.tail _ this)

/-- What a recipe goes on with is named by its items, unless nothing is connected to it. -/
theorem mem_ports {n : PlacedNode} {r : Recipe} {s : Socket} {t : PortTemplate}
    (hs : s ∈ n.outputs) (hk : s.port.kind = .exec) (ht : s.template = some t)
    (hleads : r.leads t.name = true) (hcase : ∀ i, t.name = "case" ++ toString i → n.HasCase i)
    (hne : Flow.targets x n t.name ≠ []) :
    t.name ∈ (r.outline x n).items.filterMap Item.port? := by
  have hconnected : isConnected x n t.name = true := by
    by_contra h
    exact hne (Flow.targets_of_not_connected (by simpa using h))
  cases r with
  | sequence =>
    have hname : s.name = t.name := by simp [Socket.name, ht]
    refine List.mem_filterMap.mpr ⟨.follow s.name, List.mem_map.mpr ⟨s, ?_, rfl⟩, ?_⟩
    · simp [hs, hk]
    · rw [Item.port?, hname]
  | switch type =>
    obtain ⟨cases, hitems, hlt⟩ : ∃ cases, (outline x n (.switch type)).items =
        switchItems type x n cases ∧ (∀ i, t.name = "case" ++ toString i → i < cases.length) := by
      simp only [outline]
      split
      · rename_i cases hcases
        refine ⟨cases, rfl, fun i hi => ?_⟩
        obtain ⟨⟨cases', hcases', hlt⟩, -⟩ := hcase i hi
        cases hcases.symm.trans hcases'
        exact hlt
      · rename_i f hf
        refine ⟨[], rfl, fun i hi => ?_⟩
        obtain ⟨⟨cases', hcases', -⟩, -⟩ := hcase i hi
        cases hf.symm.trans hcases'
    have hcases : ∀ i : Nat, t.name = "case" ++ toString i →
        t.name ∈ (switchItems type x n cases).filterMap Item.port? := by
      intro i hi
      have hblock := mem_caseItems type (n := n) (i := 0) (hlt i hi)
        fun j hj => by simpa using (hcase i hi).2 j hj
      rw [Nat.zero_add, ← hi] at hblock
      exact List.mem_filterMap.mpr ⟨.block t.name [] ["break"], by simp [switchItems, hblock], rfl⟩
    rw [hitems]
    simp only [leads, List.mem_cons, List.not_mem_nil, or_false, decide_eq_true_eq] at hleads
    rcases hleads with h | h | h | h | h
    · exact hcases 0 h
    · exact hcases 1 h
    · exact hcases 2 h
    · rw [h] at hconnected ⊢
      exact List.mem_filterMap.mpr
        ⟨.block "default" [] ["break"], by simp [switchItems, hconnected], rfl⟩
    · exact List.mem_filterMap.mpr ⟨.follow "completed", by simp [switchItems], by simp [h, Item.port?]⟩
  | branch =>
    simp only [leads, follows, Bool.or_eq_true, beq_iff_eq] at hleads
    rcases hleads with h | h
    · simp [outline, Item.port?, ← h]
    · rw [← h] at hconnected
      simp [outline, Item.port?, ← h, hconnected]
  | thread | loopFor | loopEach | loopWhile =>
    simp only [leads, follows, Bool.or_eq_true, beq_iff_eq] at hleads
    rcases hleads with h | h <;> simp [outline, Item.port?, ← h]
  | statement | bound | append | registerWeapon =>
    simp only [leads, follows, beq_iff_eq] at hleads
    simp [outline, weaponFields, Item.port?, ← hleads]
  | expression | constant | stop | reroute => cases hleads

end Recipe

namespace Catalog

/-- What following exec connections relies on in a definition: its outputs have names, and the exec
outputs have names that the recipe of the type goes on with. -/
@[mk_iff]
structure Leading (d : Definition) : Prop where
  named  : ∀ t ∈ d.outputs, t.name ≠ ""
  recipe : ∀ r ∈ Recipe.ofType? d.nodeType, ∀ t ∈ d.outputs, t.kind = .exec →
    r.leads t.name = true

instance (d : Definition) : Decidable (Leading d) :=
  decidable_of_iff _ (leading_iff d).symm

theorem builtin_leading : ∀ d ∈ builtin.definitions, Leading d := by decide +kernel

end Catalog

/-! ### Where a node goes on -/

namespace Flow

/-- The items of a node and its trailing output lead where all its items lead. -/
theorem splitTail_flatMap {n : PlacedNode} (h : targets x n "" = []) (items : List Item) :
    (Outline.splitTail items).1.flatMap (itemTargets x n) ++ tailTargets x n items =
      items.flatMap (itemTargets x n) := by
  unfold tailTargets Outline.splitTail
  split
  · rename_i port hl
    obtain ⟨front, rfl⟩ := List.getLast?_eq_some_iff.mp hl
    by_cases hp : port = ""
    · simp [hp, itemTargets, h]
    · simp [hp, itemTargets]
  · simp

variable {nodes : List Node} {connections : List Connection} {id : String} {n : PlacedNode}

theorem targets_unnamed (h : Index.Built .builtin nodes connections x)
    (hn : x.node? id = some n) : targets x n "" = [] := by
  unfold targets
  cases hp : n.output? "" with
  | none => rfl
  | some p =>
    obtain ⟨s, hs, -, t, ht, hname⟩ := PlacedNode.of_named? hp
    rw [h.outputs_eq hn] at hs
    exact absurd hname ((Catalog.builtin_leading _ (h.mem_definitions hn).1).named t
      (PlacedNode.template_kind hs ht).2)

/-- An inner node goes on with the targets of all its items. -/
theorem next_of_recipe (h : Index.Built .builtin nodes connections x) (hn : x.node? id = some n)
    (hi : n.definition.isEntry = false) {r : Recipe}
    (hr : Recipe.ofType? n.node.nodeType = some r) :
    next x id = (r.outline x n).items.flatMap (itemTargets x n) := by
  simp only [next, hn, hi, Bool.false_eq_true, if_false, hr]
  exact splitTail_flatMap (targets_unnamed h hn) _

end Flow

/-- The code of a node goes on with the exec output: always at an entry; at another node if the
output is paired with a template and is no case without a value. -/
def Index.Followed (x : Index) (e : Endpoint) : Prop :=
  ∃ n s, x.node? e.node = some n ∧ s ∈ n.outputs ∧ s.port.id = e.port ∧ s.port.kind = .exec ∧
    (n.definition.isEntry = true ∨
      ∃ t, s.template = some t ∧ ∀ i, t.name = "case" ++ toString i → n.HasCase i)

/-- The exec nodes whose code stands in the function, in order. -/
def EntryFunction.nodes (f : EntryFunction) : List String := (f.body.visits []).map Prod.snd

variable {nodes : List Node} {connections : List Connection}

/-- A node goes on with what is connected to a followed output. -/
theorem Index.Built.mem_next (h : Index.Built .builtin nodes connections x) {c : Connection}
    (hc : c ∈ connections) (hf : x.Followed c.source)
    (hr : ∀ n, x.node? c.source.node = some n → n.definition.isEntry = false →
      (Recipe.ofType? n.node.nodeType).isSome) :
    c.target.node ∈ Flow.next x c.source.node := by
  obtain ⟨n, s, hn, hs, hid, hk, hf⟩ := hf
  have hmem : c.target.node ∈ x.targets ⟨c.source.node, s.port.id⟩ := by
    rw [Index.targets, h.outgoing, hid]
    exact List.mem_map_of_mem (List.mem_filter.mpr ⟨hc, by simp⟩)
  by_cases he : n.definition.isEntry = true
  · simp only [Flow.next, hn, he, if_true, Index.successors, Index.outputs, Option.map_some,
      Option.getD_some]
    exact List.mem_flatMap.mpr ⟨s, List.mem_filter.mpr ⟨hs, by simp [hk]⟩, hmem⟩
  obtain ⟨t, ht, hcase⟩ := hf.resolve_left he
  have he : n.definition.isEntry = false := by simpa using he
  obtain ⟨r, hr⟩ := Option.isSome_iff_exists.mp (hr n hn he)
  obtain ⟨hd, htype⟩ := h.mem_definitions hn
  have hs' := hs
  rw [h.outputs_eq hn] at hs'
  obtain ⟨hkind, hts⟩ := PlacedNode.template_kind hs' ht
  have hleads := (Catalog.builtin_leading _ hd).recipe r (by rw [htype]; exact hr) t hts
    (hkind.trans hk)
  have htargets : Flow.targets x n t.name = x.targets ⟨c.source.node, s.port.id⟩ := by
    have hport : n.output? t.name = some s.port := by
      rw [PlacedNode.output?, h.outputs_eq hn]
      exact PlacedNode.named?_of_mem
        (PlacedNode.nodup_names (Catalog.builtin_sound _ hd).outputs) hs' ht
    rw [Flow.targets, hport, h.node_id hn]
  have hport := Recipe.mem_ports hs hk ht hleads hcase
    (List.ne_nil_of_mem (htargets.symm ▸ hmem))
  obtain ⟨item, hitem, hport⟩ := List.mem_filterMap.mp hport
  rw [Flow.next_of_recipe h hn he hr]
  refine List.mem_flatMap.mpr ⟨item, hitem, ?_⟩
  rw [Flow.itemTargets_eq, hport, Option.map_some, Option.getD_some, htargets]
  exact hmem

/-! ### Flows of functions -/

mutual

/-- The nodes of a chain are no entries; they have recipes. -/
theorem Unrolls.inner {id : String} : ∀ {work : List String} {p q : Progress} {c : Chain},
    Unrolls x work p c q → id ∈ c.nodes →
      ∃ n r, x.node? id = some n ∧ n.definition.isEntry = false ∧
        Recipe.ofType? n.node.nodeType = some r
  | _, _, _, _, .skip _ h, hid => h.inner hid
  | _, _, _, _, .step hf he hown hrest, hid => by
    simp only [Chain.nodes, List.mem_cons, List.mem_append] at hid
    rcases hid with rfl | hid | hid
    · obtain ⟨hn, -, hi, hr⟩ := Flow.enter_ok he
      exact ⟨_, _, hn, hi, hr⟩
    · exact hown.inner hid
    · exact hrest.inner hid

theorem Lays.inner {id : String} : ∀ {jobs : Flow.Jobs} {p q : Progress} {own : Parts},
    Lays x jobs p own q → id ∈ own.nodes →
      ∃ n r, x.node? id = some n ∧ n.definition.isEntry = false ∧
        Recipe.ofType? n.node.nodeType = some r
  | _, _, _, _, .job hl hb h, hid => by
    rw [Item.part_nodes fun hp => Unrolls.eq_done (hl hp ▸ hb)] at hid
    rcases List.mem_append.mp hid with hid | hid
    · exact hb.inner hid
    · exact h.inner hid

end

namespace Script

/-- Entries whose flows are still to be laid out. -/
structure Awaiting (x : Index) (ns : List PlacedNode) (p : Progress) : Prop where
  nodup   : (ns.map (·.node.id)).Nodup
  entries : ∀ n ∈ ns, x.node? n.node.id = some n ∧ n.definition.isEntry = true
  fresh   : ∀ n ∈ ns, n.node.id ∉ p.seen

/-- The flow of an entry leaves the entries after it untouched. -/
theorem Awaiting.entry {n : PlacedNode} {ns : List PlacedNode} {p : Progress}
    (h : Awaiting x (n :: ns) p) :
    Visited (n.node.id :: (Flow.entry x n p).1.nodes) p (Flow.entry x n p).2 ∧
      Awaiting x ns (Flow.entry x n p).2 := by
  obtain ⟨now, hlays, hp⟩ := Flow.lays_entry (x := x) n p
  have hv : Visited (n.node.id :: (Flow.entry x n p).1.nodes) p (Flow.entry x n p).2 :=
    hp ▸ ((Visited.start (h.fresh n (.head _))).trans hlays.visited).finish
  obtain ⟨hnot, hnodup⟩ := List.nodup_cons.mp h.nodup
  refine ⟨hv, hnodup, fun m hm => h.entries m (.tail _ hm), fun m hm hs => ?_⟩
  rcases (hv.seen _).mp hs with hs | hs
  · rcases List.mem_cons.mp hs with hs | hs
    · exact hnot (List.mem_map.mpr ⟨m, hm, hs⟩)
    · -- an entry stands in no chain
      obtain ⟨hn, he⟩ := h.entries m (.tail _ hm)
      obtain ⟨m', -, hm', hi, -⟩ := hlays.inner hs
      cases hn.symm.trans hm'
      simp [he] at hi
  · exact h.fresh m (.tail _ hm) hs

theorem awaiting_entries {catalog : Catalog} (hb : Index.Built catalog nodes connections x) :
    Awaiting x x.entries {} :=
  ⟨entries_nodup hb, fun _ hn => (mem_entries hb).mp hn, fun _ _ => by simp [Progress.seen]⟩

/-- The flow of an entry is laid out from the progress that the flows before it have made. -/
theorem flows_split : ∀ {ns : List PlacedNode} {p : Progress}
    {before after : List (PlacedNode × Parts)} {n : PlacedNode} {flow : Parts}, Awaiting x ns p →
    flows x ns p = before ++ (n, flow) :: after →
      ∃ q now, Visited (flowNodes before) p q ∧
        Lays x (Flow.entryJobs x n) (q.start n.node.id) flow now
  | [], _, before, _, _, _, _, h => by cases before <;> cases h
  | m :: ns, p, before, after, n, flow, hns, h => by
    change (m, (Flow.entry x m p).1) :: flows x ns (Flow.entry x m p).2 = _ at h
    cases before with
    | nil =>
      cases h
      obtain ⟨now, hlays, -⟩ := Flow.lays_entry (x := x) m p
      exact ⟨p, now, .nil p, hlays⟩
    | cons f before =>
      obtain ⟨hf, hrest⟩ := List.cons.inj h
      subst hf
      obtain ⟨hv, hns⟩ := hns.entry
      obtain ⟨q, now, hvisited, hlays⟩ := flows_split hns hrest
      exact ⟨q, now, hv.trans hvisited, hlays⟩

end Script

/-- A pass that comes to the end of a flow has met no node that control must not reach. -/
theorem Walk.whole (x : Index) (pass : Pass) :
    Walking x pass (fun c _ _ _ => c.Idle → c.Whole) fun _ _ own _ _ _ => own.Idle → own.Whole := by
  constructor
  case finish => exact fun _ => trivial
  case step => exact fun _ _ _ _ ihown ihrest hi => ⟨ihown hi.1, ihrest hi.2⟩
  case nil => exact fun _ => trivial
  case line => exact fun ih hi => ih hi
  case follow => exact fun _ ihbody ih hi => ⟨ihbody hi.1, ih hi.2⟩
  case block => exact fun _ _ ihbody ih hi => ⟨ihbody hi.1, ih hi.2⟩
  case named =>
    intro n filling port name body rest s e after s' _ ih hi
    rw [hi.1 rfl]
    exact ⟨trivial, ih hi.2.2⟩
  case thread => exact fun _ _ ihbody ih hi => ⟨ihbody hi.2.1, ih hi.2.2⟩

/-! ### Connections between functions -/

/-- Control passes along a connection that starts at an exec port. -/
theorem Index.Built.passes_of_mem {catalog : Catalog}
    (h : Index.Built catalog nodes connections x) {c : Connection} (hc : c ∈ connections)
    {s : Socket} (hs : x.socket? c.source = some s) (hk : s.port.kind = .exec) :
    x.Passes c.source.node c.target.node := by
  obtain ⟨n, hn, hmem, hid⟩ := Index.mem_of_socket? hs
  obtain ⟨s', t, hs', -, ho, -⟩ := h.ends c hc
  cases hs.symm.trans hs'
  refine List.mem_flatMap.mpr ⟨s, List.mem_filter.mpr ⟨?_, by simp [hk]⟩, ?_⟩
  · simpa [Index.outputs, hn] using h.mem_outputs hn hmem ho
  · rw [Index.targets, h.outgoing, hid]
    exact List.mem_map_of_mem (List.mem_filter.mpr ⟨hc, by simp⟩)

theorem Index.Built.passes_of_followed {catalog : Catalog}
    (h : Index.Built catalog nodes connections x) {c : Connection} (hc : c ∈ connections)
    (hf : x.Followed c.source) : x.Passes c.source.node c.target.node := by
  obtain ⟨n, s, hn, hs, hid, hk, -⟩ := hf
  have hsocket := h.socket?_of_mem hn (List.mem_append_right _ hs)
  rw [hid] at hsocket
  exact h.passes_of_mem hc hsocket hk

/-- Control passes to no entry. -/
theorem Index.inner_of_passes {catalog : Catalog}
    (hbuild : Index.build catalog nodes connections = .ok x) {a b : String} (h : x.Passes a b)
    {m : PlacedNode} (hm : x.node? b = some m) : m.definition.isEntry = false := by
  have hb := Index.built_of_build hbuild
  have hwell := Graph.wellFormed_of_build hbuild
  obtain ⟨c, hc, -, rfl, p, hp, hk⟩ := (Graph.passes_iff hb a b).mp h
  obtain ⟨p', q, hp', ⟨node, hnode, hid, hq, hqid⟩, hkind⟩ := hwell.ends c hc
  by_contra he
  have hsame : m.node = node := by
    obtain ⟨m', hm', rfl, -⟩ := Graph.node?_of_mem hb hnode
    rw [hid] at hm'
    cases hm.symm.trans hm'
    rfl
  have hentry : node.isEntry catalog = true := by
    rw [← hsame, Node.isEntry, hb.known (Index.mem_placed hm)]
    simpa using he
  refine hwell.entries node hnode hentry q hq ?_ c hc ?_
  · rw [← hkind, ← (Graph.HasPort.unique hwell.toNodesFine hp hp').2, hk]
  · rw [hid, hqid]

/-- A function is made of a flow: it has the code of its nodes, and none of them halts. -/
structure EntryFunction.Of (g : PlacedNode × Parts) (f : EntryFunction) : Prop where
  entry  : f.entry = g.1
  visits : f.body.visits [] = g.2.visits [] g.1.node.id
  whole  : g.2.Whole

theorem EntryFunction.Of.nodes_eq {g : PlacedNode × Parts} {f : EntryFunction} (h : f.Of g) :
    f.nodes = g.2.nodes := by
  rw [EntryFunction.nodes, h.visits, Parts.visits_map_snd]

namespace Script

variable {catalog : Catalog} {moduleId : String} {after before : List EntryFunction}
  {f : EntryFunction}

section

variable (hb : Index.Built catalog nodes connections x)

include hb

/-- The functions of a graph are made of its flows. -/
theorem functions_of_flows {fs : List EntryFunction} (h : functions x moduleId = .ok fs) :
    List.Forall₂ EntryFunction.Of (flows x x.entries {}) fs := by
  have hidle : ∀ g ∈ flows x x.entries {}, g.2.Idle := fun g hg => flows_idle hg
  have hall := mapM_ok h
  generalize flows x x.entries {} = gs at hidle hall
  clear h
  induction hall with
  | nil => exact .nil
  | cons hmake _ ih =>
    obtain ⟨first, recorded, last, hfirst, hlast, hentry, -⟩ := EntryFunction.make_ok hmake
    have hi := hidle _ (.head _)
    exact .cons ⟨hentry, EntryFunction.visits_of_walk hb hi hlast,
      (Walk.whole x .recording).parts _ hfirst hi⟩ (ih fun g hg => hidle g (.tail _ hg))

/-- Every function comes from a flow, and the functions before it from the flows before that. -/
theorem functions_split (h : functions x moduleId = .ok (before ++ f :: after)) :
    ∃ before' g after', flows x x.entries {} = before' ++ g :: after' ∧ f.Of g ∧
      List.Forall₂ EntryFunction.Of before' before := by
  have hall := functions_of_flows hb h
  have hbefore := List.forall₂_take_append _ _ _ hall
  obtain ⟨g, after', hg, -, hdrop⟩ :=
    List.forall₂_cons_right_iff.mp (List.forall₂_drop_append _ _ _ hall)
  exact ⟨_, g, after', by rw [← hdrop, List.take_append_drop], hg, hbefore⟩

/-- How the flow behind a function was laid out. -/
theorem lays_of_functions (h : functions x moduleId = .ok (before ++ f :: after)) :
    ∃ (q : Progress) (flow : Parts) (now : Progress),
      Lays x (Flow.entryJobs x f.entry) (q.start f.entry.node.id) flow now ∧
      f.nodes = flow.nodes ∧ flow.Whole ∧ f.entry ∈ x.entries ∧
      ∀ a ∈ q.seen, ∃ g ∈ before, g.entry ∈ x.entries ∧ a ∈ g.entry.node.id :: g.nodes := by
  obtain ⟨before', ⟨n, flow⟩, after', hflows, hf, hbefore⟩ := functions_split hb h
  obtain ⟨q, now, hvisited, hlays⟩ := flows_split (awaiting_entries hb) hflows
  rw [show n = f.entry from hf.entry.symm] at hlays
  refine ⟨q, flow, now, hlays, hf.nodes_eq, hf.whole,
    hf.entry ▸ mem_of_mem_flows (hflows ▸ List.mem_append_right _ (.head _)), fun a ha => ?_⟩
  have ha := ((hvisited.seen a).mp ha).resolve_right (by simp [Progress.seen])
  obtain ⟨⟨m, own⟩, hm, ha⟩ := List.mem_flatMap.mp ha
  obtain ⟨g, hg, hof⟩ := exists_of_forall₂ hbefore hm
  refine ⟨g, hg, ?_, ?_⟩
  · exact hof.entry ▸ mem_of_mem_flows (hflows ▸ List.mem_append_left _ hm)
  · rw [hof.entry, hof.nodes_eq]
    exact ha

/-- A node with code in a function is its entry or has a recipe. -/
theorem recipe_of_functions (h : functions x moduleId = .ok (before ++ f :: after)) {id : String}
    (hid : id ∈ f.entry.node.id :: f.nodes) {n : PlacedNode} (hn : x.node? id = some n)
    (hi : n.definition.isEntry = false) : (Recipe.ofType? n.node.nodeType).isSome := by
  obtain ⟨q, flow, now, hlays, hnodes, -, hentry, -⟩ := lays_of_functions hb h
  rw [hnodes] at hid
  rcases List.mem_cons.mp hid with rfl | hid
  · obtain ⟨hm, he⟩ := (mem_entries hb).mp hentry
    cases hn.symm.trans hm
    simp [he] at hi
  · obtain ⟨n', r, hn', -, hr⟩ := hlays.inner hid
    cases hn.symm.trans hn'
    simp [hr]

end

/-- What a node with code goes on with has code in the same function or in an earlier one. -/
theorem functions_closed (hbuild : Index.build catalog nodes connections = .ok x)
    (h : functions x moduleId = .ok (before ++ f :: after)) {id a : String}
    (hid : id ∈ f.entry.node.id :: f.nodes) (hnext : a ∈ Flow.next x id) (hpasses : x.Passes id a) :
    ∃ g ∈ before ++ [f], a ∈ g.nodes := by
  have hb := Index.built_of_build hbuild
  obtain ⟨q, flow, now, hlays, hnodes, hwhole, hentry, hbefore⟩ := lays_of_functions hb h
  obtain ⟨hjobs, hown⟩ := hlays.closed hwhole
  have hseen : a ∈ now.seen := by
    rw [hnodes] at hid
    rcases List.mem_cons.mp hid with rfl | hid
    · obtain ⟨hn, he⟩ := (mem_entries hb).mp hentry
      rw [Flow.next_of_entry hn he] at hnext
      obtain ⟨job, hj, ha⟩ := List.mem_flatMap.mp hnext
      exact hjobs job hj a ha
    · exact hown id hid a hnext
  -- control passes to it, so it is no entry
  have hinner : ∀ m ∈ x.entries, a ≠ m.node.id := by
    rintro m hm rfl
    obtain ⟨hn, he⟩ := (mem_entries hb).mp hm
    have := Index.inner_of_passes hbuild hpasses hn
    simp [he] at this
  rcases (hlays.visited.seen a).mp hseen with hs | hs
  · exact ⟨f, by simp, hnodes ▸ hs⟩
  rcases List.mem_cons.mp hs with hs | hs
  · exact absurd hs (hinner f.entry hentry)
  · obtain ⟨g, hg, hm, ha⟩ := hbefore a hs
    exact ⟨g, List.mem_append_left _ hg, (List.mem_cons.mp ha).resolve_left (hinner g.entry hm)⟩

/-- **Exec connections lead to code.**  Where the code of a node goes on with an exec output, every
node connected to the output has code in the same function or in an earlier one. -/
theorem followed_connections {indent moduleId text : String}
    (hbuild : Index.build .builtin nodes connections = .ok x)
    (hgen : generate .builtin indent moduleId nodes connections = .ok text) :
    ∃ fs, functions x moduleId = .ok fs ∧ (nodes ≠ [] → text = Script.text indent moduleId fs) ∧
      ∀ before f after, fs = before ++ f :: after →
        ∀ c ∈ connections, c.source.node ∈ f.entry.node.id :: f.nodes → x.Followed c.source →
          ∃ g ∈ before ++ [f], c.target.node ∈ g.nodes := by
  have hb := Index.built_of_build hbuild
  obtain ⟨fs, hfs, htext⟩ := functions_of_generate hbuild hgen
  refine ⟨fs, hfs, htext, ?_⟩
  rintro before f after rfl c hc hsource hfollowed
  have hnext := hb.mem_next hc hfollowed fun n hn hi => recipe_of_functions hb hfs hsource hn hi
  exact functions_closed hbuild hfs hsource hnext (hb.passes_of_followed hc hfollowed)

/-- A switch with a value for each of its first two cases. -/
def pickNodes : List Node :=
  [{ id := "spawn", nodeType := "on-player-respawned" },
   { id := "pick", nodeType := "switch", data := [("cases", .arr [.int 4, .int 7])] },
   { id := "log", nodeType := "print" }]

def pickConnections : List Connection :=
  [⟨"c0", ⟨"spawn", "output_0"⟩, ⟨"pick", "input_0"⟩⟩,
   ⟨"c1", ⟨"pick", "output_1"⟩, ⟨"log", "input_0"⟩⟩]

/-- What is connected to the second case has code. -/
theorem followed_connections_pick : ∃ x text f, Index.build .builtin pickNodes pickConnections = .ok x ∧
    generate .builtin "\t" "demo" pickNodes pickConnections = .ok text ∧
    functions x "demo" = .ok [f] ∧ x.Followed ⟨"pick", "output_1"⟩ ∧ "log" ∈ f.nodes := by
  have key : (Index.build .builtin pickNodes pickConnections).toOption.any (fun x =>
      (functions x "demo").toOption.any fun fs =>
        fs.length == 1 && fs.all (fun f => f.nodes.contains "pick") &&
        (x.node? "pick").any fun n => (n.output? "case0").isSome && (n.output? "case1").isSome &&
          (Recipe.casesOf n.node.data).toOption.any (fun cases => 1 < cases.length) &&
          n.outputs.any fun s => s.port.id == "output_1" && s.port.kind == .exec &&
            s.template.any (·.name == "case1")) = true := by
    rw [Index.build, Index.addNode_builtin]
    decide +kernel
  obtain ⟨x, fs, hx, hfs, htext, key⟩ := exists_of_run (List.cons_ne_nil _ _) key "\t"
  simp only [Bool.and_eq_true, beq_iff_eq, List.all_eq_true, List.contains_eq_mem,
    decide_eq_true_eq] at key
  obtain ⟨⟨hlength, hpick⟩, key⟩ := key
  obtain ⟨f, rfl⟩ := List.length_eq_one_iff.mp hlength
  obtain ⟨n, hn, key⟩ := (Option.any_eq_true ..).mp key
  simp only [Bool.and_eq_true, List.any_eq_true, beq_iff_eq] at key
  obtain ⟨⟨⟨h₀, h₁⟩, hcases⟩, s, hs, ⟨hid, hk⟩, ht⟩ := key
  obtain ⟨cases, hcases, hlt⟩ := exists_ok_of_any hcases
  obtain ⟨t, ht, hname⟩ := (Option.any_eq_true ..).mp ht
  have hfollowed : x.Followed ⟨"pick", "output_1"⟩ := by
    refine ⟨n, s, hn, hs, hid, hk, .inr ⟨t, ht, fun i hi => ?_⟩⟩
    have hi : ("case" ++ toString 1 : String) = "case" ++ toString i := by
      rw [← hi, show t.name = "case1" by simpa using hname]
      rfl
    obtain rfl : 1 = i := toString_inj
      (String.toList_inj.mp (by simpa using congrArg String.toList hi))
    refine ⟨⟨cases, hcases, by simpa using hlt⟩, fun j hj => ?_⟩
    obtain rfl | rfl : j = 0 ∨ j = 1 := by omega
    · exact h₀
    · exact h₁
  obtain ⟨fs, hfs', -, hall⟩ := followed_connections hx htext
  cases hfs.symm.trans hfs'
  obtain ⟨g, hg, hlog⟩ := hall [] f [] rfl ⟨"c1", ⟨"pick", "output_1"⟩, ⟨"log", "input_0"⟩⟩
    (by simp [pickConnections]) (.tail _ (hpick f (.head _))) hfollowed
  cases List.mem_singleton.mp hg
  exact ⟨x, _, f, hx, htext, hfs, hfollowed, hlog⟩

/-- Two entries that both lead to one node, over an exec input of its own each. -/
def sharedNodes : List Node :=
  [{ id := "server", nodeType := "init-server" }, { id := "client", nodeType := "init-client" },
   { id := "left", nodeType := "print" }, { id := "right", nodeType := "print" },
   { id := "both", nodeType := "print"
     inputs := [{ id := "i0", kind := .exec, isInput := true },
       { id := "i1", kind := .exec, isInput := true }]
     outputs := [{ id := "o0", kind := .exec, isInput := false }] }]

def sharedConnections : List Connection :=
  [⟨"c0", ⟨"server", "output_0"⟩, ⟨"left", "input_0"⟩⟩,
   ⟨"c1", ⟨"client", "output_0"⟩, ⟨"right", "input_0"⟩⟩,
   ⟨"c2", ⟨"left", "output_0"⟩, ⟨"both", "i0"⟩⟩,
   ⟨"c3", ⟨"right", "output_0"⟩, ⟨"both", "i1"⟩⟩]

/-- A node that two entries lead to has code in the function of the first one only. -/
theorem shared_target_once : ∃ x text f g s,
    Index.build .builtin sharedNodes sharedConnections = .ok x ∧
      generate .builtin "\t" "demo" sharedNodes sharedConnections = .ok text ∧
      functions x "demo" = .ok [f, g] ∧
      x.socket? ⟨"right", "output_0"⟩ = some s ∧ s.port.kind = .exec ∧ s.port.isInput = false ∧
      x.targets ⟨"right", "output_0"⟩ = ["both"] ∧
      f.nodes = ["left", "both"] ∧ g.nodes = ["right"] := by
  have key : (Index.build .builtin sharedNodes sharedConnections).toOption.any (fun x =>
      (functions x "demo").toOption.any fun fs =>
        fs.map (·.nodes) == [["left", "both"], ["right"]] &&
        (x.socket? ⟨"right", "output_0"⟩).any (fun s => s.port.kind == .exec && !s.port.isInput) &&
        x.targets ⟨"right", "output_0"⟩ == ["both"]) = true := by
    rw [Index.build, Index.addNode_builtin]
    decide +kernel
  obtain ⟨x, fs, hx, hfs, htext, key⟩ := exists_of_run (List.cons_ne_nil _ _) key "\t"
  simp only [Bool.and_eq_true, beq_iff_eq] at key
  obtain ⟨⟨hnodes, hs⟩, htargets⟩ := key
  obtain ⟨s, hs, hport⟩ := (Option.any_eq_true ..).mp hs
  obtain ⟨f, fs, rfl, hf, hrest⟩ := List.map_eq_cons_iff.mp hnodes
  obtain ⟨g, fs, rfl, hg, hrest⟩ := List.map_eq_cons_iff.mp hrest
  cases List.map_eq_nil_iff.mp hrest
  simp only [Bool.and_eq_true, beq_iff_eq, Bool.not_eq_true'] at hport
  exact ⟨x, _, f, g, s, hx, htext, hfs, hs, hport.1, hport.2, htargets, hf, hg⟩

end Script

end VisualScript
