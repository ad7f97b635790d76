import VisualScript.Proofs.Recipes
import VisualScript.Script.Module

/-!
# Proofs — Layout

The flow of an entry as `Flow` lays it out.

* `Chain.visits`: the nodes of a chain in the order of control, each with the path of its block.
* `Chain.Laid`: every node of a chain has the items of its recipe.
* `Visited`: what a layout does to the progress of a graph.  It takes up nodes that were not seen
  before, each once, and remembers them.
* `Script.flows_entries`: the flows of the entries are laid out from recipes, and no node stands in
  them twice.
-/

namespace VisualScript

mutual

/-- The nodes of a chain, each with the path of its block. -/
def Chain.visits (path : Path) : Chain → List (Path × String)
  | .done             => []
  | .halt _           => []
  | .step id own rest => (path, id) :: (own.visits path id ++ rest.visits path)

/-- The nodes below the items of `owner`. -/
def Parts.visits (path : Path) (owner : String) : Parts → List (Path × String)
  | .done                       => []
  | .line _ rest                => rest.visits path owner
  | .follow body rest           => body.visits path ++ rest.visits path owner
  | .block port _ _ body rest   => body.visits (path ++ [⟨owner, port⟩]) ++ rest.visits path owner
  | .thread port _ _ body rest  => body.visits (path ++ [⟨owner, port⟩]) ++ rest.visits path owner

end

mutual

/-- The nodes of a chain. -/
def Chain.nodes : Chain → List String
  | .done             => []
  | .halt _           => []
  | .step id own rest => id :: (own.nodes ++ rest.nodes)

def Parts.nodes : Parts → List String
  | .done                    => []
  | .line _ rest             => rest.nodes
  | .follow body rest        => body.nodes ++ rest.nodes
  | .block _ _ _ body rest   => body.nodes ++ rest.nodes
  | .thread _ _ _ body rest  => body.nodes ++ rest.nodes

end

mutual

theorem Chain.visits_map_snd (path : Path) : ∀ c : Chain, (c.visits path).map Prod.snd = c.nodes
  | .done | .halt _ => rfl
  | .step id own rest => by
    simp [Chain.visits, Chain.nodes, own.visits_map_snd path id, rest.visits_map_snd path]

theorem Parts.visits_map_snd (path : Path) (owner : String) :
    ∀ p : Parts, (p.visits path owner).map Prod.snd = p.nodes
  | .done => rfl
  | .line _ rest => by simp only [Parts.visits, Parts.nodes, rest.visits_map_snd path owner]
  | .follow body rest => by
    simp [Parts.visits, Parts.nodes, body.visits_map_snd path, rest.visits_map_snd path owner]
  | .block port _ _ body rest | .thread port _ _ body rest => by
    simp [Parts.visits, Parts.nodes, body.visits_map_snd (path ++ [⟨owner, port⟩]),
      rest.visits_map_snd path owner]

end

/-! ### Laid out from recipes -/

mutual

/-- Every node of the chain has the items of its recipe, without the trailing one. -/
inductive Chain.Laid (x : Index) : Chain → Prop where
  | done : Chain.Laid x .done
  | halt (f : Fault) : Chain.Laid x (.halt f)
  | step {id : String} {n : PlacedNode} {r : Recipe} {own : Parts} {rest : Chain}
      (node : x.node? id = some n) (inner : n.definition.isEntry = false)
      (exec : n.hasExec = true) (recipe : Recipe.ofType? n.node.nodeType = some r)
      (parts : Parts.Laid x (Outline.splitTail (r.outline x n).items).1 own)
      (chain : Chain.Laid x rest) : Chain.Laid x (.step id own rest)

/-- The parts are those of a list of items.  A thread without a connection has no body. -/
inductive Parts.Laid (x : Index) : List Item → Parts → Prop where
  | done : Parts.Laid x [] .done
  | line {items : List Item} {rest : Parts} (t : Template) (h : Parts.Laid x items rest) :
      Parts.Laid x (.line t :: items) (.line t rest)
  | follow {items : List Item} {body : Chain} {rest : Parts} (port : String)
      (hb : Chain.Laid x body) (h : Parts.Laid x items rest) :
      Parts.Laid x (.follow port :: items) (.follow body rest)
  | block {items : List Item} {body : Chain} {rest : Parts} (port : String)
      (bindings : List (String × Nat)) (tail : List String)
      (hb : Chain.Laid x body) (h : Parts.Laid x items rest) :
      Parts.Laid x (.block port bindings tail :: items) (.block port bindings tail body rest)
  | thread {items : List Item} {isConnected : Bool} {body : Chain} {rest : Parts}
      (port name : String) (hc : isConnected = false → body = .done) (hb : Chain.Laid x body)
      (h : Parts.Laid x items rest) :
      Parts.Laid x (.thread port name isConnected :: items)
        (.thread port name isConnected body rest)

end

mutual

/-- Every thread without a connection has an empty body. -/
def Chain.Idle : Chain → Prop
  | .done | .halt _   => True
  | .step _ own rest  => own.Idle ∧ rest.Idle

def Parts.Idle : Parts → Prop
  | .done                             => True
  | .line _ rest                      => rest.Idle
  | .follow body rest                 => body.Idle ∧ rest.Idle
  | .block _ _ _ body rest            => body.Idle ∧ rest.Idle
  | .thread _ _ isConnected body rest =>
      (isConnected = false → body = .done) ∧ body.Idle ∧ rest.Idle

end

/-! ### Progress -/

/-- The nodes that have been taken up. -/
def Progress.seen (p : Progress) : List String := p.active ++ p.finished

/-- From `p` to `q` the nodes `ids` are taken up, each once and none of them again. -/
structure Visited (ids : List String) (p q : Progress) : Prop where
  nodup  : ids.Nodup
  fresh  : ∀ id ∈ ids, id ∉ p.seen
  seen   : ∀ id, id ∈ q.seen ↔ id ∈ ids ∨ id ∈ p.seen
  active : p.active <:+ q.active

namespace Visited

theorem nil (p : Progress) : Visited [] p p :=
  ⟨List.nodup_nil, by simp, by simp, List.suffix_rfl⟩

theorem trans {as bs : List String} {p q r : Progress} (h₁ : Visited as p q)
    (h₂ : Visited bs q r) : Visited (as ++ bs) p r := by
  refine ⟨?_, fun id hid hp => ?_, fun id => ?_, h₁.active.trans h₂.active⟩
  · refine List.nodup_append.mpr ⟨h₁.nodup, h₂.nodup, fun a ha b hb e => ?_⟩
    exact h₂.fresh b hb ((h₁.seen b).mpr (Or.inl (e ▸ ha)))
  · rcases List.mem_append.mp hid with ha | hb
    · exact h₁.fresh id ha hp
    · exact h₂.fresh id hb ((h₁.seen id).mpr (Or.inr hp))
  · rw [h₂.seen, h₁.seen, List.mem_append]
    tauto

theorem start {p : Progress} {id : String} (h : id ∉ p.seen) : Visited [id] p (p.start id) := by
  refine ⟨List.nodup_singleton id, by simpa using h, fun a => ?_, List.suffix_cons _ _⟩
  simp [Progress.seen, Progress.start]

/-- Finishing a chain keeps what has been seen. -/
theorem finish {ids : List String} {p q : Progress} (h : Visited ids p q) :
    Visited ids p (p.finishSince q) := by
  refine ⟨h.nodup, h.fresh, fun id => ?_, List.suffix_rfl⟩
  rw [← h.seen]
  obtain ⟨new, hnew⟩ := h.active
  simp only [Progress.seen, Progress.finishSince, ← hnew, List.length_append,
    Nat.add_sub_cancel, List.take_left, List.mem_append]
  tauto

end Visited

/-! ### Flow -/

namespace Flow

variable {x : Index} {n : PlacedNode} {id port : String} {items : List Item} {r : Recipe}
  {p : Progress}

theorem targets_of_not_connected (h : Recipe.isConnected x n port = false) :
    targets x n port = [] := by
  unfold Recipe.isConnected at h
  unfold targets
  cases hp : n.output? port with
  | none => rfl
  | some p =>
    simp only [hp, Bool.not_eq_false', List.isEmpty_iff] at h
    simp [Index.targets, h]

/-- The items of a node lead to nodes control can pass to, and a thread item without a connection
leads nowhere. -/
structure Proper (x : Index) (n : PlacedNode) (items : List Item) : Prop where
  exec      : ∀ item ∈ items, ∀ a ∈ itemTargets x n item, x.hasExec a = true
  connected : ∀ port name, Item.thread port name false ∈ items → targets x n port = []

theorem Proper.subset {items items' : List Item} (h : Proper x n items)
    (hs : ∀ item ∈ items', item ∈ items) : Proper x n items' :=
  ⟨fun item hi => h.exec item (hs item hi), fun port name hi => h.connected port name (hs _ hi)⟩

/-- A thread item that counts as unconnected leads nowhere. -/
theorem targets_of_thread_mem {port name : String}
    (hm : Item.thread port name false ∈ (r.outline x n).items) : targets x n port = [] := by
  cases r with
  | thread =>
    simp only [Recipe.outline, List.mem_cons, Item.thread.injEq, reduceCtorEq,
      List.not_mem_nil, or_false] at hm
    obtain ⟨rfl, -, hc⟩ := hm
    exact targets_of_not_connected hc.symm
  | constant type key output => simp only [Recipe.outline] at hm; split at hm <;> simp at hm
  | switch type =>
    have hcases : ∀ (i : Nat) (vs : List Json),
        Item.thread port name false ∉ Recipe.caseItems type n i vs := by
      intro i vs
      induction vs generalizing i with
      | nil => simp [Recipe.caseItems]
      | cons v vs ih => simp only [Recipe.caseItems]; split <;> simp [ih]
    simp only [Recipe.outline] at hm
    split at hm <;> simp only [Recipe.switchItems, List.mem_append] at hm <;>
      split at hm <;> simp [hcases] at hm
  | branch => simp only [Recipe.outline] at hm; split at hm <;> simp at hm
  | _ => simp [Recipe.outline, Recipe.weaponFields] at hm

theorem proper_outline (hg : Guided x) (hn : x.node? id = some n)
    (hr : Recipe.ofType? n.node.nodeType = some r) : Proper x n (r.outline x n).items := by
  constructor
  · intro item hi a ha
    rw [itemTargets_eq] at ha
    cases hp : item.port? with
    | none => simp [hp] at ha
    | some port =>
      rw [hp, Option.map_some, Option.getD_some] at ha
      exact hg hn hr (List.mem_filterMap.mpr ⟨item, hi, hp⟩) a ha
  · exact fun port name hm => targets_of_thread_mem hm

theorem splitTail_sublist (items : List Item) : (Outline.splitTail items).1.Sublist items := by
  unfold Outline.splitTail
  split
  · exact List.dropLast_sublist _
  · exact List.Sublist.refl _

theorem mem_of_mem_splitTail {item : Item} (h : item ∈ (Outline.splitTail items).1) :
    item ∈ items :=
  (splitTail_sublist items).subset h

/-- The trailing output is that of the last item. -/
theorem follow_mem_of_splitTail (h : (Outline.splitTail items).2 = some port) :
    Item.follow port ∈ items := by
  unfold Outline.splitTail at h
  split at h
  · rename_i p hl
    simp only at h
    split at h
    · cases h
    · cases h
      exact List.mem_of_getLast? hl
  · cases h

/-- The items of a node are laid out one after the other. -/
theorem parts_laid {f : List String → Progress → Chain × Progress}
    (hnil : ∀ p, (f [] p).1 = .done)
    (hchain : ∀ ids p, (∀ a ∈ ids, x.hasExec a = true) →
      (f ids p).1.Laid x ∧ Visited (f ids p).1.nodes p (f ids p).2) :
    ∀ (items : List Item) (p : Progress), Proper x n items →
      (parts x n f items p).1.Laid x items ∧
        Visited (parts x n f items p).1.nodes p (parts x n f items p).2
  | [], p, _ => ⟨.done, .nil p⟩
  | .line t :: items, p, h => by
    obtain ⟨h₁, h₂⟩ := parts_laid hnil hchain items p (h.subset fun _ => .tail _)
    exact ⟨.line t h₁, h₂⟩
  | .follow port :: items, p, h => by
    obtain ⟨hb, hv⟩ := hchain (targets x n port) p (h.exec _ (.head _))
    obtain ⟨h₁, h₂⟩ := parts_laid hnil hchain items (f (targets x n port) p).2
      (h.subset fun _ => .tail _)
    exact ⟨.follow port hb h₁, hv.trans h₂⟩
  | .block port bindings tail :: items, p, h => by
    obtain ⟨hb, hv⟩ := hchain (targets x n port) p (h.exec _ (.head _))
    obtain ⟨h₁, h₂⟩ := parts_laid hnil hchain items (f (targets x n port) p).2
      (h.subset fun _ => .tail _)
    exact ⟨.block port bindings tail hb h₁, hv.trans h₂⟩
  | .thread port name isConnected :: items, p, h => by
    obtain ⟨hb, hv⟩ := hchain (targets x n port) p (h.exec _ (.head _))
    obtain ⟨h₁, h₂⟩ := parts_laid hnil hchain items (f (targets x n port) p).2
      (h.subset fun _ => .tail _)
    refine ⟨.thread port name (fun hc => ?_) hb h₁, hv.trans h₂⟩
    subst hc
    rw [h.connected port name (.head _), hnil]

theorem unroll_nil (x : Index) (fuel : Nat) (p : Progress) : unroll x fuel [] p = (.done, p) := by
  cases fuel <;> rfl

/-- What entering a node requires. -/
theorem enter_ok (h : enter x p id = .ok (n, r)) :
    x.node? id = some n ∧ id ∉ p.active ∧ n.definition.isEntry = false ∧
      Recipe.ofType? n.node.nodeType = some r := by
  unfold enter at h
  split at h
  · cases h
  rename_i m hm
  split at h
  · cases h
  rename_i ha
  split at h
  · cases h
  rename_i he
  split at h
  · rename_i r' hr
    cases h
    exact ⟨hm, ha, by simpa using he, hr⟩
  · cases h

/-- The chain of an output inside a node: it is finished at its end. -/
def nested (x : Index) (fuel : Nat) (start : List String) (before : Progress) : Chain × Progress :=
  ((unroll x fuel start before).1, before.finishSince (unroll x fuel start before).2)

/-- How a chain goes on with a node that can be entered. -/
theorem unroll_enter {fuel : Nat} {work : List String} (hf : id ∉ p.finished)
    (he : enter x p id = .ok (n, r)) :
    unroll x (fuel + 1) (id :: work) p =
      let items := Outline.splitTail (r.outline x n).items
      let own := parts x n (nested x fuel) items.1 (p.start id)
      let rest := unroll x fuel ((items.2.map (targets x n)).getD [] ++ work) own.2
      (.step id own.1 rest.1, rest.2) := by
  rw [unroll, if_neg hf, he]
  rfl

/-- A chain is laid out from recipes and takes up nodes that were not seen before. -/
theorem unroll_laid (hg : Guided x) : ∀ (fuel : Nat) (work : List String)
    (p : Progress), (∀ a ∈ work, x.hasExec a = true) →
      (unroll x fuel work p).1.Laid x ∧
        Visited (unroll x fuel work p).1.nodes p (unroll x fuel work p).2 := by
  intro fuel
  induction fuel with
  | zero => exact fun _ p _ => ⟨.done, .nil p⟩
  | succ fuel ih =>
    intro work p hwork
    cases work with
    | nil => exact ⟨.done, .nil p⟩
    | cons id work =>
      by_cases hf : id ∈ p.finished
      · rw [unroll, if_pos hf]
        exact ih work p fun a ha => hwork a (.tail _ ha)
      cases he : enter x p id with
      | error f =>
        rw [unroll, if_neg hf, he]
        exact ⟨.halt _, .nil p⟩
      | ok r =>
      obtain ⟨n, r⟩ := r
      rw [unroll_enter hf he]
      obtain ⟨hn, ha, hi, hr⟩ := enter_ok he
      have hfresh : id ∉ p.seen := by simp [Progress.seen, ha, hf]
      have hx : n.hasExec = true := by rw [← Index.hasExec_eq hn]; exact hwork id (.head _)
      have hproper := proper_outline hg hn hr
      obtain ⟨h₁, v₁⟩ := parts_laid (f := nested x fuel)
        (fun q => by rw [nested, unroll_nil])
        (fun ids q hids => ⟨(ih ids q hids).1, (ih ids q hids).2.finish⟩)
        (Outline.splitTail (r.outline x n).items).1 (p.start id)
        (hproper.subset fun _ => mem_of_mem_splitTail)
      obtain ⟨h₂, v₂⟩ := ih
        (((Outline.splitTail (r.outline x n).items).2.map (targets x n)).getD [] ++ work) _ (by
          intro a hm
          rcases List.mem_append.mp hm with hm | hm
          · cases ht : (Outline.splitTail (r.outline x n).items).2 with
            | none => simp [ht] at hm
            | some port =>
              rw [ht] at hm
              exact hproper.exec _ (follow_mem_of_splitTail ht) a hm
          · exact hwork a (.tail _ hm))
      exact ⟨.step hn hi hx hr h₁ h₂, (Visited.start hfresh).trans (v₁.trans v₂)⟩

theorem chain_laid (hg : Guided x) {start : List String} (p : Progress)
    (h : ∀ a ∈ start, x.hasExec a = true) :
    (chain x start p).1.Laid x ∧ Visited (chain x start p).1.nodes p (chain x start p).2 :=
  ⟨(unroll_laid hg _ start p h).1, (unroll_laid hg _ start p h).2.finish⟩

/-! ### Unconnected threads -/

theorem parts_idle {f : List String → Progress → Chain × Progress}
    (hnil : ∀ p, (f [] p).1 = .done) (hf : ∀ ids p, (f ids p).1.Idle) :
    ∀ (items : List Item) (p : Progress),
      (∀ port name, Item.thread port name false ∈ items → targets x n port = []) →
      (parts x n f items p).1.Idle
  | [], _, _ => trivial
  | .line _ :: items, p, h =>
    parts_idle hnil hf items p fun port name hm => h port name (.tail _ hm)
  | .follow _ :: items, _, h | .block _ _ _ :: items, _, h =>
    ⟨hf _ _, parts_idle hnil hf items _ fun port name hm => h port name (.tail _ hm)⟩
  | .thread port name isConnected :: items, _, h => by
    refine ⟨fun hc => ?_, hf _ _,
      parts_idle hnil hf items _ fun port name hm => h port name (.tail _ hm)⟩
    subst hc
    rw [h port name (.head _), hnil]

theorem unroll_idle (x : Index) : ∀ (fuel : Nat) (work : List String) (p : Progress),
    (unroll x fuel work p).1.Idle := by
  intro fuel
  induction fuel with
  | zero => exact fun _ _ => trivial
  | succ fuel ih =>
    intro work p
    cases work with
    | nil => trivial
    | cons id work =>
      by_cases hf : id ∈ p.finished
      · rw [unroll, if_pos hf]
        exact ih work p
      cases he : enter x p id with
      | error f =>
        rw [unroll, if_neg hf, he]
        trivial
      | ok r =>
        rw [unroll_enter hf he]
        refine ⟨parts_idle (f := nested x fuel) (fun q => ?_) (fun ids q => ih ids q) _ _ fun port name hm =>
          targets_of_thread_mem (mem_of_mem_splitTail hm), ih _ _⟩
        rw [nested, unroll_nil]

/-- The chains of exec outputs of an entry, one after the other. -/
def followAll (x : Index) (n : PlacedNode) : List Socket → Progress → Parts × Progress
  | [],           p => (.done, p)
  | s :: outputs, p =>
      let body := chain x (x.targets ⟨n.node.id, s.port.id⟩) p
      let rest := followAll x n outputs body.2
      (.follow body.1 rest.1, rest.2)

theorem entry_eq_followAll (x : Index) (n : PlacedNode) (p : Progress) :
    entry x n p =
      let own := followAll x n (n.outputs.filter (·.port.kind == .exec)) (p.start n.node.id)
      (own.1, p.finishSince own.2) := by
  have key : ∀ outputs : List Socket,
      outputs.foldr
        (fun s rest q =>
          let body := chain x (x.targets ⟨n.node.id, s.port.id⟩) q
          (Parts.follow body.1 (rest body.2).1, (rest body.2).2))
        (fun q => (Parts.done, q)) = followAll x n outputs := by
    intro outputs
    induction outputs with
    | nil => rfl
    | cons s outputs ih =>
      rw [List.foldr_cons, ih]
      rfl
  rw [← key]
  rfl

theorem followAll_idle (x : Index) (n : PlacedNode) : ∀ (outputs : List Socket) (p : Progress),
    (followAll x n outputs p).1.Idle
  | [],           _ => trivial
  | _ :: outputs, _ => ⟨unroll_idle x _ _ _, followAll_idle x n outputs _⟩

theorem entry_idle (x : Index) (n : PlacedNode) (p : Progress) : (entry x n p).1.Idle := by
  rw [entry_eq_followAll]
  exact followAll_idle x n _ _

/-! ### The flow of an entry -/

/-- The items of an entry: its exec outputs in order. -/
def entryItems (n : PlacedNode) : List Item :=
  (n.outputs.filter (·.port.kind == .exec)).map fun s => .follow s.name

theorem followAll_laid (hg : Guided x) :
    ∀ (outputs : List Socket) (p : Progress),
      (∀ s ∈ outputs, ∀ a ∈ x.targets ⟨n.node.id, s.port.id⟩, x.hasExec a = true) →
      (followAll x n outputs p).1.Laid x (outputs.map fun s => .follow s.name) ∧
        Visited (followAll x n outputs p).1.nodes p (followAll x n outputs p).2
  | [],           p, _  => ⟨.done, .nil p⟩
  | s :: outputs, p, hx => by
    obtain ⟨hb, hv⟩ := chain_laid hg p (hx s (.head _))
    obtain ⟨h₁, h₂⟩ := followAll_laid hg outputs
      (chain x (x.targets ⟨n.node.id, s.port.id⟩) p).2 fun s hs => hx s (.tail _ hs)
    exact ⟨.follow s.name hb h₁, hv.trans h₂⟩

/-- The flow of an entry takes up the entry and the nodes of its chains. -/
theorem entry_laid (hg : Guided x)
    (hx : ∀ s ∈ n.outputs, s.port.kind = .exec →
      ∀ a ∈ x.targets ⟨n.node.id, s.port.id⟩, x.hasExec a = true) (h : n.node.id ∉ p.seen) :
    (entry x n p).1.Laid x (entryItems n) ∧
      Visited (n.node.id :: (entry x n p).1.nodes) p (entry x n p).2 := by
  obtain ⟨h₁, h₂⟩ := followAll_laid hg (n.outputs.filter (·.port.kind == .exec))
    (p.start n.node.id)
    fun s hs => hx s (List.mem_filter.mp hs).1 (by simpa using (List.mem_filter.mp hs).2)
  rw [entry_eq_followAll]
  exact ⟨h₁, ((Visited.start h).trans h₂).finish⟩

end Flow

mutual

/-- The nodes of a laid out chain are no entries; control passes through them by a recipe. -/
theorem Chain.Laid.node {x : Index} {id : String} : ∀ {c : Chain}, c.Laid x → id ∈ c.nodes →
    ∃ n r, x.node? id = some n ∧ n.definition.isEntry = false ∧ n.hasExec = true ∧
      Recipe.ofType? n.node.nodeType = some r
  | .step _ _ _, .step hn hi hx hr hp hc, h => by
    simp only [Chain.nodes, List.mem_cons, List.mem_append] at h
    rcases h with rfl | h | h
    · exact ⟨_, _, hn, hi, hx, hr⟩
    · exact hp.node h
    · exact hc.node h

theorem Parts.Laid.node {x : Index} {id : String} : ∀ {items : List Item} {p : Parts},
    p.Laid x items → id ∈ p.nodes →
    ∃ n r, x.node? id = some n ∧ n.definition.isEntry = false ∧ n.hasExec = true ∧
      Recipe.ofType? n.node.nodeType = some r
  | _, .line _ _, .line _ h, hid => h.node hid
  | _, .follow _ _, .follow _ hb h, hid
  | _, .block _ _ _ _ _, .block _ _ _ hb h, hid
  | _, .thread _ _ _ _ _, .thread _ _ _ hb h, hid => by
    rcases List.mem_append.mp hid with hid | hid
    · exact hb.node hid
    · exact h.node hid

end

/-! ### All entries -/

namespace Script

variable {nodes : List Node} {connections : List Connection} {x : Index} {catalog : Catalog}
  {n : PlacedNode} {flow : Parts} {moduleId : String}

/-- The nodes of a list of flows, each entry before the nodes it leads to. -/
def flowNodes (fs : List (PlacedNode × Parts)) : List String :=
  fs.flatMap fun (n, flow) => n.node.id :: flow.nodes

/-- The flows of the entries are laid out from recipes, and no node stands in them twice. -/
theorem flows_laid (h : Index.Built .builtin nodes connections x) :
    ∀ (ns : List PlacedNode) (p : Progress), (ns.map (·.node.id)).Nodup →
      (∀ n ∈ ns, x.node? n.node.id = some n ∧ n.definition.isEntry = true ∧
        n.node.id ∉ p.seen) →
      (∀ f ∈ flows x ns p, f.2.Laid x (Flow.entryItems f.1)) ∧ (flowNodes (flows x ns p)).Nodup ∧
        ∀ id ∈ flowNodes (flows x ns p), id ∉ p.seen
  | [], p, _, _ => by simp [flows, flowNodes]
  | n :: ns, p, hnodup, hns => by
    obtain ⟨hn, he, hfresh⟩ := hns n (.head _)
    obtain ⟨hlaid, hv⟩ := Flow.entry_laid (Flow.guided_of_built h)
      (fun s hs hk a ha => h.hasExec_of_mem_targets hn hs hk ha) hfresh
    obtain ⟨hnot, hnodup⟩ := List.nodup_cons.mp hnodup
    have hrest : ∀ m ∈ ns, x.node? m.node.id = some m ∧ m.definition.isEntry = true ∧
        m.node.id ∉ (Flow.entry x n p).2.seen := by
      intro m hm
      obtain ⟨hm₁, hm₂, hm₃⟩ := hns m (.tail _ hm)
      refine ⟨hm₁, hm₂, fun hs => ?_⟩
      rcases (hv.seen _).mp hs with hs | hs
      · rcases List.mem_cons.mp hs with hs | hs
        · exact hnot (List.mem_map.mpr ⟨m, hm, hs⟩)
        · obtain ⟨m', -, hm', hi, -⟩ := hlaid.node hs
          rw [hm₁] at hm'
          cases hm'
          simp [hm₂] at hi
      · exact hm₃ hs
    obtain ⟨ih₁, ih₂, ih₃⟩ := flows_laid h ns (Flow.entry x n p).2 hnodup hrest
    refine ⟨fun f hf => ?_, ?_, fun id hid => ?_⟩
    · rcases List.mem_cons.mp hf with rfl | hf
      · exact hlaid
      · exact ih₁ f hf
    · refine List.nodup_append.mpr ⟨hv.nodup, ih₂, fun a ha b hb e => ?_⟩
      exact ih₃ b hb ((hv.seen b).mpr (.inl (e ▸ ha)))
    · rcases List.mem_append.mp hid with hid | hid
      · exact hv.fresh id hid
      · exact fun hp => ih₃ id hid ((hv.seen id).mpr (.inr hp))

/-- The entries of a checked graph. -/
theorem mem_entries (h : Index.Built catalog nodes connections x) :
    n ∈ x.entries ↔ x.node? n.node.id = some n ∧ n.definition.isEntry = true := by
  simp only [Index.entries, List.mem_filter, List.mem_map, Prod.exists, exists_eq_right]
  refine and_congr_left fun _ => ⟨fun ⟨id, hm⟩ => ?_, fun hn => ⟨_, Index.mem_placed hn⟩⟩
  rw [h.keyed hm]
  exact h.node?_of_mem hm

theorem entries_nodup (h : Index.Built catalog nodes connections x) :
    (x.entries.map (·.node.id)).Nodup := by
  have hkeys : (x.placed.map Prod.snd).map (·.node.id) = x.order := by
    rw [List.map_map, Index.order, Assoc.keys]
    exact List.map_congr_left fun p hp => h.keyed hp
  exact (hkeys ▸ h.toPlaced.distinct).sublist ((List.filter_sublist).map _)

/-- **The flows of a script**: laid out from recipes, with every node in at most one place. -/
theorem flows_entries (h : Index.Built .builtin nodes connections x) :
    (∀ f ∈ flows x x.entries {}, f.2.Laid x (Flow.entryItems f.1)) ∧
      (flowNodes (flows x x.entries {})).Nodup := by
  obtain ⟨h₁, h₂, -⟩ := flows_laid h x.entries {} (entries_nodup h) fun n hn =>
    ⟨((mem_entries h).mp hn).1, ((mem_entries h).mp hn).2, by simp [Progress.seen]⟩
  exact ⟨h₁, h₂⟩

theorem flows_idle :
    ∀ {ns : List PlacedNode} {p : Progress}, (n, flow) ∈ flows x ns p → flow.Idle
  | [], _, h => by cases h
  | m :: ns, p, h => by
    rw [flows] at h
    rcases List.mem_cons.mp h with h | h
    · cases h
      exact Flow.entry_idle x n p
    · exact flows_idle h

theorem mem_of_mem_flows :
    ∀ {ns : List PlacedNode} {p : Progress}, (n, flow) ∈ flows x ns p → n ∈ ns
  | [], _, h => by cases h
  | m :: ns, p, h => by
    rw [flows] at h
    rcases List.mem_cons.mp h with h | h
    · cases h
      exact .head _
    · exact .tail _ (mem_of_mem_flows h)

/-- No node stands twice in the flow of one entry. -/
theorem nodup_of_mem_flows {fs : List (PlacedNode × Parts)} (h : (flowNodes fs).Nodup)
    (hm : (n, flow) ∈ fs) : (n.node.id :: flow.nodes).Nodup :=
  (List.nodup_flatMap.mp h).1 (n, flow) hm

/-- A graph with an entry has a node. -/
theorem ne_nil_of_mem_entries (h : Index.Built catalog nodes connections x) (hn : n ∈ x.entries) :
    nodes ≠ [] := by
  rintro rfl
  have hplaced : x.placed = [] := List.map_eq_nil_iff.mp h.nodes
  simp [Index.entries, hplaced] at hn

theorem generate_eq (hbuild : Index.build catalog nodes connections = .ok x) (hne : nodes ≠ [])
    (indent moduleId : String) :
    generate catalog indent moduleId nodes connections =
      (functions x moduleId).map (text indent moduleId) := by
  unfold generate
  rw [if_neg (by simpa using hne), hbuild]

theorem generate_of_functions {fs : List EntryFunction}
    (hbuild : Index.build catalog nodes connections = .ok x) (hne : nodes ≠ [])
    (hfs : functions x moduleId = .ok fs) (indent : String) :
    generate catalog indent moduleId nodes connections = .ok (text indent moduleId fs) := by
  rw [generate_eq hbuild hne, hfs]
  rfl

/-- What is seen of the functions of a graph when they are computed. -/
theorem exists_of_run {p : Index → List EntryFunction → Bool} (hne : nodes ≠ [])
    (h : (Index.build catalog nodes connections).toOption.any (fun x =>
      (functions x moduleId).toOption.any (p x)) = true) (indent : String) :
    ∃ x fs, Index.build catalog nodes connections = .ok x ∧ functions x moduleId = .ok fs ∧
      generate catalog indent moduleId nodes connections = .ok (text indent moduleId fs) ∧
      p x fs = true := by
  obtain ⟨x, hx, h⟩ := exists_ok_of_any h
  obtain ⟨fs, hfs, h⟩ := exists_ok_of_any h
  exact ⟨x, fs, hx, hfs, generate_of_functions hx hne hfs indent, h⟩

/-- A script fails with the check of its graph or with one of its functions. -/
theorem generate_error {indent moduleId : String} {f : Failure}
    (h : generate catalog indent moduleId nodes connections = .error f) :
    (∃ g, Index.build catalog nodes connections = .error g ∧ f = .fault g) ∨
      ∃ x, Index.build catalog nodes connections = .ok x ∧ functions x moduleId = .error f := by
  have hne : nodes ≠ [] := by
    rintro rfl
    cases h
  cases hbuild : Index.build catalog nodes connections with
  | error g =>
    unfold generate at h
    rw [if_neg (by simpa using hne), hbuild] at h
    cases h
    exact .inl ⟨g, rfl, rfl⟩
  | ok x =>
    rw [generate_eq hbuild hne] at h
    cases hf : functions x moduleId with
    | error f' =>
      rw [hf] at h
      cases h
      exact .inr ⟨x, rfl, hf⟩
    | ok fs =>
      rw [hf] at h
      cases h

/-- A graph whose script is generated has functions for its entries, and they are its script unless
it is empty. -/
theorem functions_of_generate {indent moduleId text : String}
    (hbuild : Index.build catalog nodes connections = .ok x)
    (hgen : generate catalog indent moduleId nodes connections = .ok text) :
    ∃ fs, functions x moduleId = .ok fs ∧
      (nodes ≠ [] → text = Script.text indent moduleId fs) := by
  by_cases hne : nodes = []
  · have hnone : x.entries = [] := List.eq_nil_iff_forall_not_mem.mpr fun n hn =>
      ne_nil_of_mem_entries (Index.built_of_build hbuild) hn hne
    exact ⟨[], by rw [functions, hnone]; rfl, fun h => absurd hne h⟩
  · cases hf : functions x moduleId with
    | error f =>
      rw [generate_eq hbuild hne, hf] at hgen
      cases hgen
    | ok fs =>
      rw [generate_of_functions hbuild hne hf] at hgen
      exact ⟨fs, rfl, fun _ => (Except.ok.inj hgen).symm⟩

end Script

end VisualScript
