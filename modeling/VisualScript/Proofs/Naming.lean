import Mathlib.Data.List.Flatten
import VisualScript.Proofs.Forest
import VisualScript.Proofs.Free

/-!
# Proofs — Naming

The functions of a script and their names.  `Code.starts` lists the thread functions of a body, each
with the node that starts it.  A node starts a thread in one place of its code at most, and stands
in at most one place of the script, so no node has two functions (`Script.threadNodes_nodup`).

The names themselves are another matter.  The name of an entry comes from its payload and that of a
thread function from the id of its node, where every character other than an ASCII letter or digit
becomes an underscore.  Two functions have the same name where two nodes have, and nowhere else
(`Script.function_names`).
-/

namespace VisualScript

namespace Code

/-- The thread functions of a body, each with the node that starts it and its name. -/
def starts : Code → List (String × String)
  | done                         => []
  | mark _ _ _ rest              => starts rest
  | line _ rest                  => starts rest
  | declare _ _ _ rest           => starts rest
  | block _ body rest            => starts body ++ starts rest
  | thread key name _ body rest  => starts body ++ (key.node, name) :: starts rest

theorem map_snd_starts (c : Code) : c.starts.map Prod.snd = c.threads.map (·.name) := by
  induction c <;> simp_all [starts, threads]

@[simp] theorem starts_append (c d : Code) : (c ++ d).starts = c.starts ++ d.starts := by
  induction c <;> simp_all [starts]

@[simp] theorem starts_ofLines (ls : List String) : (ofLines ls).starts = [] := by
  induction ls <;> simp_all [ofLines, starts]

theorem Flat.starts_eq : ∀ {c : Code}, c.Flat → c.starts = []
  | .done, _ => rfl
  | .declare _ _ _ rest, h => by
    have h : rest.Flat := h
    exact h.starts_eq

end Code

def Item.isThread : Item → Bool
  | .thread .. => true
  | _          => false

/-- The node to which the items belong, once for each thread they start. -/
def Item.starters (owner : String) (items : List Item) : List String :=
  (items.filter Item.isThread).map fun _ => owner

/-- A thread node, and the name of its function. -/
def Index.Starts (x : Index) (e : String × String) : Prop :=
  e.2 = Name.threadFunction e.1 ∧
    ∃ n, x.node? e.1 = some n ∧ Recipe.ofType? n.node.nodeType = some .thread

namespace Recipe

variable {x : Index} {n : PlacedNode}

theorem filter_caseItems (type : ValueType) : ∀ (i : Nat) (vs : List Json),
    (caseItems type n i vs).filter Item.isThread = []
  | _, [] => rfl
  | i, v :: vs => by
    simp only [caseItems]
    split
    · simpa [Item.isThread] using filter_caseItems type (i + 1) vs
    · rfl

/-- The recipe of a thread node starts one thread, and no other recipe starts any. -/
theorem filter_isThread (r : Recipe) : (r.outline x n).items.filter Item.isThread = [] ∨
    r = .thread ∧ ∃ isConnected, (r.outline x n).items.filter Item.isThread =
      [.thread "body" (Name.threadFunction n.node.id) isConnected] := by
  cases r with
  | thread => exact .inr ⟨rfl, _, rfl⟩
  | switch type =>
    have hswitch : ∀ cases, (switchItems type x n cases).filter Item.isThread = [] := by
      intro cases
      simp only [switchItems, List.filter_append, filter_caseItems]
      split <;> rfl
    simp only [outline]
    split <;> exact .inl (hswitch _)
  | constant type key output => simp only [outline]; split <;> exact .inl rfl
  | branch => simp only [outline]; split <;> exact .inl rfl
  | statement lines =>
    refine .inl ?_
    simp [outline, Item.isThread, List.filter_map, Function.comp_def]
  | sequence =>
    refine .inl ?_
    simp [outline, Item.isThread, List.filter_map, Function.comp_def]
  | _ => exact .inl rfl

/-- A node starts one thread at most. -/
theorem count_starters (r : Recipe) (owner a : String) :
    (Item.starters owner (Outline.splitTail (r.outline x n).items).1).count a ≤
      [owner].count a := by
  have hsub := (Flow.splitTail_sublist (r.outline x n).items).filter Item.isThread
  refine ((hsub.map fun _ => owner).count_le a).trans ?_
  rcases filter_isThread (x := x) (n := n) r with h | ⟨-, _, h⟩ <;> simp [h]

/-- Only thread nodes have the recipe of a thread. -/
theorem eq_thread_of_ofType? {nodeType : String} (h : ofType? nodeType = some .thread) :
    nodeType = "thread" := by
  have htable : ∀ e ∈ Table.all, (match e.2 with | .thread => true | _ => false) = true →
      e.1 = "thread" := by decide +kernel
  exact htable (nodeType, .thread) (Assoc.mem_of_lookup h) rfl

theorem starts_of_mem {id : String} {r : Recipe} (hid : n.node.id = id) (hn : x.node? id = some n)
    (hr : ofType? n.node.nodeType = some r) {port name : String} {isConnected : Bool}
    (hm : .thread port name isConnected ∈ (r.outline x n).items) : x.Starts (id, name) := by
  have hfilter := List.mem_filter.mpr ⟨hm, (rfl : Item.isThread _ = true)⟩
  rcases filter_isThread (x := x) (n := n) r with h | ⟨rfl, _, h⟩
  · rw [h] at hfilter
    cases hfilter
  · rw [h, hid] at hfilter
    cases List.mem_singleton.mp hfilter
    exact ⟨rfl, n, hn, hr⟩

end Recipe

/-! ### The threads of a flow -/

mutual

/-- The threads of a chain are started by thread nodes of it, one by each. -/
theorem Chain.Written.starts {x : Index} (hid : ∀ {id n}, x.node? id = some n → n.node.id = id) :
    ∀ {c : Chain} {code : Code}, c.Written code → c.Laid x →
      (∀ e ∈ code.starts, x.Starts e) ∧
        ∀ a, (code.starts.map Prod.fst).count a ≤ c.nodes.count a
  | _, _, .done, _ => by simp [Code.starts]
  | _, _, @Chain.Written.step id own rest before code after _ _ hb hp hc,
    @Chain.Laid.step _ _ n r _ _ hn _ _ hr hlp hlc => by
    obtain ⟨hs₁, hc₁⟩ := hp.starts hid hlp fun hm =>
      Recipe.starts_of_mem (hid hn) hn hr (Flow.mem_of_mem_splitTail hm)
    obtain ⟨hs₂, hc₂⟩ := hc.starts hid hlc
    simp only [Code.starts_append, hb.starts_eq, Code.starts, List.nil_append]
    refine ⟨List.forall_mem_append.mpr ⟨hs₁, hs₂⟩, fun a => ?_⟩
    have h₁ := hc₁ a
    have h₂ := hc₂ a
    have hone := Recipe.count_starters (x := x) (n := n) r id a
    simp only [Chain.nodes, List.map_append, List.count_append, List.count_cons,
      List.count_nil] at hone ⊢
    omega

/-- The items of a node start threads for it, one by each item, and those of their chains. -/
theorem Parts.Written.starts {x : Index} (hid : ∀ {id n}, x.node? id = some n → n.node.id = id) :
    ∀ {owner : String} {items : List Item} {p : Parts} {code : Code}, p.Written owner code →
      p.Laid x items →
      (∀ {port name isConnected}, .thread port name isConnected ∈ items → x.Starts (owner, name)) →
      (∀ e ∈ code.starts, x.Starts e) ∧
        ∀ a, (code.starts.map Prod.fst).count a ≤
          (Item.starters owner items).count a + p.nodes.count a
  | _, _, _, _, .done, _, _ => by simp [Code.starts]
  | _, _, _, _, .line _ _ h, .line _ hl, hitems => by
    obtain ⟨hs, hc⟩ := h.starts hid hl fun hm => hitems (.tail _ hm)
    exact ⟨hs, hc⟩
  | _, _, _, _, .named _ _ _ h, .thread _ _ _ _ hl, hitems => by
    obtain ⟨hs, hc⟩ := h.starts hid hl fun hm => hitems (.tail _ hm)
    refine ⟨hs, fun a => (hc a).trans ?_⟩
    simp only [Parts.nodes, Item.starters, List.filter_cons, Item.isThread, if_true,
      List.map_cons, List.count_append, List.count_cons]
    omega
  | _, _, _, _, .follow hb h, .follow _ hlb hl, hitems => by
    obtain ⟨hs₁, hc₁⟩ := hb.starts hid hlb
    obtain ⟨hs₂, hc₂⟩ := h.starts hid hl fun hm => hitems (.tail _ hm)
    rw [Code.starts_append]
    refine ⟨List.forall_mem_append.mpr ⟨hs₁, hs₂⟩, fun a => ?_⟩
    have h₁ := hc₁ a
    have h₂ := hc₂ a
    simp only [Parts.nodes, List.map_append, List.count_append]
    exact (Nat.add_le_add h₁ h₂).trans (by rw [Nat.add_left_comm]; rfl)
  | _, _, _, _, .block port _ _ hb h, .block _ _ _ hlb hl, hitems => by
    obtain ⟨hs₁, hc₁⟩ := hb.starts hid hlb
    obtain ⟨hs₂, hc₂⟩ := h.starts hid hl fun hm => hitems (.tail _ hm)
    simp only [Code.starts, Code.starts_append, Code.starts_ofLines, List.append_nil]
    refine ⟨List.forall_mem_append.mpr ⟨hs₁, hs₂⟩, fun a => ?_⟩
    have h₁ := hc₁ a
    have h₂ := hc₂ a
    simp only [Parts.nodes, List.map_append, List.count_append]
    exact (Nat.add_le_add h₁ h₂).trans (by rw [Nat.add_left_comm]; rfl)
  | _, _, _, _, .thread port _ _ hb h, .thread _ _ _ hlb hl, hitems => by
    obtain ⟨hs₁, hc₁⟩ := hb.starts hid hlb
    obtain ⟨hs₂, hc₂⟩ := h.starts hid hl fun hm => hitems (.tail _ hm)
    rw [Code.starts]
    refine ⟨List.forall_mem_append.mpr ⟨hs₁, List.forall_mem_cons.mpr ⟨hitems (.head _), hs₂⟩⟩,
      fun a => ?_⟩
    have h₁ := hc₁ a
    have h₂ := hc₂ a
    simp only [Item.starters] at h₂
    simp only [Parts.nodes, Item.starters, List.filter_cons, Item.isThread, if_true,
      List.map_cons, List.map_append, List.count_append, List.count_cons]
    omega

end

/-! ### The functions of a script -/

namespace EntryFunction

/-- The names of the functions that are defined for an entry: its own and those of its threads. -/
def functionNames (f : EntryFunction) : List String := f.name :: f.body.threads.map (·.name)

/-- The nodes that have a thread function in the code of an entry. -/
def threadNodes (f : EntryFunction) : List String := f.body.starts.map Prod.fst

theorem name_of_make {x : Index} {moduleId : String} {n : PlacedNode} {flow : Parts}
    {f : EntryFunction} (h : make x moduleId n flow = .ok f) : f.name = nameOf moduleId n := by
  unfold make at h
  obtain ⟨_, -, h⟩ := bind_eq_ok.mp h
  obtain ⟨_, -, h⟩ := bind_eq_ok.mp h
  cases h
  rfl

theorem functionNames_eq {x : Index} {moduleId : String} {f : EntryFunction}
    (hname : f.name = nameOf moduleId f.entry) (hstarts : ∀ e ∈ f.body.starts, x.Starts e) :
    f.functionNames = nameOf moduleId f.entry :: f.threadNodes.map Name.threadFunction := by
  have hthreads : f.body.starts.map Prod.snd =
      (f.body.starts.map Prod.fst).map Name.threadFunction := by
    rw [List.map_map]
    exact List.map_congr_left fun e he => (hstarts e he).1
  rw [functionNames, threadNodes, hname, ← Code.map_snd_starts, hthreads]

end EntryFunction

namespace Name

/-- What stands for a character in the name of a thread function. -/
def squash (c : Char) : Char := if isAsciiAlphanumeric c then c else '_'

theorem threadFunction_eq_iff {a b : String} :
    threadFunction a = threadFunction b ↔ a.toList.map squash = b.toList.map squash := by
  constructor
  · intro h
    have h := congrArg String.toList h
    simp only [threadFunction, String.toList_append, String.toList_ofList] at h
    exact List.append_cancel_left h
  · intro h
    exact congrArg (fun cs => "__Thread_" ++ String.ofList cs) h

end Name

namespace Script

variable {nodes : List Node} {connections : List Connection} {x : Index} {moduleId : String}
  {fs : List EntryFunction}

/-- A function has the name of its entry, and its threads are started by nodes it has code of. -/
theorem starts_of_functions (hb : Index.Built .builtin nodes connections x)
    (h : functions x moduleId = .ok fs) {f : EntryFunction} (hf : f ∈ fs) :
    f.name = EntryFunction.nameOf moduleId f.entry ∧ (∀ e ∈ f.body.starts, x.Starts e) ∧
      ∀ a, f.threadNodes.count a ≤ f.nodes.count a := by
  obtain ⟨⟨n, flow⟩, hflow, hmake⟩ := exists_of_mem_mapM h hf
  obtain ⟨_, _, _, -, hwalk, hentry, -⟩ := EntryFunction.make_ok hmake
  have hwritten := ((writing x _ hb.node_id).parts flow hwalk).2
  have hlaid := (flows_entries hb).1 _ hflow
  have hnodes : f.nodes = flow.nodes := by
    rw [EntryFunction.nodes, EntryFunction.visits_of_walk hb (flows_idle hflow) hwalk,
      Parts.visits_map_snd]
  -- an entry goes on with its outputs and starts no thread itself
  have hnone : Item.starters n.node.id (Flow.entryItems n) = [] := by
    simp [Item.starters, Flow.entryItems, Item.isThread, List.filter_map, Function.comp_def]
  obtain ⟨hstarts, hcount⟩ := hwritten.starts hb.node_id hlaid (by simp [Flow.entryItems])
  refine ⟨hentry ▸ EntryFunction.name_of_make hmake, hstarts, fun a => ?_⟩
  have h := hcount a
  rw [hnone, List.count_nil, Nat.zero_add] at h
  rwa [hnodes]

/-- No node has two thread functions. -/
theorem threadNodes_nodup (hb : Index.Built .builtin nodes connections x)
    (h : functions x moduleId = .ok fs) : (fs.flatMap (·.threadNodes)).Nodup := by
  refine List.nodup_iff_count_le_one.mpr fun a => ?_
  have hnodes := List.nodup_iff_count_le_one.mp (functions_nodup hb h) a
  rw [List.count_flatMap] at hnodes ⊢
  exact (List.sum_le_sum fun f hf => (starts_of_functions hb h hf).2.2 a).trans hnodes

/-- The functions of a script belong to nodes of its graph: one to each entry node, in the order of
the graph, and at most one to each thread node. -/
structure Owned (nodes : List Node) (moduleId : String) (fs : List EntryFunction) : Prop where
  entries : fs.map (·.entry.node) = nodes.filter (·.isEntry .builtin)
  threads : ∀ id ∈ fs.flatMap (·.threadNodes), ∃ node ∈ nodes, node.id = id ∧
    node.nodeType = "thread"
  once    : (fs.flatMap (·.threadNodes)).Nodup
  names   : ∀ f ∈ fs, f.functionNames =
    EntryFunction.nameOf moduleId f.entry :: f.threadNodes.map Name.threadFunction

/-- The nodes to which the functions belong have different names. -/
structure Apart (moduleId : String) (fs : List EntryFunction) : Prop where
  entries : (fs.map fun f => EntryFunction.nameOf moduleId f.entry).Nodup
  threads : ∀ a ∈ fs.flatMap (·.threadNodes), ∀ b ∈ fs.flatMap (·.threadNodes),
    a.toList.map Name.squash = b.toList.map Name.squash → a = b
  mixed   : ∀ f ∈ fs, ∀ id ∈ fs.flatMap (·.threadNodes),
    EntryFunction.nameOf moduleId f.entry ≠ Name.threadFunction id

theorem owned (hb : Index.Built .builtin nodes connections x)
    (h : functions x moduleId = .ok fs) : Owned nodes moduleId fs where
  entries := by
    rw [← Graph.entries_map_node hb, ← flows_map_fst x x.entries {}, List.map_map]
    exact map_eq_of_forall₂ (functions_of_flows hb h) fun hof => by rw [hof.entry]; rfl
  threads id hid := by
    obtain ⟨f, hf, hid⟩ := List.mem_flatMap.mp hid
    obtain ⟨e, he, rfl⟩ := List.mem_map.mp hid
    obtain ⟨-, n, hn, hr⟩ := (starts_of_functions hb h hf).2.1 e he
    exact ⟨n.node, Graph.mem_nodes hb hn, hb.node_id hn, Recipe.eq_thread_of_ofType? hr⟩
  once := threadNodes_nodup hb h
  names f hf :=
    let ⟨hname, hstarts, _⟩ := starts_of_functions hb h hf
    EntryFunction.functionNames_eq hname hstarts

/-- Functions have different names if their nodes have, and only then. -/
theorem nodup_functionNames (hnames : ∀ f ∈ fs, f.functionNames =
      EntryFunction.nameOf moduleId f.entry :: f.threadNodes.map Name.threadFunction)
    (honce : (fs.flatMap (·.threadNodes)).Nodup) :
    (fs.flatMap (·.functionNames)).Nodup ↔ Apart moduleId fs := by
  have hperm : (fs.flatMap (·.functionNames)).Perm
      (fs.map (fun f => EntryFunction.nameOf moduleId f.entry) ++
        (fs.flatMap (·.threadNodes)).map Name.threadFunction) := by
    rw [List.flatMap_congr hnames, List.map_flatMap]
    exact (List.map_append_flatMap_perm _ _ _).symm
  rw [hperm.nodup_iff, List.nodup_append, List.nodup_map_iff_inj_on honce]
  constructor
  · rintro ⟨hentries, hthreads, hmixed⟩
    refine ⟨hentries, fun a ha b hb hab => ?_, fun f hf id hid => ?_⟩
    · exact hthreads a ha b hb (Name.threadFunction_eq_iff.mpr hab)
    · exact hmixed _ (List.mem_map_of_mem hf) _ (List.mem_map_of_mem hid)
  · intro h
    refine ⟨h.entries, fun a ha b hb hab => ?_, ?_⟩
    · exact h.threads a ha b hb (Name.threadFunction_eq_iff.mp hab)
    · simp only [List.forall_mem_map]
      exact h.mixed

/-- **Two functions have the same name where two nodes have.**  Every function of a script belongs
to one node, and no node has two.  So the functions of some entries, such as those under one guard,
have different names if and only if the entries are given different names, the ids of their thread
nodes stay different with underscores in place of other characters than letters and digits, and no
entry is named as the function of one of these nodes. -/
theorem function_names {indent text : String}
    (hgen : generate .builtin indent moduleId nodes connections = .ok text) :
    nodes = [] ∨ ∃ x fs, Index.build .builtin nodes connections = .ok x ∧
      functions x moduleId = .ok fs ∧ text = Script.text indent moduleId fs ∧
      Owned nodes moduleId fs ∧ ∀ keep : EntryFunction → Bool,
        (((fs.filter keep).flatMap (·.functionNames)).Nodup ↔ Apart moduleId (fs.filter keep)) := by
  by_cases hne : nodes = []
  · exact .inl hne
  refine .inr ?_
  cases hbuild : Index.build .builtin nodes connections with
  | error f =>
    rw [generate, if_neg (by simpa using hne), hbuild] at hgen
    cases hgen
  | ok x =>
    obtain ⟨fs, hfs, htext⟩ := functions_of_generate hbuild hgen
    have howned := owned (Index.built_of_build hbuild) hfs
    refine ⟨x, fs, rfl, hfs, htext hne, howned, fun keep => ?_⟩
    refine nodup_functionNames (fun f hf => howned.names f (List.mem_filter.mp hf).1) ?_
    exact howned.once.sublist (List.filter_sublist.flatMap _)

/-- The script of the graph defines functions of these names, none of them under a guard. -/
def Defines (nodes : List Node) (connections : List Connection) (names : List String) : Prop :=
  ∃ x fs, Index.build .builtin nodes connections = .ok x ∧ functions x "demo" = .ok fs ∧
    generate .builtin "\t" "demo" nodes connections = .ok (Script.text "\t" "demo" fs) ∧
    (∀ f ∈ fs, Definition.initContext? f.entry.definition.nodeType = none) ∧
    fs.flatMap (·.functionNames) = names

theorem defines_of_run {names : List String} (hne : nodes ≠ [])
    (key : (Index.build .builtin nodes connections).toOption.any (fun x =>
      (functions x "demo").toOption.any fun fs => fs.flatMap (·.functionNames) == names &&
        fs.all fun f => (Definition.initContext? f.entry.definition.nodeType).isNone) = true) :
    Defines nodes connections names := by
  obtain ⟨x, fs, hx, hfs, htext, key⟩ := exists_of_run hne key "\t"
  simp only [Bool.and_eq_true, beq_iff_eq, List.all_eq_true, Option.isNone_iff_eq_none] at key
  exact ⟨x, fs, hx, hfs, htext, key.2, key.1⟩

/-- An event that starts a thread, which starts another one. -/
def relayNodes : List Node :=
  [{ id := "start", nodeType := "event" }, { id := "first", nodeType := "thread" },
   { id := "second", nodeType := "thread" }]

def relayConnections : List Connection :=
  [⟨"c0", ⟨"start", "output_0"⟩, ⟨"first", "input_0"⟩⟩,
   ⟨"c1", ⟨"first", "output_0"⟩, ⟨"second", "input_0"⟩⟩]

theorem function_names_relay : ∃ x fs text,
    generate .builtin "\t" "demo" relayNodes relayConnections = .ok text ∧
      Index.build .builtin relayNodes relayConnections = .ok x ∧ functions x "demo" = .ok fs ∧
      Owned relayNodes "demo" fs ∧ Apart "demo" fs ∧
      fs.flatMap (·.functionNames) = ["event_handler", "__Thread_second", "__Thread_first"] := by
  have hrun : Defines relayNodes relayConnections
      ["event_handler", "__Thread_second", "__Thread_first"] :=
    defines_of_run (by simp [relayNodes]) (by
      rw [Index.build, Index.addNode_builtin]
      decide +kernel)
  obtain ⟨x, fs, hx, hfs, htext, -, hnames⟩ := hrun
  obtain h | ⟨x', fs', hx', hfs', -, howned, hiff⟩ := function_names htext
  · simp [relayNodes] at h
  obtain rfl := Except.ok.inj (hx.symm.trans hx')
  obtain rfl := Except.ok.inj (hfs.symm.trans hfs')
  have hapart := hiff fun _ => true
  rw [List.filter_true, hnames] at hapart
  exact ⟨x, fs, _, htext, hx, hfs, howned, hapart.mp (by decide), hnames⟩

/-! ### Names that are used twice -/

/-- Two threads whose ids differ in a character that no function name has. -/
def twinNodes : List Node :=
  [{ id := "start", nodeType := "event" }, { id := "a-b", nodeType := "thread" },
   { id := "a_b", nodeType := "thread" }]

def twinConnections : List Connection :=
  [⟨"c0", ⟨"start", "output_0"⟩, ⟨"a-b", "input_0"⟩⟩,
   ⟨"c1", ⟨"a-b", "output_1"⟩, ⟨"a_b", "input_0"⟩⟩]

/-- An event that is named as the function of the thread it starts. -/
def mimicNodes : List Node :=
  [{ id := "start", nodeType := "event", data := [("functionName", .str "__Thread_job")] },
   { id := "job", nodeType := "thread" }]

/-- Two threads, two events, and an event and a thread whose functions have the same name. -/
theorem names_used_twice :
    Defines twinNodes twinConnections ["event_handler", "__Thread_a_b", "__Thread_a_b"] ∧
    Defines [{ id := "one", nodeType := "event" }, { id := "two", nodeType := "event" }] []
      ["event_handler", "event_handler"] ∧
    Defines mimicNodes [⟨"c0", ⟨"start", "output_0"⟩, ⟨"job", "input_0"⟩⟩]
      ["__Thread_job", "__Thread_job"] := by
  refine ⟨defines_of_run (by simp [twinNodes]) ?_, defines_of_run (by simp) ?_,
    defines_of_run (by simp [mimicNodes]) ?_⟩
  all_goals
    rw [Index.build, Index.addNode_builtin]
    decide +kernel

end Script

end VisualScript
