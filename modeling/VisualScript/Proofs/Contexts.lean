import VisualScript.Proofs.Layout
import VisualScript.Proofs.Manifests
import VisualScript.Proofs.Walking

/-!
# Proofs — Contexts

The machines a script is registered for.  `Definition.Requires` says what a node type asks for, rule
by rule, and `ScriptContext.Needed` what the nodes of a list ask for together.  The flags of a
context are read one at a time (`ScriptContext.flag`), so that the union over a list of nodes is a
disjunction (`flag_foldl_union`).

* `ScriptContext.mem_contexts_ofNodes`: the context of a list of nodes is what its nodes need, or
  server and client if they need nothing.
* `ScriptContext.context_spec`: so it depends on the set of node types alone, and it has every
  machine that a guard of the generated script names.
-/

namespace VisualScript

/-- The text occurs in another where it stands between a beginning and an end of it. -/
theorem Text.occursIn_iff {part : List Char} : ∀ {cs : List Char},
    occursIn part cs = true ↔ part <:+: cs
  | [] => by
    rw [occursIn, position?, List.infix_nil]
    split <;> simp_all
  | c :: cs => by
    rw [List.infix_cons_iff, ← List.isPrefixOf_iff_prefix, ← occursIn_iff, occursIn, position?]
    split
    case isTrue hfront => simp [hfront]
    case isFalse hfront => simp [hfront, occursIn]

/-- What a node type asks for. -/
inductive Definition.Requires (d : Definition) : RunContext → Prop where
  | declared {c : RunContext} (h : c ∈ d.contexts) : Requires d c
  | serverOnly (h : d.serverOnly = true) : Requires d .server
  | clientOnly (h : d.clientOnly = true) : Requires d .client
  | uiOnly (h : d.uiOnly = true) : Requires d .ui
  /-- The type is that of a start-up node, in letters of any case. -/
  | startUp {c : RunContext} (h : initContext? (Text.lowercase d.nodeType) = some c) : Requires d c
  | interface (h : d.category = "ui") : Requires d .ui
  | serverName {fragment : String} (h : fragment ∈ ["spawn", "gamemode"])
      (occurs : fragment.toList <:+: (Text.lowercase d.nodeType).toList) : Requires d .server
  | clientName {fragment : String} (h : fragment ∈ ["localplayer", "get-local-client-player"])
      (occurs : fragment.toList <:+: (Text.lowercase d.nodeType).toList) : Requires d .client

theorem RunContext.name_injective : Function.Injective name := by
  intro a b h
  cases a <;> cases b <;> simp_all [name]

theorem Definition.initContext?_eq_some {t : String} {c : RunContext} :
    initContext? t = some c ↔
      (t, c) ∈ [("init-server", RunContext.server), ("init-client", .client), ("init-ui", .ui)] :=
  ⟨Assoc.mem_of_lookup, Assoc.lookup_of_mem (by decide)⟩

/-- A start-up type is written in small letters. -/
theorem Definition.initContext?_lowercase {t : String} {c : RunContext}
    (h : initContext? t = some c) : initContext? (Text.lowercase t) = some c := by
  have hmem := initContext?_eq_some.mp h
  simp only [List.mem_cons, Prod.mk.injEq, List.not_mem_nil, or_false] at hmem
  rcases hmem with ⟨rfl, rfl⟩ | ⟨rfl, rfl⟩ | ⟨rfl, rfl⟩ <;> decide +kernel

namespace ScriptContext

variable {s : ScriptContext} {c : RunContext} {d : Definition} {catalog : Catalog}
  {nodes : List Node}

/-- The flag of one machine. -/
def flag (s : ScriptContext) : RunContext → Bool
  | .server => s.server
  | .client => s.client
  | .ui     => s.ui

theorem mem_contexts : c ∈ s.contexts ↔ s.flag c = true := by
  cases c <;> simp [contexts, flag]

theorem ext_flag {s s' : ScriptContext} (h : ∀ c, s.flag c = s'.flag c) : s = s' := by
  obtain ⟨_, _, _⟩ := s
  obtain ⟨_, _, _⟩ := s'
  obtain rfl := h .server
  obtain rfl := h .client
  obtain rfl := h .ui
  rfl

theorem flag_union (a b : ScriptContext) (c : RunContext) :
    (a.union b).flag c = (a.flag c || b.flag c) := by
  cases c <;> rfl

theorem flag_foldl_union (c : RunContext) (ds : List Definition) (s : ScriptContext) :
    (ds.foldl (fun s d => s.union (ofDefinition d)) s).flag c =
      (s.flag c || ds.any fun d => (ofDefinition d).flag c) := by
  induction ds generalizing s with
  | nil => simp
  | cons d ds ih => rw [List.foldl_cons, ih, flag_union, List.any_cons, Bool.or_assoc]

theorem flag_server : (ofDefinition d).flag .server = true ↔
    .server ∈ d.contexts ∨ d.serverOnly = true ∨ Text.lowercase d.nodeType = "init-server" ∨
      ∃ fragment ∈ ["spawn", "gamemode"],
        fragment.toList <:+: (Text.lowercase d.nodeType).toList := by
  simp only [flag, ofDefinition, Bool.or_eq_true, List.contains_iff_mem, beq_iff_eq,
    List.any_eq_true, Text.occursIn_iff, or_assoc]

theorem flag_client : (ofDefinition d).flag .client = true ↔
    .client ∈ d.contexts ∨ d.clientOnly = true ∨ Text.lowercase d.nodeType = "init-client" ∨
      ∃ fragment ∈ ["localplayer", "get-local-client-player"],
        fragment.toList <:+: (Text.lowercase d.nodeType).toList := by
  simp only [flag, ofDefinition, Bool.or_eq_true, List.contains_iff_mem, beq_iff_eq,
    List.any_eq_true, Text.occursIn_iff, or_assoc]

theorem flag_ui : (ofDefinition d).flag .ui = true ↔
    .ui ∈ d.contexts ∨ d.uiOnly = true ∨ Text.lowercase d.nodeType = "init-ui" ∨
      d.category = "ui" := by
  simp only [flag, ofDefinition, Bool.or_eq_true, List.contains_iff_mem, beq_iff_eq, or_assoc]

/-- The flags of a node type are what it asks for. -/
theorem flag_ofDefinition : (ofDefinition d).flag c = true ↔ d.Requires c := by
  constructor
  · intro h
    cases c with
    | server =>
      rcases flag_server.mp h with h | h | h | ⟨fragment, hmem, h⟩
      · exact .declared h
      · exact .serverOnly h
      · exact .startUp (by rw [h]; rfl)
      · exact .serverName hmem h
    | client =>
      rcases flag_client.mp h with h | h | h | ⟨fragment, hmem, h⟩
      · exact .declared h
      · exact .clientOnly h
      · exact .startUp (by rw [h]; rfl)
      · exact .clientName hmem h
    | ui =>
      rcases flag_ui.mp h with h | h | h | h
      · exact .declared h
      · exact .uiOnly h
      · exact .startUp (by rw [h]; rfl)
      · exact .interface h
  · intro h
    cases h with
    | declared h =>
      cases c with
      | server => exact flag_server.mpr (.inl h)
      | client => exact flag_client.mpr (.inl h)
      | ui => exact flag_ui.mpr (.inl h)
    | serverOnly h => exact flag_server.mpr (.inr (.inl h))
    | clientOnly h => exact flag_client.mpr (.inr (.inl h))
    | uiOnly h => exact flag_ui.mpr (.inr (.inl h))
    | startUp h =>
      have hmem := Definition.initContext?_eq_some.mp h
      simp only [List.mem_cons, Prod.mk.injEq, List.not_mem_nil, or_false] at hmem
      rcases hmem with ⟨htype, rfl⟩ | ⟨htype, rfl⟩ | ⟨htype, rfl⟩
      · exact flag_server.mpr (.inr (.inr (.inl htype)))
      · exact flag_client.mpr (.inr (.inr (.inl htype)))
      · exact flag_ui.mpr (.inr (.inr (.inl htype)))
    | interface h => exact flag_ui.mpr (.inr (.inr (.inr h)))
    | serverName hmem h => exact flag_server.mpr (.inr (.inr (.inr ⟨_, hmem, h⟩)))
    | clientName hmem h => exact flag_client.mpr (.inr (.inr (.inr ⟨_, hmem, h⟩)))

/-- Some node of a list is of a known type that asks for the machine. -/
def Needed (catalog : Catalog) (nodes : List Node) (c : RunContext) : Prop :=
  ∃ n ∈ nodes, ∃ d, catalog.find? n.nodeType = some d ∧ d.Requires c

/-- **The context of a list of nodes**: what they need, or else server and client. -/
theorem mem_contexts_ofNodes :
    c ∈ (ofNodes catalog nodes).contexts ↔ Needed catalog nodes c ∨
      (∀ c', ¬ Needed catalog nodes c') ∧ (c = .server ∨ c = .client) := by
  have hflag : ∀ c, ((nodes.filterMap fun n => catalog.find? n.nodeType).foldl
      (fun s d => s.union (ofDefinition d)) ({} : ScriptContext)).flag c = true ↔
        Needed catalog nodes c := by
    intro c
    have hempty : ({} : ScriptContext).flag c = false := by cases c <;> rfl
    simp only [flag_foldl_union, hempty, Bool.false_or, List.any_eq_true, List.mem_filterMap,
      flag_ofDefinition, Needed]
    constructor
    · rintro ⟨d, ⟨n, hn, hd⟩, h⟩
      exact ⟨n, hn, d, hd, h⟩
    · rintro ⟨n, hn, d, hd, h⟩
      exact ⟨d, ⟨n, hn, hd⟩, h⟩
  rw [ofNodes]
  generalize (nodes.filterMap fun n => catalog.find? n.nodeType).foldl
    (fun s d => s.union (ofDefinition d)) ({} : ScriptContext) = all at hflag
  split
  case isTrue h =>
    have hnone : ∀ c', ¬ Needed catalog nodes c' := by
      intro c' hc'
      have hmem := mem_contexts.mpr ((hflag c').mpr hc')
      rw [List.isEmpty_iff.mp h] at hmem
      cases hmem
    have hdefault : c ∈ ({ server := true, client := true } : ScriptContext).contexts ↔
        c = .server ∨ c = .client := by cases c <;> decide
    rw [hdefault]
    exact ⟨fun hc => .inr ⟨hnone, hc⟩, fun hc => hc.elim (fun hc => absurd hc (hnone c)) (·.2)⟩
  case isFalse h =>
    obtain ⟨c', hc'⟩ := List.exists_mem_of_ne_nil _ (by simpa using h)
    have hsome : Needed catalog nodes c' := (hflag c').mp (mem_contexts.mp hc')
    rw [mem_contexts, hflag]
    exact ⟨.inl, fun hc => hc.elim id fun hc => absurd hsome (hc.1 c')⟩

/-- Which types the nodes are of is all that counts. -/
theorem Needed.of_types {nodes nodes' : List Node}
    (h : ∀ n ∈ nodes, ∃ n' ∈ nodes', n'.nodeType = n.nodeType) (hc : Needed catalog nodes c) :
    Needed catalog nodes' c := by
  obtain ⟨n, hn, d, hd, hreq⟩ := hc
  obtain ⟨n', hn', htype⟩ := h n hn
  exact ⟨n', hn', d, htype ▸ hd, hreq⟩

theorem ofNodes_eq_of_types {nodes nodes' : List Node}
    (h : ∀ n ∈ nodes, ∃ n' ∈ nodes', n'.nodeType = n.nodeType)
    (h' : ∀ n' ∈ nodes', ∃ n ∈ nodes, n.nodeType = n'.nodeType) :
    ofNodes catalog nodes = ofNodes catalog nodes' := by
  have hneeded : ∀ c, Needed catalog nodes c ↔ Needed catalog nodes' c :=
    fun c => ⟨.of_types h, .of_types h'⟩
  refine ext_flag fun c => Bool.eq_iff_iff.mpr ?_
  rw [← mem_contexts, ← mem_contexts, mem_contexts_ofNodes, mem_contexts_ofNodes]
  simp only [hneeded]

/-- A clause that is not the default one lists the machines of the context. -/
theorem clause_eq (h : c ∈ s.contexts) :
    s.clause = " || ".intercalate (s.contexts.map (·.name)) := by
  rw [clause, if_neg]
  rw [List.isEmpty_iff]
  exact List.ne_nil_of_mem h

end ScriptContext

namespace EntryFunction

/-- Only a start-up function stands under a guard. -/
theorem initContext?_of_guard {indent : String} {f : EntryFunction} {c : RunContext}
    (h : (f.render indent).head? = some ("#if " ++ c.name)) :
    Definition.initContext? f.entry.definition.nodeType = some c := by
  rw [render] at h
  cases hc : Definition.initContext? f.entry.definition.nodeType with
  | some c' =>
    rw [hc] at h
    have hname : c'.name = c.name := by simpa using h
    rw [RunContext.name_injective hname]
  | none =>
    -- a label follows `//`
    rw [hc] at h
    have hfirst := congrArg (fun o => o.map fun s : String => s.toList.head?) h
    simp at hfirst

end EntryFunction

namespace Script

variable {catalog : Catalog} {nodes : List Node} {connections : List Connection} {moduleId : String}

/-- The entry of a function of a script is a node of its graph, with its definition. -/
theorem entry_of_functions {x : Index} (hb : Index.Built catalog nodes connections x)
    {fs : List EntryFunction} (hfs : functions x moduleId = .ok fs) {f : EntryFunction}
    (hf : f ∈ fs) : f.entry.node ∈ nodes ∧
      catalog.find? f.entry.node.nodeType = some f.entry.definition := by
  obtain ⟨⟨n, flow⟩, hflow, hmake⟩ := exists_of_mem_mapM hfs hf
  obtain ⟨-, -, -, -, -, hentry, -⟩ := EntryFunction.make_ok hmake
  obtain ⟨hn, -⟩ := (mem_entries hb).mp (mem_of_mem_flows hflow)
  have hplaced := Index.mem_placed hn
  rw [hentry]
  exact ⟨hb.nodes ▸ List.mem_map.mpr ⟨_, hplaced, rfl⟩, hb.known hplaced⟩

/-- The text in a report is the generated one. -/
theorem generate_of_report {indent moduleId code : String} {r : Report}
    (h : report catalog indent moduleId nodes connections = .ok r) (hcode : r.result = .ok code) :
    generate catalog indent moduleId nodes connections = .ok code := by
  rw [report] at h
  split at h
  case h_1 code' hgen =>
    cases h
    cases hcode
    exact hgen
  case h_2 =>
    cases h
    cases hcode
  case h_3 => cases h

/-- A machine that a guard names is needed by the entry under the guard. -/
theorem needed_of_guard {x : Index} (hb : Index.Built catalog nodes connections x)
    {indent moduleId : String} {fs : List EntryFunction} (hfs : functions x moduleId = .ok fs)
    {f : EntryFunction} (hf : f ∈ fs) {c : RunContext}
    (hguard : (f.render indent).head? = some ("#if " ++ c.name)) :
    ScriptContext.Needed catalog nodes c := by
  obtain ⟨hn, hd⟩ := entry_of_functions hb hfs hf
  have hinit := EntryFunction.initContext?_of_guard hguard
  exact ⟨_, hn, _, hd, .startUp (Definition.initContext?_lowercase hinit)⟩

end Script

namespace ScriptContext

/-- **The context of a script is what its nodes need, and it covers the guards.**  A machine is in
the context of a list of nodes if a node of a known type asks for it, or if it is server or client
and no node asks for any.  The order of the nodes and repeated ones do not count.  When the script
of the nodes is generated, every machine that stands in a guard around one of its functions is
listed in the clause under which the script is registered. -/
theorem context_spec (catalog : Catalog) (nodes : List Node) :
    (∀ c, c ∈ (ofNodes catalog nodes).contexts ↔ Needed catalog nodes c ∨
      (∀ c', ¬ Needed catalog nodes c') ∧ (c = .server ∨ c = .client)) ∧
    (∀ nodes' : List Node, (∀ t, t ∈ nodes.map (·.nodeType) ↔ t ∈ nodes'.map (·.nodeType)) →
      ofNodes catalog nodes = ofNodes catalog nodes') ∧
    ∀ (indent moduleId : String) (connections : List Connection) (r : Script.Report)
      (code : String),
      Script.report catalog indent moduleId nodes connections = .ok r → r.result = .ok code →
      r.context = ofNodes catalog nodes ∧
      (nodes = [] ∧ code = Script.emptyText ∨
        ∃ x fs, Index.build catalog nodes connections = .ok x ∧
          Script.functions x moduleId = .ok fs ∧ code = Script.text indent moduleId fs ∧
          ∀ f ∈ fs, ∀ c : RunContext, (f.render indent).head? = some ("#if " ++ c.name) →
            c ∈ r.context.contexts ∧
            r.context.clause = " || ".intercalate (r.context.contexts.map (·.name))) := by
  refine ⟨fun c => mem_contexts_ofNodes, fun nodes' h => ofNodes_eq_of_types ?_ ?_, ?_⟩
  · intro n hn
    exact List.mem_map.mp ((h _).mp (List.mem_map_of_mem hn))
  · intro n hn
    exact List.mem_map.mp ((h _).mpr (List.mem_map_of_mem hn))
  · intro indent moduleId connections r code hreport hresult
    have hcontext := Script.context_report hreport
    have hgen := Script.generate_of_report hreport hresult
    refine ⟨hcontext, ?_⟩
    by_cases hne : nodes = []
    · subst hne
      exact .inl ⟨rfl, (Except.ok.inj hgen).symm⟩
    refine .inr ?_
    cases hbuild : Index.build catalog nodes connections with
    | error f =>
      rw [Script.generate, if_neg (by simpa using hne), hbuild] at hgen
      cases hgen
    | ok x =>
      obtain ⟨fs, hfs, htext⟩ := Script.functions_of_generate hbuild hgen
      refine ⟨x, fs, rfl, hfs, htext hne, fun f hf c hguard => ?_⟩
      have hc : c ∈ r.context.contexts := by
        rw [hcontext]
        exact mem_contexts_ofNodes.mpr
          (.inl (Script.needed_of_guard (Index.built_of_build hbuild) hfs hf hguard))
      exact ⟨hc, clause_eq hc⟩

/-- A catalog whose start-up type declares no machine, and a type that asks for nothing. -/
def bareCatalog : Catalog where
  definitions :=
    [{ nodeType := "init-ui", category := "flow", label := "Start" },
     { nodeType := "note", category := "flow", label := "Note" }]

/-- A start-up node between notes. -/
def bareNodes : List Node :=
  [{ id := "a", nodeType := "note" }, { id := "b", nodeType := "init-ui" },
   { id := "c", nodeType := "note" }]

/-- The guard of the start-up node is covered, in any order of the nodes; a note by itself is
registered for server and client. -/
theorem context_spec_bare : ∃ (r : Script.Report) (code : String) (f : EntryFunction),
    Script.report bareCatalog "\t" "demo" bareNodes [] = .ok r ∧ r.result = .ok code ∧
    (f.render "\t").head? = some "#if UI" ∧ .ui ∈ r.context.contexts ∧
    r.context.clause = "UI" ∧
    ofNodes bareCatalog bareNodes = ofNodes bareCatalog (bareNodes ++ bareNodes.reverse) ∧
    .server ∈ (ofNodes bareCatalog (bareNodes.take 1)).contexts := by
  have hreport : (Script.report bareCatalog "\t" "demo" bareNodes []).toOption.any (fun r =>
      r.context.clause = "UI" && r.result.toOption.isSome) = true := by decide +kernel
  have hguard : (Index.build bareCatalog bareNodes []).toOption.any (fun x =>
      (Script.functions x "demo").toOption.any fun fs => fs.any fun f =>
        (f.render "\t").head? = some "#if UI") = true := by decide +kernel
  obtain ⟨r, hr, hreport⟩ := exists_ok_of_any hreport
  obtain ⟨hclause, hresult⟩ := (Bool.and_eq_true ..).mp hreport
  obtain ⟨code, hcode⟩ := Option.isSome_iff_exists.mp hresult
  have hcode := ok_of_toOption hcode
  obtain ⟨x, fs, hx, hfs, -, hguard⟩ := Script.exists_of_run (List.cons_ne_nil _ _) hguard "\t"
  obtain ⟨f, hf, hguard⟩ := List.any_eq_true.mp hguard
  have hguard : (f.render "\t").head? = some "#if UI" := of_decide_eq_true hguard
  obtain ⟨-, htypes, hcovers⟩ := context_spec bareCatalog bareNodes
  obtain ⟨hneeded, -, -⟩ := context_spec bareCatalog (bareNodes.take 1)
  have hnone : ∀ c, ¬ Needed bareCatalog (bareNodes.take 1) c := by
    rintro c ⟨n, hn, d, hd, hreq⟩
    obtain rfl := List.mem_singleton.mp hn
    obtain rfl : bareCatalog.definitions[1] = d := Option.some.inj hd
    have hflag := flag_ofDefinition.mpr hreq
    cases c <;> exact absurd hflag (by decide +kernel)
  refine ⟨r, code, f, hr, hcode, hguard, ?_, of_decide_eq_true hclause,
    htypes _ (fun t => by simp), (hneeded _).mpr (.inr ⟨hnone, .inl rfl⟩)⟩
  obtain ⟨-, ⟨hempty, -⟩ | ⟨x', fs', hx', hfs', -, hall⟩⟩ :=
    hcovers "\t" "demo" [] r code hr hcode
  · cases hempty
  · cases hx.symm.trans hx'
    cases hfs.symm.trans hfs'
    exact (hall f hf .ui hguard).1

end ScriptContext

end VisualScript
