import VisualScript.Proofs.Scoping

/-!
# Proofs — Capture

What a thread function is handed.  Its parameters are the arguments of its call, and they cover every
variable its body uses from outside, with one exception: a node that appends to an array hands the
array on, and where that value is more than a variable, the variables in it are not handed over.
`EntryFunction.captures_complete_iff` says that this is the only way a thread function can miss one;
`EntryFunction.row_not_captured` is a graph in which it does.
-/

namespace VisualScript

/-! ### Calls and headers -/

namespace ThreadFunction

/-- The line that starts the thread. -/
def call (indent : String) (depth : Nat) (t : ThreadFunction) : String :=
  Code.pad indent depth ++ "thread " ++ t.name ++ "(" ++ ", ".intercalate t.captures ++ ")"

/-- The first line of the thread function. -/
def header (t : ThreadFunction) : String :=
  "void function " ++ t.name ++ "(" ++ ", ".intercalate (t.captures.map ("var " ++ ·)) ++ ")"

theorem header_mem_render (indent : String) (t : ThreadFunction) : t.header ∈ t.render indent :=
  .head _

end ThreadFunction

namespace EntryFunction

/-- A thread function is called with its parameters. -/
theorem called {indent : String} {f : EntryFunction} {t : ThreadFunction}
    (ht : t ∈ f.body.threads) :
    t.header ∈ f.render indent ∧ ∃ depth, t.call indent depth ∈ f.render indent := by
  refine ⟨mem_render (List.mem_append_right _ (List.mem_flatMap.mpr ⟨t, ht, t.header_mem_render _⟩)),
    ?_⟩
  obtain ⟨key, rest, hm⟩ := Code.thread_mem_tails ht
  obtain ⟨k, hk⟩ := render_tail indent hm
  exact ⟨k, hk (.head _)⟩

/-! ### What the body needs -/

section

variable {nodes : List Node} {connections : List Connection} {x : Index}

/-- **A thread function can miss a variable in one way only.**  Let the script of a graph over the
built-in catalog be generated, where every node carries the ports of its definition.  Every thread
function is called with its own parameters.  A variable it needs is one of them, or it occurs in an
array, other than a plain variable, which a node that appends to it hands on.  So the thread
functions of an entry have all the variables they need exactly if they have those. -/
theorem captures_complete_iff {indent moduleId text : String}
    (hbuild : Index.build .builtin nodes connections = .ok x)
    (hgen : Script.generate .builtin indent moduleId nodes connections = .ok text)
    (hports : ∀ node ∈ nodes, Catalog.builtin.Furnishes node) :
    ∃ fs, Script.functions x moduleId = .ok fs ∧
      (nodes ≠ [] → text = Script.text indent moduleId fs) ∧ ∀ f ∈ fs,
        (∀ t ∈ f.body.threads,
          (t.header ∈ f.render indent ∧ ∃ depth, t.call indent depth ∈ f.render indent) ∧
          ∀ v ∈ t.body.free [], v ∈ t.captures ∨ f.body.HandsOn x v) ∧
        ((∀ t ∈ f.body.threads, ∀ v ∈ t.body.free [], v ∈ t.captures) ↔
          ∀ t ∈ f.body.threads, ∀ v ∈ t.body.free [], f.body.HandsOn x v → v ∈ t.captures) := by
  have hb := Index.built_of_build hbuild
  obtain ⟨fs, hfs, htext⟩ := Script.functions_of_generate hbuild hgen
  refine ⟨fs, hfs, htext, fun f hf => ?_⟩
  obtain ⟨⟨n, flow⟩, hmem, hmake⟩ := exists_of_mem_mapM hfs hf
  obtain ⟨-, recorded, last, -, hlast, -, -⟩ := make_ok hmake
  have hhanded := (body_fits hb hports hmem hlast fun v hv => hv).2
  refine ⟨fun t ht => ⟨called ht, hhanded t ht⟩, ?_⟩
  constructor
  · intro h t ht v hv _
    exact h t ht v hv
  · intro h t ht v hv
    exact (hhanded t ht v hv).elim id (h t ht v hv)

/-- The thread is handed the parameter, the number and the index of the loop. -/
theorem captures_complete_iff_job : ∃ x text fs f t,
    Index.build .builtin jobNodes jobConnections = .ok x ∧
      Script.generate .builtin "\t" "demo" jobNodes jobConnections = .ok text ∧
      (∀ node ∈ jobNodes, Catalog.builtin.Furnishes node) ∧ Script.functions x "demo" = .ok fs ∧
      f ∈ fs ∧ t ∈ f.body.threads ∧ t.captures = ["player", "rand1", "i0"] ∧
      (t.header ∈ f.render "\t" ∧ ∃ depth, t.call "\t" depth ∈ f.render "\t") ∧
      (∀ v ∈ t.body.free [], v ∈ t.captures ∨ f.body.HandsOn x v) ∧
      ((∀ t ∈ f.body.threads, ∀ v ∈ t.body.free [], v ∈ t.captures) ↔
        ∀ t ∈ f.body.threads, ∀ v ∈ t.body.free [], f.body.HandsOn x v → v ∈ t.captures) := by
  obtain ⟨x, fs, f, t, hx, hfs, hf, -, ht, hcaptures⟩ := job_functions
  have htext := Script.generate_of_functions hx (by simp [jobNodes]) hfs "\t"
  obtain ⟨fs', hfs', -, hall⟩ := captures_complete_iff hx htext job_furnished
  obtain rfl := Except.ok.inj (hfs.symm.trans hfs')
  exact ⟨x, _, fs, f, t, hx, htext, job_furnished, hfs, hf, ht, hcaptures,
    ((hall f hf).1 t ht).1, ((hall f hf).1 t ht).2, (hall f hf).2⟩

end

/-! ### A variable that is not handed over -/

/-- A row of a grid: a value is appended to it, and a thread prints the row afterwards. -/
def rowNodes : List Node :=
  [{ id := "spawn", nodeType := "on-player-respawned" }, { id := "grid", nodeType := "array-create" },
   { id := "row", nodeType := "array-get" }, { id := "push", nodeType := "array-append" },
   { id := "job", nodeType := "thread" }, { id := "note", nodeType := "print" }]

def rowConnections : List Connection :=
  [⟨"c0", ⟨"spawn", "output_0"⟩, ⟨"push", "input_0"⟩⟩,
   ⟨"c1", ⟨"push", "output_0"⟩, ⟨"job", "input_0"⟩⟩,
   ⟨"c2", ⟨"job", "output_0"⟩, ⟨"note", "input_0"⟩⟩,
   ⟨"c3", ⟨"grid", "output_0"⟩, ⟨"row", "input_0"⟩⟩,
   ⟨"c4", ⟨"row", "output_0"⟩, ⟨"push", "input_1"⟩⟩,
   ⟨"c5", ⟨"push", "output_1"⟩, ⟨"note", "input_1"⟩⟩]

/-- The row is `arr0[0]`, so the thread needs `arr0`; it is handed nothing. -/
theorem row_not_captured : ∃ x fs f t,
    Index.build .builtin rowNodes rowConnections = .ok x ∧
      (∀ node ∈ rowNodes, Catalog.builtin.Furnishes node) ∧ Script.functions x "demo" = .ok fs ∧
      f ∈ fs ∧ t ∈ f.body.threads ∧ "arr0" ∈ t.body.free [] ∧ t.captures = [] := by
  have key : (Index.build .builtin rowNodes rowConnections).toOption.any (fun x =>
      (Script.functions x "demo").toOption.any fun fs => fs.any fun f => f.body.threads.any fun t =>
        (t.body.free []).contains "arr0" && t.captures.isEmpty) = true := by
    rw [Index.build, Index.addNode_builtin]
    decide +kernel
  obtain ⟨x, fs, hx, hfs, -, key⟩ := Script.exists_of_run (List.cons_ne_nil _ _) key "\t"
  obtain ⟨f, hf, key⟩ := List.any_eq_true.mp key
  obtain ⟨t, ht, key⟩ := List.any_eq_true.mp key
  rw [Bool.and_eq_true, List.contains_iff_mem, List.isEmpty_iff] at key
  exact ⟨x, fs, f, t, hx, Catalog.furnishes_of_isEmpty (by decide), hfs, hf, ht, key.1, key.2⟩

end EntryFunction

end VisualScript
