import VisualScript.Proofs.Calls
import VisualScript.Proofs.Drafts
import VisualScript.Proofs.Passes

/-!
# Proofs — EditLog

How a pass writes its lines.  `EditLog.walk` lists the edits that a pass over the flow of an entry
makes to a draft, up to its end or up to the failure that stops it.  Declarations for the current
block are appended; those for a block further out are first collected and then hoisted.

* `EditLog.walk_takes`: a hoisted line is a declaration, and the node it goes in front of is being
  written.
-/

namespace VisualScript

open Evaluation Scopes

/-- The depth at which the lines of the innermost scope stand. -/
def Scopes.depth : Scopes → Nat
  | []            => 1
  | [_]           => 1
  | sc :: sc' :: ss => if sc.isThread then 1 else depth (sc' :: ss) + 1

/-- The declarations a node gives rise to once its inputs are resolved. -/
def Evaluation.temporaries (x : Index) (e : Endpoint) (n : PlacedNode) (r : Recipe)
    (inputs : Inputs) (s : State) : Except Failure (Code × State) := do
  let (emission, t) ← emit (r.outline x n) inputs s
  match emission.outputs.lookup (x.portName e) with
  | none   => .error (.fault (.outputNotProduced (x.portName e) e.node))
  | some _ => .ok (if isInlined x n then (.done, t) else declare n emission.outputs t)

/-! ### The edits of a pass -/

namespace EditLog

/-- The edits that are made after a step, if it succeeds. -/
def after {α : Type} (step : Except Failure α) (log : α → List Edit) : List Edit :=
  match step with
  | .ok a    => log a
  | .error _ => []

def appends (texts : List String) : List Edit := texts.map .append

/-- The edits that are made to resolve the inputs of a node, where `log` are those of one read. -/
def resolve (x : Index) (n : PlacedNode)
    (read : Endpoint → State → Except Failure (Option Expr × Code × State))
    (log : Endpoint → State → List Edit) : List PortTemplate → State → List Edit
  | [],      _ => []
  | t :: ts, s =>
      if t.kind ≠ .data then resolve x n read log ts s
      else match source? x n t with
        | some e => log e s ++ after (read e s) fun made => resolve x n read log ts made.2.2
        | none   => after (literal n t) fun _ => resolve x n read log ts s

/-- The edits of an evaluation with some scopes hidden, where `log` are those of one read.  While
declarations are collected for a block further out, those for the current block are not appended. -/
def evaluate (indent : String) (x : Index) (e : Endpoint) (n : PlacedNode) (r : Recipe)
    (read : Endpoint → State → Except Failure (Option Expr × Code × State))
    (log : (collecting : Bool) → Endpoint → State → List Edit) (hidden : Nat) (collecting : Bool)
    (inside : State) : List Edit :=
  resolve x n read (log (collecting || hidden != 0)) n.definition.inputs inside ++
    after (Evaluation.resolve x n read n.definition.inputs [] inside) fun resolved =>
      after (temporaries x e n r resolved.1 resolved.2.2) fun made =>
        if hidden ≠ 0 then
          [.hoist (top inside.scopes)
            ((resolved.2.1 ++ made.1).render indent (depth inside.scopes))]
        else if collecting then []
        else appends (made.1.render indent (depth inside.scopes))

/-- The edits of a read. -/
def read (indent : String) (x : Index) (pass : Pass) : (fuel : Nat) → (pending : List String) →
    (collecting : Bool) → Endpoint → State → List Edit
  | fuel, pending, collecting, e, s =>
      match x.node? e.node with
      | none   => []
      | some n =>
          let s := note x pass n s
          if (lookup? e s.scopes).isSome || n.hasExec || pending.contains e.node then []
          else match fuel, Recipe.ofType? n.node.nodeType with
            | fuel + 1, some r =>
                let hidden := hiddenScopes x pass e n s
                evaluate indent x e n r (Evaluation.read x pass fuel (e.node :: pending))
                  (read indent x pass fuel (e.node :: pending)) hidden collecting (s.lower hidden)
            | _, _ => []

/-- The edits that are made to enter a node. -/
def enter (indent : String) (x : Index) (pass : Pass) (n : PlacedNode) (s : State) : List Edit :=
  match Recipe.ofType? n.node.nodeType with
  | none   => []
  | some _ =>
      resolve x n (Evaluation.read x pass x.placed.length [])
        (read indent x pass x.placed.length [] false) n.definition.inputs s

/-- The edits at the end of a thread. -/
def finishThread (indent name : String) (depth : Nat) (captures : List String) : List Edit :=
  [.closeThread ("void function " ++ name ++ "(" ++
      ", ".intercalate (captures.map ("var " ++ ·)) ++ ")"),
    .append (Code.pad indent depth ++ "thread " ++ name ++ "(" ++ ", ".intercalate captures ++ ")")]

mutual

def chain (indent : String) (x : Index) (pass : Pass) : Chain → State → List Edit
  | .done,             _ => []
  | .halt _,           _ => []
  | .step id own rest, s =>
      match x.node? id with
      | none   => []
      | some n =>
          enter indent x pass n s ++ after (Walk.enter x pass n s) fun entered =>
            let inside := Walk.setHoisted entered.2.2 .done
            .enter id :: parts indent x pass n entered.1 own inside ++
              after (Walk.parts x pass n entered.1 own inside) fun written =>
                .leave ::
                  chain indent x pass rest (Walk.setHoisted written.2 (Walk.hoisted entered.2.2))

def parts (indent : String) (x : Index) (pass : Pass) (n : PlacedNode) (filling : Walk.Filling) :
    Parts → State → List Edit
  | .done,             _ => []
  | .line t rest,      s =>
      .append (Code.pad indent (depth s.scopes) ++ (t.fill filling.inputs filling.vars).text) ::
        parts indent x pass n filling rest s
  | .follow body rest, s =>
      chain indent x pass body s ++ after (Walk.chain x pass body s) fun written =>
        parts indent x pass n filling rest written.2
  | .block port bindings tail body rest, s =>
      let opened := Walk.openBlock n ⟨n.node.id, port⟩ false bindings filling.vars s
      .openBlock :: chain indent x pass body opened ++
        after (Walk.chain x pass body opened) fun written =>
          appends ((Code.ofLines tail).render indent (depth s.scopes + 1)) ++
            .closeBlock :: parts indent x pass n filling rest (Walk.closeBlock written.2).2
  | .thread port name isConnected body rest, s =>
      match isConnected, Walk.namedFunction? filling.inputs with
      | false, some f =>
          .append (Code.pad indent (depth s.scopes) ++
              Expr.text (.text "thread " :: f ++ Expr.ofText "()")) ::
            parts indent x pass n filling rest s
      | _, _ =>
          let opened := Walk.openBlock n ⟨n.node.id, port⟩ true [] filling.vars s
          .openThread :: chain indent x pass body opened ++
            after (Walk.chain x pass body opened) fun written =>
              finishThread indent name (depth s.scopes) (Walk.closeBlock written.2).1 ++
                parts indent x pass n filling rest (Walk.closeBlock written.2).2

end

/-- The edits of a pass over the flow of an entry. -/
def walk (indent : String) (x : Index) (pass : Pass) (n : PlacedNode) (flow : Parts) :
    List Edit := parts indent x pass n ⟨[], []⟩ flow (EntryFunction.initial n)

variable {indent : String} {x : Index} {pass : Pass} {pending : List String} {collecting : Bool}
  {e : Endpoint} {s : State} {n : PlacedNode} {d : Draft}

@[simp] theorem after_ok {α : Type} (a : α) (log : α → List Edit) :
    after (.ok a) log = log a := rfl

theorem mem_after {α : Type} {step : Except Failure α} {log : α → List Edit} {ed : Edit} :
    ed ∈ after step log ↔ ∃ a, step = .ok a ∧ ed ∈ log a := by
  cases step <;> simp [after]

theorem read_of_atOnce {result : Except Failure (Option Expr × Code × State)}
    (h : ReadsAtOnce x pass pending e s result) (fuel : Nat) :
    read indent x pass fuel pending collecting e s = [] := by
  rw [read.eq_def]
  cases h with
  | missing hn => simp only [hn]
  | bound hn hl =>
    rw [note_scopes] at hl
    simp [hn, hl]
  | outOfScope hn hl hx => simp [hn, hx]
  | underway hn hl hx hp => simp [hn, hp]
  | noRecipe hn hl hx hp hr => simp [hn, hr]

theorem read_zero {r : Recipe} (h : Evaluates x pass pending e s n r) :
    read indent x pass 0 pending collecting e s = [] := by
  rw [read.eq_def]
  simp [h.node]

theorem read_of_evaluates {r : Recipe} (h : Evaluates x pass pending e s n r) (fuel : Nat) :
    read indent x pass (fuel + 1) pending collecting e s =
      let hidden := hiddenScopes x pass e n (note x pass n s)
      evaluate indent x e n r (Evaluation.read x pass fuel (e.node :: pending))
        (read indent x pass fuel (e.node :: pending)) hidden collecting
        ((note x pass n s).lower hidden) := by
  have hfree := h.free
  rw [note_scopes] at hfree
  rw [read.eq_def]
  simp [h.node, hfree, h.data, h.fresh, h.recipe]

theorem parts_named {filling : Walk.Filling} {f : Expr}
    (hf : Walk.namedFunction? filling.inputs = some f) (port name : String) (body : Chain)
    (rest : Parts) : parts indent x pass n filling (.thread port name false body rest) s =
      .append (Code.pad indent (depth s.scopes) ++
          Expr.text (.text "thread " :: f ++ Expr.ofText "()")) ::
        parts indent x pass n filling rest s := by
  rw [parts.eq_def]
  simp only [hf]

theorem parts_thread {filling : Walk.Filling} {isConnected : Bool}
    (h : ∀ f, isConnected = false → Walk.namedFunction? filling.inputs = some f → False)
    (port name : String) (body : Chain) (rest : Parts) :
    parts indent x pass n filling (.thread port name isConnected body rest) s =
      let opened := Walk.openBlock n ⟨n.node.id, port⟩ true [] filling.vars s
      .openThread :: chain indent x pass body opened ++
        after (Walk.chain x pass body opened) fun written =>
          finishThread indent name (depth s.scopes) (Walk.closeBlock written.2).1 ++
            parts indent x pass n filling rest (Walk.closeBlock written.2).2 := by
  rw [parts.eq_def]
  dsimp only
  split
  · rename_i f hf
    exact absurd hf (h f rfl)
  · rfl

/-! ### The edits of reads -/

end EditLog

/-- A line that declares a local variable. -/
def Code.IsDeclaration (indent text : String) : Prop :=
  ∃ depth var value, text = pad indent depth ++ "local " ++ var ++ " = " ++ value

theorem Code.Flat.isDeclaration {indent : String} {depth : Nat} : ∀ {c : Code}, c.Flat →
    ∀ text ∈ c.render indent depth, IsDeclaration indent text
  | .done, _, text, h => by cases h
  | .declare _ var value rest, hc, text, h => by
    rcases List.mem_cons.mp h with rfl | h
    · exact ⟨depth, var, value.text, rfl⟩
    · exact isDeclaration (c := rest) hc text h

/-- An edit that puts lines into a draft with `levels` open scopes. -/
inductive Edit.Writes (indent : String) (levels : Nat) : Edit → Prop where
  | append (text : String) : Writes indent levels (.append text)
  | hoist {level : Nat} {texts : List String} (below : level + 1 < levels)
      (locals : ∀ text ∈ texts, Code.IsDeclaration indent text) :
      Writes indent levels (.hoist level texts)

theorem Edit.Writes.mono {indent : String} {levels levels' : Nat} {ed : Edit}
    (h : ed.Writes indent levels) (hle : levels ≤ levels') : ed.Writes indent levels' := by
  cases h with
  | append text => exact .append text
  | hoist below locals => exact .hoist (Nat.lt_of_lt_of_le below hle) locals

theorem Evaluation.temporaries_ok {x : Index} {e : Endpoint} {n : PlacedNode} {r : Recipe}
    {inputs : Inputs} {s s' : State} {code : Code}
    (h : temporaries x e n r inputs s = .ok (code, s')) :
    ∃ em t value, emit (r.outline x n) inputs s = .ok (em, t) ∧
      em.outputs.lookup (x.portName e) = some value ∧
      (code, s') = if isInlined x n then (.done, t) else declare n em.outputs t := by
  unfold temporaries at h
  obtain ⟨⟨em, t⟩, hem, h⟩ := bind_eq_ok.mp h
  dsimp only at h
  split at h
  · cases h
  · rename_i value hv
    exact ⟨em, t, value, hem, hv, (Except.ok.inj h).symm⟩

theorem Evaluation.temporaries_flat {x : Index} {e : Endpoint} {n : PlacedNode} {r : Recipe}
    {inputs : Inputs} {s s' : State} {code : Code}
    (h : temporaries x e n r inputs s = .ok (code, s')) : code.Flat := by
  obtain ⟨em, t, -, -, -, heq⟩ := temporaries_ok h
  split at heq
  · cases heq
    trivial
  · rw [(Prod.mk.inj heq).1]
    exact (declare_grow n em.outputs t).2

/-- A scope stays open while others are hidden. -/
theorem Evaluation.hiddenScopes_le (x : Index) (pass : Pass) (e : Endpoint) (n : PlacedNode)
    (s : State) : hiddenScopes x pass e n s ≤ top s.scopes := by
  unfold hiddenScopes
  split
  · exact Nat.zero_le _
  · exact Nat.sub_le _ _

namespace EditLog

variable {indent : String} {x : Index} {pass : Pass} {n : PlacedNode}

theorem resolve_writes {read : Endpoint → State → Except Failure (Option Expr × Code × State)}
    {log : Endpoint → State → List Edit}
    (hread : ∀ {e s made}, read e s = .ok made → made.2.2.scopes.length = s.scopes.length)
    (hlog : ∀ {e s}, ∀ ed ∈ log e s, ed.Writes indent s.scopes.length) :
    ∀ (ts : List PortTemplate) (s : State), ∀ ed ∈ resolve x n read log ts s,
      ed.Writes indent s.scopes.length
  | [], _, ed, h => by cases h
  | t :: ts, s, ed, h => by
    rw [resolve] at h
    split at h
    · exact resolve_writes hread hlog ts s ed h
    · split at h
      · rcases List.mem_append.mp h with h | h
        · exact hlog ed h
        · obtain ⟨made, hmade, h⟩ := mem_after.mp h
          rw [← hread hmade]
          exact resolve_writes hread hlog ts made.2.2 ed h
      · obtain ⟨-, -, h⟩ := mem_after.mp h
        exact resolve_writes hread hlog ts s ed h

theorem read_length {fuel : Nat} {pending : List String} {e : Endpoint} {s : State}
    {made : Option Expr × Code × State}
    (h : Evaluation.read x pass fuel pending e s = .ok made) :
    made.2.2.scopes.length = s.scopes.length := ((growing x pass).read fuel h).1.length_eq

/-- A read puts lines into the draft and does nothing else to it. -/
theorem read_writes : ∀ (fuel : Nat) {pending : List String} {collecting : Bool} {e : Endpoint}
    {s : State}, ∀ ed ∈ read indent x pass fuel pending collecting e s,
      ed.Writes indent s.scopes.length
  | fuel, pending, collecting, e, s, ed, h => by
    rcases readsAtOnce_or_evaluates x pass pending e s with ⟨_, hat⟩ | ⟨n, r, hev⟩
    · rw [read_of_atOnce hat] at h
      cases h
    cases fuel with
    | zero =>
      rw [read_zero hev] at h
      cases h
    | succ fuel =>
      rw [read_of_evaluates hev] at h
      have hhidden := hiddenScopes_le x pass e n (note x pass n s)
      revert h hhidden
      generalize hiddenScopes x pass e n (note x pass n s) = hidden
      intro h hhidden
      have hlower : ((note x pass n s).lower hidden).scopes.length =
          s.scopes.length - hidden := by simp [State.lower]
      simp only [top, note_scopes] at hhidden
      rcases List.mem_append.mp h with h | h
      · refine (resolve_writes read_length (read_writes fuel) _ _ ed h).mono ?_
        rw [hlower]
        exact Nat.sub_le _ _
      · obtain ⟨resolved, hres, h⟩ := mem_after.mp h
        obtain ⟨made, hmade, h⟩ := mem_after.mp h
        split at h
        · rename_i h0
          rw [List.mem_singleton.mp h]
          refine .hoist ?_ (Code.Flat.isDeclaration ?_)
          · rw [top, hlower]
            omega
          · have hflat := ((growing x pass).resolved ⟨fuel, hres⟩).2
            simpa using ⟨hflat, temporaries_flat hmade⟩
        · split at h
          · cases h
          · obtain ⟨text, -, rfl⟩ := List.mem_map.mp h
            exact .append text

theorem enter_writes (s : State) :
    ∀ ed ∈ enter indent x pass n s, ed.Writes indent s.scopes.length := by
  intro ed h
  unfold enter at h
  split at h
  · cases h
  · exact resolve_writes read_length (read_writes _) _ _ ed h

end EditLog

/-! ### Open nodes and blocks -/

namespace Draft

/-- The same nodes, blocks and functions are open. -/
structure SameOpen (d d' : Draft) : Prop where
  anchors : d'.anchors.map (·.id) = d.anchors.map (·.id)
  openers : d'.openers = d.openers
  writing : d'.writing = d.writing

/-- For each of the scopes but the outermost, the draft knows the node that opened it, and the items
of that node are being written. -/
structure Fits (d : Draft) (levels : Nat) : Prop where
  length : d.openers.length + 1 = levels
  live   : ∀ k ∈ d.openers, k ∈ d.anchors.map (·.id)

/-- Every hoisted line of the edits is a declaration and finds its anchor. -/
def Takes (indent : String) (d : Draft) : List Edit → Prop
  | []      => True
  | ed :: es =>
      (∀ level texts, ed = .hoist level texts →
        (d.opener? level).isSome ∧ ∀ text ∈ texts, Code.IsDeclaration indent text) ∧
      (d.step ed).Takes indent es

variable {indent : String} {d d' d'' : Draft} {levels : Nat}

theorem SameOpen.refl (d : Draft) : d.SameOpen d := ⟨rfl, rfl, rfl⟩

theorem SameOpen.trans (h₁ : d.SameOpen d') (h₂ : d'.SameOpen d'') : d.SameOpen d'' :=
  ⟨h₂.anchors.trans h₁.anchors, h₂.openers.trans h₁.openers, h₂.writing.trans h₁.writing⟩

theorem SameOpen.ne_nil (h : d.SameOpen d') (hne : d.anchors ≠ []) : d'.anchors ≠ [] := by
  have := h.anchors
  intro hnil
  rw [hnil] at this
  exact hne (List.map_eq_nil_iff.mp this.symm)

theorem Fits.of_sameOpen (h : d.Fits levels) (hs : d.SameOpen d') : d'.Fits levels := by
  refine ⟨by rw [hs.openers]; exact h.length, fun k hk => ?_⟩
  rw [hs.openers] at hk
  rw [hs.anchors]
  exact h.live k hk

@[simp] theorem takes_append {es fs : List Edit} :
    d.Takes indent (es ++ fs) ↔ d.Takes indent es ∧ (d.run es).Takes indent fs := by
  induction es generalizing d with
  | nil => simp [Takes]
  | cons ed es ih => simp [Takes, ih, and_assoc]

/-- A level with a scope inside has an opener. -/
theorem Fits.opener? (h : d.Fits levels) {level : Nat} (hl : level + 1 < levels) :
    ∃ a ∈ d.anchors, d.opener? level = some a := by
  have hlt : level < d.openers.reverse.length := by
    rw [List.length_reverse]
    have := h.length
    omega
  have hget : d.openers.reverse[level]? = some d.openers.reverse[level] :=
    List.getElem?_eq_getElem hlt
  obtain ⟨a, ha, hid⟩ := List.mem_map.mp
    (h.live d.openers.reverse[level] (List.mem_reverse.mp (List.getElem_mem hlt)))
  have hfind : (d.anchors.find? (·.id == d.openers.reverse[level])).isSome :=
    List.find?_isSome.mpr ⟨a, ha, by simpa using hid⟩
  obtain ⟨b, hb⟩ := Option.isSome_iff_exists.mp hfind
  refine ⟨b, List.mem_of_find?_eq_some hb, ?_⟩
  rw [Draft.opener?, hget]
  exact hb

theorem sameOpen_step {ed : Edit} (h : ed.Writes indent levels) : d.SameOpen (d.step ed) := by
  cases h with
  | append text => exact ⟨rfl, rfl, rfl⟩
  | @hoist level texts below locals =>
    simp only [step, apply]
    cases d.opener? level with
    | none => exact ⟨rfl, rfl, rfl⟩
    | some b => exact ⟨by simp [splice, Function.comp_def], rfl, rfl⟩

theorem sameOpen_append (text : String) : d.SameOpen (d.step (.append text)) := ⟨rfl, rfl, rfl⟩

theorem sameOpen_run {es : List Edit} (h : ∀ ed ∈ es, ed.Writes indent levels) :
    d.SameOpen (d.run es) := by
  induction es generalizing d with
  | nil => exact .refl d
  | cons ed es ih =>
    exact (sameOpen_step (h ed (.head _))).trans (ih fun ed' h' => h ed' (.tail _ h'))

theorem SameOpen.leave {node : String} (h : (d.step (.enter node)).SameOpen d') :
    d.SameOpen (d'.step .leave) := by
  refine ⟨?_, h.openers, h.writing⟩
  have hids : d'.anchors.map (·.id) = d.moment :: d.anchors.map (·.id) := h.anchors
  simp [step, apply, List.map_tail, hids]

theorem SameOpen.closeBlock (h : (d.step .openBlock).SameOpen d') :
    d.SameOpen (d'.step .closeBlock) := by
  refine ⟨h.anchors, ?_, h.writing⟩
  simp [step, apply, h.openers, openBlock]

theorem SameOpen.closeThread (h : (d.step .openThread).SameOpen d') (header : String) :
    d.SameOpen (d'.step (.closeThread header)) := by
  refine ⟨h.anchors, ?_, ?_⟩
  · simp [step, apply, h.openers, openBlock, setPage]
  · simp [step, apply, h.writing]

theorem Fits.takes (hd : d.Fits levels) {es : List Edit}
    (h : ∀ ed ∈ es, ed.Writes indent levels) : d.Takes indent es := by
  induction es generalizing d with
  | nil => trivial
  | cons ed es ih =>
    have hed := h ed (.head _)
    refine ⟨fun level texts heq => ?_,
      ih (hd.of_sameOpen (sameOpen_step hed)) fun ed' h' => h ed' (.tail _ h')⟩
    subst heq
    cases hed with
    | hoist below locals =>
      obtain ⟨a, -, ha⟩ := hd.opener? below
      exact ⟨by rw [ha]; rfl, locals⟩

theorem Fits.enter (hd : d.Fits levels) (node : String) : (d.step (.enter node)).Fits levels :=
  ⟨hd.length, fun k hk => .tail _ (hd.live k hk)⟩

/-- The opener of a block is the node whose items are being written. -/
theorem Fits.openBlock (hd : d.Fits levels) (hne : d.anchors ≠ []) :
    (d.step .openBlock).Fits (levels + 1) := by
  obtain ⟨a, as, ha⟩ := List.exists_cons_of_ne_nil hne
  have hopeners : (d.step .openBlock).openers = a.id :: d.openers := by
    simp [step, apply, Draft.openBlock, ha]
  refine ⟨by rw [hopeners, List.length_cons, hd.length], fun k hk => ?_⟩
  rw [hopeners] at hk
  have hanchors : (d.step .openBlock).anchors = d.anchors := rfl
  rw [hanchors]
  rcases List.mem_cons.mp hk with rfl | hk
  · rw [ha]
    exact .head _
  · exact hd.live k hk

theorem Fits.openThread (hd : d.Fits levels) (hne : d.anchors ≠ []) :
    (d.step .openThread).Fits (levels + 1) :=
  let h := hd.openBlock hne
  ⟨h.length, h.live⟩

end Draft

/-- Whether control only goes on from chain to chain. -/
def Parts.OnlyFollows : Parts → Prop
  | .done          => True
  | .follow _ rest => rest.OnlyFollows
  | _              => False

namespace EditLog

variable {indent : String} {x : Index} {pass : Pass} {n : PlacedNode} {d : Draft}

open Draft

theorem appends_writes (indent : String) (levels : Nat) (texts : List String) :
    ∀ ed ∈ appends texts, ed.Writes indent levels := by
  intro ed h
  obtain ⟨text, -, rfl⟩ := List.mem_map.mp h
  exact .append text

mutual

/-- A chain that is walked to its end closes what it opens. -/
theorem chain_sameOpen (indent : String) : ∀ (c : Chain) {s s' : State} {code : Code},
    Walk.chain x pass c s = .ok (code, s') →
      ∀ d : Draft, d.SameOpen (d.run (chain indent x pass c s))
  | .done, _, _, _, _, d => .refl d
  | .halt _, _, _, _, _, d => .refl d
  | .step id own rest, s, s', code, h, d => by
    rw [Walk.chain] at h
    split at h
    · cases h
    rename_i n hn
    obtain ⟨⟨filling, before, s₁⟩, h₁, h⟩ := bind_eq_ok.mp h
    obtain ⟨⟨inner, s₂⟩, h₂, h⟩ := bind_eq_ok.mp h
    obtain ⟨⟨behind, s₃⟩, h₃, -⟩ := bind_eq_ok.mp h
    rw [chain]
    simp only [hn, h₁, h₂, after_ok, run_append, run_cons]
    have hown := parts_sameOpen indent own h₂ ((d.run (enter indent x pass n s)).step (.enter id))
    exact ((sameOpen_run (enter_writes s)).trans hown.leave).trans
      (chain_sameOpen indent rest h₃ _)

theorem parts_sameOpen (indent : String) {n : PlacedNode} {filling : Walk.Filling} :
    ∀ (p : Parts) {s s' : State} {code : Code}, Walk.parts x pass n filling p s = .ok (code, s') →
      ∀ d : Draft, d.SameOpen (d.run (parts indent x pass n filling p s))
  | .done, _, _, _, _, d => .refl d
  | .line t rest, s, s', code, h, d => by
    rw [Walk.parts] at h
    obtain ⟨⟨behind, s₁⟩, h₁, -⟩ := bind_eq_ok.mp h
    rw [parts, run_cons]
    exact (sameOpen_append _).trans (parts_sameOpen indent rest h₁ _)
  | .follow body rest, s, s', code, h, d => by
    rw [Walk.parts] at h
    obtain ⟨⟨inner, s₁⟩, h₁, h⟩ := bind_eq_ok.mp h
    obtain ⟨⟨behind, s₂⟩, h₂, -⟩ := bind_eq_ok.mp h
    rw [parts]
    simp only [h₁, after_ok, run_append]
    exact (chain_sameOpen indent body h₁ _).trans (parts_sameOpen indent rest h₂ _)
  | .block port bindings tail body rest, s, s', code, h, d => by
    rw [Walk.parts] at h
    obtain ⟨⟨inner, s₁⟩, h₁, h⟩ := bind_eq_ok.mp h
    obtain ⟨⟨behind, s₂⟩, h₂, -⟩ := bind_eq_ok.mp h
    rw [parts]
    simp only [h₁, after_ok, List.cons_append, run_append, run_cons]
    have hbody := chain_sameOpen indent body h₁ (d.step .openBlock)
    exact (hbody.trans (sameOpen_run (appends_writes indent 0 _))).closeBlock.trans
      (parts_sameOpen indent rest h₂ _)
  | .thread port name isConnected body rest, s, s', code, h, d => by
    rw [Walk.parts.eq_def] at h
    dsimp only at h
    split at h
    · rename_i f hf
      obtain ⟨⟨behind, s₁⟩, h₁, -⟩ := bind_eq_ok.mp h
      rw [parts_named hf, run_cons]
      exact (sameOpen_append _).trans (parts_sameOpen indent rest h₁ _)
    · rename_i hunnamed
      obtain ⟨⟨inner, s₁⟩, h₁, h⟩ := bind_eq_ok.mp h
      obtain ⟨⟨behind, s₂⟩, h₂, -⟩ := bind_eq_ok.mp h
      rw [parts_thread fun f hc hf => hunnamed f hc hf]
      simp only [h₁, after_ok, List.cons_append, run_append, run_cons]
      have hbody := chain_sameOpen indent body h₁ (d.step .openThread)
      exact ((hbody.closeThread _).trans (sameOpen_append _)).trans
        (parts_sameOpen indent rest h₂ _)

end

theorem takes_after {α : Type} {step : Except Failure α} {log : α → List Edit}
    (h : ∀ a, step = .ok a → d.Takes indent (log a)) : d.Takes indent (after step log) := by
  cases step with
  | ok a => exact h a rfl
  | error _ => trivial

/-- An edit that hoists nothing needs no anchor. -/
theorem takes_cons {ed : Edit} {es : List Edit} (h : ∀ level texts, ed ≠ .hoist level texts)
    (hrest : (d.step ed).Takes indent es) : d.Takes indent (ed :: es) :=
  ⟨fun level texts heq => absurd heq (h level texts), hrest⟩

/-- Entering a node adds declarations and takes nothing back. -/
theorem enter_grow {s s' : State} {filling : Walk.Filling} {before : Code}
    (h : Walk.enter x pass n s = .ok (filling, before, s')) :
    Grow s.scopes s'.scopes ∧ before.Flat := by
  obtain ⟨r, s₁, em, s₂, -, hin, hem, -, rfl⟩ := Walk.enter_ok h
  obtain ⟨hgrow, hflat⟩ := (growing x pass).inputs hin
  have hbind := Walk.bindOutputs_grow n em.outputs s₂
  rw [emit_scopes hem] at hbind
  exact ⟨hgrow.trans hbind, hflat⟩

@[simp] theorem setHoisted_length (s : State) (code : Code) :
    (Walk.setHoisted s code).scopes.length = s.scopes.length := by
  unfold Walk.setHoisted
  cases s.scopes <;> rfl

theorem openBlock_length (n : PlacedNode) (key : BlockKey) (isThread : Bool)
    (bindings : List (String × Nat)) (vars : List String) (s : State) :
    (Walk.openBlock n key isThread bindings vars s).scopes.length = s.scopes.length + 1 :=
  (Walk.bindOutputs_grow n _ _).length_eq

mutual

/-- Whatever comes of a chain, its hoisted lines are declarations that find their anchors. -/
theorem chain_takes : ∀ (c : Chain) (s : State) (d : Draft), d.Fits s.scopes.length →
    d.Takes indent (chain indent x pass c s)
  | .done, _, _, _ => trivial
  | .halt _, _, _, _ => trivial
  | .step id own rest, s, d, hd => by
    rw [chain]
    split
    · trivial
    rename_i n hn
    rw [takes_append]
    refine ⟨hd.takes (enter_writes s), takes_after fun entered henter => ?_⟩
    obtain ⟨filling, before, s₁⟩ := entered
    have hentered : (d.run (enter indent x pass n s)).Fits s.scopes.length :=
      hd.of_sameOpen (sameOpen_run (enter_writes s))
    rw [← (enter_grow henter).1.length_eq] at hentered
    refine takes_cons (fun _ _ h => by cases h) (takes_append.mpr ⟨?_, ?_⟩)
    · refine parts_takes own _ _ ?_ (.inl (List.cons_ne_nil _ _))
      rw [setHoisted_length]
      exact hentered.enter id
    · refine takes_after fun written hwritten => ?_
      refine takes_cons (fun _ _ h => by cases h) (chain_takes rest _ _ ?_)
      rw [(Walk.setHoisted_grow ((keeping x pass).parts own hwritten)).1.length_eq]
      exact hentered.of_sameOpen (parts_sameOpen indent own hwritten _).leave

theorem parts_takes {n : PlacedNode} {filling : Walk.Filling} : ∀ (p : Parts) (s : State)
    (d : Draft), d.Fits s.scopes.length → d.anchors ≠ [] ∨ p.OnlyFollows →
      d.Takes indent (parts indent x pass n filling p s)
  | .done, _, _, _, _ => trivial
  | .line t rest, s, d, hd, hp => by
    have hne : d.anchors ≠ [] := hp.resolve_right id
    rw [parts]
    exact takes_cons (fun _ _ h => by cases h)
      (parts_takes rest s _ (hd.of_sameOpen (sameOpen_append _)) (.inl hne))
  | .follow body rest, s, d, hd, hp => by
    rw [parts, takes_append]
    refine ⟨chain_takes body s d hd, takes_after fun written hwritten => ?_⟩
    have hopen := chain_sameOpen indent body hwritten d
    refine parts_takes rest _ _ ?_ (hp.imp_left hopen.ne_nil)
    rw [((keeping x pass).chain body hwritten).1.length_eq]
    exact hd.of_sameOpen hopen
  | .block port bindings tail body rest, s, d, hd, hp => by
    have hne : d.anchors ≠ [] := hp.resolve_right id
    have hopened := hd.openBlock hne
    rw [← openBlock_length n ⟨n.node.id, port⟩ false bindings filling.vars s] at hopened
    rw [parts, List.cons_append]
    refine takes_cons (fun _ _ h => by cases h) (takes_append.mpr ⟨chain_takes body _ _ hopened,
      takes_after fun written hwritten => ?_⟩)
    have hbody := chain_sameOpen indent body hwritten (d.step .openBlock)
    have hclosed := hbody.trans (sameOpen_run (appends_writes indent 0
      ((Code.ofLines tail).render indent (depth s.scopes + 1))))
    refine takes_append.mpr ⟨(hopened.of_sameOpen hbody).takes (appends_writes indent _ _),
      takes_cons (fun _ _ h => by cases h) (parts_takes rest _ _ ?_ (.inl ?_))⟩
    · rw [(Walk.closeBlock_grow ((keeping x pass).chain body hwritten).1).length_eq]
      exact hd.of_sameOpen hclosed.closeBlock
    · exact hclosed.closeBlock.ne_nil hne
  | .thread port name isConnected body rest, s, d, hd, hp => by
    have hne : d.anchors ≠ [] := hp.resolve_right id
    by_cases hnamed : isConnected = false ∧ ∃ f, Walk.namedFunction? filling.inputs = some f
    · obtain ⟨rfl, f, hf⟩ := hnamed
      rw [parts_named hf]
      exact takes_cons (fun _ _ h => by cases h)
        (parts_takes rest s _ (hd.of_sameOpen (sameOpen_append _)) (.inl hne))
    · have hopened := hd.openThread hne
      rw [← openBlock_length n ⟨n.node.id, port⟩ true [] filling.vars s] at hopened
      rw [parts_thread fun f hc hf => hnamed ⟨hc, f, hf⟩]
      refine takes_cons (fun _ _ h => by cases h) (takes_append.mpr
        ⟨chain_takes body _ _ hopened, takes_after fun written hwritten => ?_⟩)
      have hclosed := (chain_sameOpen indent body hwritten
        (d.step .openThread)).closeThread
      refine takes_cons (fun _ _ h => by cases h) (takes_cons (fun _ _ h => by cases h)
        (parts_takes rest _ _ ?_ (.inl ?_)))
      · rw [(Walk.closeBlock_grow ((keeping x pass).chain body hwritten).1).length_eq]
        exact hd.of_sameOpen ((hclosed _).trans (sameOpen_append _))
      · exact ((hclosed _).trans (sameOpen_append _)).ne_nil hne

end

theorem walk_takes {flow : Parts} (h : flow.OnlyFollows) :
    ({} : Draft).Takes indent (walk indent x pass n flow) := by
  refine parts_takes flow _ _ ⟨?_, by simp⟩ (.inr h)
  rw [EntryFunction.initial_scopes]
  rfl

end EditLog

end VisualScript
