import VisualScript.Proofs.Calls
import VisualScript.Proofs.Pairing
import VisualScript.Proofs.Temporaries

/-!
# Proofs — ReadLog

Every read of a pass.  `ReadLog.walk` lists the reads that a pass over the flow of an entry makes,
those of the nodes it enters and those made on the way to a value, each with the state in which it
begins.  The reads of temporaries that the recording pass notes are those of the list
(`ReadLog.walk_reads`).

* `ReadLog.walk_sound`: each of these reads begins with a scope open and temporaries remembered, is
  made by a connection, and has fuel enough.
* `EntryFunction.reads_answered`: what each of them comes to.
-/

namespace VisualScript

open Evaluation Scopes

/-- A read of an output port that is about to be made. -/
structure ReadCall where
  fuel    : Nat
  /-- The nodes whose evaluation is under way. -/
  pending : List String
  port    : Endpoint
  state   : State

def ReadCall.result (x : Index) (pass : Pass) (c : ReadCall) :
    Except Failure (Option Expr × Code × State) := read x pass c.fuel c.pending c.port c.state

/-! ### The reads of a pass -/

namespace ReadLog

variable {filling : Walk.Filling} {code : Code} {s' : State}

/-- The reads that are made after a step, if it succeeds. -/
def after {α : Type} (step : Except Failure α) (log : α → List ReadCall) : List ReadCall :=
  match step with
  | .ok a    => log a
  | .error _ => []

theorem mem_after {α : Type} {step : Except Failure α} {log : α → List ReadCall} {c : ReadCall} :
    c ∈ after step log ↔ ∃ a, step = .ok a ∧ c ∈ log a := by
  cases step <;> simp [after]

/-- The reads that are made to resolve the inputs of a node, where `log` are those of one read. -/
def resolve (x : Index) (n : PlacedNode)
    (read : Endpoint → State → Except Failure (Option Expr × Code × State))
    (log : Endpoint → State → List ReadCall) : List PortTemplate → State → List ReadCall
  | [],      _ => []
  | t :: ts, s =>
      if t.kind ≠ .data then resolve x n read log ts s
      else match source? x n t with
        | some e => log e s ++ after (read e s) fun made => resolve x n read log ts made.2.2
        | none   => after (literal n t) fun _ => resolve x n read log ts s

/-- A read, and the reads on the way to its value. -/
def read (x : Index) (pass : Pass) : (fuel : Nat) → (pending : List String) → Endpoint → State →
    List ReadCall
  | fuel, pending, e, s =>
      ⟨fuel, pending, e, s⟩ ::
        match x.node? e.node with
        | none   => []
        | some n =>
            let s := note x pass n s
            if (lookup? e s.scopes).isSome || n.hasExec || pending.contains e.node then []
            else match fuel, Recipe.ofType? n.node.nodeType with
              | fuel + 1, some _ =>
                  resolve x n (Evaluation.read x pass fuel (e.node :: pending))
                    (read x pass fuel (e.node :: pending)) n.definition.inputs
                    (s.lower (hiddenScopes x pass e n s))
              | _, _ => []

/-- The reads that are made to enter a node. -/
def enter (x : Index) (pass : Pass) (n : PlacedNode) (s : State) : List ReadCall :=
  match Recipe.ofType? n.node.nodeType with
  | none   => []
  | some _ =>
      resolve x n (Evaluation.read x pass x.placed.length []) (read x pass x.placed.length [])
        n.definition.inputs s

mutual

def chain (x : Index) (pass : Pass) : Chain → State → List ReadCall
  | .done,             _ => []
  | .halt _,           _ => []
  | .step id own rest, s =>
      match x.node? id with
      | none   => []
      | some n =>
          enter x pass n s ++ after (Walk.enter x pass n s) fun entered =>
            let inside := Walk.setHoisted entered.2.2 .done
            parts x pass n entered.1 own inside ++
              after (Walk.parts x pass n entered.1 own inside) fun written =>
                chain x pass rest (Walk.setHoisted written.2 (Walk.hoisted entered.2.2))

def parts (x : Index) (pass : Pass) (n : PlacedNode) (filling : Walk.Filling) :
    Parts → State → List ReadCall
  | .done,             _ => []
  | .line _ rest,      s => parts x pass n filling rest s
  | .follow body rest, s =>
      chain x pass body s ++
        after (Walk.chain x pass body s) fun written => parts x pass n filling rest written.2
  | .block port bindings _ body rest, s =>
      let opened := Walk.openBlock n ⟨n.node.id, port⟩ false bindings filling.vars s
      chain x pass body opened ++ after (Walk.chain x pass body opened) fun written =>
        parts x pass n filling rest (Walk.closeBlock written.2).2
  | .thread port _ isConnected body rest, s =>
      match isConnected, Walk.namedFunction? filling.inputs with
      | false, some _ => parts x pass n filling rest s
      | _, _ =>
          let opened := Walk.openBlock n ⟨n.node.id, port⟩ true [] filling.vars s
          chain x pass body opened ++ after (Walk.chain x pass body opened) fun written =>
            parts x pass n filling rest (Walk.closeBlock written.2).2

end

/-- The reads of a pass over the flow of an entry. -/
def walk (x : Index) (pass : Pass) (n : PlacedNode) (flow : Parts) : List ReadCall :=
  parts x pass n ⟨[], []⟩ flow (EntryFunction.initial n)

variable {x : Index} {pass : Pass} {pending : List String} {e : Endpoint} {s : State}
  {n : PlacedNode}

theorem read_of_atOnce {result : Except Failure (Option Expr × Code × State)}
    (h : ReadsAtOnce x pass pending e s result) (fuel : Nat) :
    read x pass fuel pending e s = [⟨fuel, pending, e, s⟩] := by
  rw [read.eq_def]
  cases h with
  | missing hn => simp only [hn]
  | bound hn hl =>
    rw [note_scopes] at hl
    simp [hn, hl]
  | outOfScope hn hl hx => simp [hn, hx]
  | underway hn hl hx hp => simp [hn, hp]
  | noRecipe hn hl hx hp hr => simp [hn, hr]

theorem read_of_evaluates {r : Recipe} (h : Evaluates x pass pending e s n r) (fuel : Nat) :
    read x pass (fuel + 1) pending e s = ⟨fuel + 1, pending, e, s⟩ ::
      resolve x n (Evaluation.read x pass fuel (e.node :: pending))
        (read x pass fuel (e.node :: pending)) n.definition.inputs
        ((note x pass n s).lower (hiddenScopes x pass e n (note x pass n s))) := by
  have hfree := h.free
  rw [note_scopes] at hfree
  rw [read.eq_def]
  simp [h.node, hfree, h.data, h.fresh, h.recipe]

theorem parts_named {f : Expr} (hf : Walk.namedFunction? filling.inputs = some f)
    (port name : String) (body : Chain) (rest : Parts) :
    parts x pass n filling (.thread port name false body rest) s =
      parts x pass n filling rest s := by
  rw [parts.eq_def]
  simp only [hf]

theorem parts_thread {isConnected : Bool}
    (h : ∀ f, isConnected = false → Walk.namedFunction? filling.inputs = some f → False)
    (port name : String) (body : Chain) (rest : Parts) :
    parts x pass n filling (.thread port name isConnected body rest) s =
      chain x pass body (Walk.openBlock n ⟨n.node.id, port⟩ true [] filling.vars s) ++
        after (Walk.chain x pass body (Walk.openBlock n ⟨n.node.id, port⟩ true [] filling.vars s))
          fun written => parts x pass n filling rest (Walk.closeBlock written.2).2 := by
  rw [parts.eq_def]
  dsimp only
  split
  · rename_i f hf
    exact absurd hf (h f rfl)
  · rfl

/-! ### The list is complete -/

/-- What the recording pass notes of some reads: those of temporaries, with their blocks. -/
def noted (x : Index) (cs : List ReadCall) : List (String × Path) :=
  (cs.filter fun c => (x.node? c.port.node).any fun n => !n.hasExec && !isInlined x n).map
    fun c => (c.port.node, path c.state.scopes)

@[simp] theorem noted_append (x : Index) (cs ds : List ReadCall) :
    noted x (cs ++ ds) = noted x cs ++ noted x ds := by simp [noted]

theorem note_reads (hid : n.node.id = e.node) (hn : x.node? e.node = some n) (fuel : Nat)
    (pending : List String) :
    (note x .recording n s).reads = s.reads ++ noted x [⟨fuel, pending, e, s⟩] := by
  cases hx : n.hasExec <;> cases hi : isInlined x n <;>
    simp [note, noted, hx, hi, hn, hid]

theorem conclude_reads {r : Recipe} {resolved : Except Failure (Inputs × Code × State)}
    {value : Option Expr} (h : conclude x pass e n r s resolved = .ok (value, code, s')) :
    ∃ made, resolved = .ok made ∧ s'.reads = made.2.2.reads := by
  unfold conclude at h
  obtain ⟨⟨inputs, before, t⟩, hres, h⟩ := bind_eq_ok.mp h
  obtain ⟨⟨em, t'⟩, hem, h⟩ := bind_eq_ok.mp h
  obtain ⟨-, rfl, -, -⟩ := emit_ok hem
  refine ⟨_, hres, ?_⟩
  dsimp only at h
  split at h
  · cases h
  split at h
  · cases h
    rfl
  · cases h
    rw [State.fetch_reads, State.raise]
    split <;> simp

/-- The inputs of a node are noted as they are read. -/
theorem resolve_reads {read : Endpoint → State → Except Failure (Option Expr × Code × State)}
    {log : Endpoint → State → List ReadCall}
    (hread : ∀ {e s value code s'}, read e s = .ok (value, code, s') →
      s'.reads = s.reads ++ noted x (log e s)) :
    ∀ (ts : List PortTemplate) {inputs inputs' : Inputs} {s s' : State} {code : Code},
      Evaluation.resolve x n read ts inputs s = .ok (inputs', code, s') →
        s'.reads = s.reads ++ noted x (resolve x n read log ts s)
  | [], _, _, _, _, _, h => by
    cases h
    simp [resolve, noted]
  | t :: ts, inputs, inputs', s, s', code, h => by
    rw [resolve]
    by_cases hk : t.kind = .data
    case neg =>
      rw [resolve_skip hk] at h
      rw [if_pos hk]
      exact resolve_reads hread ts h
    rw [if_neg (not_not.mpr hk)]
    cases hsource : source? x n t with
    | none =>
      rw [resolve_literal hk hsource] at h
      obtain ⟨value, hv, h⟩ := bind_eq_ok.mp h
      simp only [hv, after]
      exact resolve_reads hread ts h
    | some e =>
      rw [Evaluation.resolve, if_neg (not_not.mpr hk), hsource] at h
      obtain ⟨⟨value, before, s₁⟩, h₁, h⟩ := bind_eq_ok.mp h
      obtain ⟨⟨inputs₂, more, s₂⟩, h₂, h⟩ := bind_eq_ok.mp h
      cases h
      simp only [h₁, after, noted_append]
      rw [resolve_reads hread ts h₂, hread h₁, List.append_assoc]

theorem atOnce_reads (hid : ∀ {id n}, x.node? id = some n → n.node.id = id) {value : Option Expr}
    (h : ReadsAtOnce x .recording pending e s (.ok (value, code, s'))) (fuel : Nat) :
    s'.reads = s.reads ++ noted x (read x .recording fuel pending e s) := by
  rw [read_of_atOnce h]
  cases h with
  | bound hn hl => exact note_reads (hid hn) hn fuel pending

/-- A read is noted, and so are the reads on the way to its value. -/
theorem read_reads (hid : ∀ {id n}, x.node? id = some n → n.node.id = id) :
    ∀ (fuel : Nat) {pending : List String} {e : Endpoint} {s s' : State} {value : Option Expr}
      {code : Code}, Evaluation.read x .recording fuel pending e s = .ok (value, code, s') →
        s'.reads = s.reads ++ noted x (read x .recording fuel pending e s)
  | fuel, pending, e, s, s', value, code, h => by
    rcases readsAtOnce_or_evaluates x .recording pending e s with ⟨result, hat⟩ | ⟨n, r, hev⟩
    · obtain rfl := (hat.read_eq fuel).symm.trans h
      exact atOnce_reads hid hat fuel
    cases fuel with
    | zero =>
      rw [Evaluation.read] at h
      simp only [hev.node, hev.free, hev.data, hev.fresh, hev.recipe, Bool.false_eq_true,
        if_false] at h
      cases h
    | succ fuel =>
      rw [hev.read_succ] at h
      obtain ⟨⟨inputs, before, t⟩, hres, hreads⟩ := conclude_reads h
      have hnote : (note x .recording n s).reads = _ :=
        note_reads (hid hev.node) hev.node (fuel + 1) pending
      have hrest := resolve_reads (read_reads hid fuel) _ hres
      rw [hreads, hrest, read_of_evaluates hev, State.lower, hnote, List.append_assoc,
        ← noted_append]
      rfl

theorem enter_reads (hid : ∀ {id n}, x.node? id = some n → n.node.id = id)
    (h : Walk.enter x .recording n s = .ok (filling, code, s')) :
    s'.reads = s.reads ++ noted x (enter x .recording n s) := by
  obtain ⟨r, s₁, em, s₂, hr, hin, hem, -, rfl⟩ := Walk.enter_ok h
  obtain ⟨-, rfl, -, -⟩ := emit_ok hem
  have hreads : s₁.reads = _ := resolve_reads (read_reads hid x.placed.length) _ hin
  rw [Walk.bindOutputs_reads, enter, hr]
  exact hreads

mutual

theorem chain_reads (hid : ∀ {id n}, x.node? id = some n → n.node.id = id) :
    ∀ (c : Chain) {s s' : State} {code : Code}, Walk.chain x .recording c s = .ok (code, s') →
      s'.reads = s.reads ++ noted x (chain x .recording c s)
  | .done, s, s', code, h => by
    rw [Walk.chain] at h
    cases h
    simp [chain, noted]
  | .halt _, _, _, _, h => by
    rw [Walk.chain] at h
    cases h
  | .step id own rest, s, s', code, h => by
    rw [Walk.chain] at h
    split at h
    · cases h
    rename_i n hn
    obtain ⟨⟨filling, before, s₁⟩, h₁, h⟩ := bind_eq_ok.mp h
    obtain ⟨⟨inner, s₂⟩, h₂, h⟩ := bind_eq_ok.mp h
    obtain ⟨⟨behind, s₃⟩, h₃, h⟩ := bind_eq_ok.mp h
    cases h
    rw [chain]
    simp only [hn, h₁, h₂, after, noted_append]
    rw [chain_reads hid rest h₃, Walk.setHoisted_reads, parts_reads hid own h₂,
      Walk.setHoisted_reads, enter_reads hid h₁]
    simp only [List.append_assoc]

theorem parts_reads (hid : ∀ {id n}, x.node? id = some n → n.node.id = id) {n : PlacedNode}
    {filling : Walk.Filling} : ∀ (p : Parts) {s s' : State} {code : Code},
      Walk.parts x .recording n filling p s = .ok (code, s') →
        s'.reads = s.reads ++ noted x (parts x .recording n filling p s)
  | .done, s, s', code, h => by
    rw [Walk.parts] at h
    cases h
    simp [parts, noted]
  | .line t rest, s, s', code, h => by
    rw [Walk.parts] at h
    obtain ⟨⟨behind, s₁⟩, h₁, h⟩ := bind_eq_ok.mp h
    cases h
    rw [parts]
    exact parts_reads hid rest h₁
  | .follow body rest, s, s', code, h => by
    rw [Walk.parts] at h
    obtain ⟨⟨inner, s₁⟩, h₁, h⟩ := bind_eq_ok.mp h
    obtain ⟨⟨behind, s₂⟩, h₂, h⟩ := bind_eq_ok.mp h
    cases h
    rw [parts]
    simp only [h₁, after, noted_append]
    rw [parts_reads hid rest h₂, chain_reads hid body h₁, List.append_assoc]
  | .block port bindings tail body rest, s, s', code, h => by
    rw [Walk.parts] at h
    obtain ⟨⟨inner, s₁⟩, h₁, h⟩ := bind_eq_ok.mp h
    obtain ⟨⟨behind, s₂⟩, h₂, h⟩ := bind_eq_ok.mp h
    cases h
    have hrest : s'.reads = (Walk.closeBlock s₁).2.reads ++ _ := parts_reads hid rest h₂
    rw [parts]
    simp only [h₁, after, noted_append]
    rw [hrest, Walk.closeBlock_reads, chain_reads hid body h₁,
      Walk.openBlock_reads, List.append_assoc]
  | .thread port name isConnected body rest, s, s', code, h => by
    rw [Walk.parts.eq_def] at h
    dsimp only at h
    split at h
    · rename_i f hf
      obtain ⟨⟨behind, s₁⟩, h₁, h⟩ := bind_eq_ok.mp h
      cases h
      rw [parts_named hf]
      exact parts_reads hid rest h₁
    · rename_i hnone
      obtain ⟨⟨inner, s₁⟩, h₁, h⟩ := bind_eq_ok.mp h
      obtain ⟨⟨behind, s₂⟩, h₂, h⟩ := bind_eq_ok.mp h
      cases h
      have hrest : s₂.reads = (Walk.closeBlock s₁).2.reads ++ _ := parts_reads hid rest h₂
      rw [parts_thread hnone]
      simp only [h₁, after, noted_append]
      rw [hrest, Walk.closeBlock_reads, chain_reads hid body h₁,
        Walk.openBlock_reads, List.append_assoc]

end

/-- **The list is complete**: the recording pass notes the reads of temporaries that are listed, in
their order, and no others. -/
theorem walk_reads (hid : ∀ {id n}, x.node? id = some n → n.node.id = id) {flow : Parts}
    (h : EntryFunction.walkFlow x .recording n flow = .ok (code, s)) :
    s.reads = noted x (walk x .recording n flow) := by
  rw [parts_reads hid flow h, EntryFunction.initial_reads, List.nil_append]
  rfl

end ReadLog

/-! ### The state in which a read begins -/

/-- A scope is open, and temporaries are remembered. -/
structure State.Ready (x : Index) (connections : List Connection) (s : State) : Prop where
  scopes : s.scopes ≠ []
  memo   : Memo x connections s.scopes

/-- A connection makes the read, and there is fuel for every node that may still be evaluated. -/
structure ReadCall.Sound (x : Index) (connections : List Connection) (c : ReadCall) : Prop where
  source : ∃ k ∈ connections, k.source = c.port
  fuel   : x.remaining c.pending ≤ c.fuel
  state  : c.state.Ready x connections

namespace State.Ready

variable {nodes : List Node} {connections : List Connection} {x : Index} {pass : Pass}
  {n : PlacedNode} {s s' : State}

variable (h : s.Ready x connections)

include h

theorem read {fuel : Nat} {pending : List String} {e : Endpoint} {value : Option Expr}
    {code : Code} (hb : Index.Built .builtin nodes connections x)
    (hsource : ∃ k ∈ connections, k.source = e)
    (hr : Evaluation.read x pass fuel pending e s = .ok (value, code, s')) :
    s'.Ready x connections :=
  ⟨((growing x pass).read fuel hr).1.ne_nil h.scopes,
    (remembering hb pass).read fuel hr hsource h.memo⟩

/-- The state in which the inputs of an evaluated node are resolved. -/
theorem lower (e : Endpoint) :
    ((note x pass n s).lower (hiddenScopes x pass e n (note x pass n s))).Ready x connections := by
  have hne : (note x pass n s).scopes ≠ [] := by
    rw [note_scopes]
    exact h.scopes
  refine ⟨?_, Memo.lower (by rw [note_scopes]; exact h.memo) _⟩
  unfold hiddenScopes
  split
  · exact hne
  · exact lower_ne_nil hne _

theorem enter {filling : Walk.Filling} {code : Code}
    (hb : Index.Built .builtin nodes connections x) (hx : x.hasExec n.node.id = true)
    (henter : Walk.enter x pass n s = .ok (filling, code, s')) : s'.Ready x connections :=
  ⟨Walk.enter_ne_nil h.scopes henter, Walk.enter_remembers hb hx h.memo henter⟩

theorem setHoisted (code : Code) : (Walk.setHoisted s code).Ready x connections :=
  ⟨Walk.setHoisted_ne_nil h.scopes code, h.memo.setHoisted code⟩

theorem parts {filling : Walk.Filling} {own : Parts} {code : Code}
    (hb : Index.Built .builtin nodes connections x) (hx : x.hasExec n.node.id = true)
    (hexec : ∀ id ∈ own.nodes, x.hasExec id = true)
    (hrun : Walk.parts x pass n filling own s = .ok (code, s')) : s'.Ready x connections :=
  ⟨((writing x pass hb.node_id).parts own hrun).1.ne_nil h.scopes,
    (Walk.remembering hb pass).parts own hrun hx hexec h.memo⟩

theorem chain {c : Chain} {code : Code} (hb : Index.Built .builtin nodes connections x)
    (hexec : ∀ id ∈ c.nodes, x.hasExec id = true) (hrun : Walk.chain x pass c s = .ok (code, s')) :
    s'.Ready x connections :=
  ⟨((writing x pass hb.node_id).chain c hrun).1.1.ne_nil h.scopes,
    (Walk.remembering hb pass).chain c hrun hexec h.memo⟩

theorem openBlock (hx : x.hasExec n.node.id = true) (key : BlockKey) (isThread : Bool)
    (bindings : List (String × Nat)) (vars : List String) :
    (Walk.openBlock n key isThread bindings vars s).Ready x connections :=
  ⟨Walk.openBlock_ne_nil n key isThread bindings vars s, h.memo.openBlock hx⟩

/-- A block is written, and its scope closed. -/
theorem block {key : BlockKey} {isThread : Bool} {bindings : List (String × Nat)}
    {vars : List String} {body : Chain} {code : Code}
    (hb : Index.Built .builtin nodes connections x) (hx : x.hasExec n.node.id = true)
    (hexec : ∀ id ∈ body.nodes, x.hasExec id = true)
    (hrun : Walk.chain x pass body (Walk.openBlock n key isThread bindings vars s) =
      .ok (code, s')) : (Walk.closeBlock s').2.Ready x connections :=
  ⟨(Walk.closeBlock_grow ((writing x pass hb.node_id).chain body hrun).1.1).ne_nil h.scopes,
    ((h.openBlock hx key isThread bindings vars).chain hb hexec hrun).memo.closeBlock⟩

end State.Ready

namespace ReadLog

variable {nodes : List Node} {connections : List Connection} {x : Index} {pass : Pass}
  (hb : Index.Built .builtin nodes connections x)

include hb

theorem resolve_sound {n : PlacedNode} {fuel : Nat} {pending : List String}
    (hfuel : x.remaining pending ≤ fuel)
    (hread : ∀ {e s}, ReadCall.Sound x connections ⟨fuel, pending, e, s⟩ →
      ∀ c ∈ read x pass fuel pending e s, c.Sound x connections) :
    ∀ (ts : List PortTemplate) {s : State}, s.Ready x connections →
      ∀ c ∈ resolve x n (Evaluation.read x pass fuel pending) (read x pass fuel pending) ts s,
        c.Sound x connections
  | [], _, _, c, hc => by cases hc
  | t :: ts, s, hs, c, hc => by
    rw [resolve] at hc
    split at hc
    · exact resolve_sound hfuel hread ts hs c hc
    split at hc
    · rename_i e he
      have hsource := hb.mem_of_source he
      rcases List.mem_append.mp hc with hc | hc
      · exact hread ⟨hsource, hfuel, hs⟩ c hc
      · obtain ⟨⟨value, code, s'⟩, hr, hc⟩ := mem_after.mp hc
        exact resolve_sound hfuel hread ts (hs.read hb hsource hr) c hc
    · obtain ⟨value, -, hc⟩ := mem_after.mp hc
      exact resolve_sound hfuel hread ts hs c hc

/-- Each evaluation on the way to a value takes one node and one unit of fuel. -/
theorem read_sound : ∀ (fuel : Nat) {pending : List String} {e : Endpoint} {s : State},
      ReadCall.Sound x connections ⟨fuel, pending, e, s⟩ →
        ∀ c ∈ read x pass fuel pending e s, c.Sound x connections
  | fuel, pending, e, s, h, c, hc => by
    rcases readsAtOnce_or_evaluates x pass pending e s with ⟨result, hat⟩ | ⟨n, r, hev⟩
    · rw [read_of_atOnce hat] at hc
      exact List.mem_singleton.mp hc ▸ h
    have hmem : e.node ∈ x.order := List.mem_map.mpr ⟨_, Index.mem_placed hev.node, rfl⟩
    have hless := Index.remaining_cons_lt hmem hev.fresh
    have hfuel : x.remaining pending ≤ fuel := h.fuel
    cases fuel with
    | zero => omega
    | succ fuel =>
      rw [read_of_evaluates hev] at hc
      rcases List.mem_cons.mp hc with rfl | hc
      · exact h
      · exact resolve_sound hb (by omega) (read_sound fuel) _ (h.state.lower e) c hc

theorem enter_sound {n : PlacedNode} {s : State} (hs : s.Ready x connections) :
    ∀ c ∈ enter x pass n s, c.Sound x connections := by
  intro c hc
  rw [enter] at hc
  split at hc
  · cases hc
  · exact resolve_sound hb (by rw [Index.remaining_nil]) (read_sound hb _) _ hs c hc

mutual

theorem chain_sound : ∀ (ch : Chain) {s : State},
    (∀ id ∈ ch.nodes, x.hasExec id = true) → s.Ready x connections →
      ∀ c ∈ chain x pass ch s, c.Sound x connections
  | .done, _, _, _, c, hc => by
    rw [chain] at hc
    cases hc
  | .halt _, _, _, _, c, hc => by
    rw [chain] at hc
    cases hc
  | .step id own rest, s, hexec, hs, c, hc => by
    rw [chain] at hc
    split at hc
    · cases hc
    rename_i n hn
    have hx : x.hasExec n.node.id = true := by
      rw [hb.node_id hn]
      exact hexec id (.head _)
    have hown : ∀ a ∈ own.nodes, x.hasExec a = true := fun a ha =>
      hexec a (.tail _ (List.mem_append_left _ ha))
    have hrest : ∀ a ∈ rest.nodes, x.hasExec a = true := fun a ha =>
      hexec a (.tail _ (List.mem_append_right _ ha))
    rcases List.mem_append.mp hc with hc | hc
    · exact enter_sound hb hs c hc
    obtain ⟨⟨filling, before, s₁⟩, h₁, hc⟩ := mem_after.mp hc
    have hs₁ := (hs.enter hb hx h₁).setHoisted .done
    rcases List.mem_append.mp hc with hc | hc
    · exact parts_sound own hx hown hs₁ c hc
    obtain ⟨⟨inner, s₂⟩, h₂, hc⟩ := mem_after.mp hc
    exact chain_sound rest hrest ((hs₁.parts hb hx hown h₂).setHoisted _) c hc

theorem parts_sound {n : PlacedNode} {filling : Walk.Filling} :
    ∀ (p : Parts) {s : State}, x.hasExec n.node.id = true →
    (∀ id ∈ p.nodes, x.hasExec id = true) → s.Ready x connections →
      ∀ c ∈ parts x pass n filling p s, c.Sound x connections
  | .done, _, _, _, _, c, hc => by
    rw [parts] at hc
    cases hc
  | .line t rest, s, hx, hexec, hs, c, hc => by
    rw [parts] at hc
    exact parts_sound rest hx hexec hs c hc
  | .follow body rest, s, hx, hexec, hs, c, hc => by
    have hbody : ∀ a ∈ body.nodes, x.hasExec a = true := fun a ha =>
      hexec a (List.mem_append_left _ ha)
    rw [parts] at hc
    rcases List.mem_append.mp hc with hc | hc
    · exact chain_sound body hbody hs c hc
    · obtain ⟨⟨inner, s₁⟩, h₁, hc⟩ := mem_after.mp hc
      exact parts_sound rest hx (fun a ha => hexec a (List.mem_append_right _ ha))
        (hs.chain hb hbody h₁) c hc
  | .block port bindings tail body rest, s, hx, hexec, hs, c, hc => by
    have hbody : ∀ a ∈ body.nodes, x.hasExec a = true := fun a ha =>
      hexec a (List.mem_append_left _ ha)
    rw [parts] at hc
    rcases List.mem_append.mp hc with hc | hc
    · exact chain_sound body hbody (hs.openBlock hx _ _ _ _) c hc
    · obtain ⟨⟨inner, s₁⟩, h₁, hc⟩ := mem_after.mp hc
      exact parts_sound rest hx (fun a ha => hexec a (List.mem_append_right _ ha))
        (hs.block hb hx hbody h₁) c hc
  | .thread port name isConnected body rest, s, hx, hexec, hs, c, hc => by
    have hbody : ∀ a ∈ body.nodes, x.hasExec a = true := fun a ha =>
      hexec a (List.mem_append_left _ ha)
    have hrest : ∀ a ∈ rest.nodes, x.hasExec a = true := fun a ha =>
      hexec a (List.mem_append_right _ ha)
    rw [parts.eq_def] at hc
    dsimp only at hc
    split at hc
    · exact parts_sound rest hx hrest hs c hc
    rcases List.mem_append.mp hc with hc | hc
    · exact chain_sound body hbody (hs.openBlock hx _ _ _ _) c hc
    · obtain ⟨⟨inner, s₁⟩, h₁, hc⟩ := mem_after.mp hc
      exact parts_sound rest hx hrest (hs.block hb hx hbody h₁) c hc

end

/-- **Every read of a pass** begins with a scope open and temporaries remembered, is made by a
connection, and has fuel enough. -/
theorem walk_sound {n : PlacedNode} {flow : Parts}
    (hflow : (n, flow) ∈ Script.flows x x.entries {}) {c : ReadCall} (hc : c ∈ walk x pass n flow) :
    c.Sound x connections := by
  have hlaid := (Script.flows_entries hb).1 _ hflow
  have hn := ((Script.mem_entries hb).mp (Script.mem_of_mem_flows hflow)).1
  have hexec : ∀ id ∈ flow.nodes, x.hasExec id = true := by
    intro id hid
    obtain ⟨m, -, hm, -, hx, -⟩ := hlaid.node hid
    rw [Index.hasExec_eq hm, hx]
  -- no control goes on from an entry without exec ports
  have hx : x.hasExec n.node.id = true := by
    rw [Index.hasExec_eq hn]
    by_contra hx
    rw [EntryFunction.entryItems_eq_nil (by simpa using hx)] at hlaid
    cases hlaid
    rw [walk, parts] at hc
    cases hc
  refine parts_sound hb flow hx hexec ⟨?_, EntryFunction.initial_memo hx⟩ c hc
  simp [EntryFunction.initial_scopes]

end ReadLog

/-! ### What a read comes to -/

/-- What a read that succeeds comes to. -/
structure ReadCall.Answered (x : Index) (connections : List Connection) (c : ReadCall)
    (value : Option Expr) (code : Code) (s : State) : Prop where
  /-- Only a spare port has no value. -/
  missing : value = none ↔ x.Spare c.port
  /-- The value of a temporary is a variable, which is visible from then on.  Where a value was
  visible before, it was this variable, and nothing is declared. -/
  kept : x.Kept c.port → (∀ k ∈ connections, k.source.node = c.port.node → ¬ x.Spare k.source) →
    ∃ v, value = some (.ofVar v) ∧ Shows s.scopes c.port (.ofVar v) ∧
      ∀ w, Shows c.state.scopes c.port w →
        w = .ofVar v ∧ code = .done ∧ s.counter = c.state.counter

/-- Where a value is visible, nothing is declared. -/
theorem Evaluation.read_visible {x : Index} {pass : Pass} {fuel : Nat} {pending : List String}
    {e : Endpoint} {s s' : State} {value : Option Expr} {code : Code} (h : Binds s.scopes e)
    (hr : Evaluation.read x pass fuel pending e s = .ok (value, code, s')) :
    code = .done ∧ s'.counter = s.counter := by
  rcases readsAtOnce_or_evaluates x pass pending e s with ⟨result, hat⟩ | ⟨n, r, hev⟩
  · obtain rfl := (hat.read_eq fuel).symm.trans hr
    cases hat with
    | bound hn hl => exact ⟨rfl, note_counter x pass _ s⟩
  · have hfree := hev.free
    rw [note_scopes] at hfree
    exact absurd h (not_binds_of_lookup? hfree)

section

variable {nodes : List Node} {connections : List Connection} {x : Index} {pass : Pass}
  {c : ReadCall}

/-- A port that is not spare is paired. -/
theorem Index.Kept.matched {e e' : Endpoint} (h : x.Kept e) (hnode : e'.node = e.node)
    (ho : ∃ s, x.socket? e' = some s ∧ s.port.isInput = false) (hspare : ¬ x.Spare e') :
    x.Matched e' := by
  obtain ⟨s, hs, -⟩ := ho
  have hkept : x.Kept e' := by rwa [Index.Kept, hnode]
  exact ⟨s, hs, Option.isSome_iff_ne_none.mpr fun hnone => hspare ⟨hkept, s, hs, hnone⟩⟩

theorem Index.Kept.hasExec {e : Endpoint} (h : x.Kept e) : x.hasExec e.node = false := by
  obtain ⟨n, hn, hx, -⟩ := h
  rw [Index.hasExec_eq hn, hx]

/-- A value that is not written in place is visible from then on. -/
theorem Index.Kept.shown (h : x.Kept c.port) {value : Expr} {code : Code} {s : State}
    (hr : c.result x pass = .ok (some value, code, s)) : Shows s.scopes c.port value := by
  refine ((showing x pass).read c.fuel hr value rfl).resolve_left ?_
  obtain ⟨n, hn, -, hi⟩ := h
  rintro ⟨n', hn', hi'⟩
  cases hn.symm.trans hn'
  rw [hi] at hi'
  cases hi'

theorem ReadCall.Sound.missing_iff (h : c.Sound x connections)
    (hb : Index.Built .builtin nodes connections x) {value : Option Expr} {code : Code} {s : State}
    (hr : c.result x pass = .ok (value, code, s)) : value = none ↔ x.Spare c.port := by
  constructor
  · rintro rfl
    have hvalued := (valued_unless hb x.Spare (fun _ _ h => h) pass).read c.fuel hr
    exact (hvalued.2 h.state.scopes h.source).resolve_left (by simp)
  · rintro ⟨hkept, socket, hs, hnone⟩
    -- a value would be visible, and then the port would be paired
    by_contra hvalue
    obtain ⟨v, rfl⟩ := Option.ne_none_iff_exists'.mp hvalue
    have hmemo := (h.state.read hb h.source hr).memo
    obtain ⟨⟨socket', hs', ht⟩, -⟩ := hmemo.paired.shows (hkept.shown hr) hkept.hasExec
    cases hs.symm.trans hs'
    rw [hnone] at ht
    cases ht

/-- **What a read that succeeds comes to.** -/
theorem ReadCall.Sound.answered (h : c.Sound x connections)
    (hb : Index.Built .builtin nodes connections x) {value : Option Expr} {code : Code} {s : State}
    (hr : c.result x pass = .ok (value, code, s)) : c.Answered x connections value code s := by
  refine ⟨h.missing_iff hb hr, fun hkept hclean => ?_⟩
  obtain ⟨k, hk, hport⟩ := h.source
  have hspare : ¬ x.Spare c.port := hport ▸ hclean k hk (by rw [hport])
  obtain ⟨value, rfl⟩ := Option.ne_none_iff_exists'.mp fun hnone =>
    hspare ((h.missing_iff hb hr).mp hnone)
  have hmemo := (h.state.read hb h.source hr).memo
  have hshown := hkept.shown hr
  have hpaired : ∀ k ∈ connections, k.source.node = c.port.node → x.Matched k.source :=
    fun k hk hnode => hkept.matched hnode (hb.output_of_source ⟨k, hk, rfl⟩) (hclean k hk hnode)
  obtain ⟨-, v, rfl⟩ := hmemo.paired.shows hshown hkept.hasExec
  refine ⟨v, rfl, hshown, fun w hw => ⟨?_, read_visible hw.binds hr⟩⟩
  exact hmemo.single hkept.hasExec hpaired (((growing x pass).read c.fuel hr).1.shows hw) hshown

/-- **Why a read fails**: because of a fault, or a node behind the port is irregular. -/
theorem ReadCall.Sound.fault_or_irregular (h : c.Sound x connections)
    (hb : Index.Built .builtin nodes connections x) {f : Failure}
    (hr : c.result x pass = .error f) :
    (∃ g, f = .fault g ∧ x.Names g) ∨
      ∃ n m, x.node? c.port.node = some n ∧ x.Behind n m ∧ x.Irregular m := by
  obtain ⟨socket, hs, -⟩ := hb.output_of_source h.source
  obtain ⟨n, hn, -, -⟩ := Index.mem_of_socket? hs
  have hexplains := explains_of_fuel hb pass c.fuel c.pending h.fuel
  rcases hexplains c.port n c.state f hn h.state.scopes hr with ⟨g, rfl, hg⟩ | ⟨-, -, hblocked⟩
  · exact .inl ⟨g, rfl, hg.names hn⟩
  · refine (hblocked.fault_or_irregular hb hn).imp_right ?_
    rintro ⟨m, hm, -, hbad⟩
    exact ⟨n, m, hn, hm, hbad⟩

/-- **Every read is answered.**  All reads of temporaries are listed.  In each pass over the flow of
an entry, a read that succeeds gives a value unless it is made through a spare port, and a temporary
is always the same as long as it is visible, if its node is not read through a spare port.  A read
that fails stops at a fault that names a node of the graph, or a node behind the port is
irregular. -/
theorem EntryFunction.reads_answered (hbuild : Index.build .builtin nodes connections = .ok x)
    {n : PlacedNode} {flow : Parts} (hflow : (n, flow) ∈ Script.flows x x.entries {}) :
    (∀ code s, walkFlow x .recording n flow = .ok (code, s) →
      s.reads = ReadLog.noted x (ReadLog.walk x .recording n flow)) ∧
    ∀ pass, ∀ c ∈ ReadLog.walk x pass n flow,
      (∀ value code s, c.result x pass = .ok (value, code, s) →
        c.Answered x connections value code s) ∧
      ∀ f, c.result x pass = .error f → (∃ g, f = .fault g ∧ x.Names g) ∨
        ∃ m k, x.node? c.port.node = some m ∧ x.Behind m k ∧ x.Irregular k := by
  have hb := Index.built_of_build hbuild
  refine ⟨fun _ _ => ReadLog.walk_reads hb.node_id, fun pass c hc => ?_⟩
  have hsound := ReadLog.walk_sound hb hflow hc
  exact ⟨fun _ _ _ => hsound.answered hb, fun _ => hsound.fault_or_irregular hb⟩

end

namespace EntryFunction

/-- A random number with a port too many. -/
def diceNodes : List Node :=
  [{ id := "spawn", nodeType := "on-player-respawned" },
   { id := "roll", nodeType := "math-random-int"
     outputs := [{ id := "number", label := "Result", isInput := false },
       { id := "result", isInput := false }] },
   { id := "note", nodeType := "print" }, { id := "again", nodeType := "print" },
   { id := "third", nodeType := "print" }]

/-- The number is printed twice. -/
def diceConnections : List Connection :=
  [⟨"c0", ⟨"spawn", "output_0"⟩, ⟨"note", "input_0"⟩⟩,
   ⟨"c1", ⟨"note", "output_0"⟩, ⟨"again", "input_0"⟩⟩,
   ⟨"c2", ⟨"roll", "number"⟩, ⟨"note", "input_1"⟩⟩,
   ⟨"c4", ⟨"roll", "number"⟩, ⟨"third", "input_1"⟩⟩,
   ⟨"c5", ⟨"again", "output_0"⟩, ⟨"third", "input_0"⟩⟩]

/-- The second read comes to the variable of the first. -/
theorem reads_answered_dice : ∃ x n flow c code s,
    Index.build .builtin diceNodes diceConnections = .ok x ∧
      (n, flow) ∈ Script.flows x x.entries {} ∧ c ∈ ReadLog.walk x .recording n flow ∧
      Shows c.state.scopes c.port (.ofVar "rand0") ∧
      c.result x .recording = .ok (some (.ofVar "rand0"), code, s) ∧ code = .done := by
  have key : (Index.build .builtin diceNodes diceConnections).toOption.any (fun x =>
      (Script.flows x x.entries {}).any fun q => (ReadLog.walk x .recording q.1 q.2).any fun c =>
        decide (Shows c.state.scopes c.port (.ofVar "rand0") ∧ x.Kept c.port ∧
          ∀ k ∈ diceConnections, k.source.node = c.port.node → ¬ x.Spare k.source) &&
        (c.result x .recording).toOption.isSome) = true := by
    rw [Index.build, Index.addNode_builtin]
    decide +kernel
  obtain ⟨x, hx, key⟩ := exists_ok_of_any key
  obtain ⟨⟨n, flow⟩, hflow, key⟩ := List.any_eq_true.mp key
  obtain ⟨c, hc, key⟩ := List.any_eq_true.mp key
  obtain ⟨key, hok⟩ := Bool.and_eq_true_iff.mp key
  obtain ⟨hshown, hkept, hclean⟩ := of_decide_eq_true key
  obtain ⟨⟨value, code, s⟩, hr⟩ := Option.isSome_iff_exists.mp hok
  have hr := ok_of_toOption hr
  have hall := (reads_answered hx hflow).2 .recording c hc
  obtain ⟨v, rfl, -, hsame⟩ := (hall.1 value code s hr).kept hkept hclean
  obtain ⟨hv, hcode, -⟩ := hsame _ hshown
  exact ⟨x, n, flow, c, code, s, hx, hflow, hc, hshown, hv ▸ hr, hcode⟩

/-- One read more, through the spare port, has no value, and the number is drawn again for it: where
the first variable is still visible, the last read comes to another. -/
theorem spare_port_forgets : ∃ x n flow c c' code code' s s',
    Index.build .builtin diceNodes
        (⟨"c3", ⟨"roll", "result"⟩, ⟨"again", "input_1"⟩⟩ :: diceConnections) = .ok x ∧
      (n, flow) ∈ Script.flows x x.entries {} ∧
      c ∈ ReadLog.walk x .recording n flow ∧ c.result x .recording = .ok (none, code, s) ∧
      c' ∈ ReadLog.walk x .recording n flow ∧ x.Kept c'.port ∧
      Shows c'.state.scopes c'.port (.ofVar "rand0") ∧
      c'.result x .recording = .ok (some (.ofVar "rand1"), code', s') := by
  have key : (Index.build .builtin diceNodes
      (⟨"c3", ⟨"roll", "result"⟩, ⟨"again", "input_1"⟩⟩ :: diceConnections)).toOption.any (fun x =>
      (Script.flows x x.entries {}).any fun q =>
        ((ReadLog.walk x .recording q.1 q.2).any fun c =>
          (c.result x .recording).toOption.any fun made => decide (made.1 = none)) &&
        (ReadLog.walk x .recording q.1 q.2).any fun c =>
          decide (x.Kept c.port ∧ Shows c.state.scopes c.port (.ofVar "rand0")) &&
          (c.result x .recording).toOption.any fun made =>
            decide (made.1 = some (.ofVar "rand1"))) = true := by
    rw [Index.build, Index.addNode_builtin]
    decide +kernel
  obtain ⟨x, hx, key⟩ := exists_ok_of_any key
  obtain ⟨⟨n, flow⟩, hflow, key⟩ := List.any_eq_true.mp key
  obtain ⟨key, key'⟩ := Bool.and_eq_true_iff.mp key
  obtain ⟨c, hc, key⟩ := List.any_eq_true.mp key
  obtain ⟨⟨value, code, s⟩, hr, hvalue⟩ := exists_ok_of_any key
  obtain ⟨c', hc', key'⟩ := List.any_eq_true.mp key'
  obtain ⟨hshown, key'⟩ := Bool.and_eq_true_iff.mp key'
  obtain ⟨⟨value', code', s'⟩, hr', hvalue'⟩ := exists_ok_of_any key'
  obtain ⟨hkept, hshown⟩ := of_decide_eq_true hshown
  obtain rfl : value = none := of_decide_eq_true hvalue
  obtain rfl : value' = _ := of_decide_eq_true hvalue'
  exact ⟨x, n, flow, c, c', code, code', s, s', hx, hflow, hc, hr, hc', hkept, hshown, hr'⟩

end EntryFunction

end VisualScript
