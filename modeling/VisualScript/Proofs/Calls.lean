import VisualScript.Proofs.Hoisting

/-!
# Proofs — Calls

The calls behind a value, without fuel.  `Evaluation.floor` and `Evaluation.read` recurse on fuel;
here each call is a rule, so what is derived is a finite tree of calls.

* `Descends`: looking for the floor of a placement.  The nodes that are expanded are noted in their
  order, and none is expanded twice (`Descends.once`).
* `ReadsOutput`, `ResolvesInputs`: reading an output port and resolving the inputs of a node.  For
  every evaluation that is begun, the nodes under evaluation are noted; they differ, and no control
  passes through them (`ReadsOutput.apart`).

The number of nodes is fuel enough: `floor` and `read` give what is derived (`descends_floor`,
`readsOutput_read`), and more fuel gives the same (`floor_fuel`, `resolve_fuel`).
-/

namespace VisualScript

open Evaluation Scopes

variable {fuel : Nat} {pending : List String} {e : Endpoint} {n : PlacedNode} {t : PortTemplate}

variable {x : Index} {pass : Pass}

/-! ### Placement queries -/

/-- The output ports that feed the data inputs of a node. -/
def Evaluation.sources (x : Index) (n : PlacedNode) : List Endpoint :=
  (n.definition.inputs.filter (·.kind == .data)).filterMap (source? x n)

mutual

/-- The floor of a node is looked for, where the nodes `seen` have been looked at before.  The
result is the level and what has been looked at; the nodes `expanded` are expanded on the way. -/
inductive Descends (x : Index) (ss : Scopes) :
    (id : String) → (seen : List String) → Nat × List String → (expanded : List String) → Prop where
  | again {id : String} {seen : List String} (mem : id ∈ seen) : Descends x ss id seen (0, seen) []
  | missing {id : String} {seen : List String} (fresh : id ∉ seen) (node : x.node? id = none) :
      Descends x ss id seen (0, id :: seen) [id]
  | expand {id : String} {seen expanded : List String} {n : PlacedNode} {result : Nat × List String}
      (fresh : id ∉ seen) (node : x.node? id = some n)
      (sources : DescendsAll x ss (sources x n) (0, id :: seen) result expanded) :
      Descends x ss id seen result (id :: expanded)

/-- The sources of a node are gone through, from the level and the nodes looked at so far. -/
inductive DescendsAll (x : Index) (ss : Scopes) :
    List Endpoint → Nat × List String → Nat × List String → (expanded : List String) → Prop where
  | nil {acc : Nat × List String} : DescendsAll x ss [] acc acc []
  | bound {e : Endpoint} {es : List Endpoint} {acc result : Nat × List String} {found : Nat}
      {expanded : List String} (level : level? e ss = some found)
      (rest : DescendsAll x ss es (max acc.1 found, acc.2) result expanded) :
      DescendsAll x ss (e :: es) acc result expanded
  | exec {e : Endpoint} {es : List Endpoint} {acc result : Nat × List String}
      {expanded : List String} (free : level? e ss = none) (exec : x.hasExec e.node = true)
      (rest : DescendsAll x ss es (top ss, acc.2) result expanded) :
      DescendsAll x ss (e :: es) acc result expanded
  | descend {e : Endpoint} {es : List Endpoint} {acc inner result : Nat × List String}
      {expanded expanded' : List String} (free : level? e ss = none)
      (data : x.hasExec e.node = false) (call : Descends x ss e.node acc.2 inner expanded)
      (rest : DescendsAll x ss es (max acc.1 inner.1, inner.2) result expanded') :
      DescendsAll x ss (e :: es) acc result (expanded ++ expanded')

end

/-- The nodes that are expanded are new and different, and they are remembered. -/
structure Expansion (seen expanded after : List String) : Prop where
  after : after = expanded.reverse ++ seen
  nodup : expanded.Nodup
  fresh : ∀ a ∈ expanded, a ∉ seen

namespace Expansion

variable {seen expanded expanded' after after' : List String} {id : String}

theorem nil (seen : List String) : Expansion seen [] seen := ⟨rfl, List.nodup_nil, by simp⟩

theorem cons (hid : id ∉ seen) (h : Expansion (id :: seen) expanded after) :
    Expansion seen (id :: expanded) after := by
  refine ⟨by simp [h.after], List.nodup_cons.mpr ⟨fun hm => h.fresh id hm (.head _), h.nodup⟩,
    fun a ha hs => ?_⟩
  rcases List.mem_cons.mp ha with rfl | ha
  · exact hid hs
  · exact h.fresh a ha (.tail _ hs)

theorem append (h : Expansion seen expanded after) (h' : Expansion after expanded' after') :
    Expansion seen (expanded ++ expanded') after' := by
  have hafter : ∀ a, a ∈ expanded ∨ a ∈ seen → a ∈ after := fun a ha => by simpa [h.after] using ha
  refine ⟨by simp [h'.after, h.after], List.nodup_append.mpr ⟨h.nodup, h'.nodup, ?_⟩,
    fun a ha hs => ?_⟩
  · rintro a ha b hb rfl
    exact h'.fresh a hb (hafter a (.inl ha))
  · rcases List.mem_append.mp ha with ha | ha
    · exact h.fresh a ha hs
    · exact h'.fresh a ha (hafter a (.inr hs))

theorem seen_subset (h : Expansion seen expanded after) : ∀ a ∈ seen, a ∈ after := by
  simp +contextual [h.after]

end Expansion

mutual

/-- No node is expanded twice. -/
theorem Descends.once {ss : Scopes} : ∀ {id : String} {seen expanded : List String}
    {result : Nat × List String}, Descends x ss id seen result expanded →
      Expansion seen expanded result.2
  | _, _, _, _, .again _ => .nil _
  | _, _, _, _, .missing hid _ => (Expansion.nil _).cons hid
  | _, _, _, _, .expand hid _ h => h.once.cons hid

theorem DescendsAll.once {ss : Scopes} : ∀ {es : List Endpoint} {acc result : Nat × List String}
    {expanded : List String}, DescendsAll x ss es acc result expanded →
      Expansion acc.2 expanded result.2
  | _, _, _, _, .nil => .nil _
  | _, _, _, _, .bound _ h => h.once
  | _, _, _, _, .exec _ _ h => h.once
  | _, _, _, _, .descend _ _ hcall h => hcall.once.append h.once

end

theorem descendsAll_foldl {ss : Scopes}
    (hcall : ∀ id seen, x.remaining seen < fuel →
      ∃ expanded, Descends x ss id seen (floor x ss fuel id seen) expanded) :
    ∀ (es : List Endpoint) (acc : Nat × List String), x.remaining acc.2 < fuel →
      ∃ expanded, DescendsAll x ss es acc (es.foldl (floorStep x ss (floor x ss fuel)) acc) expanded
  | [], _, _ => ⟨[], .nil⟩
  | e :: es, acc, hfuel => by
    rw [List.foldl_cons, floorStep]
    cases hl : level? e ss with
    | some found =>
      obtain ⟨expanded, h⟩ := descendsAll_foldl hcall es (max acc.1 found, acc.2) hfuel
      exact ⟨expanded, .bound hl h⟩
    | none =>
      cases hx : x.hasExec e.node with
      | true =>
        obtain ⟨expanded, h⟩ := descendsAll_foldl hcall es (top ss, acc.2) hfuel
        exact ⟨expanded, .exec hl hx h⟩
      | false =>
        obtain ⟨expanded, hinner⟩ := hcall e.node acc.2 hfuel
        have hless := Index.remaining_le (x := x) hinner.once.seen_subset
        obtain ⟨expanded', h⟩ := descendsAll_foldl hcall es
          (max acc.1 (floor x ss fuel e.node acc.2).1, (floor x ss fuel e.node acc.2).2)
          (Nat.lt_of_le_of_lt hless hfuel)
        exact ⟨expanded ++ expanded', .descend hl hx hinner h⟩

/-- The fuel is enough where it is more than the number of nodes left. -/
theorem descends_floor (ss : Scopes) : ∀ (fuel : Nat) (id : String) (seen : List String),
    x.remaining seen < fuel → ∃ expanded, Descends x ss id seen (floor x ss fuel id seen) expanded
  | 0, _, _, hfuel => absurd hfuel (Nat.not_lt_zero _)
  | fuel + 1, id, seen, hfuel => by
    by_cases hid : id ∈ seen
    · rw [floor, if_pos hid]
      exact ⟨[], .again hid⟩
    cases hn : x.node? id with
    | none =>
      rw [floor, if_neg hid, hn]
      exact ⟨[id], .missing hid hn⟩
    | some n =>
      have hmem : id ∈ x.order := List.mem_map.mpr ⟨_, Index.mem_placed hn, rfl⟩
      have hless := Index.remaining_cons_lt hmem hid
      rw [floor_succ x ss fuel hid hn]
      obtain ⟨expanded, h⟩ := descendsAll_foldl (descends_floor ss fuel) (sources x n)
        (0, id :: seen) (by dsimp only; omega)
      exact ⟨id :: expanded, .expand hid hn h⟩

mutual

/-- What is derived is what `floor` gives with enough fuel. -/
theorem Descends.floor_eq {ss : Scopes} : ∀ {id : String} {seen expanded : List String}
    {result : Nat × List String}, Descends x ss id seen result expanded →
      ∃ enough, ∀ fuel, enough ≤ fuel → floor x ss fuel id seen = result
  | _, _, _, _, .again hid => ⟨0, fun fuel _ => by cases fuel <;> simp [floor, hid]⟩
  | _, _, _, _, .missing hid hn => by
    refine ⟨1, fun fuel hfuel => ?_⟩
    obtain ⟨fuel, rfl⟩ := Nat.exists_eq_add_of_le' hfuel
    rw [floor, if_neg hid, hn]
  | _, _, _, _, .expand hid hn h => by
    obtain ⟨enough, heq⟩ := h.foldl_eq
    refine ⟨enough + 1, fun fuel hfuel => ?_⟩
    obtain ⟨fuel, rfl⟩ := Nat.exists_eq_add_of_le' (Nat.le_trans (Nat.le_add_left 1 enough) hfuel)
    rw [floor_succ x ss fuel hid hn]
    exact heq fuel (Nat.le_of_add_le_add_right hfuel)

theorem DescendsAll.foldl_eq {ss : Scopes} : ∀ {es : List Endpoint}
    {acc result : Nat × List String} {expanded : List String},
    DescendsAll x ss es acc result expanded →
      ∃ enough, ∀ fuel, enough ≤ fuel → es.foldl (floorStep x ss (floor x ss fuel)) acc = result
  | _, _, _, _, .nil => ⟨0, fun _ _ => rfl⟩
  | _, _, _, _, .bound hl h => by
    obtain ⟨enough, heq⟩ := h.foldl_eq
    refine ⟨enough, fun fuel hfuel => ?_⟩
    rw [List.foldl_cons, floorStep, hl]
    exact heq fuel hfuel
  | _, _, _, _, .exec hl hx h => by
    obtain ⟨enough, heq⟩ := h.foldl_eq
    refine ⟨enough, fun fuel hfuel => ?_⟩
    rw [List.foldl_cons, floorStep, hl, hx]
    exact heq fuel hfuel
  | _, _, _, _, .descend hl hx hcall h => by
    obtain ⟨enough₁, heq₁⟩ := hcall.floor_eq
    obtain ⟨enough₂, heq₂⟩ := h.foldl_eq
    refine ⟨max enough₁ enough₂, fun fuel hfuel => ?_⟩
    rw [List.foldl_cons, floorStep, hl, hx]
    simp only [heq₁ fuel (Nat.le_trans (Nat.le_max_left _ _) hfuel)]
    exact heq₂ fuel (Nat.le_trans (Nat.le_max_right _ _) hfuel)

end

/-- More fuel gives the same floor. -/
theorem floor_fuel (ss : Scopes) {fuel fuel' : Nat} {seen : List String}
    (h : x.remaining seen < fuel) (h' : x.remaining seen < fuel') (id : String) :
    floor x ss fuel' id seen = floor x ss fuel id seen := by
  obtain ⟨_, hd⟩ := descends_floor ss fuel id seen h
  obtain ⟨_, hd'⟩ := descends_floor ss fuel' id seen h'
  obtain ⟨enough, heq⟩ := hd.floor_eq
  obtain ⟨enough', heq'⟩ := hd'.floor_eq
  rw [← heq (max enough enough') (Nat.le_max_left _ _), heq' _ (Nat.le_max_right _ _)]

/-! ### Reading outputs -/

namespace Evaluation

/-- How many scopes are hidden while a node is evaluated. -/
def hiddenScopes (x : Index) (pass : Pass) (e : Endpoint) (n : PlacedNode) (s : State) : Nat :=
  if isInlined x n then 0 else top s.scopes - placement x pass s.scopes e.node

/-- What the read of an output gives once the inputs of its node are resolved, from the state in
which the read began. -/
def conclude (x : Index) (pass : Pass) (e : Endpoint) (n : PlacedNode) (r : Recipe) (s : State)
    (resolved : Except Failure (Inputs × Code × State)) :
    Except Failure (Option Expr × Code × State) := do
  let (inputs, code, t) ← resolved
  let (emission, t) ← emit (r.outline x n) inputs t
  match emission.outputs.lookup (x.portName e) with
  | none       => .error (.fault (.outputNotProduced (x.portName e) e.node))
  | some value =>
      if isInlined x n then .ok (some value, code, t)
      else
        let made := declare n emission.outputs t
        let placed := s.raise (hiddenScopes x pass e n s) (code ++ made.1) made.2
        let fetched := placed.2.fetch e
        .ok (fetched.1, placed.1, fetched.2)

theorem atLevel_map (level : Nat) (s : State) (act : State → Except Failure (Code × State)) :
    atLevel level s act = (act (s.lower (top s.scopes - level))).map fun made =>
      s.raise (top s.scopes - level) made.1 made.2 := by
  cases h : act (s.lower (top s.scopes - level)) with
  | ok made => exact atLevel_eq h
  | error f =>
    have hact : act { s with scopes := s.scopes.drop (top s.scopes - level) } = .error f := h
    unfold atLevel
    simp only [hact]
    rfl

end Evaluation

/-- A read that makes no further call, while the nodes `pending` are under evaluation. -/
inductive ReadsAtOnce (x : Index) (pass : Pass) (pending : List String) (e : Endpoint) (s : State) :
    Except Failure (Option Expr × Code × State) → Prop where
  | missing (node : x.node? e.node = none) :
      ReadsAtOnce x pass pending e s (.error (.fault (.dataCycle e.node)))
  | bound {n : PlacedNode} {value : Expr} {scopes : Scopes} (node : x.node? e.node = some n)
      (found : lookup? e (note x pass n s).scopes = some (value, scopes)) :
      ReadsAtOnce x pass pending e s
        (.ok (some value, .done, { note x pass n s with scopes := scopes }))
  | outOfScope {n : PlacedNode} (node : x.node? e.node = some n)
      (free : lookup? e (note x pass n s).scopes = none) (exec : n.hasExec = true) :
      ReadsAtOnce x pass pending e s (.error (.fault (.readOutOfScope (x.portName e) e.node)))
  | underway {n : PlacedNode} (node : x.node? e.node = some n)
      (free : lookup? e (note x pass n s).scopes = none) (data : n.hasExec = false)
      (mem : e.node ∈ pending) :
      ReadsAtOnce x pass pending e s (.error (.fault (.dataCycle e.node)))
  | noRecipe {n : PlacedNode} (node : x.node? e.node = some n)
      (free : lookup? e (note x pass n s).scopes = none) (data : n.hasExec = false)
      (fresh : e.node ∉ pending) (recipe : Recipe.ofType? n.node.nodeType = none) :
      ReadsAtOnce x pass pending e s (.error (.fault (.noRecipe n.node.nodeType e.node)))

/-- A read that evaluates the node of its port. -/
structure Evaluates (x : Index) (pass : Pass) (pending : List String) (e : Endpoint) (s : State)
    (n : PlacedNode) (r : Recipe) : Prop where
  node : x.node? e.node = some n
  free : lookup? e (note x pass n s).scopes = none
  data : n.hasExec = false
  fresh : e.node ∉ pending
  recipe : Recipe.ofType? n.node.nodeType = some r

theorem ReadsAtOnce.read_eq {s : State} {result : Except Failure (Option Expr × Code × State)}
    (h : ReadsAtOnce x pass pending e s result) (fuel : Nat) :
    read x pass fuel pending e s = result := by
  rw [Evaluation.read]
  cases h with
  | missing hn => simp only [hn]
  | bound hn hl => simp only [hn, hl]
  | outOfScope hn hl hx => simp only [hn, hl, hx, if_true]
  | underway hn hl hx hp => simp only [hn, hl, hx, hp, Bool.false_eq_true, if_false, if_true]
  | noRecipe hn hl hx hp hr => simp only [hn, hl, hx, hp, hr, Bool.false_eq_true, if_false]

/-- A read is made at once or evaluates the node of its port. -/
theorem readsAtOnce_or_evaluates (x : Index) (pass : Pass) (pending : List String) (e : Endpoint)
    (s : State) : (∃ result, ReadsAtOnce x pass pending e s result) ∨
      ∃ n r, Evaluates x pass pending e s n r := by
  cases hn : x.node? e.node with
  | none => exact .inl ⟨_, .missing hn⟩
  | some n =>
    cases hl : lookup? e (note x pass n s).scopes with
    | some found => exact .inl ⟨_, .bound hn hl⟩
    | none =>
      cases hx : n.hasExec with
      | true => exact .inl ⟨_, .outOfScope hn hl hx⟩
      | false =>
        by_cases hp : e.node ∈ pending
        · exact .inl ⟨_, .underway hn hl hx hp⟩
        cases hr : Recipe.ofType? n.node.nodeType with
        | none => exact .inl ⟨_, .noRecipe hn hl hx hp hr⟩
        | some r => exact .inr ⟨n, r, hn, hl, hx, hp, hr⟩

/-- The inputs of an evaluated node are resolved with scopes hidden, and the rest of the read makes
no further call. -/
theorem Evaluates.read_succ {r : Recipe} {s : State} (h : Evaluates x pass pending e s n r)
    (fuel : Nat) :
    read x pass (fuel + 1) pending e s = conclude x pass e n r (note x pass n s)
      (resolve x n (read x pass fuel (e.node :: pending)) n.definition.inputs []
        ((note x pass n s).lower (hiddenScopes x pass e n (note x pass n s)))) := by
  obtain ⟨hn, hl, hx, hp, hr⟩ := h
  rw [Evaluation.read]
  simp only [hn, hl, hx, hp, hr, Bool.false_eq_true, if_false, atLevel_map]
  generalize note x pass n s = s
  unfold conclude hiddenScopes
  generalize top s.scopes - placement x pass s.scopes e.node = covered
  -- both sides go through the same steps: the inputs, the outline, the output
  cases hi : isInlined x n with
  | true =>
    simp only [if_true, State.lower_zero]
    cases resolve x n (read x pass fuel (e.node :: pending)) n.definition.inputs [] s with
    | error f => rfl
    | ok resolved =>
      cases hem : emit (r.outline x n) resolved.1 resolved.2.2 with
      | error f => simp only [Bind.bind, Except.bind, hem]
      | ok emitted =>
        simp only [Bind.bind, Except.bind, hem]
        cases emitted.1.outputs.lookup (x.portName e) <;> rfl
  | false =>
    simp only [Bool.false_eq_true, if_false]
    cases resolve x n (read x pass fuel (e.node :: pending)) n.definition.inputs []
      (s.lower covered) with
    | error f => rfl
    | ok resolved =>
      cases hem : emit (r.outline x n) resolved.1 resolved.2.2 with
      | error f => simp only [Bind.bind, Except.bind, hem, Except.map]
      | ok emitted =>
        simp only [Bind.bind, Except.bind, hem]
        cases emitted.1.outputs.lookup (x.portName e) with
        | none => rfl
        | some value =>
          dsimp only [pure, Except.pure, Except.map, State.fetch]
          generalize s.raise covered _ _ = placed
          cases lookup? e placed.2.scopes <;> rfl

mutual

/-- An output port is read while the nodes `pending` are under evaluation.  For each evaluation that
is begun on the way, `opened` holds the nodes then under evaluation, the latest first. -/
inductive ReadsOutput (x : Index) (pass : Pass) : (pending : List String) → Endpoint → State →
    Except Failure (Option Expr × Code × State) → (opened : List (List String)) → Prop where
  | atOnce {pending : List String} {e : Endpoint} {s : State}
      {result : Except Failure (Option Expr × Code × State)}
      (made : ReadsAtOnce x pass pending e s result) : ReadsOutput x pass pending e s result []
  | evaluate {pending : List String} {e : Endpoint} {s : State} {n : PlacedNode} {r : Recipe}
      {resolved : Except Failure (Inputs × Code × State)} {opened : List (List String)}
      (evaluates : Evaluates x pass pending e s n r)
      (inputs : ResolvesInputs x pass (e.node :: pending) n n.definition.inputs []
        ((note x pass n s).lower (hiddenScopes x pass e n (note x pass n s))) resolved opened) :
      ReadsOutput x pass pending e s (conclude x pass e n r (note x pass n s) resolved)
        ((e.node :: pending) :: opened)

/-- The inputs of a node are resolved while the nodes `pending` are under evaluation. -/
inductive ResolvesInputs (x : Index) (pass : Pass) : (pending : List String) → PlacedNode →
    List PortTemplate → Inputs → State → Except Failure (Inputs × Code × State) →
    (opened : List (List String)) → Prop where
  | nil {pending : List String} {n : PlacedNode} {inputs : Inputs} {s : State} :
      ResolvesInputs x pass pending n [] inputs s (.ok (inputs, .done, s)) []
  | skip {pending : List String} {n : PlacedNode} {t : PortTemplate} {ts : List PortTemplate}
      {inputs : Inputs} {s : State} {result : Except Failure (Inputs × Code × State)}
      {opened : List (List String)} (kind : t.kind ≠ .data)
      (rest : ResolvesInputs x pass pending n ts inputs s result opened) :
      ResolvesInputs x pass pending n (t :: ts) inputs s result opened
  | literal {pending : List String} {n : PlacedNode} {t : PortTemplate} {ts : List PortTemplate}
      {inputs : Inputs} {s : State} {value : Expr} {opened : List (List String)}
      {result : Except Failure (Inputs × Code × State)} (kind : t.kind = .data)
      (source : source? x n t = none) (written : literal n t = .ok value)
      (rest : ResolvesInputs x pass pending n ts (Assoc.set t.name (some value) inputs) s
        result opened) :
      ResolvesInputs x pass pending n (t :: ts) inputs s result opened
  | unwritten {pending : List String} {n : PlacedNode} {t : PortTemplate} {ts : List PortTemplate}
      {inputs : Inputs} {s : State} {f : Failure} (kind : t.kind = .data)
      (source : source? x n t = none) (written : literal n t = .error f) :
      ResolvesInputs x pass pending n (t :: ts) inputs s (.error f) []
  | read {pending : List String} {n : PlacedNode} {t : PortTemplate} {ts : List PortTemplate}
      {inputs : Inputs} {s s' : State} {e : Endpoint} {value : Option Expr} {code : Code}
      {opened opened' : List (List String)} {result : Except Failure (Inputs × Code × State)}
      (kind : t.kind = .data) (source : source? x n t = some e)
      (call : ReadsOutput x pass pending e s (.ok (value, code, s')) opened)
      (rest : ResolvesInputs x pass pending n ts (Assoc.set t.name value inputs) s' result
        opened') :
      ResolvesInputs x pass pending n (t :: ts) inputs s
        (result.map fun made => (made.1, code ++ made.2.1, made.2.2)) (opened ++ opened')
  | unread {pending : List String} {n : PlacedNode} {t : PortTemplate} {ts : List PortTemplate}
      {inputs : Inputs} {s : State} {e : Endpoint} {f : Failure} {opened : List (List String)}
      (kind : t.kind = .data) (source : source? x n t = some e)
      (call : ReadsOutput x pass pending e s (.error f) opened) :
      ResolvesInputs x pass pending n (t :: ts) inputs s (.error f) opened

end

/-- The nodes under evaluation differ, and no control passes through them. -/
structure Separate (x : Index) (pending : List String) : Prop where
  nodup : pending.Nodup
  data : ∀ id ∈ pending, x.hasExec id = false

namespace Separate

theorem nil (x : Index) : Separate x [] := ⟨List.nodup_nil, by simp⟩

theorem cons {pending : List String} {id : String} {n : PlacedNode} (h : Separate x pending)
    (hid : id ∉ pending) (hn : x.node? id = some n) (hx : n.hasExec = false) :
    Separate x (id :: pending) := by
  refine ⟨List.nodup_cons.mpr ⟨hid, h.nodup⟩, fun a ha => ?_⟩
  rcases List.mem_cons.mp ha with rfl | ha
  · simp [Index.hasExec, hn, hx]
  · exact h.data a ha

end Separate

mutual

/-- No two evaluations of one node are open at the same time. -/
theorem ReadsOutput.apart : ∀ {pending : List String} {e : Endpoint} {s : State}
    {result : Except Failure (Option Expr × Code × State)} {opened : List (List String)},
    ReadsOutput x pass pending e s result opened → Separate x pending → ∀ o ∈ opened, Separate x o
  | _, _, _, _, _, .atOnce _, _ => by simp
  | _, _, _, _, _, .evaluate hn h, hpending => by
    have hcons := hpending.cons hn.fresh hn.node hn.data
    intro o ho
    rcases List.mem_cons.mp ho with rfl | ho
    · exact hcons
    · exact h.apart hcons o ho

theorem ResolvesInputs.apart : ∀ {pending : List String} {n : PlacedNode} {ts : List PortTemplate}
    {inputs : Inputs} {s : State} {result : Except Failure (Inputs × Code × State)}
    {opened : List (List String)}, ResolvesInputs x pass pending n ts inputs s result opened →
      Separate x pending → ∀ o ∈ opened, Separate x o
  | _, _, _, _, _, _, _, .nil, _ => by simp
  | _, _, _, _, _, _, _, .skip _ h, hpending => h.apart hpending
  | _, _, _, _, _, _, _, .literal _ _ _ h, hpending => h.apart hpending
  | _, _, _, _, _, _, _, .unwritten _ _ _, _ => by simp
  | _, _, _, _, _, _, _, .read _ _ hcall h, hpending => by
    intro o ho
    rcases List.mem_append.mp ho with ho | ho
    · exact hcall.apart hpending o ho
    · exact h.apart hpending o ho
  | _, _, _, _, _, _, _, .unread _ _ hcall, hpending => hcall.apart hpending

end

theorem resolve_skip (hk : t.kind ≠ .data)
    (read : Endpoint → State → Except Failure (Option Expr × Code × State))
    (ts : List PortTemplate) (inputs : Inputs) (s : State) :
    resolve x n read (t :: ts) inputs s = resolve x n read ts inputs s := by
  rw [resolve, if_pos hk]

theorem resolve_literal (hk : t.kind = .data) (hsource : source? x n t = none)
    (read : Endpoint → State → Except Failure (Option Expr × Code × State))
    (ts : List PortTemplate) (inputs : Inputs) (s : State) :
    resolve x n read (t :: ts) inputs s = (literal n t >>= fun value =>
      resolve x n read ts (Assoc.set t.name (some value) inputs) s) := by
  rw [resolve, if_neg (not_not.mpr hk), hsource]

theorem resolve_read (hk : t.kind = .data) (hsource : source? x n t = some e)
    (read : Endpoint → State → Except Failure (Option Expr × Code × State))
    (ts : List PortTemplate) (inputs : Inputs) (s : State) :
    resolve x n read (t :: ts) inputs s = (read e s >>= fun made =>
      (resolve x n read ts (Assoc.set t.name made.1 inputs) made.2.2).map fun rest =>
        (rest.1, made.2.1 ++ rest.2.1, rest.2.2)) := by
  rw [resolve, if_neg (not_not.mpr hk), hsource]
  cases hread : read e s with
  | error f => simp only [Bind.bind, Except.bind, hread]
  | ok made =>
    cases hrest : resolve x n read ts (Assoc.set t.name made.1 inputs) made.2.2 <;>
      simp only [Bind.bind, Except.bind, hread, hrest, Except.map, pure, Except.pure]

theorem resolvesInputs_resolve
    {read : Endpoint → State → Except Failure (Option Expr × Code × State)}
    (hread : ∀ e s, ∃ opened, ReadsOutput x pass pending e s (read e s) opened) :
    ∀ (ts : List PortTemplate) (inputs : Inputs) (s : State),
      ∃ opened, ResolvesInputs x pass pending n ts inputs s (resolve x n read ts inputs s) opened
  | [], _, _ => ⟨[], .nil⟩
  | t :: ts, inputs, s => by
    by_cases hk : t.kind = .data
    case neg =>
      obtain ⟨opened, h⟩ := resolvesInputs_resolve hread ts inputs s
      rw [resolve_skip hk]
      exact ⟨opened, .skip hk h⟩
    cases hsource : source? x n t with
    | none =>
      rw [resolve_literal hk hsource]
      cases hw : literal n t with
      | error f => exact ⟨[], .unwritten hk hsource hw⟩
      | ok value =>
        obtain ⟨opened, h⟩ := resolvesInputs_resolve hread ts
          (Assoc.set t.name (some value) inputs) s
        exact ⟨opened, .literal hk hsource hw h⟩
    | some e =>
      rw [resolve_read hk hsource]
      obtain ⟨opened, hcall⟩ := hread e s
      cases hr : read e s with
      | error f => exact ⟨opened, .unread hk hsource (hr ▸ hcall)⟩
      | ok made =>
        obtain ⟨opened', h⟩ := resolvesInputs_resolve hread ts
          (Assoc.set t.name made.1 inputs) made.2.2
        exact ⟨opened ++ opened', .read hk hsource (hr ▸ hcall) h⟩

/-- The fuel is enough where no more nodes are left than it has units. -/
theorem readsOutput_read : ∀ (fuel : Nat) (pending : List String), x.remaining pending ≤ fuel →
    ∀ (e : Endpoint) (s : State),
      ∃ opened, ReadsOutput x pass pending e s (read x pass fuel pending e s) opened
  | fuel, pending, hfuel, e, s => by
    rcases readsAtOnce_or_evaluates x pass pending e s with ⟨result, h⟩ | ⟨n, r, hn⟩
    · exact ⟨[], h.read_eq fuel ▸ .atOnce h⟩
    have hmem : e.node ∈ x.order := List.mem_map.mpr ⟨_, Index.mem_placed hn.node, rfl⟩
    have hless := Index.remaining_cons_lt hmem hn.fresh
    cases fuel with
    | zero => omega
    | succ fuel =>
      obtain ⟨opened, h⟩ := resolvesInputs_resolve
        (readsOutput_read fuel (e.node :: pending) (by omega)) n.definition.inputs []
        ((note x pass n s).lower (hiddenScopes x pass e n (note x pass n s)))
      exact ⟨_, hn.read_succ fuel ▸ ReadsOutput.evaluate hn h⟩

mutual

/-- What is derived is what `read` gives with enough fuel. -/
theorem ReadsOutput.read_eq : ∀ {pending : List String} {e : Endpoint} {s : State}
    {result : Except Failure (Option Expr × Code × State)} {opened : List (List String)},
    ReadsOutput x pass pending e s result opened →
      ∃ enough, ∀ fuel, enough ≤ fuel → read x pass fuel pending e s = result
  | _, _, _, _, _, .atOnce h => ⟨0, fun fuel _ => h.read_eq fuel⟩
  | _, _, _, _, _, .evaluate hn h => by
    obtain ⟨enough, heq⟩ := h.resolve_eq
    refine ⟨enough + 1, fun fuel hfuel => ?_⟩
    obtain ⟨fuel, rfl⟩ := Nat.exists_eq_add_of_le' (Nat.le_trans (Nat.le_add_left 1 enough) hfuel)
    rw [hn.read_succ, heq fuel (Nat.le_of_add_le_add_right hfuel)]

theorem ResolvesInputs.resolve_eq : ∀ {pending : List String} {n : PlacedNode}
    {ts : List PortTemplate} {inputs : Inputs} {s : State}
    {result : Except Failure (Inputs × Code × State)} {opened : List (List String)},
    ResolvesInputs x pass pending n ts inputs s result opened → ∃ enough, ∀ fuel, enough ≤ fuel →
      resolve x n (read x pass fuel pending) ts inputs s = result
  | _, _, _, _, _, _, _, .nil => ⟨0, fun _ _ => rfl⟩
  | _, _, _, _, _, _, _, .skip hk h => by
    obtain ⟨enough, heq⟩ := h.resolve_eq
    exact ⟨enough, fun fuel hfuel => by rw [resolve_skip hk, heq fuel hfuel]⟩
  | _, _, _, _, _, _, _, .literal hk hsource hw h => by
    obtain ⟨enough, heq⟩ := h.resolve_eq
    refine ⟨enough, fun fuel hfuel => ?_⟩
    rw [resolve_literal hk hsource, hw]
    exact heq fuel hfuel
  | _, _, _, _, _, _, _, .unwritten hk hsource hw =>
    ⟨0, fun fuel _ => by rw [resolve_literal hk hsource, hw]; rfl⟩
  | _, _, _, _, _, _, _, .read hk hsource hcall h => by
    obtain ⟨enough₁, heq₁⟩ := hcall.read_eq
    obtain ⟨enough₂, heq₂⟩ := h.resolve_eq
    refine ⟨max enough₁ enough₂, fun fuel hfuel => ?_⟩
    rw [resolve_read hk hsource, heq₁ fuel (Nat.le_trans (Nat.le_max_left _ _) hfuel)]
    exact congrArg (Except.map _) (heq₂ fuel (Nat.le_trans (Nat.le_max_right _ _) hfuel))
  | _, _, _, _, _, _, _, .unread hk hsource hcall => by
    obtain ⟨enough, heq⟩ := hcall.read_eq
    refine ⟨enough, fun fuel hfuel => ?_⟩
    rw [resolve_read hk hsource, heq fuel hfuel]
    rfl

end

/-- More fuel resolves inputs in the same way. -/
theorem resolve_fuel {fuel fuel' : Nat} (h : x.remaining pending ≤ fuel)
    (h' : x.remaining pending ≤ fuel') (n : PlacedNode) (ts : List PortTemplate) (inputs : Inputs)
    (s : State) : resolve x n (read x pass fuel' pending) ts inputs s =
      resolve x n (read x pass fuel pending) ts inputs s := by
  obtain ⟨_, hd⟩ := resolvesInputs_resolve (readsOutput_read fuel pending h) ts inputs s
  obtain ⟨_, hd'⟩ := resolvesInputs_resolve (readsOutput_read fuel' pending h') ts inputs s
  obtain ⟨enough, heq⟩ := hd.resolve_eq
  obtain ⟨enough', heq'⟩ := hd'.resolve_eq
  rw [← heq (max enough enough') (Nat.le_max_left _ _), heq' _ (Nat.le_max_right _ _)]

end VisualScript
