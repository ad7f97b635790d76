import VisualScript.Proofs.Free
import VisualScript.Proofs.Ports
import VisualScript.Script.Flow

/-!
# Proofs — Recipes

What the outlines of recipes have in common, and what the built-in catalog and the recipes of its
types promise each other.

* `Recipe.frame`: the items of a node with statements are lines, outputs to go on with, or nested
  blocks, and their fresh variables are declared before they are used.
* `Catalog.builtin_sound`: what code generation relies on holds of every built-in definition.
-/

namespace VisualScript

/-- The exec output an item goes on with. -/
def Item.port? : Item → Option String
  | .line _         => none
  | .follow port    => some port
  | .block port ..  => some port
  | .thread port .. => some port

/-- The exec output of a block or a thread. -/
def Item.blockPort? : Item → Option String
  | .line _         => none
  | .follow _       => none
  | .block port ..  => some port
  | .thread port .. => some port

theorem toString_inj {a b : Nat} (h : toString a = toString b) : a = b := by
  have h : Nat.repr a = Nat.repr b := h
  rw [Nat.repr_eq_ofList_toDigits, Nat.repr_eq_ofList_toDigits] at h
  rw [← @Nat.ofDigitChars_ten_toDigits a, String.ofList_injective h, Nat.ofDigitChars_ten_toDigits]

namespace Recipe

variable {x : Index} {n : PlacedNode} {r : Recipe}

/-- A node hands on one value at most. -/
theorem outputs_length_le (x : Index) (n : PlacedNode) (r : Recipe) :
    (r.outline x n).outputs.length ≤ 1 := by
  cases r with
  | constant type key output => simp only [outline]; split <;> simp
  | switch type => simp only [outline]; split <;> simp
  | _ => simp [outline]

/-- The outputs of the given name can be followed under the recipe. -/
def follows : Recipe → String → Bool
  | statement _,    port => "then" == port
  | bound ..,       port => "then" == port
  | append,         port => "then" == port
  | registerWeapon, port => "then" == port
  | thread,         port => "body" == port || "then" == port
  | branch,         port => "true" == port || "false" == port
  | loopFor,        port => "body" == port || "completed" == port
  | loopEach,       port => "body" == port || "completed" == port
  | loopWhile,      port => "body" == port || "completed" == port
  | sequence,       _    => true
  | switch _,       _    => true
  | _,              _    => false

theorem follows_of_mem {port : String} (h : port ∈ (r.outline x n).items.filterMap Item.port?) :
    r.follows port = true := by
  cases r with
  | sequence | switch => rfl
  | constant type key output => simp only [outline] at h; split at h <;> simp at h
  | branch =>
    simp only [outline] at h
    split at h <;> simp [Item.port?] at h <;> grind [follows]
  | statement lines =>
    have hlines : (lines.map Item.line).filterMap Item.port? = [] := by
      simp [List.filterMap_map, Item.port?]
    simp [outline, List.filterMap_append, hlines, Item.port?] at h
    grind [follows]
  | _ => simp [outline, weaponFields, Item.port?] at h <;> grind [follows]

/-- Under this recipe a node hands on its values inside its block `body`, and not behind it. -/
def bindsInside : Recipe → Bool
  | loopFor  => true
  | loopEach => true
  | _        => false

theorem bindsInside_of_mem {port : String} {bindings : List (String × Nat)} {tail : List String}
    (h : .block port bindings tail ∈ (r.outline x n).items) (hb : bindings ≠ []) :
    r.bindsInside = true ∧ port = "body" := by
  cases r with
  | switch type =>
    have hcases : ∀ (i : Nat) (vs : List Json),
        Item.block port bindings tail ∉ caseItems type n i vs := by
      intro i vs
      induction vs generalizing i with
      | nil => simp [caseItems]
      | cons v vs ih => simp only [caseItems]; split <;> simp [ih, hb]
    simp only [outline] at h
    split at h <;> simp only [switchItems, List.mem_append] at h <;>
      split at h <;> simp [hcases, hb] at h
  | constant type key output => simp only [outline] at h; split at h <;> simp at h
  | branch => simp only [outline] at h; split at h <;> simp [hb] at h
  | loopFor | loopEach =>
    simp only [outline, List.mem_cons, Item.block.injEq, reduceCtorEq, List.not_mem_nil, or_false,
      false_or] at h
    exact ⟨rfl, h.1⟩
  | _ => simp [outline, weaponFields, hb] at h

theorem not_bindsInside (h : (r.outline x n).outputs ≠ []) : r.bindsInside = false := by
  cases r with
  | loopFor | loopEach => simp [outline] at h
  | _ => rfl

/-- Under this recipe a node makes a value of its inputs, without a statement. -/
def isValue : Recipe → Bool
  | expression .. => true
  | constant ..   => true
  | reroute       => true
  | _             => false

/-- The templates of a recipe, apart from those its kind brings along. -/
def templates : Recipe → List Template
  | statement lines    => lines
  | bound call _       => [call]
  | expression value _ => [value]
  | _                  => []

/-- The blocks of the cases are named after their positions. -/
theorem caseItems_ports (type : ValueType) (n : PlacedNode) : ∀ (i : Nat) (vs : List Json),
    ((caseItems type n i vs).filterMap Item.blockPort?).Nodup ∧
      ∀ port ∈ (caseItems type n i vs).filterMap Item.blockPort?,
        ∃ j, i ≤ j ∧ port = "case" ++ toString j
  | _, [] => by simp [caseItems]
  | i, v :: vs => by
    obtain ⟨hnodup, hports⟩ := caseItems_ports type n (i + 1) vs
    rw [caseItems]
    split
    · simp only [List.filterMap_cons, Item.blockPort?, List.nodup_cons, List.mem_cons]
      refine ⟨⟨fun hm => ?_, hnodup⟩, ?_⟩
      · obtain ⟨j, hj, he⟩ := hports _ hm
        have he : toString i = toString j :=
          String.toList_inj.mp (by simpa using congrArg String.toList he)
        have := toString_inj he
        omega
      · rintro port (rfl | hm)
        · exact ⟨i, Nat.le_refl i, rfl⟩
        · obtain ⟨j, hj, he⟩ := hports port hm
          exact ⟨j, by omega, he⟩
    · simp

/-- No two blocks of a node belong to the same output. -/
theorem nodup_blockPorts (x : Index) (n : PlacedNode) (r : Recipe) :
    ((r.outline x n).items.filterMap Item.blockPort?).Nodup := by
  cases r with
  | switch type =>
    have hswitch : ∀ cases,
        ((switchItems type x n cases).filterMap Item.blockPort?).Nodup := by
      intro cases
      obtain ⟨hnodup, hports⟩ := caseItems_ports type n 0 cases
      have hdefault : "default" ∉ (caseItems type n 0 cases).filterMap Item.blockPort? := by
        intro hm
        obtain ⟨j, -, he⟩ := hports _ hm
        have := congrArg String.toList he
        simp at this
      have hall : (switchItems type x n cases).filterMap Item.blockPort? =
          (caseItems type n 0 cases).filterMap Item.blockPort? ++
            if isConnected x n "default" then ["default"] else [] := by
        simp only [switchItems, List.filterMap_append]
        split <;> simp [List.filterMap_cons, Item.blockPort?]
      rw [hall]
      split
      · refine List.nodup_append.mpr ⟨hnodup, List.nodup_singleton _, ?_⟩
        rintro a ha b hb rfl
        exact hdefault (List.mem_singleton.mp hb ▸ ha)
      · simpa using hnodup
    simp only [outline]
    split <;> exact hswitch _
  | constant type key output => simp only [outline]; split <;> simp
  | branch => simp only [outline]; split <;> simp [List.filterMap_cons, Item.blockPort?]
  | statement lines =>
    have hlines : (lines.map Item.line).filterMap Item.blockPort? = [] := by
      simp [Item.blockPort?]
    simp [outline, hlines, List.filterMap_cons, Item.blockPort?]
  | sequence =>
    have hports : ((n.outputs.filter (·.port.kind == .exec)).map
        fun s => Item.follow s.name).filterMap Item.blockPort? = [] := by
      simp [Item.blockPort?]
    simp [outline, hports]
  | _ => simp [outline, weaponFields, List.filterMap_cons, Item.blockPort?]

end Recipe

/-! ### Fresh variables in an outline -/

theorem Template.mem_freshes_of_mem_heads {t : Template} {i : Nat} (h : i ∈ t.heads) :
    i ∈ t.freshes := by
  unfold heads at h
  split at h
  · simp_all [freshes]
  · have h := List.mem_cons.mp h
    simp only [List.mem_singleton] at h
    simp only [freshes, List.filterMap_cons, List.mem_cons]
    exact h.imp_right .inl
  · cases h

theorem Template.mem_freshes_of_mem_needs {t : Template} {i : Nat} (h : i ∈ t.needs) :
    i ∈ t.freshes := by
  unfold needs at h
  split at h <;> simp_all [freshes]

/-- Lines that declare a fresh variable before they need it; `known` are declared above. -/
def Template.Ordered (known : List Nat) : List Template → Prop
  | []      => True
  | t :: ts => (∀ i ∈ t.needs, i ∈ known) ∧ Ordered (known ++ t.declares) ts

theorem Template.ordered_of_closed {known : List Nat} {ts : List Template}
    (h : ∀ t ∈ ts, t.freshes = []) : Ordered known ts := by
  induction ts generalizing known with
  | nil => trivial
  | cons t ts ih =>
    refine ⟨fun i hi => ?_, ih fun t ht => h t (.tail _ ht)⟩
    have := mem_freshes_of_mem_needs hi
    simp [h t (.head _)] at this

/-- Lines around nested blocks.  They need no fresh variable from above; a block may use those of
the loop header above it. -/
def Item.Framed : (loop : List Nat) → List Item → Prop
  | _,    []                           => True
  | loop, .line t :: items             =>
      t.needs = [] ∧ Framed (if t = [.text "\x7b"] then loop else t.heads) items
  | loop, .block _ bindings _ :: items => (∀ b ∈ bindings, b.2 ∈ loop) ∧ Framed [] items
  | _,    .thread .. :: items          => Framed [] items
  | _,    .follow _ :: _               => False

def Item.freshes : Item → List Nat
  | .line t => t.freshes
  | _       => []

namespace Recipe

/-- What the items of a node look like in front of the trailing output.  Only where they are lines
does the node hand on a value. -/
inductive Frame (x : Index) (n : PlacedNode) (r : Recipe) (items : List Item) : Prop where
  | lines (ts : List Template) (hi : items = ts.map .line) (ordered : Template.Ordered [] ts)
      (outputs : ∀ o ∈ (r.outline x n).outputs,
        (∃ i ∈ ts.flatMap Template.declares, o.2 = .expr [.fresh i]) ∨
          r = .append ∧ o.2 = .copy "array")
  | follows (ports : List String) (hi : items = ports.map .follow)
      (outputs : (r.outline x n).outputs = [])
  | nested (framed : Item.Framed [] items) (outputs : (r.outline x n).outputs = [])

theorem splitTail_concat (items : List Item) (port : String) :
    (Outline.splitTail (items ++ [.follow port])).1 = items := by
  simp [Outline.splitTail]

theorem splitTail_follows (ports : List String) :
    ∃ ports' : List String, (Outline.splitTail (ports.map .follow)).1 = ports'.map .follow := by
  unfold Outline.splitTail
  split
  · exact ⟨ports.dropLast, List.map_dropLast.symm⟩
  · exact ⟨ports, rfl⟩

theorem framed_caseItems (type : ValueType) (n : PlacedNode) {items : List Item}
    (h : Item.Framed [] items) : ∀ (i : Nat) (vs : List Json),
      Item.Framed [] (caseItems type n i vs ++ items)
  | _, [] => h
  | i, v :: vs => by
    rw [caseItems]
    split
    · have ih := framed_caseItems type n h (i + 1) vs
      refine ⟨rfl, by simp, ih⟩
    · exact h

/-- The items of a switch behind its cases. -/
def switchEnd (x : Index) (n : PlacedNode) : List Item :=
  if isConnected x n "default" then
    [.line [.text "default:"], .block "default" [] ["break"], .line [.text "\x7d"]]
  else [.line [.text "\x7d"]]

theorem switchItems_eq (type : ValueType) (x : Index) (n : PlacedNode) (cases : List Json) :
    switchItems type x n cases =
      .line [.text "switch (", .input "value", .text ")"] :: .line [.text "\x7b"] ::
        (caseItems type n 0 cases ++ switchEnd x n) ++ [.follow "completed"] := by
  unfold switchItems switchEnd
  split <;> simp

theorem framed_switchItems (type : ValueType) (x : Index) (n : PlacedNode) (cases : List Json) :
    Item.Framed [] (Outline.splitTail (switchItems type x n cases)).1 := by
  have hopen : ([.text "switch (", .input "value", .text ")"] : Template) ≠ [.text "\x7b"] := by
    simp
  have hend : Item.Framed [] (switchEnd x n) := by
    unfold switchEnd
    split
    · exact ⟨rfl, by simp, rfl, trivial⟩
    · exact ⟨rfl, trivial⟩
  rw [switchItems_eq, splitTail_concat, Item.Framed, if_neg hopen, Item.Framed, if_pos rfl]
  exact ⟨rfl, rfl, framed_caseItems type n hend 0 cases⟩

/-- The lines that fill in a weapon and register it. -/
def weaponLines : List Template :=
  [.text "CustomWeaponData ", .fresh 0] ::
    (weaponFields.map fun field => [.fresh 0, .text ("." ++ field ++ " = "), .input field]).append
      [[.text "RegisterModWeapon(", .fresh 0, .text ", ", .input "registerInLoot", .text ")"]]

/-- The items of a node with statements are lines, or outputs to go on with, or nested blocks. -/
theorem frame (x : Index) (n : PlacedNode) {r : Recipe} (hvalue : r.isValue = false)
    (hclosed : ∀ t ∈ r.templates, t.freshes = []) :
    Frame x n r (Outline.splitTail (r.outline x n).items).1 := by
  cases r with
  | statement lines =>
    exact .lines lines (splitTail_concat _ _) (Template.ordered_of_closed hclosed)
      (by simp [outline])
  | bound call output =>
    have hcall : call.freshes = [] := hclosed call (.head _)
    refine .lines [.text "local " :: .fresh 0 :: .text " = " :: call] rfl ⟨?_, trivial⟩ ?_
    · have : Template.freshes (.text " = " :: call) = [] := hcall
      simp [Template.needs, this]
    · simp [outline, Template.declares]
  | append =>
    refine .lines [[.input "array", .text ".append(", .input "element", .text ")"]] rfl
      (Template.ordered_of_closed (by simp [Template.freshes])) ?_
    simp [outline]
  | registerWeapon =>
    refine .lines weaponLines rfl ?_ (by simp [outline])
    simp [weaponLines, weaponFields, Template.Ordered, Template.needs, Template.declares,
      Template.heads, Template.freshes]
  | stop =>
    exact .lines [[.text "return"]] rfl
      (Template.ordered_of_closed (by simp [Template.freshes])) (by simp [outline])
  | sequence =>
    obtain ⟨ports, hports⟩ :=
      splitTail_follows ((n.outputs.filter (·.port.kind == .exec)).map Socket.name)
    refine .follows ports ?_ rfl
    rw [← hports, List.map_map]
    rfl
  | branch =>
    refine .nested ?_ rfl
    simp only [outline]
    split
    · exact ⟨rfl, rfl, by simp, rfl, rfl, rfl, by simp, rfl, trivial⟩
    · exact ⟨rfl, rfl, by simp, rfl, trivial⟩
  | loopFor => exact .nested ⟨rfl, rfl, by simp [Template.heads], rfl, trivial⟩ rfl
  | loopEach => exact .nested ⟨rfl, rfl, by simp [Template.heads], rfl, trivial⟩ rfl
  | loopWhile => exact .nested ⟨rfl, rfl, by simp, rfl, trivial⟩ rfl
  | switch type =>
    refine .nested ?_ ?_
    · simp only [outline]
      split <;> exact framed_switchItems type x n _
    · simp only [outline]
      split <;> rfl
  | thread => exact .nested trivial rfl
  | expression | constant | reroute => cases hvalue

theorem freshes_caseItems (type : ValueType) (n : PlacedNode) :
    ∀ (i : Nat) (vs : List Json), (caseItems type n i vs).flatMap Item.freshes = []
  | _, [] => rfl
  | i, v :: vs => by
    rw [caseItems]
    split
    · exact freshes_caseItems type n (i + 1) vs
    · rfl

/-- The lines of a node mention variables the node has. -/
theorem freshes_lt (x : Index) (n : PlacedNode) {r : Recipe}
    (hclosed : ∀ t ∈ r.templates, t.freshes = []) {i : Nat}
    (h : i ∈ (r.outline x n).items.flatMap Item.freshes) : i < (r.outline x n).fresh.length := by
  cases r with
  | statement lines =>
    obtain ⟨item, hm, hi⟩ := List.mem_flatMap.mp h
    rcases List.mem_append.mp hm with hm | hm
    · obtain ⟨t, ht, rfl⟩ := List.mem_map.mp hm
      rw [Item.freshes, hclosed t ht] at hi
      cases hi
    · cases List.mem_singleton.mp hm
      cases hi
  | bound call output =>
    have hcall : call.freshes = [] := hclosed call (.head _)
    rw [Template.freshes] at hcall
    simp [outline, Item.freshes, Template.freshes, hcall] at h
    simp [outline, h]
  | switch type =>
    have hnone : ∀ cases, (switchItems type x n cases).flatMap Item.freshes = [] := by
      intro cases
      simp only [switchItems, List.flatMap_append, freshes_caseItems]
      split <;> rfl
    simp only [outline] at h
    split at h <;> simp only [hnone, List.not_mem_nil] at h
  | constant type key output => simp only [outline] at h; split at h <;> simp at h
  | branch => simp only [outline] at h; split at h <;> simp [Item.freshes, Template.freshes] at h
  | sequence => simp [outline, Item.freshes] at h
  | loopEach =>
    simp [outline, Item.freshes, Template.freshes] at h
    simp [outline]
    omega
  | _ =>
    simp [outline, weaponFields, Item.freshes, Template.freshes] at h <;> simp [outline, h]

/-- The variables of a node are named after its definition or after the kind of its loop. -/
theorem stem_of_mem_fresh {x : Index} {n : PlacedNode} {r : Recipe} {stem : String}
    (h : stem ∈ (r.outline x n).fresh) :
    stem = n.definition.varStem ∨ stem ∈ ["i", "idx", "elem"] := by
  cases r with
  | switch type | constant type key output => simp only [outline] at h; split at h <;> simp at h
  | _ => simp [outline] at h <;> simp [h]

end Recipe

/-! ### The built-in catalog -/

namespace Catalog

/-- What a definition and a recipe of its type promise each other. -/
@[mk_iff]
structure Agrees (d : Definition) (r : Recipe) : Prop where
  inner  : d.isEntry = false
  exec   : ∀ t ∈ d.outputs, r.follows t.name = true → t.kind = .exec
  value  : r.isValue = !d.hasExec
  closed : ∀ t ∈ r.templates, t.freshes = []

instance (d : Definition) (r : Recipe) : Decidable (Agrees d r) :=
  decidable_of_iff _ (agrees_iff d r).symm

/-- What code generation relies on in a definition: the names of its ports differ, and names of
variables can be made from it. -/
@[mk_iff]
structure Sound (d : Definition) : Prop where
  inputs  : (d.inputs.map (·.name)).Nodup
  outputs : (d.outputs.map (·.name)).Nodup
  stem    : Text.isIdentifier d.varStem.toList = true
  params  : d.isEntry = true → ∀ t ∈ d.outputs, t.kind = .data →
    (Expr.ofVar (Name.identifier t.name)).isVariable = true
  recipe  : ∀ r ∈ Recipe.ofType? d.nodeType, Agrees d r

instance (d : Definition) : Decidable (Sound d) :=
  decidable_of_iff _ (sound_iff d).symm

theorem builtin_sound : ∀ d ∈ builtin.definitions, Sound d := by decide +kernel

end Catalog

namespace Flow

theorem itemTargets_eq (x : Index) (n : PlacedNode) (item : Item) :
    itemTargets x n item = (item.port?.map (targets x n)).getD [] := by
  cases item <;> rfl

/-- Control passes to nodes with an exec port only. -/
def Guided (x : Index) : Prop :=
  ∀ {id n r}, x.node? id = some n → Recipe.ofType? n.node.nodeType = some r →
    ∀ {port}, port ∈ (r.outline x n).items.filterMap Item.port? →
      ∀ a ∈ targets x n port, x.hasExec a = true

theorem guided_of_built {nodes : List Node} {connections : List Connection} {x : Index}
    (h : Index.Built .builtin nodes connections x) : Guided x := by
  intro id n r hn hr port hp a ha
  unfold targets at ha
  split at ha
  · rename_i p hout
    obtain ⟨s, hs, rfl, t, ht, rfl⟩ := PlacedNode.of_named? hout
    obtain ⟨hd, htype⟩ := h.mem_definitions hn
    have hs' := hs
    rw [h.outputs_eq hn] at hs'
    obtain ⟨hkind, hmem⟩ := PlacedNode.template_kind hs' ht
    have hexec := ((Catalog.builtin_sound n.definition hd).recipe r (by rw [htype]; exact hr)).exec
      t hmem (Recipe.follows_of_mem hp)
    rw [h.node_id hn] at ha
    exact h.hasExec_of_mem_targets hn hs (hkind ▸ hexec) ha
  · simp at ha

end Flow

end VisualScript
