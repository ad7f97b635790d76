import VisualScript.Proofs.Pairing
import VisualScript.Proofs.WellFormed

/-!
# Proofs — Search

The search for a cycle of exec connections, one step at a time.  `Index.cycleNode?` recurses with
fuel; `Search` is a machine that needs none.  Every node has a colour, and a stack holds the way to
the node that is looked at, each node on it with the successors that have not been looked at.

`Follows` relates the two: the nodes in progress are those on the stack, the nodes that are done are
the finished ones of the recursion, and the machine goes on exactly where the recursion returns
(`follows_explore`).  So the machine comes to its end, and with the same answer
(`Index.endsWith_start`).
-/

namespace VisualScript

open Relation

/-- How far a search has come with a node. -/
inductive Colour where
  | unvisited
  | inProgress
  | done
deriving DecidableEq, Repr

/-- Where a search stands. -/
structure Search where
  colour : String → Colour
  /-- The way to the node that is looked at, the latest first.  With each node stand the successors
  that have not been looked at. -/
  stack  : List (String × List String)
  /-- The nodes from which the search has not been started. -/
  roots  : List String

namespace Search

def start (x : Index) : Search := ⟨fun _ => .unvisited, [], x.order⟩

/-- One step of the search: the search after it, or the answer. -/
def step (x : Index) : Search → Search ⊕ Option String
  | ⟨_, [], []⟩ => .inr none
  | ⟨colour, [], root :: roots⟩ =>
      if colour root = .unvisited then
        .inl ⟨Function.update colour root .inProgress, [(root, x.successors root)], roots⟩
      else .inl ⟨colour, [], roots⟩
  | ⟨colour, (id, []) :: stack, roots⟩ => .inl ⟨Function.update colour id .done, stack, roots⟩
  | ⟨colour, (id, next :: left) :: stack, roots⟩ =>
      match colour next with
      | .inProgress => .inr (some next)
      | .done       => .inl ⟨colour, (id, left) :: stack, roots⟩
      | .unvisited  =>
          .inl ⟨Function.update colour next .inProgress,
            (next, x.successors next) :: (id, left) :: stack, roots⟩

/-- The search comes to its end with an answer. -/
inductive EndsWith (x : Index) : Search → Option String → Prop where
  | now {s : Search} {answer : Option String} (h : s.step x = .inr answer) : EndsWith x s answer
  | later {s s' : Search} {answer : Option String} (h : s.step x = .inl s')
      (t : EndsWith x s' answer) : EndsWith x s answer

variable {x : Index} {colour : String → Colour} {path finished : List String}
  {stack : List (String × List String)} {roots : List String} {id : String}

theorem EndsWith.unique {s : Search} {a b : Option String} (ha : EndsWith x s a)
    (hb : EndsWith x s b) : a = b := by
  induction ha with
  | now h =>
    cases hb with
    | now h' => exact Sum.inr.inj (h.symm.trans h')
    | later h' _ => cases h.symm.trans h'
  | later h _ ih =>
    cases hb with
    | now h' => cases h.symm.trans h'
    | later h' t =>
      cases h.symm.trans h'
      exact ih t

/-! ### Colours -/

/-- The nodes of a path are in progress, and the finished ones are done. -/
structure Painted (colour : String → Colour) (path finished : List String) : Prop where
  inProgress : ∀ a, colour a = .inProgress ↔ a ∈ path
  done       : ∀ a, colour a = .done ↔ a ∈ finished

namespace Painted

theorem unvisited (h : Painted colour path finished) {a : String} (hp : a ∉ path)
    (hf : a ∉ finished) : colour a = .unvisited := by
  cases hc : colour a with
  | unvisited => rfl
  | inProgress => exact absurd ((h.inProgress a).mp hc) hp
  | done => exact absurd ((h.done a).mp hc) hf

/-- A node that is entered comes on the path. -/
theorem enter (h : Painted colour path finished) (hf : id ∉ finished) :
    Painted (Function.update colour id .inProgress) (id :: path) finished := by
  constructor <;> intro a <;> by_cases ha : a = id
  · simp [ha]
  · simp [ha, h.inProgress]
  · simp [ha, hf]
  · simp [ha, h.done]

/-- A node that is left is done. -/
theorem leave (h : Painted colour (id :: path) finished) (hp : id ∉ path) :
    Painted (Function.update colour id .done) path (id :: finished) := by
  constructor <;> intro a <;> by_cases ha : a = id
  · simp [ha, hp]
  · simp [ha, h.inProgress]
  · simp [ha]
  · simp [ha, h.done]

end Painted

/-! ### Steps at a successor -/

section Steps

variable {next : String} {left : List String}

theorem step_inProgress (h : colour next = .inProgress) :
    step x ⟨colour, (id, next :: left) :: stack, roots⟩ = .inr (some next) := by
  simp only [step, h]

theorem step_done (h : colour next = .done) :
    step x ⟨colour, (id, next :: left) :: stack, roots⟩ =
      .inl ⟨colour, (id, left) :: stack, roots⟩ := by
  simp only [step, h]

theorem step_unvisited (h : colour next = .unvisited) :
    step x ⟨colour, (id, next :: left) :: stack, roots⟩ =
      .inl ⟨Function.update colour next .inProgress,
        (next, x.successors next) :: (id, left) :: stack, roots⟩ := by
  simp only [step, h]

end Steps

/-! ### The machine follows the recursion -/

/-- The search does what the recursion does that returns `result`: it ends with the node that is
found, or it comes back to the rest of the stack with the nodes coloured that are finished. -/
structure Follows (x : Index) (s : Search) (result : Except String (List String))
    (path : List String) (rest : List (String × List String)) : Prop where
  found : ∀ {a}, result = .error a → EndsWith x s (some a)
  back  : ∀ {finished}, result = .ok finished → ∃ colour, Painted colour path finished ∧
    ∀ answer, EndsWith x ⟨colour, rest, s.roots⟩ answer → EndsWith x s answer

theorem Follows.later {s s' : Search} {result : Except String (List String)}
    {rest : List (String × List String)} (h : s.step x = .inl s') (hr : s'.roots = s.roots)
    (t : Follows x s' result path rest) : Follows x s result path rest := by
  refine ⟨fun ha => .later h (t.found ha), fun hf => ?_⟩
  obtain ⟨colour, hp, hback⟩ := t.back hf
  exact ⟨colour, hp, fun answer he => .later h (hback answer (hr ▸ he))⟩

/-- One part of the recursion after another. -/
theorem Follows.bind {s : Search} {result : Except String (List String)}
    {f : List String → Except String (List String)} {path' : List String}
    {rest rest' : List (String × List String)} (h : Follows x s result path rest)
    (hf : ∀ {colour finished}, result = .ok finished → Painted colour path finished →
      Follows x ⟨colour, rest, s.roots⟩ (f finished) path' rest') :
    Follows x s (result >>= f) path' rest' := by
  refine ⟨fun he => ?_, fun he => ?_⟩
  · rcases bind_eq_error.mp he with he | ⟨finished, hok, he⟩
    · exact h.found he
    · obtain ⟨colour, hp, hback⟩ := h.back hok
      exact hback _ ((hf hok hp).found he)
  · obtain ⟨finished, hok, he⟩ := bind_eq_ok.mp he
    obtain ⟨colour, hp, hback⟩ := h.back hok
    obtain ⟨colour', hp', hback'⟩ := (hf hok hp).back he
    exact ⟨colour', hp', fun answer ha => hback answer (hback' answer ha)⟩

/-- What the recursion does with one successor of `id`. -/
def visit (x : Index) (fuel : Nat) (path : List String) (id : String) (finished : List String)
    (next : String) : Except String (List String) :=
  if next ∈ id :: path then .error next
  else if next ∈ finished then .ok finished
  else x.explore fuel (id :: path) finished next

/-- The recursion enters a node that is neither on the way nor finished, and the search follows. -/
def Entering (x : Index) (fuel : Nat) (path : List String) : Prop :=
  ∀ {id finished colour stack roots}, id ∈ x.order → id ∉ path →
    Painted colour (id :: path) finished →
    Follows x ⟨colour, (id, x.successors id) :: stack, roots⟩ (x.explore fuel path finished id)
      path stack

/-- One successor of a node is looked at. -/
theorem follows_visit {fuel : Nat} {next : String} {left : List String}
    (hexplore : Entering x fuel (id :: path)) (hnext : next ∈ x.order)
    (hp : Painted colour (id :: path) finished) :
    Follows x ⟨colour, (id, next :: left) :: stack, roots⟩ (visit x fuel path id finished next)
      (id :: path) ((id, left) :: stack) := by
  unfold visit
  by_cases hpath : next ∈ id :: path
  · rw [if_pos hpath]
    refine ⟨fun h => ?_, fun h => (by cases h)⟩
    cases h
    exact .now (step_inProgress ((hp.inProgress _).mpr hpath))
  rw [if_neg hpath]
  by_cases hdone : next ∈ finished
  · rw [if_pos hdone]
    refine ⟨fun h => (by cases h), fun h => ?_⟩
    cases h
    exact ⟨colour, hp, fun answer ha => .later (step_done ((hp.done _).mpr hdone)) ha⟩
  · rw [if_neg hdone]
    exact (hexplore hnext hpath (hp.enter hdone)).later
      (step_unvisited (hp.unvisited hpath hdone)) rfl

/-- The successors of a node are looked at one after the other. -/
theorem follows_visits {fuel : Nat} (hexplore : Entering x fuel (id :: path)) :
    ∀ {left finished : List String} {colour : String → Colour}, (∀ a ∈ left, a ∈ x.order) →
      Painted colour (id :: path) finished →
      Follows x ⟨colour, (id, left) :: stack, roots⟩ (left.foldlM (visit x fuel path id) finished)
        (id :: path) ((id, []) :: stack)
  | [], finished, colour, _, hp => by
    refine ⟨fun h => (by cases h), fun h => ?_⟩
    cases h
    exact ⟨colour, hp, fun _ ha => ha⟩
  | next :: left, finished, colour, hleft, hp => by
    rw [List.foldlM_cons]
    exact (follows_visit hexplore (hleft next (.head _)) hp).bind fun _ hp' =>
      follows_visits hexplore (fun a ha => hleft a (.tail _ ha)) hp'

/-- A node that has been entered is followed to its end. -/
theorem follows_explore (hclosed : ∀ a, ∀ b ∈ x.successors a, b ∈ x.order) :
    ∀ {fuel : Nat} {path : List String}, x.remaining path ≤ fuel → Entering x fuel path
  | 0, path, hfuel, id, _, _, _, _, hid, hpath, _ => by
    have := Index.remaining_cons_lt hid hpath
    omega
  | fuel + 1, path, hfuel, id, finished, colour, stack, roots, hid, hpath, hp => by
    have hless := Index.remaining_cons_lt hid hpath
    have hexplore : Entering x fuel (id :: path) := follows_explore hclosed (by omega)
    rw [Index.explore_succ]
    refine Follows.bind (follows_visits hexplore (hclosed id) hp) fun _ hp' => ?_
    refine ⟨fun h => (by cases h), fun h => ?_⟩
    cases h
    exact ⟨_, hp'.leave hpath, fun answer ha => .later rfl ha⟩

end Search

open Search

namespace Index

variable {x : Index}

/-- The search is started from the nodes in their order, except those that are done. -/
theorem endsWith_roots (hclosed : ∀ a, ∀ b ∈ x.successors a, b ∈ x.order) :
    ∀ {roots finished : List String} {colour : String → Colour}
      {result : Except String (List String)}, (∀ a ∈ roots, a ∈ x.order) →
      Painted colour [] finished →
      roots.foldlM (fun finished root =>
        if root ∈ finished then .ok finished else x.explore x.order.length [] finished root)
        finished = result →
      (∀ a, result = .error a → EndsWith x ⟨colour, [], roots⟩ (some a)) ∧
        ∀ f, result = .ok f → EndsWith x ⟨colour, [], roots⟩ none
  | [], _, _, _, _, _, h => by
    subst h
    exact ⟨fun _ h => (by cases h), fun _ _ => .now rfl⟩
  | root :: roots, finished, colour, result, hroots, hp, h => by
    have hrest : ∀ a ∈ roots, a ∈ x.order := fun a ha => hroots a (.tail _ ha)
    rw [List.foldlM_cons] at h
    by_cases hdone : root ∈ finished
    · rw [if_pos hdone] at h
      have hstep : step x ⟨colour, [], root :: roots⟩ = .inl ⟨colour, [], roots⟩ := by
        simp only [step, (hp.done root).mpr hdone, reduceCtorEq, if_false]
      obtain ⟨hfound, hnone⟩ := endsWith_roots hclosed hrest hp h
      exact ⟨fun a ha => .later hstep (hfound a ha), fun f hf => .later hstep (hnone f hf)⟩
    rw [if_neg hdone] at h
    let entered : Search :=
      ⟨Function.update colour root .inProgress, [(root, x.successors root)], roots⟩
    have hstep : step x ⟨colour, [], root :: roots⟩ = .inl entered := by
      simp only [step, hp.unvisited List.not_mem_nil hdone, if_true, entered]
    have hfuel : x.remaining [] ≤ x.order.length := by simp [remaining_nil, order, Assoc.keys]
    have hfollow : Follows x entered (x.explore x.order.length [] finished root) [] [] :=
      follows_explore hclosed hfuel (hroots root (.head _)) List.not_mem_nil (hp.enter hdone)
    cases hexplore : x.explore x.order.length [] finished root with
    | error a =>
      rw [hexplore] at h
      subst h
      refine ⟨fun b hb => ?_, fun f hf => (by cases hf)⟩
      cases hb
      exact .later hstep (hfollow.found hexplore)
    | ok finished' =>
      rw [hexplore] at h
      obtain ⟨colour', hp', hback⟩ := hfollow.back hexplore
      obtain ⟨hfound, hnone⟩ := endsWith_roots hclosed hrest hp' h
      exact ⟨fun a ha => .later hstep (hback _ (hfound a ha)),
        fun f hf => .later hstep (hback _ (hnone f hf))⟩

/-- The machine comes to its end with the answer of the recursion. -/
theorem endsWith_start (hclosed : ∀ a, ∀ b ∈ x.successors a, b ∈ x.order) :
    EndsWith x (start x) x.cycleNode? := by
  have hp : Painted (fun _ => .unvisited) [] [] := ⟨by simp, by simp⟩
  unfold cycleNode?
  dsimp only
  split
  · rename_i a ha
    exact (endsWith_roots hclosed (fun _ h => h) hp ha).1 a rfl
  · rename_i f hf
    exact (endsWith_roots hclosed (fun _ h => h) hp hf).2 f rfl

end Index

namespace Graph

variable {catalog : Catalog} {nodes : List Node} {connections : List Connection}

/-- **The search for a cycle of exec connections.**  Where the nodes and the connections pass their
checks, the search comes to its end and `cycleNode?` is its only answer.  It finds nothing exactly
if no cycle is there, and what it finds stands on a cycle. -/
theorem cycle_search {placed x : Index}
    (hnodes : nodes.foldlM (Index.addNode catalog) {} = .ok placed)
    (hconnections : connections.foldlM Index.addConnection placed = .ok x) :
    (∀ answer, Search.EndsWith x (.start x) answer ↔ answer = x.cycleNode?) ∧
      (x.cycleNode? = none ↔ ∀ a, ¬ TransGen (ExecEdge catalog nodes connections) a a) ∧
      ∀ id, x.cycleNode? = some id → TransGen (ExecEdge catalog nodes connections) id id := by
  have hb := Index.built_of_foldlM hnodes hconnections
  have hclosed := mem_order_of_successors hb
  have hends := Index.endsWith_start hclosed
  have honly : ∀ answer, Search.EndsWith x (.start x) answer ↔ answer = x.cycleNode? :=
    fun answer => ⟨fun h => h.unique hends, fun h => h ▸ hends⟩
  have hfound : ∀ id, x.cycleNode? = some id →
      TransGen (ExecEdge catalog nodes connections) id id := fun id h =>
    (transGen_passes_iff hb id id).mp (Index.cycleNode?_eq_some h)
  refine ⟨honly, ⟨fun h a hc => ?_, fun h => ?_⟩, hfound⟩
  · have hacc := Index.cycleNode?_eq_none hclosed h a
    exact not_transGen_of_acc hacc (transGen_swap.mpr ((transGen_passes_iff hb a a).mpr hc))
  · cases hc : x.cycleNode? with
    | none => rfl
    | some id => exact absurd (hfound id hc) (h id)

/-- Two steps that lead back to the first, which is also led to from outside, and a node that leads
to itself. -/
def loopNodes : List Node :=
  [{ id := "spawn", nodeType := "on-player-respawned" },
   { id := "a", nodeType := "print"
     inputs := [{ id := "i0", kind := .exec }, { id := "i1", kind := .exec }]
     outputs := [{ id := "o", kind := .exec, isInput := false }] },
   { id := "b", nodeType := "print" }, { id := "c", nodeType := "print" }]

def loopConnections : List Connection :=
  [⟨"c0", ⟨"spawn", "output_0"⟩, ⟨"a", "i0"⟩⟩, ⟨"c1", ⟨"a", "o"⟩, ⟨"b", "input_0"⟩⟩,
   ⟨"c2", ⟨"b", "output_0"⟩, ⟨"a", "i1"⟩⟩, ⟨"c3", ⟨"c", "output_0"⟩, ⟨"c", "input_0"⟩⟩]

theorem cycle_search_loop : ∃ placed x, loopNodes.foldlM (Index.addNode .builtin) {} = .ok placed ∧
    loopConnections.foldlM Index.addConnection placed = .ok x ∧ x.cycleNode? = some "a" ∧
    Search.EndsWith x (.start x) (some "a") ∧
    TransGen (ExecEdge .builtin loopNodes loopConnections) "a" "a" := by
  have hcheck : ((loopNodes.foldlM (Index.addNode .builtin) {}).toOption.bind fun placed =>
      (loopConnections.foldlM Index.addConnection placed).toOption.bind (·.cycleNode?)) =
      some "a" := by
    rw [Index.addNode_builtin]
    decide +kernel
  obtain ⟨placed, hnodes, hcheck⟩ := Option.bind_eq_some_iff.mp hcheck
  obtain ⟨x, hconnections, hfound⟩ := Option.bind_eq_some_iff.mp hcheck
  have hnodes := ok_of_toOption hnodes
  have hconnections := ok_of_toOption hconnections
  obtain ⟨hends, -, hcycle⟩ := cycle_search hnodes hconnections
  exact ⟨placed, x, hnodes, hconnections, hfound, (hends _).mpr hfound.symm, hcycle "a" hfound⟩

end Graph

end VisualScript
