import VisualScript.Proofs.Homes

/-!
# Proofs — Availability

Which values a block can count on.  The value of an exec node has a home (`Home`): the block of the
node, or its body for a loop.  The value of another node is available in a block as a temporary, or
because everything it is written in place from is (`Available`).
-/

namespace VisualScript

open Evaluation

/-- One of the data inputs of the node is connected to the output. -/
def Evaluation.Feeds (x : Index) (n : PlacedNode) (e : Endpoint) : Prop :=
  ∃ t ∈ n.definition.inputs, t.kind = .data ∧ source? x n t = some e

/-- The outputs that are read on the way through a flow: those that feed its nodes, and those that
feed a node without exec ports that is read itself. -/
inductive Demanded (x : Index) (flow : Parts) : Endpoint → Prop where
  | visited {id : String} {n : PlacedNode} {e : Endpoint} (node : id ∈ flow.nodes)
      (placed : x.node? id = some n) (feeds : Feeds x n e) : Demanded x flow e
  | through {e e' : Endpoint} {n : PlacedNode} (read : Demanded x flow e)
      (placed : x.node? e.node = some n) (data : n.hasExec = false) (feeds : Feeds x n e') :
      Demanded x flow e'

/-- The block in which the outputs of an exec node are bound: that of the node, or its block `body`
if the node binds them inside.  The outputs of the entry are parameters. -/
def Home (x : Index) (entry : String) (flow : Parts) (slot : Endpoint) (q : Path) : Prop :=
  (slot.node = entry ∧ q = []) ∨
    ∃ p n r, (p, slot.node) ∈ flow.visits [] entry ∧ x.node? slot.node = some n ∧
      Recipe.ofType? n.node.nodeType = some r ∧
      q = if r.bindsInside then p ++ [⟨slot.node, "body"⟩] else p

theorem Home.unique {x : Index} {entry : String} {flow : Parts} {slot : Endpoint} {q q' : Path}
    (hnodup : (entry :: flow.nodes).Nodup) (h : Home x entry flow slot q)
    (h' : Home x entry flow slot q') : q = q' := by
  obtain ⟨hentry, hnodes⟩ := List.nodup_cons.mp hnodup
  rw [← Parts.visits_map_snd [] entry] at hentry hnodes
  have hmem : ∀ {p}, (p, slot.node) ∈ flow.visits [] entry →
      slot.node ∈ (flow.visits [] entry).map Prod.snd := fun hm => List.mem_map.mpr ⟨_, hm, rfl⟩
  rcases h with ⟨he, rfl⟩ | ⟨p, n, r, hv, hn, hr, rfl⟩ <;>
    rcases h' with ⟨he', rfl⟩ | ⟨p', n', r', hv', hn', hr', rfl⟩
  · rfl
  · exact absurd (he ▸ hmem hv') hentry
  · exact absurd (he' ▸ hmem hv) hentry
  · cases List.inj_on_of_nodup_map hnodes hv hv' rfl
    rw [hn] at hn'
    cases hn'
    rw [hr] at hr'
    cases hr'
    rfl

/-- The home of the slot encloses the block `p`. -/
def Reached (x : Index) (entry : String) (flow : Parts) (slot : Endpoint) (p : Path) : Prop :=
  ∃ q, Home x entry flow slot q ∧ q <+: p

/-- The value of an output can be had in the block `p`, where `T` says in which blocks the
temporaries of a node can be had, and `E` in which blocks the outputs of exec nodes can. -/
inductive Available (x : Index) (T : String → Path → Prop) (E : Endpoint → Path → Prop)
    (p : Path) : Endpoint → Prop where
  | exec {e : Endpoint} {n : PlacedNode} (node : x.node? e.node = some n) (exec : n.hasExec = true)
      (home : E e p) : Available x T E p e
  | temporary {e : Endpoint} {n : PlacedNode} (node : x.node? e.node = some n)
      (data : n.hasExec = false) (kept : isInlined x n = false) (home : T e.node p) :
      Available x T E p e
  | inline {e : Endpoint} {n : PlacedNode} (node : x.node? e.node = some n)
      (data : n.hasExec = false) (inlined : isInlined x n = true)
      (sources : ∀ e', Feeds x n e' → Available x T E p e') : Available x T E p e

namespace Available

variable {x : Index} {T T' : String → Path → Prop} {E : Endpoint → Path → Prop} {p q : Path}
  {e : Endpoint}

theorem mono (hT : ∀ id, T id p → T' id q) (hE : ∀ e, E e p → E e q)
    (h : Available x T E p e) : Available x T' E q e := by
  induction h with
  | exec hn hx hE' => exact .exec hn hx (hE _ hE')
  | temporary hn hx hi hT' => exact .temporary hn hx hi (hT _ hT')
  | inline hn hx hi _ ih => exact .inline hn hx hi ih

theorem of_exec {n : PlacedNode} (h : Available x T E p e) (hn : x.node? e.node = some n)
    (hx : n.hasExec = true) : E e p := by
  cases h with
  | exec _ _ hE => exact hE
  | temporary hn' hx' | inline hn' hx' =>
    rw [hn] at hn'
    cases hn'
    simp [hx] at hx'

theorem of_temporary {n : PlacedNode} (h : Available x T E p e) (hn : x.node? e.node = some n)
    (hx : n.hasExec = false) (hi : isInlined x n = false) : T e.node p := by
  cases h with
  | temporary _ _ _ hT => exact hT
  | exec hn' hx' =>
    rw [hn] at hn'
    cases hn'
    simp [hx] at hx'
  | inline hn' _ hi' =>
    rw [hn] at hn'
    cases hn'
    simp [hi] at hi'

theorem of_inline {n : PlacedNode} (h : Available x T E p e) (hn : x.node? e.node = some n)
    (hx : n.hasExec = false) (hi : isInlined x n = true) {e' : Endpoint} (hf : Feeds x n e') :
    Available x T E p e' := by
  cases h with
  | inline hn' _ _ hs =>
    rw [hn] at hn'
    cases hn'
    exact hs e' hf
  | exec hn' hx' =>
    rw [hn] at hn'
    cases hn'
    simp [hx] at hx'
  | temporary hn' _ hi' =>
    rw [hn] at hn'
    cases hn'
    simp [hi] at hi'

/-- What is available in every block of a set is available in a block `l` around them, if that
holds of temporaries and of the outputs of exec nodes. -/
theorem around {S : Path → Prop} {l : Path}
    (hT : ∀ id, (∀ q, S q → T id q) → T id l) (hE : ∀ e, (∀ q, S q → E e q) → E e l)
    (hp : S p) (h : ∀ q, S q → Available x T E q e) : Available x T E l e := by
  have h₀ := h p hp
  induction h₀ with
  | exec hn hx _ => exact .exec hn hx (hE _ fun q hq => (h q hq).of_exec hn hx)
  | temporary hn hx hi _ =>
    exact .temporary hn hx hi (hT _ fun q hq => (h q hq).of_temporary hn hx hi)
  | inline hn hx hi _ ih =>
    exact .inline hn hx hi fun e' hf => ih e' hf fun q hq => (h q hq).of_inline hn hx hi hf

end Available

end VisualScript
