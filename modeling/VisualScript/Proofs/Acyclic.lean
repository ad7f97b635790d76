import VisualScript.Proofs.Ports

/-!
# Proofs — Acyclic

The search for a cycle of exec connections.  What `Index.explore` finishes with leads to no cycle,
and what it fails with stands on one; its fuel is enough, because the nodes on the way are different
nodes of the graph.  So `Index.cycleNode?` finds a node on a cycle exactly if there is one
(`cycleNode?_eq_some`, `cycleNode?_eq_none`).
-/

namespace VisualScript.Index

open Relation

/-- Control can pass directly from one node to another. -/
def Passes (x : Index) (a b : String) : Prop := b ∈ x.successors a

/-- Wherever control goes from the node, it comes to an end. -/
abbrev Ends (x : Index) (a : String) : Prop := Acc (fun b a => x.Passes a b) a

variable {x : Index} {fuel : Nat} {path finished : List String} {id : String}

theorem successors_of_not_mem (h : id ∉ x.order) : x.successors id = [] := by
  have hnone : x.node? id = none := by
    cases hn : x.node? id with
    | none => rfl
    | some n => exact absurd (List.mem_map.mpr ⟨_, mem_placed hn, rfl⟩) h
  simp [successors, outputs, hnone]

theorem explore_succ : x.explore (fuel + 1) path finished id =
    (do
      let finished ← (x.successors id).foldlM
        (fun finished next =>
          if next ∈ id :: path then .error next
          else if next ∈ finished then .ok finished
          else x.explore fuel (id :: path) finished next) finished
      return id :: finished) := rfl

/-- A search that fails has come back to a node. -/
theorem explore_error : ∀ {fuel : Nat} {path finished : List String} {id found : String},
    (∀ a ∈ path, TransGen x.Passes a id) → x.explore fuel path finished id = .error found →
      TransGen x.Passes found found
  | 0, _, _, _, _, _, h => by cases h
  | fuel + 1, path, finished, id, found, hpath, h => by
    rw [explore_succ] at h
    rcases bind_eq_error.mp h with h | ⟨_, _, h⟩
    · obtain ⟨before, next, after, finished', hsucc, -, h⟩ := foldlM_error h
      have hnext : x.Passes id next := by simp [Passes, hsucc]
      have hpath' : ∀ a ∈ id :: path, TransGen x.Passes a next := by
        intro a ha
        rcases List.mem_cons.mp ha with rfl | ha
        · exact .single hnext
        · exact (hpath a ha).tail hnext
      split at h
      · rename_i hmem
        cases h
        exact hpath' found hmem
      · split at h
        · cases h
        · exact explore_error hpath' h
    · cases h

/-- A search over the nodes `taken` has gone from `before` to `after`: it is finished with them, and
what it is finished with leads to no cycle. -/
structure Explored (x : Index) (taken before after : List String) : Prop where
  kept  : ∀ a ∈ before, a ∈ after
  ends  : ∀ a ∈ after, x.Ends a
  taken : ∀ a ∈ taken, a ∈ x.order → a ∈ after

theorem Explored.append {as bs f g k : List String} (h₁ : Explored x as f g)
    (h₂ : Explored x bs g k) : Explored x (as ++ bs) f k := by
  refine ⟨fun a ha => h₂.kept a (h₁.kept a ha), h₂.ends, fun a ha ho => ?_⟩
  rcases List.mem_append.mp ha with ha | ha
  · exact h₂.kept a (h₁.taken a ha ho)
  · exact h₂.taken a ha ho

theorem ends_of_not_mem (h : id ∉ x.order) : x.Ends id := by
  refine .intro _ fun b hb => ?_
  rw [Passes, successors_of_not_mem h] at hb
  cases hb

/-- A search that comes to its end is finished with its node. -/
theorem explore_ok (hclosed : ∀ a, ∀ b ∈ x.successors a, b ∈ x.order) :
    ∀ {fuel : Nat} {path finished finished' : List String} {id : String}, id ∉ path →
      x.remaining path ≤ fuel → (∀ a ∈ finished, x.Ends a) →
      x.explore fuel path finished id = .ok finished' → Explored x [id] finished finished'
  | 0, path, finished, finished', id, hid, hfuel, hends, h => by
    cases h
    refine ⟨fun _ h => h, hends, fun a ha hm => ?_⟩
    rw [List.mem_singleton.mp ha] at hm
    have := remaining_cons_lt hm hid
    omega
  | fuel + 1, path, finished, finished', id, hid, hfuel, hends, h => by
    rw [explore_succ] at h
    obtain ⟨finished₁, hfold, h⟩ := bind_eq_ok.mp h
    cases h
    by_cases hm : id ∈ x.order
    · have hless := remaining_cons_lt hm hid
      have hall : Explored x (x.successors id) finished finished₁ := by
        refine foldlM_ok (fun taken f => Explored x taken finished f) ?_ (x.successors id) []
          finished finished₁ ⟨fun _ h => h, hends, by simp⟩ hfold
        intro taken next f f' hf hstep
        refine hf.append ?_
        split at hstep
        · cases hstep
        rename_i hnext
        split at hstep
        · rename_i hmem
          cases hstep
          exact ⟨fun _ h => h, hf.ends, fun a ha _ => List.mem_singleton.mp ha ▸ hmem⟩
        · exact explore_ok hclosed hnext (by omega) hf.ends hstep
      refine ⟨fun a ha => .tail _ (hall.kept a ha), fun a ha => ?_, fun a ha _ =>
        List.mem_singleton.mp ha ▸ .head _⟩
      rcases List.mem_cons.mp ha with rfl | ha
      · exact .intro _ fun b hb => hall.ends b (hall.taken b hb (hclosed _ b hb))
      · exact hall.ends a ha
    · rw [successors_of_not_mem hm] at hfold
      cases hfold
      refine ⟨fun a => .tail _, fun a ha => ?_, fun a ha _ => List.mem_singleton.mp ha ▸ .head _⟩
      rcases List.mem_cons.mp ha with rfl | ha
      · exact ends_of_not_mem hm
      · exact hends a ha

/-- A node that is found stands on a cycle. -/
theorem cycleNode?_eq_some (h : x.cycleNode? = some id) : TransGen x.Passes id id := by
  unfold cycleNode? at h
  dsimp only at h
  split at h
  · rename_i found hfold
    cases h
    obtain ⟨before, root, after, finished, -, -, h⟩ := foldlM_error hfold
    split at h
    · cases h
    · exact explore_error (by simp) h
  · cases h

/-- If no node is found, there is no cycle. -/
theorem cycleNode?_eq_none (hclosed : ∀ a, ∀ b ∈ x.successors a, b ∈ x.order)
    (h : x.cycleNode? = none) : ∀ a, x.Ends a := by
  unfold cycleNode? at h
  dsimp only at h
  split at h
  · cases h
  rename_i finished hfold
  have hall : Explored x x.order [] finished := by
    refine foldlM_ok (fun taken f => Explored x taken [] f) ?_ x.order [] [] finished
      ⟨by simp, by simp, by simp⟩ hfold
    intro taken root f f' hf hstep
    refine hf.append ?_
    split at hstep
    · rename_i hmem
      cases hstep
      exact ⟨fun _ h => h, hf.ends, fun a ha _ => List.mem_singleton.mp ha ▸ hmem⟩
    · exact explore_ok hclosed (by simp) (by simp [remaining_nil, order, Assoc.keys]) hf.ends hstep
  intro a
  by_cases hm : a ∈ x.order
  · exact hall.ends a (hall.taken a hm hm)
  · exact ends_of_not_mem hm

end VisualScript.Index
