import VisualScript.Proofs.Growth

/-!
# Proofs — Bindings

What is bound in the open scopes (`Scopes.Shows`).  A property of all bindings (`Scopes.Values`) is
kept by every step of a pass that binds nothing else: what is looked up or hidden stays bound, and
new are only the temporaries of a node, the outputs of a node and the variables of a block.
-/

namespace VisualScript

open Evaluation Walk

namespace Scopes

variable {ss : Scopes} {slot : Endpoint} {value : Expr}

/-- The slot has the value in some open scope. -/
def Shows (ss : Scopes) (slot : Endpoint) (value : Expr) : Prop :=
  ∃ sc ∈ ss, (slot, value) ∈ sc.bindings

instance (ss : Scopes) (slot : Endpoint) (value : Expr) : Decidable (Shows ss slot value) :=
  inferInstanceAs (Decidable (∃ sc ∈ ss, (slot, value) ∈ sc.bindings))

theorem Binds.shows (h : Binds ss slot) : ∃ value, Shows ss slot value :=
  let ⟨sc, hsc, value, hb⟩ := h
  ⟨value, sc, hsc, hb⟩

theorem Shows.binds (h : Shows ss slot value) : Binds ss slot :=
  let ⟨sc, hsc, hb⟩ := h
  ⟨sc, hsc, value, hb⟩

theorem Shows.of_drop {hidden : Nat} (h : Shows (ss.drop hidden) slot value) :
    Shows ss slot value :=
  let ⟨sc, hsc, hb⟩ := h
  ⟨sc, List.mem_of_mem_drop hsc, hb⟩

/-- What is visible stays visible. -/
theorem Grow.shows {ss ss' : Scopes} (h : Grow ss ss') (hb : Shows ss slot value) :
    Shows ss' slot value := by
  induction h with
  | nil => exact hb
  | cons hab _ ih =>
    obtain ⟨sc, hm, hv⟩ := hb
    rcases List.mem_cons.mp hm with rfl | hm
    · exact ⟨_, .head _, hab.bindings.subset hv⟩
    · obtain ⟨sc', hm', hv'⟩ := ih ⟨sc, hm, hv⟩
      exact ⟨sc', .tail _ hm', hv'⟩

/-- A value that is found is bound in an open scope. -/
theorem shows_of_lookup? : ∀ {ss ss' : Scopes} {value : Expr},
    lookup? slot ss = some (value, ss') → Shows ss slot value
  | [], _, _, h => by cases h
  | sc :: ss, ss', value, h => by
    rw [lookup?] at h
    split at h
    · rename_i e he
      cases h
      exact ⟨sc, .head _, Assoc.mem_of_lookup he⟩
    · split at h
      · rename_i e ts hl
        cases h
        obtain ⟨sc', hm, hb⟩ := shows_of_lookup? hl
        exact ⟨sc', .tail _ hm, hb⟩
      · cases h

/-- Everything that is bound has the property. -/
def Values (P : Endpoint → Expr → Prop) (ss : Scopes) : Prop :=
  ∀ sc ∈ ss, ∀ b ∈ sc.bindings, P b.1 b.2

namespace Values

variable {P Q : Endpoint → Expr → Prop} {ss ss' : Scopes} {s t : State} {n : PlacedNode}

theorem shows (h : Values P ss) {slot : Endpoint} {value : Expr} (hb : Shows ss slot value) :
    P slot value :=
  let ⟨sc, hsc, hb⟩ := hb
  h sc hsc _ hb

theorem mono (h : Values P ss) (hPQ : ∀ slot value, P slot value → Q slot value) : Values Q ss :=
  fun sc hsc b hb => hPQ _ _ (h sc hsc b hb)

theorem self (ss : Scopes) : Values (Shows ss) ss := fun sc hsc _ hb => ⟨sc, hsc, hb⟩

theorem sameAs (h : Values P ss) (hs : List.Forall₂ Scope.SameAs ss ss') : Values P ss' := by
  induction hs with
  | nil => exact h
  | cons hab _ ih =>
    intro sc hsc b hb
    rcases List.mem_cons.mp hsc with rfl | hsc
    · exact h _ (.head _) b (hab.bindings ▸ hb)
    · exact ih (fun sc hsc => h sc (.tail _ hsc)) sc hsc b hb

theorem lookup {slot : Endpoint} {value : Expr} (h : Values P ss)
    (hl : lookup? slot ss = some (value, ss')) : Values P ss' ∧ P slot value :=
  ⟨h.sameAs (lookup?_sameAs hl), h.shows (shows_of_lookup? hl)⟩

theorem modifyTop {f : Scope → Scope} (h : Values P ss)
    (hf : ∀ sc ∈ ss, ∀ b ∈ (f sc).bindings, P b.1 b.2) : Values P (modifyTop f ss) := by
  cases ss with
  | nil => exact h
  | cons sc ss =>
    intro sc' hsc b hb
    rcases List.mem_cons.mp hsc with rfl | hsc
    · exact hf sc (.head _) b hb
    · exact h sc' (.tail _ hsc) b hb

theorem bind {slot : Endpoint} {value : Expr} (h : Values P ss) (hv : P slot value) :
    Values P (Scopes.bind slot value ss) := by
  refine h.modifyTop fun sc hsc b hb => ?_
  rcases List.mem_cons.mp hb with rfl | hb
  · exact hv
  · exact h sc hsc b hb

variable (h : Values P s.scopes)

include h

theorem fetch (slot : Endpoint) :
    Values P (s.fetch slot).2.scopes ∧ ∀ e ∈ (s.fetch slot).1, P slot e := by
  unfold State.fetch
  split
  · rename_i value ss hl
    obtain ⟨h', hv⟩ := h.lookup hl
    exact ⟨h', fun e he => Option.some.inj he ▸ hv⟩
  · exact ⟨h, fun e he => by cases he⟩

theorem lower (hidden : Nat) : Values P (s.lower hidden).scopes :=
  fun sc hsc => h sc (List.mem_of_mem_drop hsc)

theorem raise {hidden : Nat} {code : Code} (ht : Values P t.scopes) :
    Values P (s.raise hidden code t).2.scopes := by
  unfold State.raise
  split
  · exact ht
  · have hmod : Values P
        (Scopes.modifyTop (fun sc => { sc with hoisted := sc.hoisted ++ code }) t.scopes) :=
      ht.modifyTop fun sc hsc => ht sc hsc
    intro sc hsc
    rcases List.mem_append.mp hsc with hsc | hsc
    · exact h sc (List.mem_of_mem_take hsc)
    · exact hmod sc hsc

theorem declare {outputs : List (String × Expr)}
    (hnew : ∀ o ∈ outputs, ∀ p, n.output? o.1 = some p → ∀ v, P ⟨n.node.id, p.id⟩ (.ofVar v)) :
    Values P (declare n outputs s).2.scopes :=
  declare_induct (P := fun t => Values P t.scopes) h fun o ho p hp _ v ht =>
    ht.bind (hnew o ho p hp v)

theorem bindOutputs {outputs : List (String × Expr)}
    (hnew : ∀ o ∈ outputs, ∀ port, P ⟨n.node.id, port⟩ o.2) :
    Values P (bindOutputs n outputs s).scopes :=
  bindOutputs_induct (P := fun t => Values P t.scopes) h fun o ho _ _ _ ht =>
    ht.bind (hnew o ho _)

theorem setHoisted (code : Code) :
    Values P (setHoisted s code).scopes := h.modifyTop fun sc hsc => h sc hsc

theorem openBlock {key : BlockKey} {isThread : Bool} {bindings : List (String × Nat)}
    {vars : List String} (hnew : ∀ port v, P ⟨n.node.id, port⟩ (.ofVar v)) :
    Values P (openBlock n key isThread bindings vars s).scopes := by
  refine bindOutputs (fun sc hsc b hb => ?_) fun o ho port => ?_
  · rcases List.mem_cons.mp hsc with rfl | hsc
    · cases hb
    · exact h sc hsc b hb
  · obtain ⟨b, -, rfl⟩ := List.mem_map.mp ho
    exact hnew port _

theorem closeBlock : Values P (closeBlock s).2.scopes := by
  obtain ⟨scopes, counter, reads⟩ := s
  cases scopes with
  | nil => exact h
  | cons sc ss => exact fun sc hsc => h sc (.tail _ hsc)

end Values

end Scopes

end VisualScript
