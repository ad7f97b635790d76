import VisualScript.Proofs.Code
import VisualScript.Proofs.Reading
import VisualScript.Script.Entry

/-!
# Proofs — Walking

How a pass over the flow of an entry runs.  `Walk.chain` and `Walk.parts` recurse on the flow; a
property of chains and a property of parts that are closed under the items a node can have
(`Walking`) hold of every pass that succeeds (`Walking.chain`, `Walking.parts`).  The function of an
entry comes from two such passes (`EntryFunction.make_ok`) and prints every part of its body
(`EntryFunction.render_tail`).
-/

namespace VisualScript

open Walk

/-- A property `C` of chains and a property `P` of the parts of a node that are kept by every step
of a pass.  The runs themselves are at hand where one property is proved with the help of another. -/
structure Walking (x : Index) (pass : Pass) (C : Chain → State → Code → State → Prop)
    (P : PlacedNode → Filling → Parts → State → Code → State → Prop) : Prop where
  finish : ∀ {s}, C .done s .done s
  step : ∀ {id own rest s n filling before s₁ code s₂ after s₃}, x.node? id = some n →
    enter x pass n s = .ok (filling, before, s₁) →
    Walk.parts x pass n filling own (setHoisted s₁ .done) = .ok (code, s₂) →
    Walk.chain x pass rest (setHoisted s₂ (hoisted s₁)) = .ok (after, s₃) →
    P n filling own (setHoisted s₁ .done) code s₂ →
    C rest (setHoisted s₂ (hoisted s₁)) after s₃ →
    C (.step id own rest) s
      (before ++ hoisted s₂ ++ .mark id filling.inputs filling.vars (code ++ after)) s₃
  nil : ∀ {n filling s}, P n filling .done s .done s
  line : ∀ {n filling t rest s after s'}, P n filling rest s after s' →
    P n filling (.line t rest) s (.line (t.fill filling.inputs filling.vars) after) s'
  follow : ∀ {n filling body rest s code s₁ after s₂},
    Walk.parts x pass n filling rest s₁ = .ok (after, s₂) → C body s code s₁ →
    P n filling rest s₁ after s₂ → P n filling (.follow body rest) s (code ++ after) s₂
  block : ∀ {n filling port bindings tail body rest s code s₁ after s₂},
    Walk.chain x pass body (openBlock n ⟨n.node.id, port⟩ false bindings filling.vars s) =
      .ok (code, s₁) →
    Walk.parts x pass n filling rest (closeBlock s₁).2 = .ok (after, s₂) →
    C body (openBlock n ⟨n.node.id, port⟩ false bindings filling.vars s) code s₁ →
    P n filling rest (closeBlock s₁).2 after s₂ →
    P n filling (.block port bindings tail body rest) s
      (.block ⟨n.node.id, port⟩ (code ++ .ofLines tail) after) s₂
  named : ∀ {n filling port name body rest s e after s'},
    namedFunction? filling.inputs = some e → P n filling rest s after s' →
    P n filling (.thread port name false body rest) s
      (.line (.text "thread " :: e ++ Expr.ofText "()") after) s'
  thread : ∀ {n filling port name isConnected body rest s code s₁ after s₂},
    Walk.chain x pass body (openBlock n ⟨n.node.id, port⟩ true [] filling.vars s) =
      .ok (code, s₁) →
    Walk.parts x pass n filling rest (closeBlock s₁).2 = .ok (after, s₂) →
    C body (openBlock n ⟨n.node.id, port⟩ true [] filling.vars s) code s₁ →
    P n filling rest (closeBlock s₁).2 after s₂ →
    P n filling (.thread port name isConnected body rest) s
      (.thread ⟨n.node.id, port⟩ name (closeBlock s₁).1 code after) s₂

/-- What each binding keeps, the bindings of the outputs of a node keep. -/
theorem Walk.bindOutputs_induct {P : State → Prop} {n : PlacedNode} :
    ∀ {outputs : List (String × Expr)} {s : State}, P s →
      (∀ o ∈ outputs, ∀ p, n.output? o.1 = some p → ∀ t, P t → P (t.bind ⟨n.node.id, p.id⟩ o.2)) →
      P (bindOutputs n outputs s)
  | [], _, h, _ => h
  | (name, value) :: outputs, s, h, hstep => by
    unfold bindOutputs
    rw [List.foldl_cons]
    refine bindOutputs_induct ?_ fun o ho => hstep o (.tail _ ho)
    dsimp only
    split
    · exact hstep _ (.head _) _ ‹_› s h
    · exact h

namespace Walking

variable {x : Index} {pass : Pass} {C : Chain → State → Code → State → Prop}
  {P : PlacedNode → Filling → Parts → State → Code → State → Prop}

mutual

/-- A closed property holds of every chain that is walked to its end. -/
theorem chain (h : Walking x pass C P) : ∀ (c : Chain) {s s' : State} {code : Code},
    Walk.chain x pass c s = .ok (code, s') → C c s code s'
  | .done, _, _, _, hw => by
    rw [Walk.chain] at hw
    cases hw
    exact h.finish
  | .halt _, _, _, _, hw => by
    rw [Walk.chain] at hw
    cases hw
  | .step id own rest, s, s', code, hw => by
    rw [Walk.chain] at hw
    split at hw
    · cases hw
    · rename_i n hn
      obtain ⟨⟨filling, before, s₁⟩, h₁, hw⟩ := bind_eq_ok.mp hw
      obtain ⟨⟨own', s₂⟩, h₂, hw⟩ := bind_eq_ok.mp hw
      obtain ⟨⟨after, s₃⟩, h₃, hw⟩ := bind_eq_ok.mp hw
      cases hw
      exact h.step hn h₁ h₂ h₃ (h.parts own h₂) (h.chain rest h₃)

/-- A closed property holds of the items of every node that are walked to their end. -/
theorem parts (h : Walking x pass C P) {n : PlacedNode} {filling : Filling} :
    ∀ (p : Parts) {s s' : State} {code : Code},
      Walk.parts x pass n filling p s = .ok (code, s') → P n filling p s code s'
  | .done, _, _, _, hw => by
    rw [Walk.parts] at hw
    cases hw
    exact h.nil
  | .line t rest, _, _, _, hw => by
    rw [Walk.parts] at hw
    obtain ⟨⟨after, s₁⟩, h₁, hw⟩ := bind_eq_ok.mp hw
    cases hw
    exact h.line (h.parts rest h₁)
  | .follow body rest, _, _, _, hw => by
    rw [Walk.parts] at hw
    obtain ⟨⟨code, s₁⟩, h₁, hw⟩ := bind_eq_ok.mp hw
    obtain ⟨⟨after, s₂⟩, h₂, hw⟩ := bind_eq_ok.mp hw
    cases hw
    exact h.follow h₂ (h.chain body h₁) (h.parts rest h₂)
  | .block port bindings tail body rest, _, _, _, hw => by
    rw [Walk.parts] at hw
    obtain ⟨⟨code, s₁⟩, h₁, hw⟩ := bind_eq_ok.mp hw
    obtain ⟨⟨after, s₂⟩, h₂, hw⟩ := bind_eq_ok.mp hw
    cases hw
    exact h.block h₁ h₂ (h.chain body h₁) (h.parts rest h₂)
  | .thread port name isConnected body rest, _, _, _, hw => by
    rw [Walk.parts.eq_def] at hw
    dsimp only at hw
    split at hw
    · rename_i e hf
      obtain ⟨⟨after, s₁⟩, h₁, hw⟩ := bind_eq_ok.mp hw
      cases hw
      exact h.named hf (h.parts rest h₁)
    · obtain ⟨⟨code, s₁⟩, h₁, hw⟩ := bind_eq_ok.mp hw
      obtain ⟨⟨after, s₂⟩, h₂, hw⟩ := bind_eq_ok.mp hw
      cases hw
      exact h.thread h₁ h₂ (h.chain body h₁) (h.parts rest h₂)

end

end Walking

/-- What entering a node goes through: its recipe, its inputs, its outline filled in. -/
theorem Walk.enter_ok {x : Index} {pass : Pass} {n : PlacedNode} {s s' : State}
    {filling : Filling} {code : Code} (h : enter x pass n s = .ok (filling, code, s')) :
    ∃ r s₁ em s₂, Recipe.ofType? n.node.nodeType = some r ∧
      Evaluation.inputs x pass n s = .ok (filling.inputs, code, s₁) ∧
      Evaluation.emit (r.outline x n) filling.inputs s₁ = .ok (em, s₂) ∧
      filling.vars = em.vars ∧ s' = bindOutputs n em.outputs s₂ := by
  unfold enter at h
  split at h
  · cases h
  · rename_i r hr
    obtain ⟨⟨inputs, c, s₁⟩, h₁, h⟩ := bind_eq_ok.mp h
    obtain ⟨⟨em, s₂⟩, h₂, h⟩ := bind_eq_ok.mp h
    cases h
    exact ⟨r, s₁, em, s₂, hr, h₁, h₂, rfl, rfl⟩

namespace EntryFunction

/-- The body of an entry function starts with its parameters and nothing else. -/
theorem initial_scopes (n : PlacedNode) : (initial n).scopes =
    [{ bindings := ((paramsOf n).map fun (slot, _, name) => (slot, Expr.ofVar name)).reverse }] := by
  have key : ∀ (params : List (Endpoint × String × String)) (sc : Scope) (s : State),
      s.scopes = [sc] →
      (params.foldl (fun s (slot, _, name) => s.bind slot (.ofVar name)) s).scopes =
        [{ sc with bindings := (params.map fun (slot, _, name) => (slot, Expr.ofVar name)).reverse ++
            sc.bindings }] := by
    intro params
    induction params with
    | nil => exact fun sc s hs => hs
    | cons q params ih =>
      intro sc s hs
      rw [List.foldl_cons, ih (sc.bind q.1 (.ofVar q.2.2)) _ (by
        simp [State.bind, hs, Scopes.bind, Scopes.modifyTop])]
      simp [Scope.bind]
  rw [initial, key (paramsOf n) {} _ rfl, List.append_nil]

@[simp] theorem initial_reads (n : PlacedNode) : (initial n).reads = [] := by
  have key : ∀ (params : List (Endpoint × String × String)) (s : State),
      (params.foldl (fun s (slot, _, name) => s.bind slot (.ofVar name)) s).reads = s.reads := by
    intro params
    induction params with
    | nil => exact fun _ => rfl
    | cons q params ih => exact fun s => ih _
  exact key _ _

/-- A pass over an entry fails with the pass over its flow, or at its name. -/
theorem walk_error_iff {x : Index} {pass : Pass} {n : PlacedNode} {flow : Parts} {f : Failure} :
    walk x pass n flow = .error f ↔ walkFlow x pass n flow = .error f ∨
      (∃ done, walkFlow x pass n flow = .ok done) ∧ givenName? n = none ∧ f = .numberTooLong := by
  cases h : walkFlow x pass n flow <;> cases hn : givenName? n <;>
    simp [walk, h, hn, bind, Except.bind, throw, throwThe, MonadExceptOf.throw, pure, Except.pure,
      eq_comm]

theorem walk_ok_iff {x : Index} {pass : Pass} {n : PlacedNode} {flow : Parts} {r : Code × State} :
    walk x pass n flow = .ok r ↔ walkFlow x pass n flow = .ok r ∧ (givenName? n).isSome := by
  cases h : walkFlow x pass n flow <;> cases hn : givenName? n <;>
    simp [walk, h, hn, bind, Except.bind, throw, throwThe, MonadExceptOf.throw, pure, Except.pure]

/-- The function of an entry comes from two passes over its flow. -/
theorem make_ok {x : Index} {moduleId : String} {n : PlacedNode} {flow : Parts}
    {f : EntryFunction} (h : make x moduleId n flow = .ok f) :
    ∃ first recorded last, walkFlow x .recording n flow = .ok (first, recorded) ∧
      walkFlow x (.placing recorded.reads) n flow = .ok (f.body, last) ∧ f.entry = n ∧
      f.params = (paramsOf n).map Prod.snd ∧ (givenName? n).isSome := by
  unfold make at h
  obtain ⟨⟨first, recorded⟩, h₁, h⟩ := bind_eq_ok.mp h
  obtain ⟨⟨body, last⟩, h₂, h⟩ := bind_eq_ok.mp h
  cases h
  obtain ⟨hfirst, hname⟩ := walk_ok_iff.mp h₁
  exact ⟨first, recorded, last, hfirst, (walk_ok_iff.mp h₂).1, rfl, rfl, hname⟩

theorem mem_render {indent line : String} {f : EntryFunction}
    (h : line ∈ f.body.render indent 1 ++ f.body.threads.flatMap (·.render indent)) :
    line ∈ f.render indent := by
  have hlines : line ∈ f.body.render indent 1 ++ ["\x7d"] ++
      f.body.threads.flatMap fun t => "" :: t.render indent := by
    rcases List.mem_append.mp h with h | h
    · exact List.mem_append_left _ (List.mem_append_left _ h)
    · obtain ⟨t, ht, hm⟩ := List.mem_flatMap.mp h
      exact List.mem_append_right _ (List.mem_flatMap.mpr ⟨t, ht, .tail _ hm⟩)
  unfold render
  dsimp only
  split <;> simp only [List.mem_append, List.mem_cons, List.append_assoc] at hlines ⊢ <;> tauto

/-- What is printed for a part of the body is printed for the function. -/
theorem render_tail (indent : String) {f : EntryFunction} {d : Code} (h : d ∈ f.body.tails) :
    ∃ depth, d.render indent depth ⊆ f.render indent := by
  obtain ⟨k, hs | ⟨u, hu, hs⟩⟩ := Code.render_tail indent 1 h
  · exact ⟨k, fun _ hl => mem_render (List.mem_append_left _ (hs hl))⟩
  · refine ⟨k, fun _ hl => mem_render (List.mem_append_right _ (List.mem_flatMap.mpr ⟨u, hu, ?_⟩))⟩
    exact List.mem_append_left _ (List.mem_append_right _ (hs hl))

end EntryFunction

end VisualScript
